import Zblob.DirStoreMap
import Zblob.Ranges
import Zblob.Serving
import Zblob.Walked

/-!
The keys of every plane, and the readers that take them apart again: the server finds the
blob and the handler a query is for, the client the chunk and the origin a reply is from.
-/

set_option autoImplicit false

namespace Zblob

/-- `KeyExpr::try_from`, with the text of its error. A key expression has no `?`. -/
structure KeyExpr where
  tryFrom : String → Except String Unit
  noParameters : ∀ s, tryFrom s = .ok () → '?' ∉ s.toList

section Prefix

variable (z : KeyExpr)

def validateShape (pre : String) : Result Unit :=
  if pre.isEmpty then .error (.invalidPrefix "empty key prefix")
  else if pre.toList.head? = some '/' ∨ pre.toList.getLast? = some '/' then
    .error (.invalidPrefix ("key prefix " ++ debugStr pre ++ " must not start or end with '/'"))
  else if (splitSlash pre.toList).any (· == ['*', '*']) then
    .error (.invalidPrefix
      ("key prefix " ++ debugStr pre ++ " must not contain '**' — ids are resolved " ++
      "positionally, so no server can answer past an unbounded span"))
  else
    match z.tryFrom pre with
    | .error e => .error (.invalidPrefix ("invalid key prefix " ++ debugStr pre ++ ": " ++ e))
    | .ok () =>
      match z.tryFrom (pre ++ "/id/**") with
      | .error e => .error (.invalidPrefix ("unusable key prefix " ++ debugStr pre ++ ": " ++ e))
      | .ok () => .ok ()

def hasWildcard (pre : String) : Bool := (splitSlash pre.toList).any (·.contains '*')

structure Shaped (pre : String) : Prop where
  filled : pre ≠ ""
  noSpan : ['*', '*'] ∉ splitSlash pre.toList
  noParameters : '?' ∉ pre.toList

theorem validateShape_ok {pre : String} (h : validateShape z pre = .ok ()) : Shaped pre := by
  unfold validateShape at h
  split at h
  · cases h
  rename_i hempty
  split at h
  · cases h
  split at h
  · cases h
  rename_i hspan
  cases hz : z.tryFrom pre with
  | error e => simp [hz] at h
  | ok u =>
    refine ⟨by simpa using hempty, fun hin => hspan ?_, z.noParameters pre hz⟩
    simpa using hin

structure ServePrefix where
  str : String
  shaped : Shaped str
  concrete : hasWildcard str = false

def ServePrefix.new (pre : String) : Result ServePrefix :=
  match h : validateShape z pre with
  | .error e => .error e
  | .ok () =>
    if hw : hasWildcard pre then
      .error (.invalidPrefix
        ("key prefix " ++ debugStr pre ++ " must not contain wildcards when serving or publishing"))
    else
      match z.tryFrom (pre ++ "/**") with
      | .error e =>
        .error (.invalidPrefix ("undeclarable key prefix " ++ debugStr pre ++ ": " ++ e))
      | .ok () => .ok ⟨pre, validateShape_ok z h, by simpa using hw⟩

def QueryPrefix.new (pre : String) : Result QueryPrefix :=
  match h : validateShape z pre with
  | .error e => .error e
  | .ok () => .ok ⟨pre, (validateShape_ok z h).noParameters⟩

theorem QueryPrefix.new_shaped {pre : String} {q : QueryPrefix}
    (h : QueryPrefix.new z pre = .ok q) :
    Shaped q.str := by
  unfold QueryPrefix.new at h
  split at h
  · cases h
  · rename_i hshape
    cases h
    exact validateShape_ok z hshape

end Prefix

/-- `q` asks where `p` serves: segment by segment the same, or a wildcard. -/
def Stands (p : ServePrefix) (q : QueryPrefix) : Prop :=
  List.Forall₂ (fun want got => got = want ∨ '*' ∈ got) (splitSlash p.str.toList)
    (splitSlash q.str.toList)

def manifestKey (pre id : String) : String := pre ++ "/" ++ id ++ "/manifest"
def sliceKey (pre id : String) (index : UInt32) : String :=
  pre ++ "/" ++ id ++ "/slice/" ++ String.ofList (Nat.toDigits 10 index.toNat)
def availabilityKey (pre id : String) : String := pre ++ "/" ++ id ++ "/have"
def pushOfferKey (pre id : String) : String := pre ++ "/" ++ id ++ "/push/offer"
def pushSliceKey (pre id : String) (index : UInt32) : String :=
  pre ++ "/" ++ id ++ "/push/slice/" ++ String.ofList (Nat.toDigits 10 index.toNat)

def storeBatch : String := "batch"
def storeHave : String := "have"

def storeBatchKey (pre : String) (algo : HashAlgo) : String :=
  pre ++ "/" ++ algo.asStr ++ "/" ++ storeBatch
def storeHaveKey (pre : String) (algo : HashAlgo) : String :=
  pre ++ "/" ++ algo.asStr ++ "/" ++ storeHave
def treeHaveKey (pre id : String) : String := pre ++ "/" ++ id ++ "/" ++ storeHave

def selectorKey (selector : String) : String := String.ofList (selector.toList.takeWhile (· != '?'))

/-- The segment behind `pre`; a `*` in the key stands for any segment of it, a `**` for
nothing usable. -/
def parseId (pre key : String) : Option String :=
  let p := (splitSlash pre.toList).map String.ofList
  let k := (splitSlash key.toList).map String.ofList
  if k.length ≤ p.length then none
  else if (p.zip k).all fun (want, got) => got ≠ "**" ∧ (want = got ∨ got.toList.contains '*') then
    match k[p.length]? with
    | none => none
    | some id => if id.isEmpty ∨ id.toList.contains '*' then none else some id
  else none

def rsplitOnce (pat : List Char) : List Char → Option (List Char × List Char)
  | [] => if pat.isEmpty then some ([], []) else none
  | c :: s =>
    match rsplitOnce pat s with
    | some (head, tail) => some (c :: head, tail)
    | none => if pat.isPrefixOf (c :: s) then some ([], (c :: s).drop pat.length) else none

inductive Endpoint where
  | pushOffer
  | pushSlice (index : Nat)
  | availability
  | manifest
  | ranges
  deriving DecidableEq

def pushSlicePart : List Char := "/push/slice/".toList

def pushSliceIndex (id : String) (key : List Char) : Option Nat :=
  (rsplitOnce pushSlicePart key).bind fun (head, i) =>
    if id.toList.isSuffixOf head then parseU32 i else none

/-- `serve_one` as far as the handler it enters. Only a push may be for a blob that is not
registered yet; a source that has changed since is refused before the last three. -/
def dispatch (registered : String → Bool) (pre key : String) : Option (String × Endpoint) :=
  (parseId pre key).bind fun id =>
    if "/push/offer".toList.isSuffixOf key.toList then some (id, .pushOffer)
    else
      match pushSliceIndex id key.toList with
      | some index => some (id, .pushSlice index)
      | none =>
        if !registered id then none
        else if "/have".toList.isSuffixOf key.toList then some (id, .availability)
        else if "/manifest".toList.isSuffixOf key.toList then some (id, .manifest)
        else some (id, .ranges)

def stripSuffix (suffix s : List Char) : Option (List Char) :=
  if suffix.isSuffixOf s then some (s.take (s.length - suffix.length)) else none

def originOf (replyKey id endpoint : String) : Option String := do
  let rest ← stripSuffix endpoint.toList replyKey.toList
  let rest ← stripSuffix ['/'] rest
  let rest ← stripSuffix id.toList rest
  let rest ← stripSuffix ['/'] rest
  if rest.isEmpty then none else some (String.ofList rest)

theorem not_suffix {a b s : List Char} (ha : a <:+ s) (hab : ¬a <:+ b) (hba : ¬b <:+ a) :
    ¬b <:+ s := by
  intro hb
  rcases Nat.le_total a.length b.length with h | h
  · exact hab (List.suffix_of_suffix_length_le ha hb h)
  · exact hba (List.suffix_of_suffix_length_le hb ha h)

theorem rsplitOnce_spec {pat s head tail : List Char} (h : rsplitOnce pat s = some (head, tail)) :
    s = head ++ pat ++ tail := by
  induction s generalizing head with
  | nil =>
    simp only [rsplitOnce] at h
    split at h
    · rename_i hpat
      cases h
      simpa using hpat
    · cases h
  | cons c s ih =>
    rw [rsplitOnce] at h
    split at h
    · rename_i head' tail' hs
      cases h
      rw [ih hs]
      simp
    · split at h
      · rename_i hpat
        cases h
        have := List.prefix_iff_eq_append.mp (List.isPrefixOf_iff_prefix.mp hpat)
        simpa using this.symm
      · cases h

theorem rsplitOnce_append {pat s t : List Char} (head : List Char)
    (h : rsplitOnce pat s = some ([], t)) :
    rsplitOnce pat (head ++ s) = some (head, t) := by
  induction head with
  | nil => exact h
  | cons c head ih => rw [List.cons_append, rsplitOnce, ih]

theorem rsplitOnce_miss {pat s : List Char} {c : Char} (h : rsplitOnce pat s = none)
    (hc : ¬pat <+: c :: s) :
    rsplitOnce pat (c :: s) = none := by
  rw [rsplitOnce, h]
  simp only
  rw [if_neg fun hp => hc (List.isPrefixOf_iff_prefix.mp hp)]

theorem rsplitOnce_skip {pat s u : List Char} (hs : '/' ∉ s)
    (hu : rsplitOnce ('/' :: pat) u = none) :
    rsplitOnce ('/' :: pat) (s ++ u) = none := by
  induction s with
  | nil => exact hu
  | cons c s ih =>
    rw [List.mem_cons, not_or] at hs
    refine rsplitOnce_miss (ih hs.2) fun hp => ?_
    exact hs.1 (List.cons_prefix_cons.mp hp).1

theorem rsplitOnce_here {pat s : List Char} {c : Char}
    (h : rsplitOnce (c :: pat) (pat ++ s) = none) :
    rsplitOnce (c :: pat) (c :: pat ++ s) = some ([], s) := by
  have hp : (c :: pat).isPrefixOf (c :: (pat ++ s)) = true :=
    List.isPrefixOf_iff_prefix.mpr (List.prefix_append _ _)
  rw [List.cons_append, rsplitOnce, h]
  simp only
  rw [if_pos hp]
  simp

theorem digits_last {d : List Char} (h : ¬(d.isEmpty || !d.all Char.isDigit) = true) :
    ∃ c, d.getLast? = some c ∧ c.isDigit = true := by
  simp only [Bool.or_eq_true, Bool.not_eq_true', not_or, Bool.not_eq_true, Bool.not_eq_false] at h
  have hd : d ≠ [] := by simpa using h.1
  exact ⟨d.getLast hd, List.getLast?_eq_some_getLast hd,
    List.all_eq_true.mp h.2 _ (List.getLast_mem hd)⟩

theorem parseU32_last {t : List Char} {n : Nat} (h : parseU32 t = some n) :
    ∃ c, t.getLast? = some c ∧ c.isDigit = true := by
  unfold parseU32 at h
  split at h
  · rename_i rest
    simp only at h
    split at h
    · cases h
    rename_i hdigits
    obtain ⟨d, hd, hdigit⟩ := digits_last hdigits
    exact ⟨d, by rw [List.getLast?_cons, hd]; rfl, hdigit⟩
  · simp only at h
    split at h
    · cases h
    rename_i hdigits
    exact digits_last hdigits

theorem pushSliceIndex_none {id : String} {key : List Char} {c : Char}
    (hlast : key.getLast? = some c)
    (hc : c.isDigit = false) : pushSliceIndex id key = none := by
  cases hp : pushSliceIndex id key with
  | none => rfl
  | some n =>
    simp only [pushSliceIndex, Option.bind_eq_some_iff] at hp
    obtain ⟨⟨head, i⟩, hsplit, hparse⟩ := hp
    simp only at hparse
    split at hparse
    · obtain ⟨d, hd, hdigit⟩ := parseU32_last hparse
      rw [rsplitOnce_spec hsplit, List.getLast?_append, hd] at hlast
      cases hlast
      rw [hc] at hdigit
      cases hdigit
    · cases hparse

theorem slash_not_digit (n : Nat) : '/' ∉ Nat.toDigits 10 n := not_mem_toDigits n (by decide)

theorem index_le (index : UInt32) : index.toNat ≤ u32Max := by
  have := index.toNat_lt
  simp only [u32Max]
  omega

theorem rsplitOnce_pushSlice {t : List Char} (ht : '/' ∉ t) :
    rsplitOnce pushSlicePart (pushSlicePart ++ t) = some ([], t) := by
  have htail : rsplitOnce pushSlicePart t = none := by
    have hend : rsplitOnce ('/' :: "push/slice/".toList) [] = none := rfl
    have hskip := rsplitOnce_skip ht hend
    rwa [List.append_nil] at hskip
  have hslash : rsplitOnce pushSlicePart ('/' :: t) = none := by
    refine rsplitOnce_miss htail fun hp => ht ?_
    have hp : "push/slice/".toList <+: t := (List.cons_prefix_cons.mp hp).2
    exact hp.subset (by decide)
  have hslice : rsplitOnce pushSlicePart ('/' :: ("slice".toList ++ '/' :: t)) = none := by
    refine rsplitOnce_miss (rsplitOnce_skip (by decide) hslash) fun hp => ?_
    have hp : 'p' :: "ush/slice/".toList <+: 's' :: ("lice".toList ++ '/' :: t) :=
      (List.cons_prefix_cons.mp hp).2
    exact absurd (List.cons_prefix_cons.mp hp).1 (by decide)
  exact rsplitOnce_here (rsplitOnce_skip (s := "push".toList) (by decide) hslice)

theorem not_suffix_digits {b s : List Char} {c : Char} (hb : b.getLast? = some c)
    (hc : c.isDigit = false)
    (index : UInt32) : ¬b <:+ s ++ Nat.toDigits 10 index.toNat := by
  rintro ⟨front, hfront⟩
  obtain ⟨d, hd, hdigit⟩ := parseU32_last (parseU32_toDigits (index_le index))
  have hlast := congrArg List.getLast? hfront
  rw [List.getLast?_append, List.getLast?_append, hb, hd] at hlast
  cases hlast
  rw [hc] at hdigit
  cases hdigit

theorem pushSliceIndex_some (id : String) (pre : List Char) (index : UInt32) :
    pushSliceIndex id (pre ++ id.toList ++ pushSlicePart ++ Nat.toDigits 10 index.toNat) =
      some index.toNat := by
  rw [pushSliceIndex, List.append_assoc, rsplitOnce_append (pre ++ id.toList)
    (rsplitOnce_pushSlice (slash_not_digit index.toNat))]
  simp [parseU32_toDigits (index_le index)]

section Position

variable {p : ServePrefix} {q : QueryPrefix}

theorem segments_behind (hq : Shaped q.str) (h : Stands p q) (t : List Char) (key : String)
    (hkey : key.toList = q.str.toList ++ '/' :: t) :
    let want := (splitSlash p.str.toList).map String.ofList
    let got := (splitSlash key.toList).map String.ofList
    got = (splitSlash q.str.toList).map String.ofList ++ (splitSlash t).map String.ofList ∧
      got.length = want.length + (splitSlash t).length ∧ want.length < got.length ∧
      ((want.zip got).all fun (want, got) => got ≠ "**" ∧ (want = got ∨ got.toList.contains '*')) =
      true := by
  intro want got
  have hgot : got = (splitSlash q.str.toList).map String.ofList ++
      (splitSlash t).map String.ofList := by
    simp only [got, hkey, splitSlash_append, List.map_append]
  have hlen := h.length_eq
  have hpos : 0 < (splitSlash t).length := List.length_pos_iff.mpr (splitSlash_ne_nil t)
  have hcount : got.length = want.length + (splitSlash t).length := by
    rw [hgot]
    simp only [want, List.length_append, List.length_map, hlen]
  refine ⟨hgot, hcount, by omega, ?_⟩
  have hzip : want.zip got = want.zip ((splitSlash q.str.toList).map String.ofList) := by
    rw [hgot]
    have hlen' : want.length = ((splitSlash q.str.toList).map String.ofList).length :=
      by simp [want, hlen]
    have happend : (want ++ []).zip
        ((splitSlash q.str.toList).map String.ofList ++ (splitSlash t).map String.ofList) =
        want.zip ((splitSlash q.str.toList).map String.ofList) ++
        [].zip ((splitSlash t).map String.ofList) :=
      List.zip_append hlen'
    simpa using happend
  rw [hzip, List.all_eq_true]
  rintro ⟨w, g⟩ hmem
  simp only [want, List.zip_map, List.mem_map, Prod.exists, Prod.map_apply, Prod.mk.injEq] at hmem
  obtain ⟨a, b, hab, rfl, rfl⟩ := hmem
  have hb : b ∈ splitSlash q.str.toList := (List.of_mem_zip hab).2
  have hspan : String.ofList b ≠ "**" := by
    intro heq
    have hb' : b = ['*', '*'] := by simpa using congrArg String.toList heq
    exact hq.noSpan (hb' ▸ hb)
  rcases List.forall₂_iff_zip.mp h |>.2 hab with rfl | hwild
  · simpa using hspan
  · simpa using ⟨hspan, .inr hwild⟩

theorem BlobId.segment (id : BlobId) :
    '/' ∉ id.str.toList ∧ '*' ∉ id.str.toList ∧ id.str.isEmpty = false := by
  have hv := id.valid
  simp only [BlobId.isValid, Bool.and_eq_true, Bool.not_eq_true', List.any_eq_false] at hv
  refine ⟨fun h => ?_, fun h => ?_, hv.1.1.1.1.1⟩
  · simpa using hv.1.2 '/' h
  · simpa using hv.1.2 '*' h

theorem parseId_key (hq : Shaped q.str) (h : Stands p q) (id : BlobId)
    (t : List Char) (key : String)
    (hkey : key.toList = q.str.toList ++ '/' :: (id.str.toList ++ '/' :: t)) :
    parseId p.str key = some id.str := by
  obtain ⟨hslash, hstar, hne⟩ := id.segment
  obtain ⟨hgot, hcount, hlt, hall⟩ := segments_behind hq h _ key hkey
  rw [parseId]
  simp only
  rw [if_neg (by omega), if_pos hall]
  have hid :
      ((splitSlash key.toList).map
        String.ofList)[((splitSlash p.str.toList).map String.ofList).length]? =
      some id.str := by
    rw [hgot, List.getElem?_append_right (by simp [h.length_eq])]
    simp [h.length_eq, splitSlash_append, splitSlash_single hslash]
  rw [hid]
  simp [hne, hstar]

/-- The tail of one or two segments, none of which has a slash. -/
theorem parseTier2Tail_key (hq : Shaped q.str) (h : Stands p q) (segs : List String) (key : String)
    (hkey : key.toList = q.str.toList ++ '/' :: slashJoin (segs.map String.toList))
    (hne : segs ≠ [])
    (hfew : segs.length ≤ 2) (hno : ∀ seg ∈ segs, '/' ∉ seg.toList) :
    parseTier2Tail p.str key = some segs := by
  have hsplit : splitSlash (slashJoin (segs.map String.toList)) = segs.map String.toList := by
    refine splitSlash_slashJoin (by simpa using hne) fun seg hseg => ?_
    obtain ⟨s, hs, rfl⟩ := List.mem_map.mp hseg
    exact hno s hs
  obtain ⟨hgot, hcount, hlt, hall⟩ := segments_behind hq h _ key hkey
  have htail : ((splitSlash key.toList).map String.ofList).drop
      ((splitSlash p.str.toList).map String.ofList).length =
      segs := by
    rw [hgot, List.drop_append_of_le_length (by simp [h.length_eq]),
      List.drop_of_length_le (by simp [h.length_eq]), hsplit]
    simp
  rw [parseTier2Tail]
  simp only
  rw [if_neg (by omega), if_pos hall, htail, if_pos hfew]

end Position

section Keys

variable (pre id : String) (index : UInt32)

theorem manifestKey_toList : (manifestKey pre id).toList =
    pre.toList ++ '/' :: (id.toList ++ '/' :: "manifest".toList) := by
  simp [manifestKey]

theorem sliceKey_toList : (sliceKey pre id index).toList =
    pre.toList ++
      '/' :: (id.toList ++ '/' :: ("slice/".toList ++ Nat.toDigits 10 index.toNat)) := by
  simp [sliceKey]

theorem availabilityKey_toList : (availabilityKey pre id).toList =
    pre.toList ++ '/' :: (id.toList ++ '/' :: "have".toList) := by
  simp [availabilityKey]

theorem pushOfferKey_toList : (pushOfferKey pre id).toList =
    pre.toList ++ '/' :: (id.toList ++ '/' :: "push/offer".toList) := by
  simp [pushOfferKey]

theorem pushSliceKey_toList : (pushSliceKey pre id index).toList =
    pre.toList ++ '/' ::
    (id.toList ++ '/' :: ("push/slice/".toList ++ Nat.toDigits 10 index.toNat)) := by
  simp [pushSliceKey]

theorem selectorKey_toList (q : QueryPrefix) (id : BlobId) (rs : List (Nat × Nat)) :
    (selectorKey (sliceSelector q id rs)).toList = q.str.toList ++ '/' ::
    (id.str.toList ++ '/' :: ['*', '*']) := by
  have hno :
    ∀ c ∈ q.str.toList ++ '/' :: (id.str.toList ++ '/' :: ['*', '*']), (c != '?') = true := by
    intro c hc
    rw [bne_iff_ne]
    rintro rfl
    simp [q.noParameters, id.no_parameters] at hc
  have htext : (sliceSelector q id rs).toList =
      (q.str.toList ++ '/' :: (id.str.toList ++ '/' :: ['*', '*'])) ++
      '?' :: (rangesKey ++ (formatRanges rs).toList) := by
    simp [sliceSelector, rangesKey]
  rw [selectorKey, htext, String.toList_ofList, List.takeWhile_append_of_pos hno]
  simp

end Keys

section Handlers

variable {p : ServePrefix} {id : String} {registered : String → Bool} {key : String}

theorem dispatch_pushOffer (hid : parseId p.str key = some id)
    (hoffer : "/push/offer".toList <:+ key.toList) :
    dispatch registered p.str key = some (id, .pushOffer) := by
  rw [dispatch, hid, Option.bind_some, if_pos (List.isSuffixOf_iff_suffix.mpr hoffer)]

theorem dispatch_pushSlice {index : Nat} (hid : parseId p.str key = some id)
    (hoffer : ¬"/push/offer".toList <:+ key.toList)
    (hindex : pushSliceIndex id key.toList = some index) :
    dispatch registered p.str key = some (id, .pushSlice index) := by
  rw [dispatch, hid, Option.bind_some, if_neg fun h =>
    hoffer (List.isSuffixOf_iff_suffix.mp h), hindex]

/-- The handlers behind the registry go by the end of the key. -/
theorem dispatch_registered {last : List Char} {c : Char} (hid : parseId p.str key = some id)
    (hreg : registered id = true) (hlast : last <:+ key.toList) (hc : last.getLast? = some c)
    (hdigit : c.isDigit = false)
    (hoffer : ¬"/push/offer".toList <:+ last ∧ ¬last <:+ "/push/offer".toList) :
    dispatch registered p.str key =
      if "/have".toList.isSuffixOf key.toList then some (id, .availability)
      else if "/manifest".toList.isSuffixOf key.toList then some (id, .manifest)
      else some (id, .ranges) := by
  have hend : key.toList.getLast? = some c := by
    obtain ⟨front, hfront⟩ := hlast
    rw [← hfront, List.getLast?_append, hc]
    rfl
  rw [dispatch, hid, Option.bind_some,
    if_neg fun h => not_suffix hlast hoffer.2 hoffer.1 (List.isSuffixOf_iff_suffix.mp h),
    pushSliceIndex_none hend hdigit, hreg]
  rfl

end Handlers

theorem rsplitSlash_append {head tail : List Char} (h : '/' ∉ tail) :
    rsplitSlash (head ++ '/' :: tail) = some (head, tail) := by
  have hne : ∀ c ∈ tail.reverse, (decide (c ≠ '/')) = true := by
    intro c hc
    rw [decide_eq_true_eq]
    rintro rfl
    exact h (List.mem_reverse.mp hc)
  have htail : ((head ++ '/' :: tail).reverse.takeWhile (· ≠ '/')).reverse = tail := by
    rw [List.reverse_append, List.reverse_cons, List.append_assoc, List.takeWhile_append_of_pos hne]
    simp
  rw [rsplitSlash]
  simp only [htail]
  have hlen : (head ++ '/' :: tail).length = head.length + 1 + tail.length := by
    rw [List.length_append, List.length_cons]
    omega
  rw [if_neg (by omega), hlen, Nat.add_sub_cancel, Nat.add_sub_cancel, List.take_left]

theorem stripSuffix_append (s suffix : List Char) : stripSuffix suffix (s ++ suffix) = some s := by
  rw [stripSuffix, if_pos (List.isSuffixOf_iff_suffix.mpr (List.suffix_append s suffix))]
  simp

theorem originOf_key {pre id endpoint key : String} (hpre : pre ≠ "")
    (hkey : key.toList = pre.toList ++ '/' :: (id.toList ++ '/' :: endpoint.toList)) :
    originOf key id endpoint = some pre := by
  have hfirst : key.toList = (pre.toList ++ ['/'] ++ id.toList ++ ['/']) ++ endpoint.toList :=
    by simp [hkey]
  rw [originOf, hfirst, stripSuffix_append]
  simp only [Option.bind_eq_bind, Option.bind_some, stripSuffix_append]
  rw [if_neg (by simpa using hpre), String.ofList_toList]

theorem parseSliceIndex_sliceKey (pre id : String) (index : UInt32) :
    parseSliceIndex (sliceKey pre id index) = some index.toNat := by
  have hkey : (sliceKey pre id index).toList =
      (pre.toList ++ '/' :: id.toList ++ "/slice".toList) ++
        '/' :: Nat.toDigits 10 index.toNat := by
    simp [sliceKey_toList]
  rw [parseSliceIndex, hkey, rsplitSlash_append (slash_not_digit index.toNat), Option.bind_some]
  simp only
  rw [if_pos (List.isSuffixOf_iff_suffix.mpr (List.suffix_append _ _)),
    parseU32_toDigits (index_le index)]

theorem Hash.toHex_segment (h : Hash) : '/' ∉ h.toHex.toList := by
  have hall : ∀ n < 16, '/' ≠ hexDigit n := by decide
  rw [Hash.toHex, String.toList_ofList]
  intro hin
  obtain ⟨b, -, hb⟩ := List.mem_flatMap.mp hin
  have hlt := b.toNat_lt
  simp only [List.mem_cons, List.not_mem_nil, or_false] at hb
  rcases hb with hb | hb
  · exact hall (b.toNat / 16) (by omega) hb
  · exact hall (b.toNat % 16) (by omega) hb

theorem HashAlgo.segment (algo : HashAlgo) : '/' ∉ algo.asStr.toList := by
  cases algo
  decide

/-- Every reader finds in a key what its builder put there, whatever words the prefix and the
id are made of. A query goes to the one handler it was built for, the last three only when the
blob is registered; a tier-2 key has the segments it was built from; and a reply tells its
chunk and its origin. -/
theorem key_routing (z : KeyExpr) (p : ServePrefix) (text : String) (q : QueryPrefix)
    (hq : QueryPrefix.new z text = .ok q) (hstands : Stands p q)
    (id : BlobId) (index : UInt32) (hash : Hash)
    (algo : HashAlgo) (ranges : List (Nat × Nat)) (registered : String → Bool) :
    (∀ key ∈ [manifestKey q.str id.str, sliceKey q.str id.str index, availabilityKey q.str id.str,
        pushOfferKey q.str id.str, pushSliceKey q.str id.str index,
        selectorKey (sliceSelector q id ranges)],
      parseId p.str key = some id.str) ∧
    (dispatch registered p.str (pushOfferKey q.str id.str) = some (id.str, .pushOffer) ∧
      dispatch registered p.str (pushSliceKey q.str id.str index) = some
      (id.str, .pushSlice index.toNat) ∧
      (registered id.str = true →
        dispatch registered p.str (availabilityKey q.str id.str) = some (id.str, .availability) ∧
        dispatch registered p.str (manifestKey q.str id.str) = some (id.str, .manifest) ∧
        dispatch registered p.str (selectorKey (sliceSelector q id ranges)) = some
        (id.str, .ranges))) ∧
    (parseTier2Tail p.str (treeKey q.str id.str) = some [id.str] ∧
      parseTier2Tail p.str (treeHaveKey q.str id.str) = some [id.str, storeHave] ∧
      parseTier2Tail p.str (storeKey q.str algo hash) = some [algo.asStr, hash.toHex] ∧
      Hash.parse hash.toHex = some hash ∧
      parseTier2Tail p.str (storeBatchKey q.str algo) = some [algo.asStr, storeBatch] ∧
      parseTier2Tail p.str (storeHaveKey q.str algo) = some [algo.asStr, storeHave]) ∧
    (parseSliceIndex (sliceKey p.str id.str index) = some index.toNat ∧
      originOf (manifestKey p.str id.str) id.str "manifest" = some p.str ∧
      originOf (availabilityKey p.str id.str) id.str "have" = some p.str) := by
  have hshape := QueryPrefix.new_shaped z hq
  obtain ⟨hid, -, -⟩ := id.segment
  have hparse : ∀ (tail : List Char) (key : String), key.toList =
      q.str.toList ++ '/' :: (id.str.toList ++ '/' :: tail) →
      parseId p.str key = some id.str :=
      fun tail key hkey => parseId_key hshape hstands id tail key hkey
  have htail : ∀ (segs : List String) (key : String), key.toList =
      q.str.toList ++ '/' :: slashJoin (segs.map String.toList) →
      segs ≠ [] → segs.length ≤ 2 → (∀ seg ∈ segs, '/' ∉ seg.toList) →
      parseTier2Tail p.str key = some segs :=
    fun segs key => parseTier2Tail_key hshape hstands segs key
  have hmanifest := manifestKey_toList q.str id.str
  have hslice := sliceKey_toList q.str id.str index
  have hhave := availabilityKey_toList q.str id.str
  have hoffer := pushOfferKey_toList q.str id.str
  have hpush := pushSliceKey_toList q.str id.str index
  have hranges := selectorKey_toList q id ranges
  refine ⟨?_, ⟨?_, ?_, fun hreg => ⟨?_, ?_, ?_⟩⟩, ⟨?_, ?_, ?_, Hash.parse_toHex hash, ?_, ?_⟩,
    parseSliceIndex_sliceKey p.str id.str index, originOf_key p.shaped.filled
    (manifestKey_toList p.str id.str),
    originOf_key p.shaped.filled (availabilityKey_toList p.str id.str)⟩
  · intro key hkey
    simp only [List.mem_cons, List.not_mem_nil, or_false] at hkey
    rcases hkey with rfl | rfl | rfl | rfl | rfl | rfl
    · exact hparse _ _ hmanifest
    · exact hparse _ _ hslice
    · exact hparse _ _ hhave
    · exact hparse _ _ hoffer
    · exact hparse _ _ hpush
    · exact hparse _ _ hranges
  · apply dispatch_pushOffer (hparse _ _ hoffer)
    exact ⟨q.str.toList ++ '/' :: id.str.toList, by simp [hoffer]⟩
  · have htext : (pushSliceKey q.str id.str index).toList =
        (q.str.toList ++ ['/']) ++ id.str.toList ++ pushSlicePart ++
        Nat.toDigits 10 index.toNat := by
      have hpart : pushSlicePart = '/' :: "push/slice/".toList := rfl
      simp only [hpush, hpart, List.append_assoc, List.cons_append, List.nil_append]
    apply dispatch_pushSlice (hparse _ _ hpush)
    · rw [htext]
      exact not_suffix_digits (c := 'r') (by decide) (by decide) index
    · rw [htext]
      exact pushSliceIndex_some id.str (q.str.toList ++ ['/']) index
  · have hlast : "/have".toList <:+ (availabilityKey q.str id.str).toList :=
      ⟨q.str.toList ++ '/' :: id.str.toList, by simp [hhave]⟩
    rw [dispatch_registered (hparse _ _ hhave) hreg hlast rfl (by decide) (by decide),
      if_pos (List.isSuffixOf_iff_suffix.mpr hlast)]
  · have hlast : "/manifest".toList <:+ (manifestKey q.str id.str).toList :=
      ⟨q.str.toList ++ '/' :: id.str.toList, by simp [hmanifest]⟩
    rw [dispatch_registered (hparse _ _ hmanifest) hreg hlast rfl (by decide) (by decide),
      if_neg fun h => not_suffix hlast (by decide) (by decide) (List.isSuffixOf_iff_suffix.mp h),
      if_pos (List.isSuffixOf_iff_suffix.mpr hlast)]
  · have hlast : "/**".toList <:+ (selectorKey (sliceSelector q id ranges)).toList :=
      ⟨q.str.toList ++ '/' :: id.str.toList, by simp [hranges]⟩
    rw [dispatch_registered (hparse _ _ hranges) hreg hlast rfl (by decide) (by decide),
      if_neg fun h => not_suffix hlast (by decide) (by decide) (List.isSuffixOf_iff_suffix.mp h),
      if_neg fun h => not_suffix hlast (by decide) (by decide) (List.isSuffixOf_iff_suffix.mp h)]
  · refine htail [id.str] _ ?_ (by simp) (by simp) (by simpa using hid)
    simp [treeKey, slashJoin]
  · refine htail [id.str, storeHave] _ ?_ (by simp) (by simp) (by simp [hid, storeHave])
    simp [treeHaveKey, slashJoin]
  · refine htail [algo.asStr, hash.toHex] _ ?_ (by simp) (by simp)
      (by simp [algo.segment, hash.toHex_segment])
    simp [storeKey, slashJoin]
  · refine htail [algo.asStr, storeBatch] _ ?_ (by simp) (by simp)
      (by simp [algo.segment, storeBatch])
    simp [storeBatchKey, slashJoin]
  · refine htail [algo.asStr, storeHave] _ ?_ (by simp) (by simp)
      (by simp [algo.segment, storeHave])
    simp [storeHaveKey, slashJoin]

def sampleKeyExpr : KeyExpr where
  tryFrom s := if '?' ∈ s.toList then .error "invalid" else .ok ()
  noParameters := by
    intro s hs hmem
    rw [if_pos hmem] at hs
    cases hs

/-- A blob `push` of the origin `push/slice`, pushed to a wildcard: slice 7 of it is recognised. -/
theorem key_routing_words :
    let p : ServePrefix := ⟨"push/slice", ⟨by decide, by decide, by decide⟩, by decide⟩
    let q : QueryPrefix := ⟨"*/slice", by decide⟩
    let id : BlobId := ⟨"push", by decide⟩
    pushSliceKey q.str id.str 7 = "*/slice/push/push/slice/7" ∧
      dispatch (fun _ => false) p.str (pushSliceKey q.str id.str 7) = some ("push", .pushSlice 7) ∧
      parseTier2Tail p.str (treeHaveKey q.str id.str) = some ["push", "have"] ∧
      originOf (availabilityKey p.str id.str) id.str "have" = some "push/slice" := by
  intro p q id
  have hq : QueryPrefix.new sampleKeyExpr "*/slice" = .ok q := by rfl
  have hstands : Stands p q := by
    have hp : splitSlash p.str.toList = ["push".toList, "slice".toList] := by decide
    have hq : splitSlash q.str.toList = ["*".toList, "slice".toList] := by decide
    rw [Stands, hp, hq]
    exact .cons (.inr (by decide)) (.cons (.inl rfl) .nil)
  obtain ⟨-, ⟨-, hpush, -⟩, ⟨-, htree, -⟩, -, -, horigin⟩ :=
    key_routing sampleKeyExpr p "*/slice" q hq hstands id 7
    (shortHash []) .blake3 [] fun _ => false
  exact ⟨by decide, hpush, htree, horigin⟩

end Zblob
