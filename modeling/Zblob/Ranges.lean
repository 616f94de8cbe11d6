import Zblob.Fill
import Mathlib.Data.List.Pairwise

/-!
The `ranges` parameter of a slice query: how a client renders it, and what a
server accepts of whatever text arrives.
-/

set_option autoImplicit false

namespace Zblob

/-- A prefix a client may query. It has passed Zenoh's check of key expressions,
which admits no `?`: that character begins the parameters of a selector. -/
structure QueryPrefix where
  str : String
  noParameters : '?' ∉ str.toList

def renderSpan (r : Nat × Nat) : List Char :=
  if r.2 = r.1 + 1 then Nat.toDigits 10 r.1
  else Nat.toDigits 10 r.1 ++ '-' :: Nat.toDigits 10 r.2

def formatFrom : List Char → List (Nat × Nat) → List Char
  | out, [] => out
  | out, r :: rs =>
    if r.2 ≤ r.1 then formatFrom out rs
    else formatFrom ((if out.isEmpty then out else out ++ [',']) ++ renderSpan r) rs

def formatRanges (ranges : List (Nat × Nat)) : String := String.ofList (formatFrom [] ranges)

def sliceSelector (p : QueryPrefix) (id : BlobId) (ranges : List (Nat × Nat)) : String :=
  p.str ++ "/" ++ id.str ++ "/**?ranges=" ++ formatRanges ranges

def splitOnce (c : Char) (s : List Char) : Option (List Char × List Char) :=
  match s.dropWhile (· != c) with
  | [] => none
  | _ :: rest => some (s.takeWhile (· != c), rest)

def selectorParameters (selector : String) : String :=
  String.ofList (((splitOnce '?' selector.toList).map Prod.snd).getD [])

def parseSpan (span : List Char) : Result (Nat × Nat) :=
  let bad := BlobError.invalidRanges ("bad span " ++ debugStr (String.ofList span))
  match splitOnce '-' span with
  | some (a, b) =>
    match parseU32 a, parseU32 b with
    | some a, some b => .ok (a, b)
    | _, _ => .error bad
  | none =>
    match parseU32 span with
    | none => .error bad
    | some k =>
      if k + 1 ≤ u32Max then .ok (k, k + 1) else .error (.invalidRanges "index overflow")

def parseSpans (chunkCount maxChunks : Nat) :
    List (Nat × Nat) → Nat → List (List Char) → Result (List (Nat × Nat))
  | out, _, [] => if out.isEmpty then .error (.invalidRanges "no spans") else .ok out
  | out, total, span :: rest =>
    let text := debugStr (String.ofList span)
    if out.length ≥ maxRangeSpans then
      .error (.invalidRanges (s!"more than {maxRangeSpans} spans"))
    else
      match parseSpan span with
      | .error e => .error e
      | .ok (start, stop) =>
        if start ≥ stop then .error (.invalidRanges ("empty or inverted span " ++ text))
        else if stop > chunkCount then
          .error (.invalidRanges ("span " ++ text ++ s!" exceeds chunk count {chunkCount}"))
        else if out.getLast?.any fun prev => start < prev.2 then
          .error (.invalidRanges "spans must be sorted and disjoint")
        else if total + (stop - start) > maxChunks then
          .error (.invalidRanges (s!"more than {maxChunks} chunks requested in one query"))
        else
          parseSpans chunkCount maxChunks (out ++ [(start, stop)]) (total + (stop - start)) rest

def rangesKey : List Char := ['r', 'a', 'n', 'g', 'e', 's', '=']

/-- The value of the last `ranges` parameter; other parameters are ignored. -/
def rangesSpec (params : List Char) : Option (List Char) :=
  (params.splitOn '&').foldl (fun spec pair =>
    if rangesKey.isPrefixOf pair then some (pair.drop rangesKey.length) else spec) none

def parseRanges (params : String) (chunkCount maxChunks : Nat) : Result (List (Nat × Nat)) :=
  match rangesSpec params.toList with
  | none => .error (.invalidRanges "missing ranges parameter")
  | some spec => parseSpans chunkCount maxChunks [] 0 (spec.splitOn ',')

def spanTotal (rs : List (Nat × Nat)) : Nat := (rs.map fun r => r.2 - r.1).sum

/-- The span lists a server with `n` chunks and the cap `cap` serves. -/
structure Servable (n cap : Nat) (rs : List (Nat × Nat)) : Prop where
  asked : rs ≠ []
  few : rs.length ≤ maxRangeSpans
  inside : ∀ r ∈ rs, r.1 < r.2 ∧ r.2 ≤ n
  apart : rs.Pairwise fun a b => a.2 ≤ b.1
  within : spanTotal rs ≤ cap

section Text

theorem splitOnce_append {c : Char} {a b : List Char} (h : c ∉ a) :
    splitOnce c (a ++ c :: b) = some (a, b) := by
  have hne : ∀ x ∈ a, (x != c) = true := by
    intro x hx
    simp only [bne_iff_ne]
    rintro rfl
    exact h hx
  simp [splitOnce, List.dropWhile_append_of_pos hne, List.takeWhile_append_of_pos hne]

theorem splitOnce_none {c : Char} {s : List Char} (h : c ∉ s) : splitOnce c s = none := by
  have hne : ∀ x ∈ s, (x != c) = true := by
    intro x hx
    simp only [bne_iff_ne]
    rintro rfl
    exact h hx
  have hdrop : s.dropWhile (· != c) = [] := by
    have := @List.dropWhile_append_of_pos _ _ s [] hne
    simpa using this
  simp [splitOnce, hdrop]

theorem not_mem_toDigits {c : Char} (n : Nat) (h : c.isDigit = false) : c ∉ Nat.toDigits 10 n := by
  intro hc
  have hd := Nat.isDigit_of_mem_toDigits (by decide) (by decide) hc
  simp [h] at hd

theorem parseU32_toDigits {n : Nat} (h : n ≤ u32Max) : parseU32 (Nat.toDigits 10 n) = some n := by
  have hplus : '+' ∉ Nat.toDigits 10 n := not_mem_toDigits n (by decide)
  have hall : ∀ c ∈ Nat.toDigits 10 n, c.isDigit = true := fun c hc =>
    Nat.isDigit_of_mem_toDigits (by decide) (by decide) hc
  have hvalue := Nat.ofDigitChars_ten_toDigits (n := n)
  rw [Nat.ofDigitChars_eq_foldl] at hvalue
  cases hd : Nat.toDigits 10 n with
  | nil => exact absurd hd Nat.toDigits_ne_nil
  | cons d ds =>
    rw [hd] at hplus hall hvalue
    have hne : d ≠ '+' := by
      rintro rfl
      simp at hplus
    have hfold : (d :: ds).foldl (fun acc c => acc * 10 + (c.toNat - 48)) 0 = n := by
      rw [← hvalue]
      simp only [Nat.mul_comm]
      rfl
    unfold parseU32
    split
    · rename_i heq
      cases heq
      exact absurd rfl hne
    · have hdigits : (d :: ds).all Char.isDigit = true := by simpa using hall
      simp only [List.isEmpty_cons, hdigits, Bool.not_true, Bool.or_self, Bool.false_eq_true,
        if_false, hfold, if_pos h]

theorem parseSpan_render {r : Nat × Nat} (hr : r.1 < r.2) (hb : r.2 ≤ u32Max) :
    parseSpan (renderSpan r) = .ok r := by
  obtain ⟨a, b⟩ := r
  have hminus : ∀ n, '-' ∉ Nat.toDigits 10 n := fun n => not_mem_toDigits n (by decide)
  simp only at hr hb
  by_cases h1 : b = a + 1
  · subst h1
    simp [renderSpan, parseSpan, splitOnce_none (hminus a),
      parseU32_toDigits (n := a) (by omega), hb]
  · simp [renderSpan, parseSpan, h1, splitOnce_append (hminus a),
      parseU32_toDigits (n := a) (by omega), parseU32_toDigits hb]

theorem not_mem_renderSpan {c : Char} (r : Nat × Nat) (h : c.isDigit = false) (hc : c ≠ '-') :
    c ∉ renderSpan r := by
  unfold renderSpan
  split
  · exact not_mem_toDigits _ h
  · simp [not_mem_toDigits _ h, hc]

theorem renderSpan_ne_nil (r : Nat × Nat) : renderSpan r ≠ [] := by
  unfold renderSpan
  split
  · exact Nat.toDigits_ne_nil
  · simp

theorem formatFrom_append (out : List Char) (rs : List (Nat × Nat)) (hout : out ≠ [])
    (hrs : ∀ r ∈ rs, r.1 < r.2) :
    formatFrom out rs = out ++ rs.flatMap fun r => ',' :: renderSpan r := by
  induction rs generalizing out with
  | nil => simp [formatFrom]
  | cons r rs ih =>
    have hr := hrs r (by simp)
    rw [formatFrom, if_neg (by omega), ih _ (by simp [renderSpan_ne_nil])
      fun x hx => hrs x (by simp [hx])]
    simp [hout]

theorem formatRanges_toList {rs : List (Nat × Nat)} (hrs : ∀ r ∈ rs, r.1 < r.2) :
    (formatRanges rs).toList = [','].intercalate (rs.map renderSpan) := by
  cases rs with
  | nil => simp [formatRanges, formatFrom]
  | cons r rs =>
    have hr := hrs r (by simp)
    have hjoin : ∀ (x : List Char) (xs : List (Nat × Nat)),
        [','].intercalate (x :: xs.map renderSpan) = x ++ xs.flatMap fun r =>
        ',' :: renderSpan r := by
      intro x xs
      induction xs generalizing x with
      | nil => simp
      | cons y ys ih => simp [List.intercalate_cons_cons, ih]
    simp only [formatRanges, String.toList_ofList, formatFrom, List.map_cons]
    rw [if_neg (by omega), formatFrom_append _ _ (by simp [renderSpan_ne_nil])
      fun x hx => hrs x (by simp [hx]), hjoin]
    simp

theorem ampersand_not_mem_formatFrom (out : List Char) (rs : List (Nat × Nat)) (h : '&' ∉ out) :
    '&' ∉ formatFrom out rs := by
  induction rs generalizing out with
  | nil => simpa [formatFrom] using h
  | cons r rs ih =>
    have hr : '&' ∉ renderSpan r := not_mem_renderSpan r (by decide) (by decide)
    unfold formatFrom
    split
    · exact ih out h
    · apply ih
      split <;> simp [h, hr]

theorem rangesSpec_of {text : List Char} (h : '&' ∉ text) :
    rangesSpec (rangesKey ++ text) = some text := by
  have hkey : '&' ∉ rangesKey := by decide
  have hno : ∀ l ∈ [rangesKey ++ text], '&' ∉ l := by simp [hkey, h]
  have hsplit := List.splitOn_intercalate '&' hno (by simp)
  rw [List.intercalate_singleton] at hsplit
  simp [rangesSpec, hsplit]

theorem BlobId.no_parameters (id : BlobId) : '?' ∉ id.str.toList := by
  have hv := id.valid
  simp only [BlobId.isValid, Bool.and_eq_true, Bool.not_eq_true', List.any_eq_false] at hv
  intro h
  have := hv.1.2 '?' h
  simp at this

theorem selectorParameters_eq (p : QueryPrefix) (id : BlobId) (rs : List (Nat × Nat)) :
    (selectorParameters (sliceSelector p id rs)).toList =
      rangesKey ++ (formatRanges rs).toList := by
  have hno : '?' ∉ p.str.toList ++ '/' :: (id.str.toList ++ "/**".toList) := by
    simp [p.noParameters, id.no_parameters]
  have htext : (sliceSelector p id rs).toList =
      (p.str.toList ++ '/' :: (id.str.toList ++ "/**".toList)) ++
        '?' :: (rangesKey ++ (formatRanges rs).toList) := by
    simp [sliceSelector, rangesKey]
  rw [selectorParameters, htext, splitOnce_append hno]
  simp

end Text

section Spans

variable {n cap : Nat}

@[simp] theorem spanTotal_nil : spanTotal [] = 0 := rfl

@[simp] theorem spanTotal_cons (r : Nat × Nat) (rs : List (Nat × Nat)) :
    spanTotal (r :: rs) = r.2 - r.1 + spanTotal rs := by simp [spanTotal]

@[simp] theorem spanTotal_append (as bs : List (Nat × Nat)) :
    spanTotal (as ++ bs) = spanTotal as + spanTotal bs := by simp [spanTotal]

structure Accepted (n cap : Nat) (out : List (Nat × Nat)) (total : Nat) : Prop where
  few : out.length ≤ maxRangeSpans
  inside : ∀ r ∈ out, r.1 < r.2 ∧ r.2 ≤ n
  apart : out.Pairwise fun a b => a.2 ≤ b.1
  counted : spanTotal out = total
  within : total ≤ cap

theorem Accepted.push {out : List (Nat × Nat)} {total a b : Nat} (h : Accepted n cap out total)
    (hlen : out.length < maxRangeSpans) (hab : a < b) (hb : b ≤ n)
    (hlast : out.getLast?.any (fun prev => a < prev.2) = false) (hcap : total + (b - a) ≤ cap) :
    Accepted n cap (out ++ [(a, b)]) (total + (b - a)) where
  few := by
    simp only [List.length_append, List.length_singleton]
    omega
  inside := by
    intro r hr
    rcases List.mem_append.mp hr with hr | hr
    · exact h.inside r hr
    · simp only [List.mem_singleton] at hr
      subst hr
      exact ⟨hab, hb⟩
  apart := by
    rw [List.pairwise_append]
    refine ⟨h.apart, by simp, ?_⟩
    simp only [List.mem_singleton, forall_eq]
    -- only the last accepted span is compared; the others end before it begins
    cases hg : out.getLast? with
    | none => simp [List.getLast?_eq_none_iff.mp hg]
    | some prev =>
      obtain ⟨init, rfl⟩ := List.getLast?_eq_some_iff.mp hg
      have hp : prev.2 ≤ a := by simpa [hg] using hlast
      have hin := (h.inside prev (by simp)).1
      intro r hr
      rcases List.mem_append.mp hr with hr | hr
      · have := (List.pairwise_append.mp h.apart).2.2 r hr prev (by simp)
        omega
      · simp only [List.mem_singleton] at hr
        subst hr
        exact hp
  counted := by simp [h.counted]
  within := hcap

/-- Whatever text is parsed, an accepted list keeps every limit. -/
theorem parseSpans_servable {spans : List (List Char)} {out rs : List (Nat × Nat)} {total : Nat}
    (hout : Accepted n cap out total) (h : parseSpans n cap out total spans = .ok rs) :
    Servable n cap rs := by
  induction spans generalizing out total with
  | nil =>
    simp only [parseSpans] at h
    split at h
    · cases h
    · rename_i hne
      cases h
      refine ⟨by simpa using hne, hout.few, hout.inside, hout.apart, ?_⟩
      rw [hout.counted]
      exact hout.within
  | cons span rest ih =>
    simp only [parseSpans] at h
    split at h
    · cases h
    rename_i hlen
    split at h
    · cases h
    rename_i a b _
    split at h
    · cases h
    rename_i hab
    split at h
    · cases h
    rename_i hb
    split at h
    · cases h
    rename_i hlast
    split at h
    · cases h
    rename_i hcap
    exact ih (hout.push (by omega) (by omega) (by omega) (by simpa using hlast) (by omega)) h

theorem parseSpans_render_eq {out rs res : List (Nat × Nat)} {total : Nat}
    (hrs : ∀ r ∈ rs, r.1 < r.2 ∧ r.2 ≤ u32Max)
    (h : parseSpans n cap out total (rs.map renderSpan) = .ok res) : res = out ++ rs := by
  induction rs generalizing out total with
  | nil =>
    simp only [List.map_nil, parseSpans] at h
    split at h
    · cases h
    · cases h
      simp
  | cons r rs ih =>
    have hr := hrs r (by simp)
    simp only [List.map_cons, parseSpans, parseSpan_render hr.1 hr.2] at h
    repeat' split at h
    all_goals first | cases h | skip
    have := ih (fun x hx => hrs x (by simp [hx])) h
    simpa using this

theorem parseSpans_render {out rs : List (Nat × Nat)} {total : Nat} (hn : n ≤ u32Max)
    (htotal : spanTotal out = total) (h : Servable n cap (out ++ rs)) :
    parseSpans n cap out total (rs.map renderSpan) = .ok (out ++ rs) := by
  induction rs generalizing out total with
  | nil =>
    have hne := h.asked
    simp only [List.append_nil] at hne
    simp [parseSpans, hne]
  | cons r rs ih =>
    have hr := h.inside r (by simp)
    have hfew : out.length < maxRangeSpans := by
      have := h.few
      simp only [List.length_append, List.length_cons] at this
      omega
    have hlast : out.getLast?.any (fun prev => r.1 < prev.2) = false := by
      cases hg : out.getLast? with
      | none => simp
      | some prev =>
        have hp := (List.pairwise_append.mp h.apart).2.2 prev (List.mem_of_getLast? hg) r (by simp)
        simpa using hp
    have hcap : total + (r.2 - r.1) ≤ cap := by
      have := h.within
      rw [spanTotal_append, htotal, spanTotal_cons] at this
      omega
    have htotal' : spanTotal (out ++ [r]) = total + (r.2 - r.1) := by simp [htotal]
    have hrest := ih htotal' (by simpa using h)
    simp only [List.append_assoc, List.singleton_append] at hrest
    simp only [List.map_cons, parseSpans, parseSpan_render hr.1 (Nat.le_trans hr.2 hn)]
    rw [if_neg (by omega), if_neg (by omega), if_neg (by omega), if_neg (by simp [hlast]),
      if_neg (by omega)]
    exact hrest

end Spans

theorem parseRanges_servable {params : String} {n cap : Nat} {rs : List (Nat × Nat)}
    (h : parseRanges params n cap = .ok rs) : Servable n cap rs := by
  unfold parseRanges at h
  split at h
  · cases h
  · exact parseSpans_servable ⟨by simp, by simp, by simp, rfl, by simp⟩ h

theorem parseRanges_selector {p : QueryPrefix} {id : BlobId} {n cap : Nat} {rs : List (Nat × Nat)}
    (hne : rs ≠ []) (hrs : ∀ r ∈ rs, r.1 < r.2) :
    parseRanges (selectorParameters (sliceSelector p id rs)) n cap =
      parseSpans n cap [] 0 (rs.map renderSpan) := by
  have hspec := rangesSpec_of (ampersand_not_mem_formatFrom [] rs (by simp))
  have hcomma : ∀ l ∈ rs.map renderSpan, ',' ∉ l := by
    intro l hl
    obtain ⟨r, -, rfl⟩ := List.mem_map.mp hl
    exact not_mem_renderSpan r (by decide) (by decide)
  have hjoin : formatFrom [] rs = [','].intercalate (rs.map renderSpan) := by
    simpa [formatRanges] using formatRanges_toList hrs
  rw [parseRanges, selectorParameters_eq, formatRanges, String.toList_ofList, hspec, hjoin]
  simp only
  rw [List.splitOn_intercalate ',' hcomma (by simpa using hne)]

/-- A server takes exactly the servable span lists, and takes them unchanged. -/
theorem parseRanges_iff {p : QueryPrefix} {id : BlobId} {n cap : Nat} {rs : List (Nat × Nat)}
    (hn : n ≤ u32Max) (hrs : ∀ r ∈ rs, r.1 < r.2 ∧ r.2 ≤ n) (hne : rs ≠ []) :
    (∃ res, parseRanges (selectorParameters (sliceSelector p id rs)) n cap = .ok res) ↔
      Servable n cap rs := by
  have hsel : parseRanges (selectorParameters (sliceSelector p id rs)) n cap =
      parseSpans n cap [] 0 (rs.map renderSpan) :=
    parseRanges_selector hne fun r hr => (hrs r hr).1
  constructor
  · rintro ⟨res, h⟩
    have heq : res = rs := by
      rw [hsel] at h
      exact parseSpans_render_eq (fun r hr => ⟨(hrs r hr).1, Nat.le_trans (hrs r hr).2 hn⟩) h
    rw [← heq]
    exact parseRanges_servable h
  · intro h
    rw [hsel]
    exact ⟨rs, parseSpans_render hn rfl (by simpa using h)⟩

theorem Servable.parsed {p : QueryPrefix} {id : BlobId} {n cap : Nat} {rs : List (Nat × Nat)}
    (h : Servable n cap rs) (hn : n ≤ u32Max) :
    parseRanges (selectorParameters (sliceSelector p id rs)) n cap = .ok rs := by
  rw [parseRanges_selector h.asked fun r hr => (h.inside r hr).1]
  exact parseSpans_render hn rfl (by simpa using h)

end Zblob
