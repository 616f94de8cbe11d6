import Mathlib.Data.List.AList
import Mathlib.Data.List.Sort
import Zblob.Fetch
import Zblob.Materialize
import Zblob.Wire
import Zblob.Lib.Runs

/-!
The lifecycle of a content store: persistent tags in a directory, temp tags in memory, and
the mark and sweep that removes what neither of them reaches.
-/

set_option autoImplicit false

namespace Zblob

open Runs (Reachable)

structure TagRecord where
  version : UInt16
  root : Hash
  chunks : List Hash

def Format.tagRecord : Codec TagRecord :=
  (u16.pair (hash.pair (Codec.list hash))).pmap (fun t => (t.version, t.root, t.chunks))
    (fun p => some ⟨p.1, p.2.1, p.2.2⟩) fun _ => rfl

abbrev Format.tagWire : Wire TagRecord := Wire.ofCodec Format.tagRecord

abbrev TagDir := AList (fun _ : String => Bytes)

structure TagReads where
  listable : Bool
  readable : String → Bool

def tagSuffix : String := ".tag"

def tagPath (name : String) : Result String :=
  if BlobId.isValid name then .ok (name ++ tagSuffix)
  else .error (.usage ("invalid tag name " ++ debugStr name))

def stripTag (file : String) : Option String :=
  if tagSuffix.toList.isSuffixOf file.toList then
    some (String.ofList (file.toList.take (file.toList.length - tagSuffix.toList.length)))
  else none

namespace TagDir

variable [Wire TagRecord]

def recordOf (index : TreeIndex) : TagRecord := ⟨wireVersion, index.rootHash, index.neededChunks⟩

def set (d : TagDir) (name : String) (index : TreeIndex) : Result TagDir :=
  (tagPath name).map fun path => d.insert path (encode (recordOf index))

def get (d : TagDir) (reads : TagReads) (name : String) : Result (Option TagRecord) :=
  match tagPath name with
  | .error e => .error e
  | .ok path =>
    match d.lookup path with
    | none => .ok none
    | some bytes => if reads.readable path then (decode TagRecord bytes).map some else .error .io

def remove (d : TagDir) (name : String) : Result (TagDir × Bool) :=
  (tagPath name).map fun path => (d.erase path, (d.lookup path).isSome)

def list (d : TagDir) : List String := (d.keys.filterMap stripTag).insertionSort (· ≤ ·)

def gather (d : TagDir) (reads : TagReads) : List String → List Hash → Result (List Hash)
  | [], live => .ok live
  | name :: rest, live =>
    match d.get reads name with
    | .error e => .error e
    | .ok none => gather d reads rest live
    | .ok (some record) => gather d reads rest (live ++ record.chunks)

def liveSet (d : TagDir) (reads : TagReads) : Result (List Hash) :=
  if reads.listable then d.gather reads d.list [] else .error .io

end TagDir

/-- The registry of temp tags: the weak references it keeps, and the tags that are held,
each with its set. -/
structure TempTags where
  sets : List Nat
  held : List (Nat × List Hash)
  next : Nat

namespace TempTags

def new : TempTags := ⟨[], [], 0⟩

def upgrade (t : TempTags) (tag : Nat) : Option (List Hash) := t.held.lookup tag

def retain (t : TempTags) : TempTags :=
  { t with sets := t.sets.filter fun tag => (t.upgrade tag).isSome }

def protect (t : TempTags) (hashes : List Hash) : TempTags × Nat :=
  ({ sets := t.retain.sets ++ [t.next], held := t.held ++ [(t.next, hashes)], next := t.next + 1 },
    t.next)

def drop (t : TempTags) (tag : Nat) : TempTags :=
  { t with held := t.held.filter fun h => h.1 ≠ tag }

def liveSet (t : TempTags) : TempTags × List Hash :=
  (t.retain, t.retain.sets.flatMap fun tag => (t.upgrade tag).getD [])

end TempTags

structure GcStats where
  kept : Nat
  removed : Nat
  deriving DecidableEq

def ChunkMap.remove (m : ChunkMap) (h : Hash) : ChunkMap := Function.update m h none

/-- What the calls of a sweep on its store bring: the listing, and the removals that fail. -/
structure SweepIo where
  listing : Result (List Hash)
  fails : Hash → Bool

def sweepLoop (io : SweepIo) (live : List Hash) :
    List Hash → GcStats → ChunkMap → Result GcStats × ChunkMap
  | [], stats, m => (.ok stats, m)
  | h :: rest, stats, m =>
    if h ∈ live then sweepLoop io live rest { stats with kept := stats.kept + 1 } m
    else if io.fails h then (.error .io, m)
    else
      sweepLoop io live rest
        (if m.has h then { stats with removed := stats.removed + 1 } else stats) (m.remove h)

def markLive (tagged : List Hash) (temps : TempTags) (roots : List TreeIndex) : List Hash :=
  tagged ++ temps.liveSet.2 ++ roots.flatMap TreeIndex.neededChunks

def sweep [Wire TagRecord] (reads : TagReads) (io : SweepIo) (m : ChunkMap) (tags : TagDir)
    (temps : TempTags) (roots : List TreeIndex) : Result GcStats × ChunkMap :=
  match tags.liveSet reads with
  | .error e => (.error e, m)
  | .ok tagged =>
    match io.listing with
    | .error e => (.error e, m)
    | .ok hashes => sweepLoop io (markLive tagged temps roots) hashes ⟨0, 0⟩ m

theorem stripTag_append (name : String) : stripTag (name ++ tagSuffix) = some name := by
  have hsuffix : tagSuffix.toList.isSuffixOf (name ++ tagSuffix).toList = true := by
    rw [List.isSuffixOf_iff_suffix, String.toList_append]
    exact List.suffix_append _ _
  rw [stripTag, if_pos hsuffix, String.toList_append]
  simp

theorem tagSuffix_inj {a b : String} (h : a ++ tagSuffix = b ++ tagSuffix) : a = b := by
  have hs := congrArg stripTag h
  rw [stripTag_append, stripTag_append] at hs
  exact Option.some.inj hs

theorem tagPath_ok {name : String} (h : BlobId.isValid name = true) :
    tagPath name = .ok (name ++ tagSuffix) :=
  if_pos h

theorem tagPath_error {name : String} (h : ¬ BlobId.isValid name = true) :
    tagPath name = .error (.usage ("invalid tag name " ++ debugStr name)) := if_neg h

theorem TagDir.mem_list {d : TagDir} {name : String} :
    name ∈ d.list ↔ ∃ file ∈ d.keys, stripTag file = some name := by
  unfold TagDir.list
  rw [(List.perm_insertionSort _ _).mem_iff, List.mem_filterMap]

section Gather

variable [Wire TagRecord] {d : TagDir} {reads : TagReads} {names : List String}
  {live out : List Hash}

theorem TagDir.gather_ok (h : d.gather reads names live = .ok out) (x : Hash) :
    x ∈ out ↔ x ∈ live ∨ ∃ name ∈ names, ∃ record, d.get reads name = .ok (some record) ∧
      x ∈ record.chunks := by
  induction names generalizing live with
  | nil =>
    cases h
    simp
  | cons name names ih =>
    unfold TagDir.gather at h
    split at h
    · cases h
    · rename_i hget
      rw [ih h]
      simp [hget]
    · rename_i record hget
      rw [ih h]
      simp [hget, or_assoc]

theorem TagDir.gather_error {name : String} {e : BlobError} (hname : name ∈ names)
    (hget : d.get reads name = .error e) : ∃ e', d.gather reads names live = .error e' := by
  induction names generalizing live with
  | nil => cases hname
  | cons first names ih =>
    unfold TagDir.gather
    split
    · exact ⟨_, rfl⟩
    · rename_i hfirst
      rcases List.mem_cons.mp hname with rfl | hrest
      · rw [hget] at hfirst
        cases hfirst
      · exact ih hrest
    · rename_i record hfirst
      rcases List.mem_cons.mp hname with rfl | hrest
      · rw [hget] at hfirst
        cases hfirst
      · exact ih hrest

theorem TagDir.liveSet_error {name : String} {e : BlobError} (hname : name ∈ d.list)
    (hget : d.get reads name = .error e) : ∃ e', d.liveSet reads = .error e' := by
  unfold TagDir.liveSet
  split
  · exact TagDir.gather_error hname hget
  · exact ⟨_, rfl⟩

end Gather

structure Lists (m : ChunkMap) (hashes : List Hash) : Prop where
  nodup : hashes.Nodup
  all : ∀ h, h ∈ hashes ↔ m.has h = true

section Loop

variable {io : SweepIo} {live hashes : List Hash} {stats stats' : GcStats} {m m' : ChunkMap}

theorem ChunkMap.remove_of_ne {h x : Hash} (hx : x ≠ h) : m.remove h x = m x :=
  Function.update_of_ne hx _ _

theorem ChunkMap.has_remove {h x : Hash} (hx : x ≠ h) : (m.remove h).has x = m.has x := by
  simp [ChunkMap.has, ChunkMap.remove_of_ne hx]

/-- Whatever becomes of the loop, only dead chunks go. -/
theorem sweepLoop_keeps {x : Hash} (hx : x ∈ live) :
    (sweepLoop io live hashes stats m).2 x = m x := by
  induction hashes generalizing stats m with
  | nil => rfl
  | cons h hashes ih =>
    unfold sweepLoop
    split
    · exact ih
    · rename_i hdead
      split
      · rfl
      · rw [ih]
        exact ChunkMap.remove_of_ne fun he => hdead (he ▸ hx)

theorem sweepLoop_ok (hnodup : hashes.Nodup) (hin : ∀ h ∈ hashes, m.has h = true)
    (h : sweepLoop io live hashes stats m = (.ok stats', m')) :
    (∀ x, m' x = if x ∈ hashes ∧ x ∉ live then none else m x) ∧
      stats'.kept = stats.kept + (hashes.filter (· ∈ live)).length ∧
      stats'.removed = stats.removed + (hashes.filter (· ∉ live)).length := by
  induction hashes generalizing stats m with
  | nil =>
    cases h
    simp
  | cons first hashes ih =>
    obtain ⟨hfirst, hnodup⟩ := List.nodup_cons.mp hnodup
    unfold sweepLoop at h
    split at h
    · rename_i hlive
      obtain ⟨hm, hk, hr⟩ := ih hnodup (fun x hx => hin x (by simp [hx])) h
      refine ⟨fun x => ?_, ?_, ?_⟩
      · rw [hm]
        by_cases hx : x = first
        · simp [hx, hlive]
        · simp [hx]
      · simp only [hk, hlive, decide_true, List.filter_cons_of_pos, List.length_cons]
        omega
      · simp [hr, hlive]
    · rename_i hdead
      split at h
      · cases h
      · have hrest : ∀ x ∈ hashes, (m.remove first).has x = true := by
          intro x hx
          have hne : x ≠ first := by
            rintro rfl
            exact hfirst hx
          rw [ChunkMap.has_remove hne]
          exact hin x (by simp [hx])
        obtain ⟨hm, hk, hr⟩ := ih hnodup hrest h
        rw [if_pos (hin first (by simp))] at hk hr
        refine ⟨fun x => ?_, ?_, ?_⟩
        · rw [hm]
          by_cases hx : x = first
          · subst hx
            simp [hdead, hfirst, ChunkMap.remove]
          · simp [hx, ChunkMap.remove_of_ne hx]
        · simp [hk, hdead]
        · simp only [hr, hdead, not_false_eq_true, decide_true, List.filter_cons_of_pos,
            List.length_cons]
          omega

/-- A whole pass over a store leaves the live part of it, and counts both parts. -/
theorem sweepLoop_exact (hlists : Lists m hashes)
    (h : sweepLoop io live hashes ⟨0, 0⟩ m = (.ok stats, m')) :
    (∀ x ∈ live, m' x = m x) ∧ (∀ x, x ∉ live → m' x = none) ∧
      ∃ kept removed : List Hash, (kept ++ removed).Nodup ∧
        (∀ x, x ∈ kept ↔ m.has x = true ∧ m'.has x = true) ∧
        (∀ x, x ∈ removed ↔ m.has x = true ∧ m'.has x = false) ∧
        stats = ⟨kept.length, removed.length⟩ := by
  obtain ⟨hm, hkept, hremoved⟩ := sweepLoop_ok hlists.nodup (fun x hx => (hlists.all x).mp hx) h
  have hkeep : ∀ x ∈ live, m' x = m x := by
    intro x hx
    rw [hm, if_neg fun hd => hd.2 hx]
  have hgone : ∀ x, x ∉ live → m' x = none := by
    intro x hx
    rw [hm]
    split
    · rfl
    · rename_i hno
      have hhas : ¬ m.has x = true := fun hh => hno ⟨(hlists.all x).mpr hh, hx⟩
      simpa [ChunkMap.has] using hhas
  have hhas : ∀ x ∈ hashes, (m'.has x = true ↔ x ∈ live) := by
    intro x hx
    constructor
    · intro hh
      by_contra hdead
      rw [ChunkMap.has, hgone x hdead] at hh
      cases hh
    · intro hl
      rw [ChunkMap.has, hkeep x hl]
      exact (hlists.all x).mp hx
  refine ⟨hkeep, hgone, hashes.filter (· ∈ live), hashes.filter (· ∉ live), ?_, ?_, ?_, ?_⟩
  · refine List.nodup_append.mpr ⟨hlists.nodup.filter _, hlists.nodup.filter _, ?_⟩
    rintro a ha b hb rfl
    simp only [List.mem_filter, decide_eq_true_eq] at ha hb
    exact hb.2 ha.2
  · intro x
    simp only [List.mem_filter, decide_eq_true_eq, ← hlists.all]
    exact and_congr_right fun hx => (hhas x hx).symm
  · intro x
    simp only [List.mem_filter, decide_eq_true_eq, ← hlists.all]
    refine and_congr_right fun hx => ?_
    rw [← hhas x hx, Bool.not_eq_true]
  · cases stats
    simp only [Nat.zero_add] at hkept hremoved
    rw [hkept, hremoved]

end Loop

inductive TagOp where
  | set (name : String) (index : TreeIndex)
  | remove (name : String)
  | protect (hashes : List Hash)
  | drop (tag : Nat)

structure TagState where
  dir : TagDir
  temps : TempTags

def TagState.new : TagState := ⟨∅, TempTags.new⟩

def TagState.apply [Wire TagRecord] (op : TagOp) (s : TagState) : TagState :=
  match op with
  | .set name index => { s with dir := ((s.dir.set name index).toOption).getD s.dir }
  | .remove name => { s with dir := ((s.dir.remove name).toOption.map Prod.fst).getD s.dir }
  | .protect hashes => { s with temps := (s.temps.protect hashes).1 }
  | .drop tag => { s with temps := s.temps.drop tag }

/-- What the operations are for: the snapshot under each name, and the sets that are
protected. -/
structure Roots where
  tagged : String → Option TreeIndex
  held : List (Nat × List Hash)
  next : Nat

def Roots.new : Roots := ⟨fun _ => none, [], 0⟩

def Roots.apply (op : TagOp) (r : Roots) : Roots :=
  match op with
  | .set name index =>
    if BlobId.isValid name then { r with tagged := Function.update r.tagged name (some index) }
      else r
  | .remove name => { r with tagged := Function.update r.tagged name none }
  | .protect hashes => { r with held := r.held ++ [(r.next, hashes)], next := r.next + 1 }
  | .drop tag => { r with held := r.held.filter fun h => h.1 ≠ tag }

def Roots.Live (r : Roots) (extra : List TreeIndex) (h : Hash) : Prop :=
  (∃ name index, r.tagged name = some index ∧ h ∈ index.neededChunks) ∨
    (∃ tag hashes, (tag, hashes) ∈ r.held ∧ h ∈ hashes) ∨ ∃ index ∈ extra, h ∈ index.neededChunks

/-- The directory has a record for each tag and nothing else, and the registry has a weak
reference to every tag that is held. -/
structure Tracked [Wire TagRecord] (s : TagState) (r : Roots) : Prop where
  valid : ∀ name index, r.tagged name = some index → BlobId.isValid name = true
  files : ∀ file, s.dir.lookup file ≠ none → ∃ name index, r.tagged name = some index ∧
    file = name ++ tagSuffix
  records : ∀ name index, r.tagged name = some index →
    s.dir.lookup (name ++ tagSuffix) = some (encode (TagDir.recordOf index))
  held : s.temps.held = r.held
  next : s.temps.next = r.next
  numbered : ∀ tag hashes, (tag, hashes) ∈ r.held → tag < r.next
  distinct : (r.held.map Prod.fst).Nodup
  known : ∀ tag hashes, (tag, hashes) ∈ r.held → tag ∈ s.temps.sets

section Tracked

variable [Wire TagRecord] {s : TagState} {r : Roots}

theorem Tracked.new : Tracked TagState.new Roots.new := by
  refine ⟨by simp [Roots.new], ?_, by simp [Roots.new], rfl, rfl, by simp [Roots.new],
    by simp [Roots.new], by simp [Roots.new]⟩
  intro file h
  simp [TagState.new] at h

theorem Tracked.set (h : Tracked s r) (name : String) (index : TreeIndex) :
    Tracked (s.apply (.set name index)) (r.apply (.set name index)) := by
  by_cases hvalid : BlobId.isValid name = true
  · have hs : s.apply (.set name index) =
        { s with dir := s.dir.insert (name ++ tagSuffix) (encode (TagDir.recordOf index)) } := by
      simp [TagState.apply, TagDir.set, tagPath_ok hvalid, Except.map, Except.toOption]
    have hr : r.apply (.set name index) =
        { r with tagged := Function.update r.tagged name (some index) } :=
      if_pos hvalid
    rw [hs, hr]
    refine ⟨?_, ?_, ?_, h.held, h.next, h.numbered, h.distinct, h.known⟩
    · intro other i hi
      by_cases hn : other = name
      · exact hn ▸ hvalid
      · exact h.valid other i (by simpa [Function.update_of_ne hn] using hi)
    · intro file hfile
      by_cases hf : file = name ++ tagSuffix
      · exact ⟨name, index, by simp, hf⟩
      · rw [AList.lookup_insert_ne hf] at hfile
        obtain ⟨other, i, hi, rfl⟩ := h.files file hfile
        have hn : other ≠ name := by
          rintro rfl
          exact hf rfl
        exact ⟨other, i, by simpa [Function.update_of_ne hn] using hi, rfl⟩
    · intro other i hi
      by_cases hn : other = name
      · subst hn
        have hi : index = i := by simpa using hi
        rw [AList.lookup_insert, hi]
      · rw [AList.lookup_insert_ne fun he => hn (tagSuffix_inj he)]
        exact h.records other i (by simpa [Function.update_of_ne hn] using hi)
  · have hs : s.apply (.set name index) = s := by
      simp [TagState.apply, TagDir.set, tagPath_error hvalid, Except.map, Except.toOption]
    rw [hs, show r.apply (.set name index) = r from if_neg hvalid]
    exact h

theorem Tracked.remove (h : Tracked s r) (name : String) :
    Tracked (s.apply (.remove name)) (r.apply (.remove name)) := by
  have hother : ∀ other i, (r.apply (.remove name)).tagged other = some i →
      other ≠ name ∧ r.tagged other = some i := by
    intro other i hi
    by_cases hn : other = name
    · simp [Roots.apply, hn] at hi
    · exact ⟨hn, by simpa [Roots.apply, Function.update_of_ne hn] using hi⟩
  by_cases hvalid : BlobId.isValid name = true
  · have hs : s.apply (.remove name) = { s with dir := s.dir.erase (name ++ tagSuffix) } := by
      simp [TagState.apply, TagDir.remove, tagPath_ok hvalid, Except.map, Except.toOption]
    rw [hs]
    refine ⟨fun other i hi => h.valid other i (hother other i hi).2,
      ?_, ?_, h.held, h.next, h.numbered,
      h.distinct, h.known⟩
    · intro file hfile
      by_cases hf : file = name ++ tagSuffix
      · exact absurd (by rw [hf, AList.lookup_erase]) hfile
      · rw [AList.lookup_erase_ne hf] at hfile
        obtain ⟨other, i, hi, rfl⟩ := h.files file hfile
        have hn : other ≠ name := by
          rintro rfl
          exact hf rfl
        exact ⟨other, i, by simpa [Roots.apply, Function.update_of_ne hn] using hi, rfl⟩
    · intro other i hi
      obtain ⟨hn, hi⟩ := hother other i hi
      rw [AList.lookup_erase_ne fun he => hn (tagSuffix_inj he)]
      exact h.records other i hi
  · have hs : s.apply (.remove name) = s := by
      simp [TagState.apply, TagDir.remove, tagPath_error hvalid, Except.map, Except.toOption]
    rw [hs]
    -- a name that no tag may have is not among the tags either
    have hnone : r.tagged name = none := by
      cases ht : r.tagged name with
      | none => rfl
      | some i => exact absurd (h.valid name i ht) hvalid
    have hr : r.apply (.remove name) = r := by
      simp only [Roots.apply]
      rw [← hnone, Function.update_eq_self]
    rw [hr]
    exact h

theorem upgrade_of_held (h : Tracked s r) {tag : Nat} {hashes : List Hash}
    (hm : (tag, hashes) ∈ r.held) :
    s.temps.upgrade tag = some hashes := by
  unfold TempTags.upgrade
  rw [h.held]
  have hd := h.distinct
  generalize r.held = held at hm hd
  induction held with
  | nil => cases hm
  | cons first held ih =>
    obtain ⟨t, hs⟩ := first
    rw [List.map_cons, List.nodup_cons] at hd
    rcases List.mem_cons.mp hm with he | hm
    · cases he
      simp
    · have hne : tag ≠ t := by
        intro he
        exact hd.1 (List.mem_map.mpr ⟨_, hm, he⟩)
      rw [List.lookup_cons, beq_eq_false_iff_ne.mpr hne]
      exact ih hm hd.2

theorem mem_retain (h : Tracked s r) {tag : Nat} {hashes : List Hash}
    (hm : (tag, hashes) ∈ r.held) :
    tag ∈ s.temps.retain.sets := by
  simp [TempTags.retain, upgrade_of_held h hm, h.known tag hashes hm]

theorem Tracked.protect (h : Tracked s r) (hashes : List Hash) :
    Tracked (s.apply (.protect hashes)) (r.apply (.protect hashes)) := by
  have hcases : ∀ tag hs, (tag, hs) ∈ (r.apply (.protect hashes)).held →
      (tag, hs) ∈ r.held ∨ tag = r.next := by
    intro tag hs hm
    rcases List.mem_append.mp hm with hm | hm
    · exact .inl hm
    · cases List.mem_singleton.mp hm
      exact .inr rfl
  refine ⟨h.valid, h.files, h.records, ?_, ?_, ?_, ?_, ?_⟩
  · simp [TagState.apply, TempTags.protect, Roots.apply, h.held, h.next]
  · simp [TagState.apply, TempTags.protect, Roots.apply, h.next]
  · intro tag hs hm
    simp only [Roots.apply]
    rcases hcases tag hs hm with hm | rfl
    · have := h.numbered tag hs hm
      omega
    · omega
  · simp only [Roots.apply, List.map_append, List.map_cons, List.map_nil]
    refine List.nodup_append.mpr ⟨h.distinct, by simp, ?_⟩
    intro a ha b hb he
    obtain ⟨⟨tag, hs⟩, hm, rfl⟩ := List.mem_map.mp ha
    have hlt := h.numbered tag hs hm
    rw [List.mem_singleton.mp hb] at he
    simp only at he
    omega
  · intro tag hs hm
    simp only [TagState.apply, TempTags.protect, List.mem_append, List.mem_singleton]
    rcases hcases tag hs hm with hm | rfl
    · exact .inl (mem_retain h hm)
    · exact .inr h.next.symm

theorem Tracked.drop (h : Tracked s r) (tag : Nat) :
    Tracked (s.apply (.drop tag)) (r.apply (.drop tag)) := by
  have hkept : ∀ t hs, (t, hs) ∈ (r.apply (.drop tag)).held → (t, hs) ∈ r.held :=
    fun t hs hm => List.mem_of_mem_filter hm
  refine ⟨h.valid, h.files, h.records, ?_, h.next, ?_, ?_, ?_⟩
  · simp [TagState.apply, TempTags.drop, Roots.apply, h.held]
  · exact fun t hs hm => h.numbered t hs (hkept t hs hm)
  · exact h.distinct.sublist (List.filter_sublist.map _)
  · exact fun t hs hm => h.known t hs (hkept t hs hm)

/-- The state follows the roots through every history. -/
theorem Tracked.run (h : Tracked s r) (ops : List TagOp) :
    Tracked (Runs.run TagState.apply ops s) (Runs.run Roots.apply ops r) := by
  induction ops generalizing s r with
  | nil => exact h
  | cons op ops ih =>
    cases op with
    | set name index => exact ih (h.set name index)
    | remove name => exact ih (h.remove name)
    | protect hashes => exact ih (h.protect hashes)
    | drop tag => exact ih (h.drop tag)

theorem Tracked.mem_list (h : Tracked s r) (name : String) :
    name ∈ s.dir.list ↔ ∃ index, r.tagged name = some index := by
  rw [TagDir.mem_list]
  constructor
  · rintro ⟨file, hfile, hstrip⟩
    obtain ⟨other, index, hi, rfl⟩ := h.files file (by
      rw [Ne, AList.lookup_eq_none, not_not]
      exact hfile)
    rw [stripTag_append] at hstrip
    cases hstrip
    exact ⟨index, hi⟩
  · rintro ⟨index, hi⟩
    refine ⟨name ++ tagSuffix, ?_, stripTag_append name⟩
    have hs := h.records name index hi
    by_contra hno
    rw [AList.lookup_eq_none.mpr hno] at hs
    cases hs

theorem Tracked.get (h : Tracked s r) (reads : TagReads) {name : String} {index : TreeIndex}
    (hi : r.tagged name = some index) :
    s.dir.get reads name =
      if reads.readable (name ++ tagSuffix) then .ok (some (TagDir.recordOf index))
      else .error .io := by
  simp only [TagDir.get, tagPath_ok (h.valid name index hi), h.records name index hi,
    decode_encode, Except.map]

theorem Tracked.mem_tagged (h : Tracked s r) {reads : TagReads} {tagged : List Hash}
    (hlive : s.dir.liveSet reads = .ok tagged) (x : Hash) :
    x ∈ tagged ↔ ∃ name index, r.tagged name = some index ∧ x ∈ index.neededChunks := by
  unfold TagDir.liveSet at hlive
  split at hlive
  · rw [TagDir.gather_ok hlive]
    constructor
    · rintro (hx | ⟨name, hname, record, hget, hx⟩)
      · cases hx
      · obtain ⟨index, hi⟩ := (h.mem_list name).mp hname
        rw [h.get reads hi] at hget
        split at hget
        · cases hget
          exact ⟨name, index, hi, hx⟩
        · cases hget
    · rintro ⟨name, index, hi, hx⟩
      have hname := (h.mem_list name).mpr ⟨index, hi⟩
      have hget := h.get reads hi
      split at hget
      · exact .inr ⟨name, hname, _, hget, hx⟩
      · have hfail : ∃ e, s.dir.gather reads s.dir.list [] = .error e :=
          TagDir.gather_error hname hget
        obtain ⟨e, he⟩ := hfail
        rw [he] at hlive
        cases hlive
  · cases hlive

theorem Tracked.mem_temps (h : Tracked s r) (x : Hash) :
    x ∈ s.temps.liveSet.2 ↔ ∃ tag hashes, (tag, hashes) ∈ r.held ∧ x ∈ hashes := by
  simp only [TempTags.liveSet, List.mem_flatMap]
  constructor
  · rintro ⟨tag, -, hx⟩
    cases hup : s.temps.upgrade tag with
    | none => simp [hup] at hx
    | some hashes =>
      obtain ⟨before, after, hheld, -⟩ := List.lookup_eq_some_iff.mp hup
      refine ⟨tag, hashes, ?_, by simpa [hup] using hx⟩
      rw [← h.held, hheld]
      simp
  · rintro ⟨tag, hashes, hm, hx⟩
    exact ⟨tag, mem_retain h hm, by simpa [upgrade_of_held h hm] using hx⟩

/-- The mark is exact. -/
theorem Tracked.mem_markLive (h : Tracked s r) {reads : TagReads} {tagged : List Hash}
    (hlive : s.dir.liveSet reads = .ok tagged) (extra : List TreeIndex) (x : Hash) :
    x ∈ markLive tagged s.temps extra ↔ r.Live extra x := by
  simp [markLive, Roots.Live, h.mem_tagged hlive, h.mem_temps]

end Tracked

theorem Roots.held_run {r : Roots} {tag : Nat} {hashes : List Hash} {ops : List TagOp}
    (hm : (tag, hashes) ∈ r.held) (hops : TagOp.drop tag ∉ ops) :
    (tag, hashes) ∈ (Runs.run Roots.apply ops r).held := by
  induction ops generalizing r with
  | nil => exact hm
  | cons op ops ih =>
    rw [List.mem_cons, not_or] at hops
    rw [Runs.run_cons]
    refine ih ?_ hops.2
    cases op with
    | set name index =>
      simp only [Roots.apply]
      split <;> exact hm
    | remove name => exact hm
    | protect more => exact List.mem_append_left _ hm
    | drop other =>
      refine List.mem_filter.mpr ⟨hm, ?_⟩
      have hne : tag ≠ other := by
        rintro rfl
        exact hops.1 rfl
      simp [hne]

section Exact

variable [Wire TagRecord]

theorem sweep_error {reads : TagReads} {d : TagDir} {e : BlobError} (h : d.liveSet reads = .error e)
    (io : SweepIo) (m : ChunkMap) (temps : TempTags) (extra : List TreeIndex) :
    sweep reads io m d temps extra = (.error e, m) := by
  rw [sweep, h]

theorem sweep_ok {reads : TagReads} {io : SweepIo} {m m' : ChunkMap} {d : TagDir} {temps : TempTags}
    {extra : List TreeIndex} {stats : GcStats}
    (h : sweep reads io m d temps extra = (.ok stats, m')) :
    ∃ tagged hashes, d.liveSet reads = .ok tagged ∧ io.listing = .ok hashes ∧
      sweepLoop io (markLive tagged temps extra) hashes ⟨0, 0⟩ m = (.ok stats, m') := by
  unfold sweep at h
  split at h
  · cases h
  · rename_i tagged htagged
    split at h
    · cases h
    · rename_i hashes hlisting
      exact ⟨tagged, hashes, htagged, hlisting, h⟩

/-- A sweep keeps what is live, removes the rest and counts both; it removes nothing when a
tag cannot be read; and a temp tag protects its set until it is dropped itself. -/
theorem sweep_exact (ops : List TagOp) (reads : TagReads) (io : SweepIo) (m : ChunkMap)
    (extra : List TreeIndex) (hlisting : ∀ hashes, io.listing = .ok hashes → Lists m hashes) :
    (∀ stats m',
      sweep reads io m (Runs.run TagState.apply ops .new).dir
      (Runs.run TagState.apply ops .new).temps extra =
          (.ok stats, m') →
        (∀ x, (Runs.run Roots.apply ops .new).Live extra x → m' x = m x) ∧
          (∀ x, ¬ (Runs.run Roots.apply ops .new).Live extra x → m' x = none) ∧
          ∃ kept removed : List Hash, (kept ++ removed).Nodup ∧
            (∀ x, x ∈ kept ↔ m.has x = true ∧ m'.has x = true) ∧
            (∀ x, x ∈ removed ↔ m.has x = true ∧ m'.has x = false) ∧
            stats = ⟨kept.length, removed.length⟩) ∧
      (∀ d temps,
        (reads.listable = false ∨ ∃ name ∈ TagDir.list d, ∃ e, d.get reads name = .error e) →
        ∃ e, sweep reads io m d temps extra = (.error e, m)) ∧
      ∀ before hashes after,
        TagOp.drop ((Runs.run TagState.apply before .new).temps.protect hashes).2 ∉ after →
          ∀ x ∈ hashes,
            x ∈ (Runs.run TagState.apply (before ++ .protect hashes :: after)
              .new).temps.liveSet.2 := by
  have htracked (ops : List TagOp) := Tracked.new.run ops
  refine ⟨?_, ?_, ?_⟩
  · intro stats m' h
    obtain ⟨tagged, hashes, htagged, hhashes, hloop⟩ := sweep_ok h
    obtain ⟨hkeep, hgone, hcount⟩ := sweepLoop_exact (hlisting hashes hhashes) hloop
    have hlive := (htracked ops).mem_markLive htagged extra
    exact ⟨fun x hx =>
      hkeep x ((hlive x).mpr hx), fun x hx => hgone x fun hl => hx ((hlive x).mp hl), hcount⟩
  · rintro d temps (hlistable | ⟨name, hname, e, hget⟩)
    · have he : d.liveSet reads = .error .io := by simp [TagDir.liveSet, hlistable]
      exact ⟨.io, sweep_error he io m temps extra⟩
    · obtain ⟨e', he⟩ := TagDir.liveSet_error hname hget
      exact ⟨e', sweep_error he io m temps extra⟩
  · intro before hashes after hdrop x hx
    have hheld : (((Runs.run TagState.apply before .new).temps.protect hashes).2, hashes) ∈
        ((Runs.run Roots.apply before .new).apply (.protect hashes)).held := by
      simp [Roots.apply, TempTags.protect, (htracked before).next]
    have hafter := Roots.held_run hheld hdrop
    rw [(htracked _).mem_temps, Runs.run_append, Runs.run_cons]
    exact ⟨_, hashes, hafter, hx⟩

end Exact

def oneFile (chunks : List ChunkRef) : TreeIndex :=
  sampleIndex [.file "f" 0o644 0 3 chunks] (shortHash [0, 0, 0])

def threeChunks : ChunkMap :=
  ChunkMap.putMany (fun _ => none)
    [(shortHash [97, 98, 99], [97, 98, 99]), (shortHash [120, 121, 122], [120, 121, 122]),
      (shortHash [], [])]

def threeHashes : List Hash := [shortHash [97, 98, 99], shortHash [120, 121, 122], shortHash []]

theorem threeChunks_lists : Lists threeChunks threeHashes := by
  refine ⟨by decide +kernel, fun h => ?_⟩
  simp only [threeHashes, threeChunks, ChunkMap.putMany, ChunkMap.has,
    List.foldl_cons, List.foldl_nil,
    ChunkMap.put, List.mem_cons, List.not_mem_nil, or_false, Function.update_apply]
  split
  · simp [*]
  · split
    · simp [*]
    · split
      · simp [*]
      · simp [*]

/-- Of three chunks one is tagged, one is held by a temp tag beside a dropped one, and one goes. -/
theorem sweep_exact_three :
    let _ := Wire.ofCodec Format.tagRecord
    let ops : List TagOp := [.set "keep" (oneFile [⟨shortHash [97, 98, 99], 3⟩]),
      .protect [shortHash [120, 121, 122]], .protect [shortHash [120, 121, 122], shortHash []],
      .drop 1]
    let s := Runs.run TagState.apply ops .new
    let swept :=
      sweep ⟨true, fun _ => true⟩ ⟨.ok threeHashes, fun _ => false⟩ threeChunks s.dir s.temps []
    swept.1.toOption = some ⟨2, 1⟩ ∧ swept.2 (shortHash [120, 121, 122]) =
      some [120, 121, 122] := by
  intro _ ops s swept
  have hok : swept.1.toOption = some ⟨2, 1⟩ := by decide +kernel
  have hsplit : swept = (.ok ⟨2, 1⟩, swept.2) := by
    cases h : swept.1 with
    | error e => simp [h, Except.toOption] at hok
    | ok stats =>
      simp only [h, Except.toOption, Option.some.injEq] at hok
      rw [← hok, ← h]
  have hexact :=
    sweep_exact ops ⟨true, fun _ => true⟩ ⟨.ok threeHashes, fun _ => false⟩ threeChunks []
    fun hashes h => by
      cases h
      exact threeChunks_lists
  refine ⟨hok, ?_⟩
  rw [(hexact.1 _ _ hsplit).1 _
    (.inr (.inl ⟨0, [shortHash [120, 121, 122]], by decide +kernel, by simp⟩))]
  decide +kernel

end Zblob
