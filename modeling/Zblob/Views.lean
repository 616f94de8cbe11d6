import Zblob.Geometry
import Zblob.Holes

/-!
The four views of a resume bitfield agree: the test of one bit, the count of set bits, the
missing ranges and the completeness test. Each is computed a second time here with every
index and every width checked.
-/

set_option autoImplicit false

namespace Zblob

namespace ResumeState

def chunkCountMachine (s : ResumeState) : Option Nat :=
  if s.chunkSize = 0 then some 0
  else do
    let count ← TransferChunks.neededMachine s.chunkSize s.totalLen
    Machine.fit 32 count

def isSetMachine (s : ResumeState) (i : Nat) : Option Bool := do
  let count ← s.chunkCountMachine
  let bytes ← Machine.fit 32 s.bits.length
  if ¬ (i < count ∧ i / 8 < bytes) then some false
  else
    let b ← s.bits[i / 8]?
    let k ← Machine.shift 8 (i % 8)
    some ((b &&& (1 <<< UInt8.ofNat k)) != 0)

def markMachine (s : ResumeState) (i : Nat) : Option (ResumeState × Bool) := do
  let count ← s.chunkCountMachine
  let bytes ← Machine.fit 32 s.bits.length
  let set ← s.isSetMachine i
  if i ≥ count ∨ i / 8 ≥ bytes ∨ set = true then some (s, false)
  else
    let b ← s.bits[i / 8]?
    let k ← Machine.shift 8 (i % 8)
    some ({ s with bits := s.bits.set (i / 8) (b ||| (1 <<< UInt8.ofNat k)) }, true)

def maskMachine (valid : Nat) : Option UInt8 :=
  if valid ≥ 8 then some 0xff
  else do
    let k ← Machine.shift 8 valid
    some ((1 <<< UInt8.ofNat k) - 1)

def receivedFromMachine (count : Nat) : Nat → Nat → Bytes → Option Nat
  | _, sum, [] => some sum
  | i, sum, b :: bs => do
    let base ← Machine.mul 32 i 8
    let mask ← maskMachine (min (count - base) 8)
    let sum ← Machine.add 32 sum (Bitfield.countOnes (b &&& mask))
    receivedFromMachine count (i + 1) sum bs

def receivedMachine (s : ResumeState) : Option Nat := do
  let count ← s.chunkCountMachine
  receivedFromMachine count 0 0 s.bits

def runEndMachine (s : ResumeState) (n : Nat) : Nat → Nat → Option Nat
  | 0, _ => none
  | fuel + 1, i =>
    if i < n then do
      let set ← s.isSetMachine i
      if set then some i
      else
        let next ← Machine.add 32 i 1
        s.runEndMachine n fuel next
    else some i

def missingFromMachine (s : ResumeState) (n : Nat) : Nat → Nat → Option (List (Nat × Nat))
  | 0, _ => none
  | fuel + 1, i =>
    if i < n then do
      let set ← s.isSetMachine i
      if set then
        let next ← Machine.add 32 i 1
        s.missingFromMachine n fuel next
      else
        let stop ← s.runEndMachine n (fuel + 1) i
        let rest ← s.missingFromMachine n fuel stop
        some ((i, stop) :: rest)
    else some []

def missingRangesMachine (s : ResumeState) (n : Nat) : Option (List (Nat × Nat)) :=
  s.missingFromMachine n (n + 1) 0

section

variable {s : ResumeState} {m : Manifest} {c : TransferChunks} {n : Nat}

theorem Fits.chunkCountMachine_eq (h : s.Fits m c) : s.chunkCountMachine = some c.count := by
  obtain ⟨hs, hl⟩ := Manifest.chunks_ok h.geometry
  have hpos := c.chunkSize_pos
  have hne : s.chunkSize ≠ 0 := by
    intro hz
    rw [hs, ← h.chunkSize, hz] at hpos
    exact absurd hpos (by decide)
  rw [chunkCountMachine, if_neg hne, h.chunkSize, h.totalLen, ← hs, ← hl]
  exact c.countMachine_eq

theorem Fits.bits_fit (h : s.Fits m c) : Machine.fit 32 s.bits.length = some s.bits.length := by
  have hsmall := h.bits_small
  have hlt := Nat.mod_lt s.bits.length (show 0 < 4294967296 by decide)
  exact Machine.fit_eq (by omega)

theorem Fits.isSetMachine_eq (h : s.Fits m c) (i : Nat) : s.isSetMachine i = some (s.isSet i) := by
  have hb := h.bits_bound
  simp only [isSetMachine, h.chunkCountMachine_eq, h.bits_fit, Option.bind_eq_bind,
    Option.bind_some, isSet, h.count_eq,
    h.bits_small]
  by_cases hi : i < c.count
  · have hd : i / 8 < s.bits.length := by omega
    rw [if_neg (not_not.mpr ⟨hi, hd⟩), List.getElem?_eq_getElem hd, Option.bind_some,
      Machine.shift_eq (Nat.mod_lt i (by decide)), Option.bind_some]
    simp [hi, hd]
  · rw [if_pos (fun hc => hi hc.1)]
    simp [hi]

theorem Fits.markMachine_eq (h : s.Fits m c) (i : Nat) : s.markMachine i = some (s.mark i) := by
  have hb := h.bits_bound
  simp only [markMachine, h.chunkCountMachine_eq, h.bits_fit, h.isSetMachine_eq,
    Option.bind_eq_bind, Option.bind_some,
    mark, h.count_eq, h.bits_small]
  split
  · rfl
  · rename_i hopen
    have hd : i / 8 < s.bits.length := by omega
    rw [List.getElem?_eq_getElem hd, Option.bind_some, Machine.shift_eq (Nat.mod_lt i (by decide)),
      Option.bind_some,
      Bitfield.setBit, List.modify_eq_set_getElem?, List.getElem?_eq_getElem hd]
    rfl

theorem maskMachine_eq (valid : Nat) : maskMachine valid = some (Bitfield.lowMask valid) := by
  unfold maskMachine Bitfield.lowMask
  split
  · rfl
  · rw [Machine.shift_eq (by omega)]
    rfl

theorem receivedFromMachine_eq {count i sum : Nat} {bs : Bytes} (hi : 8 * (i + bs.length) ≤ 2 ^ 32)
    (hsum : sum + Bitfield.countFrom count (8 * i) bs < 2 ^ 32) :
    receivedFromMachine count i sum bs = some (sum + Bitfield.countFrom count (8 * i) bs) := by
  induction bs generalizing i sum with
  | nil => rfl
  | cons b bs ih =>
    rw [List.length_cons] at hi
    rw [Bitfield.countFrom] at hsum ⊢
    have hnext : 8 * (i + 1) = 8 * i + 8 := by omega
    have hfits : sum + Bitfield.countOnes (b &&& Bitfield.lowMask (min (count - 8 * i) 8)) +
        Bitfield.countFrom count (8 * (i + 1)) bs < 2 ^ 32 := by
      rw [hnext]
      omega
    have hrest := ih (by omega) hfits
    rw [receivedFromMachine, Machine.mul_eq (by omega), Nat.mul_comm i 8]
    simp only [Option.bind_eq_bind, Option.bind_some, maskMachine_eq]
    rw [Machine.add_eq (by omega), Option.bind_some, hrest, hnext, Nat.add_assoc]

theorem Fits.receivedMachine_eq (h : s.Fits m c) : s.receivedMachine = some s.received := by
  have hlt := c.count_lt
  have hle := Bitfield.countFrom_le c.count s.bits
  have hlen : 8 * (0 + s.bits.length) ≤ 2 ^ 32 := by
    rw [h.bitsLen]
    unfold divCeil
    split <;> omega
  have hsum : 0 + Bitfield.countFrom c.count (8 * 0) s.bits < 2 ^ 32 := by
    rw [Nat.mul_zero]
    omega
  have hrun := receivedFromMachine_eq hlen hsum
  rw [receivedMachine, h.chunkCountMachine_eq, Option.bind_eq_bind,
    Option.bind_some, hrun, received, h.count_eq,
    Nat.zero_add]

theorem Fits.runEndMachine_eq (h : s.Fits m c) (hn : n < 2 ^ 32)
    {fuel i : Nat} (hf : n - i < fuel) :
    s.runEndMachine n fuel i = some (s.runEnd n i) := by
  induction fuel generalizing i with
  | zero => omega
  | succ fuel ih =>
    rw [runEndMachine, runEnd, h.isSetMachine_eq]
    by_cases hi : i < n
    · rw [if_pos hi, Option.bind_eq_bind, Option.bind_some]
      cases hs : s.isSet i with
      | true => simp
      | false =>
        rw [Machine.add_eq (by omega), if_neg (by decide), dif_pos ⟨hi, rfl⟩]
        exact ih (by omega)
    · rw [if_neg hi, dif_neg fun hc => hi hc.1]

theorem Fits.missingFromMachine_eq (h : s.Fits m c) (hn : n < 2 ^ 32)
    {fuel i : Nat} (hf : n - i < fuel) :
    s.missingFromMachine n fuel i = some (s.missingFrom n i) := by
  induction fuel generalizing i with
  | zero => omega
  | succ fuel ih =>
    rw [missingFromMachine, missingFrom, h.isSetMachine_eq]
    by_cases hi : i < n
    · rw [if_pos hi, dif_pos hi, Option.bind_eq_bind, Option.bind_some]
      by_cases hs : s.isSet i = true
      · rw [if_pos hs, dif_pos hs, Machine.add_eq (by omega)]
        exact ih (by omega)
      · have hlt := lt_runEnd hi hs
        have hrest := ih (i := s.runEnd n i) (by omega)
        rw [if_neg hs, dif_neg hs, h.runEndMachine_eq hn hf]
        simp only [Option.bind_eq_bind, Option.bind_some, hrest]
    · rw [if_neg hi, dif_neg hi]

theorem Fits.missingRangesMachine_eq (h : s.Fits m c) (hn : n < 2 ^ 32) :
    s.missingRangesMachine n = some (s.missingRanges n) := h.missingFromMachine_eq hn (by omega)

end

section

variable {s : ResumeState} {n : Nat}

theorem runEnd_stop {i : Nat} (hi : i ≤ n) : s.runEnd n i = n ∨ s.isSet (s.runEnd n i) = true := by
  fun_induction runEnd s n i with
  | case1 i h ih => exact ih (by omega)
  | case2 i h =>
    rcases Nat.eq_or_lt_of_le hi with rfl | hlt
    · exact .inl rfl
    · exact .inr (by simpa [hlt] using h)

/-- No hole can be made longer on either side. -/
theorem missingFrom_maximal {i : Nat} {r : Nat × Nat} (hr : r ∈ s.missingFrom n i) :
    (r.1 = i ∨ s.isSet (r.1 - 1) = true) ∧ (r.2 = n ∨ s.isSet r.2 = true) := by
  fun_induction missingFrom s n i with
  | case1 i hi hs ih =>
    obtain ⟨hl, hright⟩ := ih hr
    refine ⟨.inr ?_, hright⟩
    rcases hl with hl | hl
    · rwa [hl, Nat.add_sub_cancel]
    · exact hl
  | case2 i hi hs _ ih =>
    rcases List.mem_cons.mp hr with rfl | hr
    · exact ⟨.inl rfl, runEnd_stop (by omega)⟩
    · obtain ⟨hl, hright⟩ := ih hr
      refine ⟨.inr ?_, hright⟩
      rcases hl with hl | hl
      · -- the run ended here, so no hole begins here
        obtain ⟨-, hlt, hle, hclear⟩ := missingFrom_inside hr
        have hfirst := hclear r.1 (Nat.le_refl _) hlt
        rcases runEnd_stop (s := s) (n := n) (Nat.le_of_lt hi) with hend | hend
        · omega
        · rw [← hl, hfirst] at hend
          cases hend
      · exact hl
  | case3 i hi => simp at hr

theorem missingFrom_covers {i k : Nat} (hik : i ≤ k) (hk : k < n) (hs : s.isSet k = false) :
    ∃ r ∈ s.missingFrom n i, r.1 ≤ k ∧ k < r.2 := by
  fun_induction missingFrom s n i with
  | case1 i hi hset ih =>
    rcases Nat.eq_or_lt_of_le hik with rfl | hlt
    · rw [hs] at hset
      cases hset
    · exact ih hlt
  | case2 i hi hset _ ih =>
    by_cases hin : k < s.runEnd n i
    · exact ⟨_, List.mem_cons_self, hik, hin⟩
    · obtain ⟨r, hr, hbounds⟩ := ih (by omega)
      exact ⟨r, List.mem_cons_of_mem _ hr, hbounds⟩
  | case3 i hi => omega

theorem missingRanges_apart : (s.missingRanges n).Pairwise fun a b => a.2 < b.1 := by
  apply (missingFrom_apart 0).imp_of_mem
  intro a b ha hb hle
  obtain ⟨-, hlt, hn, hclear⟩ := missingFrom_inside hb
  have hfirst := hclear b.1 (Nat.le_refl _) hlt
  rcases (missingFrom_maximal ha).2 with hend | hend
  · omega
  · rcases Nat.eq_or_lt_of_le hle with heq | hgap
    · rw [heq, hfirst] at hend
      cases hend
    · exact hgap

theorem missingRanges_mem_iff {k : Nat} :
    (∃ r ∈ s.missingRanges n, r.1 ≤ k ∧ k < r.2) ↔ k < n ∧ s.isSet k = false := by
  constructor
  · rintro ⟨r, hr, h1, h2⟩
    obtain ⟨-, -, hle, hclear⟩ := missingFrom_inside hr
    exact ⟨by omega, hclear k h1 h2⟩
  · rintro ⟨hk, hs⟩
    exact missingFrom_covers (Nat.zero_le k) hk hs

end

def markAll (s : ResumeState) (marks : List UInt32) : ResumeState :=
  marks.foldl (fun s i => (s.mark i.toNat).1) s

theorem Fits.markAll_fits {s : ResumeState} {m : Manifest} {c : TransferChunks}
    (h : s.Fits m c) (marks : List UInt32) :
    (s.markAll marks).Fits m c := by
  induction marks generalizing s with
  | nil => exact h
  | cons i marks ih => exact ih (h.mark_fits i.toNat)

theorem Fits.mark_new_iff {s : ResumeState} {m : Manifest} {c : TransferChunks}
    (h : s.Fits m c) (i : Nat) :
    (s.mark i).2 = true ↔ i < c.count ∧ s.isSet i = false := by
  constructor
  · intro hnew
    unfold mark at hnew
    split at hnew
    · cases hnew
    · rename_i hopen
      rw [h.count_eq] at hopen
      exact ⟨by omega, by simpa using fun hs => hopen (.inr (.inr hs))⟩
  · rintro ⟨hi, hs⟩
    rw [h.mark_eq hi hs]

theorem Fits.received_eq {s : ResumeState} {m : Manifest} {c : TransferChunks} (h : s.Fits m c) :
    s.received = ((List.range c.count).filter s.isSet).length := by
  rw [received, h.count_eq, Bitfield.countFrom_zero _ _ h.bits_bound, List.countP_eq_length_filter]
  congr 1
  apply List.filter_congr
  intro i hi
  simp [h.isSet_eq, List.mem_range.mp hi]

theorem Fits.complete_iff {s : ResumeState} {m : Manifest} {c : TransferChunks} (h : s.Fits m c) :
    s.isComplete c.count = true ↔ s.missingRanges c.count = [] := by
  constructor
  · intro hdone
    have hall := fun i hi => h.isSet_of_complete hdone (i := i) hi
    rw [List.eq_nil_iff_forall_not_mem]
    intro r hr
    obtain ⟨-, hlt, hle, hclear⟩ := missingFrom_inside hr
    have hfirst := hclear r.1 (Nat.le_refl _) hlt
    rw [hall r.1 (by omega)] at hfirst
    cases hfirst
  · intro hnil
    apply h.complete_of_isSet
    intro i hi
    exact missingFrom_nil hnil i (Nat.zero_le i) hi

end ResumeState

/-- Whatever bits a matching state came with and whatever was marked since, its views agree,
and no width or index is exceeded on the way to any of them. -/
theorem resume_views_agree {m : Manifest} {c : TransferChunks} {s : ResumeState}
    (hc : m.chunks = .ok c)
    (hs : s.matchesManifest m c.count = true) (marks : List UInt32) :
    let t := s.markAll marks
    (∀ i : UInt32, ((t.mark i.toNat).2 = true ↔ i.toNat < c.count ∧ t.isSet i.toNat = false) ∧
      ∀ j : UInt32, (t.mark i.toNat).1.isSet j.toNat = if j = i ∧
      (t.mark i.toNat).2 then true else t.isSet j.toNat) ∧
    t.received = ((List.range c.count).filter t.isSet).length ∧
    ((t.missingRanges c.count).Pairwise fun a b => a.2 < b.1) ∧
    (∀ r ∈ t.missingRanges c.count, r.1 < r.2 ∧ r.2 ≤ c.count ∧
      (r.1 = 0 ∨ t.isSet (r.1 - 1) = true) ∧
      (r.2 = c.count ∨ t.isSet r.2 = true)) ∧
    (∀ i, (∃ r ∈ t.missingRanges c.count, r.1 ≤ i ∧ i < r.2) ↔ i < c.count ∧ t.isSet i = false) ∧
    (t.isComplete c.count = true ↔ t.missingRanges c.count = []) ∧
    (∀ i : UInt32, t.isSetMachine i.toNat = some (t.isSet i.toNat) ∧
      t.markMachine i.toNat = some (t.mark i.toNat)) ∧
    t.receivedMachine = some t.received ∧ t.missingRangesMachine c.count =
      some (t.missingRanges c.count) := by
  intro t
  have ht : t.Fits m c := ((ResumeState.matchesManifest_iff hc).mp hs).markAll_fits marks
  refine ⟨fun i => ⟨ht.mark_new_iff i.toNat, fun j => ?_⟩, ht.received_eq, ?_, fun r hr => ?_,
    fun i => ResumeState.missingRanges_mem_iff, ht.complete_iff,
    fun i => ⟨ht.isSetMachine_eq _, ht.markMachine_eq _⟩, ht.receivedMachine_eq,
    ht.missingRangesMachine_eq c.count_lt⟩
  · rw [ht.mark_isSet, Bool.eq_iff_iff]
    have hnew := ht.mark_new_iff i.toNat
    by_cases hij : j = i
    · subst hij
      cases hset : t.isSet j.toNat with
      | true => simp
      | false =>
        rw [hset, eq_self, and_true] at hnew
        simp [hnew]
    · have hne : ¬ i.toNat = j.toNat := fun h => hij (UInt32.toNat_inj.mp h.symm)
      simp [hij, hne]
  · exact ResumeState.missingRanges_apart
  · obtain ⟨-, hlt, hle, -⟩ := ResumeState.missingFrom_inside hr
    obtain ⟨hleft, hright⟩ := ResumeState.missingFrom_maximal hr
    exact ⟨hlt, hle, hleft, hright⟩

def twoChunks : Manifest :=
  ⟨wireVersion, ⟨"a", by decide⟩, none, 100000, 65536, ⟨List.replicate 32 0, rfl⟩, 0, Ext.new⟩

def paddedState : ResumeState :=
  ⟨wireVersion, ⟨"a", by decide⟩, ⟨List.replicate 32 0, rfl⟩, 100000, 65536, [0xfe]⟩

theorem resume_views_agree_padded : ∃ c, twoChunks.chunks = .ok c ∧
    paddedState.received = ((List.range c.count).filter paddedState.isSet).length := by
  have hnew : twoChunks.chunks = .ok ⟨65536, 100000, by decide, by decide⟩ :=
    TransferChunks.new_of (by decide) (by decide)
  exact ⟨_, hnew, (resume_views_agree hnew (by decide) []).2.1⟩

end Zblob
