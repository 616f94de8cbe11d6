import Zblob.Manifest
import Zblob.Lib.Bitfield

/-!
The resume bitfield of an interrupted transfer. Bit `i` is byte `i / 8`,
least significant first; the padding bits of the last byte never count.
-/

set_option autoImplicit false

namespace Zblob

structure ResumeState where
  version : UInt16
  id : BlobId
  root : Hash
  totalLen : UInt64
  chunkSize : UInt32
  bits : Bytes
  deriving DecidableEq

namespace ResumeState

def fresh (m : Manifest) (chunkCount : Nat) : ResumeState where
  version := wireVersion
  id := m.id
  root := m.root
  totalLen := m.totalLen
  chunkSize := m.chunkSize
  bits := List.replicate (divCeil chunkCount 8) 0

def matchesManifest (s : ResumeState) (m : Manifest) (chunkCount : Nat) : Bool :=
  s.version == wireVersion && s.id == m.id && s.root == m.root && s.totalLen == m.totalLen &&
    s.chunkSize == m.chunkSize && s.bits.length == divCeil chunkCount 8

/-- The count the recorded geometry gives, truncated to `u32` as the code does. -/
def chunkCount (s : ResumeState) : Nat :=
  if s.chunkSize = 0 then 0
  else divCeil s.totalLen.toNat s.chunkSize.toNat % 4294967296

def isSet (s : ResumeState) (i : Nat) : Bool :=
  decide (i < s.chunkCount) && decide (i / 8 < s.bits.length % 4294967296) &&
    ((s.bits.getD (i / 8) 0 &&& (1 <<< UInt8.ofNat (i % 8))) != 0)

def mark (s : ResumeState) (i : Nat) : ResumeState × Bool :=
  if i ≥ s.chunkCount ∨ i / 8 ≥ s.bits.length % 4294967296 ∨ s.isSet i = true then (s, false)
  else ({ s with bits := Bitfield.setBit s.bits i }, true)

def received (s : ResumeState) : Nat := Bitfield.countFrom s.chunkCount 0 s.bits

def isComplete (s : ResumeState) (chunkCount : Nat) : Bool := decide (s.received ≥ chunkCount)

def runEnd (s : ResumeState) (chunkCount : Nat) (i : Nat) : Nat :=
  if h : i < chunkCount ∧ s.isSet i = false then s.runEnd chunkCount (i + 1) else i
termination_by chunkCount - i

theorem le_runEnd (s : ResumeState) (chunkCount i : Nat) : i ≤ s.runEnd chunkCount i := by
  unfold runEnd
  split
  · have := le_runEnd s chunkCount (i + 1); omega
  · exact Nat.le_refl i
termination_by chunkCount - i

def missingFrom (s : ResumeState) (chunkCount : Nat) (i : Nat) : List (Nat × Nat) :=
  if h : i < chunkCount then
    if hs : s.isSet i = true then s.missingFrom chunkCount (i + 1)
    else
      have : i < s.runEnd chunkCount i := by
        unfold runEnd
        rw [dif_pos ⟨h, by simpa using hs⟩]
        have := le_runEnd s chunkCount (i + 1)
        omega
      (i, s.runEnd chunkCount i) :: s.missingFrom chunkCount (s.runEnd chunkCount i)
  else []
termination_by chunkCount - i

def missingRanges (s : ResumeState) (chunkCount : Nat) : List (Nat × Nat) :=
  s.missingFrom chunkCount 0

/-- What `matches` establishes, together with a geometry that exists. -/
structure Fits (s : ResumeState) (m : Manifest) (c : TransferChunks) : Prop where
  version : s.version = wireVersion
  id : s.id = m.id
  root : s.root = m.root
  totalLen : s.totalLen = m.totalLen
  chunkSize : s.chunkSize = m.chunkSize
  bitsLen : s.bits.length = divCeil c.count 8
  geometry : m.chunks = .ok c

theorem matchesManifest_iff {s : ResumeState} {m : Manifest} {c : TransferChunks}
    (hc : m.chunks = .ok c) :
    s.matchesManifest m c.count = true ↔ s.Fits m c := by
  constructor
  · intro h
    simp only [matchesManifest, Bool.and_eq_true, beq_iff_eq] at h
    obtain ⟨⟨⟨⟨⟨h1, h2⟩, h3⟩, h4⟩, h5⟩, h6⟩ := h
    exact ⟨h1, h2, h3, h4, h5, h6, hc⟩
  · intro h
    simp [matchesManifest, h.version, h.id, h.root, h.totalLen, h.chunkSize, h.bitsLen]

theorem fresh_fits {m : Manifest} {c : TransferChunks} (hc : m.chunks = .ok c) :
    (fresh m c.count).Fits m c := ⟨rfl, rfl, rfl, rfl, rfl, by simp [fresh], hc⟩

section Fitting

variable {s : ResumeState} {m : Manifest} {c : TransferChunks}

theorem Fits.count_eq (h : s.Fits m c) : s.chunkCount = c.count := by
  obtain ⟨hs, hl⟩ := Manifest.chunks_ok h.geometry
  have hp := c.chunkSize_pos
  have hne : s.chunkSize ≠ 0 := by
    intro hz
    rw [hs, ← h.chunkSize, hz] at hp
    exact absurd hp (by decide)
  rw [chunkCount, if_neg hne, TransferChunks.count, h.totalLen, h.chunkSize, hs, hl]

theorem Fits.bits_bound (h : s.Fits m c) : c.count ≤ 8 * s.bits.length := by
  rw [h.bitsLen, Nat.mul_comm]
  exact le_divCeil_mul (by decide)

theorem Fits.bits_small (h : s.Fits m c) : s.bits.length % 4294967296 = s.bits.length := by
  have hc := c.count_lt
  rw [h.bitsLen]
  apply Nat.mod_eq_of_lt
  unfold divCeil
  split <;> omega

theorem Fits.isSet_eq (h : s.Fits m c) (i : Nat) :
    s.isSet i = (decide (i < c.count) && Bitfield.testBit s.bits i) := by
  have hb := h.bits_bound
  simp only [isSet, h.count_eq, h.bits_small, Bitfield.byte_testBit _ _
    (Nat.mod_lt i (by decide : 0 < 8)),
    Bitfield.testBit]
  by_cases hi : i < c.count
  · have hd : i / 8 < s.bits.length := by omega
    simp [hi, hd]
  · simp [hi]

theorem Fits.isSet_lt (h : s.Fits m c) {i : Nat} (hi : s.isSet i = true) : i < c.count := by
  rw [h.isSet_eq, Bool.and_eq_true] at hi
  simpa using hi.1

theorem fresh_isSet (hc : m.chunks = .ok c) (i : Nat) : (fresh m c.count).isSet i = false := by
  rw [(fresh_fits hc).isSet_eq]
  simp [fresh, Bitfield.testBit_replicate_zero]

theorem Fits.mark_eq (h : s.Fits m c) {i : Nat} (hi : i < c.count) (hs : s.isSet i = false) :
    s.mark i = ({ s with bits := Bitfield.setBit s.bits i }, true) := by
  have hb := h.bits_bound
  have hd : i / 8 < s.bits.length := by omega
  unfold mark
  rw [if_neg]
  rw [h.count_eq, h.bits_small, hs]
  simp only [Bool.false_eq_true, or_false, not_or]
  omega

theorem Fits.mark_fits (h : s.Fits m c) (i : Nat) : (s.mark i).1.Fits m c := by
  unfold mark
  split
  · exact h
  · exact ⟨h.version, h.id, h.root, h.totalLen, h.chunkSize, by simpa using h.bitsLen, h.geometry⟩

theorem Fits.mark_isSet (h : s.Fits m c) (i j : Nat) :
    (s.mark i).1.isSet j = (s.isSet j || (decide (i = j) && decide (i < c.count))) := by
  by_cases hi : i < c.count
  · cases hs : s.isSet i with
    | true =>
      have hm : s.mark i = (s, false) := by
        unfold mark; rw [if_pos (Or.inr (Or.inr hs))]
      rw [hm]
      by_cases hij : i = j
      · subst hij; simp [hs]
      · simp [hij]
    | false =>
      have hf := h.mark_fits i
      have hb := h.bits_bound
      rw [hf.isSet_eq, h.isSet_eq, h.mark_eq hi hs]
      simp only
      rw [Bitfield.testBit_setBit (by omega)]
      by_cases hij : i = j
      · subst hij; simp [hi]
      · simp [hij]
  · have hm : s.mark i = (s, false) := by
      unfold mark
      rw [if_pos (Or.inl (by rw [h.count_eq]; omega))]
    simp [hm, hi]

theorem Fits.received_le (h : s.Fits m c) : s.received ≤ c.count := by
  unfold received
  rw [h.count_eq]
  exact Bitfield.countFrom_le _ _

theorem Fits.isSet_of_complete (h : s.Fits m c) (hc : s.isComplete c.count = true) {i : Nat}
    (hi : i < c.count) : s.isSet i = true := by
  have hge : c.count ≤ Bitfield.countFrom c.count 0 s.bits := by
    have := of_decide_eq_true hc
    rwa [received, h.count_eq] at this
  rw [h.isSet_eq, Bitfield.all_of_le_countFrom h.bits_bound hge hi]
  simpa using hi

/-- A sidecar belongs to one root, length and geometry. -/
theorem Fits.unique {m' : Manifest} {c' : TransferChunks} (h : s.Fits m c)
    (h' : s.Fits m' c') : m'.geometry = m.geometry ∧ c' = c := by
  have hg : m'.geometry = m.geometry := by
    simp only [Manifest.geometry, ← h.root, ← h'.root, ← h.totalLen, ← h'.totalLen, ← h.chunkSize,
      ← h'.chunkSize]
  have hch : m'.chunks = m.chunks := by
    simp only [Manifest.chunks, ← h.totalLen, ← h'.totalLen, ← h.chunkSize, ← h'.chunkSize]
  refine ⟨hg, ?_⟩
  have hc := h'.geometry
  rw [hch, h.geometry] at hc
  exact (Except.ok.inj hc).symm

end Fitting

theorem missingFrom_nil {s : ResumeState} {n i : Nat} (h : s.missingFrom n i = []) :
    ∀ j, i ≤ j → j < n → s.isSet j = true := by
  unfold missingFrom at h
  split at h
  · rename_i hi
    split at h
    · rename_i hs
      intro j hij hj
      rcases Nat.eq_or_lt_of_le hij with rfl | hlt
      · exact hs
      · exact missingFrom_nil h j hlt hj
    · cases h
  · intro j hij hj
    omega
termination_by n - i

end ResumeState

end Zblob
