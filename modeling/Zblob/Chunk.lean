import Zblob.Basic

/-!
Transfer-chunk geometry. A chunk size is validated, never clamped, and the
chunk count has to fit the `u32` indices of the wire.
-/

set_option autoImplicit false

namespace Zblob

def groupSize : Nat := 16 * 1024
def minChunkSize : Nat := 64 * 1024
def maxChunkSize : Nat := 4 * 1024 * 1024
def u32Max : Nat := 4294967295

def divCeil (a b : Nat) : Nat := a / b + if a % b > 0 then 1 else 0

theorem le_divCeil_mul {a b : Nat} (hb : 0 < b) : a ≤ divCeil a b * b := by
  have h := Nat.div_add_mod a b
  have hm := Nat.mod_lt a hb
  rw [Nat.mul_comm] at h
  unfold divCeil
  split
  · rw [Nat.add_mul]; omega
  · rw [Nat.add_zero]; omega

theorem lt_divCeil_iff {a b i : Nat} (hb : 0 < b) : i < divCeil a b ↔ i * b < a := by
  have h := Nat.div_add_mod a b
  have hm := Nat.mod_lt a hb
  rw [Nat.mul_comm] at h
  have hlt : i * b < a / b * b + b → i ≤ a / b := by
    intro hi
    by_contra hc
    have hge : (a / b + 1) * b ≤ i * b := Nat.mul_le_mul_right b (by omega)
    rw [Nat.add_mul] at hge
    omega
  unfold divCeil
  constructor
  · intro hi
    split at hi
    · have hle : i * b ≤ a / b * b := Nat.mul_le_mul_right b (by omega)
      omega
    · have hle : (i + 1) * b ≤ a / b * b := Nat.mul_le_mul_right b (by omega)
      rw [Nat.add_mul] at hle
      omega
  · intro hi
    split
    · have := hlt (by omega); omega
    · have hle := hlt (by omega)
      by_contra hc
      have he : i = a / b := by omega
      rw [he] at hi
      omega

def SizeOk (chunkSize : UInt32) : Prop :=
  minChunkSize ≤ chunkSize.toNat ∧ chunkSize.toNat ≤ maxChunkSize ∧
    chunkSize.toNat % groupSize = 0

instance (chunkSize : UInt32) : Decidable (SizeOk chunkSize) :=
  inferInstanceAs (Decidable (_ ∧ _ ∧ _))

/-- `(chunk_size, total_len)` of one blob, with the two facts `new` checks. -/
structure TransferChunks where
  chunkSize : UInt32
  totalLen : UInt64
  sizeOk : SizeOk chunkSize
  countOk : divCeil totalLen.toNat chunkSize.toNat ≤ u32Max
  deriving DecidableEq

namespace TransferChunks

def validateChunkSize (chunkSize : UInt32) : Result Unit :=
  if ¬ (minChunkSize ≤ chunkSize.toNat ∧ chunkSize.toNat ≤ maxChunkSize) then
    .error (.invalidManifest
      (s!"chunk_size {chunkSize.toNat} outside [{minChunkSize}, {maxChunkSize}]"))
  else if chunkSize.toNat % groupSize ≠ 0 then
    .error (.invalidManifest
      (s!"chunk_size {chunkSize.toNat} is not a multiple of the {groupSize}-byte bao group"))
  else .ok ()

theorem validateChunkSize_ok {chunkSize : UInt32} (h : validateChunkSize chunkSize = .ok ()) :
    SizeOk chunkSize := by
  unfold validateChunkSize at h
  split at h
  · cases h
  · rename_i hr
    split at h
    · cases h
    · rename_i ha
      exact ⟨(not_not.mp hr).1, (not_not.mp hr).2, not_not.mp ha⟩

theorem validateChunkSize_of {chunkSize : UInt32} (h : SizeOk chunkSize) :
    validateChunkSize chunkSize = .ok () := by
  unfold validateChunkSize
  rw [if_neg (not_not.mpr ⟨h.1, h.2.1⟩), if_neg (not_not.mpr h.2.2)]

def new (chunkSize : UInt32) (totalLen : UInt64) : Result TransferChunks :=
  match hs : validateChunkSize chunkSize with
  | .error e => .error e
  | .ok () =>
    if hc : divCeil totalLen.toNat chunkSize.toNat ≤ u32Max then
      .ok ⟨chunkSize, totalLen, validateChunkSize_ok hs, hc⟩
    else
      .error (.invalidManifest
        (s!"total_len {totalLen.toNat} at chunk_size {chunkSize.toNat} needs more than " ++
          s!"{u32Max} chunks, which cannot be indexed"))

theorem new_ok {chunkSize : UInt32} {totalLen : UInt64} {c : TransferChunks}
    (h : new chunkSize totalLen = .ok c) : c.chunkSize = chunkSize ∧ c.totalLen = totalLen := by
  unfold new at h
  split at h
  · cases h
  · split at h
    · cases h; exact ⟨rfl, rfl⟩
    · cases h

theorem new_of {chunkSize : UInt32} {totalLen : UInt64} (hs : SizeOk chunkSize)
    (hc : divCeil totalLen.toNat chunkSize.toNat ≤ u32Max) :
    new chunkSize totalLen = .ok ⟨chunkSize, totalLen, hs, hc⟩ := by
  unfold new
  split
  · rename_i e he
    rw [validateChunkSize_of hs] at he
    cases he
  · rw [dif_pos hc]

theorem new_self (c : TransferChunks) : new c.chunkSize c.totalLen = .ok c :=
  new_of c.sizeOk c.countOk

def count (c : TransferChunks) : Nat :=
  divCeil c.totalLen.toNat c.chunkSize.toNat % 4294967296

def byteRange (c : TransferChunks) (index : Nat) : Nat × Nat :=
  let start := min (index * c.chunkSize.toNat) c.totalLen.toNat
  (start, min (start + c.chunkSize.toNat) c.totalLen.toNat)

def lenOf (c : TransferChunks) (index : Nat) : Nat :=
  let r := c.byteRange index
  r.2 - r.1

variable (c : TransferChunks)

theorem chunkSize_pos : 0 < c.chunkSize.toNat := by
  have h := c.sizeOk.1
  unfold minChunkSize at h
  omega

theorem count_eq : c.count = divCeil c.totalLen.toNat c.chunkSize.toNat := by
  have h := c.countOk
  unfold u32Max at h
  unfold count
  omega

theorem count_lt : c.count < 4294967296 := Nat.mod_lt _ (by decide)

theorem lt_count_iff {i : Nat} : i < c.count ↔ i * c.chunkSize.toNat < c.totalLen.toNat := by
  rw [count_eq]
  exact lt_divCeil_iff c.chunkSize_pos

theorem count_eq_zero_iff : c.count = 0 ↔ c.totalLen.toNat = 0 := by
  have h := c.lt_count_iff (i := 0)
  omega

theorem byteRange_fst {i : Nat} (hi : i < c.count) :
    (c.byteRange i).1 = i * c.chunkSize.toNat := by
  have h := c.lt_count_iff.mp hi
  simp only [byteRange]
  omega

theorem byteRange_snd {i : Nat} (hi : i < c.count) :
    (c.byteRange i).2 = min ((i + 1) * c.chunkSize.toNat) c.totalLen.toNat := by
  have h := c.lt_count_iff.mp hi
  simp only [byteRange, Nat.add_mul]
  omega

theorem byteRange_lt {i : Nat} (hi : i < c.count) : (c.byteRange i).1 < (c.byteRange i).2 := by
  have h := c.lt_count_iff.mp hi
  have hp := c.chunkSize_pos
  rw [c.byteRange_fst hi, c.byteRange_snd hi, Nat.add_mul]
  omega

theorem byteRange_le (i : Nat) : (c.byteRange i).2 ≤ c.totalLen.toNat := by
  simp only [byteRange]; omega

theorem byteRange_disjoint {i j : Nat} (hi : i < c.count) (hj : j < c.count) (hij : i ≠ j) :
    (c.byteRange i).2 ≤ (c.byteRange j).1 ∨ (c.byteRange j).2 ≤ (c.byteRange i).1 := by
  rw [c.byteRange_fst hi, c.byteRange_fst hj, c.byteRange_snd hi, c.byteRange_snd hj]
  rcases Nat.lt_or_gt_of_ne hij with h | h
  · have hm : (i + 1) * c.chunkSize.toNat ≤ j * c.chunkSize.toNat := Nat.mul_le_mul_right _ h
    omega
  · have hm : (j + 1) * c.chunkSize.toNat ≤ i * c.chunkSize.toNat := Nat.mul_le_mul_right _ h
    omega

theorem byteRange_succ {i : Nat} (hi : i + 1 < c.count) :
    (c.byteRange (i + 1)).1 = (c.byteRange i).2 := by
  have h := c.lt_count_iff.mp hi
  rw [c.byteRange_fst hi, c.byteRange_snd (by omega)]
  omega

theorem byteRange_last {i : Nat} (hi : i + 1 = c.count) : (c.byteRange i).2 = c.totalLen.toNat := by
  have h : ¬ i + 1 < c.count := by omega
  rw [c.lt_count_iff] at h
  rw [c.byteRange_snd (by omega)]
  omega

theorem byteRange_aligned {i : Nat} (hi : i < c.count) :
    (c.byteRange i).1 % groupSize = 0 ∧
      ((c.byteRange i).2 = c.totalLen.toNat ∨ (c.byteRange i).2 % groupSize = 0) := by
  have hs := c.sizeOk.2.2
  have hm (k : Nat) : k * c.chunkSize.toNat % groupSize = 0 := by
    rw [Nat.mul_mod, hs, Nat.mul_zero, Nat.zero_mod]
  rw [c.byteRange_fst hi, c.byteRange_snd hi]
  refine ⟨hm i, ?_⟩
  have hk := hm (i + 1)
  rcases Nat.le_total ((i + 1) * c.chunkSize.toNat) c.totalLen.toNat with h | h
  · exact .inr (by rw [Nat.min_eq_left h]; exact hk)
  · exact .inl (Nat.min_eq_right h)

end TransferChunks

def chunkRange (bytes : Nat × Nat) : Nat × Nat := (bytes.1 / 1024, divCeil bytes.2 1024)

end Zblob
