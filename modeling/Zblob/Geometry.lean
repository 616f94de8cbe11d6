import Zblob.Verify
import Zblob.Lib.Machine

/-!
The geometry of a blob in its three units, computed once more in machine arithmetic: the
chunks tile the blob, and their bao chunk ranges tile its bao chunks.
-/

set_option autoImplicit false

namespace Zblob

/-- Ranges that cover an interval hold its points and no others. -/
theorem Covers.mem_iff {a b : Nat} {rs : List (Nat × Nat)} (h : Covers a rs b)
    (hord : ∀ r ∈ rs, r.1 ≤ r.2) (k : Nat) :
    (a ≤ k ∧ k < b) ↔ ∃ r ∈ rs, r.1 ≤ k ∧ k < r.2 := by
  induction rs generalizing a with
  | nil =>
    simp only [Covers] at h
    simp only [List.not_mem_nil, false_and, exists_false, iff_false]
    omega
  | cons r rs ih =>
    obtain ⟨rfl, hrest⟩ := h
    have hrs := fun x hx => hord x (List.mem_cons_of_mem r hx)
    have hr := hord r List.mem_cons_self
    have hend := (flatMap_window [] rs r.2 b hrest hrs).2
    simp only [List.exists_mem_cons_iff, ← ih hrest hrs]
    omega

theorem ranges_ordered {f : Nat → Nat × Nat} {n : Nat}
    (hnext : ∀ i, i + 1 < n → (f (i + 1)).1 = (f i).2)
    (hord : ∀ i, i < n → (f i).1 ≤ (f i).2) {i j : Nat} (hij : i < j) (hj : j < n) :
    (f i).2 ≤ (f j).1 := by
  induction j with
  | zero => omega
  | succ j ih =>
    rw [hnext j hj]
    rcases Nat.lt_succ_iff_lt_or_eq.mp hij with h | h
    · have hprev := ih h (by omega)
      have hstep := hord j (by omega)
      omega
    · rw [h]

namespace TransferChunks

def neededMachine (chunkSize : UInt32) (totalLen : UInt64) : Option Nat :=
  Machine.divCeil 64 totalLen.toNat chunkSize.toNat

theorem neededMachine_eq {chunkSize : UInt32} (hs : SizeOk chunkSize) (totalLen : UInt64) :
    neededMachine chunkSize totalLen = some (Zblob.divCeil totalLen.toNat chunkSize.toNat) := by
  have hmin := hs.1
  unfold minChunkSize at hmin
  have hlen := totalLen.toNat_lt
  have hdiv : totalLen.toNat / chunkSize.toNat ≤ totalLen.toNat / 2 :=
    Nat.div_le_div_left (by omega) (by decide)
  exact Machine.divCeil_eq (by omega) (by omega)

variable (c : TransferChunks)

def countMachine : Option Nat := do
  let count ← neededMachine c.chunkSize c.totalLen
  Machine.fit 32 count

def byteRangeMachine (index : Nat) : Option (Nat × Nat) := do
  let product ← Machine.mul 64 index c.chunkSize.toNat
  let start := min product c.totalLen.toNat
  let stop ← Machine.add 64 start c.chunkSize.toNat
  some (start, min stop c.totalLen.toNat)

def lenOfMachine (index : Nat) : Option Nat := do
  let r ← c.byteRangeMachine index
  let len ← Machine.sub r.2 r.1
  Machine.fit 32 len

theorem chunkSize_le : c.chunkSize.toNat ≤ 4194304 := c.sizeOk.2.1

theorem totalLen_le : c.totalLen.toNat ≤ 4294967295 * 4194304 := by
  have hceil := le_divCeil_mul (a := c.totalLen.toNat) c.chunkSize_pos
  have hprod := Nat.mul_le_mul c.countOk c.chunkSize_le
  unfold u32Max at hprod
  omega

theorem countMachine_eq : c.countMachine = some c.count := by
  have hfit := c.countOk
  unfold u32Max at hfit
  simp only [countMachine, neededMachine_eq c.sizeOk, Option.bind_eq_bind,
    Option.bind_some, c.count_eq]
  exact Machine.fit_eq (by omega)

theorem byteRangeMachine_eq {i : Nat} (hi : i ≤ u32Max) :
    c.byteRangeMachine i = some (c.byteRange i) := by
  have hprod := Nat.mul_le_mul hi c.chunkSize_le
  unfold u32Max at hprod
  have hsize := c.chunkSize_le
  have hlen := c.totalLen_le
  simp only [byteRangeMachine, Machine.mul_eq (show i * c.chunkSize.toNat < 2 ^ 64 by omega),
    Option.bind_eq_bind,
    Option.bind_some]
  rw [Machine.add_eq (by omega)]
  rfl

theorem lenOf_le (i : Nat) : c.lenOf i ≤ c.chunkSize.toNat := by
  simp only [lenOf, byteRange]
  omega

theorem lenOfMachine_eq {i : Nat} (hi : i ≤ u32Max) : c.lenOfMachine i = some (c.lenOf i) := by
  have hle := c.lenOf_le i
  have hsize := c.chunkSize_le
  have hord : (c.byteRange i).1 ≤ (c.byteRange i).2 := by simp only [byteRange]; omega
  simp only [lenOfMachine, c.byteRangeMachine_eq hi, Option.bind_eq_bind,
    Option.bind_some, Machine.sub_eq hord]
  exact Machine.fit_eq (Nat.lt_of_le_of_lt hle (by omega))

theorem count_le_iff {n : Nat} : c.count ≤ n ↔ c.totalLen.toNat ≤ n * c.chunkSize.toNat := by
  have h := c.lt_count_iff (i := n)
  omega

theorem byteRange_past {i : Nat} (hi : c.count ≤ i) :
    c.byteRange i = (c.totalLen.toNat, c.totalLen.toNat) := by
  have h := c.count_le_iff.mp hi
  simp only [byteRange, Nat.min_eq_right h, Prod.mk.injEq, true_and]
  omega

theorem byteRange_zero : (c.byteRange 0).1 = 0 := by
  simp only [byteRange]
  omega

theorem byteRanges_tile : Covers 0 ((List.range c.count).map c.byteRange) c.totalLen.toNat := by
  rw [List.range_eq_range']
  rcases Nat.eq_zero_or_pos c.count with h | h
  · have hempty := c.count_eq_zero_iff.mp h
    rw [h, hempty]
    rfl
  · have hcov := covers_chunks c 0 h
    rwa [c.byteRange_zero] at hcov

theorem byteRange_snd_group {i : Nat} (hi : i + 1 < c.count) :
    (c.byteRange i).2 % groupSize = 0 := by
  have h := (c.byteRange_aligned hi).1
  rwa [c.byteRange_succ hi] at h

theorem chunkRange_fst_group {i : Nat} (hi : i < c.count) :
    (chunkRange (c.byteRange i)).1 % 16 = 0 := by
  have h := (c.byteRange_aligned hi).1
  unfold groupSize at h
  simp only [chunkRange]
  omega

theorem chunkRange_next {i : Nat} (hi : i + 1 < c.count) :
    (chunkRange (c.byteRange (i + 1))).1 = (chunkRange (c.byteRange i)).2 := by
  have h := c.byteRange_snd_group hi
  unfold groupSize at h
  simp only [chunkRange, c.byteRange_succ hi, Zblob.divCeil]
  split <;> omega

theorem chunkRange_lt {i : Nat} (hi : i < c.count) :
    (chunkRange (c.byteRange i)).1 < (chunkRange (c.byteRange i)).2 := by
  have hlt := c.byteRange_lt hi
  rw [chunkRange, lt_divCeil_iff (by decide)]
  omega

theorem chunkRanges_tile :
    Covers 0 ((List.range c.count).map fun i => chunkRange (c.byteRange i))
      (Zblob.divCeil c.totalLen.toNat 1024) := by
  rw [List.range_eq_range']
  rcases Nat.eq_zero_or_pos c.count with h | h
  · have hempty := c.count_eq_zero_iff.mp h
    rw [h, hempty]
    rfl
  · have hcov :=
      covers_range' (f := fun i => chunkRange (c.byteRange i)) (fun i => c.chunkRange_next)
      (fun i hi => congrArg (Zblob.divCeil · 1024) (c.byteRange_last hi)) 0 h
    simpa only [chunkRange, c.byteRange_zero, Nat.zero_div, Nat.sub_zero] using hcov

end TransferChunks

/-- A geometry that `new` accepts is exact in bytes, in chunks and in bao chunks, and no step
of its arithmetic leaves `u64` or `u32`. -/
theorem chunk_geometry {chunkSize : UInt32} {totalLen : UInt64} {c : TransferChunks}
    (h : TransferChunks.new chunkSize totalLen = .ok c) :
    -- the count is the ceiling of the quotient
    (∀ n, c.count ≤ n ↔ totalLen.toNat ≤ n * chunkSize.toNat) ∧ (c.count = 0 ↔ totalLen = 0) ∧
    -- the byte ranges tile the blob
    (∀ i < c.count, (c.byteRange i).1 < (c.byteRange i).2) ∧
    Covers 0 ((List.range c.count).map c.byteRange) totalLen.toNat ∧
    (∀ k, k < totalLen.toNat ↔ ∃ i < c.count, (c.byteRange i).1 ≤ k ∧ k < (c.byteRange i).2) ∧
    (∀ i ≤ u32Max, (c.byteRange i).1 + c.lenOf i = (c.byteRange i).2 ∧
      c.lenOf i ≤ chunkSize.toNat) ∧
    (∀ i, c.count ≤ i → i ≤ u32Max → (c.byteRange i).1 = (c.byteRange i).2) ∧
    -- nothing overflows
    TransferChunks.neededMachine chunkSize totalLen = some
      (divCeil totalLen.toNat chunkSize.toNat) ∧
    c.countMachine = some c.count ∧
    (∀ i ≤ u32Max, c.byteRangeMachine i = some (c.byteRange i) ∧
      c.lenOfMachine i = some (c.lenOf i)) ∧
    -- the bao chunk ranges tile the bao chunks
    (∀ i < c.count, (chunkRange (c.byteRange i)).1 % 16 = 0) ∧
    (∀ i j, i < j → j < c.count → (chunkRange (c.byteRange i)).2 ≤ (chunkRange (c.byteRange j)).1) ∧
    Covers 0 ((List.range c.count).map fun i => chunkRange (c.byteRange i))
      (divCeil totalLen.toNat 1024) ∧
    (∀ k, k < divCeil totalLen.toNat 1024 ↔
      ∃ i < c.count, (chunkRange (c.byteRange i)).1 ≤ k ∧ k < (chunkRange (c.byteRange i)).2) := by
  obtain ⟨rfl, rfl⟩ := TransferChunks.new_ok h
  have hzero : c.totalLen = 0 ↔ c.totalLen.toNat = 0 := by
    rw [← UInt64.toNat_inj]
    rfl
  have hbytes := c.byteRanges_tile.mem_iff fun r hr => by
    obtain ⟨i, hi, rfl⟩ := List.mem_map.mp hr
    exact Nat.le_of_lt (c.byteRange_lt (List.mem_range.mp hi))
  have hbao := c.chunkRanges_tile.mem_iff fun r hr => by
    obtain ⟨i, hi, rfl⟩ := List.mem_map.mp hr
    exact Nat.le_of_lt (c.chunkRange_lt (List.mem_range.mp hi))
  simp only [Nat.zero_le, true_and, List.mem_map, List.mem_range,
    exists_exists_and_eq_and] at hbytes hbao
  refine ⟨fun n => c.count_le_iff,
    by rw [hzero]; exact c.count_eq_zero_iff, fun i => c.byteRange_lt, c.byteRanges_tile,
    hbytes, fun i _ => ⟨?_, c.lenOf_le i⟩, fun i hi _ => by rw [c.byteRange_past hi],
    TransferChunks.neededMachine_eq c.sizeOk _, c.countMachine_eq,
    fun i hi => ⟨c.byteRangeMachine_eq hi, c.lenOfMachine_eq hi⟩, fun i => c.chunkRange_fst_group,
    fun i j hij hj => ?_, c.chunkRanges_tile, hbao⟩
  · simp only [TransferChunks.lenOf, TransferChunks.byteRange]
    omega
  · exact ranges_ordered (f := fun i => chunkRange (c.byteRange i)) (fun i => c.chunkRange_next)
      (fun i hi => Nat.le_of_lt (c.chunkRange_lt hi)) hij hj

/-- A blob of a hundred thousand bytes in two chunks. -/
theorem chunk_geometry_two : ∃ c, TransferChunks.new 65536 100000 = .ok c ∧ c.totalLen = 100000 ∧
    Covers 0 ((List.range c.count).map c.byteRange) 100000 := by
  have hnew : TransferChunks.new 65536 100000 = .ok ⟨65536, 100000, by decide, by decide⟩ :=
    TransferChunks.new_of (by decide) (by decide)
  exact ⟨_, hnew, rfl, (chunk_geometry hnew).2.2.2.1⟩

end Zblob
