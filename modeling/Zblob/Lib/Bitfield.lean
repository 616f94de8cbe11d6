import Mathlib.Data.Nat.Bitwise
import Mathlib.Data.List.Count
import Mathlib.Data.List.Perm.Subperm
import Mathlib.Tactic.Common

/-!
Bit `i` of a byte list is bit `i % 8`, least significant first, of byte `i / 8`.
The word-level operations on bytes are tied to that reading once, here.
-/

set_option autoImplicit false

namespace Bitfield

def testBit (bs : List UInt8) (i : Nat) : Bool := (bs.getD (i / 8) 0).toNat.testBit (i % 8)

def setBit (bs : List UInt8) (i : Nat) : List UInt8 :=
  bs.modify (i / 8) (fun b => b ||| (1 <<< UInt8.ofNat (i % 8)))

def countOnes (b : UInt8) : Nat := (List.range 8).countP (fun k => b.toNat.testBit k)

def lowMask (valid : Nat) : UInt8 :=
  if valid ≥ 8 then 0xff else (1 <<< UInt8.ofNat valid) - 1

theorem bit_toNat {k : Nat} (hk : k < 8) : ((1 : UInt8) <<< UInt8.ofNat k).toNat = 2 ^ k := by
  have key : ∀ k < 8, ((1 : UInt8) <<< UInt8.ofNat k).toNat = 2 ^ k := by decide
  exact key k hk

theorem lowMask_toNat (v : Nat) : (lowMask v).toNat = 2 ^ (min v 8) - 1 := by
  by_cases hv : v ≥ 8
  · have hm : min v 8 = 8 := by omega
    rw [hm, lowMask, if_pos hv]
    decide
  · have key : ∀ v < 8, ((1 : UInt8) <<< UInt8.ofNat v - 1).toNat = 2 ^ v - 1 := by decide
    have hm : min v 8 = v := by omega
    rw [hm, lowMask, if_neg hv]
    exact key v (by omega)

theorem byte_testBit (b : UInt8) (k : Nat) (hk : k < 8) :
    ((b &&& (1 <<< UInt8.ofNat k)) != 0) = b.toNat.testBit k := by
  have hz : (b &&& (1 <<< UInt8.ofNat k)) = 0 ↔ b.toNat &&& 2 ^ k = 0 := by
    rw [← UInt8.toNat_inj, UInt8.toNat_and, bit_toNat hk]
    rfl
  rw [Nat.and_two_pow] at hz
  cases hb : b.toNat.testBit k with
  | false => simpa [hb] using hz
  | true => simpa [hb] using hz

theorem byte_setBit (b : UInt8) (k j : Nat) (hk : k < 8) :
    (b ||| (1 <<< UInt8.ofNat k)).toNat.testBit j = (b.toNat.testBit j || decide (k = j)) := by
  rw [UInt8.toNat_or, bit_toNat hk, Nat.testBit_or, Nat.testBit_two_pow]

theorem byte_lowMask (b : UInt8) (v j : Nat) (hj : j < 8) :
    (b &&& lowMask v).toNat.testBit j = (b.toNat.testBit j && decide (j < v)) := by
  rw [UInt8.toNat_and, lowMask_toNat, Nat.testBit_and, Nat.testBit_two_pow_sub_one]
  have hlt : j < min v 8 ↔ j < v := by omega
  simp [hlt]

@[simp] theorem setBit_length (bs : List UInt8) (i : Nat) :
    (setBit bs i).length = bs.length := by simp [setBit]

theorem testBit_setBit {bs : List UInt8} {i : Nat} (hi : i / 8 < bs.length) (j : Nat) :
    testBit (setBit bs i) j = (testBit bs j || decide (i = j)) := by
  unfold testBit setBit
  rw [List.getD_eq_getElem?_getD, List.getElem?_modify, List.getD_eq_getElem?_getD]
  by_cases hj : i / 8 = j / 8
  · obtain ⟨b, hb⟩ : ∃ b, bs[j / 8]? = some b := by
      rw [← hj]; exact ⟨_, List.getElem?_eq_getElem hi⟩
    simp only [if_pos hj, hb, Option.map_eq_map, Option.map_some, Option.getD_some]
    rw [byte_setBit b (i % 8) (j % 8) (by omega)]
    congr 1
    simp only [decide_eq_decide]
    omega
  · have hij : i ≠ j := by rintro rfl; exact hj rfl
    simp [if_neg hj, hij]

theorem testBit_replicate_zero (n i : Nat) : testBit (List.replicate n 0) i = false := by
  unfold testBit
  rw [List.getD_eq_getElem?_getD, List.getElem?_replicate]
  split <;> simp

/-- Bits below `limit`, counted byte by byte with the partial last byte masked;
`base` is the index of the first bit of the list. -/
def countFrom (limit base : Nat) : List UInt8 → Nat
  | [] => 0
  | b :: bs => countOnes (b &&& lowMask (min (limit - base) 8)) + countFrom limit (base + 8) bs

theorem countOnes_mask (b : UInt8) (limit base : Nat) :
    countOnes (b &&& lowMask (min (limit - base) 8)) =
      (List.range 8).countP (fun k => b.toNat.testBit k && decide (base + k < limit)) := by
  unfold countOnes
  apply List.countP_congr
  intro k hk
  have hk8 : k < 8 := List.mem_range.mp hk
  rw [byte_lowMask b _ k hk8]
  have hlt : (k < min (limit - base) 8) ↔ base + k < limit := by omega
  simp [hlt]

theorem countFrom_eq (limit base : Nat) (bs : List UInt8) :
    countFrom limit base bs =
      (List.range (8 * bs.length)).countP (fun k => testBit bs k && decide (base + k < limit)) := by
  induction bs generalizing base with
  | nil => simp [countFrom]
  | cons b bs ih =>
    have hsplit : 8 * (b :: bs).length = 8 + 8 * bs.length := by simp; omega
    have hhead : (List.range 8).countP (fun k => b.toNat.testBit k && decide (base + k < limit)) =
        (List.range 8).countP (fun k => testBit (b :: bs) k && decide (base + k < limit)) := by
      apply List.countP_congr
      intro k hk
      have hk8 : k < 8 := List.mem_range.mp hk
      have hd : k / 8 = 0 := by omega
      have hm : k % 8 = k := by omega
      simp [testBit, hd, hm]
    have htail : (List.range (8 * bs.length)).countP
          (fun k => testBit bs k && decide (base + 8 + k < limit)) =
        (List.range (8 * bs.length)).countP
          ((fun k => testBit (b :: bs) k && decide (base + k < limit)) ∘ fun x => 8 + x) := by
      apply List.countP_congr
      intro k _
      have hd : (8 + k) / 8 = k / 8 + 1 := by omega
      have hm : (8 + k) % 8 = k % 8 := by omega
      have hb : base + 8 + k = base + (8 + k) := by omega
      simp [testBit, hd, hm, hb]
    rw [hsplit, List.range_add, List.countP_append, List.countP_map, countFrom, countOnes_mask,
      ih, hhead, htail]

/-- The masked count is the number of set bits below the limit. -/
theorem countFrom_zero (limit : Nat) (bs : List UInt8) (h : limit ≤ 8 * bs.length) :
    countFrom limit 0 bs = (List.range limit).countP (testBit bs) := by
  rw [countFrom_eq]
  have hsplit : 8 * bs.length = limit + (8 * bs.length - limit) := by omega
  rw [hsplit, List.range_add, List.countP_append, List.countP_map]
  have h1 : (List.range limit).countP (fun k => testBit bs k && decide (0 + k < limit)) =
      (List.range limit).countP (testBit bs) := by
    apply List.countP_congr
    intro k hk
    have hk' := List.mem_range.mp hk
    simp [hk']
  have h2 : (List.range (8 * bs.length - limit)).countP
      ((fun k => testBit bs k && decide (0 + k < limit)) ∘ fun x => limit + x) = 0 := by
    rw [List.countP_eq_zero]
    intro k _
    simp
  rw [h1, h2, Nat.add_zero]

theorem testBit_past (bs : List UInt8) {i : Nat} (h : 8 * bs.length ≤ i) :
    testBit bs i = false := by
  unfold testBit
  rw [List.getD_eq_default _ _ (by omega)]
  simp

theorem testBit_append_zero (bs : List UInt8) (i : Nat) : testBit (bs ++ [0]) i = testBit bs i := by
  unfold testBit
  rw [List.getD_eq_getElem?_getD, List.getElem?_append, List.getD_eq_getElem?_getD]
  split
  · rfl
  · rename_i h
    rw [List.getElem?_eq_none (by omega : bs.length ≤ i / 8)]
    rcases Nat.eq_or_lt_of_le (by omega : bs.length ≤ i / 8) with heq | hlt
    · simp [← heq]
    · rw [List.getElem?_eq_none (by simp only [List.length_singleton]; omega)]

theorem testBit_ones (full rest i : Nat) (hrest : rest < 8) :
    testBit (List.replicate full 255 ++ if rest = 0 then [] else [lowMask rest]) i =
      decide (i < 8 * full + rest) := by
  have hmod : i % 8 < 8 := Nat.mod_lt i (by decide)
  have hones : ∀ k < 8, (255 : UInt8).toNat.testBit k = true := by decide
  unfold testBit
  rw [List.getD_eq_getElem?_getD, List.getElem?_append, List.length_replicate]
  split
  · rename_i h
    rw [List.getElem?_replicate, if_pos h, Option.getD_some, hones _ hmod]
    simp only [true_eq_decide_iff]
    omega
  · rename_i h
    by_cases hzero : rest = 0
    · simp only [hzero, if_true, List.getElem?_nil, Option.getD_none, Nat.add_zero]
      simp only [UInt8.toNat_zero, Nat.zero_testBit, false_eq_decide_iff]
      omega
    · rw [if_neg hzero]
      rcases Nat.eq_or_lt_of_le (by omega : full ≤ i / 8) with heq | hlt
      · rw [← heq, Nat.sub_self, List.getElem?_cons_zero, Option.getD_some, lowMask_toNat,
          Nat.testBit_two_pow_sub_one, decide_eq_decide]
        omega
      · rw [List.getElem?_eq_none (by simp only [List.length_singleton]; omega)]
        simp only [Option.getD_none, UInt8.toNat_zero, Nat.zero_testBit, false_eq_decide_iff]
        omega

theorem countFrom_any (limit : Nat) (bs : List UInt8) :
    countFrom limit 0 bs = (List.range limit).countP (testBit bs) := by
  rcases Nat.le_total limit (8 * bs.length) with h | h
  · exact countFrom_zero limit bs h
  · have hsplit : limit = 8 * bs.length + (limit - 8 * bs.length) := by omega
    have hpast : (List.range (limit - 8 * bs.length)).countP
        (testBit bs ∘ fun x => 8 * bs.length + x) = 0 := by
      rw [List.countP_eq_zero]
      intro k _
      simp [testBit_past bs (show 8 * bs.length ≤ 8 * bs.length + k by omega)]
    rw [countFrom_eq, hsplit, List.range_add, List.countP_append,
      List.countP_map, hpast, Nat.add_zero]
    apply List.countP_congr
    intro k hk
    have hk' := List.mem_range.mp hk
    have hlt : k < 8 * bs.length + (limit - 8 * bs.length) := by omega
    simpa using fun _ => hlt

theorem countOnes_mask_zero (b : UInt8) : countOnes (b &&& lowMask 0) = 0 := by
  have h := countOnes_mask b 0 0
  simpa using h

theorem and_lowMask_full (b : UInt8) {v : Nat} (hv : 8 ≤ v) :
    countOnes (b &&& lowMask v) = countOnes b := by
  unfold countOnes
  apply List.countP_congr
  intro k hk
  have hk8 : k < 8 := List.mem_range.mp hk
  have hkv : k < v := by omega
  rw [byte_lowMask b v k hk8]
  simp [hkv]

/-- The same count, taken over the whole bytes first and the partial one after them. -/
theorem countFrom_take (limit base : Nat) (bs : List UInt8) :
    countFrom limit base bs = ((bs.take ((limit - base) / 8)).map countOnes).sum +
      (bs[(limit - base) / 8]?.map fun b => countOnes (b &&& lowMask ((limit - base) % 8))).getD
        0 := by
  induction bs generalizing base with
  | nil => simp [countFrom]
  | cons b bs ih =>
    rw [countFrom, ih]
    by_cases h : 8 ≤ limit - base
    · have hq : (limit - base) / 8 = (limit - (base + 8)) / 8 + 1 := by omega
      have hr : (limit - base) % 8 = (limit - (base + 8)) % 8 := by omega
      rw [hq, hr, and_lowMask_full b (by omega)]
      simp [Nat.add_assoc]
    · have hq : (limit - base) / 8 = 0 := by omega
      have hq' : (limit - (base + 8)) / 8 = 0 := by omega
      have hr : (limit - base) % 8 = min (limit - base) 8 := by omega
      have hr' : (limit - (base + 8)) % 8 = 0 := by omega
      have hrest : (bs[0]?.map fun b => countOnes (b &&& lowMask 0)).getD 0 = 0 := by
        cases bs <;> simp [countOnes_mask_zero]
      rw [hq, hq', hr, hr', hrest]
      simp

theorem countFrom_le (limit : Nat) (bs : List UInt8) : countFrom limit 0 bs ≤ limit := by
  rw [countFrom_eq]
  have hsub : (List.range (8 * bs.length)).countP
      (fun k => testBit bs k && decide (0 + k < limit)) ≤
      (List.range (8 * bs.length)).countP (fun k => decide (k < limit)) := by
    apply List.countP_mono_left
    intro k _ hk
    simpa using (Bool.and_eq_true_iff.mp hk).2
  refine Nat.le_trans hsub ?_
  rw [List.countP_eq_length_filter]
  have hnd : ((List.range (8 * bs.length)).filter (fun k => decide (k < limit))).Nodup :=
    List.nodup_range.filter _
  have hss : ((List.range (8 * bs.length)).filter (fun k => decide (k < limit))) ⊆ List.range
      limit := by
    intro k hk
    have := (List.mem_filter.mp hk).2
    simpa using this
  simpa using (hnd.subperm hss).length_le

theorem all_of_le_countFrom {limit : Nat} {bs : List UInt8} (hlen : limit ≤ 8 * bs.length)
    (h : limit ≤ countFrom limit 0 bs) {i : Nat} (hi : i < limit) : testBit bs i = true := by
  rw [countFrom_zero limit bs hlen] at h
  have hfull : (List.range limit).countP (testBit bs) = (List.range limit).length := by
    have hle := List.countP_le_length (p := testBit bs) (l := List.range limit)
    simp only [List.length_range] at hle ⊢
    omega
  exact List.countP_eq_length.mp hfull i (List.mem_range.mpr hi)

end Bitfield
