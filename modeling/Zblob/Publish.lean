import Mathlib.Data.List.Chain
import Zblob.Routing

/-!
The read-back after a publish: which keys it probes, how far apart the sampled chunks are, and
what an answer to a probe is.
-/

set_option autoImplicit false

namespace Zblob

inductive SettleCoverage where
  | sample (k : Nat)
  | all
  deriving DecidableEq

def SettleCoverage.default : SettleCoverage := .sample 8

def stepBy (n step : Nat) : List Nat := List.range' 0 (divCeil n step) step

def sampleIndices (n : Nat) (coverage : SettleCoverage) : Option (List Nat) :=
  if n = 0 then none
  else
    match coverage with
    | .all => some (List.range n)
    | .sample k =>
      let k := max k 1
      let step := max (n / k) 1
      let picked := (stepBy n step).take k
      -- the last chunk takes the place of the last pick, or comes after fewer picks
      if picked.getLast? ≠ some (n - 1) then
        some ((if picked.length ≥ k then picked.dropLast else picked) ++ [n - 1])
      else some picked

/-- The picks spread over `n` chunks: from the first to the last, at most `k` of them, and no two
that follow each other more than two parts of `k` equal ones apart. -/
structure SpreadOut (n k : Nat) (picked : List Nat) : Prop where
  ascending : picked.Pairwise (· < ·)
  below : ∀ i ∈ picked, i < n
  bounded : picked.length ≤ k
  first : 0 ∈ picked
  last : n - 1 ∈ picked
  dense : picked.IsChain fun i j => j ≤ i + 2 * divCeil n k

section Sample

variable {n k : Nat}

theorem stepBy_one (n : Nat) : stepBy n 1 = List.range' 0 n := by
  rw [stepBy, divCeil, Nat.div_one, Nat.mod_one]
  rfl

theorem take_stepBy {step : Nat} (hstep : 0 < step) (hk : 0 < k) (h : (k - 1) * step < n) :
    (stepBy n step).take k = List.range' 0 k step := by
  have := (lt_divCeil_iff hstep).mpr h
  exact List.take_range'_of_length_ge (by omega)

theorem range'_last (step : Nat) (hk : 0 < k) :
    List.range' 0 k step = List.range' 0 (k - 1) step ++ [step * (k - 1)] := by
  obtain ⟨m, rfl⟩ := Nat.exists_eq_add_of_lt hk
  rw [Nat.zero_add, Nat.add_sub_cancel, List.range'_concat, Nat.zero_add]

def strides (n k : Nat) : Nat := min n (max k 1) - 1

def stride (n k : Nat) : Nat := max (n / max k 1) 1

/-- The picks: multiples of the stride from 0 on, and the last chunk. -/
theorem sampleIndices_sample (hn : 0 < n) (k : Nat) :
    sampleIndices n (.sample k) = some (List.range' 0 (strides n k) (stride n k) ++ [n - 1]) := by
  have hk : 0 < max k 1 := by omega
  simp only [sampleIndices, if_neg (Nat.ne_of_gt hn), strides, stride]
  generalize max k 1 = k at hk
  by_cases hle : n ≤ k
  · have hstep : max (n / k) 1 = 1 := by
      have : n / k ≤ 1 := Nat.div_le_of_le_mul (by omega)
      omega
    have htaken : (stepBy n 1).take k = List.range' 0 n := by
      rw [stepBy_one, List.take_range'_of_length_le hle]
    rw [hstep, htaken, Nat.min_eq_left hle, range'_last 1 hn, Nat.one_mul, List.getLast?_concat]
    simp
  · have hstep : 0 < n / k := Nat.div_pos (by omega) hk
    have hmul : (k - 1) * (n / k) < n := by
      have h1 := Nat.div_mul_le_self n k
      have h2 : (k - 1) * (n / k) + n / k = n / k * k := by
        rw [← Nat.succ_mul, Nat.succ_eq_add_one, Nat.sub_add_cancel hk, Nat.mul_comm]
      omega
    rw [Nat.max_eq_left hstep, take_stepBy hstep hk hmul, Nat.min_eq_right (by omega)]
    by_cases hlast : (List.range' 0 k (n / k)).getLast? = some (n - 1)
    · rw [if_neg (not_not.mpr hlast), range'_last _ hk]
      rw [range'_last _ hk, List.getLast?_concat] at hlast
      rw [Option.some.inj hlast]
    · rw [if_pos hlast, if_pos (by simp), range'_last _ hk, List.dropLast_concat]

theorem strides_lt (hn : 0 < n) {i : Nat} (hi : i < strides n k) : stride n k * i < n - 1 := by
  unfold strides at hi
  unfold stride
  have hk : 0 < max k 1 := by omega
  generalize max k 1 = k at hi hk
  by_cases hle : n ≤ k
  · have : n / k ≤ 1 := Nat.div_le_of_le_mul (by omega)
    rw [Nat.max_eq_right this, Nat.one_mul]
    omega
  · have hstep : 0 < n / k := Nat.div_pos (by omega) hk
    rw [Nat.max_eq_left hstep]
    have hmono : n / k * (i + 2) ≤ n / k * k := Nat.mul_le_mul_left _ (by omega)
    have hmul := Nat.div_mul_le_self n k
    have hsplit : n / k * (i + 2) = n / k * i + 2 * (n / k) := by rw [Nat.mul_add, Nat.mul_comm _ 2]
    omega

theorem mem_strides {i : Nat} : i ∈ List.range' 0 (strides n k) (stride n k) ↔
    ∃ j < strides n k, stride n k * j = i := by
  rw [List.mem_range']
  simp only [Nat.zero_add, eq_comm]

theorem sample_ascending (hn : 0 < n) :
    (List.range' 0 (strides n k) (stride n k) ++ [n - 1]).Pairwise (· < ·) := by
  refine List.pairwise_append.mpr
    ⟨List.pairwise_lt_range' _ ?_, List.pairwise_singleton _ _, fun i hi l hl => ?_⟩
  · unfold stride
    omega
  · obtain ⟨j, hj, rfl⟩ := mem_strides.mp hi
    rw [List.mem_singleton.mp hl]
    exact strides_lt hn hj

theorem sample_below (hn : 0 < n) {i : Nat}
    (hi : i ∈ List.range' 0 (strides n k) (stride n k) ++ [n - 1]) : i < n := by
  rcases List.mem_append.mp hi with hi | hi
  · obtain ⟨j, hj, rfl⟩ := mem_strides.mp hi
    have := strides_lt hn hj
    omega
  · rw [List.mem_singleton.mp hi]
    omega

theorem sampleIndices_ok (hn : 0 < n) (coverage : SettleCoverage) :
    ∃ picked, sampleIndices n coverage = some picked ∧ picked.Pairwise (· < ·) ∧
      ∀ i ∈ picked, i < n := by
  cases coverage with
  | all =>
    exact ⟨List.range n, by simp [sampleIndices, Nat.ne_of_gt hn], List.pairwise_lt_range, by simp⟩
  | sample k =>
    exact ⟨_, sampleIndices_sample hn k, sample_ascending hn, fun i hi => sample_below hn hi⟩

/-- The gap that the last chunk closes. -/
theorem last_gap (hn : 2 ≤ n) (hk : 2 ≤ k) :
    n - 1 ≤ stride n k * (strides n k - 1) + 2 * divCeil n k ↔ n < k ∨ n % k ≤ 3 := by
  have hmax : max k 1 = k := by omega
  unfold stride strides divCeil
  rw [hmax]
  by_cases hle : n ≤ k
  · have hone : n / k ≤ 1 := Nat.div_le_of_le_mul (by omega)
    rw [Nat.max_eq_right hone, Nat.min_eq_left hle]
    rcases Nat.lt_or_eq_of_le hle with hlt | rfl
    · simp only [hlt, true_or, iff_true, Nat.mod_eq_of_lt hlt, Nat.div_eq_of_lt hlt,
        if_pos (show n > 0 by omega)]
      omega
    · simp only [Nat.mod_self, Nat.div_self (show 0 < n by omega)]
      omega
  · have hstep : 0 < n / k := Nat.div_pos (by omega) (by omega)
    rw [Nat.max_eq_left hstep, Nat.min_eq_right (by omega)]
    have hsplit := Nat.div_add_mod n k
    have hback : n / k * (k - 1 - 1) + 2 * (n / k) = k * (n / k) := by
      rw [Nat.mul_comm k, Nat.mul_comm 2, ← Nat.mul_add]
      congr 1
      omega
    split <;> omega

/-- Multiples of the stride are close to each other, so that the last gap decides. -/
theorem sample_dense_iff (hn : 0 < n) (hk : 2 ≤ k) :
    ((List.range' 0 (strides n k) (stride n k) ++ [n - 1]).IsChain fun i j =>
      j ≤ i + 2 * divCeil n k) ↔
      n < k ∨ n % k ≤ 3 := by
  by_cases hone : n = 1
  · subst hone
    simp [strides, show 1 < k by omega]
  · have hstrides : 0 < strides n k := by
      unfold strides
      omega
    have hstride : stride n k ≤ 2 * divCeil n k := by
      have hpos := (lt_divCeil_iff (show 0 < k by omega)).mpr (show 0 * k < n by omega)
      have hmax : max k 1 = k := by omega
      rw [stride, hmax]
      unfold divCeil at hpos ⊢
      omega
    have hfirst : (List.range' 0 (strides n k) (stride n k)).IsChain fun i j =>
        j ≤ i + 2 * divCeil n k :=
      (List.isChain_range' _ _ _).imp fun i j hij => by omega
    rw [← last_gap (by omega) hk, List.isChain_append, range'_last _ hstrides, List.getLast?_concat]
    simp only [← range'_last _ hstrides, hfirst, List.isChain_singleton, true_and, List.head?_cons,
      Option.mem_some_iff, forall_eq']

theorem sample_spread (hn : 0 < n) (hk : 2 ≤ k) :
    SpreadOut n k (List.range' 0 (strides n k) (stride n k) ++ [n - 1]) ↔ n < k ∨ n % k ≤ 3 := by
  refine ⟨fun h => (sample_dense_iff hn hk).mp h.dense, fun hfit => ?_⟩
  refine ⟨sample_ascending hn, fun i hi => sample_below hn hi, ?_,
    ?_, by simp, (sample_dense_iff hn hk).mpr hfit⟩
  · rw [List.length_append, List.length_range', List.length_singleton, strides]
    omega
  · by_cases hone : n = 1
    · simp [hone]
    · refine List.mem_append_left _ (mem_strides.mpr ⟨0, ?_, Nat.mul_zero _⟩)
      unfold strides
      omega

end Sample

/-- A sample of at least two spreads over the chunks exactly if they are fewer than that, or at most
three are left over when they are dealt into so many equal parts. -/
theorem sample_spread_iff (n k : Nat) (hn : 1 ≤ n) (hk : 2 ≤ k) :
    ∃ picked, sampleIndices n (.sample k) = some picked ∧
      (SpreadOut n k picked ↔ n < k ∨ n % k ≤ 3) :=
  ⟨_, sampleIndices_sample hn k, sample_spread hn hk⟩

theorem sample_spread_eight :
    ∃ picked, sampleIndices 1000 .default = some picked ∧ SpreadOut 1000 8 picked := by
  obtain ⟨picked, hrun, hiff⟩ := sample_spread_iff 1000 8 (by decide) (by decide)
  exact ⟨picked, hrun, hiff.mpr (by decide)⟩

/-- Eight of fifteen chunks: the first seven and the last. -/
theorem sample_leaves_gap :
    sampleIndices 15 .default = some [0, 1, 2, 3, 4, 5, 6, 14] ∧
      ¬ SpreadOut 15 8 [0, 1, 2, 3, 4, 5, 6, 14] := by
  refine ⟨by decide, fun h => ?_⟩
  have := h.dense
  revert this
  decide

/-- One GET: nobody can be asked, or it is known whether anybody answers. -/
def probeKey : Option (List Reply) → Result Bool
  | none => .error .zenoh
  | some replies => .ok (replies.any Except.isOk)

def settleKeys (storePrefix treePrefix : ServePrefix) (index : TreeIndex)
    (coverage : SettleCoverage) :
    Option (List String) := do
  let needed := index.neededChunks
  let picked ← if needed.length > 0 then sampleIndices needed.length coverage else some []
  let keys ← picked.mapM fun i => needed[i]?.map (storeKey storePrefix.str .blake3)
  some (treeKey treePrefix.str index.id.str :: keys)

section Keys

theorem mapM_total {α β : Type} {f : α → Option β} {l : List α} (h : ∀ a ∈ l, ∃ b, f a = some b) :
    ∃ bs, l.mapM f = some bs ∧ ∀ a ∈ l, ∃ b ∈ bs, f a = some b := by
  induction l with
  | nil => exact ⟨[], rfl, by simp⟩
  | cons a l ih =>
    obtain ⟨b, hb⟩ := h a (by simp)
    obtain ⟨bs, hbs, hall⟩ := ih fun x hx => h x (by simp [hx])
    refine ⟨b :: bs, by simp [List.mapM_cons, hb, hbs], fun x hx => ?_⟩
    rcases List.mem_cons.mp hx with rfl | hx
    · exact ⟨b, by simp, hb⟩
    · obtain ⟨y, hy, hfx⟩ := hall x hx
      exact ⟨y, by simp [hy], hfx⟩

variable (storePrefix treePrefix : ServePrefix) (index : TreeIndex)

/-- No index and no coverage make the read-back fail before its first GET; it probes the index and
every chunk that the coverage picks. -/
theorem settleKeys_ok (coverage : SettleCoverage) :
    ∃ keys, settleKeys storePrefix treePrefix index coverage = some keys ∧
      treeKey treePrefix.str index.id.str ∈ keys ∧
      ∀ picked, sampleIndices index.neededChunks.length coverage = some picked → ∀ i ∈ picked,
        ∃ h, index.neededChunks[i]? = some h ∧ storeKey storePrefix.str .blake3 h ∈ keys := by
  by_cases hn : 0 < index.neededChunks.length
  · obtain ⟨picked, hpicked, -, hbelow⟩ := sampleIndices_ok hn coverage
    have hkey : ∀ i ∈ picked, ∃ key, index.neededChunks[i]?.map (storeKey storePrefix.str .blake3) =
        some key := by
      intro i hi
      rw [List.getElem?_eq_getElem (hbelow i hi)]
      exact ⟨_, rfl⟩
    obtain ⟨keys, hkeys, hall⟩ := mapM_total hkey
    refine ⟨treeKey treePrefix.str index.id.str :: keys, by simp [settleKeys, hn, hpicked, hkeys],
      List.mem_cons_self, fun other hother i hi => ?_⟩
    cases hpicked.symm.trans hother
    obtain ⟨key, hkey, hget⟩ := hall i hi
    obtain ⟨h, hh, rfl⟩ := Option.map_eq_some_iff.mp hget
    exact ⟨h, hh, List.mem_cons_of_mem _ hkey⟩
  · have hnone : sampleIndices index.neededChunks.length coverage = none := by
      unfold sampleIndices
      exact if_pos (by omega)
    refine ⟨[treeKey treePrefix.str index.id.str],
      by simp [settleKeys, hn], by simp, fun picked hpicked => ?_⟩
    rw [hnone] at hpicked
    cases hpicked

end Keys

end Zblob
