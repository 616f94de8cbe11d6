import Zblob.Ranges

/-!
The query of the single-origin loop. Whatever the bitfield looks like, the
ranges asked for are missing chunks, and the server that advertised its cap
accepts them.
-/

set_option autoImplicit false

namespace Zblob

namespace ResumeState

variable {s : ResumeState} {m : Manifest} {c : TransferChunks} {n : Nat}

theorem Fits.complete_of_isSet (h : s.Fits m c) (hall : ∀ i < c.count, s.isSet i = true) :
    s.isComplete c.count = true := by
  have hbit : ∀ i ∈ List.range c.count, Bitfield.testBit s.bits i = true := by
    intro i hi
    have := hall i (List.mem_range.mp hi)
    rw [h.isSet_eq, Bool.and_eq_true] at this
    exact this.2
  have hfull := List.countP_eq_length.mpr hbit
  rw [isComplete, received, h.count_eq, Bitfield.countFrom_zero _ _ h.bits_bound, hfull]
  simp

theorem runEnd_le (i : Nat) (hi : i ≤ n) : s.runEnd n i ≤ n := by
  fun_induction runEnd s n i with
  | case1 i h ih => exact ih (by omega)
  | case2 i h => exact hi

theorem runEnd_missing (i k : Nat) (hik : i ≤ k) (hk : k < s.runEnd n i) : s.isSet k = false := by
  fun_induction runEnd s n i with
  | case1 i h ih =>
    rcases Nat.eq_or_lt_of_le hik with rfl | hlt
    · exact h.2
    · exact ih hlt hk
  | case2 i h => omega

theorem lt_runEnd {i : Nat} (hi : i < n) (hs : ¬s.isSet i = true) : i < s.runEnd n i := by
  unfold runEnd
  rw [dif_pos ⟨hi, by simpa using hs⟩]
  exact le_runEnd s n (i + 1)

theorem missingFrom_inside {i : Nat} {r : Nat × Nat} (hr : r ∈ s.missingFrom n i) :
    i ≤ r.1 ∧ r.1 < r.2 ∧ r.2 ≤ n ∧ ∀ k, r.1 ≤ k → k < r.2 → s.isSet k = false := by
  fun_induction missingFrom s n i with
  | case1 i hi hs ih =>
    obtain ⟨hle, hrest⟩ := ih hr
    exact ⟨by omega, hrest⟩
  | case2 i hi hs _ ih =>
    have hlt := lt_runEnd hi hs
    rcases List.mem_cons.mp hr with rfl | hr
    · exact ⟨Nat.le_refl i, hlt, runEnd_le i (by omega), fun k => runEnd_missing i k⟩
    · obtain ⟨hle, hrest⟩ := ih hr
      exact ⟨by omega, hrest⟩
  | case3 i hi => simp at hr

theorem missingFrom_apart (i : Nat) : (s.missingFrom n i).Pairwise fun a b => a.2 ≤ b.1 := by
  fun_induction missingFrom s n i with
  | case1 i hi hs ih => exact ih
  | case2 i hi hs _ ih =>
    rw [List.pairwise_cons]
    exact ⟨fun r hr => (missingFrom_inside hr).1, ih⟩
  | case3 i hi => simp

/-- An incomplete state has a hole to ask for. -/
theorem Fits.missingRanges_ne_nil (h : s.Fits m c) (hopen : s.isComplete c.count = false) :
    s.missingRanges c.count ≠ [] := by
  intro hnil
  have hall := missingFrom_nil hnil
  have := h.complete_of_isSet fun i hi => hall i (Nat.zero_le i) hi
  simp [hopen] at this

end ResumeState

section Clamp

variable {budget : Nat} {rs : List (Nat × Nat)}

theorem clampHoles_length (budget : Nat) (rs : List (Nat × Nat)) :
    (clampHoles budget rs).length = rs.length := by
  induction rs generalizing budget with
  | nil => simp [clampHoles]
  | cons r rs ih => simp [clampHoles, ih]

theorem clampHoles_total (budget : Nat) (rs : List (Nat × Nat)) :
    spanTotal (clampHoles budget rs) ≤ budget := by
  induction rs generalizing budget with
  | nil => simp [clampHoles]
  | cons r rs ih =>
    have := ih (budget - min (r.2 - r.1) budget)
    simp only [clampHoles, spanTotal_cons]
    omega

theorem mem_clampHoles {r : Nat × Nat} (hrs : ∀ q ∈ rs, q.1 < q.2)
    (hr : r ∈ clampHoles budget rs) : ∃ q ∈ rs, r.1 = q.1 ∧ r.2 ≤ q.2 := by
  induction rs generalizing budget with
  | nil => simp [clampHoles] at hr
  | cons q rs ih =>
    have hq := hrs q (by simp)
    simp only [clampHoles, List.mem_cons] at hr
    rcases hr with rfl | hr
    · exact ⟨q, by simp, rfl, by simp only; omega⟩
    · obtain ⟨q', hq', hbounds⟩ := ih (fun x hx => hrs x (by simp [hx])) hr
      exact ⟨q', by simp [hq'], hbounds⟩

theorem clampHoles_apart (hrs : ∀ q ∈ rs, q.1 < q.2) (h : rs.Pairwise fun a b => a.2 ≤ b.1) :
    (clampHoles budget rs).Pairwise fun a b => a.2 ≤ b.1 := by
  induction rs generalizing budget with
  | nil => simp [clampHoles]
  | cons q rs ih =>
    have hq := hrs q (by simp)
    have hrest : ∀ x ∈ rs, x.1 < x.2 := fun x hx => hrs x (by simp [hx])
    rw [List.pairwise_cons] at h
    simp only [clampHoles, List.pairwise_cons]
    refine ⟨?_, ih hrest h.2⟩
    intro r hr
    obtain ⟨q', hq', hfst, -⟩ := mem_clampHoles hrest hr
    have := h.1 q' hq'
    omega

theorem spanTotal_filter (p : Nat × Nat → Bool) (rs : List (Nat × Nat)) :
    spanTotal (rs.filter p) ≤ spanTotal rs := by
  induction rs with
  | nil => simp
  | cons r rs ih =>
    rw [List.filter_cons]
    split <;> simp only [spanTotal_cons] <;> omega

end Clamp

section Query

variable {cfg : ClientConfig} {m : Manifest} {c : TransferChunks} {s : ResumeState}

theorem mem_holes {r : Nat × Nat} (hr : r ∈ holes cfg m c s) :
    r.1 < r.2 ∧ ∃ q ∈ s.missingRanges c.count, r.1 = q.1 ∧ r.2 ≤ q.2 := by
  rw [holes, List.mem_filter] at hr
  obtain ⟨q, hq, hbounds⟩ := mem_clampHoles
    (fun q hq => (ResumeState.missingFrom_inside (List.mem_of_mem_take hq)).2.1) hr.1
  exact ⟨by simpa using hr.2, q, List.mem_of_mem_take hq, hbounds⟩

theorem holes_missing {r : Nat × Nat} (hr : r ∈ holes cfg m c s) :
    r.1 < r.2 ∧ r.2 ≤ c.count ∧ ∀ i, r.1 ≤ i → i < r.2 → s.isSet i = false := by
  obtain ⟨hlt, q, hq, hfst, hsnd⟩ := mem_holes hr
  obtain ⟨-, -, hn, hclear⟩ := ResumeState.missingFrom_inside hq
  exact ⟨hlt, by omega, fun i h1 h2 => hclear i (by omega) (by omega)⟩

theorem holes_ne_nil (hs : s.Fits m c) (hopen : s.isComplete c.count = false) :
    holes cfg m c s ≠ [] := by
  have hne := hs.missingRanges_ne_nil hopen
  cases hm : s.missingRanges c.count with
  | nil => exact absurd hm hne
  | cons r rs =>
    have hmem : r ∈ s.missingRanges c.count := by simp [hm]
    have hr : r.1 < r.2 := (ResumeState.missingFrom_inside hmem).2.1
    have hbudget : 1 ≤ queryBudget cfg m := by unfold queryBudget; omega
    have hfirst : (r.1, r.1 + min (r.2 - r.1) (queryBudget cfg m)) ∈ holes cfg m c s := by
      simp only [holes, hm, List.mem_filter, decide_eq_true_eq]
      refine ⟨by simp [maxRangeSpans, clampHoles], ?_⟩
      omega
    exact List.ne_nil_of_mem hfirst

theorem holes_servable {cap : Nat} (hs : s.Fits m c) (hopen : s.isComplete c.count = false)
    (hcap : queryBudget cfg m ≤ cap) : Servable c.count cap (holes cfg m c s) where
  asked := holes_ne_nil hs hopen
  few := by
    have h1 := List.length_filter_le (fun r : Nat × Nat => decide (r.1 < r.2))
      (clampHoles (queryBudget cfg m) ((s.missingRanges c.count).take maxRangeSpans))
    rw [clampHoles_length, List.length_take] at h1
    unfold holes
    omega
  inside := fun r hr => ⟨(holes_missing hr).1, (holes_missing hr).2.1⟩
  apart := by
    have hlt : ∀ q ∈ (s.missingRanges c.count).take maxRangeSpans, q.1 < q.2 := fun q hq =>
      (ResumeState.missingFrom_inside (List.mem_of_mem_take hq)).2.1
    have hsorted : ((s.missingRanges c.count).take maxRangeSpans).Pairwise fun a b => a.2 ≤ b.1 :=
      (ResumeState.missingFrom_apart 0).take
    exact (clampHoles_apart hlt hsorted).filter _
  within := by
    have h1 := spanTotal_filter (fun r => decide (r.1 < r.2))
      (clampHoles (queryBudget cfg m) ((s.missingRanges c.count).take maxRangeSpans))
    have h2 := clampHoles_total (queryBudget cfg m) ((s.missingRanges c.count).take maxRangeSpans)
    unfold holes
    omega

end Query

/-- A query of the single-origin loop asks for missing chunks only, for at least one of
them, and is read back unchanged by the server that advertised its cap. -/
theorem slice_query_accepted (cfg : ClientConfig) (m : Manifest) (c : TransferChunks)
    (s : ResumeState) (p : QueryPrefix) (cap : UInt32) (hs : s.Fits m c)
    (hopen : s.isComplete c.count = false) (hserved : m.maxChunksPerQuery = some cap)
    (hcap : 1 ≤ cap.toNat) :
    holes cfg m c s ≠ [] ∧
      (∀ r ∈ holes cfg m c s, ∀ i, r.1 ≤ i → i < r.2 → i < c.count ∧ s.isSet i = false) ∧
      parseRanges (selectorParameters (sliceSelector p m.id (holes cfg m c s))) c.count cap.toNat =
        .ok (holes cfg m c s) := by
  have hbudget : queryBudget cfg m ≤ cap.toNat := by
    simp only [queryBudget, hserved]
    omega
  have hservable := holes_servable hs hopen hbudget
  refine ⟨hservable.asked, ?_, hservable.parsed (Nat.le_of_lt_succ c.count_lt)⟩
  intro r hr i h1 h2
  obtain ⟨-, hn, hclear⟩ := holes_missing hr
  exact ⟨by omega, hclear i h1 h2⟩

theorem cappedId_valid : BlobId.isValid "x" = true := by decide

def cappedManifest : Manifest where
  version := wireVersion
  id := ⟨"x", cappedId_valid⟩
  filename := none
  totalLen := 655360
  chunkSize := 65536
  root := ⟨List.replicate 32 0, zeros_length⟩
  createdMs := 0
  ext := (Ext.new.setU32 Ext.maxChunksPerQuery 3).1

def cappedChunks : TransferChunks := ⟨65536, 655360, by decide, by decide⟩

def raggedState : ResumeState where
  version := wireVersion
  id := cappedManifest.id
  root := cappedManifest.root
  totalLen := 655360
  chunkSize := 65536
  bits := [0x6a, 0xfc]

theorem slice_query_accepted_ragged :
    holes ⟨"p", 4, 512, 1048576⟩ cappedManifest cappedChunks raggedState =
      [(0, 1), (2, 3), (4, 5)] ∧
      parseRanges (selectorParameters (sliceSelector ⟨"p", by decide⟩ cappedManifest.id
        (holes ⟨"p", 4, 512, 1048576⟩ cappedManifest cappedChunks raggedState))) 10 3 =
      .ok (holes ⟨"p", 4, 512, 1048576⟩ cappedManifest cappedChunks raggedState) := by
  have hfits : raggedState.Fits cappedManifest cappedChunks :=
    ⟨rfl, rfl, rfl, rfl, rfl, by decide, by decide⟩
  have h := slice_query_accepted ⟨"p", 4, 512, 1048576⟩ cappedManifest cappedChunks raggedState
    ⟨"p", by decide⟩ 3 hfits (by decide) (by decide) (by decide)
  exact ⟨by decide +kernel, h.2.2⟩

end Zblob
