import Mathlib.Data.List.Sort
import Mathlib.Tactic.Common

/-!
Half-open spans of numbers, the numbers they stand for, and the maximal runs of an ascending
list: spans with a gap between any two have one run each.
-/

set_option autoImplicit false

namespace Spans

def flat (spans : List (Nat × Nat)) : List Nat := spans.flatMap fun r => List.range' r.1 (r.2 - r.1)

structure Apart (spans : List (Nat × Nat)) : Prop where
  nonempty : ∀ r ∈ spans, r.1 < r.2
  gaps : spans.Pairwise fun r s => r.2 < s.1

/-- The numbers that no other one of the list comes right before: the first of each maximal run. -/
def starts (l : List Nat) : List Nat := l.filter fun i => decide (∀ j ∈ l, j + 1 ≠ i)

def runs (l : List Nat) : Nat := (starts l).length

variable {spans : List (Nat × Nat)} {l m q : List Nat} {i : Nat}

@[simp] theorem flat_nil : flat [] = [] := rfl

@[simp] theorem flat_cons (r : Nat × Nat) (spans : List (Nat × Nat)) :
    flat (r :: spans) = List.range' r.1 (r.2 - r.1) ++ flat spans := rfl

@[simp] theorem flat_append (s t : List (Nat × Nat)) : flat (s ++ t) = flat s ++ flat t :=
  List.flatMap_append

theorem mem_flat : i ∈ flat spans ↔ ∃ r ∈ spans, r.1 ≤ i ∧ i < r.2 := by
  simp only [flat, List.mem_flatMap, List.mem_range'_1]
  refine exists_congr fun r => and_congr_right fun _ => ?_
  omega

theorem mem_starts : i ∈ starts l ↔ i ∈ l ∧ ∀ j ∈ l, j + 1 ≠ i := by
  simp [starts]

namespace Apart

theorem nil : Apart [] := ⟨by simp, List.Pairwise.nil⟩

theorem tail {r : Nat × Nat} (h : Apart (r :: spans)) : Apart spans :=
  ⟨fun s hs => h.nonempty s (by simp [hs]), (List.pairwise_cons.mp h.gaps).2⟩

theorem take (h : Apart spans) (k : Nat) : Apart (spans.take k) :=
  ⟨fun r hr => h.nonempty r (List.mem_of_mem_take hr), h.gaps.take⟩

theorem cmp (h : Apart spans) {r s : Nat × Nat} (hr : r ∈ spans) (hs : s ∈ spans) :
    r = s ∨ r.2 < s.1 ∨ s.2 < r.1 := by
  by_cases heq : r = s
  · exact .inl heq
  · right
    obtain ⟨i, hi, rfl⟩ := List.mem_iff_getElem.mp hr
    obtain ⟨j, hj, rfl⟩ := List.mem_iff_getElem.mp hs
    rcases Nat.lt_trichotomy i j with hlt | hij | hgt
    · exact .inl (List.pairwise_iff_getElem.mp h.gaps i j hi hj hlt)
    · subst hij
      exact absurd rfl heq
    · exact .inr (List.pairwise_iff_getElem.mp h.gaps j i hj hi hgt)

theorem ascending (h : Apart spans) : (flat spans).Pairwise (· < ·) := by
  induction spans with
  | nil => simp
  | cons r spans ih =>
    rw [flat_cons, List.pairwise_append]
    refine ⟨List.pairwise_lt_range', ih h.tail, fun a ha b hb => ?_⟩
    rw [List.mem_range'_1] at ha
    obtain ⟨s, hs, hle, -⟩ := mem_flat.mp hb
    have := (List.pairwise_cons.mp h.gaps).1 s hs
    omega

theorem mem_starts (h : Apart spans) : i ∈ starts (flat spans) ↔ ∃ r ∈ spans, r.1 = i := by
  rw [Spans.mem_starts, mem_flat]
  constructor
  · rintro ⟨⟨r, hr, hle, hlt⟩, hno⟩
    refine ⟨r, hr, ?_⟩
    by_contra hne
    exact hno (i - 1) (mem_flat.mpr ⟨r, hr, by omega, by omega⟩) (by omega)
  · rintro ⟨r, hr, rfl⟩
    refine ⟨⟨r, hr, Nat.le_refl _, h.nonempty r hr⟩, fun j hj hij => ?_⟩
    obtain ⟨s, hs, hle, hlt⟩ := mem_flat.mp hj
    rcases h.cmp hr hs with rfl | hbefore | hafter
    · omega
    · have := h.nonempty r hr
      omega
    · omega

theorem runs_flat (h : Apart spans) : runs (flat spans) = spans.length := by
  have hstarts : (starts (flat spans)).Nodup :=
    (h.ascending.imp fun hlt => Nat.ne_of_lt hlt).filter _
  have hfirsts : (spans.map Prod.fst).Nodup := by
    rw [List.nodup_iff_pairwise_ne, List.pairwise_map]
    refine h.gaps.imp_of_mem fun hr _ hgap => ?_
    have := h.nonempty _ hr
    omega
  have hperm : (starts (flat spans)).Perm (spans.map Prod.fst) := by
    refine (List.perm_ext_iff_of_nodup hstarts hfirsts).mpr fun i => ?_
    rw [h.mem_starts, List.mem_map]
  rw [runs, hperm.length_eq, List.length_map]

end Apart

theorem starts_append (h : (l ++ m).Pairwise (· < ·)) :
    starts (l ++ m) = starts l ++ m.filter fun i => decide (∀ j ∈ l ++ m, j + 1 ≠ i) := by
  unfold starts
  rw [List.filter_append]
  congr 1
  refine List.filter_congr fun i hi => decide_eq_decide.mpr ⟨fun hno j hj => ?_, fun hno j hj => ?_⟩
  · exact hno j (List.mem_append_left _ hj)
  · rcases List.mem_append.mp hj with hj | hj
    · exact hno j hj
    · have := (List.pairwise_append.mp h).2.2 i hi j hj
      omega

theorem runs_le (h : m.Pairwise (· < ·)) (hl : l <+: m) : runs l ≤ runs m := by
  obtain ⟨rest, rfl⟩ := hl
  rw [runs, runs, starts_append h, List.length_append]
  exact Nat.le_add_right _ _

theorem runs_snoc (h : l.Pairwise (· < ·)) (hi : ∀ j ∈ l, j + 1 < i) :
    runs (l ++ [i]) = runs l + 1 := by
  have hall : (l ++ [i]).Pairwise (· < ·) := by
    refine List.pairwise_append.mpr ⟨h, List.pairwise_singleton _ _, fun j hj x hx => ?_⟩
    rw [List.mem_singleton.mp hx]
    have := hi j hj
    omega
  have hnew : ∀ j ∈ l ++ [i], j + 1 ≠ i := by
    intro j hj
    rcases List.mem_append.mp hj with hj | hj
    · have := hi j hj
      omega
    · rw [List.mem_singleton.mp hj]
      omega
  rw [runs, starts_append hall, List.filter_singleton, decide_eq_true hnew, List.length_append]
  rfl

theorem head_flat {r : Nat × Nat} (hr : r.1 < r.2) : (flat (r :: spans)).head? = some r.1 := by
  obtain ⟨n, hn⟩ := Nat.exists_eq_add_of_lt hr
  rw [flat_cons, show r.2 - r.1 = n + 1 by omega, List.range'_succ]
  rfl

/-- The numbers of the first `k` spans are all that can be had with `k` runs. -/
theorem Apart.longest (h : Apart spans) {k : Nat} (hq : q <+: flat spans) (hruns : runs q ≤ k) :
    q <+: flat (spans.take k) := by
  have hsplit : flat (spans.take k) ++ flat (spans.drop k) = flat spans := by
    rw [← flat_append, List.take_append_drop]
  have htake : flat (spans.take k) <+: flat spans := ⟨_, hsplit⟩
  rcases List.prefix_or_prefix_of_prefix hq htake with hle | ⟨t, rfl⟩
  · exact hle
  · cases t with
    | nil => simp
    | cons x t =>
      -- the first number beyond them begins one more run
      exfalso
      have hasc := h.ascending.sublist hq.sublist
      rw [← hsplit] at hq
      obtain ⟨u, hu⟩ := (List.prefix_append_right_inj _).mp hq
      cases hdrop : spans.drop k with
      | nil => simp [hdrop] at hu
      | cons r rest =>
        have hr : r.1 < r.2 := h.nonempty r (List.mem_of_mem_drop (hdrop ▸ List.mem_cons_self))
        have hfirst : x = r.1 := by
          have := congrArg List.head? hu
          rw [hdrop, head_flat hr] at this
          exact Option.some.inj this
        have hlen : (spans.take k).length = k := by
          have := congrArg List.length hdrop
          rw [List.length_drop, List.length_cons] at this
          rw [List.length_take]
          omega
        have hbeyond : ∀ j ∈ flat (spans.take k), j + 1 < x := by
          intro j hj
          obtain ⟨s, hs, -, hlt⟩ := mem_flat.mp hj
          have hgaps := h.gaps
          rw [← List.take_append_drop k spans, hdrop] at hgaps
          have := (List.pairwise_append.mp hgaps).2.2 s hs r List.mem_cons_self
          omega
        have hmore : flat (spans.take k) ++ [x] <+: flat (spans.take k) ++ x :: t :=
          (List.prefix_append_right_inj _).mpr ⟨t, rfl⟩
        have := runs_le hasc hmore
        rw [runs_snoc (h.take k).ascending hbeyond, (h.take k).runs_flat, hlen] at this
        omega

end Spans
