import Zblob.Lib.Runs

/-!
Runs that get somewhere. A measure of the work that is left bounds how often a run can do
some of it, and shows that a run which may go on can be brought to its end.
-/

set_option autoImplicit false

namespace Runs

variable {σ ι : Type} {step : σ → ι → σ → Prop} {I D : σ → Prop}

theorem Path.append {s t u : σ} {a b : List (σ × ι)} (h : Path step s a t) (h' : Path step t b u) :
    Path step s (a ++ b) u := by
  induction h with
  | nil => exact h'
  | cons hs _ ih => exact .cons hs (ih h')

theorem Path.invariant (hstep : ∀ s a t, I s → step s a t → I t) {s t : σ} {taken : List (σ × ι)}
    (h : Path step s taken t) (hs : I s) : I t := by
  induction h with
  | nil => exact hs
  | cons hstep' _ ih => exact ih (hstep _ _ _ hs hstep')

theorem Path.foldlM {f : σ → ι → Option σ} (hstep : ∀ s a t, step s a t → f s a = some t) {s t : σ}
    {taken : List (σ × ι)} (h : Path step s taken t) :
    (taken.map Prod.snd).foldlM f s = some t := by
  induction h with
  | nil => rfl
  | cons hfirst _ ih =>
    rw [List.map_cons, List.foldlM_cons, hstep _ _ _ hfirst]
    exact ih

theorem Reachable.drive {init : σ → Prop} {f : σ → ι → Option σ} {inputs : List ι} {s t : σ}
    (hstep : ∀ s a t, a ∈ inputs → f s a = some t → step s a t) (h : Reachable init step s)
    (hrun : inputs.foldlM f s = some t) : Reachable init step t := by
  induction inputs generalizing s with
  | nil =>
    cases hrun
    exact h
  | cons a inputs ih =>
    rw [List.foldlM_cons] at hrun
    obtain ⟨u, hu, hrun⟩ := Option.bind_eq_some_iff.mp hrun
    exact ih (fun s b t hb => hstep s b t (by simp [hb])) (.next h (hstep s a u (by simp) hu)) hrun

/-- Every step that counts does some of the work, and no step makes more of it. -/
theorem Path.spends {w : σ → Nat} {c : ι → Bool} (hstep : ∀ s a t, I s → step s a t → I t)
    (hle : ∀ s a t, I s → step s a t → w t ≤ w s)
    (hlt : ∀ s a t, I s → step s a t → c a = true → w t < w s) {s t : σ} {taken : List (σ × ι)}
    (h : Path step s taken t) (hs : I s) : w t + taken.countP (fun p => c p.2) ≤ w s := by
  induction h with
  | nil => simp
  | @cons s t u a rest hfirst _ ih =>
    have hrest := ih (hstep s a t hs hfirst)
    have hno := hle s a t hs hfirst
    rw [List.countP_cons]
    cases hc : c a with
    | false =>
      simp only [Bool.false_eq_true, if_false]
      omega
    | true =>
      have hless := hlt s a t hs hfirst hc
      simp only [if_true]
      omega

/-- Where there is always a step that leaves less to do, the end can be reached. -/
theorem Path.completes {r : σ → Nat}
    (hnext : ∀ s, I s → ¬ D s → ∃ a t, step s a t ∧ I t ∧ r t < r s) {s : σ} (hs : I s) :
    ∃ taken t, Path step s taken t ∧ D t := by
  suffices h : ∀ n s, I s → r s ≤ n → ∃ taken t, Path step s taken t ∧ D t from
    h (r s) s hs (Nat.le_refl _)
  intro n
  induction n with
  | zero =>
    intro s hs hle
    by_cases hd : D s
    · exact ⟨[], s, .nil, hd⟩
    · obtain ⟨a, t, -, -, hless⟩ := hnext s hs hd
      omega
  | succ n ih =>
    intro s hs hle
    by_cases hd : D s
    · exact ⟨[], s, .nil, hd⟩
    · obtain ⟨a, t, hstep, ht, hless⟩ := hnext s hs hd
      obtain ⟨taken, u, hpath, hu⟩ := ih t ht (by omega)
      exact ⟨(s, a) :: taken, u, .cons hstep hpath, hu⟩

end Runs
