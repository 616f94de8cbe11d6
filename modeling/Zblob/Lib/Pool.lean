import Mathlib.Logic.Function.Basic
import Mathlib.Tactic.Common

/-!
Handlers that share a state and take turns. An invariant of such a pool is split into what
it says of the shared state, of one handler, of two handlers and of a resource that no
handler has in hand, so that a step is checked against one other handler at a time.
-/

set_option autoImplicit false

/-- A shared state and the handlers at work on it. -/
structure Pool (σ τ : Type) where
  shared : σ
  tasks : Nat → Option τ
  nextTask : Nat

namespace Pool

variable {σ τ κ : Type}

def spawn (p : Pool σ τ) (t : τ) : Pool σ τ :=
  { p with tasks := Function.update p.tasks p.nextTask (some t), nextTask := p.nextTask + 1 }

def resume (p : Pool σ τ) (i : Nat) (shared : σ) (t : Option τ) : Pool σ τ :=
  { p with shared := shared, tasks := Function.update p.tasks i t }

def onShared (p : Pool σ τ) (shared : σ) : Pool σ τ := { p with shared := shared }

def Idle (p : Pool σ τ) : Prop := ∀ i, p.nextTask ≤ i → p.tasks i = none

theorem Idle.spawn {p : Pool σ τ} (h : p.Idle) (t : τ) : (p.spawn t).Idle := by
  intro i hi
  have hlt : p.nextTask + 1 ≤ i := hi
  have hne : i ≠ p.nextTask := by omega
  simpa [Pool.spawn, hne] using h i (by omega)

theorem Idle.resume {p : Pool σ τ} (h : p.Idle) {i : Nat} {t : τ} (hi : p.tasks i = some t) (s' : σ)
    (t' : Option τ) : (p.resume i s' t').Idle := by
  intro j hj
  have hne : j ≠ i := by
    rintro rfl
    rw [h j hj] at hi
    cases hi
  simpa [Pool.resume, hne] using h j hj

/-- The parts of an invariant. `quiet` is about a resource that no handler is `busy` with. -/
structure Invariant (σ τ κ : Type) where
  shared : σ → Prop
  task : σ → τ → Prop := fun _ _ => True
  pair : τ → τ → Prop := fun _ _ => True
  busy : τ → κ → Prop := fun _ _ => False
  quiet : σ → κ → Prop := fun _ _ => True

structure Invariant.Holds (I : Invariant σ τ κ) (p : Pool σ τ) : Prop where
  fresh : p.Idle
  shared : I.shared p.shared
  task : ∀ i t, p.tasks i = some t → I.task p.shared t
  pair : ∀ i j t u, i ≠ j → p.tasks i = some t → p.tasks j = some u → I.pair t u
  quiet : ∀ k, (∀ i t, p.tasks i = some t → ¬ I.busy t k) → I.quiet p.shared k

namespace Invariant.Holds

variable {I : Invariant σ τ κ} {p : Pool σ τ}

theorem empty {s : σ} (hs : I.shared s) (hq : ∀ k, I.quiet s k) :
    I.Holds ⟨s, fun _ => none, 0⟩ where
  fresh _ _ := rfl
  shared := hs
  task _ _ h := by cases h
  pair _ _ _ _ _ h := by cases h
  quiet k _ := hq k

/-- A handler's step, checked against itself and against each other handler. -/
theorem resume (h : I.Holds p) {i : Nat} {t : τ} (hi : p.tasks i = some t) {s' : σ} {t' : Option τ}
    (hshared : I.shared s') (hself : ∀ v, t' = some v → I.task s' v)
    (hother : ∀ j u, j ≠ i → p.tasks j = some u → I.task s' u)
    (hpair : ∀ j u, j ≠ i → p.tasks j = some u → ∀ v, t' = some v → I.pair v u ∧ I.pair u v)
    (hquiet : ∀ k, (∀ v, t' = some v → ¬ I.busy v k) →
      (∀ j u, j ≠ i → p.tasks j = some u → ¬ I.busy u k) → I.busy t k ∨ I.quiet p.shared k →
      I.quiet s' k) : I.Holds (p.resume i s' t') where
  fresh := h.fresh.resume hi s' t'
  shared := hshared
  task j u hu := by
    by_cases hj : j = i
    · subst hj
      exact hself u (by simpa [Pool.resume] using hu)
    · exact hother j u hj (by simpa [Pool.resume, hj] using hu)
  pair j k u v hne hu hv := by
    by_cases hj : j = i
    · subst hj
      have hk : k ≠ j := fun e => hne e.symm
      exact (hpair k v hk (by simpa [Pool.resume, hk] using hv) u
        (by simpa [Pool.resume] using hu)).1
    · by_cases hk : k = i
      · subst hk
        exact (hpair j u hj (by simpa [Pool.resume, hj] using hu) v
          (by simpa [Pool.resume] using hv)).2
      · exact h.pair j k u v hne (by simpa [Pool.resume, hj] using hu)
          (by simpa [Pool.resume, hk] using hv)
  quiet k hk := by
    have hothers : ∀ j u, j ≠ i → p.tasks j = some u → ¬ I.busy u k :=
      fun j u hj hu => hk j u (by simpa [Pool.resume, hj] using hu)
    refine hquiet k (fun v hv => hk i v (by simpa [Pool.resume] using hv)) hothers ?_
    by_cases hb : I.busy t k
    · exact .inl hb
    · refine .inr (h.quiet k fun j u hu => ?_)
      by_cases hj : j = i
      · subst hj
        obtain rfl : t = u := Option.some.inj (hi.symm.trans hu)
        exact hb
      · exact hothers j u hj hu

theorem spawn (h : I.Holds p) {t : τ} (hself : I.task p.shared t)
    (hpair : ∀ u, I.pair t u ∧ I.pair u t) : I.Holds (p.spawn t) where
  fresh := h.fresh.spawn t
  shared := h.shared
  task j u hu := by
    by_cases hj : j = p.nextTask
    · subst hj
      obtain rfl : t = u := by simpa [Pool.spawn] using hu
      exact hself
    · exact h.task j u (by simpa [Pool.spawn, hj] using hu)
  pair j k u v hne hu hv := by
    by_cases hj : j = p.nextTask
    · subst hj
      obtain rfl : t = u := by simpa [Pool.spawn] using hu
      exact (hpair v).1
    · by_cases hk : k = p.nextTask
      · subst hk
        obtain rfl : t = v := by simpa [Pool.spawn] using hv
        exact (hpair u).2
      · exact h.pair j k u v hne (by simpa [Pool.spawn, hj] using hu)
          (by simpa [Pool.spawn, hk] using hv)
  quiet k hk := by
    refine h.quiet k fun j u hu => hk j u ?_
    have hj : j ≠ p.nextTask := by
      rintro rfl
      rw [h.fresh _ (Nat.le_refl _)] at hu
      cases hu
    simpa [Pool.spawn, hj] using hu

theorem onShared (h : I.Holds p) {s' : σ} (hshared : I.shared s')
    (htask : ∀ i t, p.tasks i = some t → I.task s' t)
    (hquiet : ∀ k, I.quiet p.shared k → I.quiet s' k) :
    I.Holds (p.onShared s') where
  fresh := h.fresh
  shared := hshared
  task := htask
  pair := h.pair
  quiet k hk := hquiet k (h.quiet k hk)

end Invariant.Holds

end Pool
