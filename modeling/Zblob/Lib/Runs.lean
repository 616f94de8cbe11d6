import Mathlib.Data.List.Basic
import Mathlib.Tactic.Common

/-!
Runs of operations over a state, seen twice: the states one operation list goes
through (a crash stops in any of them), and the states a transition relation reaches.
-/

set_option autoImplicit false

namespace Runs

variable {σ ι : Type}

def run (apply : ι → σ → σ) (ops : List ι) (s : σ) : σ := ops.foldl (fun s op => apply op s) s

def visited (apply : ι → σ → σ) : List ι → σ → List σ
  | [], s => [s]
  | op :: ops, s => s :: visited apply ops (apply op s)

/-- `P` holds wherever a run of `ops` from `s` may be cut off. -/
def Always (apply : ι → σ → σ) (P : σ → Prop) (ops : List ι) (s : σ) : Prop :=
  ∀ t ∈ visited apply ops s, P t

section Ops

variable {apply : ι → σ → σ} {P : σ → Prop}

@[simp] theorem run_nil (s : σ) : run apply [] s = s := rfl

@[simp] theorem run_cons (op : ι) (ops : List ι) (s : σ) :
    run apply (op :: ops) s = run apply ops (apply op s) := rfl

@[simp] theorem run_append (a b : List ι) (s : σ) :
    run apply (a ++ b) s = run apply b (run apply a s) := by simp [run]

theorem run_mem_visited (ops : List ι) (s : σ) : run apply ops s ∈ visited apply ops s := by
  induction ops generalizing s with
  | nil => simp [visited]
  | cons op ops ih => simp only [visited, run_cons, List.mem_cons]; exact .inr (ih _)

theorem run_take_mem_visited (k : Nat) (ops : List ι) (s : σ) :
    run apply (ops.take k) s ∈ visited apply ops s := by
  induction ops generalizing s k with
  | nil => simp [visited]
  | cons op ops ih =>
    cases k with
    | zero => simp [visited]
    | succ k =>
      simp only [List.take_succ_cons, run_cons, visited, List.mem_cons]
      exact .inr (ih k _)

@[simp] theorem always_nil (s : σ) : Always apply P [] s ↔ P s := by simp [Always, visited]

@[simp] theorem always_cons (op : ι) (ops : List ι) (s : σ) :
    Always apply P (op :: ops) s ↔ P s ∧ Always apply P ops (apply op s) := by
  simp [Always, visited]

theorem always_append {a b : List ι} {s : σ} (ha : Always apply P a s)
    (hb : Always apply P b (run apply a s)) : Always apply P (a ++ b) s := by
  induction a generalizing s with
  | nil => exact hb
  | cons op a ih =>
    rw [always_cons] at ha
    rw [List.cons_append, always_cons]
    exact ⟨ha.1, ih ha.2 hb⟩

theorem Always.last {ops : List ι} {s : σ} (h : Always apply P ops s) : P (run apply ops s) :=
  h _ (run_mem_visited ops s)

end Ops

section Answers

variable {τ α β : Type}

def answers (step : ι → σ → α × σ) : List ι → σ → List α × σ
  | [], s => ([], s)
  | op :: ops, s =>
    let rest := answers step ops (step op s).2
    ((step op s).1 :: rest.1, rest.2)

/-- Two machines that answer alike and stay related operation by operation do so over any
list of operations. -/
theorem answers_simulation {impl : ι → σ → α × σ} {spec : ι → τ → β × τ} {ok : ι → Prop}
    {R : σ → τ → Prop} {same : α → β → Prop}
    (hstep : ∀ op s t, ok op → R s t → same (impl op s).1 (spec op t).1 ∧
      R (impl op s).2 (spec op t).2)
    {ops : List ι} (hok : ∀ op ∈ ops, ok op) {s : σ} {t : τ} (h : R s t) :
    List.Forall₂ same (answers impl ops s).1 (answers spec ops t).1 ∧
      R (answers impl ops s).2 (answers spec ops t).2 := by
  induction ops generalizing s t with
  | nil => exact ⟨.nil, h⟩
  | cons op ops ih =>
    obtain ⟨hans, hnext⟩ := hstep op s t (hok op (by simp)) h
    obtain ⟨hrest, hend⟩ := ih (fun o ho => hok o (by simp [ho])) hnext
    exact ⟨.cons hans hrest, hend⟩

end Answers

/-- The states a labelled transition relation reaches from the initial ones. -/
inductive Reachable (init : σ → Prop) (step : σ → ι → σ → Prop) : σ → Prop where
  | start {s : σ} : init s → Reachable init step s
  | next {s t : σ} {a : ι} : Reachable init step s → step s a t → Reachable init step t

/-- What holds initially and is kept by every step holds of every reachable state. -/
theorem Reachable.invariant {init : σ → Prop} {step : σ → ι → σ → Prop} {Inv : σ → Prop}
    (hinit : ∀ s, init s → Inv s) (hstep : ∀ s a t, Inv s → step s a t → Inv t) {s : σ}
    (h : Reachable init step s) : Inv s := by
  induction h with
  | start h0 => exact hinit _ h0
  | next _ hs ih => exact hstep _ _ _ ih hs

theorem Reachable.foldlM {init : σ → Prop} {step : σ → ι → Option σ} {inputs : List ι} {s t : σ}
    (h : Reachable init (fun s a t => step s a = some t) s) (hrun : inputs.foldlM step s = some t) :
    Reachable init (fun s a t => step s a = some t) t := by
  induction inputs generalizing s with
  | nil =>
    cases hrun
    exact h
  | cons a inputs ih =>
    rw [List.foldlM_cons] at hrun
    obtain ⟨u, hu, hrun⟩ := Option.bind_eq_some_iff.mp hrun
    exact ih (.next h hu) hrun

/-- The same of the steps that a condition on the state before them lets through. -/
theorem Reachable.foldlM_guarded {init : σ → Prop} {step : σ → ι → Option σ} {ok : σ → ι → Prop}
    [∀ s a, Decidable (ok s a)] {inputs : List ι} {s t : σ}
    (h : Reachable init (fun s a t => step s a = some t ∧ ok s a) s)
    (hrun : inputs.foldlM (fun s a => if ok s a then step s a else none) s = some t) :
    Reachable init (fun s a t => step s a = some t ∧ ok s a) t := by
  induction inputs generalizing s with
  | nil =>
    cases hrun
    exact h
  | cons a inputs ih =>
    rw [List.foldlM_cons] at hrun
    obtain ⟨u, hu, hrun⟩ := Option.bind_eq_some_iff.mp hrun
    split at hu
    · rename_i hok
      exact ih (.next h ⟨hu, hok⟩) hrun
    · cases hu

theorem Reachable.mono {init init' : σ → Prop} {step step' : σ → ι → σ → Prop}
    (hinit : ∀ s, init s → init' s) (hstep : ∀ s a t, step s a t → step' s a t) {s : σ}
    (h : Reachable init step s) : Reachable init' step' s := by
  induction h with
  | start h0 => exact .start (hinit _ h0)
  | next _ hs ih => exact .next ih (hstep _ _ _ hs)

/-- A run with what happens in it: the state before each step, and the step's label. -/
inductive Path (step : σ → ι → σ → Prop) : σ → List (σ × ι) → σ → Prop where
  | nil {s : σ} : Path step s [] s
  | cons {s t u : σ} {a : ι} {rest : List (σ × ι)} :
      step s a t → Path step t rest u → Path step s ((s, a) :: rest) u

theorem Path.reachable {init : σ → Prop} {step : σ → ι → σ → Prop} {s t : σ} {taken : List (σ × ι)}
    (h : Path step s taken t) (hs : Reachable init step s) :
    ∀ p ∈ taken, Reachable init step p.1 := by
  induction h with
  | nil => simp
  | cons hstep _ ih => exact List.forall_mem_cons.mpr ⟨hs, ih (.next hs hstep)⟩

end Runs
