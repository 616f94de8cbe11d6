import Mathlib.Data.List.Basic
import Mathlib.Tactic.Common

/-!
Sequential programs over a state, whose primitive actions take their outcome from an
outside sequence and which may stop with an error; and the rules of pre- and
postconditions for them. A postcondition is given for both ways out, and no assertion
speaks of the sequence, so a proved triple holds whatever the outcomes are.
-/

set_option autoImplicit false

namespace Program

variable {σ ω ε α β : Type}

/-- The outcomes to come, the number of those used up, and the state. -/
def Prog (σ ω ε α : Type) := (Nat → ω) → Nat → σ → Except ε α × Nat × σ

namespace Prog

def ret (a : α) : Prog σ ω ε α := fun _ n s => (.ok a, n, s)

def seq (m : Prog σ ω ε α) (k : α → Prog σ ω ε β) : Prog σ ω ε β := fun io n s =>
  match m io n s with
  | (.ok a, n, s) => k a io n s
  | (.error e, n, s) => (.error e, n, s)

instance : Monad (Prog σ ω ε) where
  pure := ret
  bind := seq

instance : LawfulMonad (Prog σ ω ε) := LawfulMonad.mk' _
  (fun m => by
    funext io n s
    show seq m (fun a => ret (id a)) io n s = m io n s
    unfold seq
    generalize m io n s = out
    obtain ⟨r, n', t⟩ := out
    cases r <;> rfl)
  (fun _ _ => rfl)
  (fun m f g => by
    funext io n s
    show seq (seq m f) g io n s = seq m (fun a => seq (f a) g) io n s
    simp only [seq]
    generalize m io n s = out
    obtain ⟨r, n', t⟩ := out
    cases r <;> rfl)

def fail (e : ε) : Prog σ ω ε α := fun _ n s => (.error e, n, s)

def lift : Except ε α → Prog σ ω ε α
  | .ok a => ret a
  | .error e => fail e

def act (f : ω → σ → α × σ) : Prog σ ω ε α := fun io n s =>
  let r := f (io n) s
  (.ok r.1, n + 1, r.2)

def moment : Prog σ ω ε Nat := fun _ n s => (.ok n, n, s)

end Prog

open Prog

/-- `Q` of a normal end, `E` of the state an error leaves. -/
def Ends (Q : α → σ → Prop) (E : σ → Prop) : Except ε α × Nat × σ → Prop
  | (.ok a, _, s) => Q a s
  | (.error _, _, s) => E s

def Triple (P : σ → Prop) (m : Prog σ ω ε α) (Q : α → σ → Prop) (E : σ → Prop) : Prop :=
  ∀ io n s, P s → Ends Q E (m io n s)

namespace Triple

variable {P P' R : σ → Prop} {Q Q' : α → σ → Prop} {E E' : σ → Prop}
  {m : Prog σ ω ε α} {k : α → Prog σ ω ε β} {U : β → σ → Prop}

theorem ret {a : α} (h : ∀ s, P s → Q a s) : Triple P (pure a : Prog σ ω ε α) Q E :=
  fun _ _ s hs => h s hs

theorem trivial : Triple P m (fun _ _ => True) fun _ => True := by
  intro io n s _
  generalize m io n s = out
  obtain ⟨r, n', t⟩ := out
  cases r with
  | ok a => exact True.intro
  | error e => exact True.intro

theorem fail {e : ε} (h : ∀ s, P s → E s) : Triple P (Prog.fail e : Prog σ ω ε α) Q E :=
  fun _ _ s hs => h s hs

theorem bind (hm : Triple P m Q E) (hk : ∀ a, Triple (Q a) (k a) U E) :
    Triple P (m >>= k) U E := by
  intro io n s hs
  have first := hm io n s hs
  show Ends U E (seq m k io n s)
  unfold seq
  generalize m io n s = out at first ⊢
  obtain ⟨r, n', t⟩ := out
  cases r with
  | ok a => exact hk a io n' t first
  | error e => exact first

theorem conseq (hm : Triple P m Q E) (hp : ∀ s, P' s → P s) (hq : ∀ a s, Q a s → Q' a s)
    (he : ∀ s, E s → E' s) : Triple P' m Q' E' := by
  intro io n s hs
  have inner := hm io n s (hp s hs)
  generalize m io n s = out at inner ⊢
  obtain ⟨r, n', t⟩ := out
  cases r with
  | ok a => exact hq a t inner
  | error e => exact he t inner

theorem pre (hm : Triple P m Q E) (hp : ∀ s, P' s → P s) : Triple P' m Q E :=
  hm.conseq hp (fun _ _ h => h) (fun _ h => h)

theorem post (hm : Triple P m Q E) (hq : ∀ a s, Q a s → Q' a s) : Triple P m Q' E :=
  hm.conseq (fun _ h => h) hq (fun _ h => h)

theorem act {f : ω → σ → α × σ} (h : ∀ o s, P s → Q (f o s).1 (f o s).2) :
    Triple P (Prog.act f : Prog σ ω ε α) Q E :=
  fun io n s hs => h (io n) s hs

theorem moment {Q : Nat → σ → Prop} (h : ∀ n s, P s → Q n s) :
    Triple P (Prog.moment : Prog σ ω ε Nat) Q E :=
  fun _ n s hs => h n s hs

theorem lift {r : Except ε α} (hok : ∀ a s, r = .ok a → P s → Q a s)
    (herr : ∀ e s, r = .error e → P s → E s) : Triple P (Prog.lift r : Prog σ ω ε α) Q E := by
  cases r with
  | ok a => exact fun _ _ s hs => hok a s rfl hs
  | error e => exact fun _ _ s hs => herr e s rfl hs

theorem of_pre {φ : Prop} (h : φ → Triple P m Q E) : Triple (fun s => φ ∧ P s) m Q E :=
  fun io n s hs => h hs.1 io n s hs.2

theorem lift_bind {r : Except ε α} {a : α} (hr : r = .ok a) (hk : Triple P (k a) U E) :
    Triple P (Prog.lift r >>= k) U E := by
  subst hr
  exact Triple.bind (Q := fun x s => x = a ∧ P s) (fun _ _ _ hs => ⟨rfl, hs⟩) fun x =>
    of_pre fun hx => hx ▸ hk

/-- The loop rule: the invariant speaks of the elements already handled. -/
theorem forM {I : List β → σ → Prop} {body : β → Prog σ ω ε PUnit} (xs : List β)
    (step : ∀ done x rest, xs = done ++ x :: rest →
      Triple (I done) (body x) (fun _ => I (done ++ [x])) E) :
    Triple (I []) (xs.forM body) (fun _ => I xs) E := by
  suffices h : ∀ rest done, xs = done ++ rest →
      Triple (I done) (rest.forM body) (fun _ => I xs) E from h xs [] rfl
  intro rest
  induction rest with
  | nil =>
    intro done hx
    rw [List.append_nil] at hx
    exact Triple.ret fun s hs => hx ▸ hs
  | cons x rest ih =>
    intro done hx
    exact (step done x rest hx).bind fun _ => ih (done ++ [x]) (by simp [hx])

theorem final {T : σ → Prop} (hm : Triple P m (fun _ => T) T) (io : Nat → ω) (n : Nat) {s : σ}
    (hs : P s) : T (m io n s).2.2 := by
  have ends := hm io n s hs
  generalize m io n s = out at ends ⊢
  obtain ⟨r, n', t⟩ := out
  cases r with
  | ok a => exact ends
  | error e => exact ends

theorem of_ok (hm : Triple P m Q E) {io : Nat → ω} {n : Nat} {s : σ} (hs : P s) {a : α}
    (hr : (m io n s).1 = .ok a) : Q a (m io n s).2.2 := by
  have ends := hm io n s hs
  generalize m io n s = out at ends hr ⊢
  obtain ⟨r, n', t⟩ := out
  cases hr
  exact ends

end Triple

/-- Under the outcomes `io` the program comes to its normal end from every state with `P`,
and `Q` holds there. -/
def Total (io : Nat → ω) (P : σ → Prop) (m : Prog σ ω ε α) (Q : α → σ → Prop) : Prop :=
  ∀ n s, P s → ∃ a n' s', m io n s = (.ok a, n', s') ∧ Q a s'

namespace Total

variable {io : Nat → ω} {P P' : σ → Prop} {Q Q' : α → σ → Prop} {m : Prog σ ω ε α}
  {k : α → Prog σ ω ε β} {U : β → σ → Prop}

theorem ret {a : α} (h : ∀ s, P s → Q a s) : Total io P (pure a : Prog σ ω ε α) Q :=
  fun n s hs => ⟨a, n, s, rfl, h s hs⟩

theorem bind (hm : Total io P m Q) (hk : ∀ a, Total io (Q a) (k a) U) : Total io P (m >>= k) U := by
  intro n s hs
  obtain ⟨a, n', s', hrun, hq⟩ := hm n s hs
  obtain ⟨b, n'', s'', hrest, hu⟩ := hk a n' s' hq
  refine ⟨b, n'', s'', ?_, hu⟩
  show seq m k io n s = _
  simp only [seq, hrun, hrest]

theorem conseq (hm : Total io P m Q) (hp : ∀ s, P' s → P s) (hq : ∀ a s, Q a s → Q' a s) :
    Total io P' m Q' := by
  intro n s hs
  obtain ⟨a, n', s', hrun, h⟩ := hm n s (hp s hs)
  exact ⟨a, n', s', hrun, hq a s' h⟩

theorem of_pre {φ : Prop} (h : φ → Total io P m Q) : Total io (fun s => φ ∧ P s) m Q :=
  fun n s hs => h hs.1 n s hs.2

theorem lift_bind {r : Except ε α} {a : α} (hr : r = .ok a) (hk : Total io P (k a) U) :
    Total io P (Prog.lift r >>= k) U := by
  subst hr
  exact hk

theorem moment {Q : Nat → σ → Prop} (h : ∀ n s, P s → Q n s) :
    Total io P (Prog.moment : Prog σ ω ε Nat) Q :=
  fun n s hs => ⟨n, n, s, rfl, h n s hs⟩

theorem act {f : ω → σ → α × σ} (h : ∀ n s, P s → Q (f (io n) s).1 (f (io n) s).2) :
    Total io P (Prog.act f : Prog σ ω ε α) Q :=
  fun n s hs => ⟨_, n + 1, _, rfl, h n s hs⟩

/-- What a triple says of a normal end holds of a run that comes to one. -/
theorem and_triple (hm : Total io P m Q) {E : σ → Prop} (ht : Triple P m Q' E) :
    Total io P m fun a s => Q a s ∧ Q' a s := by
  intro n s hs
  obtain ⟨a, n', s', hrun, hq⟩ := hm n s hs
  have hok : (m io n s).1 = .ok a := by rw [hrun]
  have hq' := ht.of_ok hs hok
  rw [hrun] at hq'
  exact ⟨a, n', s', hrun, hq, hq'⟩

theorem forM {I : List β → σ → Prop} {body : β → Prog σ ω ε PUnit} (xs : List β)
    (step : ∀ done x rest, xs = done ++ x :: rest →
      Total io (I done) (body x) (fun _ => I (done ++ [x]))) :
    Total io (I []) (xs.forM body) (fun _ => I xs) := by
  suffices h : ∀ rest done, xs = done ++ rest →
      Total io (I done) (rest.forM body) (fun _ => I xs) from h xs [] rfl
  intro rest
  induction rest with
  | nil =>
    intro done hx
    rw [List.append_nil] at hx
    exact Total.ret fun s hs => hx ▸ hs
  | cons x rest ih =>
    intro done hx
    exact (step done x rest hx).bind fun _ => ih (done ++ [x]) (by simp [hx])

end Total

end Program
