import Mathlib.Data.List.Basic
import Mathlib.Logic.Function.Basic
import Mathlib.Tactic.Common

/-!
A place that keeps, for each key, the last message that reached it, and the messages under way
to it. They may come late, in another order, more than once, or not at all.
-/

set_option autoImplicit false

structure Depot (κ μ : Type) where
  held : κ → Option μ
  flying : List μ

namespace Depot

variable {κ μ : Type}

def empty : Depot κ μ := ⟨fun _ => none, []⟩

def send (d : Depot κ μ) (m : μ) : Depot κ μ := { d with flying := d.flying ++ [m] }

/-- The message at a position arrives, perhaps to arrive again, or is lost. -/
inductive Move where
  | land (i : Nat) (again : Bool)
  | lose (i : Nat)

section Moves

variable [DecidableEq κ] (keyOf : μ → κ)

def move (d : Depot κ μ) : Move → Option (Depot κ μ)
  | .land i again => d.flying[i]?.map fun m =>
      ⟨Function.update d.held (keyOf m) (some m), if again then d.flying else d.flying.eraseIdx i⟩
  | .lose i => d.flying[i]?.map fun _ => { d with flying := d.flying.eraseIdx i }

/-- Everything held is under its key, and is, like all that is under way, one of `P`. -/
structure Holds (P : μ → Prop) (d : Depot κ μ) : Prop where
  flying : ∀ m ∈ d.flying, P m
  held : ∀ k m, d.held k = some m → keyOf m = k ∧ P m

def Within (d d' : Depot κ μ) : Prop := ∀ k, (d.held k).isSome → (d'.held k).isSome

end Moves

theorem Within.refl (d : Depot κ μ) : d.Within d := fun _ h => h

theorem Within.trans {a b c : Depot κ μ} (h : a.Within b) (h' : b.Within c) : a.Within c :=
  fun k hk => h' k (h k hk)

theorem within_send (d : Depot κ μ) (m : μ) : d.Within (d.send m) := fun _ h => h

variable [DecidableEq κ] {keyOf : μ → κ} {P : μ → Prop} {d d' : Depot κ μ}

omit [DecidableEq κ] in
theorem Holds.send (h : d.Holds keyOf P) {m : μ} (hm : P m) : (d.send m).Holds keyOf P := by
  refine ⟨fun x hx => ?_, h.held⟩
  rcases List.mem_append.mp hx with hx | hx
  · exact h.flying x hx
  · rw [List.mem_singleton.mp hx]
    exact hm

theorem Holds.move (h : d.Holds keyOf P) {a : Move} (ha : d.move keyOf a = some d') :
    d'.Holds keyOf P := by
  cases a with
  | land i again =>
    obtain ⟨m, hm, rfl⟩ := Option.map_eq_some_iff.mp ha
    have hmem := List.mem_of_getElem? hm
    refine ⟨fun x hx => ?_, fun k x hx => ?_⟩
    · simp only at hx
      split at hx
      · exact h.flying x hx
      · exact h.flying x (List.mem_of_mem_eraseIdx hx)
    · by_cases hk : k = keyOf m
      · subst hk
        simp only [Function.update_self, Option.some.injEq] at hx
        subst hx
        exact ⟨rfl, h.flying _ hmem⟩
      · simp only [Function.update_of_ne hk] at hx
        exact h.held k x hx
  | lose i =>
    obtain ⟨m, hm, rfl⟩ := Option.map_eq_some_iff.mp ha
    exact ⟨fun x hx => h.flying x (List.mem_of_mem_eraseIdx hx), h.held⟩

theorem within_move {a : Move} (ha : d.move keyOf a = some d') : d.Within d' := by
  intro k hk
  cases a with
  | land i again =>
    obtain ⟨m, -, rfl⟩ := Option.map_eq_some_iff.mp ha
    by_cases hm : k = keyOf m
    · subst hm
      simp
    · simpa [Function.update_of_ne hm] using hk
  | lose i =>
    obtain ⟨m, -, rfl⟩ := Option.map_eq_some_iff.mp ha
    exact hk

def Before (keyOf : μ → κ) (d : Depot κ μ) (i : Nat) (k : κ) : Prop :=
  (d.held k).isSome ∨ ∃ m ∈ d.flying.take i, keyOf m = k

def Sent (keyOf : μ → κ) (d : Depot κ μ) (k : κ) : Prop :=
  (d.held k).isSome ∨ ∃ m ∈ d.flying, keyOf m = k

/-- `needs` of every message is there or comes before it. -/
structure Orderly (keyOf : μ → κ) (needs : μ → List κ) (d : Depot κ μ) : Prop where
  held : ∀ k m, d.held k = some m → ∀ n ∈ needs m, (d.held n).isSome
  flying : ∀ i m, d.flying[i]? = some m → ∀ n ∈ needs m, d.Before keyOf i n

variable {needs : μ → List κ}

omit [DecidableEq κ] in
theorem Before.send {i : Nat} {k : κ} (h : d.Before keyOf i k) (m : μ) (hi : i ≤ d.flying.length) :
    (d.send m).Before keyOf i k := by
  refine h.imp_right fun hm => ?_
  obtain ⟨x, hx, hk⟩ := hm
  exact ⟨x, by rwa [Depot.send, List.take_append_of_le_length hi], hk⟩

omit [DecidableEq κ] in
theorem Sent.send {k : κ} (h : d.Sent keyOf k) (m : μ) : (d.send m).Sent keyOf k := by
  refine h.imp_right fun hm => ?_
  obtain ⟨x, hx, hk⟩ := hm
  exact ⟨x, List.mem_append_left _ hx, hk⟩

omit [DecidableEq κ] in
theorem sent_send (d : Depot κ μ) (m : μ) : (d.send m).Sent keyOf (keyOf m) :=
  .inr ⟨m, List.mem_append_right _ (List.mem_singleton_self m), rfl⟩

omit [DecidableEq κ] in
theorem Sent.before {k : κ} (h : d.Sent keyOf k) : d.Before keyOf d.flying.length k := by
  rwa [Before, List.take_length]

theorem Sent.land {k : κ} {i : Nat} {again : Bool} (h : d.Sent keyOf k)
    (ha : d.move keyOf (.land i again) = some d') : d'.Sent keyOf k := by
  obtain ⟨m, hm, rfl⟩ := Option.map_eq_some_iff.mp ha
  by_cases hk : k = keyOf m
  · subst hk
    left
    simp
  · rcases h with h | ⟨x, hx, hxk⟩
    · left
      simpa [Function.update_of_ne hk] using h
    · right
      refine ⟨x, ?_, hxk⟩
      split
      · exact hx
      · refine (List.mem_eraseIdx_iff_getElem?.mpr ?_)
        obtain ⟨j, hj⟩ := List.getElem?_of_mem hx
        refine ⟨j, fun hij => ?_, hj⟩
        subst hij
        rw [hm, Option.some.injEq] at hj
        exact hk (hj ▸ hxk.symm)

omit [DecidableEq κ] in
/-- A message may be sent once what it needs has been. -/
theorem Orderly.send (h : d.Orderly keyOf needs) {m : μ} (hm : ∀ n ∈ needs m, d.Sent keyOf n) :
    (d.send m).Orderly keyOf needs := by
  refine ⟨h.held, fun i x hx n hn => ?_⟩
  rcases Nat.lt_or_ge i d.flying.length with hi | hi
  · rw [Depot.send, List.getElem?_append_left hi] at hx
    exact (h.flying i x hx n hn).send m (Nat.le_of_lt hi)
  · have hlt := (List.getElem?_eq_some_iff.mp hx).1
    simp only [Depot.send, List.length_append, List.length_singleton] at hlt
    have hlast : i = d.flying.length := by omega
    subst hlast
    rw [Depot.send, List.getElem?_append_right (Nat.le_refl _), Nat.sub_self] at hx
    cases hx
    exact (hm n hn).before.send m (Nat.le_refl _)

theorem Before.land {m : μ} {rest : List μ} (hd : d.flying = m :: rest) {i : Nat} {k : κ}
    (h : d.Before keyOf (i + 1) k) :
    Before keyOf ⟨Function.update d.held (keyOf m) (some m), rest⟩ i k := by
  by_cases hk : k = keyOf m
  · subst hk
    left
    simp
  · rcases h with h | ⟨x, hx, hxk⟩
    · left
      simpa [Function.update_of_ne hk] using h
    · rw [hd, List.take_succ_cons, List.mem_cons] at hx
      rcases hx with rfl | hx
      · exact absurd hxk.symm hk
      · exact .inr ⟨x, hx, hxk⟩

theorem Orderly.land (h : d.Orderly keyOf needs) (ha : d.move keyOf (.land 0 false) = some d') :
    d'.Orderly keyOf needs := by
  obtain ⟨m, hm, rfl⟩ := Option.map_eq_some_iff.mp ha
  obtain ⟨rest, hd⟩ : ∃ rest, d.flying = m :: rest := by
    cases hf : d.flying with
    | nil =>
      rw [hf] at hm
      cases hm
    | cons x rest =>
      rw [hf] at hm
      cases hm
      exact ⟨rest, rfl⟩
  have hwithin := within_move ha
  simp only [hd, Bool.false_eq_true, if_false, List.eraseIdx_cons_zero] at hwithin ⊢
  refine ⟨fun k x hx n hn => ?_, fun i x hx n hn => ?_⟩
  · by_cases hk : k = keyOf m
    · subst hk
      simp only [Function.update_self, Option.some.injEq] at hx
      subst hx
      rcases h.flying 0 m hm n hn with hheld | ⟨y, hy, -⟩
      · exact hwithin n hheld
      · cases hy
    · simp only [Function.update_of_ne hk] at hx
      exact hwithin n (h.held k x hx n hn)
  · exact (h.flying (i + 1) x (by rw [hd]; exact hx) n hn).land hd

end Depot
