import Mathlib.Data.List.Basic
import Mathlib.Tactic.Common

/-!
The first acceptable element of a list, for loops that skip what they cannot use.
-/

set_option autoImplicit false

variable {α β ε : Type}

/-- `b` is what the first acceptable element of `xs` stands for. -/
def First (P : α → β → Prop) (xs : List α) (b : β) : Prop :=
  ∃ before x after, xs = before ++ x :: after ∧ P x b ∧ ∀ y ∈ before, ∀ b', ¬ P y b'

/-- A result that succeeds exactly when something is acceptable, with the first such. -/
def Selects (P : α → β → Prop) (xs : List α) (r : Except ε β) : Prop :=
  ∀ b, r = .ok b ↔ First P xs b

namespace First

variable {P : α → β → Prop} {xs : List α} {b : β}

@[simp] theorem nil : ¬ First P [] b := by
  rintro ⟨before, x, after, h, -⟩
  simp at h

theorem cons {x : α} :
    First P (x :: xs) b ↔ P x b ∨ (∀ b', ¬ P x b') ∧ First P xs b := by
  constructor
  · rintro ⟨before, y, after, h, hy, hno⟩
    cases before with
    | nil =>
      cases h
      exact .inl hy
    | cons z before =>
      cases h
      exact .inr ⟨hno x (by simp), before, y, after, rfl, hy, fun w hw => hno w (by simp [hw])⟩
  · rintro (hx | ⟨hx, before, y, after, rfl, hy, hno⟩)
    · exact ⟨[], x, xs, rfl, hx, by simp⟩
    · refine ⟨x :: before, y, after, rfl, hy, fun w hw => ?_⟩
      rcases List.mem_cons.mp hw with rfl | hw
      · exact hx
      · exact hno w hw

theorem skip {x : α} (h : ∀ b', ¬ P x b') : First P (x :: xs) b ↔ First P xs b := by
  rw [cons]
  constructor
  · rintro (hx | hxs)
    · exact absurd hx (h b)
    · exact hxs.2
  · exact fun hxs => .inr ⟨h, hxs⟩

theorem exists_iff : (∃ b, First P xs b) ↔ ∃ x ∈ xs, ∃ b, P x b := by
  induction xs with
  | nil => simp
  | cons x xs ih =>
    by_cases hx : ∃ b, P x b
    · obtain ⟨b, hb⟩ := hx
      exact ⟨fun _ => ⟨x, by simp, b, hb⟩, fun _ => ⟨b, cons.mpr (.inl hb)⟩⟩
    · have hno : ∀ b', ¬ P x b' := fun b' hb => hx ⟨b', hb⟩
      simp only [skip hno, ih, List.mem_cons, exists_eq_or_imp, hx, false_or]

/-- An element stands for one thing only, so the first one does. -/
theorem unique (hP : ∀ x b b', P x b → P x b' → b = b') {b' : β} (h : First P xs b)
    (h' : First P xs b') : b = b' := by
  induction xs with
  | nil => exact absurd h nil
  | cons x xs ih =>
    rcases cons.mp h with hb | ⟨hno, hb⟩
    · rcases cons.mp h' with hb' | ⟨hno', -⟩
      · exact hP x b b' hb hb'
      · exact absurd hb (hno' b)
    · exact ih hb ((skip hno).mp h')

theorem of_sublist {x : α} {later : List α} (h : (x :: later).Sublist xs) (hx : P x b) :
    ∃ before y after b', xs = before ++ y :: after ∧ P y b' ∧ (∀ z ∈ before, ∀ b', ¬ P z b') ∧
      later.Sublist after := by
  induction xs with
  | nil => cases h
  | cons z xs ih =>
    by_cases hz : ∃ b', P z b'
    · obtain ⟨b', hb'⟩ := hz
      exact ⟨[], z, xs, b', rfl, hb', by simp, List.Sublist.of_cons_cons h⟩
    · have hne : x ≠ z := by
        rintro rfl
        exact hz ⟨b, hx⟩
      obtain ⟨before, y, after, b', rfl, hy, hno, hsub⟩ := ih (List.Sublist.of_cons_of_ne hne h)
      refine ⟨z :: before, y, after, b', rfl, hy, fun w hw b'' hw' => ?_, hsub⟩
      rcases List.mem_cons.mp hw with rfl | hw
      · exact hz ⟨b'', hw'⟩
      · exact hno w hw b'' hw'

end First

theorem selects_error {P : α → β → Prop} {xs : List α} (e : ε) (h : ∀ x ∈ xs, ∀ b, ¬ P x b) :
    Selects P xs (.error e : Except ε β) := by
  intro b
  constructor
  · intro hb
    cases hb
  · intro hb
    obtain ⟨x, hx, b', hb'⟩ := First.exists_iff.mp ⟨b, hb⟩
    exact absurd hb' (h x hx b')
