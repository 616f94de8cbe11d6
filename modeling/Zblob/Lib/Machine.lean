import Mathlib.Algebra.Group.Nat.Defs
import Mathlib.Data.Nat.Basic
import Mathlib.Tactic.Common

/-!
Unsigned arithmetic of a given width that stops where the result does not fit: a computation
that comes to an end here overflows nowhere.
-/

set_option autoImplicit false

namespace Machine

/-- A number that has to fit `w` bits, such as the argument of a narrowing cast. -/
def fit (w n : Nat) : Option Nat := if n < 2 ^ w then some n else none

def add (w a b : Nat) : Option Nat := fit w (a + b)

def mul (w a b : Nat) : Option Nat := fit w (a * b)

def sub (a b : Nat) : Option Nat := if b ≤ a then some (a - b) else none

def div (a b : Nat) : Option Nat := if b = 0 then none else some (a / b)

def mod (a b : Nat) : Option Nat := if b = 0 then none else some (a % b)

def shift (w k : Nat) : Option Nat := if k < w then some k else none

def divCeil (w a b : Nat) : Option Nat := do
  let q ← div a b
  let r ← mod a b
  if r > 0 then add w q 1 else some q

variable {w a b n : Nat}

@[simp] theorem fit_eq (h : n < 2 ^ w) : fit w n = some n := if_pos h

@[simp] theorem add_eq (h : a + b < 2 ^ w) : add w a b = some (a + b) := fit_eq h

@[simp] theorem mul_eq (h : a * b < 2 ^ w) : mul w a b = some (a * b) := fit_eq h

@[simp] theorem sub_eq (h : b ≤ a) : sub a b = some (a - b) := if_pos h

theorem div_eq (h : 0 < b) : div a b = some (a / b) := if_neg (by omega)

theorem mod_eq (h : 0 < b) : mod a b = some (a % b) := if_neg (by omega)

@[simp] theorem shift_eq (h : n < w) : shift w n = some n := if_pos h

theorem divCeil_eq (hb : 0 < b) (h : a / b + 1 < 2 ^ w) :
    divCeil w a b = some (a / b + if a % b > 0 then 1 else 0) := by
  simp only [divCeil, div_eq hb, mod_eq hb, Option.bind_eq_bind, Option.bind_some]
  split
  · exact add_eq h
  · rfl

end Machine
