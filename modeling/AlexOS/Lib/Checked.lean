import Mathlib.Algebra.Ring.Int.Defs
import Mathlib.Algebra.Ring.Nat

/-!
# Code that panics

Arithmetic on words of `w` bits with overflow checks on, slicing with bounds checks,
and code that returns a value, returns an error or panics. `none` is the panic.
-/

namespace AlexOS.Checked

variable {α β ε : Type} {w a b : Nat}

def add (w a b : Nat) : Option Nat := if a + b < 2 ^ w then some (a + b) else none

def sub (a b : Nat) : Option Nat := if b ≤ a then some (a - b) else none

def mul (w a b : Nat) : Option Nat := if a * b < 2 ^ w then some (a * b) else none

/-- Rounding `a` up to a multiple of `b` adds only when there is something to add. -/
def roundUp (w a b : Nat) : Option Nat :=
  if a % b = 0 then some a
  else do
    let gap ← sub b (a % b)
    add w a gap

/-- A sum with a signed number; what does not fit is no panic of its own. -/
def addSigned (w a : Nat) (d : Int) : Option Nat :=
  if 0 ≤ a + d ∧ a + d < 2 ^ w then some (a + d).toNat else none

/-- `xs[a..b]`. -/
def slice (xs : List α) (a b : Nat) : Option (List α) :=
  if a ≤ b ∧ b ≤ xs.length then some ((xs.drop a).take (b - a)) else none

theorem add_some (h : a + b < 2 ^ w) : add w a b = some (a + b) := if_pos h

theorem add_none (h : 2 ^ w ≤ a + b) : add w a b = none := if_neg (Nat.not_lt.mpr h)

theorem sub_some (h : b ≤ a) : sub a b = some (a - b) := if_pos h

theorem mul_some (h : a * b < 2 ^ w) : mul w a b = some (a * b) := if_pos h

theorem slice_some {xs : List α} (hab : a ≤ b) (hb : b ≤ xs.length) :
    slice xs a b = some ((xs.drop a).take (b - a)) := if_pos ⟨hab, hb⟩

theorem roundUp_some (hb : 0 < b) (h : (a + b - 1) / b * b < 2 ^ w) :
    roundUp w a b = some ((a + b - 1) / b * b) := by
  have hmod := Nat.mod_lt a hb
  have hdiv := Nat.div_add_mod a b
  by_cases hzero : a % b = 0
  · have : (a + b - 1) / b = a / b := by
      rw [show a + b - 1 = (b - 1) + b * (a / b) by omega, Nat.add_mul_div_left _ _ hb,
        Nat.div_eq_of_lt (by omega), Nat.zero_add]
    rw [roundUp, if_pos hzero, this, Nat.mul_comm]
    congr 1
    omega
  · have : (a + b - 1) / b = a / b + 1 := by
      rw [show a + b - 1 = (a % b - 1) + b * (a / b + 1) by rw [Nat.mul_add]; omega,
        Nat.add_mul_div_left _ _ hb, Nat.div_eq_of_lt (by omega), Nat.zero_add]
    have hnext : (a / b + 1) * b = a + (b - a % b) := by
      rw [Nat.add_mul, Nat.mul_comm]
      omega
    rw [this, hnext] at h ⊢
    rw [roundUp, if_neg hzero, sub_some (Nat.le_of_lt hmod)]
    exact add_some h

/-- Code is the same when its first step is, and what follows that step. -/
theorem bind_eq {x y : Option α} {f g : α → Option β} (hx : x = y)
    (hf : ∀ a, y = some a → f a = g a) : x >>= f = y >>= g := by
  subst hx
  exact Option.bind_congr hf

/-! ## Errors and panics -/

/-- A value, an error, or a panic. -/
abbrev Fallible (ε : Type) := ExceptT ε Option

def lift (x : Option α) : Fallible ε α := ExceptT.lift x

/-- `ok_or`: what is missing is an error and not a panic. -/
def okOr (x : Option α) (e : ε) : Fallible ε α :=
  match x with
  | some a => pure a
  | none => throw e

variable {x : Fallible ε α} {y : Except ε α} {f : α → Fallible ε β} {g : α → Except ε β}

/-- Code that does not panic step by step does not panic. -/
theorem run_bind (hx : x.run = some y) (hf : ∀ a, y = .ok a → (f a).run = some (g a)) :
    (x >>= f).run = some (y >>= g) := by
  rw [ExceptT.run_bind, hx]
  cases y with
  | error e => rfl
  | ok a => exact hf a rfl

theorem run_bind_lift {o : Option α} {a : α} (ho : o = some a) {z : Except ε β}
    (hf : (f a).run = some z) : (lift o >>= f).run = some z := by
  subst ho
  exact hf

end AlexOS.Checked
