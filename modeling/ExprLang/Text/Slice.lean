/-!
# Signed bounds

A bound of a slice is an integer: it counts from the end when it is negative, and falls on an end
of the sequence when it lies outside.

## Implementation notes

Slices are taken of lists, so that the lines of a program and the characters of a line share them.
-/

namespace ExprLang.Text

variable {α : Type}

/-- The place of a signed bound in a sequence of `size` items. -/
def bound (size : Nat) (i : Int) : Nat :=
  if i < 0 then (i + size).toNat else min i.toNat size

/-- The items before a signed bound. -/
def before (items : List α) (stop : Int) : List α :=
  items.take (bound items.length stop)

/-- The items from a signed bound on. -/
def since (items : List α) (start : Int) : List α :=
  items.drop (bound items.length start)

/-- The items from one signed bound up to another, none if the bounds cross. -/
def slice (items : List α) (start stop : Int) : List α :=
  (before items stop).drop (bound items.length start)

/-- A bound inside the sequence stands for itself. -/
@[simp] theorem bound_natCast {size n : Nat} (h : n ≤ size) : bound size (n : Int) = n := by
  have hn : ¬ ((n : Int) < 0) := by omega
  simp [bound, hn, Nat.min_eq_left h]

end ExprLang.Text
