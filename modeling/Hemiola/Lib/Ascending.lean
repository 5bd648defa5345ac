import Mathlib.Order.Basic

/-!
# Lib.Ascending

`Ascending a xs b`: the values `xs` never go down, and they lie between `a` and `b`. These are the
readings of a clock that are made one after another, from the time `a` to the time `b`.

* `Ascending.append`: readings after readings.
* `Ascending.widen`: the bounds may lie further apart.
* `Ascending.concat`: one more reading, at the present time.
-/

namespace Lib

variable {α : Type*}

def Ascending [LE α] (a : α) : List α → α → Prop
  | [], b => a ≤ b
  | x :: xs, b => a ≤ x ∧ Ascending x xs b

namespace Ascending

variable [Preorder α] {a a' b b' x : α} {xs ys : List α}

theorem widen (h : Ascending a xs b) (ha : a' ≤ a) (hb : b ≤ b') : Ascending a' xs b' := by
  induction xs generalizing a a' with
  | nil => exact (ha.trans h).trans hb
  | cons x xs ih => exact ⟨ha.trans h.1, ih h.2 le_rfl⟩

theorem append (h : Ascending a xs x) (h' : Ascending x ys b) : Ascending a (xs ++ ys) b := by
  induction xs generalizing a with
  | nil => exact h'.widen h le_rfl
  | cons y xs ih => exact ⟨h.1, ih h.2⟩

theorem concat (h : Ascending a xs b) : Ascending a (xs ++ [b]) b := h.append ⟨le_rfl, le_rfl⟩

/-- Readings at one and the same time. -/
theorem const (h : ∀ x ∈ xs, x = a) : Ascending a xs a := by
  induction xs with
  | nil => exact le_rfl
  | cons x xs ih =>
    obtain ⟨rfl, hxs⟩ := List.forall_mem_cons.mp h
    exact ⟨le_rfl, ih hxs⟩

end Ascending
end Lib
