import Mathlib.Data.List.Basic

/-!
# Lib.PriorityQueue

`std::priority_queue` as its documentation has it: `comp a b` says that `a` comes after `b`, and
`top` is one of the elements that come after no other. Which of them it is, when there are
several, is up to the implementation, so an implementation is a structure: what `top` returns for
the elements pushed so far, with that property.

* `best_spec`: scanning a list finds such an element, if `comp` is a strict weak order.
* `favouring_top`: every element that may be on top is on top in some implementation.
-/

namespace Lib

structure PriorityQueue (α : Type*) (comp : α → α → Bool) where
  top : ∀ l : List α, l ≠ [] → α
  mem : ∀ l h, top l h ∈ l
  first : ∀ l h, ∀ a ∈ l, comp (top l h) a = false

namespace PriorityQueue

variable {α : Type*} {comp : α → α → Bool}

/-- The scan that keeps the element at hand until one comes that goes before it. -/
def best (comp : α → α → Bool) : α → List α → α
  | a, [] => a
  | a, b :: l => best comp (if comp a b then b else a) l

theorem best_mem (a : α) (l : List α) : best comp a l ∈ a :: l := by
  induction l generalizing a with
  | nil => exact List.mem_singleton_self a
  | cons b l ih =>
    rw [best]
    rcases List.mem_cons.mp (ih (if comp a b then b else a)) with h | h
    · rw [h]
      split_ifs
      · exact List.mem_cons_of_mem _ List.mem_cons_self
      · exact List.mem_cons_self
    · exact List.mem_cons_of_mem _ (List.mem_cons_of_mem _ h)

theorem best_of_first {a : α} {l : List α} (h : ∀ b ∈ l, comp a b = false) :
    best comp a l = a := by
  induction l with
  | nil => rfl
  | cons b l ih =>
    obtain ⟨hb, h⟩ := List.forall_mem_cons.mp h
    rw [best, hb]
    exact ih h

/-- The laws of a strict weak order that the scan needs. -/
structure Weak (comp : α → α → Bool) : Prop where
  irrefl : ∀ a, comp a a = false
  asymm : ∀ a b, comp a b = true → comp b a = false
  trans : ∀ a b c, comp a b = false → comp b c = false → comp a c = false

theorem best_spec (hcomp : Weak comp) (a : α) (l : List α) :
    ∀ b ∈ a :: l, comp (best comp a l) b = false := by
  induction l generalizing a with
  | nil =>
    intro b hb
    rw [List.mem_singleton.mp hb]
    exact hcomp.irrefl a
  | cons c l ih =>
    rw [best]
    generalize hnext : (if comp a c then c else a) = next
    obtain ⟨hbest, hl⟩ := List.forall_mem_cons.mp (ih next)
    have hac : comp next a = false ∧ comp next c = false := by
      rw [← hnext]
      split_ifs with h
      · exact ⟨hcomp.asymm a c h, hcomp.irrefl c⟩
      · exact ⟨hcomp.irrefl a, eq_false_of_ne_true h⟩
    intro b hb
    rcases List.mem_cons.mp hb with rfl | hb
    · exact hcomp.trans _ _ _ hbest hac.1
    · rcases List.mem_cons.mp hb with rfl | hb
      · exact hcomp.trans _ _ _ hbest hac.2
      · exact hl b hb

/-- The implementation that puts `a` on top whenever it may. -/
def favouring [DecidableEq α] (hcomp : Weak comp) (a : α) : PriorityQueue α comp where
  top l h := best comp (if a ∈ l then a else l.head h) l
  mem l h := by
    rcases List.mem_cons.mp (best_mem (if a ∈ l then a else l.head h) l) with hbest | hbest
    · rw [hbest]
      split_ifs with ha
      · exact ha
      · exact List.head_mem h
    · exact hbest
  first l h b hb := best_spec hcomp _ l b (List.mem_cons_of_mem _ hb)

theorem favouring_top [DecidableEq α] (hcomp : Weak comp) {a : α} {l : List α} (h : l ≠ [])
    (ha : a ∈ l) (hfirst : ∀ b ∈ l, comp a b = false) :
    (favouring hcomp a).top l h = a := by
  show best comp (if a ∈ l then a else l.head h) l = a
  rw [if_pos ha, best_of_first hfirst]

end PriorityQueue
end Lib
