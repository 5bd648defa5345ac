import Hemiola.Hemiola

/-!
# Hemiola.SweepCursor

The loop of a sweep with its iterator. The range-for over `m_Captured` is a cursor that stands on
the entry examined and is advanced after the body; `erase` of the key of that very entry
invalidates the cursor, and a cursor that is not valid cannot be advanced. `sweepCursor` is `none`
when the loop takes such a step.

* `examine_kept`, `examine_expired`: one turn of the loop.
* `sweepFrom_eq`: the loop reaches the end exactly when it erases nothing.
* `sweep_of_sweepCursor`: a loop that reaches the end is that of `sweep`.
-/

set_option linter.dupNamespace false

namespace Hemiola

open Lib KeyTable

namespace Hemiola

/-- A cursor: the entries from the one it stands on to the end, or invalid. -/
inductive Cursor where
  | on (entries : List (Nat × Int))
  | invalid

/-- `++it`, which is defined for a valid cursor before the end. -/
def Cursor.advance : Cursor → Option Cursor
  | .on (_ :: entries) => some (.on entries)
  | .on [] => none
  | .invalid => none

/-- What `m_Captured.erase ( key )` does to a cursor. -/
def Cursor.erase (key : Nat) : Cursor → Cursor
  | .on (entry :: entries) =>
    if entry.1 = key then .invalid else .on (entry :: entries.filter fun e => e.1 ≠ key)
  | .on [] => .on []
  | .invalid => .invalid

/-- The variables of the loop, and the entries examined so far. -/
structure Swept where
  chord : Str
  captured : UnorderedMap Nat Int
  examined : List (Nat × Int)

/-- The body of the loop, the cursor standing on `entry`. -/
def examine (now : Nat → Int) (entry : Nat × Int) (cursor : Cursor) (swept : Swept) :
    Cursor × Swept :=
  let examined := swept.examined ++ [entry]
  if now entry.1 - entry.2 ≥ mTimeThreshold then
    (cursor.erase entry.1,
     ⟨swept.chord ++ charKeys entry.1, swept.captured.erase entry.1, examined⟩)
  else (cursor, { swept with examined := examined })

/-- The number of entries before the end. -/
def Cursor.left : Cursor → Nat
  | .on entries => entries.length
  | .invalid => 0

theorem Cursor.left_advance {cursor cursor' : Cursor} (h : cursor.advance = some cursor') :
    cursor'.left < cursor.left := by
  cases cursor with
  | invalid => cases h
  | on entries =>
    cases entries with
    | nil => cases h
    | cons entry entries =>
      cases h
      exact Nat.lt_succ_self _

theorem Cursor.left_erase (key : Nat) (cursor : Cursor) :
    (cursor.erase key).left ≤ cursor.left := by
  cases cursor with
  | invalid => exact Nat.le_refl _
  | on entries =>
    cases entries with
    | nil => exact Nat.le_refl _
    | cons entry entries =>
      simp only [erase]
      split_ifs
      · exact Nat.zero_le _
      · exact Nat.succ_le_succ (List.length_filter_le _ _)

theorem left_examine (now : Nat → Int) (entry : Nat × Int) (cursor : Cursor) (swept : Swept) :
    (examine now entry cursor swept).1.left ≤ cursor.left := by
  simp only [examine]
  split_ifs
  · exact cursor.left_erase entry.1
  · exact Nat.le_refl _

/-- The loop from a cursor on. -/
def sweepFrom (now : Nat → Int) (cursor : Cursor) (swept : Swept) : Option Swept :=
  match cursor with
  | .invalid => none
  | .on [] => some swept
  | .on (entry :: entries) =>
    match _h : (examine now entry (.on (entry :: entries)) swept).1.advance with
    | none => none
    | some cursor => sweepFrom now cursor (examine now entry (.on (entry :: entries)) swept).2
termination_by cursor.left
decreasing_by
  exact (Cursor.left_advance ‹_›).trans_le (left_examine now entry _ swept)

/-- The loop of a sweep. -/
def sweepCursor (this : Hemiola) (ord : KeyOrder) (now : Nat → Int) : Option Swept :=
  sweepFrom now (.on (ord.list this.mCaptured)) ⟨[], this.mCaptured, []⟩

/-! ## One turn -/

theorem examine_kept {now : Nat → Int} {entry : Nat × Int} (h : isExpired now entry = false)
    (cursor : Cursor) (swept : Swept) :
    examine now entry cursor swept =
      (cursor, { swept with examined := swept.examined ++ [entry] }) :=
  if_neg (of_decide_eq_false h)

theorem examine_expired {now : Nat → Int} {entry : Nat × Int} (h : isExpired now entry = true)
    (entries : List (Nat × Int)) (swept : Swept) :
    (examine now entry (.on (entry :: entries)) swept).1 = .invalid := by
  rw [examine, if_pos (of_decide_eq_true h)]
  exact if_pos rfl

/-! ## The loop -/

theorem sweepFrom_eq (now : Nat → Int) (entries : List (Nat × Int)) (swept : Swept) :
    sweepFrom now (.on entries) swept =
      if ∀ entry ∈ entries, isExpired now entry = false then
        some { swept with examined := swept.examined ++ entries }
      else none := by
  induction entries generalizing swept with
  | nil =>
    rw [sweepFrom, if_pos (List.forall_mem_nil _), List.append_nil]
  | cons entry entries ih =>
    rw [sweepFrom]
    cases hx : isExpired now entry with
    | true =>
      have hany : ¬ ∀ e ∈ entry :: entries, isExpired now e = false := fun h => by
        rw [h entry List.mem_cons_self] at hx
        cases hx
      rw [if_neg hany]
      split
      · rfl
      · next cursor hadvance =>
        rw [examine_expired hx] at hadvance
        cases hadvance
    | false =>
      split
      · next hadvance =>
        rw [examine_kept hx] at hadvance
        cases hadvance
      · next cursor hadvance =>
        rw [examine_kept hx] at hadvance ⊢
        cases hadvance
        have hall : (∀ e ∈ entry :: entries, isExpired now e = false) ↔
            ∀ e ∈ entries, isExpired now e = false := by
          rw [List.forall_mem_cons, and_iff_right hx]
        rw [ih]
        refine if_congr hall.symm ?_ rfl
        rw [List.append_assoc, List.singleton_append]

theorem foldl_sweepEntry_kept {now : Nat → Int} {entries : List (Nat × Int)}
    (h : ∀ entry ∈ entries, isExpired now entry = false) (acc : Str × UnorderedMap Nat Int) :
    entries.foldl (sweepEntry now) acc = acc := by
  induction entries with
  | nil => rfl
  | cons entry entries ih =>
    obtain ⟨hentry, hentries⟩ := List.forall_mem_cons.mp h
    have hkeep : sweepEntry now acc entry = acc := if_neg (of_decide_eq_false hentry)
    rw [List.foldl_cons, hkeep, ih hentries]

/-- **The cursor of a sweep**: the loop reaches the end, having examined every entry once, exactly
when no captured key has expired by the time it is examined. -/
theorem sweepCursor_defined_iff (this : Hemiola) (ord : KeyOrder) (now : Nat → Int) :
    (∃ swept, this.sweepCursor ord now = some swept ∧
      swept.examined.Perm this.mCaptured.entries) ↔
      ∀ entry ∈ this.mCaptured.entries, isExpired now entry = false := by
  have hmem : (∀ entry ∈ ord.list this.mCaptured, isExpired now entry = false) ↔
      ∀ entry ∈ this.mCaptured.entries, isExpired now entry = false := by
    simp only [ord.mem_list]
  rw [sweepCursor, sweepFrom_eq, ← hmem]
  constructor
  · intro h
    obtain ⟨swept, hsome, _⟩ := h
    by_contra hnot
    rw [if_neg hnot] at hsome
    cases hsome
  · intro h
    exact ⟨_, if_pos h, ord.perm this.mCaptured⟩

/-- A loop that reaches the end leaves what `sweep` leaves. -/
theorem sweep_of_sweepCursor {this : Hemiola} {ord : KeyOrder} {now : Nat → Int} {swept : Swept}
    (h : this.sweepCursor ord now = some swept) :
    this.sweep ord now = (swept.chord, { this with mCaptured := swept.captured }) := by
  rw [sweepCursor, sweepFrom_eq] at h
  split_ifs at h with hkept
  obtain rfl := Option.some.inj h
  rw [sweep, foldl_sweepEntry_kept hkept]

/-- A key held longer than the threshold: its entry is erased under the cursor. -/
theorem sweepCursor_undefined :
    ¬ ∀ (ops : List Op) (ord : KeyOrder) (now : Nat → Int),
      ∃ swept, (init.run ops).sweepCursor ord now = some swept ∧
        swept.examined.Perm (init.run ops).mCaptured.entries := by
  intro h
  let ord := UnorderedMap.Order.stored Nat Int
  obtain ⟨swept, hsome, _⟩ := h [.addKey ord 0 keyA] ord fun _ => mTimeThreshold
  rw [sweepCursor, sweepFrom_eq, if_neg (by decide)] at hsome
  cases hsome

end Hemiola
end Hemiola
