import Mathlib.Data.List.Induction

/-!
# Hemiola.Wakeup

The two threads of `main` and the condition variable between them. `main` holds the mutex from its
start, creates the capture thread, and gives the mutex up in `cv.wait`; the capture thread calls
`notify_all` without the mutex: in `onError` for each write that fails and for the read that does,
and once more when `capture` has returned. A notification wakes `main` only if it is waiting by
then, and `cv.wait` has no predicate that would tell it of an earlier one.

* `Step`: the steps of the two threads.
* `awaited_of_run`: a `main` that waits in time has a notification still to come.
* `no_lost_wakeup_iff`: `main` is never left waiting exactly when it waits in time.
-/

namespace Hemiola
namespace Wakeup

/-- Where `main` stands. -/
inductive MainAt where
  | starting | created | waiting | notified | joining | finished
deriving DecidableEq

/-- Where the capture thread stands; `reported` is after `onError` for the read that failed, and
`returned` after the last `notify_all`. -/
inductive CaptureAt where
  | absent | reading | reported | returned | ended
deriving DecidableEq

structure Threads where
  main : MainAt
  capture : CaptureAt
deriving DecidableEq

def init : Threads := ⟨.starting, .absent⟩

/-- `cv.notify_all ()` -/
def MainAt.notify : MainAt → MainAt
  | .waiting => .notified
  | main => main

inductive Action where
  | create | wait | wake | join
  | event | failedEvent | readError | lastNotify | finish
deriving DecidableEq

/-- The actions of the capture thread. -/
def Action.isCapture : Action → Bool
  | .create | .wait | .wake | .join => false
  | .event | .failedEvent | .readError | .lastNotify | .finish => true

/-- A step of one thread, the other standing anywhere. -/
inductive Step : Threads → Action → Threads → Prop where
  | create : Step ⟨.starting, .absent⟩ .create ⟨.created, .reading⟩
  | wait {capture} : Step ⟨.created, capture⟩ .wait ⟨.waiting, capture⟩
  | wake {capture} : Step ⟨.notified, capture⟩ .wake ⟨.joining, capture⟩
  | join : Step ⟨.joining, .ended⟩ .join ⟨.finished, .ended⟩
  | event {main} : Step ⟨main, .reading⟩ .event ⟨main, .reading⟩
  | failedEvent {main} : Step ⟨main, .reading⟩ .failedEvent ⟨main.notify, .reading⟩
  | readError {main} : Step ⟨main, .reading⟩ .readError ⟨main.notify, .reported⟩
  | lastNotify {main} : Step ⟨main, .reported⟩ .lastNotify ⟨main.notify, .returned⟩
  | finish {main} : Step ⟨main, .returned⟩ .finish ⟨main, .ended⟩

/-- The state after a series of steps from the start of the program. -/
inductive Run : List Action → Threads → Prop where
  | init : Run [] init
  | step {acts : List Action} {s t : Threads} {a : Action} :
      Run acts s → Step s a t → Run (acts ++ [a]) t

/-- The capture thread has ended and `main` waits. -/
def Lost (s : Threads) : Prop := s.capture = .ended ∧ s.main = .waiting

/-- The last notification has been sent. -/
def Past (s : Threads) : Prop := s.capture = .returned ∨ s.capture = .ended

/-- `main` begins to wait before the last notification. -/
def InTime (acts : List Action) : Prop :=
  ∀ before after, acts = before ++ .wait :: after → .lastNotify ∉ before

theorem notify_ne_waiting (main : MainAt) : main.notify ≠ .waiting := by
  cases main <;> decide

/-! ## Runs -/

theorem Run.of_concat {acts : List Action} {a : Action} {t : Threads} (h : Run (acts ++ [a]) t) :
    ∃ s, Run acts s ∧ Step s a t := by
  generalize hall : acts ++ [a] = all at h
  cases h with
  | init => exact absurd hall (by simp)
  | step hrun hstep =>
    obtain ⟨rfl, ha⟩ := List.append_inj' hall rfl
    cases ha
    exact ⟨_, hrun, hstep⟩

theorem Run.of_append {before after : List Action} {t : Threads} (h : Run (before ++ after) t) :
    ∃ s, Run before s := by
  induction after using List.reverseRecOn generalizing t with
  | nil => exact ⟨t, by simpa using h⟩
  | append_singleton after a ih =>
    rw [← List.append_assoc] at h
    obtain ⟨s, hs, _⟩ := h.of_concat
    exact ih hs

theorem past_iff {acts : List Action} {s : Threads} (h : Run acts s) :
    Past s ↔ .lastNotify ∈ acts := by
  induction h with
  | init => simp [Past, init]
  | step _ hstep ih => cases hstep <;> simp_all [Past]

theorem InTime.of_append {before after : List Action} (h : InTime (before ++ after)) :
    InTime before := by
  rintro xs ys rfl
  exact h xs (ys ++ after) (by simp)

/-- What the capture thread does after a run in time brings no `wait`. -/
theorem InTime.append {acts more : List Action} (h : InTime acts)
    (hmore : ∀ a ∈ more, a.isCapture = true) : InTime (acts ++ more) := by
  have hwait : .wait ∉ more := fun hmem => by cases hmore _ hmem
  intro before after hsplit
  rcases List.append_eq_append_iff.mp hsplit with ⟨xs, _, hxs⟩ | ⟨xs, hacts, hxs⟩
  · exact absurd (hxs ▸ List.mem_append_right xs List.mem_cons_self) hwait
  · cases xs with
    | nil =>
      rw [List.nil_append] at hxs
      exact absurd (hxs ▸ List.mem_cons_self) hwait
    | cons x xs =>
      obtain ⟨rfl, _⟩ := List.cons.inj hxs
      exact h before xs hacts

/-- A `main` that waits in time waits only while a notification is still to come. -/
theorem awaited_of_run {acts : List Action} {s : Threads} (h : Run acts s) (hin : InTime acts)
    (hmain : s.main = .waiting) : ¬ Past s := by
  induction h with
  | init => cases hmain
  | @step acts s t a hrun hstep ih =>
    cases hstep with
    | wait =>
      intro hpast
      have hpast' : .lastNotify ∈ acts := (past_iff hrun).mp hpast
      exact hin acts [] rfl hpast'
    | create => cases hmain
    | wake => cases hmain
    | join => cases hmain
    | event => exact ih hin.of_append hmain
    | failedEvent => exact absurd hmain (notify_ne_waiting _)
    | readError => exact absurd hmain (notify_ne_waiting _)
    | lastNotify => exact absurd hmain (notify_ne_waiting _)
    | finish => exact absurd (.inl rfl) (ih hin.of_append hmain)

/-- **No lost wake-up**: at whatever point of a run the capture thread goes on alone, it never ends
with `main` left waiting, exactly when `main` begins to wait before the last notification. -/
theorem no_lost_wakeup_iff {acts : List Action} {s : Threads} (h : Run acts s) :
    (∀ before, before <+: acts → ∀ more t, (∀ a ∈ more, a.isCapture = true) →
      Run (before ++ more) t → ¬ Lost t) ↔ InTime acts := by
  constructor
  · intro hsafe before after hsplit hlast
    subst hsplit
    have hprefix : before ++ [.wait] <+: before ++ .wait :: after := ⟨after, by simp⟩
    rw [List.append_cons] at h
    obtain ⟨s', hwait⟩ := h.of_append
    obtain ⟨s, hbefore, hstep⟩ := hwait.of_concat
    have hpast : Past s := (past_iff hbefore).mpr hlast
    cases hstep with
    | wait =>
      rcases hpast with hreturned | hended
      · obtain rfl : _ = CaptureAt.returned := hreturned
        refine hsafe _ hprefix [.finish] ⟨.waiting, .ended⟩ ?_ (hwait.step .finish) ⟨rfl, rfl⟩
        exact List.forall_mem_singleton.mpr rfl
      · refine hsafe _ hprefix [] ⟨.waiting, _⟩ (List.forall_mem_nil _) ?_ ⟨hended, rfl⟩
        rwa [List.append_nil]
  · intro hin before hbefore more t hmore hrun hlost
    obtain ⟨after, rfl⟩ := hbefore
    exact awaited_of_run hrun (hin.of_append.append hmore) hlost.2 (.inr hlost.1)

/-- `main` waits in time, the keyboard is lost, and `main` joins the capture thread. -/
theorem no_lost_wakeup_joined :
    let acts : List Action :=
      [.create, .wait, .event, .readError, .lastNotify, .finish, .wake, .join]
    Run acts ⟨.finished, .ended⟩ ∧ ∀ before, before <+: acts → ∀ more t,
      (∀ a ∈ more, a.isCapture = true) → Run (before ++ more) t → ¬ Lost t := by
  intro acts
  have hrun : Run acts ⟨.finished, .ended⟩ :=
    ((((((((Run.init.step .create).step .wait).step .event).step .readError).step
      .lastNotify).step .finish).step .wake).step .join)
  refine ⟨hrun, (no_lost_wakeup_iff hrun).mpr ?_⟩
  intro before after hsplit
  match before with
  | [] => exact List.not_mem_nil
  | [a] =>
    obtain ⟨rfl, _⟩ := List.cons.inj hsplit
    decide
  | a :: b :: before =>
    have htail : [.event, .readError, .lastNotify, .finish, .wake, .join] =
        before ++ .wait :: after := List.tail_eq_of_cons_eq (List.tail_eq_of_cons_eq hsplit)
    have hwait : Action.wait ∈ before ++ .wait :: after := by simp
    rw [← htail] at hwait
    exact absurd hwait (by decide)

/-- The keyboard is lost before `main` waits: both notifications go by. -/
theorem wakeup_lost : ¬ ∀ acts s, Run acts s → ¬ Lost s := by
  intro h
  have hrun : Run [.create, .readError, .lastNotify, .finish, .wait] ⟨.waiting, .ended⟩ :=
    ((((Run.init.step .create).step .readError).step .lastNotify).step .finish).step .wait
  exact h _ _ hrun ⟨rfl, rfl⟩

end Wakeup
end Hemiola
