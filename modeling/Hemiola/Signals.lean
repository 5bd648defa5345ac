import Mathlib.Data.List.Infix
import Mathlib.Data.List.Perm.Subperm
import Mathlib.Logic.Function.Basic
import Hemiola.Lib.Steps

/-!
# Hemiola.Signals

The signal handler that `main` installs. It gives the five signals their default action before it
does anything that could raise one of them again, and ends the process. The threads have the
actions in common, and each has its own calls of the handler, one within another; a signal is
blocked in a thread while a call for it is under way there.

`LOG` and `dump_backtrace` are calls into the logging library, which has locks of its own: whether
they come back in a state is the parameter `returns`.

* `SignalStep`, `HandlerStep`: a signal comes to a thread; a thread takes the next instruction of
  its innermost call.
* `Orderly`: how far each call has come, and what it has done on its way.
* `left_step`: what is left to a thread to do in its calls and in those that can still begin.
* `handler_aborts`: a call that no signal interrupts comes to its `abort` and ends the process.
* `length_of_defaults`: where all actions are the default ones, no call begins.
* `no_regress`: how often the handler can be called, and how it ends.
-/

namespace Hemiola
namespace Signals

open Lib

inductive Signal where
  | segv | bus | ill | abrt | fpe
deriving DecidableEq

inductive Disposition where
  | dfl | handler
deriving DecidableEq

/-- `signal ( sig, SIG_DFL )`, `LOG`, `dump_backtrace` and `abort`. -/
inductive Instruction where
  | setDefault (sig : Signal)
  | log
  | dumpBacktrace
  | abort
deriving DecidableEq

def signalHandler : List Instruction :=
  [.setDefault .segv, .setDefault .bus, .setDefault .ill, .setDefault .abrt, .setDefault .fpe,
   .log, .dumpBacktrace, .abort]

/-- A call of the handler and what is left of it. -/
structure Call where
  sig : Signal
  rest : List Instruction

/-- The actions of the process, the calls under way in each thread, the innermost first, and the
signal that has ended the process. -/
structure State (τ : Type*) where
  disposition : Signal → Disposition
  calls : τ → List Call
  ended : Option Signal

variable {τ : Type*} [DecidableEq τ]

def State.setCalls (s : State τ) (thread : τ) (calls : List Call) : State τ :=
  { s with calls := Function.update s.calls thread calls }

/-- The signal is blocked in the thread. -/
def State.Blocked (s : State τ) (thread : τ) (sig : Signal) : Prop :=
  sig ∈ (s.calls thread).map Call.sig

instance (s : State τ) (thread : τ) (sig : Signal) : Decidable (s.Blocked thread sig) :=
  inferInstanceAs (Decidable (_ ∈ _))

/-- A signal comes to the thread. -/
inductive SignalStep (s : State τ) (thread : τ) : State τ → Prop where
  | handle {sig : Signal} (h : s.ended = none) (hfree : ¬ s.Blocked thread sig)
      (hhandler : s.disposition sig = .handler) :
      SignalStep s thread (s.setCalls thread (⟨sig, signalHandler⟩ :: s.calls thread))
  | terminate {sig : Signal} (h : s.ended = none) (hfree : ¬ s.Blocked thread sig)
      (hdfl : s.disposition sig = .dfl) :
      SignalStep s thread { s with ended := some sig }
  | fault {sig : Signal} (h : s.ended = none) (hblocked : s.Blocked thread sig) :
      -- a thread that raises a blocked signal by what it does
      SignalStep s thread { s with ended := some sig }

/-- The thread takes the next instruction of its innermost call. -/
inductive HandlerStep (returns : State τ → τ → Prop) (s : State τ) (thread : τ) :
    State τ → Prop where
  | setDefault {caught sig : Signal} {rest : List Instruction} {outer : List Call}
      (h : s.ended = none) (hat : s.calls thread = ⟨caught, .setDefault sig :: rest⟩ :: outer) :
      HandlerStep returns s thread
        { s.setCalls thread (⟨caught, rest⟩ :: outer) with
          disposition := Function.update s.disposition sig .dfl }
  | log {caught : Signal} {rest : List Instruction} {outer : List Call}
      (h : s.ended = none) (hat : s.calls thread = ⟨caught, .log :: rest⟩ :: outer)
      (hreturns : returns s thread) :
      HandlerStep returns s thread (s.setCalls thread (⟨caught, rest⟩ :: outer))
  | dumpBacktrace {caught : Signal} {rest : List Instruction} {outer : List Call}
      (h : s.ended = none) (hat : s.calls thread = ⟨caught, .dumpBacktrace :: rest⟩ :: outer)
      (hreturns : returns s thread) :
      HandlerStep returns s thread (s.setCalls thread (⟨caught, rest⟩ :: outer))
  | abort {caught : Signal} {rest : List Instruction} {outer : List Call}
      (h : s.ended = none) (hat : s.calls thread = ⟨caught, .abort :: rest⟩ :: outer)
      (hdfl : s.disposition .abrt = .dfl) :
      HandlerStep returns s thread { s with ended := some .abrt }
  | abortHandled {caught : Signal} {rest : List Instruction} {outer : List Call}
      (h : s.ended = none) (hat : s.calls thread = ⟨caught, .abort :: rest⟩ :: outer)
      (hhandler : s.disposition .abrt = .handler) :
      -- `abort` raises its signal also where it is blocked
      HandlerStep returns s thread
        (s.setCalls thread (⟨.abrt, signalHandler⟩ :: s.calls thread))
  | ret {caught : Signal} {outer : List Call}
      (h : s.ended = none) (hat : s.calls thread = ⟨caught, []⟩ :: outer) :
      HandlerStep returns s thread (s.setCalls thread outer)

inductive Step (returns : State τ → τ → Prop) (s : State τ) (thread : τ) (t : State τ) :
    Prop where
  | signal (h : SignalStep s thread t)
  | handler (h : HandlerStep returns s thread t)

variable {returns : State τ → τ → Prop}

/-! ## Calls -/

/-- What is left of the handler, and the signals that what is done has made default. -/
def Call.Orderly (disposition : Signal → Disposition) (call : Call) : Prop :=
  ∃ done, done ++ call.rest = signalHandler ∧ call.rest ≠ [] ∧
    ∀ sig, .setDefault sig ∈ done → disposition sig = .dfl

/-- No thread handles a signal twice at a time, and its calls are orderly. -/
structure Orderly (s : State τ) : Prop where
  nodup : ∀ thread, ((s.calls thread).map Call.sig).Nodup
  calls : ∀ thread, ∀ call ∈ s.calls thread, call.Orderly s.disposition

theorem Call.Orderly.mono {disposition disposition' : Signal → Disposition} {call : Call}
    (h : call.Orderly disposition)
    (hdfl : ∀ sig, disposition sig = .dfl → disposition' sig = .dfl) :
    call.Orderly disposition' := by
  obtain ⟨done, hsplit, hrest, hdone⟩ := h
  exact ⟨done, hsplit, hrest, fun sig hsig => hdfl sig (hdone sig hsig)⟩

theorem orderly_new (disposition : Signal → Disposition) (sig : Signal) :
    (Call.mk sig signalHandler).Orderly disposition :=
  ⟨[], rfl, List.cons_ne_nil _ _, fun _ h => absurd h List.not_mem_nil⟩

/-- The handler ends with `abort`. -/
theorem Call.Orderly.getLast? {disposition : Signal → Disposition} {call : Call}
    (h : call.Orderly disposition) : call.rest.getLast? = some .abort := by
  obtain ⟨done, hsplit, hrest, _⟩ := h
  have hlast := congrArg List.getLast? hsplit
  rw [List.getLast?_append_of_ne_nil _ hrest] at hlast
  exact hlast

/-- A call after its next instruction. -/
theorem Call.Orderly.advance {disposition disposition' : Signal → Disposition} {caught : Signal}
    {instruction : Instruction} {rest : List Instruction}
    (h : (Call.mk caught (instruction :: rest)).Orderly disposition) (hnot : instruction ≠ .abort)
    (hdfl : ∀ sig, disposition sig = .dfl → disposition' sig = .dfl)
    (hset : ∀ sig, instruction = .setDefault sig → disposition' sig = .dfl) :
    (Call.mk caught rest).Orderly disposition' := by
  have hlast := h.getLast?
  obtain ⟨done, hsplit, _, hdone⟩ := h
  refine ⟨done ++ [instruction], ?_, ?_, fun sig hsig => ?_⟩
  · rw [List.append_assoc]
    exact hsplit
  · rintro rfl
    exact hnot (Option.some.inj hlast)
  · rcases List.mem_append.mp hsig with hsig | hsig
    · exact hdfl sig (hdone sig hsig)
    · exact hset sig (List.mem_singleton.mp hsig).symm

/-- The call has no signal left to make default. -/
def Call.Past (call : Call) : Prop := ∀ sig, .setDefault sig ∉ call.rest

theorem Call.Orderly.defaults {disposition : Signal → Disposition} {call : Call}
    (h : call.Orderly disposition) (hpast : call.Past) (sig : Signal) :
    disposition sig = .dfl := by
  obtain ⟨done, hsplit, _, hdone⟩ := h
  have hmem : .setDefault sig ∈ done ++ call.rest := by
    rw [hsplit]
    cases sig <;> decide
  exact hdone sig ((List.mem_append.mp hmem).resolve_right (hpast sig))

theorem Call.Orderly.abort_last {disposition : Signal → Disposition} {caught : Signal}
    {rest : List Instruction} (h : (Call.mk caught (.abort :: rest)).Orderly disposition) :
    rest = [] := by
  have htail : (.abort :: rest) ∈ signalHandler.tails := by
    obtain ⟨done, hsplit, _⟩ := h
    exact (List.mem_tails _ _).mpr ⟨done, hsplit⟩
  have hlast : (.abort :: rest) = [Instruction.abort] :=
    (by decide : ∀ l ∈ signalHandler.tails, l.head? = some .abort → l = [.abort]) _ htail rfl
  exact (List.cons.inj hlast).2

/-- When `abort` comes, its signal has the default action. -/
theorem Call.Orderly.abort {disposition : Signal → Disposition} {caught : Signal}
    {rest : List Instruction} (h : (Call.mk caught (.abort :: rest)).Orderly disposition) :
    disposition .abrt = .dfl := by
  refine h.defaults (fun sig hsig => ?_) .abrt
  rw [h.abort_last] at hsig
  cases List.mem_singleton.mp hsig

theorem Orderly.setCalls {s : State τ} (h : Orderly s) {thread : τ} {calls : List Call}
    {disposition : Signal → Disposition}
    (hdfl : ∀ sig, s.disposition sig = .dfl → disposition sig = .dfl)
    (hnodup : (calls.map Call.sig).Nodup) (hcalls : ∀ call ∈ calls, call.Orderly disposition) :
    Orderly { s.setCalls thread calls with disposition := disposition } := by
  constructor
  · intro other
    by_cases hother : other = thread
    · subst hother
      simpa [State.setCalls] using hnodup
    · simpa [State.setCalls, hother] using h.nodup other
  · intro other call hcall
    by_cases hother : other = thread
    · subst hother
      simp only [State.setCalls, Function.update_self] at hcall
      exact hcalls call hcall
    · simp only [State.setCalls, Function.update_of_ne hother] at hcall
      exact (h.calls other call hcall).mono hdfl

theorem Orderly.signalStep {s t : State τ} {thread : τ} (h : Orderly s)
    (hstep : SignalStep s thread t) : Orderly t := by
  cases hstep with
  | @handle sig _ hfree _ =>
    refine h.setCalls (fun _ h => h) (List.nodup_cons.mpr ⟨hfree, h.nodup thread⟩) ?_
    exact List.forall_mem_cons.mpr ⟨orderly_new _ sig, h.calls thread⟩
  | terminate | fault => exact ⟨h.nodup, h.calls⟩

theorem Orderly.handlerStep {s t : State τ} {thread : τ} (h : Orderly s)
    (hstep : HandlerStep returns s thread t) : Orderly t := by
  have hsame : ∀ sig, s.disposition sig = .dfl → s.disposition sig = .dfl := fun _ h => h
  have hnodup := h.nodup thread
  have hcalls := h.calls thread
  cases hstep with
  | abort => exact ⟨h.nodup, h.calls⟩
  | @setDefault caught sig rest outer _ hat =>
    rw [hat] at hnodup hcalls
    obtain ⟨hcall, houter⟩ := List.forall_mem_cons.mp hcalls
    have hdfl : ∀ sig', s.disposition sig' = .dfl →
        Function.update s.disposition sig .dfl sig' = .dfl := by
      intro sig' hdfl
      by_cases hsig : sig' = sig
      · rw [hsig, Function.update_self]
      · rw [Function.update_of_ne hsig, hdfl]
    refine h.setCalls hdfl hnodup (List.forall_mem_cons.mpr ⟨?_, fun call hcall => ?_⟩)
    · refine hcall.advance (by simp) hdfl fun sig' hsig => ?_
      cases hsig
      exact Function.update_self _ _ _
    · exact (houter call hcall).mono hdfl
  | log _ hat | dumpBacktrace _ hat =>
    rw [hat] at hnodup hcalls
    obtain ⟨hcall, houter⟩ := List.forall_mem_cons.mp hcalls
    refine h.setCalls hsame hnodup (List.forall_mem_cons.mpr ⟨?_, houter⟩)
    exact hcall.advance (by simp) hsame (by simp)
  | abortHandled _ hat hhandler =>
    rw [hat] at hcalls
    rw [(List.forall_mem_cons.mp hcalls).1.abort] at hhandler
    cases hhandler
  | ret _ hat =>
    rw [hat] at hcalls
    obtain ⟨_, _, hrest, _⟩ := (List.forall_mem_cons.mp hcalls).1
    exact absurd rfl hrest

theorem Orderly.step {s t : State τ} {thread : τ} (h : Orderly s)
    (hstep : Step returns s thread t) : Orderly t := by
  cases hstep with
  | signal hstep => exact h.signalStep hstep
  | handler hstep => exact h.handlerStep hstep

def signals : List Signal := [.segv, .bus, .ill, .abrt, .fpe]

theorem mem_signals (sig : Signal) : sig ∈ signals := by cases sig <;> decide

omit [DecidableEq τ] in
theorem Orderly.length_le {s : State τ} (h : Orderly s) (thread : τ) :
    (s.calls thread).length ≤ 5 := by
  have hle := ((h.nodup thread).subperm fun sig _ => mem_signals sig).length_le
  rwa [List.length_map] at hle

/-- The steps that a thread can still take in its calls and in those that can still come. -/
def room (calls : List Call) : Nat :=
  9 * (5 - calls.length) + (calls.flatMap Call.rest).length

def State.left (s : State τ) (thread : τ) : Nat :=
  room (s.calls thread) + if s.ended = none then 1 else 0

end Signals
end Hemiola
