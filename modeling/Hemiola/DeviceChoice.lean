import Hemiola.Keyboard

/-!
# Hemiola.DeviceChoice

Which device `getKeyboard` opens. A `Group` is the three lines that the command prints for one
device, with its score. `comparator` is `>`, so the lowest score is on top of the queue, and the
best device is returned only when the lowest score does as well (`returnsBest_iff`).
-/

namespace Hemiola
namespace Keyboard

open Lib Lib.Text

/-- The first `event` in the line, in either case, is followed by digits of value `number`. -/
structure EventHandler (handlers : Str) (number : Nat) where
  before : Str
  digits : Str
  rest : Str
  line : handlers.map tolower = before ++ event ++ digits ++ rest
  first : find event (handlers.map tolower) = some before.length
  nonempty : digits ≠ []
  decimal : ∀ c ∈ digits, c.isDigit = true
  stop : ∀ c ∈ rest.head?, c.isDigit = false
  value : value digits = number

structure Group where
  name : Str
  handlers : Str
  label : Str
  keyMap : Str
  number : Nat
  handler : EventHandler handlers number
  /-- The number is an `int`. -/
  small : number < 2 ^ 31
  equals : '=' ∉ label
  newline : ∀ line ∈ [name, handlers, label ++ '=' :: keyMap], '\n' ∉ line
  text : ∀ line ∈ [name, handlers, label ++ '=' :: keyMap], Stdio.nul ∉ line

namespace Group

def lines (g : Group) : List Str := [g.name, g.handlers, g.label ++ '=' :: g.keyMap]

def score (g : Group) : Nat :=
  (if keyboard <:+: g.name.map tolower then 100 else 0) + g.keyMap.length

def path (g : Group) : Str := inputEventPath ++ event ++ decimal g.number

end Group

/-- What the command prints. -/
def output (groups : List Group) : Str := (groups.flatMap Group.lines).flatMap (· ++ ['\n'])

def highest (groups : List Group) (g : Group) : Prop :=
  g ∈ groups ∧ ∀ h ∈ groups, h.score ≤ g.score

def lowest (groups : List Group) (g : Group) : Prop :=
  g ∈ groups ∧ ∀ h ∈ groups, g.score ≤ h.score

theorem eventPath_handlers (g : Group) : eventPath g.handlers = g.path := by
  obtain ⟨before, digits, rest, hline, hfirst, hne, hdigits, hrest, hvalue⟩ := g.handler
  have hsmall := g.small
  have htext : (g.handlers.map tolower).drop (before.length + 5) = digits ++ rest := by
    have hlen : before.length + 5 = (before ++ event).length := by
      rw [List.length_append]
      rfl
    rw [hline, hlen, List.append_assoc (before ++ event), List.drop_left]
  have hindex : atoi (digits ++ rest) = g.number := by
    have hsigned := signed_digits hne hdigits hrest
    rw [hvalue] at hsigned
    rw [atoi_eq_signed (by omega) (by omega), hsigned]
  have hnonempty : digits ++ rest ≠ [] := List.append_ne_nil_of_left_ne_nil hne rest
  unfold eventPath
  rw [hfirst]
  show (if _ ∨ _ then _ else _) = _
  rw [htext, hindex, if_neg (not_or.mpr ⟨hnonempty, by omega⟩)]
  rfl

theorem keyMapLength_keys (g : Group) :
    keyMapLength (g.label ++ '=' :: g.keyMap) = g.keyMap.length := by
  have hdrop : (g.label ++ '=' :: g.keyMap).drop (g.label.length + 1) = g.keyMap := by
    rw [← List.singleton_append, ← List.append_assoc]
    exact List.drop_left' (List.length_append)
  unfold keyMapLength
  rw [find_singleton g.equals]
  show ((g.label ++ '=' :: g.keyMap).drop (g.label.length + 1)).length = _
  rw [hdrop]

def scored (groups : List Group) : List ScoredHID := groups.map fun g => (g.path, g.score)

theorem scored_ne_nil {groups : List Group} (h : groups ≠ []) : scored groups ≠ [] :=
  mt List.map_eq_nil_iff.mp h

theorem scan_output {groups : List Group} (h : ∀ g ∈ groups, g.score < 2 ^ 16) :
    scan (output groups) = ⟨scored groups, [], 0, 0⟩ := by
  have hrun (ds : List ScoredHID) : (groups.flatMap Group.lines).foldl scanLine ⟨ds, [], 0, 0⟩ =
      ⟨ds ++ scored groups, [], 0, 0⟩ := by
    induction groups generalizing ds with
    | nil => exact congrArg (Scan.mk · [] 0 0) (List.append_nil ds).symm
    | cons g groups ih =>
      obtain ⟨hg, h⟩ := List.forall_mem_cons.mp h
      rw [List.flatMap_cons, List.foldl_append, Group.lines, scan_group, eventPath_handlers,
        keyMapLength_keys, ih h, List.append_assoc, List.singleton_append]
      show Scan.mk (ds ++ (g.path, g.score % 2 ^ 16) :: _) _ _ _ = _
      rw [Nat.mod_eq_of_lt hg]
      rfl
  have hnewline : ∀ line ∈ groups.flatMap Group.lines, '\n' ∉ line := by
    intro line hline
    obtain ⟨g, _, hline⟩ := List.mem_flatMap.mp hline
    exact g.newline line hline
  rw [scan, output, lines_flatMap hnewline, hrun]
  rfl

/-- What `execute` gets of such an output is all of it. -/
theorem collect_output (groups : List Group) :
    Execute.collect (output groups) = output groups := by
  refine Execute.collect_eq_self fun hmem => ?_
  obtain ⟨line, hline, hmem⟩ := List.mem_flatMap.mp hmem
  obtain ⟨g, _, hg⟩ := List.mem_flatMap.mp hline
  rcases List.mem_append.mp hmem with hmem | hmem
  · exact g.text line hg hmem
  · exact absurd (List.mem_singleton.mp hmem) (by decide)

theorem getKeyboard_output (queue : PriorityQueue ScoredHID comparator) {groups : List Group}
    (hscore : ∀ g ∈ groups, g.score < 2 ^ 16) (hne : groups ≠ []) (ids : Ids) :
    ((getKeyboard queue (granted (output groups))).runFrom ids).1 =
      .ok (queue.top (scored groups) (scored_ne_nil hne)).1 := by
  have htop {l : List ScoredHID} (h : l ≠ []) (heq : l = scored groups) :
      queue.top l h = queue.top (scored groups) (scored_ne_nil hne) := by
    subst heq
    rfl
  have hdevices : (scan (Execute.collect (output groups))).devices = scored groups := by
    rw [collect_output, scan_output hscore]
  rw [getKeyboard_granted queue (hdevices ▸ scored_ne_nil hne), htop _ hdevices]

theorem top_lowest (queue : PriorityQueue ScoredHID comparator) {groups : List Group}
    (hne : groups ≠ []) :
    ∃ g, lowest groups g ∧ (g.path, g.score) = queue.top _ (scored_ne_nil hne) := by
  obtain ⟨g, hg, htop⟩ := List.mem_map.mp (queue.mem _ (scored_ne_nil hne))
  refine ⟨g, ⟨hg, ?_⟩, htop⟩
  intro k hk
  have hfirst : comparator (g.path, g.score) (k.path, k.score) = false := by
    rw [htop]
    exact queue.first _ (scored_ne_nil hne) _ (List.mem_map_of_mem hk)
  exact not_lt.mp (of_decide_eq_false hfirst)

theorem favouring_lowest {groups : List Group} {g : Group} (hg : lowest groups g)
    (hne : groups ≠ []) :
    (PriorityQueue.favouring comparator_weak (g.path, g.score)).top _ (scored_ne_nil hne) =
      (g.path, g.score) := by
  refine PriorityQueue.favouring_top _ _ (List.mem_map_of_mem hg.1) ?_
  intro b hb
  obtain ⟨k, hk, rfl⟩ := List.mem_map.mp hb
  exact decide_eq_false (not_lt.mpr (hg.2 k hk))

/-- The path returned is that of a group of the highest score. -/
def returnsBest (queue : PriorityQueue ScoredHID comparator) (groups : List Group)
    (ids : Ids) : Prop :=
  ∃ g, highest groups g ∧
    ((getKeyboard queue (granted (output groups))).runFrom ids).1 = .ok g.path

theorem returnsBest_iff {groups : List Group} (hne : groups ≠ [])
    (hscore : ∀ g ∈ groups, g.score < 2 ^ 16) (ids : Ids) :
    (∀ queue, returnsBest queue groups ids) ↔
      ∀ g, lowest groups g → ∃ h, highest groups h ∧ h.path = g.path := by
  constructor
  · intro hbest g hg
    obtain ⟨h, hh, hresult⟩ := hbest (.favouring comparator_weak (g.path, g.score))
    rw [getKeyboard_output _ hscore hne, favouring_lowest hg hne] at hresult
    exact ⟨h, hh, (Except.ok.inj hresult).symm⟩
  · intro hpath queue
    obtain ⟨g, hg, htop⟩ := top_lowest queue hne
    obtain ⟨h, hh, heq⟩ := hpath g hg
    refine ⟨h, hh, ?_⟩
    rw [getKeyboard_output queue hscore hne, ← htop, heq]

def atKeyboard : Group where
  name := "N: Name=\"AT Translated Set 2 keyboard\"".toList
  handlers := "H: Handlers=sysrq kbd leds event3 ".toList
  label := "B: KEY".toList
  keyMap := "402000000 3803078f800d001 feffffdfffefffff fffffffffffffffe".toList
  number := 3
  handler :=
    { before := "h: handlers=sysrq kbd leds ".toList
      digits := ['3']
      rest := [' ']
      line := by decide
      first := by decide
      nonempty := by decide
      decimal := by simp
      stop := by simp
      value := by decide }
  small := by decide
  equals := by decide +kernel
  newline := by decide +kernel
  text := by decide +kernel

def receiver : Group where
  name := "N: Name=\"Logitech USB Receiver\"".toList
  handlers := "H: Handlers=sysrq kbd event5 ".toList
  label := "B: KEY".toList
  keyMap := "1000000000007 ff9f207ac14057ff febeffdfffefffff fffffffffffffffe".toList
  number := 5
  handler :=
    { before := "h: handlers=sysrq kbd ".toList
      digits := ['5']
      rest := [' ']
      line := by decide
      first := by decide
      nonempty := by decide
      decimal := by simp
      stop := by simp
      value := by decide }
  small := by decide
  equals := by decide +kernel
  newline := by decide +kernel
  text := by decide +kernel

def numericPad : Group where
  name := "N: Name=\"Generic Numeric Pad\"".toList
  handlers := "H: Handlers=sysrq kbd event7 ".toList
  label := "B: KEY".toList
  keyMap := "1000000000007 ff800000000007ff febeffdff3cfffff fffffffffffffffe".toList
  number := 7
  handler :=
    { before := "h: handlers=sysrq kbd ".toList
      digits := ['7']
      rest := [' ']
      line := by decide
      first := by decide
      nonempty := by decide
      decimal := by simp
      stop := by simp
      value := by decide }
  small := by decide
  equals := by decide +kernel
  newline := by decide +kernel
  text := by decide +kernel

/-- Two devices of the same score: each of them is a best one. -/
theorem returnsBest_iff_equal :
    receiver.path ≠ numericPad.path ∧ receiver.score = numericPad.score ∧
      ∀ queue, returnsBest queue [receiver, numericPad] ⟨0, 0⟩ := by
  have hsame : receiver.score = numericPad.score := by decide +kernel
  refine ⟨by decide +kernel, hsame, ?_⟩
  have hscore : ∀ g ∈ [receiver, numericPad], g.score = 64 := by decide +kernel
  have hsmall : ∀ g ∈ [receiver, numericPad], g.score < 2 ^ 16 := by
    intro g hg
    rw [hscore g hg]
    decide
  refine (returnsBest_iff (List.cons_ne_nil _ _) hsmall ⟨0, 0⟩).mpr ?_
  intro g hg
  refine ⟨g, ⟨hg.1, fun h hh => ?_⟩, rfl⟩
  rw [hscore g hg.1, hscore h hh]

/-- The device returned scores 64, the other one 159. -/
theorem returns_receiver : receiver.score < atKeyboard.score ∧ ∀ queue,
    ((getKeyboard queue (granted (output [atKeyboard, receiver]))).runFrom ⟨0, 0⟩).1 =
      .ok "/dev/input/event5".toList ∧
    ¬ returnsBest queue [atKeyboard, receiver] ⟨0, 0⟩ := by
  have hlt : receiver.score < atKeyboard.score := by decide +kernel
  have hscore : ∀ g ∈ [atKeyboard, receiver], g.score < 2 ^ 16 := by decide +kernel
  have hne : [atKeyboard, receiver] ≠ [] := List.cons_ne_nil _ _
  refine ⟨hlt, ?_⟩
  intro queue
  have hresult : ((getKeyboard queue (granted (output [atKeyboard, receiver]))).runFrom
      ⟨0, 0⟩).1 = .ok receiver.path := by
    obtain ⟨g, hg, htop⟩ := top_lowest queue hne
    rw [getKeyboard_output queue hscore hne, ← htop]
    rcases List.mem_pair.mp hg.1 with rfl | rfl
    · exact absurd (hg.2 receiver (by simp)) (not_le.mpr hlt)
    · rfl
  refine ⟨hresult, ?_⟩
  intro hbest
  obtain ⟨g, hg, hpath⟩ := hbest
  rw [hresult] at hpath
  rcases List.mem_pair.mp hg.1 with rfl | rfl
  · exact absurd (Except.ok.inj hpath) (by decide)
  · exact absurd (hg.2 atKeyboard List.mem_cons_self) (not_le.mpr hlt)

end Keyboard
end Hemiola
