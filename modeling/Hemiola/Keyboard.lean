import Hemiola.Execute
import Hemiola.KeyChords
import Hemiola.Lib.PriorityQueue
import Hemiola.Lib.Text

/-!
# Hemiola.Keyboard

`Keyboard::getKeyboard`: the search for the input device in the output of a `grep` command, which
runs as nobody. What the system calls and the command give is an argument, `System`.

* `atoi_decimal`: `atoi` reads an `int` back from its decimal representation.
* `scanLine`: the body of the loop over the lines of the output.
* `scan_group`: what the three lines of one device do.
-/

namespace Hemiola
namespace Keyboard

open Lib Lib.Text KeyChords

/-- `::tolower` in the "C" locale. -/
def tolower (c : Char) : Char := c.toLower

/-- The number with its sign at the front of a text, behind white space. -/
def signed (s : Str) : Int :=
  match s.dropWhile isspace with
  | '-' :: s => -number s
  | '+' :: s => number s
  | s => number s

/-- `strtol` in base 10: a number that no `long` of 64 bits can hold becomes the nearest that one
can. -/
def strtol (s : Str) : Int := max (-2 ^ 63) (min (signed s) (2 ^ 63 - 1))

/-- `atoi` is `strtol` cut down to an `int`. -/
def atoi (s : Str) : Int := (strtol s).bmod (2 ^ 32)

theorem atoi_eq_signed {s : Str} (hlow : -2 ^ 31 ≤ signed s) (hhigh : signed s < 2 ^ 31) :
    atoi s = signed s := by
  rw [atoi, strtol, max_eq_right (by omega), min_eq_left (by omega)]
  exact Int.bmod_eq_of_le (by omega) (by omega)

theorem isspace_of_isDigit {c : Char} (h : c.isDigit = true) : isspace c = false := by
  have hrange : 48 ≤ c.toNat ∧ c.toNat ≤ 57 := Char.isDigit_iff_toNat.mp h
  simp only [isspace, Bool.or_eq_false_iff, Bool.and_eq_false_iff, decide_eq_false_iff_not]
  omega

theorem signed_digits {digits rest : Str} (hne : digits ≠ [])
    (hdigits : ∀ c ∈ digits, c.isDigit = true) (hrest : ∀ c ∈ rest.head?, c.isDigit = false) :
    signed (digits ++ rest) = value digits := by
  rw [← number_append hdigits hrest]
  cases digits with
  | nil => exact absurd rfl hne
  | cons c digits =>
    have hc : c.isDigit = true := hdigits c List.mem_cons_self
    unfold signed
    rw [List.cons_append, List.dropWhile_cons, isspace_of_isDigit hc]
    -- a digit is neither of the signs
    split
    next heq =>
      obtain ⟨rfl, _⟩ := List.cons.inj heq
      exact absurd hc (by decide)
    next heq =>
      obtain ⟨rfl, _⟩ := List.cons.inj heq
      exact absurd hc (by decide)
    next => rfl

/-- `<<` of an `int`. -/
def decimal : Int → Str
  | .ofNat n => Nat.toDigits 10 n
  | .negSucc n => '-' :: Nat.toDigits 10 (n + 1)

theorem isDigit_toDigits (n : Nat) : ∀ c ∈ Nat.toDigits 10 n, c.isDigit = true :=
  fun _ hc => Nat.isDigit_of_mem_toDigits (by decide) (by decide) hc

theorem value_toDigits (n : Nat) : value (Nat.toDigits 10 n) = n :=
  Nat.ofDigitChars_eq_foldl.symm.trans Nat.ofDigitChars_ten_toDigits

theorem signed_decimal (n : Int) : signed (decimal n) = n := by
  cases n with
  | ofNat n =>
    have hdigits := @signed_digits _ [] Nat.toDigits_ne_nil (isDigit_toDigits n) (by simp)
    rw [List.append_nil, value_toDigits] at hdigits
    exact hdigits
  | negSucc n =>
    have hnumber : number (Nat.toDigits 10 (n + 1)) = n + 1 := by
      rw [number, List.takeWhile_eq_self_iff.mpr (isDigit_toDigits (n + 1)), value_toDigits]
    show -((number (Nat.toDigits 10 (n + 1)) : Nat) : Int) = _
    rw [hnumber]
    rfl

/-- An `int` is read back from its decimal representation. -/
theorem atoi_decimal {n : Int} (hlow : -2 ^ 31 ≤ n) (hhigh : n < 2 ^ 31) :
    atoi (decimal n) = n := by
  have hsigned := signed_decimal n
  rw [atoi_eq_signed (by omega) (by omega), hsigned]

def inputEventPath : Str := "/dev/input/".toList
def keyboard : Str := "keyboard".toList
def event : Str := "event".toList

abbrev ScoredHID := Str × Nat

def comparator (dev1 dev2 : ScoredHID) : Bool := dev1.2 > dev2.2

theorem comparator_weak : PriorityQueue.Weak comparator where
  irrefl a := by simp [comparator]
  asymm a b h := by simp [comparator] at h ⊢; omega
  trans a b c hab hbc := by simp [comparator] at hab hbc ⊢; omega

/-- The variables of the loop; `devices` are the pairs pushed so far, in order. -/
@[ext] structure Scan where
  devices : List ScoredHID
  device : Str
  lineType : Nat
  score : Nat

/-- `lineType` 0. -/
def scanName (this : Scan) (line : Str) : Scan :=
  if (find keyboard line).isSome then { this with score := (this.score + 100) % 2 ^ 16 } else this

/-- `lineType` 1. -/
def scanHandlers (this : Scan) (line : Str) : Scan :=
  match find event line with
  | none => this
  | some i =>
    let i := i + 5
    if i < line.length then
      let index := atoi (line.drop i)
      if index ≠ -1 then { this with device := inputEventPath ++ event ++ decimal index } else this
    else this

/-- `lineType` 2; where the text has no `=`, `substr` starts at `npos + 1`, which is 0. -/
def scanKeys (this : Scan) (line : Str) : Scan :=
  let fullKeyMap := match find ['='] line with
    | none => line
    | some i => line.drop (i + 1)
  let score := (this.score + fullKeyMap.length) % 2 ^ 16
  { this with devices := this.devices ++ [(this.device, score)], score := 0, device := [] }

def scanLine (this : Scan) (line : Str) : Scan :=
  let line := line.map tolower
  let next :=
    if this.lineType = 0 then scanName this line
    else if this.lineType = 1 then scanHandlers this line
    else if this.lineType = 2 then scanKeys this line
    else this
  { next with lineType := (this.lineType + 1) % 3 }

def scan (output : Str) : Scan := (lines output).foldl scanLine ⟨[], [], 0, 0⟩

/-! ## The privileges -/

/-- The effective ids of the process. -/
structure Ids where
  egid : Nat
  euid : Nat
deriving DecidableEq

/-- What the calls give: the error number of each that fails, and the text that the command
prints, or the error number of a `popen` that fails. -/
structure System where
  setegidNobody : Option Int
  seteuidNobody : Option Int
  popen : Except Int Str
  setegidRoot : Option Int
  seteuidRoot : Option Int

/-- Code that may throw and that changes the effective ids. -/
abbrev Act (α : Type) := ExceptT Exception (StateM Ids) α

def Act.runFrom (act : Act α) (ids : Ids) : Except Exception α × Ids := act.run ids

def setegid (result : Option Int) (gid : Nat) (what : String) : Act Unit :=
  match result with
  | some errno => throw (.coded what errno)
  | none => modify ({ · with egid := gid })

def seteuid (result : Option Int) (uid : Nat) (what : String) : Act Unit :=
  match result with
  | some errno => throw (.coded what errno)
  | none => modify ({ · with euid := uid })

/-- `execute`, for a command that fails to start or ends. -/
def execute (popen : Except Int Str) : Act Str :=
  match popen with
  | .error errno => throw (.execution "popen error" errno)
  | .ok output => pure (Execute.collect output)

def getKeyboard (queue : PriorityQueue ScoredHID comparator) (system : System) : Act Str := do
  setegid system.setegidNobody 65534 "Unable to set user group to 65534"
  seteuid system.seteuidNobody 65534 "Unable to set user id to 65534"
  let output ← execute system.popen
  if h : (scan output).devices = [] then
    throw (.keyboard "Couldn't determine keyboard.")
  else
    setegid system.setegidRoot 0 "Unable to set user group to 0"
    seteuid system.seteuidRoot 0 "Unable to set user id to 0"
    return (queue.top (scan output).devices h).1

section

variable {α β : Type} (ids : Ids)

@[simp] theorem runFrom_pure (a : α) : Act.runFrom (pure a) ids = (.ok a, ids) := rfl

@[simp] theorem runFrom_bind (act : Act α) (f : α → Act β) :
    Act.runFrom (act >>= f) ids =
      match act.runFrom ids with
      | (.ok a, ids) => (f a).runFrom ids
      | (.error e, ids) => (.error e, ids) := by
  unfold Act.runFrom
  rw [ExceptT.run_bind]
  show (let r := act.run ids; ExceptT.bindCont f r.1 r.2) = _
  rcases act.run ids with ⟨_ | _, _⟩
  · rfl
  · rfl

@[simp] theorem runFrom_setegid (gid : Nat) (what : String) :
    (setegid none gid what).runFrom ids = (.ok (), { ids with egid := gid }) := rfl

@[simp] theorem runFrom_seteuid (uid : Nat) (what : String) :
    (seteuid none uid what).runFrom ids = (.ok (), { ids with euid := uid }) := rfl

@[simp] theorem runFrom_execute (output : Str) :
    (execute (.ok output)).runFrom ids = (.ok (Execute.collect output), ids) := rfl

/-- It is the loop over the pipe, with enough fuel. -/
theorem execute_eq (popen : Except Int Str) :
    ∃ fuel, (execute popen).runFrom ids =
      ((Execute.execute fuel (popen.map (Execute.opened · .eof))).map (Option.getD · []), ids) := by
  cases popen with
  | error errno => exact ⟨0, rfl⟩
  | ok output =>
    refine ⟨output.length + 2, ?_⟩
    show _ = ((Execute.execute _ (.ok (Execute.opened output .eof))).map (Option.getD · []), ids)
    rw [Execute.execute_collect output le_rfl]
    rfl

end

/-- Every call succeeds, and the command prints `output`. -/
def granted (output : Str) : System := ⟨none, none, .ok output, none, none⟩

theorem getKeyboard_granted (queue : PriorityQueue ScoredHID comparator) {output : Str}
    (h : (scan (Execute.collect output)).devices ≠ []) (ids : Ids) :
    (getKeyboard queue (granted output)).runFrom ids =
      (.ok (queue.top (scan (Execute.collect output)).devices h).1, ⟨0, 0⟩) := by
  simp only [getKeyboard, granted, runFrom_bind, runFrom_setegid, runFrom_seteuid,
    runFrom_execute, dif_neg h, runFrom_pure]

/-! ## One device -/

/-- What the name of a device adds to its score. -/
def namePoints (name : Str) : Nat := if keyboard <:+: name.map tolower then 100 else 0

/-- The path for the number behind the first `event`, in either case. -/
def eventPath (handlers : Str) : Str :=
  match find event (handlers.map tolower) with
  | none => []
  | some i =>
    let text := (handlers.map tolower).drop (i + 5)
    if text = [] ∨ atoi text = -1 then [] else inputEventPath ++ event ++ decimal (atoi text)

/-- The length of the text behind the first `=`, or of the line when it has none. -/
def keyMapLength (keys : Str) : Nat :=
  match find ['='] keys with
  | none => keys.length
  | some i => (keys.drop (i + 1)).length

theorem tolower_eq {c : Char} : tolower c = '=' ↔ c = '=' := by
  unfold tolower Char.toLower
  split_ifs with h
  · refine iff_of_false ?_ ?_
    · intro heq
      have hval : (c.val + ('a'.val - 'A'.val)).toNat = '='.val.toNat :=
        congrArg (fun c : Char => c.val.toNat) heq
      obtain ⟨hA, hZ⟩ := h
      rw [UInt32.toNat_add] at hval
      rw [ge_iff_le, UInt32.le_iff_toNat_le] at hA
      rw [UInt32.le_iff_toNat_le] at hZ
      simp at hval hA hZ
      omega
    · intro heq
      rw [heq] at h
      exact absurd h (by decide)
  · rfl

theorem scanName_eq (ds : List ScoredHID) (device name : Str) {score : Nat}
    (h : score < 2 ^ 16) :
    scanName ⟨ds, device, 0, score⟩ (name.map tolower) =
      ⟨ds, device, 0, (score + namePoints name) % 2 ^ 16⟩ := by
  unfold scanName namePoints
  by_cases hname : keyboard <:+: name.map tolower
  · rw [if_pos ((find_isSome_iff _ _).mpr hname), if_pos hname]
  · rw [if_neg (mt (find_isSome_iff _ _).mp hname), if_neg hname, Nat.add_zero,
      Nat.mod_eq_of_lt h]

theorem scanHandlers_eq (ds : List ScoredHID) (handlers : Str) (score : Nat) :
    scanHandlers ⟨ds, [], 1, score⟩ (handlers.map tolower) =
      ⟨ds, eventPath handlers, 1, score⟩ := by
  unfold scanHandlers eventPath
  cases find event (handlers.map tolower) with
  | none => rfl
  | some i =>
    show (if i + 5 < _ then _ else _) = Scan.mk ds (if _ then _ else _) 1 score
    have hlt : i + 5 < (handlers.map tolower).length ↔
        (handlers.map tolower).drop (i + 5) ≠ [] := by
      rw [ne_eq, List.drop_eq_nil_iff, not_le]
    by_cases htext : (handlers.map tolower).drop (i + 5) = []
    · rw [if_neg (mt hlt.mp (not_not.mpr htext)), if_pos (.inl htext)]
    · rw [if_pos (hlt.mpr htext)]
      by_cases hindex : atoi ((handlers.map tolower).drop (i + 5)) = -1
      · rw [if_neg (not_not.mpr hindex), if_pos (.inr hindex)]
      · rw [if_pos hindex, if_neg (not_or.mpr ⟨htext, hindex⟩)]

theorem scanKeys_eq (ds : List ScoredHID) (device keys : Str) (score : Nat) :
    scanKeys ⟨ds, device, 2, score⟩ (keys.map tolower) =
      ⟨ds ++ [(device, (score + keyMapLength keys) % 2 ^ 16)], [], 2, 0⟩ := by
  unfold scanKeys keyMapLength
  rw [find_singleton_map fun _ => tolower_eq]
  cases find ['='] keys with
  | none => simp only [List.length_map]
  | some i => simp only [List.length_drop, List.length_map]

theorem scanLine_name (ds : List ScoredHID) (name : Str) :
    scanLine ⟨ds, [], 0, 0⟩ name = ⟨ds, [], 1, namePoints name % 2 ^ 16⟩ := by
  simp [scanLine, scanName_eq]

theorem scanLine_handlers (ds : List ScoredHID) (handlers : Str) (score : Nat) :
    scanLine ⟨ds, [], 1, score⟩ handlers = ⟨ds, eventPath handlers, 2, score⟩ := by
  simp [scanLine, scanHandlers_eq]

theorem scanLine_keys (ds : List ScoredHID) (device keys : Str) (score : Nat) :
    scanLine ⟨ds, device, 2, score⟩ keys =
      ⟨ds ++ [(device, (score + keyMapLength keys) % 2 ^ 16)], [], 0, 0⟩ := by
  simp [scanLine, scanKeys_eq]

/-- The lines of one device leave only its pair behind. -/
theorem scan_group (ds : List ScoredHID) (name handlers keys : Str) :
    [name, handlers, keys].foldl scanLine ⟨ds, [], 0, 0⟩ =
      ⟨ds ++ [(eventPath handlers, (namePoints name + keyMapLength keys) % 2 ^ 16)], [], 0, 0⟩ := by
  rw [List.foldl_cons, scanLine_name, List.foldl_cons, scanLine_handlers, List.foldl_cons,
    scanLine_keys, Nat.mod_add_mod, List.foldl_nil]

end Keyboard
end Hemiola
