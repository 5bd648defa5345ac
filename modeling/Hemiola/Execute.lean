import Hemiola.Input
import Hemiola.Lib.Stdio

/-!
# Hemiola.Execute

`execute`: the loop that collects the output of a command. It reads lines, or pieces of at most
4095 characters, until `feof`, and appends each buffer as a C string.

* `loop_failure`: a pipe that fails before its end is read for ever.
* `loop_spec`: the text collected from a pipe that ends.
* `execute_output`: when `execute` returns, and what it returns.
* `collect`: what it returns for a command whose output ends (`execute_collect`).
-/

namespace Hemiola

/-- The exceptions of `getKeyboard`, with their texts and error numbers. -/
inductive Keyboard.Exception where
  | coded (what : String) (code : Int)
  | execution (what : String) (code : Int)
  | keyboard (what : String)
deriving DecidableEq

namespace Execute

open Lib Stdio

/-- `sizeof ( buffer )` -/
def bufferSize : Nat := 4096

/-- The loop, with `fuel` for its rounds. -/
def loop : Nat → Stream → Str → Option Str
  | 0, _, _ => none
  | fuel + 1, pipe, result =>
    if pipe.feof then some result
    else
      let (line, pipe) := fgets bufferSize pipe
      loop fuel pipe (match line with
        | some buffer => result ++ cString buffer
        | none => result)

/-- `popen` gives an error number or the pipe. The value is `none` while the loop goes on. -/
def execute (fuel : Nat) (popen : Except Int Stream) : Except Keyboard.Exception (Option Str) :=
  match popen with
  | .error errno => .error (.execution "popen error" errno)
  | .ok pipe => .ok (loop fuel pipe [])

/-- The pipe of a command that prints `output`. -/
def opened (output : Str) (ending : Ending) : Stream := ⟨output, ending, false⟩

theorem loop_failure {pipe : Stream} (hending : pipe.ending = .failure)
    (hfeof : pipe.feof = false) (fuel : Nat) (result : Str) : loop fuel pipe result = none := by
  induction fuel generalizing pipe result with
  | zero => rfl
  | succ fuel ih =>
    obtain ⟨hending', hfeof'⟩ := @fgets_failure bufferSize _ hending hfeof
    rw [loop, hfeof, if_neg Bool.false_ne_true]
    exact ih hending' hfeof' _

/-- What is collected of a text: all of it but what stands behind a NUL in its piece. -/
structure Collected (text collected : Str) : Prop where
  sublist : collected.Sublist text
  no_nul : nul ∉ collected
  whole : nul ∉ text → collected = text

theorem collected_append {line rest collected : Str} (h : Collected rest collected) :
    Collected (line ++ rest) (cString line ++ collected) where
  sublist := (cString_sublist line).append h.sublist
  no_nul := by
    intro hmem
    rcases List.mem_append.mp hmem with hmem | hmem
    · exact nul_not_mem_cString line hmem
    · exact h.no_nul hmem
  whole := by
    intro hnul
    rw [cString_eq_self fun hmem => hnul (List.mem_append_left _ hmem),
      h.whole fun hmem => hnul (List.mem_append_right _ hmem)]

theorem collected_nil : Collected [] [] := ⟨List.Sublist.refl _, List.not_mem_nil, fun _ => rfl⟩

/-- Each round but the last two takes a piece from the text. -/
theorem loop_spec {fuel : Nat} {pipe : Stream} (hending : pipe.ending = .eof)
    (hfeof : pipe.feof = false) (hfuel : pipe.rest.length + 1 < fuel) (result : Str) :
    ∃ collected, Collected pipe.rest collected ∧
      loop fuel pipe result = some (result ++ collected) := by
  have hsize : 1 < bufferSize := by decide
  induction fuel generalizing pipe result with
  | zero => exact absurd hfuel (Nat.not_lt_zero _)
  | succ fuel ih =>
    rw [loop, hfeof, if_neg Bool.false_ne_true]
    by_cases hrest : pipe.rest = []
    · obtain ⟨fuel, rfl⟩ : ∃ n, fuel = n + 1 := Nat.exists_eq_succ_of_ne_zero (by omega)
      rw [fgets_nil hsize hrest hending, hrest]
      exact ⟨[], collected_nil, (congrArg some (List.append_nil result)).symm⟩
    · obtain ⟨line, rest, feof, hread, hline, hsplit, hlast⟩ :=
        fgets_cons hsize hrest hending hfeof
      have hpos := List.length_pos_of_ne_nil hline
      rw [← hsplit, List.length_append] at hfuel
      rw [hread, ← hsplit]
      cases feof with
      | true =>
        -- the line was ended by the end of the text
        obtain ⟨fuel, rfl⟩ : ∃ n, fuel = n + 1 := Nat.exists_eq_succ_of_ne_zero (by omega)
        rw [hlast rfl]
        exact ⟨_, collected_append collected_nil, by rw [List.append_nil]; rfl⟩
      | false =>
        obtain ⟨collected, hcollected, hloop⟩ := @ih ⟨rest, .eof, false⟩ rfl rfl
          (by show rest.length + 1 < fuel; omega) (result ++ cString line)
        refine ⟨_, collected_append hcollected, ?_⟩
        rw [← List.append_assoc]
        exact hloop

theorem loop_mono {fuel : Nat} {pipe : Stream} {result text : Str}
    (h : loop fuel pipe result = some text) (more : Nat) :
    loop (fuel + more) pipe result = some text := by
  induction fuel generalizing pipe result with
  | zero => cases h
  | succ fuel ih =>
    rw [Nat.succ_add, loop]
    rw [loop] at h
    split_ifs at h ⊢
    · exact h
    · exact ih h

/-- **The output of a command.** `execute` comes to an end exactly if the pipe does; it then
returns the output without what follows a NUL in a line or piece, so the output itself exactly if
no character of it is NUL. -/
theorem execute_output (output : Str) (ending : Ending) :
    ((∃ fuel result, execute fuel (.ok (opened output ending)) = .ok (some result)) ↔
      ending = .eof) ∧
    ∀ fuel result, execute fuel (.ok (opened output ending)) = .ok (some result) →
      result.Sublist output ∧ nul ∉ result ∧ (result = output ↔ nul ∉ output) := by
  have hends : ending = .eof → ∃ collected, Collected output collected ∧
      loop (output.length + 2) (opened output ending) [] = some collected := fun hending =>
    @loop_spec _ (opened output ending) hending rfl (Nat.lt_succ_self _) []
  have hfails : ∀ fuel result, loop fuel (opened output ending) [] = some result →
      ending = .eof := by
    intro fuel result h
    cases ending with
    | eof => rfl
    | failure =>
      rw [@loop_failure (opened output .failure) rfl rfl] at h
      cases h
  refine ⟨⟨fun h => ?_, fun h => ?_⟩, fun fuel result h => ?_⟩
  · obtain ⟨fuel, result, h⟩ := h
    exact hfails fuel result (Except.ok.inj h)
  · obtain ⟨collected, _, hloop⟩ := hends h
    exact ⟨_, collected, congrArg Except.ok hloop⟩
  · have h : loop fuel (opened output ending) [] = some result := Except.ok.inj h
    obtain ⟨collected, hcollected, hloop⟩ := hends (hfails fuel result h)
    -- two amounts of fuel that are both enough give the same text
    have hsame := (loop_mono h (output.length + 2)).symm.trans
      ((Nat.add_comm fuel _).symm ▸ loop_mono hloop fuel)
    obtain rfl : result = collected := Option.some.inj hsame
    refine ⟨hcollected.sublist, hcollected.no_nul, fun heq => ?_, hcollected.whole⟩
    rw [← heq]
    exact hcollected.no_nul

/-! ## A command whose output ends -/

/-- What `execute` returns when the command prints `output`. -/
def collect (output : Str) : Str :=
  (loop (output.length + 2) (opened output .eof) []).getD []

theorem loop_opened (output : Str) : ∃ collected, Collected output collected ∧
    loop (output.length + 2) (opened output .eof) [] = some collected :=
  @loop_spec _ (opened output .eof) rfl rfl (Nat.lt_succ_self _) []

theorem loop_collect (output : Str) :
    loop (output.length + 2) (opened output .eof) [] = some (collect output) := by
  obtain ⟨collected, _, hloop⟩ := loop_opened output
  rw [collect, hloop]
  rfl

theorem execute_collect (output : Str) {fuel : Nat} (hfuel : output.length + 2 ≤ fuel) :
    execute fuel (.ok (opened output .eof)) = .ok (some (collect output)) := by
  obtain ⟨more, rfl⟩ := Nat.exists_eq_add_of_le hfuel
  exact congrArg Except.ok (loop_mono (loop_collect output) more)

theorem collected_collect (output : Str) : Collected output (collect output) := by
  obtain ⟨collected, hcollected, hloop⟩ := loop_opened output
  rw [collect, hloop]
  exact hcollected

/-- Of an output without a NUL nothing is lost. -/
theorem collect_eq_self {output : Str} (h : nul ∉ output) : collect output = output :=
  (collected_collect output).whole h

/-- The newline behind a NUL goes with what follows it. -/
example : collect ['a', nul, '\n', 'b', '\n'] = ['a', 'b', '\n'] := by decide +kernel

end Execute
end Hemiola
