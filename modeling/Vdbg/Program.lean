import Vdbg.Backtrace
import Vdbg.BreakpointList
import Vdbg.Handlers
import Vdbg.Lib.Faults
import Vdbg.Options

/-!
# The program

`main`: the options, the commands they give, and the loop of `dbg_start` over what is typed. Every
text is handled by `handle_command`, and the answers to the questions of `run` and `exit` come from
the same terminal as the lines.

A property of the debugger that every handler keeps holds at every prompt, and what the faults of
the handlers have, the end of the program has (`Handles.debug`).
-/

namespace Vdbg

open FaultRun

/-- How the program ends: it exits, or a fault strikes while it handles a line or after the last
line. -/
inductive Ended where
  | exited (w : World)
  | crashed (line : Option (List Char)) (m : Misuse) (w : World)

/-- The debugger, and what `readline` returns from now on: lines, and `none` where the file ends.
After the last of them the file ends again and again. -/
structure Shell where
  world : World
  input : List (Option (List Char))

namespace Shell

def readline (s : Shell) : Option (List Char) × Shell :=
  match s.input with
  | [] => (none, s)
  | line :: input => (line, { s with input })

/-- The debugger after a call of `line`. -/
def ran (s : Shell) (line : Option (List Char)) (r : Res World) : Except Ended Shell :=
  match r with
  | .ok w => .ok { s with world := w }
  | .error (φ, w) => .error (.crashed line (.fault φ) w)

/-- The debugger after a handler that may misuse its arguments. -/
def handled (s : Shell) (line : List Char) (r : Handled) : Except Ended Shell :=
  match r with
  | .ok (w, _) => .ok { s with world := w }
  | .error m => .error (.crashed (some line) m s.world)

end Shell

namespace Program

variable (k : Kernel) (syms : Symbols) (scripts : Scripts) (turns : ℕ)

/-- An answer that starts with `y`. -/
def saysYes (ans : List Char) : Bool := ans.head? = some 'y'

/-- `dbg_kill_tracee` with its question, which the end of the file answers with yes. -/
def askToKill (line : Option (List Char)) (s : Shell) : Except Ended (Bool × Shell) :=
  let asked := if s.world.state = .active ∧ s.world.tracee.alive s.world.pid then s.readline
    else (none, s)
  match dbgKillTracee k s.world (asked.1.all saysYes) with
  | .ok (killed, w) => .ok (killed, { asked.2 with world := w })
  | .error (φ, w) => .error (.crashed line (.fault φ) w)

/-- `dbg_free`, and the end. -/
def leave (line : Option (List Char)) (s : Shell) : Ended :=
  match dbgFree k s.world with
  | .ok w => .exited w
  | .error (φ, w) => .crashed line (.fault φ) w

/-- `cmd_exit`, and what `dbg_start` does at the end of the file. -/
def quit (line : Option (List Char)) (s : Shell) : Except Ended Shell := do
  let (killed, s) ← askToKill k line s
  if killed then .error (leave k line s) else return s

/-- `run` with its question, which only a `y` answers with yes. -/
def cmdRun (line : List Char) (s : Shell) : Except Ended Shell :=
  if s.world.state = .active then
    s.readline.2.ran line (run k syms s.world (s.readline.1.any saysYes))
  else s.ran line (run k syms s.world true)

/-- The handlers other than `cmd_source`. The loops of `step` and `backtrace` are given a number of
turns. -/
def perform (handler : Handler) (args : List (List Char)) (line : List Char) (s : Shell) :
    Except Ended Shell :=
  match handler with
  | .cmdBreak => s.ran line (cmdBreak k syms s.world (args.tail.map parseBreakArg))
  | .cmdDelete => s.ran line (cmdDelete k syms s.world (args.tail.map parseBpArg))
  | .cmdEnable => s.ran line (cmdEnable k syms s.world (args.tail.map parseBpArg))
  | .cmdDisable => s.ran line (cmdDisable k syms s.world (args.tail.map parseBpArg))
  | .cmdList => s.ran line do let _ ← printBreakpointList s.world; return s.world
  | .cmdRun => cmdRun k syms line s
  | .cmdRestart => s.ran line (restart k syms s.world)
  | .cmdContinue => s.ran line (continueExecution k syms s.world)
  | .cmdStepi => s.ran line (cmdStepi k syms s.world)
  | .cmdStep => s.ran line (stepIn k syms turns s.world)
  | .cmdNext => s.ran line (stepOver k syms s.world)
  | .cmdFinish => s.ran line (stepOut k syms s.world)
  | .cmdBacktrace => s.ran line (printBacktrace k syms turns s.world)
  | .cmdContext =>
    s.ran line (cmdContext k syms s.world (args[1]?.map fun context => .ofInt 32 (atoi context)))
  | .cmdReg => s.handled line (cmdReg k s.world args)
  | .cmdMem => s.handled line (cmdMem k s.world args)
  | .cmdExit => quit k line s
  -- these print what is in a file, or act on the arguments of the tracee
  | .cmdArguments | .cmdClear | .cmdDisassemble | .cmdFiles | .cmdFunctions | .cmdHelp | .cmdHeader
  | .cmdLs | .cmdPlt | .cmdSections | .cmdSymbols | .cmdVmmap | .cmdSource => .ok s

/-- `handle_command`, with `cmd_source` for a path. Without one `fopen` is given `NULL`. -/
def handleCommand (source : List Char → Shell → Except Ended Shell) (line : List Char) (s : Shell) :
    Except Ended Shell :=
  match dispatch (s.world.state = .active) syms.hasDwarf line with
  | .handled .cmdSource args =>
    match args[1]? with
    | none => .error (.crashed line .nullArgument s.world)
    | some path => source path s
  | .handled handler args => perform k syms turns handler args line s
  | _ => .ok s

/-- One turn of the loop of `cmd_source`. -/
def sourceLine (source : List Char → Shell → Except Ended Shell) (s : Shell) (line : List Char) :
    Except Ended Shell :=
  if line.head? = some '#' then .ok s
  else if line = [] then .ok s
  else handleCommand k syms turns source line s

/-- `cmd_source`, where `fopen` opens no more than so many files inside each other. -/
def cmdSource : ℕ → List Char → Shell → Except Ended Shell
  | 0, _, s => .ok s
  | room + 1, path, s =>
    match scripts.find path with
    | none => .ok s
    | some script =>
      (scriptLines (scripts.texts.get script)).foldlM (sourceLine k syms turns (cmdSource room)) s

/-- The loop of `dbg_start`, for a number of prompts. An empty line is the last one again. -/
def dbgStart (handle : List Char → Shell → Except Ended Shell) :
    ℕ → Option (List Char) → Shell → Except Ended Shell
  | 0, _, s => .ok s
  | n + 1, lastInput, s =>
    match s.readline with
    | (some [], s) =>
      match lastInput with
      | none => dbgStart handle n none s
      | some line => do dbgStart handle n (some line) (← handle line s)
    | (some line, s) => do dbgStart handle n (some line) (← handle line s)
    | (none, s) => do dbgStart handle n lastInput (← quit k none s)

variable (room : ℕ)

/-- `handle_command`, with so much room for scripts. -/
def handle : List Char → Shell → Except Ended Shell :=
  handleCommand k syms turns (cmdSource k syms scripts turns room)

/-- What `main` does before the first prompt. -/
def start (script : Option Arg) (commandList : List Arg) (s : Shell) : Except Ended Shell :=
  match script with
  | some path => cmdSource k syms scripts turns room path s
  | none => commandList.foldlM (fun s line => handle k syms scripts turns room line s) s

/-- `main` after the executable was loaded. Every prompt takes one input, and one more prompt finds
the end of the file. -/
def debug (script : Option Arg) (commandList : List Arg) (input : List (Option (List Char))) :
    Except Ended Shell := do
  let s ← start k syms scripts turns room script commandList ⟨dbgInit, input⟩
  dbgStart k (handle k syms scripts turns room) (input.length + 1) none s

/-- The commands that `main` handles. -/
def commandsOf : CommandList → List Arg
  | .commands list => list
  | .unset | .freed => []

/-- `main`, for an executable that can be loaded. Without one it returns, with a usage or an error
message. -/
def main (malloc : ℕ → Bool) (argv : List Arg) (input : List (Option (List Char))) :
    Except Fault (Option (Except Ended Shell)) := do
  if argv.length < 2 then return none
  let parsed ← parseArguments malloc argv
  match parsed.executable with
  | none => return none
  | some _ =>
    return some (debug k syms scripts turns room parsed.scriptPath (commandsOf parsed.commandList)
      input)

end Program

/-! ## From prompt to prompt -/

/-- A call from a prompt: it ends the program with `P`, or comes back to a prompt with `I`, where
some of the input was taken. -/
structure AtPrompt (P : Ended → Prop) (I : World → Prop) (s : Shell) (r : Except Ended Shell) :
    Prop where
  ends : Faults P r
  keeps : ∀ s', r = .ok s' → I s'.world
  input : ∀ s', r = .ok s' → s'.input <:+ s.input

variable {P : Ended → Prop} {I : World → Prop} {k : Kernel} {syms : Symbols} {scripts : Scripts}
  {turns room : ℕ} {s s' : Shell} {r : Except Ended Shell} {line : List Char} {w : World}

namespace AtPrompt

theorem ok (h : I s.world) : AtPrompt P I s (.ok s) where
  ends := Faults.ok s
  keeps s' he := by cases he; exact h
  input s' he := by cases he; exact List.suffix_refl _

theorem error {e : Ended} (h : P e) : AtPrompt P I s (.error e) where
  ends := Faults.error h
  keeps s' he := by cases he
  input s' he := by cases he

theorem bind {f : Shell → Except Ended Shell} (h : AtPrompt P I s r)
    (hf : ∀ s', I s'.world → AtPrompt P I s' (f s')) : AtPrompt P I s (r >>= f) := by
  rcases r with e | s₁
  · exact .error (h.ends e rfl)
  · have h₁ := hf s₁ (h.keeps s₁ rfl)
    exact ⟨h₁.ends, h₁.keeps, fun s' he => (h₁.input s' he).trans (h.input s₁ rfl)⟩

theorem foldlM {α : Type} {step : Shell → α → Except Ended Shell} {as : List α}
    (hstep : ∀ s a, I s.world → AtPrompt P I s (step s a)) (h : I s.world) :
    AtPrompt P I s (as.foldlM step s) := by
  induction as generalizing s with
  | nil => exact .ok h
  | cons a as ih =>
    rw [List.foldlM_cons]
    exact (hstep s a h).bind fun s' h' => ih h'

/-- More input was there before. -/
theorem taken (h : AtPrompt P I s' r) (hinput : s'.input <:+ s.input) : AtPrompt P I s r :=
  ⟨h.ends, h.keeps, fun s₁ he => (h.input s₁ he).trans hinput⟩

end AtPrompt

theorem readline_input (s : Shell) : s.readline.2.input <:+ s.input := by
  unfold Shell.readline
  split
  · exact List.suffix_refl _
  · rename_i hinput
    rw [hinput]
    exact List.suffix_cons _ _

theorem readline_world (s : Shell) : s.readline.2.world = s.world := by
  unfold Shell.readline
  split <;> rfl

/-- A call whose faults end a run of the debugger with `P`. -/
abbrev Crashes {α : Type} (P : Ended → Prop) (line : Option (List Char)) (Q : α → Prop)
    (x : Res α) : Prop :=
  Yields (fun e : Fault × World => P (.crashed line (.fault e.1) e.2)) Q x

theorem atPrompt_ran {line : Option (List Char)} {x : Res World} (h : Crashes P line I x) :
    AtPrompt P I s (s.ran line x) := by
  rcases x with ⟨φ, w⟩ | w
  · exact .error (h.faults (φ, w) rfl)
  · exact (AtPrompt.ok (s := { s with world := w }) (h.returns w rfl)).taken (List.suffix_refl _)

theorem atPrompt_handled {x : Handled}
    (h : Yields (fun m => P (.crashed line m s.world)) (fun r => I r.1) x) :
    AtPrompt P I s (s.handled line x) := by
  rcases x with m | ⟨w, values⟩
  · exact .error (h.faults m rfl)
  · exact (AtPrompt.ok (s := { s with world := w }) (h.returns _ rfl)).taken (List.suffix_refl _)

theorem atPrompt_quit {line : Option (List Char)}
    (hkill : ∀ answer, Crashes P line (fun q => I q.2) (dbgKillTracee k s.world answer))
    (hleave : ∀ s', I s'.world → P (Program.leave k line s')) :
    AtPrompt P I s (Program.quit k line s) := by
  unfold Program.quit Program.askToKill
  dsimp only
  set asked := if s.world.state = .active ∧ s.world.tracee.alive s.world.pid then s.readline
    else (none, s) with hasked
  have hinput : asked.2.input <:+ s.input := by
    rw [hasked]
    split_ifs
    · exact readline_input s
    · exact List.suffix_refl _
  have hkilled := hkill (asked.1.all Program.saysYes)
  rcases hres : dbgKillTracee k s.world (asked.1.all Program.saysYes) with ⟨φ, w⟩ | ⟨killed, w⟩
  · exact .error (hkilled.faults (φ, w) hres)
  · have hw : I w := hkilled.returns (killed, w) hres
    show AtPrompt P I s (if killed then .error (Program.leave k line { asked.2 with world := w })
      else .ok { asked.2 with world := w })
    split_ifs
    · exact .error (hleave _ hw)
    · exact (AtPrompt.ok (s := { asked.2 with world := w }) hw).taken hinput

theorem atPrompt_cmdRun (hrun : ∀ answer, Crashes P line I (run k syms s.world answer)) :
    AtPrompt P I s (Program.cmdRun k syms line s) := by
  unfold Program.cmdRun
  split_ifs
  · exact (atPrompt_ran (hrun _)).taken (readline_input s)
  · exact atPrompt_ran (hrun _)

/-- Every handler keeps `I`, or ends the program with `P`. -/
structure Handles (k : Kernel) (syms : Symbols) (turns : ℕ) (P : Ended → Prop) (I : World → Prop) :
    Prop where
  perform : ∀ {handler args line} {s : Shell}, I s.world →
    dispatch (s.world.state = .active) syms.hasDwarf line = .handled handler args →
    AtPrompt P I s (Program.perform k syms turns handler args line s)
  noPath : ∀ {args line} {s : Shell}, I s.world →
    dispatch (s.world.state = .active) syms.hasDwarf line = .handled .cmdSource args →
    args[1]? = none → P (.crashed (some line) .nullArgument s.world)
  quit : ∀ {s : Shell}, I s.world → AtPrompt P I s (Program.quit k none s)

namespace Handles

variable (h : Handles k syms turns P I)

include h

theorem handleCommand {source : List Char → Shell → Except Ended Shell}
    (hsource : ∀ path s, I s.world → AtPrompt P I s (source path s)) (hs : I s.world) :
    AtPrompt P I s (Program.handleCommand k syms turns source line s) := by
  unfold Program.handleCommand
  cases hdispatch : dispatch (s.world.state = .active) syms.hasDwarf line with
  | handled handler args =>
    by_cases hne : handler = .cmdSource
    · subst hne
      dsimp only
      rcases hpath : args[1]? with - | path
      · exact .error (h.noPath hs hdispatch hpath)
      · exact hsource path s hs
    · have hperform := h.perform hs hdispatch
      cases handler <;> first | exact hperform | exact absurd rfl hne
  | _ => exact .ok hs

/-- Scripts inside scripts, by induction on the room for them. -/
theorem cmdSource (room : ℕ) (path : List Char) (hs : I s.world) :
    AtPrompt P I s (Program.cmdSource k syms scripts turns room path s) := by
  induction room generalizing path s with
  | zero => exact .ok hs
  | succ room ih =>
    unfold Program.cmdSource
    split
    · exact .ok hs
    · refine .foldlM (fun s line hs => ?_) hs
      unfold Program.sourceLine
      split_ifs
      · exact .ok hs
      · exact .ok hs
      · exact h.handleCommand (fun path s hs => ih path hs) hs

theorem handle (hs : I s.world) :
    AtPrompt P I s (Program.handle k syms scripts turns room line s) :=
  h.handleCommand (fun path _ => h.cmdSource room path) hs

theorem start {script : Option Arg} {commandList : List Arg} (hs : I s.world) :
    AtPrompt P I s (Program.start k syms scripts turns room script commandList s) := by
  unfold Program.start
  split
  · exact h.cmdSource room _ hs
  · exact .foldlM (fun _ _ => h.handle) hs

/-- The prompts, by induction on their number. -/
theorem dbgStart {handle : List Char → Shell → Except Ended Shell}
    (hhandle : ∀ line s, I s.world → AtPrompt P I s (handle line s)) (n : ℕ)
    (lastInput : Option (List Char)) (hs : I s.world) :
    AtPrompt P I s (Program.dbgStart k handle n lastInput s) := by
  induction n generalizing lastInput s with
  | zero => exact .ok hs
  | succ n ih =>
    have hworld := readline_world s
    have hinput := readline_input s
    unfold Program.dbgStart
    rcases hread : s.readline with ⟨input, s₁⟩
    rw [hread] at hworld hinput
    have hs₁ : I s₁.world := hworld.symm ▸ hs
    rcases input with - | (- | ⟨c, cs⟩)
    · exact ((h.quit hs₁).bind fun s' hs' => ih lastInput hs').taken hinput
    · rcases lastInput with - | line
      · exact (ih none hs₁).taken hinput
      · exact ((hhandle line s₁ hs₁).bind fun s' hs' => ih _ hs').taken hinput
    · exact ((hhandle _ s₁ hs₁).bind fun s' hs' => ih _ hs').taken hinput

/-- From the first prompt on. -/
theorem debug {script : Option Arg} {commandList : List Arg} {input : List (Option (List Char))}
    (hinit : I dbgInit) :
    AtPrompt P I ⟨dbgInit, input⟩
      (Program.debug k syms scripts turns room script commandList input) :=
  (h.start hinit).bind fun _ hs => h.dbgStart (fun _ _ => h.handle) _ _ hs

end Handles

end Vdbg
