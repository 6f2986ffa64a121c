import Vdbg.Lib.Subroutines
import Vdbg.Tokens

/-!
# Command lines and scripts

`handle_command`, which finds the handler of a line in the table of commands, and `cmd_source`,
which gives it the lines of a script. A script that sources itself in the end is read again and
again, until `fopen` refuses to open one file more (`cmdSource_ends_iff`). As it does, sourcing
always returns (`cmdSource_returns`).
-/

namespace Vdbg

open Fields Subroutines

/-! ## The commands -/

/-- The handlers of `commands`. -/
inductive Handler where
  | cmdArguments | cmdBreak | cmdBacktrace | cmdContinue | cmdClear | cmdContext | cmdDelete
  | cmdDisable | cmdDisassemble | cmdExit | cmdEnable | cmdFinish | cmdFiles | cmdFunctions
  | cmdHelp | cmdHeader | cmdList | cmdLs | cmdMem | cmdNext | cmdPlt | cmdRun | cmdRestart | cmdReg | cmdStep
  | cmdStepi | cmdSource | cmdSections | cmdSymbols | cmdVmmap
deriving DecidableEq, Repr

/-- `command_entry` -/
structure CommandEntry where
  name : String
  handler : Handler
  requiresRunningPid : Bool
  requiresDwarfSymbols : Bool
deriving DecidableEq, Repr

def commands : List CommandEntry := [
  ⟨"arguments", .cmdArguments, false, false⟩,
  ⟨"break", .cmdBreak, false, false⟩,
  ⟨"backtrace", .cmdBacktrace, true, false⟩,
  ⟨"continue", .cmdContinue, true, false⟩,
  ⟨"clear", .cmdClear, false, false⟩,
  ⟨"context", .cmdContext, true, true⟩,
  ⟨"delete", .cmdDelete, false, false⟩,
  ⟨"disable", .cmdDisable, false, false⟩,
  ⟨"disassemble", .cmdDisassemble, false, false⟩,
  ⟨"exit", .cmdExit, false, false⟩,
  ⟨"enable", .cmdEnable, false, false⟩,
  ⟨"finish", .cmdFinish, true, true⟩,
  ⟨"files", .cmdFiles, false, false⟩,
  ⟨"functions", .cmdFunctions, false, false⟩,
  ⟨"help", .cmdHelp, false, false⟩,
  ⟨"header", .cmdHeader, false, false⟩,
  ⟨"list", .cmdList, false, false⟩,
  ⟨"ls", .cmdLs, false, false⟩,
  ⟨"memory", .cmdMem, true, false⟩,
  ⟨"next", .cmdNext, true, true⟩,
  ⟨"plt", .cmdPlt, false, false⟩,
  ⟨"run", .cmdRun, false, false⟩,
  ⟨"restart", .cmdRestart, true, false⟩,
  ⟨"register", .cmdReg, true, false⟩,
  ⟨"step", .cmdStep, true, true⟩,
  ⟨"stepi", .cmdStepi, true, false⟩,
  ⟨"source", .cmdSource, false, false⟩,
  ⟨"sections", .cmdSections, false, false⟩,
  ⟨"symbols", .cmdSymbols, false, false⟩,
  ⟨"vmmap", .cmdVmmap, true, false⟩]

/-- `is_prefix`, for an input that may be `NULL`. -/
def isPrefix (input : Option (List Char)) (command : String) : Bool :=
  input.any (·.isPrefixOf command.toList)

/-- The entry for a command: an exact match, or else the first that it is a prefix of. -/
def findCommand (command : List Char) : Option CommandEntry :=
  match commands.find? (·.name.toList = command) with
  | some entry => some entry
  | none => commands.find? (isPrefix (some command) ·.name)

/-- What `handle_command` does with a line. -/
inductive Dispatched where
  /-- It returns, or prints that the command is invalid. -/
  | nothing
  | requiresRunning (name : String)
  | requiresDwarf (name : String)
  | handled (handler : Handler) (args : List (List Char))
deriving DecidableEq, Repr

/-- `handle_command` up to the call of the handler. The tokens of the line are those of `split`,
followed by a `NULL` (`split_eq`). -/
def dispatch (active dwarf : Bool) (input : List Char) : Dispatched :=
  match fields ' ' input with
  | [] => .nothing
  | command :: args =>
    match findCommand command with
    | none => .nothing
    | some entry =>
      if !active && entry.requiresRunningPid then .requiresRunning entry.name
      else if entry.requiresDwarfSymbols && !dwarf then .requiresDwarf entry.name
      else .handled entry.handler (command :: args)

/-! ## Scripts -/

/-- The files there are, and which of them a path names, if there is one to open. -/
structure Scripts where
  texts : List (List Char)
  find : List Char → Option (Fin texts.length)

/-- The lines that `getline` reads, without their newlines, and up to a null character. After the
last newline there is an empty one, which is skipped. -/
def scriptLines (text : List Char) : List (List Char) :=
  (text.splitOn '\n').map (·.takeWhile (· ≠ '\x00'))

/-- The commands, and what their requirements are tested against. -/
structure Scripts.Handlers (S : Type) where
  isActive : S → Bool
  hasDwarfSymbols : S → Bool
  /-- The handlers other than `cmd_source` return, or end the program as `cmd_exit` does. -/
  handle : Handler → List (List Char) → S → Outcome S

namespace Scripts

variable {S : Type} (scripts : Scripts) (opens : ℕ → Bool) (handlers : Handlers S)

/-- `handle_command`, with `cmd_source` for a path given. Without a path there is no file. -/
def handleCommand (source : List Char → S → Option (Outcome S)) (input : List Char) (s : S) :
    Option (Outcome S) :=
  match dispatch (handlers.isActive s) (handlers.hasDwarfSymbols s) input with
  | .handled .cmdSource args =>
    match args[1]? with
    | none => some (.returned s)
    | some path => source path s
  | .handled handler args => some (handlers.handle handler args s)
  | _ => some (.returned s)

/-- The loop of `cmd_source` over the lines of a script. -/
def sourceLines (source : List Char → S → Option (Outcome S)) :
    List (List Char) → S → Option (Outcome S)
  | [], s => some (.returned s)
  | line :: lines, s =>
    if line.head? = some '#' then sourceLines source lines s
    else if line = [] then sourceLines source lines s
    else
      match handleCommand handlers source line s with
      | none => none
      | some .ended => some .ended
      | some (.returned s) => sourceLines source lines s

/-- `cmd_source`, with so many scripts open already and no more than `fuel` calls inside each other.
`fopen` may refuse to open one more. -/
def cmdSource (fuel depth : ℕ) (path : List Char) (s : S) : Option (Outcome S) :=
  match scripts.find path with
  | none => some (.returned s)
  | some script =>
    if opens depth then
      match fuel with
      | 0 => none
      | fuel + 1 =>
        sourceLines handlers (cmdSource fuel (depth + 1)) (scriptLines scripts.texts[script]) s
    else some (.returned s)

/-- `cmd_source` comes to an end after finitely many command lines. -/
def SourceEnds (path : List Char) (s : S) : Prop :=
  ∃ fuel, (cmdSource scripts opens handlers fuel 0 path s).isSome

/-- The path that a line sources, whatever the state. -/
def sourcedBy (line : List Char) : Option (List Char) :=
  if line.head? = some '#' then none
  else
    match dispatch true true line with
    | .handled .cmdSource args => args[1]?
    | _ => none

/-- A script has a line that sources another. -/
def Sources (script script' : Fin scripts.texts.length) : Prop :=
  ∃ line ∈ scriptLines scripts.texts[script], (sourcedBy line).bind scripts.find = some script'

/-- A script that the path leads to sources itself in the end. -/
def Circular (path : List Char) : Prop :=
  ∃ script, scripts.find path = some script ∧
    ∃ script', Relation.ReflTransGen scripts.Sources script script' ∧
      Relation.TransGen scripts.Sources script' script'

/-! ## The lines as steps -/

/-- A line as a step: a call of the script it sources, or a command. -/
def stepOf (line : List Char) : Step (List Char) (Fin scripts.texts.length) :=
  match (sourcedBy line).bind scripts.find with
  | none => .act line
  | some script => .call script

/-- What a line does that sources no script. -/
def actOf (line : List Char) (s : S) : Outcome S :=
  if line.head? = some '#' then .returned s
  else
    match dispatch (handlers.isActive s) (handlers.hasDwarfSymbols s) line with
    | .handled .cmdSource _ => .returned s
    | .handled handler args => handlers.handle handler args s
    | _ => .returned s

variable {scripts opens handlers}

theorem findCommand_mem {command : List Char} {entry : CommandEntry}
    (h : findCommand command = some entry) : entry ∈ commands := by
  unfold findCommand at h
  split at h
  · rename_i hexact
    cases h
    exact List.mem_of_find?_eq_some hexact
  · exact List.mem_of_find?_eq_some h

theorem source_requires_nothing : ∀ entry ∈ commands, entry.handler = .cmdSource →
    entry.requiresRunningPid = false ∧ entry.requiresDwarfSymbols = false := by
  decide

/-- `source` is dispatched in every state. -/
theorem dispatch_source {active dwarf : Bool} {line : List Char} {args : List (List Char)} :
    dispatch active dwarf line = .handled .cmdSource args ↔
      dispatch true true line = .handled .cmdSource args := by
  unfold dispatch
  cases fields ' ' line with
  | nil => rfl
  | cons command rest =>
    simp only
    cases hfind : findCommand command with
    | none => rfl
    | some entry =>
      by_cases hsource : entry.handler = .cmdSource
      · obtain ⟨hrunning, hdwarf⟩ := source_requires_nothing entry (findCommand_mem hfind) hsource
        simp [hrunning, hdwarf]
      · simp only
        split_ifs <;> simp [hsource]

theorem sourcedBy_of_source {active dwarf : Bool} {line : List Char} {args : List (List Char)}
    (hline : line.head? ≠ some '#') (h : dispatch active dwarf line = .handled .cmdSource args) :
    sourcedBy line = args[1]? := by
  rw [sourcedBy, if_neg hline, dispatch_source.mp h]

theorem sourcedBy_of_other {active dwarf : Bool} {line : List Char}
    (h : ∀ args, dispatch active dwarf line ≠ .handled .cmdSource args) :
    sourcedBy line = none := by
  unfold sourcedBy
  split_ifs
  · rfl
  · split
    · rename_i args hargs
      exact absurd (dispatch_source.mpr hargs) (h args)
    · rfl

section Simulation

variable {source call : List Char → S → Option (Outcome S)} {line : List Char} {s : S}
  {callScript : Fin scripts.texts.length → S → Option (Outcome S)}

/-- The runs of the scripts by their paths. -/
def byPath (scripts : Scripts) (callScript : Fin scripts.texts.length → S → Option (Outcome S))
    (path : List Char) (s : S) : Option (Outcome S) :=
  match scripts.find path with
  | none => some (.returned s)
  | some script => callScript script s

theorem handleCommand_of_other (hline : line.head? ≠ some '#')
    (h : ∀ args, dispatch (handlers.isActive s) (handlers.hasDwarfSymbols s) line ≠
      .handled .cmdSource args) :
    handleCommand handlers source line s = some (actOf handlers line s) := by
  unfold handleCommand actOf
  rw [if_neg hline]
  cases hd : dispatch (handlers.isActive s) (handlers.hasDwarfSymbols s) line with
  | handled handler args =>
    cases handler <;> first | rfl | exact absurd hd (h args)
  | _ => rfl

/-- A line that is no comment is its step. -/
theorem handleCommand_eq (hline : line.head? ≠ some '#') :
    handleCommand handlers (byPath scripts callScript) line s =
      runStep (actOf handlers) callScript (scripts.stepOf line) s := by
  unfold stepOf
  by_cases hsource : ∃ args, dispatch (handlers.isActive s) (handlers.hasDwarfSymbols s) line =
      .handled .cmdSource args
  · obtain ⟨args, hargs⟩ := hsource
    rw [sourcedBy_of_source hline hargs, handleCommand, hargs]
    have hact : actOf handlers line s = .returned s := by rw [actOf, if_neg hline, hargs]
    simp only
    cases args[1]? with
    | none => exact congrArg some hact.symm
    | some path =>
      simp only [Option.bind_some, byPath]
      cases scripts.find path with
      | none => exact congrArg some hact.symm
      | some script => rfl
  · have hother := not_exists.mp hsource
    rw [handleCommand_of_other hline hother, sourcedBy_of_other hother]
    rfl

theorem actOf_returned
    (h : ∀ handler args s, ∃ s', handlers.handle handler args s = .returned s') (line : List Char)
    (s : S) : ∃ s', actOf handlers line s = .returned s' := by
  unfold actOf
  split_ifs
  · exact ⟨s, rfl⟩
  · split
    · exact ⟨s, rfl⟩
    · exact h _ _ s
    · exact ⟨s, rfl⟩

/-- The lines of a script are its steps; comments and empty lines do nothing. -/
theorem sourceLines_eq (lines : List (List Char)) :
    sourceLines handlers (byPath scripts callScript) lines s =
      runSteps (actOf handlers) callScript (lines.map scripts.stepOf) s := by
  induction lines generalizing s with
  | nil => rfl
  | cons line lines ih =>
    rw [List.map_cons, sourceLines, runSteps]
    split_ifs with hcomment hempty
    · have hstep : scripts.stepOf line = .act line := by
        rw [stepOf, sourcedBy, if_pos hcomment]
        rfl
      have hact : actOf handlers line s = .returned s := by rw [actOf, if_pos hcomment]
      rw [hstep, runStep, hact]
      exact ih
    · rw [hempty]
      exact ih
    · rw [handleCommand_eq hcomment]
      cases runStep (actOf handlers) callScript (scripts.stepOf line) s with
      | none => rfl
      | some o =>
        cases o with
        | ended => rfl
        | returned s' => exact ih

end Simulation

/-- The steps of a script. -/
def body (scripts : Scripts) (script : Fin scripts.texts.length) :
    List (Step (List Char) (Fin scripts.texts.length)) :=
  (scriptLines scripts.texts[script]).map scripts.stepOf

theorem calls_body_iff {script script' : Fin scripts.texts.length} :
    Calls scripts.body script script' ↔ scripts.Sources script script' := by
  unfold Calls body Sources stepOf
  rw [List.mem_map]
  refine exists_congr fun line => and_congr_right fun _ => ?_
  cases (sourcedBy line).bind scripts.find <;> simp

/-- `cmd_source` runs the script of the path. -/
theorem cmdSource_eq (fuel depth : ℕ) (path : List Char) (s : S) :
    cmdSource scripts opens handlers fuel depth path s =
      byPath scripts (Subroutines.run (actOf handlers) scripts.body opens fuel depth) path s := by
  induction fuel generalizing depth path s with
  | zero => rw [cmdSource, byPath]; rfl
  | succ fuel ih =>
    have hsource : cmdSource scripts opens handlers fuel (depth + 1) =
        byPath scripts (Subroutines.run (actOf handlers) scripts.body opens fuel (depth + 1)) := by
      funext path s
      exact ih (depth + 1) path s
    rw [cmdSource, byPath]
    simp only [hsource, sourceLines_eq]
    cases scripts.find path with
    | none => rfl
    | some script => rfl

theorem sourceEnds_iff {path : List Char} {s : S} {script : Fin scripts.texts.length}
    (hfind : scripts.find path = some script) : SourceEnds scripts opens handlers path s ↔
      Subroutines.Ends (actOf handlers) scripts.body opens 0 script s := by
  unfold SourceEnds Subroutines.Ends
  refine exists_congr fun fuel => ?_
  rw [cmdSource_eq, byPath, hfind]

theorem sourceEnds_of_not_found {path : List Char} {s : S} (hfind : scripts.find path = none) :
    SourceEnds scripts opens handlers path s := by
  refine ⟨0, ?_⟩
  rw [cmdSource_eq, byPath, hfind]
  rfl

theorem not_circular_iff {path : List Char} {script : Fin scripts.texts.length}
    (hfind : scripts.find path = some script) :
    ¬ scripts.Circular path ↔ Acc (flip (Calls scripts.body)) script := by
  have hcalls : Calls scripts.body = scripts.Sources := by
    funext script script'
    exact propext calls_body_iff
  rw [hcalls, acc_iff_no_cycle, Circular, hfind]
  simp

/-- Where the other commands return, it returns if it comes to an end. -/
theorem cmdSource_returned {fuel depth : ℕ} {path : List Char} {s : S} {o : Outcome S}
    (hreturned : ∀ handler args s, ∃ s', handlers.handle handler args s = .returned s')
    (h : cmdSource scripts opens handlers fuel depth path s = some o) :
    ∃ s', o = .returned s' := by
  rw [cmdSource_eq, byPath] at h
  cases hfind : scripts.find path with
  | none =>
    rw [hfind] at h
    exact ⟨s, (Option.some.inj h).symm⟩
  | some script =>
    rw [hfind] at h
    exact run_returns (actOf_returned hreturned) h

/-- Where the other commands return, it comes to an end only without a circle. -/
theorem sourceEnds_iff_of_returned {path : List Char} {s : S} {script : Fin scripts.texts.length}
    (hreturned : ∀ handler args s, ∃ s', handlers.handle handler args s = .returned s')
    (hfind : scripts.find path = some script) : SourceEnds scripts opens handlers path s ↔
      ¬ scripts.Circular path ∨ ∃ depth, opens depth = false := by
  rw [sourceEnds_iff hfind, not_circular_iff hfind]
  exact Subroutines.ends_iff (actOf_returned hreturned)

end Scripts

/-- Sourcing comes to an end, whatever the other commands do, exactly if no script that the path
leads to sources itself in the end, or `fopen` refuses to open a script inside so many others. -/
theorem cmdSource_ends_iff {S : Type} (scripts : Scripts) (opens : ℕ → Bool) (path : List Char)
    (s : S) : (∀ handlers : Scripts.Handlers S, Scripts.SourceEnds scripts opens handlers path s) ↔
      ¬ scripts.Circular path ∨ ∃ depth, opens depth = false := by
  cases hfind : scripts.find path with
  | none =>
    refine iff_of_true (fun _ => Scripts.sourceEnds_of_not_found hfind) (.inl ?_)
    rintro ⟨script, hscript, -⟩
    rw [hfind] at hscript
    cases hscript
  | some script =>
    constructor
    · intro h
      -- the handlers that leave every state as it is
      let idle : Scripts.Handlers S := ⟨fun _ => true, fun _ => true, fun _ _ s => .returned s⟩
      have hreturned : ∀ handler args s, ∃ s', idle.handle handler args s = .returned s' :=
        fun _ _ s => ⟨s, rfl⟩
      exact (Scripts.sourceEnds_iff_of_returned hreturned hfind).mp (h idle)
    · intro h handlers
      rw [Scripts.not_circular_iff hfind] at h
      exact (Scripts.sourceEnds_iff hfind).mpr (ends_of_acc_or_no_room h s)

/-- **Sourcing scripts ends.** Whatever the scripts are, where the other commands return and `fopen`
refuses to open a script inside so many others, sourcing comes to an end, and returns. -/
theorem cmdSource_returns {S : Type} (scripts : Scripts) (opens : ℕ → Bool)
    (hlimit : ∃ depth, opens depth = false) (handlers : Scripts.Handlers S)
    (hreturned : ∀ handler args s, ∃ s', handlers.handle handler args s = .returned s')
    (path : List Char) (s : S) :
    ∃ fuel s', Scripts.cmdSource scripts opens handlers fuel 0 path s = some (.returned s') := by
  obtain ⟨fuel, hends⟩ := (cmdSource_ends_iff scripts opens path s).mpr (.inr hlimit) handlers
  obtain ⟨o, ho⟩ := Option.isSome_iff_exists.mp hends
  obtain ⟨s', rfl⟩ := Scripts.cmdSource_returned hreturned ho
  exact ⟨fuel, s', ho⟩

/-- A script that sources itself by the shortest name of the command. -/
def selfSource : Scripts where
  texts := ["so self\n".toList]
  find path := if path = "self".toList then some 0 else none

/-- It is read inside itself until no more files can be opened. -/
theorem cmdSource_returns_selfSource :
    (∃ script, selfSource.Sources script script) ∧
    ∃ fuel s', Scripts.cmdSource selfSource (fun depth => decide (depth < 1019))
      ⟨fun _ => false, fun _ => false, fun _ _ s => .returned s⟩ fuel 0 "self".toList () =
        some (.returned s') :=
  ⟨⟨⟨0, Nat.one_pos⟩, "so self".toList, by decide, by decide⟩,
    cmdSource_returns selfSource _ ⟨1019, rfl⟩ _ (fun _ _ s => ⟨s, rfl⟩) _ ()⟩

end Vdbg
