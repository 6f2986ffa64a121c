import Vdbg.Debugger

/-!
# Stepping

`stepping.c`: `stepi`, `step`, `next`, `finish` and the frames of `backtrace`. The loop of `step_in`
is given a number of turns, since it ends only when the tracee leaves the line.
-/

namespace Vdbg

variable (k : Kernel) (syms : Symbols)

/-- `single_step_instruction_with_breakpoint_check` -/
def singleStepInstructionWithBreakpointCheck (w : World) : Res World :=
  match mapLookup w.bpLocations (getPc k w.tracee w.pid) with
  | some p => executeStepOverLoc k syms w (some p)
  | none => singleStepInstruction k syms w

/-- `get_register_value(rbp, ...)` and the word above it. -/
def readReturnAddress (w : World) : Addr × World :=
  let framePointer := getRegisterValue k w.tracee .rbp w.pid
  let (returnAddress, t) := readMemory k w.tracee w.pid (framePointer + 8)
  (returnAddress, w.setTracee t)

/-- `step_out` -/
def stepOut (w : World) : Res World := do
  let (returnAddress, w) := readReturnAddress k w
  let (shouldRemoveBreakpoint, w) ← setTempBpLocation k w returnAddress
  let w ← continueExecution k syms w
  if shouldRemoveBreakpoint then unsetTempBpLocation k w returnAddress else return w

/-! ## step -/

/-- The loop of `step_in`, with the line it ends on. -/
def stepInLoop (line : ℕ) : ℕ → World → Res (Option (String × SrcLine) × World)
  | 0, w => .error (.blocked, w)
  | fuel + 1, w => do
    let next ← getLineFromPc w (getPc k w.tracee w.pid)
    if lineOf next = line then
      stepInLoop line fuel (← singleStepInstructionWithBreakpointCheck k syms w)
    else return (next, w)

/-- `step_in`. Where the line it ends on has no file, the one it started in is shown. -/
def stepIn (fuel : ℕ) (w : World) : Res World := do
  match ← getLineFromPc w (getPc k w.tracee w.pid) with
  | none => return w.say .cannotStep
  | some (file, src) =>
    if src.line = 0 then return w.say .cannotStep
    let (next, w) ← stepInLoop k syms src.line fuel w
    let w := printSrcFileOutdatedWarning w src.outdated
    if syms.hasDwarf then
      printSource w ((next.map Prod.fst).getD file) (lineOf next) DEFAULT_LINE_CONTEXT
    else return w

/-! ## next -/

/-- The buffer of `step_over`: the addresses it has planted locations at. -/
structure ToDelete where
  cap : ℕ
  addrs : List Addr

/-- `to_delete[to_delete_size++] = addr` -/
def ToDelete.store (w : World) (d : ToDelete) (addr : Addr) : Res ToDelete :=
  if d.addrs.length < d.cap then .ok { d with addrs := d.addrs ++ [addr] }
  else .error (.outOfBounds, w)

/-- The buffer doubled when one slot is left. -/
def ToDelete.grow (d : ToDelete) : ToDelete :=
  if d.addrs.length ≥ d.cap - 1 then { d with cap := d.cap * 2 } else d

/-- The loop of `step_over`: the next `n` addresses from `pc` on. `line` keeps its value where an
address has no line. -/
def plantLoop : ℕ → Addr → ℕ → ℕ → ToDelete → World → Res (ToDelete × World)
  | 0, _, _, _, d, w => return (d, w)
  | n + 1, pc, currentLine, line, d, w => do
    let line := ((w.dwfl.getsrc pc).map SrcLine.line).getD line
    if line ≠ currentLine then
      let (planted, w) ← setTempBpLocation k w pc
      let d ← if planted then ToDelete.grow <$> d.store w pc else .ok d
      plantLoop n (pc + 1) line line d w
    else plantLoop n (pc + 1) currentLine line d w

/-- `get_func_die_from_pc`, whose module lookup must succeed. -/
def getFuncDieFromPc (w : World) (pc loadAddress : Addr) : Res (Option FuncDie) :=
  if !w.dwfl.addrmodule pc then .error (.critical, w)
  else
    match w.dwfl.addrdie pc with
    | none => .ok none
    | some cu => .ok (getfuncs w.dwfl.junkRange (pc - loadAddress) 1 cu.funcs)

/-- The planting of `step_over`: a location on every line from the pc to the end of the function,
and one at the return address unless the function is `main`. -/
def plantTempLocations (w : World) (die : FuncDie) (funcName : String) (pc : Addr) :
    Res (ToDelete × World) := do
  let funcEnd := die.highpc.getD (w.dwfl.junkRange 0).2 + w.loadAddress
  if !w.dwfl.addrmodule pc then .error (.critical, w)
  match w.dwfl.getsrc pc with
  | none => .error (.critical, w)
  | some src =>
    if src.line = 0 then .error (.assertion, w)
    let turns := if pc < funcEnd then (funcEnd - pc).toNat else 0
    let (d, w) ← plantLoop k turns pc src.line 0 ⟨100, []⟩ w
    if funcName = "main" then return (d, w)
    let (returnAddress, w) := readReturnAddress k w
    let (planted, w) ← setTempBpLocation k w returnAddress
    if planted then return (← d.store w returnAddress, w) else return (d, w)

/-- `step_over` -/
def stepOver (w : World) : Res World := do
  let pc := getPc k w.tracee w.pid
  match (← getFuncDieFromPc w pc w.loadAddress).bind fun die => die.name.map (die, ·) with
  | none => return w.say .cannotStep
  | some (die, funcName) =>
    let (d, w) ← plantTempLocations k w die funcName pc
    let w ← continueExecution k syms w
    d.addrs.foldlM (unsetTempBpLocation k) w

/-! ## The frames of a backtrace -/

/-- The loop of `print_frame` over a path and a directory. Where they are the same it does not end
with them. -/
def skipCommon : List Char → List Char → Option (List Char)
  | [], [] => none
  | rel :: rels, dir :: dirs => if rel = dir then skipCommon rels dirs else some (rel :: rels)
  | rels, _ => some rels

/-- The path `print_frame` shows for a file of a compilation directory. -/
def relativePath (w : World) (filename : String) (compilationDir : Option String) : Res String :=
  match compilationDir with
  | none => .ok filename
  | some dir =>
    match skipCommon filename.toList dir.toList with
    | none => .error (.outOfBounds, w)
    | some ('/' :: rest) => .ok (String.ofList rest)
    | some rest => .ok (String.ofList rest)

/-- The part of `print_frame` for a pc at the entry of its function, where `rbp` is not set up: the
tracee runs to `pc + 4`. -/
def leaveEntry (w : World) (pc : Addr) : Res (Addr × World) := do
  let (toDeleteTempBp, w) ← setTempBpLocation k w (pc + 4)
  let w ← continueExecution k syms w
  let w ← if toDeleteTempBp then unsetTempBpLocation k w (pc + 4) else .ok w
  let newPc := getPc k w.tracee w.pid
  if newPc ≠ pc + 4 then .error (.assertion, w)
  return (newPc, w)

/-- The part of `print_frame` for the first frame. -/
def enterFrame (w : World) (die : FuncDie) (pc loadAddress : Addr) : Res (Addr × World) := do
  let funcStart := die.lowpc.getD (w.dwfl.junkRange 0).1
  let (pc, w) ← if funcStart = pc - loadAddress then leaveEntry k syms w pc else .ok (pc, w)
  if funcStart = pc - loadAddress then .error (.assertion, w)
  return (pc, w)

/-- `print_frame`: the name of the function, unless there is none. Without a line the file name it
prints was never set. -/
def printFrame (w : World) (pc loadAddress : Addr) (isFirst : Bool) :
    Res (Option String × World) := do
  match (← getFuncDieFromPc w pc loadAddress).bind fun die => die.name.map (die, ·) with
  | none => return (none, w.say .noFrame)
  | some (die, funcName) =>
    let (pc, w) ← if isFirst then enterFrame k syms w die pc loadAddress else .ok (pc, w)
    match ← getLineFromPc w pc with
    | none => .error (.uninitialised, w)
    | some (file, src) =>
      let path ← relativePath w file src.compDir
      let w := if isFirst then printSrcFileOutdatedWarning w src.outdated else w
      return (some funcName, w.say (.frame pc funcName path src.line))

end Vdbg
