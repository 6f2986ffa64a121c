import Vdbg.Stepping

/-!
# Commands

The commands of `commands.c` that act on the tracee or on breakpoints, after their arguments were
read. `handle_command` refuses those that need a running tracee or debug symbols when there are
none.
-/

namespace Vdbg

variable (k : Kernel) (syms : Symbols)

/-- An argument of `break`. -/
inductive BreakArg where
  | addr (addr : Addr)
  | line (file : Option String) (line : ℤ)
  | symbol (name : String)
deriving DecidableEq, Repr

/-- An argument of `delete`, `enable` or `disable`. -/
inductive BpArg where
  | id (id : BitVec 64)
  | key (key : BpKey)
deriving DecidableEq, Repr

/-- A command, with the answer to the question it may ask and the turns a loop is given. -/
inductive Command where
  | break (args : List BreakArg)
  | delete (args : List BpArg)
  | enable (args : List BpArg)
  | disable (args : List BpArg)
  | run (answer : Bool)
  | restart
  | continue
  | stepi
  | step (fuel : ℕ)
  | next
  | finish
  | registerWrite (r : Reg) (value : BitVec 64)
  | memoryWrite (addr value : BitVec 64)
  | kill (answer : Bool)

/-- `cmd_break`. A line argument ends the command where there are no debug symbols. -/
def cmdBreak (w : World) : List BreakArg → Res World
  | [] => .ok w
  | .addr addr :: args => do cmdBreak (← setBreakpointAtAddr k w addr) args
  | .line file line :: args => do
    if syms.hasDwarf then cmdBreak (← setBreakpointAtLineno k syms w file line) args else return w
  | .symbol name :: args => do cmdBreak (← setBreakpointAtFuncSymbol k syms w name) args

/-- `get_breakpoint_by_id` -/
def getBreakpointById (w : World) (id : BitVec 64) : Option BpPtr := mapLookup w.breakpoints id

/-- `parse_arg_bp`. A file and line needs debug symbols, an address must not be 0 or `ULONG_MAX`. -/
def parseArgBp (w : World) : BpArg → Res (Option BpPtr)
  | .id id => .ok (getBreakpointById w id)
  | .key (.addr addr) =>
    if addr = 0 ∨ addr = BitVec.allOnes 64 then .ok none
    else findBreakpointFromPending w (.addr addr)
  | .key (.lineno file line) =>
    if !syms.hasDwarf ∨ line = 0 then .ok none
    else findBreakpointFromPending w (.lineno file line)
  | .key (.symbol name) => findBreakpointFromPending w (.symbol name)

/-- One turn of the loop of `cmd_delete`, `cmd_enable` and `cmd_disable` over their arguments. -/
def forArg (act : World → BpPtr → Res World) (w : World) (arg : BpArg) : Res World := do
  match ← parseArgBp syms w arg with
  | none => return w
  | some b => act w b

/-- The loop of `cmd_delete`, `cmd_enable` and `cmd_disable` over their arguments. -/
def forArgs (act : World → BpPtr → Res World) (w : World) (args : List BpArg) : Res World :=
  args.foldlM (forArg syms act) w

/-- `cmd_delete` -/
def cmdDelete (w : World) (args : List BpArg) : Res World :=
  if args = [] then removeAllBreakpoints k w else forArgs syms (removeBreakpoint k) w args

/-- `cmd_enable` -/
def cmdEnable (w : World) (args : List BpArg) : Res World :=
  if args = [] then enableAllBreakpoints k w else forArgs syms (bpEnable k) w args

/-- `cmd_disable` -/
def cmdDisable (w : World) (args : List BpArg) : Res World :=
  if args = [] then disableAllBreakpoints k w else forArgs syms (bpDisable k) w args

/-- `cmd_stepi` -/
def cmdStepi (w : World) : Res World := do
  let w ← singleStepInstructionWithBreakpointCheck k syms w
  printSourceAtCurrentPc syms w (getPc k w.tracee w.pid) DEFAULT_LINE_CONTEXT

/-- `requires_running_pid` and `requires_dwarf_symbols` of the command table. -/
def Command.requires : Command → Bool × Bool
  | .restart | .continue | .stepi | .registerWrite _ _ | .memoryWrite _ _ => (true, false)
  | .step _ | .next | .finish => (true, true)
  | _ => (false, false)

/-- The handler of a command. `kill` is the end of the input, which ends the debugger unless the
user keeps the tracee. -/
def Command.handler (w : World) : Command → Res World
  | .break args => cmdBreak k syms w args
  | .delete args => cmdDelete k syms w args
  | .enable args => cmdEnable k syms w args
  | .disable args => cmdDisable k syms w args
  | .run answer => Vdbg.run k syms w answer
  | .restart => Vdbg.restart k syms w
  | .continue => continueExecution k syms w
  | .stepi => cmdStepi k syms w
  | .step fuel => stepIn k syms fuel w
  | .next => stepOver k syms w
  | .finish => stepOut k syms w
  | .registerWrite r value =>
    .ok (w.setTracee (setRegisterValue k w.tracee r w.pid value))
  | .memoryWrite addr value => .ok (w.setTracee (writeMemory k w.tracee w.pid addr value))
  | .kill answer => do return (← dbgKillTracee k w answer).2

/-- `handle_command` -/
def handleCommand (w : World) (c : Command) : Res World :=
  if c.requires.1 ∧ w.state ≠ .active then .ok w
  else if c.requires.2 ∧ !syms.hasDwarf then .ok w
  else c.handler k syms w

/-- A session: the commands typed so far, from any state. -/
def session (w : World) (cs : List Command) : Res World := cs.foldlM (handleCommand k syms) w

end Vdbg
