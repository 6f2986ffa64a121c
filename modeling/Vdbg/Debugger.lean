import Vdbg.Breakpoint

/-!
# The debugger

`debugger.c`: the life of the tracee, the signals it stops with, and the breakpoints a user sets and
removes. The two functions of `symbols.c` that print the source line of an address come first, and
`step_over_breakpoint` of `stepping.c`, which `continue_execution` calls.
-/

namespace Vdbg

variable (k : Kernel) (syms : Symbols)

/-! ## Source lines -/

/-- `get_line_from_pc`: the file and the line, or `none` where it returns 0 before it has a file.
The file `dwfl_lineinfo` gives must not be NULL. -/
def getLineFromPc (w : World) (pc : Addr) : Res (Option (String × SrcLine)) :=
  if !w.dwfl.addrmodule pc then .error (.critical, w)
  else
    match w.dwfl.getsrc pc with
    | none => .ok none
    | some src =>
      match src.file with
      | none => .error (.critical, w)
      | some file => .ok (some (file, src))

/-- The line number `get_line_from_pc` returns. -/
def lineOf (r : Option (String × SrcLine)) : ℕ := (r.map fun q => q.2.line).getD 0

/-- `print_src_file_outdated_warning` -/
def printSrcFileOutdatedWarning (w : World) (outdated : Bool) : World :=
  if outdated then w.say .outdated else w

/-- `print_source`, as far as its assertions: the text itself is not the debugger's state. -/
def printSource (w : World) (file : String) (line context : ℕ) : Res World :=
  if line = 0 || context = 0 then .error (.assertion, w)
  else .ok (w.say (.source file line context))

/-- `print_source_at_current_pc` -/
def printSourceAtCurrentPc (w : World) (pc : Addr) (context : ℕ) : Res World := do
  if !syms.hasDwarf then return w
  match ← getLineFromPc w pc with
  | none => return w
  | some (file, src) =>
    if src.line = 0 then return w
    printSource (printSrcFileOutdatedWarning w src.outdated) file src.line context

/-- `DEFAULT_LINE_CONTEXT` -/
def DEFAULT_LINE_CONTEXT : ℕ := 3

/-! ## Signals -/

/-- The calls of `loc_free` that `map_free` and `map_delete` make. -/
def freeLocs (w : World) (ps : List LocPtr) : Res World := ps.foldlM (locFree k) w

/-- The calls of `bp_free` that `map_delete` makes. -/
def freeBps (w : World) (bs : List BpPtr) : Res World := bs.foldlM (bpFree k) w

/-- `cleanup_at_tracee_death` -/
def cleanupAtTraceeDeath (w : World) : Res World := do
  let w ← freeLocs k w (mapFree w.bpLocations)
  return { w with bpLocations := none, state := .notActive, loadAddress := 0 }

/-- `kill_tracee` -/
def killTracee (w : World) : Res World :=
  cleanupAtTraceeDeath k (w.setTracee (w.tracee.kill w.pid))

/-- `handle_sigtrap` -/
def handleSigtrap (w : World) (info : SigInfo) : Res World :=
  if info.code = 0 then .ok w
  else if info.code = SI_KERNEL ∨ info.code = TRAP_BRKPT then do
    -- execution has gone past the breakpoint
    let pc := getPc k w.tracee w.pid - 1
    let loc := mapLookup w.bpLocations pc
    let w := w.setTracee (setPc k w.tracee w.pid pc)
    let w ← printBpHitMessageAtLoc w loc
    printSourceAtCurrentPc syms w pc DEFAULT_LINE_CONTEXT
  else if info.code = TRAP_TRACE then .ok w
  else .ok (w.say (.unknownSigtrap info.signo info.code))

/-- The signals `wait_for_signal` hands back to the tracee without a word. -/
def silentSignals : List Signal := [SIGWINCH, SIGCHLD, SIGURG, SIGALRM]

/-- The `switch` of `wait_for_signal` on the signal of a stop. -/
def dispatchStop (w : World) (info : SigInfo) : Res World :=
  if info.signo = SIGTRAP then handleSigtrap k syms w info
  else if info.signo = SIGSEGV then do
    let w := w.say (.segfault info.code)
    let w ← printSourceAtCurrentPc syms w (getPc k w.tracee w.pid) 3
    return { w with pendingSignal := info.signo }
  else if info.signo = SIGABRT then
    .ok { w.say .aborted with pendingSignal := info.signo }
  else if info.signo ∈ silentSignals then
    .ok (w.setTracee (w.tracee.resume k w.pid (.cont info.signo)))
  else .ok (w.say (.unhandled info.signo))

/-- `wait_for_signal` -/
def waitForSignal (w : World) : Res World :=
  match w.tracee.waitpid k w.pid with
  | none => .error (.blocked, w)
  | some (none, t) => .ok ((w.setTracee t).say .waitpidFailed)
  | some (some (.exited code), t) =>
    cleanupAtTraceeDeath k ((w.setTracee t).say (.exited code))
  | some (some (.signaled sig), t) =>
    cleanupAtTraceeDeath k ((w.setTracee t).say (.terminated sig))
  | some (some (.stopped info), t) => dispatchStop k syms (w.setTracee t) info

/-! ## Stepping over the breakpoint at the pc -/

/-- `single_step_instruction` -/
def singleStepInstruction (w : World) : Res World :=
  waitForSignal k syms (w.setTracee (w.tracee.resume k w.pid .singlestep))

/-- `execute_step_over_loc` -/
def executeStepOverLoc (w : World) (p : Option LocPtr) : Res World :=
  match p with
  | none => .ok w
  | some p => do
    let loc ← w.derefLoc p
    if loc.patched then
      let w ← locDisable k w p
      let w ← singleStepInstruction k syms w
      locEnable k w p
    else return w

/-- `step_over_breakpoint` -/
def stepOverBreakpoint (w : World) : Res World :=
  executeStepOverLoc k syms w (mapLookup w.bpLocations (getPc k w.tracee w.pid))

/-- `continue_execution` -/
def continueExecution (w : World) : Res World := do
  if w.state ≠ .active then .error (.assertion, w)
  let w ← stepOverBreakpoint k syms w
  let sig := w.pendingSignal
  let w := { w with pendingSignal := 0 }
  waitForSignal k syms (w.setTracee (w.tracee.resume k w.pid (.cont sig)))

/-! ## The life of the tracee -/

/-- One turn of the loop of `resolve_pending_breakpoints`. -/
def resolveBreakpoint (w : World) (b : BpPtr) : Res World := do
  let bp ← w.derefBp b
  let runningAddr := bp.instrAddr + w.loadAddress
  match mapLookup w.bpLocations runningAddr with
  | some p => locAppendBreakpointToList k w p b
  | none =>
    let (p, w) ← locInit k w w.pid runningAddr (some b) false
    match mapInsert w.bpLocations runningAddr (some p) with
    | (true, ht) => return { w with bpLocations := ht }
    | (false, _) => .error (.critical, w)

/-- `resolve_pending_breakpoints` -/
def resolvePendingBreakpoints (w : World) : Res World := do
  if w.bpLocations.isSome then .error (.assertion, w)
  let w := { w with bpLocations := mapInit MAP_SIZE true }
  w.pendingBreakpoints.foldlM (resolveBreakpoint k) w

/-- `initialize_load_address` -/
def initializeLoadAddress (w : World) : Res Addr :=
  if !syms.isDyn then .ok 0
  else
    match k.mapsBase w.tracee with
    | none => .error (.critical, w)
    | some addr => .ok addr

/-- `setup_dwfl`. A report that fails ends the session libdwfl is then used with. -/
def setupDwfl (w : World) : Res World :=
  match k.report w.tracee with
  | none => .error (.useAfterFree, w.setTracee (w.tracee.resume k w.pid (.cont 0)))
  | some dwfl => .ok { w with dwfl }

/-- `spawn_tracee` up to the resume of the new process. -/
def startTracee (w : World) : Res World := do
  let t := w.tracee.fork k
  let w ← waitForSignal k syms { w with pid := t.pid, tracee := t }
  let load ← initializeLoadAddress k syms w
  let w := { w with loadAddress := load, state := .active }
  let w ← resolvePendingBreakpoints k w
  setupDwfl k w

/-- `spawn_tracee` -/
def spawnTracee (w : World) : Res World := do
  continueExecution k syms (← startTracee k syms w)

/-- `run`, with the answer to the question whether to restart. -/
def run (w : World) (answer : Bool) : Res World := do
  if w.state = .active then
    if answer then spawnTracee k syms (← killTracee k w) else return w
  else spawnTracee k syms w

/-- `restart` -/
def restart (w : World) : Res World := do
  spawnTracee k syms (← killTracee k w)

/-- `dbg_kill_tracee`: whether the debugger may end, with the answer to the question to kill. -/
def dbgKillTracee (w : World) (answer : Bool) : Res (Bool × World) := do
  if w.state = .active ∧ w.tracee.alive w.pid then
    if answer then return (true, ← killTracee k w) else return (false, w)
  else return (true, w)

/-- `dbg_free`, which frees the breakpoints and then asserts that there are no locations. -/
def dbgFree (w : World) : Res World := do
  let w ← freeBps k w (mapFree w.breakpoints)
  if w.bpLocations.isSome then .error (.assertion, w)
  return w

/-! ## Setting and removing breakpoints -/

/-- `add_and_set_bp_for_running_tracee` -/
def addAndSetBpForRunningTracee (w : World) (instrAddr : Addr) (b : BpPtr) : Res World := do
  if w.state = .notActive then return w
  let runningAddr := instrAddr + w.loadAddress
  match mapLookup w.bpLocations runningAddr with
  | none =>
    let (p, w) ← locInit k w w.pid runningAddr (some b) false
    return { w with bpLocations := (mapInsert w.bpLocations runningAddr (some p)).2 }
  | some p => locAppendBreakpointToList k w p b

/-- `map_insert(dbg->breakpoints, bp_get_id(bp), bp)` -/
def insertBreakpoint (w : World) (b : BpPtr) : Res World := do
  let bp ← w.derefBp b
  return { w with breakpoints := (mapInsert w.breakpoints bp.id (some b)).2 }

/-- `add_breakpoint_as_pending` -/
def addBreakpointAsPending (w : World) (b : BpPtr) : World :=
  { w with pendingBreakpoints := w.pendingBreakpoints ++ [b] }

/-- `set_breakpoint_at_addr` -/
def setBreakpointAtAddr (w : World) (instrAddr : Addr) : Res World := do
  let (b, w) ← bpInit w .addr instrAddr
  let w := addBreakpointAsPending w b
  let w ← insertBreakpoint w b
  addAndSetBpForRunningTracee k w instrAddr b

/-- One breakpoint of `set_breakpoint_at_func_symbol` or `set_breakpoint_at_lineno`, which insert
it into the map before they list it. -/
def setBreakpointOfKind (w : World) (kind : BpKind) (instrAddr : Addr) : Res World := do
  let (b, w) ← bpInit w kind instrAddr
  let w ← insertBreakpoint w b
  let w := addBreakpointAsPending w b
  addAndSetBpForRunningTracee k w instrAddr b

/-- `set_breakpoint_at_func_symbol`: a breakpoint on every function of that name. -/
def setBreakpointAtFuncSymbol (w : World) (symbolName : String) : Res World :=
  (syms.functions.filter fun f => f.1 = symbolName).foldlM
    (fun w f => setBreakpointOfKind k w (.symbol symbolName) f.2) w

/-- `set_breakpoint_at_lineno`. Without a file an active debugger takes the one of the pc. -/
def setBreakpointAtLineno (w : World) (filename : Option String) (lineno : ℤ) : Res World := do
  let set (filename : Option String) : Res World :=
    match getAddrFromLineno syms filename lineno with
    | none => .ok w
    | some (file, instrAddr) => setBreakpointOfKind k w (.lineno file lineno) instrAddr
  if filename.isNone ∧ w.state = .active then
    let pc := getPc k w.tracee w.pid
    if !w.dwfl.addrmodule pc then .error (.critical, w)
    else
      match (w.dwfl.addrdie pc).bind Cu.name with
      | none => return w
      | some name => set (some name)
  else set filename

/-- `enable_all_breakpoints` -/
def enableAllBreakpoints (w : World) : Res World := w.pendingBreakpoints.foldlM (bpEnable k) w

/-- `disable_all_breakpoints` -/
def disableAllBreakpoints (w : World) : Res World := w.pendingBreakpoints.foldlM (bpDisable k) w

/-- `delete_breakpoint_from_pending` -/
def deleteBreakpointFromPending (w : World) (b : BpPtr) : World :=
  { w with pendingBreakpoints := w.pendingBreakpoints.erase b }

/-- `map_delete(dbg->breakpoints, bp_get_id(bp))` -/
def deleteBreakpoint (w : World) (b : BpPtr) : Res World := do
  let bp ← w.derefBp b
  let (freed, ht) := mapDelete w.breakpoints bp.id
  freeBps k { w with breakpoints := ht } freed

/-- `map_delete(dbg->bp_locations, running_addr)` -/
def deleteLocation (w : World) (runningAddr : Addr) : Res World :=
  let (freed, ht) := mapDelete w.bpLocations runningAddr
  freeLocs k { w with bpLocations := ht } freed

/-- `remove_breakpoint` -/
def removeBreakpoint (w : World) (b : BpPtr) : Res World :=
  deleteBreakpoint k (deleteBreakpointFromPending w b) b

/-- One turn of the loop of `remove_all_breakpoints`. -/
def removeOne (w : World) (b : BpPtr) : Res World := do
  let bp ← w.derefBp b
  let runningAddr := bp.instrAddr + w.loadAddress
  let w := deleteBreakpointFromPending w b
  let w ← deleteLocation k w runningAddr
  deleteBreakpoint k w b

/-- `remove_all_breakpoints` -/
def removeAllBreakpoints (w : World) : Res World := w.pendingBreakpoints.foldlM (removeOne k) w

/-! ## Temporary locations -/

/-- `set_temp_bp_location` -/
def setTempBpLocation (w : World) (runningAddr : Addr) : Res (Bool × World) := do
  if w.state ≠ .active then .error (.assertion, w)
  let (p, w) ← locInit k w w.pid runningAddr none true
  match mapInsert w.bpLocations runningAddr (some p) with
  | (true, ht) => return (true, { w with bpLocations := ht })
  | (false, _) => return (false, ← locFree k w p)

/-- `unset_temp_bp_location` -/
def unsetTempBpLocation (w : World) (runningAddr : Addr) : Res World := do
  if w.state ≠ .active then .error (.assertion, w)
  match mapLookup w.bpLocations runningAddr with
  | none => return w.say (.noTempLocation runningAddr)
  | some _ => deleteLocation k w runningAddr

end Vdbg
