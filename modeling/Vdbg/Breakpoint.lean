import Vdbg.World

/-!
# Breakpoints and locations

`breakpoint.c`: the logical breakpoints a user sets and the patched locations they share. The list
of a location holds the breakpoints attached to it.
-/

namespace Vdbg

open Words

/-- The list of a location, which a temporary one does not have. -/
def bpListOf (w : World) (loc : BpLocation) : Res (List BpPtr) :=
  if loc.isTemp then .error (.uninitialised, w) else .ok loc.bpList

/-- The `enable` flags `list_for_each` sees on a list of breakpoints. -/
def enableFlags (w : World) (bs : List BpPtr) : Res (List Bool) :=
  bs.mapM fun b => do return (← w.derefBp b).enable

/-! ## Locations -/

/-- `loc_enable` -/
def locEnable (k : Kernel) (w : World) (p : LocPtr) : Res World := do
  let loc ← w.derefLoc p
  if loc.patched then return w
  let (data, t) := w.tracee.peekData k loc.pid loc.runningAddr
  let dataWithInt3 := setLow data 0xcc
  let t := t.pokeData k loc.pid loc.runningAddr dataWithInt3
  return (w.setTracee t).setLoc p { loc with savedData := data.setWidth 8, patched := true }

/-- `loc_disable` -/
def locDisable (k : Kernel) (w : World) (p : LocPtr) : Res World := do
  let loc ← w.derefLoc p
  if !loc.patched then return w
  if !w.tracee.alive loc.pid then return w.setLoc p { loc with patched := false }
  let (data, t) := w.tracee.peekData k loc.pid loc.runningAddr
  let restoredData := setLow data loc.savedData
  let t := t.pokeData k loc.pid loc.runningAddr restoredData
  return (w.setTracee t).setLoc p { loc with patched := false }

/-- `loc_init`: the new location and the state with it. -/
def locInit (k : Kernel) (w : World) (pid : Pid) (runningAddr : Addr) (bp : Option BpPtr)
    (isTemp : Bool) : Res (LocPtr × World) := do
  if pid = 0 || runningAddr = 0 then .error (.assertion, w)
  if isTemp != bp.isNone then .error (.assertion, w)
  let p := w.nextPtr
  let loc : BpLocation :=
    { pid, runningAddr, isTemp, patched := false, savedData := 0, bpList := bp.toList }
  let w := { w with nextPtr := w.nextPtr + 1 }.setLoc p loc
  match bp with
  | none => return (p, ← locEnable k w p)
  | some b =>
    let bp ← w.derefBp b
    let w := w.setBp b { bp with location := some p }
    if bp.enable then return (p, ← locEnable k w p) else return (p, w)

/-- `loc_append_breakpoint_to_list` -/
def locAppendBreakpointToList (k : Kernel) (w : World) (p : LocPtr) (b : BpPtr) : Res World := do
  let bp ← w.derefBp b
  let w := w.setBp b { bp with location := some p }
  let loc ← w.derefLoc p
  let list ← bpListOf w loc
  if b ∈ list then return w
  let w := w.setLoc p { loc with bpList := list ++ [b] }
  if bp.enable && !loc.patched then locEnable k w p
  else if !bp.enable && loc.patched then locDisable k w p
  else return w

/-- The loop of `loc_free` over the list of the location. -/
def clearLocations (w : World) (bs : List BpPtr) : Res World :=
  bs.foldlM (fun w b => do
    let bp ← w.derefBp b
    return w.setBp b { bp with location := none }) w

/-- `loc_free` -/
def locFree (k : Kernel) (w : World) (p : LocPtr) : Res World := do
  let loc ← w.derefLoc p
  let w ← if loc.isTemp then .ok w else clearLocations w loc.bpList
  let w ← locDisable k w p
  return w.freeLoc p

/-! ## Breakpoints -/

/-- `bp_init`: the new breakpoint and the state with it. -/
def bpInit (w : World) (kind : BpKind) (instrAddr : Addr) : Res (BpPtr × World) := do
  if w.globalIdCounter = 0 then .error (.idsExhausted, w)
  let b := w.nextPtr
  let bp : Breakpoint :=
    { id := w.globalIdCounter, kind, instrAddr, location := none, enable := true }
  let w := { w with nextPtr := w.nextPtr + 1, globalIdCounter := w.globalIdCounter + 1 }
  return (b, w.setBp b bp)

/-- `bp_enable` -/
def bpEnable (k : Kernel) (w : World) (b : BpPtr) : Res World := do
  let bp ← w.derefBp b
  let w := w.setBp b { bp with enable := true }
  match bp.location with
  | none => return w
  | some p =>
    let loc ← w.derefLoc p
    let flags ← enableFlags w (← bpListOf w loc)
    -- patched only if every breakpoint of the list is enabled
    if flags.all id then locEnable k w p else return w

/-- `bp_disable` -/
def bpDisable (k : Kernel) (w : World) (b : BpPtr) : Res World := do
  let bp ← w.derefBp b
  let w := w.setBp b { bp with enable := false }
  match bp.location with
  | none => return w
  | some p =>
    let loc ← w.derefLoc p
    let flags ← enableFlags w (← bpListOf w loc)
    if flags.any id then return w else locDisable k w p

/-- `bp_free` -/
def bpFree (k : Kernel) (w : World) (b : BpPtr) : Res World := do
  let bp ← w.derefBp b
  match bp.location with
  | none => return w.freeBp b
  | some p =>
    let loc ← w.derefLoc p
    let list := loc.bpList.erase b
    let w := w.setLoc p { loc with bpList := list }
    -- only an emptied list takes the patch away
    let w ← if list.isEmpty then locDisable k w p else .ok w
    return w.freeBp b

/-- `type` and `data` of `find_breakpoint_from_pending`. -/
inductive BpKey where
  | addr (addr : Addr)
  | symbol (name : String)
  | lineno (file : String) (line : ℤ)
deriving DecidableEq, Repr

/-- The test of `find_breakpoint_from_pending` on one breakpoint. A string is compared on the length
of the one the breakpoint holds. -/
def bpMatches (key : BpKey) (bp : Breakpoint) : Bool :=
  match key, bp.kind with
  | .addr addr, .addr => addr = bp.instrAddr
  | .symbol name, .symbol name' => name'.toList.isPrefixOf name.toList
  | .lineno file line, .lineno file' line' =>
    line = line' && file'.toList.isPrefixOf file.toList
  | _, _ => false

/-- The loop of `find_breakpoint_from_pending`. -/
def findBreakpoint (w : World) (key : BpKey) : List BpPtr → Res (Option BpPtr)
  | [] => return none
  | b :: bs => do
    let bp ← w.derefBp b
    if bpMatches key bp then return some b else findBreakpoint w key bs

/-- `find_breakpoint_from_pending`. The address 0 is a NULL `data`. -/
def findBreakpointFromPending (w : World) (key : BpKey) : Res (Option BpPtr) :=
  if key = .addr 0 then return none else findBreakpoint w key w.pendingBreakpoints

/-! ## The message of a hit -/

/-- The loop of `print_bp_hit_message_at_loc`: the first breakpoint, the first one with a symbol and
the first one with a line. -/
def hitBreakpoints (w : World) (got sym line : Option (BpPtr × Breakpoint)) :
    List BpPtr → Res (Option (BpPtr × Breakpoint) × Option (BpPtr × Breakpoint) ×
      Option (BpPtr × Breakpoint))
  | [] => return (got, sym, line)
  | b :: bs => do
    if got.map Prod.fst = some b then .error (.assertion, w)
    let bp ← w.derefBp b
    let got := got.or (some (b, bp))
    match bp.kind with
    | .symbol _ => hitBreakpoints w got (sym.or (some (b, bp))) line bs
    | .lineno _ _ => hitBreakpoints w got sym (line.or (some (b, bp))) bs
    | .addr => hitBreakpoints w got sym line bs

/-- The symbol of a breakpoint that has one. -/
def Breakpoint.symbol? (bp : Breakpoint) : Option String :=
  match bp.kind with
  | .symbol name => some name
  | _ => none

/-- The file and line of a breakpoint that has them. -/
def Breakpoint.fileLine? (bp : Breakpoint) : Option (String × ℤ) :=
  match bp.kind with
  | .lineno file line => some (file, line)
  | _ => none

/-- `print_bp_hit_message_at_loc` -/
def printBpHitMessageAtLoc (w : World) (p : Option LocPtr) : Res World :=
  match p with
  | none => .error (.assertion, w)
  | some p => do
    let loc ← w.derefLoc p
    if loc.isTemp then return w
    let (got, sym, line) ← hitBreakpoints w none none none loc.bpList
    match got with
    | none => .error (.critical, w)
    | some (_, bp) =>
      return w.say (.hitBreakpoint bp.id (sym.bind fun q => q.2.symbol?)
        (line.bind fun q => q.2.fileLine?) bp.instrAddr)

end Vdbg
