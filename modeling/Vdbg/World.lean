import Vdbg.Hashmap
import Vdbg.Kernel
import Vdbg.Lib.FaultRun

/-!
# The state of the debugger

`debugger_t`, the breakpoints and locations it allocates, and the tracee. A pointer is the number of
an allocation and a freed object is absent, so a read through a stale pointer is a `useAfterFree`.
An intrusive list is the sequence of its nodes.
-/

namespace Vdbg

abbrev BpPtr := ℕ
abbrev LocPtr := ℕ

/-- `bp_kind` with the member of the union it selects. -/
inductive BpKind where
  | addr
  | symbol (name : String)
  | lineno (file : String) (line : ℤ)
deriving DecidableEq, Repr

/-- `breakpoint_t` -/
structure Breakpoint where
  id : BitVec 64
  kind : BpKind
  enable : Bool
  instrAddr : Addr
  location : Option LocPtr
deriving DecidableEq, Repr

/-- `bp_location_t`. The list of a temporary location is never initialised. -/
structure BpLocation where
  pid : Pid
  patched : Bool
  isTemp : Bool
  savedData : Byte
  runningAddr : Addr
  bpList : List BpPtr
deriving DecidableEq, Repr

/-- `dbg_state` -/
inductive DbgState where
  | active
  | notActive
deriving DecidableEq, Repr

/-- Why a call of the debugger does not return. -/
inductive Fault where
  /-- A failed `assert`. -/
  | assertion
  /-- `CRITICAL` or `DWFL_SANITY_CHECK`. -/
  | critical
  /-- A read or write of an object that was freed. -/
  | useAfterFree
  /-- A walk over the list of a temporary location, or a read of a variable nothing has set. -/
  | uninitialised
  /-- An access past the end of an array. -/
  | outOfBounds
  /-- The id counter has wrapped around, after `2 ^ 64 - 1` breakpoints. -/
  | idsExhausted
  /-- A call that does not return, or a loop that was not given enough turns. -/
  | blocked
deriving DecidableEq, Repr

/-- What the debugger tells the user. -/
inductive Report where
  | hitBreakpoint (id : BitVec 64) (symbol : Option String) (line : Option (String × ℤ))
      (addr : Addr)
  | exited (code : ℕ)
  | terminated (sig : Signal)
  | segfault (code : ℤ)
  | aborted
  | unhandled (sig : Signal)
  | unknownSigtrap (signo : Signal) (code : ℤ)
  | waitpidFailed
  | outdated
  | source (file : String) (line context : ℕ)
  | cannotStep
  | noTempLocation (addr : Addr)
  | noFrame
  | frame (pc : Addr) (function file : String) (line : ℕ)
deriving DecidableEq, Repr

/-- The debugger, its heap and its tracee. -/
structure World where
  -- `debugger_t`
  pid : Pid
  state : DbgState
  breakpoints : Option (Hashmap BpPtr)
  bpLocations : Option (Hashmap LocPtr)
  pendingBreakpoints : List BpPtr
  loadAddress : Addr
  pendingSignal : Signal
  dwfl : Dwfl
  -- the heap of breakpoint.c
  bps : BpPtr → Option Breakpoint
  locs : LocPtr → Option BpLocation
  nextPtr : ℕ
  globalIdCounter : BitVec 64
  -- outside of the debugger
  tracee : Tracee
  out : List Report

/-- A result, or a fault with the state it struck in. -/
abbrev Res (α : Type) := Except (Fault × World) α

/-- The fault a call ends in, unless it returns. -/
def faultOf {α : Type} : Res α → Option Fault
  | .ok _ => none
  | .error (f, _) => some f

/-- The state a call leaves, also where it does not return. -/
def worldOf : Res World → World
  | .ok w => w
  | .error (_, w) => w

@[simp] theorem faultOf_ok {α : Type} (a : α) : faultOf (.ok a) = none := rfl

@[simp] theorem faultOf_error {α : Type} (f : Fault) (w : World) :
    faultOf (.error (f, w) : Res α) = some f := rfl

/-- `MAP_SIZE` -/
def MAP_SIZE : BitVec 32 := 1024

/-- A map as the debugger makes it. -/
theorem mapInit_mapSize (α : Type) : ∃ ht : Hashmap α, mapInit MAP_SIZE true = some ht ∧
    ht.cf = true ∧ ∀ key, mapLookup (some ht) key = none := by
  obtain ⟨ht, hinit, hcf, -, hnone⟩ := mapInit_of_ne (α := α) (show MAP_SIZE ≠ 0 by decide)
    (show MAP_SIZE ≠ BitVec.allOnes 32 by decide) true
  exact ⟨ht, hinit, hcf, hnone⟩

namespace World

variable (w : World)

def derefBp (b : BpPtr) : Res Breakpoint :=
  match w.bps b with
  | some bp => .ok bp
  | none => .error (.useAfterFree, w)

def derefLoc (p : LocPtr) : Res BpLocation :=
  match w.locs p with
  | some loc => .ok loc
  | none => .error (.useAfterFree, w)

def setBp (b : BpPtr) (bp : Breakpoint) : World :=
  { w with bps := Function.update w.bps b (some bp) }

def setLoc (p : LocPtr) (loc : BpLocation) : World :=
  { w with locs := Function.update w.locs p (some loc) }

def freeBp (b : BpPtr) : World := { w with bps := Function.update w.bps b none }

def freeLoc (p : LocPtr) : World := { w with locs := Function.update w.locs p none }

def setTracee (t : Tracee) : World := { w with tracee := t }

def say (r : Report) : World := { w with out := w.out ++ [r] }

end World

/-- `dbg_init`, for an executable that could be opened. -/
def dbgInit : World where
  pid := 0
  state := .notActive
  breakpoints := mapInit MAP_SIZE true
  bpLocations := none
  pendingBreakpoints := []
  loadAddress := 0
  pendingSignal := 0
  dwfl := Dwfl.empty
  bps := fun _ => none
  locs := fun _ => none
  nextPtr := 0
  globalIdCounter := 1
  tracee := Tracee.absent
  out := []

end Vdbg
