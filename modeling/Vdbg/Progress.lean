import Vdbg.Continue
import Vdbg.InternalStep

/-!
# Progress of single steps

`single_step_instruction_with_breakpoint_check` steps over a location at the pc if it is patched, and
makes a single step where there is no location. At a location that is not patched it does nothing:
a breakpoint that was disabled or deleted stops the tracee for good, and the loop of `step_in` with
it. Where the step is made, the call comes back if the stop after it can be reported
(`World.Reportable`) and the location it steps over is not freed.
-/

namespace Vdbg

open Words FaultRun

variable {k : Kernel} {syms : Symbols} {w w' : World} {ts : List Addr}

/-- Whether the location at an address, if any, is one without a patch. -/
def World.idle (w : World) (a : Addr) : Bool :=
  (mapLookup w.bpLocations a).isSome && !w.isPatched a

section Reports

variable {att : List BpPtr} {a pc : Addr} {info : SigInfo}

end Reports

/-! ## Requests -/

theorem World.idle_of_absent {a : Addr} (h : mapLookup w.bpLocations a = none) :
    w.idle a = false := by
  rw [idle, h]
  rfl

theorem World.idle_of_loc {a : Addr} {p : LocPtr} {loc : BpLocation}
    (hp : mapLookup w.bpLocations a = some p) (hloc : w.locs p = some loc) :
    w.idle a = !loc.patched := by
  rw [idle, World.isPatched_eq hp hloc, hp]
  rfl

section SingleStepped

variable {p : LocPtr} {loc : BpLocation}

theorem singleStep_of_loc
    (hp : mapLookup w.bpLocations (getPc k w.tracee w.pid) = some p) :
    singleStepInstructionWithBreakpointCheck k syms w = stepOverBreakpoint k syms w := by
  unfold singleStepInstructionWithBreakpointCheck stepOverBreakpoint
  rw [hp]

end SingleStepped

variable (syms) in
/-- At a location without a patch nothing is done. -/
theorem Ready.singleStep_idle (h : Ready w ts)
    (hidle : w.idle (getPc k w.tracee w.pid) = true) :
    singleStepInstructionWithBreakpointCheck k syms w = .ok w := by
  rcases hp : mapLookup w.bpLocations (getPc k w.tracee w.pid) with - | p
  · rw [World.idle_of_absent hp] at hidle
    cases hidle
  obtain ⟨loc, hloc, -⟩ := h.attached.stored _ p hp
  rw [World.idle_of_loc hp hloc, Bool.not_eq_true'] at hidle
  rw [singleStep_of_loc hp, stepOverBreakpoint, hp]
  unfold executeStepOverLoc
  dsimp only
  rw [World.derefLoc_eq hloc, ok_bind, if_neg (by rw [hidle]; decide)]
  rfl

section Machine

variable {M : Cpu} {E : Ends M} {s : Regs × Memory} {line n : ℕ}

theorem Tracing.stepping_free (hk : k.Steps M E) (h : Tracing M w s)
    (hfree : w.isPatched (M.pc s.1) = false) :
    Stepping M E w s (w.tracee.resume k w.pid .singlestep) := by
  refine h.stepping rfl h.stopped rfl ?_
  rw [h.mem hk, Function.update_eq_self_iff.mpr hfree.symm]

variable (syms) in
/-- Off an idle location the call executes the instruction at the pc. -/
theorem Tracing.singleStep_goes (hk : k.Steps M E) (h : Tracing M w s)
    (hbusy : w.idle (M.pc s.1) = false) (hgoes : E.status s = none) :
    ∃ t, singleStepInstructionWithBreakpointCheck k syms w = .ok (w.setTracee t) ∧
      Tracing M (w.setTracee t) (M.exec s) := by
  have hmove : ∀ t : Tracee, t.pid = w.tracee.pid → t.task = .stopped → t.regs = (M.exec s).1 →
      t.mem = M.patch w.isPatched (M.exec s).2 → Tracing M (w.setTracee t) (M.exec s) :=
    fun _ => h.move hk (M.loaded_exec s h.loaded)
  unfold singleStepInstructionWithBreakpointCheck
  rw [h.getPc_eq hk]
  rcases hp : mapLookup w.bpLocations (M.pc s.1) with - | p
  · have hfree : w.isPatched (M.pc s.1) = false := World.isPatched_absent hp
    have ht := h.stepping_free hk hfree
    have hwait := ht.wait hk h hgoes
    rw [Function.update_eq_self_iff.mpr hfree.symm] at hwait
    exact ⟨_, waitForSignal_step ht.alive hwait, hmove _ ht.pid rfl rfl rfl⟩
  · obtain ⟨loc, hloc, -⟩ := h.hosted.stored _ p hp
    rw [World.idle_of_loc hp hloc, Bool.not_eq_false'] at hbusy
    have harmed : M.armed w.isPatched s = true := (World.isPatched_eq hp hloc).trans hbusy
    obtain ⟨t, hok, hpid, htask, hregs, hmem⟩ := h.stepOver_armed syms hk hgoes harmed
    refine ⟨t, ?_, hmove t hpid htask hregs hmem⟩
    unfold stepOverBreakpoint at hok
    rwa [h.getPc_eq hk, hp] at hok

/-- A process that ends in the step over a patch takes the location with it. -/
theorem Tracing.stepOver_ends (hk : k.Steps M E) (h : Tracing M w s)
    (harmed : M.armed w.isPatched s = true) {st : WaitStatus} (hends : E.status s = some st) :
    faultOf (stepOverBreakpoint k syms w) = some .useAfterFree := by
  obtain ⟨ts, hready⟩ := h.ready
  obtain ⟨p, loc, hp, hloc, hpatched, hrun⟩ := h.hosted.toMapped.patched_loc harmed
  have ht := h.stepping_disarmed hk hloc hpatched hrun
  obtain ⟨regs, mem, hwait⟩ := hk.ends _ st ht.task ht.free (ht.status.trans hends)
  have halive : w.life.Alive := w.alive_iff.mp h.hosted.alive
  exact stepOverBreakpoint_dies syms hready.attached (by rw [h.getPc_eq hk, hp]) hloc hpatched
    halive hwait (E.gone s st hends)

/-- A process that ends in the step leaves no active debugger. -/
theorem Tracing.singleStep_ends (hk : k.Steps M E) (h : Tracing M w s)
    (hbusy : w.idle (M.pc s.1) = false) {st : WaitStatus} (hends : E.status s = some st)
    (hok : singleStepInstructionWithBreakpointCheck k syms w = .ok w') :
    w'.state = .notActive := by
  obtain ⟨ts, hready⟩ := h.ready
  unfold singleStepInstructionWithBreakpointCheck at hok
  rw [h.getPc_eq hk] at hok
  rcases hp : mapLookup w.bpLocations (M.pc s.1) with - | p
  · rw [hp] at hok
    have ht := h.stepping_free hk (World.isPatched_absent hp)
    obtain ⟨regs, mem, hwait⟩ := hk.ends _ st ht.task ht.free (ht.status.trans hends)
    obtain ⟨w₁, t, hbury⟩ := waitForSignal_buries syms (hready.attached.setTracee _)
      (Tracee.waitpid_of_reports ht.alive hwait) (E.gone s st hends)
    cases hbury.symm.trans hok
    rfl
  · obtain ⟨loc, hloc, -⟩ := h.hosted.stored _ p hp
    rw [World.idle_of_loc hp hloc, Bool.not_eq_false'] at hbusy
    have hdies : faultOf (stepOverBreakpoint k syms w) = some .useAfterFree :=
      h.stepOver_ends hk ((World.isPatched_eq hp hloc).trans hbusy) hends
    unfold stepOverBreakpoint at hdies
    rw [h.getPc_eq hk, hp] at hdies
    rw [hp] at hok
    cases hdies.symm.trans (congrArg faultOf hok)

/-! ## The loop of `step_in` -/

/-- Whether `step_in` takes an address for one on the line. -/
def World.OnLine (w : World) (line : ℕ) (a : Addr) : Prop :=
  ∃ r, getLineFromPc w a = .ok r ∧ lineOf r = line

theorem getLineFromPc_congr (hdwfl : w'.dwfl = w.dwfl) {a : Addr} {r : Option (String × SrcLine)}
    (h : getLineFromPc w a = .ok r) : getLineFromPc w' a = .ok r := by
  unfold getLineFromPc at h ⊢
  rw [hdwfl]
  split_ifs at h ⊢ with hmodule
  rcases hsrc : w.dwfl.getsrc a with - | src
  · rw [hsrc] at h
    cases h
    rfl
  · rw [hsrc] at h
    dsimp only at h ⊢
    rcases hfile : src.file with - | file
    · rw [hfile] at h
      cases h
    · rw [hfile] at h
      cases h
      rfl

theorem World.OnLine.congr {a : Addr} (h : w.OnLine line a) (hdwfl : w'.dwfl = w.dwfl) :
    w'.OnLine line a := by
  obtain ⟨r, hr, hline⟩ := h
  exact ⟨r, getLineFromPc_congr hdwfl hr, hline⟩

/-- A turn of the loop on the line. -/
theorem stepInLoop_onLine (h : w.OnLine line (getPc k w.tracee w.pid)) (fuel : ℕ) :
    stepInLoop k syms line (fuel + 1) w =
      singleStepInstructionWithBreakpointCheck k syms w >>= stepInLoop k syms line fuel := by
  obtain ⟨r, hr, hline⟩ := h
  rw [stepInLoop, hr, ok_bind, if_pos hline]

variable (syms) in
/-- The loop follows the machine as long as it is on the line, by induction on the instructions. -/
theorem Tracing.stepInLoop_runs (hk : k.Steps M E) (h : Tracing M w s)
    (hrun : ∀ i < n, w.OnLine line (M.pc (M.run i s).1) ∧ w.idle (M.pc (M.run i s).1) = false ∧
      E.status (M.run i s) = none) :
    ∃ t, Tracing M (w.setTracee t) (M.run n s) ∧ ∀ fuel, stepInLoop k syms line (n + fuel) w =
      stepInLoop k syms line fuel (w.setTracee t) := by
  induction n generalizing w s with
  | zero =>
    refine ⟨w.tracee, h, fun fuel => ?_⟩
    rw [Nat.zero_add]
    rfl
  | succ n ih =>
    obtain ⟨hline, hbusy, hgoes⟩ := hrun 0 (Nat.succ_pos n)
    obtain ⟨t₁, hstep, h₁⟩ := h.singleStep_goes syms hk hbusy hgoes
    obtain ⟨t, ht, hloop⟩ := ih h₁ fun i hi => by
      obtain ⟨hline, hbusy, hgoes⟩ := hrun (i + 1) (Nat.succ_lt_succ hi)
      exact ⟨hline.congr rfl, hbusy, hgoes⟩
    refine ⟨t, ht, fun fuel => ?_⟩
    rw [Nat.succ_add, stepInLoop_onLine (by rw [h.getPc_eq hk]; exact hline), hstep, ok_bind, hloop]
    rfl

end Machine

/-- The program of `incLoop` in a stop at its first instruction, which is on line 3. Its jump is on
this line. -/
def incLoopLines (jump : Option SrcLine) : World := { incLoopStopped with
  dwfl := { Dwfl.empty with
    addrmodule := fun _ => true
    getsrc := fun a => if a = 0x401000 then some ⟨some "inc.c", 3, none, false⟩ else jump } }

/-- The state of the machine in that stop. -/
def incState : Regs × Memory := (incLoopStopped.tracee.regs, fun _ => 0x90)

def incLine4 : SrcLine := ⟨some "inc.c", 4, none, false⟩

theorem incLoopLines_tracing (jump : Option SrcLine) :
    Tracing incLoop (incLoopLines jump) incState :=
  World.stoppedAt_tracing _ ⟨fun _ _ => rfl, .inl rfl⟩

end Vdbg
