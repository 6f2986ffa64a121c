import Vdbg.Lib.Traps
import Vdbg.Memory
import Vdbg.Session

/-!
# Continuing a program

`continue_execution` against the machine the program would run on without a debugger. A kernel
`Executes` a machine when processes do what the machine does, stop after a single step and stop past
an `int3`. `Tracing M w s` says that the tracee is stopped in the state `s` of the machine but for
the patches. From there `continue` runs the program to the first patched address it arrives at, as
if there were no patches (`continue_arrives`), and several of them find every arrival.
-/

namespace Vdbg

open Words FaultRun

variable {k : Kernel} {syms : Symbols}

/-! ## Machines and kernels -/

/-- A machine that raises no signals, does not exit and does not touch its code. -/
abbrev Cpu := Traps.Machine Regs Addr Byte

/-- Processes do what the machine does. After a single step they stop at the next instruction, and
an `int3` stops them past itself. -/
structure Kernel.Executes (k : Kernel) (M : Cpu) : Prop where
  accessible : k.Accessible
  pc : ∀ regs, M.pc regs = regs .rip
  int3 : M.trap = 0xcc
  step : ∀ t, t.task = .running .singlestep → ¬M.AtTrap (t.regs, t.mem) →
    k.wait t = .reports (.stopped ⟨SIGTRAP, TRAP_TRACE⟩) (M.exec (t.regs, t.mem)).1
      (M.exec (t.regs, t.mem)).2
  cont : ∀ t n, t.task = .running (.cont 0) → M.RunsTo (t.regs, t.mem) n →
    k.wait t = .reports (.stopped ⟨SIGTRAP, SI_KERNEL⟩)
      (Function.update (M.run n (t.regs, t.mem)).1 .rip (M.pc (M.run n (t.regs, t.mem)).1 + 1))
      (M.run n (t.regs, t.mem)).2
  forever : ∀ t, t.task = .running (.cont 0) → (∀ n, ¬M.AtTrap (M.run n (t.regs, t.mem))) →
    k.wait t = .never

/-- When a machine ends, and how: the instruction at the pc decides. -/
structure Ends (M : Cpu) where
  status : Regs × Memory → Option WaitStatus
  gone : ∀ s st, status s = some st → st.task = .gone
  blind : M.Blind status

/-- A machine that goes on for ever. -/
def Ends.never (M : Cpu) : Ends M := ⟨fun _ => none, fun _ _ he => (by cases he), fun _ _ _ _ => rfl⟩

/-- After a single step a process has done what the machine does, or it has ended. -/
structure Kernel.Steps (k : Kernel) (M : Cpu) (E : Ends M) : Prop where
  accessible : k.Accessible
  pc : ∀ regs, M.pc regs = regs .rip
  int3 : M.trap = 0xcc
  step : ∀ t, t.task = .running .singlestep → ¬M.AtTrap (t.regs, t.mem) →
    E.status (t.regs, t.mem) = none →
    k.wait t = .reports (.stopped ⟨SIGTRAP, TRAP_TRACE⟩) (M.exec (t.regs, t.mem)).1
      (M.exec (t.regs, t.mem)).2
  ends : ∀ t st, t.task = .running .singlestep → ¬M.AtTrap (t.regs, t.mem) →
    E.status (t.regs, t.mem) = some st → ∃ regs mem, k.wait t = .reports st regs mem

theorem Kernel.Executes.steps {M : Cpu} (hk : k.Executes M) : k.Steps M (.never M) :=
  ⟨hk.accessible, hk.pc, hk.int3, fun t ht htrap _ => hk.step t ht htrap,
    fun _ _ _ _ he => (by cases he)⟩

/-- Processes do what the machine does until it ends: after a single step they stop at the next
instruction, and continued they run to an `int3` and stop past it. -/
structure Kernel.Runs (k : Kernel) (M : Cpu) (E : Ends M) : Prop extends k.Steps M E where
  cont : ∀ t n, t.task = .running (.cont 0) → M.RunsTo (t.regs, t.mem) n →
    (∀ i < n, E.status (M.run i (t.regs, t.mem)) = none) →
    k.wait t = .reports (.stopped ⟨SIGTRAP, SI_KERNEL⟩)
      (Function.update (M.run n (t.regs, t.mem)).1 .rip (M.pc (M.run n (t.regs, t.mem)).1 + 1))
      (M.run n (t.regs, t.mem)).2
  dies : ∀ t n st, t.task = .running (.cont 0) → (∀ i ≤ n, ¬M.AtTrap (M.run i (t.regs, t.mem))) →
    (∀ i < n, E.status (M.run i (t.regs, t.mem)) = none) →
    E.status (M.run n (t.regs, t.mem)) = some st → ∃ regs mem, k.wait t = .reports st regs mem
  forever : ∀ t, t.task = .running (.cont 0) → (∀ n, ¬M.AtTrap (M.run n (t.regs, t.mem))) →
    (∀ n, E.status (M.run n (t.regs, t.mem)) = none) → k.wait t = .never

theorem Kernel.Executes.runs {M : Cpu} (hk : k.Executes M) : k.Runs M (.never M) :=
  ⟨hk.steps, fun t n ht hn _ => hk.cont t n ht hn, fun _ _ _ _ _ _ he => (by cases he),
    fun t ht hnever _ => hk.forever t ht hnever⟩

/-- libdwfl finds the module of an address, and a line it finds there has a file. -/
structure Dwfl.Answers (d : Dwfl) (a : Addr) : Prop where
  module : d.addrmodule a = true
  file : ∀ src, d.getsrc a = some src → src.file.isSome

/-- The tracee is stopped in a state of the machine, but for patches on instructions. -/
structure Tracing (M : Cpu) (w : World) (s : Regs × Memory) : Prop where
  ready : ∃ ts, Ready w ts
  active : w.state = .active
  signal : w.pendingSignal = 0
  hosted : Hosted w
  patches : ∀ a, w.isPatched a = true → M.starts a
  stopped : w.tracee.task = .stopped
  regs : w.tracee.regs = s.1
  memory : Transparent w s.2
  loaded : M.Loaded s

section Tracing

variable {M : Cpu} {E : Ends M} {w w' : World} {s : Regs × Memory} {a : Addr} {n : ℕ}

/-- The location behind a patch. -/
theorem Mapped.patched_loc (h : Mapped w) (ha : w.isPatched a = true) :
    ∃ p loc, mapLookup w.bpLocations a = some p ∧ w.locs p = some loc ∧ loc.patched = true ∧
      loc.runningAddr = a := by
  rcases hp : mapLookup w.bpLocations a with - | p
  · rw [World.isPatched_absent hp] at ha
    cases ha
  · obtain ⟨loc, hloc, hrun⟩ := h.stored a p hp
    rw [World.isPatched_eq hp hloc] at ha
    exact ⟨p, loc, rfl, hloc, ha, hrun⟩

theorem Tracing.mem (hk : k.Steps M E) (h : Tracing M w s) :
    w.tracee.mem = M.patch w.isPatched s.2 := by
  funext a
  rcases ha : w.isPatched a with - | -
  · rw [Traps.Machine.patch_of_not_mem ha]
    exact h.memory.plain a ha
  · obtain ⟨p, loc, -, hp, hpat, rfl⟩ := h.hosted.toMapped.patched_loc ha
    rw [Traps.Machine.patch_of_mem ha, hk.int3]
    exact (h.memory.armed p loc hp hpat).1

theorem Tracing.state (hk : k.Steps M E) (h : Tracing M w s) :
    (w.tracee.regs, w.tracee.mem) = M.patchState w.isPatched s :=
  Prod.ext h.regs (h.mem hk)

theorem Tracing.inStop (h : Tracing M w s) : w.tracee.inStop k w.pid = true :=
  Tracee.inStop_of_stopped h.hosted.alive h.stopped

theorem Tracing.getPc_eq (hk : k.Steps M E) (h : Tracing M w s) :
    getPc k w.tracee w.pid = M.pc s.1 := by
  rw [getPc, getRegisterValue, if_pos h.inStop, h.regs, hk.pc]

/-- The tracee moves on to another state of the machine. -/
theorem Tracing.move (hk : k.Steps M E) (h : Tracing M w s) {s' : Regs × Memory} {t : Tracee}
    {out : List Report} (hs : M.Loaded s') (hpid : t.pid = w.tracee.pid) (htask : t.task = .stopped)
    (hregs : t.regs = s'.1) (hmem : t.mem = M.patch w.isPatched s'.2) :
    Tracing M { w with tracee := t, out := out } s' := by
  obtain ⟨ts, hready⟩ := h.ready
  refine ⟨⟨ts, hready.elsewhere rfl⟩, h.active, h.signal, h.hosted.congr rfl rfl rfl le_rfl ?_,
    h.patches, htask, hregs, ⟨fun p loc hp hpat => ?_, fun a ha => ?_⟩, hs⟩
  · have halive := h.hosted.alive
    unfold Tracee.alive at halive ⊢
    rw [Bool.and_eq_true] at halive
    rw [hpid, halive.1, htask]
    rfl
  · have hpatched : w.isPatched loc.runningAddr = true := (h.hosted.isPatched_loc hp).trans hpat
    have hstart := M.starts_text _ (h.patches _ hpatched)
    refine ⟨?_, ?_⟩
    · show t.mem loc.runningAddr = 0xcc
      rw [hmem, Traps.Machine.patch_of_mem hpatched, hk.int3]
    · rw [(h.memory.armed p loc hp hpat).2, h.loaded.code _ hstart, hs.code _ hstart]
  · show t.mem a = s'.2 a
    rw [hmem]
    exact Traps.Machine.patch_of_not_mem ha

/-! ## The step over a patch -/

/-- A stop after a single step is not told. -/
theorem waitForSignal_step {regs : Regs} {mem : Memory} (halive : w.tracee.alive w.pid = true)
    (hwait : k.wait w.tracee = .reports (.stopped ⟨SIGTRAP, TRAP_TRACE⟩) regs mem) :
    waitForSignal k syms w = .ok (w.setTracee { w.tracee.logged
      (.wait w.pid (some (.stopped ⟨SIGTRAP, TRAP_TRACE⟩))) with task := .stopped, regs, mem }) := by
  rw [waitForSignal_stopped (Tracee.waitpid_of_reports halive hwait)]
  rfl

/-- The tracee in a single step, with the patch at the pc taken away. -/
structure Stepping (M : Cpu) (E : Ends M) (w : World) (s : Regs × Memory) (t : Tracee) : Prop where
  pid : t.pid = w.tracee.pid
  task : t.task = .running .singlestep
  alive : t.alive w.pid = true
  state : (t.regs, t.mem) = M.patchState (Function.update w.isPatched (M.pc s.1) false) s
  free : ¬M.AtTrap (t.regs, t.mem)
  status : E.status (t.regs, t.mem) = E.status s

/-- A tracee that is resumed without a patch at the pc. -/
theorem Tracing.stepping (h : Tracing M w s) {t : Tracee} (hpid : t.pid = w.tracee.pid)
    (htask : t.task = .stopped) (hregs : t.regs = w.tracee.regs)
    (hmem : t.mem = M.patch (Function.update w.isPatched (M.pc s.1) false) s.2) :
    Stepping M E w s (t.resume k w.pid .singlestep) := by
  have halive : t.alive w.pid = true := by
    have halive := h.hosted.alive
    unfold Tracee.alive at halive ⊢
    rw [Bool.and_eq_true] at halive
    rw [hpid, halive.1, htask]
    rfl
  have hfree : M.armed (Function.update w.isPatched (M.pc s.1) false) s = false :=
    Function.update_self ..
  have hstate : ((t.resume k w.pid .singlestep).regs, (t.resume k w.pid .singlestep).mem) =
      M.patchState (Function.update w.isPatched (M.pc s.1) false) s := by
    rw [Tracee.resume_regs, Tracee.resume_mem]
    exact Prod.ext (hregs.trans h.regs) hmem
  refine ⟨by rw [Tracee.resume_pid, hpid], ?_, by rw [Tracee.alive_resume, halive], hstate, ?_, ?_⟩
  · rw [Tracee.resume_of_inStop (Tracee.inStop_of_stopped halive htask)]
  · rw [hstate, Traps.Machine.atTrap_patchState h.loaded, hfree]
    exact Bool.false_ne_true
  · rw [hstate, E.blind.patchState (Traps.Machine.starts_without h.patches) h.loaded hfree]

/-- With the location at the pc disarmed. -/
theorem Tracing.stepping_disarmed (hk : k.Steps M E) (h : Tracing M w s) {p : LocPtr}
    {loc : BpLocation} (hp : w.locs p = some loc) (hpat : loc.patched = true)
    (hrun : loc.runningAddr = M.pc s.1) :
    Stepping M E w s ((disarm k w.tracee loc).2.resume k w.pid .singlestep) := by
  have hsaved : loc.savedData = s.2 (M.pc s.1) := by
    rw [(h.memory.armed p loc hp hpat).2, hrun]
  rw [disarm_eq hk.accessible (h.hosted.alive_of_loc hp) hpat]
  refine h.stepping rfl h.stopped rfl ?_
  show Function.update w.tracee.mem loc.runningAddr loc.savedData = _
  rw [h.mem hk, hsaved, hrun, Traps.Machine.update_patch]

/-- What the single step comes to, unless the process ends in it. -/
theorem Stepping.wait {t : Tracee} (hk : k.Steps M E) (h : Tracing M w s)
    (ht : Stepping M E w s t) (hgoes : E.status s = none) :
    k.wait t = .reports (.stopped ⟨SIGTRAP, TRAP_TRACE⟩) (M.exec s).1
      (M.patch (Function.update w.isPatched (M.pc s.1) false) (M.exec s).2) := by
  rw [hk.step t ht.task ht.free (ht.status.trans hgoes), ht.state,
    Traps.Machine.exec_patchState_without h.loaded h.patches]
  rfl

variable (syms) in
/-- The step over a location that is patched: the original instruction is executed, and the patch is
back. -/
theorem Tracing.stepOver_armed (hk : k.Steps M E) (h : Tracing M w s)
    (hgoes : E.status s = none) (harmed : M.armed w.isPatched s = true) :
    ∃ t, stepOverBreakpoint k syms w = .ok (w.setTracee t) ∧ t.pid = w.tracee.pid ∧
      t.task = .stopped ∧ t.regs = (M.exec s).1 ∧ t.mem = M.patch w.isPatched (M.exec s).2 := by
  obtain ⟨p, loc, hlookup, hp, hpat, hrun⟩ := h.hosted.toMapped.patched_loc harmed
  have hsaved : loc.savedData = s.2 (M.pc s.1) := by
    rw [(h.memory.armed p loc hp hpat).2, hrun]
  -- the instruction is executed without its patch
  have ht₂ := h.stepping_disarmed hk hp hpat hrun
  set t₁ := (disarm k w.tracee loc).2 with ht₁
  set t₂ := t₁.resume k w.pid .singlestep with ht₂'
  set w₁ := (w.setTracee t₂).setLoc p { loc with patched := false } with hw₁
  have hstep : waitForSignal k syms w₁ = _ := waitForSignal_step ht₂.alive (ht₂.wait hk h hgoes)
  set t₃ : Tracee := { t₂.logged (.wait w.pid (some (.stopped ⟨SIGTRAP, TRAP_TRACE⟩))) with
    task := .stopped, regs := (M.exec s).1
    mem := M.patch (Function.update w.isPatched (M.pc s.1) false) (M.exec s).2 } with ht₃
  -- the patch is put back
  have halive₃ : t₃.alive loc.pid = true := by
    rw [h.hosted.own p loc hp]
    have halive := ht₂.alive
    unfold Tracee.alive at halive ⊢
    rw [Bool.and_eq_true] at halive ⊢
    exact ⟨halive.1, rfl⟩
  have hread : t₃.mem loc.runningAddr = loc.savedData := by
    show M.patch (Function.update w.isPatched (M.pc s.1) false) (M.exec s).2 loc.runningAddr = _
    have hstart := M.starts_text _ h.loaded.starts
    rw [hrun, Traps.Machine.patch_of_not_mem (Function.update_self ..), hsaved,
      (M.loaded_exec s h.loaded).code _ hstart, h.loaded.code _ hstart]
  have harm : arm k t₃ { loc with patched := false } =
      (loc, t₃.storeByte loc.pid loc.runningAddr 0xcc) := by
    have heq : arm k t₃ { loc with patched := false } = _ := arm_eq hk.accessible halive₃ rfl
    rw [heq]
    show ({ loc with savedData := t₃.mem loc.runningAddr, patched := true }, _) = _
    rw [hread, ← hpat]
  refine ⟨t₃.storeByte loc.pid loc.runningAddr 0xcc, ?_, ht₂.pid, rfl, rfl, ?_⟩
  · unfold stepOverBreakpoint executeStepOverLoc
    rw [h.getPc_eq hk, hlookup]
    dsimp only
    have hp₁ : (w₁.setTracee t₃).locs p = some { loc with patched := false } :=
      Function.update_self ..
    have hsingle : singleStepInstruction k syms ((w.setTracee t₁).setLoc p
        { loc with patched := false }) = .ok (w₁.setTracee t₃) := hstep
    have hdisarm : disarm k w.tracee loc = ({ loc with patched := false }, t₁) :=
      Prod.ext (disarm_fst k w.tracee loc) rfl
    rw [World.derefLoc_eq hp, ok_bind, if_pos hpat, locDisable_eq hp, hdisarm, ok_bind]
    dsimp only
    rw [hsingle, ok_bind, locEnable_eq hp₁]
    rw [show (w₁.setTracee t₃).tracee = t₃ from rfl, harm]
    simp only [hw₁, World.setLoc, World.setTracee, Function.update_idem]
    rw [← hp, Function.update_eq_self]
  · show Function.update (M.patch (Function.update w.isPatched (M.pc s.1) false) (M.exec s).2)
      loc.runningAddr 0xcc = _
    have hpatched : w.isPatched (M.pc s.1) = true := harmed
    rw [hrun, ← hk.int3, Traps.Machine.update_patch_trap hpatched]

variable (syms) in
/-- `step_over_breakpoint` executes the instruction at the pc if it is patched, and nothing
otherwise. -/
theorem Tracing.stepOver (hk : k.Steps M E) (h : Tracing M w s)
    (hgoes : M.armed w.isPatched s = true → E.status s = none) :
    ∃ t, stepOverBreakpoint k syms w = .ok (w.setTracee t) ∧ Tracing M (w.setTracee t)
      (M.run (if M.armed w.isPatched s then 1 else 0) s) := by
  split_ifs with harmed
  · obtain ⟨t, hok, hpid, htask, hregs, hmem⟩ := h.stepOver_armed syms hk (hgoes harmed) harmed
    exact ⟨t, hok, h.move hk (M.loaded_exec s h.loaded) hpid htask hregs hmem⟩
  · refine ⟨w.tracee, ?_, h⟩
    have hfree : w.isPatched (M.pc s.1) = false := by simpa [Traps.Machine.armed] using harmed
    unfold stepOverBreakpoint executeStepOverLoc
    rw [h.getPc_eq hk]
    rcases hp : mapLookup w.bpLocations (M.pc s.1) with - | p
    · rfl
    · obtain ⟨loc, hloc, -⟩ := h.hosted.stored _ p hp
      rw [World.isPatched_eq hp hloc] at hfree
      dsimp only
      rw [World.derefLoc_eq hloc, ok_bind, hfree]
      rfl

/-! ## The run to the next patch -/

/-- The message of a hit can be told at a patched location. -/
theorem printBpHitMessageAtLoc_patched {ts : List Addr} (h : Ready w ts) {p : LocPtr}
    {loc : BpLocation} (hp : w.locs p = some loc) (hpat : loc.patched = true) :
    ∃ w', printBpHitMessageAtLoc w (some p) = .ok w' := by
  rcases htemp : loc.isTemp with - | -
  · refine printBpHitMessageAtLoc_ok hp (h.attached.listed_live hp) ?_
      (h.attached.armed p loc hp htemp hpat)
    rw [h.attached.list_user hp htemp]
    exact h.attached.nodup.filter _
  · refine ⟨w, ?_⟩
    unfold printBpHitMessageAtLoc
    dsimp only
    rw [World.derefLoc_eq hp, ok_bind, if_pos htemp]
    rfl

/-- Where libdwfl answers, the source line can be shown. -/
theorem printSourceAtCurrentPc_ok (h : syms.hasDwarf = true → w.dwfl.Answers a) :
    ∃ w', printSourceAtCurrentPc syms w a DEFAULT_LINE_CONTEXT = .ok w' := by
  unfold printSourceAtCurrentPc getLineFromPc
  split
  · exact ⟨w, rfl⟩
  rename_i hdwarf
  replace h := h (by simpa using hdwarf)
  rw [h.module]
  rcases hsrc : w.dwfl.getsrc a with - | src
  · exact ⟨w, rfl⟩
  · obtain ⟨file, hfile⟩ := Option.isSome_iff_exists.mp (h.file src hsrc)
    simp only [Bool.not_true, Bool.false_eq_true, if_false, hfile, ok_bind]
    split
    · exact ⟨w, rfl⟩
    · rename_i hline
      refine ⟨_, if_neg ?_⟩
      simpa [DEFAULT_LINE_CONTEXT] using hline

/-- Elsewhere the debugger aborts. -/
theorem printSourceAtCurrentPc_critical (h : ¬(syms.hasDwarf = true → w.dwfl.Answers a)) {n : ℕ} :
    faultOf (printSourceAtCurrentPc syms w a n) = some .critical := by
  push Not at h
  obtain ⟨hdwarf, hnone⟩ := h
  unfold printSourceAtCurrentPc getLineFromPc
  rw [if_neg (by simp [hdwarf])]
  split_ifs with hmodule
  · rfl
  rcases hsrc : w.dwfl.getsrc a with - | src
  · refine absurd ⟨by simpa using hmodule, fun src he => ?_⟩ hnone
    rw [hsrc] at he
    cases he
  rcases hfile : src.file with - | file
  · simp only [hfile]
    rfl
  · refine absurd ⟨by simpa using hmodule, fun src' he => ?_⟩ hnone
    rw [← Option.some.inj (hsrc.symm.trans he), hfile]
    rfl

/-- A patched machine that runs between patches ends where the plain one does. -/
theorem Tracing.status_run (h : Tracing M w s)
    (hfree : ∀ i ≤ n, M.armed w.isPatched (M.run i s) = false) :
    E.status (M.run n (M.patchState w.isPatched s)) = E.status (M.run n s) := by
  rw [Traps.Machine.run_patchState h.patches h.loaded fun i hi => hfree i hi.le]
  exact E.blind.patchState h.patches (Traps.Machine.run_loaded h.loaded n) (hfree n le_rfl)

/-- Resumed, the tracee runs to the next patch and stops there, with the pc set back. What is left is to
show its source line. -/
theorem Tracing.resume_reports (hk : k.Runs M E) (h : Tracing M w s)
    (hfree : ∀ i < n, M.armed w.isPatched (M.run i s) = false)
    (hgoes : ∀ i < n, E.status (M.run i s) = none)
    (harmed : M.armed w.isPatched (M.run n s) = true) :
    ∃ t out, Tracing M { w with tracee := t, out := out } (M.run n s) ∧
      waitForSignal k syms (w.setTracee (w.tracee.resume k w.pid (.cont 0))) =
        printSourceAtCurrentPc syms { w with tracee := t, out := out } (M.pc (M.run n s).1)
          DEFAULT_LINE_CONTEXT := by
  set t₁ : Tracee := { w.tracee.logged (.resume w.pid (.cont 0)) with task := .running (.cont 0) }
    with ht₁
  have hresume : w.tracee.resume k w.pid (.cont 0) = t₁ := Tracee.resume_of_inStop h.inStop
  have halive₁ : t₁.alive w.pid = true := by
    rw [← hresume, Tracee.alive_resume]
    exact h.hosted.alive
  have hstate : (t₁.regs, t₁.mem) = M.patchState w.isPatched s := h.state hk.toSteps
  have hwait := hk.cont t₁ n rfl (by
    rw [hstate]
    exact Traps.Machine.runsTo_patchState h.patches h.loaded hfree harmed) fun i hi => by
    rw [hstate, h.status_run fun j hj => hfree j (by omega)]
    exact hgoes i hi
  rw [hstate, Traps.Machine.run_patchState h.patches h.loaded hfree] at hwait
  -- the stop past the `int3`
  set r := (M.run n s).1 with hr
  set info : SigInfo := ⟨SIGTRAP, SI_KERNEL⟩ with hinfo
  set t₂ : Tracee := { t₁.logged (.wait w.pid (some (.stopped info))) with
    task := .stopped, regs := Function.update r .rip (M.pc r + 1)
    mem := M.patch w.isPatched (M.run n s).2 } with ht₂
  have hdispatch : waitForSignal k syms (w.setTracee t₁) =
      dispatchStop k syms ((w.setTracee t₁).setTracee t₂) info :=
    waitForSignal_stopped (Tracee.waitpid_of_reports halive₁ hwait)
  have hstop : t₂.inStop k w.pid = true := by
    refine Tracee.inStop_of_stopped ?_ rfl
    have halive := h.hosted.alive
    unfold Tracee.alive at halive ⊢
    rw [Bool.and_eq_true] at halive
    rw [show t₂.pid = w.tracee.pid from rfl, halive.1]
    rfl
  have hpc : getPc k t₂ w.pid - 1 = M.pc r := by
    rw [getPc, getRegisterValue, if_pos hstop]
    show Function.update r .rip (M.pc r + 1) .rip - 1 = M.pc r
    rw [Function.update_self]
    exact BitVec.add_sub_cancel ..
  obtain ⟨ts, hready⟩ := h.ready
  obtain ⟨p, loc, hlookup, hp, hpat, -⟩ := h.hosted.toMapped.patched_loc harmed
  have hset : setPc k t₂ w.pid (M.pc r) = { t₂ with regs := r } := by
    rw [setPc_eq, if_pos hstop]
    show { t₂ with regs := Function.update (Function.update r .rip (M.pc r + 1)) .rip (M.pc r) } = _
    rw [Function.update_idem, hk.pc, Function.update_eq_self]
  set w₂ : World := (w.setTracee t₁).setTracee { t₂ with regs := r } with hw₂
  obtain ⟨w₃, hprint⟩ := printBpHitMessageAtLoc_patched (w := w₂) (hready.elsewhere rfl) hp hpat
  have hw₃ := printBpHitMessageAtLoc_eq hprint
  refine ⟨{ t₂ with regs := r }, w₃.out, ?_, ?_⟩
  · exact h.move hk.toSteps (Traps.Machine.run_loaded h.loaded n) rfl rfl rfl rfl
  · have hreport : dispatchStop k syms ((w.setTracee t₁).setTracee t₂) info = (do
        let w₁ ← printBpHitMessageAtLoc (((w.setTracee t₁).setTracee t₂).setTracee
          (setPc k t₂ w.pid (getPc k t₂ w.pid - 1)))
            (mapLookup w.bpLocations (getPc k t₂ w.pid - 1))
        printSourceAtCurrentPc syms w₁ (getPc k t₂ w.pid - 1) DEFAULT_LINE_CONTEXT) := rfl
    rw [hresume, hdispatch, hreport, hpc, hlookup, hset]
    refine (congrArg (· >>= _) hprint).trans ?_
    rw [ok_bind, hw₃]
    rfl

/-- The steps after the one over the patch at the pc. -/
theorem free_after_stepOver (hstop : M.Stops w.isPatched s n) {j : ℕ}
    (hj : j = if M.armed w.isPatched s then 1 else 0) :
    j ≤ n ∧ ∀ i < n - j, M.armed w.isPatched (M.run i (M.run j s)) = false := by
  have hpos := hstop.pos
  split_ifs at hj with harmed
  · refine ⟨by omega, fun i hi => ?_⟩
    rw [hj, ← Traps.Machine.run_add]
    exact hstop.free (1 + i) (by omega) (by omega)
  · refine ⟨by omega, fun i hi => ?_⟩
    rw [hj, ← Traps.Machine.run_add, Nat.zero_add]
    rcases Nat.eq_zero_or_pos i with rfl | hi'
    · simpa using harmed
    · exact hstop.free i hi' (by omega)

/-- `continue` after the step over the patch at the pc. -/
theorem Tracing.continueExecution_eq {t : Tracee} (h : Tracing M w s)
    (hstep : stepOverBreakpoint k syms w = .ok (w.setTracee t)) :
    continueExecution k syms w =
      waitForSignal k syms ((w.setTracee t).setTracee (t.resume k w.pid (.cont 0))) := by
  unfold continueExecution
  rw [if_neg (not_not.mpr h.active), hstep, ok_bind]
  have hsig : ({ w.setTracee t with pendingSignal := 0 } : World) = w.setTracee t := by
    rw [← h.signal]
    rfl
  rw [hsig, show (w.setTracee t).pendingSignal = 0 from h.signal]
  rfl

variable (syms) in
/-- `continue` runs to the first arrival at a patched address, unless the program ends before, and
shows its source line. -/
theorem Tracing.continue_reports (hk : k.Runs M E) (h : Tracing M w s)
    (hstop : M.Stops w.isPatched s n) (hgoes : ∀ i < n, E.status (M.run i s) = none) :
    ∃ t out, Tracing M { w with tracee := t, out := out } (M.run n s) ∧
      continueExecution k syms w = printSourceAtCurrentPc syms { w with tracee := t, out := out }
        (M.pc (M.run n s).1) DEFAULT_LINE_CONTEXT := by
  obtain ⟨t, hstep, h₁⟩ := h.stepOver syms hk.toSteps fun _ => hgoes 0 hstop.pos
  obtain ⟨hle, hfree⟩ := free_after_stepOver hstop rfl
  have hrun := Traps.Machine.run_add (M := M) (s := s)
    (m := if M.armed w.isPatched s then 1 else 0)
    (n := n - if M.armed w.isPatched s then 1 else 0)
  rw [Nat.add_sub_cancel' hle] at hrun
  have harmed := hstop.armed
  rw [hrun] at harmed ⊢
  rw [h.continueExecution_eq hstep]
  refine h₁.resume_reports hk hfree (fun i hi => ?_) harmed
  rw [← Traps.Machine.run_add]
  exact hgoes _ (by omega)

/-- The state of the machine does not depend on what was told. -/
theorem Tracing.told (h : Tracing M w s) (out : List Report) : Tracing M { w with out := out } s :=
  ⟨h.ready.imp fun _ hready => hready.elsewhere rfl, h.active, h.signal, h.hosted.congr rfl rfl rfl
    le_rfl h.hosted.alive, h.patches, h.stopped, h.regs, h.memory.congr rfl rfl rfl, h.loaded⟩

variable (syms) in
/-- Where libdwfl answers for the address, `continue` stops there. -/
theorem Tracing.continue_stops (hk : k.Runs M E) (h : Tracing M w s)
    (hstop : M.Stops w.isPatched s n) (hgoes : ∀ i < n, E.status (M.run i s) = none)
    (hshown : syms.hasDwarf = true → w.dwfl.Answers (M.pc (M.run n s).1)) :
    ∃ t out, continueExecution k syms w = .ok { w with tracee := t, out := out } ∧
      Tracing M { w with tracee := t, out := out } (M.run n s) := by
  obtain ⟨t, out, ht, hcont⟩ := h.continue_reports syms hk hstop hgoes
  obtain ⟨w', hprint⟩ := printSourceAtCurrentPc_ok (w := { w with tracee := t, out := out }) hshown
  refine ⟨t, w'.out, ?_, ht.told w'.out⟩
  rw [hcont, hprint, printSourceAtCurrentPc_eq hprint]

variable (syms) in
/-- Without an arrival at a patched address, and without an end, `continue` does not return. -/
theorem Tracing.continue_never (hk : k.Runs M E) (h : Tracing M w s)
    (hnever : ∀ n, ¬M.Stops w.isPatched s n) (hgoes : ∀ n, E.status (M.run n s) = none) :
    ∃ w', continueExecution k syms w = .error (.blocked, w') := by
  obtain ⟨t, hstep, h₁⟩ := h.stepOver syms hk.toSteps fun _ => hgoes 0
  set j := if M.armed w.isPatched s then 1 else 0 with hj
  rw [h.continueExecution_eq hstep]
  have hfree : ∀ i, M.armed w.isPatched (M.run i (M.run j s)) = false := by
    intro i
    rw [← Traps.Machine.run_add]
    rcases Nat.eq_zero_or_pos (j + i) with h0 | hpos
    · rw [h0]
      obtain ⟨hj0, -⟩ := Nat.add_eq_zero_iff.mp h0
      rw [hj] at hj0
      split_ifs at hj0 with harmed
      simpa using harmed
    · exact Traps.Machine.armed_of_never hnever hpos
  have hresume : t.resume k w.pid (.cont 0) = { t.logged (.resume w.pid (.cont 0)) with
      task := .running (.cont 0) } := Tracee.resume_of_inStop h₁.inStop
  have hwait := hk.forever (t.resume k w.pid (.cont 0)) (by rw [hresume]) (by
    rw [hresume]
    show ∀ n, ¬M.AtTrap (M.run n (t.regs, t.mem))
    rw [show (t.regs, t.mem) = M.patchState w.isPatched (M.run j s) from h₁.state hk.toSteps]
    exact Traps.Machine.never_atTrap_patchState h.patches h₁.loaded hfree) fun n => by
    rw [hresume]
    show E.status (M.run n (t.regs, t.mem)) = none
    rw [show (t.regs, t.mem) = M.patchState w.isPatched (M.run j s) from h₁.state hk.toSteps]
    have hsame : E.status (M.run n (M.patchState w.isPatched (M.run j s))) =
      E.status (M.run n (M.run j s)) := h₁.status_run fun i _ => hfree i
    rw [hsame, ← Traps.Machine.run_add]
    exact hgoes _
  exact ⟨_, waitForSignal_never (Tracee.waitpid_of_never
    (Tracee.alive_resume.trans h₁.hosted.alive) hwait)⟩

/-- So many `continue` commands. -/
theorem session_continue (h : Tracing M w s) {m : ℕ} :
    session k syms w (List.replicate (m + 1) .continue) = .ok w' ↔
      ∃ w₁, continueExecution k syms w = .ok w₁ ∧
        session k syms w₁ (List.replicate m .continue) = .ok w' := by
  have hcommand : handleCommand k syms w .continue = continueExecution k syms w := by
    unfold handleCommand
    rw [if_neg (by simp [Command.requires, h.active]), if_neg (by simp [Command.requires])]
    rfl
  unfold session
  rw [List.replicate_succ, foldlM_cons_eq_ok, hcommand]

variable (syms) in
/-- Several `continue` commands, by induction on their number. -/
theorem Tracing.continues (hk : k.Executes M) {m : ℕ} (h : Tracing M w s)
    (hlines : ∀ a, w.isPatched a = true → w.dwfl.Answers a) :
    (∀ n, m ≤ M.arrivals w.isPatched s n →
      ∃ w', session k syms w (List.replicate m .continue) = .ok w') ∧
    ∀ w', session k syms w (List.replicate m .continue) = .ok w' →
      ∃ n, w' = { w with tracee := w'.tracee, out := w'.out } ∧ Tracing M w' (M.run n s) ∧
        M.arrivals w.isPatched s n = m ∧
        (m = 0 ∧ n = 0 ∨ M.armed w.isPatched (M.run n s) = true) := by
  induction m generalizing w s with
  | zero =>
    refine ⟨fun _ _ => ⟨w, rfl⟩, fun w' hok => ?_⟩
    cases hok
    exact ⟨0, rfl, h, rfl, .inl ⟨rfl, rfl⟩⟩
  | succ m ih =>
    constructor
    · intro n hn
      obtain ⟨n₁, hle, hstop⟩ := Traps.Machine.exists_stops ((Nat.succ_pos m).trans_le hn)
      obtain ⟨t, out, hok, h₁⟩ := h.continue_stops syms hk.runs hstop (fun _ _ => rfl) fun _ =>
        hlines _ hstop.armed
      rw [hstop.arrivals_sub hle] at hn
      obtain ⟨w', hrest⟩ := (ih h₁ hlines).1 (n - n₁)
        (show m ≤ M.arrivals w.isPatched (M.run n₁ s) (n - n₁) by omega)
      exact ⟨w', (session_continue h).mpr ⟨_, hok, hrest⟩⟩
    · intro w' hok
      obtain ⟨w₁, h1, hrest⟩ := (session_continue h).mp hok
      by_cases hex : ∃ n, M.Stops w.isPatched s n
      · obtain ⟨n₁, hstop⟩ := hex
        obtain ⟨t, out, hok₁, h₁⟩ := h.continue_stops syms hk.runs hstop (fun _ _ => rfl) fun _ =>
        hlines _ hstop.armed
        obtain rfl := Except.ok.inj (hok₁.symm.trans h1)
        obtain ⟨n₂, hw', htracing, hcount, harmed⟩ := (ih h₁ hlines).2 w' hrest
        rw [← Traps.Machine.run_add] at htracing harmed
        refine ⟨n₁ + n₂, hw', htracing, ?_, .inr ?_⟩
        · rw [Traps.Machine.arrivals_add, hstop.arrivals_eq, Nat.add_comm]
          exact congrArg (· + 1) hcount
        · rcases harmed with ⟨-, rfl⟩ | harmed
          · exact hstop.armed
          · exact harmed
      · push Not at hex
        obtain ⟨w₂, hnever⟩ := h.continue_never syms hk.runs hex fun _ => rfl
        rw [hnever] at h1
        cases h1

/-- **`continue` stops exactly where it should.** It executes at least the instruction at the pc and
stops at the first arrival at a patched address, in the state the plain machine has there; so many
of them return exactly when there are so many arrivals, and stop at the last of these. -/
theorem continue_arrives (hk : k.Executes M) (h : Tracing M w s)
    (hlines : ∀ a, w.isPatched a = true → w.dwfl.Answers a) :
    (∀ n, M.Stops w.isPatched s n → ∃ w', continueExecution k syms w = .ok w' ∧
      w' = { w with tracee := w'.tracee, out := w'.out } ∧ Tracing M w' (M.run n s)) ∧
    ∀ m, ((∃ w', session k syms w (List.replicate m .continue) = .ok w') ↔
        ∃ n, m ≤ M.arrivals w.isPatched s n) ∧
      ∀ w', session k syms w (List.replicate m .continue) = .ok w' →
        ∃ n, w' = { w with tracee := w'.tracee, out := w'.out } ∧ Tracing M w' (M.run n s) ∧
          M.arrivals w.isPatched s n = m ∧ (0 < m → M.armed w.isPatched (M.run n s) = true) := by
  constructor
  · intro n hstop
    obtain ⟨t, out, hok, h₁⟩ := h.continue_stops syms hk.runs hstop (fun _ _ => rfl) fun _ =>
        hlines _ hstop.armed
    exact ⟨_, hok, rfl, h₁⟩
  · intro m
    obtain ⟨hreturns, hfinds⟩ := h.continues syms (m := m) hk hlines
    constructor
    · constructor
      · rintro ⟨w', hok⟩
        obtain ⟨n, -, -, hcount, -⟩ := hfinds w' hok
        exact ⟨n, hcount.ge⟩
      · rintro ⟨n, hn⟩
        exact hreturns n hn
    · intro w' hok
      obtain ⟨n, hw', htracing, hcount, harmed⟩ := hfinds w' hok
      refine ⟨n, hw', htracing, hcount, fun hpos => harmed.resolve_left ?_⟩
      rintro ⟨hm, -⟩
      omega

/-! ## A program of two instructions -/

/-- A breakpoint on an address without a location. -/
theorem setBreakpointOfKind_transparent {orig : Memory} {kind : BpKind} (hk : k.Accessible)
    (h : Hosted w) (ht : Transparent w orig) (hact : w.state = .active)
    (hnone : mapLookup w.bpLocations (a + w.loadAddress) = none)
    (hok : setBreakpointOfKind k w kind a = .ok w') : Hosted w' ∧ Transparent w' orig := by
  rw [setBreakpointOfKind_eq (setBreakpointOfKind_counter hok)] at hok
  refine createLocation_transparent (w := w.adopt kind a) (b := w.nextPtr)
    (a := a + w.loadAddress) hk (h.congr rfl rfl rfl (Nat.le_succ _) h.alive)
    (ht.congr rfl rfl rfl) ?_
  unfold addAndSetBpForRunningTracee at hok
  rw [if_neg (by rw [show (w.adopt kind a).state = .active from hact]; decide)] at hok
  have hnone' : mapLookup (w.adopt kind a).bpLocations (a + w.loadAddress) = none := hnone
  unfold createLocation
  rw [hnone']
  have hnone'' : mapLookup (w.adopt kind a).bpLocations (a + (w.adopt kind a).loadAddress) = none :=
    hnone
  dsimp only at hok
  rw [hnone''] at hok
  exact hok

/-- The first breakpoint of a process without patches is the only one that is patched. -/
theorem setBreakpointOfKind_isPatched {kind : BpKind} (h : Ready w []) (hact : w.state = .active)
    (hnone : ∀ x, w.isPatched x = false) (hok : setBreakpointOfKind k w kind a = .ok w') {x : Addr}
    (hx : w'.isPatched x = true) : x = a + w.loadAddress := by
  have hedit := setBreakpointOfKind_edited h hok
  have htable := congrFun (congrArg Table.patched (hedit.table hact)) (x - w.loadAddress)
  have hback : x - w.loadAddress + w.loadAddress = x := BitVec.sub_add_cancel ..
  change w'.isPatched (x - w.loadAddress + w'.loadAddress) = _ at htable
  rw [hedit.loadAddress, hback, hx, Table.edit_of_addr rfl] at htable
  by_contra hne
  have hne' : x - w.loadAddress ≠ a := fun he => hne (by rw [← he, hback])
  dsimp only at htable
  rw [Function.update_of_ne hne'] at htable
  change true = w.isPatched (x - w.loadAddress + w.loadAddress) at htable
  rw [hnone] at htable
  cases htable

/-- Two instructions, `inc rax` at `0x401000` and a jump back to it. -/
def incLoop : Cpu where
  pc regs := regs .rip
  trap := 0xcc
  text a := a = 0x401000 ∨ a = 0x401001
  code _ := 0x90
  starts a := a = 0x401000 ∨ a = 0x401001
  starts_text _ h := h
  no_trap _ _ := by decide
  exec s :=
    if s.1 .rip = 0x401000 then
      (Function.update (Function.update s.1 .rax (s.1 .rax + 1)) .rip 0x401001, s.2)
    else (Function.update s.1 .rip 0x401000, s.2)
  loaded_exec s h := by
    split_ifs
    · exact ⟨h.code, .inr (by simp)⟩
    · exact ⟨h.code, .inl (by simp)⟩
  exec_other s m' _ _ := by
    split_ifs
    · exact ⟨rfl, fun a => ⟨id, fun _ => rfl⟩⟩
    · exact ⟨rfl, fun a => ⟨id, fun _ => rfl⟩⟩

open Classical in
/-- A kernel for the processes of a machine. -/
noncomputable def Kernel.executing (M : Cpu) : Kernel where
  image _ := (fun _ => 0, M.code)
  wait t :=
    match t.task with
    | .running .singlestep => .reports (.stopped ⟨SIGTRAP, TRAP_TRACE⟩) (M.exec (t.regs, t.mem)).1
        (M.exec (t.regs, t.mem)).2
    | .running (.cont _) =>
      if h : ∃ n, M.RunsTo (t.regs, t.mem) n then
        .reports (.stopped ⟨SIGTRAP, SI_KERNEL⟩)
          (Function.update (M.run h.choose (t.regs, t.mem)).1 .rip
            (M.pc (M.run h.choose (t.regs, t.mem)).1 + 1))
          (M.run h.choose (t.regs, t.mem)).2
      else .never
    | _ => .never
  peekOk _ _ := true
  pokeOk _ _ := true
  unseenStop _ := false
  junkRegs _ := fun _ => 0
  setRegs _ regs := regs
  setRegs_plain _ _ _ := rfl
  mapsBase _ := some 0
  report _ := some Dwfl.empty

theorem Kernel.executing_accessible (M : Cpu) : (Kernel.executing M).Accessible :=
  ⟨fun _ _ => rfl, fun _ _ => rfl⟩

theorem Kernel.executing_executes {M : Cpu} (hpc : ∀ regs, M.pc regs = regs .rip)
    (htrap : M.trap = 0xcc) : (Kernel.executing M).Executes M := by
  refine ⟨Kernel.executing_accessible M, hpc, htrap, fun t ht _ => ?_, fun t n ht hn => ?_,
    fun t ht hnever => ?_⟩
  · simp only [Kernel.executing, ht]
  · have hex : ∃ n, M.RunsTo (t.regs, t.mem) n := ⟨n, hn⟩
    simp only [Kernel.executing, ht, dif_pos hex, hex.choose_spec.unique hn]
  · have hnone : ¬∃ n, M.RunsTo (t.regs, t.mem) n := by
      rintro ⟨n, hn⟩
      exact hnever n hn.2
    simp only [Kernel.executing, ht, dif_neg hnone]

/-- A process in a stop, without breakpoints. -/
def World.stoppedAt (regs : Regs) (mem : Memory) (dwfl : Dwfl) : World := { dbgInit with
  pid := 1, state := .active, bpLocations := mapInit MAP_SIZE true, dwfl := dwfl
  tracee := ⟨1, .stopped, regs, mem, []⟩ }

section StoppedAt

variable (regs : Regs) (mem : Memory) (dwfl : Dwfl)

theorem World.stoppedAt_unregistered (a : Addr) :
    mapLookup (World.stoppedAt regs mem dwfl).bpLocations a = none := by
  obtain ⟨ht, hinit, -, hnone⟩ := mapInit_mapSize LocPtr
  rw [show (World.stoppedAt regs mem dwfl).bpLocations = some ht from hinit, hnone]

theorem World.stoppedAt_isPatched (a : Addr) :
    (World.stoppedAt regs mem dwfl).isPatched a = false :=
  World.isPatched_absent (World.stoppedAt_unregistered regs mem dwfl a)

theorem World.stoppedAt_ready : Ready (.stoppedAt regs mem dwfl) [] ∧
    Hosted (.stoppedAt regs mem dwfl) ∧ Transparent (.stoppedAt regs mem dwfl) mem := by
  obtain ⟨hb, hbinit, hbcf, hbnone⟩ := mapInit_mapSize BpPtr
  obtain ⟨hl, hlinit, hlcf, hlnone⟩ := mapInit_mapSize LocPtr
  have htable : (World.stoppedAt regs mem dwfl).bpLocations = some hl := hlinit
  refine ⟨ready_of_empty (fun _ => rfl) (fun _ => rfl) rfl hbinit hbcf hbnone (fun ht he => ?_)
    (fun a => by rw [htable, hlnone]) (iff_of_true rfl (by rw [htable]; rfl)),
    transparent_of_no_location (w := .stoppedAt regs mem dwfl) (fun _ => rfl) hlinit hlcf hlnone
      rfl⟩
  rw [htable] at he
  rw [← Option.some.inj he, hlcf]

/-- The process is in the state of the machine. -/
theorem World.stoppedAt_tracing {regs mem} (h : M.Loaded (regs, mem)) :
    Tracing M (.stoppedAt regs mem dwfl) (regs, mem) := by
  obtain ⟨hready, hhosted, htransparent⟩ := World.stoppedAt_ready regs mem dwfl
  refine ⟨⟨[], hready⟩, rfl, rfl, hhosted, fun a ha => ?_, rfl, rfl, htransparent, h⟩
  rw [World.stoppedAt_isPatched] at ha
  cases ha

end StoppedAt

/-- The program in a stop at its first instruction, without breakpoints. -/
def incLoopStopped : World := { dbgInit with
  pid := 1, state := .active, bpLocations := mapInit MAP_SIZE true
  dwfl := { Dwfl.empty with addrmodule := fun _ => true }
  tracee := ⟨1, .stopped, fun r => if r = .rip then 0x401000 else 0, fun _ => 0x90, []⟩ }

theorem incLoopStopped_ready : Ready incLoopStopped [] ∧ Hosted incLoopStopped ∧
    Transparent incLoopStopped fun _ => 0x90 :=
  World.stoppedAt_ready _ _ _

/-- A breakpoint on the jump of the loop. -/
theorem incLoop_tracing : ∃ w, setBreakpointOfKind (.executing incLoop) incLoopStopped .addr 0x401001
      = .ok w ∧ Tracing incLoop w (w.tracee.regs, fun _ => 0x90) ∧
    ∀ a, w.isPatched a = true → w.dwfl.Answers a := by
  obtain ⟨hready, hhosted, htransparent⟩ := incLoopStopped_ready
  have hexec := Kernel.executing_executes (M := incLoop) (fun _ => rfl) rfl
  obtain ⟨w, hok, hp⟩ := exists_of_any (p := fun w => (w.pendingSignal = 0 ∧
      w.tracee.task = .stopped) ∧ w.tracee.regs .rip = 0x401000 ∧
      w.dwfl.addrmodule 0x401001 = true ∧ w.dwfl.getsrc 0x401001 = none)
    (x := setBreakpointOfKind (.executing incLoop) incLoopStopped .addr 0x401001)
    (by decide +kernel)
  obtain ⟨⟨hsignal, hstopped⟩, hrip, hmodule, hsrc⟩ := of_decide_eq_true hp
  have hnone : ∀ a, mapLookup incLoopStopped.bpLocations a = none :=
    World.stoppedAt_unregistered _ _ _
  obtain ⟨hh, htr⟩ := setBreakpointOfKind_transparent hexec.accessible hhosted htransparent rfl
    (hnone _) hok
  have hedit := setBreakpointOfKind_edited hready hok
  -- the address of the breakpoint is the only one that is patched
  have hpatched : ∀ a, w.isPatched a = true → a = 0x401001 := fun a ha =>
    setBreakpointOfKind_isPatched hready rfl (fun x => World.isPatched_absent (hnone x)) hok ha
  refine ⟨w, hok, ⟨⟨[], hedit.ready⟩, hedit.state, hsignal, hh, fun a ha => .inr (hpatched a ha),
    hstopped, rfl, htr, ⟨fun _ _ => rfl, .inl hrip⟩⟩, fun a ha => ?_⟩
  rw [hpatched a ha]
  exact ⟨hmodule, fun src he => by rw [hsrc] at he; cases he⟩

/-- The loop stops at its jump each time. -/
theorem continue_arrives_incLoop : ∃ w s, Tracing incLoop w s ∧
    (∀ n, incLoop.Stops w.isPatched s n → ∃ w', continueExecution (.executing incLoop) .stripped w
      = .ok w' ∧ w' = { w with tracee := w'.tracee, out := w'.out } ∧
      Tracing incLoop w' (incLoop.run n s)) ∧
    ∀ m, ((∃ w', session (.executing incLoop) .stripped w (List.replicate m .continue) = .ok w') ↔
        ∃ n, m ≤ incLoop.arrivals w.isPatched s n) ∧
      ∀ w', session (.executing incLoop) .stripped w (List.replicate m .continue) = .ok w' →
        ∃ n, w' = { w with tracee := w'.tracee, out := w'.out } ∧
          Tracing incLoop w' (incLoop.run n s) ∧ incLoop.arrivals w.isPatched s n = m ∧
          (0 < m → incLoop.armed w.isPatched (incLoop.run n s) = true) := by
  obtain ⟨w, -, htracing, hlines⟩ := incLoop_tracing
  exact ⟨w, _, htracing, continue_arrives (Kernel.executing_executes (fun _ => rfl) rfl) htracing
    hlines⟩

end Tracing

end Vdbg
