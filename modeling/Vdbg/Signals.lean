import Vdbg.BreakpointSpec
import Vdbg.Stepping

/-!
# What a stop does to the debugger

`wait_for_signal` tells the user of a stop, rewinds the pc past a breakpoint, keeps a fatal signal
for the next resume, and resumes the tracee itself after a signal it does not tell of. Nothing else
of the debugger changes in a stop (`dispatchStop_eq`). `waitForSignal_cases` is all a call can do.
-/

namespace Vdbg

open FaultRun

variable {k : Kernel} {syms : Symbols} {w w' : World}

/-! ## Resumes -/

namespace Tracee

variable {t t' : Tracee} {pid : Pid} {req : Resume}

@[simp] theorem resume_mem : (t.resume k pid req).mem = t.mem := by
  unfold resume
  split_ifs <;> rfl

@[simp] theorem resume_regs : (t.resume k pid req).regs = t.regs := by
  unfold resume
  split_ifs <;> rfl

@[simp] theorem resume_pid : (t.resume k pid req).pid = t.pid := by
  unfold resume
  split_ifs <;> rfl

theorem alive_of_inStop (h : t.inStop k pid = true) : t.alive pid = true := by
  unfold inStop at h
  unfold alive
  rw [Bool.and_eq_true] at h ⊢
  refine ⟨h.1, ?_⟩
  rcases htask : t.task with - | req | -
  · rfl
  · rfl
  · rw [htask] at h
    cases h.2

/-- Only a living process is resumed. -/
@[simp] theorem alive_resume : (t.resume k pid req).alive pid = t.alive pid := by
  unfold resume
  split_ifs with h
  · rw [alive_of_inStop h]
    unfold inStop at h
    rw [Bool.and_eq_true] at h
    simp [alive, logged, of_decide_eq_true h.1]
  · rfl

theorem inStop_of_stopped (ha : t.alive pid = true) (h : t.task = .stopped) :
    t.inStop k pid = true := by
  unfold alive at ha
  rw [Bool.and_eq_true] at ha
  unfold inStop
  rw [ha.1, h]
  rfl

/-- A process in a stop is resumed. -/
theorem resume_of_inStop (h : t.inStop k pid = true) :
    t.resume k pid req = { t.logged (.resume pid req) with task := .running req } := if_pos h

/-- The status of a living process. -/
theorem waitpid_of_reports {status : WaitStatus} {regs : Regs} {mem : Words.Memory}
    (ha : t.alive pid = true) (h : k.wait t = .reports status regs mem) :
    t.waitpid k pid = some (some status, { t.logged (.wait pid (some status)) with
      task := status.task, regs, mem }) := by
  unfold waitpid
  rw [if_pos ha, h]

theorem waitpid_of_never {pid : Pid} (ha : t.alive pid = true) (h : k.wait t = .never) :
    t.waitpid k pid = none := by
  unfold waitpid
  rw [if_pos ha, h]

/-- A call of `waitpid` that fails leaves the process as it was. -/
theorem waitpid_fails (h : t.waitpid k pid = some (none, t')) :
    t' = t.logged (.wait pid none) ∧ (t.alive pid = true → k.wait t = .fails) := by
  unfold waitpid at h
  split_ifs at h with halive
  · split at h <;> cases h
    exact ⟨rfl, fun _ => ‹_›⟩
  · cases h
    exact ⟨rfl, fun ha => absurd ha halive⟩

end Tracee

/-! ## Reports -/

theorem printSource_eq {file : String} {line context : ℕ}
    (h : printSource w file line context = .ok w') : w' = { w with out := w'.out } := by
  unfold printSource at h
  split_ifs at h
  cases h
  rfl

theorem printSrcFileOutdatedWarning_eq (w : World) (outdated : Bool) :
    printSrcFileOutdatedWarning w outdated =
      { w with out := (printSrcFileOutdatedWarning w outdated).out } := by
  unfold printSrcFileOutdatedWarning
  split_ifs <;> rfl

theorem printSourceAtCurrentPc_eq {pc : Addr} {n : ℕ}
    (h : printSourceAtCurrentPc syms w pc n = .ok w') : w' = { w with out := w'.out } := by
  unfold printSourceAtCurrentPc at h
  split_ifs at h with hd
  · cases h; rfl
  · obtain ⟨r, -, h⟩ := bind_eq_ok.mp h
    rcases r with - | ⟨file, src⟩
    · cases h; rfl
    · dsimp only at h
      split_ifs at h with hline
      · cases h; rfl
      · rw [printSource_eq h, printSrcFileOutdatedWarning_eq]

theorem printBpHitMessageAtLoc_eq {p : Option LocPtr} (h : printBpHitMessageAtLoc w p = .ok w') :
    w' = { w with out := w'.out } := by
  unfold printBpHitMessageAtLoc at h
  rcases p with - | p
  · cases h
  · obtain ⟨loc, -, h⟩ := bind_eq_ok.mp h
    split_ifs at h with ht
    · cases h; rfl
    · obtain ⟨⟨got, sym, line⟩, -, h⟩ := bind_eq_ok.mp h
      rcases got with - | ⟨b, bp⟩
      · cases h
      · cases h; rfl

/-! ## Stops -/

/-- A stop at a breakpoint that was executed. -/
def SigInfo.isHit (info : SigInfo) : Bool :=
  info.signo = SIGTRAP && info.code ≠ 0 && (info.code = SI_KERNEL || info.code = TRAP_BRKPT)

/-- A stop the debugger resumes from by itself. -/
def SigInfo.isSilent (info : SigInfo) : Bool := info.signo ∈ silentSignals

/-- A stop with a signal that is kept for the next resume. -/
def SigInfo.isFatal (info : SigInfo) : Bool := info.signo = SIGSEGV || info.signo = SIGABRT

/-- The tracee after `wait_for_signal` saw a stop. -/
def Tracee.afterStop (k : Kernel) (t : Tracee) (pid : Pid) (info : SigInfo) : Tracee :=
  if info.isHit then setPc k t pid (getPc k t pid - 1)
  else if info.isSilent then t.resume k pid (.cont info.signo)
  else t

theorem Tracee.afterStop_mem (t : Tracee) (pid : Pid) (info : SigInfo) :
    (t.afterStop k pid info).mem = t.mem := by
  unfold afterStop setPc setRegisterValue
  split_ifs <;> first | rfl | exact resume_mem

theorem Tracee.alive_afterStop (t : Tracee) (pid : Pid) (info : SigInfo) :
    (t.afterStop k pid info).alive pid = t.alive pid := by
  unfold afterStop setPc setRegisterValue
  split_ifs <;> first | rfl | exact alive_resume

theorem SigInfo.isSilent_of_trap {info : SigInfo} (h : info.signo = SIGTRAP) :
    info.isSilent = false := by
  rw [isSilent, h]; decide

theorem SigInfo.isFatal_of_silent {info : SigInfo} (h : info.isSilent = true) :
    info.isFatal = false := by
  unfold isSilent silentSignals at h
  unfold isFatal
  simp only [List.mem_cons, List.not_mem_nil, or_false, decide_eq_true_eq] at h
  rcases h with h | h | h | h <;> rw [h] <;> decide

theorem SigInfo.isHit_of_not_trap {info : SigInfo} (h : info.signo ≠ SIGTRAP) :
    info.isHit = false := by
  simp [isHit, h]

theorem handleSigtrap_eq {info : SigInfo} (hsig : info.signo = SIGTRAP)
    (h : handleSigtrap k syms w info = .ok w') :
    w' = { w with tracee := w.tracee.afterStop k w.pid info, out := w'.out } := by
  have hsilent := SigInfo.isSilent_of_trap hsig
  unfold handleSigtrap at h
  split_ifs at h with h0 hbp htrace
  · have hhit : info.isHit = false := by simp [SigInfo.isHit, h0]
    rw [Tracee.afterStop, hhit, hsilent]
    cases h; rfl
  · have hhit : info.isHit = true := by simp [SigInfo.isHit, hsig, h0, hbp]
    rw [Tracee.afterStop, hhit]
    obtain ⟨w₁, h1, h⟩ := bind_eq_ok.mp h
    rw [printSourceAtCurrentPc_eq h, printBpHitMessageAtLoc_eq h1]
    rfl
  all_goals
    have hhit : info.isHit = false := by simp [SigInfo.isHit, not_or.mp hbp]
    rw [Tracee.afterStop, hhit, hsilent]
    cases h; rfl

/-- What `wait_for_signal` does about a stop. -/
theorem dispatchStop_eq {info : SigInfo} (h : dispatchStop k syms w info = .ok w') :
    w' = { w with
      tracee := w.tracee.afterStop k w.pid info
      pendingSignal := if info.isFatal then info.signo else w.pendingSignal
      out := w'.out } := by
  unfold dispatchStop at h
  split_ifs at h with htrap hsegv habrt hsilent
  · have hfatal : info.isFatal = false := by rw [SigInfo.isFatal, htrap]; decide
    rw [hfatal, handleSigtrap_eq htrap h]
    rfl
  · have hhit := SigInfo.isHit_of_not_trap htrap
    have hsilent : info.isSilent = false := by rw [SigInfo.isSilent, hsegv]; decide
    have hfatal : info.isFatal = true := by rw [SigInfo.isFatal, hsegv]; decide
    rw [Tracee.afterStop, hhit, hsilent, hfatal]
    obtain ⟨w₁, h1, h⟩ := bind_eq_ok.mp h
    cases h
    rw [printSourceAtCurrentPc_eq h1]
    rfl
  · have hhit := SigInfo.isHit_of_not_trap htrap
    have hsilent : info.isSilent = false := by rw [SigInfo.isSilent, habrt]; decide
    have hfatal : info.isFatal = true := by rw [SigInfo.isFatal, habrt]; decide
    rw [Tracee.afterStop, hhit, hsilent, hfatal]
    cases h; rfl
  · have hhit := SigInfo.isHit_of_not_trap htrap
    have hs : info.isSilent = true := decide_eq_true hsilent
    have hfatal : info.isFatal = false := by simp [SigInfo.isFatal, hsegv, habrt]
    rw [Tracee.afterStop, hhit, hs, hfatal]
    cases h; rfl
  · have hhit := SigInfo.isHit_of_not_trap htrap
    have hs : info.isSilent = false := decide_eq_false hsilent
    have hfatal : info.isFatal = false := by simp [SigInfo.isFatal, hsegv, habrt]
    rw [Tracee.afterStop, hhit, hs, hfatal]
    cases h; rfl

theorem waitForSignal_stopped {info : SigInfo} {t : Tracee}
    (h : w.tracee.waitpid k w.pid = some (some (.stopped info), t)) :
    waitForSignal k syms w = dispatchStop k syms (w.setTracee t) info := by
  unfold waitForSignal
  rw [h]

theorem waitForSignal_never (h : w.tracee.waitpid k w.pid = none) :
    waitForSignal k syms w = .error (.blocked, w) := by
  unfold waitForSignal
  rw [h]

/-- What a call of `wait_for_signal` that returns has done: `waitpid` failed, it reported the end of
the process, or it reported a stop. -/
theorem waitForSignal_cases (h : waitForSignal k syms w = .ok w') :
    (∃ t, w.tracee.waitpid k w.pid = some (none, t) ∧ w' = (w.setTracee t).say .waitpidFailed) ∨
    (∃ status t r, w.tracee.waitpid k w.pid = some (some status, t) ∧ status.task = .gone ∧
      cleanupAtTraceeDeath k ((w.setTracee t).say r) = .ok w') ∨
    ∃ info t, w.tracee.waitpid k w.pid = some (some (.stopped info), t) ∧
      w' = { w with
        tracee := t.afterStop k w.pid info
        pendingSignal := if info.isFatal then info.signo else w.pendingSignal
        out := w'.out } := by
  unfold waitForSignal at h
  split at h
  · cases h
  · rename_i t hwait
    cases h
    exact .inl ⟨t, hwait, rfl⟩
  · rename_i code t hwait
    exact .inr (.inl ⟨_, t, _, hwait, rfl, h⟩)
  · rename_i sig t hwait
    exact .inr (.inl ⟨_, t, _, hwait, rfl, h⟩)
  · rename_i info t hwait
    exact .inr (.inr ⟨info, t, hwait, dispatchStop_eq h⟩)

end Vdbg
