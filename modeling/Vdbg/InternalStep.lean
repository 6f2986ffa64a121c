import Vdbg.Lifecycle

/-!
# The internal step of continue

On a patched location `continue_execution` makes a single step with the patch taken away, arms the
location again and then resumes the tracee, whatever the step ended in. That is right only where it
ended in its trap: the location may be gone, and a signal has not been shown to the user before it
is delivered.
-/

namespace Vdbg

open FaultRun

variable {k : Kernel} {syms : Symbols} {w w' : World} {att : List BpPtr}

/-! ## Calls that return or fault -/

theorem faultOf_bind_eq {α β : Type} {x : Res α} {f : α → Res β} {φ : Fault}
    (hx : faultOf x = some φ) : faultOf (x >>= f) = some φ := by
  rcases x with ⟨ψ, w⟩ | a
  · exact hx
  · cases hx

/-- A call that touches neither the tracee nor an object that was freed. -/
structure Tells (w : World) (r : Res World) : Prop where
  live : faultOf r ≠ some .useAfterFree
  tracee : (worldOf r).tracee = w.tracee

theorem Tells.ok (h : w'.tracee = w.tracee) : Tells w (.ok w') := ⟨by simp, h⟩

theorem Tells.bind {r : Res World} {f : World → Res World} (h : Tells w r)
    (hf : ∀ w', r = .ok w' → Tells w' (f w')) : Tells w (r >>= f) := by
  rcases r with ⟨φ, w₁⟩ | w₁
  · exact h
  · exact ⟨(hf w₁ rfl).live, (hf w₁ rfl).tracee.trans h.tracee⟩

theorem printSource_tells {file : String} {line context : ℕ} :
    Tells w (printSource w file line context) := by
  unfold printSource
  split_ifs
  · exact ⟨by simp, rfl⟩
  · exact .ok rfl

theorem printSourceAtCurrentPc_tells {pc : Addr} {n : ℕ} :
    Tells w (printSourceAtCurrentPc syms w pc n) := by
  unfold printSourceAtCurrentPc
  by_cases hdwarf : (!syms.hasDwarf) = true
  · rw [if_pos hdwarf]
    exact .ok rfl
  rw [if_neg hdwarf]
  unfold getLineFromPc
  by_cases hmodule : (!w.dwfl.addrmodule pc) = true
  · rw [if_pos hmodule]
    exact ⟨by simp, rfl⟩
  rw [if_neg hmodule]
  rcases w.dwfl.getsrc pc with - | src
  · exact .ok rfl
  rcases hfile : src.file with - | file
  · dsimp only
    rw [hfile]
    exact ⟨by simp, rfl⟩
  dsimp only
  rw [hfile]
  show Tells w (if src.line = 0 then _ else _)
  by_cases hline : src.line = 0
  · rw [if_pos hline]
    exact .ok rfl
  rw [if_neg hline]
  have htold : Tells _ (printSource (printSrcFileOutdatedWarning w src.outdated) file src.line n) :=
    printSource_tells
  refine ⟨htold.live, htold.tracee.trans ?_⟩
  rw [printSrcFileOutdatedWarning_eq]

/-- The loop over the list of a hit location reads live breakpoints. -/
theorem hitBreakpoints_live {bs : List BpPtr} (hlive : ∀ b ∈ bs, (w.bps b).isSome)
    (got sym line : Option (BpPtr × Breakpoint)) :
    faultOf (hitBreakpoints w got sym line bs) ≠ some .useAfterFree ∧
    ∀ f w', hitBreakpoints w got sym line bs = .error (f, w') → w' = w := by
  induction bs generalizing got sym line with
  | nil => exact ⟨fun he => (by cases he), fun f w' he => (by cases he)⟩
  | cons b bs ih =>
    obtain ⟨bp, hb⟩ := Option.isSome_iff_exists.mp (hlive b List.mem_cons_self)
    have ih' := ih fun b' hb' => hlive b' (List.mem_cons_of_mem _ hb')
    unfold hitBreakpoints
    by_cases hfirst : got.map Prod.fst = some b
    · rw [if_pos hfirst]
      refine ⟨fun he => (by cases he), fun f w' he => ?_⟩
      cases he
      rfl
    rw [if_neg hfirst, World.derefBp_eq hb]
    dsimp only [ok_bind]
    rcases bp.kind with - | name | ⟨file, l⟩
    · exact ih' _ _ _
    · exact ih' _ _ _
    · exact ih' _ _ _

/-- A hit reads a live location, if any. -/
theorem printBpHitMessageAtLoc_tells (h : Attached w att) (a : Addr) :
    Tells w (printBpHitMessageAtLoc w (mapLookup w.bpLocations a)) := by
  rcases hp : mapLookup w.bpLocations a with - | p
  · exact ⟨by simp [printBpHitMessageAtLoc], rfl⟩
  obtain ⟨loc, hloc, -⟩ := h.stored a p hp
  unfold printBpHitMessageAtLoc
  dsimp only
  rw [World.derefLoc_eq hloc, ok_bind]
  by_cases htemp : loc.isTemp = true
  · rw [if_pos htemp]
    exact .ok rfl
  rw [if_neg htemp]
  obtain ⟨hlive, hworld⟩ := hitBreakpoints_live (h.listed_live hloc) none none none
  rcases hhit : hitBreakpoints w none none none loc.bpList with ⟨f, w₁⟩ | ⟨got, sym, line⟩
  · rw [hhit] at hlive
    obtain rfl := hworld f w₁ hhit
    exact ⟨hlive, rfl⟩
  · rw [ok_bind]
    rcases got with - | ⟨b, bp⟩
    · exact ⟨fun he => (by cases he), rfl⟩
    · exact .ok rfl

/-! ## What a wait leaves in the log -/

/-- A call that touches no freed object, and adds these calls to the log. -/
structure Told (w : World) (cs : List Syscall) (r : Res World) : Prop where
  live : faultOf r ≠ some .useAfterFree
  events : (worldOf r).tracee.events = cs ++ w.tracee.events

theorem Tells.told {w₁ : World} {r : Res World} (h : Tells w₁ r)
    (hevents : w₁.tracee.events = w.tracee.events) : Told w [] r :=
  ⟨h.live, by rw [h.tracee, hevents, List.nil_append]⟩

theorem Told.ok (h : w'.tracee = w.tracee) : Told w [] (.ok w') :=
  (Tells.ok (w := w) h).told rfl

/-- A call that touches no freed object, and takes nothing back from the log. -/
structure Logs (w : World) (r : Res World) : Prop where
  live : faultOf r ≠ some .useAfterFree
  events : w.tracee.events <:+ (worldOf r).tracee.events

theorem Told.logs {cs : List Syscall} {r : Res World} (h : Told w cs r) : Logs w r :=
  ⟨h.live, cs, h.events.symm⟩

theorem events_resume (t : Tracee) (pid : Pid) (req : Resume) :
    (t.resume k pid req).events = .resume pid req :: t.events := by
  unfold Tracee.resume
  split_ifs <;> rfl

/-- What the debugger does at once about a stop. -/
def SigInfo.answer (pid : Pid) (info : SigInfo) : List Syscall :=
  if info.isSilent then [.resume pid (.cont info.signo)] else []

theorem SigInfo.answer_eq_nil {info : SigInfo} (h : info.isSilent = false) (pid : Pid) :
    info.answer pid = [] := by
  rw [answer, h]
  rfl

theorem dispatchStop_told (h : Attached w att) (info : SigInfo) :
    Told w (info.answer w.pid) (dispatchStop k syms w info) := by
  unfold dispatchStop
  split_ifs with htrap hsegv habrt hsilent
  · rw [SigInfo.answer_eq_nil (SigInfo.isSilent_of_trap htrap)]
    unfold handleSigtrap
    split_ifs
    · exact .ok rfl
    · set w₁ := w.setTracee (setPc k w.tracee w.pid (getPc k w.tracee w.pid - 1)) with hw₁
      have hevents : w₁.tracee.events = w.tracee.events :=
        (accessed_setRegisterValue w.tracee .rip w.pid _).events
      have htells := (printBpHitMessageAtLoc_tells (w := w₁) (h.setTracee _)
        (getPc k w.tracee w.pid - 1)).bind
        (f := fun w₂ => printSourceAtCurrentPc syms w₂ (getPc k w.tracee w.pid - 1)
          DEFAULT_LINE_CONTEXT) fun _ _ => printSourceAtCurrentPc_tells
      exact htells.told hevents
    · exact .ok rfl
    · exact .ok rfl
  · rw [SigInfo.answer_eq_nil (by rw [SigInfo.isSilent, hsegv]; decide)]
    have htells := (printSourceAtCurrentPc_tells : Tells _ (printSourceAtCurrentPc syms
      (w.say (.segfault info.code)) (getPc k w.tracee w.pid) 3)).bind
      (f := fun w₁ => .ok { w₁ with pendingSignal := info.signo }) fun _ _ => .ok rfl
    exact htells.told rfl
  · rw [SigInfo.answer_eq_nil (by rw [SigInfo.isSilent, habrt]; decide)]
    exact .ok rfl
  · refine ⟨by simp, ?_⟩
    rw [SigInfo.answer, if_pos (show info.isSilent = true from decide_eq_true hsilent)]
    exact events_resume w.tracee w.pid _
  · rw [SigInfo.answer_eq_nil (decide_eq_false hsilent)]
    exact .ok rfl

theorem dispatchStop_silent {info : SigInfo} (h : info.isSilent = true) :
    dispatchStop k syms w info = .ok (w.setTracee (w.tracee.resume k w.pid (.cont info.signo))) := by
  have hmem : info.signo ∈ silentSignals := of_decide_eq_true h
  have hne : ∀ sig, sig ∉ silentSignals → info.signo ≠ sig := by
    rintro sig hsig rfl
    exact hsig hmem
  unfold dispatchStop
  rw [if_neg (hne _ (by decide)), if_neg (hne _ (by decide)), if_neg (hne _ (by decide)),
    if_pos hmem]

/-- The calls `wait_for_signal` makes. -/
def Tracee.waitCalls (k : Kernel) (t : Tracee) (pid : Pid) : List Syscall :=
  match t.waitpid k pid with
  | none => []
  | some (none, _) => [.wait pid none]
  | some (some (.stopped info), _) => info.answer pid ++ [.wait pid (some (.stopped info))]
  | some (some status, _) => [.wait pid (some status)]

/-- The end of a process is told, and no more calls are made about it. -/
theorem cleanup_told (h : Attached w att) {r : Report} (hgone : w.tracee.task = .gone) :
    Told w [] (cleanupAtTraceeDeath k (w.say r)) := by
  obtain ⟨t, hclean, htracee⟩ := cleanupAtTraceeDeath_eq (k := k) ((Quiet.say w r).attached h)
  rw [hclean, htracee hgone]
  exact .ok rfl

/-- A call of `wait_for_signal`, whatever it gets and whether or not it returns. -/
theorem waitForSignal_told (h : Attached w att) :
    Told w (w.tracee.waitCalls k w.pid) (waitForSignal k syms w) := by
  unfold waitForSignal Tracee.waitCalls
  rcases hwait : w.tracee.waitpid k w.pid with - | ⟨- | (code | sig | info), t⟩
  · exact ⟨by simp, rfl⟩
  · refine ⟨by simp, ?_⟩
    obtain ⟨rfl, -⟩ := Tracee.waitpid_fails hwait
    rfl
  all_goals
    obtain ⟨-, regs, mem, -, ht⟩ := Tracee.waitpid_reports hwait
    have hevents : t.events = _ :: w.tracee.events := congrArg Tracee.events ht
    have hatt : Attached (w.setTracee t) att := h.setTracee t
  · have htold := cleanup_told (k := k) (r := .exited code) hatt (congrArg Tracee.task ht)
    exact ⟨htold.live, htold.events.trans hevents⟩
  · have htold := cleanup_told (k := k) (r := .terminated sig) hatt (congrArg Tracee.task ht)
    exact ⟨htold.live, htold.events.trans hevents⟩
  · have htold : Told _ _ (dispatchStop k syms _ info) := dispatchStop_told hatt info
    refine ⟨htold.live, htold.events.trans ?_⟩
    rw [List.append_assoc]
    exact congrArg _ hevents

theorem waitForSignal_logs (h : Attached w att) : Logs w (waitForSignal k syms w) :=
  (waitForSignal_told h).logs

variable (syms) in
/-- The end of the process is buried. -/
theorem waitForSignal_buries {status : WaitStatus} {t : Tracee} (h : Attached w att)
    (hwait : w.tracee.waitpid k w.pid = some (some status, t)) (hgone : status.task = .gone) :
    ∃ (w₁ : World) (t₁ : Tracee), waitForSignal k syms w = .ok ((w₁.bury att).setTracee t₁) := by
  unfold waitForSignal
  rw [hwait]
  rcases status with code | sig | info
  · obtain ⟨t₁, hclean, -⟩ := cleanupAtTraceeDeath_eq (k := k)
      (((Quiet.setTracee w t).trans (.say _ (.exited code))).attached h)
    exact ⟨_, t₁, hclean⟩
  · obtain ⟨t₁, hclean, -⟩ := cleanupAtTraceeDeath_eq (k := k)
      (((Quiet.setTracee w t).trans (.say _ (.terminated sig))).attached h)
    exact ⟨_, t₁, hclean⟩
  · cases hgone

/-! ## The step over a patch -/

/-- The tracee in the internal step, with the patch taken away. -/
def World.stepped (k : Kernel) (w : World) (loc : BpLocation) : Tracee :=
  (disarm k w.tracee loc).2.resume k w.pid .singlestep

def stepTrap : WaitStatus := .stopped ⟨SIGTRAP, TRAP_TRACE⟩

/-- What an internal step ends in: its trap, a fault, a silent signal, or the end of the process. -/
def WaitStatus.endsStep : WaitStatus → Bool
  | .stopped info => .stopped info = stepTrap || info.isFatal || info.isSilent
  | .exited _ | .signaled _ => true

def Syscall.isCont : Syscall → Bool
  | .resume _ (.cont _) => true
  | _ => false

/-- How often `PTRACE_CONT` was issued. -/
def Tracee.conts (t : Tracee) : ℕ := t.events.countP Syscall.isCont

theorem Tracee.conts_le {t t' : Tracee} (h : t.events <:+ t'.events) : t.conts ≤ t'.conts :=
  h.sublist.countP_le

/-- The outcome of `continue_execution` is right for the status its internal step ended in, with
these registers: no freed location is armed, `PTRACE_CONT` follows the trap of the step only, and a
fault is handed to the user with the tracee where it struck and its signal kept. -/
structure SafeStep (w : World) (status : WaitStatus) (regs : Regs) (r : Res World) : Prop where
  live : faultOf r ≠ some .useAfterFree
  resumed : (worldOf r).tracee.conts ≠ w.tracee.conts → status = stepTrap
  handed : ∀ info, status = .stopped info → info.isFatal = true → ∃ w', r = .ok w' ∧
    w'.tracee.task = .stopped ∧ w'.tracee.regs = regs ∧ w'.pendingSignal = info.signo

section Patched

variable {p : LocPtr} {loc : BpLocation} {status : WaitStatus} {regs : Regs} {mem : Words.Memory}

/-- The internal step is a call of `wait_for_signal` and one of `loc_enable`. -/
theorem stepOverBreakpoint_patched (hp : mapLookup w.bpLocations (getPc k w.tracee w.pid) = some p)
    (hloc : w.locs p = some loc) (hpatched : loc.patched = true) :
    stepOverBreakpoint k syms w = waitForSignal k syms
      ((w.setLoc p { loc with patched := false }).setTracee (w.stepped k loc)) >>=
        fun w₂ => locEnable k w₂ p := by
  unfold stepOverBreakpoint executeStepOverLoc
  rw [hp]
  dsimp only
  rw [World.derefLoc_eq hloc, ok_bind, if_pos hpatched, locDisable_eq hloc, disarm_fst]
  rfl

/-- The step makes the process report what the kernel says. -/
theorem stepped_waitpid (hstopped : w.life.Alive)
    (hwait : k.wait (w.stepped k loc) = .reports status regs mem) :
    (w.stepped k loc).waitpid k w.pid = some (some status,
      { (w.stepped k loc).logged (.wait w.pid (some status)) with
        task := status.task, regs, mem }) := by
  refine Tracee.waitpid_of_reports ?_ hwait
  unfold World.stepped
  rw [Tracee.alive_resume]
  have haccess := accessed_disarm (k := k) w.tracee loc
  have halive := w.alive_iff.mpr hstopped
  unfold Tracee.alive at halive ⊢
  rw [haccess.pid, haccess.task]
  exact halive

theorem stepped_conts : (w.stepped k loc).conts = w.tracee.conts := by
  unfold World.stepped Tracee.conts
  rw [events_resume, (accessed_disarm w.tracee loc).events,
    List.countP_cons_of_neg (by simp [Syscall.isCont])]

theorem Attached.stepped (h : Attached w att) (hloc : w.locs p = some loc) :
    Attached ((w.setLoc p { loc with patched := false }).setTracee (w.stepped k loc)) att := by
  have hdisarm := h.disarm (k := k) hloc
  rw [disarm_fst] at hdisarm
  exact hdisarm.setTracee _

variable (syms) in
/-- A tracee that died in the step has no location to arm. -/
theorem stepOverBreakpoint_dies (h : Attached w att)
    (hp : mapLookup w.bpLocations (getPc k w.tracee w.pid) = some p) (hloc : w.locs p = some loc)
    (hpatched : loc.patched = true) (halive : w.life.Alive)
    (hwait : k.wait (w.stepped k loc) = .reports status regs mem) (hgone : status.task = .gone) :
    faultOf (stepOverBreakpoint k syms w) = some .useAfterFree := by
  obtain ⟨w₂, t, hbury⟩ := waitForSignal_buries syms (h.stepped hloc)
    (stepped_waitpid halive hwait) hgone
  rw [stepOverBreakpoint_patched hp hloc hpatched, hbury, ok_bind, locEnable_dead rfl]
  rfl

variable (syms) in
/-- A stop in the step that is dealt with leaves the location to be armed. -/
theorem stepOverBreakpoint_stops {info : SigInfo} {w₂ : World} (h : Attached w att)
    (hp : mapLookup w.bpLocations (getPc k w.tracee w.pid) = some p) (hloc : w.locs p = some loc)
    (hpatched : loc.patched = true) (halive : w.life.Alive)
    (hwait : k.wait (w.stepped k loc) = .reports (.stopped info) regs mem)
    (hstop : dispatchStop k syms ((w.setLoc p { loc with patched := false }).setTracee
      { (w.stepped k loc).logged (.wait w.pid (some (.stopped info))) with
        task := .stopped, regs, mem }) info = .ok w₂) :
    ∃ w₃, stepOverBreakpoint k syms w = .ok w₃ ∧ Attached w₃ att ∧
      w₃.tracee.events = w₂.tracee.events := by
  have hstep : waitForSignal k syms
      ((w.setLoc p { loc with patched := false }).setTracee (w.stepped k loc)) = .ok w₂ := by
    rw [waitForSignal_stopped (stepped_waitpid halive hwait)]
    exact hstop
  have hp₂ : w₂.locs p = some { loc with patched := false } := by
    rw [dispatchStop_eq hstop]
    simp [World.setLoc, World.setTracee]
  have hall : stepOverBreakpoint k syms w = locEnable k w₂ p := by
    rw [stepOverBreakpoint_patched hp hloc hpatched, hstep, ok_bind]
  rw [locEnable_eq hp₂] at hall
  refine ⟨_, hall, (executeStepOverLoc_quiet h hall).attached h, ?_⟩
  exact (accessed_arm w₂.tracee _).events

/-- A step that returns took no `PTRACE_CONT` back. -/
theorem stepOverBreakpoint_conts {w₃ : World} (h : Attached w att)
    (hp : mapLookup w.bpLocations (getPc k w.tracee w.pid) = some p) (hloc : w.locs p = some loc)
    (hpatched : loc.patched = true) (hstep : stepOverBreakpoint k syms w = .ok w₃) :
    w.tracee.conts ≤ w₃.tracee.conts := by
  rw [stepOverBreakpoint_patched hp hloc hpatched] at hstep
  obtain ⟨w₂, hwait, henable⟩ := bind_eq_ok.mp hstep
  have hlogs : Logs _ (waitForSignal k syms _) := waitForSignal_logs (h.stepped (k := k) hloc)
  rw [hwait] at hlogs
  have hevents : w₃.tracee.events = w₂.tracee.events := congrArg Life.events (locEnable_life henable)
  have hconts : (w.stepped k loc).conts = w.tracee.conts := stepped_conts
  rw [← hconts]
  refine Tracee.conts_le ?_
  rw [hevents]
  exact hlogs.events

/-- After the internal step there is no other fault than a signal can cause. -/
theorem continueExecution_after (hact : w.state = .active) {w₃ : World} (h : Attached w₃ att)
    (hstep : stepOverBreakpoint k syms w = .ok w₃) :
    faultOf (continueExecution k syms w) ≠ some .useAfterFree ∧
      w₃.tracee.conts < (worldOf (continueExecution k syms w)).tracee.conts := by
  unfold continueExecution
  rw [if_neg (not_not.mpr hact), hstep, ok_bind]
  have hlogs : Logs _ (waitForSignal k syms (({ w₃ with pendingSignal := 0 } : World).setTracee
      (w₃.tracee.resume k w₃.pid (.cont w₃.pendingSignal)))) := waitForSignal_logs
    (((Quiet.pending w₃ 0).trans (.setTracee _ _)).attached h)
  refine ⟨hlogs.live, lt_of_lt_of_le ?_ (Tracee.conts_le hlogs.events)⟩
  show _ < (w₃.tracee.resume k w₃.pid (.cont w₃.pendingSignal)).conts
  unfold Tracee.conts
  rw [events_resume, List.countP_cons_of_pos (by rfl)]
  exact Nat.lt_succ_self _

end Patched

/-- **The internal step of continue.** On a patched location `continue_execution` is safe for the
status its internal step ends in exactly where that is the trap of the step. -/
theorem continueExecution_safe_iff {ts : List Addr} {p : LocPtr} {loc : BpLocation}
    {status : WaitStatus} {regs : Regs} {mem : Words.Memory} (h : Ready w ts)
    (hact : w.state = .active) (halive : w.life.Alive)
    (hp : mapLookup w.bpLocations (getPc k w.tracee w.pid) = some p) (hloc : w.locs p = some loc)
    (hpatched : loc.patched = true) (hwait : k.wait (w.stepped k loc) = .reports status regs mem)
    (hends : status.endsStep = true) :
    SafeStep w status regs (continueExecution k syms w) ↔ status = stepTrap := by
  have hstate : ¬w.state ≠ .active := not_not.mpr hact
  constructor
  · intro hsafe
    by_contra hne
    have hconts : (worldOf (continueExecution k syms w)).tracee.conts = w.tracee.conts := by
      by_contra hne'
      exact hne (hsafe.resumed hne')
    have hdies : status.task = .gone → False := fun hgone => by
      refine hsafe.live ?_
      unfold continueExecution
      rw [if_neg hstate]
      exact faultOf_bind_eq
        (stepOverBreakpoint_dies syms h.attached hp hloc hpatched halive hwait hgone)
    rcases status with code | sig | info
    · exact hdies rfl
    · exact hdies rfl
    simp only [WaitStatus.endsStep, Bool.or_eq_true, decide_eq_true_eq, hne, false_or] at hends
    rcases hends with hfatal | hsilent
    · -- the signal is passed on before the user can act
      obtain ⟨w', hok, -⟩ := hsafe.handed info rfl hfatal
      obtain ⟨w₃, hstep⟩ : ∃ w₃, stepOverBreakpoint k syms w = .ok w₃ := by
        unfold continueExecution at hok
        rw [if_neg hstate] at hok
        obtain ⟨w₃, hstep, -⟩ := bind_eq_ok.mp hok
        exact ⟨w₃, hstep⟩
      have hmore := (continueExecution_after hact
        ((executeStepOverLoc_quiet h.attached hstep).attached h.attached) hstep).2
      have hle := stepOverBreakpoint_conts h.attached hp hloc hpatched hstep
      omega
    · -- the signal is handed back by `PTRACE_CONT` in the step
      obtain ⟨w₃, hstep, hatt₃, hevents⟩ := stepOverBreakpoint_stops syms h.attached hp
        hloc hpatched halive hwait (dispatchStop_silent hsilent)
      have hmore := (continueExecution_after hact hatt₃ hstep).2
      have hsilent : w₃.tracee.conts = (w.stepped k loc).conts + 1 := by
        unfold Tracee.conts
        rw [hevents]
        show List.countP _ (Tracee.resume k _ _ _).events = _
        rw [events_resume, List.countP_cons_of_pos (by rfl)]
        rfl
      rw [stepped_conts] at hsilent
      omega
  · rintro rfl
    obtain ⟨w₃, hstep, hatt₃, -⟩ := stepOverBreakpoint_stops syms h.attached hp hloc
      hpatched halive hwait rfl
    refine ⟨(continueExecution_after hact hatt₃ hstep).1, fun _ => rfl, fun info he hfatal => ?_⟩
    obtain rfl := WaitStatus.stopped.inj he
    exact absurd hfatal (by decide)

/-- What `waitpid` gets is what the kernel reports. -/
theorem Tracee.waitResult_got {t : Tracee} {pid : Pid} {status : WaitStatus}
    (h : t.waitResult k pid = some (.got status)) :
    ∃ regs mem, k.wait t = .reports status regs mem := by
  unfold Tracee.waitResult at h
  split_ifs at h
  · split at h <;> cases h
    exact ⟨_, _, ‹_›⟩
  · cases h

/-- A process that stops at `0x401000`, is stepped over the patch and stops again. -/
def hitting (last : WaitStatus) : Kernel :=
  .scripted (fun r => if r = .rip then 0x401001 else 0)
    [.stopped ⟨SIGTRAP, 0⟩, .stopped ⟨SIGTRAP, SI_KERNEL⟩, last, .stopped ⟨SIGABRT, 0⟩]

theorem continueExecution_safe_iff_trap : ∃ w regs, w.state = .active ∧
    (SafeStep w stepTrap regs (continueExecution (hitting stepTrap) .stripped w) ↔
      stepTrap = stepTrap) := by
  obtain ⟨w, hw, hp⟩ := exists_of_any
    (p := fun w => w.state = .active && w.life.Alive &&
      ((mapLookup w.bpLocations (getPc (hitting stepTrap) w.tracee w.pid)).bind w.locs).any
        fun loc => loc.patched &&
          (w.stepped (hitting stepTrap) loc).waitResult (hitting stepTrap) w.pid =
            some (.got stepTrap))
    (x := session (hitting stepTrap) .stripped dbgInit [.break [.addr 0x401000], .run true])
    (by decide +kernel)
  simp only [Bool.and_eq_true, decide_eq_true_eq, Option.any_eq_true, Option.bind_eq_some_iff] at hp
  obtain ⟨⟨hact, halive⟩, loc, ⟨p, hreg, hloc⟩, hpatched, hresult⟩ := hp
  obtain ⟨regs, mem, hwait⟩ := Tracee.waitResult_got hresult
  exact ⟨w, regs, hact, continueExecution_safe_iff (session_ready dbgInit_ready hw) hact halive hreg
    hloc hpatched hwait (by decide)⟩

/-- A process that exits in the internal step: its location is armed although it was freed. -/
theorem exit_in_step_unsafe : ∃ w, session (hitting (.exited 0)) .stripped dbgInit
      [.break [.addr 0x401000], .run true] = .ok w ∧
    ∀ regs, ¬SafeStep w (.exited 0) regs
      (continueExecution (hitting (.exited 0)) .stripped w) := by
  obtain ⟨w, hw, hp⟩ := exists_of_any
    (p := fun w => faultOf (continueExecution (hitting (.exited 0)) .stripped w) =
      some .useAfterFree)
    (x := session (hitting (.exited 0)) .stripped dbgInit [.break [.addr 0x401000], .run true])
    (by decide +kernel)
  exact ⟨w, hw, fun regs h => h.live (of_decide_eq_true hp)⟩

end Vdbg
