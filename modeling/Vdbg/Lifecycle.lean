import Mathlib.Logic.Relation
import Vdbg.Memory
import Vdbg.Session

/-!
# The life of a tracee

`Life` is what is left of a state without breakpoints, registers and memory: which process the
debugger takes for its tracee, whether that process is stopped, runs or is gone, the signal kept for
it, and the calls made about it. A life moves when the tracee is resumed and waited for, killed, or
spawned (`Life.Step`). Every command only moves the life of its state in these ways
(`handleCommand_life`), so what the moves keep, every session keeps.
-/

namespace Vdbg

open FaultRun Relation

variable {k : Kernel} {syms : Symbols}

/-! ## Lives -/

/-- Whether a call only reads or writes memory. -/
def Syscall.isAccess : Syscall → Bool
  | .peek _ _ | .poke _ _ => true
  | _ => false

/-- The calls made about a tracee but for memory accesses, the last one first. -/
def Tracee.events (t : Tracee) : List Syscall := t.log.filter fun c => !c.isAccess

structure Life where
  /-- The process the debugger waits for. -/
  pid : Pid
  state : DbgState
  loadAddress : Addr
  pendingSignal : Signal
  /-- The process that was forked last. -/
  process : Pid
  task : Task
  events : List Syscall
deriving DecidableEq, Repr

def World.life (w : World) : Life :=
  ⟨w.pid, w.state, w.loadAddress, w.pendingSignal, w.tracee.pid, w.tracee.task, w.tracee.events⟩

/-- What `waitpid` comes back with. -/
inductive WaitResult where
  | failed
  | got (status : WaitStatus)
deriving DecidableEq, Repr

/-- What a call of `waitpid` on a process will come back with, unless it never does. -/
def Tracee.waitResult (k : Kernel) (t : Tracee) (pid : Pid) : Option WaitResult :=
  if t.alive pid then
    match k.wait t with
    | .reports status _ _ => some (.got status)
    | .fails => some .failed
    | .never => none
  else some .failed

namespace Life

variable (l : Life)

/-- The tracee exists, and nobody has collected its end. -/
def Alive : Prop := l.pid = l.process ∧ l.task ≠ .gone

instance : Decidable l.Alive := inferInstanceAs (Decidable (_ ∧ _))

def call (c : Syscall) : Life := { l with events := c :: l.events }

/-- A resume request. `seen` says whether a running tracee is in a stop nobody has collected. -/
def resume (req : Resume) (seen : Bool) : Life :=
  let l' := l.call (.resume l.pid req)
  if l.pid = l.process ∧ (l.task = .stopped ∨ l.task ≠ .gone ∧ seen = true) then
    { l' with task := .running req }
  else l'

/-- `wait_for_signal` -/
def wait : WaitResult → Life
  | .failed => l.call (.wait l.pid none)
  | .got (.stopped info) =>
    let l' := { l.call (.wait l.pid (some (.stopped info))) with
      task := .stopped
      pendingSignal := if info.isFatal then info.signo else l.pendingSignal }
    if info.isSilent then l'.resume (.cont info.signo) false else l'
  | .got status =>
    { l.call (.wait l.pid (some status)) with
      task := .gone, state := .notActive, loadAddress := 0 }

/-- `single_step_instruction` -/
def step (seen : Bool) (r : WaitResult) : Life := (l.resume .singlestep seen).wait r

/-- The end of `continue_execution`. -/
def cont (seen : Bool) (r : WaitResult) : Life :=
  ({ l with pendingSignal := 0 }.resume (.cont l.pendingSignal) seen).wait r

/-- `kill_tracee` -/
def kill : Life :=
  { l.call (.kill l.pid) with
    task := if l.Alive then .gone else l.task, state := .notActive, loadAddress := 0 }

def fork : Life :=
  { l.call (.fork (l.process + 1)) with
    pid := l.process + 1, process := l.process + 1, task := .running (.cont 0) }

/-- `spawn_tracee` up to the resume of the new process. -/
def start (r : WaitResult) (load : Addr) : Life :=
  { l.fork.wait r with loadAddress := load, state := .active }

end Life

/-- Only `waitpid` on a living process can do other than fail. -/
def WaitResult.Possible (l : Life) (r : WaitResult) : Prop := r = .failed ∨ l.Alive

/-- The tracee is resumed and waited for, and what `waitpid` comes back with is an `R`. -/
inductive Life.Waits (R : WaitResult → Prop) (l : Life) : Life → Prop
  | step (seen : Bool) (r : WaitResult) (possible : r.Possible l) (result : R r) :
    Waits R l (l.step seen r)
  | cont (seen : Bool) (r : WaitResult) (possible : r.Possible l) (result : R r) :
    Waits R l (l.cont seen r)

/-- A move of a life. A spawn starts only where `F` allows it, with what its first `waitpid` comes
back with, and ends with a resume. -/
inductive Life.Step (R : WaitResult → Prop) (F : Life → WaitResult → Prop) (l : Life) : Life → Prop
  | waits {l' : Life} (h : l.Waits R l') : Step R F l l'
  | kill : Step R F l l.kill
  | spawn {l₁ l' : Life} (r : WaitResult) (load : Addr) (result : R r) (first : F l r)
    (steps : ReflTransGen (Waits R) (l.start r load) l₁) (last : l₁.Waits R l') : Step R F l l'

/-- What resumes, kills and starts keep, every move keeps. -/
theorem Life.Step.keeps {R : WaitResult → Prop} {F : Life → WaitResult → Prop} {P : Life → Prop}
    (hwaits : ∀ {l l'}, P l → l.Waits R l' → P l') (hkill : ∀ {l}, P l → P l.kill)
    (hstart : ∀ {l r load}, P l → R r → F l r → P (l.start r load)) {l l' : Life} (hl : P l)
    (h : l.Step R F l') : P l' := by
  cases h with
  | waits h => exact hwaits hl h
  | kill => exact hkill hl
  | spawn r load hr hF hsteps hlast =>
    refine hwaits ?_ hlast
    clear hlast
    induction hsteps with
    | refl => exact hstart hl hr hF
    | tail _ h ih => exact hwaits ih h

namespace Life

variable (l : Life) (req : Resume) (seen : Bool)

@[simp] theorem resume_events :
    (l.resume req seen).events = .resume l.pid req :: l.events := by
  unfold resume
  split_ifs <;> rfl

@[simp] theorem resume_pid : (l.resume req seen).pid = l.pid := by
  unfold resume
  split_ifs <;> rfl

@[simp] theorem resume_process : (l.resume req seen).process = l.process := by
  unfold resume
  split_ifs <;> rfl

@[simp] theorem resume_state : (l.resume req seen).state = l.state := by
  unfold resume
  split_ifs <;> rfl

@[simp] theorem resume_loadAddress : (l.resume req seen).loadAddress = l.loadAddress := by
  unfold resume
  split_ifs <;> rfl

@[simp] theorem resume_pendingSignal : (l.resume req seen).pendingSignal = l.pendingSignal := by
  unfold resume
  split_ifs <;> rfl

variable {l req seen}

theorem resume_task_ne_gone (h : l.task ≠ .gone) : (l.resume req seen).task ≠ .gone := by
  unfold resume
  split_ifs
  · exact fun he => by cases he
  · exact h

/-- A resume request neither ends a process nor brings one back. -/
@[simp] theorem alive_resume : (l.resume req seen).Alive ↔ l.Alive := by
  unfold resume
  split_ifs with hstop
  · refine iff_of_true ⟨hstop.1, by simp⟩ ⟨hstop.1, ?_⟩
    rcases hstop.2 with htask | htask
    · rw [htask]
      simp
    · exact htask.1
  · rfl

end Life

/-! ## Accesses -/

section Accesses

variable {w w' : World}

theorem World.life_setTracee {t : Tracee} (hpid : t.pid = w.tracee.pid)
    (htask : t.task = w.tracee.task) (hevents : t.events = w.tracee.events) :
    (w.setTracee t).life = w.life := by
  unfold World.life World.setTracee
  rw [hpid, htask, hevents]

/-- The process is the same, and was only accessed. -/
structure Tracee.Accessed (t t' : Tracee) : Prop where
  pid : t'.pid = t.pid
  task : t'.task = t.task
  events : t'.events = t.events

theorem Tracee.Accessed.life {t : Tracee} (h : w.tracee.Accessed t) :
    (w.setTracee t).life = w.life := World.life_setTracee h.pid h.task h.events

theorem Tracee.Accessed.trans {t t₁ t' : Tracee} (h : t.Accessed t₁) (h' : t₁.Accessed t') :
    t.Accessed t' := ⟨h'.pid.trans h.pid, h'.task.trans h.task, h'.events.trans h.events⟩

theorem accessed_peekData (t : Tracee) (pid : Pid) (a : Addr) :
    t.Accessed (t.peekData k pid a).2 := ⟨rfl, rfl, rfl⟩

theorem accessed_pokeData (t : Tracee) (pid : Pid) (a data : BitVec 64) :
    t.Accessed (t.pokeData k pid a data) := by
  unfold Tracee.pokeData
  dsimp only
  split_ifs
  · exact ⟨rfl, rfl, rfl⟩
  · exact ⟨rfl, rfl, rfl⟩

theorem accessed_setRegisterValue (t : Tracee) (r : Reg) (pid : Pid) (value : BitVec 64) :
    t.Accessed (setRegisterValue k t r pid value) := by
  unfold setRegisterValue
  split_ifs
  · exact ⟨rfl, rfl, rfl⟩
  · exact ⟨rfl, rfl, rfl⟩

theorem accessed_arm (t : Tracee) (loc : BpLocation) : t.Accessed (arm k t loc).2 := by
  unfold arm
  split_ifs
  · exact ⟨rfl, rfl, rfl⟩
  · exact (accessed_peekData t _ _).trans (accessed_pokeData _ _ _ _)

theorem accessed_disarm (t : Tracee) (loc : BpLocation) : t.Accessed (disarm k t loc).2 := by
  unfold disarm
  split_ifs
  · exact ⟨rfl, rfl, rfl⟩
  · exact ⟨rfl, rfl, rfl⟩
  · exact (accessed_peekData t _ _).trans (accessed_pokeData _ _ _ _)

theorem life_of_out (h : w' = { w with out := w'.out }) : w'.life = w.life := by
  rw [h]
  rfl

end Accesses

/-! ## What leaves the life alone -/

section Breakpoints

variable {w w' : World} {p : LocPtr} {b : BpPtr} {a : Addr}

theorem locEnable_life (hok : locEnable k w p = .ok w') : w'.life = w.life := by
  obtain ⟨loc, hp, -⟩ := bind_eq_ok.mp hok
  rw [World.derefLoc_eq_ok] at hp
  rw [locEnable_eq hp] at hok
  cases hok
  exact (accessed_arm w.tracee loc).life

theorem locDisable_life (hok : locDisable k w p = .ok w') : w'.life = w.life := by
  obtain ⟨loc, hp, -⟩ := bind_eq_ok.mp hok
  rw [World.derefLoc_eq_ok] at hp
  rw [locDisable_eq hp] at hok
  cases hok
  exact (accessed_disarm w.tracee loc).life

theorem locInit_temp_life {pid : Pid} {q : LocPtr}
    (hok : locInit k w pid a none true = .ok (q, w')) : w'.life = w.life := by
  obtain ⟨hpid, ha⟩ := locInit_asserts hok
  rw [locInit_temp_eq hpid ha] at hok
  cases hok
  exact (accessed_arm w.tracee _).life

theorem locInit_user_life {pid : Pid} {q : LocPtr}
    (hok : locInit k w pid a (some b) false = .ok (q, w')) : w'.life = w.life := by
  obtain ⟨hpid, ha, bp, hb⟩ := locInit_user_ok hok
  rw [locInit_user_eq hpid ha hb] at hok
  cases hok
  have harmed : w.tracee.Accessed (if bp.enable then arm k w.tracee ⟨pid, false, false, 0, a, [b]⟩
      else (⟨pid, false, false, 0, a, [b]⟩, w.tracee)).2 := by
    split_ifs
    · exact accessed_arm w.tracee _
    · exact ⟨rfl, rfl, rfl⟩
  exact harmed.life

theorem locAppend_life (hok : locAppendBreakpointToList k w p b = .ok w') : w'.life = w.life := by
  obtain ⟨bp, -, hok⟩ := bind_eq_ok.mp hok
  obtain ⟨loc, -, hok⟩ := bind_eq_ok.mp hok
  obtain ⟨list, -, hok⟩ := bind_eq_ok.mp hok
  dsimp only at hok
  split_ifs at hok
  · cases hok
    rfl
  · exact (locEnable_life hok).trans rfl
  · exact (locDisable_life hok).trans rfl
  · cases hok
    rfl

theorem locFree_life (hok : locFree k w p = .ok w') : w'.life = w.life := by
  obtain ⟨loc, -, hw'⟩ := locFree_ok hok
  rw [hw']
  exact (accessed_disarm w.tracee loc).life

theorem freeLocs_life {ps : List LocPtr} (hok : freeLocs k w ps = .ok w') : w'.life = w.life :=
  FaultRun.invariant (P := fun w' => w'.life = w.life)
    (fun _ _ _ h hok => (locFree_life hok).trans h) rfl hok

theorem bpInit_life {kind : BpKind} {q : BpPtr} (hok : bpInit w kind a = .ok (q, w')) :
    w'.life = w.life := by
  unfold bpInit at hok
  split_ifs at hok
  · cases hok
  · cases hok
    rfl

theorem bpEnable_life (hok : bpEnable k w b = .ok w') : w'.life = w.life := by
  obtain ⟨bp, -, hok⟩ := bind_eq_ok.mp hok
  dsimp only at hok
  split at hok
  · cases hok
    rfl
  · obtain ⟨loc, -, hok⟩ := bind_eq_ok.mp hok
    obtain ⟨list, -, hok⟩ := bind_eq_ok.mp hok
    obtain ⟨flags, -, hok⟩ := bind_eq_ok.mp hok
    split_ifs at hok
    · exact (locEnable_life hok).trans rfl
    · cases hok
      rfl

theorem bpDisable_life (hok : bpDisable k w b = .ok w') : w'.life = w.life := by
  obtain ⟨bp, -, hok⟩ := bind_eq_ok.mp hok
  dsimp only at hok
  split at hok
  · cases hok
    rfl
  · obtain ⟨loc, -, hok⟩ := bind_eq_ok.mp hok
    obtain ⟨list, -, hok⟩ := bind_eq_ok.mp hok
    obtain ⟨flags, -, hok⟩ := bind_eq_ok.mp hok
    split_ifs at hok
    · cases hok
      rfl
    · exact (locDisable_life hok).trans rfl

theorem bpFree_life (hok : bpFree k w b = .ok w') : w'.life = w.life := by
  obtain ⟨bp, -, hok⟩ := bind_eq_ok.mp hok
  split at hok
  · cases hok
    rfl
  · obtain ⟨loc, -, hok⟩ := bind_eq_ok.mp hok
    dsimp only at hok
    split_ifs at hok
    · obtain ⟨w₁, hdisable, hok⟩ := bind_eq_ok.mp hok
      cases hok
      exact (locDisable_life hdisable).trans rfl
    · cases hok
      rfl

theorem freeBps_life {bs : List BpPtr} (hok : freeBps k w bs = .ok w') : w'.life = w.life :=
  FaultRun.invariant (P := fun w' => w'.life = w.life)
    (fun _ _ _ h hok => (bpFree_life hok).trans h) rfl hok

theorem deleteBreakpoint_life (hok : deleteBreakpoint k w b = .ok w') : w'.life = w.life := by
  obtain ⟨bp, -, hok⟩ := bind_eq_ok.mp hok
  exact (freeBps_life hok).trans rfl

theorem deleteLocation_life (hok : deleteLocation k w a = .ok w') : w'.life = w.life :=
  (freeLocs_life hok).trans rfl

theorem removeBreakpoint_life (hok : removeBreakpoint k w b = .ok w') : w'.life = w.life :=
  (deleteBreakpoint_life hok).trans rfl

theorem removeOne_life (hok : removeOne k w b = .ok w') : w'.life = w.life := by
  obtain ⟨bp, -, hok⟩ := bind_eq_ok.mp hok
  obtain ⟨w₁, hdelete, hok⟩ := bind_eq_ok.mp hok
  exact (deleteBreakpoint_life hok).trans ((deleteLocation_life hdelete).trans rfl)

theorem setTemp_life {planted : Bool} (hok : setTempBpLocation k w a = .ok (planted, w')) :
    w'.life = w.life := by
  unfold setTempBpLocation at hok
  split_ifs at hok
  · cases hok
  obtain ⟨⟨p, w₁⟩, hinit, hok⟩ := bind_eq_ok.mp hok
  have hlife := locInit_temp_life hinit
  dsimp only at hok
  split at hok
  · cases hok
    exact hlife
  · obtain ⟨w₂, hfree, hok⟩ := bind_eq_ok.mp hok
    cases hok
    exact (locFree_life hfree).trans hlife

theorem unsetTemp_life (hok : unsetTempBpLocation k w a = .ok w') : w'.life = w.life := by
  unfold unsetTempBpLocation at hok
  split_ifs at hok
  · cases hok
  split at hok
  · cases hok
    rfl
  · exact deleteLocation_life hok

theorem addAndSet_life (hok : addAndSetBpForRunningTracee k w a b = .ok w') : w'.life = w.life := by
  unfold addAndSetBpForRunningTracee at hok
  split_ifs at hok
  · cases hok
    rfl
  dsimp only at hok
  split at hok
  · obtain ⟨⟨p, w₁⟩, hinit, hok⟩ := bind_eq_ok.mp hok
    have hlife := locInit_user_life hinit
    cases hok
    exact hlife
  · exact locAppend_life hok

theorem setBreakpointOfKind_life {kind : BpKind} (hok : setBreakpointOfKind k w kind a = .ok w') :
    w'.life = w.life := by
  obtain ⟨⟨q, w₁⟩, hinit, hok⟩ := bind_eq_ok.mp hok
  obtain ⟨w₂, hinsert, hok⟩ := bind_eq_ok.mp hok
  obtain ⟨bp, -, hinsert⟩ := bind_eq_ok.mp hinsert
  have hlife := bpInit_life hinit
  cases hinsert
  exact (addAndSet_life hok).trans hlife

end Breakpoints

/-! ## Waiting -/

/-- `F` allows the spawns from a state, with what their first `waitpid` comes back with. -/
def World.Allows (k : Kernel) (w : World) (F : Life → WaitResult → Prop) : Prop :=
  ∀ r, (w.tracee.fork k).waitResult k (w.tracee.fork k).pid = some r → F w.life r

section Waiting

variable {w w' : World} {R : WaitResult → Prop} {F : Life → WaitResult → Prop}

theorem World.alive_iff (w : World) : w.tracee.alive w.pid = true ↔ w.life.Alive := by
  unfold Tracee.alive Life.Alive World.life
  simp

theorem Tracee.waitResult_possible {r : WaitResult} (h : w.tracee.waitResult k w.pid = some r) :
    r.Possible w.life := by
  unfold Tracee.waitResult at h
  split_ifs at h with halive
  · exact .inr (w.alive_iff.mp halive)
  · exact .inl (Option.some.inj h).symm

theorem cleanup_life (hok : cleanupAtTraceeDeath k w = .ok w') :
    w'.life = { w.life with state := .notActive, loadAddress := 0 } := by
  obtain ⟨w₁, hfree, hok⟩ := bind_eq_ok.mp hok
  have hlife := freeLocs_life hfree
  cases hok
  show { w₁.life with state := .notActive, loadAddress := 0 } = _
  rw [hlife]

theorem Life.resume_stopped {l : Life} (hpid : l.pid = l.process) (htask : l.task = .stopped)
    (req : Resume) (seen : Bool) :
    l.resume req seen = { l.call (.resume l.pid req) with task := .running req } :=
  if_pos ⟨hpid, .inl htask⟩

/-- A resume request moves the life as `Life.resume` says. -/
theorem resume_life (w : World) (req : Resume) : ∃ seen,
    (w.setTracee (w.tracee.resume k w.pid req)).life = w.life.resume req seen := by
  refine ⟨k.unseenStop w.tracee, ?_⟩
  unfold Tracee.resume Tracee.inStop Life.resume
  by_cases hpid : w.pid = w.tracee.pid
  · rcases htask : w.tracee.task with - | req' | -
    · simp [hpid, htask, World.life, World.setTracee, Life.call, Tracee.logged, Tracee.events,
        Syscall.isAccess]
    · rcases k.unseenStop w.tracee <;>
        simp [hpid, htask, World.life, World.setTracee, Life.call, Tracee.logged, Tracee.events,
          Syscall.isAccess]
    · simp [hpid, htask, World.life, World.setTracee, Life.call, Tracee.logged, Tracee.events,
        Syscall.isAccess]
  · simp [hpid, World.life, World.setTracee, Life.call, Tracee.logged, Tracee.events,
      Syscall.isAccess]

theorem SigInfo.trap_of_isHit {info : SigInfo} (h : info.isHit = true) : info.signo = SIGTRAP := by
  unfold SigInfo.isHit at h
  simp only [Bool.and_eq_true, decide_eq_true_eq] at h
  exact h.1.1

/-- Of the tracee, only a silent stop moves the life. -/
theorem afterStop_life (info : SigInfo) (halive : w.tracee.alive w.pid = true)
    (hstopped : w.tracee.task = .stopped) :
    (w.setTracee (w.tracee.afterStop k w.pid info)).life =
      if info.isSilent then w.life.resume (.cont info.signo) false else w.life := by
  unfold Tracee.afterStop
  by_cases hhit : info.isHit = true
  · rw [if_pos hhit, if_neg (by rw [SigInfo.isSilent_of_trap (SigInfo.trap_of_isHit hhit)]; simp)]
    exact (accessed_setRegisterValue w.tracee .rip w.pid _).life
  · rw [if_neg hhit]
    split_ifs
    · rw [Tracee.resume_of_inStop (Tracee.inStop_of_stopped halive hstopped),
        Life.resume_stopped (w.alive_iff.mp halive).1 hstopped]
      rfl
    · rfl

/-- A call of `wait_for_signal` that returns moves the life as `Life.wait` says. -/
theorem waitForSignal_life (hok : waitForSignal k syms w = .ok w') :
    ∃ r, w.tracee.waitResult k w.pid = some r ∧ w'.life = w.life.wait r := by
  rcases waitForSignal_cases hok with ⟨t, hwait, rfl⟩ | ⟨status, t, r, hwait, hgone, hok⟩ |
    ⟨info, t, hwait, hw'⟩
  · obtain ⟨rfl, hfails⟩ := Tracee.waitpid_fails hwait
    refine ⟨.failed, ?_, rfl⟩
    unfold Tracee.waitResult
    split_ifs with halive
    · rw [hfails halive]
    · rfl
  · obtain ⟨halive, regs, mem, hreports, rfl⟩ := Tracee.waitpid_reports hwait
    refine ⟨.got status, by rw [Tracee.waitResult, if_pos halive, hreports], ?_⟩
    rw [cleanup_life hok]
    cases status with
    | exited code => rfl
    | signaled sig => rfl
    | stopped info => cases hgone
  · obtain ⟨halive, regs, mem, hreports, rfl⟩ := Tracee.waitpid_reports hwait
    refine ⟨.got (.stopped info), by rw [Tracee.waitResult, if_pos halive, hreports], ?_⟩
    set t : Tracee := { w.tracee.logged (.wait w.pid (some (.stopped info))) with
      task := .stopped, regs, mem } with ht
    set w₁ : World := { w.setTracee t with
      pendingSignal := if info.isFatal then info.signo else w.pendingSignal } with hw₁
    have halive₁ : w₁.tracee.alive w₁.pid = true := by
      rw [World.alive_iff] at halive ⊢
      exact ⟨halive.1, fun hgone => by cases hgone⟩
    have hlife := afterStop_life (k := k) info halive₁ rfl
    have hw₁' : w'.life = (w₁.setTracee (w₁.tracee.afterStop k w₁.pid info)).life := by
      rw [hw']
      rfl
    rw [hw₁', hlife]
    rfl

/-- Whatever `waitpid` comes back with is an `R`. -/
def Kernel.Gives (k : Kernel) (R : WaitResult → Prop) : Prop :=
  ∀ t pid r, Tracee.waitResult k t pid = some r → R r

/-- The tracee is resumed and waited for. -/
theorem resume_wait_life {req : Resume} (hR : k.Gives R)
    (hok : waitForSignal k syms (w.setTracee (w.tracee.resume k w.pid req)) = .ok w') :
    ∃ seen r, r.Possible w.life ∧ R r ∧ w'.life = (w.life.resume req seen).wait r := by
  obtain ⟨seen, hresume⟩ := resume_life (k := k) w req
  obtain ⟨r, hresult, hlife⟩ := waitForSignal_life hok
  have hpossible := Tracee.waitResult_possible hresult
  rw [hresume] at hpossible hlife
  exact ⟨seen, r, hpossible.imp_right Life.alive_resume.mp, hR _ _ _ hresult, hlife⟩

theorem singleStepInstruction_life (hR : k.Gives R)
    (hok : singleStepInstruction k syms w = .ok w') : w.life.Waits R w'.life := by
  obtain ⟨seen, r, hpossible, hr, hlife⟩ := resume_wait_life hR hok
  rw [hlife]
  exact .step seen r hpossible hr

theorem executeStepOverLoc_life {p : Option LocPtr} (hR : k.Gives R)
    (hok : executeStepOverLoc k syms w p = .ok w') :
    ReflTransGen (Life.Waits R) w.life w'.life := by
  unfold executeStepOverLoc at hok
  rcases p with - | p
  · cases hok
    exact .refl
  obtain ⟨loc, -, hok⟩ := bind_eq_ok.mp hok
  split_ifs at hok
  · obtain ⟨w₁, hdisable, hok⟩ := bind_eq_ok.mp hok
    obtain ⟨w₂, hstep, hok⟩ := bind_eq_ok.mp hok
    rw [locEnable_life hok, ← locDisable_life hdisable]
    exact .single (singleStepInstruction_life hR hstep)
  · cases hok
    exact .refl

/-- `continue_execution` makes a step, or none, and then resumes the tracee. -/
theorem continueExecution_life (hR : k.Gives R) (hok : continueExecution k syms w = .ok w') :
    ∃ l, ReflTransGen (Life.Waits R) w.life l ∧ l.Waits R w'.life := by
  unfold continueExecution at hok
  split_ifs at hok
  · cases hok
  obtain ⟨w₁, hstep, hok⟩ := bind_eq_ok.mp hok
  obtain ⟨seen, r, hpossible, hr, hlife⟩ :=
    resume_wait_life (w := { w₁ with pendingSignal := 0 }) hR hok
  refine ⟨w₁.life, executeStepOverLoc_life hR hstep, ?_⟩
  rw [hlife]
  exact .cont seen r hpossible hr

theorem killTracee_life (hok : killTracee k w = .ok w') : w'.life = w.life.kill := by
  rw [cleanup_life hok, Life.kill]
  by_cases halive : w.tracee.alive w.pid = true
  · have hkill : w.tracee.kill w.pid =
        { w.tracee.logged (.kill w.pid) with task := .gone } := if_pos halive
    rw [hkill, if_pos (w.alive_iff.mp halive)]
    rfl
  · have hkill : w.tracee.kill w.pid = w.tracee.logged (.kill w.pid) := if_neg halive
    rw [hkill, if_neg (mt w.alive_iff.mpr halive)]
    rfl

theorem resolveBreakpoint_life {b : BpPtr} (hok : resolveBreakpoint k w b = .ok w') :
    w'.life = w.life := by
  obtain ⟨bp, -, hok⟩ := bind_eq_ok.mp hok
  dsimp only at hok
  split at hok
  · exact locAppend_life hok
  · obtain ⟨⟨p, w₁⟩, hinit, hok⟩ := bind_eq_ok.mp hok
    have hlife := locInit_user_life hinit
    dsimp only at hok
    split at hok
    · cases hok
      exact hlife
    · cases hok

theorem resolvePendingBreakpoints_life (hok : resolvePendingBreakpoints k w = .ok w') :
    w'.life = w.life := by
  unfold resolvePendingBreakpoints at hok
  split_ifs at hok
  · cases hok
  · exact FaultRun.invariant (P := fun w' => w'.life = w.life)
      (fun _ _ _ h hok => (resolveBreakpoint_life hok).trans h) rfl hok

theorem startTracee_life (hR : k.Gives R) (hF : w.Allows k F)
    (hok : startTracee k syms w = .ok w') :
    ∃ r load, R r ∧ F w.life r ∧ w'.life = w.life.start r load := by
  unfold startTracee at hok
  dsimp only at hok
  obtain ⟨w₁, hwait, hok⟩ := bind_eq_ok.mp hok
  obtain ⟨load, -, hok⟩ := bind_eq_ok.mp hok
  obtain ⟨w₂, hresolve, hok⟩ := bind_eq_ok.mp hok
  obtain ⟨r, hresult, hlife⟩ := waitForSignal_life hwait
  refine ⟨r, load, hR _ _ _ hresult, hF r hresult, ?_⟩
  have hlife₂ : w₂.life = w.life.start r load := by
    rw [resolvePendingBreakpoints_life hresolve, Life.start]
    exact congrArg (fun l : Life => { l with loadAddress := load, state := .active }) hlife
  unfold setupDwfl at hok
  split at hok
  · cases hok
  · cases hok
    exact hlife₂

theorem spawnTracee_life (hR : k.Gives R) (hF : w.Allows k F)
    (hok : spawnTracee k syms w = .ok w') : w.life.Step R F w'.life := by
  obtain ⟨w₁, hstart, hok⟩ := bind_eq_ok.mp hok
  obtain ⟨r, load, hr, hfirst, hlife⟩ := startTracee_life hR hF hstart
  obtain ⟨l, hsteps, hlast⟩ := continueExecution_life hR hok
  rw [hlife] at hsteps
  exact .spawn r load hr hfirst hsteps hlast

end Waiting

/-! ## Commands -/

/-- The state a command forks a process from. -/
def Command.SpawnsFrom (k : Kernel) (w : World) (c : Command) (w₁ : World) : Prop :=
  match c with
  | .run answer => if w.state = .active then answer = true ∧ killTracee k w = .ok w₁ else w₁ = w
  | .restart => killTracee k w = .ok w₁
  | _ => False

section Commands

variable {w w' : World} {R : WaitResult → Prop} {F : Life → WaitResult → Prop}

theorem setBreakpointAtFuncSymbol_life {name : String}
    (hok : setBreakpointAtFuncSymbol k syms w name = .ok w') : w'.life = w.life :=
  FaultRun.invariant (P := fun w' => w'.life = w.life)
    (fun _ _ _ h hok => (setBreakpointOfKind_life hok).trans h) rfl hok

theorem setBreakpointAtLineno_life {file : Option String} {line : ℤ}
    (hok : setBreakpointAtLineno k syms w file line = .ok w') : w'.life = w.life := by
  rcases setBreakpointAtLineno_cases hok with ⟨-, rfl⟩ | ⟨name, a, -, hset⟩
  · rfl
  · exact setBreakpointOfKind_life hset

theorem cmdBreak_life {args : List BreakArg} (hok : cmdBreak k syms w args = .ok w') :
    w'.life = w.life := by
  induction args generalizing w with
  | nil => cases hok; rfl
  | cons arg args ih =>
    cases arg with
    | addr a =>
      obtain ⟨w₁, hset, hok⟩ := bind_eq_ok.mp hok
      rw [setBreakpointAtAddr_eq] at hset
      exact (ih hok).trans (setBreakpointOfKind_life hset)
    | line file line =>
      unfold cmdBreak at hok
      split_ifs at hok
      · obtain ⟨w₁, hset, hok⟩ := bind_eq_ok.mp hok
        exact (ih hok).trans (setBreakpointAtLineno_life hset)
      · cases hok
        rfl
    | symbol name =>
      obtain ⟨w₁, hset, hok⟩ := bind_eq_ok.mp hok
      exact (ih hok).trans (setBreakpointAtFuncSymbol_life hset)

/-- A command on the breakpoints its arguments name. -/
theorem forArgs_life {act : World → BpPtr → Res World} {args : List BpArg}
    (hact : ∀ {w b w'}, act w b = .ok w' → w'.life = w.life)
    (hok : forArgs syms act w args = .ok w') : w'.life = w.life := by
  refine FaultRun.invariant (P := fun w' => w'.life = w.life) (fun w₁ arg w₂ h hok => ?_) rfl hok
  obtain ⟨b, -, hok⟩ := bind_eq_ok.mp hok
  split at hok
  · cases hok
    exact h
  · exact (hact hok).trans h

theorem forAll_life {α : Type} {act : World → α → Res World} {bs : List α}
    (hact : ∀ w b w', act w b = .ok w' → w'.life = w.life)
    (hok : bs.foldlM act w = .ok w') : w'.life = w.life :=
  FaultRun.invariant (P := fun w' => w'.life = w.life)
    (fun _ _ _ h hok => (hact _ _ _ hok).trans h) rfl hok

theorem plantLoop_life {n : ℕ} {pc : Addr} {currentLine line : ℕ} {d d' : ToDelete}
    (hok : plantLoop k n pc currentLine line d w = .ok (d', w')) : w'.life = w.life := by
  induction n generalizing pc currentLine line d w with
  | zero => cases hok; rfl
  | succ n ih =>
    unfold plantLoop at hok
    dsimp only at hok
    split_ifs at hok
    · obtain ⟨⟨planted, w₁⟩, hplant, hok⟩ := bind_eq_ok.mp hok
      have hlife := setTemp_life hplant
      dsimp only at hok
      split_ifs at hok
      · obtain ⟨d₁, -, hok⟩ := bind_eq_ok.mp hok
        exact (ih hok).trans hlife
      · exact (ih hok).trans hlife
    · exact ih hok

theorem readReturnAddress_life (w : World) : (readReturnAddress k w).2.life = w.life := rfl

theorem plantTempLocations_life {die : FuncDie} {name : String} {pc : Addr} {d : ToDelete}
    (hok : plantTempLocations k w die name pc = .ok (d, w')) : w'.life = w.life := by
  unfold plantTempLocations at hok
  dsimp only at hok
  split at hok
  · cases hok
  split at hok
  · cases hok
  split at hok
  · cases hok
  obtain ⟨⟨d₁, w₁⟩, hloop, hok⟩ := bind_eq_ok.mp hok
  have hlife := plantLoop_life hloop
  dsimp only at hok
  split at hok
  · cases hok
    exact hlife
  obtain ⟨⟨planted, w₂⟩, hplant, hok⟩ := bind_eq_ok.mp hok
  have hlife₂ : w₂.life = w.life :=
    (setTemp_life hplant).trans ((readReturnAddress_life w₁).trans hlife)
  dsimp only at hok
  split at hok
  · obtain ⟨d₂, -, hok⟩ := bind_eq_ok.mp hok
    cases hok
    exact hlife₂
  · cases hok
    exact hlife₂

theorem singleStepWithCheck_life (hR : k.Gives R)
    (hok : singleStepInstructionWithBreakpointCheck k syms w = .ok w') :
    ReflTransGen (Life.Waits R) w.life w'.life := by
  unfold singleStepInstructionWithBreakpointCheck at hok
  split at hok
  · exact executeStepOverLoc_life hR hok
  · exact .single (singleStepInstruction_life hR hok)

/-- The loop of `step_in`, by induction on its turns. -/
theorem stepInLoop_life {line fuel : ℕ} {next : Option (String × SrcLine)} (hR : k.Gives R)
    (hok : stepInLoop k syms line fuel w = .ok (next, w')) :
    ReflTransGen (Life.Waits R) w.life w'.life := by
  induction fuel generalizing w with
  | zero => cases hok
  | succ fuel ih =>
    obtain ⟨r, -, hok⟩ := bind_eq_ok.mp hok
    split_ifs at hok
    · obtain ⟨w₁, hstep, hok⟩ := bind_eq_ok.mp hok
      exact (singleStepWithCheck_life hR hstep).trans (ih hok)
    · cases hok
      exact .refl

theorem stepIn_life {fuel : ℕ} (hR : k.Gives R) (hok : stepIn k syms fuel w = .ok w') :
    ReflTransGen (Life.Waits R) w.life w'.life := by
  unfold stepIn at hok
  obtain ⟨r, -, hok⟩ := bind_eq_ok.mp hok
  rcases r with - | ⟨file, src⟩
  · cases hok
    exact .refl
  dsimp only at hok
  by_cases hline : src.line = 0
  · rw [if_pos hline] at hok
    cases hok
    exact .refl
  rw [if_neg hline] at hok
  obtain ⟨⟨next, w₁⟩, hloop, hok⟩ := bind_eq_ok.mp hok
  refine (stepInLoop_life hR hloop).trans ?_
  have hwarn : (printSrcFileOutdatedWarning w₁ src.outdated).life = w₁.life :=
    life_of_out (printSrcFileOutdatedWarning_eq w₁ _)
  rw [← hwarn]
  dsimp only at hok
  split_ifs at hok
  · rw [life_of_out (printSource_eq hok)]
  · cases hok
    exact .refl

/-- A resume between two stretches that leave the life alone. -/
theorem continue_between {w₁ w₂ : World} (hR : k.Gives R) (hbefore : w₁.life = w.life)
    (hok : continueExecution k syms w₁ = .ok w₂) (hafter : w'.life = w₂.life) :
    ReflTransGen (Life.Waits R) w.life w'.life := by
  obtain ⟨l, hsteps, hlast⟩ := continueExecution_life hR hok
  rw [hafter, ← hbefore]
  exact hsteps.tail hlast

theorem stepOut_life (hR : k.Gives R) (hok : stepOut k syms w = .ok w') :
    ReflTransGen (Life.Waits R) w.life w'.life := by
  unfold stepOut at hok
  obtain ⟨⟨planted, w₁⟩, hplant, hok⟩ := bind_eq_ok.mp hok
  obtain ⟨w₂, hcont, hok⟩ := bind_eq_ok.mp hok
  have hbefore : w₁.life = w.life := (setTemp_life hplant).trans (readReturnAddress_life w)
  refine continue_between hR hbefore hcont ?_
  cases planted with
  | true => exact unsetTemp_life hok
  | false =>
    cases hok
    rfl

theorem stepOver_life (hR : k.Gives R) (hok : stepOver k syms w = .ok w') :
    ReflTransGen (Life.Waits R) w.life w'.life := by
  unfold stepOver at hok
  obtain ⟨die, -, hok⟩ := bind_eq_ok.mp hok
  split at hok
  · cases hok
    exact .refl
  · obtain ⟨⟨d, w₁⟩, hplant, hok⟩ := bind_eq_ok.mp hok
    obtain ⟨w₂, hcont, hok⟩ := bind_eq_ok.mp hok
    exact continue_between hR (plantTempLocations_life hplant) hcont
      (forAll_life (fun _ _ _ => unsetTemp_life) hok)

theorem cmdStepi_life (hR : k.Gives R) (hok : cmdStepi k syms w = .ok w') :
    ReflTransGen (Life.Waits R) w.life w'.life := by
  obtain ⟨w₁, hstep, hprint⟩ := bind_eq_ok.mp hok
  rw [life_of_out (printSourceAtCurrentPc_eq hprint)]
  exact singleStepWithCheck_life hR hstep

/-- Moves by resumes alone. -/
theorem steps_of_waits {l l' : Life} (h : ReflTransGen (Life.Waits R) l l') :
    ReflTransGen (Life.Step R F) l l' := ReflTransGen.mono (fun _ _ => Life.Step.waits) _ _ h

theorem restart_life (hR : k.Gives R) (hF : ∀ w₁, killTracee k w = .ok w₁ → w₁.Allows k F)
    (hok : restart k syms w = .ok w') : ReflTransGen (Life.Step R F) w.life w'.life := by
  obtain ⟨w₁, hkill, hok⟩ := bind_eq_ok.mp hok
  have hspawn := spawnTracee_life hR (hF w₁ hkill) hok
  rw [killTracee_life hkill] at hspawn
  exact (ReflTransGen.single .kill).tail hspawn

theorem run_life {answer : Bool} (hR : k.Gives R)
    (hF : ∀ w₁, (Command.run answer).SpawnsFrom k w w₁ → w₁.Allows k F)
    (hok : run k syms w answer = .ok w') : ReflTransGen (Life.Step R F) w.life w'.life := by
  unfold run at hok
  by_cases hact : w.state = .active
  · rw [if_pos hact] at hok
    cases answer with
    | true =>
      refine restart_life hR (fun w₁ hkill => hF w₁ ?_) hok
      unfold Command.SpawnsFrom
      dsimp only
      rw [if_pos hact]
      exact ⟨rfl, hkill⟩
    | false =>
      cases hok
      exact .refl
  · rw [if_neg hact] at hok
    refine .single (spawnTracee_life hR (hF w ?_) hok)
    unfold Command.SpawnsFrom
    dsimp only
    rw [if_neg hact]

/-- A command moves the life of its state by resumes, kills and the spawns `F` allows. -/
theorem handleCommand_life {c : Command} (hR : k.Gives R)
    (hF : ∀ w₁, c.SpawnsFrom k w w₁ → w₁.Allows k F) (hok : handleCommand k syms w c = .ok w') :
    ReflTransGen (Life.Step R F) w.life w'.life := by
  have heq : w'.life = w.life → ReflTransGen (Life.Step R F) w.life w'.life := fun h => h ▸ .refl
  unfold handleCommand at hok
  split_ifs at hok
  · cases hok; exact .refl
  · cases hok; exact .refl
  cases c with
  | «break» args => exact heq (cmdBreak_life hok)
  | delete args =>
    change cmdDelete k syms w args = .ok w' at hok
    unfold cmdDelete at hok
    split_ifs at hok
    · exact heq (forAll_life (fun _ _ _ => removeOne_life) hok)
    · exact heq (forArgs_life removeBreakpoint_life hok)
  | enable args =>
    change cmdEnable k syms w args = .ok w' at hok
    unfold cmdEnable at hok
    split_ifs at hok
    · exact heq (forAll_life (fun _ _ _ => bpEnable_life) hok)
    · exact heq (forArgs_life bpEnable_life hok)
  | disable args =>
    change cmdDisable k syms w args = .ok w' at hok
    unfold cmdDisable at hok
    split_ifs at hok
    · exact heq (forAll_life (fun _ _ _ => bpDisable_life) hok)
    · exact heq (forArgs_life bpDisable_life hok)
  | run answer => exact run_life hR hF hok
  | restart => exact restart_life hR hF hok
  | «continue» => exact steps_of_waits (continue_between hR rfl hok rfl)
  | stepi => exact steps_of_waits (cmdStepi_life hR hok)
  | step fuel => exact steps_of_waits (stepIn_life hR hok)
  | next => exact steps_of_waits (stepOver_life hR hok)
  | finish => exact steps_of_waits (stepOut_life hR hok)
  | registerWrite r value =>
    cases hok
    exact heq (accessed_setRegisterValue w.tracee r w.pid value).life
  | memoryWrite a value =>
    cases hok
    exact heq (accessed_pokeData w.tracee w.pid a value).life
  | kill answer =>
    obtain ⟨⟨quit, w₁⟩, hkill, hok⟩ := bind_eq_ok.mp hok
    cases hok
    unfold dbgKillTracee at hkill
    split_ifs at hkill
    · obtain ⟨w₂, hkill, hok⟩ := bind_eq_ok.mp hkill
      cases hok
      show ReflTransGen (Life.Step R F) w.life w₁.life
      rw [killTracee_life hkill]
      exact .single .kill
    · cases hkill
      exact .refl
    · cases hkill
      exact .refl

/-- What the moves of a life keep, a session keeps whose spawns `F` allows. -/
theorem session_life {P : Life → Prop} {cs : List Command} (hR : k.Gives R)
    (hstep : ∀ {l l'}, P l → l.Step R F l' → P l') (hw : P w.life)
    (hF : Along (handleCommand k syms) (fun w c => ∀ w₁, c.SpawnsFrom k w w₁ → w₁.Allows k F) w cs)
    (hok : session k syms w cs = .ok w') : P w'.life := by
  refine hF.invariant (P := fun w => P w.life) (fun w c w' h hF hok => ?_) hw hok
  have hmoves := handleCommand_life hR hF hok
  generalize w'.life = l' at hmoves ⊢
  induction hmoves with
  | refl => exact h
  | tail _ h ih => exact hstep ih h

end Commands

end Vdbg
