import Mathlib.Data.List.Count
import Vdbg.Lifecycle

/-!
# Signals on their way to the tracee

A signal that stops the tracee is to be handed back to it at the next resume, once. The debugger
keeps one signal for that purpose, whatever becomes of the process it was for. Two things can be
said of the calls made about a tracee: whether every signal that is passed was the tracee's own
(`Injected`), and whether every signal it stopped with is passed (`HandsBack`), be the stop one that
was collected or one nobody has waited for.
-/

namespace Vdbg

open FaultRun

variable {k : Kernel} {syms : Symbols}

/-! ## Calls and the calls before them -/

/-- Every call meets a condition on the calls before it, which come last in the list. -/
def Each (P : Syscall → List Syscall → Prop) : List Syscall → Prop
  | [] => True
  | c :: cs => P c cs ∧ Each P cs

theorem Each.mono {P Q : Syscall → List Syscall → Prop} {cs : List Syscall}
    (h : ∀ c cs, P c cs → Q c cs) (hP : Each P cs) : Each Q cs := by
  induction cs with
  | nil => trivial
  | cons c cs ih => exact ⟨h c cs hP.1, ih hP.2⟩

/-- The process a call is about. -/
def Syscall.target : Syscall → Pid
  | .fork pid | .peek pid _ | .poke pid _ | .resume pid _ | .wait pid _ | .kill pid => pid

/-- A stop of the process with the signal. -/
def Syscall.stops (pid : Pid) (sig : Signal) : Syscall → Bool
  | .wait p (some (.stopped info)) => p = pid && info.signo = sig
  | _ => false

/-- A resume of the process that passes the signal to it. -/
def Syscall.passes (pid : Pid) (sig : Signal) : Syscall → Bool
  | .resume p (.cont s) => p = pid && s = sig
  | _ => false

theorem Syscall.target_of_stops {pid : Pid} {sig : Signal} {c : Syscall}
    (h : c.stops pid sig = true) : c.target = pid := by
  unfold Syscall.stops at h
  split at h
  · simp only [Bool.and_eq_true, decide_eq_true_eq] at h
    exact h.1
  · cases h

theorem Syscall.target_of_passes {pid : Pid} {sig : Signal} {c : Syscall}
    (h : c.passes pid sig = true) : c.target = pid := by
  unfold Syscall.passes at h
  split at h
  · simp only [Bool.and_eq_true, decide_eq_true_eq] at h
    exact h.1
  · cases h

/-- Nothing has stopped, and nothing was passed, where no call is about the process. -/
theorem countP_eq_zero_of_target {p : Syscall → Bool} {pid : Pid} {cs : List Syscall}
    (hp : ∀ {c}, p c = true → c.target = pid) (hcs : ∀ c ∈ cs, c.target ≠ pid) :
    cs.countP p = 0 :=
  List.countP_eq_zero.mpr fun c hc h => hcs c hc (hp h)

/-- The resume by which `wait_for_signal` hands a signal straight back. -/
def Syscall.isForward : Syscall → List Syscall → Bool
  | .resume pid (.cont sig), .wait p (some (.stopped info)) :: _ =>
    p = pid && info.signo = sig && info.isSilent
  | _, _ => false

/-- Whether the process was resumed by other than `wait_for_signal`. -/
def resumed (pid : Pid) : List Syscall → Bool
  | [] => false
  | .resume p req :: cs => p = pid && !(Syscall.resume p req).isForward cs || resumed pid cs
  | _ :: cs => resumed pid cs

theorem resumed_cons {c : Syscall} {cs : List Syscall} (pid : Pid)
    (hc : ∀ p req, c ≠ .resume p req) : resumed pid (c :: cs) = resumed pid cs := by
  cases c with
  | resume p req => exact absurd rfl (hc p req)
  | _ => rfl

theorem passes_of_not_resume {c : Syscall} (hc : ∀ p req, c ≠ .resume p req) (pid : Pid)
    (sig : Signal) : c.passes pid sig = false := by
  cases c with
  | resume p req => exact absurd rfl (hc p req)
  | _ => rfl

/-- A call that neither resumes a process nor collects a stop. -/
def Syscall.isQuiet : Syscall → Bool
  | .resume _ _ | .wait _ (some (.stopped _)) => false
  | _ => true

section Quiet

variable {c : Syscall} (hc : c.isQuiet = true)

include hc

theorem not_resume_of_quiet (p : Pid) (req : Resume) : c ≠ .resume p req := by
  rintro rfl
  cases hc

theorem stops_of_quiet (pid : Pid) (sig : Signal) : c.stops pid sig = false := by
  unfold Syscall.stops
  split
  · cases hc
  · rfl

theorem isForward_of_quiet (pid : Pid) (sig : Signal) (cs : List Syscall) :
    (Syscall.resume pid (.cont sig)).isForward (c :: cs) = false := by
  unfold Syscall.isForward
  split
  · rename_i he
    obtain ⟨rfl, -⟩ := List.cons.inj he
    cases hc
  · rfl

end Quiet

/-- Every call is about a process that was forked, and the debugger waits for the last one. -/
structure Numbered (l : Life) : Prop where
  targets : ∀ c ∈ l.events, c.target ≤ l.process
  current : l.pid = l.process

theorem Numbered.call {l l' : Life} {c : Syscall} (h : Numbered l) (hc : c.target = l.pid)
    (hevents : l'.events = c :: l.events) (hpid : l'.pid = l.pid)
    (hprocess : l'.process = l.process) : Numbered l' := by
  refine ⟨?_, by rw [hpid, hprocess, h.current]⟩
  rw [hevents, hprocess]
  intro c' hc'
  rcases List.mem_cons.mp hc' with rfl | hc'
  · exact (hc.trans h.current).le
  · exact h.targets c' hc'

/-- No call was about a process that is forked now. -/
theorem Numbered.fork {l : Life} (h : Numbered l) :
    Numbered l.fork ∧ ∀ c ∈ l.events, c.target ≠ l.fork.pid := by
  refine ⟨⟨fun c hc => ?_, rfl⟩, fun c hc => (Nat.lt_succ_of_le (h.targets c hc)).ne⟩
  rcases List.mem_cons.mp hc with rfl | hc
  · exact Nat.le_refl _
  · exact (h.targets c hc).trans (Nat.le_succ _)

/-! ## No foreign signals -/

/-- A signal that is passed to a process has stopped it more often than it was passed to it. -/
def Own (c : Syscall) (cs : List Syscall) : Prop :=
  ∀ pid sig, c = .resume pid (.cont sig) → sig ≠ 0 →
    cs.countP (Syscall.passes pid sig) < cs.countP (Syscall.stops pid sig)

/-- The first resume of a process carries no signal, apart from those handed straight back. -/
def FirstPlain (c : Syscall) (cs : List Syscall) : Prop :=
  ∀ pid sig, c = .resume pid (.cont sig) → c.isForward cs = false → resumed pid cs = false →
    sig = 0

/-- No stale or foreign signal was injected. -/
def Injected (cs : List Syscall) : Prop := Each Own cs ∧ Each FirstPlain cs

/-- What holds of a life as long as no process was started with a signal kept for another one. -/
structure Unspent (l : Life) : Prop where
  injected : Injected l.events
  /-- The signal that is kept has not been passed yet. -/
  pending : ∀ sig, sig ≠ 0 → l.events.countP (Syscall.passes l.pid sig) +
    (if l.pendingSignal = sig then 1 else 0) ≤ l.events.countP (Syscall.stops l.pid sig)
  first : resumed l.pid l.events = false → l.pendingSignal = 0
  /-- A silent stop was answered. -/
  answered : ∀ sig, (Syscall.resume l.pid (.cont sig)).isForward l.events = false
  numbered : Numbered l

namespace Unspent

variable {l l' : Life} {c : Syscall}

theorem passes_le_stops (h : Unspent l) {sig : Signal} (hsig : sig ≠ 0) :
    l.events.countP (Syscall.passes l.pid sig) ≤ l.events.countP (Syscall.stops l.pid sig) :=
  (Nat.le_add_right _ _).trans (h.pending sig hsig)

/-- A call that is not a resume. -/
theorem tell (h : Unspent l) (hc : ∀ p req, c ≠ .resume p req) (htarget : c.target = l.pid)
    (hevents : l'.events = c :: l.events) (hpid : l'.pid = l.pid) (hprocess : l'.process = l.process)
    (hpending : ∀ sig, sig ≠ 0 → l.events.countP (Syscall.passes l.pid sig) +
      (if l'.pendingSignal = sig then 1 else 0) ≤ (c :: l.events).countP (Syscall.stops l.pid sig))
    (hfirst : resumed l.pid l.events = false → l'.pendingSignal = 0)
    (hanswered : ∀ sig, (Syscall.resume l.pid (.cont sig)).isForward (c :: l.events) = false) :
    Unspent l' := by
  refine ⟨?_, fun sig hsig => ?_, ?_, ?_, h.numbered.call htarget hevents hpid hprocess⟩
  · rw [hevents]
    exact ⟨⟨fun pid sig he => absurd he (hc _ _), h.injected.1⟩,
      fun pid sig he => absurd he (hc _ _), h.injected.2⟩
  · rw [hpid, hevents, List.countP_cons_of_neg (by rw [passes_of_not_resume hc]; simp)]
    exact hpending sig hsig
  · rw [hpid, hevents, resumed_cons l.pid hc]
    exact hfirst
  · rw [hpid, hevents]
    exact hanswered

/-- A call that neither resumes nor stops the tracee. -/
theorem quiet (h : Unspent l) (hc : c.isQuiet = true) (htarget : c.target = l.pid)
    (hevents : l'.events = c :: l.events) (hpid : l'.pid = l.pid) (hprocess : l'.process = l.process)
    (hsignal : l'.pendingSignal = l.pendingSignal) : Unspent l' := by
  refine h.tell (not_resume_of_quiet hc) htarget hevents hpid hprocess (fun sig hsig => ?_)
    (fun hr => ?_) fun sig => isForward_of_quiet hc _ _ _
  · rw [hsignal]
    refine (h.pending sig hsig).trans ?_
    rw [List.countP_cons]
    omega
  · rw [hsignal]
    exact h.first hr

/-- A resume by other than `wait_for_signal`, which passes the signal that is kept or none. -/
theorem resume (h : Unspent l) {req : Resume} {kept : Signal} (seen : Bool)
    (hreq : req = .singlestep ∧ kept = l.pendingSignal ∨ req = .cont l.pendingSignal ∧ kept = 0) :
    Unspent ({ l with pendingSignal := kept }.resume req seen) ∧
      resumed l.pid (.resume l.pid req :: l.events) = true := by
  have hforward : (Syscall.resume l.pid req).isForward l.events = false := by
    cases req with
    | singlestep => rfl
    | cont sig => exact h.answered sig
  have hresumed : resumed l.pid (.resume l.pid req :: l.events) = true := by
    rw [resumed, hforward]
    simp
  refine ⟨⟨?_, fun sig hsig => ?_, fun hr => ?_, fun sig => ?_, ?_⟩, hresumed⟩
  · rw [Life.resume_events]
    refine ⟨⟨fun pid sig he hsig => ?_, h.injected.1⟩, fun pid sig he hf hr => ?_, h.injected.2⟩
    · obtain ⟨rfl, rfl⟩ := Syscall.resume.inj he
      obtain ⟨hreq, -⟩ | ⟨hreq, -⟩ := hreq
      · cases hreq
      · have hpending := h.pending sig hsig
        rw [if_pos (Resume.cont.inj hreq).symm] at hpending
        exact hpending
    · obtain ⟨rfl, rfl⟩ := Syscall.resume.inj he
      obtain ⟨hreq, -⟩ | ⟨hreq, -⟩ := hreq
      · cases hreq
      · exact (Resume.cont.inj hreq).trans (h.first hr)
  · have hpending := h.pending sig hsig
    rw [Life.resume_pid, Life.resume_events, Life.resume_pendingSignal, List.countP_cons,
      List.countP_cons_of_neg (by simp [Syscall.stops])]
    obtain ⟨rfl, rfl⟩ | ⟨rfl, rfl⟩ := hreq
    · simpa [Syscall.passes] using hpending
    · simpa [Syscall.passes, hsig.symm] using hpending
  · rw [Life.resume_pid, Life.resume_events, hresumed] at hr
    cases hr
  · rw [Life.resume_pid, Life.resume_events]
    rfl
  · exact h.numbered.call (c := .resume l.pid req) rfl (Life.resume_events ..)
      (Life.resume_pid ..) (Life.resume_process ..)

/-- A silent stop, and the resume that hands its signal straight back. -/
theorem forward (h : Unspent l) {info : SigInfo} (hsilent : info.isSilent = true)
    (hevents : l'.events = .resume l.pid (.cont info.signo) ::
      .wait l.pid (some (.stopped info)) :: l.events)
    (hpid : l'.pid = l.pid) (hprocess : l'.process = l.process)
    (hsignal : l'.pendingSignal = l.pendingSignal) : Unspent l' := by
  set stop : Syscall := .wait l.pid (some (.stopped info)) with hstop
  have hforward : (Syscall.resume l.pid (.cont info.signo)).isForward (stop :: l.events) = true := by
    simp [stop, Syscall.isForward, hsilent]
  have hquiet : ∀ p req, stop ≠ .resume p req := by
    intro p req
    rw [hstop]
    exact fun he => by cases he
  refine ⟨?_, fun sig hsig => ?_, fun hr => ?_, fun sig => ?_, ?_⟩
  · rw [hevents]
    refine ⟨⟨fun pid sig he hsig => ?_, fun pid sig he => absurd he (hquiet _ _), h.injected.1⟩,
      fun pid sig he hf => ?_, fun pid sig he => absurd he (hquiet _ _), h.injected.2⟩
    · obtain ⟨rfl, hreq⟩ := Syscall.resume.inj he
      obtain rfl := Resume.cont.inj hreq
      rw [List.countP_cons_of_neg (by rw [passes_of_not_resume hquiet]; simp),
        List.countP_cons_of_pos (by simp [stop, Syscall.stops])]
      exact Nat.lt_succ_of_le (h.passes_le_stops hsig)
    · rw [hforward] at hf
      cases hf
  · have hpending := h.pending sig hsig
    rw [hpid, hevents, hsignal, List.countP_cons,
      List.countP_cons_of_neg (by rw [passes_of_not_resume hquiet]; simp),
      List.countP_cons_of_neg (p := Syscall.stops l.pid sig) (by simp [Syscall.stops]),
      List.countP_cons]
    by_cases hsig' : info.signo = sig
    · simpa [stop, Syscall.passes, Syscall.stops, hsig'] using by omega
    · simpa [stop, Syscall.passes, Syscall.stops, hsig', Ne.symm hsig'] using hpending
  · rw [hpid, hevents, resumed, hforward, resumed_cons l.pid hquiet] at hr
    rw [hsignal]
    exact h.first (by simpa using hr)
  · rw [hevents]
    rfl
  · have hstop : Numbered (l.call stop) := h.numbered.call rfl rfl rfl rfl
    exact hstop.call rfl hevents hpid hprocess

/-- A stop with a fatal signal, of a tracee that was resumed before. -/
theorem wait (h : Unspent l) {r : WaitResult}
    (hr : resumed l.pid l.events = true ∨ ∀ info, r = .got (.stopped info) → info.isFatal = false) :
    Unspent (l.wait r) := by
  rcases r with - | (code | sig | info)
  · exact h.quiet rfl rfl rfl rfl rfl rfl
  · exact h.quiet rfl rfl rfl rfl rfl rfl
  · exact h.quiet rfl rfl rfl rfl rfl rfl
  show Unspent (if info.isSilent then _ else _)
  by_cases hsilent : info.isSilent = true
  · rw [if_pos hsilent]
    have hfatal : info.isFatal = false := info.isFatal_of_silent hsilent
    refine h.forward hsilent ?_ ?_ ?_ ?_
    · rw [Life.resume_events]
      rfl
    · rw [Life.resume_pid]
      rfl
    · rw [Life.resume_process]
      rfl
    · rw [Life.resume_pendingSignal]
      show (if info.isFatal then _ else _) = _
      rw [hfatal]
      rfl
  · rw [if_neg hsilent]
    refine h.tell (c := .wait l.pid (some (.stopped info))) (fun _ _ he => by cases he) rfl rfl rfl
      rfl (fun sig hsig => ?_) (fun hfirst => ?_) fun sig => ?_
    · show _ + (if (if info.isFatal then info.signo else l.pendingSignal) = sig then 1 else 0) ≤ _
      have hpending := h.pending sig hsig
      rw [List.countP_cons]
      by_cases hfatal : info.isFatal = true
      · rw [if_pos hfatal]
        by_cases hsig' : info.signo = sig
        · simpa [Syscall.stops, hsig'] using h.passes_le_stops hsig
        · simpa [Syscall.stops, hsig'] using h.passes_le_stops hsig
      · rw [if_neg hfatal]
        omega
    · show (if info.isFatal then info.signo else l.pendingSignal) = 0
      rw [hfirst] at hr
      rw [hr.resolve_left (by simp) info rfl]
      exact h.first hfirst
    · simp [Syscall.isForward, hsilent]

theorem waits {R : WaitResult → Prop} (h : Unspent l) (hwaits : l.Waits R l') : Unspent l' := by
  cases hwaits with
  | step seen r _ _ =>
    obtain ⟨hl, hresumed⟩ := h.resume seen (.inl ⟨rfl, rfl⟩)
    refine hl.wait (.inl ?_)
    rw [Life.resume_pid, Life.resume_events]
    exact hresumed
  | cont seen r _ _ =>
    obtain ⟨hl, hresumed⟩ := h.resume seen (.inr ⟨rfl, rfl⟩)
    refine hl.wait (.inl ?_)
    rw [Life.resume_pid, Life.resume_events]
    exact hresumed

theorem kill (h : Unspent l) : Unspent l.kill :=
  h.quiet (c := .kill l.pid) rfl rfl rfl rfl rfl rfl

/-- A new process was neither stopped nor passed a signal before. -/
theorem fork (h : Unspent l) (hsignal : l.pendingSignal = 0) : Unspent l.fork := by
  obtain ⟨hnumbered, hnew⟩ := h.numbered.fork
  refine ⟨⟨⟨fun pid sig he => (by cases he), h.injected.1⟩, fun pid sig he => (by cases he),
    h.injected.2⟩, fun sig hsig => ?_, fun _ => hsignal, fun sig => rfl, hnumbered⟩
  show (_ :: _).countP _ + (if l.pendingSignal = sig then 1 else 0) ≤ (_ :: _).countP _
  rw [hsignal, if_neg hsig.symm, List.countP_cons_of_neg (by simp [Syscall.passes]),
    countP_eq_zero_of_target (p := Syscall.passes l.fork.pid sig) Syscall.target_of_passes hnew]
  exact Nat.zero_le _

end Unspent

/-- No signal is kept when a process is forked, and its first stop has no signal to keep. -/
def FreshStart (l : Life) (r : WaitResult) : Prop :=
  l.pendingSignal = 0 ∧ ∀ info, r = .got (.stopped info) → info.isFatal = false

theorem Unspent.step {R : WaitResult → Prop} {l l' : Life} (h : Unspent l)
    (hstep : l.Step R FreshStart l') : Unspent l' := by
  refine hstep.keeps (P := Unspent) Unspent.waits Unspent.kill (fun {l r load} h _ hfresh => ?_) h
  obtain ⟨hinjected, hpending, hfirst, hanswered, hnumbered⟩ :=
    (h.fork hfresh.1).wait (.inr hfresh.2)
  exact ⟨hinjected, hpending, hfirst, hanswered, hnumbered.targets, hnumbered.current⟩

theorem dbgInit_numbered : Numbered dbgInit.life := ⟨fun c hc => (by cases hc), rfl⟩

theorem dbgInit_unspent : Unspent dbgInit.life := by
  refine ⟨⟨trivial, trivial⟩, fun sig hsig => ?_, fun _ => rfl, fun _ => rfl,
    dbgInit_numbered⟩
  show 0 + (if 0 = sig then 1 else 0) ≤ 0
  rw [if_neg hsig.symm]

/-- **No foreign signals.** In a session whose processes are all forked while no signal is kept,
every signal that is passed to a process was its own and had not been passed before, and the first
resume of a process passes none. -/
theorem session_injected {cs : List Command} {w : World}
    (hfresh : Along (handleCommand k syms)
      (fun w c => ∀ w₁, c.SpawnsFrom k w w₁ → w₁.Allows k FreshStart) dbgInit cs)
    (hok : session k syms dbgInit cs = .ok w) : Injected w.tracee.events :=
  (session_life (R := fun _ => True) (P := Unspent) (fun _ _ _ _ => trivial) Unspent.step
    dbgInit_unspent hfresh hok).injected

/-- A process that stops with `SIGSEGV`, which is passed to it. -/
theorem session_injected_segfault : ∃ w,
    session (.scripted (fun _ => 0) [.stopped ⟨SIGTRAP, 0⟩, .stopped ⟨SIGSEGV, 1⟩,
      .stopped ⟨SIGABRT, 0⟩]) .stripped dbgInit [.run true, .continue] = .ok w ∧
    Injected w.tracee.events := by
  set k := Kernel.scripted (fun _ => 0) [.stopped ⟨SIGTRAP, 0⟩, .stopped ⟨SIGSEGV, 1⟩,
    .stopped ⟨SIGABRT, 0⟩] with hk
  obtain ⟨w, hw, -⟩ := exists_of_any (p := fun _ => true)
    (x := session k .stripped dbgInit [.run true, .continue]) (by decide +kernel)
  have hfresh : dbgInit.Allows k FreshStart := by
    intro r hr
    have hfirst : (dbgInit.tracee.fork k).waitResult k (dbgInit.tracee.fork k).pid =
      some (.got (.stopped ⟨SIGTRAP, 0⟩)) := rfl
    obtain rfl := Option.some.inj (hfirst.symm.trans hr)
    exact ⟨rfl, fun info he => by cases he; rfl⟩
  have halong : Along (handleCommand k .stripped)
      (fun w c => ∀ w₁, c.SpawnsFrom k w w₁ → w₁.Allows k FreshStart) dbgInit
      [.run true, .continue] := by
    refine ⟨fun w₁ hspawn => ?_, fun _ _ => ⟨fun _ hspawn => hspawn.elim, fun _ _ => trivial⟩⟩
    obtain rfl : w₁ = dbgInit := hspawn
    exact hfresh
  exact ⟨w, hw, session_injected halong hw⟩

/-- The first process stops with `SIGSEGV`, the second one is resumed with it. -/
theorem restart_injects : ∃ w,
    session (.scripted (fun _ => 0) [.stopped ⟨SIGTRAP, 0⟩, .stopped ⟨SIGSEGV, 1⟩,
      .stopped ⟨SIGTRAP, 0⟩, .stopped ⟨SIGABRT, 0⟩]) .stripped dbgInit [.run true, .restart] =
        .ok w ∧ ¬Injected w.tracee.events := by
  obtain ⟨w, hw, hevents⟩ := exists_of_any
    (p := fun w => w.tracee.events = [.wait 2 (some (.stopped ⟨SIGABRT, 0⟩)),
      .resume 2 (.cont SIGSEGV), .wait 2 (some (.stopped ⟨SIGTRAP, 0⟩)), .fork 2, .kill 1,
      .wait 1 (some (.stopped ⟨SIGSEGV, 1⟩)), .resume 1 (.cont 0),
      .wait 1 (some (.stopped ⟨SIGTRAP, 0⟩)), .fork 1])
    (x := session (.scripted (fun _ => 0) [.stopped ⟨SIGTRAP, 0⟩, .stopped ⟨SIGSEGV, 1⟩,
      .stopped ⟨SIGTRAP, 0⟩, .stopped ⟨SIGABRT, 0⟩]) .stripped dbgInit [.run true, .restart])
    (by decide +kernel)
  refine ⟨w, hw, fun h => ?_⟩
  rw [of_decide_eq_true hevents] at h
  -- the second call from the end passes a signal the second process never stopped with
  exact absurd (h.1.2.1 2 SIGSEGV rfl (by decide)) (by decide)

/-! ## No lost signals -/

/-- The signal of the stop in which the process was collected last, unless that was a `SIGTRAP` or the
process was resumed since. -/
def collected (pid : Pid) : List Syscall → Signal
  | [] => 0
  | .fork p :: cs => if p = pid then 0 else collected pid cs
  | .resume p _ :: cs => if p = pid then 0 else collected pid cs
  | .wait p (some (.stopped info)) :: cs =>
    if p = pid then if info.signo = SIGTRAP then 0 else info.signo else collected pid cs
  | _ :: cs => collected pid cs

/-- Whether the process was started or resumed since its last status, so that it may be in a stop
nobody has collected. -/
def unwatched (pid : Pid) : List Syscall → Bool
  | [] => false
  | .fork p :: cs => p = pid || unwatched pid cs
  | .resume p _ :: cs => p = pid || unwatched pid cs
  | .wait p (some _) :: cs => p ≠ pid && unwatched pid cs
  | _ :: cs => unwatched pid cs

/-- The signal the debugger keeps. -/
def kept : List Syscall → Signal
  | [] => 0
  | .wait _ (some (.stopped info)) :: cs => if info.isFatal then info.signo else kept cs
  | .resume _ (.cont sig) :: cs => if sig ∈ silentSignals then kept cs else 0
  | _ :: cs => kept cs

section Owed

/-! After some calls an unwatched process is in a stop by the signal `u` gives for them. That is 0
where it is in none, or in one by a `SIGTRAP`. -/

variable (u : List Syscall → Signal)

/-- The signal that is to be handed back at the next resume. -/
def owed (pid : Pid) (cs : List Syscall) : Signal :=
  if unwatched pid cs then u cs else collected pid cs

/-- Whether the process was in a stop by the signal, collected or when it was resumed. -/
def wasStopped (pid : Pid) (sig : Signal) : List Syscall → Bool
  | [] => false
  | .resume p _ :: cs => p = pid && unwatched pid cs && u cs = sig || wasStopped pid sig cs
  | c :: cs => c.stops pid sig || wasStopped pid sig cs

/-- A resume passes the signal that is owed, and no signal a second time. -/
def HandsBack (c : Syscall) (cs : List Syscall) : Prop :=
  ∀ pid req, c = .resume pid req →
    (owed u pid cs ≠ 0 → req = .cont (owed u pid cs)) ∧
    (owed u pid cs = 0 → ∀ sig, sig ≠ 0 → req = .cont sig → wasStopped u pid sig cs = false)

/-- After a stop with a signal the process is not resumed for a single step. If the stop was
collected, the debugger has a treatment for the signal. If not, it keeps that very signal, which is
one of an earlier process. -/
def Forwardable (c : Syscall) (cs : List Syscall) : Prop :=
  ∀ pid req, c = .resume pid req → owed u pid cs ≠ 0 → req ≠ .singlestep ∧
    (unwatched pid cs = false → collected pid cs ∈ SIGSEGV :: SIGABRT :: silentSignals) ∧
    (unwatched pid cs = true → kept cs = u cs)

end Owed

/-- Nothing is owed for a stop once the process was resumed. -/
theorem collected_of_unwatched {pid : Pid} {cs : List Syscall} (h : unwatched pid cs = true) :
    collected pid cs = 0 := by
  induction cs with
  | nil => rfl
  | cons c cs ih =>
    cases c with
    | fork p => exact ite_eq_left_iff.mpr fun hne => ih (by simpa [unwatched, hne] using h)
    | resume p req => exact ite_eq_left_iff.mpr fun hne => ih (by simpa [unwatched, hne] using h)
    | wait p status =>
      rcases status with - | status
      · exact ih h
      obtain ⟨hne, hrest⟩ : p ≠ pid ∧ unwatched pid cs = true := by simpa [unwatched] using h
      rcases status with - | - | info
      · exact ih hrest
      · exact ih hrest
      · exact (if_neg hne).trans (ih hrest)
    | _ => exact ih h

/-- A process that no call is about was never stopped. -/
theorem wasStopped_of_target {u : List Syscall → Signal} {pid : Pid} {sig : Signal}
    {cs : List Syscall} (hcs : ∀ c ∈ cs, c.target ≠ pid) : wasStopped u pid sig cs = false := by
  induction cs with
  | nil => rfl
  | cons c cs ih =>
    have htarget := hcs c List.mem_cons_self
    have hrest := ih fun c hc => hcs c (List.mem_cons_of_mem _ hc)
    have hstops : c.stops pid sig = false :=
      Bool.eq_false_iff.mpr fun h => htarget (Syscall.target_of_stops h)
    cases c with
    | resume p req =>
      have hne : p ≠ pid := htarget
      simp [wasStopped, hne, hrest]
    | _ => simp [wasStopped, hstops, hrest]

section Quiet

variable {u : List Syscall → Signal} {c : Syscall} (hc : c.isQuiet = true)

include hc

theorem collected_of_quiet (hfork : ∀ p, c ≠ .fork p) (pid : Pid) (cs : List Syscall) :
    collected pid (c :: cs) = collected pid cs := by
  cases c with
  | fork p => exact absurd rfl (hfork p)
  | resume p req => cases hc
  | wait p status =>
    rcases status with - | (- | - | info)
    · rfl
    · rfl
    · rfl
    · cases hc
  | _ => rfl

theorem kept_of_quiet (cs : List Syscall) : kept (c :: cs) = kept cs := by
  cases c with
  | resume p req => cases hc
  | wait p status =>
    rcases status with - | (- | - | info)
    · rfl
    · rfl
    · rfl
    · cases hc
  | _ => rfl

theorem wasStopped_of_quiet (pid : Pid) (sig : Signal) (cs : List Syscall) :
    wasStopped u pid sig (c :: cs) = wasStopped u pid sig cs := by
  have hstops := stops_of_quiet hc pid sig
  cases c with
  | resume p req => cases hc
  | _ => rw [wasStopped, hstops, Bool.false_or]; exact fun _ _ he => by cases he

end Quiet

/-- What holds of a life at any time. -/
structure Owing (u : List Syscall → Signal) (l : Life) : Prop where
  agrees : Each (HandsBack u) l.events ↔ Each (Forwardable u) l.events
  slot : kept l.events = l.pendingSignal
  fatal : l.pendingSignal = 0 ∨ l.pendingSignal = SIGSEGV ∨ l.pendingSignal = SIGABRT
  silent : collected l.pid l.events ∉ silentSignals
  due : collected l.pid l.events = SIGSEGV ∨ collected l.pid l.events = SIGABRT →
    l.pendingSignal = collected l.pid l.events
  stale : Each (Forwardable u) l.events → l.pendingSignal ≠ 0 →
    l.pendingSignal = collected l.pid l.events ∨
      wasStopped u l.pid l.pendingSignal l.events = false
  numbered : Numbered l

/-- Calls on which a condition on resumes says the same. -/
theorem each_cons_iff {P Q : Syscall → List Syscall → Prop} {c : Syscall} {cs : List Syscall}
    (hcs : Each P cs ↔ Each Q cs) (hc : Each Q cs → (P c cs ↔ Q c cs)) :
    Each P (c :: cs) ↔ Each Q (c :: cs) := by
  constructor
  · rintro ⟨h, hP⟩
    have hQ := hcs.mp hP
    exact ⟨(hc hQ).mp h, hQ⟩
  · rintro ⟨h, hQ⟩
    exact ⟨(hc hQ).mpr h, hcs.mpr hQ⟩

theorem handsBack_iff_forwardable_of_quiet {u : List Syscall → Signal} {c : Syscall}
    {cs : List Syscall} (hc : ∀ p req, c ≠ .resume p req) : HandsBack u c cs ↔ Forwardable u c cs :=
  iff_of_true (fun _ _ he => absurd he (hc _ _)) fun _ _ he => absurd he (hc _ _)

namespace Owing

variable {u : List Syscall → Signal} {l l' : Life} {c : Syscall}

theorem pending_not_silent (h : Owing u l) : l.pendingSignal ∉ silentSignals := by
  obtain h0 | hsegv | habrt := h.fatal
  · rw [h0]
    decide
  · rw [hsegv]
    decide
  · rw [habrt]
    decide

/-- Where nothing is owed, the signal that is kept is no longer one of this process. -/
theorem wasStopped_of_not_owed (h : Owing u l) (hall : Each (Forwardable u) l.events)
    (hkept : l.pendingSignal ≠ 0) (howed : owed u l.pid l.events = 0) :
    wasStopped u l.pid l.pendingSignal l.events = false := by
  refine (h.stale hall hkept).resolve_left fun hdue => hkept ?_
  unfold owed at howed
  split_ifs at howed with hun
  · rw [hdue, collected_of_unwatched hun]
  · rw [hdue, howed]

/-- A resume by other than `wait_for_signal` hands back what is owed where the condition says. -/
theorem handsBack_iff_forwardable (h : Owing u l) {req : Resume}
    (hreq : req = .singlestep ∨ req = .cont l.pendingSignal)
    (hall : Each (Forwardable u) l.events) :
    HandsBack u (.resume l.pid req) l.events ↔ Forwardable u (.resume l.pid req) l.events := by
  constructor
  · intro hback pid req' he howed
    obtain ⟨rfl, rfl⟩ := Syscall.resume.inj he
    have hpassed := (hback l.pid req rfl).1 howed
    obtain rfl | rfl := hreq
    · cases hpassed
    have hpending := Resume.cont.inj hpassed
    refine ⟨nofun, fun hwatched => ?_, fun hunwatched => ?_⟩
    · rw [owed, if_neg (by rw [hwatched]; simp)] at hpending howed
      rw [← hpending] at howed ⊢
      obtain h0 | hfatal | hfatal := h.fatal
      · exact absurd h0 howed
      · rw [hfatal]
        exact List.mem_cons_self
      · rw [hfatal]
        exact List.mem_cons_of_mem _ List.mem_cons_self
    · rw [owed, if_pos hunwatched] at hpending
      rw [h.slot, hpending]
  · intro hforward pid req' he
    obtain ⟨rfl, rfl⟩ := Syscall.resume.inj he
    refine ⟨fun howed => ?_, fun howed sig hsig hpassed => ?_⟩
    · obtain ⟨hstep, hwatched, hunwatched⟩ := hforward l.pid req rfl howed
      obtain rfl := hreq.resolve_left hstep
      unfold owed
      by_cases hun : unwatched l.pid l.events = true
      · rw [if_pos hun, ← hunwatched hun, h.slot]
      · have hmem := hwatched (Bool.eq_false_of_not_eq_true hun)
        have hfatal : collected l.pid l.events = SIGSEGV ∨ collected l.pid l.events = SIGABRT := by
          simpa [h.silent] using hmem
        rw [if_neg hun, h.due hfatal]
    · obtain rfl | rfl := hreq
      · cases hpassed
      · obtain rfl := Resume.cont.inj hpassed
        exact h.wasStopped_of_not_owed hall hsig howed

/-- A call that neither resumes nor stops the tracee. -/
theorem quiet (h : Owing u l) (hc : c.isQuiet = true) (hfork : ∀ p, c ≠ .fork p)
    (htarget : c.target = l.pid) (hevents : l'.events = c :: l.events) (hpid : l'.pid = l.pid)
    (hprocess : l'.process = l.process) (hsignal : l'.pendingSignal = l.pendingSignal) :
    Owing u l' := by
  have hcollected := collected_of_quiet hc hfork l.pid l.events
  refine ⟨?_, ?_, ?_, ?_, ?_, ?_, h.numbered.call htarget hevents hpid hprocess⟩
  · rw [hevents]
    exact each_cons_iff h.agrees fun _ =>
      handsBack_iff_forwardable_of_quiet (not_resume_of_quiet hc)
  · rw [hevents, hsignal, kept_of_quiet hc]
    exact h.slot
  · rw [hsignal]
    exact h.fatal
  · rw [hpid, hevents, hcollected]
    exact h.silent
  · rw [hpid, hevents, hcollected, hsignal]
    exact h.due
  · rw [hpid, hevents, hcollected, hsignal, wasStopped_of_quiet hc]
    exact fun hall => h.stale hall.2

/-- A resume by other than `wait_for_signal`: no collected stop is owed for after it. -/
theorem resume (h : Owing u l) {req : Resume} {sig : Signal} (seen : Bool)
    (hreq : req = .singlestep ∧ sig = l.pendingSignal ∨ req = .cont l.pendingSignal ∧ sig = 0) :
    Owing u ({ l with pendingSignal := sig }.resume req seen) ∧
      collected l.pid (.resume l.pid req :: l.events) = 0 := by
  have hcollected : collected l.pid (.resume l.pid req :: l.events) = 0 := if_pos rfl
  refine ⟨⟨?_, ?_, ?_, ?_, ?_, ?_, ?_⟩, hcollected⟩
  · rw [Life.resume_events]
    exact each_cons_iff h.agrees
      (h.handsBack_iff_forwardable (hreq.imp And.left And.left))
  · rw [Life.resume_events, Life.resume_pendingSignal]
    obtain ⟨rfl, rfl⟩ | ⟨rfl, rfl⟩ := hreq
    · exact h.slot
    · -- the signal that is kept is none of the silent ones
      exact if_neg h.pending_not_silent
  · rw [Life.resume_pendingSignal]
    obtain ⟨-, rfl⟩ | ⟨-, rfl⟩ := hreq
    · exact h.fatal
    · exact .inl rfl
  · rw [Life.resume_pid, Life.resume_events, hcollected]
    decide
  · rw [Life.resume_pid, Life.resume_events, hcollected]
    intro hfatal
    exact absurd hfatal (by decide)
  · rw [Life.resume_pid, Life.resume_events, Life.resume_pendingSignal, hcollected]
    rintro ⟨hforward, hall⟩ hsignal
    obtain ⟨rfl, rfl⟩ | ⟨rfl, rfl⟩ := hreq
    · -- a single step is allowed only where nothing is owed
      have hnone : owed u l.pid l.events = 0 := by
        by_contra hne
        exact (hforward l.pid _ rfl hne).1 rfl
      have hnew := h.wasStopped_of_not_owed hall hsignal hnone
      refine .inr ?_
      have hseen : unwatched l.pid l.events = true → u l.events ≠ l.pendingSignal := by
        intro hun he
        rw [owed, if_pos hun] at hnone
        exact hsignal (he.symm.trans hnone)
      simpa [wasStopped, hnew] using hseen
    · exact absurd rfl hsignal
  · exact h.numbered.call (c := .resume l.pid req) rfl (Life.resume_events ..)
      (Life.resume_pid ..) (Life.resume_process ..)

/-- A stop, where nothing is owed before it. -/
theorem stop (h : Owing u l) {info : SigInfo} (hcollected : collected l.pid l.events = 0)
    (hsilent : info.isSilent = false)
    (hevents : l'.events = .wait l.pid (some (.stopped info)) :: l.events)
    (hpid : l'.pid = l.pid) (hprocess : l'.process = l.process)
    (hsignal : l'.pendingSignal = if info.isFatal then info.signo else l.pendingSignal) :
    Owing u l' := by
  have hdue : collected l.pid (.wait l.pid (some (.stopped info)) :: l.events) =
      if info.signo = SIGTRAP then 0 else info.signo := if_pos rfl
  refine ⟨?_, ?_, ?_, ?_, fun hfatal => ?_, ?_, h.numbered.call (by rfl) hevents hpid hprocess⟩
  · rw [hevents]
    exact each_cons_iff h.agrees fun _ =>
      handsBack_iff_forwardable_of_quiet fun _ _ he => by cases he
  · rw [hevents, hsignal, ← h.slot]
    rfl
  · rw [hsignal]
    split_ifs with hfatal
    · exact .inr (by simpa [SigInfo.isFatal] using hfatal)
    · exact h.fatal
  · rw [hpid, hevents, hdue]
    split_ifs
    · decide
    · exact of_decide_eq_false hsilent
  · rw [hpid, hevents, hdue] at hfatal ⊢
    split_ifs at hfatal ⊢ with htrap
    · exact absurd hfatal (by decide)
    · rw [hsignal, if_pos (by simpa [SigInfo.isFatal] using hfatal)]
  · rw [hpid, hevents, hdue, hsignal]
    rintro ⟨-, hall⟩ hkept
    by_cases hfatal : info.isFatal = true
    · rw [if_pos hfatal, if_neg fun htrap => ?_]
      · exact .inl rfl
      · rw [SigInfo.isFatal, htrap] at hfatal
        exact absurd hfatal (by decide)
    · rw [if_neg hfatal] at hkept ⊢
      have hnone := (h.stale hall hkept).resolve_left (by rwa [hcollected])
      refine .inr ?_
      have hother : info.signo ≠ l.pendingSignal := by
        -- the signal that is kept is a fatal one
        intro hsig
        refine hfatal ?_
        rw [SigInfo.isFatal, hsig]
        obtain h0 | hsegv | habrt := h.fatal
        · exact absurd h0 hkept
        · rw [hsegv]
          rfl
        · rw [habrt]
          rfl
      simpa [wasStopped, Syscall.stops, hother] using hnone

/-- A silent stop, and the resume that hands its signal straight back. -/
theorem forward (h : Owing u l) {info : SigInfo} (hcollected : collected l.pid l.events = 0)
    (hsilent : info.isSilent = true)
    (hevents : l'.events = .resume l.pid (.cont info.signo) ::
      .wait l.pid (some (.stopped info)) :: l.events)
    (hpid : l'.pid = l.pid) (hprocess : l'.process = l.process)
    (hsignal : l'.pendingSignal = l.pendingSignal) : Owing u l' := by
  set stop : Syscall := .wait l.pid (some (.stopped info)) with hstop
  have hmem : info.signo ∈ silentSignals := of_decide_eq_true hsilent
  have htrap : info.signo ≠ SIGTRAP := fun he => by
    rw [he] at hmem
    exact absurd hmem (by decide)
  have hwatched : unwatched l.pid (stop :: l.events) = false := by simp [stop, unwatched]
  have hdue : collected l.pid (stop :: l.events) = info.signo := (if_pos rfl).trans (if_neg htrap)
  have howed : owed u l.pid (stop :: l.events) = info.signo :=
    (if_neg (by rw [hwatched]; simp)).trans hdue
  have hcollected' : collected l.pid (.resume l.pid (.cont info.signo) :: stop :: l.events) = 0 :=
    if_pos rfl
  have hcalled : Numbered (l.call stop) := h.numbered.call rfl rfl rfl rfl
  refine ⟨?_, ?_, ?_, ?_, ?_, ?_, hcalled.call rfl hevents hpid hprocess⟩
  · rw [hevents]
    have hquiet : ∀ p req, stop ≠ .resume p req := by
      intro p req
      rw [hstop]
      exact fun he => by cases he
    refine each_cons_iff (each_cons_iff h.agrees fun _ =>
      handsBack_iff_forwardable_of_quiet hquiet) fun _ => iff_of_true ?_ ?_
    · intro pid req he
      obtain ⟨rfl, rfl⟩ := Syscall.resume.inj he
      rw [howed]
      refine ⟨fun _ => rfl, fun h0 => ?_⟩
      rw [h0] at hmem
      exact absurd hmem (by decide)
    · intro pid req he _
      obtain ⟨rfl, rfl⟩ := Syscall.resume.inj he
      refine ⟨nofun, fun _ => ?_, fun hun => ?_⟩
      · rw [hdue]
        exact List.mem_cons_of_mem _ (List.mem_cons_of_mem _ hmem)
      · rw [hwatched] at hun
        cases hun
  · rw [hevents, hsignal, ← h.slot, kept, if_pos hmem]
    exact if_neg (by rw [info.isFatal_of_silent hsilent]; simp)
  · rw [hsignal]
    exact h.fatal
  · rw [hpid, hevents, hcollected']
    decide
  · rw [hpid, hevents, hcollected']
    intro hfatal
    exact absurd hfatal (by decide)
  · rw [hpid, hevents, hcollected', hsignal]
    rintro ⟨-, -, hall⟩ hkept
    have hnone := (h.stale hall hkept).resolve_left (by rwa [hcollected])
    refine .inr ?_
    have hother : info.signo ≠ l.pendingSignal := fun hsig => h.pending_not_silent (hsig ▸ hmem)
    simpa [wasStopped, hwatched, stop, Syscall.stops, hother] using hnone

theorem wait (h : Owing u l) (hcollected : collected l.pid l.events = 0) (r : WaitResult) :
    Owing u (l.wait r) := by
  rcases r with - | (code | sig | info)
  · exact h.quiet rfl (fun _ he => by cases he) rfl rfl rfl rfl rfl
  · exact h.quiet rfl (fun _ he => by cases he) rfl rfl rfl rfl rfl
  · exact h.quiet rfl (fun _ he => by cases he) rfl rfl rfl rfl rfl
  show Owing u (if info.isSilent then _ else _)
  by_cases hsilent : info.isSilent = true
  · rw [if_pos hsilent]
    refine h.forward hcollected hsilent ?_ ?_ ?_ ?_
    · rw [Life.resume_events]
      rfl
    · rw [Life.resume_pid]
      rfl
    · rw [Life.resume_process]
      rfl
    · rw [Life.resume_pendingSignal]
      show (if info.isFatal then _ else _) = _
      rw [info.isFatal_of_silent hsilent]
      rfl
  · rw [if_neg hsilent]
    exact h.stop hcollected (Bool.eq_false_of_not_eq_true hsilent) rfl rfl rfl rfl

theorem waits {R : WaitResult → Prop} (h : Owing u l) (hwaits : l.Waits R l') : Owing u l' := by
  cases hwaits with
  | step seen r _ _ =>
    obtain ⟨hl, hcollected⟩ := h.resume seen (.inl ⟨rfl, rfl⟩)
    refine hl.wait ?_ r
    rw [Life.resume_pid, Life.resume_events]
    exact hcollected
  | cont seen r _ _ =>
    obtain ⟨hl, hcollected⟩ := h.resume seen (.inr ⟨rfl, rfl⟩)
    refine hl.wait ?_ r
    rw [Life.resume_pid, Life.resume_events]
    exact hcollected

theorem kill (h : Owing u l) : Owing u l.kill :=
  h.quiet (c := .kill l.pid) rfl (fun _ he => by cases he) rfl rfl rfl rfl rfl

/-- A new process was in no stop. -/
theorem fork (h : Owing u l) : Owing u l.fork ∧ collected l.fork.pid l.fork.events = 0 := by
  obtain ⟨hnumbered, hnew⟩ := h.numbered.fork
  have hcollected : collected l.fork.pid l.fork.events = 0 := if_pos rfl
  refine ⟨⟨?_, h.slot, h.fatal, ?_, fun hfatal => ?_, fun _ _ => .inr ?_, hnumbered⟩, hcollected⟩
  · exact each_cons_iff h.agrees fun _ => handsBack_iff_forwardable_of_quiet fun _ _ he => by cases he
  · rw [hcollected]
    decide
  · rw [hcollected] at hfatal
    exact absurd hfatal (by decide)
  · exact (wasStopped_of_quiet (c := .fork l.fork.pid) rfl _ _ _).trans (wasStopped_of_target hnew)

theorem step {R : WaitResult → Prop} {F : Life → WaitResult → Prop} (h : Owing u l)
    (hstep : l.Step R F l') : Owing u l' := by
  refine hstep.keeps (P := Owing u) Owing.waits Owing.kill (fun {l r load} h _ _ => ?_) h
  obtain ⟨hfork, hcollected⟩ := h.fork
  obtain ⟨hagrees, hslot, hfatal, hsilent, hdue, hstale, hnumbered⟩ := hfork.wait hcollected r
  exact ⟨hagrees, hslot, hfatal, hsilent, hdue, hstale, hnumbered.targets, hnumbered.current⟩

end Owing

theorem dbgInit_owing (u : List Syscall → Signal) : Owing u dbgInit.life :=
  ⟨iff_of_true trivial trivial, rfl, .inl rfl, by decide, fun h => absurd h (by decide),
    fun _ h => absurd rfl h, dbgInit_numbered⟩

/-- **No lost signals.** Whatever stops nobody collects, every resume of a session hands back what it
owes, and nothing twice, if and only if no resume after a stop with a signal is a single step, and
each is after a stop that was collected, with a signal the debugger has a treatment for, or passes a
signal that was kept for an earlier process and happens to be the one. -/
theorem session_handsBack_iff {cs : List Command} {w : World} (u : List Syscall → Signal)
    (hok : session k syms dbgInit cs = .ok w) :
    Each (HandsBack u) w.tracee.events ↔ Each (Forwardable u) w.tracee.events := by
  have halong : Along (handleCommand k syms)
      (fun w c => ∀ w₁, c.SpawnsFrom k w w₁ → w₁.Allows k fun _ _ => True) dbgInit cs :=
    Along.of_forall (fun _ _ _ _ _ _ _ => trivial) dbgInit
  exact (session_life (R := fun _ => True) (P := Owing u) (fun _ _ _ _ => trivial) Owing.step
    (dbgInit_owing u) halong hok).agrees

/-- A process that is passed the `SIGSEGV` it stopped with. -/
theorem session_handsBack_iff_segfault : ∃ w,
    session (.scripted (fun _ => 0) [.stopped ⟨SIGTRAP, 0⟩, .stopped ⟨SIGSEGV, 1⟩,
      .stopped ⟨SIGTRAP, 0⟩]) .stripped dbgInit [.run true, .continue] = .ok w ∧
    (Each (HandsBack fun _ => 0) w.tracee.events ↔
      Each (Forwardable fun _ => 0) w.tracee.events) := by
  obtain ⟨w, hw, -⟩ := exists_of_any (p := fun _ => true) (x := session
    (.scripted (fun _ => 0) [.stopped ⟨SIGTRAP, 0⟩, .stopped ⟨SIGSEGV, 1⟩, .stopped ⟨SIGTRAP, 0⟩])
    .stripped dbgInit [.run true, .continue]) (by decide +kernel)
  exact ⟨w, hw, session_handsBack_iff _ hw⟩

/-- A process left running with a `SIGALRM`, which is in a stop again before the next command. -/
def stoppingUnseen : Kernel :=
  { Kernel.scripted (fun _ => 0) [.stopped ⟨SIGTRAP, 0⟩, .stopped ⟨SIGALRM, 0⟩,
      .stopped ⟨SIGTRAP, 0⟩] with
    unseenStop := fun _ => true }

/-- A process that stops with `SIGUSR1`, which is 10, is resumed with no signal. So is one whose stop
with a `SIGABRT` nobody has collected. -/
theorem continue_loses_signal :
    (∃ w, session (.scripted (fun _ => 0) [.stopped ⟨SIGTRAP, 0⟩, .stopped ⟨10, 0⟩,
        .stopped ⟨SIGTRAP, 0⟩]) .stripped dbgInit [.run true, .continue] = .ok w ∧
      ¬Each (HandsBack fun _ => 0) w.tracee.events) ∧
    ∃ w, session stoppingUnseen .stripped dbgInit [.run true, .continue] = .ok w ∧
      ¬Each (HandsBack fun cs => if cs.length = 5 then SIGABRT else 0) w.tracee.events := by
  constructor
  · obtain ⟨w, hw, hevents⟩ := exists_of_any
      (p := fun w => w.tracee.events = [.wait 1 (some (.stopped ⟨SIGTRAP, 0⟩)),
        .resume 1 (.cont 0), .wait 1 (some (.stopped ⟨10, 0⟩)), .resume 1 (.cont 0),
        .wait 1 (some (.stopped ⟨SIGTRAP, 0⟩)), .fork 1])
      (x := session (.scripted (fun _ => 0) [.stopped ⟨SIGTRAP, 0⟩, .stopped ⟨10, 0⟩,
        .stopped ⟨SIGTRAP, 0⟩]) .stripped dbgInit [.run true, .continue]) (by decide +kernel)
    refine ⟨w, hw, fun h => ?_⟩
    rw [of_decide_eq_true hevents] at h
    exact absurd ((h.2.1 1 _ rfl).1 (by decide)) (by decide)
  · obtain ⟨w, hw, hevents⟩ := exists_of_any
      (p := fun w => w.tracee.events = [.wait 1 (some (.stopped ⟨SIGTRAP, 0⟩)),
        .resume 1 (.cont 0), .resume 1 (.cont SIGALRM), .wait 1 (some (.stopped ⟨SIGALRM, 0⟩)),
        .resume 1 (.cont 0), .wait 1 (some (.stopped ⟨SIGTRAP, 0⟩)), .fork 1])
      (x := session stoppingUnseen .stripped dbgInit [.run true, .continue]) (by decide +kernel)
    refine ⟨w, hw, fun h => ?_⟩
    rw [of_decide_eq_true hevents] at h
    exact absurd ((h.2.1 1 _ rfl).1 (by decide)) (by decide)

end Vdbg
