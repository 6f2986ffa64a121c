import Vdbg.Lifecycle

/-!
# Whether the tracee is there

At a prompt `state` is to tell whether there is a tracee, and a tracee that is there is to be in a
stop. The first fails where the end of a process goes unnoticed or `spawn_tracee` overrules it, the
second where `wait_for_signal` has resumed the tracee by itself.
-/

namespace Vdbg

open FaultRun

variable {k : Kernel} {syms : Symbols} {w w' : World}

/-! ## A truthful state -/

/-- The state is `ACTIVE` while the process forked last exists and its end was not collected. -/
structure Life.Truthful (l : Life) : Prop where
  active : l.state = .active ↔ l.Alive
  idle : l.state ≠ .active → l.loadAddress = 0
  current : l.pid = l.process

/-- The first `waitpid` on a process does not report its end. -/
def Begins (_ : Life) (r : WaitResult) : Prop := ∀ status, r = .got status → status.task ≠ .gone

/-- What a stop leaves as it was, also where the tracee is resumed at once. -/
theorem Life.wait_stopped (l : Life) (info : SigInfo) :
    (l.wait (.got (.stopped info))).state = l.state ∧
    (l.wait (.got (.stopped info))).loadAddress = l.loadAddress ∧
    (l.wait (.got (.stopped info))).pid = l.pid ∧
    (l.wait (.got (.stopped info))).process = l.process ∧
    (l.wait (.got (.stopped info))).task ≠ .gone := by
  unfold Life.wait
  dsimp only
  split
  · refine ⟨Life.resume_state .., Life.resume_loadAddress .., Life.resume_pid ..,
      Life.resume_process .., Life.resume_task_ne_gone fun he => by cases he⟩
  · exact ⟨rfl, rfl, rfl, rfl, fun he => by cases he⟩

namespace Life.Truthful

variable {l l' : Life}

theorem resume (h : l.Truthful) {req : Resume} {seen : Bool} (kept : Signal) :
    ({ l with pendingSignal := kept }.resume req seen).Truthful := by
  constructor
  · rw [Life.resume_state, Life.alive_resume]
    exact h.active
  · rw [Life.resume_state, Life.resume_loadAddress]
    exact h.idle
  · rw [Life.resume_pid, Life.resume_process]
    exact h.current

theorem wait (h : l.Truthful) {r : WaitResult} (hr : r.Possible l) : (l.wait r).Truthful := by
  rcases r with - | (code | sig | info)
  · exact ⟨h.active, h.idle, h.current⟩
  · exact ⟨iff_of_false (fun he => by cases he) fun he => he.2 rfl, fun _ => rfl, h.current⟩
  · exact ⟨iff_of_false (fun he => by cases he) fun he => he.2 rfl, fun _ => rfl, h.current⟩
  · obtain ⟨hstate, hload, hpid, hprocess, htask⟩ := l.wait_stopped info
    have halive : l.Alive := hr.resolve_left fun he => by cases he
    refine ⟨?_, ?_, by rw [hpid, hprocess, h.current]⟩
    · rw [hstate]
      exact iff_of_true (h.active.mpr halive) ⟨by rw [hpid, hprocess, h.current], htask⟩
    · rw [hstate, hload]
      exact h.idle

theorem waits {R : WaitResult → Prop} (h : l.Truthful) (hwaits : l.Waits R l') : l'.Truthful := by
  cases hwaits with
  | step seen r hr _ =>
    exact (h.resume l.pendingSignal).wait (hr.imp_right Life.alive_resume.mpr)
  | cont seen r hr _ => exact (h.resume 0).wait (hr.imp_right Life.alive_resume.mpr)

theorem kill (h : l.Truthful) : l.kill.Truthful := by
  refine ⟨iff_of_false (fun he => by cases he) ?_, fun _ => rfl, h.current⟩
  rintro ⟨hpid, htask⟩
  change (if l.Alive then Task.gone else l.task) ≠ .gone at htask
  by_cases halive : l.Alive
  · rw [if_pos halive] at htask
    exact htask rfl
  · rw [if_neg halive] at htask
    exact halive ⟨hpid, htask⟩

/-- A new process is there, unless its first `waitpid` reports its end. -/
theorem start {r : WaitResult} {load : Addr} (hfirst : Begins l r) :
    (l.start r load).Truthful := by
  have hidle : (l.start r load).state ≠ .active → (l.start r load).loadAddress = 0 :=
    fun he => absurd rfl he
  rcases r with - | (code | sig | info)
  · exact ⟨iff_of_true rfl ⟨rfl, fun he => by cases he⟩, hidle, rfl⟩
  · exact absurd rfl (hfirst _ rfl)
  · exact absurd rfl (hfirst _ rfl)
  · obtain ⟨-, -, hpid, hprocess, htask⟩ := l.fork.wait_stopped info
    have hcurrent : (l.start (.got (.stopped info)) load).pid =
        (l.start (.got (.stopped info)) load).process := hpid.trans hprocess.symm
    exact ⟨iff_of_true rfl ⟨hcurrent, htask⟩, hidle, hcurrent⟩

theorem step {R : WaitResult → Prop} (h : l.Truthful) (hstep : l.Step R Begins l') : l'.Truthful :=
  hstep.keeps (P := Life.Truthful) waits kill (fun _ _ hfirst => start hfirst) h

end Life.Truthful

/-! ## The end of the debugger -/

/-- Breakpoints that have no location are freed. -/
theorem freeBps_detached {bs : List BpPtr} (hnodup : bs.Nodup)
    (hbs : ∀ b ∈ bs, ∃ bp, w.bps b = some bp ∧ bp.location = none) :
    ∃ w', freeBps k w bs = .ok w' ∧ w'.bpLocations = w.bpLocations := by
  induction bs generalizing w with
  | nil => exact ⟨w, rfl, rfl⟩
  | cons b bs ih =>
    obtain ⟨bp, hb, hl⟩ := hbs b List.mem_cons_self
    rw [List.nodup_cons] at hnodup
    obtain ⟨w', hrest, hmap⟩ := ih (w := w.freeBp b) hnodup.2 fun q hq => by
      have hne : q ≠ b := fun he => hnodup.1 (he ▸ hq)
      obtain ⟨bq, hbq, hlq⟩ := hbs q (List.mem_cons_of_mem _ hq)
      exact ⟨bq, by simpa [World.freeBp, hne] using hbq, hlq⟩
    exact ⟨w', foldlM_cons_eq_ok.mpr ⟨_, bpFree_detached_eq hb hl, hrest⟩, hmap⟩

/-- Without locations `dbg_free` passes its assertion. -/
theorem dbgFree_ok (h : Ready w []) (hidle : w.state ≠ .active) : ∃ w', dbgFree k w = .ok w' := by
  have hnone := h.inactive_none hidle
  obtain ⟨ht, hht, hcf⟩ := h.registry.table
  have hfind : ∀ id b, ht.find id = some b ↔ ∃ bp, w.bps b = some bp ∧ bp.id = id := by
    intro id b
    rw [← h.registry.lookup, hht]
    rfl
  have hnodup : ht.objects.Nodup := by
    refine ht.objects_nodup fun id id' b hb hb' => ?_
    obtain ⟨bp, hbp, rfl⟩ := (hfind id b).mp hb
    obtain ⟨bp', hbp', rfl⟩ := (hfind id' b).mp hb'
    rw [Option.some.inj (hbp.symm.trans hbp')]
  obtain ⟨w', hfree, hmap⟩ := freeBps_detached (k := k) (w := w) hnodup fun b hb => by
    obtain ⟨id, hid⟩ := ht.mem_objects.mp hb
    obtain ⟨bp, hbp, -⟩ := (hfind id b).mp hid
    exact ⟨bp, hbp, h.detached hidle hbp⟩
  refine ⟨w', ?_⟩
  unfold dbgFree mapFree
  rw [hht]
  dsimp only
  rw [if_pos hcf, hfree, ok_bind, hmap, hnone]
  rfl

/-- **The state tells the truth.** In a session whose processes all live through their first
`waitpid`, the state is `ACTIVE` at a prompt exactly while there are locations and exactly while the
process forked last exists, and the debugger is freed without a failed assertion. -/
theorem session_truthful {cs : List Command}
    (hbegins : Along (handleCommand k syms)
      (fun w c => ∀ w₁, c.SpawnsFrom k w w₁ → w₁.Allows k Begins) dbgInit cs)
    (hok : session k syms dbgInit cs = .ok w) :
    (w.state = .active ↔ w.bpLocations.isSome) ∧
    (w.state = .active ↔ w.pid = w.tracee.pid ∧ w.tracee.task ≠ .gone) ∧
    (w.state ≠ .active → w.loadAddress = 0) ∧
    ∀ answer w', dbgKillTracee k w answer = .ok (true, w') →
      w'.bpLocations = none ∧ ∃ w'', dbgFree k w' = .ok w'' := by
  have hready := session_ready dbgInit_ready hok
  have htrue : w.life.Truthful := session_life (R := fun _ => True) (P := Life.Truthful)
    (fun _ _ _ _ => trivial) Life.Truthful.step ⟨by decide, fun _ => rfl, rfl⟩ hbegins hok
  refine ⟨hready.state, htrue.active, htrue.idle, fun answer w' hkill => ?_⟩
  have hready' := (dbgKillTracee_kept hready hkill).ready
  have hidle' : w'.state ≠ .active := by
    unfold dbgKillTracee at hkill
    by_cases hact : w.state = .active
    · rw [if_pos ⟨hact, w.alive_iff.mpr (htrue.active.mp hact)⟩] at hkill
      cases answer with
      | true =>
        obtain ⟨w₁, hkill, hok⟩ := bind_eq_ok.mp hkill
        cases hok
        exact (killTracee_kept hready hkill).2
      | false => cases hkill
    · rw [if_neg fun h => hact h.1] at hkill
      cases hkill
      exact hact
  exact ⟨hready'.inactive_none hidle', dbgFree_ok hready' hidle'⟩

/-- A process that stops with `SIGABRT` and is killed at the end. -/
theorem session_truthful_abort : ∃ w,
    session (.scripted (fun _ => 0) [.stopped ⟨SIGTRAP, 0⟩, .stopped ⟨SIGABRT, 0⟩]) .stripped
      dbgInit [.run true] = .ok w ∧
    (w.state = .active ↔ w.bpLocations.isSome) ∧
    (w.state = .active ↔ w.pid = w.tracee.pid ∧ w.tracee.task ≠ .gone) ∧
    (w.state ≠ .active → w.loadAddress = 0) ∧
    ∀ answer w', dbgKillTracee (.scripted (fun _ => 0) [.stopped ⟨SIGTRAP, 0⟩,
      .stopped ⟨SIGABRT, 0⟩]) w answer = .ok (true, w') → w'.bpLocations = none ∧
        ∃ w'', dbgFree (.scripted (fun _ => 0) [.stopped ⟨SIGTRAP, 0⟩,
          .stopped ⟨SIGABRT, 0⟩]) w' = .ok w'' := by
  set k := Kernel.scripted (fun _ => 0) [.stopped ⟨SIGTRAP, 0⟩, .stopped ⟨SIGABRT, 0⟩] with hk
  obtain ⟨w, hw, -⟩ := exists_of_any (p := fun _ => true)
    (x := session k .stripped dbgInit [.run true]) (by decide +kernel)
  have hbegins : dbgInit.Allows k Begins := by
    intro r hr
    have hfirst : (dbgInit.tracee.fork k).waitResult k (dbgInit.tracee.fork k).pid =
      some (.got (.stopped ⟨SIGTRAP, 0⟩)) := rfl
    obtain rfl := Option.some.inj (hfirst.symm.trans hr)
    intro status he
    cases he
    exact fun hgone => by cases hgone
  have halong : Along (handleCommand k .stripped)
      (fun w c => ∀ w₁, c.SpawnsFrom k w w₁ → w₁.Allows k Begins) dbgInit [.run true] := by
    refine ⟨fun w₁ hspawn => ?_, fun _ _ => trivial⟩
    obtain rfl : w₁ = dbgInit := hspawn
    exact hbegins
  exact ⟨w, hw, session_truthful halong hw⟩

/-- The child is killed before its first stop: at the prompt the state is `ACTIVE` with locations, the
process is gone, and the debugger cannot be freed. -/
theorem first_wait_end_untrue : ∃ w,
    session (.scripted (fun _ => 0) [.signaled 9]) .stripped dbgInit [.run true] = .ok w ∧
    w.state = .active ∧ w.bpLocations.isSome ∧ w.tracee.task = .gone ∧
    dbgKillTracee (.scripted (fun _ => 0) [.signaled 9]) w true = .ok (true, w) ∧
    faultOf (dbgFree (.scripted (fun _ => 0) [.signaled 9]) w) = some .assertion := by
  set k := Kernel.scripted (fun _ => 0) [.signaled 9] with hk
  obtain ⟨w, hw, hp⟩ := exists_of_any
    (p := fun w => w.state = .active && w.bpLocations.isSome && w.tracee.task = .gone &&
      faultOf (dbgFree k w) = some .assertion)
    (x := session k .stripped dbgInit [.run true]) (by decide +kernel)
  simp only [Bool.and_eq_true, decide_eq_true_eq] at hp
  obtain ⟨⟨⟨hact, hmap⟩, hgone⟩, hfree⟩ := hp
  refine ⟨w, hw, hact, hmap, hgone, if_neg fun h => ?_, hfree⟩
  exact (w.alive_iff.mp h.2).2 hgone

/-! ## A stopped tracee -/

/-- The process the debugger waits for is in a stop that was collected. -/
def Life.Stopped (l : Life) : Prop := l.pid = l.process ∧ l.task = .stopped

/-- A stop after which `wait_for_signal` resumes the tracee by itself. -/
def WaitStatus.isSilent : WaitStatus → Bool
  | .stopped info => info.isSilent
  | _ => false

/-- A call other than a `waitpid` that failed or reported a silent stop. -/
def Syscall.collects : Syscall → Bool
  | .wait _ none => false
  | .wait _ (some status) => !status.isSilent
  | _ => true

namespace Life

variable {l l' : Life} {r : WaitResult}

theorem wait_events_mem (l : Life) (status : WaitStatus) :
    .wait l.pid (some status) ∈ (l.wait (.got status)).events := by
  rcases status with code | sig | info
  · exact List.mem_cons_self
  · exact List.mem_cons_self
  · unfold wait
    dsimp only
    split
    · rw [resume_events]
      exact List.mem_cons_of_mem _ List.mem_cons_self
    · exact List.mem_cons_self

/-- A status that is no silent stop leaves an active debugger with a stopped tracee. -/
theorem wait_stopped_of_got {status : WaitStatus} (hr : r = .got status)
    (hsilent : status.isSilent = false) (hpossible : r.Possible l)
    (hact : (l.wait r).state = .active) : (l.wait r).Stopped := by
  subst hr
  have halive : l.Alive := hpossible.resolve_left fun he => by cases he
  rcases status with code | sig | info
  · cases hact
  · cases hact
  · change info.isSilent = false at hsilent
    unfold wait
    dsimp only
    rw [if_neg (by rw [hsilent]; simp)]
    exact ⟨halive.1, rfl⟩

/-- After a resume, `wait_for_signal` leaves an active debugger with a stopped tracee exactly when
it gets a status that is no silent stop. -/
theorem wait_stopped_iff (hact : l.state = .active) (hrun : l.task ≠ .stopped)
    (hpossible : r.Possible l) : ((l.wait r).state = .active → (l.wait r).Stopped) ↔
      ∃ status, r = .got status ∧ status.isSilent = false := by
  constructor
  · intro h
    rcases r with - | status
    · exact absurd (h hact).2 hrun
    · refine ⟨status, rfl, ?_⟩
      by_contra hsilent
      rcases status with code | sig | info
      · exact hsilent rfl
      · exact hsilent rfl
      · have halive : l.Alive := hpossible.resolve_left fun he => by cases he
        have hstopped := h ((l.wait_stopped info).1.trans hact)
        change ¬info.isSilent = false at hsilent
        unfold wait at hstopped
        dsimp only at hstopped
        rw [if_pos (Bool.eq_true_of_not_eq_false hsilent)] at hstopped
        have hrunning := hstopped.2
        rw [resume_stopped (by exact halive.1) (by rfl)] at hrunning
        cases hrunning
  · rintro ⟨status, hr, hsilent⟩
    exact wait_stopped_of_got hr hsilent hpossible

/-- Where every `waitpid` collects, a resume ends with a stopped tracee. -/
theorem wait_stopped_of_collects (hpossible : r.Possible l)
    (hcollects : ∀ c ∈ (l.wait r).events, c.collects = true) (hact : (l.wait r).state = .active) :
    (l.wait r).Stopped := by
  rcases r with - | status
  · cases hcollects (.wait l.pid none) List.mem_cons_self
  · have hstatus := hcollects _ (l.wait_events_mem status)
    exact wait_stopped_of_got rfl (by simpa [Syscall.collects] using hstatus) hpossible hact

theorem Waits.stopped {R : WaitResult → Prop} (h : l.Waits R l')
    (hcollects : ∀ c ∈ l'.events, c.collects = true) (hact : l'.state = .active) : l'.Stopped := by
  cases h with
  | step seen r hr _ =>
    exact wait_stopped_of_collects (hr.imp_right alive_resume.mpr) hcollects hact
  | cont seen r hr _ =>
    exact wait_stopped_of_collects (hr.imp_right alive_resume.mpr) hcollects hact

/-- Every move ends with a call of `wait_for_signal` or with a kill. -/
theorem Step.stopped {R : WaitResult → Prop} {F : Life → WaitResult → Prop} (h : l.Step R F l')
    (hcollects : ∀ c ∈ l'.events, c.collects = true) (hact : l'.state = .active) : l'.Stopped := by
  cases h with
  | waits h => exact h.stopped hcollects hact
  | kill => cases hact
  | spawn r load _ _ _ last => exact last.stopped hcollects hact

end Life

/-- **The prompt returns with the tracee stopped or gone.** A call of `wait_for_signal` for a
resumed tracee does exactly where `waitpid` reports a status other than a silent stop, and a session
does where all of its calls of `waitpid` report one. -/
theorem session_stopped :
    (∀ w w' : World, w.state = .active → w.tracee.task ≠ .stopped →
      waitForSignal k syms w = .ok w' → ((w'.state = .active → w'.life.Stopped) ↔
        ∃ status, w.tracee.waitResult k w.pid = some (.got status) ∧ status.isSilent = false)) ∧
    ∀ cs w, session k syms dbgInit cs = .ok w → (∀ c ∈ w.tracee.events, c.collects = true) →
      w.state = .active → w.life.Stopped := by
  constructor
  · intro w w' hact hrun hok
    obtain ⟨r, hresult, hlife⟩ := waitForSignal_life hok
    have hiff := Life.wait_stopped_iff (l := w.life) hact hrun (Tracee.waitResult_possible hresult)
    rw [← hlife] at hiff
    rw [hresult]
    simp only [Option.some.injEq]
    exact hiff
  · intro cs w hok
    have halong : Along (handleCommand k syms)
        (fun w c => ∀ w₁, c.SpawnsFrom k w w₁ → w₁.Allows k fun _ _ => True) dbgInit cs :=
      Along.of_forall (fun _ _ _ _ _ _ _ => trivial) dbgInit
    exact session_life (R := fun _ => True)
      (P := fun l => (∀ c ∈ l.events, c.collects = true) → l.state = .active → l.Stopped)
      (fun _ _ _ _ => trivial) (fun _ h => h.stopped) (fun _ hact => by cases hact) halong hok

/-- A process that stops with `SIGABRT` is stopped at the prompt, and so it is when it goes on and
stops with the signal again. -/
theorem session_stopped_abort : ∃ w w',
    session (.scripted (fun _ => 0) [.stopped ⟨SIGTRAP, 0⟩, .stopped ⟨SIGABRT, 0⟩,
      .stopped ⟨SIGABRT, 0⟩]) .stripped dbgInit [.run true] = .ok w ∧
    (w.state = .active ∧ w.life.Stopped) ∧
    waitForSignal (.scripted (fun _ => 0) [.stopped ⟨SIGTRAP, 0⟩, .stopped ⟨SIGABRT, 0⟩,
      .stopped ⟨SIGABRT, 0⟩]) .stripped (w.setTracee (w.tracee.resume (.scripted (fun _ => 0)
        [.stopped ⟨SIGTRAP, 0⟩, .stopped ⟨SIGABRT, 0⟩, .stopped ⟨SIGABRT, 0⟩]) w.pid
        (.cont SIGABRT))) = .ok w' ∧
    w'.state = .active ∧ w'.life.Stopped := by
  set k := Kernel.scripted (fun _ => 0) [.stopped ⟨SIGTRAP, 0⟩, .stopped ⟨SIGABRT, 0⟩,
    .stopped ⟨SIGABRT, 0⟩] with hk
  set resumed := fun w : World => w.setTracee (w.tracee.resume k w.pid (.cont SIGABRT))
  obtain ⟨w, hw, hp⟩ := exists_of_any
    (p := fun w => w.state = .active && w.tracee.events.all Syscall.collects &&
      (resumed w).state = .active && (resumed w).tracee.task ≠ .stopped &&
      (resumed w).tracee.waitResult k (resumed w).pid = some (.got (.stopped ⟨SIGABRT, 0⟩)) &&
      (waitForSignal k .stripped (resumed w)).toOption.any (·.state = .active))
    (x := session k .stripped dbgInit [.run true]) (by decide +kernel)
  simp only [Bool.and_eq_true, decide_eq_true_eq, List.all_eq_true] at hp
  obtain ⟨⟨⟨⟨⟨hact, hcollects⟩, hact₁⟩, hrun⟩, hresult⟩, hwait⟩ := hp
  obtain ⟨w', hw', hact'⟩ := exists_of_any hwait
  have hact' := of_decide_eq_true hact'
  have hstopped := (session_stopped.1 (resumed w) w' hact₁ hrun hw').mpr ⟨_, hresult, rfl⟩
  exact ⟨w, w', hw, ⟨hact, session_stopped.2 _ w hw hcollects hact⟩, hw', hact', hstopped hact'⟩

/-- A process that stops with `SIGALRM` runs while the user is asked for a command. -/
theorem prompt_while_running : ∃ w,
    session (.scripted (fun _ => 0) [.stopped ⟨SIGTRAP, 0⟩, .stopped ⟨SIGALRM, 0⟩]) .stripped
      dbgInit [.run true] = .ok w ∧
    w.state = .active ∧ w.tracee.task = .running (.cont SIGALRM) := by
  obtain ⟨w, hw, hp⟩ := exists_of_any
    (p := fun w => w.state = .active && w.tracee.task = .running (.cont SIGALRM))
    (x := session (.scripted (fun _ => 0) [.stopped ⟨SIGTRAP, 0⟩, .stopped ⟨SIGALRM, 0⟩])
      .stripped dbgInit [.run true]) (by decide +kernel)
  simp only [Bool.and_eq_true, decide_eq_true_eq] at hp
  exact ⟨w, hw, hp⟩

end Vdbg
