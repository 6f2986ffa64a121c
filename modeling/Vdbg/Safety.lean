import Vdbg.Lib.Faults
import Vdbg.NextLine
import Vdbg.Selection
import Vdbg.UserWrites

/-!
# Memory safety

No command reads an object that was freed, a list that was never initialised or past the end of an
array, but for two causes, and both are reads after a free (`handler_safe`): the tracee ended in the
single step over a patched location, so that its locations are gone when the patch is put back, or
libdwfl refused to report it, and its session was ended before it is used.
-/

namespace Vdbg

open FaultRun

variable {k : Kernel} {syms : Symbols} {w w' w₁ : World} {att : List BpPtr} {ts : List Addr}
  {a : Addr} {b : BpPtr} {bp : Breakpoint} {p : LocPtr} {loc : BpLocation}

/-! ## Faults of memory -/

/-- Whether a fault is an access to an object that is not there. -/
def Fault.isMemory : Fault → Bool
  | .useAfterFree | .uninitialised | .outOfBounds => true
  | .assertion | .critical | .idsExhausted | .blocked => false

/-- The patch at the pc was taken out, and the wait after the single step from there reported the
end of the tracee. -/
def World.DiedStepping (k : Kernel) (w : World) : Prop :=
  w.state = .notActive ∧ ∃ (w₀ : World) (p : LocPtr) (loc : BpLocation) (st : WaitStatus),
    mapLookup w₀.bpLocations (getPc k w₀.tracee w₀.pid) = some p ∧ w₀.locs p = some loc ∧
    loc.patched = true ∧ w.pid = w₀.pid ∧ st.task = .gone ∧
    ((disarm k w₀.tracee loc).2.resume k w₀.pid .singlestep).waitpid k w₀.pid =
      some (some st, w.tracee)

/-- A fault of memory has one of the two causes. -/
def Excused (k : Kernel) (e : Fault × World) : Prop :=
  e.1.isMemory = true → e.1 = .useAfterFree ∧ (e.2.DiedStepping k ∨
    ∃ t, k.report t = none ∧ e.2.tracee = t.resume k e.2.pid (.cont 0))

/-- A call without a fault of memory, but for the two causes. -/
abbrev Safe {α : Type} (k : Kernel) (x : Res α) : Prop := Faults (Excused k) x

theorem Safe.error {α : Type} {φ : Fault} (h : φ.isMemory = false) :
    Safe k (.error (φ, w) : Res α) :=
  Faults.error fun hm => by rw [h] at hm; cases hm

/-! ## Messages -/

/-- A lookup in the debug information fails as a critical error, and changes nothing. -/
theorem getLineFromPc_critical (w : World) (a : Addr) :
    Faults (· = (.critical, w)) (getLineFromPc w a) := by
  unfold getLineFromPc
  split_ifs
  · exact .error rfl
  · split
    · exact .ok _
    · split
      · exact .error rfl
      · exact .ok _

theorem getFuncDieFromPc_critical (w : World) (a load : Addr) :
    Faults (· = (.critical, w)) (getFuncDieFromPc w a load) := by
  unfold getFuncDieFromPc
  split_ifs
  · exact .error rfl
  · split
    · exact .ok _
    · exact .ok _

theorem Safe.of_critical {α : Type} {x : Res α} (h : Faults (· = (.critical, w)) x) : Safe k x := by
  refine h.mono ?_
  rintro e rfl hm
  cases hm

theorem getLineFromPc_safe (w : World) (a : Addr) : Safe k (getLineFromPc w a) :=
  .of_critical (getLineFromPc_critical w a)

theorem getFuncDieFromPc_safe (w : World) (a load : Addr) : Safe k (getFuncDieFromPc w a load) :=
  .of_critical (getFuncDieFromPc_critical w a load)

theorem printSource_safe (w : World) (file : String) (line context : ℕ) :
    Safe k (printSource w file line context) := by
  unfold printSource
  split_ifs
  · exact .error rfl
  · exact .ok _

theorem printSourceAtCurrentPc_safe (w : World) (a : Addr) (n : ℕ) :
    Safe k (printSourceAtCurrentPc syms w a n) := by
  unfold printSourceAtCurrentPc
  split_ifs
  · exact .ok _
  · refine (getLineFromPc_safe w a).bind fun r _ => ?_
    rcases r with - | ⟨file, src⟩
    · exact .ok _
    · dsimp only
      split_ifs
      · exact .ok _
      · exact printSource_safe _ _ _ _

/-- The loop over the list of a hit location, whose breakpoints are live. -/
theorem hitBreakpoints_safe {bs : List BpPtr} (hlive : ∀ b ∈ bs, (w.bps b).isSome)
    (got sym line : Option (BpPtr × Breakpoint)) :
    Safe k (hitBreakpoints w got sym line bs) := by
  induction bs generalizing got sym line with
  | nil => exact .ok _
  | cons b bs ih =>
    obtain ⟨bp, hb⟩ := Option.isSome_iff_exists.mp (hlive b List.mem_cons_self)
    have ih' := ih fun b' hb' => hlive b' (List.mem_cons_of_mem _ hb')
    unfold hitBreakpoints
    split_ifs
    · exact .error rfl
    rw [World.derefBp_eq hb]
    dsimp only [ok_bind]
    split
    · exact ih' _ _ _
    · exact ih' _ _ _
    · exact ih' _ _ _

/-- A hit is told from a registered location, if there is one. -/
theorem printBpHitMessageAtLoc_safe (h : Attached w att) (a : Addr) :
    Safe k (printBpHitMessageAtLoc w (mapLookup w.bpLocations a)) := by
  unfold printBpHitMessageAtLoc
  rcases hp : mapLookup w.bpLocations a with - | p
  · exact .error rfl
  obtain ⟨loc, hloc, -⟩ := h.stored a p hp
  dsimp only
  rw [World.derefLoc_eq hloc, ok_bind]
  split_ifs
  · exact .ok _
  refine (hitBreakpoints_safe (h.listed_live hloc) none none none).bind fun r _ => ?_
  obtain ⟨got, sym, line⟩ := r
  rcases got with - | ⟨b, bp⟩
  · exact Safe.error rfl
  · exact .ok _

/-! ## Waiting -/

theorem handleSigtrap_safe (h : Attached w att) (info : SigInfo) :
    Safe k (handleSigtrap k syms w info) := by
  unfold handleSigtrap
  split_ifs
  · exact .ok _
  · exact (printBpHitMessageAtLoc_safe (h.setTracee _) _).bind fun w₁ _ =>
      printSourceAtCurrentPc_safe w₁ _ _
  · exact .ok _
  · exact .ok _

theorem dispatchStop_safe (h : Attached w att) (info : SigInfo) :
    Safe k (dispatchStop k syms w info) := by
  unfold dispatchStop
  split_ifs
  · exact handleSigtrap_safe h info
  · exact (printSourceAtCurrentPc_safe _ _ _).bind fun w₁ _ => .ok _
  · exact .ok _
  · exact .ok _
  · exact .ok _

theorem cleanupAtTraceeDeath_safe (h : Attached w att) : Safe k (cleanupAtTraceeDeath k w) := by
  obtain ⟨t, ht, -⟩ := cleanupAtTraceeDeath_eq (k := k) h
  exact .of_returns ⟨_, ht⟩

theorem Attached.told (h : Attached w att) (t : Tracee) (r : Report) :
    Attached ((w.setTracee t).say r) att := ((Quiet.setTracee w t).trans (.say _ r)).attached h

theorem waitForSignal_safe (h : Attached w att) : Safe k (waitForSignal k syms w) := by
  unfold waitForSignal
  split
  · exact .error rfl
  · exact .ok _
  · exact cleanupAtTraceeDeath_safe (h.told _ _)
  · exact cleanupAtTraceeDeath_safe (h.told _ _)
  · exact dispatchStop_safe (h.setTracee _) _

theorem singleStepInstruction_safe (h : Attached w att) : Safe k (singleStepInstruction k syms w) :=
  waitForSignal_safe (h.setTracee _)

/-- A wait has reported the end of the tracee, and the debugger has freed its locations. -/
structure Buried (k : Kernel) (w w' : World) : Prop where
  state : w'.state = .notActive
  locs : w'.locs = fun _ => none
  pid : w'.pid = w.pid
  reported : ∃ st, st.task = .gone ∧ w.tracee.waitpid k w.pid = some (some st, w'.tracee)

theorem waitForSignal_quiet_or_buried (h : Attached w att)
    (hok : waitForSignal k syms w = .ok w') : Quiet w w' ∨ Buried k w w' := by
  rcases waitForSignal_cases hok with ⟨t, -, rfl⟩ | ⟨st, t, r, hwait, hgone, hclean⟩ |
    ⟨info, t, -, hw⟩
  · exact .inl ((Quiet.setTracee w t).trans (.say _ _))
  · obtain ⟨-, regs, mem, -, ht⟩ := Tracee.waitpid_reports hwait
    have htask : t.task = .gone := by
      rw [ht]
      exact hgone
    obtain ⟨t', hbury, hsame⟩ := cleanupAtTraceeDeath_eq (k := k) (h.told t r)
    obtain rfl := hsame htask
    obtain rfl := Except.ok.inj (hbury.symm.trans hclean)
    exact .inr ⟨rfl, rfl, rfl, st, hgone, hwait⟩
  · exact .inl (.of_eq (by rw [hw]) (by rw [hw]))

/-! ## Stepping over a location -/

/-- The patch is put back unless the location is gone with the tracee. -/
theorem executeStepOverLoc_safe (h : Attached w att)
    (hthere : mapLookup w.bpLocations (getPc k w.tracee w.pid) = some p) :
    Safe k (executeStepOverLoc k syms w (some p)) := by
  obtain ⟨loc, hp, -⟩ := h.stored _ p hthere
  unfold executeStepOverLoc
  dsimp only
  rw [World.derefLoc_eq hp, ok_bind]
  split_ifs with hpatched
  swap
  · exact .ok _
  rw [locDisable_eq hp, ok_bind]
  have hatt := h.disarm (k := k) hp
  set w₁ := (w.setTracee (disarm k w.tracee loc).2).setLoc p (disarm k w.tracee loc).1 with hw₁
  have hp₁ : w₁.locs p = some (disarm k w.tracee loc).1 := Function.update_self ..
  refine (singleStepInstruction_safe hatt).bind fun w₂ hstep => ?_
  rcases waitForSignal_quiet_or_buried (hatt.setTracee _) hstep with hq | hburied
  · have hsome : (w₂.locs p).isSome := by
      rw [hq.isSome_locs p]
      exact Option.isSome_iff_exists.mpr ⟨_, hp₁⟩
    obtain ⟨loc₂, hp₂⟩ := Option.isSome_iff_exists.mp hsome
    exact .of_returns ⟨_, locEnable_eq hp₂⟩
  · rw [locEnable_dead (by rw [hburied.locs])]
    obtain ⟨st, hgone, hwait⟩ := hburied.reported
    exact Faults.error fun _ => ⟨rfl, .inl ⟨hburied.state, w, p, loc, st, hthere, hp, hpatched,
      hburied.pid, hgone, hwait⟩⟩

/-- The location the pc is at, if there is one. -/
theorem stepOverBreakpoint_safe (h : Attached w att) : Safe k (stepOverBreakpoint k syms w) := by
  unfold stepOverBreakpoint
  rcases hp : mapLookup w.bpLocations (getPc k w.tracee w.pid) with - | p
  · exact .ok _
  · exact executeStepOverLoc_safe h hp

theorem singleStepWithCheck_safe (h : Attached w att) :
    Safe k (singleStepInstructionWithBreakpointCheck k syms w) := by
  unfold singleStepInstructionWithBreakpointCheck
  split
  · rename_i p hp
    exact executeStepOverLoc_safe h hp
  · exact singleStepInstruction_safe h

theorem continueExecution_safe (h : Attached w att) : Safe k (continueExecution k syms w) := by
  unfold continueExecution
  split_ifs
  · exact .error rfl
  refine (stepOverBreakpoint_safe h).bind fun w₁ hstep => ?_
  have hq := ((executeStepOverLoc_quiet h hstep).trans (.pending w₁ 0)).trans
    (.setTracee _ (w₁.tracee.resume k w₁.pid (.cont w₁.pendingSignal)))
  exact waitForSignal_safe (hq.attached h)

/-! ## step -/

theorem stepInLoop_safe (h : Ready w []) (line fuel : ℕ) :
    Safe k (stepInLoop k syms line fuel w) := by
  induction fuel generalizing w with
  | zero => exact .error rfl
  | succ fuel ih =>
    refine (getLineFromPc_safe w _).bind fun r _ => ?_
    split_ifs
    · exact (singleStepWithCheck_safe h.attached).bind fun w₁ hstep =>
        ih (singleStepWithCheck_kept h hstep).ready
    · exact .ok _

theorem stepIn_safe (h : Ready w []) (fuel : ℕ) : Safe k (stepIn k syms fuel w) := by
  refine (getLineFromPc_safe w _).bind fun r _ => ?_
  rcases r with - | ⟨file, src⟩
  · exact .ok _
  dsimp only
  split_ifs
  · exact .ok _
  · refine (stepInLoop_safe h src.line fuel).bind fun q _ => ?_
    exact printSource_safe _ _ _ _
  · exact (stepInLoop_safe h src.line fuel).bind fun q _ => .ok _

theorem cmdStepi_safe (h : Ready w []) : Safe k (cmdStepi k syms w) :=
  (singleStepWithCheck_safe h.attached).bind fun w₁ _ => printSourceAtCurrentPc_safe w₁ _ _

/-! ## Temporary locations -/

theorem setTempBpLocation_safe (h : Ready w ts) (a : Addr) :
    Safe k (setTempBpLocation k w a) := by
  by_cases hact : w.state = .active
  swap
  · unfold setTempBpLocation
    rw [if_pos hact]
    exact .error rfl
  by_cases hnull : (w.pid = 0 || a = 0) = true
  · unfold setTempBpLocation locInit
    rw [if_neg (not_not.mpr hact), if_pos hnull]
    exact .error rfl
  obtain ⟨hpid, ha⟩ : w.pid ≠ 0 ∧ a ≠ 0 := by simpa using hnull
  rcases hp : mapLookup w.bpLocations a with - | p
  · obtain ⟨ht, hok, -⟩ := setTempBpLocation_absent (k := k) h hact hpid ha hp
    exact .of_returns ⟨_, hok⟩
  · exact .of_returns ⟨_, setTempBpLocation_registered h hact hpid ha (by rw [hp]; rfl)⟩

/-- The buffer of `next` has room, and what was planted is in it. -/
theorem plantAt_safe {d : ToDelete} (h : Veiled w w₁ d.addrs) (hroom : d.Room) (a : Addr) :
    Safe k (plantAt k (d, w₁) a) := by
  refine (setTempBpLocation_safe h.ready a).bind fun q _ => ?_
  obtain ⟨planted, w₂⟩ := q
  dsimp only
  split_ifs
  · obtain ⟨d', hd', -⟩ := ToDelete.store_grows hroom w₂ a
    rw [hd']
    exact .ok _
  · exact .ok _

theorem plantAt_keeps {d : ToDelete} {q : ToDelete × World} (h : Veiled w w₁ d.addrs)
    (hroom : d.Room) (hok : plantAt k (d, w₁) a = .ok q) :
    Veiled w q.2 q.1.addrs ∧ q.1.Room := by
  obtain ⟨⟨planted, w₂⟩, hplant, hok⟩ := bind_eq_ok.mp hok
  have hveiled := h.plant hplant
  cases planted with
  | true =>
    obtain ⟨d', hd', hroom', haddrs⟩ := ToDelete.store_grows hroom w₂ a
    dsimp only at hok
    rw [if_pos rfl, hd'] at hok
    cases hok
    exact ⟨haddrs ▸ hveiled, hroom'⟩
  | false =>
    cases hok
    exact ⟨hveiled, hroom⟩

theorem plantAll_safe {d : ToDelete} {as : List Addr} (h : Veiled w w₁ d.addrs) (hroom : d.Room) :
    Safe k (as.foldlM (plantAt k) (d, w₁)) :=
  Faults.foldlM (I := fun q : ToDelete × World => Veiled w q.2 q.1.addrs ∧ q.1.Room)
    (fun _ _ _ _ hq hok => plantAt_keeps hq.1 hq.2 hok)
    (fun _ a _ hq => plantAt_safe hq.1 hq.2 a) ⟨h, hroom⟩

theorem plantTempLocations_safe (h : Ready w []) (die : FuncDie) (name : String) (pc : Addr) :
    Safe k (plantTempLocations k w die name pc) := by
  rcases hmodule : w.dwfl.addrmodule pc with - | -
  · unfold plantTempLocations
    rw [hmodule]
    exact .error rfl
  rcases hsrc : w.dwfl.getsrc pc with - | src
  · unfold plantTempLocations
    rw [hmodule, hsrc]
    exact .error rfl
  by_cases hline : src.line = 0
  · unfold plantTempLocations
    rw [hmodule, hsrc]
    dsimp only
    rw [if_pos hline]
    exact .error rfl
  rw [plantTempLocations_eq hmodule hsrc hline]
  have hstart : Veiled w w (⟨100, []⟩ : ToDelete).addrs := .refl h
  refine (plantAll_safe hstart ToDelete.room_start).bind fun q hplanted => ?_
  obtain ⟨d, w₁⟩ := q
  obtain ⟨hveiled, hroom⟩ : Veiled w w₁ d.addrs ∧ d.Room := FaultRun.invariant
    (P := fun q : ToDelete × World => Veiled w q.2 q.1.addrs ∧ q.1.Room)
    (fun _ _ _ hq hok => plantAt_keeps hq.1 hq.2 hok) ⟨hstart, ToDelete.room_start⟩ hplanted
  dsimp only
  split_ifs
  · exact .ok _
  have hread := hveiled.quiet (readReturnAddress_quiet (k := k) w₁)
  refine (setTempBpLocation_safe hread.ready _).bind fun q _ => ?_
  obtain ⟨planted, w₂⟩ := q
  dsimp only
  split_ifs
  · rw [hroom.store]
    exact .ok _
  · exact .ok _

/-- What was planted can be deleted while the tracee is there, and an assertion fails where it is
not. -/
theorem runPlanted_safe (h : Veiled w w₁ ts) : Safe k (runPlanted k syms w₁ ts) := by
  refine (continueExecution_safe h.ready.attached).bind fun w₂ hcont => ?_
  by_cases hact : w₂.state = .active
  · exact .of_returns ((h.there hcont hact).unplant_returns hact)
  cases ts with
  | nil => exact .ok _
  | cons a ts =>
    rw [List.foldlM_cons]
    unfold unsetTempBpLocation
    rw [if_pos hact]
    exact Safe.error rfl

theorem stepOut_safe (h : Ready w []) : Safe k (stepOut k syms w) := by
  have hread := (Veiled.refl h).quiet (readReturnAddress_quiet (k := k) w)
  rcases hplant : setTempBpLocation k (readReturnAddress k w).2 (readReturnAddress k w).1 with e | q
  · unfold stepOut
    refine (setTempBpLocation_safe (k := k) hread.ready (readReturnAddress k w).1).bind
      fun q he => ?_
    cases hplant.symm.trans he
  · obtain ⟨planted, w₁⟩ := q
    rw [stepOut_eq hplant]
    exact runPlanted_safe (hread.plant hplant)

theorem stepOver_safe (h : Ready w []) : Safe k (stepOver k syms w) := by
  unfold stepOver
  refine (getFuncDieFromPc_safe w _ _).bind fun r _ => ?_
  split
  · exact .ok _
  · refine (plantTempLocations_safe h _ _ _).bind fun q hplant => ?_
    exact runPlanted_safe (plantTempLocations_veiled h hplant)

/-! ## Breakpoints that are live -/

theorem bpEnable_returns (h : Ready w []) (hb : (w.bps b).isSome) :
    ∃ w', bpEnable k w b = .ok w' := by
  obtain ⟨bp, hb⟩ := Option.isSome_iff_exists.mp hb
  by_cases hact : w.state = .active
  · obtain ⟨p, loc, hl, hp, ht, -⟩ := h.location hact hb
    exact ⟨_, bpEnable_attached_eq hb hl hp ht (h.attached.listed_live hp)⟩
  · exact ⟨_, bpEnable_detached_eq hb (h.detached hact hb)⟩

theorem bpDisable_returns (h : Ready w []) (hb : (w.bps b).isSome) :
    ∃ w', bpDisable k w b = .ok w' := by
  obtain ⟨bp, hb⟩ := Option.isSome_iff_exists.mp hb
  by_cases hact : w.state = .active
  · obtain ⟨p, loc, hl, hp, ht, -⟩ := h.location hact hb
    exact ⟨_, bpDisable_attached_eq hb hl hp ht (h.attached.listed_live hp)⟩
  · exact ⟨_, bpDisable_detached_eq hb (h.detached hact hb)⟩

theorem removeBreakpoint_returns (h : Ready w []) (hb : (w.bps b).isSome) :
    ∃ w', removeBreakpoint k w b = .ok w' := by
  obtain ⟨bp, hb⟩ := Option.isSome_iff_exists.mp hb
  by_cases hact : w.state = .active
  · obtain ⟨p, loc, hl, hp, -⟩ := h.location hact hb
    obtain ⟨ht, -, hok⟩ := removeBreakpoint_attached_eq (k := k) h.registry hb hl hp
    exact ⟨_, hok⟩
  · obtain ⟨ht, hht, hcf⟩ := h.registry.table
    have hlookup := (h.registry.lookup bp.id b).mpr ⟨bp, hb, rfl⟩
    refine ⟨World.freeBp { deleteBreakpointFromPending w b with
      breakpoints := some (ht.unlink bp.id) } b, ?_⟩
    unfold removeBreakpoint
    rw [deleteBreakpoint_eq (w := deleteBreakpointFromPending w b) hht hcf hb hlookup]
    exact bpFree_detached_eq hb (h.detached hact hb)

/-- `enable` and `disable` without arguments: no breakpoint goes away on the way. -/
theorem forPending_safe {act : World → BpPtr → Res World} (h : Ready w [])
    (hreturns : ∀ {w b}, Ready w [] → (w.bps b).isSome → ∃ w', act w b = .ok w')
    (hkeeps : ∀ {w b w'}, Ready w [] → act w b = .ok w' →
      Ready w' [] ∧ ∀ q, (w'.bps q).isSome = (w.bps q).isSome) :
    Safe k (w.pendingBreakpoints.foldlM act w) := by
  refine Faults.foldlM (I := fun w' => Ready w' [] ∧
    ∀ q, (w'.bps q).isSome = (w.bps q).isSome) (fun w₁ b w₂ _ hI hok => ?_)
    (fun w₁ b hb hI => ?_) ⟨h, fun _ => rfl⟩
  · obtain ⟨hready, hlive⟩ := hkeeps hI.1 hok
    exact ⟨hready, fun q => (hlive q).trans (hI.2 q)⟩
  · refine .of_returns (hreturns hI.1 ?_)
    rw [hI.2 b]
    exact (h.registry.live b).mp hb

theorem isSome_update_some {bp : Breakpoint} (hb : w.bps b = some bp) (bp' : Breakpoint)
    (q : BpPtr) : (Function.update w.bps b (some bp') q).isSome = (w.bps q).isSome := by
  by_cases hq : q = b
  · rw [hq, Function.update_self, hb]
    rfl
  · rw [Function.update_of_ne hq]

theorem bpEnable_keeps (h : Ready w []) (hok : bpEnable k w b = .ok w') :
    Ready w' [] ∧ ∀ q, (w'.bps q).isSome = (w.bps q).isSome := by
  obtain ⟨bp, hb, hbps, hedit⟩ := bpEnable_edited h hok
  exact ⟨hedit.ready, fun q => by rw [hbps, isSome_update_some hb]⟩

theorem bpDisable_keeps (h : Ready w []) (hok : bpDisable k w b = .ok w') :
    Ready w' [] ∧ ∀ q, (w'.bps q).isSome = (w.bps q).isSome := by
  obtain ⟨bp, hb, hbps, hedit⟩ := bpDisable_edited h hok
  exact ⟨hedit.ready, fun q => by rw [hbps, isSome_update_some hb]⟩

variable (syms) in
/-- An argument is looked up among live breakpoints, and what it finds is one of them. -/
theorem parseArgBp_finds (h : Registry w) (arg : BpArg) :
    ∃ found, parseArgBp syms w arg = .ok found ∧ ∀ b ∈ found, (w.bps b).isSome := by
  have hlive : ∀ b ∈ w.pendingBreakpoints, (w.bps b).isSome := fun b hb => (h.live b).mp hb
  have hkey : ∀ key, ∃ found, findBreakpointFromPending w key = .ok found ∧
      ∀ b ∈ found, (w.bps b).isSome := by
    intro key
    unfold findBreakpointFromPending
    split_ifs
    · exact ⟨none, rfl, fun b hb => by cases hb⟩
    · exact ⟨_, findBreakpoint_eq hlive, fun b hb => hlive b (List.mem_of_find?_eq_some hb)⟩
  have hnone : ∃ found, (.ok none : Res (Option BpPtr)) = .ok found ∧
      ∀ b ∈ found, (w.bps b).isSome := ⟨none, rfl, fun b hb => by cases hb⟩
  rcases arg with id | (a | name | ⟨file, line⟩)
  · refine ⟨_, rfl, fun b hb => ?_⟩
    obtain ⟨bp, hbp, -⟩ := (h.lookup id b).mp hb
    rw [hbp]
    rfl
  all_goals
    unfold parseArgBp
    dsimp only
  · split_ifs
    · exact hnone
    · exact hkey _
  · exact hkey _
  · split_ifs
    · exact hnone
    · exact hkey _

/-- A command on the breakpoints its arguments name. -/
theorem forArgs_safe {act : World → BpPtr → Res World} (h : Ready w []) (args : List BpArg)
    (hreturns : ∀ {w b}, Ready w [] → (w.bps b).isSome → ∃ w', act w b = .ok w')
    (hkeeps : ∀ {w b w'}, Ready w [] → act w b = .ok w' → Ready w' []) :
    Safe k (forArgs syms act w args) := by
  refine Faults.foldlM (I := fun w => Ready w []) (fun w₁ arg w₂ _ hready hok => ?_)
    (fun w₁ arg _ hready => ?_) h
  · obtain ⟨found, -, hok⟩ := bind_eq_ok.mp hok
    split at hok
    · cases hok
      exact hready
    · exact hkeeps hready hok
  · obtain ⟨found, hfound, hlive⟩ := parseArgBp_finds syms hready.registry arg
    unfold forArg
    rw [hfound, ok_bind]
    split
    · exact .ok _
    · exact .of_returns (hreturns hready (hlive _ rfl))

/-! ## Breakpoints that join -/

theorem locInit_safe (hb : w.bps b = some bp) (pid : Pid) (a : Addr) :
    Safe k (locInit k w pid a (some b) false) := by
  by_cases hnull : (pid = 0 || a = 0) = true
  · unfold locInit
    rw [if_pos hnull]
    exact .error rfl
  · obtain ⟨hpid, ha⟩ : pid ≠ 0 ∧ a ≠ 0 := by simpa using hnull
    exact .of_returns ⟨_, locInit_user_eq hpid ha hb⟩

/-- A breakpoint that is not attached yet joins a location or gets one. -/
theorem resolveBreakpoint_safe (h : Joining w att) (hb : (w.bps b).isSome) (hmem : b ∉ att) :
    Safe k (resolveBreakpoint k w b) := by
  obtain ⟨bp, hb⟩ := Option.isSome_iff_exists.mp hb
  unfold resolveBreakpoint
  rw [World.derefBp_eq hb, ok_bind]
  dsimp only
  split
  · rename_i p hp
    obtain ⟨loc, hloc, -⟩ := h.attached.stored _ p hp
    exact .of_returns ⟨_, locAppend_eq hb hloc (h.planted.user hloc)
      fun hl => hmem (h.attached.listed hloc hl).1⟩
  · refine (locInit_safe hb _ _).bind fun q _ => ?_
    obtain ⟨p, w₁⟩ := q
    dsimp only
    split
    · exact .ok _
    · exact Safe.error rfl

/-- The loop of `resolve_pending_breakpoints`, by induction on what is left of the list. -/
theorem resolveAll_safe {bs pre : List BpPtr} (h : Joining w pre)
    (hpending : w.pendingBreakpoints = pre ++ bs) : Safe k (bs.foldlM (resolveBreakpoint k) w) := by
  induction bs generalizing w pre with
  | nil => exact .ok _
  | cons b bs ih =>
    have hlive : (w.bps b).isSome := (h.registry.live b).mp (by rw [hpending]; simp)
    have hnot : b ∉ pre := by
      have hnodup := h.registry.nodup
      rw [hpending] at hnodup
      exact fun hmem => List.disjoint_of_nodup_append hnodup hmem List.mem_cons_self
    rw [List.foldlM_cons]
    refine (resolveBreakpoint_safe h hlive hnot).bind fun w₁ hok => ?_
    obtain ⟨-, -, hjoin, hsame, -⟩ := resolveBreakpoint_joins h hnot hok
    exact ih hjoin (by rw [hsame.pending, hpending]; simp)

theorem resolvePendingBreakpoints_safe (hreg : Registry w) (hatt : Attached w []) :
    Safe k (resolvePendingBreakpoints k w) := by
  unfold resolvePendingBreakpoints
  split_ifs with hsome
  · exact .error rfl
  obtain ⟨ht, hinit, hcf, hnone⟩ := mapInit_mapSize LocPtr
  have hlocs := hatt.locs_of_none (Option.not_isSome_iff_eq_none.mp hsome)
  rw [hinit]
  have hempty : Attached { w with bpLocations := some ht } [] := .empty hlocs hnone
    (fun ht' he => by rw [← Option.some.inj he]; exact hcf)
    fun b bp hb => hatt.detached b bp hb List.not_mem_nil
  have hjoining : Joining { w with bpLocations := some ht } [] := by
    refine ⟨hreg.congr rfl rfl rfl (fun _ => rfl) le_rfl hreg.locFresh, hempty, rfl,
      .of_user fun p loc hp => ?_⟩
    rw [show w.locs p = none from hlocs p] at hp
    cases hp
  exact resolveAll_safe hjoining rfl

/-- A new breakpoint joins the others of an active debugger. -/
theorem Ready.adopt_joining (h : Ready w []) (hid : w.globalIdCounter ≠ 0) (hact : w.state = .active)
    (kind : BpKind) (a : Addr) : Joining (w.adopt kind a) w.pendingBreakpoints := by
  have hatt : Attached (w.adopt kind a) w.attachedBps :=
    h.attached.outside (h.attached.not_mem_of_dead h.registry.nextPtr_dead)
      (fun bp he => by rw [← Option.some.inj he]) rfl rfl rfl rfl
  exact ⟨h.registry.adopt hid kind a, h.active_att hact ▸ hatt, h.state.mp hact,
    ⟨List.nodup_nil, h.planted.temp, h.planted.there⟩⟩

theorem setBreakpointOfKind_safe (h : Ready w []) (kind : BpKind) (a : Addr) :
    Safe k (setBreakpointOfKind k w kind a) := by
  by_cases hid : w.globalIdCounter = 0
  · unfold setBreakpointOfKind bpInit
    rw [if_pos hid]
    exact .error rfl
  rw [setBreakpointOfKind_eq hid]
  by_cases hact : w.state = .active
  · have hjoining := h.adopt_joining hid hact kind a
    have hb : (w.adopt kind a).bps w.nextPtr = some ⟨w.globalIdCounter, kind, true, a, none⟩ :=
      Function.update_self ..
    obtain ⟨ht, hht⟩ := Option.isSome_iff_exists.mp hjoining.mapped
    have hsame : addAndSetBpForRunningTracee k (w.adopt kind a) a w.nextPtr =
      resolveBreakpoint k (w.adopt kind a) w.nextPtr :=
      addAndSetBp_eq_resolve (w := w.adopt kind a) hact hb hht
    rw [hsame]
    refine resolveBreakpoint_safe hjoining (by rw [hb]; rfl) fun hmem => ?_
    have hlive := (h.registry.live w.nextPtr).mp hmem
    rw [h.registry.nextPtr_dead] at hlive
    cases hlive
  · have hidle : (w.adopt kind a).state = .notActive := by
      rcases hs : w.state with - | -
      · exact absurd hs hact
      · exact hs
    unfold addAndSetBpForRunningTracee
    rw [if_pos hidle]
    exact .ok _

theorem setBreakpointAtFuncSymbol_safe (h : Ready w []) (name : String) :
    Safe k (setBreakpointAtFuncSymbol k syms w name) :=
  Faults.foldlM (I := fun w => Ready w []) (fun _ _ _ _ h hok => setBreakpointOfKind_ready h hok)
    (fun _ _ _ h => setBreakpointOfKind_safe h _ _) h

theorem setBreakpointAtLineno_safe (h : Ready w []) (file : Option String) (line : ℤ) :
    Safe k (setBreakpointAtLineno k syms w file line) := by
  unfold setBreakpointAtLineno
  dsimp only
  split_ifs
  · exact .error rfl
  · split
    · exact .ok _
    · split
      · exact .ok _
      · exact setBreakpointOfKind_safe h _ _
  · split
    · exact .ok _
    · exact setBreakpointOfKind_safe h _ _

theorem cmdBreak_safe (h : Ready w []) (args : List BreakArg) : Safe k (cmdBreak k syms w args) := by
  induction args generalizing w with
  | nil => exact .ok _
  | cons arg args ih =>
    cases arg with
    | addr a =>
      unfold cmdBreak
      rw [setBreakpointAtAddr_eq]
      exact (setBreakpointOfKind_safe h _ _).bind fun w₁ hok => ih (setBreakpointOfKind_ready h hok)
    | line file line =>
      unfold cmdBreak
      split_ifs
      · exact (setBreakpointAtLineno_safe h _ _).bind fun w₁ hok =>
          ih (setBreakpointAtLineno_ready h hok)
      · exact .ok _
    | symbol name =>
      unfold cmdBreak
      exact (setBreakpointAtFuncSymbol_safe h _).bind fun w₁ hok =>
        ih (setBreakpointAtFuncSymbol_ready h hok)

theorem removeAllBreakpoints_safe (h : Ready w []) : Safe k (removeAllBreakpoints k w) :=
  .of_returns (removeAllBreakpoints_ok h)

/-! ## The life of the tracee -/

theorem killTracee_safe (h : Ready w []) : Safe k (killTracee k w) :=
  cleanupAtTraceeDeath_safe (h.attached.setTracee _)

/-- libdwfl's session is ended where its report fails, and used after that. -/
theorem setupDwfl_safe (w : World) : Safe k (setupDwfl k w) := by
  unfold setupDwfl
  split
  · exact Faults.error fun _ => ⟨rfl, .inr ⟨w.tracee, ‹_›, rfl⟩⟩
  · exact .ok _

theorem startTracee_safe (h : Ready w []) (hidle : w.state ≠ .active) :
    Safe k (startTracee k syms w) := by
  have hfork : Ready { w with pid := (w.tracee.fork k).pid, tracee := w.tracee.fork k } [] :=
    h.elsewhere rfl
  unfold startTracee
  dsimp only
  refine (waitForSignal_safe hfork.attached).bind fun w₁ hwait => ?_
  have hkept := hfork.kept (waitForSignal_ran hfork.attached hwait)
  have hidle₁ : w₁.state ≠ .active := fun ha => hidle (hkept.table ha).1
  have hatt₁ : Attached w₁ [] := hkept.ready.inactive_att hidle₁ ▸ hkept.ready.attached
  have hnone₁ := hkept.ready.inactive_none hidle₁
  have hload : Safe k (initializeLoadAddress k syms w₁) := by
    unfold initializeLoadAddress
    split_ifs
    · exact .ok _
    · split
      · exact .error rfl
      · exact .ok _
  refine hload.bind fun load _ => ?_
  have hatt₂ : Attached { w₁ with loadAddress := load, state := .active } [] :=
    .empty (hatt₁.locs_of_none hnone₁) (fun a => by rw [hnone₁]; rfl)
      (fun ht he => by rw [hnone₁] at he; cases he)
      fun b bp hb => hatt₁.detached b bp hb List.not_mem_nil
  have hresolve := resolvePendingBreakpoints_safe (k := k)
    (w := { w₁ with loadAddress := load, state := .active })
    (hkept.ready.registry.congr rfl rfl rfl (fun _ => rfl) le_rfl hkept.ready.registry.locFresh)
    hatt₂
  exact hresolve.bind fun w₂ _ => setupDwfl_safe w₂

theorem spawnTracee_safe (h : Ready w []) (hidle : w.state ≠ .active) :
    Safe k (spawnTracee k syms w) :=
  (startTracee_safe h hidle).bind fun _ hok =>
    continueExecution_safe (startTracee_spawned h hidle hok).1.ready.attached

theorem restart_safe (h : Ready w []) : Safe k (restart k syms w) :=
  (killTracee_safe h).bind fun _ hok =>
    spawnTracee_safe (killTracee_kept h hok).1.ready (killTracee_kept h hok).2

theorem run_safe (h : Ready w []) (answer : Bool) : Safe k (run k syms w answer) := by
  unfold run
  split_ifs with hact
  · exact restart_safe h
  · exact .ok _
  · exact spawnTracee_safe h hact

theorem dbgKillTracee_safe (h : Ready w []) (answer : Bool) : Safe k (dbgKillTracee k w answer) := by
  unfold dbgKillTracee
  split_ifs
  · exact (killTracee_safe h).bind fun _ _ => .ok _
  · exact .ok _
  · exact .ok _

/-! ## Commands -/

/-- **Memory safety of a command**, at every prompt. -/
theorem handler_safe (h : Ready w []) (c : Command) : Safe k (c.handler k syms w) := by
  cases c with
  | «break» args => exact cmdBreak_safe h args
  | delete args =>
    show Safe k (cmdDelete k syms w args)
    unfold cmdDelete
    split_ifs
    · exact removeAllBreakpoints_safe h
    · exact forArgs_safe h args removeBreakpoint_returns removeBreakpoint_ready
  | enable args =>
    show Safe k (cmdEnable k syms w args)
    unfold cmdEnable
    split_ifs
    · exact forPending_safe h bpEnable_returns bpEnable_keeps
    · exact forArgs_safe h args bpEnable_returns bpEnable_ready
  | disable args =>
    show Safe k (cmdDisable k syms w args)
    unfold cmdDisable
    split_ifs
    · exact forPending_safe h bpDisable_returns bpDisable_keeps
    · exact forArgs_safe h args bpDisable_returns bpDisable_ready
  | run answer => exact run_safe h answer
  | restart => exact restart_safe h
  | «continue» => exact continueExecution_safe h.attached
  | stepi => exact cmdStepi_safe h
  | step fuel => exact stepIn_safe h fuel
  | next => exact stepOver_safe h
  | finish => exact stepOut_safe h
  | registerWrite r value => exact .ok _
  | memoryWrite a value => exact .ok _
  | kill answer => exact (dbgKillTracee_safe h answer).bind fun _ _ => .ok _

end Vdbg
