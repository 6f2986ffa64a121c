import Vdbg.Compound

/-!
# Whose locations

A location keeps the id of the process it was made for, and `loc_disable` asks whether that process
is alive before it puts the byte back. Locations are made for the tracee and are gone with it, so
that every location of a session belongs to the tracee there is (`session_owned`).
-/

namespace Vdbg

open FaultRun

variable {k : Kernel} {syms : Symbols}

/-- Every location belongs to the tracee. -/
def Owned (w : World) : Prop := ∀ p loc, w.locs p = some loc → loc.pid = w.pid

section Locations

variable {w w' : World} {p : LocPtr} {b : BpPtr} {a : Addr}

theorem Owned.of_none (h : ∀ p, w.locs p = none) : Owned w := by
  intro p loc hp
  rw [h p] at hp
  cases hp

theorem Owned.congr (h : Owned w) (hlocs : w'.locs = w.locs) (hpid : w'.pid = w.pid) :
    Owned w' := by
  intro p loc hp
  rw [hpid]
  exact h p loc (hlocs ▸ hp)

theorem Owned.update (h : Owned w) (loc' : BpLocation) (hpid : loc'.pid = w.pid)
    (hlocs : w'.locs = Function.update w.locs p (some loc')) (hw : w'.pid = w.pid) : Owned w' := by
  intro q l hq
  rw [hw]
  rcases locs_cases hlocs hq with ⟨-, ⟨⟩⟩ | ⟨-, hq⟩
  · exact hpid
  · exact h q l hq

theorem Owned.erase (h : Owned w) (hlocs : w'.locs = Function.update w.locs p none)
    (hw : w'.pid = w.pid) : Owned w' := by
  intro q l hq
  rw [hw]
  rcases locs_cases hlocs hq with ⟨-, ⟨⟩⟩ | ⟨-, hq⟩
  exact h q l hq

theorem Owned.quiet (h : Owned w) (hq : Quiet w w') : Owned w' := by
  intro p loc' hp
  obtain ⟨loc, hloc, he⟩ := hq.loc_eq hp
  have hpid : w'.pid = w.pid := by rw [hq.rest]
  rw [he, hpid]
  exact h p loc hloc

theorem locEnable_owned (h : Owned w) (hok : locEnable k w p = .ok w') : Owned w' := by
  obtain ⟨loc, hp, -⟩ := bind_eq_ok.mp hok
  rw [World.derefLoc_eq_ok] at hp
  rw [locEnable_eq hp] at hok
  cases hok
  obtain ⟨s, hs⟩ := arm_fst k w.tracee loc
  exact h.update _ (by rw [hs]; exact h p loc hp) rfl rfl

theorem locDisable_owned (h : Owned w) (hok : locDisable k w p = .ok w') : Owned w' := by
  obtain ⟨loc, hp, -⟩ := bind_eq_ok.mp hok
  rw [World.derefLoc_eq_ok] at hp
  rw [locDisable_eq hp] at hok
  cases hok
  exact h.update _ (by rw [disarm_fst]; exact h p loc hp) rfl rfl

/-- A location is made for the process it is given. -/
theorem locInit_temp_owned {q : LocPtr} (h : Owned w)
    (hok : locInit k w w.pid a none true = .ok (q, w')) : Owned w' := by
  obtain ⟨hpid, ha⟩ := locInit_asserts hok
  rw [locInit_temp_eq hpid ha] at hok
  cases hok
  obtain ⟨s, hs⟩ := arm_fst k w.tracee (w.tempLoc a)
  exact h.update _ (congrArg BpLocation.pid hs) rfl rfl

theorem locInit_user_owned {q : LocPtr} (h : Owned w)
    (hok : locInit k w w.pid a (some b) false = .ok (q, w')) : Owned w' := by
  obtain ⟨hpid, ha, bp, hb⟩ := locInit_user_ok hok
  rw [locInit_user_eq hpid ha hb] at hok
  cases hok
  refine h.update _ ?_ rfl rfl
  split_ifs
  · obtain ⟨s, hs⟩ := arm_fst k w.tracee ⟨w.pid, false, false, 0, a, [b]⟩
    exact congrArg BpLocation.pid hs
  · rfl

theorem locAppend_owned (h : Owned w) (hok : locAppendBreakpointToList k w p b = .ok w') :
    Owned w' := by
  obtain ⟨bp, -, hok⟩ := bind_eq_ok.mp hok
  obtain ⟨loc, hp, hok⟩ := bind_eq_ok.mp hok
  rw [World.derefLoc_eq_ok] at hp
  obtain ⟨list, -, hok⟩ := bind_eq_ok.mp hok
  have hset : Owned (w.setBp b { bp with location := some p }) := h.congr rfl rfl
  have hlisted : Owned ((w.setBp b { bp with location := some p }).setLoc p
      { loc with bpList := list ++ [b] }) :=
    hset.update { loc with bpList := list ++ [b] } (h p loc hp) rfl rfl
  dsimp only at hok
  split_ifs at hok
  · cases hok
    exact hset
  · exact locEnable_owned hlisted hok
  · exact locDisable_owned hlisted hok
  · cases hok
    exact hlisted

theorem locFree_owned (h : Owned w) (hok : locFree k w p = .ok w') : Owned w' := by
  obtain ⟨loc, -, hw'⟩ := locFree_ok hok
  exact h.erase (p := p) (by rw [hw']) (by rw [hw'])

theorem freeLocs_owned {ps : List LocPtr} (h : Owned w) (hok : freeLocs k w ps = .ok w') :
    Owned w' := FaultRun.invariant (P := Owned) (fun _ _ _ => locFree_owned) h hok

theorem deleteLocation_owned (h : Owned w) (hok : deleteLocation k w a = .ok w') : Owned w' :=
  freeLocs_owned (w := { w with bpLocations := (mapDelete w.bpLocations a).2 }) (h.congr rfl rfl) hok

end Locations

section Breakpoints

variable {w w' : World} {b : BpPtr} {a : Addr}

theorem bpEnable_owned (h : Owned w) (hok : bpEnable k w b = .ok w') : Owned w' := by
  obtain ⟨bp, -, hok⟩ := bind_eq_ok.mp hok
  have hset : Owned (w.setBp b { bp with enable := true }) := h.congr rfl rfl
  dsimp only at hok
  split at hok
  · cases hok
    exact hset
  · obtain ⟨loc, -, hok⟩ := bind_eq_ok.mp hok
    obtain ⟨list, -, hok⟩ := bind_eq_ok.mp hok
    obtain ⟨flags, -, hok⟩ := bind_eq_ok.mp hok
    split_ifs at hok
    · exact locEnable_owned hset hok
    · cases hok
      exact hset

theorem bpDisable_owned (h : Owned w) (hok : bpDisable k w b = .ok w') : Owned w' := by
  obtain ⟨bp, -, hok⟩ := bind_eq_ok.mp hok
  have hset : Owned (w.setBp b { bp with enable := false }) := h.congr rfl rfl
  dsimp only at hok
  split at hok
  · cases hok
    exact hset
  · obtain ⟨loc, -, hok⟩ := bind_eq_ok.mp hok
    obtain ⟨list, -, hok⟩ := bind_eq_ok.mp hok
    obtain ⟨flags, -, hok⟩ := bind_eq_ok.mp hok
    split_ifs at hok
    · cases hok
      exact hset
    · exact locDisable_owned hset hok

theorem bpFree_owned (h : Owned w) (hok : bpFree k w b = .ok w') : Owned w' := by
  obtain ⟨bp, -, hok⟩ := bind_eq_ok.mp hok
  split at hok
  · cases hok
    exact h.congr rfl rfl
  · rename_i p hlocation
    obtain ⟨loc, hp, hok⟩ := bind_eq_ok.mp hok
    rw [World.derefLoc_eq_ok] at hp
    have hset : Owned (w.setLoc p { loc with bpList := loc.bpList.erase b }) :=
      h.update { loc with bpList := loc.bpList.erase b } (h p loc hp) rfl rfl
    dsimp only at hok
    split_ifs at hok
    · obtain ⟨w₁, hdisable, hok⟩ := bind_eq_ok.mp hok
      cases hok
      exact (locDisable_owned hset hdisable).congr rfl rfl
    · cases hok
      exact hset.congr rfl rfl

theorem deleteBreakpoint_owned (h : Owned w) (hok : deleteBreakpoint k w b = .ok w') :
    Owned w' := by
  obtain ⟨bp, -, hok⟩ := bind_eq_ok.mp hok
  exact FaultRun.invariant (P := Owned) (s := { w with breakpoints := (mapDelete w.breakpoints
    bp.id).2 }) (fun _ _ _ => bpFree_owned) (h.congr rfl rfl) hok

theorem removeBreakpoint_owned (h : Owned w) (hok : removeBreakpoint k w b = .ok w') : Owned w' :=
  deleteBreakpoint_owned (w := deleteBreakpointFromPending w b) (h.congr rfl rfl) hok

theorem removeOne_owned (h : Owned w) (hok : removeOne k w b = .ok w') : Owned w' := by
  obtain ⟨bp, -, hok⟩ := bind_eq_ok.mp hok
  obtain ⟨w₁, hdelete, hok⟩ := bind_eq_ok.mp hok
  exact deleteBreakpoint_owned (deleteLocation_owned (w := deleteBreakpointFromPending w b)
    (h.congr rfl rfl) hdelete) hok

theorem setTemp_owned {planted : Bool} (h : Owned w)
    (hok : setTempBpLocation k w a = .ok (planted, w')) : Owned w' := by
  unfold setTempBpLocation at hok
  split_ifs at hok
  · cases hok
  obtain ⟨⟨p, w₁⟩, hinit, hok⟩ := bind_eq_ok.mp hok
  have h₁ := locInit_temp_owned h hinit
  dsimp only at hok
  split at hok
  · cases hok
    exact h₁.congr rfl rfl
  · obtain ⟨w₂, hfree, hok⟩ := bind_eq_ok.mp hok
    cases hok
    exact locFree_owned h₁ hfree

theorem unsetTemp_owned (h : Owned w) (hok : unsetTempBpLocation k w a = .ok w') : Owned w' := by
  unfold unsetTempBpLocation at hok
  split_ifs at hok
  · cases hok
  split at hok
  · cases hok
    exact h.congr rfl rfl
  · exact deleteLocation_owned h hok

theorem setBreakpointOfKind_owned {kind : BpKind} (h : Owned w)
    (hok : setBreakpointOfKind k w kind a = .ok w') : Owned w' := by
  rw [setBreakpointOfKind_eq (setBreakpointOfKind_counter hok)] at hok
  have hadopt : Owned (w.adopt kind a) := h.congr rfl rfl
  unfold addAndSetBpForRunningTracee at hok
  split_ifs at hok
  · cases hok
    exact hadopt
  dsimp only at hok
  split at hok
  · obtain ⟨⟨p, w₁⟩, hinit, hok⟩ := bind_eq_ok.mp hok
    cases hok
    exact (locInit_user_owned hadopt hinit).congr rfl rfl
  · exact locAppend_owned hadopt hok

end Breakpoints

/-! ## Commands -/

section Commands

variable {w w' : World} {att : List BpPtr}

/-- Of a tracee that died no location is left. -/
theorem Owned.ran (h : Owned w) (hran : Ran att w w') : Owned w' := by
  rcases hran with hq | ⟨w₁, -, -, rfl⟩
  · exact h.quiet hq
  · exact .of_none fun _ => rfl

theorem continueExecution_owned (h : Owned w) (hatt : Attached w att)
    (hok : continueExecution k syms w = .ok w') : Owned w' :=
  h.ran (continueExecution_ran hatt hok)

theorem resolveBreakpoint_owned {b : BpPtr} (h : Owned w)
    (hok : resolveBreakpoint k w b = .ok w') : Owned w' := by
  obtain ⟨bp, -, hok⟩ := bind_eq_ok.mp hok
  dsimp only at hok
  split at hok
  · exact locAppend_owned h hok
  · obtain ⟨⟨p, w₁⟩, hinit, hok⟩ := bind_eq_ok.mp hok
    have h₁ := locInit_user_owned h hinit
    dsimp only at hok
    split at hok
    · cases hok
      exact h₁.congr rfl rfl
    · cases hok

theorem resolvePendingBreakpoints_owned (h : Owned w)
    (hok : resolvePendingBreakpoints k w = .ok w') : Owned w' := by
  unfold resolvePendingBreakpoints at hok
  by_cases hsome : w.bpLocations.isSome
  · rw [if_pos hsome] at hok
    cases hok
  · rw [if_neg hsome] at hok
    exact FaultRun.invariant (P := Owned) (s := { w with bpLocations := mapInit MAP_SIZE true })
      (fun _ _ _ => resolveBreakpoint_owned) (h.congr rfl rfl) hok

theorem Ready.locs_none {ts : List Addr} (h : Ready w ts) (hidle : w.state ≠ .active)
    (p : LocPtr) : w.locs p = none := h.attached.locs_of_none (h.inactive_none hidle) p

/-- The locations of a new process are made for it. -/
theorem spawnTracee_owned (h : Ready w []) (hidle : w.state ≠ .active)
    (hok : spawnTracee k syms w = .ok w') : Owned w' := by
  obtain ⟨w₃, hstart, hcont⟩ := bind_eq_ok.mp hok
  obtain ⟨hspawned, -⟩ := startTracee_spawned h hidle hstart
  refine continueExecution_owned ?_ hspawned.ready.attached hcont
  unfold startTracee at hstart
  dsimp only at hstart
  obtain ⟨w₁, hwait, hstart⟩ := bind_eq_ok.mp hstart
  obtain ⟨load, -, hstart⟩ := bind_eq_ok.mp hstart
  obtain ⟨w₂, hresolve, hsetup⟩ := bind_eq_ok.mp hstart
  have hfork : Ready { w with pid := (w.tracee.fork k).pid, tracee := w.tracee.fork k } [] :=
    h.elsewhere rfl
  have hnone : Owned { w with pid := (w.tracee.fork k).pid, tracee := w.tracee.fork k } :=
    .of_none (h.locs_none hidle)
  have h₁ : Owned w₁ := hnone.ran (waitForSignal_ran hfork.attached hwait)
  have h₂ : Owned w₂ := resolvePendingBreakpoints_owned
    (w := { w₁ with loadAddress := load, state := .active }) (h₁.congr rfl rfl) hresolve
  unfold setupDwfl at hsetup
  split at hsetup
  · cases hsetup
  · cases hsetup
    exact h₂.congr rfl rfl

theorem killTracee_owned (h : Owned w) (hok : killTracee k w = .ok w') : Owned w' := by
  obtain ⟨w₁, hfree, hok⟩ := bind_eq_ok.mp hok
  cases hok
  exact (freeLocs_owned (w := w.setTracee (w.tracee.kill w.pid)) (h.congr rfl rfl) hfree).congr
    rfl rfl

theorem restart_owned (h : Ready w []) (hok : restart k syms w = .ok w') : Owned w' := by
  obtain ⟨w₁, hkill, hspawn⟩ := bind_eq_ok.mp hok
  obtain ⟨hkept, hidle⟩ := killTracee_kept h hkill
  exact spawnTracee_owned hkept.ready hidle hspawn

theorem cmdBreak_owned {args : List BreakArg} (h : Owned w)
    (hok : cmdBreak k syms w args = .ok w') : Owned w' := by
  induction args generalizing w with
  | nil =>
    cases hok
    exact h
  | cons arg args ih =>
    cases arg with
    | addr a =>
      obtain ⟨w₁, hset, hok⟩ := bind_eq_ok.mp hok
      rw [setBreakpointAtAddr_eq] at hset
      exact ih (setBreakpointOfKind_owned h hset) hok
    | line file line =>
      unfold cmdBreak at hok
      split_ifs at hok
      · obtain ⟨w₁, hset, hok⟩ := bind_eq_ok.mp hok
        rcases setBreakpointAtLineno_cases hset with ⟨-, hw₁⟩ | ⟨name, a, -, hset⟩
        · rw [hw₁] at hok
          exact ih h hok
        · exact ih (setBreakpointOfKind_owned h hset) hok
      · cases hok
        exact h
    | symbol name =>
      obtain ⟨w₁, hset, hok⟩ := bind_eq_ok.mp hok
      refine ih ?_ hok
      exact FaultRun.invariant (P := Owned) (fun _ _ _ => setBreakpointOfKind_owned) h hset

/-- A command on the breakpoints its arguments name, or on all of them. -/
theorem forArgs_owned {act : World → BpPtr → Res World} {args : List BpArg}
    (hact : ∀ {w b w'}, Owned w → act w b = .ok w' → Owned w') (h : Owned w)
    (hok : forArgs syms act w args = .ok w') : Owned w' := by
  refine FaultRun.invariant (P := Owned) (fun w₁ arg w₂ h₁ hok => ?_) h hok
  obtain ⟨b, -, hok⟩ := bind_eq_ok.mp hok
  split at hok
  · cases hok
    exact h₁
  · exact hact h₁ hok

theorem plantAt_owned {d d' : ToDelete} {a : Addr} (h : Owned w)
    (hok : plantAt k (d, w) a = .ok (d', w')) : Owned w' := by
  obtain ⟨planted, hset, -⟩ := plantAt_ok hok
  exact setTemp_owned h hset

theorem plantTempLocations_owned {die : FuncDie} {name : String} {pc : Addr} {d : ToDelete}
    (h : Owned w) (hok : plantTempLocations k w die name pc = .ok (d, w')) : Owned w' := by
  obtain ⟨d₁, w₁, hlines, hrest⟩ := plantTempLocations_ok hok
  have h₁ : Owned w₁ := FaultRun.invariant (P := fun s => Owned s.2) (s := (⟨100, []⟩, w))
    (fun _ _ _ => plantAt_owned) h hlines
  by_cases hmain : name = "main"
  · rw [if_pos hmain] at hrest
    exact hrest.2 ▸ h₁
  · rw [if_neg hmain] at hrest
    obtain ⟨planted, hset, -⟩ := hrest
    exact setTemp_owned (w := (readReturnAddress k w₁).2) (h₁.congr rfl rfl) hset

theorem stepOut_owned (h : Owned w) (hready : Ready w []) (hok : stepOut k syms w = .ok w') :
    Owned w' := by
  unfold stepOut at hok
  obtain ⟨⟨planted, w₁⟩, hplant, hok⟩ := bind_eq_ok.mp hok
  obtain ⟨w₂, hcont, hok⟩ := bind_eq_ok.mp hok
  have hveiled := ((Veiled.refl hready).quiet (readReturnAddress_quiet (k := k) w)).plant hplant
  have h₁ := setTemp_owned (w := (readReturnAddress k w).2) (h.congr rfl rfl) hplant
  have h₂ := continueExecution_owned h₁ hveiled.ready.attached hcont
  cases planted with
  | true => exact unsetTemp_owned h₂ hok
  | false =>
    cases hok
    exact h₂

theorem stepOver_owned (h : Owned w) (hready : Ready w []) (hok : stepOver k syms w = .ok w') :
    Owned w' := by
  unfold stepOver at hok
  obtain ⟨die, -, hok⟩ := bind_eq_ok.mp hok
  split at hok
  · cases hok
    exact h.congr rfl rfl
  · obtain ⟨⟨d, w₁⟩, hplant, hok⟩ := bind_eq_ok.mp hok
    obtain ⟨w₂, hcont, hok⟩ := bind_eq_ok.mp hok
    have h₁ := plantTempLocations_owned h hplant
    have hveiled := plantTempLocations_veiled hready hplant
    exact FaultRun.invariant (P := Owned) (fun _ _ _ => unsetTemp_owned)
      (continueExecution_owned h₁ hveiled.ready.attached hcont) hok

theorem stepInLoop_owned {line fuel : ℕ} {next : Option (String × SrcLine)} (h : Owned w)
    (hready : Ready w []) (hok : stepInLoop k syms line fuel w = .ok (next, w')) : Owned w' := by
  induction fuel generalizing w with
  | zero => cases hok
  | succ fuel ih =>
    obtain ⟨r, -, hok⟩ := bind_eq_ok.mp hok
    split_ifs at hok
    · obtain ⟨w₁, hstep, hok⟩ := bind_eq_ok.mp hok
      have hran := singleStepInstructionWithBreakpointCheck_ran hready.attached hstep
      exact ih (h.ran hran) (hready.kept hran).ready hok
    · cases hok
      exact h

theorem stepIn_owned {fuel : ℕ} (h : Owned w) (hready : Ready w [])
    (hok : stepIn k syms fuel w = .ok w') : Owned w' := by
  unfold stepIn at hok
  obtain ⟨r, -, hok⟩ := bind_eq_ok.mp hok
  rcases r with - | ⟨file, src⟩
  · cases hok
    exact h.congr rfl rfl
  dsimp only at hok
  by_cases hline : src.line = 0
  · rw [if_pos hline] at hok
    cases hok
    exact h.congr rfl rfl
  rw [if_neg hline] at hok
  obtain ⟨⟨next, w₁⟩, hloop, hok⟩ := bind_eq_ok.mp hok
  have hwarn : Owned (printSrcFileOutdatedWarning w₁ src.outdated) :=
    (stepInLoop_owned h hready hloop).quiet (.of_out (printSrcFileOutdatedWarning_eq w₁ _))
  dsimp only at hok
  split_ifs at hok
  · exact hwarn.quiet (.of_out (printSource_eq hok))
  · cases hok
    exact hwarn

theorem handler_owned {c : Command} (h : Owned w) (hready : Ready w [])
    (hok : c.handler k syms w = .ok w') : Owned w' := by
  cases c with
  | «break» args => exact cmdBreak_owned h hok
  | delete args =>
    change cmdDelete k syms w args = .ok w' at hok
    unfold cmdDelete at hok
    split_ifs at hok
    · exact FaultRun.invariant (P := Owned) (fun _ _ _ => removeOne_owned) h hok
    · exact forArgs_owned removeBreakpoint_owned h hok
  | enable args =>
    change cmdEnable k syms w args = .ok w' at hok
    unfold cmdEnable at hok
    split_ifs at hok
    · exact FaultRun.invariant (P := Owned) (fun _ _ _ => bpEnable_owned) h hok
    · exact forArgs_owned bpEnable_owned h hok
  | disable args =>
    change cmdDisable k syms w args = .ok w' at hok
    unfold cmdDisable at hok
    split_ifs at hok
    · exact FaultRun.invariant (P := Owned) (fun _ _ _ => bpDisable_owned) h hok
    · exact forArgs_owned bpDisable_owned h hok
  | run answer =>
    change run k syms w answer = .ok w' at hok
    unfold run at hok
    split_ifs at hok with hact
    · exact restart_owned hready hok
    · cases hok
      exact h
    · exact spawnTracee_owned hready hact hok
  | restart => exact restart_owned hready hok
  | «continue» => exact continueExecution_owned h hready.attached hok
  | stepi =>
    obtain ⟨w₁, hstep, hprint⟩ := bind_eq_ok.mp hok
    have hran := singleStepInstructionWithBreakpointCheck_ran hready.attached hstep
    exact (h.ran hran).quiet (.of_out (printSourceAtCurrentPc_eq hprint))
  | step fuel => exact stepIn_owned h hready hok
  | next => exact stepOver_owned h hready hok
  | finish => exact stepOut_owned h hready hok
  | registerWrite r value =>
    cases hok
    exact h.congr rfl rfl
  | memoryWrite a value =>
    cases hok
    exact h.congr rfl rfl
  | kill answer =>
    obtain ⟨⟨quit, w₁⟩, hkill, hok⟩ := bind_eq_ok.mp hok
    cases hok
    unfold dbgKillTracee at hkill
    split_ifs at hkill
    · obtain ⟨w₂, hkill, hok⟩ := bind_eq_ok.mp hkill
      cases hok
      exact killTracee_owned h hkill
    · cases hkill
      exact h
    · cases hkill
      exact h

/-- The locations of a session belong to its tracee. -/
theorem session_owned {cs : List Command} (h : Owned w) (hready : Ready w [])
    (hok : session k syms w cs = .ok w') : Owned w' := by
  have hboth : Owned w' ∧ Ready w' [] := by
    refine FaultRun.invariant (P := fun w => Owned w ∧ Ready w []) (fun w c w₁ h hok => ?_)
      ⟨h, hready⟩ hok
    refine ⟨?_, handleCommand_ready h.2 hok⟩
    unfold handleCommand at hok
    split_ifs at hok
    · cases hok
      exact h.1
    · cases hok
      exact h.1
    · exact handler_owned h.1 h.2 hok
  exact hboth.1

theorem dbgInit_owned : Owned dbgInit := .of_none fun _ => rfl

end Commands

end Vdbg
