import Vdbg.Attach
import Vdbg.Signals

/-!
# What running the tracee leaves of the debugger

While the tracee runs, a status may end its life, and `cleanup_at_tracee_death` then frees every
location behind the back of the caller. `Ran att w w'` says that nothing else happens: either only
the tracee, the reports, the pending signal and the bytes saved at locations have changed, or on top
of such a change every location was freed.
-/

namespace Vdbg

open FaultRun

variable {k : Kernel} {syms : Symbols}

/-! ## Freeing locations -/

namespace World

/-- The list of a location, empty where there is none. -/
def listAt (w : World) (p : LocPtr) : List BpPtr := ((w.locs p).map BpLocation.bpList).getD []

theorem listAt_eq {w : World} {p : LocPtr} {loc : BpLocation} (h : w.locs p = some loc) :
    w.listAt p = loc.bpList := by
  rw [listAt, h]; rfl

theorem detach_congr (w : World) {bs bs' : List BpPtr} (h : ∀ b, b ∈ bs ↔ b ∈ bs') :
    w.detach bs = w.detach bs' := by
  simp only [detach, h]

/-- The state `cleanup_at_tracee_death` leaves. -/
def bury (w : World) (att : List BpPtr) : World :=
  { w.detach att with
    locs := fun _ => none, bpLocations := none, state := .notActive, loadAddress := 0 }

end World

theorem disarm_gone {t : Tracee} (loc : BpLocation) (h : t.task = .gone) :
    (disarm k t loc).2 = t := by
  have halive : t.alive loc.pid = false := by simp [Tracee.alive, h]
  unfold disarm
  rw [halive]
  split_ifs <;> first | rfl | contradiction

/-- The calls of `loc_free` on distinct live locations. -/
theorem freeLocs_eq {w : World} {ps : List LocPtr} (hnodup : ps.Nodup)
    (hp : ∀ p ∈ ps, ∃ loc, w.locs p = some loc ∧ (loc.isTemp = true → loc.bpList = []) ∧
      ∀ b ∈ loc.bpList, (w.bps b).isSome) :
    ∃ t, freeLocs k w ps = .ok { w with
        bps := (w.detach (ps.flatMap w.listAt)).bps
        locs := fun p => if p ∈ ps then none else w.locs p
        tracee := t } ∧ (w.tracee.task = .gone → t = w.tracee) := by
  induction ps generalizing w with
  | nil => exact ⟨w.tracee, by simp [freeLocs, pure, Except.pure], fun _ => rfl⟩
  | cons p ps ih =>
    obtain ⟨hnot, hnodup⟩ := List.nodup_cons.mp hnodup
    obtain ⟨loc, hloc, htemp, hlive⟩ := hp p List.mem_cons_self
    set w₁ := ((w.detach loc.bpList).setTracee (disarm k w.tracee loc).2).freeLoc p with hw₁
    have hlocs₁ : ∀ q ∈ ps, w₁.locs q = w.locs q := by
      intro q hq
      have hne : q ≠ p := fun he => hnot (he ▸ hq)
      simp [hw₁, World.freeLoc, World.setTracee, World.detach, hne]
    have hlive₁ : ∀ b, (w₁.bps b).isSome = (w.bps b).isSome := by
      intro b
      show ((w.detach loc.bpList).bps b).isSome = _
      by_cases hb : b ∈ loc.bpList
      · rw [World.detach_bps_of_mem hb, Option.isSome_map]
      · rw [World.detach_bps_of_not_mem hb]
    have hp₁ : ∀ q ∈ ps, ∃ l, w₁.locs q = some l ∧ (l.isTemp = true → l.bpList = []) ∧
        ∀ b ∈ l.bpList, (w₁.bps b).isSome := by
      intro q hq
      rw [hlocs₁ q hq]
      simpa only [hlive₁] using hp q (List.mem_cons_of_mem _ hq)
    obtain ⟨t, ht, hgone⟩ := ih hnodup hp₁
    refine ⟨t, ?_, fun hg => ?_⟩
    · unfold freeLocs at ht ⊢
      rw [List.foldlM_cons, locFree_eq hloc htemp hlive, ok_bind, ← hw₁, ht]
      have hlists : ps.flatMap w₁.listAt = ps.flatMap w.listAt := by
        rw [List.flatMap_def, List.flatMap_def, List.map_congr_left fun q hq => ?_]
        rw [World.listAt, World.listAt, hlocs₁ q hq]
      rw [hlists]
      congr 1
      rw [hw₁, List.flatMap_cons, World.listAt_eq hloc]
      simp only [World.freeLoc, World.setTracee, World.detach]
      congr 1
      · funext b
        by_cases h1 : b ∈ loc.bpList <;> by_cases h2 : b ∈ ps.flatMap w.listAt <;>
          simp [h1, h2, Function.comp_def]
      · funext q
        by_cases hqp : q = p
        · subst hqp; simp
        · simp [hqp]
    · have htr : w₁.tracee = w.tracee := disarm_gone loc hg
      rw [hgone (by rw [htr]; exact hg), htr]

/-- `cleanup_at_tracee_death`. Nothing is written to a tracee that is gone. -/
theorem cleanupAtTraceeDeath_eq {w : World} {att : List BpPtr} (h : Attached w att) :
    ∃ t, cleanupAtTraceeDeath k w = .ok ((w.bury att).setTracee t) ∧
      (w.tracee.task = .gone → t = w.tracee) := by
  rcases hht : w.bpLocations with - | ht
  · refine ⟨w.tracee, ?_, fun _ => rfl⟩
    have hlocs : (fun _ => none) = w.locs := funext fun p => (h.locs_of_none hht p).symm
    unfold cleanupAtTraceeDeath
    rw [hht, h.of_none hht, World.bury, World.detach_nil, hlocs]
    rfl
  · have hcf : ht.cf = true := h.cleans ht hht
    have hmem : ∀ p, p ∈ ht.objects ↔ ∃ a, mapLookup w.bpLocations a = some p := by
      intro p
      rw [hht]
      exact ht.mem_objects
    have hnodup : ht.objects.Nodup := by
      refine ht.objects_nodup fun a a' p hp hp' => ?_
      obtain ⟨loc, hloc, ha⟩ := h.stored a p (by rw [hht]; exact hp)
      obtain ⟨loc', hloc', ha'⟩ := h.stored a' p (by rw [hht]; exact hp')
      rw [← ha, ← ha', Option.some.inj (hloc.symm.trans hloc')]
    obtain ⟨t, ht', hgone⟩ := freeLocs_eq (k := k) (w := w) hnodup fun p hp => by
      obtain ⟨a, ha⟩ := (hmem p).mp hp
      obtain ⟨loc, hloc, -⟩ := h.stored a p ha
      exact ⟨loc, hloc, h.list_temp hloc, h.listed_live hloc⟩
    refine ⟨t, ?_, hgone⟩
    have hlists : ∀ b, b ∈ ht.objects.flatMap w.listAt ↔ b ∈ att := by
      intro b
      rw [List.mem_flatMap]
      constructor
      · rintro ⟨p, hp, hb⟩
        obtain ⟨a, ha⟩ := (hmem p).mp hp
        obtain ⟨loc, hloc, -⟩ := h.stored a p ha
        rw [World.listAt_eq hloc] at hb
        exact (h.listed hloc hb).1
      · intro hb
        obtain ⟨bp, -, -, hbp, -⟩ := h.attached b hb
        obtain ⟨p, loc, -, hloc, -, -, hreg, hlist⟩ := h.location hb hbp
        exact ⟨p, (hmem p).mpr ⟨_, hreg⟩, by rw [World.listAt_eq hloc]; exact hlist⟩
    have hlocs : (fun p => if p ∈ ht.objects then none else w.locs p) = fun _ => none := by
      funext p
      rcases hp : w.locs p with - | loc
      · exact ite_self none
      · exact if_pos ((hmem p).mpr ⟨_, h.registered p loc hp⟩)
    unfold cleanupAtTraceeDeath mapFree
    rw [hht]
    dsimp only
    rw [if_pos hcf, ht', ok_bind, w.detach_congr hlists, hlocs]
    rfl

/-- `map_delete(dbg->bp_locations, ...)` on a registered location. -/
theorem deleteLocation_eq {w : World} {att : List BpPtr} {p : LocPtr} {loc : BpLocation}
    (h : Attached w att) (hp : w.locs p = some loc) :
    ∃ ht, deleteLocation k w loc.runningAddr = .ok (({ w.detach loc.bpList with
        bpLocations := some ht }.setTracee (disarm k w.tracee loc).2).freeLoc p) ∧ ht.cf = true ∧
      ∀ a, mapLookup (some ht) a =
        if a = loc.runningAddr then none else mapLookup w.bpLocations a := by
  have hreg := h.registered p loc hp
  rcases hht : w.bpLocations with - | ht
  · rw [hht] at hreg; cases hreg
  · rw [hht] at hreg
    have hcf : ht.cf = true := h.cleans ht hht
    have hfree := locFree_eq (k := k)
      (w := { w with bpLocations := some (ht.unlink loc.runningAddr) }) hp (h.list_temp hp)
      (h.listed_live hp)
    refine ⟨ht.unlink loc.runningAddr, ?_, hcf, ht.find_unlink _⟩
    unfold deleteLocation freeLocs
    rw [hht, mapDelete_present hcf hreg]
    dsimp only
    rw [List.foldlM_cons, hfree, ok_bind]
    rfl

theorem deleteLocation_absent {w : World} {a : Addr} (h : mapLookup w.bpLocations a = none) :
    deleteLocation k w a = .ok w := by
  unfold deleteLocation
  rw [mapDelete_absent h]
  rfl

/-! ## What a resume changes -/

/-- A location without its saved byte. -/
def BpLocation.unsaved (loc : BpLocation) : BpLocation := { loc with savedData := 0 }

theorem exists_of_unsaved {o o' : Option BpLocation} {loc : BpLocation}
    (h : o'.map BpLocation.unsaved = o.map BpLocation.unsaved) (ho : o' = some loc) :
    ∃ loc₀, o = some loc₀ ∧ loc₀.unsaved = loc.unsaved := by
  rw [ho, Option.map_some] at h
  exact Option.map_eq_some_iff.mp h.symm

/-- Nothing but the tracee, the reports, the pending signal and saved bytes has changed. -/
structure Quiet (w w' : World) : Prop where
  rest : w' = { w with
    tracee := w'.tracee, out := w'.out, pendingSignal := w'.pendingSignal, locs := w'.locs }
  locs : ∀ p, (w'.locs p).map BpLocation.unsaved = (w.locs p).map BpLocation.unsaved

/-- The tracee ran: it is still there, or it died and every location was freed. -/
def Ran (att : List BpPtr) (w w' : World) : Prop :=
  Quiet w w' ∨ ∃ w₁, Quiet w w₁ ∧ w₁.tracee.task = .gone ∧ w' = w₁.bury att

namespace Quiet

variable {w w' w'' : World} {att : List BpPtr}

theorem refl (w : World) : Quiet w w := ⟨rfl, fun _ => rfl⟩

theorem trans (h : Quiet w w') (h' : Quiet w' w'') : Quiet w w'' :=
  ⟨h'.rest.trans (by rw [h.rest]), fun p => (h'.locs p).trans (h.locs p)⟩

theorem of_eq (hlocs : w'.locs = w.locs) (h : w' = { w with
    tracee := w'.tracee, out := w'.out, pendingSignal := w'.pendingSignal, locs := w'.locs }) :
    Quiet w w' := ⟨h, fun p => by rw [hlocs]⟩

theorem setTracee (w : World) (t : Tracee) : Quiet w (w.setTracee t) := ⟨rfl, fun _ => rfl⟩

theorem say (w : World) (r : Report) : Quiet w (w.say r) := ⟨rfl, fun _ => rfl⟩

theorem of_out (h : w' = { w with out := w'.out }) : Quiet w w' :=
  of_eq (by rw [h]) (by rw [h])

theorem pending (w : World) (s : Signal) : Quiet w { w with pendingSignal := s } :=
  ⟨rfl, fun _ => rfl⟩

theorem bps (h : Quiet w w') : w'.bps = w.bps := by rw [h.rest]

theorem bpLocations (h : Quiet w w') : w'.bpLocations = w.bpLocations := by rw [h.rest]

theorem loadAddress (h : Quiet w w') : w'.loadAddress = w.loadAddress := by rw [h.rest]

/-- A location after a quiet change. -/
theorem loc_eq (h : Quiet w w') {p : LocPtr} {loc' : BpLocation} (hp : w'.locs p = some loc') :
    ∃ loc, w.locs p = some loc ∧ loc' = { loc with savedData := loc'.savedData } := by
  obtain ⟨loc, hloc, he⟩ := exists_of_unsaved (h.locs p) hp
  refine ⟨loc, hloc, ?_⟩
  simp only [BpLocation.unsaved, BpLocation.mk.injEq] at he
  obtain ⟨h1, h2, h3, -, h4, h5⟩ := he
  rw [h1, h2, h3, h4, h5]

theorem loc_there (h : Quiet w w') {p : LocPtr} {loc : BpLocation} (hp : w.locs p = some loc) :
    ∃ loc', w'.locs p = some loc' ∧ loc' = { loc with savedData := loc'.savedData } := by
  obtain ⟨loc', hp', -⟩ := exists_of_unsaved (h.locs p).symm hp
  obtain ⟨loc₀, hloc₀, he⟩ := h.loc_eq hp'
  obtain rfl := Option.some.inj (hp.symm.trans hloc₀)
  exact ⟨loc', hp', he⟩

theorem isSome_locs (h : Quiet w w') (p : LocPtr) : (w'.locs p).isSome = (w.locs p).isSome := by
  have hm := congrArg Option.isSome (h.locs p)
  simpa only [Option.isSome_map] using hm

theorem attached (h : Quiet w w') (hw : Attached w att) : Attached w' att := by
  refine hw.congr (fun b => by rw [h.bps]) (fun p => ?_) h.bpLocations h.loadAddress ?_
  · have hm := congrArg (Option.map BpLocation.shape) (h.locs p)
    rw [Option.map_map, Option.map_map] at hm
    exact hm
  · intro p loc' hp ht hpat
    obtain ⟨loc, hloc, he⟩ := h.loc_eq hp
    rw [he] at ht hpat ⊢
    exact hw.armed p loc hloc ht hpat

end Quiet

/-! ## Waiting and stepping -/

section Waiting

variable {w w' : World} {att : List BpPtr}

/-- A process that is found dead is buried. -/
theorem cleanup_ran (h : Attached w att) {w₁ : World} (hq : Quiet w w₁)
    (hgone : w₁.tracee.task = .gone) (hok : cleanupAtTraceeDeath k w₁ = .ok w') : Ran att w w' := by
  obtain ⟨t, ht, htr⟩ := cleanupAtTraceeDeath_eq (k := k) (hq.attached h)
  rw [htr hgone] at ht
  rw [hok] at ht
  exact .inr ⟨w₁, hq, hgone, Except.ok.inj ht⟩

theorem waitForSignal_ran (h : Attached w att) (hok : waitForSignal k syms w = .ok w') :
    Ran att w w' := by
  rcases waitForSignal_cases hok with ⟨t, -, rfl⟩ | ⟨status, t, r, hwait, hgone, hok⟩ |
    ⟨info, t, -, hw⟩
  · exact .inl ((Quiet.setTracee w _).trans (.say _ _))
  · obtain ⟨-, regs, mem, -, rfl⟩ := Tracee.waitpid_reports hwait
    refine cleanup_ran h ((Quiet.setTracee w _).trans (.say _ r)) ?_ hok
    exact hgone
  · exact .inl (.of_eq (by rw [hw]) (by rw [hw]))

theorem Attached.setTracee (h : Attached w att) (t : Tracee) : Attached (w.setTracee t) att :=
  (Quiet.setTracee w t).attached h

theorem singleStepInstruction_ran (h : Attached w att)
    (hok : singleStepInstruction k syms w = .ok w') : Ran att w w' := by
  rcases waitForSignal_ran (h.setTracee _) hok with hq | ⟨w₁, hq, hrest⟩
  · exact .inl ((Quiet.setTracee w _).trans hq)
  · exact .inr ⟨w₁, (Quiet.setTracee w _).trans hq, hrest⟩

/-- Arming or disarming a location keeps the attachment. -/
theorem Attached.setLoc {p : LocPtr} {loc loc' : BpLocation} (h : Attached w att)
    (hp : w.locs p = some loc) (hs : loc'.shape = loc.shape)
    (harmed : loc'.isTemp = false → loc'.patched = true → loc'.bpList ≠ []) (t : Tracee) :
    Attached ((w.setTracee t).setLoc p loc') att := by
  refine h.congr (fun _ => rfl) (fun q => ?_) rfl rfl fun q l hq ht hpat => ?_
  · by_cases hqp : q = p
    · subst hqp
      simp [World.setLoc, World.setTracee, hp, hs]
    · simp [World.setLoc, World.setTracee, hqp]
  · rcases locs_cases (f := w.locs) (p := p) (v := some loc') rfl hq with ⟨rfl, ⟨⟩⟩ | ⟨-, hl⟩
    · exact harmed ht hpat
    · exact h.armed q l hl ht hpat

theorem Attached.disarm {p : LocPtr} {loc : BpLocation} (h : Attached w att)
    (hp : w.locs p = some loc) :
    Attached ((w.setTracee (disarm k w.tracee loc).2).setLoc p (Vdbg.disarm k w.tracee loc).1)
      att := by
  refine h.setLoc hp ?_ (fun _ hpat => ?_) _
  · rw [disarm_fst]; rfl
  · rw [disarm_patched] at hpat; cases hpat

/-- The step over a location does not return when the tracee dies in it: `loc_enable` would then be
called on a freed location. -/
theorem executeStepOverLoc_quiet {p : Option LocPtr} (h : Attached w att)
    (hok : executeStepOverLoc k syms w p = .ok w') : Quiet w w' := by
  unfold executeStepOverLoc at hok
  rcases p with - | p
  · cases hok; exact .refl w
  obtain ⟨loc, hp, hok⟩ := bind_eq_ok.mp hok
  rw [World.derefLoc_eq_ok] at hp
  split_ifs at hok with hpat
  · rw [locDisable_eq hp, ok_bind] at hok
    have hatt₁ := h.disarm (k := k) hp
    set w₁ := (w.setTracee (disarm k w.tracee loc).2).setLoc p (disarm k w.tracee loc).1 with hw₁
    obtain ⟨w₂, hstep, hok⟩ := bind_eq_ok.mp hok
    have hp₁ : w₁.locs p = some { loc with patched := false } := by
      rw [hw₁, disarm_fst]; simp [World.setLoc]
    rcases singleStepInstruction_ran hatt₁ hstep with hq | ⟨w₃, -, -, rfl⟩
    · obtain ⟨loc₂, hp₂, he⟩ := hq.loc_there hp₁
      rw [locEnable_eq hp₂] at hok
      obtain ⟨s, hs⟩ := arm_fst k w₂.tracee loc₂
      rw [hs] at hok
      cases hok
      refine ⟨?_, fun q => ?_⟩
      · rw [hq.rest, hw₁]; rfl
      · by_cases hqp : q = p
        · subst hqp
          rw [he]
          simp [World.setLoc, World.setTracee, hp, BpLocation.unsaved, hpat]
        · have hm := hq.locs q
          simpa [World.setLoc, World.setTracee, hqp, hw₁] using hm
    · rw [locEnable_dead rfl] at hok
      cases hok
  · cases hok; exact .refl w

theorem Ran.trans_quiet {w₁ : World} (h : Quiet w w₁) (h' : Ran att w₁ w') : Ran att w w' := by
  rcases h' with hq | ⟨w₂, hq, hrest⟩
  · exact .inl (h.trans hq)
  · exact .inr ⟨w₂, h.trans hq, hrest⟩

theorem continueExecution_ran (h : Attached w att) (hok : continueExecution k syms w = .ok w') :
    Ran att w w' := by
  unfold continueExecution at hok
  split_ifs at hok with hstate
  · cases hok
  · obtain ⟨w₁, hstep, hok⟩ := bind_eq_ok.mp hok
    have hq₁ : Quiet w w₁ := executeStepOverLoc_quiet h hstep
    have hq₂ := (hq₁.trans (.pending w₁ 0)).trans
      (.setTracee _ (w₁.tracee.resume k w₁.pid (.cont w₁.pendingSignal)))
    exact .trans_quiet hq₂ (waitForSignal_ran (hq₂.attached h) hok)

theorem singleStepInstructionWithBreakpointCheck_ran (h : Attached w att)
    (hok : singleStepInstructionWithBreakpointCheck k syms w = .ok w') : Ran att w w' := by
  unfold singleStepInstructionWithBreakpointCheck at hok
  split at hok
  · exact .inl (executeStepOverLoc_quiet h hok)
  · exact singleStepInstruction_ran h hok

end Waiting

end Vdbg
