import Vdbg.Commands
import Vdbg.Prompt

/-!
# Sessions

Every command that returns leaves the debugger ready for the next one, whatever the tracee does in
between and whenever it dies. Commands that only run the tracee keep the table of the state, and a
respawn resolves it anew.
-/

namespace Vdbg

open FaultRun

variable {k : Kernel} {syms : Symbols}

/-! ## The tracee runs -/

section Running

variable {w w' w₁ : World} {ts : List Addr} {att : List BpPtr}

/-- Breakpoints do not depend on the process, the view of libdwfl or the reports. -/
theorem Ready.elsewhere (h : Ready w ts) (hw : w' = { w with
    pid := w'.pid, pendingSignal := w'.pendingSignal, dwfl := w'.dwfl, tracee := w'.tracee
    out := w'.out }) : Ready w' ts := by
  generalize w'.pid = pid, w'.pendingSignal = sig, w'.dwfl = dwfl, w'.tracee = t, w'.out = out at hw
  subst hw
  exact ⟨h.registry.congr rfl rfl rfl (fun _ => rfl) le_rfl h.registry.locFresh,
    h.attached.congr (fun _ => rfl) (fun _ => rfl) rfl rfl h.attached.armed, h.state,
    h.planted.nodup, h.planted.temp, h.planted.there⟩

theorem Quiet.ready (hq : Quiet w w') (h : Ready w ts) : Ready w' ts := by
  have hpending : w'.pendingBreakpoints = w.pendingBreakpoints := by rw [hq.rest]
  have hnext : w'.nextPtr = w.nextPtr := by rw [hq.rest]
  refine ⟨h.registry.congr hpending (by rw [hq.rest]) (by rw [hq.rest]) (fun b => by rw [hq.bps])
    hnext.ge fun p hp => ?_, ?_, ?_, h.planted.nodup, fun p loc' hp => ?_, fun a ha => ?_⟩
  · rw [hnext]
    exact h.registry.locFresh p (hq.isSome_locs p ▸ hp)
  · rw [World.attachedBps, hq.bpLocations, hpending]
    exact hq.attached h.attached
  · rw [hq.bpLocations, show w'.state = w.state by rw [hq.rest]]
    exact h.state
  · obtain ⟨loc, hloc, he⟩ := hq.loc_eq hp
    rw [he]
    exact h.planted.temp p loc hloc
  · rw [hq.bpLocations]
    exact h.planted.there a ha

theorem Quiet.rows (hq : Quiet w w') : w'.rows = w.rows := by
  have hrow : w'.row = w.row := World.row_congr fun b => by rw [hq.bps]
  rw [World.rows, World.rows, hrow, hq.rest]

theorem Quiet.isPatched (hq : Quiet w w') : w'.isPatched = w.isPatched := by
  funext a
  rw [World.isPatched, World.isPatched, hq.bpLocations]
  rcases mapLookup w.bpLocations a with - | p
  · rfl
  · have hm := congrArg (Option.any BpLocation.patched) (hq.locs p)
    rw [Option.any_map, Option.any_map] at hm
    exact hm

theorem Quiet.table (hq : Quiet w w') : w'.table = w.table := by
  rw [World.table, World.table, hq.rows, hq.isPatched, hq.loadAddress]

theorem Registry.bury (h : Registry w) : Registry (w.bury att) := by
  refine h.congr rfl rfl rfl (fun b => ?_) le_rfl fun p hp => (by cases hp)
  show ((w.detach att).bps b).map _ = _
  by_cases hb : b ∈ att
  · rw [World.detach_bps_of_mem hb, Option.map_map]; rfl
  · rw [World.detach_bps_of_not_mem hb]

theorem Attached.bury (h : Attached w att) : Attached (w.bury att) [] := by
  refine .empty (fun _ => rfl) (fun _ => rfl) (fun _ he => (by cases he)) fun b bp hb => ?_
  replace hb : (w.detach att).bps b = some bp := hb
  by_cases hmem : b ∈ att
  · rw [World.detach_bps_of_mem hmem] at hb
    obtain ⟨bp', -, rfl⟩ := Option.map_eq_some_iff.mp hb
    rfl
  · rw [World.detach_bps_of_not_mem hmem] at hb
    exact h.detached b bp hb hmem

/-- A dead tracee leaves no location, and the breakpoints as they were. -/
theorem Ready.bury (h : Ready w ts) : Ready (w.bury w.attachedBps) [] := by
  refine ⟨h.registry.bury, ?_, by simp [World.bury], .of_user fun _ _ he => (by cases he)⟩
  exact h.attached.bury

theorem rows_bury (w : World) (att : List BpPtr) : (w.bury att).rows = w.rows := by
  have hrow : (w.bury att).row = w.row := World.row_congr fun b => by
    show ((w.detach att).bps b).map _ = _
    by_cases hb : b ∈ att
    · rw [World.detach_bps_of_mem hb, Option.map_map]; rfl
    · rw [World.detach_bps_of_not_mem hb]
  rw [World.rows, World.rows, hrow]
  rfl

/-- After a run the debugger is as ready as before, or the tracee is gone. -/
theorem Ready.ran (h : Ready w ts) (hr : Ran w.attachedBps w w') :
    Quiet w w' ∧ Ready w' ts ∨
      w'.rows = w.rows ∧ w'.state = .notActive ∧ Ready w' [] ∧
        w'.globalIdCounter = w.globalIdCounter := by
  rcases hr with hq | ⟨w₁, hq, -, rfl⟩
  · exact .inl ⟨hq, hq.ready h⟩
  · have hatt : w₁.attachedBps = w.attachedBps := by
      rw [World.attachedBps, World.attachedBps, hq.bpLocations, hq.rest]
    refine .inr ⟨(rows_bury _ _).trans hq.rows, rfl, ?_, ?_⟩
    · rw [← hatt]
      exact (hq.ready h).bury
    · show w₁.globalIdCounter = w.globalIdCounter
      rw [hq.rest]

end Running

/-- What commands that run the tracee keep: the rows, and the patches as long as it lives. -/
structure Kept (w w' : World) : Prop where
  ready : Ready w' []
  rows : w'.rows = w.rows
  table : w'.state = .active → w.state = .active ∧ w'.table = w.table
  counter : w'.globalIdCounter = w.globalIdCounter

section Kept

variable {w w' w₁ : World}

theorem Kept.refl (h : Ready w []) : Kept w w := ⟨h, rfl, fun ha => ⟨ha, rfl⟩, rfl⟩

theorem Kept.trans (h : Kept w w₁) (h' : Kept w₁ w') : Kept w w' := by
  refine ⟨h'.ready, h'.rows.trans h.rows, fun ha => ?_, h'.counter.trans h.counter⟩
  obtain ⟨ha₁, ht'⟩ := h'.table ha
  obtain ⟨ha₀, ht⟩ := h.table ha₁
  exact ⟨ha₀, ht'.trans ht⟩

theorem Quiet.kept (hq : Quiet w w') (h : Ready w []) : Kept w w' := by
  refine ⟨hq.ready h, hq.rows, fun ha => ⟨?_, hq.table⟩, by rw [hq.rest]⟩
  rwa [hq.rest] at ha

theorem Ready.kept (h : Ready w []) (hr : Ran w.attachedBps w w') : Kept w w' := by
  rcases h.ran hr with ⟨hq, -⟩ | ⟨hrows, hstate, hready, hcounter⟩
  · exact hq.kept h
  · exact ⟨hready, hrows, fun ha => (by rw [hstate] at ha; cases ha), hcounter⟩

theorem continueExecution_kept (h : Ready w []) (hok : continueExecution k syms w = .ok w') :
    Kept w w' := h.kept (continueExecution_ran h.attached hok)

theorem singleStepWithCheck_kept (h : Ready w [])
    (hok : singleStepInstructionWithBreakpointCheck k syms w = .ok w') : Kept w w' :=
  h.kept (singleStepInstructionWithBreakpointCheck_ran h.attached hok)

theorem cmdStepi_kept (h : Ready w []) (hok : cmdStepi k syms w = .ok w') : Kept w w' := by
  obtain ⟨w₁, hstep, hprint⟩ := bind_eq_ok.mp hok
  have hkept := singleStepWithCheck_kept h hstep
  exact hkept.trans ((Quiet.of_out (printSourceAtCurrentPc_eq hprint)).kept hkept.ready)

/-- The loop of `step_in`, by induction on its turns. -/
theorem stepInLoop_kept {line fuel : ℕ} {next : Option (String × SrcLine)} (h : Ready w [])
    (hok : stepInLoop k syms line fuel w = .ok (next, w')) : Kept w w' := by
  induction fuel generalizing w with
  | zero => cases hok
  | succ fuel ih =>
    obtain ⟨r, -, hok⟩ := bind_eq_ok.mp hok
    split_ifs at hok with hline
    · obtain ⟨w₁, hstep, hok⟩ := bind_eq_ok.mp hok
      have hkept := singleStepWithCheck_kept h hstep
      exact hkept.trans (ih hkept.ready hok)
    · cases hok
      exact .refl h

theorem stepIn_kept {fuel : ℕ} (h : Ready w []) (hok : stepIn k syms fuel w = .ok w') :
    Kept w w' := by
  unfold stepIn at hok
  obtain ⟨r, -, hok⟩ := bind_eq_ok.mp hok
  rcases r with - | ⟨file, src⟩
  · cases hok
    exact (Quiet.say w _).kept h
  · dsimp only at hok
    by_cases hline : src.line = 0
    · rw [if_pos hline] at hok
      cases hok
      exact (Quiet.say w _).kept h
    · rw [if_neg hline] at hok
      obtain ⟨⟨next, w₁⟩, hloop, hok⟩ := bind_eq_ok.mp hok
      have hkept := stepInLoop_kept h hloop
      have hwarn : Quiet w₁ (printSrcFileOutdatedWarning w₁ src.outdated) :=
        .of_out (printSrcFileOutdatedWarning_eq w₁ _)
      refine hkept.trans (Quiet.kept ?_ hkept.ready)
      dsimp only at hok
      split_ifs at hok with hdwarf
      · exact hwarn.trans (.of_out (printSource_eq hok))
      · cases hok
        exact hwarn

end Kept

/-! ## Temporary locations -/

/-- From `w`, only temporary locations at `ts` were planted. -/
structure Veiled (w w' : World) (ts : List Addr) : Prop where
  ready : Ready w' ts
  rows : w'.rows = w.rows
  state : w'.state = w.state
  loadAddress : w'.loadAddress = w.loadAddress
  counter : w'.globalIdCounter = w.globalIdCounter
  patched : ∀ a, w.isPatched a = if a ∈ ts then false else w'.isPatched a

section Temporary

variable {w w' : World} {ts : List Addr} {a : Addr} {loc : BpLocation} {p : LocPtr}

theorem Ready.plant {ht : Hashmap LocPtr} {t : Tracee} (h : Ready w ts)
    (ha : mapLookup w.bpLocations a = none) (hact : w.state = .active) (htemp : loc.isTemp = true)
    (hrun : loc.runningAddr = a) (hlist : loc.bpList = []) (hcf : ht.cf = true)
    (hlookup : ∀ a', mapLookup (some ht) a' =
      if a' = a then some w.nextPtr else mapLookup w.bpLocations a')
    (hw : w' = { w with
      nextPtr := w.nextPtr + 1, locs := Function.update w.locs w.nextPtr (some loc)
      bpLocations := some ht, tracee := t }) :
    Ready w' (ts ++ [a]) := by
  have hlocs : w'.locs = Function.update w.locs w.nextPtr (some loc) := by rw [hw]
  have hlookup' : ∀ a', mapLookup w'.bpLocations a' =
      if a' = a then some w.nextPtr else mapLookup w.bpLocations a' := by rw [hw]; exact hlookup
  have hnot : a ∉ ts := by
    intro hmem
    have := h.planted.there a hmem
    rw [ha] at this
    cases this
  refine ⟨h.registry.congr (by rw [hw]) (by rw [hw]) (by rw [hw]) (by rw [hw]; exact fun _ => rfl)
    (by rw [hw]; exact Nat.le_succ _) fun q hq => ?_, ?_, ?_, ?_, fun q l hl => ?_, fun a' ha' => ?_⟩
  · obtain ⟨l, hl⟩ := Option.isSome_iff_exists.mp hq
    rw [hw]
    rcases locs_cases hlocs hl with ⟨rfl, -⟩ | ⟨-, hl⟩
    · exact Nat.lt_succ_self _
    · exact (h.registry.locFresh q (by rw [hl]; rfl)).trans (Nat.lt_succ_self _)
  · have hatt : w'.attachedBps = w.attachedBps := by
      rw [World.attachedBps, World.attachedBps, if_pos (h.state.mp hact), hw]
      rfl
    rw [hatt]
    exact h.attached.insertTemp h.registry.nextPtr_unused ha (by rw [hw]) hlocs htemp hrun hlist
      hlookup' (fun ht' he => by
        rw [hw] at he
        rw [← Option.some.inj he]
        exact hcf) (by rw [hw])
  · rw [hw]
    exact iff_of_true hact rfl
  · refine List.nodup_append.mpr ⟨h.planted.nodup, List.nodup_singleton a, ?_⟩
    rintro x hx y hy rfl
    exact hnot (List.mem_singleton.mp hy ▸ hx)
  · rcases locs_cases hlocs hl with ⟨rfl, ⟨⟩⟩ | ⟨-, hl⟩
    · exact iff_of_true htemp (by rw [hrun]; simp)
    · have hne : l.runningAddr ≠ a := by
        intro he
        have hreg := h.attached.registered q l hl
        rw [he, ha] at hreg
        cases hreg
      rw [h.planted.temp q l hl]
      simp [hne]
  · rw [hlookup']
    split_ifs with he
    · rfl
    · exact h.planted.there a' (by simpa [he] using ha')

/-- A location that could not be registered is freed again. -/
theorem Ready.refuse (h : Ready w ts)
    (hw : w' = { w with nextPtr := w.nextPtr + 1, tracee := w'.tracee }) : Ready w' ts := by
  generalize w'.tracee = t at hw
  refine ⟨h.registry.congr (by rw [hw]) (by rw [hw]) (by rw [hw]) (by rw [hw]; exact fun _ => rfl)
    (by rw [hw]; exact Nat.le_succ _) fun q hq => ?_, ?_, by rw [hw]; exact h.state, ?_⟩
  · rw [hw] at hq ⊢
    exact (h.registry.locFresh q hq).trans (Nat.lt_succ_self _)
  · have hatt : w'.attachedBps = w.attachedBps := by rw [hw]; rfl
    rw [hatt]
    exact h.attached.congr (by rw [hw]; exact fun _ => rfl) (by rw [hw]; exact fun _ => rfl)
      (by rw [hw]) (by rw [hw]) (by rw [hw]; exact h.attached.armed)
  · subst hw
    exact ⟨h.planted.nodup, h.planted.temp, h.planted.there⟩

theorem Ready.unplant {ht : Hashmap LocPtr} {t : Tracee} (h : Ready w (a :: ts))
    (hact : w.state = .active) (hp : w.locs p = some loc) (hrun : loc.runningAddr = a)
    (hcf : ht.cf = true)
    (hlookup : ∀ a', mapLookup (some ht) a' =
      if a' = a then none else mapLookup w.bpLocations a')
    (hw : w' = { w with
      locs := Function.update w.locs p none, bpLocations := some ht, tracee := t }) :
    Ready w' ts := by
  have hlocs : w'.locs = Function.update w.locs p none := by rw [hw]
  have hlookup' : ∀ a', mapLookup w'.bpLocations a' =
      if a' = a then none else mapLookup w.bpLocations a' := by rw [hw]; exact hlookup
  have htemp : loc.isTemp = true :=
    (h.planted.temp p loc hp).mpr (hrun ▸ List.mem_cons_self)
  have hlist : loc.bpList = [] := h.attached.list_temp hp htemp
  obtain ⟨hnot, hnodup⟩ := List.nodup_cons.mp h.planted.nodup
  have hold : ∀ q l, w'.locs q = some l → q ≠ p ∧ w.locs q = some l := by
    intro q l hl
    rcases locs_cases hlocs hl with ⟨-, ⟨⟩⟩ | hl
    exact hl
  refine ⟨h.registry.congr (by rw [hw]) (by rw [hw]) (by rw [hw]) (by rw [hw]; exact fun _ => rfl)
    (by rw [hw]) fun q hq => ?_, ?_, ?_, hnodup, fun q l hl => ?_, fun a' ha' => ?_⟩
  · obtain ⟨l, hl⟩ := Option.isSome_iff_exists.mp hq
    rw [hw]
    exact h.registry.locFresh q (by rw [(hold q l hl).2]; rfl)
  · have hatt : w'.attachedBps = w.attachedBps.filter fun b => b ∉ loc.bpList := by
      rw [hlist, World.attachedBps, World.attachedBps, if_pos (h.state.mp hact), hw]
      simp
    rw [hatt]
    exact h.attached.delete hp (by rw [hlist, World.detach_nil, hw]) hlocs
      (by rw [hrun]; exact hlookup') (fun ht' he => by
        rw [hw] at he
        rw [← Option.some.inj he]
        exact hcf) (by rw [hw])
  · rw [hw]
    exact iff_of_true hact rfl
  · obtain ⟨hq, hl⟩ := hold q l hl
    have hne : l.runningAddr ≠ a := by
      intro he
      have hreg := h.attached.registered q l hl
      rw [he, ← hrun] at hreg
      exact hq (h.attached.ptr_eq hp hreg)
    rw [h.planted.temp q l hl]
    simp [hne]
  · have hne : a' ≠ a := fun he => hnot (he ▸ ha')
    rw [hlookup', if_neg hne]
    exact h.planted.there a' (List.mem_cons_of_mem _ ha')

end Temporary

section Veiled

variable {w w' w₁ : World} {ts : List Addr} {a : Addr}

theorem Veiled.refl (h : Ready w []) : Veiled w w [] := ⟨h, rfl, rfl, rfl, rfl, fun _ => by simp⟩

theorem Veiled.quiet (h : Veiled w w₁ ts) (hq : Quiet w₁ w') : Veiled w w' ts := by
  refine ⟨hq.ready h.ready, hq.rows.trans h.rows, ?_, hq.loadAddress.trans h.loadAddress,
    ?_, fun a => by rw [hq.isPatched]; exact h.patched a⟩
  · rw [← h.state, hq.rest]
  · rw [← h.counter, hq.rest]

theorem Veiled.kept (h : Veiled w w' []) : Kept w w' := by
  have hpatched : w'.isPatched = w.isPatched := funext fun a => by simpa using (h.patched a).symm
  refine ⟨h.ready, h.rows, fun ha => ⟨h.state ▸ ha, ?_⟩, h.counter⟩
  rw [World.table, World.table, h.rows, hpatched, h.loadAddress]

theorem Veiled.refuse (h : Veiled w w₁ ts)
    (hw : w' = { w₁ with nextPtr := w₁.nextPtr + 1, tracee := w'.tracee }) : Veiled w w' ts := by
  refine ⟨h.ready.refuse hw, ?_, ?_, ?_, ?_, fun a => ?_⟩
  · rw [hw]; exact h.rows
  · rw [hw]; exact h.state
  · rw [hw]; exact h.loadAddress
  · rw [hw]; exact h.counter
  · rw [hw]; exact h.patched a

/-- `set_temp_bp_location` registers a new location, or leaves the one that is there. -/
theorem Veiled.plant {planted : Bool} (h : Veiled w w₁ ts)
    (hok : setTempBpLocation k w₁ a = .ok (planted, w')) :
    Veiled w w' (if planted then ts ++ [a] else ts) := by
  unfold setTempBpLocation at hok
  by_cases hact : w₁.state = .active
  swap
  · rw [if_pos hact] at hok
    cases hok
  rw [if_neg (not_not.mpr hact)] at hok
  obtain ⟨⟨p, w₂⟩, hinit, hok⟩ := bind_eq_ok.mp hok
  obtain ⟨hpid, hne⟩ := locInit_asserts hinit
  rw [locInit_temp_eq hpid hne] at hinit
  obtain ⟨s, hs⟩ := arm_fst k w₁.tracee ⟨w₁.pid, false, true, 0, a, []⟩
  dsimp only at hinit
  rw [hs] at hinit
  cases hinit
  obtain ⟨ht, hht⟩ := Option.isSome_iff_exists.mp (h.ready.state.mp hact)
  have hcf := h.ready.attached.cleans ht hht
  have hunused := h.ready.registry.nextPtr_unused
  rcases hp : mapLookup w₁.bpLocations a with - | q
  · obtain ⟨ht', hins, hcf', hlookup⟩ := mapInsert_absent (hht ▸ hp) w₁.nextPtr
    dsimp only [World.setLoc, World.setTracee] at hok
    rw [hht, hins] at hok
    cases hok
    refine ⟨h.ready.plant hp hact rfl rfl rfl (hcf'.trans hcf) (by rw [hht]; exact hlookup) rfl,
      h.rows, h.state, h.loadAddress, h.counter, fun a' => ?_⟩
    rw [h.patched a']
    by_cases ha' : a' = a
    · simp [ha', World.isPatched_absent hp]
    · simp only [if_true, List.mem_append, List.mem_singleton, ha', or_false]
      split_ifs with hmem
      · rfl
      · refine (World.isPatched_congr (by rw [hlookup, if_neg ha', ← hht]) fun q hq =>
          Function.update_of_ne ?_ _ _).symm
        rintro rfl
        obtain ⟨l, hl, -⟩ := h.ready.attached.stored a' _ hq
        rw [hunused] at hl; cases hl
  · dsimp only [World.setLoc, World.setTracee] at hok
    rw [mapInsert_refused (.inr (by rw [hp]; rfl))] at hok
    dsimp only at hok
    have hnew : Function.update w₁.locs w₁.nextPtr (some ⟨w₁.pid, true, true, s, a, []⟩)
        w₁.nextPtr = some ⟨w₁.pid, true, true, s, a, []⟩ := Function.update_self ..
    rw [locFree_eq (k := k) (w := { w₁ with
      nextPtr := w₁.nextPtr + 1, tracee := _
      locs := Function.update w₁.locs w₁.nextPtr (some ⟨w₁.pid, true, true, s, a, []⟩) }) hnew
      (fun _ => rfl) (by simp)] at hok
    cases hok
    have hlocs : Function.update (Function.update w₁.locs w₁.nextPtr
        (some ⟨w₁.pid, true, true, s, a, []⟩)) w₁.nextPtr none = w₁.locs := by
      rw [Function.update_idem, ← hunused, Function.update_eq_self]
    refine h.refuse ?_
    rw [World.detach_nil]
    simp only [World.freeLoc, World.setTracee, hlocs]

/-- `unset_temp_bp_location` deletes a temporary location. -/
theorem Veiled.unplant (h : Veiled w w₁ (a :: ts))
    (hok : unsetTempBpLocation k w₁ a = .ok w') : Veiled w w' ts := by
  unfold unsetTempBpLocation at hok
  by_cases hact : w₁.state = .active
  swap
  · rw [if_pos hact] at hok
    cases hok
  rw [if_neg (not_not.mpr hact)] at hok
  obtain ⟨p, hp⟩ := Option.isSome_iff_exists.mp (h.ready.planted.there a List.mem_cons_self)
  obtain ⟨loc, hloc, hrun⟩ := h.ready.attached.stored a p hp
  have htemp : loc.isTemp = true :=
    (h.ready.planted.temp p loc hloc).mpr (hrun ▸ List.mem_cons_self)
  rw [hp] at hok
  dsimp only at hok
  obtain ⟨ht, hdel, hcf, hlookup⟩ := deleteLocation_eq (k := k) h.ready.attached hloc
  rw [hrun, h.ready.attached.list_temp hloc htemp, World.detach_nil] at hdel
  rw [hrun] at hlookup
  obtain rfl := Except.ok.inj (hdel.symm.trans hok)
  refine ⟨h.ready.unplant hact hloc hrun hcf hlookup rfl, h.rows, h.state, h.loadAddress,
    h.counter, fun a' => ?_⟩
  rw [h.patched a']
  by_cases ha' : a' = a
  · have hnone : World.isPatched (World.freeLoc (World.setTracee { w₁ with bpLocations := some ht }
        (disarm k w₁.tracee loc).2) p) a = false :=
      World.isPatched_absent ((hlookup a).trans (if_pos rfl))
    simp [ha', hnone]
  · simp only [List.mem_cons, ha', false_or]
    split_ifs with hmem
    · rfl
    · refine (World.isPatched_congr ((hlookup a').trans (if_neg ha')) fun q hq =>
        Function.update_of_ne ?_ _ _).symm
      rintro rfl
      obtain ⟨l, hl, hla⟩ := h.ready.attached.stored a' _ hq
      exact ha' (by rw [← hla, Option.some.inj (hl.symm.trans hloc), hrun])

theorem Veiled.unplantAll (h : Veiled w w₁ ts)
    (hok : ts.foldlM (unsetTempBpLocation k) w₁ = .ok w') : Veiled w w' [] := by
  induction ts generalizing w₁ with
  | nil => cases hok; exact h
  | cons a ts ih =>
    obtain ⟨w₂, h1, hok⟩ := foldlM_cons_eq_ok.mp hok
    exact ih (h.unplant h1) hok

theorem unsetTempBpLocation_inactive (h : w.state ≠ .active) :
    unsetTempBpLocation k w a ≠ .ok w' := by
  unfold unsetTempBpLocation
  rw [if_pos h]
  intro hok
  cases hok

/-- The tracee runs with temporary locations, and they are deleted after it. Where it died in
between, the first deletion fails an assertion. -/
theorem Veiled.run (h : Veiled w w₁ ts) {w₂ : World} (hrun : continueExecution k syms w₁ = .ok w₂)
    (hok : ts.foldlM (unsetTempBpLocation k) w₂ = .ok w') : Kept w w' := by
  rcases h.ready.ran (continueExecution_ran h.ready.attached hrun) with
    ⟨hq, -⟩ | ⟨hrows, hstate, hready, hcounter⟩
  · exact ((h.quiet hq).unplantAll hok).kept
  · cases ts with
    | nil =>
      cases hok
      exact ⟨hready, hrows.trans h.rows, fun ha => (by rw [hstate] at ha; cases ha),
        hcounter.trans h.counter⟩
    | cons a ts =>
      obtain ⟨w₃, h1, -⟩ := foldlM_cons_eq_ok.mp hok
      exact absurd h1 (unsetTempBpLocation_inactive (by rw [hstate]; decide))

theorem readReturnAddress_quiet (w : World) : Quiet w (readReturnAddress k w).2 := .setTracee w _

theorem stepOut_kept (h : Ready w []) (hok : stepOut k syms w = .ok w') : Kept w w' := by
  unfold stepOut at hok
  obtain ⟨⟨planted, w₁⟩, hplant, hok⟩ := bind_eq_ok.mp hok
  have hveiled := ((Veiled.refl h).quiet (readReturnAddress_quiet (k := k) w)).plant hplant
  obtain ⟨w₂, hrun, hok⟩ := bind_eq_ok.mp hok
  cases planted with
  | true => exact hveiled.run hrun (foldlM_cons_eq_ok.mpr ⟨w', hok, rfl⟩)
  | false => exact hveiled.run hrun hok

theorem store_eq_ok {d d' : ToDelete} (hok : d.store w a = .ok d') : d'.addrs = d.addrs ++ [a] := by
  unfold ToDelete.store at hok
  split at hok
  · cases hok; rfl
  · cases hok

theorem ToDelete.grow_addrs (d : ToDelete) : d.grow.addrs = d.addrs := by
  unfold ToDelete.grow
  split <;> rfl

/-- The loop that plants the locations of `next`, by induction on its turns. -/
theorem plantLoop_veiled {n : ℕ} {pc : Addr} {currentLine line : ℕ} {d d' : ToDelete}
    (h : Veiled w w₁ d.addrs) (hok : plantLoop k n pc currentLine line d w₁ = .ok (d', w')) :
    Veiled w w' d'.addrs := by
  induction n generalizing pc currentLine line d w₁ with
  | zero => cases hok; exact h
  | succ n ih =>
    unfold plantLoop at hok
    dsimp only at hok
    split at hok
    · obtain ⟨⟨planted, w₂⟩, hplant, hok⟩ := bind_eq_ok.mp hok
      have hveiled := h.plant hplant
      cases planted with
      | true =>
        obtain ⟨d₁, hgrow, hok⟩ := bind_eq_ok.mp hok
        obtain ⟨d₂, hstore, hd₁⟩ := bind_eq_ok.mp hgrow
        refine ih ?_ hok
        rw [← Except.ok.inj hd₁, ToDelete.grow_addrs, store_eq_ok hstore]
        exact hveiled
      | false => exact ih hveiled hok
    · exact ih h hok

theorem plantTempLocations_veiled {die : FuncDie} {name : String} {pc : Addr} {d : ToDelete}
    (h : Ready w []) (hok : plantTempLocations k w die name pc = .ok (d, w')) :
    Veiled w w' d.addrs := by
  unfold plantTempLocations at hok
  dsimp only at hok
  split at hok
  · cases hok
  split at hok
  · cases hok
  split at hok
  · cases hok
  obtain ⟨⟨d₁, w₁⟩, hloop, hok⟩ := bind_eq_ok.mp hok
  have hveiled := plantLoop_veiled (d := ⟨100, []⟩) (Veiled.refl h) hloop
  dsimp only at hok
  split at hok
  · cases hok
    exact hveiled
  obtain ⟨⟨planted, w₂⟩, hplant, hok⟩ := bind_eq_ok.mp hok
  have hveiled₂ := (hveiled.quiet (readReturnAddress_quiet (k := k) w₁)).plant hplant
  cases planted with
  | true =>
    obtain ⟨d₂, hstore, hok⟩ := bind_eq_ok.mp hok
    cases hok
    rw [store_eq_ok hstore]
    exact hveiled₂
  | false =>
    cases hok
    exact hveiled₂

theorem stepOver_kept (h : Ready w []) (hok : stepOver k syms w = .ok w') : Kept w w' := by
  unfold stepOver at hok
  obtain ⟨die, -, hok⟩ := bind_eq_ok.mp hok
  split at hok
  · cases hok
    exact (Quiet.say w _).kept h
  · obtain ⟨⟨d, w₁⟩, hplant, hok⟩ := bind_eq_ok.mp hok
    obtain ⟨w₂, hrun, hok⟩ := bind_eq_ok.mp hok
    exact (plantTempLocations_veiled h hplant).run hrun hok

end Veiled

/-! ## A new tracee -/

section Spawning

variable {w w' w₁ : World}

theorem SameEdits.trans (h : SameEdits w w₁) (h' : SameEdits w₁ w') : SameEdits w w' :=
  ⟨h'.row.trans h.row, h'.pending.trans h.pending, h'.state.trans h.state,
    h'.loadAddress.trans h.loadAddress, h'.counter.trans h.counter⟩

/-- The loop of `resolve_pending_breakpoints` attaches one breakpoint after the other. -/
theorem resolveLoop {bs pre : List BpPtr} (h : Joining w pre)
    (hpending : w.pendingBreakpoints = pre ++ bs)
    (hpatched : ∀ a, w.isPatched (a + w.loadAddress) = replay (pre.filterMap w.row) a)
    (hok : bs.foldlM (resolveBreakpoint k) w = .ok w') :
    Joining w' (pre ++ bs) ∧ SameEdits w w' ∧
      ∀ a, w'.isPatched (a + w.loadAddress) = replay ((pre ++ bs).filterMap w.row) a := by
  induction bs generalizing w pre with
  | nil =>
    cases hok
    rw [List.append_nil]
    exact ⟨h, ⟨rfl, rfl, rfl, rfl, rfl⟩, hpatched⟩
  | cons b bs ih =>
    obtain ⟨w₁, h1, hok⟩ := foldlM_cons_eq_ok.mp hok
    have hnot : b ∉ pre := by
      have hnodup := h.registry.nodup
      rw [hpending] at hnodup
      exact fun hmem => List.disjoint_of_nodup_append hnodup hmem List.mem_cons_self
    obtain ⟨bp, hb, hjoin, hsame, hpat⟩ := resolveBreakpoint_joins h hnot h1
    have hstep : ∀ a, w₁.isPatched (a + w₁.loadAddress) =
        replay ((pre ++ [b]).filterMap w₁.row) a := by
      intro a
      rw [hsame.loadAddress, hsame.row, hpat, List.filterMap_append,
        List.filterMap_cons_some (World.row_eq hb), List.filterMap_nil, replay_concat,
        Function.update_apply, ← hpatched]
      simp only [add_left_inj]
    have hrest := ih hjoin (by rw [hsame.pending, hpending]; simp) hstep hok
    rw [hsame.loadAddress, hsame.row, List.append_assoc, List.singleton_append] at hrest
    exact ⟨hrest.1, hsame.trans hrest.2.1, hrest.2.2⟩

/-- Resolution replays the pending list. -/
theorem resolvePendingBreakpoints_ready (hreg : Registry w) (hatt : Attached w [])
    (hact : w.state = .active) (hok : resolvePendingBreakpoints k w = .ok w') :
    Ready w' [] ∧ w'.state = .active ∧ w'.loadAddress = w.loadAddress ∧
      w'.table = ⟨w.rows, replay w.rows⟩ ∧ w'.globalIdCounter = w.globalIdCounter := by
  unfold resolvePendingBreakpoints at hok
  by_cases hsome : w.bpLocations.isSome
  · rw [if_pos hsome] at hok
    cases hok
  rw [if_neg hsome] at hok
  obtain ⟨ht, hinit, hcf, hnone⟩ := mapInit_mapSize LocPtr
  have hlocs := hatt.locs_of_none (Option.not_isSome_iff_eq_none.mp hsome)
  rw [hinit] at hok
  set w₀ : World := { w with bpLocations := some ht } with hw₀
  have hatt₀ : Attached w₀ [] := .empty hlocs hnone
    (fun ht' he => by rw [← Option.some.inj he]; exact hcf)
    fun b bp hb => hatt.detached b bp hb List.not_mem_nil
  have hjoining : Joining w₀ [] := by
    refine ⟨hreg.congr rfl rfl rfl (fun _ => rfl) le_rfl hreg.locFresh, hatt₀, rfl,
      .of_user fun p loc hp => ?_⟩
    rw [hlocs p] at hp
    cases hp
  obtain ⟨hjoined, hsame, hpat⟩ := resolveLoop hjoining rfl
    (fun a => World.isPatched_absent (hnone _)) hok
  rw [List.nil_append] at hjoined hpat
  have hpending : w'.pendingBreakpoints = w₀.pendingBreakpoints := hsame.pending
  refine ⟨⟨hjoined.registry, ?_, iff_of_true (hsame.state.trans hact) hjoined.mapped,
    hjoined.planted⟩, hsame.state.trans hact, hsame.loadAddress, ?_, hsame.counter⟩
  · rw [World.attachedBps, if_pos hjoined.mapped, hpending]
    exact hjoined.attached
  · have hrows : w'.rows = w.rows := by
      rw [World.rows, hpending, hsame.row]
      rfl
    rw [World.table, hrows, hsame.loadAddress]
    congr 1
    funext a
    exact hpat a

/-- A spawn: the rows stay, and if the tracee is still there they are resolved. -/
structure Spawned (w w' : World) : Prop where
  ready : Ready w' []
  rows : w'.rows = w.rows
  table : w'.state = .active → w'.table = ⟨w.rows, replay w.rows⟩
  counter : w'.globalIdCounter = w.globalIdCounter

/-- `spawn_tracee` up to the resume. -/
theorem startTracee_spawned (h : Ready w []) (hidle : w.state ≠ .active)
    (hok : startTracee k syms w = .ok w') : Spawned w w' ∧ w'.state = .active := by
  unfold startTracee at hok
  dsimp only at hok
  obtain ⟨w₁, hwait, hok⟩ := bind_eq_ok.mp hok
  obtain ⟨load, -, hok⟩ := bind_eq_ok.mp hok
  obtain ⟨w₂, hresolve, hsetup⟩ := bind_eq_ok.mp hok
  have hfork : Ready { w with pid := (w.tracee.fork k).pid, tracee := w.tracee.fork k } [] :=
    h.elsewhere rfl
  have hkept := hfork.kept (waitForSignal_ran hfork.attached hwait)
  have hidle₁ : w₁.state ≠ .active := fun ha => hidle (hkept.table ha).1
  have hatt₁ : Attached w₁ [] := hkept.ready.inactive_att hidle₁ ▸ hkept.ready.attached
  have hreg₁ := hkept.ready.registry
  have hnone₁ := hkept.ready.inactive_none hidle₁
  have hatt₂ : Attached { w₁ with loadAddress := load, state := .active } [] :=
    .empty (hatt₁.locs_of_none hnone₁) (fun a => by rw [hnone₁]; rfl)
      (fun ht he => by rw [hnone₁] at he; cases he)
      fun b bp hb => hatt₁.detached b bp hb List.not_mem_nil
  obtain ⟨hready, hact, hload, htable, hcounter⟩ := resolvePendingBreakpoints_ready
    (w := { w₁ with loadAddress := load, state := .active })
    (hreg₁.congr rfl rfl rfl (fun _ => rfl) le_rfl hreg₁.locFresh) hatt₂ rfl hresolve
  have hrows : ({ w₁ with loadAddress := load, state := .active } : World).rows = w.rows :=
    hkept.rows
  rw [hrows] at htable
  unfold setupDwfl at hsetup
  split at hsetup
  · cases hsetup
  · cases hsetup
    exact ⟨⟨hready.elsewhere rfl, congrArg Table.rows htable, fun _ => htable,
      hcounter.trans hkept.counter⟩, hact⟩

theorem Spawned.kept (h : Spawned w w₁) (h' : Kept w₁ w') : Spawned w w' := by
  refine ⟨h'.ready, h'.rows.trans h.rows, fun ha => ?_, h'.counter.trans h.counter⟩
  obtain ⟨ha₁, ht⟩ := h'.table ha
  exact ht.trans (h.table ha₁)

theorem spawnTracee_spawned (h : Ready w []) (hidle : w.state ≠ .active)
    (hok : spawnTracee k syms w = .ok w') : Spawned w w' := by
  obtain ⟨w₁, hstart, hcont⟩ := bind_eq_ok.mp hok
  obtain ⟨hspawned, -⟩ := startTracee_spawned h hidle hstart
  exact hspawned.kept (continueExecution_kept hspawned.ready hcont)

theorem killTracee_kept (h : Ready w []) (hok : killTracee k w = .ok w') :
    Kept w w' ∧ w'.state ≠ .active := by
  have h₁ : Ready (w.setTracee (w.tracee.kill w.pid)) [] := h.elsewhere rfl
  obtain ⟨t, ht, -⟩ := cleanupAtTraceeDeath_eq (k := k) h₁.attached
  obtain rfl := Except.ok.inj (ht.symm.trans hok)
  have hready : Ready (((w.setTracee (w.tracee.kill w.pid)).bury w.attachedBps).setTracee t) [] :=
    h₁.bury.elsewhere rfl
  have hidle : (((w.setTracee (w.tracee.kill w.pid)).bury w.attachedBps).setTracee t).state ≠
      .active := by
    intro ha
    cases ha
  exact ⟨⟨hready, rows_bury _ _, fun ha => absurd ha hidle, rfl⟩, hidle⟩

theorem Kept.spawned (h : Kept w w₁) (h' : Spawned w₁ w') : Spawned w w' := by
  refine ⟨h'.ready, h'.rows.trans h.rows, fun ha => ?_, h'.counter.trans h.counter⟩
  rw [h'.table ha, h.rows]

theorem restart_spawned (h : Ready w []) (hok : restart k syms w = .ok w') : Spawned w w' := by
  obtain ⟨w₁, hkill, hspawn⟩ := bind_eq_ok.mp hok
  obtain ⟨hkept, hidle⟩ := killTracee_kept h hkill
  exact hkept.spawned (spawnTracee_spawned hkept.ready hidle hspawn)

/-- `run` spawns a tracee, or leaves the one that is there. -/
theorem run_spawned {answer : Bool} (h : Ready w []) (hok : run k syms w answer = .ok w') :
    Spawned w w' ∨ w' = w := by
  unfold run at hok
  split at hok
  · split at hok
    · exact .inl (restart_spawned h hok)
    · cases hok
      exact .inr rfl
  · exact .inl (spawnTracee_spawned h ‹_› hok)

theorem dbgKillTracee_kept {answer quit : Bool} (h : Ready w [])
    (hok : dbgKillTracee k w answer = .ok (quit, w')) : Kept w w' := by
  unfold dbgKillTracee at hok
  split at hok
  · split at hok
    · obtain ⟨w₁, hkill, hok⟩ := bind_eq_ok.mp hok
      cases hok
      exact (killTracee_kept h hkill).1
    · cases hok
      exact .refl h
  · cases hok
    exact .refl h

end Spawning

/-! ## Commands -/

section Commands

variable {w w' : World}

theorem setBreakpointOfKind_ready {kind : BpKind} {a : Addr} (h : Ready w [])
    (hok : setBreakpointOfKind k w kind a = .ok w') : Ready w' [] :=
  (setBreakpointOfKind_edited h hok).ready

theorem setBreakpointAtFuncSymbol_ready {name : String} (h : Ready w [])
    (hok : setBreakpointAtFuncSymbol k syms w name = .ok w') : Ready w' [] :=
  FaultRun.invariant (P := fun w => Ready w []) (fun _ _ _ h h1 => setBreakpointOfKind_ready h h1) h
    hok

/-- The file and the address a line argument stands for. -/
def lineTarget (k : Kernel) (syms : Symbols) (w : World) (filename : Option String) (lineno : ℤ) :
    Option (String × Addr) :=
  if filename.isNone ∧ w.state = .active then
    ((w.dwfl.addrdie (getPc k w.tracee w.pid)).bind Cu.name).bind fun name =>
      getAddrFromLineno syms (some name) lineno
  else getAddrFromLineno syms filename lineno

/-- A line argument sets one breakpoint, or none. -/
theorem setBreakpointAtLineno_cases {file : Option String} {line : ℤ}
    (hok : setBreakpointAtLineno k syms w file line = .ok w') :
    lineTarget k syms w file line = none ∧ w' = w ∨
      ∃ name a, lineTarget k syms w file line = some (name, a) ∧
        setBreakpointOfKind k w (.lineno name line) a = .ok w' := by
  unfold setBreakpointAtLineno at hok
  unfold lineTarget
  dsimp only at hok
  split_ifs at hok ⊢ with hbare hmod
  · split at hok
    · rename_i hname
      rw [hname]
      cases hok
      exact .inl ⟨rfl, rfl⟩
    · rename_i name hname
      rw [hname, Option.bind_some]
      split at hok
      · cases hok
        exact .inl ⟨‹_›, rfl⟩
      · exact .inr ⟨_, _, ‹_›, hok⟩
  · split at hok
    · cases hok
      exact .inl ⟨‹_›, rfl⟩
    · exact .inr ⟨_, _, ‹_›, hok⟩

theorem setBreakpointAtLineno_ready {file : Option String} {line : ℤ} (h : Ready w [])
    (hok : setBreakpointAtLineno k syms w file line = .ok w') : Ready w' [] := by
  rcases setBreakpointAtLineno_cases hok with ⟨-, rfl⟩ | ⟨name, a, -, hset⟩
  · exact h
  · exact setBreakpointOfKind_ready h hset

theorem cmdBreak_ready {args : List BreakArg} (h : Ready w [])
    (hok : cmdBreak k syms w args = .ok w') : Ready w' [] := by
  induction args generalizing w with
  | nil => cases hok; exact h
  | cons arg args ih =>
    cases arg with
    | addr a =>
      obtain ⟨w₁, hset, hok⟩ := bind_eq_ok.mp hok
      rw [setBreakpointAtAddr_eq] at hset
      exact ih (setBreakpointOfKind_ready h hset) hok
    | line file line =>
      unfold cmdBreak at hok
      split at hok
      · obtain ⟨w₁, hset, hok⟩ := bind_eq_ok.mp hok
        exact ih (setBreakpointAtLineno_ready h hset) hok
      · cases hok; exact h
    | symbol name =>
      obtain ⟨w₁, hset, hok⟩ := bind_eq_ok.mp hok
      exact ih (setBreakpointAtFuncSymbol_ready h hset) hok

theorem bpEnable_ready {b : BpPtr} (h : Ready w []) (hok : bpEnable k w b = .ok w') :
    Ready w' [] := by
  obtain ⟨bp, -, -, hedit⟩ := bpEnable_edited h hok
  exact hedit.ready

theorem bpDisable_ready {b : BpPtr} (h : Ready w []) (hok : bpDisable k w b = .ok w') :
    Ready w' [] := by
  obtain ⟨bp, -, -, hedit⟩ := bpDisable_edited h hok
  exact hedit.ready

theorem removeBreakpoint_ready {b : BpPtr} (h : Ready w [])
    (hok : removeBreakpoint k w b = .ok w') : Ready w' [] := by
  obtain ⟨bp, -, hedit⟩ := removeBreakpoint_edited h hok
  exact hedit.ready

/-- A command that acts on the breakpoints its arguments name. -/
theorem forArgs_ready {act : World → BpPtr → Res World} {args : List BpArg}
    (hact : ∀ {w b w'}, Ready w [] → act w b = .ok w' → Ready w' []) (h : Ready w [])
    (hok : forArgs syms act w args = .ok w') : Ready w' [] := by
  refine FaultRun.invariant (P := fun w => Ready w []) (fun w₁ arg w₂ h₁ h2 => ?_) h hok
  obtain ⟨b, -, h2⟩ := bind_eq_ok.mp h2
  split at h2
  · cases h2; exact h₁
  · exact hact h₁ h2

theorem handler_ready {c : Command} (h : Ready w []) (hok : c.handler k syms w = .ok w') :
    Ready w' [] := by
  cases c with
  | «break» args => exact cmdBreak_ready h hok
  | delete args =>
    change cmdDelete k syms w args = .ok w' at hok
    unfold cmdDelete at hok
    split at hok
    · exact (removeAllBreakpoints_ready h hok).1
    · exact forArgs_ready removeBreakpoint_ready h hok
  | enable args =>
    change cmdEnable k syms w args = .ok w' at hok
    unfold cmdEnable at hok
    split at hok
    · exact FaultRun.invariant (P := fun w => Ready w []) (fun _ _ _ => bpEnable_ready) h hok
    · exact forArgs_ready bpEnable_ready h hok
  | disable args =>
    change cmdDisable k syms w args = .ok w' at hok
    unfold cmdDisable at hok
    split at hok
    · exact FaultRun.invariant (P := fun w => Ready w []) (fun _ _ _ => bpDisable_ready) h hok
    · exact forArgs_ready bpDisable_ready h hok
  | run answer =>
    rcases run_spawned h hok with hspawned | rfl
    · exact hspawned.ready
    · exact h
  | restart => exact (restart_spawned h hok).ready
  | «continue» => exact (continueExecution_kept h hok).ready
  | stepi => exact (cmdStepi_kept h hok).ready
  | step fuel => exact (stepIn_kept h hok).ready
  | next => exact (stepOver_kept h hok).ready
  | finish => exact (stepOut_kept h hok).ready
  | registerWrite r value => cases hok; exact h.elsewhere rfl
  | memoryWrite a value => cases hok; exact h.elsewhere rfl
  | kill answer =>
    obtain ⟨⟨quit, w₁⟩, hkill, hok⟩ := bind_eq_ok.mp hok
    cases hok
    exact (dbgKillTracee_kept h hkill).ready

theorem handleCommand_ready {c : Command} (h : Ready w [])
    (hok : handleCommand k syms w c = .ok w') : Ready w' [] := by
  unfold handleCommand at hok
  split at hok
  · cases hok; exact h
  split at hok
  · cases hok; exact h
  exact handler_ready h hok

/-- Before there is any breakpoint or location. -/
theorem ready_of_empty {ht : Hashmap BpPtr} (hbps : ∀ b, w.bps b = none)
    (hlocs : ∀ p, w.locs p = none) (hpending : w.pendingBreakpoints = [])
    (htable : w.breakpoints = some ht) (hcf : ht.cf = true)
    (hnone : ∀ id, mapLookup (some ht) id = none)
    (hcleans : ∀ ht, w.bpLocations = some ht → ht.cf = true)
    (hlookup : ∀ a, mapLookup w.bpLocations a = none)
    (hstate : w.state = .active ↔ w.bpLocations.isSome) : Ready w [] := by
  refine ⟨⟨by rw [hpending]; exact List.nodup_nil, fun b => ?_, ⟨ht, htable, hcf⟩, fun id b => ?_,
    fun b bp he => ?_, fun b he => ?_, fun p he => ?_⟩, ?_, hstate, .of_user fun p loc he => ?_⟩
  · simp [hpending, hbps]
  · rw [htable, hnone]
    simp [hbps]
  · rw [hbps] at he; cases he
  · rw [hbps] at he; cases he
  · rw [hlocs] at he; cases he
  · rw [World.attachedBps, hpending, ite_self]
    exact .empty hlocs hlookup hcleans fun b bp he => by rw [hbps] at he; cases he
  · rw [hlocs] at he; cases he

theorem dbgInit_ready : Ready dbgInit [] := by
  obtain ⟨ht, hinit, hcf, hnone⟩ := mapInit_mapSize BpPtr
  exact ready_of_empty (fun _ => rfl) (fun _ => rfl) rfl hinit hcf hnone
    (fun _ he => (by cases he)) (fun _ => rfl) (by simp [dbgInit])

/-- Every state at a prompt is ready. -/
theorem session_ready {cs : List Command} (h : Ready w []) (hok : session k syms w cs = .ok w') :
    Ready w' [] :=
  FaultRun.invariant (P := fun w => Ready w []) (fun _ _ _ => handleCommand_ready) h hok

end Commands

/-! ## Consistency at a prompt -/

/-- What the three places that store the relation between breakpoints and locations say of each
other at a prompt. -/
structure Consistent (w : World) : Prop where
  /-- A pending breakpoint is in the list of one location, the one at its running address. -/
  attached : w.bpLocations.isSome → ∀ b ∈ w.pendingBreakpoints, ∃ bp p loc, w.bps b = some bp ∧
    bp.location = some p ∧ w.locs p = some loc ∧
    mapLookup w.bpLocations (bp.instrAddr + w.loadAddress) = some p ∧
    loc.runningAddr = bp.instrAddr + w.loadAddress ∧ loc.bpList.count b = 1
  /-- A registered location is live and not temporary, and its list holds live breakpoints that
  point back to it. -/
  listed : ∀ a p, mapLookup w.bpLocations a = some p → ∃ loc, w.locs p = some loc ∧
    loc.isTemp = false ∧ ∀ b ∈ loc.bpList, ∃ bp, w.bps b = some bp ∧ bp.location = some p
  /-- A patched location has a breakpoint, and a hit there finds it. -/
  patched : ∀ a p loc, mapLookup w.bpLocations a = some p → w.locs p = some loc →
    loc.patched = true → loc.bpList ≠ [] ∧ ∃ w', printBpHitMessageAtLoc w (some p) = .ok w'
  /-- Without the map no breakpoint has a location. -/
  detached : w.bpLocations = none → ∀ b bp, w.bps b = some bp → bp.location = none

section Consistent

variable {w w' : World}

/-- The loop over the list of a hit location, after its first breakpoint. -/
theorem hitBreakpoints_ok {bs : List BpPtr} (hlive : ∀ b ∈ bs, (w.bps b).isSome)
    {q : BpPtr × Breakpoint} (hq : q.1 ∉ bs) (sym line : Option (BpPtr × Breakpoint)) :
    ∃ sym' line', hitBreakpoints w (some q) sym line bs = .ok (some q, sym', line') := by
  induction bs generalizing sym line with
  | nil => exact ⟨sym, line, rfl⟩
  | cons b bs ih =>
    obtain ⟨bp, hb⟩ := Option.isSome_iff_exists.mp (hlive b List.mem_cons_self)
    obtain ⟨hne, hq⟩ := not_or.mp (mt List.mem_cons.mpr hq)
    have hfirst : ¬(some q).map Prod.fst = some b := fun he => hne (Option.some.inj he)
    have ih' := ih (fun b' hb' => hlive b' (List.mem_cons_of_mem _ hb')) hq
    unfold hitBreakpoints
    rw [if_neg hfirst, World.derefBp_eq hb, ok_bind]
    rcases bp.kind with - | name | ⟨file, l⟩
    · exact ih' _ _
    · exact ih' _ _
    · exact ih' _ _

/-- A hit at a location with breakpoints is told. -/
theorem printBpHitMessageAtLoc_ok {p : LocPtr} {loc : BpLocation} (hp : w.locs p = some loc)
    (hlive : ∀ b ∈ loc.bpList, (w.bps b).isSome) (hnodup : loc.bpList.Nodup)
    (hne : loc.bpList ≠ []) : ∃ w', printBpHitMessageAtLoc w (some p) = .ok w' := by
  unfold printBpHitMessageAtLoc
  dsimp only
  rw [World.derefLoc_eq hp, ok_bind]
  split
  · exact ⟨w, rfl⟩
  · obtain ⟨b, bs, hbs⟩ := List.exists_cons_of_ne_nil hne
    rw [hbs] at hlive hnodup ⊢
    obtain ⟨bp, hb⟩ := Option.isSome_iff_exists.mp (hlive b List.mem_cons_self)
    have hloop := hitBreakpoints_ok (fun q hq => hlive q (List.mem_cons_of_mem _ hq))
      (q := (b, bp)) (List.nodup_cons.mp hnodup).1
    have hall : ∃ sym line, hitBreakpoints w none none none (b :: bs) =
        .ok (some (b, bp), sym, line) := by
      unfold hitBreakpoints
      rw [if_neg (by simp), World.derefBp_eq hb, ok_bind]
      rcases bp.kind with - | name | ⟨file, l⟩
      · exact hloop _ _
      · exact hloop _ _
      · exact hloop _ _
    obtain ⟨sym, line, hall⟩ := hall
    rw [hall, ok_bind]
    exact ⟨_, rfl⟩

theorem Ready.consistent (h : Ready w []) : Consistent w := by
  refine ⟨fun hsome b hb => ?_, fun a p hp => ?_, fun a p loc hp hloc hpat => ?_,
    fun hnone b bp hb => ?_⟩
  · have hact := h.state.mpr hsome
    obtain ⟨bp, hbp⟩ := Option.isSome_iff_exists.mp ((h.registry.live b).mp hb)
    obtain ⟨p, loc, hl, hp, ht, hrun, hreg, hlist⟩ := h.location hact hbp
    refine ⟨bp, p, loc, hbp, hl, hp, hrun ▸ hreg, hrun, ?_⟩
    rw [hlist]
    exact List.count_eq_one_of_mem (h.registry.nodup.filter _)
      (World.mem_runningAt.mpr ⟨hb, World.target_eq hbp⟩)
  · obtain ⟨loc, hloc, -⟩ := h.attached.stored a p hp
    refine ⟨loc, hloc, h.planted.user hloc, fun b hb => ?_⟩
    obtain ⟨hatt, htarget⟩ := h.attached.listed hloc hb
    obtain ⟨bp, p', loc', hbp, hl, hp', -, hrun'⟩ := h.attached.attached b hatt
    refine ⟨bp, hbp, hl.trans (congrArg some ?_)⟩
    have haddr : loc'.runningAddr = loc.runningAddr := by
      rw [hrun']
      exact Option.some.inj ((World.target_eq hbp).symm.trans htarget)
    exact h.attached.ptr_eq hloc (haddr ▸ h.attached.registered p' loc' hp')
  · have ht := h.planted.user hloc
    have hne := h.attached.armed p loc hloc ht hpat
    refine ⟨hne, printBpHitMessageAtLoc_ok hloc (h.attached.listed_live hloc) ?_ hne⟩
    rw [h.attached.list_user hloc ht]
    exact h.attached.nodup.filter _
  · refine h.detached (fun hact => ?_) hb
    have hsome := h.state.mp hact
    rw [hnone] at hsome
    cases hsome

/-- **Consistency.** At every prompt of every session breakpoints, locations and the map of
locations agree. -/
theorem session_consistent {cs : List Command} (hok : session k syms dbgInit cs = .ok w) :
    Consistent w :=
  (session_ready dbgInit_ready hok).consistent

/-- Two breakpoints at one address, a run that stops with `SIGABRT`, and a restart. -/
theorem session_consistent_restart : ∃ w,
    session (.scripted (fun _ => 0) [.stopped ⟨SIGTRAP, 0⟩, .stopped ⟨SIGABRT, 0⟩,
      .stopped ⟨SIGTRAP, 0⟩, .stopped ⟨SIGABRT, 0⟩]) .stripped dbgInit
      [.break [.addr 0x401000], .break [.addr 0x401000], .run true, .restart] = .ok w ∧
    Consistent w := by
  obtain ⟨w, hw, -⟩ := exists_of_any (p := fun _ => true) (x := session
    (.scripted (fun _ => 0) [.stopped ⟨SIGTRAP, 0⟩, .stopped ⟨SIGABRT, 0⟩, .stopped ⟨SIGTRAP, 0⟩,
      .stopped ⟨SIGABRT, 0⟩]) .stripped dbgInit
    [.break [.addr 0x401000], .break [.addr 0x401000], .run true, .restart]) (by decide +kernel)
  exact ⟨w, hw, session_consistent hw⟩

end Consistent

end Vdbg
