import Vdbg.Memory
import Vdbg.Sharing

/-!
# Deleting one breakpoint

`remove_breakpoint` should concern the breakpoint it deletes alone: the others stay as they are, and
its location stays patched exactly when one of those left there is enabled (`Forgets`). `bp_free`
asks only whether the list became empty, so this fails exactly when the deleted breakpoint was the
only enabled one among several.
-/

namespace Vdbg

open Words FaultRun

variable {k : Kernel} {syms : Symbols}

/-- A breakpoint was deleted, and nothing else happened. -/
structure Forgets (k : Kernel) (w w' : World) (b : BpPtr) : Prop where
  /-- The others keep their id, kind, address, flag and location, and their order. -/
  others : ∀ q, q ≠ b → w'.bps q = w.bps q
  order : w'.pendingBreakpoints = w.pendingBreakpoints.erase b
  /-- Locations that do not hold the breakpoint are untouched. -/
  registered : w'.bpLocations = w.bpLocations
  untouched : ∀ p loc, w.locs p = some loc → b ∉ loc.bpList → w'.locs p = some loc
  /-- The location that holds it is patched exactly when a breakpoint left there is enabled. -/
  left : ∀ p loc, w.locs p = some loc → b ∈ loc.bpList → ∃ loc', w'.locs p = some loc' ∧
    loc'.runningAddr = loc.runningAddr ∧ loc'.bpList = loc.bpList.erase b ∧
    (loc'.patched = true ↔ ∃ q ∈ loc'.bpList, w'.enabled q = true)
  /-- Where it is not patched the original byte is back, as far as `ptrace` can write it. -/
  restored : k.Accessible → Hosted w → ∀ orig, Transparent w orig → ∀ p loc', w'.locs p = some loc' →
    loc'.patched = false → w'.tracee.mem loc'.runningAddr = orig loc'.runningAddr

/-- Whether a breakpoint may go: it is off, or alone at its location, or another one there is
enabled. -/
def mayGo (w : World) (b : BpPtr) : Bool :=
  !w.enabled b || (((w.bps b).bind Breakpoint.location).bind w.locs).all fun loc =>
    (loc.bpList.erase b).isEmpty || (loc.bpList.erase b).any w.enabled

section Removing

variable {w w' : World} {b : BpPtr} {bp : Breakpoint} {p : LocPtr} {loc : BpLocation}
  {orig : Memory}

/-- `remove_breakpoint` keeps the memory transparent. -/
theorem removeBreakpoint_transparent (hk : k.Accessible) (hh : Hosted w) (htr : Transparent w orig)
    (h : Registry w) (hb : w.bps b = some bp) (hl : bp.location = some p)
    (hp : w.locs p = some loc) (hok : removeBreakpoint k w b = .ok w') : Transparent w' orig := by
  obtain ⟨ht, -, heq⟩ := removeBreakpoint_attached_eq (k := k) h hb hl hp
  obtain rfl := Except.ok.inj (heq.symm.trans hok)
  set loc' : BpLocation := { loc with bpList := loc.bpList.erase b } with hloc'
  have hrest : Transparent ((w.setTracee w.tracee).setLoc p loc') orig :=
    htr.setLoc hh.toMapped hp rfl (Function.update_eq_self _ _).symm (by
      split_ifs with hpat
      · exact htr.armed p loc hp hpat
      · exact htr.plain _ ((hh.isPatched_loc hp).trans (by simpa using hpat)))
  have hhost : Hosted ((w.setTracee w.tracee).setLoc p loc') := hh.setLoc hp rfl rfl hh.alive
  split_ifs with he
  · have hp' : ((w.setTracee w.tracee).setLoc p loc').locs p = some loc' :=
      Function.update_self ..
    obtain ⟨-, htr'⟩ := locDisable_transparent hk hhost hrest (locDisable_eq hp')
    refine htr'.congr ?_ rfl rfl
    simp [World.setLoc, World.setTracee]
  · exact hrest.congr rfl rfl rfl

/-- The location that holds a breakpoint is the one at its address. -/
theorem Ready.holder_eq (h : Ready w []) (hb : w.bps b = some bp) (hp : w.locs p = some loc)
    (hrun : loc.runningAddr = bp.instrAddr + w.loadAddress) {q : LocPtr} {l : BpLocation}
    (hq : w.locs q = some l) (hmem : b ∈ l.bpList) : q = p ∧ l = loc := by
  obtain ⟨-, htarget⟩ := h.attached.listed hq hmem
  rw [World.target_eq hb, ← hrun] at htarget
  have hqp : q = p := h.attached.ptr_eq hp
    (Option.some.inj htarget ▸ h.attached.registered q l hq)
  subst hqp
  exact ⟨rfl, Option.some.inj (hq.symm.trans hp)⟩

/-- What `remove_breakpoint` does to the heap and the lists of an active debugger. -/
theorem removeBreakpoint_fields (h : Registry w) (hb : w.bps b = some bp)
    (hl : bp.location = some p) (hp : w.locs p = some loc) :
    ∃ w', removeBreakpoint k w b = .ok w' ∧ w'.bps = Function.update w.bps b none ∧
      w'.pendingBreakpoints = w.pendingBreakpoints.erase b ∧ w'.bpLocations = w.bpLocations ∧
      w'.locs = Function.update w.locs p (some { loc with
        bpList := loc.bpList.erase b
        patched := loc.patched && !(loc.bpList.erase b).isEmpty }) := by
  obtain ⟨ht, -, heq⟩ := removeBreakpoint_attached_eq (k := k) h hb hl hp
  refine ⟨_, heq, rfl, rfl, rfl, ?_⟩
  dsimp only
  split_ifs with he
  · rw [disarm_fst, he, Bool.not_true, Bool.and_false]
  · rw [Bool.eq_false_iff.mpr he, Bool.not_false, Bool.and_true]

/-- The patch that stays unless the list is empty, with the flag of the deleted breakpoint, whether
the list is empty and whether some other flag is on. -/
theorem left_patch_iff {enable empty other : Bool} (h : empty = true → other = false) :
    ((enable || other) && !empty) = other ↔ (!enable || (empty || other)) = true := by
  cases enable <;> cases empty <;> cases other <;> simp_all

/-- **Deleting a breakpoint leaves all else as it was** exactly when it may go: its location is then
patched when a breakpoint left there is enabled, and otherwise the original byte is back. -/
theorem removeBreakpoint_forgets_iff (h : Ready w []) (ha : w.state = .active)
    (ht : TrapsEnabled w) (hb : w.bps b = some bp) :
    (∃ w', removeBreakpoint k w b = .ok w' ∧ Forgets k w w' b) ↔ mayGo w b = true := by
  obtain ⟨p, loc, hl, hp, htemp, hrun, hreg, hlist⟩ := h.location ha hb
  obtain ⟨w', hok, hbps, hpending, htable, hlocs⟩ :=
    removeBreakpoint_fields (k := k) h.registry hb hl hp
  have hmem : b ∈ loc.bpList := by
    rw [hlist]
    exact World.mem_runningAt.mpr ⟨h.registry.mem hb, World.target_eq hb⟩
  have hnodup : loc.bpList.Nodup := by
    rw [hlist]
    exact h.registry.nodup.filter _
  have hpatched : loc.patched = (w.enabled b || (loc.bpList.erase b).any w.enabled) := by
    rw [← List.any_cons, ← (List.perm_cons_erase hmem).any_eq, Bool.eq_iff_iff, List.any_eq_true]
    exact ht _ p loc hreg hp htemp
  have hgo : mayGo w b = (!w.enabled b ||
      ((loc.bpList.erase b).isEmpty || (loc.bpList.erase b).any w.enabled)) := by
    rw [mayGo, hb, Option.bind_some, hl, Option.bind_some, hp, Option.all_some]
  have henabled : (loc.bpList.erase b).any w'.enabled = (loc.bpList.erase b).any w.enabled := by
    rw [Bool.eq_iff_iff, List.any_eq_true, List.any_eq_true]
    refine exists_congr fun q => and_congr_right fun hq => ?_
    have hne : q ≠ b := (hnodup.mem_erase_iff.mp hq).1
    rw [World.enabled, hbps, Function.update_of_ne hne, World.enabled]
  -- what is left at the location is right exactly when the breakpoint may go
  have hleft : (loc.patched && !(loc.bpList.erase b).isEmpty) = (loc.bpList.erase b).any w'.enabled ↔
      mayGo w b = true := by
    have hempty : (loc.bpList.erase b).isEmpty = true →
        (loc.bpList.erase b).any w.enabled = false := by
      intro he
      rw [List.isEmpty_iff.mp he, List.any_nil]
    rw [henabled, hpatched, hgo]
    exact left_patch_iff hempty
  rw [← hleft]
  constructor
  · rintro ⟨w₁, hok₁, hforgets⟩
    obtain rfl := Except.ok.inj (hok.symm.trans hok₁)
    obtain ⟨loc', hp', -, hlist', hiff⟩ := hforgets.left p loc hp hmem
    rw [hlocs, Function.update_self] at hp'
    obtain rfl := Option.some.inj hp'
    rw [Bool.eq_iff_iff, List.any_eq_true]
    exact hiff
  · intro hright
    have hp' : w'.locs p = some { loc with
        bpList := loc.bpList.erase b
        patched := loc.patched && !(loc.bpList.erase b).isEmpty } := by
      rw [hlocs, Function.update_self]
    refine ⟨w', hok, fun q hq => by rw [hbps, Function.update_of_ne hq], hpending, htable,
      fun q l hq hnot => ?_, fun q l hq hlmem => ?_, fun hk hh orig htr q l hq hpat => ?_⟩
    · rw [hlocs, Function.update_of_ne, hq]
      rintro rfl
      rw [Option.some.inj (hq.symm.trans hp)] at hnot
      exact hnot hmem
    · obtain ⟨rfl, rfl⟩ := h.holder_eq hb hp hrun hq hlmem
      refine ⟨_, hp', rfl, rfl, ?_⟩
      rw [← List.any_eq_true, ← Bool.eq_iff_iff]
      exact hright
    · have htr' := removeBreakpoint_transparent hk hh htr h.registry hb hl hp hok
      have hready := removeBreakpoint_ready h hok
      exact htr'.plain _ ((hready.attached.toMapped.isPatched_loc hq).trans hpat)

/-- Two breakpoints on one address, the second one disabled. -/
def twoShared : List BpOp := [.set .addr 0x401000, .set .addr 0x401000, .disable 2]

theorem twoShared_trapsEnabled (hrun : (startTracee .idle .stripped dbgInit >>=
    twoShared.foldlM (BpOp.run .idle)) = .ok w) :
    (Ready w [] ∧ w.state = .active) ∧ TrapsEnabled w := by
  obtain ⟨w₀, hstart, hrun⟩ := bind_eq_ok.mp hrun
  obtain ⟨h, ha, ht⟩ := startTracee_trapsEnabled hstart
  refine Along.invariant (fun _ _ _ => BpOp.run_harmless) (.of_forall (fun op hop s => ?_) _)
    ⟨⟨h, ha⟩, ht⟩ hrun
  rcases List.mem_cons.mp hop with rfl | hop
  · rfl
  · rcases List.mem_pair.mp hop with rfl | rfl <;> rfl

/-- The disabled one of two breakpoints may go. -/
theorem removeBreakpoint_forgets_iff_second : ∃ w, (startTracee .idle .stripped dbgInit >>=
      twoShared.foldlM (BpOp.run .idle)) = .ok w ∧
    ((∃ w', removeBreakpoint .idle w 2 = .ok w' ∧ Forgets .idle w w' 2) ↔ mayGo w 2 = true) := by
  obtain ⟨w, hw, hb⟩ := exists_of_any (p := fun w => (w.bps 2).isSome)
    (x := startTracee .idle .stripped dbgInit >>= twoShared.foldlM (BpOp.run .idle))
    (by decide +kernel)
  obtain ⟨⟨h, ha⟩, ht⟩ := twoShared_trapsEnabled hw
  obtain ⟨bp, hb⟩ := Option.isSome_iff_exists.mp hb
  exact ⟨w, hw, removeBreakpoint_forgets_iff h ha ht hb⟩

/-- The enabled one of two breakpoints is deleted: its location stays patched for the disabled
one. -/
theorem removeBreakpoint_leaves_patch : ∃ w w', (startTracee .idle .stripped dbgInit >>=
      twoShared.foldlM (BpOp.run .idle)) = .ok w ∧ w.state = .active ∧ TrapsEnabled w ∧
    removeBreakpoint .idle w 0 = .ok w' ∧ ¬Forgets .idle w w' 0 := by
  obtain ⟨w, hw, hp⟩ := exists_of_any
    (p := fun w : World => ((w.locs 1).any fun loc : BpLocation => loc.bpList.elem 0) &&
      (removeBreakpoint .idle w 0).toOption.any fun w' : World =>
        (w'.locs 1).any fun loc : BpLocation => loc.patched && !loc.bpList.any w'.enabled)
    (x := startTracee .idle .stripped dbgInit >>= twoShared.foldlM (BpOp.run .idle))
    (by decide +kernel)
  obtain ⟨⟨-, ha⟩, ht⟩ := twoShared_trapsEnabled hw
  rw [Bool.and_eq_true] at hp
  obtain ⟨loc, hloc, hmem⟩ := (Option.any_eq_true _ _).mp hp.1
  obtain ⟨w', hw', hp'⟩ := exists_of_any hp.2
  obtain ⟨loc', hloc', hpatched⟩ := (Option.any_eq_true _ _).mp hp'
  refine ⟨w, w', hw, ha, ht, hw', fun hforgets => ?_⟩
  obtain ⟨loc₁, hloc₁, -, -, hiff⟩ := hforgets.left 1 loc hloc (List.elem_iff.mp hmem)
  obtain rfl := Option.some.inj (hloc'.symm.trans hloc₁)
  rw [← List.any_eq_true, ← Bool.eq_iff_iff] at hiff
  rw [hiff, Bool.and_not_self] at hpatched
  cases hpatched

end Removing

end Vdbg
