import Vdbg.Breakpoint

/-!
# What the functions of breakpoint.c do

One equation for each function, on a state in which the objects it reads are live. `arm` and
`disarm` are what `loc_enable` and `loc_disable` do to a location and to the tracee; every other
function changes a location only through them.
-/

namespace Vdbg

open Words FaultRun

/-! ## Reads and updates of the heap -/

namespace World

variable {w : World} {b : BpPtr} {p : LocPtr}

theorem derefBp_eq {bp : Breakpoint} (h : w.bps b = some bp) : w.derefBp b = .ok bp := by
  rw [derefBp, h]

theorem derefLoc_eq {loc : BpLocation} (h : w.locs p = some loc) : w.derefLoc p = .ok loc := by
  rw [derefLoc, h]

theorem derefBp_eq_ok {bp : Breakpoint} : w.derefBp b = .ok bp ↔ w.bps b = some bp := by
  unfold derefBp
  cases w.bps b <;> simp

theorem derefLoc_eq_ok {loc : BpLocation} : w.derefLoc p = .ok loc ↔ w.locs p = some loc := by
  unfold derefLoc
  cases w.locs p <;> simp

theorem derefBp_dead (h : w.bps b = none) : w.derefBp b = .error (.useAfterFree, w) := by
  rw [derefBp, h]

theorem derefLoc_dead (h : w.locs p = none) : w.derefLoc p = .error (.useAfterFree, w) := by
  rw [derefLoc, h]

theorem setLoc_self {loc : BpLocation} (h : w.locs p = some loc) : w.setLoc p loc = w := by
  rw [setLoc, ← h, Function.update_eq_self]

/-- The state in which none of the listed breakpoints has a location. -/
def detach (w : World) (bs : List BpPtr) : World :=
  { w with
    bps := fun b => if b ∈ bs then (w.bps b).map fun bp => { bp with location := none }
      else w.bps b }

@[simp] theorem detach_nil (w : World) : w.detach [] = w := by simp [detach]

theorem detach_bps_of_mem {bs : List BpPtr} (h : b ∈ bs) :
    (w.detach bs).bps b = (w.bps b).map fun bp => { bp with location := none } := if_pos h

theorem detach_bps_of_not_mem {bs : List BpPtr} (h : b ∉ bs) : (w.detach bs).bps b = w.bps b :=
  if_neg h

/-- The `enable` flag of a breakpoint, off where it is not live. -/
def enabled (w : World) (b : BpPtr) : Bool := (w.bps b).any Breakpoint.enable

theorem enabled_eq {bp : Breakpoint} (h : w.bps b = some bp) : w.enabled b = bp.enable := by
  rw [enabled, h, Option.any_some]

end World

/-! ## Arming and disarming a location -/

/-- `loc_enable` on a location and the tracee. -/
def arm (k : Kernel) (t : Tracee) (loc : BpLocation) : BpLocation × Tracee :=
  if loc.patched then (loc, t)
  else
    let (data, t) := t.peekData k loc.pid loc.runningAddr
    ({ loc with savedData := data.setWidth 8, patched := true },
      t.pokeData k loc.pid loc.runningAddr (setLow data 0xcc))

/-- `loc_disable` on a location and the tracee. -/
def disarm (k : Kernel) (t : Tracee) (loc : BpLocation) : BpLocation × Tracee :=
  if !loc.patched then (loc, t)
  else if !t.alive loc.pid then ({ loc with patched := false }, t)
  else
    let (data, t) := t.peekData k loc.pid loc.runningAddr
    ({ loc with patched := false },
      t.pokeData k loc.pid loc.runningAddr (setLow data loc.savedData))

section Arm

variable (k : Kernel) (t : Tracee) (loc : BpLocation)

@[simp] theorem arm_patched : (arm k t loc).1.patched = true := by
  unfold arm; split_ifs with h
  · exact h
  · rfl

@[simp] theorem disarm_patched : (disarm k t loc).1.patched = false := by
  unfold disarm; split_ifs with h
  · simpa using h
  · rfl
  · rfl

/-- Arming changes the flag and the saved byte alone. -/
theorem arm_fst : ∃ s, (arm k t loc).1 = { loc with savedData := s, patched := true } := by
  unfold arm; split_ifs with h
  · exact ⟨loc.savedData, by rw [← h]⟩
  · exact ⟨_, rfl⟩

theorem disarm_fst : (disarm k t loc).1 = { loc with patched := false } := by
  unfold disarm; split_ifs with h
  · have h' : loc.patched = false := by simpa using h
    rw [← h']
  · rfl
  · rfl

theorem arm_regs : (arm k t loc).2.regs = t.regs := by
  unfold arm Tracee.pokeData
  dsimp only
  split_ifs <;> rfl

theorem disarm_regs : (disarm k t loc).2.regs = t.regs := by
  unfold disarm Tracee.pokeData
  dsimp only
  split_ifs <;> rfl

theorem arm_of_patched (h : loc.patched = true) : arm k t loc = (loc, t) := if_pos h

theorem disarm_of_not_patched (h : loc.patched = false) : disarm k t loc = (loc, t) :=
  if_pos (by simp [h])

/-- A location that is armed or disarmed by a flag. -/
theorem armed_fst (e : Bool) : ∃ s, (if e then arm k t loc else disarm k t loc).1 =
    { loc with savedData := s, patched := e } := by
  cases e with
  | true => exact arm_fst k t loc
  | false => exact ⟨loc.savedData, disarm_fst k t loc⟩

end Arm

section Effects

variable {k : Kernel} {w : World} {p : LocPtr} {loc : BpLocation} {b : BpPtr} {bp : Breakpoint}

theorem locEnable_eq (h : w.locs p = some loc) :
    locEnable k w p =
      .ok ((w.setTracee (arm k w.tracee loc).2).setLoc p (arm k w.tracee loc).1) := by
  unfold locEnable arm
  rw [World.derefLoc_eq h, ok_bind]
  split_ifs with hp
  · exact congrArg Except.ok (World.setLoc_self h).symm
  · rfl

theorem locDisable_eq (h : w.locs p = some loc) :
    locDisable k w p =
      .ok ((w.setTracee (disarm k w.tracee loc).2).setLoc p (disarm k w.tracee loc).1) := by
  unfold locDisable disarm
  rw [World.derefLoc_eq h, ok_bind]
  split_ifs with hp ha
  · exact congrArg Except.ok (World.setLoc_self h).symm
  · rfl
  · rfl

theorem locEnable_dead (h : w.locs p = none) : locEnable k w p = .error (.useAfterFree, w) := by
  rw [locEnable, World.derefLoc_dead h, error_bind]

/-! ## Lists of breakpoints -/

theorem bpListOf_eq (h : loc.isTemp = false) : bpListOf w loc = .ok loc.bpList := by
  rw [bpListOf, h]; rfl

theorem enableFlags_eq {bs : List BpPtr} (h : ∀ b ∈ bs, (w.bps b).isSome) :
    enableFlags w bs = .ok (bs.map w.enabled) := by
  induction bs with
  | nil => rfl
  | cons b bs ih =>
    obtain ⟨bp, hb⟩ := Option.isSome_iff_exists.mp (h b List.mem_cons_self)
    have ih' := ih fun b' hb' => h b' (List.mem_cons_of_mem _ hb')
    unfold enableFlags at ih' ⊢
    rw [List.mapM_cons, World.derefBp_eq hb, ih', List.map_cons, World.enabled_eq hb]
    rfl

theorem clearLocations_eq {bs : List BpPtr} (h : ∀ b ∈ bs, (w.bps b).isSome) :
    clearLocations w bs = .ok (w.detach bs) := by
  induction bs generalizing w with
  | nil => simp [clearLocations, World.detach, pure, Except.pure]
  | cons b bs ih =>
    obtain ⟨bp, hb⟩ := Option.isSome_iff_exists.mp (h b List.mem_cons_self)
    unfold clearLocations at ih ⊢
    rw [List.foldlM_cons, World.derefBp_eq hb, ok_bind, pure_bind, ih]
    · unfold World.detach
      congr 2
      funext b'
      by_cases he : b' = b
      · subst he
        simp [World.setBp, hb]
      · simp [World.setBp, he]
    · intro b' hb'
      by_cases he : b' = b
      · subst he; simp [World.setBp]
      · simpa [World.setBp, Function.update_of_ne he] using h b' (List.mem_cons_of_mem _ hb')

/-! ## The functions -/

theorem locFree_eq (h : w.locs p = some loc) (htemp : loc.isTemp = true → loc.bpList = [])
    (hlive : ∀ b ∈ loc.bpList, (w.bps b).isSome) :
    locFree k w p =
      .ok (((w.detach loc.bpList).setTracee (disarm k w.tracee loc).2).freeLoc p) := by
  have hp : (w.detach loc.bpList).locs p = some loc := h
  have hrest : (locDisable k (w.detach loc.bpList) p >>= fun w => .ok (w.freeLoc p)) =
      .ok (((w.detach loc.bpList).setTracee (disarm k w.tracee loc).2).freeLoc p) := by
    rw [locDisable_eq hp, ok_bind]
    simp [World.freeLoc, World.setLoc, World.setTracee, World.detach]
  unfold locFree
  rw [World.derefLoc_eq h, ok_bind]
  dsimp only
  split_ifs with ht
  · rw [ok_bind]
    rw [htemp ht, World.detach_nil] at hrest ⊢
    exact hrest
  · rw [clearLocations_eq hlive, ok_bind]
    exact hrest

theorem bpInit_eq (hid : w.globalIdCounter ≠ 0) (kind : BpKind) (addr : Addr) :
    bpInit w kind addr = .ok (w.nextPtr,
      { w with nextPtr := w.nextPtr + 1, globalIdCounter := w.globalIdCounter + 1 }.setBp w.nextPtr
        { id := w.globalIdCounter, kind, instrAddr := addr, location := none, enable := true }) := by
  unfold bpInit
  rw [if_neg hid]
  rfl

theorem not_null {pid : Pid} {a : Addr} (hpid : pid ≠ 0) (ha : a ≠ 0) :
    ¬(pid = 0 || a = 0) = true := by
  simpa only [Bool.or_eq_true, decide_eq_true_eq, not_or] using ⟨hpid, ha⟩

/-- `loc_init` asserts its arguments. -/
theorem locInit_asserts {pid : Pid} {a : Addr} {bp? : Option BpPtr} {isTemp : Bool}
    {r : LocPtr × World} (hok : locInit k w pid a bp? isTemp = .ok r) : pid ≠ 0 ∧ a ≠ 0 := by
  by_cases hor : (pid = 0 || a = 0) = true
  · unfold locInit at hok
    rw [if_pos hor] at hok
    cases hok
  · simpa only [Bool.or_eq_true, decide_eq_true_eq, not_or] using hor

theorem locInit_temp_eq {pid : Pid} {addr : Addr} (hpid : pid ≠ 0) (haddr : addr ≠ 0) :
    locInit k w pid addr none true =
      let loc : BpLocation := ⟨pid, false, true, 0, addr, []⟩
      .ok (w.nextPtr, ({ w with nextPtr := w.nextPtr + 1 }.setTracee (arm k w.tracee loc).2).setLoc
        w.nextPtr (arm k w.tracee loc).1) := by
  have hnew : (World.setLoc { w with nextPtr := w.nextPtr + 1 } w.nextPtr
      ⟨pid, false, true, 0, addr, []⟩).locs w.nextPtr = some ⟨pid, false, true, 0, addr, []⟩ := by
    simp [World.setLoc]
  unfold locInit
  rw [if_neg (not_null hpid haddr), if_neg (by simp)]
  dsimp only [Option.toList]
  rw [locEnable_eq hnew]
  simp [World.setLoc, World.setTracee, bind, Except.bind, pure, Except.pure]

/-- A user location and whether its first breakpoint arms it. -/
theorem locInit_user_eq {pid : Pid} {addr : Addr} (hpid : pid ≠ 0) (haddr : addr ≠ 0)
    (hb : w.bps b = some bp) :
    locInit k w pid addr (some b) false =
      let loc : BpLocation := ⟨pid, false, false, 0, addr, [b]⟩
      let armed := if bp.enable then arm k w.tracee loc else (loc, w.tracee)
      .ok (w.nextPtr, (({ w with nextPtr := w.nextPtr + 1 }.setTracee armed.2).setLoc w.nextPtr
        armed.1).setBp b { bp with location := some w.nextPtr }) := by
  have hb' : ({ w with nextPtr := w.nextPtr + 1 }.setLoc w.nextPtr
      ⟨pid, false, false, 0, addr, [b]⟩).bps b = some bp := hb
  have hnew : ((World.setLoc { w with nextPtr := w.nextPtr + 1 } w.nextPtr
      ⟨pid, false, false, 0, addr, [b]⟩).setBp b { bp with location := some w.nextPtr }).locs
      w.nextPtr = some ⟨pid, false, false, 0, addr, [b]⟩ := by
    simp [World.setLoc, World.setBp]
  unfold locInit
  rw [if_neg (not_null hpid haddr), if_neg (by simp)]
  dsimp only [Option.toList]
  rw [World.derefBp_eq hb', ok_bind]
  split_ifs with he
  · rw [locEnable_eq hnew]
    simp [World.setLoc, World.setBp, World.setTracee, bind, Except.bind, pure, Except.pure]
  · rfl

/-- A breakpoint joins a user location, which ends up armed exactly when it is enabled. -/
theorem locAppend_eq (hb : w.bps b = some bp) (hp : w.locs p = some loc)
    (ht : loc.isTemp = false) (hmem : b ∉ loc.bpList) :
    locAppendBreakpointToList k w p b =
      let loc' := { loc with bpList := loc.bpList ++ [b] }
      let armed := if bp.enable then arm k w.tracee loc' else disarm k w.tracee loc'
      .ok (((w.setTracee armed.2).setBp b { bp with location := some p }).setLoc p armed.1) := by
  have hp' : (w.setBp b { bp with location := some p }).locs p = some loc := hp
  have hloc : ((w.setBp b { bp with location := some p }).setLoc p
      { loc with bpList := loc.bpList ++ [b] }).locs p =
      some { loc with bpList := loc.bpList ++ [b] } := by simp [World.setLoc]
  unfold locAppendBreakpointToList
  rw [World.derefBp_eq hb, ok_bind]
  dsimp only
  rw [World.derefLoc_eq hp', ok_bind, bpListOf_eq ht, ok_bind, if_neg hmem, locEnable_eq hloc,
    locDisable_eq hloc]
  rcases he : bp.enable <;> rcases hpat : loc.patched <;>
    simp [World.setLoc, World.setBp, World.setTracee, pure, Except.pure, arm_of_patched,
      disarm_of_not_patched]

theorem bpEnable_detached_eq (hb : w.bps b = some bp) (hl : bp.location = none) :
    bpEnable k w b = .ok (w.setBp b { bp with enable := true }) := by
  obtain ⟨id, kind, e, addr, _⟩ := bp
  cases hl
  unfold bpEnable
  rw [World.derefBp_eq hb, ok_bind]
  rfl

theorem bpDisable_detached_eq (hb : w.bps b = some bp) (hl : bp.location = none) :
    bpDisable k w b = .ok (w.setBp b { bp with enable := false }) := by
  obtain ⟨id, kind, e, addr, _⟩ := bp
  cases hl
  unfold bpDisable
  rw [World.derefBp_eq hb, ok_bind]
  rfl

theorem isSome_setBp (bp' : Breakpoint) {q : BpPtr} (h : (w.bps q).isSome) :
    ((w.setBp b bp').bps q).isSome := by
  by_cases hq : q = b
  · subst hq; simp [World.setBp]
  · simpa [World.setBp, Function.update_of_ne hq] using h

theorem bpEnable_attached_eq (hb : w.bps b = some bp) (hl : bp.location = some p)
    (hp : w.locs p = some loc) (ht : loc.isTemp = false)
    (hlive : ∀ q ∈ loc.bpList, (w.bps q).isSome) :
    bpEnable k w b =
      let w' := w.setBp b { bp with enable := true }
      let armed := if loc.bpList.all w'.enabled then arm k w.tracee loc else (loc, w.tracee)
      .ok ((w'.setTracee armed.2).setLoc p armed.1) := by
  obtain ⟨id, kind, e, addr, _⟩ := bp
  cases hl
  have hp' : (w.setBp b ⟨id, kind, true, addr, some p⟩).locs p = some loc := hp
  unfold bpEnable
  rw [World.derefBp_eq hb, ok_bind]
  dsimp only
  rw [World.derefLoc_eq hp', ok_bind, bpListOf_eq ht, ok_bind,
    enableFlags_eq fun q hq => isSome_setBp _ (hlive q hq), ok_bind, locEnable_eq hp']
  simp only [List.all_map, Function.id_comp]
  split_ifs with hall
  · rfl
  · exact congrArg Except.ok (World.setLoc_self hp').symm

theorem bpDisable_attached_eq (hb : w.bps b = some bp) (hl : bp.location = some p)
    (hp : w.locs p = some loc) (ht : loc.isTemp = false)
    (hlive : ∀ q ∈ loc.bpList, (w.bps q).isSome) :
    bpDisable k w b =
      let w' := w.setBp b { bp with enable := false }
      let armed := if loc.bpList.any w'.enabled then (loc, w.tracee) else disarm k w.tracee loc
      .ok ((w'.setTracee armed.2).setLoc p armed.1) := by
  obtain ⟨id, kind, e, addr, _⟩ := bp
  cases hl
  have hp' : (w.setBp b ⟨id, kind, false, addr, some p⟩).locs p = some loc := hp
  unfold bpDisable
  rw [World.derefBp_eq hb, ok_bind]
  dsimp only
  rw [World.derefLoc_eq hp', ok_bind, bpListOf_eq ht, ok_bind,
    enableFlags_eq fun q hq => isSome_setBp _ (hlive q hq), ok_bind, locDisable_eq hp']
  simp only [List.any_map, Function.id_comp]
  split_ifs with hany
  · exact congrArg Except.ok (World.setLoc_self hp').symm
  · rfl

theorem bpFree_detached_eq (hb : w.bps b = some bp) (hl : bp.location = none) :
    bpFree k w b = .ok (w.freeBp b) := by
  unfold bpFree
  rw [World.derefBp_eq hb, ok_bind, hl]
  rfl

/-- A freed breakpoint leaves its location, which is disarmed when that empties its list. -/
theorem bpFree_attached_eq (hb : w.bps b = some bp) (hl : bp.location = some p)
    (hp : w.locs p = some loc) :
    bpFree k w b =
      let loc' := { loc with bpList := loc.bpList.erase b }
      let armed := if (loc.bpList.erase b).isEmpty then disarm k w.tracee loc' else (loc', w.tracee)
      .ok (((w.setTracee armed.2).setLoc p armed.1).freeBp b) := by
  have hp' : (w.setLoc p { loc with bpList := loc.bpList.erase b }).locs p =
      some { loc with bpList := loc.bpList.erase b } := by simp [World.setLoc]
  unfold bpFree
  rw [World.derefBp_eq hb, ok_bind, hl]
  dsimp only
  rw [World.derefLoc_eq hp, ok_bind, locDisable_eq hp']
  split_ifs with he
  · rw [ok_bind]
    simp [World.setLoc, World.setTracee, pure, Except.pure]
  · rfl

end Effects

end Vdbg
