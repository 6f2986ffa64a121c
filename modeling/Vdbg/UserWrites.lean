import Vdbg.Continue

/-!
# Writes of the user

`memory write` writes a word over whatever is there. It does not know of the patches in the word:
an `int3` is overwritten, and the saved byte under it is still the old one and comes back with the
next `loc_disable`. What the user writes survives exactly when every patch in the word is written
over by `int3` and saved `int3` in the first place (`memoryWrite_survives_iff`).
-/

namespace Vdbg

open Words FaultRun

variable {k : Kernel} {syms : Symbols}

/-- Every patched location holds `int3`. -/
def World.Armed (w : World) : Prop :=
  ∀ p loc, w.locs p = some loc → loc.patched = true → w.tracee.mem loc.runningAddr = 0xcc

/-- The memory with every saved byte put back. -/
def World.restoredMemory (w : World) : Memory := fun a =>
  match (mapLookup w.bpLocations a).bind w.locs with
  | some loc => if loc.patched then loc.savedData else w.tracee.mem a
  | none => w.tracee.mem a

section Restored

variable {w : World} {p : LocPtr} {loc : BpLocation} {a : Addr}

theorem restoredMemory_loc (h : Mapped w) (hp : w.locs p = some loc) (hpat : loc.patched = true) :
    w.restoredMemory loc.runningAddr = loc.savedData := by
  unfold World.restoredMemory
  rw [h.registered p loc hp, Option.bind_some, hp]
  exact if_pos hpat

theorem restoredMemory_plain (ha : w.isPatched a = false) :
    w.restoredMemory a = w.tracee.mem a := by
  unfold World.isPatched at ha
  unfold World.restoredMemory
  rcases hl : (mapLookup w.bpLocations a).bind w.locs with - | loc
  · rfl
  · rw [hl, Option.any_some] at ha
    exact if_neg (by rw [ha]; decide)

theorem World.Armed.transparent (ha : w.Armed) (h : Mapped w) : Transparent w w.restoredMemory :=
  ⟨fun p loc hp hpat => ⟨ha p loc hp hpat, (restoredMemory_loc h hp hpat).symm⟩,
    fun _ hplain => (restoredMemory_plain hplain).symm⟩

end Restored

/-! ## Patches that are taken away -/

/-- The memory is `orig` but for patches that `w₀` had as well. -/
structure Unpatches (w₀ : World) (orig : Memory) (w : World) : Prop where
  hosted : Hosted w
  transparent : Transparent w orig
  within : ∀ a, w.isPatched a = true → w₀.isPatched a = true

section Unpatching

variable {w₀ w w' : World} {orig : Memory} {p : LocPtr} {loc : BpLocation} {b : BpPtr} {a : Addr}

/-- Breakpoints, the pending list and the map of ids do not matter. -/
theorem Unpatches.congr (h : Unpatches w₀ orig w) (hlocs : w'.locs = w.locs)
    (htable : w'.bpLocations = w.bpLocations) (hpid : w'.pid = w.pid)
    (hnext : w'.nextPtr = w.nextPtr) (htracee : w'.tracee = w.tracee) : Unpatches w₀ orig w' := by
  refine ⟨h.hosted.congr hlocs htable hpid hnext.ge (by rw [htracee]; exact h.hosted.alive),
    h.transparent.congr hlocs htable (by rw [htracee]), fun a ha => h.within a ?_⟩
  rwa [World.isPatched, htable, hlocs] at ha

theorem Unpatches.locDisable (hk : k.Accessible) (h : Unpatches w₀ orig w)
    (hok : locDisable k w p = .ok w') : Unpatches w₀ orig w' := by
  obtain ⟨hh, ht⟩ := locDisable_transparent hk h.hosted h.transparent hok
  refine ⟨hh, ht, fun a ha => h.within a ?_⟩
  obtain ⟨loc, hp, -⟩ := bind_eq_ok.mp hok
  rw [World.derefLoc_eq_ok] at hp
  rw [locDisable_eq hp] at hok
  cases hok
  have hlocs : ((w.setTracee (disarm k w.tracee loc).2).setLoc p (disarm k w.tracee loc).1).locs =
      Function.update w.locs p (some (disarm k w.tracee loc).1) := rfl
  rw [isPatched_update h.hosted.toMapped hp hlocs rfl, disarm_patched] at ha
  split_ifs at ha
  exact ha

/-- A location loses a breakpoint. -/
theorem Unpatches.setList (h : Unpatches w₀ orig w) (hp : w.locs p = some loc) (bs : List BpPtr) :
    Unpatches w₀ orig (w.setLoc p { loc with bpList := bs }) := by
  have hmapped := h.hosted.toMapped
  have hpatched : ∀ a, (w.setLoc p { loc with bpList := bs }).isPatched a = w.isPatched a := by
    intro a
    have hlocs : (w.setLoc p { loc with bpList := bs }).locs =
        Function.update w.locs p (some { loc with bpList := bs }) := rfl
    rw [isPatched_update hmapped hp hlocs rfl]
    split_ifs with ha
    · rw [ha, hmapped.isPatched_loc hp]
    · rfl
  refine ⟨h.hosted.setLoc (t := w.tracee) hp rfl rfl h.hosted.alive,
    h.transparent.setLoc (t := w.tracee) hmapped hp rfl (Function.update_eq_self _ _).symm ?_,
    fun a ha => h.within a (hpatched a ▸ ha)⟩
  split_ifs with hpat
  · exact h.transparent.armed p loc hp hpat
  · exact h.transparent.plain _ ((hmapped.isPatched_loc hp).trans (by simpa using hpat))

theorem Unpatches.bpDisable (hk : k.Accessible) (h : Unpatches w₀ orig w)
    (hok : bpDisable k w b = .ok w') : Unpatches w₀ orig w' := by
  obtain ⟨bp, -, hok⟩ := bind_eq_ok.mp hok
  have hset : Unpatches w₀ orig (w.setBp b { bp with enable := false }) :=
    h.congr rfl rfl rfl rfl rfl
  dsimp only at hok
  split at hok
  · cases hok
    exact hset
  · obtain ⟨loc, -, hok⟩ := bind_eq_ok.mp hok
    obtain ⟨list, -, hok⟩ := bind_eq_ok.mp hok
    obtain ⟨flags, -, hok⟩ := bind_eq_ok.mp hok
    split_ifs at hok
    · cases hok
      exact hset
    · exact hset.locDisable hk hok

theorem Unpatches.bpFree (hk : k.Accessible) (h : Unpatches w₀ orig w)
    (hok : bpFree k w b = .ok w') : Unpatches w₀ orig w' := by
  obtain ⟨bp, -, hok⟩ := bind_eq_ok.mp hok
  split at hok
  · cases hok
    exact h.congr rfl rfl rfl rfl rfl
  · obtain ⟨loc, hp, hok⟩ := bind_eq_ok.mp hok
    rw [World.derefLoc_eq_ok] at hp
    have hset := h.setList hp (loc.bpList.erase b)
    dsimp only at hok
    split_ifs at hok
    · obtain ⟨w₁, hdisable, hok⟩ := bind_eq_ok.mp hok
      cases hok
      exact (hset.locDisable hk hdisable).congr rfl rfl rfl rfl rfl
    · cases hok
      exact hset.congr rfl rfl rfl rfl rfl

theorem Unpatches.deleteBreakpoint (hk : k.Accessible) (h : Unpatches w₀ orig w)
    (hok : deleteBreakpoint k w b = .ok w') : Unpatches w₀ orig w' := by
  obtain ⟨bp, -, hok⟩ := bind_eq_ok.mp hok
  exact FaultRun.invariant (P := Unpatches w₀ orig) (s := { w with breakpoints := (mapDelete
    w.breakpoints bp.id).2 }) (fun _ _ _ h => h.bpFree hk) (h.congr rfl rfl rfl rfl rfl) hok

theorem Unpatches.removeBreakpoint (hk : k.Accessible) (h : Unpatches w₀ orig w)
    (hok : removeBreakpoint k w b = .ok w') : Unpatches w₀ orig w' :=
  Unpatches.deleteBreakpoint (w := deleteBreakpointFromPending w b) hk
    (h.congr rfl rfl rfl rfl rfl) hok

/-- The patch of a deleted location is gone, and no other one is touched. -/
theorem Unpatches.deleteLocation (hk : k.Accessible) (h : Unpatches w₀ orig w)
    (hok : deleteLocation k w a = .ok w') : Unpatches w₀ orig w' := by
  obtain ⟨hh, ht⟩ := deleteLocation_transparent hk h.hosted h.transparent hok
  refine ⟨hh, ht, fun x hx => h.within x ?_⟩
  rcases hp : mapLookup w.bpLocations a with - | p
  · rw [deleteLocation_absent hp] at hok
    cases hok
    exact hx
  · obtain ⟨table, htable⟩ := Option.isSome_iff_exists.mp h.hosted.present
    unfold Vdbg.deleteLocation freeLocs at hok
    rw [htable, mapDelete_present (h.hosted.cleans table htable) (htable ▸ hp)] at hok
    dsimp only at hok
    obtain ⟨w₁, hfree, hok⟩ := foldlM_cons_eq_ok.mp hok
    cases hok
    obtain ⟨loc, hloc, hw'⟩ := locFree_ok hfree
    have hlocs : w'.locs = Function.update w.locs p none := by rw [hw']
    -- a location that is still there was there before, under the same address
    obtain ⟨q, l, -, hq, hpat, rfl⟩ := hh.toMapped.patched_loc hx
    rcases locs_cases hlocs hq with ⟨-, ⟨⟩⟩ | ⟨-, hq⟩
    exact (h.hosted.toMapped.isPatched_loc hq).trans hpat

theorem Unpatches.removeOne (hk : k.Accessible) (h : Unpatches w₀ orig w)
    (hok : removeOne k w b = .ok w') : Unpatches w₀ orig w' := by
  obtain ⟨bp, -, hok⟩ := bind_eq_ok.mp hok
  obtain ⟨w₁, hdelete, hok⟩ := bind_eq_ok.mp hok
  have h₁ : Unpatches w₀ orig w₁ := Unpatches.deleteLocation
    (w := deleteBreakpointFromPending w b) hk (h.congr rfl rfl rfl rfl rfl) hdelete
  exact h₁.deleteBreakpoint hk hok

/-! ## Commands that take patches away -/

/-- `delete` and `disable`. -/
def Command.takesAway : Command → Bool
  | .delete _ | .disable _ => true
  | _ => false

theorem Unpatches.forArgs {act : World → BpPtr → Res World} {args : List BpArg}
    (hact : ∀ w b w', Unpatches w₀ orig w → act w b = .ok w' → Unpatches w₀ orig w')
    (h : Unpatches w₀ orig w) (hok : forArgs syms act w args = .ok w') : Unpatches w₀ orig w' := by
  refine FaultRun.invariant (P := Unpatches w₀ orig) (fun w arg w' h hok => ?_) h hok
  obtain ⟨found, -, hok⟩ := bind_eq_ok.mp hok
  split at hok
  · cases hok
    exact h
  · exact hact _ _ _ h hok

theorem Unpatches.handleCommand (hk : k.Accessible) {c : Command} (hc : c.takesAway = true)
    (h : Unpatches w₀ orig w) (hok : handleCommand k syms w c = .ok w') : Unpatches w₀ orig w' := by
  cases c with
  | delete args =>
    change cmdDelete k syms w args = .ok w' at hok
    unfold cmdDelete at hok
    split_ifs at hok
    · exact FaultRun.invariant (P := Unpatches w₀ orig) (fun _ _ _ h => h.removeOne hk) h hok
    · exact h.forArgs (fun _ _ _ h => h.removeBreakpoint hk) hok
  | disable args =>
    change cmdDisable k syms w args = .ok w' at hok
    unfold cmdDisable at hok
    split_ifs at hok
    · exact FaultRun.invariant (P := Unpatches w₀ orig) (fun _ _ _ h => h.bpDisable hk) h hok
    · exact h.forArgs (fun _ _ _ h => h.bpDisable hk) hok
  | _ => cases hc

theorem Unpatches.session (hk : k.Accessible) {cs : List Command}
    (hcs : ∀ c ∈ cs, c.takesAway = true) (h : Unpatches w₀ orig w)
    (hok : session k syms w cs = .ok w') : Unpatches w₀ orig w' :=
  Along.invariant (C := fun _ c => c.takesAway = true)
    (fun _ _ _ h hc => h.handleCommand hk hc) (.of_forall (fun c hc _ => hcs c hc) _) h hok

end Unpatching

/-! ## Deleting all breakpoints -/

section DeleteAll

variable {w w' : World} {att : List BpPtr} {b : BpPtr} {bp : Breakpoint} {a : Addr}

theorem Attached.deleteLocation_ok (h : Attached w att) (a : Addr) :
    ∃ w', Vdbg.deleteLocation k w a = .ok w' := by
  rcases hp : mapLookup w.bpLocations a with - | p
  · exact ⟨w, deleteLocation_absent hp⟩
  · obtain ⟨loc, hloc, rfl⟩ := h.stored a p hp
    obtain ⟨ht, hok, -⟩ := deleteLocation_eq (k := k) h hloc
    exact ⟨_, hok⟩

theorem Holding.removeOne_ok (h : Holding w att) (hb : w.bps b = some bp) :
    ∃ w', Vdbg.removeOne k w b = .ok w' := by
  have hatt : Attached (deleteBreakpointFromPending w b) att :=
    h.attached.congr (fun _ => rfl) (fun _ => rfl) rfl rfl h.attached.armed
  obtain ⟨w₁, hdelete⟩ := hatt.deleteLocation_ok (k := k) (bp.instrAddr + w.loadAddress)
  obtain ⟨att', bp', hatt', -, hnot, hb', hid, -, -, hrest, -⟩ := hatt.deleteLocation hb hdelete
  have htable : w₁.breakpoints = w.breakpoints := by rw [hrest]; rfl
  obtain ⟨ht, hht, hcf⟩ := h.registry.table
  have hlookup : mapLookup w₁.breakpoints bp'.id = some b := by
    rw [htable, hid]
    exact (h.registry.lookup bp.id b).mpr ⟨bp, hb, rfl⟩
  refine ⟨World.freeBp { w₁ with breakpoints := some (ht.unlink bp'.id) } b, ?_⟩
  unfold Vdbg.removeOne
  rw [World.derefBp_eq hb, ok_bind]
  dsimp only
  rw [hdelete, ok_bind, deleteBreakpoint_eq (htable.trans hht) hcf hb' hlookup]
  exact bpFree_detached_eq hb' (hatt'.detached b bp' hb' hnot)

theorem removeAllBreakpoints_ok (h : Ready w []) : ∃ w', removeAllBreakpoints k w = .ok w' := by
  have hrun : ∀ (bs : List BpPtr) {w : World} {att : List BpPtr}, Holding w att →
      w.pendingBreakpoints = bs → ∃ w', bs.foldlM (Vdbg.removeOne k) w = .ok w' := by
    intro bs
    induction bs with
    | nil => exact fun {w} {att} _ _ => ⟨w, rfl⟩
    | cons b bs ih =>
      intro w att h hp
      have hlive : (w.bps b).isSome :=
        (h.registry.live b).mp (by rw [hp]; exact List.mem_cons_self)
      obtain ⟨bp, hb⟩ := Option.isSome_iff_exists.mp hlive
      obtain ⟨w₁, h1⟩ := h.removeOne_ok (k := k) hb
      obtain ⟨att₁, hhold, hpending, -⟩ := h.removeOne h1
      rw [hp, List.erase_cons_head] at hpending
      obtain ⟨w', hw'⟩ := ih hhold hpending
      exact ⟨w', foldlM_cons_eq_ok.mpr ⟨w₁, h1, hw'⟩⟩
  exact hrun _ h.holding rfl

/-- Without breakpoints there are no patches. -/
theorem Ready.isPatched_of_nil (h : Ready w []) (hnil : w.pendingBreakpoints = []) (a : Addr) :
    w.isPatched a = false := by
  by_contra ha
  rw [Bool.not_eq_false] at ha
  obtain ⟨p, loc, -, hp, hpat, -⟩ := h.attached.toMapped.patched_loc ha
  have huser := h.planted.user hp
  obtain ⟨b, hb⟩ := List.exists_mem_of_ne_nil _ (h.attached.armed p loc hp huser hpat)
  have hatt := (h.attached.listed hp hb).1
  rw [World.attachedBps, hnil, ite_self] at hatt
  cases hatt

end DeleteAll

/-! ## The word the user wrote -/

/-- The breakpoints are still armed after the write, and once they are disabled or deleted, in
whatever order, the word is what the user wrote. -/
structure WordSurvives (k : Kernel) (syms : Symbols) (w : World) (addr value : BitVec 64) :
    Prop where
  armed : w.Armed
  word : ∀ cs w', (∀ c ∈ cs, c.takesAway = true) → session k syms w cs = .ok w' →
    (∀ b ∈ w'.pendingBreakpoints, w'.enabled b = false) → readWord w'.tracee.mem addr = value

/-- The patches in the word from `addr` on are `int3` in the word that is written, over a byte that
was `int3` before. -/
def PatchesAgree (w : World) (addr value : BitVec 64) : Prop :=
  ∀ p loc, w.locs p = some loc → loc.patched = true → ∀ i < 8,
    loc.runningAddr = addr + BitVec.ofNat 64 i → byteAt value i = 0xcc ∧ loc.savedData = 0xcc

section Surviving

variable {w w' : World} {addr value : BitVec 64}

/-- The word after patches are taken away, where the patches in it agree with what was written. -/
theorem Unpatches.readWord_eq {w₁ w₂ : World} (h : Unpatches w₁ w₁.restoredMemory w₂)
    (hmapped : Mapped w₁) (hagree : PatchesAgree w₁ addr value)
    (hmem : ∀ i < 8, w₁.tracee.mem (addr + BitVec.ofNat 64 i) = byteAt value i) :
    readWord w₂.tracee.mem addr = value := by
  refine eq_of_byteAt fun i hi => ?_
  rw [byteAt_readWord _ _ hi]
  by_cases hpat : w₂.isPatched (addr + BitVec.ofNat 64 i) = true
  · obtain ⟨p, loc, -, hp, hlpat, hrun⟩ := hmapped.patched_loc (h.within _ hpat)
    obtain ⟨q, l, -, hq, hqpat, hqrun⟩ := h.hosted.toMapped.patched_loc hpat
    rw [(hagree p loc hp hlpat i hi hrun).1, ← hqrun]
    exact (h.transparent.armed q l hq hqpat).1
  · rw [h.transparent.plain _ (by simpa using hpat)]
    by_cases hold : w₁.isPatched (addr + BitVec.ofNat 64 i) = true
    · obtain ⟨p, loc, -, hp, hlpat, hrun⟩ := hmapped.patched_loc hold
      obtain ⟨hbyte, hsaved⟩ := hagree p loc hp hlpat i hi hrun
      rw [← hrun, restoredMemory_loc hmapped hp hlpat, hsaved, hbyte]
    · rw [restoredMemory_plain (by simpa using hold), hmem i hi]

/-- **What the user writes survives the breakpoints** exactly when the patches in the word agree
with it. -/
theorem memoryWrite_survives_iff (hk : k.Accessible) (h : Ready w []) (ha : w.state = .active)
    (hh : Hosted w) (harmed : w.Armed)
    (hw : handleCommand k syms w (.memoryWrite addr value) = .ok w') :
    WordSurvives k syms w' addr value ↔ PatchesAgree w addr value := by
  have hhandler : handleCommand k syms w (.memoryWrite addr value) =
      .ok (w.setTracee (writeMemory k w.tracee w.pid addr value)) := by
    unfold handleCommand
    rw [if_neg fun hno => hno.2 ha, if_neg fun hno => by cases hno.1]
    rfl
  obtain rfl := Except.ok.inj (hhandler.symm.trans hw)
  set w₁ := w.setTracee (writeMemory k w.tracee w.pid addr value) with hw₁
  have htracee : w₁.tracee = _ := pokeData_eq hk hh.alive addr value
  have hmem : w₁.tracee.mem = writeWord w.tracee.mem addr value := by rw [htracee]
  have hready : Ready w₁ [] := handleCommand_ready h hw
  have hh₁ : Hosted w₁ := hh.congr rfl rfl rfl le_rfl (by rw [htracee]; exact hh.alive)
  have hword : ∀ i < 8, w₁.tracee.mem (addr + BitVec.ofNat 64 i) = byteAt value i := by
    intro i hi
    rw [hmem, writeWord_inside _ _ _ hi]
  have hunpatches : w₁.Armed → Unpatches w₁ w₁.restoredMemory w₁ := fun harmed₁ =>
    ⟨hh₁, harmed₁.transparent hh₁.toMapped, fun _ => id⟩
  constructor
  · intro hs p loc hp hpat i hi hrun
    have hbyte : byteAt value i = 0xcc := by
      rw [← hword i hi, ← hrun]
      exact hs.armed p loc hp hpat
    refine ⟨hbyte, ?_⟩
    -- with every breakpoint deleted the saved byte is back
    obtain ⟨w₂, hdelete⟩ := removeAllBreakpoints_ok (k := k) hready
    obtain ⟨hready₂, hnil, -⟩ := removeAllBreakpoints_ready hready hdelete
    have hsession : session k syms w₁ [.delete []] = .ok w₂ :=
      foldlM_cons_eq_ok.mpr ⟨w₂, hdelete, rfl⟩
    have hread := hs.word [.delete []] w₂ (by simp [Command.takesAway]) hsession
      (by rw [hnil]; exact fun b hb => absurd hb List.not_mem_nil)
    have h₂ := (hunpatches hs.armed).session hk (by simp [Command.takesAway]) hsession
    have hbyte₂ := byteAt_readWord w₂.tracee.mem addr hi
    rw [hread] at hbyte₂
    rw [← restoredMemory_loc hh₁.toMapped hp hpat, hrun,
      ← h₂.transparent.plain _ (hready₂.isPatched_of_nil hnil _), ← hbyte₂, hbyte]
  · intro hagree
    have harmed₁ : w₁.Armed := by
      intro p loc hp hpat
      by_cases hin : ∃ i < 8, loc.runningAddr = addr + BitVec.ofNat 64 i
      · obtain ⟨i, hi, hrun⟩ := hin
        rw [hrun, hword i hi]
        exact (hagree p loc hp hpat i hi hrun).1
      · rw [hmem, writeWord_outside fun i hi hrun => hin ⟨i, hi, hrun⟩]
        exact harmed p loc hp hpat
    exact ⟨harmed₁, fun cs w₂ hcs hsession _ =>
      ((hunpatches harmed₁).session hk hcs hsession).readWord_eq hh₁.toMapped hagree hword⟩

end Surviving

/-! ## A breakpoint and two writes -/

/-- A stop in a program of `nop`s. -/
def nopsStopped : World := .stoppedAt (fun _ => 0) (fun _ => 0x90) Dwfl.empty

/-- The stop with a breakpoint at 0x401000. -/
theorem nops_breakpoint {w : World}
    (hok : setBreakpointOfKind (.scripted (fun _ => 0) []) nopsStopped .addr 0x401000 = .ok w) :
    Ready w [] ∧ w.state = .active ∧ Hosted w ∧ w.Armed ∧
      ∀ a, w.isPatched a = true → a = 0x401000 := by
  obtain ⟨hready, hhosted, htransparent⟩ := World.stoppedAt_ready (fun _ => 0) (fun _ => 0x90)
    Dwfl.empty
  obtain ⟨hh, ht⟩ := setBreakpointOfKind_transparent (Kernel.scripted_accessible _ _) hhosted
    htransparent rfl (World.stoppedAt_unregistered _ _ _ _) hok
  have hedit := setBreakpointOfKind_edited hready hok
  exact ⟨hedit.ready, hedit.state, hh, fun p loc hloc hpat => (ht.armed p loc hloc hpat).1,
    fun a ha => setBreakpointOfKind_isPatched hready rfl (World.stoppedAt_isPatched _ _ _) hok ha⟩

/-- A word that ends below the breakpoint. -/
theorem memoryWrite_survives_iff_below : ∃ w w',
    setBreakpointOfKind (.scripted (fun _ => 0) []) nopsStopped .addr 0x401000 = .ok w ∧
    handleCommand (.scripted (fun _ => 0) []) .stripped w (.memoryWrite 0x400ff8 0x1122) = .ok w' ∧
    WordSurvives (.scripted (fun _ => 0) []) .stripped w' 0x400ff8 0x1122 := by
  obtain ⟨w', hrun, -⟩ := exists_of_any (p := fun _ => true)
    (x := setBreakpointOfKind (.scripted (fun _ => 0) []) nopsStopped .addr 0x401000 >>= fun w =>
      handleCommand (.scripted (fun _ => 0) []) .stripped w (.memoryWrite 0x400ff8 0x1122))
    (by decide +kernel)
  obtain ⟨w, hw, hw'⟩ := bind_eq_ok.mp hrun
  obtain ⟨hready, hactive, hhosted, harmed, hpatched⟩ := nops_breakpoint hw
  refine ⟨w, w', hw, hw', (memoryWrite_survives_iff (Kernel.scripted_accessible _ _) hready hactive
    hhosted harmed hw').mpr fun p loc hp hpat i hi hrun => ?_⟩
  have haddr := hpatched _ ((hhosted.toMapped.isPatched_loc hp).trans hpat)
  rw [hrun] at haddr
  exact absurd haddr (by bv_omega)

/-- The word at the breakpoint: it is not armed after the write, and once it is deleted the lowest
byte is the one of the program. -/
theorem memoryWrite_lost : ∃ w w' w₂,
    setBreakpointOfKind (.scripted (fun _ => 0) []) nopsStopped .addr 0x401000 = .ok w ∧
    w.Armed ∧ handleCommand (.scripted (fun _ => 0) []) .stripped w
      (.memoryWrite 0x401000 0x1122334455667788) = .ok w' ∧
    ¬w'.Armed ∧ handleCommand (.scripted (fun _ => 0) []) .stripped w' (.delete []) = .ok w₂ ∧
    w₂.pendingBreakpoints = [] ∧ readWord w₂.tracee.mem 0x401000 = 0x1122334455667790 ∧
    ¬WordSurvives (.scripted (fun _ => 0) []) .stripped w' 0x401000 0x1122334455667788 := by
  obtain ⟨w', hrun, hp⟩ := exists_of_any
    (p := fun w' => (w'.locs 1).any (fun loc => loc.patched && loc.runningAddr = 0x401000 &&
        w'.tracee.mem 0x401000 = 0x88) &&
      (handleCommand (.scripted (fun _ => 0) []) .stripped w' (.delete [])).toOption.any fun w₂ =>
        w₂.pendingBreakpoints = [] && readWord w₂.tracee.mem 0x401000 = 0x1122334455667790)
    (x := setBreakpointOfKind (.scripted (fun _ => 0) []) nopsStopped .addr 0x401000 >>= fun w =>
      handleCommand (.scripted (fun _ => 0) []) .stripped w
        (.memoryWrite 0x401000 0x1122334455667788)) (by decide +kernel)
  obtain ⟨w, hw, hw'⟩ := bind_eq_ok.mp hrun
  rw [Bool.and_eq_true] at hp
  obtain ⟨loc, hloc, hp₁⟩ := (Option.any_eq_true _ _).mp hp.1
  simp only [Bool.and_eq_true, decide_eq_true_eq] at hp₁
  obtain ⟨⟨hpat, hrun⟩, hbyte⟩ := hp₁
  obtain ⟨w₂, hw₂, hp₂⟩ := exists_of_any hp.2
  simp only [Bool.and_eq_true, decide_eq_true_eq] at hp₂
  have hnot : ¬w'.Armed := by
    intro harmed
    have hint3 := harmed 1 loc hloc hpat
    rw [hrun, hbyte] at hint3
    exact absurd hint3 (by decide)
  exact ⟨w, w', w₂, hw, (nops_breakpoint hw).2.2.2.1, hw', hnot, hw₂, hp₂.1, hp₂.2,
    fun hs => hnot hs.armed⟩

end Vdbg
