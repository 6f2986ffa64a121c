import Vdbg.Running

/-!
# Patches and the memory of the tracee

A patch replaces one byte of the code by `int3` and keeps the byte it replaces. `Transparent w orig`
says that the memory of the tracee is `orig` but for the patches: the byte under a patched location
is `int3` with the original byte saved, and every other byte is the original one. Every operation on
locations keeps this, in any order, as long as nobody writes to a patched byte; the program's own
writes change `orig` as they would without a debugger.
-/

namespace Vdbg

open Words FaultRun

variable {k : Kernel} {syms : Symbols}

/-! ## Bytes of code -/

/-- Every word of a living tracee can be read and written. -/
structure Kernel.Accessible (k : Kernel) : Prop where
  peek : ∀ t a, k.peekOk t a = true
  poke : ∀ t a, k.pokeOk t a = true

/-- The word at an address is read, and written back with another lowest byte. -/
def Tracee.storeByte (t : Tracee) (pid : Pid) (a : Addr) (b : Byte) : Tracee :=
  { t with mem := Function.update t.mem a b, log := .poke pid a :: .peek pid a :: t.log }

section Bytes

variable {t : Tracee} {loc : BpLocation}

/-- A location is armed whose word can be accessed. -/
theorem arm_of_access (hpeek : k.peekOk t loc.runningAddr = true)
    (hpoke : k.pokeOk (t.logged (.peek loc.pid loc.runningAddr)) loc.runningAddr = true)
    (ha : t.alive loc.pid = true) (hp : loc.patched = false) :
    arm k t loc = ({ loc with savedData := t.mem loc.runningAddr, patched := true },
      t.storeByte loc.pid loc.runningAddr 0xcc) := by
  have ha' : (t.logged (.peek loc.pid loc.runningAddr)).alive loc.pid = true := ha
  unfold arm
  rw [if_neg (by simp [hp])]
  simp only [Tracee.peekData, ha, hpeek, Bool.and_self, if_true, Tracee.pokeData, ha', hpoke]
  rw [setWidth_readWord, Tracee.storeByte, ← writeWord_setLow]
  rfl

theorem disarm_of_access (hpeek : k.peekOk t loc.runningAddr = true)
    (hpoke : k.pokeOk (t.logged (.peek loc.pid loc.runningAddr)) loc.runningAddr = true)
    (ha : t.alive loc.pid = true) (hp : loc.patched = true) :
    disarm k t loc =
      ({ loc with patched := false }, t.storeByte loc.pid loc.runningAddr loc.savedData) := by
  have ha' : (t.logged (.peek loc.pid loc.runningAddr)).alive loc.pid = true := ha
  unfold disarm
  rw [if_neg (by simp [hp]), if_neg (by simp [ha])]
  simp only [Tracee.peekData, ha, hpeek, Bool.and_self, if_true, Tracee.pokeData, ha', hpoke]
  rw [Tracee.storeByte, ← writeWord_setLow]
  rfl

theorem arm_eq (hk : k.Accessible) (ha : t.alive loc.pid = true) (hp : loc.patched = false) :
    arm k t loc = ({ loc with savedData := t.mem loc.runningAddr, patched := true },
      t.storeByte loc.pid loc.runningAddr 0xcc) :=
  arm_of_access (hk.peek _ _) (hk.poke _ _) ha hp

theorem disarm_eq (hk : k.Accessible) (ha : t.alive loc.pid = true) (hp : loc.patched = true) :
    disarm k t loc =
      ({ loc with patched := false }, t.storeByte loc.pid loc.runningAddr loc.savedData) :=
  disarm_of_access (hk.peek _ _) (hk.poke _ _) ha hp

theorem pokeData_eq (hk : k.Accessible) {pid : Pid} (ha : t.alive pid = true)
    (a value : BitVec 64) : t.pokeData k pid a value =
      { t.logged (.poke pid a) with mem := writeWord t.mem a value } := by
  unfold Tracee.pokeData
  rw [hk.poke, ha]
  rfl

end Bytes

/-! ## The invariant -/

/-- The tracee lives, and every location is registered and belongs to it. -/
structure Hosted (w : World) : Prop extends Mapped w where
  present : w.bpLocations.isSome
  fresh : ∀ p, (w.locs p).isSome → p < w.nextPtr
  own : ∀ p loc, w.locs p = some loc → loc.pid = w.pid
  alive : w.tracee.alive w.pid = true

/-- The memory of the tracee is `orig` but for the patches. -/
structure Transparent (w : World) (orig : Memory) : Prop where
  armed : ∀ p loc, w.locs p = some loc → loc.patched = true →
    w.tracee.mem loc.runningAddr = 0xcc ∧ loc.savedData = orig loc.runningAddr
  plain : ∀ a, w.isPatched a = false → w.tracee.mem a = orig a

section Invariant

variable {w w' : World} {orig : Memory} {p : LocPtr} {loc loc' : BpLocation} {t : Tracee} {a : Addr}

theorem Transparent.congr (h : Transparent w orig) (hlocs : w'.locs = w.locs)
    (htable : w'.bpLocations = w.bpLocations) (hmem : w'.tracee.mem = w.tracee.mem) :
    Transparent w' orig := by
  refine ⟨fun p loc hp hpat => ?_, fun a ha => ?_⟩
  · rw [hmem]
    exact h.armed p loc (hlocs ▸ hp) hpat
  · rw [hmem]
    refine h.plain a ?_
    rwa [World.isPatched, htable, hlocs] at ha

/-- Without patches the memory is the original one. -/
theorem Transparent.mem_eq (h : Transparent w orig) (hnone : ∀ a, w.isPatched a = false) :
    w.tracee.mem = orig := funext fun a => h.plain a (hnone a)

theorem Hosted.congr (h : Hosted w) (hlocs : w'.locs = w.locs)
    (htable : w'.bpLocations = w.bpLocations) (hpid : w'.pid = w.pid)
    (hnext : w.nextPtr ≤ w'.nextPtr) (halive : w'.tracee.alive w.pid = true) : Hosted w' := by
  refine ⟨⟨by rw [htable]; exact h.cleans, by rw [hlocs, htable]; exact h.registered,
    by rw [hlocs, htable]; exact h.stored⟩, by rw [htable]; exact h.present, fun q hq => ?_, ?_, ?_⟩
  · exact (h.fresh q (hlocs ▸ hq)).trans_le hnext
  · rw [hlocs, hpid]; exact h.own
  · rw [hpid]; exact halive

theorem Hosted.alive_of_loc (h : Hosted w) (hp : w.locs p = some loc) :
    w.tracee.alive loc.pid = true := by
  rw [h.own p loc hp]
  exact h.alive

/-- A location changes in its flag and its saved byte. -/
theorem Hosted.setLoc (h : Hosted w) (hp : w.locs p = some loc) (hpid : loc'.pid = loc.pid)
    (hrun : loc'.runningAddr = loc.runningAddr) (ht : t.alive w.pid = true) :
    Hosted ((w.setTracee t).setLoc p loc') := by
  have hlocs : ((w.setTracee t).setLoc p loc').locs = Function.update w.locs p (some loc') := rfl
  refine ⟨⟨h.cleans, fun q l hl => ?_, fun a q hq => ?_⟩, h.present, fun q hq => ?_,
    fun q l hl => ?_, ht⟩
  · rcases locs_cases hlocs hl with ⟨rfl, ⟨⟩⟩ | ⟨-, hl⟩
    · rw [hrun]; exact h.registered _ loc hp
    · exact h.registered q l hl
  · obtain ⟨l, hl, hla⟩ := h.stored a q hq
    by_cases hqp : q = p
    · subst hqp
      refine ⟨loc', by rw [hlocs, Function.update_self], ?_⟩
      rw [hrun, ← hla, Option.some.inj (hp.symm.trans hl)]
    · exact ⟨l, by rw [hlocs, Function.update_of_ne hqp, hl], hla⟩
  · obtain ⟨l, hl⟩ := Option.isSome_iff_exists.mp hq
    rcases locs_cases hlocs hl with ⟨rfl, -⟩ | ⟨-, hl⟩
    · exact h.fresh _ (by rw [hp]; rfl)
    · exact h.fresh q (by rw [hl]; rfl)
  · rcases locs_cases hlocs hl with ⟨rfl, ⟨⟩⟩ | ⟨-, hl⟩
    · exact hpid.trans (h.own _ loc hp)
    · exact h.own q l hl

/-- The byte under a location changes with the location. -/
theorem Transparent.setLoc (h : Mapped w) (ht : Transparent w orig) (hp : w.locs p = some loc)
    (hrun : loc'.runningAddr = loc.runningAddr) {b : Byte}
    (hmem : t.mem = Function.update w.tracee.mem loc.runningAddr b)
    (hb : if loc'.patched then b = 0xcc ∧ loc'.savedData = orig loc.runningAddr
      else b = orig loc.runningAddr) : Transparent ((w.setTracee t).setLoc p loc') orig := by
  have hlocs : ((w.setTracee t).setLoc p loc').locs = Function.update w.locs p (some loc') := rfl
  have hmem' : ((w.setTracee t).setLoc p loc').tracee.mem =
      Function.update w.tracee.mem loc.runningAddr b := hmem
  refine ⟨fun q l hl hpat => ?_, fun a ha => ?_⟩
  · rcases locs_cases hlocs hl with ⟨rfl, ⟨⟩⟩ | ⟨hqp, hl⟩
    · rw [if_pos hpat] at hb
      rw [hmem', hrun, Function.update_self]
      exact hb
    · have hne : l.runningAddr ≠ loc.runningAddr := fun he =>
        hqp (h.ptr_eq hp (he ▸ h.registered q l hl))
      rw [hmem', Function.update_of_ne hne]
      exact ht.armed q l hl hpat
  · rw [isPatched_update h hp hlocs rfl] at ha
    rw [hmem']
    split_ifs at ha with hrun'
    · rw [if_neg (by simp [ha])] at hb
      rw [hrun', Function.update_self, hb]
    · rw [Function.update_of_ne hrun']
      exact ht.plain a ha

theorem locEnable_transparent (hk : k.Accessible) (h : Hosted w) (ht : Transparent w orig)
    (hok : locEnable k w p = .ok w') : Hosted w' ∧ Transparent w' orig := by
  obtain ⟨loc, hp, -⟩ := bind_eq_ok.mp hok
  rw [World.derefLoc_eq_ok] at hp
  rw [locEnable_eq hp] at hok
  cases hok
  by_cases hpat : loc.patched = true
  · rw [arm_of_patched _ _ _ hpat]
    exact ⟨h.setLoc hp rfl rfl h.alive, ht.setLoc h.toMapped hp rfl
      (Function.update_eq_self _ _).symm (by rw [if_pos hpat]; exact ht.armed p loc hp hpat)⟩
  · have hfalse : loc.patched = false := by simpa using hpat
    rw [arm_eq hk (h.alive_of_loc hp) hfalse]
    refine ⟨h.setLoc hp rfl rfl h.alive, ht.setLoc h.toMapped hp rfl rfl ⟨rfl, ?_⟩⟩
    exact ht.plain _ ((h.isPatched_loc hp).trans hfalse)

theorem locDisable_transparent (hk : k.Accessible) (h : Hosted w) (ht : Transparent w orig)
    (hok : locDisable k w p = .ok w') : Hosted w' ∧ Transparent w' orig := by
  obtain ⟨loc, hp, -⟩ := bind_eq_ok.mp hok
  rw [World.derefLoc_eq_ok] at hp
  rw [locDisable_eq hp] at hok
  cases hok
  by_cases hpat : loc.patched = true
  · rw [disarm_eq hk (h.alive_of_loc hp) hpat]
    exact ⟨h.setLoc hp rfl rfl h.alive, ht.setLoc h.toMapped hp rfl rfl
      (ht.armed p loc hp hpat).2⟩
  · have hfalse : loc.patched = false := by simpa using hpat
    rw [disarm_of_not_patched _ _ _ hfalse]
    exact ⟨h.setLoc hp rfl rfl h.alive, ht.setLoc h.toMapped hp rfl
      (Function.update_eq_self _ _).symm
      (by rw [if_neg hpat]; exact ht.plain _ ((h.isPatched_loc hp).trans hfalse))⟩

end Invariant

/-! ## Locations that come and go -/

section Register

variable {w w' : World} {orig : Memory} {p : LocPtr} {loc : BpLocation} {a : Addr}
  {ht : Hashmap LocPtr}

/-- A new location without a patch is registered. -/
theorem Hosted.register (h : Hosted w) (ha : mapLookup w.bpLocations a = none)
    (hpid : loc.pid = w.pid) (hrun : loc.runningAddr = a) (hcf : ht.cf = true)
    (hlookup : ∀ a', mapLookup (some ht) a' =
      if a' = a then some w.nextPtr else mapLookup w.bpLocations a')
    (hw : w' = { w with
      nextPtr := w.nextPtr + 1, bps := w'.bps
      locs := Function.update w.locs w.nextPtr (some loc), bpLocations := some ht }) :
    Hosted w' := by
  have hlocs : w'.locs = Function.update w.locs w.nextPtr (some loc) := by rw [hw]
  have htable : w'.bpLocations = some ht := by rw [hw]
  refine ⟨⟨fun ht' he => ?_, fun q l hl => ?_, fun a' q hq => ?_⟩, by rw [htable]; rfl,
    fun q hq => ?_, fun q l hl => ?_, by rw [hw]; exact h.alive⟩
  · rw [htable] at he
    rw [← Option.some.inj he, hcf]
  · rw [htable, hlookup]
    rcases locs_cases hlocs hl with ⟨rfl, ⟨⟩⟩ | ⟨-, hl⟩
    · rw [if_pos hrun]
    · have hreg := h.registered q l hl
      split_ifs with he
      · rw [he, ha] at hreg
        cases hreg
      · exact hreg
  · rw [htable, hlookup] at hq
    split_ifs at hq with he
    · obtain rfl := Option.some.inj hq
      exact ⟨loc, by rw [hlocs, Function.update_self], hrun.trans he.symm⟩
    · obtain ⟨l, hl, hla⟩ := h.stored a' q hq
      have hne : q ≠ w.nextPtr := (h.fresh q (by rw [hl]; rfl)).ne
      exact ⟨l, by rw [hlocs, Function.update_of_ne hne, hl], hla⟩
  · obtain ⟨l, hl⟩ := Option.isSome_iff_exists.mp hq
    rw [hw]
    rcases locs_cases hlocs hl with ⟨rfl, -⟩ | ⟨-, hl⟩
    · exact Nat.lt_succ_self _
    · exact (h.fresh q (by rw [hl]; rfl)).trans (Nat.lt_succ_self _)
  · rw [hw]
    rcases locs_cases hlocs hl with ⟨rfl, ⟨⟩⟩ | ⟨-, hl⟩
    · exact hpid
    · exact h.own q l hl

theorem Transparent.register (h : Hosted w) (htr : Transparent w orig)
    (ha : mapLookup w.bpLocations a = none) (hpat : loc.patched = false)
    (hlookup : ∀ a', mapLookup (some ht) a' =
      if a' = a then some w.nextPtr else mapLookup w.bpLocations a')
    (hw : w' = { w with
      nextPtr := w.nextPtr + 1, bps := w'.bps
      locs := Function.update w.locs w.nextPtr (some loc), bpLocations := some ht }) :
    Transparent w' orig := by
  have hlocs : w'.locs = Function.update w.locs w.nextPtr (some loc) := by rw [hw]
  refine ⟨fun q l hl hp => ?_, fun a' ha' => ?_⟩
  · rcases locs_cases hlocs hl with ⟨rfl, ⟨⟩⟩ | ⟨-, hl⟩
    · rw [hpat] at hp
      cases hp
    · rw [hw]
      exact htr.armed q l hl hp
  · rw [hw]
    refine htr.plain a' ?_
    by_cases he : a' = a
    · rw [he, World.isPatched_absent ha]
    · rw [← ha']
      refine (World.isPatched_congr (by rw [hw, hlookup, if_neg he]) fun q hq => ?_).symm
      obtain ⟨l, hl, -⟩ := h.stored a' q hq
      rw [hlocs, Function.update_of_ne (h.fresh q (by rw [hl]; rfl)).ne]

/-- A location without a patch is freed. -/
theorem Hosted.release (h : Hosted w) (hp : w.locs p = some loc) (hcf : ht.cf = true)
    (hlookup : ∀ a, mapLookup (some ht) a =
      if a = loc.runningAddr then none else mapLookup w.bpLocations a)
    (hw : w' = { w with
      bps := w'.bps, locs := Function.update w.locs p none, bpLocations := some ht }) :
    Hosted w' := by
  have hlocs : w'.locs = Function.update w.locs p none := by rw [hw]
  have htable : w'.bpLocations = some ht := by rw [hw]
  have hold : ∀ q l, w'.locs q = some l → q ≠ p ∧ w.locs q = some l := by
    intro q l hl
    rcases locs_cases hlocs hl with ⟨-, ⟨⟩⟩ | hl
    exact hl
  refine ⟨⟨fun ht' he => ?_, fun q l hl => ?_, fun a q hq => ?_⟩, by rw [htable]; rfl,
    fun q hq => ?_, fun q l hl => ?_, by rw [hw]; exact h.alive⟩
  · rw [htable] at he
    rw [← Option.some.inj he, hcf]
  · obtain ⟨hqp, hl⟩ := hold q l hl
    have hne : l.runningAddr ≠ loc.runningAddr := fun he =>
      hqp (h.ptr_eq hp (he ▸ h.registered q l hl))
    rw [htable, hlookup, if_neg hne]
    exact h.registered q l hl
  · rw [htable, hlookup] at hq
    split_ifs at hq with he
    obtain ⟨l, hl, hla⟩ := h.stored a q hq
    refine ⟨l, ?_, hla⟩
    rw [hlocs, Function.update_of_ne, hl]
    rintro rfl
    exact he (by rw [← hla, Option.some.inj (hl.symm.trans hp)])
  · obtain ⟨l, hl⟩ := Option.isSome_iff_exists.mp hq
    rw [hw]
    exact h.fresh q (by rw [(hold q l hl).2]; rfl)
  · rw [hw]
    exact h.own q l (hold q l hl).2

theorem Transparent.release (h : Hosted w) (htr : Transparent w orig) (hp : w.locs p = some loc)
    (hpat : loc.patched = false)
    (hlookup : ∀ a, mapLookup (some ht) a =
      if a = loc.runningAddr then none else mapLookup w.bpLocations a)
    (hw : w' = { w with
      bps := w'.bps, locs := Function.update w.locs p none, bpLocations := some ht }) :
    Transparent w' orig := by
  have hlocs : w'.locs = Function.update w.locs p none := by rw [hw]
  refine ⟨fun q l hl hq => ?_, fun a ha => ?_⟩
  · rcases locs_cases hlocs hl with ⟨-, ⟨⟩⟩ | ⟨-, hl⟩
    rw [hw]
    exact htr.armed q l hl hq
  · rw [hw]
    refine htr.plain a ?_
    by_cases he : a = loc.runningAddr
    · rw [he, h.isPatched_loc hp, hpat]
    · rw [← ha]
      refine (World.isPatched_congr (by rw [hw, hlookup, if_neg he]) fun q hq => ?_).symm
      rw [hlocs, Function.update_of_ne]
      rintro rfl
      obtain ⟨l, hl, hla⟩ := h.stored a q hq
      exact he (by rw [← hla, Option.some.inj (hl.symm.trans hp)])

end Register

/-! ## Freeing -/

section Freeing

variable {w w' : World} {orig : Memory} {p : LocPtr} {a : Addr}

theorem clearLocations_ok {bs : List BpPtr} (hok : clearLocations w bs = .ok w') :
    w' = { w with bps := w'.bps } := by
  refine FaultRun.invariant (P := fun w' => w' = { w with bps := w'.bps })
    (fun w₁ b w₂ h hok => ?_) rfl hok
  obtain ⟨bp, -, hok⟩ := bind_eq_ok.mp hok
  cases hok
  rw [h]
  rfl

/-- A call of `loc_free` that returns. -/
theorem locFree_ok (hok : locFree k w p = .ok w') : ∃ loc, w.locs p = some loc ∧
    w' = { w with
      bps := w'.bps, locs := Function.update w.locs p none
      tracee := (disarm k w.tracee loc).2 } := by
  obtain ⟨loc, hp, hok⟩ := bind_eq_ok.mp hok
  rw [World.derefLoc_eq_ok] at hp
  refine ⟨loc, hp, ?_⟩
  have hrest : ∀ w₁ : World, w₁ = { w with bps := w₁.bps } →
      (locDisable k w₁ p >>= fun w => pure (w.freeLoc p)) = .ok w' → w' = { w with
        bps := w'.bps, locs := Function.update w.locs p none
        tracee := (disarm k w.tracee loc).2 } := by
    intro w₁ hw₁ hok
    rw [hw₁, locDisable_eq (w := { w with bps := w₁.bps }) hp] at hok
    cases hok
    simp [World.freeLoc, World.setLoc, World.setTracee]
  dsimp only at hok
  split_ifs at hok with htemp
  · exact hrest w rfl hok
  · obtain ⟨w₁, hclear, hok⟩ := bind_eq_ok.mp hok
    exact hrest w₁ (clearLocations_ok hclear) hok

theorem freeLocs_ok {ps : List LocPtr} (hok : freeLocs k w ps = .ok w') :
    ∀ p ∈ ps, w'.locs p = none := by
  induction ps generalizing w with
  | nil => exact fun p hp => absurd hp List.not_mem_nil
  | cons q ps ih =>
    obtain ⟨w₁, h1, hrest⟩ := foldlM_cons_eq_ok.mp hok
    obtain ⟨loc, -, hw₁⟩ := locFree_ok h1
    intro p hp
    rcases List.mem_cons.mp hp with rfl | hp
    · -- a freed location stays freed
      have hgone : w₁.locs p = none := by rw [hw₁]; exact Function.update_self ..
      refine FaultRun.invariant (P := fun w => w.locs p = none) (s := w₁) (fun w₂ q w₃ h hok => ?_)
        hgone hrest
      obtain ⟨loc, -, hw₃⟩ := locFree_ok hok
      rw [hw₃]
      show Function.update w₂.locs q none p = none
      rw [Function.update_apply, h, ite_self]
    · exact ih hrest p hp

/-- After the death of the tracee no location that was registered is live. -/
theorem cleanup_frees (h : Mapped w) (hok : cleanupAtTraceeDeath k w = .ok w')
    (hp : (w.locs p).isSome) : w'.locs p = none := by
  obtain ⟨w₁, hfree, hok⟩ := bind_eq_ok.mp hok
  cases hok
  obtain ⟨loc, hloc⟩ := Option.isSome_iff_exists.mp hp
  have hreg := h.registered p loc hloc
  refine freeLocs_ok hfree p ?_
  rcases hht : w.bpLocations with - | ht
  · rw [hht] at hreg
    cases hreg
  · rw [hht] at hreg
    rw [mapFree, if_pos (h.cleans ht hht)]
    exact ht.mem_objects.mpr ⟨_, hreg⟩

/-- `map_delete(dbg->bp_locations, ...)` takes the patch away with the location. -/
theorem deleteLocation_transparent (hk : k.Accessible) (h : Hosted w) (ht : Transparent w orig)
    (hok : deleteLocation k w a = .ok w') : Hosted w' ∧ Transparent w' orig := by
  rcases hp : mapLookup w.bpLocations a with - | p
  · rw [deleteLocation_absent hp] at hok
    cases hok
    exact ⟨h, ht⟩
  · obtain ⟨table, htable⟩ := Option.isSome_iff_exists.mp h.present
    have hcf := h.cleans table htable
    obtain ⟨loc, hloc, rfl⟩ := h.stored a p hp
    unfold deleteLocation freeLocs at hok
    rw [htable, mapDelete_present hcf (htable ▸ hp)] at hok
    dsimp only at hok
    obtain ⟨w₁, hfree, hok⟩ := foldlM_cons_eq_ok.mp hok
    cases hok
    obtain ⟨loc', hloc', hw'⟩ := locFree_ok hfree
    obtain rfl := Option.some.inj (hloc.symm.trans hloc')
    obtain ⟨h₁, ht₁⟩ := locDisable_transparent hk h ht (locDisable_eq hloc)
    have hp₁ : ((w.setTracee (disarm k w.tracee loc).2).setLoc p
        (disarm k w.tracee loc).1).locs p = some { loc with patched := false } := by
      rw [disarm_fst]
      exact Function.update_self ..
    have hlookup : ∀ a, mapLookup (some (table.unlink loc.runningAddr)) a =
        if a = loc.runningAddr then none else mapLookup w.bpLocations a := by
      rw [htable]
      exact table.find_unlink _
    have hw : w' = { (w.setTracee (disarm k w.tracee loc).2).setLoc p
        (disarm k w.tracee loc).1 with
        bps := w'.bps
        locs := Function.update ((w.setTracee (disarm k w.tracee loc).2).setLoc p
          (disarm k w.tracee loc).1).locs p none
        bpLocations := some (table.unlink loc.runningAddr) } := by
      rw [hw']
      simp [World.setLoc, World.setTracee]
    exact ⟨h₁.release hp₁ (show (table.unlink loc.runningAddr).cf = true from hcf) hlookup hw,
      ht₁.release h₁ hp₁ rfl hlookup hw⟩

end Freeing

/-! ## Creating -/

/-- The path of a breakpoint to a location of its own: `loc_init`, which is called only where no
location is registered, and the registration. -/
def createLocation (k : Kernel) (w : World) (b : BpPtr) (a : Addr) : Res World := do
  match mapLookup w.bpLocations a with
  | some _ => return w
  | none =>
    let (p, w) ← locInit k w w.pid a (some b) false
    return { w with bpLocations := (mapInsert w.bpLocations a (some p)).2 }

section Creating

variable {w w' : World} {orig : Memory} {a : Addr} {b : BpPtr}

/-- `loc_init` asserts its arguments and writes to its breakpoint. -/
theorem locInit_user_ok {pid : Pid} {r : LocPtr × World}
    (hok : locInit k w pid a (some b) false = .ok r) :
    pid ≠ 0 ∧ a ≠ 0 ∧ ∃ bp, w.bps b = some bp := by
  obtain ⟨hpid, ha⟩ := locInit_asserts hok
  refine ⟨hpid, ha, ?_⟩
  rcases hb : w.bps b with - | bp
  · have hdead : (World.setLoc { w with nextPtr := w.nextPtr + 1 } w.nextPtr
        ⟨pid, false, false, 0, a, [b]⟩).bps b = none := hb
    unfold locInit at hok
    rw [if_neg (not_null hpid ha), if_neg (by simp)] at hok
    dsimp only [Option.toList] at hok
    rw [World.derefBp_dead hdead] at hok
    cases hok
  · exact ⟨bp, rfl⟩

/-- A location is registered without a patch and then armed. -/
theorem Transparent.create (hk : k.Accessible) (h : Hosted w) (htr : Transparent w orig)
    (loc : BpLocation) {ht : Hashmap LocPtr} (ha : mapLookup w.bpLocations a = none)
    (hpid : loc.pid = w.pid) (hrun : loc.runningAddr = a) (hpat : loc.patched = false)
    (hcf : ht.cf = true)
    (hlookup : ∀ a', mapLookup (some ht) a' =
      if a' = a then some w.nextPtr else mapLookup w.bpLocations a') {e : Bool}
    (hw : w' = { w with
      nextPtr := w.nextPtr + 1, bps := w'.bps, bpLocations := some ht
      locs := Function.update w.locs w.nextPtr
        (some (if e then arm k w.tracee loc else (loc, w.tracee)).1)
      tracee := (if e then arm k w.tracee loc else (loc, w.tracee)).2 }) :
    Hosted w' ∧ Transparent w' orig := by
  set w₁ : World := { w with
    nextPtr := w.nextPtr + 1, bps := w'.bps
    locs := Function.update w.locs w.nextPtr (some loc), bpLocations := some ht } with hw₁
  have h₁ : Hosted w₁ := h.register ha hpid hrun hcf hlookup hw₁
  have ht₁ : Transparent w₁ orig := htr.register h ha hpat hlookup hw₁
  cases e with
  | false =>
    rw [show w' = w₁ by rw [hw, hw₁]; rfl]
    exact ⟨h₁, ht₁⟩
  | true =>
    have hp₁ : w₁.locs w.nextPtr = some loc := Function.update_self ..
    refine locEnable_transparent hk h₁ ht₁ (p := w.nextPtr) ((locEnable_eq hp₁).trans ?_)
    rw [hw]
    simp [hw₁, World.setLoc, World.setTracee]

theorem createLocation_transparent (hk : k.Accessible) (h : Hosted w) (ht : Transparent w orig)
    (hok : createLocation k w b a = .ok w') : Hosted w' ∧ Transparent w' orig := by
  unfold createLocation at hok
  rcases hp : mapLookup w.bpLocations a with - | p
  swap
  · rw [hp] at hok
    cases hok
    exact ⟨h, ht⟩
  rw [hp] at hok
  dsimp only at hok
  obtain ⟨⟨p, w₁⟩, hinit, hok⟩ := bind_eq_ok.mp hok
  obtain ⟨hpid, ha, bp, hb⟩ := locInit_user_ok hinit
  rw [locInit_user_eq hpid ha hb] at hinit
  cases hinit
  obtain ⟨table, htable⟩ := Option.isSome_iff_exists.mp h.present
  obtain ⟨table', hins, hcf, hlookup⟩ := mapInsert_absent (htable ▸ hp) w.nextPtr
  cases hok
  refine ht.create hk h ⟨w.pid, false, false, 0, a, [b]⟩ hp rfl rfl rfl
    (hcf.trans (h.cleans table htable)) (by rw [htable]; exact hlookup) (e := bp.enable) ?_
  dsimp only [World.setBp, World.setLoc, World.setTracee]
  rw [htable, hins]

/-- A patch on top of what is there, taken away again. -/
theorem storeByte_twice (t : Tracee) (pid : Pid) (a : Addr) (b : Byte) :
    ((t.storeByte pid a b).storeByte pid a (t.mem a)).mem = t.mem := by
  simp [Tracee.storeByte]

/-- `set_temp_bp_location`, also where a location is registered already: the patch it makes on top is
taken away again. -/
theorem setTempBpLocation_transparent (hk : k.Accessible) (h : Hosted w) (ht : Transparent w orig)
    {planted : Bool} (hok : setTempBpLocation k w a = .ok (planted, w')) :
    Hosted w' ∧ Transparent w' orig := by
  unfold setTempBpLocation at hok
  split_ifs at hok with hact
  · cases hok
  obtain ⟨⟨p, w₁⟩, hinit, hok⟩ := bind_eq_ok.mp hok
  obtain ⟨hpid, ha⟩ := locInit_asserts hinit
  rw [locInit_temp_eq hpid ha] at hinit
  cases hinit
  obtain ⟨table, htable⟩ := Option.isSome_iff_exists.mp h.present
  rcases hp : mapLookup w.bpLocations a with - | q
  · obtain ⟨table', hins, hcf, hlookup⟩ := mapInsert_absent (htable ▸ hp) w.nextPtr
    dsimp only [World.setLoc, World.setTracee] at hok
    rw [htable, hins] at hok
    cases hok
    exact ht.create hk h ⟨w.pid, false, true, 0, a, []⟩ hp rfl rfl rfl
      (hcf.trans (h.cleans table htable)) (by rw [htable]; exact hlookup) (e := true) rfl
  · dsimp only [World.setLoc, World.setTracee] at hok
    rw [mapInsert_refused (.inr (by rw [hp]; rfl))] at hok
    dsimp only at hok
    obtain ⟨w₂, hfree, hok⟩ := bind_eq_ok.mp hok
    cases hok
    obtain ⟨loc, hloc, hw'⟩ := locFree_ok hfree
    change Function.update w.locs w.nextPtr (some _) w.nextPtr = some loc at hloc
    rw [Function.update_self] at hloc
    obtain rfl := Option.some.inj hloc
    have hunused : w.locs w.nextPtr = none :=
      Option.not_isSome_iff_eq_none.mp fun hs => absurd (h.fresh _ hs) (lt_irrefl _)
    have hlocs : w'.locs = w.locs := by
      rw [hw']
      show Function.update (Function.update w.locs w.nextPtr _) w.nextPtr none = w.locs
      rw [Function.update_idem, ← hunused, Function.update_eq_self]
    have halive : w.tracee.alive w.pid = true := h.alive
    have htracee : w'.tracee = (w.tracee.storeByte w.pid a 0xcc).storeByte w.pid a (w.tracee.mem a) := by
      rw [hw']
      show (disarm k (arm k w.tracee ⟨w.pid, false, true, 0, a, []⟩).2
        (arm k w.tracee ⟨w.pid, false, true, 0, a, []⟩).1).2 = _
      rw [arm_eq hk halive rfl, disarm_eq hk halive rfl]
    refine ⟨h.congr hlocs (by rw [hw']) (by rw [hw']) (by rw [hw']; exact Nat.le_succ _)
      (by rw [htracee]; exact halive), ht.congr hlocs (by rw [hw']) ?_⟩
    rw [htracee, storeByte_twice]

theorem unsetTempBpLocation_transparent (hk : k.Accessible) (h : Hosted w)
    (ht : Transparent w orig) (hok : unsetTempBpLocation k w a = .ok w') :
    Hosted w' ∧ Transparent w' orig := by
  unfold unsetTempBpLocation at hok
  split_ifs at hok with hact
  · cases hok
  split at hok
  · cases hok
    exact ⟨h.congr rfl rfl rfl le_rfl h.alive, ht.congr rfl rfl rfl⟩
  · exact deleteLocation_transparent hk h ht hok

end Creating

/-! ## The program writes -/

/-- The original memory after the program changed the memory it sees. -/
def overwrite (orig before after : Memory) : Memory :=
  fun a => if after a = before a then orig a else after a

/-- The original memory after the program ran until `waitpid` returned. -/
def afterWait (k : Kernel) (t : Tracee) (orig : Memory) : Memory :=
  match k.wait t with
  | .reports _ _ mem => overwrite orig t.mem mem
  | _ => orig

/-- The tracee that makes the step of `execute_step_over_loc`, when there is one. -/
def steppingTracee (k : Kernel) (w : World) (p : Option LocPtr) : Option Tracee := do
  let loc ← w.locs (← p)
  if loc.patched then some ((disarm k w.tracee loc).2.resume k w.pid .singlestep) else none

section Writing

variable {w w' : World} {orig mem : Memory}

/-- A change of the memory that spares the patched bytes. -/
theorem Transparent.overwrite (h : Transparent w orig)
    (hspares : ∀ p loc, w.locs p = some loc → loc.patched = true →
      mem loc.runningAddr = w.tracee.mem loc.runningAddr)
    (hlocs : w'.locs = w.locs) (htable : w'.bpLocations = w.bpLocations)
    (hmem : w'.tracee.mem = mem) : Transparent w' (overwrite orig w.tracee.mem mem) := by
  refine ⟨fun p loc hp hpat => ?_, fun a ha => ?_⟩
  · rw [hlocs] at hp
    have hsame := hspares p loc hp hpat
    rw [hmem, Vdbg.overwrite, if_pos hsame, hsame]
    exact h.armed p loc hp hpat
  · have hplain : w.tracee.mem a = orig a := by
      refine h.plain a ?_
      rwa [World.isPatched, htable, hlocs] at ha
    rw [hmem, Vdbg.overwrite]
    split_ifs with hsame
    · rw [hsame, hplain]
    · rfl

/-- The memory command writes a word that spares the patched bytes. -/
theorem Transparent.write (h : Transparent w orig) {a value : BitVec 64}
    (hspares : ∀ p loc, w.locs p = some loc → loc.patched = true → ¬loc.runningAddr - a < 8)
    (hlocs : w'.locs = w.locs) (htable : w'.bpLocations = w.bpLocations)
    (hmem : w'.tracee.mem = writeWord w.tracee.mem a value) :
    Transparent w' (writeWord orig a value) := by
  refine ⟨fun p loc hp hpat => ?_, fun x hx => ?_⟩
  · rw [hlocs] at hp
    rw [hmem, writeWord, writeWord, if_neg (hspares p loc hp hpat),
      if_neg (hspares p loc hp hpat)]
    exact h.armed p loc hp hpat
  · have hplain : w.tracee.mem x = orig x := by
      refine h.plain x ?_
      rwa [World.isPatched, htable, hlocs] at hx
    rw [hmem, writeWord, writeWord, hplain]

theorem Hosted.resume (h : Hosted w) (req : Resume) :
    Hosted (w.setTracee (w.tracee.resume k w.pid req)) :=
  h.congr rfl rfl rfl le_rfl (Tracee.alive_resume.trans h.alive)

theorem Transparent.resume (h : Transparent w orig) (req : Resume) :
    Transparent (w.setTracee (w.tracee.resume k w.pid req)) orig :=
  h.congr rfl rfl Tracee.resume_mem

/-- The program runs: it keeps the patches, or it is gone with every location. -/
theorem waitForSignal_transparent (h : Hosted w) (ht : Transparent w orig)
    (hspares : ∀ status regs mem, k.wait w.tracee = .reports status regs mem → ∀ p loc,
      w.locs p = some loc → loc.patched = true →
      mem loc.runningAddr = w.tracee.mem loc.runningAddr)
    (hok : waitForSignal k syms w = .ok w') :
    Hosted w' ∧ Transparent w' (afterWait k w.tracee orig) ∨
      ∀ p, (w.locs p).isSome → w'.locs p = none := by
  rcases waitForSignal_cases hok with ⟨t, hwait, rfl⟩ | ⟨status, t, r, hwait, -, hcleanup⟩ |
    ⟨info, t, hwait, hw'⟩
  · obtain ⟨rfl, hfails⟩ := Tracee.waitpid_fails hwait
    rw [afterWait, hfails h.alive]
    exact .inl ⟨h.congr rfl rfl rfl le_rfl h.alive, ht.congr rfl rfl rfl⟩
  · exact .inr fun p hp => cleanup_frees (w := (w.setTracee t).say r)
      ⟨h.cleans, h.registered, h.stored⟩ hcleanup hp
  · obtain ⟨-, regs, mem, hreports, rfl⟩ := Tracee.waitpid_reports hwait
    rw [afterWait, hreports]
    refine .inl ⟨h.congr (by rw [hw']) (by rw [hw']) (by rw [hw']) (by rw [hw']) ?_,
      ht.overwrite (hspares _ _ _ hreports) (by rw [hw']) (by rw [hw']) ?_⟩
    · rw [hw']
      refine (Tracee.alive_afterStop ..).trans ?_
      have halive := h.alive
      simp only [Tracee.alive, Bool.and_eq_true] at halive
      simp [Tracee.alive, Tracee.logged, WaitStatus.task, of_decide_eq_true halive.1]
    · rw [hw']
      exact Tracee.afterStop_mem ..

/-- The step over a location: the patch is away while the program makes its step, and is put back
over what it left there. -/
theorem executeStepOverLoc_transparent (hk : k.Accessible) (h : Hosted w)
    (ht : Transparent w orig) {p : Option LocPtr}
    (hspares : ∀ t status regs mem, steppingTracee k w p = some t →
      k.wait t = .reports status regs mem → ∀ q loc, w.locs q = some loc → loc.patched = true →
      some q ≠ p → mem loc.runningAddr = t.mem loc.runningAddr)
    (hok : executeStepOverLoc k syms w p = .ok w') :
    Hosted w' ∧ Transparent w' (((steppingTracee k w p).map (afterWait k · orig)).getD orig) := by
  unfold executeStepOverLoc at hok
  rcases p with - | p
  · cases hok
    exact ⟨h, ht⟩
  obtain ⟨loc, hp, hok⟩ := bind_eq_ok.mp hok
  rw [World.derefLoc_eq_ok] at hp
  split_ifs at hok with hpat
  swap
  · cases hok
    have hnone : steppingTracee k w (some p) = none := by simp [steppingTracee, hp, hpat]
    rw [hnone]
    exact ⟨h, ht⟩
  obtain ⟨w₁, hdisable, hok⟩ := bind_eq_ok.mp hok
  obtain ⟨w₂, hstep, henable⟩ := bind_eq_ok.mp hok
  obtain ⟨h₁, ht₁⟩ := locDisable_transparent hk h ht hdisable
  rw [locDisable_eq hp] at hdisable
  cases hdisable
  have hsome : steppingTracee k w (some p) =
      some ((disarm k w.tracee loc).2.resume k w.pid .singlestep) := by
    simp [steppingTracee, hp, hpat]
  rw [hsome] at hspares ⊢
  have hwait := waitForSignal_transparent (h₁.resume .singlestep) (ht₁.resume .singlestep)
    (fun status regs mem hreports q l hl hlpat => ?_) hstep
  rcases hwait with ⟨h₂, ht₂⟩ | hgone
  · exact locEnable_transparent hk h₂ ht₂ henable
  · rw [locEnable_dead (hgone p (by simp [World.setLoc, World.setTracee]))] at henable
    cases henable
  · rcases locs_cases (f := w.locs) rfl hl with ⟨-, ⟨⟩⟩ | ⟨hqp, hl⟩
    · rw [disarm_patched] at hlpat
      cases hlpat
    · exact hspares _ _ _ _ rfl hreports q l hl hlpat fun he => hqp (Option.some.inj he)

end Writing

/-! ## Runs -/

/-- What the debugger and its user do to the memory of the tracee. -/
inductive MemOp where
  | create (b : BpPtr) (a : Addr)
  | enable (p : LocPtr)
  | disable (p : LocPtr)
  | delete (a : Addr)
  | setTemp (a : Addr)
  | unsetTemp (a : Addr)
  | stepOver (p : Option LocPtr)
  | write (a value : BitVec 64)
deriving DecidableEq, Repr

namespace MemOp

def run (k : Kernel) (syms : Symbols) (w : World) : MemOp → Res World
  | .create b a => createLocation k w b a
  | .enable p => locEnable k w p
  | .disable p => locDisable k w p
  | .delete a => deleteLocation k w a
  | .setTemp a => Prod.snd <$> setTempBpLocation k w a
  | .unsetTemp a => unsetTempBpLocation k w a
  | .stepOver p => executeStepOverLoc k syms w p
  | .write a value => .ok (w.setTracee (writeMemory k w.tracee w.pid a value))

/-- The memory of the program after an operation, as it would be without patches: only the program
itself and the memory command change it. -/
def program (k : Kernel) (w : World) (orig : Memory) : MemOp → Memory
  | .stepOver p => ((steppingTracee k w p).map (afterWait k · orig)).getD orig
  | .write a value => writeWord orig a value
  | _ => orig

/-- Neither the program, while it makes a step, nor the memory command writes to a patched byte. -/
def Spares (k : Kernel) (w : World) : MemOp → Prop
  | .stepOver p => ∀ t status regs mem, steppingTracee k w p = some t →
      k.wait t = .reports status regs mem → ∀ q loc, w.locs q = some loc → loc.patched = true →
      some q ≠ p → mem loc.runningAddr = t.mem loc.runningAddr
  | .write a _ => ∀ p loc, w.locs p = some loc → loc.patched = true → ¬loc.runningAddr - a < 8
  | _ => True

/-- A step of the debugger, and of the memory the program would have without it. -/
def step (k : Kernel) (syms : Symbols) (s : World × Memory) (op : MemOp) :
    Except (Fault × World) (World × Memory) := do
  let w ← op.run k syms s.1
  return (w, op.program k s.1 s.2)

variable {w w' : World} {orig orig' : Memory} {op : MemOp} {ops : List MemOp}

theorem run_transparent (hk : k.Accessible) (h : Hosted w) (ht : Transparent w orig)
    (hspares : op.Spares k w) (hok : op.run k syms w = .ok w') :
    Hosted w' ∧ Transparent w' (op.program k w orig) := by
  cases op with
  | create b a => exact createLocation_transparent hk h ht hok
  | enable p => exact locEnable_transparent hk h ht hok
  | disable p => exact locDisable_transparent hk h ht hok
  | delete a => exact deleteLocation_transparent hk h ht hok
  | setTemp a =>
    obtain ⟨⟨planted, w₁⟩, hset, hok⟩ := bind_eq_ok.mp
      ((bind_pure_comp Prod.snd (setTempBpLocation k w a)).trans hok)
    cases hok
    exact setTempBpLocation_transparent hk h ht hset
  | unsetTemp a => exact unsetTempBpLocation_transparent hk h ht hok
  | stepOver p => exact executeStepOverLoc_transparent hk h ht hspares hok
  | write a value =>
    cases hok
    have heq : writeMemory k w.tracee w.pid a value = _ := pokeData_eq hk h.alive a value
    exact ⟨h.congr rfl rfl rfl le_rfl (by rw [heq]; exact h.alive),
      ht.write hspares rfl rfl (congrArg Tracee.mem heq)⟩

/-- **Patches are transparent.** In every run in which nobody writes to a patched byte, the memory
of the tracee is the program's but for the patches, and is the program's once none is left. -/
theorem run_memory (hk : k.Accessible) (h : Hosted w) (ht : Transparent w orig)
    (hspares : Along (step k syms) (fun s op => op.Spares k s.1) (w, orig) ops)
    (hrun : ops.foldlM (step k syms) (w, orig) = .ok (w', orig')) :
    Transparent w' orig' ∧ ((∀ a, w'.isPatched a = false) → w'.tracee.mem = orig') := by
  have hboth : Hosted w' ∧ Transparent w' orig' :=
    hspares.invariant (P := fun s => Hosted s.1 ∧ Transparent s.1 s.2)
      (fun s op s' hP hC hok => by
        obtain ⟨w₁, h1, hok⟩ := bind_eq_ok.mp hok
        cases hok
        exact run_transparent hk hP.1 hP.2 hC h1) ⟨h, ht⟩ hrun
  exact ⟨hboth.2, hboth.2.mem_eq⟩

end MemOp

/-- Before any location is made. -/
theorem transparent_of_no_location {w : World} {ht : Hashmap LocPtr} (hlocs : ∀ p, w.locs p = none)
    (htable : w.bpLocations = some ht) (hcf : ht.cf = true)
    (hnone : ∀ a, mapLookup (some ht) a = none) (halive : w.tracee.alive w.pid = true) :
    Hosted w ∧ Transparent w w.tracee.mem := by
  have hdead : ∀ {p loc}, w.locs p ≠ some loc := by
    intro p loc hp
    rw [hlocs p] at hp
    cases hp
  refine ⟨⟨⟨fun ht' he => ?_, fun p loc hp => absurd hp hdead, fun a p hp => ?_⟩,
    by rw [htable]; rfl, fun p hp => ?_, fun p loc hp => absurd hp hdead, halive⟩,
    fun p loc hp => absurd hp hdead, fun a _ => rfl⟩
  · rw [htable] at he
    rw [← Option.some.inj he, hcf]
  · rw [htable, hnone] at hp
    cases hp
  · rw [hlocs p] at hp
    cases hp

/-- A tracee in a stop, and one breakpoint that has no location yet. -/
def oneBreakpoint : World := { dbgInit with
  pid := 1, state := .active, bpLocations := mapInit MAP_SIZE true
  bps := Function.update (fun _ => none) 0 (some ⟨1, .addr, true, 0x401000, none⟩), nextPtr := 1
  tracee := ⟨1, .stopped, fun _ => 0, fun _ => 0x90, []⟩ }

theorem oneBreakpoint_transparent :
    Hosted oneBreakpoint ∧ Transparent oneBreakpoint fun _ => 0x90 := by
  obtain ⟨ht, hinit, hcf, hnone⟩ := mapInit_mapSize LocPtr
  exact transparent_of_no_location (w := oneBreakpoint) (fun _ => rfl) hinit hcf hnone rfl

theorem Kernel.scripted_accessible (regs : Regs) (statuses : List WaitStatus) :
    (Kernel.scripted regs statuses).Accessible := ⟨fun _ _ => rfl, fun _ _ => rfl⟩

/-- A scripted process writes to no byte at all. -/
theorem MemOp.spares_scripted {regs : Regs} {statuses : List WaitStatus} {w : World} {op : MemOp}
    (hop : ∀ a value, op ≠ .write a value) : op.Spares (.scripted regs statuses) w := by
  cases op with
  | stepOver p =>
    intro t status regs' mem _ hreports q loc _ _ _
    simp only [Kernel.scripted] at hreports
    split at hreports <;> cases hreports
    rfl
  | write a value => exact absurd rfl (hop a value)
  | create b a => trivial
  | enable p => trivial
  | disable p => trivial
  | delete a => trivial
  | setTemp a => trivial
  | unsetTemp a => trivial

/-- Two locations in one word, a temporary one on top of a user location, and a step. -/
theorem MemOp.run_memory_overlapping : ∃ w' orig',
    [MemOp.create 0 0x401000, .setTemp 0x401004, .setTemp 0x401000, .stepOver (some 1),
      .unsetTemp 0x401004, .delete 0x401000].foldlM
      (MemOp.step (.scripted (fun _ => 0) [.stopped ⟨SIGTRAP, TRAP_TRACE⟩]) .stripped)
      (oneBreakpoint, fun _ => 0x90) = .ok (w', orig') ∧
    Transparent w' orig' ∧ ((∀ a, w'.isPatched a = false) → w'.tracee.mem = orig') := by
  obtain ⟨⟨w', orig'⟩, hrun, -⟩ := exists_of_any (p := fun _ => true)
    (x := [MemOp.create 0 0x401000, .setTemp 0x401004, .setTemp 0x401000, .stepOver (some 1),
      .unsetTemp 0x401004, .delete 0x401000].foldlM
      (MemOp.step (.scripted (fun _ => 0) [.stopped ⟨SIGTRAP, TRAP_TRACE⟩]) .stripped)
      (oneBreakpoint, fun _ => 0x90)) (by decide +kernel)
  refine ⟨w', orig', hrun, MemOp.run_memory (Kernel.scripted_accessible _ _)
    oneBreakpoint_transparent.1 oneBreakpoint_transparent.2 (.of_forall (fun op hop s => ?_) _) hrun⟩
  refine MemOp.spares_scripted fun a value he => ?_
  rw [he] at hop
  simp at hop

end Vdbg
