import Vdbg.Ownership

/-!
# What next and finish leave behind

`finish` and `next` plant temporary locations, continue, and delete them. Every new location has a
pointer from the next one on, so that the locations there were are the ones below
(`Shadows`). Under a new location lies the byte that was there before the command. Code that the
program does not write to and no patch of which was overwritten is after the command what it was
before it (`next_finish_noTrace`), as long as the memory of the tracee is only accessed in stops.
-/

namespace Vdbg

open FaultRun Words

variable {k : Kernel} {syms : Symbols} {C : Addr → Prop}

/-! ## Bytes of code -/

/-- In a stop the words at the addresses of `C` can be accessed, and the program does not write to
these addresses. A word that cannot be read cannot be written. -/
structure Kernel.SparesCode (k : Kernel) (C : Addr → Prop) : Prop where
  peek : ∀ t a, C a → t.task = .stopped → k.peekOk t a = true
  poke : ∀ t a, C a → t.task = .stopped → k.pokeOk t a = true
  unread : ∀ t pid a, k.peekOk t a = false → k.pokeOk (t.logged (.peek pid a)) a = false
  spares : ∀ t status regs mem, k.wait t = .reports status regs mem →
    ∀ a, C a → mem a = t.mem a

section Bytes

variable {t : Tracee} {loc : BpLocation} {a : Addr}

/-- A word that is read and written back with another lowest byte changes in that byte at most. -/
theorem Kernel.SparesCode.store_other (hk : k.SparesCode C) {pid : Pid} {addr : Addr} {b : Byte}
    (ha : a ≠ addr) : ((t.peekData k pid addr).2.pokeData k pid addr
      (setLow (t.peekData k pid addr).1 b)).mem a = t.mem a := by
  unfold Tracee.peekData Tracee.pokeData
  dsimp only
  split_ifs with hpoke hpeek
  · show writeWord t.mem addr (setLow (readWord t.mem addr) b) a = t.mem a
    rw [writeWord_setLow, Function.update_of_ne ha]
  · -- what cannot be read is not written
    rw [Bool.and_eq_true] at hpoke hpeek
    have hunread := hk.unread t pid addr (by
      have halive : t.alive pid = true := hpoke.1
      simpa [halive] using hpeek)
    rw [hunread] at hpoke
    cases hpoke.2
  · rfl

variable (t loc)

theorem Kernel.SparesCode.arm_other (hk : k.SparesCode C) (ha : a ≠ loc.runningAddr) :
    (arm k t loc).2.mem a = t.mem a := by
  unfold arm
  split_ifs
  · rfl
  · exact hk.store_other ha

theorem Kernel.SparesCode.disarm_other (hk : k.SparesCode C) (ha : a ≠ loc.runningAddr) :
    (disarm k t loc).2.mem a = t.mem a := by
  unfold disarm
  split_ifs
  · rfl
  · rfl
  · exact hk.store_other ha

theorem Kernel.SparesCode.arm_eq (hk : k.SparesCode C) (hC : C loc.runningAddr)
    (ha : t.alive loc.pid = true) (hs : t.task = .stopped) (hp : loc.patched = false) :
    arm k t loc = ({ loc with savedData := t.mem loc.runningAddr, patched := true },
      t.storeByte loc.pid loc.runningAddr 0xcc) :=
  arm_of_access (hk.peek _ _ hC hs) (hk.poke _ _ hC hs) ha hp

theorem Kernel.SparesCode.disarm_eq (hk : k.SparesCode C) (hC : C loc.runningAddr)
    (ha : t.alive loc.pid = true) (hs : t.task = .stopped) (hp : loc.patched = true) :
    disarm k t loc =
      ({ loc with patched := false }, t.storeByte loc.pid loc.runningAddr loc.savedData) :=
  disarm_of_access (hk.peek _ _ hC hs) (hk.poke _ _ hC hs) ha hp

/-- A patch on top of what is there, taken away again. -/
theorem Kernel.SparesCode.disarm_arm (hk : k.SparesCode C) (ha : t.alive loc.pid = true)
    (hstopped : t.task = .stopped) (hp : loc.patched = false) (hC : C a) :
    (disarm k (arm k t loc).2 (arm k t loc).1).2.mem a = t.mem a := by
  obtain ⟨s, hs⟩ := arm_fst k t loc
  by_cases haddr : a = loc.runningAddr
  · subst haddr
    rw [hk.arm_eq t loc hC ha hstopped hp, hk.disarm_eq (t.storeByte loc.pid loc.runningAddr 0xcc)
      { loc with savedData := t.mem loc.runningAddr, patched := true } hC ha hstopped rfl]
    exact congrFun (storeByte_twice t loc.pid loc.runningAddr 0xcc) loc.runningAddr
  · rw [hk.disarm_other _ _ (by rw [hs]; exact haddr), hk.arm_other _ _ haddr]

/-- A patch taken away, and put back over the byte that was saved. -/
theorem Kernel.SparesCode.arm_disarm (hk : k.SparesCode C) (ha : t.alive loc.pid = true)
    (hstopped : t.task = .stopped) (hp : loc.patched = true)
    (hintact : C loc.runningAddr → t.mem loc.runningAddr = 0xcc) {t₂ : Tracee}
    {loc₂ : BpLocation} (ha₂ : t₂.alive loc.pid = true) (hstopped₂ : t₂.task = .stopped)
    (hmem : ∀ a, C a → t₂.mem a = (disarm k t loc).2.mem a)
    (hloc₂ : loc₂ = { loc with patched := false, savedData := loc₂.savedData }) :
    (C loc.runningAddr → arm k t₂ loc₂ = (loc, t₂.storeByte loc.pid loc.runningAddr 0xcc)) ∧
      ∀ a, C a → (arm k t₂ loc₂).2.mem a = t.mem a := by
  have hpat₂ : loc₂.patched = false := by rw [hloc₂]
  have hrun₂ : loc₂.runningAddr = loc.runningAddr := by rw [hloc₂]
  have hpid₂ : loc₂.pid = loc.pid := by rw [hloc₂]
  have harm : C loc.runningAddr →
      arm k t₂ loc₂ = (loc, t₂.storeByte loc.pid loc.runningAddr 0xcc) := by
    intro hC
    have hbyte : t₂.mem loc.runningAddr = loc.savedData := by
      rw [hmem _ hC, hk.disarm_eq t loc hC ha hstopped hp]
      exact Function.update_self ..
    have hback : { loc with patched := true } = loc := by rw [← hp]
    rw [hk.arm_eq t₂ loc₂ (by rwa [hrun₂]) (by rwa [hpid₂]) hstopped₂ hpat₂, hpid₂, hrun₂, hbyte,
      hloc₂]
    exact congrArg (·, _) hback
  refine ⟨harm, fun a hCa => ?_⟩
  by_cases haddr : a = loc.runningAddr
  · subst haddr
    rw [harm hCa, hintact hCa]
    exact Function.update_self ..
  · rw [hk.arm_other _ _ (by rwa [hrun₂]), hmem a hCa, hk.disarm_other _ _ haddr]

end Bytes

theorem BpLocation.runningAddr_of_unsaved {loc loc' : BpLocation}
    (h : loc.unsaved = loc'.unsaved) : loc.runningAddr = loc'.runningAddr := by
  have hrun := congrArg BpLocation.runningAddr h
  exact hrun

/-! ## A run of the tracee -/

/-- A quiet change that leaves the bytes of `C` alone, and those saved from there. -/
structure Passes (C : Addr → Prop) (w w' : World) : Prop extends Quiet w w' where
  saved : ∀ p loc, w.locs p = some loc → C loc.runningAddr → w'.locs p = some loc
  code : ∀ a, C a → w'.tracee.mem a = w.tracee.mem a

/-- No patch on an address of `C` was overwritten. -/
def Intact (C : Addr → Prop) (w : World) : Prop :=
  ∀ p loc, w.locs p = some loc → loc.patched = true → C loc.runningAddr →
    w.tracee.mem loc.runningAddr = 0xcc

section Running

variable {w w' w₁ : World} {p : LocPtr} {loc : BpLocation} {att : List BpPtr}

theorem Passes.refl (C : Addr → Prop) (w : World) : Passes C w w :=
  ⟨.refl w, fun _ _ hp _ => hp, fun _ _ => rfl⟩

theorem Passes.trans (h : Passes C w w₁) (h' : Passes C w₁ w') : Passes C w w' :=
  ⟨h.toQuiet.trans h'.toQuiet, fun p loc hp hC => h'.saved p loc (h.saved p loc hp hC) hC,
    fun a ha => (h'.code a ha).trans (h.code a ha)⟩

theorem Passes.of_eq (hlocs : w'.locs = w.locs) (h : w' = { w with
    tracee := w'.tracee, out := w'.out, pendingSignal := w'.pendingSignal, locs := w'.locs })
    (hcode : ∀ a, C a → w'.tracee.mem a = w.tracee.mem a) : Passes C w w' :=
  ⟨.of_eq hlocs h, fun _ _ hp _ => by rw [hlocs, hp], hcode⟩

/-- A location that is there in both states is the same, but for a saved byte. -/
theorem Passes.loc_eq (h : Passes C w w') (hp : w'.locs p = some loc) (hC : C loc.runningAddr) :
    w.locs p = some loc := by
  obtain ⟨loc₀, hloc₀, he⟩ := h.toQuiet.loc_eq hp
  have hsame := h.saved p loc₀ hloc₀ (by rwa [he] at hC)
  rw [hp] at hsame
  rw [hloc₀, hsame]

/-- The program runs, or it ends. -/
theorem waitForSignal_passes (hk : k.SparesCode C) (hok : waitForSignal k syms w = .ok w') :
    Passes C w w' ∨ w'.state = .notActive ∧
      (Mapped w → ∀ p, (w.locs p).isSome → w'.locs p = none) := by
  rcases waitForSignal_cases hok with ⟨t, hwait, rfl⟩ | ⟨status, t, r, hwait, -, hcleanup⟩ |
    ⟨info, t, hwait, hw'⟩
  · refine .inl (.of_eq rfl rfl fun a _ => ?_)
    show t.mem a = w.tracee.mem a
    obtain ⟨rfl, -⟩ := Tracee.waitpid_fails hwait
    rfl
  · refine .inr ⟨?_, fun h p hp => cleanup_frees (w := (w.setTracee t).say r)
      ⟨h.cleans, h.registered, h.stored⟩ hcleanup hp⟩
    obtain ⟨w₁, -, hcleanup⟩ := bind_eq_ok.mp hcleanup
    cases hcleanup
    rfl
  · obtain ⟨-, regs, mem, hreports, rfl⟩ := Tracee.waitpid_reports hwait
    refine .inl (.of_eq (by rw [hw']) (by rw [hw']) fun a ha => ?_)
    rw [hw']
    show (Tracee.afterStop k _ w.pid info).mem a = w.tracee.mem a
    rw [Tracee.afterStop_mem]
    exact hk.spares _ _ _ _ hreports a ha

/-- Only a living process is alive after a call of `wait_for_signal`. -/
theorem waitForSignal_alive (hok : waitForSignal k syms w = .ok w')
    (halive : w'.tracee.alive w'.pid = true) : w.tracee.alive w.pid = true := by
  rcases waitForSignal_cases hok with ⟨t, hwait, rfl⟩ | ⟨status, t, r, hwait, -, -⟩ |
    ⟨info, t, hwait, -⟩
  · obtain ⟨rfl, -⟩ := Tracee.waitpid_fails hwait
    exact halive
  · exact (Tracee.waitpid_reports hwait).1
  · exact (Tracee.waitpid_reports hwait).1

theorem alive_of_life (h : w'.life = w.life) :
    w'.tracee.alive w'.pid = true ↔ w.tracee.alive w.pid = true := by
  rw [World.alive_iff, World.alive_iff, h]

theorem stopped_of_life (h : w'.life = w.life) :
    w'.tracee.task = .stopped ↔ w.tracee.task = .stopped := by
  rw [show w'.tracee.task = w.tracee.task from congrArg Life.task h]

theorem executeStepOverLoc_alive {q : Option LocPtr}
    (hok : executeStepOverLoc k syms w q = .ok w') (halive : w'.tracee.alive w'.pid = true) :
    w.tracee.alive w.pid = true := by
  unfold executeStepOverLoc at hok
  rcases q with - | p
  · cases hok
    exact halive
  obtain ⟨loc, hp, hok⟩ := bind_eq_ok.mp hok
  split_ifs at hok
  swap
  · cases hok
    exact halive
  obtain ⟨w₁, hdisable, hok⟩ := bind_eq_ok.mp hok
  obtain ⟨w₂, hstep, henable⟩ := bind_eq_ok.mp hok
  have hresumed := waitForSignal_alive hstep ((alive_of_life (locEnable_life henable)).mp halive)
  exact (alive_of_life (locDisable_life hdisable)).mp (Tracee.alive_resume.symm.trans hresumed)

/-- The step over a location, and back, from a stop into a stop: the patch is put over the byte that
was saved. -/
theorem executeStepOverLoc_passes (hk : k.SparesCode C) (hatt : Attached w att) (hown : Owned w)
    (hintact : Intact C w) {q : Option LocPtr} (hok : executeStepOverLoc k syms w q = .ok w')
    (halive : w'.tracee.alive w'.pid = true) (hstopped : w.tracee.task = .stopped)
    (hstopped' : w'.tracee.task = .stopped) : Passes C w w' := by
  have halive₀ := executeStepOverLoc_alive hok halive
  have hquiet := executeStepOverLoc_quiet hatt hok
  unfold executeStepOverLoc at hok
  rcases q with - | p
  · cases hok
    exact .refl C w
  obtain ⟨loc, hp, hok⟩ := bind_eq_ok.mp hok
  rw [World.derefLoc_eq_ok] at hp
  split_ifs at hok with hpat
  swap
  · cases hok
    exact .refl C w
  rw [locDisable_eq hp, ok_bind] at hok
  obtain ⟨w₂, hstep, henable⟩ := bind_eq_ok.mp hok
  set t₁ := (disarm k w.tracee loc).2 with ht₁
  set w₁ := (w.setTracee t₁).setLoc p (disarm k w.tracee loc).1 with hw₁
  change waitForSignal k syms (w₁.setTracee (t₁.resume k w.pid .singlestep)) = .ok w₂ at hstep
  have halive₂ : w₂.tracee.alive w₂.pid = true := (alive_of_life (locEnable_life henable)).mp halive
  have hstopped₂ : w₂.tracee.task = .stopped :=
    (stopped_of_life (locEnable_life henable)).mp hstopped'
  have halive₁ : w.tracee.alive loc.pid = true := by
    rw [hown p loc hp]
    exact halive₀
  have hp₁ : (w₁.setTracee (t₁.resume k w.pid .singlestep)).locs p =
      some { loc with patched := false } := by
    show Function.update w.locs p (some (disarm k w.tracee loc).1) p = _
    rw [disarm_fst, Function.update_self]
  rcases waitForSignal_passes (C := C) hk hstep with hpass | ⟨-, hfreed⟩
  swap
  · have hmapped := ((hatt.disarm (k := k) hp).setTracee (t₁.resume k w.pid .singlestep)).toMapped
    rw [locEnable_dead (hfreed hmapped p (by rw [hp₁]; rfl))] at henable
    cases henable
  -- the location the patch is put back for
  obtain ⟨loc₂, hp₂, he⟩ := hpass.toQuiet.loc_there hp₁
  have halive₃ : w₂.tracee.alive loc.pid = true := by
    have hpid : w₂.pid = w.pid := by
      rw [hpass.rest]
      rfl
    rw [hown p loc hp, ← hpid]
    exact halive₂
  have hmem : ∀ a, C a → w₂.tracee.mem a = t₁.mem a := by
    intro a ha
    rw [hpass.code a ha]
    exact congrFun Tracee.resume_mem a
  obtain ⟨harm, hcode⟩ := hk.arm_disarm w.tracee loc halive₁ hstopped hpat
    (hintact p loc hp hpat) halive₃ hstopped₂ hmem he
  rw [locEnable_eq hp₂] at henable
  cases henable
  refine ⟨hquiet, fun q l hq hC => ?_, hcode⟩
  by_cases hqp : q = p
  · subst hqp
    obtain rfl := Option.some.inj (hp.symm.trans hq)
    show Function.update w₂.locs q (some (arm k w₂.tracee loc₂).1) q = some loc
    rw [Function.update_self, harm hC]
  · have hq₁ : (w₁.setTracee (t₁.resume k w.pid .singlestep)).locs q = some l :=
      (Function.update_of_ne hqp _ _).trans hq
    show Function.update w₂.locs p _ q = some l
    rw [Function.update_of_ne hqp]
    exact hpass.saved q l hq₁ hC

theorem continueExecution_alive (hok : continueExecution k syms w = .ok w')
    (halive : w'.tracee.alive w'.pid = true) : w.tracee.alive w.pid = true := by
  unfold continueExecution at hok
  split_ifs at hok
  · cases hok
  obtain ⟨w₁, hstep, hok⟩ := bind_eq_ok.mp hok
  have hresumed := waitForSignal_alive hok halive
  exact executeStepOverLoc_alive hstep (Tracee.alive_resume.symm.trans hresumed)

/-- The step over a patch at the pc ends with the tracee in a stop. -/
def StepsIntoStop (k : Kernel) (syms : Symbols) (w : World) : Prop :=
  ∀ w', stepOverBreakpoint k syms w = .ok w' → w'.tracee.task = .stopped

theorem continueExecution_passes (hk : k.SparesCode C) (hatt : Attached w att) (hown : Owned w)
    (hintact : Intact C w) (hstopped : w.tracee.task = .stopped) (hinto : StepsIntoStop k syms w)
    (hok : continueExecution k syms w = .ok w') (hact : w'.state = .active)
    (halive : w'.tracee.alive w'.pid = true) : Passes C w w' := by
  unfold continueExecution at hok
  split_ifs at hok
  · cases hok
  obtain ⟨w₁, hstep, hok⟩ := bind_eq_ok.mp hok
  have halive₁ : w₁.tracee.alive w₁.pid = true := by
    have hresumed := waitForSignal_alive hok halive
    exact Tracee.alive_resume.symm.trans hresumed
  have hpass := executeStepOverLoc_passes hk hatt hown hintact hstep halive₁ hstopped
    (hinto w₁ hstep)
  have hresume : Passes C w₁ ({ w₁ with pendingSignal := 0 }.setTracee
      (w₁.tracee.resume k w₁.pid (.cont w₁.pendingSignal))) :=
    .of_eq rfl rfl fun a _ => congrFun Tracee.resume_mem a
  refine hpass.trans (hresume.trans ?_)
  · rcases waitForSignal_passes (C := C) hk hok with hpass₂ | ⟨hended, -⟩
    · exact hpass₂
    · rw [hended] at hact
      cases hact

end Running

/-! ## New locations over old ones -/

/-- From `w` only locations with new pointers were planted, each on the byte that was there. -/
structure Shadows (C : Addr → Prop) (w w₁ : World) : Prop where
  pid : w₁.pid = w.pid
  alive : w₁.tracee.alive w₁.pid = true
  stopped : w₁.tracee.task = .stopped
  frontier : w.nextPtr ≤ w₁.nextPtr
  table : ∀ a p, p < w.nextPtr →
    (mapLookup w₁.bpLocations a = some p ↔ mapLookup w.bpLocations a = some p)
  old : ∀ p < w.nextPtr,
    (w₁.locs p).map BpLocation.unsaved = (w.locs p).map BpLocation.unsaved
  saved : ∀ p loc, w.locs p = some loc → C loc.runningAddr → w₁.locs p = some loc
  new : ∀ p loc, w.nextPtr ≤ p → w₁.locs p = some loc → loc.isTemp = true ∧ loc.patched = true ∧
    (C loc.runningAddr → w₁.tracee.mem loc.runningAddr = 0xcc ∧
      loc.savedData = w.tracee.mem loc.runningAddr)
  plain : ∀ a, C a → (∀ p loc, w.nextPtr ≤ p → w₁.locs p = some loc → loc.runningAddr ≠ a) →
    w₁.tracee.mem a = w.tracee.mem a

section Shadows

variable {w w' w₁ w₂ : World} {ts : List Addr} {a : Addr}

/-- Before anything is planted. -/
theorem Shadows.refl (h : Ready w ts) (halive : w.tracee.alive w.pid = true)
    (hstopped : w.tracee.task = .stopped) : Shadows C w w := by
  refine ⟨rfl, halive, hstopped, le_rfl, fun _ _ _ => Iff.rfl, fun _ _ => rfl, fun _ _ hp _ => hp,
    fun p loc hle hp => ?_, fun _ _ _ => rfl⟩
  have hlt := h.registry.locFresh p (by rw [hp]; rfl)
  exact absurd hlt (Nat.not_lt.mpr hle)

/-- The tracee runs over the new locations and the old ones. -/
theorem Shadows.passes (h : Shadows C w w₁) (hpass : Passes C w₁ w₂)
    (halive : w₂.tracee.alive w₂.pid = true) (hstopped : w₂.tracee.task = .stopped) :
    Shadows C w w₂ := by
  have hpid : w₂.pid = w₁.pid := by rw [hpass.rest]
  have hnext : w₂.nextPtr = w₁.nextPtr := by rw [hpass.rest]
  have htable := hpass.toQuiet.bpLocations
  refine ⟨hpid.trans h.pid, halive, hstopped, by rw [hnext]; exact h.frontier, fun a p hp => ?_,
    fun p hp => (hpass.locs p).trans (h.old p hp),
    fun p loc hp hC => hpass.saved p loc (h.saved p loc hp hC) hC, fun p loc hle hp => ?_,
    fun a ha hnone => ?_⟩
  · rw [htable]
    exact h.table a p hp
  · obtain ⟨loc₁, hloc₁, he⟩ := hpass.toQuiet.loc_eq hp
    obtain ⟨htemp, hpat, hcode⟩ := h.new p loc₁ hle hloc₁
    refine ⟨by rw [he]; exact htemp, by rw [he]; exact hpat, fun hC => ?_⟩
    have hsame := hpass.loc_eq hp hC
    obtain rfl := Option.some.inj (hloc₁.symm.trans hsame)
    rw [hpass.code _ hC]
    exact hcode hC
  · rw [hpass.code a ha]
    refine h.plain a ha fun p loc hle hp => ?_
    obtain ⟨loc₂, hloc₂, he⟩ := exists_of_unsaved (hpass.locs p).symm hp
    have hrun := BpLocation.runningAddr_of_unsaved he
    rw [← hrun]
    exact hnone p loc₂ hle hloc₂

/-- A patch of the user's stays intact under new locations. -/
theorem Shadows.intact (h : Shadows C w w₁) (hmapped : Mapped w₁) (hw : Intact C w) :
    Intact C w₁ := by
  intro p loc hp hpat hC
  rcases Nat.lt_or_ge p w.nextPtr with hlt | hle
  swap
  · exact ((h.new p loc hle hp).2.2 hC).1
  obtain ⟨loc₀, hloc₀, he⟩ := exists_of_unsaved (h.old p hlt) hp
  have hrun := BpLocation.runningAddr_of_unsaved he
  have hsame := h.saved p loc₀ hloc₀ (by rwa [hrun])
  obtain rfl := Option.some.inj (hp.symm.trans hsame)
  rw [h.plain loc.runningAddr hC fun q l hle hq hne => ?_]
  · exact hw p loc hloc₀ hpat hC
  · have hq₁ := hmapped.registered q l hq
    rw [hne, hmapped.registered p loc hp] at hq₁
    obtain rfl := Option.some.inj hq₁
    exact absurd hlt (Nat.not_lt.mpr hle)

/-- `set_temp_bp_location` where there is no location. -/
theorem Shadows.plant_absent (hk : k.SparesCode C) (h : Shadows C w w₁) (hready : Ready w₁ ts)
    (hp : mapLookup w₁.bpLocations a = none) {planted : Bool}
    (hok : setTempBpLocation k w₁ a = .ok (planted, w')) : Shadows C w w' := by
  obtain ⟨hact, hpid, ha⟩ := setTempBpLocation_ok hok
  have halive : w'.tracee.alive w'.pid = true := (alive_of_life (setTemp_life hok)).mpr h.alive
  have hstopped : w'.tracee.task = .stopped := (stopped_of_life (setTemp_life hok)).mpr h.stopped
  obtain ⟨ht, heq, hlookup⟩ := setTempBpLocation_absent (k := k) hready hact hpid ha hp
  rw [heq] at hok
  cases hok
  have hfree : ∀ p loc, w₁.locs p = some loc → loc.runningAddr ≠ a := by
    intro p loc hloc he
    have hreg := hready.attached.registered p loc hloc
    rw [he, hp] at hreg
    cases hreg
  have harm : C a → arm k w₁.tracee (w₁.tempLoc a) = ({ w₁.tempLoc a with
      savedData := w₁.tracee.mem a, patched := true }, w₁.tracee.storeByte w₁.pid a 0xcc) :=
    fun hC => hk.arm_eq _ (w₁.tempLoc a) hC h.alive h.stopped rfl
  refine ⟨h.pid, halive, hstopped, h.frontier.trans (Nat.le_succ _), fun a' p hlt => ?_,
    fun p hlt => ?_, fun p loc hloc hC => ?_, fun p loc hle hloc => ?_, fun a' ha' hnone => ?_⟩
  · rw [← h.table a' p hlt]
    show mapLookup (some ht) a' = some p ↔ _
    rw [hlookup]
    split_ifs with he
    · rw [he, hp]
      refine iff_of_false (fun hsome => ?_) fun hnone => by cases hnone
      have hfrontier := h.frontier
      rw [← Option.some.inj hsome] at hlt
      exact absurd hlt (Nat.not_lt.mpr hfrontier)
    · rfl
  · rw [← h.old p hlt]
    show (Function.update w₁.locs w₁.nextPtr _ p).map _ = _
    rw [Function.update_of_ne (hlt.trans_le h.frontier).ne]
  · have hold := h.saved p loc hloc hC
    have hlt := hready.registry.locFresh p (by rw [hold]; rfl)
    exact (Function.update_of_ne hlt.ne _ _).trans hold
  · rcases locs_cases (f := w₁.locs) rfl hloc with ⟨rfl, hnew⟩ | ⟨-, hloc⟩
    · obtain ⟨s, hs⟩ := arm_fst k w₁.tracee (w₁.tempLoc a)
      have hloc' := Option.some.inj hnew
      have hrun : loc.runningAddr = a := by rw [← hloc', hs]; rfl
      refine ⟨by rw [← hloc', hs]; rfl, by rw [← hloc', hs], fun hC => ?_⟩
      rw [hrun] at hC ⊢
      have hplain := h.plain a hC fun p l _ hl => hfree p l hl
      refine ⟨?_, ?_⟩
      · show (arm k w₁.tracee (w₁.tempLoc a)).2.mem a = 0xcc
        rw [harm hC]
        exact Function.update_self ..
      · rw [← hloc', harm hC]
        exact hplain
    · obtain ⟨htemp, hpat, hcode⟩ := h.new p loc hle hloc
      refine ⟨htemp, hpat, fun hC => ?_⟩
      obtain ⟨hbyte, hsaved⟩ := hcode hC
      refine ⟨?_, hsaved⟩
      rw [← hbyte]
      exact hk.arm_other _ _ (hfree p loc hloc)
  · have hne : a' ≠ a := by
      obtain ⟨s, hs⟩ := arm_fst k w₁.tracee (w₁.tempLoc a)
      have hnew := hnone w₁.nextPtr _ h.frontier (Function.update_self ..)
      rw [hs] at hnew
      exact hnew.symm
    show (arm k w₁.tracee (w₁.tempLoc a)).2.mem a' = w.tracee.mem a'
    rw [hk.arm_other _ (w₁.tempLoc a) hne]
    refine h.plain a' ha' fun p loc hle hloc => hnone p loc hle ?_
    have hlt := hready.registry.locFresh p (by rw [hloc]; rfl)
    exact (Function.update_of_ne hlt.ne _ _).trans hloc

/-- `set_temp_bp_location` on top of what is there. -/
theorem Shadows.plant (hk : k.SparesCode C) (h : Shadows C w w₁) (hready : Ready w₁ ts)
    {planted : Bool} (hok : setTempBpLocation k w₁ a = .ok (planted, w')) : Shadows C w w' := by
  obtain ⟨hact, hpid, ha⟩ := setTempBpLocation_ok hok
  rcases hp : mapLookup w₁.bpLocations a with - | q
  · exact h.plant_absent hk hready hp hok
  -- the patch over the one of the location that is registered is taken out at once
  have halive : w'.tracee.alive w'.pid = true := (alive_of_life (setTemp_life hok)).mpr h.alive
  have hstopped : w'.tracee.task = .stopped := (stopped_of_life (setTemp_life hok)).mpr h.stopped
  have heq := setTempBpLocation_registered (k := k) hready hact hpid ha (by rw [hp]; rfl)
  rw [heq] at hok
  cases hok
  have hmem : ∀ a', C a' → (disarm k (arm k w₁.tracee (w₁.tempLoc a)).2
      (arm k w₁.tracee (w₁.tempLoc a)).1).2.mem a' = w₁.tracee.mem a' :=
    fun _ hC => hk.disarm_arm _ _ h.alive h.stopped rfl hC
  refine ⟨h.pid, halive, hstopped, h.frontier.trans (Nat.le_succ _), h.table, h.old, h.saved,
    fun p loc hle hloc => ?_, fun a' ha' hnone => (hmem a' ha').trans (h.plain a' ha' hnone)⟩
  obtain ⟨htemp, hpat, hcode⟩ := h.new p loc hle hloc
  refine ⟨htemp, hpat, fun hC => ?_⟩
  obtain ⟨hbyte, hsaved⟩ := hcode hC
  exact ⟨(hmem _ hC).trans hbyte, hsaved⟩

/-- `unset_temp_bp_location` puts back the byte that was there before the command. -/
theorem Shadows.unplant (hk : k.SparesCode C) (h : Shadows C w w₁) (hw : Ready w [])
    (hready : Ready w₁ (a :: ts)) (hown : Owned w₁)
    (hok : unsetTempBpLocation k w₁ a = .ok w') : Shadows C w w' := by
  have halive : w'.tracee.alive w'.pid = true := (alive_of_life (unsetTemp_life hok)).mpr h.alive
  have hstopped : w'.tracee.task = .stopped := (stopped_of_life (unsetTemp_life hok)).mpr h.stopped
  have hact : w₁.state = .active := by
    by_contra hne
    exact unsetTempBpLocation_inactive hne hok
  obtain ⟨p, loc, ht, hp, hloc, hrun, htemp, hunset, hlookup⟩ := hready.unplant_eq k hact
  obtain rfl := Except.ok.inj (hunset.symm.trans hok)
  have hle : w.nextPtr ≤ p := by
    by_contra hlt
    obtain ⟨loc₀, hloc₀, he⟩ := exists_of_unsaved (h.old p (Nat.not_le.mp hlt)) hloc
    have htemp₀ : loc₀.isTemp = loc.isTemp := by
      have hflag := congrArg BpLocation.isTemp he
      exact hflag
    rw [← htemp₀, hw.planted.temp p loc₀ hloc₀] at htemp
    cases htemp
  obtain ⟨-, hpat, hcode⟩ := h.new p loc hle hloc
  have hother : ∀ a' ≠ a, (disarm k w₁.tracee loc).2.mem a' = w₁.tracee.mem a' :=
    fun a' hne => hk.disarm_other _ _ (by rwa [hrun])
  have hnot : ∀ q l, q ≠ p → w₁.locs q = some l → l.runningAddr ≠ a := by
    intro q l hne hl he
    have hreg := hready.attached.registered q l hl
    rw [he, hp] at hreg
    exact hne (Option.some.inj hreg).symm
  refine ⟨h.pid, halive, hstopped, h.frontier, fun a' q hlt => ?_, fun q hlt => ?_, fun q l hl hC => ?_,
    fun q l hq hl => ?_, fun a' ha' hnone => ?_⟩
  · rw [← h.table a' q hlt]
    show mapLookup (some ht) a' = some q ↔ _
    rw [hlookup]
    split_ifs with he
    · rw [he, hp]
      refine iff_of_false (fun hnone => by cases hnone) fun hsome => ?_
      rw [← Option.some.inj hsome] at hlt
      exact absurd hlt (Nat.not_lt.mpr hle)
    · rfl
  · rw [← h.old q hlt]
    show (Function.update w₁.locs p none q).map _ = _
    rw [Function.update_of_ne (hlt.trans_le hle).ne]
  · have hlt := hw.registry.locFresh q (by rw [hl]; rfl)
    exact (Function.update_of_ne (hlt.trans_le hle).ne _ _).trans (h.saved q l hl hC)
  · rcases locs_cases (f := w₁.locs) rfl hl with ⟨-, ⟨⟩⟩ | ⟨hne, hl⟩
    obtain ⟨htemp', hpat', hcode'⟩ := h.new q l hq hl
    refine ⟨htemp', hpat', fun hC => ?_⟩
    obtain ⟨hbyte, hsaved⟩ := hcode' hC
    exact ⟨(hother _ (hnot q l hne hl)).trans hbyte, hsaved⟩
  · show (disarm k w₁.tracee loc).2.mem a' = w.tracee.mem a'
    by_cases haddr : a' = a
    · have hC : C loc.runningAddr := by rwa [hrun, ← haddr]
      have halive₁ : w₁.tracee.alive loc.pid = true := by
        rw [hown p loc hloc]
        exact h.alive
      rw [hk.disarm_eq _ _ hC halive₁ h.stopped hpat, haddr, ← hrun, ← (hcode hC).2]
      exact Function.update_self ..
    · rw [hother a' haddr]
      refine h.plain a' ha' fun q l hq hl he => ?_
      have hne : q ≠ p := by
        rintro rfl
        rw [hl] at hloc
        rw [← Option.some.inj hloc] at hrun
        exact haddr (he.symm.trans hrun)
      exact hnone q l hq ((Function.update_of_ne hne _ _).trans hl) he

theorem Shadows.unplantAll (hk : k.SparesCode C) (h : Shadows C w w₁) (hw : Ready w [])
    (hready : Veiled w w₁ ts) (hown : Owned w₁)
    (hok : ts.foldlM (unsetTempBpLocation k) w₁ = .ok w') : Shadows C w w' := by
  induction ts generalizing w₁ with
  | nil =>
    cases hok
    exact h
  | cons a ts ih =>
    obtain ⟨w₂, hunset, hok⟩ := foldlM_cons_eq_ok.mp hok
    exact ih (h.unplant hk hw hready.ready hown hunset) (hready.unplant hunset)
      (unsetTemp_owned hown hunset) hok

end Shadows

/-! ## After the command -/

/-- The locations are there as before, with their flags and lists, and so are the bytes of `C` and
the ones saved from there. -/
structure NoTrace (C : Addr → Prop) (w w' : World) : Prop where
  registered : ∀ a, mapLookup w'.bpLocations a = mapLookup w.bpLocations a
  locs : ∀ p, (w'.locs p).map BpLocation.unsaved = (w.locs p).map BpLocation.unsaved
  saved : ∀ p loc, w.locs p = some loc → C loc.runningAddr → w'.locs p = some loc
  code : ∀ a, C a → w'.tracee.mem a = w.tracee.mem a

/-- The tracee is there and in a stop. -/
def World.Held (w : World) : Prop :=
  w.state = .active ∧ w.tracee.alive w.pid = true ∧ w.tracee.task = .stopped

instance (w : World) : Decidable w.Held := inferInstanceAs (Decidable (_ ∧ _ ∧ _))

section Commands

variable {w w' w₁ w₂ : World} {ts : List Addr} {a : Addr}

/-- Where no temporary location is left, nothing is. -/
theorem Shadows.noTrace (h : Shadows C w w') (hw : Ready w []) (hready : Ready w' []) :
    NoTrace C w w' := by
  have hold : ∀ p loc, w'.locs p = some loc → p < w.nextPtr := by
    intro p loc hp
    by_contra hle
    have htemp := (h.new p loc (Nat.not_lt.mp hle) hp).1
    rw [hready.planted.temp p loc hp] at htemp
    cases htemp
  refine ⟨fun a => ?_, fun p => ?_, h.saved, fun a ha => h.plain a ha fun p loc hle hp => ?_⟩
  · apply Option.ext
    intro p
    constructor
    · intro hp
      obtain ⟨loc, hloc, -⟩ := hready.attached.stored a p hp
      exact (h.table a p (hold p loc hloc)).mp hp
    · intro hp
      obtain ⟨loc, hloc, -⟩ := hw.attached.stored a p hp
      exact (h.table a p (hw.registry.locFresh p (by rw [hloc]; rfl))).mpr hp
  · rcases Nat.lt_or_ge p w.nextPtr with hlt | hle
    · exact h.old p hlt
    · have hnone : w.locs p = none := Option.not_isSome_iff_eq_none.mp fun hs =>
        absurd (hw.registry.locFresh p hs) (Nat.not_lt.mpr hle)
      have hnone' : w'.locs p = none := by
        rcases hp : w'.locs p with - | loc
        · rfl
        · exact absurd (hold p loc hp) (Nat.not_lt.mpr hle)
      rw [hnone, hnone']
  · exact absurd (hold p loc hp) (Nat.not_lt.mpr hle)

/-- What is planted is deleted after the tracee ran. -/
theorem Shadows.run_noTrace (hk : k.SparesCode C) (hw : Ready w []) (hintact : Intact C w)
    (h : w.tracee.alive w.pid = true → Shadows C w w₁) (hlife : w₁.life = w.life)
    (hveiled : Veiled w w₁ ts) (hown : Owned w₁) (hinto : StepsIntoStop k syms w₁)
    (hcont : continueExecution k syms w₁ = .ok w₂) (hheld : w₂.Held) :
    ∃ w', ts.foldlM (unsetTempBpLocation k) w₂ = .ok w' ∧ NoTrace C w w' := by
  obtain ⟨hact, halive, hstopped⟩ := hheld
  have hatt := hveiled.ready.attached
  have halive₁ : w₁.tracee.alive w₁.pid = true := continueExecution_alive hcont halive
  have hshadows := h ((alive_of_life hlife).mp halive₁)
  have hpass := continueExecution_passes hk hatt hown
    (hshadows.intact hatt.toMapped hintact) hshadows.stopped hinto hcont hact halive
  have hveiled₂ := hveiled.there hcont hact
  obtain ⟨w', hok⟩ := hveiled₂.unplant_returns (k := k) hact
  have hshadows' := (hshadows.passes hpass halive hstopped).unplantAll hk hw hveiled₂
    (continueExecution_owned hown hatt hcont) hok
  exact ⟨w', hok, hshadows'.noTrace hw (hveiled₂.unplantAll hok).ready⟩

/-- The return address is read. -/
theorem Shadows.readReturnAddress (h : Shadows C w w₁) :
    Shadows C w (Vdbg.readReturnAddress k w₁).2 :=
  h.passes (.of_eq rfl rfl fun _ _ => rfl) h.alive h.stopped

/-- The locations of `next`, one after the other. -/
theorem plantTempLocations_shadows {die : FuncDie} {name : String} {pc : Addr} {d : ToDelete}
    (hk : k.SparesCode C) (hready : Ready w []) (halive : w.tracee.alive w.pid = true)
    (hstopped : w.tracee.task = .stopped)
    (hok : plantTempLocations k w die name pc = .ok (d, w')) : Shadows C w w' := by
  obtain ⟨d₁, w₁, hlines, hrest⟩ := plantTempLocations_ok hok
  have hboth : Veiled w w₁ d₁.addrs ∧ Shadows C w w₁ := by
    refine FaultRun.invariant (P := fun s : ToDelete × World => Veiled w s.2 s.1.addrs ∧ Shadows C w s.2)
      (s := (⟨100, []⟩, w)) (fun s a s' h hplant => ?_) ⟨.refl hready, .refl hready halive hstopped⟩
      hlines
    obtain ⟨planted, hset, -⟩ := plantAt_ok hplant
    exact ⟨plantAt_veiled h.1 hplant, h.2.plant hk h.1.ready hset⟩
  obtain ⟨hveiled, hshadows⟩ := hboth
  by_cases hmain : name = "main"
  · rw [if_pos hmain] at hrest
    rw [hrest.2]
    exact hshadows
  · rw [if_neg hmain] at hrest
    obtain ⟨planted, hset, -⟩ := hrest
    exact hshadows.readReturnAddress.plant hk
      (hveiled.quiet (readReturnAddress_quiet (k := k) w₁)).ready hset

/-- **`next` and `finish` leave no trace.** In every state a session reaches with the tracee in a stop,
if no patch on the code was overwritten, and the program does not write to it, and the step over a
patch at the pc and `continue_execution` come back with the tracee in a stop, the command returns and
leaves the locations and the code as they were. -/
theorem next_finish_noTrace {cs : List Command} (hk : k.SparesCode C)
    (hok : session k syms dbgInit cs = .ok w) (hintact : Intact C w)
    (hstopped : w.tracee.task = .stopped) :
    (∀ planted w₁ w₂, setTempBpLocation k (readReturnAddress k w).2 (readReturnAddress k w).1 =
        .ok (planted, w₁) → StepsIntoStop k syms w₁ → continueExecution k syms w₁ = .ok w₂ →
        w₂.Held → ∃ w', stepOut k syms w = .ok w' ∧ NoTrace C w w') ∧
    ∀ die name d w₁ w₂,
      getFuncDieFromPc w (getPc k w.tracee w.pid) w.loadAddress = .ok (some die) →
      die.name = some name →
      plantTempLocations k w die name (getPc k w.tracee w.pid) = .ok (d, w₁) →
      StepsIntoStop k syms w₁ → continueExecution k syms w₁ = .ok w₂ → w₂.Held →
      ∃ w', stepOver k syms w = .ok w' ∧ NoTrace C w w' := by
  have hready : Ready w [] := session_ready dbgInit_ready hok
  have hown : Owned w := session_owned dbgInit_owned dbgInit_ready hok
  constructor
  · intro planted w₁ w₂ hplant hinto hcont hheld
    have hveiled := (Veiled.refl hready).quiet (readReturnAddress_quiet (k := k) w)
    have hown₁ := setTemp_owned (w := (readReturnAddress k w).2) (hown.congr rfl rfl) hplant
    have hlife : w₁.life = w.life := (setTemp_life hplant).trans (readReturnAddress_life w)
    rw [stepOut_eq hplant, runPlanted_eq hcont]
    refine Shadows.run_noTrace hk hready hintact (fun halive => ?_) hlife (hveiled.plant hplant)
      hown₁ hinto hcont hheld
    exact (Shadows.refl hready halive hstopped).readReturnAddress.plant hk hveiled.ready hplant
  · intro die name d w₁ w₂ hdie hname hplant hinto hcont hheld
    rw [stepOver_eq hdie hname hplant, runPlanted_eq hcont]
    exact Shadows.run_noTrace hk hready hintact
      (fun halive => plantTempLocations_shadows hk hready halive hstopped hplant)
      (plantTempLocations_life hplant) (plantTempLocations_veiled hready hplant)
      (plantTempLocations_owned hown hplant) hinto hcont hheld

/-- The patches of finitely many locations can be looked through. -/
theorem intact_of_all (h : Ready w ts) (hall : (List.range w.nextPtr).all fun p =>
    (w.locs p).all fun loc => !loc.patched || w.tracee.mem loc.runningAddr = 0xcc) :
    Intact C w := by
  intro p loc hp hpat _
  have hlt := h.registry.locFresh p (by rw [hp]; rfl)
  have hloc := List.all_eq_true.mp hall p (List.mem_range.mpr hlt)
  rw [hp] at hloc
  simpa [hpat] using hloc

/-- The system lets a debugger access the memory of a process in a stop only. -/
def Kernel.guarded (k : Kernel) : Kernel :=
  { k with
    peekOk := fun t _ => t.task = .stopped
    pokeOk := fun t _ => t.task = .stopped }

/-- A process that hits a breakpoint on `0x401000`, comes back with the status from the step over it,
and stops again. -/
def hittingOnce (stepped : WaitStatus) : Kernel :=
  { Kernel.scripted (fun _ => 0) [.stopped ⟨SIGTRAP, 0⟩, .stopped ⟨SIGTRAP, SI_KERNEL⟩, stepped,
      .stopped ⟨SIGABRT, 0⟩] with
    image := fun _ => (fun r => if r = .rip then 0x401001 else 0, fun _ => 0x40)
    report := fun _ => some { Dwfl.empty with addrmodule := fun _ => true } }

theorem hittingOnce_sparesCode (stepped : WaitStatus) :
    (hittingOnce stepped).guarded.SparesCode C := by
  refine ⟨fun _ _ _ hs => decide_eq_true hs, fun _ _ _ hs => decide_eq_true hs,
    fun _ _ _ he => he, fun t st regs mem hreports a _ => ?_⟩
  simp only [Kernel.guarded, hittingOnce, Kernel.scripted] at hreports
  split at hreports
  · cases hreports
    rfl
  · cases hreports

/-- A `finish` from a breakpoint that plants a location beside the one of the user. -/
theorem next_finish_noTrace_stop : ∃ w w',
    session (hittingOnce (.stopped ⟨SIGTRAP, TRAP_TRACE⟩)).guarded bareSymbols dbgInit
      [.break [.addr 0x401000], .run true] = .ok w ∧
    stepOut (hittingOnce (.stopped ⟨SIGTRAP, TRAP_TRACE⟩)).guarded bareSymbols w = .ok w' ∧
    NoTrace (fun _ => True) w w' := by
  set k := (hittingOnce (.stopped ⟨SIGTRAP, TRAP_TRACE⟩)).guarded with hk
  obtain ⟨w, hw, hp⟩ := exists_of_any
    (p := fun w => ((List.range w.nextPtr).all fun p =>
        (w.locs p).all fun loc => !loc.patched || w.tracee.mem loc.runningAddr = 0xcc) &&
      (w.tracee.task = .stopped &&
        (setTempBpLocation k (readReturnAddress k w).2 (readReturnAddress k w).1).toOption.any
          fun r => (stepOverBreakpoint k bareSymbols r.2).toOption.all (·.tracee.task = .stopped) &&
            (continueExecution k bareSymbols r.2).toOption.any fun w₂ => w₂.Held))
    (x := session k bareSymbols dbgInit [.break [.addr 0x401000], .run true]) (by decide +kernel)
  obtain ⟨hall, hp⟩ := (Bool.and_eq_true _ _).mp hp
  obtain ⟨hstopped, hp⟩ := (Bool.and_eq_true _ _).mp hp
  obtain ⟨⟨planted, w₁⟩, hplant, hp⟩ := exists_of_any hp
  obtain ⟨hinto, hp⟩ := (Bool.and_eq_true _ _).mp hp
  obtain ⟨w₂, hcont, hheld⟩ := exists_of_any hp
  have hsteps : StepsIntoStop k bareSymbols w₁ := fun w' hok => by
    rw [hok] at hinto
    exact of_decide_eq_true hinto
  obtain ⟨w', hfinish, hnone⟩ := (next_finish_noTrace (hittingOnce_sparesCode _) hw
    (intact_of_all (session_ready dbgInit_ready hw) hall) (of_decide_eq_true hstopped)).1
      planted w₁ w₂ hplant hsteps hcont (of_decide_eq_true hheld)
  exact ⟨w, w', hw, hfinish, hnone⟩

/-- A `finish` whose `continue_execution` comes back with the tracee in a stop, and after which the
byte at the address, or the one saved from there, is another one. -/
def LeavesTrace (k : Kernel) (w : World) (a : Addr) : Prop :=
  ∃ planted w₁ w₂ w', setTempBpLocation k (readReturnAddress k w).2 (readReturnAddress k w).1 =
      .ok (planted, w₁) ∧ continueExecution k bareSymbols w₁ = .ok w₂ ∧ w₂.Held ∧
    stepOut k bareSymbols w = .ok w' ∧ ¬NoTrace (· = a) w w'

/-- A process that counts its runs in the byte at `0x401000`. -/
def rewriting : Kernel :=
  { returning (.stopped ⟨SIGABRT, 0⟩) with
    wait := fun t => match (returning (.stopped ⟨SIGABRT, 0⟩)).wait t with
      | .reports status regs mem =>
        .reports status regs (Function.update mem 0x401000 (mem 0x401000 + 1))
      | outcome => outcome }

/-- A process left running with a `SIGALRM`, while the struct for its registers still holds a pc of
`0x401000`. -/
def leftRunning : Kernel :=
  { Kernel.scripted (fun _ => 0) [.stopped ⟨SIGTRAP, 0⟩, .stopped ⟨SIGALRM, 0⟩,
      .stopped ⟨SIGABRT, 0⟩, .stopped ⟨SIGABRT, 0⟩] with
    image := fun _ => (fun _ => 0, fun _ => 0x40)
    junkRegs := fun _ r => if r = .rip then 0x401000 else 0 }

/-- The byte at the address, or the one saved from there. -/
def otherByte (a : Addr) (w w' : World) : Bool :=
  w'.tracee.mem a ≠ w.tracee.mem a || (List.range w.nextPtr).any fun p => (w.locs p).any fun loc =>
    loc.runningAddr = a && (w'.locs p).map BpLocation.savedData ≠ some loc.savedData

theorem not_noTrace_of_otherByte (h : otherByte a w w' = true) : ¬NoTrace (· = a) w w' := by
  intro hnone
  rcases (Bool.or_eq_true _ _).mp h with h | h
  · exact of_decide_eq_true h (hnone.code a rfl)
  · obtain ⟨p, -, h⟩ := List.any_eq_true.mp h
    obtain ⟨loc, hp, h⟩ := (Option.any_eq_true _ _).mp h
    obtain ⟨hrun, hne⟩ := (Bool.and_eq_true _ _).mp h
    refine of_decide_eq_true hne ?_
    rw [hnone.saved p loc hp (of_decide_eq_true hrun)]
    rfl

def leavesTrace (k : Kernel) (a : Addr) (w : World) : Bool :=
  (setTempBpLocation k (readReturnAddress k w).2 (readReturnAddress k w).1).toOption.any
    fun r => (continueExecution k bareSymbols r.2).toOption.any fun w₂ => w₂.Held &&
      (stepOut k bareSymbols w).toOption.any fun w' => otherByte a w w'

theorem LeavesTrace.of_bool {k : Kernel} {w : World} {a : Addr} (h : leavesTrace k a w = true) :
    LeavesTrace k w a := by
  unfold leavesTrace at h
  obtain ⟨⟨planted, w₁⟩, hplant, h⟩ := exists_of_any h
  obtain ⟨w₂, hcont, h⟩ := exists_of_any h
  obtain ⟨hheld, h⟩ := (Bool.and_eq_true _ _).mp h
  obtain ⟨w', hfinish, hbyte⟩ := exists_of_any h
  exact ⟨planted, w₁, w₂, w', hplant, hcont, of_decide_eq_true hheld, hfinish,
    not_noTrace_of_otherByte hbyte⟩

/-- The user has written over the patch at the pc, and the step over it puts the patch back; the
program writes to its code; a silent signal leaves the tracee running in the step over the patch, or
before the command. -/
theorem finish_leaves_trace :
    (∃ w, session (hittingOnce (.stopped ⟨SIGTRAP, TRAP_TRACE⟩)) bareSymbols dbgInit
        [.break [.addr 0x401000], .run true, .memoryWrite 0x401000 0x9090909090909090] = .ok w ∧
      LeavesTrace (hittingOnce (.stopped ⟨SIGTRAP, TRAP_TRACE⟩)) w 0x401000) ∧
    (∃ w, session rewriting bareSymbols dbgInit [.run true] = .ok w ∧
      LeavesTrace rewriting w 0x401000) ∧
    (∃ w, session (hittingOnce (.stopped ⟨SIGALRM, 0⟩)).guarded bareSymbols dbgInit
        [.break [.addr 0x401000], .run true] = .ok w ∧
      LeavesTrace (hittingOnce (.stopped ⟨SIGALRM, 0⟩)).guarded w 0x401000) ∧
    ∃ w, session leftRunning.guarded bareSymbols dbgInit [.break [.addr 0x401000], .run true] =
        .ok w ∧ LeavesTrace leftRunning.guarded w 0x401000 := by
  refine ⟨?_, ?_, ?_, ?_⟩
  · obtain ⟨w, hw, hp⟩ := exists_of_any
      (p := leavesTrace (hittingOnce (.stopped ⟨SIGTRAP, TRAP_TRACE⟩)) 0x401000)
      (x := session (hittingOnce (.stopped ⟨SIGTRAP, TRAP_TRACE⟩)) bareSymbols dbgInit
        [.break [.addr 0x401000], .run true, .memoryWrite 0x401000 0x9090909090909090])
      (by decide +kernel)
    exact ⟨w, hw, .of_bool hp⟩
  · obtain ⟨w, hw, hp⟩ := exists_of_any (p := leavesTrace rewriting 0x401000)
      (x := session rewriting bareSymbols dbgInit [.run true]) (by decide +kernel)
    exact ⟨w, hw, .of_bool hp⟩
  · obtain ⟨w, hw, hp⟩ := exists_of_any
      (p := leavesTrace (hittingOnce (.stopped ⟨SIGALRM, 0⟩)).guarded 0x401000)
      (x := session (hittingOnce (.stopped ⟨SIGALRM, 0⟩)).guarded bareSymbols dbgInit
        [.break [.addr 0x401000], .run true]) (by decide +kernel)
    exact ⟨w, hw, .of_bool hp⟩
  · obtain ⟨w, hw, hp⟩ := exists_of_any (p := leavesTrace leftRunning.guarded 0x401000)
      (x := session leftRunning.guarded bareSymbols dbgInit
        [.break [.addr 0x401000], .run true]) (by decide +kernel)
    exact ⟨w, hw, .of_bool hp⟩

end Commands

end Vdbg
