import Vdbg.Memory
import Vdbg.Session

/-!
# Temporary locations

`set_temp_bp_location` arms a new location before it asks the map whether there is one already. Where
there is, the new one is freed again, which puts back the byte that was there: a location that was
not patched stays so, and the tracee does not stop there.
-/

namespace Vdbg

open FaultRun Words

variable {k : Kernel} {syms : Symbols}

section Temporary

variable {w w' w₁ : World} {ts : List Addr} {a : Addr}

/-- The location `set_temp_bp_location` makes. -/
def World.tempLoc (w : World) (a : Addr) : BpLocation := ⟨w.pid, false, true, 0, a, []⟩

/-- Where there is no location, the armed one is registered. -/
theorem setTempBpLocation_absent (h : Ready w ts) (hact : w.state = .active) (hpid : w.pid ≠ 0)
    (ha : a ≠ 0) (hnone : mapLookup w.bpLocations a = none) :
    ∃ ht, setTempBpLocation k w a = .ok (true, { w with
        nextPtr := w.nextPtr + 1
        locs := Function.update w.locs w.nextPtr (some (arm k w.tracee (w.tempLoc a)).1)
        bpLocations := some ht, tracee := (arm k w.tracee (w.tempLoc a)).2 }) ∧
      ∀ a', mapLookup (some ht) a' =
        if a' = a then some w.nextPtr else mapLookup w.bpLocations a' := by
  obtain ⟨table, htable⟩ := Option.isSome_iff_exists.mp (h.state.mp hact)
  obtain ⟨ht, hins, -, hlookup⟩ := mapInsert_absent (htable ▸ hnone) w.nextPtr
  refine ⟨ht, ?_, by rw [htable]; exact hlookup⟩
  unfold setTempBpLocation
  rw [if_neg (not_not.mpr hact), locInit_temp_eq hpid ha, ok_bind]
  dsimp only [World.setLoc, World.setTracee]
  rw [htable, hins]
  rfl

/-- Where there is one, the new location is freed again. -/
theorem setTempBpLocation_registered (h : Ready w ts) (hact : w.state = .active) (hpid : w.pid ≠ 0)
    (ha : a ≠ 0) (hsome : (mapLookup w.bpLocations a).isSome) :
    setTempBpLocation k w a = .ok (false, { w with
      nextPtr := w.nextPtr + 1
      tracee := (disarm k (arm k w.tracee (w.tempLoc a)).2 (arm k w.tracee (w.tempLoc a)).1).2 }) := by
  have hunused := h.registry.nextPtr_unused
  obtain ⟨s, hs⟩ := arm_fst k w.tracee (w.tempLoc a)
  unfold setTempBpLocation
  rw [if_neg (not_not.mpr hact), locInit_temp_eq hpid ha, ok_bind]
  dsimp only [World.setLoc, World.setTracee]
  rw [mapInsert_refused (.inr hsome)]
  dsimp only
  have hnew : Function.update w.locs w.nextPtr (some (arm k w.tracee (w.tempLoc a)).1) w.nextPtr =
      some (arm k w.tracee (w.tempLoc a)).1 := Function.update_self ..
  have hlocs : Function.update (Function.update w.locs w.nextPtr
      (some (arm k w.tracee (w.tempLoc a)).1)) w.nextPtr none = w.locs := by
    rw [Function.update_idem, ← hunused, Function.update_eq_self]
  have hlist : (arm k w.tracee (w.tempLoc a)).1.bpList = [] := by rw [hs]; rfl
  have hfree := locFree_eq (k := k) (w := { w with
      nextPtr := w.nextPtr + 1, tracee := (arm k w.tracee (w.tempLoc a)).2
      locs := Function.update w.locs w.nextPtr (some (arm k w.tracee (w.tempLoc a)).1) }) hnew
    (fun _ => hlist) (by rw [hlist]; simp)
  rw [hlist, World.detach_nil] at hfree
  refine (congrArg (· >>= fun w => pure (false, w)) hfree).trans ?_
  simp only [World.freeLoc, World.setTracee, hlocs]
  rfl

/-- `set_temp_bp_location` returns only in an active debugger, and registers what was not. -/
theorem setTempBpLocation_ok {planted : Bool} (hok : setTempBpLocation k w a = .ok (planted, w')) :
    w.state = .active ∧ w.pid ≠ 0 ∧ a ≠ 0 := by
  unfold setTempBpLocation at hok
  by_cases hact : w.state = .active
  · rw [if_neg (not_not.mpr hact)] at hok
    obtain ⟨⟨p, w₁⟩, hinit, -⟩ := bind_eq_ok.mp hok
    exact ⟨hact, locInit_asserts hinit⟩
  · rw [if_pos hact] at hok
    cases hok

theorem setTempBpLocation_planted (h : Ready w ts) {planted : Bool}
    (hok : setTempBpLocation k w a = .ok (planted, w')) :
    planted = (mapLookup w.bpLocations a).isNone := by
  obtain ⟨hact, hpid, ha⟩ := setTempBpLocation_ok hok
  rcases hp : mapLookup w.bpLocations a with - | p
  · obtain ⟨ht, heq, -⟩ := setTempBpLocation_absent (k := k) h hact hpid ha hp
    exact (Prod.mk.inj (Except.ok.inj (hok.symm.trans heq))).1
  · have heq := setTempBpLocation_registered (k := k) h hact hpid ha (by rw [hp]; rfl)
    exact (Prod.mk.inj (Except.ok.inj (hok.symm.trans heq))).1

variable (k) in
/-- A temporary location of an active debugger can be deleted. -/
theorem Ready.unplant_eq (h : Ready w (a :: ts)) (hact : w.state = .active) :
    ∃ p loc ht, mapLookup w.bpLocations a = some p ∧ w.locs p = some loc ∧ loc.runningAddr = a ∧
      loc.isTemp = true ∧ unsetTempBpLocation k w a =
        .ok (({ w with bpLocations := some ht }.setTracee (disarm k w.tracee loc).2).freeLoc p) ∧
      ∀ a', mapLookup (some ht) a' = if a' = a then none else mapLookup w.bpLocations a' := by
  obtain ⟨p, hp⟩ := Option.isSome_iff_exists.mp (h.planted.there a List.mem_cons_self)
  obtain ⟨loc, hloc, hrun⟩ := h.attached.stored a p hp
  have htemp : loc.isTemp = true := (h.planted.temp p loc hloc).mpr (hrun ▸ List.mem_cons_self)
  obtain ⟨ht, hdel, -, hlookup⟩ := deleteLocation_eq (k := k) h.attached hloc
  rw [h.attached.list_temp hloc htemp, World.detach_nil, hrun] at hdel
  rw [hrun] at hlookup
  refine ⟨p, loc, ht, hp, hloc, hrun, htemp, Eq.trans ?_ hdel, hlookup⟩
  unfold unsetTempBpLocation
  rw [if_neg (not_not.mpr hact), hp]

/-- So can all of them, one after the other. -/
theorem Veiled.unplant_returns (h : Veiled w w₁ ts) (hact : w₁.state = .active) :
    ∃ w', ts.foldlM (unsetTempBpLocation k) w₁ = .ok w' := by
  induction ts generalizing w₁ with
  | nil => exact ⟨w₁, rfl⟩
  | cons a ts ih =>
    obtain ⟨p, loc, ht, -, -, -, -, h₂, -⟩ := h.ready.unplant_eq k hact
    have hveiled := h.unplant h₂
    obtain ⟨w', h'⟩ := ih hveiled (hveiled.state.trans (h.state.symm.trans hact))
    exact ⟨w', foldlM_cons_eq_ok.mpr ⟨_, h₂, h'⟩⟩

/-! ## The byte under a temporary location -/

/-- **A temporary breakpoint is armed** exactly where no location is registered or the byte is an
`int3` already. -/
theorem setTempBpLocation_arms_iff (hk : k.Accessible) (h : Ready w ts) (hact : w.state = .active)
    (halive : w.tracee.alive w.pid = true) (hpid : w.pid ≠ 0) (ha : a ≠ 0) :
    ∃ planted w', setTempBpLocation k w a = .ok (planted, w') ∧
      ((w'.tracee.mem a = 0xcc ∧
        (planted = false → w'.locs = w.locs ∧ w'.bpLocations = w.bpLocations)) ↔
        mapLookup w.bpLocations a = none ∨ w.tracee.mem a = 0xcc) := by
  have harm : arm k w.tracee (w.tempLoc a) = ({ w.tempLoc a with
      savedData := w.tracee.mem a, patched := true }, w.tracee.storeByte w.pid a 0xcc) :=
    arm_eq hk halive rfl
  rcases hp : mapLookup w.bpLocations a with - | p
  · obtain ⟨ht, heq, -⟩ := setTempBpLocation_absent (k := k) h hact hpid ha hp
    refine ⟨true, _, heq, iff_of_true ⟨?_, fun he => by cases he⟩ (.inl rfl)⟩
    show (arm k w.tracee (w.tempLoc a)).2.mem a = 0xcc
    rw [harm]
    exact Function.update_self ..
  · refine ⟨false, _, setTempBpLocation_registered h hact hpid ha (by rw [hp]; rfl), ?_⟩
    have hdisarm : (disarm k (arm k w.tracee (w.tempLoc a)).2
        (arm k w.tracee (w.tempLoc a)).1).2.mem = w.tracee.mem := by
      rw [harm, disarm_eq hk (show (w.tracee.storeByte w.pid a 0xcc).alive w.pid = true from halive)
        rfl]
      exact storeByte_twice w.tracee w.pid a 0xcc
    constructor
    · rintro ⟨hbyte, -⟩
      exact .inr (congrFun hdisarm a ▸ hbyte)
    · intro hbyte
      exact ⟨(congrFun hdisarm a).trans (hbyte.resolve_left fun he => by cases he),
        fun _ => ⟨rfl, rfl⟩⟩

/-- A process that stops with `SIGABRT` before it runs. -/
def aborting : Kernel := .scripted (fun _ => 0) [.stopped ⟨SIGTRAP, 0⟩, .stopped ⟨SIGABRT, 0⟩]

theorem setTempBpLocation_arms_iff_absent : ∃ w, session aborting .stripped dbgInit
      [.break [.addr 0x401000], .run true] = .ok w ∧
    ∃ planted w', setTempBpLocation aborting w 0x401004 = .ok (planted, w') ∧
      ((w'.tracee.mem 0x401004 = 0xcc ∧
        (planted = false → w'.locs = w.locs ∧ w'.bpLocations = w.bpLocations)) ↔
        mapLookup w.bpLocations 0x401004 = none ∨ w.tracee.mem 0x401004 = 0xcc) := by
  obtain ⟨w, hw, hp⟩ := exists_of_any
    (p := fun w => w.state = .active && w.tracee.alive w.pid && w.pid ≠ 0)
    (x := session aborting .stripped dbgInit [.break [.addr 0x401000], .run true])
    (by decide +kernel)
  simp only [Bool.and_eq_true, decide_eq_true_eq] at hp
  obtain ⟨⟨hact, halive⟩, hpid⟩ := hp
  exact ⟨w, hw, setTempBpLocation_arms_iff (Kernel.scripted_accessible _ _)
    (session_ready dbgInit_ready hw) hact halive hpid (by decide)⟩

/-- On the location of a disabled breakpoint nothing is armed. -/
theorem setTempBpLocation_disabled : ∃ w planted w', session aborting .stripped dbgInit
      [.break [.addr 0x401000], .run true, .disable []] = .ok w ∧
    w.state = .active ∧ setTempBpLocation aborting w 0x401000 = .ok (planted, w') ∧
    w'.tracee.mem 0x401000 = 0 := by
  obtain ⟨w, hw, hp⟩ := exists_of_any
    (p := fun w => w.state = .active &&
      (setTempBpLocation aborting w 0x401000).toOption.any fun r => r.2.tracee.mem 0x401000 = 0)
    (x := session aborting .stripped dbgInit [.break [.addr 0x401000], .run true, .disable []])
    (by decide +kernel)
  simp only [Bool.and_eq_true, decide_eq_true_eq] at hp
  obtain ⟨⟨planted, w'⟩, hset, hbyte⟩ := exists_of_any hp.2
  exact ⟨w, planted, w', hw, hp.1, hset, of_decide_eq_true hbyte⟩

end Temporary

end Vdbg
