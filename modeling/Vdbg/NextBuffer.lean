import Vdbg.NextLine

/-!
# What next writes down

The loop of `step_over` carries the line it is on, the number of locations it has got and the size
of the buffer it writes them to. It asks for a location at exactly the changes of the line, also
where addresses have none (`mem_nextLines_iff`), and writes down those it gets. The buffer has room
for one address more at every turn (`ToDelete.Room`), so the return address fits too.
-/

namespace Vdbg

open FaultRun

variable {k : Kernel} {w w₁ : World} {a pc : Addr} {as : List Addr} {d : ToDelete} {die : FuncDie}
  {name : String} {src : SrcLine}

/-! ## What is written down -/

/-- The debugger can be asked for a location. -/
structure World.Plants (w : World) : Prop where
  active : w.state = .active
  pid : w.pid ≠ 0
  locations : w.bpLocations.isSome

/-- A location is got where there was none, and there is one afterwards. -/
theorem World.Plants.setTemp (h : w.Plants) (ha : a ≠ 0) :
    ∃ w', setTempBpLocation k w a = .ok ((mapLookup w.bpLocations a).isNone, w') ∧ w'.Plants ∧
      ∀ b, (mapLookup w'.bpLocations b).isNone ↔ b ≠ a ∧ (mapLookup w.bpLocations b).isNone := by
  obtain ⟨table, htable⟩ := Option.isSome_iff_exists.mp h.locations
  unfold setTempBpLocation
  rw [if_neg (not_not.mpr h.active), locInit_temp_eq h.pid ha, ok_bind]
  dsimp only [World.setLoc, World.setTracee]
  rcases hnone : mapLookup w.bpLocations a with - | p
  · obtain ⟨table', hins, -, hlookup⟩ := mapInsert_absent (htable ▸ hnone) w.nextPtr
    rw [htable, hins]
    refine ⟨_, rfl, ⟨h.active, h.pid, rfl⟩, fun b => ?_⟩
    show (mapLookup (some table') b).isNone ↔ _
    rw [hlookup]
    by_cases hb : b = a
    · rw [if_pos hb]
      exact iff_of_false Bool.false_ne_true fun hand => hand.1 hb
    · rw [if_neg hb]
      exact (and_iff_right hb).symm
  · rw [mapInsert_refused (.inr (Option.isSome_of_eq_some hnone))]
    dsimp only
    obtain ⟨saved, hsaved⟩ := arm_fst k w.tracee (w.tempLoc a)
    have hlist : (arm k w.tracee (w.tempLoc a)).1.bpList = [] := by
      rw [hsaved]
      rfl
    -- what the new location replaces at its pointer, it takes along
    have hfree := locFree_eq (k := k) (w := { w with
        nextPtr := w.nextPtr + 1, tracee := (arm k w.tracee (w.tempLoc a)).2
        locs := Function.update w.locs w.nextPtr (some (arm k w.tracee (w.tempLoc a)).1) })
      (Function.update_self ..) (fun _ => hlist) (by simp [hlist])
    refine ⟨_, congrArg (· >>= fun w => pure (false, w)) hfree, ⟨h.active, h.pid, h.locations⟩,
      fun b => (and_iff_right_of_imp ?_).symm⟩
    intro hb hba
    have hb : (mapLookup w.bpLocations b).isNone := hb
    rw [hba, hnone] at hb
    exact Bool.false_ne_true hb

/-- One location is asked for, and written down in the room there is. -/
theorem World.Plants.plantAt (h : w.Plants) (hroom : d.Room) (ha : a ≠ 0) :
    ∃ d' w', Vdbg.plantAt k (d, w) a = .ok (d', w') ∧ w'.Plants ∧ d'.Room ∧
      d'.addrs = d.addrs ++ [a].filter (fun a => (mapLookup w.bpLocations a).isNone) ∧
      ∀ b, (mapLookup w'.bpLocations b).isNone ↔ b ≠ a ∧ (mapLookup w.bpLocations b).isNone := by
  obtain ⟨w', hset, hplants, hlookup⟩ := h.setTemp (k := k) ha
  unfold Vdbg.plantAt
  dsimp only
  rw [hset, ok_bind]
  dsimp only
  rw [List.filter_singleton]
  cases (mapLookup w.bpLocations a).isNone with
  | true =>
    obtain ⟨d', hd', hroom', haddrs⟩ := ToDelete.store_grows hroom w' a
    rw [if_pos rfl, hd']
    exact ⟨d', w', rfl, hplants, hroom', haddrs, hlookup⟩
  | false => exact ⟨d, w', rfl, hplants, hroom, (List.append_nil _).symm, hlookup⟩

/-- Locations are asked for at addresses that are no two the same. -/
theorem World.Plants.plantAll (h : w.Plants) (hroom : d.Room) (has : ∀ a ∈ as, a ≠ 0)
    (hnodup : as.Nodup) : ∃ d' w', as.foldlM (Vdbg.plantAt k) (d, w) = .ok (d', w') ∧ w'.Plants ∧
      d'.Room ∧ d'.addrs = d.addrs ++ as.filter (fun a => (mapLookup w.bpLocations a).isNone) ∧
      ∀ b, (mapLookup w'.bpLocations b).isNone ↔ b ∉ as ∧ (mapLookup w.bpLocations b).isNone := by
  induction as generalizing d w with
  | nil => exact ⟨d, w, rfl, h, hroom, (List.append_nil _).symm, fun b => by simp⟩
  | cons a as ih =>
    obtain ⟨hnot, hnodup⟩ := List.nodup_cons.mp hnodup
    obtain ⟨ha, has⟩ := List.forall_mem_cons.mp has
    obtain ⟨d₁, w₁, hone, h₁, hroom₁, haddrs₁, hlookup₁⟩ := h.plantAt (k := k) hroom ha
    obtain ⟨d', w', hall, h', hroom', haddrs', hlookup'⟩ := ih h₁ hroom₁ has hnodup
    refine ⟨d', w', foldlM_cons_eq_ok.mpr ⟨(d₁, w₁), hone, hall⟩, h', hroom', ?_, fun b => ?_⟩
    · have hsame : as.filter (fun b => (mapLookup w₁.bpLocations b).isNone) =
          as.filter (fun b => (mapLookup w.bpLocations b).isNone) := by
        refine List.filter_congr fun b hb => Bool.eq_iff_iff.mpr ?_
        rw [hlookup₁]
        exact and_iff_right fun hba => hnot (hba ▸ hb)
      rw [haddrs', haddrs₁, hsame, List.append_assoc, ← List.filter_append, List.singleton_append]
    · rw [hlookup', hlookup₁, List.mem_cons, not_or]
      tauto

/-- No location is got at `NULL`. -/
theorem World.Plants.setTemp_null (h : w.Plants) :
    setTempBpLocation k w 0 = .error (.assertion, w) := by
  unfold setTempBpLocation locInit
  rw [if_neg (not_not.mpr h.active), if_pos (by simp)]
  rfl

/-- The planting of `step_over`: its loop asks for locations at `as`, which leaves the buffer `d` in
the world `w₁`, and then for one at the return address. -/
structure PlantsExactly (k : Kernel) (w : World) (die : FuncDie) (name : String) (pc : Addr)
    (as : List Addr) (d : ToDelete) (w₁ : World) : Prop where
  loop : plantLoop k (w.funcEnd die - pc).toNat pc (w.lineAt pc) 0 ⟨100, []⟩ w =
    as.foldlM (plantAt k) (⟨100, []⟩, w)
  once : as.Nodup
  asked : ∀ a, a ∈ as ↔
    pc < a ∧ a < w.funcEnd die ∧ w.lineFrom pc a ≠ w.lineFrom pc (a - 1)
  lines : ∀ a, (w.dwfl.getsrc a).isSome → w.lineFrom pc a = w.lineAt a
  loop_ok : as.foldlM (plantAt k) (⟨100, []⟩, w) = .ok (d, w₁)
  written : d.addrs = as.filter fun a => (mapLookup w.bpLocations a).isNone
  room : d.addrs.length < d.cap
  main : name = "main" → plantTempLocations k w die name pc = .ok (d, w₁)
  /-- The return address is written down too if there was no location. -/
  returned : name ≠ "main" → (readReturnAddress k w₁).1 ≠ 0 →
    ∃ w', plantTempLocations k w die name pc = .ok (⟨d.cap, d.addrs ++
      [(readReturnAddress k w₁).1].filter fun a => a ∉ as ∧ (mapLookup w.bpLocations a).isNone⟩, w')
  /-- `loc_init` asserts an address. -/
  unreturned : name ≠ "main" → (readReturnAddress k w₁).1 = 0 →
    ∃ w', plantTempLocations k w die name pc = .error (.assertion, w')

/-- **The buffer of next.** For every assignment of lines, every function and all locations there
are, its loop asks for a location once at each change of the line ahead and writes down those it
gets, as it does with the return address. No store is past the buffer. -/
theorem plantTempLocations_exact (hplants : w.Plants) (hmodule : w.dwfl.addrmodule pc = true)
    (hsrc : w.dwfl.getsrc pc = some src) (hline : src.line ≠ 0) (hinside : pc < w.funcEnd die) :
    ∃ as d w₁, PlantsExactly k w die name pc as d w₁ := by
  have hpos : ∀ a ∈ nextLines w die pc, a ≠ 0 := by
    intro a ha
    have hlt := ((mem_nextLines_iff hinside).mp ha).1
    bv_omega
  obtain ⟨d, w₁, hloop, h₁, hroom, haddrs, hlookup⟩ :=
    hplants.plantAll (k := k) ToDelete.room_start hpos (nextLines_nodup hinside)
  have hturns : (if pc < w.funcEnd die then (w.funcEnd die - pc).toNat else 0) =
      (w.funcEnd die - pc).toNat := if_pos hinside
  have hplantLoop : plantLoop k (w.funcEnd die - pc).toNat pc (w.lineAt pc) 0 ⟨100, []⟩ w =
      (nextLines w die pc).foldlM (plantAt k) (⟨100, []⟩, w) := by
    rw [plantLoop_eq, ← hturns]
    rfl
  have hafter : plantTempLocations k w die name pc = _ := plantTempLocations_eq hmodule hsrc hline
  rw [hloop, ok_bind] at hafter
  dsimp only at hafter
  have h₂ : (readReturnAddress k w₁).2.Plants := ⟨h₁.active, h₁.pid, h₁.locations⟩
  refine ⟨nextLines w die pc, d, w₁, hplantLoop, nextLines_nodup hinside,
    fun a => mem_nextLines_iff hinside, fun a => World.lineFrom_eq, hloop, haddrs,
    hroom.lt_cap, fun hmain => ?_, fun hmain hret => ?_, fun hmain hret => ?_⟩
  · rw [hafter, if_pos hmain]
    rfl
  · obtain ⟨w', hset, -, -⟩ := h₂.setTemp (k := k) hret
    have hnew : (mapLookup (readReturnAddress k w₁).2.bpLocations
        (readReturnAddress k w₁).1).isNone = decide ((readReturnAddress k w₁).1 ∉
          nextLines w die pc ∧ (mapLookup w.bpLocations (readReturnAddress k w₁).1).isNone) :=
      Bool.eq_iff_iff.mpr ((hlookup _).trans decide_eq_true_iff.symm)
    rw [hafter, if_neg hmain, hset, ok_bind]
    dsimp only
    rw [hnew, List.filter_singleton]
    cases decide ((readReturnAddress k w₁).1 ∉ nextLines w die pc ∧
      (mapLookup w.bpLocations (readReturnAddress k w₁).1).isNone) with
    | true =>
      rw [if_pos rfl, hroom.store]
      exact ⟨w', rfl⟩
    | false => exact ⟨w', by rw [cond_false, List.append_nil]; rfl⟩
  · rw [hafter, if_neg hmain, hret, h₂.setTemp_null]
    exact ⟨_, rfl⟩

/-- In the loop of two lines there is one change ahead. -/
theorem plantTempLocations_exact_spin : ∃ as d w₁, PlantsExactly (.executing spin.cpu)
    (spin.stopped spinDwfl 0x401010 0x7000) spinDie "spin" 0x401010 as d w₁ :=
  plantTempLocations_exact ⟨rfl, by decide, rfl⟩ rfl rfl (by decide) (by decide)

end Vdbg
