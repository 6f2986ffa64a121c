import Vdbg.Landing
import Vdbg.Residue

/-!
# Where a planted command comes back

`finish` and `next` plant locations, continue and delete what they planted. Planting keeps the
tracee in the state of its machine (`Tracing.plant`), and what follows runs to the first arrival at a
patched address and comes back if libdwfl answers there (`runPlanted_reaches`). Where else a command
may be said to come back is then a question about the machine and the modules alone
(`Reaches.returns_iff`).
-/

namespace Vdbg

open FaultRun Words

variable {k : Kernel} {syms : Symbols} {M : Cpu} {E : Ends M} {s s' : Regs × Memory}
  {w w' w₁ : World} {ts as bs : List Addr} {a : Addr} {n : ℕ}

/-! ## The end of a continued program -/

/-- The machine executes so many instructions without an end. -/
def Ends.Goes (E : Ends M) (s : Regs × Memory) (n : ℕ) : Prop :=
  ∀ i < n, E.status (M.run i s) = none

theorem Ends.Goes.mono {m : ℕ} (h : E.Goes s n) (hm : m ≤ n) : E.Goes s m :=
  fun i hi => h i (hi.trans_le hm)

variable (syms) in
/-- After `continue` on a program that ends before it arrives at a patch no tracee is there, or a
location was used that went with it. -/
theorem Tracing.continue_outlives (hk : k.Runs M E) (h : Tracing M w s)
    (hnone : ∀ i, 0 < i → i ≤ n → M.armed w.isPatched (M.run i s) = false) (hgoes : E.Goes s n)
    {st : WaitStatus} (hends : E.status (M.run n s) = some st) :
    faultOf (continueExecution k syms w) = some .useAfterFree ∨
      ∃ w', continueExecution k syms w = .ok w' ∧ w'.state ≠ .active := by
  by_cases hdead : n = 0 ∧ M.armed w.isPatched s = true
  · obtain ⟨rfl, harmed⟩ := hdead
    left
    unfold continueExecution
    rw [if_neg (not_not.mpr h.active)]
    exact faultOf_bind_eq (h.stepOver_ends hk.toSteps harmed hends)
  right
  have hpos : M.armed w.isPatched s = true → 0 < n := fun harmed =>
    Nat.pos_of_ne_zero fun hn => hdead ⟨hn, harmed⟩
  obtain ⟨t, hstep, h₁⟩ := h.stepOver syms hk.toSteps fun harmed => hgoes 0 (hpos harmed)
  rw [h.continueExecution_eq hstep]
  set j := if M.armed w.isPatched s then 1 else 0 with hj
  have hle : j ≤ n := by
    split_ifs at hj with harmed
    · rw [hj]
      exact hpos harmed
    · omega
  have hfree : ∀ i ≤ n - j, M.armed w.isPatched (M.run i (M.run j s)) = false := by
    intro i hi
    rw [← Traps.Machine.run_add]
    rcases Nat.eq_zero_or_pos (j + i) with h0 | hpos'
    · obtain ⟨hj0, -⟩ := Nat.add_eq_zero_iff.mp h0
      rw [h0]
      rw [hj] at hj0
      split_ifs at hj0 with harmed
      simpa using harmed
    · exact hnone _ hpos' (by omega)
  -- the resumed process meets no trap, and ends
  have hresume : t.resume k w.pid (.cont 0) =
      { t.logged (.resume w.pid (.cont 0)) with task := .running (.cont 0) } :=
    Tracee.resume_of_inStop h₁.inStop
  have hstate : (t.regs, t.mem) = M.patchState w.isPatched (M.run j s) := h₁.state hk.toSteps
  have hwait : ∃ regs mem, k.wait (t.resume k w.pid (.cont 0)) = .reports st regs mem := by
    rw [hresume]
    refine hk.dies _ (n - j) st rfl (fun i hi => ?_) (fun i hi => ?_) ?_
    · show ¬M.AtTrap (M.run i (t.regs, t.mem))
      have hloaded := h₁.loaded
      rw [hstate, Traps.Machine.run_patchState h.patches hloaded fun m hm => hfree m (by omega),
        Traps.Machine.atTrap_patchState (Traps.Machine.run_loaded hloaded i), hfree i hi]
      exact Bool.false_ne_true
    · show E.status (M.run i (t.regs, t.mem)) = none
      have hsame : E.status (M.run i (M.patchState w.isPatched (M.run j s))) =
        E.status (M.run i (M.run j s)) := h₁.status_run fun m hm => hfree m (by omega)
      rw [hstate, hsame, ← Traps.Machine.run_add]
      exact hgoes _ (by omega)
    · show E.status (M.run (n - j) (t.regs, t.mem)) = some st
      have hsame : E.status (M.run (n - j) (M.patchState w.isPatched (M.run j s))) =
        E.status (M.run (n - j) (M.run j s)) := h₁.status_run fun m hm => hfree m hm
      rw [hstate, hsame, ← Traps.Machine.run_add, Nat.add_sub_cancel' hle]
      exact hends
  obtain ⟨regs, mem, hwait⟩ := hwait
  obtain ⟨ts, hready⟩ := h₁.ready
  obtain ⟨w₂, t₂, hbury⟩ := waitForSignal_buries syms (hready.attached.setTracee _)
    (Tracee.waitpid_of_reports (Tracee.alive_resume.trans h₁.hosted.alive) hwait)
    (E.gone _ st hends)
  exact ⟨_, hbury, nofun⟩

/-- After `continue` on a program that ends before it arrives at a patch no tracee is there. -/
theorem Tracing.continue_ends (hk : k.Runs M E) (h : Tracing M w s)
    (hnone : ∀ i, 0 < i → i ≤ n → M.armed w.isPatched (M.run i s) = false) (hgoes : E.Goes s n)
    {st : WaitStatus} (hends : E.status (M.run n s) = some st)
    (hok : continueExecution k syms w = .ok w') : w'.state ≠ .active := by
  rcases h.continue_outlives syms hk hnone hgoes hends with hdies | ⟨w₁, hok₁, hidle⟩
  · cases hdies.symm.trans (congrArg faultOf hok)
  · obtain rfl := Except.ok.inj (hok₁.symm.trans hok)
    exact hidle

/-! ## Where a result comes back -/

/-- The state of the machine is determined by the one of the tracee. -/
theorem Tracing.state_unique (h : Tracing M w s) (h' : Tracing M w s') : s = s' := by
  refine Prod.ext (h.regs.symm.trans h'.regs) ?_
  funext a
  rcases ha : w.isPatched a with - | -
  · rw [← h.memory.plain a ha, ← h'.memory.plain a ha]
  · obtain ⟨p, loc, -, hp, hpat, rfl⟩ := h.hosted.toMapped.patched_loc ha
    rw [← (h.memory.armed p loc hp hpat).2, ← (h'.memory.armed p loc hp hpat).2]

/-- A call comes back with the tracee exactly at the first state with `G`, after at least one
instruction, unless the program ends before it. It does not abort. -/
structure Returns (M : Cpu) (E : Ends M) (G : Regs × Memory → Prop) (s : Regs × Memory)
    (r : Res World) : Prop where
  arrives : ∀ n, M.First G s n → E.Goes s n → ∃ w', r = .ok w' ∧ Tracing M w' (M.run n s)
  arrived : ∀ w', r = .ok w' → w'.state = .active →
    ∃ n, M.First G s n ∧ E.Goes s n ∧ Tracing M w' (M.run n s)
  survives : faultOf r ≠ some .critical

/-- The source line of an address can be shown. -/
def Shows (syms : Symbols) (d : Dwfl) (a : Addr) : Prop := syms.hasDwarf = true → d.Answers a

/-- The source line of the first state with `G` can be shown. -/
def ShowsFirst (M : Cpu) (E : Ends M) (syms : Symbols) (d : Dwfl) (G : Regs × Memory → Prop)
    (s : Regs × Memory) : Prop :=
  ∀ n, M.First G s n → E.Goes s n → Shows syms d (M.pc (M.run n s).1)

/-- A call runs to the first state with `A`, and comes back if its source line can be shown. -/
structure Reaches (M : Cpu) (E : Ends M) (syms : Symbols) (d : Dwfl) (A : Regs × Memory → Prop)
    (s : Regs × Memory) (r : Res World) : Prop where
  shown : ∀ n, M.First A s n → E.Goes s n → Shows syms d (M.pc (M.run n s).1) →
    ∃ w', r = .ok w' ∧ Tracing M w' (M.run n s)
  aborts : ∀ n, M.First A s n → E.Goes s n → ¬Shows syms d (M.pc (M.run n s).1) →
    faultOf r = some .critical
  nowhere : (∀ n, M.First A s n → ¬E.Goes s n) →
    faultOf r ≠ some .critical ∧ ∀ w', r = .ok w' → w'.state ≠ .active

/-- Where a call that runs to the first state with `A` has come back. -/
theorem Reaches.arrived {d : Dwfl} {A : Regs × Memory → Prop} {r : Res World}
    (h : Reaches M E syms d A s r) (hok : r = .ok w') (hact : w'.state = .active) :
    ∃ n, M.First A s n ∧ E.Goes s n ∧ Tracing M w' (M.run n s) := by
  by_cases hex : ∃ n, M.First A s n ∧ E.Goes s n
  · obtain ⟨n, hfirst, hgoes⟩ := hex
    by_cases hshows : Shows syms d (M.pc (M.run n s).1)
    · obtain ⟨w'', hok', ht⟩ := h.shown n hfirst hgoes hshows
      obtain rfl := Except.ok.inj (hok'.symm.trans hok)
      exact ⟨n, hfirst, hgoes, ht⟩
    · cases (h.aborts n hfirst hgoes hshows).symm.trans (congrArg faultOf hok)
  · push Not at hex
    exact absurd hact ((h.nowhere hex).2 w' hok)

theorem Reaches.returns {d : Dwfl} {A : Regs × Memory → Prop} {r : Res World}
    (h : Reaches M E syms d A s r) (hshows : ShowsFirst M E syms d A s) : Returns M E A s r := by
  have harrives : ∀ n, M.First A s n → E.Goes s n → ∃ w', r = .ok w' ∧ Tracing M w' (M.run n s) :=
    fun n hfirst hgoes => h.shown n hfirst hgoes (hshows n hfirst hgoes)
  refine ⟨harrives, fun w' hok hact => h.arrived hok hact, ?_⟩
  by_cases hex : ∃ n, M.First A s n ∧ E.Goes s n
  · obtain ⟨n, hfirst, hgoes⟩ := hex
    obtain ⟨w', hok, -⟩ := harrives n hfirst hgoes
    rw [hok]
    exact nofun
  · push Not at hex
    exact (h.nowhere hex).1

/-- What comes back at the first state with `A` comes back at the first one with `G` exactly where
the two agree. -/
theorem Returns.iff_agrees {A G : Regs × Memory → Prop} {r : Res World} (h : Returns M E A s r) :
    Returns M E G s r ↔ M.Agrees (E.Goes s) A G s := by
  constructor
  · intro hG i hpos hgoes hfree
    constructor
    · intro hA
      obtain ⟨m, hm, hfirst⟩ := Traps.Machine.exists_first hpos hA
      obtain ⟨w', hok, ht⟩ := h.arrives m hfirst (hgoes.mono hm)
      obtain ⟨n, hfirstG, -, ht'⟩ := hG.arrived w' hok ht.active
      have hthere : G (M.run m s) := by
        rw [ht.state_unique ht']
        exact hfirstG.there
      rcases Nat.lt_or_eq_of_le hm with hlt | rfl
      · exact absurd hthere (hfree m hfirst.pos hlt)
      · exact hthere
    · intro hthere
      obtain ⟨w', hok, ht⟩ := hG.arrives i ⟨hpos, hthere, hfree⟩ hgoes
      obtain ⟨n, hfirst, -, ht'⟩ := h.arrived w' hok ht.active
      rw [ht.state_unique ht']
      exact hfirst.there
  · intro hagrees
    have hmono : ∀ i j, i ≤ j → E.Goes s j → E.Goes s i := fun _ _ hij hj => hj.mono hij
    refine ⟨fun n hfirst hgoes => ?_, fun w' hok hact => ?_, h.survives⟩
    · exact h.arrives n ((hagrees.first_iff hmono hgoes).mpr hfirst) hgoes
    · obtain ⟨n, hfirst, hgoes, ht⟩ := h.arrived w' hok hact
      exact ⟨n, (hagrees.first_iff hmono hgoes).mp hfirst, hgoes, ht⟩

/-- What runs to the first state with `A` comes back at the first one with `G` exactly where the two
agree and the source line of that state can be shown. -/
theorem Reaches.returns_iff {d : Dwfl} {A G : Regs × Memory → Prop} {r : Res World}
    (h : Reaches M E syms d A s r) :
    Returns M E G s r ↔ M.Agrees (E.Goes s) A G s ∧ ShowsFirst M E syms d G s := by
  have hmono : ∀ i j, i ≤ j → E.Goes s j → E.Goes s i := fun _ _ hij hj => hj.mono hij
  constructor
  · intro hG
    have hshows : ShowsFirst M E syms d A s := fun n hfirst hgoes => by
      by_contra hnot
      exact hG.survives (h.aborts n hfirst hgoes hnot)
    have hagrees := (h.returns hshows).iff_agrees.mp hG
    exact ⟨hagrees, fun n hfirst hgoes =>
      hshows n ((hagrees.first_iff hmono hgoes).mpr hfirst) hgoes⟩
  · rintro ⟨hagrees, hshows⟩
    refine (h.returns fun n hfirst hgoes => ?_).iff_agrees.mpr hagrees
    exact hshows n ((hagrees.first_iff hmono hgoes).mp hfirst) hgoes

/-! ## Planting and deleting -/

/-- Locations were asked for at `as`: they are there, and armed where there was none before. -/
structure Asked (w w' : World) (as : List Addr) : Prop where
  pid : w'.pid = w.pid
  dwfl : w'.dwfl = w.dwfl
  patched : ∀ x, w'.isPatched x =
    (w.isPatched x || (decide (x ∈ as) && (mapLookup w.bpLocations x).isNone))
  registered : ∀ x,
    (mapLookup w'.bpLocations x).isSome = ((mapLookup w.bpLocations x).isSome || decide (x ∈ as))

theorem Asked.refl (w : World) : Asked w w [] :=
  ⟨rfl, rfl, fun x => by simp, fun x => by simp⟩

theorem Asked.trans (h : Asked w w₁ as) (h' : Asked w₁ w' bs) : Asked w w' (as ++ bs) := by
  refine ⟨h'.pid.trans h.pid, h'.dwfl.trans h.dwfl, fun x => ?_, fun x => ?_⟩
  · have hreg := h.registered x
    rw [h'.patched, h.patched]
    rcases hold : mapLookup w.bpLocations x with - | p
    · rw [hold] at hreg
      rcases hnew : mapLookup w₁.bpLocations x with - | q
      · rw [hnew] at hreg
        have hnot : x ∉ as := by simpa using hreg
        simp [hnot]
      · rw [hnew] at hreg
        have hmem : x ∈ as := by simpa using hreg
        simp [hmem]
    · rw [hold] at hreg
      rcases hnew : mapLookup w₁.bpLocations x with - | q
      · rw [hnew] at hreg
        simp at hreg
      · simp
  · rw [h'.registered, h.registered, Bool.or_assoc]
    congr 1
    simp

/-- A new entry of the table, with an armed location. -/
theorem Asked.insert {p : LocPtr} {loc : BpLocation} (hpid : w'.pid = w.pid)
    (hdwfl : w'.dwfl = w.dwfl)
    (hlookup : ∀ x, mapLookup w'.bpLocations x =
      if x = a then some p else mapLookup w.bpLocations x)
    (hloc : w'.locs p = some loc)
    (hothers : ∀ x q, mapLookup w.bpLocations x = some q → w'.locs q = w.locs q)
    (hnone : mapLookup w.bpLocations a = none) (hpatched : loc.patched = true) :
    Asked w w' [a] := by
  refine ⟨hpid, hdwfl, fun x => ?_, fun x => ?_⟩
  · by_cases hx : x = a
    · rw [hx, World.isPatched_eq ((hlookup a).trans (if_pos rfl)) hloc, hpatched, hnone]
      simp
    · rw [World.isPatched_congr ((hlookup x).trans (if_neg hx)) (hothers x)]
      simp [hx]
  · rw [hlookup]
    by_cases hx : x = a <;> simp [hx]

variable (k) in
/-- A request for a location only accesses the memory of the tracee. -/
theorem Ready.asks (h : Ready w ts) (hact : w.state = .active) (hpid : w.pid ≠ 0) (ha : a ≠ 0) :
    ∃ planted w', setTempBpLocation k w a = .ok (planted, w') ∧ Asked w w' [a] ∧
      w.tracee.Accessed w'.tracee ∧ w'.tracee.regs = w.tracee.regs := by
  rcases hp : mapLookup w.bpLocations a with - | p
  · obtain ⟨ht, hok, hlookup⟩ := setTempBpLocation_absent (k := k) h hact hpid ha hp
    refine ⟨true, _, hok, Asked.insert rfl rfl hlookup (Function.update_self ..) ?_ hp
      (arm_patched k w.tracee (w.tempLoc a)), accessed_arm _ _, arm_regs ..⟩
    intro x q hq
    obtain ⟨l, hl, -⟩ := h.attached.stored x q hq
    exact Function.update_of_ne (h.registry.locFresh q (by rw [hl]; rfl)).ne _ _
  · have hok := setTempBpLocation_registered (k := k) h hact hpid ha (by rw [hp]; rfl)
    refine ⟨false, _, hok, ⟨rfl, rfl, fun x => ?_, fun x => ?_⟩,
      (accessed_arm _ _).trans (accessed_disarm _ _), (disarm_regs ..).trans (arm_regs ..)⟩
    · have hsame : World.isPatched { w with
          nextPtr := w.nextPtr + 1
          tracee := (disarm k (arm k w.tracee (w.tempLoc a)).2
            (arm k w.tracee (w.tempLoc a)).1).2 } x = w.isPatched x :=
        World.isPatched_congr rfl fun _ _ => rfl
      rw [hsame]
      by_cases hx : x = a <;> simp [hx, hp]
    · show (mapLookup w.bpLocations x).isSome = _
      by_cases hx : x = a <;> simp [hx, hp]

/-- A location on an instruction is asked for, with the tracee where it is. -/
theorem Tracing.plant (hk : k.Accessible) (h : Tracing M w₁ s) (hveiled : Veiled w w₁ ts)
    (hpid : w₁.pid ≠ 0) (ha : a ≠ 0) (hstart : M.starts a) :
    ∃ planted w', setTempBpLocation k w₁ a = .ok (planted, w') ∧ Tracing M w' s ∧
      Asked w₁ w' [a] ∧ Veiled w w' (if planted then ts ++ [a] else ts) := by
  obtain ⟨planted, w', hok, hasked, haccessed, hregs⟩ := hveiled.ready.asks k h.active hpid ha
  obtain ⟨hhosted, htransparent⟩ := setTempBpLocation_transparent hk h.hosted h.memory hok
  have hveiled' := hveiled.plant hok
  have hlife := setTemp_life hok
  refine ⟨planted, w', hok, ⟨⟨_, hveiled'.ready⟩, ?_, ?_, hhosted, fun x hx => ?_,
    haccessed.task.trans h.stopped, hregs.trans h.regs, htransparent, h.loaded⟩, hasked, hveiled'⟩
  · exact (congrArg Life.state hlife).trans h.active
  · exact (congrArg Life.pendingSignal hlife).trans h.signal
  · rw [hasked.patched, Bool.or_eq_true] at hx
    rcases hx with hx | hx
    · exact h.patches x hx
    · rw [Bool.and_eq_true, decide_eq_true_eq, List.mem_singleton] at hx
      rw [hx.1]
      exact hstart

/-- A temporary location is deleted, with the tracee where it is. -/
theorem Tracing.unplant (hk : k.Accessible) (h : Tracing M w₁ s) (hveiled : Veiled w w₁ (a :: ts))
    (hok : unsetTempBpLocation k w₁ a = .ok w') : Tracing M w' s := by
  obtain ⟨hhosted, htransparent⟩ := unsetTempBpLocation_transparent hk h.hosted h.memory hok
  have hveiled' := hveiled.unplant hok
  obtain ⟨p, loc, ht, hp, hloc, hrun, -, heq, hlookup⟩ := hveiled.ready.unplant_eq k h.active
  obtain rfl := Except.ok.inj (heq.symm.trans hok)
  have halive : w₁.tracee.alive loc.pid = true := h.hosted.alive_of_loc hloc
  have hregs : (disarm k w₁.tracee loc).2.regs = w₁.tracee.regs := disarm_regs k w₁.tracee loc
  have htask : (disarm k w₁.tracee loc).2.task = w₁.tracee.task :=
    (accessed_disarm w₁.tracee loc).task
  refine ⟨⟨_, hveiled'.ready⟩, h.active, h.signal, hhosted, fun x hx => ?_, htask.trans h.stopped,
    hregs.trans h.regs, htransparent, h.loaded⟩
  refine h.patches x ?_
  by_cases hxa : x = a
  · rw [World.isPatched_absent ((hlookup x).trans (if_pos hxa))] at hx
    cases hx
  · rw [← hx]
    refine (World.isPatched_congr ((hlookup x).trans (if_neg hxa)) fun q hq => ?_).symm
    refine Function.update_of_ne ?_ _ _
    rintro rfl
    obtain ⟨l, hl, hla⟩ := hveiled.ready.attached.stored x _ hq
    exact hxa (by rw [← hla, Option.some.inj (hl.symm.trans hloc), hrun])

/-- All that was planted is deleted. -/
theorem Tracing.unplantAll (hk : k.Accessible) (h : Tracing M w₁ s) (hveiled : Veiled w w₁ ts) :
    ∃ w', ts.foldlM (unsetTempBpLocation k) w₁ = .ok w' ∧ Tracing M w' s := by
  induction ts generalizing w₁ with
  | nil => exact ⟨w₁, rfl, h⟩
  | cons a ts ih =>
    obtain ⟨p, loc, ht, -, -, -, -, hunset, -⟩ := hveiled.ready.unplant_eq k h.active
    obtain ⟨w', hok, ht'⟩ := ih (h.unplant hk hveiled hunset) (hveiled.unplant hunset)
    exact ⟨w', foldlM_cons_eq_ok.mpr ⟨_, hunset, hok⟩, ht'⟩

/-! ## The run in between -/

variable (syms) in
/-- A command that has planted its locations runs to the first patched address. -/
theorem runPlanted_reaches (hk : k.Runs M E) (hveiled : Veiled w w₁ ts) (h : Tracing M w₁ s) :
    Reaches M E syms w₁.dwfl (fun s => M.armed w₁.isPatched s = true) s
      (runPlanted k syms w₁ ts) := by
  refine ⟨fun n hfirst hgoes hshows => ?_, fun n hfirst hgoes hnot => ?_, fun hnone => ?_⟩
  · obtain ⟨t, out, hcont, h₂⟩ := h.continue_stops syms hk (Traps.Machine.first_armed_iff.mp hfirst)
      hgoes hshows
    rw [runPlanted_eq hcont]
    exact h₂.unplantAll hk.accessible (hveiled.there hcont h₂.active)
  · obtain ⟨t, out, -, hcont⟩ := h.continue_reports syms hk
      (Traps.Machine.first_armed_iff.mp hfirst) hgoes
    refine faultOf_bind_eq ?_
    rw [hcont]
    exact printSourceAtCurrentPc_critical (w := { w₁ with tracee := t, out := out }) hnot
  by_cases hends : ∃ j, E.status (M.run j s) ≠ none
  · classical
    -- the program ends before it arrives anywhere
    have hgoes : E.Goes s (Nat.find hends) := fun i hi => not_not.mp (Nat.find_min hends hi)
    obtain ⟨st, hst⟩ := Option.ne_none_iff_exists'.mp (Nat.find_spec hends)
    have houtlives := h.continue_outlives syms hk (fun i hpos hi => by
      by_contra harmed
      obtain ⟨m, hm, hfirst⟩ := Traps.Machine.exists_first
        (Q := fun s => M.armed w₁.isPatched s = true) hpos (by simpa using harmed)
      exact hnone m hfirst (hgoes.mono (hm.trans hi))) hgoes hst
    rcases houtlives with hdies | ⟨w₂, hcont, hidle⟩
    · have hfault : faultOf (runPlanted k syms w₁ ts) = some .useAfterFree := faultOf_bind_eq hdies
      refine ⟨by rw [hfault]; exact nofun, fun w' hok => ?_⟩
      cases hfault.symm.trans (congrArg faultOf hok)
    · rw [runPlanted_eq hcont]
      cases ts with
      | nil =>
        refine ⟨nofun, fun w' hok => ?_⟩
        cases hok
        exact hidle
      | cons a ts =>
        have hunset : unsetTempBpLocation k w₂ a = .error (.assertion, w₂) := by
          unfold unsetTempBpLocation
          rw [if_pos hidle]
          rfl
        rw [List.foldlM_cons, hunset]
        exact ⟨nofun, nofun⟩
  · push Not at hends
    obtain ⟨w₃, hnever⟩ := h.continue_never syms hk
      (fun n hstop => hnone n (Traps.Machine.first_armed_iff.mpr hstop) fun i _ => hends i) hends
    have hblocked : runPlanted k syms w₁ ts = .error (.blocked, w₃) := by
      unfold runPlanted
      rw [hnever]
      rfl
    rw [hblocked]
    exact ⟨nofun, nofun⟩

end Vdbg
