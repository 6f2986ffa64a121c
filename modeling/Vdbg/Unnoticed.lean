import Vdbg.NextLine
import Vdbg.UserWrites

/-!
# Debugging goes unnoticed

A program that is debugged with breakpoints on its instructions runs as it would alone. Whatever the
user sets, deletes, steps and continues, at every prompt the tracee is in the state the program has
after some number of instructions, but for the patches, or the program has ended
(`session_unnoticed`). The commands on breakpoints leave the state of the program where it is
(`Rests`), and the others execute instructions of it.
-/

namespace Vdbg

open FaultRun Words

variable {k : Kernel} {syms : Symbols} {M : Cpu} {E : Ends M} {s s' : Regs × Memory}
  {w w' w₁ : World} {ts : List Addr} {a : Addr} {b : BpPtr} {p : LocPtr} {loc : BpLocation} {n : ℕ}

/-! ## Edits -/

/-- The tracee has the registers and, but for the patches, the memory of a state. -/
structure Rests (s : Regs × Memory) (w : World) : Prop where
  hosted : Hosted w
  memory : Transparent w s.2
  regs : w.tracee.regs = s.1

/-- Breakpoints, the pending list and the map of ids do not matter. -/
theorem Rests.congr (h : Rests s w) (hlocs : w'.locs = w.locs)
    (htable : w'.bpLocations = w.bpLocations) (hpid : w'.pid = w.pid)
    (hnext : w.nextPtr ≤ w'.nextPtr) (htracee : w'.tracee = w.tracee) : Rests s w' := by
  refine ⟨h.hosted.congr hlocs htable hpid hnext (by rw [htracee]; exact h.hosted.alive),
    h.memory.congr hlocs htable (by rw [htracee]), by rw [htracee]; exact h.regs⟩

theorem Rests.locEnable (hk : k.Accessible) (h : Rests s w) (hok : locEnable k w p = .ok w') :
    Rests s w' := by
  obtain ⟨hhosted, hmemory⟩ := locEnable_transparent hk h.hosted h.memory hok
  refine ⟨hhosted, hmemory, ?_⟩
  obtain ⟨loc, hp, -⟩ := bind_eq_ok.mp hok
  rw [locEnable_eq (World.derefLoc_eq_ok.mp hp)] at hok
  cases hok
  exact (arm_regs k w.tracee loc).trans h.regs

theorem Rests.locDisable (hk : k.Accessible) (h : Rests s w) (hok : locDisable k w p = .ok w') :
    Rests s w' := by
  obtain ⟨hhosted, hmemory⟩ := locDisable_transparent hk h.hosted h.memory hok
  refine ⟨hhosted, hmemory, ?_⟩
  obtain ⟨loc, hp, -⟩ := bind_eq_ok.mp hok
  rw [locDisable_eq (World.derefLoc_eq_ok.mp hp)] at hok
  cases hok
  exact (disarm_regs k w.tracee loc).trans h.regs

/-- The list of a location changes. -/
theorem Rests.setList (h : Rests s w) (hp : w.locs p = some loc) (bs : List BpPtr) :
    Rests s (w.setLoc p { loc with bpList := bs }) := by
  have hmapped := h.hosted.toMapped
  refine ⟨h.hosted.setLoc (t := w.tracee) hp rfl rfl h.hosted.alive,
    h.memory.setLoc (t := w.tracee) hmapped hp rfl (Function.update_eq_self _ _).symm ?_, h.regs⟩
  split_ifs with hpat
  · exact h.memory.armed p loc hp hpat
  · exact h.memory.plain _ ((hmapped.isPatched_loc hp).trans (by simpa using hpat))

theorem Rests.deleteLocation (hk : k.Accessible) (h : Rests s w)
    (hok : deleteLocation k w a = .ok w') : Rests s w' := by
  obtain ⟨hhosted, hmemory⟩ := deleteLocation_transparent hk h.hosted h.memory hok
  refine ⟨hhosted, hmemory, ?_⟩
  rcases hp : mapLookup w.bpLocations a with - | p
  · rw [deleteLocation_absent hp] at hok
    cases hok
    exact h.regs
  · obtain ⟨table, htable⟩ := Option.isSome_iff_exists.mp h.hosted.present
    unfold Vdbg.deleteLocation freeLocs at hok
    rw [htable, mapDelete_present (h.hosted.cleans table htable) (htable ▸ hp)] at hok
    obtain ⟨w₁, hfree, hok⟩ := foldlM_cons_eq_ok.mp hok
    cases hok
    obtain ⟨loc, -, hw'⟩ := locFree_ok hfree
    rw [hw']
    exact (disarm_regs k w.tracee loc).trans h.regs

theorem Rests.createLocation (hk : k.Accessible) (h : Rests s w)
    (hok : createLocation k w b a = .ok w') : Rests s w' := by
  obtain ⟨hhosted, hmemory⟩ := createLocation_transparent hk h.hosted h.memory hok
  refine ⟨hhosted, hmemory, ?_⟩
  unfold Vdbg.createLocation at hok
  split at hok
  · cases hok
    exact h.regs
  · obtain ⟨⟨p, w₁⟩, hinit, hok⟩ := bind_eq_ok.mp hok
    obtain ⟨hpid, ha, bp, hb⟩ := locInit_user_ok hinit
    rw [locInit_user_eq hpid ha hb] at hinit
    cases hinit
    cases hok
    refine Eq.trans ?_ h.regs
    show (if bp.enable then arm k w.tracee _ else _).2.regs = w.tracee.regs
    split_ifs
    · exact arm_regs ..
    · rfl

theorem Rests.locAppend (hk : k.Accessible) (h : Rests s w)
    (hok : locAppendBreakpointToList k w p b = .ok w') : Rests s w' := by
  obtain ⟨bp, -, hok⟩ := bind_eq_ok.mp hok
  obtain ⟨loc, hp, hok⟩ := bind_eq_ok.mp hok
  obtain ⟨list, -, hok⟩ := bind_eq_ok.mp hok
  have hp' : (w.setBp b { bp with location := some p }).locs p = some loc :=
    World.derefLoc_eq_ok.mp hp
  have hset : Rests s (w.setBp b { bp with location := some p }) :=
    h.congr rfl rfl rfl le_rfl rfl
  dsimp only at hok
  split_ifs at hok
  · cases hok
    exact hset
  · exact (hset.setList hp' _).locEnable hk hok
  · exact (hset.setList hp' _).locDisable hk hok
  · cases hok
    exact hset.setList hp' _

theorem Rests.bpEnable (hk : k.Accessible) (h : Rests s w) (hok : bpEnable k w b = .ok w') :
    Rests s w' := by
  obtain ⟨bp, -, hok⟩ := bind_eq_ok.mp hok
  have hset : Rests s (w.setBp b { bp with enable := true }) := h.congr rfl rfl rfl le_rfl rfl
  dsimp only at hok
  split at hok
  · cases hok
    exact hset
  · obtain ⟨loc, -, hok⟩ := bind_eq_ok.mp hok
    obtain ⟨list, -, hok⟩ := bind_eq_ok.mp hok
    obtain ⟨flags, -, hok⟩ := bind_eq_ok.mp hok
    split_ifs at hok
    · exact hset.locEnable hk hok
    · cases hok
      exact hset

theorem Rests.bpDisable (hk : k.Accessible) (h : Rests s w) (hok : bpDisable k w b = .ok w') :
    Rests s w' := by
  obtain ⟨bp, -, hok⟩ := bind_eq_ok.mp hok
  have hset : Rests s (w.setBp b { bp with enable := false }) := h.congr rfl rfl rfl le_rfl rfl
  dsimp only at hok
  split at hok
  · cases hok
    exact hset
  · obtain ⟨loc, -, hok⟩ := bind_eq_ok.mp hok
    obtain ⟨list, -, hok⟩ := bind_eq_ok.mp hok
    obtain ⟨flags, -, hok⟩ := bind_eq_ok.mp hok
    split_ifs at hok
    · cases hok
      exact hset
    · exact hset.locDisable hk hok

theorem Rests.bpFree (hk : k.Accessible) (h : Rests s w) (hok : bpFree k w b = .ok w') :
    Rests s w' := by
  obtain ⟨bp, -, hok⟩ := bind_eq_ok.mp hok
  split at hok
  · cases hok
    exact h.congr rfl rfl rfl le_rfl rfl
  · obtain ⟨loc, hp, hok⟩ := bind_eq_ok.mp hok
    have hset := h.setList (World.derefLoc_eq_ok.mp hp) (loc.bpList.erase b)
    dsimp only at hok
    split_ifs at hok
    · obtain ⟨w₁, hdisable, hok⟩ := bind_eq_ok.mp hok
      cases hok
      exact (hset.locDisable hk hdisable).congr rfl rfl rfl le_rfl rfl
    · cases hok
      exact hset.congr rfl rfl rfl le_rfl rfl

theorem Rests.deleteBreakpoint (hk : k.Accessible) (h : Rests s w)
    (hok : deleteBreakpoint k w b = .ok w') : Rests s w' := by
  obtain ⟨bp, -, hok⟩ := bind_eq_ok.mp hok
  exact FaultRun.invariant (P := Rests s) (s := { w with breakpoints := (mapDelete
    w.breakpoints bp.id).2 }) (fun _ _ _ h => h.bpFree hk) (h.congr rfl rfl rfl le_rfl rfl) hok

theorem Rests.removeBreakpoint (hk : k.Accessible) (h : Rests s w)
    (hok : removeBreakpoint k w b = .ok w') : Rests s w' :=
  Rests.deleteBreakpoint (w := deleteBreakpointFromPending w b) hk
    (h.congr rfl rfl rfl le_rfl rfl) hok

theorem Rests.removeOne (hk : k.Accessible) (h : Rests s w) (hok : removeOne k w b = .ok w') :
    Rests s w' := by
  obtain ⟨bp, -, hok⟩ := bind_eq_ok.mp hok
  obtain ⟨w₁, hdelete, hok⟩ := bind_eq_ok.mp hok
  have h₁ : Rests s w₁ := Rests.deleteLocation (w := deleteBreakpointFromPending w b) hk
    (h.congr rfl rfl rfl le_rfl rfl) hdelete
  exact h₁.deleteBreakpoint hk hok

theorem Rests.setBreakpointOfKind {kind : BpKind} (hk : k.Accessible) (h : Rests s w)
    (hok : setBreakpointOfKind k w kind a = .ok w') : Rests s w' := by
  rw [setBreakpointOfKind_eq (setBreakpointOfKind_counter hok)] at hok
  have hadopt : Rests s (w.adopt kind a) := h.congr rfl rfl rfl (Nat.le_succ _) rfl
  unfold addAndSetBpForRunningTracee at hok
  dsimp only at hok
  split_ifs at hok
  · cases hok
    exact hadopt
  · rcases hp : mapLookup (w.adopt kind a).bpLocations (a + (w.adopt kind a).loadAddress) with - | p
    · rw [hp] at hok
      refine hadopt.createLocation hk (b := w.nextPtr) (a := a + (w.adopt kind a).loadAddress) ?_
      unfold Vdbg.createLocation
      rw [hp]
      exact hok
    · rw [hp] at hok
      exact hadopt.locAppend hk hok

/-! ## Prompts -/

/-- Every breakpoint of the user is on an instruction. -/
def World.OnCode (M : Cpu) (w : World) : Prop := ∀ r ∈ w.rows, M.starts (r.addr + w.loadAddress)

/-- The debugger is at a prompt, and the tracee in a state of the machine. -/
structure Paused (M : Cpu) (w : World) (s : Regs × Memory) : Prop extends Tracing M w s where
  prompt : Ready w []
  onCode : w.OnCode M

theorem World.OnCode.congr (h : w.OnCode M) (hrows : w'.rows = w.rows)
    (hload : w'.loadAddress = w.loadAddress) : w'.OnCode M := by
  intro r hr
  rw [hload]
  exact h r (hrows ▸ hr)

/-- A breakpoint that is set is on an instruction, the other edits move none. -/
theorem World.OnCode.edit {e : Edit (BitVec 64) Addr} (h : w.OnCode M) (hedit : Edited w w' e)
    (hset : ∀ id a, e = .set id a → M.starts (a + w.loadAddress)) : w'.OnCode M := by
  intro r hr
  rw [hedit.rows] at hr
  rw [hedit.loadAddress]
  cases e with
  | set id a =>
    rcases List.mem_append.mp hr with hr | hr
    · exact h r hr
    · rw [List.mem_singleton.mp hr]
      exact hset id a rfl
  | enable id | disable id =>
    obtain ⟨q, hq, rfl⟩ := List.mem_map.mp hr
    split_ifs
    · exact h q hq
    · exact h q hq
  | delete id => exact h r (List.mem_filter.mp hr).1

/-- At a prompt a patch is at a breakpoint. -/
theorem Ready.patch_onCode (h : Ready w []) (hcode : w.OnCode M) (ha : w.isPatched a = true) :
    M.starts a := by
  obtain ⟨p, loc, -, hp, hpat, rfl⟩ := h.attached.toMapped.patched_loc ha
  obtain ⟨b, hb⟩ := List.exists_mem_of_ne_nil _
    (h.attached.armed p loc hp (h.planted.user hp) hpat)
  obtain ⟨hatt, htarget⟩ := h.attached.listed hp hb
  obtain ⟨bp, hbp, hrun⟩ := Option.map_eq_some_iff.mp htarget
  rw [← hrun]
  exact hcode _ (h.registry.mem_rows hbp)

theorem Paused.rests (h : Paused M w s) : Rests s w := ⟨h.hosted, h.memory, h.regs⟩

/-- A prompt that is left by an edit leads to a prompt, with the program where it was. -/
theorem Paused.of_rests (h : Paused M w s) (hprompt : Ready w' []) (hrests : Rests s w')
    (hlife : w'.life = w.life) (hcode : w'.OnCode M) : Paused M w' s := by
  refine ⟨⟨⟨[], hprompt⟩, ?_, ?_, hrests.hosted, fun a => hprompt.patch_onCode hcode, ?_,
    hrests.regs, hrests.memory, h.loaded⟩, hprompt, hcode⟩
  · exact (congrArg Life.state hlife).trans h.active
  · exact (congrArg Life.pendingSignal hlife).trans h.signal
  · exact (congrArg Life.task hlife).trans h.stopped

/-- One edit of a breakpoint. -/
theorem Paused.edit {e : Edit (BitVec 64) Addr} (h : Paused M w s) (hedit : Edited w w' e)
    (hrests : Rests s w') (hlife : w'.life = w.life)
    (hset : ∀ id a, e = .set id a → M.starts (a + w.loadAddress)) : Paused M w' s :=
  h.of_rests hedit.ready hrests hlife (h.onCode.edit hedit hset)

/-! ## Commands on breakpoints -/

/-- The names of functions and the lines of files are those of instructions. -/
structure Symbols.OnCode (syms : Symbols) (M : Cpu) (load : Addr) : Prop where
  functions : ∀ f ∈ syms.functions, M.starts (f.2 + load)
  lines : ∀ file line name a, getAddrFromLineno syms file line = some (name, a) →
    M.starts (a + load)

/-- The file a line argument stands for. -/
theorem lineTarget_file {file : Option String} {line : ℤ} {name : String}
    (h : lineTarget k syms w file line = some (name, a)) :
    ∃ file', getAddrFromLineno syms file' line = some (name, a) := by
  unfold lineTarget at h
  split_ifs at h
  · obtain ⟨cu, -, h⟩ := Option.bind_eq_some_iff.mp h
    exact ⟨_, h⟩
  · exact ⟨_, h⟩

/-- The state keeps to the machine state, and to the place the program is loaded at. -/
structure StaysPaused (M : Cpu) (s : Regs × Memory) (load : Addr) (w : World) : Prop where
  paused : Paused M w s
  load : w.loadAddress = load

variable {load : Addr}

theorem StaysPaused.setBreakpointOfKind {kind : BpKind} (hk : k.Accessible) (h : StaysPaused M s load w)
    (ha : M.starts (a + load)) (hok : setBreakpointOfKind k w kind a = .ok w') :
    StaysPaused M s load w' := by
  have hlife := setBreakpointOfKind_life hok
  refine ⟨h.paused.edit (setBreakpointOfKind_edited h.paused.prompt hok)
    (h.paused.rests.setBreakpointOfKind hk hok) hlife fun id a' he => ?_,
    (congrArg Life.loadAddress hlife).trans h.load⟩
  cases he
  rw [h.load]
  exact ha

theorem StaysPaused.cmdBreak {args : List BreakArg} (hk : k.Accessible) (hsyms : syms.OnCode M load)
    (hargs : ∀ a, .addr a ∈ args → M.starts (a + load)) (h : StaysPaused M s load w)
    (hok : cmdBreak k syms w args = .ok w') : StaysPaused M s load w' := by
  induction args generalizing w with
  | nil =>
    cases hok
    exact h
  | cons arg args ih =>
    have hrest : ∀ a, .addr a ∈ args → M.starts (a + load) := fun a ha =>
      hargs a (List.mem_cons_of_mem _ ha)
    cases arg with
    | addr a =>
      obtain ⟨w₁, hset, hok⟩ := bind_eq_ok.mp hok
      rw [setBreakpointAtAddr_eq] at hset
      exact ih hrest (h.setBreakpointOfKind hk (hargs a List.mem_cons_self) hset) hok
    | line file line =>
      unfold Vdbg.cmdBreak at hok
      split_ifs at hok
      · obtain ⟨w₁, hset, hok⟩ := bind_eq_ok.mp hok
        refine ih hrest ?_ hok
        rcases setBreakpointAtLineno_cases hset with ⟨-, rfl⟩ | ⟨name, a, htarget, hset⟩
        · exact h
        · obtain ⟨file', hfile⟩ := lineTarget_file htarget
          exact h.setBreakpointOfKind hk (hsyms.lines _ _ _ _ hfile) hset
      · cases hok
        exact h
    | symbol name =>
      obtain ⟨w₁, hset, hok⟩ := bind_eq_ok.mp hok
      refine ih hrest ?_ hok
      refine Along.invariant (C := fun _ f => M.starts (f.2 + load))
        (fun _ _ _ h hf hok => h.setBreakpointOfKind hk hf hok)
        (.of_forall (fun f hf _ => hsyms.functions f (List.mem_filter.mp hf).1) w) h hset

theorem StaysPaused.bpEnable (hk : k.Accessible) (h : StaysPaused M s load w)
    (hok : bpEnable k w b = .ok w') : StaysPaused M s load w' := by
  obtain ⟨bp, -, -, hedit⟩ := bpEnable_edited h.paused.prompt hok
  have hlife := bpEnable_life hok
  exact ⟨h.paused.edit hedit (h.paused.rests.bpEnable hk hok) hlife fun _ _ he => (by cases he),
    (congrArg Life.loadAddress hlife).trans h.load⟩

theorem StaysPaused.bpDisable (hk : k.Accessible) (h : StaysPaused M s load w)
    (hok : bpDisable k w b = .ok w') : StaysPaused M s load w' := by
  obtain ⟨bp, -, -, hedit⟩ := bpDisable_edited h.paused.prompt hok
  have hlife := bpDisable_life hok
  exact ⟨h.paused.edit hedit (h.paused.rests.bpDisable hk hok) hlife fun _ _ he => (by cases he),
    (congrArg Life.loadAddress hlife).trans h.load⟩

theorem StaysPaused.removeBreakpoint (hk : k.Accessible) (h : StaysPaused M s load w)
    (hok : removeBreakpoint k w b = .ok w') : StaysPaused M s load w' := by
  obtain ⟨bp, -, hedit⟩ := removeBreakpoint_edited h.paused.prompt hok
  have hlife := removeBreakpoint_life hok
  exact ⟨h.paused.edit hedit (h.paused.rests.removeBreakpoint hk hok) hlife
    fun _ _ he => (by cases he), (congrArg Life.loadAddress hlife).trans h.load⟩

theorem StaysPaused.removeAllBreakpoints (hk : k.Accessible) (h : StaysPaused M s load w)
    (hok : removeAllBreakpoints k w = .ok w') : StaysPaused M s load w' := by
  obtain ⟨hready, hnil, -⟩ := removeAllBreakpoints_ready h.paused.prompt hok
  have hlife : w'.life = w.life := forAll_life (fun _ _ _ => removeOne_life) hok
  have hrests : Rests s w' :=
    FaultRun.invariant (P := Rests s) (fun _ _ _ h => h.removeOne hk) h.paused.rests hok
  refine ⟨h.paused.of_rests hready hrests hlife fun r hr => ?_,
    (congrArg Life.loadAddress hlife).trans h.load⟩
  rw [World.rows, hnil] at hr
  cases hr

/-- A command on the breakpoints its arguments name. -/
theorem StaysPaused.forArgs {act : World → BpPtr → Res World} {args : List BpArg}
    (hact : ∀ {w b w'}, StaysPaused M s load w → act w b = .ok w' → StaysPaused M s load w')
    (h : StaysPaused M s load w) (hok : forArgs syms act w args = .ok w') : StaysPaused M s load w' := by
  refine FaultRun.invariant (P := StaysPaused M s load) (fun w arg w' h hok => ?_) h hok
  obtain ⟨found, -, hok⟩ := bind_eq_ok.mp hok
  split at hok
  · cases hok
    exact h
  · exact hact h hok

/-- `break`, `delete`, `enable` and `disable`. -/
def Command.edits : Command → Bool
  | .break _ | .delete _ | .enable _ | .disable _ => true
  | _ => false

/-- The addresses the user types are those of instructions. -/
def Command.TypesCode (M : Cpu) (load : Addr) : Command → Prop
  | .break args => ∀ a, .addr a ∈ args → M.starts (a + load)
  | _ => True

/-- A command on breakpoints leaves the program where it is. -/
theorem StaysPaused.handler {c : Command} (hk : k.Accessible) (hsyms : syms.OnCode M load)
    (hc : c.edits = true) (hcode : c.TypesCode M load) (h : StaysPaused M s load w)
    (hok : c.handler k syms w = .ok w') : StaysPaused M s load w' := by
  cases c with
  | «break» args => exact h.cmdBreak hk hsyms hcode hok
  | delete args =>
    change cmdDelete k syms w args = .ok w' at hok
    unfold cmdDelete at hok
    split_ifs at hok
    · exact h.removeAllBreakpoints hk hok
    · exact h.forArgs (fun h => h.removeBreakpoint hk) hok
  | enable args =>
    change cmdEnable k syms w args = .ok w' at hok
    unfold cmdEnable at hok
    split_ifs at hok
    · exact FaultRun.invariant (P := StaysPaused M s load) (fun _ _ _ h => h.bpEnable hk) h hok
    · exact h.forArgs (fun h => h.bpEnable hk) hok
  | disable args =>
    change cmdDisable k syms w args = .ok w' at hok
    unfold cmdDisable at hok
    split_ifs at hok
    · exact FaultRun.invariant (P := StaysPaused M s load) (fun _ _ _ h => h.bpDisable hk) h hok
    · exact h.forArgs (fun h => h.bpDisable hk) hok
  | _ => cases hc

/-! ## Where the program is -/

/-- The program ends after some number of instructions. -/
def Ends.Ended (E : Ends M) (s : Regs × Memory) : Prop :=
  ∃ n st, E.Goes s n ∧ E.status (M.run n s) = some st

/-- The tracee is in the state after some number of instructions, where it was loaded, or it is not
there and the program ends. -/
def Lands (E : Ends M) (s : Regs × Memory) (load : Addr) (w : World) : Prop :=
  (∃ n, E.Goes s n ∧ Tracing M w (M.run n s) ∧ w.loadAddress = load) ∨
    w.state ≠ .active ∧ E.Ended s

theorem Ends.Goes.add {m : ℕ} (h : E.Goes s n) (h' : E.Goes (M.run n s) m) : E.Goes s (n + m) := by
  intro i hi
  rcases Nat.lt_or_ge i n with hlt | hge
  · exact h i hlt
  · obtain ⟨j, rfl⟩ := Nat.exists_eq_add_of_le hge
    rw [Traps.Machine.run_add]
    exact h' j (by omega)

theorem Ends.Goes.ended (h : E.Goes s n) (h' : E.Ended (M.run n s)) : E.Ended s := by
  obtain ⟨m, st, hgoes, hst⟩ := h'
  refine ⟨n + m, st, h.add hgoes, ?_⟩
  rw [Traps.Machine.run_add]
  exact hst

theorem Ends.Goes.lands (h : E.Goes s n) (h' : Lands E (M.run n s) load w) :
    Lands E s load w := by
  rcases h' with ⟨m, hgoes, ht, hload⟩ | ⟨hidle, hended⟩
  · refine .inl ⟨n + m, h.add hgoes, ?_, hload⟩
    rw [Traps.Machine.run_add]
    exact ht
  · exact .inr ⟨hidle, h.ended hended⟩

theorem Ends.goes_zero (s : Regs × Memory) : E.Goes s 0 := fun i hi => absurd hi (Nat.not_lt_zero i)

/-- A program that ends at once. -/
theorem Ends.ended_of_status {st : WaitStatus} (h : E.status s = some st) : E.Ended s :=
  ⟨0, st, E.goes_zero s, h⟩

theorem Tracing.lands (h : Tracing M w s) : Lands E s w.loadAddress w :=
  .inl ⟨0, E.goes_zero s, h, rfl⟩

/-- Only the output changes. -/
theorem Tracing.said (hk : k.Steps M E) (h : Tracing M w s)
    (hw : w' = { w with out := w'.out }) : Tracing M w' s := by
  rw [hw]
  exact h.move hk h.loaded rfl h.stopped h.regs (h.mem hk)

theorem Lands.said (hk : k.Steps M E) (h : Lands E s load w)
    (hw : w' = { w with out := w'.out }) : Lands E s load w' := by
  rcases h with ⟨n, hgoes, ht, hload⟩ | ⟨hidle, hended⟩
  · refine .inl ⟨n, hgoes, ht.said hk hw, ?_⟩
    rw [hw]
    exact hload
  · refine .inr ⟨?_, hended⟩
    rw [hw]
    exact hidle

/-! ## Continuing -/

/-- Resumed before a patch, the tracee comes back there, whatever is told of the stop. -/
theorem Tracing.resume_lands (hk : k.Runs M E) (h : Tracing M w s)
    (hfree : ∀ i < n, M.armed w.isPatched (M.run i s) = false) (hgoes : E.Goes s n)
    (harmed : M.armed w.isPatched (M.run n s) = true)
    (hok : waitForSignal k syms (w.setTracee (w.tracee.resume k w.pid (.cont 0))) = .ok w') :
    Tracing M w' (M.run n s) ∧ w'.loadAddress = w.loadAddress := by
  set t₁ : Tracee := { w.tracee.logged (.resume w.pid (.cont 0)) with task := .running (.cont 0) }
    with ht₁
  have hresume : w.tracee.resume k w.pid (.cont 0) = t₁ := Tracee.resume_of_inStop h.inStop
  have hstate : (t₁.regs, t₁.mem) = M.patchState w.isPatched s := h.state hk.toSteps
  have hwait := hk.cont t₁ n rfl (by
    rw [hstate]
    exact Traps.Machine.runsTo_patchState h.patches h.loaded hfree harmed) fun i hi => by
    rw [hstate, h.status_run fun j hj => hfree j (by omega)]
    exact hgoes i hi
  rw [hstate, Traps.Machine.run_patchState h.patches h.loaded hfree] at hwait
  set r := (M.run n s).1 with hr
  set info : SigInfo := ⟨SIGTRAP, SI_KERNEL⟩ with hinfo
  set t₂ : Tracee := { t₁.logged (.wait w.pid (some (.stopped info))) with
    task := .stopped, regs := Function.update r .rip (M.pc r + 1)
    mem := M.patch w.isPatched (M.run n s).2 } with ht₂
  have halive : t₁.alive w.pid = true := by
    rw [← hresume, Tracee.alive_resume]
    exact h.hosted.alive
  have hstop : t₂.inStop k w.pid = true := by
    refine Tracee.inStop_of_stopped ?_ rfl
    unfold Tracee.alive at halive ⊢
    rw [Bool.and_eq_true] at halive
    rw [show t₂.pid = t₁.pid from rfl, halive.1]
    rfl
  have hpc : getPc k t₂ w.pid - 1 = M.pc r := by
    rw [getPc, getRegisterValue, if_pos hstop]
    show Function.update r .rip (M.pc r + 1) .rip - 1 = M.pc r
    rw [Function.update_self]
    exact BitVec.add_sub_cancel ..
  -- the pc is set back over the `int3`
  have hafter : t₂.afterStop k w.pid info = { t₂ with regs := r } := by
    show setPc k t₂ w.pid (getPc k t₂ w.pid - 1) = _
    rw [hpc, setPc_eq, if_pos hstop]
    show { t₂ with regs := Function.update (Function.update r .rip (M.pc r + 1)) .rip (M.pc r) } = _
    rw [Function.update_idem, hk.pc, Function.update_eq_self]
  rw [hresume] at hok
  have hstopped : waitForSignal k syms (w.setTracee t₁) = _ :=
    waitForSignal_stopped (Tracee.waitpid_of_reports halive hwait)
  rw [dispatchStop_eq (hstopped.symm.trans hok)]
  refine ⟨?_, rfl⟩
  show Tracing M { w with
    tracee := t₂.afterStop k w.pid info, out := w'.out } (M.run n s)
  rw [hafter]
  exact h.move hk.toSteps (Traps.Machine.run_loaded h.loaded n) rfl rfl rfl rfl

/-- `continue` comes back at the first patch, unless the program ends before. -/
theorem Tracing.continue_lands (hk : k.Runs M E) (h : Tracing M w s)
    (hok : continueExecution k syms w = .ok w') : Lands E s w.loadAddress w' := by
  by_cases hex : ∃ n, M.Stops w.isPatched s n ∧ E.Goes s n
  · obtain ⟨n, hstop, hgoes⟩ := hex
    refine .inl ⟨n, hgoes, ?_⟩
    obtain ⟨t, hstep, h₁⟩ := h.stepOver syms hk.toSteps fun _ => hgoes 0 hstop.pos
    obtain ⟨hle, hfree⟩ := free_after_stepOver hstop rfl
    have hrun := Traps.Machine.run_add (M := M) (s := s)
      (m := if M.armed w.isPatched s then 1 else 0)
      (n := n - if M.armed w.isPatched s then 1 else 0)
    rw [Nat.add_sub_cancel' hle] at hrun
    have harmed := hstop.armed
    rw [hrun] at harmed ⊢
    rw [h.continueExecution_eq hstep] at hok
    have hrest : E.Goes (M.run (if M.armed w.isPatched s then 1 else 0) s)
        (n - if M.armed w.isPatched s then 1 else 0) := by
      intro i hi
      rw [← Traps.Machine.run_add]
      exact hgoes _ (by omega)
    have hlands := h₁.resume_lands hk hfree hrest harmed hok
    exact hlands
  push Not at hex
  by_cases hends : ∃ j, E.status (M.run j s) ≠ none
  · classical
    have hgoes : E.Goes s (Nat.find hends) := fun i hi => not_not.mp (Nat.find_min hends hi)
    obtain ⟨st, hst⟩ := Option.ne_none_iff_exists'.mp (Nat.find_spec hends)
    refine .inr ⟨h.continue_ends hk (fun i hpos hi => ?_) hgoes hst hok, _, st, hgoes, hst⟩
    -- an arrival would have come before the end
    by_contra harmed
    obtain ⟨m, hm, hfirst⟩ := Traps.Machine.exists_first
      (Q := fun s => M.armed w.isPatched s = true) hpos (by simpa using harmed)
    exact hex m (Traps.Machine.first_armed_iff.mp hfirst) (hgoes.mono (hm.trans hi))
  · push Not at hends
    obtain ⟨w₁, hnever⟩ := h.continue_never syms hk
      (fun n hstop => hex n hstop fun i _ => hends i) hends
    rw [hnever] at hok
    cases hok

/-- After a command has planted its locations it comes back where the program is, without them. -/
theorem Tracing.runPlanted_lands (hk : k.Runs M E) (hveiled : Veiled w w₁ ts) (h : Tracing M w₁ s)
    (hok : runPlanted k syms w₁ ts = .ok w') :
    Lands E s w.loadAddress w' := by
  obtain ⟨w₂, hcont, hdelete⟩ := bind_eq_ok.mp hok
  rcases h.continue_lands hk hcont with ⟨n, hgoes, ht, -⟩ | ⟨hidle, hended⟩
  · have hthere := hveiled.there hcont ht.active
    obtain ⟨w₃, hok₃, ht₃⟩ := ht.unplantAll hk.accessible hthere
    obtain rfl := Except.ok.inj (hok₃.symm.trans hdelete)
    exact .inl ⟨n, hgoes, ht₃, (hthere.unplantAll hdelete).loadAddress⟩
  · cases ts with
    | nil =>
      cases hdelete
      exact .inr ⟨hidle, hended⟩
    | cons a ts =>
      -- the deletion of the first location needs a tracee
      obtain ⟨w₃, hunset, -⟩ := foldlM_cons_eq_ok.mp hdelete
      exact absurd hunset (unsetTempBpLocation_inactive hidle)

/-! ## Stepping -/

/-- One call of the step executes one instruction, or none at a location without a patch. -/
theorem Tracing.singleStep_lands (hk : k.Steps M E) (h : Tracing M w s)
    (hok : singleStepInstructionWithBreakpointCheck k syms w = .ok w') :
    Lands E s w.loadAddress w' := by
  rcases hidle : w.idle (M.pc s.1) with - | -
  · rcases hst : E.status s with - | st
    · obtain ⟨t, hstep, ht⟩ := h.singleStep_goes syms hk hidle hst
      obtain rfl := Except.ok.inj (hstep.symm.trans hok)
      exact .inl ⟨1, fun i hi => by rw [Nat.lt_one_iff.mp hi]; exact hst, ht, rfl⟩
    · have hgone := h.singleStep_ends hk hidle hst hok
      exact .inr ⟨by rw [hgone]; decide, E.ended_of_status hst⟩
  · obtain ⟨ts, hready⟩ := h.ready
    have hnone := hready.singleStep_idle (k := k) syms (by rw [h.getPc_eq hk]; exact hidle)
    obtain rfl := Except.ok.inj (hnone.symm.trans hok)
    exact h.lands

/-- The loop of `step_in`, by induction on its turns. Where the program has ended in one, the rest
of them make no tracee. -/
theorem Tracing.stepInLoop_lands {line fuel : ℕ} {next : Option (String × SrcLine)}
    (hk : k.Steps M E) (hprompt : Ready w []) (h : Tracing M w s)
    (hok : stepInLoop k syms line fuel w = .ok (next, w')) : Lands E s w.loadAddress w' := by
  induction fuel generalizing w s with
  | zero => cases hok
  | succ fuel ih =>
    obtain ⟨r, -, hok⟩ := bind_eq_ok.mp hok
    split_ifs at hok with hline
    · obtain ⟨w₁, hstep, hok⟩ := bind_eq_ok.mp hok
      have hkept := singleStepWithCheck_kept hprompt hstep
      rcases h.singleStep_lands hk hstep with ⟨n, hgoes, ht, hload⟩ | ⟨hidle, hended⟩
      · exact hgoes.lands (hload ▸ ih hkept.ready ht hok)
      · have hrest := stepInLoop_kept hkept.ready hok
        exact .inr ⟨fun hact => hidle (hrest.table hact).1, hended⟩
    · cases hok
      exact h.lands

theorem Tracing.stepIn_lands {fuel : ℕ} (hk : k.Steps M E) (hprompt : Ready w [])
    (h : Tracing M w s) (hok : stepIn k syms fuel w = .ok w') : Lands E s w.loadAddress w' := by
  unfold stepIn at hok
  obtain ⟨r, -, hok⟩ := bind_eq_ok.mp hok
  rcases r with - | ⟨file, src⟩
  · cases hok
    exact h.lands.said hk rfl
  · dsimp only at hok
    by_cases hline : src.line = 0
    · rw [if_pos hline] at hok
      cases hok
      exact h.lands.said hk rfl
    · rw [if_neg hline] at hok
      obtain ⟨⟨next, w₁⟩, hloop, hok⟩ := bind_eq_ok.mp hok
      have hwarned := (h.stepInLoop_lands hk hprompt hloop).said hk
        (printSrcFileOutdatedWarning_eq w₁ src.outdated)
      dsimp only at hok
      split_ifs at hok
      · exact hwarned.said hk (printSource_eq hok)
      · cases hok
        exact hwarned

/-! ## finish and next -/

/-- A location that is asked for on an instruction leaves the program where it is. -/
theorem Tracing.setTemp (hk : k.Accessible) (hveiled : Veiled w w₁ ts) (h : Tracing M w₁ s)
    {planted : Bool} (hstart : M.starts a) (hok : setTempBpLocation k w₁ a = .ok (planted, w')) :
    Tracing M w' s ∧ Veiled w w' (if planted then ts ++ [a] else ts) := by
  obtain ⟨-, hpid, ha⟩ := setTempBpLocation_ok hok
  obtain ⟨planted', w₂, hset, ht, -, -⟩ := h.plant hk hveiled hpid ha hstart
  obtain ⟨rfl, rfl⟩ := Prod.mk.inj (Except.ok.inj (hset.symm.trans hok))
  exact ⟨ht, hveiled.plant hok⟩

/-- Reading a word leaves the program where it is. -/
theorem Tracing.readWord (hk : k.Steps M E) (h : Tracing M w s) :
    Tracing M (Vdbg.readReturnAddress k w).2 s := h.move hk h.loaded rfl h.stopped h.regs (h.mem hk)

theorem Tracing.stepOut_lands (hk : k.Runs M E) (hprompt : Ready w []) (h : Tracing M w s)
    (hstart : M.starts (Vdbg.readReturnAddress k w).1) (hok : stepOut k syms w = .ok w') :
    Lands E s w.loadAddress w' := by
  have hbind := hok
  unfold stepOut at hbind
  obtain ⟨⟨planted, w₁⟩, hplant, -⟩ := bind_eq_ok.mp hbind
  obtain ⟨ht, hveiled⟩ := (h.readWord hk.toSteps).setTemp hk.accessible
    ((Veiled.refl hprompt).quiet (readReturnAddress_quiet w)) hstart hplant
  rw [stepOut_eq hplant] at hok
  rw [List.nil_append] at hveiled
  exact ht.runPlanted_lands hk hveiled hok

/-- The word above `rbp` is the one the program has there, where that is not code. -/
theorem Tracing.returnAddress_eq (hk : k.Steps M E) (h : Tracing M w s)
    (hdata : ∀ i < 8, ¬M.starts (s.1 .rbp + 8 + BitVec.ofNat 64 i)) :
    (Vdbg.readReturnAddress k w).1 = returnWord s := by
  have hpointer : getRegisterValue k w.tracee .rbp w.pid = s.1 .rbp := by
    rw [getRegisterValue, if_pos h.inStop, h.regs]
  show (readMemory k w.tracee w.pid (getRegisterValue k w.tracee .rbp w.pid + 8)).1 = _
  rw [hpointer, readMemory, Tracee.peekData, h.hosted.alive, hk.accessible.peek]
  refine readWord_congr fun i hi => h.memory.plain _ ?_
  by_contra hpatched
  exact hdata i hi (h.patches _ (by simpa using hpatched))

/-- The locations `next` asks for are on instructions: the changes of the line ahead, and the return
address, which is not itself stored in code. -/
structure NextOnCode (k : Kernel) (M : Cpu) (w : World) (die : FuncDie) : Prop where
  lines : ∀ a ∈ nextLines w die (getPc k w.tracee w.pid), M.starts a
  ret : die.name ≠ some "main" → M.starts (readReturnAddress k w).1
  data : die.name ≠ some "main" →
    ∀ i < 8, ¬M.starts (getRegisterValue k w.tracee .rbp w.pid + 8 + BitVec.ofNat 64 i)

theorem Tracing.plantAt_ok {d d' : ToDelete} (hk : k.Accessible) (hveiled : Veiled w w₁ d.addrs)
    (h : Tracing M w₁ s) (hstart : M.starts a)
    (hok : Vdbg.plantAt k (d, w₁) a = .ok (d', w')) :
    Tracing M w' s ∧ Veiled w w' d'.addrs := by
  obtain ⟨⟨planted, w₂⟩, hplant, hok⟩ := bind_eq_ok.mp hok
  obtain ⟨ht, hveiled'⟩ := h.setTemp hk hveiled hstart hplant
  cases planted with
  | true =>
    obtain ⟨d₁, hgrow, hok⟩ := bind_eq_ok.mp hok
    obtain ⟨d₂, hstore, hd₁⟩ := bind_eq_ok.mp hgrow
    cases hok
    rw [← Except.ok.inj hd₁, ToDelete.grow_addrs, store_eq_ok hstore]
    exact ⟨ht, hveiled'⟩
  | false =>
    cases hok
    exact ⟨ht, hveiled'⟩

theorem Tracing.plantTempLocations_ok {die : FuncDie} {name : String} {d : ToDelete}
    (hk : k.Steps M E) (hprompt : Ready w []) (h : Tracing M w s) (hname : die.name = some name)
    (hcode : NextOnCode k M w die)
    (hok : Vdbg.plantTempLocations k w die name (getPc k w.tracee w.pid) = .ok (d, w')) :
    Tracing M w' s ∧ Veiled w w' d.addrs := by
  have hpc := h.getPc_eq hk
  have hpointer : getRegisterValue k w.tracee .rbp w.pid = s.1 .rbp := by
    rw [getRegisterValue, if_pos h.inStop, h.regs]
  -- an address with a line
  have hok' := hok
  unfold Vdbg.plantTempLocations at hok'
  dsimp only at hok'
  split at hok'
  · cases hok'
  rename_i hmodule
  split at hok'
  · cases hok'
  rename_i src hsrc
  split at hok'
  · cases hok'
  rename_i hline
  rw [plantTempLocations_eq (by simpa using hmodule) hsrc hline] at hok
  obtain ⟨⟨d₁, w₁⟩, hloop, hok⟩ := bind_eq_ok.mp hok
  obtain ⟨ht₁, hveiled₁⟩ : Tracing M w₁ s ∧ Veiled w w₁ d₁.addrs :=
    Along.invariant (C := fun _ a => M.starts a)
      (P := fun q : ToDelete × World => Tracing M q.2 s ∧ Veiled w q.2 q.1.addrs)
      (fun _ _ _ hq ha hok => hq.1.plantAt_ok hk.accessible hq.2 ha hok)
      (.of_forall (fun a ha _ => hcode.lines a ha) _) ⟨h, .refl hprompt⟩ hloop
  dsimp only at hok
  split_ifs at hok with hmain
  · cases hok
    exact ⟨ht₁, hveiled₁⟩
  obtain ⟨⟨planted, w₂⟩, hplant, hok⟩ := bind_eq_ok.mp hok
  have hnot : die.name ≠ some "main" := by
    rw [hname]
    exact fun he => hmain (Option.some.inj he)
  have hdata := hcode.data hnot
  rw [hpointer] at hdata
  have hsame : (Vdbg.readReturnAddress k w₁).1 = (Vdbg.readReturnAddress k w).1 :=
    (ht₁.returnAddress_eq hk hdata).trans (h.returnAddress_eq hk hdata).symm
  obtain ⟨ht₂, hveiled₂⟩ := (ht₁.readWord hk).setTemp hk.accessible
    (hveiled₁.quiet (readReturnAddress_quiet w₁)) (hsame ▸ hcode.ret hnot) hplant
  cases planted with
  | true =>
    obtain ⟨d₂, hstore, hok⟩ := bind_eq_ok.mp hok
    cases hok
    rw [store_eq_ok hstore]
    exact ⟨ht₂, hveiled₂⟩
  | false =>
    cases hok
    exact ⟨ht₂, hveiled₂⟩

theorem Tracing.stepOver_lands (hk : k.Runs M E) (hprompt : Ready w []) (h : Tracing M w s)
    (hcode : ∀ die, getFuncDieFromPc w (getPc k w.tracee w.pid) w.loadAddress = .ok (some die) →
      NextOnCode k M w die) (hok : Vdbg.stepOver k syms w = .ok w') :
    Lands E s w.loadAddress w' := by
  have hbind := hok
  unfold Vdbg.stepOver at hbind
  obtain ⟨r, hdie, hbind⟩ := bind_eq_ok.mp hbind
  rcases hfound : r.bind fun die => die.name.map (die, ·) with - | ⟨die, name⟩
  · rw [hfound] at hbind
    cases hbind
    exact h.lands.said hk.toSteps rfl
  · obtain ⟨die', rfl, hnamed⟩ := Option.bind_eq_some_iff.mp hfound
    obtain ⟨name', hname, he⟩ := Option.map_eq_some_iff.mp hnamed
    obtain ⟨rfl, rfl⟩ := Prod.mk.inj he
    rw [hfound] at hbind
    obtain ⟨⟨d, w₁⟩, hplant, -⟩ := bind_eq_ok.mp hbind
    obtain ⟨ht, hveiled⟩ := h.plantTempLocations_ok hk.toSteps hprompt hname (hcode _ hdie) hplant
    rw [stepOver_eq hdie hname hplant] at hok
    exact ht.runPlanted_lands hk hveiled hok

/-! ## Sessions -/

/-- At a prompt the program is where it would be alone, or it has ended. -/
def Unnoticed (E : Ends M) (s : Regs × Memory) (load : Addr) (w : World) : Prop :=
  (∃ n, E.Goes s n ∧ StaysPaused M (M.run n s) load w) ∨ Ready w [] ∧ w.state ≠ .active ∧ E.Ended s

/-- Breakpoints, steps and `continue`, with all locations on instructions while there is a tracee.
Writes to registers and memory, and a new tracee, are no observation. -/
def Command.Unobtrusive (k : Kernel) (M : Cpu) (w : World) : Command → Prop
  | .break args => w.state = .active → ∀ a, .addr a ∈ args → M.starts (a + w.loadAddress)
  | .finish => w.state = .active → M.starts (readReturnAddress k w).1
  | .next => w.state = .active → ∀ die, getFuncDieFromPc w (getPc k w.tracee w.pid) w.loadAddress =
      .ok (some die) → NextOnCode k M w die
  | .run _ | .restart | .registerWrite _ _ | .memoryWrite _ _ | .kill _ => False
  | .delete _ | .enable _ | .disable _ | .continue | .stepi | .step _ => True

theorem Ends.Goes.unnoticed (h : E.Goes s n) (h' : Unnoticed E (M.run n s) load w) :
    Unnoticed E s load w := by
  rcases h' with ⟨m, hgoes, hstays⟩ | ⟨hready, hidle, hended⟩
  · refine .inl ⟨n + m, h.add hgoes, ?_⟩
    rw [Traps.Machine.run_add]
    exact hstays
  · exact .inr ⟨hready, hidle, h.ended hended⟩

/-- A command that runs the tracee comes back at a prompt. -/
theorem StaysPaused.unnoticed (h : StaysPaused M s load w) (hkept : Kept w w')
    (hlands : Lands E s w.loadAddress w') : Unnoticed E s load w' := by
  rcases hlands with ⟨n, hgoes, ht, hload⟩ | ⟨hidle, hended⟩
  · exact .inl ⟨n, hgoes, ⟨ht, hkept.ready, h.paused.onCode.congr hkept.rows hload⟩,
      hload.trans h.load⟩
  · exact .inr ⟨hkept.ready, hidle, hended⟩

theorem StaysPaused.command {c : Command} (hk : k.Runs M E) (hsyms : syms.OnCode M load)
    (hc : c.Unobtrusive k M w) (h : StaysPaused M s load w)
    (hok : c.handler k syms w = .ok w') : Unnoticed E s load w' := by
  have hedit : c.edits = true → c.TypesCode M load → Unnoticed E s load w' := fun hedits htypes =>
    .inl ⟨0, E.goes_zero s, h.handler hk.accessible hsyms hedits htypes hok⟩
  have htracing := h.paused.toTracing
  have hprompt := h.paused.prompt
  have hact := htracing.active
  cases c with
  | «break» args =>
    refine hedit rfl fun a ha => ?_
    rw [← h.load]
    exact hc hact a ha
  | delete args | enable args | disable args => exact hedit rfl trivial
  | «continue» =>
    exact h.unnoticed (continueExecution_kept hprompt hok) (htracing.continue_lands hk hok)
  | stepi =>
    obtain ⟨w₁, hstep, hprint⟩ := bind_eq_ok.mp hok
    exact h.unnoticed (cmdStepi_kept hprompt hok)
      ((htracing.singleStep_lands hk.toSteps hstep).said hk.toSteps (printSourceAtCurrentPc_eq hprint))
  | step fuel =>
    exact h.unnoticed (stepIn_kept hprompt hok) (htracing.stepIn_lands hk.toSteps hprompt hok)
  | next =>
    exact h.unnoticed (stepOver_kept hprompt hok) (htracing.stepOver_lands hk hprompt (hc hact) hok)
  | finish =>
    exact h.unnoticed (stepOut_kept hprompt hok) (htracing.stepOut_lands hk hprompt (hc hact) hok)
  | run _ | restart | registerWrite _ _ | memoryWrite _ _ | kill _ => exact hc.elim

/-- A command on breakpoints finds the debugger without a tracee, and leaves it so. -/
theorem edits_life {c : Command} (hc : c.edits = true) (hok : c.handler k syms w = .ok w') :
    w'.life = w.life := by
  cases c with
  | «break» args => exact cmdBreak_life hok
  | delete args =>
    change cmdDelete k syms w args = .ok w' at hok
    unfold cmdDelete at hok
    split_ifs at hok
    · exact forAll_life (fun _ _ _ => removeOne_life) hok
    · exact forArgs_life removeBreakpoint_life hok
  | enable args =>
    change cmdEnable k syms w args = .ok w' at hok
    unfold cmdEnable at hok
    split_ifs at hok
    · exact forAll_life (fun _ _ _ => bpEnable_life) hok
    · exact forArgs_life bpEnable_life hok
  | disable args =>
    change cmdDisable k syms w args = .ok w' at hok
    unfold cmdDisable at hok
    split_ifs at hok
    · exact forAll_life (fun _ _ _ => bpDisable_life) hok
    · exact forArgs_life bpDisable_life hok
  | _ => cases hc

/-- One command, by cases on whether the tracee is there. -/
theorem Unnoticed.handleCommand {c : Command} (hk : k.Runs M E) (hsyms : syms.OnCode M load)
    (hc : c.Unobtrusive k M w) (h : Unnoticed E s load w)
    (hok : handleCommand k syms w c = .ok w') : Unnoticed E s load w' := by
  have hready : Ready w [] := by
    rcases h with ⟨n, -, hstays⟩ | ⟨hready, -⟩
    · exact hstays.paused.prompt
    · exact hready
  have hready' := handleCommand_ready hready hok
  unfold Vdbg.handleCommand at hok
  split_ifs at hok with hrequires hdwarf
  · cases hok
    exact h
  · cases hok
    exact h
  rcases h with ⟨n, hgoes, hstays⟩ | ⟨-, hidle, hended⟩
  · exact hgoes.unnoticed (hstays.command hk hsyms hc hok)
  · refine .inr ⟨hready', ?_, hended⟩
    rcases hedits : c.edits with - | -
    · have hruns : c.requires.1 = true := by
        cases c with
        | run _ | restart | registerWrite _ _ | memoryWrite _ _ | kill _ => exact hc.elim
        | «break» _ | delete _ | enable _ | disable _ => cases hedits
        | «continue» | stepi | step _ | next | finish => rfl
      exact absurd ⟨hruns, hidle⟩ hrequires
    · rw [show w'.state = w.state from congrArg Life.state (edits_life hedits hok)]
      exact hidle

/-- **Debugging goes unnoticed.** For every program, every prompt of it with breakpoints on its
instructions and every session that keeps to them, the tracee is afterwards in a state the program
has when it runs alone, but for the patches, or the program has ended. -/
theorem session_unnoticed {cs : List Command} (hk : k.Runs M E)
    (hsyms : syms.OnCode M w.loadAddress) (h : Paused M w s)
    (hcs : Along (handleCommand k syms) (fun w c => c.Unobtrusive k M w) w cs)
    (hok : session k syms w cs = .ok w') :
    (∃ n, E.Goes s n ∧ Paused M w' (M.run n s)) ∨ w'.state = .notActive ∧ E.Ended s := by
  have hstart : Unnoticed E s w.loadAddress w := .inl ⟨0, E.goes_zero s, h, rfl⟩
  have hlast : Unnoticed E s w.loadAddress w' :=
    hcs.invariant (fun _ _ _ h hc hok => h.handleCommand hk hsyms hc hok) hstart hok
  rcases hlast with ⟨n, hgoes, hstays⟩ | ⟨-, hidle, hended⟩
  · exact .inl ⟨n, hgoes, hstays.paused⟩
  · refine .inr ⟨?_, hended⟩
    rcases hstate : w'.state with - | -
    · exact absurd hstate hidle
    · rfl

/-! ## A loop with a breakpoint -/

theorem Symbols.stripped_onCode (M : Cpu) (load : Addr) : Symbols.stripped.OnCode M load := by
  refine ⟨fun f hf => absurd hf List.not_mem_nil, fun file line name a h => ?_⟩
  unfold getAddrFromLineno at h
  cases file <;> cases h

/-- The program of two instructions before its first one. -/
theorem incLoopStopped_paused :
    Paused incLoop incLoopStopped (incLoopStopped.tracee.regs, fun _ => 0x90) := by
  obtain ⟨hready, hhosted, htransparent⟩ := incLoopStopped_ready
  refine ⟨⟨⟨[], hready⟩, rfl, rfl, hhosted, fun a ha => ?_, rfl, rfl, htransparent, ?_⟩, hready,
    fun r hr => by cases hr⟩
  · exact (Bool.false_ne_true ((World.stoppedAt_isPatched _ _ _ a).symm.trans ha)).elim
  · exact ⟨fun _ _ => rfl, .inl rfl⟩

/-- A breakpoint on the jump of the loop, and a run to it. -/
theorem session_unnoticed_incLoop : ∃ w',
    session (.executing incLoop) .stripped incLoopStopped
      [.break [.addr 0x401001], .continue] = .ok w' ∧
    ((∃ n, (Ends.never incLoop).Goes (incLoopStopped.tracee.regs, fun _ => 0x90) n ∧
      Paused incLoop w' (incLoop.run n (incLoopStopped.tracee.regs, fun _ => 0x90))) ∨
      w'.state = .notActive ∧
        (Ends.never incLoop).Ended (incLoopStopped.tracee.regs, fun _ => 0x90)) := by
  have hruns := (Kernel.executing_executes (M := incLoop) (fun _ => rfl) rfl).runs
  -- the breakpoint can be set, and the loop arrives at it
  obtain ⟨w₁, hset, htracing, hlines⟩ := incLoop_tracing
  obtain ⟨w₂, hset', hp⟩ := exists_of_any (p := fun w => w.isPatched 0x401001 &&
      w.tracee.regs .rip == 0x401000)
    (x := setBreakpointOfKind (.executing incLoop) incLoopStopped .addr 0x401001)
    (by decide +kernel)
  obtain rfl := Except.ok.inj (hset'.symm.trans hset)
  rw [Bool.and_eq_true, beq_iff_eq] at hp
  obtain ⟨hpatched, hrip⟩ := hp
  have hbreak : handleCommand (.executing incLoop) .stripped incLoopStopped
      (.break [.addr 0x401001]) = .ok w₂ := by
    show setBreakpointAtAddr _ _ _ >>= (fun w => cmdBreak _ _ w []) = _
    rw [setBreakpointAtAddr_eq, hset, ok_bind]
    rfl
  have harrives : (incLoop.exec (w₂.tracee.regs, fun _ => 0x90)).1 .rip = 0x401001 := by
    have hexec : incLoop.exec (w₂.tracee.regs, fun _ => 0x90) = (Function.update (Function.update
        w₂.tracee.regs .rax (w₂.tracee.regs .rax + 1)) .rip 0x401001, fun _ => 0x90) := if_pos hrip
    rw [hexec]
    dsimp only
    rw [Function.update_self]
  obtain ⟨t, out, hcont, -⟩ := htracing.continue_stops .stripped hruns
    ⟨Nat.one_pos, by
      show w₂.isPatched ((incLoop.exec (w₂.tracee.regs, fun _ => 0x90)).1 .rip) = true
      rw [harrives]
      exact hpatched, fun i hpos hi => by omega⟩ (fun _ _ => rfl) nofun
  set w' : World := { w₂ with tracee := t, out := out }
  have hlast : handleCommand (.executing incLoop) .stripped w₂ .continue = .ok w' := by
    unfold handleCommand
    rw [if_neg (by simp [htracing.active]), if_neg (by simp [Command.requires])]
    exact hcont
  have hok : session (.executing incLoop) .stripped incLoopStopped
      [.break [.addr 0x401001], .continue] = .ok w' :=
    foldlM_cons_eq_ok.mpr ⟨w₂, hbreak, foldlM_cons_eq_ok.mpr ⟨w', hlast, rfl⟩⟩
  have hcs : Along (handleCommand (.executing incLoop) .stripped)
      (fun w c => c.Unobtrusive (.executing incLoop) incLoop w) incLoopStopped
      [.break [.addr 0x401001], .continue] := by
    refine ⟨fun _ a ha => ?_, fun _ _ => ⟨trivial, fun _ _ => trivial⟩⟩
    cases List.mem_singleton.mp ha
    exact .inr rfl
  exact ⟨w', hok, session_unnoticed hruns (Symbols.stripped_onCode incLoop _)
    incLoopStopped_paused hcs hok⟩

end Vdbg
