import Vdbg.Sharing

/-!
# Pending breakpoints and live ones

A breakpoint takes effect in two ways: at once, when the tracee is active, or when
`resolve_pending_breakpoints` replays the pending list at a spawn. The two agree in every run whose
steps keep `Table.Resolved`. The steps that do not are those on the last of several breakpoints at an
address: a replay lets that one decide alone, while `bp_enable`, `bp_disable` and `bp_free` look at
the others.
-/

namespace Vdbg

open FaultRun

variable {k k' : Kernel} {syms : Symbols}

/-! ## Commands as edits -/

/-- The edits that set breakpoints at addresses, with the ids from `c` on. -/
def setEdits (c : BitVec 64) : List Addr → List (Edit (BitVec 64) Addr)
  | [] => []
  | a :: as => .set c a :: setEdits (c + 1) as

theorem setEdits_append (c : BitVec 64) (as as' : List Addr) : setEdits c (as ++ as') =
    setEdits c as ++ setEdits ((setEdits c as).foldl Edit.count c) as' := by
  induction as generalizing c with
  | nil => rfl
  | cons a as ih => exact congrArg _ (ih (c + 1))

/-- The addresses an argument of `break` stands for. -/
def BreakArg.targets (k : Kernel) (syms : Symbols) (w : World) : BreakArg → List Addr
  | .addr a => [a]
  | .line file lineno =>
    if syms.hasDwarf then ((lineTarget k syms w file lineno).map Prod.snd).toList else []
  | .symbol name => (syms.functions.filter fun f => f.1 = name).map Prod.snd

section Commands

variable {w w' : World}

/-- New breakpoints at addresses, one after the other. -/
def Sets (w w' : World) (as : List Addr) : Prop := EditedBy w w' (setEdits w.globalIdCounter as)

theorem Sets.append {w₁ : World} {as as' : List Addr} (h : Sets w w₁ as) (h' : Sets w₁ w' as') :
    Sets w w' (as ++ as') := by
  rw [Sets, setEdits_append, ← h.counter]
  exact EditedBy.append h h'

theorem setBreakpointOfKind_sets {kind : BpKind} {a : Addr} (h : Ready w [])
    (hok : setBreakpointOfKind k w kind a = .ok w') : Sets w w' [a] :=
  (setBreakpointOfKind_edited h hok).by

theorem setBreakpointAtFuncSymbol_sets {name : String} (h : Ready w [])
    (hok : setBreakpointAtFuncSymbol k syms w name = .ok w') :
    Sets w w' ((syms.functions.filter fun f => f.1 = name).map Prod.snd) := by
  unfold setBreakpointAtFuncSymbol at hok
  generalize syms.functions.filter (fun f => f.1 = name) = fs at hok
  induction fs generalizing w with
  | nil => cases hok; exact .nil h
  | cons f fs ih =>
    obtain ⟨w₁, h1, hok⟩ := foldlM_cons_eq_ok.mp hok
    have hset := setBreakpointOfKind_sets h h1
    exact hset.append (ih hset.ready hok)

/-- `break` with one argument. -/
theorem cmdBreak_one_sets {arg : BreakArg} (h : Ready w [])
    (hok : cmdBreak k syms w [arg] = .ok w') : Sets w w' (arg.targets k syms w) := by
  cases arg with
  | addr a =>
    obtain ⟨w₁, hset, hok⟩ := bind_eq_ok.mp hok
    rw [setBreakpointAtAddr_eq] at hset
    cases hok
    exact setBreakpointOfKind_sets h hset
  | line file line =>
    unfold cmdBreak at hok
    unfold BreakArg.targets
    split_ifs at hok ⊢ with hdwarf
    · dsimp only
      obtain ⟨w₁, hset, hok⟩ := bind_eq_ok.mp hok
      cases hok
      rcases setBreakpointAtLineno_cases hset with ⟨htarget, rfl⟩ | ⟨name, a, htarget, hset⟩
      · rw [htarget]
        exact .nil h
      · rw [htarget]
        exact setBreakpointOfKind_sets h hset
    · cases hok
      exact .nil h
  | symbol name =>
    obtain ⟨w₁, hset, hok⟩ := bind_eq_ok.mp hok
    cases hok
    exact setBreakpointAtFuncSymbol_sets h hset

/-- Whether an argument ends the command: a line, where there are no debug symbols. -/
def BreakArg.stops (syms : Symbols) : BreakArg → Bool
  | .line _ _ => !syms.hasDwarf
  | _ => false

theorem cmdBreak_of_stops {arg : BreakArg} (args : List BreakArg) (h : arg.stops syms = true) :
    cmdBreak k syms w (arg :: args) = .ok w := by
  cases arg with
  | addr a => cases h
  | line file line =>
    unfold cmdBreak
    rw [if_neg (by simpa [BreakArg.stops] using h)]
    rfl
  | symbol name => cases h

/-- Behind the last argument `break` returns. -/
theorem bind_cmdBreak_nil (r : Res World) : (r >>= fun w => cmdBreak k syms w []) = r :=
  bind_pure r

/-- `break` goes through its arguments. -/
theorem cmdBreak_cons_eq {arg : BreakArg} (args : List BreakArg) (h : arg.stops syms = false) :
    cmdBreak k syms w (arg :: args) =
      cmdBreak k syms w [arg] >>= fun w => cmdBreak k syms w args := by
  cases arg with
  | addr a => rw [cmdBreak, cmdBreak, bind_cmdBreak_nil]
  | line file line =>
    have hdwarf : syms.hasDwarf = true := by simpa [BreakArg.stops] using h
    rw [cmdBreak, if_pos hdwarf, cmdBreak, if_pos hdwarf, bind_cmdBreak_nil]
  | symbol name => rw [cmdBreak, cmdBreak, bind_cmdBreak_nil]

theorem cmdBreak_cons {arg : BreakArg} {args : List BreakArg} (h : arg.stops syms = false) :
    cmdBreak k syms w (arg :: args) = .ok w' ↔
      ∃ w₁, cmdBreak k syms w [arg] = .ok w₁ ∧ cmdBreak k syms w₁ args = .ok w' := by
  rw [cmdBreak_cons_eq args h]
  exact bind_eq_ok

theorem cmdBreak_sets {args : List BreakArg} (h : Ready w [])
    (hok : cmdBreak k syms w args = .ok w') : ∃ as, Sets w w' as := by
  induction args generalizing w with
  | nil => cases hok; exact ⟨[], .nil h⟩
  | cons arg args ih =>
    rcases hstops : arg.stops syms with - | -
    · obtain ⟨w₁, h1, hok⟩ := (cmdBreak_cons hstops).mp hok
      have hset := cmdBreak_one_sets h h1
      obtain ⟨as, hrest⟩ := ih hset.ready hok
      exact ⟨_, hset.append hrest⟩
    · rw [cmdBreak_of_stops args hstops] at hok
      cases hok
      exact ⟨[], .nil h⟩

/-- An id that no breakpoint has. -/
theorem Edited.of_unknown {e : Edit (BitVec 64) Addr} (h : Ready w [])
    (hunknown : e.addr w.rows = none) : Edited w w e := by
  have hedit : w.table.edit e = w.table := Table.edit_of_unknown hunknown
  have hrows : (w.table.edit e).rows = Row.edit w.rows e := Table.edit_rows w.table e
  rw [hedit] at hrows
  refine ⟨h, hrows, fun _ => hedit.symm, rfl, rfl, ?_⟩
  cases e with
  | set id a => cases hunknown
  | enable id => rfl
  | disable id => rfl
  | delete id => rfl

/-- A command that acts on the breakpoint of an id. -/
theorem forArgs_id_edited {act : World → BpPtr → Res World} {id : BitVec 64}
    {e : BitVec 64 → Edit (BitVec 64) Addr}
    (haddr : ∀ id, (e id).addr w.rows = (w.rows.find? fun r => r.id = id).map Row.addr)
    (hact : ∀ {b w'}, act w b = .ok w' → ∃ bp, w.bps b = some bp ∧ Edited w w' (e bp.id))
    (h : Ready w []) (hok : forArgs syms act w [.id id] = .ok w') : Edited w w' (e id) := by
  obtain ⟨w₁, h1, hok⟩ := foldlM_cons_eq_ok.mp hok
  cases hok
  obtain ⟨b, hb, h1⟩ := bind_eq_ok.mp h1
  cases hb
  have hlookup := h.registry.lookup id
  unfold getBreakpointById at h1
  rcases hb : mapLookup w.breakpoints id with - | b
  · rw [hb] at h1
    cases h1
    refine .of_unknown h ((haddr id).trans (Table.addr_eq_none (t := w.table).mpr ?_))
    intro r hr hid
    obtain ⟨b, -, hrow⟩ := List.mem_filterMap.mp hr
    obtain ⟨bp, hbp, rfl⟩ := Option.map_eq_some_iff.mp hrow
    have hsome := (hlookup b).mpr ⟨bp, hbp, hid⟩
    rw [hb] at hsome
    cases hsome
  · rw [hb] at h1
    obtain ⟨bp, hbp, hedit⟩ := hact h1
    obtain ⟨bp', hbp', rfl⟩ := (hlookup b).mp hb
    rwa [Option.some.inj (hbp'.symm.trans hbp)]

end Commands

/-! ## Tables a replay would leave -/

section Resolved

variable {w w' w₁ : World}

theorem Resolved.sets {t : Table (BitVec 64) Addr} (h : t.Resolved) (c : BitVec 64)
    (as : List Addr) : (t.run (setEdits c as)).Resolved := by
  induction as generalizing t c with
  | nil => exact h
  | cons a as ih => exact ih (h.set c a) (c + 1)

/-- What a replay of the rows patches. -/
theorem resolved_iff {w : World} : w.table.Resolved ↔
    ∀ a, w.isPatched a = replay w.rows (a - w.loadAddress) := by
  constructor
  · intro h a
    have ha := h (a - w.loadAddress)
    rw [← replay_apply] at ha
    have hback : a - w.loadAddress + w.loadAddress = a := BitVec.sub_add_cancel ..
    exact (congrArg w.isPatched hback).symm.trans ha
  · intro h a
    show w.isPatched (a + w.loadAddress) = _
    rw [h, show a + w.loadAddress - w.loadAddress = a from add_sub_cancel_right _ _, replay_apply]
    rfl

/-- A tracee was started, and may have run up to its first stop. -/
def Started (k : Kernel) (syms : Symbols) (w w' : World) : Prop :=
  startTracee k syms w = .ok w' ∨ spawnTracee k syms w = .ok w' ∧ w'.state = .active

theorem Started.spawned (h : Ready w []) (hidle : w.state ≠ .active) (hs : Started k syms w w') :
    Spawned w w' ∧ w'.state = .active := by
  rcases hs with hs | ⟨hs, hact⟩
  · exact startTracee_spawned h hidle hs
  · exact ⟨spawnTracee_spawned h hidle hs, hact⟩

theorem Spawned.resolved (h : Spawned w w') (hact : w'.state = .active) : w'.table.Resolved := by
  rw [h.table hact]
  exact fun a => replay_apply w.rows a

/-- Two states that have the same breakpoints, load address and reading of the patches. -/
theorem isPatched_eq_of_resolved (h : w.table.Resolved) (h' : w'.table.Resolved)
    (hrows : w'.rows = w.rows) (hload : w'.loadAddress = w.loadAddress) :
    w'.isPatched = w.isPatched := by
  funext a
  rw [resolved_iff.mp h, resolved_iff.mp h', hrows, hload]

end Resolved

/-! ## Commands that keep the patches of a replay -/

/-- Whether the breakpoints that the arguments name are edited as a replay would have it. -/
def ArgsKeep (syms : Symbols) (act : World → BpPtr → Res World)
    (e : BitVec 64 → Edit (BitVec 64) Addr) (w : World) (args : List BpArg) : Prop :=
  w.state = .active → Along (forArg syms act) (fun w arg => ∀ b bp,
    parseArgBp syms w arg = .ok (some b) → w.bps b = some bp → w.table.KeepsResolved (e bp.id))
    w args

/-- Whether a command keeps the patches as a replay would leave them. An edit of the last of several
breakpoints at an address does so only if the others agree with it; to edit all of them is always
safe. -/
def Command.Keeps (k : Kernel) (syms : Symbols) (w : World) : Command → Prop
  | .enable args => ArgsKeep syms (bpEnable k) .enable w args
  | .disable args => ArgsKeep syms (bpDisable k) .disable w args
  | .delete args => ArgsKeep syms (removeBreakpoint k) .delete w args
  | _ => True

instance decidableArgsKeep {syms : Symbols} {act : World → BpPtr → Res World}
    {e : BitVec 64 → Edit (BitVec 64) Addr} {w : World} {args : List BpArg} :
    Decidable (ArgsKeep syms act e w args) :=
  have (w : World) (arg : BpArg) : Decidable (∀ b bp, parseArgBp syms w arg = .ok (some b) →
      w.bps b = some bp → w.table.KeepsResolved (e bp.id)) :=
    decidable_of_iff (∀ p, parseArgBp syms w arg = .ok p → ∀ b ∈ p, ∀ bp ∈ w.bps b,
      w.table.KeepsResolved (e bp.id)) ⟨fun h b bp hb hbp => h _ hb b rfl bp hbp,
        fun h _ hb b hp bp hbp => h b bp (hp ▸ hb) hbp⟩
  inferInstanceAs (Decidable (w.state = .active → Along _ _ w args))

instance decidableKeeps (k : Kernel) (syms : Symbols) (w : World) :
    ∀ c : Command, Decidable (c.Keeps k syms w)
  | .enable _ | .disable _ | .delete _ => decidableArgsKeep
  | .break _ | .run _ | .restart | .continue | .stepi | .step _ | .next | .finish
  | .registerWrite _ _ | .memoryWrite _ _ | .kill _ => isTrue trivial

/-- A prompt where the patches of an active tracee are those of a replay. -/
structure Settled (w : World) : Prop where
  ready : Ready w []
  resolved : w.state = .active → w.table.Resolved

section Settled

variable {w w' : World}

theorem Settled.edited {e : Edit (BitVec 64) Addr} (h : Settled w) (hedit : Edited w w' e)
    (hkeep : w.state = .active → w.table.KeepsResolved e) : Settled w' := by
  refine ⟨hedit.ready, fun ha => ?_⟩
  rw [hedit.state] at ha
  rw [hedit.table ha]
  exact ((h.resolved ha).edit_iff h.ready.registry.nodup_ids e).mpr (hkeep ha)

theorem Settled.kept (h : Settled w) (hkept : Kept w w') : Settled w' := by
  refine ⟨hkept.ready, fun ha => ?_⟩
  obtain ⟨hact, htable⟩ := hkept.table ha
  rw [htable]
  exact h.resolved hact

theorem Spawned.settled (h : Spawned w w') : Settled w' := ⟨h.ready, h.resolved⟩

/-- The loop over the arguments, by induction on them. -/
theorem Settled.forArgs {act : World → BpPtr → Res World} {args : List BpArg}
    {e : BitVec 64 → Edit (BitVec 64) Addr}
    (hact : ∀ {w b w'}, Ready w [] → act w b = .ok w' →
      ∃ bp, w.bps b = some bp ∧ Edited w w' (e bp.id))
    (h : Settled w) (hkeep : ArgsKeep syms act e w args) (hok : forArgs syms act w args = .ok w') :
    Settled w' := by
  have hturn : ∀ w arg w', Settled w → forArg syms act w arg = .ok w' → w' = w ∨
      ∃ b bp, parseArgBp syms w arg = .ok (some b) ∧ w.bps b = some bp ∧
        Edited w w' (e bp.id) := by
    intro w arg w' h hok
    obtain ⟨b, hb, hok⟩ := bind_eq_ok.mp hok
    rcases b with - | b
    · cases hok
      exact .inl rfl
    · obtain ⟨bp, hbp, hedit⟩ := hact h.ready hok
      exact .inr ⟨b, bp, hb, hbp, hedit⟩
  by_cases hs : w.state = .active
  · refine (Along.invariant (P := fun w => Settled w ∧ w.state = .active)
      (fun w arg w' hP hC hok => ?_) (hkeep hs) ⟨h, hs⟩ hok).1
    rcases hturn w arg w' hP.1 hok with rfl | ⟨b, bp, hb, hbp, hedit⟩
    · exact hP
    · exact ⟨hP.1.edited hedit fun _ => hC b bp hb hbp, hedit.state.trans hP.2⟩
  · refine (FaultRun.invariant (P := fun w => Settled w ∧ w.state ≠ .active)
      (fun w arg w' hP hok => ?_) ⟨h, hs⟩ hok).1
    rcases hturn w arg w' hP.1 hok with rfl | ⟨b, bp, hb, hbp, hedit⟩
    · exact hP
    · exact ⟨hP.1.edited hedit fun ha => absurd ha hP.2, by rw [hedit.state]; exact hP.2⟩

theorem EditedBy.settled {es : List (Edit (BitVec 64) Addr)} (h : EditedBy w w' es)
    (hres : w.state = .active → (w.table.run es).Resolved) : Settled w' := by
  refine ⟨h.ready, fun ha => ?_⟩
  rw [h.state] at ha
  rw [h.table ha]
  exact hres ha

theorem Settled.setAll (h : Settled w) (e : Bool) (ha : w.state = .active) :
    (w.table.run ((w.rows.map Row.id).map (Edit.flag e))).Resolved :=
  (h.resolved ha).setAll h.ready.registry.nodup_ids e

/-- Without breakpoints nothing is patched. -/
theorem Ready.settled_of_nil (h : Ready w []) (hnil : w.pendingBreakpoints = []) : Settled w := by
  refine ⟨h, fun _ => resolved_iff.mpr fun a => ?_⟩
  have hrows : w.rows = [] := by rw [World.rows, hnil]; rfl
  rw [hrows]
  show w.isPatched a = false
  rcases hp : mapLookup w.bpLocations a with - | p
  · exact World.isPatched_absent hp
  · obtain ⟨loc, hloc, -⟩ := h.attached.stored a p hp
    rw [World.isPatched_eq hp hloc, Bool.eq_false_iff]
    intro hpat
    obtain ⟨b, hb⟩ := List.exists_mem_of_ne_nil _
      (h.attached.armed p loc hloc (h.planted.user hloc) hpat)
    have hlive := h.attached.listed_live hloc b hb
    rw [← h.registry.live, hnil] at hlive
    cases hlive

/-- A command keeps the patches of a replay under its condition. -/
theorem Settled.command {c : Command} (h : Settled w) (hkeep : c.Keeps k syms w)
    (hok : handleCommand k syms w c = .ok w') : Settled w' := by
  unfold handleCommand at hok
  split_ifs at hok
  · cases hok; exact h
  · cases hok; exact h
  cases c with
  | «break» args =>
    obtain ⟨as, hset⟩ := cmdBreak_sets h.ready hok
    exact hset.settled fun ha => Resolved.sets (h.resolved ha) _ as
  | delete args =>
    change cmdDelete k syms w args = .ok w' at hok
    unfold cmdDelete at hok
    split_ifs at hok
    · obtain ⟨hready, hnil, -⟩ := removeAllBreakpoints_ready h.ready hok
      exact hready.settled_of_nil hnil
    · exact h.forArgs removeBreakpoint_edited hkeep hok
  | enable args =>
    change cmdEnable k syms w args = .ok w' at hok
    unfold cmdEnable at hok
    split_ifs at hok
    · exact (enableAllBreakpoints_edited h.ready hok).settled (h.setAll true)
    · refine h.forArgs (fun hready hact => ?_) hkeep hok
      obtain ⟨bp, hb, -, hedit⟩ := bpEnable_edited hready hact
      exact ⟨bp, hb, hedit⟩
  | disable args =>
    change cmdDisable k syms w args = .ok w' at hok
    unfold cmdDisable at hok
    split_ifs at hok
    · exact (disableAllBreakpoints_edited h.ready hok).settled (h.setAll false)
    · refine h.forArgs (fun hready hact => ?_) hkeep hok
      obtain ⟨bp, hb, -, hedit⟩ := bpDisable_edited hready hact
      exact ⟨bp, hb, hedit⟩
  | run answer =>
    rcases run_spawned h.ready hok with hspawned | rfl
    · exact hspawned.settled
    · exact h
  | restart => exact (restart_spawned h.ready hok).settled
  | «continue» => exact h.kept (continueExecution_kept h.ready hok)
  | stepi => exact h.kept (cmdStepi_kept h.ready hok)
  | step fuel => exact h.kept (stepIn_kept h.ready hok)
  | next => exact h.kept (stepOver_kept h.ready hok)
  | finish => exact h.kept (stepOut_kept h.ready hok)
  | registerWrite r value => cases hok; exact h.kept ((Quiet.setTracee w _).kept h.ready)
  | memoryWrite a value => cases hok; exact h.kept ((Quiet.setTracee w _).kept h.ready)
  | kill answer =>
    obtain ⟨⟨quit, w₁⟩, hkill, hok⟩ := bind_eq_ok.mp hok
    cases hok
    exact h.kept (dbgKillTracee_kept h.ready hkill)

theorem dbgInit_settled : Settled dbgInit := dbgInit_ready.settled_of_nil rfl

/-- A session whose commands all keep the patches of a replay. -/
theorem Settled.session {cs : List Command} (h : Settled w)
    (hkeep : Along (handleCommand k syms) (fun w c => c.Keeps k syms w) w cs)
    (hok : session k syms w cs = .ok w') : Settled w' :=
  hkeep.invariant (fun _ _ _ h hC h1 => h.command hC h1) h hok

end Settled

/-! ## Before and after the start -/

/-- The commands on breakpoints. -/
inductive BpCommand where
  | break (args : List BreakArg)
  | enable (id : BitVec 64)
  | disable (id : BitVec 64)
  | delete (id : BitVec 64)
deriving DecidableEq, Repr

def BpCommand.command : BpCommand → Command
  | .break args => .break args
  | .enable id => .enable [.id id]
  | .disable id => .disable [.id id]
  | .delete id => .delete [.id id]

def BpCommand.run (k : Kernel) (syms : Symbols) (w : World) (c : BpCommand) : Res World :=
  handleCommand k syms w c.command

/-- Whether the arguments of `break` stand for the same addresses in two states. A line without a
file does not when the file at the pc is not the first one of the executable. -/
def BreakAgree (k k' : Kernel) (syms : Symbols) : World × World → List BreakArg → Prop
  | _, [] => True
  | s, arg :: args => arg.targets k syms s.1 = arg.targets k' syms s.2 ∧
    ∀ s', both (cmdBreak k syms) (cmdBreak k' syms) s [arg] = .ok s' → BreakAgree k k' syms s' args

def BpCommand.Agrees (k k' : Kernel) (syms : Symbols) (s : World × World) : BpCommand → Prop
  | .break args => BreakAgree k k' syms s args
  | _ => True

/-- The same breakpoints, pending in one state and live in the other. -/
structure PendingLive (s : World × World) : Prop where
  pending : Ready s.1 []
  live : Ready s.2 []
  idle : s.1.state ≠ .active
  active : s.2.state = .active
  rows : s.2.rows = s.1.rows
  counter : s.2.globalIdCounter = s.1.globalIdCounter

section Agreement

variable {w w' : World} {s s' : World × World} {c : BpCommand} {cs : List BpCommand}

/-- Both states are edited alike. -/
theorem PendingLive.edited {es : List (Edit (BitVec 64) Addr)} (h : PendingLive s)
    (h₁ : EditedBy s.1 s'.1 es) (h₂ : EditedBy s.2 s'.2 es) : PendingLive s' := by
  refine ⟨h₁.ready, h₂.ready, by rw [h₁.state]; exact h.idle, by rw [h₂.state]; exact h.active, ?_,
    ?_⟩
  · rw [h₁.rows, h₂.rows, h.rows]
  · rw [h₁.counter, h₂.counter, h.counter]

theorem PendingLive.break {args : List BreakArg} (h : PendingLive s)
    (hagree : BreakAgree k k' syms s args)
    (hok : both (cmdBreak k syms) (cmdBreak k' syms) s args = .ok s') : PendingLive s' := by
  induction args generalizing s with
  | nil => cases hok; exact h
  | cons arg args ih =>
    obtain ⟨hokp, hokl⟩ := both_eq_ok.mp hok
    rcases hstops : arg.stops syms with - | -
    · obtain ⟨wp, hp, hokp⟩ := (cmdBreak_cons hstops).mp hokp
      obtain ⟨wl, hl, hokl⟩ := (cmdBreak_cons hstops).mp hokl
      have hsetp := cmdBreak_one_sets h.pending hp
      have hsetl := cmdBreak_one_sets h.live hl
      rw [Sets, hagree.1, ← h.counter] at hsetp
      have hnext : PendingLive (wp, wl) := h.edited hsetp hsetl
      exact ih hnext (hagree.2 _ (both_eq_ok.mpr ⟨hp, hl⟩)) (both_eq_ok.mpr ⟨hokp, hokl⟩)
    · rw [cmdBreak_of_stops args hstops] at hokp hokl
      have hs : s' = s := Prod.ext (Except.ok.inj hokp).symm (Except.ok.inj hokl).symm
      rwa [hs]

/-- A command that acts on the breakpoint of an id edits both states alike. -/
theorem PendingLive.forArgs {act act' : World → BpPtr → Res World} {id : BitVec 64}
    {e : BitVec 64 → Edit (BitVec 64) Addr}
    (haddr : ∀ rows id, (e id).addr rows = (rows.find? fun r => r.id = id).map Row.addr)
    (hact : ∀ {w b w'}, Ready w [] → act w b = .ok w' →
      ∃ bp, w.bps b = some bp ∧ Edited w w' (e bp.id))
    (hact' : ∀ {w b w'}, Ready w [] → act' w b = .ok w' →
      ∃ bp, w.bps b = some bp ∧ Edited w w' (e bp.id))
    (h : PendingLive s) (hokp : Vdbg.forArgs syms act s.1 [.id id] = .ok s'.1)
    (hokl : Vdbg.forArgs syms act' s.2 [.id id] = .ok s'.2) : PendingLive s' :=
  h.edited (forArgs_id_edited (haddr _) (hact h.pending) h.pending hokp).by
    (forArgs_id_edited (haddr _) (hact' h.live) h.live hokl).by

/-- A command on breakpoints, given in both states. -/
theorem PendingLive.command (h : PendingLive s) (hagree : c.Agrees k k' syms s)
    (hok : both (BpCommand.run k syms) (BpCommand.run k' syms) s c = .ok s') :
    PendingLive s' := by
  obtain ⟨hokp, hokl⟩ := both_eq_ok.mp hok
  have henable : ∀ {k : Kernel} {w b w'}, Ready w [] → bpEnable k w b = .ok w' →
      ∃ bp, w.bps b = some bp ∧ Edited w w' (.enable bp.id) := by
    intro k w b w' hready hact
    obtain ⟨bp, hb, -, hedit⟩ := bpEnable_edited hready hact
    exact ⟨bp, hb, hedit⟩
  have hdisable : ∀ {k : Kernel} {w b w'}, Ready w [] → bpDisable k w b = .ok w' →
      ∃ bp, w.bps b = some bp ∧ Edited w w' (.disable bp.id) := by
    intro k w b w' hready hact
    obtain ⟨bp, hb, -, hedit⟩ := bpDisable_edited hready hact
    exact ⟨bp, hb, hedit⟩
  cases c with
  | «break» args => exact h.break hagree (both_eq_ok.mpr ⟨hokp, hokl⟩)
  | enable id => exact h.forArgs (fun _ _ => rfl) henable henable hokp hokl
  | disable id => exact h.forArgs (fun _ _ => rfl) hdisable hdisable hokp hokl
  | delete id =>
    exact h.forArgs (fun _ _ => rfl) removeBreakpoint_edited removeBreakpoint_edited hokp hokl

end Agreement

/-! ## Pending and live agree -/

section Agree

variable {k₁ k₂ k₃ : Kernel}

/-- **Pending breakpoints resolve to what live ones are** in every run whose commands all keep the
patches of a replay: commands given before the start and the same ones given after it patch the same
addresses, and a tracee that replaces another one is patched as that one was. -/
theorem resolution_agrees :
    (∀ {w w₁ w₂ wp wl : World} {cs : List BpCommand}, Ready w [] → w.state ≠ .active →
      -- the commands, and then the start
      cs.foldlM (BpCommand.run k syms) w = .ok w₁ → Started k₁ syms w₁ wp →
      -- the start, and then the commands
      Started k₂ syms w w₂ → cs.foldlM (BpCommand.run k' syms) w₂ = .ok wl →
      wp.loadAddress = wl.loadAddress →
      Along (both (BpCommand.run k syms) (BpCommand.run k' syms)) (BpCommand.Agrees k k' syms)
        (w, w₂) cs →
      Along (BpCommand.run k' syms) (fun w c => c.command.Keeps k' syms w) w₂ cs →
      wp.isPatched = wl.isPatched) ∧
    ∀ {w w₁ w' : World} {cs : List Command}, session k syms dbgInit cs = .ok w →
      w.state = .active → killTracee k w = .ok w₁ → Started k₃ syms w₁ w' →
      w'.loadAddress = w.loadAddress →
      Along (handleCommand k syms) (fun w c => c.Keeps k syms w) dbgInit cs →
      w'.isPatched = w.isPatched := by
  constructor
  · intro w w₁ w₂ wp wl cs h hidle hpend hstart hstart' hlive hload hagree hkeeps
    obtain ⟨hspawned, hact⟩ := hstart'.spawned h hidle
    have hstarted : PendingLive (w, w₂) :=
      ⟨h, hspawned.ready, hidle, hact, hspawned.rows, hspawned.counter⟩
    have hboth : PendingLive (w₁, wl) :=
      hagree.invariant (fun _ _ _ h hC h1 => h.command hC h1) hstarted
        (foldlM_both_eq_ok.mpr ⟨hpend, hlive⟩)
    have hsettled : Settled wl :=
      hkeeps.invariant (fun _ _ _ h hC h1 => h.command hC h1) hspawned.settled hlive
    obtain ⟨hspawned', hact'⟩ := hstart.spawned hboth.pending hboth.idle
    exact isPatched_eq_of_resolved (hsettled.resolved hboth.active) (hspawned'.resolved hact')
      (hspawned'.rows.trans hboth.rows.symm) hload
  · intro w w₁ w' cs hsession hact hkill hstart hload hkeeps
    have hsettled := dbgInit_settled.session hkeeps hsession
    obtain ⟨hkept, hidle⟩ := killTracee_kept hsettled.ready hkill
    obtain ⟨hspawned, hact'⟩ := hstart.spawned hkept.ready hidle
    exact isPatched_eq_of_resolved (hsettled.resolved hact) (hspawned.resolved hact')
      (hspawned.rows.trans hkept.rows) hload

/-- A process that stops after `execv` and stops again once it is resumed, two times over. -/
def Kernel.twice : Kernel := .scripted (fun _ => 0) [.stopped ⟨SIGTRAP, 0⟩, .stopped ⟨SIGABRT, 0⟩,
  .stopped ⟨SIGTRAP, 0⟩, .stopped ⟨SIGABRT, 0⟩]

/-- Breakpoints on one address are switched and deleted, pending and live, and at a respawn. -/
theorem resolution_agrees_three :
    (∃ w₁ w₂ wp wl, [BpCommand.break [.addr 0x401000, .addr 0x401000], .disable 1, .disable 2,
        .break [.addr 0x401004]].foldlM (BpCommand.run .twice .stripped) dbgInit = .ok w₁ ∧
      spawnTracee .twice .stripped w₁ = .ok wp ∧ spawnTracee .twice .stripped dbgInit = .ok w₂ ∧
      [BpCommand.break [.addr 0x401000, .addr 0x401000], .disable 1, .disable 2,
        .break [.addr 0x401004]].foldlM (BpCommand.run .twice .stripped) w₂ = .ok wl ∧
      wp.isPatched = wl.isPatched) ∧
    ∃ w w₁ w', session .twice .stripped dbgInit [.break [.addr 0x401000, .addr 0x401000],
        .run true, .disable [.id 1, .id 2], .enable [.id 1, .id 2], .delete [.id 2],
        .break [.addr 0x401004]] = .ok w ∧ killTracee .twice w = .ok w₁ ∧
      spawnTracee .twice .stripped w₁ = .ok w' ∧ w'.isPatched = w.isPatched := by
  constructor
  · set cs := [BpCommand.break [.addr 0x401000, .addr 0x401000], .disable 1, .disable 2,
      .break [.addr 0x401004]]
    obtain ⟨w₁, h₁, hp⟩ := exists_of_any (p := fun w => (spawnTracee .twice .stripped w).toOption.any
        fun w' => w'.state = .active ∧ w'.loadAddress = 0)
      (x := cs.foldlM (BpCommand.run .twice .stripped) dbgInit) (by decide +kernel)
    obtain ⟨w₂, h₂, hl⟩ := exists_of_any (p := fun w => w.state = .active ∧
        ((cs.foldlM (BpCommand.run .twice .stripped) w).toOption.any fun w' => w'.loadAddress = 0) ∧
        Along (BpCommand.run .twice .stripped) (fun w c => c.command.Keeps .twice .stripped w) w cs)
      (x := spawnTracee .twice .stripped dbgInit) (by decide +kernel)
    obtain ⟨wp, hwp, hp⟩ := exists_of_any hp
    simp only [decide_eq_true_eq] at hp hl
    obtain ⟨hact, hlive, hkeeps⟩ := hl
    obtain ⟨wl, hwl, hload⟩ := exists_of_any hlive
    have hagrees : Along (both (BpCommand.run .twice .stripped) (BpCommand.run .twice .stripped))
        (BpCommand.Agrees .twice .twice .stripped) (dbgInit, w₂) cs :=
      ⟨⟨rfl, fun _ _ => ⟨rfl, fun _ _ => trivial⟩⟩, fun _ _ => ⟨trivial, fun _ _ => ⟨trivial,
        fun _ _ => ⟨⟨rfl, fun _ _ => trivial⟩, fun _ _ => trivial⟩⟩⟩⟩
    exact ⟨w₁, w₂, wp, wl, h₁, hwp, h₂, hwl, (@resolution_agrees _ _ _ _ _ .twice).1 dbgInit_ready
      (by decide) h₁ (.inr ⟨hwp, hp.1⟩) (.inr ⟨h₂, hact⟩) hwl
      (hp.2.trans (of_decide_eq_true hload).symm) hagrees hkeeps⟩
  · set cs := [Command.break [.addr 0x401000, .addr 0x401000], .run true,
      .disable [.id 1, .id 2], .enable [.id 1, .id 2], .delete [.id 2], .break [.addr 0x401004]]
    obtain ⟨w, hw, hp⟩ := exists_of_any (p := fun w => (w.state = .active ∧ w.loadAddress = 0) ∧
        (killTracee .twice w >>= spawnTracee .twice .stripped).toOption.any
          fun w' => w'.state = .active ∧ w'.loadAddress = 0)
      (x := session .twice .stripped dbgInit cs) (by decide +kernel)
    have hkeeps : Along (handleCommand .twice .stripped) (fun w c => c.Keeps .twice .stripped w)
        dbgInit cs := by
      decide +kernel
    simp only [decide_eq_true_eq] at hp
    obtain ⟨⟨hact, hload⟩, hrespawn⟩ := hp
    obtain ⟨w', hw', hp⟩ := exists_of_any hrespawn
    obtain ⟨w₁, hkill, hspawn⟩ := bind_eq_ok.mp hw'
    simp only [decide_eq_true_eq] at hp
    exact ⟨w, w₁, w', hw, hkill, hspawn, (@resolution_agrees _ .twice _ .twice .twice
      _).2 hw hact hkill (.inr ⟨hspawn, hp.1⟩) (hp.2.trans hload.symm) hkeeps⟩

/-- The second of two breakpoints at an address is disabled: the address stays patched when that is
done live, and is not patched when it was done before the start, or after a restart. -/
theorem disable_last_unresolved : ∃ wp wl w',
    session .twice .stripped dbgInit [.break [.addr 0x401000], .break [.addr 0x401000],
      .disable [.id 2], .run true] = .ok wp ∧
    session .twice .stripped dbgInit [.run true, .break [.addr 0x401000], .break [.addr 0x401000],
      .disable [.id 2]] = .ok wl ∧
    restart .twice .stripped wl = .ok w' ∧ wp.loadAddress = wl.loadAddress ∧
    w'.loadAddress = wl.loadAddress ∧ wl.isPatched 0x401000 = true ∧
    wp.isPatched 0x401000 = false ∧ w'.isPatched 0x401000 = false := by
  obtain ⟨wp, hwp, hp⟩ := exists_of_any
    (p := fun w => w.loadAddress = 0 ∧ w.isPatched 0x401000 = false)
    (x := session .twice .stripped dbgInit [.break [.addr 0x401000], .break [.addr 0x401000],
      .disable [.id 2], .run true]) (by decide +kernel)
  obtain ⟨wl, hwl, hl⟩ := exists_of_any
    (p := fun w => (w.loadAddress = 0 ∧ w.isPatched 0x401000 = true) ∧
      (restart .twice .stripped w).toOption.any fun w' =>
        w'.loadAddress = 0 ∧ w'.isPatched 0x401000 = false)
    (x := session .twice .stripped dbgInit [.run true, .break [.addr 0x401000],
      .break [.addr 0x401000], .disable [.id 2]]) (by decide +kernel)
  simp only [decide_eq_true_eq] at hp hl
  obtain ⟨⟨hload, hpatched⟩, hrestart⟩ := hl
  obtain ⟨w', hw', hp'⟩ := exists_of_any hrestart
  simp only [decide_eq_true_eq] at hp'
  exact ⟨wp, wl, w', hwp, hwl, hw', hp.1.trans hload.symm, hp'.1.trans hload.symm, hpatched, hp.2,
    hp'.2⟩

end Agree

end Vdbg
