import Vdbg.Session

/-!
# Breakpoints that share a location

At a prompt with an active tracee a location should be patched exactly when one of its breakpoints
is enabled (`TrapsEnabled`). Setting and disabling breakpoints keeps this, enabling or disabling
all of them as well. Enabling a single one keeps it exactly under `BpOp.harmless`: `bp_enable` wants
every breakpoint of the list enabled before it patches, so a disabled location with two breakpoints
stays unpatched when one of them is enabled.
-/

namespace Vdbg

open FaultRun

variable {k : Kernel} {syms : Symbols}

/-! ## Several edits -/

/-- A sequence of edits at a prompt. -/
structure EditedBy (w w' : World) (es : List (Edit (BitVec 64) Addr)) : Prop where
  ready : Ready w' []
  rows : w'.rows = es.foldl Row.edit w.rows
  table : w.state = .active → w'.table = w.table.run es
  state : w'.state = w.state
  loadAddress : w'.loadAddress = w.loadAddress
  counter : w'.globalIdCounter = es.foldl Edit.count w.globalIdCounter

section EditedBy

variable {w w' w₁ : World} {e : Edit (BitVec 64) Addr} {es es' : List (Edit (BitVec 64) Addr)}

theorem EditedBy.nil (h : Ready w []) : EditedBy w w [] :=
  ⟨h, rfl, fun _ => rfl, rfl, rfl, rfl⟩

theorem Edited.by (h : Edited w w' e) : EditedBy w w' [e] :=
  ⟨h.ready, h.rows, h.table, h.state, h.loadAddress, h.counter⟩

theorem EditedBy.append (h : EditedBy w w₁ es) (h' : EditedBy w₁ w' es') :
    EditedBy w w' (es ++ es') := by
  refine ⟨h'.ready, ?_, fun ha => ?_, h'.state.trans h.state, h'.loadAddress.trans h.loadAddress, ?_⟩
  · rw [List.foldl_append, ← h.rows, h'.rows]
  · rw [Table.run, List.foldl_append, h'.table (h.state.trans ha), h.table ha]
    rfl
  · rw [List.foldl_append, ← h.counter, h'.counter]

/-- The ids of listed breakpoints. -/
def World.ids (w : World) (bs : List BpPtr) : List (BitVec 64) :=
  bs.filterMap fun b => (w.bps b).map Breakpoint.id

theorem map_id_rows (w : World) : w.rows.map Row.id = w.ids w.pendingBreakpoints := by
  rw [World.rows, List.map_filterMap, World.ids]
  refine List.filterMap_congr fun b _ => ?_
  rw [World.row, Option.map_map]
  rfl

/-- A loop that sets a flag at every listed breakpoint, by induction on the list. -/
theorem flagAll_edited {act : World → BpPtr → Res World} {e : Bool} {bs : List BpPtr}
    (hact : ∀ {w b w'}, Ready w [] → act w b = .ok w' → ∃ bp, w.bps b = some bp ∧
      w'.bps = Function.update w.bps b (some { bp with enable := e }) ∧
      Edited w w' (.flag e bp.id))
    (h : Ready w []) (hok : bs.foldlM act w = .ok w') :
    EditedBy w w' ((w.ids bs).map (Edit.flag e)) := by
  induction bs generalizing w with
  | nil => cases hok; exact .nil h
  | cons b bs ih =>
    obtain ⟨w₁, h1, hok⟩ := foldlM_cons_eq_ok.mp hok
    obtain ⟨bp, hb, hbps, hedit⟩ := hact h h1
    have hids : w₁.ids bs = w.ids bs := by
      refine List.filterMap_congr fun q _ => ?_
      rw [hbps]
      by_cases hq : q = b
      · subst hq; simp [hb]
      · simp [hq]
    have hcons : w.ids (b :: bs) = bp.id :: w.ids bs :=
      List.filterMap_cons_some (by rw [hb, Option.map_some])
    have hrest := ih hedit.ready hok
    rw [hids] at hrest
    rw [hcons, List.map_cons]
    exact hedit.by.append hrest

theorem enableAllBreakpoints_edited (h : Ready w []) (hok : enableAllBreakpoints k w = .ok w') :
    EditedBy w w' ((w.rows.map Row.id).map .enable) := by
  rw [map_id_rows]
  exact flagAll_edited (e := true) bpEnable_edited h hok

theorem disableAllBreakpoints_edited (h : Ready w []) (hok : disableAllBreakpoints k w = .ok w') :
    EditedBy w w' ((w.rows.map Row.id).map .disable) := by
  rw [map_id_rows]
  exact flagAll_edited (e := false) bpDisable_edited h hok

end EditedBy

/-! ## Enabled breakpoints trap -/

/-- A user location is patched exactly when a breakpoint attached to it is enabled. -/
def TrapsEnabled (w : World) : Prop :=
  ∀ a p loc, mapLookup w.bpLocations a = some p → w.locs p = some loc → loc.isTemp = false →
    (loc.patched = true ↔ ∃ b ∈ loc.bpList, w.enabled b = true)

/-- What may be done to the breakpoints of a running tracee short of deleting them. -/
inductive BpOp where
  | set (kind : BpKind) (addr : Addr)
  | enable (b : BpPtr)
  | disable (b : BpPtr)
  | enableAll
  | disableAll
deriving DecidableEq, Repr

def BpOp.run (k : Kernel) (w : World) : BpOp → Res World
  | .set .addr addr => setBreakpointAtAddr k w addr
  | .set kind addr => setBreakpointOfKind k w kind addr
  | .enable b => bpEnable k w b
  | .disable b => bpDisable k w b
  | .enableAll => enableAllBreakpoints k w
  | .disableAll => disableAllBreakpoints k w

/-- Whether an operation leaves no enabled breakpoint without a patch: at the location of a
breakpoint that `bp_enable` enables another one is enabled already, or it is alone there. -/
def BpOp.harmless (w : World) : BpOp → Bool
  | .enable b => (((w.bps b).bind Breakpoint.location).bind w.locs).all fun loc =>
      loc.bpList.any w.enabled || loc.bpList = [b]
  | _ => true

section Traps

variable {w w' : World} {b : BpPtr} {bp : Breakpoint}

theorem BpOp.run_set (k : Kernel) (w : World) (kind : BpKind) (a : Addr) :
    (BpOp.set kind a).run k w = setBreakpointOfKind k w kind a := by
  cases kind with
  | addr => exact setBreakpointAtAddr_eq a
  | symbol name => rfl
  | lineno file line => rfl

/-- The two ways to say it agree: over the locations, and over the table. -/
theorem trapsEnabled_iff (h : Ready w []) (ha : w.state = .active) :
    TrapsEnabled w ↔ w.table.Trapping := by
  have hlist : ∀ {p loc}, w.locs p = some loc → ∀ a, loc.runningAddr = a + w.loadAddress →
      (Row.sharing w.rows a).any Row.enable = loc.bpList.any w.enabled := by
    intro p loc hp a hrun
    rw [World.sharing_rows, World.any_enabled_rows, ← hrun, ← h.active_att ha,
      ← h.attached.list_user hp (h.planted.user hp)]
  constructor
  · intro ht a
    show w.isPatched (a + w.loadAddress) = _
    rcases hp : mapLookup w.bpLocations (a + w.loadAddress) with - | p
    · rw [World.isPatched_absent hp]
      show false = (Row.sharing w.rows a).any Row.enable
      rw [World.sharing_rows, ← h.active_att ha, h.attached.runningAt_absent hp]
      rfl
    · obtain ⟨loc, hloc, hrun⟩ := h.attached.stored _ p hp
      rw [World.isPatched_eq hp hloc, Bool.eq_iff_iff,
        ht _ p loc hp hloc (h.planted.user hloc)]
      show _ ↔ (Row.sharing w.rows a).any Row.enable = true
      rw [hlist hloc a hrun, List.any_eq_true]
  · intro ht a p loc hp hloc _
    obtain ⟨loc', hloc', hrun⟩ := h.attached.stored a p hp
    obtain rfl := Option.some.inj (hloc.symm.trans hloc')
    have hrow := ht (a - w.loadAddress)
    have hback : a - w.loadAddress + w.loadAddress = a := BitVec.sub_add_cancel ..
    rw [show w.table.patched (a - w.loadAddress) = loc.patched by
      rw [← World.isPatched_eq hp hloc]
      exact congrArg w.isPatched hback] at hrow
    rw [hrow, ← List.any_eq_true]
    show (Row.sharing w.rows (a - w.loadAddress)).any Row.enable = true ↔ _
    rw [hlist hloc _ (hrun.trans hback.symm)]

/-- The breakpoints at the address of `b`, as rows and as the list of its location. -/
theorem Ready.sharing_location (h : Ready w []) (ha : w.state = .active) (hb : w.bps b = some bp) :
    ∃ p loc, bp.location = some p ∧ w.locs p = some loc ∧ b ∈ loc.bpList ∧
      (∀ q ∈ loc.bpList, (w.bps q).isSome) ∧
      Row.sharing w.rows bp.instrAddr = loc.bpList.filterMap w.row := by
  obtain ⟨p, loc, hl, hp, -, -, -, hlist⟩ := h.location ha hb
  refine ⟨p, loc, hl, hp, ?_, h.attached.listed_live hp, ?_⟩
  · rw [hlist]
    exact World.mem_runningAt.mpr ⟨h.registry.mem hb, World.target_eq hb⟩
  · rw [World.sharing_rows, ← hlist]

/-- A breakpoint is alone in a list exactly when its row is. -/
theorem filterMap_row_eq_singleton {bs : List BpPtr} {r : Row (BitVec 64) Addr} (hmem : b ∈ bs)
    (hlive : ∀ q ∈ bs, (w.bps q).isSome) (hr : w.row b = some r) :
    bs.filterMap w.row = [r] ↔ bs = [b] := by
  constructor
  · intro he
    have hlen : (bs.filterMap w.row).length = bs.length :=
      List.filterMap_length_eq_length.mpr fun q hq => by
        rw [World.row, Option.isSome_map]
        exact hlive q hq
    rw [he, List.length_singleton] at hlen
    obtain ⟨q, rfl⟩ := List.length_eq_one_iff.mp hlen.symm
    rw [List.mem_singleton.mp hmem]
  · rintro rfl
    rw [List.filterMap_cons_some hr, List.filterMap_nil]

theorem harmless_enable_iff (h : Ready w []) (ha : w.state = .active) (hb : w.bps b = some bp) :
    (BpOp.enable b).harmless w = true ↔ w.table.KeepsTrapping (.enable bp.id) := by
  obtain ⟨p, loc, hl, hp, hmem, hlive, hsharing⟩ := h.sharing_location ha hb
  have hunique : ∀ r ∈ w.rows, r.id = bp.id → r = ⟨bp.id, bp.instrAddr, bp.enable⟩ :=
    fun r hr hid => List.inj_on_of_nodup_map h.registry.nodup_ids hr (h.registry.mem_rows hb) hid
  have hkeeps : w.table.KeepsTrapping (.enable bp.id) ↔
      (∃ q ∈ Row.sharing w.rows bp.instrAddr, q.enable = true) ∨
        Row.sharing w.rows bp.instrAddr = [⟨bp.id, bp.instrAddr, bp.enable⟩] :=
    ⟨fun hk => hk _ (h.registry.mem_rows hb) rfl, fun hk r hr hid => hunique r hr hid ▸ hk⟩
  rw [hkeeps, hsharing, filterMap_row_eq_singleton hmem hlive (World.row_eq hb),
    ← List.any_eq_true, World.any_enabled_rows, BpOp.harmless, hb, Option.bind_some, hl,
    Option.bind_some, hp, Option.all_some, Bool.or_eq_true, decide_eq_true_iff]

/-- The edits of the table an operation makes. -/
def BpOp.edits (w : World) : BpOp → List (Edit (BitVec 64) Addr)
  | .set _ a => [.set w.globalIdCounter a]
  | .enable b => (w.ids [b]).map .enable
  | .disable b => (w.ids [b]).map .disable
  | .enableAll => (w.rows.map Row.id).map .enable
  | .disableAll => (w.rows.map Row.id).map .disable

theorem ids_singleton (hb : w.bps b = some bp) : w.ids [b] = [bp.id] :=
  List.filterMap_cons_some (by rw [hb, Option.map_some])

theorem BpOp.run_edited {op : BpOp} (h : Ready w []) (hok : op.run k w = .ok w') :
    EditedBy w w' (op.edits w) := by
  cases op with
  | set kind a =>
    rw [BpOp.run_set] at hok
    exact (setBreakpointOfKind_edited h hok).by
  | enable b =>
    obtain ⟨bp, hb, -, hedit⟩ := bpEnable_edited h hok
    rw [BpOp.edits, ids_singleton hb]
    exact hedit.by
  | disable b =>
    obtain ⟨bp, hb, -, hedit⟩ := bpDisable_edited h hok
    rw [BpOp.edits, ids_singleton hb]
    exact hedit.by
  | enableAll => exact enableAllBreakpoints_edited h hok
  | disableAll => exact disableAllBreakpoints_edited h hok

/-- One operation keeps `Trapping` exactly when it is harmless. -/
theorem BpOp.trapping_iff {op : BpOp} (h : Ready w []) (ha : w.state = .active)
    (ht : w.table.Trapping) : (w.table.run (op.edits w)).Trapping ↔ op.harmless w = true := by
  have hn := h.registry.nodup_ids
  cases op with
  | set kind a => exact iff_of_true (ht.set _ _) rfl
  | enable b =>
    rcases hb : w.bps b with - | bp
    · refine iff_of_true ?_ (by simp [BpOp.harmless, hb])
      rw [BpOp.edits, World.ids, List.filterMap_cons_none (by rw [hb]; rfl)]
      exact ht
    · rw [BpOp.edits, ids_singleton hb, harmless_enable_iff h ha hb]
      exact ht.edit_iff hn _
  | disable b => exact iff_of_true (ht.disableAll hn _) rfl
  | enableAll => exact iff_of_true (ht.enableAll hn) rfl
  | disableAll => exact iff_of_true (ht.disableAll hn _) rfl

/-- A harmless operation leaves the enabled breakpoints trapping. -/
theorem BpOp.run_harmless {op : BpOp} (hP : (Ready w [] ∧ w.state = .active) ∧ TrapsEnabled w)
    (hharmless : op.harmless w = true) (hok : op.run k w = .ok w') :
    (Ready w' [] ∧ w'.state = .active) ∧ TrapsEnabled w' := by
  obtain ⟨⟨h, ha⟩, ht⟩ := hP
  have hedit := BpOp.run_edited h hok
  have ha' := hedit.state.trans ha
  refine ⟨⟨hedit.ready, ha'⟩, (trapsEnabled_iff hedit.ready ha').mpr ?_⟩
  rw [hedit.table ha]
  exact (BpOp.trapping_iff h ha ((trapsEnabled_iff h ha).mp ht)).mpr hharmless

/-- Only the enabling of a live breakpoint can do harm. -/
theorem BpOp.run_ok_of_harm {op : BpOp} (h : Ready w []) (ha : w.state = .active)
    (hharm : ¬op.harmless w = true) : ∃ w', op.run k w = .ok w' := by
  cases op with
  | enable b =>
    rcases hb : w.bps b with - | bp
    · exact absurd (by simp [BpOp.harmless, hb]) hharm
    · obtain ⟨p, loc, hl, hp, ht, -⟩ := h.location ha hb
      exact ⟨_, bpEnable_attached_eq hb hl hp ht (h.attached.listed_live hp)⟩
  | set kind a => exact absurd rfl hharm
  | disable b => exact absurd rfl hharm
  | enableAll => exact absurd rfl hharm
  | disableAll => exact absurd rfl hharm

/-- **Enabled breakpoints trap** after every operation of a run exactly when all of its operations
are harmless. -/
theorem run_trapsEnabled_iff {ops : List BpOp} (h : Ready w []) (ha : w.state = .active)
    (ht : TrapsEnabled w) :
    (∀ pre, pre <+: ops → ∀ w', pre.foldlM (BpOp.run k) w = .ok w' → TrapsEnabled w') ↔
      Along (BpOp.run k) (fun w op => op.harmless w = true) w ops := by
  have hready : ∀ {pre w'}, List.foldlM (BpOp.run k) w pre = .ok w' →
      Ready w' [] ∧ w'.state = .active := by
    intro pre w' hrun
    refine FaultRun.invariant (P := fun w => Ready w [] ∧ w.state = .active)
      (fun w op w' hP hok => ?_) ⟨h, ha⟩ hrun
    have hedit := BpOp.run_edited hP.1 hok
    exact ⟨hedit.ready, hedit.state.trans hP.2⟩
  refine Iff.trans ?_ (forall_prefix_iff
    (P := fun w => (Ready w [] ∧ w.state = .active) ∧ w.table.Trapping)
    (C := fun w (op : BpOp) => op.harmless w = true) (fun w op w' hP hok => ?_)
    (fun w op hP => BpOp.run_ok_of_harm hP.1.1 hP.1.2) ⟨⟨h, ha⟩, (trapsEnabled_iff h ha).mp ht⟩)
  · refine forall₂_congr fun pre _ => forall₂_congr fun w' hrun => ?_
    obtain ⟨hr, hact⟩ := hready hrun
    rw [trapsEnabled_iff hr hact, and_iff_right ⟨hr, hact⟩]
  · have hedit := BpOp.run_edited hP.1.1 hok
    rw [and_iff_right ⟨hedit.ready, hedit.state.trans hP.1.2⟩, hedit.table hP.1.2]
    exact BpOp.trapping_iff hP.1.1 hP.1.2 hP.2

/-- A tracee that was just started, without breakpoints. -/
theorem startTracee_trapsEnabled (hok : startTracee k syms dbgInit = .ok w) :
    Ready w [] ∧ w.state = .active ∧ TrapsEnabled w := by
  obtain ⟨hspawned, hact⟩ := startTracee_spawned dbgInit_ready (by decide) hok
  refine ⟨hspawned.ready, hact, (trapsEnabled_iff hspawned.ready hact).mpr ?_⟩
  rw [hspawned.table hact]
  intro a
  rfl

/-- A process that stops after `execv`, and waits. -/
def Kernel.idle : Kernel := .scripted (fun _ => 0) [.stopped ⟨SIGTRAP, 0⟩]

/-- Two breakpoints on one address and one on another, disabled and enabled again. -/
theorem run_trapsEnabled_iff_three : ∃ w, startTracee .idle .stripped dbgInit = .ok w ∧
    ((∀ pre, pre <+: [BpOp.set .addr 0x401000, .set .addr 0x401000, .set .addr 0x401004, .disable 0,
        .enable 0, .disableAll, .enableAll] → ∀ w', pre.foldlM (BpOp.run .idle) w = .ok w' →
        TrapsEnabled w') ↔
      Along (BpOp.run .idle) (fun w op => op.harmless w = true) w
        [.set .addr 0x401000, .set .addr 0x401000, .set .addr 0x401004, .disable 0, .enable 0,
          .disableAll, .enableAll]) := by
  obtain ⟨w, hw, -⟩ := exists_of_any (p := fun _ => true)
    (x := startTracee .idle .stripped dbgInit) (by decide +kernel)
  obtain ⟨h, ha, ht⟩ := startTracee_trapsEnabled hw
  exact ⟨w, hw, run_trapsEnabled_iff h ha ht⟩

/-- Two breakpoints on one address, both disabled and one of them enabled again: it does not trap. -/
theorem enable_leaves_unpatched : ∃ w w', startTracee .idle .stripped dbgInit = .ok w ∧
    w.state = .active ∧ TrapsEnabled w ∧
    [BpOp.set .addr 0x401000, .set .addr 0x401000, .disableAll, .enable 0].foldlM
      (BpOp.run .idle) w = .ok w' ∧ ¬TrapsEnabled w' := by
  obtain ⟨w', hrun, hp⟩ := exists_of_any
    (p := fun w => ((mapLookup w.bpLocations 0x401000).bind w.locs).any fun loc =>
      !loc.isTemp && !loc.patched && loc.bpList.any w.enabled)
    (x := startTracee .idle .stripped dbgInit >>= [BpOp.set .addr 0x401000, .set .addr 0x401000,
      .disableAll, .enable 0].foldlM (BpOp.run .idle)) (by decide +kernel)
  obtain ⟨w, hw, hrun⟩ := bind_eq_ok.mp hrun
  obtain ⟨-, ha, ht⟩ := startTracee_trapsEnabled hw
  refine ⟨w, w', hw, ha, ht, hrun, fun ht' => ?_⟩
  obtain ⟨loc, hbind, hp⟩ := (Option.any_eq_true _ _).mp hp
  obtain ⟨p, hlookup, hloc⟩ := Option.bind_eq_some_iff.mp hbind
  simp only [Bool.and_eq_true, Bool.not_eq_true', List.any_eq_true] at hp
  obtain ⟨⟨htemp, hpatched⟩, henabled⟩ := hp
  have htraps := (ht' _ p loc hlookup hloc htemp).mpr henabled
  rw [hpatched] at htraps
  cases htraps

end Traps

end Vdbg
