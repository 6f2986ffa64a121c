import Vdbg.Resolution

/-!
# The registries

A breakpoint is in two registries: the pending list and the map of ids. The two agree at every prompt
of every session, and ids are handed out in increasing order, each of them once: a command either
appends breakpoints with the next ids, or it keeps or drops breakpoints and hands out no id.
-/

namespace Vdbg

open FaultRun

variable {k : Kernel} {syms : Symbols} {w w' w₁ : World}

/-- The last id that was handed out, 0 before the first one. -/
def World.lastId (w : World) : BitVec 64 := w.globalIdCounter - 1

/-- The ids on the pending list. -/
def World.pendingIds (w : World) : List (BitVec 64) := w.ids w.pendingBreakpoints

/-- The ids of `w'` that `w` does not have. -/
def newIds (w w' : World) : List (BitVec 64) :=
  w'.pendingIds.filter fun id => id ∉ w.pendingIds

/-- The ids that the commands of a session handed out, the first one first. -/
def handedOut (k : Kernel) (syms : Symbols) : World → List Command → List (BitVec 64)
  | _, [] => []
  | w, c :: cs =>
    match handleCommand k syms w c with
    | .ok w' => newIds w w' ++ handedOut k syms w' cs
    | .error _ => []

theorem handedOut_cons {c : Command} {cs : List Command}
    (hok : handleCommand k syms w c = .ok w') :
    handedOut k syms w (c :: cs) = newIds w w' ++ handedOut k syms w' cs := by
  rw [handedOut, hok]

/-! ## What one command does to the ids -/

/-- The ids handed out between two states, as many as the last id has moved. -/
structure Counted (w w' : World) (ids : List (BitVec 64)) : Prop where
  sorted : ids.Pairwise (· < ·)
  after : ∀ id ∈ ids, w.lastId < id ∧ id ≤ w'.lastId
  count : w'.lastId.toNat = w.lastId.toNat + ids.length

/-- Breakpoints with new ids are appended. -/
structure Issued (w w' : World) (ids : List (BitVec 64)) : Prop extends Counted w w' ids where
  pending : w'.pendingIds = w.pendingIds ++ ids

/-- Breakpoints are kept or dropped. -/
structure Dropped (w w' : World) : Prop where
  pending : w'.pendingIds.Sublist w.pendingIds
  counter : w'.globalIdCounter = w.globalIdCounter

theorem Dropped.refl (w : World) : Dropped w w := ⟨.refl _, rfl⟩

theorem Dropped.trans (h : Dropped w w₁) (h' : Dropped w₁ w') : Dropped w w' :=
  ⟨h'.pending.trans h.pending, h'.counter.trans h.counter⟩

theorem pendingIds_eq (w : World) : w.pendingIds = w.rows.map Row.id := (map_id_rows w).symm

theorem Dropped.of_rows (hrows : w'.rows = w.rows)
    (hcounter : w'.globalIdCounter = w.globalIdCounter) : Dropped w w' := by
  refine ⟨?_, hcounter⟩
  rw [pendingIds_eq, pendingIds_eq, hrows]

theorem Kept.dropped (h : Kept w w') : Dropped w w' := .of_rows h.rows h.counter

theorem Spawned.dropped (h : Spawned w w') : Dropped w w' := .of_rows h.rows h.counter

/-- An edit that sets no breakpoint. -/
theorem Edited.dropped {e : Edit (BitVec 64) Addr} (h : Edited w w' e)
    (he : ∀ id a, e ≠ .set id a) : Dropped w w' := by
  refine ⟨?_, ?_⟩
  · rw [pendingIds_eq, pendingIds_eq, h.rows]
    cases e with
    | set id a => exact absurd rfl (he id a)
    | enable id => rw [Row.edit, Row.map_id_setEnable]
    | disable id => rw [Row.edit, Row.map_id_setEnable]
    | delete id => exact List.filter_sublist.map _
  · rw [h.counter]
    cases e with
    | set id a => exact absurd rfl (he id a)
    | _ => rfl

/-- A flag is set at breakpoints, one after the other. -/
theorem map_id_flags (e : Bool) (ids : List (BitVec 64)) (rows : List (Row (BitVec 64) Addr)) :
    ((ids.map (Edit.flag e)).foldl Row.edit rows).map Row.id = rows.map Row.id := by
  induction ids generalizing rows with
  | nil => rfl
  | cons id ids ih =>
    rw [List.map_cons, List.foldl_cons, ih]
    cases e with
    | false => exact Row.map_id_setEnable
    | true => exact Row.map_id_setEnable

theorem count_flags (e : Bool) (ids : List (BitVec 64)) (c : BitVec 64) :
    (ids.map (Edit.flag e)).foldl Edit.count c = c := by
  induction ids with
  | nil => rfl
  | cons id ids ih =>
    cases e with
    | false => exact ih
    | true => exact ih

theorem EditedBy.dropped {e : Bool} {ids : List (BitVec 64)}
    (h : EditedBy w w' (ids.map (Edit.flag e))) : Dropped w w' := by
  refine ⟨?_, h.counter.trans (count_flags e ids _)⟩
  rw [pendingIds_eq, pendingIds_eq, h.rows, map_id_flags]

/-! ### Breakpoints that are set -/

/-- `n` ids from `c` on. -/
def idsFrom (c : BitVec 64) : ℕ → List (BitVec 64)
  | 0 => []
  | n + 1 => c :: idsFrom (c + 1) n

section IdsFrom

variable {c id : BitVec 64} {n : ℕ}

@[simp] theorem length_idsFrom (c : BitVec 64) (n : ℕ) : (idsFrom c n).length = n := by
  induction n generalizing c with
  | zero => rfl
  | succ n ih => rw [idsFrom, List.length_cons, ih]

theorem toNat_pred_succ (hc : c ≠ 0) : (c + 1 - 1).toNat = (c - 1).toNat + 1 := by
  have hpos : c.toNat ≠ 0 := fun he => hc (BitVec.eq_of_toNat_eq he)
  bv_omega

theorem mem_idsFrom (h : ∀ id ∈ idsFrom c n, id ≠ 0) (hid : id ∈ idsFrom c n) :
    (c - 1).toNat < id.toNat ∧ id.toNat ≤ (c - 1).toNat + n := by
  induction n generalizing c with
  | zero => cases hid
  | succ n ih =>
    have hsucc := toNat_pred_succ (h c List.mem_cons_self)
    rcases List.mem_cons.mp hid with rfl | hid
    · rw [BitVec.add_sub_cancel] at hsucc
      omega
    · have hrest := ih (fun id hid => h id (List.mem_cons_of_mem _ hid)) hid
      omega

theorem sorted_idsFrom (h : ∀ id ∈ idsFrom c n, id ≠ 0) : (idsFrom c n).Pairwise (· < ·) := by
  induction n generalizing c with
  | zero => exact .nil
  | succ n ih =>
    have hrest : ∀ id ∈ idsFrom (c + 1) n, id ≠ 0 := fun id hid => h id (List.mem_cons_of_mem _ hid)
    refine List.pairwise_cons.mpr ⟨fun id hid => ?_, ih hrest⟩
    have hlt := (mem_idsFrom hrest hid).1
    rw [BitVec.add_sub_cancel] at hlt
    exact BitVec.lt_def.mpr hlt

theorem map_id_setEdits (c : BitVec 64) (as : List Addr) (rows : List (Row (BitVec 64) Addr)) :
    ((setEdits c as).foldl Row.edit rows).map Row.id = rows.map Row.id ++ idsFrom c as.length := by
  induction as generalizing c rows with
  | nil => exact (List.append_nil _).symm
  | cons a as ih =>
    rw [setEdits, List.foldl_cons, ih, Row.edit, List.map_append, List.append_assoc]
    rfl

theorem count_setEdits {as : List Addr} (h : ∀ id ∈ idsFrom c as.length, id ≠ 0) :
    ((setEdits c as).foldl Edit.count c - 1).toNat = (c - 1).toNat + as.length := by
  induction as generalizing c with
  | nil => rfl
  | cons a as ih =>
    have hsucc := toNat_pred_succ (h c List.mem_cons_self)
    rw [setEdits, List.foldl_cons, Edit.count, ih fun id hid => h id (List.mem_cons_of_mem _ hid),
      List.length_cons]
    omega

end IdsFrom

theorem Sets.issued {as : List Addr} (h : Sets w w' as) :
    Issued w w' (idsFrom w.globalIdCounter as.length) := by
  have hpending : w'.pendingIds = w.pendingIds ++ idsFrom w.globalIdCounter as.length := by
    rw [pendingIds_eq, pendingIds_eq, h.rows, map_id_setEdits]
  have hcounted : ∀ id ∈ idsFrom w.globalIdCounter as.length, id ≠ 0 ∧ id ≤ w'.lastId := by
    intro id hid
    have hmem : id ∈ w'.pendingIds := hpending ▸ List.mem_append_right _ hid
    obtain ⟨b, -, hb⟩ := List.mem_filterMap.mp hmem
    obtain ⟨bp, hbp, rfl⟩ := Option.map_eq_some_iff.mp hb
    exact h.ready.registry.counted b bp hbp
  have hne := fun id hid => (hcounted id hid).1
  refine ⟨⟨sorted_idsFrom hne, fun id hid => ⟨?_, (hcounted id hid).2⟩, ?_⟩, hpending⟩
  · exact BitVec.lt_def.mpr (mem_idsFrom hne hid).1
  · rw [World.lastId, h.counter, count_setEdits hne, length_idsFrom]
    rfl

/-! ### Commands -/

/-- A command either hands out ids or drops breakpoints. -/
def Books (w w' : World) : Prop := (∃ ids, Issued w w' ids) ∨ Dropped w w'

theorem forArgs_dropped {act : World → BpPtr → Res World} {args : List BpArg}
    {e : BitVec 64 → Edit (BitVec 64) Addr} (he : ∀ id id' a, e id ≠ .set id' a)
    (hact : ∀ {w b w'}, Ready w [] → act w b = .ok w' →
      ∃ bp, w.bps b = some bp ∧ Edited w w' (e bp.id))
    (h : Ready w []) (hok : forArgs syms act w args = .ok w') : Dropped w w' := by
  have hrun := FaultRun.invariant (P := fun w₁ => Ready w₁ [] ∧ Dropped w w₁)
    (fun w₁ arg w₂ h₁ h2 => ?_) ⟨h, .refl w⟩ hok
  · exact hrun.2
  obtain ⟨b, -, h2⟩ := bind_eq_ok.mp h2
  rcases b with - | b
  · cases h2
    exact h₁
  · obtain ⟨bp, -, hedit⟩ := hact h₁.1 h2
    exact ⟨hedit.ready, h₁.2.trans (hedit.dropped (he bp.id))⟩

theorem handler_books {c : Command} (h : Ready w []) (hok : c.handler k syms w = .ok w') :
    Books w w' := by
  cases c with
  | «break» args =>
    obtain ⟨as, hsets⟩ := cmdBreak_sets h hok
    exact .inl ⟨_, hsets.issued⟩
  | delete args =>
    change cmdDelete k syms w args = .ok w' at hok
    unfold cmdDelete at hok
    split at hok
    · obtain ⟨-, hnil, -, hcounter⟩ := removeAllBreakpoints_ready h hok
      refine .inr ⟨?_, hcounter⟩
      rw [World.pendingIds, hnil]
      exact List.nil_sublist _
    · refine .inr (forArgs_dropped (e := .delete) (fun _ _ _ => nofun) (fun h hok => ?_) h hok)
      exact removeBreakpoint_edited h hok
  | enable args =>
    change cmdEnable k syms w args = .ok w' at hok
    unfold cmdEnable at hok
    split at hok
    · exact .inr (EditedBy.dropped (e := true) (enableAllBreakpoints_edited h hok))
    · refine .inr (forArgs_dropped (e := .enable) (fun _ _ _ => nofun) (fun h hok => ?_) h hok)
      obtain ⟨bp, hb, -, hedit⟩ := bpEnable_edited h hok
      exact ⟨bp, hb, hedit⟩
  | disable args =>
    change cmdDisable k syms w args = .ok w' at hok
    unfold cmdDisable at hok
    split at hok
    · exact .inr (EditedBy.dropped (e := false) (disableAllBreakpoints_edited h hok))
    · refine .inr (forArgs_dropped (e := .disable) (fun _ _ _ => nofun) (fun h hok => ?_) h hok)
      obtain ⟨bp, hb, -, hedit⟩ := bpDisable_edited h hok
      exact ⟨bp, hb, hedit⟩
  | run answer =>
    rcases run_spawned h hok with hspawned | rfl
    · exact .inr hspawned.dropped
    · exact .inr (.refl _)
  | restart => exact .inr (restart_spawned h hok).dropped
  | «continue» => exact .inr (continueExecution_kept h hok).dropped
  | stepi => exact .inr (cmdStepi_kept h hok).dropped
  | step fuel => exact .inr (stepIn_kept h hok).dropped
  | next => exact .inr (stepOver_kept h hok).dropped
  | finish => exact .inr (stepOut_kept h hok).dropped
  | registerWrite r value => cases hok; exact .inr ⟨.refl _, rfl⟩
  | memoryWrite a value => cases hok; exact .inr ⟨.refl _, rfl⟩
  | kill answer =>
    obtain ⟨⟨quit, w₁⟩, hkill, hok⟩ := bind_eq_ok.mp hok
    cases hok
    exact .inr (dbgKillTracee_kept h hkill).dropped

theorem handleCommand_books {c : Command} (h : Ready w [])
    (hok : handleCommand k syms w c = .ok w') : Books w w' := by
  unfold handleCommand at hok
  split at hok
  · cases hok
    exact .inr (.refl w)
  split at hok
  · cases hok
    exact .inr (.refl w)
  exact handler_books h hok

/-! ## Sessions -/

theorem mem_pendingIds {id : BitVec 64} (h : Registry w) :
    id ∈ w.pendingIds ↔ ∃ b, getBreakpointById w id = some b := by
  unfold World.pendingIds World.ids getBreakpointById
  rw [List.mem_filterMap]
  constructor
  · rintro ⟨b, -, hb⟩
    exact ⟨b, (h.lookup id b).mpr (Option.map_eq_some_iff.mp hb)⟩
  · rintro ⟨b, hb⟩
    obtain ⟨bp, hbp, rfl⟩ := (h.lookup id b).mp hb
    exact ⟨b, h.mem hbp, by rw [hbp]; rfl⟩

theorem pendingIds_le {id : BitVec 64} (h : Registry w) (hid : id ∈ w.pendingIds) :
    id ≤ w.lastId := by
  obtain ⟨b, hb⟩ := (mem_pendingIds h).mp hid
  obtain ⟨bp, hbp, rfl⟩ := (h.lookup id b).mp hb
  exact (h.counted b bp hbp).2

theorem Dropped.lastId (h : Dropped w w') : w'.lastId = w.lastId := by
  rw [World.lastId, World.lastId, h.counter]

theorem Issued.not_pending {ids : List (BitVec 64)} {id : BitVec 64} (h : Registry w)
    (hi : Issued w w' ids) (hid : id ∈ ids) : id ∉ w.pendingIds := by
  intro hmem
  have hle := pendingIds_le h hmem
  have hlt := (hi.after id hid).1
  bv_omega

/-- The new ids of a command are those it handed out. -/
theorem Issued.newIds_eq {ids : List (BitVec 64)} (h : Registry w) (hi : Issued w w' ids) :
    newIds w w' = ids := by
  have hold : w.pendingIds.filter (fun id => id ∉ w.pendingIds) = [] :=
    List.filter_eq_nil_iff.mpr fun id hid => by simpa using hid
  have hnew : ids.filter (fun id => id ∉ w.pendingIds) = ids :=
    List.filter_eq_self.mpr fun id hid => decide_eq_true (hi.not_pending h hid)
  rw [newIds, hi.pending, List.filter_append, hold, hnew, List.nil_append]

theorem Dropped.newIds_eq (hd : Dropped w w') : newIds w w' = [] :=
  List.filter_eq_nil_iff.mpr fun _ hid => by simpa using hd.pending.subset hid

theorem Counted.append {ids ids' : List (BitVec 64)} (h : Counted w w₁ ids)
    (h' : Counted w₁ w' ids') : Counted w w' (ids ++ ids') := by
  have hcount := h.count
  have hcount' := h'.count
  refine ⟨List.pairwise_append.mpr ⟨h.sorted, h'.sorted, fun id hid id' hid' => ?_⟩,
    fun id hid => ?_, ?_⟩
  · have hle := (h.after id hid).2
    have hlt := (h'.after id' hid').1
    bv_omega
  · rcases List.mem_append.mp hid with hid | hid
    · obtain ⟨hlt, hle⟩ := h.after id hid
      refine ⟨hlt, BitVec.le_def.mpr ?_⟩
      rw [BitVec.le_def] at hle
      omega
    · obtain ⟨hlt, hle⟩ := h'.after id hid
      refine ⟨BitVec.lt_def.mpr ?_, hle⟩
      rw [BitVec.lt_def] at hlt
      omega
  · rw [List.length_append]
    omega

theorem Books.counted (h : Registry w) (hb : Books w w') : Counted w w' (newIds w w') := by
  rcases hb with ⟨ids, hi⟩ | hd
  · rw [hi.newIds_eq h]
    exact hi.toCounted
  · rw [hd.newIds_eq]
    exact ⟨.nil, fun id hid => (by cases hid), congrArg BitVec.toNat hd.lastId⟩

/-- The ids of a session, by induction on its commands. -/
theorem session_counted {cs : List Command} (h : Ready w [])
    (hok : session k syms w cs = .ok w') : Counted w w' (handedOut k syms w cs) := by
  induction cs generalizing w with
  | nil =>
    cases hok
    exact ⟨.nil, fun id hid => (by cases hid), rfl⟩
  | cons c cs ih =>
    obtain ⟨w₁, h1, hok⟩ := foldlM_cons_eq_ok.mp hok
    rw [handedOut_cons h1]
    exact ((handleCommand_books h h1).counted h.registry).append (ih (handleCommand_ready h h1) hok)

/-- A prompt where the pending list is ordered by id. -/
structure Ordered (w : World) : Prop where
  ready : Ready w []
  sorted : w.pendingIds.Pairwise (· < ·)

theorem Ordered.command {c : Command} (h : Ordered w) (hok : handleCommand k syms w c = .ok w') :
    Ordered w' := by
  refine ⟨handleCommand_ready h.ready hok, ?_⟩
  rcases handleCommand_books h.ready hok with ⟨ids, hi⟩ | hd
  · rw [hi.pending]
    refine List.pairwise_append.mpr ⟨h.sorted, hi.sorted, fun id hid id' hid' => ?_⟩
    have hle := pendingIds_le h.ready.registry hid
    have hlt := (hi.after id' hid').1
    bv_omega
  · exact h.sorted.sublist hd.pending

/-- A prompt where an id was handed out that no breakpoint has now. -/
structure Deleted (id : BitVec 64) (w : World) : Prop where
  ready : Ready w []
  absent : id ∉ w.pendingIds
  handed : id ≤ w.lastId

theorem Deleted.command {id : BitVec 64} {c : Command} (h : Deleted id w)
    (hok : handleCommand k syms w c = .ok w') : Deleted id w' := by
  have hbooks := handleCommand_books h.ready hok
  have hcount := (hbooks.counted h.ready.registry).count
  have hhanded := BitVec.le_def.mp h.handed
  refine ⟨handleCommand_ready h.ready hok, fun hmem => ?_, BitVec.le_def.mpr (by omega)⟩
  rcases hbooks with ⟨ids, hi⟩ | hd
  · rw [hi.pending] at hmem
    rcases List.mem_append.mp hmem with hmem | hmem
    · exact h.absent hmem
    · have hlt := BitVec.lt_def.mp (hi.after id hmem).1
      omega
  · exact h.absent (hd.pending.subset hmem)

/-- **The registries agree.** At every prompt of every session the pending list holds no breakpoint
twice, is ordered by id, and the map of ids finds exactly the breakpoints on it. All ids that were
handed out are different, and there are as many as `bp_init` has counted. An id that was found once
and is not found now is never found again. -/
theorem session_registries {cs : List Command} (hok : session k syms dbgInit cs = .ok w) :
    w.pendingBreakpoints.Nodup ∧ w.pendingIds.Pairwise (· < ·) ∧
    (∀ id b, getBreakpointById w id = some b ↔
      b ∈ w.pendingBreakpoints ∧ ∃ bp, w.bps b = some bp ∧ bp.id = id) ∧
    ((handedOut k syms dbgInit cs).Pairwise (· < ·) ∧
      w.lastId.toNat = (handedOut k syms dbgInit cs).length) ∧
    ∀ id cs₁ cs₂ w₁ w₂, getBreakpointById w id ≠ none → session k syms w cs₁ = .ok w₁ →
      getBreakpointById w₁ id = none → session k syms w₁ cs₂ = .ok w₂ →
      getBreakpointById w₂ id = none := by
  have hordered : Ordered w := FaultRun.invariant (P := Ordered)
    (fun _ _ _ h hok => h.command hok) ⟨dbgInit_ready, .nil⟩ hok
  have hcounted := session_counted dbgInit_ready hok
  refine ⟨hordered.ready.registry.nodup, hordered.sorted, fun id b => ?_,
    ⟨hcounted.sorted, hcounted.count.trans (Nat.zero_add _)⟩,
    fun id cs₁ cs₂ w₁ w₂ hfound hok₁ hgone hok₂ => ?_⟩
  · refine (hordered.ready.registry.lookup id b).trans ⟨?_, And.right⟩
    rintro ⟨bp, hb, hid⟩
    exact ⟨hordered.ready.registry.mem hb, bp, hb, hid⟩
  · have hready₁ := session_ready hordered.ready hok₁
    have hnone : ∀ {w : World}, Ready w [] →
        (id ∉ w.pendingIds ↔ getBreakpointById w id = none) := fun h => by
      rw [mem_pendingIds h.registry, ← Option.isSome_iff_exists, Option.not_isSome_iff_eq_none]
    have hmem : id ∈ w.pendingIds := by
      by_contra hmem
      exact hfound ((hnone hordered.ready).mp hmem)
    have hle := BitVec.le_def.mp (pendingIds_le hordered.ready.registry hmem)
    have hcount := (session_counted hordered.ready hok₁).count
    have hdeleted : Deleted id w₁ :=
      ⟨hready₁, (hnone hready₁).mpr hgone, BitVec.le_def.mpr (by omega)⟩
    have hdeleted₂ : Deleted id w₂ := FaultRun.invariant (P := Deleted id)
      (fun _ _ _ h hok => h.command hok) hdeleted hok₂
    exact (hnone hdeleted₂.ready).mp hdeleted₂.absent

/-- Three breakpoints, of which the second is deleted before another one is set. -/
theorem session_registries_deleted : ∃ w w₁ w₂,
    session .twice .stripped dbgInit [.break [.addr 0x401000, .addr 0x401000, .addr 0x401004]] =
      .ok w ∧
    session .twice .stripped w [.run true, .delete [.id 2]] = .ok w₁ ∧
    session .twice .stripped w₁ [.break [.addr 0x401000]] = .ok w₂ ∧
    w.pendingIds.Pairwise (· < ·) ∧ getBreakpointById w₂ 2 = none := by
  obtain ⟨w, hw, hp⟩ := exists_of_any (p := fun w => (getBreakpointById w 2).isSome ∧
      (session .twice .stripped w [.run true, .delete [.id 2]]).toOption.any fun w₁ =>
        (getBreakpointById w₁ 2).isNone ∧
          (session .twice .stripped w₁ [.break [.addr 0x401000]]).toOption.isSome)
    (x := session .twice .stripped dbgInit
      [.break [.addr 0x401000, .addr 0x401000, .addr 0x401004]]) (by decide +kernel)
  obtain ⟨hfound, hp⟩ := of_decide_eq_true hp
  obtain ⟨w₁, hw₁, hp⟩ := exists_of_any hp
  obtain ⟨hgone, hp⟩ := of_decide_eq_true hp
  obtain ⟨w₂, hw₂, -⟩ := exists_of_any (p := fun _ => true) (x := session .twice .stripped w₁
    [.break [.addr 0x401000]]) (by rwa [Option.any_true])
  obtain ⟨-, hsorted, -, -, hnever⟩ := session_registries hw
  exact ⟨w, w₁, w₂, hw, hw₁, hw₂, hsorted, hnever 2 _ _ w₁ w₂
    (Option.isSome_iff_ne_none.mp hfound) hw₁ (Option.isNone_iff_eq_none.mp hgone) hw₂⟩

end Vdbg
