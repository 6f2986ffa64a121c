import Vdbg.Running
import Vdbg.Table

/-!
# States between commands

`Ready w ts` is what holds whenever the debugger may act on breakpoints: the registry and the
attachment are intact, and the temporary locations are those planted at `ts`. At a prompt `ts` is
empty. Every edit of the breakpoints keeps `Ready` and acts on the table of the state, which forgets
all but ids, addresses, flags and patches, as `Table.edit` says (`Edited`).
-/

namespace Vdbg

open FaultRun

variable {k : Kernel} {syms : Symbols}

/-! ## The table of a state -/

namespace World

/-- The pending breakpoints, where they are attached. -/
def attachedBps (w : World) : List BpPtr :=
  if w.bpLocations.isSome then w.pendingBreakpoints else []

def row (w : World) (b : BpPtr) : Option (Row (BitVec 64) Addr) :=
  (w.bps b).map fun bp => ⟨bp.id, bp.instrAddr, bp.enable⟩

/-- The breakpoints in the order of the pending list. -/
def rows (w : World) : List (Row (BitVec 64) Addr) := w.pendingBreakpoints.filterMap w.row

/-- The table of a state, by the addresses of the executable. -/
def table (w : World) : Table (BitVec 64) Addr :=
  ⟨w.rows, fun a => w.isPatched (a + w.loadAddress)⟩

variable {w : World} {b : BpPtr}

theorem row_eq {bp : Breakpoint} (h : w.bps b = some bp) :
    w.row b = some ⟨bp.id, bp.instrAddr, bp.enable⟩ := by
  rw [row, h, Option.map_some]

theorem row_congr {w' : World} (h : ∀ b, (w'.bps b).map (fun bp => (bp.id, bp.instrAddr, bp.enable))
    = (w.bps b).map fun bp => (bp.id, bp.instrAddr, bp.enable)) : w'.row = w.row := by
  funext b
  have hb := congrArg (Option.map fun q : BitVec 64 × Addr × Bool =>
    (⟨q.1, q.2.1, q.2.2⟩ : Row (BitVec 64) Addr)) (h b)
  rwa [Option.map_map, Option.map_map] at hb

/-- The rows at an address are the breakpoints that run there. -/
theorem sharing_rows (w : World) (a : Addr) : Row.sharing w.rows a =
    (w.runningAt w.pendingBreakpoints (a + w.loadAddress)).filterMap w.row := by
  unfold Row.sharing rows runningAt
  rw [List.filter_filterMap, List.filterMap_filter]
  refine List.filterMap_congr fun b _ => ?_
  rcases hb : w.bps b with - | bp
  · simp [row, target, hb]
  · by_cases ha : bp.instrAddr = a <;> simp [row, target, hb, ha]

theorem all_enabled_rows {bs : List BpPtr} (h : ∀ b ∈ bs, (w.bps b).isSome) :
    (bs.filterMap w.row).all Row.enable = bs.all w.enabled := by
  induction bs with
  | nil => rfl
  | cons b bs ih =>
    obtain ⟨bp, hb⟩ := Option.isSome_iff_exists.mp (h b List.mem_cons_self)
    rw [List.filterMap_cons_some (row_eq hb), List.all_cons, List.all_cons,
      ih fun q hq => h q (List.mem_cons_of_mem _ hq), enabled_eq hb]

theorem any_enabled_rows (bs : List BpPtr) :
    (bs.filterMap w.row).any Row.enable = bs.any w.enabled := by
  induction bs with
  | nil => rfl
  | cons b bs ih =>
    rcases hb : w.bps b with - | bp
    · rw [List.filterMap_cons_none (by rw [row, hb]; rfl), ih, List.any_cons, enabled, hb]
      rfl
    · rw [List.filterMap_cons_some (row_eq hb), List.any_cons, List.any_cons, ih, enabled_eq hb]

end World

/-! ## The registry -/

namespace Registry

variable {w w' : World} {b : BpPtr} {bp : Breakpoint}

theorem mem (h : Registry w) (hb : w.bps b = some bp) : b ∈ w.pendingBreakpoints :=
  (h.live b).mpr (by rw [hb]; rfl)

theorem id_inj (h : Registry w) {q : BpPtr} {bq : Breakpoint} (hb : w.bps b = some bp)
    (hq : w.bps q = some bq) (hid : bq.id = bp.id) : q = b := by
  have h1 := (h.lookup bp.id b).mpr ⟨bp, hb, rfl⟩
  have h2 := (h.lookup bp.id q).mpr ⟨bq, hq, hid⟩
  exact Option.some.inj (h2.symm.trans h1)

theorem nextPtr_dead (h : Registry w) : w.bps w.nextPtr = none :=
  Option.not_isSome_iff_eq_none.mp fun hs => absurd (h.bpFresh _ hs) (lt_irrefl _)

theorem nextPtr_unused (h : Registry w) : w.locs w.nextPtr = none :=
  Option.not_isSome_iff_eq_none.mp fun hs => absurd (h.locFresh _ hs) (lt_irrefl _)

/-- The rows have different ids. -/
theorem nodup_ids (h : Registry w) : (w.rows.map Row.id).Nodup := by
  rw [World.rows, List.map_filterMap]
  refine h.nodup.filterMap fun b q id hb hq => ?_
  obtain ⟨r, hr, rfl⟩ := Option.map_eq_some_iff.mp hb
  obtain ⟨bp, hbp, rfl⟩ := Option.map_eq_some_iff.mp hr
  obtain ⟨s, hs, he⟩ := Option.map_eq_some_iff.mp hq
  obtain ⟨bq, hbq, rfl⟩ := Option.map_eq_some_iff.mp hs
  exact (h.id_inj hbp hbq he).symm

theorem mem_rows (h : Registry w) (hb : w.bps b = some bp) :
    (⟨bp.id, bp.instrAddr, bp.enable⟩ : Row (BitVec 64) Addr) ∈ w.rows :=
  List.mem_filterMap.mpr ⟨b, h.mem hb, World.row_eq hb⟩

/-- All but ids and liveness may change. -/
theorem congr (h : Registry w) (hpending : w'.pendingBreakpoints = w.pendingBreakpoints)
    (htable : w'.breakpoints = w.breakpoints) (hcounter : w'.globalIdCounter = w.globalIdCounter)
    (hbps : ∀ b, (w'.bps b).map Breakpoint.id = (w.bps b).map Breakpoint.id)
    (hnext : w.nextPtr ≤ w'.nextPtr) (hlocs : ∀ p, (w'.locs p).isSome → p < w'.nextPtr) :
    Registry w' := by
  have hlive : ∀ b, (w'.bps b).isSome = (w.bps b).isSome := by
    intro b
    simpa only [Option.isSome_map] using congrArg Option.isSome (hbps b)
  have hid : ∀ b id, (∃ bp, w'.bps b = some bp ∧ bp.id = id) ↔ ∃ bp, w.bps b = some bp ∧ bp.id = id := by
    intro b id
    rw [← Option.map_eq_some_iff, ← Option.map_eq_some_iff, hbps]
  refine ⟨hpending ▸ h.nodup, fun b => ?_, htable ▸ h.table, fun id b => ?_, fun b bp hb => ?_,
    fun b hb => ?_, hlocs⟩
  · rw [hpending, hlive]; exact h.live b
  · rw [htable, hid]; exact h.lookup id b
  · obtain ⟨bq, hq, hid⟩ := (hid b bp.id).mp ⟨bp, hb, rfl⟩
    rw [hcounter, ← hid]
    exact h.counted b bq hq
  · exact (h.bpFresh b (hlive b ▸ hb)).trans_le hnext

end Registry

/-- The temporary locations are those at `ts`. -/
structure Planted (w : World) (ts : List Addr) : Prop where
  nodup : ts.Nodup
  temp : ∀ p loc, w.locs p = some loc → (loc.isTemp = true ↔ loc.runningAddr ∈ ts)
  there : ∀ a ∈ ts, (mapLookup w.bpLocations a).isSome

theorem Planted.user {w : World} (h : Planted w []) {p : LocPtr} {loc : BpLocation}
    (hp : w.locs p = some loc) : loc.isTemp = false := by
  by_contra ht
  exact List.not_mem_nil ((h.temp p loc hp).mp (by simpa using ht))

theorem Planted.of_user {w : World} (h : ∀ p loc, w.locs p = some loc → loc.isTemp = false) :
    Planted w [] := by
  refine ⟨List.nodup_nil, fun p loc hp => ?_, fun a ha => absurd ha List.not_mem_nil⟩
  rw [h p loc hp]
  simp

/-- The debugger may act on breakpoints, with temporary locations at `ts`. -/
structure Ready (w : World) (ts : List Addr) : Prop where
  registry : Registry w
  attached : Attached w w.attachedBps
  state : w.state = .active ↔ w.bpLocations.isSome
  planted : Planted w ts

/-- The id counter after an edit. -/
def Edit.count (c : BitVec 64) : Edit (BitVec 64) Addr → BitVec 64
  | .set _ _ => c + 1
  | .enable _ | .disable _ | .delete _ => c

/-- An edit at a prompt: the state is ready again, and its table changed as the edit says. Without a
tracee only the rows change. -/
structure Edited (w w' : World) (e : Edit (BitVec 64) Addr) : Prop where
  ready : Ready w' []
  rows : w'.rows = Row.edit w.rows e
  table : w.state = .active → w'.table = w.table.edit e
  state : w'.state = w.state
  loadAddress : w'.loadAddress = w.loadAddress
  counter : w'.globalIdCounter = e.count w.globalIdCounter

namespace Ready

variable {w w' : World} {ts : List Addr} {b : BpPtr} {bp : Breakpoint} {p : LocPtr}
  {loc loc' : BpLocation}

theorem active_att (h : Ready w ts) (ha : w.state = .active) :
    w.attachedBps = w.pendingBreakpoints := if_pos (h.state.mp ha)

theorem inactive_none (h : Ready w ts) (ha : w.state ≠ .active) : w.bpLocations = none :=
  Option.not_isSome_iff_eq_none.mp fun hs => ha (h.state.mpr hs)

theorem inactive_att (h : Ready w ts) (ha : w.state ≠ .active) : w.attachedBps = [] := by
  rw [World.attachedBps, h.inactive_none ha]; rfl

/-- The location of a breakpoint, while the tracee is active. -/
theorem location (h : Ready w ts) (ha : w.state = .active) (hb : w.bps b = some bp) :
    ∃ p loc, bp.location = some p ∧ w.locs p = some loc ∧ loc.isTemp = false ∧
      loc.runningAddr = bp.instrAddr + w.loadAddress ∧
      mapLookup w.bpLocations loc.runningAddr = some p ∧
      loc.bpList = w.runningAt w.pendingBreakpoints (bp.instrAddr + w.loadAddress) := by
  have hmem : b ∈ w.attachedBps := by
    rw [h.active_att ha]
    exact h.registry.mem hb
  obtain ⟨p, loc, hl, hp, ht, hrun, hreg, -⟩ := h.attached.location hmem hb
  exact ⟨p, loc, hl, hp, ht, hrun, hreg, by
    rw [h.attached.list_user hp ht, hrun, h.active_att ha]⟩

/-- Without a tracee no breakpoint has a location. -/
theorem detached (h : Ready w ts) (ha : w.state ≠ .active) (hb : w.bps b = some bp) :
    bp.location = none :=
  h.attached.detached b bp hb (by rw [h.inactive_att ha]; exact List.not_mem_nil)

/-- The edit of a row is the edit of a breakpoint. -/
theorem find_row (h : Ready w ts) (hb : w.bps b = some bp) :
    (w.rows.find? fun r => r.id = bp.id).map Row.addr = some bp.instrAddr := by
  have hfind := Table.find_eq (t := w.table) h.registry.nodup_ids (h.registry.mem_rows hb)
  exact congrArg (Option.map Row.addr) hfind

end Ready

/-- An edit is known by its rows and by the patches it makes. -/
theorem Edited.of_patched {w w' : World} {e : Edit (BitVec 64) Addr} (hready : Ready w' [])
    (hrows : w'.rows = Row.edit w.rows e) (hstate : w'.state = w.state)
    (hload : w'.loadAddress = w.loadAddress)
    (hcounter : w'.globalIdCounter = e.count w.globalIdCounter)
    (hpatched : w.state = .active → ∃ a, e.addr w.rows = some a ∧ ∀ a', w'.isPatched a' =
      if a' = a + w.loadAddress then
        e.patch (w.isPatched (a + w.loadAddress)) (Row.sharing w'.rows a)
      else w.isPatched a') : Edited w w' e := by
  refine ⟨hready, hrows, fun ha => ?_, hstate, hload, hcounter⟩
  obtain ⟨a, haddr, hp⟩ := hpatched ha
  rw [Table.edit_of_addr (t := w.table) haddr, World.table, hload, hrows]
  congr 1
  funext a'
  rw [hp, Function.update_apply, hrows]
  simp only [add_left_inj]
  rfl

/-! ## Flags -/

section Flags

variable {w w' : World} {b : BpPtr} {bp : Breakpoint} {e : Bool}

/-- A flag changes the row of its breakpoint. -/
theorem rows_flag (h : Registry w) (hb : w.bps b = some bp)
    (hpending : w'.pendingBreakpoints = w.pendingBreakpoints)
    (hbps : w'.bps = Function.update w.bps b (some { bp with enable := e })) :
    w'.rows = Row.setEnable e w.rows bp.id := by
  rw [World.rows, World.rows, Row.setEnable, hpending, List.map_filterMap]
  refine List.filterMap_congr fun q _ => ?_
  by_cases hq : q = b
  · subst hq
    rw [World.row_eq hb, World.row, hbps, Function.update_self, Option.map_some, Option.map_some,
      if_pos rfl]
  · rw [World.row, hbps, Function.update_of_ne hq, World.row, Option.map_map]
    rcases hbq : w.bps q with - | bq
    · rfl
    · have hid : bq.id ≠ bp.id := fun hid => hq (h.id_inj hb hbq hid)
      simp [hid]

theorem Ready.setFlag (h : Ready w []) (hb : w.bps b = some bp) (e : Bool) :
    Ready (w.setBp b { bp with enable := e }) [] := by
  have hbps : ∀ q, ((w.setBp b { bp with enable := e }).bps q).map Breakpoint.link =
      (w.bps q).map Breakpoint.link ∧
      ((w.setBp b { bp with enable := e }).bps q).map Breakpoint.id =
        (w.bps q).map Breakpoint.id := by
    intro q
    by_cases hq : q = b
    · subst hq; simp [World.setBp, hb, Breakpoint.link]
    · simp [World.setBp, hq]
  exact ⟨h.registry.congr rfl rfl rfl (fun q => (hbps q).2) le_rfl h.registry.locFresh,
    h.attached.congr (fun q => (hbps q).1) (fun _ => rfl) rfl rfl h.attached.armed, h.state,
    h.planted.nodup, h.planted.temp, h.planted.there⟩

/-- The patch of a location changes. -/
theorem Ready.setLoc {ts : List Addr} {p : LocPtr} {loc loc' : BpLocation} (h : Ready w ts)
    (hp : w.locs p = some loc) (hs : loc'.shape = loc.shape)
    (harmed : loc'.isTemp = false → loc'.patched = true → loc'.bpList ≠ []) (t : Tracee) :
    Ready ((w.setTracee t).setLoc p loc') ts := by
  have hlocs : ((w.setTracee t).setLoc p loc').locs = Function.update w.locs p (some loc') := rfl
  refine ⟨h.registry.congr rfl rfl rfl (fun _ => rfl) le_rfl fun q hq => ?_,
    h.attached.setLoc hp hs harmed t, h.state, h.planted.nodup, fun q l hq => ?_, h.planted.there⟩
  · obtain ⟨l, hl⟩ := Option.isSome_iff_exists.mp hq
    rcases locs_cases hlocs hl with ⟨rfl, -⟩ | ⟨-, hl⟩
    · exact h.registry.locFresh q (by rw [hp]; rfl)
    · exact h.registry.locFresh q (by rw [hl]; rfl)
  · rcases locs_cases hlocs hq with ⟨rfl, ⟨⟩⟩ | ⟨-, hl⟩
    · simp only [BpLocation.shape, Prod.mk.injEq] at hs
      rw [hs.1, hs.2.1]
      exact h.planted.temp _ loc hp
    · exact h.planted.temp q l hl

/-- A flag is set at a breakpoint of an active tracee, and the patch of its location follows. -/
theorem Ready.flag {p : LocPtr} {loc loc' : BpLocation} {t : Tracee} {ed : Edit (BitVec 64) Addr}
    (h : Ready w []) (hb : w.bps b = some bp) (hp : w.locs p = some loc)
    (hrun : loc.runningAddr = bp.instrAddr + w.loadAddress) (hs : loc'.shape = loc.shape)
    (harmed : loc'.isTemp = false → loc'.patched = true → loc'.bpList ≠ [])
    (hed : ∀ rows : List (Row (BitVec 64) Addr), Row.edit rows ed = Row.setEnable e rows bp.id)
    (haddr : ed.addr w.rows = some bp.instrAddr)
    (hcount : ed.count w.globalIdCounter = w.globalIdCounter)
    (hpatch : loc'.patched = ed.patch loc.patched
      ((w.runningAt w.pendingBreakpoints (bp.instrAddr + w.loadAddress)).filterMap
        (w.setBp b { bp with enable := e }).row)) :
    Edited w (((w.setBp b { bp with enable := e }).setTracee t).setLoc p loc') ed := by
  have h₁ : Ready (w.setBp b { bp with enable := e }) [] := h.setFlag hb e
  have hrows : (((w.setBp b { bp with enable := e }).setTracee t).setLoc p loc').rows =
      Row.setEnable e w.rows bp.id := rows_flag h.registry hb rfl rfl
  have hrunning : ∀ bs a, (((w.setBp b { bp with enable := e }).setTracee t).setLoc p
      loc').runningAt bs a = w.runningAt bs a := by
    intro bs a
    refine World.runningAt_congr fun q _ => ?_
    by_cases hq : q = b
    · subst hq
      simp [World.target, World.setLoc, World.setTracee, World.setBp, hb]
    · simp [World.target, World.setLoc, World.setTracee, World.setBp, hq]
  have hbefore : w.isPatched (bp.instrAddr + w.loadAddress) = loc.patched := by
    rw [← hrun]
    exact World.isPatched_eq (h.attached.registered p loc hp) hp
  refine .of_patched (h₁.setLoc hp hs harmed t) (hrows.trans (hed _).symm) rfl rfl hcount.symm fun _ =>
    ⟨bp.instrAddr, haddr, fun a' => ?_⟩
  have hlocs : (((w.setBp b { bp with enable := e }).setTracee t).setLoc p loc').locs =
      Function.update w.locs p (some loc') := rfl
  rw [isPatched_update h.attached.toMapped hp hlocs rfl a', hrun]
  split_ifs with ha'
  · rw [hpatch, World.sharing_rows, hrunning, hbefore]
    rfl
  · rfl

/-- `bp_enable` is an edit, with its rule that all breakpoints of the list must be enabled. -/
theorem bpEnable_edited (h : Ready w []) (hok : bpEnable k w b = .ok w') :
    ∃ bp, w.bps b = some bp ∧
      w'.bps = Function.update w.bps b (some { bp with enable := true }) ∧
      Edited w w' (.enable bp.id) := by
  obtain ⟨bp, hb, -⟩ := bind_eq_ok.mp hok
  rw [World.derefBp_eq_ok] at hb
  refine ⟨bp, hb, ?_⟩
  by_cases ha : w.state = .active
  · obtain ⟨p, loc, hl, hp, ht, hrun, hreg, hlist⟩ := h.location ha hb
    have hlive := h.attached.listed_live hp
    have hall := World.all_enabled_rows (w := w.setBp b { bp with enable := true })
      fun q hq => isSome_setBp _ (hlive q hq)
    rw [bpEnable_attached_eq hb hl hp ht hlive] at hok
    cases hok
    obtain ⟨s, hs⟩ := arm_fst k w.tracee loc
    refine ⟨rfl, h.flag hb hp hrun ?_ (fun htemp hpat => ?_) (fun _ => rfl) (h.find_row hb) rfl
      ?_⟩
    · split_ifs
      · rw [hs]; rfl
      · rfl
    · split_ifs at hpat ⊢ with hif
      · rw [hs, hlist]
        exact List.ne_nil_of_mem (World.mem_runningAt.mpr ⟨h.registry.mem hb, World.target_eq hb⟩)
      · exact h.attached.armed p loc hp ht hpat
    · rw [← hlist, Edit.patch, hall]
      split_ifs with hif
      · rw [hif, arm_patched, Bool.or_true]
      · rw [Bool.eq_false_iff.mpr hif, Bool.or_false]
  · rw [bpEnable_detached_eq hb (h.detached ha hb)] at hok
    cases hok
    exact ⟨rfl, .of_patched (h.setFlag hb true) (rows_flag h.registry hb rfl rfl) rfl rfl rfl
      fun hact => absurd hact ha⟩

/-- `bp_disable` is an edit, with its rule that no breakpoint of the list may be enabled. -/
theorem bpDisable_edited (h : Ready w []) (hok : bpDisable k w b = .ok w') :
    ∃ bp, w.bps b = some bp ∧
      w'.bps = Function.update w.bps b (some { bp with enable := false }) ∧
      Edited w w' (.disable bp.id) := by
  obtain ⟨bp, hb, -⟩ := bind_eq_ok.mp hok
  rw [World.derefBp_eq_ok] at hb
  refine ⟨bp, hb, ?_⟩
  by_cases ha : w.state = .active
  · obtain ⟨p, loc, hl, hp, ht, hrun, hreg, hlist⟩ := h.location ha hb
    rw [bpDisable_attached_eq hb hl hp ht (h.attached.listed_live hp)] at hok
    cases hok
    have hd := disarm_fst k w.tracee loc
    refine ⟨rfl, h.flag hb hp hrun ?_ (fun htemp hpat => ?_) (fun _ => rfl) (h.find_row hb) rfl
      ?_⟩
    · split_ifs
      · rfl
      · rw [hd]; rfl
    · split_ifs at hpat ⊢ with hif
      · exact h.attached.armed p loc hp ht hpat
      · rw [disarm_patched] at hpat; cases hpat
    · rw [← hlist, Edit.patch, World.any_enabled_rows]
      split_ifs with hif
      · rw [hif, Bool.and_true]
      · rw [Bool.eq_false_iff.mpr hif, disarm_patched, Bool.and_false]
  · rw [bpDisable_detached_eq hb (h.detached ha hb)] at hok
    cases hok
    exact ⟨rfl, .of_patched (h.setFlag hb false) (rows_flag h.registry hb rfl rfl) rfl rfl rfl
      fun hact => absurd hact ha⟩

end Flags

/-! ## Breakpoints that join -/

/-- The breakpoints `att` are attached so far, to user locations only. -/
structure Joining (w : World) (att : List BpPtr) : Prop where
  registry : Registry w
  attached : Attached w att
  mapped : w.bpLocations.isSome
  planted : Planted w []

/-- What does not change while breakpoints join. -/
structure SameEdits (w w' : World) : Prop where
  row : w'.row = w.row
  pending : w'.pendingBreakpoints = w.pendingBreakpoints
  state : w'.state = w.state
  loadAddress : w'.loadAddress = w.loadAddress
  counter : w'.globalIdCounter = w.globalIdCounter

section Join

variable {w w' : World} {att : List BpPtr} {b : BpPtr} {bp : Breakpoint} {p : LocPtr}
  {loc : BpLocation} {a : Addr}

/-- The state with `b` at the location `p`, an existing one or a new one. -/
theorem Joining.join {t : Tracee} {ht : Hashmap LocPtr} {n : ℕ} (h : Joining w att)
    (loc : BpLocation)
    (hb : w.bps b = some bp) (hmem : b ∉ att) (ha : a = bp.instrAddr + w.loadAddress)
    (hold : mapLookup w.bpLocations a = some p ∨ w.locs p = none ∧ mapLookup w.bpLocations a = none)
    (hn : w.nextPtr ≤ n) (hpn : p < n) (htemp : loc.isTemp = false) (hrun : loc.runningAddr = a)
    (hlist : loc.bpList = w.runningAt att a ++ [b]) (hcf : ht.cf = true)
    (hlookup : ∀ a', mapLookup (some ht) a' =
      if a' = a then some p else mapLookup w.bpLocations a')
    (hw : w' = { w with
      bps := Function.update w.bps b (some { bp with location := some p })
      locs := Function.update w.locs p (some loc)
      nextPtr := n, bpLocations := some ht, tracee := t }) :
    Joining w' (att ++ [b]) ∧ SameEdits w w' ∧
      ∀ a', w'.isPatched a' = if a' = a then loc.patched else w.isPatched a' := by
  subst hw
  refine ⟨⟨?_, ?_, rfl, ?_⟩, ⟨?_, rfl, rfl, rfl, rfl⟩, fun a' => ?_⟩
  · refine h.registry.congr rfl rfl rfl (fun q => ?_) hn fun q hq => ?_
    · by_cases hqb : q = b
      · subst hqb; simp [hb]
      · simp [hqb]
    · obtain ⟨l, hl⟩ := Option.isSome_iff_exists.mp hq
      rcases locs_cases (f := w.locs) rfl hl with ⟨rfl, -⟩ | ⟨-, hl⟩
      · exact hpn
      · exact (h.registry.locFresh q (by rw [hl]; rfl)).trans_le hn
  · exact h.attached.attach hb hmem ha hold rfl rfl htemp hrun hlist hlookup
      (fun ht' he => by rw [← Option.some.inj he]; exact hcf) rfl
  · refine .of_user fun q l hl => ?_
    rcases locs_cases (f := w.locs) rfl hl with ⟨-, ⟨⟩⟩ | ⟨-, hl⟩
    · exact htemp
    · exact h.planted.user hl
  · refine World.row_congr fun q => ?_
    by_cases hqb : q = b
    · subst hqb; simp [hb]
    · simp [hqb]
  · split_ifs with ha'
    · refine World.isPatched_eq (p := p) ?_ (Function.update_self ..)
      rw [hlookup, if_pos ha']
    · refine World.isPatched_congr (by rw [hlookup, if_neg ha']) fun q hq =>
        Function.update_of_ne ?_ _ _
      rintro rfl
      obtain ⟨l, hl, hla⟩ := h.attached.stored a' q hq
      rcases hold with hold | ⟨hold, -⟩
      · obtain ⟨l', hl', hla'⟩ := h.attached.stored a q hold
        exact ha' (by rw [← hla, ← hla', Option.some.inj (hl.symm.trans hl')])
      · rw [hold] at hl; cases hl

/-- A turn of `resolve_pending_breakpoints` attaches the breakpoint, and the flag of the breakpoint
decides about the patch. -/
theorem resolveBreakpoint_joins (h : Joining w att) (hmem : b ∉ att)
    (hok : resolveBreakpoint k w b = .ok w') :
    ∃ bp, w.bps b = some bp ∧ Joining w' (att ++ [b]) ∧ SameEdits w w' ∧
      ∀ a, w'.isPatched a =
        if a = bp.instrAddr + w.loadAddress then bp.enable else w.isPatched a := by
  obtain ⟨bp, hb, hok⟩ := bind_eq_ok.mp hok
  rw [World.derefBp_eq_ok] at hb
  refine ⟨bp, hb, ?_⟩
  obtain ⟨ht, hht⟩ := Option.isSome_iff_exists.mp h.mapped
  have hcf := h.attached.cleans ht hht
  dsimp only at hok
  rcases hp : mapLookup w.bpLocations (bp.instrAddr + w.loadAddress) with - | p
  · rw [hp] at hok
    dsimp only at hok
    obtain ⟨⟨p, w₁⟩, hinit, hok⟩ := bind_eq_ok.mp hok
    obtain ⟨hpid, ha⟩ := locInit_asserts hinit
    rw [locInit_user_eq hpid ha hb] at hinit
    cases hinit
    obtain ⟨ht', hins, hcf', hlookup⟩ := mapInsert_absent (hht ▸ hp) w.nextPtr
    dsimp only [World.setBp, World.setLoc, World.setTracee] at hok
    rw [hht, hins] at hok
    cases hok
    obtain ⟨s, hs⟩ := armed_fst k w.tracee
      ⟨w.pid, false, false, 0, bp.instrAddr + w.loadAddress, [b]⟩ bp.enable
    rw [disarm_of_not_patched _ _ _ rfl] at hs
    rw [hs]
    exact h.join ⟨w.pid, bp.enable, false, s, bp.instrAddr + w.loadAddress, [b]⟩ hb hmem rfl
      (.inr ⟨h.registry.nextPtr_unused, hp⟩) (Nat.le_succ _) (Nat.lt_succ_self _) rfl rfl
      (by rw [h.attached.runningAt_absent hp]; rfl) (hcf'.trans hcf) (by rw [hht]; exact hlookup)
      rfl
  · rw [hp] at hok
    dsimp only at hok
    obtain ⟨loc, hloc, hrun⟩ := h.attached.stored _ p hp
    have htemp := h.planted.user hloc
    have hnot : b ∉ loc.bpList := fun hl => hmem (h.attached.listed hloc hl).1
    rw [locAppend_eq hb hloc htemp hnot] at hok
    cases hok
    obtain ⟨s, hs⟩ := armed_fst k w.tracee { loc with bpList := loc.bpList ++ [b] } bp.enable
    rw [hs]
    refine h.join ⟨loc.pid, bp.enable, loc.isTemp, s, loc.runningAddr, loc.bpList ++ [b]⟩ hb hmem
      rfl (.inl hp) le_rfl (h.registry.locFresh p (by rw [hloc]; rfl)) htemp hrun
      (by rw [h.attached.list_user hloc htemp, hrun]) hcf (fun a' => ?_) (by rw [← hht]; rfl)
    rw [← hht]
    split_ifs with ha'
    · rw [ha', hp]
    · rfl

/-- The path of a running tracee and the one of `resolve_pending_breakpoints` do the same. -/
theorem addAndSetBp_eq_resolve {ht : Hashmap LocPtr} (ha : w.state = .active)
    (hb : w.bps b = some bp) (hht : w.bpLocations = some ht) :
    addAndSetBpForRunningTracee k w bp.instrAddr b = resolveBreakpoint k w b := by
  unfold addAndSetBpForRunningTracee resolveBreakpoint
  rw [if_neg (by rw [ha]; decide), World.derefBp_eq hb, ok_bind]
  dsimp only
  rcases hp : mapLookup w.bpLocations (bp.instrAddr + w.loadAddress) with - | p
  · rcases hinit : locInit k w w.pid (bp.instrAddr + w.loadAddress) (some b) false with e | r
    · rfl
    · obtain ⟨hpid, hne⟩ := locInit_asserts hinit
      rw [locInit_user_eq hpid hne hb] at hinit
      obtain ⟨ht', hins, -⟩ := mapInsert_absent (hht ▸ hp) w.nextPtr
      cases hinit
      dsimp only [ok_bind, World.setBp, World.setLoc, World.setTracee]
      rw [hht, hins]
  · rfl

end Join

/-! ## Setting a breakpoint -/

section Setting

variable {w w' : World}

/-- The state with a new breakpoint, before it gets a location. -/
def World.adopt (w : World) (kind : BpKind) (a : Addr) : World :=
  { w with
    bps := Function.update w.bps w.nextPtr (some ⟨w.globalIdCounter, kind, true, a, none⟩)
    nextPtr := w.nextPtr + 1
    globalIdCounter := w.globalIdCounter + 1
    breakpoints := (mapInsert w.breakpoints w.globalIdCounter (some w.nextPtr)).2
    pendingBreakpoints := w.pendingBreakpoints ++ [w.nextPtr] }

theorem setBreakpointOfKind_eq (hid : w.globalIdCounter ≠ 0) (kind : BpKind)
    (a : Addr) : setBreakpointOfKind k w kind a =
      addAndSetBpForRunningTracee k (w.adopt kind a) a w.nextPtr := by
  unfold setBreakpointOfKind insertBreakpoint
  rw [bpInit_eq hid, ok_bind]
  dsimp only
  rw [World.derefBp_eq (w := World.setBp _ _ _) (Function.update_self ..)]
  rfl

/-- The order of the pending list and the map of ids makes no difference. -/
theorem setBreakpointAtAddr_eq (a : Addr) :
    setBreakpointAtAddr k w a = setBreakpointOfKind k w .addr a := by
  by_cases hid : w.globalIdCounter = 0
  · unfold setBreakpointAtAddr setBreakpointOfKind bpInit
    rw [if_pos hid]
    rfl
  · rw [setBreakpointOfKind_eq hid]
    unfold setBreakpointAtAddr insertBreakpoint addBreakpointAsPending
    rw [bpInit_eq hid, ok_bind]
    dsimp only
    rw [World.derefBp_eq (w := { World.setBp _ _ _ with pendingBreakpoints := _ })
      (Function.update_self ..)]
    rfl

theorem setBreakpointOfKind_counter {kind : BpKind} {a : Addr}
    (hok : setBreakpointOfKind k w kind a = .ok w') : w.globalIdCounter ≠ 0 := by
  intro hid
  unfold setBreakpointOfKind bpInit at hok
  rw [if_pos hid] at hok
  cases hok

/-- A counter that has not wrapped around is above the last id. -/
theorem lt_of_le_pred {c id : BitVec 64} (hc : c ≠ 0) (h : id ≤ c - 1) : id < c := by
  have hc : c.toNat ≠ 0 := fun he => hc (BitVec.eq_of_toNat_eq he)
  bv_omega

theorem Registry.adopt (h : Registry w) (hid : w.globalIdCounter ≠ 0)
    (kind : BpKind) (a : Addr) : Registry (w.adopt kind a) := by
  obtain ⟨ht, hht, hcf⟩ := h.table
  have habsent : mapLookup (some ht) w.globalIdCounter = none := by
    refine Option.eq_none_iff_forall_ne_some.mpr fun b hb => ?_
    obtain ⟨bp, hbp, hbid⟩ := (h.lookup _ b).mp (hht ▸ hb)
    exact absurd (hbid ▸ lt_of_le_pred hid (h.counted b bp hbp).2) (BitVec.lt_irrefl _)
  obtain ⟨ht', hins, hcf', hlookup⟩ := mapInsert_absent habsent w.nextPtr
  have htable : (w.adopt kind a).breakpoints = some ht' := by
    rw [World.adopt, hht, hins]
  have hbps : (w.adopt kind a).bps =
      Function.update w.bps w.nextPtr (some ⟨w.globalIdCounter, kind, true, a, none⟩) := rfl
  have hnew : w.nextPtr ∉ w.pendingBreakpoints := by
    rw [h.live, h.nextPtr_dead]
    simp
  have hlast : w.globalIdCounter = (w.adopt kind a).globalIdCounter - 1 :=
    (BitVec.add_sub_cancel _ _).symm
  refine ⟨?_, fun b => ?_, ⟨ht', htable, hcf'.trans hcf⟩, fun id b => ?_, fun b bp hb => ?_,
    fun b hb => ?_, fun p hp => (h.locFresh p hp).trans (Nat.lt_succ_self _)⟩
  · refine List.nodup_append.mpr ⟨h.nodup, List.nodup_singleton _, ?_⟩
    rintro b hb q hq rfl
    exact hnew (List.mem_singleton.mp hq ▸ hb)
  · rw [hbps]
    show b ∈ w.pendingBreakpoints ++ [w.nextPtr] ↔ _
    by_cases hb : b = w.nextPtr
    · subst hb; simp
    · simp [hb, h.live b]
  · rw [htable, hlookup, hbps]
    by_cases hb : b = w.nextPtr
    · subst hb
      rw [Function.update_self]
      split_ifs with hid
      · simp [hid]
      · rw [← hht]
        refine iff_of_false (fun hl => ?_) ?_
        · obtain ⟨bp, hbp, -⟩ := (h.lookup id _).mp hl
          rw [h.nextPtr_dead] at hbp; cases hbp
        · rintro ⟨bp, hbp, rfl⟩
          exact hid (by rw [← Option.some.inj hbp])
    · rw [Function.update_of_ne hb, ← h.lookup id b, hht]
      split_ifs with hid
      · rw [hid, habsent]
        simp [Ne.symm hb]
      · rfl
  · rw [hbps, Function.update_apply] at hb
    split_ifs at hb with hbn
    · rw [← Option.some.inj hb]
      exact ⟨hid, hlast ▸ BitVec.le_refl _⟩
    · obtain ⟨hne, hle⟩ := h.counted b bp hb
      exact ⟨hne, hlast ▸ BitVec.le_of_lt (lt_of_le_pred hid hle)⟩
  · rw [hbps, Function.update_apply] at hb
    split_ifs at hb with hbn
    · rw [hbn]; exact Nat.lt_succ_self _
    · exact (h.bpFresh b hb).trans (Nat.lt_succ_self _)

/-- A new breakpoint is not on the list of a location. -/
theorem Ready.unlisted (h : Ready w []) {x : Addr} {p : LocPtr}
    (hp : mapLookup w.bpLocations x = some p) :
    ∃ loc, w.locs p = some loc ∧ loc.isTemp = false ∧ w.nextPtr ∉ loc.bpList := by
  obtain ⟨loc, hloc, -⟩ := h.attached.stored x p hp
  exact ⟨loc, hloc, h.planted.user hloc, fun hmem =>
    h.attached.not_mem_of_dead h.registry.nextPtr_dead (h.attached.listed hloc hmem).1⟩

/-- Setting a breakpoint is an edit. -/
theorem setBreakpointOfKind_edited {kind : BpKind} {a : Addr} (h : Ready w [])
    (hok : setBreakpointOfKind k w kind a = .ok w') :
    Edited w w' (.set w.globalIdCounter a) := by
  have hid := setBreakpointOfKind_counter hok
  rw [setBreakpointOfKind_eq hid] at hok
  have hreg := h.registry.adopt hid kind a
  have hatt : Attached (w.adopt kind a) w.attachedBps :=
    h.attached.outside (h.attached.not_mem_of_dead h.registry.nextPtr_dead)
      (fun bp he => by rw [← Option.some.inj he]) rfl rfl rfl rfl
  have hb : (w.adopt kind a).bps w.nextPtr = some ⟨w.globalIdCounter, kind, true, a, none⟩ :=
    Function.update_self ..
  have hrows : (w.adopt kind a).rows = w.rows ++ [⟨w.globalIdCounter, a, true⟩] := by
    have hnew := World.row_eq hb
    show (w.pendingBreakpoints ++ [w.nextPtr]).filterMap (w.adopt kind a).row = _
    rw [List.filterMap_append, List.filterMap_cons_some hnew, List.filterMap_nil]
    congr 1
    refine List.filterMap_congr fun q hq => ?_
    have hne : q ≠ w.nextPtr := (h.registry.bpFresh q ((h.registry.live q).mp hq)).ne
    simp [World.row, World.adopt, hne]
  have hplanted : Planted (w.adopt kind a) [] := ⟨List.nodup_nil, h.planted.temp, h.planted.there⟩
  by_cases ha : w.state = .active
  · obtain ⟨ht, hht⟩ := Option.isSome_iff_exists.mp (h.state.mp ha)
    have hjoining : Joining (w.adopt kind a) w.pendingBreakpoints :=
      ⟨hreg, h.active_att ha ▸ hatt, h.state.mp ha, hplanted⟩
    have hok' : resolveBreakpoint k (w.adopt kind a) w.nextPtr = .ok w' :=
      (addAndSetBp_eq_resolve (w := w.adopt kind a) ha hb hht).symm.trans hok
    have hnot : w.nextPtr ∉ w.pendingBreakpoints := by
      rw [h.registry.live, h.registry.nextPtr_dead]
      simp
    obtain ⟨bp, hbp, hjoined, hsame, hpatched⟩ := resolveBreakpoint_joins hjoining hnot hok'
    obtain rfl := Option.some.inj (hb.symm.trans hbp)
    have hrows' : w'.rows = w.rows ++ [⟨w.globalIdCounter, a, true⟩] := by
      rw [World.rows, hsame.pending, hsame.row]
      exact hrows
    refine .of_patched ⟨hjoined.registry, ?_, ?_, hjoined.planted⟩ hrows' hsame.state
      hsame.loadAddress hsame.counter fun _ => ⟨a, rfl, fun a' => ?_⟩
    · rw [World.attachedBps, if_pos hjoined.mapped, hsame.pending]
      exact hjoined.attached
    · exact iff_of_true (hsame.state.trans ha) hjoined.mapped
    · rw [hpatched]
      rfl
  · have hna : (w.adopt kind a).state = .notActive := by
      cases hs : w.state with
      | active => exact absurd hs ha
      | notActive => exact hs
    unfold addAndSetBpForRunningTracee at hok
    rw [if_pos hna] at hok
    cases hok
    refine .of_patched ⟨hreg, ?_, h.state, hplanted⟩ hrows rfl rfl rfl fun hact => absurd hact ha
    have hnone : (w.adopt kind a).bpLocations = none := h.inactive_none ha
    rw [World.attachedBps, hnone]
    exact h.inactive_att ha ▸ hatt

end Setting

/-! ## Deleting breakpoints -/

section Deleting

variable {w w' : World} {b : BpPtr} {bp : Breakpoint} {att : List BpPtr}

/-- `b` is gone from the pending list, the map of ids and the heap. -/
theorem Registry.release {ht : Hashmap BpPtr} (h : Registry w) (hb : w.bps b = some bp)
    (hpending : w'.pendingBreakpoints = w.pendingBreakpoints.erase b)
    (htable : w'.breakpoints = some ht) (hcf : ht.cf = true)
    (hlookup : ∀ id, mapLookup (some ht) id =
      if id = bp.id then none else mapLookup w.breakpoints id)
    (hbps : ∀ q, (w'.bps q).map Breakpoint.id =
      if q = b then none else (w.bps q).map Breakpoint.id)
    (hcounter : w'.globalIdCounter = w.globalIdCounter) (hnext : w'.nextPtr = w.nextPtr)
    (hlocs : ∀ p, (w'.locs p).isSome → (w.locs p).isSome) : Registry w' := by
  have hlive : ∀ q, (w'.bps q).isSome ↔ q ≠ b ∧ (w.bps q).isSome := by
    intro q
    have hm := congrArg Option.isSome (hbps q)
    rw [Option.isSome_map] at hm
    rw [hm]
    by_cases hq : q = b <;> simp [hq]
  have hid : ∀ q id, (∃ bp, w'.bps q = some bp ∧ bp.id = id) ↔
      q ≠ b ∧ ∃ bp, w.bps q = some bp ∧ bp.id = id := by
    intro q id
    rw [← Option.map_eq_some_iff, ← Option.map_eq_some_iff, hbps]
    by_cases hq : q = b <;> simp [hq]
  refine ⟨hpending ▸ h.nodup.erase b, fun q => ?_, ⟨ht, htable, hcf⟩, fun id q => ?_,
    fun q bq hq => ?_, fun q hq => ?_, fun p hp => hnext ▸ h.locFresh p (hlocs p hp)⟩
  · rw [hpending, h.nodup.mem_erase_iff, hlive, h.live q]
  · rw [htable, hlookup, hid, ← h.lookup id q]
    by_cases hid' : id = bp.id
    · rw [if_pos hid', hid']
      refine iff_of_false (by simp) ?_
      rintro ⟨hq, hl⟩
      exact hq (Option.some.inj (hl.symm.trans ((h.lookup bp.id b).mpr ⟨bp, hb, rfl⟩)))
    · rw [if_neg hid']
      refine ⟨fun hl => ⟨?_, hl⟩, And.right⟩
      rintro rfl
      obtain ⟨bq, hbq, hidq⟩ := (h.lookup id q).mp hl
      exact hid' (by rw [← hidq, Option.some.inj (hbq.symm.trans hb)])
  · obtain ⟨-, bq', hbq', hidq⟩ := (hid q bq.id).mp ⟨bq, hq, rfl⟩
    rw [hcounter, ← hidq]
    exact h.counted q bq' hbq'
  · rw [hnext]
    exact h.bpFresh q ((hlive q).mp hq).2

/-- `map_delete(dbg->breakpoints, ...)` calls `bp_free` once. -/
theorem deleteBreakpoint_eq {ht : Hashmap BpPtr} (hht : w.breakpoints = some ht)
    (hcf : ht.cf = true) (hb : w.bps b = some bp) (hl : mapLookup w.breakpoints bp.id = some b) :
    deleteBreakpoint k w b = bpFree k { w with breakpoints := some (ht.unlink bp.id) } b := by
  unfold deleteBreakpoint freeBps
  rw [World.derefBp_eq hb, ok_bind, hht, mapDelete_present hcf (hht ▸ hl)]
  dsimp only
  rw [List.foldlM_cons]
  exact bind_pure _

theorem rows_remove (h : Registry w) (hb : w.bps b = some bp)
    (hpending : w'.pendingBreakpoints = w.pendingBreakpoints.erase b)
    (hrow : ∀ q, q ≠ b → w'.row q = w.row q) : w'.rows = Row.remove w.rows bp.id := by
  rw [World.rows, World.rows, Row.remove, hpending, h.nodup.erase_eq_filter, List.filterMap_filter,
    List.filter_filterMap]
  refine List.filterMap_congr fun q _ => ?_
  by_cases hq : q = b
  · subst hq
    simp [World.row_eq hb, Option.filter]
  · have hrq := hrow q hq
    rcases hbq : w.bps q with - | bq
    · have hnone : w.row q = none := by rw [World.row, hbq]; rfl
      simp [hq, hrq, hnone]
    · have hid : bq.id ≠ bp.id := fun hid => hq (h.id_inj hb hbq hid)
      simp [hq, hrq, World.row_eq hbq, Option.filter, hid]

theorem isEmpty_rows {bs : List BpPtr} (h : ∀ b ∈ bs, (w.bps b).isSome) :
    (bs.filterMap w.row).isEmpty = bs.isEmpty := by
  cases bs with
  | nil => rfl
  | cons b bs =>
    obtain ⟨bp, hb⟩ := Option.isSome_iff_exists.mp (h b List.mem_cons_self)
    rw [List.filterMap_cons_some (World.row_eq hb)]
    rfl

/-- An attached breakpoint is freed. -/
theorem Ready.release {p : LocPtr} {loc loc' : BpLocation} {t : Tracee} {ht : Hashmap BpPtr}
    (h : Ready w []) (ha : w.state = .active) (hb : w.bps b = some bp) (hp : w.locs p = some loc)
    (htemp : loc.isTemp = false) (hrun : loc.runningAddr = bp.instrAddr + w.loadAddress)
    (hmem : b ∈ loc.bpList) (hcf : ht.cf = true)
    (hlookup : ∀ id, mapLookup (some ht) id =
      if id = bp.id then none else mapLookup w.breakpoints id)
    (hloc' : loc' = { loc with
      bpList := loc.bpList.erase b
      patched := loc.patched && !(loc.bpList.erase b).isEmpty })
    (hw : w' = { w with
      pendingBreakpoints := w.pendingBreakpoints.erase b, breakpoints := some ht
      bps := Function.update w.bps b none, locs := Function.update w.locs p (some loc')
      tracee := t }) : Edited w w' (.delete bp.id) := by
  have hids : ∀ q, (w'.bps q).map Breakpoint.id =
      if q = b then none else (w.bps q).map Breakpoint.id := by
    intro q
    rw [hw]
    by_cases hq : q = b <;> simp [hq]
  have hlocs : w'.locs = Function.update w.locs p (some loc') := by rw [hw]
  have hreg := h.registry.release hb (by rw [hw]) (by rw [hw]) hcf hlookup hids (by rw [hw])
    (by rw [hw]) fun q hq => by
      obtain ⟨l, hl⟩ := Option.isSome_iff_exists.mp hq
      rcases locs_cases hlocs hl with ⟨rfl, -⟩ | ⟨-, hl⟩
      · rw [hp]; rfl
      · rw [hl]; rfl
  have hatt : Attached w' (w.pendingBreakpoints.erase b) := by
    rw [← h.active_att ha]
    refine h.attached.drop hp hmem (by rw [hw]) hlocs (by rw [hloc']) (by rw [hloc'])
      (by rw [hloc']) (fun hpat => ?_) (by rw [hw]) (by rw [hw])
    rw [hloc'] at hpat ⊢
    simp only [Bool.and_eq_true, Bool.not_eq_true', List.isEmpty_eq_false_iff] at hpat
    exact hpat.2
  have hrow : ∀ q, q ≠ b → w'.row q = w.row q := by
    intro q hq
    have hbps : w'.bps = Function.update w.bps b none := by rw [hw]
    rw [World.row, hbps, Function.update_of_ne hq, World.row]
  have hrows : w'.rows = Row.remove w.rows bp.id :=
    rows_remove h.registry hb (by rw [hw]) hrow
  have hmapped : w'.bpLocations.isSome := by rw [hw]; exact h.state.mp ha
  have hpending : w'.pendingBreakpoints = w.pendingBreakpoints.erase b := by rw [hw]
  have hload : w'.loadAddress = w.loadAddress := by rw [hw]
  have hp' : w'.locs p = some loc' := by rw [hlocs, Function.update_self]
  refine .of_patched ⟨hreg, ?_, iff_of_true (by rw [hw]; exact ha) hmapped,
    .of_user fun q l hl => ?_⟩ hrows (by rw [hw]) hload
    (by rw [hw]; rfl) fun _ =>
    ⟨bp.instrAddr, h.find_row hb, fun a' => ?_⟩
  · rwa [World.attachedBps, if_pos hmapped, hpending]
  · rcases locs_cases hlocs hl with ⟨-, ⟨⟩⟩ | ⟨-, hl⟩
    · rw [hloc']; exact htemp
    · exact h.planted.user hl
  · have hbefore := World.isPatched_eq (h.attached.registered p loc hp) hp
    have hlist : loc'.bpList =
        w'.runningAt w'.pendingBreakpoints (bp.instrAddr + w'.loadAddress) := by
      rw [hatt.list_user hp' (by rw [hloc']; exact htemp), hpending, hload, ← hrun]
      rw [hloc']
    rw [isPatched_update h.attached.toMapped hp hlocs (by rw [hw]) a', ← hrun, hbefore,
      World.sharing_rows, ← hlist, Edit.patch, isEmpty_rows (hatt.listed_live hp'), hloc']

/-- `remove_breakpoint` takes an attached breakpoint out of the list, the map of ids and its
location. -/
theorem removeBreakpoint_attached_eq {p : LocPtr} {loc : BpLocation} (h : Registry w)
    (hb : w.bps b = some bp) (hl : bp.location = some p) (hp : w.locs p = some loc) :
    ∃ ht, w.breakpoints = some ht ∧ removeBreakpoint k w b =
      let loc' := { loc with bpList := loc.bpList.erase b }
      let armed := if (loc.bpList.erase b).isEmpty then disarm k w.tracee loc' else (loc', w.tracee)
      .ok { w with
        pendingBreakpoints := w.pendingBreakpoints.erase b
        breakpoints := some (ht.unlink bp.id), bps := Function.update w.bps b none
        locs := Function.update w.locs p (some armed.1), tracee := armed.2 } := by
  obtain ⟨ht, hht, hcf⟩ := h.table
  have hlookup := (h.lookup bp.id b).mpr ⟨bp, hb, rfl⟩
  refine ⟨ht, hht, ?_⟩
  unfold removeBreakpoint
  rw [deleteBreakpoint_eq (w := deleteBreakpointFromPending w b) hht hcf hb hlookup,
    bpFree_attached_eq (w := { deleteBreakpointFromPending w b with breakpoints := _ }) hb hl hp]
  rfl

/-- `remove_breakpoint` is an edit, with its rule that only an emptied list takes the patch away. -/
theorem removeBreakpoint_edited (h : Ready w []) (hok : removeBreakpoint k w b = .ok w') :
    ∃ bp, w.bps b = some bp ∧ Edited w w' (.delete bp.id) := by
  obtain ⟨bp, hb, -⟩ := bind_eq_ok.mp hok
  rw [World.derefBp_eq_ok] at hb
  replace hb : w.bps b = some bp := hb
  refine ⟨bp, hb, ?_⟩
  obtain ⟨ht, hht, hcf⟩ := h.registry.table
  have hlookup := (h.registry.lookup bp.id b).mpr ⟨bp, hb, rfl⟩
  have hfind : ∀ id, mapLookup (some (ht.unlink bp.id)) id =
      if id = bp.id then none else mapLookup w.breakpoints id := by
    rw [hht]
    exact ht.find_unlink bp.id
  have hids : ∀ q, ((Function.update w.bps b none) q).map Breakpoint.id =
      if q = b then none else (w.bps q).map Breakpoint.id := by
    intro q
    by_cases hq : q = b <;> simp [hq]
  have hrow : ∀ w'' : World, w''.bps = Function.update w.bps b none →
      ∀ q, q ≠ b → w''.row q = w.row q := by
    intro w'' hbps q hq
    rw [World.row, hbps, Function.update_of_ne hq, World.row]
  by_cases ha : w.state = .active
  · obtain ⟨p, loc, hl, hp, htemp, hrun, hreg, hlist⟩ := h.location ha hb
    have hmem : b ∈ loc.bpList := by
      rw [hlist]
      exact World.mem_runningAt.mpr ⟨h.registry.mem hb, World.target_eq hb⟩
    obtain ⟨ht', hht', heq⟩ := removeBreakpoint_attached_eq (k := k) h.registry hb hl hp
    obtain rfl := Option.some.inj (hht.symm.trans hht')
    obtain rfl := Except.ok.inj (heq.symm.trans hok)
    refine h.release (b := b) ha hb hp htemp hrun hmem (show (ht.unlink bp.id).cf = true from hcf) hfind
      ?_ rfl
    split_ifs with he
    · rw [disarm_fst, he]; simp
    · rw [Bool.eq_false_iff.mpr he]; simp
  · have hl := h.detached ha hb
    unfold removeBreakpoint at hok
    rw [deleteBreakpoint_eq (w := deleteBreakpointFromPending w b) hht hcf hb hlookup,
      bpFree_detached_eq (w := { deleteBreakpointFromPending w b with breakpoints := _ }) hb hl]
      at hok
    cases hok
    set w₁ := World.freeBp { deleteBreakpointFromPending w b with
      breakpoints := some (ht.unlink bp.id) } b with hw₁
    have hreg' : Registry w₁ :=
      h.registry.release hb rfl rfl hcf hfind hids rfl rfl fun _ => id
    refine .of_patched ⟨hreg', ?_, h.state, h.planted.nodup, h.planted.temp, h.planted.there⟩
      (rows_remove h.registry hb rfl (hrow _ rfl)) rfl rfl rfl fun hact => absurd hact ha
    have hatt : b ∉ w.attachedBps := by rw [h.inactive_att ha]; exact List.not_mem_nil
    have hout : Attached w₁ w.attachedBps :=
      h.attached.outside hatt (v := none) (by simp) rfl rfl rfl rfl
    rw [h.inactive_att ha] at hout
    rwa [World.attachedBps, show w₁.bpLocations = none from h.inactive_none ha]

/-- The location at the address of a breakpoint is deleted, and the breakpoint is then detached. -/
theorem Attached.deleteLocation (h : Attached w att) (hb : w.bps b = some bp)
    (hok : deleteLocation k w (bp.instrAddr + w.loadAddress) = .ok w') :
    ∃ att' bp', Attached w' att' ∧ (∀ q ∈ att', q ∈ att) ∧ b ∉ att' ∧
      w'.bps b = some bp' ∧ bp'.id = bp.id ∧
      (∀ q, (w'.bps q).map Breakpoint.id = (w.bps q).map Breakpoint.id) ∧
      (∀ p loc, w'.locs p = some loc → w.locs p = some loc) ∧
      w' = { w with bps := w'.bps, locs := w'.locs, bpLocations := w'.bpLocations, tracee := w'.tracee }
      ∧ (w'.bpLocations.isSome = w.bpLocations.isSome) := by
  rcases hp : mapLookup w.bpLocations (bp.instrAddr + w.loadAddress) with - | p
  · rw [deleteLocation_absent hp] at hok
    cases hok
    refine ⟨att, bp, h, fun _ => id, fun hmem => ?_, hb, rfl, fun _ => rfl, fun _ _ => id,
      rfl, rfl⟩
    obtain ⟨p, loc, -, -, -, hrun, hreg, -⟩ := h.location hmem hb
    rw [hrun, hp] at hreg
    cases hreg
  · obtain ⟨loc, hloc, hrun⟩ := h.stored _ p hp
    obtain ⟨ht, hdel, hcf, hlookup⟩ := deleteLocation_eq (k := k) h hloc
    rw [hrun] at hdel
    obtain rfl := Except.ok.inj (hdel.symm.trans hok)
    have hids : ∀ q, ((w.detach loc.bpList).bps q).map Breakpoint.id =
        (w.bps q).map Breakpoint.id := by
      intro q
      by_cases hq : q ∈ loc.bpList
      · rw [World.detach_bps_of_mem hq, Option.map_map]; rfl
      · rw [World.detach_bps_of_not_mem hq]
    obtain ⟨bp', hb', hid⟩ := Option.map_eq_some_iff.mp
      ((hids b).trans (by rw [hb, Option.map_some]))
    refine ⟨att.filter fun q => q ∉ loc.bpList, bp',
      h.delete hloc rfl rfl (by simpa [World.freeLoc, World.setTracee] using hlookup)
        (fun ht' he => by rw [← Option.some.inj he]; exact hcf) rfl,
      fun q hq => List.mem_of_mem_filter hq, fun hmem => ?_, hb', hid, hids, fun q l hl => ?_, rfl,
      (Option.isSome_iff_exists.mpr ⟨_, rfl⟩).trans ?_⟩
    · obtain ⟨hatt, hnot⟩ := List.mem_filter.mp hmem
      obtain ⟨p', loc', -, hp', -, hrun', hreg', hlist'⟩ := h.location hatt hb
      rw [hrun'] at hreg'
      obtain rfl := Option.some.inj (hp.symm.trans hreg')
      obtain rfl := Option.some.inj (hloc.symm.trans hp')
      exact absurd hlist' (by simpa using hnot)
    · rcases locs_cases (f := w.locs) (v := none) rfl hl with ⟨-, ⟨⟩⟩ | ⟨-, hl⟩
      exact hl
    · rcases hbl : w.bpLocations with - | _
      · rw [hbl] at hp; cases hp
      · rfl

/-- Part of the pending breakpoints, those of `att`, are attached, as while all are deleted. -/
structure Holding (w : World) (att : List BpPtr) : Prop where
  registry : Registry w
  attached : Attached w att
  pending : ∀ b ∈ att, b ∈ w.pendingBreakpoints
  state : w.state = .active ↔ w.bpLocations.isSome
  planted : Planted w []

theorem Ready.holding (h : Ready w []) : Holding w w.attachedBps := by
  refine ⟨h.registry, h.attached, fun b hb => ?_, h.state, h.planted⟩
  rw [World.attachedBps] at hb
  split_ifs at hb
  · exact hb
  · cases hb

/-- A turn of `remove_all_breakpoints`. -/
theorem Holding.removeOne (h : Holding w att) (hok : removeOne k w b = .ok w') :
    ∃ att', Holding w' att' ∧ w'.pendingBreakpoints = w.pendingBreakpoints.erase b ∧
      w'.state = w.state ∧ w'.loadAddress = w.loadAddress ∧
      w'.globalIdCounter = w.globalIdCounter := by
  unfold Vdbg.removeOne at hok
  obtain ⟨bp, hb, hok⟩ := bind_eq_ok.mp hok
  rw [World.derefBp_eq_ok] at hb
  obtain ⟨w₂, hdel, hok⟩ := bind_eq_ok.mp hok
  have hatt : Attached (deleteBreakpointFromPending w b) att :=
    h.attached.congr (fun _ => rfl) (fun _ => rfl) rfl rfl h.attached.armed
  obtain ⟨att', bp', hatt', hsub, hnot, hb', hid, hids, hlocs, hrest, hsome⟩ :=
    hatt.deleteLocation hb hdel
  have hpending : w₂.pendingBreakpoints = w.pendingBreakpoints.erase b := by rw [hrest]; rfl
  have htable : w₂.breakpoints = w.breakpoints := by rw [hrest]; rfl
  obtain ⟨ht, hht, hcf⟩ := h.registry.table
  have hlookup := (h.registry.lookup bp.id b).mpr ⟨bp, hb, rfl⟩
  have hl : bp'.location = none := hatt'.detached b bp' hb' hnot
  rw [deleteBreakpoint_eq (htable.trans hht) hcf hb' (by rw [htable, hid]; exact hlookup),
    bpFree_detached_eq (w := { w₂ with breakpoints := some (ht.unlink bp'.id) }) hb' hl] at hok
  cases hok
  set w₃ := World.freeBp { w₂ with breakpoints := some (ht.unlink bp'.id) } b with hw₃
  have hreg : Registry w₃ := by
    refine h.registry.release hb hpending rfl hcf (fun id => ?_) (fun q => ?_) ?_ ?_ fun p hp => ?_
    · rw [hid, hht]
      exact ht.find_unlink bp.id id
    · rw [hw₃, World.freeBp]
      by_cases hq : q = b
      · simp [hq]
      · simp only [Function.update_of_ne hq, if_neg hq]
        exact hids q
    · show w₂.globalIdCounter = w.globalIdCounter
      rw [hrest]; rfl
    · show w₂.nextPtr = w.nextPtr
      rw [hrest]; rfl
    · obtain ⟨loc, hloc⟩ := Option.isSome_iff_exists.mp hp
      exact Option.isSome_iff_exists.mpr ⟨loc, hlocs p loc hloc⟩
  refine ⟨att', ⟨hreg, ?_, fun q hq => ?_, ?_, .of_user fun p loc hp => ?_⟩, hpending, ?_, ?_, ?_⟩
  · exact hatt'.outside hnot (v := none) (by simp) rfl rfl rfl rfl
  · have hqb : q ≠ b := fun he => hnot (he ▸ hq)
    show q ∈ w₂.pendingBreakpoints
    rw [hpending]
    exact (List.mem_erase_of_ne hqb).mpr (h.pending q (hsub q hq))
  · show w₂.state = .active ↔ w₂.bpLocations.isSome
    rw [hsome, show w₂.state = w.state by rw [hrest]; rfl]
    exact h.state
  · exact h.planted.user (hlocs p loc hp)
  · show w₂.state = w.state
    rw [hrest]; rfl
  · show w₂.loadAddress = w.loadAddress
    rw [hrest]; rfl
  · show w₂.globalIdCounter = w.globalIdCounter
    rw [hrest]; rfl

/-- `remove_all_breakpoints` leaves no breakpoint. -/
theorem removeAllBreakpoints_ready (h : Ready w []) (hok : removeAllBreakpoints k w = .ok w') :
    Ready w' [] ∧ w'.pendingBreakpoints = [] ∧ w'.state = w.state ∧
      w'.globalIdCounter = w.globalIdCounter := by
  have hrun : ∀ (bs : List BpPtr) {w w' : World} {att : List BpPtr}, Holding w att →
      w.pendingBreakpoints = bs → bs.foldlM (Vdbg.removeOne k) w = .ok w' →
      ∃ att', Holding w' att' ∧ w'.pendingBreakpoints = [] ∧ w'.state = w.state ∧
        w'.globalIdCounter = w.globalIdCounter := by
    intro bs
    induction bs with
    | nil =>
      intro w w' att h hp hok
      cases hok
      exact ⟨att, h, hp, rfl, rfl⟩
    | cons b bs ih =>
      intro w w' att h hp hok
      obtain ⟨w₁, h1, hok⟩ := foldlM_cons_eq_ok.mp hok
      obtain ⟨att₁, hhold, hpending, hstate, -, hcounter⟩ := h.removeOne h1
      rw [hp, List.erase_cons_head] at hpending
      obtain ⟨att', hhold', hnil, hstate', hcounter'⟩ := ih hhold hpending hok
      exact ⟨att', hhold', hnil, hstate'.trans hstate, hcounter'.trans hcounter⟩
  obtain ⟨att', hhold, hnil, hstate, hcounter⟩ := hrun _ h.holding rfl hok
  have hatt : att' = [] := List.eq_nil_iff_forall_not_mem.mpr fun b hb => by
    have hmem := hhold.pending b hb
    rw [hnil] at hmem
    cases hmem
  refine ⟨⟨hhold.registry, ?_, hhold.state, hhold.planted⟩, hnil, hstate, hcounter⟩
  have hatt' := hhold.attached
  rw [hatt] at hatt'
  rwa [World.attachedBps, hnil, ite_self]

end Deleting

end Vdbg
