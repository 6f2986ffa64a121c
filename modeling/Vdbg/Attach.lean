import Vdbg.BreakpointSpec

/-!
# Attachment

The relation between breakpoints and locations is stored three times: in the map of locations, in
the back pointer of a breakpoint and in the list of a location. `Attached w att` says that the three
agree and that the attached breakpoints are those of `att`. It holds with a part of the pending list
while that list is being resolved or deleted, and with all of it at a prompt. `Registry w` says the
same of the pending list, the map of ids and the heap.

Each section treats one way in which an operation moves the relation.
-/

namespace Vdbg

open FaultRun

namespace World

/-- The address a breakpoint runs at. -/
def target (w : World) (b : BpPtr) : Option Addr :=
  (w.bps b).map fun bp => bp.instrAddr + w.loadAddress

/-- The listed breakpoints that run at an address. -/
def runningAt (w : World) (bs : List BpPtr) (a : Addr) : List BpPtr :=
  bs.filter fun b => w.target b = some a

variable {w : World} {b : BpPtr} {bs : List BpPtr} {a : Addr}

theorem target_eq {bp : Breakpoint} (h : w.bps b = some bp) :
    w.target b = some (bp.instrAddr + w.loadAddress) := by
  rw [target, h, Option.map_some]

theorem mem_runningAt : b ∈ w.runningAt bs a ↔ b ∈ bs ∧ w.target b = some a := by
  simp [runningAt]

theorem runningAt_congr {w' : World} (h : ∀ b ∈ bs, w'.target b = w.target b) :
    w'.runningAt bs a = w.runningAt bs a :=
  List.filter_congr fun b hb => by rw [h b hb]

end World

/-- What links a breakpoint to a location. -/
def Breakpoint.link (bp : Breakpoint) : Addr × Option LocPtr := (bp.instrAddr, bp.location)

/-- What links a location to breakpoints. -/
def BpLocation.shape (loc : BpLocation) : Bool × Addr × List BpPtr :=
  (loc.isTemp, loc.runningAddr, loc.bpList)

/-! ## The map of locations -/

/-- The map of locations and the heap hold the same locations. -/
structure Mapped (w : World) : Prop where
  cleans : ∀ ht, w.bpLocations = some ht → ht.cf = true
  registered : ∀ p loc, w.locs p = some loc → mapLookup w.bpLocations loc.runningAddr = some p
  stored : ∀ a p, mapLookup w.bpLocations a = some p →
    ∃ loc, w.locs p = some loc ∧ loc.runningAddr = a

namespace World

/-- Whether the location registered at a running address is patched. -/
def isPatched (w : World) (a : Addr) : Bool :=
  ((mapLookup w.bpLocations a).bind w.locs).any BpLocation.patched

variable {w : World} {a : Addr}

theorem isPatched_eq {p : LocPtr} {loc : BpLocation} (h : mapLookup w.bpLocations a = some p)
    (hp : w.locs p = some loc) : w.isPatched a = loc.patched := by
  rw [isPatched, h, Option.bind_some, hp, Option.any_some]

theorem isPatched_absent (h : mapLookup w.bpLocations a = none) : w.isPatched a = false := by
  rw [isPatched, h]; rfl

/-- Only the location registered at an address matters. -/
theorem isPatched_congr {w' : World} (ha : mapLookup w'.bpLocations a = mapLookup w.bpLocations a)
    (hlocs : ∀ p, mapLookup w.bpLocations a = some p → w'.locs p = w.locs p) :
    w'.isPatched a = w.isPatched a := by
  unfold isPatched
  rw [ha]
  rcases hp : mapLookup w.bpLocations a with - | p
  · rfl
  · rw [Option.bind_some, Option.bind_some, hlocs p hp]

end World

section Mapped

variable {w w' : World} {p : LocPtr} {loc loc' : BpLocation} {a : Addr}

/-- The location the map stores under its running address. -/
theorem Mapped.ptr_eq (h : Mapped w) (hp : w.locs p = some loc) {q : LocPtr}
    (hq : mapLookup w.bpLocations loc.runningAddr = some q) : q = p :=
  Option.some.inj (hq.symm.trans (h.registered p loc hp))

theorem Mapped.isPatched_loc (h : Mapped w) (hp : w.locs p = some loc) :
    w.isPatched loc.runningAddr = loc.patched :=
  World.isPatched_eq (h.registered p loc hp) hp

/-- The patches after the update of one location. -/
theorem isPatched_update (h : Mapped w) (hp : w.locs p = some loc)
    (hlocs : w'.locs = Function.update w.locs p (some loc')) (htable : w'.bpLocations = w.bpLocations)
    (a : Addr) :
    w'.isPatched a = if a = loc.runningAddr then loc'.patched else w.isPatched a := by
  split_ifs with ha
  · refine World.isPatched_eq (p := p) ?_ (by rw [hlocs, Function.update_self])
    rw [htable, ha, h.registered p loc hp]
  · refine World.isPatched_congr (by rw [htable]) fun q hq => ?_
    rw [hlocs, Function.update_of_ne]
    rintro rfl
    obtain ⟨l, hl, hla⟩ := h.stored a q hq
    exact ha (by rw [← hla, Option.some.inj (hl.symm.trans hp)])

end Mapped

/-! ## Attached breakpoints -/

/-- The breakpoints of `att`, and no others, are attached, each to the location the map stores under
the address it runs at. -/
structure Attached (w : World) (att : List BpPtr) : Prop extends Mapped w where
  nodup : att.Nodup
  list : ∀ p loc, w.locs p = some loc →
    loc.bpList = if loc.isTemp then [] else w.runningAt att loc.runningAddr
  armed : ∀ p loc, w.locs p = some loc → loc.isTemp = false → loc.patched = true → loc.bpList ≠ []
  attached : ∀ b ∈ att, ∃ bp p loc, w.bps b = some bp ∧ bp.location = some p ∧
    w.locs p = some loc ∧ loc.isTemp = false ∧ loc.runningAddr = bp.instrAddr + w.loadAddress
  detached : ∀ b bp, w.bps b = some bp → b ∉ att → bp.location = none

/-- The pending list and the map of ids hold the live breakpoints, and the next pointer and the next
id are fresh. -/
structure Registry (w : World) : Prop where
  nodup : w.pendingBreakpoints.Nodup
  live : ∀ b, b ∈ w.pendingBreakpoints ↔ (w.bps b).isSome
  table : ∃ ht, w.breakpoints = some ht ∧ ht.cf = true
  lookup : ∀ id b, mapLookup w.breakpoints id = some b ↔ ∃ bp, w.bps b = some bp ∧ bp.id = id
  counted : ∀ b bp, w.bps b = some bp → bp.id ≠ 0 ∧ bp.id ≤ w.globalIdCounter - 1
  bpFresh : ∀ b, (w.bps b).isSome → b < w.nextPtr
  locFresh : ∀ p, (w.locs p).isSome → p < w.nextPtr

/-- A location of an updated heap. -/
theorem locs_cases {f g : LocPtr → Option BpLocation} {v : Option BpLocation} {p q : LocPtr}
    {l : BpLocation} (h : g = Function.update f p v) (hl : g q = some l) :
    q = p ∧ v = some l ∨ q ≠ p ∧ f q = some l := by
  rw [h, Function.update_apply] at hl
  split_ifs at hl with hq
  · exact .inl ⟨hq, hl⟩
  · exact .inr ⟨hq, hl⟩

namespace Attached

variable {w w' : World} {att : List BpPtr} {b : BpPtr} {bp : Breakpoint} {p : LocPtr}
  {loc : BpLocation} {a : Addr}

/-! ## Consequences -/

theorem live (h : Attached w att) (hb : b ∈ att) : (w.bps b).isSome := by
  obtain ⟨bp, p, loc, hbp, -⟩ := h.attached b hb
  rw [hbp]; rfl

theorem not_mem_of_dead (h : Attached w att) (hb : w.bps b = none) : b ∉ att := by
  intro hmem
  have hlive := h.live hmem
  rw [hb] at hlive
  cases hlive

theorem list_user (h : Attached w att) (hp : w.locs p = some loc) (ht : loc.isTemp = false) :
    loc.bpList = w.runningAt att loc.runningAddr := by
  rw [h.list p loc hp, ht]; rfl

theorem list_temp (h : Attached w att) (hp : w.locs p = some loc) (ht : loc.isTemp = true) :
    loc.bpList = [] := by
  rw [h.list p loc hp, ht]; rfl

theorem listed (h : Attached w att) (hp : w.locs p = some loc) (hb : b ∈ loc.bpList) :
    b ∈ att ∧ w.target b = some loc.runningAddr := by
  rw [h.list p loc hp] at hb
  split_ifs at hb
  · cases hb
  · exact World.mem_runningAt.mp hb

theorem listed_live (h : Attached w att) (hp : w.locs p = some loc) :
    ∀ b ∈ loc.bpList, (w.bps b).isSome :=
  fun _ hb => h.live (h.listed hp hb).1

/-- The location of an attached breakpoint, found through its address. -/
theorem location (h : Attached w att) (hb : b ∈ att) (hbp : w.bps b = some bp) :
    ∃ p loc, bp.location = some p ∧ w.locs p = some loc ∧ loc.isTemp = false ∧
      loc.runningAddr = bp.instrAddr + w.loadAddress ∧
      mapLookup w.bpLocations loc.runningAddr = some p ∧ b ∈ loc.bpList := by
  obtain ⟨bp', p, loc, hbp', hloc, hp, ht, ha⟩ := h.attached b hb
  obtain rfl : bp' = bp := Option.some.inj (hbp'.symm.trans hbp)
  refine ⟨p, loc, hloc, hp, ht, ha, h.registered p loc hp, ?_⟩
  rw [h.list_user hp ht, ha]
  exact World.mem_runningAt.mpr ⟨hb, World.target_eq hbp⟩

/-- No breakpoint runs at an address without a location. -/
theorem runningAt_absent (h : Attached w att) (ha : mapLookup w.bpLocations a = none) :
    w.runningAt att a = [] := by
  refine List.filter_eq_nil_iff.mpr fun b hb htarget => ?_
  obtain ⟨bp, p, loc, hbp, -, hp, -, hrun⟩ := h.attached b hb
  have hreg := h.registered p loc hp
  rw [hrun, ← Option.some.inj ((World.target_eq hbp).symm.trans (of_decide_eq_true htarget)).symm,
    ha] at hreg
  cases hreg

theorem of_none (h : Attached w att) (hn : w.bpLocations = none) : att = [] := by
  refine List.eq_nil_iff_forall_not_mem.mpr fun b hb => ?_
  obtain ⟨bp, p, loc, -, -, hp, -⟩ := h.attached b hb
  have hreg := h.registered p loc hp
  rw [hn] at hreg
  cases hreg

/-- Without the map of locations there is no location. -/
theorem locs_of_none (h : Attached w att) (hn : w.bpLocations = none) (p : LocPtr) :
    w.locs p = none := by
  refine Option.eq_none_iff_forall_ne_some.mpr fun loc hp => ?_
  have hreg := h.registered p loc hp
  rw [hn] at hreg
  cases hreg

/-- Nothing is attached where there is no location. -/
theorem empty (hlocs : ∀ p, w.locs p = none) (hlookup : ∀ a, mapLookup w.bpLocations a = none)
    (hcleans : ∀ ht, w.bpLocations = some ht → ht.cf = true)
    (hdetached : ∀ b bp, w.bps b = some bp → bp.location = none) : Attached w [] := by
  have hnone : ∀ {P : LocPtr → BpLocation → Prop} p loc, w.locs p = some loc → P p loc := by
    intro P p loc hp
    rw [hlocs p] at hp
    cases hp
  refine ⟨⟨hcleans, hnone, fun a p ha => ?_⟩, List.nodup_nil, hnone, hnone,
    fun _ hb => absurd hb List.not_mem_nil, fun b bp hb _ => hdetached b bp hb⟩
  rw [hlookup a] at ha
  cases ha

/-! ## Arming and flags -/

/-- Flags, saved bytes and all but the links may change. -/
theorem congr (h : Attached w att)
    (hbps : ∀ b, (w'.bps b).map Breakpoint.link = (w.bps b).map Breakpoint.link)
    (hlocs : ∀ p, (w'.locs p).map BpLocation.shape = (w.locs p).map BpLocation.shape)
    (htable : w'.bpLocations = w.bpLocations) (hload : w'.loadAddress = w.loadAddress)
    (harmed : ∀ p loc, w'.locs p = some loc → loc.isTemp = false → loc.patched = true →
      loc.bpList ≠ []) : Attached w' att := by
  have hbp : ∀ {b bp}, w'.bps b = some bp → ∃ bp', w.bps b = some bp' ∧ bp'.link = bp.link := by
    intro b bp hb
    have hm := hbps b
    rw [hb, Option.map_some] at hm
    exact Option.map_eq_some_iff.mp hm.symm
  have hloc : ∀ {p loc}, w'.locs p = some loc →
      ∃ loc', w.locs p = some loc' ∧ loc'.shape = loc.shape := by
    intro p loc hp
    have hm := hlocs p
    rw [hp, Option.map_some] at hm
    exact Option.map_eq_some_iff.mp hm.symm
  have htarget : ∀ b, w'.target b = w.target b := by
    intro b
    have hm := congrArg (Option.map fun l => l.1 + w.loadAddress) (hbps b)
    simpa only [World.target, hload, Option.map_map, Function.comp_def, Breakpoint.link] using hm
  have hrun : ∀ a, w'.runningAt att a = w.runningAt att a :=
    fun a => World.runningAt_congr fun b _ => htarget b
  refine ⟨⟨?_, ?_, ?_⟩, h.nodup, ?_, harmed, ?_, ?_⟩
  · rw [htable]; exact h.cleans
  · intro p loc hp
    obtain ⟨loc', hp', hs⟩ := hloc hp
    simp only [BpLocation.shape, Prod.mk.injEq] at hs
    rw [htable, ← hs.2.1]
    exact h.registered p loc' hp'
  · intro a p ha
    rw [htable] at ha
    obtain ⟨loc, hp, hrunning⟩ := h.stored a p ha
    have hm := hlocs p
    rw [hp, Option.map_some] at hm
    obtain ⟨loc', hp', hs⟩ := Option.map_eq_some_iff.mp hm
    simp only [BpLocation.shape, Prod.mk.injEq] at hs
    exact ⟨loc', hp', hs.2.1.trans hrunning⟩
  · intro p loc hp
    obtain ⟨loc', hp', hs⟩ := hloc hp
    simp only [BpLocation.shape, Prod.mk.injEq] at hs
    rw [hrun, ← hs.1, ← hs.2.1, ← hs.2.2]
    exact h.list p loc' hp'
  · intro b hb
    obtain ⟨bp, p, loc, hbp, hl, hp, ht, ha⟩ := h.attached b hb
    have hm := hbps b
    rw [hbp, Option.map_some] at hm
    obtain ⟨bp', hbp', hs⟩ := Option.map_eq_some_iff.mp hm
    have hm' := hlocs p
    rw [hp, Option.map_some] at hm'
    obtain ⟨loc', hp', hs'⟩ := Option.map_eq_some_iff.mp hm'
    simp only [Breakpoint.link, BpLocation.shape, Prod.mk.injEq] at hs hs'
    exact ⟨bp', p, loc', hbp', hs.2.trans hl, hp', hs'.1.trans ht, by
      rw [hs'.2.1, ha, hs.1, hload]⟩
  · intro b bp hb hmem
    obtain ⟨bp', hb', hs⟩ := hbp hb
    simp only [Breakpoint.link, Prod.mk.injEq] at hs
    rw [← hs.2]
    exact h.detached b bp' hb' hmem

/-! ## A breakpoint joins a location -/

/-- The breakpoint `b` joins the location under its address, an existing one or a fresh one. -/
theorem attach (h : Attached w att) (hb : w.bps b = some bp) (hmem : b ∉ att)
    (ha : a = bp.instrAddr + w.loadAddress)
    (hold : mapLookup w.bpLocations a = some p ∨ w.locs p = none ∧ mapLookup w.bpLocations a = none)
    (hbps : w'.bps = Function.update w.bps b (some { bp with location := some p }))
    (hlocs : w'.locs = Function.update w.locs p (some loc))
    (htemp : loc.isTemp = false) (hrun : loc.runningAddr = a)
    (hlist : loc.bpList = w.runningAt att a ++ [b])
    (hlookup : ∀ a', mapLookup w'.bpLocations a' =
      if a' = a then some p else mapLookup w.bpLocations a')
    (hcleans : ∀ ht, w'.bpLocations = some ht → ht.cf = true)
    (hload : w'.loadAddress = w.loadAddress) : Attached w' (att ++ [b]) := by
  have htarget : ∀ q, w'.target q = w.target q := by
    intro q
    by_cases hq : q = b
    · subst hq
      simp [World.target, hbps, hb, hload]
    · simp [World.target, hbps, hq, hload]
  have hrunning : ∀ a', w'.runningAt (att ++ [b]) a' =
      w.runningAt att a' ++ if a' = a then [b] else [] := by
    intro a'
    rw [World.runningAt, List.filter_append, World.runningAt]
    congr 1
    · exact List.filter_congr fun q _ => by rw [htarget]
    · have : (w'.target b = some a') ↔ a' = a := by
        rw [htarget, World.target_eq hb, ← ha, Option.some.injEq, eq_comm]
      by_cases ha' : a' = a
      · rw [if_pos ha', List.filter_singleton, decide_eq_true (this.mpr ha')]; rfl
      · rw [if_neg ha', List.filter_singleton, decide_eq_false (mt this.mp ha')]; rfl
  -- a location other than `p` is registered under another address
  have hother : ∀ q l, q ≠ p → w.locs q = some l → l.runningAddr ≠ a := by
    intro q l hq hl he
    have hreg := h.registered q l hl
    rw [he] at hreg
    rcases hold with hold | ⟨-, hold⟩
    · exact hq (Option.some.inj (hreg.symm.trans hold))
    · rw [hold] at hreg; cases hreg
  have hnodup : (att ++ [b]).Nodup := by
    refine List.nodup_append.mpr ⟨h.nodup, List.nodup_singleton b, ?_⟩
    rintro q hq r hr rfl
    exact hmem (List.mem_singleton.mp hr ▸ hq)
  refine ⟨⟨hcleans, ?_, ?_⟩, hnodup, ?_, ?_, ?_, ?_⟩
  · intro q l hl
    rcases locs_cases hlocs hl with ⟨rfl, ⟨⟩⟩ | ⟨hq, hl⟩
    · rw [hlookup, if_pos hrun]
    · rw [hlookup, if_neg (hother q l hq hl)]
      exact h.registered q l hl
  · intro a' q hq
    rw [hlookup] at hq
    split_ifs at hq with ha'
    · obtain rfl := Option.some.inj hq
      exact ⟨loc, by rw [hlocs, Function.update_self], by rw [ha', hrun]⟩
    · obtain ⟨l, hl, hla⟩ := h.stored a' q hq
      refine ⟨l, ?_, hla⟩
      rw [hlocs, Function.update_of_ne, hl]
      rintro rfl
      rcases hold with hold | ⟨hold, -⟩
      · obtain ⟨l', hl', hla'⟩ := h.stored a q hold
        rw [hl] at hl'
        exact ha' (by rw [← hla, ← hla', Option.some.inj hl'])
      · rw [hold] at hl; cases hl
  · intro q l hl
    rcases locs_cases hlocs hl with ⟨rfl, ⟨⟩⟩ | ⟨hq, hl⟩
    · rw [htemp, hrun, hrunning, if_pos rfl, hlist]; rfl
    · rw [hrunning, if_neg (hother q l hq hl), List.append_nil]
      exact h.list q l hl
  · intro q l hl
    rcases locs_cases hlocs hl with ⟨rfl, ⟨⟩⟩ | ⟨-, hl⟩
    · simp [hlist]
    · exact h.armed q l hl
  · intro q hq
    by_cases hqb : q = b
    · subst hqb
      exact ⟨_, p, loc, by rw [hbps, Function.update_self], rfl, by rw [hlocs, Function.update_self],
        htemp, by rw [hrun, ha, hload]⟩
    · have hq' : q ∈ att := by simpa [hqb] using hq
      obtain ⟨bq, r, l, hbq, hloc, hl, ht, hla⟩ := h.attached q hq'
      by_cases hr : r = p
      · subst hr
        refine ⟨bq, r, loc, by rw [hbps, Function.update_of_ne hqb, hbq], hloc,
          by rw [hlocs, Function.update_self], htemp, ?_⟩
        rcases hold with hold | ⟨hold, -⟩
        · obtain ⟨l', hl', hla'⟩ := h.stored a r hold
          rw [hl] at hl'
          rw [hrun, hload, ← hla, Option.some.inj hl', hla']
        · rw [hold] at hl; cases hl
      · exact ⟨bq, r, l, by rw [hbps, Function.update_of_ne hqb, hbq], hloc,
          by rw [hlocs, Function.update_of_ne hr, hl], ht, by rw [hload, hla]⟩
  · intro q bq hq hmem'
    simp only [List.mem_append, List.mem_singleton, not_or] at hmem'
    rw [hbps, Function.update_of_ne hmem'.2] at hq
    exact h.detached q bq hq hmem'.1

/-! ## A breakpoint leaves -/

/-- An attached breakpoint is freed and leaves the list of its location. -/
theorem drop (h : Attached w att) (hp : w.locs p = some loc) (hb : b ∈ loc.bpList)
    {loc' : BpLocation} (hbps : w'.bps = Function.update w.bps b none)
    (hlocs : w'.locs = Function.update w.locs p (some loc'))
    (htemp : loc'.isTemp = loc.isTemp) (hrun : loc'.runningAddr = loc.runningAddr)
    (hlist : loc'.bpList = loc.bpList.erase b)
    (harmed : loc'.patched = true → loc'.bpList ≠ [])
    (htable : w'.bpLocations = w.bpLocations) (hload : w'.loadAddress = w.loadAddress) :
    Attached w' (att.erase b) := by
  obtain ⟨hatt, htargetb⟩ := h.listed hp hb
  have hntemp : loc.isTemp = false := by
    by_contra ht
    rw [h.list_temp hp (by simpa using ht)] at hb
    cases hb
  have htarget : ∀ q ∈ att.erase b, w'.target q = w.target q := by
    intro q hq
    have hqb : q ≠ b := (h.nodup.mem_erase_iff.mp hq).1
    simp [World.target, hbps, hqb, hload]
  have hrunning : ∀ a', w'.runningAt (att.erase b) a' = (w.runningAt att a').erase b := by
    intro a'
    rw [World.runningAt_congr htarget, h.nodup.erase_eq_filter, World.runningAt, World.runningAt,
      (h.nodup.filter _).erase_eq_filter, List.filter_comm]
  refine ⟨⟨by rw [htable]; exact h.cleans, ?_, ?_⟩, h.nodup.erase b, ?_, ?_, ?_, ?_⟩
  · intro q l hl
    rw [htable]
    rcases locs_cases hlocs hl with ⟨rfl, ⟨⟩⟩ | ⟨-, hl⟩
    · rw [hrun]; exact h.registered q loc hp
    · exact h.registered q l hl
  · intro a' q hq
    rw [htable] at hq
    obtain ⟨l, hl, hla⟩ := h.stored a' q hq
    by_cases hqp : q = p
    · subst hqp
      obtain rfl := Option.some.inj (hp.symm.trans hl)
      exact ⟨loc', by rw [hlocs, Function.update_self], hrun.trans hla⟩
    · exact ⟨l, by rw [hlocs, Function.update_of_ne hqp, hl], hla⟩
  · intro q l hl
    rcases locs_cases hlocs hl with ⟨rfl, ⟨⟩⟩ | ⟨hq, hl⟩
    · rw [htemp, hntemp, hrun, hrunning, hlist, h.list_user hp hntemp]; rfl
    · rw [hrunning, List.erase_of_not_mem]
      · exact h.list q l hl
      · intro hmem
        have ha : l.runningAddr = loc.runningAddr :=
          Option.some.inj ((World.mem_runningAt.mp hmem).2.symm.trans htargetb)
        have hreg := h.registered q l hl
        rw [ha] at hreg
        exact hq (h.ptr_eq hp hreg)
  · intro q l hl ht
    rcases locs_cases hlocs hl with ⟨rfl, ⟨⟩⟩ | ⟨-, hl⟩
    · exact harmed
    · exact h.armed q l hl ht
  · intro q hq
    obtain ⟨hqb, hq⟩ := h.nodup.mem_erase_iff.mp hq
    obtain ⟨bq, r, l, hbq, hloc, hl, ht, hla⟩ := h.attached q hq
    have hbq' : w'.bps q = some bq := by rw [hbps, Function.update_of_ne hqb, hbq]
    by_cases hr : r = p
    · subst hr
      obtain rfl := Option.some.inj (hp.symm.trans hl)
      exact ⟨bq, r, loc', hbq', hloc, by rw [hlocs, Function.update_self], htemp.trans ht, by
        rw [hrun, hla, hload]⟩
    · exact ⟨bq, r, l, hbq', hloc, by rw [hlocs, Function.update_of_ne hr, hl], ht, by
        rw [hload, hla]⟩
  · intro q bq hq hmem
    rw [hbps, Function.update_apply] at hq
    split_ifs at hq with hqb
    exact h.detached q bq hq fun hatt' => hmem (h.nodup.mem_erase_iff.mpr ⟨hqb, hatt'⟩)

/-- A breakpoint without a location is made or freed. -/
theorem outside (h : Attached w att) (hb : b ∉ att) {v : Option Breakpoint}
    (hv : ∀ bp, v = some bp → bp.location = none) (hbps : w'.bps = Function.update w.bps b v)
    (hlocs : w'.locs = w.locs) (htable : w'.bpLocations = w.bpLocations)
    (hload : w'.loadAddress = w.loadAddress) : Attached w' att := by
  have hne : ∀ q ∈ att, q ≠ b := fun q hq he => hb (he ▸ hq)
  have htarget : ∀ q ∈ att, w'.target q = w.target q := by
    intro q hq
    simp [World.target, hbps, hne q hq, hload]
  refine ⟨⟨by rw [htable]; exact h.cleans, by rw [hlocs, htable]; exact h.registered,
    by rw [hlocs, htable]; exact h.stored⟩, h.nodup, ?_, by rw [hlocs]; exact h.armed, ?_, ?_⟩
  · intro q l hl
    rw [World.runningAt_congr htarget]
    exact h.list q l (hlocs ▸ hl)
  · intro q hq
    obtain ⟨bq, r, l, hbq, hrest⟩ := h.attached q hq
    rw [hlocs, hload]
    exact ⟨bq, r, l, by rw [hbps, Function.update_of_ne (hne q hq), hbq], hrest⟩
  · intro q bq hq hmem
    rw [hbps, Function.update_apply] at hq
    split_ifs at hq with hqb
    · exact hv bq hq
    · exact h.detached q bq hq hmem

/-! ## A location comes or goes -/

/-- A temporary location is registered. -/
theorem insertTemp (h : Attached w att) (hp : w.locs p = none)
    (ha : mapLookup w.bpLocations a = none) (hbps : w'.bps = w.bps)
    (hlocs : w'.locs = Function.update w.locs p (some loc)) (htemp : loc.isTemp = true)
    (hrun : loc.runningAddr = a) (hlist : loc.bpList = [])
    (hlookup : ∀ a', mapLookup w'.bpLocations a' =
      if a' = a then some p else mapLookup w.bpLocations a')
    (hcleans : ∀ ht, w'.bpLocations = some ht → ht.cf = true)
    (hload : w'.loadAddress = w.loadAddress) : Attached w' att := by
  have htarget : ∀ q, w'.target q = w.target q := fun q => by simp [World.target, hbps, hload]
  have hkeep : ∀ q l, w.locs q = some l → w'.locs q = some l := by
    intro q l hl
    rw [hlocs, Function.update_of_ne, hl]
    rintro rfl
    rw [hp] at hl; cases hl
  refine ⟨⟨hcleans, ?_, ?_⟩, h.nodup, ?_, ?_, ?_, by rw [hbps]; exact h.detached⟩
  · intro q l hl
    rcases locs_cases hlocs hl with ⟨rfl, ⟨⟩⟩ | ⟨-, hl⟩
    · rw [hlookup, if_pos hrun]
    · have hreg := h.registered q l hl
      rw [hlookup, if_neg, hreg]
      intro he
      rw [he, ha] at hreg; cases hreg
  · intro a' q hq
    rw [hlookup] at hq
    split_ifs at hq with ha'
    · obtain rfl := Option.some.inj hq
      exact ⟨loc, by rw [hlocs, Function.update_self], by rw [hrun, ha']⟩
    · obtain ⟨l, hl, hla⟩ := h.stored a' q hq
      exact ⟨l, hkeep q l hl, hla⟩
  · intro q l hl
    rcases locs_cases hlocs hl with ⟨rfl, ⟨⟩⟩ | ⟨-, hl⟩
    · rw [htemp, hlist]; rfl
    · rw [World.runningAt_congr fun b _ => htarget b]
      exact h.list q l hl
  · intro q l hl ht
    rcases locs_cases hlocs hl with ⟨rfl, ⟨⟩⟩ | ⟨-, hl⟩
    · rw [htemp] at ht; cases ht
    · exact h.armed q l hl ht
  · intro q hq
    obtain ⟨bq, r, l, hbq, hloc, hl, ht, hla⟩ := h.attached q hq
    exact ⟨bq, r, l, by rw [hbps, hbq], hloc, hkeep r l hl, ht, by rw [hload, hla]⟩

/-- A location is deleted, and the breakpoints of its list are detached. -/
theorem delete (h : Attached w att) (hp : w.locs p = some loc)
    (hbps : w'.bps = (w.detach loc.bpList).bps) (hlocs : w'.locs = Function.update w.locs p none)
    (hlookup : ∀ a, mapLookup w'.bpLocations a =
      if a = loc.runningAddr then none else mapLookup w.bpLocations a)
    (hcleans : ∀ ht, w'.bpLocations = some ht → ht.cf = true)
    (hload : w'.loadAddress = w.loadAddress) :
    Attached w' (att.filter fun b => b ∉ loc.bpList) := by
  have htarget : ∀ q, w'.target q = w.target q := by
    intro q
    simp only [World.target, hbps, hload, World.detach]
    split_ifs
    · rw [Option.map_map]; rfl
    · rfl
  have hcases : ∀ q l, w'.locs q = some l → q ≠ p ∧ w.locs q = some l := by
    intro q l hl
    rcases locs_cases hlocs hl with ⟨-, ⟨⟩⟩ | hl
    exact hl
  have haddr : ∀ q l, q ≠ p → w.locs q = some l → l.runningAddr ≠ loc.runningAddr := by
    intro q l hq hl he
    have hreg := h.registered q l hl
    rw [he] at hreg
    exact hq (h.ptr_eq hp hreg)
  have hrunning : ∀ a, a ≠ loc.runningAddr →
      w'.runningAt (att.filter fun b => b ∉ loc.bpList) a = w.runningAt att a := by
    intro a ha
    rw [World.runningAt_congr fun b _ => htarget b, World.runningAt, List.filter_filter,
      World.runningAt]
    refine List.filter_congr fun b _ => ?_
    by_cases hb : b ∈ loc.bpList
    · have : w.target b ≠ some a := by
        rw [(h.listed hp hb).2]
        exact fun he => ha (Option.some.inj he).symm
      simp [this]
    · simp [hb]
  have hstays : ∀ q, q ∉ loc.bpList → w'.bps q = w.bps q := by
    intro q hq
    rw [hbps, World.detach_bps_of_not_mem hq]
  refine ⟨⟨hcleans, ?_, ?_⟩, h.nodup.filter _, ?_, ?_, ?_, ?_⟩
  · intro q l hl
    obtain ⟨hq, hl⟩ := hcases q l hl
    rw [hlookup, if_neg (haddr q l hq hl)]
    exact h.registered q l hl
  · intro a q hq
    rw [hlookup] at hq
    split_ifs at hq with ha
    obtain ⟨l, hl, hla⟩ := h.stored a q hq
    refine ⟨l, ?_, hla⟩
    rw [hlocs, Function.update_of_ne, hl]
    rintro rfl
    rw [hp] at hl
    exact ha (by rw [← hla, Option.some.inj hl])
  · intro q l hl
    obtain ⟨hq, hl⟩ := hcases q l hl
    rw [hrunning _ (haddr q l hq hl)]
    exact h.list q l hl
  · intro q l hl
    exact h.armed q l (hcases q l hl).2
  · intro q hq
    obtain ⟨hatt, hnot⟩ := List.mem_filter.mp hq
    have hnot : q ∉ loc.bpList := by simpa using hnot
    obtain ⟨bq, r, l, hbq, hloc, hl, ht, hla⟩ := h.attached q hatt
    refine ⟨bq, r, l, by rw [hstays q hnot, hbq], hloc, ?_, ht, by rw [hload, hla]⟩
    rw [hlocs, Function.update_of_ne, hl]
    rintro rfl
    obtain rfl := Option.some.inj (hp.symm.trans hl)
    refine hnot ?_
    rw [h.list_user hp ht]
    exact World.mem_runningAt.mpr ⟨hatt, by rw [World.target_eq hbq, hla]⟩
  · intro q bq hq hmem
    by_cases hlist : q ∈ loc.bpList
    · rw [hbps, World.detach_bps_of_mem hlist] at hq
      obtain ⟨bq', -, rfl⟩ := Option.map_eq_some_iff.mp hq
      rfl
    · rw [hstays q hlist] at hq
      exact h.detached q bq hq fun hatt => hmem (List.mem_filter.mpr ⟨hatt, by simpa using hlist⟩)

end Attached

end Vdbg
