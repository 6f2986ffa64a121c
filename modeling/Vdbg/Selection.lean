import Vdbg.Lib.Search
import Vdbg.Sharing

/-!
# Selecting a breakpoint

`find_breakpoint_from_pending` compares a string on the length of the one the breakpoint holds, so
`foo` matches a breakpoint on `fo`. Its result is the first exact match unless such a breakpoint
comes before that, or a breakpoint on address 0 is looked for, which is a NULL `data`
(`findBreakpointFromPending_exact_iff`).
-/

namespace Vdbg

open FaultRun Search

variable {k : Kernel} {syms : Symbols} {w : World} {key : BpKey} {bp : Breakpoint} {b : BpPtr}

/-! ## What a key matches -/

/-- The key names the breakpoint. -/
def BpKey.selects (key : BpKey) (bp : Breakpoint) : Bool :=
  match key, bp.kind with
  | .addr a, .addr => a = bp.instrAddr
  | .symbol name, .symbol name' => name = name'
  | .lineno file line, .lineno file' line' => line = line' && file = file'
  | _, _ => false

/-- The key says more than the name of the breakpoint, or than its file on the same line. -/
def BpKey.Outgrows (key : BpKey) (bp : Breakpoint) : Prop :=
  match key, bp.kind with
  | .symbol name, .symbol name' => name' ≠ name ∧ name'.toList <+: name.toList
  | .lineno file line, .lineno file' line' =>
    line = line' ∧ file' ≠ file ∧ file'.toList <+: file.toList
  | _, _ => False

theorem prefix_iff {s s' : String} :
    s'.toList <+: s.toList ↔ s = s' ∨ s' ≠ s ∧ s'.toList <+: s.toList := by
  constructor
  · intro h
    by_cases hs : s = s'
    · exact .inl hs
    · exact .inr ⟨Ne.symm hs, h⟩
  · rintro (rfl | ⟨-, h⟩)
    · exact List.prefix_rfl
    · exact h

theorem bpMatches_iff : bpMatches key bp = true ↔ key.selects bp = true ∨ key.Outgrows bp := by
  unfold bpMatches BpKey.selects BpKey.Outgrows
  cases key with
  | addr addr => cases bp.kind <;> simp
  | symbol name =>
    cases bp.kind with
    | addr => simp
    | symbol name' => simpa using prefix_iff
    | lineno file line => simp
  | lineno file line =>
    cases bp.kind with
    | addr => simp
    | symbol name => simp
    | lineno file' line' =>
      simp only [Bool.and_eq_true, decide_eq_true_eq, List.isPrefixOf_iff_prefix]
      rw [prefix_iff]
      tauto

theorem BpKey.Outgrows.not_selects (h : key.Outgrows bp) : key.selects bp = false := by
  unfold BpKey.Outgrows at h
  unfold BpKey.selects
  split at h
  · rename_i name name' hk
    simpa [hk] using Ne.symm h.1
  · rename_i file line file' line' hk
    simpa [hk] using fun _ => Ne.symm h.2.1
  · exact h.elim

/-! ## The search -/

namespace World

variable (w : World) (key : BpKey)

/-- The test of the key on what a pointer of the list points to. -/
def passes (test : BpKey → Breakpoint → Bool) (b : BpPtr) : Bool := (w.bps b).any (test key)

/-- The first pending breakpoint the key names. -/
def firstSelected : Option BpPtr := w.pendingBreakpoints.find? (w.passes key BpKey.selects)

/-- Where a pending breakpoint is outgrown by the key, one that the key names comes before it, and
none is on address 0 when that is the key. -/
def Distinguished : Prop :=
  (key = .addr 0 → w.firstSelected key = none) ∧
  ∀ pre b post bp, w.pendingBreakpoints = pre ++ b :: post → w.bps b = some bp →
    key.Outgrows bp → ∃ b' ∈ pre, w.passes key BpKey.selects b' = true

end World

theorem passes_matches_of_selects (h : w.passes key BpKey.selects b = true) :
    w.passes key bpMatches b = true := by
  obtain ⟨bp, hbp, hsel⟩ := (Option.any_eq_true _ _).mp h
  exact (Option.any_eq_true _ _).mpr ⟨bp, hbp, bpMatches_iff.mpr (.inl hsel)⟩

theorem findBreakpoint_eq {bs : List BpPtr} (hlive : ∀ b ∈ bs, (w.bps b).isSome) :
    findBreakpoint w key bs = .ok (bs.find? (w.passes key bpMatches)) := by
  induction bs with
  | nil => rfl
  | cons b bs ih =>
    obtain ⟨bp, hbp⟩ := Option.isSome_iff_exists.mp (hlive b List.mem_cons_self)
    have hderef : w.derefBp b = .ok bp := by unfold World.derefBp; rw [hbp]
    have hpass : w.passes key bpMatches b = bpMatches key bp := by
      unfold World.passes
      rw [hbp]
      rfl
    rw [findBreakpoint, hderef, ok_bind, ih fun b hb => hlive b (List.mem_cons_of_mem _ hb),
      List.find?_cons, hpass]
    cases bpMatches key bp <;> rfl

theorem guarded_iff : Guarded (w.passes key BpKey.selects) (w.passes key bpMatches)
      w.pendingBreakpoints ↔
    ∀ pre b post bp, w.pendingBreakpoints = pre ++ b :: post → w.bps b = some bp →
      key.Outgrows bp → ∃ b' ∈ pre, w.passes key BpKey.selects b' = true := by
  constructor
  · intro h pre b post bp hl hbp hout
    refine h pre b post hl ?_ ?_
    · exact (Option.any_eq_true _ _).mpr ⟨bp, hbp, bpMatches_iff.mpr (.inr hout)⟩
    · unfold World.passes
      rw [hbp]
      exact hout.not_selects
  · intro h pre b post hl hmatch hsel
    obtain ⟨bp, hbp, hm⟩ := (Option.any_eq_true _ _).mp hmatch
    refine h pre b post bp hl hbp ((bpMatches_iff.mp hm).resolve_left fun hs => ?_)
    unfold World.passes at hsel
    rw [hbp] at hsel
    exact Bool.false_ne_true (hsel.symm.trans hs)

/-- What the search finds passes its test. -/
theorem firstSelected_selects (h : w.firstSelected key = some b) :
    b ∈ w.pendingBreakpoints ∧ ∃ bp, w.bps b = some bp ∧ key.selects bp = true :=
  ⟨List.mem_of_find?_eq_some h, (Option.any_eq_true _ _).mp
    (List.find?_some (p := w.passes key BpKey.selects) h)⟩

theorem findBreakpointFromPending_exact_iff
    (hlive : ∀ b ∈ w.pendingBreakpoints, (w.bps b).isSome) :
    findBreakpointFromPending w key = .ok (w.firstSelected key) ↔ w.Distinguished key := by
  have hfind := find?_eq_find?_iff (p := w.passes key BpKey.selects) (q := w.passes key bpMatches)
    (l := w.pendingBreakpoints) fun b _ => passes_matches_of_selects
  unfold findBreakpointFromPending World.Distinguished
  rw [← guarded_iff, ← hfind]
  by_cases hkey : key = .addr 0
  · subst hkey
    -- an address is compared as it is
    have hsame : w.pendingBreakpoints.find? (w.passes (.addr 0) bpMatches) =
        w.firstSelected (.addr 0) := by
      refine hfind.mpr (guarded_iff.mpr ?_)
      intro pre b post bp hl hbp hout
      cases hout
    rw [if_pos rfl]
    refine ⟨fun h => ⟨fun _ => (Except.ok.inj h).symm, hsame⟩, fun h => ?_⟩
    rw [h.1 rfl]
    rfl
  · rw [if_neg hkey, findBreakpoint_eq hlive]
    exact ⟨fun h => ⟨fun h0 => absurd h0 hkey, Except.ok.inj h⟩, fun h => congrArg _ h.2⟩

/-! ## The argument of a command -/

/-- An argument that is not refused is looked for among the pending breakpoints. -/
theorem parseArgBp_key (h : parseArgBp syms w (.key key) = .ok (some b)) :
    findBreakpointFromPending w key = .ok (some b) := by
  cases key with
  | addr a =>
    simp only [parseArgBp] at h
    split_ifs at h with hbad
    · cases h
    · exact h
  | symbol name => exact h
  | lineno file line =>
    simp only [parseArgBp] at h
    split_ifs at h with hbad
    · cases h
    · exact h

/-- The search finds the first breakpoint that is named exactly, and `delete`, `enable` and
`disable` act on no other, exactly when the names of the pending list are kept apart. -/
theorem selects_exactly_iff (hlive : ∀ b ∈ w.pendingBreakpoints, (w.bps b).isSome) :
    (findBreakpointFromPending w key = .ok (w.firstSelected key) ∧
      ∀ syms b, parseArgBp syms w (.key key) = .ok (some b) →
        b ∈ w.pendingBreakpoints ∧ ∃ bp, w.bps b = some bp ∧ key.selects bp = true) ↔
      w.Distinguished key := by
  rw [← findBreakpointFromPending_exact_iff hlive]
  refine ⟨fun h => h.1, fun h => ⟨h, fun syms b hparse => ?_⟩⟩
  have hfound := parseArgBp_key hparse
  rw [h] at hfound
  exact firstSelected_selects (Except.ok.inj hfound)

/-- Functions of which one name begins with the other. -/
def prefixSymbols : Symbols :=
  { Symbols.stripped with functions := [("read_line", 0x401000), ("read", 0x401020)] }

/-- The longer name is asked for, and was given first. -/
theorem selects_exactly_iff_first : ∃ w,
    session .idle prefixSymbols dbgInit [.break [.symbol "read_line", .symbol "read"]] = .ok w ∧
    findBreakpointFromPending w (.symbol "read_line") = .ok (w.firstSelected (.symbol "read_line"))
    := by
  obtain ⟨w, hw, hp⟩ := exists_of_any (p := fun w => w.pendingBreakpoints = [0, 1] ∧
      w.passes (.symbol "read_line") BpKey.selects 0)
    (x := session .idle prefixSymbols dbgInit [.break [.symbol "read_line", .symbol "read"]])
    (by decide +kernel)
  obtain ⟨hlist, hfirst⟩ := of_decide_eq_true hp
  have hready := session_ready dbgInit_ready hw
  refine ⟨w, hw, ((selects_exactly_iff fun b hb => (hready.registry.live b).mp hb).mpr
    ⟨by simp, guarded_iff.mp ?_⟩).1⟩
  rw [hlist]
  exact guarded_cons_of_pos hfirst

/-- Only `read` has a breakpoint, and `delete read_line` removes it. -/
theorem delete_removes_prefix : ∃ w w',
    session .idle prefixSymbols dbgInit [.break [.symbol "read"]] = .ok w ∧
    w.firstSelected (.symbol "read_line") = none ∧
    findBreakpointFromPending w (.symbol "read_line") ≠
      .ok (w.firstSelected (.symbol "read_line")) ∧
    cmdDelete .idle prefixSymbols w [.key (.symbol "read_line")] = .ok w' ∧
    w.pendingBreakpoints ≠ [] ∧ w'.pendingBreakpoints = [] := by
  obtain ⟨w, hw, hp⟩ := exists_of_any (p := fun w =>
      (w.firstSelected (.symbol "read_line") = none ∧
        (findBreakpointFromPending w (.symbol "read_line")).toOption = some (some 0) ∧
        w.pendingBreakpoints ≠ []) ∧
      (cmdDelete .idle prefixSymbols w [.key (.symbol "read_line")]).toOption.any
        fun w' => w'.pendingBreakpoints = [])
    (x := session .idle prefixSymbols dbgInit [.break [.symbol "read"]]) (by decide +kernel)
  simp only [decide_eq_true_eq] at hp
  obtain ⟨⟨hnone, hfound, hlist⟩, hdelete⟩ := hp
  obtain ⟨w', hw', hempty⟩ := exists_of_any hdelete
  refine ⟨w, w', hw, hnone, fun h => ?_, hw', hlist, of_decide_eq_true hempty⟩
  rw [h, hnone] at hfound
  cases hfound

end Vdbg
