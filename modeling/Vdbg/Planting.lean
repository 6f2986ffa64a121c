import Vdbg.Temporary

/-!
# The locations of next

`step_over` asks for a temporary location wherever the line changes between the pc and the end of the
function (`nextLines`), and at the return address unless the function is `main`. It records the
addresses where it got one.
-/

namespace Vdbg

open FaultRun

variable {k : Kernel} {syms : Symbols} {w w' w₁ : World} {ts : List Addr} {a : Addr}

/-! ## Where the line changes -/

/-- The addresses among the next `n` from `pc` on where the line changes. `line` keeps its value
where an address has no line. -/
def lineChanges (dwfl : Dwfl) : ℕ → Addr → ℕ → ℕ → List Addr
  | 0, _, _, _ => []
  | n + 1, pc, currentLine, line =>
    let line := ((dwfl.getsrc pc).map SrcLine.line).getD line
    if line ≠ currentLine then pc :: lineChanges dwfl n (pc + 1) line line
    else lineChanges dwfl n (pc + 1) currentLine line

/-- The addresses from the pc to the end of the function where the line changes. -/
def nextLines (w : World) (die : FuncDie) (pc : Addr) : List Addr :=
  let funcEnd := die.highpc.getD (w.dwfl.junkRange 0).2 + w.loadAddress
  lineChanges w.dwfl (if pc < funcEnd then (funcEnd - pc).toNat else 0) pc
    (((w.dwfl.getsrc pc).map SrcLine.line).getD 0) 0

/-- One location that is asked for, and recorded where it was granted. -/
def plantAt (k : Kernel) (s : ToDelete × World) (a : Addr) : Res (ToDelete × World) := do
  let (planted, w) ← setTempBpLocation k s.2 a
  let d ← if planted then ToDelete.grow <$> s.1.store w a else .ok s.1
  return (d, w)

theorem setTempBpLocation_dwfl {planted : Bool} (hok : setTempBpLocation k w a = .ok (planted, w')) :
    w'.dwfl = w.dwfl := by
  obtain ⟨hact, hpid, ha⟩ := setTempBpLocation_ok hok
  unfold setTempBpLocation at hok
  rw [if_neg (not_not.mpr hact), locInit_temp_eq hpid ha, ok_bind] at hok
  dsimp only at hok
  split at hok
  · cases hok
    rfl
  · obtain ⟨w₂, hfree, hok⟩ := bind_eq_ok.mp hok
    cases hok
    obtain ⟨loc, -, hw'⟩ := locFree_ok hfree
    rw [hw']
    rfl

/-- The loop of `step_over` plants where the line changes. -/
theorem plantLoop_eq (n : ℕ) (pc : Addr) (currentLine line : ℕ) (d : ToDelete) (w : World) :
    plantLoop k n pc currentLine line d w =
      (lineChanges w.dwfl n pc currentLine line).foldlM (plantAt k) (d, w) := by
  induction n generalizing pc currentLine line d w with
  | zero => rfl
  | succ n ih =>
    unfold plantLoop lineChanges
    dsimp only
    split_ifs with hline
    · rw [List.foldlM_cons, plantAt]
      rcases hset : setTempBpLocation k w pc with e | ⟨planted, w₁⟩
      · rfl
      rw [← setTempBpLocation_dwfl hset]
      cases planted with
      | true =>
        show (ToDelete.grow <$> d.store w₁ pc >>= fun d => plantLoop k n _ _ _ d w₁) =
          (ToDelete.grow <$> d.store w₁ pc >>= fun d => pure (d, w₁)) >>= fun s => _
        rcases ToDelete.grow <$> d.store w₁ pc with e | d₁
        · rfl
        · exact ih _ _ _ _ _
      | false => exact ih _ _ _ _ _
    · exact ih _ _ _ _ _

/-! ## What is recorded -/

/-- A location is registered at every one of the addresses. -/
def World.Registers (w : World) (as : List Addr) : Prop :=
  ∀ a ∈ as, (mapLookup w.bpLocations a).isSome

theorem plantAt_ok {d d' : ToDelete} (hok : plantAt k (d, w) a = .ok (d', w')) :
    ∃ planted, setTempBpLocation k w a = .ok (planted, w') ∧
      d'.addrs = if planted then d.addrs ++ [a] else d.addrs := by
  unfold plantAt at hok
  obtain ⟨⟨planted, w₁⟩, hset, hok⟩ := bind_eq_ok.mp hok
  cases planted with
  | true =>
    obtain ⟨d₁, hgrow, hok⟩ := bind_eq_ok.mp hok
    cases hok
    obtain ⟨d₂, hstore, hd⟩ := bind_eq_ok.mp hgrow
    refine ⟨true, hset, ?_⟩
    rw [← Except.ok.inj hd, ToDelete.grow_addrs, store_eq_ok hstore]
    rfl
  | false =>
    cases hok
    exact ⟨false, hset, rfl⟩

theorem plantAt_veiled {d d' : ToDelete} (h : Veiled w w₁ d.addrs)
    (hok : plantAt k (d, w₁) a = .ok (d', w')) : Veiled w w' d'.addrs := by
  obtain ⟨planted, hset, haddrs⟩ := plantAt_ok hok
  rw [haddrs]
  exact h.plant hset

/-- A location that is refused leaves the map alone. -/
theorem setTempBpLocation_refused (h : Ready w ts) (hok : setTempBpLocation k w a = .ok (false, w')) :
    w'.bpLocations = w.bpLocations := by
  obtain ⟨hact, hpid, ha⟩ := setTempBpLocation_ok hok
  have hsome : (mapLookup w.bpLocations a).isSome := by
    have hnone := setTempBpLocation_planted h hok
    rw [← Option.not_isNone, ← hnone]
    rfl
  rw [setTempBpLocation_registered h hact hpid ha hsome] at hok
  cases hok
  rfl

/-- What is recorded stays recorded. -/
theorem plantAll_grows {as : List Addr} {d d' : ToDelete}
    (hok : as.foldlM (plantAt k) (d, w) = .ok (d', w')) : d.addrs <+: d'.addrs := by
  induction as generalizing d w with
  | nil =>
    cases hok
    exact List.prefix_rfl
  | cons a as ih =>
    obtain ⟨⟨d₁, w₁⟩, h1, hok⟩ := foldlM_cons_eq_ok.mp hok
    obtain ⟨planted, -, haddrs⟩ := plantAt_ok h1
    refine List.IsPrefix.trans ?_ (ih hok)
    rw [haddrs]
    split_ifs
    · exact List.prefix_append _ _
    · exact List.prefix_rfl

theorem plantAll_veiled {as : List Addr} {d d' : ToDelete} (h : Veiled w w₁ d.addrs)
    (hok : as.foldlM (plantAt k) (d, w₁) = .ok (d', w')) : Veiled w w' d'.addrs := by
  induction as generalizing d w₁ with
  | nil =>
    cases hok
    exact h
  | cons a as ih =>
    obtain ⟨⟨d₁, w₂⟩, h1, hok⟩ := foldlM_cons_eq_ok.mp hok
    exact ih (plantAt_veiled h h1) hok

/-- Nothing is recorded exactly where every location was there before. -/
theorem plantAll_nothing_iff {as : List Addr} {d d' : ToDelete} (h : Veiled w w₁ d.addrs)
    (hd : d.addrs = []) (hok : as.foldlM (plantAt k) (d, w₁) = .ok (d', w')) :
    d'.addrs = [] ↔ w₁.Registers as := by
  induction as generalizing d w₁ with
  | nil =>
    cases hok
    exact iff_of_true hd fun a ha => absurd ha List.not_mem_nil
  | cons a as ih =>
    obtain ⟨⟨d₁, w₂⟩, h1, hok⟩ := foldlM_cons_eq_ok.mp hok
    obtain ⟨planted, hset, haddrs⟩ := plantAt_ok h1
    have hplanted := setTempBpLocation_planted h.ready hset
    rw [World.Registers, List.forall_mem_cons]
    cases planted with
    | true =>
      refine iff_of_false (fun hnil => ?_) fun hall => ?_
      · have hprefix := plantAll_grows hok
        rw [haddrs, hnil, List.prefix_nil] at hprefix
        simp at hprefix
      · rw [← Option.not_isNone, ← hplanted] at hall
        exact absurd hall.1 (by decide)
    | false =>
      have hsome : (mapLookup w₁.bpLocations a).isSome := by
        rw [← Option.not_isNone, ← hplanted]
        rfl
      have hrest := ih (plantAt_veiled h h1) (haddrs.trans hd) hok
      rw [World.Registers, setTempBpLocation_refused h.ready hset] at hrest
      rw [hrest]
      exact (and_iff_right hsome).symm

theorem plantAll_nothing {as : List Addr} {d d' : ToDelete} (h : Veiled w w₁ d.addrs)
    (hok : as.foldlM (plantAt k) (d, w₁) = .ok (d', w')) (hd' : d'.addrs = []) :
    w'.bpLocations = w₁.bpLocations := by
  induction as generalizing d w₁ with
  | nil =>
    cases hok
    rfl
  | cons a as ih =>
    obtain ⟨⟨d₁, w₂⟩, h1, hok⟩ := foldlM_cons_eq_ok.mp hok
    obtain ⟨planted, hset, haddrs⟩ := plantAt_ok h1
    have hprefix := plantAll_grows hok
    rw [hd', List.prefix_nil, haddrs] at hprefix
    cases planted with
    | true => simp at hprefix
    | false => exact (ih (plantAt_veiled h h1) hok).trans (setTempBpLocation_refused h.ready hset)

/-- What `plantTempLocations` does where it returns. -/
theorem plantTempLocations_ok {die : FuncDie} {name : String} {pc : Addr} {d : ToDelete}
    (hok : plantTempLocations k w die name pc = .ok (d, w')) :
    ∃ d₁ w₁, (nextLines w die pc).foldlM (plantAt k) (⟨100, []⟩, w) = .ok (d₁, w₁) ∧
      if name = "main" then d = d₁ ∧ w' = w₁
      else ∃ planted, setTempBpLocation k (readReturnAddress k w₁).2 (readReturnAddress k w₁).1 =
        .ok (planted, w') ∧
        d.addrs = if planted then d₁.addrs ++ [(readReturnAddress k w₁).1] else d₁.addrs := by
  unfold plantTempLocations at hok
  dsimp only at hok
  split at hok
  · cases hok
  split at hok
  · cases hok
  rename_i src hsrc
  split at hok
  · cases hok
  obtain ⟨⟨d₁, w₁⟩, hloop, hok⟩ := bind_eq_ok.mp hok
  rw [plantLoop_eq] at hloop
  refine ⟨d₁, w₁, ?_, ?_⟩
  · unfold nextLines
    rw [hsrc]
    exact hloop
  dsimp only at hok
  split at hok
  · rename_i hmain
    rw [if_pos hmain]
    cases hok
    exact ⟨rfl, rfl⟩
  · rename_i hmain
    rw [if_neg hmain]
    obtain ⟨⟨planted, w₂⟩, hset, hok⟩ := bind_eq_ok.mp hok
    cases planted with
    | true =>
      obtain ⟨d₂, hstore, hok⟩ := bind_eq_ok.mp hok
      cases hok
      exact ⟨true, hset, store_eq_ok hstore⟩
    | false =>
      cases hok
      exact ⟨false, hset, rfl⟩

/-- `next` plants nothing exactly where every line to the end of the function has a location already
and so does the return address, unless the function is `main`. -/
theorem plantTempLocations_nothing_iff {die : FuncDie} {name : String} {pc : Addr}
    {d d₁ : ToDelete} (h : Ready w []) (hok : plantTempLocations k w die name pc = .ok (d, w'))
    (hlines : (nextLines w die pc).foldlM (plantAt k) (⟨100, []⟩, w) = .ok (d₁, w₁)) :
    d.addrs = [] ↔ w.Registers (nextLines w die pc) ∧
      (name = "main" ∨ (mapLookup w.bpLocations (readReturnAddress k w₁).1).isSome) := by
  obtain ⟨d₂, w₂, hlines', hrest⟩ := plantTempLocations_ok hok
  obtain ⟨rfl, rfl⟩ := Prod.mk.inj (Except.ok.inj (hlines.symm.trans hlines'))
  have hveiled := plantAll_veiled (d := ⟨100, []⟩) (Veiled.refl h) hlines
  have hnothing := plantAll_nothing_iff (d := ⟨100, []⟩) (Veiled.refl h) rfl hlines
  by_cases hmain : name = "main"
  · rw [if_pos hmain] at hrest
    rw [hrest.1, hnothing]
    exact (and_iff_left (.inl hmain)).symm
  · rw [if_neg hmain] at hrest
    obtain ⟨planted, hset, haddrs⟩ := hrest
    have hplanted := setTempBpLocation_planted
      (hveiled.quiet (readReturnAddress_quiet (k := k) w₁)).ready hset
    rw [← hnothing, haddrs]
    constructor
    · intro hnil
      cases planted with
      | true => simp at hnil
      | false =>
        have hmap := plantAll_nothing (d := ⟨100, []⟩) (Veiled.refl h) hlines hnil
        refine ⟨hnil, .inr ?_⟩
        rw [← hmap, ← Option.not_isNone]
        exact congrArg not hplanted.symm
    · rintro ⟨hnil, hreturn⟩
      have hmap := plantAll_nothing (d := ⟨100, []⟩) (Veiled.refl h) hlines hnil
      have hsome := hreturn.resolve_left hmain
      rw [← hmap, ← Option.not_isNone] at hsome
      rw [show (readReturnAddress k w₁).2.bpLocations = w₁.bpLocations from rfl] at hplanted
      rw [hplanted, (Bool.not_eq_true' _).mp hsome]
      exact hnil

end Vdbg
