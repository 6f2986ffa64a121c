import Vdbg.Text
import Vdbg.Registries

/-!
# Typing an address back

`functions` and the disassembly print running addresses, and `break` takes an address of the
executable, to which it adds the load address. So what `functions` prints is read back as the
function exactly when the load address is 0 (`shown_typedBack_iff`). What the disassembly prints has
no `0x`: `break` takes it for a line or a name.
-/

namespace Vdbg

open FaultRun

variable {k : Kernel} {syms : Symbols} {w w' : World} {a x : Addr}

/-! ## What is printed -/

/-- The address of a function as `cmd_functions` prints it. -/
def functionAddress (w : World) (a : Addr) : List Char :=
  '0' :: 'x' :: fmtPadHex 8 (a + w.loadAddress)

/-- The address of an instruction as `print_instruction_disas` prints it. -/
def instructionAddress (w : World) (a : Addr) : List Char := fmtHex (a + w.loadAddress)

/-- `cmd_functions`: the addresses and names of the functions whose name has `funcName` in it. -/
def cmdFunctions (syms : Symbols) (w : World) (funcName : Option (List Char)) :
    List (List Char × String) :=
  (syms.functions.filter fun f => funcName.all (strstr f.1.toList)).map fun f =>
    (functionAddress w f.2, f.1)

theorem isHex_functionAddress : isHex (functionAddress w a) = true := rfl

theorem parseBreakArg_functionAddress :
    parseBreakArg (functionAddress w a) = .addr (a + w.loadAddress) := by
  unfold parseBreakArg
  rw [if_pos isHex_functionAddress]
  exact congrArg _ (strtoul_hex _)

/-! ## What `break` makes of an argument -/

namespace World

/-- The location of the breakpoint is at the address. -/
def IsAt (w : World) (id : BitVec 64) (x : Addr) : Prop :=
  ∃ b bp p loc, w.bps b = some bp ∧ bp.id = id ∧ bp.location = some p ∧ w.locs p = some loc ∧
    loc.runningAddr = x

/-- `loc_init` asserts that a new location is not at 0. -/
def CanPlace (w : World) (x : Addr) : Prop := x = 0 → (mapLookup w.bpLocations x).isSome

/-- `loc_init` does not fail for a breakpoint that is set now. -/
def Fits (w : World) (y : Addr) : Prop := w.state = .active → w.CanPlace (y + w.loadAddress)

/-- The id counter does not wrap around within `n` more breakpoints. -/
def IdsLeft (w : World) (n : ℕ) : Prop :=
  w.globalIdCounter ≠ 0 ∧ w.globalIdCounter.toNat + n < 2 ^ 64

theorem IdsLeft.mono {n m : ℕ} (h : w.IdsLeft n) (hle : m ≤ n) : w.IdsLeft m :=
  ⟨h.1, lt_of_le_of_lt (Nat.add_le_add_left hle _) h.2⟩

theorem IdsLeft.succ {n : ℕ} (h : w.IdsLeft (n + 1))
    (hcounter : w'.globalIdCounter = w.globalIdCounter + 1) : w'.IdsLeft n := by
  have hlt := h.2
  have hnext : (w.globalIdCounter + 1).toNat = w.globalIdCounter.toNat + 1 := by
    rw [BitVec.toNat_add]
    exact Nat.mod_eq_of_lt (by show w.globalIdCounter.toNat + 1 < 2 ^ 64; omega)
  unfold IdsLeft
  rw [hcounter, hnext]
  refine ⟨fun h0 => ?_, by omega⟩
  rw [h0] at hnext
  cases hnext

end World

/-- `break` sets a breakpoint whose location is at the ELF address in the process, also after a
restart at the same load address. -/
def TypedBack (k : Kernel) (syms : Symbols) (w : World) (arg : BreakArg) (a : Addr) : Prop :=
  ∃ w' id, cmdBreak k syms w [arg] = .ok w' ∧ id ∉ w.pendingIds ∧ w'.IsAt id (a + w.loadAddress) ∧
    ∀ w'', restart k syms w' = .ok w'' → w''.state = .active → w''.loadAddress = w.loadAddress →
      w''.IsAt id (a + w.loadAddress)

/-- A bare line number is one of the file of the pc, which must lie in a module. -/
def BreakArg.Located (k : Kernel) (syms : Symbols) (w : World) : BreakArg → Prop
  | .line none _ => syms.hasDwarf → w.dwfl.addrmodule (getPc k w.tracee w.pid) = true
  | _ => True

section Setting

variable {kind : BpKind} {b : BpPtr} {bp : Breakpoint}

theorem addAndSetBp_places (ha : w.state = .active) (hm : w.bpLocations.isSome) (hpid : w.pid ≠ 0)
    (hb : w.bps b = some bp)
    (huser : ∀ p, mapLookup w.bpLocations (x + w.loadAddress) = some p →
      ∃ loc, w.locs p = some loc ∧ loc.isTemp = false ∧ b ∉ loc.bpList)
    (hplace : w.CanPlace (x + w.loadAddress)) :
    ∃ w', addAndSetBpForRunningTracee k w x b = .ok w' ∧ w'.pid = w.pid ∧
      ∀ y, w'.CanPlace y ↔ w.CanPlace y := by
  unfold addAndSetBpForRunningTracee
  rw [if_neg (by rw [ha]; decide)]
  dsimp only
  rcases hp : mapLookup w.bpLocations (x + w.loadAddress) with - | p
  · have hne : x + w.loadAddress ≠ 0 := fun h0 => by
      have hsome := hplace h0
      rw [hp] at hsome
      cases hsome
    obtain ⟨ht, hht⟩ := Option.isSome_iff_exists.mp hm
    obtain ⟨ht', hins, -, hlookup⟩ := mapInsert_absent (hht ▸ hp) w.nextPtr
    dsimp only
    rw [locInit_user_eq hpid hne hb]
    refine ⟨_, rfl, rfl, fun y => forall_congr' fun hy => ?_⟩
    dsimp only [World.setBp, World.setLoc, World.setTracee]
    rw [hht, hins, hlookup, if_neg]
    rintro rfl
    exact hne hy
  · obtain ⟨loc, hloc, htemp, hnot⟩ := huser p hp
    dsimp only
    rw [locAppend_eq hb hloc htemp hnot]
    exact ⟨_, rfl, rfl, fun y => Iff.rfl⟩

/-- A breakpoint gets a location, unless that would be a new one at 0. -/
theorem setBreakpointOfKind_places (h : Ready w []) (ha : w.state = .active)
    (hid : w.globalIdCounter ≠ 0) (hpid : w.pid ≠ 0) (hplace : w.CanPlace (x + w.loadAddress)) :
    ∃ w', setBreakpointOfKind k w kind x = .ok w' ∧ w'.pid = w.pid ∧
      ∀ y, w'.CanPlace y ↔ w.CanPlace y := by
  rw [setBreakpointOfKind_eq hid]
  refine addAndSetBp_places (w := w.adopt kind x) ha (h.state.mp ha) hpid
    (Function.update_self ..) (fun p hp => ?_) hplace
  exact h.unlisted hp

theorem addAndSetBp_asserts {b : BpPtr} (ha : w.state = .active) (hzero : x + w.loadAddress = 0)
    (hnone : mapLookup w.bpLocations (x + w.loadAddress) = none) :
    faultOf (addAndSetBpForRunningTracee k w x b) = some .assertion := by
  unfold addAndSetBpForRunningTracee
  rw [if_neg (by rw [ha]; decide)]
  simp only [hnone]
  rw [locInit, if_pos (by rw [hzero]; simp)]
  rfl

variable (k x kind) in
/-- A breakpoint is set, or the assertion fails. -/
theorem setBreakpointOfKind_cases (h : Ready w []) (hpid : w.state = .active → w.pid ≠ 0)
    (hid : w.globalIdCounter ≠ 0) :
    (w.Fits x ∧ ∃ w', setBreakpointOfKind k w kind x = .ok w' ∧ w'.pid = w.pid ∧
        ∀ y, w'.Fits y ↔ w.Fits y) ∨
      (¬ w.Fits x ∧ faultOf (setBreakpointOfKind k w kind x) = some .assertion) := by
  by_cases ha : w.state = .active
  · by_cases hplace : w.CanPlace (x + w.loadAddress)
    · obtain ⟨w', hok, hpid', hsame⟩ := setBreakpointOfKind_places h ha hid (hpid ha) hplace
      have hedit := setBreakpointOfKind_edited h hok
      refine .inl ⟨fun _ => hplace, w', hok, hpid', fun y => ?_⟩
      unfold World.Fits
      rw [hedit.state, hedit.loadAddress, hsame]
    · refine .inr ⟨fun hfits => hplace (hfits ha), ?_⟩
      obtain ⟨hzero, hnone⟩ := Classical.not_imp.mp hplace
      rw [setBreakpointOfKind_eq hid]
      exact addAndSetBp_asserts (w := w.adopt kind x) ha hzero
        (Option.not_isSome_iff_eq_none.mp hnone)
  · have hidle : (w.adopt kind x).state = .notActive := by
      cases hs : w.state with
      | active => exact absurd hs ha
      | notActive => exact hs
    refine .inl ⟨fun hact => absurd hact ha, w.adopt kind x, ?_, rfl, fun y => ?_⟩
    · rw [setBreakpointOfKind_eq hid]
      exact if_pos hidle
    · exact iff_of_true (fun hact => absurd hact ha) fun hact => absurd hact ha

variable (k kind) in
/-- The loop of `set_breakpoint_at_func_symbol`, by induction on the functions that are left. -/
theorem setBreakpoints_cases {fs : List (String × Addr)} (h : Ready w [])
    (hpid : w.state = .active → w.pid ≠ 0) (hids : w.IdsLeft fs.length) :
    ((∀ f ∈ fs, w.Fits f.2) ∧
        ∃ w', fs.foldlM (fun w f => setBreakpointOfKind k w kind f.2) w = .ok w') ∨
      ((∃ f ∈ fs, ¬ w.Fits f.2) ∧
        faultOf (fs.foldlM (fun w f => setBreakpointOfKind k w kind f.2) w) = some .assertion) := by
  induction fs generalizing w with
  | nil => exact .inl ⟨nofun, w, rfl⟩
  | cons f fs ih =>
    rw [List.foldlM_cons, List.forall_mem_cons, List.exists_mem_cons_iff]
    rcases setBreakpointOfKind_cases k f.2 kind h hpid hids.1 with
      ⟨hfits, w₁, hok, hpid₁, hsame⟩ | ⟨hno, hfault⟩
    · have hedit := setBreakpointOfKind_edited h hok
      have hpid₁ : w₁.state = .active → w₁.pid ≠ 0 := by
        rw [hpid₁, hedit.state]
        exact hpid
      rw [hok, ok_bind]
      rcases ih hedit.ready hpid₁ (hids.succ hedit.counter) with
        ⟨hall, hrest⟩ | ⟨⟨g, hg, hno⟩, hrest⟩
      · exact .inl ⟨⟨hfits, fun g hg => (hsame _).mp (hall g hg)⟩, hrest⟩
      · exact .inr ⟨.inr ⟨g, hg, fun hfits => hno ((hsame _).mpr hfits)⟩, hrest⟩
    · refine .inr ⟨.inl hno, ?_⟩
      rcases hrun : setBreakpointOfKind k w kind f.2 with ⟨φ, w₁⟩ | w₁
      · rw [hrun] at hfault
        exact hfault
      · rw [hrun] at hfault
        cases hfault

/-- A line whose file is known sets a breakpoint where it has an address. -/
theorem setBreakpointAtLineno_eq {file : Option String} {line : ℤ}
    (hmod : file = none → w.state = .active →
      w.dwfl.addrmodule (getPc k w.tracee w.pid) = true) :
    setBreakpointAtLineno k syms w file line =
      match lineTarget k syms w file line with
      | none => .ok w
      | some (name, y) => setBreakpointOfKind k w (.lineno name line) y := by
  unfold setBreakpointAtLineno lineTarget
  dsimp only
  split_ifs with hbare hno
  · rw [hmod (Option.isNone_iff_eq_none.mp hbare.1) hbare.2] at hno
    cases hno
  · rcases (w.dwfl.addrdie (getPc k w.tracee w.pid)).bind Cu.name with - | name
    · rfl
    · rw [Option.bind_some]
      dsimp only
      rcases getAddrFromLineno syms (some name) line with - | target <;> rfl
  · rcases getAddrFromLineno syms file line with - | target <;> rfl

theorem setBreakpointAtLineno_unmapped {line : ℤ} (ha : w.state = .active)
    (hmod : w.dwfl.addrmodule (getPc k w.tracee w.pid) = false) :
    setBreakpointAtLineno k syms w none line = .error (.critical, w) := by
  unfold setBreakpointAtLineno
  dsimp only
  rw [if_pos ⟨rfl, ha⟩, hmod]
  rfl

variable (k) in
/-- `break` with one argument: all its breakpoints are set, or one of them fails the assertion, or
the pc is in no module. -/
theorem cmdBreak_one_cases (arg : BreakArg) (h : Ready w [])
    (hpid : w.state = .active → w.pid ≠ 0) (hids : w.IdsLeft (syms.functions.length + 1)) :
    ((w.state = .active → arg.Located k syms w) ∧ (∀ y ∈ arg.targets k syms w, w.Fits y) ∧
        ∃ w', cmdBreak k syms w [arg] = .ok w') ∨
      ((w.state = .active → arg.Located k syms w) ∧ (∃ y ∈ arg.targets k syms w, ¬ w.Fits y) ∧
        faultOf (cmdBreak k syms w [arg]) = some .assertion) ∨
      (¬ (w.state = .active → arg.Located k syms w) ∧
        faultOf (cmdBreak k syms w [arg]) = some .critical) := by
  have hone := fun kind y => setBreakpointOfKind_cases k y kind h hpid hids.1
  cases arg with
  | addr y =>
    rw [cmdBreak, bind_cmdBreak_nil, setBreakpointAtAddr_eq, BreakArg.targets]
    rcases hone .addr y with ⟨hfits, w', hok, -⟩ | ⟨hno, hfault⟩
    · exact .inl ⟨fun _ => trivial, List.forall_mem_singleton.mpr hfits, w', hok⟩
    · exact .inr (.inl ⟨fun _ => trivial, ⟨y, List.mem_singleton.mpr rfl, hno⟩, hfault⟩)
  | line file line =>
    rw [cmdBreak, bind_cmdBreak_nil, BreakArg.targets]
    by_cases hdwarf : syms.hasDwarf = true
    swap
    · rw [if_neg hdwarf, if_neg hdwarf]
      refine .inl ⟨fun _ => ?_, List.forall_mem_nil _, w, rfl⟩
      cases file with
      | none => exact fun hyes => absurd hyes hdwarf
      | some file => trivial
    rw [if_pos hdwarf, if_pos hdwarf]
    by_cases hmod : file = none → w.state = .active →
        w.dwfl.addrmodule (getPc k w.tracee w.pid) = true
    · have hlocated : w.state = .active → (BreakArg.line file line).Located k syms w := by
        intro ha
        cases file with
        | none => exact fun _ => hmod rfl ha
        | some file => trivial
      rw [setBreakpointAtLineno_eq hmod]
      cases lineTarget k syms w file line with
      | none => exact .inl ⟨hlocated, List.forall_mem_nil _, w, rfl⟩
      | some target =>
        obtain ⟨name, y⟩ := target
        rcases hone (.lineno name line) y with ⟨hfits, w', hok, -⟩ | ⟨hno, hfault⟩
        · exact .inl ⟨hlocated, List.forall_mem_singleton.mpr hfits, w', hok⟩
        · exact .inr (.inl ⟨hlocated, ⟨y, List.mem_singleton.mpr rfl, hno⟩, hfault⟩)
    · obtain ⟨rfl, hno⟩ := Classical.not_imp.mp hmod
      obtain ⟨ha, hno⟩ := Classical.not_imp.mp hno
      rw [setBreakpointAtLineno_unmapped ha (Bool.eq_false_iff.mpr hno)]
      exact .inr (.inr ⟨fun hlocated => hno (hlocated ha hdwarf), rfl⟩)
  | symbol name =>
    have hfew : (syms.functions.filter fun f => f.1 = name).length ≤ syms.functions.length + 1 :=
      (List.length_filter_le _ _).trans (Nat.le_succ _)
    rw [cmdBreak, bind_cmdBreak_nil, setBreakpointAtFuncSymbol, BreakArg.targets,
      List.forall_mem_map]
    rcases setBreakpoints_cases k (.symbol name) h hpid (hids.mono hfew) with
      ⟨hfits, w', hok⟩ | ⟨⟨f, hf, hno⟩, hfault⟩
    · exact .inl ⟨fun _ => trivial, hfits, w', hok⟩
    · exact .inr (.inl ⟨fun _ => trivial, ⟨f.2, List.mem_map_of_mem hf, hno⟩, hfault⟩)

/-- If the tracee is active, the breakpoints are set where they can be placed. -/
theorem cmdBreak_one_ok_iff {arg : BreakArg} (h : Ready w []) (ha : w.state = .active)
    (hpid : w.pid ≠ 0) (hids : w.IdsLeft (syms.functions.length + 1)) :
    (∃ w', cmdBreak k syms w [arg] = .ok w') ↔
      (∀ y ∈ arg.targets k syms w, w.CanPlace (y + w.loadAddress)) ∧ arg.Located k syms w := by
  rcases cmdBreak_one_cases k arg h (fun _ => hpid) hids with
    ⟨hlocated, hfits, hok⟩ | ⟨-, ⟨y, hy, hno⟩, hfault⟩ | ⟨hno, hfault⟩
  · exact iff_of_true hok ⟨fun y hy => hfits y hy ha, hlocated ha⟩
  · refine iff_of_false (fun ⟨w', hok⟩ => ?_) fun hall => hno fun _ => hall.1 y hy
    rw [hok] at hfault
    cases hfault
  · refine iff_of_false (fun ⟨w', hok⟩ => ?_) fun hall => hno fun _ => hall.2
    rw [hok] at hfault
    cases hfault

end Setting

/-! ## Where the breakpoint is -/

section Rows

variable {c : BitVec 64} {as : List Addr} {rows : List (Row (BitVec 64) Addr)}
  {r : Row (BitVec 64) Addr}

theorem mem_setEdits (hr : r ∈ (setEdits c as).foldl Row.edit rows) :
    r ∈ rows ∨ r.addr ∈ as := by
  induction as generalizing c rows with
  | nil => exact .inl hr
  | cons y as ih =>
    rcases ih hr with hr | hr
    · rcases List.mem_append.mp hr with hr | hr
      · exact .inl hr
      · obtain rfl := List.mem_singleton.mp hr
        exact .inr List.mem_cons_self
    · exact .inr (List.mem_cons_of_mem _ hr)

theorem subset_setEdits (hr : r ∈ rows) : r ∈ (setEdits c as).foldl Row.edit rows := by
  induction as generalizing c rows with
  | nil => exact hr
  | cons y as ih => exact ih (List.mem_append_left _ hr)

theorem exists_setEdits (c : BitVec 64) (rows : List (Row (BitVec 64) Addr)) (hy : x ∈ as) :
    ∃ r ∈ (setEdits c as).foldl Row.edit rows, r.addr = x ∧ r.id ∈ idsFrom c as.length := by
  induction as generalizing c rows with
  | nil => cases hy
  | cons y as ih =>
    rcases List.mem_cons.mp hy with rfl | hy
    · have hrow : ⟨c, x, true⟩ ∈ Row.edit rows (.set c x) :=
        List.mem_append_right _ (List.mem_singleton.mpr rfl)
      have hkept : ⟨c, x, true⟩ ∈ (setEdits (c + 1) as).foldl Row.edit (Row.edit rows (.set c x)) :=
        subset_setEdits hrow
      exact ⟨_, hkept, rfl, List.mem_cons_self⟩
    · obtain ⟨r, hr, haddr, hid⟩ := ih (c + 1) (Row.edit rows (.set c y)) hy
      exact ⟨r, hr, haddr, List.mem_cons_of_mem _ hid⟩

/-- Every breakpoint of an active tracee is at its address in the process. -/
theorem isAt_iff {id : BitVec 64} (h : Ready w []) (ha : w.state = .active) :
    w.IsAt id x ↔ ∃ r ∈ w.rows, r.id = id ∧ r.addr + w.loadAddress = x := by
  constructor
  · rintro ⟨b, bp, p, loc, hb, hid, hl, hp, hrun⟩
    obtain ⟨p', loc', hl', hp', -, hrun', -⟩ := h.location ha hb
    obtain rfl := Option.some.inj (hl.symm.trans hl')
    obtain rfl := Option.some.inj (hp.symm.trans hp')
    exact ⟨_, h.registry.mem_rows hb, hid, hrun'.symm.trans hrun⟩
  · rintro ⟨r, hr, hid, haddr⟩
    obtain ⟨b, -, hrow⟩ := List.mem_filterMap.mp hr
    obtain ⟨bp, hb, rfl⟩ := Option.map_eq_some_iff.mp hrow
    obtain ⟨p, loc, hl, hp, -, hrun, -⟩ := h.location ha hb
    exact ⟨b, bp, p, loc, hb, hid, hl, hp, hrun.trans haddr⟩

end Rows

/-- An argument is a way to write the address of a function exactly when `break` resolves it to that
address, and gets to place every breakpoint it sets. -/
theorem typedBack_iff {arg : BreakArg} (h : Ready w []) (ha : w.state = .active) (hpid : w.pid ≠ 0)
    (hids : w.IdsLeft (syms.functions.length + 1)) :
    TypedBack k syms w arg a ↔ a ∈ arg.targets k syms w ∧
      (∀ y ∈ arg.targets k syms w, w.CanPlace (y + w.loadAddress)) ∧ arg.Located k syms w := by
  rw [← cmdBreak_one_ok_iff h ha hpid hids]
  constructor
  · rintro ⟨w', id, hok, hnew, hat, -⟩
    refine ⟨?_, w', hok⟩
    have hsets := cmdBreak_one_sets h hok
    obtain ⟨r, hr, rfl, haddr⟩ := (isAt_iff hsets.ready (hsets.state.trans ha)).mp hat
    rw [hsets.loadAddress, add_left_inj] at haddr
    rw [hsets.rows] at hr
    rcases mem_setEdits hr with hold | htarget
    · exact absurd (pendingIds_eq w ▸ List.mem_map_of_mem hold) hnew
    · exact haddr ▸ htarget
  · rintro ⟨hmem, w', hok⟩
    have hsets := cmdBreak_one_sets h hok
    obtain ⟨r, hr, haddr, hid⟩ := exists_setEdits w.globalIdCounter w.rows hmem
    rw [← hsets.rows] at hr
    refine ⟨w', r.id, hok, fun hold => ?_, ?_, fun w'' hrestart ha'' hload => ?_⟩
    · exact BitVec.not_le.mpr (hsets.issued.after r.id hid).1 (pendingIds_le h.registry hold)
    · exact (isAt_iff hsets.ready (hsets.state.trans ha)).mpr
        ⟨r, hr, rfl, by rw [haddr, hsets.loadAddress]⟩
    · have hspawned := restart_spawned hsets.ready hrestart
      exact (isAt_iff hspawned.ready ha'').mpr
        ⟨r, hspawned.rows ▸ hr, rfl, by rw [haddr, hload]⟩

/-! ## The addresses that are printed -/

/-- The text is the number of a line at the address, in the file of the pc. -/
def LineAt (k : Kernel) (syms : Symbols) (w : World) (text : List Char) (a : Addr) : Prop :=
  isNumber text = true ∧ syms.hasDwarf = true ∧
    w.dwfl.addrmodule (getPc k w.tracee w.pid) = true ∧
    (∃ file, lineTarget k syms w none (atoi text) = some (file, a)) ∧
    w.CanPlace (a + w.loadAddress)

/-- The text is the name of a function at the address. -/
def FunctionAt (syms : Symbols) (w : World) (text : List Char) (a : Addr) : Prop :=
  isNumber text = false ∧ (String.ofList text, a) ∈ syms.functions ∧
    ∀ y, (String.ofList text, y) ∈ syms.functions → w.CanPlace (y + w.loadAddress)

/-- A hexadecimal number without `0x` is a line number or a name. -/
theorem parseBreakArg_fmtHex : parseBreakArg (fmtHex x) =
    if isNumber (fmtHex x) then .line none (atoi (fmtHex x)) else .symbol (.ofList (fmtHex x)) := by
  have hall : Numerals.AllDigits 16 (fmtHex x) :=
    Numerals.allDigits_toDigits (by decide) (by decide)
  have hno : isHex (fmtHex x) = false := by
    by_contra hhex
    have hx : 'x' ∈ fmtHex x := mem_of_isHex (by simpa using hhex)
    exact hall.not_mem (by decide) hx
  unfold parseBreakArg
  rw [hno, if_neg Bool.false_ne_true, strchr_eq_none (hall.not_mem (by decide))]

/-- An address is read as one of the executable, so it comes back when the load address is 0. -/
theorem typedBack_addr_iff (h : Ready w []) (ha : w.state = .active) (hpid : w.pid ≠ 0)
    (hids : w.IdsLeft (syms.functions.length + 1)) :
    TypedBack k syms w (.addr (a + w.loadAddress)) a ↔ w.loadAddress = 0 ∧ w.CanPlace a := by
  rw [typedBack_iff h ha hpid hids, BreakArg.targets, List.mem_singleton,
    List.forall_mem_singleton]
  constructor
  · rintro ⟨hsame, hplace, -⟩
    have hzero : w.loadAddress = 0 := by simpa using hsame
    rw [hzero] at hplace
    exact ⟨hzero, by simpa using hplace⟩
  · rintro ⟨hzero, hplace⟩
    rw [hzero]
    exact ⟨by simp, by simpa using hplace, trivial⟩

theorem typedBack_fmtHex_iff (h : Ready w []) (ha : w.state = .active) (hpid : w.pid ≠ 0)
    (hids : w.IdsLeft (syms.functions.length + 1)) :
    TypedBack k syms w (parseBreakArg (fmtHex x)) a ↔
      LineAt k syms w (fmtHex x) a ∨ FunctionAt syms w (fmtHex x) a := by
  rw [typedBack_iff h ha hpid hids, parseBreakArg_fmtHex]
  unfold LineAt FunctionAt
  cases hnumber : isNumber (fmtHex x) with
  | false =>
    rw [if_neg Bool.false_ne_true, BreakArg.targets]
    have hmem : ∀ y, y ∈ (syms.functions.filter fun f => f.1 = .ofList (fmtHex x)).map Prod.snd ↔
        (.ofList (fmtHex x), y) ∈ syms.functions := by
      intro y
      simp only [List.mem_map, List.mem_filter, decide_eq_true_eq]
      constructor
      · rintro ⟨f, ⟨hf, hname⟩, rfl⟩
        exact hname ▸ hf
      · intro hf
        exact ⟨_, ⟨hf, rfl⟩, rfl⟩
    rw [hmem]
    constructor
    · rintro ⟨hfun, hplace, -⟩
      exact .inr ⟨rfl, hfun, fun y hy => hplace y ((hmem y).mpr hy)⟩
    · rintro (⟨hno, -⟩ | ⟨-, hfun, hplace⟩)
      · cases hno
      · exact ⟨hfun, fun y hy => hplace y ((hmem y).mp hy), trivial⟩
  | true =>
    rw [if_pos rfl, BreakArg.targets]
    constructor
    · rintro ⟨htarget, hplace, hmod⟩
      split_ifs at htarget hplace with hdwarf
      · obtain ⟨⟨file, y⟩, hline, rfl⟩ := Option.map_eq_some_iff.mp (Option.mem_toList.mp htarget)
        exact .inl ⟨rfl, hdwarf, hmod hdwarf, ⟨file, hline⟩, hplace _ htarget⟩
      · cases htarget
    · rintro (⟨-, hdwarf, hmod, ⟨file, hline⟩, hplace⟩ | ⟨hno, -⟩)
      · rw [if_pos hdwarf, hline]
        exact ⟨List.mem_singleton.mpr rfl, by simpa using hplace, fun _ => hmod⟩
      · cases hno

/-- What `functions` prints for a function is read back as that function exactly when the load
address is 0, and what the disassembly prints likewise once `0x` is put before it. As it is printed
it is read back where a line or a function of that name is at the same address. -/
theorem shown_typedBack_iff (h : Ready w []) (ha : w.state = .active) (hpid : w.pid ≠ 0)
    (hids : w.IdsLeft (syms.functions.length + 1)) :
    (TypedBack k syms w (parseBreakArg (functionAddress w a)) a ↔
      w.loadAddress = 0 ∧ w.CanPlace a) ∧
    (TypedBack k syms w (parseBreakArg ('0' :: 'x' :: instructionAddress w a)) a ↔
      w.loadAddress = 0 ∧ w.CanPlace a) ∧
    (TypedBack k syms w (parseBreakArg (instructionAddress w a)) a ↔
      LineAt k syms w (instructionAddress w a) a ∨
        FunctionAt syms w (instructionAddress w a) a) := by
  have hprefixed : parseBreakArg ('0' :: 'x' :: instructionAddress w a) =
      .addr (a + w.loadAddress) := congrArg BreakArg.addr (strtoul_hex 0)
  rw [parseBreakArg_functionAddress, hprefixed]
  exact ⟨typedBack_addr_iff h ha hpid hids, typedBack_addr_iff h ha hpid hids,
    typedBack_fmtHex_iff h ha hpid hids⟩

/-- A process that is loaded at an address and stops with `SIGABRT`. -/
def Kernel.loadedAt (load : Addr) : Kernel :=
  { Kernel.scripted (fun _ => 0) [.stopped ⟨SIGTRAP, 0⟩, .stopped ⟨SIGABRT, 0⟩] with
    mapsBase := fun _ => some load }

/-- An executable with the function `main`. -/
def mainSymbols (isDyn : Bool) (a : Addr) : Symbols :=
  { Symbols.stripped with isDyn := isDyn, functions := [("main", a)] }

/-- An executable at a fixed address. -/
theorem shown_typedBack_iff_fixed : ∃ w,
    session (.loadedAt 0x400000) (mainSymbols false 0x401136) dbgInit [.run true] = .ok w ∧
    TypedBack (.loadedAt 0x400000) (mainSymbols false 0x401136) w
      (parseBreakArg (functionAddress w 0x401136)) 0x401136 := by
  obtain ⟨w, hw, hp⟩ := exists_of_any (p := fun w => (w.state = .active ∧ w.pid ≠ 0) ∧
      w.globalIdCounter = 1 ∧ w.loadAddress = 0)
    (x := session (.loadedAt 0x400000) (mainSymbols false 0x401136) dbgInit [.run true])
    (by decide +kernel)
  obtain ⟨⟨ha, hpid⟩, hcounter, hload⟩ := of_decide_eq_true hp
  have hids : w.IdsLeft ((mainSymbols false 0x401136).functions.length + 1) := by
    unfold World.IdsLeft
    rw [hcounter]
    decide
  exact ⟨w, hw, (shown_typedBack_iff (session_ready dbgInit_ready hw) ha hpid hids).1.mpr
    ⟨hload, fun h0 => absurd h0 (by decide)⟩⟩

/-- One that is loaded at 0x555555554000: `break 0x555555555139` sets a breakpoint at twice the load
address. -/
theorem functions_not_typedBack : ∃ w,
    session (.loadedAt 0x555555554000) (mainSymbols true 0x1139) dbgInit [.run true] = .ok w ∧
    w.state = .active ∧
    cmdFunctions (mainSymbols true 0x1139) w none = [("0x555555555139".toList, "main")] ∧
    ¬TypedBack (.loadedAt 0x555555554000) (mainSymbols true 0x1139) w
      (parseBreakArg "0x555555555139".toList) 0x1139 := by
  obtain ⟨w, hw, hp⟩ := exists_of_any (p := fun w => (w.state = .active ∧ w.pid ≠ 0) ∧
      w.globalIdCounter = 1 ∧ w.loadAddress = 0x555555554000)
    (x := session (.loadedAt 0x555555554000) (mainSymbols true 0x1139) dbgInit [.run true])
    (by decide +kernel)
  obtain ⟨⟨ha, hpid⟩, hcounter, hload⟩ := of_decide_eq_true hp
  have hids : w.IdsLeft ((mainSymbols true 0x1139).functions.length + 1) := by
    unfold World.IdsLeft
    rw [hcounter]
    decide
  have htext : functionAddress w 0x1139 = "0x555555555139".toList := by
    unfold functionAddress
    rw [hload]
    decide +kernel
  have haddr : parseBreakArg "0x555555555139".toList = .addr (0x1139 + w.loadAddress) :=
    htext ▸ parseBreakArg_functionAddress
  refine ⟨w, hw, ha, congrArg (fun t => [(t, "main")]) htext, fun h => ?_⟩
  rw [haddr, typedBack_addr_iff (session_ready dbgInit_ready hw) ha hpid hids] at h
  exact absurd (hload.symm.trans h.1) (by decide)

end Vdbg
