import Vdbg.Backtrace

/-!
# The call chain a backtrace shows

The activations of a program with the standard prologue, as the stack links them, and what
`print_backtrace` prints of them. It looks for the frame of the innermost one at `rbp`, which holds
the caller's until the prologue is over and from the epilogue on. At the entry it lets the tracee go
on to `pc + 4`: past a `push` and a `mov`, but only past an `endbr64` where there is one. Callers are
looked up at their return addresses, and a call that is the last instruction of its function returns
to the next one (`backtrace_shows_iff`).
-/

namespace Vdbg

open FaultRun Words

variable {k : Kernel} {syms : Symbols} {M : Cpu} {E : Ends M} {s s' : Regs × Memory}
  {w w' w₁ : World} {ts : List Addr} {a load : Addr} {name f : String} {fs : List String} {n : ℕ}

/-! ## What is printed besides frames -/

theorem printSource_frames {file : String} {line context : ℕ}
    (hok : printSource w file line context = .ok w') :
    shownFunctions w'.out = shownFunctions w.out := by
  unfold printSource at hok
  split_ifs at hok
  cases hok
  rw [World.say, shownFunctions_append]
  exact List.append_nil _

theorem printSourceAtCurrentPc_frames {context : ℕ}
    (hok : printSourceAtCurrentPc syms w a context = .ok w') :
    shownFunctions w'.out = shownFunctions w.out := by
  unfold printSourceAtCurrentPc at hok
  split_ifs at hok
  · cases hok
    rfl
  · obtain ⟨r, -, hok⟩ := bind_eq_ok.mp hok
    rcases r with - | ⟨file, src⟩
    · cases hok
      rfl
    · dsimp only at hok
      split_ifs at hok
      · cases hok
        rfl
      · exact (printSource_frames hok).trans (warning_looked w src.outdated).2

theorem printBpHitMessageAtLoc_frames {p : Option LocPtr}
    (hok : printBpHitMessageAtLoc w p = .ok w') :
    shownFunctions w'.out = shownFunctions w.out := by
  unfold printBpHitMessageAtLoc at hok
  rcases p with - | p
  · cases hok
  · obtain ⟨loc, -, hok⟩ := bind_eq_ok.mp hok
    split_ifs at hok
    · cases hok
      rfl
    · obtain ⟨⟨got, sym, line⟩, -, hok⟩ := bind_eq_ok.mp hok
      rcases got with - | ⟨b, bp⟩
      · cases hok
      · cases hok
        rw [World.say, shownFunctions_append]
        exact List.append_nil _

theorem dispatchStop_frames {info : SigInfo} (hok : dispatchStop k syms w info = .ok w') :
    shownFunctions w'.out = shownFunctions w.out := by
  have hsay : ∀ (w : World) (r : Report), shownFunctions [r] = [] →
      shownFunctions (w.say r).out = shownFunctions w.out := fun w r hr => by
    rw [World.say, shownFunctions_append, hr, List.append_nil]
  unfold dispatchStop at hok
  split_ifs at hok
  · unfold handleSigtrap at hok
    split_ifs at hok
    · cases hok
      rfl
    · obtain ⟨w₁, hhit, hok⟩ := bind_eq_ok.mp hok
      have hmessage : shownFunctions w₁.out = _ := printBpHitMessageAtLoc_frames hhit
      exact (printSourceAtCurrentPc_frames hok).trans hmessage
    · cases hok
      rfl
    · cases hok
      exact hsay _ _ rfl
  · obtain ⟨w₁, hsource, hok⟩ := bind_eq_ok.mp hok
    cases hok
    exact (printSourceAtCurrentPc_frames hsource).trans (hsay _ _ rfl)
  · cases hok
    exact hsay _ _ rfl
  · cases hok
    rfl
  · cases hok
    exact hsay _ _ rfl

/-- A wait that leaves a tracee prints no frame. -/
theorem waitForSignal_frames (hok : waitForSignal k syms w = .ok w') (hact : w'.state = .active) :
    shownFunctions w'.out = shownFunctions w.out := by
  have hdead : ∀ w : World, cleanupAtTraceeDeath k w = .ok w' → False := fun w hclean => by
    obtain ⟨w₁, -, hclean⟩ := bind_eq_ok.mp hclean
    cases hclean
    cases hact
  unfold waitForSignal at hok
  split at hok
  · cases hok
  · cases hok
    rw [World.say, shownFunctions_append]
    exact List.append_nil _
  · exact (hdead _ hok).elim
  · exact (hdead _ hok).elim
  · have hstop : shownFunctions w'.out = _ := dispatchStop_frames hok
    exact hstop

/-- `continue` of a tracee in its program prints no frame. -/
theorem Tracing.continue_frames (hk : k.Runs M E) (h : Tracing M w s)
    (hgoes : M.armed w.isPatched s = true → E.status s = none)
    (hok : continueExecution k syms w = .ok w') (hact : w'.state = .active) :
    shownFunctions w'.out = shownFunctions w.out := by
  obtain ⟨t, hstep, -⟩ := h.stepOver syms hk.toSteps hgoes
  rw [h.continueExecution_eq hstep] at hok
  have hwait : shownFunctions w'.out = _ := waitForSignal_frames hok hact
  exact hwait

/-- A request for a location prints nothing. -/
theorem setTempBpLocation_out (h : Ready w ts) {planted : Bool}
    (hok : setTempBpLocation k w a = .ok (planted, w')) : w'.out = w.out := by
  obtain ⟨hact, hpid, ha⟩ := setTempBpLocation_ok hok
  rcases hp : mapLookup w.bpLocations a with - | p
  · obtain ⟨ht, heq, -⟩ := setTempBpLocation_absent (k := k) h hact hpid ha hp
    obtain ⟨-, rfl⟩ := Prod.mk.inj (Except.ok.inj (hok.symm.trans heq))
    rfl
  · have heq := setTempBpLocation_registered (k := k) h hact hpid ha (by rw [hp]; rfl)
    obtain ⟨-, rfl⟩ := Prod.mk.inj (Except.ok.inj (hok.symm.trans heq))
    rfl

/-! ## Leaving the entry -/

variable (syms) in
/-- The tracee runs from the entry to `pc + 4`, unless it is interrupted or a location there is
disabled. -/
theorem Tracing.leaveEntry_arrives (hk : k.Runs M E) (hready : Ready w []) (h : Tracing M w s)
    (hpid : w.pid ≠ 0) (ha : a + 4 ≠ 0) (hstart : M.starts (a + 4))
    (hline : w.dwfl.Answers (a + 4)) (hpos : 0 < n)
    (hgoes : E.Goes s n) (hthere : M.pc (M.run n s).1 = a + 4)
    (hfree : ∀ i, 0 < i → i < n → M.pc (M.run i s).1 ≠ a + 4 ∧
      M.armed w.isPatched (M.run i s) = false)
    (hlive : (mapLookup w.bpLocations (a + 4)).isSome → w.isPatched (a + 4) = true) :
    ∃ w', leaveEntry k syms w a = .ok (a + 4, w') ∧ Tracing M w' (M.run n s) ∧
      w'.dwfl = w.dwfl ∧ shownFunctions w'.out = shownFunctions w.out := by
  obtain ⟨planted, w₁, hplant, h₁, hasked, hveiled⟩ :=
    h.plant hk.accessible (Veiled.refl hready) hpid ha hstart
  rw [List.nil_append] at hveiled
  have hpatched : ∀ x, w₁.isPatched x = true → w.isPatched x = true ∨ x = a + 4 := by
    intro x hx
    rw [hasked.patched, Bool.or_eq_true, Bool.and_eq_true, decide_eq_true_eq,
      List.mem_singleton] at hx
    exact hx.imp_right And.left
  have hstop : M.Stops w₁.isPatched s n := by
    refine ⟨hpos, ?_, fun i hi hlt => ?_⟩
    · rw [Traps.Machine.armed, hthere, hasked.patched]
      rcases hp : mapLookup w.bpLocations (a + 4) with - | p
      · simp
      · rw [hlive (by rw [hp]; rfl)]
        rfl
    · obtain ⟨hne, hnot⟩ := hfree i hi hlt
      by_contra harmed
      rw [Bool.not_eq_false] at harmed
      rcases hpatched _ harmed with hx | hx
      · exact Bool.false_ne_true (hnot.symm.trans hx)
      · exact hne hx
  obtain ⟨t, out, hcont, h₂⟩ := h₁.continue_stops syms hk hstop hgoes fun _ => by
    rw [hthere, hasked.dwfl]
    exact hline
  set w₂ : World := { w₁ with tracee := t, out := out } with hw₂
  have hveiled₂ := hveiled.there hcont h₂.active
  obtain ⟨w₃, hunplant, h₃⟩ := h₂.unplantAll hk.accessible hveiled₂
  have hkept : w₃.dwfl = w₂.dwfl ∧ w₃.out = w₂.out := by
    cases planted with
    | false =>
      cases hunplant
      exact ⟨rfl, rfl⟩
    | true =>
      obtain ⟨p, loc, ht, -, -, -, -, hone, -⟩ :=
        Ready.unplant_eq k hveiled₂.ready h₂.active
      obtain ⟨w₃', hone', hnil⟩ := foldlM_cons_eq_ok.mp hunplant
      obtain rfl := Except.ok.inj (hone'.symm.trans hone)
      cases hnil
      exact ⟨rfl, rfl⟩
  refine ⟨w₃, ?_, h₃, hkept.1.trans hasked.dwfl, ?_⟩
  · rw [leaveEntry_eq hplant hcont, hunplant, ok_bind, h₃.getPc_eq hk.toSteps, hthere,
      if_neg (not_not.mpr rfl)]
  · rw [hkept.2]
    exact (h₁.continue_frames hk (fun _ => hgoes 0 hpos) hcont h₂.active).trans
      (congrArg shownFunctions (setTempBpLocation_out hready hplant))

/-- Where a location at `pc + 4` is disabled, none is planted, and the tracee is not there when it
stops. -/
theorem Tracing.leaveEntry_disabled {pc : Addr} (hk : k.Runs M E) (hready : Ready w [])
    (h : Tracing M w s) (hpid : w.pid ≠ 0) (ha : a + 4 ≠ 0) (hstart : M.starts (a + 4))
    (hreg : (mapLookup w.bpLocations (a + 4)).isSome) (hoff : w.isPatched (a + 4) = false)
    (hok : leaveEntry k syms w a = .ok (pc, w')) : w'.state ≠ .active := by
  intro hact
  obtain ⟨planted, w₁, hplant, h₁, hasked, hveiled⟩ :=
    h.plant hk.accessible (Veiled.refl hready) hpid ha hstart
  have hnone : (mapLookup w.bpLocations (a + 4)).isNone = false := by
    rw [← Option.not_isSome, hreg]
    rfl
  obtain rfl : planted = false := (setTempBpLocation_planted hready hplant).trans hnone
  have hsame : ∀ x, w₁.isPatched x = w.isPatched x := by
    intro x
    rw [hasked.patched]
    by_cases hx : x = a + 4
    · rw [hx, hnone]
      simp
    · rw [decide_eq_false fun hmem => hx (List.mem_singleton.mp hmem)]
      simp
  rcases hcont : continueExecution k syms w₁ with e | w₂
  · unfold leaveEntry at hok
    rw [hplant, ok_bind] at hok
    dsimp only at hok
    rw [hcont] at hok
    cases hok
  rw [leaveEntry_eq hplant hcont] at hok
  change (if getPc k w₂.tracee w₂.pid ≠ a + 4 then Except.error (Fault.assertion, w₂)
    else Except.ok (getPc k w₂.tracee w₂.pid, w₂)) = Except.ok (pc, w') at hok
  split_ifs at hok with hpc
  obtain ⟨-, rfl⟩ := Prod.mk.inj (Except.ok.inj hok)
  obtain ⟨n, hfirst, -, h₂⟩ :=
    (runPlanted_reaches syms hk hveiled h₁).arrived (runPlanted_eq hcont) hact
  have harmed : w₁.isPatched (M.pc (M.run n s).1) = true := hfirst.there
  rw [← h₂.getPc_eq hk.toSteps, not_not.mp hpc, hsame, hoff] at harmed
  cases harmed

/-! ## Activations -/

/-- How much of its prologue the innermost activation has executed: nothing, an `endbr64`, the
`push` as well, or all of it. At the end the epilogue has popped `rbp`, and only the `ret` is left. -/
inductive Place where
  | entry
  | marked
  | pushed
  | inside
  | popped
deriving DecidableEq

/-- `endbr64` -/
def endbr64 (s : Regs × Memory) : Regs × Memory :=
  (Function.update s.1 .rip (s.1 .rip + 4), s.2)

/-- `push rbp` -/
def pushRbp (s : Regs × Memory) : Regs × Memory :=
  (Function.update (Function.update s.1 .rsp (s.1 .rsp - 8)) .rip (s.1 .rip + 1),
    writeWord s.2 (s.1 .rsp - 8) (s.1 .rbp))

/-- `mov rbp, rsp` -/
def movRbpRsp (s : Regs × Memory) : Regs × Memory :=
  (Function.update (Function.update s.1 .rbp (s.1 .rsp)) .rip (s.1 .rip + 3), s.2)

/-- The eight bytes from an address on are no instructions. -/
def IsData (M : Cpu) (x : Addr) : Prop := ∀ i < 8, ¬M.starts (x + BitVec.ofNat 64 i)

/-- What the program is about to do at the entry of a function with a standard prologue. -/
def Enters (M : Cpu) (E : Ends M) (endbr : Bool) (s : Regs × Memory) : Prop :=
  if endbr then M.exec s = endbr64 s ∧ E.Goes s 1
  else M.exec s = pushRbp s ∧ M.exec (pushRbp s) = movRbpRsp (pushRbp s) ∧ E.Goes s 2 ∧
    IsData M (s.1 .rsp - 8)

/-- The pc of a place in the function that starts at `start`. -/
def Place.At (start : Addr) (endbr : Bool) (pc : Addr) : Place → Prop
  | .entry => pc = start
  | .marked => endbr = true ∧ pc = start + 4
  | .pushed => pc = start + if endbr then 5 else 1
  | .inside | .popped => (if endbr then 8 else 4) ≤ pc - start

/-- Where the return address of the innermost activation is. -/
def Place.slot (s : Regs × Memory) : Place → Addr
  | .entry | .marked | .popped => s.1 .rsp
  | .pushed => s.1 .rsp + 8
  | .inside => s.1 .rbp + 8

/-- The frame of its caller. -/
def Place.callerBase (s : Regs × Memory) : Place → Addr
  | .entry | .marked | .pushed | .popped => s.1 .rbp
  | .inside => readWord s.2 (s.1 .rbp)

/-- A word of a frame: no instruction, and not below the stack pointer. -/
structure OnStack (M : Cpu) (s : Regs × Memory) (x : Addr) : Prop where
  data : IsData M x
  above : ∀ i < 8, ¬x + BitVec.ofNat 64 i - (s.1 .rsp - 8) < 8

/-- The activations that called the one with the frame `base`: each is in the function its call
belongs to, and the outermost one does not return to `main`. `rd` reads their frames, which are words
with `P`. -/
def Called (P : Addr → Prop) (rd : Addr → BitVec 64) (d : Dwfl) (load : Addr) :
    Addr → List String → Prop
  | base, [] => P (base + 8) ∧ d.functionAt load (rd (base + 8)) ≠ some "main"
  | base, f :: fs => (P base ∧ P (base + 8)) ∧ d.functionAt load (rd (base + 8) - 1) = some f ∧
      Called P rd d load (rd base) fs

/-- The callers of the innermost activation. -/
def Callers (M : Cpu) (d : Dwfl) (load : Addr) (place : Place) (s : Regs × Memory) :
    List String → Prop
  | [] => True
  | f :: fs => (place = .inside → OnStack M s (s.1 .rbp)) ∧ OnStack M s (place.slot s) ∧
      d.functionAt load (readWord s.2 (place.slot s) - 1) = some f ∧
      Called (OnStack M s) (readWord s.2) d load (place.callerBase s) fs

/-- The addresses so many activations return to, from the one with the frame `base` on. -/
def returnsFrom (rd : Addr → BitVec 64) : Addr → ℕ → List Addr
  | _, 0 => []
  | base, n + 1 => rd (base + 8) :: returnsFrom rd (rd base) n

/-- The addresses the innermost activation and its callers return to. -/
def Place.returns (place : Place) (s : Regs × Memory) : ℕ → List Addr
  | 0 => []
  | n + 1 => readWord s.2 (place.slot s) :: returnsFrom (readWord s.2) (place.callerBase s) n

/-- The function of a call is found at the address it returns to, with a line. -/
structure Dwfl.Resolves (d : Dwfl) (load ret : Addr) : Prop where
  function : d.functionAt load ret = d.functionAt load (ret - 1)
  shown : d.Shows ret

theorem Dwfl.Resolves.total {d : Dwfl} {ret : Addr} (h : d.Resolves load ret) : d.Total load ret :=
  ⟨h.shown.module, fun _ _ => h.shown⟩

/-- A chain that ends at the first `main`. -/
def UpToMain (names : List String) : Prop := ∃ inner, names = inner ++ ["main"] ∧ "main" ∉ inner

theorem upToMain_cons {name : String} :
    UpToMain (name :: fs) ↔ name = "main" ∧ fs = [] ∨ name ≠ "main" ∧ UpToMain fs := by
  constructor
  · rintro ⟨_ | ⟨g, inner⟩, h, hnot⟩
    · obtain ⟨rfl, rfl⟩ := List.cons.inj h
      exact .inl ⟨rfl, rfl⟩
    · obtain ⟨rfl, rfl⟩ := List.cons.inj h
      exact .inr ⟨Ne.symm (List.ne_of_not_mem_cons hnot),
        inner, rfl, List.not_mem_of_not_mem_cons hnot⟩
  · rintro (⟨rfl, rfl⟩ | ⟨hne, inner, rfl, hnot⟩)
    · exact ⟨[], rfl, List.not_mem_nil⟩
    · exact ⟨name :: inner, rfl, List.not_mem_cons_of_ne_of_not_mem (Ne.symm hne) hnot⟩

theorem not_upToMain_nil : ¬UpToMain [] := by
  rintro ⟨inner, h, -⟩
  simp at h

theorem UpToMain.name_eq (h : UpToMain [name]) : name = "main" :=
  ((upToMain_cons.mp h).resolve_right fun h => not_upToMain_nil h.2).1

/-- The chain as another reader sees it. -/
theorem Called.map {P Q : Addr → Prop} {rd rd' : Addr → BitVec 64} {d : Dwfl} {base : Addr}
    (h : Called P rd d load base fs) (hrd : ∀ x, P x → Q x ∧ rd' x = rd x) :
    Called Q rd' d load base fs := by
  induction fs generalizing base with
  | nil => exact ⟨(hrd _ h.1).1, by rw [(hrd _ h.1).2]; exact h.2⟩
  | cons f fs ih =>
    obtain ⟨⟨hbase, hslot⟩, hf, hrest⟩ := h
    rw [← (hrd _ hslot).2] at hf
    rw [← (hrd _ hbase).2] at hrest
    exact ⟨⟨(hrd _ hbase).1, (hrd _ hslot).1⟩, hf, ih hrest⟩

theorem Called.returnsFrom_map {P : Addr → Prop} {rd rd' : Addr → BitVec 64} {d : Dwfl} {base : Addr}
    (h : Called P rd d load base fs) (hrd : ∀ x, P x → rd' x = rd x) :
    returnsFrom rd' base fs.length = returnsFrom rd base fs.length := by
  induction fs generalizing base with
  | nil => rfl
  | cons f fs ih =>
    obtain ⟨⟨hbase, hslot⟩, -, hrest⟩ := h
    rw [← hrd _ hbase] at hrest
    rw [List.length_cons, returnsFrom, returnsFrom, hrd _ hslot, ih hrest, hrd _ hbase]

/-! ## The loop along the chain -/

variable (syms) in
/-- The loop prints the chain up to `main` where it finds each caller. -/
theorem backtraceLoop_prints {P : Addr → Prop} {rd : Addr → BitVec 64} {base : Addr}
    (hread : Steady k w rd) (hchain : Called P rd w.dwfl load base fs)
    (hmain : UpToMain (name :: fs))
    (hfound : ∀ r ∈ returnsFrom rd base fs.length, w.dwfl.Resolves load r) : ∃ w',
      backtraceLoop k syms load (fs.length + 1) w name base (rd (base + 8)) = .ok w' ∧
      Looked w w' ∧ shownFunctions w'.out = shownFunctions w.out ++ fs := by
  induction fs generalizing w name base with
  | nil =>
    obtain ⟨rfl, -⟩ : name = "main" ∧ ([] : List String) = [] :=
      (upToMain_cons.mp hmain).resolve_right fun h => not_upToMain_nil h.2
    exact ⟨w, backtraceLoop_main, .refl w, (List.append_nil _).symm⟩
  | cons f fs ih =>
    obtain ⟨hne, hmain⟩ := (upToMain_cons.mp hmain).resolve_left fun h => by cases h.2
    obtain ⟨-, hf, hrest⟩ := hchain
    have hthis : w.dwfl.Resolves load (rd (base + 8)) := hfound _ List.mem_cons_self
    obtain ⟨w₁, path, line, hlooked, hout, hturn⟩ :=
      backtraceLoop_some syms hread hne hthis.total (hthis.function.trans hf)
    rw [← hlooked.dwfl] at hrest
    obtain ⟨w', hok, hlooked', hshown⟩ := ih (hread.looked hlooked) hrest hmain fun r hr => by
      rw [hlooked.dwfl]
      exact hfound r (List.mem_cons_of_mem _ hr)
    refine ⟨w', (hturn _).trans hok, hlooked.trans hlooked', ?_⟩
    rw [hshown, hout, shownFunctions_append, List.append_assoc]
    rfl

/-- A frame that is not the first one is a message or a line, and the rest stays. -/
theorem printFrame_next_cases {r : Option String}
    (hok : printFrame k syms w a load false = .ok (r, w₁)) : w₁.state = w.state ∧
    (r = none ∧ shownFunctions w₁.out = shownFunctions w.out ∨
      ∃ f, r = some f ∧ w.dwfl.functionAt load a = some f ∧ w.dwfl.Shows a ∧
        shownFunctions w₁.out = shownFunctions w.out ++ [f]) := by
  unfold printFrame at hok
  obtain ⟨die, hdie, hok⟩ := bind_eq_ok.mp hok
  have hm : w.dwfl.addrmodule a = true := by
    unfold getFuncDieFromPc at hdie
    by_contra hm
    rw [if_pos (by simpa using hm)] at hdie
    cases hdie
  obtain rfl := Except.ok.inj ((getFuncDieFromPc_eq hm).symm.trans hdie)
  rcases hf : w.dwfl.functionAt load a with - | f
  · rw [functionAt_eq_none hf] at hok
    cases hok
    refine ⟨rfl, .inl ⟨rfl, ?_⟩⟩
    rw [World.say, shownFunctions_append]
    exact List.append_nil _
  · obtain ⟨die', -, hpair⟩ := functionAt_eq_some hf
    rw [hpair] at hok
    simp only [Bool.false_eq_true, if_false, ok_bind] at hok
    obtain ⟨r', hline, hok⟩ := bind_eq_ok.mp hok
    rcases r' with - | ⟨file, src⟩
    · cases hok
    · obtain ⟨path, hpath, hok⟩ := bind_eq_ok.mp hok
      cases hok
      obtain ⟨hsrc, hfile⟩ := getLineFromPc_eq_some hline
      refine ⟨rfl, .inr ⟨f, rfl, rfl,
        ⟨hm, src, file, hsrc, hfile, fun dir => relativePath_common hpath⟩, ?_⟩⟩
      rw [World.say, shownFunctions_append]
      rfl

/-- The loop adds functions to what was printed. -/
theorem backtraceLoop_extends {fuel : ℕ} {fp ra : Addr}
    (hok : backtraceLoop k syms load fuel w name fp ra = .ok w') : w'.state = w.state ∧
    ∃ more, shownFunctions w'.out = shownFunctions w.out ++ more := by
  induction fuel generalizing w name fp ra with
  | zero => cases hok
  | succ fuel ih =>
    rw [backtraceLoop] at hok
    by_cases hname : name = "main"
    · rw [if_pos hname] at hok
      cases hok
      exact ⟨rfl, [], (List.append_nil _).symm⟩
    · rw [if_neg hname] at hok
      obtain ⟨⟨r, w₁⟩, hframe, hok⟩ := bind_eq_ok.mp hok
      obtain ⟨hstate, hcases⟩ := printFrame_next_cases hframe
      rcases hcases with ⟨rfl, hshown⟩ | ⟨f, rfl, -, -, hshown⟩
      · cases hok
        exact ⟨hstate, [], hshown.trans (List.append_nil _).symm⟩
      · obtain ⟨hstate', more, hmore⟩ := ih hok
        refine ⟨hstate'.trans hstate, f :: more, ?_⟩
        have hrest : shownFunctions w'.out = shownFunctions w₁.out ++ more := hmore
        rw [hrest, hshown, List.append_assoc]
        rfl

/-- Where the loop has printed a function, that is the one of the return address. -/
theorem backtraceLoop_turn {rd : Addr → BitVec 64} {fuel : ℕ} {fp : Addr} (hread : Steady k w rd)
    (hname : name ≠ "main")
    (hok : backtraceLoop k syms load fuel w name fp (rd (fp + 8)) = .ok w')
    (hshown : shownFunctions w'.out = shownFunctions w.out ++ f :: fs) :
    w.dwfl.functionAt load (rd (fp + 8)) = some f ∧ w.dwfl.Shows (rd (fp + 8)) ∧
    ∃ fuel w₁, Looked w w₁ ∧
      backtraceLoop k syms load fuel w₁ f (rd fp) (rd (rd fp + 8)) = .ok w' ∧
      shownFunctions w'.out = shownFunctions w₁.out ++ fs := by
  cases fuel with
  | zero => cases hok
  | succ fuel =>
    have hturns := hok
    rw [backtraceLoop, if_neg hname] at hturns
    obtain ⟨⟨r, w₁⟩, hframe, hrest⟩ := bind_eq_ok.mp hturns
    obtain ⟨-, ⟨rfl, hsame⟩ | ⟨g, rfl, hg, hshows, -⟩⟩ := printFrame_next_cases hframe
    · cases hrest
      rw [hsame] at hshown
      exact absurd (List.append_right_eq_self.mp hshown.symm) (List.cons_ne_nil _ _)
    · obtain ⟨w₂, path, line, hlooked, hout, hturn⟩ :=
        backtraceLoop_some syms hread hname ⟨hshows.module, fun _ _ => hshows⟩ hg
      rw [hturn] at hok
      obtain ⟨-, more, hmore⟩ := backtraceLoop_extends hok
      have hone : shownFunctions w₂.out = shownFunctions w.out ++ [g] := by
        rw [hout, shownFunctions_append]
        rfl
      have hall : shownFunctions w'.out = shownFunctions w.out ++ g :: more := by
        rw [hmore, hone, List.append_assoc]
        rfl
      obtain ⟨rfl, rfl⟩ := List.cons.inj (List.append_cancel_left (hshown.symm.trans hall))
      exact ⟨hg, hshows, fuel, w₂, hlooked, hok, hmore⟩

/-- Where the loop has printed the chain, it has found each caller. -/
theorem backtraceLoop_resolves {P : Addr → Prop} {rd : Addr → BitVec 64} {fuel : ℕ} {base : Addr}
    (hread : Steady k w rd) (hchain : Called P rd w.dwfl load base fs)
    (hmain : UpToMain (name :: fs))
    (hok : backtraceLoop k syms load fuel w name base (rd (base + 8)) = .ok w')
    (hshown : shownFunctions w'.out = shownFunctions w.out ++ fs) :
    ∀ r ∈ returnsFrom rd base fs.length, w.dwfl.Resolves load r := by
  induction fs generalizing w name base fuel with
  | nil => exact fun r hr => absurd hr List.not_mem_nil
  | cons f fs ih =>
    obtain ⟨hne, hmain⟩ := (upToMain_cons.mp hmain).resolve_left fun h => by cases h.2
    obtain ⟨-, hf, hrest⟩ := hchain
    obtain ⟨hfound, hshows, fuel, w₁, hlooked, hok, hshown⟩ :=
      backtraceLoop_turn hread hne hok hshown
    rw [← hlooked.dwfl] at hrest
    have htail := ih (hread.looked hlooked) hrest hmain hok hshown
    rw [hlooked.dwfl] at htail
    exact List.forall_mem_cons.mpr ⟨⟨hfound.trans hf.symm, hshows⟩, htail⟩

/-- From the frame of the caller on, the loop does not print the chain: it would come to `main` at
the address that `main` returns to. -/
theorem backtraceLoop_misses {P : Addr → Prop} {rd : Addr → BitVec 64} {fuel : ℕ} {base : Addr}
    (hread : Steady k w rd) (hchain : Called P rd w.dwfl load base fs) (hname : name ≠ "main")
    (hmain : UpToMain (f :: fs))
    (hok : backtraceLoop k syms load fuel w name base (rd (base + 8)) = .ok w') :
    shownFunctions w'.out ≠ shownFunctions w.out ++ f :: fs := by
  intro hshown
  induction fs generalizing w name f base fuel with
  | nil =>
    obtain ⟨hfound, -⟩ := backtraceLoop_turn hread hname hok hshown
    rw [hmain.name_eq] at hfound
    exact hchain.2 hfound
  | cons g fs ih =>
    obtain ⟨hne, hmain⟩ := (upToMain_cons.mp hmain).resolve_left fun h => by cases h.2
    obtain ⟨-, -, fuel, w₁, hlooked, hok, hshown⟩ := backtraceLoop_turn hread hname hok hshown
    have hrest := hchain.2.2
    rw [← hlooked.dwfl] at hrest
    exact ih (hread.looked hlooked) hrest hne hmain hok hshown

/-- The first frame leaves the state of the debugger as the step out of the entry does. -/
theorem printFrame_first_state {die : FuncDie} {r : Option String}
    (hm : w.dwfl.addrmodule a = true) (hf : w.dwfl.functionAt load a = some f)
    (hdie : w.dwfl.dieAt load a = some die)
    (hok : printFrame k syms w a load true = .ok (r, w₁)) :
    ∃ pc w₂, enterFrame k syms w die a load = .ok (pc, w₂) ∧ w₁.state = w₂.state := by
  obtain ⟨die', hdie', hpair⟩ := functionAt_eq_some hf
  obtain rfl := Option.some.inj (hdie.symm.trans hdie')
  unfold printFrame at hok
  rw [getFuncDieFromPc_eq hm, ok_bind, hpair] at hok
  obtain ⟨⟨pc, w₂⟩, henter, hok⟩ := bind_eq_ok.mp hok
  obtain ⟨r', -, hok⟩ := bind_eq_ok.mp hok
  rcases r' with - | ⟨file, src⟩
  · cases hok
  · obtain ⟨path, -, hok⟩ := bind_eq_ok.mp hok
    cases hok
    refine ⟨pc, w₂, henter, ?_⟩
    show (printSrcFileOutdatedWarning w₂ src.outdated).state = w₂.state
    rw [printSrcFileOutdatedWarning_eq]

/-! ## From the first frame on -/

theorem Tracing.looked (hk : k.Steps M E) (h : Tracing M w s) (hl : Looked w w') :
    Tracing M w' s := by
  obtain ⟨log, out, rfl⟩ := hl
  exact h.move hk h.loaded rfl h.stopped h.regs (h.mem hk)

/-- What the debugger reads of a stopped program. -/
theorem Tracing.steady (hk : k.Accessible) (h : Tracing M w s) :
    Steady k w (readWord w.tracee.mem) ∧
      ∀ x, IsData M x → readWord w.tracee.mem x = readWord s.2 x := by
  constructor
  · intro log x
    have halive : Tracee.alive { w.tracee with log } w.pid = true := h.hosted.alive
    unfold Tracee.peekData
    rw [halive, hk.peek]
    rfl
  · intro x hx
    refine readWord_congr fun i hi => h.memory.plain _ ?_
    by_contra hpatched
    exact hx i hi (h.patches _ (by simpa using hpatched))

/-- The first frame has been printed: the loop starts at `rbp`. -/
theorem Tracing.printBacktrace_eq (hk : k.Steps M E) (hdwarf : syms.hasDwarf = true)
    (h : Tracing M w₁ s')
    (hframe : printFrame k syms w (getPc k w.tracee w.pid) w.loadAddress true =
      .ok (some name, w₁)) :
    ∃ w₂, Looked w₁ w₂ ∧ w₂.out = w₁.out ∧ ∀ fuel, printBacktrace k syms fuel w =
      backtraceLoop k syms w.loadAddress fuel w₂ name (s'.1 .rbp)
        (readWord w₁.tracee.mem (s'.1 .rbp + 8)) := by
  obtain ⟨w₂, hlooked, hout, hcallers⟩ :=
    printCallers_eq syms w.loadAddress name (h.steady hk.accessible).1
  have hrbp : getRegisterValue k w₁.tracee .rbp w₁.pid = s'.1 .rbp := by
    rw [getRegisterValue, if_pos h.inStop, h.regs]
  refine ⟨w₂, hlooked, hout, fun fuel => ?_⟩
  rw [← hrbp, ← hcallers]
  unfold printBacktrace
  rw [hdwarf, hframe]
  rfl

/-- `print_backtrace` prints exactly these functions and leaves the tracee in its stop. -/
def Prints (k : Kernel) (syms : Symbols) (w : World) (names : List String) : Prop :=
  ∃ fuel w', printBacktrace k syms fuel w = .ok w' ∧ w'.state = .active ∧
    shownFunctions w'.out = shownFunctions w.out ++ names

section First

variable (hk : k.Steps M E) (hdwarf : syms.hasDwarf = true) (h : Tracing M w₁ s')
  (hdwfl : w₁.dwfl = w.dwfl)
  (hframe : printFrame k syms w (getPc k w.tracee w.pid) w.loadAddress true =
    .ok (some name, w₁))
  (hshown : shownFunctions w₁.out = shownFunctions w.out ++ [name])

include hk hdwarf h hdwfl hframe hshown

/-- The loop from the first frame on. -/
theorem loop_of_first : ∃ w₂, Steady k w₂ (readWord w₁.tracee.mem) ∧ w₂.state = .active ∧
    w₂.dwfl = w.dwfl ∧ shownFunctions w₂.out = shownFunctions w.out ++ [name] ∧
    ∀ fuel, printBacktrace k syms fuel w =
      backtraceLoop k syms w.loadAddress fuel w₂ name (s'.1 .rbp)
        (readWord w₁.tracee.mem (s'.1 .rbp + 8)) := by
  obtain ⟨w₂, hlooked, hout, heq⟩ := h.printBacktrace_eq hk hdwarf hframe
  refine ⟨w₂, (h.steady hk.accessible).1.looked hlooked, ?_, hlooked.dwfl.trans hdwfl, ?_, heq⟩
  · obtain ⟨log, out, rfl⟩ := hlooked
    exact h.active
  · rw [hout, hshown]

/-- `main` has no callers to print. -/
theorem prints_main (hmain : name = "main") : Prints k syms w [name] := by
  obtain ⟨w₂, -, hactive, -, hout, heq⟩ := loop_of_first hk hdwarf h hdwfl hframe hshown
  subst hmain
  exact ⟨1, w₂, heq 1, hactive, hout⟩

/-- The frame at `rbp` is the one of the innermost activation: its callers are printed where they
are found. -/
theorem prints_iff_of_called (hmain : UpToMain (name :: fs))
    (hchain : Called (IsData M) (readWord s'.2) w.dwfl w.loadAddress (s'.1 .rbp) fs) :
    Prints k syms w (name :: fs) ↔ ∀ r ∈ returnsFrom (readWord s'.2) (s'.1 .rbp) fs.length,
      w.dwfl.Resolves w.loadAddress r := by
  obtain ⟨w₂, hread, hactive, hdwfl₂, hout, heq⟩ :=
    loop_of_first hk hdwarf h hdwfl hframe hshown
  have hsame := (h.steady hk.accessible).2
  have hchain' := hchain.map fun x hx => ⟨hx, hsame x hx⟩
  rw [← hchain.returnsFrom_map hsame]
  rw [← hdwfl₂] at hchain' ⊢
  constructor
  · rintro ⟨fuel, w', hok, -, hnames⟩
    rw [heq] at hok
    refine backtraceLoop_resolves hread hchain' hmain hok ?_
    rw [hnames, hout, List.append_assoc]
    rfl
  · intro hfound
    obtain ⟨w', hok, hlooked, hnames⟩ := backtraceLoop_prints syms hread hchain' hmain hfound
    refine ⟨_, w', (heq _).trans hok, ?_, ?_⟩
    · obtain ⟨log, out, rfl⟩ := hlooked
      exact hactive
    · rw [hnames, hout, List.append_assoc]
      rfl

/-- The frame at `rbp` is the one of its caller, which is left out. -/
theorem not_prints_of_called (hmain : UpToMain (name :: f :: fs))
    (hchain : Called (IsData M) (readWord s'.2) w.dwfl w.loadAddress (s'.1 .rbp) fs) :
    ¬Prints k syms w (name :: f :: fs) := by
  obtain ⟨w₂, hread, hactive, hdwfl₂, hout, heq⟩ :=
    loop_of_first hk hdwarf h hdwfl hframe hshown
  have hchain' := hchain.map fun x hx => ⟨hx, (h.steady hk.accessible).2 x hx⟩
  rw [← hdwfl₂] at hchain'
  obtain ⟨hne, hrest⟩ := (upToMain_cons.mp hmain).resolve_left fun h => by cases h.2
  rintro ⟨fuel, w', hok, -, hnames⟩
  rw [heq] at hok
  refine backtraceLoop_misses hread hchain' hne hrest hok ?_
  rw [hnames, hout, List.append_assoc]
  rfl

end First

/-! ## Every place of a stop -/

/-- A stop in the innermost activation. The function has a name and an entry, its lookups return,
and at the entry nothing interrupts what it is about to do. -/
structure Innermost (M : Cpu) (E : Ends M) (w : World) (start : Addr) (endbr : Bool) (place : Place)
    (name : String) (s : Regs × Memory) : Prop where
  there : place.At start endbr (M.pc s.1)
  named : w.dwfl.functionAt w.loadAddress (M.pc s.1) = some name
  begins : ∃ die, w.dwfl.dieAt w.loadAddress (M.pc s.1) = some die ∧
    die.lowpc = some (start - w.loadAddress)
  total : w.dwfl.Total w.loadAddress (M.pc s.1)
  enters : place = .entry → Enters M E endbr s
  next : place = .entry → M.starts (start + 4) ∧ start + 4 ≠ 0 ∧ w.dwfl.Shows (start + 4)
  free : place = .entry → endbr = false → w.isPatched (start + 1) = false

/-- What is in the way of the internal continue at the entry: a location that is disabled. -/
def World.DisabledAt (w : World) (a : Addr) : Prop :=
  (mapLookup w.bpLocations a).isSome ∧ w.isPatched a = false

theorem Dwfl.Shows.answers {d : Dwfl} (h : d.Shows a) : d.Answers a := by
  obtain ⟨src, file, hsrc, hfile, -⟩ := h.line
  refine ⟨h.module, fun src' hsrc' => ?_⟩
  obtain rfl := Option.some.inj (hsrc.symm.trans hsrc')
  rw [hfile]
  rfl

theorem Place.At.ne_start {start pc : Addr} {endbr : Bool} {place : Place}
    (h : place.At start endbr pc) (hne : place ≠ .entry) : pc ≠ start := by
  rintro rfl
  cases place with
  | entry => exact hne rfl
  | marked =>
    have hpc : pc = pc + 4 := h.2
    bv_omega
  | pushed =>
    have hpc : pc = pc + if endbr then 5 else 1 := h
    cases endbr
    · simp only [Bool.false_eq_true, if_false] at hpc
      bv_omega
    · simp only [if_true] at hpc
      bv_omega
  | inside | popped =>
    have hpc : (if endbr then 8 else 4) ≤ pc - pc := h
    rw [BitVec.sub_self] at hpc
    cases endbr
    · exact absurd hpc (by decide)
    · exact absurd hpc (by decide)

theorem sub_right_cancel {x y z : Addr} (h : x - z = y - z) : x = y := by
  rw [← BitVec.sub_add_cancel x z, h, BitVec.sub_add_cancel]

namespace Innermost

variable {start : Addr} {endbr : Bool} {place : Place} {callers : List String}

variable (syms) in
/-- Past the entry the first frame is printed where the tracee is. -/
theorem first_frame (hk : k.Steps M E) (h : Tracing M w s)
    (hin : Innermost M E w start endbr place name s) (hne : place ≠ .entry) :
    ∃ w₁, printFrame k syms w (getPc k w.tracee w.pid) w.loadAddress true = .ok (some name, w₁) ∧
      Tracing M w₁ s ∧ w₁.dwfl = w.dwfl ∧
      shownFunctions w₁.out = shownFunctions w.out ++ [name] := by
  obtain ⟨die, hdie, hlow⟩ := hin.begins
  have hpc := h.getPc_eq hk
  obtain ⟨w₁, hok, hlooked, hshown⟩ := printFrame_inside k syms hin.total hin.named
    hdie (by
      rw [hlow, Option.getD_some]
      exact fun hsame => hin.there.ne_start hne (sub_right_cancel hsame.symm))
  rw [← hpc] at hok
  exact ⟨w₁, hok, h.looked hk hlooked, hlooked.dwfl, hshown⟩

/-- The states of the program up to `pc + 4`. -/
theorem run_entry (hk : k.Runs M E) (hin : Innermost M E w start endbr .entry name s) :
    ∃ n, 0 < n ∧ E.Goes s n ∧ M.pc (M.run n s).1 = start + 4 ∧
      (∀ i, 0 < i → i < n → M.pc (M.run i s).1 ≠ start + 4 ∧
        M.armed w.isPatched (M.run i s) = false) ∧
      M.run n s = if endbr then endbr64 s else movRbpRsp (pushRbp s) := by
  have hpc : s.1 .rip = start := (hk.pc _).symm.trans hin.there
  have henters := hin.enters rfl
  cases endbr with
  | true =>
    obtain ⟨hexec, hgoes⟩ := henters
    refine ⟨1, Nat.one_pos, hgoes, ?_, fun i hi hlt => by omega, hexec⟩
    show M.pc (M.exec s).1 = start + 4
    rw [hexec, hk.pc]
    simp [endbr64, hpc]
  | false =>
    obtain ⟨hpush, hmov, hgoes, -⟩ := henters
    have hrun : M.run 2 s = movRbpRsp (pushRbp s) := by
      show M.exec (M.exec s) = _
      rw [hpush, hmov]
    refine ⟨2, Nat.two_pos, hgoes, ?_, fun i hi hlt => ?_, hrun⟩
    · rw [hrun, hk.pc]
      simp only [movRbpRsp, pushRbp, Function.update_self, hpc]
      rw [BitVec.add_assoc]
      rfl
    · obtain rfl : i = 1 := by omega
      have hone : M.pc (M.run 1 s).1 = start + 1 := by
        show M.pc (M.exec s).1 = start + 1
        rw [hpush, hk.pc]
        simp [pushRbp, hpc]
      refine ⟨?_, ?_⟩
      · rw [hone]
        bv_omega
      · rw [Traps.Machine.armed, hone]
        exact hin.free rfl rfl

variable (syms) in
/-- At the entry the first frame is printed at `pc + 4`. -/
theorem first_frame_entry (hk : k.Runs M E) (hready : Ready w []) (h : Tracing M w s)
    (hpid : w.pid ≠ 0) (hin : Innermost M E w start endbr .entry name s) (hlive : ¬w.DisabledAt (start + 4)) :
    ∃ w₁, printFrame k syms w (getPc k w.tracee w.pid) w.loadAddress true = .ok (some name, w₁) ∧
      Tracing M w₁ (if endbr then endbr64 s else movRbpRsp (pushRbp s)) ∧ w₁.dwfl = w.dwfl ∧
      shownFunctions w₁.out = shownFunctions w.out ++ [name] := by
  obtain ⟨hstarts, hzero, hshows⟩ := hin.next rfl
  obtain ⟨die, hdie, hlow⟩ := hin.begins
  obtain ⟨n, hpos, hgoes, hthere, hfree, hrun⟩ := hin.run_entry hk
  have hpc : M.pc s.1 = start := hin.there
  obtain ⟨w₁, hleave, h₁, hdwfl, hshown⟩ := h.leaveEntry_arrives syms hk hready hpid hzero hstarts
    hshows.answers hpos hgoes hthere hfree
    fun hreg => by
      by_contra hoff
      exact hlive ⟨hreg, by simpa using hoff⟩
  have henter : enterFrame k syms w die start w.loadAddress = .ok (start + 4, w₁) := by
    unfold enterFrame
    rw [hlow]
    simp only [Option.getD_some, if_true, hleave, ok_bind]
    rw [if_neg fun hsame => by
      have := sub_right_cancel hsame
      bv_omega]
    rfl
  rw [h.getPc_eq hk.toSteps]
  have hnamed := hin.named
  rw [hpc] at hnamed hdie ⊢
  have htotal := hin.total
  rw [hpc] at htotal
  obtain ⟨w₂, hframe, hlooked, hout⟩ := printFrame_first htotal.module hnamed hdie
    henter (by rw [hdwfl]; exact hshows)
  rw [← hrun]
  exact ⟨w₂, hframe, h₁.looked hk.toSteps hlooked, hlooked.dwfl.trans hdwfl,
    hout.trans (by rw [hshown])⟩

/-- With a disabled location at `pc + 4` the tracee is gone, or the first frame fails. -/
theorem not_prints_disabled {names : List String} (hk : k.Runs M E) (hready : Ready w [])
    (h : Tracing M w s) (hpid : w.pid ≠ 0) (hdwarf : syms.hasDwarf = true)
    (hin : Innermost M E w start endbr .entry name s) (hoff : w.DisabledAt (start + 4)) :
    ¬Prints k syms w names := by
  rintro ⟨fuel, w', hok, hact, -⟩
  obtain ⟨hstarts, hzero, -⟩ := hin.next rfl
  obtain ⟨die, hdie, hlow⟩ := hin.begins
  have hpc : M.pc s.1 = start := hin.there
  unfold printBacktrace at hok
  rw [hdwarf, h.getPc_eq hk.toSteps] at hok
  obtain ⟨⟨r, w₁⟩, hframe, hok⟩ := bind_eq_ok.mp hok
  obtain ⟨pc', w₂, henter, hstate⟩ := printFrame_first_state hin.total.module hin.named hdie hframe
  have hidle : w₂.state ≠ .active := by
    unfold enterFrame at henter
    rw [hlow, hpc] at henter
    simp only [Option.getD_some, if_true] at henter
    obtain ⟨⟨pc₃, w₃⟩, hleave, henter⟩ := bind_eq_ok.mp henter
    dsimp only at henter
    split_ifs at henter
    · cases henter
    · cases henter
      exact h.leaveEntry_disabled hk hready hpid hzero hstarts hoff.1 hoff.2 hleave
  refine hidle (hstate.symm.trans ?_)
  rcases r with - | g
  · cases hok
    exact hact
  · have hkeeps : w'.state = w₁.state := (backtraceLoop_extends hok).1
    exact hkeeps.symm.trans hact

/-- The chain from the frame of the caller on. -/
theorem callers_rest (hne : place ≠ .inside)
    (hchain : Callers M w.dwfl load place s (f :: fs)) :
    Called (OnStack M s) (readWord s.2) w.dwfl load (s.1 .rbp) fs := by
  obtain ⟨-, -, -, hrest⟩ := hchain
  cases place with
  | inside => exact absurd rfl hne
  | entry | marked | pushed | popped => exact hrest

/-- After the `push` and the `mov` of the entry `rbp` is the frame of the innermost activation. -/
theorem called_after_prologue (hin : Innermost M E w start false .entry name s)
    (hchain : Callers M w.dwfl load .entry s (f :: fs)) :
    Called (IsData M) (readWord (movRbpRsp (pushRbp s)).2) w.dwfl load
      ((movRbpRsp (pushRbp s)).1 .rbp) (f :: fs) ∧
    returnsFrom (readWord (movRbpRsp (pushRbp s)).2) ((movRbpRsp (pushRbp s)).1 .rbp)
      (f :: fs).length = Place.entry.returns s (f :: fs).length := by
  obtain ⟨-, hslot, hf, hrest⟩ := hchain
  obtain ⟨-, -, -, hdata⟩ := hin.enters rfl
  have hslot : OnStack M s (s.1 .rsp) := hslot
  have hrbp : (movRbpRsp (pushRbp s)).1 .rbp = s.1 .rsp - 8 := by simp [movRbpRsp, pushRbp]
  have hmem : (movRbpRsp (pushRbp s)).2 = writeWord s.2 (s.1 .rsp - 8) (s.1 .rbp) := rfl
  have hsame : ∀ x, OnStack M s x →
      IsData M x ∧ readWord (movRbpRsp (pushRbp s)).2 x = readWord s.2 x := fun x hx =>
    ⟨hx.data, readWord_writeWord_apart _ hx.above⟩
  have hret : s.1 .rsp - 8 + 8 = s.1 .rsp := BitVec.sub_add_cancel ..
  constructor
  · rw [hrbp, Called, hret, (hsame _ hslot).2, hmem, readWord_writeWord, ← hmem]
    exact ⟨⟨hdata, (hsame _ hslot).1⟩, hf, hrest.map hsame⟩
  · rw [hrbp, List.length_cons, returnsFrom, hret, (hsame _ hslot).2]
    refine congrArg₂ List.cons rfl ?_
    rw [hmem, readWord_writeWord, ← hmem]
    exact hrest.returnsFrom_map fun x hx => (hsame x hx).2

/-- At an entry the first frame lets the prologue run, or an `endbr64` alone. -/
theorem prints_iff_entry (hk : k.Runs M E) (hready : Ready w []) (h : Tracing M w s)
    (hpid : w.pid ≠ 0) (hdwarf : syms.hasDwarf = true)
    (hin : Innermost M E w start endbr .entry name s)
    (hchain : Callers M w.dwfl w.loadAddress .entry s callers)
    (hmain : UpToMain (name :: callers)) (hoff : ¬w.DisabledAt (start + 4)) :
    Prints k syms w (name :: callers) ↔ (callers = [] ∨ endbr = false) ∧
      ∀ r ∈ Place.entry.returns s callers.length, w.dwfl.Resolves w.loadAddress r := by
  obtain ⟨w₁, hframe, h₁, hdwfl, hshown⟩ := hin.first_frame_entry syms hk hready h hpid hoff
  rcases callers with - | ⟨f, fs⟩
  · exact iff_of_true (prints_main hk.toSteps hdwarf h₁ hdwfl hframe hshown hmain.name_eq)
      ⟨.inl rfl, fun r hr => absurd hr List.not_mem_nil⟩
  cases endbr with
  | true =>
    have hrest := Innermost.callers_rest (by decide) hchain
    have hrbp : (endbr64 s).1 .rbp = s.1 .rbp := by simp [endbr64]
    have hcalled : Called (IsData M) (readWord s.2) w.dwfl w.loadAddress
        ((endbr64 s).1 .rbp) fs := by
      rw [hrbp]
      exact hrest.map fun x hx => ⟨hx.data, rfl⟩
    refine iff_of_false
      (not_prints_of_called hk.toSteps hdwarf h₁ hdwfl hframe hshown hmain hcalled) ?_
    rintro ⟨hnil | hmark, -⟩
    · cases hnil
    · cases hmark
  | false =>
    obtain ⟨hcalled, hreturns⟩ := hin.called_after_prologue hchain
    rw [prints_iff_of_called hk.toSteps hdwarf h₁ hdwfl hframe hshown hmain hcalled, ← hreturns]
    exact (and_iff_right (.inr rfl)).symm

/-- Elsewhere the chain is read as it is. -/
theorem prints_iff_elsewhere (hk : k.Runs M E) (h : Tracing M w s) (hdwarf : syms.hasDwarf = true)
    (hin : Innermost M E w start endbr place name s)
    (hchain : Callers M w.dwfl w.loadAddress place s callers)
    (hmain : UpToMain (name :: callers)) (hentry : place ≠ .entry) :
    Prints k syms w (name :: callers) ↔ (callers = [] ∨ place = .inside) ∧
      ∀ r ∈ place.returns s callers.length, w.dwfl.Resolves w.loadAddress r := by
  obtain ⟨w₁, hframe, h₁, hdwfl, hshown⟩ := hin.first_frame syms hk.toSteps h hentry
  rcases callers with - | ⟨f, fs⟩
  · exact iff_of_true (prints_main hk.toSteps hdwarf h₁ hdwfl hframe hshown hmain.name_eq)
      ⟨.inl rfl, fun r hr => absurd hr List.not_mem_nil⟩
  by_cases hinside : place = .inside
  · subst hinside
    obtain ⟨hbase, hslot, hf, hrest⟩ := hchain
    have hcalled : Called (IsData M) (readWord s.2) w.dwfl w.loadAddress (s.1 .rbp) (f :: fs) :=
      ⟨⟨(hbase rfl).data, hslot.data⟩, hf, hrest.map fun x hx => ⟨hx.data, rfl⟩⟩
    refine (prints_iff_of_called hk.toSteps hdwarf h₁ hdwfl hframe hshown hmain hcalled).trans ?_
    exact (and_iff_right (.inr rfl)).symm
  · have hrest := Innermost.callers_rest hinside hchain
    refine iff_of_false (not_prints_of_called hk.toSteps hdwarf h₁ hdwfl hframe hshown hmain
      (hrest.map fun x hx => ⟨hx.data, rfl⟩)) ?_
    rintro ⟨hnil | hin', -⟩
    · cases hnil
    · exact hinside hin'

end Innermost

variable {start : Addr} {endbr : Bool} {place : Place} {callers : List String}

/-- **backtrace.** For every chain of activations from the stop to `main`, `print_backtrace` prints
exactly their functions, exactly where the stop is in `main`, between the prologue and the epilogue,
or at an entry without an `endbr64`, each caller is found at its return address, and no location is
disabled where it lets the tracee go on to. -/
theorem backtrace_shows_iff (hk : k.Runs M E) (hready : Ready w []) (h : Tracing M w s)
    (hpid : w.pid ≠ 0) (hdwarf : syms.hasDwarf = true)
    (hin : Innermost M E w start endbr place name s)
    (hchain : Callers M w.dwfl w.loadAddress place s callers)
    (hmain : UpToMain (name :: callers)) :
    Prints k syms w (name :: callers) ↔
      (callers = [] ∨ place = .inside ∨ place = .entry ∧ endbr = false) ∧
      (∀ r ∈ place.returns s callers.length, w.dwfl.Resolves w.loadAddress r) ∧
      (place = .entry → ¬w.DisabledAt (start + 4)) := by
  by_cases hentry : place = .entry
  · subst hentry
    by_cases hoff : w.DisabledAt (start + 4)
    · exact iff_of_false (hin.not_prints_disabled hk hready h hpid hdwarf hoff)
        fun hcond => hcond.2.2 rfl hoff
    rw [hin.prints_iff_entry hk hready h hpid hdwarf hchain hmain hoff]
    constructor
    · rintro ⟨hplace, hfound⟩
      exact ⟨hplace.imp_right fun hmark => .inr ⟨rfl, hmark⟩, hfound, fun _ => hoff⟩
    · rintro ⟨hnil | hinside | ⟨-, hmark⟩, hfound, -⟩
      · exact ⟨.inl hnil, hfound⟩
      · cases hinside
      · exact ⟨.inr hmark, hfound⟩
  · rw [hin.prints_iff_elsewhere hk h hdwarf hchain hmain hentry]
    constructor
    · rintro ⟨hplace, hfound⟩
      exact ⟨hplace.imp_right .inl, hfound, fun he => absurd he hentry⟩
    · rintro ⟨hnil | hinside | ⟨he, -⟩, hfound, -⟩
      · exact ⟨.inl hnil, hfound⟩
      · exact ⟨.inr hinside, hfound⟩
      · exact absurd he hentry

/-! ## A function called by main -/

def walkNext (rbp : BitVec 64) (pc : Addr) : Addr × BitVec 64 :=
  if pc = 0x401001 then (0x401010, 0x7000)   -- mov rbp, rsp
  else (0x401010, rbp)                       -- jmp

/-- The stack is as the call and the `push` left it. -/
def walkFlow : Flow where
  text := [0x401001, 0x401010]
  next := walkNext
  memory := writeWord (writeWord (fun _ => 0x90) 0x7000 0x7020) 0x7008 0x401050
  closed rbp pc := by
    unfold walkNext
    split_ifs <;> simp
  no_trap a ha := by
    simp only [List.mem_cons, List.not_mem_nil, or_false] at ha
    rcases ha with rfl | rfl <;> decide

/-- A stop with the stack pointer at the saved `rbp`. -/
def walkRegs (rip rbp : BitVec 64) : Regs := fun r =>
  if r = .rip then rip else if r = .rbp then rbp else if r = .rsp then 0x7000 else 0

def walkWorld (rip rbp : BitVec 64) : World :=
  .stoppedAt (walkRegs rip rbp) walkFlow.memory walkDwfl

section Walk

variable {rip rbp : BitVec 64}

theorem walk_tracing (h : rip ∈ walkFlow.text) :
    Tracing walkFlow.cpu (walkWorld rip rbp) (walkRegs rip rbp, walkFlow.memory) :=
  World.stoppedAt_tracing walkDwfl ⟨fun _ _ => rfl, h⟩

variable (rip rbp) in
theorem walk_onStack (x : Addr) (hdata : ∀ i < 8, x + BitVec.ofNat 64 i ∉ walkFlow.text)
    (habove : ∀ i < 8, ¬x + BitVec.ofNat 64 i - (0x7000 - 8) < 8) :
    OnStack walkFlow.cpu (walkRegs rip rbp, walkFlow.memory) x := ⟨hdata, habove⟩

variable (rip rbp) in
/-- `main` was called by something without a symbol. -/
theorem walk_called : Called (OnStack walkFlow.cpu (walkRegs rip rbp, walkFlow.memory))
    (readWord walkFlow.memory) walkDwfl 0 0x7020 [] :=
  ⟨walk_onStack _ _ _ (by decide) (by decide), by decide +kernel⟩

theorem walk_dieAt : walkDwfl.dieAt 0 0x401001 = some ⟨some "walk", some 0x401000, some 0x401040⟩ ∧
    walkDwfl.dieAt 0 0x401010 = some ⟨some "walk", some 0x401000, some 0x401040⟩ := by
  constructor <;> rfl

theorem walk_innermost {place : Place} (hpc : place.At 0x401000 false rip)
    (hne : place ≠ .entry) (hdie : walkDwfl.dieAt 0 rip =
      some ⟨some "walk", some 0x401000, some 0x401040⟩) :
    Innermost walkFlow.cpu (.never _) (walkWorld rip rbp) 0x401000 false place "walk"
      (walkRegs rip rbp, walkFlow.memory) := by
  have hnamed : walkDwfl.functionAt 0 rip = some "walk" := by
    unfold Dwfl.functionAt
    rw [hdie]
    rfl
  have hlow : some (0x401000 : Addr) = some (0x401000 - 0) := by decide
  exact ⟨hpc, hnamed, ⟨_, hdie, hlow⟩, walkDwfl_total 0 rip, fun h => absurd h hne,
    fun h => absurd h hne, fun h => absurd h hne⟩

theorem walk_upToMain : UpToMain ["walk", "main"] := ⟨["walk"], rfl, by decide⟩

/-- The caller of `walk` is `main`, before the `mov` and after it. -/
theorem walk_callers :
    Callers walkFlow.cpu walkDwfl 0 .pushed (walkRegs 0x401001 0x7020, walkFlow.memory) ["main"] ∧
    Callers walkFlow.cpu walkDwfl 0 .inside (walkRegs 0x401010 0x7000, walkFlow.memory) ["main"]
    := by
  have hlink : readWord walkFlow.memory 0x7000 = 0x7020 := by decide +kernel
  have hmain : walkDwfl.functionAt 0 (readWord walkFlow.memory 0x7008 - 1) = some "main" := by
    decide +kernel
  refine ⟨⟨fun h => absurd h (by decide), walk_onStack _ _ 0x7008 (by decide) (by decide), hmain,
    walk_called _ _⟩, ⟨fun _ => walk_onStack _ _ 0x7000 (by decide) (by decide),
    walk_onStack _ _ 0x7008 (by decide) (by decide), hmain, ?_⟩⟩
  show Called _ _ _ _ (readWord walkFlow.memory 0x7000) []
  rw [hlink]
  exact walk_called _ _

end Walk

/-- Past the prologue. -/
theorem backtrace_shows_iff_inside :
    Prints (.executing walkFlow.cpu) .withLines (walkWorld 0x401010 0x7000) ["walk", "main"] := by
  refine (backtrace_shows_iff walkFlow.runs (World.stoppedAt_ready _ _ _).1
    (walk_tracing (by decide)) (by decide : (1 : Pid) ≠ 0) rfl
    (walk_innermost (by unfold Place.At; decide : Place.At 0x401000 false 0x401010 .inside)
      (by decide) walk_dieAt.2)
    walk_callers.2 walk_upToMain).mpr ⟨.inr (.inl rfl), fun r hr => ?_, fun h => by cases h⟩
  have hret : readWord walkFlow.memory 0x7008 = 0x401050 := by decide +kernel
  obtain rfl : r = 0x401050 := (List.mem_singleton.mp hr).trans hret
  exact ⟨by decide +kernel, (walkDwfl_total 0 0x401050).shown "main" (by decide +kernel)⟩

/-- Between the `push` and the `mov` the caller is left out. -/
theorem backtrace_skips_caller :
    Innermost walkFlow.cpu (.never _) (walkWorld 0x401001 0x7020) 0x401000 false .pushed "walk"
      (walkRegs 0x401001 0x7020, walkFlow.memory) ∧
    Callers walkFlow.cpu walkDwfl 0 .pushed (walkRegs 0x401001 0x7020, walkFlow.memory) ["main"] ∧
    ¬Prints (.executing walkFlow.cpu) .withLines (walkWorld 0x401001 0x7020) ["walk", "main"] := by
  have hin : Innermost walkFlow.cpu (.never _) (walkWorld 0x401001 0x7020) 0x401000 false .pushed
      "walk" (walkRegs 0x401001 0x7020, walkFlow.memory) :=
    walk_innermost rfl (by decide) walk_dieAt.1
  have hruns : (Kernel.executing walkFlow.cpu).Runs walkFlow.cpu (.never _) := walkFlow.runs
  obtain ⟨w₁, hframe, h₁, hdwfl, hshown⟩ := hin.first_frame .withLines hruns.toSteps
    (walk_tracing (by decide)) (by decide)
  exact ⟨hin, walk_callers.1, not_prints_of_called hruns.toSteps rfl h₁ hdwfl hframe hshown
    walk_upToMain ((walk_called 0x401001 0x7020).map fun x hx => ⟨hx.data, rfl⟩)⟩

end Vdbg
