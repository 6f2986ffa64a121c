import Vdbg.Progress

/-!
# Where step lands

`step_in` makes single steps until `get_line_from_pc` says another line than the one it started on.
It takes "no line" for another line, and it asks for the line of the pc of a process that has ended.
-/

namespace Vdbg

open Words FaultRun

variable {k : Kernel} {syms : Symbols} {w w' : World} {M : Cpu} {E : Ends M} {s : Regs × Memory}
  {line n : ℕ} {a : Addr}

/-- The line of an address, 0 where there is none. -/
def World.lineAt (w : World) (a : Addr) : ℕ := ((w.dwfl.getsrc a).map SrcLine.line).getD 0

/-- `step_in` has shown the line the tracee stopped on, another one than `line`, or it has shown none
of a tracee that died. -/
def Landed (k : Kernel) (line : ℕ) (w : World) : Prop :=
  (w.state = .active ∧ ∃ file line',
    w.out.getLast? = some (.source file line' DEFAULT_LINE_CONTEXT) ∧ 1 ≤ line' ∧ line' ≠ line ∧
    line' = w.lineAt (getPc k w.tracee w.pid)) ∨
  (w.state ≠ .active ∧ ∀ file line' context, w.out.getLast? ≠ some (.source file line' context))

/-- The trace of the machine leaves the line after `n` instructions, with no location without a patch
and no end of the program on the way, for a line that there is. -/
structure Leaves (M : Cpu) (E : Ends M) (w : World) (s : Regs × Memory) (line n : ℕ) : Prop where
  on_line : ∀ i < n, w.lineAt (M.pc (M.run i s).1) = line
  busy : ∀ i < n, w.idle (M.pc (M.run i s).1) = false
  goes : ∀ i < n, E.status (M.run i s) = none
  leaves : w.lineAt (M.pc (M.run n s).1) ≠ line
  real : w.lineAt (M.pc (M.run n s).1) ≠ 0

/-- Where libdwfl answers, `get_line_from_pc` returns. -/
theorem getLineFromPc_answers (h : w.dwfl.Answers a) :
    ∃ r, getLineFromPc w a = .ok r ∧ lineOf r = w.lineAt a := by
  unfold getLineFromPc World.lineAt
  rw [h.module]
  rcases hsrc : w.dwfl.getsrc a with - | src
  · exact ⟨none, rfl, rfl⟩
  · obtain ⟨file, hfile⟩ := Option.isSome_iff_exists.mp (h.file src hsrc)
    refine ⟨some (file, src), ?_, rfl⟩
    dsimp only
    rw [hfile]
    rfl

theorem onLine_iff (h : w.dwfl.Answers a) : w.OnLine line a ↔ w.lineAt a = line := by
  obtain ⟨r, hr, hline⟩ := getLineFromPc_answers h
  rw [← hline]
  constructor
  · rintro ⟨r', hr', hline'⟩
    rw [← Except.ok.inj (hr'.symm.trans hr), hline']
  · intro he
    exact ⟨r, hr, he⟩

/-- `step_in` on a line there is. -/
theorem stepIn_eq (hdwarf : syms.hasDwarf = true) (h : w.dwfl.Answers (getPc k w.tracee w.pid))
    (hline : w.lineAt (getPc k w.tracee w.pid) = line) (hpos : 0 < line) :
    ∃ file outdated, ∀ fuel, stepIn k syms fuel w = stepInLoop k syms line fuel w >>= fun r =>
      printSource (printSrcFileOutdatedWarning r.2 outdated) ((r.1.map Prod.fst).getD file)
        (lineOf r.1) DEFAULT_LINE_CONTEXT := by
  unfold World.lineAt at hline
  rcases hsrc : w.dwfl.getsrc (getPc k w.tracee w.pid) with - | src
  · rw [hsrc] at hline
    exact absurd hline hpos.ne
  rw [hsrc] at hline
  change src.line = line at hline
  obtain ⟨file, hfile⟩ := Option.isSome_iff_exists.mp (h.file src hsrc)
  refine ⟨file, src.outdated, fun fuel => ?_⟩
  unfold stepIn getLineFromPc
  rw [h.module, hsrc]
  dsimp only
  rw [hfile, if_neg (by decide)]
  dsimp only [ok_bind]
  rw [if_neg (by omega), hline]
  congr 1
  funext r
  rw [if_pos hdwarf]

theorem printSource_shown {file : String} {line' : ℕ}
    (hok : printSource w file line' DEFAULT_LINE_CONTEXT = .ok w') :
    line' ≠ 0 ∧ w' = w.say (.source file line' DEFAULT_LINE_CONTEXT) := by
  unfold printSource at hok
  split_ifs at hok with hzero
  cases hok
  exact ⟨fun he => hzero (by simp [he]), rfl⟩

/-- What the loop has done when it returns: the tracee has left the line, or has ended on it. -/
def LeftLine (M : Cpu) (E : Ends M) (w : World) (s : Regs × Memory) (line : ℕ)
    (next : Option (String × SrcLine)) (w' : World) : Prop :=
  (∃ n t, w' = w.setTracee t ∧ Tracing M w' (M.run n s) ∧
    (∀ i < n, w.lineAt (M.pc (M.run i s).1) = line ∧ w.idle (M.pc (M.run i s).1) = false ∧
      E.status (M.run i s) = none) ∧
    lineOf next = w.lineAt (M.pc (M.run n s).1) ∧ w.lineAt (M.pc (M.run n s).1) ≠ line) ∨
  (w'.state ≠ .active ∧ ∃ i, E.status (M.run i s) ≠ none)

/-- One instruction more on the line. -/
theorem LeftLine.cons {t : Tracee} {next : Option (String × SrcLine)}
    (hline : w.lineAt (M.pc s.1) = line) (hbusy : w.idle (M.pc s.1) = false)
    (hgoes : E.status s = none) (h : LeftLine M E (w.setTracee t) (M.exec s) line next w') :
    LeftLine M E w s line next w' := by
  rcases h with ⟨n, t', hw', ht', hon, hnext, hleft⟩ | ⟨hidle, i, hi⟩
  · refine .inl ⟨n + 1, t', hw', ht', fun i hi => ?_, hnext, hleft⟩
    cases i with
    | zero => exact ⟨hline, hbusy, hgoes⟩
    | succ i => exact hon i (by omega)
  · exact .inr ⟨hidle, i + 1, hi⟩

/-- After the end of the tracee the debugger is not active again within the loop. -/
theorem Tracing.stepInLoop_ended {next : Option (String × SrcLine)} {fuel : ℕ} {w₁ : World}
    (h : Tracing M w s)
    (hstep : singleStepInstructionWithBreakpointCheck k syms w = .ok w₁)
    (hended : w₁.state = .notActive) (hok : stepInLoop k syms line fuel w₁ = .ok (next, w')) :
    w'.state ≠ .active := by
  obtain ⟨ts, hready⟩ := h.ready
  have hready₁ : Ready w₁ [] := by
    rcases hready.ran (singleStepInstructionWithBreakpointCheck_ran hready.attached hstep) with
      ⟨hq, -⟩ | ⟨-, -, hready₁, -⟩
    · rw [hq.rest] at hended
      exact absurd (h.active.symm.trans hended) (by decide)
    · exact hready₁
  intro hact
  have hact₁ := ((stepInLoop_kept hready₁ hok).table hact).1
  rw [hended] at hact₁
  cases hact₁

/-- The loop that returns, by induction on the turns it was given. -/
theorem Tracing.stepInLoop_returns {next : Option (String × SrcLine)} {fuel : ℕ} (hk : k.Steps M E)
    (h : Tracing M w s) (hknown : ∀ i, (∀ j < i, E.status (M.run j s) = none) →
      w.dwfl.Answers (M.pc (M.run i s).1))
    (hok : stepInLoop k syms line fuel w = .ok (next, w')) : LeftLine M E w s line next w' := by
  induction fuel generalizing w s with
  | zero => cases hok
  | succ fuel ih =>
    have hanswers : w.dwfl.Answers (M.pc s.1) := hknown 0 fun j hj => absurd hj (Nat.not_lt_zero j)
    by_cases hline : w.lineAt (M.pc s.1) = line
    · have honline : w.OnLine line (getPc k w.tracee w.pid) := by
        rw [h.getPc_eq hk]
        exact (onLine_iff hanswers).mpr hline
      rw [stepInLoop_onLine honline] at hok
      obtain ⟨w₁, hstep, hok⟩ := bind_eq_ok.mp hok
      rcases hidle : w.idle (M.pc s.1) with - | -
      · rcases hstatus : E.status s with - | st
        · obtain ⟨t, hstep', h₁⟩ := h.singleStep_goes syms hk hidle hstatus
          obtain rfl := Except.ok.inj (hstep'.symm.trans hstep)
          refine .cons hline hidle hstatus (ih h₁ (fun i hi => hknown (i + 1) fun j hj => ?_) hok)
          cases j with
          | zero => exact hstatus
          | succ j => exact hi j (by omega)
        · have hended := h.singleStep_ends hk hidle hstatus hstep
          refine .inr ⟨h.stepInLoop_ended hstep hended hok, 0, fun he => ?_⟩
          rw [Traps.Machine.run_zero, hstatus] at he
          cases he
      · obtain ⟨ts, hready⟩ := h.ready
        have hstay := hready.singleStep_idle (k := k) syms (by rwa [h.getPc_eq hk])
        obtain rfl := Except.ok.inj (hstay.symm.trans hstep)
        exact ih h hknown hok
    · obtain ⟨r, hr, hrline⟩ := getLineFromPc_answers hanswers
      rw [stepInLoop, h.getPc_eq hk, hr, ok_bind, if_neg (by rw [hrline]; exact hline)] at hok
      cases hok
      exact .inl ⟨0, _, rfl, h, fun i hi => absurd hi (Nat.not_lt_zero i), hrline, hline⟩

/-- A line that there is, is shown. -/
theorem Tracing.landed (hk : k.Steps M E) (h : Tracing M w s) (hleft : w.lineAt (M.pc s.1) ≠ line)
    (hreal : w.lineAt (M.pc s.1) ≠ 0) (file : String) (outdated : Bool) :
    ∃ w', printSource (printSrcFileOutdatedWarning w outdated) file (w.lineAt (M.pc s.1))
      DEFAULT_LINE_CONTEXT = .ok w' ∧ Landed k line w' := by
  refine ⟨_, if_neg (by simpa [DEFAULT_LINE_CONTEXT] using hreal), .inl ⟨?_, file, _, List.getLast?_concat,
    Nat.one_le_iff_ne_zero.mpr hreal, hleft, ?_⟩⟩
  · rw [printSrcFileOutdatedWarning_eq]
    exact h.active
  · rw [← h.getPc_eq hk, printSrcFileOutdatedWarning_eq]
    rfl

/-- Where the trace leaves the line, `step_in` is about to show the line it finds. -/
theorem Tracing.stepIn_leaves (hk : k.Steps M E) (h : Tracing M w s) (hdwarf : syms.hasDwarf = true)
    (hknown : ∀ i ≤ n, w.dwfl.Answers (M.pc (M.run i s).1)) (hpos : 0 < line)
    (hon : ∀ i < n, w.lineAt (M.pc (M.run i s).1) = line ∧ w.idle (M.pc (M.run i s).1) = false ∧
      E.status (M.run i s) = none)
    (hline : w.lineAt (M.pc s.1) = line) (hleft : w.lineAt (M.pc (M.run n s).1) ≠ line) :
    ∃ t file outdated, Tracing M (w.setTracee t) (M.run n s) ∧ stepIn k syms (n + 1) w =
      printSource (printSrcFileOutdatedWarning (w.setTracee t) outdated) file
        (w.lineAt (M.pc (M.run n s).1)) DEFAULT_LINE_CONTEXT := by
  obtain ⟨file, outdated, heq⟩ := stepIn_eq (k := k) hdwarf
    (by rw [h.getPc_eq hk]; exact hknown 0 (Nat.zero_le n)) (by rw [h.getPc_eq hk, hline]) hpos
  obtain ⟨t, ht, hloop⟩ := h.stepInLoop_runs syms hk fun i hi =>
    ⟨(onLine_iff (hknown i hi.le)).mpr (hon i hi).1, (hon i hi).2⟩
  obtain ⟨r, hr, hrline⟩ := getLineFromPc_answers (w := w.setTracee t) (hknown n le_rfl)
  have hstop : stepInLoop k syms line 1 (w.setTracee t) = .ok (r, w.setTracee t) := by
    rw [stepInLoop, ht.getPc_eq hk, hr, ok_bind, if_neg (by rw [hrline]; exact hleft)]
    rfl
  refine ⟨t, (r.map Prod.fst).getD file, outdated, ht, ?_⟩
  rw [heq, hloop, hstop, ok_bind]
  dsimp only
  rw [hrline]
  rfl

/-- Where the trace leaves for an address without a line, `print_source` fails its assertion. -/
theorem Tracing.stepIn_asserts (hk : k.Steps M E) (h : Tracing M w s) (hdwarf : syms.hasDwarf = true)
    (hknown : ∀ i ≤ n, w.dwfl.Answers (M.pc (M.run i s).1)) (hpos : 0 < line)
    (hon : ∀ i < n, w.lineAt (M.pc (M.run i s).1) = line ∧ w.idle (M.pc (M.run i s).1) = false ∧
      E.status (M.run i s) = none)
    (hline : w.lineAt (M.pc s.1) = line) (hleft : w.lineAt (M.pc (M.run n s).1) = 0) :
    faultOf (stepIn k syms (n + 1) w) = some .assertion := by
  obtain ⟨t, file, outdated, -, heq⟩ := h.stepIn_leaves hk hdwarf hknown hpos hon hline
    (by rw [hleft]; exact hpos.ne)
  rw [heq, hleft]
  rfl

/-- Where the trace leaves for a line that there is, `step_in` shows that line. -/
theorem Tracing.stepIn_shows (hk : k.Steps M E) (h : Tracing M w s) (hdwarf : syms.hasDwarf = true)
    (hknown : ∀ i, (∀ j < i, E.status (M.run j s) = none) → w.dwfl.Answers (M.pc (M.run i s).1))
    (hline : w.lineAt (M.pc s.1) = line) (hpos : 0 < line) (hleaves : Leaves M E w s line n) :
    ∃ w', stepIn k syms (n + 1) w = .ok w' ∧ Landed k line w' := by
  obtain ⟨t, file, outdated, ht, heq⟩ := h.stepIn_leaves hk hdwarf
    (fun i hi => hknown i fun j hj => hleaves.goes j (by omega)) hpos
    (fun i hi => ⟨hleaves.on_line i hi, hleaves.busy i hi, hleaves.goes i hi⟩) hline hleaves.leaves
  obtain ⟨w', hshow, hlanded⟩ := ht.landed hk hleaves.leaves hleaves.real file outdated
  exact ⟨w', heq.trans hshow, hlanded⟩

/-- A `step_in` that returns has shown a line. If it has landed, the trace leaves the line. -/
theorem Tracing.stepIn_landed {fuel : ℕ} (hk : k.Steps M E) (h : Tracing M w s)
    (hdwarf : syms.hasDwarf = true)
    (hknown : ∀ i, (∀ j < i, E.status (M.run j s) = none) → w.dwfl.Answers (M.pc (M.run i s).1))
    (hline : w.lineAt (M.pc s.1) = line) (hpos : 0 < line)
    (hok : stepIn k syms fuel w = .ok w') (hlanded : Landed k line w') :
    ∃ n, Leaves M E w s line n := by
  have hanswers : w.dwfl.Answers (M.pc s.1) := hknown 0 fun j hj => absurd hj (Nat.not_lt_zero j)
  obtain ⟨file, outdated, heq⟩ := stepIn_eq (k := k) hdwarf (by rwa [h.getPc_eq hk])
    (by rw [h.getPc_eq hk, hline]) hpos
  rw [heq] at hok
  obtain ⟨⟨next, w₁⟩, hloop, hshow⟩ := bind_eq_ok.mp hok
  obtain ⟨hreal, hw'⟩ := printSource_shown hshow
  have hshown : w'.out.getLast? = some (.source ((next.map Prod.fst).getD file) (lineOf next)
      DEFAULT_LINE_CONTEXT) := by
    rw [hw']
    exact List.getLast?_concat
  rcases hlanded with ⟨hact, -⟩ | ⟨-, hnone⟩
  · rcases h.stepInLoop_returns hk hknown hloop with ⟨n, t, -, -, hon, hnext, hleft⟩ | ⟨hended, -⟩
    · exact ⟨n, fun i hi => (hon i hi).1, fun i hi => (hon i hi).2.1, fun i hi => (hon i hi).2.2,
        hleft, hnext ▸ hreal⟩
    · refine absurd ?_ hended
      rw [hw', printSrcFileOutdatedWarning_eq] at hact
      exact hact
  · exact absurd hshown (hnone _ _ _)

/-- **Where `step` lands.** For every machine that may end, every line map and every trace through
known modules that starts on a line, `step_in` lands exactly where the trace leaves the line for
another line that there is, with no location without a patch and no end of the program on the way. -/
theorem stepIn_lands_iff (hk : k.Steps M E) (h : Tracing M w s) (hdwarf : syms.hasDwarf = true)
    (hknown : ∀ i, (∀ j < i, E.status (M.run j s) = none) → w.dwfl.Answers (M.pc (M.run i s).1))
    (hline : w.lineAt (M.pc s.1) = line) (hpos : 0 < line) :
    (∃ fuel w', stepIn k syms fuel w = .ok w' ∧ Landed k line w') ↔
      ∃ n, Leaves M E w s line n := by
  constructor
  · rintro ⟨fuel, w', hok, hlanded⟩
    exact h.stepIn_landed hk hdwarf hknown hline hpos hok hlanded
  · rintro ⟨n, hleaves⟩
    obtain ⟨w', hok, hlanded⟩ := h.stepIn_shows hk hdwarf hknown hline hpos hleaves
    exact ⟨n + 1, w', hok, hlanded⟩

/-- A stripped executable but for its lines. -/
def Symbols.withLines : Symbols := { Symbols.stripped with hasDwarf := true }

theorem incLoopLines_answers (jump : Option SrcLine) (hfile : ∀ src ∈ jump, src.file.isSome)
    (a : Addr) : (incLoopLines jump).dwfl.Answers a := by
  refine ⟨rfl, fun src hsrc => ?_⟩
  change (if a = 0x401000 then _ else jump) = some src at hsrc
  split_ifs at hsrc
  · cases hsrc
    rfl
  · exact hfile src hsrc

theorem incLoop_steps : (Kernel.executing incLoop).Steps incLoop (.never incLoop) :=
  (Kernel.executing_executes (fun _ => rfl) rfl).steps

/-- A trace from line 3 to line 4. -/
theorem stepIn_lands_iff_incLoop :
    (∃ fuel w', stepIn (.executing incLoop) .withLines fuel (incLoopLines incLine4) = .ok w' ∧
      Landed (.executing incLoop) 3 w') ↔
      ∃ n, Leaves incLoop (.never incLoop) (incLoopLines incLine4) incState 3 n :=
  stepIn_lands_iff incLoop_steps (incLoopLines_tracing _) rfl
    (fun i _ => incLoopLines_answers _ (fun _ he => by cases he; rfl) _) rfl (by decide)

/-- A trace that leaves line 3 for an address without a line, as in a stub of the PLT: `step_in` does
not land, and once it is given two turns it fails the assertion of `print_source`. -/
theorem step_asserts_off_lines :
    (¬∃ fuel w', stepIn (.executing incLoop) .withLines fuel (incLoopLines none) = .ok w' ∧
      Landed (.executing incLoop) 3 w') ∧
    faultOf (stepIn (.executing incLoop) .withLines 2 (incLoopLines none)) = some .assertion := by
  have h := incLoopLines_tracing none
  have hknown : ∀ i, (∀ j < i, (Ends.never incLoop).status (incLoop.run j incState) = none) →
      (incLoopLines none).dwfl.Answers (incLoop.pc (incLoop.run i incState).1) :=
    fun i _ => incLoopLines_answers none (fun _ he => by cases he) _
  constructor
  · rintro ⟨fuel, w', hok, hlanded⟩
    obtain ⟨n, hleaves⟩ := h.stepIn_landed incLoop_steps rfl hknown rfl (by decide) hok hlanded
    rcases n with - | - | n
    · exact hleaves.leaves rfl
    · exact hleaves.real rfl
    · exact absurd (hleaves.on_line 1 (by omega)) (by decide)
  · refine h.stepIn_asserts (n := 1) incLoop_steps rfl (fun i _ => hknown i fun _ _ => rfl)
      (by decide) (fun i hi => ?_) rfl rfl
    obtain rfl := Nat.lt_one_iff.mp hi
    exact ⟨rfl, rfl, rfl⟩

end Vdbg
