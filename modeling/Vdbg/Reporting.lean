import Vdbg.Continue
import Vdbg.InternalStep

/-!
# Reporting a stop

`handle_sigtrap` takes every `int3` for one of its own: it moves the pc back and looks the location
up behind that, whose absence is an assertion. The source line of a stop goes through
`DWFL_SANITY_CHECK`, which takes a pc outside the modules of the last spawn for a failure of the
library. So a trap is attributed to whom it belongs exactly at a patched location
(`sigtrap_attributed_iff`), and the debugger survives a report exactly where a module is known
(`reporting_returns_iff`).
-/

namespace Vdbg

open FaultRun

variable {k : Kernel} {syms : Symbols}

/-! ## Whose trap it is -/

/-- The pc is moved back exactly at a patched location, and no assertion fails. -/
structure Attributed (k : Kernel) (syms : Symbols) (w : World) (info : SigInfo) : Prop where
  pc : getPc k (worldOf (handleSigtrap k syms w info)).tracee w.pid =
    if w.isPatched (getPc k w.tracee w.pid - 1) then getPc k w.tracee w.pid - 1
    else getPc k w.tracee w.pid
  asserts : faultOf (handleSigtrap k syms w info) ≠ some .assertion

section Traps

variable {w : World} {ts : List Addr} {info : SigInfo} {a : Addr} {n : ℕ}

/-- The source of a line is shown with some context. -/
theorem printSource_asserts {file : String} {line : ℕ} (hline : line ≠ 0) (hn : n ≠ 0) :
    printSource w file line n = .ok (w.say (.source file line n)) :=
  if_neg (by simp [hline, hn])

/-- With some context no assertion fails in `print_source_at_current_pc`. -/
theorem printSourceAtCurrentPc_asserts (hn : n ≠ 0) :
    faultOf (printSourceAtCurrentPc syms w a n) ≠ some .assertion := by
  unfold printSourceAtCurrentPc
  by_cases hdwarf : (!syms.hasDwarf) = true
  · rw [if_pos hdwarf]
    simp [pure, Except.pure]
  rw [if_neg hdwarf]
  unfold getLineFromPc
  by_cases hmodule : (!w.dwfl.addrmodule a) = true
  · rw [if_pos hmodule]
    simp
  rw [if_neg hmodule]
  rcases w.dwfl.getsrc a with - | src
  · simp [pure, Except.pure]
  rcases hfile : src.file with - | file
  · simp [hfile]
  simp only [hfile, ok_bind]
  by_cases hline : src.line = 0
  · rw [if_pos hline]
    simp [pure, Except.pure]
  · rw [if_neg hline, printSource_asserts hline hn]
    simp

theorem getPc_setPc (hpid : w.tracee.pid = w.pid) (hstop : w.tracee.task = .stopped) (a : Addr) :
    getPc k (setPc k w.tracee w.pid a) w.pid = a := by
  have hin : w.tracee.inStop k w.pid = true := by simp [Tracee.inStop, hpid, hstop]
  rw [setPc_eq, if_pos hin]
  unfold getPc getRegisterValue
  rw [if_pos (show Tracee.inStop k { w.tracee with regs := _ } w.pid = true by
    simp [Tracee.inStop, hpid, hstop])]
  exact Function.update_self Reg.rip a w.tracee.regs

variable (k syms) in
/-- The trap of a breakpoint: the pc is moved back whatever follows. -/
theorem handleSigtrap_pc (h : Ready w ts) (hpid : w.tracee.pid = w.pid)
    (hstop : w.tracee.task = .stopped) (hcode : info.code = SI_KERNEL ∨ info.code = TRAP_BRKPT) :
    getPc k (worldOf (handleSigtrap k syms w info)).tracee w.pid =
      getPc k w.tracee w.pid - 1 := by
  have hzero : info.code ≠ 0 := by rcases hcode with hcode | hcode <;> rw [hcode] <;> decide
  set a := getPc k w.tracee w.pid - 1 with ha
  have htells := (printBpHitMessageAtLoc_tells (w := w.setTracee (setPc k w.tracee w.pid a))
    (h.attached.setTracee _) a).bind
    (f := fun w₂ => printSourceAtCurrentPc syms w₂ a DEFAULT_LINE_CONTEXT)
    fun _ _ => printSourceAtCurrentPc_tells
  have hrun : handleSigtrap k syms w info = printBpHitMessageAtLoc
      (w.setTracee (setPc k w.tracee w.pid a)) (mapLookup w.bpLocations a) >>=
      fun w₂ => printSourceAtCurrentPc syms w₂ a DEFAULT_LINE_CONTEXT := by
    unfold handleSigtrap
    rw [if_neg hzero, if_pos hcode]
  rw [hrun]
  exact (congrArg (getPc k · w.pid) htells.tracee).trans (getPc_setPc hpid hstop a)

/-- **A trap is attributed** to the debugger or to the program as it should be exactly when a
patched location is registered where the pc was. -/
theorem sigtrap_attributed_iff (h : Ready w ts) (hpid : w.tracee.pid = w.pid)
    (hstop : w.tracee.task = .stopped) (hcode : info.code = SI_KERNEL ∨ info.code = TRAP_BRKPT) :
    Attributed k syms w info ↔ w.isPatched (getPc k w.tracee w.pid - 1) = true := by
  have hpc := handleSigtrap_pc k syms h hpid hstop hcode
  constructor
  · intro hattributed
    by_contra hno
    have hkeep := hattributed.pc
    rw [hpc, if_neg hno] at hkeep
    exact absurd hkeep (by bv_omega)
  · intro hpatched
    refine ⟨by rw [hpc, if_pos hpatched], ?_⟩
    obtain ⟨p, loc, hp, hloc, hpat, -⟩ := h.attached.toMapped.patched_loc hpatched
    obtain ⟨w₁, hmessage⟩ := printBpHitMessageAtLoc_patched (w := w.setTracee
      (setPc k w.tracee w.pid (getPc k w.tracee w.pid - 1))) ((Quiet.setTracee w _).ready h) hloc
      hpat
    have hzero : info.code ≠ 0 := by rcases hcode with hcode | hcode <;> rw [hcode] <;> decide
    unfold handleSigtrap
    rw [if_neg hzero, if_pos hcode]
    dsimp only
    rw [hp, hmessage, ok_bind]
    exact printSourceAtCurrentPc_asserts (by decide)

end Traps

/-- A stop behind the `int3` at 0x401000. -/
def trapStopped : World :=
  .stoppedAt (fun r => if r = .rip then 0x401001 else 0) (fun _ => 0xcc) Dwfl.empty

/-- The trap of a breakpoint. -/
theorem sigtrap_attributed_iff_breakpoint : ∃ w,
    setBreakpointOfKind (.scripted (fun _ => 0) []) trapStopped .addr 0x401000 = .ok w ∧
    Attributed (.scripted (fun _ => 0) []) .stripped w ⟨SIGTRAP, SI_KERNEL⟩ := by
  obtain ⟨w, hok, hp⟩ := exists_of_any (p := fun w => (w.tracee.pid = w.pid ∧
      w.tracee.task = .stopped) ∧
      w.isPatched (getPc (.scripted (fun _ => 0) []) w.tracee w.pid - 1) = true)
    (x := setBreakpointOfKind (.scripted (fun _ => 0) []) trapStopped .addr 0x401000)
    (by decide +kernel)
  obtain ⟨⟨hpid, hstop⟩, hpatched⟩ := of_decide_eq_true hp
  have hready : Ready trapStopped [] := (World.stoppedAt_ready _ _ _).1
  exact ⟨w, hok, (sigtrap_attributed_iff (setBreakpointOfKind_edited hready hok).ready hpid hstop
    (.inl rfl)).mpr hpatched⟩

/-- The trap of an `int3` of the program: the pc is moved back and an assertion fails. -/
theorem sigtrap_misattributed :
    (trapStopped.isPatched 0x401000 = false ∧
      getPc (.scripted (fun _ => 0) []) trapStopped.tracee trapStopped.pid = 0x401001) ∧
    (faultOf (handleSigtrap (.scripted (fun _ => 0) []) .stripped trapStopped
        ⟨SIGTRAP, SI_KERNEL⟩) = some .assertion ∧
      getPc (.scripted (fun _ => 0) []) (worldOf (handleSigtrap (.scripted (fun _ => 0) [])
        .stripped trapStopped ⟨SIGTRAP, SI_KERNEL⟩)).tracee trapStopped.pid = 0x401000) ∧
    ¬Attributed (.scripted (fun _ => 0) []) .stripped trapStopped ⟨SIGTRAP, SI_KERNEL⟩ := by
  have hfault : faultOf (handleSigtrap (.scripted (fun _ => 0) []) .stripped trapStopped
      ⟨SIGTRAP, SI_KERNEL⟩) = some .assertion := by decide +kernel
  exact ⟨⟨World.stoppedAt_isPatched _ _ _ _, rfl⟩, ⟨hfault, by decide +kernel⟩,
    fun h => h.asserts hfault⟩

/-! ## Whether a report returns -/

/-- `cmd_context`, with what `atoi` reads of its argument. -/
def cmdContext (k : Kernel) (syms : Symbols) (w : World) (context : Option (BitVec 32)) :
    Res World :=
  let linesContext := match context with
    | some n => n.toNat
    | none => DEFAULT_LINE_CONTEXT
  printSourceAtCurrentPc syms w (getPc k w.tracee w.pid) linesContext

/-- The places where a stop is reported: `wait_for_signal`, `stepi` behind its step, and
`context`. -/
inductive Reporting where
  | wait (info : SigInfo)
  | stepi
  | context (lines : Option (BitVec 32))

namespace Reporting

def run (k : Kernel) (syms : Symbols) (w : World) : Reporting → Res World
  | .wait info => dispatchStop k syms w info
  | .stepi => printSourceAtCurrentPc syms w (getPc k w.tracee w.pid) DEFAULT_LINE_CONTEXT
  | .context lines => cmdContext k syms w lines

/-- A stop that is a breakpoint hit, a fault or a single step. -/
def IsStop (k : Kernel) (w : World) : Reporting → Prop
  | .wait info => info.signo = SIGSEGV ∨ info.signo = SIGTRAP ∧ (info.code = TRAP_TRACE ∨
      (info.code = SI_KERNEL ∨ info.code = TRAP_BRKPT) ∧
        w.isPatched (getPc k w.tracee w.pid - 1) = true)
  | .stepi | .context _ => True

/-- Whether a source line is looked up, and for which pc. A single step is only waited for. -/
def looksUp : Reporting → Bool
  | .wait info => info.isHit || info.signo = SIGSEGV
  | .stepi | .context _ => true

def pc (k : Kernel) (w : World) (r : Reporting) : Addr :=
  match r with
  | .wait info => if info.isHit then getPc k w.tracee w.pid - 1 else getPc k w.tracee w.pid
  | .stepi | .context _ => getPc k w.tracee w.pid

/-- The lines of context, on each side. -/
def lines : Reporting → ℕ
  | .context (some n) => n.toNat
  | _ => DEFAULT_LINE_CONTEXT

end Reporting

/-- A line of the source is known for an address. -/
def Dwfl.HasLine (d : Dwfl) (a : Addr) : Prop := ∃ src, d.getsrc a = some src ∧ src.line ≠ 0

/-- A source is told only where it is the one of the address. -/
structure ShowsKnown (d : Dwfl) (a : Addr) (w w' : World) : Prop where
  dwfl : w'.dwfl = w.dwfl
  out : ∃ rs, w'.out = w.out ++ rs ∧ ∀ file line n, Report.source file line n ∈ rs →
    ∃ src, d.getsrc a = some src ∧ src.file = some file ∧ src.line = line ∧ line ≠ 0

section Returning

variable {w w' w₁ : World} {ts : List Addr} {d : Dwfl} {a : Addr} {n : ℕ} {r : Report}

theorem ShowsKnown.refl (d : Dwfl) (a : Addr) (w : World) : ShowsKnown d a w w :=
  ⟨rfl, [], by simp, fun _ _ _ h => absurd h List.not_mem_nil⟩

theorem ShowsKnown.trans (h : ShowsKnown d a w w₁) (h' : ShowsKnown d a w₁ w') :
    ShowsKnown d a w w' := by
  obtain ⟨rs, hout, hrs⟩ := h.out
  obtain ⟨rs', hout', hrs'⟩ := h'.out
  refine ⟨h'.dwfl.trans h.dwfl, rs ++ rs', by rw [hout', hout, List.append_assoc], ?_⟩
  intro file line n hmem
  rcases List.mem_append.mp hmem with hmem | hmem
  · exact hrs file line n hmem
  · exact hrs' file line n hmem

/-- What is no source may be told. -/
theorem ShowsKnown.say (h : ∀ file line n, r ≠ .source file line n) : ShowsKnown d a w (w.say r) :=
  ⟨rfl, [r], rfl, fun file line n hmem => absurd (List.mem_singleton.mp hmem).symm (h file line n)⟩

theorem ShowsKnown.source {src : SrcLine} {file : String} (hsrc : d.getsrc a = some src)
    (hfile : src.file = some file) (hline : src.line ≠ 0) :
    ShowsKnown d a w (w.say (.source file src.line n)) := by
  refine ⟨rfl, _, rfl, fun file' line' n' hmem => ?_⟩
  obtain ⟨rfl, rfl, -⟩ := Report.source.inj (List.mem_singleton.mp hmem)
  exact ⟨src, hsrc, hfile, rfl, hline⟩

theorem printBpHitMessageAtLoc_shows {p : Option LocPtr}
    (hok : printBpHitMessageAtLoc w p = .ok w') : ShowsKnown d a w w' := by
  unfold printBpHitMessageAtLoc at hok
  rcases p with - | p
  · cases hok
  obtain ⟨loc, -, hok⟩ := bind_eq_ok.mp hok
  split_ifs at hok
  · cases hok
    exact .refl d a w
  obtain ⟨⟨got, sym, line⟩, -, hok⟩ := bind_eq_ok.mp hok
  rcases got with - | ⟨b, bp⟩
  · cases hok
  · cases hok
    exact .say fun _ _ _ he => by cases he

/-- The source that is shown is the one of the address. -/
theorem printSourceAtCurrentPc_shows (hok : printSourceAtCurrentPc syms w a n = .ok w') :
    ShowsKnown w.dwfl a w w' := by
  unfold printSourceAtCurrentPc at hok
  split_ifs at hok
  · cases hok
    exact .refl _ a w
  unfold getLineFromPc at hok
  split_ifs at hok
  · cases hok
  rcases hsrc : w.dwfl.getsrc a with - | src
  · rw [hsrc] at hok
    cases hok
    exact .refl _ a w
  rcases hfile : src.file with - | file
  · simp only [hsrc, hfile] at hok
    cases hok
  simp only [hsrc, hfile, ok_bind] at hok
  split_ifs at hok with hline
  · cases hok
    exact .refl _ a w
  unfold printSource at hok
  split_ifs at hok
  cases hok
  refine ShowsKnown.trans ?_ (.source hsrc hfile hline)
  unfold printSrcFileOutdatedWarning
  split_ifs
  · exact .say fun _ _ _ he => by cases he
  · exact .refl _ a w

/-- The source line of an address can be shown exactly where its module is known; without any
context that takes an address that has no line. -/
theorem printSourceAtCurrentPc_returns_iff (hdwarf : syms.hasDwarf = true)
    (hlines : ∀ src, w.dwfl.getsrc a = some src → src.file.isSome) :
    (∃ w', printSourceAtCurrentPc syms w a n = .ok w') ↔
      w.dwfl.addrmodule a = true ∧ (n ≠ 0 ∨ ¬w.dwfl.HasLine a) := by
  unfold printSourceAtCurrentPc
  rw [if_neg (by simp [hdwarf])]
  unfold getLineFromPc
  by_cases hmodule : w.dwfl.addrmodule a = true
  swap
  · rw [if_pos (by simpa using hmodule), error_bind]
    exact iff_of_false (fun ⟨w', hok⟩ => by cases hok) fun h => hmodule h.1
  rw [if_neg (by simp [hmodule]), and_iff_right hmodule]
  rcases hsrc : w.dwfl.getsrc a with - | src
  · refine iff_of_true ⟨w, rfl⟩ (.inr ?_)
    rintro ⟨src, hsome, -⟩
    rw [hsrc] at hsome
    cases hsome
  obtain ⟨file, hfile⟩ := Option.isSome_iff_exists.mp (hlines src hsrc)
  simp only [hfile, ok_bind]
  by_cases hline : src.line = 0
  · rw [if_pos hline]
    refine iff_of_true ⟨w, rfl⟩ (.inr ?_)
    rintro ⟨src', hsome, hne⟩
    rw [Option.some.inj (hsome.symm.trans hsrc)] at hne
    exact hne hline
  rw [if_neg hline]
  have hknown : w.dwfl.HasLine a := ⟨src, hsrc, hline⟩
  by_cases hn : n = 0
  · have hfault : ∀ w₁, printSource w₁ file src.line n = .error (.assertion, w₁) := fun w₁ =>
      if_pos (by simp [hn])
    rw [hfault]
    exact iff_of_false (fun ⟨w', hok⟩ => by cases hok) fun h =>
      h.elim (fun h => h hn) fun h => h hknown
  · exact iff_of_true ⟨_, printSource_asserts hline hn⟩ (.inl hn)

/-- The report comes back to the prompt, and shows no source but the one of the pc. -/
def Reporting.Returns (k : Kernel) (syms : Symbols) (w : World) (r : Reporting) : Prop :=
  ∃ w', r.run k syms w = .ok w' ∧ ShowsKnown w.dwfl (r.pc k w) w w'

/-- The module of the pc is known where its line is looked up, and a line that is known is asked for
with some context. -/
def Reporting.Known (k : Kernel) (w : World) (r : Reporting) : Prop :=
  r.looksUp = true → w.dwfl.addrmodule (r.pc k w) = true ∧
    (r.lines ≠ 0 ∨ ¬w.dwfl.HasLine (r.pc k w))

theorem known_iff {rep : Reporting} (hlooks : rep.looksUp = true) : rep.Known k w ↔
    w.dwfl.addrmodule (rep.pc k w) = true ∧ (rep.lines ≠ 0 ∨ ¬w.dwfl.HasLine (rep.pc k w)) :=
  forall_prop_of_true hlooks

/-- A report that shows no more than it should returns where its call does. -/
theorem returns_iff_ok {rep : Reporting}
    (hshows : ∀ w', rep.run k syms w = .ok w' → ShowsKnown w.dwfl (rep.pc k w) w w') :
    rep.Returns k syms w ↔ ∃ w', rep.run k syms w = .ok w' :=
  exists_congr fun w' => and_iff_left_of_imp (hshows w')

/-- A single step is waited for without a word. -/
theorem returns_step {info : SigInfo} (htrap : info.signo = SIGTRAP)
    (hcode : info.code = TRAP_TRACE) :
    Reporting.Returns k syms w (.wait info) ↔ Reporting.Known k w (.wait info) := by
  have hhit : info.isHit = false := by
    simp [SigInfo.isHit, hcode, TRAP_TRACE, SI_KERNEL, TRAP_BRKPT]
  refine iff_of_true ⟨w, ?_, .refl _ _ _⟩ fun hlooks => ?_
  · show dispatchStop k syms w info = .ok w
    unfold dispatchStop handleSigtrap
    rw [if_pos htrap, if_neg (by rw [hcode]; decide), if_neg (by rw [hcode]; decide), if_pos hcode]
  · rw [Reporting.looksUp, hhit, htrap] at hlooks
    exact absurd hlooks (by decide)

theorem returns_fault (hdwarf : syms.hasDwarf = true)
    (hlines : ∀ a src, w.dwfl.getsrc a = some src → src.file.isSome) {info : SigInfo}
    (hsegv : info.signo = SIGSEGV) :
    Reporting.Returns k syms w (.wait info) ↔ Reporting.Known k w (.wait info) := by
  have hhit : info.isHit = false := SigInfo.isHit_of_not_trap (by rw [hsegv]; decide)
  have hpc : Reporting.pc k w (.wait info) = getPc k w.tracee w.pid := by
    simp [Reporting.pc, hhit]
  have hlooks : (Reporting.wait info).looksUp = true := by simp [Reporting.looksUp, hsegv]
  have hrun : (Reporting.wait info).run k syms w = printSourceAtCurrentPc syms
      (w.say (.segfault info.code)) (getPc k w.tracee w.pid) 3 >>=
        fun w₁ => .ok { w₁ with pendingSignal := info.signo } := by
    show dispatchStop k syms w info = _
    unfold dispatchStop
    rw [if_neg (by rw [hsegv]; decide), if_pos hsegv]
    rfl
  rw [returns_iff_ok fun w' hok => ?_]
  · rw [known_iff hlooks, hpc, hrun]
    refine Iff.trans ?_ (printSourceAtCurrentPc_returns_iff (n := 3) hdwarf
      (w := w.say (.segfault info.code)) fun src => hlines _ src)
    constructor
    · rintro ⟨w', hok⟩
      obtain ⟨w₁, hprint, -⟩ := bind_eq_ok.mp hok
      exact ⟨w₁, hprint⟩
    · rintro ⟨w₁, hprint⟩
      exact ⟨_, by rw [hprint, ok_bind]⟩
  · rw [hrun] at hok
    obtain ⟨w₁, hprint, hok⟩ := bind_eq_ok.mp hok
    cases hok
    have hshows := printSourceAtCurrentPc_shows hprint
    have hsay : ShowsKnown w.dwfl (getPc k w.tracee w.pid) w (w.say (.segfault info.code)) :=
      .say fun _ _ _ he => by cases he
    rw [hpc]
    exact hsay.trans ⟨hshows.dwfl, hshows.out⟩

theorem returns_hit (hdwarf : syms.hasDwarf = true) (h : Ready w ts)
    (hlines : ∀ a src, w.dwfl.getsrc a = some src → src.file.isSome) {info : SigInfo}
    (htrap : info.signo = SIGTRAP) (hcode : info.code = SI_KERNEL ∨ info.code = TRAP_BRKPT)
    (hpatched : w.isPatched (getPc k w.tracee w.pid - 1) = true) :
    Reporting.Returns k syms w (.wait info) ↔ Reporting.Known k w (.wait info) := by
  have hzero : info.code ≠ 0 := by rcases hcode with hcode | hcode <;> rw [hcode] <;> decide
  have hhit : info.isHit = true := by simp [SigInfo.isHit, htrap, hzero, hcode]
  set a := getPc k w.tracee w.pid - 1 with ha
  have hpc : Reporting.pc k w (.wait info) = a := by simp [Reporting.pc, hhit, ha]
  have hlooks : (Reporting.wait info).looksUp = true := by simp [Reporting.looksUp, hhit]
  obtain ⟨p, loc, hp, hloc, hpat, -⟩ := h.attached.toMapped.patched_loc hpatched
  obtain ⟨w₁, hmessage⟩ := printBpHitMessageAtLoc_patched
    (w := w.setTracee (setPc k w.tracee w.pid a)) ((Quiet.setTracee w _).ready h) hloc hpat
  have hsaid : ShowsKnown w.dwfl a (w.setTracee (setPc k w.tracee w.pid a)) w₁ :=
    printBpHitMessageAtLoc_shows hmessage
  have hdwfl : w₁.dwfl = w.dwfl := hsaid.dwfl
  have hrun : (Reporting.wait info).run k syms w =
      printSourceAtCurrentPc syms w₁ a DEFAULT_LINE_CONTEXT := by
    show dispatchStop k syms w info = _
    unfold dispatchStop handleSigtrap
    rw [if_pos htrap, if_neg hzero, if_pos hcode]
    dsimp only
    rw [← ha, hp, hmessage, ok_bind]
  rw [returns_iff_ok fun w' hok => ?_]
  · rw [known_iff hlooks, hpc, hrun, ← hdwfl]
    exact printSourceAtCurrentPc_returns_iff hdwarf fun src hsrc => hlines a src (hdwfl ▸ hsrc)
  · rw [hrun] at hok
    have hshows := printSourceAtCurrentPc_shows hok
    rw [hpc]
    rw [hdwfl] at hshows
    have hmoved : ShowsKnown w.dwfl a w w₁ := ⟨hsaid.dwfl, hsaid.out⟩
    exact hmoved.trans hshows

/-- **A report returns** to the prompt exactly where the module of the pc is known (and `context` is
not asked for no lines). -/
theorem reporting_returns_iff (hdwarf : syms.hasDwarf = true) (h : Ready w ts)
    (hlines : ∀ a src, w.dwfl.getsrc a = some src → src.file.isSome) (rep : Reporting)
    (hstop : rep.IsStop k w) : rep.Returns k syms w ↔ rep.Known k w := by
  have hprints : ∀ n,
      (∃ w', printSourceAtCurrentPc syms w (getPc k w.tracee w.pid) n = .ok w') ↔ _ :=
    fun n => printSourceAtCurrentPc_returns_iff hdwarf fun src => hlines _ src
  cases rep with
  | wait info =>
    rcases hstop with hsegv | ⟨htrap, hcode | ⟨hcode, hpatched⟩⟩
    · exact returns_fault hdwarf hlines hsegv
    · exact returns_step htrap hcode
    · exact returns_hit hdwarf h hlines htrap hcode hpatched
  | stepi =>
    have hshows : ∀ w', Reporting.stepi.run k syms w = .ok w' →
        ShowsKnown w.dwfl (Reporting.stepi.pc k w) w w' :=
      fun _ hok => printSourceAtCurrentPc_shows hok
    rw [returns_iff_ok hshows, known_iff rfl]
    exact hprints _
  | context context =>
    have hshows : ∀ w', (Reporting.context context).run k syms w = .ok w' →
        ShowsKnown w.dwfl ((Reporting.context context).pc k w) w w' :=
      fun _ hok => printSourceAtCurrentPc_shows hok
    rw [returns_iff_ok hshows, known_iff rfl]
    cases context with
    | none => exact hprints _
    | some n => exact hprints _

end Returning

/-- `stepi` reports the stop its step ends in. -/
theorem cmdStepi_eq (w : World) : cmdStepi k syms w =
    singleStepInstructionWithBreakpointCheck k syms w >>= fun w₁ =>
      Reporting.stepi.run k syms w₁ := rfl

/-! ## A fault outside of the modules -/

/-- A stop at an address of the executable, of which a line is known, and at the address 0. -/
def faultStopped (pc : Addr) : World :=
  .stoppedAt (fun r => if r = .rip then pc else 0) (fun _ => 0x90)
    { Dwfl.empty with
      addrmodule := fun a => a = 0x401000, getsrc := fun _ => some ⟨some "main.c", 3, none, false⟩ }

theorem reporting_returns_iff_inside :
    (Reporting.wait ⟨SIGSEGV, 1⟩).Returns (.scripted (fun _ => 0) [])
      { Symbols.stripped with hasDwarf := true } (faultStopped 0x401000) := by
  have hstop : (Reporting.wait ⟨SIGSEGV, 1⟩).IsStop (.scripted (fun _ => 0) [])
      (faultStopped 0x401000) := .inl rfl
  refine (reporting_returns_iff rfl (World.stoppedAt_ready _ _ _).1 (fun a src hsrc => ?_) _
    hstop).mpr fun _ => ⟨by decide, .inl (by decide)⟩
  obtain rfl := Option.some.inj hsrc
  rfl

/-- A call through a null pointer. -/
theorem reporting_aborts :
    faultOf (dispatchStop (.scripted (fun _ => 0) []) { Symbols.stripped with hasDwarf := true }
      (faultStopped 0) ⟨SIGSEGV, 1⟩) = some .critical ∧
    ¬(Reporting.wait ⟨SIGSEGV, 1⟩).Returns (.scripted (fun _ => 0) [])
      { Symbols.stripped with hasDwarf := true } (faultStopped 0) := by
  have hfault : faultOf (dispatchStop (.scripted (fun _ => 0) [])
      { Symbols.stripped with hasDwarf := true } (faultStopped 0) ⟨SIGSEGV, 1⟩) =
        some .critical := by
    decide +kernel
  refine ⟨hfault, fun ⟨w', hok, _⟩ => ?_⟩
  have hret : faultOf (dispatchStop (.scripted (fun _ => 0) [])
      { Symbols.stripped with hasDwarf := true } (faultStopped 0) ⟨SIGSEGV, 1⟩) = none :=
    congrArg faultOf hok
  rw [hfault] at hret
  cases hret

end Vdbg
