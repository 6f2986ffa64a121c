import Vdbg.Frames

/-!
# The loop of a backtrace

`print_backtrace` follows the saved frame pointers and prints the function of each return address,
until that is `main` or none is found. Nothing bounds the chain: the loop ends exactly where one of
these is met (`printCallers_returns_iff`).
-/

namespace Vdbg

open FaultRun Words

section Model

variable (k : Kernel) (syms : Symbols)

/-- The loop of `print_backtrace`, for a number of turns. -/
def backtraceLoop (loadAddress : Addr) : ℕ → World → String → Addr → Addr → Res World
  | 0, w, _, _, _ => .error (.blocked, w)
  | fuel + 1, w, funcName, framePointer, returnAddress => do
    if funcName = "main" then return w
    match ← printFrame k syms w returnAddress loadAddress false with
    | (none, w) => return w
    | (some funcName, w) =>
      let (framePointer, t) := readMemory k w.tracee w.pid framePointer
      let w := w.setTracee t
      let (returnAddress, t) := readMemory k w.tracee w.pid (framePointer + 8)
      backtraceLoop loadAddress fuel (w.setTracee t) funcName framePointer returnAddress

/-- `print_backtrace` after the first frame. -/
def printCallers (loadAddress : Addr) (fuel : ℕ) (w : World) (funcName : String) : Res World :=
  let framePointer := getRegisterValue k w.tracee .rbp w.pid
  let (returnAddress, w) := readReturnAddress k w
  backtraceLoop k syms loadAddress fuel w funcName framePointer returnAddress

/-- `print_backtrace` -/
def printBacktrace (fuel : ℕ) (w : World) : Res World := do
  if !syms.hasDwarf then return w
  match ← printFrame k syms w (getPc k w.tracee w.pid) w.loadAddress true with
  | (none, w) => return w
  | (some funcName, w') => printCallers k syms w.loadAddress fuel w' funcName

end Model

variable {k : Kernel} {syms : Symbols} {w w' w₁ : World} {rd : Addr → BitVec 64} {a load fp : Addr}
  {name f : String} {fuel n : ℕ}

/-! ## One frame -/

/-- The function `get_func_die_from_pc` finds at an address of a module. -/
def Dwfl.dieAt (d : Dwfl) (load a : Addr) : Option FuncDie :=
  (d.addrdie a).bind fun cu => getfuncs d.junkRange (a - load) 1 cu.funcs

/-- Its name. -/
def Dwfl.functionAt (d : Dwfl) (load a : Addr) : Option String := (d.dieAt load a).bind FuncDie.name

/-- The lookups for an address return: its module is known, and in a function it has a line. -/
structure Dwfl.Total (d : Dwfl) (load a : Addr) : Prop where
  module : d.addrmodule a = true
  shown : ∀ f, d.functionAt load a = some f → d.Shows a

theorem getFuncDieFromPc_eq (h : w.dwfl.addrmodule a = true) :
    getFuncDieFromPc w a load = .ok (w.dwfl.dieAt load a) := by
  unfold getFuncDieFromPc Dwfl.dieAt
  rw [h]
  rcases w.dwfl.addrdie a with - | cu <;> rfl

theorem functionAt_eq_none {d : Dwfl} (h : d.functionAt load a = none) :
    ((d.dieAt load a).bind fun die => die.name.map (die, ·)) = none := by
  unfold Dwfl.functionAt at h
  rcases hdie : d.dieAt load a with - | die
  · rfl
  · rw [hdie] at h
    rw [Option.bind_some, show die.name = none from h]
    rfl

theorem functionAt_eq_some {d : Dwfl} (h : d.functionAt load a = some f) : ∃ die,
    d.dieAt load a = some die ∧
      ((d.dieAt load a).bind fun die => die.name.map (die, ·)) = some (die, f) := by
  unfold Dwfl.functionAt at h
  rcases hdie : d.dieAt load a with - | die
  · rw [hdie] at h
    cases h
  · rw [hdie] at h
    refine ⟨die, rfl, ?_⟩
    rw [Option.bind_some, show die.name = some f from h]
    rfl

theorem getLineFromPc_shows (h : w.dwfl.Shows a) : ∃ src file path,
    getLineFromPc w a = .ok (some (file, src)) ∧ relativePath w file src.compDir = .ok path := by
  obtain ⟨src, file, hsrc, hfile, hpath⟩ := h.line
  obtain ⟨path, hpath⟩ := relativePath_ok (w := w) hpath
  refine ⟨src, file, path, ?_, hpath⟩
  unfold getLineFromPc
  rw [h.module, hsrc]
  dsimp only
  rw [hfile]
  rfl

theorem getLineFromPc_eq_some {file : String} {src : SrcLine}
    (h : getLineFromPc w a = .ok (some (file, src))) :
    w.dwfl.getsrc a = some src ∧ src.file = some file := by
  unfold getLineFromPc at h
  split at h
  · cases h
  split at h
  · cases h
  · rename_i src' hsrc
    split at h
    · cases h
    · rename_i file' hfile
      cases h
      exact ⟨hsrc, hfile⟩

/-- Without a function a frame is not printed. -/
theorem printFrame_none (h : w.dwfl.Total load a) (hf : w.dwfl.functionAt load a = none) :
    printFrame k syms w a load false = .ok (none, w.say .noFrame) := by
  unfold printFrame
  rw [getFuncDieFromPc_eq h.module, ok_bind, functionAt_eq_none hf]
  rfl

variable (k syms) in
/-- A frame with a function is printed. -/
theorem printFrame_some (h : w.dwfl.Total load a) (hf : w.dwfl.functionAt load a = some f) :
    ∃ path line, printFrame k syms w a load false = .ok (some f, w.say (.frame a f path line)) := by
  obtain ⟨src, file, path, hline, hpath⟩ := getLineFromPc_shows (h.shown f hf)
  obtain ⟨die, -, hpair⟩ := functionAt_eq_some hf
  refine ⟨path, src.line, ?_⟩
  unfold printFrame
  rw [getFuncDieFromPc_eq h.module, ok_bind, hpair]
  simp only [Bool.false_eq_true, if_false, ok_bind, hline, hpath]
  rfl

/-- The functions of the frames that were printed. -/
def shownFunctions (out : List Report) : List String :=
  out.filterMap fun
    | .frame _ f _ _ => some f
    | _ => none

theorem shownFunctions_append (out out' : List Report) :
    shownFunctions (out ++ out') = shownFunctions out ++ shownFunctions out' :=
  List.filterMap_append

/-- Only the calls made and what was printed are new. -/
def Looked (w w' : World) : Prop :=
  ∃ log out, w' = { w with tracee := { w.tracee with log }, out }

theorem Looked.refl (w : World) : Looked w w := ⟨_, _, rfl⟩

theorem Looked.trans (h : Looked w w₁) (h' : Looked w₁ w') : Looked w w' := by
  obtain ⟨log, out, rfl⟩ := h
  obtain ⟨log', out', rfl⟩ := h'
  exact ⟨log', out', rfl⟩

theorem Looked.dwfl (h : Looked w w') : w'.dwfl = w.dwfl := by
  obtain ⟨log, out, rfl⟩ := h
  rfl

theorem Looked.say (w : World) (r : Report) : Looked w (w.say r) := ⟨_, _, rfl⟩

theorem warning_looked (w : World) (outdated : Bool) :
    Looked w (printSrcFileOutdatedWarning w outdated) ∧
      shownFunctions (printSrcFileOutdatedWarning w outdated).out = shownFunctions w.out := by
  unfold printSrcFileOutdatedWarning
  split_ifs
  · refine ⟨.say w _, ?_⟩
    rw [World.say, shownFunctions_append]
    exact List.append_nil _
  · exact ⟨.refl w, rfl⟩

/-- The part of `print_frame` after the pc of the first frame is settled. -/
theorem printFrame_first {a₁ : Addr} {die : FuncDie}
    (hm : w.dwfl.addrmodule a = true) (hf : w.dwfl.functionAt load a = some f)
    (hdie : w.dwfl.dieAt load a = some die)
    (henter : enterFrame k syms w die a load = .ok (a₁, w₁))
    (hshows : w₁.dwfl.Shows a₁) :
    ∃ w₂, printFrame k syms w a load true = .ok (some f, w₂) ∧ Looked w₁ w₂ ∧
      shownFunctions w₂.out = shownFunctions w₁.out ++ [f] := by
  obtain ⟨die', hdie', hpair⟩ := functionAt_eq_some hf
  obtain rfl := Option.some.inj (hdie.symm.trans hdie')
  obtain ⟨src, file, path, hline, hpath⟩ := getLineFromPc_shows hshows
  obtain ⟨hlooked, hsame⟩ := warning_looked w₁ src.outdated
  refine ⟨(printSrcFileOutdatedWarning w₁ src.outdated).say (.frame a₁ f path src.line), ?_,
    hlooked.trans (.say _ _), ?_⟩
  · unfold printFrame
    rw [getFuncDieFromPc_eq hm, ok_bind, hpair]
    simp only [if_true, henter, ok_bind, hline, hpath]
    rfl
  · rw [World.say, shownFunctions_append, hsame]
    rfl

variable (k syms) in
/-- Past its entry the first frame is printed like the others. -/
theorem printFrame_inside {die : FuncDie} (h : w.dwfl.Total load a)
    (hf : w.dwfl.functionAt load a = some f) (hdie : w.dwfl.dieAt load a = some die)
    (hpast : die.lowpc.getD (w.dwfl.junkRange 0).1 ≠ a - load) :
    ∃ w₁, printFrame k syms w a load true = .ok (some f, w₁) ∧ Looked w w₁ ∧
      shownFunctions w₁.out = shownFunctions w.out ++ [f] := by
  refine printFrame_first h.module hf hdie ?_ (h.shown f hf)
  unfold enterFrame
  simp only [if_neg hpast, ok_bind]
  rfl

/-! ## One turn -/

/-- What reads of the stopped tracee give, whatever calls were made before. -/
def Steady (k : Kernel) (w : World) (rd : Addr → BitVec 64) : Prop :=
  ∀ log a, (Tracee.peekData k { w.tracee with log } w.pid a).1 = rd a

theorem Steady.looked (h : Steady k w rd) (hl : Looked w w') : Steady k w' rd := by
  obtain ⟨log, out, rfl⟩ := hl
  exact fun log' a => h log' a

variable (k) in
theorem readMemory_looked (w : World) (a : Addr) :
    Looked w (w.setTracee (readMemory k w.tracee w.pid a).2) := ⟨_, _, rfl⟩

theorem Steady.read (h : Steady k w rd) (a : Addr) : (readMemory k w.tracee w.pid a).1 = rd a :=
  h w.tracee.log a

/-- The loop ends at `main`. -/
theorem backtraceLoop_main {ra : Addr} :
    backtraceLoop k syms load (fuel + 1) w "main" fp ra = .ok w := rfl

/-- The loop ends where no function is found. -/
theorem backtraceLoop_none {ra : Addr} (hname : name ≠ "main") (ht : w.dwfl.Total load ra)
    (hf : w.dwfl.functionAt load ra = none) :
    backtraceLoop k syms load (fuel + 1) w name fp ra = .ok (w.say .noFrame) := by
  rw [backtraceLoop, if_neg hname]
  simp only [printFrame_none ht hf]
  rfl

variable (syms) in
/-- Otherwise it prints the function and goes on with the next frame. -/
theorem backtraceLoop_some {ra : Addr} (hread : Steady k w rd) (hname : name ≠ "main")
    (ht : w.dwfl.Total load ra) (hf : w.dwfl.functionAt load ra = some f) :
    ∃ w₁ path line, Looked w w₁ ∧ w₁.out = w.out ++ [.frame ra f path line] ∧
      ∀ fuel, backtraceLoop k syms load (fuel + 1) w name fp ra =
        backtraceLoop k syms load fuel w₁ f (rd fp) (rd (rd fp + 8)) := by
  obtain ⟨path, line, hframe⟩ := printFrame_some k syms ht hf
  set w₁ := w.say (.frame ra f path line) with hw₁
  have hlooked : Looked w w₁ := .say w _
  set w₂ := w₁.setTracee (readMemory k w₁.tracee w₁.pid fp).2 with hw₂
  have hlooked₂ : Looked w w₂ := hlooked.trans (readMemory_looked k w₁ fp)
  refine ⟨w₂.setTracee (readMemory k w₂.tracee w₂.pid (rd fp + 8)).2, path, line,
    hlooked₂.trans (readMemory_looked k w₂ _), rfl, fun fuel => ?_⟩
  rw [backtraceLoop, if_neg hname]
  simp only [hframe]
  have hfp : (readMemory k w₁.tracee w₁.pid fp).1 = rd fp := (hread.looked hlooked).read fp
  have hra : (readMemory k w₂.tracee w₂.pid (rd fp + 8)).1 = rd (rd fp + 8) :=
    (hread.looked hlooked₂).read _
  change backtraceLoop k syms load fuel
    (w₂.setTracee (readMemory k w₂.tracee w₂.pid ((readMemory k w₁.tracee w₁.pid fp).1 + 8)).2) f
    (readMemory k w₁.tracee w₁.pid fp).1
    (readMemory k w₂.tracee w₂.pid ((readMemory k w₁.tracee w₁.pid fp).1 + 8)).1 = _
  rw [hfp, hra]

/-! ## The chain -/

/-- The function of the `n`-th return address on the chain of frame pointers from `fp` on. -/
def Dwfl.caller (d : Dwfl) (rd : Addr → BitVec 64) (load fp : Addr) (n : ℕ) : Option String :=
  d.functionAt load (rd (rd^[n] fp + 8))

/-- The chain comes to `main`, or to an address without a function. -/
def Dwfl.ChainEnds (d : Dwfl) (rd : Addr → BitVec 64) (load fp : Addr) : Prop :=
  ∃ n, d.caller rd load fp n = none ∨ d.caller rd load fp n = some "main"

theorem caller_zero {d : Dwfl} : d.caller rd load fp 0 = d.functionAt load (rd (fp + 8)) := rfl

theorem caller_succ {d : Dwfl} : d.caller rd load fp (n + 1) = d.caller rd load (rd fp) n := rfl

/-- The chain from the next frame on. -/
theorem chainEnds_iff {d : Dwfl} : d.ChainEnds rd load fp ↔
    d.caller rd load fp 0 = none ∨ d.caller rd load fp 0 = some "main" ∨
      d.ChainEnds rd load (rd fp) := by
  constructor
  · rintro ⟨n | n, hn⟩
    · exact hn.imp id .inl
    · exact .inr (.inr ⟨n, hn⟩)
  · rintro (h | h | ⟨n, hn⟩)
    · exact ⟨0, .inl h⟩
    · exact ⟨0, .inr h⟩
    · exact ⟨n + 1, hn⟩

/-- A loop that has returned has come to the end of the chain. -/
theorem chainEnds_of_returns (hread : Steady k w rd) (htotal : ∀ a, w.dwfl.Total load a)
    (hok : backtraceLoop k syms load fuel w name fp (rd (fp + 8)) = .ok w') :
    name = "main" ∨ w.dwfl.ChainEnds rd load fp := by
  induction fuel generalizing w name fp with
  | zero => cases hok
  | succ fuel ih =>
    by_cases hname : name = "main"
    · exact .inl hname
    refine .inr (chainEnds_iff.mpr ?_)
    rw [caller_zero]
    rcases hf : w.dwfl.functionAt load (rd (fp + 8)) with - | f
    · exact .inl rfl
    · obtain ⟨w₁, path, line, hlooked, -, hturn⟩ :=
        backtraceLoop_some syms hread hname (htotal _) hf
      rw [hturn] at hok
      have hrest := ih (hread.looked hlooked) (fun a => by rw [hlooked.dwfl]; exact htotal a) hok
      rw [hlooked.dwfl] at hrest
      exact .inr (hrest.imp (congrArg some) id)

variable (syms name) in
/-- The loop returns where the chain ends, by induction on the frames before that. -/
theorem returns_of_chainEnds (hread : Steady k w rd) (htotal : ∀ a, w.dwfl.Total load a)
    (hn : w.dwfl.caller rd load fp n = none ∨ w.dwfl.caller rd load fp n = some "main") :
    ∃ fuel w', backtraceLoop k syms load fuel w name fp (rd (fp + 8)) = .ok w' := by
  induction n generalizing w name fp with
  | zero =>
    by_cases hname : name = "main"
    · exact ⟨1, w, by rw [hname]; exact backtraceLoop_main⟩
    rcases hn with hnone | hmain
    · exact ⟨1, _, backtraceLoop_none hname (htotal _) hnone⟩
    · obtain ⟨w₁, path, line, -, -, hturn⟩ :=
        backtraceLoop_some syms hread hname (htotal _) hmain
      exact ⟨2, w₁, (hturn 1).trans backtraceLoop_main⟩
  | succ n ih =>
    by_cases hname : name = "main"
    · exact ⟨1, w, by rw [hname]; exact backtraceLoop_main⟩
    rcases hf : w.dwfl.functionAt load (rd (fp + 8)) with - | f
    · exact ⟨1, _, backtraceLoop_none hname (htotal _) hf⟩
    · obtain ⟨w₁, path, line, hlooked, -, hturn⟩ :=
        backtraceLoop_some syms hread hname (htotal _) hf
      rw [caller_succ, ← hlooked.dwfl] at hn
      obtain ⟨fuel, w', hok⟩ := ih f (hread.looked hlooked)
        (fun a => by rw [hlooked.dwfl]; exact htotal a) hn
      exact ⟨fuel + 1, w', (hturn fuel).trans hok⟩

/-- Where the lookups return the loop does, or it goes on for as many turns as it is given. -/
theorem backtraceLoop_blocked (hread : Steady k w rd) (htotal : ∀ a, w.dwfl.Total load a)
    (hno : ∀ w', backtraceLoop k syms load fuel w name fp (rd (fp + 8)) ≠ .ok w') :
    ∃ w', backtraceLoop k syms load fuel w name fp (rd (fp + 8)) = .error (.blocked, w') := by
  induction fuel generalizing w name fp with
  | zero => exact ⟨w, rfl⟩
  | succ fuel ih =>
    by_cases hname : name = "main"
    · subst hname
      exact absurd backtraceLoop_main (hno w)
    rcases hf : w.dwfl.functionAt load (rd (fp + 8)) with - | f
    · exact absurd (backtraceLoop_none hname (htotal _) hf) (hno _)
    · obtain ⟨w₁, path, line, hlooked, -, hturn⟩ :=
        backtraceLoop_some syms hread hname (htotal _) hf
      rw [hturn] at hno ⊢
      exact ih (hread.looked hlooked) (fun a => by rw [hlooked.dwfl]; exact htotal a) hno

variable (syms load name) in
/-- What the loop is given when the first frame has been printed. -/
theorem printCallers_eq (hread : Steady k w rd) : ∃ w₁, Looked w w₁ ∧ w₁.out = w.out ∧ ∀ fuel,
    printCallers k syms load fuel w name =
      backtraceLoop k syms load fuel w₁ name (getRegisterValue k w.tracee .rbp w.pid)
        (rd (getRegisterValue k w.tracee .rbp w.pid + 8)) := by
  refine ⟨_, readMemory_looked k w (getRegisterValue k w.tracee .rbp w.pid + 8), rfl,
    fun fuel => ?_⟩
  rw [← hread.read]
  rfl

/-- **backtrace ends.** For every memory of the tracee and every `rbp`, the frames after the first
one come to an end exactly where the chain of frame pointers does, unless the first is `main`. -/
theorem printCallers_returns_iff (hread : Steady k w rd) (htotal : ∀ a, w.dwfl.Total load a) :
    (∃ fuel w', printCallers k syms load fuel w name = .ok w') ↔
      name = "main" ∨ w.dwfl.ChainEnds rd load (getRegisterValue k w.tracee .rbp w.pid) := by
  obtain ⟨w₁, hlooked, -, heq⟩ := printCallers_eq syms load name hread
  have htotal₁ : ∀ a, w₁.dwfl.Total load a := fun a => by rw [hlooked.dwfl]; exact htotal a
  constructor
  · rintro ⟨fuel, w', hok⟩
    rw [heq] at hok
    rw [← hlooked.dwfl]
    exact chainEnds_of_returns (hread.looked hlooked) htotal₁ hok
  · rintro (rfl | ⟨n, hn⟩)
    · exact ⟨1, w₁, (heq 1).trans backtraceLoop_main⟩
    · rw [← hlooked.dwfl] at hn
      obtain ⟨fuel, w', hok⟩ := returns_of_chainEnds syms name
        (hread.looked hlooked) htotal₁ hn
      exact ⟨fuel, w', (heq fuel).trans hok⟩

/-! ## A function that calls itself -/

/-- `walk` and `main`, on one line each. -/
def walkDwfl : Dwfl where
  addrmodule _ := true
  getsrc _ := some ⟨some "walk.c", 7, none, false⟩
  addrdie _ := some ⟨none, [⟨some "walk", some 0x401000, some 0x401040⟩,
    ⟨some "main", some 0x401040, some 0x401060⟩]⟩
  junkRange _ := (0, 0)

theorem walkDwfl_total (load a : Addr) : walkDwfl.Total load a :=
  ⟨rfl, fun _ _ => ⟨rfl, _, "walk.c", rfl, rfl, fun _ h => by cases h⟩⟩

/-- A stop in `walk`, whose frame is linked to `next` and returns to `ret`. -/
def walkStopped (next ret : Addr) : World :=
  .stoppedAt (fun r => if r = .rip then 0x401010 else if r = .rbp then 0x7000 else 0)
    (writeWord (writeWord (fun _ => 0) 0x7000 next) 0x7008 ret) walkDwfl

theorem walkStopped_steady (next ret : Addr) :
    Steady (.scripted (fun _ => 0) []) (walkStopped next ret)
      (readWord (walkStopped next ret).tracee.mem) := fun _ _ => rfl

/-- `walk` was called by `main`. -/
theorem printCallers_returns_iff_main : ∃ fuel w',
    printCallers (.scripted (fun _ => 0) []) .withLines 0 fuel (walkStopped 0x7020 0x401050)
      "walk" = .ok w' :=
  (printCallers_returns_iff (walkStopped_steady _ _) fun a => walkDwfl_total 0 a).mpr
    (.inr ⟨0, .inr (by decide +kernel)⟩)

/-- The frame of `walk` is linked to itself: the backtrace takes all turns it is given. -/
theorem backtrace_cycles : ∃ w₁,
    printFrame (.scripted (fun _ => 0) []) .withLines (walkStopped 0x7000 0x401010) 0x401010 0
      true = .ok (some "walk", w₁) ∧
    ∀ fuel, ∃ w', printBacktrace (.scripted (fun _ => 0) []) .withLines fuel
      (walkStopped 0x7000 0x401010) = .error (.blocked, w') := by
  set w := walkStopped 0x7000 0x401010 with hw
  have hsteady := walkStopped_steady 0x7000 0x401010
  obtain ⟨w₁, hframe, hlooked, -⟩ := printFrame_inside (.scripted (fun _ => 0) []) .withLines
    (w := w) (f := "walk") (walkDwfl_total 0 0x401010) (by decide +kernel) rfl (by decide +kernel)
  obtain ⟨w₂, hlooked₂, -, hcallers⟩ := printCallers_eq .withLines 0 "walk"
    (hsteady.looked hlooked)
  have hdwfl : w₂.dwfl = walkDwfl := by rw [hlooked₂.dwfl, hlooked.dwfl]; rfl
  have hrbp : getRegisterValue (.scripted (fun _ => 0) []) w₁.tracee .rbp w₁.pid = 0x7000 := by
    obtain ⟨log, out, rfl⟩ := hlooked
    rfl
  rw [hrbp] at hcallers
  have htotal : ∀ a, w₂.dwfl.Total 0 a := fun a => by rw [hdwfl]; exact walkDwfl_total 0 a
  have hread := (hsteady.looked hlooked).looked hlooked₂
  have hlink : readWord w.tracee.mem 0x7000 = 0x7000 := by decide +kernel
  have hends : ¬w₂.dwfl.ChainEnds (readWord w.tracee.mem) 0 0x7000 := by
    rintro ⟨n, hn⟩
    rw [hdwfl, Dwfl.caller, Function.iterate_fixed hlink] at hn
    have hwalk : walkDwfl.functionAt 0 (readWord w.tracee.mem (0x7000 + 8)) = some "walk" := by
      decide +kernel
    rw [hwalk] at hn
    rcases hn with hn | hn
    · cases hn
    · exact absurd (Option.some.inj hn) (by decide)
  refine ⟨w₁, hframe, fun fuel => ?_⟩
  have hno : ∀ w', backtraceLoop (.scripted (fun _ => 0) []) .withLines 0 fuel w₂ "walk" 0x7000
      (readWord w.tracee.mem (0x7000 + 8)) ≠ .ok w' :=
    fun w' hok => (chainEnds_of_returns hread htotal hok).elim (by decide) hends
  obtain ⟨w', hblocked⟩ := backtraceLoop_blocked hread htotal hno
  refine ⟨w', ?_⟩
  unfold printBacktrace
  have hbranch : printFrame (.scripted (fun _ => 0) []) .withLines w
      (getPc (.scripted (fun _ => 0) []) w.tracee w.pid) w.loadAddress true =
        .ok (some "walk", w₁) := hframe
  rw [hbranch]
  exact (hcallers fuel).trans hblocked

end Vdbg
