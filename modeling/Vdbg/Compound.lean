import Vdbg.Planting
import Vdbg.Presence

/-!
# Commands that run the tracee in between

`finish`, `next` and the first frame of `backtrace` plant temporary locations, continue, and delete
what they planted. Where the tracee died in between, its locations are gone and the deletion fails
an assertion: the command survives only if it planted nothing. The frame also asserts where the
tracee stopped.
-/

namespace Vdbg

open FaultRun

variable {k : Kernel} {syms : Symbols} {w w' w₁ w₂ : World} {ts : List Addr} {a : Addr}

/-- A command returns after `continue_execution` came back with `w₂`, and if the tracee is dead it
leaves an idle debugger without locations. -/
def Survives (w₂ : World) (r : Res World) : Prop :=
  ∃ w', r = .ok w' ∧ (w₂.state ≠ .active → w'.state = .notActive ∧ w'.bpLocations = none)

/-- The temporary locations are there after a run, as the tracee is. -/
theorem Veiled.there (h : Veiled w w₁ ts) (hcont : continueExecution k syms w₁ = .ok w₂)
    (hact : w₂.state = .active) : Veiled w w₂ ts := by
  rcases h.ready.ran (continueExecution_ran h.ready.attached hcont) with
    ⟨hq, -⟩ | ⟨-, hstate, -⟩
  · exact h.quiet hq
  · rw [hstate] at hact
    cases hact

/-- The deletion of what was planted survives exactly where the tracee is there or nothing was. -/
theorem Veiled.survives_iff (h : Veiled w w₁ ts) (hcont : continueExecution k syms w₁ = .ok w₂) :
    Survives w₂ (ts.foldlM (unsetTempBpLocation k) w₂) ↔ w₂.state = .active ∨ ts = [] := by
  rcases h.ready.ran (continueExecution_ran h.ready.attached hcont) with
    ⟨hq, -⟩ | ⟨-, hstate, hready, -⟩
  · have hact : w₁.state = .active := by
      unfold continueExecution at hcont
      by_contra hne
      rw [if_pos hne] at hcont
      cases hcont
    have hact₂ : w₂.state = .active := by
      rw [hq.rest]
      exact hact
    obtain ⟨w', hok⟩ := (h.quiet hq).unplant_returns (k := k) hact₂
    exact iff_of_true ⟨w', hok, fun hne => absurd hact₂ hne⟩ (.inl hact₂)
  · have hidle : w₂.state ≠ .active := by
      rw [hstate]
      decide
    constructor
    · rintro ⟨w', hok, -⟩
      cases ts with
      | nil => exact .inr rfl
      | cons a ts =>
        obtain ⟨w₃, h1, -⟩ := foldlM_cons_eq_ok.mp hok
        exact absurd h1 (unsetTempBpLocation_inactive hidle)
    · intro hcond
      obtain rfl := hcond.resolve_left hidle
      exact ⟨w₂, rfl, fun _ => ⟨hstate, hready.inactive_none hidle⟩⟩

/-- The rest of a command that has planted locations at `ts`. -/
def runPlanted (k : Kernel) (syms : Symbols) (w : World) (ts : List Addr) : Res World := do
  let w ← continueExecution k syms w
  ts.foldlM (unsetTempBpLocation k) w

theorem runPlanted_eq (hcont : continueExecution k syms w = .ok w') :
    runPlanted k syms w ts = ts.foldlM (unsetTempBpLocation k) w' := by
  unfold runPlanted
  rw [hcont, ok_bind]

/-- `finish` after it has asked for its location. -/
theorem stepOut_eq {planted : Bool}
    (hplant : setTempBpLocation k (readReturnAddress k w).2 (readReturnAddress k w).1 =
      .ok (planted, w₁)) :
    stepOut k syms w =
      runPlanted k syms w₁ (if planted then [(readReturnAddress k w).1] else []) := by
  unfold stepOut runPlanted
  dsimp only
  rw [hplant, ok_bind]
  dsimp only
  congr 1
  funext w₂
  cases planted with
  | true => exact (bind_pure _).symm
  | false => rfl

/-- `next` after it has planted its locations. -/
theorem stepOver_eq {die : FuncDie} {name : String} {d : ToDelete}
    (hdie : getFuncDieFromPc w (getPc k w.tracee w.pid) w.loadAddress = .ok (some die))
    (hname : die.name = some name)
    (hplant : plantTempLocations k w die name (getPc k w.tracee w.pid) = .ok (d, w₁)) :
    stepOver k syms w = runPlanted k syms w₁ d.addrs := by
  unfold stepOver
  dsimp only
  rw [hdie, ok_bind, Option.bind_some, hname]
  dsimp only [Option.map_some]
  rw [hplant, ok_bind]
  rfl

/-- `finish` survives exactly where the tracee does or the return address had a location. -/
theorem stepOut_survives_iff {planted : Bool} (h : Ready w [])
    (hplant : setTempBpLocation k (readReturnAddress k w).2 (readReturnAddress k w).1 =
      .ok (planted, w₁)) (hcont : continueExecution k syms w₁ = .ok w₂) :
    Survives w₂ (stepOut k syms w) ↔ w₂.state = .active ∨
      (mapLookup w.bpLocations (readReturnAddress k w).1).isSome := by
  have hquiet := (Veiled.refl h).quiet (readReturnAddress_quiet (k := k) w)
  have hplanted := setTempBpLocation_planted hquiet.ready hplant
  have hiff := (hquiet.plant hplant).survives_iff hcont
  rw [List.nil_append] at hiff
  rw [stepOut_eq hplant, runPlanted_eq hcont, hiff]
  refine or_congr Iff.rfl ?_
  cases planted with
  | true =>
    refine iff_of_false (by simp) fun hsome => ?_
    rw [← Option.not_isNone, show (mapLookup w.bpLocations _).isNone = true from hplanted.symm] at hsome
    cases hsome
  | false =>
    refine iff_of_true rfl ?_
    rw [← Option.not_isNone, show (mapLookup w.bpLocations _).isNone = false from hplanted.symm]
    rfl

/-- `next` survives exactly where the tracee does or every address it plants had a location. -/
theorem stepOver_survives_iff {die : FuncDie} {name : String} {d d₁ : ToDelete} {w₀ : World}
    (h : Ready w [])
    (hdie : getFuncDieFromPc w (getPc k w.tracee w.pid) w.loadAddress = .ok (some die))
    (hname : die.name = some name)
    (hlines : (nextLines w die (getPc k w.tracee w.pid)).foldlM (plantAt k) (⟨100, []⟩, w) =
      .ok (d₁, w₀))
    (hplant : plantTempLocations k w die name (getPc k w.tracee w.pid) = .ok (d, w₁))
    (hcont : continueExecution k syms w₁ = .ok w₂) :
    Survives w₂ (stepOver k syms w) ↔ w₂.state = .active ∨
      w.Registers (nextLines w die (getPc k w.tracee w.pid)) ∧
        (name = "main" ∨ (mapLookup w.bpLocations (readReturnAddress k w₀).1).isSome) := by
  rw [stepOver_eq hdie hname hplant, runPlanted_eq hcont,
    (plantTempLocations_veiled h hplant).survives_iff hcont,
    plantTempLocations_nothing_iff h hplant hlines]

/-! ## The first frame of a backtrace -/

/-- libdwfl has a source line with a file for the address, and the file is not the directory it was
compiled in. -/
structure Dwfl.Shows (d : Dwfl) (a : Addr) : Prop where
  module : d.addrmodule a = true
  line : ∃ src file, d.getsrc a = some src ∧ src.file = some file ∧
    ∀ dir, src.compDir = some dir → skipCommon file.toList dir.toList ≠ none

theorem relativePath_ok {file : String} {dir : Option String}
    (h : ∀ d, dir = some d → skipCommon file.toList d.toList ≠ none) :
    ∃ path, relativePath w file dir = .ok path := by
  unfold relativePath
  rcases dir with - | dir
  · exact ⟨file, rfl⟩
  dsimp only
  split
  · rename_i hskip
    exact absurd hskip (h dir rfl)
  · exact ⟨_, rfl⟩
  · exact ⟨_, rfl⟩

/-- A path that was made relative ends before its common part with the directory does. -/
theorem relativePath_common {file path : String} {dir : Option String} {d : String}
    (hok : relativePath w file dir = .ok path) (hdir : dir = some d) :
    skipCommon file.toList d.toList ≠ none := by
  subst hdir
  intro hskip
  unfold relativePath at hok
  dsimp only at hok
  rw [hskip] at hok
  cases hok

/-- A deletion keeps the process in its stop, and the view of libdwfl. -/
theorem unsetTempBpLocation_stop (h : Ready w (a :: ts))
    (hok : unsetTempBpLocation k w a = .ok w') :
    w'.dwfl = w.dwfl ∧ w'.pid = w.pid ∧ w'.state = w.state ∧ w'.tracee.pid = w.tracee.pid ∧
      w'.tracee.task = w.tracee.task ∧ w'.tracee.regs = w.tracee.regs := by
  have hlife := unsetTemp_life hok
  obtain ⟨p, hp⟩ := Option.isSome_iff_exists.mp (h.planted.there a List.mem_cons_self)
  obtain ⟨loc, hloc, hrun⟩ := h.attached.stored a p hp
  obtain ⟨ht, hdel, -⟩ := deleteLocation_eq (k := k) h.attached hloc
  rw [hrun] at hdel
  unfold unsetTempBpLocation at hok
  by_cases hact : w.state = .active
  swap
  · rw [if_pos hact] at hok
    cases hok
  rw [if_neg (not_not.mpr hact), hp] at hok
  obtain rfl := Except.ok.inj (hdel.symm.trans hok)
  refine ⟨rfl, rfl, rfl, congrArg Life.process hlife, congrArg Life.task hlife, ?_⟩
  exact disarm_regs k w.tracee loc

theorem printFrame_of_enter_error {die : FuncDie} {name : String} {pc load : Addr}
    {e : Fault × World} (hdie : getFuncDieFromPc w pc load = .ok (some die))
    (hname : die.name = some name) (henter : enterFrame k syms w die pc load = .error e) :
    printFrame k syms w pc load true = .error e := by
  unfold printFrame
  rw [hdie, ok_bind, Option.bind_some, hname]
  dsimp only [Option.map_some]
  rw [if_pos rfl, henter]
  rfl

/-- A frame whose line is known is shown, and nothing else changes. -/
theorem printFrame_of_enter {die : FuncDie} {name : String} {pc load pc' : Addr} {w₃ : World}
    (hdie : getFuncDieFromPc w pc load = .ok (some die)) (hname : die.name = some name)
    (henter : enterFrame k syms w die pc load = .ok (pc', w₃)) (hshows : w₃.dwfl.Shows pc') :
    ∃ w', printFrame k syms w pc load true = .ok (some name, w') ∧ w'.state = w₃.state ∧
      w'.bpLocations = w₃.bpLocations := by
  obtain ⟨src, file, hsrc, hfile, hpath⟩ := hshows.line
  have hline : getLineFromPc w₃ pc' = .ok (some (file, src)) := by
    unfold getLineFromPc
    rw [hshows.module, hsrc]
    dsimp only
    rw [hfile]
    rfl
  obtain ⟨path, hpath⟩ := relativePath_ok (w := w₃) hpath
  have hall : printFrame k syms w pc load true = .ok (some name,
      (printSrcFileOutdatedWarning w₃ src.outdated).say (.frame pc' name path src.line)) := by
    unfold printFrame
    rw [hdie, ok_bind, Option.bind_some, hname]
    dsimp only [Option.map_some]
    rw [if_pos rfl, henter, ok_bind]
    dsimp only
    rw [hline, ok_bind]
    dsimp only
    rw [hpath, ok_bind]
    rfl
  have hwarn := printSrcFileOutdatedWarning_eq w₃ src.outdated
  refine ⟨_, hall, ?_, ?_⟩
  · show (printSrcFileOutdatedWarning w₃ src.outdated).state = _
    rw [hwarn]
  · show (printSrcFileOutdatedWarning w₃ src.outdated).bpLocations = _
    rw [hwarn]

/-- The step out of the entry is a run and a deletion, and asserts where the tracee stopped. -/
theorem leaveEntry_eq {planted : Bool} {pc : Addr}
    (hplant : setTempBpLocation k w (pc + 4) = .ok (planted, w₁))
    (hcont : continueExecution k syms w₁ = .ok w₂) :
    leaveEntry k syms w pc =
      (if planted then [pc + 4] else []).foldlM (unsetTempBpLocation k) w₂ >>= fun w₃ =>
        if getPc k w₃.tracee w₃.pid ≠ pc + 4 then .error (.assertion, w₃)
        else .ok (getPc k w₃.tracee w₃.pid, w₃) := by
  unfold leaveEntry
  rw [hplant, ok_bind]
  dsimp only
  rw [hcont, ok_bind]
  have hcheck : ∀ w₃ : World, (do
      if getPc k w₃.tracee w₃.pid ≠ pc + 4 then .error (.assertion, w₃)
      return (getPc k w₃.tracee w₃.pid, w₃) : Res (Addr × World)) =
      if getPc k w₃.tracee w₃.pid ≠ pc + 4 then .error (.assertion, w₃)
      else .ok (getPc k w₃.tracee w₃.pid, w₃) := by
    intro w₃
    split_ifs <;> rfl
  cases planted with
  | true =>
    rw [if_pos rfl, if_pos rfl, List.foldlM_cons]
    rcases unsetTempBpLocation k w₂ (pc + 4) with e | w₃
    · rfl
    · exact hcheck w₃
  | false =>
    rw [if_neg Bool.false_ne_true, if_neg Bool.false_ne_true]
    exact hcheck w₂

theorem continueExecution_dwfl (h : Ready w ts) (hok : continueExecution k syms w = .ok w') :
    w'.dwfl = w.dwfl := by
  rcases continueExecution_ran h.attached hok with hq | ⟨w₁, hq, -, rfl⟩
  · rw [hq.rest]
  · show w₁.dwfl = w.dwfl
    rw [hq.rest]

/-- The pc of a tracee in a stop. -/
theorem getPc_stopped (hpid : w.pid = w.tracee.pid) (hstopped : w.tracee.task = .stopped) :
    getPc k w.tracee w.pid = w.tracee.regs .rip := by
  unfold getPc getRegisterValue Tracee.inStop
  rw [hpid, hstopped]
  simp

/-- The first frame survives exactly where the tracee stops at `pc + 4` and is there, or there was a
location. -/
theorem printFrame_survives_iff {planted : Bool} {die : FuncDie} {name : String} {pc load : Addr}
    (h : Ready w []) (hdie : getFuncDieFromPc w pc load = .ok (some die))
    (hname : die.name = some name) (hentry : die.lowpc.getD (w.dwfl.junkRange 0).1 = pc - load)
    (hshows : w.dwfl.Shows (pc + 4)) (hplant : setTempBpLocation k w (pc + 4) = .ok (planted, w₁))
    (hcont : continueExecution k syms w₁ = .ok w₂)
    (hevent : w₂.state = .active → w₂.life.Stopped) :
    Survives w₂ (Prod.snd <$> printFrame k syms w pc load true) ↔
      getPc k w₂.tracee w₂.pid = pc + 4 ∧
        (w₂.state = .active ∨ (mapLookup w.bpLocations (pc + 4)).isSome) := by
  have hveiled := (Veiled.refl h).plant hplant
  have hplanted := setTempBpLocation_planted h hplant
  rw [List.nil_append] at hveiled
  have hiff := hveiled.survives_iff hcont
  have hregistered : (if planted then [pc + 4] else []) = [] ↔
      (mapLookup w.bpLocations (pc + 4)).isSome := by
    rw [← Option.not_isNone, ← hplanted]
    cases planted with
    | true => exact iff_of_false (by simp) (by simp)
    | false => exact iff_of_true rfl rfl
  rw [hregistered] at hiff
  have hleave : leaveEntry k syms w pc = _ := leaveEntry_eq hplant hcont
  rcases hdel : (if planted then [pc + 4] else []).foldlM (unsetTempBpLocation k) w₂ with e | w₃
  · -- the deletion has failed its assertion
    rw [hdel] at hiff hleave
    have henter : enterFrame k syms w die pc load = .error e := by
      unfold enterFrame
      dsimp only
      rw [if_pos hentry, hleave]
      rfl
    refine iff_of_false ?_ fun hcond => ?_
    · rw [printFrame_of_enter_error hdie hname henter]
      rintro ⟨w', hok, -⟩
      cases hok
    · obtain ⟨w', hok, -⟩ := hiff.mpr hcond.2
      cases hok
  · rw [hdel] at hiff hleave
    have hcond : w₂.state = .active ∨ (mapLookup w.bpLocations (pc + 4)).isSome := by
      by_contra hno
      obtain ⟨hidle, hnone⟩ := not_or.mp hno
      rw [← hregistered] at hnone
      cases planted with
      | true =>
        obtain ⟨w₄, h1, -⟩ := foldlM_cons_eq_ok.mp hdel
        exact absurd h1 (unsetTempBpLocation_inactive hidle)
      | false => exact hnone rfl
    have hdead := hiff.mpr hcond
    obtain ⟨w₄, he, hdead⟩ := hdead
    obtain rfl := Except.ok.inj he
    have hsame : getPc k w₃.tracee w₃.pid = getPc k w₂.tracee w₂.pid ∧ w₃.dwfl = w₂.dwfl := by
      cases planted with
      | true =>
        obtain ⟨w₄, h1, h2⟩ := foldlM_cons_eq_ok.mp hdel
        cases h2
        have hact₂ : w₂.state = .active := by
          by_contra hidle
          exact absurd h1 (unsetTempBpLocation_inactive hidle)
        obtain ⟨hdwfl, hpid, -, hprocess, htask, hregs⟩ :=
          unsetTempBpLocation_stop (hveiled.there hcont hact₂).ready h1
        obtain ⟨hcurrent, hstopped⟩ := hevent hact₂
        refine ⟨?_, hdwfl⟩
        rw [getPc_stopped hcurrent hstopped, getPc_stopped ?_ (htask.trans hstopped), hregs]
        rw [hpid, hprocess]
        exact hcurrent
      | false =>
        cases hdel
        exact ⟨rfl, rfl⟩
    have hdwfl : w₃.dwfl = w.dwfl := by
      rw [hsame.2, continueExecution_dwfl hveiled.ready hcont, setTempBpLocation_dwfl hplant]
    rw [and_iff_left hcond, ← hsame.1]
    have hother : die.lowpc.getD (w.dwfl.junkRange 0).1 ≠ pc + 4 - load := by
      rw [hentry]
      intro he
      have := congrArg (· + load) he
      simp at this
    by_cases hpc : getPc k w₃.tracee w₃.pid = pc + 4
    · refine iff_of_true ?_ hpc
      have henter : enterFrame k syms w die pc load = .ok (pc + 4, w₃) := by
        unfold enterFrame
        dsimp only
        rw [if_pos hentry, hleave, ok_bind, if_neg (not_not.mpr hpc), ok_bind, hpc]
        dsimp only
        rw [if_neg hother]
        rfl
      obtain ⟨w', hok, hstate, hmap⟩ := printFrame_of_enter hdie hname henter (hdwfl ▸ hshows)
      refine ⟨w', by rw [hok]; rfl, fun hidle => ?_⟩
      rw [hstate, hmap]
      exact hdead hidle
    · refine iff_of_false ?_ hpc
      have henter : enterFrame k syms w die pc load = .error (.assertion, w₃) := by
        unfold enterFrame
        dsimp only
        rw [if_pos hentry, hleave, ok_bind, if_pos hpc]
        rfl
      rw [printFrame_of_enter_error hdie hname henter]
      rintro ⟨w', hok, -⟩
      cases hok

/-- **Death in the middle of a command.** After their `continue_execution` came back, `finish` and
`next` return exactly where the tracee is there or every address they plant had a location, and the
first frame of `backtrace` exactly where that holds and the tracee stopped behind the entry of the
function. -/
theorem compound_survives_iff (h : Ready w []) :
    (∀ planted w₁ w₂, setTempBpLocation k (readReturnAddress k w).2 (readReturnAddress k w).1 =
        .ok (planted, w₁) → continueExecution k syms w₁ = .ok w₂ →
      (Survives w₂ (stepOut k syms w) ↔ w₂.state = .active ∨
        (mapLookup w.bpLocations (readReturnAddress k w).1).isSome)) ∧
    (∀ die name d₀ w₀ d w₁ w₂,
      getFuncDieFromPc w (getPc k w.tracee w.pid) w.loadAddress = .ok (some die) →
      die.name = some name →
      (nextLines w die (getPc k w.tracee w.pid)).foldlM (plantAt k) (⟨100, []⟩, w) = .ok (d₀, w₀) →
      plantTempLocations k w die name (getPc k w.tracee w.pid) = .ok (d, w₁) →
      continueExecution k syms w₁ = .ok w₂ →
      (Survives w₂ (stepOver k syms w) ↔ w₂.state = .active ∨
        w.Registers (nextLines w die (getPc k w.tracee w.pid)) ∧
          (name = "main" ∨ (mapLookup w.bpLocations (readReturnAddress k w₀).1).isSome))) ∧
    ∀ die name pc load planted w₁ w₂, getFuncDieFromPc w pc load = .ok (some die) →
      die.name = some name → die.lowpc.getD (w.dwfl.junkRange 0).1 = pc - load →
      w.dwfl.Shows (pc + 4) → setTempBpLocation k w (pc + 4) = .ok (planted, w₁) →
      continueExecution k syms w₁ = .ok w₂ → (w₂.state = .active → w₂.life.Stopped) →
      (Survives w₂ (Prod.snd <$> printFrame k syms w pc load true) ↔
        getPc k w₂.tracee w₂.pid = pc + 4 ∧
          (w₂.state = .active ∨ (mapLookup w.bpLocations (pc + 4)).isSome)) :=
  ⟨fun _ _ _ => stepOut_survives_iff h, fun _ _ _ _ _ _ _ => stepOver_survives_iff h,
    fun _ _ _ _ _ _ _ => printFrame_survives_iff h⟩

/-- A process whose stack holds a return address, and which then stops or ends with the status. -/
def returning (status : WaitStatus) : Kernel :=
  { Kernel.scripted (fun _ => 0) [.stopped ⟨SIGTRAP, 0⟩, .stopped ⟨SIGABRT, 0⟩, status] with
    image := fun _ => (fun _ => 0, fun _ => 0x40) }

/-- A stripped executable that is taken to have debug symbols. -/
def bareSymbols : Symbols := { Symbols.stripped with hasDwarf := true }

/-- A process that stops again during `finish`. -/
theorem compound_survives_iff_stop : ∃ w planted w₁ w₂,
    session (returning (.stopped ⟨SIGABRT, 0⟩)) bareSymbols dbgInit [.run true] = .ok w ∧
    setTempBpLocation (returning (.stopped ⟨SIGABRT, 0⟩))
      (readReturnAddress (returning (.stopped ⟨SIGABRT, 0⟩)) w).2
      (readReturnAddress (returning (.stopped ⟨SIGABRT, 0⟩)) w).1 = .ok (planted, w₁) ∧
    continueExecution (returning (.stopped ⟨SIGABRT, 0⟩)) bareSymbols w₁ = .ok w₂ ∧
    (Survives w₂ (stepOut (returning (.stopped ⟨SIGABRT, 0⟩)) bareSymbols w) ↔
      w₂.state = .active ∨ (mapLookup w.bpLocations
        (readReturnAddress (returning (.stopped ⟨SIGABRT, 0⟩)) w).1).isSome) := by
  set k := returning (.stopped ⟨SIGABRT, 0⟩) with hk
  obtain ⟨w, hw, hp⟩ := exists_of_any
    (p := fun w => (setTempBpLocation k (readReturnAddress k w).2
      (readReturnAddress k w).1).toOption.any fun r =>
        (continueExecution k bareSymbols r.2).toOption.any fun _ => true)
    (x := session k bareSymbols dbgInit [.run true]) (by decide +kernel)
  obtain ⟨⟨planted, w₁⟩, hplant, hp⟩ := exists_of_any hp
  obtain ⟨w₂, hcont, -⟩ := exists_of_any hp
  exact ⟨w, planted, w₁, w₂, hw, hplant, hcont,
    (compound_survives_iff (session_ready dbgInit_ready hw)).1 planted w₁ w₂ hplant hcont⟩

/-- A process that exits during `finish`: the deletion of the location at the return address fails
its assertion. -/
theorem exit_in_finish_asserts : ∃ w,
    session (returning (.exited 0)) bareSymbols dbgInit [.run true] = .ok w ∧
    faultOf (stepOut (returning (.exited 0)) bareSymbols w) = some .assertion := by
  obtain ⟨w, hw, hp⟩ := exists_of_any
    (p := fun w => faultOf (stepOut (returning (.exited 0)) bareSymbols w) = some .assertion)
    (x := session (returning (.exited 0)) bareSymbols dbgInit [.run true]) (by decide +kernel)
  exact ⟨w, hw, of_decide_eq_true hp⟩

end Vdbg
