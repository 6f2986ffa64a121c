import Vdbg.Listing
import Vdbg.Presence
import Vdbg.Reporting
import Vdbg.Scripts

/-!
# What handlers do with their arguments

`cmd_reg`, `cmd_mem`, `cmd_context`, `cmd_source` and `cmd_break` index the tokens of a line without
looking at how many there are, `get_register_from_name` answers `(reg)-1` for a name it does not
know, and `strtoul` and `atoi` read a text that is no number as 0. Which lines do no harm by that is
said by `harmless_iff`.
-/

namespace Vdbg

open FaultRun Numerals Words

variable (k : Kernel) (syms : Symbols) (w : World)

/-! ## The handlers -/

/-- What a handler must not do with its arguments, or the fault it ends in. -/
inductive Misuse where
  /-- An argument that is not there is passed to `strcmp`, `strtoul` or `fopen`. -/
  | nullArgument
  /-- A register is accessed at the offset `(reg)-1`. -/
  | noRegister
  | fault (f : Fault)
deriving DecidableEq, Repr

/-- The state after a handler and the values it prints. -/
abbrev Handled := Except Misuse (World × List (BitVec 64))

/-- `register_descriptors`, without the numbers of DWARF. -/
def registerDescriptors : List (Reg × String) := [
  (.r15, "r15"), (.r14, "r14"), (.r13, "r13"), (.r12, "r12"), (.rbp, "rbp"), (.rbx, "rbx"),
  (.r11, "r11"), (.r10, "r10"), (.r9, "r9"), (.r8, "r8"), (.rax, "rax"), (.rcx, "rcx"),
  (.rdx, "rdx"), (.rsi, "rsi"), (.rdi, "rdi"), (.orig_rax, "orig_rax"), (.rip, "rip"), (.cs, "cs"),
  (.eflags, "eflags"), (.rsp, "rsp"), (.ss, "ss"), (.fs_base, "fs_base"), (.gs_base, "gs_base"),
  (.ds, "ds"), (.es, "es"), (.fs, "fs"), (.gs, "gs")]

/-- The register of a name. -/
def registerNamed (name : List Char) : Option Reg :=
  (registerDescriptors.find? (·.2.toList = name)).map Prod.fst

/-- `get_register_from_name`, where `none` is `(reg)-1`. -/
def getRegisterFromName : Option (List Char) → Except Misuse (Option Reg)
  | none => .error .nullArgument
  | some str => .ok (registerNamed str)

/-- The register that is accessed. -/
def accessed : Option Reg → Except Misuse Reg
  | none => .error .noRegister
  | some r => .ok r

/-- `strtoul` of an argument. -/
def strtoulArg (arg : Option (List Char)) (base : ℕ) : Except Misuse (BitVec 64) :=
  match arg with
  | none => .error .nullArgument
  | some str => .ok (strtoul str base)

/-- `cmd_reg`. An argument that is not there is the `NULL` after the tokens, or lies past it. -/
def cmdReg (args : List (List Char)) : Handled :=
  if isPrefix args[1]? "dump" then
    .ok (w, registerDescriptors.map fun d => getRegisterValue k w.tracee d.1 w.pid)
  else if isPrefix args[1]? "read" then do
    let r ← accessed (← getRegisterFromName args[2]?)
    return (w, [getRegisterValue k w.tracee r w.pid])
  else if isPrefix args[1]? "write" then do
    let value ← strtoulArg args[3]? 16
    let r ← accessed (← getRegisterFromName args[2]?)
    return (w.setTracee (setRegisterValue k w.tracee r w.pid value), [])
  else .ok (w, [])

/-- `cmd_mem` -/
def cmdMem (args : List (List Char)) : Handled := do
  let address ← strtoulArg args[2]? 16
  if isPrefix args[1]? "read" then
    let (value, t) := readMemory k w.tracee w.pid address
    return (w.setTracee t, [value])
  else if isPrefix args[1]? "write" then
    let value ← strtoulArg args[3]? 16
    return (w.setTracee (writeMemory k w.tracee w.pid address value), [])
  else return (w, [])

/-- `cmd_context` on its tokens. The `int` of `atoi` is passed on as an `unsigned int`. -/
def handleContext (args : List (List Char)) : Handled :=
  match cmdContext k syms w (args[1]?.map fun context => BitVec.ofInt 32 (atoi context)) with
  | .ok w' => .ok (w', [])
  | .error (f, _) => .error (.fault f)

/-- `cmd_source` up to `fopen`. The lines of the script are handled on their own. -/
def cmdSource (args : List (List Char)) : Handled :=
  match args[1]? with
  | none => .error .nullArgument
  | some _ => .ok (w, [])

/-! ## What is asked of them -/

/-- What `strtoul` and `strtol` take the digits from. -/
def numeral (base : ℕ) (str : List Char) : List Char :=
  skipPrefix base (skipSign (str.dropWhile isSpace)).2

/-- The whole text is a number, and it is below the limit. -/
def Converts (base limit : ℕ) (str : List Char) : Prop :=
  numeral base str ≠ [] ∧ AllDigits base (numeral base str) ∧ scan base 0 (numeral base str) < limit

instance {base limit : ℕ} {str : List Char} : Decidable (Converts base limit str) :=
  have : Decidable (AllDigits base (numeral base str)) :=
    List.decidableBAll (fun c => (digit base c).isSome) (numeral base str)
  inferInstanceAs (Decidable (_ ∧ _ ∧ _))

/-- A value or an address. -/
def IsHexNumber (str : List Char) : Prop := Converts 16 (2 ^ 64) str

/-- A number of lines, or of a line. -/
def IsLineNumber (str : List Char) : Prop := Converts 10 (2 ^ 31) str

/-- The breakpoints, registers and memory are left as they are. -/
structure Unchanged (w w' : World) : Prop where
  breakpoints : w'.breakpoints = w.breakpoints
  pending : w'.pendingBreakpoints = w.pendingBreakpoints
  bps : w'.bps = w.bps
  bpLocations : w'.bpLocations = w.bpLocations
  locs : w'.locs = w.locs
  regs : w'.tracee.regs = w.tracee.regs
  mem : w'.tracee.mem = w.tracee.mem

/-- A handler is safe with its arguments, and changes nothing if they are invalid. -/
structure Sound (invalid : Prop) (r : Handled) : Prop where
  noNull : r ≠ .error .nullArgument
  inTable : r ≠ .error .noRegister
  /-- `print_source` is not called with the context 0. -/
  context : r ≠ .error (.fault .assertion)
  unchanged : invalid → ∀ r', r = .ok r' → Unchanged w r'.1

/-- The arguments of `register` are valid. -/
def ValidReg (args : List (List Char)) : Prop :=
  isPrefix args[1]? "dump" ∨
    isPrefix args[1]? "read" ∧ (∃ r, args[2]?.bind registerNamed = some r) ∨
    isPrefix args[1]? "write" ∧ (∃ r, args[2]?.bind registerNamed = some r) ∧
      ∃ value, args[3]? = some value ∧ IsHexNumber value

/-- The arguments of `memory` are valid. -/
def ValidMem (args : List (List Char)) : Prop :=
  (∃ address, args[2]? = some address ∧ IsHexNumber address) ∧
    (isPrefix args[1]? "read" ∨
      isPrefix args[1]? "write" ∧ ∃ value, args[3]? = some value ∧ IsHexNumber value)

/-- The argument of `context` is valid. -/
def ValidContext (args : List (List Char)) : Prop :=
  ∀ context, args[1]? = some context → IsLineNumber context

/-- A text that `break` cannot make anything of as a whole. -/
def InvalidBreakArg (arg : List Char) : Prop :=
  if isHex arg then ¬ IsHexNumber arg
  else if isNumber arg then ¬ IsLineNumber arg
  else
    match strchr ':' arg with
    | some (_, lineno) => ¬ IsLineNumber lineno
    | none => (syms.functions.filter fun f => f.1 = .ofList arg) = []

/-- The load address that a run gives the executable. -/
def LoadedAt (load : Addr) : Prop := ∃ w, initializeLoadAddress k syms w = .ok load

/-- At a later run `loc_init` asserts that the breakpoint with the address is not at 0. -/
def Doomed (a : Addr) : Prop :=
  ∃ w b bp, w.bps b = some bp ∧ bp.instrAddr = a ∧ w.pid ≠ 0 ∧ LoadedAt k syms w.loadAddress ∧
    faultOf (resolveBreakpoint k w b) = some .assertion

/-- One turn of the loop of `cmd_break` over its arguments. -/
def breakArg (arg : List Char) : Res World := cmdBreak k syms w [parseBreakArg arg]

/-- An argument of `break` does not fail the assertion of `loc_init`, neither now nor with one of
the breakpoints it sets at a later run, and changes nothing if it is invalid. -/
structure BreakSound (arg : List Char) : Prop where
  now : faultOf (breakArg k syms w arg) ≠ some .assertion
  later : ∀ w', breakArg k syms w arg = .ok w' → ∀ r ∈ w'.rows, r.id ∉ w.pendingIds →
    ¬ Doomed k syms r.addr
  unchanged : InvalidBreakArg syms arg → ∀ w', breakArg k syms w arg = .ok w' → Unchanged w w'

/-- The arguments `cmd_break` goes through: a line ends it where there are no debug symbols. -/
def breakArgs (args : List (List Char)) : List (List Char) :=
  args.tail.takeWhile fun arg => !(parseBreakArg arg).stops syms

/-- The line does no harm by its arguments. -/
def Harmless (input : List Char) : Prop :=
  match dispatch (w.state = .active) syms.hasDwarf input with
  | .handled .cmdReg args => Sound w (¬ ValidReg args) (cmdReg k w args)
  | .handled .cmdMem args => Sound w (¬ ValidMem args) (cmdMem k w args)
  | .handled .cmdContext args => Sound w (¬ ValidContext args) (handleContext k syms w args)
  | .handled .cmdSource args => Sound w (args[1]? = none) (cmdSource w args)
  | .handled .cmdBreak args => Along (breakArg k syms) (BreakSound k syms) w (breakArgs syms args)
  | _ => True

/-! ## Which arguments these are -/

/-- `register`: a name that is known, and for `write` a value, which is a number or does not
change the registers. -/
def SuitsReg (args : List (List Char)) : Prop :=
  if isPrefix args[1]? "dump" then True
  else if isPrefix args[1]? "read" then ∃ r, args[2]?.bind registerNamed = some r
  else if isPrefix args[1]? "write" then
    ∃ r value, args[2]?.bind registerNamed = some r ∧ args[3]? = some value ∧
      (IsHexNumber value ∨ (w.tracee.inStop k w.pid → k.setRegs w.tracee
        (Function.update w.tracee.regs r (strtoul value 16)) = w.tracee.regs))
  else True

/-- `memory`: an address, and for `write` a value, which both are numbers or do not change the
memory. -/
def SuitsMem (args : List (List Char)) : Prop :=
  ∃ address, args[2]? = some address ∧
    (isPrefix args[1]? "read" = false → isPrefix args[1]? "write" → ∃ value, args[3]? = some value ∧
      (IsHexNumber address ∧ IsHexNumber value ∨
        (w.tracee.alive w.pid && k.pokeOk w.tracee (strtoul address 16) →
          writeWord w.tracee.mem (strtoul address 16) (strtoul value 16) = w.tracee.mem)))

/-- There is a source line to print at the pc. -/
def HasSource : Prop :=
  syms.hasDwarf ∧ w.dwfl.addrmodule (getPc k w.tracee w.pid) ∧
    ∃ src, w.dwfl.getsrc (getPc k w.tracee w.pid) = some src ∧ src.file ≠ none ∧ src.line ≠ 0

/-- `context`: no text that is read as 0 modulo `2 ^ 32`, unless there is nothing to print. -/
def SuitsContext (args : List (List Char)) : Prop :=
  HasSource k syms w → ∀ context, args[1]? = some context → BitVec.ofInt 32 (atoi context) ≠ 0

/-- `break`: none of the addresses the argument stands for is put at 0 now or by a later run, and
there is none if it is invalid. -/
def SuitsBreak (arg : List Char) : Prop :=
  (w.state = .active → (parseBreakArg arg).Located k syms w) →
    (∀ y ∈ (parseBreakArg arg).targets k syms w,
      w.Fits y ∧ ∀ load, LoadedAt k syms load → y + load ≠ 0) ∧
    (InvalidBreakArg syms arg → (parseBreakArg arg).targets k syms w = [])

/-- The line and the state before it, or before each argument of `break`, are such. -/
def Suits (input : List Char) : Prop :=
  match dispatch (w.state = .active) syms.hasDwarf input with
  | .handled .cmdReg args => SuitsReg k w args
  | .handled .cmdMem args => SuitsMem k w args
  | .handled .cmdContext args => SuitsContext k syms w args
  | .handled .cmdSource args => args[1]? ≠ none
  | .handled .cmdBreak args => Along (breakArg k syms) (SuitsBreak k syms) w (breakArgs syms args)
  | _ => True

variable {k syms w} {w' : World} {args : List (List Char)} {invalid : Prop}

/-! ## Registers and memory -/

theorem Unchanged.refl (w : World) : Unchanged w w := ⟨rfl, rfl, rfl, rfl, rfl, rfl, rfl⟩

/-- Only the tracee is another one. -/
theorem unchanged_setTracee {t : Tracee} : Unchanged w (w.setTracee t) ↔
    t.regs = w.tracee.regs ∧ t.mem = w.tracee.mem :=
  ⟨fun h => ⟨h.regs, h.mem⟩, fun h => ⟨rfl, rfl, rfl, rfl, rfl, h.1, h.2⟩⟩

theorem sound_ok {r : World × List (BitVec 64)} :
    Sound w invalid (.ok r) ↔ (invalid → Unchanged w r.1) := by
  constructor
  · intro h hinvalid
    exact h.unchanged hinvalid r rfl
  · intro h
    refine ⟨nofun, nofun, nofun, ?_⟩
    rintro hinvalid _ ⟨⟩
    exact h hinvalid

theorem not_sound_null : ¬ Sound w invalid (.error .nullArgument) := fun h => h.noNull rfl

theorem not_sound_noRegister : ¬ Sound w invalid (.error .noRegister) := fun h => h.inTable rfl

theorem sound_fault {f : Fault} : Sound w invalid (.error (.fault f)) ↔ f ≠ .assertion := by
  constructor
  · rintro h rfl
    exact h.context rfl
  · intro h
    refine ⟨nofun, nofun, fun he => h ?_, ?_⟩
    · cases he
      rfl
    · rintro - r ⟨⟩

theorem unchanged_setRegisterValue {r : Reg} {value : BitVec 64} :
    Unchanged w (w.setTracee (setRegisterValue k w.tracee r w.pid value)) ↔
      (w.tracee.inStop k w.pid →
        k.setRegs w.tracee (Function.update w.tracee.regs r value) = w.tracee.regs) := by
  rw [unchanged_setTracee]
  unfold setRegisterValue
  split_ifs with hstop
  · exact ⟨fun h _ => h.1, fun h => ⟨h hstop, rfl⟩⟩
  · exact iff_of_true ⟨rfl, rfl⟩ fun h => absurd h hstop

theorem unchanged_writeMemory {address value : BitVec 64} :
    Unchanged w (w.setTracee (writeMemory k w.tracee w.pid address value)) ↔
      (w.tracee.alive w.pid && k.pokeOk w.tracee address →
        writeWord w.tracee.mem address value = w.tracee.mem) := by
  rw [unchanged_setTracee]
  unfold writeMemory Tracee.pokeData
  split_ifs with hpoke
  · exact ⟨fun h _ => h.2, fun h => ⟨rfl, h hpoke⟩⟩
  · exact iff_of_true ⟨rfl, rfl⟩ fun h => absurd h hpoke

/-- `strtoul` is given the value before `get_register_from_name` is given the name. -/
theorem sound_cmdReg_iff :
    Sound w (¬ ValidReg args) (cmdReg k w args) ↔ SuitsReg k w args := by
  unfold cmdReg SuitsReg
  split_ifs with hdump hread hwrite
  · exact iff_of_true (sound_ok.mpr fun _ => .refl w) trivial
  · cases hname : args[2]? with
    | none => exact iff_of_false not_sound_null (by simp)
    | some name =>
      cases hr : registerNamed name with
      | none =>
        simp only [getRegisterFromName, ok_bind, hr]
        exact iff_of_false not_sound_noRegister (by simp [hr])
      | some r =>
        simp only [getRegisterFromName, ok_bind, hr, accessed]
        exact iff_of_true (sound_ok.mpr fun _ => .refl w) ⟨r, hr⟩
  · cases hvalue : args[3]? with
    | none => exact iff_of_false not_sound_null (by simp)
    | some value =>
      cases hname : args[2]? with
      | none => exact iff_of_false not_sound_null (by simp)
      | some name =>
        cases hr : registerNamed name with
        | none =>
          simp only [strtoulArg, getRegisterFromName, ok_bind, hr]
          exact iff_of_false not_sound_noRegister (by simp [hr])
        | some r =>
          have hvalid : ValidReg args ↔ IsHexNumber value := by
            simp [ValidReg, hdump, hread, hwrite, hvalue, hname, hr]
          simp only [strtoulArg, getRegisterFromName, ok_bind, hr, accessed]
          refine sound_ok.trans ?_
          rw [hvalid, unchanged_setRegisterValue, Classical.or_iff_not_imp_left.symm]
          simp [hr]
  · exact iff_of_true (sound_ok.mpr fun _ => .refl w) trivial

theorem sound_cmdMem_iff :
    Sound w (¬ ValidMem args) (cmdMem k w args) ↔ SuitsMem k w args := by
  unfold cmdMem SuitsMem
  cases haddress : args[2]? with
  | none => exact iff_of_false not_sound_null (by simp)
  | some address =>
    simp only [strtoulArg, ok_bind, Option.some.injEq, exists_eq_left']
    split_ifs with hread hwrite
    · exact iff_of_true (sound_ok.mpr fun _ => unchanged_setTracee.mpr ⟨rfl, rfl⟩) (by simp [hread])
    · cases hvalue : args[3]? with
      | none => exact iff_of_false not_sound_null (by simp [hread, hwrite])
      | some value =>
        have hvalid : ValidMem args ↔ IsHexNumber address ∧ IsHexNumber value := by
          simp [ValidMem, haddress, hread, hwrite, hvalue]
        refine sound_ok.trans ?_
        rw [hvalid, unchanged_writeMemory, Classical.or_iff_not_imp_left.symm]
        simp [hread, hwrite]
    · exact iff_of_true (sound_ok.mpr fun _ => .refl w) (by simp [hwrite])

/-! ## The context -/

/-- The assertion of `print_source` fails on the context 0 where it is called. -/
theorem printSourceAtCurrentPc_zero :
    faultOf (printSourceAtCurrentPc syms w (getPc k w.tracee w.pid) 0) = some .assertion ↔
      HasSource k syms w := by
  unfold printSourceAtCurrentPc HasSource
  by_cases hdwarf : syms.hasDwarf = true
  swap
  · rw [if_pos (by simpa using hdwarf)]
    exact iff_of_false nofun fun h => hdwarf h.1
  rw [if_neg (by simp [hdwarf]), and_iff_right hdwarf]
  unfold getLineFromPc
  by_cases hmodule : w.dwfl.addrmodule (getPc k w.tracee w.pid) = true
  swap
  · rw [if_pos (by simpa using hmodule)]
    exact iff_of_false nofun fun h => hmodule h.1
  rw [if_neg (by simp [hmodule]), and_iff_right hmodule]
  cases hsrc : w.dwfl.getsrc (getPc k w.tracee w.pid) with
  | none => exact iff_of_false nofun nofun
  | some src =>
    cases hfile : src.file with
    | none =>
      simp only [hfile]
      exact iff_of_false nofun (by simp [hfile])
    | some file =>
      simp only [hfile, ok_bind]
      by_cases hline : src.line = 0
      · rw [if_pos hline]
        exact iff_of_false nofun (by simp [hline])
      · rw [if_neg hline, printSource, if_pos (by simp)]
        exact iff_of_true rfl ⟨src, rfl, by simp [hfile], hline⟩

theorem cmdContext_eq (context : Option (BitVec 32)) : cmdContext k syms w context =
    printSourceAtCurrentPc syms w (getPc k w.tracee w.pid)
      (context.elim DEFAULT_LINE_CONTEXT BitVec.toNat) := by
  cases context <;> rfl

theorem sound_handleContext_iff :
    Sound w invalid (handleContext k syms w args) ↔ SuitsContext k syms w args := by
  unfold handleContext SuitsContext
  rw [cmdContext_eq]
  generalize hn : (args[1]?.map fun context => BitVec.ofInt 32 (atoi context)).elim
    DEFAULT_LINE_CONTEXT BitVec.toNat = n
  have hzero : n = 0 ↔ ∃ context, args[1]? = some context ∧ BitVec.ofInt 32 (atoi context) = 0 := by
    rw [← hn]
    cases args[1]? with
    | none => simp [DEFAULT_LINE_CONTEXT]
    | some context => simp [BitVec.toNat_eq]
  have hfault : faultOf (printSourceAtCurrentPc syms w (getPc k w.tracee w.pid) n) =
      some .assertion ↔ HasSource k syms w ∧ n = 0 := by
    by_cases h0 : n = 0
    · rw [h0, printSourceAtCurrentPc_zero, and_iff_left rfl]
    · exact iff_of_false (printSourceAtCurrentPc_asserts h0) fun h => h0 h.2
  trans ¬ (HasSource k syms w ∧ n = 0)
  · rw [← hfault]
    rcases hrun : printSourceAtCurrentPc syms w (getPc k w.tracee w.pid) n with ⟨f, w₁⟩ | w'
    · exact sound_fault.trans (by simp)
    · refine iff_of_true (sound_ok.mpr fun _ => ?_) (by simp)
      rw [printSourceAtCurrentPc_eq hrun]
      exact ⟨rfl, rfl, rfl, rfl, rfl, rfl, rfl⟩
  · rw [hzero]
    simp only [not_and, not_exists]

theorem sound_cmdSource_iff : Sound w invalid (cmdSource w args) ↔ args[1]? ≠ none := by
  unfold cmdSource
  cases args[1]? with
  | none => exact iff_of_false not_sound_null fun h => h rfl
  | some path => exact iff_of_true (sound_ok.mpr fun _ => .refl w) nofun

/-! ## Assertions of `loc_init` -/

section Asserts

variable {α β : Type} {r : Res α} {g : α → Res β} {b : BpPtr} {p : LocPtr}

theorem bind_asserts (h : faultOf r ≠ some .assertion)
    (hg : ∀ a, r = .ok a → faultOf (g a) ≠ some .assertion) :
    faultOf (r >>= g) ≠ some .assertion := by
  rcases r with ⟨f, w⟩ | a
  · exact h
  · exact hg a rfl

theorem derefBp_asserts : faultOf (w.derefBp b) ≠ some .assertion := by
  unfold World.derefBp
  split <;> exact nofun

theorem derefLoc_asserts : faultOf (w.derefLoc p) ≠ some .assertion := by
  unfold World.derefLoc
  split <;> exact nofun

theorem locEnable_asserts : faultOf (locEnable k w p) ≠ some .assertion := by
  refine bind_asserts derefLoc_asserts fun loc _ => ?_
  dsimp only
  split_ifs <;> exact nofun

theorem locDisable_asserts : faultOf (locDisable k w p) ≠ some .assertion := by
  refine bind_asserts derefLoc_asserts fun loc _ => ?_
  dsimp only
  split_ifs <;> exact nofun

theorem locAppend_asserts :
    faultOf (locAppendBreakpointToList k w p b) ≠ some .assertion := by
  refine bind_asserts derefBp_asserts fun bp _ => ?_
  refine bind_asserts derefLoc_asserts fun loc _ => ?_
  refine bind_asserts ?_ fun list _ => ?_
  · unfold bpListOf
    split_ifs <;> exact nofun
  · dsimp only
    split_ifs
    · exact nofun
    · exact locEnable_asserts
    · exact locDisable_asserts
    · exact nofun

theorem locInit_no_assert {pid : Pid} {x : Addr} (hpid : pid ≠ 0) (hx : x ≠ 0) :
    faultOf (locInit k w pid x (some b) false) ≠ some .assertion := by
  unfold locInit
  rw [if_neg (not_null hpid hx), if_neg (by simp)]
  refine bind_asserts derefBp_asserts fun bp _ => ?_
  dsimp only
  split_ifs
  · exact bind_asserts locEnable_asserts fun _ _ => nofun
  · exact nofun

/-- A breakpoint is doomed exactly if a run can have a load address that takes it to 0. -/
theorem doomed_iff {a : Addr} :
    Doomed k syms a ↔ ∃ load, LoadedAt k syms load ∧ a + load = 0 := by
  constructor
  · rintro ⟨w, b, bp, hb, rfl, hpid, hload, hfault⟩
    refine ⟨w.loadAddress, hload, ?_⟩
    by_contra hne
    refine absurd hfault (bind_asserts derefBp_asserts fun bp' hbp' => ?_)
    rw [World.derefBp_eq hb] at hbp'
    obtain rfl := Except.ok.inj hbp'
    dsimp only
    split
    · exact locAppend_asserts
    · refine bind_asserts (locInit_no_assert hpid hne) fun r _ => ?_
      split <;> exact nofun
  · rintro ⟨load, hload, hzero⟩
    -- a process with one breakpoint, and no location yet
    let bp : Breakpoint := ⟨1, .addr, true, a, none⟩
    let w : World := { dbgInit with pid := 1, loadAddress := load, bps := fun _ => some bp }
    refine ⟨w, 0, bp, rfl, rfl, one_ne_zero, hload, ?_⟩
    show faultOf (resolveBreakpoint k w 0) = _
    unfold resolveBreakpoint
    rw [World.derefBp_eq (show w.bps 0 = some bp from rfl), ok_bind]
    have hlookup : mapLookup w.bpLocations (bp.instrAddr + w.loadAddress) = none := rfl
    simp only [hlookup]
    rw [locInit, if_pos (by rw [show bp.instrAddr + w.loadAddress = 0 from hzero]; simp)]
    rfl

end Asserts

/-! ## The arguments of `break` -/

section Break

variable {arg : List Char}

/-- What an argument without an address does. -/
theorem breakArg_of_no_targets (hlocated : w.state = .active → (parseBreakArg arg).Located k syms w)
    (hnone : (parseBreakArg arg).targets k syms w = []) : breakArg k syms w arg = .ok w := by
  unfold breakArg
  revert hlocated hnone
  cases parseBreakArg arg with
  | addr y => exact nofun
  | line file line =>
    intro hlocated hnone
    rw [cmdBreak, bind_cmdBreak_nil]
    unfold BreakArg.targets at hnone
    split_ifs at hnone ⊢ with hdwarf
    · have hmod : file = none → w.state = .active →
          w.dwfl.addrmodule (getPc k w.tracee w.pid) = true := by
        rintro rfl ha
        exact hlocated ha hdwarf
      rw [setBreakpointAtLineno_eq hmod]
      cases htarget : lineTarget k syms w file line with
      | none => rfl
      | some target => simp [htarget] at hnone
    · rfl
  | symbol name =>
    intro _ hnone
    rw [cmdBreak, bind_cmdBreak_nil, setBreakpointAtFuncSymbol, List.map_eq_nil_iff.mp hnone]
    rfl

variable (k syms w arg) in
theorem targets_length_le : ((parseBreakArg arg).targets k syms w).length ≤
    syms.functions.length + 1 := by
  cases parseBreakArg arg with
  | addr y => exact Nat.le_add_left _ _
  | line file line =>
    rw [BreakArg.targets]
    split_ifs
    · rcases lineTarget k syms w file line with - | target
      · exact Nat.zero_le _
      · exact Nat.le_add_left _ _
    · exact Nat.zero_le _
  | symbol name =>
    unfold BreakArg.targets
    rw [List.length_map]
    exact (List.length_filter_le _ _).trans (Nat.le_succ _)

/-- An argument that returns has set its breakpoints, with new ids. -/
theorem new_rows {as : List Addr} (h : Ready w []) (hsets : Sets w w' as) (P : Addr → Prop) :
    (∀ r ∈ w'.rows, r.id ∉ w.pendingIds → P r.addr) ↔ ∀ y ∈ as, P y := by
  constructor
  · intro hall y hy
    obtain ⟨r, hr, rfl, hid⟩ := exists_setEdits w.globalIdCounter w.rows hy
    rw [← hsets.rows] at hr
    refine hall r hr fun hold => ?_
    exact BitVec.not_le.mpr (hsets.issued.after r.id hid).1 (pendingIds_le h.registry hold)
  · intro hall r hr hnew
    rw [hsets.rows] at hr
    rcases mem_setEdits hr with hold | hmem
    · exact absurd (pendingIds_eq w ▸ List.mem_map_of_mem hold) hnew
    · exact hall r.addr hmem

theorem Unchanged.rows (h : Unchanged w w') : w'.rows = w.rows := by
  unfold World.rows
  rw [h.pending]
  refine List.filterMap_congr fun b _ => ?_
  rw [World.row, World.row, h.bps]

/-- An argument that changes nothing has no address. -/
theorem unchanged_iff_no_targets (h : Ready w [])
    (hlocated : w.state = .active → (parseBreakArg arg).Located k syms w)
    (hok : breakArg k syms w arg = .ok w') :
    Unchanged w w' ↔ (parseBreakArg arg).targets k syms w = [] := by
  constructor
  · intro hsame
    have hsets : Sets w w' ((parseBreakArg arg).targets k syms w) := cmdBreak_one_sets h hok
    have hno := (new_rows h hsets fun _ => False).mp fun r hr hnew => hnew (by
      rw [hsame.rows] at hr
      exact pendingIds_eq w ▸ List.mem_map_of_mem hr)
    exact List.eq_nil_iff_forall_not_mem.mpr hno
  · intro hnone
    have hsame := breakArg_of_no_targets hlocated hnone
    rw [hok] at hsame
    cases hsame
    exact .refl w

theorem breakSound_iff (h : Ready w []) (hpid : w.state = .active → w.pid ≠ 0)
    (hids : w.IdsLeft (syms.functions.length + 1)) :
    BreakSound k syms w arg ↔ SuitsBreak k syms w arg := by
  unfold SuitsBreak
  have hcases := cmdBreak_one_cases k (parseBreakArg arg) h hpid hids
  rw [← breakArg] at hcases
  rcases hcases with
    ⟨hlocated, hfits, w', hok⟩ | ⟨hlocated, ⟨y, hy, hno⟩, hfault⟩ | ⟨hlocated, hfault⟩
  · have hsets : Sets w w' ((parseBreakArg arg).targets k syms w) := cmdBreak_one_sets h hok
    have hlater := new_rows h hsets fun a => ¬ Doomed k syms a
    simp only [doomed_iff, not_exists, not_and] at hlater
    have hunchanged := unchanged_iff_no_targets h hlocated hok
    constructor
    · intro hsound
      refine fun _ => ⟨fun y hy => ⟨hfits y hy, ?_⟩, fun hinvalid => ?_⟩
      · refine hlater.mp (fun r hr hnew => ?_) y hy
        simpa only [doomed_iff, not_exists, not_and] using hsound.later w' hok r hr hnew
      · exact hunchanged.mp (hsound.unchanged hinvalid w' hok)
    · intro hsuits
      obtain ⟨hall, hinvalid⟩ := hsuits hlocated
      refine ⟨by rw [hok]; exact nofun, fun w'' hok' r hr hnew => ?_, fun hinv w'' hok' => ?_⟩
      · cases hok.symm.trans hok'
        rw [doomed_iff]
        simpa only [not_exists, not_and] using
          hlater.mpr (fun y hy => (hall y hy).2) r hr hnew
      · cases hok.symm.trans hok'
        exact hunchanged.mpr (hinvalid hinv)
  · exact iff_of_false (fun hsound => hsound.now hfault)
      fun hsuits => hno ((hsuits hlocated).1 y hy).1
  · refine iff_of_true ⟨by rw [hfault]; exact nofun, fun w' hok => ?_, fun _ w' hok => ?_⟩
      fun hyes => absurd hyes hlocated
    · rw [hok] at hfault
      cases hfault
    · rw [hok] at hfault
      cases hfault

theorem IdsLeft.sets {as : List Addr} {n : ℕ} (h : w.IdsLeft (as.length + n))
    (hcounter : w'.globalIdCounter = (setEdits w.globalIdCounter as).foldl Edit.count
      w.globalIdCounter) : w'.IdsLeft n := by
  induction as generalizing w with
  | nil =>
    have hsame : w'.globalIdCounter = w.globalIdCounter := hcounter
    unfold World.IdsLeft
    rw [hsame]
    exact h.mono (by simp)
  | cons y as ih =>
    let w₁ : World := { w with globalIdCounter := w.globalIdCounter + 1 }
    have hrest : w.IdsLeft (as.length + n + 1) :=
      h.mono (by rw [List.length_cons]; omega)
    exact ih (w := w₁) (hrest.succ rfl) hcounter

/-- The loop of `cmd_break`, by induction on the arguments that are left. -/
theorem along_break_iff {args : List (List Char)} (h : Ready w [])
    (hpid : w.state = .active → w.pid ≠ 0)
    (hids : w.IdsLeft (args.length * (syms.functions.length + 1))) :
    Along (breakArg k syms) (BreakSound k syms) w args ↔
      Along (breakArg k syms) (SuitsBreak k syms) w args := by
  induction args generalizing w with
  | nil => exact Iff.rfl
  | cons arg args ih =>
    rw [List.length_cons, Nat.add_one_mul] at hids
    unfold Along
    refine and_congr (breakSound_iff h hpid (hids.mono (Nat.le_add_left _ _))) ?_
    refine forall₂_congr fun w' hok => ?_
    have hsets : Sets w w' ((parseBreakArg arg).targets k syms w) := cmdBreak_one_sets h hok
    have hlife : w'.life = w.life := cmdBreak_life hok
    refine ih hsets.ready ?_ ?_
    · rw [show w'.state = w.state from hsets.state,
        show w'.pid = w.pid from congrArg Life.pid hlife]
      exact hpid
    · refine IdsLeft.sets (hids.mono ?_) hsets.counter
      have hle := targets_length_le k syms w arg
      omega

end Break

/-! ## A line at a prompt -/

/-- The debugger waits for a process that was forked while it has a tracee. -/
def Life.Forked (l : Life) : Prop := l.state = .active → l.pid ≠ 0

theorem Life.Forked.resume {l : Life} (h : l.Forked) (req : Resume) (seen : Bool) :
    (l.resume req seen).Forked := by
  unfold Life.Forked
  rw [Life.resume_state, Life.resume_pid]
  exact h

theorem Life.Forked.wait {l : Life} (h : l.Forked) (r : WaitResult) : (l.wait r).Forked := by
  rcases r with - | (code | sig | info)
  · exact h
  · exact nofun
  · exact nofun
  · obtain ⟨hstate, -, hpid, -⟩ := l.wait_stopped info
    unfold Life.Forked
    rw [hstate, hpid]
    exact h

theorem Life.wait_pid (l : Life) (r : WaitResult) : (l.wait r).pid = l.pid := by
  rcases r with - | (code | sig | info)
  · rfl
  · rfl
  · rfl
  · exact (l.wait_stopped info).2.2.1

theorem Life.Forked.step {R : WaitResult → Prop} {F : Life → WaitResult → Prop} {l l' : Life}
    (h : l.Forked) (hstep : l.Step R F l') : l'.Forked := by
  refine hstep.keeps (P := Life.Forked) (fun {l l'} h hwaits => ?_)
    (fun _ hactive => by cases hactive) (fun {l r load} _ _ _ _ => ?_) h
  · cases hwaits with
    | step seen r => exact (h.resume _ _).wait r
    | cont seen r =>
      have hkept : Life.Forked { l with pendingSignal := 0 } := h
      exact (hkept.resume _ _).wait r
  · show (l.fork.wait r).pid ≠ 0
    rw [Life.wait_pid]
    exact Nat.succ_ne_zero _

theorem session_pid {cs : List Command} (hok : session k syms dbgInit cs = .ok w) :
    w.state = .active → w.pid ≠ 0 := by
  have hforked : w.life.Forked := by
    refine session_life (R := fun _ => True) (F := fun _ _ => True) (fun _ _ _ _ => trivial)
      Life.Forked.step (fun hactive => by cases hactive) ?_ hok
    exact Along.of_forall (fun _ _ _ _ _ _ _ => trivial) _
  exact hforked

theorem dispatch_args {active dwarf : Bool} {input : List Char} {handler : Handler}
    (h : dispatch active dwarf input = .handled handler args) : args = Fields.fields ' ' input := by
  unfold dispatch at h
  split at h
  · cases h
  · rename_i command rest hfields
    rw [hfields]
    split at h
    · cases h
    · split_ifs at h
      cases h
      rfl

/-- **Bad arguments.** At a prompt a line does no harm exactly if its arguments suit the state. -/
theorem harmless_iff {cs : List Command} (hsession : session k syms dbgInit cs = .ok w)
    (input : List Char)
    (hids : w.IdsLeft ((Fields.fields ' ' input).length * (syms.functions.length + 1))) :
    Harmless k syms w input ↔ Suits k syms w input := by
  have hready := session_ready dbgInit_ready hsession
  unfold Harmless Suits
  cases hdispatch : dispatch (w.state = .active) syms.hasDwarf input with
  | handled handler args =>
    cases handler with
    | cmdReg => exact sound_cmdReg_iff
    | cmdMem => exact sound_cmdMem_iff
    | cmdContext => exact sound_handleContext_iff
    | cmdSource => exact sound_cmdSource_iff
    | cmdBreak =>
      refine along_break_iff hready (session_pid hsession) (hids.mono ?_)
      refine Nat.mul_le_mul_right _ ?_
      rw [← dispatch_args hdispatch]
      exact (List.takeWhile_sublist _).length_le.trans (List.tail_sublist _).length_le
    | _ => exact Iff.rfl
  | _ => exact Iff.rfl

/-- A register that is known is given a value. -/
theorem harmless_register_write : ∃ w,
    session (.loadedAt 0x400000) (mainSymbols false 0x401136) dbgInit [.run true] = .ok w ∧
    Harmless (.loadedAt 0x400000) (mainSymbols false 0x401136) w
      "register write rax 2a".toList := by
  obtain ⟨w, hw, hp⟩ := exists_of_any (p := fun w => w.state = .active ∧ w.globalIdCounter = 1)
    (x := session (.loadedAt 0x400000) (mainSymbols false 0x401136) dbgInit [.run true])
    (by decide +kernel)
  obtain ⟨ha, hcounter⟩ := of_decide_eq_true hp
  have hids : w.IdsLeft ((Fields.fields ' ' "register write rax 2a".toList).length *
      ((mainSymbols false 0x401136).functions.length + 1)) := by
    unfold World.IdsLeft
    rw [hcounter]
    decide
  refine ⟨w, hw, (harmless_iff hw _ hids).mpr ?_⟩
  have hdispatch : dispatch true (mainSymbols false 0x401136).hasDwarf
      "register write rax 2a".toList = .handled .cmdReg
        ["register".toList, "write".toList, "rax".toList, "2a".toList] := by decide
  have hvalue : IsHexNumber "2a".toList := by unfold IsHexNumber; decide
  unfold Suits
  rw [decide_eq_true ha, hdispatch]
  exact ⟨.rax, "2a".toList, by decide, rfl, .inl hvalue⟩

/-- `source` opens no path, `break 0x0` sets a breakpoint that the next run fails on, and `rflags`
is no register of the table. -/
theorem not_harmless :
    ¬ Harmless (.loadedAt 0x400000) (mainSymbols false 0x401136) dbgInit "source".toList ∧
    ¬ Harmless (.loadedAt 0x400000) (mainSymbols false 0x401136) dbgInit "break 0x0".toList ∧
    ∃ w, session (.loadedAt 0x400000) (mainSymbols false 0x401136) dbgInit [.run true] = .ok w ∧
      ¬ Harmless (.loadedAt 0x400000) (mainSymbols false 0x401136) w
        "register read rflags".toList := by
  refine ⟨?_, ?_, ?_⟩
  · have hdispatch : dispatch false (mainSymbols false 0x401136).hasDwarf "source".toList =
        .handled .cmdSource ["source".toList] := by decide +kernel
    unfold Harmless
    rw [show decide (dbgInit.state = .active) = false from rfl, hdispatch]
    exact not_sound_null
  · have hdispatch : dispatch false (mainSymbols false 0x401136).hasDwarf "break 0x0".toList =
        .handled .cmdBreak ["break".toList, "0x0".toList] := by decide +kernel
    unfold Harmless
    rw [show decide (dbgInit.state = .active) = false from rfl, hdispatch]
    rintro ⟨hsound, -⟩
    have hids : dbgInit.IdsLeft ((mainSymbols false 0x401136).functions.length + 1) := by
      unfold World.IdsLeft
      decide
    rw [breakSound_iff dbgInit_ready (fun hactive => by cases hactive) hids] at hsound
    have htargets : (parseBreakArg "0x0".toList).targets (.loadedAt 0x400000)
        (mainSymbols false 0x401136) dbgInit = [0] := by decide +kernel
    obtain ⟨hall, -⟩ := hsound fun hactive => by cases hactive
    exact (hall 0 (htargets ▸ List.mem_singleton.mpr rfl)).2 0 ⟨dbgInit, rfl⟩ rfl
  · obtain ⟨w, hw, hp⟩ := exists_of_any (p := fun w => w.state = .active)
      (x := session (.loadedAt 0x400000) (mainSymbols false 0x401136) dbgInit [.run true])
      (by decide +kernel)
    have hdispatch : dispatch true (mainSymbols false 0x401136).hasDwarf
        "register read rflags".toList = .handled .cmdReg
          ["register".toList, "read".toList, "rflags".toList] := by decide +kernel
    refine ⟨w, hw, ?_⟩
    unfold Harmless
    rw [decide_eq_true (of_decide_eq_true hp), hdispatch]
    intro hsound
    obtain ⟨r, hr⟩ : ∃ r, registerNamed "rflags".toList = some r := sound_cmdReg_iff.mp hsound
    have hnone : registerNamed "rflags".toList = none := by decide
    rw [hnone] at hr
    cases hr

end Vdbg
