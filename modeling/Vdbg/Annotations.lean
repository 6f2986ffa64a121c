import Vdbg.Hashmap
import Vdbg.Lib.Memo
import Vdbg.Operands
import Vdbg.Text

/-!
# Annotations

The names `print_instruction_disas` puts after the direct calls. A target is looked up in a table
that lives as long as the list of instructions; only where it is absent the functions are scanned.
The scan keeps the last function at the address, but the table keeps the first, since an insertion
under a key that is present is refused. So the first call to an aliased function shows one name and
the later ones may show another (`callNames_scanned_iff`).
-/

namespace Vdbg

open FaultRun

/-- `struct func_entry` -/
structure FuncEntry where
  funcName : List Char
  addr : Addr
  size : BitVec 64
deriving DecidableEq, Repr

/-- What the names of calls depend on in a disassembled instruction. -/
structure Insn where
  mnemonic : List Char
  opStr : List Char
  operands : List OpType
deriving DecidableEq, Repr

/-- The target of a direct call: a `call` whose first operand is immediate. -/
def Insn.callTarget (insn : Insn) : Option Addr :=
  if insn.mnemonic = "call".toList ∧ insn.operands.head? = some .imm then
    some (strtoul insn.opStr 16)
  else none

/-- The table from addresses to names. -/
abbrev FuncsMap := Option (Hashmap (List Char))

section Naming

variable (funcs : List FuncEntry)

/-- `map_init((uint32_t)funcs_size, NULL)`. A size that rounds up to 0 has no number of trailing
zeros, and its table no chains. -/
def initFuncsMap : Except Fault FuncsMap :=
  if BitVec.ofNat 32 funcs.length = BitVec.allOnes 32 then .error .outOfBounds
  else .ok (mapInit (BitVec.ofNat 32 funcs.length) false)

/-- One turn of the scan over the functions. -/
def scanStep (immVal : Addr) (s : Option (List Char) × FuncsMap) (f : FuncEntry) :
    Option (List Char) × FuncsMap :=
  if immVal = f.addr then (some f.funcName, (mapInsert s.2 immVal (some f.funcName)).2) else s

/-- The name for the target of a call, and the table after it. -/
def funcNameOf (funcsMap : FuncsMap) (immVal : Addr) : Option (List Char) × FuncsMap :=
  match mapLookup funcsMap immVal with
  | some name => (some name, funcsMap)
  | none => funcs.foldl (scanStep immVal) (none, funcsMap)

/-- The loop of `print_instruction_disas` over the instructions, as to their names. -/
def nameCalls : FuncsMap → List Insn → List (Option (List Char))
  | _, [] => []
  | funcsMap, insn :: insns =>
    match insn.callTarget with
    | none => none :: nameCalls funcsMap insns
    | some immVal =>
      let (funcName, funcsMap) := funcNameOf funcs funcsMap immVal
      funcName :: nameCalls funcsMap insns

/-- The names `print_instruction_disas` puts after the instructions. -/
def callNames (insns : List Insn) : Except Fault (List (Option (List Char))) := do
  return nameCalls funcs (← initFuncsMap funcs) insns

/-- What the scan alone gives: the last function at an address. -/
def scanned (immVal : Addr) : Option (List Char) :=
  ((funcs.filter (·.addr = immVal)).map FuncEntry.funcName).getLast?

/-- What the table keeps: the first function at an address. -/
def stored (immVal : Addr) : Option (List Char) :=
  ((funcs.filter (·.addr = immVal)).map FuncEntry.funcName).head?

end Naming

/-! ## The scan and the table -/

section Scan

variable {funcs : List FuncEntry} {immVal : Addr} {ht : Hashmap (List Char)}
  {name : Option (List Char)}

theorem scanned_cons {f : FuncEntry} : scanned (f :: funcs) immVal =
    (scanned funcs immVal).or (if immVal = f.addr then some f.funcName else none) := by
  unfold scanned
  by_cases hf : immVal = f.addr
  · rw [List.filter_cons_of_pos (by simpa using hf.symm), List.map_cons, List.getLast?_cons,
      if_pos hf]
    cases ((funcs.filter (·.addr = immVal)).map FuncEntry.funcName).getLast? <;> rfl
  · rw [List.filter_cons_of_neg (by simpa using Ne.symm hf), if_neg hf, Option.or_none]

theorem stored_cons {f : FuncEntry} : stored (f :: funcs) immVal =
    (if immVal = f.addr then some f.funcName else none).or (stored funcs immVal) := by
  unfold stored
  by_cases hf : immVal = f.addr
  · rw [List.filter_cons_of_pos (by simpa using hf.symm), if_pos hf]
    rfl
  · rw [List.filter_cons_of_neg (by simpa using Ne.symm hf), if_neg hf, Option.none_or]

theorem scanned_eq_none_iff : scanned funcs immVal = none ↔ stored funcs immVal = none := by
  unfold scanned stored
  rw [List.getLast?_eq_none_iff, List.head?_eq_none_iff]

/-- An insertion keeps what is under the key. -/
theorem mapLookup_mapInsert (ht : Hashmap (List Char)) (key : Addr) (obj : List Char) :
    ∃ ht', (mapInsert (some ht) key (some obj)).2 = some ht' ∧
      ∀ a, mapLookup (some ht') a =
        (mapLookup (some ht) a).or (if a = key then some obj else none) := by
  cases hkey : mapLookup (some ht) key with
  | some obj' =>
    refine ⟨ht, by rw [mapInsert_refused (.inr (by rw [hkey]; rfl))], fun a => ?_⟩
    split_ifs with ha
    · rw [ha, hkey]
      rfl
    · rw [Option.or_none]
  | none =>
    obtain ⟨ht', hinsert, -, hlookup⟩ := mapInsert_absent hkey obj
    refine ⟨ht', by rw [hinsert], fun a => ?_⟩
    rw [hlookup]
    split_ifs with ha
    · rw [ha, hkey]
      rfl
    · rw [Option.or_none]

variable (funcs immVal name ht) in
/-- The scan takes the last name, and leaves the first in the table. -/
theorem foldl_scanStep : ∃ ht', funcs.foldl (scanStep immVal) (name, some ht) =
      ((scanned funcs immVal).or name, some ht') ∧
    ∀ a, mapLookup (some ht') a = (mapLookup (some ht) a).or
      (if a = immVal then stored funcs immVal else none) := by
  induction funcs generalizing name ht with
  | nil => exact ⟨ht, rfl, fun a => by simp [stored]⟩
  | cons f funcs ih =>
    rw [List.foldl_cons, scanned_cons, stored_cons]
    by_cases hf : immVal = f.addr
    · obtain ⟨ht₁, hinsert, hlookup₁⟩ := mapLookup_mapInsert ht immVal f.funcName
      obtain ⟨ht', hfold, hlookup⟩ := ih ht₁ (some f.funcName)
      refine ⟨ht', ?_, fun a => ?_⟩
      · rw [scanStep, if_pos hf, hinsert, hfold, if_pos hf, Option.or_assoc, Option.some_or]
      · rw [hlookup, hlookup₁, Option.or_assoc, if_pos hf]
        split_ifs
        · rfl
        · rfl
    · rw [scanStep, if_neg hf, if_neg hf, Option.or_none, Option.none_or]
      exact ih ht name

/-- Without a table every call is scanned. -/
theorem foldl_scanStep_none :
    funcs.foldl (scanStep immVal) (name, none) = ((scanned funcs immVal).or name, none) := by
  induction funcs generalizing name with
  | nil => rfl
  | cons f funcs ih =>
    rw [List.foldl_cons, scanned_cons]
    by_cases hf : immVal = f.addr
    · rw [scanStep, if_pos hf, if_pos hf, Option.or_assoc, Option.some_or]
      exact ih
    · rw [scanStep, if_neg hf, if_neg hf, Option.or_none, ih]

end Scan

/-! ## The names of all calls -/

section Names

variable {funcs : List FuncEntry} {insns : List Insn}

/-- What the table holds after calls to some targets. -/
def Holds (funcs : List FuncEntry) (seen : List (Option Addr)) (ht : Hashmap (List Char)) : Prop :=
  ∀ a, mapLookup (some ht) a = if seen.elem (some a) then stored funcs a else none

theorem funcNameOf_eq {ht : Hashmap (List Char)} {seen : List (Option Addr)} {a : Addr}
    (hseen : Holds funcs seen ht) :
    ∃ ht', funcNameOf funcs (some ht) a =
        (if seen.elem (some a) then stored funcs a else scanned funcs a, some ht') ∧
      Holds funcs (some a :: seen) ht' := by
  unfold funcNameOf
  cases hlookup : mapLookup (some ht) a with
  | some name =>
    rw [hseen] at hlookup
    split_ifs at hlookup with hmem
    refine ⟨ht, by rw [if_pos hmem, hlookup], fun a' => ?_⟩
    rw [hseen]
    by_cases ha : a' = a
    · rw [ha, if_pos hmem, if_pos (List.elem_cons_self)]
    · simp [ha]
  | none =>
    obtain ⟨ht', hfold, hlookup'⟩ := foldl_scanStep funcs a ht none
    refine ⟨ht', ?_, fun a' => ?_⟩
    · dsimp only
      rw [hfold, Option.or_none]
      rw [hseen] at hlookup
      split_ifs at hlookup ⊢ with hmem
      · rw [hlookup, scanned_eq_none_iff.mpr hlookup]
      · rfl
    · rw [hlookup']
      by_cases ha : a' = a
      · rw [ha, hlookup, if_pos rfl, if_pos List.elem_cons_self, Option.none_or]
      · rw [hseen, if_neg ha, Option.or_none]
        simp [ha]

/-- The names with a table: the first call to a target is scanned, the others are stored. -/
theorem nameCalls_eq_answers {ht : Hashmap (List Char)} {seen : List (Option Addr)}
    (hseen : Holds funcs seen ht) : nameCalls funcs (some ht) insns =
      Memo.answers (·.bind (scanned funcs)) (·.bind (stored funcs)) seen
        (insns.map Insn.callTarget) := by
  induction insns generalizing ht seen with
  | nil => rfl
  | cons insn insns ih =>
    rw [nameCalls, List.map_cons, Memo.answers]
    cases htarget : insn.callTarget with
    | none =>
      have hnone : Holds funcs (none :: seen) ht := fun a => by
        rw [hseen a]
        simp
      dsimp only
      rw [ih hnone, Option.bind_none, Option.bind_none, ite_self]
    | some a =>
      obtain ⟨ht', hname, hholds⟩ := funcNameOf_eq (a := a) hseen
      dsimp only
      rw [hname]
      dsimp only
      rw [ih hholds]
      rfl

theorem nameCalls_none :
    nameCalls funcs none insns = insns.map fun insn => insn.callTarget.bind (scanned funcs) := by
  induction insns with
  | nil => rfl
  | cons insn insns ih =>
    rw [nameCalls, List.map_cons]
    cases insn.callTarget with
    | none =>
      dsimp only
      rw [ih]
      rfl
    | some a =>
      have hname : funcNameOf funcs none a = (scanned funcs a, none) := by
        unfold funcNameOf
        dsimp only [mapLookup]
        rw [foldl_scanStep_none, Option.or_none]
      dsimp only
      rw [hname]
      dsimp only
      rw [ih]
      rfl

/-- Every call shows what the scan alone gives exactly where there is no table, or the functions at
an address that is called more than once agree in their first and last name. A table of
`2 ^ 32 - 1` entries is none that can be used. -/
theorem callNames_scanned_iff (funcs : List FuncEntry) (insns : List Insn) :
    callNames funcs insns = .ok (insns.map fun insn => insn.callTarget.bind (scanned funcs)) ↔
      BitVec.ofNat 32 funcs.length ≠ BitVec.allOnes 32 ∧
      (BitVec.ofNat 32 funcs.length = 0 ∨
        ∀ a, 2 ≤ (insns.map Insn.callTarget).count (some a) →
          stored funcs a = scanned funcs a) := by
  unfold callNames initFuncsMap
  split_ifs with hones
  · exact iff_of_false (fun h => by cases h) fun h => h.1 hones
  · rw [ok_bind, and_iff_right hones]
    by_cases hzero : BitVec.ofNat 32 funcs.length = 0
    · refine iff_of_true ?_ (.inl hzero)
      rw [mapInit, if_pos hzero, nameCalls_none]
      rfl
    · obtain ⟨ht, hinit, -, -, hempty⟩ := mapInit_of_ne (α := List Char) hzero hones false
      have hholds : Holds funcs [] ht := fun a => by
        rw [hempty a]
        simp
      rw [hinit, nameCalls_eq_answers hholds, or_iff_right hzero]
      have hmap : (insns.map fun insn => insn.callTarget.bind (scanned funcs)) =
          (insns.map Insn.callTarget).map (·.bind (scanned funcs)) := by
        rw [List.map_map]
        rfl
      rw [hmap]
      have hmemo : Memo.answers (·.bind (scanned funcs)) (·.bind (stored funcs)) []
            (insns.map Insn.callTarget) =
          (insns.map Insn.callTarget).map (·.bind (scanned funcs)) ↔ _ :=
        Memo.answers_eq_map_iff
      refine Iff.trans (Iff.of_eq (Except.ok.injEq _ _)) (hmemo.trans ⟨fun h a => h (some a), ?_⟩)
      rintro h (_ | a) hcount
      · rfl
      · exact h a hcount

/-- Two calls to a function with two names. -/
theorem callNames_alias :
    callNames [⟨['f'], 0x1000, 16⟩, ⟨['g'], 0x1000, 16⟩]
        [⟨"call".toList, "0x1000".toList, [.imm]⟩, ⟨"call".toList, "0x1000".toList, [.imm]⟩] =
      .ok [some ['g'], some ['f']] := by
  decide +kernel

end Names

end Vdbg
