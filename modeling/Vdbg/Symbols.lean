import Mathlib.Data.BitVec

/-!
# Symbols and line tables

What `symbols.c` reads of an executable through libelf and libdw, and the searches it makes over
it. `Symbols` is the file itself; `Dwfl` is the view libdwfl has of the running process, which
`setup_dwfl` fills once for each process. The answers of the libraries are data here.
-/

namespace Vdbg

/-- A source line as `dwfl_lineinfo` gives it. -/
structure SrcLine where
  file : Option String
  line : ℕ
  compDir : Option String
  outdated : Bool
deriving DecidableEq, Repr

/-- A `DW_TAG_subprogram` DIE. Declarations and inlined functions have no range of their own. -/
structure FuncDie where
  name : Option String
  lowpc : Option (BitVec 64)
  highpc : Option (BitVec 64)
deriving DecidableEq, Repr

/-- A compilation unit. -/
structure Cu where
  name : Option String
  funcs : List FuncDie
deriving DecidableEq, Repr

/-- libdwfl's view of the tracee (`dwfl_data_proc`). -/
structure Dwfl where
  /-- Whether `dwfl_addrmodule` finds a module. -/
  addrmodule : BitVec 64 → Bool
  /-- `dwfl_module_getsrc` -/
  getsrc : BitVec 64 → Option SrcLine
  /-- `dwfl_module_addrdie` -/
  addrdie : BitVec 64 → Option Cu
  /-- What `func_start` and `func_end` hold on the `i`-th use before they are set. -/
  junkRange : ℕ → BitVec 64 × BitVec 64

/-- A view without modules. -/
def Dwfl.empty : Dwfl := ⟨fun _ => false, fun _ => none, fun _ => none, fun _ => (0, 0)⟩

/-- The executable (`elf_data`, `dwfl_data_offline` and the caches over them). -/
structure Symbols where
  /-- `e_type == ET_DYN` -/
  isDyn : Bool
  hasDwarf : Bool
  /-- `get_valid_func_symbols`: names and addresses. -/
  functions : List (String × BitVec 64)
  /-- The names of the compilation units, in the order of `dwfl_nextcu`. -/
  units : List String
  /-- `dwfl_module_getsrc_file` for a file and a line, the bias taken off. -/
  getsrcFile : String → ℤ → List (BitVec 64)

/-- A stripped executable at a fixed address. -/
def Symbols.stripped : Symbols := ⟨false, false, [], [], fun _ _ => []⟩

/-- `get_addr_from_lineno`: the file it settles on and the address, unless it returns 0. -/
def getAddrFromLineno (syms : Symbols) (file : Option String) (lineno : ℤ) :
    Option (String × BitVec 64) := do
  let name ← match file with
    | none => syms.units.head?
    | some f => syms.units.find? (· = f)
  let addr ← (syms.getsrcFile name lineno).head?
  if addr = 0 then none else some (name, addr)

/-- `function_die_callback`: whether the range of the DIE holds the address, a missing bound being
what the local variable held before. -/
def functionDieCallback (junk : BitVec 64 × BitVec 64) (addr : BitVec 64) (die : FuncDie) : Bool :=
  let funcStart := die.lowpc.getD junk.1
  let funcEnd := die.highpc.getD junk.2
  addr ≥ funcStart && addr < funcEnd

/-- `dwarf_getfuncs` with `function_die_callback`, from the `i`-th call on. -/
def getfuncs (junk : ℕ → BitVec 64 × BitVec 64) (addr : BitVec 64) : ℕ → List FuncDie → Option FuncDie
  | _, [] => none
  | i, die :: dies =>
    if functionDieCallback (junk i) addr die then some die else getfuncs junk addr (i + 1) dies

end Vdbg
