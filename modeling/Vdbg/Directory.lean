import Vdbg.Lib.Columns
import Vdbg.Text

/-!
# The files of the current directory

`list_current_dir`, which prints the names of the files in columns. `display_length` says how long a
name will be, and `print_filename` prints it with its control characters escaped. They disagree on
the escape character alone (`length_printFilename`). The columns have a cell for every file, so each
is printed and freed once, as long as the indices of the cells fit into an `int`.
-/

namespace Vdbg

open FaultRun Columns

/-! ## Names -/

/-- What a character of a name adds to `display_length`. -/
def displayWidth (c : Char) : ℕ :=
  if c = '\n' ∨ c = '\t' ∨ c = '\r' ∨ c = '\x08' ∨ c = '\\' ∨ c = '\x1b' then 2
  else if c.toNat < 0x20 ∨ c.toNat = 0x7f then 4
  else 1

/-- `display_length` -/
def displayLength : List Char → ℕ
  | [] => 0
  | c :: name => displayWidth c + displayLength name

/-- What `print_filename` prints for a character. -/
def printedAs (c : Char) : List Char :=
  if c = '\n' then "\\n".toList
  else if c = '\t' then "\\t".toList
  else if c = '\r' then "\\r".toList
  else if c = '\x08' then "\\b".toList
  else if c = '\\' then "\\\\".toList
  else if c.toNat < 0x20 ∨ c.toNat = 0x7f then
    "\\x".toList ++ fmtPadHex 2 (BitVec.ofNat 64 c.toNat)
  else [c]

/-- `print_filename` -/
def printFilename : List Char → List Char
  | [] => []
  | c :: name => printedAs c ++ printFilename name

theorem length_toDigits_le : ∀ n < 0x80, (Nat.toDigits 16 n).length ≤ 2 := by decide

theorem length_fmtPadHex_two {n : ℕ} (hn : n < 0x80) :
    (fmtPadHex 2 (BitVec.ofNat 64 n)).length = 2 := by
  have hle : (fmtHex (BitVec.ofNat 64 n)).length ≤ 2 := by
    unfold fmtHex
    rw [BitVec.toNat_ofNat, Nat.mod_eq_of_lt (by omega)]
    exact length_toDigits_le n hn
  unfold fmtPadHex
  rw [List.length_append, List.length_replicate]
  omega

/-- The two tables agree but for the escape character. -/
theorem length_printedAs (c : Char) :
    (printedAs c).length = displayWidth c + if c = '\x1b' then 2 else 0 := by
  by_cases hshort : c = '\n' ∨ c = '\t' ∨ c = '\r' ∨ c = '\x08' ∨ c = '\\' ∨ c = '\x1b'
  · rcases hshort with rfl | rfl | rfl | rfl | rfl | rfl <;> rfl
  · have hwidth : displayWidth c = if c.toNat < 0x20 ∨ c.toNat = 0x7f then 4 else 1 :=
      if_neg hshort
    simp only [not_or] at hshort
    obtain ⟨hnewline, htab, hreturn, hback, hslash, hesc⟩ := hshort
    rw [hwidth, printedAs, if_neg hnewline, if_neg htab, if_neg hreturn, if_neg hback,
      if_neg hslash, if_neg hesc]
    split_ifs with hcontrol
    · rw [List.length_append, length_fmtPadHex_two (by omega)]
      rfl
    · rfl

theorem length_printFilename (name : List Char) :
    (printFilename name).length = displayLength name + 2 * name.count '\x1b' := by
  induction name with
  | nil => rfl
  | cons c name ih =>
    rw [printFilename, displayLength, List.length_append, ih, length_printedAs, List.count_cons]
    by_cases hesc : c = '\x1b'
    · simp only [hesc, if_true, beq_self_eq_true]
      omega
    · simp only [if_neg hesc, beq_iff_eq]
      omega

/-- `display_length` is right for the names without an escape character. -/
theorem displayLength_eq_iff {name : List Char} :
    displayLength name = (printFilename name).length ↔ '\x1b' ∉ name := by
  rw [length_printFilename, ← List.count_eq_zero]
  omega

/-! ## The columns -/

/-- `struct dirent`: a name, which with its null fits into the 256 bytes of `d_name`, and whether it
is the name of a directory. -/
structure Dirent where
  name : List Char
  isDir : Bool
  fits : name.length < 256

/-- What `scandir` returns: the entries, whose number is an `int`. -/
structure Scanned where
  entries : List Dirent
  count_int : entries.length < 2 ^ 31

/-- Why `list_current_dir` does not return. -/
inductive LayoutFault where
  /-- `CRITICAL` -/
  | critical
  /-- A value that is no `int`. -/
  | overflow
  | divisionByZero
  /-- An index past the entries. -/
  | outOfBounds
deriving DecidableEq, Repr

/-- What `list_current_dir` does. -/
inductive Listed where
  /-- The cursor is moved to a column, which are numbered from 1. -/
  | column (pos : ℤ)
  /-- The entry at an index is printed, in `BWHT` if it is a directory. -/
  | entry (index : ℕ) (bold : Bool) (text : List Char)
  | newline
  /-- `free(entries[index])` -/
  | free (index : ℕ)
  /-- `free(entries)` -/
  | freeEntries
deriving DecidableEq, Repr

/-- A value that is computed as an `int`. -/
def int (z : ℤ) : Except LayoutFault ℤ :=
  if -2 ^ 31 ≤ z ∧ z < 2 ^ 31 then .ok z else .error .overflow

/-- The conversion of a `size_t` to an `int`. -/
def intOfSize (n : ℕ) : ℤ := (BitVec.ofNat 32 n).toInt

/-- An entry printed and freed. -/
def listEntry (index : ℕ) (e : Dirent) : List Listed :=
  [.entry index e.isDir (printFilename e.name ++ if e.isDir then "/ ".toList else "  ".toList),
    .free index]

section Layout

variable (dir : Scanned) (columnLen : ℤ) (rows : ℕ)

/-- The loop over the columns of a row, with `k` of them left. -/
def listRow (r : ℕ) : ℕ → ℕ → Except LayoutFault (List Listed)
  | 0, _ => .ok []
  | k + 1, c => do
    let colPos ← int (c * columnLen + 1)
    let index ← int (c * rows + r)
    if index ≥ dir.entries.length then return [.column colPos]
    match dir.entries[index.toNat]? with
    | none => .error .outOfBounds
    | some e => return .column colPos :: listEntry index.toNat e ++ (← listRow r k (c + 1))

/-- The loop over the rows. -/
def listRows (cols : ℕ) : List ℕ → Except LayoutFault (List Listed)
  | [] => .ok []
  | r :: rs => do return (← listRow dir columnLen rows r cols 0) ++ .newline :: (← listRows cols rs)

end Layout

/-- `no_of_columns` -/
def noOfColumns (width columnLen : ℤ) : ℕ :=
  if width.tdiv columnLen < 1 then 1 else (width.tdiv columnLen).toNat

/-- `no_of_rows` -/
def noOfRows (filesCount noOfColumns : ℕ) : ℕ :=
  filesCount / noOfColumns + if filesCount % noOfColumns ≠ 0 then 1 else 0

/-- The layout of `list_current_dir` for a terminal of so many columns, which are an
`unsigned short`. -/
def listColumns (dir : Scanned) (width : BitVec 16) (maxLen : ℕ) :
    Except LayoutFault (List Listed) := do
  let columnLen ← int (intOfSize maxLen + 2)
  if columnLen = 0 then .error .divisionByZero
  let cols := noOfColumns width.toNat columnLen
  let rows := noOfRows dir.entries.length cols
  return (← listRows dir columnLen rows cols (List.range rows)) ++ [.freeEntries]

/-- The greatest `display_length` of the names. -/
def maxLength : List Dirent → ℕ → ℕ
  | [], maxLen => maxLen
  | e :: entries, maxLen =>
    let len := displayLength e.name
    maxLength entries (if len > maxLen then len else maxLen)

/-- The entries in a single column, with their names as they are. -/
def listSingle (entries : List Dirent) : List Listed :=
  entries.zipIdx.flatMap fun (e, i) => [.entry i false e.name, .newline, .free i]

/-- `list_current_dir`. There is no width where the output is no terminal. -/
def listCurrentDir (scandir : Option Scanned) (width : Option (BitVec 16)) :
    Except LayoutFault (List Listed) :=
  match scandir with
  | none => .ok []
  | some dir =>
    if dir.entries = [] then .ok []
    else
      match width with
      | none => .ok (listSingle dir.entries ++ [.freeEntries])
      | some width =>
        let maxLen := maxLength dir.entries 0
        if maxLen = 0 then .error .critical else listColumns dir width maxLen

/-! ## Every entry once -/

/-- The indices of the entries that are printed. -/
def printed (out : List Listed) : List ℕ :=
  out.filterMap fun
    | .entry index _ _ => some index
    | _ => none

/-- The indices of the entries that are freed. -/
def freed (out : List Listed) : List ℕ :=
  out.filterMap fun
    | .free index => some index
    | _ => none

/-- Each of the entries is printed exactly once and freed exactly once, and nothing else is. -/
def EachOnce (dir : Scanned) (r : Except LayoutFault (List Listed)) : Prop :=
  ∃ out, r = .ok out ∧ (printed out).Perm (List.range dir.entries.length) ∧
    (freed out).Perm (List.range dir.entries.length)

theorem printed_append (out out' : List Listed) :
    printed (out ++ out') = printed out ++ printed out' :=
  List.filterMap_append

theorem freed_append (out out' : List Listed) : freed (out ++ out') = freed out ++ freed out' :=
  List.filterMap_append

theorem int_eq_ok {z z' : ℤ} : int z = .ok z' ↔ (-2 ^ 31 ≤ z ∧ z < 2 ^ 31) ∧ z = z' := by
  unfold int
  split_ifs with h
  · rw [and_iff_right h]
    exact ⟨Except.ok.inj, congrArg _⟩
  · exact iff_of_false nofun fun h' => h h'.1

theorem noOfColumns_pos (width columnLen : ℤ) : 0 < noOfColumns width columnLen := by
  unfold noOfColumns
  split_ifs <;> omega

/-- The cells of the grid suffice for the entries. -/
theorem le_cells {n cols : ℕ} (hcols : 0 < cols) : n ≤ cols * noOfRows n cols := by
  unfold noOfRows
  have hdiv := Nat.div_add_mod n cols
  have hlt := Nat.mod_lt n hcols
  rw [Nat.mul_add]
  split_ifs <;> omega

section Rows

variable {dir : Scanned} {columnLen : ℤ} {rows cols r k c : ℕ} {out : List Listed}

/-- The positions of the columns are `int`s. -/
def Columnar (columnLen : ℤ) (cols : ℕ) : Prop :=
  ∀ c : ℕ, c < cols → -2 ^ 31 ≤ c * columnLen + 1 ∧ c * columnLen + 1 < 2 ^ 31

/-- The indices that are computed in a row: up to the first past the entries. -/
def Computed (n rows r k c c' : ℕ) : Prop :=
  c ≤ c' ∧ c' < c + k ∧ (c < c' → (c' - 1) * rows + r < n)

/-- A row is printed if the indices that are computed for it are `int`s. -/
theorem listRow_ok (hcols : Columnar columnLen (c + k))
    (hints : ∀ c', Computed dir.entries.length rows r k c c' → c' * rows + r < 2 ^ 31) :
    ∃ out, listRow dir columnLen rows r k c = .ok out ∧
      printed out = row dir.entries.length rows r k c ∧
      freed out = row dir.entries.length rows r k c := by
  induction k generalizing c with
  | zero => exact ⟨[], rfl, rfl, rfl⟩
  | succ k ih =>
    have hpos : int (c * columnLen + 1) = .ok (c * columnLen + 1) :=
      int_eq_ok.mpr ⟨hcols c (by omega), rfl⟩
    have hlt : c * rows + r < 2 ^ 31 := hints c ⟨le_rfl, by omega, by omega⟩
    have hindex : int (c * rows + r) = .ok ((c * rows + r : ℕ) : ℤ) := by
      rw [int_eq_ok]
      push_cast
      omega
    rw [listRow, hpos, ok_bind, hindex, ok_bind, row]
    by_cases hitem : c * rows + r < dir.entries.length
    · obtain ⟨out, hout, hprinted, hfreed⟩ := ih (c := c + 1) (by rwa [Nat.add_right_comm])
        fun c' hc' => hints c' ⟨by have := hc'.1; omega, by have := hc'.2.1; omega, fun _ => by
          rcases hc'.1.eq_or_lt with rfl | hlt'
          · exact hitem
          · exact hc'.2.2 hlt'⟩
      rw [if_neg (by omega), if_pos hitem, Int.toNat_natCast, List.getElem?_eq_getElem hitem, hout]
      refine ⟨_, rfl, ?_, ?_⟩
      · exact congrArg _ hprinted
      · exact congrArg _ hfreed
    · rw [if_pos (by omega), if_neg hitem]
      exact ⟨_, rfl, rfl, rfl⟩

/-- In a row that is printed the indices that are computed are `int`s. -/
theorem listRow_ints (hok : listRow dir columnLen rows r k c = .ok out) (c' : ℕ)
    (hc' : Computed dir.entries.length rows r k c c') : c' * rows + r < 2 ^ 31 := by
  induction k generalizing c out with
  | zero =>
    obtain ⟨hle, hlt, -⟩ := hc'
    omega
  | succ k ih =>
    obtain ⟨hle, hlt, hbefore⟩ := hc'
    rw [listRow] at hok
    obtain ⟨colPos, -, hok⟩ := bind_eq_ok.mp hok
    obtain ⟨index, hindex, hok⟩ := bind_eq_ok.mp hok
    obtain ⟨⟨-, hint⟩, rfl⟩ := int_eq_ok.mp hindex
    rcases hle.eq_or_lt with rfl | hlt'
    · omega
    · have hmono : c * rows ≤ (c' - 1) * rows := Nat.mul_le_mul_right rows (by omega)
      have hitem : c * rows + r < dir.entries.length := by
        have := hbefore hlt'
        omega
      rw [if_neg (by omega)] at hok
      split at hok
      · cases hok
      · obtain ⟨out', hrest, -⟩ := bind_eq_ok.mp hok
        exact ih hrest ⟨hlt', by omega, fun _ => hbefore hlt'⟩

theorem listRows_ok {rs : List ℕ} (hcols : Columnar columnLen cols)
    (hints : ∀ r ∈ rs, ∀ c', Computed dir.entries.length rows r cols 0 c' →
      c' * rows + r < 2 ^ 31) :
    ∃ out, listRows dir columnLen rows cols rs = .ok out ∧
      printed out = rs.flatMap (fun r => row dir.entries.length rows r cols 0) ∧
      freed out = rs.flatMap (fun r => row dir.entries.length rows r cols 0) := by
  induction rs with
  | nil => exact ⟨[], rfl, rfl, rfl⟩
  | cons r rs ih =>
    rw [List.forall_mem_cons] at hints
    obtain ⟨out, hout, hprinted, hfreed⟩ :=
      listRow_ok (by rwa [Nat.zero_add]) hints.1
    obtain ⟨out', hout', hprinted', hfreed'⟩ := ih hints.2
    refine ⟨out ++ .newline :: out', ?_, ?_, ?_⟩
    · rw [listRows, hout, hout']
      rfl
    · rw [printed_append, List.flatMap_cons, hprinted, ← hprinted']
      rfl
    · rw [freed_append, List.flatMap_cons, hfreed, ← hfreed']
      rfl

theorem listRows_ints {rs : List ℕ} (hok : listRows dir columnLen rows cols rs = .ok out) (c' : ℕ)
    (hr : r ∈ rs) (hc' : Computed dir.entries.length rows r cols 0 c') :
    c' * rows + r < 2 ^ 31 := by
  induction rs generalizing out with
  | nil => cases hr
  | cons r' rs ih =>
    rw [listRows] at hok
    obtain ⟨out', hrow, hok⟩ := bind_eq_ok.mp hok
    obtain ⟨out'', hrows, -⟩ := bind_eq_ok.mp hok
    rcases List.mem_cons.mp hr with rfl | hr
    · exact listRow_ints hrow c' hc'
    · exact ih hrows hr

end Rows

/-- The columns of a terminal are in reach of an `int`. -/
theorem columnar_noOfColumns (width : BitVec 16) (columnLen : ℤ) :
    Columnar columnLen (noOfColumns width.toNat columnLen) := by
  have hwidth := width.isLt
  intro c hc
  unfold noOfColumns at hc
  split_ifs at hc with hone
  · obtain rfl : c = 0 := by omega
    omega
  · have hpos : 0 < columnLen := by
      by_contra hneg
      have hle := Int.tdiv_nonpos_of_nonneg_of_nonpos (Int.natCast_nonneg width.toNat)
        (not_lt.mp hneg)
      omega
    have hfit : (width.toNat : ℤ).tdiv columnLen * columnLen ≤ width.toNat := by
      rw [Int.tdiv_eq_ediv_of_nonneg (Int.natCast_nonneg _)]
      exact Int.ediv_mul_le _ hpos.ne'
    have hmul : (c : ℤ) * columnLen ≤ (width.toNat : ℤ).tdiv columnLen * columnLen :=
      Int.mul_le_mul_of_nonneg_right (by omega) hpos.le
    have hnonneg : 0 ≤ (c : ℤ) * columnLen := Int.mul_nonneg (Int.natCast_nonneg c) hpos.le
    omega

theorem noOfRows_le {n cols : ℕ} (hcols : 0 < cols) : noOfRows n cols ≤ n := by
  unfold noOfRows
  have hdiv := Nat.div_add_mod n cols
  have hle : n / cols ≤ cols * (n / cols) := Nat.le_mul_of_pos_left _ hcols
  split_ifs <;> omega

/-- The indices that are computed are those below `rows` past the entries, and of the grid. -/
theorem ints_iff {n rows cols : ℕ} (hrows : rows ≤ n) :
    (∀ r ∈ List.range rows, ∀ c', Computed n rows r cols 0 c' → c' * rows + r < 2 ^ 31) ↔
      min (n + rows) (cols * rows) ≤ 2 ^ 31 := by
  constructor
  · intro hints
    by_contra hmin
    obtain ⟨hpast, hgrid⟩ := lt_min_iff.mp (not_le.mp hmin)
    have hpos : 0 < rows := Nat.pos_of_mul_pos_left (Nat.zero_lt_of_lt hgrid)
    -- the cell of the index `2 ^ 31`
    have hcell := Nat.div_add_mod' (2 ^ 31) rows
    have hcol : 2 ^ 31 / rows < cols := Nat.div_lt_of_lt_mul (Nat.mul_comm cols rows ▸ hgrid)
    have hrow : 2 ^ 31 % rows < rows := Nat.mod_lt _ hpos
    generalize 2 ^ 31 / rows = c, 2 ^ 31 % rows = r at hcell hcol hrow
    have hbefore : c * rows - rows + r < n := by omega
    rw [← Nat.sub_one_mul] at hbefore
    have hlt := hints r (List.mem_range.mpr hrow) c ⟨Nat.zero_le _, by omega, fun _ => hbefore⟩
    omega
  · intro hmin r hr c' hc'
    have hr := List.mem_range.mp hr
    have hgrid : c' * rows + r < cols * rows := by
      have hle : (c' + 1) * rows ≤ cols * rows := Nat.mul_le_mul_right rows (by
        have := hc'.2.1
        omega)
      rw [Nat.add_one_mul] at hle
      omega
    have hpast : c' * rows + r < n + rows := by
      rcases Nat.eq_zero_or_pos c' with rfl | hpos
      · omega
      · have hbefore := hc'.2.2 hpos
        rw [Nat.sub_one_mul] at hbefore
        omega
    exact (lt_min hpast hgrid).trans_le hmin

/-- **The columns.** The entries are printed and freed once each exactly if the length of a column
is an `int` and not 0, and so are the indices of the grid up to those past the entries. -/
theorem listColumns_eachOnce_iff (dir : Scanned) (width : BitVec 16) (maxLen : ℕ) :
    EachOnce dir (listColumns dir width maxLen) ↔
      intOfSize maxLen + 2 < 2 ^ 31 ∧ intOfSize maxLen + 2 ≠ 0 ∧
        min (dir.entries.length +
            noOfRows dir.entries.length (noOfColumns width.toNat (intOfSize maxLen + 2)))
          (noOfColumns width.toNat (intOfSize maxLen + 2) *
            noOfRows dir.entries.length (noOfColumns width.toNat (intOfSize maxLen + 2))) ≤
          2 ^ 31 := by
  generalize hlen : intOfSize maxLen + 2 = columnLen
  have hlow : -2 ^ 31 ≤ columnLen := by
    have := BitVec.le_toInt (BitVec.ofNat 32 maxLen)
    unfold intOfSize at hlen
    omega
  have hcolumnar := columnar_noOfColumns width columnLen
  generalize hcols : noOfColumns width.toNat columnLen = cols at hcolumnar ⊢
  have hpos : 0 < cols := hcols ▸ noOfColumns_pos _ _
  rw [← ints_iff (noOfRows_le hpos)]
  constructor
  · rintro ⟨out, hout, -, -⟩
    unfold listColumns at hout
    rw [hlen] at hout
    obtain ⟨columnLen', hint, hout⟩ := bind_eq_ok.mp hout
    obtain ⟨⟨-, hlt⟩, rfl⟩ := int_eq_ok.mp hint
    split at hout
    · cases hout
    rename_i hne
    dsimp only at hout
    rw [hcols] at hout
    obtain ⟨out', hrows, -⟩ := bind_eq_ok.mp hout
    exact ⟨hlt, hne, fun r hr c' hc' => listRows_ints hrows c' hr hc'⟩
  · rintro ⟨hlt, hne, hints⟩
    obtain ⟨out, hrows, hprinted, hfreed⟩ := listRows_ok hcolumnar hints
    refine ⟨out ++ [.freeEntries], ?_, ?_, ?_⟩
    · unfold listColumns
      rw [hlen, int_eq_ok.mpr ⟨⟨hlow, hlt⟩, rfl⟩, ok_bind, if_neg hne]
      dsimp only
      rw [hcols, hrows]
      rfl
    · rw [printed_append, hprinted]
      exact (List.append_nil _).symm ▸ cells_perm (le_cells hpos)
    · rw [freed_append, hfreed]
      exact (List.append_nil _).symm ▸ cells_perm (le_cells hpos)

/-! ## The longest name -/

theorem displayWidth_le (c : Char) : displayWidth c ≤ 4 := by
  unfold displayWidth
  split_ifs <;> omega

theorem displayLength_le (name : List Char) : displayLength name ≤ 4 * name.length := by
  induction name with
  | nil => exact le_rfl
  | cons c name ih =>
    have hc := displayWidth_le c
    rw [displayLength, List.length_cons]
    omega

theorem le_maxLength_start (entries : List Dirent) (m : ℕ) : m ≤ maxLength entries m := by
  induction entries generalizing m with
  | nil => exact le_rfl
  | cons e entries ih =>
    refine le_trans ?_ (ih _)
    split_ifs <;> omega

theorem le_maxLength {entries : List Dirent} {e : Dirent} (he : e ∈ entries) (m : ℕ) :
    displayLength e.name ≤ maxLength entries m := by
  induction entries generalizing m with
  | nil => cases he
  | cons e' entries ih =>
    rcases List.mem_cons.mp he with rfl | he
    · refine le_trans ?_ (le_maxLength_start entries _)
      split_ifs <;> omega
    · exact ih he _

theorem maxLength_le {entries : List Dirent} {m l : ℕ} (hm : m ≤ l)
    (hall : ∀ e ∈ entries, displayLength e.name ≤ l) : maxLength entries m ≤ l := by
  induction entries generalizing m with
  | nil => exact hm
  | cons e entries ih =>
    rw [List.forall_mem_cons] at hall
    refine ih ?_ hall.2
    split_ifs
    · exact hall.1
    · exact hm

theorem maxLength_lt (entries : List Dirent) : maxLength entries 0 < 2 ^ 10 := by
  have hle : maxLength entries 0 ≤ 4 * 255 := maxLength_le (Nat.zero_le _) fun e _ => by
    have hlen := displayLength_le e.name
    have hfits := e.fits
    omega
  omega

theorem intOfSize_of_lt {n : ℕ} (hn : n < 2 ^ 31) : intOfSize n = n := by
  unfold intOfSize
  have htoNat : (BitVec.ofNat 32 n).toNat = n := by
    rw [BitVec.toNat_ofNat]
    exact Nat.mod_eq_of_lt (by omega)
  rw [BitVec.toInt_eq_toNat_of_lt (by omega), htoNat]

/-- The names that the numbers below `2 ^ 31` spell with two letters. -/
def twoLetters (i : ℕ) : Dirent where
  name := (List.range 31).map fun j => if i.testBit j then 'b' else 'a'
  isDir := false
  fits := by
    rw [List.length_map]
    decide

/-- A directory of so many files. -/
def twoLetterFiles (n : ℕ) (hn : n < 2 ^ 31) : Scanned where
  entries := (List.range n).map twoLetters
  count_int := by rwa [List.length_map, List.length_range]

theorem displayLength_twoLetters (i : ℕ) : displayLength (twoLetters i).name = 31 := by
  have hletters : ∀ js : List ℕ,
      displayLength (js.map fun j => if i.testBit j then 'b' else 'a') = js.length := by
    intro js
    induction js with
    | nil => rfl
    | cons j js ih =>
      rw [List.map_cons, displayLength, ih, List.length_cons, Nat.add_comm]
      split_ifs <;> rfl
  exact hletters _

theorem length_twoLetterFiles {n : ℕ} (hn : n < 2 ^ 31) :
    (twoLetterFiles n hn).entries.length = n :=
  (List.length_map _).trans List.length_range

theorem listCurrentDir_twoLetterFiles {n : ℕ} (hn : n < 2 ^ 31) (hpos : 0 < n)
    (width : BitVec 16) : listCurrentDir (some (twoLetterFiles n hn)) (some width) =
      listColumns (twoLetterFiles n hn) width 31 := by
  have hall : ∀ e ∈ (twoLetterFiles n hn).entries, displayLength e.name = 31 := by
    intro e he
    obtain ⟨i, -, rfl⟩ := List.mem_map.mp he
    exact displayLength_twoLetters i
  have hmem : twoLetters 0 ∈ (twoLetterFiles n hn).entries :=
    List.mem_map_of_mem (List.mem_range.mpr hpos)
  have hmax : maxLength (twoLetterFiles n hn).entries 0 = 31 := by
    refine le_antisymm (maxLength_le (Nat.zero_le _) fun e he => (hall e he).le) ?_
    exact (hall _ hmem).symm ▸ le_maxLength hmem 0
  unfold listCurrentDir
  simp only
  rw [if_neg (List.ne_nil_of_mem hmem), hmax, if_neg (by decide)]

/-- With as many files as `scandir` can count, the last cell of three columns has the index
`2 ^ 31`. -/
theorem twoLetterFiles_overflow : ∃ hn : 2 ^ 31 - 1 < 2 ^ 31,
    ¬ EachOnce (twoLetterFiles (2 ^ 31 - 1) hn)
      (listCurrentDir (some (twoLetterFiles (2 ^ 31 - 1) hn)) (some 100)) := by
  refine ⟨by decide, ?_⟩
  rw [listCurrentDir_twoLetterFiles _ (by decide), listColumns_eachOnce_iff, length_twoLetterFiles]
  decide +kernel

/-! ## The next column -/

/-- With the cursor where it is in its row, no entry reaches into the column printed next. -/
def Apart : ℤ → List Listed → Prop
  | _, [] => True
  | cursor, .column pos :: out => cursor ≤ pos ∧ Apart pos out
  | cursor, .entry _ _ text :: out => Apart (cursor + text.length) out
  | _, .newline :: out => Apart 1 out
  | cursor, .free _ :: out => Apart cursor out
  | cursor, .freeEntries :: out => Apart cursor out

section Apart

variable {dir : Scanned} {columnLen cursor : ℤ} {rows cols r k c : ℕ} {out rest : List Listed}

theorem apart_listEntry {index : ℕ} {e : Dirent} : Apart cursor (listEntry index e ++ out) ↔
    Apart (cursor + ((printFilename e.name).length + 2 : ℕ)) out := by
  have hlen : (printFilename e.name ++ if e.isDir then "/ ".toList else "  ".toList).length =
      (printFilename e.name).length + 2 := by
    rw [List.length_append]
    split_ifs <;> rfl
  rw [← hlen]
  exact Iff.rfl

theorem listRow_apart
    (hlens : ∀ e ∈ dir.entries, ((printFilename e.name).length : ℤ) + 2 ≤ columnLen)
    (hok : listRow dir columnLen rows r k c = .ok out) (hcursor : cursor ≤ c * columnLen + 1)
    (hrest : Apart 1 rest) : Apart cursor (out ++ .newline :: rest) := by
  induction k generalizing c cursor out with
  | zero =>
    cases hok
    exact hrest
  | succ k ih =>
    rw [listRow] at hok
    obtain ⟨colPos, hpos, hok⟩ := bind_eq_ok.mp hok
    obtain ⟨-, rfl⟩ := int_eq_ok.mp hpos
    obtain ⟨index, -, hok⟩ := bind_eq_ok.mp hok
    split at hok
    · cases hok
      exact ⟨hcursor, hrest⟩
    split at hok
    · cases hok
    rename_i e he
    obtain ⟨out', hrow, hok⟩ := bind_eq_ok.mp hok
    cases hok
    have hlen := hlens e (List.mem_of_getElem? he)
    refine ⟨hcursor, ?_⟩
    show Apart (c * columnLen + 1) (listEntry index.toNat e ++ out' ++ .newline :: rest)
    rw [List.append_assoc, apart_listEntry]
    refine ih hrow ?_
    push_cast
    rw [add_mul]
    omega

theorem listRows_apart
    (hlens : ∀ e ∈ dir.entries, ((printFilename e.name).length : ℤ) + 2 ≤ columnLen)
    {rs : List ℕ} (hok : listRows dir columnLen rows cols rs = .ok out) (hrest : Apart 1 rest) :
    Apart 1 (out ++ rest) := by
  induction rs generalizing out with
  | nil =>
    cases hok
    exact hrest
  | cons r rs ih =>
    rw [listRows] at hok
    obtain ⟨out₁, hrow, hok⟩ := bind_eq_ok.mp hok
    obtain ⟨out₂, hrows, hok⟩ := bind_eq_ok.mp hok
    cases hok
    rw [List.append_assoc]
    exact listRow_apart hlens hrow (by simp) (ih hrows)

/-- In a single column no cursor is moved. -/
theorem listSingle_apart (entries : List (Dirent × ℕ)) (cursor : ℤ) :
    Apart cursor ((entries.flatMap fun (e, i) => [.entry i false e.name, .newline, .free i]) ++
      [.freeEntries]) := by
  induction entries generalizing cursor with
  | nil => exact trivial
  | cons e entries ih => exact ih 1

/-- **The widths.** `display_length` is right for all names, and no entry reaches into the next
column, exactly if there is no escape character in the names. -/
theorem displayLength_right_iff (dir : Scanned) (width : Option (BitVec 16)) :
    ((∀ e ∈ dir.entries, displayLength e.name = (printFilename e.name).length) ∧
        ∀ out, listCurrentDir (some dir) width = .ok out → Apart 1 out) ↔
      ∀ e ∈ dir.entries, '\x1b' ∉ e.name := by
  simp only [displayLength_eq_iff]
  refine and_iff_left_of_imp fun hnames out hout => ?_
  unfold listCurrentDir at hout
  simp only at hout
  split at hout
  · cases hout
    exact trivial
  cases width with
  | none =>
    cases hout
    exact listSingle_apart _ _
  | some width =>
    simp only at hout
    split at hout
    · cases hout
    unfold listColumns at hout
    obtain ⟨columnLen, hint, hout⟩ := bind_eq_ok.mp hout
    obtain ⟨-, rfl⟩ := int_eq_ok.mp hint
    split at hout
    · cases hout
    obtain ⟨out', hrows, hout⟩ := bind_eq_ok.mp hout
    cases hout
    refine listRows_apart (fun e he => ?_) hrows trivial
    have hmax := maxLength_lt dir.entries
    rw [intOfSize_of_lt (by omega), ← displayLength_eq_iff.mpr (hnames e he)]
    have hle := le_maxLength he 0
    omega

/-- A name of three escape characters, beside a shorter one. -/
def escapes : Scanned where
  entries := [⟨"\x1b\x1b\x1b".toList, false, by decide⟩, ⟨"b".toList, false, by decide⟩]
  count_int := by decide

/-- The name is taken for six characters and printed as twelve, past the second column. -/
theorem escapes_overlap : displayLength "\x1b\x1b\x1b".toList = 6 ∧
    (printFilename "\x1b\x1b\x1b".toList).length = 12 ∧
    ∃ out, listCurrentDir (some escapes) (some 80) = .ok out ∧ ¬ Apart 1 out := by
  refine ⟨rfl, rfl, _, rfl, ?_⟩
  rintro ⟨-, hle, -⟩
  exact absurd hle (by decide)

end Apart

end Vdbg
