import Vdbg.Listing
import Vdbg.Scripts
import Vdbg.Text

/-!
# The memory map

The two readers of `/proc/<pid>/maps`. `initialize_load_address` takes the load address from the
first line that begins with a range of addresses, which is the first mapping in every map the kernel
writes (`initializeLoadAddress_reads`). `print_memory_map` copies the file to the terminal without
looking at how much `write` took: the copy is the file exactly if no turn fails or falls short
(`printMemoryMap_eq_iff`).
-/

namespace Vdbg

open Numerals

/-! ## The load address -/

def isHexDigit (c : Char) : Bool := (digit 16 c).isSome

/-- `%lx` of `sscanf`: the number, and the text after it, if there is a digit. -/
def scanHex (str : List Char) : Option (Addr × List Char) :=
  let digits := skipPrefix 16 (skipSign (str.dropWhile isSpace)).2
  if digits.head?.any isHexDigit then some (strtoul str 16, digits.dropWhile isHexDigit) else none

/-- `sscanf` with `%lx-%lx`, where both numbers are parsed. What follows is not assigned. -/
def scanRange (line : List Char) : Option (Addr × Addr) :=
  match scanHex line with
  | some (startAddr, '-' :: rest) => (scanHex rest).map fun r => (startAddr, r.1)
  | _ => none

/-- `initialize_load_address` for the text of the map. -/
def loadAddressFrom (isDyn : Bool) (maps : List Char) : Addr :=
  if !isDyn then 0
  else
    match (scriptLines maps).findSome? scanRange with
    | some (addr, _) => if addr ≠ 0 then addr else 0
    | none => 0

/-- A line of the map: its range, and what follows the range, up to the newline. -/
structure Mapping where
  startAddr : Addr
  endAddr : Addr
  rest : List Char
  oneLine : '\n' ∉ rest
  noNull : '\x00' ∉ rest

/-- The line as the kernel writes it. -/
def Mapping.line (m : Mapping) : List Char :=
  fmtPadHex 8 m.startAddr ++ '-' :: (fmtPadHex 8 m.endAddr ++ ' ' :: m.rest)

/-- The map of a process. -/
def formatMaps (ms : List Mapping) : List Char := ms.flatMap fun m => m.line ++ ['\n']

section LoadAddress

variable {c : Char} {x : Addr} {digits rest : List Char}

theorem isHexDigit_iff : isHexDigit c = true ↔ 48 ≤ c.toNat ∧ c.toNat ≤ 57 ∨
    97 ≤ c.toNat ∧ c.toNat ≤ 102 ∨ 65 ≤ c.toNat ∧ c.toNat ≤ 70 := by
  have hvalue : isHexDigit c = (value c).any (· < 16) := Option.isSome_filter
  rw [hvalue, value]
  have hzero : '0'.toNat = 48 := rfl
  have hnine : '9'.toNat = 57 := rfl
  have ha : 'a'.toNat = 97 := rfl
  have hf : 'f'.toNat = 102 := rfl
  have hA : 'A'.toNat = 65 := rfl
  have hF : 'F'.toNat = 70 := rfl
  rw [hzero, hnine, ha, hf, hA, hF]
  split_ifs with h0 ha hA
  · exact iff_of_true (decide_eq_true (by omega)) (.inl h0)
  · exact iff_of_true (decide_eq_true (by omega)) (.inr (.inl ha))
  · exact iff_of_true (decide_eq_true (by omega)) (.inr (.inr hA))
  · exact iff_of_false Bool.false_ne_true fun h => h.elim h0 fun h => h.elim ha hA

/-- A digit is no blank, no sign and no part of `0x`. -/
theorem isSpace_of_isHexDigit (h : isHexDigit c = true) : isSpace c = false := by
  have hrange := isHexDigit_iff.mp h
  have hblank : c ≠ ' ' := by
    rintro rfl
    cases h
  have hcontrol : ¬c.toNat ≤ '\r'.toNat := by
    have hr : '\r'.toNat = 13 := rfl
    omega
  unfold isSpace
  rw [decide_eq_false hblank, decide_eq_false hcontrol, Bool.and_false, Bool.or_false]

theorem skipSign_of_isHexDigit (h : isHexDigit c = true) :
    skipSign (c :: rest) = (false, c :: rest) := by
  unfold skipSign
  split
  · rename_i he
    cases he
    cases h
  · rename_i he
    cases he
    cases h
  · rfl

theorem skipPrefix_of_ne {base : ℕ} (h : ∀ y ∈ rest.head?, y ≠ 'x' ∧ y ≠ 'X') :
    skipPrefix base (c :: rest) = c :: rest := by
  unfold skipPrefix
  split
  · rename_i x str he
    cases he
    have hne := h x rfl
    exact if_neg fun hskip => hskip.2.elim hne.1 hne.2
  · rfl

/-- Digits begin a number, whatever comes after them. -/
theorem skip_digits (base : ℕ) (rest : List Char)
    (hdigits : ∀ d ∈ digits, isHexDigit d = true) (hne : digits ≠ [])
    (hx : c ≠ 'x') (hX : c ≠ 'X') :
    (skipSign ((digits ++ c :: rest).dropWhile isSpace)) = (false, digits ++ c :: rest) ∧
      skipPrefix base (digits ++ c :: rest) = digits ++ c :: rest := by
  obtain ⟨d, ds, rfl⟩ := List.exists_cons_of_ne_nil hne
  rw [List.forall_mem_cons] at hdigits
  refine ⟨?_, skipPrefix_of_ne fun y hy => ?_⟩
  · rw [List.cons_append, List.dropWhile_cons_of_neg (by simp [isSpace_of_isHexDigit hdigits.1]),
      skipSign_of_isHexDigit hdigits.1]
  · cases ds with
    | nil =>
      cases hy
      exact ⟨hx, hX⟩
    | cons e ds =>
      obtain rfl : e = y := Option.some.inj hy
      have he := hdigits.2 e List.mem_cons_self
      refine ⟨?_, ?_⟩ <;> rintro rfl <;> cases he

theorem isHexDigit_fmtPadHex (width : ℕ) (x : Addr) :
    ∀ d ∈ fmtPadHex width x, isHexDigit d = true := by
  intro d hd
  rcases List.mem_append.mp hd with hzero | hdigit
  · rw [List.eq_of_mem_replicate hzero]
    rfl
  · exact allDigits_toDigits (by decide) (by decide) d hdigit

theorem fmtPadHex_ne_nil (width : ℕ) (x : Addr) : fmtPadHex width x ≠ [] := by
  have hne : fmtHex x ≠ [] := Nat.toDigits_ne_nil
  exact List.append_ne_nil_of_right_ne_nil _ hne

theorem strtoul_fmtPadHex (width : ℕ) (x : Addr) (rest : List Char) (hstop : isHexDigit c = false)
    (hx : c ≠ 'x') (hX : c ≠ 'X') : strtoul (fmtPadHex width x ++ c :: rest) 16 = x := by
  have hdigits := isHexDigit_fmtPadHex width x
  obtain ⟨hsign, hskip⟩ := skip_digits 16 rest hdigits (fmtPadHex_ne_nil width x) hx hX
  refine strtoul_of_readNumber ?_
  unfold readNumber
  rw [hsign]
  dsimp only
  rw [hskip, scan_append hdigits, scan_stop (Option.not_isSome_iff_eq_none.mp (by
    rw [← isHexDigit, hstop]; exact Bool.false_ne_true)), fmtPadHex,
    scan_zeros (by decide) (by decide), fmtHex, scan_toDigits (by decide) (by decide)]

/-- A number that was printed is read up to what follows it. -/
theorem scanHex_fmtPadHex (width : ℕ) (x : Addr) (hstop : isHexDigit c = false) (hx : c ≠ 'x')
    (hX : c ≠ 'X') : scanHex (fmtPadHex width x ++ c :: rest) = some (x, c :: rest) := by
  have hdigits := isHexDigit_fmtPadHex width x
  have hne := fmtPadHex_ne_nil width x
  obtain ⟨hsign, hskip⟩ := skip_digits 16 rest hdigits hne hx hX
  have hread := strtoul_fmtPadHex width x rest hstop hx hX
  have hhead : (fmtPadHex width x ++ c :: rest).head?.any isHexDigit = true := by
    obtain ⟨d, ds, hds⟩ := List.exists_cons_of_ne_nil hne
    rw [hds] at hdigits ⊢
    exact hdigits d List.mem_cons_self
  unfold scanHex
  rw [hsign]
  dsimp only
  rw [hskip, if_pos hhead, hread, List.dropWhile_append_of_pos hdigits,
    List.dropWhile_cons_of_neg (by rw [hstop]; exact Bool.false_ne_true)]

/-- The range of a line is read, whatever follows it. -/
theorem scanRange_line (m : Mapping) : scanRange m.line = some (m.startAddr, m.endAddr) := by
  unfold scanRange Mapping.line
  rw [scanHex_fmtPadHex 8 m.startAddr rfl (by decide) (by decide)]
  show (scanHex (fmtPadHex 8 m.endAddr ++ ' ' :: m.rest)).map (fun r => (m.startAddr, r.1)) = _
  rw [scanHex_fmtPadHex 8 m.endAddr rfl (by decide) (by decide)]
  rfl

theorem not_mem_line (m : Mapping) (hc : isHexDigit c = false) (hne : c ∉ ['-', ' '])
    (hrest : c ∉ m.rest) : c ∉ m.line := by
  have hnum : ∀ x, c ∉ fmtPadHex 8 x := fun x hmem =>
    Bool.false_ne_true (hc.symm.trans (isHexDigit_fmtPadHex 8 x c hmem))
  unfold Mapping.line
  simp only [List.mem_cons, List.not_mem_nil, or_false, not_or] at hne
  simp [hnum, hne, hrest]

/-- The first mapping is the first line. -/
theorem scriptLines_formatMaps (m : Mapping) (ms : List Mapping) :
    ∃ lines, scriptLines (formatMaps (m :: ms)) = m.line :: lines := by
  have hline : '\n' ∉ m.line := not_mem_line m rfl (by decide) m.oneLine
  have hnull : ∀ c ∈ m.line, (decide (c ≠ '\x00')) = true := fun c hc =>
    decide_eq_true fun he => not_mem_line m rfl (by decide) m.noNull (he ▸ hc)
  unfold scriptLines formatMaps
  rw [List.flatMap_cons, List.append_assoc, List.singleton_append,
    List.splitOn_append_cons_self_of_not_mem hline, List.map_cons,
    List.takeWhile_eq_self_iff.mpr hnull]
  exact ⟨_, rfl⟩

/-- The load address is where the first mapping begins, unless the executable has a fixed address. -/
theorem loadAddressFrom_formatMaps (isDyn : Bool) (m : Mapping) (ms : List Mapping) :
    loadAddressFrom isDyn (formatMaps (m :: ms)) = if isDyn then m.startAddr else 0 := by
  obtain ⟨lines, hlines⟩ := scriptLines_formatMaps m ms
  unfold loadAddressFrom
  rw [hlines, List.findSome?_cons, scanRange_line]
  cases isDyn with
  | false => rfl
  | true =>
    show (if m.startAddr ≠ 0 then m.startAddr else 0) = m.startAddr
    rw [ite_eq_left_iff, not_not]
    exact Eq.symm

/-- **The load address.** Whatever the map of a process is, `initialize_load_address` returns what it
parses from the text of it: the start of the first mapping. -/
theorem initializeLoadAddress_reads (k : Kernel) (syms : Symbols) (w : World) (m : Mapping)
    (ms : List Mapping) (hbase : k.mapsBase w.tracee = some m.startAddr) :
    initializeLoadAddress k syms w = .ok (loadAddressFrom syms.isDyn (formatMaps (m :: ms))) := by
  rw [loadAddressFrom_formatMaps]
  unfold initializeLoadAddress
  rw [hbase]
  cases syms.isDyn <;> rfl

/-- The map of an executable with two mappings. -/
theorem initializeLoadAddress_reads_main :
    initializeLoadAddress (.loadedAt 0x555555554000) (mainSymbols true 0x1139) dbgInit =
      .ok (loadAddressFrom true
        "555555554000-555555555000 r--p 00000000\n555555555000-555555556000 r-xp\n".toList) :=
  (initializeLoadAddress_reads (.loadedAt 0x555555554000) (mainSymbols true 0x1139) dbgInit
    ⟨0x555555554000, 0x555555555000, "r--p 00000000".toList, by decide, by decide⟩
    [⟨0x555555555000, 0x555555556000, "r-xp".toList, by decide, by decide⟩] rfl).trans
    (congrArg (fun maps => Except.ok (loadAddressFrom true maps)) (by decide +kernel))

end LoadAddress

/-! ## The copy of the map -/

def BUFSIZE : ℕ := 2 ^ 20

/-- What the calls of `read` and `write` return in each turn: a count, or an error. -/
structure Calls where
  read : ℕ → Option ℕ
  write : ℕ → Option ℕ

/-- The loop of `print_memory_map` from a turn on, over what is left of the file: what is written. -/
def copyFrom (calls : Calls) : ℕ → ℕ → List Char → List Char
  | 0, _, _ => []
  | turns + 1, i, file =>
    match calls.read i with
    | none => []
    | some n =>
      let buf := file.take (min n BUFSIZE)
      if buf = [] then []
      else
        match calls.write i with
        | none => []
        | some n => buf.take n ++ copyFrom calls turns (i + 1) (file.drop buf.length)

/-- `print_memory_map`. Each turn but the last reads something. -/
def printMemoryMap (calls : Calls) (file : List Char) : List Char :=
  copyFrom calls (file.length + 1) 0 file

/-- Where a turn begins to read. -/
def offset (calls : Calls) : ℕ → ℕ
  | 0 => 0
  | i + 1 => offset calls i + min ((calls.read i).getD 0) BUFSIZE

/-- The turn reads something, and writes all of it. -/
def Calls.Complete (calls : Calls) (file : List Char) (i : ℕ) : Prop :=
  ∃ n m, calls.read i = some n ∧ 0 < n ∧ calls.write i = some m ∧
    min (min n BUFSIZE) (file.length - offset calls i) ≤ m

section Copy

variable {calls : Calls} {file : List Char} {turns i : ℕ}

/-- A turn that reads and writes something. -/
theorem copyFrom_turn {n m : ℕ} (hread : calls.read i = some n)
    (hbuf : file.take (min n BUFSIZE) ≠ []) (hwrite : calls.write i = some m) :
    copyFrom calls (turns + 1) i file = (file.take (min n BUFSIZE)).take m ++
      copyFrom calls turns (i + 1) (file.drop (min n BUFSIZE)) := by
  have hdrop : file.drop (file.take (min n BUFSIZE)).length = file.drop (min n BUFSIZE) := by
    rw [List.length_take]
    rcases le_total (min n BUFSIZE) file.length with hle | hle
    · rw [Nat.min_eq_left hle]
    · rw [Nat.min_eq_right hle, List.drop_length, List.drop_of_length_le hle]
  rw [copyFrom, hread]
  dsimp only
  rw [if_neg hbuf, hwrite]
  dsimp only
  rw [hdrop]

/-- A turn in which a call fails or nothing is read ends the copy. -/
theorem copyFrom_ends (h : ¬∃ n m, calls.read i = some n ∧ file.take (min n BUFSIZE) ≠ [] ∧
    calls.write i = some m) : copyFrom calls (turns + 1) i file = [] := by
  rw [copyFrom]
  cases hread : calls.read i with
  | none => rfl
  | some n =>
    dsimp only
    split_ifs with hbuf
    · rfl
    cases hwrite : calls.write i with
    | none => rfl
    | some m => exact absurd ⟨n, m, hread, hbuf, hwrite⟩ h

/-- No more is written than there is left. -/
theorem length_copyFrom_le : (copyFrom calls turns i file).length ≤ file.length := by
  induction turns generalizing i file with
  | zero => exact Nat.zero_le _
  | succ turns ih =>
    by_cases h : ∃ n m, calls.read i = some n ∧ file.take (min n BUFSIZE) ≠ [] ∧
        calls.write i = some m
    · obtain ⟨n, m, hread, hbuf, hwrite⟩ := h
      have hrest : (copyFrom calls turns (i + 1) (file.drop (min n BUFSIZE))).length ≤
          (file.drop (min n BUFSIZE)).length := ih
      rw [copyFrom_turn hread hbuf hwrite]
      simp only [List.length_append, List.length_take, List.length_drop] at hrest ⊢
      omega
    · rw [copyFrom_ends h]
      exact Nat.zero_le _

/-- A turn copies the rest exactly if it reads something and writes all of it, and the others copy
what it leaves. -/
theorem copyFrom_succ_iff (hne : file ≠ []) : copyFrom calls (turns + 1) i file = file ↔
    ∃ n m, calls.read i = some n ∧ 0 < n ∧ calls.write i = some m ∧
      min (min n BUFSIZE) file.length ≤ m ∧
      copyFrom calls turns (i + 1) (file.drop (min n BUFSIZE)) = file.drop (min n BUFSIZE) := by
  have hbuf : ∀ n, file.take (min n BUFSIZE) ≠ [] ↔ 0 < n := by
    intro n
    rw [ne_eq, List.take_eq_nil_iff, or_iff_left hne]
    have hsize : 0 < BUFSIZE := by decide
    omega
  constructor
  · intro hcopy
    by_cases h : ∃ n m, calls.read i = some n ∧ file.take (min n BUFSIZE) ≠ [] ∧
        calls.write i = some m
    · obtain ⟨n, m, hread, hn, hwrite⟩ := h
      rw [copyFrom_turn hread hn hwrite] at hcopy
      have hrest : (copyFrom calls turns (i + 1) (file.drop (min n BUFSIZE))).length ≤
        (file.drop (min n BUFSIZE)).length := length_copyFrom_le
      -- what is written falls short of the file where a write falls short of its buffer
      have hlen := congrArg List.length hcopy
      simp only [List.length_append, List.length_take, List.length_drop] at hlen hrest
      have hall : min (min n BUFSIZE) file.length ≤ m := by omega
      refine ⟨n, m, hread, (hbuf n).mp hn, hwrite, hall, ?_⟩
      rw [List.take_of_length_le (by rwa [List.length_take])] at hcopy
      exact List.append_cancel_left (hcopy.trans (List.take_append_drop _ _).symm)
    · rw [copyFrom_ends h] at hcopy
      exact absurd hcopy.symm hne
  · rintro ⟨n, m, hread, hn, hwrite, hall, hrest⟩
    rw [copyFrom_turn hread ((hbuf n).mpr hn) hwrite, hrest,
      List.take_of_length_le (by rwa [List.length_take]), List.take_append_drop]

theorem offset_le_succ (calls : Calls) (i : ℕ) : offset calls i ≤ offset calls (i + 1) :=
  Nat.le_add_right _ _

/-- From a turn on. -/
theorem copyFrom_eq_iff (hturns : file.length - offset calls i < turns) :
    copyFrom calls turns i (file.drop (offset calls i)) = file.drop (offset calls i) ↔
      ∀ j ≥ i, offset calls j < file.length → calls.Complete file j := by
  induction turns generalizing i with
  | zero => exact absurd hturns (Nat.not_lt_zero _)
  | succ turns ih =>
    rcases Nat.lt_or_ge (offset calls i) file.length with hmore | hend
    · have hne : file.drop (offset calls i) ≠ [] := by
        rw [ne_eq, List.drop_eq_nil_iff]
        omega
      rw [copyFrom_succ_iff hne, List.length_drop]
      have hnext : ∀ n, calls.read i = some n → 0 < n →
          ((file.drop (offset calls i)).drop (min n BUFSIZE) = file.drop (offset calls (i + 1)) ∧
            file.length - offset calls (i + 1) < turns) := by
        intro n hread hn
        have hoffset : offset calls (i + 1) = offset calls i + min n BUFSIZE := by
          rw [offset, hread, Option.getD_some]
        have hsize : 0 < BUFSIZE := by decide
        rw [hoffset, List.drop_drop]
        exact ⟨rfl, by omega⟩
      constructor
      · rintro ⟨n, m, hread, hn, hwrite, hall, hrest⟩ j hj hless
        obtain ⟨hdrop, hturns'⟩ := hnext n hread hn
        rcases hj.eq_or_lt with rfl | hlt
        · exact ⟨n, m, hread, hn, hwrite, hall⟩
        · exact (ih hturns').mp (hdrop ▸ hrest) j hlt hless
      · intro h
        obtain ⟨n, m, hread, hn, hwrite, hall⟩ := h i le_rfl hmore
        obtain ⟨hdrop, hturns'⟩ := hnext n hread hn
        refine ⟨n, m, hread, hn, hwrite, hall, ?_⟩
        rw [hdrop]
        exact (ih hturns').mpr fun j hj => h j (Nat.le_of_succ_le hj)
    · have hmono : Monotone (offset calls) := monotone_nat_of_le_succ (offset_le_succ calls)
      rw [List.drop_of_length_le hend]
      refine iff_of_true (List.eq_nil_of_length_eq_zero (Nat.le_zero.mp length_copyFrom_le))
        fun j hj hless => ?_
      exact absurd (hmono hj) (by omega)

end Copy

/-- **The copy of the map.** What `print_memory_map` writes is the file exactly if every turn before
the end of the file reads something and `write` takes all of it. -/
theorem printMemoryMap_eq_iff (calls : Calls) (file : List Char) :
    printMemoryMap calls file = file ↔
      ∀ i, offset calls i < file.length → calls.Complete file i := by
  unfold printMemoryMap
  refine (copyFrom_eq_iff (i := 0) (by
    rw [offset]
    exact Nat.lt_succ_self _)).trans ?_
  exact forall_congr' fun i => ⟨fun h => h (Nat.zero_le i), fun h _ => h⟩

/-- A pipe that takes only part of a long map loses the rest of the turn. -/
example : printMemoryMap ⟨fun _ => some 4, fun i => some (4 - i)⟩ "01234567".toList =
    "0123456".toList := by decide

end Vdbg
