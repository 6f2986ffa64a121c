import Vdbg.Lib.Screen
import Vdbg.Text

/-!
# The source around a line

What `print_source` leaves on the screen. It writes the number of a line before it knows whether
there is one, and blanks the first ten cells of the last row at the end. The row is a bare number
where the lines end with a newline, and blanked as long as that has at most six digits. Where the
file ends without a newline in the window, it is its last line, which loses its number and the first
cells of its text (`printSource_shows_iff`).
-/

namespace Vdbg.Window

open Screen

/-! ## Printing -/

/-- The inks. -/
inductive Colour where
  | hgrn | hblk | cyn | reset
deriving DecidableEq, Repr

/-- `%3u` for the width 3. -/
def fmtPadUnsigned (width : ℕ) (x : BitVec 32) : List Char :=
  List.replicate (width - (Nat.toDigits 10 x.toNat).length) ' ' ++ Nat.toDigits 10 x.toNat

/-- `print_line_prefix` -/
def printLinePrefix (lineNo targetLine : BitVec 32) : List (Mark Colour) :=
  text "  ".toList ++ .ink (if lineNo = targetLine then .hgrn else .hblk) ::
    text (fmtPadUnsigned 3 lineNo ++ " | ".toList) ++
    if lineNo = targetLine then [.ink .reset] else []

/-- `start_line` -/
def startLine (line linesContext : BitVec 32) : BitVec 32 :=
  if line ≤ linesContext then 1 else line - linesContext + 1

/-- `end_line` -/
def endLine (line linesContext : BitVec 32) : BitVec 32 :=
  line + linesContext + if line < linesContext then linesContext - line else 0

/-- The loop of `print_source` that skips the lines before the window, with what is left to read. -/
def skipLines (start : BitVec 32) : List Char → BitVec 32 → BitVec 32 × List Char
  | [], currentLine => (currentLine, [])
  | c :: cs, currentLine =>
    if currentLine < start then
      skipLines start cs (if c = '\n' then currentLine + 1 else currentLine)
    else (currentLine, c :: cs)

/-- The loop of `print_source` that prints the lines. -/
def printLines (end_ line : BitVec 32) : List Char → BitVec 32 → List (Mark Colour)
  | [], _ => []
  | c :: cs, currentLine =>
    if currentLine < end_ then
      if c = '\n' then
        .char c :: printLinePrefix (currentLine + 1) line ++
          printLines end_ line cs (currentLine + 1)
      else .char c :: printLines end_ line cs currentLine
    else []

/-- The heading with the name of the file. -/
def heading (fileName : List Char) : List (Mark Colour) :=
  .ink .cyn :: text ("\n ".toList ++ fileName ++ ":\n".toList) ++ [.ink .reset]

/-- What `print_source` ends with. -/
def closing : List (Mark Colour) :=
  [.ink .reset, .char '\r'] ++ text (List.replicate 10 ' ') ++ [.char '\n']

/-- What `print_source` prints for a file, if that can be opened. -/
def printSource (fileName : List Char) (file : Option (List Char)) (line linesContext : BitVec 32) :
    Except Fault (List (Mark Colour)) :=
  if line = 0 then .error .assertion
  else if linesContext = 0 then .error .assertion
  else
    match file with
    | none => .ok []
    | some file =>
      let (currentLine, rest) := skipLines (startLine line linesContext) file 1
      .ok (heading fileName ++ printLinePrefix currentLine line ++
        printLines (endLine line linesContext) line rest currentLine ++ closing)

/-! ## The window -/

/-- The lines of a file. The last one may be without a newline, but is not empty then. -/
def fileLines (file : List Char) : List (List Char) :=
  let parts := file.splitOn '\n'
  if parts.getLast? = some [] then parts.dropLast else parts

/-- A line as it should be shown, with its number. -/
def numbered (target : BitVec 32) (row : List Char × ℕ) : List (Mark Colour) :=
  printLinePrefix (BitVec.ofNat 32 row.2) target ++ text row.1 ++ [.char '\n']

/-- The first line of the window. -/
def firstLine (line linesContext : BitVec 32) : ℕ := max 1 (line.toNat + 1 - linesContext.toNat)

/-- The lines that should be shown: so many from the first one on, or as many as there are. -/
def window (file : List Char) (line linesContext : BitVec 32) : List (Mark Colour) :=
  ((((fileLines file).drop (firstLine line linesContext - 1)).take
    (2 * linesContext.toNat - 1)).zipIdx (firstLine line linesContext)).flatMap (numbered line)

/-- The text behind the last newline of a file. -/
def lastText (file : List Char) : List Char := (file.splitOn '\n').getLastD []

/-- The number of the line behind the last newline. -/
def lastNumber (file : List Char) : ℕ := (file.splitOn '\n').length

/-- The number of the line behind the window. -/
def windowEnd (line linesContext : BitVec 32) : ℕ :=
  firstLine line linesContext + (2 * linesContext.toNat - 1)

/-- The text behind the last newline, if it is in the window. -/
def unfinished (file : List Char) (line linesContext : BitVec 32) : List Char :=
  if firstLine line linesContext ≤ lastNumber file ∧ lastNumber file < windowEnd line linesContext
  then lastText file else []

/-- The last number that is printed. -/
def lastPrinted (file : List Char) (line linesContext : BitVec 32) : ℕ :=
  min (windowEnd line linesContext) (lastNumber file)

/-- The blanks at the end hide nothing: where they are for a bare number, it has no more than six
digits, and where a text without a newline is in the window, it has replaced the first cells of its
row with blanks itself. -/
def HidesNothing (file : List Char) (line linesContext : BitVec 32) : Prop :=
  if unfinished file line linesContext = [] then lastPrinted file line linesContext < 10 ^ 6
  else ∀ c < 10, ((Screen.Row.blank .reset).draw
    (printLinePrefix (BitVec.ofNat 32 (lastPrinted file line linesContext)) line ++
      text (unfinished file line linesContext))).cells c = none

/-! ## The loops -/

section Loops

variable {ls : List (List Char)} {l tail rest file : List Char} {start end_ line : BitVec 32}
  {n : ℕ}

/-- Lines with their newlines. -/
def joinLines (ls : List (List Char)) : List Char := ls.flatMap (· ++ ['\n'])

theorem joinLines_cons : joinLines (l :: ls) ++ tail = l ++ '\n' :: (joinLines ls ++ tail) := by
  simp [joinLines]

/-- A file is lines and a text behind the last newline. -/
theorem splitOn_joinLines (hls : ∀ l ∈ ls, '\n' ∉ l) (htail : '\n' ∉ tail) :
    (joinLines ls ++ tail).splitOn '\n' = ls ++ [tail] := by
  induction ls with
  | nil => exact List.splitOn_eq_singleton htail
  | cons l ls ih =>
    obtain ⟨hl, hls⟩ := List.forall_mem_cons.mp hls
    rw [joinLines_cons, List.splitOn_append_cons_self_of_not_mem hl, ih hls]
    rfl

theorem exists_joinLines (file : List Char) : ∃ ls tail, (∀ l ∈ ls, '\n' ∉ l) ∧ '\n' ∉ tail ∧
    file = joinLines ls ++ tail := by
  induction file with
  | nil => exact ⟨[], [], List.forall_mem_nil _, List.not_mem_nil, rfl⟩
  | cons c cs ih =>
    obtain ⟨ls, tail, hls, htail, rfl⟩ := ih
    by_cases hc : c = '\n'
    · subst hc
      exact ⟨[] :: ls, tail, List.forall_mem_cons.mpr ⟨List.not_mem_nil, hls⟩, htail, rfl⟩
    · have hcons : ∀ l : List Char, '\n' ∉ l → '\n' ∉ c :: l := fun l =>
        List.not_mem_cons_of_ne_of_not_mem (Ne.symm hc)
      cases ls with
      | nil => exact ⟨[], c :: tail, hls, hcons tail htail, rfl⟩
      | cons l ls =>
        obtain ⟨hl, hls⟩ := List.forall_mem_cons.mp hls
        exact ⟨(c :: l) :: ls, tail, List.forall_mem_cons.mpr ⟨hcons l hl, hls⟩, htail, rfl⟩

theorem ofNat_succ : BitVec.ofNat 32 n + 1 = BitVec.ofNat 32 (n + 1) := by bv_omega

theorem lt_of_toNat (hn : n < end_.toNat) : BitVec.ofNat 32 n < end_ := by bv_omega

theorem skipLines_stop {currentLine : BitVec 32} (h : ¬currentLine < start) :
    skipLines start file currentLine = (currentLine, file) := by
  cases file with
  | nil => rfl
  | cons c cs => exact if_neg h

theorem skipLines_text {currentLine : BitVec 32} (hl : '\n' ∉ l) (h : currentLine < start) :
    skipLines start (l ++ rest) currentLine = skipLines start rest currentLine := by
  induction l with
  | nil => rfl
  | cons c l ih =>
    obtain ⟨hc, hl⟩ := not_or.mp (mt List.mem_cons.mpr hl)
    rw [List.cons_append, skipLines, if_pos h, if_neg (Ne.symm hc), ih hl]

/-- Lines are skipped until the window begins or the file ends. -/
theorem skipLines_joinLines (hls : ∀ l ∈ ls, '\n' ∉ l) (htail : '\n' ∉ tail)
    (hn : n ≤ start.toNat) :
    skipLines start (joinLines ls ++ tail) (BitVec.ofNat 32 n) =
      if start.toNat - n ≤ ls.length then (start, joinLines (ls.drop (start.toNat - n)) ++ tail)
      else (BitVec.ofNat 32 (n + ls.length), []) := by
  induction ls generalizing n with
  | nil =>
    rcases hn.eq_or_lt with rfl | hlt
    · rw [skipLines_stop (by simp), if_pos (by simp), Nat.sub_self]
      simp
    · have htext : skipLines start (tail ++ []) (BitVec.ofNat 32 n) = (BitVec.ofNat 32 n, []) :=
        skipLines_text htail (lt_of_toNat hlt)
      rw [List.append_nil] at htext
      rw [List.length_nil, if_neg (Nat.not_le.mpr (Nat.sub_pos_of_lt hlt))]
      exact htext
  | cons l ls ih =>
    obtain ⟨hl, hls⟩ := List.forall_mem_cons.mp hls
    rcases hn.eq_or_lt with rfl | hlt
    · rw [skipLines_stop (by simp), if_pos (by simp), Nat.sub_self]
      simp
    · rw [joinLines_cons, skipLines_text hl (lt_of_toNat hlt), skipLines, if_pos (lt_of_toNat hlt),
        if_pos rfl, ofNat_succ, ih hls hlt, ← Nat.sub_add_cancel (Nat.sub_pos_of_lt hlt),
        Nat.sub_sub, List.drop_succ_cons]
      refine if_congr Nat.succ_le_succ_iff.symm rfl ?_
      rw [List.length_cons, Nat.succ_add_eq_add_succ]

theorem printLines_stop {currentLine : BitVec 32} (h : ¬currentLine < end_) :
    printLines end_ line file currentLine = [] := by
  cases file with
  | nil => rfl
  | cons c cs => exact if_neg h

theorem printLines_text {currentLine : BitVec 32} (hl : '\n' ∉ l) (h : currentLine < end_) :
    printLines end_ line (l ++ rest) currentLine =
      text l ++ printLines end_ line rest currentLine := by
  induction l with
  | nil => rfl
  | cons c l ih =>
    obtain ⟨hc, hl⟩ := not_or.mp (mt List.mem_cons.mpr hl)
    rw [List.cons_append, printLines, if_pos h, if_neg (Ne.symm hc), ih hl]
    rfl

variable (line) in
/-- Rows are printed until the window or the file ends. The number behind them is printed too, and
the text behind the last newline where the window does not end before. -/
theorem printLines_joinLines (hls : ∀ l ∈ ls, '\n' ∉ l) (htail : '\n' ∉ tail)
    (hn : n ≤ end_.toNat) :
    printLinePrefix (BitVec.ofNat 32 n) line ++
        printLines end_ line (joinLines ls ++ tail) (BitVec.ofNat 32 n) =
      ((ls.take (end_.toNat - n)).zipIdx n).flatMap (numbered line) ++
        (printLinePrefix (BitVec.ofNat 32 (n + min (end_.toNat - n) ls.length)) line ++
          text (if ls.length < end_.toNat - n then tail else [])) := by
  induction ls generalizing n with
  | nil =>
    rw [List.take_nil, List.length_nil, Nat.min_zero]
    rcases hn.eq_or_lt with rfl | hlt
    · rw [printLines_stop (by simp), if_neg (by simp)]
      rfl
    · have htext : printLines end_ line (tail ++ []) (BitVec.ofNat 32 n) = text tail ++ [] :=
        printLines_text htail (lt_of_toNat hlt)
      rw [List.append_nil, List.append_nil] at htext
      rw [if_pos (Nat.sub_pos_of_lt hlt)]
      exact congrArg _ htext
  | cons l ls ih =>
    obtain ⟨hl, hls⟩ := List.forall_mem_cons.mp hls
    rcases hn.eq_or_lt with rfl | hlt
    · rw [printLines_stop (by simp), Nat.sub_self, List.take_zero, Nat.zero_min,
        if_neg (Nat.not_lt_zero _)]
      rfl
    · obtain ⟨d, hd, hd'⟩ : ∃ d, end_.toNat - n = d + 1 ∧ end_.toNat - (n + 1) = d :=
        ⟨end_.toNat - (n + 1), by omega, rfl⟩
      have hrest := ih hls (show n + 1 ≤ end_.toNat from hlt)
      rw [hd'] at hrest
      rw [joinLines_cons, printLines_text hl (lt_of_toNat hlt), printLines,
        if_pos (lt_of_toNat hlt), if_pos rfl, ofNat_succ, List.cons_append, hrest, hd, List.take_succ_cons, List.zipIdx_cons,
        List.flatMap_cons, List.length_cons, Nat.add_min_add_right, numbered,
        show n + (min d ls.length + 1) = n + 1 + min d ls.length by omega]
      simp only [Nat.add_lt_add_iff_right, List.append_assoc, List.cons_append,
        List.nil_append]

end Loops

/-! ## The last row -/

section LastRow

variable {n target : BitVec 32} {xs : List (Mark Colour)} {ink : Colour} {t : List Char}
  {above : List (ℕ → Option (Char × Colour))}

theorem plain_of_isDigit {c : Char} (h : c.isDigit) : Plain c := by
  refine ⟨?_, ?_, ?_, ?_⟩ <;> rintro rfl <;> exact absurd h (by decide)

theorem plain_linePrefix : ∀ c ∈ fmtPadUnsigned 3 n ++ " | ".toList, Plain c := by
  have hblank : Plain ' ' := by unfold Plain; decide
  have hbar : Plain '|' := by unfold Plain; decide
  intro c hc
  rcases List.mem_append.mp hc with hc | hc
  · rcases List.mem_append.mp hc with hc | hc
    · rwa [List.eq_of_mem_replicate hc]
    · exact plain_of_isDigit (Nat.isDigit_of_mem_toDigits (by decide) (by decide) hc)
  · have hmem : c = ' ' ∨ c = '|' ∨ c = ' ' := by simpa using hc
    rcases hmem with rfl | rfl | rfl
    · exact hblank
    · exact hbar
    · exact hblank

theorem length_fmtPadUnsigned : (fmtPadUnsigned 3 n).length ≤ 6 ↔ n.toNat < 10 ^ 6 := by
  rw [← Nat.length_toDigits_le_iff (by decide) (by decide), fmtPadUnsigned, List.length_append,
    List.length_replicate]
  omega

/-- A number chooses its ink before it fills a cell. -/
theorem draw_linePrefix : (Screen.Row.blank ink).draw (printLinePrefix n target ++ xs) =
    (Screen.Row.mk (fun _ => none) 2 (if n = target then Colour.hgrn else .hblk)).draw
      (text (fmtPadUnsigned 3 n ++ " | ".toList) ++
        ((if n = target then [.ink .reset] else []) ++ xs)) := by
  have hblanks : (Screen.Row.blank ink).draw (text "  ".toList) =
      Screen.Row.mk (fun _ => none) 2 ink := by
    change ((Screen.Row.blank ink).put ' ').put ' ' = _
    refine congrArg (Screen.Row.mk · 2 ink) (funext fun c => ?_)
    simp [Screen.Row.put, Screen.Row.blank, glyph, Function.update_apply]
  unfold printLinePrefix
  rw [List.append_assoc, List.append_assoc, Screen.Row.draw_append, hblanks, List.cons_append,
    Screen.Row.draw_cons]
  rfl

/-- The cells of a bare number. -/
theorem cells_linePrefix (c : ℕ) :
    ((Screen.Row.blank ink).draw (printLinePrefix n target)).cells c =
    if 2 ≤ c then (fmtPadUnsigned 3 n ++ " | ".toList)[c - 2]?.bind
      (glyph (if n = target then Colour.hgrn else .hblk)) else none := by
  have hreset : ∀ r : Screen.Row Colour, (r.draw (if n = target then [.ink .reset] else [])).cells =
      r.cells := by
    intro r
    split_ifs <;> rfl
  rw [← List.append_nil (printLinePrefix n target), draw_linePrefix, List.append_nil,
    Screen.Row.draw_append, hreset, Screen.Row.draw_plain plain_linePrefix]
  dsimp only
  by_cases hc : 2 ≤ c
  · rw [if_pos hc]
    by_cases hlen : c < 2 + (fmtPadUnsigned 3 n ++ " | ".toList).length
    · rw [if_pos ⟨hc, hlen⟩]
    · rw [if_neg fun h => hlen h.2, List.getElem?_eq_none (by omega)]
      rfl
  · rw [if_neg hc, if_neg fun h => hc h.1]

/-- Ten blanks hide a bare number of up to six digits. -/
theorem prefix_hidden_iff :
    (∀ c ≥ 10, ((Screen.Row.blank ink).draw (printLinePrefix n target)).cells c = none) ↔
      n.toNat < 10 ^ 6 := by
  rw [← length_fmtPadUnsigned]
  constructor
  · intro h
    by_contra hlong
    -- the bar is shown
    have hbar := h ((fmtPadUnsigned 3 n).length + 3) (by omega)
    rw [cells_linePrefix, if_pos (by omega), List.getElem?_append_right (by omega)] at hbar
    rw [show (fmtPadUnsigned 3 n).length + 3 - 2 - (fmtPadUnsigned 3 n).length = 1 by omega] at hbar
    cases hbar
  · intro h c hc
    rw [cells_linePrefix, if_pos (by omega), List.getElem?_append_right (by omega)]
    obtain ⟨j, hj⟩ : ∃ j, c - 2 - (fmtPadUnsigned 3 n).length = j + 2 :=
      ⟨c - 4 - (fmtPadUnsigned 3 n).length, by omega⟩
    rw [hj]
    cases j with
    | zero => rfl
    | succ j => rfl

theorem newline_notMem_linePrefix : (.char '\n' : Mark Colour) ∉ printLinePrefix n target := by
  intro h
  unfold printLinePrefix at h
  rcases List.mem_append.mp h with h | h
  · rcases List.mem_append.mp h with h | h
    · exact newline_notMem_text (by decide) h
    · rcases List.mem_cons.mp h with h | h
      · cases h
      · exact newline_notMem_text (fun hmem => (plain_linePrefix _ hmem).1 rfl) h
  · split_ifs at h
    · cases List.mem_singleton.mp h
    · cases h

variable {row : List (Mark Colour)}

variable (ink above) in
/-- What the end of the output leaves of the last row. -/
theorem draw_closing (hrow : .char '\n' ∉ row) : ∃ ink',
    Screen.draw ⟨above, .blank ink⟩ (row ++ closing) =
      ⟨above ++ [fun c => if c < 10 then none else ((Screen.Row.blank ink).draw row).cells c],
        .blank ink'⟩ := by
  have hsplit : closing = [.ink .reset] ++ (.char '\r' :: text (List.replicate 10 ' ')) ++
      [.char '\n'] := rfl
  have hblanks : .char '\n' ∉
      [Mark.ink Colour.reset] ++ (.char '\r' :: text (List.replicate 10 ' ')) := by
    simp [newline_notMem_text]
  rw [hsplit, ← List.append_assoc, draw_newline,
    draw_row fun h => (List.mem_append.mp h).elim hrow hblanks, Screen.Row.draw_append,
    Screen.Row.draw_append]
  refine ⟨_, congrArg (Screen.mk · _) (congrArg (above ++ [·]) ?_)⟩
  exact Screen.Row.draw_erase _ 10

/-- A row is gone if nothing is behind the blanks. -/
theorem shown_hidden_iff (hrow : .char '\n' ∉ row) :
    shown (Screen.draw ⟨above, .blank ink⟩ (row ++ closing)) =
      shown (Screen.draw ⟨above, .blank ink⟩ []) ↔
    ∀ c ≥ 10, ((Screen.Row.blank ink).draw row).cells c = none := by
  obtain ⟨ink', hclosing⟩ := draw_closing ink above hrow
  have hbelow : shown (Screen.draw ⟨above, .blank ink⟩ []) =
      shown ⟨above ++ [fun _ => none], .blank ink⟩ := shown_blank
  rw [hclosing, hbelow, shown_eq_iff]
  constructor
  · intro h c hc
    have hcell := congrFun h c
    rwa [if_neg (Nat.not_lt.mpr hc)] at hcell
  · intro h
    funext c
    split_ifs with hc
    · rfl
    · exact h c (Nat.le_of_not_lt hc)

/-- A row is whole if nothing is in front of the blanks. -/
theorem shown_whole_iff (hrow : .char '\n' ∉ row) :
    shown (Screen.draw ⟨above, .blank ink⟩ (row ++ closing)) =
      shown (Screen.draw ⟨above, .blank ink⟩ (row ++ [.char '\n'])) ↔
    ∀ c < 10, ((Screen.Row.blank ink).draw row).cells c = none := by
  obtain ⟨ink', hclosing⟩ := draw_closing ink above hrow
  rw [hclosing, draw_newline, draw_row hrow, shown_eq_iff]
  constructor
  · intro h c hc
    have hcell := congrFun h c
    rw [if_pos hc] at hcell
    exact hcell.symm
  · intro h
    funext c
    split_ifs with hc
    · exact (h c hc).symm
    · rfl

variable (above ink n target) in
/-- The last row shows what it should exactly if the blanks hide nothing of it. -/
theorem shown_closing_iff (ht : '\n' ∉ t) :
    shown (Screen.draw ⟨above, .blank ink⟩ (printLinePrefix n target ++ text t ++ closing)) =
      shown (Screen.draw ⟨above, .blank ink⟩
        (if t = [] then [] else printLinePrefix n target ++ text t ++ [.char '\n'])) ↔
      if t = [] then n.toNat < 10 ^ 6
      else ∀ c < 10,
        ((Screen.Row.blank .reset).draw (printLinePrefix n target ++ text t)).cells c = none := by
  have hrow : .char '\n' ∉ printLinePrefix n target ++ text t := fun h =>
    (List.mem_append.mp h).elim newline_notMem_linePrefix (newline_notMem_text ht)
  by_cases hnil : t = []
  · subst hnil
    rw [if_pos rfl, if_pos rfl, shown_hidden_iff hrow, show text [] = [] from rfl, List.append_nil]
    exact prefix_hidden_iff
  · rw [if_neg hnil, if_neg hnil, shown_whole_iff hrow, draw_linePrefix, draw_linePrefix]

end LastRow

/-! ## The window is shown -/

section Shown

variable {file fileName : List Char} {line linesContext : BitVec 32}

theorem startLine_toNat (hline : 1 ≤ line.toNat) (hcontext : 1 ≤ linesContext.toNat) :
    (startLine line linesContext).toNat = firstLine line linesContext := by
  unfold startLine firstLine
  split_ifs with h
  · rw [BitVec.le_def] at h
    rw [Nat.max_eq_left (by omega)]
    rfl
  · rw [BitVec.le_def] at h
    bv_omega

theorem endLine_toNat (hline : 1 ≤ line.toNat) (hcontext : 1 ≤ linesContext.toNat)
    (hfits : line.toNat + 2 * linesContext.toNat < 2 ^ 32) :
    (endLine line linesContext).toNat = windowEnd line linesContext := by
  unfold endLine windowEnd firstLine
  split_ifs with h
  · rw [BitVec.lt_def] at h
    bv_omega
  · rw [BitVec.lt_def] at h
    bv_omega

/-- A file taken apart, and what its lines are. -/
structure Parts (file : List Char) (ls : List (List Char)) (tail : List Char) : Prop where
  file_eq : file = joinLines ls ++ tail
  lines : ∀ l ∈ ls, '\n' ∉ l
  tail_line : '\n' ∉ tail
  lastText_eq : lastText file = tail
  lastNumber_eq : lastNumber file = ls.length + 1
  fileLines_eq : fileLines file = ls ++ if tail = [] then [] else [tail]

theorem exists_parts (file : List Char) : ∃ ls tail, Parts file ls tail := by
  obtain ⟨ls, tail, hls, htail, rfl⟩ := exists_joinLines file
  have hparts := splitOn_joinLines hls htail
  refine ⟨ls, tail, rfl, hls, htail, ?_, ?_, ?_⟩
  · rw [lastText, hparts, List.getLastD_concat]
  · rw [lastNumber, hparts, List.length_append, List.length_singleton]
  · rw [fileLines, hparts, List.getLast?_concat, List.dropLast_concat]
    by_cases hnil : tail = []
    · rw [if_pos (congrArg some hnil), if_pos hnil, List.append_nil]
    · rw [if_neg (by simpa using hnil), if_neg hnil]

variable {ls : List (List Char)} {tail : List Char}

/-- The complete lines of the window, with their numbers. -/
def windowRows (ls : List (List Char)) (line linesContext : BitVec 32) : List (List Char × ℕ) :=
  ((ls.drop (firstLine line linesContext - 1)).take (2 * linesContext.toNat - 1)).zipIdx
    (firstLine line linesContext)

variable (line linesContext) in
theorem firstLine_pos : 1 ≤ firstLine line linesContext := Nat.le_max_left _ _

/-- Where the window begins behind the file, nothing is in it. -/
theorem beyond (h : Parts file ls tail) (hlt : ls.length < firstLine line linesContext - 1) :
    windowRows ls line linesContext = [] ∧ window file line linesContext = [] ∧
      unfinished file line linesContext = [] ∧
      lastPrinted file line linesContext = 1 + ls.length := by
  refine ⟨?_, ?_, ?_, ?_⟩
  · rw [windowRows, List.drop_eq_nil_of_le hlt.le, List.take_nil]
    rfl
  · have hle : (fileLines file).length ≤ firstLine line linesContext - 1 := by
      rw [h.fileLines_eq, List.length_append]
      split_ifs
      · exact hlt.le
      · exact hlt
    rw [window, List.drop_eq_nil_of_le hle, List.take_nil]
    rfl
  · rw [unfinished, h.lastNumber_eq, if_neg (by omega)]
  · rw [lastPrinted, h.lastNumber_eq, windowEnd]
    omega

/-- Where it begins in the file, it is complete lines and a text without a newline, if there is one
in it. -/
theorem within (h : Parts file ls tail) (hle : firstLine line linesContext - 1 ≤ ls.length) :
    unfinished file line linesContext =
      (if (ls.drop (firstLine line linesContext - 1)).length < 2 * linesContext.toNat - 1
        then tail else []) ∧
    lastPrinted file line linesContext = firstLine line linesContext +
      min (2 * linesContext.toNat - 1) (ls.drop (firstLine line linesContext - 1)).length ∧
    window file line linesContext = (windowRows ls line linesContext).flatMap (numbered line) ++
      if unfinished file line linesContext = [] then [] else
        numbered line (unfinished file line linesContext, lastPrinted file line linesContext) := by
  have hpos := firstLine_pos line linesContext
  have hunfinished : unfinished file line linesContext =
      if (ls.drop (firstLine line linesContext - 1)).length < 2 * linesContext.toNat - 1
        then tail else [] := by
    rw [unfinished, h.lastNumber_eq, h.lastText_eq, windowEnd, List.length_drop]
    refine if_congr ?_ rfl rfl
    omega
  have hprinted : lastPrinted file line linesContext = firstLine line linesContext +
      min (2 * linesContext.toNat - 1) (ls.drop (firstLine line linesContext - 1)).length := by
    rw [lastPrinted, h.lastNumber_eq, windowEnd, List.length_drop]
    omega
  refine ⟨hunfinished, hprinted, ?_⟩
  rw [hunfinished, hprinted, window, windowRows, h.fileLines_eq,
    List.drop_append_of_le_length hle, List.take_append, List.zipIdx_append, List.flatMap_append]
  refine congrArg _ ?_
  generalize ls.drop (firstLine line linesContext - 1) = left
  by_cases hroom : left.length < 2 * linesContext.toNat - 1
  · rw [if_pos hroom, List.length_take]
    by_cases hnil : tail = []
    · rw [if_pos hnil, if_pos hnil, List.take_nil]
      rfl
    · rw [if_neg hnil, if_neg hnil, List.take_of_length_le (Nat.sub_pos_of_lt hroom)]
      exact List.append_nil _
  · rw [if_neg hroom, if_pos rfl, Nat.sub_eq_zero_of_le (Nat.le_of_not_lt hroom), List.take_zero]
    rfl

theorem window_eq (h : Parts file ls tail) : window file line linesContext =
    (windowRows ls line linesContext).flatMap (numbered line) ++
      if unfinished file line linesContext = [] then [] else
        numbered line (unfinished file line linesContext, lastPrinted file line linesContext) := by
  rcases Nat.lt_or_ge ls.length (firstLine line linesContext - 1) with hlt | hle
  · obtain ⟨hrows, hwindow, hunfinished, -⟩ := beyond h hlt
    rw [hrows, hwindow, hunfinished]
    rfl
  · exact (within h hle).2.2

variable (line linesContext) in
theorem Parts.unfinished_line (h : Parts file ls tail) :
    '\n' ∉ unfinished file line linesContext := by
  unfold unfinished
  split_ifs
  · rw [h.lastText_eq]
    exact h.tail_line
  · exact List.not_mem_nil

variable (file) in
/-- The last number that is printed is no other one as an `unsigned`. -/
theorem lastPrinted_toNat (hline : 1 ≤ line.toNat) (hcontext : 1 ≤ linesContext.toNat)
    (hfits : line.toNat + 2 * linesContext.toNat < 2 ^ 32) :
    (BitVec.ofNat 32 (lastPrinted file line linesContext)).toNat =
      lastPrinted file line linesContext := by
  have hend := (endLine line linesContext).isLt
  rw [endLine_toNat hline hcontext hfits] at hend
  have hlt : lastPrinted file line linesContext < 2 ^ 32 :=
    lt_of_le_of_lt (Nat.min_le_left _ _) hend
  rw [BitVec.toNat_ofNat, Nat.mod_eq_of_lt hlt]

/-- What is printed are the complete lines of the window, and then the last number with what is
behind it. -/
theorem printSource_eq (h : Parts file ls tail) (hline : 1 ≤ line.toNat)
    (hcontext : 1 ≤ linesContext.toNat) (hfits : line.toNat + 2 * linesContext.toNat < 2 ^ 32) :
    printSource fileName (some file) line linesContext = .ok (heading fileName ++
      (windowRows ls line linesContext).flatMap (numbered line) ++
        (printLinePrefix (BitVec.ofNat 32 (lastPrinted file line linesContext)) line ++
          text (unfinished file line linesContext) ++ closing)) := by
  have hstart := startLine_toNat hline hcontext
  have hend := endLine_toNat hline hcontext hfits
  have hpos := firstLine_pos line linesContext
  have hskip := skipLines_joinLines h.lines h.tail_line (hstart ▸ hpos)
  rw [← h.file_eq, hstart] at hskip
  unfold printSource
  rw [if_neg (by rintro rfl; exact absurd hline (by decide)),
    if_neg (by rintro rfl; exact absurd hcontext (by decide))]
  dsimp only
  rw [show (1 : BitVec 32) = BitVec.ofNat 32 1 from rfl, hskip]
  rcases Nat.lt_or_ge ls.length (firstLine line linesContext - 1) with hlt | hle
  · obtain ⟨hrows, -, hunfinished, hprinted⟩ := beyond h hlt
    rw [if_neg (Nat.not_le.mpr hlt), hrows, hunfinished, hprinted]
    dsimp only
    rw [printLines]
    simp [text]
  · obtain ⟨hunfinished, hprinted, -⟩ := within h hle
    have hleft : ∀ l ∈ ls.drop (firstLine line linesContext - 1), '\n' ∉ l := fun l hl =>
      h.lines l (List.mem_of_mem_drop hl)
    have hfirst : firstLine line linesContext ≤ (endLine line linesContext).toNat := by
      rw [hend, windowEnd]
      exact Nat.le_add_right _ _
    have hrest := printLines_joinLines line hleft h.tail_line hfirst
    have hof : BitVec.ofNat 32 (firstLine line linesContext) = startLine line linesContext := by
      rw [← hstart, BitVec.ofNat_toNat, BitVec.setWidth_eq]
    rw [hof, hend, windowEnd, Nat.add_sub_cancel_left] at hrest
    rw [if_pos hle, hunfinished, hprinted]
    dsimp only
    rw [List.append_assoc (heading fileName), hrest]
    simp only [List.append_assoc]
    rfl

variable (line) in
/-- Rows end at the beginning of the next one. -/
theorem draw_rows (rows : List (List Char × ℕ)) (above : List (ℕ → Option (Char × Colour)))
    (ink : Colour) : ∃ above' ink',
      Screen.draw ⟨above, .blank ink⟩ (rows.flatMap (numbered line)) = ⟨above', .blank ink'⟩ := by
  induction rows generalizing above ink with
  | nil => exact ⟨above, ink, rfl⟩
  | cons row rows ih =>
    rw [List.flatMap_cons, Screen.draw_append, numbered, draw_newline]
    exact ih _ _

variable (fileName) in
theorem draw_heading : ∃ above, Screen.draw ⟨[], .blank .reset⟩ (heading fileName) =
    ⟨above, .blank .reset⟩ := by
  have hsplit : heading fileName = .ink .cyn :: text ("\n ".toList ++ fileName ++ ":".toList) ++
      [.char '\n'] ++ [.ink .reset] := by
    simp [heading, text]
  rw [hsplit, Screen.draw_append, draw_newline]
  exact ⟨_, rfl⟩

/-- **The source around a line.** For every file, line and context, what `print_source` leaves on
the screen below its heading are the lines of the window with their numbers, exactly if the blanks at
its end hide nothing of them. -/
theorem printSource_shows_iff (fileName file : List Char) (hline : 1 ≤ line.toNat)
    (hcontext : 1 ≤ linesContext.toNat) (hfits : line.toNat + 2 * linesContext.toNat < 2 ^ 32) :
    ∃ out, printSource fileName (some file) line linesContext = .ok out ∧
      (shown (Screen.draw ⟨[], .blank .reset⟩ out) = shown (Screen.draw ⟨[], .blank .reset⟩
          (heading fileName ++ window file line linesContext)) ↔
        HidesNothing file line linesContext) := by
  obtain ⟨ls, tail, h⟩ := exists_parts file
  refine ⟨_, printSource_eq h hline hcontext hfits, ?_⟩
  obtain ⟨above, hheading⟩ := draw_heading fileName
  obtain ⟨above', ink, hrows⟩ := draw_rows line (windowRows ls line linesContext) above .reset
  have hdraw : ∀ xs, Screen.draw ⟨[], .blank .reset⟩ (heading fileName ++
      (windowRows ls line linesContext).flatMap (numbered line) ++ xs) =
        Screen.draw ⟨above', .blank ink⟩ xs := fun xs => by
    rw [Screen.draw_append, Screen.draw_append, hheading, hrows]
  have hclosing := shown_closing_iff (BitVec.ofNat 32 (lastPrinted file line linesContext)) line
    ink above' (h.unfinished_line line linesContext)
  rw [lastPrinted_toNat file hline hcontext hfits] at hclosing
  rw [window_eq h, ← List.append_assoc (heading fileName), hdraw, hdraw]
  exact hclosing

/-- In a file of two lines the window around the first one is that line. -/
theorem printSource_shows_twoLines : ∃ out,
    printSource "f".toList (some "a\nb\n".toList) 1 1 = .ok out ∧
      shown (Screen.draw ⟨[], .blank .reset⟩ out) = shown (Screen.draw ⟨[], .blank .reset⟩
        (heading "f".toList ++ window "a\nb\n".toList 1 1)) := by
  have hone : 1 ≤ (1 : BitVec 32).toNat := by decide
  obtain ⟨out, hout, hiff⟩ :=
    printSource_shows_iff "f".toList "a\nb\n".toList hone hone (by decide)
  have hunfinished : unfinished "a\nb\n".toList 1 1 = [] := by decide
  refine ⟨out, hout, hiff.mpr ?_⟩
  -- the number printed last is 2
  rw [HidesNothing, if_pos hunfinished]
  decide

/-- A line without a newline loses its number and its text. -/
theorem unfinishedLine_hidden : ¬∀ (fileName file : List Char) (line linesContext : BitVec 32),
    1 ≤ line.toNat → 1 ≤ linesContext.toNat → line.toNat + 2 * linesContext.toNat < 2 ^ 32 →
    ∃ out, printSource fileName (some file) line linesContext = .ok out ∧
      shown (Screen.draw ⟨[], .blank .reset⟩ out) = shown (Screen.draw ⟨[], .blank .reset⟩
        (heading fileName ++ window file line linesContext)) := by
  intro h
  obtain ⟨out, hout, hshown⟩ :=
    h "f".toList "ab".toList 1 1 (by decide) (by decide) (by decide)
  -- the cell of the `a`
  have hcell := congrFun (congrFun hshown 2) 8
  cases Except.ok.inj hout
  exact absurd hcell (by decide)

end Shown

end Vdbg.Window
