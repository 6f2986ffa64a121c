import Vdbg.Completion
import Vdbg.SourceWindow

/-!
# The list of breakpoints

`print_breakpoint_list` prints a line for each pending breakpoint. The lines can be read back, so
what is printed at a prompt tells the breakpoints, in their order, and the id of a line selects the
breakpoint of that line (`printBreakpointList_tells`).
-/

namespace Vdbg

open FaultRun Numerals

/-! ## Printing -/

/-- `%#016lx` for the width 16, which counts the `0x`. The number 0 is printed without it. -/
def fmtAltPadHex (width : ℕ) (x : BitVec 64) : List Char :=
  if x = 0 then List.replicate width '0'
  else '0' :: 'x' :: (List.replicate (width - 2 - (fmtHex x).length) '0' ++ fmtHex x)

/-- `%-7s` of the flag. -/
def enableColumn (enable : Bool) : List Char :=
  if enable then "True   ".toList else "False  ".toList

/-- The last two columns. -/
def kindColumns : BpKind → List Char
  | .addr => "ADDR   -".toList
  | .symbol name => "SYMBOL ".toList ++ name.toList
  | .lineno file line => "LINENO ".toList ++ (file.toList ++ ':' :: fmtInt line)

/-- The line of a breakpoint. -/
def breakpointLine (bp : Breakpoint) : List Char :=
  fmtUnsigned bp.id ++ ("    ".toList ++ (enableColumn bp.enable ++
    ' ' :: (fmtAltPadHex 16 bp.instrAddr ++ ' ' :: kindColumns bp.kind)))

def listHeader : List Char := "\x1b[1;37mId   Enabled Address          Type   Desc \x1b[0m".toList

/-- `print_breakpoint_list` -/
def printBreakpointList (w : World) : Res (List Char) :=
  if w.pendingBreakpoints = [] then .ok "No breakpoints set\n".toList
  else do
    let bps ← w.pendingBreakpoints.mapM w.derefBp
    return listHeader ++ '\n' :: bps.flatMap fun bp => breakpointLine bp ++ ['\n']

/-! ## Reading what was printed -/

/-- What the list shows of a breakpoint. -/
structure Shown where
  id : BitVec 64
  enable : Bool
  instrAddr : Addr
  kind : BpKind
deriving DecidableEq, Repr

def Breakpoint.shown (bp : Breakpoint) : Shown := ⟨bp.id, bp.enable, bp.instrAddr, bp.kind⟩

/-- The pending breakpoints. -/
def World.shown (w : World) : List Shown :=
  w.pendingBreakpoints.filterMap fun b => (w.bps b).map Breakpoint.shown

/-- The kind, where the line number is behind the last colon. -/
def readKind (text : List Char) : BpKind :=
  if text.head? = some 'A' then .addr
  else if text.head? = some 'S' then .symbol (.ofList (text.drop 7))
  else
    let pair := (text.drop 7).reverse
    .lineno (.ofList (pair.dropWhile (· ≠ ':')).tail.reverse)
      (atoi (pair.takeWhile (· ≠ ':')).reverse)

/-- The line of a breakpoint, by its columns. -/
def readLine (line : List Char) : Shown :=
  let rest := (line.dropWhile Char.isDigit).drop 4
  let columns := rest.drop 8
  ⟨strtoul (line.takeWhile Char.isDigit) 10, rest.head? = some 'T',
    strtoul (columns.takeWhile (· ≠ ' ')) 16, readKind (columns.dropWhile (· ≠ ' ')).tail⟩

/-- The lines below the header. -/
def readList (text : List Char) : List Shown :=
  ((text.splitOn '\n').tail.dropLast).map readLine

/-- The texts of a kind keep to their line, and its number is an `int`. -/
def BpKind.OnLine : BpKind → Prop
  | .addr => True
  | .symbol name => '\n' ∉ name.toList
  | .lineno file line => '\n' ∉ file.toList ∧ -2 ^ 31 ≤ line ∧ line < 2 ^ 31

variable {k : Kernel} {syms : Symbols} {w : World} {bp : Breakpoint} {kind : BpKind}
  {x : BitVec 64} {width : ℕ} {pre post : List Char} {p : Char → Bool} {c : Char}

/-! ## Columns -/

theorem takeWhile_column (hpre : ∀ c ∈ pre, p c = true) (hc : p c = false) (post : List Char) :
    (pre ++ c :: post).takeWhile p = pre ∧ (pre ++ c :: post).dropWhile p = c :: post := by
  rw [List.takeWhile_append_of_pos hpre, List.dropWhile_append_of_pos hpre,
    List.takeWhile_cons_of_neg (by simp [hc]), List.dropWhile_cons_of_neg (by simp [hc])]
  exact ⟨List.append_nil pre, rfl⟩

theorem fmtAltPadHex_chars : ∀ c ∈ fmtAltPadHex width x, c = 'x' ∨ (digit 16 c).isSome := by
  intro c hc
  have hdigits : AllDigits 16 (fmtHex x) := allDigits_toDigits (by decide) (by decide)
  unfold fmtAltPadHex at hc
  split_ifs at hc
  · rw [List.eq_of_mem_replicate hc]
    exact .inr (by decide)
  · simp only [List.mem_cons, List.mem_append, List.mem_replicate] at hc
    rcases hc with rfl | rfl | ⟨-, rfl⟩ | hc
    · exact .inr (by decide)
    · exact .inl rfl
    · exact .inr (by decide)
    · exact .inr (hdigits c hc)

theorem strtoul_fmtAltPadHex : strtoul (fmtAltPadHex 16 x) 16 = x := by
  unfold fmtAltPadHex
  split_ifs with h0
  · rw [h0]
    decide
  · exact strtoul_hex _

theorem fmtAltPadHex_spaceless (width : ℕ) (x : BitVec 64) :
    ∀ c ∈ fmtAltPadHex width x, decide (c ≠ ' ') = true := by
  intro c hc
  refine decide_eq_true fun hspace => ?_
  subst hspace
  rcases fmtAltPadHex_chars _ hc with h | h
  · cases h
  · cases h

theorem fmtInt_colonless (z : ℤ) : ∀ c ∈ fmtInt z, decide (c ≠ ':') = true := by
  intro c hc
  have hdigits : AllDigits 10 (Nat.toDigits 10 z.natAbs) :=
    allDigits_toDigits (by decide) (by decide)
  refine decide_eq_true fun hcolon => ?_
  subst hcolon
  unfold fmtInt at hc
  split_ifs at hc
  · rcases List.mem_cons.mp hc with h | h
    · cases h
    · exact absurd h (hdigits.not_mem (by decide))
  · exact absurd hc (hdigits.not_mem (by decide))

/-! ## Lines -/

theorem readKind_kindColumns (h : kind.OnLine) : readKind (kindColumns kind) = kind := by
  cases kind with
  | addr => rfl
  | symbol name =>
    show BpKind.symbol (.ofList name.toList) = _
    rw [String.ofList_toList]
  | lineno file line =>
    have hdrop : (kindColumns (.lineno file line)).drop 7 = file.toList ++ ':' :: fmtInt line := rfl
    have hrev : (file.toList ++ ':' :: fmtInt line).reverse =
        (fmtInt line).reverse ++ ':' :: file.toList.reverse := by simp
    obtain ⟨htake, hrest⟩ := takeWhile_column (c := ':')
      (fun c hc => fmtInt_colonless line c (List.mem_reverse.mp hc)) (by decide) file.toList.reverse
    have hread : readKind (kindColumns (.lineno file line)) =
        .lineno (.ofList (((fmtInt line).reverse ++ ':' :: file.toList.reverse).dropWhile
            (· ≠ ':')).tail.reverse)
          (atoi (((fmtInt line).reverse ++ ':' :: file.toList.reverse).takeWhile
            (· ≠ ':')).reverse) := by
      rw [← hrev, ← hdrop]
      rfl
    rw [hread, htake, hrest, List.reverse_reverse, List.tail_cons, List.reverse_reverse,
      String.ofList_toList, atoi_fmtInt h.2.1 h.2.2]

/-- A line is read as what was printed. -/
theorem readLine_breakpointLine (h : bp.kind.OnLine) : readLine (breakpointLine bp) = bp.shown := by
  have hnumber : ∀ c ∈ fmtUnsigned bp.id, c.isDigit = true :=
    List.all_eq_true.mp isNumber_fmtUnsigned
  obtain ⟨hid, hrest⟩ := takeWhile_column (c := ' ') hnumber (by decide) ("   ".toList ++
    (enableColumn bp.enable ++ ' ' :: (fmtAltPadHex 16 bp.instrAddr ++ ' ' :: kindColumns bp.kind)))
  obtain ⟨haddr, hkind⟩ := takeWhile_column (c := ' ')
    (fmtAltPadHex_spaceless 16 bp.instrAddr) (by decide) (kindColumns bp.kind)
  have hline : breakpointLine bp = fmtUnsigned bp.id ++ ' ' :: ("   ".toList ++
    (enableColumn bp.enable ++ ' ' :: (fmtAltPadHex 16 bp.instrAddr ++
      ' ' :: kindColumns bp.kind))) := rfl
  have hcolumns : (enableColumn bp.enable ++ ' ' :: (fmtAltPadHex 16 bp.instrAddr ++
      ' ' :: kindColumns bp.kind)).drop 8 =
      fmtAltPadHex 16 bp.instrAddr ++ ' ' :: kindColumns bp.kind := by
    cases bp.enable <;> rfl
  have henable : decide ((enableColumn bp.enable ++ ' ' :: (fmtAltPadHex 16 bp.instrAddr ++
      ' ' :: kindColumns bp.kind)).head? = some 'T') = bp.enable := by
    cases bp.enable <;> rfl
  have hdrop : ∀ rest : List Char, (' ' :: ("   ".toList ++ rest)).drop 4 = rest := fun _ => rfl
  unfold readLine
  dsimp only
  rw [hline, hid, hrest, hdrop, hcolumns, henable, haddr, hkind, List.tail_cons,
    readKind_kindColumns h, strtoul_fmtUnsigned, strtoul_fmtAltPadHex]
  rfl

theorem breakpointLine_newlineless (h : bp.kind.OnLine) : '\n' ∉ breakpointLine bp := by
  have hid : '\n' ∉ fmtUnsigned bp.id :=
    (allDigits_toDigits (by decide) (by decide)).not_mem (by decide)
  have haddr : '\n' ∉ fmtAltPadHex 16 bp.instrAddr := fun hmem => by
    rcases fmtAltPadHex_chars _ hmem with h | h <;> cases h
  have henable : '\n' ∉ enableColumn bp.enable := by cases bp.enable <;> decide
  have hkind : '\n' ∉ kindColumns bp.kind := by
    cases hk : bp.kind with
    | addr => decide
    | symbol name =>
      rw [hk] at h
      exact fun hmem => (List.mem_append.mp hmem).elim (by decide) h
    | lineno file line =>
      rw [hk] at h
      have hint : '\n' ∉ fmtInt line := by
        have hdigits : AllDigits 10 (Nat.toDigits 10 line.natAbs) :=
          allDigits_toDigits (by decide) (by decide)
        unfold fmtInt
        split_ifs
        · exact fun hmem => (List.mem_cons.mp hmem).elim (by decide) (hdigits.not_mem (by decide))
        · exact hdigits.not_mem (by decide)
      unfold kindColumns
      rw [List.mem_append, List.mem_append, List.mem_cons]
      rintro (hmem | hmem | hmem | hmem)
      · exact absurd hmem (by decide)
      · exact h.1 hmem
      · cases hmem
      · exact hint hmem
  unfold breakpointLine
  simp only [List.mem_append, List.mem_cons]
  rintro (hmem | hmem | hmem | hmem | hmem | hmem | hmem)
  · exact hid hmem
  · exact absurd hmem (by decide)
  · exact henable hmem
  · cases hmem
  · exact haddr hmem
  · cases hmem
  · exact hkind hmem

/-! ## The list -/

theorem mapM_derefBp {bs : List BpPtr} (h : ∀ b ∈ bs, (w.bps b).isSome) :
    bs.mapM w.derefBp = .ok (bs.filterMap w.bps) := by
  induction bs with
  | nil => rfl
  | cons b bs ih =>
    obtain ⟨bp, hb⟩ := Option.isSome_iff_exists.mp (h b List.mem_cons_self)
    rw [List.mapM_cons, World.derefBp_eq hb, ok_bind,
      ih fun q hq => h q (List.mem_cons_of_mem b hq), List.filterMap_cons_some hb]
    rfl

/-- All pending breakpoints are live when they are listed. -/
theorem printBreakpointList_eq (h : Registry w) : printBreakpointList w =
    if w.pendingBreakpoints = [] then .ok "No breakpoints set\n".toList
    else .ok (listHeader ++ '\n' :: Window.joinLines
      ((w.pendingBreakpoints.filterMap w.bps).map breakpointLine)) := by
  unfold printBreakpointList Window.joinLines
  rw [mapM_derefBp fun b hb => (h.live b).mp hb, ok_bind, List.flatMap_map]
  rfl

theorem readList_joinLines {bps : List Breakpoint} (h : ∀ bp ∈ bps, bp.kind.OnLine) :
    readList (listHeader ++ '\n' :: Window.joinLines (bps.map breakpointLine)) =
      bps.map Breakpoint.shown := by
  have hlines : ∀ l ∈ bps.map breakpointLine, '\n' ∉ l := by
    intro l hl
    obtain ⟨bp, hbp, rfl⟩ := List.mem_map.mp hl
    exact breakpointLine_newlineless (h bp hbp)
  have hsplit : (Window.joinLines (bps.map breakpointLine) ++ []).splitOn '\n' = _ :=
    Window.splitOn_joinLines hlines List.not_mem_nil
  rw [List.append_nil] at hsplit
  unfold readList
  rw [List.splitOn_append_cons_self_of_not_mem (by decide), hsplit, List.tail_cons,
    List.dropLast_concat, List.map_map]
  exact List.map_congr_left fun bp hbp => readLine_breakpointLine (h bp hbp)

/-- **The list tells the breakpoints.** At every prompt of every session the list can be printed.
Where the names of the breakpoints keep to their line, reading it gives their ids, flags, addresses
and kinds in their order, and the first column of a line selects its breakpoint. -/
theorem printBreakpointList_tells {cs : List Command} (hok : session k syms dbgInit cs = .ok w)
    (hkind : ∀ b bp, w.bps b = some bp → bp.kind.OnLine) :
    ∃ text, printBreakpointList w = .ok text ∧ readList text = w.shown ∧
      ∀ b bp, w.bps b = some bp → bp.shown ∈ w.shown ∧
        parseArgBp syms w (parseBpArg (fmtUnsigned bp.id)) = .ok (some b) := by
  have hreg := (session_ready dbgInit_ready hok).registry
  have hshown : w.shown = (w.pendingBreakpoints.filterMap w.bps).map Breakpoint.shown :=
    (List.map_filterMap ..).symm
  have hselect : ∀ b bp, w.bps b = some bp → bp.shown ∈ w.shown ∧
      parseArgBp syms w (parseBpArg (fmtUnsigned bp.id)) = .ok (some b) := by
    intro b bp hb
    refine ⟨List.mem_filterMap.mpr ⟨b, hreg.mem hb, by rw [hb]; rfl⟩, ?_⟩
    unfold parseBpArg
    rw [if_pos isNumber_fmtUnsigned, strtoul_fmtUnsigned]
    exact congrArg Except.ok ((hreg.lookup bp.id b).mpr ⟨bp, hb, rfl⟩)
  rw [printBreakpointList_eq hreg]
  split_ifs with hempty
  · refine ⟨_, rfl, ?_, hselect⟩
    rw [hshown, hempty]
    exact (by decide : readList "No breakpoints set\n".toList = [])
  · refine ⟨_, rfl, ?_, hselect⟩
    rw [hshown]
    refine readList_joinLines fun bp hbp => ?_
    obtain ⟨b, -, hb⟩ := List.mem_filterMap.mp hbp
    exact hkind b bp hb

/-- A breakpoint on `main` that is disabled. -/
theorem printBreakpointList_tells_main : ∃ w text,
    session .idle debugSymbols dbgInit [.break [.symbol "main"], .disable []] = .ok w ∧
    printBreakpointList w = .ok text ∧
    readList text = [⟨1, false, 0x401136, .symbol "main"⟩] ∧
    parseArgBp debugSymbols w (parseBpArg "1".toList) = .ok (some 0) := by
  obtain ⟨w, hw, hp⟩ := exists_of_any
    (p := fun w => w.pendingBreakpoints = [0] ∧
      w.bps 0 = some ⟨1, .symbol "main", false, 0x401136, none⟩)
    (x := session .idle debugSymbols dbgInit [.break [.symbol "main"], .disable []])
    (by decide +kernel)
  obtain ⟨hlist, hbp⟩ := of_decide_eq_true hp
  have hreg := (session_ready dbgInit_ready hw).registry
  obtain ⟨text, htext, hread, hselect⟩ := printBreakpointList_tells hw fun b bp hb => by
    have hmem := hreg.mem hb
    rw [hlist, List.mem_singleton] at hmem
    subst hmem
    rw [hbp] at hb
    cases hb
    exact (by decide : '\n' ∉ "main".toList)
  refine ⟨w, text, hw, htext, ?_, (hselect 0 _ hbp).2⟩
  rw [hread, World.shown, hlist, List.filterMap_cons_some (by rw [hbp]; rfl)]
  rfl

end Vdbg
