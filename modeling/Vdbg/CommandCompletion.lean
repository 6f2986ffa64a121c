import Vdbg.Scripts

/-!
# Completing the arguments of a command

`dbg_completion` looks for the command of a line itself. Its words end at blanks and at tabs, and
are cut to its buffer (`getWordAtIndex_eq`), but those of `handle_command` end at blanks only. A name
has no tab in it and fits the buffer, so the two find the same command as long as no tab is in the
first word of the line (`dbgCompletion_follows_iff`).
-/

namespace Vdbg

open Fields

/-! ## The words of the line -/

/-- `c == ' ' || c == '\t'` -/
def isBlank (c : Char) : Bool := c = ' ' || c = '\t'

/-- The loop of `get_word_index_at_start`. -/
def countWords : List Char → Bool → ℕ → ℕ
  | [], _, words => words
  | c :: cs, inToken, words =>
    if isBlank c then countWords cs false words
    else if !inToken then countWords cs true (words + 1)
    else countWords cs inToken words

/-- `get_word_index_at_start`: the number of words that begin before a position of the line. -/
def getWordIndexAtStart (line : List Char) (start : ℕ) : ℕ := countWords (line.take start) false 0

/-- The variables of `get_word_at_index`. -/
structure WordScan where
  words : ℕ
  inToken : Bool
  tokenStart : ℕ
  tokenEnd : ℕ

/-- The loop of `get_word_at_index` from the character at `i` on. -/
def scanWord (target : ℕ) : List Char → ℕ → WordScan → WordScan
  | [], _, s => s
  | c :: cs, i, s =>
    if isBlank c then
      if s.inToken then
        let s := { s with inToken := false }
        if s.words - 1 = target then { s with tokenEnd := i } else scanWord target cs (i + 1) s
      else scanWord target cs (i + 1) s
    else if !s.inToken then
      let s := { s with inToken := true, words := s.words + 1 }
      scanWord target cs (i + 1) (if s.words - 1 = target then { s with tokenStart := i } else s)
    else scanWord target cs (i + 1) s

/-- What `get_word_at_index` copies to its buffer behind the loop. -/
def cutWord (line : List Char) (target bufLen : ℕ) (s : WordScan) : Option (List Char) :=
  let tokenEnd := if s.inToken ∧ s.words - 1 = target then line.length else s.tokenEnd
  if s.words > target ∧ tokenEnd > s.tokenStart then
    let len := tokenEnd - s.tokenStart
    some ((line.drop s.tokenStart).take (if len ≥ bufLen then bufLen - 1 else len))
  else none

/-- `get_word_at_index` -/
def getWordAtIndex (line : List Char) (target bufLen : ℕ) : Option (List Char) :=
  if bufLen = 0 then none
  else cutWord line target bufLen (scanWord target line 0 ⟨0, false, 0, 0⟩)

/-- The words of a text, of which the first one is begun already if `cur` is not empty. -/
def wordsFrom : List Char → List Char → List (List Char)
  | cur, [] => if cur = [] then [] else [cur]
  | cur, c :: cs =>
    if isBlank c then if cur = [] then wordsFrom [] cs else cur :: wordsFrom [] cs
    else wordsFrom (cur ++ [c]) cs

/-- The words between the blanks and tabs of a line. -/
def words (line : List Char) : List (List Char) := wordsFrom [] line

section Words

variable {line pre cur cs : List Char} {c : Char} {target bufLen left : ℕ} {s : WordScan}

/-- Where the word that was looked for is in the line at `cur`, it is copied. -/
theorem cutWord_found (hline : line = pre ++ (cur ++ cs)) (hcur : cur ≠ [])
    (hwords : s.words = target + 1) (hstart : s.tokenStart = pre.length)
    (hend : (if s.inToken ∧ s.words - 1 = target then line.length else s.tokenEnd) =
      pre.length + cur.length) :
    cutWord line target bufLen s = some (cur.take (bufLen - 1)) := by
  have hpos := List.length_pos_of_ne_nil hcur
  unfold cutWord
  dsimp only
  rw [hend, if_pos ⟨by omega, by omega⟩, hstart, Nat.add_sub_cancel_left, hline, List.drop_left]
  split_ifs with hlen
  · rw [List.take_append_of_le_length (by omega)]
  · rw [List.take_left, List.take_of_length_le (by omega)]

theorem cutWord_missing (hwords : s.words ≤ target) : cutWord line target bufLen s = none :=
  if_neg fun h => absurd h.1 (Nat.not_lt.mpr hwords)

variable (line target bufLen cs) in
/-- The loop between two words and in a word, with `left` words to come before the one that is
looked for. -/
theorem scanWord_spec :
    (∀ pre s left, line = pre ++ cs → s.inToken = false → s.words + left = target →
      cutWord line target bufLen (scanWord target cs pre.length s) =
        ((wordsFrom [] cs)[left]?).map (·.take (bufLen - 1))) ∧
    ∀ pre cur s left, line = pre ++ (cur ++ cs) → cur ≠ [] → s.inToken = true →
      0 < s.words → s.words + left = target + 1 → (left = 0 → s.tokenStart = pre.length) →
      cutWord line target bufLen (scanWord target cs (pre ++ cur).length s) =
        ((wordsFrom cur cs)[left]?).map (·.take (bufLen - 1)) := by
  induction cs with
  | nil =>
    constructor
    · intro pre s left hline hin hwords
      exact cutWord_missing (by rw [scanWord]; omega)
    · intro pre cur s left hline hcur hin hpos hwords hstart
      rw [scanWord, wordsFrom, if_neg hcur]
      cases left with
      | zero =>
        refine cutWord_found hline hcur hwords (hstart rfl) ?_
        rw [if_pos ⟨hin, by omega⟩, hline, List.append_nil, List.length_append]
      | succ left =>
        rw [cutWord_missing (by omega)]
        rfl
  | cons c cs ih =>
    obtain ⟨ih₁, ih₂⟩ := ih
    constructor
    · intro pre s left hline hin hwords
      rw [scanWord, wordsFrom, if_pos rfl]
      by_cases hblank : isBlank c = true
      · rw [if_pos hblank, if_pos hblank, if_neg (by simp [hin])]
        have hrest := ih₁ (pre ++ [c]) s left (by simpa using hline) hin hwords
        rwa [List.length_append] at hrest
      · rw [if_neg hblank, if_neg hblank, if_pos (by simp [hin])]
        have hrest := ih₂ pre [c] (if s.words + 1 - 1 = target then
          ⟨s.words + 1, true, pre.length, s.tokenEnd⟩ else ⟨s.words + 1, true, s.tokenStart,
            s.tokenEnd⟩) left (by simpa using hline) (List.cons_ne_nil c [])
        rw [List.length_append] at hrest
        refine hrest ?_ ?_ ?_ ?_
        · split_ifs <;> rfl
        · split_ifs <;> exact Nat.succ_pos s.words
        · split_ifs
          · show s.words + 1 + left = target + 1
            omega
          · show s.words + 1 + left = target + 1
            omega
        · intro hleft
          rw [if_pos (show s.words + 1 - 1 = target by omega)]
    · intro pre cur s left hline hcur hin hpos hwords hstart
      rw [scanWord, wordsFrom, if_neg hcur]
      by_cases hblank : isBlank c = true
      · rw [if_pos hblank, if_pos hblank, if_pos hin]
        dsimp only
        cases left with
        | zero =>
          rw [if_pos (show s.words - 1 = target by omega)]
          refine cutWord_found hline hcur hwords (hstart rfl) ?_
          rw [if_neg (by simp), List.length_append]
        | succ left =>
          rw [if_neg (show ¬s.words - 1 = target by omega)]
          have hrest := ih₁ (pre ++ cur ++ [c]) ⟨s.words, false, s.tokenStart, s.tokenEnd⟩ left
            (by simpa using hline) rfl (show s.words + left = target by omega)
          rwa [List.length_append] at hrest
      · rw [if_neg hblank, if_neg hblank, if_neg (by simp [hin])]
        have hrest := ih₂ pre (cur ++ [c]) s left (by simpa using hline) (by simp) hin hpos
          hwords hstart
        rwa [← List.append_assoc, List.length_append] at hrest

/-- `get_word_at_index` finds the word of that number, cut to the buffer. -/
theorem getWordAtIndex_eq (line : List Char) (target : ℕ) (hbuf : bufLen ≠ 0) :
    getWordAtIndex line target bufLen = ((words line)[target]?).map (·.take (bufLen - 1)) := by
  unfold getWordAtIndex
  rw [if_neg hbuf]
  exact (scanWord_spec line line target bufLen).1 [] _ target rfl rfl (Nat.zero_add target)

/-! ## The first word -/

theorem head?_wordsFrom (hcur : cur ≠ []) :
    (wordsFrom cur cs).head? = some (cur ++ cs.takeWhile (!isBlank ·)) := by
  induction cs generalizing cur with
  | nil => rw [wordsFrom, if_neg hcur, List.takeWhile_nil, List.append_nil]; rfl
  | cons c cs ih =>
    rw [wordsFrom, if_neg hcur]
    by_cases hblank : isBlank c = true
    · rw [if_pos hblank, List.takeWhile_cons_of_neg (by simp [hblank]), List.append_nil]
      rfl
    · rw [if_neg hblank, ih (by simp), List.takeWhile_cons_of_pos (by simpa using hblank),
        List.append_assoc, List.singleton_append]

theorem words_blank (hblank : isBlank c = true) : words (c :: cs) = words cs := by
  unfold words
  rw [wordsFrom, if_pos hblank, if_pos rfl]

theorem head?_words (hblank : isBlank c = false) :
    (words (c :: cs)).head? = some ((c :: cs).takeWhile (!isBlank ·)) := by
  unfold words
  rw [wordsFrom, if_neg (by simp [hblank]), List.nil_append,
    head?_wordsFrom (List.cons_ne_nil c []),
    List.takeWhile_cons_of_pos (by simp [hblank]), List.singleton_append]

/-- Where there is no tab in the first token of a line, it is the first word. -/
theorem head?_words_eq (h : ∀ token ∈ (fields ' ' line).head?, '\t' ∉ token) :
    (words line).head? = (fields ' ' line).head? := by
  induction line with
  | nil => rfl
  | cons c cs ih =>
    by_cases hspace : c = ' '
    · subst hspace
      rw [fields_sep] at h ⊢
      rw [words_blank rfl, ih h]
    · have htoken : (fields ' ' (c :: cs)).head? = some ((c :: cs).takeWhile (· ≠ ' ')) := by
        rw [fields_eq hspace]
        rfl
      rw [htoken] at h ⊢
      have htab := h _ rfl
      have hblank : ∀ x ∈ (c :: cs).takeWhile (· ≠ ' '), isBlank x = false := by
        intro x hx
        have hne : x ≠ ' ' := by simpa using List.mem_takeWhile_imp hx
        have hne' : x ≠ '\t' := fun he => htab (he ▸ hx)
        simp [isBlank, hne, hne']
      have hc : isBlank c = false := hblank c (by
        rw [List.takeWhile_cons_of_pos (by simpa using hspace)]
        exact List.mem_cons_self)
      rw [head?_words hc]
      have hself : ((c :: cs).takeWhile (· ≠ ' ')).takeWhile (!isBlank ·) =
          (c :: cs).takeWhile (· ≠ ' ') :=
        List.takeWhile_eq_self_iff.mpr fun x hx => by rw [hblank x hx]; rfl
      rw [List.takeWhile_takeWhile] at hself
      refine congrArg some (Eq.trans (congrArg (List.takeWhile · (c :: cs)) ?_) hself)
      funext x
      simp only [isBlank, Bool.not_or, ne_eq]
      by_cases hx : x = ' '
      · simp [hx]
      · simp [hx]

end Words

/-! ## The completers -/

/-- The completers of `commands`. -/
inductive Completer where
  | completeBreak | completeDelete | completeDisable | completeDisassemble | completeEnable
  | completeMemory | completeRegister | completeSource
deriving DecidableEq, Repr

/-- The column of `commands` with the completers, which many commands do not have. -/
def CommandEntry.completer (entry : CommandEntry) : Option Completer :=
  match entry.handler with
  | .cmdBreak => some .completeBreak
  | .cmdDelete => some .completeDelete
  | .cmdDisable => some .completeDisable
  | .cmdDisassemble => some .completeDisassemble
  | .cmdEnable => some .completeEnable
  | .cmdMem => some .completeMemory
  | .cmdReg => some .completeRegister
  | .cmdSource => some .completeSource
  | _ => none

/-- What `dbg_completion` calls. -/
inductive Completion where
  /-- `command_generator` for the text. -/
  | commandNames (text : List Char)
  | complete (completer : Completer) (text : List Char) (wordIndex : ℕ)
  | nothing
deriving DecidableEq, Repr

/-- `commands[i].completer`, if it is not `NULL`. -/
def callCompleter (entry : CommandEntry) (text : List Char) (wordIndex : ℕ) : Completion :=
  match entry.completer with
  | some completer => .complete completer text wordIndex
  | none => .nothing

/-- The search of `dbg_completion` for the command. -/
def callFound (cmdName text : List Char) (wordIndex : ℕ) : Completion :=
  match commands.find? (·.name.toList = cmdName) with
  | some entry => callCompleter entry text wordIndex
  | none =>
    match commands.find? (isPrefix (some cmdName) ·.name) with
    | some entry => callCompleter entry text wordIndex
    | none => .nothing

/-- `dbg_completion` for a text that begins at a position of the line. -/
def dbgCompletion (line text : List Char) (start : ℕ) : Completion :=
  let wordIndex := getWordIndexAtStart line start
  if wordIndex = 0 ∨ start = 0 then .commandNames text
  else
    match getWordAtIndex line 0 128 with
    | none => .nothing
    | some cmdName => callFound cmdName text wordIndex

/-- The completer that is called. -/
def Completion.completer : Completion → Option Completer
  | .complete completer _ _ => some completer
  | _ => none

/-- The entry whose handler `handle_command` would call for the line, whatever it requires. -/
def selectedEntry (line : List Char) : Option CommandEntry :=
  (fields ' ' line).head?.bind findCommand

variable {line command text : List Char} {start : ℕ} {entry : CommandEntry} {active dwarf : Bool}

/-- What `handle_command` requires of the tracee and the executable is tested after its search. -/
theorem dispatch_eq (active dwarf : Bool) (line : List Char) : dispatch active dwarf line =
    match selectedEntry line with
    | none => .nothing
    | some entry =>
      if !active && entry.requiresRunningPid then .requiresRunning entry.name
      else if entry.requiresDwarfSymbols && !dwarf then .requiresDwarf entry.name
      else .handled entry.handler (fields ' ' line) := by
  unfold dispatch selectedEntry
  cases fields ' ' line with
  | nil => rfl
  | cons command args => rfl

/-- Only parts of names are found. -/
theorem findCommand_begins (h : findCommand command = some entry) :
    command <+: entry.name.toList := by
  unfold findCommand at h
  split at h
  · rename_i hexact
    cases h
    have hname := List.find?_some hexact
    rw [of_decide_eq_true hname]
  · have hname := List.find?_some h
    exact List.isPrefixOf_iff_prefix.mp hname

theorem names_fit : ∀ entry ∈ commands, entry.name.toList.length < 127 := by decide

theorem names_tabless : ∀ entry ∈ commands, '\t' ∉ entry.name.toList := by decide

/-- The buffer for the word is no limit. -/
theorem findCommand_take (command : List Char) :
    findCommand (command.take 127) = findCommand command := by
  by_cases hlong : command.length ≤ 127
  · rw [List.take_of_length_le hlong]
  · have hnone : ∀ word : List Char, 127 ≤ word.length → findCommand word = none := by
      intro word hword
      rw [Option.eq_none_iff_forall_ne_some]
      intro entry hfind
      have hle := (findCommand_begins hfind).length_le
      have hlt := names_fit entry (Scripts.findCommand_mem hfind)
      omega
    rw [hnone _ (by rw [List.length_take]; omega), hnone _ (by omega)]

theorem findCommand_tab (h : '\t' ∈ command) : findCommand command = none := by
  rw [Option.eq_none_iff_forall_ne_some]
  intro entry hfind
  exact names_tabless entry (Scripts.findCommand_mem hfind) ((findCommand_begins hfind).mem h)

theorem callCompleter_completer (entry : CommandEntry) {wordIndex : ℕ} :
    (callCompleter entry text wordIndex).completer = entry.completer := by
  unfold callCompleter
  cases entry.completer <;> rfl

/-- `dbg_completion` searches the table as `handle_command` does. -/
theorem callFound_completer (command : List Char) {wordIndex : ℕ} :
    (callFound command text wordIndex).completer =
      (findCommand command).bind CommandEntry.completer := by
  unfold callFound findCommand
  cases commands.find? fun entry : CommandEntry => decide (entry.name.toList = command) with
  | some entry => exact callCompleter_completer entry
  | none =>
    cases commands.find? fun entry : CommandEntry => isPrefix (some command) entry.name with
    | some entry => exact callCompleter_completer entry
    | none => rfl

/-- `dbg_completion` calls the completer of the command for the first word of the line. -/
theorem dbgCompletion_completer (h : 0 < getWordIndexAtStart line start) :
    (dbgCompletion line text start).completer =
      ((words line).head?.bind findCommand).bind CommandEntry.completer := by
  have hstart : start ≠ 0 := by
    rintro rfl
    exact absurd h (by simp [getWordIndexAtStart, countWords])
  unfold dbgCompletion
  dsimp only
  rw [if_neg (not_or.mpr ⟨h.ne', hstart⟩), getWordAtIndex_eq line 0 (by decide),
    ← List.head?_eq_getElem?]
  cases (words line).head? with
  | none => rfl
  | some word =>
    rw [Option.bind_some, ← findCommand_take]
    exact callFound_completer _

/-- **Completion and dispatch.** For every line and every position behind the beginning of its first
word, `dbg_completion` calls the completer of the command that `handle_command` finds for the line,
and none where it finds none, exactly if no tab is in the first token of the line or the command for
the part of it that is taken for the first word has no completer. -/
theorem dbgCompletion_follows_iff (line text : List Char) (start : ℕ)
    (h : 0 < getWordIndexAtStart line start) :
    (dbgCompletion line text start).completer = (selectedEntry line).bind CommandEntry.completer ↔
      (∀ token ∈ (fields ' ' line).head?, '\t' ∉ token) ∨
        ∀ word ∈ (words line).head?, ∀ entry, findCommand word = some entry →
          entry.completer = none := by
  rw [dbgCompletion_completer h]
  unfold selectedEntry
  by_cases htab : ∀ token ∈ (fields ' ' line).head?, '\t' ∉ token
  · rw [head?_words_eq htab]
    exact iff_of_true rfl (.inl htab)
  · obtain ⟨token, htoken, hmem⟩ : ∃ token ∈ (fields ' ' line).head?, '\t' ∈ token := by
      push Not at htab
      exact htab
    rw [Option.mem_def.mp htoken, Option.bind_some, findCommand_tab hmem, Option.bind_none,
      or_iff_right fun hno => hno token rfl hmem]
    rw [Option.bind_eq_none_iff]
    constructor
    · intro hnone word hword entry hfind
      exact hnone entry (Option.bind_eq_some_iff.mpr ⟨word, hword, hfind⟩)
    · intro hnone entry hfind
      obtain ⟨word, hword, hfind⟩ := Option.bind_eq_some_iff.mp hfind
      exact hnone word hword entry hfind

/-- The argument of `break`. -/
theorem dbgCompletion_follows_break :
    (dbgCompletion "break ma".toList "ma".toList 6).completer =
      (selectedEntry "break ma".toList).bind CommandEntry.completer :=
  (dbgCompletion_follows_iff "break ma".toList "ma".toList 6 (by decide)).mpr (.inl (by decide))

/-- With a tab behind it, `break` is no command, but it is completed. -/
theorem tabbed_break_completes : ¬∀ (line text : List Char) (start : ℕ),
    0 < getWordIndexAtStart line start →
      (dbgCompletion line text start).completer =
        (selectedEntry line).bind CommandEntry.completer := by
  intro h
  exact absurd (h "break\tx ma".toList "ma".toList 8 (by decide)) (by decide)

end Vdbg
