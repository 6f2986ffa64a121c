import Vdbg.CommandCompletion
import Vdbg.Completion
import Vdbg.Lib.Buffers
import Vdbg.Lib.Generators

/-!
# What completion offers

The generators of `completion.c` give readline their matches one at a time and keep their place in
static variables, which survive from one completion to the next. Each sets its variables up at its
first call, so that together its calls give the names that begin with the text, whatever the
variables were before.
-/

namespace Vdbg

open Buffers FaultRun Generators

/-! ## The static variables -/

/-- `static size_t idx` and `static size_t len`. -/
structure Cursor where
  idx : ℕ
  len : ℕ
deriving DecidableEq, Repr

/-- `bp_candidates` with `bp_cand_count` entries and the room that was allocated for it, and
`bp_cand_cap`. -/
structure BpCandidates where
  array : Buffer (List Char)
  cap : ℕ

/-- The static variables of the file and of its generators. -/
structure Statics where
  /-- `NULL` before the first use. -/
  strlist : Option (List (List Char))
  strlistCursor : Cursor
  funcs : List (String × Addr)
  funcCursor : Cursor
  breakFuncs : List (String × Addr)
  breakFiles : List String
  funcIdx : ℕ
  fileIdx : ℕ
  breakLen : ℕ
  hasFuncMatch : Bool
  bpCandidates : BpCandidates
  bpCursor : Cursor
  commandCursor : Cursor

/-- Static variables are zero at first. -/
def Statics.initial : Statics :=
  ⟨none, ⟨0, 0⟩, [], ⟨0, 0⟩, [], [], 0, 0, 0, false, ⟨.alloc 0, 0⟩, ⟨0, 0⟩, ⟨0, 0⟩⟩

/-! ## The generators -/

/-- `strncmp` finds no difference in the first `len` characters. -/
def strncmpEq (item text : List Char) (len : ℕ) : Bool := item.take len = text.take len

/-- The entry, if it begins with the text. -/
def matching (text : List Char) (len : ℕ) (item : List Char) : Option (List Char) :=
  if strncmpEq item text len then some item else none

/-- The answer of a call of a generator. -/
abbrev Generated := Except Fault (Option (List Char) × Statics)

/-- Where a generator finds its table and its cursor. Each cursor is a variable of its own. -/
structure TableCursor where
  table : Statics → List (List Char)
  cursor : Statics → Cursor
  put : Cursor → Statics → Statics
  table_put : ∀ c s, table (put c s) = table s
  cursor_put : ∀ c s, cursor (put c s) = c
  put_put : ∀ c c' s, put c (put c' s) = put c s
  put_cursor : ∀ s, put (cursor s) s = s

/-- The loop `while (idx < size)` of a generator: the next entry that begins with the text. -/
def TableCursor.next (p : TableCursor) (text : List Char) (s : Statics) : Generated :=
  let (item, idx) := scan (matching text (p.cursor s).len) (p.table s) (p.cursor s).idx
  .ok (item, p.put ⟨idx, (p.cursor s).len⟩ s)

section Generators

variable (realloc : ℕ → Bool) (syms : Symbols) (w : World) (text : List Char)

def strlistCursor : TableCursor where
  table s := s.strlist.getD []
  cursor s := s.strlistCursor
  put c s := { s with strlistCursor := c }
  table_put _ _ := rfl
  cursor_put _ _ := rfl
  put_put _ _ _ := rfl
  put_cursor _ := rfl

def strlistGenerator : Generator Fault Statics (List Char) :=
  restarting (fun s => .ok { s with strlistCursor := ⟨0, text.length⟩ }) (strlistCursor.next text)

def functionCursor : TableCursor where
  table s := s.funcs.map (·.1.toList)
  cursor s := s.funcCursor
  put c s := { s with funcCursor := c }
  table_put _ _ := rfl
  cursor_put _ _ := rfl
  put_put _ _ _ := rfl
  put_cursor _ := rfl

def functionGenerator : Generator Fault Statics (List Char) :=
  restarting (fun s => .ok { s with funcCursor := ⟨0, text.length⟩, funcs := syms.functions })
    (functionCursor.next text)

/-- A file with a colon, in a buffer of 256 bytes. -/
def fileWithColon (file : String) : List Char := (file.toList ++ [':']).take 255

/-- The variables of `break_target_generator` at its first call. -/
def breakTargetInit (s : Statics) : Statics :=
  { s with
    funcIdx := 0
    fileIdx := 0
    breakLen := text.length
    breakFuncs := syms.functions
    breakFiles := syms.units
    hasFuncMatch := syms.functions.any fun f => strncmpEq f.1.toList text text.length }

/-- `break_target_generator` from its loop over the functions on. -/
def breakTargetNext (s : Statics) : Generated :=
  match scan (matching text s.breakLen) (s.breakFuncs.map (·.1.toList)) s.funcIdx with
  | (some name, i) => .ok (some name, { s with funcIdx := i })
  | (none, i) =>
    let s := { s with funcIdx := i }
    if s.hasFuncMatch then .ok (none, s)
    else
      let (file, j) := scan (matching text s.breakLen) (s.breakFiles.map fileWithColon) s.fileIdx
      .ok (file, { s with fileIdx := j })

def breakTargetGenerator : Generator Fault Statics (List Char) :=
  restarting (fun s => .ok (breakTargetInit syms text s)) (breakTargetNext text)

/-- The capacity `bp_cand_add` asks for. -/
def growCap (cap : ℕ) : ℕ := if cap = 0 then 16 else cap * 2

/-- `bp_cand_add`. The new capacity stays when there is no memory for it. -/
def bpCandAdd (c : BpCandidates) (s : List Char) : Except Fault BpCandidates := do
  if c.cap ≤ c.array.entries.length then
    if realloc (growCap c.cap) then
      return ⟨← (c.array.resize (growCap c.cap)).store .outOfBounds s, growCap c.cap⟩
    else return ⟨c.array, growCap c.cap⟩
  else return ⟨← c.array.store .outOfBounds s, c.cap⟩

/-- The candidates of the pending breakpoints. -/
def World.bpTexts (w : World) : List (List Char) :=
  (w.pendingBreakpoints.filterMap w.bps).flatMap candidates

/-- `bp_generator` at its first call. -/
def bpTextInit (s : Statics) : Except Fault Statics := do
  let c ← w.bpTexts.foldlM (bpCandAdd realloc) ⟨.alloc s.bpCandidates.array.cap, s.bpCandidates.cap⟩
  return { s with bpCursor := ⟨0, text.length⟩, bpCandidates := c }

def bpTextCursor : TableCursor where
  table s := s.bpCandidates.array.entries
  cursor s := s.bpCursor
  put c s := { s with bpCursor := c }
  table_put _ _ := rfl
  cursor_put _ _ := rfl
  put_put _ _ _ := rfl
  put_cursor _ := rfl

/-- The calls of `bp_generator`, which give what is `bpGenerator` together. -/
def bpTextGenerator : Generator Fault Statics (List Char) :=
  restarting (bpTextInit realloc w text) (bpTextCursor.next text)

/-- `command_generator` from its loop on, which steps over the `NULL` that ends the table. -/
def commandNext (s : Statics) : Generated :=
  if commands.length < s.commandCursor.idx then .error .outOfBounds
  else
    match scan (matching text s.commandCursor.len) (commands.map (·.name.toList))
      s.commandCursor.idx with
    | (some cmd, i) => .ok (some cmd, { s with commandCursor := ⟨i, s.commandCursor.len⟩ })
    | (none, i) => .ok (none, { s with commandCursor := ⟨i + 1, s.commandCursor.len⟩ })

def commandGenerator : Generator Fault Statics (List Char) :=
  restarting (fun s => .ok { s with commandCursor := ⟨0, text.length⟩ }) (commandNext text)

end Generators

/-! ## The completers -/

/-- The matches, of which there are none where readline is given `NULL`, and whether
`rl_completion_suppress_append` is set. -/
structure Answer where
  found : List (List Char)
  suppressAppend : Bool
deriving DecidableEq, Repr

/-- What is not part of the program: whether there is memory, the turns that readline has for a
generator, the text it puts in place of the one it completes, and the names of files. -/
structure Readline where
  realloc : ℕ → Bool
  turns : ℕ
  substitution : List Char → List (List Char) → List Char
  filenames : List Char → List (List Char)

section Completers

variable (rl : Readline) (syms : Symbols) (w : World) (line text : List Char) (wordIndex : ℕ)

/-- `rl_completion_matches` -/
def rlCompletionMatches (gen : Generator Fault Statics (List Char)) (s : Statics) :
    Except Fault (Answer × Statics) :=
  (collect .blocked gen rl.turns 0 s).map fun r => (⟨r.1, false⟩, r.2)

def noMatches (s : Statics) : Except Fault (Answer × Statics) := .ok (⟨[], false⟩, s)

def completeFromStrlist (list : List String) (s : Statics) : Except Fault (Answer × Statics) :=
  rlCompletionMatches rl (strlistGenerator text) { s with strlist := some (list.map String.toList) }

/-- `complete_break`. The last character of an empty text is read out of bounds. -/
def completeBreak (s : Statics) : Except Fault (Answer × Statics) :=
  if 1 ≤ wordIndex then do
    let (answer, s) ← rlCompletionMatches rl (breakTargetGenerator syms text) s
    if answer.found = [] then return (answer, s)
    else
      match (rl.substitution text answer.found).getLast? with
      | none => throw .outOfBounds
      | some c => return (⟨answer.found, c = ':'⟩, s)
  else noMatches s

/-- The completion of every argument by the texts of the breakpoints. -/
def completeBp (s : Statics) : Except Fault (Answer × Statics) :=
  if 1 ≤ wordIndex then rlCompletionMatches rl (bpTextGenerator rl.realloc w text) s
  else noMatches s

def completeDelete (s : Statics) : Except Fault (Answer × Statics) :=
  completeBp rl w text wordIndex s

def completeDisable (s : Statics) : Except Fault (Answer × Statics) :=
  completeBp rl w text wordIndex s

def completeEnable (s : Statics) : Except Fault (Answer × Statics) :=
  completeBp rl w text wordIndex s

def completeDisassemble (s : Statics) : Except Fault (Answer × Statics) :=
  if wordIndex = 1 then rlCompletionMatches rl (functionGenerator syms text) s else noMatches s

def memorySubcmds : List String := ["read", "write"]

def completeMemory (s : Statics) : Except Fault (Answer × Statics) :=
  if wordIndex = 1 then completeFromStrlist rl text memorySubcmds s else noMatches s

def registerSubcmds : List String := ["dump", "read", "write"]

def regNames : List String :=
  ["r15", "r14", "r13", "r12", "rbp", "rbx", "r11", "r10", "r9", "r8", "rax", "rcx", "rdx", "rsi",
    "rdi", "orig_rax", "rip", "cs", "eflags", "rsp", "ss", "fs_base", "gs_base", "ds", "es", "fs",
    "gs"]

/-- The subcommands with a register behind them. -/
def takesRegister : Bool :=
  match getWordAtIndex line 1 32 with
  | some subcmd => isPrefix (some subcmd) "read" || isPrefix (some subcmd) "write"
  | none => false

def completeRegister (s : Statics) : Except Fault (Answer × Statics) :=
  if wordIndex = 1 then completeFromStrlist rl text registerSubcmds s
  else if wordIndex = 2 ∧ takesRegister line then completeFromStrlist rl text regNames s
  else noMatches s

def completeSource (s : Statics) : Except Fault (Answer × Statics) :=
  if wordIndex = 1 then .ok (⟨rl.filenames text, false⟩, s) else noMatches s

/-- `commands[i].completer(text, word_index)` -/
def Completer.call (completer : Completer) (s : Statics) : Except Fault (Answer × Statics) :=
  match completer with
  | .completeBreak => Vdbg.completeBreak rl syms text wordIndex s
  | .completeDelete => Vdbg.completeDelete rl w text wordIndex s
  | .completeDisable => Vdbg.completeDisable rl w text wordIndex s
  | .completeEnable => Vdbg.completeEnable rl w text wordIndex s
  | .completeDisassemble => Vdbg.completeDisassemble rl syms text wordIndex s
  | .completeMemory => Vdbg.completeMemory rl text wordIndex s
  | .completeRegister => Vdbg.completeRegister rl line text wordIndex s
  | .completeSource => Vdbg.completeSource rl text wordIndex s

/-- What `dbg_completion` does with its choice. -/
def Completion.run (completion : Completion) (s : Statics) : Except Fault (Answer × Statics) :=
  match completion with
  | .commandNames text => rlCompletionMatches rl (commandGenerator text) s
  | .complete completer text wordIndex => completer.call rl syms w line text wordIndex s
  | .nothing => noMatches s

/-- The user asks for the completion of a text that begins at a position of the line. -/
structure Request where
  w : World
  line : List Char
  text : List Char
  start : ℕ

def Request.completion (r : Request) : Completion := dbgCompletion r.line r.text r.start

/-- `dbg_completion` -/
def complete (r : Request) (s : Statics) : Except Fault (Answer × Statics) :=
  r.completion.run rl syms r.w r.line s

/-- One completion after the other. -/
def completeAll : List Request → Statics → Except Fault (List Answer × Statics)
  | [], s => .ok ([], s)
  | r :: rs, s =>
    complete rl syms r s >>= fun out =>
      (completeAll rs out.2).map fun rest => (out.1 :: rest.1, rest.2)

end Completers

/-! ## What is offered -/

section Offered

variable (rl : Readline) (syms : Symbols) (w : World) (line text : List Char) (wordIndex : ℕ)

/-- The names that begin with the text. -/
def beginning (names : List (List Char)) : List (List Char) := names.filter text.isPrefixOf

/-- The targets of `break`: files only where no function begins with the text. -/
def breakTargets : List (List Char) :=
  let names := beginning text (syms.functions.map (·.1.toList))
  if names = [] then beginning text (syms.units.map fileWithColon) else names

/-- What a completer offers. -/
def Completer.offered (completer : Completer) : List (List Char) :=
  match completer with
  | .completeBreak => if 1 ≤ wordIndex then breakTargets syms text else []
  | .completeDelete | .completeDisable | .completeEnable =>
    if 1 ≤ wordIndex then bpGenerator w text else []
  | .completeDisassemble =>
    if wordIndex = 1 then beginning text (syms.functions.map (·.1.toList)) else []
  | .completeMemory =>
    if wordIndex = 1 then beginning text (memorySubcmds.map String.toList) else []
  | .completeRegister =>
    if wordIndex = 1 then beginning text (registerSubcmds.map String.toList)
    else if wordIndex = 2 ∧ takesRegister line then beginning text (regNames.map String.toList)
    else []
  | .completeSource => if wordIndex = 1 then rl.filenames text else []

def Completion.offered (completion : Completion) : List (List Char) :=
  match completion with
  | .commandNames text => beginning text (commands.map (·.name.toList))
  | .complete completer text wordIndex => completer.offered rl syms w line text wordIndex
  | .nothing => []

/-- No blank is to follow the text that is put in for these. -/
def endsInColon (found : List (List Char)) : Bool :=
  found ≠ [] ∧ (rl.substitution text found).getLast? = some ':'

/-- The answer to a completion. -/
def Completion.answer (completion : Completion) : Answer :=
  ⟨completion.offered rl syms w line,
    match completion with
    | .complete .completeBreak text wordIndex =>
      endsInColon rl text (Completer.completeBreak.offered rl syms w line text wordIndex)
    | _ => false⟩

/-- The names do not all begin with the same character. -/
def NothingShared (names : List (List Char)) : Prop :=
  names ≠ [] ∧ ∀ c, ∃ name ∈ names, ¬[c] <+: name

/-- `complete_break` reads the character before its text. -/
def Completion.Misread (completion : Completion) : Prop :=
  match completion with
  | .complete .completeBreak text wordIndex =>
    text = [] ∧ NothingShared (Completer.completeBreak.offered rl syms w line text wordIndex)
  | _ => False

/-- `bp_generator` collects the texts of the breakpoints. -/
def Completion.AsksBp (completion : Completion) : Prop :=
  match completion with
  | .complete completer _ wordIndex =>
    completer ∈ [Completer.completeDelete, .completeDisable, .completeEnable] ∧ 1 ≤ wordIndex
  | _ => False

instance (completion : Completion) : Decidable completion.AsksBp := by
  unfold Completion.AsksBp
  split <;> infer_instance

end Offered

/-- The text is replaced by the longest one that all matches begin with. -/
def Readline.Substitutes (rl : Readline) : Prop :=
  ∀ text found, found ≠ [] → (∀ name ∈ found, text <+: name) →
    ∀ p, p <+: rl.substitution text found ↔ ∀ name ∈ found, p <+: name

/-! ## One generator -/

section Collected

variable {text item : List Char} {turns : ℕ} {s s' : Statics}

theorem strncmpEq_length (item text : List Char) :
    strncmpEq item text text.length = text.isPrefixOf item := by
  unfold strncmpEq
  rw [List.take_length, Bool.eq_iff_iff, List.isPrefixOf_iff_prefix, decide_eq_true_iff, eq_comm,
    List.prefix_iff_eq_take]

theorem filterMap_matching (text : List Char) (names : List (List Char)) :
    names.filterMap (matching text text.length) = beginning text names := by
  unfold beginning
  rw [← List.filterMap_eq_filter]
  refine congrArg (List.filterMap · names) (funext fun item => ?_)
  rw [matching, strncmpEq_length]
  rfl

/-- What is left of the table. -/
def TableCursor.left (p : TableCursor) (text : List Char) (s : Statics) : List (List Char) :=
  offers (matching text text.length) (p.table s) (p.cursor s).idx

/-- The state differs from that one in the cursor only, which is not behind the table. -/
def TableCursor.Within (p : TableCursor) (text : List Char) (s s' : Statics) : Prop :=
  ∃ i ≤ (p.table s).length, s' = p.put ⟨i, text.length⟩ s

theorem TableCursor.next_some (p : TableCursor) {x : List Char} {xs : List (List Char)}
    (h : p.Within text s s') (hleft : p.left text s' = x :: xs) :
    ∃ s'', p.next text s' = .ok (some x, s'') ∧ p.left text s'' = xs ∧ p.Within text s s'' := by
  obtain ⟨i, hi, rfl⟩ := h
  unfold TableCursor.left at hleft
  rw [p.cursor_put, p.table_put] at hleft
  obtain ⟨j, hscan, hj, hrest⟩ := scan_some hleft hi
  refine ⟨p.put ⟨j, text.length⟩ s, ?_, ?_, j, hj, rfl⟩
  · unfold TableCursor.next
    rw [p.cursor_put, p.table_put, hscan]
    dsimp only
    rw [p.put_put]
  · rw [TableCursor.left, p.cursor_put, p.table_put, hrest]

theorem TableCursor.next_none (p : TableCursor) (h : p.Within text s s') (hleft : p.left text s' = []) :
    ∃ s'', p.next text s' = .ok (none, s'') ∧ ∃ c, s'' = p.put c s := by
  obtain ⟨i, hi, rfl⟩ := h
  unfold TableCursor.left at hleft
  rw [p.cursor_put, p.table_put] at hleft
  refine ⟨_, ?_, ⟨(p.table s).length, text.length⟩, rfl⟩
  unfold TableCursor.next
  rw [p.cursor_put, p.table_put, scan_none hleft hi]
  dsimp only
  rw [p.put_put]

/-- A generator that is set up to begin with its table gives the names that begin with the text. -/
theorem TableCursor.collect_eq (p : TableCursor) (init : Statics → Except Fault Statics) (s : Statics)
    (hinit : init s = .ok s') (hcursor : p.cursor s' = ⟨0, text.length⟩)
    (hturns : (beginning text (p.table s')).length < turns) :
    ∃ c, collect .blocked (restarting init (p.next text)) turns 0 s =
      .ok (beginning text (p.table s'), p.put c s') := by
  have hleft : p.left text s' = beginning text (p.table s') := by
    rw [TableCursor.left, hcursor, offers_zero, filterMap_matching]
  have hwithin : p.Within text s' s' := ⟨0, Nat.zero_le _, by rw [← hcursor, p.put_cursor]⟩
  rw [← hleft] at hturns ⊢
  obtain ⟨s₁, hcollect, c, rfl⟩ := collect_restarting Fault.blocked (p.left text)
    (p.Within text s') (fun _ _ _ h hl => p.next_some h hl) (fun _ h hl => p.next_none h hl) hinit hwithin hturns
  exact ⟨c, hcollect⟩

/-! ### The targets of `break` -/

/-- What is left of the functions, and of the files where they are offered. -/
def targetsLeft (text : List Char) (s : Statics) : List (List Char) :=
  offers (matching text text.length) (s.breakFuncs.map (·.1.toList)) s.funcIdx ++
    if s.hasFuncMatch then []
    else offers (matching text text.length) (s.breakFiles.map fileWithColon) s.fileIdx

/-- The call has been set up for the text, and the indices are not behind their tables. -/
structure TargetsWithin (text : List Char) (c : BpCandidates) (s : Statics) : Prop where
  len : s.breakLen = text.length
  funcs : s.funcIdx ≤ s.breakFuncs.length
  files : s.fileIdx ≤ s.breakFiles.length
  cands : s.bpCandidates = c

variable {c : BpCandidates} {x : List Char} {xs : List (List Char)}

theorem breakTargetNext_some (h : TargetsWithin text c s) (hleft : targetsLeft text s = x :: xs) :
    ∃ s', breakTargetNext text s = .ok (some x, s') ∧ targetsLeft text s' = xs ∧
      TargetsWithin text c s' := by
  unfold targetsLeft at hleft
  unfold breakTargetNext
  have hfuncs : s.funcIdx ≤ (s.breakFuncs.map (·.1.toList)).length := by
    rw [List.length_map]
    exact h.funcs
  have hfiles : s.fileIdx ≤ (s.breakFiles.map fileWithColon).length := by
    rw [List.length_map]
    exact h.files
  rw [h.len]
  cases hoffers : offers (matching text text.length) (s.breakFuncs.map (·.1.toList)) s.funcIdx with
  | cons y ys =>
    obtain ⟨j, hscan, hj, hrest⟩ := scan_some hoffers hfuncs
    rw [hoffers, List.cons_append, List.cons.injEq] at hleft
    obtain ⟨rfl, rfl⟩ := hleft
    rw [List.length_map] at hj
    rw [hscan]
    exact ⟨_, rfl, congrArg (· ++ _) hrest, rfl, hj, h.files, h.cands⟩
  | nil =>
    rw [hoffers, List.nil_append] at hleft
    rw [scan_none hoffers hfuncs]
    dsimp only
    split_ifs at hleft ⊢ with hmatch
    obtain ⟨j, hscan, hj, hrest⟩ := scan_some hleft hfiles
    rw [List.length_map] at hj
    rw [hscan]
    refine ⟨_, rfl, ?_, rfl, (List.length_map _).le, hj, h.cands⟩
    unfold targetsLeft
    rw [if_neg hmatch, offers, List.drop_length, List.filterMap_nil, List.nil_append]
    exact hrest

theorem breakTargetNext_none (h : TargetsWithin text c s) (hleft : targetsLeft text s = []) :
    ∃ s', breakTargetNext text s = .ok (none, s') ∧ s'.bpCandidates = c := by
  unfold targetsLeft at hleft
  unfold breakTargetNext
  obtain ⟨hnames, hrest⟩ := List.append_eq_nil_iff.mp hleft
  rw [h.len, scan_none hnames (by rw [List.length_map]; exact h.funcs)]
  dsimp only
  split_ifs at hrest ⊢ with hmatch
  · exact ⟨_, rfl, h.cands⟩
  · rw [scan_none hrest (by rw [List.length_map]; exact h.files)]
    exact ⟨_, rfl, h.cands⟩

/-- The flag says whether there are functions to offer. -/
theorem targetsLeft_init (syms : Symbols) (text : List Char) (s : Statics) :
    targetsLeft text (breakTargetInit syms text s) = breakTargets syms text := by
  unfold targetsLeft breakTargets breakTargetInit
  dsimp only
  rw [offers_zero, offers_zero, filterMap_matching, filterMap_matching]
  have hflag : (syms.functions.any fun f => strncmpEq f.1.toList text text.length) = true ↔
      beginning text (syms.functions.map (·.1.toList)) ≠ [] := by
    simp [beginning, strncmpEq_length]
  split_ifs with hmatch hnil hnil
  · exact absurd hnil (hflag.mp hmatch)
  · exact List.append_nil _
  · rw [hnil, List.nil_append]
  · exact absurd (hflag.mpr hnil) hmatch

theorem collect_breakTarget (syms : Symbols) (text : List Char) (s : Statics)
    (hturns : (breakTargets syms text).length < turns) :
    ∃ s', collect .blocked (breakTargetGenerator syms text) turns 0 s =
      .ok (breakTargets syms text, s') ∧ s'.bpCandidates = s.bpCandidates := by
  rw [← targetsLeft_init syms text s] at hturns ⊢
  exact collect_restarting _ (targetsLeft text) (TargetsWithin text s.bpCandidates)
    (fun _ _ _ h hl => breakTargetNext_some h hl) (fun _ h hl => breakTargetNext_none h hl) rfl
    ⟨rfl, Nat.zero_le _, Nat.zero_le _, rfl⟩ hturns

/-! ### The names of the commands -/

/-- What is left of the table of commands. -/
def commandsLeft (text : List Char) (s : Statics) : List (List Char) :=
  offers (matching text text.length) (commands.map (·.name.toList)) s.commandCursor.idx

/-- The call has been set up for the text, and the `NULL` has not been read. -/
structure CommandsWithin (text : List Char) (c : BpCandidates) (s : Statics) : Prop where
  len : s.commandCursor.len = text.length
  idx : s.commandCursor.idx ≤ commands.length
  cands : s.bpCandidates = c

theorem commandNext_some (h : CommandsWithin text c s) (hleft : commandsLeft text s = x :: xs) :
    ∃ s', commandNext text s = .ok (some x, s') ∧ commandsLeft text s' = xs ∧
      CommandsWithin text c s' := by
  obtain ⟨j, hscan, hj, hrest⟩ := scan_some hleft (by rw [List.length_map]; exact h.idx)
  rw [List.length_map] at hj
  unfold commandNext
  rw [if_neg (Nat.not_lt.mpr h.idx), h.len, hscan]
  exact ⟨_, rfl, hrest, rfl, hj, h.cands⟩

theorem commandNext_none (h : CommandsWithin text c s) (hleft : commandsLeft text s = []) :
    ∃ s', commandNext text s = .ok (none, s') ∧ s'.bpCandidates = c := by
  unfold commandNext
  rw [if_neg (Nat.not_lt.mpr h.idx), h.len,
    scan_none hleft (by rw [List.length_map]; exact h.idx)]
  exact ⟨_, rfl, h.cands⟩

theorem collect_command (text : List Char) (s : Statics)
    (hturns : (beginning text (commands.map (·.name.toList))).length < turns) :
    ∃ s', collect .blocked (commandGenerator text) turns 0 s =
      .ok (beginning text (commands.map (·.name.toList)), s') ∧
        s'.bpCandidates = s.bpCandidates := by
  have hleft : commandsLeft text { s with commandCursor := ⟨0, text.length⟩ } =
      beginning text (commands.map (·.name.toList)) := filterMap_matching text _
  rw [← hleft] at hturns ⊢
  exact collect_restarting _ (commandsLeft text) (CommandsWithin text s.bpCandidates)
    (fun _ _ _ h hl => commandNext_some h hl)
    (fun _ h hl => commandNext_none h hl) rfl ⟨rfl, Nat.zero_le _, rfl⟩ hturns

end Collected

end Vdbg
