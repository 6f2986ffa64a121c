import Vdbg.World

/-!
# Operands

How the disassembly prints the operands of an instruction. `op_str` is an array of 160 bytes, and a
cursor into it is the bytes from there on: to read where none is left is to read past the array.
The loop that ends an operand stops at a comma but not at the end of the text, so that after the
last operand it goes on through the bytes behind the text (`printOprandString_append`).
-/

namespace Vdbg

open FaultRun

/-- The types of operands. -/
inductive OpType where
  | invalid
  | reg
  | imm
  | mem
deriving DecidableEq, Repr

/-- The colours of the disassembly, under the names of their macros. -/
inductive Colour where
  | white
  | regColor
  | immColor
  | bracketColor
  | operatorColor
  | reset
deriving DecidableEq, Repr

/-- What is written: a character, or the sequence for a colour. -/
inductive Ink where
  | char (c : Char)
  | colour (colour : Colour)
deriving DecidableEq, Repr

/-- What is written, without the colours. -/
def plain (out : List Ink) : List Char :=
  out.filterMap fun
    | .char c => some c
    | .colour _ => none

/-! ## The printing -/

/-- `while (op_str[str_iter] != stop && str_iter < 160) putchar(op_str[str_iter++])`. The byte is
read before the index is tested. -/
def printUntil (stop : Char) : List Char → Except Fault (List Ink × List Char)
  | [] => .error .outOfBounds
  | c :: str =>
    if c = stop then .ok ([], c :: str)
    else do
      let (out, rest) ← printUntil stop str
      return (.char c :: out, rest)

/-- The inner loop of `print_expression`, up to a blank or the bracket. -/
def printTerm : List Char → Except Fault (List Ink × List Char)
  | [] => .error .outOfBounds
  | c :: str =>
    if c = ' ' ∨ c = ']' then .ok ([], c :: str)
    else do
      let (out, rest) ← printTerm str
      return (.char c :: out, rest)

/-- The blank after a term. -/
def printBlank : List Char → List Ink × List Char
  | ' ' :: str => ([.char ' '], str)
  | str => ([], str)

/-- The colour of a term. After a `0` the next byte is read. -/
def termColour : List Char → Except Fault Colour
  | [] => .error .outOfBounds
  | ['0'] => .error .outOfBounds
  | c :: _ =>
    if c.isDigit then .ok .immColor
    else if c = '+' ∨ c = '-' ∨ c = '*' then .ok .operatorColor
    else .ok .regColor

/-- One turn of the outer loop of `print_expression`. -/
def printWord (str : List Char) : Except Fault (List Ink × List Char) := do
  let colour ← termColour str
  let (out, rest) ← printTerm str
  let (blank, rest) := printBlank rest
  return (.colour colour :: out ++ blank, rest)

theorem printTerm_length {str rest : List Char} {out : List Ink}
    (h : printTerm str = .ok (out, rest)) : rest.length ≤ str.length := by
  induction str generalizing out with
  | nil => cases h
  | cons c str ih =>
    rw [printTerm] at h
    split_ifs at h with hstop
    · cases h
      exact le_rfl
    · obtain ⟨⟨out', rest'⟩, hterm, hok⟩ := bind_eq_ok.mp h
      cases hok
      exact (ih hterm).trans (Nat.le_succ _)

theorem length_printBlank_le (str : List Char) : (printBlank str).2.length ≤ str.length := by
  unfold printBlank
  split
  · exact Nat.le_succ _
  · exact le_rfl

/-- Every turn prints something, unless it is at the bracket. -/
theorem printWord_length {c : Char} {str rest : List Char} {out : List Ink} (hc : c ≠ ']')
    (h : printWord (c :: str) = .ok (out, rest)) : rest.length < (c :: str).length := by
  obtain ⟨colour, -, h⟩ := bind_eq_ok.mp h
  obtain ⟨⟨term, rest'⟩, hterm, h⟩ := bind_eq_ok.mp h
  cases h
  rw [printTerm] at hterm
  split_ifs at hterm with hstop
  · cases hterm
    obtain rfl := hstop.resolve_right hc
    exact Nat.lt_succ_self _
  · obtain ⟨⟨term', rest''⟩, hterm', hok⟩ := bind_eq_ok.mp hterm
    cases hok
    exact Nat.lt_succ_of_le ((length_printBlank_le _).trans (printTerm_length hterm'))

/-- `print_expression`, and what is left from its `]` on. -/
def printExpression : List Char → Except Fault (List Ink × List Char)
  | [] => .error .outOfBounds
  | c :: str =>
    if _hc : c = ']' then .ok ([], c :: str)
    else
      match _h : printWord (c :: str) with
      | .error e => .error e
      | .ok (out, rest) => do
        let (out', rest) ← printExpression rest
        return (out ++ out', rest)
termination_by str => str.length
decreasing_by exact printWord_length _hc _h

/-- What comes before the loop up to the comma: a colour, or for a memory operand the text up to and
with its bracketed expression. The loops end at the brackets that the assertions ask for. -/
def printStart : OpType → List Char → Except Fault (List Ink × List Char)
  | .invalid, str => .ok ([.colour .white], str)
  | .reg, str => .ok ([.colour .regColor], str)
  | .imm, str => .ok ([.colour .immColor], str)
  | .mem, str => do
    let (before, str) ← printUntil '[' str
    let (expr, str) ← printExpression (str.drop 1)
    return (.colour .white :: before ++ [.colour .bracketColor, .char '[', .colour .reset] ++ expr ++
      [.colour .bracketColor, .char ']', .colour .reset], str.drop 1)

/-- One turn of the loop of `print_oprand_string`. Its last loop ends only at a comma, which is
printed. -/
def printOprand (type : OpType) (str : List Char) : Except Fault (List Ink × List Char) := do
  let (start, str) ← printStart type str
  let (text, str) ← printUntil ',' str
  return (start ++ text ++ [.colour .reset, .char ','], str.drop 1)

/-- `print_oprand_string`, for the types of the operands. -/
def printOprandString : List OpType → List Char → Except Fault (List Ink)
  | [], _ => .ok []
  | type :: types, str => do
    let (out, str) ← printOprand type str
    return out ++ (← printOprandString types str)

/-! ## Texts between brackets and commas -/

section Texts

variable {as bs : List Char} {stop : Char}

@[simp] theorem plain_nil : plain [] = [] := rfl

@[simp] theorem plain_append (out out' : List Ink) : plain (out ++ out') = plain out ++ plain out' :=
  List.filterMap_append

@[simp] theorem plain_map_char (as : List Char) : plain (as.map .char) = as := by
  unfold plain
  rw [List.filterMap_map]
  exact List.filterMap_some

@[simp] theorem plain_char (c : Char) (out : List Ink) : plain (.char c :: out) = c :: plain out :=
  rfl

@[simp] theorem plain_colour (x : Colour) (out : List Ink) : plain (.colour x :: out) = plain out :=
  rfl

theorem printUntil_append (h : stop ∉ as) :
    printUntil stop (as ++ stop :: bs) = .ok (as.map .char, stop :: bs) := by
  induction as with
  | nil => exact if_pos rfl
  | cons a as ih =>
    rw [List.mem_cons, not_or] at h
    rw [List.cons_append, printUntil, if_neg (Ne.symm h.1), ih h.2]
    rfl

/-- Without the character the loop runs past the array. -/
theorem printUntil_of_not_mem (h : stop ∉ as) : printUntil stop as = .error .outOfBounds := by
  induction as with
  | nil => rfl
  | cons a as ih =>
    rw [List.mem_cons, not_or] at h
    rw [printUntil, if_neg (Ne.symm h.1), ih h.2]
    rfl

variable (bs) in
theorem printTerm_append (h : ']' ∉ as) :
    ∃ term rest, as = term ++ rest ∧ (rest = [] ∨ ∃ s, rest = ' ' :: s) ∧
      printTerm (as ++ ']' :: bs) = .ok (term.map .char, rest ++ ']' :: bs) := by
  induction as with
  | nil => exact ⟨[], [], rfl, .inl rfl, if_pos (.inr rfl)⟩
  | cons a as ih =>
    rw [List.mem_cons, not_or] at h
    by_cases ha : a = ' '
    · subst ha
      exact ⟨[], ' ' :: as, rfl, .inr ⟨as, rfl⟩, if_pos (.inl rfl)⟩
    · obtain ⟨term, rest, rfl, hrest, hprint⟩ := ih h.2
      refine ⟨a :: term, rest, rfl, hrest, ?_⟩
      rw [List.cons_append, printTerm, if_neg (not_or.mpr ⟨ha, Ne.symm h.1⟩), hprint]
      rfl

variable (as bs stop) in
theorem termColour_append (a : Char) : ∃ x, termColour (a :: as ++ stop :: bs) = .ok x := by
  rw [List.cons_append]
  cases hrest : as ++ stop :: bs with
  | nil => exact absurd hrest (by simp)
  | cons b rest =>
    unfold termColour
    split
    · rename_i heq
      cases heq
    · rename_i heq
      cases heq
    · split_ifs <;> exact ⟨_, rfl⟩

variable (bs) in
/-- A turn of `print_expression` before the bracket. -/
theorem printWord_append {a : Char} (h : ']' ∉ a :: as) :
    ∃ out word rest, a :: as = word ++ rest ∧ plain out = word ∧
      printWord (a :: as ++ ']' :: bs) = .ok (out, rest ++ ']' :: bs) := by
  obtain ⟨x, hcolour⟩ := termColour_append as bs ']' a
  obtain ⟨term, rest, hsplit, hrest, hterm⟩ := printTerm_append bs h
  unfold printWord
  rw [hcolour, ok_bind, hterm, ok_bind]
  rcases hrest with rfl | ⟨s, rfl⟩
  · exact ⟨_, term, [], hsplit, by simp, rfl⟩
  · exact ⟨_, term ++ [' '], s, by simp [hsplit], by simp, rfl⟩

variable (bs) in
/-- `print_expression` prints what is before the bracket. -/
theorem printExpression_append (h : ']' ∉ as) :
    ∃ out, plain out = as ∧ printExpression (as ++ ']' :: bs) = .ok (out, ']' :: bs) := by
  induction hn : as.length using Nat.strong_induction_on generalizing as with
  | _ n ih =>
    cases as with
    | nil => exact ⟨[], rfl, by rw [List.nil_append, printExpression, dif_pos rfl]⟩
    | cons a as =>
      have ha : a ≠ ']' := fun heq => h (heq ▸ List.mem_cons_self)
      obtain ⟨out, word, rest, hsplit, hplain, hword⟩ := printWord_append bs h
      have hlt : rest.length < n := by
        have hlen : (rest ++ ']' :: bs).length < (a :: (as ++ ']' :: bs)).length :=
          printWord_length ha hword
        rw [List.length_append, List.length_cons, List.length_cons, List.length_append,
          List.length_cons] at hlen
        rw [← hn, List.length_cons]
        omega
      have hrest : ']' ∉ rest := fun hmem => h (hsplit ▸ List.mem_append_right word hmem)
      obtain ⟨out', hplain', hexpr⟩ := ih rest.length hlt hrest rfl
      refine ⟨out ++ out', by rw [plain_append, hplain, hplain', hsplit], ?_⟩
      rw [List.cons_append, printExpression, dif_neg ha]
      split
      · rename_i e herror
        rw [← List.cons_append, hword] at herror
        cases herror
      · rename_i out₁ rest₁ hok
        rw [← List.cons_append, hword] at hok
        cases hok
        simp only [hexpr, ok_bind]
        rfl

end Texts

/-! ## The operands of an instruction -/

/-- The text of an operand. That of a memory operand has one bracketed expression. -/
structure Operand where
  type : OpType
  text : List Char
  comma : ',' ∉ text
  bracket : type = .mem → ∃ before expr after, text = before ++ '[' :: (expr ++ ']' :: after) ∧
    '[' ∉ before ∧ ']' ∉ expr

/-- The text of all operands. -/
def operandsText (ops : List Operand) : List Char := [','].intercalate (ops.map Operand.text)

section Print

variable {op : Operand} {bs : List Char}

variable (op bs) in
theorem printStart_append : ∃ out a b, op.text = a ++ b ∧ plain out = a ∧
    printStart op.type (op.text ++ bs) = .ok (out, b ++ bs) := by
  obtain ⟨type, text, hcomma, hbracket⟩ := op
  cases type with
  | invalid => exact ⟨_, [], text, rfl, rfl, rfl⟩
  | reg => exact ⟨_, [], text, rfl, rfl, rfl⟩
  | imm => exact ⟨_, [], text, rfl, rfl, rfl⟩
  | mem =>
    obtain ⟨before, expr, after, rfl, hbefore, hexpr⟩ := hbracket rfl
    obtain ⟨out, hplain, hprint⟩ := printExpression_append (after ++ bs) hexpr
    refine ⟨.colour .white :: before.map .char ++
      [.colour .bracketColor, .char '[', .colour .reset] ++ out ++
      [.colour .bracketColor, .char ']', .colour .reset],
      before ++ '[' :: (expr ++ [']']), after, by simp, by simp [hplain], ?_⟩
    simp only [printStart, List.append_assoc, List.cons_append, printUntil_append hbefore, ok_bind,
      List.drop_succ_cons, List.drop_zero, hprint]
    rfl

variable {cs : List Char}

variable (op bs) in
/-- An operand is printed up to the next comma, which need not be in the text. -/
theorem printOprand_append (h : ',' ∉ cs) : ∃ out, plain out = op.text ++ cs ++ [','] ∧
    printOprand op.type (op.text ++ (cs ++ ',' :: bs)) = .ok (out, bs) := by
  obtain ⟨out, a, b, htext, hplain, hstart⟩ := printStart_append op (cs ++ ',' :: bs)
  have hcomma : ',' ∉ b ++ cs := fun hmem => by
    rcases List.mem_append.mp hmem with hb | hcs
    · exact op.comma (htext ▸ List.mem_append_right a hb)
    · exact h hcs
  refine ⟨out ++ (b ++ cs).map .char ++ [.colour .reset, .char ','], ?_, ?_⟩
  · simp [hplain, htext]
  · unfold printOprand
    rw [hstart, ok_bind]
    dsimp only
    rw [← List.append_assoc, printUntil_append hcomma]
    rfl

/-- Without a comma to come the loop runs past the array. -/
theorem printOprand_of_not_mem (h : ',' ∉ cs) :
    printOprand op.type (op.text ++ cs) = .error .outOfBounds := by
  obtain ⟨out, a, b, htext, -, hstart⟩ := printStart_append op cs
  have hcomma : ',' ∉ b ++ cs := fun hmem => by
    rcases List.mem_append.mp hmem with hb | hcs
    · exact op.comma (htext ▸ List.mem_append_right a hb)
    · exact h hcs
  unfold printOprand
  rw [hstart, ok_bind]
  dsimp only
  rw [printUntil_of_not_mem hcomma]
  rfl

theorem operandsText_singleton : operandsText [op] = op.text := by
  simp [operandsText, List.intercalate]

theorem operandsText_cons {op' : Operand} {ops : List Operand} :
    operandsText (op :: op' :: ops) = op.text ++ ',' :: operandsText (op' :: ops) := by
  simp [operandsText, List.intercalate]

variable (bs) in
/-- What is printed after the text of the operands: the bytes behind it up to a comma. -/
theorem printOprandString_append {ops : List Operand} (hops : ops ≠ []) (h : ',' ∉ cs) :
    ∃ out, plain out = operandsText ops ++ cs ++ [','] ∧
      printOprandString (ops.map Operand.type) (operandsText ops ++ (cs ++ ',' :: bs)) =
        .ok out := by
  induction ops with
  | nil => exact absurd rfl hops
  | cons op ops ih =>
    cases ops with
    | nil =>
      obtain ⟨out, hplain, hprint⟩ := printOprand_append op bs h
      refine ⟨out ++ [], by rw [List.append_nil, operandsText_singleton, hplain], ?_⟩
      rw [operandsText_singleton, List.map_singleton, printOprandString, hprint]
      rfl
    | cons op' ops =>
      obtain ⟨out', hplain', hprint'⟩ := ih (List.cons_ne_nil _ _)
      obtain ⟨out, hplain, hprint⟩ := printOprand_append op
        (operandsText (op' :: ops) ++ (cs ++ ',' :: bs)) List.not_mem_nil
      refine ⟨out ++ out', ?_, ?_⟩
      · rw [plain_append, hplain, hplain', operandsText_cons]
        simp
      · rw [operandsText_cons, List.map_cons, printOprandString, List.append_assoc,
          List.cons_append]
        rw [List.nil_append] at hprint
        rw [hprint, ok_bind]
        dsimp only
        rw [hprint']
        rfl

theorem printOprandString_of_not_mem {ops : List Operand} (hops : ops ≠ []) (h : ',' ∉ cs) :
    printOprandString (ops.map Operand.type) (operandsText ops ++ cs) = .error .outOfBounds := by
  induction ops with
  | nil => exact absurd rfl hops
  | cons op ops ih =>
    cases ops with
    | nil =>
      rw [operandsText_singleton, List.map_singleton, printOprandString, printOprand_of_not_mem h]
      rfl
    | cons op' ops =>
      obtain ⟨out, -, hprint⟩ := printOprand_append op
        (operandsText (op' :: ops) ++ cs) List.not_mem_nil
      rw [List.nil_append] at hprint
      rw [operandsText_cons, List.map_cons, printOprandString, List.append_assoc, List.cons_append,
        hprint, ok_bind]
      dsimp only
      rw [ih (List.cons_ne_nil _ _)]
      rfl

end Print

/-- An `op_str`: the text of one or more operands, its NUL, and what the array holds behind it. -/
structure OpStr where
  ops : List Operand
  ops_ne_nil : ops ≠ []
  terminated : '\x00' ∉ operandsText ops
  junk : List Char
  size : (operandsText ops ++ '\x00' :: junk).length = 160

/-- The bytes of the array. -/
def OpStr.bytes (s : OpStr) : List Char := operandsText s.ops ++ '\x00' :: s.junk

/-- The operands are never printed as they stand: either the NUL and what comes up to a comma behind
it is printed too, or the array is read past its end. -/
theorem printOprandString_unfaithful (s : OpStr) :
    ¬∃ out, printOprandString (s.ops.map Operand.type) s.bytes = .ok out ∧
      plain out = operandsText s.ops := by
  rintro ⟨out, hprint, hplain⟩
  unfold OpStr.bytes at hprint
  by_cases hmem : ',' ∈ s.junk
  · obtain ⟨cs, bs, hjunk, hcs⟩ := List.eq_append_cons_of_mem hmem
    have hcomma : ',' ∉ '\x00' :: cs := List.not_mem_cons_of_ne_of_not_mem (by decide) hcs
    obtain ⟨out', hplain', hprint'⟩ :=
      printOprandString_append bs s.ops_ne_nil hcomma
    rw [hjunk, ← List.cons_append, hprint'] at hprint
    cases hprint
    have hlength := congrArg List.length (hplain'.symm.trans hplain)
    rw [List.length_append, List.length_append, List.length_cons] at hlength
    omega
  · have hcomma : ',' ∉ '\x00' :: s.junk := List.not_mem_cons_of_ne_of_not_mem (by decide) hmem
    rw [printOprandString_of_not_mem s.ops_ne_nil hcomma] at hprint
    cases hprint

/-- The operand of `push rax`. -/
theorem printOprandString_rax :
    printOprandString [.reg] ("rax".toList ++ List.replicate 157 '\x00') = .error .outOfBounds := by
  have hcomma : ',' ∉ List.replicate 157 '\x00' := by simp
  have h := printOprandString_of_not_mem
    (List.cons_ne_nil ⟨.reg, "rax".toList, by decide, nofun⟩ []) hcomma
  rwa [operandsText_singleton] at h

end Vdbg
