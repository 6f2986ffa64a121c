import Vdbg.BreakpointList
import Vdbg.Image
import Vdbg.MemoryMap
import Vdbg.Safety

/-!
# The disassembly

`print_disassembly_of_function` lists the instructions of every function with a name. The rows can
be read back: each shows the address of its instruction in the process, its bytes and its text, the
arrow is at the pc alone, and where a function is disassembled from the right place of the file, the
bytes are those that are loaded at the addresses shown (`printDisassemblyOfFunction_tells`).
-/

namespace Vdbg

open FaultRun Numerals

/-! ## Instructions -/

/-- A `cs_insn` with its `cs_detail`. Its bytes are in an array of 24. The array of its `op_str`
holds the text of the operands, its NUL and `junk`. A mnemonic is not empty and does not begin with
a blank. -/
structure Instruction where
  address : Addr
  bytes : List Byte
  mnemonic : List Char
  ops : List Operand
  junk : List Char
  /-- The byte of the structure behind the array. -/
  behind : Char
  fits : bytes.length ≤ 24
  word : ∃ c cs, mnemonic = c :: cs ∧ c ≠ ' '
  terminated : '\x00' ∉ operandsText ops
  size : (operandsText ops ++ '\x00' :: junk).length = 160

/-- The array of `op_str`. -/
def Instruction.opStr (insn : Instruction) : List Char :=
  operandsText insn.ops ++ '\x00' :: insn.junk

/-- What the name of a call depends on. -/
def Instruction.insn (insn : Instruction) : Insn :=
  ⟨insn.mnemonic, operandsText insn.ops, insn.ops.map Operand.type⟩

/-! ## Printing -/

/-- The end of a turn of `print_oprand_string`: the loop up to a comma, which ends with the array
too, and the comma. At the end of the array both look at the byte behind it. -/
def printRest (behind : Char) (str : List Char) : List Ink × List Char :=
  let text := (str.takeWhile (· ≠ ',')).map Ink.char ++ [.colour .reset]
  match str.dropWhile (· ≠ ',') with
  | [] => (if behind = ',' then text ++ [.char ','] else text, [])
  | _ :: rest => (text ++ [.char ','], rest)

/-- `print_oprand_string` in a structure that holds a byte behind the array. -/
def printOprandStringIn (behind : Char) : List OpType → List Char → Except Fault (List Ink)
  | [], _ => .ok []
  | type :: types, str => do
    let (start, str) ← printStart type str
    let (text, str) := printRest behind str
    return start ++ text ++ (← printOprandStringIn behind types str)

/-- `printf("%02x ", bytes[i])` -/
def printByte (b : Byte) : List Char := fmtPadHex 2 (b.setWidth 64) ++ [' ']

/-- `print_bytes` -/
def printBytes (bytes : List Byte) (maxSize : ℕ) : List Char :=
  bytes.flatMap printByte ++
    (List.replicate (maxSize + 1 - bytes.length) "   ".toList).flatten

/-- `%-6s ` of a mnemonic. -/
def mnemonicColumn (mnemonic : List Char) : List Char :=
  mnemonic ++ List.replicate (6 - mnemonic.length) ' ' ++ [' ']

/-- The name of a called function. -/
def annotation : Option (List Char) → List Char
  | none => []
  | some funcName => " <".toList ++ funcName ++ ['>']

/-- The text of an instruction, from its mnemonic on. -/
def Instruction.print (insn : Instruction) (funcName : Option (List Char)) :
    Except Fault (List Char) := do
  let operands ← printOprandStringIn insn.behind (insn.ops.map Operand.type) insn.opStr
  return mnemonicColumn insn.mnemonic ++ (plain operands ++ annotation funcName ++ ['\n'])

/-- The column of the arrow. -/
def arrow (currAddr pc : Addr) : List Char :=
  if currAddr = pc then " > ".toList else "   ".toList

/-- The loop of `print_instruction_disas` over the instructions and their names, without the
colours. -/
def printRows (load pc : Addr) (maxSize : ℕ) (named : List (Instruction × Option (List Char))) :
    Except Fault (List (List Char)) :=
  named.mapM fun (insn, funcName) => do
    let text ← insn.print funcName
    let currAddr := insn.address + load
    return arrow currAddr pc ++
      (fmtHex currAddr ++ ':' :: ' ' :: (printBytes insn.bytes maxSize ++ text))

/-- `max_size` -/
def maxSize (insns : List Instruction) : ℕ :=
  insns.foldl (fun max insn => if insn.bytes.length > max then insn.bytes.length else max) 0

/-- `print_instruction_disas`: its rows, with the newline of each. -/
def printInstructionDisas (funcs : List FuncEntry) (insns : List Instruction) (load pc : Addr) :
    Except Fault (List (List Char)) := do
  let names ← callNames funcs (insns.map Instruction.insn)
  printRows load pc (maxSize insns) (insns.zip names)

/-- `cs_disasm`, for a buffer and the address of its first byte. -/
abbrev CsDisasm := List (Option Byte) → Addr → List Instruction

/-- What `print_disassembly_of_function` prints: a message, or the listings of some functions. -/
inductive Disassembly where
  | unspecified
  | noSymbol
  | noFunctions
  | notFound (functionName : List Char)
  | listing (functions : List (FuncEntry × List (List Char)))
deriving DecidableEq, Repr

/-- The listings of the functions with a name. -/
def Executable.listing (exe : Executable) (csDisasm : CsDisasm) (load pc : Addr)
    (functionName : List Char) : Except Fault (List (FuncEntry × List (List Char))) :=
  (exe.functions.filter (·.funcName = functionName)).mapM fun f => do
    let rows ← printInstructionDisas exe.functions (csDisasm (exe.disassemble f) f.addr) load pc
    return (f, rows)

/-- `print_disassembly_of_function` from the name on. -/
def disassembleNamed (w : World) (exe : Executable) (csDisasm : CsDisasm) (load pc : Addr)
    (functionName : List Char) : Res Disassembly := do
  if exe.functions = [] then return .noFunctions
  match exe.listing csDisasm load pc functionName with
  | .error φ => .error (φ, w)
  | .ok [] => return .notFound functionName
  | .ok functions => return .listing functions

/-- `print_disassembly_of_function`. With a name the pc is not read. -/
def printDisassemblyOfFunction (k : Kernel) (w : World) (exe : Executable) (csDisasm : CsDisasm)
    (functionName : Option (List Char)) : Res Disassembly :=
  match functionName with
  | some functionName =>
    let load := if w.state = .active then w.loadAddress else 0
    disassembleNamed w exe csDisasm load 0 functionName
  | none =>
    if w.state ≠ .active then .ok .unspecified
    else do
      let pc := getPc k w.tracee w.pid
      match (← getFuncDieFromPc w pc w.loadAddress).bind FuncDie.name with
      | none => return .noSymbol
      | some functionName => disassembleNamed w exe csDisasm w.loadAddress pc functionName.toList

/-! ## Reading what was printed -/

/-- What a row shows. -/
structure InsnRow where
  atPc : Bool
  addr : Addr
  bytes : List Byte
  text : List Char
deriving DecidableEq, Repr

/-- The bytes at the front of a text, and what is behind them. -/
def readBytes : List Char → List Byte × List Char
  | a :: b :: c :: str =>
    if a = ' ' then ([], a :: b :: c :: str)
    else
      let (bytes, rest) := readBytes str
      ((strtoul (a :: b :: c :: str) 16).setWidth 8 :: bytes, rest)
  | str => ([], str)

/-- A row, by its columns. -/
def readInsnRow (row : List Char) : InsnRow :=
  let columns := readBytes (((row.drop 3).dropWhile (· ≠ ':')).drop 2)
  ⟨row.take 3 = " > ".toList, strtoul (row.drop 3) 16, columns.1, columns.2.dropWhile (· = ' ')⟩

/-- What is printed behind the operands: the array from the NUL on, up to a comma. -/
def Instruction.overrun (insn : Instruction) : List Char :=
  if insn.ops = [] then []
  else '\x00' :: insn.junk.takeWhile (· ≠ ',') ++
    if ',' ∈ insn.junk ∨ insn.behind = ',' then [','] else []

/-- What a row shows from the mnemonic on. -/
def Instruction.text (insn : Instruction) (funcName : Option (List Char)) : List Char :=
  mnemonicColumn insn.mnemonic ++
    (operandsText insn.ops ++ insn.overrun ++ annotation funcName ++ ['\n'])

/-- What the row of an instruction shows. -/
def Instruction.row (insn : Instruction) (load pc : Addr) (funcName : Option (List Char)) :
    InsnRow :=
  ⟨insn.address + load = pc, insn.address + load, insn.bytes, insn.text funcName⟩

/-! ## Operands -/

section Print

variable {op : Operand} {ops : List Operand} {behind : Char} {as bs str : List Char}
  {insn : Instruction}

theorem forall_ne_comma (h : ',' ∉ as) : ∀ c ∈ as, decide (c ≠ ',') = true :=
  fun _ hc => decide_eq_true fun he => h (he ▸ hc)

theorem printRest_comma (h : ',' ∉ as) (bs : List Char) : printRest behind (as ++ ',' :: bs) =
    (as.map .char ++ [.colour .reset] ++ [.char ','], bs) := by
  obtain ⟨htake, hdrop⟩ := takeWhile_column (forall_ne_comma h) (c := ',') (by decide) bs
  unfold printRest
  rw [htake, hdrop]

theorem plain_printRest (str : List Char) : plain (printRest behind str).1 =
    str.takeWhile (· ≠ ',') ++ if ',' ∈ str ∨ behind = ',' then [','] else [] := by
  by_cases hmem : ',' ∈ str
  · obtain ⟨as, bs, rfl, has⟩ := List.eq_append_cons_of_mem hmem
    rw [printRest_comma has, (takeWhile_column (forall_ne_comma has) (by decide) bs).1,
      if_pos (.inl hmem)]
    simp
  · have hall := forall_ne_comma hmem
    have hdrop : str.dropWhile (· ≠ ',') = [] := List.dropWhile_eq_nil_iff.mpr hall
    unfold printRest
    rw [hdrop, List.takeWhile_eq_self_iff.mpr hall]
    by_cases hbehind : behind = ',' <;> simp [hmem, hbehind]

/-- The end of an operand's text goes on into what is behind it. -/
theorem plain_printRest_append (h : ',' ∉ as) (bs : List Char) :
    plain (printRest behind (as ++ bs)).1 = as ++ plain (printRest behind bs).1 := by
  rw [plain_printRest, plain_printRest, List.takeWhile_append_of_pos (forall_ne_comma h),
    List.append_assoc]
  simp only [List.mem_append, h, false_or]

/-- A turn prints the text of its operand, and what is behind it up to a comma. -/
theorem printTurn_append (op : Operand) (bs : List Char) : ∃ start rest,
    printStart op.type (op.text ++ bs) = .ok (start, rest ++ bs) ∧ ',' ∉ rest ∧
      plain start ++ rest = op.text := by
  obtain ⟨start, a, b, htext, hplain, hstart⟩ := printStart_append op bs
  refine ⟨start, b, hstart, fun hmem => op.comma ?_, by rw [hplain, htext]⟩
  rw [htext]
  exact List.mem_append_right a hmem

variable (behind) in
/-- The operands are printed, and what is behind the last of them. -/
theorem printOprandStringIn_append (hops : ops ≠ []) (bs : List Char) :
    ∃ out, plain out = operandsText ops ++ plain (printRest behind bs).1 ∧
      printOprandStringIn behind (ops.map Operand.type) (operandsText ops ++ bs) = .ok out := by
  induction ops with
  | nil => exact absurd rfl hops
  | cons op ops ih =>
    cases ops with
    | nil =>
      obtain ⟨start, rest, hstart, hcomma, htext⟩ := printTurn_append op bs
      refine ⟨start ++ (printRest behind (rest ++ bs)).1 ++ [], ?_, ?_⟩
      · rw [List.append_nil, plain_append, plain_printRest_append hcomma, operandsText_singleton,
          ← htext, List.append_assoc]
      · rw [operandsText_singleton, List.map_singleton, printOprandStringIn, hstart]
        rfl
    | cons op' ops =>
      obtain ⟨out, hplain, hprint⟩ := ih (List.cons_ne_nil _ _)
      obtain ⟨start, rest, hstart, hcomma, htext⟩ :=
        printTurn_append op (',' :: (operandsText (op' :: ops) ++ bs))
      refine ⟨start ++ (rest.map .char ++ [.colour .reset] ++ [.char ',']) ++ out, ?_, ?_⟩
      · simp [hplain, operandsText_cons, ← htext]
      · rw [operandsText_cons, List.map_cons, printOprandStringIn, List.append_assoc,
          List.cons_append, hstart, ok_bind]
        dsimp only
        rw [printRest_comma hcomma, hprint]
        rfl

/-- The text of an instruction is printed as it is shown. -/
theorem Instruction.print_eq (insn : Instruction) (funcName : Option (List Char)) :
    insn.print funcName = .ok (insn.text funcName) := by
  unfold Instruction.print Instruction.text Instruction.overrun Instruction.opStr
  by_cases hops : insn.ops = []
  · rw [hops]
    rfl
  · obtain ⟨out, hplain, hprint⟩ := printOprandStringIn_append insn.behind hops
      ('\x00' :: insn.junk)
    have hmem : ',' ∈ '\x00' :: insn.junk ↔ ',' ∈ insn.junk := by simp
    rw [hprint, ok_bind, hplain, plain_printRest, if_neg hops,
      List.takeWhile_cons_of_pos (by decide)]
    simp only [hmem, pure, Except.pure]

end Print

/-! ## Rows -/

section Rows

variable {insn : Instruction} {insns : List Instruction} {load pc : Addr} {max : ℕ}
  {funcs : List FuncEntry} {funcName : Option (List Char)} {rest : List Char}

/-- A byte is two digits and a blank. -/
theorem printByte_eq (b : Byte) :
    ∃ c d, isHexDigit c = true ∧ fmtPadHex 2 (b.setWidth 64) = [c, d] := by
  have hlength : (fmtPadHex 2 (b.setWidth 64)).length = 2 := by
    have hle : ∀ n < 256, (Nat.toDigits 16 n).length ≤ 2 := by decide +kernel
    have hb := hle b.toNat b.isLt
    unfold fmtPadHex fmtHex
    rw [BitVec.toNat_setWidth, Nat.mod_eq_of_lt (by omega), List.length_append,
      List.length_replicate]
    omega
  obtain ⟨c, d, hcd⟩ := List.length_eq_two.mp hlength
  exact ⟨c, d, isHexDigit_fmtPadHex 2 (b.setWidth 64) c (hcd ▸ List.mem_cons_self), hcd⟩

theorem readBytes_printByte (b : Byte) (rest : List Char) : readBytes (printByte b ++ rest) =
    (b :: (readBytes rest).1, (readBytes rest).2) := by
  obtain ⟨c, d, hc, hcd⟩ := printByte_eq b
  have hread : strtoul (fmtPadHex 2 (b.setWidth 64) ++ ' ' :: rest) 16 = b.setWidth 64 :=
    strtoul_fmtPadHex 2 _ rest (by decide) (by decide) (by decide)
  have hne : c ≠ ' ' := by
    rintro rfl
    cases hc
  have hback : (b.setWidth 64).setWidth 8 = b := BitVec.setWidth_setWidth_of_le b (by decide)
  unfold printByte
  rw [hcd] at hread ⊢
  show readBytes (c :: d :: ' ' :: rest) = _
  rw [readBytes, if_neg hne]
  dsimp only
  rw [← hback, ← hread]
  rfl

theorem readBytes_flatMap (bytes : List Byte) (rest : List Char) :
    readBytes (bytes.flatMap printByte ++ ("   ".toList ++ rest)) =
      (bytes, "   ".toList ++ rest) := by
  induction bytes with
  | nil => exact if_pos rfl
  | cons b bytes ih => rw [List.flatMap_cons, List.append_assoc, readBytes_printByte, ih]

/-- The bytes are read up to the blanks behind them, of which there are some. -/
theorem readBytes_printBytes {bytes : List Byte} (h : bytes.length ≤ max) (rest : List Char) :
    ∃ n, readBytes (printBytes bytes max ++ rest) = (bytes, List.replicate n ' ' ++ rest) := by
  have hpad : printBytes bytes max = bytes.flatMap printByte ++
      ("   ".toList ++ (List.replicate (max - bytes.length) "   ".toList).flatten) := by
    unfold printBytes
    rw [Nat.sub_add_comm h, List.replicate_succ, List.flatten_cons]
  have hblanks : "   ".toList ++ (List.replicate (max - bytes.length) "   ".toList).flatten =
      List.replicate (3 + (max - bytes.length) * 3) ' ' := by
    rw [List.replicate_add, ← List.flatten_replicate_replicate]
    rfl
  refine ⟨3 + (max - bytes.length) * 3, ?_⟩
  rw [hpad, List.append_assoc, List.append_assoc, readBytes_flatMap, ← List.append_assoc, hblanks]

theorem dropWhile_text (n : ℕ) : (List.replicate n ' ' ++ insn.text funcName).dropWhile (· = ' ') =
    insn.text funcName := by
  obtain ⟨c, cs, hmnemonic, hc⟩ := insn.word
  have hblank : ∀ d ∈ List.replicate n ' ', decide (d = ' ') = true := fun d hd =>
    decide_eq_true (List.eq_of_mem_replicate hd)
  have htext : ∃ rest, insn.text funcName = c :: rest := by
    unfold Instruction.text mnemonicColumn
    rw [hmnemonic]
    exact ⟨_, rfl⟩
  obtain ⟨rest, htext⟩ := htext
  rw [htext, List.dropWhile_append_of_pos hblank, List.dropWhile_cons_of_neg (by simpa using hc)]

theorem fmtPadHex_zero (x : Addr) : fmtPadHex 0 x = fmtHex x := by
  unfold fmtPadHex
  rw [Nat.zero_sub]
  rfl

theorem arrow_append (x pc : Addr) (rest : List Char) : (arrow x pc ++ rest).drop 3 = rest ∧
    decide ((arrow x pc ++ rest).take 3 = " > ".toList) = decide (x = pc) := by
  unfold arrow
  by_cases hpc : x = pc
  · simp [hpc]
  · simp [hpc]

/-- A row is read as what it shows. -/
theorem readInsnRow_row (h : insn.bytes.length ≤ max) : readInsnRow
    (arrow (insn.address + load) pc ++ (fmtHex (insn.address + load) ++ ':' :: ' ' ::
      (printBytes insn.bytes max ++ insn.text funcName))) = insn.row load pc funcName := by
  set x := insn.address + load
  obtain ⟨n, hbytes⟩ := readBytes_printBytes h (insn.text funcName)
  have hread : strtoul (fmtHex x ++ ':' :: ' ' :: (printBytes insn.bytes max ++
      insn.text funcName)) 16 = x := by
    rw [← fmtPadHex_zero]
    exact strtoul_fmtPadHex 0 x _ (by decide) (by decide) (by decide)
  have hcolon : ∀ c ∈ fmtHex x, decide (c ≠ ':') = true := by
    intro c hc
    refine decide_eq_true ?_
    rintro rfl
    rw [← fmtPadHex_zero] at hc
    exact absurd (isHexDigit_fmtPadHex 0 x _ hc) (by decide)
  have hcolumn := (takeWhile_column hcolon (c := ':') (by decide)
    (' ' :: (printBytes insn.bytes max ++ insn.text funcName))).2
  unfold readInsnRow Instruction.row
  rw [(arrow_append x pc _).1, (arrow_append x pc _).2, hread, hcolumn]
  simp only [List.drop_succ_cons, List.drop_zero]
  rw [hbytes, dropWhile_text]

theorem le_maxSize (hinsn : insn ∈ insns) : insn.bytes.length ≤ maxSize insns := by
  have hfold : ∀ (insns : List Instruction) (max : ℕ),
      max ≤ insns.foldl (fun max insn =>
        if insn.bytes.length > max then insn.bytes.length else max) max ∧
      ∀ insn ∈ insns, insn.bytes.length ≤ insns.foldl (fun max insn =>
        if insn.bytes.length > max then insn.bytes.length else max) max := by
    intro insns
    induction insns with
    | nil => exact fun max => ⟨le_rfl, nofun⟩
    | cons insn insns ih =>
      intro max
      obtain ⟨hle, hall⟩ := ih (if insn.bytes.length > max then insn.bytes.length else max)
      rw [List.foldl_cons, List.forall_mem_cons]
      refine ⟨le_trans ?_ hle, le_trans ?_ hle, hall⟩ <;> split_ifs <;> omega
  exact (hfold insns 0).2 insn hinsn

/-- The name is that of the last function at the target of the call, or of the first one. -/
def Insn.Named (funcs : List FuncEntry) (insn : Insn) (funcName : Option (List Char)) : Prop :=
  funcName = insn.callTarget.bind (scanned funcs) ∨
    funcName = insn.callTarget.bind (stored funcs)

theorem callNames_named {names : List (Option (List Char))} {insns : List Insn}
    (h : callNames funcs insns = .ok names) : List.Forall₂ (Insn.Named funcs) insns names := by
  obtain ⟨funcsMap, hinit, hok⟩ := bind_eq_ok.mp h
  cases hok
  unfold initFuncsMap at hinit
  split_ifs at hinit with hones
  cases hinit
  by_cases hzero : BitVec.ofNat 32 funcs.length = 0
  · rw [mapInit, if_pos hzero, nameCalls_none, List.forall₂_map_right_iff, List.forall₂_same]
    exact fun insn _ => .inl rfl
  · obtain ⟨ht, hinit, -, -, hempty⟩ := mapInit_of_ne (α := List Char) hzero hones false
    have hholds : Holds funcs [] ht := fun a => by
      rw [hempty a]
      simp
    rw [hinit, nameCalls_eq_answers hholds]
    have hanswers := Memo.answers_forall₂ (·.bind (scanned funcs)) (·.bind (stored funcs)) []
      (insns.map Insn.callTarget)
    rwa [List.forall₂_map_left_iff] at hanswers

theorem printRows_eq (named : List (Instruction × Option (List Char))) :
    printRows load pc max named = .ok (named.map fun (insn, funcName) =>
      arrow (insn.address + load) pc ++ (fmtHex (insn.address + load) ++ ':' :: ' ' ::
        (printBytes insn.bytes max ++ insn.text funcName))) := by
  unfold printRows
  simp only [Instruction.print_eq, ok_bind]
  exact List.mapM_pure

/-- The rows of a list of instructions, as they are read. -/
theorem printInstructionDisas_rows {rows : List (List Char)}
    (h : printInstructionDisas funcs insns load pc = .ok rows) : List.Forall₂ (fun insn row =>
      ∃ funcName, insn.insn.Named funcs funcName ∧ row = insn.row load pc funcName) insns
      (rows.map readInsnRow) := by
  obtain ⟨names, hnames, hrows⟩ := bind_eq_ok.mp h
  rw [printRows_eq] at hrows
  cases hrows
  have hnamed := List.forall₂_map_left_iff.mp (callNames_named hnames)
  have hmax : ∀ insn ∈ insns, insn.bytes.length ≤ maxSize insns := fun insn => le_maxSize
  generalize maxSize insns = max at hmax
  clear hnames h
  induction hnamed with
  | nil => exact .nil
  | cons hname hrest ih =>
    rw [List.forall_mem_cons] at hmax
    refine .cons ⟨_, hname, readInsnRow_row hmax.1⟩ (ih hmax.2)

end Rows

/-! ## The instructions of a buffer -/

/-- The instructions that a buffer holds from an address on: each begins where the one before it
ends, and has the bytes of the buffer, as far as these were read. -/
inductive Decoded : Addr → List (Option Byte) → List Instruction → Prop
  | nil (addr : Addr) (buf : List (Option Byte)) : Decoded addr buf []
  | cons {buf rest : List (Option Byte)} {insn : Instruction} {insns : List Instruction}
    (hbytes : List.Forall₂ (fun b x => ∀ b', x = some b' → b = b') insn.bytes buf)
    (hne : insn.bytes ≠ [])
    (hrest : Decoded (insn.address + BitVec.ofNat 64 insn.bytes.length) rest insns) :
    Decoded insn.address (buf ++ rest) (insn :: insns)

namespace Decoded

variable {addr : Addr} {buf : List (Option Byte)} {insns : List Instruction}

/-- Where the bytes of an instruction are. -/
theorem offset (h : Decoded addr buf insns) : ∀ insn ∈ insns, ∃ off,
    insn.address = addr + BitVec.ofNat 64 off ∧ off + insn.bytes.length ≤ buf.length ∧
      ∀ i b b', insn.bytes[i]? = some b → buf[off + i]? = some (some b') → b = b' := by
  induction h with
  | nil => exact nofun
  | @cons buf rest insn insns hbytes hne hrest ih =>
    have hlength := hbytes.length_eq
    rw [List.forall_mem_cons]
    constructor
    · refine ⟨0, by simp, by rw [List.length_append]; omega, fun i b b' hb hb' => ?_⟩
      obtain ⟨hi, rfl⟩ := List.getElem?_eq_some_iff.mp hb
      rw [Nat.zero_add, List.getElem?_append_left (hlength ▸ hi)] at hb'
      obtain ⟨hi', hread⟩ := List.getElem?_eq_some_iff.mp hb'
      exact hbytes.get hi hi' b' hread
    · intro insn' hinsn'
      obtain ⟨off, haddr, hle, hsame⟩ := ih insn' hinsn'
      refine ⟨insn.bytes.length + off, ?_, ?_, fun i b b' hb hb' => hsame i b b' hb ?_⟩
      · rw [haddr, BitVec.ofNat_add, BitVec.add_assoc]
      · rw [List.length_append]
        omega
      · rwa [List.getElem?_append_right (by omega), hlength,
          show buf.length + off + i - buf.length = off + i by omega] at hb'

/-- No two instructions begin at the same address. -/
theorem nodup (h : Decoded addr buf insns) (hlt : buf.length < 2 ^ 64) :
    (insns.map Instruction.address).Nodup := by
  induction h with
  | nil => exact .nil
  | @cons buf rest insn insns hbytes hne hrest ih =>
    have hlength := hbytes.length_eq
    have hpos := List.length_pos_iff.mpr hne
    rw [List.length_append] at hlt
    rw [List.map_cons, List.nodup_cons]
    refine ⟨fun hmem => ?_, ih (by omega)⟩
    obtain ⟨insn', hinsn', hsame⟩ := List.mem_map.mp hmem
    -- the offset of a later instruction is neither 0 nor all the way round
    obtain ⟨off, haddr, hle, -⟩ := hrest.offset insn' hinsn'
    have hround := congrArg BitVec.toNat (haddr.symm.trans hsame)
    have haddress := insn.address.isLt
    rw [BitVec.toNat_add, BitVec.toNat_add, BitVec.toNat_ofNat, BitVec.toNat_ofNat] at hround
    omega

end Decoded

/-! ## The listing -/

/-- The listing of a function tells the program it is of: its rows are those of the instructions,
the arrow is at the pc alone, no address is shown twice, and the bytes are those that are loaded
there, where the function is disassembled from the right place of the file. -/
structure Executable.Tells (exe : Executable) (load pc : Addr) (f : FuncEntry)
    (insns : List Instruction) (rows : List InsnRow) : Prop where
  instructions : List.Forall₂ (fun insn row => ∃ funcName,
    insn.insn.Named exe.functions funcName ∧ row = insn.row load pc funcName) insns rows
  arrow : ∀ row ∈ rows, row.atPc = true ↔ row.addr = pc
  once : (rows.map InsnRow.addr).Nodup
  loaded : exe.Right f → ∀ row ∈ rows, ∀ i b, row.bytes[i]? = some b →
    exe.loaded (row.addr - load + BitVec.ofNat 64 i) = some b

/-- What `print_disassembly_of_function` disassembles: the function of the name, or the one at the
pc. -/
inductive Selected (k : Kernel) (w : World) :
    Option (List Char) → Addr → Addr → List Char → Prop
  | named (funcName : List Char) :
    Selected k w (some funcName) (if w.state = .active then w.loadAddress else 0) 0 funcName
  | current (die : FuncDie) (funcName : String) (hactive : w.state = .active)
    (hdie : getFuncDieFromPc w (getPc k w.tracee w.pid) w.loadAddress = .ok (some die))
    (hname : die.name = some funcName) :
    Selected k w none w.loadAddress (getPc k w.tracee w.pid) funcName.toList

section Listing

variable {k : Kernel} {w : World} {exe : Executable} {csDisasm : CsDisasm} {load pc : Addr}
  {functionName : Option (List Char)} {funcName : List Char} {f : FuncEntry}
  {insns : List Instruction} {rows : List (List Char)}
  {functions : List (FuncEntry × List (List Char))}

theorem tells_of_rows (hdecoded : Decoded f.addr (exe.disassemble f) insns)
    (hrows : printInstructionDisas exe.functions insns load pc = .ok rows) :
    exe.Tells load pc f insns (rows.map readInsnRow) := by
  have hread := printInstructionDisas_rows hrows
  generalize rows.map readInsnRow = shown at hread
  have haddrs : shown.map InsnRow.addr = (insns.map Instruction.address).map (· + load) := by
    rw [List.map_map]
    clear hdecoded hrows
    induction hread with
    | nil => rfl
    | cons hrow _ ih =>
      obtain ⟨funcName, -, rfl⟩ := hrow
      rw [List.map_cons, List.map_cons, ih]
      rfl
  have hmem : ∀ row ∈ shown, ∃ insn ∈ insns, ∃ funcName, row = insn.row load pc funcName := by
    clear hdecoded hrows haddrs
    induction hread with
    | nil => exact nofun
    | @cons insn row insns shown hrow _ ih =>
      obtain ⟨funcName, -, rfl⟩ := hrow
      rw [List.forall_mem_cons]
      refine ⟨⟨insn, List.mem_cons_self, funcName, rfl⟩, fun row hrow => ?_⟩
      obtain ⟨insn', hinsn', hrow'⟩ := ih row hrow
      exact ⟨insn', List.mem_cons_of_mem insn hinsn', hrow'⟩
  have hlength : (exe.disassemble f).length = f.size.toNat := Executable.length_disassemble
  constructor
  · exact hread
  · intro row hrow
    obtain ⟨insn, -, funcName, rfl⟩ := hmem row hrow
    exact decide_eq_true_iff
  · rw [haddrs]
    exact (hdecoded.nodup (hlength ▸ f.size.isLt)).map (add_left_injective load)
  · intro hright row hrow i b hb
    obtain ⟨insn, hinsn, funcName, rfl⟩ := hmem row hrow
    obtain ⟨off, haddr, hle, hsame⟩ := hdecoded.offset insn hinsn
    have hi : i < insn.bytes.length := (List.getElem?_eq_some_iff.mp hb).1
    obtain ⟨b', hloaded, hread⟩ := hright.2 (off + i) (by omega)
    have haddress : insn.address + load - load + BitVec.ofNat 64 i =
        f.addr + BitVec.ofNat 64 (off + i) := by
      rw [add_sub_cancel_right, haddr, BitVec.ofNat_add, BitVec.add_assoc]
    show exe.loaded (insn.address + load - load + BitVec.ofNat 64 i) = some b
    rw [haddress, hloaded, hsame i b b' hb hread]

theorem listing_tells (hcs : ∀ buf addr, Decoded addr buf (csDisasm buf addr))
    (h : exe.listing csDisasm load pc funcName = .ok functions) :
    functions.map Prod.fst = exe.functions.filter (·.funcName = funcName) ∧
      ∀ f rows, (f, rows) ∈ functions →
        exe.Tells load pc f (csDisasm (exe.disassemble f) f.addr) (rows.map readInsnRow) := by
  have hcalls := forall₂_of_mapM h
  clear h
  generalize exe.functions.filter (·.funcName = funcName) = fs at hcalls
  induction hcalls with
  | nil => exact ⟨rfl, nofun⟩
  | cons hcall _ ih =>
    obtain ⟨rows, hrows, hok⟩ := bind_eq_ok.mp hcall
    cases hok
    refine ⟨by rw [List.map_cons, ih.1], fun f' rows' hmem => ?_⟩
    rcases List.mem_cons.mp hmem with heq | hmem
    · cases heq
      exact tells_of_rows (hcs _ _) hrows
    · exact ih.2 f' rows' hmem

theorem listing_faults : Faults (fun φ => φ = .outOfBounds ∧
    BitVec.ofNat 32 exe.functions.length = BitVec.allOnes 32)
    (exe.listing csDisasm load pc funcName) := by
  refine .mapM fun f _ => Faults.bind (Faults.bind ?_ fun names _ => ?_) fun rows _ => .ok _
  · refine Faults.bind ?_ fun funcsMap _ => .ok _
    unfold initFuncsMap
    split_ifs with hones
    · exact .error ⟨rfl, hones⟩
    · exact .ok _
  · rw [printRows_eq]
    exact .ok _

theorem disassembleNamed_faults : Faults (fun e => e.1 = .outOfBounds ∧
    BitVec.ofNat 32 exe.functions.length = BitVec.allOnes 32)
    (disassembleNamed w exe csDisasm load pc funcName) := by
  unfold disassembleNamed
  split_ifs
  · exact .ok _
  · split
    · rename_i φ hlisting
      exact .error (listing_faults φ hlisting)
    · exact .ok _
    · exact .ok _

theorem disassembleNamed_listing
    (h : disassembleNamed w exe csDisasm load pc funcName = .ok (.listing functions)) :
    exe.listing csDisasm load pc funcName = .ok functions := by
  unfold disassembleNamed at h
  split_ifs at h
  · cases h
  · split at h
    · cases h
    · cases h
    · rename_i hlisting
      cases h
      exact hlisting

/-- **The disassembly tells the program.** The listings can be read back. They are those of all
functions with the selected name, and each tells what is at the addresses it shows. Nothing goes
wrong on the way but a pc without a module, and a table of functions of a length without a map. -/
theorem printDisassemblyOfFunction_tells (hcs : ∀ buf addr, Decoded addr buf (csDisasm buf addr)) :
    Faults (fun e => e.1 = .critical ∨ e.1 = .outOfBounds ∧
        BitVec.ofNat 32 exe.functions.length = BitVec.allOnes 32)
      (printDisassemblyOfFunction k w exe csDisasm functionName) ∧
    ∀ functions, printDisassemblyOfFunction k w exe csDisasm functionName =
        .ok (.listing functions) →
      ∃ load pc funcName, Selected k w functionName load pc funcName ∧
        functions.map Prod.fst = exe.functions.filter (·.funcName = funcName) ∧
        ∀ f rows, (f, rows) ∈ functions →
          exe.Tells load pc f (csDisasm (exe.disassemble f) f.addr) (rows.map readInsnRow) := by
  cases functionName with
  | some funcName =>
    refine ⟨disassembleNamed_faults.mono fun e he => .inr he, fun functions hok => ?_⟩
    exact ⟨_, _, funcName, .named funcName, listing_tells hcs (disassembleNamed_listing hok)⟩
  | none =>
    constructor
    · unfold printDisassemblyOfFunction
      dsimp only
      split_ifs
      · exact .ok _
      · refine Faults.bind ?_ fun found _ => ?_
        · exact (getFuncDieFromPc_critical w _ _).mono fun e he => .inl (congrArg (·.1) he)
        · split
          · exact .ok _
          · exact disassembleNamed_faults.mono fun e he => .inr he
    · intro functions hok
      unfold printDisassemblyOfFunction at hok
      dsimp only at hok
      split_ifs at hok with hactive
      · cases hok
      · obtain ⟨found, hfound, hok⟩ := bind_eq_ok.mp hok
        split at hok
        · cases hok
        · rename_i funcName hname
          obtain ⟨die, rfl, hname⟩ := Option.bind_eq_some_iff.mp hname
          exact ⟨_, _, _, .current die funcName (not_not.mp hactive) hfound hname,
            listing_tells hcs (disassembleNamed_listing hok)⟩

end Listing


/-! ## A function that calls itself -/

/-- The function `f` at 0x10 of a file that is loaded as it stands: `call 0x10` and `ret`. -/
def selfCalling : Executable where
  file := List.replicate 16 0 ++ [0xe8, 0xfb, 0xff, 0xff, 0xff, 0xc3]
  segments := [⟨0, 0, 22, 22⟩]
  functions := [⟨['f'], 0x10, 6⟩]
  in_file := by decide
  in_memory := by decide

def selfCall : Instruction where
  address := 0x10
  bytes := [0xe8, 0xfb, 0xff, 0xff, 0xff]
  mnemonic := "call".toList
  ops := [⟨.imm, "0x10".toList, by decide, nofun⟩]
  junk := List.replicate 155 '\x00'
  behind := '\x00'
  fits := by decide
  word := ⟨'c', "all".toList, rfl, by decide⟩
  terminated := by decide
  size := by decide +kernel

def selfRet : Instruction where
  address := 0x15
  bytes := [0xc3]
  mnemonic := "ret".toList
  ops := []
  junk := List.replicate 159 '\x00'
  behind := '\x00'
  fits := by decide
  word := ⟨'r', "et".toList, rfl, by decide⟩
  terminated := by decide
  size := by decide +kernel

/-- `cs_disasm` for these bytes. -/
def csDisasmSelf : CsDisasm := fun buf addr =>
  if addr = 0x10 ∧ buf = [0xe8, 0xfb, 0xff, 0xff, 0xff, 0xc3].map some then [selfCall, selfRet]
  else []

theorem csDisasmSelf_decoded (buf : List (Option Byte)) (addr : Addr) :
    Decoded addr buf (csDisasmSelf buf addr) := by
  unfold csDisasmSelf
  split_ifs with h
  · obtain ⟨rfl, rfl⟩ := h
    have hsome : ∀ bytes : List Byte,
        List.Forall₂ (fun b x => ∀ b', x = some b' → b = b') bytes (bytes.map some) := by
      intro bytes
      rw [List.forall₂_map_right_iff, List.forall₂_same]
      exact fun b _ b' => Option.some.inj
    have hret : Decoded selfRet.address (selfRet.bytes.map some ++ []) [selfRet] :=
      .cons (hsome _) (by decide) (.nil _ _)
    have hcall : Decoded selfCall.address
        (selfCall.bytes.map some ++ (selfRet.bytes.map some ++ [])) [selfCall, selfRet] :=
      .cons (hsome _) (by decide) hret
    exact hcall
  · exact .nil addr buf

/-- Stopped at its `ret`, where it is loaded at 0x400000. -/
def selfStopped : World :=
  { World.stoppedAt (fun _ => 0x400015) (fun _ => 0) { Dwfl.empty with
      addrmodule := fun _ => true
      addrdie := fun _ => some ⟨none, [⟨some "f", some 0x10, some 0x16⟩]⟩ } with
    loadAddress := 0x400000 }

/-- The rows of its listing. -/
def selfRows : List (List Char) :=
  ["   400010: e8 fb ff ff ff    call   0x10".toList ++ List.replicate 156 '\x00' ++
      " <f>\n".toList,
    " > 400015: c3                ret    \n".toList]

/-- Its segment is loaded at the address of its offset. -/
theorem selfCalling_right : selfCalling.Right ⟨['f'], 0x10, 6⟩ :=
  Executable.right_of_offset_eq List.mem_cons_self rfl
    (fun _ hs' _ _ _ => List.mem_singleton.mp hs') (by decide) (by decide) (by decide) (by decide)

/-- It is told at the pc, where the arrow is, and its bytes are those that are loaded. -/
theorem printDisassemblyOfFunction_tells_self : ∃ functions,
    printDisassemblyOfFunction .idle selfStopped selfCalling csDisasmSelf none =
      .ok (.listing functions) ∧
    functions = [(⟨['f'], 0x10, 6⟩, selfRows)] ∧
    ∃ pc, selfCalling.Tells 0x400000 pc ⟨['f'], 0x10, 6⟩ [selfCall, selfRet]
        (selfRows.map readInsnRow) ∧
      ∀ row ∈ selfRows.map readInsnRow, ∀ i b, row.bytes[i]? = some b →
        selfCalling.loaded (row.addr - 0x400000 + BitVec.ofNat 64 i) = some b := by
  obtain ⟨d, hprint, hd⟩ := exists_of_any
    (p := fun d => d = .listing [(⟨['f'], 0x10, 6⟩, selfRows)])
    (x := printDisassemblyOfFunction .idle selfStopped selfCalling csDisasmSelf none)
    (by decide +kernel)
  obtain rfl := of_decide_eq_true hd
  obtain ⟨load, pc, funcName, hselected, -, htells⟩ :=
    (printDisassemblyOfFunction_tells csDisasmSelf_decoded).2 _ hprint
  cases hselected
  have htold := htells _ _ List.mem_cons_self
  exact ⟨_, hprint, rfl, _, htold, htold.loaded selfCalling_right⟩

end Vdbg
