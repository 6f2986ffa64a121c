import Vdbg.CommandCompletion
import Vdbg.Lib.Words
import Vdbg.Program

/-!
# Registers

`registers.c` works on the bytes of a `struct user_regs_struct` on its stack, which `ptrace` fills
and takes back as a whole. A register is the eight bytes at its offset, so that this reads one
register of the tracee and asks for one to be replaced (`registers_refine`). The names of the
registers are their own: what the process keeps of the writes by name is read back by name, and of a
plain register that is the value itself (`registers_readBack`).
-/

namespace Vdbg

open FaultRun Fields Numerals Words

/-! ## The bytes of the registers -/

/-- The fields of `struct user_regs_struct` in their order. -/
def userRegs : List Reg :=
  [.r15, .r14, .r13, .r12, .rbp, .rbx, .r11, .r10, .r9, .r8, .rax, .rcx, .rdx, .rsi, .rdi,
    .orig_rax, .rip, .cs, .eflags, .rsp, .ss, .fs_base, .gs_base, .ds, .es, .fs, .gs]

/-- `offsetof(struct user_regs_struct, r)` -/
def offsetOf (r : Reg) : Addr := BitVec.ofNat 64 (8 * userRegs.idxOf r)

/-- The registers a struct at an address holds. -/
def structAt (m : Memory) (base : Addr) : Regs := fun r => readWord m (base + offsetOf r)

/-- The memory after the fields are written to a struct, one after the other. -/
def fillStruct (m : Memory) (base : Addr) (regs : Regs) : Memory :=
  userRegs.foldl (fun m r => writeWord m (base + offsetOf r) (regs r)) m

section Bytes

variable (k : Kernel) (stack : Memory) (base : Addr) (t : Tracee) (pid : Pid) (r : Reg)

/-- `ptrace(PTRACE_GETREGS, pid, NULL, &regs)`, for `regs` at the base. -/
def ptraceGetRegs : Memory := if t.inStop k pid then fillStruct stack base t.regs else stack

/-- `ptrace(PTRACE_SETREGS, pid, NULL, &regs)` -/
def ptraceSetRegs (m : Memory) : Tracee :=
  if t.inStop k pid then { t with regs := k.setRegs t (structAt m base) } else t

/-- `get_register_value` -/
def getRegisterBytes : BitVec 64 :=
  readWord (ptraceGetRegs k stack base t pid) (base + offsetOf r)

/-- `set_register_value` -/
def setRegisterBytes (value : BitVec 64) : Tracee :=
  ptraceSetRegs k base t pid
    (writeWord (ptraceGetRegs k stack base t pid) (base + offsetOf r) value)

end Bytes

section Refine

variable {k : Kernel} {m stack : Memory} {base : Addr} {t : Tracee} {pid : Pid} {r r' : Reg}

theorem mem_userRegs (r : Reg) : r ∈ userRegs := by
  cases r <;> decide

theorem idxOf_lt (r : Reg) : userRegs.idxOf r < 27 := List.idxOf_lt_length_of_mem (mem_userRegs r)

/-- The bytes of different registers do not meet. -/
theorem offsets_apart (base : Addr) (h : r ≠ r') {i : ℕ} (hi : i < 8) :
    ¬base + offsetOf r' + BitVec.ofNat 64 i - (base + offsetOf r) < 8 := by
  have hne : userRegs.idxOf r ≠ userRegs.idxOf r' := fun he =>
    h ((List.idxOf_inj (mem_userRegs r)).mp he)
  have hr := idxOf_lt r
  have hr' := idxOf_lt r'
  unfold offsetOf
  generalize userRegs.idxOf r = n at *
  generalize userRegs.idxOf r' = n' at *
  bv_omega

theorem structAt_writeWord (m : Memory) (base : Addr) (r : Reg) (value : BitVec 64) :
    structAt (writeWord m (base + offsetOf r) value) base =
      Function.update (structAt m base) r value := by
  funext r'
  unfold structAt
  by_cases h : r' = r
  · subst h
    rw [readWord_writeWord, Function.update_self]
  · rw [readWord_writeWord_apart value fun i hi => offsets_apart base (Ne.symm h) hi,
      Function.update_of_ne h]

/-- The fields that were written are those of the registers. -/
theorem structAt_foldl (rs : List Reg) (m : Memory) (base : Addr) (regs : Regs) (r : Reg) :
    structAt (rs.foldl (fun m r => writeWord m (base + offsetOf r) (regs r)) m) base r =
      if r ∈ rs then regs r else structAt m base r := by
  induction rs generalizing m with
  | nil => rfl
  | cons r₀ rs ih =>
    rw [List.foldl_cons, ih, structAt_writeWord]
    by_cases hmem : r ∈ rs
    · rw [if_pos hmem, if_pos (List.mem_cons_of_mem r₀ hmem)]
    · rw [if_neg hmem]
      by_cases hr : r = r₀
      · rw [hr, Function.update_self, if_pos List.mem_cons_self]
      · rw [Function.update_of_ne hr, if_neg (by simp [hmem, hr])]

theorem structAt_fillStruct (m : Memory) (base : Addr) (regs : Regs) :
    structAt (fillStruct m base regs) base = regs := by
  funext r
  rw [fillStruct, structAt_foldl, if_pos (mem_userRegs r)]

theorem structAt_ptraceGetRegs : structAt (ptraceGetRegs k stack base t pid) base =
    if t.inStop k pid then t.regs else structAt stack base := by
  unfold ptraceGetRegs
  split_ifs
  · exact structAt_fillStruct stack base t.regs
  · rfl

end Refine

/-- **The bytes of the registers.** On the bytes of the struct, wherever it is on the stack and
whatever was there before, `get_register_value` reads one register of the tracee, and
`set_register_value` hands its registers back with one replaced. Where that is a plain one, it is the
only one that changes. -/
theorem registers_refine (k : Kernel) (stack : Memory) (base : Addr) (t : Tracee) (pid : Pid)
    (hjunk : k.junkRegs t = structAt stack base) :
    (∀ r, getRegisterBytes k stack base t pid r = getRegisterValue k t r pid) ∧
    (∀ r value, setRegisterBytes k stack base t pid r value = setRegisterValue k t r pid value) ∧
    ∀ r value, r.isPlain = true → setRegisterBytes k stack base t pid r value =
      if t.inStop k pid then { t with regs := Function.update t.regs r value } else t := by
  have hset : ∀ r value, setRegisterBytes k stack base t pid r value =
      setRegisterValue k t r pid value := by
    intro r value
    unfold setRegisterBytes ptraceSetRegs setRegisterValue
    rw [structAt_writeWord, structAt_ptraceGetRegs]
    split_ifs <;> rfl
  refine ⟨?_, hset, fun r value hr => ?_⟩
  · intro r
    have hread : getRegisterBytes k stack base t pid r =
        structAt (ptraceGetRegs k stack base t pid) base r := rfl
    rw [hread, structAt_ptraceGetRegs, getRegisterValue, hjunk]
    split_ifs <;> rfl
  · rw [hset, setRegisterValue_plain hr]

/-- A system that keeps the flags a process has, whatever it is asked to store. -/
def keepingFlags : Kernel :=
  { Kernel.idle with
    junkRegs := fun _ => structAt (fun _ => 1) 0x7ffe0000
    setRegs := fun t regs => Function.update regs .eflags (t.regs .eflags)
    setRegs_plain := fun _ _ h => by rw [← h .eflags rfl, Function.update_eq_self] }

/-- A stopped process whose registers are all 7, and a stack of ones. -/
theorem registers_refine_stopped : ∃ t : Tracee, t.inStop keepingFlags 1 = true ∧
    getRegisterBytes keepingFlags (fun _ => 1) 0x7ffe0000 t 1 .rip = 7 ∧
    setRegisterBytes keepingFlags (fun _ => 1) 0x7ffe0000 t 1 .rip 9 =
      { t with regs := Function.update t.regs .rip 9 } ∧
    (setRegisterBytes keepingFlags (fun _ => 1) 0x7ffe0000 t 1 .eflags 0).regs .eflags = 7 := by
  refine ⟨⟨1, .stopped, fun _ => 7, fun _ => 0, []⟩, rfl, ?_⟩
  obtain ⟨hget, hset, hplain⟩ := registers_refine keepingFlags (fun _ => 1) 0x7ffe0000
    ⟨1, .stopped, fun _ => 7, fun _ => 0, []⟩ 1 rfl
  exact ⟨hget .rip, hplain .rip 9 rfl, by rw [hset]; rfl⟩

/-! ## The names of the registers -/

/-- `get_register_name` -/
def getRegisterName (r : Reg) : String :=
  ((registerDescriptors.find? (·.1 = r)).map Prod.snd).getD ""

/-- `register write` with a name and a number. -/
def writeRegLine (r : Reg) (value : BitVec 64) : List Char :=
  "register".toList ++ ' ' :: ("write".toList ++ ' ' :: ((getRegisterName r).toList ++
    ' ' :: '0' :: 'x' :: fmtHex value))

/-- `register read` with a name. -/
def readRegLine (r : Reg) : List Char :=
  "register".toList ++ ' ' :: ("read".toList ++ ' ' :: (getRegisterName r).toList)

/-- A process in a stop after some writes to its registers. -/
def Tracee.written (k : Kernel) (t : Tracee) (writes : List (Reg × BitVec 64)) : Tracee :=
  writes.foldl (fun t p => { t with regs := k.setRegs t (Function.update t.regs p.1 p.2) }) t

/-- The registers with the values of some writes in their places. -/
def updated (regs : Regs) (writes : List (Reg × BitVec 64)) : Regs :=
  writes.foldl (fun regs p => Function.update regs p.1 p.2) regs

/-- Plain registers hold what is written to them. -/
theorem Tracee.written_plain {k : Kernel} {t : Tracee} {writes : List (Reg × BitVec 64)}
    (hplain : ∀ p ∈ writes, p.1.isPlain = true) :
    t.written k writes = { t with regs := updated t.regs writes } := by
  induction writes generalizing t with
  | nil => rfl
  | cons p writes ih =>
    have hstored : k.setRegs t (Function.update t.regs p.1 p.2) = Function.update t.regs p.1 p.2 := by
      refine k.setRegs_plain t _ fun r hr => Function.update_of_ne ?_ _ _
      rintro rfl
      rw [hplain p List.mem_cons_self] at hr
      cases hr
    have hrest := ih (t := { t with regs := k.setRegs t (Function.update t.regs p.1 p.2) })
      fun q hq => hplain q (List.mem_cons_of_mem _ hq)
    exact hrest.trans (by rw [hstored]; rfl)

section Names

variable {k : Kernel} {syms : Symbols} {scripts : Scripts} {turns room : ℕ} {s : Shell}
  {w : World} {r : Reg} {value : BitVec 64} {dwarf : Bool}

/-- A name is that of one register, and one token. -/
theorem registerNamed_getRegisterName (r : Reg) :
    registerNamed (getRegisterName r).toList = some r := by
  cases r <;> decide

theorem getRegisterName_token (r : Reg) :
    (getRegisterName r).toList ≠ [] ∧ ' ' ∉ (getRegisterName r).toList := by
  cases r <;> decide

theorem dispatch_readRegLine (dwarf : Bool) (r : Reg) : dispatch true dwarf (readRegLine r) =
    .handled .cmdReg ["register".toList, "read".toList, (getRegisterName r).toList] := by
  obtain ⟨hne, hblank⟩ := getRegisterName_token r
  have hfields : fields ' ' (readRegLine r) =
      ["register".toList, "read".toList, (getRegisterName r).toList] := by
    unfold readRegLine
    rw [fields_append (by decide) (by decide), fields_append (by decide) (by decide),
      fields_singleton hne hblank]
  rw [dispatch_eq, selectedEntry, hfields]
  rfl

theorem dispatch_writeRegLine (dwarf : Bool) (r : Reg) (value : BitVec 64) :
    dispatch true dwarf (writeRegLine r value) = .handled .cmdReg
      ["register".toList, "write".toList, (getRegisterName r).toList, '0' :: 'x' :: fmtHex value] := by
  obtain ⟨hne, hblank⟩ := getRegisterName_token r
  have hdigits : ' ' ∉ '0' :: 'x' :: fmtHex value := by
    have hhex := (allDigits_toDigits (b := 16) (n := value.toNat) (by decide) (by decide)).not_mem
      (c := ' ') rfl
    simpa [fmtHex] using hhex
  have hfields : fields ' ' (writeRegLine r value) = ["register".toList, "write".toList,
      (getRegisterName r).toList, '0' :: 'x' :: fmtHex value] := by
    unfold writeRegLine
    rw [fields_append (by decide) (by decide), fields_append (by decide) (by decide),
      fields_append hne hblank, fields_singleton (List.cons_ne_nil _ _) hdigits]
  rw [dispatch_eq, selectedEntry, hfields]
  rfl

theorem cmdReg_read : cmdReg k w
    ["register".toList, "read".toList, (getRegisterName r).toList] =
      .ok (w, [getRegisterValue k w.tracee r w.pid]) := by
  show (do
    let r ← accessed (registerNamed (getRegisterName r).toList)
    return (w, [getRegisterValue k w.tracee r w.pid])) = _
  rw [registerNamed_getRegisterName]
  rfl

theorem cmdReg_write : cmdReg k w
    ["register".toList, "write".toList, (getRegisterName r).toList, '0' :: 'x' :: fmtHex value] =
      .ok (w.setTracee (setRegisterValue k w.tracee r w.pid value), []) := by
  show (do
    let r ← accessed (registerNamed (getRegisterName r).toList)
    return (w.setTracee (setRegisterValue k w.tracee r w.pid
      (strtoul ('0' :: 'x' :: fmtHex value) 16)), [])) = _
  rw [registerNamed_getRegisterName, show strtoul ('0' :: 'x' :: fmtHex value) 16 = value from
    strtoul_hex 0]
  rfl

/-- At a prompt with a stopped tracee a write changes the registers and nothing else. -/
theorem handle_writeRegLine (hactive : s.world.state = .active)
    (hpid : s.world.pid = s.world.tracee.pid) (hstopped : s.world.tracee.task = .stopped) :
    Program.handle k syms scripts turns room (writeRegLine r value) s = .ok { s with
      world := s.world.setTracee { s.world.tracee with
        regs := k.setRegs s.world.tracee (Function.update s.world.tracee.regs r value) } } := by
  have hstop : s.world.tracee.inStop k s.world.pid = true := by
    simp [Tracee.inStop, hpid, hstopped]
  unfold Program.handle Program.handleCommand
  rw [show decide (s.world.state = .active) = true from decide_eq_true hactive,
    dispatch_writeRegLine]
  show s.handled _ (cmdReg k s.world _) = _
  rw [cmdReg_write, setRegisterValue, if_pos hstop]
  rfl

/-- So do any number of writes. -/
theorem handle_writeRegLines {writes : List (Reg × BitVec 64)} (hactive : s.world.state = .active)
    (hpid : s.world.pid = s.world.tracee.pid) (hstopped : s.world.tracee.task = .stopped) :
    writes.foldlM (fun s p => Program.handle k syms scripts turns room (writeRegLine p.1 p.2) s) s =
      .ok { s with world := s.world.setTracee (s.world.tracee.written k writes) } := by
  induction writes generalizing s with
  | nil => rfl
  | cons p writes ih =>
    exact foldlM_cons_eq_ok.mpr ⟨_, handle_writeRegLine hactive hpid hstopped,
      ih (s := { s with world := s.world.setTracee { s.world.tracee with
        regs := k.setRegs s.world.tracee (Function.update s.world.tracee.regs p.1 p.2) } })
        hactive hpid hstopped⟩

/-- A process in a stop stays there while its registers are written. -/
theorem Tracee.inStop_written {t : Tracee} {writes : List (Reg × BitVec 64)} {pid : Pid}
    (hpid : pid = t.pid) (hstopped : t.task = .stopped) :
    (t.written k writes).inStop k pid = true := by
  induction writes generalizing t with
  | nil => simp [written, inStop, hpid, hstopped]
  | cons p writes ih => exact ih (t := { t with regs := _ }) hpid hstopped

end Names

/-- **Registers by name.** After any sequence of `register write` commands at a prompt with a stopped
tracee, `register read` prints of each register what the process keeps in it, and nothing but the
registers of the tracee has changed. Where plain registers were written, each register holds what
was written to it last. -/
theorem registers_readBack (k : Kernel) (syms : Symbols) (scripts : Scripts) (turns room : ℕ)
    (s : Shell) (writes : List (Reg × BitVec 64)) (hactive : s.world.state = .active)
    (hpid : s.world.pid = s.world.tracee.pid) (hstopped : s.world.tracee.task = .stopped) :
    ∃ s', writes.foldlM (fun s p =>
        Program.handle k syms scripts turns room (writeRegLine p.1 p.2) s) s = .ok s' ∧
      s' = { s with world := s.world.setTracee (s.world.tracee.written k writes) } ∧
      (∀ r, ∃ args, dispatch (s'.world.state = .active) syms.hasDwarf (readRegLine r) =
          .handled .cmdReg args ∧
        cmdReg k s'.world args = .ok (s'.world, [(s.world.tracee.written k writes).regs r])) ∧
      ((∀ p ∈ writes, p.1.isPlain = true) → s.world.tracee.written k writes =
        { s.world.tracee with regs := updated s.world.tracee.regs writes }) := by
  refine ⟨_, handle_writeRegLines hactive hpid hstopped, rfl, fun r => ?_, Tracee.written_plain⟩
  have hstop : (s.world.tracee.written k writes).inStop k s.world.pid = true :=
    Tracee.inStop_written hpid hstopped
  have hshown : (s.world.setTracee (s.world.tracee.written k writes)).state = .active := hactive
  rw [show decide ((s.world.setTracee _).state = .active) = true from decide_eq_true hshown]
  refine ⟨_, dispatch_readRegLine syms.hasDwarf r, ?_⟩
  rw [cmdReg_read]
  show Except.ok (_, [getRegisterValue k (s.world.tracee.written k writes) r s.world.pid]) = _
  rw [getRegisterValue, if_pos hstop]

/-- A register is written twice, and another one in between. -/
theorem registers_readBack_rax : ∃ (args : List (List Char)) (s' : Shell),
    dispatch (s'.world.state = .active) debugSymbols.hasDwarf "register read rax".toList =
      .handled .cmdReg args ∧ cmdReg keepingFlags s'.world args = .ok (s'.world, [3]) := by
  obtain ⟨s', -, -, hread, hplain⟩ := registers_readBack keepingFlags debugSymbols
    ⟨[], fun _ => none⟩ 0 0 ⟨{ dbgInit with
      state := .active, pid := 1, tracee := ⟨1, .stopped, fun _ => 0, fun _ => 0, []⟩ }, []⟩
    [(.rax, 1), (.rip, 2), (.rax, 3)] rfl rfl rfl
  obtain ⟨args, hdispatch, hvalue⟩ := hread .rax
  rw [hplain (by decide)] at hvalue
  exact ⟨args, s', hdispatch, hvalue⟩

end Vdbg
