import Vdbg.Lib.Words
import Vdbg.Symbols

/-!
# The tracee behind `ptrace`

The process a debugger forked, as its `ptrace`, `waitpid` and `kill` calls see it. What the process
does between a resume request and the next status, which addresses can be read or written, and
whether a request reaches a process that runs are up to the `Kernel`, a function of the tracee and
of the calls made so far: a kernel covers every behaviour a run can show.
-/

namespace Vdbg

open Words

abbrev Addr := BitVec 64
abbrev Byte := BitVec 8
abbrev Pid := ℕ
abbrev Signal := ℕ

/-! ## Signals and their codes -/

def SIGABRT : Signal := 6
def SIGTRAP : Signal := 5
def SIGSEGV : Signal := 11
def SIGALRM : Signal := 14
def SIGCHLD : Signal := 17
def SIGURG : Signal := 23
def SIGWINCH : Signal := 28

def SI_KERNEL : ℤ := 0x80
def TRAP_BRKPT : ℤ := 1
def TRAP_TRACE : ℤ := 2

/-- The two fields of `siginfo_t` the debugger reads. -/
structure SigInfo where
  signo : Signal
  code : ℤ
deriving DecidableEq, Repr

/-- What `waitpid` reports of a process. -/
inductive WaitStatus where
  | exited (code : ℕ)
  | signaled (sig : Signal)
  | stopped (info : SigInfo)
deriving DecidableEq, Repr

/-- `PTRACE_CONT` with a signal, and `PTRACE_SINGLESTEP` with none. -/
inductive Resume where
  | cont (sig : Signal)
  | singlestep
deriving DecidableEq, Repr

/-- The process as the debugger has last seen it: in a stop it collected, resumed since, or gone. -/
inductive Task where
  | stopped
  | running (req : Resume)
  | gone
deriving DecidableEq, Repr

/-- What a status leaves of the process. -/
def WaitStatus.task : WaitStatus → Task
  | .stopped _ => .stopped
  | .exited _ | .signaled _ => .gone

/-- The calls a debugger makes about its tracee. -/
inductive Syscall where
  | fork (pid : Pid)
  | peek (pid : Pid) (addr : Addr)
  | poke (pid : Pid) (addr : Addr)
  | resume (pid : Pid) (req : Resume)
  | wait (pid : Pid) (status : Option WaitStatus)
  | kill (pid : Pid)
deriving DecidableEq, Repr

/-! ## Registers -/

/-- `reg`, the fields of `struct user_regs_struct`. -/
inductive Reg where
  | r15 | r14 | r13 | r12 | rbp | rbx | r11 | r10 | r9 | r8 | rax | rcx | rdx | rsi | rdi
  | orig_rax | rip | cs | eflags | rsp | ss | fs_base | gs_base | ds | es | fs | gs
deriving DecidableEq, Repr

abbrev Regs := Reg → BitVec 64

/-- Whether `PTRACE_SETREGS` takes any value of a register as it is. Of the others it keeps some bits
and refuses some values. -/
def Reg.isPlain : Reg → Bool
  | .cs | .eflags | .ss | .fs_base | .gs_base | .ds | .es | .fs | .gs => false
  | _ => true

/-! ## The tracee -/

/-- A process, its registers and memory, and the calls made about it, the last one first. -/
structure Tracee where
  pid : Pid
  task : Task
  regs : Regs
  mem : Memory
  log : List Syscall

/-- What becomes of a call of `waitpid` on a process nobody has reaped. It fails when it is
interrupted. The end of a traced process is kept for its tracer, also where `SIGCHLD` is ignored. -/
inductive WaitOutcome where
  | reports (status : WaitStatus) (regs : Regs) (mem : Memory)
  | fails
  | never

/-- The behaviour of the process and of the system around it. -/
structure Kernel where
  /-- Registers and memory of a process that was just forked. -/
  image : Tracee → Regs × Memory
  /-- What the process does until `waitpid` returns. -/
  wait : Tracee → WaitOutcome
  /-- Whether the word at an address can be read. -/
  peekOk : Tracee → Addr → Bool
  /-- Whether the word at an address can be written. -/
  pokeOk : Tracee → Addr → Bool
  /-- Whether a resumed process is by now in a stop nobody has collected. -/
  unseenStop : Tracee → Bool
  /-- What an unfilled `struct user_regs_struct` holds. -/
  junkRegs : Tracee → Regs
  /-- The registers after `PTRACE_SETREGS` in a stop, which may refuse what it is given. -/
  setRegs : Tracee → Regs → Regs
  /-- What differs from the registers of the process in plain ones only is stored as it is. -/
  setRegs_plain : ∀ t regs, (∀ r, r.isPlain = false → regs r = t.regs r) → setRegs t regs = regs
  /-- The first mapping in `/proc/<pid>/maps`, when the file can be opened. -/
  mapsBase : Tracee → Option Addr
  /-- The modules `dwfl_linux_proc_report` finds, unless it fails. -/
  report : Tracee → Option Dwfl

namespace Tracee

variable (k : Kernel) (t : Tracee)

/-- The tracee before any process was forked. -/
def absent : Tracee := ⟨0, .gone, fun _ => 0, fun _ => 0, []⟩

def logged (c : Syscall) : Tracee := { t with log := c :: t.log }

/-- `kill(pid, 0) == 0` -/
def alive (pid : Pid) : Bool := pid = t.pid && t.task ≠ .gone

/-- Whether the process accepts requests that need a ptrace stop. -/
def inStop (pid : Pid) : Bool :=
  pid = t.pid && match t.task with
    | .stopped => true
    | .running _ => k.unseenStop t
    | .gone => false

/-- `fork` and `execv`: a new process. -/
def fork : Tracee :=
  let (regs, mem) := k.image t
  { pid := t.pid + 1, task := .running (.cont 0), regs, mem, log := .fork (t.pid + 1) :: t.log }

/-- `ptrace(PTRACE_PEEKDATA, ...)`, which is -1 when it fails. -/
def peekData (pid : Pid) (addr : Addr) : BitVec 64 × Tracee :=
  (if t.alive pid && k.peekOk t addr then readWord t.mem addr else BitVec.allOnes 64,
    t.logged (.peek pid addr))

/-- `ptrace(PTRACE_POKEDATA, ...)` -/
def pokeData (pid : Pid) (addr : Addr) (data : BitVec 64) : Tracee :=
  let t' := t.logged (.poke pid addr)
  if t.alive pid && k.pokeOk t addr then { t' with mem := writeWord t.mem addr data } else t'

/-- `ptrace(PTRACE_CONT, ...)` and `ptrace(PTRACE_SINGLESTEP, ...)` -/
def resume (pid : Pid) (req : Resume) : Tracee :=
  let t' := t.logged (.resume pid req)
  if t.inStop k pid then { t' with task := .running req } else t'

/-- `waitpid`: the status, when the call succeeds, and the tracee after it. It may never return. -/
def waitpid (pid : Pid) : Option (Option WaitStatus × Tracee) :=
  if t.alive pid then
    match k.wait t with
    | .reports status regs mem =>
      some (some status, { t.logged (.wait pid (some status)) with task := status.task, regs, mem })
    | .fails => some (none, t.logged (.wait pid none))
    | .never => none
  else some (none, t.logged (.wait pid none))

variable {k t} in
/-- A status comes from a living process. -/
theorem waitpid_reports {pid : Pid} {status : WaitStatus} {t' : Tracee}
    (h : t.waitpid k pid = some (some status, t')) :
    t.alive pid ∧ ∃ regs mem, k.wait t = .reports status regs mem ∧
      t' = { t.logged (.wait pid (some status)) with task := status.task, regs, mem } := by
  unfold waitpid at h
  split_ifs at h with halive
  · refine ⟨halive, ?_⟩
    rcases hw : k.wait t with ⟨status', regs, mem⟩ | - | -
    · rw [hw] at h
      obtain ⟨⟨⟩, rfl⟩ := Prod.mk.inj (Option.some.inj h)
      exact ⟨regs, mem, rfl, rfl⟩
    · rw [hw] at h; cases h
    · rw [hw] at h; cases h
  · cases h

/-- `ptrace(PTRACE_KILL, ...)` and the `waitpid` that reaps the process. -/
def kill (pid : Pid) : Tracee :=
  let t' := t.logged (.kill pid)
  if t.alive pid then { t' with task := .gone } else t'

end Tracee

/-! ## registers.c -/

/-- `get_register_value` -/
def getRegisterValue (k : Kernel) (t : Tracee) (r : Reg) (pid : Pid) : BitVec 64 :=
  if t.inStop k pid then t.regs r else k.junkRegs t r

/-- `set_register_value` -/
def setRegisterValue (k : Kernel) (t : Tracee) (r : Reg) (pid : Pid) (value : BitVec 64) : Tracee :=
  if t.inStop k pid then { t with regs := k.setRegs t (Function.update t.regs r value) } else t

/-- A plain register holds what was written to it. -/
theorem setRegisterValue_plain {r : Reg} (hr : r.isPlain = true) (k : Kernel) (t : Tracee) (pid : Pid)
    (value : BitVec 64) : setRegisterValue k t r pid value =
      if t.inStop k pid then { t with regs := Function.update t.regs r value } else t := by
  unfold setRegisterValue
  rw [k.setRegs_plain t _ fun r' hr' => Function.update_of_ne (by rintro rfl; simp_all) _ _]

/-- `get_pc` -/
def getPc (k : Kernel) (t : Tracee) (pid : Pid) : Addr := getRegisterValue k t .rip pid

/-- `set_pc` -/
def setPc (k : Kernel) (t : Tracee) (pid : Pid) (value : Addr) : Tracee :=
  setRegisterValue k t .rip pid value

theorem setPc_eq (k : Kernel) (t : Tracee) (pid : Pid) (value : Addr) : setPc k t pid value =
    if t.inStop k pid then { t with regs := Function.update t.regs .rip value } else t :=
  setRegisterValue_plain rfl k t pid value

/-- `read_memory` -/
def readMemory (k : Kernel) (t : Tracee) (pid : Pid) (addr : Addr) : BitVec 64 × Tracee :=
  t.peekData k pid addr

/-- `write_memory` -/
def writeMemory (k : Kernel) (t : Tracee) (pid : Pid) (addr value : BitVec 64) : Tracee :=
  t.pokeData k pid addr value

/-! ## A kernel with a script -/

/-- Whether a call is a `waitpid`. -/
def Syscall.isWait : Syscall → Bool
  | .wait _ _ => true
  | _ => false

/-- A kernel that gives `waitpid` the statuses of a list, one after the other, and leaves registers
and memory alone. -/
def Kernel.scripted (regs : Regs) (statuses : List WaitStatus) : Kernel where
  image _ := (regs, fun _ => 0)
  wait t := match statuses[t.log.countP Syscall.isWait]? with
    | some status => .reports status t.regs t.mem
    | none => .never
  peekOk _ _ := true
  pokeOk _ _ := true
  unseenStop _ := false
  junkRegs _ := fun _ => 0
  setRegs _ regs := regs
  setRegs_plain _ _ _ := rfl
  mapsBase _ := some 0
  report _ := some Dwfl.empty

end Vdbg
