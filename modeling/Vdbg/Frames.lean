import Vdbg.Arrival
import Vdbg.Landing
import Vdbg.Lib.Calls

/-!
# Frames and finish

`finish` reads the return address above `rbp` and runs to it. The frames of the program are the ones
a debugger would unwind to: `rbp` belongs to the innermost one between its prologue and its
epilogue, and to its caller elsewhere. `finish` comes back where it should exactly where that word
is the return address of the activation, execution does not arrive there before the activation is
over, and libdwfl answers there (`stepOut_finishes_iff`).
-/

namespace Vdbg

open FaultRun Words Calls

variable {k : Kernel} {syms : Symbols} {M : Cpu} {E : Ends M} {s : Regs × Memory} {w w' w₁ : World}
  {ts as : List Addr} {a : Addr} {n : ℕ}

/-! ## Frames -/

/-- An activation of a function: where it returns to, and what `rbp` is after its prologue. -/
structure Frame where
  ret : Addr
  base : Addr
deriving DecidableEq

/-- `call` stored the return address above the base, on the stack. -/
structure Frame.Saved (M : Cpu) (s : Regs × Memory) (f : Frame) : Prop where
  word : readWord s.2 (f.base + 8) = f.ret
  data : ∀ i < 8, ¬M.starts (f.base + 8 + BitVec.ofNat 64 i)
  starts : M.starts f.ret
  ne_zero : f.ret ≠ 0

/-- The frames of a program with the standard prologue, from a state on. -/
structure Framed (M : Cpu) (stack : Regs × Memory → List Frame) (s : Regs × Memory) : Prop where
  nested : Nested stack (fun f s' => M.pc s'.1 = f.ret) fun n => M.run n s
  saved : ∀ f ∈ stack s, f.Saved M s
  /-- Before its prologue and after its epilogue `rbp` is not the one of the innermost frame. -/
  rbp : ∃ f ∈ (stack s).take 2, s.1 .rbp = f.base

/-- The word above `rbp`. -/
def returnWord (s : Regs × Memory) : Addr := readWord s.2 (s.1 .rbp + 8)

variable {stack : Regs × Memory → List Frame} {f : Frame}

theorem Frame.Saved.returnWord_eq (h : f.Saved M s) (hrbp : s.1 .rbp = f.base) :
    returnWord s = f.ret := by
  unfold returnWord
  rw [hrbp, h.word]

/-- The frames of a run are nested where every instruction moves them. -/
theorem nested_of_moves (h : M.Loaded s)
    (hmoves : ∀ s, M.Loaded s → Moves stack (fun f s' => M.pc s'.1 = f.ret) s (M.exec s)) :
    Nested stack (fun f s' => M.pc s'.1 = f.ret) fun n => M.run n s := by
  intro n
  show Moves stack _ (M.run n s) (M.run (n + 1) s)
  rw [Traps.Machine.run_succ']
  exact hmoves _ (Traps.Machine.run_loaded h n)

/-- The word above `rbp` is the return address of a frame. -/
theorem Framed.pointed (h : Framed M stack s) :
    ∃ f ∈ stack s, f.Saved M s ∧ s.1 .rbp = f.base ∧ returnWord s = f.ret := by
  obtain ⟨f, hf, hrbp⟩ := h.rbp
  have hmem := List.mem_of_mem_take hf
  have hsaved := h.saved f hmem
  exact ⟨f, hmem, hsaved, hrbp, hsaved.returnWord_eq hrbp⟩

/-- The first pop below the start returns from the innermost activation. -/
theorem Framed.pops (h : Framed M stack s) (hf : (stack s).head? = some f)
    (hdeep : ∀ i < n, ¬Popped stack s (M.run i s)) (hpopped : Popped stack s (M.run n s)) :
    M.pc (M.run n s).1 = f.ret := by
  obtain ⟨f', hstack, hback⟩ := h.nested.pops hdeep hpopped
  have hhead : (stack s).head? = some f' := by
    rw [show stack s = f' :: stack (M.run n s) from hstack]
    rfl
  obtain rfl := Option.some.inj (hf.symm.trans hhead)
  exact hback

/-- Where the innermost activation has not returned before, it was not popped before. -/
theorem Framed.deep (h : Framed M stack s) (hf : (stack s).head? = some f)
    (hfree : ∀ i, 0 < i → i < n → ¬(Popped stack s (M.run i s) ∧ M.pc (M.run i s).1 = f.ret))
    (i : ℕ) (hi : i < n) : ¬Popped stack s (M.run i s) := by
  induction i using Nat.strong_induction_on with
  | _ i ih =>
    intro hpopped
    rcases Nat.eq_zero_or_pos i with rfl | hpos
    · exact Nat.lt_irrefl _ hpopped
    -- the first pop would have been the return
    have hback := h.pops hf (fun j hj => ih j hj (hj.trans hi)) hpopped
    exact hfree i hpos hi ⟨hpopped, hback⟩

/-- `read_return_address` finds the word above `rbp`. -/
theorem Tracing.readReturnAddress (hk : k.Steps M E) (h : Tracing M w s) (hsaved : f.Saved M s)
    (hrbp : s.1 .rbp = f.base) :
    (Vdbg.readReturnAddress k w).1 = f.ret ∧ Tracing M (Vdbg.readReturnAddress k w).2 s := by
  have hpointer : getRegisterValue k w.tracee .rbp w.pid = f.base := by
    rw [getRegisterValue, if_pos h.inStop, h.regs, hrbp]
  constructor
  · show (readMemory k w.tracee w.pid (getRegisterValue k w.tracee .rbp w.pid + 8)).1 = f.ret
    rw [hpointer, readMemory, Tracee.peekData, h.hosted.alive, hk.accessible.peek, ← hsaved.word]
    -- the patches are on instructions, and the word is not
    refine readWord_congr fun i hi => h.memory.plain _ ?_
    by_contra hpatched
    exact hsaved.data i hi (h.patches _ (by simpa using hpatched))
  · exact h.move hk h.loaded rfl h.stopped h.regs (h.mem hk)

/-! ## Where finish should come back -/

/-- `finish` is over: at a breakpoint of the user, or at the return address of the activation that
has been popped. -/
def Finished (M : Cpu) (w : World) (stack : Regs × Memory → List Frame) (f : Frame)
    (s s' : Regs × Memory) : Prop :=
  M.armed w.isPatched s' = true ∨ Popped stack s s' ∧ M.pc s'.1 = f.ret

/-- After so many instructions the program still runs, has not arrived at a breakpoint of the user,
and the activation was not popped before. -/
structure Underway (M : Cpu) (E : Ends M) (w : World) (stack : Regs × Memory → List Frame)
    (s : Regs × Memory) (n : ℕ) : Prop where
  pos : 0 < n
  goes : E.Goes s n
  free : ∀ i, 0 < i → i ≤ n → M.armed w.isPatched (M.run i s) = false
  deep : ∀ i < n, ¬Popped stack s (M.run i s)

/-- The word above `rbp` finds the end of the activation: it is its return address, without a
location that is disabled there, and no deeper activation returns to it. -/
structure Identifies (M : Cpu) (E : Ends M) (w : World) (stack : Regs × Memory → List Frame)
    (f : Frame) (s : Regs × Memory) : Prop where
  returns : ∀ n, Underway M E w stack s n → Popped stack s (M.run n s) →
    returnWord s = f.ret ∧ mapLookup w.bpLocations f.ret = none
  deeper : ∀ n, Underway M E w stack s n → ¬Popped stack s (M.run n s) →
    M.pc (M.run n s).1 = returnWord s → (mapLookup w.bpLocations (returnWord s)).isSome

/-- Where `finish` is not over, the first time at which it might be is under way. -/
theorem Framed.underway (h : Framed M stack s) (hf : (stack s).head? = some f) (hpos : 0 < n)
    (hgoes : E.Goes s n) (hfree : ∀ i, 0 < i → i < n → ¬Finished M w stack f s (M.run i s))
    (hhere : M.armed w.isPatched (M.run n s) = false) : Underway M E w stack s n := by
  have hnopatch : ∀ i, 0 < i → i < n → M.armed w.isPatched (M.run i s) = false := fun i hi hlt =>
    Bool.eq_false_iff.mpr fun harmed => hfree i hi hlt (.inl harmed)
  refine ⟨hpos, hgoes, fun i hi hle => ?_,
    h.deep hf fun i hi hlt hback => hfree i hi hlt (.inr hback)⟩
  rcases Nat.lt_or_eq_of_le hle with hlt | rfl
  · exact hnopatch i hi hlt
  · exact hhere

/-- A run that was under way is not over. -/
theorem Underway.not_finished (h : Underway M E w stack s n) {i : ℕ} (hpos : 0 < i) (hi : i < n) :
    ¬Finished M w stack f s (M.run i s) := by
  rintro (harmed | ⟨hpopped, -⟩)
  · rw [h.free i hpos hi.le] at harmed
    cases harmed
  · exact h.deep i hi hpopped

/-- Where `finish` comes back: at a breakpoint of the user, or at the word above `rbp` unless there
is a location, which is disabled. -/
def Arrived (M : Cpu) (w : World) (s s' : Regs × Memory) : Prop :=
  M.armed w.isPatched s' = true ∨
    M.pc s'.1 = returnWord s ∧ mapLookup w.bpLocations (returnWord s) = none

/-- The first arrival is the end exactly where the word above `rbp` finds it. -/
theorem Framed.agrees_iff (h : Framed M stack s) (hf : (stack s).head? = some f) :
    M.Agrees (E.Goes s) (Arrived M w s) (Finished M w stack f s) s ↔
      Identifies M E w stack f s := by
  have harrived : ∀ s', M.armed w.isPatched s' = false → (Arrived M w s s' ↔
      M.pc s'.1 = returnWord s ∧ mapLookup w.bpLocations (returnWord s) = none) := fun s' hnot =>
    or_iff_right (by rw [hnot]; exact Bool.false_ne_true)
  constructor
  · intro hagrees
    have hiff : ∀ n, Underway M E w stack s n → ((M.pc (M.run n s).1 = returnWord s ∧
        mapLookup w.bpLocations (returnWord s) = none) ↔ Finished M w stack f s (M.run n s)) := by
      intro n hn
      rw [← harrived _ (hn.free n hn.pos le_rfl)]
      exact hagrees n hn.pos hn.goes fun i hpos hi => hn.not_finished hpos hi
    refine ⟨fun n hn hpopped => ?_, fun n hn hin hpc => ?_⟩
    · have hback := h.pops hf hn.deep hpopped
      obtain ⟨hpc, hnone⟩ := (hiff n hn).mpr (.inr ⟨hpopped, hback⟩)
      have hword := hpc.symm.trans hback
      exact ⟨hword, hword ▸ hnone⟩
    · by_contra hnone
      rw [Option.not_isSome_iff_eq_none] at hnone
      rcases (hiff n hn).mp ⟨hpc, hnone⟩ with hpatched | ⟨hpopped, -⟩
      · rw [hn.free n hn.pos le_rfl] at hpatched
        cases hpatched
      · exact hin hpopped
  · intro hidentifies n hpos hgoes hfree
    rcases hhere : M.armed w.isPatched (M.run n s) with - | -
    swap
    · exact iff_of_true (.inl hhere) (.inl hhere)
    have hn := h.underway hf hpos hgoes hfree hhere
    refine (harrived _ hhere).trans ?_
    by_cases hpopped : Popped stack s (M.run n s)
    · have hback := h.pops hf hn.deep hpopped
      obtain ⟨hword, hnone⟩ := hidentifies.returns n hn hpopped
      exact iff_of_true ⟨hback.trans hword.symm, hword.symm ▸ hnone⟩ (.inr ⟨hpopped, hback⟩)
    · refine iff_of_false (fun ⟨hpc, hnone⟩ => ?_) ?_
      · have hsome := hidentifies.deeper n hn hpopped hpc
        rw [hnone] at hsome
        cases hsome
      · rintro (hpatched | ⟨hpop, -⟩)
        · rw [hhere] at hpatched
          cases hpatched
        · exact hpopped hpop

variable (syms) in
/-- `finish` runs to the first arrival. -/
theorem Tracing.stepOut_reaches (hk : k.Runs M E) (hready : Ready w []) (h : Tracing M w s)
    (hpid : w.pid ≠ 0) (hframes : Framed M stack s) :
    Reaches M E syms w.dwfl (Arrived M w s) s (stepOut k syms w) := by
  obtain ⟨g, -, hsaved, hrbp, hword⟩ := hframes.pointed
  obtain ⟨hread, h₁⟩ := h.readReturnAddress hk.toSteps hsaved hrbp
  have hveiled := (Veiled.refl hready).quiet (readReturnAddress_quiet (k := k) w)
  obtain ⟨planted, w₁, hplant, h₂, hasked, hveiled₁⟩ :=
    h₁.plant hk.accessible hveiled hpid hsaved.ne_zero hsaved.starts
  have hpatched : ∀ a, w₁.isPatched a = true ↔
      w.isPatched a = true ∨ a = returnWord s ∧ mapLookup w.bpLocations (returnWord s) = none := by
    intro a
    rw [hasked.patched, Bool.or_eq_true, Bool.and_eq_true, decide_eq_true_eq, List.mem_singleton,
      Option.isNone_iff_eq_none, hword]
    exact or_congr Iff.rfl (and_congr_right fun ha => by rw [ha]; rfl)
  have hreaches := runPlanted_reaches syms hk hveiled₁ h₂
  have hsame : (fun s' => M.armed w₁.isPatched s' = true) = Arrived M w s :=
    funext fun s' => propext (hpatched (M.pc s'.1))
  rw [stepOut_eq (hread.symm ▸ hplant), hread, ← hsame, ← show w₁.dwfl = w.dwfl from hasked.dwfl]
  exact hreaches

/-- **finish.** For every program with frames and every stop of it, `step_out` comes back at the
first breakpoint of the user or where the activation has returned, unless the program ends before,
exactly where the word above `rbp` finds the end of the activation and the source line of the
place where `finish` is over can be shown. -/
theorem stepOut_finishes_iff (hk : k.Runs M E) (hready : Ready w []) (h : Tracing M w s)
    (hpid : w.pid ≠ 0) (hframes : Framed M stack s) (hf : (stack s).head? = some f) :
    Returns M E (Finished M w stack f s) s (stepOut k syms w) ↔
      Identifies M E w stack f s ∧ ShowsFirst M E syms w.dwfl (Finished M w stack f s) s :=
  (h.stepOut_reaches syms hk hready hpid hframes).returns_iff.trans
    (and_congr_left' (hframes.agrees_iff hf))

/-! ## Small programs -/

/-- A program whose instructions change `rip` and `rbp` alone: where execution goes from an address,
and what `rbp` is then. -/
structure Flow where
  text : List Addr
  next : BitVec 64 → Addr → Addr × BitVec 64
  memory : Memory
  closed : ∀ rbp pc, (next rbp pc).1 ∈ text
  no_trap : ∀ a ∈ text, memory a ≠ 0xcc

namespace Flow

variable (p : Flow) {rip rbp : BitVec 64}

def exec (s : Regs × Memory) : Regs × Memory :=
  let next := p.next (s.1 .rbp) (s.1 .rip)
  (Function.update (Function.update s.1 .rbp next.2) .rip next.1, s.2)

theorem exec_rip (s : Regs × Memory) :
    (p.exec s).1 .rip = (p.next (s.1 .rbp) (s.1 .rip)).1 := by simp [exec]

def cpu : Cpu where
  pc regs := regs .rip
  trap := 0xcc
  text a := a ∈ p.text
  code := p.memory
  starts a := a ∈ p.text
  starts_text _ h := h
  no_trap := p.no_trap
  exec := p.exec
  loaded_exec s h := ⟨h.code, by
    show (p.exec s).1 .rip ∈ p.text
    rw [exec_rip]
    exact p.closed _ _⟩
  exec_other s m' _ _ := ⟨rfl, fun a => ⟨id, fun _ => rfl⟩⟩

theorem runs : (Kernel.executing p.cpu).Runs p.cpu (.never p.cpu) :=
  (Kernel.executing_executes (fun _ => rfl) rfl).runs

/-- The program at an address. -/
def state (rip rbp : BitVec 64) : Regs × Memory :=
  (fun r => if r = .rip then rip else if r = .rbp then rbp else 0, p.memory)

/-- A stop there, without breakpoints. -/
def stopped (dwfl : Dwfl) (rip rbp : BitVec 64) : World :=
  .stoppedAt (p.state rip rbp).1 p.memory dwfl

theorem loaded (h : rip ∈ p.text) : p.cpu.Loaded (p.state rip rbp) := ⟨fun _ _ => rfl, h⟩

theorem tracing (dwfl : Dwfl) (h : rip ∈ p.text) :
    Tracing p.cpu (p.stopped dwfl rip rbp) (p.state rip rbp) :=
  World.stoppedAt_tracing dwfl (p.loaded h)

theorem ready (dwfl : Dwfl) : Ready (p.stopped dwfl rip rbp) [] := (World.stoppedAt_ready _ _ _).1

theorem not_armed (dwfl : Dwfl) (s : Regs × Memory) :
    ¬p.cpu.armed (p.stopped dwfl rip rbp).isPatched s = true := by
  rw [Traps.Machine.armed, stopped, World.stoppedAt_isPatched]
  exact Bool.false_ne_true

theorem saved {f : Frame} (hword : readWord p.memory (f.base + 8) = f.ret)
    (hdata : ∀ i < 8, f.base + 8 + BitVec.ofNat 64 i ∉ p.text) (hstarts : f.ret ∈ p.text)
    (hzero : f.ret ≠ 0) : f.Saved p.cpu (p.state rip rbp) := ⟨hword, hdata, hstarts, hzero⟩

end Flow

/-- Modules everywhere, and no lines. -/
def bareDwfl : Dwfl := { Dwfl.empty with addrmodule := fun _ => true }

theorem bareDwfl_shows (syms : Symbols) (a : Addr) : Shows syms bareDwfl a :=
  fun _ => ⟨rfl, fun _ hsrc => (by cases hsrc)⟩

/-! ## A function in another -/

def nestedText : List Addr :=
  [0x401001, 0x401002, 0x401010, 0x401011, 0x401012, 0x401013, 0x401030]

def nestedNext (rbp : BitVec 64) (pc : Addr) : Addr × BitVec 64 :=
  if pc = 0x401010 then (0x401011, rbp)           -- push rbp
  else if pc = 0x401011 then (0x401012, 0x7000)   -- mov rbp, rsp
  else if pc = 0x401012 then (0x401013, 0x7020)   -- pop rbp
  else if pc = 0x401013 then (0x401001, rbp)      -- ret
  else if pc = 0x401001 then (0x401002, 0x7040)   -- pop rbp
  else if pc = 0x401002 then (0x401030, rbp)      -- ret
  else (0x401030, rbp)                            -- jmp

/-- A function at `0x401010` which another one has called. The stack is as both calls left it. -/
def nestedCalls : Flow where
  text := nestedText
  next := nestedNext
  memory := writeWord (writeWord (fun _ => 0x90) 0x7008 0x401001) 0x7028 0x401030
  closed rbp pc := by
    unfold nestedNext
    split_ifs <;> simp [nestedText]
  no_trap a ha := by
    simp only [nestedText, List.mem_cons, List.not_mem_nil, or_false] at ha
    rcases ha with rfl | rfl | rfl | rfl | rfl | rfl | rfl <;> decide

/-- The frames of both functions. -/
def nestedStack (s : Regs × Memory) : List Frame :=
  if s.1 .rip < 0x401010 then [⟨0x401030, 0x7020⟩]
  else if s.1 .rip < 0x401030 then [⟨0x401001, 0x7000⟩, ⟨0x401030, 0x7020⟩]
  else []

theorem nestedCalls_moves (s : Regs × Memory) (h : nestedCalls.cpu.Loaded s) :
    Moves nestedStack (fun f s' => nestedCalls.cpu.pc s'.1 = f.ret) s (nestedCalls.exec s) := by
  have hpc : s.1 .rip ∈ nestedText := h.starts
  have hnext : (nestedCalls.exec s).1 .rip = (nestedNext (s.1 .rbp) (s.1 .rip)).1 :=
    nestedCalls.exec_rip s
  simp only [nestedText, List.mem_cons, List.not_mem_nil, or_false] at hpc
  rcases hpc with hpc | hpc | hpc | hpc | hpc | hpc | hpc <;> rw [hpc] at hnext
  · exact .stays (by simp [nestedStack, hnext, hpc, nestedNext])
  · exact .ret ⟨0x401030, 0x7020⟩ (by simp [nestedStack, hnext, hpc, nestedNext]) hnext
  · exact .stays (by simp [nestedStack, hnext, hpc, nestedNext])
  · exact .stays (by simp [nestedStack, hnext, hpc, nestedNext])
  · exact .stays (by simp [nestedStack, hnext, hpc, nestedNext])
  · exact .ret ⟨0x401001, 0x7000⟩ (by simp [nestedStack, hnext, hpc, nestedNext]) hnext
  · exact .stays (by simp [nestedStack, hnext, hpc, nestedNext])

section Nested

variable {rip rbp : BitVec 64}

/-- A stop in the inner function. -/
theorem nestedCalls_framed (hstack : nestedStack (nestedCalls.state rip rbp) =
      [⟨0x401001, 0x7000⟩, ⟨0x401030, 0x7020⟩]) (hrbp : rbp = 0x7000 ∨ rbp = 0x7020)
    (htext : rip ∈ nestedText) : Framed nestedCalls.cpu nestedStack (nestedCalls.state rip rbp) := by
  refine ⟨nested_of_moves (nestedCalls.loaded htext) nestedCalls_moves, fun f hf => ?_, ?_⟩
  · rw [hstack] at hf
    simp only [List.mem_cons, List.not_mem_nil, or_false] at hf
    rcases hf with rfl | rfl
    · exact nestedCalls.saved (by decide +kernel) (by decide +kernel) (by decide) (by decide)
    · exact nestedCalls.saved (by decide +kernel) (by decide +kernel) (by decide) (by decide)
  · rw [hstack]
    rcases hrbp with rfl | rfl
    · exact ⟨_, List.mem_cons_self, rfl⟩
    · exact ⟨_, List.mem_cons_of_mem _ List.mem_cons_self, rfl⟩

/-- Without locations `finish` comes back at the word above `rbp`. -/
theorem nestedCalls_arrived {s s' : Regs × Memory} :
    Arrived nestedCalls.cpu (nestedCalls.stopped bareDwfl rip rbp) s s' ↔
      s'.1 .rip = returnWord s :=
  (or_iff_right (nestedCalls.not_armed bareDwfl s')).trans
    (and_iff_left (World.stoppedAt_unregistered _ _ _ _))

end Nested

/-- Behind the prologue of the inner function `finish` finds its end. -/
theorem stepOut_finishes_iff_prologue :
    Returns nestedCalls.cpu (.never _) (Finished nestedCalls.cpu
        (nestedCalls.stopped bareDwfl 0x401012 0x7000) nestedStack ⟨0x401001, 0x7000⟩
        (nestedCalls.state 0x401012 0x7000)) (nestedCalls.state 0x401012 0x7000)
      (stepOut (.executing nestedCalls.cpu) .withLines
        (nestedCalls.stopped bareDwfl 0x401012 0x7000)) := by
  refine (stepOut_finishes_iff nestedCalls.runs (nestedCalls.ready _)
    (nestedCalls.tracing _ (by decide)) (by decide : (1 : Pid) ≠ 0)
    (nestedCalls_framed rfl (.inl rfl) (by decide)) rfl).mpr
    ⟨⟨fun n hn hpopped => ?_, fun n hn hin hpc => ?_⟩, fun _ _ _ => bareDwfl_shows _ _⟩
  · exact ⟨by decide +kernel, World.stoppedAt_unregistered _ _ _ _⟩
  · -- the activation is popped by the second instruction
    have hpop : Popped nestedStack (nestedCalls.state 0x401012 0x7000)
      (nestedCalls.cpu.run 2 (nestedCalls.state 0x401012 0x7000)) := by decide +kernel
    have hlast : n ≤ 2 := by
      by_contra hlt
      exact hn.deep 2 (by omega) hpop
    have hpos := hn.pos
    interval_cases n
    · exact absurd hpc (by decide +kernel)
    · exact absurd hpop hin

/-- At the entry of the inner function `rbp` is still the one of its caller: `finish` runs past the
caller, and comes back where that has returned. -/
theorem finish_skips_caller :
    Framed nestedCalls.cpu nestedStack (nestedCalls.state 0x401010 0x7020) ∧
    (nestedStack (nestedCalls.state 0x401010 0x7020)).head? = some ⟨0x401001, 0x7000⟩ ∧
    Tracing nestedCalls.cpu (nestedCalls.stopped bareDwfl 0x401010 0x7020)
      (nestedCalls.state 0x401010 0x7020) ∧
    (∃ w', stepOut (.executing nestedCalls.cpu) .withLines
        (nestedCalls.stopped bareDwfl 0x401010 0x7020) = .ok w' ∧
      w'.tracee.regs .rip = 0x401030) ∧
    ¬Returns nestedCalls.cpu (.never _) (Finished nestedCalls.cpu
        (nestedCalls.stopped bareDwfl 0x401010 0x7020) nestedStack ⟨0x401001, 0x7000⟩
        (nestedCalls.state 0x401010 0x7020)) (nestedCalls.state 0x401010 0x7020)
      (stepOut (.executing nestedCalls.cpu) .withLines
        (nestedCalls.stopped bareDwfl 0x401010 0x7020)) := by
  set w := nestedCalls.stopped bareDwfl 0x401010 0x7020 with hw
  set s := nestedCalls.state 0x401010 0x7020 with hs
  have hframes : Framed nestedCalls.cpu nestedStack s :=
    nestedCalls_framed rfl (.inr rfl) (by decide)
  have htracing : Tracing nestedCalls.cpu w s := nestedCalls.tracing _ (by decide)
  have hreturns : Returns nestedCalls.cpu (.never _) (Arrived nestedCalls.cpu w s) s
      (stepOut (.executing nestedCalls.cpu) .withLines w) :=
    (htracing.stepOut_reaches .withLines nestedCalls.runs (nestedCalls.ready _)
      (by decide : (1 : Pid) ≠ 0) hframes).returns fun _ _ _ => bareDwfl_shows _ _
  refine ⟨hframes, rfl, htracing, ?_, fun hG => ?_⟩
  · have hfirst : nestedCalls.cpu.First (Arrived nestedCalls.cpu w s) s 6 := by
      refine ⟨by decide, nestedCalls_arrived.mpr (by decide +kernel), fun i hpos hi harrived => ?_⟩
      have hpc := nestedCalls_arrived.mp harrived
      revert hpc
      interval_cases i <;> decide +kernel
    obtain ⟨w', hok, ht⟩ := hreturns.arrives 6 hfirst fun _ _ => rfl
    exact ⟨w', hok, by rw [ht.regs]; decide +kernel⟩
  · -- the caller goes on at the fourth instruction
    have hbefore : ∀ j, 0 < j → j < 4 → ¬Finished nestedCalls.cpu w nestedStack
        ⟨0x401001, 0x7000⟩ s (nestedCalls.cpu.run j s) := by
      rintro j hpos hj (harmed | ⟨hpopped, -⟩)
      · exact nestedCalls.not_armed _ _ harmed
      · revert hpopped
        interval_cases j <;> decide +kernel
    have hagrees := hreturns.iff_agrees.mp hG 4 (by decide) (fun _ _ => rfl) hbefore
    have harrived := hagrees.mpr (.inr ⟨by decide +kernel, by decide +kernel⟩)
    exact absurd (nestedCalls_arrived.mp harrived) (by decide +kernel)

end Vdbg
