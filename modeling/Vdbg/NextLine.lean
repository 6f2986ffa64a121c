import Vdbg.Frames

/-!
# Where next comes back

`next` plants a location on every change of the line ahead of the pc (`mem_nextLines`) and at the
word above `rbp`, but for the addresses that have a location which is not armed, and continues. None
of them knows a frame, and none is behind the pc. It comes back where it should exactly where the
activation arrives at its next line or returns on one of them, nothing arrives at them before, and
libdwfl answers there (`stepOver_lands_iff`).
-/

namespace Vdbg

open FaultRun Words Calls

variable {k : Kernel} {syms : Symbols} {M : Cpu} {E : Ends M} {s : Regs × Memory} {w w' w₁ : World}
  {ts as : List Addr} {a pc : Addr} {n : ℕ} {stack : Regs × Memory → List Frame} {f : Frame}
  {die : FuncDie} {name : String}

/-! ## Where the line changes -/

/-- The end of a function, as `step_over` computes it. -/
def World.funcEnd (w : World) (die : FuncDie) : Addr :=
  die.highpc.getD (w.dwfl.junkRange 0).2 + w.loadAddress

section Changes

variable {dwfl : Dwfl} {l : ℕ}

/-- The lines from an address on that is on line `l`. One without a line is on that of the address
before. -/
def linesFrom (dwfl : Dwfl) (pc : Addr) (l : ℕ) : ℕ → ℕ
  | 0 => l
  | j + 1 =>
    ((dwfl.getsrc (pc + BitVec.ofNat 64 (j + 1))).map SrcLine.line).getD (linesFrom dwfl pc l j)

/-- The line of an address ahead of the pc. -/
def World.lineFrom (w : World) (pc a : Addr) : ℕ :=
  linesFrom w.dwfl pc (w.lineAt pc) (a - pc).toNat

/-- An address that has a line is on it. -/
theorem World.lineFrom_eq (h : (w.dwfl.getsrc a).isSome) : w.lineFrom pc a = w.lineAt a := by
  unfold World.lineFrom
  obtain ⟨src, hsrc⟩ := Option.isSome_iff_exists.mp h
  rcases hj : (a - pc).toNat with - | j
  · rw [linesFrom, show a = pc by bv_omega]
  · rw [linesFrom, ← hj, add_distance, hsrc]
    unfold World.lineAt
    rw [hsrc]
    rfl

theorem ofNat_succ_add (pc : Addr) (j : ℕ) :
    pc + 1 + BitVec.ofNat 64 j = pc + BitVec.ofNat 64 (j + 1) := by
  rw [BitVec.add_assoc, show (1 : Addr) = BitVec.ofNat 64 1 from rfl, BitVec.ofNat_add_ofNat,
    Nat.add_comm]

theorem linesFrom_succ (j : ℕ) :
    linesFrom dwfl (pc + 1) (linesFrom dwfl pc l 1) j = linesFrom dwfl pc l (j + 1) := by
  induction j with
  | zero => rfl
  | succ j ih => rw [linesFrom, ofNat_succ_add, ih, ← linesFrom]

/-- Behind an address on line `l`, the loop asks where an address is on another line than the one
before. -/
theorem lineChanges_eq (dwfl : Dwfl) (n : ℕ) (pc : Addr) (l : ℕ) :
    lineChanges dwfl n (pc + 1) l l = ((List.range n).filter fun j =>
      linesFrom dwfl pc l (j + 1) ≠ linesFrom dwfl pc l j).map fun j =>
        pc + BitVec.ofNat 64 (j + 1) := by
  induction n generalizing pc l with
  | zero => rfl
  | succ n ih =>
    have hrest := ih (pc + 1) (linesFrom dwfl pc l 1)
    simp only [linesFrom_succ, ofNat_succ_add] at hrest
    have hstep : lineChanges dwfl (n + 1) (pc + 1) l l =
        if linesFrom dwfl pc l 1 ≠ l then
          (pc + 1) ::
            lineChanges dwfl n (pc + 1 + 1) (linesFrom dwfl pc l 1) (linesFrom dwfl pc l 1)
        else lineChanges dwfl n (pc + 1 + 1) l (linesFrom dwfl pc l 1) := rfl
    rw [hstep, List.range_succ_eq_map, List.filter_cons, List.filter_map]
    by_cases hline : linesFrom dwfl pc l 1 = l
    · have hsame : lineChanges dwfl n (pc + 1 + 1) l (linesFrom dwfl pc l 1) =
          lineChanges dwfl n (pc + 1 + 1) (linesFrom dwfl pc l 1) (linesFrom dwfl pc l 1) := by
        rw [hline]
      rw [if_neg (not_not.mpr hline), hsame, hrest, if_neg (by simpa [linesFrom] using hline),
        List.map_map]
      rfl
    · rw [if_pos hline, hrest, if_pos (by simpa [linesFrom] using hline), List.map_cons,
        List.map_map]
      rfl

theorem nextLines_eq (hinside : pc < w.funcEnd die) :
    nextLines w die pc = ((List.range ((w.funcEnd die - pc).toNat - 1)).filter fun j =>
      linesFrom w.dwfl pc (w.lineAt pc) (j + 1) ≠ linesFrom w.dwfl pc (w.lineAt pc) j).map fun j =>
        pc + BitVec.ofNat 64 (j + 1) := by
  have hlines : nextLines w die pc =
      lineChanges w.dwfl (w.funcEnd die - pc).toNat pc (w.lineAt pc) 0 := by
    unfold nextLines
    dsimp only
    rw [if_pos (show pc < die.highpc.getD (w.dwfl.junkRange 0).2 + w.loadAddress from hinside)]
    rfl
  obtain ⟨n, hn⟩ : ∃ n, (w.funcEnd die - pc).toNat = n + 1 :=
    Nat.exists_eq_succ_of_ne_zero (by bv_omega)
  -- at the pc itself the loop is on the line it starts with
  have hpc : ((w.dwfl.getsrc pc).map SrcLine.line).getD 0 = w.lineAt pc := rfl
  rw [hlines, hn, Nat.add_sub_cancel, ← lineChanges_eq, lineChanges, hpc, if_neg (not_not.mpr rfl)]

/-- `next` asks for a location where an address ahead is on another line than the one before it. -/
theorem mem_nextLines_iff (hinside : pc < w.funcEnd die) :
    a ∈ nextLines w die pc ↔
      pc < a ∧ a < w.funcEnd die ∧ w.lineFrom pc a ≠ w.lineFrom pc (a - 1) := by
  rw [nextLines_eq hinside, List.mem_map]
  unfold World.lineFrom
  constructor
  · rintro ⟨j, hj, rfl⟩
    obtain ⟨hj, hne⟩ := List.mem_filter.mp hj
    rw [List.mem_range] at hj
    have hthis : (pc + BitVec.ofNat 64 (j + 1) - pc).toNat = j + 1 := by bv_omega
    have hbefore : (pc + BitVec.ofNat 64 (j + 1) - 1 - pc).toNat = j := by bv_omega
    rw [hthis, hbefore]
    exact ⟨by bv_omega, by bv_omega, of_decide_eq_true hne⟩
  · rintro ⟨hpc, hend, hne⟩
    have hthis : (a - pc).toNat = (a - 1 - pc).toNat + 1 := by bv_omega
    rw [hthis] at hne
    refine ⟨(a - 1 - pc).toNat, List.mem_filter.mpr ⟨?_, decide_eq_true hne⟩, ?_⟩
    · rw [List.mem_range]
      bv_omega
    · rw [← hthis, add_distance]

theorem nextLines_nodup (hinside : pc < w.funcEnd die) : (nextLines w die pc).Nodup := by
  rw [nextLines_eq hinside]
  refine List.Nodup.map_on (fun i hi j hj hij => ?_) (List.nodup_range.filter _)
  have hi' := List.mem_range.mp (List.mem_of_mem_filter hi)
  have hj' := List.mem_range.mp (List.mem_of_mem_filter hj)
  bv_omega

/-- An address ahead in the function where the line changes. -/
def Ahead (w : World) (die : FuncDie) (pc a : Addr) : Prop :=
  pc < a ∧ a < w.funcEnd die ∧ w.lineAt a ≠ w.lineAt (a - 1)

theorem mem_nextLines (hinside : pc < w.funcEnd die)
    (hlines : ∀ a, pc ≤ a → a < w.funcEnd die → (w.dwfl.getsrc a).isSome) :
    a ∈ nextLines w die pc ↔ Ahead w die pc a := by
  rw [mem_nextLines_iff hinside]
  refine and_congr_right fun hpc => and_congr_right fun hend => ?_
  have hbefore : pc ≤ a - 1 ∧ a - 1 < w.funcEnd die := by bv_omega
  rw [World.lineFrom_eq (hlines a (BitVec.le_of_lt hpc) hend),
    World.lineFrom_eq (hlines (a - 1) hbefore.1 hbefore.2)]

end Changes

/-! ## What next plants -/

/-- There is room for one address more. -/
def ToDelete.Room (d : ToDelete) : Prop := d.addrs.length + 1 < d.cap

/-- The buffer the loop begins with. -/
theorem ToDelete.room_start : ToDelete.Room ⟨100, []⟩ := (by decide : 0 + 1 < 100)

theorem ToDelete.Room.lt_cap {d : ToDelete} (h : d.Room) : d.addrs.length < d.cap :=
  lt_trans (Nat.lt_succ_self _) h

theorem ToDelete.Room.store {d : ToDelete} (h : d.Room) (w : World) (a : Addr) :
    d.store w a = .ok ⟨d.cap, d.addrs ++ [a]⟩ := if_pos h.lt_cap

theorem ToDelete.store_grows {d : ToDelete} (h : d.Room) (w : World) (a : Addr) :
    ∃ d', ToDelete.grow <$> d.store w a = .ok d' ∧ d'.Room ∧ d'.addrs = d.addrs ++ [a] := by
  refine ⟨ToDelete.grow ⟨d.cap, d.addrs ++ [a]⟩, ?_, ?_, ToDelete.grow_addrs _⟩
  · rw [h.store]
    rfl
  · unfold ToDelete.Room at h ⊢
    rw [ToDelete.grow_addrs]
    unfold ToDelete.grow
    simp only [List.length_append, List.length_singleton]
    split_ifs
    · dsimp only
      omega
    · dsimp only
      omega

/-- One location is asked for, with the tracee where it is. -/
theorem Tracing.plantAt {d : ToDelete} (hk : k.Accessible) (h : Tracing M w₁ s)
    (hveiled : Veiled w w₁ d.addrs) (hpid : w₁.pid ≠ 0) (hroom : d.Room) (ha : a ≠ 0)
    (hstart : M.starts a) :
    ∃ d' w', Vdbg.plantAt k (d, w₁) a = .ok (d', w') ∧ Tracing M w' s ∧ Asked w₁ w' [a] ∧
      Veiled w w' d'.addrs ∧ d'.Room := by
  obtain ⟨planted, w', hset, ht, hasked, hveiled'⟩ := h.plant hk hveiled hpid ha hstart
  unfold Vdbg.plantAt
  dsimp only
  rw [hset, ok_bind]
  dsimp only
  cases planted with
  | true =>
    obtain ⟨d', hd', hroom', haddrs⟩ := ToDelete.store_grows hroom w' a
    rw [if_pos rfl, hd']
    exact ⟨d', w', rfl, ht, hasked, haddrs ▸ hveiled', hroom'⟩
  | false => exact ⟨d, w', rfl, ht, hasked, hveiled', hroom⟩

/-- Locations on instructions are asked for, with the tracee where it is. -/
theorem Tracing.plantAll {d : ToDelete} (hk : k.Accessible) (h : Tracing M w₁ s)
    (hveiled : Veiled w w₁ d.addrs) (hpid : w₁.pid ≠ 0) (hroom : d.Room)
    (hstarts : ∀ a ∈ as, a ≠ 0 ∧ M.starts a) :
    ∃ d' w', as.foldlM (Vdbg.plantAt k) (d, w₁) = .ok (d', w') ∧ Tracing M w' s ∧ Asked w₁ w' as ∧
      Veiled w w' d'.addrs ∧ d'.Room := by
  induction as generalizing d w₁ with
  | nil => exact ⟨d, w₁, rfl, h, .refl w₁, hveiled, hroom⟩
  | cons a as ih =>
    obtain ⟨ha, hstart⟩ := hstarts a List.mem_cons_self
    obtain ⟨d₁, w₂, hone, h₁, hasked, hveiled₁, hroom₁⟩ :=
      h.plantAt hk hveiled hpid hroom ha hstart
    obtain ⟨d', w', hall, h', hasked', hveiled', hroom'⟩ :=
      ih h₁ hveiled₁ (hasked.pid ▸ hpid) hroom₁ fun b hb => hstarts b (List.mem_cons_of_mem a hb)
    exact ⟨d', w', foldlM_cons_eq_ok.mpr ⟨(d₁, w₂), hone, hall⟩, h', hasked.trans hasked', hveiled',
      hroom'⟩

/-- The function `next` is issued in: it is not `main`, libdwfl finds it at the pc and a line at
each of its addresses, and where the line changes there is an instruction. -/
structure InFunction (M : Cpu) (w : World) (die : FuncDie) (name : String) (pc : Addr) : Prop where
  found : getFuncDieFromPc w pc w.loadAddress = .ok (some die)
  named : die.name = some name
  not_main : name ≠ "main"
  inside : pc < w.funcEnd die
  lines : ∀ a, pc ≤ a → a < w.funcEnd die → ∃ src, w.dwfl.getsrc a = some src ∧ src.line ≠ 0
  answers : ∀ a, pc ≤ a → a < w.funcEnd die → w.dwfl.Answers a
  starts : ∀ a, Ahead w die pc a → M.starts a

/-- What `plantTempLocations` does at a pc with a line. -/
theorem plantTempLocations_eq {src : SrcLine} (hmodule : w.dwfl.addrmodule pc = true)
    (hsrc : w.dwfl.getsrc pc = some src) (hline : src.line ≠ 0) :
    plantTempLocations k w die name pc = (do
      let (d, w) ← (nextLines w die pc).foldlM (plantAt k) (⟨100, []⟩, w)
      if name = "main" then return (d, w)
      let (planted, w') ← setTempBpLocation k (readReturnAddress k w).2 (readReturnAddress k w).1
      if planted then return (← d.store w' (readReturnAddress k w).1, w') else return (d, w')) := by
  have hloop : ∀ turns, plantLoop k turns pc src.line 0 ⟨100, []⟩ w =
      (lineChanges w.dwfl turns pc (((w.dwfl.getsrc pc).map SrcLine.line).getD 0) 0).foldlM
        (plantAt k) (⟨100, []⟩, w) := by
    intro turns
    rw [plantLoop_eq, hsrc]
    rfl
  unfold plantTempLocations
  dsimp only
  rw [hmodule, hsrc]
  dsimp only
  rw [if_neg hline, if_neg (by decide : ¬(!true) = true), hloop]
  rfl

/-- `next` plants a location at each change of the line ahead and at the return address. -/
theorem Tracing.plantTempLocations (hk : k.Steps M E) (hready : Ready w []) (h : Tracing M w s)
    (hpid : w.pid ≠ 0) (hin : InFunction M w die name (M.pc s.1)) (hsaved : f.Saved M s)
    (hrbp : s.1 .rbp = f.base) :
    ∃ d w', Vdbg.plantTempLocations k w die name (M.pc s.1) = .ok (d, w') ∧ Tracing M w' s ∧
      Asked w w' (nextLines w die (M.pc s.1) ++ [f.ret]) ∧ Veiled w w' d.addrs := by
  obtain ⟨src, hsrc, hline⟩ := hin.lines _ (BitVec.le_refl _) hin.inside
  have hmem : ∀ a, a ∈ nextLines w die (M.pc s.1) ↔ Ahead w die (M.pc s.1) a := fun a =>
    mem_nextLines hin.inside fun b hb hlt => by
      obtain ⟨src, hsrc, -⟩ := hin.lines b hb hlt
      rw [hsrc]
      rfl
  have hstarts : ∀ a ∈ nextLines w die (M.pc s.1), a ≠ 0 ∧ M.starts a := by
    intro a ha
    have hahead := (hmem a).mp ha
    refine ⟨?_, hin.starts a hahead⟩
    rintro rfl
    exact absurd hahead.1 (by bv_omega)
  obtain ⟨d₁, w₁, hplanted, h₁, hasked₁, hveiled₁, hroom⟩ :=
    h.plantAll hk.accessible (.refl hready) hpid ToDelete.room_start hstarts
  obtain ⟨hread, h₂⟩ := h₁.readReturnAddress hk hsaved hrbp
  obtain ⟨planted, w', hset, h₃, hasked, hveiled⟩ := h₂.plant hk.accessible
    (hveiled₁.quiet (readReturnAddress_quiet (k := k) w₁)) (hasked₁.pid ▸ hpid) hsaved.ne_zero
    hsaved.starts
  have hret : Asked w₁ w' [f.ret] :=
    ⟨hasked.pid, hasked.dwfl, hasked.patched, hasked.registered⟩
  rw [plantTempLocations_eq (hin.answers _ (BitVec.le_refl _) hin.inside).module hsrc hline,
    hplanted, ok_bind]
  dsimp only
  rw [if_neg hin.not_main, hread, hset, ok_bind]
  dsimp only
  cases planted with
  | true =>
    refine ⟨⟨d₁.cap, d₁.addrs ++ [f.ret]⟩, w', ?_, h₃, ?_, hveiled⟩
    · rw [if_pos rfl, hroom.store]
      rfl
    · exact hasked₁.trans hret
  | false => exact ⟨d₁, w', rfl, h₃, hasked₁.trans hret, hveiled⟩

/-! ## Where next should come back -/

/-- The file and the line of an address. -/
def World.sourceLine (w : World) (a : Addr) : Option (Option String × ℕ) :=
  (w.dwfl.getsrc a).map fun src => (src.file, src.line)

/-- `next` is over: on another line in the same activation, or where that has returned. -/
def OnNextLine (M : Cpu) (w : World) (stack : Regs × Memory → List Frame) (f : Frame)
    (s s' : Regs × Memory) : Prop :=
  (stack s' = stack s ∧ w.sourceLine (M.pc s'.1) ≠ w.sourceLine (M.pc s.1)) ∨
    Popped stack s s' ∧ M.pc s'.1 = f.ret

/-- Where `next` comes back: at a change of the line ahead or at the word above `rbp`, unless there
is a location, which is not armed. -/
def AtChange (M : Cpu) (w : World) (die : FuncDie) (s s' : Regs × Memory) : Prop :=
  (Ahead w die (M.pc s.1) (M.pc s'.1) ∨ M.pc s'.1 = returnWord s) ∧
    mapLookup w.bpLocations (M.pc s'.1) = none

/-- After so many instructions the program still runs, and `next` was not over before. -/
structure Pending (M : Cpu) (E : Ends M) (w : World) (stack : Regs × Memory → List Frame)
    (f : Frame) (s : Regs × Memory) (n : ℕ) : Prop where
  pos : 0 < n
  goes : E.Goes s n
  free : ∀ i, 0 < i → i < n → ¬OnNextLine M w stack f s (M.run i s)

/-- Where the activation is popped while `next` is not over, it has returned. -/
theorem Pending.pops (hn : Pending M E w stack f s n) (h : Framed M stack s)
    (hf : (stack s).head? = some f) (hpopped : Popped stack s (M.run n s)) :
    M.pc (M.run n s).1 = f.ret :=
  h.pops hf (h.deep hf fun i hpos hi hback => hn.free i hpos hi (.inr hback)) hpopped

/-- The locations of `next` find the next line of the activation, or where it returns: it arrives
there at one of them, and nothing arrives at them before. -/
structure Finds (M : Cpu) (E : Ends M) (w : World) (stack : Regs × Memory → List Frame)
    (die : FuncDie) (f : Frame) (s : Regs × Memory) : Prop where
  lands : ∀ n, Pending M E w stack f s n → stack (M.run n s) = stack s →
    w.sourceLine (M.pc (M.run n s).1) ≠ w.sourceLine (M.pc s.1) → AtChange M w die s (M.run n s)
  returns : ∀ n, Pending M E w stack f s n → Popped stack s (M.run n s) →
    (Ahead w die (M.pc s.1) f.ret ∨ f.ret = returnWord s) ∧ mapLookup w.bpLocations f.ret = none
  passes : ∀ n, Pending M E w stack f s n → ¬OnNextLine M w stack f s (M.run n s) →
    ¬AtChange M w die s (M.run n s)

theorem Framed.finds_iff (h : Framed M stack s) (hf : (stack s).head? = some f) :
    M.Agrees (E.Goes s) (AtChange M w die s) (OnNextLine M w stack f s) s ↔
      Finds M E w stack die f s := by
  constructor
  · intro hagrees
    have hiff : ∀ n, Pending M E w stack f s n →
        (AtChange M w die s (M.run n s) ↔ OnNextLine M w stack f s (M.run n s)) :=
      fun n hn => hagrees n hn.pos hn.goes hn.free
    refine ⟨fun n hn hsame hline => (hiff n hn).mpr (.inl ⟨hsame, hline⟩),
      fun n hn hpopped => ?_, fun n hn hnot hat => hnot ((hiff n hn).mp hat)⟩
    have hback := hn.pops h hf hpopped
    have hat := (hiff n hn).mpr (.inr ⟨hpopped, hback⟩)
    unfold AtChange at hat
    rwa [hback] at hat
  · intro hfinds n hpos hgoes hfree
    have hn : Pending M E w stack f s n := ⟨hpos, hgoes, hfree⟩
    constructor
    · intro hat
      by_contra hnot
      exact hfinds.passes n hn hnot hat
    · rintro (⟨hsame, hline⟩ | ⟨hpopped, hback⟩)
      · exact hfinds.lands n hn hsame hline
      · unfold AtChange
        rw [hback]
        exact hfinds.returns n hn hpopped

variable (syms) in
/-- `next` runs to the first of its locations. -/
theorem Tracing.stepOver_reaches (hk : k.Runs M E) (hready : Ready w []) (h : Tracing M w s)
    (hpid : w.pid ≠ 0) (hunarmed : ∀ a, w.isPatched a = false)
    (hin : InFunction M w die name (M.pc s.1)) (hframes : Framed M stack s) :
    Reaches M E syms w.dwfl (AtChange M w die s) s (Vdbg.stepOver k syms w) := by
  obtain ⟨g, -, hsaved, hrbp, hword⟩ := hframes.pointed
  obtain ⟨d, w₁, hplant, h₁, hasked, hveiled⟩ :=
    h.plantTempLocations hk.toSteps hready hpid hin hsaved hrbp
  have hpatched : ∀ a, w₁.isPatched a = true ↔
      (Ahead w die (M.pc s.1) a ∨ a = returnWord s) ∧ mapLookup w.bpLocations a = none := by
    intro a
    rw [hasked.patched, hunarmed, Bool.false_or, Bool.and_eq_true, decide_eq_true_eq,
      Option.isNone_iff_eq_none, List.mem_append, List.mem_singleton, hword]
    refine and_congr_left' (or_congr_left (mem_nextLines hin.inside fun b hb hlt => ?_))
    obtain ⟨src, hsrc, -⟩ := hin.lines b hb hlt
    rw [hsrc]
    rfl
  have hreaches := runPlanted_reaches syms hk hveiled h₁
  have hsame : (fun s' => M.armed w₁.isPatched s' = true) = AtChange M w die s :=
    funext fun s' => propext (hpatched (M.pc s'.1))
  have hpc := h.getPc_eq hk.toSteps
  rw [stepOver_eq (hpc.symm ▸ hin.found) hin.named (hpc.symm ▸ hplant), ← hsame,
    ← show w₁.dwfl = w.dwfl from hasked.dwfl]
  exact hreaches

/-- **next.** For every program with frames, every line table and every stop behind the prologue of
a function other than `main`, also at its `ret`, without an armed breakpoint of the user, `step_over`
comes back where the activation first arrives at another line or has returned, unless the program
ends before, exactly where its locations find that and the source line there can be shown. -/
theorem stepOver_lands_iff (hk : k.Runs M E) (hready : Ready w []) (h : Tracing M w s)
    (hpid : w.pid ≠ 0) (hunarmed : ∀ a, w.isPatched a = false)
    (hin : InFunction M w die name (M.pc s.1)) (hframes : Framed M stack s)
    (hf : (stack s).head? = some f) :
    Returns M E (OnNextLine M w stack f s) s (stepOver k syms w) ↔
      Finds M E w stack die f s ∧ ShowsFirst M E syms w.dwfl (OnNextLine M w stack f s) s :=
  (h.stepOver_reaches syms hk hready hpid hunarmed hin hframes).returns_iff.trans
    (and_congr_left' (hframes.finds_iff hf))

/-! ## A loop -/

def spinNext (rbp : BitVec 64) (pc : Addr) : Addr × BitVec 64 :=
  if pc = 0x401010 then (0x401011, rbp)           -- inc
  else if pc = 0x401011 then (0x401010, rbp)      -- jmp
  else (0x401001, rbp)                            -- jmp

/-- A function that loops for ever. Its caller would go on at `0x401001`. -/
def spin : Flow where
  text := [0x401001, 0x401010, 0x401011]
  next := spinNext
  memory := writeWord (fun _ => 0x90) 0x7008 0x401001
  closed rbp pc := by
    unfold spinNext
    split_ifs <;> simp
  no_trap a ha := by
    simp only [List.mem_cons, List.not_mem_nil, or_false] at ha
    rcases ha with rfl | rfl | rfl <;> decide

/-- The function is on line 4, and its jump on line 5. -/
def spinDwfl : Dwfl where
  addrmodule _ := true
  getsrc a := some ⟨some "spin.c", if a = 0x401010 then 4 else 5, none, false⟩
  addrdie _ := some ⟨none, [⟨some "spin", some 0x401010, some 0x401012⟩]⟩
  junkRange _ := (0, 0)

def spinDie : FuncDie := ⟨some "spin", some 0x401010, some 0x401012⟩

def spinStack : Regs × Memory → List Frame := fun _ => [⟨0x401001, 0x7000⟩]

section Spin

variable {rip : BitVec 64}

theorem spin_framed (h : rip ∈ spin.text) : Framed spin.cpu spinStack (spin.state rip 0x7000) := by
  refine ⟨nested_of_moves (spin.loaded h) fun s _ => .stays rfl, fun f hf => ?_,
    ⟨_, List.mem_cons_self, rfl⟩⟩
  obtain rfl := List.mem_singleton.mp hf
  exact spin.saved (by decide +kernel) (by decide +kernel) (by decide) (by decide)

theorem spin_answers (a : Addr) : spinDwfl.Answers a :=
  ⟨rfl, fun src hsrc => by cases hsrc; rfl⟩

theorem spin_inFunction (hrip : rip = 0x401010 ∨ rip = 0x401011) :
    InFunction spin.cpu (spin.stopped spinDwfl rip 0x7000) spinDie "spin"
      (spin.cpu.pc (spin.state rip 0x7000).1) where
  found := by rcases hrip with rfl | rfl <;> rfl
  named := rfl
  not_main := by decide
  inside := by rcases hrip with rfl | rfl <;> decide
  lines a _ _ := ⟨_, rfl, by
    dsimp only
    split_ifs <;> decide⟩
  answers a _ _ := spin_answers a
  starts a ha := by
    have hlow : rip < a := ha.1
    have hend : a < 0x401012 := ha.2.1
    have hjump : a = 0x401011 := by
      rcases hrip with rfl | rfl <;> bv_omega
    rw [hjump]
    exact (by decide : (0x401011 : Addr) ∈ spin.text)

/-- The loop is not left. -/
theorem spin_loops (hrip : rip = 0x401010 ∨ rip = 0x401011) (n : ℕ) :
    (spin.cpu.run n (spin.state rip 0x7000)).1 .rip = 0x401010 ∨
      (spin.cpu.run n (spin.state rip 0x7000)).1 .rip = 0x401011 := by
  induction n with
  | zero => exact hrip
  | succ n ih =>
    rw [Traps.Machine.run_succ']
    have hnext := spin.exec_rip (spin.cpu.run n (spin.state rip 0x7000))
    rcases ih with hpc | hpc <;> rw [hpc] at hnext
    · exact .inr hnext
    · exact .inl hnext

end Spin

/-- On line 4 the next line is ahead. -/
theorem stepOver_lands_iff_ahead :
    Returns spin.cpu (.never _) (OnNextLine spin.cpu (spin.stopped spinDwfl 0x401010 0x7000)
        spinStack ⟨0x401001, 0x7000⟩ (spin.state 0x401010 0x7000)) (spin.state 0x401010 0x7000)
      (stepOver (.executing spin.cpu) .withLines (spin.stopped spinDwfl 0x401010 0x7000)) := by
  have hnext : OnNextLine spin.cpu (spin.stopped spinDwfl 0x401010 0x7000) spinStack
      ⟨0x401001, 0x7000⟩ (spin.state 0x401010 0x7000)
      (spin.cpu.run 1 (spin.state 0x401010 0x7000)) := .inl ⟨rfl, by decide +kernel⟩
  have hone : ∀ n, Pending spin.cpu (.never _) (spin.stopped spinDwfl 0x401010 0x7000) spinStack
      ⟨0x401001, 0x7000⟩ (spin.state 0x401010 0x7000) n → n = 1 := by
    intro n hn
    by_contra hne
    have hpos := hn.pos
    exact hn.free 1 (by decide) (by omega) hnext
  refine (stepOver_lands_iff spin.runs (spin.ready _) (spin.tracing _ (by decide))
    (by decide : (1 : Pid) ≠ 0) (World.stoppedAt_isPatched _ _ _) (spin_inFunction (.inl rfl))
    (spin_framed (by decide)) rfl).mpr
    ⟨⟨fun n hn _ _ => ?_, fun n hn hpopped => ?_, fun n hn hnot => ?_⟩,
      fun _ _ _ _ => spin_answers _⟩
  · obtain rfl := hone n hn
    exact ⟨.inl ⟨by decide +kernel, by decide +kernel, by decide +kernel⟩,
      World.stoppedAt_unregistered _ _ _ _⟩
  · exact absurd hpopped (Nat.lt_irrefl _)
  · obtain rfl := hone n hn
    exact absurd hnext hnot

/-- On line 5 the next line is behind, where the loop begins again: `next` does not come back. -/
theorem next_misses_loop :
    InFunction spin.cpu (spin.stopped spinDwfl 0x401011 0x7000) spinDie "spin" 0x401011 ∧
    Framed spin.cpu spinStack (spin.state 0x401011 0x7000) ∧
    Tracing spin.cpu (spin.stopped spinDwfl 0x401011 0x7000) (spin.state 0x401011 0x7000) ∧
    (¬∃ w', stepOver (.executing spin.cpu) .withLines (spin.stopped spinDwfl 0x401011 0x7000) =
      .ok w' ∧ w'.state = .active) ∧
    ¬Returns spin.cpu (.never _) (OnNextLine spin.cpu (spin.stopped spinDwfl 0x401011 0x7000)
        spinStack ⟨0x401001, 0x7000⟩ (spin.state 0x401011 0x7000)) (spin.state 0x401011 0x7000)
      (stepOver (.executing spin.cpu) .withLines (spin.stopped spinDwfl 0x401011 0x7000)) := by
  set w := spin.stopped spinDwfl 0x401011 0x7000 with hw
  set s := spin.state 0x401011 0x7000 with hs
  have hframes : Framed spin.cpu spinStack s := spin_framed (by decide)
  have htracing : Tracing spin.cpu w s := spin.tracing _ (by decide)
  have hin : InFunction spin.cpu w spinDie "spin" 0x401011 := spin_inFunction (.inr rfl)
  have hreturns : Returns spin.cpu (.never _) (AtChange spin.cpu w spinDie s) s
      (stepOver (.executing spin.cpu) .withLines w) :=
    (htracing.stepOver_reaches .withLines spin.runs (spin.ready _) (by decide : (1 : Pid) ≠ 0)
      (World.stoppedAt_isPatched _ _ _) hin hframes).returns fun _ _ _ _ => spin_answers _
  have hword : returnWord s = 0x401001 := by decide +kernel
  have hnever : ∀ n, ¬AtChange spin.cpu w spinDie s (spin.cpu.run n s) := by
    intro n
    rcases spin_loops (.inr rfl) n with hpc | hpc
    · rintro ⟨⟨hlt, -⟩ | hret, -⟩
      · exact absurd (hlt.trans_eq hpc) (by decide)
      · exact absurd (hpc.symm.trans (hret.trans hword)) (by decide)
    · rintro ⟨⟨hlt, -⟩ | hret, -⟩
      · exact absurd (hlt.trans_eq hpc) (by decide)
      · exact absurd (hpc.symm.trans (hret.trans hword)) (by decide)
  refine ⟨hin, hframes, htracing, ?_, fun hG => ?_⟩
  · rintro ⟨w', hok, hact⟩
    obtain ⟨n, hfirst, -⟩ := hreturns.arrived w' hok hact
    exact hnever n hfirst.there
  · have hagrees := hreturns.iff_agrees.mp hG 1 (by decide) (fun _ _ => rfl)
      fun j hpos hj => absurd hj (by omega)
    exact hnever 1 (hagrees.mpr (.inl ⟨rfl, by decide +kernel⟩))

end Vdbg
