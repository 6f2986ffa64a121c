import Vdbg.Continue

/-!
# The enclosing function

`get_func_die_from_pc` takes the first DIE of the compilation unit whose range holds the pc. The
callback compares its two variables also where `dwarf_lowpc` or `dwarf_highpc` have not set them, so
that a DIE without a range may be taken for the function (`Unsure`).
-/

namespace Vdbg

open FaultRun

namespace FuncDie

variable (die : FuncDie) (addr : Addr)

/-- The DIE has a range, and the address is in it. -/
def holds : Bool :=
  match die.lowpc, die.highpc with
  | some low, some high => low ≤ addr && addr < high
  | _, _ => false

/-- A bound is missing, and with some value for it the range would have the address in it. -/
structure Unsure : Prop where
  missing : die.lowpc = none ∨ die.highpc = none
  low : ∀ low, die.lowpc = some low → low ≤ addr
  high : ∀ high, die.highpc = some high → addr < high
  room : die.highpc = none → addr < BitVec.allOnes 64

end FuncDie

section Callback

variable {die : FuncDie} {addr : Addr} {junk : BitVec 64 × BitVec 64}

theorem functionDieCallback_iff : functionDieCallback junk addr die = true ↔
    die.lowpc.getD junk.1 ≤ addr ∧ addr < die.highpc.getD junk.2 := by
  simp [functionDieCallback]

theorem FuncDie.holds_iff : die.holds addr = true ↔
    ∃ low high, die.lowpc = some low ∧ die.highpc = some high ∧ low ≤ addr ∧ addr < high := by
  unfold holds
  split
  · rename_i low high hlow hhigh
    simp [hlow, hhigh]
  · rename_i hnot
    refine iff_of_false Bool.false_ne_true ?_
    rintro ⟨low, high, hlow, hhigh, -⟩
    exact hnot low high hlow hhigh

/-- A DIE with a range is judged by it. -/
theorem functionDieCallback_of_holds (h : die.holds addr = true) :
    functionDieCallback junk addr die = true := by
  obtain ⟨low, high, hlow, hhigh, hle, hlt⟩ := FuncDie.holds_iff.mp h
  rw [functionDieCallback_iff, hlow, hhigh]
  exact ⟨hle, hlt⟩

theorem functionDieCallback_of_unsure (h : die.Unsure addr) :
    functionDieCallback (addr, BitVec.allOnes 64) addr die = true := by
  rw [functionDieCallback_iff]
  constructor
  · cases hlow : die.lowpc with
    | none => exact BitVec.le_refl addr
    | some low => exact h.low low hlow
  · cases hhigh : die.highpc with
    | none => exact h.room hhigh
    | some high => exact h.high high hhigh

theorem functionDieCallback_of_not (hholds : die.holds addr = false) (h : ¬die.Unsure addr) :
    functionDieCallback junk addr die = false := by
  by_contra hne
  obtain ⟨hlow, hhigh⟩ := functionDieCallback_iff.mp (eq_true_of_ne_false hne)
  refine h ⟨?_, fun low hsome => ?_, fun high hsome => ?_, fun hnone => ?_⟩
  · by_contra hboth
    rw [not_or] at hboth
    obtain ⟨low, hsome⟩ := Option.ne_none_iff_exists'.mp hboth.1
    obtain ⟨high, hsome'⟩ := Option.ne_none_iff_exists'.mp hboth.2
    rw [hsome] at hlow
    rw [hsome'] at hhigh
    rw [FuncDie.holds_iff.mpr ⟨low, high, hsome, hsome', hlow, hhigh⟩] at hholds
    cases hholds
  · rw [hsome] at hlow
    exact hlow
  · rw [hsome] at hhigh
    exact hhigh
  · rw [hnone, Option.getD_none, BitVec.lt_def] at hhigh
    have hmax := junk.2.isLt
    rw [BitVec.lt_def, BitVec.toNat_allOnes]
    omega

end Callback

/-- The DIE found is the first whose range holds the address, whatever the variables held before,
exactly when no DIE before it is unsure. -/
theorem getfuncs_eq_find_iff {addr : Addr} {i : ℕ} {dies : List FuncDie} :
    (∀ junk, getfuncs junk addr i dies = dies.find? (·.holds addr)) ↔
      ∀ die ∈ dies.takeWhile (!·.holds addr), ¬die.Unsure addr := by
  induction dies generalizing i with
  | nil => exact iff_of_true (fun _ => rfl) (by simp)
  | cons die dies ih =>
    cases hholds : die.holds addr with
    | true =>
      rw [List.find?_cons_of_pos (p := fun d : FuncDie => d.holds addr) hholds,
        List.takeWhile_cons_of_neg (by simp [hholds])]
      refine iff_of_true (fun junk => ?_) (by simp)
      rw [getfuncs, functionDieCallback_of_holds hholds]
      rfl
    | false =>
      rw [List.find?_cons_of_neg (p := fun d : FuncDie => d.holds addr) (by simp [hholds]),
        List.takeWhile_cons_of_pos (by simp [hholds]), List.forall_mem_cons]
      by_cases hunsure : die.Unsure addr
      · refine iff_of_false (fun hall => ?_) fun h => h.1 hunsure
        have hfirst := hall fun _ => (addr, BitVec.allOnes 64)
        rw [getfuncs, functionDieCallback_of_unsure hunsure, if_pos rfl] at hfirst
        have hfound := List.find?_some hfirst.symm
        rw [hholds] at hfound
        cases hfound
      · rw [and_iff_right hunsure, ← ih (i := i + 1)]
        refine forall_congr' fun junk => ?_
        rw [getfuncs, functionDieCallback_of_not hholds hunsure]
        rfl

section Enclosing

variable {w : World} {pc load : Addr}

/-- The values that two variables on the stack hold before each use. -/
def World.withJunk (w : World) (junk : ℕ → BitVec 64 × BitVec 64) : World :=
  { w with dwfl := { w.dwfl with junkRange := junk } }

/-- The subprograms of the compilation unit of an address, if it has one. -/
def Dwfl.subprograms (d : Dwfl) (pc : Addr) : List FuncDie := ((d.addrdie pc).map Cu.funcs).getD []

theorem getFuncDieFromPc_withJunk (hmodule : w.dwfl.addrmodule pc = true)
    (junk : ℕ → BitVec 64 × BitVec 64) : getFuncDieFromPc (w.withJunk junk) pc load =
      .ok (getfuncs junk (pc - load) 1 (w.dwfl.subprograms pc)) := by
  unfold getFuncDieFromPc Dwfl.subprograms World.withJunk
  dsimp only
  rw [hmodule]
  cases w.dwfl.addrdie pc with
  | none => rfl
  | some cu => rfl

/-- `get_func_die_from_pc` finds the first subprogram whose range holds the pc, or none, whatever
is on the stack, exactly when no subprogram before it is unsure. -/
theorem getFuncDieFromPc_first_iff (hmodule : w.dwfl.addrmodule pc = true) :
    (∀ junk, getFuncDieFromPc (w.withJunk junk) pc load =
        .ok ((w.dwfl.subprograms pc).find? (·.holds (pc - load)))) ↔
      ∀ die ∈ (w.dwfl.subprograms pc).takeWhile (!·.holds (pc - load)),
        ¬die.Unsure (pc - load) := by
  rw [← getfuncs_eq_find_iff (i := 1)]
  refine forall_congr' fun junk => ?_
  rw [getFuncDieFromPc_withJunk hmodule, Except.ok.injEq]

/-- A compilation unit with these subprograms at every address. -/
def unitWorld (dies : List FuncDie) : World :=
  .stoppedAt (fun _ => 0) (fun _ => 0) { Dwfl.empty with
    addrmodule := fun _ => true
    addrdie := fun _ => some ⟨none, dies⟩ }

/-- The second of two functions is found. -/
theorem getFuncDieFromPc_second : ∃ w : World,
    w.dwfl.subprograms 0x401020 =
      [⟨some "f", some 0x1000, some 0x1010⟩, ⟨some "main", some 0x1010, some 0x1040⟩] ∧
    ∀ junk, getFuncDieFromPc (w.withJunk junk) 0x401020 0x400000 =
      .ok (some ⟨some "main", some 0x1010, some 0x1040⟩) := by
  have hunsure : ¬FuncDie.Unsure ⟨some "f", some 0x1000, some 0x1010⟩ (0x401020 - 0x400000) :=
    fun h => by simpa using h.missing
  exact ⟨unitWorld [⟨some "f", some 0x1000, some 0x1010⟩, ⟨some "main", some 0x1010, some 0x1040⟩],
    rfl, (getFuncDieFromPc_first_iff rfl).mpr (List.forall_mem_singleton.mpr hunsure)⟩

/-- A declaration is taken for the function where the stack still has the range of another one. -/
theorem getFuncDieFromPc_declaration :
    getFuncDieFromPc ((unitWorld [⟨some "puts", none, none⟩,
        ⟨some "main", some 0x1010, some 0x1040⟩]).withJunk fun _ => (0x1000, 0x2000))
      0x401020 0x400000 = .ok (some ⟨some "puts", none, none⟩) :=
  rfl

end Enclosing

end Vdbg
