import Mathlib.Data.Nat.Count
import Mathlib.Data.Nat.Find
import Mathlib.Logic.Function.Iterate

/-!
# Machines whose code is patched with traps

A deterministic machine executes the instruction at its pc. A debugger stores a trap over the first
byte of some instructions (`patch`). A program that neither reads nor writes its code does not see
the traps it does not execute: until the pc reaches one, the patched machine does what the plain one
does (`run_patchState`), and it gets stuck on the first trap the plain machine arrives at
(`runsTo_patchState`). `arrivals` counts how often a run arrives at patched addresses.
-/

namespace Traps

/-- A program in the memory of a machine with registers `R`, addresses `A` and bytes `B`. -/
structure Program (R A B : Type*) where
  pc : R → A
  /-- The byte that traps. -/
  trap : B
  /-- The bytes of instructions, and what they hold. -/
  text : A → Prop
  code : A → B
  /-- The addresses instructions start at. -/
  starts : A → Prop
  starts_text : ∀ a, starts a → text a
  no_trap : ∀ a, starts a → code a ≠ trap

variable {R A B : Type*}

/-- The program is in the memory, and the pc is at one of its instructions. -/
structure Program.Loaded (p : Program R A B) (s : R × (A → B)) : Prop where
  code : ∀ a, p.text a → s.2 a = p.code a
  starts : p.starts (p.pc s.1)

/-- A machine on which the program neither reads nor writes its code. -/
structure Machine (R A B : Type*) extends Program R A B where
  /-- The instruction at the pc. -/
  exec : R × (A → B) → R × (A → B)
  loaded_exec : ∀ s, toProgram.Loaded s → toProgram.Loaded (exec s)
  /-- Other instructions may start with other bytes, which stay what they are. -/
  exec_other : ∀ s m', toProgram.Loaded s → (∀ a, m' a ≠ s.2 a → starts a ∧ a ≠ pc s.1) →
    (exec (s.1, m')).1 = (exec s).1 ∧
      ∀ a, (m' a = s.2 a → (exec (s.1, m')).2 a = (exec s).2 a) ∧
        (m' a ≠ s.2 a → (exec (s.1, m')).2 a = m' a)

namespace Machine

variable (M : Machine R A B)

/-- So many instructions. -/
def run (n : ℕ) (s : R × (A → B)) : R × (A → B) := M.exec^[n] s

/-- The instruction at the pc is a trap. -/
def AtTrap (s : R × (A → B)) : Prop := s.2 (M.pc s.1) = M.trap

/-- The first trap is met after so many instructions. -/
def RunsTo (s : R × (A → B)) (n : ℕ) : Prop :=
  (∀ i < n, ¬M.AtTrap (M.run i s)) ∧ M.AtTrap (M.run n s)

/-- Traps at the addresses of `P`. -/
def patch (P : A → Bool) (m : A → B) : A → B := fun a => if P a then M.trap else m a

def patchState (P : A → Bool) (s : R × (A → B)) : R × (A → B) := (s.1, M.patch P s.2)

/-- Whether the pc is at a patched address. -/
def armed (P : A → Bool) (s : R × (A → B)) : Bool := P (M.pc s.1)

variable {M} {P : A → Bool} {s : R × (A → B)} {i m n : ℕ}

/-! ## Runs -/

@[simp] theorem run_zero : M.run 0 s = s := rfl

theorem run_succ' : M.run (n + 1) s = M.exec (M.run n s) := Function.iterate_succ_apply' ..

theorem run_add : M.run (m + n) s = M.run n (M.run m s) := by
  rw [run, Nat.add_comm, Function.iterate_add_apply]
  rfl

theorem run_loaded (h : M.Loaded s) (n : ℕ) : M.Loaded (M.run n s) := by
  induction n with
  | zero => exact h
  | succ n ih =>
    rw [run_succ']
    exact M.loaded_exec _ ih

/-- There is one first trap. -/
theorem RunsTo.unique (hm : M.RunsTo s m) (hn : M.RunsTo s n) : m = n := by
  rcases Nat.lt_trichotomy m n with hlt | heq | hlt
  · exact absurd hm.2 (hn.1 m hlt)
  · exact heq
  · exact absurd hn.2 (hm.1 n hlt)

/-! ## Patched runs -/

section Patched

variable (hP : ∀ a, P a = true → M.starts a) (h : M.Loaded s)

theorem patch_of_mem {a : A} {m : A → B} (ha : P a = true) : M.patch P m a = M.trap := if_pos ha

theorem patch_of_not_mem {a : A} {m : A → B} (ha : P a = false) : M.patch P m a = m a :=
  if_neg (by rw [ha]; simp)

include h in
theorem code_ne_trap {a : A} (ha : M.starts a) : s.2 a ≠ M.trap := by
  rw [h.code a (M.starts_text a ha)]
  exact M.no_trap a ha

include h in
/-- The patched machine is at a trap exactly when the pc is at a patched address. -/
theorem atTrap_patchState : M.AtTrap (M.patchState P s) ↔ M.armed P s = true := by
  show M.patch P s.2 (M.pc s.1) = M.trap ↔ P (M.pc s.1) = true
  rcases hpc : P (M.pc s.1) with - | -
  · rw [patch_of_not_mem hpc]
    exact iff_of_false (code_ne_trap h h.starts) Bool.false_ne_true
  · exact iff_of_true (patch_of_mem hpc) rfl

include hP h in
theorem patch_ne_iff (a : A) : M.patch P s.2 a ≠ s.2 a ↔ P a = true := by
  rcases ha : P a with - | -
  · rw [patch_of_not_mem ha]
    simp
  · rw [patch_of_mem ha]
    exact iff_of_true (code_ne_trap h (hP a ha)).symm rfl

include hP h in
/-- The patches change first bytes of instructions other than the one at the pc. -/
theorem patch_other (hfree : M.armed P s = false) {a : A} (ha : M.patch P s.2 a ≠ s.2 a) :
    M.starts a ∧ a ≠ M.pc s.1 := by
  rw [patch_ne_iff hP h] at ha
  refine ⟨hP a ha, ?_⟩
  rintro rfl
  rw [armed, ha] at hfree
  cases hfree

/-- What the instruction at the pc decides: first bytes of other instructions do not matter. -/
def Blind (M : Machine R A B) {γ : Type*} (f : R × (A → B) → γ) : Prop :=
  ∀ s m', M.Loaded s → (∀ a, m' a ≠ s.2 a → M.starts a ∧ a ≠ M.pc s.1) → f (s.1, m') = f s

include hP h in
theorem Blind.patchState {γ : Type*} {f : R × (A → B) → γ} (hf : M.Blind f)
    (hfree : M.armed P s = false) : f (M.patchState P s) = f s :=
  hf s _ h fun _ ha => patch_other hP h hfree ha

include hP h in
/-- The traps do not show in an instruction at an address without one. -/
theorem exec_patchState (hfree : M.armed P s = false) :
    M.exec (M.patchState P s) = M.patchState P (M.exec s) := by
  have hdiff := patch_ne_iff (P := P) hP h
  obtain ⟨hregs, hmem⟩ := M.exec_other s (M.patch P s.2) h fun a ha => patch_other hP h hfree ha
  refine Prod.ext hregs (funext fun a => ?_)
  show (M.exec (s.1, M.patch P s.2)).2 a = M.patch P (M.exec s).2 a
  rcases ha : P a with - | -
  · rw [(hmem a).1 (patch_of_not_mem ha), patch_of_not_mem ha]
  · rw [(hmem a).2 ((hdiff a).mpr ha), patch_of_mem ha, patch_of_mem ha]

include hP h in
theorem run_patchState (hfree : ∀ i < n, M.armed P (M.run i s) = false) :
    M.run n (M.patchState P s) = M.patchState P (M.run n s) := by
  induction n with
  | zero => rfl
  | succ n ih =>
    rw [run_succ', run_succ', ih fun i hi => hfree i (hi.trans (Nat.lt_succ_self n)),
      exec_patchState hP (run_loaded h n) (hfree n (Nat.lt_succ_self n))]

include hP h in
/-- The patched machine meets its first trap where the plain one first arrives at a patched
address. -/
theorem runsTo_patchState (hfree : ∀ i < n, M.armed P (M.run i s) = false)
    (harmed : M.armed P (M.run n s) = true) : M.RunsTo (M.patchState P s) n := by
  refine ⟨fun i hi => ?_, ?_⟩
  · rw [run_patchState hP h fun j hj => hfree j (hj.trans hi), atTrap_patchState (run_loaded h i),
      hfree i hi]
    exact Bool.false_ne_true
  · rw [run_patchState hP h hfree, atTrap_patchState (run_loaded h n)]
    exact harmed

include hP h in
theorem never_atTrap_patchState (hfree : ∀ i, M.armed P (M.run i s) = false) (n : ℕ) :
    ¬M.AtTrap (M.run n (M.patchState P s)) := by
  rw [run_patchState hP h fun i _ => hfree i, atTrap_patchState (run_loaded h n), hfree n]
  exact Bool.false_ne_true

theorem starts_without [DecidableEq A] (hP : ∀ a, P a = true → M.starts a) {x : A} :
    ∀ a, Function.update P x false a = true → M.starts a := by
  intro a ha
  rw [Function.update_apply] at ha
  split_ifs at ha
  exact hP a ha

include h in
/-- Without its trap the instruction at the pc is executed, and the trap can be put back. -/
theorem exec_patchState_without [DecidableEq A] (hP : ∀ a, P a = true → M.starts a) :
    M.exec (M.patchState (Function.update P (M.pc s.1) false) s) =
      M.patchState (Function.update P (M.pc s.1) false) (M.exec s) := by
  refine exec_patchState (starts_without hP) h ?_
  rw [armed, Function.update_self]

section Update

variable [DecidableEq A] {a : A} {m : A → B}

/-- A trap is taken away. -/
theorem update_patch (P : A → Bool) (a : A) (m : A → B) :
    Function.update (M.patch P m) a (m a) = M.patch (Function.update P a false) m := by
  funext x
  by_cases hx : x = a
  · subst hx
    rw [Function.update_self, patch_of_not_mem (Function.update_self ..)]
  · simp only [Function.update_of_ne hx, patch]

/-- A trap is put back. -/
theorem update_patch_trap (ha : P a = true) :
    Function.update (M.patch (Function.update P a false) m) a M.trap = M.patch P m := by
  funext x
  by_cases hx : x = a
  · subst hx
    rw [Function.update_self, patch_of_mem ha]
  · simp only [Function.update_of_ne hx, patch]

end Update

end Patched

/-! ## Arrivals -/

/-- The first patched address the pc arrives at, after at least one instruction. -/
structure Stops (M : Machine R A B) (P : A → Bool) (s : R × (A → B)) (n : ℕ) : Prop where
  pos : 0 < n
  armed : M.armed P (M.run n s) = true
  free : ∀ i, 0 < i → i < n → M.armed P (M.run i s) = false

/-- The first state with a property, after at least one instruction. -/
structure First (M : Machine R A B) (Q : R × (A → B) → Prop) (s : R × (A → B)) (n : ℕ) : Prop where
  pos : 0 < n
  there : Q (M.run n s)
  free : ∀ i, 0 < i → i < n → ¬Q (M.run i s)

section First

variable {Q G : R × (A → B) → Prop} {U : ℕ → Prop}

theorem first_armed_iff : M.First (fun s => M.armed P s = true) s n ↔ M.Stops P s n := by
  constructor
  · intro h
    exact ⟨h.pos, h.there, fun i hpos hi => Bool.eq_false_iff.mpr (h.free i hpos hi)⟩
  · intro h
    exact ⟨h.pos, h.armed, fun i hpos hi => Bool.eq_false_iff.mp (h.free i hpos hi)⟩

theorem exists_first (hpos : 0 < n) (h : Q (M.run n s)) : ∃ m ≤ n, M.First Q s m := by
  classical
  have hex : ∃ i, 0 < i ∧ Q (M.run i s) := ⟨n, hpos, h⟩
  refine ⟨Nat.find hex, Nat.find_min' hex ⟨hpos, h⟩, (Nat.find_spec hex).1, (Nat.find_spec hex).2,
    fun i hi hlt hQ => ?_⟩
  exact Nat.find_min hex hlt ⟨hi, hQ⟩

/-- Of the times in `U`, up to the first one with `G`, the states with `Q` are those with `G`. -/
def Agrees (M : Machine R A B) (U : ℕ → Prop) (Q G : R × (A → B) → Prop) (s : R × (A → B)) : Prop :=
  ∀ i, 0 < i → U i → (∀ j, 0 < j → j < i → ¬G (M.run j s)) → (Q (M.run i s) ↔ G (M.run i s))

/-- Two properties that agree come first at the same times. -/
theorem Agrees.first_iff (h : M.Agrees U Q G s) (hU : ∀ i j, i ≤ j → U j → U i) (hn : U n) :
    M.First Q s n ↔ M.First G s n := by
  have hagree : ∀ i, 0 < i → i ≤ n → (∀ j, 0 < j → j < i → ¬G (M.run j s)) →
      (Q (M.run i s) ↔ G (M.run i s)) := fun i hpos hi => h i hpos (hU i n hi hn)
  constructor
  · intro hQ
    have hfree : ∀ i, 0 < i → i < n → ¬G (M.run i s) := by
      intro i
      induction i using Nat.strong_induction_on with
      | _ i ih =>
        intro hpos hi hG
        have hiff := hagree i hpos hi.le fun j hj hji => ih j hji hj (hji.trans hi)
        exact hQ.free i hpos hi (hiff.mpr hG)
    exact ⟨hQ.pos, (hagree n hQ.pos le_rfl hfree).mp hQ.there, hfree⟩
  · intro hG
    refine ⟨hG.pos, (hagree n hG.pos le_rfl hG.free).mpr hG.there, fun i hpos hi hQ => ?_⟩
    have hiff := hagree i hpos hi.le fun j hj hji => hG.free j hj (hji.trans hi)
    exact hG.free i hpos hi (hiff.mp hQ)

end First

/-- How often the pc arrives at a patched address within so many instructions. -/
def arrivals (M : Machine R A B) (P : A → Bool) (s : R × (A → B)) (n : ℕ) : ℕ :=
  Nat.count (fun i => M.armed P (M.run (i + 1) s) = true) n

theorem arrivals_add : M.arrivals P s (m + n) = M.arrivals P s m + M.arrivals P (M.run m s) n := by
  unfold arrivals
  rw [Nat.count_add]
  simp only [Nat.add_assoc, run_add]

theorem Stops.arrivals_eq (h : M.Stops P s n) : M.arrivals P s n = 1 := by
  obtain ⟨n, rfl⟩ := Nat.exists_eq_succ_of_ne_zero h.pos.ne'
  have hnone : M.arrivals P s n = 0 := by
    refine Nat.count_iff_forall_not.mpr fun i hi harmed => ?_
    rw [h.free (i + 1) (Nat.succ_pos i) (Nat.succ_lt_succ hi)] at harmed
    cases harmed
  unfold arrivals at hnone ⊢
  rw [Nat.succ_eq_add_one, Nat.count_succ, hnone, if_pos h.armed]

/-- Within the instructions that hold an arrival lies the first one. -/
theorem exists_stops (h : 0 < M.arrivals P s n) : ∃ m ≤ n, M.Stops P s m := by
  obtain ⟨i, hi, harmed⟩ := Nat.count_ne_iff_exists.mp h.ne'
  have hex : ∃ i, M.armed P (M.run (i + 1) s) = true := ⟨i, harmed⟩
  refine ⟨Nat.find hex + 1, (Nat.find_le harmed).trans_lt hi, Nat.succ_pos _, Nat.find_spec hex,
    fun j hpos hj => ?_⟩
  obtain ⟨j, rfl⟩ := Nat.exists_eq_succ_of_ne_zero hpos.ne'
  exact Bool.eq_false_iff.mpr (Nat.find_min hex (Nat.lt_of_succ_lt_succ hj))

/-- Without a first arrival there is none. -/
theorem armed_of_never (h : ∀ n, ¬M.Stops P s n) (hi : 0 < i) : M.armed P (M.run i s) = false := by
  by_contra harmed
  obtain ⟨i, rfl⟩ := Nat.exists_eq_succ_of_ne_zero hi.ne'
  have hpos : 0 < M.arrivals P s (i + 1) := by
    refine Nat.pos_of_ne_zero (Nat.count_ne_iff_exists.mpr ⟨i, Nat.lt_succ_self i, ?_⟩)
    simpa using harmed
  obtain ⟨m, -, hm⟩ := exists_stops hpos
  exact h m hm

/-- After the first arrival one less is to come. -/
theorem Stops.arrivals_sub (h : M.Stops P s m) (hle : m ≤ n) :
    M.arrivals P s n = 1 + M.arrivals P (M.run m s) (n - m) := by
  rw [← h.arrivals_eq, ← arrivals_add, Nat.add_sub_cancel' hle]

end Machine

end Traps
