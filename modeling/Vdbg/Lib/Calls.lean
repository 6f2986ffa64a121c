import Mathlib.Data.List.Infix

/-!
# Call stacks along a run

Each step of a run keeps the stack of frames, pushes a frame or pops one. As long as the stack does
not get lower than it was at the start, the first stack lies below (`Nested.suffix`). The step that
first makes it lower pops its first frame, and goes where that frame says (`Nested.pops`).
-/

namespace Calls

variable {S F : Type*}

/-- From one state to the next the frames stay, one is pushed, or one is popped and `back`. -/
inductive Moves (stack : S → List F) (back : F → S → Prop) (s s' : S) : Prop
  | stays (h : stack s' = stack s)
  | call (f : F) (h : stack s' = f :: stack s)
  | ret (f : F) (h : stack s = f :: stack s') (hback : back f s')

/-- Every step of the run moves the stack so. -/
def Nested (stack : S → List F) (back : F → S → Prop) (run : ℕ → S) : Prop :=
  ∀ n, Moves stack back (run n) (run (n + 1))

/-- A frame less than at the start. -/
def Popped (stack : S → List F) (s s' : S) : Prop := (stack s').length < (stack s).length

instance (stack : S → List F) (s s' : S) : Decidable (Popped stack s s') :=
  inferInstanceAs (Decidable (_ < _))

variable {stack : S → List F} {back : F → S → Prop} {run : ℕ → S} {n : ℕ}

/-- The stack at the start stays below, as long as none of its frames is popped. -/
theorem Nested.suffix (h : Nested stack back run)
    (hdeep : ∀ i ≤ n, ¬Popped stack (run 0) (run i)) : stack (run 0) <:+ stack (run n) := by
  induction n with
  | zero => exact List.suffix_rfl
  | succ n ih =>
    have hsuffix := ih fun i hi => hdeep i (hi.trans (Nat.le_succ n))
    rcases h n with hstays | ⟨f, hcall⟩ | ⟨f, hret, -⟩
    · rwa [hstays]
    · rw [hcall]
      exact hsuffix.trans (List.suffix_cons f _)
    · rw [hret] at hsuffix
      rcases List.suffix_cons_iff.mp hsuffix with heq | htail
      · -- the frame that is popped would be one of the first ones
        refine absurd ?_ (hdeep (n + 1) le_rfl)
        rw [Popped, heq]
        exact Nat.lt_succ_self _
      · exact htail

/-- The first pop below the start is that of the first frame. -/
theorem Nested.pops (h : Nested stack back run)
    (hdeep : ∀ i < n, ¬Popped stack (run 0) (run i)) (hpopped : Popped stack (run 0) (run n)) :
    ∃ f, stack (run 0) = f :: stack (run n) ∧ back f (run n) := by
  rcases n with - | n
  · exact absurd hpopped (Nat.lt_irrefl _)
  have hsuffix := h.suffix fun i hi => hdeep i (Nat.lt_succ_of_le hi)
  have hlow := hsuffix.length_le
  rw [Popped] at hpopped
  rcases h n with hstays | ⟨f, hcall⟩ | ⟨f, hret, hback⟩
  · rw [hstays] at hpopped
    omega
  · rw [hcall, List.length_cons] at hpopped
    omega
  · refine ⟨f, ?_, hback⟩
    rw [← hret]
    refine hsuffix.eq_of_length ?_
    rw [hret, List.length_cons] at hlow ⊢
    omega

end Calls
