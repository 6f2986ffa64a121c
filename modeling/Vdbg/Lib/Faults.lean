import Vdbg.Lib.FaultRun

/-!
# The faults of a call

`Faults P x` says that a call that ends in a fault ends in one with `P`. It follows a program along
its binds, each continuation with the knowledge that the part before it returned, and along a run
whose steps keep an invariant (`Faults.foldlM`). `Yields P Q x` also says that what the call returns
has `Q`, so that a fact about the state holds of it wherever the call ends.
-/

namespace FaultRun

universe u v

variable {σ τ : Type u} {α : Type*} {ε : Type v} {P Q : ε → Prop} {x : Except ε σ} {I : σ → Prop}

/-- Every fault a call ends in has `P`. -/
def Faults (P : ε → Prop) (x : Except ε σ) : Prop := ∀ e, x = .error e → P e

namespace Faults

theorem ok (s : σ) : Faults P (.ok s) := fun _ h => by cases h

theorem of_returns (h : ∃ s, x = .ok s) : Faults P x := by
  obtain ⟨s, rfl⟩ := h
  exact ok s

theorem error {e : ε} (h : P e) : Faults P (.error e : Except ε σ) := by
  intro e' he
  cases he
  exact h

theorem mono (h : Faults P x) (hPQ : ∀ e, P e → Q e) : Faults Q x := fun e he => hPQ e (h e he)

theorem bind {f : σ → Except ε τ} (hx : Faults P x) (hf : ∀ s, x = .ok s → Faults P (f s)) :
    Faults P (x >>= f) := by
  rcases x with e | s
  · exact error (hx e rfl)
  · exact hf s rfl

theorem mapM {f : α → Except ε σ} {as : List α} (hf : ∀ a ∈ as, Faults P (f a)) :
    Faults P (as.mapM f) := by
  induction as with
  | nil => exact ok []
  | cons a as ih =>
    rw [List.forall_mem_cons] at hf
    rw [List.mapM_cons]
    exact hf.1.bind fun b _ => (ih hf.2).bind fun bs _ => ok (b :: bs)

/-- A run whose steps keep an invariant, and under it fault with `P` only. -/
theorem foldlM {step : σ → α → Except ε σ} {I : σ → Prop} {as : List α}
    (hkeeps : ∀ s a s', a ∈ as → I s → step s a = .ok s' → I s')
    (hstep : ∀ s a, a ∈ as → I s → Faults P (step s a)) {s : σ} (hs : I s) :
    Faults P (as.foldlM step s) := by
  induction as generalizing s with
  | nil => exact ok s
  | cons a as ih =>
    rw [List.foldlM_cons]
    refine (hstep s a List.mem_cons_self hs).bind fun s' hs' => ?_
    exact ih (fun t b t' hb => hkeeps t b t' (List.mem_cons_of_mem a hb))
      (fun t b hb => hstep t b (List.mem_cons_of_mem a hb)) (hkeeps s a s' List.mem_cons_self hs hs')

end Faults

/-- Every fault a call ends in has `P`, and what it returns has `I`. -/
structure Yields (P : ε → Prop) (I : σ → Prop) (x : Except ε σ) : Prop where
  faults : Faults P x
  returns : ∀ s, x = .ok s → I s

namespace Yields

theorem ok {s : σ} (h : I s) : Yields P I (.ok s) := by
  refine ⟨.ok s, fun t ht => ?_⟩
  cases ht
  exact h

theorem error {e : ε} (h : P e) : Yields P I (.error e) := ⟨.error h, fun _ hs => by cases hs⟩

theorem bind {f : σ → Except ε τ} {K : τ → Prop} (hx : Yields P I x)
    (hf : ∀ s, I s → Yields P K (f s)) : Yields P K (x >>= f) := by
  rcases x with e | s
  · exact error (hx.faults e rfl)
  · exact hf s (hx.returns s rfl)

/-- What a step leaves in its state wherever it ends, a run does. -/
theorem foldlM {step : σ → α → Except ε σ} (hstep : ∀ s a, I s → Yields P I (step s a))
    (as : List α) {s : σ} (hs : I s) : Yields P I (as.foldlM step s) := by
  induction as generalizing s with
  | nil => exact ok hs
  | cons a as ih =>
    rw [List.foldlM_cons]
    exact (hstep s a hs).bind fun s' hs' => ih hs'

end Yields

end FaultRun
