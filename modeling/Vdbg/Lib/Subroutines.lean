import Mathlib.Data.Fintype.Card
import Mathlib.Logic.Relation
import Mathlib.Order.WellFounded

/-!
# Subroutines that call each other

A subroutine is a list of steps, each of which acts on the state or calls a subroutine. Where all
actions return, it comes to an end exactly if its calls are well-founded or there is no room for
calls so deep (`ends_iff`); among finitely many subroutines the calls are well-founded exactly if
none that is reached calls itself in the end (`acc_iff_no_cycle`).
-/

namespace Subroutines

/-! ## Relations without cycles -/

section Cycles

variable {N : Type*} {calls : N → N → Prop} {n : N}

theorem acc_of_reaches (h : Acc (flip calls) n) {m : N} (hreach : Relation.ReflTransGen calls n m) :
    Acc (flip calls) m := by
  induction hreach with
  | refl => exact h
  | tail _ hcall ih => exact ih.inv hcall

theorem not_cycle_of_acc (h : Acc (flip calls) n) : ¬ Relation.TransGen calls n n := by
  intro hcycle
  have hacc := h.transGen
  clear h
  induction hacc with
  | intro n _ ih => exact ih n (Relation.transGen_swap.mpr hcycle) hcycle

/-- Among finitely many, what calls down from `n` is well-founded without a cycle below. -/
theorem acc_iff_no_cycle [Finite N] : Acc (flip calls) n ↔
    ¬ ∃ m, Relation.ReflTransGen calls n m ∧ Relation.TransGen calls m m := by
  constructor
  · rintro h ⟨m, hreach, hcycle⟩
    exact not_cycle_of_acc (acc_of_reaches h hreach) hcycle
  · intro h
    -- the calls below `n`, from the callee to the caller
    let below : N → N → Prop := fun m' m =>
      Relation.ReflTransGen calls n m ∧ Relation.TransGen calls m m'
    have : IsTrans N below := ⟨fun _ _ _ h₁ h₂ => ⟨h₂.1, h₂.2.trans h₁.2⟩⟩
    have : Std.Irrefl below := ⟨fun m hm => h ⟨m, hm⟩⟩
    have hwf : WellFounded below := Finite.wellFounded_of_trans_of_irrefl below
    have hreached : ∀ m, Relation.ReflTransGen calls n m → Acc (flip calls) m := by
      intro m
      induction m using hwf.induction with
      | _ m ih =>
        intro hreach
        refine ⟨m, fun m' hcall => ?_⟩
        exact ih m' ⟨hreach, .single hcall⟩ (hreach.tail hcall)
    exact hreached n .refl

end Cycles

/-! ## Runs -/

/-- A step of a subroutine. -/
inductive Step (A N : Type*) where
  | act (a : A)
  | call (n : N)
deriving DecidableEq

/-- How a run comes to an end: it returns, or an action ends the whole program. -/
inductive Outcome (S : Type*) where
  | returned (s : S)
  | ended
deriving DecidableEq, Repr

variable {A N S : Type*} (act : A → S → Outcome S) (body : N → List (Step A N)) (room : ℕ → Bool)

/-- One step, with the runs of the subroutines given. -/
def runStep (call : N → S → Option (Outcome S)) : Step A N → S → Option (Outcome S)
  | .act a, s => some (act a s)
  | .call n, s => call n s

/-- The steps one after the other. -/
def runSteps (call : N → S → Option (Outcome S)) : List (Step A N) → S → Option (Outcome S)
  | [], s => some (.returned s)
  | step :: steps, s =>
    match runStep act call step s with
    | none => none
    | some .ended => some .ended
    | some (.returned s) => runSteps call steps s

/-- The run of a subroutine called at a depth, with no more than `fuel` calls inside each other. It
is passed over where there is no room. -/
def run (fuel depth : ℕ) (n : N) (s : S) : Option (Outcome S) :=
  if room depth then
    match fuel with
    | 0 => none
    | fuel + 1 => runSteps act (run fuel (depth + 1)) (body n) s
  else some (.returned s)

/-- The run comes to an end. -/
def Ends (depth : ℕ) (n : N) (s : S) : Prop := ∃ fuel, (run act body room fuel depth n s).isSome

/-- A subroutine has a call of another. -/
def Calls (n m : N) : Prop := Step.call m ∈ body n

section Fuel

variable {act body room} {call call' : N → S → Option (Outcome S)} {steps : List (Step A N)}
  {fuel fuel' depth : ℕ} {n : N} {s : S} {o : Outcome S}

theorem runSteps_mono (hcall : ∀ n s o, call n s = some o → call' n s = some o)
    (h : runSteps act call steps s = some o) : runSteps act call' steps s = some o := by
  induction steps generalizing s with
  | nil => exact h
  | cons step steps ih =>
    have hstep : ∀ o', runStep act call step s = some o' → runStep act call' step s = some o' := by
      intro o' h'
      cases step with
      | act a => exact h'
      | call n => exact hcall n s o' h'
    unfold runSteps at h ⊢
    cases hrun : runStep act call step s with
    | none =>
      rw [hrun] at h
      cases h
    | some o' =>
      rw [hrun] at h
      rw [hstep o' hrun]
      cases o' with
      | ended => exact h
      | returned s' => exact ih h

theorem run_mono (hle : fuel ≤ fuel') (h : run act body room fuel depth n s = some o) :
    run act body room fuel' depth n s = some o := by
  induction fuel generalizing fuel' depth n s o with
  | zero =>
    unfold run at h ⊢
    split_ifs at h ⊢ with hroom
    exact h
  | succ fuel ih =>
    obtain ⟨fuel', rfl⟩ := Nat.exists_eq_add_of_le' (Nat.one_le_of_lt hle)
    unfold run at h ⊢
    split_ifs at h ⊢ with hroom
    · exact runSteps_mono (fun n s o hrun => ih (Nat.le_of_succ_le_succ hle) hrun) h
    · exact h

end Fuel

/-! ## When runs come to an end -/

section Ends

variable {act body room} {steps : List (Step A N)} {depth : ℕ} {n : N}

/-- If the subroutines that are called come to an end, so do the steps, with the most fuel that one
of them takes. -/
theorem runSteps_ends
    (hcalls : ∀ m, .call m ∈ steps → ∀ s, Ends act body room depth m s) (s : S) :
    ∃ fuel, (runSteps act (run act body room fuel depth) steps s).isSome := by
  induction steps generalizing s with
  | nil => exact ⟨0, rfl⟩
  | cons step steps ih =>
    have hstep : ∃ fuel o, runStep act (run act body room fuel depth) step s = some o := by
      cases step with
      | act a => exact ⟨0, _, rfl⟩
      | call m =>
        obtain ⟨fuel, hrun⟩ := hcalls m List.mem_cons_self s
        exact ⟨fuel, _, Option.eq_some_of_isSome hrun⟩
    obtain ⟨fuel, o, hrun⟩ := hstep
    cases o with
    | ended => exact ⟨fuel, by rw [runSteps, hrun]; rfl⟩
    | returned s' =>
      obtain ⟨fuel', hrest⟩ := ih (fun m hm => hcalls m (List.mem_cons_of_mem _ hm)) s'
      obtain ⟨o, ho⟩ := Option.isSome_iff_exists.mp hrest
      have hfirst : runStep act (run act body room (max fuel fuel') depth) step s =
          some (.returned s') := by
        cases step with
        | act a => exact hrun
        | call m => exact run_mono (le_max_left _ _) hrun
      refine ⟨max fuel fuel', ?_⟩
      rw [runSteps, hfirst]
      simp only
      rw [runSteps_mono (fun m s o hm => run_mono (le_max_right _ _) hm) ho]
      rfl

/-- A subroutine comes to an end if those it calls do. -/
theorem ends_of_calls
    (hcalls : ∀ m, Calls body n m → ∀ s, Ends act body room (depth + 1) m s) (s : S) :
    Ends act body room depth n s := by
  obtain ⟨fuel, hrun⟩ := runSteps_ends hcalls s
  refine ⟨fuel + 1, ?_⟩
  unfold run
  split_ifs
  · exact hrun
  · rfl

theorem ends_of_acc (h : Acc (flip (Calls body)) n) (depth : ℕ) (s : S) :
    Ends act body room depth n s := by
  induction h generalizing depth s with
  | intro n _ ih => exact ends_of_calls (fun m hm s => ih m hm (depth + 1) s) s

/-- Where there is no room at some depth, the calls go no deeper. -/
theorem ends_of_no_room {k : ℕ} (h : room (depth + k) = false) (n : N) (s : S) :
    Ends act body room depth n s := by
  induction k generalizing depth n s with
  | zero => exact ⟨0, by rw [run, if_neg (by simpa using h)]; rfl⟩
  | succ k ih =>
    refine ends_of_calls (fun m _ s => ih ?_ m s) s
    rwa [Nat.add_assoc, Nat.add_comm 1 k]

end Ends

section Returning

variable {act body room} {fuel depth : ℕ} {n : N} {s : S} {o : Outcome S}
  (hact : ∀ a s, ∃ s', act a s = .returned s')
include hact

/-- Where no action ends the program, steps that come to an end have run each of their calls. -/
theorem runSteps_returned {call : N → S → Option (Outcome S)} {P : N → Prop}
    (hcall : ∀ n s o, call n s = some o → (∃ s', o = .returned s') ∧ P n)
    {steps : List (Step A N)} {s : S} {o : Outcome S} (h : runSteps act call steps s = some o) :
    (∃ s', o = .returned s') ∧ ∀ m, .call m ∈ steps → P m := by
  induction steps generalizing s with
  | nil =>
    cases h
    exact ⟨⟨s, rfl⟩, nofun⟩
  | cons step steps ih =>
    unfold runSteps at h
    cases hrun : runStep act call step s with
    | none =>
      rw [hrun] at h
      cases h
    | some o' =>
      rw [hrun] at h
      have hstep : (∃ s', o' = .returned s') ∧ ∀ m, step = .call m → P m := by
        cases step with
        | act a =>
          obtain ⟨s', hs'⟩ := hact a s
          cases hrun
          exact ⟨⟨s', hs'⟩, nofun⟩
        | call n =>
          obtain ⟨hret, hp⟩ := hcall n s o' hrun
          refine ⟨hret, ?_⟩
          rintro m ⟨⟩
          exact hp
      obtain ⟨⟨s', rfl⟩, hp⟩ := hstep
      obtain ⟨hret, hrest⟩ := ih h
      refine ⟨hret, fun m hm => ?_⟩
      rcases List.mem_cons.mp hm with heq | hm
      · exact hp m heq.symm
      · exact hrest m hm

/-- Where no action ends the program, a run that comes to an end returns. -/
theorem run_returns (h : run act body room fuel depth n s = some o) : ∃ s', o = .returned s' := by
  induction fuel generalizing depth n s o with
  | zero =>
    unfold run at h
    split_ifs at h
    cases h
    exact ⟨s, rfl⟩
  | succ fuel ih =>
    unfold run at h
    split_ifs at h
    · exact (runSteps_returned (P := fun _ => True) hact (fun n s o hrun => ⟨ih hrun, trivial⟩) h).1
    · cases h
      exact ⟨s, rfl⟩

/-- Where there is room everywhere, it has come to the end of its calls. -/
theorem acc_of_run (hroom : ∀ depth, room depth)
    (h : run act body room fuel depth n s = some o) : Acc (flip (Calls body)) n := by
  induction fuel generalizing depth n s o with
  | zero =>
    rw [run, if_pos (hroom depth)] at h
    cases h
  | succ fuel ih =>
    rw [run, if_pos (hroom depth)] at h
    exact ⟨n, (runSteps_returned hact
      (fun n s o hrun => ⟨run_returns hact hrun, ih hrun⟩) h).2⟩

end Returning

/-- A run comes to an end, whatever the actions do, if the calls are well-founded or there is a
depth without room, -/
theorem ends_of_acc_or_no_room {act : A → S → Outcome S} {body : N → List (Step A N)}
    {room : ℕ → Bool} {n : N} (h : Acc (flip (Calls body)) n ∨ ∃ depth, room depth = false) (s : S) :
    Ends act body room 0 n s := by
  rcases h with hacc | ⟨depth, hroom⟩
  · exact ends_of_acc hacc 0 s
  · exact ends_of_no_room (by rwa [Nat.zero_add]) n s

/-- and only then, if no action ends the program. -/
theorem ends_iff {act : A → S → Outcome S} {body : N → List (Step A N)} {room : ℕ → Bool} {n : N}
    {s : S} (hact : ∀ a s, ∃ s', act a s = .returned s') :
    Ends act body room 0 n s ↔ Acc (flip (Calls body)) n ∨ ∃ depth, room depth = false := by
  refine ⟨?_, fun h => ends_of_acc_or_no_room h s⟩
  rintro ⟨fuel, hrun⟩
  by_cases hroom : ∃ depth, room depth = false
  · exact .inr hroom
  · obtain ⟨o, ho⟩ := Option.isSome_iff_exists.mp hrun
    exact .inl (acc_of_run hact (by simpa using hroom) ho)

end Subroutines
