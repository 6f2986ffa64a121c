import Mathlib.Data.List.Count

/-!
# A memo of answers

Questions that are answered with `fresh` the first time and with `stored` from then on. The answers
are all fresh exactly when the two agree on every question that is asked twice.
-/

namespace Memo

variable {κ β : Type*} [BEq κ]

/-- The answers to some questions, after those that were `seen`. -/
def answers (fresh stored : κ → β) : List κ → List κ → List β
  | _, [] => []
  | seen, k :: ks =>
    (if seen.elem k then stored k else fresh k) :: answers fresh stored (k :: seen) ks

/-- Every answer is fresh or stored. -/
theorem answers_forall₂ (fresh stored : κ → β) (seen ks : List κ) :
    List.Forall₂ (fun k b => b = fresh k ∨ b = stored k) ks (answers fresh stored seen ks) := by
  induction ks generalizing seen with
  | nil => exact .nil
  | cons k ks ih =>
    refine .cons ?_ (ih (k :: seen))
    split_ifs
    · exact .inr rfl
    · exact .inl rfl

variable [LawfulBEq κ] {fresh stored : κ → β} {seen ks : List κ}

/-- Being asked again, from the second of the questions on. -/
theorem repeated_cons_iff {k : κ} {P : κ → Prop} :
    (∀ k' ∈ k :: ks, (k' ∈ seen ∨ 2 ≤ (k :: ks).count k') → P k') ↔
      (k ∈ seen → P k) ∧ ∀ k' ∈ ks, (k' ∈ k :: seen ∨ 2 ≤ ks.count k') → P k' := by
  constructor
  · intro h
    refine ⟨fun hk => h k List.mem_cons_self (.inl hk), fun k' hk' hagain => ?_⟩
    refine h k' (List.mem_cons_of_mem k hk') ?_
    rcases hagain with hseen | hcount
    · rcases List.mem_cons.mp hseen with rfl | hseen
      · have hpos := List.count_pos_iff.mpr hk'
        rw [List.count_cons_self]
        exact .inr (by omega)
      · exact .inl hseen
    · exact .inr (Nat.le_trans hcount List.count_le_count_cons)
  · rintro ⟨hhead, hrest⟩ k' hk' hagain
    by_cases heq : k' = k
    · subst heq
      rcases hagain with hseen | hcount
      · exact hhead hseen
      · rw [List.count_cons_self] at hcount
        have hmem : k' ∈ ks := List.count_pos_iff.mp (by omega)
        exact hrest k' hmem (.inl List.mem_cons_self)
    · have hmem := (List.mem_cons.mp hk').resolve_left heq
      refine hrest k' hmem (hagain.imp (List.mem_cons_of_mem k) fun hcount => ?_)
      rwa [List.count_cons_of_ne (Ne.symm heq)] at hcount

theorem answers_eq_map_iff_seen : answers fresh stored seen ks = ks.map fresh ↔
    ∀ k ∈ ks, (k ∈ seen ∨ 2 ≤ ks.count k) → stored k = fresh k := by
  induction ks generalizing seen with
  | nil => exact iff_of_true rfl (by simp)
  | cons k ks ih =>
    rw [repeated_cons_iff (P := fun k => stored k = fresh k), answers, List.map_cons, List.cons.injEq,
      ih]
    refine and_congr_left' ?_
    by_cases hk : k ∈ seen
    · rw [if_pos (List.elem_iff.mpr hk), imp_iff_right hk]
    · exact iff_of_true (if_neg (mt List.elem_iff.mp hk)) fun h => absurd h hk

/-- The answers are the fresh ones exactly when repeated questions have one answer. -/
theorem answers_eq_map_iff : answers fresh stored [] ks = ks.map fresh ↔
    ∀ k, 2 ≤ ks.count k → stored k = fresh k := by
  rw [answers_eq_map_iff_seen]
  constructor
  · intro h k hcount
    exact h k (List.count_pos_iff.mp (by omega)) (.inr hcount)
  · rintro h k - (hseen | hcount)
    · cases hseen
    · exact h k hcount

end Memo
