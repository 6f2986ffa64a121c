import Mathlib.Data.List.Basic

/-!
# Linear search

Two tests on the elements of a list, one of which is finer. The searches for the first element agree
exactly when no element that passes only the coarse test comes before the fine ones
(`find?_eq_find?_iff`).
-/

namespace Search

variable {α : Type*} {p q : α → Bool} {l : List α}

/-- Elements that pass only the coarse test come after one that passes both. -/
def Guarded (p q : α → Bool) (l : List α) : Prop :=
  ∀ pre a post, l = pre ++ a :: post → q a = true → p a = false → ∃ b ∈ pre, p b = true

theorem Guarded.of_forall (h : ∀ a ∈ l, q a = true → p a = true) : Guarded p q l := by
  rintro pre a post rfl hq hp
  have := h a (by simp) hq
  rw [hp] at this
  cases this

theorem guarded_cons_of_pos {a : α} (hp : p a = true) : Guarded p q (a :: l) := by
  rintro (_ | ⟨b, pre⟩) c post hl - hc
  · obtain ⟨rfl, -⟩ := List.cons.inj hl
    rw [hp] at hc
    cases hc
  · obtain ⟨rfl, -⟩ := List.cons.inj hl
    exact ⟨a, List.mem_cons_self, hp⟩

theorem guarded_cons_of_neg {a : α} (hp : p a = false) :
    Guarded p q (a :: l) ↔ q a = false ∧ Guarded p q l := by
  constructor
  · intro h
    constructor
    · by_contra hq
      obtain ⟨b, hb, -⟩ := h [] a l rfl (by simpa using hq) hp
      cases hb
    · rintro pre c post rfl hq hc
      obtain ⟨b, hb, hpb⟩ := h (a :: pre) c post rfl hq hc
      rcases List.mem_cons.mp hb with rfl | hb
      · rw [hp] at hpb
        cases hpb
      · exact ⟨b, hb, hpb⟩
  · rintro ⟨hq, h⟩ (_ | ⟨b, pre⟩) c post hl hqc hc
    · obtain ⟨rfl, -⟩ := List.cons.inj hl
      rw [hq] at hqc
      cases hqc
    · obtain ⟨rfl, rfl⟩ := List.cons.inj hl
      obtain ⟨d, hd, hpd⟩ := h pre c post rfl hqc hc
      exact ⟨d, List.mem_cons_of_mem _ hd, hpd⟩

/-- The search by the coarse test finds what the search by the fine one finds. -/
theorem find?_eq_find?_iff (hpq : ∀ a ∈ l, p a = true → q a = true) :
    l.find? q = l.find? p ↔ Guarded p q l := by
  induction l with
  | nil => exact iff_of_true rfl (.of_forall fun a ha => by cases ha)
  | cons a l ih =>
    have hrest := ih fun b hb => hpq b (List.mem_cons_of_mem _ hb)
    rw [List.find?_cons, List.find?_cons]
    cases hp : p a with
    | true =>
      rw [hpq a List.mem_cons_self hp]
      exact iff_of_true rfl (guarded_cons_of_pos hp)
    | false =>
      rw [guarded_cons_of_neg hp]
      cases hq : q a with
      | true =>
        refine iff_of_false (fun h => ?_) fun h => Bool.noConfusion h.1
        have hfound := List.find?_some h.symm
        rw [hp] at hfound
        cases hfound
      | false => simpa using hrest

end Search
