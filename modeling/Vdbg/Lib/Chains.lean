import Mathlib.Data.List.FinRange
import Mathlib.Data.List.Perm.Basic

/-!
# Chains of keyed entries

The chains of a hash table: walking one to a key (`find`), unlinking the entry with a key
(`unlink`), and the entries of a whole array of chains when one of them is replaced
(`flatMap_update_perm`).
-/

namespace Chains

/-- A link of a chain: a key and the object stored under it. -/
structure Entry (K V : Type*) where
  key : K
  obj : V
deriving DecidableEq, Repr

variable {K V : Type*} [DecidableEq K]

/-- The first entry with key `k`. -/
def find (k : K) : List (Entry K V) → Option (Entry K V)
  | [] => none
  | e :: es => if e.key = k then some e else find k es

/-- The chain without the first entry with key `k`. -/
def unlink (k : K) : List (Entry K V) → List (Entry K V)
  | [] => []
  | e :: es => if e.key = k then es else e :: unlink k es

@[simp] theorem find_nil (k : K) : find k ([] : List (Entry K V)) = none := rfl

theorem find_cons_self (e : Entry K V) (es : List (Entry K V)) : find e.key (e :: es) = some e :=
  if_pos rfl

theorem find_cons_ne {k : K} {e : Entry K V} (h : e.key ≠ k) (es : List (Entry K V)) :
    find k (e :: es) = find k es := if_neg h

theorem find_eq_none_iff {k : K} {c : List (Entry K V)} :
    find k c = none ↔ ∀ e ∈ c, e.key ≠ k := by
  induction c with
  | nil => simp
  | cons e es ih =>
    by_cases h : e.key = k
    · simp [find, h]
    · simp [find, h, ih]

theorem mem_of_find {k : K} {c : List (Entry K V)} {e : Entry K V} (h : find k c = some e) :
    e ∈ c ∧ e.key = k := by
  induction c with
  | nil => cases h
  | cons e' es ih =>
    unfold find at h
    split_ifs at h with hk
    · cases h; exact ⟨List.mem_cons_self, hk⟩
    · exact ⟨List.mem_cons_of_mem _ (ih h).1, (ih h).2⟩

theorem find_of_mem {c : List (Entry K V)} (hc : (c.map Entry.key).Nodup) {e : Entry K V}
    (he : e ∈ c) : find e.key c = some e := by
  induction c with
  | nil => cases he
  | cons e' es ih =>
    rw [List.map_cons, List.nodup_cons] at hc
    rcases List.mem_cons.mp he with rfl | he
    · exact find_cons_self e es
    · have hne : e'.key ≠ e.key := fun h => hc.1 (h ▸ List.mem_map_of_mem he)
      rw [find_cons_ne hne, ih hc.2 he]

theorem unlink_sublist (k : K) (c : List (Entry K V)) : (unlink k c).Sublist c := by
  induction c with
  | nil => exact .slnil
  | cons e es ih =>
    unfold unlink
    split_ifs
    · exact .cons _ (List.Sublist.refl _)
    · exact .cons_cons _ ih

/-- Unlinking takes out the entry the walk finds and no other. -/
theorem unlink_perm {k : K} {c : List (Entry K V)} {e : Entry K V} (h : find k c = some e) :
    c.Perm (e :: unlink k c) := by
  induction c with
  | nil => cases h
  | cons e' es ih =>
    unfold find at h
    split_ifs at h with hk
    · cases h
      rw [unlink, if_pos hk]
    · rw [unlink, if_neg hk]
      exact ((ih h).cons e').trans (.swap e e' _)

theorem find_unlink_self {k : K} {c : List (Entry K V)} (hc : (c.map Entry.key).Nodup) :
    find k (unlink k c) = none := by
  induction c with
  | nil => rfl
  | cons e es ih =>
    rw [List.map_cons, List.nodup_cons] at hc
    unfold unlink
    split_ifs with hk
    · rw [find_eq_none_iff]
      intro e' he' h
      exact hc.1 (hk.trans h.symm ▸ List.mem_map_of_mem he')
    · rw [find_cons_ne hk, ih hc.2]

theorem find_unlink_ne {k k' : K} (h : k' ≠ k) (c : List (Entry K V)) :
    find k' (unlink k c) = find k' c := by
  induction c with
  | nil => rfl
  | cons e es ih =>
    unfold unlink
    split_ifs with hk
    · rw [find_cons_ne (by rw [hk]; exact h.symm)]
    · by_cases hk' : e.key = k'
      · rw [← hk', find_cons_self, find_cons_self]
      · rw [find_cons_ne hk', find_cons_ne hk', ih]

/-- Replacing one chain of an array trades its entries for those of the new chain. -/
theorem flatMap_update_perm {ι β : Type*} [DecidableEq ι] (f : ι → List β) {is : List ι}
    (hn : is.Nodup) {i : ι} (hi : i ∈ is) (c : List β) :
    (is.flatMap (Function.update f i c) ++ f i).Perm (is.flatMap f ++ c) := by
  obtain ⟨l₁, l₂, rfl⟩ := List.append_of_mem hi
  have hmid := List.nodup_middle.mp hn
  rw [List.nodup_cons, List.mem_append, not_or] at hmid
  have off : ∀ l : List ι, i ∉ l → l.flatMap (Function.update f i c) = l.flatMap f := by
    intro l hl
    refine List.flatMap_congr fun j hj => Function.update_of_ne ?_ _ _
    rintro rfl
    exact hl hj
  simp only [List.flatMap_append, List.flatMap_cons, Function.update_self, off l₁ hmid.1.1,
    off l₂ hmid.1.2, List.append_assoc]
  refine List.Perm.append_left _ ?_
  calc (c ++ (l₂.flatMap f ++ f i)).Perm (l₂.flatMap f ++ f i ++ c) := List.perm_append_comm
    List.Perm _ (f i ++ l₂.flatMap f ++ c) := List.Perm.append_right _ List.perm_append_comm
    _ = f i ++ (l₂.flatMap f ++ c) := List.append_assoc _ _ _

end Chains
