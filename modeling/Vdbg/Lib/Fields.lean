import Mathlib.Data.List.TakeWhile

/-!
# Fields of a text

`fields sep xs` are the longest runs of `xs` without a separator, those of no element left out. They
are read from the front: separators are skipped, and a field ends at the next one (`fields_eq`).
-/

namespace Fields

variable {α : Type*} [DecidableEq α] {sep : α} {xs ys : List α}

/-- The parts of `xs` between separators that are not empty, in order. -/
def fields (sep : α) (xs : List α) : List (List α) :=
  (xs.splitOn sep).filter fun ys => !ys.isEmpty

theorem fields_nil : fields sep [] = [] := by
  unfold fields
  rw [List.splitOn_nil]
  rfl

/-- A separator in front makes no field. -/
theorem fields_sep : fields sep (sep :: xs) = fields sep xs := by
  unfold fields
  rw [← List.nil_append (sep :: xs), List.splitOn_append_cons_self_of_not_mem List.not_mem_nil,
    List.filter_cons_of_neg (by simp)]

/-- What is left after the separators in front does not begin with one. -/
theorem ne_of_dropWhile {x : α} (h : xs.dropWhile (· = sep) = x :: ys) : x ≠ sep := by
  have hnot := List.head?_dropWhile_not (fun x => decide (x = sep)) xs
  rw [h] at hnot
  simpa using hnot

theorem fields_dropWhile : fields sep (xs.dropWhile (· = sep)) = fields sep xs := by
  induction xs with
  | nil => rfl
  | cons x xs ih =>
    by_cases hx : x = sep
    · rw [List.dropWhile_cons_of_pos (by simpa using hx), ih, hx, fields_sep]
    · rw [List.dropWhile_cons_of_neg (by simpa using hx)]

theorem fields_singleton (hxs : xs ≠ []) (hsep : sep ∉ xs) : fields sep xs = [xs] := by
  unfold fields
  rw [List.splitOn_eq_singleton hsep, List.filter_cons_of_pos (by simpa using hxs), List.filter_nil]

theorem fields_append (hxs : xs ≠ []) (hsep : sep ∉ xs) :
    fields sep (xs ++ sep :: ys) = xs :: fields sep ys := by
  unfold fields
  rw [List.splitOn_append_cons_self_of_not_mem hsep, List.filter_cons_of_pos (by simpa using hxs)]

theorem not_mem_takeWhile : sep ∉ xs.takeWhile (· ≠ sep) := fun h => by
  simpa using List.mem_takeWhile_imp h

/-- What is left after the first field, without the separator that ends it. -/
def afterField (sep : α) (xs : List α) : List α := (xs.dropWhile (· ≠ sep)).drop 1

theorem length_afterField_le : (afterField sep xs).length ≤ xs.length := by
  unfold afterField
  rw [List.length_drop]
  have hle := (List.dropWhile_suffix (p := (· ≠ sep)) (l := xs)).length_le
  omega

theorem afterField_cons {x : α} (hx : x ≠ sep) : afterField sep (x :: xs) = afterField sep xs := by
  unfold afterField
  rw [List.dropWhile_cons_of_pos (by simpa using hx)]

/-- The first field of a text that does not begin with a separator, and the others. -/
theorem fields_eq {x : α} (hx : x ≠ sep) :
    fields sep (x :: xs) =
      (x :: xs).takeWhile (· ≠ sep) :: fields sep (afterField sep (x :: xs)) := by
  have hfirst : (x :: xs).takeWhile (· ≠ sep) ≠ [] := by
    rw [List.takeWhile_cons_of_pos (by simpa using hx)]
    exact List.cons_ne_nil _ _
  have happend := List.takeWhile_append_dropWhile (p := (· ≠ sep)) (l := x :: xs)
  unfold afterField
  cases hrest : (x :: xs).dropWhile (· ≠ sep) with
  | nil =>
    rw [hrest, List.append_nil] at happend
    rw [happend] at hfirst ⊢
    rw [List.drop_nil, fields_nil]
    exact fields_singleton hfirst (happend ▸ not_mem_takeWhile)
  | cons y ys =>
    have hy : y = sep := by
      have hnot := List.head?_dropWhile_not (fun x => decide (x ≠ sep)) (x :: xs)
      rw [hrest] at hnot
      simpa using hnot
    subst hy
    rw [List.drop_one, List.tail_cons]
    calc fields y (x :: xs)
        = fields y ((x :: xs).takeWhile (· ≠ y) ++ y :: ys) := by rw [← hrest, happend]
      _ = _ := fields_append hfirst not_mem_takeWhile

end Fields
