import Mathlib.Algebra.Order.Group.Nat
import Mathlib.Data.List.Nodup
import Mathlib.Data.List.Perm.Basic

/-!
# Items in columns

The items `0, …, n - 1` fill the columns of a grid from the top, one column after the other, and are
read row by row. A row ends at its first cell without an item. If there is a cell for every item,
each of them is read once (`cells_perm`).
-/

namespace Columns

variable {n rows cols r i k c : ℕ}

/-- The items of a row in the next `k` columns from `c` on. -/
def row (n rows r : ℕ) : ℕ → ℕ → List ℕ
  | 0, _ => []
  | k + 1, c => if c * rows + r < n then (c * rows + r) :: row n rows r k (c + 1) else []

/-- Behind the first cell without an item there are no items. -/
theorem mem_row : i ∈ row n rows r k c ↔ ∃ c', c ≤ c' ∧ c' < c + k ∧ i = c' * rows + r ∧ i < n := by
  induction k generalizing c with
  | zero =>
    refine iff_of_false List.not_mem_nil ?_
    rintro ⟨c', hle, hlt, -⟩
    omega
  | succ k ih =>
    have hnext : (∃ c', c ≤ c' ∧ c' < c + (k + 1) ∧ i = c' * rows + r ∧ i < n) ↔
        i = c * rows + r ∧ i < n ∨
          ∃ c', c + 1 ≤ c' ∧ c' < c + 1 + k ∧ i = c' * rows + r ∧ i < n := by
      constructor
      · rintro ⟨c', hle, hlt, hi, hn⟩
        rcases hle.eq_or_lt with rfl | hlt'
        · exact .inl ⟨hi, hn⟩
        · exact .inr ⟨c', hlt', by omega, hi, hn⟩
      · rintro (⟨hi, hn⟩ | ⟨c', hle, hlt, hi, hn⟩)
        · exact ⟨c, le_rfl, by omega, hi, hn⟩
        · exact ⟨c', by omega, by omega, hi, hn⟩
    rw [hnext, row]
    split_ifs with hitem
    · rw [List.mem_cons, ih]
      refine or_congr ?_ Iff.rfl
      exact ⟨fun hi => ⟨hi, hi ▸ hitem⟩, And.left⟩
    · refine iff_of_false List.not_mem_nil ?_
      rintro (⟨rfl, hn⟩ | ⟨c', hle, -, rfl, hn⟩)
      · exact hitem hn
      · have hmono : c * rows ≤ c' * rows := Nat.mul_le_mul_right rows (by omega)
        omega

theorem nodup_row (hrows : 0 < rows) : (row n rows r k c).Nodup := by
  induction k generalizing c with
  | zero => exact List.nodup_nil
  | succ k ih =>
    rw [row]
    split_ifs
    · refine List.nodup_cons.mpr ⟨fun hmem => ?_, ih⟩
      obtain ⟨c', hle, -, heq, -⟩ := mem_row.mp hmem
      have hlt : c * rows < c' * rows := Nat.mul_lt_mul_of_pos_right hle hrows
      omega
    · exact List.nodup_nil

/-- The items of all rows, in the order in which they are read. -/
def cells (n rows cols : ℕ) : List ℕ := (List.range rows).flatMap fun r => row n rows r cols 0

theorem mem_cells (hroom : n ≤ cols * rows) : i ∈ cells n rows cols ↔ i < n := by
  unfold cells
  rw [List.mem_flatMap]
  constructor
  · rintro ⟨r, -, hi⟩
    obtain ⟨-, -, -, -, hn⟩ := mem_row.mp hi
    exact hn
  · intro hn
    have hcell : i < cols * rows := hn.trans_le hroom
    have hrows : 0 < rows := Nat.pos_of_mul_pos_left (Nat.zero_lt_of_lt hcell)
    refine ⟨i % rows, List.mem_range.mpr (Nat.mod_lt i hrows), mem_row.mpr ⟨i / rows, ?_⟩⟩
    refine ⟨Nat.zero_le _, ?_, (Nat.div_add_mod' i rows).symm, hn⟩
    rw [Nat.zero_add]
    exact Nat.div_lt_of_lt_mul (Nat.mul_comm cols rows ▸ hcell)

theorem nodup_cells : (cells n rows cols).Nodup := by
  unfold cells
  refine List.nodup_flatMap.mpr ⟨fun r hr => ?_, ?_⟩
  · exact nodup_row (Nat.zero_lt_of_lt (List.mem_range.mp hr))
  · refine List.nodup_range.imp_of_mem fun {r r'} hr hr' hne => ?_
    intro i hi hi'
    obtain ⟨c, -, -, rfl, -⟩ := mem_row.mp hi
    obtain ⟨c', -, -, heq, -⟩ := mem_row.mp hi'
    have hmod := congrArg (· % rows) heq
    simp only [Nat.mul_add_mod_self_right, Nat.mod_eq_of_lt (List.mem_range.mp hr),
      Nat.mod_eq_of_lt (List.mem_range.mp hr')] at hmod
    exact hne hmod

/-- Every item is read exactly once. -/
theorem cells_perm (hroom : n ≤ cols * rows) : (cells n rows cols).Perm (List.range n) := by
  refine (List.perm_ext_iff_of_nodup nodup_cells List.nodup_range).mpr fun i => ?_
  rw [mem_cells hroom, List.mem_range]

end Columns
