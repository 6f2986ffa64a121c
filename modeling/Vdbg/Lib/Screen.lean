import Mathlib.Logic.Function.Basic
import Mathlib.Data.List.Basic

/-!
# Screens

What text leaves on a screen as wide as its rows. A character fills a cell, in the ink that was
chosen last, and a space leaves it blank. A newline begins a row, and a carriage return, a tab and a
backspace move in it, so that later text replaces earlier one (`Row.draw_erase`). Two screens show
the same if they do in every cell, whatever blank rows follow (`shown_eq_iff`).
-/

namespace Screen

variable {C : Type*}

/-- What is written: a character, or another ink. -/
inductive Mark (C : Type*) where
  | char (c : Char)
  | ink (color : C)

/-- Characters one after the other. -/
def text (cs : List Char) : List (Mark C) := cs.map .char

/-- The cells of a row, blank if there is none, and where and how the next one is filled. -/
structure Row (C : Type*) where
  cells : ℕ → Option (Char × C)
  col : ℕ
  ink : C

/-- A row before anything is written. -/
def Row.blank (ink : C) : Row C := ⟨fun _ => none, 0, ink⟩

/-- A character in an ink. -/
def glyph (ink : C) (c : Char) : Option (Char × C) := if c = ' ' then none else some (c, ink)

def Row.put (r : Row C) (c : Char) : Row C :=
  { r with cells := Function.update r.cells r.col (glyph r.ink c), col := r.col + 1 }

/-- An item other than a newline. The tab stops are 8 cells apart. -/
def Row.step (r : Row C) : Mark C → Row C
  | .ink color => { r with ink := color }
  | .char '\r' => { r with col := 0 }
  | .char '\t' => { r with col := (r.col / 8 + 1) * 8 }
  | .char '\x08' => { r with col := r.col - 1 }
  | .char c => r.put c

def Row.draw (r : Row C) (xs : List (Mark C)) : Row C := xs.foldl Row.step r

end Screen

/-- The rows that are complete, and the one that is written to. -/
structure Screen (C : Type*) where
  above : List (ℕ → Option (Char × C))
  row : Screen.Row C

namespace Screen

variable {C : Type*}

def step (s : Screen C) : Mark C → Screen C
  | .char '\n' => ⟨s.above ++ [s.row.cells], .blank s.row.ink⟩
  | x => { s with row := s.row.step x }

def draw (s : Screen C) (xs : List (Mark C)) : Screen C := xs.foldl step s

/-- What a screen shows in a cell. -/
def shown (s : Screen C) (r c : ℕ) : Option (Char × C) :=
  (s.above ++ [s.row.cells])[r]?.bind (· c)

section Rows

variable {r : Row C} {xs ys : List (Mark C)} {cs : List Char} {ink : C} {n c : ℕ}

theorem Row.draw_append : r.draw (xs ++ ys) = (r.draw xs).draw ys := List.foldl_append

theorem Row.draw_cons {x : Mark C} : r.draw (x :: xs) = (r.step x).draw xs := rfl

/-- A character that fills a cell. -/
def Plain (c : Char) : Prop := c ≠ '\n' ∧ c ≠ '\r' ∧ c ≠ '\t' ∧ c ≠ '\x08'

theorem Row.step_plain {x : Char} (h : Plain x) : r.step (.char x) = r.put x := by
  obtain ⟨-, hcr, htab, hback⟩ := h
  unfold Row.step
  split
  · rename_i he; cases he
  · rename_i he; cases he; exact absurd rfl hcr
  · rename_i he; cases he; exact absurd rfl htab
  · rename_i he; cases he; exact absurd rfl hback
  · rename_i he; cases he; rfl

/-- Characters fill the cells from the cursor on. -/
theorem Row.draw_plain (h : ∀ x ∈ cs, Plain x) :
    r.draw (text cs) = ⟨fun c => if r.col ≤ c ∧ c < r.col + cs.length then
      cs[c - r.col]?.bind (glyph r.ink) else r.cells c, r.col + cs.length, r.ink⟩ := by
  induction cs generalizing r with
  | nil =>
    refine congrArg (Row.mk · r.col r.ink) (funext fun c => ?_)
    exact (if_neg fun h => absurd h.2 (Nat.not_lt.mpr h.1)).symm
  | cons x cs ih =>
    obtain ⟨hx, hcs⟩ := List.forall_mem_cons.mp h
    rw [show text (x :: cs) = .char x :: text cs from rfl, Row.draw_cons, Row.step_plain hx, ih hcs]
    have hlen : r.col + 1 + cs.length = r.col + (x :: cs).length := by
      rw [List.length_cons, Nat.add_assoc, Nat.add_comm 1]
    refine Row.mk.injEq .. ▸ ⟨funext fun c => ?_, hlen, rfl⟩
    show (if r.col + 1 ≤ c ∧ c < r.col + 1 + cs.length then _ else
      Function.update r.cells r.col (glyph r.ink x) c) = _
    rw [hlen]
    rcases Nat.lt_trichotomy c r.col with hlt | rfl | hgt
    · rw [if_neg (by omega), if_neg (by omega), Function.update_of_ne (Nat.ne_of_lt hlt)]
    · rw [if_neg (by omega), if_pos (by simp), Function.update_self, Nat.sub_self]
      rfl
    · obtain ⟨j, rfl⟩ := Nat.exists_eq_add_of_lt hgt
      rw [show r.col + j + 1 - r.col = j + 1 by omega,
        show r.col + j + 1 - (r.put x).col = j from (by omega : r.col + j + 1 - (r.col + 1) = j),
        Function.update_of_ne (by omega)]
      refine if_congr ⟨fun h => ⟨by omega, h.2⟩, fun h => ⟨by omega, h.2⟩⟩ rfl rfl

/-- Blanks behind a carriage return. -/
theorem Row.draw_erase (r : Row C) (n : ℕ) :
    (r.draw (.char '\r' :: text (List.replicate n ' '))).cells =
      fun c => if c < n then none else r.cells c := by
  have hplain : ∀ x ∈ List.replicate n ' ', Plain x := by
    intro x hx
    rw [List.eq_of_mem_replicate hx]
    unfold Plain
    decide
  rw [Row.draw_cons, Row.draw_plain hplain]
  funext c
  show (if 0 ≤ c ∧ c < 0 + (List.replicate n ' ').length then _ else r.cells c) = _
  rw [List.length_replicate, Nat.zero_add]
  by_cases hc : c < n
  · rw [if_pos ⟨Nat.zero_le c, hc⟩, if_pos hc]
    show (List.replicate n ' ')[c - 0]?.bind _ = none
    rw [Nat.sub_zero, List.getElem?_replicate, if_pos hc]
    rfl
  · rw [if_neg (by omega), if_neg hc]

end Rows

section Screens

variable {s : Screen C} {xs ys : List (Mark C)} {above : List (ℕ → Option (Char × C))}
  {cells cells' : ℕ → Option (Char × C)} {ink ink' : C}

theorem draw_append : s.draw (xs ++ ys) = (s.draw xs).draw ys := List.foldl_append

/-- Without a newline, only one row is written to. -/
theorem draw_row (h : .char '\n' ∉ xs) : s.draw xs = ⟨s.above, s.row.draw xs⟩ := by
  induction xs generalizing s with
  | nil => rfl
  | cons x xs ih =>
    obtain ⟨hx, hxs⟩ := not_or.mp (mt List.mem_cons.mpr h)
    have hstep : s.step x = ⟨s.above, s.row.step x⟩ := by
      unfold step
      split
      · exact absurd rfl hx
      · rfl
    show (s.step x).draw xs = _
    rw [hstep, ih hxs]
    rfl

theorem newline_notMem_text {cs : List Char} (h : '\n' ∉ cs) : (.char '\n' : Mark C) ∉ text cs := by
  intro hmem
  obtain ⟨c, hc, he⟩ := List.mem_map.mp hmem
  cases he
  exact h hc

theorem draw_newline : s.draw (xs ++ [.char '\n']) =
    ⟨(s.draw xs).above ++ [(s.draw xs).row.cells], .blank (s.draw xs).row.ink⟩ :=
  draw_append

/-- Rows that end in another one show the same if that does. -/
theorem shown_eq_iff :
    shown ⟨above ++ [cells], .blank ink⟩ = shown ⟨above ++ [cells'], .blank ink'⟩ ↔
      cells = cells' := by
  refine ⟨fun h => funext fun c => ?_, fun h => ?_⟩
  · have hrow := congrFun (congrFun h above.length) c
    simpa [shown] using hrow
  · subst h
    rfl

/-- A blank row shows nothing. -/
theorem shown_blank :
    shown ⟨above, .blank ink⟩ = shown ⟨above ++ [fun _ => none], .blank ink'⟩ := by
  funext r c
  show (above ++ [fun _ => none])[r]?.bind (· c) =
    ((above ++ [fun _ => none]) ++ [fun _ => none])[r]?.bind (· c)
  by_cases hr : r < (above ++ [fun _ => none]).length
  · rw [List.getElem?_append_left hr]
  · rw [List.getElem?_append_right (Nat.le_of_not_lt hr),
      List.getElem?_eq_none (Nat.le_of_not_lt hr)]
    cases r - (above ++ [fun _ => none]).length with
    | zero => rfl
    | succ k => rfl

end Screens

end Screen
