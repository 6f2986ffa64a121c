import Mathlib.Logic.Function.Basic
import Mathlib.Tactic.IntervalCases

/-!
# Byte memories and little-endian words

A memory is a function from 64-bit addresses to bytes. A word is the eight bytes from an address
on, the lowest byte first; addresses wrap around. Reading a word, replacing its lowest byte and
writing it back changes that one byte and no other (`writeWord_setLow`). A word that is written is
read back (`readWord_writeWord`), and words apart from it are not changed.
-/

namespace Words

/-- A memory of bytes. -/
abbrev Memory := BitVec 64 → BitVec 8

/-- The `i`-th byte of a word. -/
def byteAt (w : BitVec 64) (i : ℕ) : BitVec 8 := w.extractLsb' (8 * i) 8

/-- The eight bytes from `a` on. -/
def readWord (m : Memory) (a : BitVec 64) : BitVec 64 :=
  m (a + 7) ++ m (a + 6) ++ m (a + 5) ++ m (a + 4) ++ m (a + 3) ++ m (a + 2) ++ m (a + 1) ++ m a

/-- The memory after the eight bytes from `a` on are overwritten. -/
def writeWord (m : Memory) (a w : BitVec 64) : Memory :=
  fun x => if x - a < 8 then byteAt w (x - a).toNat else m x

/-- A word with its lowest byte replaced. -/
def setLow (w : BitVec 64) (b : BitVec 8) : BitVec 64 := (w &&& ~~~0xff#64) ||| b.setWidth 64

/-- A word is its eight bytes. -/
theorem readWord_congr {m m' : Memory} {a : BitVec 64}
    (h : ∀ i < 8, m (a + BitVec.ofNat 64 i) = m' (a + BitVec.ofNat 64 i)) :
    readWord m a = readWord m' a := by
  have hlow : m a = m' a := by simpa using h 0 (by decide)
  unfold readWord
  rw [hlow, show m (a + 1) = _ from h 1 (by decide), show m (a + 2) = _ from h 2 (by decide),
    show m (a + 3) = _ from h 3 (by decide), show m (a + 4) = _ from h 4 (by decide),
    show m (a + 5) = _ from h 5 (by decide), show m (a + 6) = _ from h 6 (by decide),
    show m (a + 7) = _ from h 7 (by decide)]
  rfl

theorem byteAt_readWord (m : Memory) (a : BitVec 64) {i : ℕ} (hi : i < 8) :
    byteAt (readWord m a) i = m (a + BitVec.ofNat 64 i) := by
  unfold byteAt readWord
  -- the byte lies in the low part of one append, and above those before
  interval_cases i <;>
    simp (disch := omega) only [BitVec.extractLsb'_append_eq_of_le,
      BitVec.extractLsb'_append_eq_of_add_le, BitVec.extractLsb'_eq_self, Nat.reduceMul,
      Nat.reduceSub]
  · rw [BitVec.add_zero]
  all_goals rfl

theorem setWidth_readWord (m : Memory) (a : BitVec 64) : (readWord m a).setWidth 8 = m a := by
  unfold readWord
  exact BitVec.setWidth_append_eq_right

theorem getLsbD_lowMask (n : ℕ) : (0xff#64).getLsbD n = decide (n < 8) := by
  by_cases hn : n < 8
  · interval_cases n <;> rfl
  · have h255 : Nat.testBit 255 n = false :=
      Nat.testBit_lt_two_pow (lt_of_lt_of_le (by norm_num : 255 < 2 ^ 8)
        (Nat.pow_le_pow_right (by norm_num) (by omega)))
    rw [BitVec.getLsbD_ofNat, h255, Bool.and_false, decide_eq_false hn]

theorem getLsbD_setLow (w : BitVec 64) (b : BitVec 8) (n : ℕ) :
    (setLow w b).getLsbD n = if n < 8 then b.getLsbD n else w.getLsbD n := by
  unfold setLow
  rw [BitVec.getLsbD_or, BitVec.getLsbD_and, BitVec.getLsbD_not, getLsbD_lowMask,
    BitVec.getLsbD_setWidth]
  split_ifs with hn
  · simp [hn, show n < 64 by omega]
  · have hb : b.getLsbD n = false := BitVec.getLsbD_of_ge _ _ (by omega)
    by_cases h64 : n < 64
    · simp [hn, hb, h64]
    · simp [hb, BitVec.getLsbD_of_ge w n (by omega)]

theorem byteAt_setLow_zero (w : BitVec 64) (b : BitVec 8) : byteAt (setLow w b) 0 = b := by
  unfold byteAt
  ext j hj
  rw [BitVec.getElem_extractLsb', getLsbD_setLow, if_pos (by omega),
    BitVec.getLsbD_eq_getElem (by omega)]
  simp

theorem byteAt_setLow_pos (w : BitVec 64) (b : BitVec 8) {i : ℕ} (h0 : i ≠ 0) :
    byteAt (setLow w b) i = byteAt w i := by
  unfold byteAt
  ext j hj
  rw [BitVec.getElem_extractLsb', BitVec.getElem_extractLsb', getLsbD_setLow, if_neg (by omega)]

/-- A word is where its distance from another one leads. -/
theorem add_distance (a b : BitVec 64) : a + BitVec.ofNat 64 (b - a).toNat = b := by
  rw [BitVec.ofNat_toNat, BitVec.setWidth_eq, BitVec.add_comm, BitVec.sub_add_cancel]

/-- Replacing the lowest byte of the word at `a` writes the byte at `a` and nothing else. -/
theorem writeWord_setLow (m : Memory) (a : BitVec 64) (b : BitVec 8) :
    writeWord m a (setLow (readWord m a) b) = Function.update m a b := by
  funext x
  unfold writeWord
  by_cases hx : x = a
  · subst hx
    simp [byteAt_setLow_zero]
  · rw [Function.update_of_ne hx]
    have hne : (x - a).toNat ≠ 0 := by
      intro h
      exact hx (BitVec.sub_eq_iff_eq_add.mp (BitVec.eq_of_toNat_eq (y := 0#64) h) |>.trans (by simp))
    split_ifs with hlt
    · have hlt' : (x - a).toNat < 8 := by simpa [BitVec.lt_def] using hlt
      rw [byteAt_setLow_pos _ _ hne, byteAt_readWord _ _ hlt', add_distance]
    · rfl

theorem add_sub_left (a b : BitVec 64) : a + b - a = b := by
  rw [BitVec.add_comm, BitVec.add_sub_cancel]

/-- Words with the same bytes are the same. -/
theorem eq_of_byteAt {w w' : BitVec 64} (h : ∀ i < 8, byteAt w i = byteAt w' i) : w = w' := by
  ext n hn
  have hb := congrArg (fun b : BitVec 8 => b.getLsbD (n % 8)) (h (n / 8) (by omega))
  simp only [byteAt, BitVec.getLsbD_extractLsb', Nat.div_add_mod] at hb
  simpa [Nat.mod_lt, BitVec.getLsbD_eq_getElem hn] using hb

/-- A word that was written is read back. -/
theorem readWord_writeWord (m : Memory) (a w : BitVec 64) : readWord (writeWord m a w) a = w := by
  refine eq_of_byteAt fun i hi => ?_
  rw [byteAt_readWord _ _ hi]
  have hlt : a + BitVec.ofNat 64 i - a < 8 := by rw [add_sub_left]; bv_omega
  unfold writeWord
  rw [if_pos hlt, add_sub_left]
  congr 1
  rw [BitVec.toNat_ofNat]
  omega

theorem writeWord_inside (m : Memory) (a w : BitVec 64) {i : ℕ} (hi : i < 8) :
    writeWord m a w (a + BitVec.ofNat 64 i) = byteAt w i := by
  have h := byteAt_readWord (writeWord m a w) a hi
  rw [readWord_writeWord] at h
  exact h.symm

theorem writeWord_outside {m : Memory} {a w x : BitVec 64}
    (h : ∀ i < 8, x ≠ a + BitVec.ofNat 64 i) : writeWord m a w x = m x := by
  refine if_neg fun hlt => h (x - a).toNat (by simpa [BitVec.lt_def] using hlt) ?_
  exact (add_distance a x).symm

/-- Words that are apart are not changed. -/
theorem readWord_writeWord_apart {m : Memory} {a x : BitVec 64} (w : BitVec 64)
    (h : ∀ i < 8, ¬x + BitVec.ofNat 64 i - a < 8) :
    readWord (writeWord m a w) x = readWord m x :=
  readWord_congr fun i hi => if_neg (h i hi)

end Words
