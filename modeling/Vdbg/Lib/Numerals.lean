import Mathlib.Data.List.Basic
import Mathlib.Tactic.IntervalCases

/-!
# Numerals

A reader takes the digits of a base from the front of a text and stops at the first character that
is none. It gets back the number `Nat.toDigits` wrote (`scan_toDigits`), also behind zeros
(`scan_zeros`), and something smaller from a numeral that is cut (`scan_lt_of_append`).
-/

namespace Numerals

variable {b n d acc : ℕ} {c : Char} {cs ds : List Char}

/-- The value of a digit, with the letters of either case. -/
def value (c : Char) : Option ℕ :=
  if '0'.toNat ≤ c.toNat ∧ c.toNat ≤ '9'.toNat then some (c.toNat - '0'.toNat)
  else if 'a'.toNat ≤ c.toNat ∧ c.toNat ≤ 'f'.toNat then some (c.toNat - 'a'.toNat + 10)
  else if 'A'.toNat ≤ c.toNat ∧ c.toNat ≤ 'F'.toNat then some (c.toNat - 'A'.toNat + 10)
  else none

/-- A digit of the base. -/
def digit (b : ℕ) (c : Char) : Option ℕ := (value c).filter (· < b)

/-- The number that the digits at the front of the text continue. -/
def scan (b : ℕ) : ℕ → List Char → ℕ
  | acc, [] => acc
  | acc, c :: cs =>
    match digit b c with
    | some d => scan b (acc * b + d) cs
    | none => acc

/-- A text of digits alone. -/
def AllDigits (b : ℕ) (cs : List Char) : Prop := ∀ c ∈ cs, (digit b c).isSome

/-! ## One digit -/

theorem value_digitChar (hd : d < 16) : value d.digitChar = some d := by
  interval_cases d <;> decide

theorem digit_digitChar (hb : b ≤ 16) (hd : d < b) : digit b d.digitChar = some d := by
  unfold digit
  rw [value_digitChar (hd.trans_le hb)]
  exact Option.filter_some_pos (by simpa using hd)

theorem scan_cons (h : digit b c = some d) : scan b acc (c :: cs) = scan b (acc * b + d) cs := by
  rw [scan, h]

theorem scan_stop (h : digit b c = none) : scan b acc (c :: cs) = acc := by
  rw [scan, h]

/-- A decimal digit is what `Char.isDigit` accepts. -/
theorem isSome_digit_ten : (digit 10 c).isSome = c.isDigit := by
  have hdigit : c.isDigit = decide (48 ≤ c.toNat ∧ c.toNat ≤ 57) := by
    rw [Bool.decide_and]
    rfl
  rw [hdigit]
  unfold digit value
  have hzero : '0'.toNat = 48 := rfl
  have hnine : '9'.toNat = 57 := rfl
  rw [hzero, hnine]
  split_ifs with h0 ha hA
  · have hlt : c.toNat - 48 < 10 := by omega
    simp [h0, hlt]
  · simp [h0]
  · simp [h0]
  · simp [h0]

/-! ## Many digits -/

theorem AllDigits.not_mem (h : AllDigits b cs) (hc : digit b c = none) : c ∉ cs := by
  intro hmem
  have hsome := h c hmem
  rw [hc] at hsome
  cases hsome

theorem scan_append (h : AllDigits b cs) : scan b acc (cs ++ ds) = scan b (scan b acc cs) ds := by
  induction cs generalizing acc with
  | nil => rfl
  | cons c cs ih =>
    obtain ⟨d, hd⟩ := Option.isSome_iff_exists.mp (h c List.mem_cons_self)
    rw [List.cons_append, scan_cons hd, scan_cons hd,
      ih fun c hc => h c (List.mem_cons_of_mem _ hc)]

/-- More digits make the number no smaller. -/
theorem le_scan (hb : 0 < b) : acc ≤ scan b acc cs := by
  induction cs generalizing acc with
  | nil => exact le_rfl
  | cons c cs ih =>
    cases hd : digit b c with
    | none => rw [scan_stop hd]
    | some d =>
      rw [scan_cons hd]
      calc acc ≤ acc * b := Nat.le_mul_of_pos_right acc hb
        _ ≤ acc * b + d := Nat.le_add_right ..
        _ ≤ scan b (acc * b + d) cs := ih

theorem allDigits_toDigits (hb : 1 < b) (hb' : b ≤ 16) : AllDigits b (Nat.toDigits b n) := by
  induction n using Nat.strongRecOn with
  | ind n ih =>
    intro c hc
    rw [Nat.toDigits_eq_if hb] at hc
    split_ifs at hc with hn
    · obtain rfl := List.mem_singleton.mp hc
      rw [digit_digitChar hb' hn]
      rfl
    · rcases List.mem_append.mp hc with hc | hc
      · exact ih (n / b) (Nat.div_lt_self (by omega) hb) c hc
      · obtain rfl := List.mem_singleton.mp hc
        rw [digit_digitChar hb' (Nat.mod_lt n (by omega))]
        rfl

/-- What is written is read back. -/
theorem scan_toDigits (hb : 1 < b) (hb' : b ≤ 16) : scan b 0 (Nat.toDigits b n) = n := by
  induction n using Nat.strongRecOn with
  | ind n ih =>
    rw [Nat.toDigits_eq_if hb]
    split_ifs with hn
    · rw [scan_cons (digit_digitChar hb' hn), Nat.zero_mul, Nat.zero_add]
      rfl
    · rw [scan_append (allDigits_toDigits hb hb'), ih (n / b) (Nat.div_lt_self (by omega) hb),
        scan_cons (digit_digitChar hb' (Nat.mod_lt n (by omega)))]
      exact Nat.div_add_mod' n b

theorem scan_zeros (hb : 1 < b) (hb' : b ≤ 16) (m : ℕ) :
    scan b 0 (List.replicate m '0' ++ cs) = scan b 0 cs := by
  induction m with
  | zero => rfl
  | succ m ih =>
    have hzero : digit b '0' = some 0 := digit_digitChar (d := 0) hb' (by omega)
    rw [List.replicate_succ, List.cons_append, scan_cons hzero, Nat.zero_mul]
    exact ih

/-- A numeral that is cut is read as a smaller number, unless that is 0. -/
theorem scan_lt_of_append (hb : 1 < b) (hb' : b ≤ 16) (hn : n ≠ 0)
    (h : Nat.toDigits b n = cs ++ ds) (hds : ds ≠ []) : scan b 0 cs < n := by
  have hall := allDigits_toDigits (n := n) hb hb'
  rw [h] at hall
  have hn' := scan_toDigits (n := n) hb hb'
  rw [h, scan_append fun c hc => hall c (List.mem_append_left _ hc)] at hn'
  obtain ⟨c, ds, rfl⟩ := List.exists_cons_of_ne_nil hds
  obtain ⟨d, hd⟩ := Option.isSome_iff_exists.mp (hall c (by simp))
  rw [scan_cons hd] at hn'
  have hle : scan b 0 cs * b + d ≤ n := hn' ▸ le_scan (by omega)
  rcases Nat.eq_zero_or_pos (scan b 0 cs) with h0 | hpos
  · omega
  · have hgrow : scan b 0 cs < scan b 0 cs * b := Nat.lt_mul_iff_one_lt_right hpos |>.mpr hb
    omega

end Numerals
