import Vdbg.Lib.Numerals
import Vdbg.Commands

/-!
# Texts

How the debugger prints a number, and how `break`, `delete`, `enable` and `disable` read an
argument. A text is the list of its bytes, with a `Char` for each.
-/

namespace Vdbg

open Numerals

/-! ## The C library -/

/-- `isspace` -/
def isSpace (c : Char) : Bool := c = ' ' || '\t'.toNat ≤ c.toNat && c.toNat ≤ '\r'.toNat

/-- The optional sign of a number, and whether it is a minus. -/
def skipSign : List Char → Bool × List Char
  | '-' :: str => (true, str)
  | '+' :: str => (false, str)
  | str => (false, str)

/-- The optional `0x` of base 16. -/
def skipPrefix (base : ℕ) : List Char → List Char
  | '0' :: x :: str => if base = 16 ∧ (x = 'x' ∨ x = 'X') then str else '0' :: x :: str
  | str => str

/-- What `strtol` and `strtoul` read: whether there is a minus, and the digits. -/
def readNumber (str : List Char) (base : ℕ) : Bool × ℕ :=
  let (minus, str) := skipSign (str.dropWhile isSpace)
  (minus, scan base 0 (skipPrefix base str))

/-- `strtoul`. A number that does not fit is `ULONG_MAX`, a minus negates one that does. -/
def strtoul (str : List Char) (base : ℕ) : BitVec 64 :=
  let (minus, n) := readNumber str base
  if 2 ^ 64 ≤ n then BitVec.allOnes 64
  else if minus then -BitVec.ofNat 64 n else BitVec.ofNat 64 n

/-- `strtol` in base 10, between `LONG_MIN` and `LONG_MAX`. -/
def strtol (str : List Char) : ℤ :=
  let (minus, n) := readNumber str 10
  if minus then max (-2 ^ 63) (-(n : ℤ)) else min (2 ^ 63 - 1) n

/-- `atoi`, which keeps the low 32 bits. -/
def atoi (str : List Char) : ℤ := (BitVec.ofInt 32 (strtol str)).toInt

/-- `strchr`: what comes before the first such character, and what comes after it. -/
def strchr (c : Char) : List Char → Option (List Char × List Char)
  | [] => none
  | x :: str => if x = c then some ([], str) else (strchr c str).map fun s => (x :: s.1, s.2)

/-- `strstr` -/
def strstr (str sub : List Char) : Bool := str.tails.any sub.isPrefixOf

/-- `%lu` -/
def fmtUnsigned (x : BitVec 64) : List Char := Nat.toDigits 10 x.toNat

/-- `%d` -/
def fmtInt (x : ℤ) : List Char :=
  if x < 0 then '-' :: Nat.toDigits 10 x.natAbs else Nat.toDigits 10 x.natAbs

/-- `%lx` -/
def fmtHex (x : BitVec 64) : List Char := Nat.toDigits 16 x.toNat

/-- `%#lx`, which has no `0x` on 0. -/
def fmtAltHex (x : BitVec 64) : List Char := if x = 0 then ['0'] else '0' :: 'x' :: fmtHex x

/-- `%08lx` for the width 8. -/
def fmtPadHex (width : ℕ) (x : BitVec 64) : List Char :=
  List.replicate (width - (fmtHex x).length) '0' ++ fmtHex x

/-! ## The arguments of commands -/

/-- `is_number`, which holds of the empty text. -/
def isNumber (str : List Char) : Bool := str.all Char.isDigit

/-- `arg[0] == '0' && arg[1] == 'x'` -/
def isHex : List Char → Bool
  | '0' :: 'x' :: _ => true
  | _ => false

/-- An argument as `cmd_break` reads it. -/
def parseBreakArg (arg : List Char) : BreakArg :=
  if isHex arg then .addr (strtoul arg 16)
  else if isNumber arg then .line none (atoi arg)
  else
    match strchr ':' arg with
    | some (file, lineno) => .line (some (.ofList file)) (atoi lineno)
    | none => .symbol (.ofList arg)

/-- An argument as `parse_arg_bp` reads it. -/
def parseBpArg (arg : List Char) : BpArg :=
  if isNumber arg then .id (strtoul arg 10)
  else if isHex arg then .key (.addr (strtoul arg 16))
  else
    match strchr ':' arg with
    | some (file, lineno) => .key (.lineno (.ofList file) (atoi lineno))
    | none => .key (.symbol (.ofList arg))

/-! ## Reading what was printed -/

section Reading

variable {str str' pre post : List Char} {c : Char} {x : BitVec 64}

theorem isNumber_iff : isNumber str = true ↔ AllDigits 10 str := by
  unfold isNumber AllDigits
  rw [List.all_eq_true]
  exact forall₂_congr fun c _ => by rw [isSome_digit_ten]

theorem isHex_iff : isHex str = true ↔ ['0', 'x'] <+: str := by
  unfold isHex
  constructor
  · intro h
    split at h
    · exact ⟨_, rfl⟩
    · cases h
  · rintro ⟨rest, rfl⟩
    rfl

theorem mem_of_isHex (h : isHex str = true) : 'x' ∈ str :=
  (isHex_iff.mp h).subset (List.mem_cons_of_mem _ List.mem_cons_self)

theorem skipSign_of_isDigit (h : c.isDigit) : skipSign (c :: str) = (false, c :: str) := by
  unfold skipSign
  split
  · rename_i he
    cases he
    cases h
  · rename_i he
    cases he
    cases h
  · rfl

theorem skipPrefix_ten : skipPrefix 10 str = str := by
  unfold skipPrefix
  split
  · exact if_neg fun hbase => absurd hbase.1 (by decide)
  · rfl

theorem isSpace_of_isDigit (h : c.isDigit) : isSpace c = false := by
  have hrange : '0'.toNat ≤ c.toNat := by
    simp only [Char.isDigit, Bool.and_eq_true, decide_eq_true_eq] at h
    exact h.1
  have hblank : c ≠ ' ' := by
    rintro rfl
    cases h
  have hcontrol : ¬ c.toNat ≤ '\r'.toNat := Nat.not_le.mpr (lt_of_lt_of_le (by decide) hrange)
  unfold isSpace
  rw [decide_eq_false hblank, decide_eq_false hcontrol, Bool.and_false, Bool.or_false]

/-- A text of digits has no blank and no sign in front. -/
theorem readNumber_digits (h : AllDigits 10 str) : readNumber str 10 = (false, scan 10 0 str) := by
  cases str with
  | nil => rfl
  | cons c str =>
    have hdigit := h c List.mem_cons_self
    rw [isSome_digit_ten] at hdigit
    unfold readNumber
    rw [List.dropWhile_cons_of_neg (by simp [isSpace_of_isDigit hdigit]),
      skipSign_of_isDigit hdigit]
    dsimp only
    rw [skipPrefix_ten]

theorem strtoul_of_readNumber {base : ℕ} (h : readNumber str base = (false, x.toNat)) :
    strtoul str base = x := by
  have hlt := x.isLt
  unfold strtoul
  rw [h]
  dsimp only
  rw [if_neg (by omega), if_neg Bool.false_ne_true]
  exact (x.ofNat_toNat 64).trans x.setWidth_eq

theorem strtoul_fmtUnsigned : strtoul (fmtUnsigned x) 10 = x := by
  apply strtoul_of_readNumber
  unfold fmtUnsigned
  rw [readNumber_digits (allDigits_toDigits (by decide) (by decide)),
    scan_toDigits (by decide) (by decide)]

theorem isNumber_fmtUnsigned : isNumber (fmtUnsigned x) = true :=
  isNumber_iff.mpr (allDigits_toDigits (by decide) (by decide))

/-- Zeros after the `0x` make no difference. -/
theorem strtoul_hex (m : ℕ) :
    strtoul ('0' :: 'x' :: (List.replicate m '0' ++ fmtHex x)) 16 = x := by
  have hread : readNumber ('0' :: 'x' :: (List.replicate m '0' ++ fmtHex x)) 16 =
      (false, scan 16 0 (List.replicate m '0' ++ fmtHex x)) := rfl
  apply strtoul_of_readNumber
  rw [hread, scan_zeros (by decide) (by decide), fmtHex, scan_toDigits (by decide) (by decide)]

/-- A number of an `int` is not changed. -/
theorem atoi_of_readNumber {minus : Bool} {n : ℕ} {z : ℤ}
    (hread : readNumber str 10 = (minus, n)) (hz : (if minus then -(n : ℤ) else n) = z)
    (hmin : -2 ^ 31 ≤ z) (hmax : z < 2 ^ 31) : atoi str = z := by
  have hlong : strtol str = z := by
    unfold strtol
    rw [hread]
    cases minus with
    | false =>
      rw [if_neg Bool.false_ne_true] at hz
      show min (2 ^ 63 - 1) (n : ℤ) = z
      omega
    | true =>
      rw [if_pos rfl] at hz
      show max (-2 ^ 63) (-(n : ℤ)) = z
      omega
  unfold atoi
  rw [hlong]
  exact BitVec.toInt_ofInt_eq_self (by decide) hmin hmax

theorem atoi_range : -2 ^ 31 ≤ atoi str ∧ atoi str < 2 ^ 31 :=
  ⟨BitVec.le_toInt _, BitVec.toInt_lt⟩

theorem readNumber_minus : readNumber ('-' :: str) 10 = (true, scan 10 0 str) :=
  congrArg (fun s => (true, scan 10 0 s)) skipPrefix_ten

theorem atoi_fmtInt {z : ℤ} (hmin : -2 ^ 31 ≤ z) (hmax : z < 2 ^ 31) : atoi (fmtInt z) = z := by
  have hdigits : AllDigits 10 (Nat.toDigits 10 z.natAbs) :=
    allDigits_toDigits (by decide) (by decide)
  have hscan : scan 10 0 (Nat.toDigits 10 z.natAbs) = z.natAbs :=
    scan_toDigits (by decide) (by decide)
  unfold fmtInt
  split_ifs with hneg
  · refine atoi_of_readNumber readNumber_minus ?_ hmin hmax
    rw [hscan, if_pos rfl]
    omega
  · refine atoi_of_readNumber (readNumber_digits hdigits) ?_ hmin hmax
    rw [hscan, if_neg Bool.false_ne_true]
    omega

/-- A number of an `int` that is cut is read as another one. -/
theorem atoi_cut {z : ℤ} (hmin : -2 ^ 31 ≤ z) (hmax : z < 2 ^ 31) (hz : z ≠ 0)
    (h : fmtInt z = pre ++ post) (hpost : post ≠ []) : atoi pre ≠ z := by
  have hne : z.natAbs ≠ 0 := by omega
  unfold fmtInt at h
  split_ifs at h with hneg
  · cases pre with
    | nil =>
      rw [atoi_of_readNumber (z := 0) (readNumber_digits fun c hc => by cases hc) rfl (by decide)
        (by decide)]
      exact hz.symm
    | cons c pre =>
      obtain ⟨rfl, htail⟩ := List.cons.inj h
      have hlt := scan_lt_of_append (by decide) (by decide) hne htail hpost
      rw [atoi_of_readNumber readNumber_minus (if_pos rfl) (by omega) (by omega)]
      omega
  · have hall : AllDigits 10 pre := fun c hc =>
      allDigits_toDigits (by decide) (by decide) c (h ▸ List.mem_append_left _ hc)
    have hlt := scan_lt_of_append (by decide) (by decide) hne h hpost
    rw [atoi_of_readNumber (readNumber_digits hall) (if_neg Bool.false_ne_true) (by omega)
      (by omega)]
    omega

theorem strchr_append (h : c ∉ pre) : strchr c (pre ++ c :: post) = some (pre, post) := by
  induction pre with
  | nil => exact if_pos rfl
  | cons x pre ih =>
    rw [List.cons_append, strchr, if_neg fun hx : x = c => h (hx ▸ List.mem_cons_self),
      ih fun hc => h (List.mem_cons_of_mem _ hc)]
    rfl

theorem strchr_eq_none (h : c ∉ str) : strchr c str = none := by
  induction str with
  | nil => rfl
  | cons x str ih =>
    rw [strchr, if_neg fun hx : x = c => h (hx ▸ List.mem_cons_self),
      ih fun hc => h (List.mem_cons_of_mem _ hc)]
    rfl

theorem strchr_eq_some (h : strchr c str = some (pre, post)) :
    str = pre ++ c :: post ∧ c ∉ pre := by
  induction str generalizing pre with
  | nil => cases h
  | cons x str ih =>
    rw [strchr] at h
    split_ifs at h with hx
    · cases h
      exact ⟨by rw [hx]; rfl, List.not_mem_nil⟩
    · obtain ⟨s, hs, he⟩ := Option.map_eq_some_iff.mp h
      cases he
      obtain ⟨rfl, hc⟩ := ih hs
      exact ⟨rfl, fun hmem => (List.mem_cons.mp hmem).elim (fun he => hx he.symm) hc⟩

end Reading

end Vdbg
