import Vdbg.Lib.Buffers
import Vdbg.Lib.Fields
import Vdbg.World

/-!
# Tokens

`split` of `util.c`, which cuts a command line at its blanks. The tokens are the fields of the line
(`split_eq`). Their array starts with room for 32 and is doubled before a token that does not fit,
but not before the `NULL` that ends them, so that it is written past the end after 32, 64, 128, …
tokens.
-/

namespace Vdbg

open Buffers Fields

/-- `strtok`: the next token, and the text after the delimiter that ends it. -/
def strtok (delim : Char) (str : List Char) : Option (List Char × List Char) :=
  match str.dropWhile (· = delim) with
  | [] => none
  | c :: rest => some ((c :: rest).takeWhile (· ≠ delim), afterField delim (c :: rest))

theorem strtok_length {delim : Char} {str token rest : List Char}
    (h : strtok delim str = some (token, rest)) : rest.length < str.length := by
  unfold strtok at h
  have hle := (List.dropWhile_suffix (p := (· = delim)) (l := str)).length_le
  split at h
  · cases h
  · rename_i c cs hdrop
    cases h
    rw [hdrop, List.length_cons] at hle
    rw [afterField_cons (ne_of_dropWhile hdrop)]
    exact lt_of_le_of_lt length_afterField_le hle

/-- `strtok` takes the fields of the text one after the other. -/
theorem fields_strtok (delim : Char) (str : List Char) : fields delim str =
    match strtok delim str with
    | none => []
    | some (token, rest) => token :: fields delim rest := by
  rw [← fields_dropWhile]
  unfold strtok
  cases hdrop : str.dropWhile (· = delim) with
  | nil => exact fields_nil
  | cons c cs => exact fields_eq (ne_of_dropWhile hdrop)

/-- The tokens of a line, and the `NULL` after them. -/
abbrev TokenList := Buffer (Option (List Char))

section Split

variable (realloc : ℕ → Bool)

/-- The array doubled when it is full, if there is memory for that. -/
def growTokens (tokens : TokenList) : Option TokenList :=
  if tokens.entries.length = tokens.cap then
    if realloc (tokens.cap * 2) then some tokens.double else none
  else some tokens

/-- The loop of `split`. -/
def splitLoop (delim : Char) (str : List Char) (tokens : TokenList) :
    Except Fault (Option TokenList) :=
  match _h : strtok delim str with
  | none => some <$> tokens.store .outOfBounds none
  | some (token, rest) =>
    match growTokens realloc tokens with
    | none => .ok none
    | some tokens => do splitLoop delim rest (← tokens.store .outOfBounds (some token))
termination_by str.length
decreasing_by exact strtok_length _h

/-- `split`. It returns no list where the memory does not suffice. -/
def split (delim : Char) (str : List Char) : Except Fault (Option TokenList) :=
  splitLoop realloc delim str (.alloc 32)

/-- The stores of `split` for these tokens. -/
def storeTokens : List (List Char) → TokenList → Except Fault (Option TokenList)
  | [], tokens => some <$> tokens.store .outOfBounds none
  | token :: rest, tokens =>
    match growTokens realloc tokens with
    | none => .ok none
    | some tokens => do storeTokens rest (← tokens.store .outOfBounds (some token))

theorem splitLoop_eq (delim : Char) (str : List Char) (tokens : TokenList) :
    splitLoop realloc delim str tokens = storeTokens realloc (fields delim str) tokens := by
  induction str, tokens using splitLoop.induct realloc delim with
  | case1 str tokens hnone =>
    rw [splitLoop, fields_strtok, hnone]
    rfl
  | case2 str tokens token rest hsome hgrow =>
    rw [splitLoop, fields_strtok, hsome]
    simp [storeTokens, hgrow]
  | case3 str tokens token rest hsome tokens' hgrow ih =>
    rw [splitLoop, fields_strtok, hsome]
    simp [storeTokens, hgrow, ih]

theorem split_eq (delim : Char) (str : List Char) :
    split realloc delim str = storeTokens realloc (fields delim str) (.alloc 32) :=
  splitLoop_eq realloc delim str _

variable {realloc} {tokens tokens' : TokenList} {token : List Char} {ts : List (List Char)}

theorem growTokens_of_lt (h : tokens.entries.length < tokens.cap) :
    growTokens realloc tokens = some tokens :=
  if_neg h.ne

theorem growTokens_of_full (h : tokens.entries.length = tokens.cap) :
    growTokens realloc tokens =
      if realloc (tokens.cap * 2) then some tokens.double else none :=
  if_pos h

variable (token ts) in
/-- A token is stored once there is room for it. -/
theorem storeTokens_cons (hgrow : growTokens realloc tokens = some tokens')
    (hlt : tokens'.entries.length < tokens'.cap) :
    ∃ b : TokenList, storeTokens realloc (token :: ts) tokens = storeTokens realloc ts b ∧
      b.cap = tokens'.cap ∧ b.entries = tokens'.entries ++ [some token] := by
  obtain ⟨b, hstore, hcap, hentries⟩ :=
    Buffer.store_of_lt Fault.outOfBounds (some token) hlt
  refine ⟨b, ?_, hcap, hentries⟩
  rw [storeTokens, hgrow]
  dsimp only
  rw [hstore]
  rfl

variable (realloc tokens ts) in
/-- The stores stay in bounds, and the list is complete, exactly when the number of entries is none
of the capacities from the present one on, and every array that the tokens need can be had. -/
theorem storeTokens_iff {j : ℕ} (hcap : tokens.cap = 32 * 2 ^ j) :
    (∃ b, storeTokens realloc ts tokens = .ok (some b) ∧
        b.entries = tokens.entries ++ (ts.map some ++ [none])) ↔
      (∀ k, j ≤ k → tokens.entries.length + ts.length ≠ 32 * 2 ^ k) ∧
      ∀ k, j ≤ k → 32 * 2 ^ k < tokens.entries.length + ts.length →
        realloc (32 * 2 ^ (k + 1)) = true := by
  have hdouble : ∀ k, 32 * 2 ^ (k + 1) = 32 * 2 ^ k * 2 := fun k => by rw [pow_succ, mul_assoc]
  induction ts generalizing tokens j with
  | nil =>
    have hmono : ∀ {k}, j ≤ k → tokens.cap ≤ 32 * 2 ^ k := fun hk => by
      rw [hcap]
      exact Nat.mul_le_mul_left 32 (Nat.pow_le_pow_right (by decide) hk)
    rw [List.length_nil, Nat.add_zero]
    rcases tokens.fits.lt_or_eq with hlt | hfull
    · obtain ⟨b, hstore, -, hentries⟩ :=
        Buffer.store_of_lt Fault.outOfBounds none hlt
      refine iff_of_true ⟨b, by rw [storeTokens, hstore]; rfl, hentries⟩ ⟨fun k hk => ?_, ?_⟩
      · exact (lt_of_lt_of_le hlt (hmono hk)).ne
      · intro k hk hlt'
        exact absurd (hmono hk) (by omega)
    · refine iff_of_false ?_ fun h => h.1 j le_rfl (hfull.trans hcap)
      rintro ⟨b, hb, -⟩
      rw [storeTokens, Buffer.store_of_full hfull] at hb
      cases hb
  | cons t ts ih =>
    rw [List.length_cons, ← Nat.add_assoc, Nat.add_right_comm]
    rcases tokens.fits.lt_or_eq with hlt | hfull
    · obtain ⟨b, hb, hbcap, hentries⟩ :=
        storeTokens_cons t ts (growTokens_of_lt hlt) hlt
      have hih := ih b (hbcap.trans hcap)
      rw [hentries, List.length_append, List.length_singleton, List.append_assoc] at hih
      rw [hb]
      exact hih
    · cases hmem : realloc (tokens.cap * 2) with
      | false =>
        refine iff_of_false ?_ fun h => ?_
        · rintro ⟨b, hb, -⟩
          rw [storeTokens, growTokens_of_full hfull, hmem] at hb
          cases hb
        · have hfail := h.2 j le_rfl (by omega)
          rw [hdouble, ← hcap, hmem] at hfail
          cases hfail
      | true =>
        have hpos : 0 < tokens.cap := by
          rw [hcap]
          exact Nat.mul_pos (by decide) (Nat.two_pow_pos j)
        have hgrow : growTokens realloc tokens = some tokens.double := by
          rw [growTokens_of_full hfull, hmem]
          rfl
        have hroom : tokens.double.entries.length < tokens.double.cap := by
          show tokens.entries.length < tokens.cap * 2
          omega
        obtain ⟨b, hb, hbcap, hentries⟩ := storeTokens_cons t ts hgrow hroom
        have hbcap' : b.cap = 32 * 2 ^ (j + 1) := by rw [hbcap, hdouble, ← hcap]; rfl
        have hlength : b.entries.length = tokens.entries.length + 1 := by
          rw [hentries, List.length_append]
          rfl
        have hih := ih b hbcap'
        rw [hlength, hentries, List.append_assoc] at hih
        rw [hb]
        -- at the capacity just left, the next token is there and the array was had
        refine hih.trans (and_congr ⟨fun h k hk => ?_, fun h k hk => h k (by omega)⟩
          ⟨fun h k hk => ?_, fun h k hk => h k (by omega)⟩)
        · rcases hk.eq_or_lt with rfl | hlt
          · omega
          · exact h k hlt
        · rcases hk.eq_or_lt with rfl | hlt
          · intro _
            rw [hdouble, ← hcap]
            exact hmem
          · exact h k hlt

/-- A line is split into its fields within bounds exactly when their number is none of 32, 64,
128, …, where the `NULL` after them has no room. -/
theorem split_within_bounds_iff (realloc : ℕ → Bool) (delim : Char) (str : List Char) :
    (∃ b, split realloc delim str = .ok (some b) ∧
        b.entries = (fields delim str).map some ++ [none]) ↔
      (∀ k, (fields delim str).length ≠ 32 * 2 ^ k) ∧
      ∀ k, 32 * 2 ^ k < (fields delim str).length → realloc (32 * 2 ^ (k + 1)) = true := by
  have h := storeTokens_iff realloc (.alloc 32) (fields delim str) (j := 0) rfl
  rw [split_eq]
  simpa [Buffer.alloc] using h

/-- A command with 31 arguments. -/
theorem split_thirty_two_tokens :
    split (fun _ => true) ' ' (List.replicate 32 "n ".toList).flatten = .error .outOfBounds := by
  rw [split_eq]
  rfl

end Split

end Vdbg
