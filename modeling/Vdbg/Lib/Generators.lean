import Mathlib.Data.List.Infix
import Vdbg.Lib.FaultRun

/-!
# Generators

A generator gives its items one after the other. It is called with the number of those it has given
so far, keeps its place in a state, and ends with a call that gives none. Where the first call sets
the state up and every call gives the first item that is left, the items collected are those that
were left when it was set up, whatever the state was before (`collect_restarting`). `scan` is the
loop of such a call over a table.
-/

namespace Generators

open FaultRun

variable {ε σ α β : Type}

/-- A call with a number: an item, if there is one, and the new state. -/
abbrev Generator (ε σ α : Type) := ℕ → σ → Except ε (Option α × σ)

/-- The items from a number on. `stuck` is the fault of a collection that is not given enough turns
to end. -/
def collect (stuck : ε) (gen : Generator ε σ α) : ℕ → ℕ → σ → Except ε (List α × σ)
  | 0, _, _ => .error stuck
  | turns + 1, n, s => do
    match ← gen n s with
    | (none, s) => return ([], s)
    | (some x, s) => (collect stuck gen turns (n + 1) s).map fun rest => (x :: rest.1, rest.2)

/-- A generator that sets its state up at the first call. -/
def restarting (init : σ → Except ε σ) (next : σ → Except ε (Option α × σ)) : Generator ε σ α :=
  fun n s => if n = 0 then init s >>= next else next s

section Collect

variable {stuck : ε} {gen : Generator ε σ α} {turns n : ℕ} {s s' : σ} {x : α} {xs : List α}

theorem collect_none (h : gen n s = .ok (none, s')) :
    collect stuck gen (turns + 1) n s = .ok ([], s') := by
  rw [collect, h]
  rfl

theorem collect_some (h : gen n s = .ok (some x, s')) :
    collect stuck gen (turns + 1) n s =
      (collect stuck gen turns (n + 1) s').map fun rest => (x :: rest.1, rest.2) := by
  rw [collect, h]
  rfl

theorem collect_error {e : ε} (h : gen n s = .error e) :
    collect stuck gen (turns + 1) n s = .error e := by
  rw [collect, h]
  rfl

variable {init : σ → Except ε σ} {next : σ → Except ε (Option α × σ)} {left : σ → List α}
  {Holds Ends : σ → Prop}

/-- Each call gives the first item that is left, and leaves the others. `Holds` is what the calls
keep as long as they give items, and `Ends` what the last call leaves. -/
theorem collect_of_left
    (hsome : ∀ s x xs, Holds s → left s = x :: xs →
      ∃ s', next s = .ok (some x, s') ∧ left s' = xs ∧ Holds s')
    (hnone : ∀ s, Holds s → left s = [] → ∃ s', next s = .ok (none, s') ∧ Ends s')
    (hs : Holds s) (hcall : gen n s' = next s) (hlater : ∀ n s, gen (n + 1) s = next s)
    (hturns : (left s).length < turns) :
    ∃ s₁, collect stuck gen turns n s' = .ok (left s, s₁) ∧ Ends s₁ := by
  generalize hxs : left s = xs at hturns
  induction xs generalizing turns n s s' with
  | nil =>
    obtain ⟨turns, rfl⟩ := Nat.exists_eq_succ_of_ne_zero (Nat.ne_of_gt hturns)
    obtain ⟨s₁, hnext, hends⟩ := hnone s hs hxs
    exact ⟨s₁, collect_none (hcall.trans hnext), hends⟩
  | cons x xs ih =>
    rw [List.length_cons] at hturns
    obtain ⟨turns, rfl⟩ := Nat.exists_eq_succ_of_ne_zero (Nat.ne_zero_of_lt hturns)
    obtain ⟨s₂, hnext, hleft, hs₂⟩ := hsome s x xs hs hxs
    obtain ⟨s₁, hrest, hends⟩ := ih hs₂ (hlater n s₂) hleft (Nat.lt_of_succ_lt_succ hturns)
    refine ⟨s₁, ?_, hends⟩
    rw [collect_some (hcall.trans hnext), hrest]
    rfl

variable (stuck left Holds) in
/-- Whatever the state was, the items are those that are left once it is set up. -/
theorem collect_restarting
    (hsome : ∀ s x xs, Holds s → left s = x :: xs →
      ∃ s', next s = .ok (some x, s') ∧ left s' = xs ∧ Holds s')
    (hnone : ∀ s, Holds s → left s = [] → ∃ s', next s = .ok (none, s') ∧ Ends s')
    (hinit : init s = .ok s') (hs : Holds s') (hturns : (left s').length < turns) :
    ∃ s₁, collect stuck (restarting init next) turns 0 s = .ok (left s', s₁) ∧ Ends s₁ := by
  refine collect_of_left hsome hnone hs ?_ (fun _ _ => rfl) hturns
  rw [restarting, if_pos rfl, hinit, ok_bind]

theorem collect_restarting_error {e : ε} (hinit : init s = .error e) :
    collect stuck (restarting init next) (turns + 1) 0 s = .error e :=
  collect_error (by rw [restarting, if_pos rfl, hinit, error_bind])

end Collect

/-! ## Tables -/

section Scan

variable (offer : α → Option β)

/-- The loop from a place on to the next entry that is offered, and the place behind it. -/
def scanFrom : List α → ℕ → Option β × ℕ
  | [], i => (none, i)
  | x :: xs, i =>
    match offer x with
    | some y => (some y, i + 1)
    | none => scanFrom xs (i + 1)

/-- The loop over a table from a place on. -/
def scan (table : List α) (i : ℕ) : Option β × ℕ := scanFrom offer (table.drop i) i

/-- What a table has to offer from a place on. -/
def offers (table : List α) (i : ℕ) : List β := (table.drop i).filterMap offer

variable {offer} {table : List α} {i : ℕ} {y : β} {ys : List β}

variable (offer) in
/-- The loop ends behind the entry, or behind the table. -/
theorem scanFrom_spec (rest : List α) (i : ℕ) (hdrop : table.drop i = rest) :
    match rest.filterMap offer with
    | [] => scanFrom offer rest i = (none, i + rest.length)
    | y :: ys => ∃ j, scanFrom offer rest i = (some y, j) ∧ j ≤ i + rest.length ∧
        offers offer table j = ys := by
  induction rest generalizing i with
  | nil => rfl
  | cons x rest ih =>
    have hnext : table.drop (i + 1) = rest := by
      rw [← List.drop_drop, hdrop, List.drop_succ_cons, List.drop_zero]
    unfold scanFrom
    cases hx : offer x with
    | some y =>
      rw [List.filterMap_cons_some hx]
      refine ⟨i + 1, rfl, by simp, ?_⟩
      rw [offers, hnext]
    | none =>
      rw [List.filterMap_cons_none hx, List.length_cons, Nat.add_comm rest.length, ← Nat.add_assoc]
      exact ih (i + 1) hnext

theorem scan_none (h : offers offer table i = []) (hi : i ≤ table.length) :
    scan offer table i = (none, table.length) := by
  have hspec := scanFrom_spec offer (table.drop i) i rfl
  rw [show (table.drop i).filterMap offer = [] from h, List.length_drop, Nat.add_sub_cancel' hi]
    at hspec
  exact hspec

theorem scan_some (h : offers offer table i = y :: ys) (hi : i ≤ table.length) :
    ∃ j, scan offer table i = (some y, j) ∧ j ≤ table.length ∧ offers offer table j = ys := by
  have hspec := scanFrom_spec offer (table.drop i) i rfl
  rw [show (table.drop i).filterMap offer = y :: ys from h, List.length_drop,
    Nat.add_sub_cancel' hi] at hspec
  exact hspec

theorem offers_zero : offers offer table 0 = table.filterMap offer := rfl

end Scan

end Generators
