import Mathlib.Data.List.Basic
import Vdbg.Lib.FaultRun
import Vdbg.World

/-!
# The arguments of the tracee

`args` of `debugger_t`: the block `execv` is given, its capacity, and the strings it points to.
Both loops of `add_arguments_for_tracee` rely on a NULL behind the last argument, which only the
`calloc` of `dbg_init` provides. Up to `MAX_ARGS - 2` arguments leave one of these in place; one
more fills the block, and beyond that the block grows by cells nothing has set
(`arguments_wellFormed_iff`).
-/

namespace Vdbg

open FaultRun

abbrev StrPtr := ℕ

/-- An entry of `args.list`. What `realloc` adds is not set. -/
inductive ArgCell where
  | unset
  | null
  | str (p : StrPtr)
deriving DecidableEq, Repr

/-- `args` of `debugger_t` with the strings `strdup` made and the ones that were freed. -/
structure ArgStore where
  list : List ArgCell
  listCapacity : ℕ
  strings : StrPtr → Option String
  nextStr : StrPtr
  freed : List StrPtr

/-- A store, or a fault with the store it struck in. -/
abbrev ArgRes (α : Type) := Except (Fault × ArgStore) α

/-- The fault a call ends in, unless it returns. -/
def ArgRes.fault? {α : Type} : ArgRes α → Option Fault
  | .ok _ => none
  | .error (f, _) => some f

/-- `MAX_ARGS` -/
def MAX_ARGS : ℕ := 50

/-- `args` after `dbg_init`. The name of the process is the string 0. -/
def argsInit (pname : String) : ArgStore where
  list := .str 0 :: List.replicate (MAX_ARGS - 1) .null
  listCapacity := MAX_ARGS
  strings := fun p => if p = 0 then some pname else none
  nextStr := 1
  freed := []

namespace ArgStore

variable (s : ArgStore)

/-- A read of `list[i]`, for a comparison or a `free`. -/
def get (i : ℕ) : ArgRes (Option StrPtr) :=
  match s.list[i]? with
  | none => .error (.outOfBounds, s)
  | some .unset => .error (.uninitialised, s)
  | some .null => .ok none
  | some (.str p) => .ok (some p)

/-- An assignment to `list[i]`. -/
def put (i : ℕ) (c : ArgCell) : ArgRes ArgStore :=
  if i < s.list.length then .ok { s with list := s.list.set i c } else .error (.outOfBounds, s)

/-- `free` of a string -/
def free (p : StrPtr) : ArgRes ArgStore :=
  match s.strings p with
  | none => .error (.useAfterFree, s)
  | some _ =>
    .ok { s with strings := Function.update s.strings p none, freed := s.freed ++ [p] }

/-- `strdup` -/
def strdup (a : String) : StrPtr × ArgStore :=
  (s.nextStr, { s with strings := Function.update s.strings s.nextStr (some a),
                       nextStr := s.nextStr + 1 })

/-- A `realloc` of the block that succeeds. -/
def realloc (newCap : ℕ) : ArgStore :=
  { s with list := s.list ++ List.replicate (newCap - s.list.length) .unset,
           listCapacity := newCap }

end ArgStore

/-- The loop of `add_arguments_for_tracee` that clears the arguments, for a number of turns. -/
def clearArguments : ℕ → ArgStore → ℕ → ArgRes ArgStore
  | 0, s, _ => .error (.blocked, s)
  | fuel + 1, s, i => do
    match ← s.get i with
    | none => return s
    | some p =>
      let s ← s.free p
      let s ← s.put i .null
      clearArguments fuel s (i + 1)

/-- The loop of `add_arguments_for_tracee` that appends the arguments. `allocs` tells whether a
`realloc` to so many cells succeeds. -/
def appendArguments (allocs : ℕ → Bool) (s : ArgStore) (i : ℕ) : List String → ArgRes ArgStore
  | [] => return s
  | a :: args =>
    if i = s.listCapacity ∧ allocs (i * 2) = false then return s
    else do
      let s := if i = s.listCapacity then s.realloc (i * 2) else s
      let (p, s) := s.strdup a
      let s ← s.put i (.str p)
      appendArguments allocs s (i + 1) args

/-- `add_arguments_for_tracee`, with what follows the command in `args_list`. A read past the end of
the block is the last turn of the first loop. -/
def addArgumentsForTracee (allocs : ℕ → Bool) (s : ArgStore) (args : List String) :
    ArgRes ArgStore := do
  appendArguments allocs (← clearArguments s.list.length s 1) 1 args

/-- The loop of `dbg_free` over the arguments. -/
def freeArguments : ℕ → ArgStore → ℕ → ArgRes ArgStore
  | 0, s, _ => .error (.blocked, s)
  | fuel + 1, s, i => do
    match ← s.get i with
    | none => return s
    | some p => freeArguments fuel (← s.free p) (i + 1)

/-- `arguments` commands, one after the other. -/
def argumentsCommands (allocs : ℕ → Bool) (s : ArgStore) (cs : List (List String)) :
    ArgRes ArgStore := cs.foldlM (addArgumentsForTracee allocs) s

/-! ## The vector for `execv` -/

/-- The vector holds the name, the arguments and a NULL below the capacity, and what is in no entry
was freed exactly once, what is in one was not. -/
structure WellFormed (pname : String) (args : List String) (s : ArgStore) : Prop where
  block : s.list.length = s.listCapacity
  name : s.list[0]? = some (.str 0) ∧ s.strings 0 = some pname
  argument : ∀ i a, args[i]? = some a →
    ∃ p, s.list[i + 1]? = some (.str p) ∧ s.strings p = some a
  terminated : s.list[args.length + 1]? = some .null
  kept : ∀ p, 0 < p → .str p ∈ s.list → s.freed.count p = 0
  freed : ∀ p, 0 < p → p < s.nextStr → .str p ∉ s.list → s.freed.count p = 1

/-- The block as the commands leave it: the arguments are the strings `ps`, and all that follows is
NULL. -/
structure Stored (pname : String) (ps : List StrPtr) (args : List String) (s : ArgStore) :
    Prop where
  list : ∃ r, s.list = .str 0 :: ps.map .str ++ .null :: List.replicate r .null
  capacity : s.list.length = s.listCapacity
  name : s.strings 0 = some pname
  strings : List.Forall₂ (fun p a => s.strings p = some a) ps args
  nodup : ps.Nodup
  bound : ∀ p ∈ ps, 0 < p ∧ p < s.nextStr
  kept : ∀ p ∈ ps, s.freed.count p = 0
  freed : ∀ p, 0 < p → p < s.nextStr → p ∉ ps → s.freed.count p = 1
  old : ∀ p ∈ s.freed, p < s.nextStr
  started : s.nextStr ≠ 0

/-- The loop of `dbg_free` frees what is left, and then each argument ever given was freed exactly
once. -/
def ArgStore.FreedAtExit (s : ArgStore) : Prop :=
  ∃ s', freeArguments s.list.length s 1 = .ok s' ∧
    ∀ p, 0 < p → p < s'.nextStr → s'.freed.count p = 1

section Loops

variable {s : ArgStore} {pre rest list : List ArgCell} {c : ArgCell} {ps : List StrPtr} {p : StrPtr}

theorem get_append (h : s.list = pre ++ c :: rest) : s.list[pre.length]? = some c := by
  rw [h, List.getElem?_append_right le_rfl, Nat.sub_self]
  rfl

theorem put_append (h : s.list = pre ++ c :: rest) (c' : ArgCell) :
    s.put pre.length c' = .ok { s with list := pre ++ c' :: rest } := by
  have hlt : pre.length < s.list.length := by rw [h]; simp
  have hset : s.list.set pre.length c' = pre ++ c' :: rest := by
    rw [h, List.set_append_right _ _ le_rfl, Nat.sub_self]
    rfl
  unfold ArgStore.put
  rw [if_pos hlt, hset]

theorem free_live (h : (s.strings p).isSome) : s.free p =
    .ok { s with strings := Function.update s.strings p none, freed := s.freed ++ [p] } := by
  obtain ⟨a, ha⟩ := Option.isSome_iff_exists.mp h
  unfold ArgStore.free
  rw [ha]

/-- The strings `ps` are freed, and the block is `list`. -/
def ArgStore.clear (s : ArgStore) (ps : List StrPtr) (list : List ArgCell) : ArgStore :=
  { s with list, strings := ps.foldl (fun f p => Function.update f p none) s.strings,
           freed := s.freed ++ ps }

theorem clear_strings_of_not_mem (hp : p ∉ ps) : (s.clear ps list).strings p = s.strings p := by
  unfold ArgStore.clear
  induction ps generalizing s with
  | nil => rfl
  | cons q ps ih =>
    have hrest := ih (s := { s with strings := Function.update s.strings q none })
      (List.not_mem_of_not_mem_cons hp)
    simpa [Function.update_of_ne (List.ne_of_not_mem_cons hp)] using hrest

theorem clearArguments_eq {fuel : ℕ} (hlist : s.list = pre ++ (ps.map .str ++ .null :: rest))
    (hn : ps.Nodup) (hlive : ∀ p ∈ ps, (s.strings p).isSome) (hfuel : ps.length < fuel) :
    clearArguments fuel s pre.length =
      .ok (s.clear ps (pre ++ (List.replicate ps.length .null ++ .null :: rest))) := by
  induction ps generalizing s pre fuel with
  | nil =>
    obtain ⟨fuel, rfl⟩ := Nat.exists_eq_succ_of_ne_zero (Nat.ne_of_gt hfuel)
    have hget : s.get pre.length = .ok none := by
      unfold ArgStore.get
      rw [get_append hlist]
    have hsame : s.list = pre ++ .null :: rest := by simpa using hlist
    rw [clearArguments, hget, ok_bind]
    simp [ArgStore.clear, ← hsame, pure, Except.pure]
  | cons p ps ih =>
    obtain ⟨fuel, rfl⟩ := Nat.exists_eq_succ_of_ne_zero (Nat.ne_of_gt (Nat.zero_lt_of_lt hfuel))
    obtain ⟨hp, hps⟩ := List.nodup_cons.mp hn
    have hget : s.get pre.length = .ok (some p) := by
      unfold ArgStore.get
      rw [get_append hlist]
    set s₁ : ArgStore :=
      { s with strings := Function.update s.strings p none, freed := s.freed ++ [p] } with hs₁
    have hput : s₁.put pre.length .null =
        .ok { s₁ with list := pre ++ .null :: (ps.map .str ++ .null :: rest) } :=
      put_append (s := s₁) hlist _
    rw [clearArguments, hget, ok_bind]
    simp only
    rw [free_live (hlive p List.mem_cons_self), ok_bind, hput, ok_bind]
    set s₂ : ArgStore := { s₁ with list := pre ++ .null :: (ps.map .str ++ .null :: rest) } with hs₂
    have hlist₂ : s₂.list = (pre ++ [.null]) ++ (ps.map .str ++ .null :: rest) := by simp [hs₂]
    have hlive₂ : ∀ q ∈ ps, (s₂.strings q).isSome := by
      intro q hq
      have hne : q ≠ p := fun h => hp (h ▸ hq)
      simpa [hs₂, hs₁, Function.update_of_ne hne] using hlive q (List.mem_cons_of_mem _ hq)
    have hrest := ih hlist₂ hps hlive₂ (by simpa using hfuel : ps.length < fuel)
    rw [List.length_append, List.length_singleton] at hrest
    rw [hrest]
    simp [ArgStore.clear, hs₂, hs₁, List.replicate_succ]

/-- The strings `args` are made, from the next one on. -/
def storeStrings (f : StrPtr → Option String) (n : StrPtr) : List String → StrPtr → Option String
  | [] => f
  | a :: args => storeStrings (Function.update f n (some a)) (n + 1) args

theorem storeStrings_of_lt {f : StrPtr → Option String} {n : StrPtr} {args : List String}
    (hp : p < n) : storeStrings f n args p = f p := by
  induction args generalizing f n with
  | nil => rfl
  | cons a args ih =>
    rw [storeStrings, ih (Nat.lt_succ_of_lt hp), Function.update_of_ne (Nat.ne_of_lt hp)]

theorem storeStrings_range {f : StrPtr → Option String} {n : StrPtr} {args : List String} :
    List.Forall₂ (fun p a => storeStrings f n args p = some a) (List.range' n args.length)
      args := by
  induction args generalizing f n with
  | nil => exact .nil
  | cons a args ih =>
    refine .cons ?_ ih
    rw [storeStrings, storeStrings_of_lt (Nat.lt_succ_self n), Function.update_self]

/-- The strings `args` are made, and the block is `list`. -/
def ArgStore.store (s : ArgStore) (args : List String) (list : List ArgCell) : ArgStore :=
  { s with list, strings := storeStrings s.strings s.nextStr args,
           nextStr := s.nextStr + args.length }

/-- As long as the arguments fit, they are stored one after the other. -/
theorem appendArguments_eq (allocs : ℕ → Bool) {args : List String} (args' : List String)
    {mid : List ArgCell} (hlist : s.list = pre ++ (mid ++ rest))
    (hcap : s.list.length = s.listCapacity) (hmid : mid.length = args.length) :
    appendArguments allocs s pre.length (args ++ args') =
      appendArguments allocs
        (s.store args (pre ++ ((List.range' s.nextStr args.length).map .str ++ rest)))
        (pre.length + args.length) args' := by
  induction args generalizing s pre mid with
  | nil =>
    obtain rfl := List.length_eq_zero_iff.mp hmid
    have hsame : s.list = pre ++ rest := by simpa using hlist
    simp [ArgStore.store, storeStrings, ← hsame]
  | cons a args ih =>
    obtain ⟨c, mid, rfl⟩ := List.exists_cons_of_length_eq_add_one hmid
    have hroom : pre.length ≠ s.listCapacity := by
      rw [← hcap, hlist]
      simp
    have hput : (s.strdup a).2.put pre.length (.str s.nextStr) =
        .ok { (s.strdup a).2 with list := pre ++ .str s.nextStr :: (mid ++ rest) } :=
      put_append (s := (s.strdup a).2) hlist _
    set s₁ : ArgStore :=
      { (s.strdup a).2 with list := pre ++ .str s.nextStr :: (mid ++ rest) } with hs₁
    have hlist₁ : s₁.list = (pre ++ [.str s.nextStr]) ++ (mid ++ rest) := by simp [hs₁]
    have hcap₁ : s₁.list.length = s₁.listCapacity := by
      rw [hlist] at hcap
      simpa [hs₁, ArgStore.strdup] using hcap
    have hrest := ih hlist₁ hcap₁ (by simpa using hmid)
    rw [List.length_append, List.length_singleton] at hrest
    rw [List.cons_append, appendArguments, if_neg (fun h => hroom h.1)]
    simp only [if_neg hroom]
    rw [show (s.strdup a).1 = s.nextStr from rfl, hput, ok_bind, hrest]
    simp [hs₁, ArgStore.store, ArgStore.strdup, storeStrings, List.range'_succ, Nat.add_assoc,
      Nat.add_comm 1]

theorem put_no_null {i : ℕ} {s' : ArgStore} (h : .null ∉ s.list) (hc : c ≠ .null)
    (hok : s.put i c = .ok s') : .null ∉ s'.list := by
  unfold ArgStore.put at hok
  split_ifs at hok
  cases hok
  intro hmem
  rcases List.mem_or_eq_of_mem_set hmem with hmem | hnull
  · exact h hmem
  · exact hc hnull.symm

theorem realloc_no_null {newCap : ℕ} (h : .null ∉ s.list) : .null ∉ (s.realloc newCap).list := by
  simpa [ArgStore.realloc, List.mem_replicate] using h

/-- No turn of the second loop writes a NULL. -/
theorem appendArguments_no_null {allocs : ℕ → Bool} {args : List String} {i : ℕ} {s' : ArgStore}
    (h : .null ∉ s.list) (hok : appendArguments allocs s i args = .ok s') : .null ∉ s'.list := by
  induction args generalizing s i with
  | nil => cases hok; exact h
  | cons a args ih =>
    rw [appendArguments] at hok
    split_ifs at hok with hbreak hfull
    · cases hok
      exact h
    · obtain ⟨s₁, hput, hok⟩ := bind_eq_ok.mp hok
      exact ih (put_no_null (s := ((s.realloc (i * 2)).strdup a).2) (realloc_no_null h)
        (fun h => by cases h) hput) hok
    · obtain ⟨s₁, hput, hok⟩ := bind_eq_ok.mp hok
      exact ih (put_no_null (s := (s.strdup a).2) h (fun h => by cases h) hput) hok

/-- The strings `ps` are freed. -/
theorem freeArguments_eq {fuel : ℕ} (hlist : s.list = pre ++ (ps.map .str ++ .null :: rest))
    (hn : ps.Nodup) (hlive : ∀ p ∈ ps, (s.strings p).isSome) (hfuel : ps.length < fuel) :
    freeArguments fuel s pre.length = .ok (s.clear ps s.list) := by
  induction ps generalizing s pre fuel with
  | nil =>
    obtain ⟨fuel, rfl⟩ := Nat.exists_eq_succ_of_ne_zero (Nat.ne_of_gt hfuel)
    have hget : s.get pre.length = .ok none := by
      unfold ArgStore.get
      rw [get_append hlist]
    rw [freeArguments, hget, ok_bind]
    simp [ArgStore.clear, pure, Except.pure]
  | cons p ps ih =>
    obtain ⟨fuel, rfl⟩ := Nat.exists_eq_succ_of_ne_zero (Nat.ne_of_gt (Nat.zero_lt_of_lt hfuel))
    obtain ⟨hp, hps⟩ := List.nodup_cons.mp hn
    have hget : s.get pre.length = .ok (some p) := by
      unfold ArgStore.get
      rw [get_append hlist]
    set s₁ : ArgStore :=
      { s with strings := Function.update s.strings p none, freed := s.freed ++ [p] } with hs₁
    have hlist₁ : s₁.list = (pre ++ [.str p]) ++ (ps.map .str ++ .null :: rest) := by
      simpa using hlist
    have hlive₁ : ∀ q ∈ ps, (s₁.strings q).isSome := by
      intro q hq
      have hne : q ≠ p := fun h => hp (h ▸ hq)
      simpa [hs₁, Function.update_of_ne hne] using hlive q (List.mem_cons_of_mem _ hq)
    have hrest := ih hlist₁ hps hlive₁ (by simpa using hfuel : ps.length < fuel)
    rw [List.length_append, List.length_singleton] at hrest
    rw [freeArguments, hget, ok_bind]
    simp only
    rw [free_live (hlive p List.mem_cons_self), ok_bind, hrest]
    simp [ArgStore.clear, hs₁]

end Loops

/-! ## One command -/

section Command

variable {allocs : ℕ → Bool} {pname : String} {args new : List String} {ps : List StrPtr}
  {s s' : ArgStore}

theorem argsInit_stored (pname : String) : Stored pname [] [] (argsInit pname) where
  list := ⟨MAX_ARGS - 2, rfl⟩
  capacity := rfl
  name := rfl
  strings := .nil
  nodup := List.nodup_nil
  bound p hp := by cases hp
  kept p hp := by cases hp
  old p hp := by cases hp
  started := Nat.one_ne_zero
  freed p hp hlt _ := absurd hlt (Nat.not_lt_of_ge hp)

theorem forall₂_isSome {f : StrPtr → Option String}
    (h : List.Forall₂ (fun p a => f p = some a) ps args) : ∀ p ∈ ps, (f p).isSome := by
  induction h with
  | nil => simp
  | cons ha _ ih => simpa [ha] using ih

theorem clear_length {cap : ℕ} (hcap : 0 < cap) :
    (ArgCell.str 0 :: List.replicate (cap - 1) ArgCell.null).length = cap := by
  rw [List.length_cons, List.length_replicate]
  omega

namespace Stored

theorem mem_list (h : Stored pname ps args s) {p : StrPtr} (hp : 0 < p) :
    .str p ∈ s.list ↔ p ∈ ps := by
  obtain ⟨r, hr⟩ := h.list
  rw [hr]
  simp [Nat.ne_of_gt hp]

theorem wellFormed (h : Stored pname ps args s) : WellFormed pname args s := by
  obtain ⟨r, hr⟩ := h.list
  have hlen := h.strings.length_eq
  refine ⟨h.capacity, ⟨by rw [hr]; rfl, h.name⟩, fun i a ha => ?_, ?_, fun p hp hmem => ?_,
    fun p hp hlt hmem => ?_⟩
  · obtain ⟨hi, rfl⟩ := List.getElem?_eq_some_iff.mp ha
    have hi' : i < ps.length := hlen ▸ hi
    refine ⟨ps[i], ?_, h.strings.get hi' hi⟩
    rw [hr]
    simp [List.getElem?_append_left, hi']
  · rw [hr, ← hlen]
    simp
  · exact h.kept p ((h.mem_list hp).mp hmem)
  · exact h.freed p hp hlt fun hps => hmem ((h.mem_list hp).mpr hps)

/-- The block as the loops see it from its second entry on. -/
theorem layout (h : Stored pname ps args s) :
    ∃ r, s.list = [.str 0] ++ (ps.map .str ++ .null :: List.replicate r .null) ∧
      s.listCapacity - 1 = ps.length + (r + 1) ∧ ps.length < s.list.length := by
  obtain ⟨r, hr⟩ := h.list
  refine ⟨r, by simpa using hr, ?_, ?_⟩
  · rw [← h.capacity, hr]
    simp
  · rw [hr, List.length_append, List.length_cons, List.length_map]
    omega

/-- The first loop frees the arguments and leaves NULL in their place. -/
theorem clear (h : Stored pname ps args s) : clearArguments s.list.length s 1 =
    .ok (s.clear ps (.str 0 :: List.replicate (s.listCapacity - 1) .null)) := by
  obtain ⟨r, hr, hcap, hfuel⟩ := h.layout
  rw [hcap, List.replicate_add]
  exact clearArguments_eq hr h.nodup (forall₂_isSome h.strings) hfuel

/-- What was freed before and by the first loop. -/
theorem count_clear (h : Stored pname ps args s) {p : StrPtr} (hp : 0 < p) (hlt : p < s.nextStr) :
    (s.freed ++ ps).count p = 1 := by
  rw [List.count_append]
  by_cases hmem : p ∈ ps
  · rw [h.kept p hmem, List.count_eq_one_of_mem h.nodup hmem]
  · rw [h.freed p hp hlt hmem, List.count_eq_zero_of_not_mem hmem]

/-- A command with two entries to spare. -/
theorem addArguments (allocs : ℕ → Bool) (h : Stored pname ps args s)
    (hroom : new.length + 2 ≤ s.listCapacity) :
    ∃ ps' s', addArgumentsForTracee allocs s new = .ok s' ∧ Stored pname ps' new s' ∧
      s'.listCapacity = s.listCapacity := by
  obtain ⟨r, hr⟩ : ∃ r, s.listCapacity - 1 = new.length + (r + 1) :=
    ⟨s.listCapacity - 2 - new.length, by omega⟩
  set c := s.clear ps (.str 0 :: List.replicate (s.listCapacity - 1) .null) with hc
  have hlist : c.list =
      [.str 0] ++ (List.replicate new.length .null ++ List.replicate (r + 1) .null) := by
    rw [← List.replicate_add, ← hr]
    rfl
  have hmid : (List.replicate new.length ArgCell.null).length = new.length := List.length_replicate
  have happend := appendArguments_eq allocs [] hlist (clear_length (by omega)) hmid
  rw [List.append_nil] at happend
  have hname : (0 : StrPtr) ∉ ps := fun h0 => Nat.lt_irrefl 0 (h.bound 0 h0).1
  have hpos : 0 < s.nextStr := Nat.pos_of_ne_zero h.started
  refine ⟨List.range' s.nextStr new.length,
    c.store new ([.str 0] ++ ((List.range' s.nextStr new.length).map .str ++
      List.replicate (r + 1) .null)), ?_, ?_, rfl⟩
  · unfold addArgumentsForTracee
    rw [h.clear, ok_bind]
    exact happend
  · constructor
    · exact ⟨r, rfl⟩
    · change ([ArgCell.str 0] ++ ((List.range' s.nextStr new.length).map ArgCell.str ++
        List.replicate (r + 1) ArgCell.null)).length = s.listCapacity
      simp
      omega
    · change storeStrings c.strings s.nextStr new 0 = some pname
      rw [storeStrings_of_lt hpos, hc, clear_strings_of_not_mem hname]
      exact h.name
    · exact storeStrings_range
    · exact List.nodup_range'
    · intro p hp
      obtain ⟨hge, hlt⟩ := List.mem_range'_1.mp hp
      exact ⟨Nat.lt_of_lt_of_le hpos hge, hlt⟩
    · intro p hp
      refine List.count_eq_zero_of_not_mem fun hold => ?_
      have hge := (List.mem_range'_1.mp hp).1
      rcases List.mem_append.mp hold with hold | hold
      · exact Nat.not_lt_of_ge hge (h.old p hold)
      · exact Nat.not_lt_of_ge hge (h.bound p hold).2
    · intro p hp hlt hnot
      refine h.count_clear hp (Nat.lt_of_not_ge fun hge => ?_)
      exact hnot (List.mem_range'_1.mpr ⟨hge, hlt⟩)
    · intro p hold
      rcases List.mem_append.mp hold with hold | hold
      · exact Nat.lt_add_right _ (h.old p hold)
      · exact Nat.lt_add_right _ (h.bound p hold).2
    · exact Nat.ne_of_gt (Nat.lt_add_right _ hpos)

/-- A command with fewer leaves no NULL in the block. -/
theorem addArguments_full (h : Stored pname ps args s) (hfull : ¬new.length + 2 ≤ s.listCapacity)
    (hok : addArgumentsForTracee allocs s new = .ok s') : .null ∉ s'.list := by
  have hcap : 0 < s.listCapacity := by
    obtain ⟨r, hr⟩ := h.list
    rw [← h.capacity, hr]
    simp
  set c := s.clear ps (.str 0 :: List.replicate (s.listCapacity - 1) .null) with hc
  obtain ⟨front, back, rfl, hfront⟩ : ∃ front back, new = front ++ back ∧
      front.length = s.listCapacity - 1 :=
    ⟨_, _, (List.take_append_drop (s.listCapacity - 1) new).symm, by
      rw [List.length_take]
      omega⟩
  have hlist : c.list = [.str 0] ++ (List.replicate (s.listCapacity - 1) .null ++ []) := by
    rw [List.append_nil]
    rfl
  have hmid : (List.replicate (s.listCapacity - 1) ArgCell.null).length = front.length := by
    simp [hfront]
  have happend := appendArguments_eq allocs back hlist (clear_length hcap) hmid
  unfold addArgumentsForTracee at hok
  rw [h.clear, ok_bind] at hok
  exact appendArguments_no_null (by simp [ArgStore.store]) (happend.symm.trans hok)

theorem freed_at_exit (h : Stored pname ps args s) : s.FreedAtExit := by
  obtain ⟨r, hr, -, hfuel⟩ := h.layout
  exact ⟨_, freeArguments_eq hr h.nodup (forall₂_isSome h.strings) hfuel,
    fun p hp hlt => h.count_clear hp hlt⟩

end Stored

end Command

/-! ## All commands -/

section Commands

variable {allocs : ℕ → Bool} {pname : String} {args : List String} {ps : List StrPtr}
  {s : ArgStore}

/-- From a store the run keeps well formed exactly as long as each command leaves a NULL. -/
theorem Stored.commands_iff (h : Stored pname ps args s) (hcap : s.listCapacity = MAX_ARGS)
    (cs : List (List String)) :
    (∀ bs, bs <+: cs → ∃ s', argumentsCommands allocs s bs = .ok s' ∧
      WellFormed pname (bs.getLast?.getD args) s' ∧ s'.FreedAtExit) ↔
      ∀ new ∈ cs, new.length ≤ MAX_ARGS - 2 := by
  induction cs generalizing s args ps with
  | nil =>
    refine iff_of_true (fun bs hbs => ?_) fun new hnew => by cases hnew
    obtain rfl := List.prefix_nil.mp hbs
    exact ⟨s, rfl, h.wellFormed, h.freed_at_exit⟩
  | cons new cs ih =>
    have hroom : new.length ≤ MAX_ARGS - 2 ↔ new.length + 2 ≤ s.listCapacity := by
      rw [hcap]
      unfold MAX_ARGS
      omega
    constructor
    · intro hall
      have hfirst : new.length ≤ MAX_ARGS - 2 := by
        obtain ⟨s', hok, hwf, -⟩ := hall [new] (by simp)
        obtain ⟨s₁, hone, hok⟩ := foldlM_cons_eq_ok.mp hok
        cases hok
        by_contra hbig
        exact h.addArguments_full (hroom.not.mp hbig) hone
          (List.mem_of_getElem? hwf.terminated)
      obtain ⟨ps', s', hone, hstored, hcap'⟩ := h.addArguments allocs (hroom.mp hfirst)
      refine List.forall_mem_cons.mpr
        ⟨hfirst, (ih hstored (hcap'.trans hcap)).mp fun bs hbs => ?_⟩
      obtain ⟨s₂, hok, hgood⟩ := hall (new :: bs) (List.cons_prefix_cons.mpr ⟨rfl, hbs⟩)
      obtain ⟨s₁, hone', hrest⟩ := foldlM_cons_eq_ok.mp hok
      obtain rfl : s' = s₁ := Except.ok.inj (hone.symm.trans hone')
      rw [List.getLast?_cons, Option.getD_some] at hgood
      exact ⟨s₂, hrest, hgood⟩
    · intro hsmall bs hbs
      obtain ⟨hfirst, hrest⟩ := List.forall_mem_cons.mp hsmall
      cases bs with
      | nil => exact ⟨s, rfl, h.wellFormed, h.freed_at_exit⟩
      | cons b bs =>
        obtain ⟨rfl, hbs'⟩ := List.cons_prefix_cons.mp hbs
        obtain ⟨ps', s', hone, hstored, hcap'⟩ := h.addArguments allocs (hroom.mp hfirst)
        obtain ⟨s₂, hok, hgood⟩ := (ih hstored (hcap'.trans hcap)).mpr hrest bs hbs'
        refine ⟨s₂, foldlM_cons_eq_ok.mpr ⟨s', hone, hok⟩, ?_⟩
        rw [List.getLast?_cons, Option.getD_some]
        exact hgood

end Commands

/-- After every command the vector holds the arguments of that command, and ending the debugger
would free each argument ever given exactly once, exactly when no command has more than `MAX_ARGS -
2` arguments. -/
theorem arguments_wellFormed_iff (allocs : ℕ → Bool) (pname : String) (cs : List (List String)) :
    (∀ bs, bs <+: cs → ∃ s, argumentsCommands allocs (argsInit pname) bs = .ok s ∧
      WellFormed pname (bs.getLast?.getD []) s ∧ s.FreedAtExit) ↔
      ∀ args ∈ cs, args.length ≤ MAX_ARGS - 2 :=
  (argsInit_stored pname).commands_iff rfl cs

/-- With one argument more the NULL would be behind the block, and the next command looks for it
there. -/
theorem arguments_fill_block : ∃ s,
    argumentsCommands (fun _ => true) (argsInit "ls") [List.replicate 49 "x"] = .ok s ∧
    s.listCapacity = 50 ∧ ¬WellFormed "ls" (List.replicate 49 "x") s ∧
    (addArgumentsForTracee (fun _ => true) s []).fault? = some .outOfBounds := by
  obtain ⟨s, hok, hp⟩ := exists_of_any (p := fun s => (s.listCapacity = 50 ∧ s.list[50]? = none) ∧
      (addArgumentsForTracee (fun _ => true) s []).fault? = some .outOfBounds)
    (x := argumentsCommands (fun _ => true) (argsInit "ls") [List.replicate 49 "x"])
    (by decide +kernel)
  obtain ⟨⟨hcap, hend⟩, hnext⟩ := of_decide_eq_true hp
  refine ⟨s, hok, hcap, fun hwf => ?_, hnext⟩
  have hnull := hwf.terminated
  rw [List.length_replicate, hend] at hnull
  cases hnull

end Vdbg
