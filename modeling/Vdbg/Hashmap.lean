import Mathlib.Data.BitVec
import Vdbg.Lib.Chains
import Vdbg.Lib.FiniteMap

/-!
# The hash map

`hashmap.c`: a table of `size` chains, indexed by Fibonacci hashing. The index keeps the upper
`ctz(size)` bits of a wrapping product, so it is below `2 ^ ctz(size)`, which divides `size`
(`Layout.mapIndex_lt`). A table carries the proof that each entry sits in the chain its key hashes
to and that no chain holds a key twice.

The C functions call the cleanup function on the objects they drop. Here they hand those objects
back in the order of the calls, and the caller runs its cleanup on them.
-/

namespace Vdbg

open Chains (Entry)

/-- `size` and `shift_bits` of a table, as `map_init` chooses them. -/
structure Layout where
  size : BitVec 32
  shiftBits : BitVec 8
  size_ne : size ≠ 0
  shift_eq : shiftBits = 64 - (BitVec.ctz size).setWidth 8

namespace Layout

variable (l : Layout)

/-- `map_index` -/
def mapIndex (key : BitVec 64) : BitVec 32 :=
  ((key * 11400714819323198485#64) >>> l.shiftBits.toNat).setWidth 32

theorem ctz_lt : l.size.ctz.toNat < 32 := by
  have h := BitVec.ctz_lt_iff_ne_zero.mpr l.size_ne
  simpa [BitVec.lt_def] using h

theorem shiftBits_toNat : l.shiftBits.toNat = 64 - l.size.ctz.toNat := by
  have h := l.ctz_lt
  rw [l.shift_eq, BitVec.toNat_sub, BitVec.toNat_setWidth]
  have h64 : (64 : BitVec 8).toNat = 64 := rfl
  omega

/-- Every bucket index is below `size`. -/
theorem mapIndex_lt (key : BitVec 64) : (l.mapIndex key).toNat < l.size.toNat := by
  have hctz := l.ctz_lt
  have hpow := BitVec.two_pow_ctz_le_toNat_of_ne_zero l.size_ne
  have hshift : ((key * 11400714819323198485#64) >>> l.shiftBits.toNat).toNat
      < 2 ^ l.size.ctz.toNat := by
    rw [BitVec.toNat_ushiftRight, Nat.shiftRight_eq_div_pow, l.shiftBits_toNat]
    refine Nat.div_lt_of_lt_mul ?_
    rw [← Nat.pow_add, show 64 - l.size.ctz.toNat + l.size.ctz.toNat = 64 by omega]
    exact BitVec.isLt _
  calc (l.mapIndex key).toNat
      ≤ ((key * 11400714819323198485#64) >>> l.shiftBits.toNat).toNat := by
        rw [mapIndex, BitVec.toNat_setWidth]
        exact Nat.mod_le _ _
    _ < 2 ^ l.size.ctz.toNat := hshift
    _ ≤ l.size.toNat := hpow

/-- The bucket of a key. -/
def bucket (key : BitVec 64) : Fin l.size.toNat := ⟨_, l.mapIndex_lt key⟩

end Layout

/-- `map_t`. The array of chains is a function on the indices below `size`. -/
structure Hashmap (α : Type) extends Layout where
  cf : Bool
  elements : Fin size.toNat → List (Entry (BitVec 64) α)
  placed : ∀ i, ∀ e ∈ elements i, toLayout.bucket e.key = i
  nodup : ∀ i, ((elements i).map Entry.key).Nodup

namespace Hashmap

variable {α : Type} (ht : Hashmap α)

/-- The object under a key, found by walking the chain of its bucket. -/
def find (key : BitVec 64) : Option α :=
  (Chains.find key (ht.elements (ht.bucket key))).map Entry.obj

/-- All objects in the table, bucket by bucket. -/
def objects : List α :=
  ((List.finRange ht.size.toNat).flatMap ht.elements).map Entry.obj

/-- The table with one chain replaced. -/
def setChain (i : Fin ht.size.toNat) (c : List (Entry (BitVec 64) α))
    (hp : ∀ e ∈ c, ht.bucket e.key = i) (hn : (c.map Entry.key).Nodup) : Hashmap α where
  toLayout := ht.toLayout
  cf := ht.cf
  elements := Function.update ht.elements i c
  placed := by
    intro j e he
    by_cases hj : j = i
    · subst hj; rw [Function.update_self] at he; exact hp e he
    · rw [Function.update_of_ne hj] at he; exact ht.placed j e he
  nodup := by
    intro j
    by_cases hj : j = i
    · subst hj; rw [Function.update_self]; exact hn
    · rw [Function.update_of_ne hj]; exact ht.nodup j

/-- A new entry at the head of its chain. -/
def link (key : BitVec 64) (obj : α) (h : ht.find key = none) : Hashmap α :=
  ht.setChain (ht.bucket key) (⟨key, obj⟩ :: ht.elements (ht.bucket key))
    (by
      intro e he
      rcases List.mem_cons.mp he with rfl | he
      · rfl
      · exact ht.placed _ e he)
    (by
      rw [List.map_cons, List.nodup_cons]
      refine ⟨?_, ht.nodup _⟩
      rw [find, Option.map_eq_none_iff, Chains.find_eq_none_iff] at h
      rintro hmem
      obtain ⟨e, he, hk⟩ := List.mem_map.mp hmem
      exact h e he hk)

/-- The table without the entry of a key. -/
def unlink (key : BitVec 64) : Hashmap α :=
  ht.setChain (ht.bucket key) (Chains.unlink key (ht.elements (ht.bucket key)))
    (fun e he => ht.placed _ e ((Chains.unlink_sublist _ _).subset he))
    ((ht.nodup _).sublist ((Chains.unlink_sublist _ _).map _))

end Hashmap

/-! ## The operations on a table that may be NULL -/

section Operations

variable {α : Type}

/-- `map_init`. A size of `2 ^ 32 - 1` rounds up to 0, whose trailing zeros are undefined. -/
def mapInit (size : BitVec 32) (cf : Bool) : Option (Hashmap α) :=
  if size = 0 then none
  else
    let size := if size &&& 1 = 1 then size + 1 else size
    if h : size = 0 then none
    else some
      { size := size
        shiftBits := 64 - (BitVec.ctz size).setWidth 8
        size_ne := h
        shift_eq := rfl
        cf := cf
        elements := fun _ => []
        placed := by simp
        nodup := by simp }

/-- `map_lookup` -/
def mapLookup (ht : Option (Hashmap α)) (key : BitVec 64) : Option α :=
  match ht with
  | none => none
  | some ht => ht.find key

/-- `map_insert` -/
def mapInsert (ht : Option (Hashmap α)) (key : BitVec 64) (obj : Option α) :
    Bool × Option (Hashmap α) :=
  match ht, obj with
  | some ht, some obj =>
    if h : ht.find key = none then (true, some (ht.link key obj h)) else (false, some ht)
  | ht, _ => (false, ht)

/-- `map_delete`, with the objects the cleanup function is called on. -/
def mapDelete (ht : Option (Hashmap α)) (key : BitVec 64) : List α × Option (Hashmap α) :=
  match ht with
  | none => ([], none)
  | some ht =>
    match ht.find key with
    | none => ([], some ht)
    | some obj => (if ht.cf then [obj] else [], some (ht.unlink key))

/-- `map_free`, with the objects the cleanup function is called on. -/
def mapFree (ht : Option (Hashmap α)) : List α :=
  match ht with
  | none => []
  | some ht => if ht.cf then ht.objects else []

end Operations

/-! ## Finds after an update -/

namespace Hashmap

variable {α : Type} (ht : Hashmap α)

theorem elements_setChain_bucket {i : Fin ht.size.toNat} {c : List (Entry (BitVec 64) α)}
    {hp : ∀ e ∈ c, ht.bucket e.key = i} {hn : (c.map Entry.key).Nodup} {key : BitVec 64} :
    (ht.setChain i c hp hn).find key =
      (Chains.find key (Function.update ht.elements i c (ht.bucket key))).map Entry.obj := rfl

theorem find_link (key : BitVec 64) (obj : α) (h : ht.find key = none) (key' : BitVec 64) :
    (ht.link key obj h).find key' = if key' = key then some obj else ht.find key' := by
  rw [link, elements_setChain_bucket]
  split_ifs with hk
  · subst hk
    rw [Function.update_self]
    simp [Chains.find]
  · by_cases hb : ht.bucket key' = ht.bucket key
    · rw [hb, Function.update_self, Chains.find_cons_ne (fun h => hk h.symm), find, hb]
    · rw [Function.update_of_ne hb, find]

theorem find_unlink (key key' : BitVec 64) :
    (ht.unlink key).find key' = if key' = key then none else ht.find key' := by
  rw [unlink, elements_setChain_bucket]
  split_ifs with hk
  · subst hk
    rw [Function.update_self, Chains.find_unlink_self (ht.nodup _), Option.map_none]
  · by_cases hb : ht.bucket key' = ht.bucket key
    · rw [hb, Function.update_self, Chains.find_unlink_ne hk, find, hb]
    · rw [Function.update_of_ne hb, find]

/-- The objects of a table are those its keys find. -/
theorem mem_objects {o : α} : o ∈ ht.objects ↔ ∃ key, ht.find key = some o := by
  unfold objects
  constructor
  · intro h
    obtain ⟨e, he, rfl⟩ := List.mem_map.mp h
    obtain ⟨i, -, he⟩ := List.mem_flatMap.mp he
    refine ⟨e.key, ?_⟩
    rw [find, ht.placed i e he, Chains.find_of_mem (ht.nodup i) he, Option.map_some]
  · rintro ⟨key, h⟩
    obtain ⟨e, he, rfl⟩ := Option.map_eq_some_iff.mp h
    exact List.mem_map_of_mem
      (List.mem_flatMap.mpr ⟨_, List.mem_finRange _, (Chains.mem_of_find he).1⟩)

/-- A table that stores no object under two keys lists no object twice. -/
theorem objects_nodup
    (hinj : ∀ key key' o, ht.find key = some o → ht.find key' = some o → key = key') :
    ht.objects.Nodup := by
  have hmem : ∀ e ∈ (List.finRange ht.size.toNat).flatMap ht.elements,
      e ∈ ht.elements (ht.bucket e.key) := by
    intro e he
    obtain ⟨i, -, he⟩ := List.mem_flatMap.mp he
    rwa [ht.placed i e he]
  have hfind : ∀ e ∈ (List.finRange ht.size.toNat).flatMap ht.elements,
      Chains.find e.key (ht.elements (ht.bucket e.key)) = some e :=
    fun e he => Chains.find_of_mem (ht.nodup _) (hmem e he)
  refine List.Nodup.map_on ?_ ?_
  · intro e he e' he' ho
    have hk : e.key = e'.key := hinj e.key e'.key e.obj
      (by rw [find, hfind e he, Option.map_some]) (by rw [find, hfind e' he', Option.map_some, ho])
    have h := hfind e he
    rw [hk, hfind e' he'] at h
    exact (Option.some.inj h).symm
  · rw [List.nodup_flatMap]
    refine ⟨fun i _ => (ht.nodup i).of_map _, (List.nodup_finRange _).imp ?_⟩
    intro i j hij e hi hj
    exact hij ((ht.placed i e hi).symm.trans (ht.placed j e hj))

theorem objects_setChain_perm {i : Fin ht.size.toNat} {c : List (Entry (BitVec 64) α)}
    {hp : ∀ e ∈ c, ht.bucket e.key = i} {hn : (c.map Entry.key).Nodup} :
    ((ht.setChain i c hp hn).objects ++ (ht.elements i).map Entry.obj).Perm
      (ht.objects ++ c.map Entry.obj) := by
  have h := Chains.flatMap_update_perm ht.elements (List.nodup_finRange _) (List.mem_finRange i) c
  simpa only [objects, setChain, List.map_append] using h.map Entry.obj

theorem objects_link_perm (key : BitVec 64) (obj : α) (h : ht.find key = none) :
    (ht.link key obj h).objects.Perm (obj :: ht.objects) := by
  have hp : ((ht.link key obj h).objects ++ (ht.elements (ht.bucket key)).map Entry.obj).Perm
      (ht.objects ++ obj :: (ht.elements (ht.bucket key)).map Entry.obj) :=
    ht.objects_setChain_perm
  exact (List.perm_append_right_iff _).mp (hp.trans List.perm_middle)

theorem objects_unlink_perm {key : BitVec 64} {obj : α} (h : ht.find key = some obj) :
    ht.objects.Perm (obj :: (ht.unlink key).objects) := by
  obtain ⟨e, he, rfl⟩ := Option.map_eq_some_iff.mp h
  have hp : ((ht.unlink key).objects ++ (ht.elements (ht.bucket key)).map Entry.obj).Perm
      (ht.objects ++ (Chains.unlink key (ht.elements (ht.bucket key))).map Entry.obj) :=
    ht.objects_setChain_perm
  have hc := List.Perm.append_left (ht.unlink key).objects ((Chains.unlink_perm he).map Entry.obj)
  rw [List.map_cons] at hc
  exact (List.perm_append_right_iff _).mp ((hp.symm.trans hc).trans List.perm_middle)

end Hashmap

/-! ## Calls on a table that may be NULL -/

section Calls

variable {α : Type}

theorem mapInsert_refused {ht : Option (Hashmap α)} {key : BitVec 64} {obj : Option α}
    (h : obj = none ∨ (mapLookup ht key).isSome) : mapInsert ht key obj = (false, ht) := by
  rcases ht with - | ht
  · rfl
  rcases obj with - | obj
  · rfl
  rcases h with h | h
  · cases h
  · exact dif_neg (Option.isSome_iff_ne_none.mp h)

/-- An insertion under an absent key. -/
theorem mapInsert_absent {ht : Hashmap α} {key : BitVec 64} (h : mapLookup (some ht) key = none)
    (obj : α) :
    ∃ ht', mapInsert (some ht) key (some obj) = (true, some ht') ∧ ht'.cf = ht.cf ∧
      ∀ key', mapLookup (some ht') key' = if key' = key then some obj else mapLookup (some ht) key' :=
  ⟨ht.link key obj h, dif_pos h, rfl, ht.find_link key obj h⟩

theorem mapLookup_mapDelete (ht : Option (Hashmap α)) (key key' : BitVec 64) :
    mapLookup (mapDelete ht key).2 key' = if key' = key then none else mapLookup ht key' := by
  rcases ht with - | ht
  · exact (ite_self _).symm
  rcases hk : ht.find key with - | obj
  · simp only [mapDelete, hk]
    split_ifs with hk'
    · rw [hk']; exact hk
    · rfl
  · simp only [mapDelete, hk]
    exact ht.find_unlink key key'

theorem mapDelete_absent {ht : Option (Hashmap α)} {key : BitVec 64} (h : mapLookup ht key = none) :
    mapDelete ht key = ([], ht) := by
  rcases ht with - | ht
  · rfl
  · have hk : ht.find key = none := h
    simp only [mapDelete, hk]

theorem mapDelete_present {ht : Hashmap α} {key : BitVec 64} {obj : α} (hcf : ht.cf = true)
    (h : mapLookup (some ht) key = some obj) :
    mapDelete (some ht) key = ([obj], some (ht.unlink key)) := by
  have hk : ht.find key = some obj := h
  simp only [mapDelete, hk, hcf, if_true]

theorem mapInit_of_ne {size : BitVec 32} (h0 : size ≠ 0) (h1 : size ≠ BitVec.allOnes 32)
    (cf : Bool) :
    ∃ ht : Hashmap α, mapInit size cf = some ht ∧ ht.cf = cf ∧ ht.objects = [] ∧
      ∀ key, mapLookup (some ht) key = none := by
  have hround : (if size &&& 1 = 1 then size + 1 else size) ≠ 0 := by
    split_ifs
    · intro h
      exact h1 ((eq_neg_of_add_eq_zero_left h).trans rfl)
    · exact h0
  unfold mapInit
  rw [if_neg h0, dif_neg hround]
  exact ⟨_, rfl, rfl, by simp [Hashmap.objects], fun key => rfl⟩

end Calls

/-! ## A session with a table -/

section Session

open FiniteMap

variable {α : Type}

/-- A table and the objects its cleanup function was called on so far. -/
structure Session (α : Type) where
  table : Option (Hashmap α)
  cleaned : List α

/-- One call on the table. -/
def Session.step (s : Session α) : Op (BitVec 64) α → Answer α × Session α
  | .insert key obj =>
    (.inserted (mapInsert s.table key obj).1, { s with table := (mapInsert s.table key obj).2 })
  | .lookup key => (.found (mapLookup s.table key), s)
  | .delete key =>
    (.deleted, ⟨(mapDelete s.table key).2, s.cleaned ++ (mapDelete s.table key).1⟩)

/-- The table finds what the abstract map holds, and every object ever accepted is either cleaned
or still in the table. -/
def Session.Refines (cf : Bool) (s : Session α) (t : Spec (BitVec 64) α) : Prop :=
  ∃ ht, s.table = some ht ∧ ht.cf = cf ∧ (∀ key, ht.find key = t.map key) ∧
    (s.cleaned ++ if cf then ht.objects else []).Perm (if cf then t.stored else [])

/-- Each call answers as the abstract map does and keeps the refinement. -/
theorem Session.Refines.step {cf : Bool} {s : Session α} {t : Spec (BitVec 64) α}
    (h : s.Refines cf t) (op : Op (BitVec 64) α) :
    (s.step op).1 = (t.step op).1 ∧ (s.step op).2.Refines cf (t.step op).2 := by
  obtain ⟨ht, htable, hcf, hfind, hperm⟩ := h
  cases op with
  | insert key obj =>
    cases obj with
    | none =>
      simp only [Session.step, Spec.step, htable, mapInsert, true_and]
      exact ⟨ht, rfl, hcf, hfind, hperm⟩
    | some obj =>
      by_cases hk : ht.find key = none
      · simp only [Session.step, Spec.step, htable, mapInsert, hk, dif_pos, ← hfind key, if_true,
          true_and]
        refine ⟨ht.link key obj hk, rfl, hcf, fun key' => ?_, ?_⟩
        · show _ = Function.update t.map key (some obj) key'
          rw [ht.find_link, Function.update_apply, hfind]
        · cases cf with
          | false => exact hperm
          | true =>
            have hl := (ht.objects_link_perm key obj hk).append_left s.cleaned
            exact hl.trans (List.perm_middle.trans (hperm.cons obj))
      · simp only [Session.step, Spec.step, htable, mapInsert, hk, dif_neg, ← hfind key, if_false,
          not_false_eq_true, true_and]
        exact ⟨ht, rfl, hcf, hfind, hperm⟩
  | lookup key =>
    simp only [Session.step, Spec.step, htable, mapLookup, hfind, true_and]
    exact ⟨ht, htable, hcf, hfind, hperm⟩
  | delete key =>
    simp only [Session.step, Spec.step, htable, mapDelete, true_and]
    cases hk : ht.find key with
    | none =>
      refine ⟨ht, rfl, hcf, fun key' => ?_, by simpa using hperm⟩
      show _ = Function.update t.map key none key'
      by_cases hk' : key' = key
      · subst hk'; rw [Function.update_self, hk]
      · rw [Function.update_of_ne hk', hfind]
    | some obj =>
      refine ⟨ht.unlink key, rfl, hcf, fun key' => ?_, ?_⟩
      · show _ = Function.update t.map key none key'
        rw [ht.find_unlink, Function.update_apply, hfind]
      · cases cf with
        | false => simpa [hcf] using hperm
        | true =>
          have hu := (ht.objects_unlink_perm hk).append_left s.cleaned
          simpa [hcf] using hu.symm.trans hperm

/-- A fresh table is the empty map. -/
theorem mapInit_refines {size : BitVec 32} (h0 : size ≠ 0) (h1 : size ≠ BitVec.allOnes 32)
    (cf : Bool) :
    ∃ ht : Hashmap α, mapInit size cf = some ht ∧
      Session.Refines cf ⟨some ht, []⟩ (Spec.empty : Spec (BitVec 64) α) := by
  obtain ⟨ht, hinit, hcf, hobj, hfind⟩ := mapInit_of_ne (α := α) h0 h1 cf
  refine ⟨ht, hinit, ht, rfl, hcf, hfind, ?_⟩
  simp [hobj, Spec.empty]

/-- **The hash map is a finite map.** From any table `map_init` makes, a run of calls answers as an
insert-if-absent finite map does. In every state it reaches all bucket indices are in bounds,
lookups read the abstract map, a refused insertion changes nothing, a deletion takes out its key
alone, and the cleanup calls made so far, together with those of `map_free`, are one for each object
ever accepted; a table without a cleanup function makes none. -/
theorem map_refines_finiteMap {size : BitVec 32} (h0 : size ≠ 0) (h1 : size ≠ BitVec.allOnes 32)
    (cf : Bool) (ops : List (Op (BitVec 64) α)) :
    ∃ ht₀ : Hashmap α, mapInit size cf = some ht₀ ∧
      (run Session.step ⟨some ht₀, []⟩ ops).1 = (run Spec.step Spec.empty ops).1 ∧
      ∃ ht, (run Session.step ⟨some ht₀, []⟩ ops).2.table = some ht ∧
        (∀ key, (ht.mapIndex key).toNat < ht.size.toNat) ∧
        (∀ key, mapLookup (some ht) key = (run Spec.step Spec.empty ops).2.map key) ∧
        (∀ key obj, obj = none ∨ (mapLookup (some ht) key).isSome →
          mapInsert (some ht) key obj = (false, some ht)) ∧
        (∀ key key', mapLookup (mapDelete (some ht) key).2 key' =
          if key' = key then none else mapLookup (some ht) key') ∧
        ((run Session.step ⟨some ht₀, []⟩ ops).2.cleaned ++ mapFree (some ht)).Perm
          (if cf then (run Spec.step Spec.empty ops).2.stored else []) := by
  obtain ⟨ht₀, hinit, hR₀⟩ := mapInit_refines (α := α) h0 h1 cf
  obtain ⟨hans, ht, htable, hcf, hfind, hperm⟩ :=
    run_related (fun s t op h => Session.Refines.step h op) ops hR₀
  refine ⟨ht₀, hinit, hans, ht, htable, ht.mapIndex_lt, hfind, fun key obj => mapInsert_refused,
    mapLookup_mapDelete (some ht), ?_⟩
  rw [mapFree, hcf]
  exact hperm

/-- A table of the odd size 3. -/
theorem map_refines_finiteMap_three :
    ((3 : BitVec 32) ≠ 0 ∧ (3 : BitVec 32) ≠ BitVec.allOnes 32) ∧
      ∃ ht₀ : Hashmap ℕ, mapInit 3 true = some ht₀ ∧
        (run Session.step ⟨some ht₀, []⟩ [.insert 1 (some 7), .insert 1 (some 8), .delete 1]).1 =
          [.inserted true, .inserted false, .deleted] := by
  obtain ⟨ht₀, h, hans, -⟩ := map_refines_finiteMap (α := ℕ) (show (3 : BitVec 32) ≠ 0 by decide)
    (by decide) true [.insert 1 (some 7), .insert 1 (some 8), .delete 1]
  exact ⟨by decide, ht₀, h, hans.trans rfl⟩

end Session

end Vdbg
