import Mathlib.Algebra.Order.Group.Nat
import Mathlib.Data.List.Chain
import Mathlib.Data.List.Nodup

/-!
# Rings of nodes

A ring is a head and nodes in an order, each linked to the next one and back, and the last one to
the head. Only the links of the neighbours change where a node is linked in (`Linked.insert`) or out
(`Linked.unlink`). To follow the links in either direction is to visit the nodes
(`IsRing.walk_next`, `IsRing.walk_prev`).
-/

namespace Rings

variable {N : Type*} {next prev next' prev' : N → Option N} {l pre post xs : List N}
  {p n x head : N}

/-- One node is followed by another. -/
def Linked (next prev : N → Option N) (x y : N) : Prop := next x = some y ∧ prev y = some x

/-- From the head through the nodes back to the head. -/
def IsRing (next prev : N → Option N) (head : N) (xs : List N) : Prop :=
  List.IsChain (Linked next prev) (head :: (xs ++ [head]))

/-! ## Chains of links -/

/-- A chain rests on the links out of all its nodes but the last, and into all but the first. -/
theorem chain_congr (hnext : ∀ y ∈ l.dropLast, next' y = next y)
    (hprev : ∀ y ∈ l.tail, prev' y = prev y) (h : List.IsChain (Linked next prev) l) :
    List.IsChain (Linked next' prev') l := by
  induction l with
  | nil => exact .nil
  | cons x l ih =>
    cases l with
    | nil => exact .singleton x
    | cons y l =>
      obtain ⟨⟨hxy, hyx⟩, hrest⟩ := List.isChain_cons_cons.mp h
      rw [List.dropLast_cons_cons, List.forall_mem_cons] at hnext
      rw [List.tail_cons, List.forall_mem_cons] at hprev
      exact .cons_cons ⟨hnext.1.trans hxy, hprev.1.trans hyx⟩ (ih hnext.2 hprev.2 hrest)

theorem dropLast_gap : (pre ++ p :: n :: post).dropLast = pre ++ p :: (n :: post).dropLast := by
  rw [List.dropLast_append_of_ne_nil (List.cons_ne_nil _ _), List.dropLast_cons_cons]

theorem tail_gap : (pre ++ p :: n :: post).tail = (pre ++ [p]).tail ++ n :: post := by
  rw [List.append_cons, List.tail_append_of_ne_nil (by simp)]

/-- Where links change at `c` and `x` only, those of the nodes around `c` stay. -/
theorem links_kept {f f' : N → Option N} {as bs : List N} {c : N} (hnodup : (as ++ c :: bs).Nodup)
    (hx : x ∉ as ++ c :: bs) (hf : ∀ y, y ≠ c → y ≠ x → f' y = f y) :
    (∀ y ∈ as, f' y = f y) ∧ ∀ y ∈ bs, f' y = f y := by
  obtain ⟨hc, -⟩ := List.nodup_cons.mp (List.nodup_middle.mp hnodup)
  refine ⟨fun y hy => hf y ?_ ?_, fun y hy => hf y ?_ ?_⟩
  · exact fun hyc => hc (hyc ▸ List.mem_append_left _ hy)
  · exact fun hyx => hx (hyx ▸ List.mem_append_left _ hy)
  · exact fun hyc => hc (hyc ▸ List.mem_append_right _ hy)
  · exact fun hyx => hx (hyx ▸ List.mem_append_right _ (List.mem_cons_of_mem _ hy))

/-- The chains up to a pair of neighbours and from there on, where the links change between the two
and at another node only. -/
theorem chains_kept (hfront : (pre ++ p :: n :: post).dropLast.Nodup)
    (hback : (pre ++ p :: n :: post).tail.Nodup) (hx : x ∉ pre ++ p :: n :: post)
    (hnext : ∀ y, y ≠ p → y ≠ x → next' y = next y) (hprev : ∀ y, y ≠ n → y ≠ x → prev' y = prev y)
    (hpre : List.IsChain (Linked next prev) (pre ++ [p]))
    (hpost : List.IsChain (Linked next prev) (n :: post)) :
    List.IsChain (Linked next' prev') (pre ++ [p]) ∧
      List.IsChain (Linked next' prev') (n :: post) := by
  have hxfront := fun h => hx ((List.dropLast_sublist _).mem h)
  have hxback := fun h => hx (List.mem_of_mem_tail h)
  rw [dropLast_gap] at hfront hxfront
  rw [tail_gap] at hback hxback
  obtain ⟨hnext₁, hnext₂⟩ := links_kept hfront hxfront hnext
  obtain ⟨hprev₁, hprev₂⟩ := links_kept hback hxback hprev
  refine ⟨chain_congr ?_ hprev₁ hpre, chain_congr hnext₂ hprev₂ hpost⟩
  rwa [List.dropLast_concat]

/-- A new node is linked in between two neighbours. -/
theorem Linked.insert (h : List.IsChain (Linked next prev) (pre ++ p :: n :: post))
    (hfront : (pre ++ p :: n :: post).dropLast.Nodup)
    (hback : (pre ++ p :: n :: post).tail.Nodup) (hx : x ∉ pre ++ p :: n :: post)
    (hnext : ∀ y, y ≠ p → y ≠ x → next' y = next y) (hprev : ∀ y, y ≠ n → y ≠ x → prev' y = prev y)
    (hpx : Linked next' prev' p x) (hxn : Linked next' prev' x n) :
    List.IsChain (Linked next' prev') (pre ++ p :: x :: n :: post) := by
  obtain ⟨hpre, -, hpost⟩ := List.isChain_append_cons_cons.mp h
  obtain ⟨hpre', hpost'⟩ := chains_kept hfront hback hx hnext hprev hpre hpost
  rw [List.isChain_append_cons_cons, List.isChain_cons_cons]
  exact ⟨hpre', hpx, hxn, hpost'⟩

/-- A node is linked out from between its neighbours. -/
theorem Linked.unlink (h : List.IsChain (Linked next prev) (pre ++ p :: x :: n :: post))
    (hfront : (pre ++ p :: n :: post).dropLast.Nodup)
    (hback : (pre ++ p :: n :: post).tail.Nodup) (hx : x ∉ pre ++ p :: n :: post)
    (hnext : ∀ y, y ≠ p → next' y = next y) (hprev : ∀ y, y ≠ n → prev' y = prev y)
    (hpn : Linked next' prev' p n) :
    List.IsChain (Linked next' prev') (pre ++ p :: n :: post) := by
  rw [List.isChain_append_cons_cons, List.isChain_cons_cons] at h
  obtain ⟨hpre, -, -, hpost⟩ := h
  obtain ⟨hpre', hpost'⟩ := chains_kept hfront hback hx (fun y hy _ => hnext y hy)
    (fun y hy _ => hprev y hy) hpre hpost
  exact List.isChain_append_cons_cons.mpr ⟨hpre', hpn, hpost'⟩

/-! ## Rings -/

theorem ring_nil : IsRing next prev head [] ↔ next head = some head ∧ prev head = some head :=
  List.isChain_pair

theorem IsRing.congr (h : IsRing next prev head xs) (hnext : ∀ y ∈ head :: xs, next' y = next y)
    (hprev : ∀ y ∈ head :: xs, prev' y = prev y) : IsRing next' prev' head xs := by
  refine chain_congr (fun y hy => hnext y ?_) (fun y hy => hprev y ?_) h
  · rwa [← List.cons_append, List.dropLast_concat] at hy
  · rw [List.tail_cons, List.mem_append, List.mem_singleton] at hy
    exact List.mem_cons.mpr hy.symm

/-- The nodes of a ring that are no two the same, from the head on and back to it. -/
theorem nodup_ring (hnodup : (head :: xs).Nodup) :
    (head :: (xs ++ [head])).dropLast.Nodup ∧ (head :: (xs ++ [head])).tail.Nodup := by
  rw [← List.cons_append, List.dropLast_concat]
  refine ⟨hnodup, ?_⟩
  rw [List.cons_append, List.tail_cons]
  exact (List.perm_append_singleton head xs).nodup_iff.mpr hnodup

theorem mem_ring : x ∈ head :: (xs ++ [head]) ↔ x ∈ head :: xs := by
  rw [List.mem_cons, List.mem_append, List.mem_singleton, List.mem_cons]
  tauto

/-- The node behind the head. -/
theorem IsRing.next_head (h : IsRing next prev head xs) :
    ∃ n post, xs ++ [head] = n :: post ∧ next head = some n ∧ prev n = some head := by
  obtain ⟨n, post, hxs⟩ := List.exists_cons_of_ne_nil (List.append_ne_nil_of_right_ne_nil xs
    (List.cons_ne_nil head []))
  unfold IsRing at h
  rw [hxs, List.isChain_cons_cons] at h
  exact ⟨n, post, hxs, h.1⟩

/-- The node before the head. -/
theorem IsRing.prev_head (h : IsRing next prev head xs) :
    ∃ p pre, head :: xs = pre ++ [p] ∧ prev head = some p ∧ next p = some head := by
  obtain ⟨pre, p, hxs⟩ := (head :: xs).eq_nil_or_concat'.resolve_left (List.cons_ne_nil head xs)
  unfold IsRing at h
  rw [← List.cons_append, hxs, List.append_assoc, List.singleton_append,
    List.isChain_append_cons_cons] at h
  exact ⟨p, pre, hxs, h.2.1.2, h.2.1.1⟩

/-! ## Following the links -/

variable [DecidableEq N] {link : N → Option N} {fuel : ℕ}

/-- The nodes that are met from a position on before the head is, if no link is missing. -/
def walk (link : N → Option N) (head : N) : ℕ → Option N → Option (List N)
  | 0, _ => none
  | _ + 1, none => none
  | fuel + 1, some pos =>
    if pos = head then some [] else (walk link head fuel (link pos)).map (pos :: ·)

theorem walk_chain (h : List.IsChain (fun x y => link x = some y) (x :: (xs ++ [head])))
    (hhead : head ∉ xs) (hfuel : xs.length < fuel) : walk link head fuel (link x) = some xs := by
  induction xs generalizing x fuel with
  | nil =>
    obtain ⟨fuel, rfl⟩ := Nat.exists_eq_add_of_lt hfuel
    rw [List.isChain_pair.mp h]
    exact if_pos rfl
  | cons y xs ih =>
    rw [List.length_cons] at hfuel
    obtain ⟨fuel, rfl⟩ := Nat.exists_eq_succ_of_ne_zero (Nat.ne_zero_of_lt hfuel)
    obtain ⟨hxy, hrest⟩ := List.isChain_cons_cons.mp h
    obtain ⟨hy, hhead⟩ := not_or.mp (mt List.mem_cons.mpr hhead)
    rw [hxy, walk, if_neg (Ne.symm hy), ih hrest hhead (Nat.lt_of_succ_lt_succ hfuel)]
    rfl

/-- Forwards a walk meets the nodes in their order, -/
theorem IsRing.walk_next (h : IsRing next prev head xs) (hhead : head ∉ xs)
    (hfuel : xs.length < fuel) :
    walk next head fuel (next head) = some xs :=
  walk_chain (h.imp fun _ _ => And.left) hhead hfuel

/-- and backwards in the reverse order. -/
theorem IsRing.walk_prev (h : IsRing next prev head xs) (hhead : head ∉ xs)
    (hfuel : xs.length < fuel) :
    walk prev head fuel (prev head) = some xs.reverse := by
  have hback : List.IsChain (fun x y => prev x = some y) (head :: (xs ++ [head])).reverse :=
    List.isChain_reverse.mpr (h.imp fun _ _ => And.right)
  rw [List.reverse_cons, List.reverse_append, List.reverse_singleton, List.singleton_append,
    List.cons_append] at hback
  exact walk_chain hback (by rwa [List.mem_reverse]) (by rwa [List.length_reverse])

end Rings
