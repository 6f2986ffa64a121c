import Mathlib.Data.List.Nodup
import Mathlib.Logic.Function.Basic
import Vdbg.Lib.FaultRun
import Vdbg.Lib.Rings

/-!
# The intrusive lists

The operations of `list.h` on the links of the nodes. A list is the ring of its nodes around its
head (`Represents`), and `Lists` is what the rings stand for: a sequence for each head, where no
node is in two lists or twice in one. Each operation changes the links in one ring only, and what
they stand for as `Lists.Step` says (`Lists.Step.run`).
-/

namespace Vdbg

open FaultRun Rings

/-- Why an operation on a list does not return. -/
inductive ListFault where
  /-- The assertion of `list_add`. -/
  | assertion
  /-- `NULL` is read or written through. -/
  | null
  /-- A loop does not end. -/
  | blocked
deriving DecidableEq, Repr

/-- The links of the nodes, with `none` for `NULL`. -/
structure LinkHeap (N : Type*) where
  next : N → Option N
  prev : N → Option N

/-- A pointer that is read or written through. -/
def deref {N : Type*} : Option N → Except ListFault N
  | none => .error .null
  | some x => .ok x

section Operations

variable {N : Type*} [DecidableEq N] (m : LinkHeap N)

def LinkHeap.setNext (x : N) (y : Option N) : LinkHeap N :=
  { m with next := Function.update m.next x y }

def LinkHeap.setPrev (x : N) (y : Option N) : LinkHeap N :=
  { m with prev := Function.update m.prev x y }

/-- `list_init` -/
def listInit (head : N) : LinkHeap N := (m.setNext head (some head)).setPrev head (some head)

/-- `list_add` -/
def listAdd : (new prev next : Option N) → Except ListFault (LinkHeap N)
  | some new, some prev, some next =>
    .ok ((((m.setNext new (some next)).setPrev new (some prev)).setNext prev (some new)).setPrev
      next (some new))
  | _, _, _ => .error .assertion

/-- `list_add_front` -/
def listAddFront (head : N) (new : Option N) : Except ListFault (LinkHeap N) :=
  listAdd m new (some head) (m.next head)

/-- `list_add_back` -/
def listAddBack (head : N) (new : Option N) : Except ListFault (LinkHeap N) :=
  listAdd m new (m.prev head) (some head)

/-- `list_delete`. The links of the target itself stay. -/
def listDelete (target : N) : Except ListFault (LinkHeap N) := do
  let p ← deref (m.prev target)
  let m := m.setNext p (m.next target)
  let n ← deref (m.next target)
  return m.setPrev n (m.prev target)

/-- The nodes that `list_for_each` visits. It does not end without its fuel or at a `NULL`. -/
def listForEach (head : N) (fuel : ℕ) : Option (List N) := walk m.next head fuel (m.next head)

/-- The nodes that are visited in the other direction. -/
def listForEachPrev (head : N) (fuel : ℕ) : Option (List N) := walk m.prev head fuel (m.prev head)

/-- The loop of `list_for_each_safe` from a position on, whose successor `n` is read already. The
nodes that are visited are returned too. -/
def safeLoop (body : LinkHeap N → N → Except ListFault (LinkHeap N)) (head : N) :
    ℕ → N → Option N → LinkHeap N → Except ListFault (List N × LinkHeap N)
  | 0, _, _, _ => .error .blocked
  | fuel + 1, pos, n, m =>
    if pos = head then .ok ([], m)
    else do
      let m ← body m pos
      let pos' ← deref n
      let (visited, m) ← safeLoop body head fuel pos' (m.next pos') m
      return (pos :: visited, m)

/-- `list_for_each_safe` -/
def listForEachSafe (body : LinkHeap N → N → Except ListFault (LinkHeap N)) (head : N) (fuel : ℕ) :
    Except ListFault (List N × LinkHeap N) := do
  let pos ← deref (m.next head)
  safeLoop body head fuel pos (m.next pos) m

/-- A call of an operation. -/
inductive ListOp (N : Type*) where
  | init (head : N)
  | addFront (head new : N)
  | addBack (head new : N)
  | delete (target : N)

def ListOp.run (m : LinkHeap N) : ListOp N → Except ListFault (LinkHeap N)
  | .init head => .ok (listInit m head)
  | .addFront head new => listAddFront m head (some new)
  | .addBack head new => listAddBack m head (some new)
  | .delete target => listDelete m target

end Operations

/-! ## What the lists stand for -/

/-- The sequences of the heads that are initialised. No node is in a sequence twice or in two of
them, and no head is in any. -/
structure Lists (N : Type*) where
  seq : N → Option (List N)
  nodup : ∀ {head xs}, seq head = some xs → xs.Nodup
  head_notMem : ∀ {head xs head'}, seq head = some xs → (seq head').isSome → head' ∉ xs
  apart : ∀ {head xs head' ys x}, seq head = some xs → seq head' = some ys → x ∈ xs → x ∈ ys →
    head = head'

namespace Lists

variable {N : Type*} [DecidableEq N] {s s' s₁ : Lists N} {head head' new target x y : N}
  {xs ys zs : List N} {op : ListOp N} {ops : List (ListOp N)}

/-- No list is initialised. -/
def empty (N : Type*) : Lists N where
  seq _ := none
  nodup := by rintro _ _ ⟨⟩
  head_notMem := by rintro _ _ _ ⟨⟩
  apart := by rintro _ _ _ _ _ ⟨⟩

/-- A node is in a list. -/
def IsLinked (s : Lists N) (x : N) : Prop := ∃ head xs, s.seq head = some xs ∧ x ∈ xs

/-- A sequence whose nodes are in no list but the head's own. -/
structure Fits (s : Lists N) (head : N) (ys : List N) : Prop where
  nodup : ys.Nodup
  head_notMem : head ∉ ys
  head_free : ¬s.IsLinked head
  free : ∀ head' xs, s.seq head' = some xs → head' ≠ head → List.Disjoint ys xs

/-- The sequences where that of a head becomes another one. The heads in it are heads no longer. -/
def setSeq (seq : N → Option (List N)) (head : N) (ys : List N) (x : N) : Option (List N) :=
  if x = head then some ys else if x ∈ ys then none else seq x

theorem setSeq_eq_some {seq : N → Option (List N)} : setSeq seq head ys x = some zs ↔
    x = head ∧ ys = zs ∨ x ≠ head ∧ x ∉ ys ∧ seq x = some zs := by
  unfold setSeq
  split_ifs with hhead hmem
  · simp [hhead]
  · simp [hhead, hmem]
  · simp [hhead, hmem]

/-- The list of a head becomes a sequence. -/
def set (s : Lists N) (head : N) (ys : List N) (h : s.Fits head ys) : Lists N where
  seq := setSeq s.seq head ys
  nodup := by
    intro x zs hx
    rcases setSeq_eq_some.mp hx with ⟨-, rfl⟩ | ⟨-, -, hx⟩
    · exact h.nodup
    · exact s.nodup hx
  head_notMem := by
    intro x zs x' hx hx' hmem
    obtain ⟨zs', hx'⟩ := Option.isSome_iff_exists.mp hx'
    rcases setSeq_eq_some.mp hx with ⟨-, rfl⟩ | ⟨-, -, hseq⟩ <;>
      rcases setSeq_eq_some.mp hx' with ⟨rfl, -⟩ | ⟨-, hnot, hx'⟩
    · exact h.head_notMem hmem
    · exact hnot hmem
    · exact h.head_free ⟨x, zs, hseq, hmem⟩
    · exact s.head_notMem hseq (Option.isSome_of_eq_some hx') hmem
  apart := by
    intro x zs x' zs' z hx hx' hz hz'
    rcases setSeq_eq_some.mp hx with ⟨rfl, rfl⟩ | ⟨hne, -, hseq⟩ <;>
      rcases setSeq_eq_some.mp hx' with ⟨rfl, rfl⟩ | ⟨hne', -, hx'⟩
    · rfl
    · exact (h.free x' zs' hx' hne' hz hz').elim
    · exact (h.free x zs hseq hne hz' hz).elim
    · exact s.apart hseq hx' hz hz'

theorem seq_set_of_ne (h : s.Fits head ys) (hne : x ≠ head) (hx : x ∉ ys) :
    (s.set head ys h).seq x = s.seq x :=
  (if_neg hne).trans (if_neg hx)

theorem not_isLinked_set (h : s.Fits head ys) (hx : x ∉ ys) (hfree : ¬s.IsLinked x) :
    ¬(s.set head ys h).IsLinked x := by
  rintro ⟨head', zs, hhead', hmem⟩
  rcases setSeq_eq_some.mp hhead' with ⟨-, rfl⟩ | ⟨-, -, hseq⟩
  · exact hx hmem
  · exact hfree ⟨head', zs, hseq, hmem⟩

omit [DecidableEq N] in
theorem not_isLinked_empty : ¬(empty N).IsLinked x := by
  rintro ⟨head, xs, ⟨⟩, hmem⟩

omit [DecidableEq N] in
theorem not_isLinked (hhead : s.seq head = some xs) : ¬s.IsLinked head := by
  rintro ⟨head', ys, hhead', hmem⟩
  exact s.head_notMem hhead' (Option.isSome_of_eq_some hhead) hmem

omit [DecidableEq N] in
theorem head_cons_nodup (hhead : s.seq head = some xs) : (head :: xs).Nodup :=
  List.nodup_cons.mpr ⟨s.head_notMem hhead (Option.isSome_of_eq_some hhead), s.nodup hhead⟩

omit [DecidableEq N] in
theorem Fits.nil (hhead : ¬s.IsLinked head) : s.Fits head [] where
  nodup := .nil
  head_notMem := List.not_mem_nil
  head_free := hhead
  free _ _ _ _ := List.disjoint_nil_left _

omit [DecidableEq N] in
/-- Some of the nodes of a list. -/
theorem Fits.sublist (hhead : s.seq head = some xs) (hys : ys.Sublist xs) : s.Fits head ys where
  nodup := hys.nodup (s.nodup hhead)
  head_notMem hmem := s.head_notMem hhead (Option.isSome_of_eq_some hhead) (hys.mem hmem)
  head_free := not_isLinked hhead
  free _ _ hhead' hne := fun _ hy hz => hne (s.apart hhead' hhead hz (hys.mem hy))

omit [DecidableEq N] in
theorem notMem_of_free (hhead : s.seq head = some xs) (hnew : ¬s.IsLinked new) (hne : new ≠ head) :
    new ∉ head :: xs :=
  List.not_mem_cons_of_ne_of_not_mem hne fun hmem => hnew ⟨head, xs, hhead, hmem⟩

omit [DecidableEq N] in
/-- The nodes of a list and one that is in no list. -/
theorem Fits.perm_cons (hhead : s.seq head = some xs) (hnew : ¬s.IsLinked new) (hne : new ≠ head)
    (hys : ys.Perm (new :: xs)) : s.Fits head ys where
  nodup := hys.nodup_iff.mpr (List.nodup_cons.mpr ⟨fun h => hnew ⟨head, xs, hhead, h⟩,
    s.nodup hhead⟩)
  head_notMem hmem := by
    rcases List.mem_cons.mp (hys.mem_iff.mp hmem) with rfl | hmem
    · exact hne rfl
    · exact not_isLinked hhead ⟨head, xs, hhead, hmem⟩
  head_free := not_isLinked hhead
  free head' zs hhead' hne' := by
    intro y hy hz
    rcases List.mem_cons.mp (hys.mem_iff.mp hy) with rfl | hmem
    · exact hnew ⟨head', zs, hhead', hz⟩
    · exact hne' (s.apart hhead' hhead hz hmem)

/-- What a call does to the lists. A node may be added that is in no list, and a node may be made a
head that is in none. -/
inductive Step : Lists N → ListOp N → Lists N → Prop
  | init {s : Lists N} {head : N} (hhead : ¬s.IsLinked head) :
    Step s (.init head) (s.set head [] (.nil hhead))
  | addFront {s : Lists N} {head new : N} {xs : List N} (hhead : s.seq head = some xs)
      (hnew : ¬s.IsLinked new) (hne : new ≠ head) :
    Step s (.addFront head new) (s.set head (new :: xs) (.perm_cons hhead hnew hne (.refl _)))
  | addBack {s : Lists N} {head new : N} {xs : List N} (hhead : s.seq head = some xs)
      (hnew : ¬s.IsLinked new) (hne : new ≠ head) :
    Step s (.addBack head new)
      (s.set head (xs ++ [new]) (.perm_cons hhead hnew hne (List.perm_append_singleton new xs)))
  | delete {s : Lists N} {head target : N} {xs : List N} (hhead : s.seq head = some xs)
      (htarget : target ∈ xs) :
    Step s (.delete target) (s.set head (xs.erase target) (.sublist hhead List.erase_sublist))

/-- What calls one after another do to the lists. -/
inductive Run : Lists N → List (ListOp N) → Lists N → Prop
  | nil {s : Lists N} : Run s [] s
  | cons {s s₁ s' : Lists N} {op : ListOp N} {ops : List (ListOp N)} (hop : Step s op s₁)
      (hops : Run s₁ ops s') : Run s (op :: ops) s'

end Lists

/-! ## The operations on the rings -/

section Rings

variable {N : Type*} {m m' : LinkHeap N} {head new target p n : N} {xs as bs pre post l : List N}
  {fuel : ℕ}

/-- A list of the nodes of a head. -/
def LinkHeap.Holds (m : LinkHeap N) (head : N) (xs : List N) : Prop := IsRing m.next m.prev head xs

/-- Only links of some nodes are changed. -/
def LinkHeap.SameBut (m m' : LinkHeap N) (l : List N) : Prop :=
  ∀ y ∉ l, m'.next y = m.next y ∧ m'.prev y = m.prev y

theorem LinkHeap.SameBut.mono (h : m.SameBut m' l) (hl : l ⊆ xs) : m.SameBut m' xs :=
  fun y hy => h y fun hmem => hy (hl hmem)

theorem LinkHeap.SameBut.trans {m₁ m₂ : LinkHeap N} (h : m.SameBut m₁ l) (h' : m₁.SameBut m₂ l) :
    m.SameBut m₂ l :=
  fun y hy => ⟨(h' y hy).1.trans (h y hy).1, (h' y hy).2.trans (h y hy).2⟩

theorem LinkHeap.Holds.congr (h : m.Holds head xs) (hsame : m.SameBut m' l)
    (hl : List.Disjoint (head :: xs) l) : m'.Holds head xs :=
  IsRing.congr h (fun y hy => (hsame y (hl hy)).1) fun y hy => (hsame y (hl hy)).2

variable [DecidableEq N]

@[simp] theorem LinkHeap.next_setNext {x : N} {y : Option N} :
    (m.setNext x y).next = Function.update m.next x y := rfl

@[simp] theorem LinkHeap.prev_setNext {x : N} {y : Option N} : (m.setNext x y).prev = m.prev := rfl

@[simp] theorem LinkHeap.next_setPrev {x : N} {y : Option N} : (m.setPrev x y).next = m.next := rfl

@[simp] theorem LinkHeap.prev_setPrev {x : N} {y : Option N} :
    (m.setPrev x y).prev = Function.update m.prev x y := rfl

theorem listInit_spec (m : LinkHeap N) (head : N) :
    (listInit m head).Holds head [] ∧ m.SameBut (listInit m head) [head] := by
  refine ⟨ring_nil.mpr ⟨Function.update_self .., Function.update_self ..⟩, fun y hy => ?_⟩
  have hne := List.ne_of_not_mem_cons hy
  exact ⟨Function.update_of_ne hne .., Function.update_of_ne hne ..⟩

theorem listAdd_spec (h : List.IsChain (Linked m.next m.prev) (pre ++ p :: n :: post))
    (hfront : (pre ++ p :: n :: post).dropLast.Nodup) (hback : (pre ++ p :: n :: post).tail.Nodup)
    (hnew : new ∉ pre ++ p :: n :: post) : ∃ m', listAdd m (some new) (some p) (some n) = .ok m' ∧
      List.IsChain (Linked m'.next m'.prev) (pre ++ p :: new :: n :: post) ∧
      m.SameBut m' [new, p, n] := by
  have hp : new ≠ p := fun he => hnew (by simp [he])
  have hn : new ≠ n := fun he => hnew (by simp [he])
  refine ⟨_, rfl, Linked.insert h hfront hback hnew ?_ ?_ ⟨?_, ?_⟩ ⟨?_, ?_⟩, ?_⟩
  · intro y hyp hynew
    simp [hyp, hynew]
  · intro y hyn hynew
    simp [hyn, hynew]
  · simp
  · simp [hn]
  · simp [hp]
  · simp
  · intro y hy
    simp only [List.mem_cons, List.not_mem_nil, or_false, not_or] at hy
    obtain ⟨hynew, hyp, hyn⟩ := hy
    simp [hynew, hyp, hyn]

theorem listDelete_spec (h : List.IsChain (Linked m.next m.prev) (pre ++ p :: target :: n :: post))
    (hfront : (pre ++ p :: n :: post).dropLast.Nodup) (hback : (pre ++ p :: n :: post).tail.Nodup)
    (htarget : target ∉ pre ++ p :: n :: post) : ∃ m', listDelete m target = .ok m' ∧
      List.IsChain (Linked m'.next m'.prev) (pre ++ p :: n :: post) ∧ m.SameBut m' [p, n] := by
  have hp : target ≠ p := fun he => htarget (by simp [he])
  have hn : target ≠ n := fun he => htarget (by simp [he])
  obtain ⟨⟨-, hprev⟩, hnext, -⟩ :
      Linked m.next m.prev p target ∧ Linked m.next m.prev target n := by
    rw [List.isChain_append_cons_cons, List.isChain_cons_cons] at h
    exact ⟨h.2.1, h.2.2.1⟩
  have hdelete : listDelete m target = .ok ((m.setNext p (some n)).setPrev n (some p)) := by
    simp [listDelete, hprev, hnext, deref, hp, pure, Except.pure]
  refine ⟨_, hdelete, Linked.unlink h hfront hback htarget ?_ ?_ ⟨?_, ?_⟩, ?_⟩
  · intro y hyp
    simp [hyp]
  · intro y hyn
    simp [hyn]
  · simp
  · simp
  · intro y hy
    simp only [List.mem_cons, List.not_mem_nil, or_false, not_or] at hy
    obtain ⟨hyp, hyn⟩ := hy
    simp [hyp, hyn]

theorem listAddFront_spec (h : m.Holds head xs) (hnodup : (head :: xs).Nodup)
    (hnew : new ∉ head :: xs) : ∃ m', listAddFront m head (some new) = .ok m' ∧
      m'.Holds head (new :: xs) ∧ m.SameBut m' (new :: head :: xs) := by
  obtain ⟨n, post, hxs, hnext, -⟩ := h.next_head
  obtain ⟨hfront, hback⟩ := nodup_ring hnodup
  have hn : n ∈ head :: xs := mem_ring.mp (by simp [hxs])
  rw [← mem_ring] at hnew
  unfold LinkHeap.Holds IsRing at h ⊢
  rw [hxs] at h hfront hback hnew
  obtain ⟨m', hadd, hchain, hsame⟩ := listAdd_spec
    (show List.IsChain (Linked m.next m.prev) ([] ++ head :: n :: post) from h) hfront hback hnew
  refine ⟨m', ?_, ?_, hsame.mono ?_⟩
  · rw [listAddFront, hnext, hadd]
  · rwa [List.cons_append, hxs]
  · exact List.cons_subset_cons new (List.cons_subset.mpr ⟨List.mem_cons_self, by simpa using hn⟩)

theorem listAddBack_spec (h : m.Holds head xs) (hnodup : (head :: xs).Nodup)
    (hnew : new ∉ head :: xs) : ∃ m', listAddBack m head (some new) = .ok m' ∧
      m'.Holds head (xs ++ [new]) ∧ m.SameBut m' (new :: head :: xs) := by
  obtain ⟨p, pre, hxs, hprev, -⟩ := h.prev_head
  obtain ⟨hfront, hback⟩ := nodup_ring hnodup
  have hring : ∀ zs, head :: (xs ++ zs) = pre ++ p :: zs := fun zs => by
    rw [← List.cons_append, hxs, List.append_assoc, List.singleton_append]
  have hp : p ∈ head :: xs := by simp [hxs]
  rw [← mem_ring] at hnew
  unfold LinkHeap.Holds IsRing at h ⊢
  rw [hring] at h hfront hback hnew
  obtain ⟨m', hadd, hchain, hsame⟩ := listAdd_spec h hfront hback hnew
  refine ⟨m', ?_, ?_, hsame.mono ?_⟩
  · rw [listAddBack, hprev, hadd]
  · rwa [List.append_assoc, hring]
  · exact List.cons_subset_cons new (List.cons_subset.mpr ⟨hp, by simp⟩)

theorem listDelete_ring (h : m.Holds head (as ++ target :: bs))
    (hnodup : (head :: (as ++ target :: bs)).Nodup) : ∃ m', listDelete m target = .ok m' ∧
      m'.Holds head (as ++ bs) ∧ m.SameBut m' (head :: (as ++ bs)) := by
  obtain ⟨pre, p, hpre⟩ := (head :: as).eq_nil_or_concat'.resolve_left (List.cons_ne_nil head as)
  obtain ⟨n, post, hpost⟩ := List.exists_cons_of_ne_nil
    (List.append_ne_nil_of_right_ne_nil bs (List.cons_ne_nil head []))
  have hring : ∀ zs, head :: (as ++ zs) = pre ++ p :: zs := fun zs => by
    rw [← List.cons_append, hpre, List.append_assoc, List.singleton_append]
  have hmiddle : (target :: head :: (as ++ bs)).Nodup :=
    (List.perm_middle.cons head |>.trans (.swap ..)).nodup_iff.mp hnodup
  obtain ⟨htarget, hnodup'⟩ := List.nodup_cons.mp hmiddle
  obtain ⟨hfront, hback⟩ := nodup_ring hnodup'
  have hp : p ∈ head :: (as ++ bs) := List.mem_append_left bs
    (show p ∈ head :: as by simp [hpre])
  have hn : n ∈ head :: (as ++ bs) := mem_ring.mp (by simp [hpost])
  rw [← mem_ring] at htarget
  unfold LinkHeap.Holds IsRing at h ⊢
  rw [List.append_assoc, List.cons_append, hpost, hring] at h
  rw [List.append_assoc, hpost, hring] at hfront hback htarget ⊢
  obtain ⟨m', hdelete, hchain, hsame⟩ := listDelete_spec h hfront hback htarget
  exact ⟨m', hdelete, hchain, hsame.mono (List.cons_subset.mpr ⟨hp, by simpa using hn⟩)⟩

/-- A traversal whose body takes the node that it visits out of the list visits all the nodes. The
successor that is read before the body is the first node of what is left. -/
theorem safeLoop_spec {body : LinkHeap N → N → Except ListFault (LinkHeap N)}
    {P : LinkHeap N → List N → Prop} {pos : N} (hholds : ∀ m xs, P m xs → m.Holds head xs)
    (hbody : ∀ m pos xs, P m (pos :: xs) → ∃ m', body m pos = .ok m' ∧ P m' xs)
    (hhead : head ∉ xs) (h : P m xs) (hpos : m.next head = some pos) (hfuel : xs.length < fuel) :
    ∃ m', safeLoop body head fuel pos (m.next pos) m = .ok (xs, m') ∧ P m' [] := by
  induction xs generalizing m pos fuel with
  | nil =>
    obtain ⟨fuel, rfl⟩ := Nat.exists_eq_add_of_lt hfuel
    have hself : some pos = some head := hpos.symm.trans (ring_nil.mp (hholds m [] h)).1
    exact ⟨m, if_pos (Option.some.inj hself), h⟩
  | cons x xs ih =>
    rw [List.length_cons] at hfuel
    obtain ⟨fuel, rfl⟩ := Nat.exists_eq_succ_of_ne_zero (Nat.ne_zero_of_lt hfuel)
    obtain ⟨hx, hhead⟩ := not_or.mp (mt List.mem_cons.mpr hhead)
    have hchain := hholds m (x :: xs) h
    unfold LinkHeap.Holds IsRing at hchain
    rw [List.cons_append, List.isChain_cons_cons] at hchain
    obtain rfl : x = pos := Option.some.inj (hchain.1.1.symm.trans hpos)
    obtain ⟨m₁, hrun, h₁⟩ := hbody m x xs h
    obtain ⟨n, post, hxs, hnext, -⟩ := (hholds m₁ xs h₁).next_head
    have hread : m.next x = some n := by
      rw [hxs, List.isChain_cons_cons] at hchain
      exact hchain.2.1.1
    obtain ⟨m', hloop, h'⟩ := ih hhead h₁ hnext (Nat.lt_of_succ_lt_succ hfuel)
    refine ⟨m', ?_, h'⟩
    rw [safeLoop, if_neg (Ne.symm hx), hrun, hread]
    simp only [ok_bind, deref, hloop]
    rfl

theorem listForEachSafe_spec {body : LinkHeap N → N → Except ListFault (LinkHeap N)}
    {P : LinkHeap N → List N → Prop} (hholds : ∀ m xs, P m xs → m.Holds head xs)
    (hbody : ∀ m pos xs, P m (pos :: xs) → ∃ m', body m pos = .ok m' ∧ P m' xs)
    (hhead : head ∉ xs) (h : P m xs) (hfuel : xs.length < fuel) :
    ∃ m', listForEachSafe m body head fuel = .ok (xs, m') ∧ P m' [] := by
  obtain ⟨n, -, -, hnext, -⟩ := (hholds m xs h).next_head
  unfold listForEachSafe
  rw [hnext]
  exact safeLoop_spec hholds hbody hhead h hnext hfuel

/-- A traversal that deletes the nodes. -/
theorem listForEachSafe_delete (h : m.Holds head xs) (hnodup : (head :: xs).Nodup)
    (hfuel : xs.length < fuel) : ∃ m', listForEachSafe m listDelete head fuel = .ok (xs, m') ∧
      m'.Holds head [] ∧ m.SameBut m' (head :: xs) := by
  let P (m₁ : LinkHeap N) (ys : List N) : Prop :=
    m₁.Holds head ys ∧ ys.Sublist xs ∧ m.SameBut m₁ (head :: xs)
  have hbody : ∀ m₁ pos ys, P m₁ (pos :: ys) → ∃ m₂, listDelete m₁ pos = .ok m₂ ∧ P m₂ ys := by
    rintro m₁ pos ys ⟨h₁, hys, hsame⟩
    have hnodup₁ := (hys.cons_cons head).nodup hnodup
    obtain ⟨m₂, hdelete, h₂, hsame₂⟩ :=
      listDelete_ring (show m₁.Holds head ([] ++ pos :: ys) from h₁) hnodup₁
    have hys' : ys.Sublist xs := (List.sublist_cons_self pos ys).trans hys
    exact ⟨m₂, hdelete, h₂, hys',
      hsame.trans (hsame₂.mono (List.cons_subset_cons head hys'.subset))⟩
  have hstart : P m xs := ⟨h, .refl xs, fun _ _ => ⟨rfl, rfl⟩⟩
  obtain ⟨m', hrun, h', -, hsame⟩ := listForEachSafe_spec (fun _ _ h₁ => h₁.1) hbody
    (List.nodup_cons.mp hnodup).1 hstart hfuel
  exact ⟨m', hrun, h', hsame⟩

end Rings

/-! ## Runs of the operations -/

section Runs

variable {N : Type*} [DecidableEq N] {m m' : LinkHeap N} {s s' : Lists N} {head head' new : N}
  {xs ys zs l : List N} {op : ListOp N} {ops : List (ListOp N)} {fuel : ℕ}

/-- The lists of the heap are the sequences. -/
def LinkHeap.Represents (m : LinkHeap N) (s : Lists N) : Prop :=
  ∀ head xs, s.seq head = some xs → m.Holds head xs

/-- A list is still the same sequence, and the links of its nodes are as they were. -/
def Unaffected (m m' : LinkHeap N) (s' : Lists N) (head : N) (zs : List N) : Prop :=
  s'.seq head = some zs ∧ ∀ y ∈ head :: zs, m'.next y = m.next y ∧ m'.prev y = m.prev y

/-- The heads that a call is about. -/
def ListOp.Concerns (s : Lists N) : ListOp N → N → Prop
  | .init head, x => x = head
  | .addFront head new, x => x = head ∨ x = new
  | .addBack head new, x => x = head ∨ x = new
  | .delete target, x => ∃ xs, s.seq x = some xs ∧ target ∈ xs

omit [DecidableEq N] in
/-- No other list has a node in what a list was or becomes. -/
theorem Lists.Fits.disjoint (h : s.Fits head ys) (hhead' : s.seq head' = some zs)
    (hne : head' ≠ head) (hnot : head' ∉ ys)
    (hl : ∀ y ∈ l, y = head ∨ y ∈ ys ∨ ∃ xs, s.seq head = some xs ∧ y ∈ xs) :
    List.Disjoint (head' :: zs) l := by
  intro y hy hyl
  rcases List.mem_cons.mp hy with rfl | hz
  · rcases hl y hyl with he | hmem | ⟨xs, hhead, hmem⟩
    · exact hne he
    · exact hnot hmem
    · exact Lists.not_isLinked hhead' ⟨head, xs, hhead, hmem⟩
  · rcases hl y hyl with rfl | hmem | ⟨xs, hhead, hmem⟩
    · exact h.head_free ⟨head', zs, hhead', hz⟩
    · exact h.free head' zs hhead' hne hmem hz
    · exact hne (s.apart hhead' hhead hz hmem)

/-- One list is changed. -/
theorem LinkHeap.Represents.set (h : m.Represents s) (hfits : s.Fits head ys)
    (hholds : m'.Holds head ys) (hsame : m.SameBut m' l)
    (hl : ∀ y ∈ l, y = head ∨ y ∈ ys ∨ ∃ xs, s.seq head = some xs ∧ y ∈ xs) :
    m'.Represents (s.set head ys hfits) ∧ ∀ head' zs, s.seq head' = some zs → head' ≠ head →
      head' ∉ ys → Unaffected m m' (s.set head ys hfits) head' zs := by
  constructor
  · intro head' zs hhead'
    rcases Lists.setSeq_eq_some.mp hhead' with ⟨rfl, rfl⟩ | ⟨hne, hnot, hseq⟩
    · exact hholds
    · exact (h head' zs hseq).congr hsame (hfits.disjoint hseq hne hnot hl)
  · intro head' zs hseq hne hnot
    refine ⟨(Lists.seq_set_of_ne hfits hne hnot).trans hseq, fun y hy => hsame y ?_⟩
    exact hfits.disjoint hseq hne hnot hl hy

/-- A node is added to a list. -/
theorem LinkHeap.Represents.add (h : m.Represents s) (hhead : s.seq head = some xs)
    (hnew : ¬s.IsLinked new) (hne : new ≠ head) (hys : ys.Perm (new :: xs))
    (hholds : m'.Holds head ys) (hsame : m.SameBut m' (new :: head :: xs)) :
    m'.Represents (s.set head ys (.perm_cons hhead hnew hne hys)) ∧ ∀ head' zs,
      s.seq head' = some zs → ¬(head' = head ∨ head' = new) →
      Unaffected m m' (s.set head ys (.perm_cons hhead hnew hne hys)) head' zs := by
  have hl : ∀ y ∈ new :: head :: xs, y = head ∨ y ∈ ys ∨ ∃ xs, s.seq head = some xs ∧ y ∈ xs := by
    intro y hy
    rcases List.mem_cons.mp hy with rfl | hy
    · exact .inr (.inl (hys.mem_iff.mpr List.mem_cons_self))
    · exact (List.mem_cons.mp hy).imp_right fun hmem => .inr ⟨xs, hhead, hmem⟩
  obtain ⟨hrep, hrest⟩ := h.set (.perm_cons hhead hnew hne hys) hholds hsame hl
  refine ⟨hrep, fun head' zs hseq hnot => ?_⟩
  obtain ⟨hhead', hnew'⟩ := not_or.mp hnot
  refine hrest head' zs hseq hhead' fun hmem => ?_
  exact List.not_mem_cons_of_ne_of_not_mem hnew'
    (s.head_notMem hhead (Option.isSome_of_eq_some hseq)) (hys.mem_iff.mp hmem)

/-- A call does to the lists of the heap what it does to the sequences. -/
theorem Lists.Step.run (h : s.Step op s') (hm : m.Represents s) : ∃ m', op.run m = .ok m' ∧
    m'.Represents s' ∧
    ∀ head zs, s.seq head = some zs → ¬op.Concerns s head → Unaffected m m' s' head zs := by
  cases h with
  | @init head hhead =>
    obtain ⟨hholds, hsame⟩ := listInit_spec m head
    obtain ⟨hrep, hrest⟩ := hm.set (.nil hhead) hholds hsame (by simp)
    exact ⟨_, rfl, hrep, fun head' zs hseq hnot => hrest head' zs hseq hnot List.not_mem_nil⟩
  | @addFront head new xs hhead hnew hne =>
    obtain ⟨m', hrun, hholds, hsame⟩ := listAddFront_spec (hm head xs hhead)
      (head_cons_nodup hhead) (notMem_of_free hhead hnew hne)
    exact ⟨m', hrun, hm.add hhead hnew hne (.refl _) hholds hsame⟩
  | @addBack head new xs hhead hnew hne =>
    obtain ⟨m', hrun, hholds, hsame⟩ := listAddBack_spec (hm head xs hhead)
      (head_cons_nodup hhead) (notMem_of_free hhead hnew hne)
    exact ⟨m', hrun, hm.add hhead hnew hne (List.perm_append_singleton new xs) hholds hsame⟩
  | @delete head target xs hhead htarget =>
    obtain ⟨as, bs, rfl⟩ := List.append_of_mem htarget
    have herase : (as ++ target :: bs).erase target = as ++ bs := by
      obtain ⟨hnot, -⟩ := List.nodup_cons.mp (List.nodup_middle.mp (s.nodup hhead))
      rw [List.erase_append_right _ fun hmem => hnot (List.mem_append_left _ hmem),
        List.erase_cons_head]
    obtain ⟨m', hrun, hholds, hsame⟩ := listDelete_ring (hm head _ hhead) (head_cons_nodup hhead)
    rw [← herase] at hholds hsame
    obtain ⟨hrep, hrest⟩ := hm.set (.sublist hhead List.erase_sublist) hholds hsame (by
      simp only [List.mem_cons]
      tauto)
    refine ⟨m', hrun, hrep, fun head' zs hseq hnot => hrest head' zs hseq ?_ ?_⟩
    · rintro rfl
      exact hnot ⟨_, hhead, htarget⟩
    · exact fun hmem => s.head_notMem hhead (Option.isSome_of_eq_some hseq)
        (List.mem_of_mem_erase hmem)

theorem Lists.Run.run (h : s.Run ops s') (hm : m.Represents s) :
    ∃ m', ops.foldlM ListOp.run m = .ok m' ∧ m'.Represents s' := by
  induction h generalizing m with
  | nil => exact ⟨m, rfl, hm⟩
  | cons hop _ ih =>
    obtain ⟨m₁, hrun, hm₁, -⟩ := hop.run hm
    obtain ⟨m', hruns, hm'⟩ := ih hm₁
    exact ⟨m', foldlM_cons_eq_ok.mpr ⟨m₁, hrun, hruns⟩, hm'⟩

/-- From each head the list is visited in its order, and in the other direction backwards. -/
def LinkHeap.Visits (m : LinkHeap N) (s : Lists N) : Prop :=
  ∀ head xs, s.seq head = some xs → ∀ fuel > xs.length,
    listForEach m head fuel = some xs ∧ listForEachPrev m head fuel = some xs.reverse

theorem LinkHeap.Represents.visits (h : m.Represents s) : m.Visits s := by
  intro head xs hhead fuel hfuel
  have hnot : head ∉ xs := (List.nodup_cons.mp (Lists.head_cons_nodup hhead)).1
  exact ⟨(h head xs hhead).walk_next hnot hfuel, (h head xs hhead).walk_prev hnot hfuel⟩

theorem LinkHeap.Represents.deleteAll (h : m.Represents s) (hhead : s.seq head = some xs)
    (hfuel : xs.length < fuel) : ∃ m', listForEachSafe m listDelete head fuel = .ok (xs, m') ∧
      m'.Represents (s.set head [] (.nil (Lists.not_isLinked hhead))) := by
  obtain ⟨m', hrun, hholds, hsame⟩ := listForEachSafe_delete (h head xs hhead)
    (Lists.head_cons_nodup hhead) hfuel
  obtain ⟨hrep, -⟩ := h.set (.nil (Lists.not_isLinked hhead)) hholds hsame (by
    simp only [List.mem_cons]
    tauto)
  exact ⟨m', hrun, hrep⟩

/-- After any calls, from whatever links, the lists are the sequences, a call leaves the lists that
it is not about as they are, and a traversal that deletes the nodes visits each one once. -/
theorem lists_represented (m : LinkHeap N) (h : (Lists.empty N).Run ops s) :
    ∃ m₁, ops.foldlM ListOp.run m = .ok m₁ ∧ m₁.Visits s ∧
      (∀ op s', s.Step op s' → ∃ m₂, op.run m₁ = .ok m₂ ∧ m₂.Visits s' ∧
        ∀ head xs, s.seq head = some xs → ¬op.Concerns s head → Unaffected m₁ m₂ s' head xs) ∧
      ∀ head xs (hhead : s.seq head = some xs), xs.Nodup ∧ ∀ fuel > xs.length,
        ∃ m₂, listForEachSafe m₁ listDelete head fuel = .ok (xs, m₂) ∧
          m₂.Visits (s.set head [] (.nil (Lists.not_isLinked hhead))) := by
  have hempty : m.Represents (Lists.empty N) := fun _ _ hnone =>
    absurd hnone (by simp [Lists.empty])
  obtain ⟨m₁, hrun, h₁⟩ := h.run hempty
  refine ⟨m₁, hrun, h₁.visits, fun op s' hop => ?_, fun head xs hhead => ⟨s.nodup hhead, ?_⟩⟩
  · obtain ⟨m₂, hrun₂, h₂, hrest⟩ := hop.run h₁
    exact ⟨m₂, hrun₂, h₂.visits, hrest⟩
  · intro fuel hfuel
    obtain ⟨m₂, hdelete, h₂⟩ := h₁.deleteAll hhead hfuel
    exact ⟨m₂, hdelete, h₂.visits⟩

/-- Two lists, of which one gets two nodes and loses the first of them. -/
theorem lists_represented_two : ∃ s m₁, (Lists.empty ℕ).Run
      [.init 0, .init 1, .addBack 0 2, .addFront 0 3, .delete 2] s ∧ s.seq 0 = some [3] ∧
    [ListOp.init 0, .init 1, .addBack 0 2, .addFront 0 3, .delete 2].foldlM ListOp.run
      ⟨fun _ => none, fun _ => none⟩ = .ok m₁ ∧ m₁.Visits s := by
  have hrun : ∃ s, (Lists.empty ℕ).Run
      [.init 0, .init 1, .addBack 0 2, .addFront 0 3, .delete 2] s ∧ s.seq 0 = some [3] := by
    have h₀ : ∀ x, ¬(Lists.empty ℕ).IsLinked x := fun _ => Lists.not_isLinked_empty
    have h₁ : ∀ x, ¬((Lists.empty ℕ).set 0 [] (.nil (h₀ 0))).IsLinked x := fun x =>
      Lists.not_isLinked_set _ List.not_mem_nil (h₀ x)
    have h₂ : ∀ x, ¬(((Lists.empty ℕ).set 0 [] (.nil (h₀ 0))).set 1 [] (.nil (h₁ 1))).IsLinked x :=
      fun x => Lists.not_isLinked_set _ List.not_mem_nil (h₁ x)
    refine ⟨_, .cons (.init (h₀ 0)) (.cons (.init (h₁ 1)) (.cons (.addBack rfl (h₂ 2) (by decide))
      (.cons (.addFront rfl ?_ (by decide))
        (.cons (.delete (show Lists.seq _ 0 = some [3, 2] from rfl) (by decide)) .nil)))), rfl⟩
    exact Lists.not_isLinked_set _ (by decide) (h₂ 3)
  obtain ⟨s, hrun, hs⟩ := hrun
  obtain ⟨m₁, hcalls, hvisits, -⟩ := lists_represented ⟨fun _ => none, fun _ => none⟩ hrun
  exact ⟨s, m₁, hrun, hs, hcalls, hvisits⟩

end Runs

end Vdbg
