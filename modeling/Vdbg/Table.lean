import Mathlib.Data.List.Induction
import Mathlib.Data.List.Nodup
import Mathlib.Logic.Function.Basic

/-!
# Breakpoints that share traps

An abstract model of what breakpoints are for: each has an address and a flag, several may share an
address, and an address is patched or not. A debugger keeps the patches up with its edits, one edit
at a time (`Table.edit`), or installs them at once from the breakpoints in their order (`replay`).
Two ways to read the patches are of interest: an address traps when some breakpoint there is enabled
(`Trapping`), and an address is as a replay would leave it (`Resolved`). Each edit keeps either
reading under an exact condition.
-/

namespace Vdbg

/-- A breakpoint of the abstract model. -/
structure Row (κ α : Type*) where
  id : κ
  addr : α
  enable : Bool
deriving DecidableEq

/-- An edit of the breakpoints. -/
inductive Edit (κ α : Type*) where
  | set (id : κ) (addr : α)
  | enable (id : κ)
  | disable (id : κ)
  | delete (id : κ)

variable {κ α : Type*}

/-! ## Rows -/

namespace Row

variable {rows : List (Row κ α)} {id : κ} {a : α} {e : Bool}

/-- Where ids differ, a row splits the rows into those before and those after it. -/
theorem exists_split (hn : (rows.map Row.id).Nodup) {r : Row κ α} (hr : r ∈ rows) :
    ∃ l l', rows = l ++ r :: l' ∧ (∀ q ∈ l, q.id ≠ r.id) ∧ ∀ q ∈ l', q.id ≠ r.id := by
  obtain ⟨l, l', rfl⟩ := List.append_of_mem hr
  rw [List.map_append, List.map_cons] at hn
  refine ⟨l, l', rfl, fun q hq he => ?_, fun q hq he => ?_⟩
  · exact List.disjoint_of_nodup_append hn (List.mem_map_of_mem hq) (he ▸ List.mem_cons_self)
  · exact (List.nodup_cons.mp (List.nodup_append.mp hn).2.1).1 (he ▸ List.mem_map_of_mem hq)

section Addresses

variable [DecidableEq α]

/-- The rows at an address. -/
def sharing (rows : List (Row κ α)) (a : α) : List (Row κ α) := rows.filter fun r => r.addr = a

theorem mem_sharing {r : Row κ α} : r ∈ sharing rows a ↔ r ∈ rows ∧ r.addr = a := by simp [sharing]

theorem sharing_append (rows rows' : List (Row κ α)) (a : α) :
    sharing (rows ++ rows') a = sharing rows a ++ sharing rows' a := List.filter_append ..

theorem sharing_singleton (r : Row κ α) (a : α) :
    sharing [r] a = if r.addr = a then [r] else [] := by
  by_cases h : r.addr = a <;> simp [sharing, h]

theorem nodup_sharing (hn : (rows.map Row.id).Nodup) (a : α) :
    ((sharing rows a).map Row.id).Nodup :=
  hn.sublist (List.filter_sublist.map _)

/-- No row of another address has the id of a row. -/
theorem id_ne_of_sharing (hn : (rows.map Row.id).Nodup) {r : Row κ α} (hr : r ∈ rows)
    (ha : a ≠ r.addr) : ∀ q ∈ sharing rows a, q.id ≠ r.id := by
  intro q hq he
  obtain ⟨hq, hqa⟩ := mem_sharing.mp hq
  exact ha (hqa.symm.trans (congrArg Row.addr (List.inj_on_of_nodup_map hn hq hr he)))

end Addresses

section Ids

variable [DecidableEq κ]

def setEnable (e : Bool) (rows : List (Row κ α)) (id : κ) : List (Row κ α) :=
  rows.map fun r => if r.id = id then { r with enable := e } else r

def remove (rows : List (Row κ α)) (id : κ) : List (Row κ α) := rows.filter fun r => r.id ≠ id

theorem setEnable_of_not_mem (h : ∀ r ∈ rows, r.id ≠ id) : setEnable e rows id = rows :=
  (List.map_congr_left fun r hr => if_neg (h r hr)).trans (List.map_id rows)

theorem remove_of_not_mem (h : ∀ r ∈ rows, r.id ≠ id) : remove rows id = rows :=
  List.filter_eq_self.mpr fun r hr => decide_eq_true (h r hr)

theorem setEnable_split {l l' : List (Row κ α)} {r : Row κ α} (hl : ∀ q ∈ l, q.id ≠ r.id)
    (hl' : ∀ q ∈ l', q.id ≠ r.id) :
    setEnable e (l ++ r :: l') r.id = l ++ { r with enable := e } :: l' := by
  have h := setEnable_of_not_mem (e := e) hl
  have h' := setEnable_of_not_mem (e := e) hl'
  unfold setEnable at h h' ⊢
  rw [List.map_append, List.map_cons, h, h', if_pos rfl]

theorem remove_split {l l' : List (Row κ α)} {r : Row κ α} (hl : ∀ q ∈ l, q.id ≠ r.id)
    (hl' : ∀ q ∈ l', q.id ≠ r.id) : remove (l ++ r :: l') r.id = l ++ l' := by
  have h := remove_of_not_mem hl
  have h' := remove_of_not_mem hl'
  unfold remove at h h' ⊢
  rw [List.filter_append, h, List.filter_cons_of_neg (by simp), h']

theorem map_id_setEnable : (setEnable e rows id).map Row.id = rows.map Row.id := by
  rw [setEnable, List.map_map]
  refine List.map_congr_left fun r _ => ?_
  by_cases h : r.id = id <;> simp [h]

end Ids

variable [DecidableEq κ] [DecidableEq α]

theorem sharing_setEnable : sharing (setEnable e rows id) a = setEnable e (sharing rows a) id := by
  unfold sharing setEnable
  rw [List.filter_map]
  congr 1
  refine List.filter_congr fun r _ => ?_
  by_cases h : r.id = id <;> simp [h]

theorem sharing_remove : sharing (remove rows id) a = remove (sharing rows a) id := by
  unfold sharing remove
  rw [List.filter_comm]

def edit (rows : List (Row κ α)) : Edit κ α → List (Row κ α)
  | .set id a => rows ++ [⟨id, a, true⟩]
  | .enable id => setEnable true rows id
  | .disable id => setEnable false rows id
  | .delete id => remove rows id

end Row

/-! ## Replays -/

/-- The flag of the last row. -/
def lastEnabled (rows : List (Row κ α)) : Bool := rows.getLast?.any Row.enable

theorem lastEnabled_concat (rows : List (Row κ α)) (r : Row κ α) :
    lastEnabled (rows ++ [r]) = r.enable := by
  rw [lastEnabled, List.getLast?_concat, Option.any_some]

/-- The last row of those before and after `r`. -/
theorem lastEnabled_split (l l' : List (Row κ α)) (r : Row κ α) :
    lastEnabled (l ++ r :: l') = if l' = [] then r.enable else lastEnabled l' := by
  rcases List.eq_nil_or_concat l' with rfl | ⟨l'', q, rfl⟩
  · rw [if_pos rfl, lastEnabled_concat]
  · rw [if_neg (by simp), List.concat_eq_append, lastEnabled_concat, ← List.cons_append,
      ← List.append_assoc, lastEnabled_concat]

theorem lastEnabled_mem {l : List (Row κ α)} (h : lastEnabled l = true) :
    ∃ q ∈ l, q.enable = true := by
  rcases List.eq_nil_or_concat l with rfl | ⟨l', q, rfl⟩
  · cases h
  · rw [List.concat_eq_append, lastEnabled_concat] at h
    exact ⟨q, by simp, h⟩

theorem lastEnabled_of_all {l : List (Row κ α)} (hne : l ≠ []) (h : ∀ q ∈ l, q.enable = true) :
    lastEnabled l = true := by
  obtain ⟨l', q, rfl⟩ := (List.eq_nil_or_concat l).resolve_left hne
  rw [List.concat_eq_append, lastEnabled_concat]
  exact h q (by simp)

/-- Where another row follows `r`, it is not the last one. -/
theorem split_ne_concat {l l' l₁ : List (Row κ α)} {r : Row κ α} (hne : l' ≠ [])
    (hl' : ∀ q ∈ l', q.id ≠ r.id) : l ++ r :: l' ≠ l₁ ++ [r] := by
  intro he
  obtain ⟨l₂, q, rfl⟩ := (List.eq_nil_or_concat l').resolve_left hne
  rw [List.concat_eq_append] at he hl'
  have hlast := congrArg List.getLast? he
  rw [List.getLast?_concat, ← List.cons_append, ← List.append_assoc, List.getLast?_concat] at hlast
  exact hl' q (by simp) (by rw [Option.some.inj hlast])

variable [DecidableEq α]

/-- The patches installed from the rows, the first one first. -/
def replay (rows : List (Row κ α)) : α → Bool :=
  rows.foldl (fun patched r => Function.update patched r.addr r.enable) fun _ => false

theorem replay_concat (rows : List (Row κ α)) (r : Row κ α) :
    replay (rows ++ [r]) = Function.update (replay rows) r.addr r.enable := by
  rw [replay, List.foldl_append]; rfl

/-- The last breakpoint at an address decides whether a replay patches it. -/
theorem replay_apply (rows : List (Row κ α)) (a : α) :
    replay rows a = lastEnabled (Row.sharing rows a) := by
  induction rows using List.reverseRecOn with
  | nil => rfl
  | append_singleton rows r ih =>
    rw [replay_concat, Row.sharing_append, Function.update_apply, Row.sharing_singleton]
    by_cases ha : a = r.addr
    · rw [if_pos ha, if_pos ha.symm, lastEnabled_concat]
    · rw [if_neg ha, if_neg (Ne.symm ha), List.append_nil, ih]

/-! ## Tables -/

/-- The breakpoints in the order they were set, and the patched addresses. -/
structure Table (κ α : Type*) where
  rows : List (Row κ α)
  patched : α → Bool

variable [DecidableEq κ]

/-- The address an edit is about. -/
def Edit.addr (rows : List (Row κ α)) : Edit κ α → Option α
  | .set _ a => some a
  | .enable id | .disable id | .delete id => (rows.find? fun r => r.id = id).map Row.addr

/-- Whether an address is patched after an edit that leaves `rows` there. -/
def Edit.patch (patched : Bool) (rows : List (Row κ α)) : Edit κ α → Bool
  | .set _ _ => true
  | .enable _ => patched || rows.all Row.enable
  | .disable _ => patched && rows.any Row.enable
  | .delete _ => patched && !rows.isEmpty

/-- The edit that sets a flag. -/
def Edit.flag (e : Bool) (id : κ) : Edit κ α := if e then .enable id else .disable id

omit [DecidableEq α] in
theorem Row.edit_flag (rows : List (Row κ α)) (e : Bool) (id : κ) :
    Row.edit rows (.flag e id) = Row.setEnable e rows id := by
  cases e <;> rfl

namespace Table

/-- An edit with every patch it makes or takes away. -/
def edit (t : Table κ α) (e : Edit κ α) : Table κ α :=
  match e.addr t.rows with
  | none => t
  | some a =>
    { rows := Row.edit t.rows e
      patched := Function.update t.patched a
        (e.patch (t.patched a) (Row.sharing (Row.edit t.rows e) a)) }

/-- Edits, the first one first. -/
def run (t : Table κ α) (es : List (Edit κ α)) : Table κ α := es.foldl edit t

/-- An address traps exactly when a breakpoint there is enabled. -/
def Trapping (t : Table κ α) : Prop := ∀ a, t.patched a = (Row.sharing t.rows a).any Row.enable

/-- The patches are those of a replay. -/
def Resolved (t : Table κ α) : Prop := ∀ a, t.patched a = lastEnabled (Row.sharing t.rows a)

/-- The edits that keep `Trapping`. -/
def KeepsTrapping (t : Table κ α) : Edit κ α → Prop
  | .set _ _ | .disable _ => True
  | .enable id => ∀ r ∈ t.rows, r.id = id →
    (∃ q ∈ Row.sharing t.rows r.addr, q.enable = true) ∨ Row.sharing t.rows r.addr = [r]
  | .delete id => ∀ r ∈ t.rows, r.id = id → r.enable = true →
    (∃ q ∈ Row.sharing t.rows r.addr, q.id ≠ id ∧ q.enable = true) ∨
      Row.sharing t.rows r.addr = [r]

/-- The edits that keep `Resolved`. All but those of the last of several breakpoints do. -/
def KeepsResolved (t : Table κ α) : Edit κ α → Prop
  | .set _ _ => True
  | .enable id => ∀ r, r.id = id → ∀ l, Row.sharing t.rows r.addr = l ++ [r] →
    r.enable = true ∨ ∀ q ∈ l, q.enable = true
  | .disable id => ∀ r, r.id = id → ∀ l, Row.sharing t.rows r.addr = l ++ [r] →
    r.enable = false ∨ ∀ q ∈ l, q.enable = false
  | .delete id => ∀ r, r.id = id → ∀ l, Row.sharing t.rows r.addr = l ++ [r] →
    l = [] ∨ lastEnabled l = r.enable

/-! ## One edit -/

section Edit

variable {t : Table κ α} {e : Edit κ α} {a : α} {r : Row κ α}

theorem edit_of_addr (ha : e.addr t.rows = some a) :
    t.edit e = ⟨Row.edit t.rows e, Function.update t.patched a
      (e.patch (t.patched a) (Row.sharing (Row.edit t.rows e) a))⟩ := by
  unfold edit
  rw [ha]

theorem edit_of_unknown (ha : e.addr t.rows = none) : t.edit e = t := by
  unfold edit
  rw [ha]

omit [DecidableEq α] in
/-- The row an id finds. -/
theorem find_eq (hn : (t.rows.map Row.id).Nodup) (hr : r ∈ t.rows) :
    t.rows.find? (fun q => q.id = r.id) = some r := by
  obtain ⟨l, l', hrows, hl, -⟩ := Row.exists_split hn hr
  rw [hrows, List.find?_append, List.find?_eq_none.mpr (by simpa using hl), Option.none_or,
    List.find?_cons_of_pos (by simp)]

omit [DecidableEq α] in
theorem addr_eq_none {id : κ} :
    (t.rows.find? fun q => q.id = id).map Row.addr = none ↔ ∀ r ∈ t.rows, r.id ≠ id := by
  simp

/-- The rows change as the edit says, also where it names no row. -/
theorem edit_rows (t : Table κ α) (e : Edit κ α) : (t.edit e).rows = Row.edit t.rows e := by
  rcases ha : e.addr t.rows with - | a
  · rw [edit_of_unknown ha]
    cases e with
    | set id a => cases ha
    | enable id => exact (Row.setEnable_of_not_mem (addr_eq_none.mp ha)).symm
    | disable id => exact (Row.setEnable_of_not_mem (addr_eq_none.mp ha)).symm
    | delete id => exact (Row.remove_of_not_mem (addr_eq_none.mp ha)).symm
  · rw [edit_of_addr ha]

/-- A reading of the patches, one address at a time, is kept by an edit exactly when it is kept at
the address the edit is about. -/
theorem forall_edit_iff {P : List (Row κ α) → Bool}
    (h : ∀ a, t.patched a = P (Row.sharing t.rows a)) (ha : e.addr t.rows = some a)
    (hother : ∀ a' ≠ a, Row.sharing (Row.edit t.rows e) a' = Row.sharing t.rows a') :
    (∀ a', (t.edit e).patched a' = P (Row.sharing (t.edit e).rows a')) ↔
      e.patch (t.patched a) (Row.sharing (Row.edit t.rows e) a) =
        P (Row.sharing (Row.edit t.rows e) a) := by
  simp only [edit_of_addr ha, Function.update_apply]
  constructor
  · intro h'
    simpa only [if_true] using h' a
  · intro h' a'
    split_ifs with ha'
    · rw [ha']
      exact h'
    · rw [hother a' ha']
      exact h a'

theorem sharing_set_ne (id : κ) (rows : List (Row κ α)) {a' : α} (ha : a' ≠ a) :
    Row.sharing (Row.edit rows (.set id a)) a' = Row.sharing rows a' := by
  rw [Row.edit, Row.sharing_append, Row.sharing_singleton, if_neg (Ne.symm ha), List.append_nil]

theorem sharing_setEnable_ne (hn : (t.rows.map Row.id).Nodup) (hr : r ∈ t.rows) (e : Bool) {a : α}
    (ha : a ≠ r.addr) :
    Row.sharing (Row.setEnable e t.rows r.id) a = Row.sharing t.rows a := by
  rw [Row.sharing_setEnable, Row.setEnable_of_not_mem (Row.id_ne_of_sharing hn hr ha)]

theorem sharing_remove_ne (hn : (t.rows.map Row.id).Nodup) (hr : r ∈ t.rows) {a : α}
    (ha : a ≠ r.addr) : Row.sharing (Row.remove t.rows r.id) a = Row.sharing t.rows a := by
  rw [Row.sharing_remove, Row.remove_of_not_mem (Row.id_ne_of_sharing hn hr ha)]

omit [DecidableEq κ] in
/-- The rows that share the address of a row, those before and those after it. -/
theorem sharing_split (hn : (t.rows.map Row.id).Nodup) (hr : r ∈ t.rows) :
    ∃ l l', Row.sharing t.rows r.addr = l ++ r :: l' ∧ (∀ q ∈ l, q.id ≠ r.id) ∧
      ∀ q ∈ l', q.id ≠ r.id :=
  Row.exists_split (Row.nodup_sharing hn r.addr) (Row.mem_sharing.mpr ⟨hr, rfl⟩)

/-- An edit that names an id is one of the row that has it, or of none. -/
theorem edit_iff_row {P : Table κ α → Prop} {K : Row κ α → Prop} {id : κ}
    (hn : (t.rows.map Row.id).Nodup) (h : P t)
    (haddr : e.addr t.rows = (t.rows.find? fun q => q.id = id).map Row.addr)
    (hrow : ∀ r ∈ t.rows, r.id = id → (P (t.edit e) ↔ K r)) :
    P (t.edit e) ↔ ∀ r ∈ t.rows, r.id = id → K r := by
  by_cases hid : ∀ r ∈ t.rows, r.id ≠ id
  · rw [edit_of_unknown (haddr.trans (addr_eq_none.mpr hid))]
    exact iff_of_true h fun r hr he => absurd he (hid r hr)
  · push Not at hid
    obtain ⟨r, hr, he⟩ := hid
    rw [hrow r hr he]
    constructor
    · intro hk q hq hqe
      obtain rfl := List.inj_on_of_nodup_map hn hr hq (he.trans hqe.symm)
      exact hk
    · exact fun hk => hk r hr he

end Edit

/-! ## Trapping -/

section Trapping

variable {t : Table κ α} {r : Row κ α} (hn : (t.rows.map Row.id).Nodup) (h : t.Trapping)

theorem append_cons_eq_singleton {β : Type*} {l l' : List β} {b : β} :
    l ++ b :: l' = [b] ↔ l = [] ∧ l' = [] := by
  constructor
  · intro he
    have hlen := congrArg List.length he
    simp only [List.length_append, List.length_cons, List.length_nil] at hlen
    exact ⟨List.eq_nil_of_length_eq_zero (by omega), List.eq_nil_of_length_eq_zero (by omega)⟩
  · rintro ⟨rfl, rfl⟩
    rfl

include h in
theorem Trapping.set (id : κ) (a : α) : (t.edit (.set id a)).Trapping := by
  refine (forall_edit_iff (P := fun rows => rows.any Row.enable) h rfl fun a' ha' =>
    sharing_set_ne id t.rows ha').mpr ?_
  rw [Row.edit, Row.sharing_append, Row.sharing_singleton, if_pos rfl, List.any_append]
  simp [Edit.patch]

include hn h in
theorem Trapping.disable (hr : r ∈ t.rows) : (t.edit (.disable r.id)).Trapping := by
  have haddr : (Edit.disable r.id).addr t.rows = some r.addr := by
    rw [Edit.addr, find_eq hn hr, Option.map_some]
  obtain ⟨l, l', hs, hl, hl'⟩ := sharing_split hn hr
  refine (forall_edit_iff (P := fun rows => rows.any Row.enable) h haddr fun a' ha' =>
    sharing_setEnable_ne hn hr false ha').mpr ?_
  -- what is still enabled was enabled before
  rw [h, Row.edit, Row.sharing_setEnable, hs, Row.setEnable_split hl hl']
  cases hany : l.any Row.enable <;> cases hany' : l'.any Row.enable <;>
    simp [Edit.patch, hany, hany']

include hn h in
/-- Enabling a breakpoint patches an address where none was enabled only if it is alone there. -/
theorem Trapping.enable_iff (hr : r ∈ t.rows) :
    (t.edit (.enable r.id)).Trapping ↔
      (∃ q ∈ Row.sharing t.rows r.addr, q.enable = true) ∨ Row.sharing t.rows r.addr = [r] := by
  have haddr : (Edit.enable r.id).addr t.rows = some r.addr := by
    rw [Edit.addr, find_eq hn hr, Option.map_some]
  obtain ⟨l, l', hs, hl, hl'⟩ := sharing_split hn hr
  refine (forall_edit_iff (P := fun rows => rows.any Row.enable) h haddr fun a' ha' =>
    sharing_setEnable_ne hn hr true ha').trans ?_
  rw [h, Row.edit, Row.sharing_setEnable, hs, Row.setEnable_split hl hl', append_cons_eq_singleton]
  have hany : (l ++ { r with enable := true } :: l').any Row.enable = true := by simp
  rw [hany, Edit.patch, Bool.or_eq_true, List.any_eq_true, List.all_eq_true]
  constructor
  · rintro (hex | hall)
    · exact .inl hex
    · by_cases hnil : l = [] ∧ l' = []
      · exact .inr hnil
      · -- another row is there, and it is enabled
        obtain ⟨q, hq⟩ : ∃ q, q ∈ l ++ l' :=
          List.exists_mem_of_ne_nil _ (by simpa [List.append_eq_nil_iff] using hnil)
        rcases List.mem_append.mp hq with hq | hq
        · exact .inl ⟨q, by simp [hq], hall q (by simp [hq])⟩
        · exact .inl ⟨q, by simp [hq], hall q (by simp [hq])⟩
  · rintro (hex | ⟨rfl, rfl⟩)
    · exact .inl hex
    · exact .inr (by simp)

include hn h in
/-- Deleting an enabled breakpoint leaves its patch to the disabled ones it shared it with. -/
theorem Trapping.delete_iff (hr : r ∈ t.rows) :
    (t.edit (.delete r.id)).Trapping ↔ (r.enable = true →
      (∃ q ∈ Row.sharing t.rows r.addr, q.id ≠ r.id ∧ q.enable = true) ∨
        Row.sharing t.rows r.addr = [r]) := by
  have haddr : (Edit.delete r.id).addr t.rows = some r.addr := by
    rw [Edit.addr, find_eq hn hr, Option.map_some]
  obtain ⟨l, l', hs, hl, hl'⟩ := sharing_split hn hr
  refine (forall_edit_iff (P := fun rows => rows.any Row.enable) h haddr fun a' ha' =>
    sharing_remove_ne hn hr ha').trans ?_
  have hothers : (∃ q ∈ l ++ r :: l', q.id ≠ r.id ∧ q.enable = true) ↔
      (l ++ l').any Row.enable = true := by
    rw [List.any_eq_true]
    constructor
    · rintro ⟨q, hq, hne, he⟩
      refine ⟨q, ?_, he⟩
      rcases List.mem_append.mp hq with hq | hq
      · exact List.mem_append_left _ hq
      · rcases List.mem_cons.mp hq with rfl | hq
        · exact absurd rfl hne
        · exact List.mem_append_right _ hq
    · rintro ⟨q, hq, he⟩
      rcases List.mem_append.mp hq with hq | hq
      · exact ⟨q, by simp [hq], hl q hq, he⟩
      · exact ⟨q, by simp [hq], hl' q hq, he⟩
  rw [h, Row.edit, Row.sharing_remove, hs, Row.remove_split hl hl', hothers,
    append_cons_eq_singleton, ← List.append_eq_nil_iff, ← List.isEmpty_iff]
  have hany : (l ++ r :: l').any Row.enable = (r.enable || (l ++ l').any Row.enable) := by
    simp only [List.any_append, List.any_cons, Bool.or_left_comm]
  rw [hany]
  have hempty : (l ++ l').isEmpty = true → (l ++ l').any Row.enable = false := by
    intro he
    rw [List.isEmpty_iff.mp he, List.any_nil]
  cases r.enable <;> cases he : (l ++ l').isEmpty <;> cases hr' : (l ++ l').any Row.enable <;>
    simp_all [Edit.patch]

include hn h in
theorem Trapping.edit_iff (e : Edit κ α) : (t.edit e).Trapping ↔ t.KeepsTrapping e := by
  cases e with
  | set id a => exact iff_of_true (h.set id a) trivial
  | disable id =>
    have hrows := edit_iff_row (e := .disable id) (P := Trapping) (K := fun _ => True) hn h rfl
      fun r hr he => iff_of_true (he ▸ h.disable hn hr) trivial
    exact iff_of_true (hrows.mpr fun _ _ _ => trivial) trivial
  | enable id => exact edit_iff_row hn h rfl fun r hr he => he ▸ h.enable_iff hn hr
  | delete id => exact edit_iff_row hn h rfl fun r hr he => he ▸ h.delete_iff hn hr

end Trapping

/-! ## Editing every breakpoint -/

section EditAll

variable {t : Table κ α} {e : Bool}

omit [DecidableEq α] in
/-- A flag set at every listed id. -/
theorem foldl_setEnable (ids : List κ) (rows : List (Row κ α)) :
    ids.foldl (Row.setEnable e) rows =
      rows.map fun r => if r.id ∈ ids then { r with enable := e } else r := by
  induction ids generalizing rows with
  | nil => simp
  | cons id ids ih =>
    rw [List.foldl_cons, ih, Row.setEnable, List.map_map]
    refine List.map_congr_left fun r _ => ?_
    by_cases h : r.id = id <;> by_cases h' : r.id ∈ ids <;> simp [h, h']

/-- Addresses whose breakpoints are all enabled are patched, and a patched address has an enabled
breakpoint. -/
def Between (t : Table κ α) : Prop := ∀ a,
  (Row.sharing t.rows a ≠ [] → (∀ r ∈ Row.sharing t.rows a, r.enable = true) → t.patched a = true) ∧
    (t.patched a = true → ∃ r ∈ Row.sharing t.rows a, r.enable = true)

omit [DecidableEq κ] in
theorem Trapping.between (h : t.Trapping) : t.Between := by
  intro a
  rw [h a, List.any_eq_true]
  refine ⟨fun hne hall => ?_, id⟩
  obtain ⟨r, hr⟩ := List.exists_mem_of_ne_nil _ hne
  exact ⟨r, hr, hall r hr⟩

theorem Between.enable (h : t.Between) (hn : (t.rows.map Row.id).Nodup) (id : κ) :
    (t.edit (.enable id)).Between := by
  by_cases hid : ∀ r ∈ t.rows, r.id ≠ id
  · rwa [edit_of_unknown (e := .enable id) (addr_eq_none.mpr hid)]
  · push Not at hid
    obtain ⟨r, hr, rfl⟩ := hid
    have haddr : (Edit.enable r.id).addr t.rows = some r.addr := by
      rw [Edit.addr, find_eq hn hr, Option.map_some]
    intro a
    rw [edit_of_addr haddr]
    by_cases ha : a = r.addr
    · obtain ⟨l, l', hs, hl, hl'⟩ := sharing_split hn hr
      simp only [ha, Function.update_self, Row.edit, Row.sharing_setEnable, hs,
        Row.setEnable_split hl hl', Edit.patch, Bool.or_eq_true, List.all_eq_true]
      exact ⟨fun _ hall => .inr hall, fun _ => ⟨{ r with enable := true }, by simp, rfl⟩⟩
    · simp only [Function.update_of_ne ha, Row.edit, sharing_setEnable_ne hn hr true ha]
      exact h a

omit [DecidableEq κ] in
theorem Between.trapping (h : t.Between) (hall : ∀ r ∈ t.rows, r.enable = true) : t.Trapping := by
  intro a
  have hsharing : ∀ r ∈ Row.sharing t.rows a, r.enable = true :=
    fun r hr => hall r (Row.mem_sharing.mp hr).1
  rw [Bool.eq_iff_iff, List.any_eq_true]
  refine ⟨(h a).2, ?_⟩
  rintro ⟨r, hr, -⟩
  exact (h a).1 (List.ne_nil_of_mem hr) hsharing

/-- **Enabling every breakpoint keeps `Trapping`**, although an edit in the middle may break it. -/
theorem Trapping.enableAll (h : t.Trapping) (hn : (t.rows.map Row.id).Nodup) :
    (t.run ((t.rows.map Row.id).map .enable)).Trapping := by
  have hrun : ∀ (ids : List κ) (t : Table κ α), (t.rows.map Row.id).Nodup → t.Between →
      (t.run (ids.map .enable)).Between ∧
        (t.run (ids.map .enable)).rows = ids.foldl (Row.setEnable true) t.rows := by
    intro ids
    induction ids with
    | nil => exact fun t _ h => ⟨h, rfl⟩
    | cons id ids ih =>
      intro t hn h
      have hrows : (t.edit (.enable id)).rows = Row.setEnable true t.rows id := edit_rows t _
      have hn' : ((t.edit (.enable id)).rows.map Row.id).Nodup := by
        rwa [hrows, Row.map_id_setEnable]
      have hstep := ih (t.edit (.enable id)) hn' (h.enable hn id)
      rwa [hrows] at hstep
  obtain ⟨hbetween, hrows⟩ := hrun (t.rows.map Row.id) t hn h.between
  refine hbetween.trapping fun r hr => ?_
  rw [hrows, foldl_setEnable] at hr
  obtain ⟨q, hq, rfl⟩ := List.mem_map.mp hr
  rw [if_pos (List.mem_map_of_mem hq)]

theorem Trapping.disableAll (h : t.Trapping) (hn : (t.rows.map Row.id).Nodup) (ids : List κ) :
    (t.run (ids.map .disable)).Trapping := by
  induction ids generalizing t with
  | nil => exact h
  | cons id ids ih =>
    refine ih ((h.edit_iff hn (.disable id)).mpr trivial) ?_
    rwa [edit_rows, Row.edit, Row.map_id_setEnable]

end EditAll

/-! ## Resolved -/

section Resolved

variable {t : Table κ α} {r : Row κ α} (hn : (t.rows.map Row.id).Nodup) (h : t.Resolved)

include h in
theorem Resolved.set (id : κ) (a : α) : (t.edit (.set id a)).Resolved := by
  refine (forall_edit_iff h rfl fun a' ha' => sharing_set_ne id t.rows ha').mpr ?_
  rw [Row.edit, Row.sharing_append, Row.sharing_singleton, if_pos rfl, lastEnabled_concat]
  rfl

include hn h in
/-- Enabling the last one of several breakpoints must patch what it did not patch before. -/
theorem Resolved.enable_iff (hr : r ∈ t.rows) :
    (t.edit (.enable r.id)).Resolved ↔ ∀ l, Row.sharing t.rows r.addr = l ++ [r] →
      r.enable = true ∨ ∀ q ∈ l, q.enable = true := by
  have haddr : (Edit.enable r.id).addr t.rows = some r.addr := by
    rw [Edit.addr, find_eq hn hr, Option.map_some]
  obtain ⟨l, l', hs, hl, hl'⟩ := sharing_split hn hr
  refine (forall_edit_iff h haddr fun a' ha' => sharing_setEnable_ne hn hr true ha').trans ?_
  rw [h, Row.edit, Row.sharing_setEnable, hs, Row.setEnable_split hl hl', lastEnabled_split,
    lastEnabled_split]
  rcases eq_or_ne l' [] with rfl | hne
  · simp [Edit.patch]
  · refine iff_of_true ?_ fun l₁ he => absurd he (split_ne_concat hne hl')
    rw [if_neg hne, if_neg hne]
    cases hlast : lastEnabled l' with
    | true => rfl
    | false =>
      -- a last row that is off keeps the address from being patched
      refine Bool.eq_false_iff.mpr fun hall => ?_
      simp only [Edit.patch, Bool.false_or, List.all_eq_true] at hall
      rw [lastEnabled_of_all hne fun q hq => hall q (by simp [hq])] at hlast
      cases hlast

include hn h in
/-- Disabling the last one of several breakpoints must take away a patch the others want. -/
theorem Resolved.disable_iff (hr : r ∈ t.rows) :
    (t.edit (.disable r.id)).Resolved ↔ ∀ l, Row.sharing t.rows r.addr = l ++ [r] →
      r.enable = false ∨ ∀ q ∈ l, q.enable = false := by
  have haddr : (Edit.disable r.id).addr t.rows = some r.addr := by
    rw [Edit.addr, find_eq hn hr, Option.map_some]
  obtain ⟨l, l', hs, hl, hl'⟩ := sharing_split hn hr
  refine (forall_edit_iff h haddr fun a' ha' => sharing_setEnable_ne hn hr false ha').trans ?_
  rw [h, Row.edit, Row.sharing_setEnable, hs, Row.setEnable_split hl hl', lastEnabled_split,
    lastEnabled_split]
  rcases eq_or_ne l' [] with rfl | hne
  · cases r.enable <;> simp [Edit.patch]
  · refine iff_of_true ?_ fun l₁ he => absurd he (split_ne_concat hne hl')
    rw [if_neg hne, if_neg hne]
    cases hlast : lastEnabled l' with
    | false => rfl
    | true =>
      obtain ⟨q, hq, he⟩ := lastEnabled_mem hlast
      simp only [Edit.patch, Bool.true_and, List.any_eq_true]
      exact ⟨q, by simp [hq], he⟩

include hn h in
/-- Deleting the last one of several breakpoints leaves its patch, or the lack of one, to the one
before it. -/
theorem Resolved.delete_iff (hr : r ∈ t.rows) :
    (t.edit (.delete r.id)).Resolved ↔ ∀ l, Row.sharing t.rows r.addr = l ++ [r] →
      l = [] ∨ lastEnabled l = r.enable := by
  have haddr : (Edit.delete r.id).addr t.rows = some r.addr := by
    rw [Edit.addr, find_eq hn hr, Option.map_some]
  obtain ⟨l, l', hs, hl, hl'⟩ := sharing_split hn hr
  refine (forall_edit_iff h haddr fun a' ha' => sharing_remove_ne hn hr ha').trans ?_
  rw [h, Row.edit, Row.sharing_remove, hs, Row.remove_split hl hl', lastEnabled_split]
  rcases eq_or_ne l' [] with rfl | hne
  · rcases eq_or_ne l [] with rfl | hne'
    · simp [Edit.patch, lastEnabled]
    · have hempty : l.isEmpty = false := by simpa using hne'
      simp [Edit.patch, hempty, hne', eq_comm]
  · refine iff_of_true ?_ fun l₁ he => absurd he (split_ne_concat hne hl')
    obtain ⟨l₂, q, rfl⟩ := (List.eq_nil_or_concat l').resolve_left hne
    rw [if_neg hne, List.concat_eq_append, ← List.append_assoc, lastEnabled_concat,
      lastEnabled_concat]
    simp [Edit.patch]

omit [DecidableEq κ] in
/-- A row that ends a list of the table is one of the table. -/
theorem forall_last_iff {id : κ} {Q : Row κ α → List (Row κ α) → Prop} :
    (∀ r, r.id = id → ∀ l, Row.sharing t.rows r.addr = l ++ [r] → Q r l) ↔
      ∀ r ∈ t.rows, r.id = id → ∀ l, Row.sharing t.rows r.addr = l ++ [r] → Q r l := by
  refine ⟨fun h r _ => h r, fun h r he l hl => h r ?_ he l hl⟩
  have hr : r ∈ Row.sharing t.rows r.addr := by rw [hl]; simp
  exact (Row.mem_sharing.mp hr).1

instance decidableForallLast {id : κ} {Q : Row κ α → List (Row κ α) → Prop}
    [∀ r l, Decidable (Q r l)] :
    Decidable (∀ r, r.id = id → ∀ l, Row.sharing t.rows r.addr = l ++ [r] → Q r l) :=
  decidable_of_iff (∀ r ∈ t.rows, r.id = id → (Row.sharing t.rows r.addr).getLast? = some r →
      Q r (Row.sharing t.rows r.addr).dropLast) <| by
    rw [forall_last_iff]
    refine forall₃_congr fun r _ _ => ⟨fun h l hl => ?_, fun h hlast => ?_⟩
    · rw [hl, List.getLast?_concat, List.dropLast_concat] at h
      exact h rfl
    · exact h _ (List.dropLast_append_getLast? r hlast).symm

instance decidableForallEnable {l : List (Row κ α)} {e : Bool} :
    Decidable (∀ q ∈ l, q.enable = e) := List.decidableBAll _ l

instance decidableKeepsResolved : ∀ e : Edit κ α, Decidable (t.KeepsResolved e)
  | .set _ _ => isTrue trivial
  | .enable _ => decidableForallLast (Q := fun r l => r.enable = true ∨ ∀ q ∈ l, q.enable = true)
  | .disable _ => decidableForallLast (Q := fun r l => r.enable = false ∨ ∀ q ∈ l, q.enable = false)
  | .delete _ => decidableForallLast (Q := fun r l => l = [] ∨ lastEnabled l = r.enable)

include hn h in
theorem Resolved.edit_iff (e : Edit κ α) : (t.edit e).Resolved ↔ t.KeepsResolved e := by
  cases e with
  | set id a => exact iff_of_true (h.set id a) trivial
  | disable id =>
    exact (edit_iff_row hn h rfl fun r hr he => he ▸ h.disable_iff hn hr).trans forall_last_iff.symm
  | enable id =>
    exact (edit_iff_row hn h rfl fun r hr he => he ▸ h.enable_iff hn hr).trans forall_last_iff.symm
  | delete id =>
    exact (edit_iff_row hn h rfl fun r hr he => he ▸ h.delete_iff hn hr).trans forall_last_iff.symm

omit [DecidableEq κ] in
theorem keepsResolved_flag {e : Bool} {id : κ} : t.KeepsResolved (.flag e id) ↔
    ∀ r, r.id = id → ∀ l, Row.sharing t.rows r.addr = l ++ [r] →
      r.enable = e ∨ ∀ q ∈ l, q.enable = e := by
  cases e <;> rfl

include hn h in
/-- **Flags set at all breakpoints in their order keep `Resolved`.** When the last breakpoint at an
address gets its flag, those before it have theirs. -/
theorem Resolved.setAll (e : Bool) : (t.run ((t.rows.map Row.id).map (Edit.flag e))).Resolved := by
  have hrun : ∀ (ids pre : List κ) (t : Table κ α), t.Resolved → (t.rows.map Row.id).Nodup →
      t.rows.map Row.id = pre ++ ids → (∀ r ∈ t.rows, r.id ∈ pre → r.enable = e) →
      (t.run (ids.map (Edit.flag e))).Resolved := by
    intro ids
    induction ids with
    | nil => exact fun _ _ h _ _ _ => h
    | cons id ids ih =>
      intro pre t h hn hids hpre
      have hrows : (t.edit (.flag e id)).rows = Row.setEnable e t.rows id := by
        rw [edit_rows, Row.edit_flag]
      refine ih (pre ++ [id]) (t.edit (.flag e id)) ?_ ?_ ?_ fun r hr hmem => ?_
      · refine (h.edit_iff hn _).mpr (keepsResolved_flag.mpr fun r hid l hl => .inr fun q hq => ?_)
        -- what precedes the row in its address precedes it in the table
        obtain ⟨rows₁, rows₂, hsplit, hrows₁, hrows₂⟩ := List.map_eq_append_iff.mp hids
        obtain ⟨r', rows₂, rfl, hr', -⟩ := List.map_eq_cons_iff.mp hrows₂
        have hr : r ∈ t.rows :=
          (Row.mem_sharing.mp (show r ∈ Row.sharing t.rows r.addr by rw [hl]; simp)).1
        have hr'mem : r' ∈ t.rows := by rw [hsplit]; simp
        obtain rfl : r = r' := List.inj_on_of_nodup_map hn hr hr'mem (hid.trans hr'.symm)
        have hafter : ∀ q ∈ Row.sharing rows₂ r.addr, q.id ≠ r.id := by
          intro q hq he
          rw [hsplit, List.map_append, List.map_cons] at hn
          exact (List.nodup_cons.mp (List.nodup_append.mp hn).2.1).1
            (he ▸ List.mem_map_of_mem (Row.mem_sharing.mp hq).1)
        have hsharing : Row.sharing t.rows r.addr =
            Row.sharing rows₁ r.addr ++ r :: Row.sharing rows₂ r.addr := by
          rw [hsplit, Row.sharing_append, ← List.singleton_append, Row.sharing_append,
            Row.sharing_singleton, if_pos rfl, List.singleton_append]
        have hnil : Row.sharing rows₂ r.addr = [] := by
          by_contra hne
          exact split_ne_concat hne hafter (hsharing.symm.trans hl)
        rw [hnil, hl] at hsharing
        obtain rfl := List.append_cancel_right hsharing
        obtain ⟨hq₁, -⟩ := Row.mem_sharing.mp hq
        exact hpre q (by rw [hsplit]; simp [hq₁]) (hrows₁ ▸ List.mem_map_of_mem hq₁)
      · rwa [hrows, Row.map_id_setEnable]
      · rw [hrows, Row.map_id_setEnable, hids]
        simp
      · rw [hrows] at hr
        obtain ⟨q, hq, rfl⟩ := List.mem_map.mp hr
        split_ifs at hmem ⊢ with hid
        · rfl
        · refine hpre q hq ?_
          simpa [hid] using hmem
  exact hrun _ [] t h hn rfl fun r _ hmem => absurd hmem List.not_mem_nil

end Resolved

end Table

end Vdbg
