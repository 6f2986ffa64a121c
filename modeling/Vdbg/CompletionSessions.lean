import Mathlib.Algebra.Order.BigOperators.Group.List
import Vdbg.Generators

/-!
# Sessions of completions

Over a session of completions the static variables of `completion.c` do not show: every request is
answered with the names that begin with its text, as if it were the first (`completions_answered`).
Memory is misused in two ways: by `complete_break`, which reads the character before an empty common
prefix, and by `bp_cand_add`, which doubles its capacity before it knows that `realloc` succeeded
(`completions_safe_iff`).
-/

namespace Vdbg

open Buffers FaultRun Generators

/-! ## The array of candidates -/

/-- The capacities `bp_cand_add` takes the array through. -/
def bpCapacity : ℕ → ℕ
  | 0 => 0
  | k + 1 => 16 * 2 ^ k

theorem growCap_bpCapacity (k : ℕ) : growCap (bpCapacity k) = bpCapacity (k + 1) := by
  cases k with
  | zero => rfl
  | succ k =>
    have hpos : bpCapacity (k + 1) ≠ 0 := by simp [bpCapacity]
    rw [growCap, if_neg hpos, bpCapacity, bpCapacity, pow_succ, Nat.mul_assoc]

theorem bpCapacity_strictMono : StrictMono bpCapacity := by
  refine strictMono_nat_of_lt_succ fun k => ?_
  rw [← growCap_bpCapacity]
  unfold growCap
  split_ifs <;> omega

section BpCandidates

variable {realloc : ℕ → Bool} {k : ℕ} {c c' : BpCandidates} {x : List Char} {xs : List (List Char)}

/-- There is as much room as the program thinks there is, and that is one of the first capacities. -/
structure BpCandidates.Roomy (k : ℕ) (c : BpCandidates) : Prop where
  room : c.array.cap = c.cap
  cap : ∃ j ≤ k, c.cap = bpCapacity j

/-- `realloc` has refused the next capacity, and the program thinks that there is as much room. -/
structure BpCandidates.Short (k : ℕ) (c : BpCandidates) : Prop where
  room : c.array.cap = bpCapacity k
  cap : c.cap = bpCapacity (k + 1)

variable (realloc) in
theorem bpCandAdd_of_lt (hcap : c.array.entries.length < c.cap)
    (hroom : c.array.entries.length < c.array.cap) (x : List Char) :
    ∃ c', bpCandAdd realloc c x = .ok c' ∧ c'.cap = c.cap ∧ c'.array.cap = c.array.cap ∧
      c'.array.entries = c.array.entries ++ [x] := by
  obtain ⟨b, hstore, hb, hentries⟩ := Buffer.store_of_lt Fault.outOfBounds x hroom
  refine ⟨⟨b, c.cap⟩, ?_, rfl, hb, hentries⟩
  unfold bpCandAdd
  rw [if_neg (Nat.not_le.mpr hcap), hstore]
  rfl

/-- The array is full, and there is memory for the next capacity. -/
theorem bpCandAdd_granted (hfull : c.array.entries.length = c.cap) (hcap : c.cap = bpCapacity k)
    (hgranted : realloc (bpCapacity (k + 1)) = true) (x : List Char) :
    ∃ c', bpCandAdd realloc c x = .ok c' ∧ c'.cap = bpCapacity (k + 1) ∧
      c'.array.cap = bpCapacity (k + 1) ∧ c'.array.entries = c.array.entries ++ [x] := by
  have hlt : bpCapacity k < bpCapacity (k + 1) := bpCapacity_strictMono (Nat.lt_succ_self k)
  have hkeep : (c.array.resize (bpCapacity (k + 1))).entries = c.array.entries :=
    List.take_of_length_le (by omega)
  obtain ⟨b, hstore, hb, hentries⟩ := Buffer.store_of_lt Fault.outOfBounds x
    (b := c.array.resize (bpCapacity (k + 1))) (by rw [hkeep, hfull, hcap]; exact hlt)
  rw [hkeep] at hentries
  refine ⟨⟨b, bpCapacity (k + 1)⟩, ?_, rfl, hb, hentries⟩
  unfold bpCandAdd
  rw [if_pos hfull.ge, hcap, growCap_bpCapacity, if_pos hgranted, hstore]
  rfl

theorem bpCandAdd_refused (hfull : c.array.entries.length = c.cap) (hcap : c.cap = bpCapacity k)
    (hrefused : realloc (bpCapacity (k + 1)) = false) (x : List Char) :
    bpCandAdd realloc c x = .ok ⟨c.array, bpCapacity (k + 1)⟩ := by
  unfold bpCandAdd
  rw [if_pos hfull.ge, hcap, growCap_bpCapacity, if_neg (Bool.eq_false_iff.mp hrefused)]
  rfl

/-- With room for all of them, the texts are added, and the room stays what it is thought to be. -/
theorem BpCandidates.Roomy.addAll (hgranted : ∀ i < k, realloc (bpCapacity (i + 1)) = true) (h : c.Roomy k)
    (hroom : c.array.entries.length + xs.length ≤ bpCapacity k) :
    ∃ c', xs.foldlM (bpCandAdd realloc) c = .ok c' ∧ c'.Roomy k ∧
      c'.array.entries = c.array.entries ++ xs := by
  induction xs generalizing c with
  | nil => exact ⟨c, rfl, h, (List.append_nil _).symm⟩
  | cons x xs ih =>
    rw [List.length_cons] at hroom
    suffices hone : ∃ c', bpCandAdd realloc c x = .ok c' ∧ c'.Roomy k ∧
        c'.array.entries = c.array.entries ++ [x] by
      obtain ⟨c₁, hadd, hroomy, hentries⟩ := hone
      obtain ⟨c', hrest, hroomy', hentries'⟩ := ih hroomy (by
        rw [hentries, List.length_append, List.length_singleton]
        omega)
      refine ⟨c', foldlM_cons_eq_ok.mpr ⟨c₁, hadd, hrest⟩, hroomy', ?_⟩
      rw [hentries', hentries, List.append_assoc, List.singleton_append]
    obtain ⟨j, hj, hcap⟩ := h.cap
    rcases c.array.fits.lt_or_eq with hlt | hfull
    · obtain ⟨c₁, hadd, hcap₁, hroom₁, hentries⟩ :=
        bpCandAdd_of_lt realloc (h.room ▸ hlt) hlt x
      exact ⟨c₁, hadd, ⟨by rw [hroom₁, hcap₁, h.room], j, hj, hcap₁.trans hcap⟩, hentries⟩
    · rw [h.room] at hfull
      -- one of the capacities below the last, as there is room for the text
      have hjk : j < k := bpCapacity_strictMono.lt_iff_lt.mp (by omega)
      obtain ⟨c₁, hadd, hcap₁, hroom₁, hentries⟩ := bpCandAdd_granted hfull hcap (hgranted j hjk) x
      exact ⟨c₁, hadd, ⟨hroom₁.trans hcap₁.symm, j + 1, hjk, hcap₁⟩, hentries⟩

/-- After a refusal the texts are added as long as there is room. -/
theorem BpCandidates.Short.addAll (h : c.Short k)
    (hroom : c.array.entries.length + xs.length ≤ bpCapacity k) :
    ∃ c', xs.foldlM (bpCandAdd realloc) c = .ok c' ∧ c'.Short k ∧
      c'.array.entries = c.array.entries ++ xs := by
  induction xs generalizing c with
  | nil => exact ⟨c, rfl, h, (List.append_nil _).symm⟩
  | cons x xs ih =>
    rw [List.length_cons] at hroom
    have hlt : bpCapacity k < bpCapacity (k + 1) := bpCapacity_strictMono (Nat.lt_succ_self k)
    obtain ⟨c₁, hadd, hcap₁, hroom₁, hentries⟩ := bpCandAdd_of_lt realloc
      (by rw [h.cap]; omega) (by rw [h.room]; omega) x
    obtain ⟨c', hrest, hshort, hentries'⟩ := ih ⟨hroom₁.trans h.room, hcap₁.trans h.cap⟩ (by
      rw [hentries, List.length_append, List.length_singleton]
      omega)
    refine ⟨c', foldlM_cons_eq_ok.mpr ⟨c₁, hadd, hrest⟩, hshort, ?_⟩
    rw [hentries', hentries, List.append_assoc, List.singleton_append]

/-- One more is stored past the end. -/
theorem BpCandidates.Short.overflows (h : c.Short k)
    (hroom : bpCapacity k < c.array.entries.length + xs.length) :
    xs.foldlM (bpCandAdd realloc) c = .error .outOfBounds := by
  induction xs generalizing c with
  | nil => exact absurd c.array.fits (by rw [h.room]; simpa using hroom)
  | cons x xs ih =>
    rw [List.length_cons] at hroom
    have hlt : bpCapacity k < bpCapacity (k + 1) := bpCapacity_strictMono (Nat.lt_succ_self k)
    have hfits := c.array.fits
    rw [h.room] at hfits
    rw [List.foldlM_cons]
    rcases hfits.lt_or_eq with hroom' | hfull
    · obtain ⟨c₁, hadd, hcap₁, hroom₁, hentries⟩ := bpCandAdd_of_lt realloc
        (by rw [h.cap]; omega) (by rw [h.room]; omega) x
      rw [hadd, ok_bind]
      refine ih ⟨hroom₁.trans h.room, hcap₁.trans h.cap⟩ ?_
      rw [hentries, List.length_append, List.length_singleton]
      omega
    · unfold bpCandAdd
      rw [if_neg (by rw [h.cap]; omega), Buffer.store_of_full (by rw [h.room, hfull])]
      rfl

/-- Where there is one text too many it is dropped, and the next one is stored past the end. -/
theorem BpCandidates.Roomy.refused (hgranted : ∀ i < k, realloc (bpCapacity (i + 1)) = true)
    (hrefused : realloc (bpCapacity (k + 1)) = false) (h : c.Roomy k)
    (hroom : bpCapacity k < c.array.entries.length + xs.length) :
    ∃ c', c'.Short k ∧ c'.array.entries <+: c.array.entries ++ xs ∧
      xs.foldlM (bpCandAdd realloc) c =
        if c.array.entries.length + xs.length = bpCapacity k + 1 then .ok c'
        else .error .outOfBounds := by
  obtain ⟨j, hj, hcap⟩ := h.cap
  have hle : c.array.entries.length ≤ bpCapacity k :=
    c.array.fits.trans (by rw [h.room, hcap]; exact bpCapacity_strictMono.monotone hj)
  -- the texts up to the capacity, the one that is dropped, and the others
  obtain ⟨pre, y, post, rfl, hpre⟩ : ∃ pre y post, xs = pre ++ y :: post ∧
      c.array.entries.length + pre.length = bpCapacity k := by
    have hlt : bpCapacity k - c.array.entries.length < xs.length := by omega
    refine ⟨xs.take (bpCapacity k - c.array.entries.length),
      xs[bpCapacity k - c.array.entries.length], _, (List.take_append_drop _ xs).symm.trans
        (by rw [List.drop_eq_getElem_cons hlt]), ?_⟩
    rw [List.length_take]
    omega
  obtain ⟨c₁, hadd, hroomy, hentries⟩ := h.addAll hgranted hpre.le
  have hfull : c₁.array.entries.length = bpCapacity k := by
    rw [hentries, List.length_append, hpre]
  obtain ⟨j₁, hj₁, hcap₁⟩ := hroomy.cap
  have hcapk : c₁.cap = bpCapacity k := by
    have hfits := c₁.array.fits
    have hmono := bpCapacity_strictMono.monotone hj₁
    rw [hroomy.room] at hfits
    omega
  have hshort : BpCandidates.Short k ⟨c₁.array, bpCapacity (k + 1)⟩ :=
    ⟨hroomy.room.trans hcapk, rfl⟩
  refine ⟨_, hshort, ?_, ?_⟩
  · show c₁.array.entries <+: _
    rw [hentries, ← List.append_assoc]
    exact List.prefix_append _ _
  · rw [List.foldlM_append, hadd, ok_bind, List.foldlM_cons,
      bpCandAdd_refused (hfull.trans hcapk.symm) hcapk hrefused y, ok_bind]
    rw [List.length_append, List.length_cons]
    cases post with
    | nil =>
      rw [if_pos (by rw [List.length_nil]; omega)]
      rfl
    | cons z zs =>
      rw [if_neg (by rw [List.length_cons]; omega)]
      exact hshort.overflows (by rw [hfull, List.length_cons]; omega)

end BpCandidates

/-! ## One completion -/

section Answered

variable {rl : Readline} {syms : Symbols} {w : World} {line text : List Char} {i : ℕ}
  {s s' : Statics} {completion : Completion} {xs names : List (List Char)}
  {gen : Generator Fault Statics (List Char)}

theorem rlCompletionMatches_eq (h : collect .blocked gen rl.turns 0 s = .ok (xs, s')) :
    rlCompletionMatches rl gen s = .ok (⟨xs, false⟩, s') := by
  rw [rlCompletionMatches, h]
  rfl

theorem begins_of_mem_beginning {name : List Char} (h : name ∈ beginning text names) :
    text <+: name :=
  List.isPrefixOf_iff_prefix.mp (List.of_mem_filter h)

theorem begins_of_mem_breakTargets {name : List Char} (h : name ∈ breakTargets syms text) :
    text <+: name := by
  unfold breakTargets at h
  dsimp only at h
  split_ifs at h
  · exact begins_of_mem_beginning h
  · exact begins_of_mem_beginning h

/-- The matches are put in as a text without characters exactly when they have no first character in
common. -/
theorem substitution_eq_nil_iff (hsub : rl.Substitutes) (hnames : names ≠ [])
    (hbegin : ∀ name ∈ names, text <+: name) :
    rl.substitution text names = [] ↔ text = [] ∧ NothingShared names := by
  have hall := hsub text names hnames hbegin
  constructor
  · intro hnil
    have htext : text <+: [] := hnil ▸ (hall text).mpr hbegin
    refine ⟨List.prefix_nil.mp htext, hnames, fun c => ?_⟩
    by_contra hshared
    push Not at hshared
    have hc := (hall [c]).mpr hshared
    rw [hnil] at hc
    exact List.cons_ne_nil c [] (List.prefix_nil.mp hc)
  · rintro ⟨-, -, hno⟩
    cases hsubst : rl.substitution text names with
    | nil => rfl
    | cons c cs =>
      obtain ⟨name, hname, hnot⟩ := hno c
      refine absurd ((hall [c]).mp ?_ name hname) hnot
      rw [hsubst]
      exact ⟨cs, rfl⟩

theorem completeFromStrlist_eq (list : List String) (s : Statics)
    (hturns : (beginning text (list.map String.toList)).length < rl.turns) :
    ∃ s', completeFromStrlist rl text list s =
      .ok (⟨beginning text (list.map String.toList), false⟩, s') ∧
        s'.bpCandidates = s.bpCandidates := by
  obtain ⟨c, hcollect⟩ := strlistCursor.collect_eq
    (fun s => .ok { s with strlistCursor := ⟨0, text.length⟩ })
    { s with strlist := some (list.map String.toList) } rfl rfl hturns
  exact ⟨_, rlCompletionMatches_eq hcollect, rfl⟩

theorem functionGenerator_eq (s : Statics)
    (hturns : (beginning text (syms.functions.map (·.1.toList))).length < rl.turns) :
    ∃ s', rlCompletionMatches rl (functionGenerator syms text) s =
      .ok (⟨beginning text (syms.functions.map (·.1.toList)), false⟩, s') ∧
        s'.bpCandidates = s.bpCandidates := by
  obtain ⟨c, hcollect⟩ := functionCursor.collect_eq
    (fun s => .ok { s with funcCursor := ⟨0, text.length⟩, funcs := syms.functions }) s rfl rfl
    hturns
  exact ⟨_, rlCompletionMatches_eq hcollect, rfl⟩

/-- `complete_break` answers, unless nothing is put in. -/
theorem completeBreak_eq (hsub : rl.Substitutes) (hi : 1 ≤ i) (s : Statics)
    (hturns : (breakTargets syms text).length < rl.turns)
    (hread : ¬(text = [] ∧ NothingShared (breakTargets syms text))) :
    ∃ s', completeBreak rl syms text i s =
      .ok (⟨breakTargets syms text, endsInColon rl text (breakTargets syms text)⟩, s') ∧
        s'.bpCandidates = s.bpCandidates := by
  obtain ⟨s', hcollect, hcands⟩ := collect_breakTarget syms text s hturns
  refine ⟨s', ?_, hcands⟩
  unfold completeBreak
  rw [if_pos hi, rlCompletionMatches_eq hcollect, ok_bind]
  dsimp only
  split_ifs with hnil
  · rw [hnil]
    rfl
  · have hne : rl.substitution text (breakTargets syms text) ≠ [] := fun hempty =>
      hread ((substitution_eq_nil_iff hsub hnil fun _ => begins_of_mem_breakTargets).mp hempty)
    rw [endsInColon, List.getLast?_eq_some_getLast hne]
    simp [hnil]
    rfl

theorem completeBreak_misread (hsub : rl.Substitutes) (hi : 1 ≤ i) (s : Statics)
    (hturns : (breakTargets syms text).length < rl.turns)
    (hread : text = [] ∧ NothingShared (breakTargets syms text)) :
    completeBreak rl syms text i s = .error .outOfBounds := by
  obtain ⟨s', hcollect, -⟩ := collect_breakTarget syms text s hturns
  unfold completeBreak
  rw [if_pos hi, rlCompletionMatches_eq hcollect, ok_bind]
  dsimp only
  rw [if_neg hread.2.1, (substitution_eq_nil_iff hsub hread.2.1
    fun _ => begins_of_mem_breakTargets).mpr hread]
  rfl

/-- The completions without `bp_generator` leave its array alone. -/
theorem Completion.run_eq (hsub : rl.Substitutes) (s : Statics)
    (hturns : (completion.offered rl syms w line).length < rl.turns) (hbp : ¬completion.AsksBp)
    (hread : ¬completion.Misread rl syms w line) :
    ∃ s', completion.run rl syms w line s = .ok (completion.answer rl syms w line, s') ∧
      s'.bpCandidates = s.bpCandidates := by
  cases completion with
  | nothing => exact ⟨s, rfl, rfl⟩
  | commandNames text =>
    obtain ⟨s', hcollect, hcands⟩ := collect_command text s hturns
    exact ⟨s', rlCompletionMatches_eq hcollect, hcands⟩
  | complete completer text i =>
    cases completer with
    | completeBreak =>
      simp only [Completion.offered, Completer.offered, Completion.Misread, Completion.run,
        Completion.answer, Completer.call] at hturns hread ⊢
      split_ifs at hturns hread ⊢ with hi
      · exact completeBreak_eq hsub hi s hturns hread
      · exact ⟨s, if_neg hi, rfl⟩
    | completeDelete =>
      have hi : ¬1 ≤ i := fun hi => hbp ⟨by simp, hi⟩
      simp only [Completion.run, Completion.answer, Completion.offered, Completer.offered,
        Completer.call, completeDelete, completeBp, if_neg hi]
      exact ⟨s, rfl, rfl⟩
    | completeDisable =>
      have hi : ¬1 ≤ i := fun hi => hbp ⟨by simp, hi⟩
      simp only [Completion.run, Completion.answer, Completion.offered, Completer.offered,
        Completer.call, completeDisable, completeBp, if_neg hi]
      exact ⟨s, rfl, rfl⟩
    | completeEnable =>
      have hi : ¬1 ≤ i := fun hi => hbp ⟨by simp, hi⟩
      simp only [Completion.run, Completion.answer, Completion.offered, Completer.offered,
        Completer.call, completeEnable, completeBp, if_neg hi]
      exact ⟨s, rfl, rfl⟩
    | completeDisassemble =>
      simp only [Completion.offered, Completer.offered, Completion.run, Completion.answer,
        Completer.call, completeDisassemble] at hturns ⊢
      split_ifs at hturns ⊢ with hi
      · exact functionGenerator_eq s hturns
      · exact ⟨s, rfl, rfl⟩
    | completeMemory =>
      simp only [Completion.offered, Completer.offered, Completion.run, Completion.answer,
        Completer.call, completeMemory] at hturns ⊢
      split_ifs at hturns ⊢ with hi
      · exact completeFromStrlist_eq memorySubcmds s hturns
      · exact ⟨s, rfl, rfl⟩
    | completeRegister =>
      simp only [Completion.offered, Completer.offered, Completion.run, Completion.answer,
        Completer.call, completeRegister] at hturns ⊢
      split_ifs at hturns ⊢ with hi hregister
      · exact completeFromStrlist_eq registerSubcmds s hturns
      · exact completeFromStrlist_eq regNames s hturns
      · exact ⟨s, rfl, rfl⟩
    | completeSource =>
      simp only [Completion.offered, Completer.offered, Completion.run, Completion.answer,
        Completer.call, completeSource]
      split_ifs
      · exact ⟨s, rfl, rfl⟩
      · exact ⟨s, rfl, rfl⟩

theorem Completion.run_misread (hsub : rl.Substitutes) (s : Statics)
    (hturns : (completion.offered rl syms w line).length < rl.turns)
    (hread : completion.Misread rl syms w line) :
    completion.run rl syms w line s = .error .outOfBounds := by
  unfold Completion.Misread at hread
  split at hread
  · simp only [Completion.offered, Completer.offered, Completion.run, Completer.call]
      at hturns hread ⊢
    split_ifs at hturns hread with hi
    · exact completeBreak_misread hsub hi s hturns hread
    · exact absurd rfl hread.2.1
  · exact hread.elim

variable (rl syms w line) in
/-- The text for which `bp_generator` is called. -/
theorem Completion.AsksBp.run (h : completion.AsksBp) : ∃ text,
    completion.answer rl syms w line = ⟨beginning text w.bpTexts, false⟩ ∧
      ¬completion.Misread rl syms w line ∧
      completion.run rl syms w line =
        rlCompletionMatches rl (bpTextGenerator rl.realloc w text) := by
  cases completion with
  | nothing => exact h.elim
  | commandNames text => exact h.elim
  | complete completer text i =>
    obtain ⟨hmem, hi⟩ := h
    refine ⟨text, ?_⟩
    have hanswer : Answer.mk (if 1 ≤ i then bpGenerator w text else []) false =
        ⟨beginning text w.bpTexts, false⟩ := by
      rw [if_pos hi]
      rfl
    simp only [List.mem_cons, List.not_mem_nil, or_false] at hmem
    rcases hmem with rfl | rfl | rfl
    · exact ⟨hanswer, id, funext fun s => if_pos hi⟩
    · exact ⟨hanswer, id, funext fun s => if_pos hi⟩
    · exact ⟨hanswer, id, funext fun s => if_pos hi⟩

/-- With the texts collected, those that begin with the text are given. -/
theorem bpTextGenerator_eq {c : BpCandidates}
    (hadd : w.bpTexts.foldlM (bpCandAdd rl.realloc)
      ⟨.alloc s.bpCandidates.array.cap, s.bpCandidates.cap⟩ = .ok c)
    (hturns : (beginning text c.array.entries).length < rl.turns) :
    ∃ s', rlCompletionMatches rl (bpTextGenerator rl.realloc w text) s =
      .ok (⟨beginning text c.array.entries, false⟩, s') ∧ s'.bpCandidates = c := by
  have hinit : bpTextInit rl.realloc w text s =
      .ok { s with bpCursor := ⟨0, text.length⟩, bpCandidates := c } := by
    rw [bpTextInit, hadd]
    rfl
  obtain ⟨cursor, hcollect⟩ := bpTextCursor.collect_eq _ s hinit rfl hturns
  exact ⟨_, rlCompletionMatches_eq hcollect, rfl⟩

theorem bpTextGenerator_error
    (hadd : w.bpTexts.foldlM (bpCandAdd rl.realloc)
      ⟨.alloc s.bpCandidates.array.cap, s.bpCandidates.cap⟩ = .error .outOfBounds)
    (hturns : 0 < rl.turns) :
    rlCompletionMatches rl (bpTextGenerator rl.realloc w text) s = .error .outOfBounds := by
  obtain ⟨turns, hsucc⟩ := Nat.exists_eq_succ_of_ne_zero hturns.ne'
  rw [rlCompletionMatches, hsucc, bpTextGenerator,
    collect_restarting_error (by rw [bpTextInit, hadd]; rfl)]
  rfl

end Answered

/-! ## Sessions -/

section Sessions

variable (rl : Readline) (syms : Symbols)

def Request.answer (r : Request) : Answer := r.completion.answer rl syms r.w r.line

def Request.Misread (r : Request) : Prop := r.completion.Misread rl syms r.w r.line

/-- The number of candidates that are collected. -/
def Request.added (r : Request) : ℕ := if r.completion.AsksBp then r.w.bpTexts.length else 0

variable {rl syms} {r : Request} {k : ℕ} {s s' : Statics}

theorem BpCandidates.Roomy.clear {c : BpCandidates} (h : c.Roomy k) :
    BpCandidates.Roomy k ⟨.alloc c.array.cap, c.cap⟩ := ⟨h.room, h.cap⟩

theorem BpCandidates.Short.clear {c : BpCandidates} (h : c.Short k) :
    BpCandidates.Short k ⟨.alloc c.array.cap, c.cap⟩ := ⟨h.room, h.cap⟩

/-- A request is answered where its candidates can be collected. -/
theorem complete_of_addAll (Keeps : BpCandidates → Prop) (hsub : rl.Substitutes)
    (hturns : (r.answer rl syms).found.length < rl.turns) (hread : ¬r.Misread rl syms)
    (hs : Keeps s.bpCandidates)
    (hadd : r.added = r.w.bpTexts.length → ∃ c, r.w.bpTexts.foldlM (bpCandAdd rl.realloc)
      ⟨.alloc s.bpCandidates.array.cap, s.bpCandidates.cap⟩ = .ok c ∧ Keeps c ∧
        c.array.entries = r.w.bpTexts) :
    ∃ s', complete rl syms r s = .ok (r.answer rl syms, s') ∧ Keeps s'.bpCandidates := by
  by_cases hbp : r.completion.AsksBp
  · obtain ⟨c, hadd, hkeeps, hentries⟩ := hadd (if_pos hbp)
    obtain ⟨text, hanswer, -, hrun⟩ := hbp.run rl syms r.w r.line
    rw [Request.answer, hanswer] at hturns ⊢
    rw [← hentries] at hturns ⊢
    obtain ⟨s', hmatches, rfl⟩ := bpTextGenerator_eq hadd hturns
    exact ⟨s', (congrFun hrun s).trans hmatches, hkeeps⟩
  · obtain ⟨s', hrun, hcands⟩ := Completion.run_eq hsub s hturns hbp hread
    exact ⟨s', hrun, by rwa [hcands]⟩

theorem complete_roomy (hsub : rl.Substitutes)
    (hturns : (r.answer rl syms).found.length < rl.turns) (hread : ¬r.Misread rl syms)
    (hgranted : ∀ i < k, rl.realloc (bpCapacity (i + 1)) = true) (hs : s.bpCandidates.Roomy k)
    (hadded : r.added ≤ bpCapacity k) :
    ∃ s', complete rl syms r s = .ok (r.answer rl syms, s') ∧ s'.bpCandidates.Roomy k := by
  refine complete_of_addAll (BpCandidates.Roomy k) hsub hturns hread hs fun hbp => ?_
  exact hs.clear.addAll hgranted (by
    rw [← hbp]
    exact (Nat.zero_add _).trans_le hadded)

theorem complete_short (hsub : rl.Substitutes)
    (hturns : (r.answer rl syms).found.length < rl.turns) (hread : ¬r.Misread rl syms)
    (hs : s.bpCandidates.Short k) (hadded : r.added ≤ bpCapacity k) :
    ∃ s', complete rl syms r s = .ok (r.answer rl syms, s') ∧ s'.bpCandidates.Short k := by
  refine complete_of_addAll (BpCandidates.Short k) hsub hturns hread hs fun hbp => ?_
  exact hs.clear.addAll (by
    rw [← hbp]
    exact (Nat.zero_add _).trans_le hadded)

/-- Where there is anything to collect, `bp_generator` is asked. -/
theorem Request.asksBp_of_added (h : bpCapacity k < r.added) :
    r.completion.AsksBp ∧ r.added = r.w.bpTexts.length := by
  unfold Request.added at h ⊢
  split_ifs at h ⊢ with hbp
  · exact ⟨hbp, rfl⟩
  · exact absurd h (Nat.not_lt_zero _)

theorem complete_overflows (hturns : (r.answer rl syms).found.length < rl.turns)
    (hs : s.bpCandidates.Short k) (hadded : bpCapacity k < r.added) :
    complete rl syms r s = .error .outOfBounds := by
  obtain ⟨hbp, hcount⟩ := Request.asksBp_of_added hadded
  obtain ⟨text, -, -, hrun⟩ := hbp.run rl syms r.w r.line
  refine (congrFun hrun s).trans (bpTextGenerator_error ?_ (Nat.zero_lt_of_lt hturns))
  exact hs.clear.overflows (by
    rw [← hcount]
    exact hadded.trans_eq (Nat.zero_add _).symm)

/-- The first time there are more candidates than there is memory for, one is dropped. -/
theorem complete_refused (hturns : (r.answer rl syms).found.length < rl.turns)
    (hgranted : ∀ i < k, rl.realloc (bpCapacity (i + 1)) = true)
    (hrefused : rl.realloc (bpCapacity (k + 1)) = false) (hs : s.bpCandidates.Roomy k)
    (hadded : bpCapacity k < r.added) :
    if r.added = bpCapacity k + 1 then
      ∃ out, complete rl syms r s = .ok out ∧ out.2.bpCandidates.Short k
    else complete rl syms r s = .error .outOfBounds := by
  obtain ⟨hbp, hcount⟩ := Request.asksBp_of_added hadded
  obtain ⟨text, hanswer, -, hrun⟩ := hbp.run rl syms r.w r.line
  rw [Request.answer, hanswer] at hturns
  rw [hcount] at hadded ⊢
  obtain ⟨c, hshort, hseen, hadd⟩ := hs.clear.refused hgranted hrefused
    (hadded.trans_eq (Nat.zero_add _).symm)
  rw [show complete rl syms r s = _ from congrFun hrun s]
  rw [show (⟨.alloc s.bpCandidates.array.cap, s.bpCandidates.cap⟩ :
    BpCandidates).array.entries = [] from rfl, List.length_nil, Nat.zero_add] at hadd
  split_ifs at hadd ⊢ with hone
  · have hfew : (beginning text c.array.entries).length ≤ (beginning text r.w.bpTexts).length :=
      (hseen.sublist.filter _).length_le
    obtain ⟨s', hmatches, rfl⟩ := bpTextGenerator_eq hadd (hfew.trans_lt hturns)
    exact ⟨_, hmatches, hshort⟩
  · exact bpTextGenerator_error hadd (Nat.zero_lt_of_lt hturns)

theorem complete_misread (hsub : rl.Substitutes)
    (hturns : (r.answer rl syms).found.length < rl.turns) (hread : r.Misread rl syms) (s : Statics) :
    complete rl syms r s = .error .outOfBounds :=
  Completion.run_misread hsub s hturns hread

theorem completeAll_cons {out : Answer × Statics} (h : complete rl syms r s = .ok out)
    (rs : List Request) : completeAll rl syms (r :: rs) s =
      (completeAll rl syms rs out.2).map fun rest => (out.1 :: rest.1, rest.2) := by
  rw [completeAll, h, ok_bind]

/-- All requests return where each does from where the one before it left the state. -/
theorem completeAll_ok_iff {rs : List Request} :
    (∃ out, completeAll rl syms (r :: rs) s = .ok out) ↔
      ∃ out, complete rl syms r s = .ok out ∧ ∃ out', completeAll rl syms rs out.2 = .ok out' := by
  rw [completeAll]
  cases complete rl syms r s with
  | error e => simp
  | ok out =>
    simp only [ok_bind, Except.ok.injEq, exists_eq_left']
    cases completeAll rl syms rs out.2 with
    | error e => simp [Except.map]
    | ok rest => simp [Except.map]

variable {rs : List Request}

theorem completeAll_error {e : Fault} (h : complete rl syms r s = .error e) :
    ¬∃ out, completeAll rl syms (r :: rs) s = .ok out := by
  rw [completeAll_ok_iff, h]
  rintro ⟨out, hout, -⟩
  cases hout

/-- With memory for their candidates, the requests are answered as each would be alone. -/
theorem completeAll_answers (hsub : rl.Substitutes)
    (hturns : ∀ r ∈ rs, (r.answer rl syms).found.length < rl.turns)
    (hread : ∀ r ∈ rs, ¬r.Misread rl syms)
    (hgranted : ∀ i < k, rl.realloc (bpCapacity (i + 1)) = true) (hs : s.bpCandidates.Roomy k)
    (hadded : ∀ r ∈ rs, r.added ≤ bpCapacity k) :
    ∃ s', completeAll rl syms rs s = .ok (rs.map (Request.answer rl syms), s') := by
  induction rs generalizing s with
  | nil => exact ⟨s, rfl⟩
  | cons r rs ih =>
    rw [List.forall_mem_cons] at hturns hread hadded
    obtain ⟨s₁, hone, hs₁⟩ := complete_roomy hsub hturns.1 hread.1 hgranted hs hadded.1
    obtain ⟨s', hrest⟩ := ih hturns.2 hread.2 hs₁ hadded.2
    refine ⟨s', ?_⟩
    rw [completeAll_cons hone, hrest]
    rfl

theorem completeAll_short_iff (hsub : rl.Substitutes)
    (hturns : ∀ r ∈ rs, (r.answer rl syms).found.length < rl.turns) (hs : s.bpCandidates.Short k) :
    (∃ out, completeAll rl syms rs s = .ok out) ↔
      ∀ r ∈ rs, ¬r.Misread rl syms ∧ r.added ≤ bpCapacity k := by
  induction rs generalizing s with
  | nil => exact iff_of_true ⟨_, rfl⟩ (by simp)
  | cons r rs ih =>
    rw [List.forall_mem_cons] at hturns ⊢
    by_cases hread : r.Misread rl syms
    · exact iff_of_false (completeAll_error (complete_misread hsub hturns.1 hread s))
        fun h => h.1.1 hread
    by_cases hadded : r.added ≤ bpCapacity k
    · obtain ⟨s₁, hone, hs₁⟩ := complete_short hsub hturns.1 hread hs hadded
      rw [completeAll_ok_iff, hone]
      simp only [Except.ok.injEq, exists_eq_left']
      rw [ih hturns.2 hs₁, and_iff_right ⟨hread, hadded⟩]
    · exact iff_of_false
        (completeAll_error (complete_overflows hturns.1 hs (Nat.not_le.mp hadded)))
        fun h => hadded h.1.2

theorem completeAll_roomy_iff (hsub : rl.Substitutes)
    (hturns : ∀ r ∈ rs, (r.answer rl syms).found.length < rl.turns)
    (hgranted : ∀ i < k, rl.realloc (bpCapacity (i + 1)) = true)
    (hrefused : rl.realloc (bpCapacity (k + 1)) = false) (hs : s.bpCandidates.Roomy k) :
    (∃ out, completeAll rl syms rs s = .ok out) ↔
      (∀ r ∈ rs, ¬r.Misread rl syms) ∧ (∀ r ∈ rs, r.added ≤ bpCapacity k + 1) ∧
        (rs.filter (bpCapacity k < ·.added)).length ≤ 1 := by
  induction rs generalizing s with
  | nil => exact iff_of_true ⟨_, rfl⟩ (by simp)
  | cons r rs ih =>
    rw [List.forall_mem_cons] at hturns
    rw [List.forall_mem_cons, List.forall_mem_cons]
    by_cases hread : r.Misread rl syms
    · exact iff_of_false (completeAll_error (complete_misread hsub hturns.1 hread s))
        fun h => h.1.1 hread
    rcases Nat.lt_or_ge (bpCapacity k) r.added with hmany | hfew
    · have hout := complete_refused hturns.1 hgranted hrefused hs hmany
      rw [List.filter_cons_of_pos (by simpa using hmany), List.length_cons]
      split_ifs at hout with hone
      · -- from here on the array is short of room
        obtain ⟨out, hcomplete, hshort⟩ := hout
        rw [completeAll_ok_iff, hcomplete]
        simp only [Except.ok.injEq, exists_eq_left']
        rw [completeAll_short_iff hsub hturns.2 hshort, Nat.add_one_le_iff,
          Nat.lt_one_iff, List.length_eq_zero_iff, List.filter_eq_nil_iff]
        constructor
        · intro h
          exact ⟨⟨hread, fun r hr => (h r hr).1⟩,
            ⟨hone.le, fun r hr => (h r hr).2.trans (Nat.le_succ _)⟩,
            fun r hr => by simpa using (h r hr).2⟩
        · rintro ⟨⟨-, hread⟩, -, hfew⟩ r hr
          exact ⟨hread r hr, by simpa using hfew r hr⟩
      · exact iff_of_false (completeAll_error hout) fun h => hone (h.2.1.1.antisymm hmany)
    · obtain ⟨s₁, hone, hs₁⟩ := complete_roomy hsub hturns.1 hread hgranted hs hfew
      rw [completeAll_ok_iff, hone, List.filter_cons_of_neg (by simpa using hfew)]
      simp only [Except.ok.injEq, exists_eq_left']
      rw [ih hturns.2 hs₁, and_iff_right hread, and_iff_right (hfew.trans (Nat.le_succ _))]

theorem not_misread_of_ok (hsub : rl.Substitutes)
    (hturns : ∀ r ∈ rs, (r.answer rl syms).found.length < rl.turns)
    (h : ∃ out, completeAll rl syms rs s = .ok out) : ∀ r ∈ rs, ¬r.Misread rl syms := by
  induction rs generalizing s with
  | nil => simp
  | cons r rs ih =>
    rw [List.forall_mem_cons] at hturns ⊢
    obtain ⟨out, -, hrest⟩ := completeAll_ok_iff.mp h
    exact ⟨fun hread => completeAll_error (complete_misread hsub hturns.1 hread s) h,
      ih hturns.2 hrest⟩

/-- There is a capacity for every number of candidates. -/
theorem le_bpCapacity (n : ℕ) : n ≤ bpCapacity n := bpCapacity_strictMono.le_apply

theorem initial_roomy (k : ℕ) : Statics.initial.bpCandidates.Roomy k := ⟨rfl, 0, Nat.zero_le k, rfl⟩

/-- A number of candidates that no request exceeds. -/
theorem exists_added_le (rs : List Request) : ∃ k, ∀ r ∈ rs, r.added ≤ bpCapacity k :=
  ⟨(rs.map Request.added).sum, fun _ hr =>
    (List.le_sum_of_mem (List.mem_map_of_mem hr)).trans (le_bpCapacity _)⟩

/-- **Completion.** Where there is memory, a session of completions answers every request with the
names that begin with its text, whatever was completed before, exactly if `complete_break` is never
asked for an empty text whose targets do not begin with the same character. -/
theorem completions_answered (rl : Readline) (syms : Symbols) (rs : List Request)
    (hsub : rl.Substitutes) (hmem : ∀ n, rl.realloc n = true)
    (hturns : ∀ r ∈ rs, (r.answer rl syms).found.length < rl.turns) :
    (∃ s, completeAll rl syms rs .initial = .ok (rs.map (Request.answer rl syms), s)) ↔
      ∀ r ∈ rs, ¬r.Misread rl syms := by
  constructor
  · rintro ⟨s, hall⟩
    exact not_misread_of_ok hsub hturns ⟨_, hall⟩
  · intro hread
    obtain ⟨k, hadded⟩ := exists_added_le rs
    exact completeAll_answers hsub hturns hread (fun i _ => hmem _) (initial_roomy k) hadded

/-- What two texts begin with. -/
def sharedPrefix : List Char → List Char → List Char
  | c :: cs, d :: ds => if c = d then c :: sharedPrefix cs ds else []
  | _, _ => []

theorem prefix_sharedPrefix {p cs ds : List Char} :
    p <+: sharedPrefix cs ds ↔ p <+: cs ∧ p <+: ds := by
  induction p generalizing cs ds with
  | nil => simp
  | cons x p ih =>
    cases cs with
    | nil => simp [sharedPrefix]
    | cons c cs =>
      cases ds with
      | nil => simp [sharedPrefix]
      | cons d ds =>
        rw [sharedPrefix]
        split_ifs with hcd
        · subst hcd
          simp only [List.cons_prefix_cons, ih]
          tauto
        · simp only [List.cons_prefix_cons, List.prefix_nil, reduceCtorEq, false_iff]
          rintro ⟨⟨rfl, -⟩, rfl, -⟩
          exact hcd rfl

theorem prefix_foldl_sharedPrefix {p name : List Char} {names : List (List Char)} :
    p <+: names.foldl sharedPrefix name ↔ ∀ x ∈ name :: names, p <+: x := by
  induction names generalizing name with
  | nil => simp
  | cons name' names ih =>
    rw [List.foldl_cons, ih]
    simp only [List.forall_mem_cons, prefix_sharedPrefix, and_assoc]

/-- A terminal in an empty directory. -/
def terminal (realloc : ℕ → Bool) : Readline where
  realloc := realloc
  turns := 64
  substitution _ found := found.tail.foldl sharedPrefix (found.headD [])
  filenames _ := []

theorem terminal_substitutes (realloc : ℕ → Bool) : (terminal realloc).Substitutes := by
  intro text found hfound _ p
  obtain ⟨name, names, rfl⟩ := List.exists_cons_of_ne_nil hfound
  exact prefix_foldl_sharedPrefix

/-- A command, and then the argument of another one. -/
theorem completions_answered_break : ∃ s,
    completeAll (terminal fun _ => true) debugSymbols
      [⟨dbgInit, "dele".toList, "dele".toList, 0⟩, ⟨dbgInit, "break ".toList, [], 6⟩] .initial =
      .ok ([⟨["delete".toList], false⟩, ⟨["main".toList], false⟩], s) := by
  have hcommand : Request.completion ⟨dbgInit, "dele".toList, "dele".toList, 0⟩ =
      .commandNames "dele".toList := by decide +kernel
  have hbreak : Request.completion ⟨dbgInit, "break ".toList, [], 6⟩ =
      .complete .completeBreak [] 1 := by decide +kernel
  refine (completions_answered (terminal fun _ => true) debugSymbols
    [⟨dbgInit, "dele".toList, "dele".toList, 0⟩, ⟨dbgInit, "break ".toList, [], 6⟩]
    (terminal_substitutes _) (fun _ => rfl) (by decide +kernel)).mpr ?_
  rw [List.forall_mem_cons, List.forall_mem_singleton, Request.Misread, Request.Misread, hcommand,
    hbreak]
  refine ⟨id, ?_⟩
  rintro ⟨-, -, hno⟩
  obtain ⟨name, hname, hnot⟩ := hno 'm'
  rw [show Completer.completeBreak.offered _ debugSymbols _ _ _ _ = ["main".toList] by
    decide +kernel, List.mem_singleton] at hname
  exact hnot (by rw [hname]; decide)

/-- **The memory of completion.** A session of completions misuses no memory exactly if
`complete_break` never reads before its text, and where `realloc` refuses the array of candidates a
capacity, at most one request collects more than the array holds, and that one more. -/
theorem completions_safe_iff (rl : Readline) (syms : Symbols) (rs : List Request)
    (hsub : rl.Substitutes) (hturns : ∀ r ∈ rs, (r.answer rl syms).found.length < rl.turns) :
    (∃ out, completeAll rl syms rs .initial = .ok out) ↔
      (∀ r ∈ rs, ¬r.Misread rl syms) ∧ ∀ k, rl.realloc (bpCapacity (k + 1)) = false →
        (∀ r ∈ rs, r.added ≤ bpCapacity k + 1) ∧
          (rs.filter (bpCapacity k < ·.added)).length ≤ 1 := by
  by_cases hex : ∃ k, rl.realloc (bpCapacity (k + 1)) = false
  · -- the first capacity that is refused decides
    have hgranted : ∀ i < Nat.find hex, rl.realloc (bpCapacity (i + 1)) = true := fun i hi =>
      Bool.of_not_eq_false (Nat.find_min hex hi)
    rw [completeAll_roomy_iff hsub hturns hgranted (Nat.find_spec hex) (initial_roomy _)]
    refine and_congr_right fun _ => ⟨fun h k hrefused => ?_, fun h => h _ (Nat.find_spec hex)⟩
    have hle : bpCapacity (Nat.find hex) ≤ bpCapacity k :=
      bpCapacity_strictMono.monotone (Nat.find_min' hex hrefused)
    refine ⟨fun r hr => (h.1 r hr).trans (Nat.succ_le_succ hle), le_trans ?_ h.2⟩
    refine (List.monotone_filter_right rs fun r hr => ?_).length_le
    exact decide_eq_true (hle.trans_lt (of_decide_eq_true hr))
  · have hgranted : ∀ k, rl.realloc (bpCapacity (k + 1)) = true := fun k =>
      Bool.of_not_eq_false fun hk => hex ⟨k, hk⟩
    constructor
    · intro h
      exact ⟨not_misread_of_ok hsub hturns h, fun k hk => absurd ⟨k, hk⟩ hex⟩
    · rintro ⟨hread, -⟩
      obtain ⟨k, hadded⟩ := exists_added_le rs
      obtain ⟨s, hall⟩ := completeAll_answers hsub hturns hread (fun i _ => hgranted i)
        (initial_roomy k) hadded
      exact ⟨_, hall⟩

/-- Without memory for the array, the second text of a breakpoint is stored through `NULL`. -/
theorem completions_safe_iff_refused : ∃ w,
    session .idle debugSymbols dbgInit [.break [parseBreakArg "main".toList]] = .ok w ∧
      ¬∃ out, completeAll (terminal fun _ => false) debugSymbols
        [⟨w, "delete ".toList, [], 7⟩] .initial = .ok out := by
  obtain ⟨w, hw, hp⟩ := exists_of_any
    (p := fun w => w.bpTexts = ["1".toList, "main".toList])
    (x := session .idle debugSymbols dbgInit [.break [parseBreakArg "main".toList]])
    (by decide +kernel)
  have htexts := of_decide_eq_true hp
  refine ⟨w, hw, fun h => ?_⟩
  have hdelete : Request.completion ⟨w, "delete ".toList, [], 7⟩ =
      .complete .completeDelete [] 1 := by
    show dbgCompletion "delete ".toList [] 7 = _
    decide +kernel
  have hbp : (Request.completion ⟨w, "delete ".toList, [], 7⟩).AsksBp := by
    rw [hdelete]
    exact ⟨by simp, le_rfl⟩
  have hturns : ∀ r ∈ [(⟨w, "delete ".toList, [], 7⟩ : Request)],
      (r.answer (terminal fun _ => false) debugSymbols).found.length < 64 := by
    rw [List.forall_mem_singleton, Request.answer, hdelete]
    show (beginning [] w.bpTexts).length < 64
    rw [htexts]
    decide
  have hsafe := ((completions_safe_iff (terminal fun _ => false) debugSymbols
    [⟨w, "delete ".toList, [], 7⟩] (terminal_substitutes _) hturns).mp h).2 0 rfl
  have hadded := hsafe.1 _ List.mem_cons_self
  rw [Request.added, if_pos hbp, htexts] at hadded
  exact absurd hadded (by decide)

end Sessions

end Vdbg
