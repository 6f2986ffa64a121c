import Mathlib.Data.List.Infix

/-!
# Runs of a fallible step function

A run is `List.foldlM step s as` for a step `σ → α → Except ε σ`. An invariant of the step is an
invariant of the run (`invariant`). `Along` says that all steps of a run meet a condition; where one
step keeps `P` exactly under a condition, a run keeps `P` at all of its prefixes exactly when the
condition holds along it (`forall_prefix_iff`). `both` runs two systems side by side, so that a
relation between them is an invariant of one. A call for each element of a list is `List.mapM`, and
returns what the calls return (`forall₂_of_mapM`).
-/

namespace FaultRun

universe u v

variable {σ τ : Type u} {α : Type*} {ε : Type v}

theorem bind_eq_ok {x : Except ε σ} {f : σ → Except ε τ} {t : τ} :
    x >>= f = .ok t ↔ ∃ s, x = .ok s ∧ f s = .ok t := by
  cases x with
  | error e => simp [bind, Except.bind]
  | ok s => simp [bind, Except.bind]

@[simp] theorem ok_bind (s : σ) (f : σ → Except ε τ) : (Except.ok s >>= f) = f s := rfl

@[simp] theorem error_bind (e : ε) (f : σ → Except ε τ) : (Except.error e >>= f) = .error e := rfl

/-- A run that is evaluated to a result that passes a test. -/
theorem exists_of_any {x : Except ε σ} {p : σ → Bool} (h : x.toOption.any p = true) :
    ∃ s, x = .ok s ∧ p s = true := by
  cases x with
  | error e => cases h
  | ok s => exact ⟨s, rfl, h⟩

theorem foldlM_cons_eq_ok {step : σ → α → Except ε σ} {s t : σ} {a : α} {as : List α} :
    (a :: as).foldlM step s = .ok t ↔ ∃ s', step s a = .ok s' ∧ as.foldlM step s' = .ok t := by
  rw [List.foldlM_cons]
  exact bind_eq_ok

/-- An invariant of the step is an invariant of the run. -/
theorem invariant {step : σ → α → Except ε σ} {P : σ → Prop}
    (hstep : ∀ s a s', P s → step s a = .ok s' → P s') {as : List α} {s t : σ} (hs : P s)
    (hrun : as.foldlM step s = .ok t) : P t := by
  induction as generalizing s with
  | nil => cases hrun; exact hs
  | cons a as ih =>
    obtain ⟨s', h1, h2⟩ := foldlM_cons_eq_ok.mp hrun
    exact ih (hstep s a s' hs h1) h2

/-- Two systems side by side. -/
def both (step : σ → α → Except ε σ) (step' : τ → α → Except ε τ) (s : σ × τ) (a : α) :
    Except ε (σ × τ) := do
  let s' ← step s.1 a
  let t' ← step' s.2 a
  return (s', t')

theorem both_eq_ok {step : σ → α → Except ε σ} {step' : τ → α → Except ε τ} {s s' : σ × τ} {a : α} :
    both step step' s a = .ok s' ↔ step s.1 a = .ok s'.1 ∧ step' s.2 a = .ok s'.2 := by
  unfold both
  rcases step s.1 a with e | s₁
  · exact iff_of_false (fun h => by cases h) fun h => by cases h.1
  · rcases step' s.2 a with e | t₁
    · exact iff_of_false (fun h => by cases h) fun h => by cases h.2
    · obtain ⟨s', t'⟩ := s'
      simp [bind, Except.bind, pure, Except.pure]

/-- Both systems run when each of them does. -/
theorem foldlM_both_eq_ok {step : σ → α → Except ε σ} {step' : τ → α → Except ε τ} {as : List α}
    {s s' : σ} {t t' : τ} : as.foldlM (both step step') (s, t) = .ok (s', t') ↔
      as.foldlM step s = .ok s' ∧ as.foldlM step' t = .ok t' := by
  induction as generalizing s t with
  | nil => simp [pure, Except.pure]
  | cons a as ih =>
    rw [foldlM_cons_eq_ok, foldlM_cons_eq_ok, foldlM_cons_eq_ok]
    constructor
    · rintro ⟨⟨s₁, t₁⟩, h1, hrest⟩
      obtain ⟨hs, ht⟩ := both_eq_ok.mp h1
      obtain ⟨hs', ht'⟩ := ih.mp hrest
      exact ⟨⟨s₁, hs, hs'⟩, t₁, ht, ht'⟩
    · rintro ⟨⟨s₁, hs, hs'⟩, t₁, ht, ht'⟩
      exact ⟨(s₁, t₁), both_eq_ok.mpr ⟨hs, ht⟩, ih.mpr ⟨hs', ht'⟩⟩

/-- Every step of a run meets a condition on the state before it. -/
def Along (step : σ → α → Except ε σ) (C : σ → α → Prop) : σ → List α → Prop
  | _, [] => True
  | s, a :: as => C s a ∧ ∀ s', step s a = .ok s' → Along step C s' as

instance decidableForallOk {x : Except ε σ} {P : σ → Prop} [DecidablePred P] :
    Decidable (∀ s, x = .ok s → P s) :=
  match x with
  | .error _ => isTrue nofun
  | .ok s => decidable_of_iff (P s) ⟨fun h _ he => Except.ok.inj he ▸ h, fun h => h s rfl⟩

instance decidableAlong {step : σ → α → Except ε σ} {C : σ → α → Prop}
    [∀ s a, Decidable (C s a)] : ∀ s as, Decidable (Along step C s as)
  | _, [] => isTrue trivial
  | s, a :: as =>
    have (s' : σ) : Decidable (Along step C s' as) := decidableAlong s' as
    inferInstanceAs (Decidable (C s a ∧ ∀ s', step s a = .ok s' → Along step C s' as))

theorem Along.of_forall {step : σ → α → Except ε σ} {C : σ → α → Prop} {as : List α}
    (h : ∀ a ∈ as, ∀ s, C s a) (s : σ) : Along step C s as := by
  induction as generalizing s with
  | nil => trivial
  | cons a as ih =>
    exact ⟨h a List.mem_cons_self s, fun s' _ => ih (fun b hb => h b (List.mem_cons_of_mem _ hb)) s'⟩

/-- Two conditions that are the same where `P` holds, on runs whose steps keep `P` under them. -/
theorem Along.congr {step : σ → α → Except ε σ} {C D : σ → α → Prop} {P : σ → Prop}
    (hiff : ∀ s a, P s → (C s a ↔ D s a))
    (hstep : ∀ s a s', P s → C s a → step s a = .ok s' → P s') {as : List α} {s : σ} (hs : P s) :
    Along step C s as ↔ Along step D s as := by
  induction as generalizing s with
  | nil => exact Iff.rfl
  | cons a as ih =>
    unfold Along
    rw [← hiff s a hs]
    exact and_congr_right fun hC => forall₂_congr fun s' h1 => ih (hstep s a s' hs hC h1)

/-- What a step keeps under a condition, a run keeps whose steps meet it. -/
theorem Along.invariant {step : σ → α → Except ε σ} {C : σ → α → Prop} {P : σ → Prop}
    (hstep : ∀ s a s', P s → C s a → step s a = .ok s' → P s') {as : List α} {s t : σ}
    (hC : Along step C s as) (hs : P s) (hrun : as.foldlM step s = .ok t) : P t := by
  induction as generalizing s with
  | nil => cases hrun; exact hs
  | cons a as ih =>
    obtain ⟨s', h1, h2⟩ := foldlM_cons_eq_ok.mp hrun
    exact ih (hC.2 s' h1) (hstep s a s' hs hC.1 h1) h2

/-- Where one step keeps `P` exactly under `C`, and returns where `C` fails, a run keeps `P` at
every prefix exactly when every one of its steps meets `C`. -/
theorem forall_prefix_iff {step : σ → α → Except ε σ} {P : σ → Prop} {C : σ → α → Prop}
    (hstep : ∀ s a s', P s → step s a = .ok s' → (P s' ↔ C s a))
    (hreturns : ∀ s a, P s → ¬C s a → ∃ s', step s a = .ok s') {as : List α} {s : σ} (hs : P s) :
    (∀ bs, bs <+: as → ∀ t, bs.foldlM step s = .ok t → P t) ↔ Along step C s as := by
  induction as generalizing s with
  | nil =>
    refine iff_of_true (fun bs hbs t ht => ?_) trivial
    obtain rfl := List.prefix_nil.mp hbs
    cases ht
    exact hs
  | cons a as ih =>
    constructor
    · intro h
      have hP : ∀ s', step s a = .ok s' → P s' := fun s' h1 =>
        h [a] (by simp) s' (foldlM_cons_eq_ok.mpr ⟨s', h1, rfl⟩)
      refine ⟨?_, fun s' h1 => (ih (hP s' h1)).mp fun bs hbs t ht => ?_⟩
      · by_contra hC
        obtain ⟨s', h1⟩ := hreturns s a hs hC
        exact hC ((hstep s a s' hs h1).mp (hP s' h1))
      · exact h (a :: bs) (List.cons_prefix_cons.mpr ⟨rfl, hbs⟩) t
          (foldlM_cons_eq_ok.mpr ⟨s', h1, ht⟩)
    · rintro ⟨hC, hrest⟩ bs hbs t ht
      cases bs with
      | nil => cases ht; exact hs
      | cons b bs =>
        obtain ⟨rfl, hbs'⟩ := List.cons_prefix_cons.mp hbs
        obtain ⟨s', h1, ht⟩ := foldlM_cons_eq_ok.mp ht
        exact (ih ((hstep s b s' hs h1).mpr hC)).mpr (hrest s' h1) bs hbs' t ht

/-! ## Calls for each element of a list -/

section MapM

variable {f : α → Except ε σ} {xs : List α} {ys : List σ}

theorem mapM_cons_eq_ok {x : α} : (x :: xs).mapM f = .ok ys ↔
    ∃ y rest, f x = .ok y ∧ xs.mapM f = .ok rest ∧ ys = y :: rest := by
  rw [List.mapM_cons]
  simp only [bind_eq_ok, pure, Except.pure, Except.ok.injEq]
  constructor
  · rintro ⟨y, hy, rest, hrest, rfl⟩
    exact ⟨y, rest, hy, hrest, rfl⟩
  · rintro ⟨y, rest, hy, hrest, rfl⟩
    exact ⟨y, hy, rest, hrest, rfl⟩

/-- The results are those of the calls, in their order. -/
theorem forall₂_of_mapM (h : xs.mapM f = .ok ys) :
    List.Forall₂ (fun x y => f x = .ok y) xs ys := by
  induction xs generalizing ys with
  | nil =>
    cases h
    exact .nil
  | cons x xs ih =>
    obtain ⟨y, rest, hy, hrest, rfl⟩ := mapM_cons_eq_ok.mp h
    exact .cons hy (ih hrest)

/-- A test of the results that is one of the arguments picks the same of both. -/
theorem mapM_filter {p : α → Bool} {q : σ → Bool} (hpq : ∀ x y, f x = .ok y → p x = q y)
    (h : xs.mapM f = .ok ys) : (xs.filter p).mapM f = .ok (ys.filter q) := by
  induction xs generalizing ys with
  | nil =>
    cases h
    rfl
  | cons x xs ih =>
    obtain ⟨y, rest, hy, hrest, rfl⟩ := mapM_cons_eq_ok.mp h
    cases hq : q y with
    | true =>
      rw [List.filter_cons_of_pos ((hpq x y hy).trans hq), List.filter_cons_of_pos hq]
      exact mapM_cons_eq_ok.mpr ⟨y, _, hy, ih hrest, rfl⟩
    | false =>
      rw [List.filter_cons_of_neg (by rw [hpq x y hy, hq]; exact Bool.false_ne_true),
        List.filter_cons_of_neg (by rw [hq]; exact Bool.false_ne_true)]
      exact ih hrest

theorem mapM_forall_iff {P : α → Prop} {Q : σ → Prop} (hPQ : ∀ x y, f x = .ok y → (P x ↔ Q y))
    (h : xs.mapM f = .ok ys) : (∀ x ∈ xs, P x) ↔ ∀ y ∈ ys, Q y := by
  induction xs generalizing ys with
  | nil =>
    cases h
    exact iff_of_true nofun nofun
  | cons x xs ih =>
    obtain ⟨y, rest, hy, hrest, rfl⟩ := mapM_cons_eq_ok.mp h
    rw [List.forall_mem_cons, List.forall_mem_cons, hPQ x y hy, ih hrest]

/-- Calls that are given the place in the list as well, and put it into their result. -/
theorem mapM_zipIdx_eq_ok {f' : α × ℕ → Except ε τ} {g : σ → ℕ → τ}
    (hf : ∀ x j z, f' (x, j) = .ok z ↔ ∃ y, f x = .ok y ∧ z = g y j) {zs : List τ} {n : ℕ} :
    (xs.zipIdx n).mapM f' = .ok zs ↔
      ∃ ys, xs.mapM f = .ok ys ∧ zs = (ys.zipIdx n).map fun p => g p.1 p.2 := by
  induction xs generalizing zs n with
  | nil => simp [pure, Except.pure, eq_comm]
  | cons x xs ih =>
    simp only [List.zipIdx_cons, mapM_cons_eq_ok, ih, hf]
    constructor
    · rintro ⟨_, _, ⟨y, hy, rfl⟩, ⟨ys, hys, rfl⟩, rfl⟩
      exact ⟨_, ⟨y, ys, hy, hys, rfl⟩, rfl⟩
    · rintro ⟨_, ⟨y, ys, hy, hys, rfl⟩, rfl⟩
      exact ⟨_, _, ⟨y, hy, rfl⟩, ⟨ys, hys, rfl⟩, rfl⟩

end MapM

end FaultRun
