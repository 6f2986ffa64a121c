import Mathlib.Logic.Function.Basic

/-!
# Insert-if-absent finite maps

The abstract map a hash table stands for: a partial function from keys to objects into which an
insertion under a present key, or of no object at all, is refused. `stored` keeps every object ever
accepted. A concrete map agrees with it on whole runs when each of its operations gives the same
answer and keeps a relation between the two states (`run_related`).
-/

namespace FiniteMap

/-- The operations of a map. An insertion may be of no object. -/
inductive Op (K V : Type*) where
  | insert (k : K) (v : Option V)
  | lookup (k : K)
  | delete (k : K)

/-- What an operation returns. -/
inductive Answer (V : Type*) where
  | inserted (b : Bool)
  | found (v : Option V)
  | deleted

/-- The objects under the keys, and all objects ever accepted, the last one first. -/
structure Spec (K V : Type*) where
  map : K → Option V
  stored : List V

variable {K V S T : Type*}

/-- The map without objects. -/
def Spec.empty : Spec K V := ⟨fun _ => none, []⟩

/-- One operation on the abstract map. -/
def Spec.step [DecidableEq K] (s : Spec K V) : Op K V → Answer V × Spec K V
  | .insert k (some v) =>
    if s.map k = none then (.inserted true, ⟨Function.update s.map k (some v), v :: s.stored⟩)
    else (.inserted false, s)
  | .insert _ none => (.inserted false, s)
  | .lookup k => (.found (s.map k), s)
  | .delete k => (.deleted, { s with map := Function.update s.map k none })

/-- The answers of a list of operations and the state after them. -/
def run (step : S → Op K V → Answer V × S) : S → List (Op K V) → List (Answer V) × S
  | s, [] => ([], s)
  | s, op :: ops => ((step s op).1 :: (run step (step s op).2 ops).1, (run step (step s op).2 ops).2)

/-- Two implementations that answer alike and stay related do so over every run. -/
theorem run_related {step : S → Op K V → Answer V × S} {step' : T → Op K V → Answer V × T}
    {R : S → T → Prop}
    (h : ∀ s t op, R s t → (step s op).1 = (step' t op).1 ∧ R (step s op).2 (step' t op).2)
    (ops : List (Op K V)) {s : S} {t : T} (hR : R s t) :
    (run step s ops).1 = (run step' t ops).1 ∧ R (run step s ops).2 (run step' t ops).2 := by
  induction ops generalizing s t with
  | nil => exact ⟨rfl, hR⟩
  | cons op ops ih =>
    obtain ⟨ha, hR'⟩ := h s t op hR
    obtain ⟨has, hR''⟩ := ih hR'
    exact ⟨by rw [run, run, ha, has], hR''⟩

end FiniteMap
