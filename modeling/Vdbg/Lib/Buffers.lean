import Mathlib.Algebra.Order.Group.Nat
import Vdbg.Lib.FaultRun

/-!
# Buffers

An array with room for `cap` entries that is filled from the front. A store past its end is a fault.
-/

namespace Buffers

variable {α : Type} {ε : Type}

/-- The entries stored so far, of which there are never more than there is room for. -/
structure Buffer (α : Type) where
  cap : ℕ
  entries : List α
  fits : entries.length ≤ cap

namespace Buffer

/-- `malloc(cap * sizeof(*entries))` -/
def alloc (cap : ℕ) : Buffer α := ⟨cap, [], Nat.zero_le cap⟩

variable (fault : ε) (b : Buffer α) (x : α)

/-- `entries[count++] = x` -/
def store : Except ε (Buffer α) :=
  if h : b.entries.length < b.cap then
    .ok ⟨b.cap, b.entries ++ [x], by rw [List.length_append]; exact h⟩
  else .error fault

/-- `cap *= 2` and `realloc`. -/
def double : Buffer α := ⟨b.cap * 2, b.entries, by have h := b.fits; omega⟩

/-- `realloc` to room for `cap` entries, those behind it being lost. -/
def resize (b : Buffer α) (cap : ℕ) : Buffer α := ⟨cap, b.entries.take cap, List.length_take_le ..⟩

variable {b}

theorem store_of_lt (h : b.entries.length < b.cap) :
    ∃ b', store fault b x = .ok b' ∧ b'.cap = b.cap ∧ b'.entries = b.entries ++ [x] :=
  ⟨_, dif_pos h, rfl, rfl⟩

variable {fault x}

theorem store_of_full (h : b.entries.length = b.cap) : store fault b x = .error fault :=
  dif_neg (by omega)

variable {β : Type} (fault) (entry : β → Except ε (Option α))

variable {fault entry}

end Buffer

end Buffers
