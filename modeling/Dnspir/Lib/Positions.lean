/-
Vectors read at positions.

A position `i : Fin n` of a vector of length `n` is in range, so `v[i]` leaves
no bound to prove. A literal index is a position, too: `v[0]` is the entry at
`(0 : Fin n)`.

* `getElem_pos`: the entry by the number of the position.
-/
import Mathlib.Algebra.GroupWithZero.Nat

namespace Positions

/-! ## Lengths with positions -/

instance instNeZeroTwo : NeZero 2 := ⟨by decide⟩

instance instNeZeroSix : NeZero 6 := ⟨by decide⟩

instance instNeZeroEight : NeZero 8 := ⟨by decide⟩

/-! ## Entries -/

variable {α β : Type*} {n : ℕ}

instance instGetElem : GetElem (Vector α n) (Fin n) α fun _ _ => True where
  getElem v i _ := getElem v i.val i.isLt

attribute [default_instance high] instGetElem

/-- The entry at a position, by its number. -/
@[simp] theorem getElem_pos (v : Vector α n) (i : Fin n) : v[i] = getElem v i.val i.isLt := rfl

theorem getElem_map (f : α → β) (v : Vector α n) (i : Fin n) : (v.map f)[i] = f v[i] :=
  Vector.getElem_map ..

end Positions
