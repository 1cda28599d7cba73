/-
Automorphisms as permutations of the slots.

Slot `i` belongs to the exponent `2i + 1`, and `slotIndex N u` is the slot of
the exponent `u` mod `2N`. Multiplying the exponents by a unit moves the
slots, and by `SlotRep.gal` applies the automorphism; `galSlots`, the lookup
table of the kernel and the permutation of step 4 are all such moves.
-/
import Dnspir.RnsFacts
import Dnspir.PerformPir

namespace Dnspir

open SpecialZnx8 PIRDatabase Negacyclic

theorem odd_five : Odd 5 := by decide

/-- The slot of an odd exponent. -/
def slotIndex (N u : ℕ) : ℕ := u % (2 * N) / 2

section SlotIndex
variable {N : ℕ} {u w : ℕ}

theorem two_slotIndex_add_one (hu : Odd u) : 2 * slotIndex N u + 1 = u % (2 * N) := by
  have : u % (2 * N) % 2 = 1 := by
    rw [Nat.mod_mod_of_dvd _ (dvd_mul_right 2 N)]
    exact Nat.odd_iff.mp hu
  simp only [slotIndex]
  omega

theorem slotIndex_lt [NeZero N] (u : ℕ) : slotIndex N u < N := by
  have := Nat.mod_lt u (show 0 < 2 * N by have := NeZero.pos N; omega)
  simp only [slotIndex]
  omega

theorem slotIndex_modEq (hu : Odd u) : 2 * slotIndex N u + 1 ≡ u [MOD 2 * N] := by
  rw [two_slotIndex_add_one hu]
  exact Nat.mod_modEq _ _

theorem eq_of_two_mul_modEq {i j : Fin N} (h : 2 * i.val + 1 ≡ 2 * j.val + 1 [MOD 2 * N]) : i = j := by
  have h1 := Nat.mod_eq_of_lt (show 2 * i.val + 1 < 2 * N by have := i.isLt; omega)
  have h2 := Nat.mod_eq_of_lt (show 2 * j.val + 1 < 2 * N by have := j.isLt; omega)
  have : 2 * i.val + 1 = 2 * j.val + 1 := by rw [← h1, ← h2]; exact h
  exact Fin.ext (by omega)

theorem val_natCast_two_mul (u : ℕ) : ((u : ℕ) : ZMod (2 * N)).val = u % (2 * N) := ZMod.val_natCast _ u

variable [NeZero N]

/-- Slot `i` after multiplying the exponents by `u`. -/
def moveSlot (N : ℕ) [NeZero N] (u : ℕ) (i : Fin N) : Fin N :=
  ⟨slotIndex N (u * (2 * i + 1)), slotIndex_lt _⟩

theorem moveSlot_modEq (hu : Odd u) (i : Fin N) :
    2 * (moveSlot N u i).val + 1 ≡ (2 * i.val + 1) * u [MOD 2 * N] :=
  mul_comm u (2 * i.val + 1) ▸ slotIndex_modEq (hu.mul ⟨i, rfl⟩)

/-- Moving along `u` and then along its inverse is the identity. -/
theorem moveSlot_moveSlot (hu : Odd u) (hw : Odd w) (huw : u * w ≡ 1 [MOD 2 * N]) (i : Fin N) :
    moveSlot N w (moveSlot N u i) = i := by
  refine eq_of_two_mul_modEq ?_
  calc 2 * (moveSlot N w (moveSlot N u i)).val + 1
      ≡ (2 * (moveSlot N u i).val + 1) * w [MOD 2 * N] := moveSlot_modEq hw _
    _ ≡ (2 * i.val + 1) * u * w [MOD 2 * N] := (moveSlot_modEq hu i).mul_right w
    _ = (2 * i.val + 1) * (u * w) := mul_assoc _ _ _
    _ ≡ (2 * i.val + 1) * 1 [MOD 2 * N] := huw.mul_left _
    _ = 2 * i.val + 1 := mul_one _

theorem moveSlot_injective (hu : Odd u) (hw : Odd w) (huw : u * w ≡ 1 [MOD 2 * N]) :
    Function.Injective (moveSlot N u) :=
  Function.LeftInverse.injective (moveSlot_moveSlot hu hw huw)

/-! ## The index functions of the source -/

theorem indexToGalois_eq (i : ℕ) :
    (indexToGalois N i : ZMod (2 * N)) = ((2 * i + 1 : ℕ) : ZMod (2 * N)) := by
  rw [indexToGalois, Nat.mul_div_cancel _ (NeZero.pos N)]

theorem galoisToIndex_natCast (hu : Odd u) :
    galoisToIndex N ((u : ℕ) : ZMod (2 * N)) = some (slotIndex N u) := by
  have h := two_slotIndex_add_one (N := N) hu
  have hq : (((u : ℕ) : ZMod (2 * N)).val : ℤ) - 1 = (slotIndex N u : ℤ) * (2 : ℕ) := by
    rw [val_natCast_two_mul]
    omega
  rw [galoisToIndex, exactIndex, hq, Nat.mul_div_cancel _ (NeZero.pos N)]
  rw [Int.mul_ediv_cancel _ (by norm_num)]
  simp

/-- A unit mod `2N` has an odd inverse. -/
theorem exists_inv {g : ℕ} (hN : Nat.Coprime g (2 * N)) : ∃ w : ℕ, Odd w ∧ g * w ≡ 1 [MOD 2 * N] ∧
    Zn.invert ((g : ℕ) : ZMod (2 * N)) = some ((w : ℕ) : ZMod (2 * N)) := by
  have hg := ZMod.coe_mul_inv_eq_one (n := 2 * N) g hN
  have hw : (g * ((g : ZMod (2 * N))⁻¹).val : ℕ) ≡ 1 [MOD 2 * N] := by
    rw [← ZMod.natCast_eq_natCast_iff]
    push_cast
    rw [ZMod.natCast_zmod_val, hg]
  refine ⟨((g : ZMod (2 * N))⁻¹).val, ?_, hw, ?_⟩
  · have h2 : (g * ((g : ZMod (2 * N))⁻¹).val : ℕ) ≡ 1 [MOD 2] := hw.of_dvd (dvd_mul_right 2 N)
    exact (Nat.odd_mul.mp (Nat.odd_iff.mpr h2)).2
  · rw [Zn.invert_of_mul_eq_one hg, ZMod.natCast_zmod_val]

/-- The generator `5` has an odd inverse mod `2N`, for `N` a power of two. -/
theorem exists_inv_five (hN : Nat.Coprime 5 (2 * N)) : ∃ w : ℕ, Odd w ∧ 5 * w ≡ 1 [MOD 2 * N] ∧
    Zn.invert (IndexGroup.genH (2 * N)) = some ((w : ℕ) : ZMod (2 * N)) := exists_inv hN

omit [NeZero N] in
theorem coprime_odd_two_pow {g : ℕ} (hg : Odd g) (n : ℕ) : Nat.Coprime g (2 * 2 ^ n) := by
  rw [← pow_succ']
  exact Nat.Coprime.pow_right _ hg.coprime_two_right

theorem coprime_five_two_pow (n : ℕ) : Nat.Coprime 5 (2 * 2 ^ n) := coprime_odd_two_pow odd_five n

end SlotIndex

/-! ## Moves of slots -/

variable {K N : ℕ} [NeZero N] {Z : SpecialZnx8 K} {zinv : Z.ComponentRing}
  {v : Vector M512i N} {F : Fin 8 → Negacyclic N Z.ComponentRing}

/-- Reading slot `moveSlot u i` into slot `i` applies `X -> X^u`. -/
theorem SlotRep.move {u : ℕ} (hu : Odd u) (hz : zinv ^ N = -1) (hv : SlotRep Z zinv v F)
    {w : Vector M512i N} (hw : ∀ i : Fin N, w[i] = v[moveSlot N u i]) :
    SlotRep Z zinv w fun c => Negacyclic.gal u hu (F c) :=
  hv.gal hu hz fun i => ⟨moveSlot N u i, hw i, moveSlot_modEq hu i⟩

/-- Writing slot `i` to slot `moveSlot w i`, for the inverse `w` of `u`,
applies `X -> X^u` as well. -/
theorem SlotRep.scatter {u w : ℕ} (hu : Odd u) (hw : Odd w) (huw : u * w ≡ 1 [MOD 2 * N])
    (hz : zinv ^ N = -1) (hv : SlotRep Z zinv v F) {x : Vector M512i N}
    (hx : ∀ i : Fin N, x[moveSlot N w i] = v[i]) :
    SlotRep Z zinv x fun c => Negacyclic.gal u hu (F c) := by
  refine hv.move hu hz fun i => ?_
  have h := hx (moveSlot N u i)
  simp only [moveSlot_moveSlot hu hw huw] at h
  exact h

theorem mul_indexToGalois (w : ℕ) (i : ℕ) : ((w : ℕ) : ZMod (2 * N)) * indexToGalois N i =
    ((w * (2 * i + 1) : ℕ) : ZMod (2 * N)) := by
  rw [indexToGalois_eq, Nat.cast_mul]

/-- `galSlots` scatters along the inverse of `g`. -/
theorem galSlots_gal {g : ℕ} (hg : Odd g) (hN : Nat.Coprime g (2 * N)) (hz : zinv ^ N = -1)
    (zero : M512i) (hv : SlotRep Z zinv v F) : ∃ x, galSlots ((g : ℕ) : ZMod (2 * N)) zero v = some x ∧
      SlotRep Z zinv x fun c => Negacyclic.gal g hg (F c) := by
  obtain ⟨w, hw, hgw, hinv⟩ := exists_inv hN
  have hinj : Function.Injective (moveSlot N w) :=
    moveSlot_injective hw hg (by rwa [mul_comm g] at hgw)
  simp only [galSlots, hinv, Option.bind_eq_bind, Option.bind_some, mul_indexToGalois]
  have hloop := Loops.foldlM_finRange (n := N) (b := Vector.replicate N zero)
    (f := fun galResult i =>
      (galoisToIndex N ((w * (2 * i.val + 1) : ℕ) : ZMod (2 * N))).bind fun outI =>
      if h : outI < N then some (galResult.set outI v[i]) else none)
    (P := fun k x => ∀ i : Fin N, i.val < k → x[moveSlot N w i] = v[i]) (by intro i hi; omega) ?_
  · obtain ⟨x, he, hx⟩ := hloop
    exact ⟨x, he, hv.scatter hg hw hgw hz fun i => hx i i.isLt⟩
  · intro k x hx
    have hs := slotIndex_lt (N := N) (w * (2 * k.val + 1))
    refine ⟨x.set (moveSlot N w k) v[k] (moveSlot N w k).isLt, ?_, fun i hi => ?_⟩
    · rw [galoisToIndex_natCast (hw.mul ⟨k, rfl⟩), Option.bind_some, dif_pos hs]
      rfl
    · simp only [Positions.getElem_pos, Vector.getElem_set, Fin.val_inj, hinj.eq_iff]
      split
      next he => simp [he]
      next he => exact hx i (lt_of_le_of_ne (by omega) fun e => he (Fin.ext e.symm))

theorem galSlots_spec (hN : Nat.Coprime 5 (2 * N)) (hz : zinv ^ N = -1) (zero : M512i)
    (hv : SlotRep Z zinv v F) :
    ∃ x, galSlots (IndexGroup.genH (2 * N)) zero v = some x ∧
      SlotRep Z zinv x fun c => Negacyclic.gal 5 odd_five (F c) := galSlots_gal odd_five hN hz zero hv

end Dnspir
