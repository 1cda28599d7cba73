/-
The sizes of the coefficients of an element of `(Z/q)[X]/(X^n + 1)`, by their
centred lifts.

* `Bounded.mul`: in a product a bound grows by the weight of the other factor,
  the sum of its sizes.
* `Bounded.gal`: an automorphism keeps it.
-/
import Dnspir.Lib.Negacyclic

namespace Negacyclic

variable {n q : ℕ}

/-! ## Residues -/

/-- The size of a residue. -/
def size (a : ZMod q) : ℕ := a.valMinAbs.natAbs

theorem size_neg (a : ZMod q) : size (-a) = size a := ZMod.natAbs_valMinAbs_neg a

@[simp] theorem size_zero : size (0 : ZMod q) = 0 := by simp [size]

theorem size_add_le (a b : ZMod q) : size (a + b) ≤ size a + size b :=
  (ZMod.natAbs_valMinAbs_add_le a b).trans (Int.natAbs_add_le _ _)

theorem size_sum_le {ι : Type*} (s : Finset ι) (f : ι → ZMod q) :
    size (∑ i ∈ s, f i) ≤ ∑ i ∈ s, size (f i) :=
  Finset.le_sum_of_subadditive size size_zero.le size_add_le s f

/-- The centred lift is the smallest integer of a residue. -/
theorem size_intCast_le [NeZero q] (v : ℤ) : size (v : ZMod q) ≤ v.natAbs :=
  ZMod.natAbs_min_of_le_div_two q _ v (by rw [ZMod.coe_valMinAbs]) (ZMod.natAbs_valMinAbs_le _)

theorem size_mul_le [NeZero q] (a b : ZMod q) : size (a * b) ≤ size a * size b := by
  have h := size_intCast_le (q := q) (a.valMinAbs * b.valMinAbs)
  rwa [Int.cast_mul, ZMod.coe_valMinAbs, ZMod.coe_valMinAbs, Int.natAbs_mul] at h

/-! ## Elements -/

/-- No coefficient is larger than `B`. -/
def Bounded (B : ℕ) (f : Negacyclic n (ZMod q)) : Prop := ∀ i, size (f.coeff i) ≤ B

/-- The sum of the sizes of the coefficients. -/
def weight (f : Negacyclic n (ZMod q)) : ℕ := ∑ i, size (f.coeff i)

@[simp] theorem weight_zero : weight (0 : Negacyclic n (ZMod q)) = 0 := by simp [weight]

/-- A constant weighs what its coefficient does. -/
theorem weight_eq_size [NeZero n] {f : Negacyclic n (ZMod q)} (h : ∀ i ≠ 0, f.coeff i = 0) :
    weight f = size (f.coeff 0) :=
  Finset.sum_eq_single 0 (fun i _ hi => by rw [h i hi, size_zero]) fun h => absurd (Finset.mem_univ 0) h

/-- The centred lift of every coefficient. -/
def centred (f : Negacyclic n (ZMod q)) : Negacyclic n ℤ := ⟨fun i => (f.coeff i).valMinAbs⟩

section Sum
variable {B B' : ℕ} {f g : Negacyclic n (ZMod q)}

theorem Bounded.mono (h : Bounded B f) (hB : B ≤ B') : Bounded B' f := fun i => (h i).trans hB

theorem bounded_zero (B : ℕ) : Bounded B (0 : Negacyclic n (ZMod q)) :=
  fun _ => size_zero.le.trans (Nat.zero_le B)

theorem Bounded.add (hf : Bounded B f) (hg : Bounded B' g) : Bounded (B + B') (f + g) := fun i =>
  (size_add_le _ _).trans (add_le_add (hf i) (hg i))

theorem Bounded.sum [NeZero n] {ι : Type*} {s : Finset ι} {F : ι → Negacyclic n (ZMod q)}
    (h : ∀ i ∈ s, Bounded B (F i)) : Bounded (s.card * B) (∑ i ∈ s, F i) := fun k => by
  rw [coeff_sum]
  calc size (∑ i ∈ s, (F i).coeff k) ≤ ∑ i ∈ s, size ((F i).coeff k) := size_sum_le s _
    _ ≤ ∑ _i ∈ s, B := Finset.sum_le_sum fun i hi => h i hi k
    _ = s.card * B := by rw [Finset.sum_const, smul_eq_mul]

theorem Bounded.weight_le (h : Bounded B f) : weight f ≤ n * B :=
  calc weight f ≤ ∑ _i : Fin n, B := Finset.sum_le_sum fun i _ => h i
    _ = n * B := by rw [Finset.sum_const, Finset.card_univ, Fintype.card_fin, smul_eq_mul]

end Sum

section Product
variable [NeZero n] [NeZero q] {B : ℕ} {f : Negacyclic n (ZMod q)}

/-- **A product** is bounded by the bound of one factor times the weight of the
other. -/
theorem Bounded.mul (hf : Bounded B f) (g : Negacyclic n (ZMod q)) :
    Bounded (B * weight g) (f * g) := fun k => by
  have hterm : ∀ i : Fin n,
      size (if i ≤ k then f.coeff i * g.coeff (k - i) else -(f.coeff i * g.coeff (k - i))) ≤
      B * size (g.coeff (k - i)) := fun i => by
    have hmul := (size_mul_le (f.coeff i) (g.coeff (k - i))).trans (Nat.mul_le_mul_right _ (hf i))
    split
    · exact hmul
    · rwa [size_neg]
  rw [coeff_mul]
  calc size (∑ i : Fin n, if i ≤ k then f.coeff i * g.coeff (k - i) else -(f.coeff i * g.coeff (k - i)))
      ≤ ∑ i : Fin n, B * size (g.coeff (k - i)) :=
        (size_sum_le _ _).trans (Finset.sum_le_sum fun i _ => hterm i)
    _ = B * ∑ i : Fin n, size (g.coeff (k - i)) := (Finset.mul_sum _ _ _).symm
    _ = B * weight g := congrArg (B * ·) ((Equiv.subLeft k).sum_comp fun i => size (g.coeff i))

omit [NeZero n] in
theorem bounded_one : Bounded 1 (1 : Negacyclic n (ZMod q)) := fun i => by
  rw [coeff_one]
  split
  · exact (Int.cast_one (R := ZMod q) ▸ size_intCast_le 1 : size (1 : ZMod q) ≤ _)
  · exact size_zero.le.trans (Nat.zero_le 1)

omit [NeZero q] in
theorem map_centred (f : Negacyclic n (ZMod q)) : map (Int.castRingHom (ZMod q)) (centred f) = f :=
  Negacyclic.ext (funext fun i => by simp [centred])

/-- **An automorphism** moves the coefficients and changes signs. -/
theorem Bounded.gal (hf : Bounded B f) {a : ℕ} (ha : Odd a) (hn : a.Coprime n) :
    Bounded B (gal a ha f) := fun k => by
  have hlift : ∀ i, |(centred f).coeff i| ≤ (B : ℤ) := fun i => by
    rw [Int.abs_eq_natAbs]
    exact_mod_cast hf i
  have hgal := coeff_gal_bound (Int.natCast_nonneg B) ha hn 0 hlift k
  rw [pow_zero, mul_one, Int.abs_eq_natAbs] at hgal
  rw [← map_centred f, ← map_gal, coeff_map, eq_intCast]
  exact (size_intCast_le _).trans (by exact_mod_cast hgal)

end Product

end Negacyclic
