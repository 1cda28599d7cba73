/-
Powers of 5 modulo powers of two, and the character sums over them.

`5` generates the residues congruent to 1 mod 4 (`five_pow_image`), so for
`y` with `y^(2l) = -1`, `l = 2^b`, the sum of `y^(d * 5^s)` over `s < l` is
`l * y^d` when `l` divides `d` and vanishes otherwise (`sum_pow_five`);
over `5^s` and `-5^s` together it selects the multiples of `2l`
(`sum_pow_five_inv`). Both hold in every commutative ring: no division by
a difference of powers of `y` is made, the terms cancel in pairs.
-/
import Mathlib

namespace PowersOfFive

theorem four_dvd (b : ℕ) : 4 ∣ 4 * 2 ^ b := ⟨2 ^ b, rfl⟩

theorem five_pow_mod_four (s : ℕ) : 5 ^ s % 4 = 1 := by
  rw [Nat.pow_mod]; simp

/-- Equal powers have exponents equal modulo the order. -/
theorem five_pow_inj {b i j : ℕ} (h : 5 ^ i ≡ 5 ^ j [MOD 4 * 2 ^ b]) : i ≡ j [MOD 2 ^ b] := by
  have hc : ((5 : ZMod (2 ^ (b + 2)))) ^ i = 5 ^ j := by
    have hm : 5 ^ i ≡ 5 ^ j [MOD 2 ^ (b + 2)] := by rwa [pow_add, mul_comm]
    have := (ZMod.natCast_eq_natCast_iff _ _ _).mpr hm
    exact_mod_cast this
  rcases b with _ | b
  · simpa using Nat.modEq_one
  · have hu : IsUnit (5 : ZMod (2 ^ (b + 1 + 2))) := by
      have := (ZMod.isUnit_iff_coprime 5 (2 ^ (b + 1 + 2))).mpr (Nat.Coprime.pow_right _ (by decide))
      exact_mod_cast this
    obtain ⟨u, hu⟩ := hu
    have ho : orderOf u = 2 ^ (b + 1) := by
      rw [← orderOf_units, hu, ZMod.orderOf_five]
    rw [← hu, ← Units.val_pow_eq_pow_val, ← Units.val_pow_eq_pow_val, Units.val_inj,
      pow_eq_pow_iff_modEq, ho] at hc
    exact hc

theorem five_pow_two_pow (b : ℕ) : 5 ^ 2 ^ b ≡ 1 [MOD 4 * 2 ^ b] := by
  rcases b with _ | b
  · decide
  · have h := pow_orderOf_eq_one (5 : ZMod (2 ^ (b + 1 + 2)))
    rw [ZMod.orderOf_five] at h
    have hm : 5 ^ 2 ^ (b + 1) ≡ 1 [MOD 2 ^ (b + 1 + 2)] := by
      rw [← ZMod.natCast_eq_natCast_iff]
      exact_mod_cast h
    rwa [pow_add 2 (b + 1) 2, mul_comm] at hm

/-- The residue of `5^s` modulo `4 * 2^b` is `4r + 1`, with this `r`. -/
def quarter (b s : ℕ) : ℕ := 5 ^ s % (4 * 2 ^ b) / 4

theorem quarter_spec (b s : ℕ) : 4 * quarter b s + 1 = 5 ^ s % (4 * 2 ^ b) := by
  have h := Nat.mod_mod_of_dvd (5 ^ s) (four_dvd b)
  rw [five_pow_mod_four] at h
  unfold quarter
  omega

theorem quarter_lt (b s : ℕ) : quarter b s < 2 ^ b := by
  have h := Nat.mod_lt (5 ^ s) (show 0 < 4 * 2 ^ b by positivity)
  have := quarter_spec b s
  omega

theorem quarter_injOn (b : ℕ) : Set.InjOn (quarter b) (Finset.range (2 ^ b)) := by
  intro i hi j hj h
  simp only [Finset.coe_range, Set.mem_Iio] at hi hj
  have hm : 5 ^ i ≡ 5 ^ j [MOD 4 * 2 ^ b] := by
    rw [Nat.ModEq, ← quarter_spec, ← quarter_spec, h]
  have := five_pow_inj hm
  rwa [Nat.ModEq, Nat.mod_eq_of_lt hi, Nat.mod_eq_of_lt hj] at this

/-- The powers of 5 are all the residues congruent to 1 mod 4. -/
theorem five_pow_image (b : ℕ) : (Finset.range (2 ^ b)).image (quarter b) = Finset.range (2 ^ b) := by
  refine Finset.eq_of_subset_of_card_le (fun r hr => ?_) ?_
  · obtain ⟨s, _, rfl⟩ := Finset.mem_image.mp hr
    exact Finset.mem_range.mpr (quarter_lt b s)
  · rw [Finset.card_image_of_injOn (quarter_injOn b)]

/-! ## Sums of powers -/

variable {R : Type*} [CommRing R] {y z : R} {b d : ℕ}

theorem pow_five_pow (hy : y ^ (4 * 2 ^ b) = 1) (d s : ℕ) :
    y ^ (d * 5 ^ s) = y ^ d * (y ^ (4 * d)) ^ quarter b s := by
  have hm : y ^ (5 ^ s) = y ^ (4 * quarter b s + 1) := by
    rw [quarter_spec, ← pow_mod_orderOf y (5 ^ s), ← pow_mod_orderOf y (5 ^ s % (4 * 2 ^ b)),
      Nat.mod_mod_of_dvd _ (orderOf_dvd_of_pow_eq_one hy)]
  calc y ^ (d * 5 ^ s) = (y ^ (5 ^ s)) ^ d := by rw [← pow_mul, mul_comm]
    _ = y ^ d * (y ^ (4 * d)) ^ quarter b s := by
      rw [hm, ← pow_mul, ← pow_mul, ← pow_add]
      congr 1
      ring

theorem sum_five_eq_geom (hy : y ^ (4 * 2 ^ b) = 1) (d : ℕ) :
    ∑ s ∈ Finset.range (2 ^ b), y ^ (d * 5 ^ s) =
      y ^ d * ∑ r ∈ Finset.range (2 ^ b), (y ^ (4 * d)) ^ r := by
  rw [Finset.mul_sum]
  conv_rhs => rw [← five_pow_image b, Finset.sum_image (quarter_injOn b)]
  exact Finset.sum_congr rfl fun s _ => pow_five_pow hy d s

theorem geom_sum_mul_range (z : R) (h k : ℕ) :
    ∑ r ∈ Finset.range (h * k), z ^ r =
      (∑ i ∈ Finset.range h, z ^ i) * ∑ j ∈ Finset.range k, (z ^ h) ^ j := by
  induction k with
  | zero => simp
  | succ k ih =>
    rw [Nat.mul_succ, Finset.sum_range_add, ih, Finset.sum_range_succ, mul_add, ← pow_mul]
    congr 1
    rw [Finset.sum_mul]
    exact Finset.sum_congr rfl fun i _ => by rw [← pow_add, add_comm]

/-- Terms `h` apart cancel. -/
theorem geom_sum_eq_zero {h : ℕ} (hz : z ^ h = -1) (k : ℕ) :
    ∑ r ∈ Finset.range (h * (2 * k)), z ^ r = 0 := by
  rw [geom_sum_mul_range, hz, neg_one_geom_sum, if_pos (even_two_mul k), mul_zero]

/-- `y^(4d)` has the square root of 1 that is `-1` among its powers, unless
`2^b` divides `d`. -/
theorem geom_sum_four_eq_zero (hy : y ^ (2 * 2 ^ b) = -1) (hd : ¬2 ^ b ∣ d) :
    ∑ r ∈ Finset.range (2 ^ b), (y ^ (4 * d)) ^ r = 0 := by
  have hd0 : d ≠ 0 := fun h => hd (h ▸ dvd_zero _)
  obtain ⟨a, m, hm, rfl⟩ := Nat.exists_eq_two_pow_mul_odd hd0
  have hab : a < b := by
    by_contra hle
    exact hd (Dvd.dvd.mul_right (pow_dvd_pow 2 (by omega)) m)
  obtain ⟨c, rfl⟩ := Nat.exists_eq_add_of_lt hab
  have hpow : (y ^ (4 * (2 ^ a * m))) ^ 2 ^ c = -1 := by
    have he : 4 * (2 ^ a * m) * 2 ^ c = 2 * 2 ^ (a + c + 1) * m := by
      rw [pow_succ, pow_add]; ring
    rw [← pow_mul, he, pow_mul, hy, hm.neg_one_pow]
  have hl : 2 ^ (a + c + 1) = 2 ^ c * (2 * 2 ^ a) := by rw [pow_succ, pow_add]; ring
  rw [hl]
  exact geom_sum_eq_zero hpow _

/-- **The sum over `<5>`.** -/
theorem sum_pow_five (hy : y ^ (2 * 2 ^ b) = -1) (d : ℕ) :
    ∑ s ∈ Finset.range (2 ^ b), y ^ (d * 5 ^ s) = if 2 ^ b ∣ d then 2 ^ b * y ^ d else 0 := by
  have hy1 : y ^ (4 * 2 ^ b) = 1 := by
    rw [show 4 * 2 ^ b = 2 * 2 ^ b * 2 by ring, pow_mul, hy]; ring
  rw [sum_five_eq_geom hy1]
  split
  next hd =>
    obtain ⟨e, rfl⟩ := hd
    have : y ^ (4 * (2 ^ b * e)) = 1 := by rw [← mul_assoc, pow_mul, hy1, one_pow]
    simp only [this, one_pow, Finset.sum_const, Finset.card_range, nsmul_eq_mul, mul_one]
    push_cast
    ring
  next hd => rw [geom_sum_four_eq_zero hy hd, mul_zero]

/-- **The sum over `<5>` and `-<5>`.** -/
theorem sum_pow_five_inv (hy : y ^ (2 * 2 ^ b) = -1) (hz : y * z = 1) (d : ℕ) :
    ∑ s ∈ Finset.range (2 ^ b), (y ^ (d * 5 ^ s) + z ^ (d * 5 ^ s)) =
      if 2 * 2 ^ b ∣ d then 2 * 2 ^ b * y ^ d else 0 := by
  have hz' : z ^ (2 * 2 ^ b) = -1 := by
    have h : y ^ (2 * 2 ^ b) * z ^ (2 * 2 ^ b) = 1 := by rw [← mul_pow, hz, one_pow]
    rw [hy] at h
    linear_combination -h
  rw [Finset.sum_add_distrib, sum_pow_five hy, sum_pow_five hz']
  by_cases hd : 2 ^ b ∣ d
  · obtain ⟨e, rfl⟩ := hd
    have hyz : y ^ (2 ^ b * e) * z ^ (2 ^ b * e) = 1 := by rw [← mul_pow, hz, one_pow]
    have hsq : y ^ (2 ^ b * e) * y ^ (2 ^ b * e) = (-1) ^ e := by
      rw [← pow_add, show 2 ^ b * e + 2 ^ b * e = 2 * 2 ^ b * e by ring, pow_mul, hy]
    rw [if_pos ⟨e, rfl⟩, if_pos ⟨e, rfl⟩]
    rcases Nat.even_or_odd e with he | he
    · rw [he.neg_one_pow] at hsq
      have heq : z ^ (2 ^ b * e) = y ^ (2 ^ b * e) := by
        linear_combination y ^ (2 ^ b * e) * hyz - z ^ (2 ^ b * e) * hsq
      obtain ⟨c, rfl⟩ := he
      rw [heq, if_pos ⟨c, by ring⟩]
      ring
    · rw [he.neg_one_pow] at hsq
      have heq : z ^ (2 ^ b * e) = -y ^ (2 ^ b * e) := by
        linear_combination -y ^ (2 ^ b * e) * hyz + z ^ (2 ^ b * e) * hsq
      have hnd : ¬2 * 2 ^ b ∣ 2 ^ b * e := by
        rw [mul_comm 2, Nat.mul_dvd_mul_iff_left (by positivity)]
        intro h
        exact Nat.not_even_iff_odd.mpr he (even_iff_two_dvd.mpr h)
      rw [heq, if_neg hnd]
      ring
  · have hnd : ¬2 * 2 ^ b ∣ d := fun h => hd ((Dvd.intro_left 2 rfl).trans h)
    rw [if_neg hd, if_neg hd, if_neg hnd, add_zero]

end PowersOfFive
