/-
What BFV does with a power of `X`, and how much noise a phase can carry.

* `encSymB_X_pow`: a power of `X` is encrypted as itself, times the nearest
  integer to `q/t`.
* `Noisy.phaseFits`: an integer polynomial times that integer decrypts to its
  residue, beside any noise it carries.
* `exists_switched`: how much noise a modulus switch adds.
-/
import Dnspir.BfvFacts
import Dnspir.Lib.Norms

namespace Dnspir

namespace Bfv

open Negacyclic

variable {N q t : ℕ}

/-! ## The unit of the payload -/

/-- The nearest integer to `q/t`. -/
def unit (t q : ℕ) : ℤ := (q - ((q : ℤ) : ZMod t).valMinAbs) / t

theorem mul_unit (t q : ℕ) : t * unit t q = q - ((q : ℤ) : ZMod t).valMinAbs := by
  refine Int.mul_ediv_cancel' ?_
  rw [← ZMod.intCast_zmod_eq_zero_iff_dvd, Int.cast_sub, ZMod.coe_valMinAbs, sub_self]

theorem valMinAbs_neg_of_odd (ht : Odd t) (a : ZMod t) : (-a).valMinAbs = -a.valMinAbs := by
  refine ZMod.valMinAbs_neg_of_ne_half fun h => ?_
  obtain ⟨k, rfl⟩ := ht
  omega

/-- The rescaled plaintexts `-1`, `0` and `1`. -/
theorem rescale_small (ht : Odd t) (h3 : 3 ≤ t) (hq : 0 < q) (hlt : q * t < 2 ^ 63) {tInv : ZMod q}
    (hti : (t : ZMod q) * tInv = 1) {v : ℤ} (hv : |v| ≤ 1) :
    rescale tInv (v : ZMod t) = some ((v * unit t q : ℤ) : ZMod q) := by
  have hne : NeZero t := ⟨ht.pos.ne'⟩
  obtain ⟨r, hr, hdiv, -⟩ := rescale_spec ht hq (mul_comm q t ▸ hlt) hti (v : ZMod t)
  have hlift : ((v : ZMod t)).valMinAbs = v := by
    rw [ZMod.valMinAbs_spec]
    refine ⟨rfl, ?_⟩
    have := abs_le.mp hv
    have h3' : (3 : ℤ) ≤ t := by exact_mod_cast h3
    constructor <;> omega
  have hsigned : ((v * q : ℤ) : ZMod t).valMinAbs = v * ((q : ℤ) : ZMod t).valMinAbs := by
    obtain rfl | rfl | rfl : v = -1 ∨ v = 0 ∨ v = 1 := by have := abs_le.mp hv; omega
    · rw [neg_one_mul, neg_one_mul, Int.cast_neg, valMinAbs_neg_of_odd ht]
    · simp
    · rw [one_mul, one_mul]
  rw [hr]
  refine congrArg (fun r : ℤ => some (r : ZMod q))
    (mul_left_cancel₀ (show (t : ℤ) ≠ 0 by exact_mod_cast ht.pos.ne') ?_)
  rw [hdiv, hlift, hsigned, mul_left_comm, mul_unit]
  ring

/-- The coefficients of a power of `X`. -/
theorem abs_coeff_X_pow_le [NeZero N] (p : ℕ) (i : Fin N) : |(X ^ p : Negacyclic N ℤ).coeff i| ≤ 1 := by
  have h1 : ∀ i : Fin N, |(1 : Negacyclic N ℤ).coeff i| ≤ 1 := fun i => by
    rw [coeff_one]
    split <;> simp
  simpa [gal_one] using coeff_gal_bound zero_le_one odd_one (Nat.coprime_one_left N) p h1 i

theorem map_X_pow {R S : Type} [CommRing R] [CommRing S] [NeZero N] (φ : R →+* S) (p : ℕ) :
    map φ (X ^ p : Negacyclic N R) = X ^ p := by rw [map_pow, map_X]

theorem encSymB_X_pow [NeZero N] (ht : Odd t) (h3 : 3 ≤ t) (hq : 0 < q) (hco : Nat.gcd t q = 1)
    (hlt : q * t < 2 ^ 63) (expand : Seed → Negacyclic N (ZMod q)) (a : Seed)
    (e sk : Negacyclic N (ZMod q)) (p : ℕ) :
    encSymB expand a e sk (X ^ p : PlainRing t N) =
      some (e - expand a * sk + C (unit t q : ZMod q) * X ^ p) := by
  obtain ⟨tInv, eti, hti⟩ := exists_invert hco hq
  have hpay : mapCoeff (rescale tInv) (X ^ p : PlainRing t N) =
      some (C (unit t q : ZMod q) * X ^ p) := by
    refine mapCoeff_eq fun i => ?_
    have hplain : (X ^ p : PlainRing t N).coeff i = ((X ^ p : Negacyclic N ℤ).coeff i : ZMod t) := by
      rw [← map_X_pow (Int.castRingHom (ZMod t)) p, coeff_map]
      rfl
    have hcipher : (X ^ p : Negacyclic N (ZMod q)).coeff i =
        ((X ^ p : Negacyclic N ℤ).coeff i : ZMod q) := by
      rw [← map_X_pow (Int.castRingHom (ZMod q)) p, coeff_map]
      rfl
    rw [hplain, rescale_small ht h3 hq hlt hti (abs_coeff_X_pow_le p i), C_mul_coeff, hcipher,
      Int.cast_mul, mul_comm]
  rw [encSymB, eti, Option.bind_eq_bind, Option.bind_some, hpay]
  rfl

/-! ## The noise of a phase -/

/-- A phase has room for a noise of `B` beside an integer polynomial of at most
`S`. -/
def Carries (t q S B : ℕ) : Prop := (S + 2) * ((t - 1) / 2) + t * B ≤ (q - 1) / 2

theorem Carries.mono {S B B' : ℕ} (h : Carries t q S B) (hB : B' ≤ B) : Carries t q S B' :=
  (Nat.add_le_add_left (Nat.mul_le_mul_left t hB) _).trans h

/-- One coefficient: an integer times the unit, and a noise. -/
theorem exists_noise (ht : Odd t) (hq : Odd q) (hlt : q * t < 2 ^ 63) (hco : Nat.gcd t q = 1)
    {s : ℤ} {S B : ℕ} (hs : |s| ≤ S) {ν : ℤ} (hν : |ν| ≤ B) (hfit : Carries t q S B) :
    ∃ r e : ℤ, 2 * |(s : ZMod t).valMinAbs * q - r * t| ≤ t - 1 ∧ NoiseFits t q e ∧
      ((r + e : ℤ) : ZMod q) = ((unit t q * s + ν : ℤ) : ZMod q) := by
  obtain ⟨tInv, -, hti⟩ := exists_invert hco hq.pos
  obtain ⟨r, -, -, hr⟩ := rescale_spec ht hq.pos (mul_comm q t ▸ hlt) hti (s : ZMod t)
  have hρ := abs_valMinAbs_le ht ((q : ℤ) : ZMod t)
  have hunit := mul_unit t q
  set m := (s : ZMod t).valMinAbs
  set ρ := ((q : ℤ) : ZMod t).valMinAbs
  obtain ⟨w, hw⟩ : (t : ℤ) ∣ s - m := by
    rw [← ZMod.intCast_zmod_eq_zero_iff_dvd, Int.cast_sub, ZMod.coe_valMinAbs, sub_self]
  refine ⟨r, unit t q * s - r - q * w + ν, hr, ?_, ?_⟩
  · -- Up to the noise the error is that of the two roundings.
    have herr : t * (unit t q * s - r - q * w) = m * q - r * t - s * ρ := by
      calc t * (unit t q * s - r - q * w) = t * unit t q * s - r * t - (t * w) * q := by ring
        _ = (q - ρ) * s - r * t - (s - m) * q := by rw [hunit, hw]
        _ = m * q - r * t - s * ρ := by ring
    obtain ⟨k, rfl⟩ := ht
    obtain ⟨l, rfl⟩ := hq
    have hk : ((2 * k + 1 : ℕ) - 1 : ℕ) / 2 = k := by omega
    have hl : ((2 * l + 1 : ℕ) - 1 : ℕ) / 2 = l := by omega
    rw [Carries, hk, hl] at hfit
    have hfit' : ((S : ℤ) + 2) * k + (2 * k + 1) * B ≤ l := by exact_mod_cast hfit
    push_cast at hr hρ herr ⊢
    have hsρ : |s * ρ| ≤ S * k := by
      rw [abs_mul]
      exact mul_le_mul hs (by omega) (abs_nonneg _) (Int.natCast_nonneg S)
    have hmain : |(2 * k + 1) * (unit (2 * k + 1) (2 * l + 1) * s - r - (2 * l + 1) * w)| ≤
        k + S * k := by
      rw [herr]
      exact (abs_sub _ _).trans (add_le_add (by omega) hsρ)
    have hk0 : (0 : ℤ) ≤ 2 * k + 1 := by positivity
    rw [abs_mul, abs_of_nonneg hk0] at hmain
    have hsum : (2 * k + 1) * |unit (2 * k + 1) (2 * l + 1) * s - r - (2 * l + 1) * w + ν| ≤
        k + S * k + (2 * k + 1) * B :=
      calc (2 * k + 1) * |unit (2 * k + 1) (2 * l + 1) * s - r - (2 * l + 1) * w + ν|
          ≤ (2 * k + 1) * (|unit (2 * k + 1) (2 * l + 1) * s - r - (2 * l + 1) * w| + |ν|) :=
            mul_le_mul_of_nonneg_left (abs_add_le _ _) hk0
        _ ≤ k + S * k + (2 * k + 1) * B := by
            rw [mul_add]
            exact add_le_add hmain (mul_le_mul_of_nonneg_left hν hk0)
    rw [NoiseFits]
    push_cast
    have h1 : ((2 : ℤ) * k + 1 - 1) / 2 = k := by omega
    have h2 : ((2 : ℤ) * l + 1 - 1) / 2 = l := by omega
    rw [h1, h2]
    linarith
  · push_cast
    rw [ZMod.natCast_self]
    ring

/-- A ciphertext of the plaintext `m` with the noise `ν`: its phase is the
multiple of the unit by an integer polynomial of at most `S`, and `ν`. -/
def Noisy [NeZero N] (S : ℕ) (sk : Negacyclic N (ZMod q)) (m : PlainRing t N)
    (ν : Negacyclic N (ZMod q)) (ct : Negacyclic N (ZMod q) × Negacyclic N (ZMod q)) : Prop :=
  ∃ s : Negacyclic N ℤ, map (Int.castRingHom (ZMod t)) s = m ∧ (∀ i, |s.coeff i| ≤ S) ∧
    ct.1 * sk + ct.2 = C (unit t q : ZMod q) * map (Int.castRingHom (ZMod q)) s + ν

section Noisy
variable [NeZero N] {S B : ℕ} {sk : Negacyclic N (ZMod q)} {m : PlainRing t N}
  {ν : Negacyclic N (ZMod q)}
  {ct ct' : Negacyclic N (ZMod q) × Negacyclic N (ZMod q)}

/-- **A phase and its noise.** A ciphertext decrypts beside any noise it
carries. -/
theorem Noisy.phaseFits (h : Noisy S sk m ν ct) (ht : Odd t) (hq : Odd q) (hlt : q * t < 2 ^ 63)
    (hco : Nat.gcd t q = 1) (hν : Bounded B ν) (hfit : Carries t q S B) : PhaseFits sk m ct := by
  obtain ⟨s, rfl, hs, hphase⟩ := h
  have hsize : ∀ i, |(ν.coeff i).valMinAbs| ≤ (B : ℤ) := fun i => by
    rw [Int.abs_eq_natAbs]
    exact_mod_cast hν i
  choose r e hr he hsum using fun i => exists_noise ht hq hlt hco (hs i) (hsize i) hfit
  refine ⟨r, e, fun i => ?_, he, hphase.trans (Negacyclic.ext (funext fun i => ?_))⟩
  · rw [coeff_map, eq_intCast]
    exact hr i
  · refine Eq.trans ?_ (hsum i).symm
    rw [coeff_add, C_mul_coeff, coeff_map, eq_intCast, Int.cast_add, Int.cast_mul, ZMod.coe_valMinAbs]

/-- What is added to the phase where a ciphertext becomes `ct'`. -/
def switchNoise (sk : Negacyclic N (ZMod q)) (ct ct' : Negacyclic N (ZMod q) × Negacyclic N (ZMod q)) :
    Negacyclic N (ZMod q) := (ct'.1 - ct.1) * sk + (ct'.2 - ct.2)

theorem Noisy.switch (h : Noisy S sk m ν ct) (ct' : Negacyclic N (ZMod q) × Negacyclic N (ZMod q)) :
    Noisy S sk m (ν + switchNoise sk ct ct') ct' := by
  obtain ⟨s, hm, hs, hphase⟩ := h
  refine ⟨s, hm, hs, ?_⟩
  rw [switchNoise]
  linear_combination hphase

end Noisy

/-! ## The noise of a modulus switch -/

/-- How far a coefficient moves in a switch to `bits` bits. -/
def switchBound (q bits : ℕ) : ℕ := (q + 2 ^ (bits + 1)) / 2 ^ (bits + 1)

/-- **A modulus switch and back.** -/
theorem exists_switched [NeZero N] {fm : FeanorMath} (hfm : fm.Correct) (hq : Odd q)
    (hlt : q < 2 ^ 57) {bits : ℕ} (hb1 : 1 ≤ bits) (hb : bits ≤ 64) (x : Negacyclic N (ZMod q)) :
    ∃ (ys : List UInt64) (x' : Negacyclic N (ZMod q)), modSwitchEncode fm bits x = some ys ∧
      ys.length = N ∧ (∀ y ∈ ys, y.toNat < 2 ^ bits) ∧ modSwitchDecode q bits ys = some x' ∧
        Bounded (switchBound q bits) (x' - x) := by
  choose y c' hy hlt' hc' herr using fun i => decodeCoeff_encodeCoeff hfm hq hlt hb1 hb (x.coeff i)
  have hlen : (List.ofFn y).length = N := List.length_ofFn
  refine ⟨List.ofFn y, ⟨c'⟩, ?_, hlen, ?_, ?_, fun i => ?_⟩
  · have hv : Vector.ofFnM (fun i => encodeCoeff fm bits (x.coeff i)) = some (Vector.ofFn y) :=
      Loops.ofFnM_eq_some fun i => by simpa using hy i
    rw [modSwitchEncode, if_pos hb, hv]
    exact congrArg some (List.ext_getElem (by simp) fun i _ _ => by simp)
  · intro z hz
    obtain ⟨i, rfl⟩ := (List.mem_ofFn' _ _).mp hz
    exact hlt' i
  · have hd : Vector.ofFnM (fun i : Fin N =>
        decodeCoeff q bits ((List.ofFn y).get ⟨i, hlen.symm ▸ i.isLt⟩)) =
        some (Vector.ofFn c') := Loops.ofFnM_eq_some fun i => by simpa using hc' i
    rw [modSwitchDecode, dif_pos ⟨hb, hlen.symm⟩, hd]
    exact congrArg some (Negacyclic.ext (funext fun i => by simp))
  · have h := herr i
    rw [Int.abs_eq_natAbs] at h
    rw [switchBound, Nat.le_div_iff_mul_le (by positivity), mul_comm, coeff_sub, size]
    exact_mod_cast h

theorem encodeCoeff_zero {fm : FeanorMath} (hfm : fm.Correct) (hq : Odd q) {bits : ℕ} (hb : bits ≤ 64) :
    encodeCoeff fm bits (0 : ZMod q) = some 0 := by
  have hq0 : (0 : ℤ) < q := by exact_mod_cast hq.pos
  have hround := abs_le.mp (hfm.roundedDiv 0 q hq0)
  have hB : (0 : ℤ) ≤ 2 ^ bits ∧ (2 : ℤ) ^ bits ≤ 2 ^ 64 :=
    ⟨by positivity, by exact_mod_cast Nat.pow_le_pow_right (show 0 < 2 by norm_num) hb⟩
  have hzero : fm.roundedDiv 0 q = 0 := by
    obtain ⟨k, hk⟩ := hq
    have h1 : fm.roundedDiv 0 q * q < 1 * q := by omega
    have h2 : -1 * (q : ℤ) < fm.roundedDiv 0 q * q := by omega
    have := lt_of_mul_lt_mul_right h1 hq0.le
    have := lt_of_mul_lt_mul_right h2 hq0.le
    omega
  rw [encodeCoeff, ZMod.valMinAbs_zero, zero_mul, i128_eq (by omega) (by omega),
    Option.bind_eq_bind, Option.bind_some, hzero, zero_add, i128_eq (by omega) (by omega),
    Option.bind_some, Int.tmod_self]
  rfl

/-- **A modulus switch keeps a zero.** -/
theorem switched_coeff_zero [NeZero N] {fm : FeanorMath} (hfm : fm.Correct) (hq : Odd q)
    (hlt : q < 2 ^ 57) {bits : ℕ} (hb : bits ≤ 64) {x x' : Negacyclic N (ZMod q)} {ys : List UInt64}
    (he : modSwitchEncode fm bits x = some ys) (hd : modSwitchDecode q bits ys = some x')
    {i : Fin N} (hi : x.coeff i = 0) : x'.coeff i = 0 := by
  rw [modSwitchEncode, if_pos hb] at he
  obtain ⟨v, hv, he⟩ := Option.bind_eq_some_iff.mp he
  obtain rfl := Option.some.inj he
  have hvi := Loops.ofFnM_getElem hv i
  rw [hi, encodeCoeff_zero hfm hq hb] at hvi
  rw [modSwitchDecode, dif_pos ⟨hb, by simp⟩] at hd
  obtain ⟨v', hv', hd⟩ := Option.bind_eq_some_iff.mp hd
  obtain rfl := Option.some.inj hd
  have hvi' := Loops.ofFnM_getElem hv' i
  have hget : v.toList.get ⟨i, by simp⟩ = 0 := by
    rw [Option.some.inj hvi]
    simp
  rw [hget, decodeCoeff_eq hq.pos hlt hb (by simp)] at hvi'
  simpa using (Option.some.inj hvi').symm
end Bfv

end Dnspir
