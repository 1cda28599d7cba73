/-
Rounding and noise of `bfv`.

* `rescale_spec`: the rescaling closures round to the nearest integer, by an
  exact division; `rescale_rescale`: rescaling there, adding a small noise and
  rescaling back is the identity.
* `dec_encSymB`: so decryption undoes encryption within the noise bound.
* `decodeCoeff_encodeCoeff`, `modSwitchDecode_modSwitchEncode`: what the
  modulus switch costs.
-/
import Dnspir.Bfv
import Dnspir.GaloisFacts
import Dnspir.FeanorMathFacts

namespace Dnspir

namespace Bfv

open Negacyclic

variable {N q t : ℕ}

theorem i64_eq {x : ℤ} (h0 : -2 ^ 63 ≤ x) (h1 : x < 2 ^ 63) : i64 x = some x := if_pos ⟨h0, h1⟩

theorem i128_eq {x : ℤ} (h0 : -2 ^ 127 ≤ x) (h1 : x < 2 ^ 127) : i128 x = some x := if_pos ⟨h0, h1⟩

theorem mapCoeff_eq {n m : ℕ} {f : ZMod n → Option (ZMod m)} {x : Negacyclic N (ZMod n)}
    {y : Negacyclic N (ZMod m)} (h : ∀ i, f (x.coeff i) = some (y.coeff i)) :
    mapCoeff f x = some y := by
  have hv : Vector.ofFnM (fun i => f (x.coeff i)) = some (Vector.ofFn y.coeff) :=
    Loops.ofFnM_eq_some fun i => by simpa using h i
  simp only [mapCoeff, hv, Option.bind_eq_bind, Option.bind_some, Option.pure_def, Option.some.injEq]
  exact Negacyclic.ext (funext fun i => by simp)

/-! ## Rescaling -/

/-- For an odd modulus the centred lift is at most half the modulus. -/
theorem abs_valMinAbs_le {n : ℕ} (hn : Odd n) (c : ZMod n) : 2 * |c.valMinAbs| ≤ n - 1 := by
  have : NeZero n := ⟨hn.pos.ne'⟩
  obtain ⟨k, rfl⟩ := hn
  have h := c.valMinAbs_mem_Ioc
  rw [Set.mem_Ioc] at h
  rcases abs_cases c.valMinAbs with ⟨ha, -⟩ | ⟨ha, -⟩ <;> rw [ha] <;> push_cast at h ⊢ <;> omega

/-- **`rescale` rounds**, by an exact division and without overflow. -/
theorem rescale_spec {n m : ℕ} (hn : Odd n) (hm : 0 < m) (hlt : n * m < 2 ^ 63) {nInv : ZMod m}
    (hinv : (n : ZMod m) * nInv = 1) (c : ZMod n) : ∃ r : ℤ, rescale nInv c = some (r : ZMod m) ∧
      (n : ℤ) * r = c.valMinAbs * m - ((c.valMinAbs * m : ℤ) : ZMod n).valMinAbs ∧
      2 * |c.valMinAbs * m - r * n| ≤ n - 1 := by
  have hc := abs_valMinAbs_le hn c
  have hd := abs_valMinAbs_le hn ((c.valMinAbs * m : ℤ) : ZMod n)
  have hmul : |c.valMinAbs * m| = |c.valMinAbs| * m := by rw [abs_mul, Nat.abs_cast]
  set v := c.valMinAbs
  set d := ((v * m : ℤ) : ZMod n).valMinAbs
  have hpos : 0 < n := hn.pos
  have hup : 2 * |v * m| ≤ (n - 1) * m := by
    rw [hmul, ← mul_assoc]
    exact mul_le_mul_of_nonneg_right hc (by positivity)
  have hlt' : (n : ℤ) * m < 2 ^ 63 := by exact_mod_cast hlt
  have hnm : (n : ℤ) ≤ n * m := le_mul_of_one_le_right (by positivity) (by exact_mod_cast hm)
  have hup' : 2 * |v * m| ≤ n * m - m := by linarith [hup]
  obtain ⟨k, hk⟩ : (n : ℤ) ∣ v * m - d := by
    rw [← ZMod.intCast_zmod_eq_zero_iff_dvd, Int.cast_sub, ZMod.coe_valMinAbs, sub_self]
  have hu := abs_le.mp (le_refl |v * m|)
  have hdd := abs_le.mp (le_refl |d|)
  have hm' : (0 : ℤ) < m := by exact_mod_cast hm
  refine ⟨k, ?_, hk.symm, ?_⟩
  · rw [rescale, i64_eq (by linarith) (by linarith), Option.bind_eq_bind, Option.bind_some]
    change (i64 (v * m - d)).bind _ = _
    rw [i64_eq (by linarith) (by linarith), Option.bind_some, hk]
    simp only [Option.pure_def, Option.some.injEq, Int.cast_mul, Int.cast_natCast]
    rw [mul_right_comm, hinv, one_mul]
  · rw [show v * m - k * n = d by rw [mul_comm k, ← hk]; ring]
    exact hd

/-- The multiple `m/n` of the centred lift, rounded to the nearest integer. -/
def nearest {n : ℕ} (m : ℕ) (c : ZMod n) : ZMod m := ((round ((c.valMinAbs * m : ℚ) / n) : ℤ) : ZMod m)

theorem rescale_eq_nearest {n m : ℕ} (hn : Odd n) (hm : 0 < m) (hlt : n * m < 2 ^ 63) {nInv : ZMod m}
    (hinv : (n : ZMod m) * nInv = 1) (c : ZMod n) : rescale nInv c = some (nearest m c) := by
  obtain ⟨r, hr, -, hb⟩ := rescale_spec hn hm hlt hinv c
  have hn0 : (0 : ℚ) < n := by exact_mod_cast hn.pos
  have hb' := abs_le.mp (show |c.valMinAbs * m - r * n| ≤ ((n : ℤ) - 1) / 2 by omega)
  have hround : round ((c.valMinAbs * m : ℚ) / n) = r := by
    rw [round_eq, Int.floor_eq_iff, ← sub_le_iff_le_add, ← lt_sub_iff_add_lt, le_div_iff₀ hn0,
      div_lt_iff₀ hn0]
    have h0 : (2 * (r * n) - n : ℤ) ≤ 2 * (c.valMinAbs * m) := by omega
    have h1 : (2 * (c.valMinAbs * m) : ℤ) < 2 * (r * n) + n := by omega
    have h0' : (2 * (r * n) - n : ℚ) ≤ 2 * (c.valMinAbs * m) := by exact_mod_cast h0
    have h1' : (2 * (c.valMinAbs * m) : ℚ) < 2 * (r * n) + n := by exact_mod_cast h1
    constructor <;> linarith
  rw [hr, nearest, hround]

/-- A nearest integer is unique. -/
theorem nearest_unique {n : ℕ} {u r r' : ℤ} (h : 2 * |u - r * n| ≤ n - 1) (hne : r' ≠ r) :
    |u - r * n| < |u - r' * n| := by
  have hge : (1 : ℤ) * n ≤ |r - r'| * n := by
    refine mul_le_mul_of_nonneg_right ?_ (by positivity)
    exact Int.one_le_abs (sub_ne_zero.mpr hne.symm)
  have htri : |(r - r') * n| ≤ |u - r' * n| + |u - r * n| := by
    have : (r - r') * n = (u - r' * n) - (u - r * n) := by ring
    rw [this]
    exact abs_sub _ _
  rw [abs_mul, Nat.abs_cast] at htri
  linarith

/-- Rescaling, a small noise, and rescaling back. -/
theorem rescale_rescale (ht : Odd t) (hq : Odd q) (hlt : q * t < 2 ^ 63) {qInv : ZMod t}
    (hqi : (q : ZMod t) * qInv = 1) (m : ZMod t) {r e : ℤ}
    (hr : 2 * |m.valMinAbs * q - r * t| ≤ t - 1) (he : t * |e| + (t - 1) / 2 ≤ ((q : ℤ) - 1) / 2) :
    rescale qInv ((r + e : ℤ) : ZMod q) = some m := by
  obtain ⟨R, hR, -, hnear⟩ := rescale_spec hq ht.pos hlt hqi ((r + e : ℤ) : ZMod q)
  set w := ((r + e : ℤ) : ZMod q).valMinAbs
  obtain ⟨k, hk⟩ : (q : ℤ) ∣ r + e - w := by
    rw [← ZMod.intCast_zmod_eq_zero_iff_dvd, Int.cast_sub, ZMod.coe_valMinAbs, sub_self]
  -- The lift is off by a multiple of `q`, which changes the quotient by a multiple of `t`.
  have hw : w * t - (m.valMinAbs - t * k) * q = t * e - (m.valMinAbs * q - r * t) := by
    have : w = r + e - q * k := by linarith
    rw [this]
    ring
  have hbound : 2 * |w * t - (m.valMinAbs - t * k) * q| ≤ q - 1 := by
    rw [hw]
    have h1 : |t * e - (m.valMinAbs * q - r * t)| ≤ t * |e| + |m.valMinAbs * q - r * t| := by
      refine (abs_sub _ _).trans ?_
      rw [abs_mul, Nat.abs_cast]
    obtain ⟨a, ha⟩ := ht
    obtain ⟨b, hb⟩ := hq
    have h2 : ((t : ℤ) - 1) / 2 = a := by rw [ha]; push_cast; omega
    have h3 : ((q : ℤ) - 1) / 2 = b := by rw [hb]; push_cast; omega
    have hta : (t : ℤ) = 2 * a + 1 := by exact_mod_cast ha
    have hqb : (q : ℤ) = 2 * b + 1 := by exact_mod_cast hb
    rw [h2, h3] at he
    linarith
  have hRM : R = m.valMinAbs - t * k := by
    by_contra hne
    have h1 := nearest_unique hbound hne
    have h2 := nearest_unique hnear (Ne.symm hne)
    exact absurd h1 (not_lt.mpr h2.le)
  rw [hR, hRM]
  simp

section Inverse

theorem exists_invert (hco : Nat.gcd t q = 1) (hq : 0 < q) : ∃ tInv : ZMod q,
    Zn.invert ((t : ℤ) : ZMod q) = some tInv ∧ (t : ZMod q) * tInv = 1 := by
  have : NeZero q := ⟨hq.ne'⟩
  have h := ZMod.coe_mul_inv_eq_one t (n := q) hco
  exact ⟨_, by rw [Int.cast_natCast]; exact Zn.invert_of_mul_eq_one h, h⟩

end Inverse

/-! ## Decryption -/

/-- The noise up to which decryption is exact. -/
def NoiseFits (t q : ℕ) (e : ℤ) : Prop := t * |e| + (t - 1) / 2 ≤ ((q : ℤ) - 1) / 2

/-- The rescaled plaintext of an encryption. -/
theorem exists_payload (ht : Odd t) (hq : 0 < q) (hlt : q * t < 2 ^ 63) {tInv : ZMod q}
    (hti : (t : ZMod q) * tInv = 1) (m : PlainRing t N) :
    ∃ r : Fin N → ℤ, mapCoeff (rescale tInv) m = some ⟨fun i => (r i : ZMod q)⟩ ∧
      ∀ i, 2 * |(m.coeff i).valMinAbs * q - r i * t| ≤ t - 1 := by
  choose r hr _ hb using fun i => rescale_spec ht hq (mul_comm q t ▸ hlt) hti (m.coeff i)
  exact ⟨r, mapCoeff_eq hr, hb⟩

/-- A ciphertext whose phase is the rescaled plaintext plus a small noise
decrypts to the plaintext. -/
theorem dec_of_phase [NeZero N] (ht : Odd t) (hq : Odd q) (hco : Nat.gcd t q = 1)
    (hlt : q * t < 2 ^ 63) {m : PlainRing t N} {r e : Fin N → ℤ}
    (hr : ∀ i, 2 * |(m.coeff i).valMinAbs * q - r i * t| ≤ t - 1) (he : ∀ i, NoiseFits t q (e i))
    {sk : Negacyclic N (ZMod q)} {ct : Negacyclic N (ZMod q) × Negacyclic N (ZMod q)}
    (hphase : ct.1 * sk + ct.2 = ⟨fun i => ((r i + e i : ℤ) : ZMod q)⟩) : dec t sk ct = some m := by
  obtain ⟨qInv, hinv, hqi⟩ := exists_invert (t := q) (q := t) (Nat.gcd_comm q t ▸ hco) ht.pos
  simp only [dec, hinv, Option.bind_eq_bind, Option.bind_some, hphase]
  exact mapCoeff_eq fun i => rescale_rescale ht hq hlt hqi (m.coeff i) (hr i) (he i)

/-- The phase of `ct` under `sk` is the rescaled plaintext `m` plus a noise
within the bound. -/
def PhaseFits [NeZero N] (sk : Negacyclic N (ZMod q)) (m : PlainRing t N)
    (ct : Negacyclic N (ZMod q) × Negacyclic N (ZMod q)) : Prop :=
  ∃ r e : Fin N → ℤ, (∀ i, 2 * |(m.coeff i).valMinAbs * q - r i * t| ≤ t - 1) ∧
    (∀ i, NoiseFits t q (e i)) ∧
    ct.1 * sk + ct.2 = ⟨fun i => ((r i + e i : ℤ) : ZMod q)⟩

theorem PhaseFits.dec [NeZero N] (ht : Odd t) (hq : Odd q) (hco : Nat.gcd t q = 1)
    (hlt : q * t < 2 ^ 63) {sk : Negacyclic N (ZMod q)} {m : PlainRing t N}
    {ct : Negacyclic N (ZMod q) × Negacyclic N (ZMod q)} (h : PhaseFits sk m ct) :
    Bfv.dec t sk ct = some m := by
  obtain ⟨r, e, hr, he, hphase⟩ := h
  exact dec_of_phase ht hq hco hlt hr he hphase

/-- Decryption never fails, and rounds each coefficient of the phase. -/
theorem dec_eq [NeZero N] (ht : 0 < t) (hq : Odd q) (hco : Nat.gcd t q = 1) (hlt : q * t < 2 ^ 63)
    (sk : Negacyclic N (ZMod q)) (ct : Negacyclic N (ZMod q) × Negacyclic N (ZMod q)) :
    dec t sk ct = some ⟨fun i => nearest t ((ct.1 * sk + ct.2).coeff i)⟩ := by
  obtain ⟨qInv, hinv, hqi⟩ := exists_invert (t := q) (q := t) (Nat.gcd_comm q t ▸ hco) ht
  simp only [dec, hinv, Option.bind_eq_bind, Option.bind_some]
  exact mapCoeff_eq fun i => rescale_eq_nearest hq ht hlt hqi _

/-- **Exact decryption.** Both rescalings round without overflow, the division
is exact, and decryption undoes encryption within the noise bound. -/
theorem dec_encSymB (ht : Odd t) (hq : Odd q) (hco : Nat.gcd t q = 1) (hlt : q * t < 2 ^ 63) :
    ∃ (tInv : ZMod q) (qInv : ZMod t), Zn.invert ((t : ℤ) : ZMod q) = some tInv ∧
      Zn.invert ((q : ℤ) : ZMod t) = some qInv ∧
      (∀ m : ZMod t, ∃ r : ℤ, rescale tInv m = some (r : ZMod q) ∧
        (t : ℤ) * r = m.valMinAbs * q - ((m.valMinAbs * q : ℤ) : ZMod t).valMinAbs ∧
        (∀ r', r' ≠ r → |m.valMinAbs * q - r * t| < |m.valMinAbs * q - r' * t|) ∧
        ∀ e : ℤ, NoiseFits t q e → rescale qInv ((r + e : ℤ) : ZMod q) = some m) ∧
      ∀ (N : ℕ) [NeZero N] (expand : Seed → Negacyclic N (ZMod q)) (a : Seed)
        (sk : Negacyclic N (ZMod q))
        (m : PlainRing t N) (e : Fin N → ℤ), (∀ i, NoiseFits t q (e i)) →
        ∃ b, encSymB expand a ⟨fun i => (e i : ZMod q)⟩ sk m = some b ∧
          dec t sk (expand a, b) = some m := by
  obtain ⟨tInv, eti, hti⟩ := exists_invert hco hq.pos
  obtain ⟨qInv, eqi, hqi⟩ := exists_invert (t := q) (q := t) (Nat.gcd_comm q t ▸ hco) ht.pos
  refine ⟨tInv, qInv, eti, eqi, fun m => ?_, fun N _ expand a sk m e he => ?_⟩
  · obtain ⟨r, hr, hdiv, hb⟩ := rescale_spec ht hq.pos (mul_comm q t ▸ hlt) hti m
    exact ⟨r, hr, hdiv, fun r' hne => nearest_unique hb hne,
      fun e he => rescale_rescale ht hq hlt hqi m hb he⟩
  · obtain ⟨r, hpay, hr⟩ := exists_payload ht hq.pos hlt hti m
    refine ⟨_, by rw [encSymB, eti, Option.bind_eq_bind, Option.bind_some, hpay]; rfl, ?_⟩
    refine dec_of_phase ht hq hco hlt hr he ?_
    refine Negacyclic.ext (funext fun i => ?_)
    simp only [coeff_add, coeff_sub]
    push_cast
    ring

theorem dec_encSymB_one :
    ∃ b, encSymB (fun _ => 1) seeds[0] ⟨fun _ => ((1000 : ℤ) : ZMod fixedQ)⟩ 1 (1 : PlainRing 1025 16) =
    some b ∧ dec 1025 1 ((1 : CipherRing 16), b) = some 1 := by
  obtain ⟨-, -, -, -, -, h⟩ :=
    dec_encSymB (t := 1025) (q := fixedQ) (by decide) (by decide) (by decide) (by decide)
  exact h 16 (fun _ => 1) seeds[0] 1 1 (fun _ => 1000) fun i => by
    rw [NoiseFits]
    norm_num [fixedQ, qFactor1, qFactor2]

/-! ## Modulus switch -/

/-- The centred representative is the smallest one. -/
theorem abs_valMinAbs_le_abs [NeZero q] (d : ℤ) : |((d : ℤ) : ZMod q).valMinAbs| ≤ |d| := by
  have h := ZMod.natAbs_min_of_le_div_two q ((d : ZMod q)).valMinAbs d (by rw [ZMod.coe_valMinAbs])
    (ZMod.natAbs_valMinAbs_le _)
  rw [Int.abs_eq_natAbs, Int.abs_eq_natAbs]
  exact_mod_cast h

/-- The quotient the encoder rounds to. -/
theorem roundedDiv_bounds {fm : FeanorMath} (hfm : fm.Correct) {v B : ℤ} (hq : 0 < q)
    (hv : 2 * |v| ≤ q - 1) (hB : 2 ≤ B) :
    |2 * (v * B - fm.roundedDiv (v * B) q * q)| ≤ q ∧ -B ≤ fm.roundedDiv (v * B) q ∧
      fm.roundedDiv (v * B) q ≤ B := by
  have hround := hfm.roundedDiv (v * B) q (by exact_mod_cast hq)
  have hq' : (0 : ℤ) < q := by exact_mod_cast hq
  set R := fm.roundedDiv (v * B) q
  refine ⟨hround, ?_⟩
  have hr := abs_le.mp hround
  have hvB : |2 * (v * B)| ≤ (q - 1) * B := by
    rw [abs_mul, abs_mul, abs_of_nonneg (show (0 : ℤ) ≤ B by omega), abs_two, ← mul_assoc]
    exact mul_le_mul_of_nonneg_right hv (by omega)
  have hvB' := abs_le.mp hvB
  constructor
  · by_contra hlt
    have : (R + B + 1) * q ≤ 0 := mul_nonpos_of_nonpos_of_nonneg (by omega) hq'.le
    nlinarith
  · by_contra hlt
    have : 0 ≤ (R - B - 1) * q := mul_nonneg (by omega) hq'.le
    nlinarith

/-- Decoding a value of `bits` bits. -/
theorem decodeCoeff_eq (hq : 0 < q) (hlt : q < 2 ^ 57) {bits : ℕ} (hb : bits ≤ 64) {y : UInt64}
    (hy : y.toNat < 2 ^ bits) :
    decodeCoeff q bits y = some ((y.toNat * q / 2 ^ bits : ℤ) : ZMod q) := by
  have hB : (2 : ℤ) ^ bits ≤ 2 ^ 64 :=
    by exact_mod_cast Nat.pow_le_pow_right (show 0 < 2 by norm_num) hb
  have hyB : (y.toNat : ℤ) < 2 ^ bits := by exact_mod_cast hy
  have hq57 : (q : ℤ) < 2 ^ 57 := by exact_mod_cast hlt
  have hyq : 0 ≤ (y.toNat * q : ℤ) ∧ (y.toNat * q : ℤ) ≤ 2 ^ 64 * 2 ^ 57 :=
    ⟨by positivity, mul_le_mul (by omega) (by omega) (by positivity) (by norm_num)⟩
  have hF : (y.toNat * q : ℤ) / 2 ^ bits < q := by
    refine Int.ediv_lt_of_lt_mul (by positivity) ?_
    rw [mul_comm (q : ℤ)]
    exact mul_lt_mul_of_pos_right hyB (by exact_mod_cast hq)
  have hF0 : 0 ≤ (y.toNat * q : ℤ) / 2 ^ bits := Int.ediv_nonneg hyq.1 (by positivity)
  rw [decodeCoeff, i128_eq (by omega) (by omega), Option.bind_eq_bind, Option.bind_some,
    Int.tdiv_eq_ediv_of_nonneg hyq.1]
  change (i64 (y.toNat * q / 2 ^ bits)).bind _ = _
  rw [i64_eq (by omega) (by omega)]
  rfl

/-- Decoding a list of them. -/
theorem modSwitchDecode_isSome (hq : 0 < q) (hlt : q < 2 ^ 57) {bits : ℕ} (hb : bits ≤ 64)
    {ys : List UInt64} (hlen : ys.length = N) (hys : ∀ y ∈ ys, y.toNat < 2 ^ bits) :
    ∃ x : Negacyclic N (ZMod q), modSwitchDecode q bits ys = some x := by
  obtain ⟨v, hv⟩ := Option.isSome_iff_exists.mp (Loops.isSome_ofFnM.mpr fun i : Fin N =>
    Option.isSome_iff_exists.mpr
      ⟨_, decodeCoeff_eq hq hlt hb (hys _ (ys.get_mem ⟨i, hlen.symm ▸ i.isLt⟩))⟩)
  exact ⟨_, by rw [modSwitchDecode, dif_pos ⟨hb, hlen.symm⟩, hv]; rfl⟩

/-- **One coefficient of the modulus switch**: nothing overflows, and the error
is at most `q / 2^(bits + 1) + 1`. -/
theorem decodeCoeff_encodeCoeff {fm : FeanorMath} (hfm : fm.Correct) (hq : Odd q) (hlt : q < 2 ^ 57)
    {bits : ℕ} (hb1 : 1 ≤ bits) (hb : bits ≤ 64) (c : ZMod q) :
    ∃ y c', encodeCoeff fm bits c = some y ∧ y.toNat < 2 ^ bits ∧ decodeCoeff q bits y = some c' ∧
      2 ^ (bits + 1) * |(c' - c).valMinAbs| ≤ q + 2 ^ (bits + 1) := by
  have hne : NeZero q := ⟨hq.pos.ne'⟩
  have hv := abs_valMinAbs_le hq c
  have hB2 : (2 : ℤ) ≤ 2 ^ bits := by exact_mod_cast Nat.pow_le_pow_right (show 0 < 2 by norm_num) hb1
  have hB64 : (2 : ℤ) ^ bits ≤ 2 ^ 64 :=
    by exact_mod_cast Nat.pow_le_pow_right (show 0 < 2 by norm_num) hb
  obtain ⟨hround, hR0, hR1⟩ := roundedDiv_bounds hfm hq.pos hv hB2
  set v := c.valMinAbs
  set B : ℤ := 2 ^ bits
  set R := fm.roundedDiv (v * B) q
  have hq57 : (q : ℤ) < 2 ^ 57 := by exact_mod_cast hlt
  have hvB : |v * B| ≤ 2 ^ 56 * 2 ^ 64 := by
    rw [abs_mul, abs_of_nonneg (show (0 : ℤ) ≤ B by omega)]
    exact mul_le_mul (by omega) hB64 (by omega) (by norm_num)
  have hvB' := abs_le.mp hvB
  have hy0 : 0 ≤ (R + B) % B := Int.emod_nonneg _ (by omega)
  have hyB : (R + B) % B < B := Int.emod_lt_of_pos _ (by omega)
  have htmod : (R + B).tmod B = (R + B) % B := Int.tmod_eq_emod_of_nonneg (by omega)
  set y := (R + B) % B
  have hyv : (UInt64.ofNat y.toNat).toNat = y.toNat := by
    rw [UInt64.toNat_ofNat']
    exact Nat.mod_eq_of_lt (by omega)
  have hylt : (UInt64.ofNat y.toNat).toNat < 2 ^ bits := by
    have : ((2 ^ bits : ℕ) : ℤ) = B := by push_cast; rfl
    rw [hyv]
    omega
  refine ⟨UInt64.ofNat y.toNat, ((y * q / B : ℤ) : ZMod q), ?_, hylt, ?_, ?_⟩
  · change (i128 (v * B)).bind _ = _
    rw [i128_eq (by omega) (by omega), Option.bind_some]
    change (i128 (R + B)).bind _ = _
    rw [i128_eq (by omega) (by omega), Option.bind_some]
    change u64 ((R + B).tmod B) = _
    rw [htmod, u64, if_pos ⟨hy0, by omega⟩]
  · rw [decodeCoeff_eq hq.pos hlt hb hylt, hyv, Int.toNat_of_nonneg hy0]
  · -- `R` and `y` differ by a multiple of `B`, which costs a multiple of `q`.
    obtain ⟨k, hk⟩ : B ∣ R - y := by
      have h1 : B ∣ R + B - y := Int.dvd_self_sub_emod
      have : R - y = (R + B - y) - B := by ring
      rw [this]
      exact dvd_sub h1 dvd_rfl
    set F := y * q / B
    have hcast : ((F : ZMod q) - c) = ((F + q * k - v : ℤ) : ZMod q) := by
      push_cast
      rw [ZMod.natCast_self, zero_mul, add_zero, ZMod.coe_valMinAbs]
    have hfloor : B * F ≤ y * q ∧ y * q < B * F + B := by
      have h1 := Int.mul_ediv_add_emod (y * q) B
      have h2 := Int.emod_nonneg (y * q) (show B ≠ 0 by omega)
      have h3 := Int.emod_lt_of_pos (y * q) (show 0 < B by omega)
      exact ⟨by linarith, by linarith⟩
    have hd : |2 * B * (F + q * k - v)| ≤ q + 2 * B := by
      have he : 2 * B * (F + q * k - v) = 2 * (B * F - y * q) - 2 * (v * B - R * q) := by
        have : R = y + B * k := by linarith
        rw [this]
        ring
      have hr := abs_le.mp hround
      rw [he, abs_le]
      constructor <;> linarith [hfloor.1, hfloor.2]
    have hB' : (2 : ℤ) ^ (bits + 1) = 2 * B := by rw [pow_succ']
    rw [hcast, hB']
    calc 2 * B * |((F + q * k - v : ℤ) : ZMod q).valMinAbs| ≤ 2 * B * |F + q * k - v| :=
          mul_le_mul_of_nonneg_left (abs_valMinAbs_le_abs _) (by omega)
      _ = |2 * B * (F + q * k - v)| := by rw [abs_mul, abs_of_nonneg (show (0 : ℤ) ≤ 2 * B by omega)]
      _ ≤ q + 2 * B := hd

/-- **The modulus switch of a ring element.** -/
theorem modSwitchDecode_modSwitchEncode {fm : FeanorMath} (hfm : fm.Correct) (hq : Odd q)
    (hlt : q < 2 ^ 57) {bits : ℕ} (hb1 : 1 ≤ bits) (hb : bits ≤ 64) (x : Negacyclic N (ZMod q)) :
    ∃ (ys : List UInt64) (x' : Negacyclic N (ZMod q)), modSwitchEncode fm bits x = some ys ∧
      ys.length = N ∧ (∀ y ∈ ys, y.toNat < 2 ^ bits) ∧ modSwitchDecode q bits ys = some x' ∧
      ∀ i, 2 ^ (bits + 1) * |(x'.coeff i - x.coeff i).valMinAbs| ≤ q + 2 ^ (bits + 1) := by
  choose y c' hy hlt' hc' herr using fun i => decodeCoeff_encodeCoeff hfm hq hlt hb1 hb (x.coeff i)
  have hv : Vector.ofFnM (fun i => encodeCoeff fm bits (x.coeff i)) = some (Vector.ofFn y) :=
    Loops.ofFnM_eq_some fun i => by simpa using hy i
  have hlen : (Vector.ofFn y).toList.length = N := by simp
  refine ⟨(Vector.ofFn y).toList, ⟨c'⟩, by simp [modSwitchEncode, if_pos hb, hv], hlen, ?_, ?_, herr⟩
  · simp only [Vector.mem_toList_iff, Vector.mem_ofFn]
    rintro _ ⟨i, rfl⟩
    exact hlt' i
  · have hd : Vector.ofFnM (fun i : Fin N =>
        decodeCoeff q bits ((Vector.ofFn y).toList.get ⟨i, hlen.symm ▸ i.isLt⟩)) =
        some (Vector.ofFn c') := Loops.ofFnM_eq_some fun i => by simpa using hc' i
    rw [modSwitchDecode, dif_pos ⟨hb, hlen.symm⟩, hd]
    simp only [Option.bind_eq_bind, Option.bind_some, Option.pure_def, Option.some.injEq]
    exact Negacyclic.ext (funext fun i => by simp)

theorem modSwitchDecode_modSwitchEncode_one :
    ∃ ys, modSwitchEncode FeanorMath.reference 17 (1 : CipherRing 16) = some ys ∧
    ys.length = 16 := by
  have hbits : 1 ≤ 17 ∧ 17 ≤ 64 := by decide
  obtain ⟨ys, -, h, hlen, -⟩ :=
    modSwitchDecode_modSwitchEncode FeanorMath.reference_correct (by decide) (by decide)
    hbits.1 hbits.2 (1 : CipherRing 16)
  exact ⟨ys, h, hlen⟩

end Bfv

end Dnspir
