/-
`simd_zn` computes in `Z/pZ`.

`Rep Z x f` says that lane `c` of `x` holds a representative `≤ 2p` of the
residue `f c`. Every operation takes representatives to representatives of
the result (`Rep.add`, `Rep.mul`, `Rep.sum`, ...), so a caller never looks at
a bound again. The two facts underneath:

* `lane_reduceStep`: one reduction step leaves `d % 2^K + d / 2^K * alpha`.
* `lane_reduceAfterMul_le`: two steps bring every value up to `2p(p + 1)`,
  in particular every product and every sum of `p` summands, below `2p`.
-/
import Dnspir.SimdZn
import Dnspir.AvxFacts

namespace Dnspir

namespace Zn

variable {n : ℕ}

theorem checkedDiv_of_mul_eq_one [NeZero n] {r s : ZMod n} (h : r * s = 1) (l : ZMod n) :
    checkedDiv l r = some (l * s) := by
  have hu : IsUnit r := IsUnit.of_mul_eq_one s h
  have hc : r.val.Coprime n := by
    rwa [← ZMod.isUnit_iff_coprime, ZMod.natCast_zmod_val]
  have hd : r.val.gcd n = 1 := hc
  simp only [checkedDiv, hd, one_dvd, if_true, Nat.div_one, ZMod.natCast_zmod_val, Option.some.injEq]
  have hi : r⁻¹ = s := by
    rw [← one_mul r⁻¹, ← h, mul_right_comm, ZMod.mul_inv_of_unit r hu, one_mul]
  rw [hi]

theorem invert_of_mul_eq_one [NeZero n] {r s : ZMod n} (h : r * s = 1) : invert r = some s := by
  rw [invert, checkedDiv_of_mul_eq_one h, one_mul]

end Zn

open Avx

namespace SpecialZnx8

variable {K : ℕ} (Z : SpecialZnx8 K)

/-! ## The modulus -/

theorem alpha_le : Z.alpha ≤ 2 ^ K := by have := Z.alpha_sq_le; omega

theorem modulus_add_alpha : Z.modulus + Z.alpha = 2 ^ K := Nat.sub_add_cancel Z.alpha_le

theorem modulus_pos : 0 < Z.modulus := by
  have := Z.alpha_lt
  simp only [modulus]
  omega

instance : NeZero Z.modulus := ⟨Z.modulus_pos.ne'⟩

include Z in
theorem two_pow_le : 2 ^ K ≤ 2 ^ 30 := by
  have h := Z.shift_le
  have hK : K ≤ 30 := by
    by_contra hk
    have := Nat.pow_le_pow_right (show 0 < 2 by decide) (show 31 ≤ K by omega)
    omega
  exact Nat.pow_le_pow_right (by decide) hK

theorem modulus_le : Z.modulus ≤ 2 ^ 30 := le_trans (Nat.sub_le _ _) Z.two_pow_le

theorem two_pow_cast : ((2 ^ K : ℕ) : Z.ComponentRing) = (Z.alpha : Z.ComponentRing) := by
  rw [← Z.modulus_add_alpha, Nat.cast_add, ZMod.natCast_self, zero_add]

@[simp] theorem lane_modulusx8 (c : Fin 8) : lane Z.modulusx8 c = Z.modulus :=
  lane_set1 (by have := Z.modulus_le; omega)

@[simp] theorem lane_doubleModulusx8 (c : Fin 8) : lane Z.doubleModulusx8 c = 2 * Z.modulus :=
  lane_set1 (by have := Z.modulus_le; omega)

/-! ## Reductions -/

variable {x y z : M512i} {c : Fin 8}

theorem lane_reduceStep (h : lane x c / 2 ^ K < 2 ^ 32) :
    lane (Z.reduceStep x) c = lane x c % 2 ^ K + lane x c / 2 ^ K * Z.alpha := by
  have hq : lane (mm512SrliEpi64 K x) c = lane x c / 2 ^ K := lane_srli K
  have hp := Z.modulus_le
  have hm : lane (mm512MulEpu32 (mm512SrliEpi64 K x) Z.modulusx8) c = lane x c / 2 ^ K * Z.modulus := by
    rw [lane_mulEpu32 (by omega) (by rw [lane_modulusx8]; omega), hq, lane_modulusx8]
  have hx : lane x c = lane x c % 2 ^ K +
      (lane x c / 2 ^ K * Z.modulus + lane x c / 2 ^ K * Z.alpha) := by
    rw [← mul_add, Z.modulus_add_alpha, mul_comm _ (2 ^ K)]
    exact (Nat.mod_add_div _ _).symm
  rw [reduceStep, lane_sub (by rw [hm]; omega), hm]
  omega

theorem reduceStep_cast (h : lane x c / 2 ^ K < 2 ^ 32) :
    (lane (Z.reduceStep x) c : Z.ComponentRing) = lane x c := by
  conv_rhs => rw [← Nat.mod_add_div (lane x c) (2 ^ K)]
  rw [Z.lane_reduceStep h, Nat.cast_add, Nat.cast_add, Nat.cast_mul, Nat.cast_mul, Z.two_pow_cast,
    mul_comm]

/-- The range in which two reduction steps suffice: the first leaves less
than `2^K (1 + 2 alpha)`, whose quotient by `2^K` is at most `2 alpha`. -/
theorem reduceAfterMul_of_quo (h32 : lane x c / 2 ^ K < 2 ^ 32)
    (h : lane x c / 2 ^ K * Z.alpha ≤ 2 * 2 ^ K * Z.alpha) :
    lane (Z.reduceAfterMul x) c ≤ 2 * Z.modulus ∧
      (lane (Z.reduceAfterMul x) c : Z.ComponentRing) = lane x c := by
  have hpos : 0 < 2 ^ K := Nat.two_pow_pos K
  have h1 : lane (Z.reduceStep x) c < 2 ^ K * (2 * Z.alpha + 1) := by
    rw [Z.lane_reduceStep h32]
    have := Nat.mod_lt (lane x c) hpos
    linarith
  have hq : lane (Z.reduceStep x) c / 2 ^ K ≤ 2 * Z.alpha :=
    Nat.lt_succ_iff.mp ((Nat.div_lt_iff_lt_mul hpos).mpr (by rw [mul_comm]; exact h1))
  have ha := Z.alpha_sq_le
  have h2 := Z.two_pow_le
  have hq32 : lane (Z.reduceStep x) c / 2 ^ K < 2 ^ 32 := by
    have := Z.alpha_le
    omega
  refine ⟨?_, ?_⟩
  · rw [reduceAfterMul, Z.lane_reduceStep hq32]
    have hm := Nat.mod_lt (lane (Z.reduceStep x) c) hpos
    have hqa : lane (Z.reduceStep x) c / 2 ^ K * Z.alpha ≤ 2 * Z.alpha * Z.alpha :=
      Nat.mul_le_mul_right _ hq
    have hp := Z.modulus_add_alpha
    omega
  · rw [reduceAfterMul, Z.reduceStep_cast hq32, Z.reduceStep_cast h32]

theorem quo_le_of_le (h : lane x c ≤ 2 * Z.modulus * (Z.modulus + 1)) :
    lane x c / 2 ^ K < 2 ^ 32 ∧ lane x c / 2 ^ K * Z.alpha ≤ 2 * 2 ^ K * Z.alpha := by
  have hpos : 0 < 2 ^ K := Nat.two_pow_pos K
  have hp := Z.modulus_add_alpha
  have h2 := Z.two_pow_le
  have hmul : ∀ b, Z.modulus + 1 ≤ b → lane x c ≤ 2 * b * 2 ^ K := fun b hb => by
    calc lane x c ≤ 2 * Z.modulus * (Z.modulus + 1) := h
      _ ≤ 2 * 2 ^ K * b := Nat.mul_le_mul (by omega) hb
      _ = 2 * b * 2 ^ K := by ring
  refine ⟨?_, ?_⟩
  · have := Nat.div_le_of_le_mul (mul_comm _ (2 ^ K) ▸ hmul (2 ^ K + 1) (by omega))
    omega
  · rcases Nat.eq_zero_or_pos Z.alpha with h0 | h0
    · simp [h0]
    · exact Nat.mul_le_mul_right _
        (Nat.div_le_of_le_mul (mul_comm _ (2 ^ K) ▸ hmul (2 ^ K) (by omega)))

theorem lane_reduceAfterMul_le (h : lane x c ≤ 2 * Z.modulus * (Z.modulus + 1)) :
    lane (Z.reduceAfterMul x) c ≤ 2 * Z.modulus ∧
      (lane (Z.reduceAfterMul x) c : Z.ComponentRing) = lane x c :=
  Z.reduceAfterMul_of_quo (Z.quo_le_of_le h).1 (Z.quo_le_of_le h).2

theorem lane_reduceFrom2p (h : lane x c < 2 ^ 63) :
    lane (Z.reduceFrom2p x) c = if Z.modulus < lane x c then lane x c - Z.modulus else lane x c := by
  have hp := Z.modulus_le
  rw [reduceFrom2p, lane_sub_mask_gt h (by rw [lane_modulusx8]; omega), lane_modulusx8]

theorem lane_reduceFrom4p (h : lane x c < 2 ^ 63) :
    lane (Z.reduceFrom4p x) c =
      if 2 * Z.modulus < lane x c then lane x c - 2 * Z.modulus else lane x c := by
  have hp := Z.modulus_le
  rw [reduceFrom4p, lane_sub_mask_gt h (by rw [lane_doubleModulusx8]; omega), lane_doubleModulusx8]

theorem cast_sub_modulus {a : ℕ} (k : ℕ) (h : k * Z.modulus ≤ a) :
    ((a - k * Z.modulus : ℕ) : Z.ComponentRing) = a := by
  rw [Nat.cast_sub h, Nat.cast_mul, ZMod.natCast_self, mul_zero, sub_zero]

theorem reduceFrom2p_spec (h : lane x c ≤ 2 * Z.modulus) :
    lane (Z.reduceFrom2p x) c ≤ Z.modulus ∧
      (lane (Z.reduceFrom2p x) c : Z.ComponentRing) = lane x c := by
  have hp := Z.modulus_le
  rw [Z.lane_reduceFrom2p (by omega)]
  split
  · exact ⟨by omega, by simpa using Z.cast_sub_modulus 1 (a := lane x c) (by omega)⟩
  · exact ⟨by omega, rfl⟩

theorem reduceFrom4p_spec (h : lane x c ≤ 4 * Z.modulus) :
    lane (Z.reduceFrom4p x) c ≤ 2 * Z.modulus ∧
      (lane (Z.reduceFrom4p x) c : Z.ComponentRing) = lane x c := by
  have hp := Z.modulus_le
  rw [Z.lane_reduceFrom4p (by omega)]
  split
  · exact ⟨by omega, Z.cast_sub_modulus 2 (by omega)⟩
  · exact ⟨by omega, rfl⟩

/-! ## Representatives -/

/-- Each lane of `x` holds a representative `≤ 2p` of the residue `f` names. -/
def Rep (x : M512i) (f : Fin 8 → Z.ComponentRing) : Prop :=
  ∀ c, lane x c ≤ 2 * Z.modulus ∧ (lane x c : Z.ComponentRing) = f c

variable {Z} {f g h : Fin 8 → Z.ComponentRing}

theorem Rep.congr (hx : Z.Rep x f) (hf : f = g) : Z.Rep x g := hf ▸ hx

theorem lane_fromComponents (f : Fin 8 → Z.ComponentRing) (c : Fin 8) :
    lane (Z.fromComponents f) c = (f c).val :=
  lane_ofFn (f := fun c => (f c).val) fun c => by
    have := ZMod.val_lt (f c)
    have := Z.modulus_le
    omega

theorem Rep.fromComponents (f : Fin 8 → Z.ComponentRing) : Z.Rep (Z.fromComponents f) f := by
  intro c
  have hv := ZMod.val_lt (f c)
  rw [lane_fromComponents]
  exact ⟨by omega, ZMod.natCast_zmod_val _⟩

theorem Rep.reduceFromU64 (x : M512i) : Z.Rep (Z.reduceFromU64 x) fun c => lane x c :=
  Rep.fromComponents _

theorem Rep.fromInt (v : ℤ) : Z.Rep (Z.fromInt v) fun _ => v := by
  intro c
  have hv := ZMod.val_lt (v : Z.ComponentRing)
  have hp := Z.modulus_le
  rw [SpecialZnx8.fromInt, lane_set1 (by omega)]
  exact ⟨by omega, ZMod.natCast_zmod_val _⟩

theorem Rep.zero : Z.Rep Z.zero 0 := (Rep.fromInt 0).congr (funext fun _ => Int.cast_zero)

theorem Rep.one : Z.Rep Z.one 1 := (Rep.fromInt 1).congr (funext fun _ => Int.cast_one)

theorem Rep.add (hx : Z.Rep x f) (hy : Z.Rep y g) : Z.Rep (Z.add x y) (f + g) := by
  intro c
  obtain ⟨hxb, hxv⟩ := hx c
  obtain ⟨hyb, hyv⟩ := hy c
  have hp := Z.modulus_le
  have hs : lane (mm512AddEpi64 x y) c = lane x c + lane y c := lane_add (by omega)
  obtain ⟨hb, hv⟩ := Z.reduceFrom4p_spec (x := mm512AddEpi64 x y) (c := c) (by omega)
  exact ⟨hb, by rw [SpecialZnx8.add, hv, hs, Nat.cast_add, hxv, hyv, Pi.add_apply]⟩

theorem Rep.sub (hx : Z.Rep x f) (hy : Z.Rep y g) : Z.Rep (Z.sub x y) (f - g) := by
  intro c
  obtain ⟨hxb, hxv⟩ := hx c
  obtain ⟨hyb, hyv⟩ := hy c
  have hp := Z.modulus_le
  have hi : lane (mm512AddEpi64 x Z.doubleModulusx8) c = lane x c + 2 * Z.modulus := by
    rw [lane_add (by rw [lane_doubleModulusx8]; omega), lane_doubleModulusx8]
  have hd : lane (mm512SubEpi64 (mm512AddEpi64 x Z.doubleModulusx8) y) c =
      lane x c + 2 * Z.modulus - lane y c := by
    rw [lane_sub (by omega), hi]
  obtain ⟨hb, hv⟩ := Z.reduceFrom4p_spec
    (x := mm512SubEpi64 (mm512AddEpi64 x Z.doubleModulusx8) y) (c := c) (by omega)
  refine ⟨hb, ?_⟩
  rw [SpecialZnx8.sub, hv, hd, Nat.cast_sub (by omega), Nat.cast_add, Nat.cast_mul, ZMod.natCast_self,
    mul_zero, add_zero, hxv, hyv, Pi.sub_apply]

theorem Rep.negate (hx : Z.Rep x f) : Z.Rep (Z.negate x) (-f) := by
  intro c
  obtain ⟨hxb, hxv⟩ := hx c
  have hl : lane (Z.negate x) c = 2 * Z.modulus - lane x c := by
    rw [SpecialZnx8.negate, lane_sub (by rwa [lane_doubleModulusx8]), lane_doubleModulusx8]
  refine ⟨by omega, ?_⟩
  rw [hl, Nat.cast_sub hxb, Nat.cast_mul, ZMod.natCast_self, mul_zero, zero_sub, hxv, Pi.neg_apply]

/-- A product with one factor reduced to `≤ p`, as `mul` and `fma` form it. -/
theorem lane_mul_reduced (hx : Z.Rep x f) (hy : Z.Rep y g) (c : Fin 8) :
    lane (mm512MulEpu32 (Z.reduceFrom2p x) y) c ≤ Z.modulus * (2 * Z.modulus) ∧
      (lane (mm512MulEpu32 (Z.reduceFrom2p x) y) c : Z.ComponentRing) = f c * g c := by
  obtain ⟨hxb, hxv⟩ := hx c
  obtain ⟨hyb, hyv⟩ := hy c
  have hp := Z.modulus_le
  obtain ⟨hrb, hrv⟩ := Z.reduceFrom2p_spec hxb
  rw [lane_mulEpu32 (by omega) (by omega)]
  exact ⟨Nat.mul_le_mul hrb hyb, by rw [Nat.cast_mul, hrv, hxv, hyv]⟩

theorem Rep.mul (hx : Z.Rep x f) (hy : Z.Rep y g) : Z.Rep (Z.mul x y) (f * g) := by
  intro c
  obtain ⟨hm, hv⟩ := lane_mul_reduced hx hy c
  obtain ⟨hb, hr⟩ := Z.lane_reduceAfterMul_le (x := mm512MulEpu32 (Z.reduceFrom2p x) y) (c := c)
    (by linarith)
  exact ⟨hb, by rw [SpecialZnx8.mul, hr, hv, Pi.mul_apply]⟩

theorem Rep.fma (hx : Z.Rep x f) (hy : Z.Rep y g) (hz : Z.Rep z h) :
    Z.Rep (Z.fma x y z) (f * g + h) := by
  intro c
  obtain ⟨hm, hv⟩ := lane_mul_reduced hx hy c
  obtain ⟨hzb, hzv⟩ := hz c
  have hpp : Z.modulus * (2 * Z.modulus) ≤ 2 ^ 30 * (2 * 2 ^ 30) :=
    Nat.mul_le_mul Z.modulus_le (Nat.mul_le_mul_left 2 Z.modulus_le)
  have hp := Z.modulus_le
  have hs : lane (mm512AddEpi64 (mm512MulEpu32 (Z.reduceFrom2p x) y) z) c =
      lane (mm512MulEpu32 (Z.reduceFrom2p x) y) c + lane z c := lane_add (by omega)
  obtain ⟨hb, hr⟩ := Z.lane_reduceAfterMul_le
    (x := mm512AddEpi64 (mm512MulEpu32 (Z.reduceFrom2p x) y) z) (c := c) (by rw [hs]; linarith)
  exact ⟨hb, by rw [SpecialZnx8.fma, hr, hs, Nat.cast_add, hv, hzv, Pi.add_apply, Pi.mul_apply]⟩

/-! ## Sums

After `i` additions since the last reduction a lane is at most `2p(1 + i)`,
and `i` never exceeds `p`. -/

/-- The accumulator of `sum` holds the residues `f`, `i` additions after its
last reduction. -/
def SumRep (Z : SpecialZnx8 K) (acc : M512i × ℕ) (f : Fin 8 → Z.ComponentRing) : Prop :=
  acc.2 ≤ Z.modulus ∧ ∀ c, lane acc.1 c ≤ 2 * Z.modulus * (acc.2 + 1) ∧
    (lane acc.1 c : Z.ComponentRing) = f c

theorem SumRep.lane_le {acc : M512i × ℕ} (ha : SumRep Z acc f) (c : Fin 8) :
    lane acc.1 c ≤ 2 * Z.modulus * (Z.modulus + 1) :=
  le_trans (ha.2 c).1 (Nat.mul_le_mul_left _ (by have := ha.1; omega))

theorem SumRep.reduce {acc : M512i × ℕ} (ha : SumRep Z acc f) :
    Z.Rep (Z.reduceAfterMul acc.1) f := fun c =>
  have hr := Z.lane_reduceAfterMul_le (ha.lane_le c)
  ⟨hr.1, hr.2.trans (ha.2 c).2⟩

theorem SumRep.step {acc : M512i × ℕ} (ha : SumRep Z acc f) (hx : Z.Rep x g) :
    SumRep Z (Z.sumStep acc x) (f + g) := by
  have hp := Z.modulus_le
  have hp0 := Z.modulus_pos
  -- The reduction, when it is due, restarts the count and keeps the residues.
  have hr : ∃ acc', Z.sumStep acc x = (mm512AddEpi64 acc'.1 x, acc'.2 + 1) ∧
      acc'.2 < Z.modulus ∧ SumRep Z acc' f := by
    by_cases hi : acc.2 = Z.modulus
    · exact ⟨(Z.reduceAfterMul acc.1, 0), by simp [sumStep, hi], hp0, Nat.zero_le _,
        fun c => ⟨by simpa using (ha.reduce c).1, (ha.reduce c).2⟩⟩
    · exact ⟨acc, by simp [sumStep, hi], lt_of_le_of_ne ha.1 hi, ha⟩
  obtain ⟨acc', he, hlt, hacc⟩ := hr
  rw [he]
  refine ⟨hlt, fun c => ?_⟩
  obtain ⟨hb, hv⟩ := hacc.2 c
  obtain ⟨hxb, hxv⟩ := hx c
  have hbig : 2 * Z.modulus * (acc'.2 + 1) ≤ 2 * 2 ^ 30 * 2 ^ 30 := Nat.mul_le_mul (by omega) (by omega)
  have hs : lane (mm512AddEpi64 acc'.1 x) c = lane acc'.1 c + lane x c := lane_add (by omega)
  refine ⟨?_, by rw [hs, Nat.cast_add, hv, hxv, Pi.add_apply]⟩
  rw [hs]
  calc lane acc'.1 c + lane x c ≤ 2 * Z.modulus * (acc'.2 + 1) + 2 * Z.modulus := Nat.add_le_add hb hxb
    _ = 2 * Z.modulus * (acc'.2 + 1 + 1) := by ring

theorem Rep.sum {els : List M512i} {fs : List (Fin 8 → Z.ComponentRing)}
    (hl : List.Forall₂ Z.Rep els fs) : Z.Rep (Z.sum els) fs.sum := by
  have hrun : ∀ (acc : M512i × ℕ) (f : Fin 8 → Z.ComponentRing), SumRep Z acc f →
      SumRep Z (els.foldl Z.sumStep acc) (f + fs.sum) := by
    induction hl with
    | nil => intro acc f ha; simpa using ha
    | cons hx _ ih =>
      intro acc f ha
      rw [List.foldl_cons, List.sum_cons, ← add_assoc]
      exact ih _ _ (ha.step hx)
  have h0 : SumRep Z (Z.zero, 0) 0 := ⟨Nat.zero_le _, fun c => by simpa using Rep.zero c⟩
  exact (hrun _ _ h0).reduce.congr (zero_add _)

/-! ## Lifts, components and inverses -/

theorem lane_simdSmallestPositiveLift (hx : Z.Rep x f) (c : Fin 8) :
    lane (Z.simdSmallestPositiveLift x) c = (f c).val := by
  obtain ⟨hxb, hxv⟩ := hx c
  obtain ⟨hb, hv⟩ := Z.reduceFrom2p_spec hxb
  have hm := lane_mask (x := Z.modulusx8) (c := c) (mm512CmpeqEpi64Mask (Z.reduceFrom2p x) Z.modulusx8)
  rw [cmpeq_eq, lane_modulusx8] at hm
  rw [simdSmallestPositiveLift, ← hxv, ← hv, ZMod.val_natCast]
  by_cases he : lane (Z.reduceFrom2p x) c = Z.modulus
  · simp only [he, decide_true, if_true] at hm
    rw [lane_sub (by omega), hm, he]
    simp
  · simp only [he, decide_false, Bool.false_eq_true, if_false] at hm
    rw [lane_sub (by omega), hm, Nat.mod_eq_of_lt (lt_of_le_of_ne hb he), Nat.sub_zero]

theorem Rep.simdFromPSqr (h : ∀ c, lane x c ≤ 2 * Z.modulus * (Z.modulus + 1)) :
    Z.Rep (Z.simdFromPSqr x) fun c => lane x c := fun c => Z.lane_reduceAfterMul_le (h c)

/-- A lane below `2^31` survives the compression to `i32`. -/
theorem toInt_compress (h : lane x c < 2 ^ 31) : ((compress x)[c.val]).toInt = lane x c := by
  simp only [lane, Positions.getElem_pos, compress, Vector.getElem_map] at h ⊢
  rw [BitVec.toInt_eq_toNat_of_lt] <;> rw [BitVec.toNat_setWidth, Nat.mod_eq_of_lt (by omega)]
  omega

theorem uncompress_compress (h : ∀ c, lane x c < 2 ^ 31) : uncompress (compress x) = x := by
  refine lane_ext fun c => ?_
  have hc := toInt_compress (h c)
  have hs : slane (uncompress (compress x)) c = lane x c := by
    rw [← hc, uncompress, slane, Positions.getElem_pos, getElem_cvtepi32,
      BitVec.toInt_signExtend_of_le (by decide)]
  have := lane_eq_slane (x := uncompress (compress x)) (c := c) (by omega)
  omega

/-- For a positive `alpha` the bound `2p` is below `2^31`. -/
theorem Rep.lt (ha : 0 < Z.alpha) (hx : Z.Rep x f) (c : Fin 8) : lane x c < 2 ^ 31 := by
  have h1 := (hx c).1
  have h2 := Z.modulus_add_alpha
  have h3 := Z.two_pow_le
  omega

theorem Rep.uncompress_compress (ha : 0 < Z.alpha) (hx : Z.Rep x f) :
    uncompress (compress x) = x := SpecialZnx8.uncompress_compress (hx.lt ha)

theorem getComponents_of_lt (hx : Z.Rep x f) (hlt : ∀ c, lane x c < 2 ^ 31) :
    Z.getComponents x = f := by
  funext c
  have h := toInt_compress (hlt c)
  simp only [SpecialZnx8.getComponents, Positions.getElem_pos, h, Int.cast_natCast]
  exact (hx c).2

theorem Rep.getComponents (ha : 0 < Z.alpha) (hx : Z.Rep x f) : Z.getComponents x = f :=
  getComponents_of_lt hx (hx.lt ha)

theorem Rep.reduceFrom2p (hx : Z.Rep x f) : Z.Rep (Z.reduceFrom2p x) f := fun c =>
  have h := Z.reduceFrom2p_spec (hx c).1
  ⟨by omega, h.2.trans (hx c).2⟩

theorem Rep.getComponents_reduceFrom2p (hx : Z.Rep x f) : Z.getComponents (Z.reduceFrom2p x) = f :=
  getComponents_of_lt hx.reduceFrom2p fun c => by
    have h := (Z.reduceFrom2p_spec (hx c).1).1
    have hp := Z.modulus_le
    omega

theorem Rep.checkedLeftDiv (hx : Z.Rep x f) (hy : Z.Rep y g) (hg : g * h = 1) :
    ∃ q, Z.checkedLeftDiv x y = some q ∧ Z.Rep q (f * h) := by
  have hd : ∀ c, Zn.checkedDiv (f c) (g c) = some ((f * h) c) := fun c =>
    Zn.checkedDiv_of_mul_eq_one (congrFun hg c) (f c)
  refine ⟨Z.fromComponents (f * h), ?_, Rep.fromComponents _⟩
  simp only [SpecialZnx8.checkedLeftDiv, hx.getComponents_reduceFrom2p, hy.getComponents_reduceFrom2p]
  have : (fun c => Zn.checkedDiv (f c) (g c)) = fun c => (pure ((f * h) c) : Option _) := funext hd
  rw [this, Vector.ofFnM_pure]
  simp
  rfl

theorem Rep.invert (hx : Z.Rep x f) (hg : f * g = 1) : ∃ y, Z.invert x = some y ∧ Z.Rep y g := by
  obtain ⟨y, he, hy⟩ := Rep.one.checkedLeftDiv hx hg
  exact ⟨y, he, hy.congr (one_mul g)⟩

end SpecialZnx8

end Dnspir
