/-
No lane of `simd_zn` wraps.

`Checked` repeats the operations of `simd_zn` on registers that are checked:
a lane operation fails where the exact result leaves the range, where a factor
does not fit the 32 bits the multiplication reads, or where a comparison would
see a sign. On representatives each of them succeeds and is the operation
itself (`Checked.add_eq`, `Checked.mul_eq`, ...), so every intermediate lane
is the exact number.

`specialZnx8_exact` collects ranges, values and checks of all operations.
-/
import Dnspir.SimdZnFacts

namespace Dnspir

/-! ## Checked registers -/

namespace Avx.Checked

def mm512AddEpi64 (lhs rhs : M512i) : Option M512i :=
  if ∀ c, lane lhs c + lane rhs c ≤ 2 ^ 63 then some (Avx.mm512AddEpi64 lhs rhs) else none

def mm512SubEpi64 (lhs rhs : M512i) : Option M512i :=
  if ∀ c, lane rhs c ≤ lane lhs c then some (Avx.mm512SubEpi64 lhs rhs) else none

def mm512MulEpu32 (lhs rhs : M512i) : Option M512i :=
  if ∀ c, lane lhs c < 2 ^ 32 ∧ lane rhs c < 2 ^ 32 ∧ lane lhs c * lane rhs c ≤ 2 ^ 63 then
    some (Avx.mm512MulEpu32 lhs rhs) else none

def mm512CmpgtEpi64Mask (lhs rhs : M512i) : Option M512Mask :=
  if ∀ c, lane lhs c < 2 ^ 63 ∧ lane rhs c < 2 ^ 63 then some (Avx.mm512CmpgtEpi64Mask lhs rhs)
  else none

end Avx.Checked

open Avx

namespace SpecialZnx8

variable {K : ℕ}

/-! ## Checked operations -/

namespace Checked

variable (Z : SpecialZnx8 K)

def reduceStep (data : M512i) : Option M512i := do
  let approxQuo := mm512SrliEpi64 K data
  Avx.Checked.mm512SubEpi64 data (← Avx.Checked.mm512MulEpu32 approxQuo Z.modulusx8)

def reduceAfterMul (data : M512i) : Option M512i := do
  let reduced1 ← reduceStep Z data
  reduceStep Z reduced1

def reduceFrom2p (data : M512i) : Option M512i := do
  let toReduce ← Avx.Checked.mm512CmpgtEpi64Mask data Z.modulusx8
  Avx.Checked.mm512SubEpi64 data (mm512Mask Z.modulusx8 toReduce)

def reduceFrom4p (data : M512i) : Option M512i := do
  let toReduce ← Avx.Checked.mm512CmpgtEpi64Mask data Z.doubleModulusx8
  Avx.Checked.mm512SubEpi64 data (mm512Mask Z.doubleModulusx8 toReduce)

def simdSmallestPositiveLift (el : M512i) : Option M512i := do
  let result ← reduceFrom2p Z el
  Avx.Checked.mm512SubEpi64 result (mm512Mask Z.modulusx8 (mm512CmpeqEpi64Mask result Z.modulusx8))

def add (lhs rhs : M512i) : Option M512i := do
  let sum ← Avx.Checked.mm512AddEpi64 lhs rhs
  reduceFrom4p Z sum

def sub (lhs rhs : M512i) : Option M512i := do
  let increased ← Avx.Checked.mm512AddEpi64 lhs Z.doubleModulusx8
  let diff ← Avx.Checked.mm512SubEpi64 increased rhs
  reduceFrom4p Z diff

def negate (lhs : M512i) : Option M512i := Avx.Checked.mm512SubEpi64 Z.doubleModulusx8 lhs

def mul (lhs rhs : M512i) : Option M512i := do
  let prod ← Avx.Checked.mm512MulEpu32 (← reduceFrom2p Z lhs) rhs
  reduceAfterMul Z prod

def fma (lhs rhs summand : M512i) : Option M512i := do
  let prod ← Avx.Checked.mm512MulEpu32 (← reduceFrom2p Z lhs) rhs
  reduceAfterMul Z (← Avx.Checked.mm512AddEpi64 prod summand)

def sumStep (acc : M512i × ℕ) (x : M512i) : Option (M512i × ℕ) := do
  let acc ← if acc.2 = Z.modulus then do pure (← reduceAfterMul Z acc.1, 0) else pure acc
  return (← Avx.Checked.mm512AddEpi64 acc.1 x, acc.2 + 1)

def sum (els : List M512i) : Option M512i := do
  let acc ← els.foldlM (sumStep Z) (Z.zero, 0)
  reduceAfterMul Z acc.1

def eqEl (lhs rhs : M512i) : Option Bool := do
  let diff ← reduceFrom2p Z (← reduceFrom2p Z (← sub Z lhs rhs))
  return decide (∀ c : Fin 8, Z.getComponents diff c = 0)

def butterflyNew (x y twiddle : M512i) : Option (M512i × M512i) := do
  let twiddledY ← reduceAfterMul Z (← Avx.Checked.mm512MulEpu32 twiddle y)
  let increased ← Avx.Checked.mm512AddEpi64 x Z.doubleModulusx8
  let yNew ← reduceFrom4p Z (← Avx.Checked.mm512SubEpi64 increased twiddledY)
  let xNew ← reduceFrom4p Z (← Avx.Checked.mm512AddEpi64 x twiddledY)
  return (xNew, yNew)

def invButterflyNew (x y twiddle : M512i) : Option (M512i × M512i) := do
  let xNew ← reduceFrom4p Z (← Avx.Checked.mm512AddEpi64 x y)
  let increased ← Avx.Checked.mm512AddEpi64 x Z.doubleModulusx8
  let diff ← reduceFrom4p Z (← Avx.Checked.mm512SubEpi64 increased y)
  let yNew ← reduceAfterMul Z (← Avx.Checked.mm512MulEpu32 twiddle diff)
  return (xNew, yNew)

end Checked

/-! ## They succeed on representatives -/

namespace Checked

variable {Z : SpecialZnx8 K} {x y z w : M512i} {f g h : Fin 8 → Z.ComponentRing}

/-- The numbers two reduction steps bring below `2p`. -/
def MulRange (Z : SpecialZnx8 K) (n : ℕ) : Prop :=
  n ≤ 2 ^ 63 ∧ n / 2 ^ K < 2 ^ 32 ∧ n / 2 ^ K * Z.alpha ≤ 2 * 2 ^ K * Z.alpha

theorem reduceStep_eq (hx : ∀ c, lane x c ≤ 2 ^ 63 ∧ lane x c / 2 ^ K < 2 ^ 32) :
    reduceStep Z x = some (Z.reduceStep x) := by
  have hp := Z.modulus_le
  have hquo : ∀ c, lane (mm512SrliEpi64 K x) c = lane x c / 2 ^ K := fun c => lane_srli K
  have hle : ∀ c, lane x c / 2 ^ K * Z.modulus ≤ lane x c := fun c =>
    (Nat.mul_le_mul_left _ (Nat.sub_le _ _)).trans (Nat.div_mul_le_self _ _)
  have hfit : ∀ c, lane (mm512SrliEpi64 K x) c < 2 ^ 32 ∧ lane Z.modulusx8 c < 2 ^ 32 ∧
      lane (mm512SrliEpi64 K x) c * lane Z.modulusx8 c ≤ 2 ^ 63 := fun c => by
    rw [hquo, lane_modulusx8]
    exact ⟨(hx c).2, by omega, (hle c).trans (hx c).1⟩
  have hsub : ∀ c, lane (mm512MulEpu32 (mm512SrliEpi64 K x) Z.modulusx8) c ≤ lane x c := fun c => by
    rw [lane_mulEpu32 (hfit c).1 (hfit c).2.1, hquo, lane_modulusx8]
    exact hle c
  simp only [reduceStep, Avx.Checked.mm512MulEpu32, if_pos hfit, Avx.Checked.mm512SubEpi64,
    Option.bind_eq_bind, Option.bind_some, if_pos hsub]
  rfl

theorem reduceAfterMul_eq (hx : ∀ c, MulRange Z (lane x c)) :
    reduceAfterMul Z x = some (Z.reduceAfterMul x) := by
  have hpos : 0 < 2 ^ K := Nat.two_pow_pos K
  have ha := Z.alpha_sq_le
  have h2 := Z.two_pow_le
  have hstep : ∀ c, lane (Z.reduceStep x) c ≤ 2 ^ 63 ∧ lane (Z.reduceStep x) c / 2 ^ K < 2 ^ 32 :=
      fun c => by
    obtain ⟨-, hq, hqa⟩ := hx c
    have hm := Nat.mod_lt (lane x c) hpos
    have hlt : lane (Z.reduceStep x) c < 2 ^ K * (2 * Z.alpha + 1) := by
      rw [Z.lane_reduceStep hq]
      linarith
    have hb : 2 ^ K * (2 * Z.alpha + 1) ≤ 2 ^ 30 * (2 ^ 30 + 1) := Nat.mul_le_mul h2 (by omega)
    have hd := (Nat.div_lt_iff_lt_mul hpos).mpr (mul_comm (2 ^ K) _ ▸ hlt)
    exact ⟨by omega, by omega⟩
  rw [reduceAfterMul, reduceStep_eq fun c => ⟨(hx c).1, (hx c).2.1⟩]
  exact reduceStep_eq hstep

/-- Subtracting `y` where a lane is above it. -/
theorem subMask_eq (hx : ∀ c, lane x c < 2 ^ 63) (hy : ∀ c, lane y c < 2 ^ 63) :
    (do let toReduce ← Avx.Checked.mm512CmpgtEpi64Mask x y
        Avx.Checked.mm512SubEpi64 x (mm512Mask y toReduce)) =
      some (mm512SubEpi64 x (mm512Mask y (mm512CmpgtEpi64Mask x y))) := by
  have hsub : ∀ c, lane (mm512Mask y (mm512CmpgtEpi64Mask x y)) c ≤ lane x c := fun c => by
    rw [lane_mask, cmpgt_eq (hx c) (hy c)]
    split
    next hlt => exact (of_decide_eq_true hlt).le
    next => exact Nat.zero_le _
  simp only [Avx.Checked.mm512CmpgtEpi64Mask, if_pos fun c => And.intro (hx c) (hy c),
    Option.bind_eq_bind, Option.bind_some, Avx.Checked.mm512SubEpi64, if_pos hsub]

theorem reduceFrom2p_eq (hx : ∀ c, lane x c < 2 ^ 63) : reduceFrom2p Z x = some (Z.reduceFrom2p x) :=
  subMask_eq hx fun c => by have := Z.modulus_le; rw [lane_modulusx8]; omega

theorem reduceFrom4p_eq (hx : ∀ c, lane x c < 2 ^ 63) : reduceFrom4p Z x = some (Z.reduceFrom4p x) :=
  subMask_eq hx fun c => by have := Z.modulus_le; rw [lane_doubleModulusx8]; omega

theorem add_some (hxy : ∀ c, lane x c + lane y c ≤ 2 ^ 63) :
    Avx.Checked.mm512AddEpi64 x y = some (mm512AddEpi64 x y) := if_pos hxy

theorem sub_some (hxy : ∀ c, lane y c ≤ lane x c) :
    Avx.Checked.mm512SubEpi64 x y = some (mm512SubEpi64 x y) :=
  if_pos hxy

theorem mul_some (hxy : ∀ c, lane x c < 2 ^ 32 ∧ lane y c < 2 ^ 32 ∧ lane x c * lane y c ≤ 2 ^ 63) :
    Avx.Checked.mm512MulEpu32 x y = some (mm512MulEpu32 x y) := if_pos hxy

/-- A lane of representatives is small. -/
theorem rep_lt (hx : Z.Rep x f) (c : Fin 8) : lane x c ≤ 2 ^ 31 := by
  have hp := Z.modulus_le
  have := (hx c).1
  omega

theorem increased (hx : Z.Rep x f) (c : Fin 8) :
    lane (mm512AddEpi64 x Z.doubleModulusx8) c = lane x c + 2 * Z.modulus := by
  have hp := Z.modulus_le
  have hb := rep_lt hx c
  rw [lane_add (by rw [lane_doubleModulusx8]; omega), lane_doubleModulusx8]

theorem add_eq (hx : Z.Rep x f) (hy : Z.Rep y g) : add Z x y = some (Z.add x y) := by
  have hb : ∀ c, lane x c + lane y c ≤ 2 ^ 32 := fun c => by
    have := rep_lt hx c
    have := rep_lt hy c
    omega
  have hs : ∀ c, lane (mm512AddEpi64 x y) c < 2 ^ 63 := fun c => by
    have := hb c
    rw [lane_add (by omega)]
    omega
  rw [add, add_some fun c => (hb c).trans (by norm_num)]
  exact reduceFrom4p_eq hs

/-- A difference as `sub_assign` and the butterflies form it. -/
theorem diff_eq (hx : Z.Rep x f) (hy : Z.Rep y g) :
    (do let increased ← Avx.Checked.mm512AddEpi64 x Z.doubleModulusx8
        let diff ← Avx.Checked.mm512SubEpi64 increased y
        reduceFrom4p Z diff) =
      some (Z.reduceFrom4p (mm512SubEpi64 (mm512AddEpi64 x Z.doubleModulusx8) y)) := by
  have hp := Z.modulus_le
  have hle : ∀ c, lane y c ≤ lane (mm512AddEpi64 x Z.doubleModulusx8) c := fun c => by
    have := (hy c).1
    rw [increased hx]
    omega
  have hd : ∀ c, lane (mm512SubEpi64 (mm512AddEpi64 x Z.doubleModulusx8) y) c < 2 ^ 63 := fun c => by
    have := rep_lt hx c
    rw [lane_sub (hle c), increased hx]
    omega
  rw [add_some fun c => by have := rep_lt hx c; rw [lane_doubleModulusx8]; omega]
  simp only [Option.bind_eq_bind, Option.bind_some, sub_some hle]
  exact reduceFrom4p_eq hd

theorem sub_eq (hx : Z.Rep x f) (hy : Z.Rep y g) : sub Z x y = some (Z.sub x y) := diff_eq hx hy

theorem negate_eq (hx : Z.Rep x f) : negate Z x = some (Z.negate x) :=
  sub_some fun c => by rw [lane_doubleModulusx8]; exact (hx c).1

/-- The range of products and of sums of up to `p` summands after a reduction. -/
theorem mulRange_of_le {n : ℕ} (h : n ≤ 2 * Z.modulus * (Z.modulus + 1)) : MulRange Z n := by
  have hset : lane (mm512Set1Epi64 (BitVec.ofNat 64 n)) 0 = n := lane_set1 (by
    have hb : 2 * Z.modulus * (Z.modulus + 1) ≤ 2 * 2 ^ 30 * (2 ^ 30 + 1) :=
      Nat.mul_le_mul (Nat.mul_le_mul_left 2 Z.modulus_le) (Nat.add_le_add_right Z.modulus_le 1)
    omega)
  have hb : 2 * Z.modulus * (Z.modulus + 1) ≤ 2 * 2 ^ 30 * (2 ^ 30 + 1) :=
    Nat.mul_le_mul (Nat.mul_le_mul_left 2 Z.modulus_le) (Nat.add_le_add_right Z.modulus_le 1)
  have hq := Z.quo_le_of_le (x := mm512Set1Epi64 (BitVec.ofNat 64 n)) (c := 0) (hset.symm ▸ h)
  rw [hset] at hq
  exact ⟨by omega, hq⟩

/-- The range `reduce_after_mul` documents. -/
theorem mulRange_two_pow {n : ℕ} (h : n ≤ 2 ^ (2 * K + 1)) : MulRange Z n := by
  have h2 := Z.two_pow_le
  have hpow : 2 ^ (2 * K + 1) = 2 ^ K * (2 * 2 ^ K) := by ring
  have hq : n / 2 ^ K ≤ 2 * 2 ^ K := Nat.div_le_of_le_mul (hpow ▸ h)
  have hb : 2 ^ K * (2 * 2 ^ K) ≤ 2 ^ 30 * (2 * 2 ^ 30) := Nat.mul_le_mul h2 (by omega)
  exact ⟨by omega, by omega, Nat.mul_le_mul_right _ hq⟩

/-- A product with one factor `≤ p`. -/
theorem product (hx : ∀ c, lane x c ≤ Z.modulus) (hy : Z.Rep y g) :
    Avx.Checked.mm512MulEpu32 x y = some (mm512MulEpu32 x y) ∧
      ∀ c, lane (mm512MulEpu32 x y) c ≤ Z.modulus * (2 * Z.modulus) := by
  have hp := Z.modulus_le
  have hfit : ∀ c, lane x c < 2 ^ 32 ∧ lane y c < 2 ^ 32 ∧
      lane x c * lane y c ≤ Z.modulus * (2 * Z.modulus) :=
    fun c => by
      have hxc := hx c
      have hyc := rep_lt hy c
      exact ⟨by omega, by omega, Nat.mul_le_mul hxc (hy c).1⟩
  have hpp : Z.modulus * (2 * Z.modulus) ≤ 2 ^ 30 * (2 * 2 ^ 30) := Nat.mul_le_mul hp (by omega)
  refine ⟨mul_some fun c => ⟨(hfit c).1, (hfit c).2.1, (hfit c).2.2.trans (by omega)⟩, fun c => ?_⟩
  rw [lane_mulEpu32 (hfit c).1 (hfit c).2.1]
  exact (hfit c).2.2

theorem mulRange_product {n : ℕ} (h : n ≤ Z.modulus * (2 * Z.modulus)) : MulRange Z n :=
  mulRange_of_le (h.trans (by nlinarith))

theorem reduced_le (hx : Z.Rep x f) (c : Fin 8) : lane (Z.reduceFrom2p x) c ≤ Z.modulus :=
  (Z.reduceFrom2p_spec (hx c).1).1

theorem reduceFrom2p_rep_eq (hx : Z.Rep x f) : reduceFrom2p Z x = some (Z.reduceFrom2p x) :=
  reduceFrom2p_eq fun c => (rep_lt hx c).trans_lt (by norm_num)

theorem mul_eq (hx : Z.Rep x f) (hy : Z.Rep y g) : mul Z x y = some (Z.mul x y) := by
  obtain ⟨hprod, hle⟩ := product (reduced_le hx) hy
  rw [mul, reduceFrom2p_rep_eq hx]
  simp only [Option.bind_eq_bind, Option.bind_some, hprod]
  exact reduceAfterMul_eq fun c => mulRange_product (hle c)

theorem fma_eq (hx : Z.Rep x f) (hy : Z.Rep y g) (hz : Z.Rep z h) :
    fma Z x y z = some (Z.fma x y z) := by
  have hp := Z.modulus_le
  obtain ⟨hprod, hle⟩ := product (reduced_le hx) hy
  have hpp : Z.modulus * (2 * Z.modulus) ≤ 2 ^ 30 * (2 * 2 ^ 30) := Nat.mul_le_mul hp (by omega)
  have hsum : ∀ c, lane (mm512MulEpu32 (Z.reduceFrom2p x) y) c + lane z c ≤ 2 ^ 63 := fun c => by
    have := hle c
    have := rep_lt hz c
    omega
  rw [fma, reduceFrom2p_rep_eq hx]
  simp only [Option.bind_eq_bind, Option.bind_some, hprod, add_some hsum]
  refine reduceAfterMul_eq fun c => mulRange_of_le ?_
  have := hle c
  have := (hz c).1
  rw [lane_add (by have := hsum c; omega)]
  linarith

theorem simdSmallestPositiveLift_eq (hx : Z.Rep x f) :
    simdSmallestPositiveLift Z x = some (Z.simdSmallestPositiveLift x) := by
  rw [simdSmallestPositiveLift, reduceFrom2p_rep_eq hx]
  refine sub_some fun c => ?_
  rw [lane_mask, cmpeq_eq]
  split
  next he => exact (of_decide_eq_true he).ge
  next => exact Nat.zero_le _

theorem eqEl_eq (hx : Z.Rep x f) (hy : Z.Rep y g) : eqEl Z x y = some (Z.eqEl x y) := by
  have hd := hx.sub hy
  simp only [eqEl, sub_eq hx hy, reduceFrom2p_rep_eq hd, reduceFrom2p_rep_eq hd.reduceFrom2p,
    Option.bind_eq_bind, Option.bind_some]
  rfl

/-! ## Butterflies and sums -/

/-- The twiddled element of a butterfly, for a fully reduced twiddle. -/
theorem rep_twiddled (hw : Z.Rep w f) (hle : ∀ c, lane w c ≤ Z.modulus) (hy : Z.Rep y g) :
    Z.Rep (Z.reduceAfterMul (mm512MulEpu32 w y)) (f * g) := fun c => by
  have hp := Z.modulus_le
  have hwc := hle c
  have hyc := rep_lt hy c
  have hm : lane (mm512MulEpu32 w y) c = lane w c * lane y c := lane_mulEpu32 (by omega) (by omega)
  have hr := Z.lane_reduceAfterMul_le (x := mm512MulEpu32 w y) (c := c)
    (((product hle hy).2 c).trans (by nlinarith))
  refine ⟨hr.1, ?_⟩
  rw [hr.2, hm, Nat.cast_mul, (hw c).2, (hy c).2, Pi.mul_apply]

theorem twiddled_eq (hle : ∀ c, lane w c ≤ Z.modulus) (hy : Z.Rep y g) :
    (do reduceAfterMul Z (← Avx.Checked.mm512MulEpu32 w y)) =
      some (Z.reduceAfterMul (mm512MulEpu32 w y)) := by
  obtain ⟨hprod, hb⟩ := product hle hy
  simp only [hprod, Option.bind_eq_bind, Option.bind_some]
  exact reduceAfterMul_eq fun c => mulRange_product (hb c)

theorem butterflyNew_eq (hx : Z.Rep x f) (hy : Z.Rep y g) (hw : Z.Rep w h)
    (hle : ∀ c, lane w c ≤ Z.modulus) :
    butterflyNew Z x y w = some (Z.butterflyNew x y w) := by
  have ht := rep_twiddled hw hle hy
  have hd := diff_eq hx ht
  have ha := add_eq hx ht
  have he := twiddled_eq hle hy
  simp only [add, Option.bind_eq_bind] at hd ha he
  simp only [butterflyNew, Option.bind_eq_bind]
  rw [← Option.bind_assoc, he, Option.bind_some, ← Option.bind_assoc, ← Option.bind_assoc]
  rw [Option.bind_assoc (x := Avx.Checked.mm512AddEpi64 x Z.doubleModulusx8), hd, Option.bind_some,
    ← Option.bind_assoc, ha]
  rfl

theorem invButterflyNew_eq (hx : Z.Rep x f) (hy : Z.Rep y g) (hle : ∀ c, lane w c ≤ Z.modulus) :
    invButterflyNew Z x y w = some (Z.invButterflyNew x y w) := by
  have hd := diff_eq hx hy
  have ha := add_eq hx hy
  have he := twiddled_eq hle (hx.sub hy)
  simp only [add, Option.bind_eq_bind] at hd ha he
  simp only [invButterflyNew, Option.bind_eq_bind]
  rw [← Option.bind_assoc, ha, Option.bind_some, ← Option.bind_assoc, ← Option.bind_assoc]
  rw [Option.bind_assoc (x := Avx.Checked.mm512AddEpi64 x Z.doubleModulusx8), hd, Option.bind_some,
    ← Option.bind_assoc]
  rw [show (Z.reduceFrom4p (mm512SubEpi64 (mm512AddEpi64 x Z.doubleModulusx8) y)) =
    Z.sub x y from rfl, he]
  rfl

theorem rep_butterflyNew (hx : Z.Rep x f) (hy : Z.Rep y g) (hw : Z.Rep w h)
    (hle : ∀ c, lane w c ≤ Z.modulus) :
    Z.Rep (Z.butterflyNew x y w).1 (f + h * g) ∧ Z.Rep (Z.butterflyNew x y w).2 (f - h * g) :=
  ⟨hx.add (rep_twiddled hw hle hy), hx.sub (rep_twiddled hw hle hy)⟩

theorem rep_invButterflyNew (hx : Z.Rep x f) (hy : Z.Rep y g) (hw : Z.Rep w h)
    (hle : ∀ c, lane w c ≤ Z.modulus) :
    Z.Rep (Z.invButterflyNew x y w).1 (f + g) ∧ Z.Rep (Z.invButterflyNew x y w).2 (h * (f - g)) :=
  ⟨hx.add hy, rep_twiddled hw hle (hx.sub hy)⟩

/-- The sum before a reduction stays in its range. -/
theorem sumStep_eq {acc : M512i × ℕ} (ha : SumRep Z acc f) (hx : Z.Rep x g) :
    sumStep Z acc x = some (Z.sumStep acc x) := by
  have hp := Z.modulus_le
  have hred := reduceAfterMul_eq fun c => mulRange_of_le (ha.lane_le c)
  have hbig : 2 * Z.modulus * (Z.modulus + 1) ≤ 2 * 2 ^ 30 * (2 ^ 30 + 1) :=
    Nat.mul_le_mul (Nat.mul_le_mul_left 2 hp) (Nat.add_le_add_right hp 1)
  have hacc : ∀ c, lane acc.1 c + lane x c ≤ 2 ^ 63 := fun c => by
    have := ha.lane_le c
    have := rep_lt hx c
    omega
  have hreduced : ∀ c, lane (Z.reduceAfterMul acc.1) c + lane x c ≤ 2 ^ 63 := fun c => by
    have := rep_lt ha.reduce c
    have := rep_lt hx c
    omega
  by_cases hi : acc.2 = Z.modulus
  · simp [sumStep, SpecialZnx8.sumStep, hi, hred, add_some hreduced]
  · simp [sumStep, SpecialZnx8.sumStep, hi, add_some hacc]

theorem sum_eq {els : List M512i} {fs : List (Fin 8 → Z.ComponentRing)}
    (hl : List.Forall₂ Z.Rep els fs) :
    sum Z els = some (Z.sum els) := by
  have hrun : ∀ (acc : M512i × ℕ) (f : Fin 8 → Z.ComponentRing), SumRep Z acc f →
      els.foldlM (sumStep Z) acc = some (els.foldl Z.sumStep acc) ∧
        SumRep Z (els.foldl Z.sumStep acc) (f + fs.sum) := by
    induction hl with
    | nil => intro acc f ha; exact ⟨rfl, by simpa using ha⟩
    | cons hx _ ih =>
      intro acc f ha
      rw [List.foldlM_cons, sumStep_eq ha hx, List.foldl_cons, List.sum_cons, ← add_assoc]
      exact ih _ _ (ha.step hx)
  have h0 : SumRep Z (Z.zero, 0) 0 := ⟨Nat.zero_le _, fun c => by simpa using Rep.zero c⟩
  obtain ⟨he, hs⟩ := hrun _ _ h0
  rw [sum, he]
  exact reduceAfterMul_eq fun c => mulRange_of_le (hs.lane_le c)

/-- Equality of elements is equality mod `p`. -/
theorem eqEl_iff (hx : Z.Rep x f) (hy : Z.Rep y g) : Z.eqEl x y = true ↔ f = g := by
  have hp := Z.modulus_le
  have hd := (hx.sub hy).reduceFrom2p
  have hcomp : ∀ c, Z.getComponents (Z.reduceFrom2p (Z.reduceFrom2p (Z.sub x y))) c = f c - g c :=
      fun c => by
    have hle := reduced_le hd c
    have h := toInt_compress (x := Z.reduceFrom2p (Z.reduceFrom2p (Z.sub x y))) (c := c) (by omega)
    simp only [SpecialZnx8.getComponents, Positions.getElem_pos, h, Int.cast_natCast]
    exact (hd.reduceFrom2p c).2
  simp only [SpecialZnx8.eqEl, hcomp, decide_eq_true_eq, sub_eq_zero]
  exact funext_iff.symm

theorem rep_reduceAfterMul (hx : ∀ c, lane x c ≤ 2 ^ (2 * K + 1)) :
    Z.Rep (Z.reduceAfterMul x) fun c => lane x c := fun c =>
  have hr : MulRange Z (lane x c) := mulRange_two_pow (hx c)
  Z.reduceAfterMul_of_quo hr.2.1 hr.2.2

end Checked

/-- A computation in which no lane wraps, on representatives of `f`. -/
def Exact (Z : SpecialZnx8 K) (checked : Option M512i) (x : M512i) (f : Fin 8 → Z.ComponentRing) :
    Prop :=
  checked = some x ∧ Z.Rep x f

/-- **The lazily reduced arithmetic is exact.** On representatives `≤ 2p` every
operation of the ring gives representatives of its result, and no lane on the
way wraps. -/
theorem specialZnx8_exact (Z : SpecialZnx8 K) :
    (∀ {x y : M512i} {f g : Fin 8 → Z.ComponentRing}, Z.Rep x f → Z.Rep y g →
      Z.Exact (Checked.add Z x y) (Z.add x y) (f + g) ∧
      Z.Exact (Checked.sub Z x y) (Z.sub x y) (f - g) ∧
      Z.Exact (Checked.negate Z x) (Z.negate x) (-f) ∧
      Z.Exact (Checked.mul Z x y) (Z.mul x y) (f * g) ∧
      (∀ {z h}, Z.Rep z h → Z.Exact (Checked.fma Z x y z) (Z.fma x y z) (f * g + h)) ∧
      (∀ {w h}, Z.Rep w h → (∀ c, lane w c ≤ Z.modulus) →
        (Checked.butterflyNew Z x y w = some (Z.butterflyNew x y w) ∧
          Z.Rep (Z.butterflyNew x y w).1 (f + h * g) ∧ Z.Rep (Z.butterflyNew x y w).2 (f - h * g)) ∧
        Checked.invButterflyNew Z x y w = some (Z.invButterflyNew x y w) ∧
          Z.Rep (Z.invButterflyNew x y w).1 (f + g) ∧ Z.Rep (Z.invButterflyNew x y w).2 (h * (f - g))) ∧
      (Checked.simdSmallestPositiveLift Z x = some (Z.simdSmallestPositiveLift x) ∧
        ∀ c, lane (Z.simdSmallestPositiveLift x) c = (f c).val) ∧
      (Checked.eqEl Z x y = some (Z.eqEl x y) ∧ (Z.eqEl x y = true ↔ f = g)) ∧
      (1 ≤ Z.alpha → uncompress (compress x) = x)) ∧
    (∀ {els : List M512i} {fs : List (Fin 8 → Z.ComponentRing)}, List.Forall₂ Z.Rep els fs →
      Z.Exact (Checked.sum Z els) (Z.sum els) fs.sum) ∧
    ∀ {x : M512i}, (∀ c, lane x c ≤ 2 ^ (2 * K + 1)) →
      Z.Exact (Checked.reduceAfterMul Z x) (Z.reduceAfterMul x) fun c => lane x c := by
  refine ⟨fun {x y f g} hx hy => ⟨⟨Checked.add_eq hx hy, hx.add hy⟩, ⟨Checked.sub_eq hx hy, hx.sub hy⟩,
    ⟨Checked.negate_eq hx, hx.negate⟩, ⟨Checked.mul_eq hx hy, hx.mul hy⟩,
    fun hz => ⟨Checked.fma_eq hx hy hz, hx.fma hy hz⟩, fun hw hle => ⟨⟨?_, ?_⟩, ?_, ?_⟩,
    ⟨?_, ?_⟩, ⟨?_, ?_⟩,
    fun ha => hx.uncompress_compress ha⟩, fun hl => ⟨Checked.sum_eq hl, Rep.sum hl⟩,
    fun hx => ⟨Checked.reduceAfterMul_eq fun c => Checked.mulRange_two_pow (hx c),
      Checked.rep_reduceAfterMul hx⟩⟩
  · exact Checked.butterflyNew_eq hx hy hw hle
  · exact Checked.rep_butterflyNew hx hy hw hle
  · exact Checked.invButterflyNew_eq hx hy hle
  · exact Checked.rep_invButterflyNew hx hy hw hle
  · exact Checked.simdSmallestPositiveLift_eq hx
  · exact lane_simdSmallestPositiveLift hx
  · exact Checked.eqEl_eq hx hy
  · exact Checked.eqEl_iff hx hy

/-- At ones, for `K = 26` and `alpha = 2^12 - 1`. -/
theorem specialZnx8_exact_ones :
    let Z : SpecialZnx8 26 := ⟨2 ^ 12 - 1, by decide, by decide, by decide⟩
    Z.Exact (Checked.mul Z Z.one Z.one) (Z.mul Z.one Z.one) (1 * 1) ∧
      Z.Exact (Checked.sum Z [Z.one, Z.one]) (Z.sum [Z.one, Z.one])
        ([1, 1] : List (Fin 8 → Z.ComponentRing)).sum ∧
      Z.Exact (Checked.reduceAfterMul Z Z.one) (Z.reduceAfterMul Z.one) fun c => lane Z.one c := by
  intro Z
  obtain ⟨hops, hsum, hred⟩ := specialZnx8_exact Z
  exact ⟨(hops Rep.one Rep.one).2.2.2.1, hsum (.cons Rep.one (.cons Rep.one .nil)), hred (by decide)⟩

end SpecialZnx8

end Dnspir
