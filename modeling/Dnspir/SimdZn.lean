/-
Arithmetic in `Z/pZ` for `p = 2^K - alpha`, eight elements at a time
(`simd_zn`), with representatives lazily reduced: a lane may hold any
representative `≤ 2p`.

`SpecialZnx8` carries the assertions of `check_invariant` as fields, so a
ring whose reductions could go out of range cannot be built. The elements of
its component ring `Zn` are those of `ZMod p`; `smallest_positive_lift` is
`ZMod.val`, and `smallest_lift` the centred lift `ZMod.valMinAbs`.
-/
import Dnspir.Avx

namespace Dnspir

namespace Zn

/-- `checked_div` of `Zn`: the extended gcd `d = s * rhs` of `rhs` and the
modulus, and the quotient of `lhs` by `d` when that is exact. -/
def checkedDiv {n : ℕ} (lhs rhs : ZMod n) : Option (ZMod n) :=
  let d := rhs.val.gcd n
  if d ∣ lhs.val then some ((lhs.val / d : ℕ) * rhs⁻¹) else none

/-- `invert`: the checked quotient of one. -/
def invert {n : ℕ} (x : ZMod n) : Option (ZMod n) := checkedDiv 1 x

/-- `from_int_promise_reduced`: an integer that is not reduced breaks the
promise. -/
def fromIntPromiseReduced (n : ℕ) (x : ℤ) : Option (ZMod n) :=
  if 0 ≤ x ∧ x < n then some (x : ZMod n) else none

end Zn

open Avx

/-- The ring of eight residues mod `2^K - alpha`, with what `check_invariant`
asserts of it. -/
structure SpecialZnx8 (K : ℕ) where
  alpha : ℕ
  shift_le : 2 * 2 ^ K ≤ 2 ^ 32 - 1
  alpha_sq_le : 2 * alpha + 2 * alpha * alpha ≤ 2 ^ K
  alpha_lt : 2 * alpha < 2 ^ K - alpha

/-- A compressed element: the low 32 bits of each lane, as `i32`. -/
abbrev CompressedZnx8El := M256i

namespace SpecialZnx8

variable {K : ℕ}

/-- `new`, failing where `check_invariant` does. -/
def new (K : ℕ) (alpha : ℤ) : Option (SpecialZnx8 K) :=
  if h : 0 ≤ alpha ∧ 2 * 2 ^ K ≤ 2 ^ 32 - 1 ∧
      2 * alpha.toNat + 2 * alpha.toNat * alpha.toNat ≤ 2 ^ K ∧
      2 * alpha.toNat < 2 ^ K - alpha.toNat then
    some ⟨alpha.toNat, h.2.1, h.2.2.1, h.2.2.2⟩
  else none

variable (Z : SpecialZnx8 K)

def modulus : ℕ := 2 ^ K - Z.alpha

/-- The ring a single lane represents. -/
abbrev ComponentRing := ZMod Z.modulus

def modulusx8 : M512i := mm512Set1Epi64 (BitVec.ofNat 64 Z.modulus)

def doubleModulusx8 : M512i := mm512Set1Epi64 (BitVec.ofNat 64 (2 * Z.modulus))

/-- The largest representative a lane may hold. -/
def reprBound : ℕ := Z.modulus * 2

/-! ## Components and compression -/

/-- Each lane cut to `i32`. -/
def compress (val : M512i) : CompressedZnx8El := val.map fun a : BitVec 64 => a.setWidth 32

def uncompress (val : CompressedZnx8El) : M512i := mm512Cvtepi32Epi64 val

def getComponents (val : M512i) : Fin 8 → Z.ComponentRing :=
  fun c => ((compress val)[c].toInt : Z.ComponentRing)

def fromComponents (values : Fin 8 → Z.ComponentRing) : M512i :=
  Vector.ofFn fun c => BitVec.ofNat 64 (values c).val

/-! ## Reductions -/

/-- Subtracts `data >> K` times the modulus. -/
def reduceStep (data : M512i) : M512i :=
  let approxQuo := mm512SrliEpi64 K data
  mm512SubEpi64 data (mm512MulEpu32 approxQuo Z.modulusx8)

def reduceFromU64 (data : M512i) : M512i :=
  Z.fromComponents fun c => (data[c].toNat : Z.ComponentRing)

/-- From integers `≤ 2^(2K+1)` to representatives `≤ 2p`. -/
def reduceAfterMul (data : M512i) : M512i :=
  let reduced1 := Z.reduceStep data
  Z.reduceStep reduced1

/-- From integers `≤ 2p` to representatives `≤ p`. -/
def reduceFrom2p (data : M512i) : M512i :=
  let toReduce := mm512CmpgtEpi64Mask data Z.modulusx8
  let subtract := mm512Mask Z.modulusx8 toReduce
  mm512SubEpi64 data subtract

/-- From integers `≤ 4p` to representatives `≤ 2p`. -/
def reduceFrom4p (data : M512i) : M512i :=
  let toReduce := mm512CmpgtEpi64Mask data Z.doubleModulusx8
  let subtract := mm512Mask Z.doubleModulusx8 toReduce
  mm512SubEpi64 data subtract

def simdSmallestPositiveLift (el : M512i) : M512i :=
  let result := Z.reduceFrom2p el
  mm512SubEpi64 result (mm512Mask Z.modulusx8 (mm512CmpeqEpi64Mask result Z.modulusx8))

def simdFromPSqr (x : M512i) : M512i := Z.reduceAfterMul x

/-! ## Ring operations -/

def fromInt (value : ℤ) : M512i :=
  mm512Set1Epi64 (BitVec.ofNat 64 (value : Z.ComponentRing).val)

def zero : M512i := Z.fromInt 0

def one : M512i := Z.fromInt 1

def add (lhs rhs : M512i) : M512i :=
  let sum := mm512AddEpi64 lhs rhs
  Z.reduceFrom4p sum

def sub (lhs rhs : M512i) : M512i :=
  let increased := mm512AddEpi64 lhs Z.doubleModulusx8
  let diff := mm512SubEpi64 increased rhs
  Z.reduceFrom4p diff

def negate (lhs : M512i) : M512i := mm512SubEpi64 Z.doubleModulusx8 lhs

/-- `reduce_after_mul` takes products up to `2p²` only, so one factor is
reduced first. -/
def mul (lhs rhs : M512i) : M512i :=
  let prod := mm512MulEpu32 (Z.reduceFrom2p lhs) rhs
  Z.reduceAfterMul prod

def fma (lhs rhs summand : M512i) : M512i :=
  let prod := mm512AddEpi64 (mm512MulEpu32 (Z.reduceFrom2p lhs) rhs) summand
  Z.reduceAfterMul prod

/-- One summand of `sum`: the accumulator is reduced every `p` additions. -/
def sumStep (acc : M512i × ℕ) (x : M512i) : M512i × ℕ :=
  let acc := if acc.2 = Z.modulus then (Z.reduceAfterMul acc.1, 0) else acc
  (mm512AddEpi64 acc.1 x, acc.2 + 1)

def sum (els : List M512i) : M512i := Z.reduceAfterMul (els.foldl Z.sumStep (Z.zero, 0)).1

def eqEl (lhs rhs : M512i) : Bool :=
  let diff := Z.reduceFrom2p (Z.reduceFrom2p (Z.sub lhs rhs))
  decide (∀ c : Fin 8, Z.getComponents diff c = 0)

def checkedLeftDiv (lhs rhs : M512i) : Option M512i :=
  let lhs := Z.getComponents (Z.reduceFrom2p lhs)
  let rhs := Z.getComponents (Z.reduceFrom2p rhs)
  (Vector.ofFnM fun c => Zn.checkedDiv (lhs c) (rhs c)).map fun q => Z.fromComponents fun c => q[c]

/-- `invert` of the ring traits: the checked quotient of one. -/
def invert (x : M512i) : Option M512i := Z.checkedLeftDiv Z.one x

/-- `rev_delegate` of the ring with fully reduced representatives. -/
def revDelegate (el : M512i) : M512i := Z.reduceFrom2p el

/-! ## Butterflies

The hooks the Cooley–Tukey FFT calls; the twiddle is fully reduced. -/

def butterflyNew (x y twiddle : M512i) : M512i × M512i :=
  let twiddledY := Z.reduceAfterMul (mm512MulEpu32 twiddle y)
  (Z.reduceFrom4p (mm512AddEpi64 x twiddledY),
    Z.reduceFrom4p (mm512SubEpi64 (mm512AddEpi64 x Z.doubleModulusx8) twiddledY))

def invButterflyNew (x y twiddle : M512i) : M512i × M512i :=
  (Z.reduceFrom4p (mm512AddEpi64 x y),
    Z.reduceAfterMul (mm512MulEpu32 twiddle
      (Z.reduceFrom4p (mm512SubEpi64 (mm512AddEpi64 x Z.doubleModulusx8) y))))

end SpecialZnx8

end Dnspir
