/-
The register operations of `avx` in the build with `emulate_avx512`: a
512-bit register is two AVX2 halves, and a mask two halves whose lanes are
all ones or all zeros.

The other build is `Avx`. `Code` is an expression over the operations both
builds have, and `Stores` a straight-line program that writes the values of
such expressions to the registers of a memory. Each build runs them: `run` with
the AVX-512 operations, `runEmulated` with the halves. A shift by more than 31
is `unreachable!` in the emulation, so `runEmulated` can fail.

`EngineCode` is an expression over what the engine computes in registers: the
ring of `simd_zn` with its butterflies, the gadget digits, and the products of
the kernel. Its value is that of the functions of the model; `compile` is the
text of those functions as register code, the same in both builds.
-/
import Dnspir.PerformPir

namespace Dnspir

/-! ## AVX2 -/

/-- `__m256i`, as four 64-bit lanes. -/
abbrev Lanes256 := Vector (BitVec 64) 4

namespace Avx2

def mm256Set1Epi64x (a : BitVec 64) : Lanes256 := Vector.replicate 4 a

def mm256SrliEpi64 (k : ℕ) (x : Lanes256) : Lanes256 := x.map fun a : BitVec 64 => a >>> k

def mm256SlliEpi64 (k : ℕ) (x : Lanes256) : Lanes256 := x.map fun a : BitVec 64 => a <<< k

def mm256SubEpi64 (lhs rhs : Lanes256) : Lanes256 := Vector.zipWith (· - ·) lhs rhs

def mm256AddEpi64 (lhs rhs : Lanes256) : Lanes256 := Vector.zipWith (· + ·) lhs rhs

/-- The product of the low 32 bits of each lane, unsigned. -/
def mm256MulEpu32 (lhs rhs : Lanes256) : Lanes256 :=
  Vector.zipWith (fun a b => (a.setWidth 32).setWidth 64 * (b.setWidth 32).setWidth 64) lhs rhs

/-- A lane of a comparison: all ones where it holds. -/
def onesIf (b : Bool) : BitVec 64 := if b then BitVec.allOnes 64 else 0

/-- Signed comparison. -/
def mm256CmpgtEpi64 (lhs rhs : Lanes256) : Lanes256 :=
  Vector.zipWith (fun a b => onesIf (b.slt a)) lhs rhs

def mm256CmpeqEpi64 (lhs rhs : Lanes256) : Lanes256 :=
  Vector.zipWith (fun a b => onesIf (a == b)) lhs rhs

def mm256AndSi256 (lhs rhs : Lanes256) : Lanes256 := Vector.zipWith (· &&& ·) lhs rhs

def mm256OrSi256 (lhs rhs : Lanes256) : Lanes256 := Vector.zipWith (· ||| ·) lhs rhs

/-- Widens four `i32` with their sign. -/
def mm256Cvtepi32Epi64 (x : Vector (BitVec 32) 4) : Lanes256 := x.map (·.signExtend 64)

end Avx2

namespace Emulated

open Avx2

/-! ## The operations -/

/-- `m512i`. -/
structure M512i where
  data0 : Lanes256
  data1 : Lanes256
  deriving DecidableEq

/-- `m512_mask`. -/
structure M512Mask where
  data0 : Lanes256
  data1 : Lanes256

def mm512Set1Epi64 (a : BitVec 64) : M512i := ⟨mm256Set1Epi64x a, mm256Set1Epi64x a⟩

/-- `None` where the lane number is `unreachable!`. -/
def mm512ExtractEpi64 (k : ℕ) (a : M512i) : Option (BitVec 64) :=
  if h : k < 4 then some a.data0[k] else if h : k < 8 then some a.data1[k - 4] else none

def mm512SetrEpi64 (e0 e1 e2 e3 e4 e5 e6 e7 : BitVec 64) : M512i :=
  ⟨#v[e0, e1, e2, e3], #v[e4, e5, e6, e7]⟩

/-- The arms of the shifts, which go to 31. -/
def mm512SrliEpi64 (k : ℕ) (x : M512i) : Option M512i :=
  if k ≤ 31 then some ⟨mm256SrliEpi64 k x.data0, mm256SrliEpi64 k x.data1⟩ else none

/-- `_mm256_srai_epi64`, which AVX2 does not have. -/
def mm256SraiEpi64 (k : ℕ) (x : Lanes256) : Lanes256 :=
  let signMask := mm256SlliEpi64 (64 - k) (mm256CmpgtEpi64 (mm256Set1Epi64x 0) x)
  mm256OrSi256 (mm256SrliEpi64 k x) signMask

def mm512SraiEpi64 (k : ℕ) (x : M512i) : Option M512i :=
  if k ≤ 31 then some ⟨mm256SraiEpi64 k x.data0, mm256SraiEpi64 k x.data1⟩ else none

def mm512SlliEpi64 (k : ℕ) (x : M512i) : Option M512i :=
  if k ≤ 31 then some ⟨mm256SlliEpi64 k x.data0, mm256SlliEpi64 k x.data1⟩ else none

def mm512SubEpi64 (lhs rhs : M512i) : M512i :=
  ⟨mm256SubEpi64 lhs.data0 rhs.data0, mm256SubEpi64 lhs.data1 rhs.data1⟩

def mm512AddEpi64 (lhs rhs : M512i) : M512i :=
  ⟨mm256AddEpi64 lhs.data0 rhs.data0, mm256AddEpi64 lhs.data1 rhs.data1⟩

def mm512MulEpu32 (lhs rhs : M512i) : M512i :=
  ⟨mm256MulEpu32 lhs.data0 rhs.data0, mm256MulEpu32 lhs.data1 rhs.data1⟩

def mm512CmpgtEpi64Mask (lhs rhs : M512i) : M512Mask :=
  ⟨mm256CmpgtEpi64 lhs.data0 rhs.data0, mm256CmpgtEpi64 lhs.data1 rhs.data1⟩

def mm512CmpeqEpi64Mask (lhs rhs : M512i) : M512Mask :=
  ⟨mm256CmpeqEpi64 lhs.data0 rhs.data0, mm256CmpeqEpi64 lhs.data1 rhs.data1⟩

def mm512Mask (x : M512i) (mask : M512Mask) : M512i :=
  ⟨mm256AndSi256 x.data0 mask.data0, mm256AndSi256 x.data1 mask.data1⟩

/-- `_mm256_extractf128_si256`, as four `i32`. -/
def mm256Extractf128Si256 (k : Fin 2) (x : M256i) : Vector (BitVec 32) 4 :=
  Vector.ofFn fun c => x[4 * k.val + c.val]

def mm512Cvtepi32Epi64 (x : M256i) : M512i :=
  ⟨mm256Cvtepi32Epi64 (mm256Extractf128Si256 0 x), mm256Cvtepi32Epi64 (mm256Extractf128Si256 1 x)⟩

/-- All eight lanes, as the callers extract them. -/
def extractLanes (x : M512i) : Option (Vector (BitVec 64) 8) :=
  Vector.ofFnM fun c => mm512ExtractEpi64 c x

/-- A register of the values of eight lanes, as the callers set them. -/
def setLanes (e : Vector (BitVec 64) 8) : M512i :=
  mm512SetrEpi64 e[0] e[1] e[2] e[3] e[4] e[5] e[6] e[7]

/-- The 512-bit register the halves make up. -/
def M512i.join (x : M512i) : Dnspir.M512i :=
  Vector.ofFn fun c : Fin 8 => if h : c.val < 4 then x.data0[c.val] else x.data1[c.val - 4]

end Emulated

/-! ## Register code -/

/-- An expression over the register operations. `mapLanes` extracts the eight
lanes and sets a register of what `f` makes of each; the masks are those of a
comparison. -/
inductive Code (ι : Type) where
  | reg (i : ι)
  | set1Epi64 (a : BitVec 64)
  | setrEpi64 (e : Vector (BitVec 64) 8)
  | cvtepi32Epi64 (x : M256i)
  | mapLanes (f : BitVec 64 → BitVec 64) (x : Code ι)
  | srliEpi64 (k : ℕ) (x : Code ι)
  | sraiEpi64 (k : ℕ) (x : Code ι)
  | slliEpi64 (k : ℕ) (x : Code ι)
  | subEpi64 (lhs rhs : Code ι)
  | addEpi64 (lhs rhs : Code ι)
  | mulEpu32 (lhs rhs : Code ι)
  | maskCmpgt (x lhs rhs : Code ι)
  | maskCmpeq (x lhs rhs : Code ι)

namespace Code

variable {ι : Type}

/-- The value in the AVX-512 build. -/
def run (regs : ι → M512i) : Code ι → M512i
  | reg i => regs i
  | set1Epi64 a => Avx.mm512Set1Epi64 a
  | setrEpi64 e => e
  | cvtepi32Epi64 x => Avx.mm512Cvtepi32Epi64 x
  | mapLanes f x => (x.run regs).map f
  | srliEpi64 k x => Avx.mm512SrliEpi64 k (x.run regs)
  | sraiEpi64 k x => Avx.mm512SraiEpi64 k (x.run regs)
  | slliEpi64 k x => Avx.mm512SlliEpi64 k (x.run regs)
  | subEpi64 lhs rhs => Avx.mm512SubEpi64 (lhs.run regs) (rhs.run regs)
  | addEpi64 lhs rhs => Avx.mm512AddEpi64 (lhs.run regs) (rhs.run regs)
  | mulEpu32 lhs rhs => Avx.mm512MulEpu32 (lhs.run regs) (rhs.run regs)
  | maskCmpgt x lhs rhs =>
    Avx.mm512Mask (x.run regs) (Avx.mm512CmpgtEpi64Mask (lhs.run regs) (rhs.run regs))
  | maskCmpeq x lhs rhs =>
    Avx.mm512Mask (x.run regs) (Avx.mm512CmpeqEpi64Mask (lhs.run regs) (rhs.run regs))

open Emulated in
/-- The value in the emulating build, if no operation fails. -/
def runEmulated (regs : ι → Emulated.M512i) : Code ι → Option Emulated.M512i
  | reg i => some (regs i)
  | set1Epi64 a => some (mm512Set1Epi64 a)
  | setrEpi64 e => some (setLanes e)
  | cvtepi32Epi64 x => some (mm512Cvtepi32Epi64 x)
  | mapLanes f x => do
    let lanes ← extractLanes (← x.runEmulated regs)
    return setLanes (lanes.map f)
  | srliEpi64 k x => do mm512SrliEpi64 k (← x.runEmulated regs)
  | sraiEpi64 k x => do mm512SraiEpi64 k (← x.runEmulated regs)
  | slliEpi64 k x => do mm512SlliEpi64 k (← x.runEmulated regs)
  | subEpi64 lhs rhs => do return mm512SubEpi64 (← lhs.runEmulated regs) (← rhs.runEmulated regs)
  | addEpi64 lhs rhs => do return mm512AddEpi64 (← lhs.runEmulated regs) (← rhs.runEmulated regs)
  | mulEpu32 lhs rhs => do return mm512MulEpu32 (← lhs.runEmulated regs) (← rhs.runEmulated regs)
  | maskCmpgt x lhs rhs => do
    let x ← x.runEmulated regs
    return mm512Mask x (mm512CmpgtEpi64Mask (← lhs.runEmulated regs) (← rhs.runEmulated regs))
  | maskCmpeq x lhs rhs => do
    let x ← x.runEmulated regs
    return mm512Mask x (mm512CmpeqEpi64Mask (← lhs.runEmulated regs) (← rhs.runEmulated regs))

/-- Every shift has an arm in the emulation. -/
def ShiftsFit : Code ι → Prop
  | reg _ | set1Epi64 _ | setrEpi64 _ | cvtepi32Epi64 _ => True
  | mapLanes _ x => x.ShiftsFit
  | srliEpi64 k x | sraiEpi64 k x | slliEpi64 k x => k ≤ 31 ∧ x.ShiftsFit
  | subEpi64 lhs rhs | addEpi64 lhs rhs | mulEpu32 lhs rhs => lhs.ShiftsFit ∧ rhs.ShiftsFit
  | maskCmpgt x lhs rhs | maskCmpeq x lhs rhs => x.ShiftsFit ∧ lhs.ShiftsFit ∧ rhs.ShiftsFit

end Code

/-- A straight-line program: each step writes the value of an expression to a register. -/
abbrev Stores (ι : Type) := List (ι × Code ι)

namespace Stores

variable {ι : Type} [DecidableEq ι]

def run (p : Stores ι) (regs : ι → M512i) : ι → M512i :=
  p.foldl (fun regs (i, code) => Function.update regs i (code.run regs)) regs

def runEmulated (p : Stores ι) (regs : ι → Emulated.M512i) : Option (ι → Emulated.M512i) :=
  p.foldlM (fun regs (i, code) => do return Function.update regs i (← code.runEmulated regs)) regs

end Stores

/-! ## The code of the engine -/

namespace Code

variable {ι : Type} {K : ℕ} (Z : SpecialZnx8 K)

def modulusx8 : Code ι := set1Epi64 (BitVec.ofNat 64 Z.modulus)

def doubleModulusx8 : Code ι := set1Epi64 (BitVec.ofNat 64 (2 * Z.modulus))

def reduceStep (data : Code ι) : Code ι := subEpi64 data (mulEpu32 (srliEpi64 K data) (modulusx8 Z))

def reduceAfterMul (data : Code ι) : Code ι := reduceStep Z (reduceStep Z data)

def reduceFrom2p (data : Code ι) : Code ι := subEpi64 data (maskCmpgt (modulusx8 Z) data (modulusx8 Z))

def reduceFrom4p (data : Code ι) : Code ι :=
  subEpi64 data (maskCmpgt (doubleModulusx8 Z) data (doubleModulusx8 Z))

def simdSmallestPositiveLift (el : Code ι) : Code ι :=
  subEpi64 (reduceFrom2p Z el) (maskCmpeq (modulusx8 Z) (reduceFrom2p Z el) (modulusx8 Z))

def reduceFromU64 (data : Code ι) : Code ι :=
  mapLanes (fun a => BitVec.ofNat 64 (a.toNat : Z.ComponentRing).val) data

def mul (lhs rhs : Code ι) : Code ι := reduceAfterMul Z (mulEpu32 (reduceFrom2p Z lhs) rhs)

def fma (lhs rhs summand : Code ι) : Code ι :=
  reduceAfterMul Z (addEpi64 (mulEpu32 (reduceFrom2p Z lhs) rhs) summand)

/-- `x + 2p - y`, reduced: the difference of the ring and of the butterflies. -/
def sub (x y : Code ι) : Code ι := reduceFrom4p Z (subEpi64 (addEpi64 x (doubleModulusx8 Z)) y)

def twiddledY (y twiddle : Code ι) : Code ι := reduceAfterMul Z (mulEpu32 twiddle y)

def shortestLift (x y : Code ι) : Code ι :=
  let avxQ := set1Epi64 (BitVec.ofNat 64 fixedQ)
  let avxQHalf := set1Epi64 (BitVec.ofNat 64 (fixedQ / 2))
  let shortestLift := addEpi64 (mulEpu32 x (modulusx8 rnsBase1)) (mulEpu32 y (modulusx8 rnsBase0))
  let shortestLift := subEpi64 shortestLift (maskCmpgt avxQ shortestLift avxQ)
  subEpi64 shortestLift (maskCmpgt avxQ shortestLift avxQHalf)

def digitHigh (current : Code ι) : Code ι :=
  sraiEpi64 log2B (addEpi64 current (set1Epi64 (BitVec.ofNat 64 (2 ^ log2B / 2))))

def digitLow (current : Code ι) : Code ι := subEpi64 current (slliEpi64 log2B (digitHigh current))

def digitOffset : Code ι :=
  set1Epi64 (BitVec.ofNat 64 (((fixedQ >>> log2B) / Z.modulus + 2) * Z.modulus))

end Code

/-- An expression over the register functions of the engine. -/
inductive EngineCode (ι : Type) where
  | reg (i : ι)
  | fromComponents {K : ℕ} (Z : SpecialZnx8 K) (values : Fin 8 → Z.ComponentRing)
  | fromInt {K : ℕ} (Z : SpecialZnx8 K) (value : ℤ)
  | uncompress (val : CompressedZnx8El)
  | reduceFromU64 {K : ℕ} (Z : SpecialZnx8 K) (data : EngineCode ι)
  | revDelegate {K : ℕ} (Z : SpecialZnx8 K) (el : EngineCode ι)
  | simdSmallestPositiveLift {K : ℕ} (Z : SpecialZnx8 K) (el : EngineCode ι)
  | add {K : ℕ} (Z : SpecialZnx8 K) (lhs rhs : EngineCode ι)
  | sub {K : ℕ} (Z : SpecialZnx8 K) (lhs rhs : EngineCode ι)
  | negate {K : ℕ} (Z : SpecialZnx8 K) (el : EngineCode ι)
  | mul {K : ℕ} (Z : SpecialZnx8 K) (lhs rhs : EngineCode ι)
  | fma {K : ℕ} (Z : SpecialZnx8 K) (lhs rhs summand : EngineCode ι)
  | butterflyX {K : ℕ} (Z : SpecialZnx8 K) (x y twiddle : EngineCode ι)
  | butterflyY {K : ℕ} (Z : SpecialZnx8 K) (x y twiddle : EngineCode ι)
  | invButterflyX {K : ℕ} (Z : SpecialZnx8 K) (x y twiddle : EngineCode ι)
  | invButterflyY {K : ℕ} (Z : SpecialZnx8 K) (x y twiddle : EngineCode ι)
  | shortestLift (x y : EngineCode ι)
  | digitHigh (current : EngineCode ι)
  | digitLow (current : EngineCode ι)
  | embedDigit {K : ℕ} (Z : SpecialZnx8 K) (low : EngineCode ι)
  | addProduct (current : EngineCode ι) (x y : CompressedZnx8El)
  | addRaw (x y : EngineCode ι)

namespace EngineCode

variable {ι : Type}

/-- The value, by the functions of the model. -/
def eval (regs : ι → M512i) : EngineCode ι → M512i
  | reg i => regs i
  | fromComponents Z values => Z.fromComponents values
  | fromInt Z value => Z.fromInt value
  | uncompress val => SpecialZnx8.uncompress val
  | reduceFromU64 Z data => Z.reduceFromU64 (data.eval regs)
  | revDelegate Z el => Z.revDelegate (el.eval regs)
  | simdSmallestPositiveLift Z el => Z.simdSmallestPositiveLift (el.eval regs)
  | add Z lhs rhs => Z.add (lhs.eval regs) (rhs.eval regs)
  | sub Z lhs rhs => Z.sub (lhs.eval regs) (rhs.eval regs)
  | negate Z el => Z.negate (el.eval regs)
  | mul Z lhs rhs => Z.mul (lhs.eval regs) (rhs.eval regs)
  | fma Z lhs rhs summand => Z.fma (lhs.eval regs) (rhs.eval regs) (summand.eval regs)
  | butterflyX Z x y twiddle => (Z.butterflyNew (x.eval regs) (y.eval regs) (twiddle.eval regs)).1
  | butterflyY Z x y twiddle => (Z.butterflyNew (x.eval regs) (y.eval regs) (twiddle.eval regs)).2
  | invButterflyX Z x y twiddle => (Z.invButterflyNew (x.eval regs) (y.eval regs) (twiddle.eval regs)).1
  | invButterflyY Z x y twiddle => (Z.invButterflyNew (x.eval regs) (y.eval regs) (twiddle.eval regs)).2
  | shortestLift x y => PIRDatabase.shortestLift (x.eval regs) (y.eval regs)
  | digitHigh current => (PIRDatabase.splitDigit (current.eval regs)).1
  | digitLow current => (PIRDatabase.splitDigit (current.eval regs)).2
  | embedDigit Z low => Z.simdFromPSqr (Avx.mm512AddEpi64 (low.eval regs) (PIRDatabase.digitOffset Z))
  | addProduct current x y => PIRDatabase.addProduct (current.eval regs) x y
  | addRaw x y => Avx.mm512AddEpi64 (x.eval regs) (y.eval regs)

open Code in
def compile : EngineCode ι → Code ι
  | reg i => .reg i
  | fromComponents _ values => setrEpi64 (Vector.ofFn fun c => BitVec.ofNat 64 (values c).val)
  | fromInt Z value => set1Epi64 (BitVec.ofNat 64 (value : Z.ComponentRing).val)
  | uncompress val => setrEpi64 (val.map (·.signExtend 64))
  | reduceFromU64 Z data => Code.reduceFromU64 Z data.compile
  | revDelegate Z el => reduceFrom2p Z el.compile
  | simdSmallestPositiveLift Z el => Code.simdSmallestPositiveLift Z el.compile
  | add Z lhs rhs => reduceFrom4p Z (addEpi64 lhs.compile rhs.compile)
  | sub Z lhs rhs => Code.sub Z lhs.compile rhs.compile
  | negate Z el => subEpi64 (doubleModulusx8 Z) el.compile
  | mul Z lhs rhs => Code.mul Z lhs.compile rhs.compile
  | fma Z lhs rhs summand => Code.fma Z lhs.compile rhs.compile summand.compile
  | butterflyX Z x y twiddle =>
    reduceFrom4p Z (addEpi64 x.compile (twiddledY Z y.compile twiddle.compile))
  | butterflyY Z x y twiddle => Code.sub Z x.compile (twiddledY Z y.compile twiddle.compile)
  | invButterflyX Z x y _ => reduceFrom4p Z (addEpi64 x.compile y.compile)
  | invButterflyY Z x y twiddle =>
    reduceAfterMul Z (mulEpu32 twiddle.compile (Code.sub Z x.compile y.compile))
  | shortestLift x y => Code.shortestLift x.compile y.compile
  | digitHigh current => Code.digitHigh current.compile
  | digitLow current => Code.digitLow current.compile
  | embedDigit Z low => reduceAfterMul Z (addEpi64 low.compile (digitOffset Z))
  | addProduct current x y => addEpi64 current.compile (mulEpu32 (cvtepi32Epi64 x) (cvtepi32Epi64 y))
  | addRaw x y => addEpi64 x.compile y.compile

end EngineCode

/-- A straight-line program of the engine. -/
abbrev EngineStores (ι : Type) := List (ι × EngineCode ι)

namespace EngineStores

variable {ι : Type} [DecidableEq ι]

def eval (p : EngineStores ι) (regs : ι → M512i) : ι → M512i :=
  p.foldl (fun regs (i, code) => Function.update regs i (code.eval regs)) regs

def compile (p : EngineStores ι) : Stores ι := p.map fun (i, code) => (i, code.compile)

end EngineStores

/-- The registers of one coefficient's gadget decomposition in `partial_gal`. -/
inductive DigitReg
  | x | y | entry0 | entry1 | current | high | low | d00 | d01 | d10 | d11
  deriving DecidableEq

open EngineCode in
/-- The body of the decomposition, assignment by assignment. -/
def decomposeStores (q2InvModQ1 : rnsBase0.ComponentRing) (q1InvModQ2 : rnsBase1.ComponentRing) :
    EngineStores DigitReg := [
  (.entry0, simdSmallestPositiveLift rnsBase0
    (mul rnsBase0 (reg .x) (fromComponents rnsBase0 fun _ => q2InvModQ1))),
  (.entry1, simdSmallestPositiveLift rnsBase1
    (mul rnsBase1 (reg .y) (fromComponents rnsBase1 fun _ => q1InvModQ2))),
  (.current, shortestLift (reg .entry0) (reg .entry1)),
  (.high, digitHigh (reg .current)),
  (.low, digitLow (reg .current)),
  (.d00, embedDigit rnsBase0 (reg .low)),
  (.d01, embedDigit rnsBase1 (reg .low)),
  (.current, reg .high),
  (.high, digitHigh (reg .current)),
  (.low, digitLow (reg .current)),
  (.d10, embedDigit rnsBase0 (reg .low)),
  (.d11, embedDigit rnsBase1 (reg .low))]

end Dnspir
