/-
The register operations of `avx`, lane by lane.

A 512-bit register is its eight 64-bit lanes; a compressed element is eight
32-bit ones. Every operation works on the lanes separately, which the `simp`
lemmas say: lane `c` of a result is the scalar operation on lane `c` of the
arguments. The AVX-512 intrinsics and the emulation with two AVX2 halves
compute the same lanes.
-/
import Mathlib
import Dnspir.Lib.Positions

namespace Dnspir

/-- `m512i`, as eight 64-bit lanes. -/
abbrev M512i := Vector (BitVec 64) 8

/-- `m256i`, as eight 32-bit lanes. -/
abbrev M256i := Vector (BitVec 32) 8

/-- `m512_mask`: one truth value a lane. -/
abbrev M512Mask := Vector Bool 8

namespace Avx

def mm512Set1Epi64 (a : BitVec 64) : M512i := Vector.replicate 8 a

def mm512SrliEpi64 (k : ℕ) (x : M512i) : M512i := x.map fun a : BitVec 64 => a >>> k

def mm512SraiEpi64 (k : ℕ) (x : M512i) : M512i := x.map (·.sshiftRight k)

def mm512SlliEpi64 (k : ℕ) (x : M512i) : M512i := x.map fun a : BitVec 64 => a <<< k

def mm512SubEpi64 (lhs rhs : M512i) : M512i := Vector.zipWith (· - ·) lhs rhs

def mm512AddEpi64 (lhs rhs : M512i) : M512i := Vector.zipWith (· + ·) lhs rhs

/-- The product of the low 32 bits of each lane, unsigned. -/
def mm512MulEpu32 (lhs rhs : M512i) : M512i :=
  Vector.zipWith (fun a b => (a.setWidth 32).setWidth 64 * (b.setWidth 32).setWidth 64) lhs rhs

/-- Signed comparison. -/
def mm512CmpgtEpi64Mask (lhs rhs : M512i) : M512Mask := Vector.zipWith (fun a b => b.slt a) lhs rhs

def mm512CmpeqEpi64Mask (lhs rhs : M512i) : M512Mask := Vector.zipWith (fun a b => a == b) lhs rhs

/-- Keeps the lanes the mask selects and zeroes the others. -/
def mm512Mask (x : M512i) (mask : M512Mask) : M512i :=
  Vector.zipWith (fun a m => if m then a else 0) x mask

/-- Widens eight `i32` with their sign. -/
def mm512Cvtepi32Epi64 (x : M256i) : M512i := x.map (·.signExtend 64)

variable (c : ℕ) (hc : c < 8) (x y : M512i)

@[simp] theorem getElem_set1 (a : BitVec 64) : (mm512Set1Epi64 a)[c] = a := by
  simp [mm512Set1Epi64]

@[simp] theorem getElem_srli (k : ℕ) : (mm512SrliEpi64 k x)[c] = x[c] >>> k := by
  simp [mm512SrliEpi64]

@[simp] theorem getElem_srai (k : ℕ) : (mm512SraiEpi64 k x)[c] = x[c].sshiftRight k := by
  simp [mm512SraiEpi64]

@[simp] theorem getElem_slli (k : ℕ) : (mm512SlliEpi64 k x)[c] = x[c] <<< k := by
  simp [mm512SlliEpi64]

@[simp] theorem getElem_sub : (mm512SubEpi64 x y)[c] = x[c] - y[c] := by
  simp [mm512SubEpi64]

@[simp] theorem getElem_add : (mm512AddEpi64 x y)[c] = x[c] + y[c] := by
  simp [mm512AddEpi64]

@[simp] theorem getElem_mulEpu32 : (mm512MulEpu32 x y)[c] =
    (x[c].setWidth 32).setWidth 64 * (y[c].setWidth 32).setWidth 64 := by
  simp [mm512MulEpu32]

@[simp] theorem getElem_cmpgt : (mm512CmpgtEpi64Mask x y)[c] = y[c].slt x[c] := by
  simp [mm512CmpgtEpi64Mask]

@[simp] theorem getElem_cmpeq : (mm512CmpeqEpi64Mask x y)[c] = (x[c] == y[c]) := by
  simp [mm512CmpeqEpi64Mask]

@[simp] theorem getElem_mask (m : M512Mask) : (mm512Mask x m)[c] = if m[c] then x[c] else 0 := by
  simp [mm512Mask]

@[simp] theorem getElem_cvtepi32 (x : M256i) :
    (mm512Cvtepi32Epi64 x)[c] = x[c].signExtend 64 := by
  simp [mm512Cvtepi32Epi64]

end Avx

end Dnspir
