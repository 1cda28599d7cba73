/-
The offline half of query evaluation: `partial_gal`, `preprocess`, and the
conversions between ring elements and the residue form.

`partialGal` applies a homomorphic automorphism to the `a`-part of a
ciphertext and returns the gadget digits with it, which `preprocess` stores
for the online half to multiply with the `b`-parts of the Galois keys.
-/
import Dnspir.SetDb

namespace Dnspir

open SpecialZnx8 Avx

namespace PIRDatabase

variable {N t : ℕ}

/-! ## Conversions -/

def toSimdElement (fm : FeanorMath) (db : PIRDatabase N t) (els : Fin 8 → CipherRing N) :
    Option (RNSEl N) := do
  let fst ← weightedNtt fm rnsBase0 db.zeta.1 db.lenNNtts.1 (Vector.ofFn fun i : Fin N =>
    rnsBase0.fromComponents fun c => (((els c).coeff i).valMinAbs : ZMod _))
  let snd ← weightedNtt fm rnsBase1 db.zeta.2 db.lenNNtts.2 (Vector.ofFn fun i : Fin N =>
    rnsBase1.fromComponents fun c => (((els c).coeff i).valMinAbs : ZMod _))
  return ⟨fst, snd⟩

def toCompressedSimdElement (fm : FeanorMath) (db : PIRDatabase N t) (els : Fin 8 → CipherRing N) :
    Option (CompressedRNSEl N) := do
  let asSimd ← toSimdElement fm db els
  return ⟨asSimd.fst.map compress, asSimd.snd.map compress⟩

/-- The residue mod `q` with the given residues mod its two factors. -/
def crtCombine (q2InvModQ1 : rnsBase0.ComponentRing) (q1InvModQ2 : rnsBase1.ComponentRing)
    (x : rnsBase0.ComponentRing) (y : rnsBase1.ComponentRing) : ZMod fixedQ :=
  (rnsBase1.modulus : ZMod fixedQ) * ((x * q2InvModQ1).valMinAbs : ZMod fixedQ) +
    (rnsBase0.modulus : ZMod fixedQ) * ((y * q1InvModQ2).valMinAbs : ZMod fixedQ)

def fromSimdElement (fm : FeanorMath) (db : PIRDatabase N t) (el : RNSEl N) :
    Option (Fin 8 → CipherRing N) := do
  let fst ← invWeightedNtt fm rnsBase0 db.zeta.1 db.lenNNtts.1 el.fst
  let snd ← invWeightedNtt fm rnsBase1 db.zeta.2 db.lenNNtts.2 el.snd
  let q2InvModQ1 ← Zn.invert (rnsBase1.modulus : rnsBase0.ComponentRing)
  let q1InvModQ2 ← Zn.invert (rnsBase0.modulus : rnsBase1.ComponentRing)
  return fun k => ⟨fun i => crtCombine q2InvModQ1 q1InvModQ2
    (rnsBase0.getComponents fst[i] k) (rnsBase1.getComponents snd[i] k)⟩

/-! ## The homomorphic automorphism -/

/-- The slots of the image of `current` under `X -> X^g`. -/
def galSlots (g : ZMod (2 * N)) (zero : M512i) (current : Vector M512i N) :
    Option (Vector M512i N) := do
  let invG ← Zn.invert g
  (List.finRange N).foldlM (fun galResult (i : Fin N) => do
    let outG := invG * indexToGalois N i
    let outI ← galoisToIndex N outG
    if h : outI < N then some (galResult.set outI current[i]) else none) (Vector.replicate N zero)

/-- A multiple of the modulus that lifts the digits into the positive. -/
def digitOffset {K : ℕ} (Z : SpecialZnx8 K) : M512i :=
  mm512Set1Epi64 (BitVec.ofNat 64 (((fixedQ >>> log2B) / Z.modulus + 2) * Z.modulus))

/-- The centred representative of `q2 * x + q1 * y` mod `q`. -/
def shortestLift (x y : M512i) : M512i :=
  let avxQ := mm512Set1Epi64 (BitVec.ofNat 64 fixedQ)
  let avxQHalf := mm512Set1Epi64 (BitVec.ofNat 64 (fixedQ / 2))
  let shortestLift := mm512AddEpi64 (mm512MulEpu32 x rnsBase1.modulusx8)
    (mm512MulEpu32 y rnsBase0.modulusx8)
  let greaterThanQ := mm512CmpgtEpi64Mask shortestLift avxQ
  let shortestLift := mm512SubEpi64 shortestLift (mm512Mask avxQ greaterThanQ)
  let greaterThanQHalf := mm512CmpgtEpi64Mask shortestLift avxQHalf
  mm512SubEpi64 shortestLift (mm512Mask avxQ greaterThanQHalf)

/-- One gadget digit: the high part still to decompose, and the low part. -/
def splitDigit (current : M512i) : M512i × M512i :=
  let avxBHalf := mm512Set1Epi64 (BitVec.ofNat 64 (2 ^ log2B / 2))
  let high := mm512SraiEpi64 log2B (mm512AddEpi64 current avxBHalf)
  (high, mm512SubEpi64 current (mm512SlliEpi64 log2B high))

/-- The representatives of a digit in the two residue rings. -/
def embedDigit (low : M512i) : M512i × M512i :=
  (rnsBase0.simdFromPSqr (mm512AddEpi64 low (digitOffset rnsBase0)),
    rnsBase1.simdFromPSqr (mm512AddEpi64 low (digitOffset rnsBase1)))

/-- The two digits of one coefficient, each in the two residue rings. -/
def decomposeEntry (invQ2ModQ1 invQ1ModQ2 : M512i) (x y : M512i) : (M512i × M512i) × (M512i × M512i) :=
  let entry := (rnsBase0.simdSmallestPositiveLift (rnsBase0.mul x invQ2ModQ1),
    rnsBase1.simdSmallestPositiveLift (rnsBase1.mul y invQ1ModQ2))
  let current := shortestLift entry.1 entry.2
  let (high, low0) := splitDigit current
  let (_, low1) := splitDigit high
  (embedDigit low0, embedDigit low1)

/-- The inner product of the digits with the keys, in one residue ring. -/
def innerProduct {K : ℕ} (Z : SpecialZnx8 K) (d0 d1 k0 k1 : Vector M512i N) : Vector M512i N :=
  Vector.ofFn fun i => Z.sum [Z.mul d0[i] k0[i], Z.mul d1[i] k1[i]]

def partialGal (fm : FeanorMath) (zeta : M512i × M512i) (ntt : NTT 26 × NTT 25) (current : RNSEl N)
    (g : ZMod (2 * N)) (gkA : Vector (RNSEl N) 2) : Option (RNSEl N × Vector (RNSEl N) 2) := do
  let galResult0 ← galSlots g rnsBase0.zero current.fst
  let galResult1 ← galSlots g rnsBase1.zero current.snd
  let galResult0 ← invWeightedNtt fm rnsBase0 zeta.1 ntt.1 galResult0
  let galResult1 ← invWeightedNtt fm rnsBase1 zeta.2 ntt.2 galResult1
  let q2InvModQ1 ← Zn.invert (rnsBase1.modulus : rnsBase0.ComponentRing)
  let q1InvModQ2 ← Zn.invert (rnsBase0.modulus : rnsBase1.ComponentRing)
  let decomposed := Vector.ofFn fun i : Fin N =>
    decomposeEntry (rnsBase0.fromComponents fun _ => q2InvModQ1)
    (rnsBase1.fromComponents fun _ => q1InvModQ2) galResult0[i] galResult1[i]
  let d00 ← weightedNtt fm rnsBase0 zeta.1 ntt.1 (decomposed.map (·.1.1))
  let d01 ← weightedNtt fm rnsBase1 zeta.2 ntt.2 (decomposed.map (·.1.2))
  let d10 ← weightedNtt fm rnsBase0 zeta.1 ntt.1 (decomposed.map (·.2.1))
  let d11 ← weightedNtt fm rnsBase1 zeta.2 ntt.2 (decomposed.map (·.2.2))
  return (⟨innerProduct rnsBase0 d00 d10 gkA[0].fst gkA[1].fst,
    innerProduct rnsBase1 d01 d11 gkA[0].snd gkA[1].snd⟩, #v[⟨d00, d01⟩, ⟨d10, d11⟩])

/-! ## Preprocessing -/

/-- The stored element `i * N + j` of a slice. -/
def loadEntry (slice : Array CompressedZnx8El) (i : ℕ) : Option (Vector CompressedZnx8El N) :=
  Vector.ofFnM fun j : Fin N => slice[i * N + j]?

/-- `sum.k[j] = gal_sum.k[j] + qry_a.k[j] * transformed_entries.k[i * N + j]`. -/
def accumulate {K : ℕ} (Z : SpecialZnx8 K) (galSum qryA : Vector M512i N)
    (te : Vector CompressedZnx8El N) : Vector M512i N :=
  Vector.ofFn fun j => Z.add galSum[j] (Z.mul qryA[j] (uncompress te[j]))

def compressRNS (el : RNSEl N) : CompressedRNSEl N := ⟨el.fst.map compress, el.snd.map compress⟩

/-- One round of `preprocess_loop`, on `sum` and the digits stored so far. -/
def preprocessStep (fm : FeanorMath) (db : PIRDatabase N t) (qryA : RNSEl N) (gkA : Vector (RNSEl N) 2)
    (transformedEntries : CompressedSlices) (s : RNSEl N × Vector CompressedSlices 2) (i : ℕ) :
    Option (RNSEl N × Vector CompressedSlices 2) := do
  let (galSum, digits) ← partialGal fm db.zeta db.lenNNtts s.1 (IndexGroup.genH _) gkA
  let gk0 := CompressedSlices.writeChunk s.2[0] i (compressRNS digits[0])
  let gk1 := CompressedSlices.writeChunk s.2[1] i (compressRNS digits[1])
  let te0 ← loadEntry transformedEntries.fst i
  let te1 ← loadEntry transformedEntries.snd i
  return (⟨accumulate rnsBase0 galSum.fst qryA.fst te0,
    accumulate rnsBase1 galSum.snd qryA.snd te1⟩, #v[gk0, gk1])

def zeroRNS : RNSEl N := ⟨Vector.replicate N rnsBase0.zero, Vector.replicate N rnsBase1.zero⟩

/-- Whether both slices hold `size` elements. -/
def CompressedSlices.hasLen (s : CompressedSlices) (size : ℕ) : Prop :=
  s.fst.size = size ∧ s.snd.size = size

instance (s : CompressedSlices) (size : ℕ) : Decidable (CompressedSlices.hasLen s size) :=
  instDecidableAnd

def preprocessLoop (fm : FeanorMath) (db : PIRDatabase N t) (qryA : RNSEl N) (gkA : Vector (RNSEl N) 2)
    (innerProdGk : Vector CompressedSlices 2) (transformedEntries : CompressedSlices) :
    Option (RNSEl N × Vector CompressedSlices 2) :=
  let size := N * db.indexGroup.loopLen
  if CompressedSlices.hasLen innerProdGk[0] size ∧ CompressedSlices.hasLen innerProdGk[1] size ∧
      CompressedSlices.hasLen transformedEntries size then
    (List.finRange db.indexGroup.loopLen).foldlM
      (fun s i => preprocessStep fm db qryA gkA transformedEntries s i.val) (zeroRNS, innerProdGk)
  else none

/-- `expand`: the `a`-part a seed stands for. -/
def expand (fm : FeanorMath) (seed : Seed) : CipherRing N := fm.randomElement N seed

def addRNS (x y : RNSEl N) : RNSEl N :=
  ⟨Vector.ofFn fun j => rnsBase0.add x.fst[j] y.fst[j],
    Vector.ofFn fun j => rnsBase1.add x.snd[j] y.snd[j]⟩

def preprocess (fm : FeanorMath) (db : PIRDatabase N t) : Option (PIRDatabase N t) := do
  let gkA0 ← toSimdElement fm db fun _ => expand fm db.useSeeds.getGkSeeds[0]
  let gkA1 ← toSimdElement fm db fun _ => expand fm db.useSeeds.getGkSeeds[1]
  let qryA ← toSimdElement fm db fun _ => expand fm db.useSeeds.getQrySeeds[0]
  let (sum, innerProdGk) ←
    preprocessLoop fm db qryA #v[gkA0, gkA1] db.innerProdGk db.transformedEntries
  if db.indexGroup.requiresConj then
    let qryConjA ← toSimdElement fm db fun _ => expand fm db.useSeeds.getQrySeeds[1]
    let (sumConj, innerProdConjGk) ←
      preprocessLoop fm db qryConjA #v[gkA0, gkA1] db.innerProdConjGk db.transformedEntriesConj
    return { db with replyA := some (addRNS sum sumConj), innerProdGk, innerProdConjGk }
  else
    return { db with replyA := some sum, innerProdGk }

def setDb (fm : FeanorMath) (db : PIRDatabase N t) (entries : List (PlainRing t N)) :
    Option (PIRDatabase N t) := do
  let db ← setTransformedEntries fm db entries
  preprocess fm db

def getA (fm : FeanorMath) (db : PIRDatabase N t) : Option (Fin 8 → CipherRing N) := do
  fromSimdElement fm db (← db.replyA)

end PIRDatabase

end Dnspir
