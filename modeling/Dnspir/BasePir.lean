/-
One PIR shard (`base_pir`): index groups, the NTTs, and the state a database
keeps between queries.

`PIRDatabase` has the source's fields. The slices `create` carves out of the
memory it is given are arrays, since the kernel reads them by offsets and the
assertions compare their lengths; vectors of ring elements have their length
`N` in the type. `create` asserts that the ring rank is a power of two and
equal to the group's `N`, which here is the type's `N`; the alignment
assertions are about addresses and have no counterpart.

A panic is `none`. Parallel iterators are loops.
-/
import Dnspir.FeanorMath
import Dnspir.Permute

namespace Dnspir

open SpecialZnx8

def gkDigits : ℕ := 2
def simdCount : ℕ := 8
def log2B : ℕ := 26
def log2N : ℕ := 11

/-- The seeds the `a`-parts of ciphertexts are expanded from. -/
def seeds : Vector Seed 6 := #v[
  #v[0xda, 0xd2, 0x0c, 0x14, 0x2d, 0xeb, 0x8b, 0xb4, 0xd6, 0x63, 0x20, 0xee, 0x07, 0xb1, 0xc1, 0x90,
    0xec, 0x25, 0xc0, 0xa1, 0x54, 0x1c, 0xca, 0xf5, 0x98, 0xfa, 0x22, 0xff, 0xdf, 0xdd, 0x68, 0xba],
  #v[0xd3, 0xc5, 0xf6, 0xee, 0xb3, 0x3a, 0x4c, 0xf3, 0x33, 0x51, 0x6c, 0xe2, 0x73, 0xd5, 0x74, 0x76,
    0xb5, 0x79, 0x6c, 0xce, 0x9c, 0xf3, 0x37, 0xa1, 0x9c, 0x84, 0xbc, 0xbe, 0xa4, 0x3d, 0x2c, 0xb5],
  #v[0x95, 0x27, 0xb8, 0x6c, 0x30, 0xdc, 0x30, 0xcf, 0x1b, 0xb1, 0x74, 0xc3, 0xcd, 0x6c, 0xd7, 0x50,
    0x72, 0x09, 0xda, 0xa5, 0x4b, 0xbd, 0xb9, 0x99, 0x04, 0x14, 0x00, 0x08, 0x3d, 0x68, 0x24, 0x8a],
  #v[0x4c, 0xa2, 0xf6, 0x47, 0x8a, 0x58, 0x11, 0x91, 0x67, 0x67, 0x41, 0x00, 0x2a, 0x00, 0xed, 0xd1,
    0xac, 0x97, 0xf9, 0x30, 0x98, 0x0b, 0x7f, 0xbe, 0xf0, 0x33, 0xb4, 0x48, 0x23, 0x4b, 0x21, 0x6b],
  #v[0x98, 0xfc, 0x62, 0xc5, 0x17, 0x52, 0x0e, 0x5d, 0x29, 0xfc, 0x30, 0x7e, 0x73, 0xef, 0xb1, 0x0e,
    0x14, 0x18, 0xaa, 0x07, 0x0e, 0x32, 0x36, 0x4f, 0x89, 0x3f, 0xa8, 0xbd, 0x92, 0x13, 0x03, 0x27],
  #v[0xb3, 0x61, 0xdc, 0x94, 0x34, 0xdb, 0xba, 0xe9, 0x28, 0xe5, 0xc9, 0x64, 0xdc, 0x18, 0x02, 0x54,
    0x02, 0xfe, 0x81, 0xaa, 0xf7, 0x49, 0x17, 0x20, 0x8a, 0x6e, 0x6f, 0xd9, 0x55, 0x70, 0x2a, 0x21]]

/-- `rns_base.0`: the ring of the first factor. -/
def rnsBase0 : SpecialZnx8 26 := ⟨2 ^ 12 - 1, by decide, by decide, by decide⟩

/-- `rns_base.1`: the ring of the second factor. -/
def rnsBase1 : SpecialZnx8 25 := ⟨2 ^ 12 - 1, by decide, by decide, by decide⟩

/-- A checked quotient that must be an index. -/
def exactIndex (a b : ℤ) : Option ℕ := if b ∣ a ∧ 0 ≤ a / b then some (a / b).toNat else none

/-! ## Index groups -/

/-- The region of a database of rank `N` a lookup ranges over: the full
Galois group, or a subgroup of order `l`. -/
structure IndexGroup (N : ℕ) where
  l : ℕ
  valid : l = N ∨ 0 < l ∧ N % l = 0 ∧ l * 2 ≤ N
  deriving DecidableEq

namespace IndexGroup

def fullGroup (N : ℕ) : IndexGroup N := ⟨N, .inl rfl⟩

def subgroupOfSize (N size : ℕ) : Option (IndexGroup N) :=
  if h : 0 < size ∧ N % size = 0 ∧ size * 2 ≤ N then some ⟨size, .inr h⟩ else none

variable {N : ℕ} (g : IndexGroup N)

def groupOrder : ℕ := g.l

def loopLen : ℕ := if g.l < N then g.l else N / 2

def queryBasePower : ℕ := N / 2 / g.loopLen

def requiresConj : Bool := g.l == N

theorem groupOrder_eq (h : g.requiresConj) : g.groupOrder = N := by
  simpa [requiresConj, groupOrder] using h

/-- `gen_H`: the generator of the group of automorphisms. -/
def genH (m : ℕ) : ZMod m := 5

end IndexGroup

def indexToGalois {m : ℕ} (groupOrder idx : ℕ) : ZMod m := ((m / groupOrder * idx + 1 : ℕ) : ZMod m)

def galoisToIndex {m : ℕ} (groupOrder : ℕ) (g : ZMod m) : Option ℕ :=
  exactIndex ((g.val : ℤ) - 1) (m / groupOrder : ℕ)

/-! ## Seeds -/

inductive UsedSeeds
  | firstSet
  | secondSet
  deriving DecidableEq

namespace UsedSeeds

def getGkSeeds (_ : UsedSeeds) : Vector Seed 2 := #v[seeds[0], seeds[1]]

def getQrySeeds : UsedSeeds → Vector Seed 2
  | firstSet => #v[seeds[2], seeds[3]]
  | secondSet => #v[seeds[4], seeds[5]]

end UsedSeeds

/-! ## The state of a database -/

/-- A ring element in both residue rings, eight at a time. -/
structure RNSEl (N : ℕ) where
  fst : Vector M512i N
  snd : Vector M512i N

structure CompressedRNSEl (N : ℕ) where
  fst : Vector CompressedZnx8El N
  snd : Vector CompressedZnx8El N

/-- The two slices, one a residue ring, a table of ring elements is kept in. -/
structure CompressedSlices where
  fst : Array CompressedZnx8El
  snd : Array CompressedZnx8El

structure PIRDatabase (N t : ℕ) where
  indexGroup : IndexGroup N
  transformedEntries : CompressedSlices
  transformedEntriesConj : CompressedSlices
  /-- Empty until `preprocess` has run. -/
  replyA : Option (RNSEl N)
  innerProdGk : Vector CompressedSlices 2
  innerProdConjGk : Vector CompressedSlices 2
  lenNNtts : NTT 26 × NTT 25
  lenSubgroupOrderNtts : NTT 26 × NTT 25
  zeta : M512i × M512i
  useSeeds : UsedSeeds

namespace PIRDatabase

variable {N t : ℕ}

def requiredMemoryGeneral (indexGroup : IndexGroup N) : ℕ :=
  (gkDigits + 1) * 2 * N * indexGroup.groupOrder

/-- `get_CompressedZnx8El26` and its transmuted twin: the next `size`
elements of the memory. -/
def getCompressedZnx8El (size : ℕ) : StateT (Array CompressedZnx8El) Option (Array CompressedZnx8El) :=
  fun memory => if size ≤ memory.size then
    some (memory.extract 0 size, memory.extract size memory.size) else none

def getSlices (size : ℕ) : StateT (Array CompressedZnx8El) Option CompressedSlices := do
  return ⟨← getCompressedZnx8El size, ← getCompressedZnx8El size⟩

/-- The slices that exist for the conjugate only. -/
def getConjSlices (indexGroup : IndexGroup N) (size : ℕ) :
    StateT (Array CompressedZnx8El) Option CompressedSlices :=
  if indexGroup.requiresConj then getSlices size else pure ⟨#[], #[]⟩

/-- The root of unity of a residue ring, in every lane. -/
def createZeta (fm : FeanorMath) {K : ℕ} (Z : SpecialZnx8 K) (log2N : ℕ) : Option M512i := do
  let zeta ← fm.getPrimRootOfUnityPow2 Z.modulus (log2N + 1)
  return Z.fromComponents fun _ => zeta

/-- The table for the root `zeta^power`, computed with reduced representatives. -/
def createNtt (fm : FeanorMath) {K : ℕ} (Z : SpecialZnx8 K) (zeta : M512i) (power log2n : ℕ) : NTT K :=
  ⟨Z.revDelegate (fm.pow Z (Z.revDelegate zeta) power), log2n⟩

/-- The `rns_base` of `create`, with what is asserted of it. -/
def createRnsBase : Option (SpecialZnx8 26 × SpecialZnx8 25) := do
  let rns0 ← SpecialZnx8.new 26 (2 ^ 12 - 1)
  let rns1 ← SpecialZnx8.new 25 (2 ^ 12 - 1)
  if rns0.modulus = qFactor1 ∧ rns1.modulus = qFactor2 ∧ rns0.modulus * rns1.modulus = fixedQ then
    return (rns0, rns1)
  else none

def create (fm : FeanorMath) (t : ℕ) (indexGroup : IndexGroup N) (useSeeds : UsedSeeds)
    (memory : Array CompressedZnx8El) : Option (PIRDatabase N t) := do
  let log2N := Nat.clog 2 N
  if N = 2 ^ log2N ∧ requiredMemoryGeneral indexGroup = memory.size then
    -- These are `rnsBase0` and `rnsBase1`, the rings of the registers below.
    let _rnsBase ← createRnsBase
    let size := N * indexGroup.loopLen
    let (transformedEntries, memory) ← getSlices size memory
    let (transformedEntriesConj, memory) ← getConjSlices indexGroup size memory
    let (innerProdGk0, memory) ← getSlices size memory
    let (innerProdGk1, memory) ← getSlices size memory
    let (innerProdConjGk0, memory) ← getConjSlices indexGroup size memory
    let (innerProdConjGk1, _) ← getConjSlices indexGroup size memory
    let zeta0 ← createZeta fm rnsBase0 log2N
    let zeta1 ← createZeta fm rnsBase1 log2N
    let logSubgroupOrder := Nat.clog 2 indexGroup.groupOrder
    let subgroupPower := 2 * 2 ^ (log2N - logSubgroupOrder)
    return {
      indexGroup, transformedEntries, transformedEntriesConj
      replyA := none
      innerProdGk := #v[innerProdGk0, innerProdGk1]
      innerProdConjGk := #v[innerProdConjGk0, innerProdConjGk1]
      lenNNtts := (createNtt fm rnsBase0 zeta0 2 log2N, createNtt fm rnsBase1 zeta1 2 log2N)
      lenSubgroupOrderNtts := (createNtt fm rnsBase0 zeta0 subgroupPower logSubgroupOrder,
        createNtt fm rnsBase1 zeta1 subgroupPower logSubgroupOrder)
      zeta := (zeta0, zeta1)
      useSeeds }
  else none

/-! ## NTTs -/

/-- One round of `scaleByPowers`, on the values and `current_zeta`. -/
def scaleStep {K len : ℕ} (Z : SpecialZnx8 K) (zeta : M512i) (s : Vector M512i len × M512i)
    (i : Fin len) : Vector M512i len × M512i :=
  (s.1.set i (Z.mul s.1[i] s.2) i.isLt, Z.mul s.2 zeta)

/-- The loop the NTTs share: entry `i` is multiplied by `zeta^i`. -/
def scaleByPowers {K len : ℕ} (Z : SpecialZnx8 K) (zeta : M512i) (values : Vector M512i len) :
    Vector M512i len :=
  ((List.finRange len).foldl (scaleStep Z zeta) (values, Z.one)).1

def weightedNtt (fm : FeanorMath) {K len : ℕ} (Z : SpecialZnx8 K) (zeta : M512i) (fftTable : NTT K)
    (values : Vector M512i len) : Option (Vector M512i len) := do
  let zetaInv ← Z.invert zeta
  fftTable.fft fm Z (scaleByPowers Z zetaInv values)

def invWeightedNtt (fm : FeanorMath) {K len : ℕ} (Z : SpecialZnx8 K) (zeta : M512i) (fftTable : NTT K)
    (values : Vector M512i len) : Option (Vector M512i len) := do
  let values ← fftTable.invFft fm Z values
  return scaleByPowers Z zeta values

/-- The `galois_to_index` closure of `coset_ntt`: the position the FFT leaves
the evaluation at `base_zeta^galois_element` in. -/
def cosetIndex (l coset : ℕ) {m : ℕ} (galoisElement : ZMod m) : Option ℕ :=
  exactIndex (((-galoisElement).val : ℤ) - coset) (m / l : ℕ)

/-- The map `coset_ntt` permutes by. -/
def cosetPerm (indexGroup : IndexGroup N) (l coset : ℕ) (zetaPower : ZMod (2 * N)) (i : ℕ) : Option ℕ :=
  let g : ZMod (2 * N) := IndexGroup.genH _
  if indexGroup.requiresConj then
    if i < N / 2 then cosetIndex l coset (-zetaPower * g ^ i)
    else cosetIndex l coset (zetaPower * g ^ (i - N / 2))
  else cosetIndex l coset (-zetaPower * g ^ i)

def cosetNtt (fm : FeanorMath) {K l : ℕ} (indexGroup : IndexGroup N) (Z : SpecialZnx8 K)
    (baseZeta : M512i) (zetaPower : ZMod (2 * N)) (fftTable : NTT K) (values : Vector M512i l) :
    Option (Vector M512i l) := do
  let m := 2 * N
  -- `query_base_power` divides by the length of the loop
  if l = indexGroup.groupOrder ∧ indexGroup.loopLen ≠ 0 ∧
      (Zn.checkedDiv zetaPower (indexGroup.queryBasePower : ZMod (2 * N))).isSome then
    let coset := zetaPower.val % (m / l)
    let zeta := fm.pow Z baseZeta coset
    let zetaInv ← Z.invert zeta
    let values ← fftTable.fft fm Z (scaleByPowers Z zetaInv values)
    permute values (cosetPerm indexGroup l coset zetaPower)
  else none

end PIRDatabase

end Dnspir
