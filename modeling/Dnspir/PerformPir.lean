/-
The online half of query evaluation: `perform_pir_split` and its kernel
`main_pir_loop`.

The kernel streams over the stored slices with sixteen elements preloaded,
two in each of eight registers a slice, and accumulates 64-bit lanes that it
reduces only every `reduce_every_iterations` rounds. Each round reads one
accumulator buffer and scatters into the other, then swaps the two: which of
the caller's buffers holds the result depends on the number of rounds.
-/
import Dnspir.Preprocess

namespace Dnspir

open SpecialZnx8 Avx

namespace PIRDatabase

variable {N t : ℕ}

/-- A 64-byte load of two consecutive compressed elements, which
`mm512_extract_si256` takes apart again. -/
def loadPair (slice : Array CompressedZnx8El) (i : ℕ) :
    Option (CompressedZnx8El × CompressedZnx8El) := do
  return (← slice[i]?, ← slice[i + 1]?)

/-- The preloaded registers of the three streamed slices. -/
structure Preload where
  innerProdGk0 : Vector (CompressedZnx8El × CompressedZnx8El) 8
  innerProdGk1 : Vector (CompressedZnx8El × CompressedZnx8El) 8
  transformedEntries : Vector (CompressedZnx8El × CompressedZnx8El) 8

/-- What the kernel reads: the streamed slices, of `N * len` elements, the
online operands, and where the results go. -/
structure KernelInput (N : ℕ) where
  galoisLookupTable : Vector ℕ N
  qryB : Vector CompressedZnx8El N
  gkB0 : Vector CompressedZnx8El N
  gkB1 : Vector CompressedZnx8El N
  innerProdGk0 : Array CompressedZnx8El
  innerProdGk1 : Array CompressedZnx8El
  transformedEntries : Array CompressedZnx8El

/-- `prod = cvt(x) * cvt(y); current += prod`. -/
def addProduct (current : M512i) (x y : CompressedZnx8El) : M512i :=
  mm512AddEpi64 current (mm512MulEpu32 (mm512Cvtepi32Epi64 x) (mm512Cvtepi32Epi64 y))

/-- The three products of one element and the scatter into `sum_new`. -/
def kernelElement (inp : KernelInput N) (sum : Vector M512i N) (j : ℕ) (gk0 gk1 te : CompressedZnx8El)
    (sumNew : Vector M512i N) : Option (Vector M512i N) :=
  if h : j < N then
    let current := addProduct
      (addProduct (addProduct sum[j] gk0 inp.gkB0[j]) gk1 inp.gkB1[j]) te inp.qryB[j]
    let target := inp.galoisLookupTable[j]
    if h' : target < N then some (sumNew.set target current) else none
  else none

def preloadAt (inp : KernelInput N) (index : ℕ) : Option Preload := do
  return {
    innerProdGk0 := ← Vector.ofFnM fun idx : Fin 8 => loadPair inp.innerProdGk0 (index + idx * 2)
    innerProdGk1 := ← Vector.ofFnM fun idx : Fin 8 => loadPair inp.innerProdGk1 (index + idx * 2)
    transformedEntries := ← Vector.ofFnM fun idx : Fin 8 =>
      loadPair inp.transformedEntries (index + idx * 2) }

/-- One register of the unrolled body: two elements, then the next preload. -/
def unrolledStep (inp : KernelInput N) (sum : Vector M512i N) (shouldPreload : Bool) (j index : ℕ)
    (s : Preload × Vector M512i N) (idx : Fin 8) : Option (Preload × Vector M512i N) := do
  let (pre, sumNew) := s
  let gk0 := pre.innerProdGk0[idx]
  let gk1 := pre.innerProdGk1[idx]
  let te := pre.transformedEntries[idx]
  let sumNew ← kernelElement inp sum (j + idx * 2) gk0.1 gk1.1 te.1 sumNew
  let sumNew ← kernelElement inp sum (j + idx * 2 + 1) gk0.2 gk1.2 te.2 sumNew
  if shouldPreload then
    let next := index + idx * 2 + 16
    return ({ innerProdGk0 := pre.innerProdGk0.set idx (← loadPair inp.innerProdGk0 next)
              innerProdGk1 := pre.innerProdGk1.set idx (← loadPair inp.innerProdGk1 next)
              transformedEntries := pre.transformedEntries.set idx
                (← loadPair inp.transformedEntries next) },
      sumNew)
  else return (pre, sumNew)

def unrolledLoopBody (inp : KernelInput N) (sum : Vector M512i N) (shouldPreload : Bool) (j index : ℕ)
    (s : Preload × Vector M512i N) : Option (Preload × Vector M512i N) :=
  (List.finRange 8).foldlM (unrolledStep inp sum shouldPreload j index) s

def unrollCount : ℕ := 16

/-- One iteration of the kernel, from `index` on: all blocks but the last
preload the one after them. -/
def kernelIteration (inp : KernelInput N) (index : ℕ) (sum sumNew : Vector M512i N) :
    Option (Vector M512i N) :=
  if N % unrollCount = 0 ∧ unrollCount ≤ N then do
    let pre ← preloadAt inp index
    let (pre, sumNew) ← (List.finRange ((N - unrollCount) / unrollCount)).foldlM
      (fun s (b : Fin _) => unrolledLoopBody inp sum true (b * 16) (index + b * 16) s) (pre, sumNew)
    let j := (N - unrollCount) / unrollCount * 16
    let (_, sumNew) ← unrolledLoopBody inp sum false j (index + j) (pre, sumNew)
    return sumNew
  else none

/-- The loop state: the buffers `sum` and `sum_new` refer to at the moment. -/
abbrev Buffers (N : ℕ) := Vector M512i N × Vector M512i N

/-- The inner loop from iteration `start` on, each round ending in the swap. -/
def kernelRounds (inp : KernelInput N) (start count : ℕ) (s : Buffers N) : Option (Buffers N) :=
  (List.finRange count).foldlM (fun s (i : Fin count) => do
    let sumNew ← kernelIteration inp ((start + i) * N) s.1 s.2
    return (sumNew, s.1)) s

/-- The outer loop: `reduce_every_iterations` rounds at a time, each batch
followed by a reduction of the accumulators. -/
def kernelBatches {K : ℕ} (Z : SpecialZnx8 K) (inp : KernelInput N) (len reduceEveryIterations : ℕ)
    (s : Buffers N) : Option (Buffers N) :=
  (List.finRange ((len + reduceEveryIterations - 1) / reduceEveryIterations)).foldlM
      (fun s (b : Fin _) => do
    let iOuter := b * reduceEveryIterations
    let s ← kernelRounds inp iOuter (min (len - iOuter) reduceEveryIterations) s
    return (s.1.map Z.reduceFromU64, s.2)) s

/-- `main_pir_loop`, on the caller's buffers. The references `sum` and
`sum_new` have changed places after an odd number of rounds. -/
def mainPirLoop {K : ℕ} (Z : SpecialZnx8 K) (inp : KernelInput N) (len reduceEveryIterations : ℕ)
    (sum sumNew : Vector M512i N) : Option (Buffers N) :=
  if N * len = inp.transformedEntries.size ∧ N * len = inp.innerProdGk0.size ∧
      N * len = inp.innerProdGk1.size ∧ (∀ i : Fin N, inp.galoisLookupTable[i] < N) ∧
      0 < reduceEveryIterations then do
    let s ← kernelBatches Z inp len reduceEveryIterations (sum, sumNew)
    return if len % 2 = 0 then s else (s.2, s.1)
  else none

/-! ## The query -/

/-- The `b`-parts a client sends. -/
structure QueryRef (N : ℕ) where
  qryB : CipherRing N
  qryConjB : Option (CipherRing N)
  gkB : Vector (CipherRing N) 2

def galoisLookupTable (N : ℕ) : Option (Vector ℕ N) := do
  let invG ← Zn.invert (IndexGroup.genH (2 * N))
  return Vector.ofFn fun i : Fin N => ((invG * ((2 * i.val + 1 : ℕ) : ZMod (2 * N))).val - 1) / 2

/-- The bound on the rounds between two reductions. -/
def reduceEveryIterations : ℕ :=
  min ((2 ^ 64 - 1) / rnsBase0.reprBound / rnsBase0.reprBound / (gkDigits + 1))
    ((2 ^ 64 - 1) / rnsBase1.reprBound / rnsBase1.reprBound / (gkDigits + 1))

/-- The kernel over the slices of one residue ring, from zeroed buffers; the
result is what the caller's `sum` holds afterwards. -/
def runKernel {K : ℕ} (Z : SpecialZnx8 K) (db : PIRDatabase N t) (table : Vector ℕ N)
    (qryB gkB0 gkB1 : Vector CompressedZnx8El N) (gk0 gk1 te : Array CompressedZnx8El) :
    Option (Vector M512i N) := do
  let zero := Vector.replicate N rnsBase0.zero
  let (sum, _) ← mainPirLoop Z ⟨table, qryB, gkB0, gkB1, gk0, gk1, te⟩ db.indexGroup.loopLen
    reduceEveryIterations zero zero
  return sum

/-- Both residue rings of one loop. -/
def runKernels (db : PIRDatabase N t) (table : Vector ℕ N) (qryB : CompressedRNSEl N)
    (gkB : Vector (CompressedRNSEl N) 2) (innerProdGk : Vector CompressedSlices 2)
    (transformedEntries : CompressedSlices) : Option (RNSEl N) := do
  let fst ← runKernel rnsBase0 db table qryB.fst gkB[0].fst gkB[1].fst innerProdGk[0].fst
    innerProdGk[1].fst transformedEntries.fst
  let snd ← runKernel rnsBase1 db table qryB.snd gkB[0].snd gkB[1].snd innerProdGk[0].snd
    innerProdGk[1].snd transformedEntries.snd
  return ⟨fst, snd⟩

def addRaw (x y : RNSEl N) : RNSEl N :=
  ⟨Vector.ofFn fun j => mm512AddEpi64 x.fst[j] y.fst[j],
    Vector.ofFn fun j => mm512AddEpi64 x.snd[j] y.snd[j]⟩

/-- The end of `perform_pir_split`: undo the last automorphism and reduce. -/
def finishSum (fm : FeanorMath) (db : PIRDatabase N t) (table : Vector ℕ N) (sum : RNSEl N) :
    Option (Fin 8 → CipherRing N) := do
  let fst ← permute sum.fst fun i => table[i]?
  let snd ← permute sum.snd fun i => table[i]?
  fromSimdElement fm db ⟨fst.map rnsBase0.reduceFromU64, snd.map rnsBase1.reduceFromU64⟩

/-- The conjugates of all eight queries; a missing one fails. -/
def conjQueries (queries : Fin 8 → QueryRef N) : Option (Fin 8 → CipherRing N) := do
  let qs ← Vector.ofFnM fun i => (queries i).qryConjB
  return fun i => qs[i]

def performPirSplit (fm : FeanorMath) (db : PIRDatabase N t) (queries : Fin 8 → QueryRef N) :
    Option (Fin 8 → CipherRing N) := do
  let qryB ← toCompressedSimdElement fm db fun i => (queries i).qryB
  let gkB0 ← toCompressedSimdElement fm db fun i => (queries i).gkB[0]
  let gkB1 ← toCompressedSimdElement fm db fun i => (queries i).gkB[1]
  let table ← galoisLookupTable N
  let sum ← runKernels db table qryB #v[gkB0, gkB1] db.innerProdGk db.transformedEntries
  if db.indexGroup.requiresConj then
    let qryBConj ← toCompressedSimdElement fm db (← conjQueries queries)
    let sumConj ← runKernels db table qryBConj #v[gkB0,
      gkB1] db.innerProdConjGk db.transformedEntriesConj
    finishSum fm db table (addRaw sum sumConj)
  else finishSum fm db table sum

def performPir (fm : FeanorMath) (db : PIRDatabase N t) (query : QueryRef N) :
    Option (Fin 8 → CipherRing N) :=
  performPirSplit fm db fun _ => query

end PIRDatabase

end Dnspir
