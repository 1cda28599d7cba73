/-
`set_transformed_entries`: from the entries of a shard to the stored form.

The matrix of the source, row `i` and column `j`, is the vector of its
columns; `rows` and `columns` change the view where the source iterates over
the other one. Steps 1 to 5 compute in the residue ring of the first factor,
step 6 lifts each column to a small integer polynomial and stores it in both
residue rings.

An element of `Z_t` enters as its representative in `[0, t)`.
-/
import Dnspir.BasePir

namespace Dnspir

open SpecialZnx8

namespace PIRDatabase

variable {N t l : ℕ}

def rows {α : Type} (m : Vector (Vector α N) l) : Vector (Vector α l) N :=
  Vector.ofFn fun i => Vector.ofFn fun j => m[j][i]

/-- STEP 1: column `j` holds the coefficients of the entries `8j, ..., 8j + 7`. -/
def embedColumns {K : ℕ} (Z : SpecialZnx8 K) (entries : List (PlainRing t N))
    (h : entries.length = l * simdCount) : Vector (Vector M512i N) l :=
  Vector.ofFn fun j => Vector.ofFn fun i => Z.fromComponents fun c =>
    (((entries.get ⟨simdCount * j + c, by
      have := j.2; have := c.2; simp only [simdCount] at *; omega⟩).coeff i).val
      : Z.ComponentRing)

/-- STEP 4: undo on column `j` the automorphisms the online loop will apply. -/
def undoGalois (j : ℕ) (column : Vector M512i N) : Option (Vector M512i N) := do
  let gInv ← Zn.invert (IndexGroup.genH (2 * N))
  let automorphism := gInv ^ j
  permute column fun i => galoisToIndex N (automorphism * indexToGalois N i)

/-- STEP 5: reverse a row within `<g>` and `-<g>`. -/
def reverseRow (indexGroup : IndexGroup N) (row : Vector M512i indexGroup.groupOrder) :
    Vector M512i indexGroup.groupOrder :=
  if h : indexGroup.requiresConj then
    have hl : indexGroup.groupOrder = N := indexGroup.groupOrder_eq h
    Vector.ofFn fun i =>
      have := i.isLt
      if i.val < N / 2 then row.get ⟨N / 2 - 1 - i.val, by omega⟩
      else row.get ⟨N - 1 - (i.val - N / 2), by omega⟩
  else row.reverse

/-- The coefficient step 6 stores for a coefficient of step 5: the centred
lift, scaled in `Z_t`, lifted again. -/
def rescaleEntry {p : ℕ} (scale : ZMod t) (x : ZMod p) : ℤ :=
  (((x.valMinAbs : ZMod t) * scale).valMinAbs : ℤ)

/-- STEP 6 on one column, up to the write. -/
def embedEntry (fm : FeanorMath) (db : PIRDatabase N t) (scale : ZMod t) (column : Vector M512i N) :
    Option (CompressedRNSEl N) := do
  let c ← invWeightedNtt fm rnsBase0 db.zeta.1 db.lenNNtts.1 column
  let entries : Vector (Fin 8 → ℤ) N :=
    c.map fun x => fun k => rescaleEntry scale (rnsBase0.getComponents x k)
  let result0 ← weightedNtt fm rnsBase0 db.zeta.1 db.lenNNtts.1
    (entries.map fun x => rnsBase0.fromComponents fun k => x k)
  let result1 ← weightedNtt fm rnsBase1 db.zeta.2 db.lenNNtts.2
    (entries.map fun x => rnsBase1.fromComponents fun k => x k)
  return ⟨result0.map compress, result1.map compress⟩

/-- The write of one chunk of `N` elements into a slice. -/
def writeChunk (slice : Array CompressedZnx8El) (k : ℕ) (values : Vector CompressedZnx8El N) :
    Array CompressedZnx8El :=
  (List.finRange N).foldl (fun s (j : Fin N) => s.setIfInBounds (k * N + j) values[j]) slice

def CompressedSlices.writeChunk (s : CompressedSlices) (k : ℕ) (values : CompressedRNSEl N) :
    CompressedSlices :=
  ⟨PIRDatabase.writeChunk s.fst k values.fst, PIRDatabase.writeChunk s.snd k values.snd⟩

/-- The write of column `k`: the chunks of the conjugate slices follow those
of the plain ones, and columns beyond all chunks are dropped by `zip`. -/
def storeColumn (s : CompressedSlices × CompressedSlices) (k : ℕ) (values : CompressedRNSEl N) :
    CompressedSlices × CompressedSlices :=
  if k < s.1.fst.size / N then (CompressedSlices.writeChunk s.1 k values, s.2)
  else (s.1, CompressedSlices.writeChunk s.2 (k - s.1.fst.size / N) values)

/-- STEPS 1 to 5, on the matrix. -/
def transformEntries (fm : FeanorMath) (db : PIRDatabase N t) (entries : List (PlainRing t N)) :
    Option (Vector (Vector M512i N) db.indexGroup.groupOrder) :=
  if h : entries.length = db.indexGroup.groupOrder * simdCount then do
    let result := embedColumns rnsBase0 entries h
    let result ← Vector.ofFnM fun j => weightedNtt fm rnsBase0 db.zeta.1 db.lenNNtts.1 result[j]
    let basePower : ZMod (2 * N) := -(db.indexGroup.queryBasePower : ZMod (2 * N))
    let result ← Vector.ofFnM fun i : Fin N => cosetNtt fm db.indexGroup rnsBase0 db.zeta.1
      (indexToGalois N i * basePower) db.lenSubgroupOrderNtts.1 (rows result)[i]
    let result ← Vector.ofFnM fun j => undoGalois j.val (rows result)[j]
    return rows ((rows result).map (reverseRow db.indexGroup))
  else none

def setTransformedEntries (fm : FeanorMath) (db : PIRDatabase N t) (entries : List (PlainRing t N)) :
    Option (PIRDatabase N t) := do
  let maxCoeff := 2 * t * N
  if maxCoeff < rnsBase0.modulus then
    let result ← transformEntries fm db entries
    let scale ← Zn.invert (db.indexGroup.groupOrder : ZMod t)
    let columns ← Vector.ofFnM fun j => embedEntry fm db scale result[j]
    let stored := (List.finRange db.indexGroup.groupOrder).foldl
      (fun s (k : Fin _) => storeColumn s k columns[k])
        (db.transformedEntries, db.transformedEntriesConj)
    return { db with
      transformedEntries := stored.1
      transformedEntriesConj := stored.2
      replyA := none }
  else none

end PIRDatabase

end Dnspir
