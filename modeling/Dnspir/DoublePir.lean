/-
Two-level PIR over fleets of shards (`double_pir`).

Each shard answers with eight ciphertexts, which are switched to 17 and 12
bits, packed, and written in base 1025 as entries of a second database that
is built for the batch. Slot `b` of the batch owns the lanes `3 b, ..., 3 b + 2`
of that database, one a digit.

The thread-local buffer the second database is built in is a state: what a
call leaves in it is what the next one finds. The plaintext modulus the
functions assert is the type's; so is the ciphertext ring. Both fleets hold
databases of one plaintext ring.
-/
import Dnspir.Bfv
import Dnspir.Lib.Tiles
import Dnspir.PerformPir

namespace Dnspir

open SpecialZnx8 PIRDatabase

/-- The slices of a database, in the order `create` carves them. -/
def PIRDatabase.slices {N t : ℕ} (db : PIRDatabase N t) : List (Array CompressedZnx8El) :=
  [db.transformedEntries.fst, db.transformedEntries.snd, db.transformedEntriesConj.fst,
    db.transformedEntriesConj.snd, db.innerProdGk[0].fst, db.innerProdGk[0].snd,
    db.innerProdGk[1].fst, db.innerProdGk[1].snd,
    db.innerProdConjGk[0].fst, db.innerProdConjGk[0].snd, db.innerProdConjGk[1].fst,
      db.innerProdConjGk[1].snd]

namespace DoublePir

variable {N t : ℕ}

def ctxtParts : ℕ := 3
def batchCount : ℕ := 2
def primaryPlainModulus : ℕ := 1025
def secondaryPlainModulus : ℕ := 1025
def primaryALog2ResponseQ : ℕ := 17
def primaryBLog2ResponseQ : ℕ := 12

instance : NeZero ctxtParts := ⟨by decide⟩
instance : NeZero batchCount := ⟨by decide⟩

structure DoubleQueryRef (N : ℕ) where
  primaryQryB : CipherRing N
  /-- `none` when the primary databases are on an index group without conjugates. -/
  primaryQryConjB : Option (CipherRing N)
  secondaryQryB : CipherRing N
  secondaryQryConjB : Option (CipherRing N)
  gkB : Vector (CipherRing N) 2

/-! ## Ciphertexts as plaintexts -/

/-- The digits, lowest first; after `j` of them the rest is `integer / 1025^j`.
The arithmetic on `u64` is checked. -/
def encodeCiphertextPlaintext (aCoeff bCoeff : UInt64) :
    Option (Vector (ZMod secondaryPlainModulus) ctxtParts) :=
  let integer := aCoeff.toNat * 2 ^ primaryBLog2ResponseQ + bCoeff.toNat
  if integer < 2 ^ 64 ∧ integer < secondaryPlainModulus ^ ctxtParts ∧
      integer / secondaryPlainModulus ^ ctxtParts = 0 then
    some (Vector.ofFn fun j =>
      ((integer / secondaryPlainModulus ^ j.val % secondaryPlainModulus : ℕ) : ZMod _))
  else none

def decodeCiphertextPlaintext (data : Vector (ZMod secondaryPlainModulus) ctxtParts) :
    Option (UInt64 × UInt64) :=
  let integer := data.toList.foldr (fun x integer => integer * secondaryPlainModulus + x.val) 0
  if integer / 2 ^ primaryBLog2ResponseQ < 2 ^ primaryALog2ResponseQ then
    some (UInt64.ofNat (integer / 2 ^ primaryBLog2ResponseQ),
      UInt64.ofNat (integer % 2 ^ primaryBLog2ResponseQ))
  else none

/-- The three plaintexts of one switched ciphertext. -/
def encodeParts (aModswitched bModswitched : List UInt64) :
    Option (Vector (PlainRing secondaryPlainModulus N) ctxtParts) := do
  let digits ← Vector.ofFnM fun i : Fin N => do
    encodeCiphertextPlaintext (← aModswitched[i.val]?) (← bModswitched[i.val]?)
  return Vector.ofFn fun j => ⟨fun i => digits[i][j]⟩

/-! ## Evaluation -/

/-- The part results of one shard, one for each of its lanes. -/
def shardParts (fm : FeanorMath) (db : PIRDatabase N t) (query : DoubleQueryRef N) :
    Option (List (Vector (PlainRing secondaryPlainModulus N) ctxtParts)) :=
  if db.indexGroup.requiresConj = query.primaryQryConjB.isSome then do
    let a ← getA fm db
    let b ← performPir fm db ⟨query.primaryQryB, query.primaryQryConjB, query.gkB⟩
    (List.finRange simdCount).mapM fun k => do
      let aModswitched ← Bfv.modSwitchEncode fm primaryALog2ResponseQ (a k)
      let bModswitched ← Bfv.modSwitchEncode fm primaryBLog2ResponseQ (b k)
      encodeParts aModswitched bModswitched
  else none

/-- The part results of a slot, if it has a query. -/
def slotParts (fm : FeanorMath) (databases : List (PIRDatabase N t))
    (query : Option (DoubleQueryRef N)) :
    Option (Option (List (Vector (PlainRing secondaryPlainModulus N) ctxtParts))) :=
  match query with
  | none => some none
  | some query => do
    let results ← databases.mapM fun db => shardParts fm db query
    return some results.flatten

/-- The entry of the second database at index `i`, lane `j`. -/
def secondaryEntry (databasesLen : Vector ℕ batchCount)
    (partResults : Vector (Option
      (List (Vector (PlainRing secondaryPlainModulus N) ctxtParts))) batchCount) (i j : ℕ) :
    Option (PlainRing secondaryPlainModulus N) :=
  if h : j / ctxtParts < batchCount ∧ j % ctxtParts < ctxtParts then
    if i < simdCount * databasesLen[j / ctxtParts] then
      match partResults[j / ctxtParts] with
      | some results => do
        let parts ← results[i]?
        return parts[j % ctxtParts]
      | none => some 0
    else some 0
  else some 0

def zeroQuery : QueryRef N := ⟨0, some 0, Vector.replicate 2 0⟩

/-- The query of lane `i` of the second database. -/
def secondaryQuery (queries : Vector (Option (DoubleQueryRef N)) batchCount) (i : Fin 8) : QueryRef N :=
  match (queries[i.val / ctxtParts]?).join with
  | some q => ⟨q.secondaryQryB, q.secondaryQryConjB, q.gkB⟩
  | none => zeroQuery

/-- `resize_with`, when the memory is too short. -/
def growTo (len : ℕ) (memory : Array CompressedZnx8El) : Array CompressedZnx8El :=
  if memory.size < len then memory ++ Array.replicate (len - memory.size) (Vector.replicate 8 0)
  else memory

/-- The second database, in the first elements of the memory, and its reply. -/
def secondaryPhase (fm : FeanorMath) (indexGroupSecondary : IndexGroup N)
    (entries : List (PlainRing secondaryPlainModulus N)) (queries : Fin 8 → QueryRef N) :
    StateT (Array CompressedZnx8El) Option (Fin 8 → CipherRing N × CipherRing N) := fun memory => do
  let len := requiredMemoryGeneral indexGroupSecondary
  let memory := growTo len memory
  let db ← create fm secondaryPlainModulus indexGroupSecondary .secondSet (memory.extract 0 len)
  let db ← setDb fm db entries
  let a ← getA fm db
  let b ← performPirSplit fm db queries
  return (fun i => (a i, b i), Tiling.join db.slices ++ memory.extract len memory.size)

/-- What is asserted before any query is evaluated. -/
def BatchOk (databases : Vector (List (PIRDatabase N t)) batchCount)
    (indexGroupSecondary : IndexGroup N) : Prop :=
  databases[0] ≠ [] ∧ (∀ k : Fin batchCount, ∀ db ∈ databases[k], db.useSeeds = .firstSet) ∧
    ∀ k : Fin batchCount, databases[k].length * simdCount ≤ indexGroupSecondary.groupOrder

instance (databases : Vector (List (PIRDatabase N t)) batchCount) (indexGroupSecondary : IndexGroup N) :
    Decidable (BatchOk databases indexGroupSecondary) :=
  inferInstanceAs (Decidable
    (_ ≠ [] ∧ (∀ k : Fin batchCount, ∀ db ∈ databases[k], db.useSeeds = .firstSet) ∧ _))

/-- The first level: the entries of the second database. -/
def primaryPhase (fm : FeanorMath) (databases : Vector (List (PIRDatabase N t)) batchCount)
    (queries : Vector (Option (DoubleQueryRef N)) batchCount) (indexGroupSecondary : IndexGroup N) :
    Option (List (PlainRing secondaryPlainModulus N)) := do
  let databasesLen := databases.map List.length
  if BatchOk databases indexGroupSecondary then
    let partResults ← Vector.ofFnM fun k : Fin batchCount => slotParts fm databases[k] queries[k]
    -- The results of the slots without a query are dropped before the lengths are compared.
    if ((partResults.toList.filterMap id).zip databasesLen.toList).all fun (res, len) =>
        len * simdCount == res.length then
      let entries ← (List.range indexGroupSecondary.groupOrder).mapM fun i =>
        (List.range simdCount).mapM fun j => secondaryEntry databasesLen partResults i j
      return entries.flatten
    else none
  else none

def performBatchedDoublePir (fm : FeanorMath) (databases : Vector (List (PIRDatabase N t)) batchCount)
    (queries : Vector (Option (DoubleQueryRef N)) batchCount) (indexGroupSecondary : IndexGroup N) :
    StateT (Array CompressedZnx8El) Option
      (Vector (Option (Vector (CipherRing N × CipherRing N) ctxtParts)) batchCount) := fun memory => do
  let entries ← primaryPhase fm databases queries indexGroupSecondary
  let (finalResult, memory) ← secondaryPhase fm indexGroupSecondary entries
    (secondaryQuery queries) memory
  let results := Vector.ofFn fun i : Fin batchCount => if queries[i].isSome then
    some (Vector.ofFn fun j : Fin ctxtParts => finalResult (Fin.ofNat 8 (ctxtParts * i + j))) else none
  return (results, memory)

/-! ## The client -/

/-- The noise drawn for one query. -/
structure QueryErrors (N : ℕ) where
  gk : Fin 2 → CipherRing N
  primary : CipherRing N
  primaryConj : CipherRing N
  secondary : CipherRing N
  secondaryConj : CipherRing N

/-- One level of the query: `X^{i k}` and, where the index group has
conjugates, `X^{-i k}`, for the base power `k`. -/
def encLevel [NeZero N] (fm : FeanorMath) (t : ℕ) (indexGroup : IndexGroup N) (useSeeds : UsedSeeds)
    (e eConj sk : CipherRing N) (i : ℕ) : Option (CipherRing N × Option (CipherRing N)) :=
  if indexGroup.loopLen ≠ 0 then do
    let power := i * indexGroup.queryBasePower
    let qryB ← Bfv.encSymB (expand fm) useSeeds.getQrySeeds[0] e sk
      (Negacyclic.X ^ power : PlainRing t N)
    if indexGroup.requiresConj then
      if power ≤ 2 * N then
        let qryConjB ← Bfv.encSymB (expand fm) useSeeds.getQrySeeds[1] eConj sk
          (Negacyclic.X ^ (2 * N - power) : PlainRing t N)
        return (qryB, some qryConjB)
      else none
    else return (qryB, none)
  else none

def encDoublePir [NeZero N] (fm : FeanorMath) (indexGroupPrimary indexGroupSecondary : IndexGroup N)
    (errors : QueryErrors N) (sk : CipherRing N) (primaryIdx secondaryIdx : ℕ) :
    Option ((CipherRing N × Option (CipherRing N)) × (CipherRing N × Option (CipherRing N)) ×
      Vector (CipherRing N) 2) :=
  if primaryIdx < indexGroupPrimary.groupOrder * simdCount ∧
      secondaryIdx < indexGroupSecondary.groupOrder / simdCount then do
    let i := primaryIdx / simdCount
    let j := secondaryIdx * simdCount + primaryIdx % simdCount
    let gk ← Bfv.genGkB (expand fm) (UsedSeeds.getGkSeeds .firstSet) errors.gk sk 5 log2B
    let primary ← encLevel fm primaryPlainModulus indexGroupPrimary .firstSet errors.primary
      errors.primaryConj sk i
    let secondary ← encLevel fm secondaryPlainModulus indexGroupSecondary .secondSet errors.secondary
      errors.secondaryConj sk j
    return (primary, secondary, gk)
  else none

def decDoublePir [NeZero N] (sk : CipherRing N)
    (reply : Vector (CipherRing N × CipherRing N) ctxtParts) :
    Option (PlainRing primaryPlainModulus N) := do
  let parts ← Vector.ofFnM fun i => Bfv.dec secondaryPlainModulus sk reply[i]
  let coeffs ← Vector.ofFnM fun i : Fin N =>
    decodeCiphertextPlaintext (Vector.ofFn fun k => parts[k].coeff i)
  let a ← Bfv.modSwitchDecode fixedQ primaryALog2ResponseQ (coeffs.map Prod.fst).toList
  let b ← Bfv.modSwitchDecode fixedQ primaryBLog2ResponseQ (coeffs.map Prod.snd).toList
  Bfv.dec primaryPlainModulus sk (a, b)

end DoublePir

end Dnspir
