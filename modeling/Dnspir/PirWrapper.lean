/-
The wire format of queries and replies (`pir_wrapper`), and the shape of a
database that client and server derive from its number of entries.

Shifts, `&` and `|` are those of numbers: a shifted fragment of a `u64` stays
below `2^64`. The subtraction that counts the padding of `condense` is
checked, and its final assertion can fail.

`StdRng` is a parameter: the words it draws, by seed.
-/
import Dnspir.DoublePir

namespace Dnspir

open PIRDatabase DoublePir

namespace PirWrapper

def secondaryALog2ResponseQ : ℕ := 17
def secondaryBLog2ResponseQ : ℕ := 12
def galoisKeyLog2Modulus : ℕ := 50
def primaryQueryLog2Modulus : ℕ := 34
def secondaryQueryLog2Modulus : ℕ := 34
def skHwt : ℕ := 128

/-- `1 << LOG2_N`. -/
def rank : ℕ := 2 ^ log2N

instance : NeZero rank := ⟨by decide⟩

/-! ## Bit packing -/

/-- The next `count` groups of `n`. -/
def takeChunks {α : Type} (n : ℕ) : ℕ → List α → List (List α)
  | 0, _ => []
  | count + 1, l => l.take n :: takeChunks n count (l.drop n)

/-- `array_chunks`: an incomplete last group is dropped. -/
def arrayChunks {α : Type} (n : ℕ) (l : List α) : List (List α) := takeChunks n (l.length / n) l

/-- The bits that fragments of `width` bits come after. -/
def fragmentShift (bits width : ℕ) : ℕ := bits / (2 * width) * (2 * width)

/-- The `extract` closures. -/
def extract (bits width x : ℕ) : ℕ := x >>> fragmentShift bits width &&& (2 ^ width - 1)

/-- One byte of fragments, the first one highest. -/
def joinFragments (bits width : ℕ) (data : List UInt64) : UInt8 :=
  UInt8.ofNat (data.foldl (fun byte x => byte <<< width ||| extract bits width x.toNat) 0)

/-- The bytes of the fragments of `width` bits, if `bits` has one. -/
def condenseFragments (bits width : ℕ) (data : List UInt64) : List UInt8 :=
  if bits % (2 * width) ≥ width then (arrayChunks (8 / width) data).map (joinFragments bits width)
  else []

def condense (bits : ℕ) (data : List UInt64) : Option (List UInt8) :=
  if data.length ≤ data.length / 8 * 8 then
    let dataIt := data ++ List.replicate (data.length / 8 * 8 - data.length) 0
    let planes := (List.range (bits / 8)).flatMap fun i => dataIt.map fun x =>
      UInt8.ofNat (x.toNat >>> (8 * i))
    let result := planes ++ condenseFragments bits 4 dataIt ++ condenseFragments bits 2 dataIt ++
      condenseFragments bits 1 dataIt
    if data.length / 8 * bits = result.length then some result else none
  else none

/-- `data.next().expect("not enough data")`. -/
def nextByte : StateT (List UInt8) Option UInt8
  | [] => none
  | source :: data => some (source, data)

def readPlane (shift : ℕ) (result : List ℕ) : StateT (List UInt8) Option (List ℕ) :=
  result.mapM fun target => do
    let source ← nextByte
    return target ||| source.toNat <<< shift

/-- Fragment `k` of a byte. -/
def splitFragment (width source k : ℕ) : ℕ := source >>> (8 - width * (k + 1)) &&& (2 ^ width - 1)

/-- One byte, for a group of targets. -/
def readGroup (bits width : ℕ) (targets : List ℕ) : StateT (List UInt8) Option (List ℕ) := do
  let source ← nextByte
  return targets.zipIdx.map fun (target, k) =>
    target ||| splitFragment width source.toNat k <<< fragmentShift bits width

def readFragments (bits width : ℕ) (result : List ℕ) : StateT (List UInt8) Option (List ℕ) :=
  if bits % (2 * width) ≥ width then do
    let groups ← (arrayChunks (8 / width) result).mapM (readGroup bits width)
    return groups.flatten ++ result.drop (result.length / (8 / width) * (8 / width))
  else return result

def uncondense (bits count : ℕ) : StateT (List UInt8) Option (List UInt64) := do
  let result ← (List.range (bits / 8)).foldlM (fun result i => readPlane (8 * i) result)
    (List.replicate count 0)
  let result ← readFragments bits 4 result
  let result ← readFragments bits 2 result
  let result ← readFragments bits 1 result
  return result.map UInt64.ofNat

/-! ## The shape of a database -/

def divCeil (a b : ℕ) : ℕ := (a + b - 1) / b

def chooseIndexGroupSecondary (numShards : ℕ) : Option (IndexGroup rank) :=
  if numShards ≤ rank / simdCount then
    let log2L := Nat.clog 2 numShards
    if simdCount <<< log2L = rank then some (IndexGroup.fullGroup rank)
    else IndexGroup.subgroupOfSize rank (simdCount <<< log2L)
  else none

def halfSizePrimaryMaxEntries : ℕ := rank * rank / 16

/-- The primary group of `get_database_shape`. -/
def chooseIndexGroupPrimary (numEntries : ℕ) : Option (IndexGroup rank) :=
  if numEntries ≤ halfSizePrimaryMaxEntries then IndexGroup.subgroupOfSize rank (rank / 2)
  else some (IndexGroup.fullGroup rank)

def getDatabaseShape (numEntries : ℕ) : Option (IndexGroup rank × IndexGroup rank) :=
  if numEntries ≥ 1 ∧ numEntries ≤ rank * rank then do
    let indexGroupPrimary ← chooseIndexGroupPrimary numEntries
    let numShards := divCeil numEntries (simdCount * indexGroupPrimary.groupOrder)
    let indexGroupSecondary ← chooseIndexGroupSecondary numShards
    return (indexGroupPrimary, indexGroupSecondary)
  else none

def numDatabases (numEntries : ℕ) : Option ℕ := do
  let (indexGroupPrimary, _) ← getDatabaseShape numEntries
  return divCeil numEntries (simdCount * indexGroupPrimary.groupOrder)

/-! ## Queries -/

/-- What the client encrypts, and what the server reads. -/
structure Query where
  gk : Vector (CipherRing rank) 2
  primary : CipherRing rank
  primaryConj : Option (CipherRing rank)
  secondary : CipherRing rank
  secondaryConj : Option (CipherRing rank)

/-- The key a seed stands for. -/
def secretKey (stdRng : Seed → ℕ → UInt64 × UInt32) (skSeed : Seed) : CipherRing rank :=
  Bfv.genSk fixedQ (stdRng skSeed) skHwt

def encodeElement (fm : FeanorMath) (bits : ℕ) (x : CipherRing rank) : Option (List UInt8) := do
  condense bits (← Bfv.modSwitchEncode fm bits x)

/-- A ciphertext that is there when the index group needs it. -/
def encodeConj (fm : FeanorMath) (bits : ℕ) (indexGroup : IndexGroup rank)
    (x : Option (CipherRing rank)) : Option (List UInt8) :=
  if indexGroup.requiresConj then do encodeElement fm bits (← x) else some []

/-- The bytes `prepare_query_general` emits for the ciphertexts. -/
def queryBytes (fm : FeanorMath) (indexGroupPrimary indexGroupSecondary : IndexGroup rank)
    (qry : Query) : Option (List UInt8) := do
  let gk0 ← encodeElement fm galoisKeyLog2Modulus qry.gk[0]
  let gk1 ← encodeElement fm galoisKeyLog2Modulus qry.gk[1]
  let primary ← encodeElement fm primaryQueryLog2Modulus qry.primary
  let primaryConj ← encodeConj fm primaryQueryLog2Modulus indexGroupPrimary qry.primaryConj
  let secondary ← encodeElement fm secondaryQueryLog2Modulus qry.secondary
  let secondaryConj ← encodeConj fm secondaryQueryLog2Modulus indexGroupSecondary qry.secondaryConj
  return gk0 ++ gk1 ++ primary ++ primaryConj ++ secondary ++ secondaryConj

def prepareQueryGeneral (fm : FeanorMath) (stdRng : Seed → ℕ → UInt64 × UInt32) (skSeed : Seed)
    (errors : QueryErrors rank) (primaryIdx secondaryIdx : ℕ)
    (indexGroupPrimary indexGroupSecondary : IndexGroup rank) : Option (List UInt8 × Seed) := do
  let sk := secretKey stdRng skSeed
  let (qry1, qry2, gk) ← encDoublePir fm indexGroupPrimary indexGroupSecondary errors sk
    primaryIdx secondaryIdx
  let bytes ← queryBytes fm indexGroupPrimary indexGroupSecondary ⟨gk, qry1.1, qry1.2, qry2.1, qry2.2⟩
  return (bytes, skSeed)

def prepareQuery (fm : FeanorMath) (stdRng : Seed → ℕ → UInt64 × UInt32) (skSeed : Seed)
    (errors : QueryErrors rank) (primaryIdx secondaryIdx numEntries : ℕ) :
    Option (List UInt8 × Seed) := do
  let (indexGroupPrimary, indexGroupSecondary) ← getDatabaseShape numEntries
  prepareQueryGeneral fm stdRng skSeed errors primaryIdx secondaryIdx indexGroupPrimary
    indexGroupSecondary

def decodeElement (bits : ℕ) : StateT (List UInt8) Option (CipherRing rank) := do
  let x ← uncondense bits rank
  liftM (Bfv.modSwitchDecode fixedQ bits x : Option (CipherRing rank))

def decodeConj (bits : ℕ) (indexGroup : IndexGroup rank) :
    StateT (List UInt8) Option (Option (CipherRing rank)) :=
  if indexGroup.requiresConj then some <$> decodeElement bits else pure none

/-- How `process_queries` reads a query. -/
def parseQuery (indexGroupPrimary indexGroupSecondary : IndexGroup rank) :
    StateT (List UInt8) Option Query := do
  let gk0 ← decodeElement galoisKeyLog2Modulus
  let gk1 ← decodeElement galoisKeyLog2Modulus
  let primary ← decodeElement primaryQueryLog2Modulus
  let primaryConj ← decodeConj primaryQueryLog2Modulus indexGroupPrimary
  let secondary ← decodeElement secondaryQueryLog2Modulus
  let secondaryConj ← decodeConj secondaryQueryLog2Modulus indexGroupSecondary
  return ⟨#v[gk0, gk1], primary, primaryConj, secondary, secondaryConj⟩

/-! ## Replies -/

/-- The bytes of the three ciphertexts of a reply. -/
def replyBytes (fm : FeanorMath) (reply : Vector (CipherRing rank × CipherRing rank) ctxtParts) :
    Option (List UInt8) := do
  let parts ← Vector.ofFnM fun k => do
    let a ← encodeElement fm secondaryALog2ResponseQ reply[k].1
    let b ← encodeElement fm secondaryBLog2ResponseQ reply[k].2
    return a ++ b
  return parts.toList.flatten

def processQueries {t : ℕ} (fm : FeanorMath) (databases : Vector (List (PIRDatabase rank t)) batchCount)
    (queries : Vector (Option (List UInt8)) batchCount) :
    StateT (Array CompressedZnx8El) Option (Vector (Option (List UInt8)) batchCount) := fun memory => do
  if databases[0].length ≥ databases[1].length then
    let indexGroupPrimary := (← databases[0].head?).indexGroup
    let indexGroupSecondary ← chooseIndexGroupSecondary databases[0].length
    let unpackedQueries ← Vector.ofFnM fun i : Fin batchCount => queries[i].mapM fun query => do
      let (qry, _) ← parseQuery indexGroupPrimary indexGroupSecondary query
      return (⟨qry.primary, qry.primaryConj, qry.secondary, qry.secondaryConj,
        qry.gk⟩ : DoubleQueryRef rank)
    let (replies, memory) ← performBatchedDoublePir fm databases unpackedQueries
      indexGroupSecondary memory
    let bytes ← Vector.ofFnM fun i : Fin batchCount => replies[i].mapM (replyBytes fm)
    return (bytes, memory)
  else none

def processQuery {t : ℕ} (fm : FeanorMath) (databases : List (PIRDatabase rank t))
    (query : List UInt8) : StateT (Array CompressedZnx8El) Option (List UInt8) := fun memory => do
  let (replies, memory) ← processQueries fm #v[databases, databases] #v[some query, none] memory
  return (← replies[0], memory)

/-- How `process_reply` reads the three ciphertexts. -/
def parseReply : StateT (List UInt8) Option (Vector (CipherRing rank × CipherRing rank) ctxtParts) :=
  Vector.ofFnM fun _ => do
    let a ← decodeElement secondaryALog2ResponseQ
    let b ← decodeElement secondaryBLog2ResponseQ
    return (a, b)

def processReply (stdRng : Seed → ℕ → UInt64 × UInt32) (reply : List UInt8) (skSeed : Seed) :
    Option (Vector (ZMod primaryPlainModulus) rank) := do
  let sk := secretKey stdRng skSeed
  let (reply, _) ← parseReply reply
  let result ← decDoublePir sk reply
  return Vector.ofFn result.coeff

end PirWrapper

end Dnspir
