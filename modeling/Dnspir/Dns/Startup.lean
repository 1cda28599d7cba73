/-
How a server starts (`server`): the number of entries, the shards, and the
decision between a dump and PIR.

The bound that sizes a fleet is an estimate on `f64`, which is `Float`; its
natural logarithm is a parameter. So are the gzip, the order in which a map is
walked, and the bytes of the zone file. `none` is a panic; what is printed is
left out.
-/
import Dnspir.Dns.Serve

namespace Dnspir

open PIRDatabase DoublePir PirWrapper

namespace Dns

def dumpThresholdBytes : ℕ := 100 * 1024
def skipCompressionAboveBytes : ℕ := 100 * dumpThresholdBytes

/-! ## The number of entries -/

def epsilon : Float := 0.2
def ipv6Fraction : Float := 0.2

/-- The bound of `pick_num_entries` for one candidate: the fullest bucket is
expected to have room for its entries. `ln` is that of `f64`. -/
def boundAdmits (ln : Float → Float) (nNames nEntries sumRecordsPerNameSq candidate : ℕ) : Bool :=
  let bucketCapBytes := Float.ofNat (bucketBytes - firstEntryOffset)
  let avgEntryBytes := ipv6Fraction * 18.0 + (1.0 - ipv6Fraction) * 6.0
  let bucketCapEntries := Float.ofNat maxEntriesPerBucket
  let meanW := if nNames = 0 then 1.0 else Float.ofNat nEntries / Float.ofNat nNames
  let meanWSq := if nNames = 0 then 1.0 else Float.ofNat sumRecordsPerNameSq / Float.ofNat nNames
  let weightedVarianceFactor := if meanW > 0.0 then meanWSq / meanW else 1.0
  let buckets := Float.ofNat candidate
  let lambda := Float.ofNat nEntries / buckets
  -- The constant is `E` as an `f64`.
  let lnB := ln (max buckets 2.718281828459045)
  let expectedMax := lambda + ((2.0 + epsilon) * lambda * weightedVarianceFactor * lnB).sqrt
  let expectedBytes := expectedMax * avgEntryBytes
  expectedMax ≤ bucketCapEntries && expectedBytes ≤ bucketCapBytes

/-- Fleets of fully used half-size shards, then of full-size ones. -/
def candidates : List ℕ :=
  let maxShards := rank / simdCount
  let halfShard := simdCount * rank / 2
  let fullShard := simdCount * rank
  let maxHalfShards := halfSizePrimaryMaxEntries / halfShard
  let minFullShards := halfSizePrimaryMaxEntries / fullShard + 1
  (List.range' 1 maxHalfShards).map (· * halfShard) ++
    (List.range' minFullShards (maxShards + 1 - minFullShards)).map (· * fullShard)

/-- The loop over the candidates that are left; `admits` is the bound. -/
def pickFrom (admits : ℕ → Bool) : List ℕ → ℕ → ℕ
  | [], numEntries => numEntries
  | candidate :: rest, _ => if admits candidate then candidate else pickFrom admits rest candidate

def pickNumEntries (admits : ℕ → Bool) : ℕ := pickFrom admits candidates 0

/-! ## The shards -/

/-- One shard, in its chunk of the slab; what it writes there is in the slab. -/
def preprocessShard (fm : FeanorMath) (primaryIndexGroup : IndexGroup rank) (perDb : ℕ)
    (slotBuckets : List Bucket) (shardIdx : ℕ) :
    StateT (Array CompressedZnx8El) Option (PIRDatabase rank primaryPlainModulus) := fun slab => do
  let chunk := slab.extract (shardIdx * perDb) (shardIdx * perDb + perDb)
  let db ← create fm primaryPlainModulus primaryIndexGroup .firstSet chunk
  let entries ← slotBuckets.mapM bucketToEntry
  let db ← setDb fm db entries
  return (db, slab.extract 0 (shardIdx * perDb) ++ Tiling.join db.slices ++
    slab.extract (shardIdx * perDb + perDb) slab.size)

/-- The fleet, and the slab all of it lives in. -/
def preprocess (fm : FeanorMath) (buckets : List (List Bucket)) (numEntries : ℕ) :
    Option (PirState × Array CompressedZnx8El) := do
  let shardCount := buckets.length
  if shardCount = (← numDatabases numEntries) then
    let (primaryIndexGroup, _) ← getDatabaseShape numEntries
    let perDb := requiredMemoryGeneral primaryIndexGroup
    let slab : Array CompressedZnx8El := Array.replicate (perDb * shardCount) (Vector.replicate 8 0)
    let (dbs, slab) ← (buckets.zipIdx.mapM fun (slotBuckets, shardIdx) =>
      preprocessShard fm primaryIndexGroup perDb slotBuckets shardIdx) slab
    return (⟨dbs, numEntries⟩, slab)
  else none

/-! ## The state -/

/-- What a server runs on. -/
structure Host where
  fmt : IpFormat
  compress : List UInt8 → Except IoError (List UInt8)
  /-- The order in which the map of a zone is walked. -/
  keys : Zone → List Name
  /-- `f64::ln`. -/
  ln : Float → Float

/-- `Zone::load`; `file` is what is read, or why nothing is. -/
def Zone.load (fmt : IpFormat) (file : Except IoError (List UInt8)) : Option (Except IoError Zone) :=
  match file with
  | .error e => some (.error e)
  | .ok bytes =>
    match fromUtf8 bytes with
    | none => some (.error ⟨.invalidData, "stream did not contain valid UTF-8".toList⟩)
    | some text => (Zone.parse fmt text).map .ok

/-- How many records each name has, in the order of the walk. -/
def recordCounts (zone : Zone) : List ℕ :=
  zone.records.entries.map fun e => e.2.a.length + e.2.aaaa.length + e.2.ns.length

/-- The compressed zone; `none` if it is not worth compressing. -/
def makeDump (host : Host) (alwaysDump : Bool) (zone : Zone) :
    Option (Except IoError (Option (List UInt8))) :=
  if alwaysDump then do
    let serialized ← serialize host.fmt zone
    return (host.compress serialized.bytes).map some
  else do
    match ← serializeBounded host.fmt zone (UInt64.ofNat skipCompressionAboveBytes) with
    | .ok serialized => return (host.compress serialized.bytes).map some
    | .error _ => return .ok none

/-- How a fleet for a zone is sized. -/
def Host.numEntries (host : Host) (zone : Zone) : ℕ :=
  let counts := recordCounts zone
  pickNumEntries (boundAdmits host.ln zone.records.entries.length counts.sum
    (counts.map fun w => w * w).sum)

/-- `build_state` where no dump is offered. -/
def buildPirState (fm : FeanorMath) (host : Host) (zone : Zone) :
    Option (Except IoError ServerState) := do
  let numEntries := host.numEntries zone
  match ← trySalts maxRehashRetries (buildBuckets zone (host.keys zone) numEntries) with
  | .error e => return .error e
  | .ok (buckets, hashSalt) =>
    let (pir, _) ← preprocess fm buckets numEntries
    return .ok ⟨zone.zoneName, some pir, none, hashSalt⟩

def buildState (fm : FeanorMath) (host : Host) (file : Except IoError (List UInt8))
    (alwaysDump : Bool) : Option (Except IoError ServerState) := do
  match ← Zone.load host.fmt file with
  | .error e => return .error e
  | .ok zone =>
    match ← makeDump host alwaysDump zone with
    | .error e => return .error e
    | .ok dump =>
      let goDumpOnly := alwaysDump || dump.any fun d => d.length ≤ dumpThresholdBytes
      if goDumpOnly then return .ok ⟨zone.zoneName, none, dump, 0⟩ else buildPirState fm host zone

end Dns

end Dnspir
