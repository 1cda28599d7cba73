/-
The buckets of a zone (`server`): grouping the names by slot, the search for
the salt of a bucket, filling it, and hashing again when that fails.

The map of records is walked in some order of its keys, the same for every
attempt; it is an argument. Errors are the texts that are reported; what is
printed, and the counts that are only printed, are left out. `none` is a panic.
-/
import Dnspir.Dns.Client

namespace Dnspir

open DoublePir PirWrapper

namespace Dns

def maxRehashRetries : ℕ := 16
def maxBucketSaltAttempts : ℕ := 65536

/-! ## Salts -/

def saltForAttempt (attempt : UInt64) : UInt64 :=
  if attempt = 0 then 0 else attempt * 0x9E3779B97F4A7C15

/-- The loop of `try_salts`, `left` attempts before its end. -/
def trySaltsFrom {α : Type} (maxAttempts : ℕ) (builder : UInt64 → ExceptT Name Option α) :
    ℕ → ℕ → Option Name → Option (Except IoError (α × UInt64))
  | 0, _, lastErr =>
    some (.error ⟨.other, "bucket build failed after ".toList ++ showNat maxAttempts ++
      " re-hash attempts; last error: ".toList ++ lastErr.getD []⟩)
  | left + 1, attempt, _ =>
    let salt := saltForAttempt (UInt64.ofNat attempt)
    match (builder salt).run with
    | none => none
    | some (.ok t) => some (.ok (t, salt))
    | some (.error e) => trySaltsFrom maxAttempts builder left (attempt + 1) (some e)

def trySalts {α : Type} (maxAttempts : ℕ) (builder : UInt64 → ExceptT Name Option α) :
    Option (Except IoError (α × UInt64)) :=
  trySaltsFrom maxAttempts builder maxAttempts 0 none

/-- Inserts the discriminators into the set, up to the first that is in it. -/
def insertDiscs (globalSalt : UInt64) (salt : UInt32) : List Name → Finset UInt16 → Bool × Finset UInt16
  | [], discSeen => (true, discSeen)
  | name :: names, discSeen =>
    let d := discriminator name globalSalt salt
    if d ∈ discSeen then (false, discSeen) else insertDiscs globalSalt salt names (insert d discSeen)

/-- The loop of `find_bucket_salt`, `left` salts before its end. -/
def findSaltFrom (names : List Name) (globalSalt : UInt64) :
    ℕ → ℕ → Finset UInt16 → Option (UInt32 × UInt32) × Finset UInt16
  | 0, _, discSeen => (none, discSeen)
  | left + 1, salt, _ =>
    match insertDiscs globalSalt (UInt32.ofNat salt) names ∅ with
    | (true, discSeen) => (some (UInt32.ofNat salt, UInt32.ofNat (salt + 1)), discSeen)
    | (false, discSeen) => findSaltFrom names globalSalt left (salt + 1) discSeen

def findBucketSalt (names : List Name) (globalSalt : UInt64) (discSeen : Finset UInt16) :
    Option (UInt32 × UInt32) × Finset UInt16 :=
  findSaltFrom names globalSalt maxBucketSaltAttempts 0 discSeen

/-! ## Groups -/

/-- The names of every slot, by shard. -/
abbrev Groups := List (List (List Name))

def Groups.names (groups : Groups) (sh pri : ℕ) : Option (List Name) := do
  let shard ← groups[sh]?
  shard[pri]?

/-- `names_in_bucket[sh][pri].push(name)`. -/
def Groups.push (groups : Groups) (sh pri : ℕ) (name : Name) : Option Groups := do
  let shard ← groups[sh]?
  let names ← shard[pri]?
  return groups.set sh (shard.set pri (names ++ [name]))

def groupNames (keys : List Name) (numEntries : ℕ) (globalSalt : UInt64)
    (shardCount entriesPerShard : ℕ) : Option Groups :=
  keys.foldlM (fun groups name => do
    let (sh, pri) ← slot name numEntries globalSalt
    groups.push sh pri name) (List.replicate shardCount (List.replicate entriesPerShard []))

/-! ## Buckets -/

/-- `Display` of a bucket error. -/
def BucketError.show : BucketError → Name
  | .tooManyEntries got max => "too many entries: ".toList ++ showNat got ++ " > ".toList ++ showNat max
  | .overflow needed available =>
    "bucket overflow: needed ".toList ++ showNat needed ++ " bytes, have ".toList ++ showNat available

/-- What an error says of its bucket and of the way out. -/
def bucketLabel (sh pri : ℕ) : Name :=
  "shard ".toList ++ showNat sh ++ " bucket ".toList ++ showNat pri ++ ": ".toList

def noSaltError (shardCount sh pri : ℕ) (names : List Name) : Name :=
  bucketLabel sh pri ++ "could not find a salt avoiding 14-bit discriminator collisions among ".toList ++
    showNat names.length ++ " names after ".toList ++ showNat maxBucketSaltAttempts ++
    " attempts; bucket likely overfull — raise shard count (currently ".toList ++ showNat shardCount ++
    ") or split the zone".toList

def onOverflow (shardCount sh pri : ℕ) (e : BucketError) : Name :=
  bucketLabel sh pri ++ e.show ++ "; raise shard count (currently ".toList ++ showNat shardCount ++
    ") or split the zone".toList

/-- The entries of one name. -/
def appendName (zone : Zone) (globalSalt : UInt64) (bucketSalt : UInt32) (name : Name) :
    ExceptT BucketError (StateT Filling Option) Unit := do
  let disc := discriminator name globalSalt bucketSalt
  let rec ← (zone.records.lookup name : Option NameRecords)
  rec.a.forM fun ip => appendEntry kindA disc (.a ip)
  rec.aaaa.forM fun ip => appendEntry kindAaaa disc (.aaaa ip)
  rec.ns.forM fun nsIdx => do
    let nshost ← (zone.nsHostname nsIdx : Option Name)
    let ip := (zone.glueFor nshost).getD (dummyIp nshost)
    let kind := match ip with
      | .v4 _ => kindNs4
      | .v6 _ => kindNs6
    appendEntry kind disc (.ns ip)

/-- A build that can panic or report an error; its state is `disc_seen`, which
all buckets share. -/
abbrev Build := StateT (Finset UInt16) (ExceptT Name Option)

/-- One bucket, from the empty one. -/
def buildBucket (zone : Zone) (globalSalt : UInt64) (shardCount sh pri : ℕ) (names : List Name) :
    Build Bucket :=
  fun discSeen =>
    if names.isEmpty then return (emptyBucket, discSeen)
    else
      match findBucketSalt names globalSalt discSeen with
      | (none, _) => throw (noSaltError shardCount sh pri names)
      | (some (bucketSalt, _), discSeen) => do
        let fill := names.forM (appendName zone globalSalt bucketSalt)
        match ← (fill (writeBucketSalt emptyBucket bucketSalt,
          UInt16.ofNat firstEntryOffset) : Option _) with
        | (.ok (), (bucketBuf, _)) => return (bucketBuf, discSeen)
        | (.error e, _) => throw (onOverflow shardCount sh pri e)

/-- The buckets of every shard, with what the set already holds. -/
def buildShards (zone : Zone) (keys : List Name) (numEntries : ℕ) (globalSalt : UInt64) :
    Build (List (List Bucket)) := do
  let entriesPerShard ← (entriesPerShard numEntries : Option ℕ)
  let shardCount ← (numDatabases numEntries : Option ℕ)
  let groups ← (groupNames keys numEntries globalSalt shardCount entriesPerShard : Option Groups)
  (List.range shardCount).mapM fun sh => (List.range entriesPerShard).mapM fun pri => do
    let names ← (groups.names sh pri : Option (List Name))
    buildBucket zone globalSalt shardCount sh pri names

/-- `keys` is the order in which the map is walked. -/
def buildBuckets (zone : Zone) (keys : List Name) (numEntries : ℕ) (globalSalt : UInt64) :
    ExceptT Name Option (List (List Bucket)) :=
  (buildShards zone keys numEntries globalSalt).run' ∅

/-! ## Entries of a database -/

/-- `from_canonical_basis` of coefficients that are promised to be reduced. -/
def coeffsToEntry (coeffs : Vector UInt16 rank) : Option (PlainRing primaryPlainModulus rank) := do
  let basis ← Vector.ofFnM fun i : Fin rank =>
    Zn.fromIntPromiseReduced primaryPlainModulus coeffs[i].toNat
  return ⟨fun i => basis[i]⟩

/-- The entry `preprocess` makes of a bucket. -/
def bucketToEntry (bucket : Bucket) : Option (PlainRing primaryPlainModulus rank) :=
  coeffsToEntry (packBytesIntoCoeffs bucket)

end Dns

end Dnspir
