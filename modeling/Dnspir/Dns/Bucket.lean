/-
Hashing, bucket layout and ring-element encoding (`bucket`).

A bucket is a salt, a count and entries: a tag of a kind and a 14-bit
discriminator of the name, then the address. Names that share a slot share its
bucket; the discriminators under the bucket's salt tell their entries apart.

A name is the list of its characters, its bytes their UTF-8. `usize` has 64
bits. `none` is a panic: a failed assertion (debug assertions included), an
`expect`, an index out of range.
-/
import Dnspir.Lib.Bytes
import Dnspir.PirWrapper

namespace Dnspir

open PirWrapper

/-- The characters of a string. -/
abbrev Name := List Char

/-- `as_bytes`. -/
def Name.bytes (name : Name) : List UInt8 := name.flatMap String.utf8EncodeChar

abbrev Ipv4Addr := Vector UInt8 4
abbrev Ipv6Addr := Vector UInt8 16

inductive IpAddr
  | v4 (ip : Ipv4Addr)
  | v6 (ip : Ipv6Addr)
  deriving DecidableEq, Repr

namespace Dns

def plainModulus : ℕ := 1025
def coeffBits : ℕ := 10
def coeffsPerGroup : ℕ := 4
def coeffsPerGroupBytes : ℕ := 5
def bucketBytes : ℕ := rank / coeffsPerGroup * coeffsPerGroupBytes

abbrev Bucket := Vector UInt8 bucketBytes

def entriesPerShard (numEntries : ℕ) : Option ℕ := do
  let (indexGroupPrimary, _) ← getDatabaseShape numEntries
  return simdCount * indexGroupPrimary.groupOrder

def kindA : UInt8 := 0
def kindAaaa : UInt8 := 1
def kindNs4 : UInt8 := 2
def kindNs6 : UInt8 := 3

def discBits : ℕ := 14
def discMask : UInt16 := 0x3FFF
def maxEntriesPerBucket : ℕ := 65535
def bucketSaltBytes : ℕ := 4
def countBytes : ℕ := 2
def countOffset : ℕ := bucketSaltBytes
def firstEntryOffset : ℕ := bucketSaltBytes + countBytes

inductive Record
  | a (ip : Ipv4Addr)
  | aaaa (ip : Ipv6Addr)
  | ns (ip : IpAddr)
  deriving DecidableEq, Repr

/-! ## Hashing -/

/-- `trim_end_matches('.').to_ascii_lowercase()`. -/
def canonical (name : Name) : Name := (name.rdropWhile (· == '.')).map Char.toLower

/-- One byte of `mix64`. -/
def mixByte (h : UInt64) (b : UInt8) : UInt64 :=
  let h := (h + b.toUInt64) * 0x100000001b3
  h ^^^ h >>> 27

def mix64 (input : List UInt8) (salt : UInt64) : UInt64 :=
  let h := input.foldl mixByte (salt ^^^ 0x9E3779B97F4A7C15)
  let h := (h ^^^ h >>> 33) * 0xff51afd7ed558ccd
  let h := (h ^^^ h >>> 33) * 0xc4ceb9fe1a85ec53
  h ^^^ h >>> 33

def discriminator (canonName : Name) (globalSalt : UInt64) (bucketSalt : UInt32) : UInt16 :=
  let mixed := globalSalt ^^^ 0xD15CD15CD15CD15C ^^^ bucketSalt.toUInt64 * 0x9E3779B97F4A7C15
  (mix64 canonName.bytes mixed).toUInt16 &&& discMask

/-- The number that is split into the two indices. -/
def slotHash (canonName : Name) (numEntries : ℕ) (salt : UInt64) : ℕ :=
  (mix64 canonName.bytes (salt ^^^ 0x510751075107510)).toNat % numEntries

def slot (canonName : Name) (numEntries : ℕ) (salt : UInt64) : Option (ℕ × ℕ) :=
  if numEntries > 0 then do
    let slotsPerShard ← entriesPerShard numEntries
    if slotsPerShard ≠ 0 then
      let s := slotHash canonName numEntries salt
      return (s / slotsPerShard, s % slotsPerShard)
    else none
  else none

/-! ## Entries -/

def packTag (disc : UInt16) (kind : UInt8) : Option (List UInt8) :=
  if disc ≤ discMask ∧ kind.toNat < 2 ^ (16 - discBits) then
    some (Bytes.toLe 2 (disc &&& discMask ||| kind.toUInt16 <<< 14).toNat)
  else none

/-- The discriminator and the kind of a tag. -/
def parseTag (bytes : List UInt8) : UInt16 × UInt8 :=
  let v := UInt16.ofNat (Bytes.ofLe bytes)
  (v &&& discMask, (v >>> 14).toUInt8)

def rdataBytes (kind : UInt8) : Option ℕ :=
  if kind = kindA ∨ kind = kindNs4 then some 4
  else if kind = kindAaaa ∨ kind = kindNs6 then some 16
  else none

def entrySize (kind : UInt8) : Option ℕ := do
  return 2 + (← rdataBytes kind)

/-- `bucket[start..start + len]`. -/
def slice (bucket : Bucket) (start len : ℕ) : Option (List UInt8) :=
  if start + len ≤ bucketBytes then some ((bucket.toList.drop start).take len) else none

def readBucketSalt (bucket : Bucket) : UInt32 :=
  UInt32.ofNat (Bytes.ofLe (bucket.toList.take bucketSaltBytes))

def writeBucketSalt (bucket : Bucket) (bucketSalt : UInt32) : Bucket :=
  Bytes.splice bucket 0 (Bytes.toLe bucketSaltBytes bucketSalt.toNat)

def readEntryCount (bucket : Bucket) : UInt16 :=
  UInt16.ofNat (Bytes.ofLe ((bucket.toList.drop countOffset).take countBytes))

def writeEntryCount (bucket : Bucket) (count : UInt16) : Bucket :=
  Bytes.splice bucket countOffset (Bytes.toLe countBytes count.toNat)

inductive BucketError
  | tooManyEntries (got max : ℕ)
  | overflow (needed available : ℕ)
  deriving DecidableEq, Repr

/-- The kind a record is written with. -/
def Record.kind : Record → UInt8
  | .a _ => kindA
  | .aaaa _ => kindAaaa
  | .ns (.v4 _) => kindNs4
  | .ns (.v6 _) => kindNs6

/-- The octets of a record's address. -/
def Record.octets : Record → List UInt8
  | .a ip => ip.toList
  | .aaaa ip => ip.toList
  | .ns (.v4 ip) => ip.toList
  | .ns (.v6 ip) => ip.toList

/-- A bucket being filled, and where its next entry goes. -/
abbrev Filling := Bucket × UInt16

/-- An error leaves the bucket and the position as they are. -/
def appendEntry (kind : UInt8) (disc : UInt16) (rec : Record) :
    ExceptT BucketError (StateT Filling Option) Unit :=
  fun (bucket, pos) => do
    let count := readEntryCount bucket
    if count.toNat ≥ maxEntriesPerBucket then
      return (.error (.tooManyEntries (count.toNat + 1) maxEntriesPerBucket), (bucket, pos))
    else
      let sz ← entrySize kind
      let start := pos.toNat
      let stop := start + sz
      if stop > bucketBytes then return (.error (.overflow stop bucketBytes), (bucket, pos))
      else
        let tag ← packTag disc kind
        if kind = rec.kind then
          let bucket := Bytes.splice (Bytes.splice bucket start tag) (start + 2) rec.octets
          return (.ok (), (writeEntryCount bucket (count + 1), UInt16.ofNat stop))
        else none

def emptyBucket : Bucket := Vector.replicate bucketBytes 0

def encodeBucket (bucketSalt : UInt32) (entries : List (UInt8 × UInt16 × Record)) :
    Option (Except BucketError Bucket) := do
  let fill := entries.forM fun (kind, disc, rec) => appendEntry kind disc rec
  let (result, (buf, _)) ← fill (writeBucketSalt emptyBucket bucketSalt, UInt16.ofNat firstEntryOffset)
  return result.map fun _ => buf

/-- `copy_from_slice` into an array. -/
def toArray (n : ℕ) (rdata : List UInt8) : Option (Vector UInt8 n) :=
  if h : rdata.length = n then some ⟨rdata.toArray, by simpa using h⟩ else none

/-- The record of an entry. Other kinds are `unreachable!`. -/
def parseRecord (kind : UInt8) (rdata : List UInt8) : Option Record :=
  if kind = kindA then Record.a <$> toArray 4 rdata
  else if kind = kindAaaa then Record.aaaa <$> toArray 16 rdata
  else if kind = kindNs4 then (fun ip => Record.ns (.v4 ip)) <$> toArray 4 rdata
  else if kind = kindNs6 then (fun ip => Record.ns (.v6 ip)) <$> toArray 16 rdata
  else none

/-- The loop of `decode_bucket_matching`, `count` entries before its end. -/
def decodeEntries (bucket : Bucket) (wantDisc : UInt16) : ℕ → ℕ → Option (List Record)
  | 0, _ => some []
  | count + 1, pos =>
    if pos + 2 > bucketBytes then some []
    else do
      let (disc, kind) := parseTag (← slice bucket pos 2)
      match rdataBytes kind with
      | none => return []
      | some body =>
        let pos := pos + 2
        if pos + body > bucketBytes then return []
        else if disc = wantDisc then
          let rec ← parseRecord kind (← slice bucket pos body)
          let out ← decodeEntries bucket wantDisc count (pos + body)
          return rec :: out
        else decodeEntries bucket wantDisc count (pos + body)

def decodeBucketMatching (bucket : Bucket) (wantDisc : UInt16) : Option (List Record) :=
  decodeEntries bucket wantDisc (readEntryCount bucket).toNat firstEntryOffset

/-! ## Coefficients -/

/-- The low bits of a coefficient. -/
def coeffPayload (c : UInt16) : ℕ := c.toNat &&& (2 ^ coeffBits - 1)

/-- The four coefficients of group `g` in one number. -/
def unpackGroup (coeffs : Vector UInt16 rank) (g : Fin (rank / coeffsPerGroup)) : ℕ :=
  have hg : g.val < 512 := g.isLt
  have hr : rank = 2048 := rfl
  coeffPayload coeffs[g.val * 4] ||| coeffPayload coeffs[g.val * 4 + 1] <<< 10 |||
    coeffPayload coeffs[g.val * 4 + 2] <<< 20 ||| coeffPayload coeffs[g.val * 4 + 3] <<< 30

def unpackCoeffsIntoBytes (coeffs : Vector UInt16 rank) : Bucket :=
  Vector.ofFn fun i =>
    let g : Fin (rank / coeffsPerGroup) :=
      ⟨i / coeffsPerGroupBytes, Nat.div_lt_of_lt_mul (Nat.mul_comm _ _ ▸ i.isLt)⟩
    UInt8.ofNat (unpackGroup coeffs g >>> (8 * (i % coeffsPerGroupBytes)))

/-- The five bytes of group `g` in one number. -/
def packGroup (bucket : Bucket) (g : ℕ) : ℕ :=
  Bytes.ofLe ((bucket.toList.drop (g * coeffsPerGroupBytes)).take coeffsPerGroupBytes)

def packBytesIntoCoeffs (bucket : Bucket) : Vector UInt16 rank :=
  Vector.ofFn fun i => UInt16.ofNat
    (packGroup bucket (i / coeffsPerGroup) >>> (10 * (i % coeffsPerGroup)) &&&
    (2 ^ coeffBits - 1))

end Dns

end Dnspir
