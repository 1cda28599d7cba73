/-
Frames and the `INFO` reply (`protocol`).

`none` is a panic, an index out of range; what the code rejects is an error. A
connection that is read from is the bytes that are still to come on it, one
that is written to takes them all. The byte counters are left out.
-/
import Dnspir.Dns.Bucket

namespace Dnspir

namespace Dns

inductive ErrorKind
  | invalidData
  | unexpectedEof
  | other
  /-- What the operating system reports. -/
  | os (code : ℕ)
  deriving DecidableEq, Repr

structure IoError where
  kind : ErrorKind
  message : Name
  deriving DecidableEq, Repr

def cmdInfo : UInt8 := 1
def cmdQuery : UInt8 := 2
def cmdDump : UInt8 := 3

def flagPirAvailable : UInt8 := 1
def flagDumpAvailable : UInt8 := 2

def respUnavailable : List UInt8 := [0xFF]

/-! ## Frames -/

def frameTooLarge : IoError := ⟨.invalidData, "frame too large".toList⟩

/-- The bytes that are written. -/
def writeFrame (payload : List UInt8) : Except IoError (List UInt8) :=
  if payload.length < 2 ^ 32 then .ok (Bytes.toBe 4 payload.length ++ payload) else .error frameTooLarge

abbrev Reader := ExceptT IoError (StateM (List UInt8))

/-- `Read::read_exact`: a stream that ends too early is read to its end. -/
def readExact (n : ℕ) : Reader (List UInt8) := fun stream =>
  if n ≤ stream.length then (.ok (stream.take n), stream.drop n)
  else (.error ⟨.unexpectedEof, "failed to fill whole buffer".toList⟩, [])

def readFrame : Reader (List UInt8) := do
  let len := Bytes.ofBe (← readExact 4)
  if len > 64 * 1024 * 1024 then throw frameTooLarge
  readExact len

/-! ## The `INFO` reply -/

structure InfoResponse where
  flags : UInt8
  numEntries : UInt32
  zoneName : Name
  dumpSize : UInt32
  hashSalt : UInt64
  deriving DecidableEq, Repr

def InfoResponse.hasPir (info : InfoResponse) : Bool := info.flags &&& flagPirAvailable != 0

def InfoResponse.hasDump (info : InfoResponse) : Bool := info.flags &&& flagDumpAvailable != 0

def encodeInfo (resp : InfoResponse) : List UInt8 :=
  let z := resp.zoneName.bytes
  resp.flags :: (Bytes.toBe 4 resp.numEntries.toNat ++ (Bytes.toBe 4 (z.length % 2 ^ 32) ++
    (z ++ (Bytes.toBe 4 resp.dumpSize.toNat ++ Bytes.toBe 8 resp.hashSalt.toNat))))

/-- `payload[start..start + len]`. -/
def payloadSlice (payload : List UInt8) (start len : ℕ) : Option (List UInt8) :=
  if start + len ≤ payload.length then some ((payload.drop start).take len) else none

/-- `String::from_utf8`. -/
def fromUtf8 (bytes : List UInt8) : Option Name := (String.fromUTF8? ⟨bytes.toArray⟩).map String.toList

def shortInfoReply : IoError := ⟨.invalidData, "short INFO reply".toList⟩

def decodeInfo (payload : List UInt8) : Option (Except IoError InfoResponse) :=
  if payload.length < 1 + 4 + 4 then some (.error shortInfoReply)
  else do
    let flags ← payload[0]?
    let numEntries := UInt32.ofNat (Bytes.ofBe (← payloadSlice payload 1 4))
    let zl := Bytes.ofBe (← payloadSlice payload 5 4)
    if payload.length < 9 + zl + 4 + 8 then return .error shortInfoReply
    else
      match fromUtf8 (← payloadSlice payload 9 zl) with
      | none => return .error ⟨.invalidData, "bad zone name utf-8".toList⟩
      | some zoneName =>
        let dumpSize := UInt32.ofNat (Bytes.ofBe (← payloadSlice payload (9 + zl) 4))
        let hashSalt := UInt64.ofNat (Bytes.ofBe (← payloadSlice payload (9 + zl + 4) 8))
        return .ok ⟨flags, numEntries, zoneName, dumpSize, hashSalt⟩

end Dns

end Dnspir
