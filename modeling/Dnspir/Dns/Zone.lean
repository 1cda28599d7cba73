/-
Zone files: parsing and serialization (`zone`).

The record map has its keys in no particular order. Text is a list of
characters: reading a line fails where the bytes are not UTF-8, so what is
parsed is the text of all of them. A final empty line and the warnings about
addresses that do not parse have no effect.

How addresses are read and written is a parameter.
-/
import Mathlib.Data.List.AList
import Dnspir.Lib.Labels
import Dnspir.Dns.Protocol

namespace Dnspir

namespace Dns

/-- `Display` and `FromStr` of the address types. -/
structure IpFormat where
  showV4 : Ipv4Addr → Name
  parseV4 : Name → Option Ipv4Addr
  showV6 : Ipv6Addr → Name
  parseV6 : Name → Option Ipv6Addr

structure NameRecords where
  a : List Ipv4Addr := []
  aaaa : List Ipv6Addr := []
  /-- Indices into the pool. -/
  ns : List UInt32 := []
  deriving DecidableEq

structure Zone where
  records : AList fun _ : Name => NameRecords
  zoneName : Name
  nsPool : List Name

namespace Zone

def nsHostname (zone : Zone) (idx : UInt32) : Option Name := zone.nsPool[idx.toNat]?

def glueFor (zone : Zone) (name : Name) : Option IpAddr := do
  let rec ← zone.records.lookup name
  match rec.a.head? with
  | some ip => return .v4 ip
  | none =>
    match rec.aaaa.head? with
    | some ip => return .v6 ip
    | none => none

end Zone

/-! ## Characters -/

/-- `char::is_whitespace`. -/
def isWhitespace (c : Char) : Bool :=
  let n := c.toNat
  (9 ≤ n ∧ n ≤ 13) ∨ n = 0x20 ∨ n = 0x85 ∨ n = 0xA0 ∨ n = 0x1680 ∨ (0x2000 ≤ n ∧ n ≤ 0x200A) ∨
    n = 0x2028 ∨ n = 0x2029 ∨ n = 0x202F ∨ n = 0x205F ∨ n = 0x3000

def isAsciiWhitespace (c : Char) : Bool := c ∈ [' ', '\t', '\n', '\r', Char.ofNat 12]

def isAsciiDigit (c : Char) : Bool := '0' ≤ c ∧ c ≤ '9'

def trim (s : Name) : Name := (s.dropWhile isWhitespace).rdropWhile isWhitespace

def splitAsciiWhitespace (s : Name) : List Name :=
  (s.splitOnP isAsciiWhitespace).filter fun tok => !tok.isEmpty

def eqIgnoreAsciiCase (a b : Name) : Bool := a.map Char.toLower == b.map Char.toLower

/-- `String::len`, in bytes: no string has more than a `usize` can count. -/
def strLen (s : Name) : UInt64 := UInt64.ofNat (min s.bytes.length (2 ^ 64 - 1))

/-! ## Suffixes -/

/-- On characters: the byte before the suffix is a dot when the character is. -/
def nameInSuffix (name zone : Name) : Bool :=
  zone.isEmpty || name == zone ||
    (decide (zone.length < name.length) && zone.isSuffixOf name &&
      name[name.length - zone.length - 1]? == some '.')

/-- `rsplit('.')`. -/
def rsplitDot (name : Name) : List Name := (name.splitOn '.').reverse

/-- The loop goes on while the labels from the right agree. -/
def commonSuffixStr (a b : Name) : Name :=
  ['.'].intercalate (Labels.commonPrefix (rsplitDot a) (rsplitDot b)).reverse

def dummyIp (hostname : Name) : IpAddr :=
  let h := hostname.bytes.foldl (fun (h : UInt32) b => h * 31 + b.toUInt32) 0
  .v4 #v[192, 0, 2, (h &&& 0xFF).toUInt8]

/-! ## Parsing -/

structure ParseState where
  records : AList fun _ : Name => NameRecords
  nsPool : List Name
  nsIntern : AList fun _ : Name => UInt32
  zoneSuffix : Option Name

namespace ParseState

def empty : ParseState := ⟨∅, [], ∅, none⟩

/-- The entry of a name, made if it is not there. -/
def touch (st : ParseState) (name : Name) : ParseState :=
  if name ∈ st.records then st else { st with records := st.records.insert name {} }

/-- A change of the entry of a name. -/
def update (st : ParseState) (name : Name) (f : NameRecords → NameRecords) : ParseState :=
  { st with records := st.records.insert name (f ((st.records.lookup name).getD {})) }

/-- The index of a host in the pool, which gets it if it is not there. -/
def intern (st : ParseState) (nsCanon : Name) : Option (UInt32 × ParseState) :=
  match st.nsIntern.lookup nsCanon with
  | some i => some (i, st)
  | none =>
    if st.nsPool.length < 2 ^ 32 then
      let i := UInt32.ofNat st.nsPool.length
      some (i, { st with nsPool := st.nsPool ++ [nsCanon], nsIntern := st.nsIntern.insert nsCanon i })
    else none

def trackSuffix (st : ParseState) (name : Name) : ParseState :=
  { st with zoneSuffix := some (match st.zoneSuffix with
    | none => name
    | some current => if nameInSuffix name current then current else commonSuffixStr current name) }

end ParseState

def isTtl (tok : Name) : Bool := !tok.isEmpty && tok.all isAsciiDigit

def isClass (tok : Name) : Bool :=
  eqIgnoreAsciiCase tok "in".toList || eqIgnoreAsciiCase tok "cs".toList ||
    eqIgnoreAsciiCase tok "ch".toList || eqIgnoreAsciiCase tok "hs".toList

inductive RecordType
  | a
  | aaaa
  | ns
  deriving DecidableEq

def recordType (rtypeRaw : Name) : Option RecordType :=
  if eqIgnoreAsciiCase rtypeRaw "a".toList then some .a
  else if eqIgnoreAsciiCase rtypeRaw "aaaa".toList then some .aaaa
  else if eqIgnoreAsciiCase rtypeRaw "ns".toList then some .ns
  else none

/-- The owner, type and rdata of a line that is a keeper. -/
def lineFields (line : Name) : Option (Name × RecordType × Name) :=
  let line := trim line
  if line.isEmpty || line.head? == some ';' then none
  else
    match splitAsciiWhitespace line with
    | [] => none
    | nameRaw :: fields =>
      match fields.dropWhile fun tok => isTtl tok || isClass tok with
      | rtypeRaw :: rdata :: _ => (recordType rtypeRaw).map fun kind => (nameRaw, kind, rdata)
      | _ => none

def parseLine (fmt : IpFormat) (st : ParseState) (line : Name) : Option ParseState :=
  match lineFields line with
  | none => some st
  | some (nameRaw, kind, rdata) =>
    let name := canonical nameRaw
    let st := st.touch name
    match kind with
    | .a =>
      match fmt.parseV4 rdata with
      | none => some st
      | some ip =>
        some ((st.update name fun entry => { entry with a := entry.a ++ [ip] }).trackSuffix name)
    | .aaaa =>
      match fmt.parseV6 rdata with
      | none => some st
      | some ip =>
        some ((st.update name fun entry => { entry with aaaa := entry.aaaa ++ [ip] }).trackSuffix name)
    | .ns => do
      let (idx, st) ← st.intern (canonical rdata)
      return (st.update name fun entry => { entry with ns := entry.ns ++ [idx] }).trackSuffix name

def Zone.parse (fmt : IpFormat) (text : Name) : Option Zone := do
  let st ← (text.splitOn '\n').foldlM (parseLine fmt) .empty
  return ⟨st.records, st.zoneSuffix.getD [], st.nsPool⟩

/-! ## Serialization -/

/-- One line of a dump. -/
def recordLine (name rtype rdata : Name) : Name :=
  name ++ ".\t3600\tin\t".toList ++ rtype ++ '\t' :: rdata ++ ['\n']

/-- The lines of one name; `none` is a line that panics. -/
def nameLines (fmt : IpFormat) (zone : Zone) (name : Name) : List (Option Name) :=
  match zone.records.lookup name with
  | none => [none]
  | some entry =>
    (entry.a.map fun ip => some (recordLine name "a".toList (fmt.showV4 ip))) ++
      (entry.aaaa.map fun ip => some (recordLine name "aaaa".toList (fmt.showV6 ip))) ++
      entry.ns.map fun nsIdx => (zone.nsHostname nsIdx).map fun nshost =>
        recordLine name "ns".toList (nshost ++ ['.'])

def zoneLines (fmt : IpFormat) (zone : Zone) : List (Option Name) :=
  (zone.records.keys.mergeSort fun a b => decide (a ≤ b)).flatMap (nameLines fmt zone)

def writeLines (cap : UInt64) : List (Option Name) → Name → Option (Except UInt64 Name)
  | [], out => some (.ok out)
  | line :: lines, out => do
    let out := out ++ (← line)
    if strLen out > cap then return .error (strLen out) else writeLines cap lines out

def serializeBounded (fmt : IpFormat) (zone : Zone) (cap : UInt64) : Option (Except UInt64 Name) :=
  writeLines cap (zoneLines fmt zone) []

def serialize (fmt : IpFormat) (zone : Zone) : Option Name := do
  match ← serializeBounded fmt zone (UInt64.ofNat (2 ^ 64 - 1)) with
  | .ok out => return out
  | .error _ => none

/-- `decompress` is the gunzip. -/
def loadDump (fmt : IpFormat) (decompress : List UInt8 → Except IoError (List UInt8))
    (gz : List UInt8) : Option (Except IoError Zone) :=
  match decompress gz with
  | .error e => some (.error e)
  | .ok bytes =>
    match fromUtf8 bytes with
    | none => some (.error ⟨.invalidData, "stream did not contain valid UTF-8".toList⟩)
    | some text => (Zone.parse fmt text).map .ok

end Dns

end Dnspir
