/-
The client (`client`): the walk of one server's suffixes, the iterative
resolution, and the two kinds of server a connection can turn into.

A query function returns records or an error. The events of a resolution are
the list of them, in order. What a socket sends back for a frame, the gunzip
and the random draws are parameters; the cache on disk is not read by any of
these functions.
-/
import Dnspir.Dns.Zone

namespace Dnspir

open DoublePir PirWrapper

namespace Dns

def defaultPort : UInt16 := 9000
def maxHops : ℕ := 16
def dumpFetchCapBytes : ℕ := 2 * 1024 * 1024

structure SocketAddr where
  ip : IpAddr
  port : UInt16
  deriving DecidableEq, Repr

structure DnsServer where
  zoneName : Name
  query : Name → Except IoError (List Record)

abbrev DnsServerFactory := SocketAddr → Except IoError DnsServer

inductive HopOutcome
  | answer (recs : List Record)
  | delegation (source : Name) (nsIps : List IpAddr)
  | notFound
  | outOfZone
  deriving DecidableEq, Repr

inductive ResolutionResult
  | found (recs : List Record)
  | notFound
  | failed (why : Name)
  deriving DecidableEq, Repr

inductive ResolutionEvent
  | connectFailed (addr : SocketAddr) (error : Name)
  | hopStart (hop : ℕ) (addr : SocketAddr) (zone : Name)
  | delegation (source : Name) (nsIps : List IpAddr)
  deriving DecidableEq, Repr

/-! ## One server -/

def stripLeftmost (name : Name) : Option Name :=
  match name.dropWhile (· != '.') with
  | [] => none
  | _ :: rest => some rest

theorem stripLeftmost_length {name stripped : Name} (h : stripLeftmost name = some stripped) :
    stripped.length < name.length := by
  unfold stripLeftmost at h
  split at h
  next => cases h
  next c rest hd =>
    cases h
    have hle := (List.dropWhile_sublist (l := name) (· != '.')).length_le
    rw [hd, List.length_cons] at hle
    exact hle

/-- The function of the same semantics in the zone module. -/
def targetBelongsToZone (target zone : Name) : Bool := nameInSuffix target zone

def Record.isAddress : Record → Bool
  | .a _ => true
  | .aaaa _ => true
  | .ns _ => false

def Record.nsIp : Record → Option IpAddr
  | .ns ip => some ip
  | _ => none

/-- The loop of `one_hop`, from a name on. -/
def hopFrom (server : DnsServer) (target tryName : Name) : Except IoError HopOutcome :=
  match server.query tryName with
  | .error e => .error e
  | .ok records =>
    let aRecs := records.filter Record.isAddress
    let nsIps := records.filterMap Record.nsIp
    if tryName = target ∧ aRecs ≠ [] then .ok (.answer aRecs)
    else if nsIps ≠ [] then .ok (.delegation tryName nsIps)
    else if tryName = server.zoneName then .ok .notFound
    else
      match _h : stripLeftmost tryName with
      | some stripped => hopFrom server target stripped
      | none => .ok .notFound
termination_by tryName.length
decreasing_by exact stripLeftmost_length _h

def oneHop (server : DnsServer) (target : Name) : Except IoError HopOutcome :=
  if !targetBelongsToZone target server.zoneName then .ok .outOfZone else hopFrom server target target

/-! ## Iterative resolution -/

/-- `Vec::pop`. -/
def pop {α : Type} (stack : List α) : Option (α × List α) :=
  stack.getLast?.map fun x => (x, stack.dropLast)

theorem pop_length {α : Type} {stack rest : List α} {x : α} (h : pop stack = some (x, rest)) :
    rest.length < stack.length := by
  rw [pop, Option.map_eq_some_iff] at h
  obtain ⟨y, hy, he⟩ := h
  cases he
  have hne : stack ≠ [] := by
    rintro rfl
    cases hy
  rw [List.length_dropLast]
  have := List.length_pos_iff.mpr hne
  omega

/-- The pops until a candidate connects: what it is, the candidates that are
left, how many were tried, and the events. -/
def connectNext (factory : DnsServerFactory) (candidates : List SocketAddr) (triedTotal : ℕ) :
    Option (SocketAddr × DnsServer) × List SocketAddr × ℕ × List ResolutionEvent :=
  match _h : pop candidates with
  | none => (none, candidates, triedTotal, [])
  | some (addr, rest) =>
    match factory addr with
    | .ok server => (some (addr, server), rest, triedTotal + 1, [])
    | .error e =>
      let (server, rest, triedTotal, events) := connectNext factory rest (triedTotal + 1)
      (server, rest, triedTotal, .connectFailed addr e.message :: events)
termination_by candidates.length
decreasing_by exact pop_length _h

/-- A number in decimal. -/
def showNat (n : ℕ) : Name := (Nat.repr n).toList

/-- The outer loop, from `hops` hops on. -/
def resolveFrom (factory : DnsServerFactory) (target : Name) (candidates : List SocketAddr)
    (triedTotal hops : ℕ) : ResolutionResult × List ResolutionEvent :=
  if candidates.isEmpty then (.failed "no candidates left to try".toList, [])
  else if hops ≥ maxHops then (.failed ("too many hops (".toList ++ showNat maxHops ++ ")".toList), [])
  else
    let (serverAndAddr, _, triedTotal, failures) := connectNext factory candidates triedTotal
    match serverAndAddr with
    | none =>
      (.failed ("no candidate server reachable (tried ".toList ++ showNat triedTotal ++ ")".toList),
        failures)
    | some (addr, server) =>
      let hops := hops + 1
      let events := failures ++ [.hopStart hops addr server.zoneName]
      match oneHop server target with
      | .ok (.answer recs) => (.found recs, events)
      | .ok (.delegation source nsIps) =>
        -- The pool is cleared; what the pops have left of it is dropped.
        let candidates := nsIps.reverse.map fun ip => ⟨ip, defaultPort⟩
        let (result, rest) := resolveFrom factory target candidates triedTotal hops
        (result, events ++ .delegation source nsIps :: rest)
      | .ok .notFound => (.notFound, events)
      | .ok .outOfZone =>
        (.failed ("target ".toList ++ target ++ " doesn't belong to zone .".toList ++
          server.zoneName), events)
      | .error e => (.failed ("query error: ".toList ++ e.message), events)
termination_by maxHops - hops

def resolveIteratively (target : Name) (initialCandidates : List SocketAddr)
    (factory : DnsServerFactory) : ResolutionResult × List ResolutionEvent :=
  let target := canonical target
  if target.isEmpty then (.failed "empty domain name".toList, [])
  else if initialCandidates.isEmpty then (.failed "no servers to try".toList, [])
  else resolveFrom factory target initialCandidates.reverse 0 0

/-! ## A downloaded zone -/

/-- `LocalZoneServer::query`. -/
def Zone.query (zone : Zone) (canonName : Name) : Option (List Record) :=
  match zone.records.lookup canonName with
  | none => some []
  | some entry => do
    let ns ← entry.ns.mapM fun nsIdx => do
      let nshost ← zone.nsHostname nsIdx
      return Record.ns ((zone.glueFor nshost).getD (dummyIp nshost))
    return entry.a.map .a ++ entry.aaaa.map .aaaa ++ ns

/-! ## A server in PIR mode -/

def coeffsToBucket (coeffs : List (ZMod primaryPlainModulus)) : Option Bucket :=
  if h : coeffs.length ≥ rank then
    some (unpackCoeffsIntoBytes (Vector.ofFn fun i : Fin rank =>
      UInt16.ofNat (coeffs.get ⟨i, i.isLt.trans_le h⟩).val))
  else none

/-- The random draws of one query. -/
structure QueryRandomness where
  skSeed : Seed
  errors : QueryErrors rank

/-- The functions of the libraries that a query calls. -/
structure Libraries where
  fm : FeanorMath
  stdRng : Seed → ℕ → UInt64 × UInt32

/-- `TcpDnsServer::query`; `exchange` is a frame and the reply to it. -/
def InfoResponse.query (lib : Libraries) (rng : QueryRandomness)
    (exchange : List UInt8 → Except IoError (List UInt8)) (info : InfoResponse) (canonName : Name) :
    Option (Except IoError (List Record)) := do
  let salt := info.hashSalt
  let (secondaryIdx, primaryIdx) ← slot canonName info.numEntries.toNat salt
  let (queryBytes, skSeed) ←
    prepareQuery lib.fm lib.stdRng rng.skSeed rng.errors primaryIdx secondaryIdx info.numEntries.toNat
  match exchange (cmdQuery :: queryBytes) with
  | .error e => return .error e
  | .ok reply =>
    if reply = respUnavailable then
      return .error ⟨.other, "server refused PIR query (no PIR mode)".toList⟩
    else do
      let coeffs ← processReply lib.stdRng reply skSeed
      let bucket ← coeffsToBucket coeffs.toList
      let bucketSalt := readBucketSalt bucket
      let disc := discriminator canonName salt bucketSalt
      return .ok (← decodeBucketMatching bucket disc)

/-! ## Connecting -/

/-- What `HybridFactory::connect` returns. -/
inductive Session
  | localZone (zone : Zone)
  | tcp (info : InfoResponse)

/-- The text of a socket address. -/
def SocketAddr.show (fmt : IpFormat) (addr : SocketAddr) : Name :=
  match addr.ip with
  | .v4 ip => fmt.showV4 ip ++ ':' :: showNat addr.port.toNat
  | .v6 ip => '[' :: fmt.showV6 ip ++ "]:".toList ++ showNat addr.port.toNat

/-- `HybridFactory::connect`, with what it leaves at the path of the cache; `saves`
is whether it has a path and can write there. -/
def connect (fmt : IpFormat) (decompress : List UInt8 → Except IoError (List UInt8)) (saves : Bool)
    (exchange : List UInt8 → Except IoError (List UInt8)) (addr : SocketAddr)
    (cache : Option (List UInt8)) : Option (Except IoError Session) × Option (List UInt8) :=
  match exchange [cmdInfo] with
  | .error e => (some (.error e), cache)
  | .ok infoBytes =>
    match decodeInfo infoBytes with
    | none => (none, cache)
    | some (.error e) => (some (.error e), cache)
    | some (.ok info) =>
      if info.hasDump ∧ info.dumpSize.toNat ≤ dumpFetchCapBytes then
        match exchange [cmdDump] with
        | .error e => (some (.error e), cache)
        | .ok gz =>
          if gz = respUnavailable then
            (some (.error ⟨.other, "server at ".toList ++ addr.show fmt ++
              " advertised a dump but refused to send it".toList⟩), cache)
          else if gz.length > dumpFetchCapBytes then
            (some (.error ⟨.invalidData,
              "dump ".toList ++ showNat gz.length ++ " B exceeds cap ".toList ++
              showNat dumpFetchCapBytes ++ " B".toList⟩), cache)
          else
            -- Only the global zone is cached, before it is known to load.
            let cache := if info.zoneName = [] ∧ saves then some gz else cache
            ((loadDump fmt decompress gz).map fun loaded => loaded.map .localZone, cache)
      else if info.hasPir then (some (.ok (.tcp info)), cache)
      else (some (.error ⟨.other, "server at ".toList ++ addr.show fmt ++
        " offers neither PIR nor a fetchable dump".toList⟩), cache)

end Dns

end Dnspir
