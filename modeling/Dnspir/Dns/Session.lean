/-
The client from the outside (`client::run_inner`): what a session answers, the
cache of the global zone on disk, and a resolution that begins with it.

The file of the cache is its bytes, if there is one; whether it can be written
is a parameter. A resolution reads it once, before it connects anywhere. What
is printed is left out.
-/
import Dnspir.Dns.ServerFacts

namespace Dnspir

open DoublePir PirWrapper

namespace Dns

/-! ## Sessions -/

def Session.zoneName : Session → Name
  | .localZone zone => zone.zoneName
  | .tcp info => info.zoneName

/-- `DnsServer::query`. -/
def Session.query (lib : Libraries) (rng : QueryRandomness)
    (exchange : List UInt8 → Except IoError (List UInt8)) (session : Session) (canonName : Name) :
    Option (Except IoError (List Record)) :=
  match session with
  | .localZone zone => (zone.query canonName).map .ok
  | .tcp info => info.query lib rng exchange canonName

/-! ## The cache -/

/-- What a server has to be asked to be connected to. -/
structure Visit where
  exchange : List UInt8 → Except IoError (List UInt8)
  addr : SocketAddr
  saves : Bool

/-- The cache after some connections. -/
def cacheAfter (fmt : IpFormat) (decompress : List UInt8 → Except IoError (List UInt8))
    (visits : List Visit) (cache : Option (List UInt8)) : Option (List UInt8) :=
  visits.foldl (fun cache visit =>
    (connect fmt decompress visit.saves visit.exchange visit.addr cache).2) cache

/-- A zone that a lookup does not panic on. -/
abbrev ValidZone := {zone : Zone // zone.Valid}

theorem Zone.valid_of_loadDump {fmt : IpFormat}
    {decompress : List UInt8 → Except IoError (List UInt8)} {gz : List UInt8} {zone : Zone}
    (h : loadDump fmt decompress gz = some (.ok zone)) : zone.Valid := by
  unfold loadDump at h
  split at h
  next => cases h
  next =>
    split at h
    next => cases h
    next =>
      obtain ⟨zone', hparse, hzone⟩ := Option.map_eq_some_iff.mp h
      exact Zone.valid_of_parse (Except.ok.inj hzone ▸ hparse)

/-- What does not load is no cache. -/
def loadCache (fmt : IpFormat) (decompress : List UInt8 → Except IoError (List UInt8))
    (cache : Option (List UInt8)) : Option (Option ValidZone) :=
  match cache with
  | none => some none
  | some bytes =>
    match h : loadDump fmt decompress bytes with
    | none => none
    | some (.error _) => some none
    | some (.ok zone) => some (some ⟨zone, Zone.valid_of_loadDump h⟩)

/-- `LocalZoneServer::new`. -/
def localZoneServer (zone : ValidZone) : DnsServer where
  zoneName := zone.1.zoneName
  query name := .ok ((zone.1.query name).get (zone.2.query_isSome name))

/-! ## A resolution -/

inductive RunResult
  | invalidInput (message : Name)
  /-- The cache has the answer. -/
  | answered (recs : List Record)
  | noCandidates
  | resolved (result : ResolutionResult)
  deriving DecidableEq, Repr

/-- The first hop, in the cache: an answer, or where the resolution begins. -/
def cachedHop (cache : Option ValidZone) (canon : Name) : Except (List Record) (List SocketAddr) :=
  match cache with
  | none => .ok []
  | some zone =>
    if zone.1.zoneName = [] then
      match oneHop (localZoneServer zone) canon with
      | .ok (.answer recs) => .error recs
      | .ok (.delegation _ nsIps) => .ok (nsIps.map fun ip => ⟨ip, defaultPort⟩)
      | .ok .notFound => .ok []
      | .ok .outOfZone => .ok []
      | .error _ => .ok []
    else .ok []

/-- `--server` is the fallback at the end of the list. -/
def withBootstrap (cliBootstrap : Option SocketAddr) (candidates : List SocketAddr) : List SocketAddr :=
  match cliBootstrap with
  | none => candidates
  | some bootstrap => if bootstrap ∈ candidates then candidates else candidates ++ [bootstrap]

def runInner (fmt : IpFormat) (decompress : List UInt8 → Except IoError (List UInt8))
    (cache : Option (List UInt8)) (factory : DnsServerFactory) (target : Name)
    (cliBootstrap : Option SocketAddr) : Option (RunResult × List ResolutionEvent) := do
  let canon := canonical target
  if canon.isEmpty then return (.invalidInput "empty domain name".toList, [])
  else
    match cachedHop (← loadCache fmt decompress cache) canon with
    | .error recs => return (.answered recs, [])
    | .ok candidates =>
      let initialCandidates := withBootstrap cliBootstrap candidates
      if initialCandidates.isEmpty then return (.noCandidates, [])
      else
        let (result, events) := resolveIteratively canon initialCandidates factory
        return (.resolved result, events)

end Dns

end Dnspir
