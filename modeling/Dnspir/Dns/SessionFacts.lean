/-
What a client gets of a server, whichever way it is offered, and what the cache
keeps of it (`client::HybridFactory::connect`, `client::run_inner`).

* `session_served`: a started server is connected to, and for a name of its
  zone the session returns what the zone has.
* `cache_visits`: what any run of connections leaves in the cache.
* `runInner_cached`: a resolution that begins in the cache finds what one that
  begins at the server does.
-/
import Dnspir.Dns.CanonicalFacts
import Dnspir.Dns.ResolveFacts
import Dnspir.Dns.RetrieveFacts
import Dnspir.Dns.Session

namespace Dnspir

open PIRDatabase DoublePir PirWrapper

namespace Dns

/-! ## What a server offers -/

section Offers
variable {fm : FeanorMath} {state : ServerState} {fmt : IpFormat}
  {decompress : List UInt8 → Except IoError (List UInt8)} {addr : SocketAddr}
  {saves : Bool} {cache : Option (List UInt8)}

theorem length_encodeInfo (info : InfoResponse) :
    (encodeInfo info).length = info.zoneName.bytes.length + 21 := by
  simp only [encodeInfo, List.length_cons, List.length_append, Bytes.length_toBe]
  omega

/-- The name of a zone fits in an `INFO` reply. -/
def NameFitsFrame (name : Name) : Prop := name.bytes.length + 21 ≤ maxFrame

theorem nameFitsFrame_nil : NameFitsFrame [] := by
  rw [NameFitsFrame]
  decide

theorem exchange_info (h : NameFitsFrame state.zoneName) :
    state.exchange fm [cmdInfo] = .ok (encodeInfo state.info) :=
  exchange_of_answers answers_info (by decide) ((length_encodeInfo state.info).trans_le h)

theorem decodeInfo_info (h : NameFitsFrame state.zoneName) :
    decodeInfo (encodeInfo state.info) = some (.ok state.info) := by
  have hlt : state.info.zoneName.bytes.length < 2 ^ 32 := by
    change state.zoneName.bytes.length < _
    rw [NameFitsFrame, maxFrame] at h
    omega
  simpa using decodeInfo_append hlt []

/-- The flags tell what there is. -/
theorem flags_offers : ∀ pir dump : Bool,
    ((((if pir then flagPirAvailable else 0) |||
      if dump then flagDumpAvailable else 0) &&& flagPirAvailable) != 0) = pir ∧
      ((((if pir then flagPirAvailable else 0) |||
        if dump then flagDumpAvailable else 0) &&& flagDumpAvailable) != 0) = dump := by
  decide

theorem hasPir_info (state : ServerState) : state.info.hasPir = state.pir.isSome :=
  (flags_offers state.pir.isSome state.dump.isSome).1

theorem hasDump_info (state : ServerState) : state.info.hasDump = state.dump.isSome :=
  (flags_offers state.pir.isSome state.dump.isSome).2

/-- The size of a dump is told up to 2^32. -/
theorem dumpSize_info {gz : List UInt8} (hdump : state.dump = some gz) (h32 : gz.length < 2 ^ 32) :
    state.info.dumpSize.toNat = gz.length := by
  simp only [ServerState.info, hdump, Option.map_some, Option.getD_some, UInt32.toNat_ofNat']
  exact Nat.mod_eq_of_lt h32

/-- What a client finds that offers neither. -/
def offersNeither (fmt : IpFormat) (addr : SocketAddr) : IoError :=
  ⟨.other, "server at ".toList ++ addr.show fmt ++ " offers neither PIR nor a fetchable dump".toList⟩

/-- A server with a dump. -/
theorem connect_dump (hname : NameFitsFrame state.zoneName) {gz : List UInt8}
    (hdump : state.dump = some gz) (hgz : gz ≠ respUnavailable)
    (hle : gz.length ≤ dumpFetchCapBytes) :
    connect fmt decompress saves (state.exchange fm) addr cache =
      ((loadDump fmt decompress gz).map fun loaded => loaded.map .localZone,
        if state.zoneName = [] ∧ saves then some gz else cache) := by
  have hcap : dumpFetchCapBytes ≤ maxFrame := by decide
  have hsent : state.exchange fm [cmdDump] = .ok gz :=
    exchange_of_answers (by simpa [hdump] using @answers_dump fm state) (by decide) (hle.trans hcap)
  have hwant : state.info.hasDump ∧ state.info.dumpSize.toNat ≤ dumpFetchCapBytes := by
    rw [hasDump_info, dumpSize_info hdump (hle.trans_lt (by decide)), hdump]
    exact ⟨rfl, hle⟩
  simp only [connect, exchange_info hname, decodeInfo_info hname, if_pos hwant, hsent, if_neg hgz,
    if_neg (not_lt.mpr hle)]
  rfl

/-- One with a dump that is too large to be fetched. -/
theorem connect_largeDump (hname : NameFitsFrame state.zoneName) {gz : List UInt8}
    (hdump : state.dump = some gz) (hpir : state.pir = none) (hlt : dumpFetchCapBytes < gz.length)
    (h32 : gz.length < 2 ^ 32) :
    connect fmt decompress saves (state.exchange fm) addr cache =
      (some (.error (offersNeither fmt addr)), cache) := by
  have hwant : ¬(state.info.hasDump ∧ state.info.dumpSize.toNat ≤ dumpFetchCapBytes) := by
    rw [dumpSize_info hdump h32]
    exact fun h => absurd h.2 (not_le.mpr hlt)
  have hnone : ¬state.info.hasPir := by
    rw [hasPir_info, hpir]
    exact Bool.false_ne_true
  simp only [connect, exchange_info hname, decodeInfo_info hname, if_neg hwant, if_neg hnone]
  rfl

/-- One in PIR mode. -/
theorem connect_pir (hname : NameFitsFrame state.zoneName) (hdump : state.dump = none)
    (hpir : state.pir.isSome) :
    connect fmt decompress saves (state.exchange fm) addr cache =
      (some (.ok (.tcp state.info)), cache) := by
  have hwant : ¬(state.info.hasDump ∧ state.info.dumpSize.toNat ≤ dumpFetchCapBytes) := by
    rw [hasDump_info, hdump]
    exact fun h => absurd h.1 Bool.false_ne_true
  have hsome : state.info.hasPir = true := (hasPir_info state).trans hpir
  simp only [connect, exchange_info hname, decodeInfo_info hname, if_neg hwant, if_pos hsome]

end Offers

/-! ## The session of a started server -/

/-- What client and server rely on: addresses are read as they are written, a
map is walked over all its keys, the gunzip undoes the gzip, and no gzip file is
the one byte of a refusal. -/
structure Compatible (host : Host) (decompress : List UInt8 → Except IoError (List UInt8)) : Prop where
  fmt : host.fmt.Lawful
  keys : ∀ zone, (host.keys zone).Perm zone.records.keys
  gunzip : ∀ bytes gz, host.compress bytes = .ok gz → decompress gz = .ok bytes
  ne_unavailable : ∀ bytes gz, host.compress bytes = .ok gz → gz ≠ respUnavailable

section Started
variable {host : Host} {file : Except IoError (List UInt8)} {zone : Zone} {alwaysDump : Bool}
  {state : ServerState}
  {decompress : List UInt8 → Except IoError (List UInt8)}

theorem exists_text_of_load {fmt : IpFormat} (h : Zone.load fmt file = some (.ok zone)) :
    ∃ text, Zone.parse fmt text = some zone := by
  unfold Zone.load at h
  split at h
  next => cases h
  next =>
    split at h
    next => cases h
    next text _ =>
      obtain ⟨zone', hparse, hzone⟩ := Option.map_eq_some_iff.mp h
      exact ⟨text, Except.ok.inj hzone ▸ hparse⟩

/-- The dump of a zone loads as a zone that answers the same. -/
theorem exists_loadDump (hc : Compatible host decompress)
    (hload : Zone.load host.fmt file = some (.ok zone)) {out : Name}
    (hout : serialize host.fmt zone = some out) {gz : List UInt8}
    (hgz : host.compress out.bytes = .ok gz) :
    ∃ again, loadDump host.fmt decompress gz = some (.ok again) ∧ Agrees zone again := by
  obtain ⟨text, hparse⟩ := exists_text_of_load hload
  obtain ⟨out', again, hout', hagain, hagrees, -⟩ := exists_reload hc.fmt hparse
  obtain rfl := Option.some.inj (hout.symm.trans hout')
  refine ⟨again, ?_, hagrees⟩
  simp only [loadDump, hc.gunzip _ _ hgz, fromUtf8_iff.mpr rfl, hagain, Option.map_some]

/-- What a server that has started with a zone offers: a dump that loads as the
zone, or PIR over its buckets. -/
inductive Offers (fm : FeanorMath) (host : Host)
    (decompress : List UInt8 → Except IoError (List UInt8)) (zone : Zone) (state : ServerState) : Prop
  | dump {gz : List UInt8} {again : Zone} : state.dump = some gz → state.pir = none →
      gz ≠ respUnavailable →
      loadDump host.fmt decompress gz = some (.ok again) → Agrees zone again →
        Offers fm host decompress zone state
  | pir {primary : IndexGroup rank} {buckets : List (List Bucket)} {fleet : List (Shard fm rank)} :
      state.dump = none →
      Serving fm zone (host.keys zone) (host.numEntries zone) state primary buckets fleet →
      Offers fm host decompress zone state

theorem offers_of_buildState {fm : FeanorMath} (hfm : fm.Correct) (hc : Compatible host decompress)
    (hload : Zone.load host.fmt file = some (.ok zone))
    (hrun : buildState fm host file alwaysDump = some (.ok state)) :
    state.zoneName = zone.zoneName ∧ Offers fm host decompress zone state := by
  obtain ⟨out, result, hout, hrun', hstarted⟩ := started_of_load hfm hload (hc.keys zone) alwaysDump
  obtain rfl := Option.some.inj (hrun.symm.trans hrun')
  cases hstarted with
  | dump _ hgz _ =>
    obtain ⟨again, hagain, hagrees⟩ := exists_loadDump hc hload hout hgz
    exact ⟨rfl, .dump rfl rfl (hc.ne_unavailable _ _ hgz) hagain hagrees⟩
  | @pir k buckets primary pir slab fleet hlarge hlt hfirst hprimary hpre =>
    obtain ⟨primary', buckets', fleet', hserving⟩ :=
      serving_of_started (hc.keys zone) (.pir hlarge hlt hfirst hprimary hpre) rfl
    exact ⟨rfl, .pir rfl hserving⟩

/-- The client can have what is offered. -/
def Fetchable (state : ServerState) : Prop := ∀ gz, state.dump = some gz → gz.length ≤ dumpFetchCapBytes

/-- **A session with a server.** Whatever zone file a server has started with and
whichever way it offers the zone, a client that can have it gets a session under
the name of the zone. For a name of the zone the session returns what the zone
has, in PIR mode where the noise of the query fits. A dump that is too large to
be fetched is refused, and only the dump of the global zone is cached. -/
theorem session_served (lib : Libraries) (hfm : lib.fm.Correct) (hc : Compatible host decompress)
    (hload : Zone.load host.fmt file = some (.ok zone))
    (hrun : buildState lib.fm host file alwaysDump = some (.ok state))
    (hname : NameFitsFrame zone.zoneName) (addr : SocketAddr) (saves : Bool)
    (cache : Option (List UInt8)) :
    (Fetchable state → ∃ session cache',
      connect host.fmt decompress saves (state.exchange lib.fm) addr cache =
        (some (.ok session), cache') ∧
      session.zoneName = zone.zoneName ∧
      (cache' = cache ∨ zone.zoneName = [] ∧ cache' = state.dump) ∧
      ∀ (rng : QueryRandomness) (name : Name), name ∈ zone.records →
        (∀ primary buckets fleet,
          Serving lib.fm zone (host.keys zone) (host.numEntries zone) state primary buckets fleet →
          NameFits lib rng fleet primary (host.numEntries zone) state.hashSalt name) →
        ∃ recs, zone.query name = some recs ∧
          session.query lib rng (state.exchange lib.fm) name = some (.ok recs)) ∧
    ∀ gz, state.dump = some gz → dumpFetchCapBytes < gz.length → gz.length < 2 ^ 32 →
      connect host.fmt decompress saves (state.exchange lib.fm) addr cache =
        (some (.error (offersNeither host.fmt addr)), cache) := by
  obtain ⟨hzone, hoffers⟩ := offers_of_buildState hfm hc hload hrun
  have hname' : NameFitsFrame state.zoneName := hzone.symm ▸ hname
  cases hoffers with
  | @dump gz again hdump hpir hgz hagain hagrees =>
    refine ⟨fun hfetch => ?_, fun gz' hdump' hlt h32 => connect_largeDump hname' hdump' hpir hlt h32⟩
    have hconnect := @connect_dump lib.fm state host.fmt decompress addr saves cache hname' gz hdump hgz
      (hfetch gz hdump)
    rw [hagain] at hconnect
    refine ⟨.localZone again, _, hconnect, hagrees.zoneName, ?_, fun rng name _ _ => ?_⟩
    · split
      next h => exact .inr ⟨hzone ▸ h.1, hdump.symm⟩
      next => exact .inl rfl
    · obtain ⟨recs, hrecs⟩ := Option.isSome_iff_exists.mp ((Zone.valid_of_load hload).query_isSome name)
      refine ⟨recs, hrecs, ?_⟩
      rw [Session.query, hagrees.query, hrecs]
      rfl
  | @pir primary buckets fleet hdump hserving =>
    refine ⟨fun _ => ?_, fun gz' hdump' => absurd (hdump.symm.trans hdump') (by simp)⟩
    have hsome : state.pir.isSome := by rw [hserving.pir]; rfl
    refine ⟨.tcp state.info, cache, connect_pir hname' hdump hsome, hzone, .inl rfl,
      fun rng name hn hfits => ?_⟩
    obtain ⟨recs, hlookup, hown, -⟩ := hserving.exists_lookup name
    exact ⟨recs, hown hn, hserving.query_eq_lookup hfm rng (hfits _ _ _ hserving) hlookup⟩

/-- The gunzip of that dump. -/
def rootGunzip (gz : List UInt8) : Except IoError (List UInt8) :=
  if gz = rootGz then .ok rootDump.bytes else .error ⟨.other, []⟩

theorem root_compatible : Compatible rootHost rootGunzip where
  fmt := ipText_lawful
  keys _ := .refl _
  gunzip bytes gz h := by
    obtain ⟨rfl, rfl⟩ := rootHost_compress h
    rw [rootGunzip, if_pos rfl]
  ne_unavailable bytes gz h := by
    obtain ⟨-, rfl⟩ := rootHost_compress h
    decide

theorem root_query : ((Zone.parse ipText rootText).map fun zone =>
    (zone.zoneName, zone.query "a".toList, decide ("a".toList ∈ zone.records))) =
      some ([], some [.a #v[192, 0, 2, 7]], true) := by decide +kernel

/-- The server of that zone, which is told to offer a dump. -/
theorem exists_root {fm : FeanorMath} (hfm : fm.Correct) :
    ∃ zone state, Zone.load ipText (.ok rootText.bytes) = some (.ok zone) ∧
    serialize ipText zone = some rootDump ∧ zone.zoneName = [] ∧
    zone.query "a".toList = some [.a #v[192, 0, 2, 7]] ∧ "a".toList ∈ zone.records ∧
    buildState fm rootHost (.ok rootText.bytes) true = some (.ok state) ∧
    state.pir = none ∧ state.dump = some rootGz := by
  obtain ⟨zone, hparse, hspec⟩ := Option.map_eq_some_iff.mp root_query
  obtain ⟨hname, hquery, hmem⟩ :
      zone.zoneName = [] ∧ zone.query "a".toList = some [.a #v[192, 0, 2, 7]] ∧
      decide ("a".toList ∈ zone.records) = true := by simpa only [Prod.mk.injEq] using hspec
  obtain ⟨out, result, hout, hrun, hstarted⟩ :=
    @started_of_load fm rootHost _ hfm _ (load_of_parse hparse) (.refl _) true
  obtain rfl : rootDump = out := Option.some.inj ((root_serialize hparse).symm.trans hout)
  cases hstarted with
  | unzipped _ he => cases he
  | @dump gz _ hgz _ =>
    obtain ⟨-, rfl⟩ := rootHost_compress hgz
    exact ⟨zone, _, load_of_parse hparse, hout, hname, hquery, of_decide_eq_true hmem, hrun, rfl, rfl⟩
  | crowded hlarge => cases hlarge.1
  | pir hlarge => cases hlarge.1

theorem rootGz_fetchable {state : ServerState} (h : state.dump = some rootGz) :
    Fetchable state := fun gz hgz => by
  obtain rfl := Option.some.inj (h.symm.trans hgz)
  decide

theorem session_served_root : ∃ (state : ServerState) (session : Session) (cache : Option (List UInt8)),
    state.dump = some rootGz ∧
    connect ipText rootGunzip true (state.exchange oneLibraries.fm) ⟨.v4 #v[192, 0, 2, 1], 9000⟩ none =
      (some (.ok session), cache) ∧
    session.query oneLibraries oneRandomness (state.exchange oneLibraries.fm) "a".toList =
      some (.ok [.a #v[192, 0, 2, 7]]) := by
  obtain ⟨zone, state, hload, -, hname, hquery, hmem, hrun, hpir, hdump⟩ :=
    exists_root constantMath_correct
  obtain ⟨session, cache, hconnect, -, -, hanswers⟩ :=
    (session_served oneLibraries constantMath_correct root_compatible
    hload hrun (hname ▸ nameFitsFrame_nil) ⟨.v4 #v[192, 0, 2, 1], 9000⟩ true none).1
      (rootGz_fetchable hdump)
  obtain ⟨recs, hrecs, hread⟩ := hanswers oneRandomness _ hmem fun primary buckets fleet h =>
    absurd (hpir.symm.trans h.pir) (by simp)
  obtain rfl := Option.some.inj (hquery.symm.trans hrecs)
  exact ⟨state, session, cache, hdump, hconnect, hread⟩

end Started

/-! ## The cache -/

section Cache
variable {fm : FeanorMath} {fmt : IpFormat} {decompress : List UInt8 → Except IoError (List UInt8)}

/-- What a connection can leave in the cache. -/
theorem connect_snd (saves : Bool) (exchange : List UInt8 → Except IoError (List UInt8))
    (addr : SocketAddr) (cache : Option (List UInt8)) :
    (connect fmt decompress saves exchange addr cache).2 = cache ∨
      ∃ gz, (connect fmt decompress saves exchange addr cache).2 = some gz ∧
        exchange [cmdDump] = .ok gz ∧
        gz ≠ respUnavailable ∧ gz.length ≤ dumpFetchCapBytes ∧ saves := by
  unfold connect
  split
  next => exact .inl rfl
  next =>
    split
    next => exact .inl rfl
    next => exact .inl rfl
    next info _ =>
      split
      next =>
        split
        next => exact .inl rfl
        next gz hgz =>
          split
          next => exact .inl rfl
          next hne =>
            split
            next => exact .inl rfl
            next hle =>
              simp only
              split
              next h => exact .inr ⟨gz, rfl, hgz, hne, not_lt.mp hle, h.2⟩
              next => exact .inl rfl
      next =>
        split
        next => exact .inl rfl
        next => exact .inl rfl

/-- A visit to a server that has started with a zone. -/
structure Visit.Started (fm : FeanorMath) (fmt : IpFormat)
    (decompress : List UInt8 → Except IoError (List UInt8)) (visit : Visit) (zone : Zone)
    (state : ServerState) : Prop where
  exists_host : ∃ host file alwaysDump, host.fmt = fmt ∧ Compatible host decompress ∧
    Zone.load fmt file = some (.ok zone) ∧ buildState fm host file alwaysDump = some (.ok state)
  name : NameFitsFrame zone.zoneName
  exchange : visit.exchange = state.exchange fm

/-- What a zone leaves in the cache loads as the zone. -/
def Caches (fmt : IpFormat) (decompress : List UInt8 → Except IoError (List UInt8))
    (cache : Option (List UInt8)) (zone : Zone) : Prop :=
  zone.zoneName = [] ∧ ∃ again : ValidZone, loadCache fmt decompress cache = some (some again) ∧
    Agrees zone again.1

theorem loadCache_of_loadDump {gz : List UInt8} {zone : Zone}
    (h : loadDump fmt decompress gz = some (.ok zone)) :
    loadCache fmt decompress (some gz) = some (some ⟨zone, Zone.valid_of_loadDump h⟩) := by
  rw [loadCache]
  split
  next h' => cases h.symm.trans h'
  next h' => cases h.symm.trans h'
  next h' =>
    obtain rfl := Except.ok.inj (Option.some.inj (h.symm.trans h'))
    rfl

/-- What comes back for `DUMP` is the dump. -/
theorem eq_dump_of_exchange {state : ServerState} {gz : List UInt8}
    (h : state.exchange fm [cmdDump] = .ok gz) :
    gz = state.dump.getD respUnavailable := by
  obtain ⟨resp, hanswers, -, hframe⟩ := answers_of_outcome (outcome_of_exchange h).2.2
  obtain ⟨m, hm⟩ := hanswers #[]
  obtain ⟨m', hm'⟩ := @answers_dump fm state #[]
  obtain ⟨hresp, -⟩ := Prod.mk.inj (Option.some.inj (hm.symm.trans hm'))
  rw [← Except.ok.inj hresp]
  exact (List.append_inj hframe (by rw [Bytes.length_toBe, Bytes.length_toBe])).2

/-- The step lemma of the cache. -/
theorem caches_of_started (hfm : fm.Correct) {visit : Visit} {zone : Zone} {state : ServerState}
    (h : visit.Started fm fmt decompress zone state) (cache : Option (List UInt8)) :
    (connect fmt decompress visit.saves visit.exchange visit.addr cache).2 = cache ∨
      Caches fmt decompress (connect fmt decompress visit.saves visit.exchange visit.addr cache).2
        zone := by
  obtain ⟨⟨host, file, alwaysDump, rfl, hc, hload, hrun⟩, hname, hexchange⟩ := h
  obtain ⟨hzone, hoffers⟩ := offers_of_buildState hfm hc hload hrun
  have hname' : NameFitsFrame state.zoneName := hzone.symm ▸ hname
  rw [hexchange]
  cases hoffers with
  | @dump gz again hdump hpir hgz hagain hagrees =>
    rcases connect_snd visit.saves (state.exchange fm) visit.addr cache
      with hsame | ⟨gz', hsnd, hsent, -, hle, -⟩
    · exact .inl hsame
    · by_cases hcap : gz.length ≤ dumpFetchCapBytes
      · rw [connect_dump hname' hdump hgz hcap]
        simp only
        split
        next h => exact .inr ⟨hzone ▸ h.1, _, loadCache_of_loadDump hagain, hagrees⟩
        next => exact .inl rfl
      · have hgz' := eq_dump_of_exchange hsent
        rw [hdump, Option.getD_some] at hgz'
        exact absurd (hgz' ▸ hle) hcap
  | @pir primary buckets fleet hdump hserving =>
    have hsome : state.pir.isSome := by rw [hserving.pir]; rfl
    rw [connect_pir hname' hdump hsome]
    exact .inl rfl

/-- **Runs of connections**, to any servers in any order. The cache is as it was
before, or it loads as the global zone of a server that was connected to. -/
theorem cache_visits (hfm : fm.Correct) {visits : List Visit}
    (h : ∀ visit ∈ visits, ∃ zone state, visit.Started fm fmt decompress zone state)
    (cache : Option (List UInt8)) :
    cacheAfter fmt decompress visits cache = cache ∨
      ∃ visit ∈ visits, ∃ zone state, visit.Started fm fmt decompress zone state ∧
        Caches fmt decompress (cacheAfter fmt decompress visits cache) zone := by
  induction visits generalizing cache with
  | nil => exact .inl rfl
  | cons visit visits ih =>
    obtain ⟨⟨zone, state, hstarted⟩, hrest⟩ := List.forall_mem_cons.mp h
    rw [cacheAfter, List.foldl_cons, ← cacheAfter]
    set cache' := (connect fmt decompress visit.saves visit.exchange visit.addr cache).2 with hcache'
    rcases ih hrest cache' with hsame | ⟨later, hlater, hcaches⟩
    · rw [hsame, hcache']
      rcases caches_of_started hfm hstarted cache with hsame' | hcaches
      · exact .inl hsame'
      · exact .inr ⟨visit, List.mem_cons_self, zone, state, hstarted, hcaches⟩
    · exact .inr ⟨later, List.mem_cons_of_mem _ hlater, hcaches⟩

/-- A visit to the server of the global zone, and what it leaves. -/
theorem exists_rootVisit :
    ∃ visit zone state, visit.Started FeanorMath.reference ipText rootGunzip zone state ∧
    cacheAfter ipText rootGunzip [visit] none = some rootGz := by
  obtain ⟨zone, state, hload, -, hname, -, -, hrun, -, hdump⟩ :=
    exists_root FeanorMath.reference_correct
  refine ⟨⟨state.exchange FeanorMath.reference, ⟨.v4 #v[192, 0, 2, 1], 9000⟩, true⟩, zone, state,
    ⟨⟨rootHost, _, true, rfl, root_compatible, hload, hrun⟩, hname ▸ nameFitsFrame_nil, rfl⟩, ?_⟩
  obtain ⟨hzone, -⟩ := offers_of_buildState FeanorMath.reference_correct root_compatible hload hrun
  have hroot : state.zoneName = [] := hzone.trans hname
  rw [cacheAfter, List.foldl_cons, List.foldl_nil,
    connect_dump (hroot ▸ nameFitsFrame_nil) hdump (by decide) (rootGz_fetchable hdump _ hdump),
      if_pos ⟨hroot, rfl⟩]

theorem cache_visits_root : ∃ visit zone, cacheAfter ipText rootGunzip [visit] none = some rootGz ∧
    Caches ipText rootGunzip (cacheAfter ipText rootGunzip [visit] none) zone := by
  obtain ⟨visit, zone, state, hstarted, hleft⟩ := exists_rootVisit
  rcases cache_visits FeanorMath.reference_correct
    (List.forall_mem_singleton.mpr ⟨zone, state, hstarted⟩) none with
    hsame | ⟨_, _, zone', _, _, hcaches⟩
  · exact absurd (hleft.symm.trans hsame) (by simp)
  · exact ⟨visit, zone', hleft, hcaches⟩

end Cache

/-! ## A resolution that begins in the cache -/

section Run
variable {factory : DnsServerFactory} {target : Name}

theorem canonical_canonical (tok : Name) : canonical (canonical tok) = canonical tok := by
  rw [canonical, rdropWhile_canonical, canonical, List.map_map]
  exact List.map_congr_left fun c _ => toLower_toLower c

/-- A resolution, as its reference. -/
theorem resolveIteratively_reference (factory : DnsServerFactory) {target : Name}
    (hne : canonical target ≠ []) (initialCandidates : List SocketAddr) :
    (resolveIteratively target initialCandidates factory).1.outcome =
        (resolveWithin factory (canonical target) maxHops initialCandidates).1 ∧
      contacts (resolveIteratively target initialCandidates factory).2 =
        (resolveWithin factory (canonical target) maxHops initialCandidates).2 := by
  rw [resolveIteratively]
  simp only [List.isEmpty_iff, if_neg hne]
  split
  next hnil =>
    rw [hnil]
    exact ⟨rfl, rfl⟩
  next =>
    exact resolveFrom_reverse factory (canonical target) (Nat.zero_add maxHops) initialCandidates 0

/-- Candidates after one that connects are not contacted. -/
theorem firstReachable_append {candidates : List SocketAddr} {contacts : List Contact}
    {server : DnsServer} (h : firstReachable factory candidates = (contacts, some server))
    (extra : List SocketAddr) :
    firstReachable factory (candidates ++ extra) = (contacts, some server) := by
  induction candidates generalizing contacts with
  | nil => cases h
  | cons addr candidates ih =>
    rw [firstReachable] at h
    rw [List.cons_append, firstReachable]
    cases hc : factory addr with
    | ok server' =>
      rw [hc] at h
      exact h
    | error e =>
      rw [hc] at h
      obtain ⟨rfl, hserver⟩ := Prod.mk.inj h
      simp only [ih (Prod.ext rfl hserver)]

/-- A resolution that does not fail goes the same way with more hops and more
candidates at the end. -/
theorem resolveWithin_mono {hops more : ℕ} (hle : hops ≤ more) {candidates : List SocketAddr}
    {outcome : Outcome} {contacts : List Contact}
    (h : resolveWithin factory target hops candidates = (outcome, contacts))
    (hne : outcome ≠ .failed) (extra : List SocketAddr) :
    resolveWithin factory target more (candidates ++ extra) = (outcome, contacts) := by
  induction hops generalizing more candidates outcome contacts extra with
  | zero =>
    cases h
    exact absurd rfl hne
  | succ hops ih =>
    obtain ⟨more, rfl⟩ : ∃ m, more = m + 1 := ⟨more - 1, by omega⟩
    rw [resolveWithin] at h ⊢
    split at h
    next => cases h; exact absurd rfl hne
    next contacts' server hfirst =>
      rw [firstReachable_append hfirst extra]
      simp only
      split at h
      next => exact h
      next source nsIps _ =>
        obtain ⟨rfl, rfl⟩ := Prod.mk.inj h
        have hnext := ih (Nat.le_of_succ_le_succ hle) rfl hne []
        rw [List.append_nil] at hnext
        rw [hnext]
      next => exact h
      next => cases h; exact absurd rfl hne
      next => cases h; exact absurd rfl hne

theorem exists_withBootstrap (cliBootstrap : Option SocketAddr) (candidates : List SocketAddr) :
    ∃ extra, withBootstrap cliBootstrap candidates = candidates ++ extra := by
  unfold withBootstrap
  split
  next => exact ⟨[], (List.append_nil _).symm⟩
  next bootstrap =>
    split
    next => exact ⟨[], (List.append_nil _).symm⟩
    next => exact ⟨[bootstrap], rfl⟩

/-- A server that answers as a zone does is the server of the zone. -/
theorem eq_localZoneServer {server : DnsServer} {zone : ValidZone}
    (hname : server.zoneName = zone.1.zoneName)
    (hquery : ∀ name recs, zone.1.query name = some recs → server.query name = .ok recs) :
    server = localZoneServer zone := by
  obtain ⟨zoneName, query⟩ := server
  obtain rfl : zoneName = _ := hname
  have hfun : query = fun name => .ok ((zone.1.query name).get (zone.2.query_isSome name)) :=
    funext fun name => hquery name _ (Option.some_get _).symm
  rw [localZoneServer, hfun]

theorem ResolutionResult.eq_found {result : ResolutionResult} {recs : List Record}
    (h : result.outcome = .found recs) :
    result = .found recs := by
  cases result <;> cases h
  rfl

theorem ResolutionResult.eq_notFound {result : ResolutionResult} (h : result.outcome = .notFound) :
    result = .notFound := by
  cases result <;> cases h
  rfl

section Cached
variable {fmt : IpFormat} {decompress : List UInt8 → Except IoError (List UInt8)}
  {cache : Option (List UInt8)} {zone : ValidZone}
  {cliBootstrap : Option SocketAddr}

/-- A delegation that the cache has. -/
theorem runInner_delegation (hload : loadCache fmt decompress cache = some (some zone))
    (hroot : zone.1.zoneName = []) (hne : canonical target ≠ []) {source : Name}
    {nsIps : List IpAddr}
    (hhop : oneHop (localZoneServer zone) (canonical target) = .ok (.delegation source nsIps))
    {hops : ℕ} (hle : hops ≤ maxHops) {outcome : Outcome} {rest : List Contact}
    (hnext : resolveWithin factory (canonical target) hops (nsIps.map fun ip => ⟨ip, defaultPort⟩) =
      (outcome, rest)) (hfailed : outcome ≠ .failed) :
    ∃ result events, runInner fmt decompress cache factory target cliBootstrap =
      some (.resolved result, events) ∧
      result.outcome = outcome ∧ contacts events = rest := by
  obtain ⟨extra, hextra⟩ := exists_withBootstrap cliBootstrap (nsIps.map fun ip => ⟨ip, defaultPort⟩)
  have hwithin := resolveWithin_mono hle hnext hfailed extra
  rw [← hextra] at hwithin
  have hcandidates : withBootstrap cliBootstrap (nsIps.map fun ip => ⟨ip, defaultPort⟩) ≠ [] :=
      fun hnil => by
    rw [hnil] at hwithin
    cases hwithin
    exact hfailed rfl
  have href := resolveIteratively_reference factory ((canonical_canonical target).symm ▸ hne)
    (withBootstrap cliBootstrap (nsIps.map fun ip => ⟨ip, defaultPort⟩))
  rw [canonical_canonical, hwithin] at href
  refine ⟨_, _, ?_, href.1, href.2⟩
  simp only [runInner, List.isEmpty_iff, if_neg hne, hload, cachedHop, if_pos hroot, hhop,
    if_neg hcandidates, Option.bind_eq_bind, Option.bind_some]
  rfl

/-- An answer that the cache has. -/
theorem runInner_answer (hload : loadCache fmt decompress cache = some (some zone))
    (hroot : zone.1.zoneName = []) (hne : canonical target ≠ []) {recs : List Record}
    (hhop : oneHop (localZoneServer zone) (canonical target) = .ok (.answer recs)) :
    runInner fmt decompress cache factory target cliBootstrap = some (.answered recs, []) := by
  simp only [runInner, List.isEmpty_iff, if_neg hne, hload, cachedHop, if_pos hroot, hhop,
    Option.bind_eq_bind, Option.bind_some]
  rfl

/-- A cache that has nothing of the name. -/
theorem runInner_notFound (hload : loadCache fmt decompress cache = some (some zone))
    (hroot : zone.1.zoneName = [])
    (hhop : oneHop (localZoneServer zone) (canonical target) = .ok .notFound) :
    runInner fmt decompress cache factory target cliBootstrap =
      runInner fmt decompress none factory target cliBootstrap := by
  have hnone : loadCache fmt decompress none = some none := rfl
  simp only [runInner, hload, hnone, cachedHop, if_pos hroot, hhop, Option.bind_eq_bind,
    Option.bind_some]

end Cached

/-- **A resolution that begins in the cache**, against one that begins at the
server the cache is of. What that one finds the first finds too, and it contacts
the same servers but the first; where that one ends without a result at a later
server so does the first, and where it does at the first server the cache is of
no use. -/
theorem runInner_cached {fmt : IpFormat} {decompress : List UInt8 → Except IoError (List UInt8)}
    {cache : Option (List UInt8)} {zone : Zone} (hcache : Caches fmt decompress cache zone)
    {addr : SocketAddr} {server : DnsServer} (hserver : factory addr = .ok server)
    (hname : server.zoneName = zone.zoneName)
    (hquery : ∀ name recs, zone.query name = some recs → server.query name = .ok recs)
    (target : Name) (cliBootstrap : Option SocketAddr) :
    (∀ recs, (resolveIteratively target [addr] factory).1 = .found recs → ∃ result events,
      runInner fmt decompress cache factory target cliBootstrap = some (result, events) ∧
      (result = .answered recs ∨ result = .resolved (.found recs)) ∧
      contacts (resolveIteratively target [addr] factory).2 = (addr, true) :: contacts events) ∧
    ((resolveIteratively target [addr] factory).1 = .notFound →
      (∃ events, runInner fmt decompress cache factory target cliBootstrap =
        some (.resolved .notFound, events) ∧
        contacts (resolveIteratively target [addr] factory).2 = (addr, true) :: contacts events) ∨
      runInner fmt decompress cache factory target cliBootstrap =
        runInner fmt decompress none factory target cliBootstrap) := by
  obtain ⟨hroot, again, hload, hagrees⟩ := hcache
  have hroot' : again.1.zoneName = [] := hagrees.zoneName.trans hroot
  obtain rfl : server = localZoneServer again :=
    eq_localZoneServer (hname.trans hagrees.zoneName.symm) fun name recs h =>
      hquery name recs (hagrees.query name ▸ h)
  by_cases hne : canonical target = []
  · have hempty : (resolveIteratively target [addr] factory).1 =
        .failed "empty domain name".toList := by
      rw [resolveIteratively, hne]
      rfl
    rw [hempty]
    exact ⟨fun recs h => (by cases h), fun h => (by cases h)⟩
  obtain ⟨houtcome, hcontacts⟩ := resolveIteratively_reference factory hne [addr]
  rw [hcontacts]
  have hfound : ∀ recs, (resolveIteratively target [addr] factory).1 = .found recs →
      (resolveWithin factory (canonical target) maxHops [addr]).1 = .found recs :=
        fun recs h => by rw [← houtcome, h]; rfl
  have hnotFound : (resolveIteratively target [addr] factory).1 = .notFound →
      (resolveWithin factory (canonical target) maxHops [addr]).1 = .notFound :=
        fun h => by rw [← houtcome, h]; rfl
  rw [show maxHops = 15 + 1 from rfl, resolveWithin, firstReachable, hserver] at hfound hnotFound ⊢
  cases hhop : oneHop (localZoneServer again) (canonical target) with
  | error e =>
    simp only [hhop] at hfound hnotFound
    exact ⟨fun recs h => (by cases hfound recs h), fun h => (by cases hnotFound h)⟩
  | ok outcome =>
    cases outcome with
    | outOfZone =>
      simp only [hhop] at hfound hnotFound
      exact ⟨fun recs h => (by cases hfound recs h), fun h => (by cases hnotFound h)⟩
    | notFound =>
      simp only [hhop] at hfound
      exact ⟨fun recs h => (by cases hfound recs h),
        fun _ => .inr (runInner_notFound hload hroot' hhop)⟩
    | answer recs =>
      simp only [hhop] at hfound hnotFound ⊢
      refine ⟨fun recs' h => ?_, fun h => (by cases hnotFound h)⟩
      obtain rfl : recs = recs' := Outcome.found.inj (hfound recs' h)
      exact ⟨_, _, runInner_answer hload hroot' hne hhop, .inl rfl, rfl⟩
    | delegation source nsIps =>
      obtain ⟨outcome, rest, hnext⟩ : ∃ outcome rest, resolveWithin factory (canonical target) 15
          (nsIps.map fun ip => ⟨ip, defaultPort⟩) = (outcome, rest) := ⟨_, _, rfl⟩
      simp only [hhop, hnext] at hfound hnotFound ⊢
      have hcached : outcome ≠ .failed → ∃ result events,
          runInner fmt decompress cache factory target cliBootstrap = some (.resolved result, events) ∧
          result.outcome = outcome ∧ contacts events = rest :=
        runInner_delegation hload hroot' hne hhop (by decide) hnext
      refine ⟨fun recs h => ?_, fun h => .inl ?_⟩
      · obtain rfl := hfound recs h
        obtain ⟨result, events, hrun, hresult, rfl⟩ := hcached fun h => by cases h
        exact ⟨_, events, hrun, .inr (by rw [ResolutionResult.eq_found hresult]), rfl⟩
      · obtain rfl := hnotFound h
        obtain ⟨result, events, hrun, hresult, rfl⟩ := hcached fun h => by cases h
        exact ⟨events, by rw [hrun, ResolutionResult.eq_notFound hresult], rfl⟩

/-- The cache of the global zone. -/
theorem caches_root : ∃ zone, Caches ipText rootGunzip (some rootGz) zone ∧
    zone.query "a".toList = some [.a #v[192, 0, 2, 7]] := by
  obtain ⟨zone, -, hload, hout, hname, hquery, -⟩ := exists_root FeanorMath.reference_correct
  have hgz : rootHost.compress rootDump.bytes = .ok rootGz := by simp [rootHost]
  obtain ⟨again, hagain, hagrees⟩ := exists_loadDump root_compatible hload hout hgz
  exact ⟨zone, ⟨hname, ⟨again, Zone.valid_of_loadDump hagain⟩, loadCache_of_loadDump hagain,
    hagrees⟩, hquery⟩

theorem oneHop_root {zone : ValidZone} (hname : zone.1.zoneName = [])
    (hquery : zone.1.query "a".toList = some [.a #v[192, 0, 2, 7]]) :
    oneHop (localZoneServer zone) "a".toList = .ok (.answer [.a #v[192, 0, 2, 7]]) := by
  have hanswer : (localZoneServer zone).query "a".toList = .ok [.a #v[192, 0, 2, 7]] := by
    simp only [localZoneServer, hquery, Option.get_some]
  have hzone : (localZoneServer zone).zoneName = [] := hname
  rw [oneHop, hzone, if_neg (by decide), hopFrom, hanswer]
  rfl

theorem runInner_cached_root :
    ∃ (server : DnsServer) (result : RunResult) (events : List ResolutionEvent),
    runInner ipText rootGunzip (some rootGz) (fun _ => .ok server) "a".toList none =
      some (result, events) ∧
      (result = .answered [.a #v[192, 0, 2, 7]] ∨
        result = .resolved (.found [.a #v[192, 0, 2, 7]])) := by
  obtain ⟨zone, hcaches, hquery⟩ := caches_root
  have ⟨hroot, again, _, hagrees⟩ := hcaches
  have hhop := oneHop_root (hagrees.zoneName.trans hroot) ((hagrees.query _).trans hquery)
  have hdirect := @resolveIteratively_reference (fun _ => .ok (localZoneServer again)) "a".toList
    (by decide) [⟨.v4 #v[192, 0, 2, 1], 9000⟩]
  rw [show canonical "a".toList = "a".toList by decide, show maxHops = 15 + 1 from rfl,
    resolveWithin, firstReachable] at hdirect
  simp only [hhop] at hdirect
  obtain ⟨hfound, -⟩ := @runInner_cached (fun _ => .ok (localZoneServer again)) _ _ _ _ hcaches
    ⟨.v4 #v[192, 0, 2, 1], 9000⟩ _ rfl
    hagrees.zoneName (fun name recs h => by
      simp only [localZoneServer, hagrees.query, h, Option.get_some]) "a".toList none
  obtain ⟨result, events, hrun, hresult, -⟩ := hfound _ (ResolutionResult.eq_found hdirect.1)
  exact ⟨_, result, events, hrun, hresult⟩

end Run

end Dns

end Dnspir
