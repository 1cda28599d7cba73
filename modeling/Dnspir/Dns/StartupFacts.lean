/-
How a server starts (`server::build_state`).

* `trySalts_cases`: the salt is that of the first attempt that succeeds.
* `buildState_spec`: a server offers a dump of its zone or PIR over its
  buckets, never both, and fails only as its file, its gzip or its buckets do.
-/
import Dnspir.Dns.FleetFacts
import Dnspir.Dns.CanonicalFacts
import Dnspir.Dns.ServerFacts

namespace Dnspir

open PIRDatabase DoublePir PirWrapper

namespace Dns

/-! ## The salt -/

section Salt
variable {α : Type} {maxAttempts : ℕ} {builder : UInt64 → ExceptT Name Option α}

/-- The salt of an attempt. -/
abbrev attemptSalt (k : ℕ) : UInt64 := saltForAttempt (UInt64.ofNat k)

/-- `k` is the first attempt that succeeds. -/
structure FirstSuccess (builder : UInt64 → ExceptT Name Option α) (k : ℕ) (t : α) : Prop where
  built : (builder (attemptSalt k)).run = some (.ok t)
  failed : ∀ j < k, ∃ e, (builder (attemptSalt j)).run = some (.error e)

/-- What is reported when no attempt succeeds. -/
def outOfSalts (maxAttempts : ℕ) (lastErr : Name) : IoError :=
  ⟨.other, "bucket build failed after ".toList ++ showNat maxAttempts ++
    " re-hash attempts; last error: ".toList ++ lastErr⟩

/-- The attempts that are left, once those before have failed. -/
theorem trySaltsFrom_cases (hbuilder : ∀ salt, (builder salt).run.isSome) {left attempt : ℕ}
    {lastErr : Option Name}
    (hbefore : ∀ j < attempt, ∃ e, (builder (attemptSalt j)).run = some (.error e))
    (hlast : ∀ j, attempt = j + 1 → ∃ e, lastErr = some e ∧
      (builder (attemptSalt j)).run = some (.error e)) :
    (∃ k t, k < attempt + left ∧ FirstSuccess builder k t ∧
        trySaltsFrom maxAttempts builder left attempt lastErr = some (.ok (t, attemptSalt k))) ∨
      (∀ j < attempt + left, ∃ e, (builder (attemptSalt j)).run = some (.error e)) ∧
        ∀ j e, attempt + left = j + 1 → (builder (attemptSalt j)).run = some (.error e) →
          trySaltsFrom maxAttempts builder left attempt lastErr =
            some (.error (outOfSalts maxAttempts e)) := by
  induction left generalizing attempt lastErr with
  | zero =>
    refine .inr ⟨hbefore, fun j e hj he => ?_⟩
    obtain ⟨e', rfl, he'⟩ := hlast j hj
    obtain rfl := Except.error.inj (Option.some.inj (he.symm.trans he'))
    rfl
  | succ left ih =>
    obtain ⟨result, hresult⟩ := Option.isSome_iff_exists.mp (hbuilder (attemptSalt attempt))
    rw [trySaltsFrom, hresult]
    cases result with
    | ok t => exact .inl ⟨attempt, t, by omega, ⟨hresult, hbefore⟩, rfl⟩
    | error e =>
      rw [← Nat.succ_add_eq_add_succ]
      refine ih (fun j hj => ?_) fun j hj => ⟨e, rfl, ?_⟩
      · rcases Nat.lt_succ_iff_lt_or_eq.mp hj with hj | rfl
        · exact hbefore j hj
        · exact ⟨e, hresult⟩
      · rw [← Nat.succ.inj hj]
        exact hresult

/-- **The salt that is used** is that of the first attempt that succeeds; when
none does, the error of the last is reported. -/
theorem trySalts_cases (hbuilder : ∀ salt, (builder salt).run.isSome) (maxAttempts : ℕ) :
    (∃ k t, k < maxAttempts ∧ FirstSuccess builder k t ∧
      trySalts maxAttempts builder = some (.ok (t, attemptSalt k))) ∨
      (∀ j < maxAttempts, ∃ e, (builder (attemptSalt j)).run = some (.error e)) ∧
        ∀ j e, maxAttempts = j + 1 → (builder (attemptSalt j)).run = some (.error e) →
          trySalts maxAttempts builder = some (.error (outOfSalts maxAttempts e)) := by
  have h := @trySaltsFrom_cases α maxAttempts builder hbuilder maxAttempts 0 none (by simp) (by simp)
  simpa only [Nat.zero_add, trySalts] using h

end Salt

/-! ## The state -/

/-- The text of a zone is compressed. -/
def Compressed (alwaysDump : Bool) (out : Name) : Prop :=
  alwaysDump ∨ strLen out ≤ UInt64.ofNat skipCompressionAboveBytes

/-- The text of a zone, or what it is compressed to, is too long for a dump. -/
def TooLarge (host : Host) (alwaysDump : Bool) (out : Name) : Prop :=
  alwaysDump = false ∧ (Compressed alwaysDump out →
    ∃ gz, host.compress out.bytes = .ok gz ∧ dumpThresholdBytes < gz.length)

/-- How a server starts with a zone whose text is `out`. -/
inductive Started (fm : FeanorMath) (host : Host) (zone : Zone) (alwaysDump : Bool) (out : Name) :
    Except IoError ServerState → Prop
  | unzipped {e : IoError} : Compressed alwaysDump out → host.compress out.bytes = .error e →
      Started fm host zone alwaysDump out (.error e)
  | dump {gz : List UInt8} : Compressed alwaysDump out → host.compress out.bytes = .ok gz →
      (alwaysDump ∨ gz.length ≤ dumpThresholdBytes) →
      Started fm host zone alwaysDump out (.ok ⟨zone.zoneName, none, some gz, 0⟩)
  | crowded {e : Name} : TooLarge host alwaysDump out →
      (∀ k < maxRehashRetries, ∃ e,
        (buildBuckets zone (host.keys zone) (host.numEntries zone) (attemptSalt k)).run =
        some (.error e)) →
      (buildBuckets zone (host.keys zone) (host.numEntries zone)
        (attemptSalt (maxRehashRetries - 1))).run =
        some (.error e) →
      Started fm host zone alwaysDump out (.error (outOfSalts maxRehashRetries e))
  | pir {k : ℕ} {buckets : List (List Bucket)} {primary : IndexGroup rank} {pir : PirState}
      {slab : Array CompressedZnx8El} {fleet : List (Shard fm rank)} : TooLarge host alwaysDump out →
      k < maxRehashRetries → FirstSuccess
        (buildBuckets zone (host.keys zone) (host.numEntries zone)) k buckets →
      (getDatabaseShape (host.numEntries zone)).map Prod.fst = some primary →
      Preprocessed fm primary buckets (host.numEntries zone) pir slab fleet →
      Started fm host zone alwaysDump out (.ok ⟨zone.zoneName, some pir, none, attemptSalt k⟩)

section State
variable {fm : FeanorMath} {host : Host} {alwaysDump : Bool} {zone : Zone} {out : Name}

theorem numEntries_range (host : Host) (zone : Zone) :
    1 ≤ host.numEntries zone ∧ host.numEntries zone ≤ rank * rank := by
  have hsq : rank * rank = 4194304 := by decide
  have hmem := mem_candidates.mp (fillsShards_iff.mp (fillsShards_pickNumEntries
    (boundAdmits host.ln zone.records.entries.length (recordCounts zone).sum
      ((recordCounts zone).map fun w => w * w).sum)))
  rw [Host.numEntries]
  omega

theorem makeDump_eq (hv : zone.Valid) (hout : serialize host.fmt zone = some out) :
    (Compressed alwaysDump out →
      makeDump host alwaysDump zone = some ((host.compress out.bytes).map some)) ∧
      (¬Compressed alwaysDump out → makeDump host alwaysDump zone = some (.ok none)) := by
  obtain ⟨lines, hlines⟩ := exists_lines host.fmt hv
  obtain rfl := Option.some.inj (hout.symm.trans (serialize_of_lines hlines))
  obtain ⟨hok, herror⟩ := serializeBounded_of_lines hlines (UInt64.ofNat skipCompressionAboveBytes)
  cases alwaysDump with
  | true =>
    refine ⟨fun _ => ?_, fun h => absurd (.inl rfl) h⟩
    rw [makeDump, if_pos rfl, hout]
    rfl
  | false =>
    have hiff : Compressed false lines.flatten ↔
        strLen lines.flatten ≤ UInt64.ofNat skipCompressionAboveBytes := by
      simp [Compressed]
    rw [hiff, makeDump, if_neg Bool.false_ne_true]
    refine ⟨fun h => ?_, fun h => ?_⟩
    · rw [hok h]
      rfl
    · obtain ⟨n, hn, -⟩ := herror (UInt64.not_le.mp h)
      rw [hn]
      rfl

/-- A server without a dump. -/
theorem started_of_tooLarge (hfm : fm.Correct) (hv : zone.Valid)
    (hk : (host.keys zone).Perm zone.records.keys) (hlarge : TooLarge host alwaysDump out) :
    ∃ result, buildPirState fm host zone = some result ∧
      Started fm host zone alwaysDump out result := by
  obtain ⟨h1, h2⟩ := numEntries_range host zone
  obtain ⟨primary, secondary, shards, hs⟩ := exists_shape h1 h2
  have hsome : ∀ salt, (buildBuckets zone (host.keys zone)
      (host.numEntries zone) salt).run.isSome := fun salt =>
    buildBuckets_isSome hs h1 hk fun name _ => hv.query_isSome name
  rcases trySalts_cases hsome maxRehashRetries with ⟨k, buckets, hlt, hfirst, htry⟩ | ⟨hall, hnone⟩
  · obtain ⟨hlen, hslots⟩ := buildBuckets_ok hs h1 hk hfirst.built
    have hfull : ∀ slotBuckets ∈ buckets, slotBuckets.length = simdCount * primary.groupOrder :=
        fun slotBuckets hm => by
      obtain ⟨sh, hsh, rfl⟩ := List.getElem_of_mem hm
      obtain ⟨shard, hshard, hlen', -⟩ := hslots sh (hlen ▸ hsh)
      rw [List.getElem?_eq_getElem hsh] at hshard
      rw [Option.some.inj hshard, hlen']
    obtain ⟨fleet, hall, hrun, hsize⟩ := preprocess_spec hfm hs hlen hfull
    have hrun' : buildPirState fm host zone =
        some (.ok ⟨zone.zoneName, some ⟨fleet.map Shard.db, host.numEntries zone⟩, none,
            attemptSalt k⟩) := by
      simp only [buildPirState, htry, hrun, Option.bind_eq_bind, Option.bind_some]
      rfl
    exact ⟨_, hrun', .pir hlarge hlt hfirst (by rw [hs.shape]; rfl)
      ⟨rfl, hall, rfl, by rw [hsize, ← hall.length_eq, hlen]⟩⟩
  · obtain ⟨e, he⟩ := hall (maxRehashRetries - 1) (by decide)
    have hrun' : buildPirState fm host zone = some (.error (outOfSalts maxRehashRetries e)) := by
      simp only [buildPirState, hnone _ e rfl he, Option.bind_eq_bind, Option.bind_some]
      rfl
    exact ⟨_, hrun', .crowded hlarge hall he⟩

theorem Zone.valid_of_load {fmt : IpFormat} {file : Except IoError (List UInt8)}
    (h : Zone.load fmt file = some (.ok zone)) : zone.Valid := by
  unfold Zone.load at h
  split at h
  next => cases h
  next bytes =>
    split at h
    next => cases h
    next text _ =>
      obtain ⟨zone', hparse, hzone⟩ := Option.map_eq_some_iff.mp h
      exact Zone.valid_of_parse (Except.ok.inj hzone ▸ hparse)

/-- A server whose file is read and parsed. -/
theorem started_of_load (hfm : fm.Correct) {file : Except IoError (List UInt8)}
    (hload : Zone.load host.fmt file = some (.ok zone))
    (hkeys : (host.keys zone).Perm zone.records.keys) (alwaysDump : Bool) :
    ∃ out result, serialize host.fmt zone = some out ∧
      buildState fm host file alwaysDump = some result ∧
      Started fm host zone alwaysDump out result := by
  have hv := Zone.valid_of_load hload
  obtain ⟨lines, hlines⟩ := exists_lines host.fmt hv
  obtain ⟨out, hout⟩ : ∃ out, serialize host.fmt zone = some out := ⟨_, serialize_of_lines hlines⟩
  obtain ⟨hpacked, hskipped⟩ := @makeDump_eq host alwaysDump zone out hv hout
  have hpir : ∀ dump, makeDump host alwaysDump zone = some (.ok dump) →
      (alwaysDump || dump.any fun d => d.length ≤ dumpThresholdBytes) = false →
        TooLarge host alwaysDump out →
      ∃ result, buildState fm host file alwaysDump = some result ∧
          Started fm host zone alwaysDump out result := by
    intro dump hdump hgo hlarge
    obtain ⟨result, hrun, hstarted⟩ := started_of_tooLarge hfm hv hkeys hlarge
    refine ⟨result, ?_, hstarted⟩
    simp only [buildState, hload, hdump, hgo, Option.bind_eq_bind, Option.bind_some]
    exact hrun
  by_cases hc : Compressed alwaysDump out
  · have hdump := hpacked hc
    cases hgz : host.compress out.bytes with
    | error e =>
      rw [hgz] at hdump
      refine ⟨out, .error e, hout, ?_, .unzipped hc hgz⟩
      simp only [buildState, hload, hdump, Option.bind_eq_bind, Option.bind_some]
      rfl
    | ok gz =>
      rw [hgz] at hdump
      by_cases hgo : alwaysDump ∨ gz.length ≤ dumpThresholdBytes
      · refine ⟨out, .ok ⟨zone.zoneName, none, some gz, 0⟩, hout, ?_, .dump hc hgz hgo⟩
        simp only [buildState, hload, hdump, Option.bind_eq_bind, Option.bind_some]
        exact if_pos (by simpa using hgo)
      · obtain ⟨halways, hlong⟩ := not_or.mp hgo
        obtain ⟨result, hrun, hstarted⟩ := hpir (some gz) hdump (by simpa using hgo)
          ⟨Bool.eq_false_of_not_eq_true halways, fun _ => ⟨gz, hgz, not_le.mp hlong⟩⟩
        exact ⟨out, result, hout, hrun, hstarted⟩
  · have halways : alwaysDump = false := Bool.eq_false_of_not_eq_true fun h => hc (.inl h)
    obtain ⟨result, hrun, hstarted⟩ :=
      hpir none (hskipped hc) (by simp [halways]) ⟨halways, fun h => absurd h hc⟩
    exact ⟨out, result, hout, hrun, hstarted⟩

/-- **How a server starts.** Where its file is read and parsed it starts, or
fails as its gzip or its buckets do. It offers a dump if it is told to or if
the dump is short, and else PIR over the buckets of the first salt that
separates them, in shards that are all used; never both. -/
theorem buildState_spec (hfm : fm.Correct) (host : Host)
    (hkeys : ∀ zone, (host.keys zone).Perm zone.records.keys) (file : Except IoError (List UInt8))
    (alwaysDump : Bool) :
    (Zone.load host.fmt file = none → buildState fm host file alwaysDump = none) ∧
    (∀ e, Zone.load host.fmt file = some (.error e) →
      buildState fm host file alwaysDump = some (.error e)) ∧
    ∀ zone, Zone.load host.fmt file = some (.ok zone) → zone.Valid ∧
      FillsShards (host.numEntries zone) ∧
      ∃ out result, serialize host.fmt zone = some out ∧
        buildState fm host file alwaysDump = some result ∧
        Started fm host zone alwaysDump out result := by
  refine ⟨fun h => by rw [buildState, h]; rfl, fun e h => by rw [buildState, h]; rfl,
    fun zone hload => ?_⟩
  exact ⟨Zone.valid_of_load hload, fillsShards_pickNumEntries _,
    started_of_load hfm hload (hkeys zone) alwaysDump⟩

end State

/-! ## A host -/

/-- A global zone of two names. -/
def rootText : Name := "a. A 192.0.2.7\nb. A 192.0.2.8".toList

/-- Its dump. -/
def rootDump : Name := "a.\t3600\tin\ta\t192.0.2.7\nb.\t3600\tin\ta\t192.0.2.8\n".toList

/-- A gzip file of the dump: one block with the fixed code. -/
def rootGz : List UInt8 :=
  [31, 139, 8, 0, 0, 0, 0, 0, 2, 255, 75, 212, 227, 52, 54, 51, 48, 224, 204, 204, 227, 76, 228, 52,
    180, 52, 210, 51, 208, 51, 210, 51, 231, 74, 194, 38, 108, 193, 5, 0, 86, 181, 27, 252, 46, 0, 0, 0]

/-- A host with the gzip of this dump, and the logarithm of 8192. -/
def rootHost : Host where
  fmt := ipText
  compress bytes := if bytes = rootDump.bytes then .ok rootGz else .error ⟨.other, []⟩
  keys zone := zone.records.keys
  ln x := if x = 8192.0 then 9.010913347279288 else 0.0

theorem rootHost_compress {bytes gz : List UInt8} (h : rootHost.compress bytes = .ok gz) :
    bytes = rootDump.bytes ∧ gz = rootGz := by
  by_cases hb : bytes = rootDump.bytes
  · exact ⟨hb, (Except.ok.inj ((if_pos hb).symm.trans h)).symm⟩
  · cases (if_neg hb).symm.trans h

theorem load_of_parse {text : Name} {zone : Zone} (h : Zone.parse ipText text = some zone) :
    Zone.load ipText (.ok text.bytes) = some (.ok zone) := by
  rw [Zone.load, fromUtf8_iff.mpr rfl]
  simp only [h, Option.map_some]

theorem root_serialize {zone : Zone} (h : Zone.parse ipText rootText = some zone) :
    serialize ipText zone = some rootDump := by
  obtain ⟨st, hst, rfl⟩ := parse_parsed h
  have hentries : textEntries ipText rootText =
      [("a".toList, some (.a #v[192, 0, 2, 7])), ("b".toList, some (.a #v[192, 0, 2, 8]))] :=
        by decide +kernel
  rw [hentries] at hst
  have hdump := @serialize_of_sorted ipText _ st hst ["a".toList, "b".toList] (by decide)
    (by decide) fun _ => Iff.rfl
  exact hdump.trans (by decide +kernel)

/-! ## A long name -/

theorem writableName_replicate (n : ℕ) : WritableName (List.replicate n 'a') where
  canonical := by
    have hlower : (List.replicate n 'a').map Char.toLower = List.replicate n 'a' := by
      rw [List.map_replicate]
      rfl
    rw [canonical, List.rdropWhile_concat_pos _ _ _ (by rfl), List.rdropWhile_eq_self_iff.mpr
      fun hne => ?_, hlower]
    rw [List.eq_of_mem_replicate (List.getLast_mem hne)]
    decide
  token := by
    refine ⟨by simp, fun c hc => ?_⟩
    rcases List.mem_append.mp hc with hc | hc
    · rw [List.eq_of_mem_replicate hc]
      decide
    · rw [List.mem_singleton.mp hc]
      decide
  head := fun c hc => by
    rcases List.mem_append.mp (List.mem_of_head? hc) with hc | hc
    · rw [List.eq_of_mem_replicate hc]
      decide
    · rw [List.mem_singleton.mp hc]
      decide

/-- The zone file of one name and one address. -/
def singleText (name : Name) (ip : Ipv4Addr) : Name := entryBody ipText (name, .a ip) ++ ['\n']

theorem parse_singleText {name : Name} (h : WritableName name) (ip : Ipv4Addr) :
    Zone.parse ipText (singleText name ip) = some (singleZone name [ip]) := by
  have hentries : textEntries ipText (singleText name ip) = [(name, some (.a ip))] := by
    have hlines := @textEntries_lines ipText ipText_lawful [(name, .a ip)]
      (List.forall_mem_singleton.mpr ⟨h, fun _ hh => by cases hh⟩)
    rwa [List.flatMap_singleton] at hlines
  rw [parse_eq, hentries, List.foldlM_cons, addEntry_eq]
  rfl

theorem serialize_singleZone (name : Name) (ip : Ipv4Addr) :
    serialize ipText (singleZone name [ip]) = some (singleText name ip) := by
  have hlines : zoneLines ipText (singleZone name [ip]) = [singleText name ip].map some := by
    change (List.mergeSort [name] _).flatMap _ = _
    rw [List.mergeSort_singleton, List.flatMap_singleton, nameLines, lookup_single, singleText,
      entryBody, ← recordLine_eq]
    rfl
  rw [serialize_of_lines hlines, List.flatten_singleton]

theorem length_le_bytes (name : Name) : name.length ≤ (Name.bytes name).length := by
  induction name with
  | nil => exact le_rfl
  | cons c name ih =>
    have hpos := c.utf8Size_pos
    have hcons : Name.bytes (c :: name) = String.utf8EncodeChar c ++ Name.bytes name :=
      List.flatMap_cons
    rw [hcons, List.length_append, String.length_utf8EncodeChar, List.length_cons]
    omega

/-- A name too long for its text to be compressed. -/
def longName : Name := List.replicate (skipCompressionAboveBytes + 1) 'a'

theorem longName_not_compressed (ip : Ipv4Addr) : ¬Compressed false (singleText longName ip) := by
  have hlen : skipCompressionAboveBytes + 1 ≤ (singleText longName ip).bytes.length := by
    refine le_trans ?_ (length_le_bytes _)
    simp only [singleText, entryBody, lineBody, longName, List.length_append, List.length_replicate]
    omega
  rintro (h | h)
  · cases h
  · rw [UInt64.le_iff_toNat_le, toNat_strLen, UInt64.toNat_ofNat', skipCompressionAboveBytes,
      dumpThresholdBytes] at h
    rw [skipCompressionAboveBytes, dumpThresholdBytes] at hlen
    omega

/-- It gets the fewest entries there are. -/
theorem numEntries_single (name : Name) (ip : Ipv4Addr) :
    rootHost.numEntries (singleZone name [ip]) = 8192 := by
  have hadmits : boundAdmits rootHost.ln 1 1 1 8192 = true := by decide +kernel
  obtain ⟨rest, hcandidates⟩ : ∃ rest, candidates = 8192 :: rest := ⟨_, rfl⟩
  have hpick : pickNumEntries (boundAdmits rootHost.ln 1 1 1) = 8192 := by
    rw [pickNumEntries, hcandidates, pickFrom, if_pos hadmits]
  exact hpick

/-- PIR over one name separates at the first salt. -/
theorem Started.single {name : Name} {ip : Ipv4Addr} {out : Name}
    {result : Except IoError ServerState}
    (h : Started FeanorMath.reference rootHost (singleZone name [ip]) false out result)
    (hlong : ¬Compressed false out) :
    ∃ pir, result = .ok ⟨name, some pir, none, 0⟩ ∧ pir.numEntries = 8192 := by
  have hbuilt : ∀ salt, ∃ buckets,
      (buildBuckets (singleZone name [ip]) (rootHost.keys (singleZone name [ip]))
      (rootHost.numEntries (singleZone name [ip])) salt).run = some (.ok buckets) := fun salt =>
    exists_buildBuckets_single name ip (numEntries_range _ _).1 (numEntries_range _ _).2 salt
  cases h with
  | unzipped hc => exact absurd hc hlong
  | dump hc => exact absurd hc hlong
  | crowded _ hall =>
    obtain ⟨e, he⟩ := hall 0 (by decide)
    obtain ⟨buckets, hb⟩ := hbuilt (attemptSalt 0)
    cases he.symm.trans hb
  | @pir k buckets primary pir slab fleet _ _ hfirst _ hpre =>
    obtain rfl : k = 0 := by
      by_contra hk
      obtain ⟨e, he⟩ := hfirst.failed 0 (Nat.pos_of_ne_zero hk)
      obtain ⟨buckets', hb⟩ := hbuilt (attemptSalt 0)
      cases he.symm.trans hb
    refine ⟨_, rfl, ?_⟩
    rw [hpre.state]
    exact numEntries_single name ip

/-- A server that is told to offer a dump, and one of a zone that is too long for one. -/
theorem buildState_spec_root :
    (∃ zone, Zone.parse ipText rootText = some zone ∧
      buildState FeanorMath.reference rootHost (.ok rootText.bytes) true =
      some (.ok ⟨zone.zoneName, none, some rootGz, 0⟩)) ∧
    ∃ pir, buildState FeanorMath.reference rootHost
      (.ok (singleText longName #v[1, 2, 3, 4]).bytes) false =
      some (.ok ⟨longName, some pir, none, 0⟩) ∧ pir.numEntries = 8192 := by
  constructor
  · have hsome : (Zone.parse ipText rootText).isSome := by decide +kernel
    obtain ⟨zone, hparse⟩ := Option.isSome_iff_exists.mp hsome
    obtain ⟨-, -, out, result, hout, hrun, hstarted⟩ :=
      (buildState_spec FeanorMath.reference_correct rootHost
      (fun zone => .refl _) (.ok rootText.bytes) true).2.2 zone (load_of_parse hparse)
    obtain rfl : rootDump = out := Option.some.inj ((root_serialize hparse).symm.trans hout)
    refine ⟨zone, hparse, ?_⟩
    rw [hrun]
    cases hstarted with
    | unzipped _ he => cases he
    | dump _ hgz _ =>
      obtain ⟨-, rfl⟩ := rootHost_compress hgz
      rfl
    | crowded hlarge => cases hlarge.1
    | pir hlarge => cases hlarge.1
  · obtain ⟨-, -, out, result, hout, hrun, hstarted⟩ :=
      (buildState_spec FeanorMath.reference_correct rootHost
      (fun zone => .refl _) (.ok (singleText longName #v[1, 2, 3, 4]).bytes) false).2.2 _
      (load_of_parse (parse_singleText (writableName_replicate _) #v[1, 2, 3, 4]))
    obtain rfl := Option.some.inj ((serialize_singleZone longName #v[1, 2, 3, 4]).symm.trans hout)
    obtain ⟨pir, rfl, hn⟩ := hstarted.single (longName_not_compressed _)
    exact ⟨pir, hrun, hn⟩

end Dns

end Dnspir
