/-
A query over PIR, from the client to the buckets of a server and back
(`client::TcpDnsServer::query` over `server::handle`).

* `served_bucket`: where the fleet of a server has the bucket of a name.
* `query_served`: where its noise fits, a query returns what a lookup in the
  buckets returns, which for a name of the zone is what the zone has.
-/
import Dnspir.ProcessFacts
import Dnspir.Dns.LookupFacts
import Dnspir.Dns.QueryFacts
import Dnspir.Dns.ServeFacts
import Dnspir.Dns.StartupFacts

namespace Dnspir

open PIRDatabase DoublePir PirWrapper Negacyclic

namespace Dns

/-! ## A server in PIR mode -/

/-- A server in PIR mode, with the buckets of a zone. -/
structure Serving (fm : FeanorMath) (zone : Zone) (keys : List Name) (numEntries : ℕ)
    (state : ServerState) (primary : IndexGroup rank) (buckets : List (List Bucket))
    (fleet : List (Shard fm rank)) : Prop where
  perm : keys.Perm zone.records.keys
  pos : 1 ≤ numEntries
  le : numEntries ≤ rank * rank
  run : (buildBuckets zone keys numEntries state.hashSalt).run = some (.ok buckets)
  shape : (getDatabaseShape numEntries).map Prod.fst = some primary
  built : List.Forall₂ (BuiltFrom primary) buckets fleet
  zoneName : state.zoneName = zone.zoneName
  pir : state.pir = some ⟨fleet.map Shard.db, numEntries⟩

section Serving
variable {fm : FeanorMath} {zone : Zone} {keys : List Name} {numEntries : ℕ} {state : ServerState}
  {primary : IndexGroup rank}
  {buckets : List (List Bucket)} {fleet : List (Shard fm rank)}

/-- A server that has started without a dump is one. -/
theorem serving_of_started {host : Host} {alwaysDump : Bool} {out : Name}
    (hk : (host.keys zone).Perm zone.records.keys)
    (h : Started fm host zone alwaysDump out (.ok state)) (hdump : state.dump = none) :
    ∃ (primary : IndexGroup rank) (buckets : List (List Bucket)) (fleet : List (Shard fm rank)),
      Serving fm zone (host.keys zone) (host.numEntries zone) state primary buckets fleet := by
  obtain ⟨h1, h2⟩ := numEntries_range host zone
  cases h with
  | dump => cases hdump
  | @pir k buckets primary pir slab fleet _ _ hfirst hprimary hpre =>
    exact ⟨primary, buckets, fleet, hk, h1, h2, hfirst.built, hprimary, hpre.built, rfl,
      congrArg some hpre.state⟩

/-- Its shape is what a client derives from the number of entries. -/
theorem Serving.exists_shape (h : Serving fm zone keys numEntries state primary buckets fleet) :
    ∃ secondary shards, Shape numEntries primary secondary shards ∧ fleet.length = shards ∧
      Serves (twice fleet) primary secondary := by
  obtain ⟨primary', secondary, shards, hs⟩ := PirWrapper.exists_shape h.pos h.le
  have hprimary := h.shape
  rw [hs.shape] at hprimary
  obtain rfl : primary' = primary := Option.some.inj hprimary
  have hlen : fleet.length = shards :=
    h.built.length_eq.symm.trans (buildBuckets_ok hs h.pos h.perm h.run).1
  have hpos : 0 < shards := Nat.zero_lt_of_lt (slot_lt_shards hs (slotHash_lt [] h.pos 0))
  refine ⟨secondary, shards, hs, hlen,
    serves_twice (List.length_pos_iff.mp (hlen ▸ hpos)) (fun s hmem => ?_) (hlen ▸ hs.fleet)⟩
  obtain ⟨k, hk, rfl⟩ := List.getElem_of_mem hmem
  exact ((List.forall₂_iff_get.mp h.built).2 k (h.built.length_eq ▸ hk) hk).1

/-- **The bucket of a name**, in the shard and at the entry that the client
asks for. -/
theorem served_bucket (h : Serving fm zone keys numEntries state primary buckets fleet) (name : Name) :
    ∃ sh pri shard bucket s entry, slot name numEntries state.hashSalt = some (sh, pri) ∧
      buckets[sh]? = some shard ∧
      shard[pri]? = some bucket ∧ fleet[sh]? = some s ∧ s.entries[pri]? = some entry ∧
        bucketToEntry bucket = some entry ∧
      sh < fleet.length ∧ pri < simdCount * primary.groupOrder := by
  obtain ⟨secondary, shards, hs, hlen, hserves⟩ := h.exists_shape
  have hsh := slot_lt_shards hs (slotHash_lt name h.pos state.hashSalt)
  have hpri : slotHash name numEntries state.hashSalt % (simdCount * primary.groupOrder) <
      simdCount * primary.groupOrder :=
    Nat.mod_lt _ (Nat.mul_pos (by decide) hs.primary_pos)
  obtain ⟨shard, hshard, -, hslots⟩ := (buildBuckets_ok hs h.pos h.perm h.run).2 _ hsh
  obtain ⟨bucket, hbucket, -⟩ := hslots _ hpri
  obtain ⟨hsh', rfl⟩ := List.getElem?_eq_some_iff.mp hshard
  obtain ⟨hpri', rfl⟩ := List.getElem?_eq_some_iff.mp hbucket
  have hsh'' := h.built.length_eq ▸ hsh'
  have hentries := (List.forall₂_iff_get.mp h.built).2 _ hsh' hsh'' |>.2.1
  obtain ⟨hlen', hentry⟩ := List.forall₂_iff_get.mp (Loops.mapM_eq_some_iff.mp hentries)
  exact ⟨_, _, _, _, _, _, slot_eq hs h.pos name state.hashSalt, hshard, hbucket,
    List.getElem?_eq_getElem hsh'', List.getElem?_eq_getElem (hlen' ▸ hpri'),
    hentry _ hpri' (hlen' ▸ hpri'), hsh'', hpri⟩

theorem Serving.info_numEntries (h : Serving fm zone keys numEntries state primary buckets fleet) :
    state.info.numEntries.toNat = numEntries := by
  have hsq : rank * rank = 4194304 := by decide
  have hle := h.le
  simp only [ServerState.info, h.pir, Option.map_some, Option.getD_some, UInt32.toNat_ofNat']
  omega

theorem queryLength_le (primary secondary : IndexGroup rank) :
    queryLength primary secondary ≤ 60416 := by
  rw [queryLength]
  split <;> split <;> norm_num

/-- A request for PIR gets the reply of `process_query`. -/
theorem Serving.exchange_query (h : Serving fm zone keys numEntries state primary buckets fleet)
    {secondary : IndexGroup rank} {query reply : List UInt8} {m : Array CompressedZnx8El}
    (hlen : query.length = queryLength primary secondary) (hreply : reply.length = replyLength)
    (hrun : processQuery fm (fleet.map Shard.db) query #[] = some (reply, m)) :
    state.exchange fm (cmdQuery :: query) = .ok reply := by
  have hle := queryLength_le primary secondary
  refine exchange_of_answers (@answers_of_answer fm state _ _ #[] m ?_) ?_ ?_
  · rw [ServerState.answer, if_neg (by decide), if_pos rfl, h.pir]
    change (processQuery fm (fleet.map Shard.db) query #[]).bind _ = _
    rw [hrun]
    rfl
  · rw [List.length_cons, hlen, maxFrame]
    omega
  · rw [hreply]
    decide

/-- **One query that is too short ends the server**, whatever the state of its
other connections. -/
theorem Serving.halts_of_short (hfm : fm.Correct)
    (h : Serving fm zone keys numEntries state primary buckets fleet) {secondary : IndexGroup rank}
    (hshape : getDatabaseShape numEntries = some (primary, secondary)) {query : List UInt8}
    (hshort : query.length < queryLength primary secondary) (later : List UInt8)
    {events : List (ℕ × ConnEvent)} {i : ℕ}
    (harrived : ((state.run fm events).machine i).arrived = frameBytes (cmdQuery :: query) ++ later) :
    ∃ turns : List ConnEvent, (∀ event ∈ turns, event.IsTurn) ∧
      (state.run fm (events ++ turns.map (i, ·))).halted := by
  obtain ⟨secondary', shards, hs, -, hserves⟩ := h.exists_shape
  obtain rfl : secondary' = secondary :=
    congrArg Prod.snd (Option.some.inj (hs.shape.symm.trans hshape))
  have hpanic : processQuery fm (fleet.map Shard.db) query #[] = none :=
    (processQuery_spec hfm hserves query #[]).1 (not_le.mpr hshort)
  have houtcome : state.outcome fm (cmdQuery :: query) = .error .panicked := by
    have hanswer : state.answer fm (cmdQuery :: query) #[] = none := by
      rw [ServerState.answer, if_neg (by decide), if_pos rfl, h.pir]
      change (processQuery fm (fleet.map Shard.db) query #[]).bind _ = none
      rw [hpanic]
      rfl
    rw [ServerState.outcome, hanswer]
  have hreq : (cmdQuery :: query).length ≤ maxFrame := by
    have hle := queryLength_le primary secondary'
    rw [List.length_cons, maxFrame]
    omega
  obtain ⟨turns, hturns, -, -, hhalts⟩ := exists_turns fm state events i
  refine ⟨turns, hturns, hhalts ?_⟩
  rw [harrived, (handle_outcome hreq later #[]).1 _ houtcome]

end Serving

/-! ## A query -/

section Query
variable {lib : Libraries} {zone : Zone} {keys : List Name} {numEntries : ℕ} {state : ServerState}
  {primary : IndexGroup rank}
  {buckets : List (List Bucket)} {fleet : List (Shard lib.fm rank)}

/-- The noise of the query for a name fits, for what the client has drawn. -/
def NameFits (lib : Libraries) (rng : QueryRandomness) (fleet : List (Shard lib.fm rank))
    (primary : IndexGroup rank) (numEntries : ℕ) (salt : UInt64) (name : Name) : Prop :=
  ∀ secondary sh pri query, chooseIndexGroupSecondary fleet.length = some secondary →
    slot name numEntries salt = some (sh, pri) →
    prepareQuery lib.fm lib.stdRng rng.skSeed rng.errors pri sh numEntries = some (query, rng.skSeed) →
    NoiseFits fleet primary secondary (secretKey lib.stdRng rng.skSeed) query sh pri

/-- What the client reads of a reply that decrypts to a bucket. -/
theorem readReply_of_coeffs (rng : QueryRandomness) (info : InfoResponse) (name : Name)
    {reply : List UInt8} {coeffs : Vector (ZMod primaryPlainModulus) rank} {bucket : Bucket}
    {recs : List Record} (hunavailable : reply ≠ respUnavailable)
    (hprocess : processReply lib.stdRng reply rng.skSeed = some coeffs)
    (hcoeffs : coeffsToBucket coeffs.toList = some bucket)
    (hdecode : decodeBucketMatching bucket
      (discriminator name info.hashSalt (readBucketSalt bucket)) = some recs) :
    readReply lib rng info name reply = some (.ok recs) := by
  rw [readReply, if_neg hunavailable, hprocess]
  simp only [Option.bind_eq_bind, Option.bind_some, Option.pure_def, hcoeffs, hdecode]

/-- The request of a query, and what is read of its reply. -/
theorem query_of_exchange (rng : QueryRandomness) (info : InfoResponse)
    (exchange : List UInt8 → Except IoError (List UInt8)) {name : Name} {sh pri : ℕ}
    {query reply : List UInt8}
    (hslot : slot name info.numEntries.toNat info.hashSalt = some (sh, pri))
    (hprepare : prepareQuery lib.fm lib.stdRng rng.skSeed rng.errors pri sh info.numEntries.toNat =
      some (query, rng.skSeed)) (hexchange : exchange (cmdQuery :: query) = .ok reply) :
    info.query lib rng exchange name = readReply lib rng info name reply := by
  rw [InfoResponse.query, hslot]
  simp only [Option.bind_eq_bind, Option.bind_some, hprepare, hexchange]
  rfl

/-- What a lookup in the buckets returns. -/
theorem Serving.exists_lookup (h : Serving lib.fm zone keys numEntries state primary buckets fleet)
    (name : Name) :
    ∃ recs, lookupViaCoeffs buckets numEntries state.hashSalt name = some recs ∧
      (name ∈ zone.records → zone.query name = some recs) ∧
      ∀ rec ∈ recs, ∃ key ∈ zone.records,
        slot key numEntries state.hashSalt = slot name numEntries state.hashSalt ∧
        rec ∈ zone.answer key := by
  obtain ⟨sh, pri, bucketSalt, hslot, hanswers, hleast, hlookup⟩ :=
    lookup_eq h.perm h.pos h.le h.run name
  refine ⟨_, hlookup, fun hn => ?_, fun rec hrec => ?_⟩
  · have hmem : name ∈ slotNames keys numEntries state.hashSalt sh pri :=
      List.mem_filter.mpr ⟨h.perm.mem_iff.mpr (AList.mem_keys.mp hn), decide_eq_true hslot⟩
    obtain ⟨own, hown⟩ := Option.isSome_iff_exists.mp (hanswers name hmem)
    rw [matching_own hleast.1.2 hmem, Zone.answer, hown]
    rfl
  · rw [matching_entriesOf, List.mem_flatMap] at hrec
    obtain ⟨key, hkey, hmem⟩ := hrec
    obtain ⟨hkeys, hkslot⟩ := List.mem_filter.mp (List.mem_filter.mp hkey).1
    exact ⟨key, AList.mem_keys.mpr (h.perm.mem_iff.mp hkeys),
      (of_decide_eq_true hkslot).trans hslot.symm, hmem⟩

/-- **A query reads the bucket of its name**, where its noise fits. -/
theorem Serving.query_eq_lookup (hfm : lib.fm.Correct)
    (h : Serving lib.fm zone keys numEntries state primary buckets fleet) (rng : QueryRandomness)
    {name : Name} (hfits : NameFits lib rng fleet primary numEntries state.hashSalt name)
    {recs : List Record}
    (hlookup : lookupViaCoeffs buckets numEntries state.hashSalt name = some recs) :
    state.info.query lib rng (state.exchange lib.fm) name = some (.ok recs) := by
  obtain ⟨secondary, shards, hs, hlen, hserves⟩ := h.exists_shape
  obtain ⟨sh, pri, shard, bucket, s, entry, hslot, hshard, hbucket, hshardDb, hentry, hbucketEntry,
    hsh, hpri⟩ := served_bucket h name
  obtain ⟨-, -, -, query, -, -, hprepare, hqlen, -, -⟩ :=
    prepareQuery_spec hfm hs lib.stdRng rng.skSeed rng.errors hpri (hlen ▸ hsh)
  obtain ⟨q, results, result, reply, m, hreplied⟩ :=
    (processQuery_spec hfm hserves query #[]).2 hqlen.ge
  have hnoise := hfits secondary sh pri query (hlen ▸ hs.fleet) hslot hprepare
  obtain ⟨hrlen, reply', hparse, hdec⟩ := hreplied.decrypts hfm hserves hnoise hshardDb hentry
  have hexchange := h.exchange_query hqlen hrlen hreplied.run
  -- What is decrypted is the bucket.
  have hcoeffs : coeffsToBucket (Vector.ofFn entry.coeff).toList = some bucket := by
    obtain ⟨entry', hentry', hcoeffs⟩ := coeffsToBucket_entry (pack_lt bucket)
    obtain rfl : entry' = entry := Option.some.inj (hentry'.symm.trans hbucketEntry)
    rw [hcoeffs, unpack_pack]
  have hprocess : processReply lib.stdRng reply rng.skSeed = some (Vector.ofFn entry.coeff) := by
    rw [processReply_eq lib.stdRng rng.skSeed hparse, hdec]
    rfl
  have hdecode : decodeBucketMatching bucket
      (discriminator name state.hashSalt (readBucketSalt bucket)) = some recs := by
    rw [← hlookup]
    simp only [lookupViaCoeffs, hslot, hshard, hbucket, Option.bind_eq_bind, Option.bind_some,
      unpack_pack]
  have hunavailable : reply ≠ respUnavailable := fun he => by
    rw [he] at hrlen
    exact absurd hrlen (by decide)
  rw [query_of_exchange rng state.info (state.exchange lib.fm) (h.info_numEntries.symm ▸ hslot)
    (h.info_numEntries.symm ▸ hprepare) hexchange]
  exact readReply_of_coeffs rng state.info name hunavailable hprocess hcoeffs hdecode

/-- **A query to a server.** Where its noise fits, the client reads the bucket of
its name: for a name of the zone it gets the records the zone has, and for any
other one only records of names with the same slot. -/
theorem query_served (hfm : lib.fm.Correct)
    (h : Serving lib.fm zone keys numEntries state primary buckets fleet) (rng : QueryRandomness)
    {name : Name} (hfits : NameFits lib rng fleet primary numEntries state.hashSalt name) :
    ∃ recs, state.info.query lib rng (state.exchange lib.fm) name = some (.ok recs) ∧
      lookupViaCoeffs buckets numEntries state.hashSalt name = some recs ∧
      (name ∈ zone.records → zone.query name = some recs) ∧
      ∀ rec ∈ recs, ∃ key ∈ zone.records,
        slot key numEntries state.hashSalt = slot name numEntries state.hashSalt ∧
        rec ∈ zone.answer key := by
  obtain ⟨recs, hlookup, hown, hothers⟩ := h.exists_lookup name
  exact ⟨recs, h.query_eq_lookup hfm rng hfits hlookup, hlookup, hown, hothers⟩

end Query

/-! ## A client that draws ones -/

/-- `feanor-math` with constants for the elements it draws. -/
def constantMath : FeanorMath :=
  { FeanorMath.reference with
    randomElement := fun _ seed => ⟨fun i => if i.val = 0 then (seed[0].toNat : ZMod fixedQ) else 0⟩ }

theorem constantMath_correct : constantMath.Correct :=
  ⟨FeanorMath.reference_correct.pow, FeanorMath.reference_correct.fft,
    FeanorMath.reference_correct.invFft, FeanorMath.reference_correct.isPrimitiveRoot,
    FeanorMath.reference_correct.exists_root,
    FeanorMath.reference_correct.roundedDiv⟩

theorem expand_constantMath (seed : Seed) :
    (expand constantMath seed : CipherRing rank) = C (seed[0].toNat : ZMod fixedQ) :=
  Negacyclic.ext (funext fun _ => (coeff_C _ _).symm)

/-- Libraries that draw the key `1` as well. -/
def oneLibraries : Libraries := ⟨constantMath, fun _ _ => (0, 2)⟩

/-- Errors of ones. -/
def oneRandomness : QueryRandomness := ⟨seeds[0], ⟨fun _ => 1, 1, 1, 1, 1⟩⟩

theorem secretKey_one (seed : Seed) : secretKey oneLibraries.stdRng seed = 1 :=
  Negacyclic.ext (funext fun i => by
    rw [coeff_one]
    rcases @Bfv.coeff_genSk _ _ skHwt fixedQ (oneLibraries.stdRng seed) i
      with ⟨hnone, h⟩ | ⟨k, -, hk, -, h⟩
    · refine h.trans (if_neg fun hi => hnone 0 (by decide) (Fin.ext ?_)).symm
      rw [Bfv.drawnIdx, hi]
      rfl
    · refine h.trans ((if_pos ?_).trans ?_).symm
      · rw [← hk]
        rfl
      · simp [Bfv.drawnCoeff, oneLibraries])

theorem weight_one : weight (1 : CipherRing rank) ≤ 1 := by
  rw [weight_eq_size fun i hi => by rw [coeff_one, if_neg (mt Fin.val_eq_zero_iff.mp hi)]]
  exact bounded_one 0

/-- A constant moves in one coefficient. -/
theorem weight_moved {bits : ℕ} (hb1 : 1 ≤ bits) (hb : bits ≤ 64) {x x' : CipherRing rank}
    {c : ZMod fixedQ} (hx : x = C c) (hsw : switched constantMath bits x = some x') :
    weight (1 + (x' - x)) ≤ 1 + Bfv.switchBound fixedQ bits := by
  obtain ⟨hbound, hzero⟩ := switched_bounded constantMath_correct hb1 hb hsw
  rw [weight_eq_size fun i hi => ?_]
  · exact (bounded_one.add hbound) 0
  · have h0 : x.coeff i = 0 := by rw [hx, coeff_C, if_neg (mt Fin.val_eq_zero_iff.mp hi)]
    rw [coeff_add, coeff_sub, h0, hzero i h0, sub_self, add_zero, coeff_one,
      if_neg (mt Fin.val_eq_zero_iff.mp hi)]

/-- Its keys are constants. -/
theorem oneKey_eq {gk : Vector (CipherRing rank) 2}
    (hgk : Bfv.genGkB (expand constantMath) (UsedSeeds.getGkSeeds .firstSet) (fun _ => 1)
      (1 : CipherRing rank) 5 log2B = some gk) (k : Fin 2) : ∃ c, gk[k] = C c := by
  have hkey := keyError_eq (show rank = 2 ^ log2N by decide) hgk .firstSet k
  obtain ⟨a, ha⟩ : ∃ a, gkA constantMath .firstSet k = (C a : CipherRing rank) :=
    ⟨_, expand_constantMath _⟩
  have hone : sigma (1 : CipherRing rank) = 1 := map_one _
  rw [keyError, hone, mul_one, mul_one, ha] at hkey
  refine ⟨1 + (2 ^ log2B) ^ k.val - a, ?_⟩
  rw [RingHom.map_sub, RingHom.map_add, RingHom.map_one]
  linear_combination hkey

/-- So is its query for the first entry. -/
theorem oneLevel_eq {g : IndexGroup rank} {useSeeds : UsedSeeds}
    {qry : CipherRing rank × Option (CipherRing rank)}
    (h : encLevel constantMath primaryPlainModulus g useSeeds 1 1 1 0 = some qry) :
    ∃ c, qry.1 = C c := by
  have herror := (queryError_eq h).1
  obtain ⟨a, ha⟩ : ∃ a, qryA constantMath useSeeds 0 = (C a : CipherRing rank) :=
    ⟨_, expand_constantMath _⟩
  rw [queryError, ha, mul_one, zero_mul, pow_zero, mul_one, payloadUnit] at herror
  refine ⟨1 + ((Bfv.unit primaryPlainModulus fixedQ : ℤ) : ZMod fixedQ) - a, ?_⟩
  rw [RingHom.map_sub, RingHom.map_add, RingHom.map_one]
  linear_combination herror

/-- A level without conjugates has room for these errors. -/
theorem oneLevel_fits {g : IndexGroup rank} (hconj : ¬g.requiresConj) {gk : Fin 2 → CipherRing rank}
    (hgk : ∀ k, weight (gk k) ≤ 1 + Bfv.switchBound fixedQ galoisKeyLog2Modulus)
    {e eConj : CipherRing rank} (he : weight e ≤ 1 + Bfv.switchBound fixedQ 34) :
    errorBudget g gk e eConj + switchBudget (1 : CipherRing rank) ≤ noiseRoom g := by
  have hrank := rank_eq
  have hvalid := g.valid
  have hord : g.groupOrder ≤ 1024 := by
    have hne : g.l ≠ rank := fun hl => hconj (beq_iff_eq.mpr hl)
    change g.l ≤ _
    omega
  have hloop : g.loopLen ≤ 1024 := by
    unfold IndexGroup.loopLen
    split <;> omega
  have h50 : Bfv.switchBound fixedQ galoisKeyLog2Modulus ≤ 2 :=
    by norm_num [Bfv.switchBound, fixedQ_val, galoisKeyLog2Modulus]
  have h34 : Bfv.switchBound fixedQ 34 ≤ 10 ^ 5 := by norm_num [Bfv.switchBound, fixedQ_val]
  have h17 : Bfv.switchBound fixedQ 17 ≤ 10 ^ 10 := by norm_num [Bfv.switchBound, fixedQ_val]
  have h12 : Bfv.switchBound fixedQ 12 ≤ 3 * 10 ^ 11 := by norm_num [Bfv.switchBound, fixedQ_val]
  have hkeys : weight (gk 0) + weight (gk 1) ≤ 6 := by
    have h0 := hgk 0
    have h1 := hgk 1
    omega
  have hbudget : errorBudget g gk e eConj ≤ 1024 * (512 * (1 + 10 ^ 5) + 2 ^ 25 * 6) := by
    rw [errorBudget, if_neg hconj, Nat.add_zero]
    exact Nat.mul_le_mul hloop
      (add_le_add (Nat.mul_le_mul (by decide) (he.trans (by omega))) (Nat.mul_le_mul_left _ hkeys))
  have hswitch : switchBudget (1 : CipherRing rank) ≤ 10 ^ 10 * 1 + 3 * 10 ^ 11 :=
    add_le_add (Nat.mul_le_mul h17 weight_one) h12
  have hroom : 10 ^ 12 ≤ noiseRoom g := by
    rw [le_noiseRoom_iff (by decide), Bfv.Carries, fixedQ_val]
    have hsel : g.groupOrder * (primaryPlainModulus / 2) ≤ 1024 * 512 := Nat.mul_le_mul hord (by decide)
    generalize g.groupOrder * (primaryPlainModulus / 2) = S at hsel ⊢
    rw [primaryPlainModulus]
    omega
  omega

theorem exists_serving_glue :
    ∃ (state : ServerState) (primary : IndexGroup rank) (buckets : List (List Bucket))
    (fleet : List (Shard constantMath rank)), state.hashSalt = 0 ∧
      Serving constantMath glueZone glueZone.records.keys 1 state primary buckets fleet := by
  obtain ⟨primary, secondary, shards, hs⟩ :=
    PirWrapper.exists_shape (le_refl 1) (by decide : 1 ≤ rank * rank)
  obtain ⟨buckets, hbuckets⟩ := exists_buildBuckets_glue
  obtain ⟨hlen, hfull⟩ := buildBuckets_ok hs (le_refl 1) (List.Perm.refl _) hbuckets
  have hlengths : ∀ slotBuckets ∈ buckets, slotBuckets.length = simdCount * primary.groupOrder :=
      fun slotBuckets hmem => by
    obtain ⟨k, hk, rfl⟩ := List.getElem_of_mem hmem
    obtain ⟨shard, hshard, hl, -⟩ := hfull k (hlen ▸ hk)
    obtain rfl := Option.some.inj ((List.getElem?_eq_getElem hk).symm.trans hshard)
    exact hl
  obtain ⟨fleet, hbuilt, -⟩ := preprocess_spec constantMath_correct hs hlen hlengths
  exact ⟨⟨glueZone.zoneName, some ⟨fleet.map Shard.db, 1⟩, none, 0⟩, primary, buckets, fleet, rfl,
    List.Perm.refl _, le_refl 1, by decide, hbuckets, by rw [hs.shape]; rfl, hbuilt, rfl, rfl⟩

theorem query_served_glue : ∃ state : ServerState, state.info.query oneLibraries oneRandomness
    (state.exchange oneLibraries.fm) "a.org".toList = some (.ok glueRecords) := by
  obtain ⟨state, primary, buckets, fleet, hsalt, h⟩ := exists_serving_glue
  refine ⟨state, ?_⟩
  have hfits : NameFits oneLibraries oneRandomness fleet primary 1 state.hashSalt "a.org".toList := by
    intro secondary sh pri query hsec hslot hprepare
    obtain ⟨secondary', shards, hs, hlen, hserves⟩ := h.exists_shape
    obtain rfl : secondary' = secondary := Option.some.inj ((hlen ▸ hs.fleet).symm.trans hsec)
    rw [slot_one] at hslot
    obtain ⟨rfl, rfl⟩ := Prod.mk.inj (Option.some.inj hslot)
    have hshards := slot_lt_shards hs (slotHash_lt "a.org".toList (le_refl 1) 0)
    obtain ⟨qry1, qry2, gk, bytes, qry', henc, hprepare', -, hparse, hsw⟩ :=
      prepareQuery_spec constantMath_correct hs
      oneLibraries.stdRng oneRandomness.skSeed oneRandomness.errors
        (Nat.mul_pos (by decide) hs.primary_pos)
      (Nat.zero_lt_of_lt hshards)
    obtain rfl : bytes = query := (Prod.mk.inj (Option.some.inj (hprepare'.symm.trans hprepare))).1
    rw [secretKey_one] at henc ⊢
    obtain ⟨-, hgk, h1, h2⟩ := levels_of_encDoublePir henc
    have hkeys : ∀ k : Fin 2,
        weight (1 + (qry'.gk[k] - gk[k])) ≤ 1 + Bfv.switchBound fixedQ galoisKeyLog2Modulus := fun k =>
      weight_moved (by decide) (by decide) (oneKey_eq hgk k).choose_spec (hsw.gk k)
    have hprimary := weight_moved (by decide) (by decide) (oneLevel_eq h1).choose_spec hsw.primary
    have hsecondary := weight_moved (by decide) (by decide) (oneLevel_eq h2).choose_spec hsw.secondary
    refine noiseFits_of_errors constantMath_correct hserves hs.even henc hparse
      (hlen ▸ Nat.zero_lt_of_lt hshards) ⟨?_, ?_⟩
    · exact oneLevel_fits (fun hc => absurd (hs.primaryConj.mp hc) (by decide)) hkeys hprimary
    · exact oneLevel_fits (fun hc => absurd (hs.secondaryConj.mp hc) (by decide)) hkeys hsecondary
  obtain ⟨recs, hquery, -, hzone, -⟩ :=
    @query_served oneLibraries _ _ _ _ _ _ _ constantMath_correct h oneRandomness _ hfits
  have hrecs : glueZone.query "a.org".toList = some glueRecords := by decide
  obtain rfl := Option.some.inj (hrecs.symm.trans (hzone (by decide)))
  exact hquery

end Dns

end Dnspir
