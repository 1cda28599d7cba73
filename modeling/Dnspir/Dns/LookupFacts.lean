/-
What a client finds in the buckets of a zone (`client::TcpDnsServer::query`,
over `server::build_buckets`).

* `lookup_eq_query`: a name of the zone has the records a lookup in the zone
  returns.
* `lookup_absent_iff`: another name has none exactly when no name with records
  has its slot and its discriminator.
-/
import Dnspir.Dns.CoeffFacts
import Dnspir.Dns.ServerFacts

namespace Dnspir

open PirWrapper

namespace Dns

/-! ## The entries of a discriminator -/

theorem matching_append (xs ys : List (UInt16 × Record)) (d : UInt16) :
    matching (xs ++ ys) d = matching xs d ++ matching ys d := List.filterMap_append

theorem matching_tagged (recs : List Record) (d d' : UInt16) :
    matching (recs.map fun rec => (d, rec)) d' = if d = d' then recs else [] := by
  induction recs with
  | nil => simp
  | cons rec recs ih =>
    rw [List.map_cons, matching_cons, ih]
    split <;> rfl

section Matching
variable {zone : Zone} {globalSalt : UInt64} {salt : UInt32} {names : List Name}

/-- The records of the names with a discriminator. -/
theorem matching_entriesOf (d : UInt16) : matching (entriesOf zone globalSalt salt names) d =
    (names.filter fun name => discriminator name globalSalt salt = d).flatMap zone.answer := by
  induction names with
  | nil => rfl
  | cons name names ih =>
    rw [entriesOf, List.flatMap_cons, matching_append, matching_tagged, List.filter_cons,
      ← entriesOf, ih]
    split
    next h => simp [h]
    next h => simp [h]

/-- Where the discriminators are distinct a name finds its own records. -/
theorem matching_own (hsep : Separates globalSalt names salt) {name : Name} (hm : name ∈ names) :
    matching (entriesOf zone globalSalt salt names) (discriminator name globalSalt salt) =
      zone.answer name := by
  have hinj := List.inj_on_of_nodup_map hsep
  have hone : (names.filter fun n => discriminator n globalSalt salt =
      discriminator name globalSalt salt) = [name] := by
    have heq : (names.filter fun n => discriminator n globalSalt salt =
        discriminator name globalSalt salt) =
        names.filter fun n => n = name := by
      refine List.filter_congr fun n hn => ?_
      rw [decide_eq_decide]
      exact ⟨fun he => hinj hn hm he, fun he => he ▸ rfl⟩
    rw [heq, List.filter_eq, List.count_eq_one_of_mem (List.Nodup.of_map _ hsep) hm]
    rfl
  rw [matching_entriesOf, hone, List.flatMap_singleton]

end Matching

/-! ## A lookup -/

/-- A bucket as the client has it, past the coefficients, and what it reads of
a name. -/
def lookupViaCoeffs (buckets : List (List Bucket)) (numEntries : ℕ) (salt : UInt64) (name : Name) :
    Option (List Record) := do
  let (sh, pri) ← slot name numEntries salt
  let shard ← buckets[sh]?
  let coeffs := packBytesIntoCoeffs (← shard[pri]?)
  let bucketBytes := unpackCoeffsIntoBytes coeffs
  decodeBucketMatching bucketBytes (discriminator name salt (readBucketSalt bucketBytes))

section Lookup
variable {zone : Zone} {keys : List Name} {numEntries : ℕ} {salt : UInt64}
  {buckets : List (List Bucket)}

/-- What is read of any name: the records of the names with its slot and its
discriminator. -/
theorem lookup_eq (hk : keys.Perm zone.records.keys) (h1 : 1 ≤ numEntries)
    (h2 : numEntries ≤ rank * rank)
    (h : (buildBuckets zone keys numEntries salt).run = some (.ok buckets)) (name : Name) :
    ∃ sh pri bucketSalt, slot name numEntries salt = some (sh, pri) ∧
      (∀ n ∈ slotNames keys numEntries salt sh pri, (zone.query n).isSome) ∧
      IsLeast (separatingSalts salt (slotNames keys numEntries salt sh pri)) bucketSalt ∧
      lookupViaCoeffs buckets numEntries salt name =
        some (matching (entriesOf zone salt bucketSalt (slotNames keys numEntries salt sh pri))
          (discriminator name salt bucketSalt)) := by
  obtain ⟨primary, secondary, shards, hs⟩ := exists_shape h1 h2
  have hpos : 0 < simdCount * primary.groupOrder := Nat.mul_pos (by decide) hs.primary_pos
  have hslot := slot_eq hs h1 name salt
  have hsh := slot_lt_shards hs (slotHash_lt name h1 salt)
  have hpri := Nat.mod_lt (slotHash name numEntries salt) hpos
  obtain ⟨-, hshards⟩ := buildBuckets_ok hs h1 hk h
  obtain ⟨shard, hshard, -, hslots⟩ := hshards _ hsh
  obtain ⟨bucket, hbucket, hfilled⟩ := hslots _ hpri
  obtain ⟨bucketSalt, hleast, hholds⟩ := hfilled.holds
  refine ⟨_, _, bucketSalt, hslot, hfilled.answers, hleast, ?_⟩
  simp only [lookupViaCoeffs, hslot, hshard, hbucket, Option.bind_eq_bind, Option.bind_some,
    unpack_pack, hholds.readBucketSalt, decodeBucketMatching_eq,
    hholds.entries_eq (entriesOf_le_discMask zone salt bucketSalt _)]

end Lookup

theorem trySaltsFrom_ok {α : Type} {maxAttempts : ℕ} {builder : UInt64 → ExceptT Name Option α}
    {left attempt : ℕ} {lastErr : Option Name} {t : α} {salt : UInt64}
    (h : trySaltsFrom maxAttempts builder left attempt lastErr = some (.ok (t, salt))) :
    (builder salt).run = some (.ok t) := by
  induction left generalizing attempt lastErr with
  | zero => cases h
  | succ left ih =>
    rw [trySaltsFrom] at h
    split at h
    next => cases h
    next hb =>
      cases h
      exact hb
    next => exact ih h

/-- **PIR mode agrees with dump mode** on every name of the zone. -/
theorem lookup_eq_query {zone : Zone} {keys : List Name} (hk : keys.Perm zone.records.keys)
    {numEntries : ℕ} (h1 : 1 ≤ numEntries) (h2 : numEntries ≤ rank * rank)
    {buckets : List (List Bucket)} {salt : UInt64}
    (h : trySalts maxRehashRetries (buildBuckets zone keys numEntries) = some (.ok (buckets, salt)))
    {name : Name} (hn : name ∈ zone.records) :
    (zone.query name).isSome ∧ lookupViaCoeffs buckets numEntries salt name = zone.query name := by
  obtain ⟨sh, pri, bucketSalt, hslot, hanswers, hleast, hlookup⟩ :=
    lookup_eq hk h1 h2 (trySaltsFrom_ok h) name
  have hm : name ∈ slotNames keys numEntries salt sh pri :=
    List.mem_filter.mpr ⟨hk.mem_iff.mpr (AList.mem_keys.mp hn), decide_eq_true hslot⟩
  have hsome := hanswers name hm
  refine ⟨hsome, ?_⟩
  rw [hlookup, matching_own hleast.1.2 hm, Zone.answer]
  obtain ⟨recs, hrecs⟩ := Option.isSome_iff_exists.mp hsome
  rw [hrecs]
  rfl

theorem exists_buildBuckets_glue :
    ∃ buckets, (buildBuckets glueZone glueZone.records.keys 1 0).run = some (.ok buckets) := by
  obtain ⟨primary, secondary, shards, hs⟩ := exists_shape (le_refl 1) (by decide : 1 ≤ rank * rank)
  exact exists_buildBuckets hs (le_refl 1) (.refl _)
      (fun name _ => glueZone_valid.query_isSome name) fun sh _ pri _ =>
    fits_of_not_overfull (.refl _) (glueZone_not_overfull 1 sh pri)

/-- Two names in one bucket, each with its own records. -/
theorem lookup_eq_query_glue :
    ∃ buckets, lookupViaCoeffs buckets 1 0 "a.org".toList = some glueRecords ∧
    lookupViaCoeffs buckets 1 0 "b.org".toList = some [.a #v[10, 0, 0, 1]] := by
  obtain ⟨buckets, hbuckets⟩ := exists_buildBuckets_glue
  have htry : trySalts maxRehashRetries (buildBuckets glueZone glueZone.records.keys 1) =
      some (.ok (buckets, 0)) := by
    rw [trySalts, maxRehashRetries, trySaltsFrom]
    simp only [show saltForAttempt (UInt64.ofNat 0) = 0 from rfl, hbuckets]
  have hlookup : ∀ {name : Name}, name ∈ glueZone.records →
      lookupViaCoeffs buckets 1 0 name = glueZone.query name :=
    fun hn => (lookup_eq_query (List.Perm.refl _) (le_refl 1) (by decide) htry hn).2
  exact ⟨buckets, (hlookup (by decide)).trans (by decide), (hlookup (by decide)).trans (by decide)⟩

/-- **What an absent name finds**: nothing, exactly when no name with records
has its slot and its discriminator. -/
theorem lookup_absent_iff {zone : Zone} {keys : List Name} (hk : keys.Perm zone.records.keys)
    {numEntries : ℕ} (h1 : 1 ≤ numEntries) (h2 : numEntries ≤ rank * rank)
    {buckets : List (List Bucket)} {salt : UInt64}
    (h : (buildBuckets zone keys numEntries salt).run = some (.ok buckets)) {name : Name}
    (hn : name ∉ zone.records) :
    zone.query name = some [] ∧ (lookupViaCoeffs buckets numEntries salt name = some [] ↔
      ∀ sh pri bucketSalt, slot name numEntries salt = some (sh, pri) →
        IsLeast (separatingSalts salt (slotNames zone.records.keys numEntries salt sh pri)) bucketSalt →
        ∀ key ∈ zone.records, slot key numEntries salt = some (sh, pri) → zone.query key ≠ some [] →
          discriminator key salt bucketSalt ≠ discriminator name salt bucketSalt) := by
  have hquery : zone.query name = some [] := by
    rw [Zone.query, AList.lookup_eq_none.mpr hn]
  refine ⟨hquery, ?_⟩
  obtain ⟨sh, pri, bucketSalt, hslot, hanswers, hleast, hlookup⟩ := lookup_eq hk h1 h2 h name
  rw [separatingSalts_perm (slotNames_perm hk numEntries salt sh pri)] at hleast
  have hmem : ∀ key, key ∈ slotNames keys numEntries salt sh pri ↔
      key ∈ zone.records ∧ slot key numEntries salt = some (sh, pri) := fun key => by
    rw [slotNames, List.mem_filter, hk.mem_iff, ← AList.mem_keys, decide_eq_true_iff]
  rw [hlookup, Option.some.injEq, matching_entriesOf, List.flatMap_eq_nil_iff]
  simp only [List.mem_filter, decide_eq_true_iff, hmem]
  constructor
  · intro hnil sh' pri' bucketSalt' hslot' hleast' key hkey hkslot hkquery he
    rw [hslot] at hslot'
    cases hslot'
    obtain rfl := UInt32.le_antisymm (hleast'.2 hleast.1) (hleast.2 hleast'.1)
    have hempty := hnil key ⟨⟨hkey, hkslot⟩, he⟩
    obtain ⟨recs, hrecs⟩ := Option.isSome_iff_exists.mp (hanswers key ((hmem key).mpr ⟨hkey, hkslot⟩))
    rw [Zone.answer, hrecs] at hempty
    cases hempty
    exact hkquery hrecs
  · rintro hall key ⟨⟨hkey, hkslot⟩, he⟩
    by_contra hne
    refine hall sh pri bucketSalt hslot hleast key hkey hkslot (fun hkquery => hne ?_) he
    rw [Zone.answer, hkquery]
    rfl

theorem lookup_absent_iff_glue :
    ∃ buckets, (buildBuckets glueZone glueZone.records.keys 1 0).run = some (.ok buckets) ∧
    lookupViaCoeffs buckets 1 0 "missing.org".toList = some [] := by
  obtain ⟨buckets, hbuckets⟩ := exists_buildBuckets_glue
  refine ⟨buckets, hbuckets,
    ((lookup_absent_iff (List.Perm.refl _) (le_refl 1) (by decide) hbuckets (by decide)).2).mpr ?_⟩
  intro sh pri bucketSalt hslot hleast key hkey hkslot hkquery
  rw [slot_one] at hslot
  cases hslot
  rw [slotNames_one] at hleast
  have hzero := isLeast_zero glueZone_separates
  obtain rfl := UInt32.le_antisymm (hleast.2 hzero.1) (hzero.2 hleast.1)
  have hkeys : ∀ key ∈ glueZone.records.keys,
    discriminator key 0 0 ≠ discriminator "missing.org".toList 0 0 := by decide +kernel
  exact hkeys key (AList.mem_keys.mp hkey)

/-- A name that is not in the zone finds the address of one that is. -/
theorem lookup_foreign :
    ¬∀ (zone : Zone) (keys : List Name) (numEntries : ℕ) (salt : UInt64) (buckets : List (List Bucket))
    (name : Name), zone.Valid → keys.Perm zone.records.keys → 1 ≤ numEntries →
      numEntries ≤ rank * rank →
      (buildBuckets zone keys numEntries salt).run = some (.ok buckets) → canonical name = name →
        name ∉ zone.records →
      lookupViaCoeffs buckets numEntries salt name = some [] := by
  intro hall
  obtain ⟨buckets, hbuckets⟩ :=
    exists_buildBuckets_single "only.org".toList #v[1, 2, 3, 4] (le_refl 1) (by decide) 0
  have hempty := hall (singleZone "only.org".toList
    [#v[1, 2, 3, 4]]) _ 1 0 buckets "missing10405.org".toList singleZone_valid
    (List.Perm.refl _) (le_refl 1) (by decide) hbuckets (by decide) (by decide)
  obtain ⟨sh, pri, bucketSalt, hslot, -, hleast, hlookup⟩ :=
    lookup_eq (List.Perm.refl _) (le_refl 1) (by decide) hbuckets "missing10405.org".toList
  rw [slot_one] at hslot
  cases hslot
  rw [slotNames_one] at hleast hlookup
  have hzero := isLeast_zero (separates_singleton 0 "only.org".toList 0)
  obtain rfl := UInt32.le_antisymm (hleast.2 hzero.1) (hzero.2 hleast.1)
  have hsame : discriminator "missing10405.org".toList 0 0 = discriminator "only.org".toList 0 0 :=
    by decide +kernel
  rw [hlookup, hsame, matching_own hleast.1.2 (List.mem_singleton_self _)] at hempty
  exact absurd hempty (by decide)

end Dns

end Dnspir
