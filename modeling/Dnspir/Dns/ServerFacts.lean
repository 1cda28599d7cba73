/-
The buckets of a zone (`server::build_buckets`, `server::find_bucket_salt`).

* `findBucketSalt_cases`: the search finds the least salt that separates the
  names, or there is none.
* `appendName_eq`: the entries of a name are the records a lookup in the zone
  returns, under the name's discriminator.
* `buildBuckets_ok`: buckets that are returned hold the entries of their slots.
* `buildBuckets_error_iff`: the build stops with an error exactly when a slot
  has no salt or its entries do not fit.
-/
import Mathlib.Order.Bounds.Defs
import Dnspir.Dns.CodecFacts
import Dnspir.Dns.ParseFacts
import Dnspir.Dns.Server
import Dnspir.Dns.SlotFacts

namespace Dnspir

open PirWrapper

namespace Dns

/-! ## The salt of a bucket -/

/-- The names have distinct discriminators. -/
def Separates (globalSalt : UInt64) (names : List Name) (salt : UInt32) : Prop :=
  (names.map fun name => discriminator name globalSalt salt).Nodup

/-- The salts that are tried and separate the names. -/
def separatingSalts (globalSalt : UInt64) (names : List Name) : Set UInt32 :=
  {salt | salt.toNat < maxBucketSaltAttempts ∧ Separates globalSalt names salt}

theorem separates_singleton (globalSalt : UInt64) (name : Name) (salt : UInt32) :
    Separates globalSalt [name] salt :=
  List.nodup_singleton _

section Salts
variable {globalSalt : UInt64} {names : List Name}

theorem insertDiscs_fst {salt : UInt32} {discSeen : Finset UInt16} :
    (insertDiscs globalSalt salt names discSeen).1 = true ↔
      Separates globalSalt names salt ∧
        ∀ name ∈ names, discriminator name globalSalt salt ∉ discSeen := by
  induction names generalizing discSeen with
  | nil => simp [insertDiscs, Separates]
  | cons name names ih =>
    rw [insertDiscs]
    split
    next h => simp [h]
    next h =>
      rw [ih]
      simp only [Separates, List.map_cons, List.nodup_cons, List.mem_map, Finset.mem_insert, not_or,
        List.forall_mem_cons]
      constructor
      · intro h'
        obtain ⟨hnodup, hall⟩ := h'
        exact ⟨⟨fun ⟨other, hmem, he⟩ => (hall other hmem).1 he, hnodup⟩, h,
          fun other hmem => (hall other hmem).2⟩
      · intro h'
        obtain ⟨⟨hfresh, hnodup⟩, -, hall⟩ := h'
        exact ⟨hnodup, fun other hmem => ⟨fun he => hfresh ⟨other, hmem, he⟩, hall other hmem⟩⟩

theorem insertDiscs_empty {salt : UInt32} :
    (insertDiscs globalSalt salt names ∅).1 = true ↔ Separates globalSalt names salt := by
  rw [insertDiscs_fst]
  exact and_iff_left fun _ _ => Finset.notMem_empty _

/-- The salts before the one that is found do not separate the names. -/
theorem findSaltFrom_spec (globalSalt : UInt64) (names : List Name) (left salt : ℕ)
    (discSeen : Finset UInt16) :
    ((findSaltFrom names globalSalt left salt discSeen).1 = none ∧
        ∀ s, salt ≤ s → s < salt + left → ¬Separates globalSalt names (UInt32.ofNat s)) ∨
      ∃ s, (findSaltFrom names globalSalt left salt discSeen).1 =
        some (UInt32.ofNat s, UInt32.ofNat (s + 1)) ∧
        (salt ≤ s ∧ s < salt + left) ∧ Separates globalSalt names (UInt32.ofNat s) ∧
        ∀ s', salt ≤ s' → s' < s → ¬Separates globalSalt names (UInt32.ofNat s') := by
  induction left generalizing salt discSeen with
  | zero => exact .inl ⟨rfl, fun s h1 h2 => absurd h1 (by omega)⟩
  | succ left ih =>
    rw [findSaltFrom]
    split
    next seen hins =>
      refine .inr ⟨salt, rfl, ⟨le_rfl, by omega⟩, insertDiscs_empty.mp (by rw [hins]),
        fun s' h1 h2 => absurd h1 (by omega)⟩
    next seen hins =>
      have hsalt : ¬Separates globalSalt names (UInt32.ofNat salt) := fun h => by
        rw [← insertDiscs_empty, hins] at h
        cases h
      have hbefore : ∀ {s}, salt ≤ s → (salt + 1 ≤ s → ¬Separates globalSalt names (UInt32.ofNat s)) →
          ¬Separates globalSalt names (UInt32.ofNat s) := fun {s} hle h => by
        rcases hle.eq_or_lt with rfl | hlt
        · exact hsalt
        · exact h hlt
      rcases ih (salt + 1) seen with ⟨hnone, hall⟩ | ⟨s, hsome, hs, hsep, hall⟩
      · exact .inl ⟨hnone, fun s h1 h2 => hbefore h1 fun h => hall s h (by omega)⟩
      · exact .inr ⟨s, hsome, by omega, hsep, fun s' h1 h2 => hbefore h1 fun h => hall s' h h2⟩

/-- What the set holds before the search does not matter. -/
theorem findBucketSalt_seen (discSeen : Finset UInt16) :
    findBucketSalt names globalSalt discSeen = findBucketSalt names globalSalt ∅ := by
  rw [findBucketSalt, findBucketSalt, show maxBucketSaltAttempts = 65535 + 1 from rfl, findSaltFrom,
    findSaltFrom]

/-- **The search** finds the least salt, or there is none. -/
theorem findBucketSalt_cases (globalSalt : UInt64) (names : List Name) (discSeen : Finset UInt16) :
    ((findBucketSalt names globalSalt discSeen).1 = none ∧ separatingSalts globalSalt names = ∅) ∨
      ∃ salt attempts, (findBucketSalt names globalSalt discSeen).1 = some (salt, attempts) ∧
        IsLeast (separatingSalts globalSalt names) salt := by
  have hmax : maxBucketSaltAttempts = 65536 := rfl
  rcases findSaltFrom_spec globalSalt names maxBucketSaltAttempts 0 discSeen with
    ⟨hnone, hall⟩ | ⟨s, hsome, hs, hsep, hall⟩
  · refine .inl ⟨hnone, Set.eq_empty_of_forall_notMem fun salt hsalt => ?_⟩
    have h := hall salt.toNat (Nat.zero_le _) (by simpa using hsalt.1)
    rw [UInt32.ofNat_toNat] at h
    exact h hsalt.2
  · have hnat : (UInt32.ofNat s).toNat = s := by
      rw [UInt32.toNat_ofNat']
      omega
    refine .inr ⟨_, _, hsome, ⟨by rw [hnat]; omega, hsep⟩, fun salt hsalt => ?_⟩
    by_contra hlt
    rw [UInt32.not_le, UInt32.lt_iff_toNat_lt, hnat] at hlt
    have h := hall salt.toNat (Nat.zero_le _) hlt
    rw [UInt32.ofNat_toNat] at h
    exact h hsalt.2

end Salts

/-! ## The entries of a name -/

/-- A panic or an error ends a sequence of writes. -/
theorem bind_ok {ε σ α β : Type} {x : ExceptT ε (StateT σ Option) α}
    {f : α → ExceptT ε (StateT σ Option) β} {s s' : σ} {b : β} (h : (x >>= f) s = some (.ok b, s')) :
    ∃ a s₁, x s = some (.ok a, s₁) ∧ f a s₁ = some (.ok b, s') := by
  obtain ⟨⟨result, s₁⟩, hx, h⟩ := Option.bind_eq_some_iff.mp h
  cases result with
  | error e => cases h
  | ok a => exact ⟨a, s₁, hx, h⟩

/-- What a lookup in the zone returns. -/
def Zone.answer (zone : Zone) (name : Name) : List Record := (zone.query name).getD []

/-- The entries of names under the salt of their bucket. -/
def entriesOf (zone : Zone) (globalSalt : UInt64) (salt : UInt32) (names : List Name) :
    List (UInt16 × Record) :=
  names.flatMap fun name => (zone.answer name).map fun rec => (discriminator name globalSalt salt, rec)

section Names
variable {zone : Zone} {globalSalt : UInt64} {salt : UInt32}

theorem appendAll_append (xs ys : List (UInt16 × Record)) :
    appendAll (xs ++ ys) = appendAll xs >>= fun _ => appendAll ys := List.forM_append

theorem appendAll_map {α : Type} (f : α → UInt16 × Record) (xs : List α) :
    appendAll (xs.map f) = xs.forM fun x => appendEntry (f x).2.kind (f x).1 (f x).2 := List.forM_map

/-- The record of a name server. -/
def Zone.nsRecord (zone : Zone) (nsIdx : UInt32) : Option Record := do
  let nshost ← zone.nsHostname nsIdx
  return Record.ns ((zone.glueFor nshost).getD (dummyIp nshost))

theorem query_eq {name : Name} {entry : NameRecords} (h : zone.records.lookup name = some entry) :
    zone.query name = (entry.ns.mapM zone.nsRecord).map fun ns =>
      entry.a.map .a ++ entry.aaaa.map .aaaa ++ ns := by
  rw [Zone.query, h]
  change (entry.ns.mapM zone.nsRecord).bind _ = _
  cases entry.ns.mapM zone.nsRecord <;> rfl

/-- One name server of a name. -/
def appendNs (zone : Zone) (disc : UInt16) (nsIdx : UInt32) :
    ExceptT BucketError (StateT Filling Option) Unit := do
  let rec ← (zone.nsRecord nsIdx : Option Record)
  appendEntry rec.kind disc rec

theorem appendName_lookup {name : Name} {entry : NameRecords}
    (h : zone.records.lookup name = some entry) :
    appendName zone globalSalt salt name = (do
      appendAll (entry.a.map fun ip => (discriminator name globalSalt salt, .a ip))
      appendAll (entry.aaaa.map fun ip => (discriminator name globalSalt salt, .aaaa ip))
      entry.ns.forM (appendNs zone (discriminator name globalSalt salt))) := by
  rw [appendAll_map, appendAll_map, appendName, h]
  change (entry.a.forM _ >>= fun _ => entry.aaaa.forM _ >>= fun _ => entry.ns.forM _ :
    ExceptT BucketError (StateT Filling Option) Unit) = _
  refine bind_congr fun _ => bind_congr fun _ => congrArg entry.ns.forM (funext fun nsIdx => ?_)
  rw [appendNs, Zone.nsRecord]
  cases zone.nsHostname nsIdx with
  | none => rfl
  | some nshost =>
    change appendEntry _ _ _ = appendEntry _ _ _
    generalize (zone.glueFor nshost).getD (dummyIp nshost) = ip
    cases ip <;> rfl

theorem forM_appendNs {disc : UInt16} {ns : List UInt32} {recs : List Record}
    (h : ns.mapM zone.nsRecord = some recs) :
    ns.forM (appendNs zone disc) = appendAll (recs.map fun rec => (disc, rec)) := by
  induction ns generalizing recs with
  | nil =>
    cases h
    rfl
  | cons nsIdx ns ih =>
    rw [List.mapM_cons] at h
    obtain ⟨rec, hrec, h⟩ := Option.bind_eq_some_iff.mp h
    obtain ⟨recs', hrecs, h⟩ := Option.bind_eq_some_iff.mp h
    cases h
    change (appendNs zone disc nsIdx >>= fun _ => ns.forM (appendNs zone disc)) = _
    rw [ih hrecs, appendNs, hrec]
    rfl

/-- **What is written of a name** is what a lookup returns. -/
theorem appendName_eq {name : Name} {recs : List Record} (hm : name ∈ zone.records)
    (h : zone.query name = some recs) :
    appendName zone globalSalt salt name =
      appendAll (recs.map fun rec => (discriminator name globalSalt salt, rec)) := by
  obtain ⟨entry, hentry⟩ := Option.isSome_iff_exists.mp (AList.lookup_isSome.mpr hm)
  rw [query_eq hentry] at h
  obtain ⟨ns, hns, rfl⟩ := Option.map_eq_some_iff.mp h
  rw [appendName_lookup hentry, forM_appendNs hns, List.map_append, List.map_append, List.map_map,
    List.map_map, appendAll_append, appendAll_append, bind_assoc]
  rfl

theorem fill_eq {names : List Name} (hm : ∀ name ∈ names, name ∈ zone.records)
    (h : ∀ name ∈ names, (zone.query name).isSome) :
    names.forM (appendName zone globalSalt salt) =
      appendAll (entriesOf zone globalSalt salt names) := by
  induction names with
  | nil => rfl
  | cons name names ih =>
    obtain ⟨recs, hrecs⟩ := Option.isSome_iff_exists.mp (h name (by simp))
    have hanswer : zone.answer name = recs := by
      rw [Zone.answer, hrecs]
      rfl
    change (appendName zone globalSalt salt name >>=
      fun _ => names.forM (appendName zone globalSalt salt)) = _
    rw [ih (fun n hn => hm n (by simp [hn])) (fun n hn => h n (by simp [hn])),
      appendName_eq (hm name (by simp)) hrecs, ← appendAll_append, entriesOf, entriesOf,
      List.flatMap_cons, hanswer]

theorem isSome_of_appendNs {disc : UInt16} {ns : List UInt32} {filling filling' : Filling}
    (h : ns.forM (appendNs zone disc) filling = some (.ok (), filling')) :
    (ns.mapM zone.nsRecord).isSome := by
  induction ns generalizing filling with
  | nil => rfl
  | cons nsIdx ns ih =>
    obtain ⟨_, filling₁, hrec, hns⟩ := bind_ok h
    obtain ⟨rec, _, hrec, -⟩ := bind_ok hrec
    obtain ⟨recs, hrecs⟩ := Option.isSome_iff_exists.mp (ih hns)
    have hsome : zone.nsRecord nsIdx = some rec := by
      cases hidx : zone.nsRecord nsIdx with
      | none =>
        rw [hidx] at hrec
        cases hrec
      | some rec' =>
        rw [hidx] at hrec
        cases hrec
        rfl
    rw [List.mapM_cons, hsome, hrecs]
    rfl

/-- The names of a bucket that is filled can all be looked up. -/
theorem isSome_of_fill {names : List Name} {filling filling' : Filling}
    (h : names.forM (appendName zone globalSalt salt) filling = some (.ok (), filling')) :
    ∀ name ∈ names, (zone.query name).isSome := by
  induction names generalizing filling with
  | nil => exact fun name hname => (by cases hname)
  | cons name names ih =>
    obtain ⟨_, filling₁, hname, hnames⟩ := bind_ok h
    refine List.forall_mem_cons.mpr ⟨?_, ih hnames⟩
    cases hentry : zone.records.lookup name with
    | none =>
      rw [Zone.query, hentry]
      rfl
    | some entry =>
      rw [appendName_lookup hentry] at hname
      obtain ⟨_, _, -, hname⟩ := bind_ok hname
      obtain ⟨_, filling₂, -, hname⟩ := bind_ok hname
      rw [query_eq hentry, Option.isSome_map]
      exact isSome_of_appendNs hname

end Names

/-! ## One bucket -/

/-- The bytes that the entries of names take. -/
def encodedSize (zone : Zone) (names : List Name) : ℕ :=
  (names.map fun name => ((zone.answer name).map fun rec => (entrySize rec.kind).getD 0).sum).sum

/-- What is built of the names of a slot. -/
structure Filled (zone : Zone) (globalSalt : UInt64) (names : List Name) (bucket : Bucket) : Prop where
  answers : ∀ name ∈ names, (zone.query name).isSome
  empty : names = [] → bucket = emptyBucket
  holds : ∃ salt, IsLeast (separatingSalts globalSalt names) salt ∧
    Holds bucket salt (entriesOf zone globalSalt salt names)

theorem endOf_entriesOf (zone : Zone) (globalSalt : UInt64) (salt : UInt32) (names : List Name) :
    endOf (entriesOf zone globalSalt salt names) = 6 + encodedSize zone names := by
  rw [endOf, bodyBytes, entriesOf, List.flatMap_assoc, List.length_flatMap]
  refine congrArg (6 + List.sum ·) (List.map_congr_left fun name _ => ?_)
  rw [List.length_flatMap, List.map_map]
  refine congrArg List.sum (List.map_congr_left fun rec _ => ?_)
  rw [entrySize_kind (discriminator name globalSalt salt)]
  rfl

theorem length_entriesOf (zone : Zone) (globalSalt : UInt64) (salt : UInt32) (names : List Name) :
    (entriesOf zone globalSalt salt names).length =
      (names.map fun name => (zone.answer name).length).sum := by
  rw [entriesOf, List.length_flatMap]
  simp only [List.length_map]

theorem entriesOf_le_discMask (zone : Zone) (globalSalt : UInt64) (salt : UInt32) (names : List Name) :
    ∀ e ∈ entriesOf zone globalSalt salt names, e.1 ≤ discMask := by
  intro e he
  obtain ⟨name, -, he⟩ := List.mem_flatMap.mp he
  obtain ⟨rec, -, rfl⟩ := List.mem_map.mp he
  rw [le_discMask, discriminator, and_discMask]
  exact Nat.mod_lt _ (by decide)

section OneBucket
variable {zone : Zone} {globalSalt : UInt64} {names : List Name} {shardCount sh pri : ℕ}
  {discSeen : Finset UInt16}

/-- The salt and the fill decide. -/
theorem buildBucket_run : ((buildBucket zone globalSalt shardCount sh pri names).run' discSeen).run =
    if names = [] then some (.ok emptyBucket)
    else
      match (findBucketSalt names globalSalt discSeen).1 with
      | none => some (.error (noSaltError shardCount sh pri names))
      | some (salt, _) =>
        (names.forM (appendName zone globalSalt salt)
          (writeBucketSalt emptyBucket salt, UInt16.ofNat firstEntryOffset)).map
          fun (result, (bucketBuf, _)) => (result.mapError (onOverflow shardCount sh pri)).map
              fun _ => bucketBuf := by
  rw [StateT.run'_eq, StateT.run, buildBucket]
  cases names with
  | nil => rfl
  | cons name names =>
    rw [if_neg (by simp), if_neg (by simp)]
    rcases findBucketSalt (name :: names) globalSalt discSeen with ⟨_ | ⟨salt, _⟩, seen⟩
    · rfl
    · simp only
      rcases (name :: names).forM (appendName zone globalSalt salt) _ with _ | ⟨_ | _, _, _⟩ <;> rfl

theorem buildBucket_seen : (buildBucket zone globalSalt shardCount sh pri names).run' discSeen =
    (buildBucket zone globalSalt shardCount sh pri names).run' ∅ := by
  refine ExceptT.ext ?_
  rw [buildBucket_run, buildBucket_run, findBucketSalt_seen]

theorem isLeast_zero (h : Separates globalSalt names 0) :
    IsLeast (separatingSalts globalSalt names) 0 :=
  ⟨⟨by decide, h⟩, fun _ _ => UInt32.le_iff_toNat_le.mpr (Nat.zero_le _)⟩

theorem isLeast_nil : IsLeast (separatingSalts globalSalt []) 0 := isLeast_zero List.nodup_nil

theorem holds_emptyBucket : Holds emptyBucket 0 [] := by
  refine ⟨List.replicate 2554 0, ?_⟩
  have hsplit : bucketBytes = 4 + (2 + 2554) := rfl
  rw [emptyBucket, Vector.toList_replicate, hsplit, List.replicate_add, List.replicate_add]
  rfl

/-- **A bucket that is built** holds the records of its names. -/
theorem buildBucket_ok (hm : ∀ name ∈ names, name ∈ zone.records) {bucket : Bucket}
    (h : ((buildBucket zone globalSalt shardCount sh pri names).run' discSeen).run =
      some (.ok bucket)) :
    Filled zone globalSalt names bucket := by
  rw [buildBucket_run] at h
  split at h
  next hnil =>
    cases h
    subst hnil
    exact ⟨fun name hname => (by cases hname), fun _ => rfl, 0, isLeast_nil, holds_emptyBucket⟩
  next hne =>
    rcases findBucketSalt_cases globalSalt names discSeen
      with ⟨hfind, -⟩ | ⟨salt, attempts, hfind, hleast⟩
    · rw [hfind] at h
      cases h
    · rw [hfind] at h
      simp only at h
      obtain ⟨⟨result, bucketBuf, pos⟩, hfill, h⟩ := Option.map_eq_some_iff.mp h
      cases result with
      | error e => cases h
      | ok =>
        cases h
        have hanswers := isSome_of_fill hfill
        refine ⟨hanswers, fun h => absurd h hne, salt, hleast, ?_⟩
        rw [fill_eq hm hanswers] at hfill
        have hstart : UInt16.ofNat firstEntryOffset = UInt16.ofNat (endOf []) := rfl
        rcases appendAll_holds (holds_empty salt)
          (entriesOf_le_discMask zone globalSalt salt names) with
          ⟨-, bucket', hrun, hholds⟩ | ⟨-, _, _, hrun⟩
        · rw [hstart, hrun] at hfill
          cases hfill
          exact hholds
        · rw [hstart, hrun] at hfill
          cases hfill

/-- **When a bucket is built**: there is a salt, and the entries fit. -/
theorem buildBucket_cases (hm : ∀ name ∈ names, name ∈ zone.records)
    (hq : ∀ name ∈ names, (zone.query name).isSome) :
    (((separatingSalts globalSalt names).Nonempty ∧ 6 + encodedSize zone names ≤ bucketBytes) ∧
        ∃ bucket, ((buildBucket zone globalSalt shardCount sh pri names).run' discSeen).run =
          some (.ok bucket)) ∨
      ((separatingSalts globalSalt names = ∅ ∨ bucketBytes < 6 + encodedSize zone names) ∧
        ∃ e, ((buildBucket zone globalSalt shardCount sh pri names).run' discSeen).run =
          some (.error e)) := by
  rw [buildBucket_run]
  split
  next hnil =>
    subst hnil
    exact .inl ⟨⟨⟨0, isLeast_nil.1⟩, show 6 + 0 ≤ 2560 by decide⟩, _, rfl⟩
  next =>
    rcases findBucketSalt_cases globalSalt names discSeen
      with ⟨hfind, hempty⟩ | ⟨salt, attempts, hfind, hleast⟩
    · rw [hfind]
      exact .inr ⟨.inl hempty, _, rfl⟩
    · rw [hfind, ← endOf_entriesOf zone globalSalt salt]
      simp only
      rw [fill_eq hm hq, show UInt16.ofNat firstEntryOffset = UInt16.ofNat (endOf []) from rfl]
      rcases appendAll_holds (holds_empty salt) (entriesOf_le_discMask zone globalSalt salt names) with
        ⟨hfit, bucket', hrun, -⟩ | ⟨hfull, _, _, hrun⟩
      · exact .inl ⟨⟨⟨salt, hleast.1⟩, hfit⟩, bucket', by rw [hrun]; rfl⟩
      · exact .inr ⟨.inr hfull, _, by rw [hrun]; rfl⟩

end OneBucket

/-! ## The groups -/

/-- The names of a slot, in the order of the walk. -/
def slotNames (keys : List Name) (numEntries : ℕ) (globalSalt : UInt64) (sh pri : ℕ) : List Name :=
  keys.filter fun name => slot name numEntries globalSalt = some (sh, pri)

section Grouping
variable {numEntries shardCount perShard : ℕ} {globalSalt : UInt64}

theorem push_names {groups : Groups} {sh pri : ℕ} {names : List Name}
    (h : groups.names sh pri = some names) (name : Name) :
    ∃ groups', groups.push sh pri name = some groups' ∧ ∀ sh' pri', groups'.names sh' pri' =
      if sh = sh' ∧ pri = pri' then some (names ++ [name]) else groups.names sh' pri' := by
  obtain ⟨shard, hshard, hnames⟩ := Option.bind_eq_some_iff.mp h
  refine ⟨groups.set sh (shard.set pri (names ++ [name])), ?_, fun sh' pri' => ?_⟩
  · simp only [Groups.push, hshard, hnames, Option.bind_eq_bind, Option.bind_some]
    rfl
  · simp only [Groups.names, List.getElem?_set, Option.bind_eq_bind]
    by_cases hsh : sh = sh'
    · subst hsh
      have hlt := (List.getElem?_eq_some_iff.mp hshard).1
      rw [if_pos rfl, if_pos hlt, Option.bind_some, List.getElem?_set, hshard, Option.bind_some]
      by_cases hpri : pri = pri'
      · subst hpri
        rw [if_pos rfl, if_pos (List.getElem?_eq_some_iff.mp hnames).1, if_pos ⟨rfl, rfl⟩]
      · rw [if_neg hpri, if_neg fun h => hpri h.2]
    · rw [if_neg hsh, if_neg fun h => hsh h.1]

/-- The walk adds to every slot its names, in order. -/
theorem foldlM_push {keys : List Name} {groups : Groups}
    (hg : ∀ sh < shardCount, ∀ pri < perShard, (groups.names sh pri).isSome)
    (hk : ∀ name ∈ keys, ∃ sh pri, slot name numEntries globalSalt = some (sh, pri) ∧
      sh < shardCount ∧ pri < perShard) :
    ∃ groups', keys.foldlM (fun groups name => do
        let (sh, pri) ← slot name numEntries globalSalt
        groups.push sh pri name) groups = some groups' ∧
      ∀ sh < shardCount, ∀ pri < perShard, groups'.names sh pri =
        (groups.names sh pri).map (· ++ slotNames keys numEntries globalSalt sh pri) := by
  induction keys generalizing groups with
  | nil => exact ⟨groups, rfl, fun sh _ pri _ => by simp [slotNames]⟩
  | cons name keys ih =>
    obtain ⟨sh, pri, hslot, hsh, hpri⟩ := hk name (by simp)
    obtain ⟨names, hnames⟩ := Option.isSome_iff_exists.mp (hg sh hsh pri hpri)
    obtain ⟨groups₁, hpush, hnames₁⟩ := push_names hnames name
    have hg₁ : ∀ sh' < shardCount, ∀ pri' < perShard, (groups₁.names sh' pri').isSome :=
        fun sh' hsh' pri' hpri' => by
      rw [hnames₁]
      split
      next => rfl
      next => exact hg sh' hsh' pri' hpri'
    obtain ⟨groups', hrun, hall⟩ := ih hg₁ fun n hn => hk n (by simp [hn])
    refine ⟨groups', ?_, fun sh' hsh' pri' hpri' => ?_⟩
    · rw [List.foldlM_cons, hslot]
      simp only [Option.bind_eq_bind, Option.bind_some, hpush] at hrun ⊢
      exact hrun
    · rw [hall sh' hsh' pri' hpri', hnames₁, slotNames, slotNames, List.filter_cons]
      split
      next he =>
        obtain ⟨rfl, rfl⟩ := he
        simp [hslot, hnames]
      next he =>
        rw [if_neg]
        simpa [hslot] using he

theorem groupNames_spec {keys : List Name}
    (hk : ∀ name ∈ keys, ∃ sh pri, slot name numEntries globalSalt = some (sh, pri) ∧
      sh < shardCount ∧ pri < perShard) :
    ∃ groups, groupNames keys numEntries globalSalt shardCount perShard = some groups ∧
      ∀ sh < shardCount, ∀ pri < perShard,
        groups.names sh pri = some (slotNames keys numEntries globalSalt sh pri) := by
  have hempty : ∀ sh < shardCount, ∀ pri < perShard,
      Groups.names (List.replicate shardCount (List.replicate perShard [])) sh pri = some [] :=
          fun sh hsh pri hpri => by
    simp [Groups.names, hsh, hpri]
  obtain ⟨groups, hrun, hall⟩ :=
    foldlM_push (fun sh hsh pri hpri => by rw [hempty sh hsh pri hpri]; rfl) hk
  refine ⟨groups, hrun, fun sh hsh pri hpri => ?_⟩
  rw [hall sh hsh pri hpri, hempty sh hsh pri hpri]
  rfl

end Grouping

/-! ## All buckets -/

theorem Zone.valid_of_parse {fmt : IpFormat} {text : Name} {zone : Zone}
    (h : Zone.parse fmt text = some zone) :
    zone.Valid := by
  obtain ⟨st, hst, rfl⟩ := parse_parsed h
  intro name entry hentry idx hidx
  refine hst.storesText.ns_lt name idx ?_
  rw [Zone.recordsOf, hentry]
  exact hidx

theorem Zone.isSome_nsRecords {zone : Zone} {ns : List UInt32}
    (h : ∀ idx ∈ ns, idx.toNat < zone.nsPool.length) :
    (ns.mapM zone.nsRecord).isSome := by
  induction ns with
  | nil => rfl
  | cons idx ns ih =>
    obtain ⟨recs, hrecs⟩ := Option.isSome_iff_exists.mp (ih fun i hi => h i (by simp [hi]))
    rw [List.mapM_cons, Zone.nsRecord, Zone.nsHostname, List.getElem?_eq_getElem (h idx (by simp)),
      hrecs]
    rfl

theorem Zone.Valid.query_isSome {zone : Zone} (hv : zone.Valid) (name : Name) :
    (zone.query name).isSome := by
  cases hentry : zone.records.lookup name with
  | none =>
    rw [Zone.query, hentry]
    rfl
  | some entry =>
    rw [Dns.query_eq hentry, Option.isSome_map]
    exact Zone.isSome_nsRecords (hv name entry hentry)

/-- The buckets of a fleet, each with a property. -/
def Fleet (shardCount perShard : ℕ) (P : ℕ → ℕ → Bucket → Prop) (buckets : List (List Bucket)) : Prop :=
  buckets.length = shardCount ∧ ∀ sh < shardCount, ∃ shard, buckets[sh]? = some shard ∧
    shard.length = perShard ∧ ∀ pri < perShard, ∃ bucket, shard[pri]? = some bucket ∧ P sh pri bucket

theorem forall₂_range {α : Type} {n : ℕ} {R : ℕ → α → Prop} {bs : List α}
    (h : List.Forall₂ R (List.range n) bs) :
    bs.length = n ∧ ∀ i < n, ∃ b, bs[i]? = some b ∧ R i b := by
  obtain ⟨hlen, hget⟩ := List.forall₂_iff_get.mp h
  rw [List.length_range] at hlen
  refine ⟨hlen.symm, fun i hi => ⟨bs[i], List.getElem?_eq_getElem (hlen ▸ hi), ?_⟩⟩
  simpa using hget i (by simpa using hi) (hlen ▸ hi)

section Build
variable {zone : Zone} {keys : List Name} {numEntries shards : ℕ} {globalSalt : UInt64}
  {primary secondary : IndexGroup rank}

theorem liftM_bind {α β : Type} (a : α) (f : α → Build β) :
    (liftM (some a) : Build α) >>= f = f a := rfl

/-- The bucket of a slot, on its own. -/
def slotBucket (zone : Zone) (keys : List Name) (numEntries : ℕ) (globalSalt : UInt64)
    (shardCount sh pri : ℕ) : ExceptT Name Option Bucket :=
  (buildBucket zone globalSalt shardCount sh pri (slotNames keys numEntries globalSalt sh pri)).run' ∅

theorem buildShards_eq (hs : Shape numEntries primary secondary shards) (h1 : 1 ≤ numEntries)
    (discSeen : Finset UInt16) :
    (buildShards zone keys numEntries globalSalt).run' discSeen =
      (List.range shards).mapM fun sh => (List.range (simdCount * primary.groupOrder)).mapM fun pri =>
        slotBucket zone keys numEntries globalSalt shards sh pri := by
  have hpos : 0 < simdCount * primary.groupOrder := Nat.mul_pos (by decide) hs.primary_pos
  obtain ⟨groups, hgroups, hnames⟩ : ∃ groups, groupNames keys numEntries globalSalt shards
      (simdCount * primary.groupOrder) = some groups ∧
        ∀ sh < shards, ∀ pri < simdCount * primary.groupOrder,
        groups.names sh pri = some (slotNames keys numEntries globalSalt sh pri) :=
    groupNames_spec fun n _ => ⟨_, _, slot_eq hs h1 n globalSalt,
      slot_lt_shards hs (slotHash_lt n h1 globalSalt), Nat.mod_lt _ hpos⟩
  rw [buildShards, Shape.entriesPerShard hs, hs.numDatabases, liftM_bind, liftM_bind, hgroups,
    liftM_bind]
  refine Loops.mapM_run' (fun sh hsh s => Loops.mapM_run' (fun pri hpri s => ?_) s) discSeen
  rw [hnames sh (List.mem_range.mp hsh) pri (List.mem_range.mp hpri), liftM_bind]
  exact buildBucket_seen

theorem mem_of_slotNames (hk : keys.Perm zone.records.keys) (numEntries : ℕ) (globalSalt : UInt64)
    (sh pri : ℕ) :
    ∀ name ∈ slotNames keys numEntries globalSalt sh pri, name ∈ zone.records := fun _ hname =>
  AList.mem_keys.mpr (hk.mem_iff.mp (List.mem_of_mem_filter hname))

/-- **The buckets of a build** hold the records of their names. -/
theorem buildBuckets_ok (hs : Shape numEntries primary secondary shards) (h1 : 1 ≤ numEntries)
    (hk : keys.Perm zone.records.keys) {buckets : List (List Bucket)}
    (h : (buildBuckets zone keys numEntries globalSalt).run = some (.ok buckets)) :
    Fleet shards (simdCount * primary.groupOrder)
      (fun sh pri => Filled zone globalSalt (slotNames keys numEntries globalSalt sh pri)) buckets := by
  rw [buildBuckets, buildShards_eq hs h1, Loops.mapM_ok_iff] at h
  obtain ⟨hlen, hshards⟩ := forall₂_range h
  refine ⟨hlen, fun sh hsh => ?_⟩
  obtain ⟨shard, hshard, hrun⟩ := hshards sh hsh
  obtain ⟨hlen', hslots⟩ := forall₂_range (Loops.mapM_ok_iff.mp hrun)
  refine ⟨shard, hshard, hlen', fun pri hpri => ?_⟩
  obtain ⟨bucket, hbucket, hb⟩ := hslots pri hpri
  exact ⟨bucket, hbucket, buildBucket_ok (mem_of_slotNames hk numEntries globalSalt sh pri) hb⟩

theorem buildBuckets_isSome (hs : Shape numEntries primary secondary shards) (h1 : 1 ≤ numEntries)
    (hk : keys.Perm zone.records.keys) (hq : ∀ name ∈ zone.records, (zone.query name).isSome) :
    (buildBuckets zone keys numEntries globalSalt).run.isSome := by
  rw [buildBuckets, buildShards_eq hs h1]
  refine Loops.mapM_isSome fun sh _ => Loops.mapM_isSome fun pri _ => ?_
  have hm := mem_of_slotNames hk numEntries globalSalt sh pri
  rcases buildBucket_cases hm fun name hname => hq name (hm name hname)
    with ⟨-, bucket, hb⟩ | ⟨-, e, hb⟩
  · exact Option.isSome_iff_exists.mpr ⟨_, hb⟩
  · exact Option.isSome_iff_exists.mpr ⟨_, hb⟩

/-- A build of which every slot has a salt and fits. -/
theorem exists_buildBuckets (hs : Shape numEntries primary secondary shards) (h1 : 1 ≤ numEntries)
    (hk : keys.Perm zone.records.keys) (hq : ∀ name ∈ zone.records, (zone.query name).isSome)
    (hfit : ∀ sh < shards, ∀ pri < simdCount * primary.groupOrder,
      (separatingSalts globalSalt (slotNames keys numEntries globalSalt sh pri)).Nonempty ∧
        6 + encodedSize zone (slotNames keys numEntries globalSalt sh pri) ≤ bucketBytes) :
    ∃ buckets, (buildBuckets zone keys numEntries globalSalt).run = some (.ok buckets) := by
  rw [buildBuckets, buildShards_eq hs h1]
  refine Loops.mapM_ok_of_forall fun sh hsh => Loops.mapM_ok_of_forall fun pri hpri => ?_
  have hm := mem_of_slotNames hk numEntries globalSalt sh pri
  obtain ⟨hsalt, hsize⟩ := hfit sh (List.mem_range.mp hsh) pri (List.mem_range.mp hpri)
  rcases buildBucket_cases hm fun name hname => hq name (hm name hname) with ⟨-, hb⟩ | ⟨hbad | hbad, -⟩
  · exact hb
  · exact absurd hbad hsalt.ne_empty
  · exact absurd hsize (Nat.not_le.mpr hbad)

end Build

/-- With one slot every name is in it. -/
theorem slotNames_one (keys : List Name) (globalSalt : UInt64) :
    slotNames keys 1 globalSalt 0 0 = keys :=
  List.filter_eq_self.mpr fun name _ => decide_eq_true (slot_one name globalSalt)

/-! ## The order of the walk -/

section Order
variable {zone : Zone} {keys keys' names names' : List Name} {globalSalt : UInt64}

theorem slotNames_perm (h : keys.Perm keys') (numEntries : ℕ) (globalSalt : UInt64) (sh pri : ℕ) :
    (slotNames keys numEntries globalSalt sh pri).Perm
      (slotNames keys' numEntries globalSalt sh pri) := h.filter _

theorem separatingSalts_perm (h : names.Perm names') :
    separatingSalts globalSalt names = separatingSalts globalSalt names' :=
  Set.ext fun _ => and_congr_right fun _ => (h.map _).nodup_iff

theorem encodedSize_perm (h : names.Perm names') :
    encodedSize zone names = encodedSize zone names' := (h.map _).sum_eq

end Order

/-- A slot that no salt separates, or that is too small for its names. -/
def Overfull (zone : Zone) (numEntries : ℕ) (globalSalt : UInt64) (sh pri : ℕ) : Prop :=
  separatingSalts globalSalt (slotNames zone.records.keys numEntries globalSalt sh pri) = ∅ ∨
    bucketBytes < firstEntryOffset +
      encodedSize zone (slotNames zone.records.keys numEntries globalSalt sh pri)

/-- The bucket of names: all zero for no names, else their least salt and the
number of their records in front. -/
def BucketOf (zone : Zone) (globalSalt : UInt64) (names : List Name) (bucket : Bucket) : Prop :=
  (names = [] → bucket = emptyBucket) ∧
    (names ≠ [] → IsLeast (separatingSalts globalSalt names) (readBucketSalt bucket)) ∧
    (readEntryCount bucket).toNat = (names.map fun name => (zone.answer name).length).sum

theorem Filled.bucketOf {zone : Zone} {globalSalt : UInt64} {names names' : List Name}
    {bucket : Bucket} (h : Filled zone globalSalt names bucket) (hp : names.Perm names') :
    BucketOf zone globalSalt names' bucket := by
  obtain ⟨salt, hleast, hholds⟩ := h.holds
  refine ⟨fun hnil => h.empty (by rwa [hnil, List.perm_nil] at hp), fun _ => ?_, ?_⟩
  · rw [hholds.readBucketSalt, ← separatingSalts_perm hp]
    exact hleast
  · rw [hholds.readEntryCount, length_entriesOf]
    exact (hp.map _).sum_eq

theorem Filled.not_overfull {zone : Zone} {keys : List Name} {numEntries sh pri : ℕ}
    {globalSalt : UInt64} {bucket : Bucket}
    (h : Filled zone globalSalt (slotNames keys numEntries globalSalt sh pri) bucket)
    (hk : keys.Perm zone.records.keys) :
    ¬Overfull zone numEntries globalSalt sh pri := by
  have hp := slotNames_perm hk numEntries globalSalt sh pri
  obtain ⟨salt, hleast, hholds⟩ := h.holds
  rw [Overfull, ← separatingSalts_perm hp, ← encodedSize_perm hp]
  rintro (hempty | hfull)
  · exact Set.eq_empty_iff_forall_notMem.mp hempty salt hleast.1
  · have hle := hholds.endOf_le
    rw [endOf_entriesOf] at hle
    exact absurd hle (Nat.not_le.mpr hfull)

theorem fits_of_not_overfull {zone : Zone} {keys : List Name} (hk : keys.Perm zone.records.keys)
    {numEntries sh pri : ℕ} {globalSalt : UInt64} (h : ¬Overfull zone numEntries globalSalt sh pri) :
    (separatingSalts globalSalt (slotNames keys numEntries globalSalt sh pri)).Nonempty ∧
      6 + encodedSize zone (slotNames keys numEntries globalSalt sh pri) ≤ bucketBytes := by
  have hp := slotNames_perm hk numEntries globalSalt sh pri
  rw [Overfull, not_or, Nat.not_lt] at h
  rw [separatingSalts_perm hp, encodedSize_perm hp]
  exact ⟨Set.nonempty_iff_ne_empty.mpr h.1, h.2⟩

/-- A zone of which one bucket has room for all the names is never overfull. -/
theorem not_overfull_of_fits {zone : Zone} {globalSalt : UInt64} {salt : UInt32}
    (hsalt : salt ∈ separatingSalts globalSalt zone.records.keys)
    (hsize : firstEntryOffset + encodedSize zone zone.records.keys ≤ bucketBytes)
    (numEntries sh pri : ℕ) :
    ¬Overfull zone numEntries globalSalt sh pri := by
  have hsub : (slotNames zone.records.keys numEntries globalSalt sh pri).Sublist zone.records.keys :=
    List.filter_sublist
  have hle : encodedSize zone (slotNames zone.records.keys numEntries globalSalt sh pri) ≤
      encodedSize zone zone.records.keys :=
    (hsub.map _).sum_le_sum fun _ _ => Nat.zero_le _
  rw [Overfull, not_or, Nat.not_lt]
  exact ⟨Set.Nonempty.ne_empty ⟨salt, hsalt.1, hsalt.2.sublist (hsub.map _)⟩,
    (Nat.add_le_add_left hle _).trans hsize⟩

/-- **A build fails exactly when it must**, in every order of the walk: on a
slot that no salt separates or that is too small. -/
theorem buildBuckets_error_iff {zone : Zone} (hv : zone.Valid) {keys : List Name}
    (hk : keys.Perm zone.records.keys) {numEntries : ℕ} (h1 : 1 ≤ numEntries)
    (h2 : numEntries ≤ rank * rank) (globalSalt : UInt64) :
    ∃ shardCount perShard result, numDatabases numEntries = some shardCount ∧
      entriesPerShard numEntries = some perShard ∧
      (buildBuckets zone keys numEntries globalSalt).run = some result ∧
      (∀ discSeen, ((buildShards zone keys numEntries globalSalt).run' discSeen).run = some result) ∧
      ((∃ e, result = .error e) ↔ ∃ sh < shardCount, ∃ pri < perShard,
        Overfull zone numEntries globalSalt sh pri) ∧
      ∀ buckets, result = .ok buckets → Fleet shardCount perShard (fun sh pri =>
        BucketOf zone globalSalt (slotNames zone.records.keys numEntries globalSalt sh pri)) buckets := by
  obtain ⟨primary, secondary, shards, hs⟩ := exists_shape h1 h2
  have hq : ∀ name ∈ zone.records, (zone.query name).isSome := fun name _ => hv.query_isSome name
  obtain ⟨result, hresult⟩ := Option.isSome_iff_exists.mp (buildBuckets_isSome hs h1 hk hq)
  have hseen := hresult
  rw [buildBuckets, buildShards_eq hs h1] at hseen
  refine ⟨shards, _, result, hs.numDatabases, Shape.entriesPerShard hs, hresult, fun discSeen => ?_,
    ?_, ?_⟩
  · rw [buildShards_eq hs h1, hseen]
  · cases result with
    | error e =>
      refine iff_of_true ⟨e, rfl⟩ ?_
      by_contra hfit
      have hok : ∃ buckets, (buildBuckets zone keys numEntries globalSalt).run = some (.ok buckets) :=
        exists_buildBuckets hs h1 hk hq fun sh hsh pri hpri => fits_of_not_overfull hk fun hover =>
          hfit ⟨sh, hsh, pri, hpri, hover⟩
      obtain ⟨buckets, hok⟩ := hok
      rw [hresult] at hok
      cases hok
    | ok buckets =>
      refine iff_of_false (fun ⟨e, he⟩ => by cases he) ?_
      intro h
      obtain ⟨sh, hsh, pri, hpri, hover⟩ := h
      obtain ⟨-, hshards⟩ := buildBuckets_ok hs h1 hk hresult
      obtain ⟨shard, -, -, hslots⟩ := hshards sh hsh
      obtain ⟨bucket, -, hfilled⟩ := hslots pri hpri
      exact hfilled.not_overfull hk hover
  · rintro buckets rfl
    obtain ⟨hlen, hshards⟩ := buildBuckets_ok hs h1 hk hresult
    refine ⟨hlen, fun sh hsh => ?_⟩
    obtain ⟨shard, hshard, hlen', hslots⟩ := hshards sh hsh
    refine ⟨shard, hshard, hlen', fun pri hpri => ?_⟩
    obtain ⟨bucket, hbucket, hfilled⟩ := hslots pri hpri
    exact ⟨bucket, hbucket, hfilled.bucketOf (slotNames_perm hk numEntries globalSalt sh pri)⟩

/-- A zone with one name and its addresses. -/
def singleZone (name : Name) (ips : List Ipv4Addr) : Zone :=
  ⟨AList.singleton name { a := ips }, name, []⟩

section Single
variable {name : Name} {ips : List Ipv4Addr}

theorem lookup_single : (singleZone name ips).records.lookup name = some { a := ips } :=
  List.dlookup_cons_eq _ _ _

theorem singleZone_valid : (singleZone name ips).Valid := by
  intro name' entry hentry idx hidx
  have hmem : (⟨name', entry⟩ : Sigma fun _ : Name => NameRecords) ∈ [⟨name, { a := ips }⟩] :=
    AList.mem_lookup_iff.mp hentry
  rw [List.mem_singleton] at hmem
  cases hmem
  cases hidx

theorem encodedSize_single : encodedSize (singleZone name ips) [name] = 6 * ips.length := by
  have hanswer : (singleZone name ips).answer name = ips.map .a := by
    rw [Zone.answer, Zone.query, lookup_single]
    simp
  have hsize : ∀ ip : Ipv4Addr, (entrySize (Record.kind (.a ip))).getD 0 = 6 := fun _ => rfl
  simp [encodedSize, hanswer, hsize, Function.comp_def, mul_comm]

/-- With few addresses it fits everywhere. -/
theorem singleZone_not_overfull (hips : ips.length ≤ 425) (numEntries : ℕ) (globalSalt : UInt64)
    (sh pri : ℕ) :
    ¬Overfull (singleZone name ips) numEntries globalSalt sh pri := by
  have hsep : (0 : UInt32) ∈ separatingSalts globalSalt (singleZone name ips).records.keys :=
    (isLeast_zero (separates_singleton _ _ 0)).1
  refine not_overfull_of_fits hsep ?_ numEntries sh pri
  change _ + encodedSize (singleZone name ips) [name] ≤ _
  rw [encodedSize_single, show firstEntryOffset = 6 by decide, show bucketBytes = 2560 by decide]
  omega

end Single

/-- A zone of two names: one with an address and two delegations, of which the
other name is the glue for one. -/
def glueZone : Zone :=
  ⟨⟨[⟨"a.org".toList, { a := [#v[1, 2, 3, 4]], ns := [0, 1] }⟩,
    ⟨"b.org".toList, { a := [#v[10, 0, 0, 1]] }⟩], show List.Nodup _ by decide⟩,
    "org".toList, ["b.org".toList, "ns.test".toList]⟩

/-- What it has of the first: the second delegation has no glue. -/
def glueRecords : List Record :=
  [.a #v[1, 2, 3, 4], .ns (.v4 #v[10, 0, 0, 1]), .ns (.v4 #v[192, 0, 2, 27])]

theorem glueZone_valid : glueZone.Valid := by
  intro name entry hentry idx hidx
  have hmem : (⟨name, entry⟩ : Sigma fun _ : Name => NameRecords) ∈
      [⟨"a.org".toList, { a := [#v[1, 2, 3, 4]], ns := [0, 1] }⟩,
          ⟨"b.org".toList, { a := [#v[10, 0, 0, 1]] }⟩] :=
    AList.mem_lookup_iff.mp hentry
  rcases List.mem_pair.mp hmem with h | h
  · cases h
    rcases List.mem_pair.mp hidx with rfl | rfl <;> decide
  · cases h
    cases hidx

theorem glueZone_separates : Separates 0 glueZone.records.keys 0 := show List.Nodup _ by decide +kernel

theorem glueZone_not_overfull (numEntries sh pri : ℕ) : ¬Overfull glueZone numEntries 0 sh pri :=
  not_overfull_of_fits (isLeast_zero glueZone_separates).1 (by decide) numEntries sh pri

theorem exists_buildBuckets_single (name : Name) (ip : Ipv4Addr) {numEntries : ℕ} (h1 : 1 ≤ numEntries)
    (h2 : numEntries ≤ rank * rank) (globalSalt : UInt64) :
    ∃ buckets, (buildBuckets (singleZone name [ip]) [name] numEntries globalSalt).run =
      some (.ok buckets) := by
  obtain ⟨primary, secondary, shards, hs⟩ := exists_shape h1 h2
  exact exists_buildBuckets hs h1 (.refl _) (fun name _ => singleZone_valid.query_isSome name)
      fun sh _ pri _ =>
    fits_of_not_overfull (.refl _) (singleZone_not_overfull (by simp) numEntries globalSalt sh pri)

/-- Too many addresses for the one slot there is. -/
theorem singleZone_overfull {name : Name} {ips : List Ipv4Addr} (hips : 425 < ips.length)
    (globalSalt : UInt64) :
    Overfull (singleZone name ips) 1 globalSalt 0 0 := by
  refine .inr ?_
  rw [slotNames_one]
  change _ < _ + encodedSize (singleZone name ips) [name]
  rw [encodedSize_single, show firstEntryOffset = 6 by decide, show bucketBytes = 2560 by decide]
  omega

/-- With one slot, both names are in it; 426 addresses are too many for it. -/
theorem buildBuckets_error_iff_glue :
    (∃ shardCount perShard buckets, (buildBuckets glueZone glueZone.records.keys 1 0).run =
      some (.ok buckets) ∧
      Fleet shardCount perShard (fun sh pri =>
        BucketOf glueZone 0 (slotNames glueZone.records.keys 1 0 sh pri)) buckets) ∧
    ∃ e, (buildBuckets (singleZone "only.org".toList (List.replicate 426 #v[1, 2, 3, 4]))
      ["only.org".toList] 1 0).run = some (.error e) := by
  constructor
  · obtain ⟨shardCount, perShard, result, -, -, hresult, -, herror, hok⟩ :=
      buildBuckets_error_iff glueZone_valid (List.Perm.refl _) (le_refl 1) (by decide) 0
    cases result with
    | error e =>
      obtain ⟨sh, -, pri, -, hover⟩ := herror.mp ⟨e, rfl⟩
      exact absurd hover (glueZone_not_overfull 1 sh pri)
    | ok buckets => exact ⟨shardCount, perShard, buckets, hresult, hok buckets rfl⟩
  · obtain ⟨shardCount, perShard, result, hshards, hper, hresult, -, herror, -⟩ :=
      buildBuckets_error_iff (@singleZone_valid "only.org".toList (List.replicate 426 #v[1, 2, 3, 4]))
        (List.Perm.refl ["only.org".toList]) (le_refl 1) (by decide) 0
    obtain ⟨primary, secondary, shards, hs⟩ := exists_shape (le_refl 1) (by decide : 1 ≤ rank * rank)
    obtain rfl := Option.some.inj (hs.numDatabases.symm.trans hshards)
    obtain rfl := Option.some.inj ((Shape.entriesPerShard hs).symm.trans hper)
    have hpos : 0 < simdCount * primary.groupOrder := Nat.mul_pos (by decide) hs.primary_pos
    obtain ⟨e, rfl⟩ := herror.mpr
      ⟨0, Nat.zero_lt_of_lt (slot_lt_shards hs (slotHash_lt "only.org".toList (le_refl 1) 0)), 0,
      hpos, singleZone_overfull (by rw [List.length_replicate]; norm_num) 0⟩
    exact ⟨e, hresult⟩

end Dns

end Dnspir
