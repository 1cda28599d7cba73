/-
The fleet of a server (`server::pick_num_entries`, `server::preprocess`).

* `pickNumEntries_least`: the number of entries is the least that fills its
  shards and is admitted, or the greatest there is.
* `preprocess_iff`: what `preprocess` accepts, and the shards in the slab they
  tile.
-/
import Dnspir.BatchFacts
import Dnspir.MemoryFacts
import Dnspir.Dns.CoeffFacts
import Dnspir.Dns.SlotFacts
import Dnspir.Dns.Startup

namespace Dnspir

open PIRDatabase DoublePir PirWrapper

namespace Dns

/-! ## The number of entries -/

section Sizing

theorem candidates_eq :
    candidates = (List.range' 1 32).map (· * 8192) ++ (List.range' 17 240).map (· * 16384) := by
  simp only [candidates, rank_eq, simdCount, halfSizePrimaryMaxEntries]

theorem mem_candidates {n : ℕ} :
    n ∈ candidates ↔ (8192 ∣ n ∧ 0 < n ∧ n ≤ 262144) ∨ (16384 ∣ n ∧ 262144 < n ∧ n ≤ 4194304) := by
  simp only [candidates_eq, List.mem_append, List.mem_map, List.mem_range'_1]
  constructor
  · rintro (⟨k, hk, rfl⟩ | ⟨k, hk, rfl⟩)
    · exact .inl ⟨Dvd.intro_left k rfl, by omega, by omega⟩
    · exact .inr ⟨Dvd.intro_left k rfl, by omega, by omega⟩
  · rintro (⟨⟨k, rfl⟩, h1, h2⟩ | ⟨⟨k, rfl⟩, h1, h2⟩)
    · exact .inl ⟨k, by omega, mul_comm _ _⟩
    · exact .inr ⟨k, by omega, mul_comm _ _⟩

theorem candidates_sorted : candidates.Pairwise (· < ·) := by
  have hmul : ∀ {s len m : ℕ}, 0 < m → ((List.range' s len).map (· * m)).Pairwise (· < ·) := fun hm =>
    List.pairwise_map.mpr (List.Pairwise.imp
      (fun h => Nat.mul_lt_mul_of_pos_right h hm) List.pairwise_lt_range')
  rw [candidates_eq, List.pairwise_append]
  refine ⟨hmul (by norm_num), hmul (by norm_num), fun a ha b hb => ?_⟩
  simp only [List.mem_map, List.mem_range'_1] at ha hb
  obtain ⟨j, hj, rfl⟩ := ha
  obtain ⟨k, hk, rfl⟩ := hb
  omega

theorem getLast?_candidates : candidates.getLast? = some (rank * rank) := by
  rw [candidates_eq, List.getLast?_append, List.getLast?_map, List.getLast?_range', rank_eq]
  norm_num

/-- The primary group has half of the full order up to the threshold. -/
theorem groupOrder_of_shape {numEntries shards : ℕ} {primary secondary : IndexGroup rank}
    (hs : Shape numEntries primary secondary shards) :
    primary.groupOrder = if numEntries ≤ halfSizePrimaryMaxEntries then 1024 else 2048 := by
  obtain ⟨g, hg, hord, -⟩ := chooseIndexGroupPrimary_spec numEntries
  have h := hs.shape
  simp only [getDatabaseShape, hg, Option.bind_eq_bind, Option.bind_some] at h
  split at h
  next =>
    obtain ⟨secondary', -, h⟩ := Option.bind_eq_some_iff.mp h
    obtain ⟨rfl, -⟩ := Prod.mk.inj (Option.some.inj h)
    exact hord
  next => cases h

/-- Every shard is used to its last entry. -/
def FillsShards (numEntries : ℕ) : Prop :=
  ∃ shards perShard, numDatabases numEntries = some shards ∧
    entriesPerShard numEntries = some perShard ∧
    shards * perShard = numEntries

/-- **The candidates are all the fleets of fully used shards.** -/
theorem fillsShards_iff {n : ℕ} : FillsShards n ↔ n ∈ candidates := by
  have hhalf : halfSizePrimaryMaxEntries = 262144 := by decide
  have hsq : rank * rank = 4194304 := by decide
  by_cases hn : 1 ≤ n ∧ n ≤ rank * rank
  · obtain ⟨primary, secondary, shards, hs⟩ := exists_shape hn.1 hn.2
    have hord := groupOrder_of_shape hs
    have hfills : FillsShards n ↔ simdCount * primary.groupOrder ∣ n := by
      constructor
      · rintro ⟨shards', perShard, hsh, hper, hmul⟩
        rw [Shape.entriesPerShard hs] at hper
        exact Dvd.intro_left _ (Option.some.inj hper ▸ hmul)
      · intro hdvd
        refine ⟨shards, _, hs.numDatabases, Shape.entriesPerShard hs, ?_⟩
        have hpos : 0 < simdCount * primary.groupOrder := Nat.mul_pos (by decide) hs.primary_pos
        rw [hs.shards_eq]
        refine le_antisymm ?_ (le_divCeil_mul hpos)
        obtain ⟨k, hk⟩ := hdvd
        have hle : divCeil n (simdCount * primary.groupOrder) ≤ k :=
          (divCeil_le_iff hpos).mpr (hk ▸ (mul_comm _ _).le)
        calc divCeil n (simdCount * primary.groupOrder) * (simdCount * primary.groupOrder)
            ≤ k * (simdCount * primary.groupOrder) := Nat.mul_le_mul_right _ hle
          _ = n := by rw [hk, mul_comm]
    rw [hfills, mem_candidates, hord, simdCount]
    split <;> omega
  · rw [mem_candidates]
    refine iff_of_false ?_ (by omega)
    rintro ⟨shards, perShard, hsh, -⟩
    rw [numDatabases, getDatabaseShape, if_neg hn] at hsh
    cases hsh

/-- What the loop returns. -/
theorem pickFrom_cases (admits : ℕ → Bool) (l : List ℕ) (numEntries : ℕ) :
    (∃ before after, l = before ++ pickFrom admits l numEntries :: after ∧
        (∀ n ∈ before, admits n = false) ∧
        admits (pickFrom admits l numEntries)) ∨
      (∀ n ∈ l, admits n = false) ∧ pickFrom admits l numEntries = l.getLast?.getD numEntries := by
  induction l generalizing numEntries with
  | nil => exact .inr ⟨by simp, rfl⟩
  | cons candidate l ih =>
    rw [pickFrom]
    split
    next h => exact .inl ⟨[], l, rfl, by simp, h⟩
    next h =>
      have hc : admits candidate = false := by simpa using h
      rcases ih candidate with ⟨before, after, hl, hbefore, hadmits⟩ | ⟨hall, hlast⟩
      · refine .inl ⟨candidate :: before, after, by rw [List.cons_append, ← hl], ?_, hadmits⟩
        exact List.forall_mem_cons.mpr ⟨hc, hbefore⟩
      · refine .inr ⟨List.forall_mem_cons.mpr ⟨hc, hall⟩, ?_⟩
        rw [hlast, List.getLast?_cons]
        rfl

/-- The choice is one of the candidates. -/
theorem fillsShards_pickNumEntries (admits : ℕ → Bool) : FillsShards (pickNumEntries admits) := by
  rw [fillsShards_iff]
  rcases pickFrom_cases admits candidates 0 with ⟨before, after, hl, -, -⟩ | ⟨-, hlast⟩
  · rw [hl]
    exact List.mem_append_right _ List.mem_cons_self
  · rw [getLast?_candidates] at hlast
    rw [show pickNumEntries admits = rank * rank from hlast]
    exact List.mem_of_getLast? getLast?_candidates

/-- **The size of a fleet**: the least number of entries that fills its shards
and is admitted by the bound; where none is, the greatest there is. -/
theorem pickNumEntries_least (admits : ℕ → Bool) :
    FillsShards (pickNumEntries admits) ∧
      ((admits (pickNumEntries admits) ∧ ∀ n, FillsShards n → admits n → pickNumEntries admits ≤ n) ∨
        (∀ n, FillsShards n → admits n = false) ∧ pickNumEntries admits = rank * rank) := by
  refine ⟨fillsShards_pickNumEntries admits, ?_⟩
  simp only [fillsShards_iff]
  rcases pickFrom_cases admits candidates 0 with ⟨before, after, hl, hbefore, hadmits⟩ | ⟨hall, hlast⟩
  · refine .inl ⟨hadmits, fun n hn hadm => ?_⟩
    have hsorted := candidates_sorted
    rw [hl] at hn hsorted
    rcases List.mem_append.mp hn with hn | hn
    · rw [hbefore n hn] at hadm
      cases hadm
    · rcases List.mem_cons.mp hn with rfl | hn
      · exact le_rfl
      · exact (List.rel_of_pairwise_cons (List.pairwise_append.mp hsorted).2.1 hn).le
  · rw [getLast?_candidates] at hlast
    exact .inr ⟨hall, hlast⟩

end Sizing

/-! ## The slab -/

section Slab
variable {fm : FeanorMath} {N t : ℕ}

/-- The lengths of the slices, in the order `create` carves them. -/
def sliceSizes (db : PIRDatabase N t) : List ℕ := db.slices.map Array.size

def CompressedSlices.sizes (s : CompressedSlices) : ℕ × ℕ := (s.fst.size, s.snd.size)

theorem sizes_writeChunk (s : CompressedSlices) (k : ℕ) (values : CompressedRNSEl N) :
    CompressedSlices.sizes (CompressedSlices.writeChunk s k values) = CompressedSlices.sizes s := by
  simp only [CompressedSlices.sizes, CompressedSlices.writeChunk, size_writeChunk]

theorem sizes_storeColumn (s : CompressedSlices × CompressedSlices) (k : ℕ)
    (values : CompressedRNSEl N) :
    CompressedSlices.sizes (storeColumn s k values).1 = CompressedSlices.sizes s.1 ∧
      CompressedSlices.sizes (storeColumn s k values).2 = CompressedSlices.sizes s.2 := by
  unfold storeColumn
  split
  next => exact ⟨sizes_writeChunk _ _ _, rfl⟩
  next => exact ⟨rfl, sizes_writeChunk _ _ _⟩

theorem sliceSizes_eq {db db' : PIRDatabase N t}
    (hte : CompressedSlices.sizes db'.transformedEntries =
      CompressedSlices.sizes db.transformedEntries)
    (htc : CompressedSlices.sizes db'.transformedEntriesConj =
      CompressedSlices.sizes db.transformedEntriesConj)
    (hgk : ∀ k : Fin 2, CompressedSlices.sizes db'.innerProdGk[k] =
      CompressedSlices.sizes db.innerProdGk[k])
    (hgc : ∀ k : Fin 2, CompressedSlices.sizes db'.innerProdConjGk[k] =
      CompressedSlices.sizes db.innerProdConjGk[k]) :
    sliceSizes db' = sliceSizes db := by
  simp only [CompressedSlices.sizes, Prod.mk.injEq] at hte htc hgk hgc
  obtain ⟨h0, h0'⟩ := hgk 0
  obtain ⟨h1, h1'⟩ := hgk 1
  obtain ⟨h2, h2'⟩ := hgc 0
  obtain ⟨h3, h3'⟩ := hgc 1
  simp only [sliceSizes, PIRDatabase.slices, List.map_cons, List.map_nil, hte, htc]
  simp_all

theorem sliceSizes_setTransformedEntries {db db' : PIRDatabase N t} {entries : List (PlainRing t N)}
    (h : setTransformedEntries fm db entries = some db') : sliceSizes db' = sliceSizes db := by
  simp only [setTransformedEntries, Option.bind_eq_bind] at h
  split at h
  next =>
    simp only [Option.bind_eq_some_iff, Option.pure_def, Option.some.injEq] at h
    obtain ⟨cols, -, scale, -, columns, -, rfl⟩ := h
    have hfold := Loops.foldl_finRange (f := fun (s : CompressedSlices × CompressedSlices)
        (k : Fin db.indexGroup.groupOrder) => storeColumn s k columns[k])
      (P := fun _ s => CompressedSlices.sizes s.1 = CompressedSlices.sizes db.transformedEntries ∧
        CompressedSlices.sizes s.2 = CompressedSlices.sizes db.transformedEntriesConj)
      (b := (db.transformedEntries, db.transformedEntriesConj)) ⟨rfl, rfl⟩ fun k s hs =>
        ⟨(sizes_storeColumn s k columns[k]).1.trans hs.1,
          (sizes_storeColumn s k columns[k]).2.trans hs.2⟩
    exact sliceSizes_eq hfold.1 hfold.2 (fun _ => rfl) fun _ => rfl
  next => cases h

theorem sizes_preprocessLoop {db : PIRDatabase N t} {qryA : RNSEl N} {gkA : Vector (RNSEl N) 2}
    {innerProdGk : Vector CompressedSlices 2} {te : CompressedSlices}
    {s : RNSEl N × Vector CompressedSlices 2}
    (h : preprocessLoop fm db qryA gkA innerProdGk te = some s) (k : Fin 2) :
    CompressedSlices.sizes s.2[k] = CompressedSlices.sizes innerProdGk[k] := by
  rw [preprocessLoop] at h
  split at h
  next =>
    refine Loops.foldlM_inv (P := fun s : RNSEl N × Vector CompressedSlices 2 =>
      CompressedSlices.sizes s.2[k] = CompressedSlices.sizes innerProdGk[k])
        (fun s i s' hstep hs => ?_) h rfl
    simp only [preprocessStep, Option.bind_eq_bind, Option.bind_eq_some_iff, Option.pure_def,
      Option.some.injEq, Prod.exists] at hstep
    obtain ⟨galSum, digits, -, te0, -, te1, -, rfl⟩ := hstep
    refine Eq.trans ?_ hs
    fin_cases k
    · exact sizes_writeChunk _ _ _
    · exact sizes_writeChunk _ _ _
  next => cases h

theorem sliceSizes_setDb {db db' : PIRDatabase N t} {entries : List (PlainRing t N)}
    (h : setDb fm db entries = some db') : sliceSizes db' = sliceSizes db := by
  rw [setDb, Option.bind_eq_bind, Option.bind_eq_some_iff] at h
  obtain ⟨db₁, hset, h⟩ := h
  refine Eq.trans ?_ (sliceSizes_setTransformedEntries hset)
  simp only [PIRDatabase.preprocess, Option.bind_eq_bind, Option.bind_eq_some_iff, Prod.exists] at h
  obtain ⟨gkA0, -, gkA1, -, qryA, -, sum, gk, hloop, h⟩ := h
  split at h
  next =>
    simp only [Option.bind_eq_some_iff, Option.pure_def, Option.some.injEq, Prod.exists] at h
    obtain ⟨qryConjA, -, sumConj, gkConj, hconj, rfl⟩ := h
    exact sliceSizes_eq rfl rfl (sizes_preprocessLoop hloop) (sizes_preprocessLoop hconj)
  next =>
    simp only [Option.pure_def, Option.some.injEq] at h
    subst h
    exact sliceSizes_eq rfl rfl (sizes_preprocessLoop hloop) fun _ => rfl

/-- A filled database takes the memory it was made of. -/
theorem size_join_slices {g : IndexGroup N} {memory : Array CompressedZnx8El} {db₀ db : PIRDatabase N t}
    {entries : List (PlainRing t N)} (h1 : N ≠ 1) (hcreate : create fm t g .firstSet memory = some db₀)
    (hset : setDb fm db₀ entries = some db) : (Tiling.join db.slices).size = memory.size := by
  rw [Tiling.size_join, show db.slices.map Array.size =
    db₀.slices.map Array.size from sliceSizes_setDb hset, ← Tiling.size_join,
    (create_slots hcreate h1).1]

end Slab

/-! ## The shards -/

section Shards
variable {fm : FeanorMath} {numEntries shards : ℕ} {primary secondary : IndexGroup rank}

/-- A chunk of the zeroed slab. -/
def zeroed (len : ℕ) : Array CompressedZnx8El := Array.replicate len (Vector.replicate 8 0)

theorem bucketToEntry_isSome (bucket : Bucket) : ∃ entry, bucketToEntry bucket = some entry :=
  (coeffsToBucket_entry (pack_lt bucket)).imp fun _ h => h.1

theorem mapM_bucketToEntry (slotBuckets : List Bucket) :
    ∃ entries, slotBuckets.mapM bucketToEntry = some entries ∧
    entries.length = slotBuckets.length := by
  choose entryOf hentryOf using bucketToEntry_isSome
  exact ⟨_, Loops.mapM_eq_map fun bucket _ => hentryOf bucket, List.length_map _⟩

/-- A shard is built of the buckets of one slice, whatever its place in the
slab is. -/
theorem exists_builtShard (hfm : fm.Correct) (g : IndexGroup rank) {slotBuckets : List Bucket}
    (hlen : slotBuckets.length = simdCount * g.groupOrder) :
    ∃ (s : Shard fm rank) (db₀ : PIRDatabase rank primaryPlainModulus), s.indexGroup = g ∧
      slotBuckets.mapM bucketToEntry = some s.entries ∧
      create fm primaryPlainModulus g .firstSet (zeroed (requiredMemoryGeneral g)) = some db₀ ∧
      setDb fm db₀ s.entries = some s.db ∧
        (Tiling.join s.db.slices).size = requiredMemoryGeneral g := by
  have hpow : rank = 2 ^ 11 := by decide
  obtain ⟨entries, hentries, hlen'⟩ := mapM_bucketToEntry slotBuckets
  obtain ⟨b, h⟩ := g.exists_shape hpow (by decide)
  obtain ⟨w, hw, h5, hinv⟩ := exists_inv_five (N := rank) (hpow ▸ coprime_five_two_pow _)
  obtain ⟨scale, hscale, -⟩ := groupOrder_invert h
  have hsize : (zeroed (requiredMemoryGeneral g)).size = requiredMemoryGeneral g := Array.size_replicate
  obtain ⟨db₀, hcreate⟩ := create_isSome (t := 1025) hfm g .firstSet hpow (by decide) hsize
  obtain ⟨db, r, hset, -⟩ := setDb_spec hfm (by decide) hcreate
    (show entries.length = g.groupOrder * simdCount by rw [hlen', hlen, mul_comm]) hw h5 hinv hscale
  refine ⟨⟨g, entries, db, _, db₀, hcreate, hset⟩, db₀, rfl, hentries, hcreate, hset, ?_⟩
  exact (size_join_slices (by decide) hcreate hset).trans hsize

theorem extract_zeroed (len i j : ℕ) : (zeroed len).extract i j = zeroed (min j len - i) :=
  Array.extract_replicate

/-- Shard `k` finds its chunk zeroed, and leaves the chunks before it. -/
theorem preprocessShard_spec (hfm : fm.Correct) (g : IndexGroup rank) {slotBuckets : List Bucket}
    (left : ℕ) (hlen : slotBuckets.length = simdCount * g.groupOrder)
    {done : Array CompressedZnx8El} {k : ℕ} (hdone : done.size = k * requiredMemoryGeneral g) :
    ∃ s : Shard fm rank, s.indexGroup = g ∧ slotBuckets.mapM bucketToEntry = some s.entries ∧
      (Tiling.join s.db.slices).size = requiredMemoryGeneral g ∧
      preprocessShard fm g (requiredMemoryGeneral g) slotBuckets k
        (done ++ zeroed (requiredMemoryGeneral g * (left + 1))) =
          some (s.db, done ++ Tiling.join s.db.slices ++ zeroed (requiredMemoryGeneral g * left)) := by
  obtain ⟨s, db₀, hg, hentries, hcreate, hset, hsize⟩ := exists_builtShard hfm g hlen
  refine ⟨s, hg, hentries, hsize, ?_⟩
  set perDb := requiredMemoryGeneral g
  have hmul : perDb * (left + 1) = perDb + perDb * left := by ring
  have hchunk : (done ++ zeroed (perDb * (left + 1))).extract (k * perDb) (k * perDb + perDb) =
      zeroed perDb := by
    rw [Array.extract_append, hdone, Array.extract_empty_of_size_le_start (by omega),
      extract_zeroed, Array.empty_append]
    congr 1
    omega
  have hbefore : (done ++ zeroed (perDb * (left + 1))).extract 0 (k * perDb) = done := by
    rw [← hdone, Array.extract_append, Array.extract_size, Nat.sub_self, extract_zeroed]
    simp [zeroed]
  have hafter : (done ++ zeroed (perDb * (left + 1))).extract (k * perDb + perDb)
      (done ++ zeroed (perDb * (left + 1))).size = zeroed (perDb * left) := by
    have hsize' : (zeroed (perDb * (left + 1))).size = perDb * (left + 1) := Array.size_replicate
    rw [Array.extract_append, Array.extract_empty_of_size_le_start (by omega), extract_zeroed,
      Array.size_append, hsize', hdone, Array.empty_append]
    congr 1
    omega
  simp only [preprocessShard, hchunk, hbefore, hafter, hcreate, hentries, hset, Option.bind_eq_bind,
    Option.bind_some]
  rfl

/-- The memory of a fleet, shard after shard. -/
def fleetMemory (fleet : List (Shard fm rank)) : Array CompressedZnx8El :=
  Tiling.join (fleet.flatMap fun s => s.db.slices)

/-- What is built of the buckets of a fleet. -/
def BuiltFrom (g : IndexGroup rank) (slotBuckets : List Bucket) (s : Shard fm rank) : Prop :=
  s.indexGroup = g ∧ slotBuckets.mapM bucketToEntry = some s.entries ∧
    (Tiling.join s.db.slices).size = requiredMemoryGeneral g

/-- The loop over the shards, from shard `k` on. -/
theorem preprocessShards_spec (hfm : fm.Correct) (g : IndexGroup rank)
    {buckets : List (List Bucket)}
    (hlen : ∀ slotBuckets ∈ buckets, slotBuckets.length = simdCount * g.groupOrder)
    {done : Array CompressedZnx8El} {k : ℕ} (hdone : done.size = k * requiredMemoryGeneral g) :
    ∃ fleet : List (Shard fm rank), List.Forall₂ (BuiltFrom g) buckets fleet ∧
      ((buckets.zipIdx k).mapM fun (slotBuckets, shardIdx) =>
        preprocessShard fm g (requiredMemoryGeneral g) slotBuckets shardIdx)
          (done ++ zeroed (requiredMemoryGeneral g * buckets.length)) =
        some (fleet.map Shard.db, done ++ fleetMemory fleet) := by
  induction buckets generalizing done k with
  | nil => exact ⟨[], .nil, by simp [fleetMemory, zeroed]; rfl⟩
  | cons slotBuckets buckets ih =>
    obtain ⟨s, hg, hentries, hsize, hrun⟩ := preprocessShard_spec (k := k) hfm g
      buckets.length (hlen slotBuckets List.mem_cons_self) hdone
    have hdone' : (done ++ Tiling.join s.db.slices).size = (k + 1) * requiredMemoryGeneral g := by
      rw [Array.size_append, hdone, hsize]
      ring
    obtain ⟨fleet, hall, hrest⟩ := ih (fun b hb => hlen b (List.mem_cons_of_mem _ hb)) hdone'
    refine ⟨s :: fleet, .cons ⟨hg, hentries, hsize⟩ hall, ?_⟩
    rw [List.zipIdx_cons, List.mapM_cons, List.length_cons]
    simp only [Bind.bind, StateT.bind, hrun, Option.bind_some, hrest]
    rw [fleetMemory, fleetMemory, List.flatMap_cons, Tiling.join_append, ← Array.append_assoc]
    rfl

/-- **A fleet in its slab.** Every shard holds the entries of its buckets, and
is on the primary group; the slab has been filled by the shards one after
another, and none of them has written to another's chunk. -/
theorem preprocess_spec (hfm : fm.Correct) (hs : Shape numEntries primary secondary shards)
    {buckets : List (List Bucket)} (hshards : buckets.length = shards)
    (hlen : ∀ slotBuckets ∈ buckets, slotBuckets.length = simdCount * primary.groupOrder) :
    ∃ fleet : List (Shard fm rank), List.Forall₂ (BuiltFrom primary) buckets fleet ∧
      preprocess fm buckets numEntries = some (⟨fleet.map Shard.db, numEntries⟩, fleetMemory fleet) ∧
      (fleetMemory fleet).size = shards * requiredMemoryGeneral primary := by
  obtain ⟨fleet, hall, hrun⟩ := preprocessShards_spec hfm primary hlen
    (show (#[] : Array CompressedZnx8El).size = 0 * requiredMemoryGeneral primary by simp)
  refine ⟨fleet, hall, ?_, ?_⟩
  · rw [preprocess, hs.numDatabases, hs.shape]
    simp only [Option.bind_eq_bind, Option.bind_some, if_pos hshards]
    rw [Array.empty_append, Array.empty_append] at hrun
    exact congrArg (fun r => r.bind fun p => some ((⟨p.1, numEntries⟩ : PirState), p.2)) hrun
  · rw [← hshards, fleetMemory]
    clear hrun hshards hlen
    induction hall with
    | nil => simp
    | cons hs _ ih =>
      rw [List.flatMap_cons, Tiling.join_append, Array.size_append, ih, hs.2.2, List.length_cons]; ring

theorem length_of_preprocessShard (hfm : fm.Correct) {g : IndexGroup rank} {perDb k : ℕ}
    {slotBuckets : List Bucket} {slab slab' : Array CompressedZnx8El}
    {db : PIRDatabase rank primaryPlainModulus}
    (h : preprocessShard fm g perDb slotBuckets k slab = some (db, slab')) :
    slotBuckets.length = simdCount * g.groupOrder := by
  simp only [preprocessShard, Option.bind_eq_bind, Option.bind_eq_some_iff] at h
  obtain ⟨db₀, hcreate, entries, hentries, db₁, hset, -⟩ := h
  obtain ⟨rfl, -⟩ := create_spec hfm hcreate
  rw [(Loops.mapM_eq_some_iff.mp hentries).length_eq, length_of_setDb hset, mul_comm]

/-- What a fleet is after `preprocess`. -/
structure Preprocessed (fm : FeanorMath) (g : IndexGroup rank) (buckets : List (List Bucket))
    (numEntries : ℕ) (pir : PirState) (slab : Array CompressedZnx8El) (fleet : List (Shard fm rank)) :
    Prop where
  state : pir = ⟨fleet.map Shard.db, numEntries⟩
  built : List.Forall₂ (BuiltFrom g) buckets fleet
  /-- Shard after shard, and nothing of one in the chunk of another. -/
  memory : slab = fleetMemory fleet
  size : slab.size = fleet.length * requiredMemoryGeneral g

/-- **The shards of a server.** `preprocess` returns exactly for the buckets of
as many full shards as the number of entries makes; then every shard holds the
entries of its buckets, and the shards tile the slab. -/
theorem preprocess_iff (hfm : fm.Correct) (h1 : 1 ≤ numEntries) (h2 : numEntries ≤ rank * rank)
    (buckets : List (List Bucket)) :
    ∃ shards perShard primary, numDatabases numEntries = some shards ∧
      entriesPerShard numEntries = some perShard ∧
      (getDatabaseShape numEntries).map Prod.fst = some primary ∧
      ((preprocess fm buckets numEntries).isSome ↔
        buckets.length = shards ∧ ∀ slotBuckets ∈ buckets, slotBuckets.length = perShard) ∧
      ∀ pir slab, preprocess fm buckets numEntries = some (pir, slab) →
        ∃ fleet : List (Shard fm rank), Preprocessed fm primary buckets numEntries pir slab fleet := by
  obtain ⟨primary, secondary, shards, hs⟩ := exists_shape h1 h2
  have hfits : (preprocess fm buckets numEntries).isSome ↔
      buckets.length = shards ∧
          ∀ slotBuckets ∈ buckets, slotBuckets.length = simdCount * primary.groupOrder := by
    constructor
    · intro h
      obtain ⟨p, hp⟩ := Option.isSome_iff_exists.mp h
      rw [preprocess, hs.numDatabases, hs.shape] at hp
      simp only [Option.bind_eq_bind, Option.bind_some] at hp
      split at hp
      next hshards =>
        obtain ⟨q, hq, -⟩ := Option.bind_eq_some_iff.mp hp
        refine ⟨hshards, fun slotBuckets hmem => ?_⟩
        obtain ⟨k, hk, rfl⟩ := List.getElem_of_mem hmem
        have hmem' : (buckets[k], k) ∈ buckets.zipIdx := by
          rw [List.mem_zipIdx_iff_getElem?, List.getElem?_eq_getElem hk]
        obtain ⟨slab, db, slab', hshard⟩ := Loops.exists_of_mapM_stateT hq _ hmem'
        exact length_of_preprocessShard hfm hshard
      next => cases hp
    · rintro ⟨hshards, hlen⟩
      obtain ⟨fleet, -, hrun, -⟩ := preprocess_spec hfm hs hshards hlen
      rw [hrun]
      rfl
  refine ⟨shards, _, primary, hs.numDatabases, Shape.entriesPerShard hs, by rw [hs.shape]; rfl, hfits,
    fun pir slab hrun => ?_⟩
  obtain ⟨hshards, hlen⟩ := hfits.mp (by rw [hrun]; rfl)
  obtain ⟨fleet, hall, hrun', hsize⟩ := preprocess_spec hfm hs hshards hlen
  obtain ⟨rfl, rfl⟩ := Prod.mk.inj (Option.some.inj (hrun.symm.trans hrun'))
  exact ⟨fleet, rfl, hall, rfl, by rw [hsize, ← hall.length_eq, hshards]⟩

theorem numDatabases_one : numDatabases 1 = some 1 ∧ entriesPerShard 1 = some 8192 := by
  obtain ⟨primary, secondary, shards, hs⟩ := exists_shape le_rfl (show 1 ≤ rank * rank by decide)
  have hord : primary.groupOrder = 1024 := (groupOrder_of_shape hs).trans (if_pos (by decide))
  have hshards : shards = 1 := by
    rw [hs.shards_eq, hord]
    decide
  exact ⟨hshards ▸ hs.numDatabases, by rw [Shape.entriesPerShard hs, hord]; rfl⟩

/-- One shard of buckets that differ in their salts. -/
def saltedBuckets : List Bucket := (List.range 8192).map fun i => writeBucketSalt emptyBucket (.ofNat i)

theorem preprocess_iff_salted : ∃ primary pir slab fleet,
    preprocess FeanorMath.reference [saltedBuckets] 1 = some (pir, slab) ∧
      @Preprocessed FeanorMath.reference primary [saltedBuckets] 1 pir slab fleet := by
  obtain ⟨shards, perShard, primary, hshards, hper, -, hiff, htile⟩ :=
    preprocess_iff FeanorMath.reference_correct le_rfl (by decide) [saltedBuckets]
  obtain rfl := Option.some.inj (numDatabases_one.1.symm.trans hshards)
  obtain rfl := Option.some.inj (numDatabases_one.2.symm.trans hper)
  have hlen : saltedBuckets.length = 8192 := by rw [saltedBuckets, List.length_map, List.length_range]
  obtain ⟨⟨pir, slab⟩, hrun⟩ := Option.isSome_iff_exists.mp
    (hiff.mpr ⟨rfl, fun slotBuckets h => (List.mem_singleton.mp h).symm ▸ hlen⟩)
  obtain ⟨fleet, h⟩ := htile pir slab hrun
  exact ⟨primary, pir, slab, fleet, hrun, h⟩

end Shards

end Dns

end Dnspir
