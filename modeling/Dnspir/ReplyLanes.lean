/-
The lanes of a database do not meet: `set_db` and the evaluation of eight
queries are eight computations side by side.

* `setDb_spec`: filling a database that was just created succeeds, and what
  the loops read is made from the entries lane by lane.
* `performPirSplit_isSome`: a filled database replies to every query that has
  its conjugated part where the group needs one.
* `exists_laneReply`: lane `c` of the reply is a function of lane `c` of the
  entries and of query `c`.
-/
import Dnspir.MemoryFacts
import Dnspir.Retrieval

namespace Dnspir

open SpecialZnx8 PIRDatabase DoublePir Negacyclic

variable {N t : ℕ} [NeZero N] {fm : FeanorMath} {g : IndexGroup N} {r : Roots} {db : PIRDatabase N t}
  {T TC : Fin 8 → ℕ → CipherRing N}

/-! ## A filled database -/

/-- The `a`-part of a reply, for the elements of one lane. -/
def replyA (fm : FeanorMath) (g : IndexGroup N) (useSeeds : UsedSeeds) (T TC : ℕ → CipherRing N) :
    CipherRing N :=
  aRec (gkA fm useSeeds) (qryA fm useSeeds 0) T g.loopLen +
    if g.requiresConj then aRec (gkA fm useSeeds) (qryA fm useSeeds 1) TC g.loopLen else 0

/-- The `b`-part, with the digits `preprocess` makes of the same elements. -/
def replyBOf (fm : FeanorMath) (g : IndexGroup N) (useSeeds : UsedSeeds) (T TC : ℕ → CipherRing N)
    (query : QueryRef N) : CipherRing N :=
  replyB g (digits (gkA fm useSeeds) (qryA fm useSeeds 0) T)
    (digits (gkA fm useSeeds) (qryA fm useSeeds 1) TC) T TC query

/-- A database that holds the elements `T` and `TC`, with the `a`-part and the
digits of all rounds. -/
structure Prepared (fm : FeanorMath) (r : Roots) (T TC : Fin 8 → ℕ → CipherRing N)
    (db : PIRDatabase N t) : Prop where
  ok : DbOk db r
  a : getA fm db = some fun c => replyA fm db.indexGroup db.useSeeds (T c) (TC c)
  slices : LoopSlices r db.innerProdGk db.transformedEntries db.indexGroup.loopLen
    (fun c => digits (gkA fm db.useSeeds) (qryA fm db.useSeeds 0) (T c)) T
  slicesConj : db.indexGroup.requiresConj → LoopSlices r db.innerProdConjGk db.transformedEntriesConj
    db.indexGroup.loopLen (fun c => digits (gkA fm db.useSeeds) (qryA fm db.useSeeds 1) (TC c)) TC

/-- The elements step 6 stores for a lane of entries. -/
def laneElement {w : ℕ} (g : IndexGroup N) (hw : Odd w) (scale : ZMod t)
    (lane : Fin g.groupOrder → Negacyclic N ℤ) (i : ℕ) : CipherRing N :=
  rescaled scale (column g hw lane i)

omit [NeZero N] in
/-- `set_db` takes eight entries for each element of the group. -/
theorem length_of_setDb {db' : PIRDatabase N t} {entries : List (PlainRing t N)}
    (h : setDb fm db entries = some db') :
    entries.length = db.indexGroup.groupOrder * simdCount := by
  simp only [setDb, setTransformedEntries, transformEntries, Option.bind_eq_bind] at h
  split at h
  next =>
    split at h
    next hlen => exact hlen
    next => simp at h
  next => simp at h

theorem preprocess_prepared (hfm : fm.Correct) (h : DbOk db r) (hs : DbShape db)
    (hN : Nat.Coprime 5 (2 * N))
    (hT : ∀ i < db.indexGroup.loopLen, Stored r db.transformedEntries i fun c => T c i)
    (hTC : db.indexGroup.requiresConj → ∀ i < db.indexGroup.loopLen,
      Stored r db.transformedEntriesConj i fun c => TC c i) :
    ∃ db', preprocess fm db = some db' ∧ db'.indexGroup = db.indexGroup ∧ db'.useSeeds = db.useSeeds ∧
      Prepared fm r T TC db' := by
  obtain ⟨sum, gk, gkConj, epre, hsum, hsl, hslc⟩ := preprocess_spec hfm h hs hN hT hTC
  exact ⟨_, epre, rfl, rfl, ⟨h.ok0, h.ok1⟩, fromSimdElement_spec hfm ⟨h.ok0, h.ok1⟩ hsum, hsl, hslc⟩

/-- **`set_db` on a database just created.** -/
theorem setDb_spec (hfm : fm.Correct) (h4 : 4 ≤ N) {useSeeds : UsedSeeds}
    {memory : Array CompressedZnx8El} {db₀ : PIRDatabase N 1025}
    (hcreate : create fm 1025 g useSeeds memory = some db₀) {entries : List (PlainRing 1025 N)}
    (hlen : entries.length = g.groupOrder * simdCount) {w : ℕ} (hw : Odd w)
    (h5 : 5 * w ≡ 1 [MOD 2 * N])
    (hinv : Zn.invert (IndexGroup.genH (2 * N)) = some ((w : ℕ) : ZMod (2 * N))) {scale : ZMod 1025}
    (hscale : Zn.invert (g.groupOrder : ZMod 1025) = some scale) :
    ∃ db r, setDb fm db₀ entries = some db ∧ db.indexGroup = g ∧ db.useSeeds = useSeeds ∧
      Prepared fm r (fun c => laneElement g hw scale (laneEntry entries c))
        (fun c i => laneElement g hw scale (laneEntry entries c) (g.loopLen + i)) db := by
  obtain ⟨rfl, rfl, hpow, r, hok, hshape, hsub⟩ := create_spec hfm hcreate
  obtain ⟨b, h⟩ := db₀.indexGroup.exists_shape hpow (by omega)
  have hmax := hok.two_mul_lt hpow
  obtain ⟨te, tc, eset, hstore⟩ :=
    setTransformedEntries_spec hfm hok hsub hshape h hpow hw h5 hinv hlen hmax hscale
  have hconj : db₀.indexGroup.requiresConj →
      db₀.indexGroup.loopLen + db₀.indexGroup.loopLen ≤ db₀.indexGroup.groupOrder := fun hc => by
    rw [h.order_eq, if_pos hc, two_mul]
  have hok' : DbOk ({ db₀ with transformedEntries := te, transformedEntriesConj := tc, replyA := none } :
    PIRDatabase N 1025) r := ⟨hok.ok0, hok.ok1⟩
  obtain ⟨db, epre, hgroup, hseeds, hprep⟩ := preprocess_prepared hfm hok'
    ⟨hstore.len, hshape.gk, hstore.lenConj, hshape.gkConj, hstore.noConj⟩
      (hpow ▸ coprime_five_two_pow _)
    (fun i hi => hstore.stored i hi (hi.trans_le h.loopLen_le))
    fun hc i hi => hstore.storedConj hc i hi ((Nat.add_lt_add_left hi _).trans_le (hconj hc))
  exact ⟨db, r, by rw [setDb, eset]; exact epre, hgroup, hseeds, hprep⟩

/-! ## Evaluation -/

/-- The reply of a group of even order, lane by lane. -/
theorem Prepared.performPirSplit_eq (hfm : fm.Correct) (h : Prepared fm r T TC db) {n : ℕ}
    (hpow : N = 2 ^ n) (hN : 16 ≤ N) (heven : db.indexGroup.loopLen % 2 = 0)
    {queries : Fin 8 → QueryRef N}
    (hq : db.indexGroup.requiresConj → ∀ c, (queries c).qryConjB.isSome) :
    performPirSplit fm db queries =
      some fun c => replyBOf fm db.indexGroup db.useSeeds (T c) (TC c) (queries c) :=
  performPirSplit_spec hfm h.ok (rank_mod_sixteen hpow hN) hN
    (hpow ▸ coprime_five_two_pow n) heven h.slices
    h.slicesConj hq

/-- **A filled database replies**, whatever the order of its group. -/
theorem Prepared.performPirSplit_isSome (hfm : fm.Correct) (h : Prepared fm r T TC db) {n : ℕ}
    (hpow : N = 2 ^ n) (hN : 16 ≤ N) {queries : Fin 8 → QueryRef N}
    (hq : db.indexGroup.requiresConj → ∀ c, (queries c).qryConjB.isSome) :
    (performPirSplit fm db queries).isSome := by
  have hdvd := rank_mod_sixteen hpow hN
  rcases Nat.mod_two_eq_zero_or_one db.indexGroup.loopLen with heven | hodd
  · rw [h.performPirSplit_eq hfm hpow hN heven hq]
    rfl
  · have hc : ¬db.indexGroup.requiresConj := fun hc => by
      obtain ⟨-, -, hl⟩ | ⟨hn, -⟩ := groupOrder_cases db.indexGroup
      · omega
      · exact hn hc
    rw [performPirSplit_odd hfm h.ok hdvd hN (hpow ▸ coprime_five_two_pow n) hodd hc h.slices]
    rfl

/-! ## The lanes of a reply -/

/-- Lane `c` of a list of entries. -/
def entryLane (entries : List (PlainRing t N)) (c : Fin 8) (j : ℕ) : PlainRing t N :=
  entries.getD (8 * j + c.val) 0

/-- **The second reply**, lane by lane, whatever the buffer held. -/
theorem secondaryPhase_eq (hfm : fm.Correct) {n : ℕ} (hpow : N = 2 ^ n) (hN : 16 ≤ N)
    (hlog : n ≤ log2N) (g : IndexGroup N) (heven : g.loopLen % 2 = 0) {w : ℕ} (hw : Odd w)
    (h5 : 5 * w ≡ 1 [MOD 2 * N])
    (hinv : Zn.invert (IndexGroup.genH (2 * N)) = some ((w : ℕ) : ZMod (2 * N))) {scale : ZMod 1025}
    (hscale : Zn.invert (g.groupOrder : ZMod 1025) = some scale) {entries : List (PlainRing 1025 N)}
    {queries : Fin 8 → QueryRef N} (memory : Array CompressedZnx8El)
    (hlen : entries.length = g.groupOrder * simdCount)
    (hq : g.requiresConj → ∀ c, (queries c).qryConjB.isSome) :
    ∃ memory', secondaryPhase fm g entries queries memory = some (fun c =>
      (replyA fm g .secondSet (laneElement g hw scale (laneEntry entries c))
          fun i => laneElement g hw scale (laneEntry entries c) (g.loopLen + i),
        replyBOf fm g .secondSet (laneElement g hw scale (laneEntry entries c))
          (fun i => laneElement g hw scale (laneEntry entries c) (g.loopLen + i)) (queries c)),
              memory') := by
  obtain ⟨db₀, hcreate⟩ := create_isSome (t := 1025) hfm g .secondSet hpow hlog
    (size_extract_growTo (requiredMemoryGeneral g) memory)
  obtain ⟨db, r, hset, rfl, hseeds, hprep⟩ := setDb_spec hfm (by omega) hcreate hlen hw h5 hinv hscale
  have ha := hprep.a
  have hb := hprep.performPirSplit_eq hfm hpow hN heven hq
  rw [hseeds] at ha hb
  set len := requiredMemoryGeneral db.indexGroup
  refine ⟨Tiling.join db.slices ++ (growTo len memory).extract len (growTo len memory).size, ?_⟩
  change (create fm 1025 db.indexGroup .secondSet _).bind _ = _
  rw [hcreate]
  change (setDb fm db₀ entries).bind _ = _
  rw [hset]
  change (getA fm db).bind _ = _
  rw [ha]
  change (performPirSplit fm db queries).bind _ = _
  rw [hb]
  rfl

/-- **Lane `c` of the second reply** is a function of lane `c` of the entries
and of query `c`. -/
theorem exists_laneReply (hfm : fm.Correct) {n : ℕ} (hpow : N = 2 ^ n) (hN : 16 ≤ N) (hlog : n ≤ log2N)
    (g : IndexGroup N) (heven : g.loopLen % 2 = 0) :
    ∃ reply : (ℕ → PlainRing 1025 N) → QueryRef N → CipherRing N × CipherRing N,
      ∀ (entries : List (PlainRing 1025 N)) (queries : Fin 8 → QueryRef N)
        (memory : Array CompressedZnx8El),
        entries.length = g.groupOrder * simdCount →
          (g.requiresConj → ∀ c, (queries c).qryConjB.isSome) →
        ∃ memory', secondaryPhase fm g entries queries memory =
          some (fun c => reply (entryLane entries c) (queries c), memory') := by
  obtain ⟨b, h⟩ := g.exists_shape hpow (by omega)
  obtain ⟨w, hw, h5, hinv⟩ := exists_inv_five (N := N) (hpow ▸ coprime_five_two_pow _)
  obtain ⟨scale, hscale, -⟩ := groupOrder_invert h
  set lift : (ℕ → PlainRing 1025 N) → Fin g.groupOrder → Negacyclic N ℤ := fun lane j =>
    ⟨fun k => (((lane j).coeff k).val : ℤ)⟩
  exact ⟨fun lane query =>
    (replyA fm g .secondSet (laneElement g hw scale (lift lane))
      fun i => laneElement g hw scale (lift lane) (g.loopLen + i),
      replyBOf fm g .secondSet (laneElement g hw scale (lift lane))
        (fun i => laneElement g hw scale (lift lane) (g.loopLen + i)) query), fun _ _ memory hlen hq =>
    secondaryPhase_eq hfm hpow hN hlog g heven hw h5 hinv hscale memory hlen hq⟩

end Dnspir
