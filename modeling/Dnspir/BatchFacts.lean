/-
Two levels and two slots: what `perform_batched_double_pir` returns.

The fleets hold shards a server has built (`Shard`). A slot owns the lanes
`3 b, ..., 3 b + 2` of the second database, and lane `8 i + c` of the first
level is its entry `8 i + c`; the lanes do not meet (`exists_laneReply`).

* `primaryPhase_spec`: the first level returns exactly when the lengths that
  are compared are those of one slot.
* `answered_iff`: the call returns, its slots are independent, and each reply
  decrypts to the entry that was asked for, exactly in that case.
-/
import Dnspir.BfvNoise
import Dnspir.DoublePirFacts
import Dnspir.ReplyLanes

namespace Dnspir

open PIRDatabase DoublePir

namespace DoublePir

variable {N : ℕ} [NeZero N] {fm : FeanorMath} {gs : IndexGroup N}

/-! ## Shards and queries -/

/-- A shard as a server builds it: a database created on some memory with the
first seeds, and filled. -/
structure Shard (fm : FeanorMath) (N : ℕ) where
  indexGroup : IndexGroup N
  entries : List (PlainRing primaryPlainModulus N)
  db : PIRDatabase N primaryPlainModulus
  built : ∃ memory db₀, create fm primaryPlainModulus indexGroup .firstSet memory = some db₀ ∧
    setDb fm db₀ entries = some db

/-- The fleets of the two slots. -/
abbrev Fleets (fm : FeanorMath) (N : ℕ) := Vector (List (Shard fm N)) batchCount

def Fleets.databases (fleets : Fleets fm N) :
    Vector (List (PIRDatabase N primaryPlainModulus)) batchCount :=
  fleets.map (List.map Shard.db)

/-- The first-level query. -/
def DoubleQueryRef.primary (q : DoubleQueryRef N) : QueryRef N :=
  ⟨q.primaryQryB, q.primaryQryConjB, q.gkB⟩

/-- A query has the conjugated parts the databases it is for ask. -/
structure QueryFits (fleet : List (Shard fm N)) (gs : IndexGroup N) (q : DoubleQueryRef N) : Prop where
  primary : ∀ s ∈ fleet, s.indexGroup.requiresConj = q.primaryQryConjB.isSome
  secondary : gs.requiresConj → q.secondaryQryConjB.isSome

def QueriesFit (fleets : Fleets fm N) (gs : IndexGroup N)
    (queries : Vector (Option (DoubleQueryRef N)) batchCount) :
    Prop := ∀ (b : Fin batchCount) q, queries[b] = some q → QueryFits fleets[b] gs q

/-- The fleets fit the second database. -/
structure FleetsFit (fleets : Fleets fm N) (gs : IndexGroup N) : Prop where
  nonempty : fleets[0] ≠ []
  size : ∀ b : Fin batchCount, fleets[b].length * simdCount ≤ gs.groupOrder

theorem Shard.rank (hfm : fm.Correct) (s : Shard fm N) :
    N = 2 ^ Nat.clog 2 N ∧ Nat.clog 2 N ≤ log2N := by
  obtain ⟨memory, db₀, hcreate, -⟩ := s.built
  obtain ⟨-, -, hpow, r, hok, -⟩ := create_spec hfm hcreate
  have hle := hok.rank_le hpow
  have hle' : 2 ^ Nat.clog 2 N ≤ 2 ^ log2N := hpow ▸ hle
  exact ⟨hpow, (Nat.pow_le_pow_iff_right (by norm_num)).mp hle'⟩

theorem Shard.rank_le (hfm : fm.Correct) (s : Shard fm N) : N ≤ 2 ^ log2N := by
  obtain ⟨hpow, hlog⟩ := s.rank hfm
  exact hpow.trans_le (Nat.pow_le_pow_right (by norm_num) hlog)

/-- Every list of entries of the right length makes a shard. -/
theorem exists_shard (hfm : fm.Correct) {n : ℕ} (hpow : N = 2 ^ n) (h4 : 4 ≤ N) (hlog : n ≤ log2N)
    (g : IndexGroup N) {entries : List (PlainRing primaryPlainModulus N)}
    (hlen : entries.length = g.groupOrder * simdCount) :
    ∃ s : Shard fm N, s.indexGroup = g ∧ s.entries = entries := by
  obtain ⟨b, h⟩ := g.exists_shape hpow (by omega)
  obtain ⟨w, hw, h5, hinv⟩ := exists_inv_five (N := N) (hpow ▸ coprime_five_two_pow _)
  obtain ⟨scale, hscale, -⟩ := groupOrder_invert h
  obtain ⟨db₀, hcreate⟩ := create_isSome (t := 1025) hfm g .firstSet hpow hlog
    (show (Array.replicate (requiredMemoryGeneral g) (Vector.replicate 8 0)).size =
      _ from Array.size_replicate)
  obtain ⟨db, r, hset, -⟩ := setDb_spec hfm h4 hcreate hlen hw h5 hinv hscale
  exact ⟨⟨g, entries, db, _, db₀, hcreate, hset⟩, rfl, rfl⟩

/-- What a shard holds: the elements of its entries, lane by lane. -/
structure Shard.Holds (s : Shard fm N) (r : Roots) {w : ℕ} (hw : Odd w)
    (scale : ZMod primaryPlainModulus) : Prop where
  inverse : 5 * w ≡ 1 [MOD 2 * N]
  scale_inverse : (s.indexGroup.groupOrder : ZMod primaryPlainModulus) * scale = 1
  indexGroup : s.db.indexGroup = s.indexGroup
  useSeeds : s.db.useSeeds = .firstSet
  prepared : Prepared fm r (fun c => laneElement s.indexGroup hw scale (laneEntry s.entries c))
    (fun c i => laneElement s.indexGroup hw scale (laneEntry s.entries c)
      (s.indexGroup.loopLen + i)) s.db

theorem Shard.holds (hfm : fm.Correct) (h4 : 4 ≤ N) (s : Shard fm N) {w : ℕ} (hw : Odd w)
    (h5 : 5 * w ≡ 1 [MOD 2 * N])
    (hinv : Zn.invert (IndexGroup.genH (2 * N)) = some ((w : ℕ) : ZMod (2 * N)))
    {scale : ZMod primaryPlainModulus}
    (hscale : Zn.invert (s.indexGroup.groupOrder : ZMod primaryPlainModulus) = some scale) :
    ∃ r : Roots, s.Holds r hw scale := by
  obtain ⟨hpow, -⟩ := s.rank hfm
  obtain ⟨memory, db₀, hcreate, hset⟩ := s.built
  obtain ⟨b, h⟩ := s.indexGroup.exists_shape hpow (by omega)
  obtain ⟨scale', hscale', hone⟩ := groupOrder_invert h
  obtain rfl : scale' = scale := Option.some.inj (hscale'.symm.trans hscale)
  have hgroup : db₀.indexGroup = s.indexGroup := (create_spec hfm hcreate).1
  obtain ⟨db, r, hset', hg, hseeds, hprep⟩ :=
    setDb_spec hfm h4 hcreate (hgroup ▸ length_of_setDb hset) hw h5 hinv hscale
  obtain rfl := Option.some.inj (hset'.symm.trans hset)
  exact ⟨r, h5, hone, hg, hseeds, hprep⟩

/-- A shard is ready for queries. -/
theorem Shard.prepared (hfm : fm.Correct) (h4 : 4 ≤ N) (s : Shard fm N) :
    s.db.indexGroup = s.indexGroup ∧ s.db.useSeeds = .firstSet ∧ ∃ r T TC, Prepared fm r T TC s.db := by
  obtain ⟨hpow, -⟩ := s.rank hfm
  obtain ⟨w, hw, h5, hinv⟩ := exists_inv_five (N := N) (hpow ▸ coprime_five_two_pow _)
  obtain ⟨b, hshape⟩ := s.indexGroup.exists_shape hpow (by omega)
  obtain ⟨scale, hscale, -⟩ := groupOrder_invert hshape
  obtain ⟨r, h⟩ := s.holds hfm h4 hw h5 hinv hscale
  exact ⟨h.indexGroup, h.useSeeds, r, _, _, h.prepared⟩

/-- The indices in range have an entry. -/
theorem Shard.getElem?_entries (hfm : fm.Correct) (s : Shard fm N) {primaryIdx : ℕ}
    (h : primaryIdx < s.indexGroup.groupOrder * simdCount) :
    ∃ entry, s.entries[primaryIdx]? = some entry := by
  obtain ⟨memory, db₀, hcreate, hset⟩ := s.built
  have hgroup : db₀.indexGroup = s.indexGroup := (create_spec hfm hcreate).1
  exact ⟨_, List.getElem?_eq_getElem (by rw [length_of_setDb hset, hgroup]; exact h)⟩

/-- **The first level does not fail.** -/
theorem Shard.replies (hfm : fm.Correct) (hN : 16 ≤ N) (s : Shard fm N) {q : QueryRef N}
    (hq : s.indexGroup.requiresConj → q.qryConjB.isSome) :
    ∃ a b, getA fm s.db = some a ∧ performPir fm s.db q = some b := by
  obtain ⟨hg, -, r, T, TC, hprep⟩ := s.prepared hfm (by omega)
  have hsome : (performPir fm s.db q).isSome :=
    hprep.performPirSplit_isSome hfm (s.rank hfm).1 hN fun hc _ => hq (hg ▸ hc)
  obtain ⟨b, hb⟩ := Option.isSome_iff_exists.mp hsome
  exact ⟨_, b, hprep.a, hb⟩

/-! ## The first level -/

/-- A reply as the client has it back: switched to 17 and 12 bits. -/
def switched (fm : FeanorMath) (ct : CipherRing N × CipherRing N) :
    Option (CipherRing N × CipherRing N) := do
  let a ← Bfv.modSwitchEncode fm primaryALog2ResponseQ ct.1
  let b ← Bfv.modSwitchEncode fm primaryBLog2ResponseQ ct.2
  return (← Bfv.modSwitchDecode fixedQ primaryALog2ResponseQ a,
    ← Bfv.modSwitchDecode fixedQ primaryBLog2ResponseQ b)

/-- Three plaintexts stand for a ciphertext: a client that decrypts to them
goes on to decrypt it. -/
def Encodes (parts : Vector (PlainRing secondaryPlainModulus N) ctxtParts)
    (ct : CipherRing N × CipherRing N) : Prop :=
  ∀ (sk : CipherRing N) (reply : Vector (CipherRing N × CipherRing N) ctxtParts)
    (m : PlainRing primaryPlainModulus N),
    (∀ k : Fin ctxtParts, Bfv.PhaseFits sk parts[k] reply[k]) → Bfv.PhaseFits sk m ct →
      decDoublePir sk reply = some m

/-- One lane of a shard: switched and written in digits. -/
theorem exists_encodes (hfm : fm.Correct) (a b : CipherRing N) :
    ∃ ya yb parts ct, Bfv.modSwitchEncode fm primaryALog2ResponseQ a = some ya ∧
      Bfv.modSwitchEncode fm primaryBLog2ResponseQ b = some yb ∧ encodeParts ya yb = some parts ∧
      switched fm (a, b) = some ct ∧ Encodes parts ct := by
  have hbits : 1 ≤ 17 ∧ 17 ≤ 64 ∧ 1 ≤ 12 ∧ 12 ≤ 64 := by decide
  obtain ⟨ya, a', ea, hlenA, hya, da, -⟩ :=
    Bfv.exists_switched hfm (q := fixedQ) (by decide) (by decide) hbits.1 hbits.2.1 a
  obtain ⟨yb, b', eb, hlenB, hyb, db, -⟩ :=
    Bfv.exists_switched hfm (q := fixedQ) (by decide) (by decide) hbits.2.2.1
    hbits.2.2.2 b
  obtain ⟨parts, eparts, hparts⟩ := encodeParts_spec hlenA hlenB hya hyb
  refine ⟨ya, yb, parts, (a', b'), ea, eb, eparts, ?_, fun sk reply m hreply hm =>
    decDoublePir_of_parts hlenA hlenB hparts hreply da db hm⟩
  simp only [switched, primaryALog2ResponseQ, primaryBLog2ResponseQ, ea, eb, da, db,
    Option.bind_eq_bind, Option.bind_some, Option.pure_def]

/-- What a shard contributes: for each lane the digits of its reply. -/
structure ShardParts (fm : FeanorMath) (s : Shard fm N) (q : DoubleQueryRef N)
    (parts : Fin simdCount → Vector (PlainRing secondaryPlainModulus N) ctxtParts) : Prop where
  run : shardParts fm s.db q = some ((List.finRange simdCount).map parts)
  encodes : ∃ a b, getA fm s.db = some a ∧ performPir fm s.db q.primary = some b ∧
    ∀ c, ∃ ct, switched fm (a c, b c) = some ct ∧ Encodes (parts c) ct

theorem exists_shardParts (hfm : fm.Correct) (hN : 16 ≤ N) (s : Shard fm N) {q : DoubleQueryRef N}
    (hq : s.indexGroup.requiresConj = q.primaryQryConjB.isSome) : ∃ parts, ShardParts fm s q parts := by
  obtain ⟨a, b, ha, hb⟩ := s.replies hfm hN (q := q.primary) fun hc => hq ▸ hc
  choose ya yb parts ct ea eb eparts ect henc using fun c : Fin simdCount =>
    exists_encodes hfm (a c) (b c)
  refine ⟨parts, ?_, a, b, ha, hb, fun c => ⟨ct c, ect c, henc c⟩⟩
  have hgroup := (s.prepared hfm (by omega)).1
  have hlanes : ((List.finRange simdCount).mapM fun k => do
      let aModswitched ← Bfv.modSwitchEncode fm primaryALog2ResponseQ (a k)
      let bModswitched ← Bfv.modSwitchEncode fm primaryBLog2ResponseQ (b k)
      encodeParts aModswitched bModswitched) = some ((List.finRange simdCount).map parts) :=
    Loops.mapM_eq_map fun k _ => by simp only [ea, eb, Option.bind_eq_bind, Option.bind_some, eparts]
  change performPir fm s.db ⟨q.primaryQryB, q.primaryQryConjB, q.gkB⟩ = some b at hb
  rw [shardParts, hgroup, if_pos hq, ha, hb]
  exact hlanes

/-- The part results of a slot: entry `8 i + c` is lane `c` of shard `i`. -/
structure SlotParts (fm : FeanorMath) (fleet : List (Shard fm N)) (q : DoubleQueryRef N)
    (results : List (Vector (PlainRing secondaryPlainModulus N) ctxtParts)) : Prop where
  length : results.length = simdCount * fleet.length
  lanes : ∀ i s, fleet[i]? = some s → ∃ parts, ShardParts fm s q parts ∧
    ∀ c : Fin simdCount, results[simdCount * i + c]? = some (parts c)

theorem exists_slotParts (hfm : fm.Correct) (hN : 16 ≤ N) {fleet : List (Shard fm N)}
    {q : DoubleQueryRef N} (hq : QueryFits fleet gs q) :
    ∃ results, slotParts fm (fleet.map Shard.db) (some q) = some (some results) ∧
      SlotParts fm fleet q results := by
  have hne : Nonempty (Fin simdCount → Vector (PlainRing secondaryPlainModulus N) ctxtParts) :=
    ⟨fun _ => Vector.replicate _ 0⟩
  choose! parts hparts using fun (s : Shard fm N) (hs : s ∈ fleet) =>
    exists_shardParts hfm hN s (hq.primary s hs)
  have hrun : (fleet.map Shard.db).mapM (fun db => shardParts fm db q) =
      some (fleet.map fun s => (List.finRange simdCount).map (parts s)) := by
    rw [List.mapM_map]
    exact Loops.mapM_eq_map fun s hs => (hparts s hs).run
  have hlen : ∀ l ∈ fleet.map fun s => (List.finRange simdCount).map (parts s),
      l.length = simdCount := by
    intro l hl
    obtain ⟨s, -, rfl⟩ := List.mem_map.mp hl
    rw [List.length_map, List.length_finRange]
  refine ⟨_, by rw [slotParts, hrun]; rfl, ?_,
    fun i s hs => ⟨parts s, hparts s (List.mem_of_getElem? hs), fun c => ?_⟩⟩
  · rw [Loops.length_flatten hlen, List.length_map]
  · rw [Loops.getElem?_flatten hlen c.isLt, List.getElem?_map, hs]
    simp

/-! ## The second database -/

/-- The lengths that are compared are those of one slot. -/
def Comparable (queries : Vector (Option (DoubleQueryRef N)) batchCount) (fleets : Fleets fm N) :
    Prop :=
  queries[0] = none → queries[1] = none ∨ fleets[0].length = fleets[1].length

theorem toList_slots {α : Type} (v : Vector α batchCount) : v.toList = [v[0], v[1]] :=
  List.ext_getElem (by simp; rfl) fun i hi _ => by
    have hi : i < 2 := hi.trans_eq Vector.length_toList
    interval_cases i <;> rfl

/-- The comparison drops the slots without results, and takes the lengths from
the first slot on. -/
theorem lengths_agree_iff {α : Type} {results : Vector (Option (List α)) batchCount}
    {lens : Vector ℕ batchCount}
    (h : ∀ (b : Fin batchCount) l, results[b] = some l → l.length = simdCount * lens[b]) :
    ((results.toList.filterMap id).zip lens.toList).all
      (fun (res, len) => len * simdCount == res.length) = true ↔
      (results[0] = none → results[1] = none ∨ lens[0] = lens[1]) := by
  rw [toList_slots, toList_slots]
  cases e0 : results[0] with
  | none =>
    cases e1 : results[1] with
    | none => simp
    | some l1 =>
      have hl := h 1 l1 e1
      simp [simdCount, hl]
      omega
  | some l0 =>
    have hl := h 0 l0 e0
    cases e1 : results[1] with
    | none => simp [simdCount, hl, mul_comm]
    | some l1 =>
      have hl' := h 1 l1 e1
      simp [simdCount, hl, hl', mul_comm]

section Entries
variable {lens : Vector ℕ batchCount}
  {results : Vector (Option (List (Vector (PlainRing secondaryPlainModulus N) ctxtParts))) batchCount}

omit [NeZero N] in
/-- What slot `b` has in its lanes, row by row. -/
theorem secondaryEntry_slot (b : Fin batchCount) (p : Fin ctxtParts) (i : ℕ) :
    secondaryEntry lens results i (ctxtParts * b + p) =
      if i < simdCount * lens[b] then
        match results[b] with
        | some l => l[i]?.bind fun parts => some parts[p]
        | none => some 0
      else some 0 := by
  have hp : p.val < ctxtParts := p.isLt
  have hdiv : (ctxtParts * b + p) / ctxtParts = b.val := by
    rw [Nat.mul_add_div (by decide), Nat.div_eq_of_lt hp, Nat.add_zero]
  have hmod : (ctxtParts * b + p) % ctxtParts = p.val := by
    rw [Nat.mul_add_mod, Nat.mod_eq_of_lt hp]
  simp only [secondaryEntry, hdiv, hmod, b.isLt, hp, and_self, dif_pos]
  rfl

omit [NeZero N] in
/-- No row is missing. -/
theorem secondaryEntry_isSome
    (h : ∀ (b : Fin batchCount) l, results[b] = some l → l.length = simdCount * lens[b]) (i j : ℕ) :
    (secondaryEntry lens results i j).isSome := by
  unfold secondaryEntry
  split
  next hj =>
    split
    next hi =>
      have hl := h ⟨j / ctxtParts, hj.1⟩
      simp only [Positions.getElem_pos] at hl
      split
      next l hres =>
        rw [List.getElem?_eq_getElem (by rw [hl l hres]; exact hi)]
        rfl
      next => rfl
    next => rfl
  next => rfl

end Entries

/-- The first level of a call: the results of the slots, and the entries of the
second database, row by row. -/
structure FirstLevel (fm : FeanorMath) (fleets : Fleets fm N) (gs : IndexGroup N)
    (queries : Vector (Option (DoubleQueryRef N)) batchCount)
    (results : Vector (Option (List (Vector (PlainRing secondaryPlainModulus N) ctxtParts))) batchCount)
    (entries : List (PlainRing secondaryPlainModulus N)) : Prop where
  slots : ∀ b : Fin batchCount, slotParts fm fleets.databases[b] queries[b] = some results[b]
  parts : ∀ (b : Fin batchCount) q, queries[b] = some q → ∃ l, results[b] = some l ∧
    SlotParts fm fleets[b] q l
  length : entries.length = gs.groupOrder * simdCount
  entry : ∀ i < gs.groupOrder, ∀ j < simdCount,
    entries[simdCount * i + j]? = secondaryEntry (fleets.map List.length) results i j

section Primary
variable {fleets : Fleets fm N} {queries : Vector (Option (DoubleQueryRef N)) batchCount}

theorem exists_results (hfm : fm.Correct) (hN : 16 ≤ N) (hq : QueriesFit fleets gs queries) :
    ∃ results, (Vector.ofFnM fun k : Fin batchCount =>
      slotParts fm fleets.databases[k] queries[k]) = some results ∧
      ∀ b : Fin batchCount, (results[b] = none ↔ queries[b] = none) ∧
        ∀ q, queries[b] = some q → ∃ l, results[b] = some l ∧ SlotParts fm fleets[b] q l := by
  refine Loops.ofFnM_some (P := fun b result => (result = none ↔ queries[b] = none) ∧
    ∀ q, queries[b] = some q → ∃ l, result = some l ∧ SlotParts fm fleets[b] q l) fun b => ?_
  cases hb : queries[b] with
  | none => exact ⟨none, rfl, iff_of_true rfl rfl, fun q hq => by cases hq⟩
  | some q =>
    obtain ⟨l, hl, hparts⟩ := exists_slotParts hfm hN (hq b q hb)
    have hdb : fleets.databases[b] = fleets[b].map Shard.db := by simp [Fleets.databases]
    refine ⟨some l, hdb ▸ hl, iff_of_false (by simp) (by simp), ?_⟩
    rintro _ ⟨⟩
    exact ⟨l, rfl, hparts⟩

theorem batchOk (hfm : fm.Correct) (h4 : 4 ≤ N) (hf : FleetsFit fleets gs) :
    BatchOk fleets.databases gs := by
  refine ⟨?_, fun k db hdb => ?_, fun k => ?_⟩
  · simpa [Fleets.databases] using hf.nonempty
  · obtain ⟨s, -, rfl⟩ := List.mem_map.mp
      (show db ∈ fleets[k].map Shard.db by simpa [Fleets.databases] using hdb)
    exact (s.prepared hfm h4).2.1
  · simpa [Fleets.databases] using hf.size k

/-- **The first level** returns exactly when the lengths that are compared are
those of one slot. -/
theorem primaryPhase_spec (hfm : fm.Correct) (hN : 16 ≤ N) (hf : FleetsFit fleets gs)
    (hq : QueriesFit fleets gs queries) :
    ∃ results entries, FirstLevel fm fleets gs queries results entries ∧
      (Comparable queries fleets → primaryPhase fm fleets.databases queries gs = some entries) ∧
      (¬Comparable queries fleets → primaryPhase fm fleets.databases queries gs = none) := by
  obtain ⟨results, hresults, hslots⟩ := exists_results hfm hN hq
  have hlens : fleets.databases.map List.length = fleets.map List.length := by
    simp [Fleets.databases, Vector.map_map, Function.comp_def]
  have hlength : ∀ (b : Fin batchCount) l, results[b] = some l →
      l.length = simdCount * (fleets.map List.length)[b] := by
    intro b l hl
    obtain ⟨q, hqb⟩ := Option.ne_none_iff_exists'.mp (mt (hslots b).1.mpr (by rw [hl]; simp))
    obtain ⟨l', hl', hparts⟩ := (hslots b).2 q hqb
    obtain rfl := Option.some.inj (hl.symm.trans hl')
    simpa using hparts.length
  have hcmp : Comparable queries fleets ↔
      (results[0] = none → results[1] = none ∨
          (fleets.map List.length)[0] = (fleets.map List.length)[1]) := by
    rw [(hslots 0).1, (hslots 1).1, Positions.getElem_map, Positions.getElem_map]
    rfl
  choose entry hentry using fun i j => Option.isSome_iff_exists.mp (secondaryEntry_isSome hlength i j)
  set rows := (List.range gs.groupOrder).map fun i => (List.range simdCount).map (entry i) with hrows
  have hrow : ∀ row ∈ rows, row.length = simdCount := by
    intro row hrow
    obtain ⟨i, -, rfl⟩ := List.mem_map.mp hrow
    rw [List.length_map, List.length_range]
  have hrun : (List.range gs.groupOrder).mapM (fun i => (List.range simdCount).mapM fun j =>
      secondaryEntry (fleets.map List.length) results i j) = some rows :=
    Loops.mapM_eq_map fun i _ => Loops.mapM_eq_map fun j _ => hentry i j
  refine ⟨results, rows.flatten,
    ⟨fun b => Loops.ofFnM_getElem hresults b, fun b => (hslots b).2, ?_, ?_⟩, fun hc =>
    ?_, fun hc => ?_⟩
  · rw [Loops.length_flatten hrow, hrows, List.length_map, List.length_range, mul_comm]
  · intro i hi j hj
    rw [Loops.getElem?_flatten hrow hj, hentry, hrows]
    simp [hi, hj]
  · simp only [primaryPhase, if_pos (batchOk hfm (by omega) hf), hlens, hresults,
      Option.bind_eq_bind, Option.bind_some, (lengths_agree_iff hlength).mpr (hcmp.mp hc), if_true,
      hrun, Option.pure_def]
  · simp only [primaryPhase, if_pos (batchOk hfm (by omega) hf), hlens, hresults,
      Option.bind_eq_bind, Option.bind_some,
      if_neg (mt (lengths_agree_iff hlength).mp (mt hcmp.mpr hc))]

end Primary

/-! ## The second level -/

/-- Lane `p` of slot `b`. -/
def slotLane (b : Fin batchCount) (p : Fin ctxtParts) : Fin 8 := Fin.ofNat 8 (ctxtParts * b + p)

theorem slotLane_val (b : Fin batchCount) (p : Fin ctxtParts) :
    (slotLane b p).val = ctxtParts * b + p := by
  have hb : b.val < 2 := b.isLt
  have hp : p.val < 3 := p.isLt
  refine Nat.mod_eq_of_lt ?_
  simp only [ctxtParts]
  omega

omit [NeZero N] in
theorem secondaryQuery_slot {queries queries' : Vector (Option (DoubleQueryRef N)) batchCount}
    {b : Fin batchCount} (h : queries'[b] = queries[b]) (p : Fin ctxtParts) :
    secondaryQuery queries' (slotLane b p) = secondaryQuery queries (slotLane b p) := by
  have hdiv : (slotLane b p).val / ctxtParts = b.val := by
    rw [slotLane_val, Nat.mul_add_div (by decide), Nat.div_eq_of_lt p.isLt, Nat.add_zero]
  have hget : ∀ queries : Vector (Option (DoubleQueryRef N)) batchCount,
      queries[b.val]? = some queries[b] := fun queries =>
    Vector.getElem?_eq_getElem b.isLt
  simp only [secondaryQuery, hdiv, hget, h]

section Secondary
variable {fleets : Fleets fm N} {queries queries' : Vector (Option (DoubleQueryRef N)) batchCount}

omit [NeZero N] in
/-- The unused lanes have conjugated parts as well. -/
theorem secondaryQuery_isSome (hq : QueriesFit fleets gs queries) (hc : gs.requiresConj) (c : Fin 8) :
    (secondaryQuery queries c).qryConjB.isSome := by
  unfold secondaryQuery
  split
  next q h =>
    obtain ⟨hlt, hget⟩ := Vector.getElem?_eq_some_iff.mp (Option.join_eq_some_iff.mp h)
    exact (hq ⟨c.val / ctxtParts, hlt⟩ q hget).secondary hc
  next => rfl

/-- The lanes of a slot hold what its own results say. -/
theorem FirstLevel.entryLane_eq
    {results results' : Vector
      (Option (List (Vector (PlainRing secondaryPlainModulus N) ctxtParts))) batchCount}
    {entries entries' : List (PlainRing secondaryPlainModulus N)}
    (h : FirstLevel fm fleets gs queries results entries)
    (h' : FirstLevel fm fleets gs queries' results' entries') {b : Fin batchCount}
    (hb : queries'[b] = queries[b]) (p : Fin ctxtParts) :
    entryLane entries' (slotLane b p) = entryLane entries (slotLane b p) := by
  have hres : results'[b] = results[b] := by
    have := h'.slots b
    rw [hb, h.slots b] at this
    exact (Option.some.inj this).symm
  refine funext fun i => ?_
  rw [entryLane, entryLane, List.getD_eq_getElem?_getD, List.getD_eq_getElem?_getD]
  by_cases hi : i < gs.groupOrder
  · have hentry : entries[8 * i + (slotLane b p).val]? = _ := h.entry i hi _ (slotLane b p).isLt
    have hentry' : entries'[8 * i + (slotLane b p).val]? = _ := h'.entry i hi _ (slotLane b p).isLt
    rw [hentry, hentry', slotLane_val, secondaryEntry_slot, secondaryEntry_slot, hres]
  · have hlt := (slotLane b p).isLt
    have hlen := h.length
    have hlen' := h'.length
    simp only [simdCount] at hlen hlen' hlt
    rw [List.getElem?_eq_none (by omega), List.getElem?_eq_none (by omega)]

omit [NeZero N] in
/-- The second database is on a group of even order. -/
theorem FleetsFit.even (hf : FleetsFit fleets gs) {n : ℕ} (hpow : N = 2 ^ n) (h2 : 2 ≤ N) :
    gs.loopLen % 2 = 0 := by
  obtain ⟨b, h⟩ := gs.exists_shape hpow h2
  have hsize : fleets[0].length * 8 ≤ gs.groupOrder := hf.size 0
  have hpos := List.length_pos_iff.mpr hf.nonempty
  have hle := h.order_le
  rw [h.loopLen] at hle ⊢
  cases b with
  | zero =>
    rw [pow_zero] at hle
    omega
  | succ b => rw [pow_succ, Nat.mul_mod_left]

/-- The result of slot `b`, for what a lane replies. -/
def slotResult
    (reply : (ℕ → PlainRing secondaryPlainModulus N) → QueryRef N → CipherRing N × CipherRing N)
    (entries : List (PlainRing secondaryPlainModulus N))
    (queries : Vector (Option (DoubleQueryRef N)) batchCount) (b : Fin batchCount) :
    Option (Vector (CipherRing N × CipherRing N) ctxtParts) :=
  queries[b].map fun _ => Vector.ofFn fun p : Fin ctxtParts =>
    reply (entryLane entries (slotLane b p)) (secondaryQuery queries (slotLane b p))

/-- **The call**, where the first level returns: slot `b` has a function of its
own lanes and query. -/
theorem performBatchedDoublePir_eq (hfm : fm.Correct) (hN : 16 ≤ N) (hf : FleetsFit fleets gs) :
    ∃ reply, ∀ queries memory results entries, QueriesFit fleets gs queries →
      FirstLevel fm fleets gs queries results entries →
        primaryPhase fm fleets.databases queries gs = some entries →
      ∃ memory', performBatchedDoublePir fm fleets.databases queries gs memory =
        some (Vector.ofFn (slotResult reply entries queries), memory') := by
  obtain ⟨s, -⟩ := List.exists_mem_of_ne_nil _ hf.nonempty
  obtain ⟨hpow, hlog⟩ := s.rank hfm
  obtain ⟨reply, hreply⟩ := exists_laneReply hfm hpow hN hlog gs (hf.even hpow (by omega))
  refine ⟨reply, fun queries memory results entries hq h hrun => ?_⟩
  obtain ⟨memory', hsecond⟩ :=
    hreply entries (secondaryQuery queries) memory h.length (secondaryQuery_isSome hq)
  have hslot : ∀ b : Fin batchCount, (if queries[b].isSome then
      some (Vector.ofFn fun p : Fin ctxtParts =>
        reply (entryLane entries (slotLane b p)) (secondaryQuery queries (slotLane b p))) else none) =
      slotResult reply entries queries b := fun b => by
    unfold slotResult
    cases queries[b] with
    | none => rfl
    | some q => rfl
  refine ⟨memory', ?_⟩
  simp only [performBatchedDoublePir, hrun, hsecond, Option.bind_eq_bind, Option.bind_some]
  exact congrArg (fun v => some (v, memory')) (congrArg Vector.ofFn (funext hslot))

/-- A slot alone decides on its result. -/
theorem FirstLevel.slotResult_eq
    {results results' : Vector
      (Option (List (Vector (PlainRing secondaryPlainModulus N) ctxtParts))) batchCount}
    {entries entries' : List (PlainRing secondaryPlainModulus N)}
    (h : FirstLevel fm fleets gs queries results entries)
    (h' : FirstLevel fm fleets gs queries' results' entries') {b : Fin batchCount}
    (hb : queries'[b] = queries[b])
    (reply : (ℕ → PlainRing secondaryPlainModulus N) → QueryRef N → CipherRing N × CipherRing N) :
    slotResult reply entries' queries' b = slotResult reply entries queries b := by
  simp only [slotResult, hb, h.entryLane_eq h' hb, secondaryQuery_slot hb]

/-- A call that returns has compared the right lengths. -/
theorem comparable_of_returns (hfm : fm.Correct) (hN : 16 ≤ N) (hf : FleetsFit fleets gs)
    (hq : QueriesFit fleets gs queries) {memory : Array CompressedZnx8El}
    (h : (performBatchedDoublePir fm fleets.databases queries gs memory).isSome) :
    Comparable queries fleets := by
  obtain ⟨-, -, -, -, hfail⟩ := primaryPhase_spec hfm hN hf hq
  by_contra hc
  rw [performBatchedDoublePir, hfail hc] at h
  cases h

end Secondary

/-! ## The call -/

section Call
variable {fleets : Fleets fm N} {queries : Vector (Option (DoubleQueryRef N)) batchCount}

/-- Lane `primaryIdx % 8` of a shard's reply, as the client has it back, is
within the bound of the entry. -/
def FirstFits (fm : FeanorMath) (sk : CipherRing N) (s : Shard fm N) (q : DoubleQueryRef N)
    (primaryIdx : ℕ) : Prop :=
  ∀ a b ct entry, getA fm s.db = some a → performPir fm s.db q.primary = some b →
    switched fm (a (Fin.ofNat 8 primaryIdx), b (Fin.ofNat 8 primaryIdx)) = some ct →
      s.entries[primaryIdx]? = some entry →
    Bfv.PhaseFits sk entry ct

/-- The lanes of slot `b` are within the bound of row `j` of the second
database. -/
def SecondFits (fleets : Fleets fm N) (gs : IndexGroup N)
    (queries : Vector (Option (DoubleQueryRef N)) batchCount) (sk : CipherRing N)
    (b : Fin batchCount) (j : ℕ) (reply : Vector (CipherRing N × CipherRing N) ctxtParts) : Prop :=
  ∀ entries, primaryPhase fm fleets.databases queries gs = some entries → ∀ (p : Fin ctxtParts) part,
    entries[simdCount * j + slotLane b p]? = some part → Bfv.PhaseFits sk part reply[p]

/-- What a slot is promised: a reply exactly where there is a query, the same
one whatever the other slot asks, which decrypts to the entry asked for. -/
structure SlotAnswered (fleets : Fleets fm N) (gs : IndexGroup N)
    (queries : Vector (Option (DoubleQueryRef N)) batchCount) (b : Fin batchCount)
    (result : Option (Vector (CipherRing N × CipherRing N) ctxtParts)) : Prop where
  isNone : result = none ↔ queries[b] = none
  isolated : ∀ queries' memory results' memory', QueriesFit fleets gs queries' →
    queries'[b] = queries[b] →
    performBatchedDoublePir fm fleets.databases queries' gs memory = some (results', memory') →
      results'[b] = result
  decrypts : ∀ q reply, queries[b] = some q → result = some reply →
    ∀ (sk : CipherRing N) secondaryIdx s primaryIdx,
    fleets[b][secondaryIdx]? = some s → primaryIdx < s.indexGroup.groupOrder * simdCount →
    FirstFits fm sk s q primaryIdx →
    SecondFits fleets gs queries sk b (secondaryIdx * simdCount + primaryIdx % simdCount) reply →
    ∃ entry, s.entries[primaryIdx]? = some entry ∧ decDoublePir sk reply = some entry

/-- What a call is promised. -/
structure Answered (fleets : Fleets fm N) (gs : IndexGroup N)
    (queries : Vector (Option (DoubleQueryRef N)) batchCount) (memory : Array CompressedZnx8El) :
    Prop where
  encodes : ∀ a b : UInt64, a.toNat < 2 ^ 17 → b.toNat < 2 ^ 12 → (encodeCiphertextPlaintext a b).isSome
  returns : ∃ results memory', performBatchedDoublePir fm fleets.databases queries gs memory =
    some (results, memory') ∧
    ∀ b : Fin batchCount, SlotAnswered fleets gs queries b results[b]

/-- The row of an entry is that of its lane of the first level. -/
theorem FirstLevel.decrypts (hf : FleetsFit fleets gs)
    {results : Vector (Option
      (List (Vector (PlainRing secondaryPlainModulus N) ctxtParts))) batchCount}
    {entries : List (PlainRing secondaryPlainModulus N)}
    (h : FirstLevel fm fleets gs queries results entries)
    (hrun : primaryPhase fm fleets.databases queries gs = some entries) {b : Fin batchCount}
    {q : DoubleQueryRef N} (hq : queries[b] = some q) {sk : CipherRing N}
    {secondaryIdx primaryIdx : ℕ} {s : Shard fm N} (hs : fleets[b][secondaryIdx]? = some s)
    {entry : PlainRing primaryPlainModulus N} (hentry : s.entries[primaryIdx]? = some entry)
    (hfirst : FirstFits fm sk s q primaryIdx)
    {reply : Vector (CipherRing N × CipherRing N) ctxtParts}
    (hsecond : SecondFits fleets gs queries sk b
      (secondaryIdx * simdCount + primaryIdx % simdCount) reply) :
    decDoublePir sk reply = some entry := by
  obtain ⟨l, hl, hparts⟩ := h.parts b q hq
  obtain ⟨parts, hshard, hlanes⟩ := hparts.lanes secondaryIdx s hs
  obtain ⟨a, b', ha, hb, hct⟩ := hshard.encodes
  obtain ⟨ct, hswitched, hencodes⟩ := hct (Fin.ofNat 8 primaryIdx)
  refine hencodes sk reply entry (fun p => ?_) (hfirst a b' ct entry ha hb hswitched hentry)
  have hlt : secondaryIdx < fleets[b].length := (List.getElem?_eq_some_iff.mp hs).1
  have hsize := hf.size b
  have hrow : secondaryIdx * simdCount + primaryIdx % simdCount < simdCount * fleets[b].length := by
    simp only [simdCount]
    omega
  refine hsecond entries hrun p _ ?_
  rw [h.entry _ (hrow.trans_le (mul_comm simdCount _ ▸ hsize)) _ (slotLane b p).isLt, slotLane_val,
    secondaryEntry_slot, if_pos (by simpa using hrow), hl]
  have hlane := hlanes (Fin.ofNat 8 primaryIdx)
  rw [mul_comm] at hlane
  change (l[secondaryIdx * simdCount + primaryIdx % simdCount]?.bind fun parts => some parts[p]) = _
  rw [show l[secondaryIdx * simdCount + primaryIdx % simdCount]? =
    some (parts (Fin.ofNat 8 primaryIdx)) from hlane]
  rfl

/-- **Two-level retrieval and batch isolation**, for every pair of fleets and
every choice of queries, except a query in the second slot alone over fleets
of two lengths. -/
theorem answered_iff (hfm : fm.Correct) (hN : 16 ≤ N) (hf : FleetsFit fleets gs)
    (hq : QueriesFit fleets gs queries) (memory : Array CompressedZnx8El) :
    Answered fleets gs queries memory ↔ Comparable queries fleets := by
  constructor
  · intro h
    obtain ⟨results, memory', hcall, -⟩ := h.returns
    exact comparable_of_returns hfm hN hf hq (by rw [hcall]; rfl)
  · intro hc
    obtain ⟨results, entries, h, hrun, -⟩ := primaryPhase_spec hfm hN hf hq
    obtain ⟨reply, hreply⟩ := performBatchedDoublePir_eq hfm hN hf
    obtain ⟨memory', hcall⟩ := hreply queries memory results entries hq h (hrun hc)
    refine ⟨fun a b ha hb => ?_, _, memory', hcall, fun b => ⟨?_, ?_, ?_⟩⟩
    · obtain ⟨data, hdata, -⟩ := encodeCiphertextPlaintext_spec ha hb
      rw [hdata]
      rfl
    · simp [slotResult]
    · intro queries' memory₂ results₂ memory₂' hq' hb hcall₂
      have hc' := comparable_of_returns hfm hN hf hq' (by rw [hcall₂]; rfl)
      obtain ⟨results', entries', h', hrun', -⟩ := primaryPhase_spec hfm hN hf hq'
      obtain ⟨memory₃, hcall₃⟩ := hreply queries' memory₂ results' entries' hq' h' (hrun' hc')
      obtain ⟨rfl, -⟩ := Prod.mk.inj (Option.some.inj (hcall₃.symm.trans hcall₂))
      simpa using h.slotResult_eq h' hb reply
    · intro q result hb _ sk secondaryIdx s primaryIdx hs hidx hfirst hsecond
      obtain ⟨entry, hentry⟩ := s.getElem?_entries hfm hidx
      exact ⟨entry, hentry, h.decrypts hf (hrun hc) hb hs hentry hfirst hsecond⟩

/-- Queries of ones for both levels. -/
def onesDoubleQuery : DoubleQueryRef 16 := ⟨1, some 1, 1, some 1, onesQuery.gkB⟩

/-- A shard of rank 16 with the entries 0 to 127. -/
theorem exists_rangeShard :
    ∃ s : Shard FeanorMath.reference 16, s.indexGroup = IndexGroup.fullGroup 16 ∧
    s.entries = rangeEntries :=
  exists_shard FeanorMath.reference_correct (show 16 = 2 ^ 4 by norm_num) (by norm_num) (by decide)
    (IndexGroup.fullGroup 16) (rangeEntries_length.trans (mul_comm _ _))

/-- Fleets of two shards and of one. -/
def twoAndOne (s : Shard FeanorMath.reference 16) : Fleets FeanorMath.reference 16 := #v[[s, s], [s]]

theorem twoAndOne_fit (s : Shard FeanorMath.reference 16) :
    FleetsFit (twoAndOne s) (IndexGroup.fullGroup 16) where
  nonempty := List.cons_ne_nil _ _
  size := Fin.forall_fin_two.mpr ⟨show 2 * 8 ≤ 16 by decide, show 1 * 8 ≤ 16 by decide⟩

theorem onesDoubleQuery_fits {s : Shard FeanorMath.reference 16}
    (hs : s.indexGroup = IndexGroup.fullGroup 16) {fleet : List (Shard FeanorMath.reference 16)}
    (h : ∀ s' ∈ fleet, s' = s) :
    QueryFits fleet (IndexGroup.fullGroup 16) onesDoubleQuery where
  primary := fun s' hs' => by rw [h s' hs', hs]; decide
  secondary := fun _ => rfl

theorem answered_iff_first : ∃ s : Shard FeanorMath.reference 16, s.entries = rangeEntries ∧
    Answered (twoAndOne s) (IndexGroup.fullGroup 16) #v[some onesDoubleQuery, none] #[] := by
  obtain ⟨s, hg, hs⟩ := exists_rangeShard
  refine ⟨s, hs, (answered_iff FeanorMath.reference_correct (by norm_num)
    (twoAndOne_fit s) ?_ #[]).mpr fun h => ?_⟩
  · refine Fin.forall_fin_two.mpr ⟨?_, ?_⟩
    · rintro q ⟨⟩
      exact onesDoubleQuery_fits hg fun s' hs' => by simpa using (show s' ∈ [s, s] from hs')
    · rintro q ⟨⟩
  · cases h

/-- **A query in the second slot alone**, over fleets of two lengths, is not
answered: its results are compared with the length of the first fleet. -/
theorem not_answered_second : ∃ s : Shard FeanorMath.reference 16, s.entries = rangeEntries ∧
    FleetsFit (twoAndOne s) (IndexGroup.fullGroup 16) ∧
    QueriesFit (twoAndOne s) (IndexGroup.fullGroup 16) #v[none, some onesDoubleQuery] ∧
    ∀ memory, performBatchedDoublePir FeanorMath.reference
        (twoAndOne s).databases #v[none, some onesDoubleQuery]
        (IndexGroup.fullGroup 16) memory = none ∧
      ¬Answered (twoAndOne s) (IndexGroup.fullGroup 16) #v[none, some onesDoubleQuery] memory := by
  obtain ⟨s, hg, hs⟩ := exists_rangeShard
  have hq : QueriesFit (twoAndOne s) (IndexGroup.fullGroup 16) #v[none, some onesDoubleQuery] := by
    refine Fin.forall_fin_two.mpr ⟨?_, ?_⟩
    · rintro q ⟨⟩
    · rintro q ⟨⟩
      exact onesDoubleQuery_fits hg fun s' hs' => by simpa using (show s' ∈ [s] from hs')
  refine ⟨s, hs, twoAndOne_fit s, hq, fun memory => ?_⟩
  have hnone : performBatchedDoublePir FeanorMath.reference
      (twoAndOne s).databases #v[none, some onesDoubleQuery]
      (IndexGroup.fullGroup 16) memory = none := by
    rw [← Option.not_isSome_iff_eq_none]
    intro h
    rcases comparable_of_returns FeanorMath.reference_correct (by norm_num)
      (twoAndOne_fit s) hq h rfl with h | h
    · cases h
    · cases h
  refine ⟨hnone, fun h => ?_⟩
  obtain ⟨results, memory', hcall, -⟩ := h.returns
  rw [hnone] at hcall
  cases hcall

end Call

end DoublePir

end Dnspir
