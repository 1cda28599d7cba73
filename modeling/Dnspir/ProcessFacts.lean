/-
What a server makes of the bytes of its queries (`pir_wrapper::process_queries`).

* `takes_parseQuery`: the reader of a query takes as many bytes as the groups
  say, off any stream that has them.
* `processQueries_iff`: which bytes a server replies to rather than panic, how
  long the replies are, and what a reply depends on.
* `processQuery_spec`: so for one query alone.
-/
import Dnspir.PirWrapperFacts
import Dnspir.QueryNoise

namespace Dnspir

open PIRDatabase DoublePir

namespace PirWrapper

variable {fm : FeanorMath} {primary secondary : IndexGroup rank}

/-! ## The bytes of a query -/

theorem takes_decodeConj {bits : ℕ} (hbits : bits ≤ 64) (g : IndexGroup rank) :
    Takes (decodeConj bits g) (if g.requiresConj then 256 * bits else 0) fun x =>
      x.isSome = g.requiresConj := by
  unfold decodeConj
  cases hc : g.requiresConj with
  | false => exact Takes.pure rfl
  | true =>
    rw [if_pos rfl, if_pos rfl, map_eq_pure_bind]
    exact (takes_decodeElement hbits).map fun _ _ => rfl

/-- What the server hands to the evaluation. -/
def Query.toRef (qry : Query) : DoubleQueryRef rank :=
  ⟨qry.primary, qry.primaryConj, qry.secondary, qry.secondaryConj, qry.gk⟩

/-- **The reader of a query** takes its bytes off any stream that has them. -/
theorem takes_parseQuery (primary secondary : IndexGroup rank) :
    Takes (parseQuery primary secondary) (queryLength primary secondary) fun qry =>
      qry.primaryConj.isSome = primary.requiresConj ∧
          qry.secondaryConj.isSome = secondary.requiresConj := by
  have hlen : queryLength primary secondary = 256 * 50 + (256 * 50 + (256 * 34 +
      ((if primary.requiresConj then 256 * 34 else 0) +
          (256 * 34 + (if secondary.requiresConj then 256 * 34 else 0))))) := by
    simp only [queryLength, Nat.add_assoc]
  rw [hlen]
  exact (takes_decodeElement (by decide)).bind fun gk0 _ =>
    (takes_decodeElement (by decide)).bind fun gk1 _ =>
    (takes_decodeElement (by decide)).bind fun p _ =>
    (takes_decodeConj (by decide) primary).bind fun pc hpc =>
    (takes_decodeElement (by decide)).bind fun s _ =>
    (takes_decodeConj (by decide) secondary).map fun sc hsc => ⟨hpc, hsc⟩

/-- The closure that reads the query of one slot. -/
def readQuery (primary secondary : IndexGroup rank) (query : List UInt8) :
    Option (DoubleQueryRef rank) := do
  let (qry, _) ← parseQuery primary secondary query
  return qry.toRef

theorem readQuery_of_le {query : List UInt8} (h : queryLength primary secondary ≤ query.length) :
    ∃ q, readQuery primary secondary query = some q ∧ q.primaryQryConjB.isSome = primary.requiresConj ∧
      q.secondaryQryConjB.isSome = secondary.requiresConj := by
  have htakes := takes_parseQuery primary secondary query
  rw [if_pos h] at htakes
  obtain ⟨qry, hparse, hconj⟩ := htakes
  exact ⟨qry.toRef, by rw [readQuery, hparse]; rfl, hconj⟩

theorem readQuery_of_lt {query : List UInt8} (h : ¬queryLength primary secondary ≤ query.length) :
    readQuery primary secondary query = none := by
  have htakes := takes_parseQuery primary secondary query
  rw [if_neg h] at htakes
  rw [readQuery, htakes]
  rfl

/-! ## The fleets of a server -/

/-- The fleets of a server: on one primary group, the longer one in the first
slot. -/
structure Serves (fleets : Fleets fm rank) (primary secondary : IndexGroup rank) : Prop where
  nonempty : fleets[0] ≠ []
  length_le : fleets[1].length ≤ fleets[0].length
  indexGroup : ∀ b : Fin batchCount, ∀ s ∈ fleets[b], s.indexGroup = primary
  secondary : chooseIndexGroupSecondary fleets[0].length = some secondary

section Fleets
variable {fleets : Fleets fm rank} {queries : Vector (Option (List UInt8)) batchCount}

theorem Serves.fit (h : Serves fleets primary secondary) : FleetsFit fleets secondary := by
  have hle : fleets[0].length ≤ rank / simdCount := by
    have hs := h.secondary
    unfold chooseIndexGroupSecondary at hs
    split at hs
    next hle => exact hle
    next => cases hs
  obtain ⟨g, hg, hfits, -⟩ := chooseIndexGroupSecondary_spec hle
  obtain rfl := Option.some.inj (hg.symm.trans h.secondary)
  exact ⟨h.nonempty, Fin.forall_fin_two.mpr ⟨hfits, (Nat.mul_le_mul_right _ h.length_le).trans hfits⟩⟩

/-- Every query is long enough. -/
def AllLong (primary secondary : IndexGroup rank)
    (queries : Vector (Option (List UInt8)) batchCount) : Prop :=
  ∀ (b : Fin batchCount) query, queries[b] = some query → queryLength primary secondary ≤ query.length

/-- What the fleets are asked with. -/
structure Unpacked (fleets : Fleets fm rank) (primary secondary : IndexGroup rank)
    (queries : Vector (Option (List UInt8)) batchCount)
    (qs : Vector (Option (DoubleQueryRef rank)) batchCount) : Prop where
  run : (Vector.ofFnM fun i : Fin batchCount => queries[i].mapM (readQuery primary secondary)) = some qs
  isNone : ∀ b : Fin batchCount, qs[b] = none ↔ queries[b] = none
  fit : QueriesFit fleets secondary qs

theorem exists_unpacked (h : Serves fleets primary secondary)
    (hlong : AllLong primary secondary queries) :
    ∃ qs, Unpacked fleets primary secondary queries qs := by
  obtain ⟨qs, hrun, hqs⟩ :=
    Loops.ofFnM_some (f := fun i : Fin batchCount => queries[i].mapM (readQuery primary secondary))
    (P := fun b q => (q = none ↔ queries[b] = none) ∧ ∀ q', q = some q' →
        QueryFits fleets[b] secondary q') fun b => by
      cases hb : queries[b] with
      | none => exact ⟨none, rfl, iff_of_true rfl rfl, fun q' hq' => by cases hq'⟩
      | some query =>
        obtain ⟨q, hq, hp, hs⟩ := readQuery_of_le (hlong b query hb)
        refine ⟨some q, by rw [Option.mapM_some, hq]; rfl, iff_of_false (by simp) (by simp), ?_⟩
        rintro _ ⟨⟩
        exact ⟨fun s hmem => (h.indexGroup b s hmem ▸ hp).symm, fun hc => hs.trans hc⟩
  exact ⟨qs, hrun, fun b => (hqs b).1, fun b q hq => (hqs b).2 q hq⟩

theorem unpack_of_short (h : ¬AllLong primary secondary queries) :
    (Vector.ofFnM fun i : Fin batchCount => queries[i].mapM (readQuery primary secondary)) = none := by
  rw [← Option.not_isSome_iff_eq_none]
  intro hsome
  refine h fun b query hb => ?_
  by_contra hlt
  have hslot := Loops.isSome_ofFnM.mp hsome b
  rw [hb, Option.mapM_some, readQuery_of_lt hlt] at hslot
  cases hslot

/-- A call returns exactly when the lengths it compares are those of one slot;
its result in a slot is a function of the query there. -/
theorem exists_results_of_call (hfm : fm.Correct) (hf : FleetsFit fleets secondary)
    {qs : Vector (Option (DoubleQueryRef rank)) batchCount} (hq : QueriesFit fleets secondary qs)
    (memory : Array CompressedZnx8El) :
    (¬Comparable qs fleets → performBatchedDoublePir fm fleets.databases qs secondary memory = none) ∧
      (Comparable qs fleets → ∃ results memory',
        performBatchedDoublePir fm fleets.databases qs secondary memory = some (results, memory') ∧
        ∀ b : Fin batchCount, (results[b] = none ↔ qs[b] = none) ∧ ∀ qs' memory₂ results' memory₂',
          QueriesFit fleets secondary qs' → qs'[b] = qs[b] →
          performBatchedDoublePir fm fleets.databases qs' secondary memory₂ =
            some (results', memory₂') → results'[b] = results[b]) := by
  have hN : 16 ≤ rank := by decide
  refine ⟨fun hc => ?_, fun hc => ?_⟩
  · by_contra hne
    exact hc (comparable_of_returns hfm hN hf hq (Option.isSome_iff_ne_none.mpr hne))
  · obtain ⟨parts, entries, h, hrun, -⟩ := primaryPhase_spec hfm hN hf hq
    obtain ⟨reply, hreply⟩ := performBatchedDoublePir_eq hfm hN hf
    obtain ⟨memory', hcall⟩ := hreply qs memory parts entries hq h (hrun hc)
    refine ⟨_, memory', hcall,
      fun b => ⟨by simp [slotResult], fun qs' memory₂ results' memory₂' hq' hb hcall' => ?_⟩⟩
    obtain ⟨parts', entries', h', hrun', -⟩ := primaryPhase_spec hfm hN hf hq'
    have hc' := comparable_of_returns hfm hN hf hq' (by rw [hcall']; rfl)
    obtain ⟨memory₃, hcall₃⟩ := hreply qs' memory₂ parts' entries' hq' h' (hrun' hc')
    obtain ⟨rfl, -⟩ := Prod.mk.inj (Option.some.inj (hcall₃.symm.trans hcall'))
    simpa using h.slotResult_eq h' hb reply

/-- The replies of a batch, as bytes. -/
theorem exists_replyBytes (hfm : fm.Correct)
    (results : Vector (Option (Vector (CipherRing rank × CipherRing rank) ctxtParts)) batchCount) :
    ∃ replies, (Vector.ofFnM fun i : Fin batchCount => results[i].mapM (replyBytes fm)) = some replies ∧
      ∀ b : Fin batchCount, (replies[b] = none ↔ results[b] = none) ∧
        ∀ reply, replies[b] = some reply → reply.length = replyLength := by
  refine Loops.ofFnM_some (P := fun b reply => (reply = none ↔ results[b] = none) ∧
    ∀ bytes : List UInt8, reply = some bytes → bytes.length = replyLength) fun b => ?_
  cases hb : results[b] with
  | none => exact ⟨none, rfl, iff_of_true rfl rfl, fun reply h => by cases h⟩
  | some result =>
    obtain ⟨bytes, values, result', hread⟩ := parseReply_replyBytes hfm result
    refine ⟨some bytes, by rw [Option.mapM_some, hread.emit]; rfl, iff_of_false (by simp) (by simp), ?_⟩
    rintro _ ⟨⟩
    exact hread.length

/-- `process_queries`, past what it checks of the fleets. -/
theorem processQueries_eq (hfm : fm.Correct) (h : Serves fleets primary secondary)
    (queries : Vector (Option (List UInt8)) batchCount) (memory : Array CompressedZnx8El) :
    processQueries fm fleets.databases queries memory = (do
      let qs ← Vector.ofFnM fun i : Fin batchCount => queries[i].mapM (readQuery primary secondary)
      let (results, memory) ← performBatchedDoublePir fm fleets.databases qs secondary memory
      let bytes ← Vector.ofFnM fun i : Fin batchCount => results[i].mapM (replyBytes fm)
      return (bytes, memory)) := by
  have hlen : ∀ b : Fin batchCount, fleets.databases[b].length = fleets[b].length :=
    fun b => by simp [Fleets.databases]
  obtain ⟨s, shards, hfleet⟩ := List.exists_cons_of_ne_nil h.nonempty
  have hhead : fleets.databases[0].head? = some s.db := by
    have : fleets.databases[(0 : Fin batchCount)] = (fleets[(0 : Fin batchCount)]).map Shard.db :=
      by simp [Fleets.databases]
    rw [show fleets.databases[0] = _ from this, show fleets[(0 : Fin batchCount)] = _ from hfleet]
    rfl
  have hgroup : s.db.indexGroup = primary :=
    (s.prepared hfm (by decide)).1.trans (h.indexGroup 0 s (hfleet ▸ List.mem_cons_self))
  have hle : fleets.databases[0].length ≥ fleets.databases[1].length :=
    (hlen 1).trans_le (h.length_le.trans_eq (hlen 0).symm)
  have hsec : chooseIndexGroupSecondary fleets.databases[0].length = some secondary :=
    (hlen 0).symm ▸ h.secondary
  rw [processQueries, if_pos hle]
  simp only [hhead, hgroup, hsec, Option.bind_eq_bind, Option.bind_some]
  rfl

/-- The queries can be compared with the fleets: a query in the second slot
alone needs fleets of one length. -/
def BytesComparable (queries : Vector (Option (List UInt8)) batchCount) (fleets : Fleets fm rank) :
    Prop :=
  queries[0] = none → queries[1] = none ∨ fleets[0].length = fleets[1].length

theorem Unpacked.comparable_iff {qs : Vector (Option (DoubleQueryRef rank)) batchCount}
    (h : Unpacked fleets primary secondary queries qs) :
    Comparable qs fleets ↔ BytesComparable queries fleets := by
  have h0 : qs[0] = none ↔ queries[0] = none := h.isNone 0
  have h1 : qs[1] = none ↔ queries[1] = none := h.isNone 1
  rw [Comparable, BytesComparable, h0, h1]

/-- Where `process_queries` returns, and what it has gone through. -/
theorem processQueries_cases (hfm : fm.Correct) (h : Serves fleets primary secondary)
    (queries : Vector (Option (List UInt8)) batchCount) (memory : Array CompressedZnx8El) :
    (AllLong primary secondary queries → BytesComparable queries fleets →
      (processQueries fm fleets.databases queries memory).isSome) ∧
    ∀ replies memory', processQueries fm fleets.databases queries memory = some (replies, memory') →
      BytesComparable queries fleets ∧ AllLong primary secondary queries ∧ ∃ qs results m,
        Unpacked fleets primary secondary queries qs ∧
        performBatchedDoublePir fm fleets.databases qs secondary memory = some (results, m) ∧
        (Vector.ofFnM fun i : Fin batchCount => results[i].mapM (replyBytes fm)) = some replies := by
  rw [processQueries_eq hfm h]
  refine ⟨fun hlong hc => ?_, fun replies memory' hrun => ?_⟩
  · obtain ⟨qs, hqs⟩ := exists_unpacked h hlong
    obtain ⟨results, m, hcall, -⟩ :=
      (exists_results_of_call hfm h.fit hqs.fit memory).2 (hqs.comparable_iff.mpr hc)
    obtain ⟨replies, hreplies, -⟩ := exists_replyBytes hfm results
    simp only [hqs.run, hcall, hreplies, Option.bind_eq_bind, Option.bind_some]
    rfl
  · have hlong : AllLong primary secondary queries := by
      by_contra hshort
      rw [unpack_of_short hshort] at hrun
      cases hrun
    obtain ⟨qs, hqs⟩ := exists_unpacked h hlong
    rw [hqs.run, Option.bind_eq_bind, Option.bind_some] at hrun
    obtain ⟨⟨results, m⟩, hcall, hrun⟩ := Option.bind_eq_some_iff.mp hrun
    obtain ⟨replies', hreplies, hrun⟩ := Option.bind_eq_some_iff.mp hrun
    obtain ⟨rfl, -⟩ := Prod.mk.inj (Option.some.inj hrun)
    refine ⟨hqs.comparable_iff.mp ?_, hlong, qs, results, m, hqs, hcall, hreplies⟩
    exact comparable_of_returns hfm (by decide) h.fit hqs.fit (by rw [hcall]; rfl)

/-- **What a server makes of any bytes.** It replies, rather than panic, exactly
where every query has the bytes of its groups and the queries can be compared
with the fleets. Then there is a reply of one length for each query, and it is
the same whatever is asked in the other slot and whatever the buffer holds. -/
theorem processQueries_iff (hfm : fm.Correct) (h : Serves fleets primary secondary)
    (queries : Vector (Option (List UInt8)) batchCount) (memory : Array CompressedZnx8El) :
    ((processQueries fm fleets.databases queries memory).isSome ↔
      AllLong primary secondary queries ∧ BytesComparable queries fleets) ∧
    ∀ replies memory', processQueries fm fleets.databases queries memory = some (replies, memory') →
      ∀ b : Fin batchCount, (replies[b] = none ↔ queries[b] = none) ∧
        (∀ reply, replies[b] = some reply → reply.length = replyLength) ∧
        ∀ queries' memory₂ replies' memory₂', queries'[b] = queries[b] →
          processQueries fm fleets.databases queries' memory₂ = some (replies', memory₂') →
            replies'[b] = replies[b] := by
  obtain ⟨hreturns, hcases⟩ := processQueries_cases hfm h queries memory
  refine ⟨⟨fun hsome => ?_, fun ⟨hlong, hc⟩ => hreturns hlong hc⟩, fun replies memory' hrun b => ?_⟩
  · obtain ⟨⟨replies, memory'⟩, hrun⟩ := Option.isSome_iff_exists.mp hsome
    obtain ⟨hc, hlong, -⟩ := hcases replies memory' hrun
    exact ⟨hlong, hc⟩
  · obtain ⟨hc, -, qs, results, m, hqs, hcall, hreplies⟩ := hcases replies memory' hrun
    obtain ⟨results₁, m₁, hcall₁, hslots⟩ :=
      (exists_results_of_call hfm h.fit hqs.fit memory).2 (hqs.comparable_iff.mpr hc)
    obtain ⟨rfl, -⟩ := Prod.mk.inj (Option.some.inj (hcall.symm.trans hcall₁))
    obtain ⟨replies₁, hreplies₁, hbytes⟩ := exists_replyBytes hfm results
    obtain rfl := Option.some.inj (hreplies.symm.trans hreplies₁)
    refine ⟨(hbytes b).1.trans ((hslots b).1.trans (hqs.isNone b)), (hbytes b).2,
      fun queries' memory₂ replies' memory₂' hb hrun' => ?_⟩
    obtain ⟨-, -, qs', results', m', hqs', hcall', hreplies'⟩ :=
      (processQueries_cases hfm h queries' memory₂).2 replies' memory₂' hrun'
    have hq : qs'[b] = qs[b] := by
      have hread := Loops.ofFnM_getElem hqs'.run b
      rw [hb, Loops.ofFnM_getElem hqs.run b] at hread
      exact (Option.some.inj hread).symm
    have hresult : results'[b] = results[b] := (hslots b).2 qs' memory₂ results' m' hqs'.fit hq hcall'
    have hreply := Loops.ofFnM_getElem hreplies' b
    rw [hresult, Loops.ofFnM_getElem hreplies b] at hreply
    exact (Option.some.inj hreply).symm

end Fleets

/-- `process_query` takes its fleet for both slots, and asks in the first. -/
def twice (fleet : List (Shard fm rank)) : Fleets fm rank := #v[fleet, fleet]

def firstSlot {α : Type} (query : α) : Vector (Option α) batchCount := #v[some query, none]

theorem databases_twice (fleet : List (Shard fm rank)) :
    (twice fleet).databases = #v[fleet.map Shard.db, fleet.map Shard.db] := by
  change Vector.map (List.map Shard.db) (#v[fleet, fleet] : Vector (List (Shard fm rank)) 2) = _
  simp

theorem firstSlot_zero {α : Type} (query : α) :
    (firstSlot query)[(0 : Fin batchCount)] = some query := rfl

theorem eq_of_firstSlot {α : Type} {query : α} :
    ∀ (b : Fin batchCount) query', (firstSlot query)[b] = some query' → query' = query :=
  Fin.forall_fin_two.mpr ⟨fun _ he => (Option.some.inj he).symm, fun _ he => by cases he⟩

theorem eq_firstSlot {α : Type} {v : Vector (Option α) batchCount} {query : α}
    (h0 : v[(0 : Fin batchCount)] = some query) (h1 : v[(1 : Fin batchCount)] = none) :
    v = firstSlot query :=
  Vector.ext fun k hk => by
    have hk : k < 2 := hk
    interval_cases k
    · exact h0
    · exact h1

theorem serves_twice {fleet : List (Shard fm rank)} (hne : fleet ≠ [])
    (hgroup : ∀ s ∈ fleet, s.indexGroup = primary)
    (hsec : chooseIndexGroupSecondary fleet.length = some secondary) :
    Serves (twice fleet) primary secondary where
  nonempty := hne
  length_le := le_rfl
  indexGroup := Fin.forall_fin_two.mpr ⟨hgroup, hgroup⟩
  secondary := hsec

theorem exists_serves : ∃ (s : Shard FeanorMath.reference rank) (secondary : IndexGroup rank),
    Serves (twice [s]) (IndexGroup.fullGroup rank) secondary := by
  obtain ⟨secondary, hsec, -⟩ := chooseIndexGroupSecondary_spec (show 1 ≤ rank / simdCount by decide)
  obtain ⟨s, hgroup, -⟩ := exists_shard FeanorMath.reference_correct (show rank = 2 ^ 11 by decide)
    (by decide) (by decide)
    (IndexGroup.fullGroup rank)
    (show (List.replicate ((IndexGroup.fullGroup rank).groupOrder * simdCount) 0).length =
      _ from List.length_replicate)
  exact ⟨s, secondary, serves_twice (List.cons_ne_nil _ _)
    (fun s' hs' => List.mem_singleton.mp hs' ▸ hgroup) hsec⟩

/-- An empty query panics, and one of the greatest length is answered. -/
theorem processQueries_iff_lengths : ∃ s : Shard FeanorMath.reference rank,
    processQueries FeanorMath.reference (twice [s]).databases (firstSlot []) #[] = none ∧
    (processQueries FeanorMath.reference (twice [s]).databases
      (firstSlot (List.replicate 60416 7)) #[]).isSome := by
  obtain ⟨s, secondary, h⟩ := exists_serves
  refine ⟨s, Option.not_isSome_iff_eq_none.mp fun hsome => ?_, ?_⟩
  · have hlong := ((processQueries_iff FeanorMath.reference_correct h
      (firstSlot []) #[]).1.mp hsome).1 0 [] (firstSlot_zero [])
    rw [List.length_nil, queryLength] at hlong
    omega
  · refine (processQueries_iff FeanorMath.reference_correct h _ #[]).1.mpr
      ⟨fun b query hq => ?_, fun _ => .inl rfl⟩
    obtain rfl := eq_of_firstSlot b query hq
    rw [List.length_replicate, queryLength]
    split <;> split <;> decide

/-! ## One query -/

/-- What a reply to one query has gone through. -/
structure Replied (fleet : List (Shard fm rank)) (primary secondary : IndexGroup rank)
    (query : List UInt8) (memory : Array CompressedZnx8El) (q : DoubleQueryRef rank)
    (results : Vector (Option (Vector (CipherRing rank × CipherRing rank) ctxtParts)) batchCount)
    (result : Vector (CipherRing rank × CipherRing rank) ctxtParts) (reply : List UInt8)
    (m : Array CompressedZnx8El) : Prop where
  read : readQuery primary secondary query = some q
  fit : QueriesFit (twice fleet) secondary (firstSlot q)
  call : performBatchedDoublePir fm (twice fleet).databases (firstSlot q) secondary memory =
    some (results, m)
  slot : results[(0 : Fin batchCount)] = some result
  written : replyBytes fm result = some reply
  run : processQuery fm (fleet.map Shard.db) query memory = some (reply, m)

/-- **One query**: its bytes decide whether there is a reply, which is that of
the second level. -/
theorem processQuery_spec (hfm : fm.Correct) {fleet : List (Shard fm rank)}
    (h : Serves (twice fleet) primary secondary) (query : List UInt8)
    (memory : Array CompressedZnx8El) :
    (¬queryLength primary secondary ≤ query.length →
      processQuery fm (fleet.map Shard.db) query memory = none) ∧
    (queryLength primary secondary ≤ query.length → ∃ q results result reply m,
      Replied fleet primary secondary query memory q results result reply m) := by
  have hrun := processQueries_eq hfm h (firstSlot query) memory
  have hprocess : processQuery fm (fleet.map Shard.db) query memory =
      (processQueries fm (twice fleet).databases (firstSlot query) memory).bind fun p =>
          p.1[0].bind fun r => some (r, p.2) := by
    rw [databases_twice]
    rfl
  rw [hprocess, hrun]
  refine ⟨fun hshort => ?_, fun hlong => ?_⟩
  · rw [unpack_of_short fun hall => hshort (hall 0 query (firstSlot_zero query))]
    rfl
  · obtain ⟨q, hq, -⟩ := readQuery_of_le hlong
    obtain ⟨qs, hqs⟩ := exists_unpacked h fun b query' he => eq_of_firstSlot b query' he ▸ hlong
    obtain rfl : qs = firstSlot q := by
      have h0 : some <$> readQuery primary secondary query = some qs[(0 : Fin batchCount)] :=
        Loops.ofFnM_getElem hqs.run 0
      rw [hq] at h0
      exact eq_firstSlot (Option.some.inj h0).symm ((hqs.isNone 1).mpr rfl)
    obtain ⟨results, m, hcall, hslots⟩ := (exists_results_of_call hfm h.fit hqs.fit memory).2
      fun hnone => by cases hnone
    obtain ⟨replies, hreplies, hbytes⟩ := exists_replyBytes hfm results
    obtain ⟨result, hresult⟩ :=
      Option.ne_none_iff_exists'.mp (mt (hslots 0).1.mp (by rw [firstSlot_zero]; simp))
    obtain ⟨reply, hreply⟩ := Option.ne_none_iff_exists'.mp (mt (hbytes 0).1.mp (by rw [hresult]; simp))
    have hwritten : some <$> replyBytes fm result = some (some reply) := by
      have h0 := Loops.ofFnM_getElem hreplies 0
      rw [hresult, hreply] at h0
      exact h0
    refine ⟨q, results, result, reply, m, hq, hqs.fit, hcall, hresult, by simpa using hwritten, ?_⟩
    rw [hprocess, hrun, hqs.run]
    simp only [hcall, hreplies, Option.bind_eq_bind, Option.bind_some, Option.pure_def]
    exact congrArg (fun r => r.bind fun r => some (r, m)) hreply

/-- The noise of a query for entry `pri` of shard `sh` fits: in the reply of the
shard, and in that of the second level as the client has it back. -/
def NoiseFits (fleet : List (Shard fm rank)) (primary secondary : IndexGroup rank)
    (sk : CipherRing rank) (query : List UInt8) (sh pri : ℕ) : Prop :=
  ∀ q results result reply m, Replied fleet primary secondary query #[] q results result reply m →
    (∀ s, fleet[sh]? = some s → FirstFits fm sk s q pri) ∧
      ∀ reply' rest, parseReply reply = some (reply', rest) →
        SecondFits (twice fleet) secondary (firstSlot q) sk 0 (sh * simdCount + pri % simdCount) reply'

/-- **A reply whose noise fits** decrypts to the entry. -/
theorem Replied.decrypts (hfm : fm.Correct) {fleet : List (Shard fm rank)}
    (h : Serves (twice fleet) primary secondary) {query : List UInt8} {q : DoubleQueryRef rank}
    {results : Vector (Option (Vector (CipherRing rank × CipherRing rank) ctxtParts)) batchCount}
    {result : Vector (CipherRing rank × CipherRing rank) ctxtParts} {reply : List UInt8}
    {m : Array CompressedZnx8El}
    (hr : Replied fleet primary secondary query #[] q results result reply m) {sk : CipherRing rank}
    {sh pri : ℕ} (hnoise : NoiseFits fleet primary secondary sk query sh pri) {s : Shard fm rank}
    (hs : fleet[sh]? = some s) {entry : PlainRing primaryPlainModulus rank}
    (hentry : s.entries[pri]? = some entry) :
    reply.length = replyLength ∧ ∃ reply', parseReply reply = some (reply', []) ∧
      decDoublePir sk reply' = some entry := by
  obtain ⟨bytes, values, reply', hread⟩ := parseReply_replyBytes hfm result
  obtain rfl := Option.some.inj (hr.written.symm.trans hread.emit)
  obtain ⟨hfirst, hsecond⟩ := hnoise q results result reply m hr
  obtain ⟨parts, entries, hlevel, hrun, -⟩ := primaryPhase_spec hfm (by decide) h.fit hr.fit
  have hc := comparable_of_returns hfm (by decide) h.fit hr.fit (by rw [hr.call]; rfl)
  exact ⟨hread.length, reply', hread.parse,
    hlevel.decrypts h.fit (hrun hc) (firstSlot_zero q) hs hentry (hfirst s hs)
    (hsecond reply' [] hread.parse)⟩

/-- A level of a query leaves its replies a noise there is room for, whatever
the entries, with that of the switch to 17 and 12 bits. -/
def LevelFits (fm : FeanorMath) (g : IndexGroup rank) (useSeeds : UsedSeeds) (query : QueryRef rank)
    (sk : CipherRing rank) (idx : ℕ) : Prop :=
  ∀ entries c ct ct', DoublePir.switched fm ct = some ct' → Negacyclic.Bounded (noiseRoom g)
    (replyNoise fm g useSeeds (entryElement g entries c) query sk idx + Bfv.switchNoise sk ct ct')

/-- **The noise of a query**, as the server reads it. -/
theorem noiseFits_of_levels (hfm : fm.Correct) {fleet : List (Shard fm rank)}
    (h : Serves (twice fleet) primary secondary) (heven : primary.loopLen % 2 = 0)
    {query : List UInt8} {q : DoubleQueryRef rank}
    (hread : readQuery primary secondary query = some q) {sk : CipherRing rank} {sh pri : ℕ}
    (hsh : sh < fleet.length) (hpri : pri < primary.groupOrder * simdCount)
    (hfirst : LevelFits fm primary .firstSet q.primary sk (pri / simdCount))
    (hsecond : LevelFits fm secondary .secondSet q.secondary sk (sh * simdCount + pri % simdCount)) :
    NoiseFits fleet primary secondary sk query sh pri := by
  have hN : 16 ≤ rank := by decide
  intro q' results result reply m hr
  obtain rfl := Option.some.inj (hread.symm.trans hr.read)
  refine ⟨fun s hs => ?_, fun reply' rest hparse => ?_⟩
  · have hgroup : s.indexGroup = primary := h.indexGroup 0 s (List.mem_of_getElem? hs)
    have hconj : s.indexGroup.requiresConj = q.primaryQryConjB.isSome :=
      (hr.fit 0 q (firstSlot_zero q)).primary s (List.mem_of_getElem? hs)
    subst hgroup
    exact firstFits_of_noise hfm hN heven (fun hc => hconj ▸ hc) hpri fun a b ct _ _ hct =>
      hfirst s.entries (Fin.ofNat 8 pri) (a (Fin.ofNat 8 pri), b (Fin.ofNat 8 pri)) ct hct
  · obtain ⟨bytes, values, reply₁, hrr⟩ := parseReply_replyBytes hfm result
    obtain rfl := Option.some.inj (hr.written.symm.trans hrr.emit)
    obtain ⟨rfl, -⟩ := Prod.mk.inj (Option.some.inj (hrr.parse.symm.trans hparse))
    intro entries hentries p part hpart
    obtain ⟨entries', hentries', hslots⟩ := call_noisy hfm hN h.fit hr.fit hr.call
    obtain rfl := Option.some.inj (hentries.symm.trans hentries')
    obtain ⟨result', hresult', hnoisy⟩ := hslots 0 q (firstSlot_zero q)
    obtain rfl := Option.some.inj (hr.slot.symm.trans hresult')
    have hj : sh * simdCount + pri % simdCount < secondary.groupOrder := by
      have hsize : fleet.length * simdCount ≤ secondary.groupOrder := h.fit.size 0
      simp only [simdCount] at hsize ⊢
      omega
    have hlane := hnoisy p sk _ hj
    have hpart' : entries[8 * (sh * simdCount + pri % simdCount) + (slotLane 0 p).val]? =
      some part := hpart
    rw [List.getD_eq_getElem?_getD, hpart'] at hlane
    have hswitched : DoublePir.switched fm result[p] = some reply₁[p] := by
      obtain ⟨hw1, hw2⟩ := hrr.written p
      obtain ⟨hd1, hd2⟩ := hrr.decoded p
      simp only [DoublePir.switched, primaryALog2ResponseQ, primaryBLog2ResponseQ, hw1, hw2, hd1,
        hd2, Option.bind_eq_bind, Option.bind_some, Option.pure_def]
    exact phaseFits_of_noisy (by decide) (hlane.switch reply₁[p])
      (hsecond entries (slotLane 0 p) result[p] reply₁[p] hswitched)

/-! ## The errors of a client -/

/-- The errors in the query a server reads: those it was encrypted with, and
what its modulus switch has moved. -/
def seenErrors (errors : QueryErrors rank) (qry qry' : Query) : QueryErrors rank where
  gk k := errors.gk k + (qry'.gk[k] - qry.gk[k])
  primary := errors.primary + (qry'.primary - qry.primary)
  primaryConj := errors.primaryConj + (qry'.primaryConj.getD 0 - qry.primaryConj.getD 0)
  secondary := errors.secondary + (qry'.secondary - qry.secondary)
  secondaryConj := errors.secondaryConj + (qry'.secondaryConj.getD 0 - qry.secondaryConj.getD 0)

/-- These errors keep within the budgets of both levels, with the switch of a
reply. -/
structure ErrorsCarry (primary secondary : IndexGroup rank) (errors : QueryErrors rank)
    (sk : CipherRing rank) : Prop where
  primary : errorBudget primary errors.gk errors.primary errors.primaryConj + switchBudget sk ≤
    noiseRoom primary
  secondary : errorBudget secondary errors.gk errors.secondary errors.secondaryConj + switchBudget sk ≤
    noiseRoom secondary

/-- **The noise of a query**, from what its client has drawn. -/
theorem noiseFits_of_errors (hfm : fm.Correct) {fleet : List (Shard fm rank)}
    (h : Serves (twice fleet) primary secondary) (heven : primary.loopLen % 2 = 0)
    {errors : QueryErrors rank} {sk : CipherRing rank} {sh pri : ℕ}
    {qry1 qry2 : CipherRing rank × Option (CipherRing rank)} {gk : Vector (CipherRing rank) 2}
    (henc : encDoublePir fm primary secondary errors sk pri sh = some (qry1, qry2, gk))
    {bytes : List UInt8} {qry' : Query}
    (hparse : parseQuery primary secondary bytes = some (qry', [])) (hsh : sh < fleet.length)
    (hcarry : ErrorsCarry primary secondary
      (seenErrors errors ⟨gk, qry1.1, qry1.2, qry2.1, qry2.2⟩ qry') sk) :
    NoiseFits fleet primary secondary sk bytes sh pri := by
  obtain ⟨hpri, hgk, h1, h2⟩ := levels_of_encDoublePir henc
  have hpow : rank = 2 ^ log2N := by decide
  have hread : readQuery primary secondary bytes = some qry'.toRef := by
    rw [readQuery, hparse]
    rfl
  refine noiseFits_of_levels hfm h heven hread hsh hpri (fun entries c ct ct' hct => ?_)
    fun entries c ct ct' hct => ?_
  · rw [replyNoise_eq hpow hgk h1]
    exact levelNoise_switch_fits hfm hpow .firstSet entries c hcarry.primary hct
  · rw [replyNoise_eq hpow hgk h2]
    exact levelNoise_switch_fits hfm hpow .secondSet entries c hcarry.secondary hct

end PirWrapper

end Dnspir
