/-
Where a name is looked up (`bucket::slot`, over the shape of `pir_wrapper`).

`slot_in_range`: for every number of entries a server may announce, every name
has a slot of the fleet, the query for it is made, and the server reads the
ciphertexts the client has written.
-/
import Dnspir.Dns.Bucket
import Dnspir.DoublePirFacts
import Dnspir.PirWrapperFacts

namespace Dnspir

open PIRDatabase DoublePir PirWrapper

namespace Dns

theorem slotHash_lt (name : Name) {numEntries : ℕ} (h : 0 < numEntries) (salt : UInt64) :
    slotHash name numEntries salt < numEntries := Nat.mod_lt _ h

theorem Shape.entriesPerShard {numEntries : ℕ} {primary secondary : IndexGroup rank} {shards : ℕ}
    (hs : Shape numEntries primary secondary shards) :
    entriesPerShard numEntries = some (simdCount * primary.groupOrder) := by
  rw [Dns.entriesPerShard, hs.shape]
  rfl

/-- The two indices are the digits of the hash. -/
theorem slot_eq {numEntries : ℕ} {primary secondary : IndexGroup rank} {shards : ℕ}
    (hs : Shape numEntries primary secondary shards) (h : 0 < numEntries) (name : Name)
    (salt : UInt64) :
    slot name numEntries salt = some (slotHash name numEntries salt / (simdCount * primary.groupOrder),
      slotHash name numEntries salt % (simdCount * primary.groupOrder)) := by
  have hpos : simdCount * primary.groupOrder ≠ 0 := (Nat.mul_pos (by decide) hs.primary_pos).ne'
  rw [slot, if_pos h, Shape.entriesPerShard hs, Option.bind_eq_bind, Option.bind_some, if_pos hpos]
  rfl

/-- The slots of the shards cover the hashes. -/
theorem slot_lt_shards {numEntries : ℕ} {primary secondary : IndexGroup rank} {shards : ℕ}
    (hs : Shape numEntries primary secondary shards) {s : ℕ} (h : s < numEntries) :
    s / (simdCount * primary.groupOrder) < shards := by
  have hpos : 0 < simdCount * primary.groupOrder := Nat.mul_pos (by decide) hs.primary_pos
  refine Nat.div_lt_of_lt_mul (h.trans_le ?_)
  rw [mul_comm, hs.shards_eq]
  exact le_divCeil_mul hpos

/-- With one slot every name is in it. -/
theorem slot_one (name : Name) (salt : UInt64) : slot name 1 salt = some (0, 0) := by
  obtain ⟨primary, secondary, shards, hs⟩ := exists_shape (le_refl 1) (by decide : 1 ≤ rank * rank)
  have hzero : slotHash name 1 salt = 0 := Nat.lt_one_iff.mp (slotHash_lt name Nat.one_pos salt)
  rw [slot_eq hs (le_refl 1), hzero, Nat.zero_div, Nat.zero_mod]

/-- What is asserted of the fleets of a batch. -/
theorem Shape.batchOk {numEntries t : ℕ} {primary secondary : IndexGroup rank} {shards : ℕ}
    (hs : Shape numEntries primary secondary shards) (h : 0 < numEntries)
    {databases : Vector (List (PIRDatabase rank t)) batchCount} (h0 : databases[0].length = shards)
    (h1 : databases[1].length ≤ shards)
    (hseeds : ∀ k : Fin batchCount, ∀ db ∈ databases[k], db.useSeeds = .firstSet) :
    BatchOk databases secondary := by
  have hpos : 0 < shards := (Nat.zero_le _).trans_lt (slot_lt_shards hs h)
  refine ⟨List.ne_nil_of_length_pos (h0 ▸ hpos), hseeds, fun k => ?_⟩
  refine le_trans (Nat.mul_le_mul_right simdCount ?_) hs.fits
  fin_cases k
  · exact h0.le
  · exact h1

/-- **Client and server derive one shape, and every index is in range.** -/
theorem slot_in_range {fm : FeanorMath} (hfm : fm.Correct) {numEntries : ℕ} (h1 : 1 ≤ numEntries)
    (h2 : numEntries ≤ rank * rank) :
    ∃ primary secondary shards, getDatabaseShape numEntries = some (primary, secondary) ∧
      numDatabases numEntries = some shards ∧ chooseIndexGroupSecondary shards = some secondary ∧
      entriesPerShard numEntries = some (simdCount * primary.groupOrder) ∧
      (∀ {t : ℕ} (databases : Vector (List (PIRDatabase rank t)) batchCount),
        databases[0].length = shards →
        databases[1].length ≤ shards →
          (∀ k : Fin batchCount, ∀ db ∈ databases[k], db.useSeeds = .firstSet) →
        BatchOk databases secondary) ∧
      ∀ (name : Name) (salt : UInt64), ∃ sec pri, slot name numEntries salt = some (sec, pri) ∧
        sec < shards ∧
        pri < simdCount * primary.groupOrder ∧
        sec * (simdCount * primary.groupOrder) + pri = slotHash name numEntries salt ∧
        slotHash name numEntries salt < numEntries ∧
        ∀ (errors : QueryErrors rank) (sk : CipherRing rank), ∃ qry1 qry2 gk bytes qry',
          encDoublePir fm primary secondary errors sk pri sec = some (qry1, qry2, gk) ∧
          queryBytes fm primary secondary ⟨gk, qry1.1, qry1.2, qry2.1, qry2.2⟩ = some bytes ∧
          parseQuery primary secondary bytes = some (qry', []) ∧
          qry1.2.isSome = primary.requiresConj ∧ qry'.primaryConj.isSome = primary.requiresConj ∧
          qry2.2.isSome = secondary.requiresConj ∧
            qry'.secondaryConj.isSome = secondary.requiresConj := by
  obtain ⟨primary, secondary, shards, hs⟩ := exists_shape h1 h2
  refine ⟨primary, secondary, shards, hs.shape, hs.numDatabases, hs.fleet, Shape.entriesPerShard hs,
    fun _ h0 hlen hseeds => Shape.batchOk hs h1 h0 hlen hseeds, fun name salt => ?_⟩
  set s := slotHash name numEntries salt with hsdef
  have hlt : s < numEntries := slotHash_lt name h1 salt
  have hpos : 0 < simdCount * primary.groupOrder := Nat.mul_pos (by decide) hs.primary_pos
  have hsec := slot_lt_shards hs hlt
  have hpri : s % (simdCount * primary.groupOrder) < simdCount * primary.groupOrder := Nat.mod_lt _ hpos
  refine ⟨_, _, slot_eq hs h1 name salt, hsec, hpri, Nat.div_add_mod' _ _, hlt, fun errors sk => ?_⟩
  have hpri' : s % (simdCount * primary.groupOrder) < primary.groupOrder * simdCount := by
    rwa [mul_comm primary.groupOrder]
  have hfits : s / (simdCount * primary.groupOrder) < secondary.groupOrder / simdCount :=
    hsec.trans_le ((Nat.le_div_iff_mul_le (by decide)).mpr hs.fits)
  obtain ⟨qry1, qry2, gk, henc, hc1, hc2⟩ :=
    encDoublePir_spec (n := log2N) rfl (by decide) fm primary secondary errors sk
    hpri' hfits
  obtain ⟨bytes, qry', hb, -, hread, hsw⟩ := parseQuery_queryBytes hfm
    (show (Query.mk gk qry1.1 qry1.2 qry2.1 qry2.2).primaryConj.isSome = _ from hc1) hc2
  exact ⟨qry1, qry2, gk, bytes, qry', henc, hb, hread.all, hc1,
    (Loops.isSome_of_rel hsw.primaryConj).symm.trans hc1, hc2,
    (Loops.isSome_of_rel hsw.secondaryConj).symm.trans hc2⟩

/-- Past both boundaries, where the query has all its conjugates. -/
theorem slot_in_range_conj : ∃ primary secondary shards sec pri qry1 qry2 gk,
    getDatabaseShape 3000000 = some (primary, secondary) ∧ numDatabases 3000000 = some shards ∧
    slot "org".toList 3000000 7 = some (sec, pri) ∧ sec < shards ∧
    encDoublePir FeanorMath.reference primary secondary ⟨fun _ => 1, 1, 1, 1, 1⟩ 1 pri sec =
      some (qry1, qry2, gk) ∧
    qry1.2.isSome ∧ qry2.2.isSome := by
  obtain ⟨primary, secondary, shards, hshape, hn, -, -, -, h⟩ :=
    @slot_in_range _ FeanorMath.reference_correct 3000000 (by decide) (by decide)
  have hdec : (getDatabaseShape 3000000).map (fun p => (p.1.requiresConj, p.2.requiresConj)) =
      some (true, true) := by
    decide +kernel
  rw [hshape, Option.map_some, Option.some.injEq, Prod.mk.injEq] at hdec
  obtain ⟨sec, pri, hslot, hsec, -, -, -, henc⟩ := h "org".toList 7
  obtain ⟨qry1, qry2, gk, -, -, henc, -, -, hc1, -, hc2, -⟩ := henc ⟨fun _ => 1, 1, 1, 1, 1⟩ 1
  exact ⟨primary, secondary, shards, sec, pri, qry1, qry2, gk, hshape, hn, hslot, hsec, henc,
    hc1.trans hdec.1, hc2.trans hdec.2⟩

end Dns

end Dnspir
