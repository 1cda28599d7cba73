/-
What a server in PIR mode can do to the client (`client::TcpDnsServer::query`).

`query_isSome_iff`: every integer of the `INFO` reply and every reply to a
query, and which of them the client survives.
-/
import Dnspir.Dns.BucketFacts
import Dnspir.Dns.Client
import Dnspir.Dns.SlotFacts

namespace Dnspir

open DoublePir PirWrapper

namespace Dns

variable {lib : Libraries} {info : InfoResponse}

theorem coeffsToBucket_eq (coeffs : Vector (ZMod primaryPlainModulus) rank) :
    ∃ bucket, coeffsToBucket coeffs.toList = some bucket :=
  ⟨_, dif_pos (show coeffs.toList.length = _ from Vector.length_toList).ge⟩

/-- What the client makes of a reply. -/
def readReply (lib : Libraries) (rng : QueryRandomness) (info : InfoResponse) (canonName : Name)
    (reply : List UInt8) : Option (Except IoError (List Record)) :=
  if reply = respUnavailable then
    some (.error ⟨.other, "server refused PIR query (no PIR mode)".toList⟩)
  else do
    let coeffs ← processReply lib.stdRng reply rng.skSeed
    let bucket ← coeffsToBucket coeffs.toList
    let disc := discriminator canonName info.hashSalt (readBucketSalt bucket)
    return .ok (← decodeBucketMatching bucket disc)

/-- Past the decryption nothing fails. -/
theorem readReply_isSome (rng : QueryRandomness) (canonName : Name) (reply : List UInt8) :
    (readReply lib rng info canonName reply).isSome ↔
      reply = respUnavailable ∨ ReplyFits (secretKey lib.stdRng rng.skSeed) reply := by
  unfold readReply
  split
  next h => exact iff_of_true rfl (.inl h)
  next h =>
    rw [← processReply_isSome, or_iff_right h]
    cases processReply lib.stdRng reply rng.skSeed with
    | none => simp
    | some coeffs =>
      obtain ⟨bucket, hb⟩ := coeffsToBucket_eq coeffs
      simp [hb, decodeBucketMatching_eq]

/-- For a number of entries in range there is one payload, and the reply to it
decides. -/
theorem query_of_shape (lib : Libraries) (info : InfoResponse) (hfm : lib.fm.Correct)
    (h1 : 1 ≤ info.numEntries.toNat) (h2 : info.numEntries.toNat ≤ rank * rank)
    (rng : QueryRandomness) (canonName : Name) :
    ∃ payload, ∀ exchange, info.query lib rng exchange canonName =
      match exchange payload with
      | .error e => some (.error e)
      | .ok reply => readReply lib rng info canonName reply := by
  obtain ⟨primary, secondary, shards, hs⟩ := exists_shape h1 h2
  have hlt := slotHash_lt canonName h1 info.hashSalt
  have hpri :
      slotHash canonName info.numEntries.toNat info.hashSalt % (simdCount * primary.groupOrder) <
      simdCount * primary.groupOrder := Nat.mod_lt _ (Nat.mul_pos (by decide) hs.primary_pos)
  obtain ⟨bytes, hbytes⟩ :=
    prepareQuery_isSome hfm hs lib.stdRng rng.skSeed rng.errors hpri (slot_lt_shards hs hlt)
  refine ⟨cmdQuery :: bytes, fun exchange => ?_⟩
  simp only [InfoResponse.query, slot_eq hs h1, hbytes, Option.bind_eq_bind, Option.bind_some]
  cases exchange (cmdQuery :: bytes) with
  | error e => rfl
  | ok reply => rfl

theorem query_out_of_range (h : ¬(1 ≤ info.numEntries.toNat ∧ info.numEntries.toNat ≤ rank * rank))
    (rng : QueryRandomness) (exchange : List UInt8 → Except IoError (List UInt8)) (canonName : Name) :
    info.query lib rng exchange canonName = none := by
  have hslot : slot canonName info.numEntries.toNat info.hashSalt = none := by
    unfold slot
    split
    next h0 => simp [entriesPerShard, getDatabaseShape, if_neg h]
    next => rfl
  simp only [InfoResponse.query, hslot, Option.bind_eq_bind, Option.bind_none]

/-- **Which servers the client survives**: the number of entries has a shape,
and a reply that is not the refusal has all bytes and decrypts to packed pairs.
Then a query returns, with records or an error; otherwise it panics. -/
theorem query_isSome_iff (lib : Libraries) (hfm : lib.fm.Correct) (rng : QueryRandomness)
    (info : InfoResponse) (canonName : Name) :
    ∃ payload, ∀ exchange, (info.query lib rng exchange canonName).isSome ↔
      (1 ≤ info.numEntries.toNat ∧ info.numEntries.toNat ≤ rank * rank) ∧
        ∀ reply, exchange payload = .ok reply →
          reply = respUnavailable ∨ ReplyFits (secretKey lib.stdRng rng.skSeed) reply := by
  by_cases h : 1 ≤ info.numEntries.toNat ∧ info.numEntries.toNat ≤ rank * rank
  · obtain ⟨payload, hquery⟩ := query_of_shape lib info hfm h.1 h.2 rng canonName
    refine ⟨payload, fun exchange => ?_⟩
    rw [hquery, and_iff_right h]
    cases exchange payload with
    | error e => simp
    | ok reply => simpa using readReply_isSome rng canonName reply
  · refine ⟨[], fun exchange => ?_⟩
    rw [query_out_of_range h]
    exact iff_of_false (by simp) fun hc => h hc.1

/-- An `INFO` reply of PIR mode with 16384 entries, for the root zone. -/
def infoReply : List UInt8 := [1, 0, 0, 0x40, 0, 0, 0, 0, 0, 0, 0, 0, 0, 0, 0, 0, 0, 0, 0, 0, 0]

theorem decodeInfo_infoReply : decodeInfo infoReply = some (.ok ⟨1, 16384, [], 0, 0⟩) := by decide

/-- Draws for fixed runs. -/
def zeroDraws : Seed → ℕ → UInt64 × UInt32 := fun _ _ => (0, 0)

def zeroRandomness : QueryRandomness := ⟨seeds[0], ⟨fun _ => 0, 0, 0, 0, 0⟩⟩

/-- Zeros, as a server would write them, are a reply that decrypts. -/
theorem exists_zeroReply (sk : CipherRing rank) :
    ∃ reply, reply ≠ respUnavailable ∧ ReplyFits sk reply := by
  obtain ⟨bytes, values, reply', h⟩ :=
    parseReply_replyBytes FeanorMath.reference_correct (Vector.replicate ctxtParts (0, 0))
  have hne : bytes ≠ respUnavailable := fun he => absurd (he ▸ h.length) (by decide)
  refine ⟨bytes, hne, h.length.ge, fun cts rest hparse i => ?_⟩
  obtain ⟨rfl, -⟩ := Prod.mk.inj (Option.some.inj (h.parse.symm.trans hparse))
  have hzero : ∀ k : Fin ctxtParts,
      Bfv.nearest secondaryPlainModulus ((reply'[k].1 * sk + reply'[k].2).coeff i) = 0 := fun k => by
    have hfst := h.written k
    have hdec := h.decoded k
    simp only [Positions.getElem_pos, Vector.getElem_replicate] at hfst hdec
    have h1 : reply'[k.val].1 = 0 := Negacyclic.ext (funext fun j =>
      Bfv.switched_coeff_zero FeanorMath.reference_correct (by decide) (by decide)
        (by decide) hfst.1 hdec.1 rfl)
    have h2 : reply'[k.val].2 = 0 := Negacyclic.ext (funext fun j =>
      Bfv.switched_coeff_zero FeanorMath.reference_correct (by decide) (by decide)
        (by decide) hfst.2 hdec.2 rfl)
    simp only [Positions.getElem_pos, h1, h2, zero_mul, add_zero]
    change Bfv.nearest secondaryPlainModulus (0 : ZMod fixedQ) = 0
    decide +kernel
  have hdigits : replyDigits sk reply' i = Vector.replicate ctxtParts 0 := Vector.ext fun k hk => by
    rw [replyDigits, Vector.getElem_map, Vector.getElem_replicate]
    exact hzero ⟨k, hk⟩
  rw [hdigits]
  decide

/-- The client survives a refusal and a reply that decrypts, and no empty one. -/
theorem query_isSome_iff_zero : ∃ reply, reply ≠ respUnavailable ∧
    ((⟨1, 16384, [], 0, 0⟩ : InfoResponse).query ⟨FeanorMath.reference, zeroDraws⟩ zeroRandomness
      (fun _ => .ok reply) "org".toList).isSome ∧
    ((⟨1, 16384, [], 0, 0⟩ : InfoResponse).query ⟨FeanorMath.reference, zeroDraws⟩ zeroRandomness
      (fun _ => .ok respUnavailable) "org".toList).isSome ∧
    ¬((⟨1, 16384, [], 0, 0⟩ : InfoResponse).query ⟨FeanorMath.reference, zeroDraws⟩ zeroRandomness
      (fun _ => .ok []) "org".toList).isSome := by
  obtain ⟨payload, h⟩ := query_isSome_iff ⟨FeanorMath.reference, zeroDraws⟩ FeanorMath.reference_correct
    zeroRandomness ⟨1, 16384, [], 0, 0⟩ "org".toList
  obtain ⟨reply, hne, hfits⟩ := exists_zeroReply (secretKey zeroDraws zeroRandomness.skSeed)
  refine ⟨reply, hne, (h _).mpr ⟨by decide, fun r hr => ?_⟩, (h _).mpr ⟨by decide, fun r hr => ?_⟩,
    fun hsome => ?_⟩
  · cases hr
    exact .inr hfits
  · cases hr
    exact .inl rfl
  · rcases ((h _).mp hsome).2 [] rfl with hr | ⟨hlen, -⟩
    · exact absurd hr (by decide)
    · exact absurd hlen (by decide)

/-- An empty frame in answer to a query. -/
theorem query_crashes :
    ¬∀ (fmt : IpFormat) (decompress : List UInt8 → Except IoError (List UInt8)) (lib : Libraries),
    lib.fm.Correct → ∀ (rng : QueryRandomness) (infoBytes reply : List UInt8) (addr : SocketAddr)
      (info : InfoResponse)
      (canonName : Name) (saves : Bool) (cache : Option (List UInt8)),
      (connect fmt decompress saves (fun _ => .ok infoBytes) addr cache).1 = some (.ok (.tcp info)) →
      (info.query lib rng (fun _ => .ok reply) canonName).isSome := by
  intro h
  let fmt : IpFormat := ⟨fun _ => [], fun _ => none, fun _ => [], fun _ => none⟩
  let lib : Libraries := ⟨FeanorMath.reference, zeroDraws⟩
  have hconnect : (connect fmt .ok false (fun _ => .ok infoReply) ⟨.v4 #v[127, 0, 0, 1], 9000⟩ none).1 =
      some (.ok (.tcp ⟨1, 16384, [], 0, 0⟩)) := by
    simp only [connect, decodeInfo_infoReply]
    rfl
  have hsome := h fmt .ok lib FeanorMath.reference_correct zeroRandomness infoReply []
    ⟨.v4 #v[127, 0, 0, 1], 9000⟩ _ "org".toList
    false none hconnect
  obtain ⟨payload, hquery⟩ := query_of_shape lib ⟨1, 16384, [], 0, 0⟩ FeanorMath.reference_correct
    (by decide) (by decide) zeroRandomness "org".toList
  rw [hquery, readReply_isSome] at hsome
  rcases hsome with hr | ⟨hlen, -⟩
  · exact absurd hr (by decide)
  · exact absurd hlen (by decide)

end Dns

end Dnspir
