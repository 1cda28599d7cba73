/-
What client and server agree on (`pir_wrapper`).

* `exists_shape`: one rule, evaluated on the number of entries and on
  the length of the fleet, gives one shape.
* `parseQuery_queryBytes`, `parseReply_replyBytes`: there are no lengths or
  tags on the wire, but both sides cut it at the same places.
* `processReply_isSome`: what a reply must be for the client to decrypt it.
-/
import Dnspir.BfvNoise
import Dnspir.DoublePirFacts
import Dnspir.FeanorMathFacts
import Dnspir.WireFacts

namespace Dnspir

open PIRDatabase DoublePir

namespace PirWrapper

/-! ## The shape -/

theorem rank_eq : rank = 2048 := by decide

theorem divCeil_le_iff {a b c : ℕ} (hb : 0 < b) : divCeil a b ≤ c ↔ a ≤ c * b := by
  rw [divCeil, Nat.div_le_iff_le_mul_add_pred hb, mul_comm]
  omega

theorem le_divCeil_mul {a b : ℕ} (hb : 0 < b) : a ≤ divCeil a b * b := (divCeil_le_iff hb).mp le_rfl

/-- The sub-group of order `2^k`. -/
theorem subgroupOfSize_pow {k : ℕ} (hk : k < 11) :
    ∃ g, IndexGroup.subgroupOfSize rank (2 ^ k) = some g ∧ g.groupOrder = 2 ^ k ∧
      g.requiresConj = false := by
  have h : 0 < 2 ^ k ∧ rank % 2 ^ k = 0 ∧ 2 ^ k * 2 ≤ rank := by
    interval_cases k <;> decide
  refine ⟨⟨2 ^ k, .inr h⟩, by rw [IndexGroup.subgroupOfSize, dif_pos h], rfl, ?_⟩
  have hne : 2 ^ k ≠ rank := by omega
  simpa [IndexGroup.requiresConj] using hne

/-- The secondary group has room for all shards, and conjugates exactly when
the shards do not fit half of the full group. -/
theorem chooseIndexGroupSecondary_spec {numShards : ℕ} (h : numShards ≤ rank / simdCount) :
    ∃ g, chooseIndexGroupSecondary numShards = some g ∧ numShards * simdCount ≤ g.groupOrder ∧
      simdCount ∣ g.groupOrder ∧ (g.requiresConj ↔ rank / (2 * simdCount) < numShards) := by
  have h256 : numShards ≤ 256 := by simpa [rank_eq, simdCount] using h
  set k := Nat.clog 2 numShards with hk
  have hle : numShards ≤ 2 ^ k := Nat.le_pow_clog (by norm_num) _
  have hk8 : k ≤ 8 := Nat.clog_le_of_le_pow (by simpa using h256)
  have hshift : simdCount <<< k = 2 ^ (k + 3) := by
    rw [Nat.shiftLeft_eq, simdCount, pow_add]
    ring
  simp only [chooseIndexGroupSecondary, if_pos h, ← hk, hshift]
  have hmul : numShards * simdCount ≤ 2 ^ (k + 3) := by
    rw [pow_add]
    exact Nat.mul_le_mul hle (by decide)
  have hdvd : simdCount ∣ 2 ^ (k + 3) := ⟨2 ^ k, by rw [pow_add, simdCount]; ring⟩
  rcases hk8.lt_or_eq with hlt | heq
  · obtain ⟨g, hg, hord, hconj⟩ := subgroupOfSize_pow (k := k + 3) (by omega)
    have hne : 2 ^ (k + 3) ≠ rank := fun he => by
      rw [show rank = 2 ^ 11 from rfl] at he
      have := Nat.pow_right_injective (show 2 ≤ 2 by norm_num) he
      omega
    have hk7 : (2 : ℕ) ^ k ≤ 2 ^ 7 := Nat.pow_le_pow_right (by norm_num) (by omega)
    refine ⟨g, by rw [if_neg hne, hg], hord ▸ hmul, hord ▸ hdvd, ?_⟩
    simp only [hconj, Bool.false_eq_true, false_iff, not_lt, rank_eq, simdCount]
    omega
  · have h8 : 128 < numShards := by
      by_contra hn
      have := Nat.clog_le_of_le_pow (b := 2) (show numShards ≤ 2 ^ 7 by omega)
      omega
    rw [heq]
    refine ⟨IndexGroup.fullGroup rank, by rw [if_pos (by decide)], ?_, ⟨256, by decide⟩, ?_⟩
    · rw [show (IndexGroup.fullGroup rank).groupOrder = 2048 by decide, simdCount]
      omega
    · rw [show (IndexGroup.fullGroup rank).requiresConj = true by decide, rank_eq, simdCount]
      simpa using h8

/-- The primary group: half of the full one up to the threshold. -/
theorem chooseIndexGroupPrimary_spec (numEntries : ℕ) :
    ∃ g, chooseIndexGroupPrimary numEntries = some g ∧
      g.groupOrder = (if numEntries ≤ halfSizePrimaryMaxEntries then 1024 else 2048) ∧
      (g.requiresConj ↔ halfSizePrimaryMaxEntries < numEntries) := by
  unfold chooseIndexGroupPrimary
  split
  next h =>
    obtain ⟨g, hg, hord, hconj⟩ := subgroupOfSize_pow (k := 10) (by norm_num)
    exact ⟨g, hg, hord, by simp [hconj, h]⟩
  next h =>
    exact ⟨_, rfl, by decide, by
      simpa [show (IndexGroup.fullGroup rank).requiresConj = true by decide] using h⟩

/-- What both sides derive from the number of entries. -/
structure Shape (numEntries : ℕ) (primary secondary : IndexGroup rank) (shards : ℕ) : Prop where
  shape : getDatabaseShape numEntries = some (primary, secondary)
  numDatabases : numDatabases numEntries = some shards
  fleet : chooseIndexGroupSecondary shards = some secondary
  shards_eq : shards = divCeil numEntries (simdCount * primary.groupOrder)
  primary_pos : 0 < primary.groupOrder
  fits : shards * simdCount ≤ secondary.groupOrder
  dvd : simdCount ∣ secondary.groupOrder
  primaryConj : primary.requiresConj ↔ halfSizePrimaryMaxEntries < numEntries
  secondaryConj : secondary.requiresConj ↔ rank * rank / 2 < numEntries

/-- **The shape is defined for every number of entries up to `N^2`**, and the
fleet's length gives the server the client's secondary group. -/
theorem exists_shape {numEntries : ℕ} (h1 : 1 ≤ numEntries) (h2 : numEntries ≤ rank * rank) :
    ∃ primary secondary shards, Shape numEntries primary secondary shards := by
  obtain ⟨primary, hp, hord, hconj⟩ := chooseIndexGroupPrimary_spec numEntries
  have hpos : 0 < primary.groupOrder := by
    rw [hord]
    split <;> norm_num
  have hhalf : halfSizePrimaryMaxEntries = 262144 := by decide
  have hsq : rank * rank = 4194304 := by decide
  set shards := divCeil numEntries (simdCount * primary.groupOrder) with hshards
  have hsmall : shards ≤ rank / simdCount := by
    rw [hshards, divCeil_le_iff (by unfold simdCount; omega), hord, rank_eq, simdCount]
    split <;> omega
  obtain ⟨secondary, hs, hfits, hdvd, hsconj⟩ := chooseIndexGroupSecondary_spec hsmall
  have hshape : getDatabaseShape numEntries = some (primary, secondary) := by
    simp only [getDatabaseShape, if_pos (And.intro h1 h2), hp, Option.bind_eq_bind,
      Option.bind_some, ← hshards, hs]
    rfl
  refine ⟨primary, secondary, shards, hshape, ?_, hs, hshards, hpos, hfits, hdvd, hconj,
    hsconj.trans ?_⟩
  · rw [PirWrapper.numDatabases, hshape]
    rfl
  · rw [← not_le, hshards, divCeil_le_iff (by unfold simdCount; omega), hord, rank_eq, simdCount]
    split <;> omega

/-- The primary loop has an even number of rounds. -/
theorem Shape.even {numEntries shards : ℕ} {primary secondary : IndexGroup rank}
    (hs : Shape numEntries primary secondary shards) :
    primary.loopLen % 2 = 0 := by
  obtain ⟨g, hg, hord, -⟩ := chooseIndexGroupPrimary_spec numEntries
  have hshape := hs.shape
  unfold getDatabaseShape at hshape
  split at hshape
  next =>
    rw [hg, Option.bind_eq_bind, Option.bind_some] at hshape
    obtain ⟨secondary', -, heq⟩ := Option.bind_eq_some_iff.mp hshape
    obtain ⟨rfl, -⟩ := Prod.mk.inj (Option.some.inj heq)
    have hl : g.l = 1024 ∨ g.l = 2048 := by
      change g.l = _ at hord
      rw [hord]
      split
      · exact .inl rfl
      · exact .inr rfl
    have hrank := rank_eq
    unfold IndexGroup.loopLen
    split <;> omega
  next => cases hshape

/-! ## The wire -/

/-- A reader that takes just these bytes, whatever follows. -/
def Reads {α : Type} (m : StateT (List UInt8) Option α) (bytes : List UInt8) (a : α) : Prop :=
  ∀ rest, m (bytes ++ rest) = some (a, rest)

section Reads
variable {α β : Type} {m : StateT (List UInt8) Option α} {bytes bytes' : List UInt8} {a : α} {b : β}

theorem Reads.pure : Reads (Pure.pure a) [] a := fun _ => rfl

theorem Reads.bind {f : α → StateT (List UInt8) Option β} (h : Reads m bytes a)
    (hf : Reads (f a) bytes' b) :
    Reads (m >>= f) (bytes ++ bytes') b := fun rest => by
  rw [List.append_assoc]
  simp only [Bind.bind, StateT.bind, h (bytes' ++ rest), Option.bind_some, hf rest]

/-- The last step of a reader. -/
theorem Reads.map {f : α → β} (h : Reads m bytes a) :
    Reads (m >>= fun a => Pure.pure (f a)) bytes (f a) := fun rest => by
  simp only [Bind.bind, StateT.bind, h rest, Option.bind_some]
  rfl

theorem Reads.all (h : Reads m bytes a) : m bytes = some (a, []) := by simpa using h []

/-- Readers of equal parts, one after another. -/
theorem Reads.ofFnM {n : ℕ} {f : Fin n → StateT (List UInt8) Option α} {bs : Fin n → List UInt8}
    {as : Fin n → α} (h : ∀ i, Reads (f i) (bs i) (as i)) :
    Reads (Vector.ofFnM f) (List.ofFn bs).flatten (Vector.ofFn as) := by
  induction n with
  | zero =>
    rw [Vector.ofFnM_zero]
    exact Reads.pure
  | succ n ih =>
    rw [Vector.ofFnM_succ, List.ofFn_succ_last, List.flatten_append]
    have hv : Vector.ofFn as =
      (Vector.ofFn fun i : Fin n => as i.castSucc).push (as (Fin.last n)) := Vector.ofFn_succ
    rw [hv]
    refine (ih fun i => h i.castSucc).bind ?_
    simpa using (h (Fin.last n)).map (f := fun a => (Vector.ofFn fun i : Fin n => as i.castSucc).push a)

end Reads

variable {fm : FeanorMath}

/-- What the modulus switch leaves of an element. -/
def switched (fm : FeanorMath) (bits : ℕ) (x : CipherRing rank) : Option (CipherRing rank) := do
  Bfv.modSwitchDecode fixedQ bits (← Bfv.modSwitchEncode fm bits x)

theorem switched_eq {bits : ℕ} {x x' : CipherRing rank} {ys : List UInt64}
    (he : Bfv.modSwitchEncode fm bits x = some ys)
    (hd : Bfv.modSwitchDecode fixedQ bits ys = some x') : switched fm bits x = some x' := by
  rw [switched, he]
  exact hd

/-- How far a field of a query moves on the way. -/
theorem switched_bounded (hfm : fm.Correct) {bits : ℕ} (hb1 : 1 ≤ bits) (hb : bits ≤ 64)
    {x x' : CipherRing rank} (h : switched fm bits x = some x') :
    Negacyclic.Bounded (Bfv.switchBound fixedQ bits) (x' - x) ∧ ∀ i, x.coeff i = 0 →
      x'.coeff i = 0 := by
  obtain ⟨ys, x₁, he, -, -, hd, hbound⟩ :=
    Bfv.exists_switched hfm (q := fixedQ) (by decide) (by decide) hb1 hb x
  obtain rfl := Option.some.inj (h.symm.trans (switched_eq he hd))
  exact ⟨hbound, fun i hi => Bfv.switched_coeff_zero hfm (by decide) (by decide) hb he hd hi⟩

/-- **One field**: its bytes, and what the other side reads in them. -/
theorem encodeElement_spec (hfm : fm.Correct) (bits : ℕ) (hb : 1 ≤ bits ∧ bits ≤ 64)
    (x : CipherRing rank) :
    ∃ bytes ys x', encodeElement fm bits x = some bytes ∧ bytes.length = 256 * bits ∧
      Bfv.modSwitchEncode fm bits x = some ys ∧ Bfv.modSwitchDecode fixedQ bits ys = some x' ∧
      Reads (uncondense bits rank) bytes ys ∧ Reads (decodeElement bits) bytes x' := by
  obtain ⟨ys, x', hys, hlen, hlt, hx', -⟩ :=
    Bfv.exists_switched hfm (q := fixedQ) (by decide) (by decide) hb.1 hb.2 x
  have hlen' : ys.length = 8 * 256 := hlen.trans rank_eq
  have hread : Reads (uncondense bits rank) (condensed bits ys) ys := fun rest => by
    have h := uncondense_condensed bits hlen' rest
    rw [hlen] at h
    rw [h, lowBits, List.map_map]
    refine congrArg some (Prod.ext ((List.map_congr_left fun y hy => ?_).trans (List.map_id ys)) rfl)
    simp only [Function.comp, Nat.mod_eq_of_lt (hlt y hy), UInt64.ofNat_toNat, id]
  refine ⟨condensed bits ys, ys, x', ?_, length_condensed bits hlen', hys, hx', hread, fun rest => ?_⟩
  · simp only [encodeElement, hys, Option.bind_eq_bind, Option.bind_some, condense_eq bits hlen']
  · simp only [decodeElement, bind, StateT.bind, hread rest, Option.bind_some, hx']
    rfl

theorem encodeConj_spec (hfm : fm.Correct) (bits : ℕ) (hb : 1 ≤ bits ∧ bits ≤ 64) (g : IndexGroup rank)
    {x : Option (CipherRing rank)} (hx : x.isSome = g.requiresConj) :
    ∃ bytes x', encodeConj fm bits g x = some bytes ∧
      bytes.length = (if g.requiresConj then 256 * bits else 0) ∧
      Option.Rel (fun y y' => switched fm bits y = some y') x x' ∧
        Reads (decodeConj bits g) bytes x' := by
  unfold encodeConj decodeConj
  cases hc : g.requiresConj with
  | false =>
    rw [hc, Option.isSome_eq_false_iff, Option.isNone_iff_eq_none] at hx
    subst hx
    exact ⟨[], none, by simp, rfl, .none, Reads.pure⟩
  | true =>
    rw [hc] at hx
    obtain ⟨x, rfl⟩ := Option.isSome_iff_exists.mp hx
    obtain ⟨bytes, ys, x', he, hlen, hys, hx', -, hread⟩ := encodeElement_spec hfm bits hb x
    refine ⟨bytes, some x', by simpa using he, by simpa using hlen, .some (switched_eq hys hx'), ?_⟩
    simpa using hread.map (f := some)

/-- What the server reads of a query: each field after the modulus switch. -/
structure SwitchedQuery (fm : FeanorMath) (qry qry' : Query) : Prop where
  gk : ∀ k : Fin 2, switched fm galoisKeyLog2Modulus qry.gk[k] = some qry'.gk[k]
  primary : switched fm primaryQueryLog2Modulus qry.primary = some qry'.primary
  primaryConj : Option.Rel (fun x x' => switched fm primaryQueryLog2Modulus x =
    some x') qry.primaryConj qry'.primaryConj
  secondary : switched fm secondaryQueryLog2Modulus qry.secondary = some qry'.secondary
  secondaryConj :
    Option.Rel (fun x x' => switched fm secondaryQueryLog2Modulus x =
      some x') qry.secondaryConj qry'.secondaryConj

/-- The bytes of a query, by the groups. -/
def queryLength (primary secondary : IndexGroup rank) : ℕ :=
  256 * 50 + 256 * 50 + 256 * 34 + (if primary.requiresConj then 256 * 34 else 0) + 256 * 34 +
    (if secondary.requiresConj then 256 * 34 else 0)

/-- Both sides cut a query at the same places. -/
theorem parseQuery_queryBytes (hfm : fm.Correct) {primary secondary : IndexGroup rank} {qry : Query}
    (hp : qry.primaryConj.isSome = primary.requiresConj)
    (hs : qry.secondaryConj.isSome = secondary.requiresConj) :
    ∃ bytes qry', queryBytes fm primary secondary qry = some bytes ∧
      bytes.length = queryLength primary secondary ∧
      Reads (parseQuery primary secondary) bytes qry' ∧ SwitchedQuery fm qry qry' := by
  obtain ⟨b0, ys0, g0, e0, l0, m0, d0, -, r0⟩ :=
    encodeElement_spec hfm galoisKeyLog2Modulus (by decide) qry.gk[0]
  obtain ⟨b1, ys1, g1, e1, l1, m1, d1, -, r1⟩ :=
    encodeElement_spec hfm galoisKeyLog2Modulus (by decide) qry.gk[1]
  obtain ⟨b2, ys2, x2, e2, l2, m2, d2, -, r2⟩ :=
    encodeElement_spec hfm primaryQueryLog2Modulus (by decide) qry.primary
  obtain ⟨b3, x3, e3, l3, d3, r3⟩ := encodeConj_spec hfm primaryQueryLog2Modulus (by decide) primary hp
  obtain ⟨b4, ys4, x4, e4, l4, m4, d4, -, r4⟩ :=
    encodeElement_spec hfm secondaryQueryLog2Modulus (by decide) qry.secondary
  obtain ⟨b5, x5, e5, l5, d5, r5⟩ :=
    encodeConj_spec hfm secondaryQueryLog2Modulus (by decide) secondary hs
  refine ⟨b0 ++ b1 ++ b2 ++ b3 ++ b4 ++ b5, ⟨#v[g0, g1], x2, x3, x4, x5⟩, ?_, ?_, ?_, ?_⟩
  · simp only [queryBytes, e0, e1, e2, e3, e4, e5, Option.bind_eq_bind, Option.bind_some]
    rfl
  · simp only [List.length_append, l0, l1, l2, l3, l4, l5]
    rfl
  · simp only [List.append_assoc]
    exact r0.bind (r1.bind (r2.bind (r3.bind (r4.bind r5.map))))
  · refine ⟨fun k => ?_, ?_, d3, ?_, d5⟩
    · fin_cases k
      · exact switched_eq m0 d0
      · exact switched_eq m1 d1
    · exact switched_eq m2 d2
    · exact switched_eq m4 d4

/-- The reader of `process_reply`, before the modulus switch back. -/
def readReplyValues : StateT (List UInt8) Option (Vector (List UInt64 × List UInt64) ctxtParts) :=
  Vector.ofFnM fun _ => do
    let a ← uncondense secondaryALog2ResponseQ rank
    let b ← uncondense secondaryBLog2ResponseQ rank
    return (a, b)

/-- What the client reads of a reply: the switched values, in order. -/
structure ReplyRead (fm : FeanorMath) (reply : Vector (CipherRing rank × CipherRing rank) ctxtParts)
    (bytes : List UInt8) (values : Vector (List UInt64 × List UInt64) ctxtParts)
    (reply' : Vector (CipherRing rank × CipherRing rank) ctxtParts) : Prop where
  emit : replyBytes fm reply = some bytes
  length : bytes.length = 3 * (256 * 17 + 256 * 12)
  written : ∀ k : Fin ctxtParts, Bfv.modSwitchEncode fm 17 reply[k].1 = some values[k].1 ∧
    Bfv.modSwitchEncode fm 12 reply[k].2 = some values[k].2
  read : readReplyValues bytes = some (values, [])
  parse : parseReply bytes = some (reply', [])
  decoded : ∀ k : Fin ctxtParts, Bfv.modSwitchDecode fixedQ 17 values[k].1 = some reply'[k].1 ∧
    Bfv.modSwitchDecode fixedQ 12 values[k].2 = some reply'[k].2

theorem parseReply_replyBytes (hfm : fm.Correct)
    (reply : Vector (CipherRing rank × CipherRing rank) ctxtParts) :
    ∃ bytes values reply', ReplyRead fm reply bytes values reply' := by
  choose ba ya xa ea la ma da va ra using fun k : Fin ctxtParts =>
    encodeElement_spec hfm secondaryALog2ResponseQ (by decide) reply[k].1
  choose bb yb xb eb lb mb db vb rb using fun k : Fin ctxtParts =>
    encodeElement_spec hfm secondaryBLog2ResponseQ (by decide) reply[k].2
  have hread : Reads readReplyValues (List.ofFn fun k => ba k ++ bb k).flatten
      (Vector.ofFn fun k => (ya k, yb k)) :=
    Reads.ofFnM fun k => (va k).bind (vb k).map
  have hparse : Reads parseReply (List.ofFn fun k => ba k ++ bb k).flatten
      (Vector.ofFn fun k => (xa k, xb k)) :=
    Reads.ofFnM fun k => (ra k).bind (rb k).map
  refine ⟨_, _, _, ⟨?_, ?_, fun k => ?_, hread.all, hparse.all, fun k => ?_⟩⟩
  · have hv : (Vector.ofFnM fun k : Fin ctxtParts => (do
        let a ← encodeElement fm secondaryALog2ResponseQ reply[k].1
        let b ← encodeElement fm secondaryBLog2ResponseQ reply[k].2
        return a ++ b : Option (List UInt8))) = some (Vector.ofFn fun k => ba k ++ bb k) :=
      Loops.ofFnM_eq_some fun k => by
        rw [ea k, eb k]
        simp
    rw [replyBytes, hv]
    simp only [Option.bind_eq_bind, Option.bind_some, Vector.toList_ofFn]
    rfl
  · simp only [List.length_flatten, List.map_ofFn, Function.comp_def, List.length_append, la, lb]
    rfl
  · simpa using ⟨ma k, mb k⟩
  · simpa using ⟨da k, db k⟩

/-- **The wire formats.** On the fleet the server builds for the same number of
entries, it reads of a query what the modulus switch leaves of each field, and
all of the bytes, as many as the number of entries alone says; the client
reads the values of a reply the server has written, and all of the bytes. -/
theorem wire_formats (hfm : fm.Correct) {numEntries : ℕ} (h1 : 1 ≤ numEntries)
    (h2 : numEntries ≤ rank * rank) :
    (∃ primary secondary shards, getDatabaseShape numEntries = some (primary, secondary) ∧
      numDatabases numEntries = some shards ∧ chooseIndexGroupSecondary shards = some secondary ∧
      ∀ qry : Query, qry.primaryConj.isSome = primary.requiresConj →
        qry.secondaryConj.isSome = secondary.requiresConj →
        ∃ bytes qry', queryBytes fm primary secondary qry = some bytes ∧
          bytes.length = queryLength primary secondary ∧
          parseQuery primary secondary bytes = some (qry', []) ∧ SwitchedQuery fm qry qry') ∧
    ∀ reply, ∃ bytes values reply', ReplyRead fm reply bytes values reply' := by
  obtain ⟨primary, secondary, shards, hs⟩ := exists_shape h1 h2
  refine ⟨⟨primary, secondary, shards, hs.shape, hs.numDatabases, hs.fleet, fun qry hp hq => ?_⟩,
    parseReply_replyBytes hfm⟩
  obtain ⟨bytes, qry', hb, hlen, hread, hsw⟩ := parseQuery_queryBytes hfm hp hq
  exact ⟨bytes, qry', hb, hlen, hread.all, hsw⟩

/-- Past both boundaries, where the query has all its conjugates. -/
theorem wire_formats_conj :
    ∃ primary secondary bytes qry', getDatabaseShape 3000000 = some (primary, secondary) ∧
    queryBytes FeanorMath.reference primary secondary ⟨#v[1, 2], 3, some 4, 5, some 6⟩ = some bytes ∧
    bytes.length = 60416 ∧ parseQuery primary secondary bytes = some (qry', []) ∧
    SwitchedQuery FeanorMath.reference ⟨#v[1, 2], 3, some 4, 5, some 6⟩ qry' := by
  obtain ⟨⟨primary, secondary, shards, hshape, -, -, h⟩, -⟩ :=
    @wire_formats _ FeanorMath.reference_correct 3000000 (by decide) (by decide)
  have hdec : (getDatabaseShape 3000000).map
      (fun p => (p.1.requiresConj, p.2.requiresConj, queryLength p.1 p.2)) =
      some (true, true, 60416) := by decide +kernel
  rw [hshape, Option.map_some, Option.some.injEq, Prod.mk.injEq, Prod.mk.injEq] at hdec
  obtain ⟨hp, hs, hlen⟩ := hdec
  obtain ⟨bytes, qry', hb, hblen, hparse, hsw⟩ := h ⟨#v[1, 2], 3, some 4, 5, some 6⟩ hp.symm hs.symm
  exact ⟨primary, secondary, bytes, qry', hshape, hb, hblen.trans hlen, hparse, hsw⟩

/-! ## The client on its own -/

/-- **Within the shape a query is made**, and the server reads what the modulus
switch leaves of it. -/
theorem prepareQuery_spec (hfm : fm.Correct) {numEntries shards : ℕ}
    {primary secondary : IndexGroup rank} (hs : Shape numEntries primary secondary shards)
    (stdRng : Seed → ℕ → UInt64 × UInt32) (skSeed : Seed) (errors : QueryErrors rank)
    {primaryIdx secondaryIdx : ℕ} (hp : primaryIdx < simdCount * primary.groupOrder)
    (hsec : secondaryIdx < shards) :
    ∃ qry1 qry2 gk bytes qry',
      encDoublePir fm primary secondary errors (secretKey stdRng skSeed) primaryIdx secondaryIdx =
        some (qry1, qry2, gk) ∧
      prepareQuery fm stdRng skSeed errors primaryIdx secondaryIdx numEntries = some (bytes, skSeed) ∧
      bytes.length = queryLength primary secondary ∧
        parseQuery primary secondary bytes = some (qry', []) ∧
      SwitchedQuery fm ⟨gk, qry1.1, qry1.2, qry2.1, qry2.2⟩ qry' := by
  have hfits : secondaryIdx < secondary.groupOrder / simdCount :=
    hsec.trans_le ((Nat.le_div_iff_mul_le (by decide)).mpr hs.fits)
  obtain ⟨qry1, qry2, gk, henc, hc1, hc2⟩ :=
    encDoublePir_spec (N := rank) (n := log2N) rfl (by decide) fm primary secondary errors
    (secretKey stdRng skSeed) (Nat.mul_comm simdCount primary.groupOrder ▸ hp) hfits
  obtain ⟨bytes, qry', hb, hlen, hread, hsw⟩ := parseQuery_queryBytes hfm
    (show (Query.mk gk qry1.1 qry1.2 qry2.1 qry2.2).primaryConj.isSome = _ from hc1) hc2
  refine ⟨qry1, qry2, gk, bytes, qry', henc, ?_, hlen, hread.all, hsw⟩
  simp only [prepareQuery, hs.shape, Option.bind_eq_bind, Option.bind_some, prepareQueryGeneral,
    henc, hb, Option.pure_def]

theorem prepareQuery_isSome (hfm : fm.Correct) {numEntries shards : ℕ}
    {primary secondary : IndexGroup rank} (hs : Shape numEntries primary secondary shards)
    (stdRng : Seed → ℕ → UInt64 × UInt32) (skSeed : Seed) (errors : QueryErrors rank)
    {primaryIdx secondaryIdx : ℕ} (hp : primaryIdx < simdCount * primary.groupOrder)
    (hsec : secondaryIdx < shards) :
    ∃ bytes, prepareQuery fm stdRng skSeed errors primaryIdx secondaryIdx numEntries =
      some (bytes, skSeed) := by
  obtain ⟨-, -, -, bytes, -, -, hb, -⟩ := prepareQuery_spec hfm hs stdRng skSeed errors hp hsec
  exact ⟨bytes, hb⟩

theorem takes_decodeElement {bits : ℕ} (hbits : bits ≤ 64) :
    Takes (decodeElement bits) (256 * bits) fun _ => True := by
  refine (takes_uncondense hbits 256).bind fun ys hys => (show Takes _ 0 _ from ?_)
  obtain ⟨x, hx⟩ := Bfv.modSwitchDecode_isSome (N := rank) (q := fixedQ) (by decide)
    (by decide) hbits hys.1 hys.2
  rw [hx]
  exact Takes.pure trivial

/-- The bytes of a reply. -/
def replyLength : ℕ := 3 * (256 * 17 + 256 * 12)

/-- The reader of a reply takes its bytes off any stream that has them. -/
theorem takes_parseReply : Takes parseReply replyLength fun _ => True := by
  have hpart : Takes (do
      let a ← decodeElement secondaryALog2ResponseQ
      let b ← decodeElement secondaryBLog2ResponseQ
      return (a, b)) (256 * 17 + 256 * 12) fun _ => True :=
    (takes_decodeElement (by decide)).bind fun a _ => (takes_decodeElement (by decide)).map
      fun b _ => trivial
  exact Takes.ofFnM fun _ => hpart

/-- So it fails only for want of bytes. -/
theorem parseReply_isSome (reply : List UInt8) :
    (parseReply reply).isSome ↔ replyLength ≤ reply.length := by
  have htakes := takes_parseReply reply
  split at htakes
  next hlen =>
    obtain ⟨cts, hparse, -⟩ := htakes
    exact iff_of_true (by rw [hparse]; rfl) hlen
  next hlen => exact iff_of_false (by rw [htakes]; exact Bool.false_ne_true) hlen

/-- What the client can decrypt: all bytes are there, and each triple of
digits is a packed pair. -/
def ReplyFits (sk : CipherRing rank) (reply : List UInt8) : Prop :=
  replyLength ≤ reply.length ∧
    ∀ cts rest, parseReply reply = some (cts, rest) → ∀ i, packed (replyDigits sk cts i) < 2 ^ 29

theorem processReply_eq (stdRng : Seed → ℕ → UInt64 × UInt32) {reply rest : List UInt8}
    (skSeed : Seed) {cts : Vector (CipherRing rank × CipherRing rank) ctxtParts}
    (h : parseReply reply = some (cts, rest)) :
    processReply stdRng reply skSeed = (do
      let result ← decDoublePir (secretKey stdRng skSeed) cts
      return Vector.ofFn result.coeff) := by
  unfold processReply
  rw [h, Option.bind_eq_bind, Option.bind_some]

theorem processReply_isSome (stdRng : Seed → ℕ → UInt64 × UInt32) (reply : List UInt8) (skSeed : Seed) :
    (processReply stdRng reply skSeed).isSome ↔ ReplyFits (secretKey stdRng skSeed) reply := by
  rw [ReplyFits, ← parseReply_isSome]
  cases hparse : parseReply reply with
  | none =>
    have hnone : processReply stdRng reply skSeed = none := by
      unfold processReply
      rw [hparse, Option.bind_eq_bind, Option.bind_none]
    simp [hnone]
  | some p =>
    obtain ⟨cts, rest⟩ := p
    have hall : (∀ cts' rest', some (cts, rest) = some (cts', rest') → ∀ i,
        packed (replyDigits (secretKey stdRng skSeed) cts' i) < 2 ^ 29) ↔
        (decDoublePir (secretKey stdRng skSeed) cts).isSome := by
      rw [decDoublePir_isSome]
      refine ⟨fun h => h cts rest rfl, fun h cts' rest' he => ?_⟩
      cases he
      exact h
    rw [hall, processReply_eq stdRng skSeed hparse]
    cases decDoublePir (secretKey stdRng skSeed) cts with
    | none => simp
    | some result => simp

end PirWrapper

end Dnspir
