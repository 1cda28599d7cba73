/-
The residue form of a ring element is a ring isomorphism.

`simdElement_ring`: for the registers and tables `create` sets up,
`from_simd_element` undoes `to_simd_element`, slot `i` of lane `c` holds the
value of the element of lane `c` at `zeta^{-(2i + 1)}`, sums and products are
taken slot by slot, and the weighted transforms undo one another.
-/
import Dnspir.RnsFacts
import Dnspir.FeanorMathFacts

namespace Dnspir

open SpecialZnx8 PIRDatabase Negacyclic

variable {N t : ℕ} [NeZero N] {fm : FeanorMath}

section Transform
variable {K : ℕ} {Z : SpecialZnx8 K} {zeta : M512i} {table : NTT K} {z zinv : Z.ComponentRing}

omit [NeZero N] in
/-- The inverse transform undoes the transform on every vector of
representatives. -/
theorem invWeightedNtt_weightedNtt (hfm : fm.Correct) (h : NttOk Z N zeta table z zinv)
    {v : Vector M512i N} (hv : ∀ (i : Fin N) c, Avx.lane v[i] c ≤ 2 * Z.modulus) :
    ∃ w u, weightedNtt fm Z zeta table v = some w ∧ invWeightedNtt fm Z zeta table w = some u ∧
      RepV Z u fun i c => (Avx.lane v[i] c : Z.ComponentRing) := by
  have hc : CoeffRep Z v fun c => ⟨fun i => (Avx.lane v[i] c : Z.ComponentRing)⟩ := RepV.of_le hv
  obtain ⟨w, ew, hw⟩ := weightedNtt_spec hfm h hc
  obtain ⟨u, eu, hu⟩ := invWeightedNtt_spec hfm h hw
  exact ⟨w, u, ew, eu, hu⟩

/-- The slots of a sum and of a product are those of the operands. -/
theorem SlotRep.ring (hz : zinv ^ N = -1) {v w s p : Vector M512i N}
    {F G : Fin 8 → Negacyclic N Z.ComponentRing} (hv : SlotRep Z zinv v F) (hw : SlotRep Z zinv w G)
    (hs : SlotRep Z zinv s (F + G)) (hp : SlotRep Z zinv p (F * G)) :
    RepV Z s (fun i c => Avx.lane v[i] c + Avx.lane w[i] c) ∧
      RepV Z p fun i c => Avx.lane v[i] c * Avx.lane w[i] c := by
  refine ⟨RepV.congr hs fun i c => ?_, RepV.congr hp fun i c => ?_⟩
  · rw [(hv i c).2, (hw i c).2]
    exact eval_add _ (F c) (G c)
  · rw [(hv i c).2, (hw i c).2]
    exact eval_slot_mul hz i (F c) (G c)

end Transform

variable {db : PIRDatabase N t} {r : Roots} {x : RNSEl N} {f : Fin 8 → CipherRing N}

/-- The slots are values of the element itself. -/
theorem RNSRep.values (hx : RNSRep r x f) :
    RepV rnsBase0 x.fst (fun i c => eval red0 (r.zinv0 ^ (2 * i.val + 1)) (f c)) ∧
      RepV rnsBase1 x.snd fun i c => eval red1 (r.zinv1 ^ (2 * i.val + 1)) (f c) :=
  ⟨RepV.congr hx.fst fun _ c => eval_map red0 (RingHom.id _) _ (f c),
    RepV.congr hx.snd fun _ c => eval_map red1 (RingHom.id _) _ (f c)⟩

/-- **The residue form is a ring isomorphism.** -/
theorem simdElement_ring (hfm : fm.Correct) {g : IndexGroup N} {useSeeds : UsedSeeds}
    {memory : Array CompressedZnx8El} (hcreate : create fm t g useSeeds memory = some db) : ∃ r : Roots,
    (rnsBase0.Rep db.zeta.1 (fun _ => r.z0) ∧ IsPrimitiveRoot r.z0 (2 * N) ∧ r.z0 * r.zinv0 = 1) ∧
    (rnsBase1.Rep db.zeta.2 (fun _ => r.z1) ∧ IsPrimitiveRoot r.z1 (2 * N) ∧ r.z1 * r.zinv1 = 1) ∧
    (∀ a : Fin 8 → CipherRing N, ∃ x, toSimdElement fm db a = some x ∧
      fromSimdElement fm db x = some a ∧
      RepV rnsBase0 x.fst (fun i c => eval red0 (r.zinv0 ^ (2 * i.val + 1)) (a c)) ∧
      RepV rnsBase1 x.snd fun i c => eval red1 (r.zinv1 ^ (2 * i.val + 1)) (a c)) ∧
    (∀ a b : Fin 8 → CipherRing N, ∃ x y s p, toSimdElement fm db a = some x ∧
      toSimdElement fm db b = some y ∧
      toSimdElement fm db (a + b) = some s ∧ toSimdElement fm db (a * b) = some p ∧
      RepV rnsBase0 s.fst (fun i c => Avx.lane x.fst[i] c + Avx.lane y.fst[i] c) ∧
      RepV rnsBase0 p.fst (fun i c => Avx.lane x.fst[i] c * Avx.lane y.fst[i] c) ∧
      RepV rnsBase1 s.snd (fun i c => Avx.lane x.snd[i] c + Avx.lane y.snd[i] c) ∧
      RepV rnsBase1 p.snd fun i c => Avx.lane x.snd[i] c * Avx.lane y.snd[i] c) ∧
    (∀ v : Vector M512i N, (∀ (i : Fin N) c, Avx.lane v[i] c ≤ 2 * rnsBase0.modulus) →
      ∃ w u, weightedNtt fm rnsBase0 db.zeta.1 db.lenNNtts.1 v = some w ∧
        invWeightedNtt fm rnsBase0 db.zeta.1 db.lenNNtts.1 w = some u ∧ RepV rnsBase0 u fun i c =>
          Avx.lane v[i] c) ∧
    ∀ v : Vector M512i N, (∀ (i : Fin N) c, Avx.lane v[i] c ≤ 2 * rnsBase1.modulus) →
      ∃ w u, weightedNtt fm rnsBase1 db.zeta.2 db.lenNNtts.2 v = some w ∧
        invWeightedNtt fm rnsBase1 db.zeta.2 db.lenNNtts.2 w = some u ∧ RepV rnsBase1 u fun i c =>
          Avx.lane v[i] c := by
  obtain ⟨-, -, -, r, hok, -, -⟩ := create_spec hfm hcreate
  refine ⟨r, ⟨hok.ok0.zeta_rep, hok.ok0.prim, hok.ok0.mul_inv⟩,
    ⟨hok.ok1.zeta_rep, hok.ok1.prim, hok.ok1.mul_inv⟩, fun a => ?_, fun a b => ?_, fun v hv =>
    invWeightedNtt_weightedNtt hfm hok.ok0 hv,
    fun v hv => invWeightedNtt_weightedNtt hfm hok.ok1 hv⟩
  · obtain ⟨x, ex, hx⟩ := toSimdElement_spec hfm hok a
    exact ⟨x, ex, fromSimdElement_spec hfm hok hx, hx.values⟩
  · obtain ⟨x, ex, hx⟩ := toSimdElement_spec hfm hok a
    obtain ⟨y, ey, hy⟩ := toSimdElement_spec hfm hok b
    obtain ⟨s, es, hs⟩ := toSimdElement_spec hfm hok (a + b)
    obtain ⟨p, ep, hp⟩ := toSimdElement_spec hfm hok (a * b)
    have hsum0 : (fun c => map red0 ((a + b) c)) = (fun c => map red0 (a c)) + fun c =>
        map red0 (b c) :=
      funext fun c => map_add _ _ _
    have hmul0 : (fun c => map red0 ((a * b) c)) = (fun c => map red0 (a c)) * fun c =>
        map red0 (b c) :=
      funext fun c => map_mul _ _ _
    have hsum1 : (fun c => map red1 ((a + b) c)) = (fun c => map red1 (a c)) + fun c =>
        map red1 (b c) :=
      funext fun c => map_add _ _ _
    have hmul1 : (fun c => map red1 ((a * b) c)) = (fun c => map red1 (a c)) * fun c =>
        map red1 (b c) :=
      funext fun c => map_mul _ _ _
    obtain ⟨hs0, hp0⟩ := hx.fst.ring hok.ok0.pow_N hy.fst (hsum0 ▸ hs.fst) (hmul0 ▸ hp.fst)
    obtain ⟨hs1, hp1⟩ := hx.snd.ring hok.ok1.pow_N hy.snd (hsum1 ▸ hs.snd) (hmul1 ▸ hp.snd)
    exact ⟨x, y, s, p, ex, ey, es, ep, hs0, hp0, hs1, hp1⟩

/-- The ones of rank 16. -/
theorem simdElement_ring_ones : ∃ (db : PIRDatabase 16 1025) (x : RNSEl 16),
    create FeanorMath.reference 1025 (IndexGroup.fullGroup 16) .firstSet
      (Array.replicate (requiredMemoryGeneral (IndexGroup.fullGroup 16)) (Vector.replicate 8 0)) =
        some db ∧
    toSimdElement FeanorMath.reference db 1 = some x ∧
      fromSimdElement FeanorMath.reference db x = some 1 := by
  obtain ⟨db, hdb⟩ := create_isSome (t := 1025) FeanorMath.reference_correct
    (IndexGroup.fullGroup 16) .firstSet
    (show 16 = 2 ^ 4 by norm_num) (by decide) Array.size_replicate
  obtain ⟨r, -, -, h, -⟩ := simdElement_ring FeanorMath.reference_correct hdb
  obtain ⟨x, ex, efrom, -⟩ := h 1
  exact ⟨db, x, hdb, ex, efrom⟩

end Dnspir
