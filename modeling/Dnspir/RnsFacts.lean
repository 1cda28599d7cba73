/-
The residue form of a ring element, and the invariant of a created database.

`RNSRep r x f` says that `x` holds the eight ring elements `f` of
`Z_q[X]/(X^N + 1)`, in both residue rings, as values at the odd powers of the
roots `r`. `to_simd_element` and `from_simd_element` lead to it and back
(`toSimdElement_spec`, `fromSimdElement_spec`), and every pair of vectors of
representatives is the residue form of some elements (`exists_rnsRep`).

`DbOk` is what `create` establishes of the registers and tables of a
database, `DbShape` of the lengths of its slices; no later step changes
either.
-/
import Dnspir.NttFacts
import Dnspir.Preprocess

namespace Dnspir

open SpecialZnx8 PIRDatabase Negacyclic

/-! ## The two residue rings -/

theorem rnsBase0_modulus : rnsBase0.modulus = qFactor1 := by decide

theorem rnsBase1_modulus : rnsBase1.modulus = qFactor2 := by decide

theorem new_rnsBase0 : SpecialZnx8.new 26 (2 ^ 12 - 1) = some rnsBase0 := dif_pos (by decide)

theorem new_rnsBase1 : SpecialZnx8.new 25 (2 ^ 12 - 1) = some rnsBase1 := dif_pos (by decide)

theorem createRnsBase_eq : createRnsBase = some (rnsBase0, rnsBase1) := by
  have hprod : rnsBase0.modulus * rnsBase1.modulus = fixedQ :=
    by rw [rnsBase0_modulus, rnsBase1_modulus, fixedQ]
  simp only [createRnsBase, new_rnsBase0, new_rnsBase1, Option.bind_eq_bind, Option.bind_some]
  exact if_pos ⟨rnsBase0_modulus, rnsBase1_modulus, hprod⟩

theorem qFactor1_prime : qFactor1.Prime := by norm_num [qFactor1]

theorem qFactor2_prime : qFactor2.Prime := by norm_num [qFactor2]

instance : Fact rnsBase0.modulus.Prime := ⟨rnsBase0_modulus ▸ qFactor1_prime⟩

instance : Fact rnsBase1.modulus.Prime := ⟨rnsBase1_modulus ▸ qFactor2_prime⟩

theorem modulus_coprime : rnsBase0.modulus.Coprime rnsBase1.modulus :=
  (Nat.coprime_primes Fact.out Fact.out).mpr (by decide)

theorem fixedQ_eq : fixedQ = rnsBase0.modulus * rnsBase1.modulus := by
  rw [rnsBase0_modulus, rnsBase1_modulus, fixedQ]

/-- Reduction of `Z_q` modulo the first factor. -/
def red0 : ZMod fixedQ →+* rnsBase0.ComponentRing := ZMod.castHom ⟨_, fixedQ_eq⟩ _

/-- Reduction of `Z_q` modulo the second factor. -/
def red1 : ZMod fixedQ →+* rnsBase1.ComponentRing := ZMod.castHom ⟨_, fixedQ_eq.trans (mul_comm _ _)⟩ _

/-- The two residues determine an element of `Z_q`. -/
theorem red_injective {a b : ZMod fixedQ} (h0 : red0 a = red0 b) (h1 : red1 a = red1 b) : a = b := by
  rw [← sub_eq_zero]
  have hcast : ∀ {p : ℕ} (φ : ZMod fixedQ →+* ZMod p), φ (a - b) = 0 → p ∣ (a - b).val := fun φ h => by
    rw [← ZMod.natCast_eq_zero_iff, ← map_natCast φ, ZMod.natCast_zmod_val, h]
  have hd := modulus_coprime.mul_dvd_of_dvd_of_dvd (hcast red0 (by rw [map_sub, h0, sub_self]))
    (hcast red1 (by rw [map_sub, h1, sub_self]))
  rwa [← fixedQ_eq, ← ZMod.natCast_eq_zero_iff, ZMod.natCast_zmod_val] at hd

/-- The centred lift does not change the residues. -/
theorem red0_valMinAbs (a : ZMod fixedQ) : ((a.valMinAbs : ℤ) : rnsBase0.ComponentRing) = red0 a := by
  rw [← map_intCast red0, ZMod.coe_valMinAbs]

theorem red1_valMinAbs (a : ZMod fixedQ) : ((a.valMinAbs : ℤ) : rnsBase1.ComponentRing) = red1 a := by
  rw [← map_intCast red1, ZMod.coe_valMinAbs]

theorem red0_crtCombine {i0 : rnsBase0.ComponentRing} {i1 : rnsBase1.ComponentRing}
    (h0 : (rnsBase1.modulus : rnsBase0.ComponentRing) * i0 = 1) (x : rnsBase0.ComponentRing)
    (y : rnsBase1.ComponentRing) : red0 (crtCombine i0 i1 x y) = x := by
  simp only [crtCombine, map_add, map_mul, map_natCast, map_intCast, ZMod.natCast_self, zero_mul,
    add_zero, ZMod.coe_valMinAbs]
  rw [mul_left_comm, h0, mul_one]

theorem red1_crtCombine {i0 : rnsBase0.ComponentRing} {i1 : rnsBase1.ComponentRing}
    (h1 : (rnsBase0.modulus : rnsBase1.ComponentRing) * i1 = 1) (x : rnsBase0.ComponentRing)
    (y : rnsBase1.ComponentRing) : red1 (crtCombine i0 i1 x y) = y := by
  simp only [crtCombine, map_add, map_mul, map_natCast, map_intCast, ZMod.natCast_self, zero_mul,
    zero_add, ZMod.coe_valMinAbs]
  rw [mul_left_comm, h1, mul_one]

theorem exists_factor_inv : ∃ (i0 : rnsBase0.ComponentRing) (i1 : rnsBase1.ComponentRing),
    Zn.invert (rnsBase1.modulus : rnsBase0.ComponentRing) = some i0 ∧
    Zn.invert (rnsBase0.modulus : rnsBase1.ComponentRing) = some i1 ∧
    (rnsBase1.modulus : rnsBase0.ComponentRing) * i0 = 1 ∧
    (rnsBase0.modulus : rnsBase1.ComponentRing) * i1 = 1 := by
  have h0 : (rnsBase1.modulus : rnsBase0.ComponentRing) *
      (rnsBase1.modulus : rnsBase0.ComponentRing)⁻¹ = 1 :=
    ZMod.coe_mul_inv_eq_one _ modulus_coprime.symm
  have h1 : (rnsBase0.modulus : rnsBase1.ComponentRing) *
      (rnsBase0.modulus : rnsBase1.ComponentRing)⁻¹ = 1 :=
    ZMod.coe_mul_inv_eq_one _ modulus_coprime
  exact ⟨_, _, Zn.invert_of_mul_eq_one h0, Zn.invert_of_mul_eq_one h1, h0, h1⟩

/-! ## The residue form -/

/-- Primitive `2N`-th roots of unity of the two residue rings, with inverses. -/
structure Roots where
  z0 : rnsBase0.ComponentRing
  zinv0 : rnsBase0.ComponentRing
  z1 : rnsBase1.ComponentRing
  zinv1 : rnsBase1.ComponentRing

/-- The registers and length-`N` tables of a database belong to the roots. -/
structure DbOk {N t : ℕ} (db : PIRDatabase N t) (r : Roots) : Prop where
  ok0 : NttOk rnsBase0 N db.zeta.1 db.lenNNtts.1 r.z0 r.zinv0
  ok1 : NttOk rnsBase1 N db.zeta.2 db.lenNNtts.2 r.z1 r.zinv1

variable {N t : ℕ} [NeZero N]

/-- `x` holds the ring elements `f`, one a lane. -/
structure RNSRep (r : Roots) (x : RNSEl N) (f : Fin 8 → CipherRing N) : Prop where
  fst : SlotRep rnsBase0 r.zinv0 x.fst fun c => map red0 (f c)
  snd : SlotRep rnsBase1 r.zinv1 x.snd fun c => map red1 (f c)

variable {fm : FeanorMath} {db : PIRDatabase N t} {r : Roots} {x : RNSEl N} {f : Fin 8 → CipherRing N}

theorem toSimdElement_spec (hfm : fm.Correct) (h : DbOk db r) (els : Fin 8 → CipherRing N) :
    ∃ x, toSimdElement fm db els = some x ∧ RNSRep r x els := by
  obtain ⟨w0, e0, h0⟩ := weightedNtt_spec hfm h.ok0
    (v := Vector.ofFn fun i => rnsBase0.fromComponents fun c => ((els c).coeff i).valMinAbs)
    (F := fun c => map red0 (els c)) fun i => by
      simp only [Positions.getElem_pos, Vector.getElem_ofFn]
      exact (Rep.fromComponents _).congr (funext fun c => red0_valMinAbs _)
  obtain ⟨w1, e1, h1⟩ := weightedNtt_spec hfm h.ok1
    (v := Vector.ofFn fun i => rnsBase1.fromComponents fun c => ((els c).coeff i).valMinAbs)
    (F := fun c => map red1 (els c)) fun i => by
      simp only [Positions.getElem_pos, Vector.getElem_ofFn]
      exact (Rep.fromComponents _).congr (funext fun c => red1_valMinAbs _)
  exact ⟨⟨w0, w1⟩, by simp [toSimdElement, e0, e1], h0, h1⟩

theorem fromSimdElement_spec (hfm : fm.Correct) (h : DbOk db r) (hx : RNSRep r x f) :
    fromSimdElement fm db x = some f := by
  obtain ⟨w0, e0, h0⟩ := invWeightedNtt_spec hfm h.ok0 hx.fst
  obtain ⟨w1, e1, h1⟩ := invWeightedNtt_spec hfm h.ok1 hx.snd
  obtain ⟨i0, i1, ei0, ei1, hi0, hi1⟩ := exists_factor_inv
  simp only [fromSimdElement, e0, e1, ei0, ei1, Option.bind_eq_bind, Option.bind_some, Option.pure_def,
    Option.some.injEq]
  funext c
  refine Negacyclic.ext (funext fun i => ?_)
  show crtCombine i0 i1 (rnsBase0.getComponents w0[i] c) (rnsBase1.getComponents w1[i] c) = _
  rw [(h0 i).getComponents h.ok0.alpha_pos, (h1 i).getComponents h.ok1.alpha_pos]
  refine red_injective ?_ ?_
  · rw [red0_crtCombine hi0]; rfl
  · rw [red1_crtCombine hi1]; rfl

/-- Residues mod both factors are those of one polynomial mod `q`. -/
theorem exists_map_red (F0 : Negacyclic N rnsBase0.ComponentRing)
    (F1 : Negacyclic N rnsBase1.ComponentRing) :
    ∃ f : CipherRing N, map red0 f = F0 ∧ map red1 f = F1 := by
  obtain ⟨i0, i1, -, -, hi0, hi1⟩ := exists_factor_inv
  refine ⟨⟨fun i => crtCombine i0 i1 (F0.coeff i) (F1.coeff i)⟩, ?_, ?_⟩
  · exact Negacyclic.ext (funext fun i => by rw [coeff_map, red0_crtCombine hi0])
  · exact Negacyclic.ext (funext fun i => by rw [coeff_map, red1_crtCombine hi1])

/-- Every lane of both vectors is a representative `≤ 2p`. -/
def RNSEl.Valid (x : RNSEl N) : Prop :=
  (∀ (i : Fin N) c, Avx.lane x.fst[i] c ≤ 2 * rnsBase0.modulus) ∧
    ∀ (i : Fin N) c, Avx.lane x.snd[i] c ≤ 2 * rnsBase1.modulus

theorem exists_rnsRep (h : DbOk db r) (hx : x.Valid) : ∃ f, RNSRep r x f := by
  obtain ⟨F0, h0⟩ := exists_slotRep h.ok0 hx.1
  obtain ⟨F1, h1⟩ := exists_slotRep h.ok1 hx.2
  choose f hf0 hf1 using fun c => exists_map_red (F0 c) (F1 c)
  exact ⟨f, by simpa only [hf0] using h0, by simpa only [hf1] using h1⟩

/-! ## What `create` establishes -/

section Create
variable {K : ℕ} {Z : SpecialZnx8 K}

omit [NeZero N] in
theorem rep_createZeta {log2N : ℕ} {zeta : M512i} (h : createZeta fm Z log2N = some zeta) :
    ∃ z, fm.getPrimRootOfUnityPow2 Z.modulus (log2N + 1) = some z ∧ Z.Rep zeta fun _ => z := by
  simp only [createZeta, Option.bind_eq_bind, Option.bind_eq_some_iff, Option.pure_def,
    Option.some.injEq] at h
  obtain ⟨z, hz, rfl⟩ := h
  exact ⟨z, hz, Rep.fromComponents _⟩

omit [NeZero N] in
theorem rep_createNtt (hfm : fm.Correct) {zeta : M512i} {z : Z.ComponentRing}
    (hz : Z.Rep zeta fun _ => z) (power log2n : ℕ) :
    Z.Rep (createNtt fm Z zeta power log2n).root (fun _ => z ^ power) ∧
      ∀ c, Avx.lane (createNtt fm Z zeta power log2n).root c ≤ Z.modulus := by
  have hp := hfm.pow power hz.reduceFrom2p
  exact ⟨hp.reduceFrom2p, fun c => (Z.reduceFrom2p_spec (hp c).1).1⟩

/-- In a field a primitive `2N`-th root has the inverse `N`-th power `-1`. -/
theorem inv_pow_eq_neg_one [Fact Z.modulus.Prime] {z : Z.ComponentRing}
    (hz : IsPrimitiveRoot z (2 * N)) :
    (z⁻¹) ^ N = -1 := by
  have hsq : z ^ N * z ^ N = 1 := by rw [← pow_add, ← two_mul, hz.pow_eq_one]
  have hne : z ^ N ≠ 1 := hz.pow_ne_one_of_pos_of_lt (NeZero.ne N) (by have := NeZero.pos N; omega)
  rw [inv_pow, (mul_self_eq_one_iff.mp hsq).resolve_left hne, inv_neg, inv_one]

theorem nttOk_create [Fact Z.modulus.Prime] (hfm : fm.Correct) (ha : 0 < Z.alpha) {log2N : ℕ}
    (hN : N = 2 ^ log2N) {zeta : M512i} (h : createZeta fm Z log2N = some zeta) :
    ∃ z, NttOk Z N zeta (createNtt fm Z zeta 2 log2N) z z⁻¹ := by
  obtain ⟨z, hz, hrep⟩ := rep_createZeta h
  have hprim : IsPrimitiveRoot z (2 * N) := by
    rw [hN, ← pow_succ']
    exact hfm.isPrimitiveRoot hz
  obtain ⟨hroot, hred⟩ := rep_createNtt hfm hrep 2 log2N
  have hz0 : z ≠ 0 := hprim.ne_zero (by have := NeZero.pos N; omega)
  exact ⟨z, Fact.out, ha, hrep, hprim, mul_inv_cancel₀ hz0, inv_pow_eq_neg_one hprim, hroot, hred, hN⟩

end Create

/-- The lengths of the slices of a database, which no operation changes. -/
structure DbShape (db : PIRDatabase N t) : Prop where
  te : CompressedSlices.hasLen db.transformedEntries (N * db.indexGroup.loopLen)
  gk : ∀ k : Fin 2, CompressedSlices.hasLen db.innerProdGk[k] (N * db.indexGroup.loopLen)
  teConj : db.indexGroup.requiresConj →
    CompressedSlices.hasLen db.transformedEntriesConj (N * db.indexGroup.loopLen)
  gkConj : db.indexGroup.requiresConj →
    ∀ k : Fin 2, CompressedSlices.hasLen db.innerProdConjGk[k] (N * db.indexGroup.loopLen)
  noConj : ¬db.indexGroup.requiresConj → CompressedSlices.hasLen db.transformedEntriesConj 0

theorem getSlices_spec {size : ℕ} {memory rest : Array CompressedZnx8El} {s : CompressedSlices}
    (h : getSlices size memory = some (s, rest)) : CompressedSlices.hasLen s size := by
  simp only [getSlices, getCompressedZnx8El, bind, StateT.bind, pure, StateT.pure,
    Option.bind_eq_some_iff, Option.ite_none_right_eq_some, Option.some.injEq, Prod.exists,
    Prod.mk.injEq] at h
  obtain ⟨a, m₁, ⟨h1, rfl, rfl⟩, b, m₂, ⟨h2, rfl, rfl⟩, rfl, rfl⟩ := h
  simp only [CompressedSlices.hasLen, Array.size_extract] at h2 ⊢
  omega

omit [NeZero N] in
theorem getConjSlices_spec {g : IndexGroup N} {size : ℕ} {memory rest : Array CompressedZnx8El}
    {s : CompressedSlices} (h : getConjSlices g size memory = some (s, rest)) :
    (g.requiresConj → CompressedSlices.hasLen s size) ∧
      (¬g.requiresConj → CompressedSlices.hasLen s 0) := by
  rw [getConjSlices] at h
  split at h
  next hc => exact ⟨fun _ => getSlices_spec h, fun hn => absurd hc hn⟩
  next hc =>
    simp only [pure, StateT.pure, Option.some.injEq, Prod.mk.injEq] at h
    obtain ⟨rfl, -⟩ := h
    exact ⟨fun h' => absurd h' hc, fun _ => ⟨rfl, rfl⟩⟩

/-- The table for the rows of the entry matrix belongs to the same root. -/
structure SubgroupOk (db : PIRDatabase N t) (r : Roots) : Prop where
  root_rep : rnsBase0.Rep db.lenSubgroupOrderNtts.1.root fun _ =>
    r.z0 ^ (2 * 2 ^ (Nat.clog 2 N - Nat.clog 2 db.indexGroup.groupOrder))
  root_reduced : ∀ c, Avx.lane db.lenSubgroupOrderNtts.1.root c ≤ rnsBase0.modulus
  log2n : db.lenSubgroupOrderNtts.1.log2n = Nat.clog 2 db.indexGroup.groupOrder

/-- **What `create` establishes**, whatever the memory held. -/
theorem create_spec (hfm : fm.Correct) {g : IndexGroup N} {useSeeds : UsedSeeds}
    {memory : Array CompressedZnx8El} (h : create fm t g useSeeds memory = some db) :
    db.indexGroup = g ∧ db.useSeeds = useSeeds ∧ N = 2 ^ Nat.clog 2 N ∧
      ∃ r, DbOk db r ∧ DbShape db ∧ SubgroupOk db r := by
  simp only [create, createRnsBase_eq, Option.bind_eq_bind, Option.bind_some] at h
  split at h
  next hN =>
    simp only [Option.bind_eq_some_iff, Option.pure_def, Option.some.injEq, Prod.exists] at h
    obtain ⟨te, m₁, hte, teConj, m₂, hteConj, gk0, m₃, hgk0, gk1, m₄, hgk1, gkConj0, m₅, hgkConj0,
      gkConj1, m₆, hgkConj1, zeta0, hz0, zeta1, hz1, rfl⟩ := h
    obtain ⟨z0, hn0⟩ := nttOk_create hfm (by decide) hN.1 hz0
    obtain ⟨z1, hn1⟩ := nttOk_create hfm (by decide) hN.1 hz1
    obtain ⟨hroot, hred⟩ := rep_createNtt hfm hn0.zeta_rep
      (2 * 2 ^ (Nat.clog 2 N - Nat.clog 2 g.groupOrder))
      (Nat.clog 2 g.groupOrder)
    refine ⟨rfl, rfl, hN.1, ⟨z0, z0⁻¹, z1, z1⁻¹⟩, ⟨hn0, hn1⟩, ?_, ⟨hroot, hred, rfl⟩⟩
    refine ⟨getSlices_spec hte, fun k => ?_, (getConjSlices_spec hteConj).1, fun hc k => ?_,
      (getConjSlices_spec hteConj).2⟩
    · fin_cases k
      · exact getSlices_spec hgk0
      · exact getSlices_spec hgk1
    · fin_cases k
      · exact (getConjSlices_spec hgkConj0).1 hc
      · exact (getConjSlices_spec hgkConj1).1 hc
  next => cases h

/-! ## `create` succeeds -/

theorem getSlices_isSome {memory : Array CompressedZnx8El} (size : ℕ) (h : 2 * size ≤ memory.size) :
    ∃ s rest, getSlices size memory = some (s, rest) ∧ rest.size = memory.size - 2 * size := by
  have h1 : size ≤ memory.size := by omega
  have h2 : size ≤ (memory.extract size memory.size).size := by
    rw [Array.size_extract]
    omega
  refine ⟨⟨memory.extract 0 size, _⟩, _, by
    simp only [getSlices, getCompressedZnx8El, bind, StateT.bind, pure, StateT.pure, if_pos h1,
      if_pos h2, Option.bind_some]
    rfl, ?_⟩
  rw [Array.size_extract, Array.size_extract]
  omega

omit [NeZero N] in
theorem getConjSlices_isSome {memory : Array CompressedZnx8El} (g : IndexGroup N) (size : ℕ)
    (h : g.requiresConj → 2 * size ≤ memory.size) :
    ∃ s rest, getConjSlices g size memory = some (s, rest) ∧
      rest.size = if g.requiresConj then memory.size - 2 * size else memory.size := by
  by_cases hc : g.requiresConj
  · obtain ⟨s, rest, he, hs⟩ := getSlices_isSome size (h hc)
    exact ⟨s, rest, by rw [getConjSlices, if_pos hc, he], by rw [if_pos hc, hs]⟩
  · exact ⟨⟨#[], #[]⟩, memory, by rw [getConjSlices, if_neg hc]; rfl, by rw [if_neg hc]⟩

omit [NeZero N] in
/-- A group is the full one, with half the rounds of its order, or smaller
than `N`. -/
theorem groupOrder_cases (g : IndexGroup N) :
    (g.requiresConj ∧ g.groupOrder = N ∧ g.loopLen = N / 2) ∨
      (¬g.requiresConj ∧ g.groupOrder < N ∧ g.loopLen = g.groupOrder) := by
  have hv := g.valid
  by_cases hl : g.l = N
  · exact .inl ⟨by simp [IndexGroup.requiresConj, hl], hl, by simp [IndexGroup.loopLen, hl]⟩
  · have hlt : g.l < N := by omega
    exact .inr ⟨by simp [IndexGroup.requiresConj, hl], hlt, by
      simp [IndexGroup.loopLen, hlt, IndexGroup.groupOrder]⟩

theorem createZeta_isSome (hfm : fm.Correct) {K : ℕ} {Z : SpecialZnx8 K} (hp : Z.modulus.Prime)
    {log2N : ℕ} (h : 2 ^ (log2N + 1) ∣ Z.modulus - 1) : ∃ zeta, createZeta fm Z log2N = some zeta := by
  obtain ⟨z, hz⟩ := Option.isSome_iff_exists.mp (hfm.exists_root hp h)
  exact ⟨_, by simp [createZeta, hz]; rfl⟩

omit [NeZero N] in
/-- `create` succeeds on memory of the required size, for the ranks both
residue rings have roots of unity for. -/
theorem create_isSome (hfm : fm.Correct) (g : IndexGroup N) (useSeeds : UsedSeeds) {log : ℕ}
    (hN : N = 2 ^ log) (hlog : log ≤ log2N) {memory : Array CompressedZnx8El}
    (hmem : memory.size = requiredMemoryGeneral g) :
    ∃ db : PIRDatabase N t, create fm t g useSeeds memory = some db := by
  have hclog : Nat.clog 2 N = log := by rw [hN, Nat.clog_pow 2 log (by norm_num)]
  have hroot : 2 ^ (Nat.clog 2 N + 1) ∣ 2 ^ 12 :=
    pow_dvd_pow 2 (by rw [hclog]; unfold log2N at hlog; omega)
  obtain ⟨zeta0, hz0⟩ := createZeta_isSome hfm (Z := rnsBase0) Fact.out (hroot.trans (by decide))
  obtain ⟨zeta1, hz1⟩ := createZeta_isSome hfm (Z := rnsBase1) Fact.out (hroot.trans (by decide))
  have hconj : g.requiresConj → 12 * (N * g.loopLen) ≤ memory.size := fun hc => by
    obtain ⟨-, ho, hl⟩ | ⟨hn, -⟩ := groupOrder_cases g
    · rw [hmem, requiredMemoryGeneral, ho, hl]
      have := Nat.mul_le_mul_left N (Nat.div_mul_le_self N 2)
      simp only [gkDigits]
      nlinarith
    · exact absurd hc hn
  have hplain : 6 * (N * g.loopLen) ≤ memory.size := by
    obtain ⟨hc, -⟩ | ⟨-, -, hl⟩ := groupOrder_cases g
    · have := hconj hc
      omega
    · rw [hmem, requiredMemoryGeneral, hl]
      simp only [gkDigits]
      nlinarith
  obtain ⟨te, m₁, e₁, s₁⟩ := getSlices_isSome (N * g.loopLen) (show _ ≤ memory.size by omega)
  obtain ⟨teConj, m₂, e₂, s₂⟩ := getConjSlices_isSome g (N * g.loopLen) fun hc => show _ ≤ m₁.size by
    have := hconj hc
    omega
  obtain ⟨gk0, m₃, e₃, s₃⟩ := getSlices_isSome (N * g.loopLen) (show _ ≤ m₂.size by
    split at s₂
    next hc => have := hconj hc; omega
    next => omega)
  obtain ⟨gk1, m₄, e₄, s₄⟩ := getSlices_isSome (N * g.loopLen) (show _ ≤ m₃.size by
    split at s₂
    next hc => have := hconj hc; omega
    next => omega)
  obtain ⟨gkConj0, m₅, e₅, s₅⟩ := getConjSlices_isSome g (N * g.loopLen) fun hc => show _ ≤ m₄.size by
    have := hconj hc
    rw [if_pos hc] at s₂
    omega
  obtain ⟨gkConj1, m₆, e₆, s₆⟩ := getConjSlices_isSome g (N * g.loopLen) fun hc => show _ ≤ m₅.size by
    have := hconj hc
    rw [if_pos hc] at s₂ s₅
    omega
  have hN' : N = 2 ^ Nat.clog 2 N := by rw [hclog, hN]
  exact ⟨_, by
    simp only [create, if_pos (And.intro hN' hmem.symm), createRnsBase_eq, e₁, e₂, e₃, e₄, e₅, e₆,
      hz0, hz1, Option.bind_eq_bind, Option.bind_some]
    rfl⟩

end Dnspir
