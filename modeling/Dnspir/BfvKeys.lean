/-
Keys of `bfv`.

* `galS_spec`: the coefficient indices of the Galois key apply `X -> X^g`, as
  the moves of slots in `partial_gal` and in the kernel do
  (`automorphism_agree`).
* `genSk_weight`: the secret key has its Hamming weight exactly when all drawn
  positions differ and no drawn coefficient is zero.
-/
import Dnspir.BfvFacts
import Dnspir.PerformPirFacts

namespace Dnspir

open SpecialZnx8 PIRDatabase Negacyclic

namespace Bfv

/-! ## The automorphism on coefficients -/

section Galois
variable {N q g w : ℕ} [NeZero N]

/-- The index `gen_gk_b` reads coefficient `i` from. -/
def newIdx (N w i : ℕ) : ℕ := i * w % (2 * N)

omit [NeZero N] in
theorem mul_newIdx (hgw : g * w ≡ 1 [MOD 2 * N]) (i : ℕ) : g * newIdx N w i ≡ i [MOD 2 * N] := by
  calc g * newIdx N w i ≡ g * (i * w) [MOD 2 * N] := (Nat.mod_modEq _ _).mul_left g
    _ = g * w * i := by ring
    _ ≡ 1 * i [MOD 2 * N] := hgw.mul_right i
    _ = i := one_mul i

omit [NeZero N] in
theorem odd_mul_modEq (hg : Odd g) : g * N ≡ N [MOD 2 * N] := by
  obtain ⟨k, rfl⟩ := hg
  rw [show (2 * k + 1) * N = N + 2 * N * k by ring]
  exact Nat.add_mul_mod_self_left _ _ _

omit [NeZero N] in
theorem newIdx_ne (hg : Odd g) (hgw : g * w ≡ 1 [MOD 2 * N]) (i : Fin N) : newIdx N w i ≠ N := by
  intro h
  have h0 := mul_newIdx hgw i.val
  rw [h] at h0
  have h1 : N ≡ i [MOD 2 * N] := (odd_mul_modEq hg).symm.trans h0
  have hi := i.isLt
  rw [Nat.ModEq, Nat.mod_eq_of_lt (by omega), Nat.mod_eq_of_lt (by omega)] at h1
  omega

theorem newIdx_lt (i : ℕ) : newIdx N w i < 2 * N := Nat.mod_lt _ (by have := NeZero.pos N; omega)

/-- The coefficient read, with its sign. -/
def galCoeff (N w : ℕ) [NeZero N] (s : Negacyclic N (ZMod q)) (i : Fin N) : ZMod q :=
  if newIdx N w i > N then -s.coeff ⟨newIdx N w i % N, Nat.mod_lt _ (NeZero.pos N)⟩
  else s.coeff ⟨newIdx N w i % N, Nat.mod_lt _ (NeZero.pos N)⟩

/-- One term of the key under the automorphism. -/
theorem galCoeff_term (hg : Odd g) (hgw : g * w ≡ 1 [MOD 2 * N]) (s : Negacyclic N (ZMod q))
    (i : Fin N) :
    (C (galCoeff N w s i) * X ^ i.val : Negacyclic N (ZMod q)) =
      C (s.coeff ⟨newIdx N w i % N, Nat.mod_lt _ (NeZero.pos N)⟩) * X ^ (g * (newIdx N w i % N)) := by
  have hlt := newIdx_lt (N := N) (w := w) i
  have hne := newIdx_ne hg hgw i
  have hpow : (X : Negacyclic N (ZMod q)) ^ (g * newIdx N w i) = X ^ i.val :=
    X_pow_congr (mul_newIdx hgw i)
  unfold galCoeff
  split
  next h =>
    -- Past `N` the power of the variable has wrapped once.
    have hmod : newIdx N w i = newIdx N w i % N + N := by
      rw [Nat.mod_eq_sub_mod h.le, Nat.mod_eq_of_lt (by omega)]
      omega
    have hX : (X : Negacyclic N (ZMod q)) ^ i.val = -X ^ (g * (newIdx N w i % N)) := by
      rw [← hpow]
      conv_lhs => rw [hmod]
      rw [mul_add, pow_add, mul_comm g N, pow_mul X N g, X_pow_n, hg.neg_one_pow, mul_neg_one]
    rw [hX, map_neg, neg_mul_neg]
  next h =>
    have hmod : newIdx N w i % N = newIdx N w i := Nat.mod_eq_of_lt (by omega)
    simp only [hmod, hpow]

theorem newIdx_mod_injective (hgw : g * w ≡ 1 [MOD 2 * N]) :
    Function.Injective fun i : Fin N => (⟨newIdx N w i % N, Nat.mod_lt _ (NeZero.pos N)⟩ : Fin N) := by
  intro i j h
  have h1 : newIdx N w i ≡ newIdx N w j [MOD N] := congrArg Fin.val h
  have hi := (mul_newIdx hgw i.val).of_dvd (Dvd.intro_left 2 rfl)
  have hj := (mul_newIdx hgw j.val).of_dvd (Dvd.intro_left 2 rfl)
  have h2 : i.val ≡ j.val [MOD N] := hi.symm.trans ((h1.mul_left g).trans hj)
  rw [Nat.ModEq, Nat.mod_eq_of_lt i.isLt, Nat.mod_eq_of_lt j.isLt] at h2
  exact Fin.ext h2

theorem galCoeff_eq_gal (hg : Odd g) (hgw : g * w ≡ 1 [MOD 2 * N]) (s : Negacyclic N (ZMod q)) :
    (⟨galCoeff N w s⟩ : Negacyclic N (ZMod q)) = gal g hg s := by
  rw [eq_sum (⟨galCoeff N w s⟩ : Negacyclic N (ZMod q)), gal_eq_sum]
  calc ∑ i : Fin N, C (galCoeff N w s i) * X ^ i.val
      = ∑ i : Fin N, C (s.coeff ⟨newIdx N w i % N, Nat.mod_lt _ (NeZero.pos N)⟩) *
          X ^ (g * (newIdx N w i % N)) :=
        Finset.sum_congr rfl fun i _ => galCoeff_term hg hgw s i
    _ = ∑ j : Fin N, C (s.coeff j) * X ^ (g * j.val) :=
        (Finite.injective_iff_bijective.mp (newIdx_mod_injective hgw)).sum_comp
          fun j : Fin N => C (s.coeff j) * (X : Negacyclic N (ZMod q)) ^ (g * j.val)

omit [NeZero N] in
/-- The index expression of the source. -/
theorem val_mul_natCast (i : ℕ) :
    (((i : ℤ) : ZMod (2 * N)) * ((w : ℕ) : ZMod (2 * N))).val = newIdx N w i := by
  rw [Int.cast_natCast, ← Nat.cast_mul, ZMod.val_natCast]
  rfl

/-- **The Galois key's `gal_s` is the key under `X -> X^g`**, and its index
expression stays in range. -/
theorem galS_spec (hg : Odd g) (hN : Nat.Coprime g (2 * N)) (s : Negacyclic N (ZMod q)) :
    galS g s = some (gal g hg s) := by
  obtain ⟨w, -, hgw, hinv⟩ := exists_inv hN
  have hv : (Vector.ofFnM fun i : Fin N =>
      if newIdx N w i > N then (coeffAt s (newIdx N w i - N)).map (- ·) else coeffAt s (newIdx N w i)) =
      some (Vector.ofFn (galCoeff N w s)) := by
    refine Loops.ofFnM_eq_some fun i => ?_
    have hlt := newIdx_lt (N := N) (w := w) i
    have hne := newIdx_ne hg hgw i
    simp only [Positions.getElem_pos, Vector.getElem_ofFn, galCoeff]
    split
    next h =>
      have hmod : newIdx N w i % N = newIdx N w i - N := by
        rw [Nat.mod_eq_sub_mod h.le, Nat.mod_eq_of_lt (by omega)]
      simp only [coeffAt, dif_pos (show newIdx N w i - N < N by omega), Option.map_some, hmod]
    next h =>
      have hmod : newIdx N w i % N = newIdx N w i := Nat.mod_eq_of_lt (by omega)
      simp only [coeffAt, dif_pos (show newIdx N w i < N by omega), hmod]
  rw [galS, Int.cast_natCast, hinv]
  simp only [Option.bind_eq_bind, Option.bind_some, val_mul_natCast, hv, Option.pure_def,
    Option.some.injEq]
  rw [← galCoeff_eq_gal hg hgw s]
  exact Negacyclic.ext (funext fun i => by simp)

end Galois

/-- **One automorphism, four codings.** The coefficient indices of the Galois
key, the slot permutation of `partial_gal` and the scatter along the lookup
table apply the automorphism; the permutation along the table undoes it. -/
theorem automorphism_agree {N n : ℕ} [NeZero N] (hN : N = 2 ^ n) {g : ℕ} (hg : Odd g) :
    (∃ invG : ZMod (2 * N), Zn.invert ((g : ℤ) : ZMod (2 * N)) = some invG ∧
      ∀ i : Fin N, (((i.val : ℤ) : ZMod (2 * N)) * invG).val ≠ N) ∧
    (∀ {q : ℕ} (s : Negacyclic N (ZMod q)), galS g s = some (gal g hg s)) ∧
    (∀ {K : ℕ} {Z : SpecialZnx8 K} {zinv : Z.ComponentRing}, zinv ^ N = -1 →
      ∀ (zero : M512i) {v : Vector M512i N}
      {F : Fin 8 → Negacyclic N Z.ComponentRing}, SlotRep Z zinv v F →
      ∃ x, galSlots ((g : ℕ) : ZMod (2 * N)) zero v = some x ∧
        SlotRep Z zinv x fun c => gal g hg (F c)) ∧
    ∃ table, galoisLookupTable N = some table ∧
      ∀ {K : ℕ} {Z : SpecialZnx8 K} {zinv : Z.ComponentRing}, zinv ^ N = -1 →
      ∀ {v : Vector M512i N} {F : Fin 8 → Negacyclic N Z.ComponentRing}, SlotRep Z zinv v F →
      (∀ x : Vector M512i N, (∀ j : Fin N, x[table[j]]? = some v[j]) →
        SlotRep Z zinv x fun c => gal 5 odd_five (F c)) ∧
      ∃ x G, permute v (fun i => table[i]?) = some x ∧ SlotRep Z zinv x G ∧
        ∀ c, gal 5 odd_five (G c) = F c := by
  have hco : Nat.Coprime g (2 * N) := hN ▸ coprime_odd_two_pow hg n
  have h5 : Nat.Coprime 5 (2 * N) := hN ▸ coprime_five_two_pow n
  obtain ⟨u, -, hgu, hinv⟩ := exists_inv hco
  obtain ⟨w, table, hw, h5w, etable, ht⟩ := galoisLookupTable_spec h5
  have hw5 : w * 5 ≡ 1 [MOD 2 * N] := mul_comm 5 w ▸ h5w
  refine ⟨⟨_, by rw [Int.cast_natCast, hinv],
    fun i => val_mul_natCast (N := N) i.val ▸ newIdx_ne hg hgu i⟩, fun {_q} s => galS_spec hg hco s,
    fun {K Z zinv} hz zero {v F} hv => galSlots_gal hg hco hz zero hv,
    table, etable, fun {K Z zinv} hz {v F} hv => ⟨fun x hx => ?_, ?_⟩⟩
  · refine hv.scatter odd_five hw h5w hz fun i => ?_
    have h := hx i
    rw [ht i, Vector.getElem?_eq_getElem (moveSlot N w i).isLt, Option.some.injEq] at h
    exact h
  · refine ⟨_, _, permute_spec (moveSlot_injective hw odd_five hw5) (fun i => ?_) v,
      hv.move hw hz fun i => by simp, fun c => ?_⟩
    · rw [Vector.getElem?_eq_getElem i.isLt]
      exact congrArg some (ht i)
    · rw [gal_gal odd_five hw, gal_congr (odd_five.mul hw) odd_one h5w, gal_one]

theorem automorphism_agree_three : galS 3 (X : CipherRing 16) = some (gal 3 (by decide) X) :=
  (automorphism_agree (N := 16) (n := 4) (by norm_num) (by decide)).2.1 X

/-! ## The weight of the secret key -/

section Weight
variable {N q : ℕ} [NeZero N] {draws : ℕ → UInt64 × UInt32} {hwt : ℕ}

/-- The position round `k` of `gen_sk` writes. -/
def drawnIdx (N : ℕ) [NeZero N] (draws : ℕ → UInt64 × UInt32) (k : ℕ) : Fin N :=
  Fin.ofNat N (draws k).1.toNat

/-- The coefficient round `k` writes. -/
def drawnCoeff (draws : ℕ → UInt64 × UInt32) (k : ℕ) : ℤ := ((draws k).2.toNat % 3 : ℕ) - 1

/-- The fixed weight `gen_sk` is documented to have: coefficients in
`{-1, 0, 1}`, exactly `hwt` of them nonzero. -/
def FixedWeight (hwt : ℕ) (s : Negacyclic N (ZMod q)) : Prop :=
  (∀ i, s.coeff i = -1 ∨ s.coeff i = 0 ∨ s.coeff i = 1) ∧
    (Finset.univ.filter fun i => s.coeff i ≠ 0).card = hwt

instance (s : Negacyclic N (ZMod q)) : Decidable (FixedWeight hwt s) := instDecidableAnd

theorem drawnCoeff_cases (draws : ℕ → UInt64 × UInt32) (k : ℕ) :
    drawnCoeff draws k = -1 ∨ drawnCoeff draws k = 0 ∨ drawnCoeff draws k = 1 := by
  unfold drawnCoeff
  omega

theorem drawnCoeff_ne_zero {k : ℕ} : drawnCoeff draws k ≠ 0 ↔ (draws k).2.toNat % 3 ≠ 1 := by
  unfold drawnCoeff
  omega

theorem cast_drawnCoeff_ne_zero (hq : 1 < q) (k : ℕ) :
    ((drawnCoeff draws k : ℤ) : ZMod q) ≠ 0 ↔ drawnCoeff draws k ≠ 0 := by
  have : Fact (1 < q) := ⟨hq⟩
  rcases drawnCoeff_cases draws k with h | h | h <;> simp [h]

/-- **Each coefficient is the last one drawn for its position.** -/
theorem coeff_genSk (q : ℕ) (draws : ℕ → UInt64 × UInt32) (i : Fin N) :
    ((∀ k < hwt, drawnIdx N draws k ≠ i) ∧ (genSk q draws hwt).coeff i = 0) ∨
    ∃ k < hwt, drawnIdx N draws k = i ∧ (∀ j < hwt, drawnIdx N draws j = i → j ≤ k) ∧
      (genSk q draws hwt).coeff i = (drawnCoeff draws k : ℤ) := by
  simp only [genSk]
  induction hwt with
  | zero => exact .inl ⟨fun k hk => absurd hk (Nat.not_lt_zero k), by simp⟩
  | succ m ih =>
    rw [List.range_succ, List.foldl_append, List.foldl_cons, List.foldl_nil]
    by_cases hm : drawnIdx N draws m = i
    · refine .inr ⟨m, Nat.lt_succ_self m, hm, fun j hj _ => Nat.lt_succ_iff.mp hj, ?_⟩
      have hi : (draws m).1.toNat % N = i := congrArg Fin.val hm
      simp only [genSkStep, hi, Positions.getElem_pos, Vector.getElem_set_self]
      rfl
    · -- The round leaves position `i` as it was.
      have hi : (draws m).1.toNat % N ≠ i := fun h => hm (Fin.ext h)
      simp only [genSkStep, Positions.getElem_pos, Vector.getElem_set_ne _ _ hi]
      rcases ih with ⟨hnone, h0⟩ | ⟨k, hk, hki, hlast, hc⟩
      · refine .inl ⟨fun k hk => ?_, h0⟩
        rcases Nat.lt_succ_iff_lt_or_eq.mp hk with hk | rfl
        · exact hnone k hk
        · exact hm
      · refine .inr ⟨k, hk.trans (Nat.lt_succ_self m), hki, fun j hj hji => ?_, hc⟩
        rcases Nat.lt_succ_iff_lt_or_eq.mp hj with hj | rfl
        · exact hlast j hj hji
        · exact absurd hji hm

theorem coeff_genSk_cases (i : Fin N) :
    (genSk q draws hwt).coeff i = -1 ∨ (genSk q draws hwt).coeff i = 0 ∨
      (genSk q draws hwt).coeff i = 1 := by
  rcases coeff_genSk q draws i with ⟨-, h⟩ | ⟨k, -, -, -, h⟩
  · exact .inr (.inl h)
  · rw [h]
    rcases drawnCoeff_cases draws k with hk | hk | hk <;> simp [hk]

/-- The support, by the rounds that wrote it. -/
theorem support_genSk_subset (hq : 1 < q) (draws : ℕ → UInt64 × UInt32) (hwt : ℕ) :
    (Finset.univ.filter fun i => (genSk (N := N) q draws hwt).coeff i ≠ 0) ⊆
      ((Finset.range hwt).filter fun k => drawnCoeff draws k ≠ 0).image (drawnIdx N draws) := by
  intro i hi
  have hne := (Finset.mem_filter.mp hi).2
  rcases coeff_genSk q draws i with ⟨-, h⟩ | ⟨k, hk, hki, -, h⟩
  · exact absurd h hne
  · rw [h, cast_drawnCoeff_ne_zero hq] at hne
    exact Finset.mem_image.mpr ⟨k, Finset.mem_filter.mpr ⟨Finset.mem_range.mpr hk, hne⟩, hki⟩

/-- **The key has its weight exactly when no position is drawn twice and no
drawn coefficient is zero.** -/
theorem genSk_weight (hq : 1 < q) (draws : ℕ → UInt64 × UInt32) (hwt : ℕ) :
    FixedWeight hwt (genSk (N := N) q draws hwt) ↔
      (∀ i < hwt, ∀ j < hwt, (draws i).1.toNat % N = (draws j).1.toNat % N → i = j) ∧
        ∀ k < hwt, (draws k).2.toNat % 3 ≠ 1 := by
  constructor
  · intro h'
    obtain ⟨-, hcard⟩ := h'
    -- `hwt` positions are written at most once for each nonzero draw.
    have hle := Finset.card_le_card (support_genSk_subset (N := N) hq draws hwt)
    have himage := Finset.card_image_le (s := (Finset.range hwt).filter fun k => drawnCoeff draws k ≠ 0)
      (f := drawnIdx N draws)
    have hfilter := Finset.card_filter_le (Finset.range hwt) fun k => drawnCoeff draws k ≠ 0
    rw [hcard] at hle
    rw [Finset.card_range] at hfilter
    have hall : (Finset.range hwt).filter (fun k => drawnCoeff draws k ≠ 0) = Finset.range hwt :=
      Finset.eq_of_subset_of_card_le (Finset.filter_subset _ _) (by rw [Finset.card_range]; omega)
    rw [hall] at hle himage
    have hinj : Set.InjOn (drawnIdx N draws) (Finset.range hwt) := Finset.card_image_iff.mp <| by
      rw [Finset.card_range] at himage ⊢
      omega
    refine ⟨fun i hi j hj hij => hinj (by simpa using hi) (by simpa using hj) (Fin.ext hij),
      fun k hk => ?_⟩
    have hk' := Finset.mem_range.mpr hk
    rw [← hall] at hk'
    exact drawnCoeff_ne_zero.mp (Finset.mem_filter.mp hk').2
  · intro h'
    obtain ⟨hinj, hne⟩ := h'
    refine ⟨coeff_genSk_cases, ?_⟩
    have hsupp : (Finset.univ.filter fun i => (genSk (N := N) q draws hwt).coeff i ≠ 0) =
        (Finset.range hwt).image (drawnIdx N draws) := by
      refine ((support_genSk_subset hq draws hwt).trans
        (Finset.image_subset_image (Finset.filter_subset _ _))).antisymm ?_
      intro i hi
      obtain ⟨k, hk, rfl⟩ := Finset.mem_image.mp hi
      have hk := Finset.mem_range.mp hk
      rcases coeff_genSk q draws (drawnIdx N draws k) with ⟨hnone, -⟩ | ⟨j, hj, hji, -, h⟩
      · exact absurd rfl (hnone k hk)
      · rw [hinj j hj k hk (congrArg Fin.val hji)] at h
        refine Finset.mem_filter.mpr ⟨Finset.mem_univ _, ?_⟩
        rw [h, cast_drawnCoeff_ne_zero hq]
        exact drawnCoeff_ne_zero.mpr (hne k hk)
    rw [hsupp, Finset.card_image_of_injOn, Finset.card_range]
    intro i hi j hj hij
    exact hinj i (by simpa using hi) j (by simpa using hj) (congrArg Fin.val hij)

theorem genSk_weight_two : FixedWeight 2 (genSk (N := 4) 7 (fun k => (UInt64.ofNat k, 0)) 2) :=
  (genSk_weight (by decide) _ 2).mpr ⟨by decide, by decide⟩

/-- Both draws fall on the same position. -/
theorem genSk_light : ¬ FixedWeight 2 (genSk (N := 16) fixedQ (fun _ => (0, 0)) 2) := by
  decide

end Weight

end Bfv

end Dnspir
