/-
What a query retrieves from the stored form of a shard.

`setTransformedEntries_retrieval`: the plain recurrence over the stored
elements, at the power of `X` a query encrypts, is the entry the query asks
for, for both kinds of index group. The sum over the rounds is a sum over
the powers of 5 (and their negatives) of a character of the query, which
vanishes at every other entry (`sum_rounds`, `sum_rounds_conj`).
-/
import Dnspir.SetDbFacts
import Dnspir.ReplyPhase

namespace Dnspir

open SpecialZnx8 PIRDatabase Negacyclic

variable {N : ℕ} [NeZero N]

/-! ## The sum over the rounds -/

section Rounds
variable {R : Type} [CommRing R] {b k l : ℕ}

/-- `X^{-1}`. -/
def Xinv : Negacyclic N R := X ^ (2 * N - 1)

theorem X_mul_Xinv : (X : Negacyclic N R) * Xinv = 1 := by
  rw [Xinv, ← pow_succ', Nat.sub_add_cancel (by have := NeZero.pos N; omega), X_pow_two_n]

/-- The exponent of entry `j` at the query for `idx`: `idx - j`, without a
subtraction. -/
def distance (N j idx : ℕ) : ℕ := (2 * N - 1) * j + idx

theorem distance_self (j : ℕ) : distance N j j = 2 * N * j := by
  have h : (2 * N - 1) * j + j = (2 * N - 1 + 1) * j := by ring
  rw [distance, h, Nat.sub_add_cancel (by have := NeZero.pos N; omega)]

theorem dvd_distance_iff {M : ℕ} (hM : M ∣ 2 * N) {j idx : ℕ} (hj : j < M) (hidx : idx < M) :
    M ∣ distance N j idx ↔ j = idx := by
  constructor
  · intro h
    have hself : M ∣ distance N j j := distance_self (N := N) j ▸ Dvd.dvd.mul_right hM j
    have hmod : distance N j idx ≡ distance N j j [MOD M] :=
      (Nat.modEq_zero_iff_dvd.mpr h).trans (Nat.modEq_zero_iff_dvd.mpr hself).symm
    have := Nat.ModEq.add_left_cancel' _ hmod
    rw [Nat.ModEq, Nat.mod_eq_of_lt hj, Nat.mod_eq_of_lt hidx] at this
    exact this.symm
  · rintro rfl
    exact distance_self (N := N) j ▸ Dvd.dvd.mul_right hM j

theorem pow_distance_self (y : Negacyclic N R) (hy : y ^ (2 * N) = 1) (j : ℕ) :
    y ^ distance N j j = 1 := by
  rw [distance_self, pow_mul, hy, one_pow]

theorem X_pow_pow_two_n (k : ℕ) : ((X : Negacyclic N R) ^ k) ^ (2 * N) = 1 := by
  rw [← pow_mul, mul_comm, pow_mul, X_pow_two_n, one_pow]

/-- The rounds of a proper subgroup select the entry of the query. -/
theorem sum_rounds (hN : N = 2 * k * 2 ^ b) (a : Fin l → Negacyclic N R) (hl : l = 2 ^ b)
    (idx : Fin l) :
    ∑ s ∈ Finset.range (2 ^ b), ∑ j, a j * (X ^ k) ^ (distance N j idx * 5 ^ s) = 2 ^ b * a idx := by
  have hy : ((X : Negacyclic N R) ^ k) ^ (2 * 2 ^ b) = -1 := by
    rw [← pow_mul, show k * (2 * 2 ^ b) = 2 * k * 2 ^ b by ring, ← hN, X_pow_n]
  have hdvd : l ∣ 2 * N := by
    rw [hl]
    exact ⟨4 * k, by conv_lhs => rw [hN]
                     ring⟩
  rw [Finset.sum_comm]
  simp only [← Finset.mul_sum, PowersOfFive.sum_pow_five hy]
  simp only [← hl, dvd_distance_iff hdvd (Fin.is_lt _) idx.isLt]
  rw [Finset.sum_eq_single_of_mem idx (Finset.mem_univ _) fun j _ hj => by
    rw [if_neg fun h => hj (Fin.ext h), mul_zero]]
  rw [if_pos rfl, pow_distance_self _ (X_pow_pow_two_n k), mul_one, mul_comm]

/-- So do both loops of the full group. -/
theorem sum_rounds_conj (hN : N = 2 * 2 ^ b) (a : Fin l → Negacyclic N R) (hl : l = 2 * 2 ^ b)
    (idx : Fin l) :
    ∑ s ∈ Finset.range (2 ^ b), ∑ j, a j *
      (X ^ (distance N j idx * 5 ^ s) + Xinv ^ (distance N j idx * 5 ^ s)) =
      2 * 2 ^ b * a idx := by
  have hy : (X : Negacyclic N R) ^ (2 * 2 ^ b) = -1 := by rw [← hN, X_pow_n]
  have hdvd : l ∣ 2 * N := ⟨2, by rw [hl, ← hN, mul_comm]⟩
  rw [Finset.sum_comm]
  simp only [← Finset.mul_sum, PowersOfFive.sum_pow_five_inv hy X_mul_Xinv]
  simp only [← hl, dvd_distance_iff hdvd (Fin.is_lt _) idx.isLt]
  rw [Finset.sum_eq_single_of_mem idx (Finset.mem_univ _) fun j _ hj => by
    rw [if_neg fun h => hj (Fin.ext h), mul_zero]]
  rw [if_pos rfl, pow_distance_self _ X_pow_two_n, mul_one, mul_comm]

theorem Xinv_pow_pred : (Xinv : Negacyclic N R) ^ (2 * N - 1) = X := by
  calc (Xinv : Negacyclic N R) ^ (2 * N - 1) = X * Xinv * Xinv ^ (2 * N - 1) := by rw [X_mul_Xinv, one_mul]
    _ = X * (Xinv ^ (2 * N - 1) * Xinv) := by ring
    _ = X := by
      rw [← pow_succ, Nat.sub_add_cancel (by have := NeZero.pos N; omega), Xinv, X_pow_pow_two_n,
        mul_one]

variable {w : ℕ}

/-- The online automorphisms undo those of step 4. -/
theorem gal_iterate_undo (hw : Odd w) {e s : ℕ} (h : 5 ^ s * w ^ e ≡ 1 [MOD 2 * N])
    (f : Negacyclic N R) :
    (Negacyclic.gal 5 odd_five)^[s] (Negacyclic.gal (w ^ e) hw.pow f) = f := by
  rw [gal_iterate, gal_gal, gal_congr _ odd_one h, gal_one]

theorem gal_iterate_mul (s : ℕ) (f f' : Negacyclic N R) : (Negacyclic.gal 5 odd_five)^[s] (f * f') =
    (Negacyclic.gal 5 odd_five)^[s] f * (Negacyclic.gal 5 odd_five)^[s] f' := by
  simp only [gal_iterate, map_mul]

theorem gal_iterate_X (s e : ℕ) :
    (Negacyclic.gal 5 odd_five)^[s] (X ^ e : Negacyclic N R) = X ^ (5 ^ s * e) := by
  rw [gal_iterate, gal_X]

/-- What round `s` of the plain loop contributes. -/
theorem round_plain (hw : Odd w) (h5 : 5 * w ≡ 1 [MOD 2 * N]) (a : Fin l → Negacyclic N R) (s idx : ℕ) :
    (Negacyclic.gal 5 odd_five)^[s]
      (Negacyclic.gal (w ^ s) hw.pow (powerSum a ((2 * N - 1) * (k * 5 ^ s))) *
      X ^ (idx * k)) = ∑ j, a j * (X ^ k) ^ (distance N j idx * 5 ^ s) := by
  have h1 : 5 ^ s * w ^ s ≡ 1 [MOD 2 * N] := by
    rw [← mul_pow]
    simpa using h5.pow s
  rw [gal_iterate_mul, gal_iterate_undo hw h1, gal_iterate_X, powerSum, Finset.sum_mul]
  refine Finset.sum_congr rfl fun j _ => ?_
  rw [mul_assoc, ← pow_add, ← pow_mul, distance]
  congr 2
  ring

/-- What round `s` of the conjugate loop contributes. -/
theorem round_conj (hN : 2 * N = 4 * 2 ^ b) (hw : Odd w) (h5 : 5 * w ≡ 1 [MOD 2 * N])
    (a : Fin l → Negacyclic N R) (s idx : ℕ) :
    (Negacyclic.gal 5 odd_five)^[s] (Negacyclic.gal (w ^ (2 ^ b + s)) hw.pow (powerSum a (5 ^ s)) *
      Xinv ^ idx) = ∑ j, a j * Xinv ^ (distance N j idx * 5 ^ s) := by
  have hb : w ^ 2 ^ b ≡ 1 [MOD 2 * N] := by
    have h := h5.pow (2 ^ b)
    rw [mul_pow, one_pow] at h
    have h5b : 5 ^ 2 ^ b ≡ 1 [MOD 2 * N] := hN ▸ PowersOfFive.five_pow_two_pow b
    simpa using (h5b.mul_right (w ^ 2 ^ b)).symm.trans h
  have h1 : 5 ^ s * w ^ (2 ^ b + s) ≡ 1 [MOD 2 * N] := by
    have h := (h5.pow s).mul hb
    rw [mul_pow, one_pow, one_mul] at h
    rwa [pow_add, mul_comm (w ^ 2 ^ b), ← mul_assoc]
  rw [gal_iterate_mul, gal_iterate_undo hw h1, Xinv, ← pow_mul, gal_iterate_X, powerSum, Finset.sum_mul]
  refine Finset.sum_congr rfl fun j _ => ?_
  have hsplit : (X ^ (2 * N - 1) : Negacyclic N R) ^ (distance N j idx * 5 ^ s) =
      X ^ (5 ^ s * j.val) * X ^ (5 ^ s * ((2 * N - 1) * idx)) := by
    calc (X ^ (2 * N - 1) : Negacyclic N R) ^ (distance N j idx * 5 ^ s)
        = (Xinv ^ (2 * N - 1)) ^ (5 ^ s * j.val) * X ^ (5 ^ s * ((2 * N - 1) * idx)) := by
          rw [Xinv, ← pow_mul, ← pow_mul, ← pow_mul, ← pow_add, distance]
          congr 1
          ring
      _ = X ^ (5 ^ s * j.val) * X ^ (5 ^ s * ((2 * N - 1) * idx)) := by rw [Xinv_pow_pred]
  rw [hsplit, mul_assoc]

end Rounds

/-! ## The stored elements in the plaintext ring -/

section Plain
variable {t : ℕ} [NeZero t]

/-- A stored element reduced mod `t`. -/
def toPlain (f : CipherRing N) : PlainRing t N := ⟨fun i => ((f.coeff i).valMinAbs : ZMod t)⟩

/-- Reduction of the integers mod `t`. -/
def toPlainInt : Negacyclic N ℤ →+* PlainRing t N := map (Int.castRingHom (ZMod t))

theorem toPlain_rescaled (ht : t < fixedQ) (scale : ZMod t) (f : Negacyclic N ℤ) :
    toPlain (rescaled scale f) = C scale * toPlainInt f := by
  refine Negacyclic.ext (funext fun i => ?_)
  have hsmall : 2 * |((f.coeff i : ZMod t) * scale).valMinAbs| < fixedQ := by
    have h := ZMod.natAbs_valMinAbs_le ((f.coeff i : ZMod t) * scale)
    rw [← Int.natCast_natAbs]
    omega
  rw [C_mul_coeff]
  simp only [toPlain, rescaled, valMinAbs_intCast hsmall, ZMod.coe_valMinAbs, toPlainInt, coeff_map,
    eq_intCast]
  exact mul_comm _ _

theorem toPlainInt_laneEntry {l : ℕ} (entries : List (PlainRing t N)) (c : Fin 8) (j : Fin l) :
    toPlainInt (laneEntry entries c j) = entries.getD (8 * j.val + c.val) 0 := by
  refine Negacyclic.ext (funext fun i => ?_)
  simp only [toPlainInt, coeff_map, laneEntry, entryLift, eq_intCast, Int.cast_natCast,
    ZMod.natCast_zmod_val]

theorem toPlainInt_column (entries : List (PlainRing t N)) (g : IndexGroup N) {w : ℕ} (hw : Odd w)
    (c : Fin 8) (i : ℕ) :
    toPlainInt (column g hw (laneEntry entries c) i) = Negacyclic.gal (w ^ reversed g i) hw.pow
      (powerSum (fun j : Fin g.groupOrder => entries.getD (8 * j.val + c.val) 0)
        (g.exponent (reversed g i))) := by
  have he := fun j : Fin g.groupOrder => toPlainInt_laneEntry entries c j
  simp only [toPlainInt] at he ⊢
  rw [column, map_gal, map_powerSum]
  simp only [he]

omit [NeZero N] in
theorem reversed_plain {g : IndexGroup N} {b i : ℕ} (h : GroupShape g b) (hi : i < 2 ^ b) :
    reversed g i = 2 ^ b - 1 - i := by
  rw [reversed]
  split
  next hc =>
    have := h.half hc
    rw [if_pos (by omega), this]
  next hc => rw [h.plain hc]

omit [NeZero N] in
theorem reversed_conj {g : IndexGroup N} {b i : ℕ} (h : GroupShape g b) (hc : g.requiresConj)
    (hi : i < 2 ^ b) :
    reversed g (2 ^ b + i) = 2 ^ b + (2 ^ b - 1 - i) := by
  have hhalf := h.half hc
  have hr := h.rank
  rw [(h.conj hc).1] at hr
  rw [reversed, if_pos hc, if_neg (by omega)]
  omega

omit [NeZero N] in
theorem exponent_plain {g : IndexGroup N} {b s : ℕ} (h : GroupShape g b) (hs : s < 2 ^ b) :
    g.exponent s = (2 * N - 1) * (g.queryBasePower * 5 ^ s) := by
  rw [IndexGroup.exponent, if_neg]
  intro h'
  obtain ⟨hc, hle⟩ := h'
  have := h.half hc
  omega

omit [NeZero N] in
theorem exponent_conj {g : IndexGroup N} {b s : ℕ} (h : GroupShape g b) (hc : g.requiresConj) :
    g.exponent (2 ^ b + s) = 5 ^ s := by
  have hhalf := h.half hc
  rw [IndexGroup.exponent, if_pos ⟨hc, by omega⟩, (h.conj hc).1, one_mul, hhalf,
    Nat.add_sub_cancel_left]

variable {g : IndexGroup N} {b w : ℕ}

omit [NeZero t] in
theorem gal_iterate_C_mul (s : ℕ) (x : ZMod t) (f : PlainRing t N) :
    (Negacyclic.gal 5 odd_five)^[s] (C x * f) = C x * (Negacyclic.gal 5 odd_five)^[s] f := by
  simp only [gal_iterate, map_mul, gal_C]

/-- The plain loop, as a sum over the rounds. -/
theorem sum_plain (h : GroupShape g b) (hw : Odd w) (h5 : 5 * w ≡ 1 [MOD 2 * N])
    (entries : List (PlainRing t N)) (scale : ZMod t) (c : Fin 8) (idx : ℕ) :
    ∑ i ∈ Finset.range (2 ^ b), (Negacyclic.gal 5 odd_five)^[2 ^ b - 1 - i]
        (C scale * toPlainInt (column g hw (laneEntry entries c) i) * X ^ (idx * g.queryBasePower)) =
      C scale * ∑ s ∈ Finset.range (2 ^ b), ∑ j : Fin g.groupOrder, entries.getD (8 * j.val + c.val) 0 *
        (X ^ g.queryBasePower) ^ (distance N j idx * 5 ^ s) := by
  rw [Finset.mul_sum, ← Finset.sum_range_reflect]
  refine Finset.sum_congr rfl fun i hi => ?_
  have hi := Finset.mem_range.mp hi
  have hpos := Nat.two_pow_pos b
  rw [show 2 ^ b - 1 - (2 ^ b - 1 - i) = i by omega, mul_assoc, gal_iterate_C_mul, toPlainInt_column,
    reversed_plain h (by omega), show 2 ^ b - 1 - (2 ^ b - 1 - i) = i by omega, exponent_plain h hi,
    round_plain hw h5]

/-- The conjugate loop, as a sum over the rounds. -/
theorem sum_conj (h : GroupShape g b) (hc : g.requiresConj) (hw : Odd w) (h5 : 5 * w ≡ 1 [MOD 2 * N])
    (entries : List (PlainRing t N)) (scale : ZMod t) (c : Fin 8) (idx : ℕ) :
    ∑ i ∈ Finset.range (2 ^ b), (Negacyclic.gal 5 odd_five)^[2 ^ b - 1 - i]
        (C scale * toPlainInt (column g hw (laneEntry entries c) (2 ^ b + i)) *
          Xinv ^ (idx * g.queryBasePower)) =
      C scale * ∑ s ∈ Finset.range (2 ^ b), ∑ j : Fin g.groupOrder, entries.getD (8 * j.val + c.val) 0 *
        Xinv ^ (distance N j idx * 5 ^ s) := by
  rw [Finset.mul_sum, ← Finset.sum_range_reflect]
  refine Finset.sum_congr rfl fun i hi => ?_
  have hi := Finset.mem_range.mp hi
  have hpos := Nat.two_pow_pos b
  rw [show 2 ^ b - 1 - (2 ^ b - 1 - i) = i by omega, mul_assoc, gal_iterate_C_mul, toPlainInt_column,
    reversed_conj h hc (by omega), show 2 ^ b - 1 - (2 ^ b - 1 - i) = i by omega, exponent_conj h hc,
    (h.conj hc).1, mul_one, round_conj (h.four_dvd hc) hw h5]

/-- **The recurrence selects the entry of the query**, in one lane. -/
theorem retrieval_lane (h : GroupShape g b) (hw : Odd w) (h5 : 5 * w ≡ 1 [MOD 2 * N])
    (entries : List (PlainRing t N)) {scale : ZMod t} (hscale : (g.groupOrder : ZMod t) * scale = 1)
    (c : Fin 8) (idx : Fin g.groupOrder) :
    ∑ i ∈ Finset.range (2 ^ b), (Negacyclic.gal 5 odd_five)^[2 ^ b - 1 - i]
        (C scale * toPlainInt (column g hw (laneEntry entries c) i) *
          X ^ (idx.val * g.queryBasePower)) +
      (if g.requiresConj then ∑ i ∈ Finset.range (2 ^ b), (Negacyclic.gal 5 odd_five)^[2 ^ b - 1 - i]
        (C scale * toPlainInt (column g hw (laneEntry entries c) (2 ^ b + i)) *
          Xinv ^ (idx.val * g.queryBasePower))
      else 0) = entries.getD (8 * idx.val + c.val) 0 := by
  have hC : C scale * ((g.groupOrder : ℕ) : PlainRing t N) = 1 := by
    rw [← map_natCast C, ← map_mul, mul_comm, hscale, map_one]
  rw [sum_plain h hw h5]
  by_cases hc : g.requiresConj
  · obtain ⟨hk, ho⟩ := h.conj hc
    have hr := h.rank
    rw [hk] at hr
    rw [if_pos hc, sum_conj h hc hw h5, ← mul_add, ← Finset.sum_add_distrib]
    simp only [← Finset.sum_add_distrib, ← mul_add, hk, pow_one]
    rw [sum_rounds_conj (by omega) _ ho idx, ← mul_assoc]
    rw [ho] at hC
    push_cast at hC
    rw [hC, one_mul]
  · have ho := h.plain hc
    rw [if_neg hc, add_zero, sum_rounds h.rank _ ho idx, ← mul_assoc]
    rw [ho] at hC
    push_cast at hC
    rw [hC, one_mul]

end Plain

/-! ## The stored shard -/

section Shard
variable {fm : FeanorMath} {t : ℕ}

/-- The residue ring of the first factor has roots of unity for ranks up to
2048 only. -/
theorem DbOk.rank_le {db : PIRDatabase N t} {r : Roots} (h : DbOk db r) {n : ℕ} (hN : N = 2 ^ n) :
    N ≤ 2048 := by
  have hne : r.z0 ≠ 0 := h.ok0.prim.ne_zero (by have := NeZero.pos N; omega)
  have hdvd : 2 * N ∣ 2 ^ 12 * (2 ^ 14 - 1) :=
    h.ok0.prim.dvd_of_pow_eq_one _ (ZMod.pow_card_sub_one_eq_one hne)
  rw [hN, ← pow_succ'] at hdvd
  have hco : Nat.Coprime (2 ^ (n + 1)) (2 ^ 14 - 1) := Nat.Coprime.pow_left _ (by decide)
  have hle : n + 1 ≤ 12 := (Nat.pow_dvd_pow_iff_le_right (show 1 < 2 by norm_num)).mp
    (hco.dvd_of_dvd_mul_right hdvd)
  rw [hN]
  exact Nat.pow_le_pow_right (by norm_num) (show n ≤ 11 by omega)

/-- No coefficient of a column wraps around, for the plaintext modulus of the
scheme. -/
theorem DbOk.two_mul_lt {db : PIRDatabase N t} {r : Roots} (h : DbOk db r) {n : ℕ} (hN : N = 2 ^ n) :
    2 * 1025 * N < rnsBase0.modulus := by
  have hrank := h.rank_le hN
  rw [rnsBase0_modulus, qFactor1]
  omega

omit [NeZero N] in
/-- The group order is invertible mod `t = 1025`. -/
theorem groupOrder_invert {g : IndexGroup N} {b : ℕ} (h : GroupShape g b) : ∃ scale : ZMod 1025,
    Zn.invert (g.groupOrder : ZMod 1025) = some scale ∧ (g.groupOrder : ZMod 1025) * scale = 1 := by
  have hco : Nat.Coprime g.groupOrder 1025 := by
    by_cases hc : g.requiresConj
    · rw [(h.conj hc).2, ← pow_succ']
      exact Nat.Coprime.pow_left _ (by decide)
    · rw [h.plain hc]
      exact Nat.Coprime.pow_left _ (by decide)
  have hmul := ZMod.coe_mul_inv_eq_one g.groupOrder hco
  exact ⟨_, Zn.invert_of_mul_eq_one hmul, hmul⟩

/-- **Retrieval from one shard.** `set_transformed_entries` succeeds; the
recurrence over the elements it stores, at the query for `idx`, is entry
`8 idx + c` in lane `c`; and the coefficients it lifts from the first residue
ring are the exact integers. -/
theorem setTransformedEntries_retrieval (hfm : fm.Correct) (h4 : 4 ≤ N) {g : IndexGroup N}
    {useSeeds : UsedSeeds} {memory : Array CompressedZnx8El} {db : PIRDatabase N 1025}
    (hcreate : create fm 1025 g useSeeds memory = some db) {entries : List (PlainRing 1025 N)}
    (hlen : entries.length = 8 * g.groupOrder) :
    ∃ (db' : PIRDatabase N 1025) (te tc : ℕ → Fin 8 → CipherRing N),
      setTransformedEntries fm db entries = some db' ∧
      (∀ i < g.loopLen, storedElement fm db' db'.transformedEntries i = some (te i)) ∧
      (g.requiresConj → ∀ i < g.loopLen, storedElement fm db' db'.transformedEntriesConj i =
        some (tc i)) ∧
      (∀ idx < g.groupOrder, ∀ c : Fin 8, entries[8 * idx + c]? = some
        (∑ i ∈ Finset.range g.loopLen, (Negacyclic.gal 5 odd_five)^[g.loopLen - 1 - i]
            (toPlain (te i c) * X ^ (idx * g.queryBasePower)) +
          if g.requiresConj then
            ∑ i ∈ Finset.range g.loopLen, (Negacyclic.gal 5 odd_five)^[g.loopLen - 1 - i]
              (toPlain (tc i c) * Xinv ^ (idx * g.queryBasePower))
          else 0)) ∧
      ∃ cols, transformEntries fm db entries = some cols ∧
        ∃ (w : ℕ) (hw : Odd w), 5 * w ≡ 1 [MOD 2 * N] ∧
        ∀ i : Fin db.indexGroup.groupOrder, ∃ u,
          invWeightedNtt fm rnsBase0 db.zeta.1 db.lenNNtts.1 cols[i] = some u ∧
            ∀ (k : Fin N) (c : Fin 8),
            (rnsBase0.getComponents u[k] c).valMinAbs =
              (column db.indexGroup hw (laneEntry entries c) i).coeff k := by
  obtain ⟨rfl, -, hpow, r, hok, hshape, hsub⟩ := create_spec hfm hcreate
  obtain ⟨b, h⟩ := db.indexGroup.exists_shape hpow (by omega)
  obtain ⟨w, hw, h5, hinv⟩ := exists_inv_five (N := N) (hpow ▸ coprime_five_two_pow _)
  obtain ⟨scale, escale, hscale⟩ := groupOrder_invert h
  have hmax := hok.two_mul_lt hpow
  have hlen' : entries.length = db.indexGroup.groupOrder * simdCount := by rw [hlen, mul_comm]; rfl
  obtain ⟨te, tc, eset, hstore⟩ :=
    setTransformedEntries_spec hfm hok hsub hshape h hpow hw h5 hinv hlen' hmax escale
  obtain ⟨cols, ecols, hcols⟩ := transformEntries_spec hfm hok hsub h hpow hw h5 hinv hlen'
  have hok' : DbOk ({ db with transformedEntries := te, transformedEntriesConj := tc, replyA := none } :
    PIRDatabase N 1025) r := ⟨hok.ok0, hok.ok1⟩
  have hL := h.loopLen
  refine ⟨_, _, _, eset, fun i hi =>
    Stored.storedElement hfm hok' (hstore.stored i hi (hi.trans_le h.loopLen_le)), fun hc i hi =>
    Stored.storedElement hfm hok' (hstore.storedConj hc i hi ?_), fun idx hidx c => ?_,
    cols, ecols, w, hw, h5, fun i => exact_lift hfm hok (hcols i) fun c k =>
      column_small hpow hmax _ hw i c k⟩
  · rw [h.order_eq, if_pos hc]
    omega
  · have hlt : 8 * idx + c.val < entries.length := by
      have := c.isLt
      omega
    rw [List.getElem?_eq_getElem hlt, ← List.getD_eq_getElem _ 0 hlt, hL]
    have hlane := retrieval_lane h hw h5 entries hscale c ⟨idx, hidx⟩
    simp only [toPlain_rescaled (show 1025 < fixedQ by decide)]
    exact congrArg some hlane.symm

/-- The entries 0 to 127 as constants. -/
def rangeEntries : List (PlainRing 1025 16) :=
  (List.range 128).map fun i : ℕ => C (i : ZMod 1025)

theorem rangeEntries_length : rangeEntries.length = 8 * (IndexGroup.fullGroup 16).groupOrder := by
  rw [rangeEntries, List.length_map, List.length_range]
  decide

/-- The full group of rank 16, with the entries 0 to 127. -/
theorem setTransformedEntries_retrieval_sixteen :
    ∃ (db db' : PIRDatabase 16 1025) (te tc : ℕ → Fin 8 → CipherRing 16),
      create FeanorMath.reference 1025 (IndexGroup.fullGroup 16) .firstSet
        (Array.replicate (requiredMemoryGeneral (IndexGroup.fullGroup 16)) (Vector.replicate 8 0)) =
          some db ∧
      setTransformedEntries FeanorMath.reference db rangeEntries = some db' ∧
      (∀ i < 8, storedElement FeanorMath.reference db' db'.transformedEntries i = some (te i)) ∧
      (∀ i < 8, storedElement FeanorMath.reference db' db'.transformedEntriesConj i = some (tc i)) ∧
      ∀ idx : ℕ, idx < 16 → ∀ c : Fin 8, rangeEntries[8 * idx + c.val]? = some
        (∑ i ∈ Finset.range 8, (Negacyclic.gal 5 odd_five)^[8 - 1 - i]
          (toPlain (te i c) * X ^ (idx * 1)) +
          ∑ i ∈ Finset.range 8, (Negacyclic.gal 5 odd_five)^[8 - 1 - i]
            (toPlain (tc i c) * Xinv ^ (idx * 1))) := by
  obtain ⟨db, hdb⟩ := create_isSome (t := 1025) FeanorMath.reference_correct
    (IndexGroup.fullGroup 16) .firstSet
    (show 16 = 2 ^ 4 by norm_num) (by decide) Array.size_replicate
  obtain ⟨db', te, tc, hset, hte, htc, h, -⟩ :=
    setTransformedEntries_retrieval FeanorMath.reference_correct
    (by norm_num) hdb rangeEntries_length
  have hl : (IndexGroup.fullGroup 16).loopLen = 8 := by decide
  have ho : (IndexGroup.fullGroup 16).groupOrder = 16 := by decide
  have hk : (IndexGroup.fullGroup 16).queryBasePower = 1 := by decide
  have hc : (IndexGroup.fullGroup 16).requiresConj = true := by decide
  refine ⟨db, db', te, tc, hdb, hset, fun i hi => hte i (hl ▸ hi), fun i hi => htc hc i (hl ▸ hi),
    fun idx hidx c => ?_⟩
  have hlane := h idx (ho ▸ hidx) c
  rw [if_pos hc, hl, hk] at hlane
  exact hlane

end Shard

end Dnspir
