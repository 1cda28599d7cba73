/-
The noise of a reply, lane by lane.

* `selected_spec`: what the loops select is, over the integers, a polynomial
  with the residues of the entry and small coefficients.
* `lane_noisy`: the phase of a reply is that polynomial, scaled, and the noise
  of the query and of the Galois keys (`replyNoise`).
* `levelNoise_bounded`: how large that noise can be.
-/
import Dnspir.BfvNoise
import Dnspir.ReplyLanes

namespace Dnspir

open SpecialZnx8 PIRDatabase DoublePir Negacyclic

variable {N : ℕ} [NeZero N] {fm : FeanorMath} {g : IndexGroup N} {b w : ℕ}

/-! ## The selected entry -/

section Selected
variable {t : ℕ}

/-- The element of a round, over the integers. -/
def laneElementInt (g : IndexGroup N) (hw : Odd w) (scale : ZMod t)
    (lane : Fin g.groupOrder → Negacyclic N ℤ) (i : ℕ) :
    Negacyclic N ℤ := ⟨fun k => (((column g hw lane i).coeff k : ZMod t) * scale).valMinAbs⟩

theorem map_laneElementInt (hw : Odd w) (scale : ZMod t) (lane : Fin g.groupOrder → Negacyclic N ℤ)
    (i : ℕ) :
    map (Int.castRingHom (ZMod fixedQ)) (laneElementInt g hw scale lane i) =
      laneElement g hw scale lane i :=
  Negacyclic.ext (funext fun k => by simp [laneElementInt, laneElement, rescaled])

theorem toPlainInt_laneElementInt [NeZero t] (hw : Odd w) (scale : ZMod t)
    (lane : Fin g.groupOrder → Negacyclic N ℤ) (i : ℕ) :
    toPlainInt (laneElementInt g hw scale lane i) = C scale * toPlainInt (column g hw lane i) :=
  Negacyclic.ext (funext fun k => by
    rw [C_mul_coeff, toPlainInt, coeff_map, coeff_map]
    simp only [laneElementInt, eq_intCast, ZMod.coe_valMinAbs]
    exact mul_comm _ _)

theorem abs_coeff_laneElementInt_le [NeZero t] (hw : Odd w) (scale : ZMod t)
    (lane : Fin g.groupOrder → Negacyclic N ℤ) (i : ℕ) (k : Fin N) :
    |(laneElementInt g hw scale lane i).coeff k| ≤ (t / 2 : ℕ) := by
  rw [Int.abs_eq_natAbs]
  exact_mod_cast ZMod.natAbs_valMinAbs_le _

/-- One loop of the plain recurrence, at a power of `X`. -/
def selectLoop (te : ℕ → Negacyclic N ℤ) (p L : ℕ) : Negacyclic N ℤ :=
  ∑ i ∈ Finset.range L, (Negacyclic.gal 5 odd_five)^[L - 1 - i] (te i * X ^ p)

/-- What the loops select of a lane. -/
def selected (g : IndexGroup N) (hw : Odd w) (scale : ZMod t)
    (lane : Fin g.groupOrder → Negacyclic N ℤ) (idx : ℕ) : Negacyclic N ℤ :=
  selectLoop (laneElementInt g hw scale lane) (idx * g.queryBasePower) g.loopLen +
    if g.requiresConj then
      selectLoop (fun i => laneElementInt g hw scale lane (g.loopLen + i))
        (2 * N - idx * g.queryBasePower) g.loopLen
    else 0

theorem gal_five_iterate {R : Type} [CommRing R] (s : ℕ) (f : Negacyclic N R) :
    (Negacyclic.gal 5 odd_five)^[s] f = Negacyclic.gal (5 ^ s) odd_five.pow f :=
      gal_iterate odd_five s f

theorem map_selectLoop {R : Type} [CommRing R] (φ : ℤ →+* R) (te : ℕ → Negacyclic N ℤ) (p L : ℕ) :
    map φ (selectLoop te p L) =
      ∑ i ∈ Finset.range L, (Negacyclic.gal 5 odd_five)^[L - 1 - i] (map φ (te i) * X ^ p) := by
  rw [selectLoop, map_sum]
  refine Finset.sum_congr rfl fun i _ => ?_
  rw [gal_five_iterate, gal_five_iterate, map_gal, map_mul, Bfv.map_X_pow]

/-- Each round adds its element, moved. -/
theorem abs_coeff_selectLoop_le {n : ℕ} (hpow : N = 2 ^ n) {te : ℕ → Negacyclic N ℤ} {B : ℕ}
    (hte : ∀ i k, |(te i).coeff k| ≤ B) (p L : ℕ) (k : Fin N) :
    |(selectLoop te p L).coeff k| ≤ (L * B : ℕ) := by
  have hterm : ∀ i, |((Negacyclic.gal 5 odd_five)^[L - 1 - i] (te i * X ^ p)).coeff k| ≤ (B : ℤ) :=
      fun i => by
    have h1 : ∀ k, |(te i * X ^ p).coeff k| ≤ (B : ℤ) := fun k => by
      simpa [gal_one] using coeff_gal_bound (Int.natCast_nonneg B) odd_one
        (Nat.coprime_one_left N) p (hte i) k
    have hco : (5 ^ (L - 1 - i)).Coprime N := hpow ▸ (Nat.Coprime.pow (L - 1 - i) n (by decide))
    have h2 := coeff_gal_bound (Int.natCast_nonneg B) odd_five.pow hco 0 h1 k
    rwa [pow_zero, mul_one, ← gal_five_iterate] at h2
  rw [selectLoop, coeff_sum]
  calc |∑ i ∈ Finset.range L, ((Negacyclic.gal 5 odd_five)^[L - 1 - i] (te i * X ^ p)).coeff k|
      ≤ ∑ i ∈ Finset.range L, |((Negacyclic.gal 5 odd_five)^[L - 1 - i] (te i * X ^ p)).coeff k| :=
        Finset.abs_sum_le_sum_abs _ _
    _ ≤ ∑ _i ∈ Finset.range L, (B : ℤ) := Finset.sum_le_sum fun i _ => hterm i
    _ = (L * B : ℕ) := by rw [Finset.sum_const, Finset.card_range, nsmul_eq_mul, Nat.cast_mul]

/-- A negative power, as the client writes it. -/
theorem X_pow_sub {R : Type} [CommRing R] {p : ℕ} (hp : p ≤ 2 * N) :
    (X : Negacyclic N R) ^ (2 * N - p) = Xinv ^ p := by
  have hunit : (X : Negacyclic N R) ^ p * Xinv ^ p = 1 := by rw [← mul_pow, X_mul_Xinv, one_pow]
  calc (X : Negacyclic N R) ^ (2 * N - p) = X ^ (2 * N - p) * (X ^ p * Xinv ^ p) := by rw [hunit, mul_one]
    _ = X ^ (2 * N) * Xinv ^ p := by rw [← mul_assoc, ← pow_add, Nat.sub_add_cancel hp]
    _ = Xinv ^ p := by rw [X_pow_two_n, one_mul]

/-- **What the loops select** has the residues of the entry, and coefficients of
at most half the modulus for each element of the group. -/
theorem selected_spec [NeZero t] (h : GroupShape g b) {n : ℕ} (hpow : N = 2 ^ n) (hw : Odd w)
    (h5 : 5 * w ≡ 1 [MOD 2 * N]) (entries : List (PlainRing t N)) {scale : ZMod t}
    (hscale : (g.groupOrder : ZMod t) * scale = 1) (c : Fin 8) {idx : ℕ} (hidx : idx < g.groupOrder) :
    map (Int.castRingHom (ZMod t)) (selected g hw scale (laneEntry entries c) idx) =
      entries.getD (8 * idx + c.val) 0 ∧
      ∀ k, |(selected g hw scale (laneEntry entries c) idx).coeff k| ≤
        (g.groupOrder * (t / 2) : ℕ) := by
  have hlane := retrieval_lane h hw h5 entries hscale c ⟨idx, hidx⟩
  have hte : ∀ i k, |(laneElementInt g hw scale (laneEntry entries c) i).coeff k| ≤ ((t / 2 : ℕ) : ℤ) :=
    abs_coeff_laneElementInt_le hw scale _
  have hplain : ∀ i, map (Int.castRingHom (ZMod t))
      (laneElementInt g hw scale (laneEntry entries c) i) =
      C scale * toPlainInt (column g hw (laneEntry entries c) i) := toPlainInt_laneElementInt hw scale _
  have hloop := abs_coeff_selectLoop_le hpow hte (idx * g.queryBasePower) g.loopLen
  have hloopConj := abs_coeff_selectLoop_le hpow (fun i => hte (g.loopLen + i))
    (2 * N - idx * g.queryBasePower) g.loopLen
  rw [← h.loopLen] at hlane
  rw [← hlane, selected]
  by_cases hc : g.requiresConj
  · have hpow' : idx * g.queryBasePower ≤ 2 * N := by
      have := g.groupOrder_eq hc
      rw [(h.conj hc).1]
      omega
    refine ⟨?_, fun k => ?_⟩
    · rw [if_pos hc, if_pos hc, map_add, map_selectLoop, map_selectLoop, X_pow_sub hpow']
      simp only [hplain]
    · have horder : g.groupOrder * (t / 2) = g.loopLen * (t / 2) + g.loopLen * (t / 2) := by
        rw [h.order_eq, if_pos hc, mul_assoc, two_mul]
      rw [if_pos hc, coeff_add]
      refine ((abs_add_le _ _).trans (add_le_add (hloop k) (hloopConj k))).trans (le_of_eq ?_)
      exact_mod_cast horder.symm
  · refine ⟨?_, fun k => ?_⟩
    · rw [if_neg hc, if_neg hc, add_zero, add_zero, map_selectLoop]
      simp only [hplain]
    · have horder : g.loopLen = g.groupOrder := by rw [h.order_eq, if_neg hc]
      rw [if_neg hc, add_zero]
      exact (hloop k).trans (le_of_eq (by rw [horder]))

end Selected

/-! ## The noise -/

instance : NeZero primaryPlainModulus := ⟨by decide⟩

/-- The unit of the payloads. -/
def payloadUnit : CipherRing N := C ((Bfv.unit primaryPlainModulus fixedQ : ℤ) : ZMod fixedQ)

/-- What the phase of a query has beside the power of `X` it encrypts. -/
def queryError (fm : FeanorMath) (useSeeds : UsedSeeds) (k : Fin 2) (qryB s : CipherRing N) (p : ℕ) :
    CipherRing N :=
  qryA fm useSeeds k * s + qryB - payloadUnit * X ^ p

/-- The noise of one loop: in every round the error of the query, and the digits
times the errors of the keys. -/
def loopNoise (gk : Fin 2 → CipherRing N) (err : CipherRing N) (te : ℕ → CipherRing N)
    (digits : ℕ → Fin 2 → CipherRing N) (L : ℕ) : CipherRing N :=
  ∑ i ∈ Finset.range L, sigma^[L - 1 - i] (te i * err + ∑ k, digits i k * gk k)

/-- The noise of a reply over the elements `te` of one lane, from the errors of
the keys and of the two parts of the query. -/
def levelNoise (fm : FeanorMath) (g : IndexGroup N) (useSeeds : UsedSeeds) (te : ℕ → CipherRing N)
    (gk : Fin 2 → CipherRing N) (e eConj : CipherRing N) : CipherRing N :=
  loopNoise gk e te (digits (gkA fm useSeeds) (qryA fm useSeeds 0) te) g.loopLen +
    if g.requiresConj then
      loopNoise gk eConj (fun i => te (g.loopLen + i))
        (digits (gkA fm useSeeds) (qryA fm useSeeds 1) fun i => te (g.loopLen + i)) g.loopLen
    else 0

/-- That noise, for the query at `idx`. -/
def replyNoise (fm : FeanorMath) (g : IndexGroup N) (useSeeds : UsedSeeds) (te : ℕ → CipherRing N)
    (query : QueryRef N) (s : CipherRing N) (idx : ℕ) : CipherRing N :=
  levelNoise fm g useSeeds te (keyError (gkA fm useSeeds) query.gk s)
    (queryError fm useSeeds 0 query.qryB s (idx * g.queryBasePower))
    (queryError fm useSeeds 1 (query.qryConjB.getD 0) s (2 * N - idx * g.queryBasePower))

section Phase

theorem sigma_iterate (k : ℕ) (f : CipherRing N) :
    sigma^[k] f = Negacyclic.gal (5 ^ k) odd_five.pow f :=
  gal_five_iterate k f

/-- The phase of one loop. -/
theorem loopPhase_noise (gkA gkB : Fin 2 → CipherRing N) (qryA qryB s : CipherRing N)
    {te : ℕ → CipherRing N} {teInt : ℕ → Negacyclic N ℤ}
    (hte : ∀ i, map (Int.castRingHom (ZMod fixedQ)) (teInt i) = te i) (d : ℕ → Fin 2 → CipherRing N)
    (p L : ℕ) : loopPhase gkA gkB qryA qryB s te d L =
      payloadUnit * map (Int.castRingHom (ZMod fixedQ)) (selectLoop teInt p L) +
        loopNoise (keyError gkA gkB s) (qryA * s + qryB - payloadUnit * X ^ p) te d L := by
  rw [map_selectLoop, loopPhase, loopNoise, Finset.mul_sum, ← Finset.sum_add_distrib]
  refine Finset.sum_congr rfl fun i _ => ?_
  have hunit : ∀ k, Negacyclic.gal (5 ^ k) odd_five.pow (payloadUnit : CipherRing N) =
    payloadUnit := fun k => gal_C _ _
  rw [sigma_iterate, sigma_iterate, gal_five_iterate, hte, ← hunit (L - 1 - i), ← map_mul, hunit,
    ← map_add]
  congr 1
  ring

/-- **The phase of a reply** is the selected polynomial, scaled, and the noise. -/
theorem lane_phase (useSeeds : UsedSeeds) (hw : Odd w) (scale : ZMod primaryPlainModulus)
    (lane : Fin g.groupOrder → Negacyclic N ℤ) (query : QueryRef N) (s : CipherRing N) (idx : ℕ) :
    replyA fm g useSeeds (laneElement g hw scale lane)
        (fun i => laneElement g hw scale lane (g.loopLen + i)) * s +
        replyBOf fm g useSeeds (laneElement g hw scale lane)
          (fun i => laneElement g hw scale lane (g.loopLen + i)) query =
      payloadUnit * map (Int.castRingHom (ZMod fixedQ)) (selected g hw scale lane idx) +
        replyNoise fm g useSeeds (laneElement g hw scale lane) query s idx := by
  have hloop := loopPhase_noise (gkA fm useSeeds) query.gk (qryA fm useSeeds 0) query.qryB s
    (map_laneElementInt hw scale lane)
      (digits (gkA fm useSeeds) (qryA fm useSeeds 0) (laneElement g hw scale lane))
    (idx * g.queryBasePower) g.loopLen
  have hconj := loopPhase_noise (gkA fm useSeeds) query.gk (qryA fm useSeeds 1)
    (query.qryConjB.getD 0) s
    (fun i => map_laneElementInt hw scale lane (g.loopLen + i))
    (digits (gkA fm useSeeds) (qryA fm useSeeds 1) fun i => laneElement g hw scale lane (g.loopLen + i))
    (2 * N - idx * g.queryBasePower) g.loopLen
  rw [loopPhase_eq] at hloop hconj
  simp only [replyA, replyBOf, replyB, selected, replyNoise, levelNoise, queryError]
  split
  next => rw [map_add]; linear_combination hloop + hconj
  next => rw [add_zero, add_zero, add_zero, add_zero]; exact hloop

end Phase

/-- **A reply is its entry**, beside the noise of its query. -/
theorem lane_noisy (h : GroupShape g b) {n : ℕ} (hpow : N = 2 ^ n) (useSeeds : UsedSeeds)
    (hw : Odd w) (h5 : 5 * w ≡ 1 [MOD 2 * N]) (entries : List (PlainRing primaryPlainModulus N))
    {scale : ZMod primaryPlainModulus}
    (hscale : (g.groupOrder : ZMod primaryPlainModulus) * scale = 1) (c : Fin 8) {idx : ℕ}
    (hidx : idx < g.groupOrder) (query : QueryRef N) (s : CipherRing N) :
    Bfv.Noisy (g.groupOrder * (primaryPlainModulus / 2)) s (entries.getD (8 * idx + c.val) 0)
      (replyNoise fm g useSeeds (laneElement g hw scale (laneEntry entries c)) query s idx)
      (replyA fm g useSeeds (laneElement g hw scale (laneEntry entries c))
          fun i => laneElement g hw scale (laneEntry entries c) (g.loopLen + i),
        replyBOf fm g useSeeds (laneElement g hw scale (laneEntry entries c))
          (fun i => laneElement g hw scale (laneEntry entries c) (g.loopLen + i)) query) := by
  obtain ⟨hplain, hsmall⟩ := selected_spec h hpow hw h5 entries hscale c hidx
  exact ⟨_, hplain, hsmall, lane_phase useSeeds hw scale _ query s idx⟩

/-! ## How large it is -/

section Size

omit [NeZero N] in
theorem bounded_digitPoly (k : Fin 2) (f : CipherRing N) :
    Bounded (2 ^ 25) (digitPoly k f) := fun i => by
  have hdigit : ∃ v : ℤ, digit k (f.coeff i) = v ∧ v.natAbs ≤ 2 ^ 25 := by
    unfold digit
    split
    next => exact ⟨_, rfl, by have := lowPart_bounds (f.coeff i).valMinAbs; omega⟩
    next => exact ⟨_, rfl, by have := lowPart_bounds (highPart (f.coeff i).valMinAbs); omega⟩
  obtain ⟨v, hv, hle⟩ := hdigit
  rw [coeff_digitPoly, hv]
  exact (size_intCast_le v).trans hle

theorem bounded_laneElement {t : ℕ} [NeZero t] (hw : Odd w) (scale : ZMod t)
    (lane : Fin g.groupOrder → Negacyclic N ℤ) (i : ℕ) :
    Bounded (t / 2) (laneElement g hw scale lane i) :=
      fun _ => (size_intCast_le _).trans (ZMod.natAbs_valMinAbs_le _)

theorem loopNoise_bounded {n : ℕ} (hpow : N = 2 ^ n) (gkA gk : Fin 2 → CipherRing N)
    (err qa : CipherRing N) {te : ℕ → CipherRing N}
    (hte : ∀ i, Bounded (primaryPlainModulus / 2) (te i)) (L : ℕ) :
    Bounded (L * (primaryPlainModulus / 2 * weight err + 2 ^ 25 * (weight (gk 0) + weight (gk 1))))
      (loopNoise gk err te (digits gkA qa te) L) := by
  have hround : ∀ i ∈ Finset.range L,
      Bounded (primaryPlainModulus / 2 * weight err + 2 ^ 25 * (weight (gk 0) + weight (gk 1)))
        (sigma^[L - 1 - i] (te i * err + ∑ k, digits gkA qa te i k * gk k)) := fun i _ => by
    rw [sigma_iterate, Fin.sum_univ_two, mul_add (2 ^ 25)]
    refine Bounded.gal (((hte i).mul err).add (Bounded.add ?_ ?_)) odd_five.pow
      (hpow ▸ Nat.Coprime.pow (L - 1 - i) n (by decide))
    · exact (bounded_digitPoly 0 _).mul _
    · exact (bounded_digitPoly 1 _).mul _
  have hsum := Bounded.sum hround
  rwa [Finset.card_range] at hsum

/-- The sizes of the errors of a level, over a whole loop. -/
def errorBudget (g : IndexGroup N) (gk : Fin 2 → CipherRing N) (e eConj : CipherRing N) : ℕ :=
  g.loopLen * (primaryPlainModulus / 2 * weight e + 2 ^ 25 * (weight (gk 0) + weight (gk 1))) +
    if g.requiresConj then
      g.loopLen * (primaryPlainModulus / 2 * weight eConj + 2 ^ 25 * (weight (gk 0) + weight (gk 1)))
    else 0

/-- **The noise of a level**, whatever the entries. -/
theorem levelNoise_bounded {n : ℕ} (hpow : N = 2 ^ n) (useSeeds : UsedSeeds) {te : ℕ → CipherRing N}
    (hte : ∀ i, Bounded (primaryPlainModulus / 2) (te i)) (gk : Fin 2 → CipherRing N)
    (e eConj : CipherRing N) :
    Bounded (errorBudget g gk e eConj) (levelNoise fm g useSeeds te gk e eConj) := by
  refine (loopNoise_bounded hpow _ gk e _ hte g.loopLen).add ?_
  split
  next => exact loopNoise_bounded hpow _ gk eConj _ (fun i => hte (g.loopLen + i)) g.loopLen
  next => exact bounded_zero 0

end Size

end Dnspir
