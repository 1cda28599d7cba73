/-
`coset_ntt` evaluates along the index group.

Position `i` of the result holds the value at `x^{h(i)}` of the polynomial
with the given coefficients, where `x` is the odd power of the inverse root
the row belongs to and `h(i)` runs over `-k 5^i` and, for the full group,
`k 5^i` as well (`IndexGroup.exponent`, `cosetNtt_spec`). The FFT leaves
these values in the order of the residues `h(i) u mod 2N` of one coset, and
`cosetPerm`, a permutation (`exists_cosetPerm`), sorts them.

* `cosetNtt_run`: the two steps, for any FFT and powers that are as documented.
* `cosetNtt_reordered`: the values along the powers of `5` of one root of unity.
-/
import Dnspir.FeanorMathFacts
import Dnspir.GaloisFacts
import Dnspir.Lib.PowersOfFive

namespace Dnspir

open SpecialZnx8 PIRDatabase

variable {N : ℕ}

/-! ## The shape of a group -/

/-- The sizes of a group over `N = 2^n`: `2^b` rounds, each a power `k` of
the query apart. -/
structure GroupShape (g : IndexGroup N) (b : ℕ) : Prop where
  loopLen : g.loopLen = 2 ^ b
  rank : N = 2 * g.queryBasePower * 2 ^ b
  conj : g.requiresConj → g.queryBasePower = 1 ∧ g.groupOrder = 2 * 2 ^ b
  plain : ¬g.requiresConj → g.groupOrder = 2 ^ b

theorem IndexGroup.exists_shape (g : IndexGroup N) {n : ℕ} (hN : N = 2 ^ n) (h2 : 2 ≤ N) :
    ∃ b, GroupShape g b := by
  have hn : n ≠ 0 := fun h => by simp [h] at hN; omega
  obtain ⟨m, rfl⟩ := Nat.exists_eq_succ_of_ne_zero hn
  have hhalf : N / 2 = 2 ^ m := by rw [hN, pow_succ, Nat.mul_div_cancel _ (by norm_num)]
  obtain ⟨hc, ho, hl⟩ | ⟨hc, hlt, hl⟩ := groupOrder_cases g
  · have hk : g.queryBasePower = 1 := by
      rw [IndexGroup.queryBasePower, hl, Nat.div_self (by omega)]
    refine ⟨m, by rw [hl, hhalf], by rw [hk, hN, pow_succ]; ring,
      fun _ => ⟨hk, by rw [ho, hN, pow_succ]; ring⟩, fun h => absurd hc h⟩
  · obtain ⟨hpos, hdvd, hle⟩ : 0 < g.l ∧ N % g.l = 0 ∧ g.l * 2 ≤ N := by
      rcases g.valid with h | h
      · exact absurd h (Nat.ne_of_lt hlt)
      · exact h
    have hd : g.l ∣ 2 ^ (m + 1) := hN ▸ Nat.dvd_of_mod_eq_zero hdvd
    obtain ⟨b, -, hb⟩ := (Nat.dvd_prime_pow Nat.prime_two).mp hd
    have hbm : b ≤ m := by
      rw [hb, hN, pow_succ] at hle
      exact (Nat.pow_le_pow_iff_right (show 1 < 2 by norm_num)).mp (by omega)
    have hk : g.queryBasePower = 2 ^ (m - b) := by
      rw [IndexGroup.queryBasePower, hl, hhalf, show g.groupOrder = 2 ^ b from hb,
        Nat.pow_div hbm (by norm_num)]
    refine ⟨b, by rw [hl]; exact hb, ?_, fun h => absurd h hc, fun _ => hb⟩
    rw [hk, hN, mul_assoc, ← pow_add, Nat.sub_add_cancel hbm, pow_succ, mul_comm]

namespace GroupShape

variable {g : IndexGroup N} {b : ℕ}

theorem base_pos [NeZero N] (h : GroupShape g b) : 0 < g.queryBasePower := by
  rcases Nat.eq_zero_or_pos g.queryBasePower with h0 | h0
  · have := h.rank
    rw [h0] at this
    exact absurd (by simpa using this) (NeZero.ne N)
  · exact h0

theorem half (h : GroupShape g b) (hc : g.requiresConj) : N / 2 = 2 ^ b := by
  have hr := h.rank
  rw [(h.conj hc).1] at hr
  omega

/-- The rounds of both loops are as many as the elements of the group. -/
theorem order_eq (h : GroupShape g b) :
    g.groupOrder = if g.requiresConj then 2 * g.loopLen else g.loopLen := by
  rw [h.loopLen]
  split
  next hc => exact (h.conj hc).2
  next hc => exact h.plain hc

theorem loopLen_le (h : GroupShape g b) : g.loopLen ≤ g.groupOrder := by
  rw [h.order_eq]
  split <;> omega

theorem order_le (h : GroupShape g b) : g.groupOrder ≤ 2 * g.loopLen := by
  rw [h.order_eq]
  split <;> omega

/-- The distance of two cosets: `4k`, or `2` for the full group. -/
theorem step_eq [NeZero N] (h : GroupShape g b) :
    2 * N / g.groupOrder = if g.requiresConj then 2 else 4 * g.queryBasePower := by
  have hpos : 0 < 2 ^ b := Nat.two_pow_pos b
  split
  next hc =>
    obtain ⟨hk, ho⟩ := h.conj hc
    have hr := h.rank
    rw [hk] at hr
    rw [ho, hr]
    exact Nat.div_eq_of_eq_mul_left (by omega) (by ring)
  next hc =>
    rw [h.plain hc]
    conv_lhs => rw [h.rank]
    exact Nat.div_eq_of_eq_mul_left hpos (by ring)

theorem step_mul [NeZero N] (h : GroupShape g b) : 2 * N / g.groupOrder * g.groupOrder = 2 * N := by
  rw [h.step_eq]
  split
  next hc =>
    obtain ⟨hk, ho⟩ := h.conj hc
    have hr := h.rank
    rw [hk] at hr
    rw [ho]
    omega
  next hc =>
    rw [h.plain hc]
    conv_rhs => rw [h.rank]
    ring

end GroupShape

/-- What position `i` of a row is evaluated at, as a power of the point of
the row: `-k 5^i`, or `k 5^(i - N/2)` in the half of the conjugate. -/
def IndexGroup.exponent (g : IndexGroup N) (i : ℕ) : ℕ :=
  if g.requiresConj ∧ N / 2 ≤ i then g.queryBasePower * 5 ^ (i - N / 2)
  else (2 * N - 1) * (g.queryBasePower * 5 ^ i)

/-! ## The exponents -/

namespace GroupShape

variable [NeZero N] {g : IndexGroup N} {b u : ℕ}

omit [NeZero N] in
theorem four_dvd (h : GroupShape g b) (hc : g.requiresConj) : 2 * N = 4 * 2 ^ b := by
  have hr := h.rank
  rw [(h.conj hc).1] at hr
  omega

omit [NeZero N] in
theorem two_N_eq (h : GroupShape g b) : 2 * N = g.queryBasePower * (4 * 2 ^ b) := by
  conv_lhs => rw [h.rank]
  ring

omit [NeZero N] in
theorem pred_mod_four (h : GroupShape g b) (hc : g.requiresConj) : (2 * N - 1) % 4 = 3 := by
  have := h.four_dvd hc
  have := Nat.two_pow_pos b
  omega

/-- All exponents of a row lie in one coset. -/
theorem exponent_mod (h : GroupShape g b) (hu : Odd u) (i : ℕ) :
    u * g.exponent i ≡ (2 * N - 1) * (u * g.queryBasePower) [MOD 2 * N / g.groupOrder] := by
  rw [h.step_eq]
  by_cases hc : g.requiresConj
  · have hodd : ∀ {a b : ℕ}, Odd a → Odd b → a ≡ b [MOD 2] := fun ha hb =>
      (Nat.odd_iff.mp ha).trans (Nat.odd_iff.mp hb).symm
    have hpred : Odd (2 * N - 1) := Nat.odd_iff.mpr (by have := h.pred_mod_four hc; omega)
    have h5 : ∀ e : ℕ, Odd (5 ^ e) := fun e => odd_five.pow
    rw [if_pos hc, IndexGroup.exponent, (h.conj hc).1, mul_one]
    split
    next => exact hodd (hu.mul (odd_one.mul (h5 _))) (hpred.mul hu)
    next => exact hodd (hu.mul (hpred.mul (odd_one.mul (h5 _)))) (hpred.mul hu)
  · rw [if_neg hc, IndexGroup.exponent, if_neg fun h' => hc h'.1]
    have h5 : g.queryBasePower * 5 ^ i ≡ g.queryBasePower * 1 [MOD g.queryBasePower * 4] :=
      Nat.ModEq.mul_left' _ (PowersOfFive.five_pow_mod_four i)
    rw [mul_one, mul_comm _ 4] at h5
    calc u * ((2 * N - 1) * (g.queryBasePower * 5 ^ i))
        = (2 * N - 1) * (u * (g.queryBasePower * 5 ^ i)) := by ring
      _ ≡ (2 * N - 1) * (u * g.queryBasePower) [MOD 4 * g.queryBasePower] := (h5.mul_left _).mul_left _

omit [NeZero N] in
theorem coprime_odd {n : ℕ} (hN : N = 2 ^ n) (hu : Odd u) : Nat.Coprime (2 * N) u := by
  rw [hN, ← pow_succ']
  exact Nat.Coprime.pow_left _ ((Nat.coprime_two_left).mpr hu)

theorem odd_pred : Odd (2 * N - 1) := by
  have := NeZero.pos N
  exact ⟨N - 1, by omega⟩

theorem five_pow_cancel (h : GroupShape g b) {i j : ℕ}
    (hij : g.queryBasePower * 5 ^ i ≡ g.queryBasePower * 5 ^ j [MOD 2 * N]) : i ≡ j [MOD 2 ^ b] := by
  rw [h.two_N_eq] at hij
  exact PowersOfFive.five_pow_inj (Nat.ModEq.mul_left_cancel' h.base_pos.ne' hij)

/-- The exponents of a row are distinct. -/
theorem exponent_inj (h : GroupShape g b) {n : ℕ} (hN : N = 2 ^ n) (hu : Odd u) {i j : ℕ}
    (hi : i < g.groupOrder) (hj : j < g.groupOrder)
    (hij : u * g.exponent i ≡ u * g.exponent j [MOD 2 * N]) : i = j := by
  have hij := Nat.ModEq.cancel_left_of_coprime (coprime_odd hN hu) hij
  have hpred : Nat.Coprime (2 * N) (2 * N - 1) := coprime_odd hN odd_pred
  have hlt : ∀ {a b c : ℕ}, a < c → b < c → a ≡ b [MOD c] → a = b := fun ha hb hab => by
    rwa [Nat.ModEq, Nat.mod_eq_of_lt ha, Nat.mod_eq_of_lt hb] at hab
  by_cases hc : g.requiresConj
  · obtain ⟨hk, ho⟩ := h.conj hc
    have hhalf := h.half hc
    -- a power of 5 is never a negated one, mod 4
    have hmix : ∀ a e : ℕ, ¬1 * 5 ^ a ≡ (2 * N - 1) * (1 * 5 ^ e) [MOD 2 * N] := fun a e hae => by
      have h4 := hae.of_dvd (h.four_dvd hc ▸ PowersOfFive.four_dvd b)
      have h1 : 1 * 5 ^ a % 4 = 1 := by rw [one_mul, PowersOfFive.five_pow_mod_four]
      have h3 : (2 * N - 1) * (1 * 5 ^ e) % 4 = 3 := by
        rw [one_mul, Nat.mul_mod, h.pred_mod_four hc, PowersOfFive.five_pow_mod_four]
      rw [Nat.ModEq, h1, h3] at h4
      omega
    simp only [IndexGroup.exponent, hc, true_and, hk] at hij
    split at hij <;> split at hij
    · have := hlt (by omega) (by omega) (h.five_pow_cancel (hk ▸ hij))
      omega
    · exact absurd hij (hmix _ _)
    · exact absurd hij.symm (hmix _ _)
    · exact hlt (by omega) (by omega)
        (h.five_pow_cancel (hk ▸ Nat.ModEq.cancel_left_of_coprime hpred hij))
  · simp only [IndexGroup.exponent, hc, false_and, if_false, Bool.false_eq_true] at hij
    rw [h.plain hc] at hi hj
    exact hlt hi hj (h.five_pow_cancel (Nat.ModEq.cancel_left_of_coprime hpred hij))

end GroupShape

/-! ## The index map -/

theorem neg_natCast_eq [NeZero N] (a : ℕ) :
    -((a : ℕ) : ZMod (2 * N)) = (((2 * N - 1) * a : ℕ) : ZMod (2 * N)) := by
  have h2 : (2 * N - 1) * a + a = 2 * N * a := by
    rw [Nat.sub_mul, one_mul,
      Nat.sub_add_cancel (Nat.le_mul_of_pos_left a (by have := NeZero.pos N; omega))]
  rw [neg_eq_iff_add_eq_zero, ← Nat.cast_add, add_comm, h2, Nat.cast_mul, ZMod.natCast_self, zero_mul]

/-- The checked division of a residue of the coset by its step. -/
theorem cosetIndex_natCast {l e coset : ℕ} (hdvd : 2 * N / l ∣ 2 * N) (he : e % (2 * N / l) = coset) :
    cosetIndex l coset (-((e : ℕ) : ZMod (2 * N))) = some (e % (2 * N) / (2 * N / l)) := by
  set M := 2 * N / l
  have hmod : e % (2 * N) % M = coset := by rw [Nat.mod_mod_of_dvd _ hdvd, he]
  have hv := Nat.div_add_mod (e % (2 * N)) M
  have hsub : ((e % (2 * N) : ℕ) : ℤ) - coset = (M : ℤ) * ((e % (2 * N) / M : ℕ) : ℤ) := by
    rw [hmod] at hv
    have := congrArg (Nat.cast : ℕ → ℤ) hv
    push_cast at this ⊢
    linarith
  rw [cosetIndex, neg_neg, ZMod.val_natCast, exactIndex, hsub]
  rcases Nat.eq_zero_or_pos M with h0 | h0
  · simp [h0]
  · have hne : (M : ℤ) ≠ 0 := by exact_mod_cast h0.ne'
    rw [if_pos ⟨Dvd.intro _ rfl, by rw [Int.mul_ediv_cancel_left _ hne]; positivity⟩,
      Int.mul_ediv_cancel_left _ hne]
    rfl

section IndexMap
variable [NeZero N] {g : IndexGroup N} {b u : ℕ}

/-- What the row of the odd `u` is evaluated at. -/
def rowPower (g : IndexGroup N) (u : ℕ) : ZMod (2 * N) := -((u * g.queryBasePower : ℕ) : ZMod (2 * N))

/-- The map of a row is the checked division of the exponents. -/
theorem cosetPerm_eq (coset i : ℕ) : cosetPerm g g.groupOrder coset (rowPower g u) i =
    cosetIndex g.groupOrder coset (-((u * g.exponent i : ℕ) : ZMod (2 * N))) := by
  have h5 : (IndexGroup.genH (2 * N) : ZMod (2 * N)) = ((5 : ℕ) : ZMod (2 * N)) := by
    simp [IndexGroup.genH]
  have hplain : ∀ e : ℕ, -rowPower g u * ((5 : ℕ) : ZMod (2 * N)) ^ e =
      -((u * ((2 * N - 1) * (g.queryBasePower * 5 ^ e)) : ℕ) : ZMod (2 * N)) := fun e => by
    rw [mul_left_comm, ← neg_natCast_eq, rowPower, neg_neg, neg_neg]
    push_cast
    ring
  have hconj : ∀ e : ℕ, rowPower g u * ((5 : ℕ) : ZMod (2 * N)) ^ e =
      -((u * (g.queryBasePower * 5 ^ e) : ℕ) : ZMod (2 * N)) := fun e => by
    rw [rowPower]
    push_cast
    ring
  simp only [cosetPerm, IndexGroup.exponent, h5, hplain, hconj]
  by_cases hc : g.requiresConj
  · by_cases hi : i < N / 2
    · simp [hc, hi, Nat.not_le.mpr hi]
    · simp [hc, hi, Nat.not_lt.mp hi]
  · simp [hc]

/-- The coset of a row. -/
theorem rowPower_val_mod (h : GroupShape g b) (hu : Odd u) (i : ℕ) :
    u * g.exponent i % (2 * N / g.groupOrder) = (rowPower g u).val % (2 * N / g.groupOrder) := by
  rw [rowPower, neg_natCast_eq, ZMod.val_natCast, Nat.mod_mod_of_dvd _ (Dvd.intro _ h.step_mul)]
  exact h.exponent_mod hu i

/-- The division by the base power that `coset_ntt` asserts. -/
theorem checkedDiv_rowPower (h : GroupShape g b) :
    (Zn.checkedDiv (rowPower g u) (g.queryBasePower : ZMod (2 * N))).isSome := by
  have hdvd : g.queryBasePower ∣ 2 * N := Dvd.intro _ h.two_N_eq.symm
  have hlt : g.queryBasePower < 2 * N := by
    have := h.two_N_eq
    have := h.base_pos
    have := Nat.two_pow_pos b
    nlinarith
  have hval : g.queryBasePower ∣ (rowPower g u).val := by
    rw [rowPower, neg_natCast_eq, ZMod.val_natCast, Nat.dvd_mod_iff hdvd]
    exact Dvd.dvd.mul_left (Dvd.dvd.mul_left dvd_rfl _) _
  have hgcd : ((g.queryBasePower : ℕ) : ZMod (2 * N)).val.gcd (2 * N) = g.queryBasePower := by
    rw [ZMod.val_natCast, Nat.mod_eq_of_lt hlt, Nat.gcd_eq_left hdvd]
  rw [Zn.checkedDiv, hgcd, if_pos hval]
  rfl

end IndexMap

/-! ## The transform -/

variable {K : ℕ} {Z : SpecialZnx8 K} {fm : FeanorMath} {table : NTT K}

/-- The index map of a row is a permutation: the FFT leaves the value at
position `i` where the residue of its exponent says. -/
theorem exists_cosetPerm [NeZero N] {g : IndexGroup N} {b n u : ℕ} (h : GroupShape g b)
    (hN : N = 2 ^ n) (hu : Odd u) :
    ∃ σ : Equiv.Perm (Fin g.groupOrder), ∀ i : Fin g.groupOrder,
      cosetPerm g g.groupOrder ((rowPower g u).val % (2 * N / g.groupOrder)) (rowPower g u) i =
        some (σ i).val ∧
        (rowPower g u).val % (2 * N / g.groupOrder) + 2 * N / g.groupOrder * (σ i).val =
          u * g.exponent i % (2 * N) := by
  set M := 2 * N / g.groupOrder with hM
  set coset := (rowPower g u).val % M with hcoset
  have hMmul : M * g.groupOrder = 2 * N := h.step_mul
  have hdvd : M ∣ 2 * N := Dvd.intro _ hMmul
  have hlt : ∀ i : Fin g.groupOrder, u * g.exponent i % (2 * N) / M < g.groupOrder := fun i =>
    Nat.div_lt_of_lt_mul (hMmul ▸ Nat.mod_lt _ (by have := NeZero.pos N; omega))
  let σ : Fin g.groupOrder → Fin g.groupOrder := fun i => ⟨u * g.exponent i % (2 * N) / M, hlt i⟩
  have hσ : ∀ i, coset + M * (σ i).val = u * g.exponent i % (2 * N) := fun i => by
    have hm : u * g.exponent i % (2 * N) % M = coset := by
      rw [Nat.mod_mod_of_dvd _ hdvd]
      exact rowPower_val_mod h hu i
    rw [add_comm, ← hm]
    exact Nat.div_add_mod _ M
  have hinj : Function.Injective σ := fun i j hij => by
    have hmod : u * g.exponent i % (2 * N) = u * g.exponent j % (2 * N) := by rw [← hσ, ← hσ, hij]
    exact Fin.ext (h.exponent_inj hN hu i.isLt j.isLt hmod)
  refine ⟨Equiv.ofBijective σ (Finite.injective_iff_bijective.mp hinj), fun i => ⟨?_, hσ i⟩⟩
  rw [cosetPerm_eq]
  exact cosetIndex_natCast hdvd (rowPower_val_mod h hu i)

/-- `coset_ntt` on the row of the odd `u`, where powers and the FFT are as
documented: position `i` holds the value at `(zinv^u)^{exponent i}`. -/
theorem cosetNtt_run [NeZero N] {g : IndexGroup N} {b n u : ℕ} (h : GroupShape g b) (hN : N = 2 ^ n)
    (hu : Odd u) {z zinv : Fin 8 → Z.ComponentRing} (hzz : z * zinv = 1) (hone : zinv ^ (2 * N) = 1)
    {baseZeta : M512i} (hpow : ∀ e, Z.Rep (fm.pow Z baseZeta e) (z ^ e))
    (hfft : ∀ {v : Vector M512i g.groupOrder} {f : Fin g.groupOrder → Fin 8 → Z.ComponentRing},
      RepV Z v f → ∃ w, table.fft fm Z v = some w ∧ RepV Z w fun r c =>
        dft (zinv c ^ (2 * N / g.groupOrder)) (fun j => f j c) r) {v : Vector M512i g.groupOrder}
    {f : Fin g.groupOrder → Fin 8 → Z.ComponentRing} (hv : RepV Z v f) :
    ∃ w, cosetNtt fm g Z baseZeta (rowPower g u) table v = some w ∧
      RepV Z w fun i c => ∑ j, f j c * ((zinv c ^ u) ^ g.exponent i) ^ j.val := by
  obtain ⟨σ, hσ⟩ := exists_cosetPerm h hN hu
  set M := 2 * N / g.groupOrder with hM
  set coset := (rowPower g u).val % M with hcoset
  obtain ⟨zetaInv, ezeta, hzeta⟩ :=
    (hpow coset).invert (g := zinv ^ coset) (by rw [← mul_pow, hzz, one_pow])
  obtain ⟨w, ew, hw⟩ := hfft (scaleByPowers_spec hzeta hv)
  have hlen0 : g.loopLen ≠ 0 := by
    rw [h.loopLen]
    positivity
  refine ⟨Vector.ofFn fun i => w[σ i], ?_, fun i => ?_⟩
  · simp only [cosetNtt, checkedDiv_rowPower h, hlen0, ne_eq, not_false_eq_true, and_self, if_true,
      ezeta, ew, Option.bind_eq_bind, Option.bind_some, ← hM, ← hcoset]
    exact permute_spec σ.injective (fun i => (hσ i).1) w
  · simp only [Positions.getElem_pos, Vector.getElem_ofFn]
    refine (hw (σ i)).congr (funext fun c => Finset.sum_congr rfl fun j _ => ?_)
    have hexp : zinv c ^ (u * g.exponent i) = zinv c ^ (coset + M * (σ i).val) := by
      rw [(hσ i).2, pow_eq_pow_mod _ (congrFun hone c)]
    rw [← pow_mul (zinv c) u, hexp, Pi.pow_apply, mul_assoc]
    congr 1
    rw [← pow_mul, ← pow_mul, ← pow_add, ← pow_mul]
    congr 1
    ring

/-- **`coset_ntt`** on the row of the odd `u`: position `i` holds the value at
`(zinv^u)^{exponent i}`. -/
theorem cosetNtt_spec [NeZero N] (hfm : fm.Correct) (hp : Z.modulus.Prime) {g : IndexGroup N}
    {b n u : ℕ} (h : GroupShape g b) (hN : N = 2 ^ n) (hu : Odd u) {z zinv : Z.ComponentRing}
    {baseZeta : M512i} (hbase : Z.Rep baseZeta fun _ => z) (hprim : IsPrimitiveRoot z (2 * N))
    (hzz : z * zinv = 1) (hroot : Z.Rep table.root fun _ => z ^ (2 * N / g.groupOrder))
    (hred : ∀ c, Avx.lane table.root c ≤ Z.modulus) (hlen : g.groupOrder = 2 ^ table.log2n)
    {v : Vector M512i g.groupOrder} {f : Fin g.groupOrder → Fin 8 → Z.ComponentRing}
    (hv : RepV Z v f) :
    ∃ w, cosetNtt fm g Z baseZeta (rowPower g u) table v = some w ∧
      RepV Z w fun i c => ∑ j, f j c * ((zinv ^ u) ^ g.exponent i) ^ j.val := by
  have hprimM : IsPrimitiveRoot (z ^ (2 * N / g.groupOrder)) g.groupOrder :=
    hprim.pow (by have := NeZero.pos N; omega) h.step_mul.symm
  have hone : zinv ^ (2 * N) = 1 := by
    have h1 : z ^ (2 * N) * zinv ^ (2 * N) = 1 := by rw [← mul_pow, hzz, one_pow]
    rwa [hprim.pow_eq_one, one_mul] at h1
  have hzz' : (fun _ => z : Fin 8 → Z.ComponentRing) * (fun _ => zinv) = 1 := funext fun _ => hzz
  have hone' : (fun _ => zinv : Fin 8 → Z.ComponentRing) ^ (2 * N) = 1 := funext fun _ => hone
  refine cosetNtt_run h hN hu hzz' hone' (fun e => hfm.pow e hbase) (fun hv => ?_) hv
  exact NTT.fft_spec hfm hp hroot hred hprimM hlen (by rw [← mul_pow, hzz, one_pow]) hv

/-! ## Roots of unity -/

/-- The root of unity that the row of `u` is evaluated along. -/
def rowRoot {G : Type*} [Monoid G] (g : IndexGroup N) (u : ℕ) (x : G) : G := x ^ (rowPower g u).val

section Root
variable [NeZero N] {g : IndexGroup N} {b n u : ℕ} {G : Type*} [Group G] {x : G}

theorem pow_pred_eq_inv (hx : x ^ (2 * N) = 1) : x ^ (2 * N - 1) = x⁻¹ := by
  have hpos : 1 ≤ 2 * N := by have := NeZero.pos N; omega
  refine eq_inv_of_mul_eq_one_left ?_
  rw [← pow_succ, Nat.sub_add_cancel hpos, hx]

theorem rowRoot_eq (hx : x ^ (2 * N) = 1) : rowRoot g u x = (x ^ (u * g.queryBasePower))⁻¹ := by
  rw [rowRoot, rowPower, neg_natCast_eq, ZMod.val_natCast, ← pow_eq_pow_mod _ hx, pow_mul,
    pow_pred_eq_inv hx, inv_pow]

/-- It has four times the order of the group, or twice that of the full group. -/
theorem orderOf_rowRoot (h : GroupShape g b) (hN : N = 2 ^ n) (hu : Odd u) (hx : orderOf x = 2 * N) :
    orderOf (rowRoot g u x) = if g.requiresConj then 2 * g.groupOrder else 4 * g.groupOrder := by
  have hpos := NeZero.pos N
  have hx1 : x ^ (2 * N) = 1 := hx ▸ pow_orderOf_eq_one x
  have hu0 : u * g.queryBasePower ≠ 0 := Nat.mul_ne_zero hu.pos.ne' h.base_pos.ne'
  have hgcd : (2 * N).gcd (u * g.queryBasePower) = g.queryBasePower := by
    rw [Nat.Coprime.gcd_mul_left_cancel_right _ (GroupShape.coprime_odd hN hu).symm]
    exact Nat.gcd_eq_right (Dvd.intro _ h.two_N_eq.symm)
  rw [rowRoot_eq hx1, orderOf_inv, orderOf_pow' _ hu0, hx, hgcd]
  conv_lhs => rw [h.two_N_eq]
  rw [Nat.mul_div_cancel_left _ h.base_pos]
  split
  next hc => rw [(h.conj hc).2]; ring
  next hc => rw [h.plain hc]

/-- The points of a row, from its root. -/
theorem pow_exponent (hx : x ^ (2 * N) = 1) (i : ℕ) : (x⁻¹ ^ u) ^ g.exponent i =
    if g.requiresConj ∧ N / 2 ≤ i then rowRoot g u x ^ 5 ^ (i - N / 2)
    else (rowRoot g u x)⁻¹ ^ 5 ^ i := by
  rw [IndexGroup.exponent, rowRoot_eq hx, inv_inv, ← inv_pow]
  split
  next => rw [← pow_mul, ← pow_mul, mul_assoc]
  next =>
    have hinv : (x⁻¹) ^ (2 * N - 1) = x := by rw [inv_pow, pow_pred_eq_inv hx, inv_inv]
    calc (x⁻¹ ^ u) ^ ((2 * N - 1) * (g.queryBasePower * 5 ^ i))
        = ((x⁻¹) ^ (2 * N - 1)) ^ (u * g.queryBasePower * 5 ^ i) := by
          rw [← pow_mul, ← pow_mul]
          congr 1
          ring
      _ = (x ^ (u * g.queryBasePower)) ^ 5 ^ i := by rw [hinv, pow_mul]

end Root

/-- The positions past the loop are those of the conjugate. -/
theorem GroupShape.lt_loopLen_iff {g : IndexGroup N} {b i : ℕ} (h : GroupShape g b)
    (hi : i < g.groupOrder) :
    i < g.loopLen ↔ ¬(g.requiresConj ∧ N / 2 ≤ i) := by
  rw [h.loopLen]
  by_cases hc : g.requiresConj
  · rw [h.half hc]
    simp [hc]
  · rw [h.plain hc] at hi
    simp [hc, hi]

/-- **`coset_ntt` in the order of the powers of `5`.** Let `w` be the root of
the row of an odd `u`. Position `i` of the loop gets the value at `w^{-5^i}`,
and position `N/2 + i` of the full group that at `w^{5^i}`. What it permutes by
is a permutation. -/
theorem cosetNtt_reordered {g : IndexGroup N} {n u : ℕ} (hN : N = 2 ^ n) (hn : 2 ≤ n) (hu : Odd u)
    {z : Fin 8 → Z.ComponentRingˣ} (hz : orderOf z = 2 * N) {baseZeta : M512i}
    (hbase : Z.Rep baseZeta fun c => z c)
    (hpow : ∀ {x : M512i} {f : Fin 8 → Z.ComponentRing} (e : ℕ), Z.Rep x f →
      Z.Rep (fm.pow Z x e) (f ^ e))
    (hfft : ∀ {v : Vector M512i g.groupOrder} {f : Fin g.groupOrder → Fin 8 → Z.ComponentRing},
      RepV Z v f → ∃ y, table.fft fm Z v = some y ∧ RepV Z y fun i c =>
        ∑ j, f j c * ((z c ^ (2 * N / g.groupOrder)) ^ (-(i.val * j.val : ℤ)) : Z.ComponentRingˣ))
    {v : Vector M512i g.groupOrder} {f : Fin g.groupOrder → Fin 8 → Z.ComponentRing}
    (hv : RepV Z v f) :
    orderOf (rowRoot g u z) = (if g.requiresConj then 2 * g.groupOrder else 4 * g.groupOrder) ∧
    (∃ σ : Equiv.Perm (Fin g.groupOrder), ∀ i : Fin g.groupOrder,
      cosetPerm g g.groupOrder ((rowPower g u).val % (2 * N / g.groupOrder)) (rowPower g u) i =
        some (σ i).val) ∧
    ∃ y, cosetNtt fm g Z baseZeta (rowPower g u) table v = some y ∧ RepV Z y fun i c =>
      if i.val < g.loopLen then ∑ j, f j c *
        (rowRoot g u z c ^ (-(j.val * 5 ^ i.val : ℤ)) : Z.ComponentRingˣ)
      else ∑ j, f j c * (rowRoot g u z c ^ (j.val * 5 ^ (i.val - N / 2)) : Z.ComponentRingˣ) := by
  have h2 : 2 ≤ N := hN ▸ (Nat.pow_le_pow_right (by norm_num) (by omega) : 2 ^ 1 ≤ 2 ^ n)
  have : NeZero N := ⟨by omega⟩
  obtain ⟨b, h⟩ := g.exists_shape hN h2
  obtain ⟨σ, hσ⟩ := exists_cosetPerm h hN hu
  refine ⟨orderOf_rowRoot h hN hu hz, ⟨σ, fun i => (hσ i).1⟩, ?_⟩
  have hz1 : z ^ (2 * N) = 1 := hz ▸ pow_orderOf_eq_one z
  have hlane : ∀ c, z c ^ (2 * N) = 1 := fun c => congrFun hz1 c
  -- the same in the ring, where the inverse of the root is an element of its own
  let x : Fin 8 → Z.ComponentRing := fun c => z c
  let xinv : Fin 8 → Z.ComponentRing := fun c => ((z c)⁻¹ : Z.ComponentRingˣ)
  have hmul : x * xinv = 1 := funext fun c => (z c).mul_inv
  have hinv : xinv ^ (2 * N) = 1 := funext fun c => by
    rw [Pi.pow_apply, ← Units.val_pow_eq_pow_val, inv_pow, hlane c, inv_one]
    rfl
  obtain ⟨y, hy, hrep⟩ := cosetNtt_run h hN hu hmul hinv (fun e => hpow e hbase) (fun hv => by
      obtain ⟨y, hy, hrep⟩ := hfft hv
      refine ⟨y, hy, hrep.congr fun i c => Finset.sum_congr rfl fun j _ => ?_⟩
      rw [zpow_neg, ← inv_zpow, ← inv_pow]
      norm_cast) hv
  refine ⟨y, hy, hrep.congr fun i c => ?_⟩
  have hexp := pow_exponent (g := g) (u := u) (hlane c) i.val
  have hcoe : ((((z c)⁻¹ : Z.ComponentRingˣ) : Z.ComponentRing) ^ u) ^ g.exponent i =
      (((z c)⁻¹ ^ u) ^ g.exponent i : Z.ComponentRingˣ) := by
    push_cast
    rfl
  by_cases hi : i.val < g.loopLen
  · rw [if_neg ((h.lt_loopLen_iff i.isLt).mp hi)] at hexp
    rw [if_pos hi]
    refine Finset.sum_congr rfl fun j _ => ?_
    rw [hcoe, hexp, ← Units.val_pow_eq_pow_val, ← pow_mul, mul_comm (5 ^ i.val), inv_pow,
      ← zpow_natCast, ← zpow_neg]
    push_cast
    rfl
  · rw [if_pos (not_not.mp (mt (h.lt_loopLen_iff i.isLt).mpr hi))] at hexp
    rw [if_neg hi]
    refine Finset.sum_congr rfl fun j _ => ?_
    rw [hcoe, hexp, ← Units.val_pow_eq_pow_val, ← pow_mul, mul_comm (5 ^ (i.val - N / 2))]
    rfl

/-- Four ones, over the whole group of rank `4`. -/
theorem cosetNtt_reordered_four :
    ∃ (z : Fin 8 → rnsBase0.ComponentRingˣ) (baseZeta : M512i) (table : NTT 26),
    orderOf (rowRoot (IndexGroup.fullGroup 4) 1 z) = 8 ∧
      ∃ y, cosetNtt .reference (IndexGroup.fullGroup 4) rnsBase0 baseZeta
      (rowPower (IndexGroup.fullGroup 4) 1) table (Vector.replicate 4 rnsBase0.one) = some y := by
  obtain ⟨r, hr⟩ : ∃ r : rnsBase0.ComponentRing, IsPrimitiveRoot r (2 ^ 3) :=
    exists_isPrimitiveRoot_two_pow Fact.out (by decide)
  obtain ⟨x, rfl⟩ := hr.isUnit (by norm_num)
  have hx : orderOf (Pi.constMonoidHom (Fin 8) rnsBase0.ComponentRingˣ x) = 2 * 4 := by
    rw [orderOf_injective _ Function.const_injective, ← orderOf_units, ← hr.eq_orderOf]
    rfl
  have hprim : IsPrimitiveRoot ((x : rnsBase0.ComponentRing) ^ 2) 4 :=
    hr.pow (by norm_num) (by norm_num)
  have hinv : (x : rnsBase0.ComponentRing) ^ 2 * ((x ^ 2)⁻¹ : rnsBase0.ComponentRingˣ) = 1 :=
    by norm_cast; simp
  let table : NTT 26 := ⟨rnsBase0.fromComponents fun _ => (x : rnsBase0.ComponentRing) ^ 2, 2⟩
  have hred : ∀ c, Avx.lane table.root c ≤ rnsBase0.modulus := fun c => by
    rw [lane_fromComponents]
    exact (ZMod.val_lt _).le
  have hfft : ∀ {v : Vector M512i 4} {f : Fin 4 → Fin 8 → rnsBase0.ComponentRing}, RepV rnsBase0 v f →
      ∃ y, table.fft .reference rnsBase0 v = some y ∧ RepV rnsBase0 y fun i c =>
        ∑ j, f j c * ((x ^ 2) ^ (-(i.val * j.val : ℤ)) : rnsBase0.ComponentRingˣ) := fun hv => by
    obtain ⟨y, hy, hrep⟩ := NTT.fft_spec FeanorMath.reference_correct Fact.out
      (Rep.fromComponents _) hred hprim rfl hinv hv
    refine ⟨y, hy, hrep.congr fun i c => Finset.sum_congr rfl fun j _ => ?_⟩
    rw [zpow_neg, ← inv_zpow, ← Units.val_pow_eq_pow_val]
    norm_cast
  have hones : RepV rnsBase0 (Vector.replicate 4 rnsBase0.one) fun _ _ => 1 := fun i => by
    rw [Positions.getElem_pos, Vector.getElem_replicate]
    exact Rep.one
  obtain ⟨horder, -, y, hy, -⟩ :=
    cosetNtt_reordered (g := IndexGroup.fullGroup 4) (n := 2) (u := 1) rfl le_rfl odd_one hx
    (Rep.fromComponents _) (fun e => FeanorMath.reference_correct.pow e) hfft hones
  exact ⟨_, _, _, horder, y, hy⟩

end Dnspir
