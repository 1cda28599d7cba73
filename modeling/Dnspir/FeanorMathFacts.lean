/-
The assumptions on `feanor-math` are those of an implementation.

`FeanorMath.reference` computes each function from its definition, the
transforms in quadratic time; `reference_correct` proves that it behaves as
documented. `dft_dft` is the inversion of the transform over a field.
-/
import Dnspir.FeanorMath

namespace Dnspir

open SpecialZnx8

/-! ## The transform over a field -/

section Inversion
variable {F : Type*} [Field F] {log : ℕ} {ω ωinv : F}

/-- Powers of a root of unity other than `1` sum to `0`. -/
theorem geom_sum_root {n : ℕ} {x : F} (hx : x ^ n = 1) (h1 : x ≠ 1) :
    ∑ i ∈ Finset.range n, x ^ i = 0 := by
  have h := mul_geom_sum x n
  rw [hx, sub_self, mul_eq_zero, sub_eq_zero] at h
  exact h.resolve_left h1

theorem sum_root_powers (hω : IsPrimitiveRoot ω (2 ^ log)) (hinv : ω * ωinv = 1) (j k : Fin (2 ^ log)) :
    ∑ i : Fin (2 ^ log), ωinv ^ (i.val * j.val) * ω ^ (k.val * i.val) =
      if j = k then (2 ^ log : F) else 0 := by
  have hpow : ∀ i : ℕ, ωinv ^ (i * j.val) * ω ^ (k.val * i) = (ωinv ^ j.val * ω ^ k.val) ^ i :=
      fun i => by
    rw [mul_pow, ← pow_mul, ← pow_mul, mul_comm i j.val]
  simp only [hpow]
  rw [Fin.sum_univ_eq_sum_range fun i => (ωinv ^ j.val * ω ^ k.val) ^ i]
  have hval : ωinv = ω⁻¹ := eq_inv_of_mul_eq_one_right hinv
  have hne : ω ≠ 0 := left_ne_zero_of_mul_eq_one hinv
  split
  next h => simp [h, hval, inv_pow, inv_mul_cancel₀ (pow_ne_zero _ hne)]
  next h =>
    refine geom_sum_root ?_ fun h1 => h ?_
    · rw [mul_pow, ← pow_mul, ← pow_mul, mul_comm j.val, mul_comm k.val, pow_mul, pow_mul,
        hω.pow_eq_one, hval, inv_pow, hω.pow_eq_one]
      simp
    · rw [hval, inv_pow, inv_mul_eq_one₀ (pow_ne_zero _ hne)] at h1
      exact Fin.ext (hω.pow_inj j.isLt k.isLt h1)

/-- **The transform along `ω` undoes the one along its inverse**, up to the
length. -/
theorem dft_dft (hω : IsPrimitiveRoot ω (2 ^ log)) (hinv : ω * ωinv = 1) (f : Fin (2 ^ log) → F)
    (k : Fin (2 ^ log)) : dft ω (dft ωinv f) k = 2 ^ log * f k := by
  have hterm : ∀ i : Fin (2 ^ log), dft ωinv f i * ω ^ (k.val * i.val) =
      ∑ j : Fin (2 ^ log), f j * (ωinv ^ (i.val * j.val) * ω ^ (k.val * i.val)) := fun i => by
    rw [dft, Finset.sum_mul]
    exact Finset.sum_congr rfl fun j _ => mul_assoc _ _ _
  calc dft ω (dft ωinv f) k
      = ∑ i : Fin (2 ^ log), ∑ j :
          Fin (2 ^ log), f j * (ωinv ^ (i.val * j.val) * ω ^ (k.val * i.val)) :=
        Finset.sum_congr rfl fun i _ => hterm i
    _ = ∑ j : Fin (2 ^ log), f j * if j = k then (2 ^ log : F) else 0 := by
        rw [Finset.sum_comm]
        exact Finset.sum_congr rfl fun j _ => by rw [← Finset.mul_sum, sum_root_powers hω hinv]
    _ = 2 ^ log * f k := by simp [mul_comm]

end Inversion

/-! ## Roots of unity -/

theorem isPrimitiveRoot_two_pow {R : Type*} [CommRing R] {r : R} {log : ℕ} (h1 : r ^ 2 ^ log = 1)
    (h2 : log = 0 ∨ r ^ 2 ^ (log - 1) ≠ 1) : IsPrimitiveRoot r (2 ^ log) := by
  rcases log with _ | log
  · simpa using h1
  · have ho := orderOf_eq_prime_pow (p := 2) (h2.resolve_left (Nat.succ_ne_zero log)) h1
    exact ho ▸ IsPrimitiveRoot.orderOf r

theorem exists_isPrimitiveRoot_two_pow {p log : ℕ} (hp : p.Prime) (h : 2 ^ log ∣ p - 1) :
    ∃ r : ZMod p, IsPrimitiveRoot r (2 ^ log) := by
  have : Fact p.Prime := ⟨hp⟩
  obtain ⟨g, hg⟩ := IsCyclic.exists_ofOrder_eq_natCard (α := (ZMod p)ˣ)
  rw [Nat.card_eq_fintype_card, ZMod.card_units] at hg
  obtain ⟨d, hd⟩ := h
  have hpos : 0 < p - 1 := Nat.sub_pos_of_lt hp.one_lt
  have hroot : IsPrimitiveRoot (g : ZMod p) (p - 1) := by
    rw [← hg, ← orderOf_units]
    exact IsPrimitiveRoot.orderOf _
  exact ⟨_, hroot.pow hpos (by rw [hd, mul_comm])⟩

/-! ## The reference implementation -/

namespace FeanorMath

/-- Each function from its definition. The elements drawn for a seed are
made of its bytes. -/
def reference : FeanorMath where
  pow := fun Z x n => Z.fromComponents fun c => (Avx.lane x c : Z.ComponentRing) ^ n
  fft := fun {_ len} Z root v => Vector.ofFn fun i => Z.fromComponents fun c =>
    dft ((Avx.lane root 0 : Z.ComponentRing) ^ (len - 1))
      (fun j => (Avx.lane v[j] c : Z.ComponentRing)) i
  invFft := fun {_ len} Z root v => Vector.ofFn fun j => Z.fromComponents fun c =>
    (len : Z.ComponentRing)⁻¹ * dft (Avx.lane root 0 : Z.ComponentRing)
      (fun i => (Avx.lane v[i] c : Z.ComponentRing)) j
  getPrimRootOfUnityPow2 := fun p log => ((List.range p).map Nat.cast).find? fun r : ZMod p =>
    r ^ 2 ^ log = 1 ∧ (log = 0 ∨ r ^ 2 ^ (log - 1) ≠ 1)
  roundedDiv := fun a b => (2 * a + b) / (2 * b)
  randomElement := fun _ seed => ⟨fun i => (seed[i.val % 32].toNat : ZMod fixedQ)⟩

theorem abs_roundedDiv_le (a : ℤ) {b : ℤ} (hb : 0 < b) : |2 * (a - (2 * a + b) / (2 * b) * b)| ≤ b := by
  have h1 := Int.ediv_mul_le (2 * a + b) (show 2 * b ≠ 0 by omega)
  have h2 := Int.lt_ediv_add_one_mul_self (2 * a + b) (show 0 < 2 * b by omega)
  rw [abs_le]
  constructor <;> nlinarith

theorem repV_ofFn {K len : ℕ} {Z : SpecialZnx8 K} (f : Fin len → Fin 8 → Z.ComponentRing) :
    RepV Z (Vector.ofFn fun i => Z.fromComponents (f i)) f := fun i => by
  simp only [Positions.getElem_pos, Vector.getElem_ofFn]
  exact Rep.fromComponents _

/-- **The reference implementation behaves as documented.** -/
theorem reference_correct : reference.Correct where
  pow := fun n hx => (Rep.fromComponents _).congr (funext fun c => by rw [(hx c).2, Pi.pow_apply])
  fft := by
    intro K log Z root ω ωinv v f _ hroot _ hω hinv hv i
    refine (repV_ofFn _ i).congr (funext fun c => ?_)
    have hpow : (Avx.lane root 0 : Z.ComponentRing) ^ (2 ^ log - 1) = ωinv := by
      rw [(hroot 0).2]
      have h1 : ω * ω ^ (2 ^ log - 1) = 1 := by
        rw [← pow_succ', Nat.sub_add_cancel Nat.one_le_two_pow, hω.pow_eq_one]
      calc ω ^ (2 ^ log - 1) = ω * ωinv * ω ^ (2 ^ log - 1) := by rw [hinv, one_mul]
        _ = ωinv * (ω * ω ^ (2 ^ log - 1)) := by ring
        _ = ωinv := by rw [h1, mul_one]
    have hval : (fun j : Fin (2 ^ log) => (Avx.lane v[j] c : Z.ComponentRing)) = fun j => f j c :=
      funext fun j => (hv j c).2
    rw [hpow, hval]
  invFft := by
    intro K log Z root ω ωinv v f hp hroot _ hω hinv hv k
    have : Fact Z.modulus.Prime := ⟨hp⟩
    have hlen : ((2 ^ log : ℕ) : Z.ComponentRing) ≠ 0 := hω.neZero'.out
    refine (repV_ofFn _ k).congr (funext fun c => ?_)
    have hval : (fun i : Fin (2 ^ log) => (Avx.lane v[i] c : Z.ComponentRing)) =
        dft ωinv fun j => f j c :=
      funext fun i => (hv i c).2
    rw [(hroot 0).2, hval, dft_dft hω hinv, ← mul_assoc, Nat.cast_pow, Nat.cast_ofNat]
    rw [Nat.cast_pow, Nat.cast_ofNat] at hlen
    rw [inv_mul_cancel₀ hlen, one_mul]
  isPrimitiveRoot := fun h => by
    have h' := List.find?_some h
    simp only [decide_eq_true_eq] at h'
    exact isPrimitiveRoot_two_pow h'.1 h'.2
  exists_root := fun {p log} hp h => by
    have : NeZero p := ⟨hp.ne_zero⟩
    obtain ⟨r, hr⟩ := exists_isPrimitiveRoot_two_pow hp h
    refine List.find?_isSome.mpr ⟨r, List.mem_map.mpr ⟨r.val, ?_, ZMod.natCast_zmod_val r⟩, ?_⟩
    · exact List.mem_range.mpr (ZMod.val_lt r)
    · simp only [decide_eq_true_eq]
      refine ⟨hr.pow_eq_one, Nat.eq_zero_or_pos log |>.imp_right fun hpos => ?_⟩
      exact hr.pow_ne_one_of_pos_of_lt (by positivity) (Nat.pow_lt_pow_right (by norm_num) (by omega))
  roundedDiv := fun a _ hb => abs_roundedDiv_le a hb

end FeanorMath

end Dnspir
