/-
The NTTs of a shard evaluate.

`NttOk` says that a zeta register and an FFT table belong to one primitive
`2N`-th root of unity `z`. Two readings of a vector of registers follow:
`CoeffRep v F`, lane `c` holds the coefficients of the polynomial `F c`, and
`SlotRep v F`, slot `i` of lane `c` holds the value of `F c` at
`z^{-(2i + 1)}`.

* `weightedNtt_spec`, `invWeightedNtt_spec`: the two transforms lead from one
  reading to the other, and succeed.
* `SlotRep.gal`: moving the slots along multiplication by `g` applies the
  automorphism `X -> X^g`.
* `exists_slotRep`: every vector of representatives is the slots of
  polynomials, since evaluation at the roots is a bijection.
-/
import Dnspir.BasePir
import Dnspir.Lib.Loops

namespace Dnspir

open SpecialZnx8 PIRDatabase Negacyclic

variable {K N : ℕ}

/-- A zeta register and a table of length `N` for one primitive `2N`-th root
`z` of unity, with inverse `zinv`. -/
structure NttOk (Z : SpecialZnx8 K) (N : ℕ) (zeta : M512i) (table : NTT K) (z zinv : Z.ComponentRing) :
    Prop where
  prime : Z.modulus.Prime
  alpha_pos : 0 < Z.alpha
  zeta_rep : Z.Rep zeta fun _ => z
  prim : IsPrimitiveRoot z (2 * N)
  mul_inv : z * zinv = 1
  pow_N : zinv ^ N = -1
  root_rep : Z.Rep table.root fun _ => z ^ 2
  root_reduced : ∀ c, Avx.lane table.root c ≤ Z.modulus
  len : N = 2 ^ table.log2n

section Readings
variable (Z : SpecialZnx8 K)

/-- Lane `c` of `v` holds the coefficients of `F c`. -/
def CoeffRep (v : Vector M512i N) (F : Fin 8 → Negacyclic N Z.ComponentRing) : Prop :=
  RepV Z v fun i c => (F c).coeff i

/-- Slot `i` of lane `c` of `v` holds the value of `F c` at `zinv^(2i + 1)`. -/
def SlotRep (zinv : Z.ComponentRing) (v : Vector M512i N) (F : Fin 8 → Negacyclic N Z.ComponentRing) :
    Prop :=
  RepV Z v fun i c => eval (RingHom.id _) (zinv ^ (2 * i.val + 1)) (F c)

end Readings

variable {Z : SpecialZnx8 K}

theorem RepV.congr {len : ℕ} {v : Vector M512i len} {f g : Fin len → Fin 8 → Z.ComponentRing}
    (h : RepV Z v f) (hfg : ∀ i c, f i c = g i c) : RepV Z v g := fun i => (h i).congr (funext (hfg i))

/-- A register with valid lanes represents what it holds. -/
theorem RepV.of_le {len : ℕ} {v : Vector M512i len}
    (h : ∀ (i : Fin len) c, Avx.lane v[i] c ≤ 2 * Z.modulus) :
    RepV Z v fun i c => (Avx.lane v[i] c : Z.ComponentRing) := fun i c => ⟨h i c, rfl⟩

/-- The loop of the NTTs multiplies entry `i` by `z^i`. -/
theorem scaleByPowers_spec {len : ℕ} {zeta : M512i} {z : Fin 8 → Z.ComponentRing} (hz : Z.Rep zeta z)
    {v : Vector M512i len} {f : Fin len → Fin 8 → Z.ComponentRing} (hv : RepV Z v f) :
    RepV Z (scaleByPowers Z zeta v) fun i c => f i c * z c ^ i.val := by
  have hloop := Loops.foldl_finRange (f := scaleStep Z zeta) (b := (v, Z.one)) (P := fun k s =>
    (∀ i : Fin len, Z.Rep s.1[i] fun c => if i.val < k then f i c * z c ^ i.val else f i c) ∧
      Z.Rep s.2 fun c => z c ^ k)
    ⟨fun i => (hv i).congr (by simp), Rep.one.congr (by funext c; simp)⟩ ?_
  · exact fun i => (hloop.1 i).congr (by simp)
  · rintro k ⟨w, cur⟩ ⟨hw, hcur⟩
    refine ⟨fun i => ?_, (hcur.mul hz).congr (by funext c; simp [pow_succ])⟩
    simp only [scaleStep, Positions.getElem_pos, Vector.getElem_set, Fin.val_inj]
    by_cases hik : k = i
    · subst hik
      rw [if_pos rfl]
      exact ((hw k).mul hcur).congr (by funext c; simp)
    · rw [if_neg hik]
      refine (hw i).congr (funext fun c => ?_)
      have : i.val < k.val + 1 ↔ i.val < k.val :=
        ⟨fun h => lt_of_le_of_ne (by omega) fun e => hik (Fin.ext e.symm), by omega⟩
      simp only [this]

/-- The transform of a table, on vectors of its length. -/
theorem NTT.fft_spec {fm : FeanorMath} (hfm : fm.Correct) (hp : Z.modulus.Prime) {len : ℕ}
    {table : NTT K} {ω ωinv : Z.ComponentRing} (hroot : Z.Rep table.root fun _ => ω)
    (hred : ∀ c, Avx.lane table.root c ≤ Z.modulus) (hprim : IsPrimitiveRoot ω len)
    (hlen : len = 2 ^ table.log2n) (hinv : ω * ωinv = 1) {v : Vector M512i len}
    {f : Fin len → Fin 8 → Z.ComponentRing} (hv : RepV Z v f) :
    ∃ w, table.fft fm Z v = some w ∧ RepV Z w fun i c => dft ωinv (fun j => f j c) i := by
  obtain ⟨root, log2n⟩ := table
  simp only at hlen hroot hred
  subst hlen
  exact ⟨fm.fft Z root v, if_pos rfl, hfm.fft hp hroot hred hprim hinv hv⟩

section Transforms
variable {fm : FeanorMath} {zeta : M512i} {table : NTT K} {z zinv : Z.ComponentRing}
  {v : Vector M512i N} {F : Fin 8 → Negacyclic N Z.ComponentRing}

theorem NttOk.root_mul (h : NttOk Z N zeta table z zinv) : z ^ 2 * zinv ^ 2 = 1 := by
  rw [← mul_pow, h.mul_inv, one_pow]

theorem NttOk.root_prim (h : NttOk Z N zeta table z zinv) :
    IsPrimitiveRoot (z ^ 2) (2 ^ table.log2n) := by
  rw [← h.len]
  exact h.prim.pow (by have := h.len; have := Nat.two_pow_pos table.log2n; omega) rfl

/-- Scaling by powers and the plain transform evaluate at the odd powers. -/
theorem dft_scaled (f : Negacyclic N Z.ComponentRing) (zinv : Z.ComponentRing) (i : Fin N) :
    dft (zinv ^ 2) (fun j => f.coeff j * zinv ^ j.val) i =
      eval (RingHom.id _) (zinv ^ (2 * i.val + 1)) f := by
  refine Finset.sum_congr rfl fun j _ => ?_
  rw [RingHom.id_apply, mul_assoc, ← pow_mul, ← pow_mul, ← pow_add]
  congr 2
  ring

theorem weightedNtt_spec (hfm : fm.Correct) (h : NttOk Z N zeta table z zinv) (hv : CoeffRep Z v F) :
    ∃ w, weightedNtt fm Z zeta table v = some w ∧ SlotRep Z zinv w F := by
  obtain ⟨zetaInv, he, hzi⟩ := h.zeta_rep.invert (g := fun _ => zinv) (funext fun _ => h.mul_inv)
  obtain ⟨w, hw, hrep⟩ := NTT.fft_spec hfm h.prime h.root_rep h.root_reduced
    (h.len ▸ h.root_prim) h.len h.root_mul
    (scaleByPowers_spec hzi hv)
  refine ⟨w, ?_, hrep.congr fun i c => dft_scaled (F c) zinv i⟩
  rw [weightedNtt, he]
  exact hw

theorem invWeightedNtt_spec (hfm : fm.Correct) (h : NttOk Z N zeta table z zinv)
    (hv : SlotRep Z zinv v F) :
    ∃ w, invWeightedNtt fm Z zeta table v = some w ∧ CoeffRep Z w F := by
  have hprim := h.root_prim
  have hroot := h.root_mul
  have hlen := h.len
  obtain ⟨root, log2n⟩ := table
  simp only at hlen hprim
  subst hlen
  have hi := hfm.invFft h.prime h.root_rep h.root_reduced hprim hroot
    (f := fun j c => (F c).coeff j * zinv ^ j.val)
    (hv.congr fun i c => (dft_scaled (F c) zinv i).symm)
  refine ⟨scaleByPowers Z zeta (fm.invFft Z root v), by simp [invWeightedNtt, NTT.invFft], ?_⟩
  refine (scaleByPowers_spec h.zeta_rep hi).congr fun i c => ?_
  rw [mul_assoc, ← mul_pow, mul_comm zinv, h.mul_inv, one_pow, mul_one]

end Transforms

/-! ## Ring operations on slots -/

section Slots
variable {zinv : Z.ComponentRing} {v w : Vector M512i N} {F G : Fin 8 → Negacyclic N Z.ComponentRing}

theorem slot_pow_N {R : Type*} [CommRing R] {x : R} (hx : x ^ N = -1) (i : ℕ) :
    (x ^ (2 * i + 1)) ^ N = -1 := by
  rw [← pow_mul, mul_comm, pow_mul, hx, Odd.neg_one_pow ⟨i, rfl⟩]

theorem pow_two_N {R : Type*} [CommRing R] {x : R} (hx : x ^ N = -1) : x ^ (2 * N) = 1 := by
  rw [mul_comm, pow_mul, hx, neg_one_sq]

theorem SlotRep.zero : SlotRep Z zinv (Vector.replicate N Z.zero) 0 := fun i => by
  simp only [Positions.getElem_pos, Vector.getElem_replicate]
  refine Rep.zero.congr (funext fun c => ?_)
  exact (eval_zero _).symm

theorem SlotRep.add {x : Fin N → M512i} (hv : SlotRep Z zinv v F)
    (hw : SlotRep Z zinv w G) (hx : ∀ i, x i = Z.add v[i] w[i]) :
    SlotRep Z zinv (Vector.ofFn x) (F + G) := fun i => by
  simp only [Positions.getElem_pos, Vector.getElem_ofFn, hx]
  refine ((hv i).add (hw i)).congr (funext fun c => ?_)
  exact (eval_add _ _ _).symm

variable [NeZero N]

theorem eval_slot_mul (hz : zinv ^ N = -1) (i : ℕ) (f g : Negacyclic N Z.ComponentRing) :
    eval (RingHom.id _) (zinv ^ (2 * i + 1)) (f * g) =
      eval (RingHom.id _) (zinv ^ (2 * i + 1)) f * eval (RingHom.id _) (zinv ^ (2 * i + 1)) g :=
  eval_mul _ (slot_pow_N hz i) f g

/-- Moving slot `j` to slot `i`, where `2j + 1 ≡ (2i + 1) g`, applies the
automorphism `X -> X^g`. -/
theorem SlotRep.gal {g : ℕ} (hg : Odd g) (hz : zinv ^ N = -1) (hv : SlotRep Z zinv v F)
    (hw : ∀ i : Fin N, ∃ j : Fin N, w[i] = v[j] ∧ 2 * j.val + 1 ≡ (2 * i.val + 1) * g [MOD 2 * N]) :
    SlotRep Z zinv w fun c => gal g hg (F c) := fun i => by
  obtain ⟨j, he, hj⟩ := hw i
  rw [he]
  refine (hv j).congr (funext fun c => ?_)
  show eval _ _ (F c) = eval _ _ (Negacyclic.gal g hg (F c))
  rw [eval_gal _ (slot_pow_N hz i), ← pow_mul, pow_eq_pow_of_modEq hj (pow_two_N hz)]

end Slots

/-! ## Every vector is the slots of polynomials -/

section Interpolation
variable [Fact Z.modulus.Prime] {fm : FeanorMath} {zeta : M512i} {table : NTT K}
  {z zinv : Z.ComponentRing}
  {v : Vector M512i N} {F G : Fin 8 → Negacyclic N Z.ComponentRing}

theorem NttOk.inv_prim (h : NttOk Z N zeta table z zinv) : IsPrimitiveRoot zinv (2 * N) := by
  rw [← inv_eq_of_mul_eq_one_right h.mul_inv]
  exact h.prim.inv

theorem NttOk.slots_injective (h : NttOk Z N zeta table z zinv) :
    Function.Injective fun i : Fin N => zinv ^ (2 * i.val + 1) := by
  intro i j hij
  have := h.inv_prim.pow_inj (by have := i.isLt; omega) (by have := j.isLt; omega) hij
  exact Fin.ext (by omega)

/-- Interpolation: values at the slots determine a polynomial. -/
theorem NttOk.exists_eval (h : NttOk Z N zeta table z zinv) (f : Fin N → Z.ComponentRing) :
    ∃ F : Negacyclic N Z.ComponentRing, ∀ i : Fin N,
      eval (RingHom.id _) (zinv ^ (2 * i.val + 1)) F = f i := by
  set node : Fin N → Z.ComponentRing := fun i => zinv ^ (2 * i.val + 1)
  set P := Lagrange.interpolate Finset.univ node f
  have hdeg : P.degree < N := by
    have := Lagrange.degree_interpolate_lt f (s := Finset.univ) (h.slots_injective.injOn)
    rwa [Finset.card_univ, Fintype.card_fin] at this
  refine ⟨⟨fun i => P.coeff i⟩, fun i => ?_⟩
  have hn := Lagrange.eval_interpolate_at_node f (s := Finset.univ) h.slots_injective.injOn
    (Finset.mem_univ i)
  rw [← hn, Polynomial.eval_eq_sum_range' (n := N) ?_, ← Fin.sum_univ_eq_sum_range
    fun k => P.coeff k * node i ^ k]
  · rfl
  · rcases eq_or_ne P 0 with h0 | h0
    · have := i.isLt
      rw [show Lagrange.interpolate Finset.univ node f = P from rfl, h0, Polynomial.natDegree_zero]
      omega
    · exact (Polynomial.natDegree_lt_iff_degree_lt h0).mpr hdeg

theorem exists_slotRep (h : NttOk Z N zeta table z zinv)
    (hv : ∀ (i : Fin N) c, Avx.lane v[i] c ≤ 2 * Z.modulus) : ∃ F, SlotRep Z zinv v F := by
  choose F hF using fun c => h.exists_eval fun i => (Avx.lane v[i] c : Z.ComponentRing)
  exact ⟨F, (RepV.of_le hv).congr fun i c => (hF c i).symm⟩

end Interpolation

end Dnspir
