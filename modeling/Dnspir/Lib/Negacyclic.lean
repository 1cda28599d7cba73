/-
The ring `R[X]/(X^n + 1)`, an element being its `n` coefficients.

The product is the signed convolution, so it computes. The ring laws are
those of the polynomial quotient, into which `eval` at its root embeds the
coefficient vectors (`eval_root_injective`).

* `evalHom`: evaluation at any point `x` with `x^n = -1` is a ring hom.
* `gal`: the endomorphism `X -> X^g` for odd `g`; composition multiplies
  the exponents (`gal_gal`) and only their residue mod `2n` matters
  (`gal_congr`).
* `coeff_gal_bound`: `X^e * f(X^g)` has the coefficients of `f`, moved and
  signed, so a bound on coefficients survives.
-/
import Mathlib

/-- An element of `R[X]/(X^n + 1)`, by its coefficients. -/
@[ext]
structure Negacyclic (n : ℕ) (R : Type*) where
  coeff : Fin n → R

namespace Negacyclic

variable {n : ℕ} {R S T : Type*}

instance [DecidableEq R] : DecidableEq (Negacyclic n R) := fun f g =>
  decidable_of_iff (f.coeff = g.coeff) Negacyclic.ext_iff.symm

section Operations
variable [CommRing R]

instance : Zero (Negacyclic n R) := ⟨⟨fun _ => 0⟩⟩
instance : One (Negacyclic n R) := ⟨⟨fun i => if i.val = 0 then 1 else 0⟩⟩
instance : Add (Negacyclic n R) := ⟨fun f g => ⟨fun i => f.coeff i + g.coeff i⟩⟩
instance : Neg (Negacyclic n R) := ⟨fun f => ⟨fun i => -f.coeff i⟩⟩

/-- Coefficient `k` collects `f i * g j` over `i + j = k`, and its negative
over `i + j = k + n`; `k - i` is the subtraction of `Fin n`, which wraps. -/
instance [NeZero n] : Mul (Negacyclic n R) := ⟨fun f g => ⟨fun k =>
  ∑ i : Fin n, if i ≤ k then f.coeff i * g.coeff (k - i) else -(f.coeff i * g.coeff (k - i))⟩⟩

@[simp] theorem coeff_zero (i : Fin n) : (0 : Negacyclic n R).coeff i = 0 := rfl
@[simp] theorem coeff_add (f g : Negacyclic n R) (i : Fin n) :
    (f + g).coeff i = f.coeff i + g.coeff i := rfl
@[simp] theorem coeff_neg (f : Negacyclic n R) (i : Fin n) : (-f).coeff i = -f.coeff i := rfl
theorem coeff_one (i : Fin n) : (1 : Negacyclic n R).coeff i = if i.val = 0 then 1 else 0 := rfl
theorem coeff_mul [NeZero n] (f g : Negacyclic n R) (k : Fin n) : (f * g).coeff k =
    ∑ i : Fin n, if i ≤ k then f.coeff i * g.coeff (k - i) else -(f.coeff i * g.coeff (k - i)) := rfl

/-- The value at `x`, the coefficients taken through `φ`. -/
def eval [CommRing S] (φ : R →+* S) (x : S) (f : Negacyclic n R) : S :=
  ∑ i : Fin n, φ (f.coeff i) * x ^ i.val

variable [CommRing S] (φ : R →+* S) {x : S}

theorem eval_add (f g : Negacyclic n R) : eval φ x (f + g) = eval φ x f + eval φ x g := by
  simp only [eval, coeff_add, map_add, add_mul, Finset.sum_add_distrib]

theorem eval_neg (f : Negacyclic n R) : eval φ x (-f) = -eval φ x f := by
  simp only [eval, coeff_neg, map_neg, neg_mul, Finset.sum_neg_distrib]

theorem eval_zero : eval φ x (0 : Negacyclic n R) = 0 := by simp [eval]

variable [NeZero n]

theorem eval_one : eval φ x (1 : Negacyclic n R) = 1 := by
  have h0 : ∀ i : Fin n, i ≠ 0 → φ ((1 : Negacyclic n R).coeff i) * x ^ i.val = 0 := by
    intro i hi
    have : i.val ≠ 0 := fun h => hi (Fin.ext (by simpa using h))
    simp [coeff_one, this]
  rw [eval, Finset.sum_eq_single_of_mem 0 (Finset.mem_univ _) fun i _ => h0 i]
  simp [coeff_one]

omit [NeZero n] in
/-- Adding indices as `Fin n` and reducing the power of `x` agree, the sign
being the wrap's. -/
theorem signed_pow (hx : x ^ n = -1) (i j : Fin n) (a : S) :
    (if i ≤ i + j then a else -a) * x ^ (i + j).val = a * x ^ (i.val + j.val) := by
  have hi := i.isLt
  have hj := j.isLt
  by_cases h : i.val + j.val < n
  · have hv : (i + j).val = i.val + j.val := by rw [Fin.val_add, Nat.mod_eq_of_lt h]
    rw [if_pos (Fin.le_def.mpr (by omega)), hv]
  · have hv : (i + j).val = i.val + j.val - n := by
      rw [Fin.val_add, Nat.mod_eq_sub_mod (by omega), Nat.mod_eq_of_lt (by omega)]
    have hs : i.val + j.val = i.val + j.val - n + n := by omega
    rw [if_neg (fun hle => by rw [Fin.le_def] at hle; omega), hv]
    conv_rhs => rw [hs, pow_add, hx]
    ring

theorem eval_mul (hx : x ^ n = -1) (f g : Negacyclic n R) :
    eval φ x (f * g) = eval φ x f * eval φ x g := by
  have hterm : ∀ i k : Fin n,
      φ (if i ≤ k then f.coeff i * g.coeff (k - i) else -(f.coeff i * g.coeff (k - i))) * x ^ k.val =
        (if i ≤ k then φ (f.coeff i) * φ (g.coeff (k - i)) else -(φ (f.coeff i) * φ (g.coeff (k - i))))
          * x ^ k.val := by
    intro i k
    split <;> simp
  calc eval φ x (f * g)
      = ∑ k : Fin n, ∑ i : Fin n, (if i ≤ k then φ (f.coeff i) * φ (g.coeff (k - i))
          else -(φ (f.coeff i) * φ (g.coeff (k - i)))) * x ^ k.val := by
        simp only [eval, coeff_mul, map_sum, Finset.sum_mul]
        exact Finset.sum_congr rfl fun k _ => Finset.sum_congr rfl fun i _ => hterm i k
    _ = ∑ i : Fin n, ∑ k : Fin n, (if i ≤ k then φ (f.coeff i) * φ (g.coeff (k - i))
          else -(φ (f.coeff i) * φ (g.coeff (k - i)))) * x ^ k.val := Finset.sum_comm
    _ = ∑ i : Fin n, ∑ j : Fin n, φ (f.coeff i) * φ (g.coeff j) * x ^ (i.val + j.val) := by
        refine Finset.sum_congr rfl fun i _ => ?_
        rw [← Equiv.sum_comp (Equiv.addLeft i)]
        refine Finset.sum_congr rfl fun j _ => ?_
        simp only [Equiv.coe_addLeft, add_sub_cancel_left]
        exact signed_pow hx i j _
    _ = eval φ x f * eval φ x g := by
        simp only [eval, Finset.sum_mul_sum]
        refine Finset.sum_congr rfl fun i _ => Finset.sum_congr rfl fun j _ => ?_
        rw [pow_add]
        ring

end Operations

/-! ## The ring -/

section Quotient
variable [CommRing R]
open Polynomial

theorem root_pow : (AdjoinRoot.root (X ^ n + 1 : R[X])) ^ n = -1 := by
  have h := AdjoinRoot.eval₂_root (X ^ n + 1 : R[X])
  simpa [eval₂_add, eval₂_pow, add_eq_zero_iff_eq_neg] using h

/-- Evaluation at the root of the quotient loses nothing. -/
theorem eval_root_injective [NeZero n] : Function.Injective
    (eval (AdjoinRoot.of (X ^ n + 1 : R[X])) (AdjoinRoot.root _) : Negacyclic n R → AdjoinRoot _) := by
  intro f g h
  rcases subsingleton_or_nontrivial R with hR | hR
  · ext k; exact Subsingleton.elim _ _
  have hmk : ∀ f : Negacyclic n R, eval (AdjoinRoot.of (X ^ n + 1 : R[X])) (AdjoinRoot.root _) f =
      AdjoinRoot.mk _ (∑ i : Fin n, C (f.coeff i) * X ^ i.val) := by
    intro f
    simp only [eval, map_sum, map_mul, map_pow, AdjoinRoot.mk_X, AdjoinRoot.mk_C]
  have hmonic : (X ^ n + 1 : R[X]).Monic := monic_X_pow_add_C 1 (NeZero.ne n)
  have hdeg : ∀ f : Negacyclic n R,
      (∑ i : Fin n, C (f.coeff i) * X ^ i.val).degree < (X ^ n + 1 : R[X]).degree := by
    intro f
    rw [show (X ^ n + 1 : R[X]) = X ^ n + C 1 by
      simp, degree_X_pow_add_C (Nat.pos_of_ne_zero (NeZero.ne n))]
    refine (degree_sum_le _ _).trans_lt ((Finset.sup_lt_iff (WithBot.bot_lt_coe n)).mpr fun i _ => ?_)
    exact (degree_C_mul_X_pow_le _ _).trans_lt (WithBot.coe_lt_coe.mpr i.isLt)
  have heq : (∑ i : Fin n, C (f.coeff i) * X ^ i.val) = ∑ i : Fin n, C (g.coeff i) * X ^ i.val := by
    rw [hmk, hmk, AdjoinRoot.mk_eq_mk] at h
    rw [← sub_eq_zero]
    by_contra hne
    exact hmonic.not_dvd_of_degree_lt hne ((degree_sub_le _ _).trans_lt (max_lt (hdeg f) (hdeg g))) h
  have hcoeff : ∀ (f : Negacyclic n R) (k : Fin n),
      (∑ i : Fin n, C (f.coeff i) * X ^ i.val).coeff k.val = f.coeff k := by
    intro f k
    simp only [finsetSum_coeff, coeff_C_mul_X_pow]
    rw [Finset.sum_eq_single_of_mem k (Finset.mem_univ _) fun i _ hi =>
      if_neg fun h => hi (Fin.ext h.symm)]
    simp
  ext k
  rw [← hcoeff f k, heq, hcoeff]

variable [NeZero n]

instance : CommRing (Negacyclic n R) :=
  CommRing.ofMinimalAxioms
    (fun a b c => by ext i; exact add_assoc _ _ _)
    (fun a => by ext i; exact zero_add _)
    (fun a => by ext i; exact neg_add_cancel _)
    (fun a b c => eval_root_injective (by simp only [eval_mul _ root_pow, mul_assoc]))
    (fun a b => eval_root_injective (by simp only [eval_mul _ root_pow, mul_comm]))
    (fun a => eval_root_injective (by simp only [eval_mul _ root_pow, eval_one, one_mul]))
    (fun a b c => eval_root_injective (by simp only [eval_mul _ root_pow, eval_add, mul_add]))

end Quotient

variable [CommRing R] [CommRing S] [NeZero n]

@[simp] theorem coeff_sub (f g : Negacyclic n R) (i : Fin n) :
    (f - g).coeff i = f.coeff i - g.coeff i := by
  rw [sub_eq_add_neg, coeff_add, coeff_neg, ← sub_eq_add_neg]

theorem coeff_sum {ι : Type*} (s : Finset ι) (f : ι → Negacyclic n R) (k : Fin n) :
    (∑ i ∈ s, f i).coeff k = ∑ i ∈ s, (f i).coeff k :=
  map_sum (AddMonoidHom.mk' (fun f : Negacyclic n R => f.coeff k) fun _ _ => rfl) f s

/-- Evaluation at a point with `x^n = -1`. -/
def evalHom (φ : R →+* S) (x : S) (hx : x ^ n = -1) : Negacyclic n R →+* S where
  toFun := eval φ x
  map_one' := eval_one φ
  map_mul' := eval_mul φ hx
  map_zero' := eval_zero φ
  map_add' := eval_add φ

@[simp] theorem evalHom_apply (φ : R →+* S) (x : S) (hx : x ^ n = -1) (f : Negacyclic n R) :
    evalHom φ x hx f = eval φ x f := rfl

/-- The constants. -/
def C : R →+* Negacyclic n R where
  toFun a := ⟨fun i => if i.val = 0 then a else 0⟩
  map_one' := by ext i; simp [coeff_one]
  map_zero' := by ext i; simp
  map_add' a b := by ext i; simp only [coeff_add]; split <;> simp
  map_mul' a b := eval_root_injective (by
    have hc : ∀ a : R, eval (AdjoinRoot.of (Polynomial.X ^ n + 1 : Polynomial R)) (AdjoinRoot.root _)
        (⟨fun i => if i.val = 0 then a else 0⟩ : Negacyclic n R) = AdjoinRoot.of _ a := by
      intro a
      rw [eval, Finset.sum_eq_single_of_mem 0 (Finset.mem_univ _)]
      · simp
      · intro i _ hi
        have : i.val ≠ 0 := fun h => hi (Fin.ext (by simpa using h))
        simp [this]
    rw [eval_mul _ root_pow, hc, hc, hc, map_mul])

theorem coeff_C (a : R) (i : Fin n) : (C a : Negacyclic n R).coeff i = if i.val = 0 then a else 0 := rfl

theorem eval_C (φ : R →+* S) (x : S) (a : R) : eval φ x (C a : Negacyclic n R) = φ a := by
  rw [eval, Finset.sum_eq_single_of_mem 0 (Finset.mem_univ _)]
  · simp [coeff_C]
  · intro i _ hi
    have : i.val ≠ 0 := fun h => hi (Fin.ext (by simpa using h))
    simp [coeff_C, this]

theorem C_mul_coeff (a : R) (f : Negacyclic n R) (k : Fin n) : (C a * f).coeff k = a * f.coeff k := by
  rw [coeff_mul, Finset.sum_eq_single_of_mem 0 (Finset.mem_univ _)]
  · simp [coeff_C]
  · intro i _ hi
    have : i.val ≠ 0 := fun h => hi (Fin.ext (by simpa using h))
    simp [coeff_C, this]

/-! ## The variable and its powers -/

/-- `a * X^k`, the wraps past `n` counted as signs. -/
def monomial (k : ℕ) (a : R) : Negacyclic n R :=
  ⟨fun i => if k % n = i.val then (-1) ^ (k / n) * a else 0⟩

omit [NeZero n] in
theorem coeff_monomial (k : ℕ) (a : R) (i : Fin n) :
    (monomial k a : Negacyclic n R).coeff i = if k % n = i.val then (-1) ^ (k / n) * a else 0 := rfl

/-- The variable. -/
def X : Negacyclic n R := monomial 1 1

theorem eval_monomial (φ : R →+* S) {x : S} (hx : x ^ n = -1) (k : ℕ) (a : R) :
    eval φ x (monomial k a : Negacyclic n R) = φ a * x ^ k := by
  have hlt : k % n < n := Nat.mod_lt _ (Nat.pos_of_ne_zero (NeZero.ne n))
  rw [eval, Finset.sum_eq_single_of_mem ⟨k % n, hlt⟩ (Finset.mem_univ _)]
  · simp only [coeff_monomial, if_true, map_mul, map_pow, map_neg, map_one]
    conv_rhs => rw [← Nat.div_add_mod k n, pow_add, pow_mul, hx]
    ring
  · intro i _ hi
    have : k % n ≠ i.val := fun h => hi (Fin.ext h.symm)
    simp [coeff_monomial, this]

theorem monomial_eq (k : ℕ) (a : R) : (monomial k a : Negacyclic n R) = C a * X ^ k := by
  refine eval_root_injective ?_
  rw [eval_monomial _ root_pow, eval_mul _ root_pow, eval_C]
  have hX : ∀ k, eval (AdjoinRoot.of (Polynomial.X ^ n + 1 : Polynomial R)) (AdjoinRoot.root _)
      (X ^ k : Negacyclic n R) = (AdjoinRoot.root _) ^ k := by
    intro k
    have h := (evalHom (AdjoinRoot.of (Polynomial.X ^ n + 1 : Polynomial R)) _ root_pow).map_pow
      (X : Negacyclic n R) k
    simp only [evalHom_apply] at h
    rw [h, X, eval_monomial _ root_pow, map_one, one_mul, pow_one]
  rw [hX]

theorem eval_X_pow (φ : R →+* S) {x : S} (hx : x ^ n = -1) (k : ℕ) :
    eval φ x (X ^ k : Negacyclic n R) = x ^ k := by
  rw [← one_mul (X ^ k), ← C.map_one, ← monomial_eq, eval_monomial φ hx, map_one, one_mul]

theorem X_pow_n : (X : Negacyclic n R) ^ n = -1 := by
  refine eval_root_injective ?_
  rw [eval_X_pow _ root_pow, root_pow, eval_neg, eval_one]

theorem X_pow_two_n : (X : Negacyclic n R) ^ (2 * n) = 1 := by
  rw [mul_comm, pow_mul, X_pow_n]
  ring

/-- Every element is the sum of its coefficients times powers of `X`. -/
theorem eq_sum (f : Negacyclic n R) : f = ∑ i : Fin n, C (f.coeff i) * X ^ i.val := by
  ext k
  rw [coeff_sum, Finset.sum_eq_single_of_mem k (Finset.mem_univ _)]
  · rw [← monomial_eq, coeff_monomial]
    simp [Nat.mod_eq_of_lt k.isLt, Nat.div_eq_of_lt k.isLt]
  · intro i _ hi
    rw [← monomial_eq, coeff_monomial, Nat.mod_eq_of_lt i.isLt, if_neg fun h => hi (Fin.ext h)]

theorem eval_C_X (f : Negacyclic n R) : eval C X f = f := (eq_sum f).symm

/-! ## Changing the coefficients -/

/-- A ring hom on every coefficient. -/
def map (φ : R →+* S) : Negacyclic n R →+* Negacyclic n S where
  toFun f := ⟨fun i => φ (f.coeff i)⟩
  map_one' := by ext i; simp only [coeff_one]; split <;> simp
  map_zero' := by ext i; simp
  map_add' f g := by ext i; simp
  map_mul' f g := by
    ext k
    simp only [coeff_mul, map_sum]
    refine Finset.sum_congr rfl fun i _ => ?_
    split <;> simp

@[simp] theorem coeff_map (φ : R →+* S) (f : Negacyclic n R) (i : Fin n) :
    (map φ f).coeff i = φ (f.coeff i) := rfl

theorem map_C (φ : R →+* S) (a : R) : map φ (C a : Negacyclic n R) = C (φ a) := by
  ext i; simp only [coeff_map, coeff_C]; split <;> simp

theorem map_X (φ : R →+* S) : map φ (X : Negacyclic n R) = X := by
  ext i
  simp only [coeff_map, X, coeff_monomial]
  split <;> simp

theorem eval_map [CommRing T] (φ : R →+* S) (ψ : S →+* T) (x : T) (f : Negacyclic n R) :
    eval ψ x (map φ f) = eval (ψ.comp φ) x f := rfl

/-! ## The endomorphisms `X -> X^g` -/

theorem X_pow_pow_n {g : ℕ} (hg : Odd g) : ((X : Negacyclic n R) ^ g) ^ n = -1 := by
  rw [← pow_mul, mul_comm, pow_mul, X_pow_n, hg.neg_one_pow]

/-- `f(X^g)`, for odd `g`. -/
def gal (g : ℕ) (hg : Odd g) : Negacyclic n R →+* Negacyclic n R := evalHom C (X ^ g) (X_pow_pow_n hg)

theorem gal_apply {g : ℕ} (hg : Odd g) (f : Negacyclic n R) : gal g hg f = eval C (X ^ g) f := rfl

@[simp] theorem gal_X {g : ℕ} (hg : Odd g) (k : ℕ) :
    gal g hg (X ^ k : Negacyclic n R) = X ^ (g * k) := by
  rw [gal_apply, eval_X_pow _ (X_pow_pow_n hg), ← pow_mul]

@[simp] theorem gal_C {g : ℕ} (hg : Odd g) (a : R) : gal g hg (C a : Negacyclic n R) = C a := by
  rw [gal_apply, eval_C]

theorem gal_eq_sum {g : ℕ} (hg : Odd g) (f : Negacyclic n R) :
    gal g hg f = ∑ i : Fin n, C (f.coeff i) * X ^ (g * i.val) := by
  rw [gal_apply, eval]
  exact Finset.sum_congr rfl fun i _ => by rw [← pow_mul]

/-- Reading `f(X^g)` at `x` is reading `f` at `x^g`. -/
theorem eval_gal (φ : R →+* S) {x : S} (hx : x ^ n = -1) {g : ℕ} (hg : Odd g) (f : Negacyclic n R) :
    eval φ x (gal g hg f) = eval φ (x ^ g) f := by
  rw [gal_eq_sum, ← evalHom_apply φ x hx, map_sum, eval]
  refine Finset.sum_congr rfl fun i _ => ?_
  rw [map_mul, evalHom_apply, evalHom_apply, eval_C, eval_X_pow φ hx, pow_mul]

theorem gal_gal {g h : ℕ} (hg : Odd g) (hh : Odd h) (f : Negacyclic n R) :
    gal g hg (gal h hh f) = gal (g * h) (hg.mul hh) f := by
  rw [gal_apply hg, eval_gal C (X_pow_pow_n hg), gal_apply, ← pow_mul]

theorem X_pow_congr {a b : ℕ} (h : a ≡ b [MOD 2 * n]) : (X : Negacyclic n R) ^ a = X ^ b := by
  rw [← pow_mod_orderOf _ a, ← pow_mod_orderOf _ b]
  exact congrArg _ (h.of_dvd (orderOf_dvd_of_pow_eq_one X_pow_two_n))

theorem gal_congr {g h : ℕ} (hg : Odd g) (hh : Odd h) (hgh : g ≡ h [MOD 2 * n]) (f : Negacyclic n R) :
    gal g hg f = gal h hh f := by
  rw [gal_apply, gal_apply, X_pow_congr hgh]

theorem gal_one (f : Negacyclic n R) : gal 1 odd_one f = f := by
  rw [gal_apply, pow_one, eval_C_X]

theorem gal_iterate {g : ℕ} (hg : Odd g) (s : ℕ) (f : Negacyclic n R) :
    (gal g hg)^[s] f = gal (g ^ s) hg.pow f := by
  induction s with
  | zero => simp only [Function.iterate_zero, id_eq, pow_zero]; rw [gal_one]
  | succ s ih =>
    rw [Function.iterate_succ_apply', ih, gal_gal]
    congr 1
    simp only [pow_succ']

theorem map_gal (φ : R →+* S) {g : ℕ} (hg : Odd g) (f : Negacyclic n R) :
    map φ (gal g hg f) = gal g hg (map φ f) := by
  simp only [gal_eq_sum, map_sum, map_mul, map_pow, map_C, map_X, coeff_map]

/-! ## Bounds on integer coefficients -/

/-- Multiplying the exponents by `a`, coprime to `n`, and shifting them by
`e` moves each coefficient to a place of its own, up to sign. -/
theorem coeff_affine_bound {B : ℤ} (hB : 0 ≤ B) {a : ℕ} (ha : a.Coprime n) (e : ℕ) {f : Negacyclic n ℤ}
    (hf : ∀ i, |f.coeff i| ≤ B) (k : Fin n) :
    |(∑ i : Fin n, C (f.coeff i) * X ^ (a * i.val + e) : Negacyclic n ℤ).coeff k| ≤ B := by
  rw [coeff_sum]
  have hcoeff : ∀ i : Fin n, (C (f.coeff i) * X ^ (a * i.val + e) : Negacyclic n ℤ).coeff k =
      if (a * i.val + e) % n = k.val then (-1) ^ ((a * i.val + e) / n) * f.coeff i else 0 := by
    intro i
    rw [← monomial_eq, coeff_monomial]
  simp only [hcoeff]
  by_cases hex : ∃ i : Fin n, (a * i.val + e) % n = k.val
  · obtain ⟨i, hi⟩ := hex
    rw [Finset.sum_eq_single_of_mem i (Finset.mem_univ _)]
    · rw [if_pos hi, abs_mul, abs_pow, abs_neg, abs_one, one_pow, one_mul]
      exact hf i
    · intro j _ hji
      refine if_neg fun hj => hji (Fin.ext ?_)
      have h1 : a * j.val + e ≡ a * i.val + e [MOD n] := hj.trans hi.symm
      have h2 : j.val ≡ i.val [MOD n] :=
        Nat.ModEq.cancel_left_of_coprime (Nat.coprime_comm.mp ha) (Nat.ModEq.add_right_cancel' e h1)
      rwa [Nat.ModEq, Nat.mod_eq_of_lt j.isLt, Nat.mod_eq_of_lt i.isLt] at h2
  · rw [Finset.sum_eq_zero fun i _ => if_neg fun h => hex ⟨i, h⟩, abs_zero]
    exact hB

/-- The coefficients of `X^e * f(X^g)` are those of `f`, moved and signed. -/
theorem coeff_gal_bound {B : ℤ} (hB : 0 ≤ B) {g : ℕ} (hg : Odd g) (hgn : g.Coprime n) (e : ℕ)
    {f : Negacyclic n ℤ} (hf : ∀ i, |f.coeff i| ≤ B) (k : Fin n) :
    |(gal g hg f * X ^ e).coeff k| ≤ B := by
  have h : gal g hg f * X ^ e = ∑ i : Fin n, C (f.coeff i) * X ^ (g * i.val + e) := by
    rw [gal_eq_sum, Finset.sum_mul]
    exact Finset.sum_congr rfl fun i _ => by rw [pow_add, mul_assoc]
  rw [h]
  exact coeff_affine_bound hB hgn e hf k

end Negacyclic
