/-
What the development takes from `feanor-math`, whose code is not part of the
repository: the Cooley–Tukey FFT, powers in a ring, primitive roots of unity,
the rounding division, and the random element drawn from a seeded generator.

`FeanorMath` is the functions, over which the model is written; its elements
of `Z_q[X]/(X^N + 1)` and of `Z_n` are those of `Negacyclic` and `ZMod`.
`FeanorMath.Correct` is their documented behaviour, over which the results
about the NTT are proved:

* over a prime field, the FFT of length `2^log2n` and root `ω` leaves `Σ_j v_j ω^{-ij}` at `i`,
  in natural order, and the inverse FFT undoes it;
* a power represents the power, a root of unity is primitive of its order
  and exists where the order divides `p - 1`, and the division rounds to a
  nearest integer.
-/
import Dnspir.SimdZnFacts
import Dnspir.Lib.Negacyclic

namespace Dnspir

/-- The prime `2^26 - 2^12 + 1`, the first factor of the ciphertext modulus. -/
def qFactor1 : ℕ := 2 ^ 26 - 2 ^ 12 + 1

/-- The prime `2^25 - 2^12 + 1`, the second factor. -/
def qFactor2 : ℕ := 2 ^ 25 - 2 ^ 12 + 1

/-- The ciphertext modulus. -/
def fixedQ : ℕ := qFactor1 * qFactor2

instance : NeZero qFactor1 := ⟨by decide⟩
instance : NeZero qFactor2 := ⟨by decide⟩
instance : NeZero fixedQ := ⟨by decide⟩

/-- `Z_q[X]/(X^N + 1)`. -/
abbrev CipherRing (N : ℕ) := Negacyclic N (ZMod fixedQ)

/-- `Z_t[X]/(X^N + 1)`. -/
abbrev PlainRing (t N : ℕ) := Negacyclic N (ZMod t)

abbrev Seed := Vector UInt8 32

/-- The functions of `feanor-math` the model calls. -/
structure FeanorMath where
  /-- `pow` of a ring, by products of that ring. -/
  pow : {K : ℕ} → SpecialZnx8 K → M512i → ℕ → M512i
  /-- `fft` of a table with the given root of unity, on vectors of its length. -/
  fft : {K len : ℕ} → SpecialZnx8 K → M512i → Vector M512i len → Vector M512i len
  /-- `inv_fft` of the same table. -/
  invFft : {K len : ℕ} → SpecialZnx8 K → M512i → Vector M512i len → Vector M512i len
  /-- `get_prim_root_of_unity_pow2(Z/pZ, log)`. -/
  getPrimRootOfUnityPow2 : (p log : ℕ) → Option (ZMod p)
  /-- `rounded_div` of the integers. -/
  roundedDiv : ℤ → ℤ → ℤ
  /-- The element `random_element` draws from a `StdRng` with this seed. -/
  randomElement : (N : ℕ) → Seed → CipherRing N

/-- A `CooleyTuckeyFFT`, by its root of unity and the logarithm of its length. -/
structure NTT (K : ℕ) where
  root : M512i
  log2n : ℕ

namespace NTT

variable {K len : ℕ} (fm : FeanorMath) (Z : SpecialZnx8 K) (table : NTT K)

/-- `fft`, which asserts the length of its table. -/
def fft (values : Vector M512i len) : Option (Vector M512i len) :=
  if len = 2 ^ table.log2n then some (fm.fft Z table.root values) else none

/-- `inv_fft`. -/
def invFft (values : Vector M512i len) : Option (Vector M512i len) :=
  if len = 2 ^ table.log2n then some (fm.invFft Z table.root values) else none

end NTT

/-- Every entry of `v` represents its family of residues. -/
def RepV {K len : ℕ} (Z : SpecialZnx8 K) (v : Vector M512i len)
    (f : Fin len → Fin 8 → Z.ComponentRing) : Prop := ∀ i, Z.Rep v[i] (f i)

/-- The discrete Fourier transform the FFT computes. -/
def dft {R : Type*} [CommRing R] {len : ℕ} (ωinv : R) (f : Fin len → R) (i : Fin len) : R :=
  ∑ j : Fin len, f j * ωinv ^ (i.val * j.val)

/-- The documented behaviour of the functions of `feanor-math`. -/
structure FeanorMath.Correct (fm : FeanorMath) : Prop where
  pow : ∀ {K : ℕ} {Z : SpecialZnx8 K} {x : M512i} {f : Fin 8 → Z.ComponentRing} (n : ℕ),
    Z.Rep x f → Z.Rep (fm.pow Z x n) (f ^ n)
  fft : ∀ {K log : ℕ} {Z : SpecialZnx8 K} {root : M512i} {ω ωinv : Z.ComponentRing}
    {v : Vector M512i (2 ^ log)} {f : Fin (2 ^ log) → Fin 8 → Z.ComponentRing},
    Z.modulus.Prime → Z.Rep root (fun _ => ω) → (∀ c, Avx.lane root c ≤ Z.modulus) →
    IsPrimitiveRoot ω (2 ^ log) → ω * ωinv = 1 → RepV Z v f →
    RepV Z (fm.fft Z root v) fun i c => dft ωinv (fun j => f j c) i
  invFft : ∀ {K log : ℕ} {Z : SpecialZnx8 K} {root : M512i} {ω ωinv : Z.ComponentRing}
    {v : Vector M512i (2 ^ log)} {f : Fin (2 ^ log) → Fin 8 → Z.ComponentRing},
    Z.modulus.Prime → Z.Rep root (fun _ => ω) → (∀ c, Avx.lane root c ≤ Z.modulus) →
    IsPrimitiveRoot ω (2 ^ log) → ω * ωinv = 1 → RepV Z v (fun i c => dft ωinv (fun j => f j c) i) →
    RepV Z (fm.invFft Z root v) f
  isPrimitiveRoot : ∀ {p log : ℕ} {r : ZMod p},
    fm.getPrimRootOfUnityPow2 p log = some r → IsPrimitiveRoot r (2 ^ log)
  exists_root : ∀ {p log : ℕ}, p.Prime → 2 ^ log ∣ p - 1 →
    (fm.getPrimRootOfUnityPow2 p log).isSome
  roundedDiv : ∀ a b : ℤ, 0 < b → |2 * (a - fm.roundedDiv a b * b)| ≤ b

end Dnspir
