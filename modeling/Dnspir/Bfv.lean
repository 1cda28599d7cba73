/-
The BFV primitives (`bfv`): keys, encryption, decryption and the modulus
switch, over any ciphertext modulus `q` and plaintext modulus `t`.

Arithmetic on `i64` and `i128` and conversions between integer types are
checked, and fail where they overflow. The words a generator draws and the
noise polynomials, which are samples of a floating-point distribution, are
parameters; so is `expand`, whose elements `feanor-math` draws.
-/
import Dnspir.Preprocess

namespace Dnspir

namespace Bfv

variable {N q t : ℕ}

/-! ## Machine integers -/

def i64 (x : ℤ) : Option ℤ := if -2 ^ 63 ≤ x ∧ x < 2 ^ 63 then some x else none

def i128 (x : ℤ) : Option ℤ := if -2 ^ 127 ≤ x ∧ x < 2 ^ 127 then some x else none

/-- `try_into::<u64>`. -/
def u64 (x : ℤ) : Option UInt64 := if 0 ≤ x ∧ x < 2 ^ 64 then some (UInt64.ofNat x.toNat) else none

/-- A fallible map of the coefficients. -/
def mapCoeff {n m : ℕ} (f : ZMod n → Option (ZMod m)) (x : Negacyclic N (ZMod n)) :
    Option (Negacyclic N (ZMod m)) := do
  let v ← Vector.ofFnM fun i => f (x.coeff i)
  return ⟨fun i => v[i]⟩

/-! ## Secret keys -/

/-- One round of `gen_sk`, on the words `next_u64` and `next_u32` draw. -/
def genSkStep [NeZero N] (draws : ℕ → UInt64 × UInt32) (resultData : Vector (ZMod q) N) (k : ℕ) :
    Vector (ZMod q) N :=
  let idx := (draws k).1.toNat % N
  resultData.set idx ((((draws k).2.toNat % 3 : ℕ) : ℤ) - 1 : ℤ) (Nat.mod_lt _ (NeZero.pos N))

def genSk [NeZero N] (q : ℕ) (draws : ℕ → UInt64 × UInt32) (hwt : ℕ) : Negacyclic N (ZMod q) :=
  let resultData := (List.range hwt).foldl (genSkStep draws) (Vector.replicate N 0)
  ⟨fun i => resultData[i]⟩

/-! ## Modulus switch -/

def encodeCoeff (fm : FeanorMath) (bits : ℕ) (c : ZMod q) : Option UInt64 := do
  let x ← i128 (c.valMinAbs * 2 ^ bits)
  let y ← i128 (fm.roundedDiv x q + 2 ^ bits)
  u64 (y.tmod (2 ^ bits))

def modSwitchEncode (fm : FeanorMath) (bits : ℕ) (x : Negacyclic N (ZMod q)) : Option (List UInt64) :=
  if bits ≤ 64 then do
    let v ← Vector.ofFnM fun i => encodeCoeff fm bits (x.coeff i)
    return v.toList
  else none

def decodeCoeff (q bits : ℕ) (c : UInt64) : Option (ZMod q) := do
  let x ← i128 ((c.toNat : ℤ) * q)
  let y ← i64 (x.tdiv (2 ^ bits))
  return y

def modSwitchDecode (q bits : ℕ) (x : List UInt64) : Option (Negacyclic N (ZMod q)) :=
  if h : bits ≤ 64 ∧ N = x.length then do
    let v ← Vector.ofFnM fun i : Fin N => decodeCoeff q bits (x.get ⟨i, h.2 ▸ i.isLt⟩)
    return ⟨fun i => v[i]⟩
  else none

/-! ## Encryption -/

/-- The `rescale` closures: from `Z/n` to `Z/m`, the multiple `m/n` rounded,
by exact division. `nInv` is the inverse of `n` mod `m`. -/
def rescale {n m : ℕ} (nInv : ZMod m) (c : ZMod n) : Option (ZMod m) := do
  let cUpscaled ← i64 (c.valMinAbs * m)
  let delta := (cUpscaled : ZMod n).valMinAbs
  let diff ← i64 (cUpscaled - delta)
  return diff * nInv

def encSymB [NeZero N] (expand : Seed → Negacyclic N (ZMod q)) (a : Seed) (e sk : Negacyclic N (ZMod q))
    (m : PlainRing t N) : Option (Negacyclic N (ZMod q)) := do
  let a := expand a
  let pModulusInv ← Zn.invert ((t : ℤ) : ZMod q)
  let payload ← mapCoeff (rescale pModulusInv) m
  return e - a * sk + payload

def dec [NeZero N] (t : ℕ) (sk : Negacyclic N (ZMod q))
    (ct : Negacyclic N (ZMod q) × Negacyclic N (ZMod q)) : Option (PlainRing t N) := do
  let noisyDec := ct.1 * sk + ct.2
  let cModulusInv ← Zn.invert ((q : ℤ) : ZMod t)
  mapCoeff (rescale cModulusInv) noisyDec

/-! ## Galois keys -/

/-- A coefficient, by index. -/
def coeffAt (s : Negacyclic N (ZMod q)) (k : ℕ) : Option (ZMod q) :=
  if h : k < N then some (s.coeff ⟨k, h⟩) else none

/-- `gal_s`: the key under the automorphism, coefficient by coefficient. -/
def galS (g : ℕ) (s : Negacyclic N (ZMod q)) : Option (Negacyclic N (ZMod q)) := do
  let invG ← Zn.invert ((g : ℤ) : ZMod (2 * N))
  let v ← Vector.ofFnM fun i : Fin N =>
    let newIdx := (((i.val : ℤ) : ZMod (2 * N)) * invG).val
    if newIdx > N then (coeffAt s (newIdx - N)).map (- ·) else coeffAt s newIdx
  return ⟨fun i => v[i]⟩

def genGkB [NeZero N] {digits : ℕ} (expand : Seed → Negacyclic N (ZMod q)) (seedsA : Vector Seed digits)
    (errors : Fin digits → Negacyclic N (ZMod q)) (sk : Negacyclic N (ZMod q)) (g log2B : ℕ) :
    Option (Vector (Negacyclic N (ZMod q)) digits) := do
  let galS ← galS g sk
  return Vector.ofFn fun i =>
    let a := expand seedsA[i]
    let payload := galS * Negacyclic.C (((2 ^ log2B : ℤ) : ZMod q) ^ i.val)
    errors i - a * sk + payload

end Bfv

end Dnspir
