/-
The register operations on the numbers the lanes hold: `lane` reads a lane
unsigned, `slane` signed. Each lemma carries the bound under which the
operation does not wrap, so a caller computes with numbers and proves ranges.
-/
import Dnspir.Avx

namespace Dnspir.Avx

/-- Lane `c` as an unsigned number. -/
def lane (x : M512i) (c : Fin 8) : ℕ := x[c].toNat

/-- Lane `c` as a signed number. -/
def slane (x : M512i) (c : Fin 8) : ℤ := x[c].toInt

theorem lane_ext {x y : M512i} (h : ∀ c, lane x c = lane y c) : x = y := by
  refine Vector.ext fun i hi => ?_
  exact BitVec.eq_of_toNat_eq (h ⟨i, hi⟩)

variable {x y : M512i} {c : Fin 8}

theorem lane_set1 {a : ℕ} (h : a < 2 ^ 64) : lane (mm512Set1Epi64 (BitVec.ofNat 64 a)) c = a := by
  simp only [lane, Positions.getElem_pos, getElem_set1, BitVec.toNat_ofNat]
  exact Nat.mod_eq_of_lt h

theorem lane_ofFn {f : Fin 8 → ℕ} (h : ∀ c, f c < 2 ^ 64) :
    lane (Vector.ofFn fun c => BitVec.ofNat 64 (f c)) c = f c := by
  simp only [lane, Positions.getElem_pos, Vector.getElem_ofFn, BitVec.toNat_ofNat]
  exact Nat.mod_eq_of_lt (h c)

theorem lane_add (h : lane x c + lane y c < 2 ^ 64) :
    lane (mm512AddEpi64 x y) c = lane x c + lane y c := by
  simp only [lane, Positions.getElem_pos] at h ⊢
  rw [getElem_add, BitVec.toNat_add, Nat.mod_eq_of_lt h]

theorem lane_sub (h : lane y c ≤ lane x c) :
    lane (mm512SubEpi64 x y) c = lane x c - lane y c := by
  simp only [lane, Positions.getElem_pos] at h ⊢
  rw [getElem_sub, BitVec.toNat_sub_of_le (BitVec.le_def.mpr h)]

theorem lane_srli (k : ℕ) : lane (mm512SrliEpi64 k x) c = lane x c / 2 ^ k := by
  simp only [lane, Positions.getElem_pos, getElem_srli, BitVec.toNat_ushiftRight,
    Nat.shiftRight_eq_div_pow]

/-- The multiplication reads 32 bits of each lane, and their product fits. -/
theorem lane_mulEpu32 (hx : lane x c < 2 ^ 32) (hy : lane y c < 2 ^ 32) :
    lane (mm512MulEpu32 x y) c = lane x c * lane y c := by
  simp only [lane, Positions.getElem_pos] at hx hy ⊢
  rw [getElem_mulEpu32, BitVec.toNat_mul]
  simp only [BitVec.toNat_setWidth]
  rw [Nat.mod_eq_of_lt hx, Nat.mod_eq_of_lt hy]
  have h1 : x[c.val].toNat * y[c.val].toNat < 2 ^ 32 * 2 ^ 32 := Nat.mul_lt_mul'' hx hy
  rw [Nat.mod_eq_of_lt (a := x[c.val].toNat) (by omega),
    Nat.mod_eq_of_lt (a := y[c.val].toNat) (by omega)]
  exact Nat.mod_eq_of_lt (by omega)

theorem lane_mask (m : M512Mask) : lane (mm512Mask x m) c = if m[c.val] then lane x c else 0 := by
  simp only [lane, Positions.getElem_pos, getElem_mask]
  split <;> simp

/-- Below `2^63` the signed comparison is the unsigned one. -/
theorem cmpgt_eq (hx : lane x c < 2 ^ 63) (hy : lane y c < 2 ^ 63) :
    (mm512CmpgtEpi64Mask x y)[c.val] = decide (lane y c < lane x c) := by
  simp only [lane, Positions.getElem_pos] at hx hy ⊢
  rw [getElem_cmpgt, BitVec.slt_eq_decide, BitVec.toInt_eq_toNat_of_lt (by omega),
    BitVec.toInt_eq_toNat_of_lt (by omega)]
  exact decide_eq_decide.mpr Int.ofNat_lt

theorem cmpeq_eq : (mm512CmpeqEpi64Mask x y)[c.val] = decide (lane x c = lane y c) := by
  simp only [lane, Positions.getElem_pos, getElem_cmpeq, BitVec.toNat_inj, beq_eq_decide]

/-- The masked subtraction: `y` is taken off the lanes above it. -/
theorem lane_sub_mask_gt (hx : lane x c < 2 ^ 63) (hy : lane y c < 2 ^ 63) :
    lane (mm512SubEpi64 x (mm512Mask y (mm512CmpgtEpi64Mask x y))) c =
      if lane y c < lane x c then lane x c - lane y c else lane x c := by
  have hm := lane_mask (x := y) (c := c) (mm512CmpgtEpi64Mask x y)
  rw [cmpgt_eq hx hy] at hm
  by_cases h : lane y c < lane x c
  · simp only [h, decide_true, if_true] at hm ⊢
    rw [lane_sub (by omega), hm]
  · simp only [h, decide_false, Bool.false_eq_true, if_false] at hm ⊢
    rw [lane_sub (by omega), hm, Nat.sub_zero]

/-! ## Signed lanes -/

theorem slane_eq_lane (h : lane x c < 2 ^ 63) : slane x c = lane x c :=
  BitVec.toInt_eq_toNat_of_lt (by rw [lane] at h; omega)

theorem lane_eq_slane (h : 0 ≤ slane x c) : (lane x c : ℤ) = slane x c := by
  simp only [lane, slane, Positions.getElem_pos] at h ⊢
  have := x[c.val].isLt
  rw [BitVec.toInt_eq_toNat_cond] at h ⊢
  split at h <;> split <;> omega

theorem slane_add (h1 : -2 ^ 63 ≤ slane x c + slane y c) (h2 : slane x c + slane y c < 2 ^ 63) :
    slane (mm512AddEpi64 x y) c = slane x c + slane y c := by
  simp only [slane, Positions.getElem_pos] at h1 h2 ⊢
  rw [getElem_add, BitVec.toInt_add]
  exact Int.bmod_eq_of_le (by omega) (by omega)

theorem slane_sub (h1 : -2 ^ 63 ≤ slane x c - slane y c) (h2 : slane x c - slane y c < 2 ^ 63) :
    slane (mm512SubEpi64 x y) c = slane x c - slane y c := by
  simp only [slane, Positions.getElem_pos] at h1 h2 ⊢
  rw [getElem_sub, BitVec.toInt_sub]
  exact Int.bmod_eq_of_le (by omega) (by omega)

/-- The arithmetic shift is the division rounding down. -/
theorem slane_srai (k : ℕ) : slane (mm512SraiEpi64 k x) c = slane x c / 2 ^ k := by
  simp only [slane, Positions.getElem_pos, getElem_srai, BitVec.toInt_sshiftRight,
    Int.shiftRight_eq_div_pow]
  norm_cast

theorem slane_slli {k : ℕ} (h1 : -2 ^ 63 ≤ slane x c * 2 ^ k) (h2 : slane x c * 2 ^ k < 2 ^ 63) :
    slane (mm512SlliEpi64 k x) c = slane x c * 2 ^ k := by
  simp only [slane, Positions.getElem_pos] at h1 h2 ⊢
  rw [getElem_slli, BitVec.toInt_shiftLeft, Nat.shiftLeft_eq]
  rw [BitVec.toInt_eq_toNat_bmod] at h1 h2 ⊢
  rw [Nat.cast_mul, Nat.cast_pow, Nat.cast_ofNat, ← Int.bmod_mul_bmod]
  exact Int.bmod_eq_of_le (by omega) (by omega)

theorem slane_mask (m : M512Mask) : slane (mm512Mask x m) c = if m[c.val] then slane x c else 0 := by
  simp only [slane, Positions.getElem_pos, getElem_mask]
  split <;> simp

theorem cmpgt_slane : (mm512CmpgtEpi64Mask x y)[c.val] = decide (slane y c < slane x c) := by
  rw [getElem_cmpgt, BitVec.slt_eq_decide]
  rfl

end Dnspir.Avx
