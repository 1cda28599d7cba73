/-
The gadget decomposition of `partial_gal` on one coefficient.

`digit 0 a` and `digit 1 a` are the two balanced digits of the centred
representative of `a`: they recompose `a` exactly (`digit_sum`), and
`decomposeEntry_spec` says that the register code computes representatives
of both in both residue rings. The lanes are signed here, so the middle of
the file is about `slane`.
-/
import Dnspir.RnsFacts

namespace Dnspir

open SpecialZnx8 PIRDatabase Avx

theorem modulus0_val : rnsBase0.modulus = 67104769 := by decide

theorem modulus1_val : rnsBase1.modulus = 33550337 := by decide

theorem fixedQ_val : fixedQ = 2251387614257153 := by decide

/-! ## Balanced digits -/

/-- What is left of `s` above the lowest digit. -/
def highPart (s : ℤ) : ℤ := (s + 2 ^ 25) / 2 ^ 26

/-- The lowest digit of `s`, in `[-2^25, 2^25)`. -/
def lowPart (s : ℤ) : ℤ := s - highPart s * 2 ^ 26

/-- Digit `k` of the centred representative of `a`. -/
def digit (k : Fin 2) (a : ZMod fixedQ) : ZMod fixedQ :=
  if k = 0 then lowPart a.valMinAbs else lowPart (highPart a.valMinAbs)

theorem lowPart_bounds (s : ℤ) : -2 ^ 25 ≤ lowPart s ∧ lowPart s < 2 ^ 25 := by
  simp only [lowPart, highPart]
  omega

theorem valMinAbs_bounds (a : ZMod fixedQ) : -2 ^ 50 < a.valMinAbs ∧ a.valMinAbs < 2 ^ 50 := by
  have h := a.valMinAbs_mem_Ioc
  have hq := fixedQ_val
  rw [Set.mem_Ioc] at h
  omega

/-- Nothing is left above the second digit. -/
theorem lowPart_highPart (a : ZMod fixedQ) : lowPart (highPart a.valMinAbs) = highPart a.valMinAbs := by
  have h := valMinAbs_bounds a
  simp only [lowPart, highPart]
  omega

/-- **The digits recompose the coefficient.** -/
theorem digit_sum (a : ZMod fixedQ) : digit 0 a + 2 ^ 26 * digit 1 a = a := by
  have h : lowPart a.valMinAbs + 2 ^ 26 * highPart a.valMinAbs = a.valMinAbs := by
    simp only [lowPart]; ring
  have hc := congrArg (fun z : ℤ => (z : ZMod fixedQ)) h
  simp only [Int.cast_add, Int.cast_mul, Int.cast_pow, Int.cast_ofNat, ZMod.coe_valMinAbs] at hc
  simp only [digit, if_true, one_ne_zero, if_false, lowPart_highPart]
  exact hc

/-! ## The registers -/

variable {x y : M512i} {c : Fin 8}

theorem slane_set1_nat {a : ℕ} (h : a < 2 ^ 63) : slane (mm512Set1Epi64 (BitVec.ofNat 64 a)) c = a := by
  have hl : lane (mm512Set1Epi64 (BitVec.ofNat 64 a)) c = a := lane_set1 (by omega)
  rw [slane_eq_lane (by omega), hl]

/-- Where `x > b`, subtract `m`. -/
theorem slane_sub_mask_gt {b m : M512i} (h1 : -2 ^ 62 ≤ slane x c) (h2 : slane x c < 2 ^ 62)
    (h3 : 0 ≤ slane m c) (h4 : slane m c < 2 ^ 62) :
    slane (mm512SubEpi64 x (mm512Mask m (mm512CmpgtEpi64Mask x b))) c =
      if slane b c < slane x c then slane x c - slane m c else slane x c := by
  have hm := slane_mask (x := m) (c := c) (mm512CmpgtEpi64Mask x b)
  rw [cmpgt_slane] at hm
  by_cases h : slane b c < slane x c
  · simp only [h, decide_true, if_true] at hm ⊢
    rw [slane_sub (by omega) (by omega), hm]
  · simp only [h, decide_false, Bool.false_eq_true, if_false] at hm ⊢
    rw [slane_sub (by omega) (by omega), hm, sub_zero]

/-- A number in `[0, q]` moved to the centred interval is the centred lift. -/
theorem centred_eq_valMinAbs {a : ZMod fixedQ} {w : ℤ} (h0 : 0 ≤ w) (hq : w ≤ fixedQ)
    (ha : (w : ZMod fixedQ) = a) :
    (if (fixedQ / 2 : ℕ) < w then w - fixedQ else w) = a.valMinAbs := by
  have hval := fixedQ_val
  symm
  rw [ZMod.valMinAbs_spec, Set.mem_Ioc]
  split
  · exact ⟨by rw [Int.cast_sub, Int.cast_natCast, ZMod.natCast_self, sub_zero, ha], by omega, by omega⟩
  · exact ⟨ha.symm, by omega, by omega⟩

/-- The lifted residues, combined by the Chinese remainder theorem, give the
centred lift. -/
theorem slane_shortestLift {a : ZMod fixedQ} {i0 : rnsBase0.ComponentRing} {i1 : rnsBase1.ComponentRing}
    (h0 : (rnsBase1.modulus : rnsBase0.ComponentRing) * i0 = 1)
    (h1 : (rnsBase0.modulus : rnsBase1.ComponentRing) * i1 = 1)
    (hx : lane x c = (red0 a * i0).val) (hy : lane y c = (red1 a * i1).val) :
    slane (shortestLift x y) c = a.valMinAbs := by
  have hp0 := modulus0_val
  have hp1 := modulus1_val
  have hval := fixedQ_val
  have hxb := ZMod.val_lt (red0 a * i0)
  have hyb := ZMod.val_lt (red1 a * i1)
  have hq : slane (mm512Set1Epi64 (BitVec.ofNat 64 fixedQ)) c = fixedQ := slane_set1_nat (by omega)
  have hh : slane (mm512Set1Epi64 (BitVec.ofNat 64 (fixedQ / 2))) c = (fixedQ / 2 : ℕ) :=
    slane_set1_nat (by omega)
  set u := (red0 a * i0).val
  set v := (red1 a * i1).val
  have hl0 : lane (mm512MulEpu32 x rnsBase1.modulusx8) c = u * rnsBase1.modulus := by
    rw [lane_mulEpu32 (by omega) (by rw [lane_modulusx8]; omega), hx, lane_modulusx8]
  have hl1 : lane (mm512MulEpu32 y rnsBase0.modulusx8) c = v * rnsBase0.modulus := by
    rw [lane_mulEpu32 (by omega) (by rw [lane_modulusx8]; omega), hy, lane_modulusx8]
  have hu : u * rnsBase1.modulus < fixedQ := by
    rw [fixedQ_eq]; exact Nat.mul_lt_mul_of_pos_right hxb (by omega)
  have hv : v * rnsBase0.modulus < fixedQ := by
    rw [fixedQ_eq, mul_comm rnsBase0.modulus]; exact Nat.mul_lt_mul_of_pos_right hyb (by omega)
  have hls : lane (mm512AddEpi64 (mm512MulEpu32 x rnsBase1.modulusx8)
      (mm512MulEpu32 y rnsBase0.modulusx8)) c =
      u * rnsBase1.modulus + v * rnsBase0.modulus := by
    rw [lane_add (by omega), hl0, hl1]
  have hss : slane (mm512AddEpi64 (mm512MulEpu32 x rnsBase1.modulusx8)
      (mm512MulEpu32 y rnsBase0.modulusx8)) c =
      (u * rnsBase1.modulus + v * rnsBase0.modulus : ℕ) := by
    rw [slane_eq_lane (by omega), hls]
  -- The sum is congruent to `a`, by its residues.
  have hcast : ((u * rnsBase1.modulus + v * rnsBase0.modulus : ℕ) : ZMod fixedQ) = a := by
    refine red_injective ?_ ?_
    · rw [map_natCast, Nat.cast_add, Nat.cast_mul, Nat.cast_mul, ZMod.natCast_self, mul_zero, add_zero,
        ZMod.natCast_zmod_val, mul_assoc, mul_comm i0, h0, mul_one]
    · rw [map_natCast, Nat.cast_add, Nat.cast_mul, Nat.cast_mul, ZMod.natCast_self, mul_zero, zero_add,
        ZMod.natCast_zmod_val, mul_assoc, mul_comm i1, h1, mul_one]
  simp only [shortestLift]
  set w := u * rnsBase1.modulus + v * rnsBase0.modulus
  set reg := mm512AddEpi64 (mm512MulEpu32 x rnsBase1.modulusx8) (mm512MulEpu32 y rnsBase0.modulusx8)
  have hw : w < 2 * fixedQ := by omega
  have h1' := slane_sub_mask_gt (x := reg) (c := c) (b := mm512Set1Epi64 (BitVec.ofNat 64 fixedQ))
    (m := mm512Set1Epi64 (BitVec.ofNat 64 fixedQ)) (by omega) (by omega) (by omega) (by omega)
  rw [hss, hq] at h1'
  set reg' := mm512SubEpi64 reg (mm512Mask (mm512Set1Epi64 (BitVec.ofNat 64 fixedQ))
    (mm512CmpgtEpi64Mask reg (mm512Set1Epi64 (BitVec.ofNat 64 fixedQ))))
  have hb : 0 ≤ slane reg' c ∧ slane reg' c ≤ fixedQ ∧ ((slane reg' c : ℤ) : ZMod fixedQ) = a := by
    rw [h1']
    split
    · refine ⟨by omega, by omega, ?_⟩
      rw [Int.cast_sub, Int.cast_natCast, Int.cast_natCast, ZMod.natCast_self, sub_zero, hcast]
    · exact ⟨by omega, by omega, by rw [Int.cast_natCast, hcast]⟩
  have hlo : -2 ^ 62 ≤ slane reg' c := le_trans (by norm_num) hb.1
  have hhi : slane reg' c < 2 ^ 62 := lt_of_le_of_lt hb.2.1 (by rw [hval]; norm_num)
  rw [slane_sub_mask_gt hlo hhi (by rw [hq]; omega) (by rw [hq]; omega), hq, hh]
  exact centred_eq_valMinAbs hb.1 hb.2.1 hb.2.2

/-- One round of the decomposition: the high part and the low digit. -/
theorem slane_splitDigit {s : ℤ} (h1 : -2 ^ 51 ≤ s) (h2 : s ≤ 2 ^ 51) (hx : slane x c = s) :
    slane (splitDigit x).1 c = highPart s ∧ slane (splitDigit x).2 c = lowPart s := by
  have hB : slane (mm512Set1Epi64 (BitVec.ofNat 64 (2 ^ log2B / 2))) c = 2 ^ 25 :=
    slane_set1_nat (a := 2 ^ log2B / 2) (by decide)
  have hhigh : slane (splitDigit x).1 c = highPart s := by
    simp only [splitDigit]
    rw [slane_srai, slane_add (by omega) (by omega), hB, hx]
    rfl
  refine ⟨hhigh, ?_⟩
  have hl := lowPart_bounds s
  have hlow : highPart s * 2 ^ 26 = s - lowPart s := by simp only [lowPart]; ring
  have hs : slane (mm512SlliEpi64 log2B (splitDigit x).1) c = highPart s * 2 ^ 26 := by
    rw [slane_slli] <;> rw [hhigh, log2B] <;> omega
  show slane (mm512SubEpi64 x (mm512SlliEpi64 log2B (splitDigit x).1)) c = lowPart s
  rw [slane_sub (by omega) (by omega), hs, hx]
  rfl

theorem slane_digitOffset {K : ℕ} {Z : SpecialZnx8 K} (h : (fixedQ >>> log2B) / Z.modulus = 0) :
    slane (digitOffset Z) c = 2 * Z.modulus := by
  have hp := Z.modulus_le
  rw [digitOffset, h, Nat.zero_add, slane_set1_nat (by omega)]
  push_cast
  rfl

/-- A digit, offset by a multiple of the modulus, is a representative of
itself after the reduction. -/
theorem rep_embedDigit {K : ℕ} {Z : SpecialZnx8 K} (h : (fixedQ >>> log2B) / Z.modulus = 0)
    (hp : 2 ^ 24 ≤ Z.modulus) {low : Fin 8 → ℤ} (hx : ∀ c, slane x c = low c)
    (hl : ∀ c, -2 ^ 25 ≤ low c ∧ low c < 2 ^ 25) :
    Z.Rep (Z.simdFromPSqr (mm512AddEpi64 x (digitOffset Z))) fun c => low c := by
  have hp' := Z.modulus_le
  have hlane : ∀ c, (lane (mm512AddEpi64 x (digitOffset Z)) c : ℤ) = low c + 2 * Z.modulus := by
    intro c
    have hb := hl c
    have ho := slane_digitOffset h (c := c)
    have hs : slane (mm512AddEpi64 x (digitOffset Z)) c = low c + 2 * Z.modulus := by
      rw [slane_add] <;> rw [hx, ho] <;> omega
    rw [lane_eq_slane (by omega), hs]
  refine (Rep.simdFromPSqr fun c => ?_).congr (funext fun c => ?_)
  · have hc := hlane c
    have hb := hl c
    have : 4 * Z.modulus ≤ 2 * Z.modulus * (Z.modulus + 1) := by nlinarith
    omega
  · rw [← Int.cast_natCast, hlane]
    push_cast
    rw [ZMod.natCast_self, mul_zero, add_zero]

/-- The residues of the digits. -/
theorem red_digit_zero (b : ZMod fixedQ) : red0 (digit 0 b) = lowPart b.valMinAbs ∧
    red1 (digit 0 b) = lowPart b.valMinAbs := by
  simp [digit]

theorem red_digit_one (b : ZMod fixedQ) : red0 (digit 1 b) = highPart b.valMinAbs ∧
    red1 (digit 1 b) = highPart b.valMinAbs := by
  simp [digit, lowPart_highPart]

/-- The lifted lane `decompose_entry` decomposes. -/
def liftedEntry (i0 : rnsBase0.ComponentRing) (i1 : rnsBase1.ComponentRing) (x y : M512i) : M512i :=
  shortestLift (rnsBase0.simdSmallestPositiveLift
    (rnsBase0.mul x (rnsBase0.fromComponents fun _ => i0)))
    (rnsBase1.simdSmallestPositiveLift (rnsBase1.mul y (rnsBase1.fromComponents fun _ => i1)))

/-- The signed lanes of the decomposition. -/
theorem slane_digits {a : Fin 8 → ZMod fixedQ} {i0 : rnsBase0.ComponentRing}
    {i1 : rnsBase1.ComponentRing} (h0 : (rnsBase1.modulus : rnsBase0.ComponentRing) * i0 = 1)
    (h1 : (rnsBase0.modulus : rnsBase1.ComponentRing) * i1 = 1)
    (hx : rnsBase0.Rep x fun c => red0 (a c)) (hy : rnsBase1.Rep y fun c => red1 (a c)) (c : Fin 8) :
    slane (liftedEntry i0 i1 x y) c = (a c).valMinAbs ∧
      slane (splitDigit (liftedEntry i0 i1 x y)).1 c = highPart (a c).valMinAbs ∧
      slane (splitDigit (liftedEntry i0 i1 x y)).2 c = lowPart (a c).valMinAbs ∧
      slane (splitDigit (splitDigit (liftedEntry i0 i1 x y)).1).2 c = highPart (a c).valMinAbs := by
  have hl0 := lane_simdSmallestPositiveLift (hx.mul (Rep.fromComponents fun _ => i0))
  have hl1 := lane_simdSmallestPositiveLift (hy.mul (Rep.fromComponents fun _ => i1))
  have hs : slane (liftedEntry i0 i1 x y) c = (a c).valMinAbs :=
    slane_shortestLift h0 h1 (hl0 c) (hl1 c)
  have hb := valMinAbs_bounds (a c)
  have hfst := slane_splitDigit (by omega) (by omega) hs
  have hh : -2 ^ 51 ≤ highPart (a c).valMinAbs ∧ highPart (a c).valMinAbs ≤ 2 ^ 51 := by
    simp only [highPart]; omega
  have hsnd := (slane_splitDigit hh.1 hh.2 hfst.1).2
  rw [lowPart_highPart] at hsnd
  exact ⟨hs, hfst.1, hfst.2, hsnd⟩

theorem highPart_bounds (a : ZMod fixedQ) :
    -2 ^ 25 ≤ highPart a.valMinAbs ∧ highPart a.valMinAbs < 2 ^ 25 :=
  lowPart_highPart a ▸ lowPart_bounds _

/-- **The registers of both digits**, for residues of `a` as stored in the
two rings. -/
theorem decomposeEntry_spec {a : Fin 8 → ZMod fixedQ} {i0 : rnsBase0.ComponentRing}
    {i1 : rnsBase1.ComponentRing} (h0 : (rnsBase1.modulus : rnsBase0.ComponentRing) * i0 = 1)
    (h1 : (rnsBase0.modulus : rnsBase1.ComponentRing) * i1 = 1)
    (hx : rnsBase0.Rep x fun c => red0 (a c)) (hy : rnsBase1.Rep y fun c => red1 (a c)) :
    let d := decomposeEntry (rnsBase0.fromComponents fun _ => i0)
      (rnsBase1.fromComponents fun _ => i1) x y
    (rnsBase0.Rep d.1.1 (fun c => red0 (digit 0 (a c))) ∧
      rnsBase1.Rep d.1.2 fun c => red1 (digit 0 (a c))) ∧
      rnsBase0.Rep d.2.1 (fun c => red0 (digit 1 (a c))) ∧ rnsBase1.Rep d.2.2 fun c =>
          red1 (digit 1 (a c)) := by
  have hd := slane_digits h0 h1 hx hy
  have ho0 : (fixedQ >>> log2B) / rnsBase0.modulus = 0 := by decide
  have ho1 : (fixedQ >>> log2B) / rnsBase1.modulus = 0 := by decide
  have hp0 : 2 ^ 24 ≤ rnsBase0.modulus := by decide
  have hp1 : 2 ^ 24 ≤ rnsBase1.modulus := by decide
  have hlow := fun c => (hd c).2.2.1
  have hhigh := fun c => (hd c).2.2.2
  refine ⟨⟨?_, ?_⟩, ?_, ?_⟩
  · exact (rep_embedDigit ho0 hp0 hlow fun c => lowPart_bounds _).congr
      (funext fun c => (red_digit_zero (a c)).1.symm)
  · exact (rep_embedDigit ho1 hp1 hlow fun c => lowPart_bounds _).congr
      (funext fun c => (red_digit_zero (a c)).2.symm)
  · exact (rep_embedDigit ho0 hp0 hhigh fun c => highPart_bounds _).congr
      (funext fun c => (red_digit_one (a c)).1.symm)
  · exact (rep_embedDigit ho1 hp1 hhigh fun c => highPart_bounds _).congr
      (funext fun c => (red_digit_one (a c)).2.symm)

end Dnspir
