/-
The gadget decomposition of `partial_gal`, with the ranges of its lanes.

`Checked.decomposeEntry` is `decompose_entry` on checked registers: unsigned
ones up to the comparisons, signed ones after them. `decomposeEntry_exact`
says that it succeeds on every coefficient, that its two digits recompose the
centred representative, and that representatives of both are stored in both
residue rings.
-/
import Dnspir.DigitFacts
import Dnspir.SimdZnRange

namespace Dnspir

open SpecialZnx8 PIRDatabase Avx

/-! ## Checked registers with a sign -/

namespace Avx.Checked

def mm512AddEpi64Signed (lhs rhs : M512i) : Option M512i :=
  if ∀ c, -2 ^ 63 ≤ slane lhs c + slane rhs c ∧ slane lhs c + slane rhs c < 2 ^ 63 then
    some (Avx.mm512AddEpi64 lhs rhs) else none

def mm512SubEpi64Signed (lhs rhs : M512i) : Option M512i :=
  if ∀ c, -2 ^ 63 ≤ slane lhs c - slane rhs c ∧ slane lhs c - slane rhs c < 2 ^ 63 then
    some (Avx.mm512SubEpi64 lhs rhs) else none

def mm512SlliEpi64Signed (k : ℕ) (x : M512i) : Option M512i :=
  if ∀ c, -2 ^ 63 ≤ slane x c * 2 ^ k ∧ slane x c * 2 ^ k < 2 ^ 63 then some (Avx.mm512SlliEpi64 k x)
  else none

end Avx.Checked

namespace PIRDatabase.Checked

def shortestLift (x y : M512i) : Option M512i := do
  let avxQ := mm512Set1Epi64 (BitVec.ofNat 64 fixedQ)
  let avxQHalf := mm512Set1Epi64 (BitVec.ofNat 64 (fixedQ / 2))
  let shortestLift ← Avx.Checked.mm512AddEpi64 (← Avx.Checked.mm512MulEpu32 x rnsBase1.modulusx8)
    (← Avx.Checked.mm512MulEpu32 y rnsBase0.modulusx8)
  let greaterThanQ ← Avx.Checked.mm512CmpgtEpi64Mask shortestLift avxQ
  let shortestLift ← Avx.Checked.mm512SubEpi64Signed shortestLift (mm512Mask avxQ greaterThanQ)
  let greaterThanQHalf ← Avx.Checked.mm512CmpgtEpi64Mask shortestLift avxQHalf
  Avx.Checked.mm512SubEpi64Signed shortestLift (mm512Mask avxQ greaterThanQHalf)

def splitDigit (current : M512i) : Option (M512i × M512i) := do
  let avxBHalf := mm512Set1Epi64 (BitVec.ofNat 64 (2 ^ log2B / 2))
  let high := mm512SraiEpi64 log2B (← Avx.Checked.mm512AddEpi64Signed current avxBHalf)
  return (high, ← Avx.Checked.mm512SubEpi64Signed current
    (← Avx.Checked.mm512SlliEpi64Signed log2B high))

def embedDigit (low : M512i) : Option (M512i × M512i) := do
  return (← SpecialZnx8.Checked.reduceAfterMul rnsBase0
    (← Avx.Checked.mm512AddEpi64Signed low (digitOffset rnsBase0)),
    ← SpecialZnx8.Checked.reduceAfterMul rnsBase1
    (← Avx.Checked.mm512AddEpi64Signed low (digitOffset rnsBase1)))

def decomposeEntry (invQ2ModQ1 invQ1ModQ2 : M512i) (x y : M512i) :
    Option ((M512i × M512i) × (M512i × M512i)) := do
  let entry0 ← SpecialZnx8.Checked.simdSmallestPositiveLift rnsBase0
    (← SpecialZnx8.Checked.mul rnsBase0 x invQ2ModQ1)
  let entry1 ← SpecialZnx8.Checked.simdSmallestPositiveLift rnsBase1
    (← SpecialZnx8.Checked.mul rnsBase1 y invQ1ModQ2)
  let current ← shortestLift entry0 entry1
  let (high, low0) ← splitDigit current
  let (_, low1) ← splitDigit high
  return (← embedDigit low0, ← embedDigit low1)

end PIRDatabase.Checked

/-! ## The ranges -/

variable {x y : M512i}

theorem checked_addSigned (h : ∀ c, -2 ^ 63 ≤ slane x c + slane y c ∧ slane x c + slane y c < 2 ^ 63) :
    Avx.Checked.mm512AddEpi64Signed x y = some (mm512AddEpi64 x y) := if_pos h

theorem checked_subSigned (h : ∀ c, -2 ^ 63 ≤ slane x c - slane y c ∧ slane x c - slane y c < 2 ^ 63) :
    Avx.Checked.mm512SubEpi64Signed x y = some (mm512SubEpi64 x y) := if_pos h

theorem checked_cmpgt (hx : ∀ c, lane x c < 2 ^ 63) (hy : ∀ c, lane y c < 2 ^ 63) :
    Avx.Checked.mm512CmpgtEpi64Mask x y = some (mm512CmpgtEpi64Mask x y) := if_pos fun c => ⟨hx c, hy c⟩

theorem slane_mask_bounds {m : M512i} {b : ℤ} {c : Fin 8} (hm : slane m c = b) (hb : 0 ≤ b)
    (mask : M512Mask) :
    0 ≤ slane (mm512Mask m mask) c ∧ slane (mm512Mask m mask) c ≤ b := by
  rw [slane_mask]
  split <;> omega

/-- A lane with a small nonnegative signed value is that value. -/
theorem lane_lt_of_slane {c : Fin 8} (h0 : 0 ≤ slane x c) : lane x c < 2 ^ 63 := by
  have := lane_eq_slane h0
  have h63 : slane x c < 2 ^ 63 := BitVec.toInt_lt
  omega

theorem checked_shortestLift (hx : ∀ c, lane x c < rnsBase0.modulus)
    (hy : ∀ c, lane y c < rnsBase1.modulus) :
    PIRDatabase.Checked.shortestLift x y = some (shortestLift x y) := by
  have hp0 := modulus0_val
  have hp1 := modulus1_val
  have hval := fixedQ_val
  have hq : ∀ c, slane (mm512Set1Epi64 (BitVec.ofNat 64 fixedQ)) c = fixedQ :=
    fun c => slane_set1_nat (by omega)
  have hql : ∀ c, lane (mm512Set1Epi64 (BitVec.ofNat 64 fixedQ)) c < 2 ^ 63 := fun c => by
    rw [lane_set1 (by omega)]
    omega
  have hhl : ∀ c, lane (mm512Set1Epi64 (BitVec.ofNat 64 (fixedQ / 2))) c < 2 ^ 63 := fun c => by
    rw [lane_set1 (by omega)]
    omega
  have hb0 : ∀ c, lane x c * rnsBase1.modulus < fixedQ := fun c => by
    rw [fixedQ_eq]
    exact Nat.mul_lt_mul_of_pos_right (hx c) (by omega)
  have hb1 : ∀ c, lane y c * rnsBase0.modulus < fixedQ := fun c => by
    rw [fixedQ_eq, mul_comm rnsBase0.modulus]
    exact Nat.mul_lt_mul_of_pos_right (hy c) (by omega)
  have hm0 : ∀ c, lane x c < 2 ^ 32 ∧ lane rnsBase1.modulusx8 c < 2 ^ 32 ∧
      lane x c * lane rnsBase1.modulusx8 c ≤ 2 ^ 63 := fun c => by
    have := hx c
    have := hb0 c
    rw [lane_modulusx8]
    exact ⟨by omega, by omega, by omega⟩
  have hm1 : ∀ c, lane y c < 2 ^ 32 ∧ lane rnsBase0.modulusx8 c < 2 ^ 32 ∧
      lane y c * lane rnsBase0.modulusx8 c ≤ 2 ^ 63 := fun c => by
    have := hy c
    have := hb1 c
    rw [lane_modulusx8]
    exact ⟨by omega, by omega, by omega⟩
  have hl0 : ∀ c, lane (mm512MulEpu32 x rnsBase1.modulusx8) c < fixedQ := fun c => by
    rw [lane_mulEpu32 (hm0 c).1 (hm0 c).2.1, lane_modulusx8]
    exact hb0 c
  have hl1 : ∀ c, lane (mm512MulEpu32 y rnsBase0.modulusx8) c < fixedQ := fun c => by
    rw [lane_mulEpu32 (hm1 c).1 (hm1 c).2.1, lane_modulusx8]
    exact hb1 c
  simp only [PIRDatabase.Checked.shortestLift, SpecialZnx8.Checked.mul_some hm0,
    SpecialZnx8.Checked.mul_some hm1, Option.bind_eq_bind, Option.bind_some, shortestLift]
  rw [SpecialZnx8.Checked.add_some fun c => by have := hl0 c; have := hl1 c; omega, Option.bind_some]
  set reg := mm512AddEpi64 (mm512MulEpu32 x rnsBase1.modulusx8) (mm512MulEpu32 y rnsBase0.modulusx8)
  have hreg : ∀ c, lane reg c < 2 * fixedQ := fun c => by
    have := hl0 c
    have := hl1 c
    rw [lane_add (by omega)]
    omega
  have hsreg : ∀ c, 0 ≤ slane reg c ∧ slane reg c < 2 * fixedQ := fun c => by
    have := hreg c
    rw [slane_eq_lane (by omega)]
    omega
  rw [checked_cmpgt (fun c => by have := hreg c; omega) hql, Option.bind_some,
    checked_subSigned fun c => by
      have := hsreg c
      have := slane_mask_bounds (hq c) (by omega)
        (mm512CmpgtEpi64Mask reg (mm512Set1Epi64 (BitVec.ofNat 64 fixedQ)))
      omega, Option.bind_some]
  -- The first conditional subtraction leaves a number in `[0, q]`.
  have h1 := fun c => slane_sub_mask_gt (x := reg) (c := c)
    (b := mm512Set1Epi64 (BitVec.ofNat 64 fixedQ))
    (m := mm512Set1Epi64 (BitVec.ofNat 64 fixedQ)) (by have := hsreg c; omega)
      (by have := hsreg c; omega)
    (by rw [hq]; omega) (by rw [hq]; omega)
  set reg' := mm512SubEpi64 reg (mm512Mask (mm512Set1Epi64 (BitVec.ofNat 64 fixedQ))
    (mm512CmpgtEpi64Mask reg (mm512Set1Epi64 (BitVec.ofNat 64 fixedQ))))
  have hreg' : ∀ c, 0 ≤ slane reg' c ∧ slane reg' c ≤ fixedQ := fun c => by
    have := hsreg c
    rw [h1, hq]
    split <;> omega
  rw [checked_cmpgt (fun c => lane_lt_of_slane (hreg' c).1) hhl, Option.bind_some]
  exact checked_subSigned fun c => by
    have := hreg' c
    have := slane_mask_bounds (hq c) (by omega)
      (mm512CmpgtEpi64Mask reg' (mm512Set1Epi64 (BitVec.ofNat 64 (fixedQ / 2))))
    omega

/-- One round of the decomposition stays far inside 64 bits. -/
theorem checked_splitDigit (hx : ∀ c, -2 ^ 51 ≤ slane x c ∧ slane x c ≤ 2 ^ 51) :
    PIRDatabase.Checked.splitDigit x = some (splitDigit x) := by
  have hB : ∀ c, slane (mm512Set1Epi64 (BitVec.ofNat 64 (2 ^ log2B / 2))) c = 2 ^ 25 := fun c =>
    slane_set1_nat (a := 2 ^ log2B / 2) (by decide)
  have hsplit := fun c => slane_splitDigit (hx c).1 (hx c).2 rfl
  have hhigh : ∀ c, slane (mm512SraiEpi64 log2B
      (mm512AddEpi64 x (mm512Set1Epi64 (BitVec.ofNat 64 (2 ^ log2B / 2))))) c =
      highPart (slane x c) := fun c => (hsplit c).1
  have hshift : ∀ c, highPart (slane x c) * 2 ^ 26 = slane x c - lowPart (slane x c) := fun c => by
    simp only [lowPart]; ring
  have hlow := fun c => lowPart_bounds (slane x c)
  have hslli : ∀ c, -2 ^ 63 ≤ slane (mm512SraiEpi64 log2B
      (mm512AddEpi64 x (mm512Set1Epi64 (BitVec.ofNat 64 (2 ^ log2B / 2))))) c * 2 ^ log2B ∧
      slane (mm512SraiEpi64 log2B
        (mm512AddEpi64 x (mm512Set1Epi64 (BitVec.ofNat 64 (2 ^ log2B / 2))))) c *
        2 ^ log2B < 2 ^ 63 := fun c => by
    have := hx c
    have := hlow c
    have := hshift c
    rw [hhigh, log2B]
    omega
  simp only [PIRDatabase.Checked.splitDigit, splitDigit, Option.bind_eq_bind]
  rw [checked_addSigned fun c => by have := hx c; rw [hB]; omega, Option.bind_some,
    show Avx.Checked.mm512SlliEpi64Signed log2B _ = some _ from if_pos hslli, Option.bind_some,
    checked_subSigned fun c => by
      have := hx c
      have := hlow c
      have := hshift c
      rw [slane_slli (hslli c).1 (hslli c).2, hhigh, log2B]
      omega]
  rfl

/-- The offset makes a digit a number `reduce_after_mul` takes. -/
theorem checked_embed {K : ℕ} {Z : SpecialZnx8 K} (h : (fixedQ >>> log2B) / Z.modulus = 0)
    (hp : 2 ^ 24 ≤ Z.modulus) (hx : ∀ c, -2 ^ 25 ≤ slane x c ∧ slane x c < 2 ^ 25) :
    (do SpecialZnx8.Checked.reduceAfterMul Z (← Avx.Checked.mm512AddEpi64Signed x (digitOffset Z))) =
      some (Z.simdFromPSqr (mm512AddEpi64 x (digitOffset Z))) := by
  have hp' := Z.modulus_le
  have ho := fun c => slane_digitOffset h (c := c)
  have hfit : ∀ c, -2 ^ 63 ≤ slane x c + slane (digitOffset Z) c ∧
      slane x c + slane (digitOffset Z) c < 2 ^ 63 := fun c => by
    have := hx c
    rw [ho]
    omega
  rw [checked_addSigned hfit]
  refine SpecialZnx8.Checked.reduceAfterMul_eq fun c => SpecialZnx8.Checked.mulRange_of_le ?_
  have hs : slane (mm512AddEpi64 x (digitOffset Z)) c = slane x c + 2 * Z.modulus := by
    rw [slane_add (hfit c).1 (hfit c).2, ho]
  have hb := hx c
  have hl := lane_eq_slane (x := mm512AddEpi64 x (digitOffset Z)) (c := c) (by omega)
  have : 4 * Z.modulus ≤ 2 * Z.modulus * (Z.modulus + 1) := by nlinarith
  omega

theorem checked_embedDigit (hx : ∀ c, -2 ^ 25 ≤ slane x c ∧ slane x c < 2 ^ 25) :
    PIRDatabase.Checked.embedDigit x = some (embedDigit x) := by
  have h0 := checked_embed (Z := rnsBase0) (by decide) (by decide) hx
  have h1 := checked_embed (Z := rnsBase1) (by decide) (by decide) hx
  simp only [Option.bind_eq_bind] at h0 h1
  simp only [PIRDatabase.Checked.embedDigit, Option.bind_eq_bind]
  rw [← Option.bind_assoc, h0, Option.bind_some, ← Option.bind_assoc, h1]
  rfl

/-! ## The decomposition -/

/-- **Gadget decomposition is exact and small.** The registers hold the two
digits of the centred representative, and no lane on the way wraps. -/
theorem decomposeEntry_exact : ∃ (i0 : rnsBase0.ComponentRing) (i1 : rnsBase1.ComponentRing),
    Zn.invert (rnsBase1.modulus : rnsBase0.ComponentRing) = some i0 ∧
    Zn.invert (rnsBase0.modulus : rnsBase1.ComponentRing) = some i1 ∧
    ∀ (a : Fin 8 → ZMod fixedQ) (x y : M512i), rnsBase0.Rep x (fun c => red0 (a c)) →
      rnsBase1.Rep y (fun c => red1 (a c)) →
        ∃ (low high : Fin 8 → ℤ) (d : (M512i × M512i) × (M512i × M512i)),
        (∀ c, low c + 2 ^ 26 * high c = (a c).valMinAbs ∧ -2 ^ 25 ≤ low c ∧ low c < 2 ^ 25 ∧
          |high c| < 2 ^ 25) ∧
        decomposeEntry (rnsBase0.fromComponents fun _ => i0)
          (rnsBase1.fromComponents fun _ => i1) x y = d ∧
        PIRDatabase.Checked.decomposeEntry (rnsBase0.fromComponents fun _ => i0)
          (rnsBase1.fromComponents fun _ => i1)
          x y = some d ∧
        rnsBase0.Rep d.1.1 (fun c => low c) ∧ rnsBase1.Rep d.1.2 (fun c => low c) ∧
        rnsBase0.Rep d.2.1 (fun c => high c) ∧ rnsBase1.Rep d.2.2 fun c => high c := by
  obtain ⟨i0, i1, ei0, ei1, h0, h1⟩ := exists_factor_inv
  refine ⟨i0, i1, ei0, ei1,
    fun a x y hx hy => ⟨fun c => lowPart (a c).valMinAbs, fun c => highPart (a c).valMinAbs, _,
    fun c => ⟨?_, (lowPart_bounds _).1, (lowPart_bounds _).2, ?_⟩, rfl, ?_, ?_⟩⟩
  · simp only [lowPart]; ring
  · have hq := fixedQ_val
    have hm := (a c).valMinAbs_mem_Ioc
    rw [Set.mem_Ioc] at hm
    rw [abs_lt]
    simp only [highPart]
    omega
  · have hd := slane_digits h0 h1 hx hy
    have hb := fun c => valMinAbs_bounds (a c)
    have hh := fun c => highPart_bounds (a c)
    have hm0 := hx.mul (Rep.fromComponents fun _ => i0)
    have hm1 := hy.mul (Rep.fromComponents fun _ => i1)
    simp only [PIRDatabase.Checked.decomposeEntry,
      SpecialZnx8.Checked.mul_eq hx (Rep.fromComponents fun _ => i0), SpecialZnx8.Checked.mul_eq hy
      (Rep.fromComponents fun _ => i1), SpecialZnx8.Checked.simdSmallestPositiveLift_eq hm0,
      SpecialZnx8.Checked.simdSmallestPositiveLift_eq hm1, Option.bind_eq_bind, Option.bind_some]
    rw [checked_shortestLift (fun c => lane_simdSmallestPositiveLift hm0 c ▸ ZMod.val_lt _)
      (fun c => lane_simdSmallestPositiveLift hm1 c ▸ ZMod.val_lt _), Option.bind_some]
    change (PIRDatabase.Checked.splitDigit (liftedEntry i0 i1 x y)).bind _ = _
    rw [checked_splitDigit fun c => by rw [(hd c).1]; have := hb c; omega, Option.bind_some,
      checked_splitDigit fun c => by rw [(hd c).2.1]; have := hh c; omega, Option.bind_some,
      checked_embedDigit fun c => by rw [(hd c).2.2.1]; exact lowPart_bounds _, Option.bind_some,
      checked_embedDigit fun c => by rw [(hd c).2.2.2]; exact hh c]
    rfl
  · obtain ⟨⟨hd00, hd01⟩, hd10, hd11⟩ := decomposeEntry_spec h0 h1 hx hy
    exact ⟨hd00.congr (funext fun c => (red_digit_zero (a c)).1),
      hd01.congr (funext fun c => (red_digit_zero (a c)).2),
      hd10.congr (funext fun c => (red_digit_one (a c)).1),
      hd11.congr (funext fun c => (red_digit_one (a c)).2)⟩

/-- The coefficient `q / 2`, in every lane. -/
theorem decomposeEntry_exact_half : ∃ (low high : Fin 8 → ℤ) (d : (M512i × M512i) × (M512i × M512i)),
    (∀ c, low c + 2 ^ 26 * high c = ((fixedQ / 2 : ℕ) : ZMod fixedQ).valMinAbs ∧
      -2 ^ 25 ≤ low c ∧ low c < 2 ^ 25 ∧ |high c| < 2 ^ 25) ∧
    rnsBase0.Rep d.1.1 (fun c => low c) ∧ rnsBase1.Rep d.2.2 fun c => high c := by
  obtain ⟨i0, i1, -, -, h⟩ := decomposeEntry_exact
  obtain ⟨low, high, d, hsum, -, -, h0, -, -, h1⟩ := h (fun _ => ((fixedQ / 2 : ℕ) : ZMod fixedQ)) _ _
    (Rep.fromComponents _) (Rep.fromComponents _)
  exact ⟨low, high, d, hsum, h0, h1⟩

end Dnspir
