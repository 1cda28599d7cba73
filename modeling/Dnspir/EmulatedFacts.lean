/-
The build with `emulate_avx512` computes what the AVX-512 build computes.

* `Emulated.halves` takes a register apart, and every operation of the
  emulation commutes with it; the arithmetic shift is a logical one under a
  sign mask (`ushiftRight_or_signMask`).
* `Stores.runEmulated_iff`: a straight-line program runs through in the emulation
  exactly if no shift is by more than 31, and then leaves in every register
  the two halves of what AVX-512 leaves there.
* `EngineStores.emulated_engine`: the register functions of the engine make no
  other shift, because `check_invariant` bounds the `K` of a ring; its first
  use is `decomposeEntry_emulated`, the second `mainPirLoop_emulated` of
  `EmulatedKernel`.
-/
import Dnspir.Emulated
import Dnspir.Lib.Loops

namespace Dnspir

namespace Emulated

open Avx2

/-! ## Halves -/

/-- The two halves of a register. -/
def halves (x : Dnspir.M512i) : M512i :=
  ⟨Vector.ofFn fun c : Fin 4 => x[c.val], Vector.ofFn fun c : Fin 4 => x[c.val + 4]⟩

theorem join_halves (x : Dnspir.M512i) : (halves x).join = x := by
  refine Vector.ext fun c hc => ?_
  simp only [M512i.join, halves, Vector.getElem_ofFn]
  split
  · rfl
  next h => simp [show c - 4 + 4 = c by omega]

theorem halves_join (x : M512i) : halves x.join = x := by
  obtain ⟨x0, x1⟩ := x
  simp only [halves, M512i.join, M512i.mk.injEq]
  constructor
  · refine Vector.ext fun c hc => ?_
    simp
  · refine Vector.ext fun c hc => ?_
    simp

variable {x y : Dnspir.M512i}

theorem halves_map (f : BitVec 64 → BitVec 64) :
    halves (x.map f) = ⟨(halves x).data0.map f, (halves x).data1.map f⟩ := by
  simp only [halves, M512i.mk.injEq]
  constructor <;> exact Vector.ext fun c hc => by simp

theorem halves_zipWith (f : BitVec 64 → BitVec 64 → BitVec 64) :
    halves (Vector.zipWith f x y) =
      ⟨Vector.zipWith f (halves x).data0 (halves y).data0,
        Vector.zipWith f (halves x).data1 (halves y).data1⟩ := by
  simp only [halves, M512i.mk.injEq]
  constructor <;> exact Vector.ext fun c hc => by simp

/-! ## The operations -/

/-- The bits a logical shift clears are those of the sign mask. -/
theorem ushiftRight_or_signMask {a : BitVec 64} {k : ℕ} (hk : k ≤ 31) :
    a >>> k ||| onesIf (a.slt 0) <<< (64 - k) = a.sshiftRight k := by
  refine BitVec.eq_of_getLsbD_eq fun i hi => ?_
  rw [show (0 : BitVec 64) = 0#64 from rfl, BitVec.slt_zero_eq_msb]
  simp only [onesIf, BitVec.getLsbD_or, BitVec.getLsbD_ushiftRight, BitVec.getLsbD_shiftLeft,
    BitVec.getLsbD_sshiftRight]
  by_cases h : k + i < 64
  · simp [h, hi, show i < 64 - k by omega, Nat.not_le.mpr hi]
  · have : a.getLsbD (k + i) = false := BitVec.getLsbD_of_ge _ _ (by omega)
    have hones : i - (64 - k) < 64 := by omega
    cases a.msb
    · simp [h, Nat.not_le.mpr hi, this]
    · simp only [if_true, BitVec.getLsbD_allOnes]
      simp [h, hi, Nat.not_le.mpr hi, this, hones]
      omega

theorem mm512Set1Epi64_eq (a : BitVec 64) : mm512Set1Epi64 a = halves (Avx.mm512Set1Epi64 a) := by
  simp only [mm512Set1Epi64, mm256Set1Epi64x, halves, M512i.mk.injEq]
  constructor <;> exact Vector.ext fun c hc => by simp

theorem setLanes_eq (e : Vector (BitVec 64) 8) : setLanes e = halves e := by
  simp only [setLanes, mm512SetrEpi64, halves, M512i.mk.injEq]
  constructor <;> refine Vector.ext fun c hc => ?_ <;> interval_cases c <;> rfl

theorem mm512ExtractEpi64_eq {k : ℕ} (hk : k < 8) : mm512ExtractEpi64 k (halves x) = some x[k] := by
  unfold mm512ExtractEpi64
  split
  · simp [halves]
  · simp [halves, show k - 4 + 4 = k by omega]

theorem extractLanes_eq : extractLanes (halves x) = some x :=
  Loops.ofFnM_eq_some fun i => mm512ExtractEpi64_eq i.isLt

theorem mm512SrliEpi64_eq {k : ℕ} (hk : k ≤ 31) :
    mm512SrliEpi64 k (halves x) = some (halves (Avx.mm512SrliEpi64 k x)) := by
  rw [mm512SrliEpi64, if_pos hk, Avx.mm512SrliEpi64, halves_map]
  rfl

theorem mm512SraiEpi64_eq {k : ℕ} (hk : k ≤ 31) :
    mm512SraiEpi64 k (halves x) = some (halves (Avx.mm512SraiEpi64 k x)) := by
  have h (v : Lanes256) : mm256SraiEpi64 k v = v.map (·.sshiftRight k) := by
    refine Vector.ext fun c hc => ?_
    simp [mm256SraiEpi64, mm256OrSi256, mm256SrliEpi64, mm256SlliEpi64, mm256CmpgtEpi64,
      mm256Set1Epi64x, ← ushiftRight_or_signMask hk]
  rw [mm512SraiEpi64, if_pos hk, Avx.mm512SraiEpi64, halves_map, h, h]

theorem mm512SlliEpi64_eq {k : ℕ} (hk : k ≤ 31) :
    mm512SlliEpi64 k (halves x) = some (halves (Avx.mm512SlliEpi64 k x)) := by
  rw [mm512SlliEpi64, if_pos hk, Avx.mm512SlliEpi64, halves_map]
  rfl

theorem mm512SubEpi64_eq : mm512SubEpi64 (halves x) (halves y) = halves (Avx.mm512SubEpi64 x y) :=
  halves_zipWith _ |>.symm

theorem mm512AddEpi64_eq : mm512AddEpi64 (halves x) (halves y) = halves (Avx.mm512AddEpi64 x y) :=
  halves_zipWith _ |>.symm

theorem mm512MulEpu32_eq : mm512MulEpu32 (halves x) (halves y) = halves (Avx.mm512MulEpu32 x y) :=
  halves_zipWith _ |>.symm

theorem and_onesIf (a : BitVec 64) (b : Bool) : a &&& onesIf b = if b then a else 0 := by
  cases b
  · simp [onesIf]
  · simp only [onesIf, if_true, BitVec.and_allOnes]

/-- A comparison of lanes, as a mask of ones and as truth values. -/
theorem mm512Mask_zipWith (f : BitVec 64 → BitVec 64 → Bool) (z : Dnspir.M512i) :
    mm512Mask (halves z) ⟨Vector.zipWith (fun a b => onesIf (f a b)) (halves x).data0 (halves y).data0,
      Vector.zipWith (fun a b => onesIf (f a b)) (halves x).data1 (halves y).data1⟩ =
      halves (Avx.mm512Mask z (Vector.zipWith f x y)) := by
  simp only [mm512Mask, mm256AndSi256, halves, M512i.mk.injEq]
  constructor <;> exact Vector.ext fun c hc => by simp [and_onesIf]

theorem mm512Mask_cmpgt (z : Dnspir.M512i) :
    mm512Mask (halves z) (mm512CmpgtEpi64Mask (halves x) (halves y)) =
      halves (Avx.mm512Mask z (Avx.mm512CmpgtEpi64Mask x y)) :=
  mm512Mask_zipWith (fun a b => b.slt a) z

theorem mm512Mask_cmpeq (z : Dnspir.M512i) :
    mm512Mask (halves z) (mm512CmpeqEpi64Mask (halves x) (halves y)) =
      halves (Avx.mm512Mask z (Avx.mm512CmpeqEpi64Mask x y)) :=
  mm512Mask_zipWith (fun a b => a == b) z

theorem mm512Cvtepi32Epi64_eq (v : M256i) :
    mm512Cvtepi32Epi64 v = halves (Avx.mm512Cvtepi32Epi64 v) := by
  simp only [mm512Cvtepi32Epi64, mm256Cvtepi32Epi64, mm256Extractf128Si256, halves, M512i.mk.injEq]
  constructor <;> exact Vector.ext fun c hc => by simp [Nat.add_comm]

end Emulated

/-! ## Register code -/

namespace Code

open Emulated

variable {ι : Type} {regs : ι → M512i}

/-- One case an operation: where the shifts fit, the emulation computes the
halves of the value. -/
theorem runEmulated_of_shiftsFit {e : Code ι} (h : e.ShiftsFit) :
    e.runEmulated (fun i => halves (regs i)) = some (halves (e.run regs)) := by
  induction e with
  | reg i => rfl
  | set1Epi64 a => simp [runEmulated, run, mm512Set1Epi64_eq]
  | setrEpi64 e => simp [runEmulated, run, setLanes_eq]
  | cvtepi32Epi64 x => simp [runEmulated, run, mm512Cvtepi32Epi64_eq]
  | mapLanes f x ih => simp [runEmulated, run, ih h, extractLanes_eq, setLanes_eq]
  | srliEpi64 k x ih => simp [runEmulated, run, ih h.2, mm512SrliEpi64_eq h.1]
  | sraiEpi64 k x ih => simp [runEmulated, run, ih h.2, mm512SraiEpi64_eq h.1]
  | slliEpi64 k x ih => simp [runEmulated, run, ih h.2, mm512SlliEpi64_eq h.1]
  | subEpi64 lhs rhs ihl ihr => simp [runEmulated, run, ihl h.1, ihr h.2, mm512SubEpi64_eq]
  | addEpi64 lhs rhs ihl ihr => simp [runEmulated, run, ihl h.1, ihr h.2, mm512AddEpi64_eq]
  | mulEpu32 lhs rhs ihl ihr => simp [runEmulated, run, ihl h.1, ihr h.2, mm512MulEpu32_eq]
  | maskCmpgt x lhs rhs ihx ihl ihr =>
    simp [runEmulated, run, ihx h.1, ihl h.2.1, ihr h.2.2, mm512Mask_cmpgt]
  | maskCmpeq x lhs rhs ihx ihl ihr =>
    simp [runEmulated, run, ihx h.1, ihl h.2.1, ihr h.2.2, mm512Mask_cmpeq]

/-- A run that gets through has made no shift by more than 31. -/
theorem shiftsFit_of_runEmulated {e : Code ι} {regs : ι → Emulated.M512i} {x : Emulated.M512i}
    (h : e.runEmulated regs = some x) : e.ShiftsFit := by
  induction e generalizing x with
  | reg _ | set1Epi64 _ | setrEpi64 _ | cvtepi32Epi64 _ => trivial
  | mapLanes f x ih =>
    simp only [runEmulated, Option.bind_eq_bind, Option.bind_eq_some_iff] at h
    obtain ⟨_, hx, -⟩ := h
    exact ih hx
  | srliEpi64 k x ih | sraiEpi64 k x ih | slliEpi64 k x ih =>
    simp only [runEmulated, Option.bind_eq_bind, Option.bind_eq_some_iff, mm512SrliEpi64,
      mm512SraiEpi64, mm512SlliEpi64] at h
    obtain ⟨_, hx, hk⟩ := h
    refine ⟨?_, ih hx⟩
    by_contra hn
    rw [if_neg hn] at hk
    cases hk
  | subEpi64 lhs rhs ihl ihr | addEpi64 lhs rhs ihl ihr | mulEpu32 lhs rhs ihl ihr =>
    simp only [runEmulated, Option.bind_eq_bind, Option.bind_eq_some_iff] at h
    obtain ⟨_, hl, _, hr, -⟩ := h
    exact ⟨ihl hl, ihr hr⟩
  | maskCmpgt x lhs rhs ihx ihl ihr | maskCmpeq x lhs rhs ihx ihl ihr =>
    simp only [runEmulated, Option.bind_eq_bind, Option.bind_eq_some_iff] at h
    obtain ⟨_, hx, _, hl, _, hr, -⟩ := h
    exact ⟨ihx hx, ihl hl, ihr hr⟩

end Code

namespace Stores

open Emulated

variable {ι : Type} [DecidableEq ι]

theorem run_cons (i : ι) (e : Code ι) (p : Stores ι) (regs : ι → M512i) :
    run ((i, e) :: p) regs = run p (Function.update regs i (e.run regs)) := rfl

theorem runEmulated_cons (i : ι) (e : Code ι) (p : Stores ι) (regs : ι → Emulated.M512i) :
    runEmulated ((i, e) :: p) regs =
      (e.runEmulated regs).bind fun x => runEmulated p (Function.update regs i x) := by
  simp only [runEmulated, List.foldlM_cons, Option.bind_eq_bind, Option.bind_assoc]
  rfl

/-- The program writes halves where the other build writes registers. -/
theorem runEmulated_of_shiftsFit {p : Stores ι} (h : ∀ s ∈ p, s.2.ShiftsFit) (regs : ι → M512i) :
    p.runEmulated (fun i => halves (regs i)) = some fun i => halves (p.run regs i) := by
  induction p generalizing regs with
  | nil => rfl
  | cons s p ih =>
    obtain ⟨i, e⟩ := s
    have hupd : Function.update (fun j => halves (regs j)) i (halves (e.run regs)) =
        fun j => halves (Function.update regs i (e.run regs) j) := by
      funext j
      by_cases hj : j = i
      · subst hj; simp
      · simp [hj]
    rw [runEmulated_cons, run_cons, Code.runEmulated_of_shiftsFit (h _ (List.mem_cons_self ..)),
      Option.bind_some, hupd, ih fun s hs => h s (List.mem_cons_of_mem _ hs)]

theorem shiftsFit_of_runEmulated {p : Stores ι} {regs out : ι → Emulated.M512i}
    (h : p.runEmulated regs = some out) : ∀ s ∈ p, s.2.ShiftsFit := by
  induction p generalizing regs with
  | nil => simp
  | cons s p ih =>
    obtain ⟨i, e⟩ := s
    rw [runEmulated_cons, Option.bind_eq_some_iff] at h
    obtain ⟨x, he, hp⟩ := h
    rintro s hs
    rcases List.mem_cons.mp hs with rfl | hs
    · exact Code.shiftsFit_of_runEmulated he
    · exact ih hp s hs

theorem runEmulated_eq_some_iff {p : Stores ι} (h : ∀ s ∈ p, s.2.ShiftsFit)
    {regs out : ι → Emulated.M512i} :
    p.runEmulated regs = some out ↔ ∀ i, (out i).join = p.run (fun j => (regs j).join) i := by
  have hrun := runEmulated_of_shiftsFit h fun i => (regs i).join
  simp only [halves_join] at hrun
  rw [hrun, Option.some.injEq]
  constructor
  · rintro rfl i
    exact join_halves _
  · intro hout
    funext i
    rw [← hout, halves_join]

/-- **The emulation computes what AVX-512 computes**: it gets through a
straight-line program exactly if every shift is by at most 31, and its halves
then make up the registers of the other build. -/
theorem runEmulated_iff (p : Stores ι) (regs out : ι → Emulated.M512i) :
    p.runEmulated regs = some out ↔
      (∀ s ∈ p, s.2.ShiftsFit) ∧ ∀ i, (out i).join = p.run (fun j => (regs j).join) i := by
  constructor
  · intro h
    have hfit := shiftsFit_of_runEmulated h
    exact ⟨hfit, (runEmulated_eq_some_iff hfit).mp h⟩
  · rintro ⟨hfit, hout⟩
    exact (runEmulated_eq_some_iff hfit).mpr hout

end Stores

/-! ## The code of the engine -/

/-- The assertions of `check_invariant` keep the shifts of the ring in the
range the emulation has. -/
theorem SpecialZnx8.K_le {K : ℕ} (Z : SpecialZnx8 K) : K ≤ 30 := by
  by_contra h
  have : 2 ^ 31 ≤ 2 ^ K := Nat.pow_le_pow_right (by decide) (by omega)
  have := Z.shift_le
  omega

namespace Code

variable {ι : Type} {K : ℕ} (Z : SpecialZnx8 K)

@[simp] theorem shiftsFit_reduceStep {e : Code ι} : (reduceStep Z e).ShiftsFit ↔ e.ShiftsFit := by
  have := Z.K_le
  simp [reduceStep, modulusx8, ShiftsFit, show K ≤ 31 by omega]

@[simp] theorem shiftsFit_reduceAfterMul {e : Code ι} :
    (reduceAfterMul Z e).ShiftsFit ↔ e.ShiftsFit := by
  simp [reduceAfterMul]

@[simp] theorem shiftsFit_reduceFrom2p {e : Code ι} : (reduceFrom2p Z e).ShiftsFit ↔ e.ShiftsFit := by
  simp [reduceFrom2p, modulusx8, ShiftsFit]

@[simp] theorem shiftsFit_reduceFrom4p {e : Code ι} : (reduceFrom4p Z e).ShiftsFit ↔ e.ShiftsFit := by
  simp [reduceFrom4p, doubleModulusx8, ShiftsFit]

@[simp] theorem shiftsFit_sub {x y : Code ι} : (sub Z x y).ShiftsFit ↔ x.ShiftsFit ∧ y.ShiftsFit := by
  simp [sub, doubleModulusx8, ShiftsFit]

@[simp] theorem shiftsFit_digitHigh {e : Code ι} : (digitHigh e).ShiftsFit ↔ e.ShiftsFit := by
  simp [digitHigh, log2B, ShiftsFit]

end Code

namespace EngineCode

variable {ι : Type}

/-- The register code of every function computes its value. -/
theorem run_compile (e : EngineCode ι) (regs : ι → M512i) : e.compile.run regs = e.eval regs := by
  induction e with
  | reg | fromComponents | fromInt | uncompress => rfl
  | reduceFromU64 Z data ih =>
    refine Vector.ext fun c hc => ?_
    simp [compile, Code.reduceFromU64, Code.run, ih, eval, SpecialZnx8.reduceFromU64,
      SpecialZnx8.fromComponents]
  | revDelegate Z el ih | simdSmallestPositiveLift Z el ih | negate Z el ih =>
    simp only [eval, ← ih]; rfl
  | digitHigh el ih | digitLow el ih | embedDigit Z el ih | addProduct el x y ih =>
    simp only [eval, ← ih]; rfl
  | add Z lhs rhs ihl ihr | sub Z lhs rhs ihl ihr | mul Z lhs rhs ihl ihr =>
    simp only [eval, ← ihl, ← ihr]; rfl
  | shortestLift lhs rhs ihl ihr | addRaw lhs rhs ihl ihr => simp only [eval, ← ihl, ← ihr]; rfl
  | fma Z x y z ihx ihy ihz | butterflyX Z x y z ihx ihy ihz | butterflyY Z x y z ihx ihy ihz
  | invButterflyX Z x y z ihx ihy ihz | invButterflyY Z x y z ihx ihy ihz =>
    simp only [eval, ← ihx, ← ihy, ← ihz]; rfl

/-- The shifts are by the `K` of a ring and by the digit size. -/
theorem shiftsFit_compile (e : EngineCode ι) : e.compile.ShiftsFit := by
  induction e with
  | reg | fromComponents | fromInt | uncompress => trivial
  | reduceFromU64 Z data ih => exact ih
  | revDelegate Z el ih => exact (Code.shiftsFit_reduceFrom2p Z).mpr ih
  | digitHigh current ih => exact Code.shiftsFit_digitHigh.mpr ih
  | simdSmallestPositiveLift Z el ih | negate Z el ih | embedDigit Z el ih =>
    simpa [compile, Code.simdSmallestPositiveLift, Code.digitOffset, Code.modulusx8,
      Code.doubleModulusx8, Code.ShiftsFit] using ih
  | digitLow current ih =>
    have hk : log2B ≤ 31 := by decide
    exact ⟨ih, hk, Code.shiftsFit_digitHigh.mpr ih⟩
  | addProduct current x y ih => exact ⟨ih, trivial, trivial⟩
  | addRaw x y ihx ihy => exact ⟨ihx, ihy⟩
  | sub Z lhs rhs ihl ihr => exact (Code.shiftsFit_sub Z).mpr ⟨ihl, ihr⟩
  | add Z lhs rhs ihl ihr | mul Z lhs rhs ihl ihr | shortestLift lhs rhs ihl ihr =>
    simpa [compile, Code.mul, Code.shortestLift, Code.modulusx8, Code.ShiftsFit] using ⟨ihl, ihr⟩
  | fma Z x y z ihx ihy ihz | butterflyX Z x y z ihx ihy ihz | butterflyY Z x y z ihx ihy ihz
  | invButterflyX Z x y z ihx ihy ihz | invButterflyY Z x y z ihx ihy ihz =>
    simp [compile, Code.fma, Code.twiddledY, Code.ShiftsFit, ihx, ihy, ihz]

end EngineCode

namespace EngineStores

variable {ι : Type}

theorem shiftsFit_compile (p : EngineStores ι) : ∀ s ∈ p.compile, s.2.ShiftsFit := by
  intro s hs
  obtain ⟨⟨i, e⟩, -, rfl⟩ := List.mem_map.mp hs
  exact e.shiftsFit_compile

variable [DecidableEq ι]

theorem run_compile (p : EngineStores ι) (regs : ι → M512i) :
    Stores.run p.compile regs = p.eval regs := by
  induction p generalizing regs with
  | nil => rfl
  | cons s p ih =>
    obtain ⟨i, e⟩ := s
    have hcons : compile ((i, e) :: p) = (i, e.compile) :: compile p := rfl
    rw [hcons, Stores.run_cons, ih, e.run_compile]
    rfl

/-- The emulation gets through. -/
theorem exists_runEmulated (p : EngineStores ι) (regs : ι → Emulated.M512i) :
    ∃ out, Stores.runEmulated p.compile regs = some out ∧
      ∀ i, (out i).join = p.eval (fun j => (regs j).join) i := by
  have hout : ∀ i, (Emulated.halves (p.eval (fun j => (regs j).join) i)).join =
      p.eval (fun j => (regs j).join) i :=
    fun i => Emulated.join_halves _
  refine ⟨_, ?_, hout⟩
  rw [Stores.runEmulated_eq_some_iff (shiftsFit_compile p), run_compile]
  exact hout

/-- **The emulation runs the engine**: every straight-line program over the
register functions, for any rings that pass `check_invariant`, gets through
there and leaves the halves of what the functions compute. -/
theorem emulated_engine (p : EngineStores ι) (regs out : ι → Emulated.M512i) :
    Stores.runEmulated p.compile regs = some out ↔
      ∀ i, (out i).join = p.eval (fun j => (regs j).join) i := by
  rw [Stores.runEmulated_eq_some_iff (shiftsFit_compile p), run_compile]

/-- The program of one coefficient is its decomposition. -/
theorem eval_decomposeStores (q2InvModQ1 : rnsBase0.ComponentRing) (q1InvModQ2 : rnsBase1.ComponentRing)
    (regs : DigitReg → M512i) :
    let out := eval (decomposeStores q2InvModQ1 q1InvModQ2) regs
    ((out .d00, out .d01), (out .d10, out .d11)) =
      PIRDatabase.decomposeEntry (rnsBase0.fromComponents fun _ => q2InvModQ1)
        (rnsBase1.fromComponents fun _ => q1InvModQ2) (regs .x) (regs .y) := rfl

/-- **The gadget digits in the emulating build** are those of the other. -/
theorem decomposeEntry_emulated (q2InvModQ1 : rnsBase0.ComponentRing)
    (q1InvModQ2 : rnsBase1.ComponentRing) (regs : DigitReg → Emulated.M512i) :
    ∃ out, Stores.runEmulated (decomposeStores q2InvModQ1 q1InvModQ2).compile regs = some out ∧
      (((out .d00).join, (out .d01).join), ((out .d10).join, (out .d11).join)) =
        PIRDatabase.decomposeEntry (rnsBase0.fromComponents fun _ => q2InvModQ1)
          (rnsBase1.fromComponents fun _ => q1InvModQ2) (regs .x).join (regs .y).join := by
  obtain ⟨out, hrun, hout⟩ := exists_runEmulated (decomposeStores q2InvModQ1 q1InvModQ2) regs
  refine ⟨out, hrun, ?_⟩
  rw [hout, hout, hout, hout]
  exact eval_decomposeStores q2InvModQ1 q1InvModQ2 _

end EngineStores

end Dnspir
