/-
`main_pir_loop` never wraps.

`mainPirLoop_exact`: on all valid inputs, for any number of rounds, the run is
one of exact numbers (`ExactRun`, reduced after each batch: every product reads
factors below `2^32`, every sum stays below `2^64`), and the buffer last
swapped into place holds the recurrence mod `p`, fully reduced. Both residue
rings fit the reduction interval the query chooses.
-/
import Dnspir.ReplyPhase

namespace Dnspir

open SpecialZnx8 PIRDatabase Avx

variable {N K : ℕ} {Z : SpecialZnx8 K} {inp : KernelInput N} {σ : Equiv.Perm (Fin N)} {len : ℕ}

/-- What the kernel is called with: a permutation table, representatives, and
slices of `len` iterations. -/
structure KernelInput.Valid (Z : SpecialZnx8 K) (inp : KernelInput N) (σ : Equiv.Perm (Fin N))
    (len : ℕ) : Prop where
  table : ∀ k : Fin N, inp.galoisLookupTable[k] = (σ k).val
  gkB0 : ∀ (k : Fin N) c, lane (uncompress inp.gkB0[k]) c ≤ 2 * Z.modulus
  gkB1 : ∀ (k : Fin N) c, lane (uncompress inp.gkB1[k]) c ≤ 2 * Z.modulus
  qryB : ∀ (k : Fin N) c, lane (uncompress inp.qryB[k]) c ≤ 2 * Z.modulus
  innerProdGk0 : ∀ x ∈ inp.innerProdGk0, ∀ c, lane (uncompress x) c ≤ 2 * Z.modulus
  innerProdGk1 : ∀ x ∈ inp.innerProdGk1, ∀ c, lane (uncompress x) c ≤ 2 * Z.modulus
  transformedEntries : ∀ x ∈ inp.transformedEntries, ∀ c, lane (uncompress x) c ≤ 2 * Z.modulus
  innerProdGk0_size : N * len = inp.innerProdGk0.size
  innerProdGk1_size : N * len = inp.innerProdGk1.size
  transformedEntries_size : N * len = inp.transformedEntries.size

/-- Element `i * N + k` of a slice, as residues. -/
def sliceVal (Z : SpecialZnx8 K) (slice : Array CompressedZnx8El) (i : ℕ) (k : Fin N) (c : Fin 8) :
    Z.ComponentRing :=
  lane (uncompress (slice.getD (i * N + k) (Vector.replicate 8 0))) c

/-- The residues of the inputs. -/
def kernelVals (Z : SpecialZnx8 K) (inp : KernelInput N) : KernelVals N Z.ComponentRing where
  gkB0 := fun k c => lane (uncompress inp.gkB0[k]) c
  gkB1 := fun k c => lane (uncompress inp.gkB1[k]) c
  qryB := fun k c => lane (uncompress inp.qryB[k]) c
  gk0 := sliceVal Z inp.innerProdGk0
  gk1 := sliceVal Z inp.innerProdGk1
  te := sliceVal Z inp.transformedEntries

/-- One iteration's window of a valid slice. -/
theorem exists_window {slice : Array CompressedZnx8El} (hlen : N * len = slice.size)
    (hle : ∀ x ∈ slice, ∀ c, lane (uncompress x) c ≤ 2 * Z.modulus) {i : ℕ} (hi : i < len) :
    ∃ v : Vector CompressedZnx8El N, Window slice (i * N) v ∧
      ∀ k : Fin N, Z.Rep (uncompress v[k]) (sliceVal Z slice i k) := by
  have hlt : ∀ k : Fin N, i * N + k.val < slice.size := fun k => by
    have := k.isLt
    have hle : i * N + N ≤ N * len := by
      rw [← Nat.succ_mul, mul_comm N len]
      exact Nat.mul_le_mul_right N hi
    omega
  refine ⟨Vector.ofFn fun k => have hk := hlt k; slice[i * N + k.val], fun k => ?_, fun k c => ?_⟩
  · simp [Array.getElem?_eq_getElem (hlt k)]
  · simp only [Positions.getElem_pos, Vector.getElem_ofFn, sliceVal, Array.getD, dif_pos (hlt k)]
    exact ⟨hle _ (Array.getElem_mem (hlt k)) c, rfl⟩

theorem KernelInput.Valid.kernelOk (h : KernelInput.Valid Z inp σ len) :
    KernelOk Z inp σ len (kernelVals Z inp) where
  table := h.table
  gkB0 := fun k c => ⟨h.gkB0 k c, rfl⟩
  gkB1 := fun k c => ⟨h.gkB1 k c, rfl⟩
  qryB := fun k c => ⟨h.qryB k c, rfl⟩
  windows := fun i hi => by
    obtain ⟨v0, w0, h0⟩ := exists_window h.innerProdGk0_size h.innerProdGk0 hi
    obtain ⟨v1, w1, h1⟩ := exists_window h.innerProdGk1_size h.innerProdGk1 hi
    obtain ⟨v2, w2, h2⟩ := exists_window h.transformedEntries_size h.transformedEntries hi
    exact ⟨v0, v1, v2, ⟨w0, w1, w2⟩, h0, h1, h2⟩

/-- The kernel over one residue ring, from zeroed accumulators. -/
def KernelExact (N : ℕ) (Z : SpecialZnx8 K) : Prop :=
  (∀ (inp : KernelInput N) (σ : Equiv.Perm (Fin N)) (len : ℕ), 1 ≤ len → KernelInput.Valid Z inp σ len →
    let zero := Vector.replicate N rnsBase0.zero
    ∃ s, mainPirLoop Z inp len reduceEveryIterations zero zero = some s ∧
      let sum := if len % 2 = 0 then s.1 else s.2
      ExactRun Z inp σ len reduceEveryIterations zero len sum ∧
        ∀ (k : Fin N) c, lane sum[k] c < Z.modulus ∧
        (lane sum[k] c : Z.ComponentRing) = kernelRec σ (kernelVals Z inp) len k c) ∧
  ∀ x y : M512i, (∀ c, lane x c < Z.modulus) → (∀ c, lane y c < Z.modulus) →
    ∀ c, lane (mm512AddEpi64 x y) c = lane x c + lane y c

theorem kernelExact_of_roundsFit (hdvd : N % 16 = 0) (hN : 0 < N)
    (hfit : RoundsFit Z reduceEveryIterations) :
    KernelExact N Z := by
  have hp := Z.modulus_le
  have hp0 := Z.modulus_pos
  refine ⟨fun inp σ len _ h => ?_, fun x y hx hy c => lane_add (by have := hx c; have := hy c; omega)⟩
  have hzero : LazyRep Z (Z.modulus - 1) (Vector.replicate N rnsBase0.zero) 0 := fun k c => by
    have h0 : lane rnsBase0.zero c = 0 := by revert c; decide
    simp [h0]
  obtain ⟨s, he, hs, hr, -⟩ :=
    mainPirLoop_run h.kernelOk hdvd (by omega) (by decide) hfit h.transformedEntries_size
    h.innerProdGk0_size h.innerProdGk1_size hzero (Vector.replicate N rnsBase0.zero)
  exact ⟨s, he, hr, fun k c => ⟨by have := (hs k c).1; omega, (hs k c).2⟩⟩

/-- **The inner-product kernel is exact**, in both residue rings. -/
theorem mainPirLoop_exact (hdvd : N % 16 = 0) (hN : 0 < N) :
    KernelExact N rnsBase0 ∧ KernelExact N rnsBase1 :=
  ⟨kernelExact_of_roundsFit hdvd hN roundsFit0, kernelExact_of_roundsFit hdvd hN roundsFit1⟩

theorem lane_replicate {n : ℕ} (hn : n < 2 ^ 31) (c : Fin 8) :
    lane (uncompress (Vector.replicate 8 (BitVec.ofNat 32 n))) c = n := by
  have hmsb : (BitVec.ofNat 32 n).msb = false := by
    rw [BitVec.msb_eq_false_iff_two_mul_lt, BitVec.toNat_ofNat]
    omega
  rw [lane, Positions.getElem_pos, uncompress, getElem_cvtepi32, Vector.getElem_replicate,
    BitVec.signExtend_eq_setWidth_of_msb_false hmsb, BitVec.toNat_setWidth, BitVec.toNat_ofNat]
  omega

theorem countingInput_valid : KernelInput.Valid rnsBase0 countingInput (finRotate 16) 3 := by
  have hle : ∀ n : ℕ, n ≤ 144 → ∀ c, lane (uncompress (Vector.replicate 8 (BitVec.ofNat 32 n))) c ≤
      2 * rnsBase0.modulus :=
    fun n hn c => (lane_replicate (by omega) c).trans_le (hn.trans (by decide))
  have hmem : ∀ n : ℕ, n ≤ 96 → ∀ x ∈ Array.ofFn fun i : Fin 48 =>
      Vector.replicate 8 (BitVec.ofNat 32 (i + n)),
      ∀ c, lane (uncompress x) c ≤ 2 * rnsBase0.modulus := fun n hn x hx => by
    obtain ⟨i, rfl⟩ := Array.mem_ofFn.mp hx
    exact hle _ (by omega)
  refine ⟨fun k => by simp [countingInput], fun k => ?_, fun k => ?_, fun k => ?_,
    hmem 0 (by decide), hmem 48 (by decide), hmem 96 (by decide), by
    simp [countingInput], by simp [countingInput], by simp [countingInput]⟩
  all_goals
    simp only [countingInput, Positions.getElem_pos, Vector.getElem_ofFn]
    exact hle _ (by omega)

theorem mainPirLoop_exact_counting : ∃ s, mainPirLoop rnsBase0 countingInput 3 reduceEveryIterations
    (Vector.replicate 16 rnsBase0.zero) (Vector.replicate 16 rnsBase0.zero) = some s ∧
    ∀ (k : Fin 16) c, lane s.2[k] c < rnsBase0.modulus ∧
      (lane s.2[k] c : rnsBase0.ComponentRing) =
        kernelRec (finRotate 16) (kernelVals rnsBase0 countingInput) 3 k c := by
  obtain ⟨s, he, -, h⟩ := (mainPirLoop_exact (N := 16) (by decide) (by decide)).1.1 countingInput
    (finRotate 16) 3
    (by decide) countingInput_valid
  exact ⟨s, he, h⟩

end Dnspir
