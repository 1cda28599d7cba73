/-
Where the kernel leaves its result.

`main_pir_loop` swaps its two references once a round, `perform_pir_split`
reads the buffer it passed as `sum`.

* `resultInSum_iff`: that buffer holds the recurrence, and the reply is the
  one of the recurrence, exactly for the index groups of even order.
-/
import Dnspir.KernelRange

namespace Dnspir

open SpecialZnx8 PIRDatabase Avx

variable {N K : ℕ}

/-- After `len` rounds from zeroed buffers the caller's `sum` holds the
recurrence, fully reduced. -/
def SumHolds (N : ℕ) (Z : SpecialZnx8 K) (len : ℕ) : Prop :=
  ∀ (inp : KernelInput N) (σ : Equiv.Perm (Fin N)), KernelInput.Valid Z inp σ len →
    let zero := Vector.replicate N rnsBase0.zero
    ∃ s, mainPirLoop Z inp len reduceEveryIterations zero zero = some s ∧ ∀ (k : Fin N) c,
      lane s.1[k] c < Z.modulus ∧
        (lane s.1[k] c : Z.ComponentRing) = kernelRec σ (kernelVals Z inp) len k c

/-- `perform_pir_split` over a group returns the recurrence on what is stored. -/
def ReturnsReply [NeZero N] (g : IndexGroup N) : Prop :=
  ∀ {t : ℕ} (fm : FeanorMath) (db : PIRDatabase N t) (r : Roots)
    (D DC : Fin 8 → ℕ → Fin 2 → CipherRing N)
    (T TC : Fin 8 → ℕ → CipherRing N) (queries : Fin 8 → QueryRef N), fm.Correct → DbOk db r →
      db.indexGroup = g →
    Nat.Coprime 5 (2 * N) → LoopSlices r db.innerProdGk db.transformedEntries g.loopLen D T →
    (g.requiresConj → LoopSlices r db.innerProdConjGk db.transformedEntriesConj g.loopLen DC TC) →
    (g.requiresConj → ∀ c, (queries c).qryConjB.isSome) →
    performPirSplit fm db queries = some fun c => replyB g (D c) (DC c) (T c) (TC c) (queries c)

/-- The result is where it is read, in both residue rings. -/
structure ResultInSum [NeZero N] (g : IndexGroup N) : Prop where
  sum0 : SumHolds N rnsBase0 g.loopLen
  sum1 : SumHolds N rnsBase1 g.loopLen
  reply : ReturnsReply g

section Parity
variable {Z : SpecialZnx8 K} {len : ℕ}

theorem sumHolds_of_even (hdvd : N % 16 = 0) (hN : 0 < N) (hfit : RoundsFit Z reduceEveryIterations)
    (heven : len % 2 = 0) : SumHolds N Z len := by
  intro inp σ h
  have hp := Z.modulus_pos
  obtain ⟨s, he, hs⟩ := mainPirLoop_spec h.kernelOk hdvd (by omega)
    (by decide) hfit heven h.transformedEntries_size
    h.innerProdGk0_size h.innerProdGk1_size (lazyRep_zero Z) (Vector.replicate N rnsBase0.zero)
  exact ⟨s, he, fun k c => ⟨by have := (hs k c).1; omega, (hs k c).2⟩⟩

/-- Eight ones. -/
def unitEl : CompressedZnx8El := Vector.replicate 8 1

/-- Ones everywhere, for any number of rounds. -/
def unitInput (N len : ℕ) : KernelInput N where
  galoisLookupTable := Vector.ofFn fun k => k.val
  qryB := Vector.replicate N unitEl
  gkB0 := Vector.replicate N unitEl
  gkB1 := Vector.replicate N unitEl
  innerProdGk0 := Array.replicate (N * len) unitEl
  innerProdGk1 := Array.replicate (N * len) unitEl
  transformedEntries := Array.replicate (N * len) unitEl

theorem lane_unitEl (c : Fin 8) : lane (uncompress unitEl) c = 1 := lane_one c

theorem unitInput_valid (N len : ℕ) (Z : SpecialZnx8 K) :
    KernelInput.Valid Z (unitInput N len) (Equiv.refl _) len := by
  have h1 : ∀ c, lane (uncompress unitEl) c ≤ 2 * Z.modulus := lane_one_le (modulus_pos _)
  have hmem : ∀ x ∈ Array.replicate (N * len) unitEl, ∀ c, lane (uncompress x) c ≤ 2 * Z.modulus :=
    fun x hx => Array.eq_of_mem_replicate hx ▸ h1
  have hget : ∀ (k : Fin N) c, lane (uncompress (Vector.replicate N unitEl)[k]) c ≤ 2 * Z.modulus :=
    fun k => by simpa using h1
  exact ⟨fun k => by simp [unitInput], hget, hget, hget, hmem, hmem, hmem, by simp [unitInput], by
    simp [unitInput], by simp [unitInput]⟩

/-- Every round of ones adds three. -/
theorem term_unitInput {i : ℕ} (hi : i < len) (k : Fin N) (c : Fin 8) :
    (kernelVals Z (unitInput N len)).term i k c = 3 := by
  have hlt : i * N + k.val < N * len := by
    have := k.isLt
    have hle : i * N + N ≤ N * len := by
      rw [← Nat.succ_mul, mul_comm N len]
      exact Nat.mul_le_mul_right N hi
    omega
  have hslice : sliceVal Z (Array.replicate (N * len) unitEl) i k c = 1 := by
    simp [sliceVal, Array.getD, hlt, lane_unitEl]
  simp only [KernelVals.term, kernelVals, unitInput, hslice, Positions.getElem_pos,
    Vector.getElem_replicate, lane_unitEl]
  norm_num

/-- **After an odd number of rounds** the caller's `sum` is one round behind. -/
theorem not_sumHolds_of_odd (hdvd : N % 16 = 0) (hN : 0 < N) (hodd : len % 2 = 1) :
    ¬SumHolds N rnsBase0 len := by
  intro hsum
  have hvalid := unitInput_valid N len rnsBase0
  obtain ⟨s, he, hs⟩ := hsum _ _ hvalid
  obtain ⟨s', he', -, -, hscratch⟩ :=
    mainPirLoop_run hvalid.kernelOk hdvd (by omega) (by decide) roundsFit0
    hvalid.transformedEntries_size hvalid.innerProdGk0_size hvalid.innerProdGk1_size
      (lazyRep_zero rnsBase0)
    (Vector.replicate N rnsBase0.zero)
  obtain rfl := Option.some.inj (he'.symm.trans he)
  obtain ⟨B, hB⟩ := hscratch (by omega)
  rw [if_neg (by omega)] at hB
  obtain ⟨i, rfl⟩ : ∃ i, len = i + 1 := ⟨len - 1, by omega⟩
  have hround : ∀ k c,
      kernelRec (Equiv.refl _) (kernelVals rnsBase0 (unitInput N (i + 1))) (i + 1) k c =
      kernelRec (Equiv.refl _) (kernelVals rnsBase0 (unitInput N (i + 1))) i k c + 3 := fun k c =>
    congrArg (_ + ·) (term_unitInput (Nat.lt_succ_self i) k c)
  have hlast := (hs ⟨0, hN⟩ 0).2
  rw [(hB ⟨0, hN⟩ 0).2, hround, Nat.add_sub_cancel] at hlast
  have hthree : (3 : rnsBase0.ComponentRing) = 0 := left_eq_add.mp hlast
  exact absurd ((ZMod.natCast_eq_zero_iff 3 _).mp hthree) (by decide)

end Parity

section Group
variable [NeZero N]

theorem loopLen_mod_two (hdvd : N % 16 = 0) (g : IndexGroup N) : g.loopLen % 2 = g.l % 2 := by
  have hN := Nat.pos_of_neZero N
  have hl := g.valid
  rw [IndexGroup.loopLen]
  split
  next => rfl
  next h =>
    have : g.l = N := by omega
    omega

/-- **The result is where it is read** exactly for the groups of even order:
the full group, and a subgroup of which the order is even. -/
theorem resultInSum_iff (hdvd : N % 16 = 0) (g : IndexGroup N) : ResultInSum g ↔ g.l % 2 = 0 := by
  have hN := Nat.pos_of_neZero N
  rw [← loopLen_mod_two hdvd]
  constructor
  · intro h
    by_contra hodd
    exact not_sumHolds_of_odd hdvd hN (by omega) h.sum0
  · intro heven
    refine ⟨sumHolds_of_even hdvd hN roundsFit0 heven, sumHolds_of_even hdvd hN roundsFit1 heven, ?_⟩
    rintro t fm db r D DC T TC queries hfm hdb rfl h5 hs hsc hq
    exact performPirSplit_spec hfm hdb hdvd (by omega) h5 heven hs hsc hq

end Group

theorem resultInSum_iff_full : ResultInSum (IndexGroup.fullGroup 16) :=
  (resultInSum_iff (by decide) _).mpr (by decide)

/-- A subgroup of order one: its only round goes to the scratch buffer. -/
theorem resultInSum_order_one : ¬∀ (N : ℕ) [NeZero N] (g : IndexGroup N), N % 16 = 0 →
    (g = IndexGroup.fullGroup N ∨ ∃ size, IndexGroup.subgroupOfSize N size = some g) →
      ResultInSum g := by
  intro h
  have hone := h 16 ⟨1, by decide⟩ (by decide) (.inr ⟨1, by decide⟩)
  exact not_sumHolds_of_odd (by decide) (by decide) (by decide) hone.sum0

end Dnspir
