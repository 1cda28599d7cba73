/-
`main_pir_loop` computes a recurrence on the lanes.

* `kernelIteration_spec`: one iteration, with its preloaded registers and
  unrolled blocks, puts `sum[k]` plus the three products of element `k` at
  the position the lookup table names.
* `LazyRep`: the accumulators between two reductions, bounded by `B`. Each
  round adds at most three products of numbers `≤ 2p` (`LazyRep.step`), and
  the number of rounds between reductions keeps `B` below `2^64`.
* `mainPirLoop_run`, `mainPirLoop_spec`: the whole run. The second is for an even
  number of rounds; with an odd number the result is in the other buffer.
-/
import Dnspir.PerformPir
import Dnspir.NttFacts

namespace Dnspir

open SpecialZnx8 PIRDatabase Avx

variable {N : ℕ}

/-! ## One iteration -/

/-- `N` elements of a slice, from `base` on. -/
def Window (slice : Array CompressedZnx8El) (base : ℕ) (v : Vector CompressedZnx8El N) : Prop :=
  ∀ j : Fin N, slice[base + j]? = some v[j]

/-- Register `idx` holds the elements at `pos idx` and after it. -/
def Holds (regs : Vector (CompressedZnx8El × CompressedZnx8El) 8) (v : Vector CompressedZnx8El N)
    (pos : Fin 8 → ℕ) : Prop :=
  ∀ idx : Fin 8, v[pos idx]? = some regs[idx].1 ∧ v[pos idx + 1]? = some regs[idx].2

theorem loadPair_window {slice : Array CompressedZnx8El} {base p : ℕ} {v : Vector CompressedZnx8El N}
    (hw : Window slice base v) (hp : p + 1 < N) :
    ∃ x, loadPair slice (base + p) = some x ∧ v[p]? = some x.1 ∧ v[p + 1]? = some x.2 := by
  have h0 := hw ⟨p, by omega⟩
  have h1 := hw ⟨p + 1, hp⟩
  refine ⟨(v[p], v[p + 1]), ?_, by simp, by simp⟩
  simp only [loadPair, Positions.getElem_pos, ← Nat.add_assoc] at h0 h1 ⊢
  simp [h0, h1]

/-- The registers of the three slices, as `Holds` for each. -/
structure PreloadHolds (pre : Preload) (gk0 gk1 te : Vector CompressedZnx8El N) (pos : Fin 8 → ℕ) :
    Prop where
  gk0 : Holds pre.innerProdGk0 gk0 pos
  gk1 : Holds pre.innerProdGk1 gk1 pos
  te : Holds pre.transformedEntries te pos

/-- The windows of the three slices at one iteration. -/
structure Windows (inp : KernelInput N) (base : ℕ) (gk0 gk1 te : Vector CompressedZnx8El N) : Prop where
  gk0 : Window inp.innerProdGk0 base gk0
  gk1 : Window inp.innerProdGk1 base gk1
  te : Window inp.transformedEntries base te

/-- The accumulator of element `k` after the three products. -/
def kernelOut (inp : KernelInput N) (sum : Vector M512i N) (gk0 gk1 te : Vector CompressedZnx8El N)
    (k : Fin N) : M512i :=
  addProduct (addProduct (addProduct sum[k] gk0[k] inp.gkB0[k]) gk1[k] inp.gkB1[k]) te[k] inp.qryB[k]

section Iteration
variable {inp : KernelInput N} {σ : Equiv.Perm (Fin N)} {base : ℕ} {sum sumNew : Vector M512i N}
  {gk0 gk1 te : Vector CompressedZnx8El N}

/-- The first `j` elements have been processed. -/
def Done (inp : KernelInput N) (σ : Equiv.Perm (Fin N)) (sum : Vector M512i N)
    (gk0 gk1 te : Vector CompressedZnx8El N) (j : ℕ) (sumNew : Vector M512i N) : Prop :=
  ∀ k : Fin N, k.val < j → sumNew[σ k] = kernelOut inp sum gk0 gk1 te k

theorem kernelElement_spec (ht : ∀ k : Fin N, inp.galoisLookupTable[k] = (σ k).val) {j : ℕ}
    (hj : j < N) {x0 x1 x2 : CompressedZnx8El} (h0 : gk0[j]? = some x0) (h1 : gk1[j]? = some x1)
    (h2 : te[j]? = some x2) (hd : Done inp σ sum gk0 gk1 te j sumNew) :
    ∃ sumNew', kernelElement inp sum j x0 x1 x2 sumNew = some sumNew' ∧
      Done inp σ sum gk0 gk1 te (j + 1) sumNew' := by
  rw [Vector.getElem?_eq_getElem hj, Option.some.injEq] at h0 h1 h2
  have htj : inp.galoisLookupTable[j] = (σ ⟨j, hj⟩).val := ht ⟨j, hj⟩
  refine ⟨sumNew.set (σ ⟨j, hj⟩) (kernelOut inp sum gk0 gk1 te ⟨j, hj⟩) (σ ⟨j, hj⟩).isLt, ?_,
    fun k hk => ?_⟩
  · simp [kernelElement, hj, htj, kernelOut, h0, h1, h2]
  · simp only [Positions.getElem_pos, Vector.getElem_set, Fin.val_inj, σ.injective.eq_iff]
    split
    next h => rw [h]
    next h => exact hd k (lt_of_le_of_ne (by omega) fun e => h (Fin.ext e.symm))

theorem Holds.set {regs : Vector (CompressedZnx8El × CompressedZnx8El) 8}
    {v : Vector CompressedZnx8El N} {pos : Fin 8 → ℕ} (h : Holds regs v pos)
    {x : CompressedZnx8El × CompressedZnx8El} {p : ℕ} (idx : Fin 8) (h0 : v[p]? = some x.1)
    (h1 : v[p + 1]? = some x.2) :
    Holds (regs.set idx x idx.isLt) v (Function.update pos idx p) := by
  intro i
  simp only [Positions.getElem_pos, Vector.getElem_set, Fin.val_inj]
  by_cases hi : idx = i
  · subst hi
    rw [Function.update_self, if_pos rfl]
    exact ⟨h0, h1⟩
  · rw [Function.update_of_ne (Ne.symm hi), if_neg hi]
    exact h i

/-- Where the registers are at register `m` of the block from `j` on: those
before `m` already hold the next block, if there is one. -/
def blockPos (shouldPreload : Bool) (j m : ℕ) (idx : Fin 8) : ℕ :=
  if shouldPreload ∧ idx.val < m then j + 16 + idx * 2 else j + idx * 2

theorem blockPos_update (j : ℕ) (m : Fin 8) :
    Function.update (blockPos true j m) m (j + 16 + m * 2) = blockPos true j (m + 1) := by
  funext idx
  by_cases h : idx = m
  · subst h
    simp [blockPos]
  · have : idx.val < m.val + 1 ↔ idx.val < m.val :=
      ⟨fun h' => lt_of_le_of_ne (by omega) fun e => h (Fin.ext e), by omega⟩
    simp [Function.update_of_ne h, blockPos, this]

theorem unrolledStep_spec (ht : ∀ k : Fin N, inp.galoisLookupTable[k] = (σ k).val)
    (hw : Windows inp base gk0 gk1 te) {shouldPreload : Bool} {j : ℕ}
    (hj : if shouldPreload then j + 32 ≤ N else j + 16 ≤ N) (m : Fin 8) {s : Preload × Vector M512i N}
    (hp : PreloadHolds s.1 gk0 gk1 te (blockPos shouldPreload j m))
    (hd : Done inp σ sum gk0 gk1 te (j + m * 2) s.2) :
    ∃ s', unrolledStep inp sum shouldPreload j (base + j) s m = some s' ∧
      PreloadHolds s'.1 gk0 gk1 te (blockPos shouldPreload j (m + 1)) ∧
      Done inp σ sum gk0 gk1 te (j + (m + 1) * 2) s'.2 := by
  have hm := m.isLt
  have hN : j + 16 ≤ N := by split at hj <;> omega
  have hpos : blockPos shouldPreload j m m = j + m * 2 := by simp [blockPos]
  obtain ⟨h00, h01⟩ := hp.gk0 m
  obtain ⟨h10, h11⟩ := hp.gk1 m
  obtain ⟨h20, h21⟩ := hp.te m
  rw [hpos] at h00 h01 h10 h11 h20 h21
  obtain ⟨sn, e1, hd1⟩ := kernelElement_spec ht (show j + m * 2 < N by omega) h00 h10 h20 hd
  obtain ⟨sn', e2, hd2⟩ := kernelElement_spec ht (show j + m * 2 + 1 < N by omega) h01 h11 h21 hd1
  have hd2' : Done inp σ sum gk0 gk1 te (j + (m + 1) * 2) sn' := by
    rw [show j + (m.val + 1) * 2 = j + m * 2 + 1 + 1 by ring]
    exact hd2
  cases shouldPreload with
  | false =>
    have hpos' : blockPos false j m = blockPos false j (m + 1) := funext fun idx => by simp [blockPos]
    refine ⟨(s.1, sn'), ?_, hpos' ▸ hp, hd2'⟩
    simp only [Positions.getElem_pos] at e1 e2
    simp [unrolledStep, e1, e2]
  | true =>
    simp only [if_true] at hj
    have hnext : base + j + m * 2 + 16 = base + (j + 16 + m * 2) := by ring
    obtain ⟨x0, ex0, hx0⟩ := loadPair_window hw.gk0 (show j + 16 + m * 2 + 1 < N by omega)
    obtain ⟨x1, ex1, hx1⟩ := loadPair_window hw.gk1 (show j + 16 + m * 2 + 1 < N by omega)
    obtain ⟨x2, ex2, hx2⟩ := loadPair_window hw.te (show j + 16 + m * 2 + 1 < N by omega)
    refine ⟨(⟨s.1.innerProdGk0.set m x0, s.1.innerProdGk1.set m x1,
      s.1.transformedEntries.set m x2⟩, sn'), ?_, ?_, hd2'⟩
    · simp only [Positions.getElem_pos] at e1 e2
      simp [unrolledStep, e1, e2, hnext, ex0, ex1, ex2]
    · rw [← blockPos_update]
      exact ⟨hp.gk0.set m hx0.1 hx0.2, hp.gk1.set m hx1.1 hx1.2, hp.te.set m hx2.1 hx2.2⟩

theorem unrolledLoopBody_spec (ht : ∀ k : Fin N, inp.galoisLookupTable[k] = (σ k).val)
    (hw : Windows inp base gk0 gk1 te) (shouldPreload : Bool) {j : ℕ}
    (hj : if shouldPreload then j + 32 ≤ N else j + 16 ≤ N) {s : Preload × Vector M512i N}
    (hp : PreloadHolds s.1 gk0 gk1 te fun idx => j + idx * 2) (hd : Done inp σ sum gk0 gk1 te j s.2) :
    ∃ s', unrolledLoopBody inp sum shouldPreload j (base + j) s = some s' ∧
      (shouldPreload → PreloadHolds s'.1 gk0 gk1 te fun idx => j + 16 + idx * 2) ∧
      Done inp σ sum gk0 gk1 te (j + 16) s'.2 := by
  have h0 : (fun idx : Fin 8 => j + idx.val * 2) = blockPos shouldPreload j 0 :=
    funext fun idx => by simp [blockPos]
  have hloop := Loops.foldlM_finRange (n := 8) (b := s)
    (f := unrolledStep inp sum shouldPreload j (base + j))
    (P := fun m s => PreloadHolds s.1 gk0 gk1 te (blockPos shouldPreload j m) ∧
      Done inp σ sum gk0 gk1 te (j + m * 2) s.2)
    ⟨h0 ▸ hp, by simpa using hd⟩
    fun m s hs => unrolledStep_spec ht hw hj m hs.1 hs.2
  obtain ⟨s', he, hp', hd'⟩ := hloop
  refine ⟨s', he, fun hs => ?_, hd'⟩
  have hpos : blockPos shouldPreload j 8 = fun idx : Fin 8 => j + 16 + idx * 2 :=
    funext fun idx => by simp [blockPos, hs]
  rwa [hpos] at hp'

theorem preloadAt_spec (hw : Windows inp base gk0 gk1 te) (hN : 16 ≤ N) :
    ∃ pre, preloadAt inp base = some pre ∧ PreloadHolds pre gk0 gk1 te fun idx => 0 + idx * 2 := by
  have hload : ∀ {slice : Array CompressedZnx8El} {v : Vector CompressedZnx8El N}, Window slice base v →
      ∃ regs : Vector (CompressedZnx8El × CompressedZnx8El) 8,
        (Vector.ofFnM fun idx : Fin 8 => loadPair slice (base + idx * 2)) = some regs ∧
        Holds regs v fun idx => 0 + idx * 2 := by
    intro slice v h
    refine Loops.ofFnM_some (P := fun (idx : Fin 8) (x : _ × _) => v[0 + idx.val * 2]? = some x.1 ∧
      v[0 + idx.val * 2 + 1]? = some x.2) fun idx => ?_
    have := idx.isLt
    rw [Nat.zero_add]
    exact loadPair_window h (by omega)
  obtain ⟨r0, e0, h0⟩ := hload hw.gk0
  obtain ⟨r1, e1, h1⟩ := hload hw.gk1
  obtain ⟨r2, e2, h2⟩ := hload hw.te
  exact ⟨⟨r0, r1, r2⟩, by simp [preloadAt, e0, e1, e2], h0, h1, h2⟩

/-- **One iteration of the kernel.** -/
theorem kernelIteration_spec (ht : ∀ k : Fin N, inp.galoisLookupTable[k] = (σ k).val)
    (hw : Windows inp base gk0 gk1 te) (hdvd : N % 16 = 0) (hN : 16 ≤ N) (sum sumNew : Vector M512i N) :
    ∃ sumNew', kernelIteration inp base sum sumNew = some sumNew' ∧
      ∀ k, sumNew'[σ k] = kernelOut inp sum gk0 gk1 te k := by
  obtain ⟨pre, ep, hp⟩ := preloadAt_spec hw hN
  have hloop := Loops.foldlM_finRange (n := (N - 16) / 16) (b := (pre, sumNew))
    (f := fun s b => unrolledLoopBody inp sum true (b * 16) (base + b * 16) s)
    (P := fun b s => PreloadHolds s.1 gk0 gk1 te (fun idx => b * 16 + idx * 2) ∧
      Done inp σ sum gk0 gk1 te (b * 16) s.2)
    ⟨by simpa using hp, fun k hk => absurd hk (by simp)⟩ ?_
  · obtain ⟨s, es, hps, hds⟩ := hloop
    have hlast : (N - 16) / 16 * 16 + 16 = N := by omega
    obtain ⟨s', es', -, hd'⟩ := unrolledLoopBody_spec ht hw false
      (by simp only [Bool.false_eq_true, if_false]; omega) hps hds
    refine ⟨s'.2, ?_, fun k => hd' k (by have := k.isLt; omega)⟩
    simp only [kernelIteration, unrollCount, if_pos (show N % 16 = 0 ∧ 16 ≤ N from ⟨hdvd, hN⟩), ep,
      Option.bind_eq_bind, Option.bind_some]
    rw [es, Option.bind_some, es']
    rfl
  · intro b s hs
    have hb := b.isLt
    obtain ⟨s', es', hp', hd'⟩ := unrolledLoopBody_spec ht hw true
      (by simp only [if_true]; omega) hs.1 hs.2
    refine ⟨s', es', ?_, ?_⟩
    · have hpos : (fun idx : Fin 8 => (b.val + 1) * 16 + idx.val * 2) = fun idx =>
          b.val * 16 + 16 + idx.val * 2 :=
        funext fun idx => by ring
      rw [hpos]
      exact hp' rfl
    · rw [show (b.val + 1) * 16 = b.val * 16 + 16 by ring]
      exact hd'

end Iteration

/-! ## The values of the accumulators -/

variable {K : ℕ} {Z : SpecialZnx8 K}

/-- Accumulators between two reductions: lanes up to `B`, of the residues `f`. -/
def LazyRep (Z : SpecialZnx8 K) (B : ℕ) (v : Vector M512i N) (f : Fin N → Fin 8 → Z.ComponentRing) :
    Prop :=
  ∀ k c, lane v[k] c ≤ B ∧ (lane v[k] c : Z.ComponentRing) = f k c

/-- The largest product of two representatives. -/
def maxProd (Z : SpecialZnx8 K) : ℕ := 2 * Z.modulus * (2 * Z.modulus)

theorem lane_addProduct {current : M512i} {x y : CompressedZnx8El} {f g : Fin 8 → Z.ComponentRing}
    (hx : Z.Rep (uncompress x) f) (hy : Z.Rep (uncompress y) g) {B : ℕ} {c : Fin 8}
    (hB : B + maxProd Z < 2 ^ 64) (hc : lane current c ≤ B) :
    lane (addProduct current x y) c ≤ B + maxProd Z ∧
      (lane (addProduct current x y) c : Z.ComponentRing) = lane current c + f c * g c := by
  obtain ⟨hxb, hxv⟩ := hx c
  obtain ⟨hyb, hyv⟩ := hy c
  have hp := Z.modulus_le
  have hm : lane (mm512MulEpu32 (mm512Cvtepi32Epi64 x) (mm512Cvtepi32Epi64 y)) c =
      lane (uncompress x) c * lane (uncompress y) c :=
    lane_mulEpu32 (lt_of_le_of_lt hxb (by omega)) (lt_of_le_of_lt hyb (by omega))
  have hle : lane (uncompress x) c * lane (uncompress y) c ≤ maxProd Z := Nat.mul_le_mul hxb hyb
  rw [addProduct, lane_add (by rw [hm]; omega), hm]
  exact ⟨by omega, by rw [Nat.cast_add, Nat.cast_mul, hxv, hyv]⟩

/-- The same in exact numbers: neither the product nor the sum wraps. -/
theorem lane_addProduct_exact (current : M512i) {x y : CompressedZnx8El} {c : Fin 8}
    (hx : Avx.lane (uncompress x) c < 2 ^ 32) (hy : Avx.lane (uncompress y) c < 2 ^ 32)
    (h : lane current c + lane (uncompress x) c * lane (uncompress y) c < 2 ^ 64) :
    lane (addProduct current x y) c = lane current c + lane (uncompress x) c *
      lane (uncompress y) c := by
  have hm : lane (mm512MulEpu32 (mm512Cvtepi32Epi64 x) (mm512Cvtepi32Epi64 y)) c =
      lane (uncompress x) c * lane (uncompress y) c := lane_mulEpu32 hx hy
  rw [addProduct, lane_add (by rw [hm]; exact h), hm]

/-- Both factors fit the 32 bits the multiplication reads. -/
def FactorsFit (x y : CompressedZnx8El) (c : Fin 8) : Prop :=
  lane (uncompress x) c < 2 ^ 32 ∧ lane (uncompress y) c < 2 ^ 32

/-- The product of a lane, as a number. -/
def product (x y : CompressedZnx8El) (c : Fin 8) : ℕ := lane (uncompress x) c * lane (uncompress y) c

/-- An iteration of the kernel whose products and sums are the exact numbers. -/
structure RoundExact (inp : KernelInput N) (σ : Equiv.Perm (Fin N)) (i : ℕ)
    (sum sumNew : Vector M512i N) : Prop where
  run : ∃ scratch, kernelIteration inp (i * N) sum scratch = some sumNew
  exact : ∃ gk0 gk1 te : Vector CompressedZnx8El N, Windows inp (i * N) gk0 gk1 te ∧
    ∀ (k : Fin N) (c : Fin 8),
    (FactorsFit gk0[k] inp.gkB0[k] c ∧ FactorsFit gk1[k] inp.gkB1[k] c ∧
      FactorsFit te[k] inp.qryB[k] c) ∧
    lane sum[k] c + product gk0[k] inp.gkB0[k] c + product gk1[k] inp.gkB1[k] c +
      product te[k] inp.qryB[k] c < 2 ^ 64 ∧
    lane sumNew[σ k] c = lane sum[k] c + product gk0[k] inp.gkB0[k] c + product gk1[k] inp.gkB1[k] c +
      product te[k] inp.qryB[k] c

/-- A number of exact iterations from `sum₀` at iteration `i`. -/
inductive ExactRounds (inp : KernelInput N) (σ : Equiv.Perm (Fin N)) (i : ℕ) (sum₀ : Vector M512i N) :
    ℕ → Vector M512i N → Prop
  | start : ExactRounds inp σ i sum₀ 0 sum₀
  | round {m : ℕ} {sum sumNew : Vector M512i N} :
      ExactRounds inp σ i sum₀ m sum → RoundExact inp σ (i + m) sum sumNew →
        ExactRounds inp σ i sum₀ (m + 1) sumNew

/-- The accumulators between two batches of the outer loop. A batch is `every`
exact iterations, or those that are left, and then one reduction. -/
inductive ExactRun (Z : SpecialZnx8 K) (inp : KernelInput N) (σ : Equiv.Perm (Fin N)) (len every : ℕ)
    (sum₀ : Vector M512i N) : ℕ → Vector M512i N → Prop
  | start : ExactRun Z inp σ len every sum₀ 0 sum₀
  | batch {i : ℕ} {sum sumNew : Vector M512i N} : ExactRun Z inp σ len every sum₀ i sum → i < len →
      ExactRounds inp σ i sum (min (len - i) every) sumNew →
      ExactRun Z inp σ len every sum₀ (i + min (len - i) every) (sumNew.map Z.reduceFromU64)

/-- The values of a kernel's operands: the online ones, and the streamed
ones of each iteration. -/
structure KernelVals (N : ℕ) (R : Type) where
  gkB0 : Fin N → Fin 8 → R
  gkB1 : Fin N → Fin 8 → R
  qryB : Fin N → Fin 8 → R
  gk0 : ℕ → Fin N → Fin 8 → R
  gk1 : ℕ → Fin N → Fin 8 → R
  te : ℕ → Fin N → Fin 8 → R

section Run
variable {R : Type} [CommRing R]

/-- What iteration `i` adds to element `k`. -/
def KernelVals.term (V : KernelVals N R) (i : ℕ) (k : Fin N) (c : Fin 8) : R :=
  V.gk0 i k c * V.gkB0 k c + V.gk1 i k c * V.gkB1 k c + V.te i k c * V.qryB k c

/-- The recurrence of the kernel: `S_{i+1}[σ k] = S_i[k] + term i k`. -/
def kernelRec (σ : Equiv.Perm (Fin N)) (V : KernelVals N R) : ℕ → Fin N → Fin 8 → R
  | 0 => 0
  | i + 1 => fun k c => kernelRec σ V i (σ.symm k) c + V.term i (σ.symm k) c

end Run

/-- The inputs of a run of `len` iterations hold the values `V`. -/
structure KernelOk (Z : SpecialZnx8 K) (inp : KernelInput N) (σ : Equiv.Perm (Fin N)) (len : ℕ)
    (V : KernelVals N Z.ComponentRing) : Prop where
  table : ∀ k : Fin N, inp.galoisLookupTable[k] = (σ k).val
  gkB0 : ∀ k : Fin N, Z.Rep (uncompress inp.gkB0[k]) (V.gkB0 k)
  gkB1 : ∀ k : Fin N, Z.Rep (uncompress inp.gkB1[k]) (V.gkB1 k)
  qryB : ∀ k : Fin N, Z.Rep (uncompress inp.qryB[k]) (V.qryB k)
  windows : ∀ i < len, ∃ gk0 gk1 te : Vector CompressedZnx8El N, Windows inp (i * N) gk0 gk1 te ∧
    (∀ k : Fin N, Z.Rep (uncompress gk0[k]) (V.gk0 i k)) ∧
      (∀ k : Fin N, Z.Rep (uncompress gk1[k]) (V.gk1 i k)) ∧
      ∀ k : Fin N, Z.Rep (uncompress te[k]) (V.te i k)

/-- The buffers the kernel starts from. -/
theorem lazyRep_zero (Z : SpecialZnx8 K) :
    LazyRep Z (Z.modulus - 1) (Vector.replicate N rnsBase0.zero) 0 := fun k c => by
  have h0 : lane rnsBase0.zero c = 0 := by revert c; decide
  simp [h0]

section Rounds
variable {inp : KernelInput N} {σ : Equiv.Perm (Fin N)} {len : ℕ} {V : KernelVals N Z.ComponentRing}

/-- One round: the bound grows by three products, the values by one step. -/
theorem KernelOk.round (h : KernelOk Z inp σ len V) (hdvd : N % 16 = 0) (hN : 16 ≤ N) {i B : ℕ}
    (hi : i < len) (hB : B + 3 * maxProd Z < 2 ^ 64) {sum : Vector M512i N}
    (hs : LazyRep Z B sum (kernelRec σ V i)) (sumNew : Vector M512i N) :
    ∃ sumNew', kernelIteration inp (i * N) sum sumNew = some sumNew' ∧
      LazyRep Z (B + 3 * maxProd Z) sumNew' (kernelRec σ V (i + 1)) ∧
        RoundExact inp σ i sum sumNew' := by
  obtain ⟨gk0, gk1, te, hw, h0, h1, h2⟩ := h.windows i hi
  obtain ⟨sumNew', he, hout⟩ := kernelIteration_spec h.table hw hdvd hN sum sumNew
  have hp := Z.modulus_le
  have hfit : ∀ {x y : CompressedZnx8El} {f g : Fin 8 → Z.ComponentRing}, Z.Rep (uncompress x) f →
      Z.Rep (uncompress y) g → ∀ c, FactorsFit x y c ∧ product x y c ≤ maxProd Z := fun hx hy c =>
    ⟨⟨lt_of_le_of_lt (hx c).1 (by omega), lt_of_le_of_lt (hy c).1 (by omega)⟩,
      Nat.mul_le_mul (hx c).1 (hy c).1⟩
  refine ⟨sumNew', he, fun k c => ?_, ⟨sumNew, he⟩, gk0, gk1, te, hw, fun k c => ?_⟩
  · have hk : sumNew'[k] = kernelOut inp sum gk0 gk1 te (σ.symm k) := by simpa using hout (σ.symm k)
    obtain ⟨hb, hv⟩ := hs (σ.symm k) c
    obtain ⟨hb1, hv1⟩ := lane_addProduct (h0 (σ.symm k)) (h.gkB0 (σ.symm k)) (by omega) hb
    obtain ⟨hb2, hv2⟩ := lane_addProduct (h1 (σ.symm k)) (h.gkB1 (σ.symm k)) (by omega) hb1
    obtain ⟨hb3, hv3⟩ := lane_addProduct (h2 (σ.symm k)) (h.qryB (σ.symm k)) (by omega) hb2
    rw [hk, kernelOut]
    refine ⟨le_trans hb3 (by omega), ?_⟩
    rw [hv3, hv2, hv1, hv]
    simp only [kernelRec, KernelVals.term]
    ring
  · have hb := (hs k c).1
    obtain ⟨f0, p0⟩ := hfit (h0 k) (h.gkB0 k) c
    obtain ⟨f1, p1⟩ := hfit (h1 k) (h.gkB1 k) c
    obtain ⟨f2, p2⟩ := hfit (h2 k) (h.qryB k) c
    refine ⟨⟨f0, f1, f2⟩, by omega, ?_⟩
    simp only [product] at p0 p1 p2 ⊢
    have e0 := lane_addProduct_exact sum[k] f0.1 f0.2 (by omega)
    have e1 := lane_addProduct_exact (addProduct sum[k] gk0[k] inp.gkB0[k]) f1.1 f1.2 (by omega)
    have e2 := lane_addProduct_exact
      (addProduct (addProduct sum[k] gk0[k] inp.gkB0[k]) gk1[k] inp.gkB1[k])
      f2.1 f2.2 (by omega)
    rw [hout k, kernelOut, e2, e1, e0]

theorem LazyRep.mono {B B' : ℕ} (hB : B ≤ B') {v : Vector M512i N} {f : Fin N → Fin 8 → Z.ComponentRing}
    (h : LazyRep Z B v f) : LazyRep Z B' v f := fun k c => ⟨(h k c).1.trans hB, (h k c).2⟩

/-- Each round leaves the accumulators before it in the second buffer. -/
theorem KernelOk.rounds (h : KernelOk Z inp σ len V) (hdvd : N % 16 = 0) (hN : 16 ≤ N)
    (start count : ℕ) {B : ℕ} (hle : start + count ≤ len)
    (hB : B + count * (3 * maxProd Z) < 2 ^ 64) {s : Buffers N}
    (hs : LazyRep Z B s.1 (kernelRec σ V start)) :
    ∃ s', kernelRounds inp start count s = some s' ∧
      LazyRep Z (B + count * (3 * maxProd Z)) s'.1 (kernelRec σ V (start + count)) ∧
      ExactRounds inp σ start s.1 count s'.1 ∧
      (0 < count → LazyRep Z (B + count * (3 * maxProd Z)) s'.2
        (kernelRec σ V (start + count - 1))) := by
  refine Loops.foldlM_finRange (n := count)
    (P := fun m (s' : Buffers N) => LazyRep Z (B + m * (3 * maxProd Z)) s'.1
      (kernelRec σ V (start + m)) ∧
      ExactRounds inp σ start s.1 m s'.1 ∧
      (0 < m → LazyRep Z (B + m * (3 * maxProd Z)) s'.2 (kernelRec σ V (start + m - 1))))
    (by simpa using ⟨hs, ExactRounds.start⟩) ?_
  rintro m s ⟨hs, hr, -⟩
  have hm := m.isLt
  have hmB : (m.val + 1) * (3 * maxProd Z) ≤ count * (3 * maxProd Z) := Nat.mul_le_mul_right _ hm
  rw [add_mul, one_mul] at hmB
  obtain ⟨sumNew, he, hs', hr'⟩ := h.round hdvd hN (i := start + m) (by omega) (by omega) hs s.2
  refine ⟨(sumNew, s.1), by rw [he]; rfl, ?_⟩
  rw [add_mul, one_mul, ← add_assoc, ← add_assoc]
  exact ⟨hs', hr.round hr', fun _ => hs.mono (Nat.le_add_right _ _)⟩

/-- A reduction brings the lanes below `p` and keeps the residues. -/
theorem LazyRep.reduce {B : ℕ} {v : Vector M512i N} {f : Fin N → Fin 8 → Z.ComponentRing}
    (h : LazyRep Z B v f) :
    LazyRep Z (Z.modulus - 1) (v.map Z.reduceFromU64) f := fun k c => by
  have hlt := ZMod.val_lt ((lane v[k] c : ℕ) : Z.ComponentRing)
  have hl : lane (Z.reduceFromU64 v[k]) c = ((lane v[k] c : ℕ) : Z.ComponentRing).val :=
    lane_fromComponents _ c
  simp only [Positions.getElem_pos, Vector.getElem_map] at hl hlt ⊢
  rw [hl]
  exact ⟨by omega, by rw [ZMod.natCast_zmod_val]; exact (h k c).2⟩

/-- The rounds between two reductions fit, starting from a reduced sum. -/
def RoundsFit (Z : SpecialZnx8 K) (count : ℕ) : Prop := Z.modulus + count * (3 * maxProd Z) < 2 ^ 64

theorem KernelOk.batches (h : KernelOk Z inp σ len V) (hdvd : N % 16 = 0) (hN : 16 ≤ N) {every : ℕ}
    (hpos : 0 < every) (hfit : RoundsFit Z every) {s : Buffers N}
    (hs : LazyRep Z (Z.modulus - 1) s.1 0) :
    ∃ s', kernelBatches Z inp len every s = some s' ∧
      LazyRep Z (Z.modulus - 1) s'.1 (kernelRec σ V len) ∧ ExactRun Z inp σ len every s.1 len s'.1 ∧
      (0 < len → ∃ B, LazyRep Z B s'.2 (kernelRec σ V (len - 1))) := by
  have hmod := Z.modulus_pos
  have hloop := Loops.foldlM_finRange (n := (len + every - 1) / every) (b := s)
    (f := fun s (b : Fin _) => do
      let s ← kernelRounds inp (b * every) (min (len - b * every) every) s
      return (s.1.map Z.reduceFromU64, s.2))
    (P := fun m (s' : Buffers N) =>
      LazyRep Z (Z.modulus - 1) s'.1 (kernelRec σ V (min len (m * every))) ∧
      ExactRun Z inp σ len every s.1 (min len (m * every)) s'.1 ∧
      (0 < min len (m * every) → ∃ B, LazyRep Z B s'.2 (kernelRec σ V (min len (m * every) - 1))))
    (by simpa [kernelRec] using ⟨hs, ExactRun.start⟩) ?_
  · obtain ⟨s', he, hs'⟩ := hloop
    have hall : len ≤ (len + every - 1) / every * every := by
      have := Nat.lt_div_mul_add (a := len + every - 1) hpos
      omega
    rw [min_eq_left hall] at hs'
    exact ⟨s', he, hs'⟩
  · rintro b s ⟨hs, hr, -⟩
    have hb : b.val * every < len := by
      have h1 := b.isLt
      have h2 := Nat.div_mul_le_self (len + every - 1) every
      have h3 : (b.val + 1) * every ≤ (len + every - 1) / every * every := Nat.mul_le_mul_right _ h1
      rw [add_mul, one_mul] at h3
      omega
    rw [min_eq_right hb.le] at hs hr
    have hcount : min (len - b.val * every) every * (3 * maxProd Z) ≤ every * (3 * maxProd Z) :=
      Nat.mul_le_mul_right _ (min_le_right _ _)
    obtain ⟨s', he, hs', hr', hscratch⟩ :=
      h.rounds hdvd hN (b.val * every) (min (len - b.val * every) every) (by omega)
      (lt_of_le_of_lt (by omega) hfit) hs
    have hrun := hr.batch hb hr'
    refine ⟨(s'.1.map Z.reduceFromU64, s'.2), by rw [he]; rfl, ?_⟩
    have hnext : b.val * every + min (len - b.val * every) every = min len ((b.val + 1) * every) := by
      rw [add_mul, one_mul]
      omega
    rw [hnext] at hs' hrun hscratch
    exact ⟨hs'.reduce, hrun, fun _ => ⟨_, hscratch (by omega)⟩⟩

/-- **The kernel run.** The buffer the loop last swapped into place holds the
recurrence, fully reduced; it is the caller's `sum_new` after an odd number of
rounds, and the other buffer is one round behind. -/
theorem mainPirLoop_run (h : KernelOk Z inp σ len V) (hdvd : N % 16 = 0) (hN : 16 ≤ N) {every : ℕ}
    (hpos : 0 < every) (hfit : RoundsFit Z every) (hte : N * len = inp.transformedEntries.size)
    (hgk0 : N * len = inp.innerProdGk0.size) (hgk1 : N * len = inp.innerProdGk1.size)
    {sum : Vector M512i N} (hs : LazyRep Z (Z.modulus - 1) sum 0) (sumNew : Vector M512i N) :
    ∃ s, mainPirLoop Z inp len every sum sumNew = some s ∧
      LazyRep Z (Z.modulus - 1) (if len % 2 = 0 then s.1 else s.2) (kernelRec σ V len) ∧
      ExactRun Z inp σ len every sum len (if len % 2 = 0 then s.1 else s.2) ∧
      (0 < len → ∃ B, LazyRep Z B (if len % 2 = 0 then s.2 else s.1) (kernelRec σ V (len - 1))) := by
  obtain ⟨s, he, hs'⟩ := h.batches hdvd hN hpos hfit (s := (sum, sumNew)) hs
  have htable : ∀ i : Fin N, inp.galoisLookupTable[i] < N :=
    fun i => by rw [h.table i]; exact (σ i).isLt
  refine ⟨if len % 2 = 0 then s else (s.2, s.1), ?_, ?_⟩
  · rw [mainPirLoop, if_pos ⟨hte, hgk0, hgk1, htable, hpos⟩, he]
    rfl
  · split
    next he => simpa only [if_pos he] using hs'
    next ho => simpa only [if_neg ho] using hs'

/-- After an even number of rounds the caller's `sum` holds the recurrence. -/
theorem mainPirLoop_spec (h : KernelOk Z inp σ len V) (hdvd : N % 16 = 0) (hN : 16 ≤ N) {every : ℕ}
    (hpos : 0 < every) (hfit : RoundsFit Z every) (heven : len % 2 = 0)
    (hte : N * len = inp.transformedEntries.size) (hgk0 : N * len = inp.innerProdGk0.size)
    (hgk1 : N * len = inp.innerProdGk1.size) {sum : Vector M512i N}
    (hs : LazyRep Z (Z.modulus - 1) sum 0) (sumNew : Vector M512i N) :
    ∃ s, mainPirLoop Z inp len every sum sumNew = some s ∧
      LazyRep Z (Z.modulus - 1) s.1 (kernelRec σ V len) := by
  obtain ⟨s, he, hs', -, -⟩ := mainPirLoop_run h hdvd hN hpos hfit hte hgk0 hgk1 hs sumNew
  rw [if_pos heven] at hs'
  exact ⟨s, he, hs'⟩

end Rounds

/-- Three rounds of distinct numbers, with a table that moves every element. -/
def countingInput : KernelInput 16 where
  galoisLookupTable := Vector.ofFn fun k => (finRotate 16 k).val
  qryB := Vector.ofFn fun k => Vector.replicate 8 (BitVec.ofNat 32 (k + 1))
  gkB0 := Vector.ofFn fun k => Vector.replicate 8 (BitVec.ofNat 32 (k + 17))
  gkB1 := Vector.ofFn fun k => Vector.replicate 8 (BitVec.ofNat 32 (k + 33))
  innerProdGk0 := Array.ofFn fun i : Fin 48 => Vector.replicate 8 (BitVec.ofNat 32 i)
  innerProdGk1 := Array.ofFn fun i : Fin 48 => Vector.replicate 8 (BitVec.ofNat 32 (i + 48))
  transformedEntries := Array.ofFn fun i : Fin 48 => Vector.replicate 8 (BitVec.ofNat 32 (i + 96))

end Dnspir
