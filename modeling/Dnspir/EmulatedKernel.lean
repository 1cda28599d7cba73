/-
`main_pir_loop` in the build with `emulate_avx512`.

The kernel's control does not depend on what it computes, so a run of `len`
rounds is a straight-line program over the registers of the caller's two
buffers (`kernelStores`): round `i` reads one buffer and scatters into the
other, and every batch ends with a reduction of the buffer written last.

* `mainPirLoop_eval`: the loop of the model, with its preloaded registers,
  unrolled blocks and swapped references, leaves what the program leaves.
* `mainPirLoop_emulated`: so the emulation, run from the halves of the
  buffers, leaves the halves of what AVX-512 does.
-/
import Dnspir.EmulatedFacts
import Dnspir.KernelFacts

namespace Dnspir

open SpecialZnx8 PIRDatabase EngineStores

variable {N K : ℕ}

namespace EngineStores

variable {ι κ : Type} [DecidableEq ι]

theorem eval_append (p q : EngineStores ι) (regs : ι → M512i) :
    eval (p ++ q) regs = eval q (eval p regs) :=
  List.foldl_append

/-- Stores to distinct registers, each of an expression the others do not
write to: all of them have their value at the end, and nothing else changes. -/
theorem eval_map {dst : κ → ι} (hdst : Function.Injective dst) {code : κ → EngineCode ι}
    {val : κ → M512i} {regs : ι → M512i}
    (hcode : ∀ k regs', (∀ i, (∀ j, j ≠ k → dst j ≠ i) → regs' i = regs i) →
      (code k).eval regs' = val k) {l : List κ} (hl : l.Nodup) :
    (∀ k ∈ l, eval (l.map fun k => (dst k, code k)) regs (dst k) = val k) ∧
      ∀ i, (∀ k ∈ l, dst k ≠ i) → eval (l.map fun k => (dst k, code k)) regs i = regs i := by
  induction l using List.reverseRecOn with
  | nil => exact ⟨by simp, fun _ _ => rfl⟩
  | append_singleton l k ih =>
    obtain ⟨hl', -, hk⟩ := List.nodup_append.mp hl
    have hk : k ∉ l := fun h => hk k h k (List.mem_singleton_self k) rfl
    obtain ⟨hval, hkeep⟩ := ih hl'
    have hlast : (code k).eval (eval (l.map fun k => (dst k, code k)) regs) = val k :=
      hcode k _ fun i hi => hkeep i fun j hj => hi j fun e => hk (e ▸ hj)
    have hstep : eval ((l ++ [k]).map fun k => (dst k, code k)) regs =
        Function.update (eval (l.map fun k => (dst k, code k)) regs) (dst k) (val k) := by
      rw [List.map_append, eval_append, ← hlast]
      rfl
    rw [hstep]
    constructor
    · intro j hj
      rcases List.mem_append.mp hj with hj | hj
      · rw [Function.update_of_ne fun e => hk ((hdst e : j = k) ▸ hj)]
        exact hval j hj
      · rw [List.mem_singleton.mp hj, Function.update_self]
    · intro i hi
      rw [Function.update_of_ne (hi k (by simp)).symm]
      exact hkeep i fun j hj => hi j (by simp [hj])

end EngineStores

/-! ## The program -/

/-- The element at `i` of a streamed slice. -/
def elementAt (slice : Array CompressedZnx8El) (i : ℕ) : CompressedZnx8El :=
  slice[i]?.getD (Vector.replicate 8 0)

/-- The caller's buffer `sum` refers to after `i` rounds: `sum_new` after an odd number. -/
def sumAfter (i : ℕ) : Bool := i % 2 == 1

theorem sumAfter_succ (i : ℕ) : sumAfter (i + 1) = !sumAfter i := by
  rcases Nat.mod_two_eq_zero_or_one i with h | h <;> simp [sumAfter, Nat.add_mod, h]

/-- The three products of element `k` in round `i`. -/
def roundCode (inp : KernelInput N) (i : ℕ) (k : Fin N) : EngineCode (Bool × Fin N) :=
  .addProduct (.addProduct (.addProduct (.reg (sumAfter i, k))
    (elementAt inp.innerProdGk0 (i * N + k)) inp.gkB0[k])
      (elementAt inp.innerProdGk1 (i * N + k)) inp.gkB1[k])
    (elementAt inp.transformedEntries (i * N + k)) inp.qryB[k]

/-- Round `i`: every element, scattered by the lookup table. -/
def roundStores (inp : KernelInput N) (σ : Equiv.Perm (Fin N)) (i : ℕ) : EngineStores (Bool × Fin N) :=
  (List.finRange N).map fun k => ((!sumAfter i, σ k), roundCode inp i k)

def reduceStores (N : ℕ) (Z : SpecialZnx8 K) (b : Bool) : EngineStores (Bool × Fin N) :=
  (List.finRange N).map fun k => ((b, k), .reduceFromU64 Z (.reg (b, k)))

def roundsStores (inp : KernelInput N) (σ : Equiv.Perm (Fin N)) (start count : ℕ) :
    EngineStores (Bool × Fin N) :=
  (List.range count).flatMap fun m => roundStores inp σ (start + m)

/-- Batch `b`: its rounds, and the reduction. -/
def batchStores (Z : SpecialZnx8 K) (inp : KernelInput N) (σ : Equiv.Perm (Fin N)) (len every b : ℕ) :
    EngineStores (Bool × Fin N) :=
  roundsStores inp σ (b * every) (min (len - b * every) every) ++
    reduceStores N Z (sumAfter (b * every + min (len - b * every) every))

/-- The whole run. -/
def kernelStores (Z : SpecialZnx8 K) (inp : KernelInput N) (σ : Equiv.Perm (Fin N)) (len every : ℕ) :
    EngineStores (Bool × Fin N) :=
  (List.range ((len + every - 1) / every)).flatMap (batchStores Z inp σ len every)

/-! ## The loop runs the program -/

/-- After `i` rounds `sum` and `sum_new` are the buffers of `s`. -/
def RefersTo (i : ℕ) (s : Buffers N) (regs : Bool × Fin N → M512i) : Prop :=
  ∀ k : Fin N, regs (sumAfter i, k) = s.1[k] ∧ regs (!sumAfter i, k) = s.2[k]

section Run
variable {inp : KernelInput N} {σ : Equiv.Perm (Fin N)} {len : ℕ}

/-- The elements of a slice that is long enough, from `base` on. -/
theorem window_elementAt {slice : Array CompressedZnx8El} {base : ℕ} (h : base + N ≤ slice.size) :
    Window slice base (Vector.ofFn fun k : Fin N => elementAt slice (base + k)) := fun j => by
  have hj : base + j.val < slice.size := by have := j.isLt; omega
  simp [elementAt, hj]

/-- What `mainPirLoop` asserts, with the lookup table a permutation. -/
structure KernelSizes (inp : KernelInput N) (σ : Equiv.Perm (Fin N)) (len : ℕ) : Prop where
  table : ∀ k : Fin N, inp.galoisLookupTable[k] = (σ k).val
  te : N * len = inp.transformedEntries.size
  gk0 : N * len = inp.innerProdGk0.size
  gk1 : N * len = inp.innerProdGk1.size
  dvd : N % 16 = 0
  le : 16 ≤ N

theorem KernelSizes.round (h : KernelSizes inp σ len) {i : ℕ} (hi : i < len) {s : Buffers N}
    {regs : Bool × Fin N → M512i} (hs : RefersTo i s regs) :
    ∃ sumNew, kernelIteration inp (i * N) s.1 s.2 = some sumNew ∧
      RefersTo (i + 1) (sumNew, s.1) (eval (roundStores inp σ i) regs) := by
  have hend : i * N + N ≤ N * len := by
    rw [← Nat.succ_mul, Nat.mul_comm N len]
    exact Nat.mul_le_mul_right N hi
  obtain ⟨sumNew, he, hout⟩ := kernelIteration_spec h.table
    ⟨window_elementAt (h.gk0 ▸ hend), window_elementAt (h.gk1 ▸ hend), window_elementAt (h.te ▸ hend)⟩
    h.dvd h.le s.1 s.2
  have hdst : Function.Injective fun k : Fin N => (!sumAfter i, σ k) := fun a b hab => by
    simpa using congrArg Prod.snd hab
  -- A round reads the buffer it does not write.
  obtain ⟨hval, hkeep⟩ := @eval_map _ _ _ _ hdst (roundCode inp i) (fun k => sumNew[σ k]) regs
    (fun k regs' hk => by
      have hread : regs' (sumAfter i, k) = s.1[k] := by
        rw [hk _ fun j _ e => by simpa using congrArg Prod.fst e]
        exact (hs k).1
      simp only [roundCode, EngineCode.eval, hread, hout, kernelOut, Positions.getElem_pos,
        Vector.getElem_ofFn])
    _ (List.nodup_finRange N)
  refine ⟨sumNew, he, fun k => ⟨?_, ?_⟩⟩
  · rw [sumAfter_succ]
    have := hval (σ.symm k) (List.mem_finRange _)
    simpa [roundStores] using this
  · rw [sumAfter_succ, Bool.not_not]
    rw [show eval (roundStores inp σ i) regs (sumAfter i, k) = regs (sumAfter i, k) from
      hkeep _ fun j _ e => by simpa using congrArg Prod.fst e]
    exact (hs k).1

theorem KernelSizes.rounds (h : KernelSizes inp σ len) {start count : ℕ} (hle : start + count ≤ len)
    {s : Buffers N} {regs : Bool × Fin N → M512i} (hs : RefersTo start s regs) :
    ∃ s', kernelRounds inp start count s = some s' ∧
      RefersTo (start + count) s' (eval (roundsStores inp σ start count) regs) := by
  refine Loops.foldlM_finRange (n := count)
    (P := fun m s => RefersTo (start + m) s (eval (roundsStores inp σ start m) regs))
    hs fun m s hs => ?_
  obtain ⟨sumNew, he, hs'⟩ := h.round (i := start + m) (by have := m.isLt; omega) hs
  refine ⟨(sumNew, s.1), by rw [he]; rfl, ?_⟩
  rw [roundsStores, List.range_succ, List.flatMap_append, eval_append, ← Nat.add_assoc]
  simpa [roundsStores] using hs'

theorem refersTo_reduce (Z : SpecialZnx8 K) {i : ℕ} {s : Buffers N} {regs : Bool × Fin N → M512i}
    (hs : RefersTo i s regs) :
    RefersTo i (s.1.map Z.reduceFromU64, s.2) (eval (reduceStores N Z (sumAfter i)) regs) := by
  have hdst : Function.Injective fun k : Fin N => (sumAfter i, k) :=
    fun a b hab => congrArg Prod.snd hab
  obtain ⟨hval, hkeep⟩ := @eval_map _ _ _ _ hdst (fun k => .reduceFromU64 Z (.reg (sumAfter i, k)))
    (fun k : Fin N => Z.reduceFromU64 s.1[k]) regs
    (fun k regs' hk => by
      rw [EngineCode.eval, EngineCode.eval, hk _ fun j hj e => hj (congrArg Prod.snd e), (hs k).1])
    _ (List.nodup_finRange N)
  refine fun k => ⟨?_, ?_⟩
  · rw [reduceStores, hval k (List.mem_finRange k)]
    simp
  · rw [reduceStores, hkeep _ fun j _ e => by simpa using congrArg Prod.fst e]
    exact (hs k).2

theorem KernelSizes.batches (h : KernelSizes inp σ len) (Z : SpecialZnx8 K) {every : ℕ}
    (hpos : 0 < every) {s : Buffers N} {regs : Bool × Fin N → M512i} (hs : RefersTo 0 s regs) :
    ∃ s', kernelBatches Z inp len every s = some s' ∧
      RefersTo len s' (eval (kernelStores Z inp σ len every) regs) := by
  have hloop := Loops.foldlM_finRange (n := (len + every - 1) / every) (b := s)
    (f := fun s (b : Fin _) => do
      let s ← kernelRounds inp (b * every) (min (len - b * every) every) s
      return (s.1.map Z.reduceFromU64, s.2))
    (P := fun m s => RefersTo (min len (m * every)) s
      (eval ((List.range m).flatMap (batchStores Z inp σ len every)) regs))
    (by simpa [eval] using hs) ?_
  · obtain ⟨s', he, hs'⟩ := hloop
    have hall : len ≤ (len + every - 1) / every * every := by
      have := Nat.lt_div_mul_add (a := len + every - 1) hpos
      omega
    rw [min_eq_left hall] at hs'
    exact ⟨s', he, hs'⟩
  · intro b s hs
    have hb : b.val * every < len := by
      have h1 := b.isLt
      have h2 := Nat.div_mul_le_self (len + every - 1) every
      have h3 : (b.val + 1) * every ≤ (len + every - 1) / every * every := Nat.mul_le_mul_right _ h1
      rw [add_mul, one_mul] at h3
      omega
    rw [min_eq_right hb.le] at hs
    obtain ⟨s', he, hs'⟩ := @KernelSizes.rounds _ _ _ _ h (b * every) (min (len - b * every) every)
      (by omega) _ _ hs
    have hnext : b.val * every + min (len - b.val * every) every = min len ((b.val + 1) * every) := by
      rw [add_mul, one_mul]
      omega
    refine ⟨(s'.1.map Z.reduceFromU64, s'.2), by rw [he]; rfl, ?_⟩
    rw [List.range_succ, List.flatMap_append, eval_append, ← hnext]
    simpa [batchStores, eval_append] using refersTo_reduce Z hs'

end Run

/-- The caller's buffers, in the registers. -/
def regBuffers (regs : Bool × Fin N → M512i) : Buffers N :=
  (Vector.ofFn fun k => regs (false, k), Vector.ofFn fun k => regs (true, k))

/-- The kernel is its program, however many rounds it makes. -/
theorem mainPirLoop_eval (Z : SpecialZnx8 K) {inp : KernelInput N} {σ : Equiv.Perm (Fin N)}
    {len every : ℕ} (h : KernelSizes inp σ len) (hpos : 0 < every) (regs : Bool × Fin N → M512i) :
    mainPirLoop Z inp len every (regBuffers regs).1 (regBuffers regs).2 =
      some (regBuffers (eval (kernelStores Z inp σ len every) regs)) := by
  obtain ⟨s, he, hs⟩ := h.batches Z hpos (show RefersTo 0 (regBuffers regs) regs from
    fun k => by simp [sumAfter, regBuffers])
  have htable : ∀ i : Fin N, inp.galoisLookupTable[i] < N :=
    fun i => by rw [h.table i]; exact (σ i).isLt
  rw [mainPirLoop, if_pos ⟨h.te, h.gk0, h.gk1, htable, hpos⟩,
    show ((regBuffers regs).1, (regBuffers regs).2) =
    regBuffers regs from rfl, he]
  simp only [Option.bind_eq_bind, Option.bind_some, Option.pure_def, Option.some.injEq]
  rcases Nat.mod_two_eq_zero_or_one len with h2 | h2
  · have hb : sumAfter len = false := by simp [sumAfter, h2]
    simp only [RefersTo, hb, Bool.not_false] at hs
    rw [if_pos h2, regBuffers, Prod.ext_iff]
    constructor <;> refine Vector.ext fun k hk => ?_
    · simpa using (hs ⟨k, hk⟩).1.symm
    · simpa using (hs ⟨k, hk⟩).2.symm
  · have hb : sumAfter len = true := by simp [sumAfter, h2]
    simp only [RefersTo, hb, Bool.not_true] at hs
    rw [if_neg (by omega), regBuffers, Prod.ext_iff]
    constructor <;> refine Vector.ext fun k hk => ?_
    · simpa using (hs ⟨k, hk⟩).2.symm
    · simpa using (hs ⟨k, hk⟩).1.symm

/-- **The kernel in the emulating build.** From the halves of any two buffers its
program gets through, and leaves the halves of what `main_pir_loop` leaves in
the buffers they make up. -/
theorem mainPirLoop_emulated (Z : SpecialZnx8 K) {inp : KernelInput N} {σ : Equiv.Perm (Fin N)}
    {len every : ℕ} (h : KernelSizes inp σ len) (hpos : 0 < every)
    (regs : Bool × Fin N → Emulated.M512i) :
    ∃ out, Stores.runEmulated (kernelStores Z inp σ len every).compile regs = some out ∧
      mainPirLoop Z inp len every (regBuffers fun i => (regs i).join).1
        (regBuffers fun i => (regs i).join).2 =
        some (regBuffers fun i => (out i).join) := by
  obtain ⟨out, hrun, hout⟩ := EngineStores.exists_runEmulated (kernelStores Z inp σ len every) regs
  refine ⟨out, hrun, ?_⟩
  rw [mainPirLoop_eval Z h hpos]
  simp only [hout]

theorem countingInput_sizes : KernelSizes countingInput (finRotate 16) 3 where
  table k := by simp [countingInput]
  te := by simp [countingInput]
  gk0 := by simp [countingInput]
  gk1 := by simp [countingInput]
  dvd := rfl
  le := le_rfl

theorem mainPirLoop_emulated_counting : ∃ out : Bool × Fin 16 → Emulated.M512i,
    Stores.runEmulated (kernelStores rnsBase0 countingInput (finRotate 16) 3 2).compile
      (fun i => Emulated.mm512Set1Epi64 (BitVec.ofNat 64 i.2)) = some out ∧
    mainPirLoop rnsBase0 countingInput 3 2
      (regBuffers fun i => (Emulated.mm512Set1Epi64 (BitVec.ofNat 64 i.2)).join).1
      (regBuffers fun i => (Emulated.mm512Set1Epi64 (BitVec.ofNat 64 i.2)).join).2 =
        some (regBuffers fun i => (out i).join) :=
  mainPirLoop_emulated rnsBase0 countingInput_sizes (by decide) _

end Dnspir
