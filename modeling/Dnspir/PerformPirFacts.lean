/-
One evaluated query: the two halves of the reply fit together.

`preprocess` leaves the `a`-part `aRec` and the gadget digits in the
database, `perform_pir_split` computes the `b`-part `bRec` from the digits
and the client's `b`-parts.

* `reply_phase`: `aRec * s + bRec` is the plain recurrence, plus the digits
  times the errors of the Galois keys.
* `runKernel_run`, `finishSum_spec`: the kernel computes the slots of
  `σ(bRec)`, and the end of the query undoes the last `σ`.
* `performPirSplit_spec`, `performPirSplit_odd`: a query over an even and an odd
  number of rounds.
-/
import Dnspir.KernelFacts
import Dnspir.PreprocessFacts

namespace Dnspir

open SpecialZnx8 PIRDatabase Negacyclic

variable {N t : ℕ} [NeZero N]

/-! ## The recurrences -/

theorem sigma_add (f g : CipherRing N) : sigma (f + g) = sigma f + sigma g := map_add _ f g

theorem sigma_mul (f g : CipherRing N) : sigma (f * g) = sigma f * sigma g := map_mul _ f g

theorem sigma_zero : sigma (0 : CipherRing N) = 0 := map_zero _

/-- The gadget digits of round `i` of the offline loop. -/
def digits (gkA : Fin 2 → CipherRing N) (qryA : CipherRing N) (te : ℕ → CipherRing N) (i : ℕ)
    (k : Fin 2) : CipherRing N :=
  digitPoly k (sigma (aRec gkA qryA te i))

/-- What round `i` of the online loop adds. -/
def bTerm (d : ℕ → Fin 2 → CipherRing N) (te : ℕ → CipherRing N) (gkB : Fin 2 → CipherRing N)
    (qryB : CipherRing N) (i : ℕ) : CipherRing N :=
  d i 0 * gkB 0 + d i 1 * gkB 1 + te i * qryB

/-- The `b`-part after `i` rounds. -/
def bRec (d : ℕ → Fin 2 → CipherRing N) (te : ℕ → CipherRing N) (gkB : Fin 2 → CipherRing N)
    (qryB : CipherRing N) : ℕ → CipherRing N
  | 0 => 0
  | i + 1 => sigma (bRec d te gkB qryB i) + bTerm d te gkB qryB i

/-- The error of Galois key `k` under the secret `s`: the phase of an
encryption of `B^k σ(s)`, less `B^k σ(s)`. -/
def keyError (gkA gkB : Fin 2 → CipherRing N) (s : CipherRing N) (k : Fin 2) : CipherRing N :=
  gkB k + gkA k * s - C ((2 ^ log2B) ^ k.val) * sigma s

/-- One round of both loops, as one step on the phase. -/
theorem phase_step (gkA gkB : Fin 2 → CipherRing N) (qryA qryB s : CipherRing N)
    (te : ℕ → CipherRing N) (i : ℕ) :
    aRec gkA qryA te (i + 1) * s + bRec (digits gkA qryA te) te gkB qryB (i + 1) =
      sigma (aRec gkA qryA te i * s + bRec (digits gkA qryA te) te gkB qryB i) +
        (te i * (qryA * s + qryB) + ∑ k, digits gkA qryA te i k * keyError gkA gkB s k) := by
  have hsum := digitPoly_sum (sigma (aRec gkA qryA te i))
  simp only [aRec, bRec, bTerm, digits, keyError, sigma_add, sigma_mul, Fin.sum_univ_two, log2B,
    Fin.val_zero, Fin.val_one, pow_zero, pow_one, map_one]
  linear_combination (sigma s) * hsum

/-- **The phase of a reply** is the plain recurrence on the phase of the
query, plus the digits times the key errors. -/
theorem reply_phase (gkA gkB : Fin 2 → CipherRing N) (qryA qryB s : CipherRing N)
    (te : ℕ → CipherRing N) (L : ℕ) :
    aRec gkA qryA te L * s + bRec (digits gkA qryA te) te gkB qryB L =
      ∑ i ∈ Finset.range L, sigma^[L - 1 - i]
        (te i * (qryA * s + qryB) + ∑ k, digits gkA qryA te i k * keyError gkA gkB s k) :=
  Loops.eq_sum_iterate (P := fun i => aRec gkA qryA te i * s + bRec (digits gkA qryA te) te gkB qryB i)
    sigma_zero sigma_add (by simp [aRec, bRec]) (phase_step gkA gkB qryA qryB s te) L

/-! ## Slots -/

section Slot
variable {R : Type} [CommRing R]

/-- The value at slot `k`, in a residue ring. -/
def slotHom (φ : ZMod fixedQ →+* R) {zinv : R} (hz : zinv ^ N = -1) (k : Fin N) : CipherRing N →+* R :=
  (evalHom (RingHom.id R) (zinv ^ (2 * k.val + 1)) (slot_pow_N hz k)).comp (map φ)

variable {φ : ZMod fixedQ →+* R} {zinv : R} {w : ℕ}

/-- An automorphism moves the values along the inverse of its exponent. -/
theorem slotHom_moveSlot (hz : zinv ^ N = -1) (hw : Odd w) (h5 : 5 * w ≡ 1 [MOD 2 * N]) (k : Fin N)
    (f : CipherRing N) : slotHom φ hz (moveSlot N w k) (sigma f) = slotHom φ hz k f := by
  have hk : (2 * (moveSlot N w k).val + 1) * 5 ≡ 2 * k.val + 1 [MOD 2 * N] :=
    calc (2 * (moveSlot N w k).val + 1) * 5 ≡ (2 * k.val + 1) * w * 5 [MOD 2 * N] :=
      (moveSlot_modEq hw k).mul_right 5
      _ = (2 * k.val + 1) * (5 * w) := by ring
      _ ≡ (2 * k.val + 1) * 1 [MOD 2 * N] := h5.mul_left _
      _ = 2 * k.val + 1 := mul_one _
  simp only [slotHom, sigma, RingHom.comp_apply, map_gal, evalHom_apply]
  rw [eval_gal _ (slot_pow_N hz _), ← pow_mul, pow_eq_pow_of_modEq hk (pow_two_N hz)]

/-- The kernel's operands, as the slots of ring elements. -/
def slotVals (φ : ZMod fixedQ →+* R) (hz : zinv ^ N = -1) (d : Fin 8 → ℕ → Fin 2 → CipherRing N)
    (te : Fin 8 → ℕ → CipherRing N) (gkB : Fin 8 → Fin 2 → CipherRing N) (qryB : Fin 8 → CipherRing N) :
    KernelVals N R where
  gkB0 := fun k c => slotHom φ hz k (gkB c 0)
  gkB1 := fun k c => slotHom φ hz k (gkB c 1)
  qryB := fun k c => slotHom φ hz k (qryB c)
  gk0 := fun i k c => slotHom φ hz k (d c i 0)
  gk1 := fun i k c => slotHom φ hz k (d c i 1)
  te := fun i k c => slotHom φ hz k (te c i)

/-- The kernel applies the automorphism after the addition, so it is one
automorphism ahead of `bRec`. -/
theorem kernelRec_slotVals (hz : zinv ^ N = -1) (hw : Odd w) (h5 : 5 * w ≡ 1 [MOD 2 * N])
    {σ : Equiv.Perm (Fin N)} (hσ : ∀ k, σ k = moveSlot N w k) (d : Fin 8 → ℕ → Fin 2 → CipherRing N)
    (te : Fin 8 → ℕ → CipherRing N) (gkB : Fin 8 → Fin 2 → CipherRing N) (qryB : Fin 8 → CipherRing N)
    (i : ℕ) (k : Fin N) (c : Fin 8) : kernelRec σ (slotVals φ hz d te gkB qryB) i k c =
      slotHom φ hz k (sigma (bRec (d c) (te c) (gkB c) (qryB c) i)) := by
  induction i generalizing k with
  | zero => simp [kernelRec, bRec, sigma_zero]
  | succ i ih =>
    have hk : k = moveSlot N w (σ.symm k) := by rw [← hσ, Equiv.apply_symm_apply]
    conv_rhs => rw [hk, slotHom_moveSlot hz hw h5]
    simp only [kernelRec, ih, bRec, bTerm, map_add, map_mul]
    rfl

end Slot

/-! ## The kernel on slots -/

variable {K : ℕ} {Z : SpecialZnx8 K} {zinv : Z.ComponentRing}
  {φ : ZMod fixedQ →+* Z.ComponentRing} {w : ℕ}

omit [NeZero N] in
theorem window_of_loadEntry {slice : Array CompressedZnx8El} {i : ℕ} {v : Vector CompressedZnx8El N}
    (h : loadEntry slice i = some v) : Window slice (i * N) v := Loops.ofFnM_getElem h

/-- Chunk `i` of a slice holds the slots of ring elements. -/
def ChunkSlots (Z : SpecialZnx8 K) (φ : ZMod fixedQ →+* Z.ComponentRing) (zinv : Z.ComponentRing)
    (slice : Array CompressedZnx8El) (i : ℕ) (f : Fin 8 → CipherRing N) : Prop :=
  ∃ v : Vector CompressedZnx8El N, loadEntry slice i = some v ∧
    SlotRep Z zinv (v.map uncompress) fun c => map φ (f c)

omit [NeZero N] in
theorem SlotRep.uncompress_get {v : Vector CompressedZnx8El N}
    {F : Fin 8 → Negacyclic N Z.ComponentRing} (h : SlotRep Z zinv (v.map uncompress) F) (k : Fin N) :
    Z.Rep (uncompress v[k]) fun c => eval (RingHom.id _) (zinv ^ (2 * k.val + 1)) (F c) := by
  have hk := h k
  simp only [Positions.getElem_pos, Vector.getElem_map] at hk
  exact hk

section Kernel
variable {db : PIRDatabase N t} {table : Vector ℕ N} {qryB gkB0 gkB1 : Vector CompressedZnx8El N}
  {gk0 gk1 te : Array CompressedZnx8El} {L : ℕ} {D : Fin 8 → ℕ → Fin 2 → CipherRing N}
  {T : Fin 8 → ℕ → CipherRing N} {G : Fin 8 → Fin 2 → CipherRing N} {Q : Fin 8 → CipherRing N}

/-- The operands of one kernel run hold the slots of ring elements. -/
structure KernelSlots (Z : SpecialZnx8 K) (φ : ZMod fixedQ →+* Z.ComponentRing) (zinv : Z.ComponentRing)
    (inp : KernelInput N) (L : ℕ) (D : Fin 8 → ℕ → Fin 2 → CipherRing N) (T : Fin 8 → ℕ → CipherRing N)
    (G : Fin 8 → Fin 2 → CipherRing N) (Q : Fin 8 → CipherRing N) : Prop where
  gkB0 : SlotRep Z zinv (inp.gkB0.map uncompress) fun c => map φ (G c 0)
  gkB1 : SlotRep Z zinv (inp.gkB1.map uncompress) fun c => map φ (G c 1)
  qryB : SlotRep Z zinv (inp.qryB.map uncompress) fun c => map φ (Q c)
  gk0 : ∀ i < L, ChunkSlots Z φ zinv inp.innerProdGk0 i fun c => D c i 0
  gk1 : ∀ i < L, ChunkSlots Z φ zinv inp.innerProdGk1 i fun c => D c i 1
  te : ∀ i < L, ChunkSlots Z φ zinv inp.transformedEntries i fun c => T c i
  te_size : N * L = inp.transformedEntries.size
  gk0_size : N * L = inp.innerProdGk0.size
  gk1_size : N * L = inp.innerProdGk1.size

theorem KernelSlots.kernelOk {inp : KernelInput N} (h : KernelSlots Z φ zinv inp L D T G Q)
    (hz : zinv ^ N = -1) {σ : Equiv.Perm (Fin N)}
    (ht : ∀ k : Fin N, inp.galoisLookupTable[k] = (σ k).val) :
    KernelOk Z inp σ L (slotVals φ hz D T G Q) where
  table := ht
  gkB0 := h.gkB0.uncompress_get
  gkB1 := h.gkB1.uncompress_get
  qryB := h.qryB.uncompress_get
  windows := fun i hi => by
    obtain ⟨v0, e0, h0⟩ := h.gk0 i hi
    obtain ⟨v1, e1, h1⟩ := h.gk1 i hi
    obtain ⟨v2, e2, h2⟩ := h.te i hi
    exact ⟨v0, v1, v2, ⟨window_of_loadEntry e0, window_of_loadEntry e1, window_of_loadEntry e2⟩,
      h0.uncompress_get, h1.uncompress_get, h2.uncompress_get⟩

/-- The accumulators hold the slots of `f`, up to the bound `B`. -/
def LazySlots (Z : SpecialZnx8 K) (φ : ZMod fixedQ →+* Z.ComponentRing) {zinv : Z.ComponentRing}
    (hz : zinv ^ N = -1) (B : ℕ) (v : Vector M512i N) (f : Fin 8 → CipherRing N) : Prop :=
  LazyRep Z B v fun k c => slotHom φ hz k (f c)

/-- What the caller's `sum` holds after `L` rounds of `f`: after an odd number
it is the scratch buffer, one round behind. -/
def LazyAfter (Z : SpecialZnx8 K) (φ : ZMod fixedQ →+* Z.ComponentRing) {zinv : Z.ComponentRing}
    (hz : zinv ^ N = -1) (L : ℕ) (v : Vector M512i N) (f : ℕ → Fin 8 → CipherRing N) : Prop :=
  if L % 2 = 0 then LazySlots Z φ hz (Z.modulus - 1) v (f L) else ∃ B, LazySlots Z φ hz B v (f (L - 1))

theorem runKernel_run (hz : zinv ^ N = -1) (hdvd : N % 16 = 0) (hN : 16 ≤ N)
    (hfit : RoundsFit Z reduceEveryIterations) (hw : Odd w) (h5 : 5 * w ≡ 1 [MOD 2 * N])
    (ht : ∀ k : Fin N, table[k] = (moveSlot N w k).val)
    (h : KernelSlots Z φ zinv ⟨table, qryB, gkB0, gkB1, gk0, gk1, te⟩ db.indexGroup.loopLen D T G Q) :
    ∃ sum, runKernel Z db table qryB gkB0 gkB1 gk0 gk1 te = some sum ∧
      LazyAfter Z φ hz db.indexGroup.loopLen sum fun i c => sigma (bRec (D c) (T c) (G c) (Q c) i) := by
  have h5' : w * 5 ≡ 1 [MOD 2 * N] := mul_comm 5 w ▸ h5
  set σ : Equiv.Perm (Fin N) := ⟨moveSlot N w, moveSlot N 5, moveSlot_moveSlot hw odd_five h5',
    moveSlot_moveSlot odd_five hw h5⟩
  have hloop := mainPirLoop_run (h.kernelOk hz (σ := σ) ht) hdvd hN (by decide) hfit
    h.te_size h.gk0_size h.gk1_size (lazyRep_zero Z) (Vector.replicate N rnsBase0.zero)
  obtain ⟨s, he, hs, -, hscratch⟩ := hloop
  have hslots : ∀ {B i : ℕ}, LazyRep Z B s.1 (kernelRec σ (slotVals φ hz D T G Q) i) →
      LazySlots Z φ hz B s.1 fun c => sigma (bRec (D c) (T c) (G c) (Q c) i) := fun hi k c =>
    ⟨(hi k c).1, by rw [(hi k c).2, kernelRec_slotVals hz hw h5 fun _ => rfl]⟩
  refine ⟨s.1, by simp [runKernel, he], ?_⟩
  unfold LazyAfter
  split
  next heven =>
    rw [if_pos heven] at hs
    exact hslots hs
  next hodd =>
    obtain ⟨B, hB⟩ := hscratch (by omega)
    rw [if_neg hodd] at hB
    exact ⟨B, hslots hB⟩

end Kernel

/-! ## The end of a query -/

section Finish
variable {B B' : ℕ} {v v' : Vector M512i N} {f f' : Fin 8 → CipherRing N} {hz : zinv ^ N = -1}

/-- The unreduced sum of two accumulators. -/
theorem LazySlots.addRaw (h : LazySlots Z φ hz B v f) (h' : LazySlots Z φ hz B' v' f')
    (hB : B + B' < 2 ^ 64) :
    LazySlots Z φ hz (B + B') (Vector.ofFn fun j => Avx.mm512AddEpi64 v[j] v'[j]) (f + f') :=
      fun k c => by
  obtain ⟨hb, hv⟩ := h k c
  obtain ⟨hb', hv'⟩ := h' k c
  have hl := Avx.lane_add (x := v[k]) (y := v'[k]) (c := c) (by omega)
  simp only [Positions.getElem_pos, Vector.getElem_ofFn] at hl hb hb' hv hv' ⊢
  rw [hl]
  exact ⟨by omega, by rw [Nat.cast_add, hv, hv', Pi.add_apply, map_add]⟩

/-- Permuting the slots by the lookup table undoes one automorphism. -/
theorem LazySlots.permute (h : LazySlots Z φ hz B v fun c => sigma (f c)) (hw : Odd w)
    (h5 : 5 * w ≡ 1 [MOD 2 * N]) {table : Vector ℕ N}
    (ht : ∀ k : Fin N, table[k] = (moveSlot N w k).val) :
    ∃ v', (Dnspir.permute v fun i => table[i]?) = some v' ∧
      SlotRep Z zinv (v'.map Z.reduceFromU64) fun c => map φ (f c) := by
  have h5' : w * 5 ≡ 1 [MOD 2 * N] := mul_comm 5 w ▸ h5
  refine ⟨_, permute_spec (moveSlot_injective hw odd_five h5') (fun i => ?_) v, fun k => ?_⟩
  · rw [Vector.getElem?_eq_getElem i.isLt]
    exact congrArg some (ht i)
  · have hk := fun c => (h (moveSlot N w k) c).2
    simp only [Positions.getElem_pos, Vector.getElem_map, Vector.getElem_ofFn]
    refine (Rep.reduceFromU64 _).congr (funext fun c => ?_)
    exact (hk c).trans (slotHom_moveSlot hz hw h5 k (f c))

end Finish

/-- The accumulators of both residue rings. -/
structure LazyRNS {r : Roots} (hz0 : r.zinv0 ^ N = -1) (hz1 : r.zinv1 ^ N = -1) (B0 B1 : ℕ)
    (x : RNSEl N) (f : Fin 8 → CipherRing N) : Prop where
  fst : LazySlots rnsBase0 red0 hz0 B0 x.fst f
  snd : LazySlots rnsBase1 red1 hz1 B1 x.snd f

theorem LazyRNS.addRaw {r : Roots} {hz0 : r.zinv0 ^ N = -1} {hz1 : r.zinv1 ^ N = -1}
    {B0 B1 B0' B1' : ℕ} {x y : RNSEl N} {f g : Fin 8 → CipherRing N} (h : LazyRNS hz0 hz1 B0 B1 x f)
    (h' : LazyRNS hz0 hz1 B0' B1' y g) (hB0 : B0 + B0' < 2 ^ 64) (hB1 : B1 + B1' < 2 ^ 64) :
    LazyRNS hz0 hz1 (B0 + B0') (B1 + B1') (addRaw x y) (f + g) :=
  ⟨h.fst.addRaw h'.fst hB0, h.snd.addRaw h'.snd hB1⟩

variable {fm : FeanorMath} {db : PIRDatabase N t} {r : Roots} {table : Vector ℕ N}

theorem finishSum_spec (hfm : fm.Correct) (h : DbOk db r) (hw : Odd w) (h5 : 5 * w ≡ 1 [MOD 2 * N])
    (ht : ∀ k : Fin N, table[k] = (moveSlot N w k).val) {B0 B1 : ℕ} {x : RNSEl N}
    {f : Fin 8 → CipherRing N} (hx : LazyRNS h.ok0.pow_N h.ok1.pow_N B0 B1 x fun c => sigma (f c)) :
    finishSum fm db table x = some f := by
  obtain ⟨v0, e0, h0⟩ := hx.fst.permute hw h5 ht
  obtain ⟨v1, e1, h1⟩ := hx.snd.permute hw h5 ht
  simp only [finishSum, e0, e1, Option.bind_eq_bind, Option.bind_some]
  exact fromSimdElement_spec hfm h ⟨h0, h1⟩

omit [NeZero N] in
theorem odd_mul_two_add_one {u : ℕ} (hu : Odd u) (i : ℕ) : Odd (u * (2 * i + 1)) := hu.mul ⟨i, rfl⟩

theorem galoisLookupTable_spec (hN : Nat.Coprime 5 (2 * N)) : ∃ w table, Odd w ∧ 5 * w ≡ 1 [MOD 2 * N] ∧
    galoisLookupTable N = some table ∧ ∀ k : Fin N, table[k] = (moveSlot N w k).val := by
  obtain ⟨w, hw, h5, hinv⟩ := exists_inv_five hN
  refine ⟨w, _, hw, h5, by rw [galoisLookupTable, hinv]; rfl, fun k => ?_⟩
  have h2 := two_slotIndex_add_one (N := N) (odd_mul_two_add_one hw k)
  simp only [Positions.getElem_pos, Vector.getElem_ofFn, ← Nat.cast_mul, val_natCast_two_mul, moveSlot]
  omega

/-! ## Both halves -/

/-- What one online loop reads of a database: the digits and the elements of
`L` rounds. -/
structure LoopSlices (r : Roots) (innerProdGk : Vector CompressedSlices 2) (te : CompressedSlices)
    (L : ℕ) (D : Fin 8 → ℕ → Fin 2 → CipherRing N) (T : Fin 8 → ℕ → CipherRing N) : Prop where
  gkLen : ∀ k : Fin 2, CompressedSlices.hasLen innerProdGk[k] (N * L)
  teLen : CompressedSlices.hasLen te (N * L)
  digits : ∀ i < L, ∀ k : Fin 2, Stored r innerProdGk[k] i fun c => D c i k
  entries : ∀ i < L, Stored r te i fun c => T c i

theorem toCompressedSimdElement_spec (hfm : fm.Correct) (h : DbOk db r) (els : Fin 8 → CipherRing N) :
    ∃ x, toCompressedSimdElement fm db els = some x ∧ CompressedRep r x els := by
  obtain ⟨x, he, hx⟩ := toSimdElement_spec hfm h els
  exact ⟨compressRNS x, by simp [toCompressedSimdElement, he, compressRNS], hx.uncompress_compress⟩

theorem roundsFit0 : RoundsFit rnsBase0 reduceEveryIterations := by unfold RoundsFit; decide

theorem roundsFit1 : RoundsFit rnsBase1 reduceEveryIterations := by unfold RoundsFit; decide

section Online
variable {L : ℕ} {D : Fin 8 → ℕ → Fin 2 → CipherRing N} {T : Fin 8 → ℕ → CipherRing N}
  {G : Fin 8 → Fin 2 → CipherRing N} {Q : Fin 8 → CipherRing N}
    {innerProdGk : Vector CompressedSlices 2}
  {te : CompressedSlices} {qryB : CompressedRNSEl N} {gkB : Vector (CompressedRNSEl N) 2}

/-- Both residue rings of one online loop. -/
theorem runKernels_run (hz0 : r.zinv0 ^ N = -1) (hz1 : r.zinv1 ^ N = -1) (hdvd : N % 16 = 0)
    (hN : 16 ≤ N) (hw : Odd w) (h5 : 5 * w ≡ 1 [MOD 2 * N])
    (ht : ∀ k : Fin N, table[k] = (moveSlot N w k).val) (hq : CompressedRep r qryB Q)
    (hg : ∀ k : Fin 2, CompressedRep r gkB[k] fun c => G c k)
    (hs : LoopSlices r innerProdGk te db.indexGroup.loopLen D T) :
    ∃ sum, runKernels db table qryB gkB innerProdGk te = some sum ∧
      LazyAfter rnsBase0 red0 hz0 db.indexGroup.loopLen sum.fst
        (fun i c => sigma (bRec (D c) (T c) (G c) (Q c) i)) ∧
      LazyAfter rnsBase1 red1 hz1 db.indexGroup.loopLen sum.snd fun i c =>
        sigma (bRec (D c) (T c) (G c) (Q c) i) := by
  have chunk0 : ∀ {s : CompressedSlices} {i : ℕ} {f : Fin 8 → CipherRing N}, Stored r s i f →
      ChunkSlots rnsBase0 red0 r.zinv0 s.fst i f := fun ⟨v0, _, e0, _, hf⟩ => ⟨v0, e0, hf.fst⟩
  have chunk1 : ∀ {s : CompressedSlices} {i : ℕ} {f : Fin 8 → CipherRing N}, Stored r s i f →
      ChunkSlots rnsBase1 red1 r.zinv1 s.snd i f := fun ⟨_, v1, _, e1, hf⟩ => ⟨v1, e1, hf.snd⟩
  obtain ⟨s0, e0, h0⟩ := runKernel_run (Z := rnsBase0) (D := D) (T := T) (G := G) (Q := Q)
    hz0 hdvd hN roundsFit0 hw h5 ht
    ⟨(hg 0).fst, (hg 1).fst, hq.fst, fun i hi => chunk0 (hs.digits i hi 0),
      fun i hi => chunk0 (hs.digits i hi 1), fun i hi => chunk0 (hs.entries i hi), hs.teLen.1.symm,
      (hs.gkLen 0).1.symm, (hs.gkLen 1).1.symm⟩
  obtain ⟨s1, e1, h1⟩ := runKernel_run (Z := rnsBase1) (D := D) (T := T) (G := G) (Q := Q)
    hz1 hdvd hN roundsFit1 hw h5 ht
    ⟨(hg 0).snd, (hg 1).snd, hq.snd, fun i hi => chunk1 (hs.digits i hi 0),
      fun i hi => chunk1 (hs.digits i hi 1), fun i hi => chunk1 (hs.entries i hi), hs.teLen.2.symm,
      (hs.gkLen 0).2.symm, (hs.gkLen 1).2.symm⟩
  refine ⟨⟨s0, s1⟩, ?_, h0, h1⟩
  simp only [Fin.isValue, Positions.getElem_pos, Fin.val_zero, Fin.val_one] at e0 e1
  simp [runKernels, e0, e1]

/-- After an even number of rounds both accumulators are reduced. -/
theorem runKernels_spec (hz0 : r.zinv0 ^ N = -1) (hz1 : r.zinv1 ^ N = -1) (hdvd : N % 16 = 0)
    (hN : 16 ≤ N) (heven : db.indexGroup.loopLen % 2 = 0) (hw : Odd w) (h5 : 5 * w ≡ 1 [MOD 2 * N])
    (ht : ∀ k : Fin N, table[k] = (moveSlot N w k).val) (hq : CompressedRep r qryB Q)
    (hg : ∀ k : Fin 2, CompressedRep r gkB[k] fun c => G c k)
    (hs : LoopSlices r innerProdGk te db.indexGroup.loopLen D T) :
    ∃ sum, runKernels db table qryB gkB innerProdGk te = some sum ∧
      LazyRNS hz0 hz1 (rnsBase0.modulus - 1) (rnsBase1.modulus - 1) sum
        fun c => sigma (bRec (D c) (T c) (G c) (Q c) db.indexGroup.loopLen) := by
  obtain ⟨sum, he, h0, h1⟩ := runKernels_run hz0 hz1 hdvd hN hw h5 ht hq hg hs
  rw [LazyAfter, if_pos heven] at h0 h1
  exact ⟨sum, he, h0, h1⟩

/-- After an odd number they are one round behind. -/
theorem runKernels_odd (hz0 : r.zinv0 ^ N = -1) (hz1 : r.zinv1 ^ N = -1) (hdvd : N % 16 = 0)
    (hN : 16 ≤ N) (hodd : db.indexGroup.loopLen % 2 = 1) (hw : Odd w) (h5 : 5 * w ≡ 1 [MOD 2 * N])
    (ht : ∀ k : Fin N, table[k] = (moveSlot N w k).val) (hq : CompressedRep r qryB Q)
    (hg : ∀ k : Fin 2, CompressedRep r gkB[k] fun c => G c k)
    (hs : LoopSlices r innerProdGk te db.indexGroup.loopLen D T) :
    ∃ sum B0 B1, runKernels db table qryB gkB innerProdGk te = some sum ∧
      LazyRNS hz0 hz1 B0 B1 sum fun c =>
        sigma (bRec (D c) (T c) (G c) (Q c) (db.indexGroup.loopLen - 1)) := by
  obtain ⟨sum, he, h0, h1⟩ := runKernels_run hz0 hz1 hdvd hN hw h5 ht hq hg hs
  rw [LazyAfter, if_neg (by omega)] at h0 h1
  obtain ⟨B0, h0⟩ := h0
  obtain ⟨B1, h1⟩ := h1
  exact ⟨sum, B0, B1, he, h0, h1⟩

end Online

/-- The `a`-parts of the Galois keys. -/
def gkA (fm : FeanorMath) (useSeeds : UsedSeeds) (k : Fin 2) : CipherRing N :=
  expand fm useSeeds.getGkSeeds[k]

/-- The `a`-parts of the query and of its conjugate. -/
def qryA (fm : FeanorMath) (useSeeds : UsedSeeds) (k : Fin 2) : CipherRing N :=
  expand fm useSeeds.getQrySeeds[k]

theorem RNSRep.addRNS {x y : RNSEl N} {f g : Fin 8 → CipherRing N} (hx : RNSRep r x f)
    (hy : RNSRep r y g) :
    RNSRep r (addRNS x y) (f + g) where
  fst := by
    simp only [Pi.add_apply, map_add]
    exact hx.fst.add hy.fst fun _ => rfl
  snd := by
    simp only [Pi.add_apply, map_add]
    exact hx.snd.add hy.snd fun _ => rfl

section Preprocess
variable {T TC : Fin 8 → ℕ → CipherRing N}

/-- One offline loop, in the terms of the online one. -/
theorem preprocessLoop_slices (hfm : fm.Correct) (h : DbOk db r) (hN : Nat.Coprime 5 (2 * N))
    {gk : Vector (RNSEl N) 2} (hgk : ∀ k : Fin 2, RNSRep r gk[k] fun _ => gkA fm db.useSeeds k)
    {qry : RNSEl N} {qa : CipherRing N} (hqa : RNSRep r qry fun _ => qa)
    {innerProdGk : Vector CompressedSlices 2}
    (hlen : ∀ k : Fin 2, CompressedSlices.hasLen innerProdGk[k] (N * db.indexGroup.loopLen))
    {te : CompressedSlices} (hslices : CompressedSlices.hasLen te (N * db.indexGroup.loopLen))
    (hte : ∀ i < db.indexGroup.loopLen, Stored r te i fun c => T c i) :
    ∃ s, preprocessLoop fm db qry gk innerProdGk te = some s ∧
      (RNSRep r s.1 fun c => aRec (gkA fm db.useSeeds) qa (T c) db.indexGroup.loopLen) ∧
      LoopSlices r s.2 te db.indexGroup.loopLen (fun c => digits (gkA fm db.useSeeds) qa (T c)) T := by
  obtain ⟨s, he, hs⟩ := preprocessLoop_spec hfm h hN hgk hqa hlen hslices hte
  exact ⟨s, he, hs.sum, hs.len, hslices, hs.digits, hte⟩

/-- **`preprocess`** succeeds, and stores the `a`-part of the reply and the
digits of both loops. -/
theorem preprocess_spec (hfm : fm.Correct) (h : DbOk db r) (hs : DbShape db)
    (hN : Nat.Coprime 5 (2 * N))
    (hte : ∀ i < db.indexGroup.loopLen, Stored r db.transformedEntries i fun c => T c i)
    (htc : db.indexGroup.requiresConj → ∀ i < db.indexGroup.loopLen,
      Stored r db.transformedEntriesConj i fun c => TC c i) :
    ∃ sum gk gkConj, preprocess fm db =
        some { db with replyA := some sum, innerProdGk := gk, innerProdConjGk := gkConj } ∧
      (RNSRep r sum fun c => aRec (gkA fm db.useSeeds) (qryA fm db.useSeeds 0)
        (T c) db.indexGroup.loopLen +
        if db.indexGroup.requiresConj then aRec (gkA fm db.useSeeds) (qryA fm db.useSeeds 1)
          (TC c) db.indexGroup.loopLen else 0) ∧
      LoopSlices r gk db.transformedEntries db.indexGroup.loopLen
        (fun c => digits (gkA fm db.useSeeds) (qryA fm db.useSeeds 0) (T c)) T ∧
      (db.indexGroup.requiresConj → LoopSlices r gkConj db.transformedEntriesConj db.indexGroup.loopLen
        (fun c => digits (gkA fm db.useSeeds) (qryA fm db.useSeeds 1) (TC c)) TC) := by
  obtain ⟨gk0, eg0, hg0⟩ := toSimdElement_spec hfm h fun _ => expand fm db.useSeeds.getGkSeeds[0]
  obtain ⟨gk1, eg1, hg1⟩ := toSimdElement_spec hfm h fun _ => expand fm db.useSeeds.getGkSeeds[1]
  obtain ⟨qry, eq, hq⟩ := toSimdElement_spec hfm h fun _ => expand fm db.useSeeds.getQrySeeds[0]
  obtain ⟨qryConj, eqc, hqc⟩ := toSimdElement_spec hfm h fun _ => expand fm db.useSeeds.getQrySeeds[1]
  have hgk : ∀ k : Fin 2, RNSRep r (#v[gk0, gk1])[k] fun _ => gkA fm db.useSeeds k := fun k => by
    fin_cases k
    · exact hg0
    · exact hg1
  obtain ⟨s, e, hsum, hsl⟩ := preprocessLoop_slices hfm h hN hgk hq hs.gk hs.te hte
  by_cases hc : db.indexGroup.requiresConj
  · obtain ⟨sc, ec, hsumc, hslc⟩ :=
      preprocessLoop_slices hfm h hN hgk hqc (hs.gkConj hc) (hs.teConj hc) (htc hc)
    refine ⟨addRNS s.1 sc.1, s.2, sc.2, ?_, ?_, hsl, fun _ => hslc⟩
    · simp [preprocess, -Positions.getElem_pos, eg0, eg1, eq, eqc, e, ec, hc]
    · simp only [hc, if_true]
      exact hsum.addRNS hsumc
  · refine ⟨s.1, s.2, db.innerProdConjGk, ?_, ?_, hsl, fun h' => absurd h' hc⟩
    · simp [preprocess, -Positions.getElem_pos, eg0, eg1, eq, e, hc]
    · simp only [hc, Bool.false_eq_true, if_false, add_zero]
      exact hsum

end Preprocess

section Split
variable {D DC : Fin 8 → ℕ → Fin 2 → CipherRing N} {T TC : Fin 8 → ℕ → CipherRing N}

/-- The Galois keys of a query. -/
def PIRDatabase.QueryRef.gk (query : QueryRef N) (k : Fin 2) : CipherRing N := query.gkB[k]

/-- The `b`-part of a reply, before the last automorphism is taken into
account: one loop, or two. -/
def replyB (g : IndexGroup N) (D DC : ℕ → Fin 2 → CipherRing N) (T TC : ℕ → CipherRing N)
    (query : QueryRef N) : CipherRing N :=
  bRec D T query.gk query.qryB g.loopLen +
    if g.requiresConj then bRec DC TC query.gk (query.qryConjB.getD 0) g.loopLen else 0

omit [NeZero N] in
theorem conjQueries_spec {queries : Fin 8 → QueryRef N} (h : ∀ c, (queries c).qryConjB.isSome) :
    ∃ qc, conjQueries queries = some qc ∧ ∀ c, qc c = (queries c).qryConjB.getD 0 := by
  obtain ⟨qs, he, hq⟩ := Loops.ofFnM_some (P := fun i x => x = (queries i).qryConjB.getD 0) (fun i => by
    obtain ⟨x, hx⟩ := Option.isSome_iff_exists.mp (h i)
    exact ⟨x, hx, by simp [hx]⟩)
  exact ⟨fun c => qs[c], by simp [conjQueries, he], hq⟩

/-- **`perform_pir_split`** on stored digits: lane `c` of the reply is the
`b`-part for the query of lane `c`. -/
theorem performPirSplit_spec (hfm : fm.Correct) (h : DbOk db r) (hdvd : N % 16 = 0) (hN : 16 ≤ N)
    (h5 : Nat.Coprime 5 (2 * N)) (heven : db.indexGroup.loopLen % 2 = 0)
    (hs : LoopSlices r db.innerProdGk db.transformedEntries db.indexGroup.loopLen D T)
    (hsc : db.indexGroup.requiresConj →
      LoopSlices r db.innerProdConjGk db.transformedEntriesConj db.indexGroup.loopLen DC TC)
    {queries : Fin 8 → QueryRef N}
    (hq : db.indexGroup.requiresConj → ∀ c, (queries c).qryConjB.isSome) :
    performPirSplit fm db queries = some fun c =>
      replyB db.indexGroup (D c) (DC c) (T c) (TC c) (queries c) := by
  obtain ⟨w, table, hw, h5w, etable, ht⟩ := galoisLookupTable_spec h5
  obtain ⟨q, eq, hqr⟩ := toCompressedSimdElement_spec hfm h fun i => (queries i).qryB
  obtain ⟨g0, eg0, hg0⟩ := toCompressedSimdElement_spec hfm h fun i => (queries i).gkB[0]
  obtain ⟨g1, eg1, hg1⟩ := toCompressedSimdElement_spec hfm h fun i => (queries i).gkB[1]
  have hg : ∀ k : Fin 2, CompressedRep r (#v[g0, g1])[k] fun c => (queries c).gk k := fun k => by
    fin_cases k
    · exact hg0
    · exact hg1
  have hz0 := h.ok0.pow_N
  have hz1 := h.ok1.pow_N
  obtain ⟨sum, es, hsum⟩ :=
    runKernels_spec (G := fun c => (queries c).gk) hz0 hz1 hdvd hN heven hw h5w ht hqr hg hs
  by_cases hc : db.indexGroup.requiresConj
  · obtain ⟨qc, eqc, hqc⟩ := conjQueries_spec (hq hc)
    obtain ⟨qryConj, eqcs, hqcr⟩ := toCompressedSimdElement_spec hfm h qc
    obtain ⟨sumc, esc, hsumc⟩ :=
      runKernels_spec (G := fun c => (queries c).gk) hz0 hz1 hdvd hN heven hw h5w ht
      hqcr hg (hsc hc)
    have hadd := hsum.addRaw hsumc (by decide) (by decide)
    have hfin := finishSum_spec hfm h hw h5w ht (x := addRaw sum sumc)
      (f := fun c => replyB db.indexGroup (D c) (DC c) (T c) (TC c) (queries c)) (by
        simp only [replyB, hc, if_true, sigma_add]
        simp only [hqc] at hadd
        exact hadd)
    simp [performPirSplit, -Positions.getElem_pos, eq, eg0, eg1, etable, es, hc, eqc, eqcs, esc, hfin]
  · have hfin := finishSum_spec hfm h hw h5w ht (x := sum)
      (f := fun c => replyB db.indexGroup (D c) (DC c) (T c) (TC c) (queries c)) (by
        simpa only [replyB, hc, if_false, Bool.false_eq_true, add_zero] using hsum)
    simp [performPirSplit, -Positions.getElem_pos, eq, eg0, eg1, etable, es, hc, hfin]

/-- A group of odd order has no conjugates. The sum that is read is one round
behind, but the call returns. -/
theorem performPirSplit_odd (hfm : fm.Correct) (h : DbOk db r) (hdvd : N % 16 = 0) (hN : 16 ≤ N)
    (h5 : Nat.Coprime 5 (2 * N)) (hodd : db.indexGroup.loopLen % 2 = 1)
    (hc : ¬db.indexGroup.requiresConj)
    (hs : LoopSlices r db.innerProdGk db.transformedEntries db.indexGroup.loopLen D T)
    (queries : Fin 8 → QueryRef N) :
    performPirSplit fm db queries = some fun c =>
      bRec (D c) (T c) (queries c).gk (queries c).qryB (db.indexGroup.loopLen - 1) := by
  obtain ⟨w, table, hw, h5w, etable, ht⟩ := galoisLookupTable_spec h5
  obtain ⟨q, eq, hqr⟩ := toCompressedSimdElement_spec hfm h fun i => (queries i).qryB
  obtain ⟨g0, eg0, hg0⟩ := toCompressedSimdElement_spec hfm h fun i => (queries i).gkB[0]
  obtain ⟨g1, eg1, hg1⟩ := toCompressedSimdElement_spec hfm h fun i => (queries i).gkB[1]
  have hg : ∀ k : Fin 2, CompressedRep r (#v[g0, g1])[k] fun c => (queries c).gk k := fun k => by
    fin_cases k
    · exact hg0
    · exact hg1
  obtain ⟨sum, _, _, es, hsum⟩ :=
    runKernels_odd (G := fun c => (queries c).gk) h.ok0.pow_N h.ok1.pow_N hdvd hN hodd
    hw h5w ht hqr hg hs
  have hfin := finishSum_spec hfm h hw h5w ht hsum
  simp [performPirSplit, -Positions.getElem_pos, eq, eg0, eg1, etable, es, hc, hfin]

end Split

end Dnspir
