/-
What the memory of a database held before does not matter.

* `create_tiles`, `create_slots`: the slices are consecutive pieces of the
  whole memory, with every slot in exactly one.
* `setTransformedEntries_rel`, `preprocess_eq`: the first writes every stored
  element without reading one; the second reads those elements only, and
  writes all digits.
* `setDb_memory`: the state after `set_db`, and with it the replies of the
  two-level scheme over a reused buffer, are those of fresh memory.
-/
import Dnspir.DoublePir
import Dnspir.FeanorMathFacts
import Dnspir.Lib.Tiles
import Dnspir.PreprocessFacts

namespace Dnspir

open SpecialZnx8 PIRDatabase Tiling

variable {N t : ℕ}

/-! ## Memory that agrees so far -/

/-- Two arrays of `size` elements with the same first `m`. -/
def AgreeTo (size m : ℕ) (a b : Array CompressedZnx8El) : Prop :=
  a.size = size ∧ b.size = size ∧ ∀ i < m, a[i]? = b[i]?

def SlicesAgree (size m : ℕ) (s s' : CompressedSlices) : Prop :=
  AgreeTo size m s.fst s'.fst ∧ AgreeTo size m s.snd s'.snd

variable {size m m' k : ℕ} {a b : Array CompressedZnx8El} {s s' : CompressedSlices}

theorem AgreeTo.mono (h : AgreeTo size m a b) (hm : m' ≤ m) : AgreeTo size m' a b :=
  ⟨h.1, h.2.1, fun i hi => h.2.2 i (by omega)⟩

theorem AgreeTo.eq (h : AgreeTo size m a b) (hm : size ≤ m) : a = b := by
  obtain ⟨ha, hb, he⟩ := h
  refine Array.ext_getElem? fun i => ?_
  by_cases hi : i < m
  · exact he i hi
  · rw [Array.getElem?_eq_none (by omega), Array.getElem?_eq_none (by omega)]

theorem AgreeTo.refl (h : a.size = size) : AgreeTo size m a a := ⟨h, h, fun _ _ => rfl⟩

/-- Writing the next chunk to both. -/
theorem AgreeTo.writeChunk (h : AgreeTo size (k * N) a b) (v : Vector CompressedZnx8El N) :
    AgreeTo size ((k + 1) * N) (writeChunk a k v) (writeChunk b k v) := by
  refine ⟨by rw [size_writeChunk, h.1], by rw [size_writeChunk, h.2.1], fun i hi => ?_⟩
  rw [add_mul, one_mul] at hi
  rw [getElem?_writeChunk, getElem?_writeChunk, h.1, h.2.1]
  split
  next => rfl
  next hin => exact h.2.2 i (by omega)

theorem SlicesAgree.mono (h : SlicesAgree size m s s') (hm : m' ≤ m) : SlicesAgree size m' s s' :=
  ⟨h.1.mono hm, h.2.mono hm⟩

theorem SlicesAgree.eq (h : SlicesAgree size m s s') (hm : size ≤ m) : s = s' :=
  congrArg₂ CompressedSlices.mk (h.1.eq hm) (h.2.eq hm)

theorem SlicesAgree.refl (h : CompressedSlices.hasLen s size) : SlicesAgree size m s s :=
  ⟨.refl h.1, .refl h.2⟩

theorem SlicesAgree.writeChunk (h : SlicesAgree size (k * N) s s') (v : CompressedRNSEl N) :
    SlicesAgree size ((k + 1) * N) (CompressedSlices.writeChunk s k v)
      (CompressedSlices.writeChunk s' k v) :=
  ⟨h.1.writeChunk v.fst, h.2.writeChunk v.snd⟩

/-- All is agreed on already. -/
theorem SlicesAgree.of_full (h : SlicesAgree size m s s') (hm : size ≤ m) :
    SlicesAgree size m' s s' := by
  obtain rfl := h.eq hm
  exact .refl ⟨h.1.1, h.2.1⟩

/-! ## Databases that differ in their slices -/

/-- The elements of a slice that exists for the conjugate only. -/
def conjSize (g : IndexGroup N) : ℕ := if g.requiresConj then N * g.loopLen else 0

/-- Databases that differ in the contents of their slices only. -/
structure SameShape (db db' : PIRDatabase N t) : Prop where
  rest : db' = { db with
    transformedEntries := db'.transformedEntries
    transformedEntriesConj := db'.transformedEntriesConj
    innerProdGk := db'.innerProdGk
    innerProdConjGk := db'.innerProdConjGk }
  te : SlicesAgree (N * db.indexGroup.loopLen) 0 db.transformedEntries db'.transformedEntries
  teConj : SlicesAgree (conjSize db.indexGroup) 0 db.transformedEntriesConj db'.transformedEntriesConj
  gk : ∀ k : Fin 2, SlicesAgree (N * db.indexGroup.loopLen) 0 db.innerProdGk[k] db'.innerProdGk[k]
  gkConj : ∀ k : Fin 2, SlicesAgree
    (conjSize db.indexGroup) 0 db.innerProdConjGk[k] db'.innerProdConjGk[k]

/-! ## Storing the entries -/

/-- The two halves of a table after `k` columns. -/
def StoreAgree (N L sizeConj k : ℕ) (s s' : CompressedSlices × CompressedSlices) : Prop :=
  SlicesAgree (N * L) (k * N) s.1 s'.1 ∧ SlicesAgree sizeConj ((k - L) * N) s.2 s'.2

theorem StoreAgree.storeColumn {L sizeConj : ℕ} (hN : 0 < N)
    {s s' : CompressedSlices × CompressedSlices} (h : StoreAgree N L sizeConj k s s')
    (v : CompressedRNSEl N) :
    StoreAgree N L sizeConj (k + 1) (storeColumn s k v) (storeColumn s' k v) := by
  have hs : s.1.fst.size / N = L := by rw [h.1.1.1, Nat.mul_div_cancel_left _ hN]
  have hs' : s'.1.fst.size / N = L := by rw [h.1.1.2.1, Nat.mul_div_cancel_left _ hN]
  rw [PIRDatabase.storeColumn, PIRDatabase.storeColumn, hs, hs']
  split
  next hk => exact ⟨h.1.writeChunk v, h.2.mono (Nat.mul_le_mul_right N (by omega))⟩
  next hk =>
    refine ⟨h.1.of_full (mul_comm N L ▸ Nat.mul_le_mul_right N (by omega)), ?_⟩
    rw [show k + 1 - L = k - L + 1 by omega]
    exact h.2.writeChunk v

/-- All columns fill both halves. -/
theorem columns_fill (g : IndexGroup N) :
    N * g.loopLen ≤ g.groupOrder * N ∧ conjSize g ≤ (g.groupOrder - g.loopLen) * N := by
  unfold conjSize
  obtain ⟨hc, ho, hl⟩ | ⟨hc, -, hl⟩ := groupOrder_cases g
  · rw [if_pos hc, ho, hl, mul_comm N (N / 2)]
    exact ⟨Nat.mul_le_mul_right N (by omega), Nat.mul_le_mul_right N (by omega)⟩
  · rw [if_neg hc, hl, mul_comm]
    exact ⟨le_rfl, Nat.zero_le _⟩

/-- **`set_transformed_entries` writes every stored element**, whatever the
slices held. -/
theorem setTransformedEntries_rel (hN : 0 < N) (fm : FeanorMath) {db db' : PIRDatabase N t}
    (h : SameShape db db') (entries : List (PlainRing t N)) :
    Option.Rel (fun e e' => SameShape e e' ∧ e.transformedEntries = e'.transformedEntries ∧
      e.transformedEntriesConj = e'.transformedEntriesConj)
      (setTransformedEntries fm db entries) (setTransformedEntries fm db' entries) := by
  obtain ⟨hrest, hte, hteConj, hgk, hgkConj⟩ := h
  rw [hrest]
  simp only [setTransformedEntries, Option.bind_eq_bind]
  split
  next =>
    refine Loops.rel_bind (R := Eq) Loops.rel_refl fun result _ he => ?_
    subst he
    refine Loops.rel_bind (R := Eq) Loops.rel_refl fun scale _ he => ?_
    subst he
    refine Loops.rel_bind (R := Eq) Loops.rel_refl fun columns _ he => ?_
    subst he
    have hs := Loops.foldl_finRange_rel
      (R := StoreAgree N db.indexGroup.loopLen (conjSize db.indexGroup))
      (f := fun s (k : Fin db.indexGroup.groupOrder) => storeColumn s k columns[k])
      (g := fun s (k : Fin db.indexGroup.groupOrder) => storeColumn s k columns[k])
      (b := (db.transformedEntries, db.transformedEntriesConj))
      (c := (db'.transformedEntries, db'.transformedEntriesConj))
      ⟨by simpa using hte, by simpa using hteConj⟩ fun k s s' hs => hs.storeColumn hN columns[k]
    obtain ⟨hfill, hfillConj⟩ := columns_fill db.indexGroup
    have h1 := hs.1.eq hfill
    have h2 := hs.2.eq hfillConj
    exact .some ⟨⟨rfl, hs.1.mono (Nat.zero_le _), hs.2.mono (Nat.zero_le _), hgk, hgkConj⟩, h1, h2⟩
  next => exact .none

/-! ## Preprocessing -/

/-- The digits a slice held before do not enter. -/
theorem preprocessLoop_eq (fm : FeanorMath) (db : PIRDatabase N t) (qryA : RNSEl N)
    (gkA : Vector (RNSEl N) 2) (te : CompressedSlices) {gk gk' : Vector CompressedSlices 2}
    (h : ∀ k : Fin 2, SlicesAgree (N * db.indexGroup.loopLen) 0 gk[k] gk'[k]) :
    preprocessLoop fm db qryA gkA gk te = preprocessLoop fm db qryA gkA gk' te := by
  have hlen : ∀ k : Fin 2, CompressedSlices.hasLen gk[k] (N * db.indexGroup.loopLen) := fun k =>
    ⟨(h k).1.1, (h k).2.1⟩
  have hlen' : ∀ k : Fin 2, CompressedSlices.hasLen gk'[k] (N * db.indexGroup.loopLen) := fun k =>
    ⟨(h k).1.2.1, (h k).2.2.1⟩
  simp only [preprocessLoop, hlen, hlen', true_and]
  split
  next =>
    have hrun := Loops.foldlM_finRange_rel (n := db.indexGroup.loopLen)
      (f := fun s i => preprocessStep fm db qryA gkA te s i.val)
        (g := fun s i => preprocessStep fm db qryA gkA te s i.val)
      (R := fun i s s' => s.1 = s'.1 ∧
        ∀ k : Fin 2, SlicesAgree (N * db.indexGroup.loopLen) (i * N) s.2[k] s'.2[k])
      (b := (zeroRNS, gk)) (c := (zeroRNS, gk')) ⟨rfl, fun k => by simpa using h k⟩ ?_
    · refine Loops.eq_of_rel hrun fun x y hR => Prod.ext hR.1 (Vector.ext fun k hk => ?_)
      exact (hR.2 ⟨k, hk⟩).eq (mul_comm N _).le
    · rintro i ⟨sum, v⟩ ⟨_, v'⟩ ⟨rfl, hv⟩
      simp only [preprocessStep, Option.bind_eq_bind]
      refine Loops.rel_bind (R := Eq) Loops.rel_refl fun p _ he => ?_
      subst he
      refine Loops.rel_bind (R := Eq) Loops.rel_refl fun te0 _ he => ?_
      subst he
      refine Loops.rel_bind (R := Eq) Loops.rel_refl fun te1 _ he => ?_
      subst he
      refine .some ⟨rfl, fun k => ?_⟩
      fin_cases k
      · exact (hv 0).writeChunk _
      · exact (hv 1).writeChunk _
  next => rfl

/-- **`preprocess` reads the stored entries only.** -/
theorem preprocess_eq (fm : FeanorMath) {db db' : PIRDatabase N t} (h : SameShape db db')
    (hte : db.transformedEntries = db'.transformedEntries)
    (hteConj : db.transformedEntriesConj = db'.transformedEntriesConj) :
    preprocess fm db = preprocess fm db' := by
  obtain ⟨hrest, -, -, hgk, hgkConj⟩ := h
  have hsimd : ∀ els, toSimdElement fm db' els = toSimdElement fm db els :=
    fun els => by rw [hrest]; rfl
  have hloop : ∀ qryA gkA gk te, preprocessLoop fm db' qryA gkA gk te =
      preprocessLoop fm db qryA gkA gk te :=
    fun qryA gkA gk te => by rw [hrest]; rfl
  have hseeds : db'.useSeeds = db.useSeeds := by rw [hrest]
  have hgroup : db'.indexGroup = db.indexGroup := by rw [hrest]
  have htables : db'.lenNNtts = db.lenNNtts ∧ db'.lenSubgroupOrderNtts = db.lenSubgroupOrderNtts ∧
      db'.zeta = db.zeta := by
    rw [hrest]
    exact ⟨rfl, rfl, rfl⟩
  have hmain := fun qryA gkA te => preprocessLoop_eq fm db qryA gkA te hgk
  simp only [preprocess, hsimd, hloop, hseeds, hgroup, htables.1, htables.2.1, htables.2.2, ← hte,
    ← hteConj, ← hmain]
  by_cases hc : db.indexGroup.requiresConj
  · have hsize : conjSize db.indexGroup = N * db.indexGroup.loopLen := if_pos hc
    rw [hsize] at hgkConj
    have hconj := fun qryA gkA te => preprocessLoop_eq fm db qryA gkA te hgkConj
    simp only [if_pos hc, ← hconj]
  · have hsize : conjSize db.indexGroup = 0 := if_neg hc
    have hsame : db.innerProdConjGk = db'.innerProdConjGk := Vector.ext fun k hk =>
      (hgkConj ⟨k, hk⟩).eq hsize.le
    simp only [if_neg hc, ← hsame]

/-! ## Carving the memory -/

/-- Two carvings in step. -/
def CarveAgree (size : ℕ) (x x' : CompressedSlices × Array CompressedZnx8El) : Prop :=
  SlicesAgree size 0 x.1 x'.1 ∧ x.2.size = x'.2.size

theorem getCompressedZnx8El_rel (size : ℕ) {m m' : Array CompressedZnx8El} (h : m.size = m'.size) :
    Option.Rel (fun x x' => AgreeTo size 0 x.1 x'.1 ∧ x.2.size = x'.2.size) (getCompressedZnx8El size m)
      (getCompressedZnx8El size m') := by
  simp only [getCompressedZnx8El, h]
  split
  next hle =>
    refine .some ⟨⟨?_, ?_, fun i hi => absurd hi (Nat.not_lt_zero i)⟩, ?_⟩ <;>
      simp only [Array.size_extract] <;> omega
  next => exact .none

theorem getSlices_rel (size : ℕ) {m m' : Array CompressedZnx8El} (h : m.size = m'.size) :
    Option.Rel (CarveAgree size) (getSlices size m) (getSlices size m') := by
  refine Loops.rel_bind (getCompressedZnx8El_rel size h) fun x x' hx => ?_
  exact Loops.rel_bind (getCompressedZnx8El_rel size hx.2) fun y y' hy => .some ⟨⟨hx.1, hy.1⟩, hy.2⟩

theorem getConjSlices_rel (g : IndexGroup N) {m m' : Array CompressedZnx8El} (h : m.size = m'.size) :
    Option.Rel (CarveAgree (conjSize g)) (getConjSlices g (N * g.loopLen) m)
      (getConjSlices g (N * g.loopLen) m') := by
  unfold getConjSlices conjSize
  split
  · exact getSlices_rel _ h
  · exact .some ⟨.refl ⟨rfl, rfl⟩, h⟩

/-- **`create` looks at the length of the memory only.** -/
theorem create_rel (fm : FeanorMath) (t : ℕ) (g : IndexGroup N) (useSeeds : UsedSeeds)
    {m m' : Array CompressedZnx8El} (h : m.size = m'.size) :
    Option.Rel SameShape (create fm t g useSeeds m) (create fm t g useSeeds m') := by
  simp only [create, h, createRnsBase_eq, Option.bind_eq_bind, Option.bind_some]
  split
  next =>
    refine Loops.rel_bind (getSlices_rel _ h) fun te te' hte => ?_
    refine Loops.rel_bind (getConjSlices_rel g hte.2) fun teConj teConj' hteConj => ?_
    refine Loops.rel_bind (getSlices_rel _ hteConj.2) fun gk0 gk0' hgk0 => ?_
    refine Loops.rel_bind (getSlices_rel _ hgk0.2) fun gk1 gk1' hgk1 => ?_
    refine Loops.rel_bind (getConjSlices_rel g hgk1.2) fun gkConj0 gkConj0' hgkConj0 => ?_
    refine Loops.rel_bind (getConjSlices_rel g hgkConj0.2) fun gkConj1 gkConj1' hgkConj1 => ?_
    refine Loops.rel_bind (R := Eq) Loops.rel_refl fun zeta0 _ he => ?_
    subst he
    refine Loops.rel_bind (R := Eq) Loops.rel_refl fun zeta1 _ he => ?_
    subst he
    refine .some ⟨rfl, hte.1, hteConj.1, fun k => ?_, fun k => ?_⟩
    · fin_cases k
      · exact hgk0.1
      · exact hgk1.1
    · fin_cases k
      · exact hgkConj0.1
      · exact hgkConj1.1
  next => exact .none

/-- What is carved next is the next piece. -/
theorem getCompressedZnx8El_tiles {size off : ℕ} {m a rest : Array CompressedZnx8El}
    (hoff : off ≤ m.size) (h : getCompressedZnx8El size (m.extract off m.size) = some (a, rest)) :
    rest = m.extract (off + size) m.size ∧ off + size ≤ m.size ∧
      ∀ pieces, Tiles m (off + size) pieces → Tiles m off (a :: pieces) := by
  simp only [getCompressedZnx8El, Option.ite_none_right_eq_some, Option.some.injEq, Prod.mk.injEq,
    Array.size_extract, Array.extract_extract] at h
  obtain ⟨hle, ha, hrest⟩ := h
  have hle' : off + size ≤ m.size := by omega
  have ha' : a = m.extract off (off + size) := by
    rw [← ha]
    congr 1
    omega
  have hasize : a.size = size := by
    rw [ha', Array.size_extract]
    omega
  refine ⟨?_, hle', fun pieces hp =>
    ⟨by rw [hasize, ha'], by rw [hasize]; exact hle', by rw [hasize]; exact hp⟩⟩
  rw [← hrest]
  congr 1
  omega

theorem getSlices_tiles {size off : ℕ} {m rest : Array CompressedZnx8El} {s : CompressedSlices}
    (hoff : off ≤ m.size) (h : getSlices size (m.extract off m.size) = some (s, rest)) :
    rest = m.extract (off + 2 * size) m.size ∧ off + 2 * size ≤ m.size ∧
      ∀ pieces, Tiles m (off + 2 * size) pieces → Tiles m off (s.fst :: s.snd :: pieces) := by
  simp only [getSlices, bind, StateT.bind, pure, StateT.pure, Option.bind_eq_some_iff,
    Option.some.injEq, Prod.exists, Prod.mk.injEq] at h
  obtain ⟨a, m₁, h1, b, m₂, h2, rfl, rfl⟩ := h
  obtain ⟨rfl, hle1, ht1⟩ := getCompressedZnx8El_tiles hoff h1
  obtain ⟨rfl, hle2, ht2⟩ := getCompressedZnx8El_tiles hle1 h2
  rw [two_mul, ← add_assoc]
  exact ⟨rfl, hle2, fun pieces hp => ht1 _ (ht2 _ hp)⟩

theorem getConjSlices_tiles {g : IndexGroup N} {off : ℕ} {m rest : Array CompressedZnx8El}
    {s : CompressedSlices} (hoff : off ≤ m.size)
    (h : getConjSlices g (N * g.loopLen) (m.extract off m.size) = some (s, rest)) :
    rest = m.extract (off + 2 * conjSize g) m.size ∧ off + 2 * conjSize g ≤ m.size ∧
      ∀ pieces, Tiles m (off + 2 * conjSize g) pieces → Tiles m off (s.fst :: s.snd :: pieces) := by
  rw [getConjSlices] at h
  rw [conjSize]
  split at h
  next hc =>
    rw [if_pos hc]
    exact getSlices_tiles hoff h
  next hc =>
    rw [if_neg hc]
    simp only [pure, StateT.pure, Option.some.injEq, Prod.mk.injEq] at h
    obtain ⟨rfl, rfl⟩ := h
    exact ⟨rfl, hoff, fun pieces hp => ⟨by simp, hoff, ⟨by simp, hoff, hp⟩⟩⟩

/-- The required memory is what the slices take, except for rank 1. -/
theorem requiredMemory_eq (g : IndexGroup N) {n : ℕ} (hN : N = 2 ^ n) (h1 : N ≠ 1) :
    6 * (N * g.loopLen) + 6 * conjSize g = requiredMemoryGeneral g := by
  have hn : n ≠ 0 := by
    rintro rfl
    exact h1 hN
  obtain ⟨k, rfl⟩ := Nat.exists_eq_succ_of_ne_zero hn
  have hhalf : N = 2 * (N / 2) := by
    rw [hN, pow_succ]
    omega
  rw [requiredMemoryGeneral, conjSize, gkDigits]
  obtain ⟨hc, ho, hl⟩ | ⟨hc, -, hl⟩ := groupOrder_cases g
  · rw [if_pos hc, ho, hl]
    nlinarith
  · rw [if_neg hc, hl]
    ring

/-- **The slices tile the memory**: they are its consecutive pieces, from the
first slot to the last. -/
theorem create_tiles {fm : FeanorMath} {g : IndexGroup N} {useSeeds : UsedSeeds}
    {m : Array CompressedZnx8El} {db : PIRDatabase N t} (h : create fm t g useSeeds m = some db)
    (h1 : N ≠ 1) : Tiles m 0 db.slices := by
  simp only [create, createRnsBase_eq, Option.bind_eq_bind, Option.bind_some] at h
  split at h
  next hN =>
    simp only [Option.bind_eq_some_iff, Option.pure_def, Option.some.injEq, Prod.exists] at h
    obtain ⟨te, m₁, hte, teConj, m₂, hteConj, gk0, m₃, hgk0, gk1, m₄, hgk1, gkConj0, m₅, hgkConj0,
      gkConj1, m₆, hgkConj1, zeta0, -, zeta1, -, rfl⟩ := h
    rw [show m = m.extract 0 m.size by simp] at hte
    obtain ⟨rfl, l1, t1⟩ := getSlices_tiles (Nat.zero_le _) hte
    obtain ⟨rfl, l2, t2⟩ := getConjSlices_tiles l1 hteConj
    obtain ⟨rfl, l3, t3⟩ := getSlices_tiles l2 hgk0
    obtain ⟨rfl, l4, t4⟩ := getSlices_tiles l3 hgk1
    obtain ⟨rfl, l5, t5⟩ := getConjSlices_tiles l4 hgkConj0
    obtain ⟨rfl, l6, t6⟩ := getConjSlices_tiles l5 hgkConj1
    refine t1 _ (t2 _ (t3 _ (t4 _ (t5 _ (t6 [] ?_)))))
    have hsize := requiredMemory_eq g hN.1 h1
    rw [hN.2] at hsize
    change _ = m.size
    omega
  next => cases h

/-- The slices are all of the memory, and no two of them share a slot. -/
theorem create_slots {fm : FeanorMath} {g : IndexGroup N} {useSeeds : UsedSeeds}
    {m : Array CompressedZnx8El} {db : PIRDatabase N t} (h : create fm t g useSeeds m = some db)
    (h1 : N ≠ 1) :
    Tiling.join db.slices = m ∧ ∀ idx < m.size, ∃! k : Fin db.slices.length,
      start 0 db.slices k ≤ idx ∧ idx < start 0 db.slices (k + 1) := by
  have ht := create_tiles h h1
  refine ⟨?_, fun idx hidx => ht.existsUnique (Nat.zero_le idx) hidx⟩
  rw [ht.join]
  simp

/-! ## The state after `set_db` -/

theorem setDb_eq (hN : 0 < N) (fm : FeanorMath) {db db' : PIRDatabase N t} (h : SameShape db db')
    (entries : List (PlainRing t N)) : setDb fm db entries = setDb fm db' entries := by
  refine Loops.eq_of_rel (R := Eq)
    (Loops.rel_bind (setTransformedEntries_rel hN fm h entries) fun e e' he => ?_)
    fun _ _ => id
  rw [preprocess_eq fm he.1 he.2.1 he.2.2]
  exact Loops.rel_refl

theorem create_bind_setDb (hN : 0 < N) (fm : FeanorMath) (g : IndexGroup N) (useSeeds : UsedSeeds)
    (entries : List (PlainRing t N)) {m m' : Array CompressedZnx8El} (h : m.size = m'.size) :
    ((create fm t g useSeeds m).bind fun db => setDb fm db entries) =
      (create fm t g useSeeds m').bind fun db => setDb fm db entries := by
  refine Loops.eq_of_rel (R := Eq)
    (Loops.rel_bind (create_rel fm t g useSeeds h) fun db db' hdb => ?_) fun _ _ => id
  rw [setDb_eq hN fm hdb]
  exact Loops.rel_refl

/-- At rank 1 the loop is empty, and the division of `query_base_power` fails. -/
theorem setDb_rank_one {fm : FeanorMath} {db : PIRDatabase N t} {entries : List (PlainRing t N)}
    (h1 : N = 1) :
    setDb fm db entries = none := by
  subst h1
  have hlen : db.indexGroup.loopLen = 0 := by
    have hv := db.indexGroup.valid
    obtain ⟨-, -, hl⟩ | ⟨-, hlt, hl⟩ := groupOrder_cases db.indexGroup
    · exact hl
    · unfold IndexGroup.groupOrder at hlt
      omega
  rw [Option.eq_none_iff_forall_ne_some]
  intro e he
  simp only [setDb, setTransformedEntries, transformEntries, Option.bind_eq_bind] at he
  split at he
  next =>
    split at he
    next =>
      simp only [Option.bind_eq_some_iff] at he
      obtain ⟨-, ⟨-, ⟨r2, -, r3, hrows, -⟩, -⟩, -⟩ := he
      have hrow := Loops.ofFnM_getElem hrows 0
      simp [cosetNtt, hlen] at hrow
    next => simp at he
  next => simp at he

/-! ## The reused buffer -/

open DoublePir

/-- The buffer a call builds its database in has the required length. -/
theorem size_extract_growTo (len : ℕ) (memory : Array CompressedZnx8El) :
    ((growTo len memory).extract 0 len).size = len := by
  rw [growTo]
  split
  next h =>
    rw [Array.size_extract, Array.size_append, Array.size_replicate]
    omega
  next h =>
    rw [Array.size_extract]
    omega

/-- The reply of the second level does not depend on the buffer. -/
theorem secondaryPhase_fst (hN : 0 < N) (fm : FeanorMath) (g : IndexGroup N)
    (entries : List (PlainRing secondaryPlainModulus N)) (queries : Fin 8 → QueryRef N)
    (memory memory' : Array CompressedZnx8El) :
    (secondaryPhase fm g entries queries memory).map Prod.fst =
      (secondaryPhase fm g entries queries memory').map Prod.fst := by
  have hdb := create_bind_setDb hN fm g .secondSet entries
    ((size_extract_growTo (requiredMemoryGeneral g) memory).trans (size_extract_growTo _ memory').symm)
  simp only [secondaryPhase, Option.bind_eq_bind, ← Option.bind_assoc, hdb, Option.map_bind]
  refine congrArg _ (funext fun db => ?_)
  simp only [Function.comp, Option.map_bind]
  rfl

/-- Nor do the replies of a batch. -/
theorem performBatchedDoublePir_fst (hN : 0 < N) (fm : FeanorMath)
    (databases : Vector (List (PIRDatabase N t)) batchCount)
    (queries : Vector (Option (DoubleQueryRef N)) batchCount) (g : IndexGroup N)
    (memory memory' : Array CompressedZnx8El) :
    (performBatchedDoublePir fm databases queries g memory).map Prod.fst =
      (performBatchedDoublePir fm databases queries g memory').map Prod.fst := by
  simp only [performBatchedDoublePir, Option.bind_eq_bind, Option.map_bind]
  refine congrArg _ (funext fun entries => ?_)
  have h := secondaryPhase_fst hN fm g entries (secondaryQuery queries) memory memory'
  simp only [Function.comp, Option.map_bind]
  generalize secondaryPhase fm g entries (secondaryQuery queries) memory = x at h ⊢
  generalize secondaryPhase fm g entries (secondaryQuery queries) memory' = y at h ⊢
  cases x with
  | none =>
    rw [Option.map_none, eq_comm, Option.map_eq_none_iff] at h
    rw [h]
  | some x =>
    cases y with
    | none => cases h
    | some y =>
      simp only [Option.map_some, Option.some.injEq] at h
      simp only [Option.bind_some, h]
      rfl

/-- One call of a worker thread. -/
structure Batch (N t : ℕ) where
  databases : Vector (List (PIRDatabase N t)) batchCount
  queries : Vector (Option (DoubleQueryRef N)) batchCount
  indexGroupSecondary : IndexGroup N

/-- The call, on the buffer of the thread. -/
def Batch.run (fm : FeanorMath) (b : Batch N t) :
    StateT (Array CompressedZnx8El) Option
      (Vector (Option (Vector (CipherRing N × CipherRing N) ctxtParts)) batchCount) :=
  performBatchedDoublePir fm b.databases b.queries b.indexGroupSecondary

/-- The zeroed buffer a call would allocate for itself. -/
def Batch.fresh (b : Batch N t) : Array CompressedZnx8El :=
  growTo (requiredMemoryGeneral b.indexGroupSecondary) #[]

/-- **Memory does not leak.** The state after `set_db` depends on the length of
the memory only; the slices tile the memory, except at rank 1, where `set_db`
does not return; every stored entry is written before `preprocess` reads the
first; and the calls of a thread over one buffer reply as over fresh ones. -/
theorem setDb_memory (fm : FeanorMath) {n : ℕ} (hN : N = 2 ^ n) (g : IndexGroup N)
    (useSeeds : UsedSeeds) (entries : List (PlainRing t N)) {m₁ m₂ : Array CompressedZnx8El}
    (h₁ : m₁.size = requiredMemoryGeneral g) (h₂ : m₂.size = requiredMemoryGeneral g) :
    (((create fm t g useSeeds m₁).bind fun db => setDb fm db entries) =
      (create fm t g useSeeds m₂).bind fun db => setDb fm db entries) ∧
    (∀ db : PIRDatabase N t, create fm t g useSeeds m₁ = some db →
      Tiles m₁ 0 db.slices ∨ N = 1 ∧ setDb fm db entries = none) ∧
    (∀ db₁ db₂ : PIRDatabase N t, create fm t g useSeeds m₁ = some db₁ →
      create fm t g useSeeds m₂ = some db₂ →
      (setTransformedEntries fm db₁ entries).map
        (fun e => (e.transformedEntries, e.transformedEntriesConj)) =
        (setTransformedEntries fm db₂ entries).map fun e =>
          (e.transformedEntries, e.transformedEntriesConj)) ∧
    ∀ (t' : ℕ) (batches : List (Batch N t')) (memory : Array CompressedZnx8El),
      ((batches.mapM (Batch.run fm)) memory).map Prod.fst =
        batches.mapM fun b => (b.run fm b.fresh).map Prod.fst := by
  have hpos : 0 < N := hN ▸ Nat.two_pow_pos n
  refine ⟨create_bind_setDb hpos fm g useSeeds entries (h₁.trans h₂.symm), fun db hdb => ?_,
    fun db₁ db₂ e₁ e₂ => ?_, fun t' batches memory =>
    Loops.mapM_run' (f := Batch.run fm) (g := fun b => (b.run fm b.fresh).map Prod.fst)
      (fun b _ s => ?_) memory⟩
  · by_cases h1 : N = 1
    · exact .inr ⟨h1, setDb_rank_one h1⟩
    · exact .inl (create_tiles hdb h1)
  · have hshape := create_rel fm t g useSeeds (h₁.trans h₂.symm)
    rw [e₁, e₂] at hshape
    cases hshape with
    | some hshape =>
      have hrel := setTransformedEntries_rel hpos fm hshape entries
      generalize setTransformedEntries fm db₁ entries = x at hrel ⊢
      generalize setTransformedEntries fm db₂ entries = y at hrel ⊢
      cases hrel with
      | none => rfl
      | some h => exact congrArg some (Prod.ext h.2.1 h.2.2)
  · exact performBatchedDoublePir_fst hpos fm b.databases b.queries b.indexGroupSecondary s b.fresh

/-- Two contents that differ everywhere. -/
theorem setDb_memory_sixteen :
    ((create FeanorMath.reference 1025 (IndexGroup.fullGroup 16) .firstSet
        (Array.replicate 1536 (Vector.replicate 8 0))).bind
        fun db => setDb FeanorMath.reference db (List.replicate 128 1)) =
      (create FeanorMath.reference 1025 (IndexGroup.fullGroup 16) .firstSet
        (Array.replicate 1536 (Vector.replicate 8 1))).bind
        fun db => setDb FeanorMath.reference db (List.replicate 128 1) :=
  (setDb_memory FeanorMath.reference (n := 4) (by norm_num) (IndexGroup.fullGroup 16) .firstSet
    (List.replicate 128 1)
    (by rw [Array.size_replicate]; rfl) (by rw [Array.size_replicate]; rfl)).1

/-- At rank 1 the slices are empty, but `create` asks for six slots. -/
theorem not_forall_create_tiles :
    ¬∀ (N n : ℕ) (g : IndexGroup N) (m : Array CompressedZnx8El) (db : PIRDatabase N 1025),
    N = 2 ^ n → m.size = requiredMemoryGeneral g →
      create FeanorMath.reference 1025 g .firstSet m = some db →
      Tiles m 0 db.slices := by
  intro hall
  obtain ⟨db, hdb⟩ := create_isSome (t := 1025) FeanorMath.reference_correct
    (IndexGroup.fullGroup 1) .firstSet
    (show 1 = 2 ^ 0 by norm_num) (by decide)
      (show (Array.replicate 6 (Vector.replicate 8 0)).size = _ by rfl)
  obtain ⟨hgroup, -, -, -, -, hshape, -⟩ := create_spec FeanorMath.reference_correct hdb
  have hlen : 1 * db.indexGroup.loopLen = 0 := by rw [hgroup]; decide
  have hconj : db.indexGroup.requiresConj := by rw [hgroup]; decide
  have hsize : ∀ {s : CompressedSlices}, CompressedSlices.hasLen s (1 * db.indexGroup.loopLen) →
      s.fst.size = 0 ∧ s.snd.size = 0 := fun h => by rwa [hlen] at h
  obtain ⟨hte, hte'⟩ := hsize hshape.te
  obtain ⟨htc, htc'⟩ := hsize (hshape.teConj hconj)
  have hgk : ∀ k : Fin 2, _ := fun k => hsize (hshape.gk k)
  have hgkConj : ∀ k : Fin 2, _ := fun k => hsize (hshape.gkConj hconj k)
  rw [Fin.forall_fin_two] at hgk hgkConj
  simp only [Positions.getElem_pos, Fin.val_zero, Fin.val_one] at hgk hgkConj
  have hsix := congrArg Array.size (hall 1 0 _ _ db rfl rfl hdb).join
  rw [size_join] at hsix
  simp [PIRDatabase.slices, hte, hte', htc, htc', hgk, hgkConj] at hsix

end Dnspir
