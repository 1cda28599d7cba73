/-
`preprocess` on ring elements.

`partialGal_spec`: `partial_gal` returns the gadget digits of `σ(a)` and
their inner product with the key `a`-parts, `σ` being `X -> X^5`. A round of
`preprocess_loop` is then one step of the recurrence
`A ↦ Σ_k D_k gk_a_k + qry_a te` (`aStep`), and the digits it stores are those
of `σ(A)`; `preprocessLoop_spec` runs it over all stored elements.

The stored elements are read through `Stored`: chunk `i` of two slices holds
the compressed form of eight ring elements.
-/
import Dnspir.DigitFacts
import Dnspir.GaloisFacts

namespace Dnspir

open SpecialZnx8 PIRDatabase Negacyclic

variable {N t : ℕ}

/-! ## Chunks of the slices -/

theorem size_writeChunk (slice : Array CompressedZnx8El) (k : ℕ) (values : Vector CompressedZnx8El N) :
    (writeChunk slice k values).size = slice.size :=
  Loops.foldl_finRange (P := fun _ (s : Array CompressedZnx8El) => s.size = slice.size) rfl
    fun i s h => by simpa using h

/-- A written chunk is read back, and the other elements are untouched. -/
theorem getElem?_writeChunk (slice : Array CompressedZnx8El) (k : ℕ)
    (values : Vector CompressedZnx8El N) (idx : ℕ) : (writeChunk slice k values)[idx]? =
      if h : k * N ≤ idx ∧ idx < k * N + N then
        if idx < slice.size then some values[idx - k * N] else none
      else slice[idx]? := by
  have hloop := Loops.foldl_finRange (n := N) (b := slice)
    (f := fun s (j : Fin N) => s.setIfInBounds (k * N + j) values[j])
    (P := fun m s => s.size = slice.size ∧ s[idx]? =
      if h : k * N ≤ idx ∧ idx < k * N + N ∧ idx < k * N + m then
        if idx < slice.size then some values[idx - k * N] else none
      else slice[idx]?) ⟨rfl, by rw [dif_neg (by omega)]⟩ ?_
  · rw [show (writeChunk slice k values)[idx]? = _ from hloop.2]
    by_cases h : k * N ≤ idx ∧ idx < k * N + N
    · rw [dif_pos h, dif_pos ⟨h.1, h.2, h.2⟩]
    · rw [dif_neg h, dif_neg (fun h' => h ⟨h'.1, h'.2.1⟩)]
  · rintro j s ⟨hsize, hs⟩
    refine ⟨by simpa using hsize, ?_⟩
    rw [Array.getElem?_setIfInBounds, hsize]
    by_cases hj : k * N + j.val = idx
    · subst hj
      have := j.isLt
      rw [if_pos rfl, dif_pos ⟨by omega, by omega, by omega⟩]
      simp
    · rw [if_neg hj, hs]
      have : (k * N ≤ idx ∧ idx < k * N + N ∧ idx < k * N + (j.val + 1)) ↔
          (k * N ≤ idx ∧ idx < k * N + N ∧ idx < k * N + j.val) :=
        ⟨fun h => ⟨h.1, h.2.1, by omega⟩, fun h => ⟨h.1, h.2.1, by omega⟩⟩
      simp only [this]

theorem loadEntry_writeChunk_self {slice : Array CompressedZnx8El} {k : ℕ} (hk : k * N + N ≤ slice.size)
    (values : Vector CompressedZnx8El N) : loadEntry (writeChunk slice k values) k = some values := by
  refine Loops.ofFnM_eq_some fun j => ?_
  have := j.isLt
  rw [getElem?_writeChunk, dif_pos ⟨by omega, by omega⟩, if_pos (by omega)]
  simp

theorem loadEntry_writeChunk_ne {slice : Array CompressedZnx8El} {i k : ℕ} (hik : i ≠ k)
    (values : Vector CompressedZnx8El N) :
    (loadEntry (writeChunk slice k values) i : Option (Vector _ N)) = loadEntry slice i := by
  refine congrArg Vector.ofFnM (funext fun j => ?_)
  have := j.isLt
  rw [getElem?_writeChunk, dif_neg]
  intro h'
  obtain ⟨h1, h2⟩ := h'
  rcases Nat.lt_or_gt_of_ne hik with h | h
  · have := Nat.mul_le_mul_right N (show i + 1 ≤ k from h)
    rw [add_mul, one_mul] at this
    omega
  · have := Nat.mul_le_mul_right N (show k + 1 ≤ i from h)
    rw [add_mul, one_mul] at this
    omega

/-! ## Digits of ring elements -/

variable [NeZero N]

/-- The automorphism of the online loop. -/
def sigma (f : CipherRing N) : CipherRing N := Negacyclic.gal 5 odd_five f

/-- Digit `k` of every coefficient. -/
def digitPoly (k : Fin 2) (f : CipherRing N) : CipherRing N := ⟨fun i => digit k (f.coeff i)⟩

omit [NeZero N] in
@[simp] theorem coeff_digitPoly (k : Fin 2) (f : CipherRing N) (i : Fin N) :
    (digitPoly k f).coeff i = digit k (f.coeff i) := rfl

/-- **The gadget digits recompose the element.** -/
theorem digitPoly_sum (f : CipherRing N) : digitPoly 0 f + C (2 ^ 26) * digitPoly 1 f = f := by
  refine Negacyclic.ext (funext fun i => ?_)
  rw [coeff_add, C_mul_coeff]
  exact digit_sum (f.coeff i)

variable {K : ℕ} {Z : SpecialZnx8 K} {zinv : Z.ComponentRing}

/-- The inner product of digits and keys, slot by slot. -/
theorem slotRep_innerProduct (hz : zinv ^ N = -1) {d0 d1 k0 k1 : Vector M512i N}
    {D0 D1 G0 G1 : Fin 8 → Negacyclic N Z.ComponentRing} (h0 : SlotRep Z zinv d0 D0)
    (h1 : SlotRep Z zinv d1 D1) (hk0 : SlotRep Z zinv k0 G0) (hk1 : SlotRep Z zinv k1 G1) :
    SlotRep Z zinv (innerProduct Z d0 d1 k0 k1) fun c => D0 c * G0 c + D1 c * G1 c := fun i => by
  simp only [innerProduct, Positions.getElem_pos, Vector.getElem_ofFn]
  have hl := List.Forall₂.cons ((h0 i).mul (hk0 i))
    (List.Forall₂.cons ((h1 i).mul (hk1 i)) List.Forall₂.nil)
  refine (Rep.sum hl).congr (funext fun c => ?_)
  simp only [List.sum_cons, List.sum_nil, add_zero, Pi.add_apply, Pi.mul_apply]
  rw [eval_add, eval_slot_mul hz, eval_slot_mul hz]

variable {fm : FeanorMath} {r : Roots} {zeta : M512i × M512i} {ntt : NTT 26 × NTT 25}

/-- The digits and the `a`-part after the automorphism. -/
theorem partialGal_spec (hfm : fm.Correct) (ok0 : NttOk rnsBase0 N zeta.1 ntt.1 r.z0 r.zinv0)
    (ok1 : NttOk rnsBase1 N zeta.2 ntt.2 r.z1 r.zinv1) (hN : Nat.Coprime 5 (2 * N)) {current : RNSEl N}
    {A : Fin 8 → CipherRing N} (hA : RNSRep r current A) {gkA : Vector (RNSEl N) 2}
    {gk : Fin 2 → Fin 8 → CipherRing N} (hgk : ∀ k : Fin 2, RNSRep r gkA[k] (gk k)) :
    ∃ res digits, partialGal fm zeta ntt current (IndexGroup.genH _) gkA = some (res, digits) ∧
      (∀ k : Fin 2, RNSRep r digits[k] fun c => digitPoly k (sigma (A c))) ∧
      RNSRep r res fun c =>
        digitPoly 0 (sigma (A c)) * gk 0 c + digitPoly 1 (sigma (A c)) * gk 1 c := by
  obtain ⟨g0, eg0, hg0⟩ := galSlots_spec hN ok0.pow_N rnsBase0.zero hA.fst
  obtain ⟨g1, eg1, hg1⟩ := galSlots_spec hN ok1.pow_N rnsBase1.zero hA.snd
  obtain ⟨w0, e0, h0⟩ := invWeightedNtt_spec hfm ok0 hg0
  obtain ⟨w1, e1, h1⟩ := invWeightedNtt_spec hfm ok1 hg1
  obtain ⟨i0, i1, ei0, ei1, hi0, hi1⟩ := exists_factor_inv
  set decomposed := Vector.ofFn fun i : Fin N => decomposeEntry (rnsBase0.fromComponents fun _ => i0)
    (rnsBase1.fromComponents fun _ => i1) w0[i] w1[i] with hdec
  have hd := fun i : Fin N => decomposeEntry_spec (a := fun c => (sigma (A c)).coeff i) hi0 hi1
    ((h0 i).congr (funext fun c => congrArg (coeff · i) (map_gal red0 odd_five (A c)).symm))
    ((h1 i).congr (funext fun c => congrArg (coeff · i) (map_gal red1 odd_five (A c)).symm))
  have hget : ∀ (i : ℕ) (hi : i < N),
      decomposed[i] = decomposeEntry (rnsBase0.fromComponents fun _ => i0)
      (rnsBase1.fromComponents fun _ => i1) w0[i] w1[i] := fun i hi => by
    simp [hdec]
  obtain ⟨d00, e00, h00⟩ := weightedNtt_spec hfm ok0 (v := decomposed.map (·.1.1))
    (F := fun c => map red0 (digitPoly 0 (sigma (A c)))) fun i => by simpa [hget] using (hd i).1.1
  obtain ⟨d01, e01, h01⟩ := weightedNtt_spec hfm ok1 (v := decomposed.map (·.1.2))
    (F := fun c => map red1 (digitPoly 0 (sigma (A c)))) fun i => by simpa [hget] using (hd i).1.2
  obtain ⟨d10, e10, h10⟩ := weightedNtt_spec hfm ok0 (v := decomposed.map (·.2.1))
    (F := fun c => map red0 (digitPoly 1 (sigma (A c)))) fun i => by simpa [hget] using (hd i).2.1
  obtain ⟨d11, e11, h11⟩ := weightedNtt_spec hfm ok1 (v := decomposed.map (·.2.2))
    (F := fun c => map red1 (digitPoly 1 (sigma (A c)))) fun i => by simpa [hget] using (hd i).2.2
  refine ⟨⟨innerProduct rnsBase0 d00 d10 gkA[0].fst gkA[1].fst,
    innerProduct rnsBase1 d01 d11 gkA[0].snd gkA[1].snd⟩, #v[⟨d00, d01⟩, ⟨d10, d11⟩], ?_, ?_, ?_⟩
  · simp only [partialGal, eg0, eg1, e0, e1, ei0, ei1, Option.bind_eq_bind, Option.bind_some,
      ← hdec, e00, e01, e10, e11]
    rfl
  · intro k
    fin_cases k
    · exact ⟨h00, h01⟩
    · exact ⟨h10, h11⟩
  · constructor
    · simp only [map_add, map_mul]
      exact slotRep_innerProduct ok0.pow_N h00 h10 (hgk 0).fst (hgk 1).fst
    · simp only [map_add, map_mul]
      exact slotRep_innerProduct ok1.pow_N h01 h11 (hgk 0).snd (hgk 1).snd

/-! ## Stored ring elements -/

/-- Chunk `i` of the slices holds the ring elements `f`. -/
def Stored (r : Roots) (s : CompressedSlices) (i : ℕ) (f : Fin 8 → CipherRing N) : Prop :=
  ∃ v0 v1 : Vector CompressedZnx8El N, loadEntry s.fst i = some v0 ∧ loadEntry s.snd i = some v1 ∧
    RNSRep r ⟨v0.map uncompress, v1.map uncompress⟩ f

variable {x : RNSEl N} {f : Fin 8 → CipherRing N} {s : CompressedSlices}

omit [NeZero N] in
theorem map_uncompress_compress {v : Vector M512i N} {g : Fin N → Fin 8 → Z.ComponentRing}
    (ha : 0 < Z.alpha) (hv : RepV Z v g) : (v.map compress).map uncompress = v := by
  refine Vector.ext fun i hi => ?_
  simp only [Vector.getElem_map]
  exact (hv ⟨i, hi⟩).uncompress_compress ha

theorem RNSRep.uncompress_compress (h : RNSRep r x f) :
    RNSRep r ⟨(compressRNS x).fst.map uncompress, (compressRNS x).snd.map uncompress⟩ f := by
  simp only [compressRNS, map_uncompress_compress (Z := rnsBase0) (by decide) h.fst,
    map_uncompress_compress (Z := rnsBase1) (by decide) h.snd]
  exact h

/-- A compressed element in the residue form. -/
def CompressedRep (r : Roots) (x : CompressedRNSEl N) (f : Fin 8 → CipherRing N) : Prop :=
  RNSRep r ⟨x.fst.map uncompress, x.snd.map uncompress⟩ f

theorem Stored.write_compressed {L k : ℕ} (hs : CompressedSlices.hasLen s (N * L)) (hk : k < L)
    {v : CompressedRNSEl N} (hv : CompressedRep r v f) :
    Stored r (CompressedSlices.writeChunk s k v) k f := by
  have hle : k * N + N ≤ N * L := by
    rw [← Nat.succ_mul, mul_comm N L]
    exact Nat.mul_le_mul_right N hk
  exact ⟨_, _, loadEntry_writeChunk_self (by rw [hs.1]; exact hle) _,
    loadEntry_writeChunk_self (by rw [hs.2]; exact hle) _, hv⟩

theorem Stored.write_self {L k : ℕ} (hs : CompressedSlices.hasLen s (N * L)) (hk : k < L)
    (hx : RNSRep r x f) :
    Stored r (CompressedSlices.writeChunk s k (compressRNS x)) k f :=
  Stored.write_compressed hs hk hx.uncompress_compress

theorem Stored.write_ne {i k : ℕ} (h : Stored r s i f) (hik : i ≠ k) (values : CompressedRNSEl N) :
    Stored r (CompressedSlices.writeChunk s k values) i f := by
  obtain ⟨v0, v1, h0, h1, hf⟩ := h
  exact ⟨v0, v1, by rwa [CompressedSlices.writeChunk, loadEntry_writeChunk_ne hik],
    by rwa [CompressedSlices.writeChunk, loadEntry_writeChunk_ne hik], hf⟩

omit [NeZero N] in
theorem hasLen_writeChunk {size : ℕ} (h : CompressedSlices.hasLen s size) (k : ℕ)
    (values : CompressedRNSEl N) :
    CompressedSlices.hasLen (CompressedSlices.writeChunk s k values) size :=
  ⟨by rw [CompressedSlices.writeChunk, size_writeChunk, h.1], by
    rw [CompressedSlices.writeChunk, size_writeChunk, h.2]⟩

/-! ## The loop -/

/-- The `a`-part after `i` rounds: the automorphism is switched back to the
original key by the gadget digits, then the next product is added. -/
def aRec (gk : Fin 2 → CipherRing N) (qryA : CipherRing N) (te : ℕ → CipherRing N) : ℕ → CipherRing N
  | 0 => 0
  | i + 1 =>
    let a := sigma (aRec gk qryA te i)
    digitPoly 0 a * gk 0 + digitPoly 1 a * gk 1 + qryA * te i

section Loop
variable {db : PIRDatabase N t} {gkA : Vector (RNSEl N) 2} {gk : Fin 2 → CipherRing N} {qryA : RNSEl N}
  {qa : CipherRing N} {te : ℕ → Fin 8 → CipherRing N} {slices : CompressedSlices}

theorem slotRep_accumulate (hz : zinv ^ N = -1) {gal qry : Vector M512i N}
    {v : Vector CompressedZnx8El N} {F G H : Fin 8 → Negacyclic N Z.ComponentRing}
    (hF : SlotRep Z zinv gal F) (hG : SlotRep Z zinv qry G)
    (hH : SlotRep Z zinv (v.map uncompress) H) :
    SlotRep Z zinv (accumulate Z gal qry v) fun c => F c + G c * H c := fun i => by
  have hi := hH i
  simp only [Positions.getElem_pos, Vector.getElem_map] at hi
  simp only [accumulate, Positions.getElem_pos, Vector.getElem_ofFn]
  refine ((hF i).add ((hG i).mul hi)).congr (funext fun c => ?_)
  simp only [Pi.add_apply, Pi.mul_apply]
  rw [eval_add, eval_slot_mul hz]

/-- What the loop maintains after `i` rounds: `sum` holds the recurrence, and
the digits of every round so far are stored. -/
structure PreInv (r : Roots) (gk : Fin 2 → CipherRing N) (qa : CipherRing N)
    (te : ℕ → Fin 8 → CipherRing N) (size i : ℕ) (s : RNSEl N × Vector CompressedSlices 2) : Prop where
  sum : RNSRep r s.1 fun c => aRec gk qa (fun j => te j c) i
  len : ∀ k : Fin 2, CompressedSlices.hasLen s.2[k] size
  digits : ∀ j < i, ∀ k : Fin 2, Stored r s.2[k] j fun c =>
    digitPoly k (sigma (aRec gk qa (fun j => te j c) j))

theorem preprocessStep_spec (hfm : fm.Correct) (h : DbOk db r) (hN : Nat.Coprime 5 (2 * N))
    (hgk : ∀ k : Fin 2, RNSRep r gkA[k] fun _ => gk k) (hqa : RNSRep r qryA fun _ => qa) {L i : ℕ}
    (hi : i < L) (hte : Stored r slices i (te i)) {s : RNSEl N × Vector CompressedSlices 2}
    (hs : PreInv r gk qa te (N * L) i s) :
    ∃ s', preprocessStep fm db qryA gkA slices s i = some s' ∧
      PreInv r gk qa te (N * L) (i + 1) s' := by
  obtain ⟨res, digits, ep, hd, hres⟩ := partialGal_spec hfm h.ok0 h.ok1 hN hs.sum hgk
  obtain ⟨v0, v1, ev0, ev1, hv⟩ := hte
  refine ⟨_, by simp only [preprocessStep, ep, ev0, ev1, Option.bind_eq_bind, Option.bind_some]; rfl,
    ?_, ?_, ?_⟩
  · constructor
    · simp only [aRec, map_add, map_mul]
      have := slotRep_accumulate h.ok0.pow_N hres.fst hqa.fst hv.fst
      simpa only [map_add, map_mul] using this
    · simp only [aRec, map_add, map_mul]
      have := slotRep_accumulate h.ok1.pow_N hres.snd hqa.snd hv.snd
      simpa only [map_add, map_mul] using this
  · intro k
    fin_cases k
    · exact hasLen_writeChunk (hs.len 0) _ _
    · exact hasLen_writeChunk (hs.len 1) _ _
  · intro j hj k
    rcases Nat.lt_succ_iff_lt_or_eq.mp hj with hj | rfl
    · have hne : j ≠ i := by omega
      fin_cases k
      · exact (hs.digits j hj 0).write_ne hne _
      · exact (hs.digits j hj 1).write_ne hne _
    · fin_cases k
      · exact Stored.write_self (hs.len 0) hi (hd 0)
      · exact Stored.write_self (hs.len 1) hi (hd 1)

theorem rnsRep_zero : RNSRep r (zeroRNS : RNSEl N) fun _ => 0 where
  fst := by simp only [map_zero]; exact SlotRep.zero
  snd := by simp only [map_zero]; exact SlotRep.zero

/-- **The offline loop** computes the recurrence and stores its digits. -/
theorem preprocessLoop_spec (hfm : fm.Correct) (h : DbOk db r) (hN : Nat.Coprime 5 (2 * N))
    (hgk : ∀ k : Fin 2, RNSRep r gkA[k] fun _ => gk k) (hqa : RNSRep r qryA fun _ => qa)
    {innerProdGk : Vector CompressedSlices 2}
    (hlen : ∀ k : Fin 2, CompressedSlices.hasLen innerProdGk[k] (N * db.indexGroup.loopLen))
    (hslices : CompressedSlices.hasLen slices (N * db.indexGroup.loopLen))
    (hte : ∀ i < db.indexGroup.loopLen, Stored r slices i (te i)) :
    ∃ s, preprocessLoop fm db qryA gkA innerProdGk slices = some s ∧
      PreInv r gk qa te (N * db.indexGroup.loopLen) db.indexGroup.loopLen s := by
  have h0 : PreInv r gk qa te (N * db.indexGroup.loopLen) 0 (zeroRNS, innerProdGk) :=
    ⟨rnsRep_zero, hlen, fun j hj => absurd hj (Nat.not_lt_zero j)⟩
  obtain ⟨s, he, hs⟩ := Loops.foldlM_finRange h0 fun i s hs =>
    preprocessStep_spec hfm h hN hgk hqa i.isLt (hte i i.isLt) hs
  refine ⟨s, ?_, hs⟩
  rw [preprocessLoop, if_pos ⟨hlen 0, hlen 1, hslices⟩]
  exact he

end Loop

end Dnspir
