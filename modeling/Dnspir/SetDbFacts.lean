/-
`set_transformed_entries` on integer polynomials.

`column` is what steps 1 to 5 leave in column `i`: the row transform
has summed the entries against the powers of the query, step 4 has undone the
automorphism of the round the column belongs to (`transformEntries_spec`).
Its coefficients are integers of at most `l (t - 1)`, which the residue ring
of the first factor holds without wrap-around (`column_bound`), so step 6
stores the column scaled by `1/l` mod `t` (`embedEntry_spec`,
`setTransformedEntries_spec`).
-/
import Dnspir.CosetNttFacts
import Dnspir.PreprocessFacts

namespace Dnspir

open SpecialZnx8 PIRDatabase Negacyclic

variable {N t : ℕ} [NeZero N]

/-! ## The columns -/

/-- Entry `i`, with coefficients in `[0, t)`. -/
def entryLift (entries : List (PlainRing t N)) (i : ℕ) : Negacyclic N ℤ :=
  ⟨fun k => (((entries.getD i 0).coeff k).val : ℤ)⟩

/-- The entries summed against the powers of `X^e`. -/
def powerSum {R : Type} [CommRing R] {l : ℕ} (a : Fin l → Negacyclic N R) (e : ℕ) : Negacyclic N R :=
  ∑ j, a j * X ^ (e * j.val)

theorem map_powerSum {R S : Type} [CommRing R] [CommRing S] (φ : R →+* S) {l : ℕ}
    (a : Fin l → Negacyclic N R) (e : ℕ) :
    map φ (powerSum a e) = powerSum (fun j => map φ (a j)) e := by
  simp only [powerSum, map_sum, map_mul, map_pow, map_X]

/-- Where step 5 takes column `i` from. -/
def reversed (g : IndexGroup N) (i : ℕ) : ℕ :=
  if g.requiresConj then
    if i < N / 2 then N / 2 - 1 - i else N - 1 - (i - N / 2)
  else g.groupOrder - 1 - i

/-- Column `i` after step 5, for the inverse `w` of 5. -/
def column (g : IndexGroup N) {w : ℕ} (hw : Odd w) (a : Fin g.groupOrder → Negacyclic N ℤ) (i : ℕ) :
    Negacyclic N ℤ :=
  Negacyclic.gal (w ^ reversed g i) hw.pow (powerSum a (g.exponent (reversed g i)))

omit [NeZero N] in
theorem reversed_lt {g : IndexGroup N} {i : ℕ} (hi : i < g.groupOrder) :
    reversed g i < g.groupOrder := by
  rw [reversed]
  split
  next hc =>
    have := g.groupOrder_eq hc
    split <;> omega
  next => omega

/-! ## Steps 1 to 5 -/

section Transform
variable {fm : FeanorMath} {db : PIRDatabase N t} {r : Roots} {entries : List (PlainRing t N)}

/-- The residues of the first factor. -/
def toRns0 : ℤ →+* rnsBase0.ComponentRing := Int.castRingHom _

/-- The entries of column `j`, lane by lane. -/
def laneEntry {l : ℕ} (entries : List (PlainRing t N)) (c : Fin 8) (j : Fin l) : Negacyclic N ℤ :=
  entryLift entries (8 * j.val + c.val)

theorem embedColumns_spec {l : ℕ} (h : entries.length = l * simdCount) (j : Fin l) :
    CoeffRep rnsBase0 (embedColumns rnsBase0 entries h)[j] fun c =>
      map toRns0 (laneEntry entries c j) := fun i => by
  simp only [embedColumns, Positions.getElem_pos, Vector.getElem_ofFn]
  refine (Rep.fromComponents _).congr (funext fun c => ?_)
  have hlt : 8 * j.val + c.val < entries.length := by
    have := j.isLt
    have := c.isLt
    simp only [simdCount] at h
    omega
  have hget : entries.getD (8 * j.val + c.val) 0 = entries.get ⟨8 * j.val + c.val, hlt⟩ := by
    rw [List.getD_eq_getElem _ _ hlt]
    rfl
  simp only [coeff_map, laneEntry, entryLift, hget, toRns0, eq_intCast, Int.cast_natCast, simdCount]

omit [NeZero N] in
theorem getElem_rows {α : Type} {l : ℕ} (m : Vector (Vector α N) l) (i : Fin N) (j : Fin l) :
    (rows m)[i][j] = m[j][i] := by
  simp [rows]

/-- The values of a row are the values of the sums. -/
theorem eval_powerSum {R : Type} [CommRing R] {zinv : R} (hz : zinv ^ N = -1) {l : ℕ}
    (a : Fin l → Negacyclic N R) (i e : ℕ) : eval (RingHom.id R) (zinv ^ (2 * i + 1)) (powerSum a e) =
      ∑ j, eval (RingHom.id R) (zinv ^ (2 * i + 1)) (a j) * ((zinv ^ (2 * i + 1)) ^ e) ^ j.val := by
  have hx := slot_pow_N hz i
  simp only [powerSum, ← evalHom_apply (RingHom.id R) _ hx, map_sum, map_mul]
  refine Finset.sum_congr rfl fun j _ => ?_
  rw [evalHom_apply _ _ hx (X ^ (e * j.val)), eval_X_pow _ hx, pow_mul]

theorem rowPower_row (g : IndexGroup N) (i : ℕ) :
    (indexToGalois N i : ZMod (2 * N)) * -(g.queryBasePower : ZMod (2 * N)) =
      rowPower g (2 * i + 1) := by
  rw [indexToGalois_eq, rowPower, mul_neg, Nat.cast_mul]

/-- STEP 4 on one column. -/
theorem undoGalois_spec {w : ℕ} (hw : Odd w) (h5 : 5 * w ≡ 1 [MOD 2 * N])
    (hinv : Zn.invert (IndexGroup.genH (2 * N)) = some ((w : ℕ) : ZMod (2 * N))) {K : ℕ}
    {Z : SpecialZnx8 K} {zinv : Z.ComponentRing} (hz : zinv ^ N = -1) {v : Vector M512i N}
    {F : Fin 8 → Negacyclic N Z.ComponentRing} (hv : SlotRep Z zinv v F) (s : ℕ) :
    ∃ v', undoGalois s v = some v' ∧
      SlotRep Z zinv v' fun c => Negacyclic.gal (w ^ s) hw.pow (F c) := by
  have hs : w ^ s * 5 ^ s ≡ 1 [MOD 2 * N] := by
    rw [← mul_pow, mul_comm w]
    simpa using h5.pow s
  refine ⟨Vector.ofFn fun i => v[moveSlot N (w ^ s) i], ?_, hv.move hw.pow hz fun i => by simp⟩
  simp only [undoGalois, hinv, Option.bind_eq_bind, Option.bind_some, ← Nat.cast_pow]
  refine permute_spec (moveSlot_injective hw.pow odd_five.pow hs) (fun i => ?_) v
  rw [mul_indexToGalois, galoisToIndex_natCast (hw.pow.mul ⟨i, rfl⟩)]
  rfl

omit [NeZero N] in
/-- STEP 5 on one row. -/
theorem getElem_reverseRow {g : IndexGroup N} (row : Vector M512i g.groupOrder) (i : Fin g.groupOrder) :
    (reverseRow g row)[i] = row[(⟨reversed g i, reversed_lt i.isLt⟩ : Fin g.groupOrder)] := by
  by_cases hc : g.requiresConj
  · have ho := g.groupOrder_eq hc
    simp only [reverseRow, dif_pos hc, Positions.getElem_pos, Vector.getElem_ofFn, reversed, if_pos hc]
    split <;> rfl
  · simp only [reverseRow, dif_neg hc, Positions.getElem_pos, Vector.getElem_reverse, reversed,
      if_neg hc]

/-- The table of the rows has the root the cosets are apart. -/
theorem SubgroupOk.table (hs : SubgroupOk db r) {b : ℕ} (h : GroupShape db.indexGroup b)
    (hpow : N = 2 ^ Nat.clog 2 N) : db.indexGroup.groupOrder = 2 ^ db.lenSubgroupOrderNtts.1.log2n ∧
      rnsBase0.Rep db.lenSubgroupOrderNtts.1.root fun _ =>
        r.z0 ^ (2 * N / db.indexGroup.groupOrder) := by
  have hl : ∃ c, db.indexGroup.groupOrder = 2 ^ c := by
    by_cases hc : db.indexGroup.requiresConj
    · exact ⟨b + 1, by rw [(h.conj hc).2, pow_succ, mul_comm]⟩
    · exact ⟨b, h.plain hc⟩
  obtain ⟨c, hl⟩ := hl
  have hclog : Nat.clog 2 db.indexGroup.groupOrder = c := by rw [hl, Nat.clog_pow 2 c (by norm_num)]
  have hle : c ≤ Nat.clog 2 N := by
    have hdvd := h.step_mul
    rw [hl] at hdvd
    have hlt : db.indexGroup.groupOrder ≤ N := by
      obtain ⟨-, ho, -⟩ | ⟨-, ho, -⟩ := groupOrder_cases db.indexGroup <;> omega
    rw [hl, hpow] at hlt
    exact (Nat.pow_le_pow_iff_right (show 1 < 2 by norm_num)).mp hlt
  refine ⟨by rw [hs.log2n, hclog, hl], hs.root_rep.congr (funext fun _ => ?_)⟩
  have hdiv : 2 * N / db.indexGroup.groupOrder = 2 * 2 ^ (Nat.clog 2 N - c) := by
    have h2N : 2 * N = 2 * 2 ^ Nat.clog 2 N := congrArg (2 * ·) hpow
    rw [hl, h2N, Nat.mul_div_assoc _ (pow_dvd_pow 2 hle), Nat.pow_div hle (by norm_num)]
  rw [hclog, hdiv]

/-- **STEPS 1 to 5.** Column `i` holds the slots of `column`. -/
theorem transformEntries_spec (hfm : fm.Correct) (hok : DbOk db r) (hs : SubgroupOk db r) {b : ℕ}
    (h : GroupShape db.indexGroup b) (hpow : N = 2 ^ Nat.clog 2 N) {w : ℕ} (hw : Odd w)
    (h5 : 5 * w ≡ 1 [MOD 2 * N])
    (hinv : Zn.invert (IndexGroup.genH (2 * N)) = some ((w : ℕ) : ZMod (2 * N)))
    (hlen : entries.length = db.indexGroup.groupOrder * simdCount) :
    ∃ cols, transformEntries fm db entries = some cols ∧ ∀ i : Fin db.indexGroup.groupOrder,
      SlotRep rnsBase0 r.zinv0 cols[i] fun c =>
        map toRns0 (column db.indexGroup hw (laneEntry entries c) i) := by
  have hz := hok.ok0.pow_N
  obtain ⟨hlog, hroot⟩ := hs.table h hpow
  obtain ⟨r2, e2, h2⟩ := Loops.ofFnM_some fun j : Fin db.indexGroup.groupOrder =>
    weightedNtt_spec hfm hok.ok0 (embedColumns_spec hlen j)
  have hrow : ∀ i : Fin N, RepV rnsBase0 (rows r2)[i] fun j c =>
      eval (RingHom.id _) (r.zinv0 ^ (2 * i.val + 1)) (map toRns0 (laneEntry entries c j)) :=
          fun i j => by
    rw [getElem_rows]
    exact h2 j i
  obtain ⟨r3, e3, h3⟩ := Loops.ofFnM_some fun i : Fin N =>
    cosetNtt_spec hfm hok.ok0.prime h hpow ⟨i.val, rfl⟩ hok.ok0.zeta_rep hok.ok0.prim hok.ok0.mul_inv
      hroot hs.root_reduced hlog (hrow i)
  have hcol : ∀ s : Fin db.indexGroup.groupOrder, SlotRep rnsBase0 r.zinv0 (rows r3)[s] fun c =>
      map toRns0 (powerSum (laneEntry entries c) (db.indexGroup.exponent s)) := fun s i => by
    rw [getElem_rows]
    refine (h3 i s).congr (funext fun c => ?_)
    simp only [map_powerSum, eval_powerSum hz]
    rfl
  obtain ⟨r4, e4, h4⟩ := Loops.ofFnM_some fun s : Fin db.indexGroup.groupOrder =>
    undoGalois_spec hw h5 hinv hz (hcol s) s
  refine ⟨rows ((rows r4).map (reverseRow db.indexGroup)), ?_, fun i k => ?_⟩
  · simp only [transformEntries, dif_pos hlen, rowPower_row, Option.bind_eq_bind, e2, e3, e4,
      Option.bind_some]
    rfl
  · have hget : (rows ((rows r4).map (reverseRow db.indexGroup)))[i][k] =
        r4[(⟨reversed db.indexGroup i, reversed_lt i.isLt⟩ : Fin db.indexGroup.groupOrder)][k] := by
      have hmap : ((rows r4).map (reverseRow db.indexGroup))[k] =
          reverseRow db.indexGroup (rows r4)[k] := by
        simp only [Positions.getElem_pos, Vector.getElem_map]
      rw [getElem_rows, hmap, getElem_reverseRow, getElem_rows]
    rw [hget]
    refine (h4 _ k).congr (funext fun c => ?_)
    simp only [column, map_gal]

/-! ## No wrap-around -/

omit [NeZero N] in
theorem abs_laneEntry_le [NeZero t] {l : ℕ} (c : Fin 8) (j : Fin l) (i : Fin N) :
    |(laneEntry entries c j).coeff i| ≤ (t - 1 : ℕ) := by
  have hlt := ZMod.val_lt ((entries.getD (8 * j.val + c.val) 0).coeff i)
  simp only [laneEntry, entryLift, Nat.abs_cast]
  exact_mod_cast Nat.le_sub_one_of_lt hlt

/-- A column, entry by entry. -/
theorem column_eq (g : IndexGroup N) {w : ℕ} (hw : Odd w) (a : Fin g.groupOrder → Negacyclic N ℤ)
    (i : ℕ) :
    column g hw a i = ∑ j, Negacyclic.gal (w ^ reversed g i) hw.pow (a j) *
      X ^ (w ^ reversed g i * (g.exponent (reversed g i) * j.val)) := by
  simp only [column, powerSum, map_sum, map_mul, gal_X]

/-- **Every coefficient of a column is an integer of at most `l (t - 1)`.** -/
theorem column_bound [NeZero t] {n : ℕ} (hN : N = 2 ^ n) (g : IndexGroup N) {w : ℕ} (hw : Odd w)
    (c : Fin 8) (i : ℕ) (k : Fin N) :
    |(column g hw (laneEntry entries c) i).coeff k| ≤ (g.groupOrder * (t - 1) : ℕ) := by
  have hwN : w.Coprime N := hN ▸ (Nat.coprime_two_right.mpr hw).pow_right n
  have hterm : ∀ j : Fin g.groupOrder,
      |(Negacyclic.gal (w ^ reversed g i) hw.pow (laneEntry entries c j) *
      X ^ (w ^ reversed g i * (g.exponent (reversed g i) * j.val))).coeff k| ≤ ((t - 1 : ℕ) : ℤ) :=
          fun j =>
    coeff_gal_bound (Int.natCast_nonneg _) hw.pow (hwN.pow_left _) _ (abs_laneEntry_le c j) k
  rw [column_eq, coeff_sum]
  refine (Finset.abs_sum_le_sum_abs _ _).trans
    ((Finset.sum_le_sum fun j _ => hterm j).trans (le_of_eq ?_))
  simp

/-- A small integer is the centred lift of its residue. -/
theorem valMinAbs_intCast {p : ℕ} [NeZero p] {v : ℤ} (h : 2 * |v| < p) :
    ((v : ZMod p)).valMinAbs = v := by
  rw [ZMod.valMinAbs_spec]
  have h1 := neg_abs_le v
  have h2 := le_abs_self v
  exact ⟨rfl, by constructor <;> linarith⟩

/-! ## STEP 6 -/

/-- An integer polynomial scaled in `Z_t`, by its smallest lift. -/
def rescaled (scale : ZMod t) (f : Negacyclic N ℤ) : CipherRing N :=
  ⟨fun i => ((((f.coeff i : ZMod t) * scale).valMinAbs : ℤ) : ZMod fixedQ)⟩

/-- The centred lifts step 6 reads are the integers themselves. -/
theorem exact_lift (hfm : fm.Correct) (hok : DbOk db r) {v : Vector M512i N}
    {f : Fin 8 → Negacyclic N ℤ} (hv : SlotRep rnsBase0 r.zinv0 v fun c => map toRns0 (f c))
    (hf : ∀ c i, 2 * |(f c).coeff i| < rnsBase0.modulus) :
    ∃ u, invWeightedNtt fm rnsBase0 db.zeta.1 db.lenNNtts.1 v = some u ∧
      ∀ (i : Fin N) c, (rnsBase0.getComponents u[i] c).valMinAbs = (f c).coeff i := by
  obtain ⟨u, eu, hu⟩ := invWeightedNtt_spec hfm hok.ok0 hv
  refine ⟨u, eu, fun i c => ?_⟩
  have hc : rnsBase0.getComponents u[i] c = ((f c).coeff i : rnsBase0.ComponentRing) := by
    rw [(hu i).getComponents hok.ok0.alpha_pos]
    exact coeff_map _ _ _
  rw [hc, valMinAbs_intCast (hf c i)]

theorem embedEntry_spec (hfm : fm.Correct) (hok : DbOk db r) (scale : ZMod t) {v : Vector M512i N}
    {f : Fin 8 → Negacyclic N ℤ} (hv : SlotRep rnsBase0 r.zinv0 v fun c => map toRns0 (f c))
    (hf : ∀ c i, 2 * |(f c).coeff i| < rnsBase0.modulus) :
    ∃ x, embedEntry fm db scale v = some x ∧ CompressedRep r x fun c => rescaled scale (f c) := by
  obtain ⟨u, eu, hu⟩ := exact_lift hfm hok hv hf
  have hentry : ∀ (i : Fin N) (c : Fin 8), rescaleEntry scale (rnsBase0.getComponents u[i] c) =
      (((f c).coeff i : ZMod t) * scale).valMinAbs := fun i c => by
    rw [rescaleEntry, hu]
  obtain ⟨w0, e0, h0⟩ := weightedNtt_spec hfm hok.ok0
    (v := (u.map fun x => fun k => rescaleEntry scale (rnsBase0.getComponents x k)).map fun x =>
      rnsBase0.fromComponents fun k => x k) (F := fun c => map red0 (rescaled scale (f c))) fun i => by
    simp only [Positions.getElem_pos, Vector.getElem_map] at hentry ⊢
    refine (Rep.fromComponents _).congr (funext fun c => ?_)
    simp only [hentry i c, coeff_map, rescaled, map_intCast]
  obtain ⟨w1, e1, h1⟩ := weightedNtt_spec hfm hok.ok1
    (v := (u.map fun x => fun k => rescaleEntry scale (rnsBase0.getComponents x k)).map fun x =>
      rnsBase1.fromComponents fun k => x k) (F := fun c => map red1 (rescaled scale (f c))) fun i => by
    simp only [Positions.getElem_pos, Vector.getElem_map] at hentry ⊢
    refine (Rep.fromComponents _).congr (funext fun c => ?_)
    simp only [hentry i c, coeff_map, rescaled, map_intCast]
  have hrep : RNSRep r ⟨w0, w1⟩ fun c => rescaled scale (f c) := ⟨h0, h1⟩
  exact ⟨compressRNS ⟨w0, w1⟩, by
    simp only [embedEntry, eu, e0, e1, Option.bind_eq_bind, Option.bind_some]; rfl,
    hrep.uncompress_compress⟩

/-- What the loop of step 6 has stored after `m` columns. -/
structure StoreInv (r : Roots) (L : ℕ) (conj : Prop) (f : ℕ → Fin 8 → CipherRing N) (m : ℕ)
    (s : CompressedSlices × CompressedSlices) : Prop where
  len : CompressedSlices.hasLen s.1 (N * L)
  lenConj : conj → CompressedSlices.hasLen s.2 (N * L)
  noConj : ¬conj → CompressedSlices.hasLen s.2 0
  stored : ∀ i < L, i < m → Stored r s.1 i (f i)
  storedConj : conj → ∀ i < L, L + i < m → Stored r s.2 i (f (L + i))

/-- STEP 6 writes column `k` to its place. -/
theorem storeColumn_spec {L : ℕ} {conj : Prop} {f : ℕ → Fin 8 → CipherRing N} {k : ℕ}
    {s : CompressedSlices × CompressedSlices} (hs : StoreInv r L conj f k s)
    (hk : k < L ∨ conj ∧ k < 2 * L) {x : CompressedRNSEl N} (hx : CompressedRep r x (f k)) :
    StoreInv r L conj f (k + 1) (storeColumn s k x) := by
  have hdiv : s.1.fst.size / N = L := by rw [hs.len.1, Nat.mul_div_cancel_left _ (NeZero.pos N)]
  rw [storeColumn, hdiv]
  split
  next hlt =>
    refine ⟨hasLen_writeChunk hs.len k x, hs.lenConj, hs.noConj, fun i hi him => ?_,
      fun hc i hi him => ?_⟩
    · rcases Nat.lt_succ_iff_lt_or_eq.mp him with him | rfl
      · exact (hs.stored i hi him).write_ne (by omega) x
      · exact Stored.write_compressed hs.len hi hx
    · exact hs.storedConj hc i hi (by omega)
  next hge =>
    obtain ⟨hc, hk2⟩ := hk.resolve_left hge
    refine ⟨hs.len, fun _ => hasLen_writeChunk (hs.lenConj hc) _ x, fun hno => absurd hc hno,
      fun i hi him => hs.stored i hi (by omega), fun _ i hi him => ?_⟩
    rcases Nat.lt_succ_iff_lt_or_eq.mp him with him | heq
    · exact (hs.storedConj hc i hi him).write_ne (by omega) x
    · have hik : i = k - L := by omega
      subst hik
      rw [heq]
      exact Stored.write_compressed (hs.lenConj hc) hi hx

/-- The bound `set_transformed_entries` asserts leaves room for the columns. -/
theorem column_small [NeZero t] {n : ℕ} (hN : N = 2 ^ n) (hmax : 2 * t * N < rnsBase0.modulus)
    (g : IndexGroup N) {w : ℕ} (hw : Odd w) (i : ℕ) (c : Fin 8) (k : Fin N) :
    2 * |(column g hw (laneEntry entries c) i).coeff k| < rnsBase0.modulus := by
  have hb : |(column g hw (laneEntry entries c) i).coeff k| ≤ (g.groupOrder * (t - 1) : ℕ) :=
    column_bound hN g hw c i k
  have hle : g.groupOrder ≤ N := by
    obtain ⟨-, ho, -⟩ | ⟨-, ho, -⟩ := groupOrder_cases g <;> omega
  have hmul : g.groupOrder * (t - 1) ≤ N * t := Nat.mul_le_mul hle (Nat.sub_le t 1)
  have hlt : 2 * (g.groupOrder * (t - 1)) < rnsBase0.modulus := by nlinarith
  have hlt' : 2 * ((g.groupOrder * (t - 1) : ℕ) : ℤ) < rnsBase0.modulus := by exact_mod_cast hlt
  linarith

/-- **`set_transformed_entries`** succeeds and stores every column, scaled. -/
theorem setTransformedEntries_spec [NeZero t] (hfm : fm.Correct) (hok : DbOk db r)
    (hs : SubgroupOk db r) (hshape : DbShape db) {b : ℕ} (h : GroupShape db.indexGroup b)
    (hpow : N = 2 ^ Nat.clog 2 N) {w : ℕ} (hw : Odd w) (h5 : 5 * w ≡ 1 [MOD 2 * N])
    (hinv : Zn.invert (IndexGroup.genH (2 * N)) = some ((w : ℕ) : ZMod (2 * N)))
    (hlen : entries.length = db.indexGroup.groupOrder * simdCount)
    (hmax : 2 * t * N < rnsBase0.modulus) {scale : ZMod t}
    (hscale : Zn.invert (db.indexGroup.groupOrder : ZMod t) = some scale) :
    ∃ te tc, setTransformedEntries fm db entries =
        some { db with transformedEntries := te, transformedEntriesConj := tc, replyA := none } ∧
      StoreInv r db.indexGroup.loopLen db.indexGroup.requiresConj
        (fun i c => rescaled scale
          (column db.indexGroup hw (laneEntry entries c) i)) db.indexGroup.groupOrder (te, tc) := by
  obtain ⟨cols, ecols, hcols⟩ := transformEntries_spec hfm hok hs h hpow hw h5 hinv hlen
  obtain ⟨columns, ecolumns, hcolumns⟩ := Loops.ofFnM_some fun j : Fin db.indexGroup.groupOrder =>
    embedEntry_spec hfm hok scale (hcols j) fun c i => column_small hpow hmax db.indexGroup hw j c i
  have hbound : ∀ k : Fin db.indexGroup.groupOrder, k.val < db.indexGroup.loopLen ∨
      db.indexGroup.requiresConj ∧ k.val < 2 * db.indexGroup.loopLen := fun k => by
    have hk := k.isLt
    rw [h.loopLen]
    by_cases hc : db.indexGroup.requiresConj
    · have ho := (h.conj hc).2
      exact .inr ⟨hc, by omega⟩
    · have ho := h.plain hc
      exact .inl (by omega)
  have hstore := Loops.foldl_finRange (f := fun s (k : Fin _) => storeColumn s k columns[k])
    (b := (db.transformedEntries, db.transformedEntriesConj))
    (P := StoreInv r db.indexGroup.loopLen db.indexGroup.requiresConj
      (fun i c => rescaled scale (column db.indexGroup hw (laneEntry entries c) i)))
    ⟨hshape.te, hshape.teConj, hshape.noConj, fun i _ hi => absurd hi (Nat.not_lt_zero i),
      fun _ i _ hi => absurd hi (Nat.not_lt_zero _)⟩
    fun k s hk => storeColumn_spec hk (hbound k) (hcolumns k)
  refine ⟨_, _, ?_, hstore⟩
  simp only [setTransformedEntries, if_pos hmax, ecols, hscale, ecolumns, Option.bind_eq_bind,
    Option.bind_some]
  rfl

end Transform

end Dnspir
