/-
The noise of a two-level query, from the errors its client draws.

* `Shard.reply_noisy`: what a shard replies is the entry that was asked for,
  beside the noise of the query.
* `call_noisy`: so are the replies of the second database, slot by slot.
* `replyNoise_eq`: that noise is the one of the errors the client has drawn.
* `retrieves`: a client whose noise has room at both levels decrypts the entry
  it asked for, whatever the other slot asks.
-/
import Dnspir.BatchFacts
import Dnspir.ReplyNoise

namespace Dnspir

open PIRDatabase DoublePir Negacyclic

namespace DoublePir

variable {N : ℕ} [NeZero N] {fm : FeanorMath} {gs : IndexGroup N}

/-! ## The elements of a database -/

/-- The inverse of `5` that the elements are rotated back with. -/
def inverseFive (N : ℕ) : ℕ := 5 ^ (N / 2 - 1)

theorem odd_inverseFive (N : ℕ) : Odd (inverseFive N) := odd_five.pow

theorem inverseFive_spec {n : ℕ} (hpow : N = 2 ^ n) (h2 : 2 ≤ N) :
    5 * inverseFive N ≡ 1 [MOD 2 * N] ∧
      Zn.invert (IndexGroup.genH (2 * N)) = some ((inverseFive N : ℕ) : ZMod (2 * N)) := by
  obtain ⟨b, rfl⟩ : ∃ b, n = b + 1 := Nat.exists_eq_succ_of_ne_zero (by rintro rfl; omega)
  have hhalf : N / 2 = 2 ^ b := by rw [hpow, pow_succ, Nat.mul_div_cancel _ (by norm_num)]
  have hfour : 2 * N = 4 * 2 ^ b := by rw [hpow, pow_succ]; ring
  have hone : 5 * inverseFive N ≡ 1 [MOD 2 * N] := by
    rw [inverseFive, hhalf, hfour, ← pow_succ', Nat.sub_add_cancel (Nat.two_pow_pos b)]
    exact PowersOfFive.five_pow_two_pow b
  refine ⟨hone, Zn.invert_of_mul_eq_one ?_⟩
  have hcast := (ZMod.natCast_eq_natCast_iff _ _ _).mpr hone
  rwa [Nat.cast_mul, Nat.cast_one] at hcast

/-- What a database with these entries holds in lane `c`, by the inverses it is
filled with. -/
def entryElement (g : IndexGroup N) (entries : List (PlainRing primaryPlainModulus N))
    (c : Fin 8) : ℕ → CipherRing N :=
  laneElement g (odd_inverseFive N) ((Zn.invert (g.groupOrder : ZMod primaryPlainModulus)).getD 0)
    (laneEntry entries c)

theorem bounded_entryElement (g : IndexGroup N) (entries : List (PlainRing primaryPlainModulus N))
    (c : Fin 8) (i : ℕ) : Bounded (primaryPlainModulus / 2) (entryElement g entries c i) :=
  bounded_laneElement _ _ _ i

/-- **A reply is its entry**, beside the noise that the elements of its lane
make of its query. -/
theorem entry_noisy {g : IndexGroup N} {bits n : ℕ} (h : GroupShape g bits) (hpow : N = 2 ^ n)
    (h2 : 2 ≤ N) (useSeeds : UsedSeeds) (entries : List (PlainRing primaryPlainModulus N))
    {scale : ZMod primaryPlainModulus}
    (hscale : Zn.invert (g.groupOrder : ZMod primaryPlainModulus) = some scale) (c : Fin 8)
    {idx : ℕ} (hidx : idx < g.groupOrder) (query : QueryRef N) (sk : CipherRing N) :
    Bfv.Noisy (g.groupOrder * (primaryPlainModulus / 2)) sk (entries.getD (8 * idx + c.val) 0)
      (replyNoise fm g useSeeds (entryElement g entries c) query sk idx)
      (replyA fm g useSeeds (laneElement g (odd_inverseFive N) scale (laneEntry entries c))
          fun i => laneElement g (odd_inverseFive N) scale (laneEntry entries c) (g.loopLen + i),
        replyBOf fm g useSeeds (laneElement g (odd_inverseFive N) scale (laneEntry entries c))
          (fun i => laneElement g (odd_inverseFive N) scale (laneEntry entries c)
            (g.loopLen + i)) query) := by
  obtain ⟨scale', hscale', hone⟩ := groupOrder_invert h
  obtain rfl : scale' = scale := Option.some.inj (hscale'.symm.trans hscale)
  have helement : entryElement g entries c =
      laneElement g (odd_inverseFive N) scale' (laneEntry entries c) := by
    rw [entryElement, hscale]
    rfl
  rw [helement]
  exact lane_noisy h hpow useSeeds (odd_inverseFive N)
    (inverseFive_spec hpow h2).1 entries hone c hidx query sk

/-! ## The room for noise -/

/-- How much noise a level has room for. -/
def noiseRoom (g : IndexGroup N) : ℕ :=
  ((fixedQ - 1) / 2 -
    (g.groupOrder * (primaryPlainModulus / 2) + 2) * ((primaryPlainModulus - 1) / 2)) /
    primaryPlainModulus

omit [NeZero N] in
theorem groupOrder_le (g : IndexGroup N) : g.groupOrder ≤ N := by
  have hvalid := g.valid
  change g.l ≤ N
  omega

omit [NeZero N] in
/-- Below it is what a level carries. -/
theorem le_noiseRoom_iff {g : IndexGroup N} (hN : N ≤ 2 ^ log2N) {B : ℕ} :
    B ≤ noiseRoom g ↔ Bfv.Carries primaryPlainModulus fixedQ
      (g.groupOrder * (primaryPlainModulus / 2)) B := by
  have hle : g.groupOrder ≤ 2 ^ log2N := (groupOrder_le g).trans hN
  rw [noiseRoom, Bfv.Carries, Nat.le_div_iff_mul_le (by decide), fixedQ_val]
  simp only [primaryPlainModulus, log2N] at hle ⊢
  omega

/-- **A reply whose noise fits** decrypts. -/
theorem phaseFits_of_noisy {g : IndexGroup N} (hN : N ≤ 2 ^ log2N) {sk ν : CipherRing N}
    {m : PlainRing primaryPlainModulus N} {ct : CipherRing N × CipherRing N}
    (h : Bfv.Noisy (g.groupOrder * (primaryPlainModulus / 2)) sk m ν ct)
    (hν : Bounded (noiseRoom g) ν) :
    Bfv.PhaseFits sk m ct :=
  h.phaseFits (by decide) (by decide) (by decide) (by decide) hν ((le_noiseRoom_iff hN).mp le_rfl)

/-! ## The first level -/

/-- **What a shard replies**, to every query and under every key. -/
theorem Shard.reply_noisy (hfm : fm.Correct) (hN : 16 ≤ N) (s : Shard fm N)
    (heven : s.indexGroup.loopLen % 2 = 0) {q : QueryRef N}
    (hq : s.indexGroup.requiresConj → q.qryConjB.isSome) :
    ∃ a b, getA fm s.db = some a ∧ performPir fm s.db q = some b ∧
      ∀ (c : Fin 8) (sk : CipherRing N), ∀ idx < s.indexGroup.groupOrder,
        Bfv.Noisy (s.indexGroup.groupOrder * (primaryPlainModulus / 2)) sk
          (s.entries.getD (8 * idx + c.val) 0)
          (replyNoise fm s.indexGroup .firstSet (entryElement s.indexGroup s.entries c) q sk idx)
            (a c, b c) := by
  obtain ⟨hpow, -⟩ := s.rank hfm
  obtain ⟨bits, hshape⟩ := s.indexGroup.exists_shape hpow (by omega)
  obtain ⟨h5, hinv⟩ := inverseFive_spec hpow (by omega)
  obtain ⟨scale, hscale, -⟩ := groupOrder_invert hshape
  obtain ⟨r, h⟩ := s.holds hfm (by omega) (odd_inverseFive N) h5 hinv hscale
  have ha := h.prepared.a
  have hb : performPirSplit fm _ (fun _ => q) = _ := h.prepared.performPirSplit_eq hfm hpow hN
    (by rw [h.indexGroup]; exact heven) (by rw [h.indexGroup]; exact fun hc _ => hq hc)
  rw [h.indexGroup, h.useSeeds] at ha hb
  refine ⟨_, _, ha, hb, fun c sk idx hidx => ?_⟩
  exact entry_noisy hshape hpow (by omega) .firstSet s.entries hscale c hidx q sk

/-- The noise `ν` of a shard's reply fits, with that of its switch to 17 and 12
bits. -/
def ReplyNoiseFits (s : Shard fm N) (q : QueryRef N) (sk : CipherRing N) (c : Fin 8)
    (ν : CipherRing N) : Prop :=
  ∀ a b ct, getA fm s.db = some a → performPir fm s.db q = some b → switched fm (a c, b c) = some ct →
    Bounded (noiseRoom s.indexGroup) (ν + Bfv.switchNoise sk (a c, b c) ct)

/-- A reply of the first level keeps within the bound that its noise keeps. -/
theorem firstFits_of_noise (hfm : fm.Correct) (hN : 16 ≤ N) {s : Shard fm N}
    (heven : s.indexGroup.loopLen % 2 = 0) {q : DoubleQueryRef N}
    (hq : s.indexGroup.requiresConj → q.primaryQryConjB.isSome) {sk : CipherRing N} {primaryIdx : ℕ}
    (hidx : primaryIdx < s.indexGroup.groupOrder * simdCount)
    (hfit : ReplyNoiseFits s q.primary sk (Fin.ofNat 8 primaryIdx)
      (replyNoise fm s.indexGroup .firstSet
        (entryElement s.indexGroup s.entries (Fin.ofNat 8 primaryIdx)) q.primary sk
          (primaryIdx / simdCount))) :
    FirstFits fm sk s q primaryIdx := by
  intro a b ct entry ha hb hct hentry
  obtain ⟨a', b', ha', hb', hnoisy⟩ := s.reply_noisy hfm hN heven (q := q.primary) hq
  obtain rfl := Option.some.inj (ha.symm.trans ha')
  obtain rfl := Option.some.inj (hb.symm.trans hb')
  have hdiv : primaryIdx / simdCount < s.indexGroup.groupOrder :=
    Nat.div_lt_of_lt_mul (mul_comm _ simdCount ▸ hidx)
  have hplace : 8 * (primaryIdx / simdCount) + (Fin.ofNat 8 primaryIdx).val = primaryIdx :=
    Nat.div_add_mod primaryIdx 8
  have h := hnoisy (Fin.ofNat 8 primaryIdx) sk _ hdiv
  rw [hplace, List.getD_eq_getElem?_getD, hentry] at h
  exact phaseFits_of_noisy (s.rank_le hfm) (h.switch ct) (hfit a b ct ha hb hct)

/-! ## The second level -/

section Second
variable {fleets : Fleets fm N} {queries : Vector (Option (DoubleQueryRef N)) batchCount}

/-- The second-level query. -/
def DoubleQueryRef.secondary (q : DoubleQueryRef N) : QueryRef N :=
  ⟨q.secondaryQryB, q.secondaryQryConjB, q.gkB⟩

omit [NeZero N] in
theorem secondaryQuery_eq {b : Fin batchCount} {q : DoubleQueryRef N} (h : queries[b] = some q)
    (p : Fin ctxtParts) :
    secondaryQuery queries (slotLane b p) = q.secondary := by
  have hdiv : (slotLane b p).val / ctxtParts = b.val := by
    rw [slotLane_val, Nat.mul_add_div (by decide), Nat.div_eq_of_lt p.isLt, Nat.add_zero]
  have hget : queries[b.val]? = some (some q) := by
    rw [Vector.getElem?_eq_getElem b.isLt]
    exact congrArg some h
  simp only [secondaryQuery, hdiv, hget, Option.join_some]
  rfl

/-- **What a call replies**, slot by slot and lane by lane. -/
theorem call_noisy (hfm : fm.Correct) (hN : 16 ≤ N) (hf : FleetsFit fleets gs)
    (hq : QueriesFit fleets gs queries) {memory memory' : Array CompressedZnx8El}
    {results : Vector (Option (Vector (CipherRing N × CipherRing N) ctxtParts)) batchCount}
    (hcall : performBatchedDoublePir fm fleets.databases queries gs memory =
      some (results, memory')) :
    ∃ entries, primaryPhase fm fleets.databases queries gs = some entries ∧
      ∀ (b : Fin batchCount) q, queries[b] = some q → ∃ reply, results[b] = some reply ∧
        ∀ (p : Fin ctxtParts) (sk : CipherRing N), ∀ j < gs.groupOrder,
          Bfv.Noisy (gs.groupOrder * (primaryPlainModulus / 2)) sk
            (entries.getD (8 * j + slotLane b p) 0)
            (replyNoise fm gs .secondSet
              (entryElement gs entries (slotLane b p)) q.secondary sk j) reply[p] := by
  obtain ⟨parts, entries, h, hrun, -⟩ := primaryPhase_spec hfm hN hf hq
  have hentries := hrun (comparable_of_returns hfm hN hf hq (by rw [hcall]; rfl))
  obtain ⟨s, -⟩ := List.exists_mem_of_ne_nil _ hf.nonempty
  obtain ⟨hpow, hlog⟩ := s.rank hfm
  obtain ⟨bits, hshape⟩ := gs.exists_shape hpow (by omega)
  obtain ⟨h5, hinv⟩ := inverseFive_spec hpow (by omega)
  obtain ⟨scale, hscale, -⟩ := groupOrder_invert hshape
  obtain ⟨memory₁, hsecond⟩ :=
    secondaryPhase_eq hfm hpow hN hlog gs (hf.even hpow (by omega)) (odd_inverseFive N)
    h5 hinv hscale memory h.length (secondaryQuery_isSome hq)
  refine ⟨entries, hentries, fun b q hb => ?_⟩
  simp only [performBatchedDoublePir, hentries, hsecond, Option.bind_eq_bind, Option.bind_some,
    Option.pure_def, Option.some.injEq, Prod.mk.injEq] at hcall
  obtain ⟨rfl, -⟩ := hcall
  refine ⟨_, by rw [Positions.getElem_pos, Vector.getElem_ofFn, if_pos]; simp [hb], fun p sk j hj => ?_⟩
  have hlane := @entry_noisy _ _ fm _ _ _ hshape hpow (by omega) .secondSet entries _ hscale
    (slotLane b p) _ hj
    q.secondary sk
  rw [← secondaryQuery_eq hb p] at hlane ⊢
  rw [Positions.getElem_pos, Vector.getElem_ofFn]
  exact hlane

end Second

/-! ## The errors of a client -/

/-- The keys have the errors they were drawn with. -/
theorem keyError_eq {n : ℕ} (hpow : N = 2 ^ n) {errors : Fin 2 → CipherRing N} {sk : CipherRing N}
    {gk : Vector (CipherRing N) 2}
    (h : Bfv.genGkB (expand fm) (UsedSeeds.getGkSeeds .firstSet) errors sk 5 log2B = some gk)
    (useSeeds : UsedSeeds) (k : Fin 2) :
    keyError (gkA fm useSeeds) (fun k => gk[k]) sk k = errors k := by
  rw [Bfv.genGkB, Bfv.galS_spec odd_five (hpow ▸ coprime_five_two_pow n) sk] at h
  obtain rfl := Option.some.inj h
  simp only [keyError, gkA, Positions.getElem_pos, Vector.getElem_ofFn, sigma]
  have hpay : (C (((2 ^ log2B : ℤ) : ZMod fixedQ) ^ k.val) : CipherRing N) =
    C ((2 ^ log2B) ^ k.val) := by push_cast; rfl
  rw [hpay]
  change errors k - expand fm (UsedSeeds.getGkSeeds .firstSet)[k] * sk + _ +
    expand fm (UsedSeeds.getGkSeeds .firstSet)[k] * sk - _ = _
  ring

/-- So has a level of a query. -/
theorem queryError_eq {g : IndexGroup N} {useSeeds : UsedSeeds} {e eConj sk : CipherRing N} {i : ℕ}
    {qry : CipherRing N × Option (CipherRing N)}
    (h : encLevel fm primaryPlainModulus g useSeeds e eConj sk i = some qry) :
    queryError fm useSeeds 0 qry.1 sk (i * g.queryBasePower) = e ∧
      (g.requiresConj → queryError fm useSeeds 1 (qry.2.getD 0) sk (2 * N - i * g.queryBasePower) =
          eConj) := by
  have henc : ∀ (a : Seed) (e : CipherRing N) (p : ℕ),
      Bfv.encSymB (expand fm) a e sk (X ^ p : PlainRing primaryPlainModulus N) =
      some (e - expand fm a * sk + payloadUnit * X ^ p) := fun a e p =>
    Bfv.encSymB_X_pow (by decide) (by decide) (by decide) (by decide) (by decide) (expand fm) a e sk p
  have herror : ∀ (k : Fin 2) (e : CipherRing N) (p : ℕ),
      queryError fm useSeeds k (e - expand fm useSeeds.getQrySeeds[k] * sk + payloadUnit *
          X ^ p) sk p = e := fun k e p => by
    rw [queryError, qryA]
    ring
  unfold encLevel at h
  split at h
  next =>
    simp only [henc, Option.bind_eq_bind, Option.bind_some] at h
    split at h
    next hc =>
      split at h
      next =>
        obtain rfl := Option.some.inj h
        exact ⟨herror 0 e _, fun _ => herror 1 eConj _⟩
      next => cases h
    next hc =>
      obtain rfl := Option.some.inj h
      exact ⟨herror 0 e _, fun h => absurd h hc⟩
  next => cases h

theorem keyError_add (a b b' : Fin 2 → CipherRing N) (sk : CipherRing N) (k : Fin 2) :
    keyError a b' sk k = keyError a b sk k + (b' k - b k) := by
  rw [keyError, keyError]
  ring

theorem queryError_add (useSeeds : UsedSeeds) (k : Fin 2) (x x' sk : CipherRing N) (p : ℕ) :
    queryError fm useSeeds k x' sk p = queryError fm useSeeds k x sk p + (x' - x) := by
  rw [queryError, queryError]
  ring

/-- **The noise of a level**, from the errors that were drawn and what was moved
on the way. -/
theorem replyNoise_eq {n : ℕ} (hpow : N = 2 ^ n) {g : IndexGroup N} {useSeeds : UsedSeeds}
    {gkErrors : Fin 2 → CipherRing N} {e eConj sk : CipherRing N} {i : ℕ}
    {qry : CipherRing N × Option (CipherRing N)} {gk : Vector (CipherRing N) 2}
    (hgk : Bfv.genGkB (expand fm) (UsedSeeds.getGkSeeds .firstSet) gkErrors sk 5 log2B = some gk)
    (hqry : encLevel fm primaryPlainModulus g useSeeds e eConj sk i = some qry) (te : ℕ → CipherRing N)
    (query : QueryRef N) :
    replyNoise fm g useSeeds te query sk i =
      levelNoise fm g useSeeds te (fun k => gkErrors k + (query.gk k - gk[k]))
      (e + (query.qryB - qry.1)) (eConj + (query.qryConjB.getD 0 - qry.2.getD 0)) := by
  obtain ⟨herror, hconj⟩ := queryError_eq hqry
  have hkey : keyError (gkA fm useSeeds) query.gk sk = fun k => gkErrors k + (query.gk k - gk[k]) :=
      funext fun k => by
    rw [keyError_add _ (fun k => gk[k]), @keyError_eq N _ fm n hpow gkErrors sk gk hgk]
  rw [replyNoise, hkey, queryError_add useSeeds 0 qry.1, herror,
    queryError_add useSeeds 1 (qry.2.getD 0)]
  by_cases hc : g.requiresConj
  · rw [hconj hc]
  · rw [levelNoise, levelNoise, if_neg hc, if_neg hc]

/-- Of those that were drawn, where nothing was moved. -/
theorem replyNoise_self {n : ℕ} (hpow : N = 2 ^ n) {g : IndexGroup N} {useSeeds : UsedSeeds}
    {gkErrors : Fin 2 → CipherRing N} {e eConj sk : CipherRing N} {i : ℕ}
    {qry : CipherRing N × Option (CipherRing N)} {gk : Vector (CipherRing N) 2}
    (hgk : Bfv.genGkB (expand fm) (UsedSeeds.getGkSeeds .firstSet) gkErrors sk 5 log2B = some gk)
    (hqry : encLevel fm primaryPlainModulus g useSeeds e eConj sk i = some qry)
    (te : ℕ → CipherRing N) :
    replyNoise fm g useSeeds te ⟨qry.1, qry.2, gk⟩ sk i =
      levelNoise fm g useSeeds te gkErrors e eConj := by
  rw [replyNoise_eq hpow hgk hqry]
  simp only [QueryRef.gk, sub_self, add_zero]

/-! ## Retrieval -/

/-- What the two levels of a query are made of. -/
theorem levels_of_encDoublePir {primary secondary : IndexGroup N} {errors : QueryErrors N}
    {sk : CipherRing N} {primaryIdx secondaryIdx : ℕ}
    {qry1 qry2 : CipherRing N × Option (CipherRing N)} {gk : Vector (CipherRing N) 2}
    (h : encDoublePir fm primary secondary errors sk primaryIdx secondaryIdx =
      some (qry1, qry2, gk)) :
    primaryIdx < primary.groupOrder * simdCount ∧
      Bfv.genGkB (expand fm) (UsedSeeds.getGkSeeds .firstSet) errors.gk sk 5 log2B = some gk ∧
      encLevel fm primaryPlainModulus primary .firstSet errors.primary errors.primaryConj sk
        (primaryIdx / simdCount) =
        some qry1 ∧
      encLevel fm secondaryPlainModulus secondary .secondSet errors.secondary errors.secondaryConj sk
        (secondaryIdx * simdCount + primaryIdx % simdCount) = some qry2 := by
  rw [encDoublePir] at h
  split at h
  next hidx =>
    simp only [Option.bind_eq_bind, Option.bind_eq_some_iff, Option.pure_def, Option.some.injEq,
      Prod.mk.injEq] at h
    obtain ⟨gk', hgk, qry1', h1, qry2', h2, rfl, rfl, rfl⟩ := h
    exact ⟨hidx.1, hgk, h1, h2⟩
  next => cases h

section Retrieval
variable {fleets : Fleets fm N} {queries : Vector (Option (DoubleQueryRef N)) batchCount}

/-- **Retrieval.** Where the queries can be compared with the fleets, a call over
fleets the server has built returns, and a client whose errors leave a noise
that both levels have room for decrypts the entry it asked for, whatever the
other slot asks and whatever the buffer of the thread holds. -/
theorem retrieves (hfm : fm.Correct) (hN : 16 ≤ N) (hf : FleetsFit fleets gs)
    (hq : QueriesFit fleets gs queries) (hc : Comparable queries fleets)
    (memory : Array CompressedZnx8El) {b : Fin batchCount} {s : Shard fm N} {errors : QueryErrors N}
    {sk : CipherRing N} {primaryIdx secondaryIdx : ℕ} (hs : fleets[b][secondaryIdx]? = some s)
    (heven : s.indexGroup.loopLen % 2 = 0) {qry1 qry2 : CipherRing N × Option (CipherRing N)}
    {gk : Vector (CipherRing N) 2}
    (henc : encDoublePir fm s.indexGroup gs errors sk primaryIdx secondaryIdx =
      some (qry1, qry2, gk)) (hb : queries[b] = some ⟨qry1.1, qry1.2, qry2.1, qry2.2, gk⟩)
    (hfirst : ReplyNoiseFits s ⟨qry1.1, qry1.2, gk⟩ sk (Fin.ofNat 8 primaryIdx)
      (levelNoise fm s.indexGroup .firstSet
        (entryElement s.indexGroup s.entries
          (Fin.ofNat 8 primaryIdx)) errors.gk errors.primary errors.primaryConj))
    (hsecond : ∀ entries, primaryPhase fm fleets.databases queries gs = some entries →
      ∀ p : Fin ctxtParts, Bounded (noiseRoom gs)
        (levelNoise fm gs .secondSet
          (entryElement gs entries (slotLane b p)) errors.gk errors.secondary errors.secondaryConj)) :
    ∃ results memory' reply entry,
      performBatchedDoublePir fm fleets.databases queries gs memory = some (results, memory') ∧
        results[b] = some reply ∧ s.entries[primaryIdx]? = some entry ∧
          decDoublePir sk reply = some entry := by
  obtain ⟨parts, entries, h, hrun, -⟩ := primaryPhase_spec hfm hN hf hq
  obtain ⟨laneReply, hreply⟩ := performBatchedDoublePir_eq hfm hN hf
  obtain ⟨memory', hcall⟩ := hreply queries memory parts entries hq h (hrun hc)
  obtain ⟨entries', hentries', hslots⟩ := call_noisy hfm hN hf hq hcall
  obtain rfl := Option.some.inj ((hrun hc).symm.trans hentries')
  obtain ⟨reply, hres, hnoisy⟩ := hslots b _ hb
  obtain ⟨hidx, hgk, h1, h2⟩ := levels_of_encDoublePir henc
  obtain ⟨hpow, -⟩ := s.rank hfm
  obtain ⟨entry, hentry⟩ := s.getElem?_entries hfm hidx
  refine ⟨_, memory', reply, entry, hcall, hres, hentry, h.decrypts hf (hrun hc) hb hs hentry ?_ ?_⟩
  · refine firstFits_of_noise hfm hN heven (fun hconj => ?_) hidx ?_
    · exact ((hq b _ hb).primary s (List.mem_of_getElem? hs)).symm.trans hconj
    · rwa [DoubleQueryRef.primary, replyNoise_self hpow hgk h1]
  · intro entries' hentries' p part hpart
    obtain rfl := Option.some.inj ((hrun hc).symm.trans hentries')
    have hlt : secondaryIdx < fleets[b].length := (List.getElem?_eq_some_iff.mp hs).1
    have hsize := hf.size b
    have hj : secondaryIdx * simdCount + primaryIdx % simdCount < gs.groupOrder := by
      simp only [simdCount] at hsize ⊢
      omega
    have hlane := hnoisy p sk _ hj
    have hpart' : entries[8 * (secondaryIdx * simdCount + primaryIdx % simdCount) +
      (slotLane b p).val]? = some part := hpart
    rw [List.getD_eq_getElem?_getD, hpart', DoubleQueryRef.secondary,
      replyNoise_self hpow hgk h2] at hlane
    exact phaseFits_of_noisy (s.rank_le hfm) hlane (hsecond entries (hrun hc) p)

end Retrieval

/-! ## Budgets -/

/-- How far the phase of a first-level reply moves in the switch to 17 and 12
bits. -/
def switchBudget (sk : CipherRing N) : ℕ :=
  Bfv.switchBound fixedQ primaryALog2ResponseQ * weight sk +
    Bfv.switchBound fixedQ primaryBLog2ResponseQ

theorem switchNoise_bounded (hfm : fm.Correct) (sk : CipherRing N)
    {ct ct' : CipherRing N × CipherRing N} (h : switched fm ct = some ct') :
    Bounded (switchBudget sk) (Bfv.switchNoise sk ct ct') := by
  have hbits : 1 ≤ 17 ∧ 17 ≤ 64 ∧ 1 ≤ 12 ∧ 12 ≤ 64 := by decide
  obtain ⟨ya, a', ea, -, -, da, ha⟩ :=
    Bfv.exists_switched hfm (q := fixedQ) (by decide) (by decide) hbits.1 hbits.2.1 ct.1
  obtain ⟨yb, b', eb, -, -, db, hb⟩ :=
    Bfv.exists_switched hfm (q := fixedQ) (by decide) (by decide) hbits.2.2.1
    hbits.2.2.2 ct.2
  simp only [switched, primaryALog2ResponseQ, primaryBLog2ResponseQ, ea, eb, da, db,
    Option.bind_eq_bind, Option.bind_some, Option.pure_def, Option.some.injEq] at h
  subst h
  exact (ha.mul sk).add hb

/-- **Errors within the budget** of a level leave a noise it has room for. -/
theorem levelNoise_fits {n : ℕ} (hpow : N = 2 ^ n) {g : IndexGroup N} (useSeeds : UsedSeeds)
    (entries : List (PlainRing primaryPlainModulus N)) (c : Fin 8) {gk : Fin 2 → CipherRing N}
    {e eConj : CipherRing N} (hfit : errorBudget g gk e eConj ≤ noiseRoom g) :
    Bounded (noiseRoom g) (levelNoise fm g useSeeds (entryElement g entries c) gk e eConj) :=
  (levelNoise_bounded hpow useSeeds (bounded_entryElement g entries c) gk e eConj).mono hfit

/-- So do those that leave room for a switch. -/
theorem levelNoise_switch_fits (hfm : fm.Correct) {n : ℕ} (hpow : N = 2 ^ n) {g : IndexGroup N}
    (useSeeds : UsedSeeds) (entries : List (PlainRing primaryPlainModulus N)) (c : Fin 8)
    {gk : Fin 2 → CipherRing N} {e eConj sk : CipherRing N}
    (hfit : errorBudget g gk e eConj + switchBudget sk ≤ noiseRoom g)
    {ct ct' : CipherRing N × CipherRing N} (hswitch : switched fm ct = some ct') :
    Bounded (noiseRoom g)
      (levelNoise fm g useSeeds (entryElement g entries c) gk e eConj + Bfv.switchNoise sk ct ct') :=
  ((levelNoise_bounded hpow useSeeds (bounded_entryElement g entries c) gk e eConj).add
    (switchNoise_bounded hfm sk hswitch)).mono hfit

/-- Errors of ones. -/
def onesErrors : QueryErrors 16 := ⟨fun _ => 1, 1, 1, 1, 1⟩

/-- They keep within the budgets. -/
theorem onesErrors_fit :
    errorBudget (IndexGroup.fullGroup 16) onesErrors.gk 1 1 + switchBudget (1 : CipherRing 16) ≤
    noiseRoom (IndexGroup.fullGroup 16) := by
  have hone : weight (1 : CipherRing 16) ≤ 16 := bounded_one.weight_le
  have h17 : Bfv.switchBound fixedQ 17 ≤ 10 ^ 10 := by norm_num [Bfv.switchBound, fixedQ_val]
  have h12 : Bfv.switchBound fixedQ 12 ≤ 3 * 10 ^ 11 := by norm_num [Bfv.switchBound, fixedQ_val]
  have hswitch : switchBudget (1 : CipherRing 16) ≤ 10 ^ 10 * 16 + 3 * 10 ^ 11 :=
    add_le_add (Nat.mul_le_mul h17 hone) h12
  have hroom : 10 ^ 12 ≤ noiseRoom (IndexGroup.fullGroup 16) := by
    norm_num [noiseRoom, fixedQ_val, IndexGroup.groupOrder, IndexGroup.fullGroup, primaryPlainModulus]
  rw [errorBudget, show (IndexGroup.fullGroup 16).loopLen = 8 by decide, primaryPlainModulus,
    if_pos (show (IndexGroup.fullGroup 16).requiresConj = true by decide)]
  simp only [onesErrors]
  omega

theorem retrieves_ones : ∃ (s : Shard FeanorMath.reference 16)
    (results : Vector (Option (Vector (CipherRing 16 × CipherRing 16) ctxtParts)) batchCount)
    (reply : Vector (CipherRing 16 × CipherRing 16) ctxtParts)
      (entry : PlainRing primaryPlainModulus 16),
    results[(0 : Fin batchCount)] = some reply ∧ s.entries[5]? = some entry ∧
      decDoublePir 1 reply = some entry := by
  obtain ⟨s, hg, -⟩ := exists_rangeShard
  obtain ⟨qry1, qry2, gk, henc, hc1, hc2⟩ :=
    @encDoublePir_spec 16 _ 4 rfl (by decide) FeanorMath.reference s.indexGroup
    (IndexGroup.fullGroup 16) onesErrors 1 5 1 (by rw [hg]; decide) (by decide)
  have hfits : QueriesFit (twoAndOne s) (IndexGroup.fullGroup 16)
      #v[some ⟨qry1.1, qry1.2, qry2.1, qry2.2, gk⟩, some onesDoubleQuery] := by
    refine Fin.forall_fin_two.mpr ⟨?_, ?_⟩
    · rintro q ⟨⟩
      refine ⟨fun s' hs' => ?_, fun h => hc2.trans h⟩
      obtain rfl : s' = s := by simpa using (show s' ∈ [s, s] from hs')
      exact hc1.symm
    · rintro q ⟨⟩
      exact onesDoubleQuery_fits hg fun s' hs' => by simpa using (show s' ∈ [s] from hs')
  obtain ⟨results, -, reply, entry, -, hres, hentry, hdec⟩ :=
    retrieves FeanorMath.reference_correct (by norm_num)
    (twoAndOne_fit s) hfits (fun h => by cases h) #[] (b := 0) (s := s) rfl
      (by rw [hg]; decide) henc rfl
    (fun _ _ _ _ _ hct => levelNoise_switch_fits FeanorMath.reference_correct (n := 4) rfl .firstSet _ _
      (hg ▸ onesErrors_fit) hct)
    (fun _ _ _ => levelNoise_fits (n := 4) rfl .secondSet _ _
      ((Nat.le_add_right _ _).trans onesErrors_fit))
  exact ⟨s, results, reply, entry, hres, hentry, hdec⟩

end DoublePir

end Dnspir
