/-
The client of the two-level scheme (`double_pir`): when its functions succeed.

* `encDoublePir_spec`: within the two index bounds a query is made, with a
  conjugated ciphertext exactly for the groups that need one.
* `decDoublePir_isSome`: decryption fails only where a triple of digits is
  not a packed pair.
-/
import Dnspir.BfvKeys
import Dnspir.DoublePir

namespace Dnspir

open PIRDatabase

namespace DoublePir

variable {N t : ℕ}

/-! ## Queries -/

theorem loopLen_pos (hN : 1 < N) (g : IndexGroup N) : 0 < g.loopLen := by
  unfold IndexGroup.loopLen
  split
  next h =>
    rcases g.valid with hl | ⟨hl, -⟩
    · omega
    · exact hl
  next => omega

theorem queryBasePower_of_requiresConj (hN : 1 < N) {g : IndexGroup N} (h : g.requiresConj) :
    g.queryBasePower = 1 := by
  have hl : g.l = N := g.groupOrder_eq h
  rw [IndexGroup.queryBasePower, IndexGroup.loopLen, hl, if_neg (lt_irrefl N), Nat.div_self (by omega)]

/-- The moduli of the scheme fit the encryption. -/
theorem exists_encSymB [NeZero N] (ht : Odd t) (hco : Nat.gcd t fixedQ = 1) (hlt : fixedQ * t < 2 ^ 63)
    (expand : Seed → CipherRing N) (a : Seed) (e sk : CipherRing N) (m : PlainRing t N) :
    ∃ b, Bfv.encSymB expand a e sk m = some b := by
  obtain ⟨tInv, eti, hti⟩ := Bfv.exists_invert hco (by decide : 0 < fixedQ)
  obtain ⟨r, hpay, -⟩ := Bfv.exists_payload ht (by decide) hlt hti m
  exact ⟨_, by rw [Bfv.encSymB, eti, Option.bind_eq_bind, Option.bind_some, hpay]; rfl⟩

theorem encLevel_spec [NeZero N] (hN : 1 < N) (fm : FeanorMath) (ht : Odd t)
    (hco : Nat.gcd t fixedQ = 1) (hlt : fixedQ * t < 2 ^ 63) (g : IndexGroup N)
    (useSeeds : UsedSeeds) (e eConj sk : CipherRing N) {i : ℕ} (hi : i < g.groupOrder) :
    ∃ qry, encLevel fm t g useSeeds e eConj sk i = some qry ∧ qry.2.isSome = g.requiresConj := by
  obtain ⟨b, hb⟩ := exists_encSymB ht hco hlt (expand fm) useSeeds.getQrySeeds[0] e sk
    (Negacyclic.X ^ (i * g.queryBasePower) : PlainRing t N)
  rw [encLevel, if_pos (loopLen_pos hN g).ne']
  simp only [hb, Option.bind_eq_bind, Option.bind_some]
  cases hc : g.requiresConj with
  | false => exact ⟨_, rfl, rfl⟩
  | true =>
    have hpow : i * g.queryBasePower ≤ 2 * N := by
      rw [queryBasePower_of_requiresConj hN hc]
      have := g.groupOrder_eq hc
      omega
    obtain ⟨b', hb'⟩ := exists_encSymB ht hco hlt (expand fm) useSeeds.getQrySeeds[1] eConj sk
      (Negacyclic.X ^ (2 * N - i * g.queryBasePower) : PlainRing t N)
    rw [if_pos rfl, if_pos hpow, hb']
    exact ⟨_, rfl, rfl⟩

/-- **A query is made for every pair of indices in range.** -/
theorem encDoublePir_spec [NeZero N] {n : ℕ} (hN : N = 2 ^ n) (h1 : 1 < N) (fm : FeanorMath)
    (primary secondary : IndexGroup N) (errors : QueryErrors N) (sk : CipherRing N)
    {primaryIdx secondaryIdx : ℕ} (hp : primaryIdx < primary.groupOrder * simdCount)
    (hs : secondaryIdx < secondary.groupOrder / simdCount) :
    ∃ qry1 qry2 gk, encDoublePir fm primary secondary errors sk primaryIdx secondaryIdx =
      some (qry1, qry2, gk) ∧
      qry1.2.isSome = primary.requiresConj ∧ qry2.2.isSome = secondary.requiresConj := by
  have hi : primaryIdx / simdCount < primary.groupOrder :=
    Nat.div_lt_of_lt_mul (mul_comm _ simdCount ▸ hp)
  have hj : secondaryIdx * simdCount + primaryIdx % simdCount < secondary.groupOrder := by
    have hmod := Nat.mod_lt primaryIdx (show 0 < simdCount by decide)
    have hle : (secondaryIdx + 1) * simdCount ≤ secondary.groupOrder :=
      (Nat.mul_le_mul_right _ hs).trans (Nat.div_mul_le_self _ _)
    rw [Nat.add_mul, Nat.one_mul] at hle
    omega
  obtain ⟨gk, hgk⟩ : ∃ gk, Bfv.genGkB (expand fm)
      (UsedSeeds.getGkSeeds .firstSet) errors.gk sk 5 log2B = some gk :=
    ⟨_, by rw [Bfv.genGkB, Bfv.galS_spec odd_five (hN ▸ coprime_five_two_pow n) sk]; rfl⟩
  obtain ⟨qry1, hq1, hc1⟩ :=
    encLevel_spec h1 fm (t := primaryPlainModulus) (by decide) (by decide) (by decide) primary
    .firstSet errors.primary errors.primaryConj sk hi
  obtain ⟨qry2, hq2, hc2⟩ :=
    encLevel_spec h1 fm (t := secondaryPlainModulus) (by decide) (by decide) (by decide) secondary
    .secondSet errors.secondary errors.secondaryConj sk hj
  refine ⟨qry1, qry2, gk, ?_, hc1, hc2⟩
  rw [encDoublePir, if_pos ⟨hp, hs⟩]
  simp only [hgk, Option.bind_eq_bind, Option.bind_some, hq1, hq2, Option.pure_def]

/-! ## Replies -/

/-- The number three digits stand for. -/
def packed (data : Vector (ZMod secondaryPlainModulus) ctxtParts) : ℕ :=
  data[0].val + data[1].val * 1025 + data[2].val * 1025 ^ 2

theorem foldr_digits (data : Vector (ZMod secondaryPlainModulus) ctxtParts) :
    data.toList.foldr (fun x integer => integer * secondaryPlainModulus + x.val) 0 = packed data := by
  have hlist : data.toList = [data[0], data[1], data[2]] := by
    refine List.ext_getElem (by simp; rfl) fun i hi _ => ?_
    have hi : i < 3 := hi.trans_eq Vector.length_toList
    interval_cases i <;> rfl
  rw [hlist]
  simp only [List.foldr_cons, List.foldr_nil, packed, secondaryPlainModulus]
  ring

/-- **A triple is accepted** when it is a packed pair of 17 and 12 bits. -/
theorem decodeCiphertextPlaintext_eq (data : Vector (ZMod secondaryPlainModulus) ctxtParts) :
    decodeCiphertextPlaintext data = if packed data / 2 ^ 12 < 2 ^ 17 then
      some (UInt64.ofNat (packed data / 2 ^ 12), UInt64.ofNat (packed data % 2 ^ 12)) else none := by
  rw [decodeCiphertextPlaintext, foldr_digits]
  rfl

theorem decodeCiphertextPlaintext_isSome (data : Vector (ZMod secondaryPlainModulus) ctxtParts) :
    (decodeCiphertextPlaintext data).isSome ↔ packed data < 2 ^ 29 := by
  rw [decodeCiphertextPlaintext_eq]
  split
  next h => simp; omega
  next h => simp; omega

/-- The two parts have 17 and 12 bits. -/
theorem decodeCiphertextPlaintext_lt {data : Vector (ZMod secondaryPlainModulus) ctxtParts}
    {p : UInt64 × UInt64} (h : decodeCiphertextPlaintext data = some p) :
    p.1.toNat < 2 ^ 17 ∧ p.2.toNat < 2 ^ 12 := by
  rw [decodeCiphertextPlaintext_eq] at h
  split at h
  next hlt =>
    cases h
    simp only [UInt64.toNat_ofNat']
    omega
  next => cases h

/-- **The digits of a packed pair** of 17 and 12 bits: nothing overflows, and
they stand for the pair. -/
theorem encodeCiphertextPlaintext_spec {a b : UInt64} (ha : a.toNat < 2 ^ 17) (hb : b.toNat < 2 ^ 12) :
    ∃ data, encodeCiphertextPlaintext a b = some data ∧
      decodeCiphertextPlaintext data = some (a, b) := by
  set n := a.toNat * 2 ^ 12 + b.toNat with hn
  have hlt : n < 2 ^ 29 := by omega
  set data : Vector (ZMod secondaryPlainModulus) ctxtParts := Vector.ofFn fun j =>
    ((n / secondaryPlainModulus ^ j.val % secondaryPlainModulus : ℕ) : ZMod _) with hdata
  have hpacked : packed data = n := by
    have hdigit : ∀ j : Fin ctxtParts, data[j].val = n / 1025 ^ j.val % 1025 := fun j => by
      rw [Positions.getElem_pos, hdata, Vector.getElem_ofFn, ZMod.val_natCast, Nat.mod_mod]
      rfl
    have h2 : n / 1025 ^ 2 = n / 1025 / 1025 := by rw [pow_two, Nat.div_div_eq_div_mul]
    rw [packed, hdigit, hdigit, hdigit]
    change n / 1025 ^ 0 % 1025 + n / 1025 ^ 1 % 1025 * 1025 + n / 1025 ^ 2 % 1025 * 1025 ^ 2 = n
    rw [pow_zero, pow_one, Nat.div_one, h2]
    omega
  refine ⟨data, if_pos ?_, ?_⟩
  · simp only [secondaryPlainModulus, ctxtParts, primaryBLog2ResponseQ]
    omega
  · rw [decodeCiphertextPlaintext_eq, hpacked, if_pos (by omega)]
    have h1 : n / 2 ^ 12 = a.toNat := by omega
    have h2 : n % 2 ^ 12 = b.toNat := by omega
    rw [h1, h2, UInt64.ofNat_toNat, UInt64.ofNat_toNat]

/-- The three plaintexts of a switched ciphertext, coefficient by coefficient. -/
theorem encodeParts_spec {ya yb : List UInt64} (hlenA : ya.length = N) (hlenB : yb.length = N)
    (ha : ∀ y ∈ ya, y.toNat < 2 ^ 17) (hb : ∀ y ∈ yb, y.toNat < 2 ^ 12) :
    ∃ parts : Vector (PlainRing secondaryPlainModulus N) ctxtParts, encodeParts ya yb = some parts ∧
      ∀ i : Fin N, decodeCiphertextPlaintext (Vector.ofFn fun k => parts[k].coeff i) =
        some (ya.get (i.cast hlenA.symm), yb.get (i.cast hlenB.symm)) := by
  obtain ⟨digits, he, hdigits⟩ := Loops.ofFnM_some
    (f := fun i : Fin N => do
      let a ← ya[i.val]?
      let b ← yb[i.val]?
      encodeCiphertextPlaintext a b)
    (P := fun i data => decodeCiphertextPlaintext data =
      some (ya.get (i.cast hlenA.symm), yb.get (i.cast hlenB.symm)))
    fun i => by
      obtain ⟨data, hdata, hdec⟩ :=
        encodeCiphertextPlaintext_spec (ha _ (ya.get_mem (i.cast hlenA.symm)))
        (hb _ (yb.get_mem (i.cast hlenB.symm)))
      have hi := i.isLt
      rw [List.getElem?_eq_getElem (by omega), List.getElem?_eq_getElem (by omega)]
      exact ⟨data, hdata, hdec⟩
  refine ⟨_, by rw [encodeParts, he]; rfl, fun i => ?_⟩
  rw [← hdigits i]
  congr 1
  exact Vector.ext fun k hk => by simp

/-- **The client undoes both levels.** Where the three ciphertexts decrypt to
the digits of a switched ciphertext, and that decrypts to `m`, so does the
reply. -/
theorem decDoublePir_of_parts [NeZero N] {sk : CipherRing N}
    {reply : Vector (CipherRing N × CipherRing N) ctxtParts} {ya yb : List UInt64}
    (hlenA : ya.length = N) (hlenB : yb.length = N)
    {parts : Vector (PlainRing secondaryPlainModulus N) ctxtParts}
    (hparts : ∀ i : Fin N, decodeCiphertextPlaintext (Vector.ofFn fun k => parts[k].coeff i) =
      some (ya.get (i.cast hlenA.symm), yb.get (i.cast hlenB.symm)))
    (hreply : ∀ k : Fin ctxtParts, Bfv.PhaseFits sk parts[k] reply[k]) {a b : CipherRing N}
    (ha : Bfv.modSwitchDecode fixedQ primaryALog2ResponseQ ya = some a)
    (hb : Bfv.modSwitchDecode fixedQ primaryBLog2ResponseQ yb = some b)
    {m : PlainRing primaryPlainModulus N} (hm : Bfv.PhaseFits sk m (a, b)) :
    decDoublePir sk reply = some m := by
  have hdec :
      (Vector.ofFnM fun k : Fin ctxtParts => Bfv.dec secondaryPlainModulus sk reply[k]) = some parts :=
    Loops.ofFnM_eq_some fun k => (hreply k).dec (by decide) (by decide) (by decide) (by decide)
  have hcoeffs : (Vector.ofFnM
      fun i : Fin N => decodeCiphertextPlaintext (Vector.ofFn fun k => parts[k].coeff i)) =
      some (Vector.ofFn fun i : Fin N => (ya.get (i.cast hlenA.symm), yb.get (i.cast hlenB.symm))) :=
    Loops.ofFnM_eq_some fun i => by simpa using hparts i
  have hfst : ((Vector.ofFn
      fun i : Fin N => (ya.get (i.cast hlenA.symm), yb.get (i.cast hlenB.symm))).map
      Prod.fst).toList = ya := List.ext_getElem (by simp [hlenA]) fun i _ _ => by simp
  have hsnd : ((Vector.ofFn
      fun i : Fin N => (ya.get (i.cast hlenA.symm), yb.get (i.cast hlenB.symm))).map
      Prod.snd).toList = yb := List.ext_getElem (by simp [hlenB]) fun i _ _ => by simp
  simp only [decDoublePir, hdec, hcoeffs, hfst, hsnd, ha, hb, Option.bind_eq_bind, Option.bind_some]
  exact hm.dec (by decide) (by decide) (by decide) (by decide)

/-- The digits a reply stands for at coefficient `i`: for each ciphertext the
nearest multiple of `q/1025` to the phase. -/
def replyDigits [NeZero N] (sk : CipherRing N)
    (reply : Vector (CipherRing N × CipherRing N) ctxtParts) (i : Fin N) :
    Vector (ZMod secondaryPlainModulus) ctxtParts :=
  reply.map fun ct => Bfv.nearest secondaryPlainModulus ((ct.1 * sk + ct.2).coeff i)

/-- The first decryption gives the digits. -/
theorem decDoublePir_eq [NeZero N] (sk : CipherRing N)
    (reply : Vector (CipherRing N × CipherRing N) ctxtParts) :
    decDoublePir sk reply = (do
      let coeffs ← Vector.ofFnM fun i : Fin N => decodeCiphertextPlaintext (replyDigits sk reply i)
      let a ← Bfv.modSwitchDecode fixedQ primaryALog2ResponseQ (coeffs.map Prod.fst).toList
      let b ← Bfv.modSwitchDecode fixedQ primaryBLog2ResponseQ (coeffs.map Prod.snd).toList
      Bfv.dec primaryPlainModulus sk (a, b)) := by
  have hdec : ∀ ct : CipherRing N × CipherRing N, Bfv.dec secondaryPlainModulus sk ct =
      some ⟨fun i => Bfv.nearest secondaryPlainModulus ((ct.1 * sk + ct.2).coeff i)⟩ :=
    Bfv.dec_eq (by decide) (by decide) (by decide) (by decide) sk
  have hparts : (Vector.ofFnM fun k : Fin ctxtParts => Bfv.dec secondaryPlainModulus sk reply[k]) =
      some (reply.map fun ct =>
          ⟨fun i => Bfv.nearest secondaryPlainModulus ((ct.1 * sk + ct.2).coeff i)⟩) :=
    Loops.ofFnM_eq_some fun k => by simpa using hdec reply[k]
  have hdata : ∀ i, (Vector.ofFn fun k : Fin ctxtParts => (reply.map fun ct => (⟨fun i =>
      Bfv.nearest secondaryPlainModulus ((ct.1 * sk + ct.2).coeff i)⟩ :
        PlainRing secondaryPlainModulus N))[k].coeff i) =
      replyDigits sk reply i := fun i => Vector.ext fun k hk => by simp [replyDigits]
  simp only [decDoublePir, hparts, Option.bind_eq_bind, Option.bind_some, hdata]

/-- **Decryption fails only on triples that are no packed pair.** -/
theorem decDoublePir_isSome [NeZero N] (sk : CipherRing N)
    (reply : Vector (CipherRing N × CipherRing N) ctxtParts) :
    (decDoublePir sk reply).isSome ↔ ∀ i, packed (replyDigits sk reply i) < 2 ^ 29 := by
  rw [decDoublePir_eq]
  simp only [← decodeCiphertextPlaintext_isSome, ← Loops.isSome_ofFnM]
  cases hv : (Vector.ofFnM fun i : Fin N => decodeCiphertextPlaintext (replyDigits sk reply i)) with
  | none => simp
  | some coeffs =>
    have hlt := fun i : Fin N => decodeCiphertextPlaintext_lt (Loops.ofFnM_getElem hv i)
    have hlt1 : ∀ y ∈ (coeffs.map Prod.fst).toList, y.toNat < 2 ^ 17 := fun y hy => by
      obtain ⟨i, hi, rfl⟩ := List.getElem_of_mem hy
      simpa using (hlt ⟨i, by simpa using hi⟩).1
    have hlt2 : ∀ y ∈ (coeffs.map Prod.snd).toList, y.toNat < 2 ^ 12 := fun y hy => by
      obtain ⟨i, hi, rfl⟩ := List.getElem_of_mem hy
      simpa using (hlt ⟨i, by simpa using hi⟩).2
    obtain ⟨a, ha⟩ := Bfv.modSwitchDecode_isSome (N := N) (q := fixedQ) (by decide) (by decide)
      (by decide) (by simp) hlt1
    obtain ⟨b, hb⟩ := Bfv.modSwitchDecode_isSome (N := N) (q := fixedQ) (by decide) (by decide)
      (by decide) (by simp) hlt2
    have hdec := Bfv.dec_eq (t := primaryPlainModulus) (by decide) (by decide) (by decide)
      (by decide) sk (a, b)
    simp only [Option.bind_eq_bind, Option.bind_some, primaryALog2ResponseQ, primaryBLog2ResponseQ,
      ha, hb, hdec, Option.isSome_some]

end DoublePir

end Dnspir
