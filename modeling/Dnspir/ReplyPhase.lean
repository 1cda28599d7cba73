/-
The reply of one shard, for every content of its memory.

`performPirSplit_phase`: the `a`-part `preprocess` computes and the `b`-part
`perform_pir_split` computes together have the phase of the plain recurrence,
plus the gadget digits times the errors of the Galois keys. Contents and
digits are read from the slices as `from_simd_element` reads them
(`storedElement`).
-/
import Dnspir.PerformPirFacts
import Dnspir.FeanorMathFacts

namespace Dnspir

open SpecialZnx8 PIRDatabase Negacyclic

variable {N t : ℕ} [NeZero N]

/-- Element `i` of two slices, lane by lane. -/
def storedElement (fm : FeanorMath) (db : PIRDatabase N t) (s : CompressedSlices) (i : ℕ) :
    Option (Fin 8 → CipherRing N) := do
  let fst ← loadEntry s.fst i
  let snd ← loadEntry s.snd i
  fromSimdElement fm db ⟨fst.map uncompress, snd.map uncompress⟩

/-- Slices of the given length whose elements are representatives. -/
structure CompressedSlices.Valid (s : CompressedSlices) (size : ℕ) : Prop where
  len : CompressedSlices.hasLen s size
  fst : ∀ x ∈ s.fst, ∀ c, Avx.lane (uncompress x) c ≤ 2 * rnsBase0.modulus
  snd : ∀ x ∈ s.snd, ∀ c, Avx.lane (uncompress x) c ≤ 2 * rnsBase1.modulus

/-- A database with other stored entries. -/
def PIRDatabase.withContents (db : PIRDatabase N t) (te tc : CompressedSlices) : PIRDatabase N t :=
  { db with transformedEntries := te, transformedEntriesConj := tc }

variable {fm : FeanorMath} {db : PIRDatabase N t} {r : Roots} {s : CompressedSlices} {i L : ℕ}

theorem Stored.storedElement (hfm : fm.Correct) (h : DbOk db r) {f : Fin 8 → CipherRing N}
    (hs : Stored r s i f) :
    storedElement fm db s i = some f := by
  obtain ⟨v0, v1, e0, e1, hf⟩ := hs
  simp only [Dnspir.storedElement, e0, e1, Option.bind_eq_bind, Option.bind_some]
  exact fromSimdElement_spec hfm h hf

omit [NeZero N] in
theorem loadEntry_mem {slice : Array CompressedZnx8El} (hlen : slice.size = N * L) (hi : i < L) :
    ∃ v : Vector CompressedZnx8El N, loadEntry slice i = some v ∧ ∀ j : Fin N, v[j] ∈ slice := by
  refine Loops.ofFnM_some (P := fun _ x => x ∈ slice) fun j => ?_
  have hle : i * N + N ≤ N * L := by
    rw [← Nat.succ_mul, mul_comm N L]
    exact Nat.mul_le_mul_right N hi
  have hlt : i * N + j.val < slice.size := by have := j.isLt; omega
  exact ⟨slice[i * N + j.val], Array.getElem?_eq_getElem hlt, Array.getElem_mem hlt⟩

/-- Every chunk of valid slices holds ring elements. -/
theorem CompressedSlices.Valid.exists_stored (h : DbOk db r) (hs : CompressedSlices.Valid s (N * L))
    (hi : i < L) :
    ∃ f : Fin 8 → CipherRing N, Stored r s i f := by
  obtain ⟨v0, e0, h0⟩ := loadEntry_mem hs.len.1 hi
  obtain ⟨v1, e1, h1⟩ := loadEntry_mem hs.len.2 hi
  obtain ⟨f, hf⟩ := exists_rnsRep h (x := ⟨v0.map uncompress, v1.map uncompress⟩)
    ⟨fun j c => by simpa using hs.fst _ (h0 j) c, fun j c => by simpa using hs.snd _ (h1 j) c⟩
  exact ⟨f, v0, v1, e0, e1, hf⟩

theorem CompressedSlices.Valid.exists_contents (h : DbOk db r) (hs : CompressedSlices.Valid s (N * L)) :
    ∃ T : Fin 8 → ℕ → CipherRing N, ∀ i < L, Stored r s i fun c => T c i := by
  choose! f hf using fun i (hi : i < L) => hs.exists_stored h hi
  exact ⟨fun c i => f i c, hf⟩

omit [NeZero N] in
theorem DbShape.withContents (h : DbShape db) {te tc : CompressedSlices}
    (hte : te.Valid (N * db.indexGroup.loopLen))
    (htc : tc.Valid (if db.indexGroup.requiresConj then N * db.indexGroup.loopLen else 0)) :
    DbShape (db.withContents te tc) where
  te := hte.len
  gk := h.gk
  teConj := fun hc => (if_pos hc ▸ htc).len
  gkConj := h.gkConj
  noConj := fun hc => (if_neg hc ▸ htc).len

/-- The phase one loop contributes: the recurrence on the phase of the query,
and the digits times the key errors. -/
def loopPhase (gkA gkB : Fin 2 → CipherRing N) (qryA qryB s : CipherRing N) (te : ℕ → CipherRing N)
    (digits : ℕ → Fin 2 → CipherRing N) (L : ℕ) : CipherRing N :=
  ∑ i ∈ Finset.range L, sigma^[L - 1 - i]
    (te i * (qryA * s + qryB) + ∑ k, digits i k * keyError gkA gkB s k)

/-- What a loop contributes to the two halves of a reply has the phase of the
loop. -/
theorem loopPhase_eq (gkA gkB : Fin 2 → CipherRing N) (qryA qryB s : CipherRing N)
    (te : ℕ → CipherRing N) (L : ℕ) :
    loopPhase gkA gkB qryA qryB s te (digits gkA qryA te) L =
      aRec gkA qryA te L * s + bRec (digits gkA qryA te) te gkB qryB L :=
  (reply_phase gkA gkB qryA qryB s te L).symm

omit [NeZero N] in
/-- The ranks the kernel runs on are whole blocks. -/
theorem rank_mod_sixteen {n : ℕ} (hpow : N = 2 ^ n) (hN : 16 ≤ N) : N % 16 = 0 := by
  have h4 : 4 ≤ n := by
    by_contra hlt
    have := Nat.pow_le_pow_right (show 0 < 2 by norm_num) (show n ≤ 3 by omega)
    omega
  rw [hpow]
  exact Nat.mod_eq_zero_of_dvd (pow_dvd_pow 2 h4)

/-- Both halves of the reply, for the ring elements a database holds. -/
theorem reply_of_stored (hfm : fm.Correct) (h : DbOk db r) (hs : DbShape db)
    (hpow : N = 2 ^ Nat.clog 2 N) (hN : 16 ≤ N) (heven : db.indexGroup.loopLen % 2 = 0)
    {T TC : Fin 8 → ℕ → CipherRing N}
    (hT : ∀ i < db.indexGroup.loopLen, Stored r db.transformedEntries i fun c => T c i)
    (hTC : db.indexGroup.requiresConj → ∀ i < db.indexGroup.loopLen,
      Stored r db.transformedEntriesConj i fun c => TC c i) :
    ∃ (db' : PIRDatabase N t) (a : Fin 8 → CipherRing N) (D DC : Fin 8 → ℕ → Fin 2 → CipherRing N)
      (reply : Fin 8 → QueryRef N → CipherRing N),
      preprocess fm db = some db' ∧ getA fm db' = some a ∧ DbOk db' r ∧
      (∀ i < db.indexGroup.loopLen, ∀ k : Fin 2, Stored r db'.innerProdGk[k] i fun c => D c i k) ∧
      (db.indexGroup.requiresConj →
        ∀ i < db.indexGroup.loopLen, ∀ k : Fin 2, Stored r db'.innerProdConjGk[k] i fun c => DC c i k) ∧
      ∀ queries : Fin 8 → QueryRef N, (db.indexGroup.requiresConj → ∀ c, (queries c).qryConjB.isSome) →
        performPirSplit fm db' queries = some (fun c => reply c (queries c)) ∧
        ∀ c s, a c * s + reply c (queries c) =
          loopPhase (gkA fm db.useSeeds) (queries c).gk (qryA fm db.useSeeds 0) (queries c).qryB s
            (T c) (D c) db.indexGroup.loopLen +
          if db.indexGroup.requiresConj then
            loopPhase (gkA fm db.useSeeds) (queries c).gk (qryA fm db.useSeeds 1)
              ((queries c).qryConjB.getD 0) s (TC c)
              (DC c) db.indexGroup.loopLen
          else 0 := by
  have h5 : Nat.Coprime 5 (2 * N) := hpow ▸ coprime_five_two_pow _
  have hdvd := rank_mod_sixteen hpow hN
  obtain ⟨sum, gk, gkConj, epre, hsum, hsl, hslc⟩ := preprocess_spec hfm h hs h5 hT hTC
  have ok : DbOk ({ db with replyA := some sum, innerProdGk := gk, innerProdConjGk := gkConj } :
      PIRDatabase N t) r := ⟨h.ok0, h.ok1⟩
  refine ⟨_, _, fun c => digits (gkA fm db.useSeeds) (qryA fm db.useSeeds 0) (T c),
    fun c => digits (gkA fm db.useSeeds) (qryA fm db.useSeeds 1) (TC c),
    fun c q => replyB db.indexGroup (digits (gkA fm db.useSeeds) (qryA fm db.useSeeds 0) (T c))
      (digits (gkA fm db.useSeeds) (qryA fm db.useSeeds 1) (TC c)) (T c) (TC c) q,
    epre, fromSimdElement_spec hfm ok hsum, ok, hsl.digits, fun hc => (hslc hc).digits,
      fun queries hq => ⟨?_, ?_⟩⟩
  · exact performPirSplit_spec hfm ok hdvd hN h5 heven hsl hslc hq
  · intro c s
    simp only [loopPhase_eq, replyB]
    split <;> ring

/-- **The homomorphic evaluation of one shard.** Lane `c` of the reply is a
function of the query of lane `c` alone, and its phase under every secret is
that of the plain recurrence, plus the digits times the key errors. -/
theorem performPirSplit_phase (hfm : fm.Correct) {g : IndexGroup N} {useSeeds : UsedSeeds}
    {memory : Array CompressedZnx8El} {db₀ : PIRDatabase N t}
    (hcreate : create fm t g useSeeds memory = some db₀) (hN : 16 ≤ N) (heven : g.loopLen % 2 = 0)
    {te tc : CompressedSlices} (hte : te.Valid (N * g.loopLen))
    (htc : tc.Valid (if g.requiresConj then N * g.loopLen else 0)) :
    ∃ (db : PIRDatabase N t) (a : Fin 8 → CipherRing N) (T TC : Fin 8 → ℕ → CipherRing N)
      (D DC : Fin 8 → ℕ → Fin 2 → CipherRing N) (reply : Fin 8 → QueryRef N → CipherRing N),
      preprocess fm (db₀.withContents te tc) = some db ∧ getA fm db = some a ∧
      (∀ i < g.loopLen, storedElement fm db te i = some fun c => T c i) ∧
      (∀ i < g.loopLen, ∀ k : Fin 2, storedElement fm db db.innerProdGk[k] i = some fun c => D c i k) ∧
      (g.requiresConj → ∀ i < g.loopLen, storedElement fm db tc i = some fun c => TC c i) ∧
      (g.requiresConj →
        ∀ i < g.loopLen, ∀ k : Fin 2,
          storedElement fm db db.innerProdConjGk[k] i = some fun c => DC c i k) ∧
      ∀ queries : Fin 8 → QueryRef N, (g.requiresConj → ∀ c, (queries c).qryConjB.isSome) →
        performPirSplit fm db queries = some (fun c => reply c (queries c)) ∧
        ∀ c s, a c * s + reply c (queries c) =
          loopPhase (gkA fm useSeeds) (queries c).gk (qryA fm useSeeds 0) (queries c).qryB s (T c)
            (D c) g.loopLen +
          if g.requiresConj then
            loopPhase (gkA fm useSeeds) (queries c).gk (qryA fm useSeeds 1)
              ((queries c).qryConjB.getD 0) s (TC c) (DC c) g.loopLen
          else 0 := by
  obtain ⟨rfl, rfl, hpow, r, hok, hshape, -⟩ := create_spec hfm hcreate
  have hok' : DbOk (db₀.withContents te tc) r := ⟨hok.ok0, hok.ok1⟩
  obtain ⟨T, hT⟩ := hte.exists_contents hok
  have hTC : ∃ TC : Fin 8 → ℕ → CipherRing N, db₀.indexGroup.requiresConj →
      ∀ i < db₀.indexGroup.loopLen, Stored r tc i fun c => TC c i := by
    by_cases hc : db₀.indexGroup.requiresConj
    · obtain ⟨TC, hTC⟩ := (if_pos hc ▸ htc).exists_contents hok
      exact ⟨TC, fun _ => hTC⟩
    · exact ⟨fun _ _ => 0, fun h => absurd h hc⟩
  obtain ⟨TC, hTC⟩ := hTC
  obtain ⟨db, a, D, DC, reply, epre, ea, ok, hD, hDC, hreply⟩ :=
    reply_of_stored hfm hok' (hshape.withContents hte htc)
    hpow hN heven hT hTC
  exact ⟨db, a, T, TC, D, DC, reply, epre, ea, fun i hi => (hT i hi).storedElement hfm ok,
    fun i hi k => (hD i hi k).storedElement hfm ok, fun hc i hi => (hTC hc i hi).storedElement hfm ok,
    fun hc i hi k => (hDC hc i hi k).storedElement hfm ok, hreply⟩

/-- Slices of ones: constant polynomials. -/
def onesSlices (size : ℕ) : CompressedSlices :=
  ⟨Array.replicate size (Vector.replicate 8 1), Array.replicate size (Vector.replicate 8 1)⟩

theorem lane_one (c : Fin 8) : Avx.lane (uncompress (Vector.replicate 8 1)) c = 1 := by
  simp only [Avx.lane, Positions.getElem_pos, uncompress, Avx.getElem_cvtepi32,
    Vector.getElem_replicate]
  rfl

theorem lane_one_le {p : ℕ} (hp : 0 < p) (c : Fin 8) :
    Avx.lane (uncompress (Vector.replicate 8 1)) c ≤ 2 * p := by
  have h1 := lane_one c
  omega

theorem onesSlices_valid (size : ℕ) : (onesSlices size).Valid size where
  len := ⟨Array.size_replicate, Array.size_replicate⟩
  fst := fun x hx => by
    rw [Array.eq_of_mem_replicate hx]
    exact fun c => lane_one_le (modulus_pos _) c
  snd := fun x hx => by
    rw [Array.eq_of_mem_replicate hx]
    exact fun c => lane_one_le (modulus_pos _) c

/-- A query of ones. -/
def onesQuery : QueryRef 16 := ⟨1, some 1, #v[1, 1]⟩

theorem performPirSplit_phase_ones : ∃ (db₀ db : PIRDatabase 16 1025) (a b : Fin 8 → CipherRing 16)
    (T TC : Fin 8 → ℕ → CipherRing 16) (D DC : Fin 8 → ℕ → Fin 2 → CipherRing 16),
    create FeanorMath.reference 1025 (IndexGroup.fullGroup 16) .firstSet
      (Array.replicate (requiredMemoryGeneral (IndexGroup.fullGroup 16)) (Vector.replicate 8 0)) =
        some db₀ ∧
    preprocess FeanorMath.reference (db₀.withContents (onesSlices 128) (onesSlices 128)) = some db ∧
    getA FeanorMath.reference db = some a ∧
    performPirSplit FeanorMath.reference db (fun _ => onesQuery) = some b ∧
    ∀ c s, a c * s + b c =
      loopPhase (gkA FeanorMath.reference .firstSet) onesQuery.gk
        (qryA FeanorMath.reference .firstSet 0) onesQuery.qryB s (T c) (D c) 8 +
      loopPhase (gkA FeanorMath.reference .firstSet) onesQuery.gk
        (qryA FeanorMath.reference .firstSet 1) (onesQuery.qryConjB.getD 0) s (TC c) (DC c) 8 := by
  obtain ⟨db₀, hdb⟩ := create_isSome (t := 1025) FeanorMath.reference_correct
    (IndexGroup.fullGroup 16) .firstSet
    (show 16 = 2 ^ 4 by norm_num) (by decide) Array.size_replicate
  obtain ⟨db, a, T, TC, D, DC, reply, hpre, ha, -, -, -, -, h⟩ :=
    performPirSplit_phase FeanorMath.reference_correct hdb
    (by norm_num) (by decide) (onesSlices_valid 128) (onesSlices_valid 128)
  obtain ⟨hb, hphase⟩ := h (fun _ => onesQuery) fun _ _ => rfl
  refine ⟨db₀, db, a, _, T, TC, D, DC, hdb, hpre, ha, hb, fun c s => ?_⟩
  have hs := hphase c s
  rw [if_pos (show (IndexGroup.fullGroup 16).requiresConj = true by decide),
    show (IndexGroup.fullGroup 16).loopLen = 8 by decide] at hs
  exact hs

end Dnspir
