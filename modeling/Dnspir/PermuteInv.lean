/-
The inverse in-place permutation (`permute_inv`): `values_new[perm(i)] = values[i]`.

The source follows each cycle of `perm` from its first position, which holds
the value in transit: a swap with it fills the next position and takes up the
value that was there.

* `permuteInv_spec`: the run on a bijection.
* `permuteInv_inverse`: `permute` and `permute_inv` undo each other.
-/
import Dnspir.Lib.Loops
import Dnspir.Permute

namespace Dnspir

variable {n : ℕ} {α : Type}

/-- The inner `while`, from `current`: swap with the start along the cycle until it closes. -/
def permuteInvCycle (perm : ℕ → Option ℕ) (start : Fin n) : ℕ → ℕ → Vector Bool n → Vector α n →
    Option (Vector Bool n × Vector α n)
  | 0, _, _, _ => none
  | fuel + 1, current, swappedIndices, values =>
    if h : current < n then
      if swappedIndices[current] then return (swappedIndices, values)
      else do
        let next ← perm current
        permuteInvCycle perm start fuel next (swappedIndices.set current true h)
          (values.swap current start h start.isLt)
    else none

/-- `permute_inv`. Every round of the inner loop but the last marks a new
position, so `n + 1` rounds are never used up. -/
def permuteInv (values : Vector α n) (perm : ℕ → Option ℕ) : Option (Vector α n) := do
  let (_, values) ← (List.finRange n).foldlM
    (fun (s : Vector Bool n × Vector α n) (start : Fin n) => do
      let current ← perm start
      permuteInvCycle perm start (n + 1) current (s.1.set start true start.isLt) s.2)
    (Vector.replicate n false, values)
  return values

/-! ## Correctness -/

namespace Permute

/-- Between two cycles: the filled positions hold their final values, the
others their old ones, and `σ` keeps the two sets apart. -/
structure BetweenInv (σ : Equiv.Perm (Fin n)) (old : Fin n → α) (m : Vector Bool n) (v : Vector α n) :
    Prop where
  filled : ∀ i : Fin n, m[i] = true → v[i] = old (σ.symm i)
  fresh : ∀ i : Fin n, m[i] = false → v[i] = old i
  closed : ∀ i : Fin n, m[σ i] = true ↔ m[i] = true

/-- Within the cycle from `s`, filled up to `last`, whose old value `s` holds in transit. -/
structure WithinInv (σ : Equiv.Perm (Fin n)) (old : Fin n → α) (s last : Fin n) (m : Vector Bool n)
    (v : Vector α n) : Prop where
  filled : ∀ i : Fin n, m[i] = true → i ≠ s → v[i] = old (σ.symm i)
  fresh : ∀ i : Fin n, m[i] = false → v[i] = old i
  start : m[s] = true
  last_filled : m[last] = true
  holds : v[s] = old last
  image : ∀ i : Fin n, m[i] = true → i ≠ last → m[σ i] = true
  preimage : ∀ i : Fin n, m[σ i] = true → σ i ≠ s → m[i] = true ∧ i ≠ last

variable {σ : Equiv.Perm (Fin n)} {old : Fin n → α} {m : Vector Bool n} {v : Vector α n}
  {s last : Fin n}

theorem BetweenInv.within (hb : BetweenInv σ old m v) (hs : m[s] = false) :
    WithinInv σ old s s (m.set s true s.isLt) v where
  filled i hi hne := hb.filled i (((getElem_set_true m s i).mp hi).resolve_right hne)
  fresh i hi := hb.fresh i ((getElem_set_false m s i).mp hi).1
  start := (getElem_set_true m s s).mpr (.inr rfl)
  last_filled := (getElem_set_true m s s).mpr (.inr rfl)
  holds := hb.fresh s hs
  image i hi hne :=
    (getElem_set_true m s _).mpr
      (.inl ((hb.closed i).mpr (((getElem_set_true m s i).mp hi).resolve_right hne)))
  preimage i hi hne := by
    have hm := (hb.closed i).mp (((getElem_set_true m s _).mp hi).resolve_right hne)
    refine ⟨(getElem_set_true m s i).mpr (.inl hm), ?_⟩
    rintro rfl
    rw [hs] at hm
    cases hm

/-- A filled position after `last` is the start: the cycle is closed. -/
theorem WithinInv.close (hw : WithinInv σ old s last m v) (hm : m[σ last] = true) :
    BetweenInv σ old m v := by
  have hc : σ last = s := by
    by_contra h
    exact (hw.preimage last hm h).2 rfl
  refine ⟨fun i hi => ?_, hw.fresh, fun i => ⟨fun hi => ?_, fun hi => ?_⟩⟩
  · by_cases h : i = s
    · rw [h, hw.holds, ← hc, Equiv.symm_apply_apply]
    · exact hw.filled i hi h
  · by_cases h : σ i = s
    · rw [σ.injective (h.trans hc.symm)]
      exact hw.last_filled
    · exact (hw.preimage i hi h).1
  · by_cases h : i = last
    · rw [h, hc]
      exact hw.start
    · exact hw.image i hi h

/-- Otherwise the swap fills it with the value in transit and takes up its own. -/
theorem WithinInv.advance (hw : WithinInv σ old s last m v) {next : Fin n} (hc : σ last = next)
    (hn : m[next] = false) :
    WithinInv σ old s next (m.set next true next.isLt) (v.swap next s next.isLt s.isLt) := by
  have hne : ∀ i : Fin n, m[i] = true → i ≠ next := by
    rintro i hi rfl
    rw [hn] at hi
    cases hi
  have hs := hne s hw.start
  refine ⟨fun i hi his => ?_, fun i hi => ?_, ?_, ?_, ?_, fun i hi hil => ?_, fun i hi his => ?_⟩
  · simp only [Positions.getElem_pos, Vector.getElem_swap, Fin.val_inj, if_neg his]
    rcases (getElem_set_true m next i).mp hi with h | rfl
    · rw [if_neg (hne i h)]
      exact hw.filled i h his
    · rw [if_pos rfl, ← hc, Equiv.symm_apply_apply]
      exact hw.holds
  · obtain ⟨h, hil⟩ := (getElem_set_false m next i).mp hi
    have his : i ≠ s := by
      rintro rfl
      rw [hw.start] at h
      cases h
    simp only [Positions.getElem_pos, Vector.getElem_swap, Fin.val_inj, if_neg his, if_neg hil]
    exact hw.fresh i h
  · exact (getElem_set_true m next s).mpr (.inl hw.start)
  · exact (getElem_set_true m next next).mpr (.inr rfl)
  · simp only [Positions.getElem_pos, Vector.getElem_swap, Fin.val_inj, if_neg hs, if_true]
    exact hw.fresh next hn
  · have h := ((getElem_set_true m next i).mp hi).resolve_right hil
    refine (getElem_set_true m next (σ i)).mpr ?_
    by_cases hl : i = last
    · exact .inr (hl ▸ hc)
    · exact .inl (hw.image i h hl)
  · rcases (getElem_set_true m next (σ i)).mp hi with h | h
    · obtain ⟨hm, -⟩ := hw.preimage i h his
      exact ⟨(getElem_set_true m next i).mpr (.inl hm), hne i hm⟩
    · obtain rfl : i = last := σ.injective (h.trans hc.symm)
      exact ⟨(getElem_set_true m next i).mpr (.inl hw.last_filled), hne i hw.last_filled⟩

variable {perm : ℕ → Option ℕ}

theorem permuteInvCycle_within (hp : ∀ i : Fin n, perm i = some (σ i).val) :
    ∀ (fuel : ℕ) (last next : Fin n)
    (m : Vector Bool n) (v : Vector α n), σ last = next → WithinInv σ old s last m v →
      (unfilled m).card < fuel →
      ∃ m' v', permuteInvCycle perm s fuel next m v = some (m', v') ∧ BetweenInv σ old m' v' ∧
        ∀ i : Fin n, m[i] = true → m'[i] = true := by
  intro fuel
  induction fuel with
  | zero => intro _ _ _ _ _ _ hf; omega
  | succ fuel ih =>
    intro last next m v hc hw hf
    rw [permuteInvCycle, dif_pos next.isLt]
    by_cases hn : m[next] = true
    · exact ⟨m, v, if_pos hn, hw.close (hc ▸ hn), fun _ h => h⟩
    · have hn' : m[next] = false := Bool.eq_false_of_not_eq_true hn
      have hcur : next ∈ unfilled m := by simpa [unfilled] using hn'
      have hcard : (unfilled (m.set next true next.isLt)).card < fuel := by
        rw [unfilled_set, Finset.card_erase_of_mem hcur]
        have := Finset.card_pos.mpr ⟨_, hcur⟩
        omega
      obtain ⟨m', v', he, hb, hsub⟩ := ih next (σ next) _ _ rfl (hw.advance hc hn') hcard
      refine ⟨m', v', ?_, hb, fun i hi => hsub i ((getElem_set_true m next i).mpr (.inl hi))⟩
      refine (if_neg hn).trans ?_
      rw [hp, Option.bind_eq_bind, Option.bind_some]
      exact he

/-- One round of the outer loop: a start that is filled already is left at once. -/
theorem permuteInvCycle_between (hp : ∀ i : Fin n, perm i = some (σ i).val)
    (hb : BetweenInv σ old m v) (s : Fin n) :
    ∃ m' v', permuteInvCycle perm s (n + 1) (σ s) (m.set s true s.isLt) v = some (m', v') ∧
      BetweenInv σ old m' v' ∧
      m'[s] = true ∧ ∀ i : Fin n, m[i] = true → m'[i] = true := by
  by_cases hs : m[s] = true
  · have hset : m.set s true s.isLt = m := by
      refine Vector.ext fun i hi => ?_
      rw [Vector.getElem_set]
      split
      · subst_vars
        exact hs.symm
      · rfl
    refine ⟨m, v, ?_, hb, hs, fun _ h => h⟩
    rw [hset, permuteInvCycle, dif_pos (σ s).isLt]
    exact if_pos ((hb.closed s).mpr hs)
  · have hcard : (unfilled (m.set s true s.isLt)).card < n + 1 := by
      have := Finset.card_filter_le (Finset.univ : Finset (Fin n)) fun i =>
        (m.set s true s.isLt)[i] = false
      rw [Finset.card_univ, Fintype.card_fin] at this
      exact Nat.lt_succ_of_le this
    obtain ⟨m', v', he, hb', hsub⟩ := permuteInvCycle_within hp (n + 1) s (σ s) _ v rfl
      (hb.within (Bool.eq_false_of_not_eq_true hs)) hcard
    exact ⟨m', v', he, hb', hsub s ((getElem_set_true m s s).mpr (.inr rfl)),
      fun i hi => hsub i ((getElem_set_true m s i).mpr (.inl hi))⟩

end Permute

open Permute in
/-- The run on a bijection: `values_new[perm(i)] = values[i]`. -/
theorem permuteInv_spec {σ : Equiv.Perm (Fin n)} {perm : ℕ → Option ℕ}
    (hp : ∀ i : Fin n, perm i = some (σ i).val) (values : Vector α n) :
    permuteInv values perm = some (Vector.ofFn fun i => values[σ.symm i]) := by
  have h0 : BetweenInv σ (fun i => values[i]) (Vector.replicate n false) values :=
    ⟨fun i h => by simp at h, fun _ _ => rfl, fun i => by simp⟩
  have hloop := Loops.foldlM_finRange (n := n) (b := (Vector.replicate n false, values))
    (f := fun (s : Vector Bool n × Vector α n) (start : Fin n) => do
      let current ← perm start
      permuteInvCycle perm start (n + 1) current (s.1.set start true start.isLt) s.2)
    (P := fun k s => BetweenInv σ (fun i => values[i]) s.1 s.2 ∧ ∀ i : Fin n, i.val < k → s.1[i] = true)
    ⟨h0, fun i hi => absurd hi (Nat.not_lt_zero _)⟩
    (fun start s hs => by
      obtain ⟨m', v', he, hb, hstart, hsub⟩ := permuteInvCycle_between hp hs.1 start
      refine ⟨(m', v'), by rw [hp, Option.bind_eq_bind, Option.bind_some, he], hb, fun i hi => ?_⟩
      rcases Nat.lt_succ_iff_lt_or_eq.mp hi with h | h
      · exact hsub i (hs.2 i h)
      · rw [Fin.ext h]
        exact hstart)
  obtain ⟨s, he, hb, hall⟩ := hloop
  have hv : s.2 = Vector.ofFn fun i => values[σ.symm i] := by
    refine Vector.ext fun i hi => ?_
    rw [Vector.getElem_ofFn]
    exact hb.filled ⟨i, hi⟩ (hall ⟨i, hi⟩ hi)
  rw [permuteInv, he, ← hv]
  rfl

/-- **`permute` and `permute_inv` undo each other**, on any bijection of the
positions, and neither fails. -/
theorem permuteInv_inverse (σ : Equiv.Perm (Fin n)) {perm : ℕ → Option ℕ}
    (hp : ∀ i : Fin n, perm i = some (σ i).val) (values : Vector α n) :
    (∃ moved, permuteInv values perm = some moved ∧ (∀ i : Fin n, moved[σ i] = values[i]) ∧
      permute moved perm = some values) ∧
    ∃ moved, permute values perm = some moved ∧ (∀ i : Fin n, moved[i] = values[σ i]) ∧
      permuteInv moved perm = some values := by
  refine ⟨⟨_, permuteInv_spec hp values, fun i => by simp, ?_⟩, _,
    permute_spec σ.injective hp values, fun i => by simp, ?_⟩
  · rw [permute_spec σ.injective hp, Option.some.injEq]
    exact Vector.ext fun i hi => by simp
  · rw [permuteInv_spec hp, Option.some.injEq]
    exact Vector.ext fun i hi => by simp

theorem permuteInv_inverse_rotate : ∃ moved : Vector ℕ 3,
    permuteInv #v[5, 6, 7] (fun i => some ((i + 1) % 3)) = some moved ∧
      permute moved (fun i => some ((i + 1) % 3)) = some #v[5, 6, 7] := by
  obtain ⟨⟨moved, hrun, -, hback⟩, -⟩ :=
    @permuteInv_inverse 3 ℕ (finRotate 3) (fun i => some ((i + 1) % 3))
    (by decide) #v[5, 6, 7]
  exact ⟨moved, hrun, hback⟩

end Dnspir
