/-
In-place permutation of a vector (`permute`): `values_new[i] = values[perm(i)]`.

The source follows each cycle of `perm` with swaps, marking the positions it
has filled. A run of `permute` on a bijection yields exactly the permuted
vector (`permute_spec`). `perm` may fail, as the closures the callers pass
can, and an index it returns out of range fails the marking lookup.
-/
import Mathlib
import Dnspir.Lib.Positions

namespace Dnspir

variable {n : ℕ} {α : Type}

/-- The inner `while`, from `current`: swap along the cycle until the next
position is already filled. -/
def permuteCycle (perm : ℕ → Option ℕ) : ℕ → Fin n → Vector Bool n → Vector α n →
    Option (Vector Bool n × Vector α n)
  | 0, _, _, _ => none
  | fuel + 1, current, swappedIndices, values => do
    let next ← perm current
    if h : next < n then
      if swappedIndices[next] then
        return (swappedIndices.set current true, values)
      else
        permuteCycle perm fuel ⟨next, h⟩ (swappedIndices.set current true) (values.swap current next)
    else none

/-- `permute`. A cycle marks a new position with every swap, so `n + 1`
rounds of the inner loop are never used up. -/
def permute (values : Vector α n) (perm : ℕ → Option ℕ) : Option (Vector α n) := do
  let (_, values) ← (List.finRange n).foldlM
    (fun (s : Vector Bool n × Vector α n) start => permuteCycle perm (n + 1) start s.1 s.2)
    (Vector.replicate n false, values)
  return values

/-! ## Correctness -/

namespace Permute

/-- The positions not filled yet, which bound the rounds of the inner loop. -/
def unfilled (m : Vector Bool n) : Finset (Fin n) := Finset.univ.filter fun i => m[i] = false

theorem unfilled_set (m : Vector Bool n) (c : Fin n) :
    unfilled (m.set c true) = (unfilled m).erase c := by
  ext i
  simp only [unfilled, Finset.mem_filter, Finset.mem_univ, true_and, Finset.mem_erase,
    Positions.getElem_pos, Vector.getElem_set, Fin.val_inj, ne_eq]
  by_cases h : c = i
  · simp [h]
  · simp [h, Ne.symm h]

theorem getElem_set_true (m : Vector Bool n) (c i : Fin n) :
    (m.set c true)[i] = true ↔ m[i] = true ∨ i = c := by
  simp only [Positions.getElem_pos, Vector.getElem_set, Fin.val_inj]
  by_cases h : c = i
  · simp [h]
  · simp [h, Ne.symm h]

theorem getElem_set_false (m : Vector Bool n) (c i : Fin n) :
    (m.set c true)[i] = false ↔ m[i] = false ∧ i ≠ c := by
  rw [← Bool.not_eq_true, ← Bool.not_eq_true, getElem_set_true, not_or]

/-- Between two cycles: the filled positions hold their final values, the
others their old ones, and `σ` keeps the two sets apart. -/
structure Between (σ : Fin n → Fin n) (old : Fin n → α) (m : Vector Bool n) (v : Vector α n) :
    Prop where
  filled : ∀ i : Fin n, m[i] = true → v[i] = old (σ i)
  fresh : ∀ i : Fin n, m[i] = false → v[i] = old i
  closed : ∀ i : Fin n, m[σ i] = true ↔ m[i] = true

/-- Within the cycle from `s`, about to fill `current`, which holds the old
value of `s`; the part filled so far leads from `s` to `current`. -/
structure Within (σ : Fin n → Fin n) (old : Fin n → α) (s current : Fin n) (m : Vector Bool n)
    (v : Vector α n) : Prop where
  filled : ∀ i : Fin n, m[i] = true → v[i] = old (σ i)
  fresh : ∀ i : Fin n, m[i] = false → i ≠ current → v[i] = old i
  current_fresh : m[current] = false
  holds : v[current] = old s
  image : ∀ i : Fin n, m[i] = true → m[σ i] = true ∨ σ i = current
  preimage : ∀ i : Fin n, m[σ i] = true ∨ σ i = current → m[i] = true ∨ σ i = s
  start : m[s] = true ∨ s = current

variable {σ : Fin n → Fin n} {old : Fin n → α} {v : Vector α n} {m : Vector Bool n} {s current : Fin n}

theorem Between.within (hb : Between σ old m v) (hs : m[s] = false) : Within σ old s s m v where
  filled := hb.filled
  fresh i hi _ := hb.fresh i hi
  current_fresh := hs
  holds := hb.fresh s hs
  image i hi := .inl ((hb.closed i).mpr hi)
  preimage i hi := hi.imp_left (hb.closed i).mp
  start := .inr rfl

/-- The cycle closes when `σ current` is the position it started from. -/
theorem Within.close (hσ : Function.Injective σ) (hw : Within σ old s current m v)
    (hc : σ current = s) :
    Between σ old (m.set current true) v where
  filled i hi := by
    rcases (getElem_set_true m current i).mp hi with h | rfl
    · exact hw.filled i h
    · rw [hw.holds, hc]
  fresh i hi := by
    obtain ⟨h, hne⟩ := (getElem_set_false m current i).mp hi
    exact hw.fresh i h hne
  closed i := by
    rw [getElem_set_true, getElem_set_true]
    constructor
    · intro h
      exact (hw.preimage i h).imp_right fun hi => hσ (hi.trans hc.symm)
    · rintro (h | rfl)
      · exact hw.image i h
      · rw [hc]; exact hw.start

/-- Otherwise the swap fills `current` and moves on to `σ current`. -/
theorem Within.advance (hσ : Function.Injective σ) (hw : Within σ old s current m v)
    (hn : m[σ current] = false) (hne : σ current ≠ current) (hns : σ current ≠ s) :
    Within σ old s (σ current) (m.set current true) (v.swap current (σ current)) where
  filled i hi := by
    simp only [Positions.getElem_pos, Vector.getElem_swap, Fin.val_inj]
    rcases (getElem_set_true m current i).mp hi with h | rfl
    · have h1 : i ≠ current := fun e => by rw [e, hw.current_fresh] at h; cases h
      have h2 : i ≠ σ current := fun e => by rw [e, hn] at h; cases h
      rw [if_neg h1, if_neg h2]
      exact hw.filled i h
    · rw [if_pos rfl]
      exact hw.fresh _ hn hne
  fresh i hi hi' := by
    obtain ⟨h, h1⟩ := (getElem_set_false m current i).mp hi
    simp only [Positions.getElem_pos, Vector.getElem_swap, Fin.val_inj]
    rw [if_neg h1, if_neg hi']
    exact hw.fresh i h h1
  current_fresh := (getElem_set_false m current _).mpr ⟨hn, hne⟩
  holds := by
    simp only [Positions.getElem_pos, Vector.getElem_swap, Fin.val_inj]
    rw [if_neg hne, if_true]
    exact hw.holds
  image i hi := by
    rw [getElem_set_true]
    rcases (getElem_set_true m current i).mp hi with h | rfl
    · exact .inl (hw.image i h)
    · exact .inr rfl
  preimage i hi := by
    rw [getElem_set_true] at hi ⊢
    rcases hi with h | h
    · exact (hw.preimage i h).imp_left .inl
    · exact .inl (.inr (hσ h))
  start := .inl ((getElem_set_true m current s).mpr hw.start)

variable {perm : ℕ → Option ℕ}

theorem permuteCycle_within (hσ : Function.Injective σ) (hp : ∀ i : Fin n, perm i = some (σ i).val) :
    ∀ (fuel : ℕ) (current : Fin n) (m : Vector Bool n) (v : Vector α n), Within σ old s current m v →
      (unfilled m).card < fuel →
      ∃ m' v', permuteCycle perm fuel current m v = some (m', v') ∧ Between σ old m' v' ∧
        m'[s] = true ∧ ∀ i : Fin n, m[i] = true → m'[i] = true := by
  intro fuel
  induction fuel with
  | zero => intro _ _ _ _ hf; omega
  | succ fuel ih =>
    intro current m v hw hf
    have hsub : ∀ i : Fin n, m[i] = true → (m.set current true)[i] = true := fun i hi =>
      (getElem_set_true m current i).mpr (.inl hi)
    have hs : (m.set current true)[s] = true := (getElem_set_true m current s).mpr hw.start
    have hcur : current ∈ unfilled m := by simpa [unfilled] using hw.current_fresh
    have hcard : (unfilled (m.set current true)).card < fuel := by
      rw [unfilled_set, Finset.card_erase_of_mem hcur]
      have := Finset.card_pos.mpr ⟨_, hcur⟩
      omega
    simp only [permuteCycle, hp, Option.bind_eq_bind, Option.bind_some, (σ current).isLt, dif_pos]
    by_cases hn : m[σ current] = true
    · -- Only the start has a filled position after it.
      have hc : σ current = s :=
        (hw.preimage current (.inl hn)).resolve_left (by simp [hw.current_fresh])
      exact ⟨_, _, by simp only [Positions.getElem_pos] at hn; simp [hn], hw.close hσ hc, hs, hsub⟩
    · have hn' : m[σ current] = false := by simpa using hn
      by_cases hself : σ current = current
      · -- A fixed point: one more round, which finds the position filled.
        have hc : σ current = s :=
          (hw.preimage current (.inr hself)).resolve_left (by simp [hw.current_fresh])
        obtain ⟨fuel, rfl⟩ : ∃ k, fuel = k + 1 := ⟨fuel - 1, by omega⟩
        have hset : (m.set current true)[σ current] = true :=
          (getElem_set_true m current _).mpr (.inr hself)
        refine ⟨_, _, ?_, hw.close hσ hc, hs, hsub⟩
        simp only [Positions.getElem_pos] at hn' hset
        simp [hself, permuteCycle, hp]
        rintro -
        refine Vector.ext fun i hi => ?_
        rw [Vector.getElem_swap]
        split <;> simp_all
      · have hns : σ current ≠ s := by
          rintro h
          rcases hw.start with h' | h'
          · exact hn (by simpa only [h] using h')
          · exact hself (h.trans h')
        obtain ⟨m', v', he, hb, hs', hsub'⟩ := ih _ _ _ (hw.advance hσ hn' hself hns) hcard
        refine ⟨m', v', ?_, hb, hs', fun i hi => hsub' i (hsub i hi)⟩
        simp only [Positions.getElem_pos] at hn'
        simp [hn', he]

theorem permuteCycle_between (hσ : Function.Injective σ) (hp : ∀ i : Fin n, perm i = some (σ i).val)
    (hb : Between σ old m v) (s : Fin n) :
    ∃ m' v', permuteCycle perm (n + 1) s m v = some (m', v') ∧ Between σ old m' v' ∧
      m'[s] = true ∧ ∀ i : Fin n, m[i] = true → m'[i] = true := by
  have hcard : (unfilled m).card < n + 1 := by
    have := Finset.card_filter_le (Finset.univ : Finset (Fin n)) fun i => m[i] = false
    rw [Finset.card_univ, Fintype.card_fin] at this
    exact Nat.lt_succ_of_le this
  by_cases hs : m[s] = true
  · -- A filled start has a filled successor: the cycle is left at once.
    have hn : m[σ s] = true := (hb.closed s).mpr hs
    refine ⟨m, v, ?_, hb, hs, fun _ h => h⟩
    have hset : m.set s true = m := by
      refine Vector.ext fun i hi => ?_
      rw [Vector.getElem_set]
      split
      · subst_vars; exact hs.symm
      · rfl
    simp only [Positions.getElem_pos] at hn
    simp [permuteCycle, hp, hn, hset]
  · exact permuteCycle_within hσ hp (n + 1) s m v (hb.within (by simpa using hs)) hcard

theorem foldlM_between (hσ : Function.Injective σ) (hp : ∀ i : Fin n, perm i = some (σ i).val)
    (starts : List (Fin n)) : ∀ (m : Vector Bool n) (v : Vector α n), Between σ old m v →
    ∃ m' v', starts.foldlM (fun (s : Vector Bool n × Vector α n) start =>
        permuteCycle perm (n + 1) start s.1 s.2) (m, v) = some (m', v') ∧ Between σ old m' v' ∧
      (∀ i ∈ starts, m'[i] = true) ∧ ∀ i : Fin n, m[i] = true → m'[i] = true := by
  induction starts with
  | nil => intro m v hb; exact ⟨m, v, rfl, hb, by simp, fun _ h => h⟩
  | cons s starts ih =>
    intro m v hb
    obtain ⟨m₁, v₁, h₁, hb₁, hs, hsub₁⟩ := permuteCycle_between hσ hp hb s
    obtain ⟨m₂, v₂, h₂, hb₂, hall, hsub₂⟩ := ih m₁ v₁ hb₁
    refine ⟨m₂, v₂, ?_, hb₂, ?_, fun i hi => hsub₂ i (hsub₁ i hi)⟩
    · rw [List.foldlM_cons, h₁]
      exact h₂
    · intro i hi
      rcases List.mem_cons.mp hi with rfl | hi
      · exact hsub₂ i hs
      · exact hall i hi

end Permute

open Permute in
/-- **`permute` computes `values_new[i] = values[perm(i)]`**, for `perm` a
bijection of the positions. -/
theorem permute_spec {σ : Fin n → Fin n} (hσ : Function.Injective σ) {perm : ℕ → Option ℕ}
    (hp : ∀ i : Fin n, perm i = some (σ i).val) (values : Vector α n) :
    permute values perm = some (Vector.ofFn fun i => values[σ i]) := by
  have h0 : Between σ (fun i => values[i]) (Vector.replicate n false) values :=
    ⟨fun i h => by simp at h, fun _ _ => rfl, fun i => by simp⟩
  obtain ⟨m, v, he, hb, hall, -⟩ := foldlM_between hσ hp (List.finRange n) _ _ h0
  have hv : v = Vector.ofFn fun i => values[σ i] := by
    refine Vector.ext fun i hi => ?_
    rw [Vector.getElem_ofFn]
    exact hb.filled ⟨i, hi⟩ (hall _ (List.mem_finRange _))
  rw [permute, he, hv]
  rfl

end Dnspir
