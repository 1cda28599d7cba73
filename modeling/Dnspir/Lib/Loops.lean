/-
Loops over `0..n`, as folds over `List.finRange` and vectors built entry by
entry, with the invariant rule of each.

* `foldl_finRange`, `foldlM_finRange`: what holds at `0` and survives each
  round holds at `n`; the second also says the run does not fail.
* `ofFnM_some`: a vector of fallible entries is built when every entry is.
* `foldl_finRange_rel`, `foldlM_finRange_rel`: two runs in step, for results
  that do not depend on part of the state.
* `mapM_run'`: calls that share a state their results do not depend on.
* `mapM_ok_iff`, `mapM_isSome`: calls that can report an error or panic.
* `foldlM_inv`: what every round of a loop that returns keeps.
* `mapM_eq_some_iff`, `mapM_eq_map`, `getElem?_flatten`: calls that all return, and results of one
  length laid out one after another.
* `eq_sum_iterate`: a loop that applies an additive map and adds one term a
  round is a sum of iterates.
-/
import Mathlib
import Dnspir.Lib.Positions

namespace Loops

variable {n : ℕ} {α β : Type}

/-- The invariant rule of a counted loop. -/
theorem foldl_finRange {f : β → Fin n → β} {P : ℕ → β → Prop} {b : β} (h0 : P 0 b)
    (hs : ∀ (i : Fin n) (b : β), P i b → P (i + 1) (f b i)) : P n ((List.finRange n).foldl f b) := by
  have hrun : ∀ k, (hk : k ≤ n) → P k (((List.finRange n).take k).foldl f b) := by
    intro k
    induction k with
    | zero => intro _; simpa using h0
    | succ k ih =>
      intro hk
      rw [List.take_succ_eq_append_getElem (by simpa using hk), List.foldl_append]
      simpa using hs ⟨k, hk⟩ _ (ih (by omega))
  have h := hrun n le_rfl
  rwa [List.take_of_length_le (by simp)] at h

/-- The invariant rule of a counted loop that can fail. -/
theorem foldlM_finRange {f : β → Fin n → Option β} {P : ℕ → β → Prop} {b : β} (h0 : P 0 b)
    (hs : ∀ (i : Fin n) (b : β), P i b → ∃ b', f b i = some b' ∧ P (i + 1) b') :
    ∃ b', (List.finRange n).foldlM f b = some b' ∧ P n b' := by
  have hrun : ∀ k, (hk : k ≤ n) → ∃ b', ((List.finRange n).take k).foldlM f b = some b' ∧ P k b' := by
    intro k
    induction k with
    | zero => intro _; exact ⟨b, by simp, h0⟩
    | succ k ih =>
      intro hk
      obtain ⟨b₁, h₁, hp⟩ := ih (by omega)
      obtain ⟨b₂, h₂, hp'⟩ := hs ⟨k, hk⟩ b₁ hp
      refine ⟨b₂, ?_, hp'⟩
      rw [List.take_succ_eq_append_getElem (by simpa using hk), List.foldlM_append, h₁]
      simpa using h₂
  have h := hrun n le_rfl
  rwa [List.take_of_length_le (by simp)] at h

/-- A vector is built entry by entry when no entry fails. -/
theorem ofFnM_some {f : Fin n → Option α} {P : Fin n → α → Prop}
    (h : ∀ i, ∃ a, f i = some a ∧ P i a) :
    ∃ v : Vector α n, Vector.ofFnM f = some v ∧ ∀ i : Fin n, P i v[i] := by
  choose g hg hP using h
  have hf : f = fun i => (pure (g i) : Option α) := funext hg
  exact ⟨Vector.ofFn g, by rw [hf, Vector.ofFnM_pure]; rfl, fun i => by simpa using hP i⟩

/-- A vector built entry by entry from the entries of `v` is `v`. -/
theorem ofFnM_eq_some {f : Fin n → Option α} {v : Vector α n} (h : ∀ i : Fin n, f i = some v[i]) :
    Vector.ofFnM f = some v := by
  have hf : f = fun i : Fin n => (pure v[i] : Option α) := funext h
  rw [hf, Vector.ofFnM_pure]
  exact congrArg some (Vector.ext fun i hi => by simp)

/-- The entries of a vector that was built. -/
theorem ofFnM_getElem {f : Fin n → Option α} {v : Vector α n} (h : Vector.ofFnM f = some v)
    (i : Fin n) :
    f i = some v[i] := by
  induction n with
  | zero => exact i.elim0
  | succ n ih =>
    rw [Vector.ofFnM_succ] at h
    simp only [Option.bind_eq_bind, Option.bind_eq_some_iff, Option.pure_def, Option.some.injEq] at h
    obtain ⟨as, has, a, ha, rfl⟩ := h
    refine Fin.lastCases ?_ (fun i => ?_) i
    · simpa using ha
    · simpa using ih has i

theorem isSome_ofFnM {f : Fin n → Option α} : (Vector.ofFnM f).isSome ↔ ∀ i, (f i).isSome := by
  constructor
  · intro h i
    obtain ⟨v, hv⟩ := Option.isSome_iff_exists.mp h
    rw [ofFnM_getElem hv i]
    rfl
  · intro h
    choose a ha using fun i => Option.isSome_iff_exists.mp (h i)
    rw [ofFnM_eq_some (v := Vector.ofFn a) fun i => by simpa using ha i]
    rfl

/-! ## Two runs -/

section Relational
variable {γ δ : Type}

/-- Two runs go on in step: both fail, or the results are related. -/
theorem rel_bind {R : α → β → Prop} {S : γ → δ → Prop} {x : Option α} {y : Option β} {f : α → Option γ}
    {g : β → Option δ} (h : Option.Rel R x y) (hs : ∀ a b, R a b → Option.Rel S (f a) (g b)) :
    Option.Rel S (x.bind f) (y.bind g) := by
  cases h with
  | some h => exact hs _ _ h
  | none => exact .none

theorem rel_refl {x : Option α} : Option.Rel Eq x x := by
  cases x with
  | none => exact .none
  | some a => exact .some rfl

theorem eq_of_rel {R : α → α → Prop} {x y : Option α} (h : Option.Rel R x y)
    (hR : ∀ a b, R a b → a = b) : x = y := by
  cases h with
  | some h => exact congrArg some (hR _ _ h)
  | none => rfl

theorem isSome_of_rel {R : α → β → Prop} {x : Option α} {y : Option β} (h : Option.Rel R x y) :
    x.isSome = y.isSome := by
  cases h with
  | some => rfl
  | none => rfl

/-- The invariant rule of two counted loops. -/
theorem foldl_finRange_rel {f : β → Fin n → β} {g : γ → Fin n → γ} {R : ℕ → β → γ → Prop} {b : β}
    {c : γ} (h0 : R 0 b c) (hs : ∀ (i : Fin n) (b : β) (c : γ), R i b c → R (i + 1) (f b i) (g c i)) :
    R n ((List.finRange n).foldl f b) ((List.finRange n).foldl g c) := by
  have hrun : ∀ k, (hk : k ≤ n) →
      R k (((List.finRange n).take k).foldl f b) (((List.finRange n).take k).foldl g c) := by
    intro k
    induction k with
    | zero => intro _; simpa using h0
    | succ k ih =>
      intro hk
      rw [List.take_succ_eq_append_getElem (by simpa using hk), List.foldl_append, List.foldl_append]
      simpa using hs ⟨k, hk⟩ _ _ (ih (by omega))
  have h := hrun n le_rfl
  rwa [List.take_of_length_le (by simp)] at h

/-- The invariant rule of two counted loops that can fail. -/
theorem foldlM_finRange_rel {f : β → Fin n → Option β} {g : γ → Fin n → Option γ}
    {R : ℕ → β → γ → Prop} {b : β} {c : γ} (h0 : R 0 b c)
    (hs : ∀ (i : Fin n) (b : β) (c : γ), R i b c → Option.Rel (R (i + 1)) (f b i) (g c i)) :
    Option.Rel (R n) ((List.finRange n).foldlM f b) ((List.finRange n).foldlM g c) := by
  have hrun : ∀ k, (hk : k ≤ n) →
      Option.Rel (R k) (((List.finRange n).take k).foldlM f b)
          (((List.finRange n).take k).foldlM g c) := by
    intro k
    induction k with
    | zero => intro _; simpa using Option.Rel.some h0
    | succ k ih =>
      intro hk
      rw [List.take_succ_eq_append_getElem (by simpa using hk), List.foldlM_append, List.foldlM_append]
      refine rel_bind (ih (by omega)) fun b c hR => ?_
      simpa using hs ⟨k, hk⟩ b c hR
  have h := hrun n le_rfl
  rwa [List.take_of_length_le (by simp)] at h

end Relational

/-! ## Traversals -/

section Traversal
variable {m : Type → Type} [Monad m] [LawfulMonad m] {σ ε : Type}

/-- A sequence of calls whose results do not depend on the state they share. -/
theorem mapM_run' {f : α → StateT σ m β} {g : α → m β} {l : List α}
    (h : ∀ a ∈ l, ∀ s, (f a).run' s = g a) (s : σ) :
    (l.mapM f).run' s = l.mapM g := by
  induction l generalizing s with
  | nil => simp
  | cons a l ih =>
    have ih := ih fun b hb => h b (by simp [hb])
    rw [List.mapM_cons, List.mapM_cons, ← h a (by simp) s]
    simp only [StateT.run'_eq, StateT.run_bind, map_bind, StateT.run_pure, map_pure, bind_map_left]
    refine congrArg _ (funext fun p => ?_)
    rw [← ih p.2, StateT.run'_eq, bind_map_left]

/-- A loop that returns keeps what each of its rounds keeps. -/
theorem foldlM_inv {f : β → α → Option β} {P : β → Prop}
    (hf : ∀ b a b', f b a = some b' → P b → P b') {l : List α} {b b' : β}
    (h : l.foldlM f b = some b') (hb : P b) : P b' := by
  induction l generalizing b with
  | nil => exact Option.some.inj h ▸ hb
  | cons a l ih =>
    rw [List.foldlM_cons, Option.bind_eq_bind, Option.bind_eq_some_iff] at h
    obtain ⟨b₁, h₁, h⟩ := h
    exact ih h (hf b a b₁ h₁ hb)

/-- Calls on one state that all return, each at some state. -/
theorem exists_of_mapM_stateT {f : α → StateT σ Option β} {l : List α} {s s' : σ} {bs : List β}
    (h : l.mapM f s = some (bs, s')) : ∀ a ∈ l, ∃ s₁ b s₂, f a s₁ = some (b, s₂) := by
  induction l generalizing s s' bs with
  | nil => simp
  | cons a l ih =>
    rw [List.mapM_cons] at h
    simp only [Bind.bind, StateT.bind, Option.bind_eq_some_iff, Prod.exists] at h
    obtain ⟨b, s₁, hb, bs', s₂, hbs, -⟩ := h
    exact List.forall_mem_cons.mpr ⟨⟨s, b, s₁, hb⟩, ih hbs⟩

/-- Calls that return, one by one. -/
theorem mapM_eq_some_iff {f : α → Option β} {l : List α} {bs : List β} :
    l.mapM f = some bs ↔ List.Forall₂ (fun a b => f a = some b) l bs := by
  induction l generalizing bs with
  | nil => simp [eq_comm]
  | cons a l ih =>
    simp only [List.mapM_cons, Option.bind_eq_bind, Option.bind_eq_some_iff, Option.pure_def,
      Option.some.injEq, ih]
    constructor
    · rintro ⟨b, hb, bs', hbs', rfl⟩
      exact .cons hb hbs'
    · intro h
      cases h with
      | cons hb hbs => exact ⟨_, hb, _, hbs, rfl⟩

/-- Calls that all return. -/
theorem mapM_eq_map {f : α → Option β} {g : α → β} {l : List α} (h : ∀ a ∈ l, f a = some (g a)) :
    l.mapM f = some (l.map g) := by
  induction l with
  | nil => rfl
  | cons a l ih =>
    rw [List.mapM_cons, h a (by simp), ih fun b hb => h b (by simp [hb])]
    rfl

/-- Pieces of one length, one after another. -/
theorem getElem?_flatten {l : List (List α)} {w : ℕ} (h : ∀ x ∈ l, x.length = w) {i j : ℕ}
    (hj : j < w) :
    l.flatten[w * i + j]? = l[i]?.bind fun x => x[j]? := by
  induction l generalizing i with
  | nil => rfl
  | cons x l ih =>
    have hx : x.length = w := h x (by simp)
    rw [List.flatten_cons]
    cases i with
    | zero =>
      rw [Nat.mul_zero, Nat.zero_add, List.getElem?_append_left (by omega)]
      rfl
    | succ i =>
      have hi : w * (i + 1) + j - x.length = w * i + j := by
        rw [hx, Nat.mul_succ]
        omega
      rw [List.getElem?_append_right (by rw [hx, Nat.mul_succ]; omega), hi,
        ih fun y hy => h y (by simp [hy])]
      rfl

theorem length_flatten {l : List (List α)} {w : ℕ} (h : ∀ x ∈ l, x.length = w) :
    l.flatten.length = w * l.length := by
  rw [List.length_flatten, List.map_congr_left h, List.map_const', List.sum_replicate, smul_eq_mul,
    mul_comm]

/-- Calls none of which panics. -/
theorem mapM_isSome {f : α → ExceptT ε Option β} {l : List α} (h : ∀ a ∈ l, (f a).run.isSome) :
    (l.mapM f).run.isSome := by
  induction l with
  | nil => rfl
  | cons a l ih =>
    obtain ⟨result, ha⟩ := Option.isSome_iff_exists.mp (h a (by simp))
    obtain ⟨rest, hl⟩ := Option.isSome_iff_exists.mp (ih fun b hb => h b (by simp [hb]))
    rw [List.mapM_cons, ExceptT.run_bind, ha]
    cases result with
    | error e => rfl
    | ok b =>
      simp only [Option.bind_eq_bind, Option.bind_some, ExceptT.run_bind, hl]
      cases rest <;> rfl

/-- Calls that all return. -/
theorem mapM_ok_iff {f : α → ExceptT ε Option β} {l : List α} {bs : List β} :
    (l.mapM f).run = some (.ok bs) ↔ List.Forall₂ (fun a b => (f a).run = some (.ok b)) l bs := by
  induction l generalizing bs with
  | nil =>
    constructor
    · rintro ⟨⟩
      exact .nil
    · rintro ⟨⟩
      rfl
  | cons a l ih =>
    rw [List.mapM_cons, ExceptT.run_bind]
    constructor
    · intro h
      obtain ⟨result, ha, h⟩ := Option.bind_eq_some_iff.mp h
      cases result with
      | error e => cases h
      | ok b =>
        simp only [ExceptT.run_bind] at h
        obtain ⟨rest, hl, h⟩ := Option.bind_eq_some_iff.mp h
        cases rest with
        | error e => cases h
        | ok bs' =>
          cases h
          exact .cons ha (ih.mp hl)
    · rintro (_ | ⟨ha, hl⟩)
      rw [ha]
      simp only [Option.bind_eq_bind, Option.bind_some, ExceptT.run_bind, ih.mpr hl]
      rfl

theorem mapM_ok_of_forall {f : α → ExceptT ε Option β} {l : List α}
    (h : ∀ a ∈ l, ∃ b, (f a).run = some (.ok b)) :
    ∃ bs, (l.mapM f).run = some (.ok bs) := by
  simp only [mapM_ok_iff]
  induction l with
  | nil => exact ⟨[], .nil⟩
  | cons a l ih =>
    obtain ⟨b, hb⟩ := h a (by simp)
    obtain ⟨bs, hbs⟩ := ih fun a' ha' => h a' (by simp [ha'])
    exact ⟨b :: bs, .cons hb hbs⟩

end Traversal

/-- Horner's rule for an additive map. -/
theorem eq_sum_iterate {M : Type*} [AddCommMonoid M] {σ : M → M} (h0 : σ 0 = 0)
    (hadd : ∀ x y, σ (x + y) = σ x + σ y) {P Y : ℕ → M} (hP : P 0 = 0)
    (hs : ∀ i, P (i + 1) = σ (P i) + Y i) (n : ℕ) :
    P n = ∑ i ∈ Finset.range n, σ^[n - 1 - i] (Y i) := by
  induction n with
  | zero => simpa using hP
  | succ n ih =>
    have hmap : σ (∑ i ∈ Finset.range n, σ^[n - 1 - i] (Y i)) =
        ∑ i ∈ Finset.range n, σ (σ^[n - 1 - i] (Y i)) :=
      map_sum (⟨⟨σ, h0⟩, hadd⟩ : M →+ M) _ _
    rw [hs, ih, hmap, Finset.sum_range_succ]
    congr 1
    · refine Finset.sum_congr rfl fun i hi => ?_
      have hi := Finset.mem_range.mp hi
      rw [← Function.iterate_succ_apply' σ, show (n - 1 - i).succ = n + 1 - 1 - i by omega]
    · simp

end Loops
