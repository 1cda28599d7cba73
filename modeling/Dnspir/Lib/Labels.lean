/-
Words split at a separator, ordered by the suffixes of their labels.

* `splitOn_suffix_iff`: the labels of `z` end those of `n` when `n` is `z`, or
  ends in it after a separator.
* `prefix_flatten_iff`: the prefixes of words that end in a separator.
* `prefix_commonPrefix`: what two lists begin with is their greatest lower
  bound among prefixes.
-/
import Mathlib.Data.List.Basic

namespace Labels

variable {α : Type} [DecidableEq α]

theorem notMem_of_mem_splitOn {sep : α} {xs l : List α} (h : l ∈ xs.splitOn sep) : sep ∉ l := by
  induction xs generalizing l with
  | nil =>
    rw [List.splitOn_nil, List.mem_singleton] at h
    simp [h]
  | cons x xs ih =>
    rw [List.splitOn_cons_eq_if_modifyHead] at h
    split at h
    next =>
      rcases List.mem_cons.mp h with rfl | h
      · exact List.not_mem_nil
      · exact ih h
    next hx =>
      cases hs : xs.splitOn sep with
      | nil => exact absurd hs (List.splitOn_ne_nil sep xs)
      | cons head tail =>
        rw [hs, List.modifyHead_cons] at h
        rcases List.mem_cons.mp h with rfl | h
        · have := ih (l := head) (by simp [hs])
          simp only [beq_iff_eq] at hx
          simp only [List.mem_cons, not_or]
          exact ⟨fun he => hx he.symm, this⟩
        · exact ih (by simp [hs, h])

theorem splitOn_injective (sep : α) :
    Function.Injective fun xs : List α => xs.splitOn sep := fun xs ys h => by
  calc
    xs = [sep].intercalate (xs.splitOn sep) := (List.intercalate_splitOn sep).symm
    _ = [sep].intercalate (ys.splitOn sep) := congrArg _ h
    _ = ys := List.intercalate_splitOn sep

/-- A suffix of the labels is a suffix of the word that a separator bounds. -/
theorem splitOn_suffix_iff {sep : α} {z n : List α} :
    z.splitOn sep <:+ n.splitOn sep ↔ n = z ∨ ∃ x, n = x ++ sep :: z := by
  constructor
  · intro h
    obtain ⟨pre, hpre⟩ := h
    by_cases hnil : pre = []
    · exact .inl (splitOn_injective sep (by simpa [hnil] using hpre.symm))
    · refine .inr ⟨[sep].intercalate pre, splitOn_injective sep ?_⟩
      have hmem : ∀ l ∈ pre, sep ∉ l :=
        fun l hl => notMem_of_mem_splitOn (hpre ▸ List.mem_append_left _ hl)
      change n.splitOn sep = ([sep].intercalate pre ++ sep :: z).splitOn sep
      rw [List.splitOn_append_cons_self, List.splitOn_intercalate sep hmem hnil, hpre]
  · rintro (rfl | ⟨x, rfl⟩)
    · exact List.suffix_rfl
    · rw [List.splitOn_append_cons_self]
      exact List.suffix_append _ _

/-- Words that end in a separator, and have no other. -/
def Ended (sep : α) (ws : List (List α)) : Prop := ∀ w ∈ ws, ∃ body, w = body ++ [sep] ∧ sep ∉ body

omit [DecidableEq α] in
/-- Of such words joined, the prefixes that are empty or end in the separator
are the words of a prefix. -/
theorem prefix_flatten_iff {sep : α} {ws : List (List α)} (h : Ended sep ws) {p : List α} :
    p <+: ws.flatten ∧ (p = [] ∨ p.getLast? = some sep) ↔ ∃ pre, pre <+: ws ∧ pre.flatten = p := by
  induction ws generalizing p with
  | nil =>
    rw [List.flatten_nil, List.prefix_nil]
    constructor
    · intro hp
      exact ⟨[], List.prefix_rfl, hp.1.symm⟩
    · intro hp
      obtain ⟨pre, hpre, rfl⟩ := hp
      rw [List.prefix_nil.mp hpre]
      exact ⟨rfl, .inl rfl⟩
  | cons w ws ih =>
    obtain ⟨body, rfl, hbody⟩ := h w (List.mem_cons_self ..)
    have ih := fun p => ih (fun w hw => h w (List.mem_cons_of_mem _ hw)) (p := p)
    rw [List.flatten_cons]
    constructor
    · intro hp
      obtain ⟨hpre, hend⟩ := hp
      rcases hend with rfl | hend
      · exact ⟨[], List.nil_prefix, rfl⟩
      rcases List.prefix_or_prefix_of_prefix hpre (List.prefix_append _ ws.flatten) with hp | hp
      · rcases List.prefix_concat_iff.mp hp with rfl | hp
        · exact ⟨[body ++ [sep]], by simp, by simp⟩
        · exact absurd (hp.subset (List.mem_of_getLast? hend)) hbody
      · obtain ⟨q, rfl⟩ := hp
        have hq : q = [] ∨ q.getLast? = some sep := by
          by_cases hnil : q = []
          · exact .inl hnil
          · rw [List.getLast?_append_of_ne_nil _ hnil] at hend
            exact .inr hend
        obtain ⟨pre, hws, rfl⟩ := (ih q).mp ⟨(List.prefix_append_right_inj _).mp hpre, hq⟩
        exact ⟨(body ++ [sep]) :: pre, List.cons_prefix_cons.mpr ⟨rfl, hws⟩, List.flatten_cons⟩
    · intro hp
      obtain ⟨pre, hpre, rfl⟩ := hp
      cases pre with
      | nil => exact ⟨List.nil_prefix, .inl rfl⟩
      | cons w pre =>
        obtain ⟨rfl, htail⟩ := List.cons_prefix_cons.mp hpre
        obtain ⟨hws, hend⟩ := (ih pre.flatten).mpr ⟨pre, htail, rfl⟩
        refine ⟨(List.prefix_append_right_inj _).mpr hws, .inr ?_⟩
        rw [List.flatten_cons]
        rcases hend with hnil | hend
        · rw [hnil, List.append_nil, List.getLast?_concat]
        · rw [List.getLast?_append, hend, Option.some_or]

/-- What two lists begin with. -/
def commonPrefix : List α → List α → List α
  | a :: as, b :: bs => if a = b then a :: commonPrefix as bs else []
  | _, _ => []

theorem prefix_commonPrefix {l a b : List α} : l <+: commonPrefix a b ↔ l <+: a ∧ l <+: b := by
  induction a generalizing l b with
  | nil =>
    rw [commonPrefix, List.prefix_nil]
    · exact ⟨fun h => by simp [h], fun h => h.1⟩
    · simp
  | cons x as ih =>
    cases b with
    | nil =>
      rw [commonPrefix, List.prefix_nil]
      · exact ⟨fun h => by simp [h], fun h => h.2⟩
      · simp
    | cons y bs =>
      cases l with
      | nil => simp
      | cons z l =>
        rw [commonPrefix]
        split
        next h =>
          subst h
          simp only [List.cons_prefix_cons, ih]
          exact ⟨fun ⟨hz, ha, hb⟩ => ⟨⟨hz, ha⟩, hz, hb⟩, fun ⟨⟨hz, ha⟩, _, hb⟩ => ⟨hz, ha, hb⟩⟩
        next h =>
          simp only [List.cons_prefix_cons, List.prefix_nil, reduceCtorEq, false_iff]
          intro h'
          obtain ⟨⟨hx, -⟩, hy, -⟩ := h'
          exact h (hx.symm.trans hy)

end Labels
