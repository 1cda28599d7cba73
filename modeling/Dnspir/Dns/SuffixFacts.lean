/-
Names ordered by their dot-bounded suffixes (`zone::name_in_suffix`,
`zone::common_suffix_str`).

* `nameInSuffix_iff`: the order, on labels.
* `nameInSuffix_common`: the common suffix of two names is their meet.
* `eq_of_nameInSuffix`: a name is determined by what it is in.
-/
import Dnspir.Dns.Zone

namespace Dnspir

namespace Dns

open Labels

theorem nameInSuffix_append {name zone : Name} :
    nameInSuffix name zone ↔ zone = [] ∨ name = zone ∨ ∃ x, name = x ++ '.' :: zone := by
  simp only [nameInSuffix, Bool.or_eq_true, Bool.and_eq_true, List.isEmpty_iff, beq_iff_eq,
    decide_eq_true_eq, List.isSuffixOf_iff_suffix, or_assoc]
  refine or_congr_right (or_congr_right ⟨?_, ?_⟩)
  · intro h
    obtain ⟨⟨hlt, p, rfl⟩, hdot⟩ := h
    obtain ⟨x, c, rfl⟩ : ∃ x c, p = x ++ [c] := by
      have hp : p ≠ [] := by
        rintro rfl
        simp at hlt
      exact ⟨_, _, (List.dropLast_append_getLast hp).symm⟩
    have hidx : (x ++ [c] ++ zone).length - zone.length - 1 = x.length := by simp; omega
    rw [hidx, List.append_assoc, List.getElem?_append_right le_rfl, Nat.sub_self] at hdot
    simp only [List.singleton_append, List.getElem?_cons_zero, Option.some.injEq] at hdot
    exact ⟨x, by rw [hdot, List.append_assoc]; rfl⟩
  · intro h
    obtain ⟨x, rfl⟩ := h
    have hidx : (x ++ '.' :: zone).length - zone.length - 1 = x.length := by simp; omega
    refine ⟨⟨by simp; omega, x ++ ['.'], by simp⟩, ?_⟩
    rw [hidx, List.getElem?_append_right le_rfl, Nat.sub_self]
    rfl

/-- The order on labels. -/
theorem nameInSuffix_iff {name zone : Name} :
    nameInSuffix name zone ↔ zone = [] ∨ zone.splitOn '.' <:+ name.splitOn '.' := by
  rw [nameInSuffix_append, splitOn_suffix_iff]

theorem nameInSuffix_refl (name : Name) : nameInSuffix name name :=
  nameInSuffix_append.mpr (.inr (.inl rfl))

theorem nameInSuffix_nil {zone : Name} : nameInSuffix [] zone ↔ zone = [] := by
  rw [nameInSuffix_append]
  constructor
  · rintro (h | h | ⟨x, h⟩)
    · exact h
    · exact h.symm
    · simp at h
  · exact .inl

theorem nameInSuffix_trans {a b c : Name} (hab : nameInSuffix a b) (hbc : nameInSuffix b c) :
    nameInSuffix a c := by
  rcases nameInSuffix_iff.mp hab with rfl | hab
  · rw [nameInSuffix_nil.mp hbc]
    exact nameInSuffix_append.mpr (.inl rfl)
  · rcases nameInSuffix_iff.mp hbc with hc | hbc
    · exact nameInSuffix_iff.mpr (.inl hc)
    · exact nameInSuffix_iff.mpr (.inr (hbc.trans hab))

theorem nameInSuffix_length {name zone : Name} (h : nameInSuffix name zone) :
    zone.length ≤ name.length := by
  rcases nameInSuffix_append.mp h with rfl | rfl | ⟨x, rfl⟩
  · exact Nat.zero_le _
  · exact le_rfl
  · simp
    omega

/-- A name is determined by what it is in. -/
theorem eq_of_nameInSuffix {a b : Name} (hab : nameInSuffix a b) (hba : nameInSuffix b a) : a = b := by
  have hlen := Nat.le_antisymm (nameInSuffix_length hab) (nameInSuffix_length hba)
  rcases nameInSuffix_append.mp hab with rfl | h | ⟨x, rfl⟩
  · exact List.length_eq_zero_iff.mp hlen.symm
  · exact h
  · simp at hlen
    omega

/-- **The common suffix of two names is their meet.** -/
theorem nameInSuffix_common {a b zone : Name} :
    nameInSuffix (commonSuffixStr a b) zone ↔ nameInSuffix a zone ∧ nameInSuffix b zone := by
  by_cases hz : zone = []
  · simp [nameInSuffix_append, hz]
  -- Only proper labels are left: the empty zone is in every name.
  have hmeet : zone.splitOn '.' <:+ (commonPrefix (rsplitDot a) (rsplitDot b)).reverse ↔
      zone.splitOn '.' <:+ a.splitOn '.' ∧ zone.splitOn '.' <:+ b.splitOn '.' := by
    rw [← List.reverse_prefix, List.reverse_reverse, prefix_commonPrefix, rsplitDot, rsplitDot,
      List.reverse_prefix, List.reverse_prefix]
  simp only [nameInSuffix_iff, hz, false_or, ← hmeet]
  set shared := (commonPrefix (rsplitDot a) (rsplitDot b)).reverse with hshared
  by_cases hnil : shared = []
  · have hne : zone.splitOn '.' ≠ [] := List.splitOn_ne_nil _ _
    rw [commonSuffixStr, ← hshared, hnil]
    refine iff_of_false (fun h => hz ?_) fun h => hne (List.suffix_nil.mp h)
    have := nameInSuffix_iff.mpr (.inr (show zone.splitOn '.' <:+ ([] : Name).splitOn '.' from h))
    exact nameInSuffix_nil.mp this
  · have hmem : ∀ l ∈ shared, '.' ∉ l := fun l hl => by
      have hpre : commonPrefix (rsplitDot a) (rsplitDot b) <+: rsplitDot a :=
        (prefix_commonPrefix.mp List.prefix_rfl).1
      have : l ∈ rsplitDot a := hpre.subset (List.mem_reverse.mp hl)
      exact notMem_of_mem_splitOn (List.mem_reverse.mp this)
    rw [commonSuffixStr, ← hshared, List.splitOn_intercalate _ hmem hnil]

end Dns

end Dnspir
