/-
Lines of a zone file that are rejected (`zone::Zone::parse`).

A rejected line that names its owner before it is found to say nothing leaves
the owner in the records.

* `addEntry_touched`: the entry of such an owner changes nothing else.
* `deleted_line_iff`: when a rejected line can be deleted.
-/
import Dnspir.Dns.ParseFacts

namespace Dnspir

namespace Dns

/-- Zones that are equal as maps. -/
structure Zone.Same (zone zone' : Zone) : Prop where
  records : ∀ n, zone'.records.lookup n = zone.records.lookup n
  nsPool : zone'.nsPool = zone.nsPool
  zoneName : zone'.zoneName = zone.zoneName

/-! ## An owner without records -/

/-- States that differ in an entry for the owner, made without records. -/
structure Touched (owner : Name) (st st' : ParseState) : Prop where
  lookup : ∀ n, st'.records.lookup n = if n = owner then some (st.entry n) else st.records.lookup n
  nsPool : st'.nsPool = st.nsPool
  nsIntern : st'.nsIntern = st.nsIntern
  zoneSuffix : st'.zoneSuffix = st.zoneSuffix

section Step
variable {owner : Name} {st st' s' : ParseState}

theorem ParseState.lookup_touch (st : ParseState) (m n : Name) :
    (st.touch m).records.lookup n = if n = m then some (st.entry n) else st.records.lookup n := by
  unfold ParseState.touch
  split
  next hm =>
    split
    next h =>
      subst h
      obtain ⟨entry, he⟩ := Option.isSome_iff_exists.mp (AList.lookup_isSome.mpr hm)
      rw [ParseState.entry, he, Option.getD_some]
    next => rfl
  next hm =>
    split
    next h =>
      subst h
      rw [AList.lookup_insert, ParseState.entry, AList.lookup_eq_none.mpr hm]
      rfl
    next h => rw [AList.lookup_insert_ne h]

theorem ParseState.lookup_update (st : ParseState) (m : Name) (f : NameRecords → NameRecords)
    (n : Name) :
    (st.update m f).records.lookup n =
      if n = m then some (f (st.entry n)) else st.records.lookup n := by
  unfold ParseState.update
  split
  next h =>
    subst h
    rw [AList.lookup_insert]
    rfl
  next h => rw [AList.lookup_insert_ne h]

theorem touched_self (owner : Name) (st : ParseState) : Touched owner st (st.touch owner) := by
  refine ⟨st.lookup_touch owner, ?_, ?_, ?_⟩ <;>
    (unfold ParseState.touch; split <;> rfl)

theorem Touched.entry (h : Touched owner st st') (n : Name) : st'.entry n = st.entry n := by
  rw [ParseState.entry, h.lookup]
  split
  next => rfl
  next => rfl

theorem Touched.touch (h : Touched owner st st') (m : Name) :
    Touched owner (st.touch m) (st'.touch m) := by
  have hsame : ∀ s : ParseState, (s.touch m).nsPool = s.nsPool ∧ (s.touch m).nsIntern = s.nsIntern ∧
      (s.touch m).zoneSuffix = s.zoneSuffix := fun s => by
    unfold ParseState.touch
    split <;> exact ⟨rfl, rfl, rfl⟩
  refine ⟨fun n => ?_, ?_, ?_, ?_⟩
  · rw [ParseState.lookup_touch, ParseState.lookup_touch, ParseState.entry_touch, h.entry, h.lookup]
    split <;> simp
  · rw [(hsame st').1, (hsame st).1, h.nsPool]
  · rw [(hsame st').2.1, (hsame st).2.1, h.nsIntern]
  · rw [(hsame st').2.2, (hsame st).2.2, h.zoneSuffix]

theorem Touched.update (h : Touched owner st st') (m : Name) (f : NameRecords → NameRecords) :
    Touched owner ((st.update m f).trackSuffix m) ((st'.update m f).trackSuffix m) := by
  refine ⟨fun n => ?_, h.nsPool, h.nsIntern, ?_⟩
  · have hupdate := st.entry_update m f n
    change (st'.update m f).records.lookup n =
      if n = owner then some ((st.update m f).entry n) else (st.update m f).records.lookup n
    rw [ParseState.lookup_update, ParseState.lookup_update, hupdate, h.entry, h.lookup]
    by_cases hm : n = m
    · subst hm
      simp
    · simp [hm]
  · simp only [ParseState.trackSuffix, ParseState.update, h.zoneSuffix]

theorem Touched.intern (h : Touched owner st st') (host : Name) :
    (st'.intern host = none ∧ st.intern host = none) ∨
    ∃ i s s', st'.intern host = some (i, s') ∧ st.intern host = some (i, s) ∧ Touched owner s s' := by
  unfold ParseState.intern
  rw [h.nsIntern, h.nsPool]
  split
  next i _ => exact .inr ⟨i, st, st', rfl, rfl, h⟩
  next =>
    split
    next => exact .inr ⟨_, _, _, rfl, rfl, h.lookup, rfl, rfl, h.zoneSuffix⟩
    next => exact .inl ⟨rfl, rfl⟩

/-- **One line** does not see the owner's entry. -/
theorem addEntry_touched (h : Touched owner st st') {e : Entry} (hstep : addEntry st' e = some s') :
    ∃ s, addEntry st e = some s ∧ Touched owner s s' := by
  rw [addEntry_eq] at hstep ⊢
  split at hstep
  next he =>
    cases hstep
    exact ⟨_, rfl, h.touch e.1⟩
  next ip he =>
    cases hstep
    exact ⟨_, rfl, h.update e.1 _⟩
  next ip he =>
    cases hstep
    exact ⟨_, rfl, h.update e.1 _⟩
  next host he =>
    rcases h.intern host with ⟨hnone, -⟩ | ⟨i, s, s₁, hi', hi, hs⟩
    · rw [hnone] at hstep
      cases hstep
    · rw [hi'] at hstep
      cases hstep
      exact ⟨_, by rw [hi]; rfl, hs.update e.1 _⟩

theorem foldlM_touched {es : List Entry} (h : Touched owner st st')
    (hrun : es.foldlM addEntry st' = some s') :
    ∃ s, es.foldlM addEntry st = some s ∧ Touched owner s s' := by
  induction es generalizing st st' with
  | nil =>
    cases hrun
    exact ⟨st, rfl, h⟩
  | cons e es ih =>
    rw [List.foldlM_cons] at hrun
    obtain ⟨s₁, hstep, hrun⟩ := Option.bind_eq_some_iff.mp hrun
    obtain ⟨s, hs, ht⟩ := addEntry_touched h hstep
    obtain ⟨s₂, hs₂, ht₂⟩ := ih ht hrun
    exact ⟨s₂, by rw [List.foldlM_cons, hs]; exact hs₂, ht₂⟩

/-- The owner's entry is seen exactly when no other line makes it. -/
theorem Touched.same_iff (h : Touched owner st st') :
    Zone.Same st'.toZone st.toZone ↔ owner ∈ st.records := by
  constructor
  · intro hsame
    have hlookup : st.records.lookup owner = st'.records.lookup owner := hsame.records owner
    rw [h.lookup, if_pos rfl] at hlookup
    rw [← AList.lookup_isSome, hlookup]
    rfl
  · intro hmem
    refine ⟨fun n => ?_, h.nsPool.symm, ?_⟩
    · change st.records.lookup n = st'.records.lookup n
      rw [h.lookup]
      split
      next hn =>
        subst hn
        obtain ⟨entry, he⟩ := Option.isSome_iff_exists.mp (AList.lookup_isSome.mpr hmem)
        rw [ParseState.entry, he, Option.getD_some]
      next => rfl
    · rw [ParseState.toZone, ParseState.toZone, h.zoneSuffix]

end Step

/-! ## Deleting a line -/

section Delete
variable {fmt : IpFormat} {text line : Name} {before after : List Name} {zone : Zone}

/-- The text of lines. -/
def joinLines (lines : List Name) : Name := ['\n'].intercalate lines

/-- A text without lines has an empty one. -/
theorem textEntries_joinLines {lines : List Name} (h : ∀ l ∈ lines, '\n' ∉ l) :
    textEntries fmt (joinLines lines) = lines.filterMap (lineEntry fmt) := by
  by_cases hnil : lines = []
  · rw [hnil]
    rfl
  · rw [textEntries, joinLines, List.splitOn_intercalate _ h hnil]

/-- Another line of the text names the owner, with a type and what it says. -/
def NamedElsewhere (lines : List Name) (owner : Name) : Prop :=
  ∃ line' ∈ lines, ∃ owner' kind' rdata', lineFields line' = some (owner', kind', rdata') ∧
    canonical owner' = canonical owner

theorem namedElsewhere_iff (fmt : IpFormat) {lines : List Name} {owner : Name} :
    NamedElsewhere lines owner ↔
    canonical owner ∈ (lines.filterMap (lineEntry fmt)).map Prod.fst := by
  simp only [NamedElsewhere, List.mem_map, List.mem_filterMap, lineEntry, Option.map_eq_some_iff]
  constructor
  · intro h
    obtain ⟨line', hline, owner', kind', rdata', hf, he⟩ := h
    exact ⟨_, ⟨line', hline, _, hf, rfl⟩, he⟩
  · intro h
    obtain ⟨e, ⟨line', hline, ⟨owner', kind', rdata'⟩, hf, rfl⟩, he⟩ := h
    exact ⟨line', hline, owner', kind', rdata', hf, he⟩

/-- What is left of a rejected line is its owner. -/
theorem lineEntry_of_rejected {owner rdata : Name} {kind : RecordType}
    (hf : lineFields line = some (owner, kind, rdata)) (hrejected : accepted fmt line = none) :
    lineEntry fmt line = some (canonical owner, none) := by
  rw [accepted] at hrejected
  rw [lineEntry, hf, Option.map_some] at hrejected ⊢
  rw [Option.bind_some, Option.map_eq_none_iff] at hrejected
  exact congrArg some (Prod.ext rfl hrejected)

/-- **A rejected line can be deleted** exactly when another line names its
owner, unless it has no owner, type and rdata at all. -/
theorem deleted_line_iff (hzone : Zone.parse fmt text = some zone)
    (htext : text.splitOn '\n' = before ++ line :: after) (hrejected : accepted fmt line = none) :
    (∃ zone', Zone.parse fmt (joinLines (before ++ after)) = some zone' ∧ zone.Same zone') ↔
      ∀ owner kind rdata, lineFields line = some (owner, kind, rdata) →
        NamedElsewhere (before ++ after) owner := by
  have hlines : ∀ l ∈ before ++ after, '\n' ∉ l := fun l hl => Labels.notMem_of_mem_splitOn (by
    rw [htext]
    simp only [List.mem_append, List.mem_cons] at hl ⊢
    exact hl.imp_right .inr)
  have hes' : textEntries fmt (joinLines (before ++ after)) = _ := textEntries_joinLines hlines
  have hes : textEntries fmt text = before.filterMap (lineEntry fmt) ++
      ([line].filterMap (lineEntry fmt) ++ after.filterMap (lineEntry fmt)) := by
    rw [textEntries, htext, ← List.filterMap_append, ← List.filterMap_append, List.singleton_append]
  rw [List.filterMap_append] at hes'
  have hparse := hzone
  rw [parse_eq, hes, List.foldlM_append] at hparse
  obtain ⟨stf, hrun, rfl⟩ := Option.map_eq_some_iff.mp hparse
  obtain ⟨st, hbefore, hrun⟩ := Option.bind_eq_some_iff.mp hrun
  cases hf : lineFields line with
  | none =>
    have hnone : [line].filterMap (lineEntry fmt) = [] := by simp [lineEntry, hf]
    rw [hnone, List.nil_append] at hrun
    refine iff_of_true ⟨stf.toZone, ?_, fun n => rfl, rfl, rfl⟩ fun owner kind rdata h => by cases h
    rw [parse_eq, hes', List.foldlM_append, hbefore]
    exact congrArg (Option.map ParseState.toZone) hrun
  | some fields =>
    obtain ⟨owner, kind, rdata⟩ := fields
    have hone : [line].filterMap (lineEntry fmt) = [(canonical owner, none)] := by
      simp [lineEntry_of_rejected hf hrejected]
    rw [hone, List.singleton_append, List.foldlM_cons, addEntry_eq] at hrun
    obtain ⟨s, hs, ht⟩ := foldlM_touched (touched_self (canonical owner) st) hrun
    have hdel : (before.filterMap (lineEntry fmt) ++
        after.filterMap (lineEntry fmt)).foldlM addEntry .empty = some s := by
      rw [List.foldlM_append, hbefore]
      exact hs
    have hst := foldlM_parsed parsed_empty hdel
    have hparse' : Zone.parse fmt (joinLines (before ++ after)) = some s.toZone := by
      rw [parse_eq, hes', hdel]
      rfl
    have hmem : canonical owner ∈ s.records ↔ NamedElsewhere (before ++ after) owner := by
      rw [hst.records.mem, List.nil_append, namedElsewhere_iff fmt, List.filterMap_append]
    constructor
    · rintro ⟨zone', h', hsame⟩ owner' kind' rdata' he
      cases he
      rw [hparse'] at h'
      cases h'
      exact hmem.mp (ht.same_iff.mp hsame)
    · intro hnamed
      exact ⟨_, hparse', ht.same_iff.mpr (hmem.mpr (hnamed _ _ _ rfl))⟩

end Delete

/-- An address that does not parse, a comment, and an address of the same owner. -/
def rejectedText : Name := "x. A bad\n; a comment\nX. A 192.0.2.7".toList

/-- Either of the first two lines can be deleted. -/
theorem deleted_line_examples : ∃ zone, Zone.parse ipText rejectedText = some zone ∧
    (∃ zone', Zone.parse ipText (joinLines ["; a comment".toList, "X. A 192.0.2.7".toList]) =
      some zone' ∧ zone.Same zone') ∧
    ∃ zone', Zone.parse ipText (joinLines ["x. A bad".toList, "X. A 192.0.2.7".toList]) =
      some zone' ∧ zone.Same zone' := by
  have hsome : (Zone.parse ipText rejectedText).isSome := by decide +kernel
  obtain ⟨zone, hzone⟩ := Option.isSome_iff_exists.mp hsome
  have htext : rejectedText.splitOn '\n' =
      [] ++ "x. A bad".toList :: ["; a comment".toList, "X. A 192.0.2.7".toList] := by decide +kernel
  have htext' : rejectedText.splitOn '\n' =
      ["x. A bad".toList] ++ "; a comment".toList :: ["X. A 192.0.2.7".toList] := by decide +kernel
  have hbad : lineFields "x. A bad".toList = some ("x.".toList, .a, "bad".toList) := by decide +kernel
  have hcomment : lineFields "; a comment".toList = none := by decide +kernel
  have hnamed : NamedElsewhere ["; a comment".toList, "X. A 192.0.2.7".toList] "x.".toList :=
    ⟨"X. A 192.0.2.7".toList, by simp, "X.".toList, .a, "192.0.2.7".toList, by decide +kernel, by
      decide +kernel⟩
  refine ⟨zone, hzone, ?_, ?_⟩
  · have hrejected : accepted ipText "x. A bad".toList = none := by
      rw [accepted, lineEntry, hbad]
      decide +kernel
    refine (deleted_line_iff hzone htext hrejected).mpr fun owner kind rdata h => ?_
    obtain ⟨rfl, -⟩ := Prod.mk.inj (Option.some.inj (hbad.symm.trans h))
    exact hnamed
  · have hrejected : accepted ipText "; a comment".toList = none := by
      rw [accepted, lineEntry, hcomment]
      rfl
    exact (deleted_line_iff hzone htext' hrejected).mpr fun owner kind rdata h => by
      cases hcomment.symm.trans h

/-- An address that does not parse leaves its owner in the records. -/
theorem deleted_line_key :
    ¬∀ (fmt : IpFormat) (text line : Name) (before after : List Name) (zone : Zone), fmt.Lawful →
    Zone.parse fmt text = some zone → text.splitOn '\n' = before ++ line :: after →
      accepted fmt line = none →
    ∃ zone', Zone.parse fmt (joinLines (before ++ after)) = some zone' ∧ zone.Same zone' := by
  intro hall
  have hread : ((Zone.parse ipText "x. A bad".toList).map
      fun zone => (zone.records.lookup "x".toList).isSome) = some true := by
    decide +kernel
  have hread' : ((Zone.parse ipText (joinLines [])).map
      fun zone => (zone.records.lookup "x".toList).isSome) =
      some false := by decide +kernel
  obtain ⟨zone, hzone, hkey⟩ := Option.map_eq_some_iff.mp hread
  have hrejected : (accepted ipText "x. A bad".toList).isNone := by decide +kernel
  obtain ⟨zone', h', hsame⟩ :=
    hall ipText "x. A bad".toList "x. A bad".toList [] [] zone ipText_lawful hzone
    (by decide +kernel) (Option.isNone_iff_eq_none.mp hrejected)
  rw [List.append_nil] at h'
  rw [h', Option.map_some, hsame.records, hkey] at hread'
  cases hread'

end Dns

end Dnspir
