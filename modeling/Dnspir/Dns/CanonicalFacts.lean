/-
A dump is a normal form (`zone::serialize`).

* `SameRecords.serialize_eq`: texts that say the same of every name have one
  dump.
* `dump_canonical`: that is all that two dumps are equal for, and a zone that is
  read from a dump has that dump.
-/
import Mathlib.Data.List.Sort
import Dnspir.Dns.IpText

namespace Dnspir

namespace Dns

section Canonical
variable {fmt : IpFormat} {es es' es'' : List Entry} {st st' : ParseState}

/-! ## What is said of every name -/

theorem SameRecords.symm (h : SameRecords es es') : SameRecords es' es := fun n => by
  obtain ⟨h4, h6, hh⟩ := h n
  exact ⟨h4.symm, h6.symm, hh.symm⟩

theorem SameRecords.trans (h : SameRecords es es') (h' : SameRecords es' es'') :
    SameRecords es es'' := fun n => by
  obtain ⟨h4, h6, hh⟩ := h n
  obtain ⟨h4', h6', hh'⟩ := h' n
  exact ⟨h4.trans h4', h6.trans h6', hh.trans hh'⟩

theorem SameRecords.dumpRdata_eq (h : SameRecords es es') (n : Name) :
    dumpRdata es n = dumpRdata es' n := by
  obtain ⟨h4, h6, hh⟩ := h n
  rw [dumpRdata, dumpRdata, h4, h6, hh]

/-! ## The names of a dump -/

/-- The names that have a line. -/
def writtenNames (es : List Entry) (st : ParseState) : List Name :=
  (dumpNames st).filter fun n => dumpRdata es n ≠ []

/-- The other names write nothing. -/
theorem dumpEntries_written (es : List Entry) (st : ParseState) :
    dumpEntries es (dumpNames st) = dumpEntries es (writtenNames es st) := by
  rw [dumpEntries, dumpEntries, writtenNames]
  induction dumpNames st with
  | nil => rfl
  | cons n names ih =>
    rw [List.flatMap_cons, ih, List.filter_cons]
    split
    next => rw [List.flatMap_cons]
    next h =>
      have hnil : dumpRdata es n = [] := by simpa using h
      rw [hnil, List.map_nil, List.nil_append]

theorem mem_writtenNames (h : Parsed st es) {n : Name} : n ∈ writtenNames es st ↔ n ∈ stored es := by
  rw [writtenNames, List.mem_filter, mem_stored, decide_eq_true_iff, and_iff_right_iff_imp,
    mem_dumpNames, h.records.mem]
  intro hne
  obtain ⟨rd, hrd⟩ := List.exists_mem_of_ne_nil _ hne
  exact List.mem_map.mpr ⟨_, mem_dumpRdata.mp hrd, rfl⟩

theorem pairwise_writtenNames (es : List Entry) (st : ParseState) :
    (writtenNames es st).Pairwise (· ≤ ·) :=
  (List.pairwise_mergeSort' (· ≤ ·) st.records.keys).filter _

/-- The order of the lines is that of the names, whatever the order of the text. -/
theorem writtenNames_eq (h : Parsed st es) {names : List Name} (hsorted : names.Pairwise (· ≤ ·))
    (hnodup : names.Nodup) (hmem : ∀ n, n ∈ names ↔ n ∈ stored es) : writtenNames es st = names := by
  refine List.Perm.eq_of_pairwise' (pairwise_writtenNames es st) hsorted ?_
  refine (List.perm_ext_iff_of_nodup (nodup_dumpNames.filter _) hnodup).mpr fun n => ?_
  exact (mem_writtenNames h).trans (hmem n).symm

/-- The lines of a dump, by their names. -/
theorem serialize_of_sorted (h : Parsed st es) {names : List Name}
    (hsorted : names.Pairwise (· ≤ ·)) (hnodup : names.Nodup)
    (hmem : ∀ n, n ∈ names ↔ n ∈ stored es) : serialize fmt st.toZone =
      some ((dumpEntries es names).flatMap fun e => entryBody fmt e ++ ['\n']) := by
  rw [Dns.serialize_eq h, dumpEntries_written, writtenNames_eq h hsorted hnodup hmem]

/-- **One dump** for all texts that say the same. -/
theorem SameRecords.serialize_eq (h : SameRecords es es') (hst : Parsed st es) (hst' : Parsed st' es') :
    serialize fmt st.toZone = serialize fmt st'.toZone := by
  have hmem : ∀ n, n ∈ writtenNames es' st' ↔ n ∈ stored es :=
    fun n => (mem_writtenNames hst').trans (h.mem_stored n).symm
  rw [Dns.serialize_eq hst', dumpEntries_written,
    serialize_of_sorted hst (pairwise_writtenNames es' st') (nodup_dumpNames.filter _)
    hmem, dumpEntries, dumpEntries]
  simp only [h.dumpRdata_eq]

/-! ## Reading a dump -/

/-- A dump says what the text did. -/
theorem sameRecords_dump (hfmt : fmt.Lawful) {text out : Name}
    (h : Parsed st (textEntries fmt text)) (hout : serialize fmt st.toZone = some out) :
    SameRecords (textEntries fmt out) (textEntries fmt text) := by
  have hwritable : ∀ e ∈ dumpEntries (textEntries fmt text) (dumpNames st), WritableName e.1 ∧
      e.2.Writable :=
    fun e he => writable_dump he
  obtain rfl := Option.some.inj ((Dns.serialize_eq h).symm.trans hout)
  rw [textEntries_lines hfmt hwritable]
  exact h.sameRecords

/-- Zones that a client cannot tell apart. -/
structure Agrees (zone zone' : Zone) : Prop where
  zoneName : zone'.zoneName = zone.zoneName
  query : ∀ name, zone'.query name = zone.query name

/-- A zone that is read from a dump answers as the first did, and has its dump. -/
theorem exists_reload (hfmt : fmt.Lawful) {text : Name} {zone : Zone}
    (h : Zone.parse fmt text = some zone) :
    ∃ out again, serialize fmt zone = some out ∧ Zone.parse fmt out = some again ∧ Agrees zone again ∧
      serialize fmt again = some out := by
  obtain ⟨st, hst, rfl⟩ := parse_parsed h
  have hout := @Dns.serialize_eq fmt st _ hst
  have hsame := sameRecords_dump hfmt hst hout
  set out := (dumpEntries (textEntries fmt text) (dumpNames st)).flatMap fun e =>
    entryBody fmt e ++ ['\n']
  obtain ⟨st', hrun, hst'⟩ := exists_parsed hst.pool.length_le fun n host hmem =>
    (hst.pool.mem host).mpr ⟨n, (hsame n).2.2 ▸ hmem⟩
  refine ⟨out, st'.toZone, hout, ?_, ⟨hsame.zoneName hst' hst, fun n => ?_⟩, ?_⟩
  · rw [parse_eq, hrun]
    rfl
  · rw [Zone.query_eq hst, Zone.query_eq hst', hsame.answers]
  · rw [hsame.serialize_eq hst' hst, hout]

/-- **A normal form.** Two zones have the same dump exactly when their texts say
the same of every name, in the same order for each type; and a zone that is read
from a dump is written as that dump again. -/
theorem dump_canonical (hfmt : fmt.Lawful) {text text' : Name} {zone zone' : Zone}
    (h : Zone.parse fmt text = some zone) (h' : Zone.parse fmt text' = some zone') :
    (serialize fmt zone = serialize fmt zone' ↔
      SameRecords (textEntries fmt text) (textEntries fmt text')) ∧
      ∃ out again, serialize fmt zone = some out ∧ Zone.parse fmt out = some again ∧
        serialize fmt again = some out := by
  obtain ⟨out, again, hout, hparse, -, hagain⟩ := exists_reload hfmt h
  refine ⟨⟨fun heq => ?_, fun hsame => ?_⟩, out, again, hout, hparse, hagain⟩
  · obtain ⟨st, hst, rfl⟩ := parse_parsed h
    obtain ⟨st', hst', rfl⟩ := parse_parsed h'
    exact (sameRecords_dump hfmt hst hout).symm.trans (sameRecords_dump hfmt hst' (heq ▸ hout))
  · obtain ⟨st, hst, rfl⟩ := parse_parsed h
    obtain ⟨st', hst', rfl⟩ := parse_parsed h'
    exact hsame.serialize_eq hst hst'

end Canonical

/-- The lines of `exampleText`, in another order. -/
def shuffledText : Name :=
  ("example. NS b.example\nexample. NS ns.test\nb.example AAAA 2001:db8:1:2:3:4:5:6\n" ++
    "b.example. A 192.0.2.7").toList

deriving instance DecidableEq for Rdata

theorem sameRecords_shuffled (b e host host' : Name) (v4 : Ipv4Addr) (v6 : Ipv6Addr) :
    SameRecords [(b, some (.a v4)), (e, some (.ns host)), (e, some (.ns host')), (b, some (.aaaa v6))]
      [(e, some (.ns host)), (e, some (.ns host')), (b, some (.aaaa v6)), (b, some (.a v4))] :=
        fun n => by
  by_cases hb : b = n <;> by_cases he : e = n <;>
    simp [select, hb, he, Rdata.v4?, Rdata.v6?, Rdata.host?]

def exampleV4 : Ipv4Addr := #v[192, 0, 2, 7]

def exampleV6 : Ipv6Addr := #v[0x20, 1, 0xd, 0xb8, 0, 1, 0, 2, 0, 3, 0, 4, 0, 5, 0, 6]

theorem textEntries_examples :
    textEntries ipText exampleText =
      [("b.example".toList, some (.a exampleV4)), ("example".toList, some (.ns "b.example".toList)),
      ("example".toList, some (.ns "ns.test".toList)), ("b.example".toList, some (.aaaa exampleV6))] ∧
    textEntries ipText shuffledText = [("example".toList, some (.ns "b.example".toList)),
      ("example".toList, some (.ns "ns.test".toList)), ("b.example".toList, some (.aaaa exampleV6)),
      ("b.example".toList, some (.a exampleV4))] := by decide +kernel

theorem dump_canonical_example : ∃ zone zone' out, Zone.parse ipText exampleText = some zone ∧
    Zone.parse ipText shuffledText = some zone' ∧ serialize ipText zone = some out ∧
      serialize ipText zone' = some out := by
  have hsome : (Zone.parse ipText exampleText).isSome ∧ (Zone.parse ipText shuffledText).isSome :=
    by decide +kernel
  obtain ⟨zone, hzone⟩ := Option.isSome_iff_exists.mp hsome.1
  obtain ⟨zone', hzone'⟩ := Option.isSome_iff_exists.mp hsome.2
  obtain ⟨hiff, out, -, hout, -⟩ := dump_canonical ipText_lawful hzone hzone'
  have hsame := sameRecords_shuffled "b.example".toList "example".toList "b.example".toList "ns.test".toList
    exampleV4 exampleV6
  rw [← textEntries_examples.1, ← textEntries_examples.2] at hsame
  exact ⟨zone, zone', out, hzone, hzone', hout, (hiff.mpr hsame).symm.trans hout⟩

end Dns

end Dnspir
