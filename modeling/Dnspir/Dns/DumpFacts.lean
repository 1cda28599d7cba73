/-
The dump of a zone (`zone::serialize`).

* `serialize_eq`: a parsed zone is written as the lines of its entries.
* `serializeBounded_of_parse`: what a cap makes of it.
* `textEntries_lines`: what is read of them.
* `SameRecords.answers`, `SameRecords.zoneName`: zones with the same records, in any order of
  the names, answer alike.
* `parse_serialize`: a zone that was written and parsed again answers as before.
-/
import Dnspir.Dns.SerializeFacts
import Dnspir.Dns.TokenFacts
import Dnspir.Dns.ZoneFacts

namespace Dnspir

namespace Dns

/-- `Display` and `FromStr` are inverse, and addresses are shown without
white space. -/
structure IpFormat.Lawful (fmt : IpFormat) : Prop where
  parse_showV4 : ∀ ip, fmt.parseV4 (fmt.showV4 ip) = some ip
  parse_showV6 : ∀ ip, fmt.parseV6 (fmt.showV6 ip) = some ip
  showV4_ne_nil : ∀ ip, fmt.showV4 ip ≠ []
  showV6_ne_nil : ∀ ip, fmt.showV6 ip ≠ []
  showV4_text : ∀ ip, ∀ c ∈ fmt.showV4 ip, isWhitespace c = false
  showV6_text : ∀ ip, ∀ c ∈ fmt.showV6 ip, isWhitespace c = false

/-! ## Lines -/

namespace Rdata

def kind : Rdata → RecordType
  | .a _ => .a
  | .aaaa _ => .aaaa
  | .ns _ => .ns

def text (fmt : IpFormat) : Rdata → Name
  | .a ip => fmt.showV4 ip
  | .aaaa ip => fmt.showV6 ip
  | .ns host => host ++ ['.']

/-- A host that is written is one that can be read. -/
def Writable (rd : Rdata) : Prop := ∀ host, rd.host? = some host → WritableHost host

end Rdata

/-- The line of an entry, without its end. -/
def entryBody (fmt : IpFormat) (e : Name × Rdata) : Name := lineBody e.1 e.2.kind (e.2.text fmt)

theorem isToken_of_text {tok : Name} (hne : tok ≠ []) (h : ∀ c ∈ tok, isWhitespace c = false) :
    IsToken tok :=
  ⟨hne, fun c hc => isAsciiWhitespace_false (h c hc)⟩

section Entries
variable {fmt : IpFormat}

theorem Rdata.isToken_text (hfmt : fmt.Lawful) {rd : Rdata} (h : rd.Writable) :
    IsToken (rd.text fmt) := by
  cases rd with
  | a ip => exact isToken_of_text (hfmt.showV4_ne_nil ip) (hfmt.showV4_text ip)
  | aaaa ip => exact isToken_of_text (hfmt.showV6_ne_nil ip) (hfmt.showV6_text ip)
  | ns host => exact (h host rfl).token

theorem Rdata.getLast?_text (hfmt : fmt.Lawful) (rd : Rdata) {c : Char}
    (h : (rd.text fmt).getLast? = some c) :
    isWhitespace c = false := by
  cases rd with
  | a ip => exact hfmt.showV4_text ip c (List.mem_of_getLast? h)
  | aaaa ip => exact hfmt.showV6_text ip c (List.mem_of_getLast? h)
  | ns host =>
    rw [Rdata.text, List.getLast?_concat] at h
    cases h
    decide

/-- **What is read of the line of an entry** is the entry. -/
theorem lineEntry_body (hfmt : fmt.Lawful) {e : Name × Rdata} (hname : WritableName e.1)
    (hrd : e.2.Writable) :
    lineEntry fmt (entryBody fmt e) = some (e.1, some e.2) := by
  obtain ⟨n, rd⟩ := e
  rw [lineEntry, entryBody, lineFields_body _ hname (Rdata.isToken_text hfmt hrd)
    fun c => Rdata.getLast?_text hfmt rd]
  simp only [Option.map_some, hname.canonical]
  cases rd with
  | a ip => simp [Rdata.kind, Rdata.text, hfmt.parse_showV4]
  | aaaa ip => simp [Rdata.kind, Rdata.text, hfmt.parse_showV6]
  | ns host => simp [Rdata.kind, Rdata.text, (hrd host rfl).canonical]

theorem splitOn_lines {bodies : List Name} (h : ∀ body ∈ bodies, '\n' ∉ body) :
    (bodies.flatMap fun body => body ++ ['\n']).splitOn '\n' = bodies ++ [[]] := by
  induction bodies with
  | nil => rfl
  | cons body bodies ih =>
    rw [List.flatMap_cons, List.append_assoc, List.singleton_append,
      List.splitOn_append_cons_self_of_not_mem (h body (by simp)), ih fun b hb =>
        h b (by simp [hb]), List.cons_append]

/-- What is read of the lines of entries. -/
theorem textEntries_lines (hfmt : fmt.Lawful) {es : List (Name × Rdata)}
    (h : ∀ e ∈ es, WritableName e.1 ∧ e.2.Writable) :
    textEntries fmt (es.flatMap fun e => entryBody fmt e ++ ['\n']) = es.map fun e =>
      (e.1, some e.2) := by
  have hbody : ∀ body ∈ es.map (entryBody fmt), '\n' ∉ body := List.forall_mem_map.mpr fun e he =>
    newline_notMem_body _ (h e he).1 (Rdata.isToken_text hfmt (h e he).2)
  have hsplit := splitOn_lines hbody
  rw [List.flatMap_map] at hsplit
  rw [textEntries, hsplit, List.filterMap_append, List.filterMap_map]
  have hlast : [[]].filterMap (lineEntry fmt) = [] := rfl
  rw [hlast, List.append_nil, ← List.filterMap_eq_map]
  exact List.filterMap_congr fun e he => lineEntry_body hfmt (h e he).1 (h e he).2

/-- The entries of a text can be written back. -/
theorem writable_of_mem {text : Name} {e : Entry} (h : e ∈ textEntries fmt text) :
    WritableName e.1 ∧ ∀ rd, e.2 = some rd → rd.Writable := by
  obtain ⟨line, -, hl⟩ := List.mem_filterMap.mp h
  obtain ⟨⟨nameRaw, kind, rdata⟩, hf, rfl⟩ := Option.map_eq_some_iff.mp hl
  obtain ⟨hname, hhost⟩ := lineFields_writable hf
  refine ⟨hname, fun rd he host hh => ?_⟩
  cases kind with
  | a =>
    obtain ⟨ip, -, rfl⟩ := Option.map_eq_some_iff.mp he
    cases hh
  | aaaa =>
    obtain ⟨ip, -, rfl⟩ := Option.map_eq_some_iff.mp he
    cases hh
  | ns =>
    cases he
    cases hh
    exact hhost

end Entries

/-! ## The entries of a dump -/

/-- What a dump says of a name. -/
def dumpRdata (es : List Entry) (n : Name) : List Rdata :=
  (select Rdata.v4? es n).map .a ++ (select Rdata.v6? es n).map .aaaa ++
    (select Rdata.host? es n).map .ns

/-- The entries of a dump, in the order they are written. -/
def dumpEntries (es : List Entry) (names : List Name) : List (Name × Rdata) :=
  names.flatMap fun n => (dumpRdata es n).map (Prod.mk n)

/-- Texts that say the same of every name. -/
def SameRecords (es es' : List Entry) : Prop :=
  ∀ n, select Rdata.v4? es n = select Rdata.v4? es' n ∧ select Rdata.v6? es n = select Rdata.v6? es' n ∧
    select Rdata.host? es n = select Rdata.host? es' n

section Same
variable {es es' : List Entry}

theorem mem_select {β : Type} {f : Rdata → Option β} {n : Name} {x : β} :
    x ∈ select f es n ↔ ∃ rd, (n, some rd) ∈ es ∧ f rd = some x := by
  rw [select, List.mem_filterMap]
  constructor
  · intro h'
    obtain ⟨⟨m, rd⟩, hmem, hx⟩ := h'
    split at hx
    next h =>
      subst h
      obtain ⟨rd, rfl, hf⟩ := Option.bind_eq_some_iff.mp hx
      exact ⟨rd, hmem, hf⟩
    next => cases hx
  · intro h'
    obtain ⟨rd, hmem, hf⟩ := h'
    exact ⟨_, hmem, by rw [if_pos rfl]; exact hf⟩

theorem mem_dumpRdata {n : Name} {rd : Rdata} : rd ∈ dumpRdata es n ↔ (n, some rd) ∈ es := by
  simp only [dumpRdata, List.mem_append, List.mem_map, mem_select]
  constructor
  · rintro ((⟨x, ⟨rd', hmem, hf⟩, rfl⟩ | ⟨x, ⟨rd', hmem, hf⟩, rfl⟩) | ⟨x, ⟨rd', hmem, hf⟩, rfl⟩) <;>
      (cases rd' <;> cases hf; exact hmem)
  · intro hmem
    cases rd with
    | a ip => exact .inl (.inl ⟨ip, ⟨_, hmem, rfl⟩, rfl⟩)
    | aaaa ip => exact .inl (.inr ⟨ip, ⟨_, hmem, rfl⟩, rfl⟩)
    | ns host => exact .inr ⟨host, ⟨_, hmem, rfl⟩, rfl⟩

theorem mem_stored {n : Name} : n ∈ stored es ↔ dumpRdata es n ≠ [] := by
  rw [stored, List.mem_filterMap]
  constructor
  · intro h
    obtain ⟨⟨m, rd⟩, hmem, he⟩ := h
    obtain ⟨rd, rfl, rfl⟩ := Option.map_eq_some_iff.mp he
    exact List.ne_nil_of_mem (mem_dumpRdata.mpr hmem)
  · intro hne
    obtain ⟨rd, hmem⟩ := List.exists_mem_of_ne_nil _ hne
    exact ⟨_, mem_dumpRdata.mp hmem, rfl⟩

theorem select_dumpRdata (n : Name) : (dumpRdata es n).filterMap Rdata.v4? = select Rdata.v4? es n ∧
    (dumpRdata es n).filterMap Rdata.v6? = select Rdata.v6? es n ∧
    (dumpRdata es n).filterMap Rdata.host? = select Rdata.host? es n := by
  simp only [dumpRdata, List.filterMap_append, List.filterMap_map]
  refine ⟨?_, ?_, ?_⟩ <;> simp [Function.comp_def, Rdata.v4?, Rdata.v6?, Rdata.host?]

/-- A dump says of each name what the text did. -/
theorem select_dump {β : Type} (f : Rdata → Option β) {names : List Name} (hnodup : names.Nodup)
    (n : Name) :
    select f ((dumpEntries es names).map fun e => (e.1, some e.2)) n =
      if n ∈ names then (dumpRdata es n).filterMap f else [] := by
  induction names with
  | nil => rfl
  | cons m names ih =>
    obtain ⟨hm, hnodup⟩ := List.nodup_cons.mp hnodup
    rw [dumpEntries, List.flatMap_cons, List.map_append, select_append, ← dumpEntries, ih hnodup,
      select, List.map_map, List.filterMap_map]
    by_cases hn : m = n
    · subst hn
      rw [if_neg hm, if_pos (by simp), List.append_nil]
      exact List.filterMap_congr fun rd _ => by simp
    · have hmem : n ∈ m :: names ↔ n ∈ names := by simp [Ne.symm hn]
      simp only [hmem]
      refine (congrArg (· ++ _) ?_).trans (List.nil_append _)
      simp [Function.comp_def, hn]

theorem SameRecords.answers (h : SameRecords es es') (n : Name) : answers es n = answers es' n := by
  have hglue : glue es = glue es' := by
    funext host
    obtain ⟨h4, h6, -⟩ := h host
    rw [glue, glue, h4, h6]
  obtain ⟨h4, h6, hh⟩ := h n
  rw [Dns.answers, Dns.answers, h4, h6, hh, hglue]

theorem SameRecords.mem_stored (h : SameRecords es es') (n : Name) :
    n ∈ stored es ↔ n ∈ stored es' := by
  obtain ⟨h4, h6, hh⟩ := h n
  rw [Dns.mem_stored, Dns.mem_stored, dumpRdata, dumpRdata, h4, h6, hh]

/-- The suffix of a zone is what its records have in common. -/
theorem SameRecords.zoneName (h : SameRecords es es') {st st' : ParseState} (hst : Parsed st es)
    (hst' : Parsed st' es') :
    st.toZone.zoneName = st'.toZone.zoneName := by
  have hnone : st.zoneSuffix = none ↔ st'.zoneSuffix = none := by
    rw [hst.suffix.noSuffix, hst'.suffix.noSuffix, List.eq_nil_iff_forall_not_mem,
      List.eq_nil_iff_forall_not_mem]
    exact forall_congr' fun n => not_congr (h.mem_stored n)
  unfold ParseState.toZone
  simp only
  cases hs : st.zoneSuffix with
  | none => rw [hnone.mp hs]
  | some s =>
    cases hs' : st'.zoneSuffix with
    | none =>
      rw [hnone.mpr hs'] at hs
      cases hs
    | some s' =>
      have hiff : ∀ z, nameInSuffix s z ↔ nameInSuffix s' z := fun z => by
        rw [hst.suffix.meet s hs, hst'.suffix.meet s' hs']
        exact forall_congr' fun n => imp_congr_left (h.mem_stored n)
      exact eq_of_nameInSuffix ((hiff s').mpr (nameInSuffix_refl s'))
        ((hiff s).mp (nameInSuffix_refl s))

end Same

/-! ## Writing a zone -/

/-- The names of a dump. -/
def dumpNames (st : ParseState) : List Name := st.records.keys.mergeSort fun a b => decide (a ≤ b)

section Writing
variable {fmt : IpFormat} {st : ParseState} {es : List Entry}

theorem nameLines_eq (h : Parsed st es) {n : Name} (hn : n ∈ st.records) :
    nameLines fmt st.toZone n = (dumpRdata es n).map fun rd =>
      some (entryBody fmt (n, rd) ++ ['\n']) := by
  have ha := h.records.a n
  have haaaa := h.records.aaaa n
  have hns := h.records.ns n
  obtain ⟨entry, hl⟩ := Option.isSome_iff_exists.mp (AList.lookup_isSome.mpr hn)
  rw [ParseState.entry, hl, Option.getD_some] at ha haaaa hns
  have hlookup : st.toZone.records.lookup n = some entry := hl
  have hhosts : (entry.ns.map fun nsIdx => (st.toZone.nsHostname nsIdx).map fun nshost =>
      recordLine n "ns".toList (nshost ++ ['.'])) =
      (select Rdata.host? es n).map fun host => some (recordLine n "ns".toList (host ++ ['.'])) := by
    have := congrArg (List.map
      (Option.map fun nshost => recordLine n "ns".toList (nshost ++ ['.']))) hns
    rwa [List.map_map, List.map_map] at this
  rw [nameLines, hlookup]
  simp only
  rw [hhosts, ha, haaaa, dumpRdata, List.map_append, List.map_append, List.map_map, List.map_map,
    List.map_map]
  simp only [entryBody, ← recordLine_eq]
  rfl

theorem zoneLines_eq (h : Parsed st es) : zoneLines fmt st.toZone =
    (dumpEntries es (dumpNames st)).map fun e =>
      some (entryBody fmt e ++ ['\n']) := by
  rw [zoneLines, dumpEntries, dumpNames, List.map_flatMap]
  refine List.flatMap_congr fun n hn => ?_
  rw [nameLines_eq h (List.mem_mergeSort.mp hn), List.map_map]
  rfl

/-- **A parsed zone is written** as the lines of its entries. -/
theorem serialize_eq (h : Parsed st es) : serialize fmt st.toZone =
    some ((dumpEntries es (dumpNames st)).flatMap fun e =>
      entryBody fmt e ++ ['\n']) := by
  have hlines : zoneLines fmt st.toZone = _ := zoneLines_eq h
  rw [← Function.comp_def some, ← List.map_map] at hlines
  rw [serialize_of_lines hlines, ← List.flatMap_def]

theorem mem_dumpNames {n : Name} : n ∈ dumpNames st ↔ n ∈ st.records := by
  rw [dumpNames, List.mem_mergeSort, AList.mem_keys]

theorem nodup_dumpNames : (dumpNames st).Nodup :=
  (List.mergeSort_perm _ _).nodup_iff.mpr st.records.keys_nodup

theorem writable_dump {text : Name} {names : List Name} {e : Name × Rdata}
    (he : e ∈ dumpEntries (textEntries fmt text) names) : WritableName e.1 ∧ e.2.Writable := by
  obtain ⟨n, -, hn⟩ := List.mem_flatMap.mp he
  obtain ⟨rd, hrd, rfl⟩ := List.mem_map.mp hn
  obtain ⟨hname, hwritable⟩ := writable_of_mem (mem_dumpRdata.mp hrd)
  exact ⟨hname, hwritable rd rfl⟩

/-- The lines of a parsed zone have no line break within. -/
theorem oneLine_of_parse (hfmt : fmt.Lawful) {text : Name} {zone : Zone}
    (h : Zone.parse fmt text = some zone) :
    zone.OneLine fmt := by
  obtain ⟨st, hst, rfl⟩ := parse_parsed h
  intro line hline
  rw [zoneLines_eq hst] at hline
  obtain ⟨e, he, hbody⟩ := List.mem_map.mp hline
  cases hbody
  obtain ⟨hname, hwritable⟩ := writable_dump he
  rw [List.dropLast_concat]
  exact newline_notMem_body _ hname (Rdata.isToken_text hfmt hwritable)

/-- **The cap on the dump of a parsed zone**, by its text: what is returned
instead is the least length over the cap of a prefix that ends with a line. -/
theorem serializeBounded_of_parse (hfmt : fmt.Lawful) {text : Name} {zone : Zone}
    (h : Zone.parse fmt text = some zone) (cap : UInt64) : ∃ out, serialize fmt zone = some out ∧
      (strLen out ≤ cap → serializeBounded fmt zone cap = some (.ok out)) ∧
      (cap < strLen out → ∃ n, serializeBounded fmt zone cap = some (.error n) ∧
        IsLeast {n | cap < n ∧ ∃ pre, pre <+: out ∧ pre.getLast? = some '\n' ∧ strLen pre = n} n) := by
  have hvalid : zone.Valid := by
    by_contra hv
    obtain ⟨st, hst, rfl⟩ := parse_parsed h
    have hnone : serialize fmt st.toZone = none := serialize_eq_none hv
    rw [serialize_eq hst] at hnone
    cases hnone
  obtain ⟨lines, hlines⟩ := exists_lines fmt hvalid
  obtain ⟨hle, hlt⟩ := serializeBounded_of_lines hlines cap
  have hover : lengthsOver cap lines =
      {n | cap < n ∧ ∃ pre, pre <+: lines.flatten ∧ pre.getLast? = some '\n' ∧ strLen pre = n} := by
    refine Set.ext fun n => and_congr_right fun hn => ⟨?_, ?_⟩
    · rintro ⟨whole, hwhole, rfl⟩
      obtain ⟨hpre, hnil | hlast⟩ :=
        (prefix_lines_iff hlines (oneLine_of_parse hfmt h) _).mpr ⟨whole, hwhole, rfl⟩
      · rw [hnil] at hn
        exact absurd hn (UInt64.not_lt.mpr UInt64.zero_le)
      · exact ⟨_, hpre, hlast, rfl⟩
    · rintro ⟨pre, hpre, hlast, rfl⟩
      obtain ⟨whole, hwhole, rfl⟩ :=
        (prefix_lines_iff hlines (oneLine_of_parse hfmt h) pre).mp ⟨hpre, .inr hlast⟩
      exact ⟨whole, hwhole, rfl⟩
  exact ⟨_, serialize_of_lines hlines, hle, hover ▸ hlt⟩

/-- A name without a line has no records. -/
theorem Parsed.sameRecords (h : Parsed st es) :
    SameRecords ((dumpEntries es (dumpNames st)).map fun e => (e.1, some e.2)) es := fun n => by
  obtain ⟨h4, h6, hh⟩ : _ ∧ _ ∧ (dumpRdata es n).filterMap Rdata.host? = _ := select_dumpRdata n
  have hnil : n ∉ dumpNames st → dumpRdata es n = [] := fun hn => by
    rw [mem_dumpNames, h.records.mem] at hn
    rw [List.eq_nil_iff_forall_not_mem]
    exact fun rd hrd => hn (List.mem_map.mpr ⟨_, mem_dumpRdata.mp hrd, rfl⟩)
  rw [select_dump _ nodup_dumpNames, select_dump _ nodup_dumpNames, select_dump _ nodup_dumpNames,
    ← h4, ← h6, ← hh]
  split
  next => exact ⟨rfl, rfl, rfl⟩
  next hn => rw [hnil hn]; exact ⟨rfl, rfl, rfl⟩

end Writing

/-- **A dump is faithful.** Whatever text was parsed, the zone it gave is
written as a text that is accepted, with the same name and the same answer to
every query, in the same order. -/
theorem parse_serialize {fmt : IpFormat} (hfmt : fmt.Lawful) {text : Name} {zone : Zone}
    (h : Zone.parse fmt text = some zone) :
    ∃ out again, serialize fmt zone = some out ∧ Zone.parse fmt out = some again ∧
      again.zoneName = zone.zoneName ∧
      ∀ name, ∃ records, zone.query name = some records ∧ again.query name = some records := by
  obtain ⟨st, hst, rfl⟩ := parse_parsed h
  have hsame := hst.sameRecords
  have hwritable : ∀ e ∈ dumpEntries (textEntries fmt text) (dumpNames st), WritableName e.1 ∧
      e.2.Writable :=
    fun e he => writable_dump he
  have hhosts : ∀ n, ∀ host ∈ select Rdata.host? _ n, host ∈ st.nsPool := fun n host hmem => by
    rw [(hsame n).2.2] at hmem
    exact (hst.pool.mem host).mpr ⟨n, hmem⟩
  obtain ⟨st', hrun, hst'⟩ := exists_parsed hst.pool.length_le hhosts
  refine ⟨_, st'.toZone, serialize_eq hst, ?_, hsame.zoneName hst' hst,
    fun n => ⟨_, Zone.query_eq hst n, by rw [Zone.query_eq hst', hsame.answers]⟩⟩
  rw [parse_eq, textEntries_lines hfmt hwritable, hrun]
  rfl

end Dns

end Dnspir
