/-
What a zone file says (`zone::Zone::parse`).

* `accepted_iff`: the lines that are records, by their tokens.
* `parse_stores`: a parsed zone stores the accepted lines, in their order.
* `zoneName_longest`: its name is the longest suffix of the names it stores.
-/
import Dnspir.Dns.HopFacts
import Dnspir.Dns.IpText

namespace Dnspir

namespace Dns

/-! ## Accepted lines -/

/-- The tokens of a line that is a record: an owner, times to live and classes,
a type, and what it says. -/
def RecordTokens (line owner : Name) (kind : RecordType) (rdata : Name) : Prop :=
  trim line ≠ [] ∧ (trim line).head? ≠ some ';' ∧ ∃ skipped rtype rest,
    splitAsciiWhitespace (trim line) = owner :: (skipped ++ rtype :: rdata :: rest) ∧
      (∀ tok ∈ skipped, isTtl tok ∨ isClass tok) ∧ recordType rtype = some kind

/-- A line that says something of a name. -/
inductive Accepted (fmt : IpFormat) (line : Name) : Name → Rdata → Prop
  | a {owner rdata : Name} {ip : Ipv4Addr} : RecordTokens line owner .a rdata →
      fmt.parseV4 rdata = some ip →
      Accepted fmt line (canonical owner) (.a ip)
  | aaaa {owner rdata : Name} {ip : Ipv6Addr} : RecordTokens line owner .aaaa rdata →
      fmt.parseV6 rdata = some ip →
      Accepted fmt line (canonical owner) (.aaaa ip)
  | ns {owner rdata : Name} : RecordTokens line owner .ns rdata →
      Accepted fmt line (canonical owner) (.ns (canonical rdata))

/-- What an accepted line says. -/
def accepted (fmt : IpFormat) (line : Name) : Option (Name × Rdata) :=
  (lineEntry fmt line).bind fun e => e.2.map (Prod.mk e.1)

/-- What the accepted lines say of a name, of one kind, in their order. -/
def acceptedOf {β : Type} (fmt : IpFormat) (text n : Name) (f : Rdata → Option β) : List β :=
  (text.splitOn '\n').filterMap fun line => (accepted fmt line).bind fun e =>
    if e.1 = n then f e.2 else none

/-- The hosts of the accepted lines. -/
def acceptedHosts (fmt : IpFormat) (text : Name) : List Name :=
  (text.splitOn '\n').filterMap fun line => (accepted fmt line).bind fun e => e.2.host?

/-- The word of a type is neither a number nor a class. -/
theorem not_skipped {rtype : Name} {kind : RecordType} (h : recordType rtype = some kind) :
    (isTtl rtype || isClass rtype) = false := by
  have hlower : ∃ word ∈ ["a".toList, "aaaa".toList, "ns".toList], rtype.map Char.toLower = word := by
    unfold recordType eqIgnoreAsciiCase at h
    simp only [beq_iff_eq] at h
    split at h
    next ha => exact ⟨_, by simp, ha⟩
    next =>
      split at h
      next ha => exact ⟨_, by simp, ha⟩
      next =>
        split at h
        next ha => exact ⟨_, by simp, ha⟩
        next => cases h
  obtain ⟨word, hword, hl⟩ := hlower
  rw [Bool.or_eq_false_iff]
  constructor
  · cases rtype with
    | nil => rfl
    | cons c rtype =>
      -- A digit is its own lower case.
      have hc : isAsciiDigit c = false := by
        have hhead : word.head? = some c.toLower := by rw [← hl]; rfl
        by_contra hd
        rw [Bool.not_eq_false] at hd
        rw [toLower_of_digit hd] at hhead
        simp only [List.mem_cons, List.not_mem_nil, or_false] at hword
        rcases hword with rfl | rfl | rfl <;> (cases hhead; revert hd; decide)
      simp [isTtl, hc]
  · unfold isClass eqIgnoreAsciiCase
    rw [hl]
    simp only [List.mem_cons, List.not_mem_nil, or_false] at hword
    rcases hword with rfl | rfl | rfl <;> decide +kernel

theorem lineFields_iff {line owner rdata : Name} {kind : RecordType} :
    lineFields line = some (owner, kind, rdata) ↔ RecordTokens line owner kind rdata := by
  constructor
  · intro h
    unfold lineFields at h
    simp only at h
    split at h
    next => cases h
    next hstart =>
      simp only [Bool.or_eq_true, List.isEmpty_iff, beq_iff_eq, not_or] at hstart
      split at h
      next => cases h
      next tok fields hsplit =>
        split at h
        next rtype rd rest hdrop =>
          obtain ⟨k, hk, he⟩ := Option.map_eq_some_iff.mp h
          cases he
          refine ⟨hstart.1, hstart.2, fields.takeWhile fun tok => isTtl tok || isClass tok, rtype,
            rest, ?_, ?_, hk⟩
          · rw [hsplit, ← hdrop, List.takeWhile_append_dropWhile]
          · exact fun tok htok => by simpa using List.mem_takeWhile_imp htok
        next => cases h
  · intro h'
    obtain ⟨hne, hcomment, skipped, rtype, rest, hsplit, hskipped, hkind⟩ := h'
    have hdrop : (skipped ++ rtype :: rdata :: rest).dropWhile (fun tok => isTtl tok || isClass tok) =
        rtype :: rdata :: rest := by
      rw [List.dropWhile_append_of_pos fun tok htok => by simpa using hskipped tok htok,
        List.dropWhile_cons_of_neg (by simp [not_skipped hkind])]
    have hstart : ((trim line).isEmpty || (trim line).head? == some ';') = false :=
      by simp [hne, hcomment]
    unfold lineFields
    simp only [hstart, hsplit, hdrop, hkind]
    rfl

theorem accepted_iff {fmt : IpFormat} {line owner : Name} {rd : Rdata} :
    accepted fmt line = some (owner, rd) ↔ Accepted fmt line owner rd := by
  rw [accepted, lineEntry]
  constructor
  · intro h
    obtain ⟨e, he, hrd⟩ := Option.bind_eq_some_iff.mp h
    obtain ⟨⟨nameRaw, kind, rdata⟩, hf, rfl⟩ := Option.map_eq_some_iff.mp he
    obtain ⟨rd', hrd', he'⟩ := Option.map_eq_some_iff.mp hrd
    cases he'
    have htok := lineFields_iff.mp hf
    cases kind with
    | a =>
      obtain ⟨ip, hip, rfl⟩ := Option.map_eq_some_iff.mp hrd'
      exact .a htok hip
    | aaaa =>
      obtain ⟨ip, hip, rfl⟩ := Option.map_eq_some_iff.mp hrd'
      exact .aaaa htok hip
    | ns =>
      cases hrd'
      exact .ns htok
  · intro h
    cases h with
    | a htok hip => simp [lineFields_iff.mpr htok, hip]
    | aaaa htok hip => simp [lineFields_iff.mpr htok, hip]
    | ns htok => simp [lineFields_iff.mpr htok]

theorem select_textEntries {β : Type} (fmt : IpFormat) (text n : Name) (f : Rdata → Option β) :
    select f (textEntries fmt text) n = acceptedOf fmt text n f := by
  rw [select, textEntries, List.filterMap_filterMap, acceptedOf]
  refine List.filterMap_congr fun line _ => ?_
  rw [accepted]
  cases lineEntry fmt line with
  | none => rfl
  | some e =>
    obtain ⟨m, rd⟩ := e
    cases rd with
    | none => simp
    | some rd => rfl

/-- The hosts of a text are those of its names. -/
theorem mem_acceptedHosts {fmt : IpFormat} {text host : Name} :
    host ∈ acceptedHosts fmt text ↔ ∃ n, host ∈ acceptedOf fmt text n Rdata.host? := by
  simp only [acceptedHosts, acceptedOf, List.mem_filterMap, Option.bind_eq_some_iff]
  constructor
  · intro h
    obtain ⟨line, hline, e, he, hhost⟩ := h
    exact ⟨e.1, line, hline, e, he, by rw [if_pos rfl, hhost]⟩
  · intro h
    obtain ⟨n, line, hline, e, he, hhost⟩ := h
    split at hhost
    next => exact ⟨line, hline, e, he, hhost⟩
    next => cases hhost

/-! ## What is stored -/

namespace Zone

/-- The records of a name; those of an unknown one are empty. -/
def recordsOf (zone : Zone) (n : Name) : NameRecords := (zone.records.lookup n).getD {}

/-- A name with a record. -/
def Stores (zone : Zone) (n : Name) : Prop :=
  (zone.recordsOf n).a ≠ [] ∨ (zone.recordsOf n).aaaa ≠ [] ∨ (zone.recordsOf n).ns ≠ []

/-- The zone stores what a text says of its names. -/
structure StoresText (zone : Zone) (fmt : IpFormat) (text : Name) : Prop where
  a : ∀ n, (zone.recordsOf n).a = acceptedOf fmt text n Rdata.v4?
  aaaa : ∀ n, (zone.recordsOf n).aaaa = acceptedOf fmt text n Rdata.v6?
  ns : ∀ n, (zone.recordsOf n).ns.map zone.nsHostname = (acceptedOf fmt text n Rdata.host?).map some
  ns_lt : ∀ n, ∀ i ∈ (zone.recordsOf n).ns, i.toNat < zone.nsPool.length
  nsPool_nodup : zone.nsPool.Nodup

end Zone

theorem Parsed.storesText {st : ParseState} {fmt : IpFormat} {text : Name}
    (h : Parsed st (textEntries fmt text)) :
    st.toZone.StoresText fmt text := by
  refine ⟨fun n => ?_, fun n => ?_, fun n => ?_, fun n i hi => ?_, h.pool.nodup⟩
  · rw [← select_textEntries]
    exact h.records.a n
  · rw [← select_textEntries]
    exact h.records.aaaa n
  · rw [← select_textEntries]
    exact h.records.ns n
  · have hmem : st.nsPool[i.toNat]? ∈ (select Rdata.host? (textEntries fmt text) n).map some :=
      h.records.ns n ▸ List.mem_map_of_mem hi
    obtain ⟨host, -, hhost⟩ := List.mem_map.mp hmem
    exact (List.getElem?_eq_some_iff.mp hhost.symm).1

/-- **A parsed zone stores exactly the accepted lines**, in their order; parsing
fails only on a text with more than 2^32 hosts. -/
theorem parse_stores (fmt : IpFormat) (text : Name) :
    (∀ line owner rd, accepted fmt line = some (owner, rd) ↔ Accepted fmt line owner rd) ∧
      match Zone.parse fmt text with
      | none => 2 ^ 32 < (acceptedHosts fmt text).dedup.length
      | some zone => zone.StoresText fmt text := by
  refine ⟨fun line owner rd => accepted_iff, ?_⟩
  split
  next h =>
    by_contra hle
    have hsub : ∀ n, ∀ host ∈ select Rdata.host? (textEntries fmt text) n,
        host ∈ (acceptedHosts fmt text).dedup :=
      fun n host hmem => by
        rw [select_textEntries] at hmem
        exact List.mem_dedup.mpr (mem_acceptedHosts.mpr ⟨n, hmem⟩)
    obtain ⟨st, hrun, -⟩ := exists_parsed (Nat.le_of_not_lt hle) hsub
    rw [parse_eq, hrun] at h
    cases h
  next zone h =>
    obtain ⟨st, hst, rfl⟩ := parse_parsed h
    exact hst.storesText

/-! ## The name of the zone -/

section ZoneName
variable {fmt : IpFormat} {text : Name} {zone : Zone}

theorem Parsed.stores_iff {st : ParseState} {es : List Entry} (h : Parsed st es) (n : Name) :
    st.toZone.Stores n ↔ n ∈ stored es := by
  have ha : (st.toZone.recordsOf n).a = select Rdata.v4? es n := h.records.a n
  have haaaa : (st.toZone.recordsOf n).aaaa = select Rdata.v6? es n := h.records.aaaa n
  have hns : (st.toZone.recordsOf n).ns = [] ↔ select Rdata.host? es n = [] := by
    have hmap := congrArg List.length (h.records.ns n)
    rw [List.length_map, List.length_map] at hmap
    rw [← List.length_eq_zero_iff, ← List.length_eq_zero_iff, ← hmap]
    rfl
  rw [mem_stored, Zone.Stores, ha, haaaa, ne_eq _ [], ne_eq _ [], ne_eq _ [], hns, dumpRdata]
  simp only [ne_eq, List.append_eq_nil_iff, List.map_eq_nil_iff, not_and_or, or_assoc]

/-- The name is in a zone exactly when the names it stores are. -/
theorem nameInSuffix_zoneName (h : Zone.parse fmt text = some zone) (hne : ∃ n, zone.Stores n)
    (z : Name) :
    nameInSuffix zone.zoneName z ↔ ∀ n, zone.Stores n → nameInSuffix n z := by
  obtain ⟨st, hst, rfl⟩ := parse_parsed h
  simp only [hst.stores_iff] at hne ⊢
  obtain ⟨n, hn⟩ := hne
  cases hs : st.zoneSuffix with
  | none =>
    rw [hst.suffix.noSuffix.mp hs] at hn
    cases hn
  | some s =>
    have hzone : st.toZone.zoneName = s := by rw [ParseState.toZone, hs]; rfl
    rw [hzone]
    exact hst.suffix.meet s hs z

theorem suffix_of_nameInSuffix {name z : Name} (h : nameInSuffix name z) : z <:+ name := by
  rcases nameInSuffix_append.mp h with rfl | rfl | ⟨x, rfl⟩
  · exact List.nil_suffix
  · exact List.suffix_rfl
  · exact ⟨x ++ ['.'], by simp⟩

theorem hopFrom_ne_outOfZone (server : DnsServer) (target name : Name) :
    hopFrom server target name ≠ .ok .outOfZone := by
  induction hlen : name.length using Nat.strongRecOn generalizing name with
  | ind n ih =>
    rw [hopFrom]
    split
    next => simp
    next =>
      simp only
      split
      next => simp
      next =>
        split
        next => simp
        next =>
          split
          next => simp
          next =>
            split
            next rest hstrip => exact ih _ (hlen ▸ stripLeftmost_length hstrip) rest rfl
            next => simp

/-- **The name of a zone** is the longest that every name it stores is in, in
whatever order the lines stand. No server for the zone finds such a name out of
it. -/
theorem zoneName_longest (h : Zone.parse fmt text = some zone) (hne : ∃ n, zone.Stores n) :
    (∀ n, zone.Stores n → nameInSuffix n zone.zoneName) ∧
      (∀ z, (∀ n, zone.Stores n → nameInSuffix n z) → z <:+ zone.zoneName) ∧
      (∀ text' zone', (text'.splitOn '\n').Perm (text.splitOn '\n') →
        Zone.parse fmt text' = some zone' →
        zone'.zoneName = zone.zoneName) ∧
      ∀ n, zone.Stores n → targetBelongsToZone n zone.zoneName ∧
        ∀ query, oneHop ⟨zone.zoneName, query⟩ n ≠ .ok .outOfZone := by
  have hmeet := nameInSuffix_zoneName h hne
  have hin : ∀ n, zone.Stores n → nameInSuffix n zone.zoneName :=
    (hmeet zone.zoneName).mp (nameInSuffix_refl _)
  refine ⟨hin, fun z hz => suffix_of_nameInSuffix ((hmeet z).mpr hz),
    fun text' zone' hperm h' => ?_, fun n hn => ?_⟩
  · have hstores : ∀ n, zone'.Stores n ↔ zone.Stores n := fun n => by
      obtain ⟨st, hst, rfl⟩ := parse_parsed h
      obtain ⟨st', hst', rfl⟩ := parse_parsed h'
      rw [hst.stores_iff, hst'.stores_iff]
      exact ((hperm.filterMap _).filterMap _).mem_iff
    have hmeet' := nameInSuffix_zoneName h' (hne.imp fun n hn => (hstores n).mpr hn)
    have hiff : ∀ z, nameInSuffix zone'.zoneName z ↔ nameInSuffix zone.zoneName z := fun z => by
      rw [hmeet, hmeet']
      exact forall_congr' fun n => imp_congr_left (hstores n)
    exact eq_of_nameInSuffix ((hiff _).mpr (nameInSuffix_refl _)) ((hiff _).mp (nameInSuffix_refl _))
  · refine ⟨hin n hn, fun query => ?_⟩
    rw [oneHop_inZone (hin n hn)]
    exact hopFrom_ne_outOfZone _ n n

end ZoneName

theorem zoneName_longest_example :
    ∃ zone, Zone.parse ipText exampleText = some zone ∧ zone.Stores "b.example".toList ∧
    ∀ query, oneHop ⟨zone.zoneName, query⟩ "b.example".toList ≠ .ok .outOfZone := by
  have hread : ((Zone.parse ipText exampleText).map
      fun zone => (zone.recordsOf "b.example".toList).a.length) = some 1 := by
    decide +kernel
  obtain ⟨zone, hzone, hlen⟩ := Option.map_eq_some_iff.mp hread
  have hstores : zone.Stores "b.example".toList := .inl fun hnil => by
    rw [hnil] at hlen
    cases hlen
  exact ⟨zone, hzone, hstores, ((zoneName_longest hzone ⟨_, hstores⟩).2.2.2 _ hstores).2⟩

end Dns

end Dnspir
