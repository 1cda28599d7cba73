/-
What a parsed zone holds (`zone::Zone::parse`).

A text is a list of entries: the lines that are kept, with the name and what
they say of it. The loop's state after them is determined by three invariants,
one for the records, one for the pool of hosts and one for the suffix.

* `addEntry_parsed`, `parse_parsed`: one line, and a whole text.
* `exists_parsed`: with few hosts, parsing does not fail.
* `Zone.query_eq`: what a lookup returns, from the entries alone.
-/
import Dnspir.Dns.Client
import Dnspir.Dns.SuffixFacts

namespace Dnspir

namespace Dns

/-! ## Entries -/

/-- What a line says of its name. -/
inductive Rdata
  | a (ip : Ipv4Addr)
  | aaaa (ip : Ipv6Addr)
  | ns (host : Name)

namespace Rdata

def v4? : Rdata → Option Ipv4Addr
  | .a ip => some ip
  | _ => none

def v6? : Rdata → Option Ipv6Addr
  | .aaaa ip => some ip
  | _ => none

def host? : Rdata → Option Name
  | .ns host => some host
  | _ => none

end Rdata

/-- The name of a line that is kept and what it says, `none` for an address
that does not parse. -/
abbrev Entry := Name × Option Rdata

def lineEntry (fmt : IpFormat) (line : Name) : Option Entry :=
  (lineFields line).map fun (nameRaw, kind, rdata) => (canonical nameRaw, match kind with
    | .a => (fmt.parseV4 rdata).map .a
    | .aaaa => (fmt.parseV6 rdata).map .aaaa
    | .ns => some (.ns (canonical rdata)))

def textEntries (fmt : IpFormat) (text : Name) : List Entry :=
  (text.splitOn '\n').filterMap (lineEntry fmt)

/-- What the entries of a name say, of one kind. -/
def select {β : Type} (f : Rdata → Option β) (es : List Entry) (n : Name) : List β :=
  es.filterMap fun e => if e.1 = n then e.2.bind f else none

theorem select_append {β : Type} (f : Rdata → Option β) (es es' : List Entry) (n : Name) :
    select f (es ++ es') n = select f es n ++ select f es' n := List.filterMap_append

theorem select_self {β : Type} (f : Rdata → Option β) (e : Entry) :
    select f [e] e.1 = (e.2.bind f).toList := by
  rw [select, List.filterMap_cons, List.filterMap_nil, if_pos rfl]
  cases e.2.bind f <;> rfl

theorem select_other {β : Type} (f : Rdata → Option β) {e : Entry} {n : Name} (h : e.1 ≠ n) :
    select f [e] n = [] := by
  rw [select, List.filterMap_cons, List.filterMap_nil, if_neg h]

theorem select_none {β : Type} (f : Rdata → Option β) {e : Entry} (h : e.2 = none) (n : Name) :
    select f [e] n = [] := by
  by_cases hn : e.1 = n
  · subst hn
    rw [select_self, h]
    rfl
  · exact select_other f hn

/-- The names of the entries that are stored. -/
def stored (es : List Entry) : List Name := es.filterMap fun e => e.2.map fun _ => e.1

/-- One line of the loop. -/
def addEntry (st : ParseState) (e : Entry) : Option ParseState :=
  let st := st.touch e.1
  match e.2 with
  | none => some st
  | some (.a ip) =>
    some ((st.update e.1 fun entry => { entry with a := entry.a ++ [ip] }).trackSuffix e.1)
  | some (.aaaa ip) =>
    some ((st.update e.1 fun entry => { entry with aaaa := entry.aaaa ++ [ip] }).trackSuffix e.1)
  | some (.ns host) => do
    let (idx, st) ← st.intern host
    return (st.update e.1 fun entry => { entry with ns := entry.ns ++ [idx] }).trackSuffix e.1

theorem parseLine_eq (fmt : IpFormat) (st : ParseState) (line : Name) :
    parseLine fmt st line = match lineEntry fmt line with
      | none => some st
      | some e => addEntry st e := by
  unfold parseLine lineEntry
  cases lineFields line with
  | none => rfl
  | some fields =>
    obtain ⟨nameRaw, kind, rdata⟩ := fields
    cases kind with
    | a =>
      simp only [Option.map_some, addEntry]
      cases fmt.parseV4 rdata <;> rfl
    | aaaa =>
      simp only [Option.map_some, addEntry]
      cases fmt.parseV6 rdata <;> rfl
    | ns => rfl

def ParseState.toZone (st : ParseState) : Zone := ⟨st.records, st.zoneSuffix.getD [], st.nsPool⟩

theorem foldlM_parseLine (fmt : IpFormat) (lines : List Name) (st : ParseState) :
    lines.foldlM (parseLine fmt) st = (lines.filterMap (lineEntry fmt)).foldlM addEntry st := by
  induction lines generalizing st with
  | nil => rfl
  | cons line lines ih =>
    rw [List.foldlM_cons, parseLine_eq]
    cases h : lineEntry fmt line with
    | none => simpa [List.filterMap_cons, h] using ih st
    | some e =>
      rw [List.filterMap_cons_some h, List.foldlM_cons]
      exact congrArg _ (funext ih)

/-- Parsing is a fold over the entries. -/
theorem parse_eq (fmt : IpFormat) (text : Name) :
    Zone.parse fmt text = ((textEntries fmt text).foldlM addEntry .empty).map ParseState.toZone := by
  rw [Zone.parse, foldlM_parseLine, Option.map_eq_bind]
  rfl

/-! ## The state -/

namespace ParseState

/-- The records of a name; those of an unknown one are empty. -/
def entry (st : ParseState) (n : Name) : NameRecords := (st.records.lookup n).getD {}

theorem entry_touch (st : ParseState) (n m : Name) : (st.touch n).entry m = st.entry m := by
  unfold touch
  split
  next => rfl
  next hn =>
    by_cases hm : m = n
    · subst hm
      rw [entry, entry, AList.lookup_insert, AList.lookup_eq_none.mpr hn]
      rfl
    · rw [entry, entry, AList.lookup_insert_ne hm]

theorem mem_touch (st : ParseState) (n m : Name) :
    m ∈ (st.touch n).records ↔ m ∈ st.records ∨ m = n := by
  unfold touch
  split
  next hn => exact ⟨.inl, fun h => h.elim id fun he => he ▸ hn⟩
  next hn => rw [AList.mem_insert, or_comm]

theorem entry_update (st : ParseState) (n : Name) (f : NameRecords → NameRecords) (m : Name) :
    (st.update n f).entry m = if m = n then f (st.entry n) else st.entry m := by
  split
  next h =>
    subst h
    rw [entry, update, AList.lookup_insert]
    rfl
  next h => rw [entry, update, AList.lookup_insert_ne h, entry]

theorem mem_update (st : ParseState) (n : Name) (f : NameRecords → NameRecords) (m : Name) :
    m ∈ (st.update n f).records ↔ m ∈ st.records ∨ m = n := by rw [update, AList.mem_insert, or_comm]

end ParseState

/-- The records are what the entries say. -/
structure RecordsOf (st : ParseState) (es : List Entry) : Prop where
  mem : ∀ n, n ∈ st.records ↔ n ∈ es.map Prod.fst
  a : ∀ n, (st.entry n).a = select Rdata.v4? es n
  aaaa : ∀ n, (st.entry n).aaaa = select Rdata.v6? es n
  ns : ∀ n, (st.entry n).ns.map (fun i => st.nsPool[i.toNat]?) = (select Rdata.host? es n).map some

/-- The pool is the hosts of the entries, once each, and the map inverts it. -/
structure PoolOf (st : ParseState) (es : List Entry) : Prop where
  nodup : st.nsPool.Nodup
  length_le : st.nsPool.length ≤ 2 ^ 32
  mem : ∀ host, host ∈ st.nsPool ↔ ∃ n, host ∈ select Rdata.host? es n
  index : ∀ host i, st.nsIntern.lookup host = some i ↔ st.nsPool[i.toNat]? = some host

/-- The suffix is the meet of the stored names. -/
structure SuffixOf (st : ParseState) (es : List Entry) : Prop where
  noSuffix : st.zoneSuffix = none ↔ stored es = []
  meet : ∀ s, st.zoneSuffix = some s → ∀ z, nameInSuffix s z ↔ ∀ n ∈ stored es, nameInSuffix n z

/-- The state of the loop after the entries. -/
structure Parsed (st : ParseState) (es : List Entry) : Prop where
  records : RecordsOf st es
  pool : PoolOf st es
  suffix : SuffixOf st es

theorem parsed_empty : Parsed .empty [] where
  records := ⟨fun n => by simp [ParseState.empty], fun n => rfl, fun n => rfl, fun n => rfl⟩
  pool := ⟨List.nodup_nil, by decide, fun host => by simp [ParseState.empty, select],
    fun host i => by simp [ParseState.empty]⟩
  suffix := ⟨by simp [ParseState.empty, stored], fun s h => by cases h⟩

/-! ## One line -/

namespace ParseState

/-- An entry that is changed need not have been made before. -/
theorem update_touch (st : ParseState) (n : Name) (f : NameRecords → NameRecords) :
    (st.touch n).update n f = st.update n f := by
  unfold touch
  split
  next => rfl
  next hn =>
    rw [update, update, AList.lookup_insert, AList.lookup_eq_none.mpr hn]
    exact congrArg (fun records => { st with records := records }) (AList.insert_insert st.records)

/-- The pool does not depend on the records. -/
theorem intern_touch (st : ParseState) (n host : Name) :
    (st.touch n).intern host = (st.intern host).map fun p => (p.1, p.2.touch n) := by
  unfold touch
  split
  next hn =>
    unfold intern
    split
    next => simp [hn]
    next =>
      split
      next => simp [hn]
      next => rfl
  next hn =>
    unfold intern
    cases hl : st.nsIntern.lookup host with
    | some i => simp [hn]
    | none =>
      simp only
      split
      next => simp [hn]
      next => rfl

end ParseState

/-- What one line does, by what it says. -/
theorem addEntry_eq (st : ParseState) (e : Entry) : addEntry st e = match e.2 with
    | none => some (st.touch e.1)
    | some (.a ip) =>
      some ((st.update e.1 fun entry => { entry with a := entry.a ++ [ip] }).trackSuffix e.1)
    | some (.aaaa ip) =>
      some ((st.update e.1 fun entry => { entry with aaaa := entry.aaaa ++ [ip] }).trackSuffix e.1)
    | some (.ns host) => (st.intern host).map fun p =>
        (p.2.update e.1 fun entry => { entry with ns := entry.ns ++ [p.1] }).trackSuffix e.1 := by
  unfold addEntry
  split
  next => rfl
  next => simp only [ParseState.update_touch]
  next => simp only [ParseState.update_touch]
  next host _ =>
    simp only [ParseState.intern_touch]
    cases st.intern host with
    | none => rfl
    | some p => simp [ParseState.update_touch]

section Step
variable {st st' : ParseState} {es : List Entry} {e : Entry}

theorem RecordsOf.touch (h : RecordsOf st es) (he : e.2 = none) :
    RecordsOf (st.touch e.1) (es ++ [e]) := by
  have hpool : (st.touch e.1).nsPool = st.nsPool := by
    unfold ParseState.touch
    split <;> rfl
  refine ⟨fun n => ?_, fun n => ?_, fun n => ?_, fun n => ?_⟩
  · rw [ParseState.mem_touch, h.mem, List.map_append, List.mem_append, List.map_singleton,
      List.mem_singleton]
  · rw [ParseState.entry_touch, h.a, select_append, select_none _ he, List.append_nil]
  · rw [ParseState.entry_touch, h.aaaa, select_append, select_none _ he, List.append_nil]
  · rw [ParseState.entry_touch, hpool, h.ns, select_append, select_none _ he, List.append_nil]

/-- Adding to the records of a name what the line says. -/
theorem RecordsOf.update (h : RecordsOf st es) (f : NameRecords → NameRecords) (idxs : List UInt32)
    (ha : ∀ r, (f r).a = r.a ++ (e.2.bind Rdata.v4?).toList)
    (haaaa : ∀ r, (f r).aaaa = r.aaaa ++ (e.2.bind Rdata.v6?).toList)
    (hns : ∀ r, (f r).ns = r.ns ++ idxs)
    (hidxs : idxs.map (fun i => st.nsPool[i.toNat]?) = (e.2.bind Rdata.host?).toList.map some) :
    RecordsOf (st.update e.1 f) (es ++ [e]) := by
  have hentry : ∀ n, e.1 = n ∨ e.1 ≠ n ∧ (st.update e.1 f).entry n = st.entry n := fun n => by
    by_cases hn : e.1 = n
    · exact .inl hn
    · exact .inr ⟨hn, by rw [ParseState.entry_update, if_neg (Ne.symm hn)]⟩
  refine ⟨fun n => ?_, fun n => ?_, fun n => ?_, fun n => ?_⟩
  · rw [ParseState.mem_update, h.mem, List.map_append, List.mem_append, List.map_singleton,
      List.mem_singleton]
  · rcases hentry n with rfl | ⟨hn, he⟩
    · rw [ParseState.entry_update, if_pos rfl, ha, h.a, select_append, select_self]
    · rw [he, h.a, select_append, select_other _ hn, List.append_nil]
  · rcases hentry n with rfl | ⟨hn, he⟩
    · rw [ParseState.entry_update, if_pos rfl, haaaa, h.aaaa, select_append, select_self]
    · rw [he, h.aaaa, select_append, select_other _ hn, List.append_nil]
  · rcases hentry n with rfl | ⟨hn, he⟩
    · rw [ParseState.entry_update, if_pos rfl, hns, select_append, select_self, List.map_append,
        List.map_append, ← hidxs, ← h.ns]
      rfl
    · rw [he, select_append, select_other _ hn, List.append_nil]
      exact h.ns n

/-- A longer pool keeps the indices. -/
theorem RecordsOf.grow (h : RecordsOf st es) (hr : st'.records = st.records)
    (hp : st.nsPool <+: st'.nsPool) :
    RecordsOf st' es := by
  have hentry : st'.entry = st.entry := by
    funext n
    rw [ParseState.entry, ParseState.entry, hr]
  refine ⟨fun n => by rw [hr, h.mem], fun n => by rw [hentry, h.a], fun n => by rw [hentry, h.aaaa],
    fun n => ?_⟩
  rw [hentry, ← h.ns n]
  refine List.map_congr_left fun i hi => ?_
  have hmem : st.nsPool[i.toNat]? ∈ (select Rdata.host? es n).map some :=
    h.ns n ▸ List.mem_map_of_mem hi
  obtain ⟨host, -, hhost⟩ := List.mem_map.mp hmem
  obtain ⟨rest, hrest⟩ := hp
  have hlt : i.toNat < st.nsPool.length := (List.getElem?_eq_some_iff.mp hhost.symm).1
  rw [← hrest, List.getElem?_append_left hlt]

theorem PoolOf.congr (h : PoolOf st es) (hp : st'.nsPool = st.nsPool) (hi : st'.nsIntern = st.nsIntern)
    (he : e.2.bind Rdata.host? = none) : PoolOf st' (es ++ [e]) := by
  have hsel : ∀ n, select Rdata.host? (es ++ [e]) n = select Rdata.host? es n := fun n => by
    by_cases hn : e.1 = n
    · rw [select_append, ← hn, select_self, he]
      exact List.append_nil _
    · rw [select_append, select_other _ hn, List.append_nil]
  refine ⟨hp ▸ h.nodup, hp ▸ h.length_le, fun host => ?_, fun host i => ?_⟩
  · rw [hp, h.mem]
    simp only [hsel]
  · rw [hp, hi, h.index]

theorem PoolOf.notMem_of_lookup {host : Name} (h : PoolOf st es)
    (hnone : st.nsIntern.lookup host = none) :
    host ∉ st.nsPool := fun hmem => by
  obtain ⟨k, hk, hget⟩ := List.getElem_of_mem hmem
  have hle := h.length_le
  have hk32 : (UInt32.ofNat k).toNat = k := by
    rw [UInt32.toNat_ofNat', Nat.mod_eq_of_lt (by omega)]
  have := (h.index host (UInt32.ofNat k)).mpr (by rw [hk32, List.getElem?_eq_getElem hk, hget])
  rw [this] at hnone
  cases hnone

/-- A further entry adds its host to those that are named. -/
theorem PoolOf.mem_append {host : Name} (h : PoolOf st es) (he : e.2 = some (.ns host)) (x : Name) :
    (∃ n, x ∈ select Rdata.host? (es ++ [e]) n) ↔ x ∈ st.nsPool ∨ x = host := by
  simp only [select_append, List.mem_append, exists_or, ← h.mem]
  refine or_congr_right ⟨?_, ?_⟩
  · intro h'
    obtain ⟨n, hn⟩ := h'
    by_cases hen : e.1 = n
    · rw [← hen, select_self, he] at hn
      simpa [Rdata.host?] using hn
    · rw [select_other _ hen] at hn
      cases hn
  · rintro rfl
    exact ⟨e.1, by rw [select_self, he]; simp [Rdata.host?]⟩

/-- A new host is found at the end of the pool, the others where they were. -/
theorem PoolOf.index_push {host : Name} (h : PoolOf st es) (hnot : host ∉ st.nsPool)
    (hlt : st.nsPool.length < 2 ^ 32) (x : Name) (j : UInt32) :
    (st.nsIntern.insert host (UInt32.ofNat st.nsPool.length)).lookup x = some j ↔
      (st.nsPool ++ [host])[j.toNat]? = some x := by
  have hidx : (UInt32.ofNat st.nsPool.length).toNat = st.nsPool.length := by
    rw [UInt32.toNat_ofNat', Nat.mod_eq_of_lt hlt]
  have hlast : (st.nsPool ++ [host])[j.toNat]? = some host ↔ UInt32.ofNat st.nsPool.length = j := by
    rw [List.getElem?_append, ← UInt32.toNat_inj, hidx]
    split
    next hj => exact iff_of_false (fun hmem => hnot (List.mem_of_getElem? hmem)) (by omega)
    next hj =>
      rw [List.getElem?_singleton]
      split
      next => exact iff_of_true rfl (by omega)
      next => exact iff_of_false (fun h => by cases h) (by omega)
  by_cases hx : x = host
  · subst hx
    rw [AList.lookup_insert, hlast, Option.some.injEq]
  · rw [AList.lookup_insert_ne hx, h.index, List.getElem?_append]
    split
    next => rfl
    next hj =>
      rw [List.getElem?_eq_none (by omega), List.getElem?_singleton]
      split
      next => exact iff_of_false (fun h => by cases h) fun h => hx (Option.some.inj h).symm
      next => rfl

/-- The pool after a host was interned. -/
theorem PoolOf.intern {host : Name} {i : UInt32} (h : PoolOf st es) (he : e.2 = some (.ns host))
    (hi : st.intern host = some (i, st')) : PoolOf st' (es ++ [e]) ∧ st'.records = st.records ∧
      st'.zoneSuffix = st.zoneSuffix ∧ st.nsPool <+: st'.nsPool ∧ st'.nsPool[i.toNat]? = some host := by
  unfold ParseState.intern at hi
  split at hi
  next j hj =>
    cases hi
    have hget := (h.index host i).mp hj
    have hmem : ∀ x, x ∈ st.nsPool ↔ ∃ n, x ∈ select Rdata.host? (es ++ [e]) n := fun x => by
      rw [h.mem_append he]
      exact ⟨.inl, fun hx => hx.elim id fun hx => hx ▸ List.mem_of_getElem? hget⟩
    exact ⟨⟨h.nodup, h.length_le, hmem, h.index⟩, rfl, rfl, List.prefix_rfl, hget⟩
  next hnone =>
    split at hi
    next hlt =>
      cases hi
      have hnot := h.notMem_of_lookup hnone
      have hindex := h.index_push hnot hlt
      refine ⟨⟨?_, ?_, fun x => ?_, hindex⟩, rfl, rfl, List.prefix_append _ _, ?_⟩
      · exact h.nodup.append (List.nodup_singleton _) (by simpa using hnot)
      · simpa using hlt
      · rw [h.mem_append he]
        simp
      · exact (hindex host _).mp (AList.lookup_insert _)
    next => cases hi

theorem SuffixOf.congr (h : SuffixOf st es) (hs : st'.zoneSuffix = st.zoneSuffix) (he : e.2 = none) :
    SuffixOf st' (es ++ [e]) := by
  have hst : stored (es ++ [e]) = stored es := by simp [stored, he]
  exact ⟨by rw [hs, hst, h.noSuffix], by rw [hs, hst]; exact h.meet⟩

theorem SuffixOf.track (h : SuffixOf st es) (hs : st'.zoneSuffix = st.zoneSuffix) {rd : Rdata}
    (he : e.2 = some rd) :
    SuffixOf (st'.trackSuffix e.1) (es ++ [e]) := by
  have hst : stored (es ++ [e]) = stored es ++ [e.1] := by simp [stored, he]
  refine ⟨by simp [ParseState.trackSuffix, hst], fun s hsuf z => ?_⟩
  simp only [hst, List.forall_mem_append, List.forall_mem_singleton]
  rw [ParseState.trackSuffix, hs] at hsuf
  cases hz : st.zoneSuffix with
  | none =>
    rw [hz] at hsuf
    cases hsuf
    rw [h.noSuffix.mp hz]
    simp
  | some current =>
    rw [hz] at hsuf
    rw [← h.meet current hz]
    simp only [Option.some.injEq] at hsuf
    split at hsuf
    next hin =>
      subst hsuf
      exact ⟨fun hc => ⟨hc, nameInSuffix_trans hin hc⟩, fun hc => hc.1⟩
    next =>
      subst hsuf
      exact nameInSuffix_common

/-- **One line** adds its entry. -/
theorem addEntry_parsed (h : Parsed st es) (hadd : addEntry st e = some st') :
    Parsed st' (es ++ [e]) := by
  rw [addEntry_eq] at hadd
  split at hadd
  next he =>
    cases hadd
    have htouch : (st.touch e.1).nsPool = st.nsPool ∧ (st.touch e.1).nsIntern = st.nsIntern ∧
        (st.touch e.1).zoneSuffix = st.zoneSuffix := by
      unfold ParseState.touch
      split <;> exact ⟨rfl, rfl, rfl⟩
    exact ⟨h.records.touch he, h.pool.congr htouch.1 htouch.2.1 (by rw [he]; rfl),
      h.suffix.congr htouch.2.2 he⟩
  next ip he =>
    cases hadd
    refine ⟨?_, h.pool.congr rfl rfl (by rw [he]; rfl), h.suffix.track rfl he⟩
    have hr := h.records.update (e := e) (fun entry => { entry with a := entry.a ++ [ip] }) []
      (fun r => by rw [he]; rfl) (fun r => by rw [he]; simp [Rdata.v6?]) (fun r => by simp)
        (by rw [he]; rfl)
    exact ⟨hr.mem, hr.a, hr.aaaa, hr.ns⟩
  next ip he =>
    cases hadd
    refine ⟨?_, h.pool.congr rfl rfl (by rw [he]; rfl), h.suffix.track rfl he⟩
    have hr := h.records.update (e := e) (fun entry => { entry with aaaa := entry.aaaa ++ [ip] }) []
      (fun r => by rw [he]; simp [Rdata.v4?]) (fun r => by rw [he]; rfl) (fun r => by simp)
        (by rw [he]; rfl)
    exact ⟨hr.mem, hr.a, hr.aaaa, hr.ns⟩
  next host he =>
    obtain ⟨⟨i, st₁⟩, hi, rfl⟩ := Option.map_eq_some_iff.mp hadd
    obtain ⟨hpool, hrec, hsuf, hpre, hget⟩ := h.pool.intern he hi
    refine ⟨?_, ⟨hpool.nodup, hpool.length_le, hpool.mem, hpool.index⟩, h.suffix.track hsuf he⟩
    have hr := (h.records.grow hrec hpre).update (e := e)
      (fun entry => { entry with ns := entry.ns ++ [i] })
      [i] (fun r => by rw [he]; simp [Rdata.v4?]) (fun r => by rw [he]; simp [Rdata.v6?]) (fun r => rfl)
      (by rw [he]; simp [Rdata.host?, hget])
    exact ⟨hr.mem, hr.a, hr.aaaa, hr.ns⟩

end Step

/-! ## A whole text -/

theorem foldlM_parsed {st st' : ParseState} {es es' : List Entry} (h : Parsed st es)
    (hrun : es'.foldlM addEntry st = some st') : Parsed st' (es ++ es') := by
  induction es' generalizing st es with
  | nil =>
    cases hrun
    rwa [List.append_nil]
  | cons e es' ih =>
    rw [List.foldlM_cons] at hrun
    obtain ⟨st₁, hadd, hrun⟩ := Option.bind_eq_some_iff.mp hrun
    have := ih (addEntry_parsed h hadd) hrun
    rwa [List.append_assoc, List.singleton_append] at this

/-- **A parsed zone** is the state after its text's entries. -/
theorem parse_parsed {fmt : IpFormat} {text : Name} {zone : Zone}
    (h : Zone.parse fmt text = some zone) :
    ∃ st, Parsed st (textEntries fmt text) ∧ zone = st.toZone := by
  rw [parse_eq, Option.map_eq_some_iff] at h
  obtain ⟨st, hrun, rfl⟩ := h
  exact ⟨st, foldlM_parsed parsed_empty hrun, rfl⟩

/-- Parsing fails only for want of indices. -/
theorem exists_parsed {es : List Entry} {hosts : List Name} (hlen : hosts.length ≤ 2 ^ 32)
    (hsub : ∀ n, ∀ host ∈ select Rdata.host? es n, host ∈ hosts) :
    ∃ st, es.foldlM addEntry .empty = some st ∧ Parsed st es := by
  induction es using List.reverseRecOn with
  | nil => exact ⟨.empty, rfl, parsed_empty⟩
  | append_singleton es e ih =>
    obtain ⟨st, hrun, hst⟩ := ih fun n host hmem => hsub n host (by
      rw [select_append]
      exact List.mem_append_left _ hmem)
    obtain ⟨st', hadd⟩ : ∃ st', addEntry st e = some st' := by
      rw [addEntry_eq]
      split
      next => exact ⟨_, rfl⟩
      next => exact ⟨_, rfl⟩
      next => exact ⟨_, rfl⟩
      next host he =>
        unfold ParseState.intern
        split
        next => exact ⟨_, rfl⟩
        next hnone =>
          -- The pool and the host are distinct hosts of the list.
          have hnot := hst.pool.notMem_of_lookup hnone
          have hall : host :: st.nsPool ⊆ hosts := by
            refine List.cons_subset.mpr ⟨hsub e.1 host ?_, fun x hx => ?_⟩
            · rw [select_append, select_self, he]
              simp [Rdata.host?]
            · obtain ⟨n, hn⟩ := (hst.pool.mem x).mp hx
              exact hsub n x (by rw [select_append]; exact List.mem_append_left _ hn)
          have hcard := ((List.nodup_cons.mpr ⟨hnot, hst.pool.nodup⟩).subperm hall).length_le
          rw [List.length_cons] at hcard
          rw [if_pos (by omega)]
          exact ⟨_, rfl⟩
    refine ⟨st', ?_, addEntry_parsed hst hadd⟩
    rw [List.foldlM_append, hrun]
    simp [hadd]

/-! ## Lookups -/

/-- The glue of a host, from the entries. -/
def glue (es : List Entry) (host : Name) : Option IpAddr :=
  match (select Rdata.v4? es host).head? with
  | some ip => some (.v4 ip)
  | none => (select Rdata.v6? es host).head?.map .v6

/-- What a server for the entries answers. -/
def answers (es : List Entry) (n : Name) : List Record :=
  (select Rdata.v4? es n).map .a ++ (select Rdata.v6? es n).map .aaaa ++
    (select Rdata.host? es n).map fun host => .ns ((glue es host).getD (dummyIp host))

theorem glueFor_eq {st : ParseState} {es : List Entry} (h : Parsed st es) (host : Name) :
    st.toZone.glueFor host = glue es host := by
  have ha := h.records.a host
  have haaaa := h.records.aaaa host
  unfold Zone.glueFor glue
  rw [← ha, ← haaaa, ParseState.entry]
  change (st.records.lookup host >>= _) = _
  cases st.records.lookup host with
  | none => rfl
  | some entry =>
    simp only [Option.bind_eq_bind, Option.bind_some, Option.getD_some]
    cases entry.a.head? with
    | some ip => rfl
    | none => cases entry.aaaa.head? <;> rfl

/-- **A lookup in a parsed zone** does not fail, and depends on what the
entries say of each name only. -/
theorem Zone.query_eq {st : ParseState} {es : List Entry} (h : Parsed st es) (n : Name) :
    st.toZone.query n = some (answers es n) := by
  have ha := h.records.a n
  have haaaa := h.records.aaaa n
  have hns := h.records.ns n
  rw [ParseState.entry] at ha haaaa hns
  unfold Zone.query answers
  rw [← ha, ← haaaa]
  have hrecords : st.toZone.records = st.records := rfl
  rw [hrecords]
  cases hl : st.records.lookup n with
  | none =>
    rw [hl] at hns
    have hnil : select Rdata.host? es n = [] := List.map_eq_nil_iff.mp hns.symm
    rw [hnil]
    rfl
  | some entry =>
    rw [hl] at hns
    simp only [Option.getD_some] at hns ⊢
    have hmap : (entry.ns.mapM fun nsIdx => do
        let nshost ← st.toZone.nsHostname nsIdx
        return Record.ns ((st.toZone.glueFor nshost).getD (dummyIp nshost))) =
        some ((select Rdata.host? es n).map
            fun host => Record.ns ((glue es host).getD (dummyIp host))) := by
      generalize select Rdata.host? es n = hosts at hns
      generalize entry.ns = idxs at hns
      induction idxs generalizing hosts with
      | nil =>
        rw [List.map_nil] at hns
        rw [List.map_eq_nil_iff.mp hns.symm]
        rfl
      | cons i idxs ih =>
        cases hosts with
        | nil => cases hns
        | cons host hosts =>
          rw [List.map_cons, List.map_cons, List.cons.injEq] at hns
          have hi : st.toZone.nsHostname i = some host := hns.1
          rw [List.mapM_cons, ih hosts hns.2, hi]
          simp [glueFor_eq h]
    rw [hmap]
    rfl

end Dns

end Dnspir
