/-
Writing a zone under a cap (`zone::serialize_bounded`).

* `writeLines_ok`, `writeLines_error`: the lines are written, up to the first
  that goes over the cap.
* `serializeBounded_eq`: what the cap leaves of `serialize`.
-/
import Mathlib.Order.Bounds.Defs
import Dnspir.Dns.Zone

namespace Dnspir

namespace Dns

/-! ## Lengths -/

theorem toNat_strLen (s : Name) : (strLen s).toNat = min s.bytes.length (2 ^ 64 - 1) := by
  rw [strLen, UInt64.toNat_ofNat']
  exact Nat.mod_eq_of_lt (by omega)

theorem strLen_le_max (s : Name) : strLen s ≤ UInt64.ofNat (2 ^ 64 - 1) := by
  have hlt := (strLen s).toNat_lt
  rw [UInt64.le_iff_toNat_le, UInt64.toNat_ofNat']
  omega

theorem strLen_mono {pre s : Name} (h : pre <+: s) : strLen pre ≤ strLen s := by
  obtain ⟨rest, rfl⟩ := h
  have hlen : Name.bytes (pre ++ rest) = pre.bytes ++ Name.bytes rest := List.flatMap_append
  rw [UInt64.le_iff_toNat_le, toNat_strLen, toNat_strLen, hlen, List.length_append]
  omega

/-! ## Lines under a cap -/

section Lines
variable {cap : UInt64}

/-- Lines that stay under the cap are all written. -/
theorem writeLines_ok {lines : List Name} {out : Name} (h : strLen (out ++ lines.flatten) ≤ cap) :
    writeLines cap (lines.map some) out = some (.ok (out ++ lines.flatten)) := by
  induction lines generalizing out with
  | nil => simp [writeLines]
  | cons line lines ih =>
    rw [List.flatten_cons, ← List.append_assoc] at h ⊢
    have hline := UInt64.le_trans (strLen_mono (List.prefix_append (out ++ line) lines.flatten)) h
    rw [List.map_cons, writeLines, Option.bind_eq_bind, Option.bind_some]
    simp only
    rw [if_neg (UInt64.not_lt.mpr hline), ih h]

/-- The first line over the cap is the last that is written. -/
theorem writeLines_error {lines : List Name} {out : Name} (hout : strLen out ≤ cap)
    (h : cap < strLen (out ++ lines.flatten)) : ∃ before line after, lines = before ++ line :: after ∧
      strLen (out ++ before.flatten) ≤ cap ∧ cap < strLen (out ++ (before ++ [line]).flatten) ∧
      writeLines cap (lines.map some) out =
        some (.error (strLen (out ++ (before ++ [line]).flatten))) := by
  induction lines generalizing out with
  | nil =>
    rw [List.flatten_nil, List.append_nil] at h
    exact absurd hout (UInt64.not_le.mpr h)
  | cons line lines ih =>
    rw [List.map_cons, writeLines, Option.bind_eq_bind, Option.bind_some]
    simp only
    by_cases hline : cap < strLen (out ++ line)
    · exact ⟨[], line, lines, rfl, by simpa using hout, by simpa using hline, by simp [hline]⟩
    · rw [if_neg hline]
      rw [List.flatten_cons, ← List.append_assoc] at h
      obtain ⟨before, next, after, rfl, hle, hlt, hwrite⟩ := ih (UInt64.not_lt.mp hline) h
      refine ⟨line :: before, next, after, rfl, ?_, ?_, ?_⟩
      · rwa [List.flatten_cons, ← List.append_assoc]
      · rwa [List.cons_append, List.flatten_cons, ← List.append_assoc]
      · rwa [List.cons_append, List.flatten_cons, ← List.append_assoc]

/-- Without a cap a line that panics is reached. -/
theorem writeLines_none {lines : List (Option Name)} {out : Name} (h : none ∈ lines) :
    writeLines (UInt64.ofNat (2 ^ 64 - 1)) lines out = none := by
  induction lines generalizing out with
  | nil => cases h
  | cons line lines ih =>
    rw [writeLines]
    cases line with
    | none => rfl
    | some line =>
      rw [List.mem_cons, or_iff_right (by simp)] at h
      rw [Option.bind_eq_bind, Option.bind_some]
      simp only
      rw [if_neg (UInt64.not_lt.mpr (strLen_le_max _)), ih h]

end Lines

/-! ## The lines of a zone -/

/-- The NS indices are in the pool. -/
def Zone.Valid (zone : Zone) : Prop :=
  ∀ name entry, zone.records.lookup name = some entry → ∀ idx ∈ entry.ns, idx.toNat < zone.nsPool.length

/-- No line has a line break within. -/
def Zone.OneLine (fmt : IpFormat) (zone : Zone) : Prop :=
  ∀ line : Name, some line ∈ zoneLines fmt zone → '\n' ∉ line.dropLast

/-- The lengths over the cap that a prefix of the lines has. -/
def lengthsOver (cap : UInt64) (lines : List Name) : Set UInt64 :=
  {n | cap < n ∧ ∃ pre, pre <+: lines ∧ strLen pre.flatten = n}

section Zone
variable {fmt : IpFormat} {zone : Zone}

theorem mem_zoneLines {line : Option Name} : line ∈ zoneLines fmt zone ↔
    ∃ name entry, zone.records.lookup name = some entry ∧ line ∈ nameLines fmt zone name := by
  simp only [zoneLines, List.mem_flatMap, List.mem_mergeSort, ← AList.mem_keys, ← AList.lookup_isSome,
    Option.isSome_iff_exists, exists_and_right]

theorem mem_nameLines {name : Name} {entry : NameRecords} (h : zone.records.lookup name = some entry)
    {line : Option Name} : line ∈ nameLines fmt zone name ↔
      (∃ ip ∈ entry.a, some (recordLine name "a".toList (fmt.showV4 ip)) = line) ∨
      (∃ ip ∈ entry.aaaa, some (recordLine name "aaaa".toList (fmt.showV6 ip)) = line) ∨
      ∃ idx ∈ entry.ns, (zone.nsHostname idx).map
        (fun host => recordLine name "ns".toList (host ++ ['.'])) = line := by
  rw [nameLines, h]
  simp only [List.mem_append, List.mem_map, or_assoc]

/-- A line panics where an index is out of the pool. -/
theorem none_mem_zoneLines : none ∈ zoneLines fmt zone ↔ ¬zone.Valid := by
  rw [mem_zoneLines, Zone.Valid]
  push Not
  refine exists_congr fun name => exists_congr fun entry => and_congr_right fun h => ?_
  rw [mem_nameLines h]
  simp only [reduceCtorEq, and_false, exists_false, false_or, Option.map_eq_none_iff, Zone.nsHostname,
    List.getElem?_eq_none_iff]

theorem exists_lines (fmt : IpFormat) (h : zone.Valid) :
    ∃ lines : List Name, zoneLines fmt zone = lines.map some := by
  have hnone : none ∉ zoneLines fmt zone := fun hnone => none_mem_zoneLines.mp hnone h
  generalize zoneLines fmt zone = lines at hnone
  induction lines with
  | nil => exact ⟨[], rfl⟩
  | cons line lines ih =>
    rw [List.mem_cons, not_or] at hnone
    obtain ⟨rest, rfl⟩ := ih hnone.2
    cases line with
    | none => exact absurd rfl hnone.1
    | some line => exact ⟨line :: rest, rfl⟩

theorem getLast?_recordLine (name rtype rdata : Name) :
    (recordLine name rtype rdata).getLast? = some '\n' :=
  List.getLast?_concat

theorem getLast?_of_mem_zoneLines {line : Name} (h : some line ∈ zoneLines fmt zone) :
    line.getLast? = some '\n' := by
  obtain ⟨name, entry, hentry, hline⟩ := mem_zoneLines.mp h
  rcases (mem_nameLines hentry).mp hline with ⟨ip, -, hip⟩ | ⟨ip, -, hip⟩ | ⟨idx, -, hidx⟩
  · cases hip
    exact getLast?_recordLine _ _ _
  · cases hip
    exact getLast?_recordLine _ _ _
  · obtain ⟨host, -, rfl⟩ := Option.map_eq_some_iff.mp hidx
    exact getLast?_recordLine _ _ _

/-- A zone is written exactly when its indices are in the pool, as its lines. -/
theorem serialize_of_lines {lines : List Name} (h : zoneLines fmt zone = lines.map some) :
    serialize fmt zone = some lines.flatten := by
  rw [serialize, serializeBounded, h, writeLines_ok (strLen_le_max _)]
  rfl

theorem serialize_eq_none (h : ¬zone.Valid) : serialize fmt zone = none := by
  rw [serialize, serializeBounded, writeLines_none (none_mem_zoneLines.mpr h)]
  rfl

/-- Of a line that is cut short, the whole is the least over the cap. -/
theorem isLeast_lengthsOver {cap : UInt64} {before after : List Name} {line : Name}
    (hle : strLen before.flatten ≤ cap) (hlt : cap < strLen (before ++ [line]).flatten) :
    IsLeast (lengthsOver cap (before ++ line :: after)) (strLen (before ++ [line]).flatten) := by
  have hpre : before ++ [line] <+: before ++ line :: after := ⟨after, by simp⟩
  have hmono : ∀ {xs ys : List Name}, xs <+: ys → strLen xs.flatten ≤ strLen ys.flatten := fun h => by
    obtain ⟨rest, rfl⟩ := h
    rw [List.flatten_append]
    exact strLen_mono (List.prefix_append _ _)
  refine ⟨⟨hlt, _, hpre, rfl⟩, fun n hn => ?_⟩
  obtain ⟨hcap, pre, hwhole, rfl⟩ := hn
  rcases List.prefix_or_prefix_of_prefix hpre hwhole with h | h
  · exact hmono h
  · rcases List.prefix_concat_iff.mp h with rfl | h
    · exact UInt64.le_refl _
    · exact absurd (UInt64.le_trans (hmono h) hle) (UInt64.not_le.mpr hcap)

/-- The prefixes of a dump that end with a line are those of its lines. -/
theorem prefix_lines_iff {lines : List Name} (hlines : zoneLines fmt zone = lines.map some)
    (hone : zone.OneLine fmt) (pre : Name) :
    pre <+: lines.flatten ∧ (pre = [] ∨ pre.getLast? = some '\n') ↔
      ∃ whole, whole <+: lines ∧ whole.flatten = pre := by
  refine Labels.prefix_flatten_iff fun line hline => ?_
  have hmem : some line ∈ zoneLines fmt zone := hlines ▸ List.mem_map_of_mem hline
  exact ⟨line.dropLast, (List.dropLast_append_getLast? _ (getLast?_of_mem_zoneLines hmem)).symm,
    hone line hmem⟩

/-- Lines under a cap. -/
theorem serializeBounded_of_lines {lines : List Name} (hlines : zoneLines fmt zone = lines.map some)
    (cap : UInt64) :
    (strLen lines.flatten ≤ cap → serializeBounded fmt zone cap = some (.ok lines.flatten)) ∧
      (cap < strLen lines.flatten →
        ∃ n, serializeBounded fmt zone cap = some (.error n) ∧ IsLeast (lengthsOver cap lines) n) := by
  rw [serializeBounded, hlines]
  refine ⟨fun h => writeLines_ok h, fun h => ?_⟩
  have hnil : strLen [] ≤ cap := UInt64.zero_le
  obtain ⟨before, line, after, rfl, hle, hlt, hwrite⟩ := writeLines_error hnil h
  exact ⟨_, hwrite, isLeast_lengthsOver hle hlt⟩

end Zone

/-- **A cap on a dump.** What is written in full is the dump, if it is not
longer than the cap; else the length of the shortest whole lines of it that are
is returned. A zone with an index out of its pool has no dump. -/
theorem serializeBounded_eq (fmt : IpFormat) (zone : Zone) :
    match serialize fmt zone with
    | none => ¬zone.Valid
    | some text => ∃ lines : List Name, zoneLines fmt zone = lines.map some ∧ lines.flatten = text ∧
      (zone.OneLine fmt → ∀ pre, pre <+: text ∧ (pre = [] ∨ pre.getLast? = some '\n') ↔
        ∃ whole, whole <+: lines ∧ whole.flatten = pre) ∧
      ∀ cap, (strLen text ≤ cap → serializeBounded fmt zone cap = some (.ok text)) ∧
        (cap < strLen text → ∃ n, serializeBounded fmt zone cap = some (.error n) ∧
          IsLeast (lengthsOver cap lines) n) := by
  by_cases hv : zone.Valid
  · obtain ⟨lines, hlines⟩ := exists_lines fmt hv
    rw [serialize_of_lines hlines]
    exact ⟨lines, hlines, rfl, prefix_lines_iff hlines, serializeBounded_of_lines hlines⟩
  · rw [serialize_eq_none hv]
    exact hv

end Dns

end Dnspir
