/-
The bucket codec (`bucket::append_entry`, `bucket::encode_bucket`,
`bucket::decode_bucket_matching`).

* `entryAt_iff`: an entry is read where its bytes stand.
* `appendAll_holds`: entries are written one after the other while they fit.
* `Holds.entries_eq`: what was written is read.
* `bucket_codec`: the codec, on what was encoded and on any bytes.
-/
import Dnspir.Dns.BucketFacts

namespace Dnspir

namespace Dns

/-! ## Tags -/

def tagBytes (disc : UInt16) (kind : UInt8) : List UInt8 :=
  Bytes.toLe 2 (disc &&& discMask ||| kind.toUInt16 <<< 14).toNat

theorem le_discMask {disc : UInt16} : disc ≤ discMask ↔ disc.toNat < 2 ^ 14 := by
  rw [UInt16.le_iff_toNat_le]
  exact Nat.lt_succ_iff.symm

theorem and_discMask (disc : UInt16) : (disc &&& discMask).toNat = disc.toNat % 2 ^ 14 := by
  rw [UInt16.toNat_and]
  exact Nat.and_two_pow_sub_one_eq_mod _ 14

theorem toNat_tag {disc : UInt16} {kind : UInt8} (hk : kind.toNat < 4) :
    (disc &&& discMask ||| kind.toUInt16 <<< 14).toNat = kind.toNat * 2 ^ 14 + disc.toNat % 2 ^ 14 := by
  have hkind : (kind.toUInt16 <<< 14).toNat = kind.toNat <<< 14 := by
    rw [UInt16.toNat_shiftLeft, UInt8.toNat_toUInt16]
    change kind.toNat <<< 14 % 2 ^ 16 = _
    rw [Nat.shiftLeft_eq, Nat.mod_eq_of_lt (by omega)]
  rw [UInt16.toNat_or, and_discMask, hkind, Nat.or_comm,
    ← Nat.shiftLeft_add_eq_or_of_lt (Nat.mod_lt _ (by decide)), Nat.shiftLeft_eq]

theorem packTag_eq {disc : UInt16} {kind : UInt8} (hd : disc ≤ discMask) (hk : kind.toNat < 4) :
    packTag disc kind = some (tagBytes disc kind) := if_pos ⟨hd, hk⟩

theorem length_tagBytes (disc : UInt16) (kind : UInt8) : (tagBytes disc kind).length = 2 :=
  Bytes.length_toLe 2 _

theorem parseTag_eq {bytes : List UInt8} (h : bytes.length = 2) :
    (parseTag bytes).1.toNat = Bytes.ofLe bytes % 2 ^ 14 ∧
      (parseTag bytes).2.toNat = Bytes.ofLe bytes / 2 ^ 14 := by
  have hlt := Bytes.ofLe_lt bytes
  rw [h] at hlt
  have hv : (UInt16.ofNat (Bytes.ofLe bytes)).toNat = Bytes.ofLe bytes := Nat.mod_eq_of_lt hlt
  refine ⟨by rw [parseTag, and_discMask, hv], ?_⟩
  rw [parseTag, UInt16.toNat_toUInt8, UInt16.toNat_shiftRight, hv]
  change Bytes.ofLe bytes >>> 14 % 2 ^ 8 = _
  rw [Nat.shiftRight_eq_div_pow, Nat.mod_eq_of_lt (by omega)]

theorem parseTag_tagBytes {disc : UInt16} {kind : UInt8} (hd : disc ≤ discMask) (hk : kind.toNat < 4) :
    parseTag (tagBytes disc kind) = (disc, kind) := by
  obtain ⟨h1, h2⟩ := parseTag_eq (length_tagBytes disc kind)
  have hdisc := le_discMask.mp hd
  have hval : Bytes.ofLe (tagBytes disc kind) = kind.toNat * 2 ^ 14 + disc.toNat := by
    rw [tagBytes, Bytes.ofLe_toLe, toNat_tag hk]
    omega
  rw [hval] at h1 h2
  exact Prod.ext (UInt16.toNat_inj.mp (by simp only; omega)) (UInt8.toNat_inj.mp (by simp only; omega))

theorem tagBytes_parseTag {bytes : List UInt8} (h : bytes.length = 2) :
    tagBytes (parseTag bytes).1 (parseTag bytes).2 = bytes ∧ (parseTag bytes).1 ≤ discMask ∧
      (parseTag bytes).2.toNat < 4 := by
  obtain ⟨h1, h2⟩ := parseTag_eq h
  have hlt := Bytes.ofLe_lt bytes
  rw [h] at hlt
  refine ⟨?_, le_discMask.mpr (by omega), by omega⟩
  have htag : ((parseTag bytes).1 &&& discMask ||| (parseTag bytes).2.toUInt16 <<< 14).toNat =
      Bytes.ofLe bytes := by
    rw [toNat_tag (by omega)]
    omega
  rw [tagBytes, htag]
  exact h ▸ Bytes.toLe_ofLe bytes

/-! ## Entries -/

/-- The bytes of an entry. -/
def entryBytes (entry : UInt16 × Record) : List UInt8 := tagBytes entry.1 entry.2.kind ++ entry.2.octets

/-- The bytes of entries, one after the other. -/
def bodyBytes (entries : List (UInt16 × Record)) : List UInt8 := entries.flatMap entryBytes

theorem kind_lt (rec : Record) : rec.kind.toNat < 4 := by
  rcases rec with ip | ip | (ip | ip) <;> simp only [Record.kind] <;> decide

theorem rdataBytes_kind (rec : Record) : rdataBytes rec.kind = some rec.octets.length := by
  rcases rec with ip | ip | (ip | ip) <;> simp [Record.octets] <;> rfl

theorem length_entryBytes (entry : UInt16 × Record) :
    (entryBytes entry).length = 2 + entry.2.octets.length := by
  rw [entryBytes, List.length_append, length_tagBytes]

theorem entrySize_kind (disc : UInt16) (rec : Record) :
    entrySize rec.kind = some (entryBytes (disc, rec)).length := by
  rw [entrySize, rdataBytes_kind, length_entryBytes]
  rfl

theorem six_le_length_entryBytes (entry : UInt16 × Record) : 6 ≤ (entryBytes entry).length := by
  rw [length_entryBytes]
  rcases entry with ⟨disc, ip | ip | (ip | ip)⟩ <;> simp [Record.octets]

theorem toArray_toList {n : ℕ} (ip : Vector UInt8 n) : toArray n ip.toList = some ip := by
  obtain ⟨ip', h, he⟩ := toArray_eq (show ip.toList.length = n from Vector.length_toList)
  rw [h, Vector.toList_inj.mp he]

theorem parseRecord_octets (rec : Record) : parseRecord rec.kind rec.octets = some rec := by
  rcases rec with ip | ip | (ip | ip) <;> simp only [Record.octets, Record.kind, parseRecord] <;>
    rw [toArray_toList] <;> rfl

/-- **An entry is read** exactly where its bytes stand. -/
theorem entryAt_iff {bucket : Bucket} {pos next : ℕ} {entry : UInt16 × Record} :
    entryAt bucket pos = some (entry, next) ↔ entry.1 ≤ discMask ∧
      entryBytes entry <+: bucket.toList.drop pos ∧
      next = pos + (entryBytes entry).length := by
  constructor
  · intro h
    rw [entryAt] at h
    obtain ⟨tag, htag, h⟩ := Option.bind_eq_some_iff.mp h
    obtain ⟨hbytes, hmask, -⟩ := tagBytes_parseTag (length_slice htag)
    rcases hp : parseTag tag with ⟨disc, kind⟩
    simp only [hp] at h hbytes hmask
    obtain ⟨body, hbody, h⟩ := Option.bind_eq_some_iff.mp h
    obtain ⟨rdata, hrdata, h⟩ := Option.bind_eq_some_iff.mp h
    obtain ⟨rec, hrec, h⟩ := Option.bind_eq_some_iff.mp h
    cases h
    have hlen := length_slice hrdata
    obtain ⟨rec', hrec', hkind, hoctets⟩ := parseRecord_spec hbody hlen
    rw [hrec] at hrec'
    cases hrec'
    unfold slice at htag hrdata
    split at htag
    next =>
      cases htag
      split at hrdata
      next =>
        cases hrdata
        have hentry : entryBytes (disc, rec) = (bucket.toList.drop pos).take (2 + body) := by
          rw [entryBytes, hkind, hoctets, hbytes, List.take_add, List.drop_drop]
        refine ⟨hmask, hentry ▸ List.take_prefix _ _, ?_⟩
        rw [length_entryBytes, hoctets, hlen]
        omega
      next => cases hrdata
    next => cases htag
  · obtain ⟨disc, rec⟩ := entry
    intro h'
    obtain ⟨hmask, ⟨rest, hrest⟩, rfl⟩ := h'
    have hlen := congrArg List.length hrest
    rw [List.length_append, length_entryBytes, List.length_drop, Vector.length_toList] at hlen
    have htag : slice bucket pos 2 = some (tagBytes disc rec.kind) := by
      rw [slice_eq (by omega), ← hrest, entryBytes, List.append_assoc,
        List.take_left' (length_tagBytes disc _)]
    have hrdata : slice bucket (pos + 2) rec.octets.length = some rec.octets := by
      rw [slice_eq (by simp only at hlen; omega), ← List.drop_drop, ← hrest, entryBytes,
        List.append_assoc, List.drop_left' (length_tagBytes disc _), List.take_left]
    rw [entryAt, htag]
    simp only [Option.bind_eq_bind, Option.bind_some, parseTag_tagBytes hmask (kind_lt rec),
      rdataBytes_kind, hrdata, parseRecord_octets, length_entryBytes]
    rw [Nat.add_assoc]
    rfl

/-! ## A bucket being filled -/

/-- The bytes of a bucket with a salt and entries, and anything after them. -/
def Holds (bucket : Bucket) (salt : UInt32) (entries : List (UInt16 × Record)) : Prop :=
  ∃ rest, bucket.toList = Bytes.toLe 4 salt.toNat ++
    (Bytes.toLe 2 entries.length ++ (bodyBytes entries ++ rest))

/-- Where the next entry goes. -/
def endOf (entries : List (UInt16 × Record)) : ℕ := firstEntryOffset + (bodyBytes entries).length

section Writing
variable {bucket : Bucket} {salt : UInt32} {entries : List (UInt16 × Record)}

theorem endOf_append (entries new : List (UInt16 × Record)) :
    endOf (entries ++ new) = endOf entries + (bodyBytes new).length := by
  rw [endOf, endOf, bodyBytes, bodyBytes, bodyBytes, List.flatMap_append, List.length_append,
    Nat.add_assoc]

theorem bodyBytes_singleton (entry : UInt16 × Record) : bodyBytes [entry] = entryBytes entry := by
  rw [bodyBytes, List.flatMap_singleton]

theorem six_mul_le_endOf (entries : List (UInt16 × Record)) :
    firstEntryOffset + 6 * entries.length ≤ endOf entries := by
  induction entries with
  | nil => exact le_rfl
  | cons entry entries ih =>
    have h6 := six_le_length_entryBytes entry
    rw [endOf, bodyBytes] at ih ⊢
    rw [List.flatMap_cons, List.length_append, List.length_cons]
    omega

theorem Holds.endOf_le (h : Holds bucket salt entries) : endOf entries ≤ bucketBytes := by
  obtain ⟨rest, hrest⟩ := h
  have hlen := congrArg List.length hrest
  simp only [List.length_append, Bytes.length_toLe, Vector.length_toList] at hlen
  rw [endOf]
  change 6 + _ ≤ _
  omega

theorem Holds.length_lt (h : Holds bucket salt entries) : entries.length < 426 := by
  have hle := h.endOf_le
  have h6 := six_mul_le_endOf entries
  have hb : bucketBytes = 2560 := rfl
  have hf : firstEntryOffset = 6 := rfl
  omega

theorem Holds.readEntryCount (h : Holds bucket salt entries) :
    (readEntryCount bucket).toNat = entries.length := by
  have hlt := h.length_lt
  obtain ⟨rest, hrest⟩ := h
  have hoffset : (Bytes.toLe 4 salt.toNat).length = countOffset := Bytes.length_toLe 4 _
  have hcount : (Bytes.toLe 2 entries.length).length = countBytes := Bytes.length_toLe 2 _
  rw [Dns.readEntryCount, hrest, List.drop_left' hoffset, List.take_left' hcount, Bytes.ofLe_toLe,
    UInt16.toNat_ofNat']
  omega

theorem Holds.readBucketSalt (h : Holds bucket salt entries) : readBucketSalt bucket = salt := by
  obtain ⟨rest, hrest⟩ := h
  have hsalt : (Bytes.toLe 4 salt.toNat).length = bucketSaltBytes := Bytes.length_toLe 4 _
  rw [Dns.readBucketSalt, hrest, List.take_left' hsalt, Bytes.ofLe_toLe_of_lt salt.toNat_lt,
    UInt32.ofNat_toNat]

theorem holds_empty (salt : UInt32) : Holds (writeBucketSalt emptyBucket salt) salt [] := by
  have hzero : emptyBucket.toList =
      [] ++ (List.replicate 4 0 ++ ([0, 0] ++ List.replicate 2554 0)) := by
    rw [emptyBucket, Vector.toList_replicate]
    have hsplit : bucketBytes = 4 + (2 + 2554) := rfl
    rw [hsplit, List.replicate_add, List.replicate_add]
    rfl
  refine ⟨List.replicate 2554 0, ?_⟩
  have hnil : ([] : List UInt8).length = 0 := rfl
  rw [writeBucketSalt, Bytes.toList_splice_append hzero hnil (by rw [Bytes.length_toLe]; rfl)]
  rfl

/-- The bytes after an entry that fits is written. -/
theorem Holds.written (h : Holds bucket salt entries) {disc : UInt16} {rec : Record}
    (hfit : endOf entries + (entryBytes (disc, rec)).length ≤ bucketBytes) :
    Holds (writeEntryCount (Bytes.splice (Bytes.splice bucket (endOf entries) (tagBytes disc rec.kind))
      (endOf entries + 2) rec.octets) (Dns.readEntryCount bucket + 1)) salt
        (entries ++ [(disc, rec)]) := by
  have hcount := h.readEntryCount
  have hlt := h.length_lt
  obtain ⟨rest, hrest⟩ := h
  have hlen := congrArg List.length hrest
  simp only [List.length_append, Bytes.length_toLe, Vector.length_toList] at hlen
  have hend : endOf entries = 6 + (bodyBytes entries).length := rfl
  rw [length_entryBytes] at hfit
  simp only at hfit
  -- What the new entry is written over: its tag, its octets, and the rest.
  obtain ⟨r1, r2, r3, hr, h1, h2⟩ : ∃ r1 r2 r3, rest = r1 ++ (r2 ++ r3) ∧ r1.length = 2 ∧
      r2.length = rec.octets.length := by
    refine ⟨rest.take 2, (rest.drop 2).take rec.octets.length, (rest.drop 2).drop rec.octets.length,
      ?_, ?_, ?_⟩
    · rw [List.take_append_drop, List.take_append_drop]
    · rw [List.length_take]
      omega
    · rw [List.length_take, List.length_drop]
      omega
  have hbuf : bucket.toList =
      (Bytes.toLe 4 salt.toNat ++ Bytes.toLe 2 entries.length ++ bodyBytes entries) ++
      (r1 ++ (r2 ++ r3)) := by rw [hrest, hr]; simp
  have hpos : (Bytes.toLe 4 salt.toNat ++ Bytes.toLe 2 entries.length ++ bodyBytes entries).length =
      endOf entries := by
    simp only [List.length_append, Bytes.length_toLe, hend]
  have htag := Bytes.toList_splice_append hbuf hpos (h1.trans (length_tagBytes disc rec.kind).symm)
  rw [← List.append_assoc] at htag
  have hpos' : (Bytes.toLe 4 salt.toNat ++ Bytes.toLe 2 entries.length ++ bodyBytes entries ++
      tagBytes disc rec.kind).length = endOf entries + 2 :=
        by rw [List.length_append, hpos, length_tagBytes]
  have hoct := Bytes.toList_splice_append htag hpos' h2
  have hbody : bodyBytes (entries ++ [(disc, rec)]) = bodyBytes entries ++
      (tagBytes disc rec.kind ++ rec.octets) := by
    rw [bodyBytes, List.flatMap_append, List.flatMap_singleton]
    rfl
  have hnext : (Dns.readEntryCount bucket + 1).toNat = (entries ++ [(disc, rec)]).length := by
    rw [UInt16.toNat_add, hcount, List.length_append]
    change (entries.length + 1) % 2 ^ 16 = entries.length + 1
    omega
  refine ⟨r3, ?_⟩
  rw [writeEntryCount, hnext, hbody]
  refine Bytes.toList_splice_append ?_ (Bytes.length_toLe 4 _)
    (?_ : (Bytes.toLe 2 entries.length).length = _)
  · rw [hoct]
    simp only [List.append_assoc]
  · rw [Bytes.length_toLe, Bytes.length_toLe]
    rfl

/-- **One entry** is written after the others, or refused. -/
theorem appendEntry_holds (h : Holds bucket salt entries) {disc : UInt16} (hd : disc ≤ discMask)
    (rec : Record) :
    if endOf (entries ++ [(disc, rec)]) ≤ bucketBytes then
      ∃ bucket', appendEntry rec.kind disc rec (bucket, UInt16.ofNat (endOf entries)) =
          some (.ok (), (bucket', UInt16.ofNat (endOf (entries ++ [(disc, rec)])))) ∧
        Holds bucket' salt (entries ++ [(disc, rec)])
    else appendEntry rec.kind disc rec (bucket, UInt16.ofNat (endOf entries)) =
      some (.error (.overflow (endOf (entries ++ [(disc, rec)])) bucketBytes),
        (bucket, UInt16.ofNat (endOf entries))) := by
  have hlt := h.length_lt
  have hle := h.endOf_le
  have hb : bucketBytes = 2560 := rfl
  have hmax : ¬entries.length ≥ maxEntriesPerBucket := by
    have : maxEntriesPerBucket = 65535 := rfl
    omega
  have hstart : (UInt16.ofNat (endOf entries)).toNat = endOf entries := by
    rw [UInt16.toNat_ofNat']
    omega
  rw [endOf_append, bodyBytes_singleton, appendEntry]
  simp only [h.readEntryCount, if_neg hmax, entrySize_kind disc, hstart, Option.bind_eq_bind,
    Option.bind_some]
  split
  next hfit =>
    rw [if_neg (by omega), packTag_eq hd (kind_lt rec)]
    simp only [Option.bind_some, if_true]
    exact ⟨_, rfl, h.written hfit⟩
  next hfull =>
    rw [if_pos (by omega)]
    rfl

/-- Entries written one after the other. -/
def appendAll (new : List (UInt16 × Record)) : ExceptT BucketError (StateT Filling Option) Unit :=
  new.forM fun entry => appendEntry entry.2.kind entry.1 entry.2

/-- **Entries are written while they fit.** -/
theorem appendAll_holds (h : Holds bucket salt entries) {new : List (UInt16 × Record)}
    (hd : ∀ e ∈ new, e.1 ≤ discMask) :
    (endOf (entries ++ new) ≤ bucketBytes ∧
        ∃ bucket', appendAll new (bucket, UInt16.ofNat (endOf entries)) =
        some (.ok (), (bucket', UInt16.ofNat (endOf (entries ++ new)))) ∧
          Holds bucket' salt (entries ++ new)) ∨
      bucketBytes < endOf (entries ++ new) ∧
        ∃ needed filling, appendAll new (bucket, UInt16.ofNat (endOf entries)) =
        some (.error (.overflow needed bucketBytes), filling) := by
  induction new generalizing bucket entries with
  | nil =>
    rw [List.append_nil]
    exact .inl ⟨h.endOf_le, bucket, rfl, h⟩
  | cons entry new ih =>
    obtain ⟨disc, rec⟩ := entry
    have hdisc : disc ≤ discMask := hd (disc, rec) (by simp)
    have hstep := appendEntry_holds h hdisc rec
    have hrun : ∀ {result filling},
        appendEntry rec.kind disc rec (bucket, UInt16.ofNat (endOf entries)) =
        some (result, filling) → appendAll ((disc, rec) :: new) (bucket, UInt16.ofNat (endOf entries)) =
          match result with
          | .ok () => appendAll new filling
          | .error e => some (.error e, filling) := fun {result filling} hs => by
      change (appendEntry rec.kind disc rec (bucket, UInt16.ofNat (endOf entries))).bind _ = _
      rw [hs]
      cases result <;> rfl
    have happ : entries ++ (disc, rec) :: new = (entries ++ [(disc, rec)]) ++ new := by simp
    split at hstep
    next hfit =>
      obtain ⟨bucket', hs, hholds⟩ := hstep
      rw [hrun hs, happ]
      exact ih hholds fun e he => hd e (by simp [he])
    next hfull =>
      refine .inr ⟨?_, _, _, hrun hstep⟩
      rw [happ, endOf_append]
      omega

end Writing

/-! ## Reading what stands in a bucket -/

section Reading
variable {bucket : Bucket} {salt : UInt32} {entries : List (UInt16 × Record)}

/-- Entries of which the bytes stand one after the other are read. -/
theorem entriesFrom_of_prefix {pos : ℕ} (hd : ∀ e ∈ entries, e.1 ≤ discMask)
    (hp : bodyBytes entries <+: bucket.toList.drop pos) (count : ℕ) :
    entriesFrom bucket (entries.length + count) pos =
      entries ++ entriesFrom bucket count (pos + (bodyBytes entries).length) := by
  induction entries generalizing pos with
  | nil => rw [List.length_nil, Nat.zero_add]; rfl
  | cons entry entries ih =>
    have hbody : bodyBytes (entry :: entries) = entryBytes entry ++ bodyBytes entries :=
      List.flatMap_cons
    rw [hbody] at hp ⊢
    obtain ⟨rest, hrest⟩ := hp
    rw [List.append_assoc] at hrest
    have hat := entryAt_iff.mpr ⟨hd entry (by simp), ⟨_, hrest⟩, rfl⟩
    have hnext : bodyBytes entries <+: bucket.toList.drop (pos + (entryBytes entry).length) := by
      rw [← List.drop_drop, ← hrest, List.drop_left]
      exact List.prefix_append _ _
    rw [List.length_cons, Nat.add_right_comm, entriesFrom, hat, List.length_append, ← Nat.add_assoc]
    exact congrArg (entry :: ·) (ih (fun e he => hd e (by simp [he])) hnext)

/-- Well-formed entries, as many as the count allows, one after the other. -/
structure LaidOut (bucket : Bucket) (entries : List (UInt16 × Record)) : Prop where
  disc : ∀ e ∈ entries, e.1 ≤ discMask
  length_le : entries.length ≤ (readEntryCount bucket).toNat
  bytes : bodyBytes entries <+: bucket.toList.drop firstEntryOffset

theorem entriesFrom_spec (bucket : Bucket) (count pos : ℕ) :
    (∀ e ∈ entriesFrom bucket count pos, e.1 ≤ discMask) ∧
    (entriesFrom bucket count pos).length ≤ count ∧
      bodyBytes (entriesFrom bucket count pos) <+: bucket.toList.drop pos := by
  induction count generalizing pos with
  | zero => exact ⟨fun e he => (by cases he), le_rfl, List.nil_prefix⟩
  | succ count ih =>
    rw [entriesFrom]
    split
    next => exact ⟨fun e he => (by cases he), Nat.zero_le _, List.nil_prefix⟩
    next entry next hat =>
      obtain ⟨hmask, ⟨rest, hrest⟩, rfl⟩ := entryAt_iff.mp hat
      obtain ⟨hd, hlen, hbytes⟩ := ih (pos + (entryBytes entry).length)
      rw [← List.drop_drop, ← hrest, List.drop_left] at hbytes
      refine ⟨List.forall_mem_cons.mpr ⟨hmask, hd⟩, Nat.succ_le_succ hlen, ?_⟩
      rw [bodyBytes, List.flatMap_cons, ← hrest]
      exact List.prefix_append_right_inj _ |>.mpr hbytes

theorem laidOut_entries (bucket : Bucket) : LaidOut bucket bucket.entries := by
  obtain ⟨hd, hlen, hbytes⟩ := entriesFrom_spec bucket (readEntryCount bucket).toNat firstEntryOffset
  exact ⟨hd, hlen, hbytes⟩

/-- What is read is the longest list that stands there. -/
theorem LaidOut.prefix_entries (h : LaidOut bucket entries) : entries <+: bucket.entries := by
  obtain ⟨count, hcount⟩ := Nat.exists_eq_add_of_le h.length_le
  rw [Bucket.entries, hcount, entriesFrom_of_prefix h.disc h.bytes]
  exact List.prefix_append _ _

/-- **What was written is read.** -/
theorem Holds.entries_eq (h : Holds bucket salt entries) (hd : ∀ e ∈ entries, e.1 ≤ discMask) :
    bucket.entries = entries := by
  have hcount := h.readEntryCount
  obtain ⟨rest, hrest⟩ := h
  have hhead : (Bytes.toLe 4 salt.toNat ++ Bytes.toLe 2 entries.length).length = firstEntryOffset := by
    rw [List.length_append, Bytes.length_toLe, Bytes.length_toLe]
    rfl
  have hbytes : bodyBytes entries <+: bucket.toList.drop firstEntryOffset := by
    rw [hrest, ← List.append_assoc, List.drop_left' hhead]
    exact List.prefix_append _ _
  have hread := entriesFrom_of_prefix hd hbytes 0
  rw [Nat.add_zero] at hread
  rw [Bucket.entries, hcount, hread]
  exact List.append_nil _

end Reading

/-! ## The codec -/

/-- Entries as `encode_bucket` takes them: the kind is the record's. -/
def WellTyped (entries : List (UInt8 × UInt16 × Record)) : Prop :=
  ∀ e ∈ entries, e.1 = e.2.2.kind ∧ e.2.1.toNat < 2 ^ 14

section Codec
variable {entries : List (UInt8 × UInt16 × Record)}

theorem WellTyped.sum_eq (h : WellTyped entries) :
    (entries.map fun e => (entrySize e.1).getD 0).sum = (bodyBytes (entries.map Prod.snd)).length := by
  rw [bodyBytes, List.length_flatMap, List.map_map]
  refine congrArg List.sum (List.map_congr_left fun e he => ?_)
  rw [(h e he).1, entrySize_kind e.2.1]
  rfl

theorem WellTyped.fill_eq (h : WellTyped entries) :
    (entries.forM fun (kind, disc, rec) => appendEntry kind disc rec) =
      appendAll (entries.map Prod.snd) := by
  induction entries with
  | nil => rfl
  | cons entry entries ih =>
    obtain ⟨kind, disc, rec⟩ := entry
    have hkind : kind = rec.kind := (h (kind, disc, rec) (by simp)).1
    have hrest := ih fun e he => h e (by simp [he])
    rw [hkind]
    change (appendEntry rec.kind disc rec >>= fun _ => entries.forM
      fun (kind, disc, rec) => appendEntry kind disc rec) = _
    rw [hrest]
    rfl

theorem matching_map_snd (d : UInt16) : matching (entries.map Prod.snd) d =
    entries.filterMap fun e => if e.2.1 = d then some e.2.2 else none := by
  rw [matching, List.filterMap_map]
  rfl

/-- A bucket that is encoded holds its entries, or does not fit them. -/
theorem encodeBucket_spec (salt : UInt32) (h : WellTyped entries) :
    (endOf (entries.map Prod.snd) ≤ bucketBytes ∧ ∃ buf, encodeBucket salt entries = some (.ok buf) ∧
        Holds buf salt (entries.map Prod.snd)) ∨
      bucketBytes < endOf (entries.map Prod.snd) ∧
        ∃ needed, encodeBucket salt entries = some (.error (.overflow needed bucketBytes)) := by
  have hd : ∀ e ∈ entries.map Prod.snd, e.1 ≤ discMask := List.forall_mem_map.mpr fun e he =>
    le_discMask.mpr (h e he).2
  rcases appendAll_holds (holds_empty salt) hd
    with ⟨hfit, buf, hrun, hholds⟩ | ⟨hfull, needed, filling, hrun⟩
  · refine .inl ⟨hfit, buf, ?_, hholds⟩
    rw [encodeBucket, h.fill_eq]
    change (appendAll (entries.map Prod.snd) (_, UInt16.ofNat (endOf []))).bind _ = _
    rw [hrun]
    rfl
  · refine .inr ⟨hfull, needed, ?_⟩
    rw [encodeBucket, h.fill_eq]
    change (appendAll (entries.map Prod.snd) (_, UInt16.ofNat (endOf []))).bind _ = _
    rw [hrun]
    rfl

end Codec

/-- A refused entry changes nothing. -/
theorem appendEntry_error {kind : UInt8} {disc : UInt16} {rec : Record} {filling filling' : Filling}
    {e : BucketError} (h : appendEntry kind disc rec filling = some (.error e, filling')) :
    filling' = filling := by
  unfold appendEntry at h
  simp only at h
  split at h
  next => cases h; rfl
  next =>
    obtain ⟨sz, -, h⟩ := Option.bind_eq_some_iff.mp h
    split at h
    next => cases h; rfl
    next =>
      obtain ⟨tag, -, h⟩ := Option.bind_eq_some_iff.mp h
      split at h
      next => cases h
      next => cases h

/-- **The bucket codec.** Well-typed entries are encoded exactly when they fit,
and read back in their order; an entry that is refused changes nothing; and of
any bytes one list is read, the longest that stands there. -/
theorem bucket_codec :
    (∀ salt entries, WellTyped entries → ∃ result, encodeBucket salt entries = some result ∧
      ((∃ buf, result = .ok buf) ↔ 6 + (entries.map fun e => (entrySize e.1).getD 0).sum ≤ 2560) ∧
      (∀ got max, result ≠ .error (.tooManyEntries got max)) ∧
      ∀ buf, result = .ok buf → readBucketSalt buf = salt ∧ ∀ d, decodeBucketMatching buf d =
        some (entries.filterMap fun e => if e.2.1 = d then some e.2.2 else none)) ∧
    (∀ kind disc rec filling e filling', appendEntry kind disc rec filling = some (.error e, filling') →
      filling' = filling) ∧
    ∀ bucket : Bucket, ∃! entries, LaidOut bucket entries ∧
      (∀ entries', LaidOut bucket entries' → entries'.length ≤ entries.length) ∧
      ∀ d, decodeBucketMatching bucket d = some (matching entries d) := by
  refine ⟨fun salt entries h => ?_, fun _ _ _ _ _ _ => appendEntry_error, fun bucket => ?_⟩
  · have hend : endOf (entries.map Prod.snd) =
        6 + (entries.map fun e => (entrySize e.1).getD 0).sum := by
      rw [h.sum_eq]
      rfl
    have hsize : bucketBytes = 2560 := rfl
    rcases encodeBucket_spec salt h with ⟨hfit, buf, henc, hholds⟩ | ⟨hfull, needed, henc⟩
    · refine ⟨_, henc, iff_of_true ⟨buf, rfl⟩ (by omega), fun got max he => (by cases he),
        fun buf' he => ?_⟩
      cases he
      refine ⟨hholds.readBucketSalt, fun d => ?_⟩
      have hd : ∀ e ∈ entries.map Prod.snd, e.1 ≤ discMask :=
        List.forall_mem_map.mpr fun e he => le_discMask.mpr (h e he).2
      rw [decodeBucketMatching_eq, hholds.entries_eq hd, matching_map_snd]
    · exact ⟨_, henc, iff_of_false (fun ⟨buf, he⟩ => by cases he) (by omega),
        fun got max he => (by cases he), fun buf he => (by cases he)⟩
  · refine ⟨bucket.entries, ⟨laidOut_entries bucket, fun entries' h => h.prefix_entries.length_le,
      decodeBucketMatching_eq bucket⟩, ?_⟩
    rintro entries ⟨hlaid, hmax, -⟩
    exact hlaid.prefix_entries.eq_of_length_le (hmax _ (laidOut_entries bucket))

/-- Entries of both sizes, of two names. -/
def mixedEntries : List (UInt8 × UInt16 × Record) :=
  [(kindA, 5, .a (.replicate 4 1)), (kindAaaa, 7, .aaaa (.replicate 16 2)),
    (kindNs6, 5, .ns (.v6 (.replicate 16 3))), (kindNs4, 7, .ns (.v4 (.replicate 4 4)))]

theorem bucket_codec_mixed :
    ∃ buf, encodeBucket 9 mixedEntries = some (.ok buf) ∧ readBucketSalt buf = 9 ∧
    decodeBucketMatching buf 5 = some [.a (.replicate 4 1), .ns (.v6 (.replicate 16 3))] ∧
    decodeBucketMatching buf 7 = some [.aaaa (.replicate 16 2), .ns (.v4 (.replicate 4 4))] ∧
    decodeBucketMatching buf 6 = some [] := by
  have hwell : WellTyped mixedEntries := by simp [WellTyped, mixedEntries, Record.kind]
  obtain ⟨result, henc, hfits, -, hread⟩ := bucket_codec.1 9 _ hwell
  obtain ⟨buf, rfl⟩ := hfits.mpr (by decide)
  obtain ⟨hsalt, hmatch⟩ := hread buf rfl
  exact ⟨buf, henc, hsalt, hmatch 5, hmatch 7, hmatch 6⟩

end Dns

end Dnspir
