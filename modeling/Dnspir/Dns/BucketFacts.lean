/-
What a bucket says (`bucket`).

* `decodeBucketMatching_eq`: of any bytes the decoder reads one list of
  entries and returns the records of those with the discriminator.
-/
import Dnspir.Dns.Bucket

namespace Dnspir

namespace Dns

/-! ## Reading -/

theorem slice_eq {bucket : Bucket} {start len : ℕ} (h : start + len ≤ bucketBytes) :
    slice bucket start len = some ((bucket.toList.drop start).take len) := if_pos h

theorem length_slice {bucket : Bucket} {start len : ℕ} {bytes : List UInt8}
    (h : slice bucket start len = some bytes) :
    bytes.length = len := by
  unfold slice at h
  split at h
  next hle =>
    cases h
    rw [List.length_take, List.length_drop, Vector.length_toList]
    omega
  next => cases h

theorem toArray_eq {n : ℕ} {rdata : List UInt8} (h : rdata.length = n) :
    ∃ ip : Vector UInt8 n, toArray n rdata = some ip ∧ ip.toList = rdata :=
  ⟨_, dif_pos h, by simp⟩

/-- The record of a kind has as many bytes as the kind says. -/
theorem parseRecord_spec {kind : UInt8} {body : ℕ} {rdata : List UInt8}
    (h : rdataBytes kind = some body) (hlen : rdata.length = body) :
    ∃ rec, parseRecord kind rdata = some rec ∧ rec.kind = kind ∧ rec.octets = rdata := by
  unfold rdataBytes at h
  unfold parseRecord
  split at h
  next hk =>
    cases h
    obtain ⟨ip, hip, hl⟩ := toArray_eq hlen
    rcases hk with rfl | rfl
    · exact ⟨.a ip, by rw [if_pos rfl, hip]; rfl, rfl, hl⟩
    · exact ⟨.ns (.v4 ip), by rw [if_neg (by decide), if_neg (by decide), if_pos rfl, hip]; rfl,
        rfl, hl⟩
  next =>
    split at h
    next hk =>
      cases h
      obtain ⟨ip, hip, hl⟩ := toArray_eq hlen
      rcases hk with rfl | rfl
      · exact ⟨.aaaa ip, by rw [if_neg (by decide), if_pos rfl, hip]; rfl, rfl, hl⟩
      · exact ⟨.ns (.v6 ip),
          by rw [if_neg (by decide), if_neg (by decide), if_neg (by decide), if_pos rfl, hip]; rfl,
          rfl, hl⟩
    next => cases h

/-- The entry at a position, and the position after it. -/
def entryAt (bucket : Bucket) (pos : ℕ) : Option ((UInt16 × Record) × ℕ) := do
  let (disc, kind) := parseTag (← slice bucket pos 2)
  let body ← rdataBytes kind
  let rec ← parseRecord kind (← slice bucket (pos + 2) body)
  return ((disc, rec), pos + 2 + body)

/-- At most `count` entries from a position on. -/
def entriesFrom (bucket : Bucket) : ℕ → ℕ → List (UInt16 × Record)
  | 0, _ => []
  | count + 1, pos =>
    match entryAt bucket pos with
    | none => []
    | some (entry, next) => entry :: entriesFrom bucket count next

/-- The entries of a bucket, whatever its bytes. -/
def Bucket.entries (bucket : Bucket) : List (UInt16 × Record) :=
  entriesFrom bucket (readEntryCount bucket).toNat firstEntryOffset

/-- The records of the entries with a discriminator. -/
def matching (entries : List (UInt16 × Record)) (wantDisc : UInt16) : List Record :=
  entries.filterMap fun entry => if entry.1 = wantDisc then some entry.2 else none

@[simp] theorem matching_nil (wantDisc : UInt16) : matching [] wantDisc = [] := rfl

@[simp] theorem matching_cons (entry : UInt16 × Record) (entries : List (UInt16 × Record))
    (wantDisc : UInt16) :
    matching (entry :: entries) wantDisc =
      if entry.1 = wantDisc then entry.2 :: matching entries wantDisc else matching entries wantDisc := by
  unfold matching
  rw [List.filterMap_cons]
  split <;> split <;> simp_all

theorem decodeEntries_eq (bucket : Bucket) (wantDisc : UInt16) (count pos : ℕ) :
    decodeEntries bucket wantDisc count pos =
      some (matching (entriesFrom bucket count pos) wantDisc) := by
  induction count generalizing pos with
  | zero => rfl
  | succ count ih =>
    rw [decodeEntries, entriesFrom]
    split
    next h => simp [entryAt, slice, if_neg (show ¬pos + 2 ≤ bucketBytes by omega)]
    next h =>
      rw [entryAt, slice_eq (show pos + 2 ≤ bucketBytes by omega)]
      simp only [Option.bind_eq_bind, Option.bind_some]
      cases hbody : rdataBytes (parseTag ((bucket.toList.drop pos).take 2)).2 with
      | none => simp
      | some body =>
        simp only [Option.bind_some]
        split
        next hb => simp [slice, if_neg (show ¬pos + 2 + body ≤ bucketBytes by omega)]
        next hb =>
          have hs : slice bucket _ _ = _ := slice_eq (show pos + 2 + body ≤ bucketBytes by omega)
          obtain ⟨rec, hrec, -⟩ := parseRecord_spec hbody (length_slice hs)
          simp only [hs, Option.bind_some, hrec, ih, Option.pure_def, matching_cons]
          split <;> rfl

/-- **The decoder never fails**, and what it returns are records of one list
of entries. -/
theorem decodeBucketMatching_eq (bucket : Bucket) (wantDisc : UInt16) :
    decodeBucketMatching bucket wantDisc = some (matching bucket.entries wantDisc) :=
  decodeEntries_eq bucket wantDisc _ _

end Dns

end Dnspir
