/-
A bucket as the coefficients of a ring element (`bucket::pack_bytes_into_coeffs`,
`bucket::unpack_coeffs_into_bytes`), and both sides of the PIR boundary.

Five bytes and four coefficients of ten bits are one number of forty bits, in
the two directions (`packGroup_unpack`, `unpackGroup_pack`).

* `unpack_pack`, `pack_unpack`: the directions undo each other.
* `coeffsToBucket_entry`: the reduction modulo `1025` and the lift back do not
  touch a coefficient.
-/
import Dnspir.Dns.Server
import Dnspir.Lib.Loops

namespace Dnspir

open DoublePir PirWrapper

namespace Dns

/-! ## Groups -/

theorem packGroup_lt (bucket : Bucket) (g : ℕ) : packGroup bucket g < 2 ^ 40 := by
  refine (Bytes.ofLe_lt _).trans_le (Nat.pow_le_pow_right (by norm_num) ?_ : 256 ^ _ ≤ 256 ^ 5)
  exact List.length_take_le _ _

theorem coeffPayload_eq (c : UInt16) : coeffPayload c = c.toNat % 2 ^ 10 :=
  Nat.and_two_pow_sub_one_eq_mod c.toNat 10

/-- A field of a group. -/
theorem getElem_pack (bucket : Bucket) (g : ℕ) {k : ℕ} (hk : k < 4) (h : g * 4 + k < rank) :
    ((packBytesIntoCoeffs bucket)[g * 4 + k]).toNat = packGroup bucket g / 2 ^ (10 * k) % 2 ^ 10 := by
  have hdiv : (g * 4 + k) / coeffsPerGroup = g := by
    rw [coeffsPerGroup]
    omega
  have hmod : (g * 4 + k) % coeffsPerGroup = k := by
    rw [coeffsPerGroup]
    omega
  rw [packBytesIntoCoeffs, Vector.getElem_ofFn, coeffBits]
  simp only [hdiv, hmod]
  rw [UInt16.toNat_ofNat', Nat.and_two_pow_sub_one_eq_mod, Nat.shiftRight_eq_div_pow]
  omega

/-- Fields next to one another. -/
theorem or_shiftLeft {low : ℕ} {i : ℕ} (h : low < 2 ^ i) (high : ℕ) :
    low ||| high <<< i = low + high * 2 ^ i := by
  rw [Nat.or_comm, ← Nat.shiftLeft_add_eq_or_of_lt h, Nat.shiftLeft_eq, Nat.add_comm]

/-- A group, from its fields. -/
theorem unpackGroup_eq (coeffs : Vector UInt16 rank) (g : Fin (rank / coeffsPerGroup))
    (h : g.val * 4 + 3 < rank) :
    unpackGroup coeffs g =
      coeffs[g.val * 4].toNat % 2 ^ 10 + coeffs[g.val * 4 + 1].toNat % 2 ^ 10 * 2 ^ 10 +
        coeffs[g.val * 4 + 2].toNat % 2 ^ 10 * 2 ^ 20 +
        coeffs[g.val * 4 + 3].toNat % 2 ^ 10 * 2 ^ 30 := by
  simp only [unpackGroup, coeffPayload_eq]
  rw [or_shiftLeft (i := 10) (by omega), or_shiftLeft (i := 20) (by omega),
    or_shiftLeft (i := 30) (by omega)]

section Group
variable (g : Fin (rank / coeffsPerGroup))

theorem group_lt : g.val * 4 + 3 < rank := by
  have hg : g.val < 512 := g.isLt
  have hr : rank = 2048 := rfl
  omega

theorem unpackGroup_pack (bucket : Bucket) :
    unpackGroup (packBytesIntoCoeffs bucket) g = packGroup bucket g := by
  have hlt := packGroup_lt bucket g
  have hg := group_lt g
  have h0 := getElem_pack bucket g (show 0 < 4 by decide) (by omega)
  simp only [Nat.add_zero] at h0
  rw [unpackGroup_eq _ _ hg, h0, getElem_pack bucket g (show 1 < 4 by decide) (by omega),
    getElem_pack bucket g (show 2 < 4 by decide) (by omega),
      getElem_pack bucket g (show 3 < 4 by decide) (by omega)]
  omega

theorem unpackGroup_lt (coeffs : Vector UInt16 rank) : unpackGroup coeffs g < 2 ^ 40 := by
  rw [unpackGroup_eq _ _ (group_lt g)]
  omega

/-- A field of the group of some coefficients. -/
theorem unpackGroup_field (coeffs : Vector UInt16 rank) {k : ℕ} (hk : k < 4)
    (h : g.val * 4 + k < rank) :
    unpackGroup coeffs g / 2 ^ (10 * k) % 2 ^ 10 = coeffs[g.val * 4 + k].toNat % 2 ^ 10 := by
  rw [unpackGroup_eq _ _ (group_lt g)]
  interval_cases k
  · simp only [Nat.add_zero]
    omega
  all_goals omega

/-- A byte of the group of some coefficients. -/
theorem getElem_unpack (coeffs : Vector UInt16 rank) {k : ℕ} (hk : k < 5)
    (h : g.val * 5 + k < bucketBytes) :
    (unpackCoeffsIntoBytes coeffs)[g.val * 5 + k] = UInt8.ofNat (unpackGroup coeffs g >>> (8 * k)) := by
  have hdiv : (g.val * 5 + k) / coeffsPerGroupBytes = g := by
    rw [coeffsPerGroupBytes]
    omega
  have hmod : (g.val * 5 + k) % coeffsPerGroupBytes = k := by
    rw [coeffsPerGroupBytes]
    omega
  rw [unpackCoeffsIntoBytes, Vector.getElem_ofFn]
  simp only [hdiv, hmod]

/-- The bytes of a group are those of its number. -/
theorem packGroup_unpack (coeffs : Vector UInt16 rank) :
    packGroup (unpackCoeffsIntoBytes coeffs) g = unpackGroup coeffs g := by
  have hg : g.val < 512 := g.isLt
  have hsize : bucketBytes = 2560 := rfl
  have hbytes : ((unpackCoeffsIntoBytes coeffs).toList.drop (g.val * 5)).take 5 =
      Bytes.toLe 5 (unpackGroup coeffs g) := by
    refine List.ext_getElem ?_ fun k hk hk' => ?_
    · rw [List.length_take, List.length_drop, Vector.length_toList, Bytes.length_toLe]
      omega
    · rw [Bytes.length_toLe] at hk'
      rw [List.getElem_take, List.getElem_drop, Vector.getElem_toList, Bytes.getElem_toLe]
      exact getElem_unpack g coeffs hk' (by omega)
  rw [packGroup, coeffsPerGroupBytes, hbytes, Bytes.ofLe_toLe_of_lt (unpackGroup_lt g coeffs)]

end Group

/-! ## Both directions -/

/-- **The coefficients carry the bucket.** -/
theorem unpack_pack (bucket : Bucket) :
    unpackCoeffsIntoBytes (packBytesIntoCoeffs bucket) = bucket := by
  refine Vector.ext fun i hi => ?_
  have hsize : bucketBytes = 2560 := rfl
  have hidx : i / 5 * 5 + i % 5 = i := Nat.div_add_mod' i 5
  have hbytes : (i % 5) < ((bucket.toList.drop (i / 5 * 5)).take 5).length := by
    rw [List.length_take, List.length_drop, Vector.length_toList]
    omega
  have hg : i / 5 < rank / coeffsPerGroup := Nat.div_lt_of_lt_mul hi
  have hbyte := getElem_unpack ⟨i / 5, hg⟩ (packBytesIntoCoeffs bucket)
    (Nat.mod_lt i (show 0 < 5 by decide)) (hidx.symm ▸ hi)
  simp only [hidx, unpackGroup_pack] at hbyte
  rw [hbyte]
  refine (Bytes.ofNat_ofLe_shiftRight _ hbytes).trans ?_
  rw [List.getElem_take, List.getElem_drop, Vector.getElem_toList]
  simp only [hidx]

theorem pack_lt (bucket : Bucket) (i : Fin rank) : (packBytesIntoCoeffs bucket)[i].toNat < 1024 := by
  have hidx : i.val / 4 * 4 + i.val % 4 = i.val := Nat.div_add_mod' i.val 4
  have h := getElem_pack bucket (i.val / 4) (Nat.mod_lt i.val (show 0 < 4 by decide))
    (hidx.symm ▸ i.isLt)
  simp only [hidx] at h
  rw [Positions.getElem_pos, h]
  exact Nat.mod_lt _ (Nat.two_pow_pos 10)

/-- **The bytes carry the coefficients** of ten bits. -/
theorem pack_unpack {coeffs : Vector UInt16 rank} (h : ∀ i : Fin rank, coeffs[i].toNat < 1024) :
    packBytesIntoCoeffs (unpackCoeffsIntoBytes coeffs) = coeffs := by
  refine Vector.ext fun i hi => UInt16.toNat_inj.mp ?_
  have hidx : i / 4 * 4 + i % 4 = i := Nat.div_add_mod' i 4
  have hk : i % 4 < 4 := Nat.mod_lt i (by decide)
  have hg : i / 4 < rank / coeffsPerGroup := Nat.div_lt_of_lt_mul hi
  have hpack := getElem_pack (unpackCoeffsIntoBytes coeffs) (i / 4) hk (hidx.symm ▸ hi)
  have hfield := unpackGroup_field ⟨i / 4, hg⟩ coeffs hk (hidx.symm ▸ hi)
  rw [← packGroup_unpack] at hfield
  simp only [hidx] at hpack hfield
  rw [hpack, hfield]
  exact Nat.mod_eq_of_lt (h ⟨i, hi⟩)

/-! ## The PIR boundary -/

theorem fromIntPromiseReduced_natCast {n x : ℕ} (h : x < n) :
    Zn.fromIntPromiseReduced n (x : ℤ) = some (x : ZMod n) := by
  rw [Zn.fromIntPromiseReduced, if_pos ⟨Int.natCast_nonneg x, Int.ofNat_lt.mpr h⟩, Int.cast_natCast]

/-- The modulus has room for ten bits. -/
theorem two_pow_coeffBits_lt : 2 ^ coeffBits < plainModulus := by decide

theorem plainModulus_eq : plainModulus = primaryPlainModulus := rfl

/-- What the server stores of coefficients of ten bits is what the client reads. -/
theorem coeffsToBucket_entry {coeffs : Vector UInt16 rank}
    (h : ∀ i : Fin rank, coeffs[i].toNat < 1024) :
    ∃ entry, coeffsToEntry coeffs = some entry ∧
      coeffsToBucket (Vector.ofFn entry.coeff).toList = some (unpackCoeffsIntoBytes coeffs) := by
  have hlt : ∀ i : Fin rank, coeffs[i].toNat < primaryPlainModulus := fun i =>
    plainModulus_eq ▸ (h i).trans two_pow_coeffBits_lt
  have hbasis : (Vector.ofFnM
      fun i : Fin rank => Zn.fromIntPromiseReduced primaryPlainModulus coeffs[i].toNat) =
      some (Vector.ofFn fun i : Fin rank => (coeffs[i].toNat : ZMod primaryPlainModulus)) :=
    Loops.ofFnM_eq_some fun i => by
      rw [fromIntPromiseReduced_natCast (hlt i)]
      simp
  refine ⟨⟨fun i => (coeffs[i].toNat : ZMod primaryPlainModulus)⟩, ?_, ?_⟩
  · rw [coeffsToEntry, hbasis]
    simp
  · have hlen : (Vector.ofFn fun i : Fin rank =>
        (coeffs[i].toNat : ZMod primaryPlainModulus)).toList.length ≥ rank := by
      rw [Vector.length_toList]
    rw [coeffsToBucket, dif_pos hlen]
    refine congrArg (fun coeffs => some (unpackCoeffsIntoBytes coeffs)) (Vector.ext fun i hi => ?_)
    rw [Vector.getElem_ofFn, List.get_eq_getElem, Vector.getElem_toList, Vector.getElem_ofFn,
      ZMod.val_natCast, Nat.mod_eq_of_lt (hlt ⟨i, hi⟩)]
    exact UInt16.ofNat_toNat

/-- **The packing is a bijection** of the buckets and the arrays of coefficients
of ten bits, and nothing is lost across the PIR boundary. -/
theorem coeffs_packing :
    (∀ bucket, (∀ i : Fin rank, (packBytesIntoCoeffs bucket)[i].toNat < 1024) ∧
      unpackCoeffsIntoBytes (packBytesIntoCoeffs bucket) = bucket) ∧
    (∀ coeffs : Vector UInt16 rank, (∀ i : Fin rank, coeffs[i].toNat < 1024) →
      packBytesIntoCoeffs (unpackCoeffsIntoBytes coeffs) = coeffs ∧
      ∃ entry, coeffsToEntry coeffs = some entry ∧
        coeffsToBucket (Vector.ofFn entry.coeff).toList = some (unpackCoeffsIntoBytes coeffs)) ∧
    ∀ bucket, ∃ entry, bucketToEntry bucket = some entry ∧
      coeffsToBucket (Vector.ofFn entry.coeff).toList = some bucket := by
  refine ⟨fun bucket => ⟨pack_lt bucket, unpack_pack bucket⟩,
    fun coeffs h => ⟨pack_unpack h, coeffsToBucket_entry h⟩, fun bucket => ?_⟩
  have h := coeffsToBucket_entry (pack_lt bucket)
  rwa [unpack_pack] at h

theorem coeffs_packing_ones : packBytesIntoCoeffs (unpackCoeffsIntoBytes (Vector.replicate rank 1023)) =
    Vector.replicate rank 1023 :=
  (coeffs_packing.2.1 _ fun i => by
    rw [Positions.getElem_pos, Vector.getElem_replicate]
    decide).1

end Dns

end Dnspir
