/-
Frames on a stream, and the codec of the `INFO` reply (`protocol`).

* `readFrames_writeFrames`, `readFrames_cut`: a run of frames, whole and cut.
* `frames_compose`: both, and the refusal of a length that is too large.
* `fromUtf8_iff`: bytes that decode are those of one name.
* `decodeInfo_encodeInfo`: the codec, in both directions.
-/
import Dnspir.Dns.Protocol

namespace Dnspir

namespace Dns

/-! ## Frames -/

section Frames

def maxFrame : ℕ := 64 * 1024 * 1024

/-- A payload with its length before it. -/
def frameBytes (payload : List UInt8) : List UInt8 := Bytes.toBe 4 payload.length ++ payload

theorem writeFrame_eq {payload : List UInt8} (h : payload.length ≤ maxFrame) :
    writeFrame payload = .ok (frameBytes payload) := by
  have hlt : payload.length < 2 ^ 32 := h.trans_lt (by decide)
  rw [writeFrame, if_pos hlt, frameBytes]

theorem length_frameBytes (payload : List UInt8) :
    (frameBytes payload).length = 4 + payload.length := by
  rw [frameBytes, List.length_append, Bytes.length_toBe]

/-- What a reader does after a header. -/
theorem readFrame_header {header stream : List UInt8} (h : header.length = 4) :
    readFrame (header ++ stream) = if Bytes.ofBe header > maxFrame then (.error frameTooLarge, stream)
      else readExact (Bytes.ofBe header) stream := by
  have hread : readExact 4 (header ++ stream) = (.ok header, stream) := by
    rw [readExact, if_pos (by rw [List.length_append]; omega), List.take_left' h, List.drop_left' h]
  simp only [readFrame, Bind.bind, ExceptT.bind, ExceptT.mk, ExceptT.bindCont, StateT.bind, hread]
  by_cases hlt : Bytes.ofBe header > maxFrame
  · rw [if_pos hlt, if_pos (show Bytes.ofBe header > 64 * 1024 * 1024 from hlt)]
    rfl
  · rw [if_neg hlt, if_neg (show ¬Bytes.ofBe header > 64 * 1024 * 1024 from hlt)]

theorem readFrame_short {stream : List UInt8} (h : stream.length < 4) :
    ∃ e, (readFrame stream).1 = .error e := by
  have hread : readExact 4 stream = (.error _, []) := if_neg (by omega)
  simp only [readFrame, Bind.bind, ExceptT.bind, ExceptT.mk, ExceptT.bindCont, StateT.bind, hread]
  exact ⟨_, rfl⟩

theorem ofBe_header {payload : List UInt8} (h : payload.length ≤ maxFrame) :
    Bytes.ofBe (Bytes.toBe 4 payload.length) = payload.length := by
  rw [Bytes.ofBe_toBe, Nat.mod_eq_of_lt]
  exact h.trans_lt (by decide)

/-- **A frame is read back**, and nothing after it. -/
theorem readFrame_frameBytes {payload : List UInt8} (h : payload.length ≤ maxFrame)
    (rest : List UInt8) :
    readFrame (frameBytes payload ++ rest) = (.ok payload, rest) := by
  rw [frameBytes, List.append_assoc, readFrame_header (Bytes.length_toBe 4 _), ofBe_header h,
    if_neg (by omega), readExact, if_pos (by rw [List.length_append]; omega), List.take_left,
    List.drop_left]

/-- **A frame that is cut** is refused. -/
theorem readFrame_cut {payload : List UInt8} (h : payload.length ≤ maxFrame) {k : ℕ}
    (hk : k < (frameBytes payload).length) :
    ∃ e, (readFrame ((frameBytes payload).take k)).1 = .error e := by
  rw [length_frameBytes] at hk
  by_cases h4 : k < 4
  · exact readFrame_short (by rw [List.length_take]; omega)
  · have htake : (frameBytes payload).take k = Bytes.toBe 4 payload.length ++ payload.take (k - 4) := by
      rw [frameBytes, List.take_append, List.take_of_length_le (by rw [Bytes.length_toBe]; omega),
        Bytes.length_toBe]
    rw [htake, readFrame_header (Bytes.length_toBe 4 _), ofBe_header h, if_neg (by omega), readExact,
      if_neg (by rw [List.length_take]; omega)]
    exact ⟨_, rfl⟩

/-- What is read is a frame, and what is left is what follows it. -/
theorem readFrame_ok {stream req rest : List UInt8} (h : readFrame stream = (.ok req, rest)) :
    stream = frameBytes req ++ rest ∧ req.length ≤ maxFrame := by
  by_cases hlen : stream.length < 4
  · obtain ⟨e, he⟩ := readFrame_short hlen
    rw [h] at he
    cases he
  · have h4 : (stream.take 4).length = 4 := by
      rw [List.length_take]
      omega
    rw [← List.take_append_drop 4 stream, readFrame_header h4] at h
    split at h
    next => cases h
    next hle =>
      rw [readExact] at h
      split at h
      next hread =>
        obtain ⟨hreq, rfl⟩ := Prod.mk.inj h
        obtain rfl := Except.ok.inj hreq
        have hreqLen : ((stream.drop 4).take (Bytes.ofBe (stream.take 4))).length =
            Bytes.ofBe (stream.take 4) := by
          rw [List.length_take]
          omega
        refine ⟨?_, by omega⟩
        rw [frameBytes, hreqLen, Bytes.toBe_ofBe h4, List.append_assoc, List.take_append_drop,
          List.take_append_drop]
      next => cases h

/-- A read fails on a length that is too large, or where the stream ends. -/
theorem readFrame_error {stream : List UInt8} {e : IoError} (h : (readFrame stream).1 = .error e) :
    (e = frameTooLarge ∧ 4 ≤ stream.length ∧ maxFrame < Bytes.ofBe (stream.take 4)) ∨
      (e.kind = .unexpectedEof ∧ (stream.length < 4 ∨
        Bytes.ofBe (stream.take 4) ≤ maxFrame ∧ stream.length < 4 + Bytes.ofBe (stream.take 4))) := by
  by_cases hlen : stream.length < 4
  · have hread : readExact 4 stream = (.error _, []) := if_neg (by omega)
    simp only [readFrame, Bind.bind, ExceptT.bind, ExceptT.mk, ExceptT.bindCont, StateT.bind,
      hread] at h
    exact .inr ⟨by rw [← Except.error.inj h], .inl hlen⟩
  · have h4 : (stream.take 4).length = 4 := by
      rw [List.length_take]
      omega
    have hdrop : (stream.drop 4).length = stream.length - 4 := List.length_drop
    have hread := @readFrame_header _ (stream.drop 4) h4
    rw [List.take_append_drop] at hread
    rw [hread] at h
    split at h
    next hlarge => exact .inl ⟨(Except.error.inj h).symm, by omega, hlarge⟩
    next hle =>
      rw [readExact] at h
      split at h
      next => cases h
      next hshort => exact .inr ⟨by rw [← Except.error.inj h], .inr ⟨by omega, by omega⟩⟩

/-- What follows does not change a read that the end of the stream did not
stop. -/
theorem readFrame_append {stream : List UInt8}
    (h : ∀ e, (readFrame stream).1 = .error e → e.kind ≠ .unexpectedEof) (more : List UInt8) :
    readFrame (stream ++ more) = ((readFrame stream).1, (readFrame stream).2 ++ more) := by
  cases hread : readFrame stream with
  | mk result rest =>
    cases result with
    | ok req =>
      obtain ⟨rfl, hreq⟩ := readFrame_ok hread
      rw [List.append_assoc, readFrame_frameBytes hreq]
    | error e =>
      have he : (readFrame stream).1 = .error e := by rw [hread]
      rcases readFrame_error he with ⟨rfl, h4, hlarge⟩ | ⟨heof, -⟩
      · have hlen : (stream.take 4).length = 4 := by
          rw [List.length_take]
          omega
        have hwhole := @readFrame_header _ (stream.drop 4) hlen
        rw [List.take_append_drop, if_pos hlarge, hread] at hwhole
        obtain rfl := (Prod.mk.inj hwhole).2
        conv_lhs => rw [← List.take_append_drop 4 stream, List.append_assoc]
        rw [readFrame_header hlen, if_pos hlarge]
      · exact absurd heof (h e he)

/-! ## Runs of frames -/

def writeFrames (payloads : List (List UInt8)) : Except IoError (List UInt8) := do
  return (← payloads.mapM writeFrame).flatten

def readFrames : ℕ → Reader (List (List UInt8))
  | 0 => return []
  | n + 1 => do
    let payload ← readFrame
    return payload :: (← readFrames n)

theorem writeFrames_eq {payloads : List (List UInt8)} (h : ∀ p ∈ payloads, p.length ≤ maxFrame) :
    writeFrames payloads = .ok (payloads.flatMap frameBytes) := by
  have hmap : payloads.mapM writeFrame = .ok (payloads.map frameBytes) := by
    induction payloads with
    | nil => rfl
    | cons p payloads ih =>
      rw [List.mapM_cons, writeFrame_eq (h p (by simp)), ih fun q hq => h q (by simp [hq])]
      rfl
  rw [writeFrames, hmap, List.flatMap_def]
  rfl

theorem readFrames_writeFrames {payloads : List (List UInt8)} (h : ∀ p ∈ payloads, p.length ≤ maxFrame)
    (rest : List UInt8) :
    readFrames payloads.length (payloads.flatMap frameBytes ++ rest) = (.ok payloads, rest) := by
  induction payloads with
  | nil => rfl
  | cons p payloads ih =>
    have hfirst := readFrame_frameBytes (h p (by simp)) (payloads.flatMap frameBytes ++ rest)
    have hrest := ih fun q hq => h q (by simp [hq])
    rw [List.flatMap_cons, List.append_assoc, List.length_cons]
    simp only [readFrames, Bind.bind, ExceptT.bind, ExceptT.mk, ExceptT.bindCont, StateT.bind,
      hfirst, hrest]
    rfl

/-- A cut falls into one frame. -/
theorem exists_cut (payloads : List (List UInt8)) {k : ℕ}
    (hk : k < (payloads.flatMap frameBytes).length) :
    ∃ before p after j, payloads = before ++ p :: after ∧ j < (frameBytes p).length ∧
      (payloads.flatMap frameBytes).take k = before.flatMap frameBytes ++ (frameBytes p).take j ∧
      k = (before.flatMap frameBytes).length + j := by
  induction payloads generalizing k with
  | nil => simp at hk
  | cons p payloads ih =>
    rw [List.flatMap_cons] at hk ⊢
    by_cases hp : k < (frameBytes p).length
    · exact ⟨[], p, payloads, k, rfl, hp, by rw [List.take_append_of_le_length hp.le]; rfl, by simp⟩
    · obtain ⟨before, q, after, j, rfl, hj, htake, hlen⟩ := ih (k := k - (frameBytes p).length) (by
        rw [List.length_append] at hk
        omega)
      refine ⟨p :: before, q, after, j, rfl, hj, ?_, ?_⟩
      · rw [List.take_append, List.take_of_length_le (by omega), htake, List.flatMap_cons,
          List.append_assoc]
      · rw [List.flatMap_cons, List.length_append]
        omega

/-- **Frames compose**: any run of them is read back, whatever follows; a stream
that is cut gives the frames before the cut and then an error; a length that is
too large is refused with the stream at its payload. -/
theorem frames_compose (payloads : List (List UInt8))
    (h : ∀ p ∈ payloads, p.length ≤ 64 * 1024 * 1024) :
    ∃ bytes, writeFrames payloads = .ok bytes ∧
      (∀ rest, readFrames payloads.length (bytes ++ rest) = (.ok payloads, rest)) ∧
      (∀ k < bytes.length, ∃ before p after tail e, payloads = before ++ p :: after ∧
        (before.flatMap frameBytes).length ≤ k ∧ k < ((before ++ [p]).flatMap frameBytes).length ∧
        readFrames before.length (bytes.take k) = (.ok before, tail) ∧ (readFrame tail).1 = .error e) ∧
      ∀ header stream : List UInt8, header.length = 4 → Bytes.ofBe header > 64 * 1024 * 1024 →
        readFrame (header ++ stream) = (.error frameTooLarge, stream) := by
  refine ⟨_, writeFrames_eq h, readFrames_writeFrames h, fun k hk => ?_,
    fun header stream hlen hlarge => ?_⟩
  · obtain ⟨before, p, after, j, rfl, hj, htake, hlen⟩ := exists_cut payloads hk
    obtain ⟨e, he⟩ := readFrame_cut (h p (by simp)) hj
    refine ⟨before, p, after, (frameBytes p).take j, e, rfl, by omega, ?_, ?_, he⟩
    · rw [List.flatMap_append, List.length_append, List.flatMap_singleton]
      omega
    · rw [htake]
      exact readFrames_writeFrames (fun q hq => h q (by simp [hq])) _
  · rw [readFrame_header hlen]
    exact if_pos hlarge

theorem frames_compose_two : ∃ bytes, writeFrames [[], [1, 2]] = .ok bytes ∧
    (∀ rest, readFrames 2 (bytes ++ rest) = (.ok [[], [1, 2]], rest)) := by
  obtain ⟨bytes, hwrite, hread, -⟩ := frames_compose [[], [1, 2]] (by decide)
  exact ⟨bytes, hwrite, hread⟩

end Frames

/-! ## The `INFO` reply -/

section Info

theorem utf8Encode_eq (name : Name) : name.utf8Encode = ⟨name.bytes.toArray⟩ := by
  apply ByteArray.ext
  rw [List.utf8Encode, List.data_toByteArray, Name.bytes]

/-- Bytes that decode are those of one name. -/
theorem fromUtf8_iff {bytes : List UInt8} {name : Name} :
    fromUtf8 bytes = some name ↔ name.bytes = bytes := by
  constructor
  · intro h
    rw [fromUtf8, String.fromUTF8?] at h
    split at h
    next hv =>
      rw [Option.map_some, Option.some.injEq] at h
      have hbytes : name.utf8Encode = ⟨bytes.toArray⟩ := by
        rw [← h, String.utf8Encode_toList]
        rfl
      rw [utf8Encode_eq] at hbytes
      exact congrArg (fun b : ByteArray => b.data.toList) hbytes
    next => cases h
  · rintro rfl
    have hv : ByteArray.IsValidUTF8 ⟨name.bytes.toArray⟩ := ⟨name, (utf8Encode_eq name).symm⟩
    have hstr : String.fromUTF8 _ hv = String.ofList name := by
      rw [← String.toByteArray_inj, String.toByteArray_ofList, utf8Encode_eq]
      rfl
    rw [fromUtf8, String.fromUTF8?, dif_pos hv, Option.map_some, hstr, String.toList_ofList]

theorem payloadSlice_eq {payload : List UInt8} {start len : ℕ} (h : start + len ≤ payload.length) :
    payloadSlice payload start len = some ((payload.drop start).take len) := if_pos h

/-- What is read of a payload past the number of entries. -/
def readInfo (flags : UInt8) (numEntries : UInt32) (zl : ℕ) (rest : List UInt8) :
    Except IoError InfoResponse :=
  if rest.length < zl + 12 then .error shortInfoReply
  else
    match fromUtf8 (rest.take zl) with
    | none => .error ⟨.invalidData, "bad zone name utf-8".toList⟩
    | some zoneName =>
      .ok ⟨flags, numEntries, zoneName, UInt32.ofNat (Bytes.ofBe ((rest.drop zl).take 4)),
        UInt64.ofNat (Bytes.ofBe ((rest.drop (zl + 4)).take 8))⟩

/-- **No slice is out of range**, whatever the length of the name is said to be. -/
theorem decodeInfo_eq {flags : UInt8} {a b rest : List UInt8} (ha : a.length = 4) (hb : b.length = 4) :
    decodeInfo (flags :: (a ++ (b ++ rest))) =
      some (readInfo flags (UInt32.ofNat (Bytes.ofBe a)) (Bytes.ofBe b) rest) := by
  set payload := flags :: (a ++ (b ++ rest)) with hp
  have hlen : payload.length = 9 + rest.length := by
    simp only [hp, List.length_cons, List.length_append]
    omega
  have hdrop : ∀ n, payload.drop (9 + n) = rest.drop n := fun n => by
    have hpre : payload = (flags :: a ++ b) ++ rest := by simp [hp]
    have h9 : (flags :: a ++ b).length = 9 := by simp [ha, hb]
    rw [hpre, ← List.drop_drop, List.drop_left' h9]
  have h1 : payloadSlice payload 1 4 = some a := by
    rw [payloadSlice_eq (by omega), hp, List.drop_succ_cons, List.drop_zero, List.take_left' ha]
  have h5 : payloadSlice payload 5 4 = some b := by
    have hpre : payload = (flags :: a) ++ (b ++ rest) := rfl
    have h5 : (flags :: a).length = 5 := by simp [ha]
    rw [payloadSlice_eq (by omega), hpre, List.drop_left' h5, List.take_left' hb]
  rw [decodeInfo, if_neg (by omega), h1, h5, readInfo]
  simp only [hp, List.getElem?_cons_zero, Option.bind_eq_bind, Option.bind_some]
  rw [← hp, hlen]
  by_cases hshort : rest.length < Bytes.ofBe b + 12
  · rw [if_pos (by omega), if_pos hshort]
    rfl
  · have h9 := hdrop 0
    rw [Nat.add_zero, List.drop_zero] at h9
    rw [if_neg (by omega), if_neg hshort, payloadSlice_eq (by omega), payloadSlice_eq (by omega),
      payloadSlice_eq (by omega), Nat.add_assoc 9, hdrop, hdrop, h9]
    simp only [Option.bind_some]
    cases fromUtf8 (rest.take (Bytes.ofBe b)) <;> rfl

/-- A payload that is long enough has a header. -/
theorem exists_header {payload : List UInt8} (h : 9 ≤ payload.length) :
    ∃ flags a b rest, payload = flags :: (a ++ (b ++ rest)) ∧ a.length = 4 ∧ b.length = 4 := by
  cases payload with
  | nil => simp at h
  | cons flags tail =>
    rw [List.length_cons] at h
    refine ⟨flags, tail.take 4, (tail.drop 4).take 4, (tail.drop 4).drop 4, ?_, ?_, ?_⟩
    · rw [List.take_append_drop, List.take_append_drop]
    · rw [List.length_take]
      omega
    · rw [List.length_take, List.length_drop]
      omega

theorem toNat_ofBe32 {bytes : List UInt8} (h : bytes.length = 4) :
    (UInt32.ofNat (Bytes.ofBe bytes)).toNat = Bytes.ofBe bytes := by
  have hlt := Bytes.ofBe_lt bytes
  rw [h] at hlt
  exact Nat.mod_eq_of_lt hlt

theorem toNat_ofBe64 {bytes : List UInt8} (h : bytes.length = 8) :
    (UInt64.ofNat (Bytes.ofBe bytes)).toNat = Bytes.ofBe bytes := by
  have hlt := Bytes.ofBe_lt bytes
  rw [h] at hlt
  exact Nat.mod_eq_of_lt hlt

theorem ofNat_ofBe_toBe32 (x : UInt32) : UInt32.ofNat (Bytes.ofBe (Bytes.toBe 4 x.toNat)) = x := by
  rw [Bytes.ofBe_toBe, Nat.mod_eq_of_lt (show x.toNat < 256 ^ 4 from x.toNat_lt), UInt32.ofNat_toNat]

theorem ofNat_ofBe_toBe64 (x : UInt64) : UInt64.ofNat (Bytes.ofBe (Bytes.toBe 8 x.toNat)) = x := by
  rw [Bytes.ofBe_toBe, Nat.mod_eq_of_lt (show x.toNat < 256 ^ 8 from x.toNat_lt), UInt64.ofNat_toNat]

theorem decodeInfo_append {resp : InfoResponse} (h : resp.zoneName.bytes.length < 2 ^ 32)
    (t : List UInt8) :
    decodeInfo (encodeInfo resp ++ t) = some (.ok resp) := by
  have hshape : encodeInfo resp ++ t = resp.flags :: (Bytes.toBe 4 resp.numEntries.toNat ++
      (Bytes.toBe 4 resp.zoneName.bytes.length ++
        (resp.zoneName.bytes ++ (Bytes.toBe 4 resp.dumpSize.toNat ++
        (Bytes.toBe 8 resp.hashSalt.toNat ++ t))))) := by
    rw [encodeInfo, Nat.mod_eq_of_lt h]
    simp
  have hzl : Bytes.ofBe (Bytes.toBe 4 resp.zoneName.bytes.length) = resp.zoneName.bytes.length := by
    rw [Bytes.ofBe_toBe, Nat.mod_eq_of_lt (show _ < 256 ^ 4 from h)]
  rw [hshape, decodeInfo_eq (Bytes.length_toBe 4 _) (Bytes.length_toBe 4 _), readInfo, hzl,
    ofNat_ofBe_toBe32, if_neg, List.take_left, fromUtf8_iff.mpr rfl, List.drop_left,
    List.take_left' (Bytes.length_toBe 4 _), ofNat_ofBe_toBe32,
    ← List.drop_drop, List.drop_left, List.drop_left' (Bytes.length_toBe 4 _),
    List.take_left' (Bytes.length_toBe 8 _), ofNat_ofBe_toBe64]
  simp only [List.length_append, Bytes.length_toBe]
  omega

/-- What is decoded was encoded. -/
theorem encodeInfo_of_readInfo {flags : UInt8} {a b rest : List UInt8} (ha : a.length = 4)
    (hb : b.length = 4) {resp : InfoResponse}
    (h : readInfo flags (UInt32.ofNat (Bytes.ofBe a)) (Bytes.ofBe b) rest = .ok resp) :
    ∃ t, flags :: (a ++ (b ++ rest)) = encodeInfo resp ++ t := by
  rw [readInfo] at h
  split at h
  next => cases h
  next hlen =>
    cases hname : fromUtf8 (rest.take (Bytes.ofBe b)) with
    | none =>
      rw [hname] at h
      cases h
    | some zoneName =>
      rw [hname] at h
      cases h
      have hbytes := fromUtf8_iff.mp hname
      have hzl : zoneName.bytes.length = Bytes.ofBe b := by
        rw [hbytes, List.length_take]
        omega
      have hlt := Bytes.ofBe_lt b
      rw [hb] at hlt
      have hd : ((rest.drop (Bytes.ofBe b)).take 4).length = 4 := by
        rw [List.length_take, List.length_drop]
        omega
      have hs : ((rest.drop (Bytes.ofBe b + 4)).take 8).length = 8 := by
        rw [List.length_take, List.length_drop]
        omega
      refine ⟨rest.drop (Bytes.ofBe b + 4 + 8), ?_⟩
      simp only [encodeInfo]
      rw [toNat_ofBe32 ha, toNat_ofBe32 hd, toNat_ofBe64 hs, Bytes.toBe_ofBe ha, Bytes.toBe_ofBe hd,
        Bytes.toBe_ofBe hs, hzl, Nat.mod_eq_of_lt (show Bytes.ofBe b < 2 ^ 32 from hlt),
        Bytes.toBe_ofBe hb, hbytes]
      simp only [List.cons_append, List.append_assoc]
      have hcut : ∀ i j, (rest.drop i).take j ++ rest.drop (i + j) = rest.drop i := fun i j =>
        (congrArg _ List.drop_drop.symm).trans (List.take_append_drop j _)
      rw [hcut, hcut, List.take_append_drop]

/-- **The codec of the `INFO` reply**: what is encoded is decoded, whatever
follows it, and a payload of any content is what an `INFO` reply begins, or
refused. -/
theorem decodeInfo_encodeInfo :
    (∀ resp : InfoResponse, resp.zoneName.bytes.length < 2 ^ 32 →
      ∀ t, decodeInfo (encodeInfo resp ++ t) = some (.ok resp)) ∧
      ∀ payload, ∃ result, decodeInfo payload = some result ∧ match result with
        | .error e => e.kind = .invalidData
        | .ok resp => ∃ t, payload = encodeInfo resp ++ t := by
  refine ⟨fun resp h t => decodeInfo_append h t, fun payload => ?_⟩
  by_cases hlen : payload.length < 9
  · exact ⟨.error shortInfoReply, by rw [decodeInfo, if_pos hlen], rfl⟩
  · obtain ⟨flags, a, b, rest, rfl, ha, hb⟩ := exists_header (Nat.le_of_not_lt hlen)
    refine ⟨_, decodeInfo_eq ha hb, ?_⟩
    split
    next e he =>
      rw [readInfo] at he
      split at he
      next => cases he; rfl
      next => split at he <;> cases he; rfl
    next resp hresp => exact encodeInfo_of_readInfo ha hb hresp

theorem decodeInfo_encodeInfo_org :
    decodeInfo (encodeInfo ⟨3, 114688, "org".toList, 12345, 0xDEADBEEFCAFEF00D⟩ ++ [7]) =
    some (.ok ⟨3, 114688, "org".toList, 12345, 0xDEADBEEFCAFEF00D⟩) :=
  decodeInfo_encodeInfo.1 _ (by decide +kernel) [7]

end Info

end Dns

end Dnspir
