/-
The bit packing of the wire format.

Both directions go through stages: the full bytes of all values, one plane
at a time, then the leftover fragments of 4, 2 and 1 bits, packed together.
A stage of `uncondense` adds fragments to the values read so far
(`readPlane_run`, `readFragments_run`), and the stage of `condense` emits just
the bytes these fragments are read from (`splitFragments_condense`). That every
byte string is emitted is a count (`wordBytes_surjective`). All of this is for
full groups of eight; any other list is not condensed (`not_padsGroup`).
-/
import Dnspir.PirWrapper

namespace Dnspir

namespace PirWrapper

/-! ## Fragments -/

/-- A fragment put where the values read so far end. -/
def putAt (shift target fragment : ℕ) : ℕ := target ||| fragment <<< shift

/-- All fragments of some bytes. -/
def splitFragments (width : ℕ) (bytes : List UInt8) : List ℕ :=
  bytes.flatMap fun source => (List.range (8 / width)).map (splitFragment width source.toNat)

/-- Reading on: the low bits so far and the next ones. -/
theorem putAt_mod (x a b : ℕ) : putAt a (x % 2 ^ a) ((x >>> a) % 2 ^ b) = x % 2 ^ (a + b) := by
  refine Nat.eq_of_testBit_eq fun i => ?_
  simp only [putAt, Nat.testBit_or, Nat.testBit_mod_two_pow, Nat.testBit_shiftLeft,
    Nat.testBit_shiftRight]
  by_cases hi : i < a
  · simp [hi, show ¬a ≤ i by omega, show i < a + b by omega]
  · have hadd : a + (i - a) = i := by omega
    simp [hi, show a ≤ i by omega, hadd, show i - a < b ↔ i < a + b by omega]

theorem putAt_lt {shift width target fragment : ℕ} (ht : target < 2 ^ shift)
    (hf : fragment < 2 ^ width) :
    putAt shift target fragment < 2 ^ (shift + width) := by
  have h1 : fragment <<< shift < 2 ^ (shift + width) := by
    rw [Nat.shiftLeft_eq, pow_add, mul_comm]
    exact Nat.mul_lt_mul_of_pos_left hf (Nat.two_pow_pos shift)
  exact Nat.or_lt_two_pow (ht.trans_le (Nat.pow_le_pow_right (by norm_num) (by omega))) h1

theorem and_mask (x width : ℕ) : x &&& (2 ^ width - 1) = x % 2 ^ width :=
  Nat.and_two_pow_sub_one_eq_mod x width

theorem splitFragment_lt (width source k : ℕ) : splitFragment width source k < 2 ^ width := by
  rw [splitFragment, and_mask]
  exact Nat.mod_lt _ (Nat.two_pow_pos width)

theorem extract_eq (bits width x : ℕ) :
    extract bits width x = (x >>> fragmentShift bits width) % 2 ^ width :=
  and_mask _ _

/-- Fragments joined below each other, as a number. -/
theorem joined_spec {width : ℕ} (es : List ℕ) (hes : ∀ e ∈ es, e < 2 ^ width) :
    es.foldl (fun byte e => byte <<< width ||| e) 0 < 2 ^ (width * es.length) ∧
      ∀ k (hk : k < es.length),
        es.foldl (fun byte e => byte <<< width ||| e) 0 >>>
          (width * (es.length - (k + 1))) % 2 ^ width = es[k] := by
  induction es using List.reverseRecOn with
  | nil => exact ⟨by simp, fun k hk => absurd hk (Nat.not_lt_zero k)⟩
  | append_singleton es e ih =>
    obtain ⟨hlt, hget⟩ := ih fun x hx => hes x (List.mem_append_left _ hx)
    have he : e < 2 ^ width := hes e (by simp)
    have hstep : (es ++ [e]).foldl (fun byte e => byte <<< width ||| e) 0 =
        es.foldl (fun byte e => byte <<< width ||| e) 0 * 2 ^ width + e := by
      rw [List.foldl_append, List.foldl_cons, List.foldl_nil, ← Nat.shiftLeft_add_eq_or_of_lt he,
        Nat.shiftLeft_eq]
    rw [hstep]
    set acc := es.foldl (fun byte e => byte <<< width ||| e) 0
    refine ⟨?_, fun k hk => ?_⟩
    · rw [List.length_append, List.length_singleton, mul_add, mul_one, pow_add]
      nlinarith [Nat.two_pow_pos width]
    · rw [List.length_append, List.length_singleton] at hk ⊢
      rcases Nat.lt_succ_iff_lt_or_eq.mp hk with hk | rfl
      · rw [List.getElem_append_left hk, ← hget k hk,
          show es.length + 1 - (k + 1) = 1 + (es.length - (k + 1)) by
          omega, mul_add, mul_one, Nat.shiftRight_add, Nat.shiftRight_eq_div_pow _ width,
          mul_comm acc, Nat.mul_add_div (Nat.two_pow_pos width), Nat.div_eq_of_lt he, add_zero]
      · simp [Nat.mod_eq_of_lt he]

section Width
variable {bits width : ℕ}

theorem splitFragment_join (hw : width * (8 / width) = 8) {data : List UInt64}
    (hlen : data.length = 8 / width) :
    (List.range (8 / width)).map (splitFragment width (joinFragments bits width data).toNat) =
      data.map fun x => extract bits width x.toNat := by
  have hes : ∀ e ∈ data.map fun x => extract bits width x.toNat, e < 2 ^ width := by
    intro e he
    obtain ⟨x, -, rfl⟩ := List.mem_map.mp he
    rw [extract_eq]
    exact Nat.mod_lt _ (Nat.two_pow_pos width)
  obtain ⟨hlt, hget⟩ := joined_spec _ hes
  rw [List.length_map, hlen, hw] at hlt
  have hjoin : (joinFragments bits width data).toNat =
      (data.map fun x => extract bits width x.toNat).foldl (fun byte e => byte <<< width ||| e) 0 := by
    rw [joinFragments, UInt8.toNat_ofNat', List.foldl_map] at *
    exact Nat.mod_eq_of_lt hlt
  refine List.ext_getElem (by simp [hlen]) fun k hk hk' => ?_
  have hk8 : k < 8 / width := by simpa using hk
  rw [List.getElem_map, List.getElem_range, hjoin, splitFragment, and_mask, ← hget k hk',
    List.length_map, hlen, Nat.mul_sub, hw]

/-! ## Stages of `uncondense` -/

theorem length_takeChunks {α : Type} (n count : ℕ) (l : List α) :
    (takeChunks n count l).length = count := by
  induction count generalizing l with
  | zero => rfl
  | succ count ih => rw [takeChunks, List.length_cons, ih]

theorem splitFragments_cons (source : UInt8) (data : List UInt8) :
    splitFragments width (source :: data) =
    (List.range (8 / width)).map (splitFragment width source.toNat) ++ splitFragments width data := by
  simp [splitFragments]

theorem length_splitFragments (data : List UInt8) :
    (splitFragments width data).length = 8 / width * data.length := by
  induction data with
  | nil => simp [splitFragments]
  | cons source data ih =>
    rw [splitFragments_cons, List.length_append, ih, List.length_map, List.length_range,
      List.length_cons]
    ring

theorem lt_of_mem_splitFragments {data : List UInt8} {f : ℕ} (h : f ∈ splitFragments width data) :
    f < 2 ^ width := by
  simp only [splitFragments, List.mem_flatMap, List.mem_map] at h
  obtain ⟨source, -, k, -, rfl⟩ := h
  exact splitFragment_lt _ _ _

/-- One group of values takes the fragments of one byte. -/
theorem zipIdx_map_eq (shift : ℕ) (g : ℕ → ℕ) (targets : List ℕ) :
    (targets.zipIdx.map fun (target, k) => target ||| g k <<< shift) =
      List.zipWith (putAt shift) targets ((List.range targets.length).map g) := by
  refine List.ext_getElem (by simp) fun k hk hk' => ?_
  simp [putAt]

theorem readGroup_cons (targets : List ℕ) (source : UInt8) (data : List UInt8) :
    readGroup bits width targets (source :: data) =
      some (List.zipWith (putAt (fragmentShift bits width)) targets
      ((List.range targets.length).map (splitFragment width source.toNat)), data) := by
  rw [← zipIdx_map_eq]
  rfl

/-- The groups, read one after another. -/
theorem readGroups_run (bits count : ℕ) {result : List ℕ} (hlen : result.length = 8 / width * count)
    (data : List UInt8) :
    ((takeChunks (8 / width) count result).mapM (readGroup bits width) data).map
      (fun p => (p.1.flatten, p.2)) =
      if count ≤ data.length then some (List.zipWith (putAt (fragmentShift bits width)) result
        (splitFragments width data), data.drop count) else none := by
  induction count generalizing result data with
  | zero =>
    obtain rfl : result = [] := List.length_eq_zero_iff.mp (by simpa using hlen)
    simp [takeChunks, pure, StateT.pure]
  | succ count ih =>
    rw [takeChunks, List.mapM_cons]
    simp only [bind, StateT.bind, pure, StateT.pure]
    cases data with
    | nil => rfl
    | cons source data =>
      have htake : (result.take (8 / width)).length = 8 / width := by
        rw [List.length_take, hlen, mul_add, mul_one]
        omega
      have hdrop : (result.drop (8 / width)).length = 8 / width * count := by
        rw [List.length_drop, hlen, mul_add, mul_one]
        omega
      have hfrag : ((List.range (8 / width)).map (splitFragment width source.toNat)).length =
        8 / width := by simp
      have ih := ih hdrop data
      rw [readGroup_cons, Option.bind_some, htake]
      simp only [List.length_cons, List.drop_succ_cons, Nat.add_le_add_iff_right]
      generalize (takeChunks (8 / width) count (result.drop (8 / width))).mapM
        (readGroup bits width) data = run at ih ⊢
      split at ih
      next hle =>
        rw [if_pos hle]
        obtain ⟨p, rfl, hp⟩ := Option.map_eq_some_iff.mp ih
        simp only [Prod.mk.injEq] at hp
        simp only [Option.bind_some, Option.map_some, List.flatten_cons, hp]
        rw [splitFragments_cons, ← List.zipWith_append (by rw [htake, hfrag]), List.take_append_drop]
      next hle =>
        rw [if_neg hle, Option.map_eq_none_iff.mp ih]
        rfl

theorem readFragments_run (hb : width ≤ bits % (2 * width)) {count : ℕ} (hw : 0 < 8 / width)
    {result : List ℕ} (hlen : result.length = 8 / width * count) (data : List UInt8) :
    readFragments bits width result data =
      if count ≤ data.length then some (List.zipWith (putAt (fragmentShift bits width)) result
        (splitFragments width data), data.drop count) else none := by
  have hdiv : result.length / (8 / width) = count := by rw [hlen, Nat.mul_div_cancel_left _ hw]
  have hnone : result.drop (count * (8 / width)) = [] := List.drop_eq_nil_of_le (by rw [hlen, mul_comm])
  have hrun := readGroups_run bits count hlen data
  rw [readFragments, if_pos hb, arrayChunks, hdiv, hnone, ← hrun]
  simp only [bind, StateT.bind, pure, StateT.pure, List.append_nil]
  cases (takeChunks (8 / width) count result).mapM (readGroup bits width) data <;> rfl

theorem readFragments_skip (hb : ¬width ≤ bits % (2 * width)) (result : List ℕ) (data : List UInt8) :
    readFragments bits width result data = some (result, data) := by
  rw [readFragments, if_neg hb]
  rfl

theorem splitFragments_append (data rest : List UInt8) :
    splitFragments width (data ++ rest) = splitFragments width data ++ splitFragments width rest :=
  List.flatMap_append

/-- **The stage of `condense` emits what the stage of `uncondense` reads.** -/
theorem splitFragments_condense (hw : width * (8 / width) = 8) {count : ℕ} {xs : List UInt64}
    (hlen : xs.length = 8 / width * count) :
    splitFragments width ((takeChunks (8 / width) count xs).map (joinFragments bits width)) =
      xs.map fun x => extract bits width x.toNat := by
  induction count generalizing xs with
  | zero =>
    obtain rfl : xs = [] := List.length_eq_zero_iff.mp (by simpa using hlen)
    rfl
  | succ count ih =>
    have htake : (xs.take (8 / width)).length = 8 / width := by
      rw [List.length_take, hlen, mul_add, mul_one]
      omega
    have hdrop : (xs.drop (8 / width)).length = 8 / width * count := by
      rw [List.length_drop, hlen, mul_add, mul_one]
      omega
    rw [takeChunks, List.map_cons, splitFragments_cons, splitFragment_join hw htake, ih hdrop,
      ← List.map_append, List.take_append_drop]

end Width

/-- Values and their fragments, past which the stream goes on. -/
theorem zipWith_map_append {α β γ δ : Type} (h : β → γ → δ) (f : α → β) (g : α → γ) (xs : List α)
    (rest : List γ) :
    List.zipWith h (xs.map f) (xs.map g ++ rest) = xs.map fun x => h (f x) (g x) := by
  induction xs with
  | nil => simp
  | cons x xs ih => simp [ih]

/-- The values read once `shift` bits are. -/
def lowBits (shift : ℕ) (xs : List UInt64) : List ℕ := xs.map fun x => x.toNat % 2 ^ shift

@[simp] theorem length_lowBits (shift : ℕ) (xs : List UInt64) :
    (lowBits shift xs).length = xs.length := List.length_map _

theorem readFragments_condense (bits width count : ℕ) (hw : width * (8 / width) = 8) {xs : List UInt64}
    (hlen : xs.length = 8 / width * count) (rest : List UInt8) :
    readFragments bits width (lowBits (fragmentShift bits width) xs)
      (condenseFragments bits width xs ++ rest) =
      some (lowBits (fragmentShift bits width + if width ≤ bits % (2 * width) then width else 0) xs,
        rest) := by
  have hpos : 0 < 8 / width := Nat.pos_of_ne_zero fun h => by simp [h] at hw
  have hdiv : xs.length / (8 / width) = count := by rw [hlen, Nat.mul_div_cancel_left _ hpos]
  by_cases hb : width ≤ bits % (2 * width)
  · have hbytes : (condenseFragments bits width xs).length = count := by
      rw [condenseFragments, if_pos hb, List.length_map, arrayChunks, length_takeChunks, hdiv]
    rw [readFragments_run hb hpos (by rw [length_lowBits, hlen]),
      if_pos (by rw [List.length_append]; omega), if_pos hb, List.drop_left' hbytes,
      splitFragments_append, condenseFragments, if_pos hb, arrayChunks, hdiv,
      splitFragments_condense hw hlen, lowBits, zipWith_map_append]
    simp only [extract_eq, putAt_mod]
    rfl
  · rw [readFragments_skip hb, condenseFragments, if_neg hb, if_neg hb, List.nil_append, add_zero]

/-! ## Planes -/

theorem readPlane_run (shift : ℕ) (result : List ℕ) (data : List UInt8) : readPlane shift result data =
    if result.length ≤ data.length then
      some (List.zipWith (putAt shift) result (data.map UInt8.toNat),
        data.drop result.length) else none := by
  induction result generalizing data with
  | nil => simp [readPlane, pure, StateT.pure]
  | cons target result ih =>
    simp only [readPlane] at ih
    rw [readPlane, List.mapM_cons]
    simp only [bind, StateT.bind, pure, StateT.pure] at ih ⊢
    cases data with
    | nil => rfl
    | cons source data =>
      simp only [nextByte, Option.bind_some, ih data, List.length_cons, Nat.add_le_add_iff_right]
      split
      next => rfl
      next => rfl

theorem readPlane_condense (i : ℕ) (xs : List UInt64) (rest : List UInt8) :
    readPlane (8 * i) (lowBits (8 * i) xs)
      ((xs.map fun x => UInt8.ofNat (x.toNat >>> (8 * i))) ++ rest) =
      some (lowBits (8 * (i + 1)) xs, rest) := by
  rw [readPlane_run, if_pos (by simp), length_lowBits, List.drop_left' (by simp), List.map_append,
    List.map_map, lowBits, zipWith_map_append]
  refine congrArg some (Prod.ext (List.map_congr_left fun x _ => ?_) rfl)
  have hmod : (UInt8.ofNat (x.toNat >>> (8 * i))).toNat = (x.toNat >>> (8 * i)) % 2 ^ 8 :=
    UInt8.toNat_ofNat'
  simp only [Function.comp, hmod, putAt_mod, mul_add, mul_one]

theorem readPlanes_condense (count : ℕ) (xs : List UInt64) (rest : List UInt8) :
    ((List.range count).foldlM (fun result i => readPlane (8 * i) result) (List.replicate xs.length 0) :
        StateT (List UInt8) Option (List ℕ))
      (((List.range count).flatMap fun i => xs.map fun x => UInt8.ofNat (x.toNat >>> (8 * i))) ++
        rest) =
      some (lowBits (8 * count) xs, rest) := by
  induction count generalizing rest with
  | zero =>
    have hzero : lowBits (8 * 0) xs = List.replicate xs.length 0 := by
      simp [lowBits, Nat.mod_one]
    rw [hzero]
    rfl
  | succ count ih =>
    rw [List.range_succ, List.flatMap_append, List.foldlM_append, List.append_assoc]
    simp only [bind, StateT.bind, ih, Option.bind_some, List.flatMap_cons, List.flatMap_nil,
      List.append_nil, List.foldlM_cons, List.foldlM_nil, readPlane_condense, pure, StateT.pure]

/-! ## Both directions -/

/-- The bits one fragment more completes. -/
theorem fragmentShift_add (bits : ℕ) :
    8 * (bits / 8) = fragmentShift bits 4 ∧
    fragmentShift bits 4 + (if 4 ≤ bits % (2 * 4) then 4 else 0) = fragmentShift bits 2 ∧
    fragmentShift bits 2 + (if 2 ≤ bits % (2 * 2) then 2 else 0) = fragmentShift bits 1 ∧
    fragmentShift bits 1 + (if 1 ≤ bits % (2 * 1) then 1 else 0) = bits := by
  simp only [fragmentShift]
  split_ifs <;> omega

theorem length_condenseFragments (bits width count : ℕ) (hpos : 0 < 8 / width) {xs : List UInt64}
    (hlen : xs.length = 8 / width * count) :
    (condenseFragments bits width xs).length = if width ≤ bits % (2 * width) then count else 0 := by
  rw [condenseFragments]
  split
  · rw [List.length_map, arrayChunks, length_takeChunks, hlen, Nat.mul_div_cancel_left _ hpos]
  · rfl

/-- The planes and the fragments of full groups of eight. -/
def condensed (bits : ℕ) (xs : List UInt64) : List UInt8 :=
  ((List.range (bits / 8)).flatMap fun i => xs.map fun x => UInt8.ofNat (x.toNat >>> (8 * i))) ++
    condenseFragments bits 4 xs ++ condenseFragments bits 2 xs ++ condenseFragments bits 1 xs

/-- The eighths of a group of eight, by stages. -/
theorem bits_eq (bits k : ℕ) :
    8 * k * (bits / 8) + (if 4 ≤ bits % (2 * 4) then 4 * k else 0) +
      (if 2 ≤ bits % (2 * 2) then 2 * k else 0) +
      (if 1 ≤ bits % (2 * 1) then k else 0) = k * bits := by
  obtain ⟨h8, h4, h2, h1⟩ := fragmentShift_add bits
  calc _ = k * (8 * (bits / 8) + (if 4 ≤ bits % (2 * 4) then 4 else 0) +
        (if 2 ≤ bits % (2 * 2) then 2 else 0) +
        (if 1 ≤ bits % (2 * 1) then 1 else 0)) := by
        simp only [mul_add, mul_ite, mul_zero, mul_one]
        ring_nf
    _ = k * bits := by rw [h8, h4, h2, h1]

theorem length_condensed (bits : ℕ) {k : ℕ} {xs : List UInt64} (hlen : xs.length = 8 * k) :
    (condensed bits xs).length = k * bits := by
  rw [condensed, List.length_append, List.length_append, List.length_append,
    length_condenseFragments bits 4 (4 * k) (by norm_num) (by omega),
    length_condenseFragments bits 2 (2 * k) (by norm_num) (by omega),
    length_condenseFragments bits 1 k (by norm_num) (by omega), ← bits_eq bits k]
  simp [List.length_flatMap, hlen, mul_comm]

/-- `condense` does not fail on full groups, and its final assertion holds. -/
theorem condense_eq (bits : ℕ) {k : ℕ} {xs : List UInt64} (hlen : xs.length = 8 * k) :
    condense bits xs = some (condensed bits xs) := by
  have hdiv : xs.length / 8 = k := by omega
  have hpad : List.replicate (xs.length / 8 * 8 - xs.length) (0 : UInt64) = [] := by
    rw [show xs.length / 8 * 8 - xs.length = 0 by omega]
    rfl
  rw [condense, if_pos (by omega)]
  simp only [hpad, List.append_nil]
  rw [if_pos (by rw [hdiv]; exact (length_condensed bits hlen).symm)]
  rfl

/-- **`uncondense` undoes `condense`** and leaves the rest unread. -/
theorem uncondense_condensed (bits : ℕ) {k : ℕ} {xs : List UInt64} (hlen : xs.length = 8 * k)
    (rest : List UInt8) :
    uncondense bits xs.length (condensed bits xs ++ rest) =
      some ((lowBits bits xs).map UInt64.ofNat, rest) := by
  obtain ⟨h8, h4, h2, h1⟩ := fragmentShift_add bits
  have e4 := readFragments_condense bits 4 (4 * k) (by norm_num) (show xs.length = _ by omega)
  have e2 := readFragments_condense bits 2 (2 * k) (by norm_num) (show xs.length = _ by omega)
  have e1 := readFragments_condense bits 1 k (by norm_num) (show xs.length = _ by omega)
  rw [h4] at e4
  rw [h2] at e2
  rw [h1] at e1
  simp only [uncondense, condensed, List.append_assoc, bind, StateT.bind, readPlanes_condense, h8,
    Option.bind_some, e4, e2, e1, pure, StateT.pure]

/-! ## Any bytes -/

theorem map_ofNat_lowBits {bits : ℕ} {xs : List UInt64} (h : ∀ x ∈ xs, x.toNat < 2 ^ bits) :
    (lowBits bits xs).map UInt64.ofNat = xs := by
  rw [lowBits, List.map_map]
  refine (List.map_congr_left fun x hx => ?_).trans (List.map_id xs)
  rw [Function.comp, Nat.mod_eq_of_lt (h x hx), UInt64.ofNat_toNat]
  rfl

/-- Values of `bits` bits are read off their bytes. -/
theorem condensed_inj {bits k : ℕ} {xs ys : List UInt64} (hxs : xs.length = 8 * k)
    (hys : ys.length = 8 * k) (hx : ∀ x ∈ xs, x.toNat < 2 ^ bits)
    (hy : ∀ y ∈ ys, y.toNat < 2 ^ bits) (h : condensed bits xs = condensed bits ys) : xs = ys := by
  have ex := uncondense_condensed bits hxs []
  have ey := uncondense_condensed bits hys []
  rw [hxs, h] at ex
  rw [hys, ex, map_ofNat_lowBits hx, map_ofNat_lowBits hy] at ey
  cases ey
  rfl

/-- The values as `condense` takes them. -/
def words {bits n : ℕ} (v : List.Vector (Fin (2 ^ bits)) n) : List UInt64 :=
  v.toList.map fun x => UInt64.ofNat x.val

section Words
variable {bits k : ℕ}

theorem length_words (v : List.Vector (Fin (2 ^ bits)) (8 * k)) : (words v).length = 8 * k := by
  rw [words, List.length_map, List.Vector.toList_length]

theorem toNat_word (hbits : bits ≤ 64) (x : Fin (2 ^ bits)) : (UInt64.ofNat x.val).toNat = x :=
  Nat.mod_eq_of_lt (x.isLt.trans_le (Nat.pow_le_pow_right (by norm_num) hbits))

theorem words_lt (hbits : bits ≤ 64) (v : List.Vector (Fin (2 ^ bits)) (8 * k)) :
    ∀ x ∈ words v, x.toNat < 2 ^ bits := by
  intro x hx
  obtain ⟨i, -, rfl⟩ := List.mem_map.mp hx
  rw [toNat_word hbits]
  exact i.isLt

/-- The bytes of the values, a number of them that depends on `bits` only. -/
def wordBytes (bits k : ℕ) (v : List.Vector (Fin (2 ^ bits)) (8 * k)) :
    List.Vector (Fin UInt8.size) (k * bits) :=
  ⟨(condensed bits (words v)).map UInt8.toFin, by
    rw [List.length_map, length_condensed bits (length_words v)]⟩

/-- There are as many words as bytes for them, so that **all bytes are the
bytes of words**. -/
theorem wordBytes_surjective (hbits : bits ≤ 64) : Function.Surjective (wordBytes bits k) := by
  have hinj : Function.Injective (wordBytes bits k) := fun v w h => by
    have hbytes := List.map_injective_iff.mpr (fun _ _ => UInt8.toFin_inj.mp) (Subtype.ext_iff.mp h)
    have hwords := condensed_inj (length_words v) (length_words w) (words_lt hbits v)
      (words_lt hbits w) hbytes
    refine List.Vector.toList_injective (List.map_injective_iff.mpr (fun x y hxy => Fin.ext ?_) hwords)
    have hnat := congrArg UInt64.toNat hxy
    rwa [toNat_word hbits, toNat_word hbits] at hnat
  have hcard : Fintype.card (List.Vector (Fin (2 ^ bits)) (8 * k)) =
      Fintype.card (List.Vector (Fin UInt8.size) (k * bits)) := by
    rw [card_vector, card_vector, Fintype.card_fin, Fintype.card_fin, ← pow_mul]
    change 2 ^ (bits * (8 * k)) = (2 ^ 8) ^ (k * bits)
    rw [← pow_mul]
    ring_nf
  exact ((Fintype.bijective_iff_injective_and_card _).mpr ⟨hinj, hcard⟩).2

theorem exists_condensed (hbits : bits ≤ 64) {bytes : List UInt8} (hlen : bytes.length = k * bits) :
    ∃ xs : List UInt64, xs.length = 8 * k ∧ (∀ x ∈ xs, x.toNat < 2 ^ bits) ∧
      condensed bits xs = bytes := by
  obtain ⟨v, hv⟩ := wordBytes_surjective hbits ⟨bytes.map UInt8.toFin, by rw [List.length_map, hlen]⟩
  exact ⟨words v, length_words v, words_lt hbits v,
    List.map_injective_iff.mpr (fun _ _ => UInt8.toFin_inj.mp) (Subtype.ext_iff.mp hv)⟩

end Words

/-- **The bit packing is a bijection** at every width: of values, of which the
bits past the width are lost, and of bytes. -/
theorem condense_uncondense {bits : ℕ} (hbits : bits ≤ 64) :
    (∀ (xs : List UInt64) (rest : List UInt8), 8 ∣ xs.length → ∃ bytes, condense bits xs = some bytes ∧
      bytes.length = xs.length * bits / 8 ∧
      uncondense bits xs.length (bytes ++ rest) =
        some (xs.map fun x => UInt64.ofNat (x.toNat % 2 ^ bits), rest) ∧
      ((∀ x ∈ xs, x.toNat < 2 ^ bits) → uncondense bits xs.length (bytes ++ rest) = some (xs, rest))) ∧
    ∀ (n : ℕ) (bytes : List UInt8), 8 ∣ n → bytes.length = n * bits / 8 →
      ∃ ys, uncondense bits n bytes = some (ys, []) ∧ condense bits ys = some bytes := by
  have hdiv : ∀ k, 8 * k * bits / 8 = k * bits := fun k => by
    rw [mul_assoc, Nat.mul_div_cancel_left _ (by norm_num)]
  refine ⟨fun xs rest ⟨k, hk⟩ => ?_, fun n bytes ⟨k, hk⟩ hlen => ?_⟩
  · have hrun := uncondense_condensed bits hk rest
    refine ⟨_, condense_eq bits hk, by rw [length_condensed bits hk, hk, hdiv], ?_, fun h => ?_⟩
    · rw [hrun, lowBits, List.map_map]
      rfl
    · rw [hrun, map_ofNat_lowBits h]
  · rw [hk, hdiv] at hlen
    obtain ⟨xs, hxs, hlt, rfl⟩ := exists_condensed hbits hlen
    have hrun := uncondense_condensed bits hxs []
    rw [List.append_nil, map_ofNat_lowBits hlt, hxs, ← hk] at hrun
    exact ⟨xs, hrun, condense_eq bits hxs⟩

theorem condense_uncondense_ones : ∃ ys, uncondense 12 8 (List.replicate 12 255) = some (ys, []) ∧
    condense 12 ys = some (List.replicate 12 255) :=
  (condense_uncondense (by decide : 12 ≤ 64)).2 8 _ (by decide) (by decide)

/-! ## An incomplete group -/

/-- The values, with zeros up to a full group. -/
def padGroup (xs : List UInt64) : List UInt64 := xs ++ List.replicate ((8 - xs.length % 8) % 8) 0

/-- The values are condensed like those with zeros after them: the subtraction
does not underflow, and the final assertion holds. -/
def PadsGroup (bits : ℕ) (xs : List UInt64) : Prop :=
  ∃ bytes, condense bits xs = some bytes ∧ condense bits (padGroup xs) = some bytes

section Incomplete
variable {bits : ℕ} {xs : List UInt64}

theorem length_padGroup (h : ¬8 ∣ xs.length) : (padGroup xs).length = 8 * (xs.length / 8 + 1) := by
  rw [padGroup, List.length_append, List.length_replicate]
  omega

/-- The padding is rounded to the wrong side. -/
theorem condense_eq_none (h : ¬8 ∣ xs.length) : condense bits xs = none := if_neg (by omega)

/-- **An incomplete group is never padded**: the subtraction that counts the
zeros underflows, where the padded values are condensed. -/
theorem not_padsGroup (h : ¬8 ∣ xs.length) :
    ¬PadsGroup bits xs ∧ ∃ bytes, condense bits (padGroup xs) = some bytes := by
  refine ⟨fun ⟨bytes, hbytes, _⟩ => ?_, _, condense_eq bits (length_padGroup h)⟩
  rw [condense_eq_none h] at hbytes
  cases hbytes

end Incomplete

theorem not_padsGroup_one : ¬PadsGroup 12 [1] := (not_padsGroup (by decide)).1

/-- One value of twelve bits. -/
theorem not_forall_padsGroup :
    ¬∀ (bits : ℕ) (xs : List UInt64), 1 ≤ bits → bits ≤ 64 → ¬8 ∣ xs.length → PadsGroup bits xs := by
  intro hall
  obtain ⟨bytes, hbytes, -⟩ := hall 12 [1] (by decide) (by decide) (by decide)
  cases hbytes

/-! ## Any stream -/

/-- What is read so far of any stream: `count` values of `shift` bits. -/
def Read (count shift : ℕ) (result : List ℕ) : Prop :=
  result.length = count ∧ ∀ x ∈ result, x < 2 ^ shift

theorem Read.zipWith {count shift width : ℕ} {result frags : List ℕ} (h : Read count shift result)
    (hlen : count ≤ frags.length) (hf : ∀ f ∈ frags, f < 2 ^ width) :
    Read count (shift + width) (List.zipWith (putAt shift) result frags) := by
  refine ⟨by rw [List.length_zipWith, h.1]; omega, fun x hx => ?_⟩
  obtain ⟨i, hi, rfl⟩ := List.getElem_of_mem hx
  rw [List.getElem_zipWith]
  exact putAt_lt (h.2 _ (List.getElem_mem _)) (hf _ (List.getElem_mem _))

/-- A reader that takes `n` bytes off any stream for a value of `P`, or fails
for want of them. -/
def Takes {α : Type} (m : StateT (List UInt8) Option α) (n : ℕ) (P : α → Prop) : Prop :=
  ∀ data, if n ≤ data.length then ∃ a, m data = some (a, data.drop n) ∧ P a else m data = none

section Takes
variable {α β : Type} {m : StateT (List UInt8) Option α} {n n' : ℕ} {P P' : α → Prop}

theorem Takes.pure {a : α} (h : P a) : Takes (Pure.pure a) 0 P := fun data => by
  rw [if_pos (Nat.zero_le _)]
  exact ⟨a, rfl, h⟩

theorem Takes.bind {f : α → StateT (List UInt8) Option β} {Q : β → Prop} (h : Takes m n P)
    (hf : ∀ a, P a → Takes (f a) n' Q) : Takes (m >>= f) (n + n') Q := fun data => by
  have h := h data
  simp only [Bind.bind, StateT.bind]
  split at h
  next hle =>
    obtain ⟨a, hm, ha⟩ := h
    have hf := hf a ha (data.drop n)
    rw [hm, Option.bind_some]
    rw [List.length_drop, List.drop_drop] at hf
    by_cases hle' : n + n' ≤ data.length
    · rw [if_pos hle']
      rwa [if_pos (by omega)] at hf
    · rw [if_neg hle']
      rwa [if_neg (by omega)] at hf
  next hle => rw [if_neg (by omega), h, Option.bind_none]

theorem Takes.map {f : α → β} {Q : β → Prop} (h : Takes m n P) (hf : ∀ a, P a → Q (f a)) :
    Takes (m >>= fun a => Pure.pure (f a)) n Q :=
  h.bind fun a ha => Takes.pure (hf a ha)

/-- Readers of equal parts, one after another. -/
theorem Takes.ofFnM {k : ℕ} {f : Fin k → StateT (List UInt8) Option α}
    (h : ∀ i, Takes (f i) n fun _ => True) :
    Takes (Vector.ofFnM f) (k * n) fun _ => True := by
  induction k with
  | zero =>
    rw [Vector.ofFnM_zero, Nat.zero_mul]
    exact Takes.pure trivial
  | succ k ih =>
    rw [Vector.ofFnM_succ, Nat.succ_mul]
    exact (ih fun i => h i.castSucc).bind fun _ _ => (h (Fin.last k)).map fun _ _ => trivial

end Takes

/-- A stage on any stream. -/
theorem takes_readFragments (bits width count : ℕ) (hw : 0 < 8 / width) {result : List ℕ}
    (h : Read (8 / width * count) (fragmentShift bits width) result) :
    Takes (readFragments bits width result) (if width ≤ bits % (2 * width) then count else 0)
      (Read (8 / width * count)
        (fragmentShift bits width + if width ≤ bits % (2 * width) then width else 0)) := by
  intro data
  by_cases hb : width ≤ bits % (2 * width)
  · simp only [if_pos hb, readFragments_run hb hw h.1]
    split
    next hle =>
      refine ⟨_, rfl, h.zipWith ?_ fun f hf => lt_of_mem_splitFragments hf⟩
      rw [length_splitFragments]
      exact Nat.mul_le_mul_left _ hle
    next => rfl
  · simp only [if_neg hb, readFragments_skip hb, Nat.zero_le, if_true]
    exact ⟨result, by simp, h⟩

theorem takes_readPlane {count shift : ℕ} {result : List ℕ} (h : Read count shift result) :
    Takes (readPlane shift result) count (Read count (shift + 8)) := by
  intro data
  rw [readPlane_run, h.1]
  split
  next hle =>
    refine ⟨_, rfl, h.zipWith (by simpa using hle) fun f hf => ?_⟩
    obtain ⟨b, -, rfl⟩ := List.mem_map.mp hf
    exact b.toNat_lt
  next => rfl

theorem takes_readPlanes (planes count : ℕ) :
    Takes ((List.range planes).foldlM (fun result i => readPlane (8 * i) result)
      (List.replicate count 0))
      (count * planes) (Read count (8 * planes)) := by
  induction planes with
  | zero => exact Takes.pure ⟨by simp, fun x hx => by simp [List.eq_of_mem_replicate hx]⟩
  | succ planes ih =>
    rw [List.range_succ, List.foldlM_append, mul_add, mul_one]
    refine ih.bind fun result hresult => ?_
    rw [show 8 * (planes + 1) = 8 * planes + 8 by ring]
    simpa only [List.foldlM_cons, List.foldlM_nil, bind_pure] using takes_readPlane hresult

/-- **`uncondense` on any stream**: it takes its bytes and returns values of
`bits` bits, or fails because there are too few. -/
theorem takes_uncondense {bits : ℕ} (hbits : bits ≤ 64) (k : ℕ) :
    Takes (uncondense bits (8 * k)) (k * bits) fun ys => ys.length = 8 * k ∧
      ∀ y ∈ ys, y.toNat < 2 ^ bits := by
  obtain ⟨h8, h4, h2, h1⟩ := fragmentShift_add bits
  have hp := takes_readPlanes (bits / 8) (8 * k)
  rw [h8] at hp
  rw [← bits_eq bits k, uncondense, add_assoc, add_assoc]
  refine hp.bind fun result hr => ?_
  refine (takes_readFragments bits 4 (4 * k) (by norm_num) (by convert hr using 1; ring)).bind
    fun result hr => ?_
  rw [h4] at hr
  refine (takes_readFragments bits 2 (2 * k) (by norm_num) (by convert hr using 1; ring)).bind
    fun result hr => ?_
  rw [h2] at hr
  refine (takes_readFragments bits 1 k (by norm_num) (by convert hr using 1; ring)).map
    fun result hr => ?_
  rw [h1] at hr
  refine ⟨by rw [List.length_map, hr.1], fun y hy => ?_⟩
  obtain ⟨x, hx, rfl⟩ := List.mem_map.mp hy
  have hlt := hr.2 x hx
  have hle : 2 ^ bits ≤ 2 ^ 64 := Nat.pow_le_pow_right (by norm_num) hbits
  rw [UInt64.toNat_ofNat', Nat.mod_eq_of_lt (by omega)]
  exact hlt

end PirWrapper

end Dnspir
