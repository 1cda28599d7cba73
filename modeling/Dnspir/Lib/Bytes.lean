/-
Numbers as bytes: little-endian in a fixed width, and writing a run of bytes
into a buffer.

* `ofLe_toLe`, `toLe_ofLe`: the two directions.
* `toList_splice`: a buffer after a write, as a list.
-/
import Mathlib.Data.List.Basic
import Mathlib.Tactic.Ring
import Dnspir.Lib.Positions

namespace Bytes

/-- The `w` low bytes of `n`, lowest first. -/
def toLe : ℕ → ℕ → List UInt8
  | 0, _ => []
  | w + 1, n => UInt8.ofNat n :: toLe w (n / 256)

/-- The number the bytes stand for, lowest first. -/
def ofLe : List UInt8 → ℕ
  | [] => 0
  | b :: bytes => b.toNat + 256 * ofLe bytes

def toBe (w n : ℕ) : List UInt8 := (toLe w n).reverse

def ofBe (bytes : List UInt8) : ℕ := ofLe bytes.reverse

@[simp] theorem length_toLe (w n : ℕ) : (toLe w n).length = w := by
  induction w generalizing n with
  | zero => rfl
  | succ w ih => rw [toLe, List.length_cons, ih]

theorem getElem_toLe (w n : ℕ) {k : ℕ} (hk : k < (toLe w n).length) :
    (toLe w n)[k] = UInt8.ofNat (n >>> (8 * k)) := by
  induction w generalizing n k with
  | zero => cases hk
  | succ w ih =>
    cases k with
    | zero => rfl
    | succ k =>
      rw [length_toLe, Nat.succ_lt_succ_iff] at hk
      have h := ih (n / 256) ((length_toLe w _).symm ▸ hk)
      rw [Nat.mul_succ, Nat.add_comm (8 * k), Nat.shiftRight_add, Nat.shiftRight_eq_div_pow n 8, ← h]
      rfl

theorem ofLe_toLe (w n : ℕ) : ofLe (toLe w n) = n % 256 ^ w := by
  induction w generalizing n with
  | zero => rw [toLe, ofLe, pow_zero, Nat.mod_one]
  | succ w ih => rw [toLe, ofLe, ih, UInt8.toNat_ofNat', pow_succ' 256 w, Nat.mod_mul]

theorem ofLe_toLe_of_lt {w n : ℕ} (h : n < 256 ^ w) : ofLe (toLe w n) = n := by
  rw [ofLe_toLe, Nat.mod_eq_of_lt h]

theorem ofLe_lt (bytes : List UInt8) : ofLe bytes < 256 ^ bytes.length := by
  induction bytes with
  | nil => exact Nat.one_pos
  | cons b bytes ih =>
    rw [ofLe, List.length_cons, pow_succ]
    have hb := b.toNat_lt
    omega

theorem toLe_ofLe (bytes : List UInt8) : toLe bytes.length (ofLe bytes) = bytes := by
  induction bytes with
  | nil => rfl
  | cons b bytes ih =>
    have hb := b.toNat_lt
    rw [List.length_cons, toLe, ofLe, Nat.add_mul_div_left _ _ (by norm_num),
      Nat.div_eq_of_lt (by omega), Nat.zero_add, ih]
    refine congrArg (· :: bytes) (UInt8.toNat_inj.mp ?_)
    rw [UInt8.toNat_ofNat', Nat.add_mul_mod_self_left, Nat.mod_eq_of_lt hb]

/-- The bytes of a number, by shifts. -/
theorem ofNat_ofLe_shiftRight (bytes : List UInt8) {k : ℕ} (hk : k < bytes.length) :
    UInt8.ofNat (ofLe bytes >>> (8 * k)) = bytes[k] := by
  induction bytes generalizing k with
  | nil => cases hk
  | cons b bytes ih =>
    have hb := b.toNat_lt
    cases k with
    | zero =>
      refine UInt8.toNat_inj.mp ?_
      rw [UInt8.toNat_ofNat', Nat.mul_zero, Nat.shiftRight_zero, ofLe, Nat.add_mul_mod_self_left,
        Nat.mod_eq_of_lt hb]
      rfl
    | succ k =>
      rw [List.length_cons, Nat.succ_lt_succ_iff] at hk
      rw [List.getElem_cons_succ, ← ih hk, ofLe, Nat.mul_succ, Nat.add_comm (8 * k), Nat.shiftRight_add,
        Nat.shiftRight_eq_div_pow _ 8, Nat.add_mul_div_left _ _ (by norm_num), Nat.div_eq_of_lt hb,
          Nat.zero_add]

@[simp] theorem length_toBe (w n : ℕ) : (toBe w n).length = w :=
  by rw [toBe, List.length_reverse, length_toLe]

theorem ofBe_toBe (w n : ℕ) : ofBe (toBe w n) = n % 256 ^ w :=
  by rw [ofBe, toBe, List.reverse_reverse, ofLe_toLe]

theorem ofBe_lt (bytes : List UInt8) : ofBe bytes < 256 ^ bytes.length := by
  have h := ofLe_lt bytes.reverse
  rwa [List.length_reverse] at h

theorem toBe_ofBe {w : ℕ} {bytes : List UInt8} (h : bytes.length = w) :
    toBe w (ofBe bytes) = bytes := by
  have hrev := toLe_ofLe bytes.reverse
  rw [List.length_reverse, h] at hrev
  rw [toBe, ofBe, hrev, List.reverse_reverse]

/-! ## Writing into a buffer -/

variable {α : Type}

/-- The buffer with `data` from position `start` on. -/
def splice {n : ℕ} (buf : Vector α n) (start : ℕ) (data : List α) : Vector α n :=
  Vector.ofFn fun i =>
    if h : start ≤ i ∧ i - start < data.length then data.get ⟨i - start, h.2⟩ else buf[i]

theorem getElem?_splice {n : ℕ} (buf : Vector α n) {start : ℕ} {data : List α}
    (h : start + data.length ≤ n) (i : ℕ) :
    (splice buf start data).toList[i]? =
      if start ≤ i ∧ i - start < data.length then data[i - start]? else buf.toList[i]? := by
  rw [splice, Vector.toList_ofFn, List.getElem?_ofFn]
  by_cases hi : i < n
  · rw [dif_pos hi]
    split
    next hd => simp [hd]
    next => simp [hi]
  · rw [dif_neg hi, if_neg (by omega), List.getElem?_eq_none (by simpa using hi)]

theorem toList_splice {n : ℕ} (buf : Vector α n) {start : ℕ} {data : List α}
    (h : start + data.length ≤ n) :
    (splice buf start data).toList =
      buf.toList.take start ++ (data ++ buf.toList.drop (start + data.length)) := by
  refine List.ext_getElem? fun i => ?_
  rw [getElem?_splice buf h, List.getElem?_append, List.getElem?_append, List.length_take,
    Vector.length_toList, Nat.min_eq_left (by omega), List.getElem?_drop]
  by_cases h1 : i < start
  · rw [if_neg (by omega), if_pos h1, List.getElem?_take_of_lt h1]
  · rw [if_neg h1]
    by_cases h2 : i - start < data.length
    · rw [if_pos ⟨by omega, h2⟩, if_pos h2]
    · rw [if_neg (by omega), if_neg h2, show start + data.length + (i - start - data.length) = i by
        omega]

/-- A write over a part of the buffer of its length. -/
theorem toList_splice_append {n : ℕ} {buf : Vector α n} {before old after data : List α} {start : ℕ}
    (h : buf.toList = before ++ (old ++ after)) (hs : before.length = start)
    (hl : old.length = data.length) :
    (splice buf start data).toList = before ++ (data ++ after) := by
  have hlen := congrArg List.length h
  simp only [List.length_append, Vector.length_toList] at hlen
  have hmid : start + data.length = (before ++ old).length := by rw [List.length_append, hs, hl]
  have hdrop : buf.toList.drop (start + data.length) = after :=
    by rw [hmid, h, ← List.append_assoc, List.drop_left]
  rw [toList_splice buf (by omega), hdrop, h, List.take_left' hs]

end Bytes
