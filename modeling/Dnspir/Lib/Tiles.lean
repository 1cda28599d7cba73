/-
Memory cut into consecutive pieces.

`Tiles m off l` says that the pieces `l` lie one after another in `m`, from
offset `off` to the end of `m`. Joined they are that part of the memory again
(`Tiles.join`), and every slot of it is in exactly one of them
(`Tiles.existsUnique`).
-/
import Mathlib

namespace Tiling

variable {α : Type}

/-- The pieces are consecutive, start at `off` and end where `m` ends. -/
def Tiles (m : Array α) : ℕ → List (Array α) → Prop
  | off, [] => off = m.size
  | off, piece :: rest =>
    piece = m.extract off (off + piece.size) ∧ off + piece.size ≤ m.size ∧
      Tiles m (off + piece.size) rest

def join (pieces : List (Array α)) : Array α := pieces.foldl (· ++ ·) #[]

/-- Where piece `k` starts. -/
def start (off : ℕ) (pieces : List (Array α)) (k : ℕ) : ℕ := off + ((pieces.take k).map Array.size).sum

theorem foldl_append (pieces : List (Array α)) (a : Array α) :
    pieces.foldl (· ++ ·) a = a ++ join pieces := by
  induction pieces generalizing a with
  | nil => simp [join]
  | cons piece rest ih =>
    have hj : join (piece :: rest) = #[] ++ piece ++ join rest := ih _
    rw [List.foldl_cons, ih, hj]
    simp

@[simp] theorem join_nil : join ([] : List (Array α)) = #[] := rfl

@[simp] theorem join_cons (piece : Array α) (rest : List (Array α)) :
    join (piece :: rest) = piece ++ join rest :=
  (foldl_append rest (#[] ++ piece)).trans (by simp)

theorem size_join (pieces : List (Array α)) : (join pieces).size = (pieces.map Array.size).sum := by
  induction pieces with
  | nil => rfl
  | cons piece rest ih => rw [join_cons, Array.size_append, ih, List.map_cons, List.sum_cons]

theorem join_append (pieces pieces' : List (Array α)) :
    join (pieces ++ pieces') = join pieces ++ join pieces' := by
  rw [join, List.foldl_append, foldl_append, ← join]

variable {m : Array α} {off : ℕ} {pieces : List (Array α)}

/-- **Joined, the pieces are the memory.** -/
theorem Tiles.join (h : Tiles m off pieces) : Tiling.join pieces = m.extract off m.size := by
  induction pieces generalizing off with
  | nil =>
    rw [show off = m.size from h]
    simp
  | cons piece rest ih =>
    obtain ⟨hp, hle, hr⟩ := h
    rw [join_cons, ih hr]
    nth_rewrite 1 [hp]
    rw [Array.extract_append_extract]
    congr 1 <;> omega

theorem start_succ (piece : Array α) (rest : List (Array α)) (k : ℕ) :
    start off (piece :: rest) (k + 1) = start (off + piece.size) rest k := by
  simp [start, add_assoc]

/-- **Every slot is in exactly one piece.** -/
theorem Tiles.existsUnique (h : Tiles m off pieces) {idx : ℕ} (hle : off ≤ idx) (hlt : idx < m.size) :
    ∃! k : Fin pieces.length, start off pieces k ≤ idx ∧ idx < start off pieces (k + 1) := by
  induction pieces generalizing off with
  | nil =>
    rw [show off = m.size from h] at hle
    omega
  | cons piece rest ih =>
    obtain ⟨-, -, hr⟩ := h
    have hstart : ∀ k : Fin rest.length, off + piece.size ≤ start off (piece :: rest) (k + 1) :=
        fun k => by
      rw [start_succ]
      exact Nat.le_add_right _ _
    by_cases hin : idx < off + piece.size
    · refine ⟨⟨0, by simp⟩, ⟨by simpa [start] using hle, by simpa [start] using hin⟩, fun k hk => ?_⟩
      refine Fin.cases (fun _ => rfl) (fun k hk => ?_) k hk
      have h1 := hstart k
      have h2 := hk.1
      simp only [Fin.val_succ] at h2
      omega
    · obtain ⟨k, hk, huniq⟩ := ih hr (not_lt.mp hin)
      refine ⟨k.succ, ?_, fun j hj => ?_⟩
      · simpa only [Fin.val_succ, start_succ] using hk
      · revert hj
        refine Fin.cases (fun hj => ?_) (fun j hj => ?_) j
        · have h2 := hj.2
          simp [start] at h2
          omega
        · simp only [Fin.val_succ, start_succ] at hj
          rw [huniq j hj]

end Tiling
