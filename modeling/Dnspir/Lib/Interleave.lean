/-
Machines that share nothing but an end: each takes its own events, in any
interleaving, until one of them brings all of them to a halt.

* `run_inv`: what the events of a machine keep holds of it after every run.
* `halted_iff`: a family has halted when one of its machines halts it.
* `run_own`: until then, a machine that is given turns of its own goes where
  they take it.
-/
import Mathlib.Data.List.Basic
import Mathlib.Logic.Function.Basic

namespace Interleave

variable {ι σ ε : Type} [DecidableEq ι]

theorem foldl_inv {α β : Type} {f : α → β → α} {P : α → Prop} {l : List β}
    (hf : ∀ a, ∀ b ∈ l, P a → P (f a b)) {a : α} (h : P a) : P (l.foldl f a) := by
  induction l generalizing a with
  | nil => exact h
  | cons b l ih =>
    exact ih (fun a b' hb' => hf a b' (List.mem_cons_of_mem _ hb')) (hf a b List.mem_cons_self h)

structure Family (ι σ : Type) where
  machine : ι → σ
  halted : Bool

namespace Family

/-- Machine `e.1` takes the event `e.2`, unless all have halted. -/
def act (act : σ → ε → σ) (halts : σ → Bool) (s : Family ι σ) (e : ι × ε) : Family ι σ :=
  if s.halted then s
  else
    let next := act (s.machine e.1) e.2
    ⟨Function.update s.machine e.1 next, halts next⟩

def run (act : σ → ε → σ) (halts : σ → Bool) (s : Family ι σ) (events : List (ι × ε)) : Family ι σ :=
  events.foldl (Family.act act halts) s

variable {act : σ → ε → σ} {halts : σ → Bool} {s : Family ι σ} {events : List (ι × ε)}

theorem run_append (act : σ → ε → σ) (halts : σ → Bool) (s : Family ι σ) (events more : List (ι × ε)) :
    s.run act halts (events ++ more) = (s.run act halts events).run act halts more := List.foldl_append

/-- **Nothing happens after a halt.** -/
theorem run_of_halted (h : s.halted) : s.run act halts events = s :=
  foldl_inv (P := (· = s)) (fun s' e _ hs => by rw [hs, Family.act, if_pos h]) rfl

/-- What the events of a machine keep holds of it after every run. -/
theorem run_inv {P : σ → Prop} {i : ι} (hact : ∀ m, ∀ e ∈ events, e.1 = i → P m → P (act m e.2))
    (h : P (s.machine i)) :
    P ((s.run act halts events).machine i) := by
  refine foldl_inv (P := fun s : Family ι σ => P (s.machine i)) (fun s e he hs => ?_) h
  rw [Family.act]
  split
  next => exact hs
  next =>
    by_cases hi : e.1 = i
    · subst hi
      simpa only [Function.update_self] using hact _ e he rfl hs
    · simpa only [Function.update_of_ne (Ne.symm hi)] using hs

/-- **A family has halted when one of its machines halts it.** -/
theorem halted_iff (h : s.halted ↔ ∃ i, halts (s.machine i)) :
    (s.run act halts events).halted ↔ ∃ i, halts ((s.run act halts events).machine i) := by
  refine foldl_inv (P := fun s : Family ι σ => s.halted ↔ ∃ i, halts (s.machine i))
    (fun s e _ hs => ?_) h
  rw [Family.act]
  split
  next => exact hs
  next hrun =>
    refine ⟨fun hn => ⟨e.1, by simpa only [Function.update_self] using hn⟩, fun ⟨i, hi⟩ => ?_⟩
    by_cases he : i = e.1
    · subst he
      simpa only [Function.update_self] using hi
    · exact absurd (hs.mpr ⟨i, by simpa only [Function.update_of_ne he] using hi⟩) hrun

/-- **Turns of one machine** take it where they take it alone, unless it halts. -/
theorem run_own (i : ι) (turns : List ε) (h : (s.run act halts (turns.map (i, ·))).halted = false) :
    (s.run act halts (turns.map (i, ·))).machine i = turns.foldl act (s.machine i) := by
  induction turns generalizing s with
  | nil => rfl
  | cons e turns ih =>
    have hs : s.halted = false := by
      by_contra hs
      rw [Bool.not_eq_false] at hs
      rw [run_of_halted hs, hs] at h
      cases h
    have hstep : s.run act halts ((e :: turns).map (i, ·)) =
        (Family.act act halts s (i, e)).run act halts (turns.map (i, ·)) := rfl
    have hnext : (Family.act act halts s (i, e)).machine i = act (s.machine i) e := by
      rw [Family.act, if_neg (by rw [hs]; exact Bool.false_ne_true)]
      exact Function.update_self ..
    rw [hstep] at h ⊢
    rw [ih h, hnext, List.foldl_cons]

end Family

end Interleave
