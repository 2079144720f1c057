import Helens.Lib.Runs
import Mathlib.Data.List.Basic
import Mathlib.Order.Lattice

/-! Loops over a range of an array, where every access is checked. A loop that
rewrites one block after the other rewrites the range the blocks make up. -/

namespace Lib.RangeLoops

variable {α ε : Type}

def mapRange (lo hi : Nat) (g : Nat → α → α) (l : List α) : List α :=
  l.mapIdx fun j a => if lo ≤ j ∧ j < hi then g j a else a

section
variable {g : Nat → α → α}

@[simp] theorem length_mapRange : (mapRange lo hi g l).length = l.length := by
  simp [mapRange]

theorem getElem?_mapRange (j) :
    (mapRange lo hi g l)[j]? = l[j]?.map fun a => if lo ≤ j ∧ j < hi then g j a else a := by
  simp [mapRange]

theorem mapRange_empty (h : hi ≤ lo) : mapRange lo hi g l = l := by
  refine List.ext_getElem? fun j => ?_
  have hj : ¬ (lo ≤ j ∧ j < hi) := by omega
  simp [getElem?_mapRange, hj]

theorem mapRange_mapRange (h : lo ≤ mid) (h' : mid ≤ hi) :
    mapRange mid hi g (mapRange lo mid g l) = mapRange lo hi g l := by
  refine List.ext_getElem? fun j => ?_
  rw [getElem?_mapRange, getElem?_mapRange, getElem?_mapRange, Option.map_map]
  refine congrArg (fun f => l[j]?.map f) (funext fun a => ?_)
  dsimp only [Function.comp_apply]
  by_cases hlow : j < mid
  · have hfirst : ¬ (mid ≤ j ∧ j < hi) := by omega
    have hboth : lo ≤ j ∧ j < mid ↔ lo ≤ j ∧ j < hi := by omega
    rw [if_neg hfirst]
    simp only [hboth]
  · have hfirst : ¬ (lo ≤ j ∧ j < mid) := by omega
    have hboth : mid ≤ j ∧ j < hi ↔ lo ≤ j ∧ j < hi := by omega
    rw [if_neg hfirst]
    simp only [hboth]

theorem mapRange_all (h : l.length ≤ hi) : mapRange 0 hi g l = l.mapIdx g := by
  refine List.ext_getElem? fun j => ?_
  rw [getElem?_mapRange, List.getElem?_mapIdx]
  by_cases hj : j < l.length
  · have hin : 0 ≤ j ∧ j < hi := ⟨Nat.zero_le _, by omega⟩
    simp [hin]
  · simp [List.getElem?_eq_none (Nat.not_lt.mp hj)]

end

/-- The loop rule: every round `i` rewrites the `k` elements from `k * i` on. -/
theorem foldlM_blocks {g : Nat → α → α} {step : List α → Nat → Except ε (List α)}
    (hstep : ∀ i, a ≤ i → i < a + n → ∀ l : List α, k * i + k ≤ l.length →
      step l i = .ok (mapRange (k * i) (k * i + k) g l)) (l : List α)
    (h : k * (a + n) ≤ l.length) :
    (List.range' a n).foldlM step l = .ok (mapRange (k * a) (k * (a + n)) g l) := by
  induction n generalizing a l with
  | zero =>
    rw [Nat.add_zero, mapRange_empty (le_refl _)]
    rfl
  | succ n ih =>
    have hfirst : k * a + k ≤ k * (a + (n + 1)) := by
      rw [← Nat.mul_succ]
      exact Nat.mul_le_mul_left k (by omega)
    have hnext : k * (a + 1) = k * a + k := Nat.mul_succ k a
    have hlast : a + 1 + n = a + (n + 1) := by omega
    rw [List.range'_succ, List.foldlM_cons, hstep a (le_refl _) (by omega) l (hfirst.trans h)]
    refine (ih (fun i hi hi' => hstep i (by omega) (by omega)) _ ?_).trans ?_
    · rw [length_mapRange, hlast]
      exact h
    · rw [hnext, hlast, mapRange_mapRange (Nat.le_add_right _ _) hfirst]

theorem foldlM_each {g : Nat → α → α} {step : List α → Nat → Except ε (List α)}
    (hstep : ∀ i, a ≤ i → i < a + n → ∀ l : List α, i + 1 ≤ l.length →
      step l i = .ok (mapRange i (i + 1) g l)) (l : List α) (h : a + n ≤ l.length) :
    (List.range' a n).foldlM step l = .ok (mapRange a (a + n) g l) := by
  have hblocks : (List.range' a n).foldlM step l = .ok (mapRange (1 * a) (1 * (a + n)) g l) := by
    refine foldlM_blocks (fun i hi hi' l hl => ?_) l ?_
    · rw [Nat.one_mul] at hl ⊢
      exact hstep i hi hi' l hl
    · rw [Nat.one_mul]
      exact h
  rwa [Nat.one_mul, Nat.one_mul] at hblocks

/-! ## What holds before and after each round -/

open Lib.Runs List

variable {σ : Type} {P : Nat → σ → Prop} {Q : ε → Prop} {step : σ → Nat → Except ε σ}

theorem post_upward (hinit : P a s)
    (hstep : ∀ i t, a ≤ i → i < a + n → P i t → Post (P (i + 1)) Q (step t i)) :
    Post (P (a + n)) Q ((range' a n).foldlM step s) := by
  induction n generalizing a s with
  | zero => exact hinit
  | succ n ih =>
    rw [range'_succ, foldlM_cons, ← Nat.succ_add_eq_add_succ]
    apply (hstep a s (le_refl a) (by omega) hinit).bind
    intro t ht
    exact ih ht fun i u hi hi' => hstep i u (by omega) (by omega)

theorem post_downward (hinit : P (a + n) s)
    (hstep : ∀ i t, a ≤ i → i < a + n → P (i + 1) t → Post (P i) Q (step t i)) :
    Post (P a) Q ((range' a n).reverse.foldlM step s) := by
  induction n generalizing s with
  | zero => exact hinit
  | succ n ih =>
    rw [range'_1_concat, reverse_append, reverse_singleton, singleton_append,
      foldlM_cons]
    apply (hstep (a + n) s (Nat.le_add_right a n) (by omega) hinit).bind
    intro t ht
    exact ih ht fun i u hi hi' => hstep i u hi (by omega)

theorem anyM_eq_ok {ι : Type} {p : ι → Except ε Bool} {q : ι → Bool} {is : List ι}
    (h : ∀ i ∈ is, p i = .ok (q i)) : is.anyM p = .ok (is.any q) := by
  induction is with
  | nil => rfl
  | cons i is ih =>
    obtain ⟨hi, his⟩ := forall_mem_cons.mp h
    unfold anyM
    rw [hi]
    cases hq : q i with
    | false =>
      rw [any_cons, hq, Bool.false_or]
      exact ih his
    | true =>
      rw [any_cons, hq]
      rfl

end Lib.RangeLoops
