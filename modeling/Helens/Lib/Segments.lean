import Mathlib.Tactic.Common

/-! A byte stream that arrives in pieces. A read takes at most one piece, and of
it at most what the reader has room for; a write is taken in parts whose sizes
the other side chooses. -/

namespace Lib.Segments

open List

variable {α : Type}

def recv (n : Nat) : List (List α) → List α × List (List α)
  | [] => ([], [])
  | [] :: segs => recv n segs
  | (a :: s) :: segs => ((a :: s).take n, (a :: s).drop n :: segs)

variable (n : Nat)

theorem recv_flatten (segs : List (List α)) :
    (recv n segs).1 ++ (recv n segs).2.flatten = segs.flatten := by
  induction segs with
  | nil => rfl
  | cons s segs ih =>
    cases s with
    | nil => simpa [recv] using ih
    | cons a s =>
      change (a :: s).take n ++ ((a :: s).drop n ++ segs.flatten) = (a :: s) ++ segs.flatten
      rw [← append_assoc, take_append_drop]

theorem length_recv_le (segs : List (List α)) : (recv n segs).1.length ≤ n := by
  induction segs with
  | nil => exact Nat.zero_le _
  | cons s segs ih =>
    cases s with
    | nil => exact ih
    | cons a s => exact length_take_le _ _

theorem recv_ne_nil {n : Nat} (hn : 0 < n) (h : segs.flatten ≠ []) : (recv n segs).1 ≠ [] := by
  induction segs with
  | nil => exact absurd rfl h
  | cons s segs ih =>
    cases s with
    | nil => exact ih (by simpa using h)
    | cons a s =>
      obtain ⟨n, rfl⟩ : ∃ m, n = m + 1 := ⟨n - 1, by omega⟩
      simp [recv]

/-! ## Positions -/

def advance : Nat → List (List α) → List (List α)
  | _, [] => []
  | k, s :: segs => if k < s.length then s.drop k :: segs else advance (k - s.length) segs

theorem advance_flatten (k) (segs : List (List α)) :
    (advance k segs).flatten = segs.flatten.drop k := by
  induction segs generalizing k with
  | nil => simp [advance]
  | cons s segs ih =>
    rw [advance, flatten_cons]
    by_cases hk : k < s.length
    · rw [if_pos hk, flatten_cons, drop_append_of_le_length (by omega)]
    · rw [if_neg hk, ih]
      obtain ⟨j, rfl⟩ := Nat.exists_eq_add_of_le (Nat.le_of_not_lt hk)
      rw [Nat.add_sub_cancel_left, drop_length_add_append]

theorem advance_advance (j k : Nat) (segs : List (List α)) :
    advance j (advance k segs) = advance (k + j) segs := by
  induction segs generalizing k with
  | nil => rfl
  | cons s segs ih =>
    rw [advance, advance]
    by_cases hk : k < s.length
    · rw [if_pos hk, advance, length_drop, drop_drop]
      by_cases hj : j < s.length - k
      · rw [if_pos hj, if_pos (by omega)]
      · rw [if_neg hj, if_neg (by omega)]
        congr 1
        omega
    · rw [if_neg hk, if_neg (by omega), ih]
      congr 1
      omega

theorem recv_advance_zero (segs : List (List α)) : recv n (advance 0 segs) = recv n segs := by
  induction segs with
  | nil => rfl
  | cons s segs ih =>
    cases s with
    | nil => simpa [advance, recv] using ih
    | cons a s => simp [advance]

theorem advance_recv (segs : List (List α)) :
    advance 0 (recv n segs).2 = advance (recv n segs).1.length segs := by
  induction segs with
  | nil => rfl
  | cons s segs ih =>
    cases s with
    | nil => simpa [advance, recv] using ih
    | cons a s =>
      change advance 0 ((a :: s).drop n :: segs) = advance ((a :: s).take n).length
        ((a :: s) :: segs)
      rw [advance, advance, length_take, length_drop]
      by_cases hn : n < (a :: s).length
      · rw [if_pos (by omega), if_pos (by omega), drop_zero, Nat.min_eq_left (by omega)]
      · rw [if_neg (by omega), if_neg (by omega)]
        congr 1
        omega

/-! ## Writes -/

def grant (quota : List Nat) (n : Nat) : Nat :=
  match quota with
  | [] => n
  | k :: _ => min n (k + 1)

theorem grant_le (quota n) : grant quota n ≤ n := by
  cases quota with
  | nil => exact Nat.le_refl n
  | cons k quota => exact Nat.min_le_left _ _

theorem grant_pos (quota) {n : Nat} (hn : 0 < n) : 0 < grant quota n := by
  cases quota with
  | nil => exact hn
  | cons k quota => exact Nat.lt_min.mpr ⟨hn, Nat.succ_pos k⟩

end Lib.Segments
