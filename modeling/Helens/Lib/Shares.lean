import Mathlib.Algebra.GroupWithZero.Nat
import Mathlib.Algebra.Order.BigOperators.Group.List
import Mathlib.Algebra.Order.Group.Nat
import Mathlib.Order.Interval.Finset.Nat

/-! Weights laid end to end: every number below their sum is in the share of one of them. -/

namespace Lib.Shares
open List

def InShare (ws : List Nat) (i r : Nat) : Prop :=
  (ws.take i).sum ≤ r ∧ r < (ws.take (i + 1)).sum
  deriving Decidable

variable {ws : List Nat} {i j r w : Nat}

theorem sum_take_mono (ws : List Nat) (h : i ≤ j) : (ws.take i).sum ≤ (ws.take j).sum := by
  rw [← Nat.min_eq_left h, ← take_take]
  exact (take_sublist i (ws.take j)).sum_le_sum fun _ _ => Nat.zero_le _

theorem sum_take_le (ws : List Nat) (i) : (ws.take i).sum ≤ ws.sum :=
  (take_sublist i ws).sum_le_sum fun _ _ => Nat.zero_le _

theorem sum_take_succ (hw : ws[i]? = some w) : (ws.take (i + 1)).sum = (ws.take i).sum + w := by
  rw [take_add_one, hw, sum_append]
  rfl

theorem InShare.lt_length (h : InShare ws i r) : i < ws.length := by
  by_contra hge
  have hsame : ws.take (i + 1) = ws.take i := by
    rw [take_of_length_le (by omega), take_of_length_le (by omega)]
  obtain ⟨hlow, hhigh⟩ := h
  rw [hsame] at hhigh
  omega

theorem InShare.unique (hi : InShare ws i r) (hj : InShare ws j r) : i = j := by
  rcases lt_trichotomy i j with hlt | heq | hgt
  · have hle := (hi.2.trans_le (sum_take_mono ws hlt)).trans_le hj.1
    omega
  · exact heq
  · have hle := (hj.2.trans_le (sum_take_mono ws hgt)).trans_le hi.1
    omega

theorem card_inShare (hw : ws[i]? = some w) :
    ((Finset.range ws.sum).filter (InShare ws i)).card = w := by
  have hshare : (Finset.range ws.sum).filter (InShare ws i) =
      Finset.Ico (ws.take i).sum (ws.take (i + 1)).sum := by
    ext r
    rw [Finset.mem_filter, Finset.mem_range, Finset.mem_Ico]
    exact ⟨fun h => h.2, fun h => ⟨h.2.trans_le (sum_take_le ws (i + 1)), h⟩⟩
  rw [hshare, Nat.card_Ico, sum_take_succ hw]
  omega

end Lib.Shares
