import Mathlib.Data.List.TakeWhile

/-! Texts that are cut at the first occurrence of a character. -/

namespace Lib.Cuts
open List

variable {α : Type} [DecidableEq α] {a : α} {k : List α}

theorem cut_of_notMem (h : a ∉ k) : k.takeWhile (· != a) = k ∧ k.dropWhile (· != a) = [] := by
  have hk : ∀ x ∈ k, (x != a) = true := fun x hx => by
    simp only [bne_iff_ne]
    rintro rfl
    exact h hx
  exact ⟨takeWhile_eq_self_iff.mpr hk, dropWhile_eq_nil_iff.mpr hk⟩

theorem cut_append (h : a ∉ k) (v) :
    (k ++ a :: v).takeWhile (· != a) = k ∧ (k ++ a :: v).dropWhile (· != a) = a :: v := by
  obtain ⟨htake, hdrop⟩ := cut_of_notMem h
  simp [takeWhile_append, dropWhile_append, htake, hdrop]

end Lib.Cuts
