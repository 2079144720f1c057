import Mathlib.Order.Lattice
import Mathlib.Data.List.Pairwise
import Mathlib.Tactic.Common

/-! Ordered sets kept as lists, with the comparator passed to each operation, for elements whose
order may change with what they refer to. The lemmas ask that the comparator is, at that moment, the
order of a key. -/

namespace Lib.OrderedSet

open List

variable {α : Type}

/-! ## Operations -/

/-- The position of the first element that is not below a bound, as what is left
from there on. -/
def lowerBound (below : α → Bool) (l : List α) : List α := l.dropWhile below

def find (lt : α → α → Bool) (x : α) (l : List α) : Option α :=
  match lowerBound (fun y => lt y x) l with
  | [] => none
  | y :: _ => if lt x y then none else some y

def insert (lt : α → α → Bool) (x : α) : List α → List α
  | [] => [x]
  | y :: ys =>
    if lt x y then x :: y :: ys
    else if lt y x then y :: insert lt x ys
    else y :: ys

def Ordered (lt : α → α → Bool) (l : List α) : Prop := l.Pairwise fun x y => lt x y = true

theorem head?_insert (lt : α → α → Bool) (x l) :
    (insert lt x l).head? = some x ∨ ∃ y ∈ l, (insert lt x l).head? = some y := by
  cases l with
  | nil => exact .inl rfl
  | cons y ys =>
    unfold insert
    split
    · exact .inl rfl
    · right
      refine ⟨y, mem_cons_self, ?_⟩
      split <;> rfl

variable {l : List α}

theorem mem_of_mem_insert {lt : α → α → Bool} (h : z ∈ insert lt x l) : z = x ∨ z ∈ l := by
  induction l with
  | nil => exact .inl (mem_singleton.mp h)
  | cons y ys ih =>
    unfold insert at h
    split at h
    · exact mem_cons.mp h
    · split at h
      · rcases mem_cons.mp h with rfl | h
        · exact .inr mem_cons_self
        · exact (ih h).imp_right (mem_cons_of_mem _)
      · exact .inr h

/-! ## Splitting in order -/

/-- In a list whose first part satisfies `P`, that is where it is split. -/
theorem dropWhile_eq_filter {P : α → Bool} (h : l.Pairwise fun x y => P y = true → P x = true) :
    l.dropWhile P = l.filter fun x => !P x := by
  induction l with
  | nil => rfl
  | cons x l ih =>
    obtain ⟨hx, hl⟩ := pairwise_cons.mp h
    by_cases hP : P x = true
    · rw [dropWhile_cons_of_pos hP, filter_cons_of_neg (by simp [hP])]
      exact ih hl
    · have hrest : ∀ y ∈ l, (!P y) = true := by
        intro y hy
        rw [Bool.not_eq_true']
        exact Bool.eq_false_iff.mpr fun hy' => hP (hx y hy hy')
      rw [dropWhile_cons_of_neg hP, filter_cons_of_pos (by simpa using hP),
        filter_eq_self.mpr hrest]

theorem takeWhile_eq_filter {P : α → Bool}
    (h : l.Pairwise fun x y => P y = true → P x = true) : l.takeWhile P = l.filter P := by
  induction l with
  | nil => rfl
  | cons x l ih =>
    obtain ⟨hx, hl⟩ := pairwise_cons.mp h
    by_cases hP : P x = true
    · rw [takeWhile_cons_of_pos hP, filter_cons_of_pos hP, ih hl]
    · have hrest : ∀ y ∈ l, ¬ P y = true := fun y hy hy' => hP (hx y hy hy')
      rw [takeWhile_cons_of_neg hP, filter_cons_of_neg hP, filter_eq_nil_iff.mpr hrest]

/-! ## The order of a key -/

section
variable {κ : Type} [LinearOrder κ] {key : α → κ} {lt : α → α → Bool}
variable (hlt : ∀ x y, lt x y = true ↔ key x < key y)
include hlt

theorem Ordered.find_of_key_eq (h : Ordered lt l) (hy : y ∈ l)
    (hkey : key y = key x) : find lt x l = some y := by
  induction l with
  | nil => cases hy
  | cons z zs ih =>
    obtain ⟨hz, hzs⟩ := pairwise_cons.mp h
    rcases mem_cons.mp hy with rfl | hy'
    · have hbelow : lt y x = false := by
        rw [Bool.eq_false_iff, ne_eq, hlt, hkey]
        exact lt_irrefl _
      have habove : lt x y = false := by
        rw [Bool.eq_false_iff, ne_eq, hlt, hkey]
        exact lt_irrefl _
      simp [find, lowerBound, hbelow, habove]
    · have hzx : lt z x = true := by
        rw [hlt, ← hkey, ← hlt]
        exact hz y hy'
      have hrest := ih hzs hy'
      simp only [find, lowerBound, dropWhile_cons, hzx, ↓reduceIte] at hrest ⊢
      exact hrest

theorem Ordered.find_mem (h : Ordered lt l) (hx : x ∈ l) :
    find lt x l = some x := h.find_of_key_eq hlt hx rfl

theorem find_eq_some (h : find lt x l = some y) : y ∈ l ∧ key y = key x := by
  induction l with
  | nil => cases h
  | cons z zs ih =>
    by_cases hzx : lt z x = true
    · have hrest : find lt x zs = some y := by
        simpa only [find, lowerBound, dropWhile_cons, hzx, ↓reduceIte] using h
      exact ⟨mem_cons_of_mem _ (ih hrest).1, (ih hrest).2⟩
    · by_cases hxz : lt x z = true
      · simp [find, lowerBound, hzx, hxz] at h
      · obtain rfl : z = y := by simpa [find, lowerBound, hzx, hxz] using h
        rw [hlt] at hzx hxz
        exact ⟨mem_cons_self, le_antisymm (not_lt.mp hxz) (not_lt.mp hzx)⟩

theorem Ordered.eq_of_key_eq (h : Ordered lt l) (hx : x ∈ l) (hy : y ∈ l)
    (hkey : key x = key y) : x = y := by
  have hne : l.Pairwise fun x y => key x ≠ key y :=
    h.imp fun hxy => ne_of_lt ((hlt _ _).mp hxy)
  have : Std.Symm fun x y : α => key x ≠ key y := ⟨fun _ _ hxy => hxy.symm⟩
  by_contra hdiff
  exact hne.forall hx hy hdiff hkey

theorem mem_insert (hx : ∀ y ∈ l, key y ≠ key x) (z) : z ∈ insert lt x l ↔ z = x ∨ z ∈ l := by
  induction l with
  | nil => simp [insert]
  | cons y ys ih =>
    obtain ⟨hne, hrest⟩ := forall_mem_cons.mp hx
    unfold insert
    split
    · simp
    · rename_i hxy
      have hyx : lt y x = true := by
        rw [hlt] at hxy ⊢
        exact lt_of_le_of_ne (not_lt.mp hxy) hne
      rw [if_pos hyx, mem_cons, ih hrest, mem_cons]
      exact or_left_comm

theorem Ordered.insert (h : Ordered lt l) (x) : Ordered lt (insert lt x l) := by
  induction l with
  | nil => exact pairwise_singleton _ _
  | cons y ys ih =>
    obtain ⟨hy, hys⟩ := pairwise_cons.mp h
    unfold OrderedSet.insert
    split
    · rename_i hxy
      refine pairwise_cons.mpr ⟨?_, h⟩
      intro z hz
      rcases mem_cons.mp hz with rfl | hz'
      · exact hxy
      · have hyz := hy z hz'
        rw [hlt] at hxy hyz ⊢
        exact lt_trans hxy hyz
    · split
      · rename_i hyx
        refine pairwise_cons.mpr ⟨?_, ih hys⟩
        intro z hz
        rcases mem_of_mem_insert hz with rfl | hz'
        · exact hyx
        · exact hy z hz'
      · exact h

end

end Lib.OrderedSet
