import Mathlib.Data.List.Basic
import Mathlib.Order.Lattice
import Mathlib.Order.Nat

/-! Lists in the strict order of a comparison, and the place of a value among them. The
comparison is a strict weak order, so that a value may be equivalent to another one. -/

namespace Lib.BinarySearch

open List

variable {α : Type} (r : α → α → Prop) [DecidableRel r]

def place (l : List α) (v : α) : Nat := l.countP fun x => r x v

def Equivalent (x v : α) : Prop := ¬ r x v ∧ ¬ r v x

instance (x v : α) : Decidable (Equivalent r x v) :=
  inferInstanceAs (Decidable (¬ r x v ∧ ¬ r v x))

instance isStrictWeakOrder_lt [LinearOrder α] : IsStrictWeakOrder α fun a b => a < b :=
  isStrictWeakOrder_of_isOrderConnected

variable {r} {l : List α} {v x : α} {i : Nat}

theorem place_le_length (l : List α) (v) : place r l v ≤ l.length := countP_le_length

section
variable [IsStrictWeakOrder α r]

theorem lt_place_iff (hl : l.Pairwise r) (hx : l[i]? = some x) : i < place r l v ↔ r x v := by
  induction l generalizing i with
  | nil => cases hx
  | cons a l ih =>
    obtain ⟨ha, hl⟩ := pairwise_cons.mp hl
    by_cases hav : r a v
    · rw [place, countP_cons_of_pos (by simpa using hav), ← place]
      cases i with
      | zero =>
        obtain rfl : a = x := Option.some.inj hx
        exact iff_of_true (Nat.succ_pos _) hav
      | succ i => rw [Nat.add_lt_add_iff_right, ih hl hx]
    · -- nothing behind the first element is below the value
      have hnone : ∀ y ∈ a :: l, ¬ r y v := by
        intro y hy hyv
        rcases mem_cons.mp hy with rfl | hy
        · exact hav hyv
        · exact hav (trans_of r (ha y hy) hyv)
      have hzero : place r (a :: l) v = 0 :=
        countP_eq_zero.mpr fun y hy => by simpa using hnone y hy
      rw [hzero]
      exact iff_of_false (Nat.not_lt_zero _) (hnone x (mem_of_getElem? hx))

theorem Equivalent.eq_place (h : Equivalent r x v) (hl : l.Pairwise r) (hx : l[i]? = some x) :
    i = place r l v := by
  have hle : place r l v ≤ i := not_lt.mp fun hlt => h.1 ((lt_place_iff hl hx).mp hlt)
  rcases hle.eq_or_lt with heq | hlt
  · exact heq.symm
  · -- the element in the place would be below this one
    obtain ⟨hi, rfl⟩ := List.getElem?_eq_some_iff.mp hx
    have hy := getElem?_eq_getElem (hlt.trans hi)
    have hless := pairwise_iff_getElem.mp hl _ _ (hlt.trans hi) hi hlt
    have hnot : ¬ r (l[place r l v]) v := fun hr => lt_irrefl _ ((lt_place_iff hl hy).mpr hr)
    by_cases habove : r v (l[place r l v])
    · exact absurd (trans_of r habove hless) h.2
    · have hsame := IsStrictWeakOrder.incomp_trans _ _ _ ⟨hnot, habove⟩ ⟨h.2, h.1⟩
      exact absurd hless hsame.1

theorem above_or_equivalent (hl : l.Pairwise r) (hx : l[i]? = some x) (hle : place r l v ≤ i) :
    r v x ∨ Equivalent r x v := by
  have hnot : ¬ r x v := fun hr => absurd ((lt_place_iff hl hx).mpr hr) (not_lt.mpr hle)
  by_cases habove : r v x
  · exact .inl habove
  · exact .inr ⟨hnot, habove⟩

theorem pairwise_insert (hl : l.Pairwise r) (hnone : ∀ x ∈ l, ¬ Equivalent r x v) :
    (l.take (place r l v) ++ v :: l.drop (place r l v)).Pairwise r := by
  have hbefore : ∀ x ∈ l.take (place r l v), r x v := by
    intro x hx
    obtain ⟨i, hi⟩ := getElem?_of_mem hx
    rw [getElem?_take, Option.ite_none_right_eq_some] at hi
    exact (lt_place_iff hl hi.2).mp hi.1
  have hbehind : ∀ x ∈ l.drop (place r l v), r v x := by
    intro x hx
    obtain ⟨i, hi⟩ := getElem?_of_mem hx
    rw [getElem?_drop] at hi
    rcases above_or_equivalent hl hi (Nat.le_add_right _ _) with habove | hequivalent
    · exact habove
    · exact absurd hequivalent (hnone x (mem_of_getElem? hi))
  refine pairwise_append.mpr ⟨hl.sublist (take_sublist _ _), ?_, ?_⟩
  · exact pairwise_cons.mpr ⟨hbehind, hl.sublist (drop_sublist _ _)⟩
  · intro x hx y hy
    rcases mem_cons.mp hy with rfl | hy
    · exact hbefore x hx
    · exact trans_of r (hbefore x hx) (hbehind y hy)

end

end Lib.BinarySearch
