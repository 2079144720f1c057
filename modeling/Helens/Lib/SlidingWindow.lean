import Mathlib.Algebra.BigOperators.Group.Finset.Piecewise
import Mathlib.Algebra.Order.Ring.Int
import Mathlib.Data.Int.ModEq

/-! Sums over a window of the last seconds, kept in a ring of slots with one second in each.
What is summed are the values of calls, each made in some second. -/

namespace Lib.SlidingWindow

open List

variable {M : Type} [AddCommMonoid M]

def sumAt (calls : List (Nat × M)) (second : Int) : M :=
  ((calls.filter fun c => (c.1 : Int) = second).map Prod.snd).sum

def sumWithin (calls : List (Nat × M)) (size last : Nat) : M :=
  ((calls.filter fun c => (last : Int) - size < c.1 ∧ c.1 ≤ last).map Prod.snd).sum

def secondOf (size last slot : Nat) : Int := last - ((last : Int) - slot) % size

variable {calls : List (Nat × M)} {c : Nat × M} {size last slot : Nat}

theorem sumAt_cons : sumAt (c :: calls) second =
    (if (c.1 : Int) = second then c.2 else 0) + sumAt calls second := by
  rw [sumAt, filter_cons]
  split
  · next h =>
    rw [if_pos (of_decide_eq_true h), map_cons, sum_cons, ← sumAt]
  · next h =>
    rw [if_neg fun heq => h (decide_eq_true heq), zero_add, ← sumAt]

theorem sumAt_append (calls calls' : List (Nat × M)) :
    sumAt (calls ++ calls') second = sumAt calls second + sumAt calls' second := by
  rw [sumAt, filter_append, map_append, sum_append, ← sumAt, ← sumAt]

theorem sumAt_eq_zero (h : ∀ c ∈ calls, (c.1 : Int) ≠ second) : sumAt calls second = 0 := by
  have hnone : calls.filter (fun c => (c.1 : Int) = second) = [] :=
    filter_eq_nil_iff.mpr fun c hc => by simpa using h c hc
  rw [sumAt, hnone]
  rfl

theorem secondOf_mem (hsize : 0 < size) (last slot : Nat) :
    (last : Int) - size < secondOf size last slot ∧ secondOf size last slot ≤ last := by
  have hpos : (0 : Int) < size := by omega
  have hlt := Int.emod_lt_of_pos ((last : Int) - slot) hpos
  have hge := Int.emod_nonneg ((last : Int) - slot) hpos.ne'
  rw [secondOf]
  omega

theorem secondOf_emod (last) (hslot : slot < size) : secondOf size last slot % size = slot := by
  rw [secondOf, Int.sub_emod, Int.emod_emod_of_dvd _ (dvd_refl _), ← Int.sub_emod, sub_sub_cancel]
  exact Int.emod_eq_of_lt (by omega) (by omega)

theorem add_le_of_emod_eq {a b : Int} (hlt : a < b) (h : a % size = b % size) : a + size ≤ b := by
  have hdvd : (size : Int) ∣ b - a := Int.ModEq.dvd h
  have hle := Int.le_of_dvd (by omega) hdvd
  omega

theorem eq_of_emod_eq {a b : Int} (ha : (last : Int) - size < a) (ha' : a ≤ last)
    (hb : (last : Int) - size < b) (hb' : b ≤ last) (h : a % size = b % size) : a = b := by
  rcases lt_trichotomy a b with hlt | heq | hgt
  · have hround := add_le_of_emod_eq hlt h
    omega
  · exact heq
  · have hround := add_le_of_emod_eq hgt h.symm
    omega

/-! ## Going on to a later second -/

theorem lt_secondOf (hsize : 0 < size) {passed : Nat} (hfrom : last < passed) (hto : passed ≤ now) :
    (last : Int) < secondOf size now (passed % size) := by
  obtain ⟨hlow, -⟩ := secondOf_mem hsize now (passed % size)
  by_contra hearly
  have hsame : secondOf size now (passed % size) % size = (passed : Int) % size := by
    rw [secondOf_emod now (Nat.mod_lt passed hsize)]
    exact Int.natCast_emod passed size
  have hround := add_le_of_emod_eq (by omega) hsame
  omega

theorem secondOf_eq (hslot : slot < size) (hle : last ≤ now)
    (hnone : ∀ p, last < p → p ≤ last + size → p ≤ now → p % size ≠ slot) :
    secondOf size now slot = secondOf size last slot := by
  have hsize := Nat.zero_lt_of_lt hslot
  obtain ⟨hlow, hhigh⟩ := secondOf_mem hsize now slot
  obtain ⟨hlow', hhigh'⟩ := secondOf_mem hsize last slot
  have hmod := secondOf_emod now hslot
  have hearly : secondOf size now slot ≤ last := by
    by_contra hlater
    -- the first second with this slot after the old window
    obtain ⟨hfirst, hround⟩ := secondOf_mem hsize (last + size) slot
    have hfirstmod := secondOf_emod (last + size) hslot
    obtain ⟨p, hp⟩ := Int.eq_ofNat_of_zero_le (a := secondOf size (last + size) slot) (by omega)
    rw [hp] at hfirst hround hfirstmod
    have hple : (p : Int) ≤ secondOf size now slot := by
      by_contra hgt
      have hlast := add_le_of_emod_eq (not_le.mp hgt) (hmod.trans hfirstmod.symm)
      omega
    exact hnone p (by omega) (by omega) (by omega) (by omega)
  apply eq_of_emod_eq (by omega) hearly hlow' hhigh'
  rw [hmod, secondOf_emod last hslot]

/-! ## The window -/

theorem sumWithin_cons : sumWithin (c :: calls) size last =
    (if (last : Int) - size < c.1 ∧ c.1 ≤ last then c.2 else 0) + sumWithin calls size last := by
  rw [sumWithin, filter_cons]
  split
  · next h =>
    rw [if_pos (of_decide_eq_true h), map_cons, sum_cons, ← sumWithin]
  · next h =>
    rw [if_neg fun heq => h (decide_eq_true heq), zero_add, ← sumWithin]

theorem sum_slots_of_call (hsize : 0 < size) (n : Nat) (x : M) :
    ∑ slot ∈ Finset.range size, (if (n : Int) = secondOf size last slot then x else 0) =
      if (last : Int) - size < n ∧ n ≤ last then x else 0 := by
  split
  · next hin =>
    rw [Finset.sum_eq_single (n % size)]
    · have hmod : secondOf size last (n % size) = n := by
        obtain ⟨hlow, hhigh⟩ := secondOf_mem hsize last (n % size)
        apply eq_of_emod_eq hlow hhigh hin.1 (by omega)
        rw [secondOf_emod last (Nat.mod_lt n hsize)]
        exact Int.natCast_emod n size
      rw [if_pos hmod.symm]
    · intro slot hslot hne
      refine if_neg fun heq => hne ?_
      have hmod := secondOf_emod last (Finset.mem_range.mp hslot)
      rw [← heq] at hmod
      omega
    · intro hout
      exact absurd (Finset.mem_range.mpr (Nat.mod_lt n hsize)) hout
  · next hout =>
    apply Finset.sum_eq_zero
    intro slot hslot
    refine if_neg fun heq => hout ?_
    obtain ⟨hlow, hhigh⟩ := secondOf_mem hsize last slot
    omega

theorem sum_sumAt (hsize : 0 < size) (last : Nat) (calls : List (Nat × M)) :
    ∑ slot ∈ Finset.range size, sumAt calls (secondOf size last slot) =
      sumWithin calls size last := by
  induction calls with
  | nil => exact Finset.sum_eq_zero fun _ _ => rfl
  | cons c calls ih =>
    simp only [sumAt_cons, Finset.sum_add_distrib, sumWithin_cons]
    rw [sum_slots_of_call hsize, ih]

end Lib.SlidingWindow
