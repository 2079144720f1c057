import Helens.HashTable

/-! The numbers of elements that reach `basket`, from the constructors of the hash containers
and from the rehash of a table, and the number of buckets it gives for them. -/

namespace Helens.Ds

open Lib.Runs

variable {K β : Type}

/-! ## The calls -/

inductive Container
  | hashMap
  | dict
  | hashMultimap

def Container.defaultSize : Container → Nat
  | .hashMap => 0
  | .dict => 0
  | .hashMultimap => 10

inductive BasketCall (K β : Type)
  | construct (c : Container) (size : Option Nat)
  | rehash (t : Table K β)

def BasketCall.count : BasketCall K β → Nat
  | .construct c size => size.getD c.defaultSize
  | .rehash t => t.total

def BasketCall.Made : BasketCall K β → Prop
  | .construct _ size => ∀ n ∈ size, n < 2 ^ 32
  | .rehash t => t.needRehash = true ∧ t.total < 2 ^ 64

/-- The container has a number of buckets that is neither 0 nor 2³¹, and so has a rehashed table. -/
def BasketCall.Defined : BasketCall K β → Prop
  | .construct c size => size.getD c.defaultSize ≠ 0 ∧ size.getD c.defaultSize ≠ 2 ^ 31
  | .rehash t => t.total < 2 ^ 31 ∨ t.total % 2 ^ 32 ≠ 0 ∧ t.total % 2 ^ 32 ≠ 2 ^ 31

/-! ## The number of buckets -/

theorem asInt_eq_zero_iff (n) : asInt n = 0 ↔ n % 2 ^ 32 = 0 := by
  rw [asInt, BitVec.toInt_eq_toNat_cond, BitVec.toNat_ofNat]
  split <;> omega

theorem asInt_eq_min_iff (n) : asInt n = -2 ^ 31 ↔ n % 2 ^ 32 = 2 ^ 31 := by
  rw [asInt, BitVec.toInt_eq_toNat_cond, BitVec.toNat_ofNat]
  split <;> omega

theorem basketShift_isOk_iff (n) :
    (∃ e, basketShift (asInt n) = .ok e) ↔ n % 2 ^ 32 ≠ 0 ∧ n % 2 ^ 32 ≠ 2 ^ 31 := by
  rw [← not_or, ← asInt_eq_zero_iff, ← asInt_eq_min_iff, basketShift]
  split
  · next hundefined =>
    refine iff_of_false ?_ fun hdefined => hdefined hundefined
    rintro ⟨e, he⟩
    cases he
  · next hdefined => exact iff_of_true ⟨_, rfl⟩ hdefined

theorem basketShift_le (h : basketShift n = .ok e) : e ≤ 30 := by
  unfold basketShift at h
  split at h
  · cases h
  · rw [← Except.ok.inj h]
    exact Nat.min_le_right _ _

theorem lt_two_pow_basketShift (h : basketShift (asInt n) = .ok e) (hpos : 1 ≤ n)
    (hlt : n < 2 ^ 30) : n < 2 ^ e ∧ 2 ^ e ≤ 2 * n := by
  have hlog : n.log2 + 1 ≤ 30 := (Nat.log2_lt (by omega)).mpr hlt
  rw [asInt_of_lt (by omega), basketShift, if_neg (by omega), Int.natAbs_natCast,
    Nat.min_eq_left hlog] at h
  rw [← Except.ok.inj h]
  refine ⟨Nat.lt_log2_self, ?_⟩
  have hle := Nat.log2_self_le (n := n) (by omega)
  rw [Nat.pow_succ]
  omega

theorem BasketCall.defined_iff (c : BasketCall K β) (hmade : c.Made) :
    c.Defined ↔ c.count % 2 ^ 32 ≠ 0 ∧ c.count % 2 ^ 32 ≠ 2 ^ 31 := by
  cases c with
  | construct c size =>
    have hlt : size.getD c.defaultSize < 2 ^ 32 := by
      cases size with
      | none => cases c <;> decide
      | some n => exact hmade n rfl
    rw [Defined, count, Nat.mod_eq_of_lt hlt]
  | rehash t =>
    have hpos := Table.needRehash_pos hmade.1
    rw [Defined, count]
    omega

/-- The shift is between 0 and 30 and the number of buckets the right power of two exactly if the
call is defined. -/
theorem basket_in_range_iff (c : BasketCall K β) (hmade : c.Made) :
    (∃ e, basketShift (asInt c.count) = .ok e ∧ e ≤ 30 ∧ basket (asInt c.count) = .ok (2 ^ e) ∧
      1 ≤ 2 ^ e ∧
      (1 ≤ c.count → c.count < 2 ^ 30 → c.count < 2 ^ e ∧ 2 ^ e ≤ 2 * c.count)) ↔ c.Defined := by
  rw [c.defined_iff hmade, ← basketShift_isOk_iff]
  apply exists_congr
  intro e
  constructor
  · exact fun h => h.1
  · intro he
    refine ⟨he, basketShift_le he, ?_, Nat.one_le_two_pow, lt_two_pow_basketShift he⟩
    rw [basket, he]
    rfl

theorem basket_in_range_iff_ten :
    (BasketCall.construct .hashMultimap none : BasketCall Nat Nat).Made ∧
    ∃ e, basketShift (asInt 10) = .ok e ∧ e ≤ 30 ∧ basket (asInt 10) = .ok (2 ^ e) := by
  have hmade : (BasketCall.construct .hashMultimap none : BasketCall Nat Nat).Made := nofun
  refine ⟨hmade, ?_⟩
  obtain ⟨e, he, hle, hbasket, -⟩ :=
    (basket_in_range_iff _ hmade).mpr ⟨by decide, by decide⟩
  exact ⟨e, he, hle, hbasket⟩

/-- The default arguments of `HashMap` and `Dict`. -/
theorem basket_of_default_undefined :
    (BasketCall.construct .hashMap none : BasketCall Nat Nat).count = 0 ∧
    (BasketCall.construct .dict none : BasketCall Nat Nat).count = 0 ∧
    basketShift (asInt 0) = .error .undefinedBasket ∧
    basket (asInt 0) = .error .undefinedBasket := by
  decide

end Helens.Ds
