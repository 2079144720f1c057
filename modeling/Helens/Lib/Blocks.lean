import Mathlib.Data.List.Basic

/-! Flat memory as a list, and the same memory cut into blocks of one size. A store (`overwrite`) or
a load (`slice`) inside one block is the same one at the block's offset in the flat memory. -/

namespace Lib.Blocks

open List

variable {α : Type*}

/-- The `n` cells that start at offset `p`. -/
def slice (l : List α) (p n : Nat) : List α := (l.drop p).take n

def overwrite (l : List α) (p : Nat) (d : List α) : List α :=
  l.take p ++ d ++ l.drop (p + d.length)

/-! ## Loads -/

@[simp] theorem slice_zero (l : List α) (p : Nat) : slice l p 0 = [] := by
  simp [slice]

theorem length_slice (l : List α) (p n) (h : p + n ≤ l.length) : (slice l p n).length = n := by
  simp only [slice, length_take, length_drop]; omega

theorem slice_add (l : List α) (p m n : Nat) :
    slice l p (m + n) = slice l p m ++ slice l (p + m) n := by
  simp only [slice, take_add, drop_drop]

theorem slice_append_left (l r : List α) (p n) (h : p + n ≤ l.length) :
    slice (l ++ r) p n = slice l p n := by
  simp only [slice]
  rw [drop_append_of_le_length (by omega), take_append_of_le_length]
  simp only [length_drop]; omega

theorem take_slice (l : List α) (p n k : Nat) : (slice l p n).take k = slice l p (min k n) := by
  simp [slice, take_take]

theorem drop_slice (l : List α) (p n k : Nat) : (slice l p n).drop k = slice l (p + k) (n - k) := by
  simp [slice, drop_take, drop_drop]

/-! ## Stores -/

@[simp] theorem overwrite_nil (l : List α) (p : Nat) : overwrite l p [] = l := by
  simp [overwrite]

variable (l d : List α)

theorem length_overwrite (p) (h : p + d.length ≤ l.length) :
    (overwrite l p d).length = l.length := by
  simp only [overwrite, length_append, length_take, length_drop]; omega

theorem drop_overwrite (p) (h : p ≤ l.length) :
    (overwrite l p d).drop p = d ++ l.drop (p + d.length) := by
  rw [overwrite, append_assoc, drop_append_of_le_length (by simp; omega)]
  simp

theorem take_overwrite (p) (h : p ≤ l.length) : (overwrite l p d).take p = l.take p := by
  rw [overwrite, append_assoc, take_append_of_le_length (by simp; omega), take_take, Nat.min_self]

theorem take_add_overwrite (p) (h : p ≤ l.length) :
    (overwrite l p d).take (p + d.length) = l.take p ++ d := by
  rw [take_add, take_overwrite l d p h, drop_overwrite l d p h]
  simp

theorem overwrite_overwrite (l d e : List α) (p) (hp : p ≤ l.length) :
    overwrite (overwrite l p d) (p + d.length) e = overwrite l p (d ++ e) := by
  have hd : (overwrite l p d).drop (p + d.length + e.length)
      = l.drop (p + d.length + e.length) := by
    rw [Nat.add_assoc, ← drop_drop, drop_overwrite l d p hp, ← drop_drop,
      drop_left, drop_drop, Nat.add_assoc]
  rw [overwrite, take_add_overwrite l d p hp, hd]
  simp [overwrite, Nat.add_assoc]

/-- A store into the first `n` cells, which may reach beyond them, seen in the cells up to its
end. -/
theorem take_max_overwrite (hp : p ≤ n) (hn : n ≤ l.length) :
    (overwrite l p d).take (max n (p + d.length)) = overwrite (l.take n) p d := by
  have hfront : (l.take p ++ d).length = p + d.length := by
    rw [length_append, length_take]
    omega
  have hmax : max n (p + d.length) = (l.take p ++ d).length + (n - (p + d.length)) := by
    omega
  rw [overwrite, hmax, take_length_add_append, overwrite, take_take, Nat.min_eq_left hp, drop_take]

theorem getElem?_overwrite (p i) (h : p + d.length ≤ l.length)
    (hi : i < p ∨ p + d.length ≤ i) : (overwrite l p d)[i]? = l[i]? := by
  rcases hi with hi | hi
  · rw [overwrite, append_assoc, getElem?_append_left (by simp; omega),
      getElem?_take_of_lt hi]
  · rw [overwrite, getElem?_append_right (by simp; omega), getElem?_drop]
    congr 1
    simp only [length_append, length_take]
    omega

theorem overwrite_append_left (l r d : List α) (p) (h : p + d.length ≤ l.length) :
    overwrite (l ++ r) p d = overwrite l p d ++ r := by
  simp only [overwrite]
  rw [take_append_of_le_length (by omega), drop_append_of_le_length (by omega)]
  simp

theorem overwrite_append_right (l r d : List α) (p) :
    overwrite (l ++ r) (l.length + p) d = l ++ overwrite r p d := by
  simp only [overwrite]
  rw [take_length_add_append, Nat.add_assoc, drop_length_add_append]
  simp

/-! ## Blocks of one size -/

def Uniform (b : Nat) (bs : List (List α)) : Prop := ∀ x ∈ bs, x.length = b

theorem Uniform.append {bs cs : List (List α)} (hb : Uniform b bs)
    (hc : Uniform b cs) : Uniform b (bs ++ cs) := by
  intro x hx
  rcases mem_append.mp hx with h | h
  · exact hb x h
  · exact hc x h

theorem Uniform.take (hb : Uniform b bs) (n) :
    Uniform b (bs.take n) := fun x hx => hb x (mem_of_mem_take hx)

theorem Uniform.drop (hb : Uniform b bs) (n) :
    Uniform b (bs.drop n) := fun x hx => hb x (mem_of_mem_drop hx)

theorem Uniform.set (hb : Uniform b bs) (i)
    (x : List α) (hx : x.length = b) : Uniform b (bs.set i x) := by
  intro y hy
  rcases mem_or_eq_of_mem_set hy with h | h
  · exact hb y h
  · rw [h]; exact hx

theorem Uniform.length_flatten (hb : Uniform b bs) : bs.flatten.length = b * bs.length := by
  induction bs with
  | nil => simp
  | cons x bs ih =>
    have hx := hb x (by simp)
    have ht := ih (fun y hy => hb y (by simp [hy]))
    simp only [flatten_cons, length_append, length_cons, Nat.mul_succ]
    omega

theorem flatten_split (bs : List (List α)) (i x) (h : bs[i]? = some x) :
    bs.flatten = (bs.take i).flatten ++ (x ++ (bs.drop (i + 1)).flatten) := by
  obtain ⟨hi, hx⟩ := List.getElem?_eq_some_iff.mp h
  have hs : bs = bs.take i ++ x :: bs.drop (i + 1) := by
    rw [← hx, getElem_cons_drop, take_append_drop]
  conv => lhs; rw [hs]
  simp

theorem Uniform.length_take_flatten (hb : Uniform b bs) (hi : i ≤ bs.length) :
    (bs.take i).flatten.length = b * i := by
  rw [(hb.take i).length_flatten, length_take, Nat.min_eq_left hi]

theorem Uniform.flatten_drop (hb : Uniform b bs)
    (hi : i ≤ bs.length) : (bs.drop i).flatten = bs.flatten.drop (b * i) := by
  have hsplit : bs.flatten = (bs.take i).flatten ++ (bs.drop i).flatten := by
    rw [← flatten_append, take_append_drop]
  rw [hsplit, ← hb.length_take_flatten hi, drop_left]

theorem slice_flatten (hb : Uniform b bs) (hx : bs[i]? = some x) (o n) (h : o + n ≤ b) :
    slice bs.flatten (b * i + o) n = slice x o n := by
  obtain ⟨hi, hxi⟩ := List.getElem?_eq_some_iff.mp hx
  have hlen : x.length = b := hb x (mem_of_getElem? hx)
  rw [flatten_split bs i x hx, slice, ← hb.length_take_flatten (Nat.le_of_lt hi),
    drop_length_add_append]
  exact slice_append_left x _ o n (by omega)

theorem flatten_set_overwrite (hb : Uniform b bs) (hx : bs[i]? = some x) (o)
    (d : List α) (h : o + d.length ≤ b) :
    (bs.set i (overwrite x o d)).flatten = overwrite bs.flatten (b * i + o) d := by
  obtain ⟨hi, hxi⟩ := List.getElem?_eq_some_iff.mp hx
  have hlen : x.length = b := hb x (mem_of_getElem? hx)
  have hset : (bs.set i (overwrite x o d))[i]? = some (overwrite x o d) := by
    simp [hi]
  rw [flatten_split _ i _ hset, flatten_split bs i x hx,
    ← hb.length_take_flatten (Nat.le_of_lt hi), overwrite_append_right,
    overwrite_append_left x _ d o (by omega)]
  simp [take_set_of_le, drop_set]

/-- Cut a list into pieces of `b` elements, the last one shorter; `k` bounds the
number of pieces. -/
def chunks (b : Nat) : Nat → List α → List (List α)
  | 0, _ => []
  | k + 1, l => if l.length ≤ b then [l] else l.take b :: chunks b k (l.drop b)

theorem flatten_chunks (hb : 1 ≤ b) {l : List α} (h : l.length ≤ k) :
    (chunks b k l).flatten = l := by
  induction k generalizing l with
  | zero =>
    rw [length_eq_zero_iff.mp (Nat.le_zero.mp h)]
    rfl
  | succ k ih =>
    unfold chunks
    split
    · simp
    · rw [flatten_cons, ih (by rw [length_drop]; omega), take_append_drop]

end Lib.Blocks
