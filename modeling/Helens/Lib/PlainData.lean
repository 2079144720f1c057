import Helens.Lib.Words

/-! Values that take the same number of bytes each, arrays of them, and what is read of them
from the front of a stream. -/

namespace Lib.PlainData

open Lib.Words List

structure Pod (α : Type) where
  size : Nat
  pos : 0 < size
  encode : α → List UInt8
  decode : List UInt8 → α
  length_encode : ∀ x, (encode x).length = size
  decode_encode : ∀ x, decode (encode x) = x

namespace Pod

variable {α β : Type} (p : Pod α)

/-! ## Arrays -/

def encodeAll (xs : List α) : List UInt8 := xs.flatMap p.encode

def decodeAll : Nat → List UInt8 → List α
  | 0, _ => []
  | n + 1, bs => p.decode (bs.take p.size) :: decodeAll n (bs.drop p.size)

@[simp] theorem length_encodeAll (xs : List α) : (p.encodeAll xs).length = xs.length * p.size := by
  induction xs with
  | nil => simp [encodeAll]
  | cons x xs ih =>
    rw [encodeAll, flatMap_cons, length_append, p.length_encode, length_cons,
      Nat.succ_mul, Nat.add_comm]
    exact congrArg (· + p.size) ih

@[simp] theorem length_decodeAll (n bs) : (p.decodeAll n bs).length = n := by
  induction n generalizing bs with
  | zero => rfl
  | succ n ih => simp [decodeAll, ih]

theorem decodeAll_encodeAll (xs : List α) : p.decodeAll xs.length (p.encodeAll xs) = xs := by
  induction xs with
  | nil => rfl
  | cons x xs ih =>
    have hcons : p.encodeAll (x :: xs) = p.encode x ++ p.encodeAll xs := flatMap_cons
    rw [length_cons, decodeAll, hcons, ← p.length_encode x, take_left, drop_left,
      p.decode_encode, ih]

/-! ## Some layouts -/

def bits (w : Nat) (hw : 0 < w) : Pod (BitVec (8 * w)) where
  size := w
  pos := hw
  encode x := leBytes w x.toNat
  decode bs := BitVec.ofNat (8 * w) (ofLeBytes bs)
  length_encode _ := length_leBytes w _
  decode_encode x := by
    have hpow : 256 ^ w = 2 ^ (8 * w) := by rw [Nat.pow_mul]
    rw [ofLeBytes_leBytes, hpow, Nat.mod_eq_of_lt x.isLt, BitVec.ofNat_toNat, BitVec.setWidth_eq]

def number (w : Nat) (hw : 0 < w) : Pod (Fin (256 ^ w)) where
  size := w
  pos := hw
  encode x := leBytes w x
  decode bs := ⟨ofLeBytes bs % 256 ^ w, Nat.mod_lt _ (Nat.pow_pos (by decide))⟩
  length_encode _ := length_leBytes w _
  decode_encode x := by
    apply Fin.ext
    show ofLeBytes (leBytes w x) % 256 ^ w = x
    rw [ofLeBytes_leBytes, Nat.mod_mod, Nat.mod_eq_of_lt x.isLt]

def pair (q : Pod β) : Pod (α × β) where
  size := p.size + q.size
  pos := Nat.add_pos_left p.pos _
  encode x := p.encode x.1 ++ q.encode x.2
  decode bs := (p.decode (bs.take p.size), q.decode (bs.drop p.size))
  length_encode x := by rw [length_append, p.length_encode, q.length_encode]
  decode_encode x := by
    rw [← p.length_encode x.1, take_left, drop_left, p.decode_encode, q.decode_encode]

end Pod

/-! ## Streams -/

def readWord (w : Nat) (is : List UInt8) : Option (Nat × List UInt8) :=
  if w ≤ is.length then some (ofLeBytes (is.take w), is.drop w) else none

/-- What the memory of a word holds where the stream ends within it. -/
def partWord (w old : Nat) (is : List UInt8) : Nat :=
  ofLeBytes (is ++ (leBytes w old).drop is.length)

theorem readWord_eq_some_iff :
    readWord w is = some (n, rest) ↔ n < 256 ^ w ∧ is = leBytes w n ++ rest := by
  constructor
  · intro h
    unfold readWord at h
    split at h
    · next hw =>
      simp only [Option.some.injEq, Prod.mk.injEq] at h
      obtain ⟨rfl, rfl⟩ := h
      have hlen : (is.take w).length = w := length_take_of_le hw
      have hbytes := leBytes_ofLeBytes (is.take w)
      rw [hlen] at hbytes
      constructor
      · rw [← hbytes, ofLeBytes_leBytes]
        exact Nat.mod_lt _ (Nat.pow_pos (by decide))
      · rw [hbytes, take_append_drop]
    · cases h
  · rintro ⟨hn, rfl⟩
    have hlen := length_leBytes w n
    have hle : w ≤ (leBytes w n ++ rest).length := by
      rw [length_append, hlen]
      exact Nat.le_add_right _ _
    rw [readWord, if_pos hle]
    have htake : (leBytes w n ++ rest).take w = leBytes w n := by
      rw [take_append_of_le_length (Nat.le_of_eq hlen.symm), take_of_length_le (by simp)]
    have hdrop : (leBytes w n ++ rest).drop w = rest := by
      rw [drop_append_of_le_length (Nat.le_of_eq hlen.symm), drop_of_length_le (by simp),
        nil_append]
    rw [htake, hdrop, ofLeBytes_leBytes, Nat.mod_eq_of_lt hn]

theorem readWord_leBytes (hn : n < 256 ^ w) (rest) :
    readWord w (leBytes w n ++ rest) = some (n, rest) :=
  readWord_eq_some_iff.mpr ⟨hn, rfl⟩

/-- The stream starts with the elements of an array, behind their size in bytes. -/
def Pod.Image {α : Type} (p : Pod α) (is : List UInt8) (xs : List α) (rest : List UInt8) : Prop :=
  ∃ bytes, is = leBytes 8 bytes.length ++ (bytes ++ rest) ∧
    bytes.length = xs.length * p.size ∧ xs = p.decodeAll xs.length bytes

theorem Pod.image_encodeAll {α : Type} (p : Pod α) (xs : List α) (rest) :
    p.Image (leBytes 8 (xs.length * p.size) ++ (p.encodeAll xs ++ rest)) xs rest := by
  refine ⟨p.encodeAll xs, ?_, p.length_encodeAll xs, (p.decodeAll_encodeAll xs).symm⟩
  rw [p.length_encodeAll]

end Lib.PlainData
