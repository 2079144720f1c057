import Helens.ByteArrayFlat
import Helens.Lib.Words

/-! The integer and string codecs of `bytearray.cc`, and what they put on and
take off the buffer. `AtEnd` is a buffer that is being filled, `Unread` one that
is being read back; every writer and reader has one lemma in these terms. -/

namespace Helens
open Lib.Blocks Lib.StateError Lib.Words List

namespace ByteArray

/-! ## Fixed-width integers -/

def byteOrder : Endian := .little

/-- The body of `writeFint16` to `writeFuint64`, for a word of `w` bytes. -/
def writeFixed (w value : Nat) : BA Unit := do
  let b ← get
  let value := if b.endian ≠ byteOrder then bswap w value else value
  write (leBytes w value)

def writeFint8 (value : Int8) : BA Unit := write (leBytes 1 value.toUInt8.toNat)
def writeFuint8 (value : UInt8) : BA Unit := write (leBytes 1 value.toNat)
def writeFint16 (value : Int16) : BA Unit := writeFixed 2 value.toUInt16.toNat
def writeFuint16 (value : UInt16) : BA Unit := writeFixed 2 value.toNat
def writeFint32 (value : Int32) : BA Unit := writeFixed 4 value.toUInt32.toNat
def writeFuint32 (value : UInt32) : BA Unit := writeFixed 4 value.toNat
def writeFint64 (value : Int64) : BA Unit := writeFixed 8 value.toUInt64.toNat
def writeFuint64 (value : UInt64) : BA Unit := writeFixed 8 value.toNat

/-- The body of `readFint16` to `readFuint64` (the macro `XX`). -/
def readFixed (w : Nat) : BA Nat := do
  let v := ofLeBytes (← read w)
  let b ← get
  return if b.endian = byteOrder then v else bswap w v

def readFint8 : BA Int8 := do return (UInt8.ofNat (ofLeBytes (← read 1))).toInt8
def readFuint8 : BA UInt8 := do return UInt8.ofNat (ofLeBytes (← read 1))
def readFint16 : BA Int16 := do return (UInt16.ofNat (← readFixed 2)).toInt16
def readFuint16 : BA UInt16 := do return UInt16.ofNat (← readFixed 2)
def readFint32 : BA Int32 := do return (UInt32.ofNat (← readFixed 4)).toInt32
def readFuint32 : BA UInt32 := do return UInt32.ofNat (← readFixed 4)
def readFint64 : BA Int64 := do return (UInt64.ofNat (← readFixed 8)).toInt64
def readFuint64 : BA UInt64 := do return UInt64.ofNat (← readFixed 8)

/-! ## Varints -/

def encodeZigzag32 (v : Int32) : UInt32 :=
  if v < 0 then (-v).toUInt32 * 2 - 1 else (v * 2).toUInt32

def encodeZigzag64 (v : Int64) : UInt64 :=
  if v < 0 then (-v).toUInt64 * 2 - 1 else (v * 2).toUInt64

def decodeZigzag32 (v : UInt32) : Int32 := ((v >>> 1) ^^^ -(v &&& 1)).toInt32

def decodeZigzag64 (v : UInt64) : Int64 := ((v >>> 1) ^^^ -(v &&& 1)).toInt64

/-- The body of `writeUint32` and `writeUint64`; `slots` is the size of `tmp`. -/
def writeVarint (slots value : Nat) : BA Unit := do
  match septets slots value with
  | none => throw .overrun
  | some tmp => write tmp

def writeUint32 (value : UInt32) : BA Unit := writeVarint 5 value.toNat
def writeUint64 (value : UInt64) : BA Unit := writeVarint 10 value.toNat
def writeInt32 (value : Int32) : BA Unit := writeUint32 (encodeZigzag32 value)
def writeInt64 (value : Int64) : BA Unit := writeUint64 (encodeZigzag64 value)

/-- The loop of `readUint32` and `readUint64`, with `rounds` rounds to go. -/
def readVarintLoop (width : Nat) : Nat → Nat → Nat → BA Nat
  | 0, _, result => return result
  | rounds + 1, i, result => do
    let b ← readFuint8
    if b < 0x80 then
      return result ||| ((b.toNat <<< i) % 2 ^ width)
    else
      readVarintLoop width rounds (i + 7) (result ||| (((b &&& 0x7f).toNat <<< i) % 2 ^ width))

/-- `for(int i = 0; i < width; i += 7)` makes `(width + 6) / 7` rounds. -/
def readVarint (width : Nat) : BA Nat := readVarintLoop width ((width + 6) / 7) 0 0

def readUint32 : BA UInt32 := do return UInt32.ofNat (← readVarint 32)
def readUint64 : BA UInt64 := do return UInt64.ofNat (← readVarint 64)
def readInt32 : BA Int32 := do return decodeZigzag32 (← readUint32)
def readInt64 : BA Int64 := do return decodeZigzag64 (← readUint64)

/-! ## Strings -/

def writeStringF16 (value : List UInt8) : BA Unit := do
  writeFuint16 (UInt16.ofNat value.length)
  write value

def writeStringF32 (value : List UInt8) : BA Unit := do
  writeFuint32 (UInt32.ofNat value.length)
  write value

def writeStringF64 (value : List UInt8) : BA Unit := do
  writeFuint64 (UInt64.ofNat value.length)
  write value

def writeStringVint (value : List UInt8) : BA Unit := do
  writeUint64 (UInt64.ofNat value.length)
  write value

def readStringF16 : BA (List UInt8) := do read (← readFuint16).toNat
def readStringF32 : BA (List UInt8) := do read (← readFuint32).toNat
def readStringF64 : BA (List UInt8) := do read (← readFuint64).toNat
def readStringVint : BA (List UInt8) := do read (← readUint64).toNat

/-! ## Filling a buffer and reading it back -/

def Tight (b : ByteArray) : Prop := b.capacity = b.baseSize ∨ b.capacity < b.size + b.baseSize

/-- A buffer that holds exactly the bytes `w`, with the cursor behind them. -/
structure AtEnd (B : Nat) (e : Endian) (w : List UInt8) (b : ByteArray) : Prop where
  inv : b.Inv B
  endian : b.endian = e
  position : b.position = w.length
  size : b.size = w.length
  bytes : b.root.flatten.take w.length = w
  tight : b.Tight

/-- A buffer of `total` bytes in which `w` is what is left to read. -/
structure Unread (B : Nat) (e : Endian) (total : Nat) (w : List UInt8) (b : ByteArray) : Prop where
  inv : b.Inv B
  endian : b.endian = e
  size : b.size = total
  left : b.size - b.position = w.length
  bytes : slice b.root.flatten b.position w.length = w
  tight : b.Tight

theorem atEnd_new (hB : 1 ≤ B) (heap : Nat → UInt8) : AtEnd B .big [] (new B heap) where
  inv := inv_new hB heap
  endian := rfl
  position := rfl
  size := rfl
  bytes := by simp
  tight := .inl rfl

theorem AtEnd.setIsLittleEndian (h : AtEnd B e w b) (val) :
    ∃ b', (setIsLittleEndian val).run b = .ok () b' ∧
      AtEnd B (if val then .little else .big) w b' :=
  ⟨_, rfl, ⟨⟨h.inv.base, h.inv.uniform, h.inv.some_block, h.inv.capacity, h.inv.position_le,
    h.inv.size_le, h.inv.cur⟩, rfl, h.position, h.size, h.bytes, h.tight⟩⟩

theorem mul_ceil_lt (hB : 1 ≤ B) (n) : B * ((n + B - 1) / B) < n + B := by
  have h1 := Nat.div_add_mod (n + B - 1) B
  omega

theorem room_of_reserve {B cap len n : Nat} (hB : 1 ≤ B) (hlen : len ≤ cap)
    (h : cap = B ∨ cap < len + n + B) :
    cap + B * ((n - (cap - len) + B - 1) / B) = B ∨
      cap + B * ((n - (cap - len) + B - 1) / B) < len + n + B := by
  have hc := mul_ceil_lt hB (n - (cap - len))
  by_cases hroom : n - (cap - len) = 0
  · rw [hroom, Nat.zero_add, Nat.div_eq_of_lt (by omega), Nat.mul_zero]
    omega
  · right
    omega

theorem AtEnd.write (hB : 1 ≤ B) (h : AtEnd B e w b) (buf) :
    ∃ b', (ByteArray.write buf).run b = .ok () b' ∧ AtEnd B e (w ++ buf) b' := by
  obtain ⟨b', hr, hi, hf, he⟩ := h.inv.write_eq hB buf
  have hwcap : w.length ≤ b.capacity := by rw [← h.size]; exact h.inv.size_le
  have hcap : w.length ≤ b.root.flatten.length := by rw [h.inv.length_flatten]; exact hwcap
  have hpos : b'.position = w.length + buf.length := by
    have := congrArg Flat.position hf
    simpa [flat, Flat.store, Flat.reserve, Flat.grow, h.position] using this
  have hsize : b'.size = w.length + buf.length := by
    have := congrArg Flat.size hf
    simpa [flat, Flat.store, Flat.reserve, Flat.grow, h.position, h.size] using this
  have hmem : b'.root.flatten = overwrite (b.flat.reserve B buf.length).mem w.length buf := by
    have := congrArg Flat.mem hf
    simpa [flat, Flat.store, Flat.reserve, Flat.grow, h.position] using this
  have hres : (b.flat.reserve B buf.length).mem = b.root.flatten ++ newNode b.heap
      (B * ((buf.length - (b.capacity - w.length) + B - 1) / B)) := by
    simp only [Flat.reserve, Flat.grow, flat, h.inv.length_flatten, h.position]
  have hcap' : b'.capacity = b.capacity +
      B * ((buf.length - (b.capacity - w.length) + B - 1) / B) := by
    rw [← hi.length_flatten, hmem, length_overwrite _ _ _ ?_, hres, length_append,
      length_newNode, h.inv.length_flatten]
    · have h1 := le_mul_ceil hB (buf.length - (b.capacity - w.length))
      rw [hres, length_append, length_newNode, h.inv.length_flatten]
      omega
  refine ⟨b', hr, hi, he.trans h.endian, by simp [hpos], by simp [hsize], ?_, ?_⟩
  · rw [length_append, hmem, take_add_overwrite _ _ _ (by rw [hres, length_append]; omega),
      hres, take_append_of_le_length hcap, h.bytes]
  · have hlt := h.tight
    unfold Tight at hlt ⊢
    rw [h.inv.base, h.size] at hlt
    rw [hcap', hsize, hi.base]
    exact room_of_reserve hB hwcap (by omega)

theorem AtEnd.rewind (hB : 1 ≤ B) (h : AtEnd B e w b) :
    ∃ b', (setPosition 0).run b = .ok () b' ∧ Unread B e w.length w b' := by
  obtain ⟨b', hr, hi, hb⟩ := h.inv.setPosition_eq hB (v := 0) (Nat.zero_le _)
  refine ⟨b', hr, hi, ?_, ?_, ?_, ?_, ?_⟩
  · rw [hb]; exact h.endian
  · rw [hb]; simp [h.size]
  · rw [hb]; simp [h.size]
  · rw [hb]; simpa [slice] using h.bytes
  · have ht := h.tight
    rw [hb]
    simpa [Tight] using ht

theorem Unread.advance {b b' : ByteArray} (h : Unread B e total w b)
    (hk : k ≤ w.length) (hi : Inv B b')
    (hb : b' = { b with position := b.position + k, cur := b'.cur }) :
    Unread B e total (w.drop k) b' := by
  have hleft := h.left
  refine ⟨hi, ?_, ?_, ?_, ?_, ?_⟩
  · rw [hb]
    exact h.endian
  · rw [hb]
    exact h.size
  · rw [hb, length_drop]
    change b.size - (b.position + k) = w.length - k
    omega
  · have hbytes := h.bytes
    rw [hb, length_drop]
    change slice b.root.flatten (b.position + k) (w.length - k) = w.drop k
    rw [← drop_slice, hbytes]
  · rw [hb]
    exact h.tight

theorem Unread.skip (hB : 1 ≤ B) (h : Unread B e total w b) (hk : k ≤ w.length) :
    ∃ b', (setPosition (b.position + k)).run b = .ok () b' ∧ Unread B e total (w.drop k) b' := by
  have hleft := h.left
  have hpos := h.inv.position_le
  have hcap := h.inv.size_le
  obtain ⟨b', hr, hi, hb⟩ := h.inv.setPosition_eq hB (v := b.position + k) (by omega)
  rw [Nat.max_eq_left (by omega)] at hb
  exact ⟨b', hr, h.advance hk hi hb⟩

theorem Unread.read (hB : 1 ≤ B) {x w : List UInt8}
    (h : Unread B e total (x ++ w) b) (hx : x ≠ []) :
    ∃ b', (ByteArray.read x.length).run b = .ok x b' ∧ Unread B e total w b' := by
  have hleft := h.left
  rw [length_append] at hleft
  have hpos : 0 < x.length := length_pos_iff.mpr hx
  obtain ⟨b', hr, hi, hb⟩ := h.inv.read_eq hB hpos (by omega)
  have hfront : slice b.root.flatten b.position x.length = x := by
    have hbytes := congrArg (List.take x.length) h.bytes
    rwa [take_slice, length_append, Nat.min_eq_left (Nat.le_add_right _ _), take_left] at hbytes
  have hrest := h.advance (by rw [length_append]; omega) hi hb
  rw [hfront] at hr
  rw [drop_left] at hrest
  exact ⟨b', hr, hrest⟩

theorem Unread.read_nil (hB : 1 ≤ B) (h : Unread B e total w b) :
    (ByteArray.read 0).run b = if w ≠ [] ∨ total % B ≠ 0 ∨ total = 0 then .ok [] b
      else .error .nullDeref b := by
  rw [h.inv.read_zero hB]
  have hp := h.inv.position_le
  have hs := h.inv.size_le
  have hl := h.left
  have hblocks := h.inv.some_block
  congr 1
  apply propext
  by_cases hw : w = []
  · subst hw
    have hat : b.position = total := by rw [← h.size]; simp at hl; omega
    rw [hat, h.inv.capacity]
    have hle : total ≤ B * b.root.length := by rw [← h.inv.capacity, ← h.size]; exact hs
    constructor
    · intro hlt
      by_cases hz : total % B = 0
      · -- the last block is full, so the chain would be longer than the bytes need
        obtain ⟨m, hm⟩ := Nat.dvd_of_mod_eq_zero hz
        rcases Nat.eq_zero_or_pos total with h0 | h0
        · exact .inr (.inr h0)
        · have ht := h.tight
          unfold Tight at ht
          rw [h.inv.base, h.inv.capacity, h.size, hm] at ht
          rw [hm] at hlt h0
          have hmk : m < b.root.length := Nat.lt_of_mul_lt_mul_left hlt
          have hm0 : 0 < m := Nat.pos_of_mul_pos_left h0
          rcases ht with ht | ht
          · have h1 : b.root.length = 1 := by
              have := Nat.mul_eq_left (a := B) (b := b.root.length) (by omega)
              exact this.mp ht
            omega
          · rw [← Nat.mul_succ] at ht
            have := Nat.lt_of_mul_lt_mul_left ht
            omega
      · exact .inr (.inl hz)
    · rintro (hne | hz | hz)
      · exact absurd rfl hne
      · rcases Nat.lt_or_eq_of_le hle with hlt | heq
        · exact hlt
        · exact absurd (by rw [heq]; exact Nat.mul_mod_right _ _) hz
      · rw [hz]; exact Nat.mul_pos (by omega) hblocks
  · have hpos : 0 < w.length := length_pos_iff.mpr hw
    constructor
    · intro _; exact .inl hw
    · intro _; omega

end ByteArray
end Helens
