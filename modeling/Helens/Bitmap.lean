import Helens.Lib.RangeLoops
import Helens.Lib.RunLength
import Mathlib.Data.Nat.Bitwise

/-! `Bitmap`: sets of small numbers in words of sixteen bits, of which fourteen hold members.
Compressed, long runs of full or empty words are counts in digits of fourteen bits; the other two
bits say so. -/

namespace Helens.Ds

open Lib.Runs Lib.RangeLoops Lib.RunLength

abbrev Word := BitVec 16

inductive BitmapError
  /-- An access outside `m_data`, which is undefined. -/
  | outOfBounds
  /-- A shift of a `uint32_t` by 32 or more, which is undefined. -/
  | wideShift
  | assertion
  | logicError (what : String)
  deriving DecidableEq

structure Bitmap where
  compressed : Bool
  size : Nat
  data : List Word
  deriving DecidableEq

/-! ## Words -/

def compressMask : Word := 0x8000#16

def valueMask : Word := 0x4000#16

/-- `COUNT_MASK`: the bits of the `VALUE_SIZE`, fourteen, members of a word. -/
def countMask : Word := 0x3FFF#16

def pos (i : Nat) : Word := 1#16 <<< i

def npos (i : Nat) : Word := ~~~ pos i

def mask (i : Nat) : Word := pos i - 1#16

def read (data : List Word) (i : Nat) : Except BitmapError Word :=
  match data[i]? with
  | some w => .ok w
  | none => .error .outOfBounds

def write (data : List Word) (i : Nat) (w : Word) : Except BitmapError (List Word) :=
  if i < data.length then .ok (data.set i w) else .error .outOfBounds

/-- `((uint64_t*)m_data)[i]`, on a little-endian machine. -/
def readU64 (data : List Word) (i : Nat) : Except BitmapError (BitVec 64) := do
  let w0 ← read data (4 * i)
  let w1 ← read data (4 * i + 1)
  let w2 ← read data (4 * i + 2)
  let w3 ← read data (4 * i + 3)
  .ok (w3 ++ w2 ++ w1 ++ w0)

def writeU64 (data : List Word) (i : Nat) (x : BitVec 64) : Except BitmapError (List Word) := do
  let data ← write data (4 * i) (x.extractLsb' 0 16)
  let data ← write data (4 * i + 1) (x.extractLsb' 16 16)
  let data ← write data (4 * i + 2) (x.extractLsb' 32 16)
  write data (4 * i + 3) (x.extractLsb' 48 16)

namespace Bitmap

/-! ## Single members and ranges -/

/-- `ceil(size * 1.0 / VALUE_SIZE)`. The quotient of a `uint32_t` by 14 is never
rounded to a whole number it is not. -/
def wordsFor (size : Nat) : Nat := (size + 13) / 14

def new (size : Nat) (byte : BitVec 8) : Bitmap :=
  ⟨false, size, List.replicate (wordsFor size) (byte ++ byte)⟩

def get (b : Bitmap) (idx : Nat) : Except BitmapError Bool := do
  let w ← read b.data (idx / 14)
  .ok (w &&& pos (idx % 14) != 0#16)

def set (b : Bitmap) (idx : Nat) (v : Bool) : Except BitmapError Bitmap := do
  let w ← read b.data (idx / 14)
  let data ← write b.data (idx / 14) (if v then w ||| pos (idx % 14) else w &&& npos (idx % 14))
  .ok { b with data }

def fill (v : Bool) : Word := if v then countMask else 0#16

/-- `set(from, size, v)`, in `uint32_t`. -/
def setRange (data : List Word) (start size : Nat) (v : Bool) :
    Except BitmapError (List Word) :=
  if size = 0 then .ok data
  else
    let stop := (start + size) % 2 ^ 32
    if start % 14 = 0 ∧ stop % 14 = 0 then
      (List.range' (start / 14) (stop / 14 - start / 14)).foldlM
        (fun data i => write data i (fill v)) data
    else .error .assertion

def getRange (data : List Word) (start size : Nat) (v : Bool) : Except BitmapError Bool :=
  if size = 0 then .ok false
  else
    let stop := (start + size) % 2 ^ 32
    if start % 14 = 0 ∧ stop % 14 = 0 then
      (List.range' (start / 14) (stop / 14 - start / 14)).anyM fun i => do
        let w ← read data i
        .ok (if v then w &&& countMask != 0#16 else w &&& countMask == 0#16)
    else .error .assertion

/-! ## Reading compressed words -/

def isRun (w : Word) : Bool := w &&& compressMask != 0#16

def runValue (w : Word) : Bool := w &&& valueMask != 0#16

def joins (x y : Word) : Bool := isRun x && isRun y && runValue x == runValue y

/-- The inner loop of the decoders, from the word at distance `k` on: the digits
are put together in a `uint32_t`. -/
def runCount (count k : Nat) : List Word → Except BitmapError Nat
  | [] => .ok count
  | w :: ws =>
    if 14 * k < 32 then
      runCount (((w &&& countMask).toNat <<< (14 * k)) % 2 ^ 32 ||| count) (k + 1) ws
    else .error .wideShift

inductive Piece
  | run (v : Bool) (count : Nat)
  | literal (w : Word)

/-- What a group of words that belong together says. No group is empty. -/
def piece : List Word → Except BitmapError Piece
  | [] => .error .outOfBounds
  | w :: ws =>
    if isRun w then do
      let count ← runCount (w &&& countMask).toNat 1 ws
      .ok (.run (runValue w) count)
    else .ok (.literal (w &&& countMask))

/-- One round of the decoders of `&=`, `|=` and `uncompress`, which differ in the runs
that they write and in what they do with a literal. -/
def overlayStep (writes : Bool → Bool) (literal : Word → Word → Word) (st : Nat × List Word)
    (group : List Word) : Except BitmapError (Nat × List Word) := do
  match ← piece group with
  | .run v count => do
    let data ← if writes v then setRange st.2 st.1 count v else .ok st.2
    .ok ((st.1 + count) % 2 ^ 32, data)
  | .literal w => do
    let old ← read st.2 (st.1 / 14)
    let data ← write st.2 (st.1 / 14) (literal old w)
    .ok ((st.1 + 14) % 2 ^ 32, data)

def overlay (writes : Bool → Bool) (literal : Word → Word → Word) (code data : List Word) :
    Except BitmapError (List Word) := do
  let st ← (code.splitBy joins).foldlM (overlayStep writes literal) (0, data)
  .ok st.2

def uncompress (b : Bitmap) : Except BitmapError Bitmap :=
  if !b.compressed then .ok b
  else do
    let data ← overlay (fun _ => true) (fun _ w => w) b.data (new b.size 0#8).data
    .ok ⟨false, b.size, data⟩

/-! ## Operators -/

/-- The loops of the operators: `m_size / U64_VALUE_SIZE` steps of four words, then
the rest word by word. -/
def bulk (f64 : Nat → BitVec 64 → Except BitmapError (BitVec 64))
    (f16 : Nat → Word → Except BitmapError Word) (b : Bitmap) : Except BitmapError (List Word) := do
  let data ← (List.range' 0 (b.size / 56)).foldlM (fun data i => do
    let x ← readU64 data i
    let y ← f64 i x
    writeU64 data i y) b.data
  (List.range' (4 * (b.size / 56)) (b.data.length - 4 * (b.size / 56))).foldlM (fun data i => do
    let w ← read data i
    let w' ← f16 i w
    write data i w') data

def andAssign (a b : Bitmap) : Except BitmapError Bitmap :=
  if a.size ≠ b.size then .error (.logicError "m_size != b.m_size")
  else if !a.compressed && !b.compressed then do
    let data ← bulk (fun i x => do let y ← readU64 b.data i; .ok (x &&& y))
      (fun i w => do let v ← read b.data i; .ok (w &&& v)) a
    .ok { a with data }
  else if a.compressed != b.compressed then
    if a.compressed then .error (.logicError "compress &= uncompress not support")
    else do
      let data ← overlay (fun v => !v) (· &&& ·) b.data a.data
      .ok { a with data }
  else .error (.logicError "compress &= compress not support")

def orAssign (a b : Bitmap) : Except BitmapError Bitmap :=
  if a.size ≠ b.size then .error (.logicError "m_size != b.m_size")
  else if !a.compressed && !b.compressed then do
    let data ← bulk (fun i x => do let y ← readU64 b.data i; .ok (x ||| y))
      (fun i w => do let v ← read b.data i; .ok (w ||| v)) a
    .ok { a with data }
  else if a.compressed != b.compressed then
    if a.compressed then .error (.logicError "compress |= uncompress not support")
    else do
      let data ← overlay (fun v => v) (· ||| ·) b.data a.data
      .ok { a with data }
  else .error (.logicError "compress |= compress not support")

def flipWord (cur : Word) : Word :=
  if isRun cur then
    if runValue cur then cur &&& ~~~ valueMask else cur ||| valueMask
  else ~~~ cur &&& countMask

def complement (b : Bitmap) : Except BitmapError Bitmap :=
  if !b.compressed then do
    let data ← bulk (fun _ x => .ok (~~~ x)) (fun _ w => .ok (~~~ w)) b
    .ok { b with data }
  else .ok { b with data := b.data.map flipWord }

def normalCross (a b : Bitmap) : Except BitmapError Bool := do
  let found ← (List.range' 0 (a.size / 56)).anyM fun i => do
    let x ← readU64 a.data i
    if x ≠ 0#64 then
      let y ← readU64 b.data i
      .ok (x &&& y != 0#64)
    else .ok false
  if found then .ok true
  else
    (List.range' (4 * (a.size / 56)) (a.data.length - 4 * (a.size / 56))).anyM fun i => do
      let w ← read a.data i
      let v ← read b.data i
      .ok (w &&& v != 0#16)

def crossStep (data : List Word) (st : Nat × Bool) (group : List Word) :
    Except BitmapError (Nat × Bool) :=
  if st.2 then .ok st
  else do
    match ← piece group with
    | .run v count => do
      let found ← if v then getRange data st.1 count true else .ok false
      .ok ((st.1 + count) % 2 ^ 32, found)
    | .literal w => do
      let old ← read data (st.1 / 14)
      .ok ((st.1 + 14) % 2 ^ 32, old &&& w != 0#16)

def compressCross (a b : Bitmap) : Except BitmapError Bool := do
  let st ← (b.data.splitBy joins).foldlM (crossStep a.data) (0, false)
  .ok st.2

def cross (a b : Bitmap) : Except BitmapError Bool :=
  if !a.compressed && b.compressed then compressCross a b
  else if !a.compressed && !b.compressed then normalCross a b
  else .ok false

/-! ## Compressing -/

def countBits (w : Word) : Nat := (List.range 16).countP fun i => w.getLsbD i

def runWord (v : Bool) (digit : Nat) : Word :=
  if v then compressMask ||| valueMask ||| BitVec.ofNat 16 digit
  else compressMask ||| BitVec.ofNat 16 digit

/-- The words of a count, the lowest digit first. The count is a `uint64_t`, so it has
at most five digits. -/
def runWords (v : Bool) : Nat → Nat → List Word
  | 0, _ => []
  | fuel + 1, count =>
    if count = 0 then []
    else runWord v (count % 2 ^ 14) :: runWords v fuel (count / 2 ^ 14)

/-- `data[dst_cur_pos++] = w`, in a buffer of `cap` words. -/
def emit (cap : Nat) (out : List Word) (w : Word) : Except BitmapError (List Word) :=
  if out.length < cap then .ok (out ++ [w]) else .error .outOfBounds

structure Packing where
  out : List Word
  value : Bool
  count : Nat

def flush (cap : Nat) (st : Packing) : Except BitmapError (List Word) :=
  if 1 < st.count / 14 then (runWords st.value 5 st.count).foldlM (emit cap) st.out
  else if st.count ≠ 0 then emit cap st.out (fill st.value)
  else .ok st.out

/-- One round of `compress`. The count stays below `14 * 2 ^ 32` and does not overflow. -/
def compressStep (cap : Nat) (st : Packing) (cur : Word) : Except BitmapError Packing :=
  let c := countBits (cur &&& countMask)
  if c = 0 ∧ st.value = false ∨ c = 14 ∧ st.value = true then
    .ok { st with count := st.count + 14 }
  else if 1 < st.count / 14 ∧ st.count % 14 ≠ 0 then .error .assertion
  else do
    let out ← flush cap st
    if c = 0 ∨ c = 14 then .ok ⟨out, decide (c = 14), 14⟩
    else do
      let out ← emit cap out cur
      .ok ⟨out, st.value, 0⟩

def compress (b : Bitmap) : Except BitmapError Bitmap :=
  if b.compressed then .ok b
  else do
    let st ← b.data.foldlM (compressStep b.data.length) ⟨[], false, 0⟩
    let out ← flush b.data.length st
    .ok ⟨true, b.size, out⟩

/-! ## Resizing -/

def resize (b : Bitmap) (size : Nat) (v : Bool) : Except BitmapError Bitmap :=
  if b.compressed then .error (.logicError "compress bitmap not support resize")
  else
    let len := wordsFor size
    if b.data.length < len then
      let grown := b.data ++
        List.replicate (len - b.data.length) (if v then 0xFFFF#16 else 0#16)
      if b.data.length = 0 then .error .outOfBounds
      else do
        let w ← read grown (b.data.length - 1)
        let data ← write grown (b.data.length - 1)
          (if v then w ||| mask (b.size % 14) else w &&& mask (b.size % 14))
        .ok ⟨false, size, data⟩
    else .ok ⟨false, size, b.data.take len⟩

end Bitmap
end Helens.Ds
