import Mathlib.Algebra.Group.Nat.Defs
import Helens.Lib.Blocks
import Helens.Lib.StateError

/-! The chunked buffer of `bytearray.cc`: a chain of blocks of one size, a position, a size and the
block the position lies in. Results are `EStateM.Result`, so a throw carries the object. `ceil` in
`addCapacity` is taken as exact. -/

namespace Helens
open Lib.Blocks

/-- What ends a call other than a normal return. `outOfRange` and `lengthError` are C++
exceptions; the others are the undefined behaviours a call can run into. -/
inductive Fault
  | outOfRange (what : String)
  | lengthError
  | nullDeref
  | overrun
  | fuel
  deriving DecidableEq

inductive Endian
  | little
  | big
  deriving DecidableEq

/-- A memory block: the `size` bytes behind `ptr`. Its `next` is the block
behind it in the chain. -/
abbrev Node := List UInt8

/-- One entry of an iovec array: `len` bytes at offset `off` of block `node`. -/
structure IoVec where
  node : Nat
  off : Nat
  len : Nat
  deriving DecidableEq

/-- `root` is the chain from `m_root` on, `cur` the index of `m_cur`'s block, `none` for null.
`heap` is what new memory happens to hold. -/
structure ByteArray where
  baseSize : Nat
  position : Nat
  capacity : Nat
  size : Nat
  endian : Endian
  root : List Node
  cur : Option Nat
  heap : Nat → UInt8

abbrev BA := EStateM Fault ByteArray

def sizeSub (a b : Nat) : Nat := if b ≤ a then a - b else 2 ^ 64 - (b - a)

def ofExcept {α : Type} : Except Fault α → BA α
  | .ok a => pure a
  | .error e => throw e

namespace ByteArray

def getReadSize (b : ByteArray) : Nat := sizeSub b.size b.position

def getCapacity (b : ByteArray) : Nat := sizeSub b.capacity b.position

def newNode (heap : Nat → UInt8) (s : Nat) : Node := (List.range s).map heap

def new (baseSize : Nat) (heap : Nat → UInt8) : ByteArray where
  baseSize := baseSize
  position := 0
  capacity := baseSize
  size := 0
  endian := .big
  root := [newNode heap baseSize]
  cur := some 0
  heap := fun i => heap (baseSize + i)

def setIsLittleEndian (val : Bool) : BA Unit :=
  modify fun b => { b with endian := if val then .little else .big }

/-! ## Walking the chain -/

def next (root : List Node) (i : Nat) : Option Nat :=
  if i + 1 < root.length then some (i + 1) else none

def deref (root : List Node) (p : Option Nat) : Except Fault (Nat × Node) :=
  match p with
  | none => .error .nullDeref
  | some i =>
    match root[i]? with
    | none => .error .nullDeref
    | some n => .ok (i, n)

/-- The loop of `write`, `read` and the buffer getters: the pieces it visits
and the block it ends on. Each round but the last uses up the block it is in. -/
def walk (root : List Node) : Nat → Option Nat → Nat → Nat → Nat →
    Except Fault (List IoVec × Option Nat)
  | _, cur, _, _, 0 => .ok ([], cur)
  | 0, _, _, _, _ + 1 => .error .fuel
  | fuel + 1, cur, npos, ncap, size + 1 => do
    let (i, n) ← deref root cur
    if ncap ≥ size + 1 then
      -- the last piece; a block filled to its end hands over to the next one
      .ok ([⟨i, npos, size + 1⟩], if n.length = npos + (size + 1) then next root i else some i)
    else
      let (j, m) ← deref root (next root i)
      let (vs, c) ← walk root fuel (some j) 0 m.length (size + 1 - ncap)
      .ok (⟨i, npos, ncap⟩ :: vs, c)

def walkFrom (b : ByteArray) (position size : Nat) : Except Fault (List IoVec × Option Nat) := do
  let npos := position % b.baseSize
  let (_, n) ← deref b.root b.cur
  walk b.root size b.cur npos (n.length - npos) size

def pieces (root : List Node) (vs : List IoVec) : List (List UInt8) :=
  vs.map fun v => slice (root.getD v.node []) v.off v.len

def gather (root : List Node) (vs : List IoVec) : List UInt8 := (pieces root vs).flatten

/-- `memcpy` from one buffer into the pieces, as many of them as it fills. -/
def scatter (root : List Node) : List IoVec → List UInt8 → List Node
  | [], _ => root
  | v :: vs, buf =>
    scatter (root.set v.node (overwrite (root.getD v.node []) v.off (buf.take v.len)))
      vs (buf.drop v.len)

/-! ## Capacity -/

def appendNodes : Nat → ByteArray → ByteArray
  | 0, b => b
  | count + 1, b => appendNodes count
      { b with
        root := b.root ++ [newNode b.heap b.baseSize]
        capacity := b.capacity + b.baseSize
        heap := fun i => b.heap (b.baseSize + i) }

def addCapacity (size : Nat) : BA Unit := do
  if size = 0 then
    return
  let b ← get
  let oldCap := b.getCapacity
  if oldCap ≥ size then
    return
  let count := (size - oldCap + b.baseSize - 1) / b.baseSize
  let first := if count = 0 then none else some b.root.length
  let b' := appendNodes count b
  set (if oldCap = 0 then { b' with cur := first } else b')

/-! ## Transfers -/

def write (buf : List UInt8) : BA Unit := do
  if buf.length = 0 then
    return
  addCapacity buf.length
  let b ← get
  let (vs, cur) ← ofExcept (b.walkFrom b.position buf.length)
  set { b with
    root := scatter b.root vs buf
    cur := cur
    position := b.position + buf.length
    size := if b.position + buf.length > b.size then b.position + buf.length else b.size }

def read (size : Nat) : BA (List UInt8) := do
  let b ← get
  if size > b.getReadSize then
    throw (.outOfRange "not enough len")
  let (vs, cur) ← ofExcept (b.walkFrom b.position size)
  set { b with cur := cur, position := b.position + size }
  return gather b.root vs

/-- The overload with a position. It starts in the block of `m_cur`, whatever
the position is. -/
def readAt (size position : Nat) : BA (List UInt8) := do
  let b ← get
  if size > sizeSub b.size position then
    throw (.outOfRange "not enough len")
  let (vs, _) ← ofExcept (b.walkFrom position size)
  return gather b.root vs

def seek : List Node → Nat → Nat → Except Fault (Option Nat)
  | [], _, _ => .error .nullDeref
  | n :: rest, i, v =>
    if v > n.length then seek rest (i + 1) (v - n.length)
    else if v = n.length then .ok (if rest = [] then none else some (i + 1))
    else .ok (some i)

def setPosition (v : Nat) : BA Unit := do
  let b ← get
  if v > b.capacity then
    throw (.outOfRange "set_position out of range")
  set { b with position := v, size := if v > b.size then v else b.size }
  let cur ← ofExcept (seek b.root 0 v)
  modify fun b => { b with cur := cur }

def clear : BA Unit :=
  modify fun b => { b with
    position := 0
    size := 0
    capacity := b.baseSize
    root := b.root.take 1
    cur := some 0 }

def toString : BA (List UInt8) := do
  let b ← get
  if b.getReadSize = 0 then
    return []
  readAt b.getReadSize b.position

def getReadBuffers (len : Nat) : BA (Nat × List IoVec) := do
  let b ← get
  let len := if len > b.getReadSize then b.getReadSize else len
  if len = 0 then
    return (0, [])
  let (vs, _) ← ofExcept (b.walkFrom b.position len)
  return (len, vs)

def skip (root : List Node) : Nat → Option Nat → Except Fault (Option Nat)
  | 0, cur => .ok cur
  | count + 1, cur => do
    let (i, _) ← deref root cur
    skip root count (next root i)

/-- The overload with a position: it walks from the root, but what is left to read is
counted from the cursor. -/
def getReadBuffersAt (len position : Nat) : BA (Nat × List IoVec) := do
  let b ← get
  let len := if len > b.getReadSize then b.getReadSize else len
  if len = 0 then
    return (0, [])
  let npos := position % b.baseSize
  let cur ← ofExcept (skip b.root (position / b.baseSize) (some 0))
  let (_, n) ← ofExcept (deref b.root cur)
  let (vs, _) ← ofExcept (walk b.root len cur npos (n.length - npos) len)
  return (len, vs)

def getWriteBuffers (len : Nat) : BA (Nat × List IoVec) := do
  if len = 0 then
    return (0, [])
  addCapacity len
  let b ← get
  let (vs, _) ← ofExcept (b.walkFrom b.position len)
  return (len, vs)

end ByteArray
end Helens
