import Helens.ByteArrayBuffers
import Helens.Stream

/-! `writeToFile` and `readFromFile` of `bytearray.cc`. Every round of `writeToFile` takes the
offset in the block off its length, so it writes what is left only if the first round reaches the
end of a block. -/

namespace Helens
open Lib.Blocks Lib.StateError Helens.Stream List

inductive FileFault
  | object (f : Fault)
  | negativeLength (len : Int)
  deriving DecidableEq

structure Disk where
  content : String → Option (List UInt8)
  refuses : String → Bool

namespace ByteArray

/-! ## The two calls -/

/-- `ofs.write(cur->ptr + diff, len)` from the block `n`. -/
def ofsWrite (n : Node) (diff len : Int) : Except FileFault (List UInt8) :=
  if len < 0 then .error (.negativeLength len)
  else if diff < 0 ∨ n.length < diff + len then .error (.object .overrun)
  else .ok (slice n diff.toNat len.toNat)

/-- The loop of `writeToFile` along the chain from `cur` on, and the bytes it writes. `diff` is an
`int` and `len` the `int64_t` of an unsigned difference. -/
def writeLoop (baseSize : Nat) : List Node → Int → Int → Except FileFault (List UInt8)
  | [], readSize, _ => if readSize > 0 then .error (.object .nullDeref) else .ok []
  | n :: chain, readSize, pos => do
    if readSize ≤ 0 then
      return []
    let diff := toInt32 (toSize pos % baseSize : Nat)
    let len := toInt64 ((if readSize > toInt64 baseSize then (baseSize : Int) else readSize) - diff)
    let bytes ← ofsWrite n diff len
    let rest ← writeLoop baseSize chain (toInt64 (readSize - len)) (toInt64 (pos + len))
    return bytes ++ rest

def chainFrom (root : List Node) : Option Nat → List Node
  | none => []
  | some i => root.drop i

def writeToFile (b : ByteArray) (name : String) (disk : Disk) : Except FileFault (Bool × Disk) := do
  if disk.refuses name then
    return (false, disk)
  let bytes ← writeLoop b.baseSize (chainFrom b.root b.cur) (toInt64 b.getReadSize)
    (toInt64 b.position)
  return (true, { disk with content := Function.update disk.content name (some bytes) })

/-- The loop of `readFromFile` over what is left of the file. A read that gets fewer bytes than it
asks for sets the flag that `eof` returns. -/
def readLoop (baseSize : Nat) : Nat → List UInt8 → BA Unit
  | 0, _ => throw .fuel
  | fuel + 1, file => do
    write (file.take baseSize)
    if file.length < baseSize then
      return
    readLoop baseSize fuel (file.drop baseSize)

def readFromFile (name : String) (disk : Disk) : BA Bool := do
  if disk.refuses name then
    return false
  match disk.content name with
  | none => return false
  | some file =>
    let b ← get
    readLoop b.baseSize (file.length + 1) file
    return true

/-! ## Writing -/

variable {B : Nat} {b : ByteArray}

@[simp] theorem writeLoop_zero (chain pos) : writeLoop B chain 0 pos = .ok [] := by
  cases chain <;> rfl

theorem ofsWrite_eq {n : Node} {diff len : Nat} (h : diff + len ≤ n.length) :
    ofsWrite n diff len = .ok (slice n diff len) := by
  rw [ofsWrite, if_neg (by omega), if_neg (by omega), Int.toNat_natCast, Int.toNat_natCast]

variable {r pos : Nat}

theorem writeLoop_round {n : Node} (len) (hlen : n.length = B) (hr : 0 < r)
    (hfit : pos + r < 2 ^ 63) (hB : B < 2 ^ 63) (hdiff : pos % B < 2 ^ 31)
    (hround : min r B = pos % B + len) :
    writeLoop B (n :: chain) r pos = (do
      let rest ← writeLoop B chain (r - len : Nat) (pos + len : Nat)
      return slice n (pos % B) len ++ rest) := by
  have hat : toInt32 ((toSize pos % B : Nat) : Int) = (pos % B : Nat) := by
    rw [toSize_natCast (by omega), toInt32_of_lt hdiff]
  have hmin : (if (r : Int) > toInt64 B then (B : Int) else r) - (pos % B : Nat) = len := by
    rw [toInt64_of_lt hB]
    split <;> omega
  have hleft : (r : Int) - len = (r - len : Nat) := by omega
  have hnext : (pos : Int) + len = (pos + len : Nat) := by omega
  rw [writeLoop, if_neg (by omega)]
  dsimp only
  rw [hat, hmin, toInt64_of_lt (show len < 2 ^ 63 by omega), hleft, hnext,
    toInt64_of_lt (show r - len < 2 ^ 63 by omega),
    toInt64_of_lt (show pos + len < 2 ^ 63 by omega), ofsWrite_eq (by omega)]
  rfl

theorem writeLoop_aligned (hB63 : B < 2 ^ 63)
    (hu : Uniform B chain) (hr : r ≤ B * chain.length) (hfit : pos + r < 2 ^ 63)
    (hpos : pos % B = 0) : writeLoop B chain r pos = .ok (chain.flatten.take r) := by
  induction chain generalizing r pos with
  | nil =>
    obtain rfl : r = 0 := by simpa using hr
    rfl
  | cons n chain ih =>
    have hlen : n.length = B := hu n (by simp)
    have hrest : Uniform B chain := fun x hx => hu x (by simp [hx])
    rcases Nat.eq_zero_or_pos r with rfl | hr0
    · simp
    rw [length_cons, Nat.mul_succ] at hr
    rw [writeLoop_round (min r B) hlen hr0 hfit hB63 (by omega) (by omega), hpos]
    have hslice : slice n 0 (min r B) = n.take r := by
      rw [slice, drop_zero, ← hlen, ← take_eq_take_min]
    by_cases hlast : r ≤ B
    · -- the rest of the loop has nothing left to write
      have hz : r - min r B = 0 := by omega
      rw [hz, hslice, flatten_cons, take_append_of_le_length (by omega)]
      simp
    · have hstep : min r B = B := by omega
      rw [hstep] at hslice ⊢
      rw [ih hrest (by omega) (by omega) (by rw [Nat.add_mod_right]; exact hpos), hslice,
        flatten_cons, take_append, hlen]
      rfl

/-- Where the loop writes what is left: nothing is left, the cursor is at the start of a block, or
what is left reaches the block's end. -/
def Regular (b : ByteArray) : Prop :=
  b.position = b.size ∨ b.position % b.baseSize = 0 ∨
    b.baseSize ≤ b.size - b.position ∧ b.position % b.baseSize < 2 ^ 31
  deriving Decidable

theorem writeLoop_eq (hB : 1 ≤ B) (hB63 : B < 2 ^ 63) (hu : Uniform B chain)
    (hr : pos % B + r ≤ B * chain.length) (hfit : pos + r < 2 ^ 63)
    (hreg : r = 0 ∨ pos % B = 0 ∨ B ≤ r ∧ pos % B < 2 ^ 31) :
    writeLoop B chain r pos = .ok (slice chain.flatten (pos % B) r) := by
  by_cases hzero : pos % B = 0
  · rw [writeLoop_aligned hB63 hu (by omega) hfit hzero, hzero]
    rfl
  rcases hreg with rfl | hz | ⟨hle, hint⟩
  · simp
  · exact absurd hz hzero
  · have hoff : pos % B < B := Nat.mod_lt _ (by omega)
    cases chain with
    | nil =>
      rw [length_nil, Nat.mul_zero] at hr
      omega
    | cons n chain =>
      have hlen : n.length = B := hu n (by simp)
      have hrest : Uniform B chain := fun x hx => hu x (by simp [hx])
      rw [length_cons, Nat.mul_succ] at hr
      have hnext : (pos + (B - pos % B)) % B = 0 := by
        have hdiv := Nat.div_add_mod pos B
        have hend : pos + (B - pos % B) = B * (pos / B + 1) := by
          rw [Nat.mul_succ]
          omega
        rw [hend, Nat.mul_mod_right]
      have hparts : r = (B - pos % B) + (r - (B - pos % B)) := by omega
      have hbehind : slice (n ++ chain.flatten) (pos % B + (B - pos % B)) (r - (B - pos % B)) =
          chain.flatten.take (r - (B - pos % B)) := by
        rw [slice, Nat.add_sub_cancel' (Nat.le_of_lt hoff), ← hlen, drop_left]
      rw [writeLoop_round (B - pos % B) hlen (by omega) hfit hB63 hint (by omega),
        writeLoop_aligned hB63 hrest (by omega) (by omega) hnext, flatten_cons]
      conv_rhs => rw [hparts, slice_add, hbehind]
      rw [slice_append_left n _ _ _ (by omega)]
      rfl

/-- A round that begins inside a block and has less than a block to write leaves the loop no way
out: it writes a negative length, or hands over to a round with the two numbers exchanged. -/
theorem writeLoop_stops (hB : B ≤ 2 ^ 31) (hu : Uniform B chain) (hr : 0 < r) (hrB : r < B)
    (hpos : 0 < pos % B) (hfit : pos + r < 2 ^ 63) : ∃ e, writeLoop B chain r pos = .error e := by
  induction chain generalizing r pos with
  | nil => exact ⟨_, by rw [writeLoop, if_pos (by omega)]⟩
  | cons n chain ih =>
    have hlen : n.length = B := hu n (by simp)
    have hoff : pos % B < B := Nat.mod_lt _ (by omega)
    by_cases hle : pos % B ≤ r
    · have hnext : (pos + (r - pos % B)) % B = r := by
        have hdiv := Nat.div_add_mod pos B
        rw [show pos + (r - pos % B) = r + B * (pos / B) by omega, Nat.add_mul_mod_self_left,
          Nat.mod_eq_of_lt hrB]
      obtain ⟨e, he⟩ := @ih (r - (r - pos % B)) (pos + (r - pos % B))
        (fun x hx => hu x (by simp [hx])) (by omega) (by omega) (by omega) (by omega)
      rw [writeLoop_round (r - pos % B) hlen hr hfit (by omega) (by omega) (by omega), he]
      exact ⟨e, rfl⟩
    · have hat : toInt32 ((toSize pos % B : Nat) : Int) = (pos % B : Nat) := by
        rw [toSize_natCast (by omega), toInt32_of_lt (by omega)]
      have hneg : toInt64 ((if (r : Int) > toInt64 B then (B : Int) else r) - (pos % B : Nat)) =
          r - (pos % B : Nat) := by
        rw [toInt64_of_lt (by omega), if_neg (by omega), toInt64]
        exact Int.bmod_eq_of_le (by omega) (by omega)
      rw [writeLoop, if_neg (by omega)]
      dsimp only
      rw [hat, hneg, ofsWrite, if_pos (by omega)]
      exact ⟨_, rfl⟩

/-- Where the cursor stands, `writeToFile` is the loop along the rest of the chain. -/
theorem Inv.writeToFile_loop (hb : b.Inv B) (hmem : b.capacity < 2 ^ 63)
    (hlt : b.position < b.capacity) (hopen : disk.refuses name = false) :
    Uniform B (b.root.drop (b.position / B)) ∧
      b.position % B + (b.size - b.position) ≤ B * (b.root.drop (b.position / B)).length ∧
      slice (b.root.drop (b.position / B)).flatten (b.position % B) (b.size - b.position) =
        b.contents.drop b.position ∧
      writeToFile b name disk = (do
        let bytes ← writeLoop B (b.root.drop (b.position / B)) (b.size - b.position : Nat)
          b.position
        return (true,
          { disk with content := Function.update disk.content name (some bytes) })) := by
  have hle := hb.position_le
  have hcap := hb.size_le
  have hat : B * (b.position / B) + b.position % B = b.position := Nat.div_add_mod _ _
  have hi : b.position / B ≤ b.root.length := by
    rw [hb.capacity] at hlt
    exact Nat.le_of_lt (Nat.div_lt_of_lt_mul hlt)
  refine ⟨hb.uniform.drop _, ?_, ?_, ?_⟩
  · rw [length_drop, Nat.mul_sub, ← hb.capacity]
    omega
  · rw [hb.uniform.flatten_drop hi, contents, drop_take, slice, drop_drop, hat]
  · rw [writeToFile, hopen, hb.base, hb.getReadSize_eq, toInt64_of_lt (by omega),
      toInt64_of_lt (by omega), hb.cur, if_pos hlt]
    rfl

theorem Inv.writeToFile_eq (hB : 1 ≤ B) (hb : b.Inv B) (hmem : b.capacity < 2 ^ 63)
    (hreg : Regular b) (hopen : disk.refuses name = false) :
    writeToFile b name disk = .ok (true, { disk with
      content := Function.update disk.content name (some (b.contents.drop b.position)) }) := by
  have hle := hb.position_le
  have hcap := hb.size_le
  by_cases hend : b.position < b.capacity
  · have hblock : B ≤ b.capacity := by
      rw [hb.capacity]
      exact Nat.le_mul_of_pos_right B hb.some_block
    have hreg' : b.size - b.position = 0 ∨ b.position % B = 0 ∨
        B ≤ b.size - b.position ∧ b.position % B < 2 ^ 31 := by
      unfold Regular at hreg
      rw [hb.base] at hreg
      omega
    obtain ⟨hu, hr, hslice, hwrite⟩ := hb.writeToFile_loop hmem hend hopen
    rw [hwrite, writeLoop_eq hB (by omega) hu hr (by omega) hreg', hslice]
    rfl
  · have hz : b.size - b.position = 0 := by omega
    have hnil : b.contents.drop b.position = [] := by
      rw [contents, drop_take, hz, take_zero]
    rw [writeToFile, hopen, hb.getReadSize_eq, hz, hnil]
    simp [toInt64, bind, Except.bind, pure, Except.pure]

theorem Inv.writeToFile_stops (hB : 1 ≤ B) (hmax : B ≤ 2 ^ 31) (hb : b.Inv B)
    (hmem : b.capacity < 2 ^ 63) (hreg : ¬ Regular b) (hopen : disk.refuses name = false) :
    ∃ e, writeToFile b name disk = .error e := by
  have hle := hb.position_le
  have hcap := hb.size_le
  have hoff : b.position % B < B := Nat.mod_lt _ hB
  unfold Regular at hreg
  rw [hb.base] at hreg
  obtain ⟨hu, -, -, hwrite⟩ := hb.writeToFile_loop hmem (by omega) hopen
  have hin : 0 < b.position % B := by omega
  obtain ⟨e, he⟩ := writeLoop_stops hmax hu (r := b.size - b.position) (by omega) (by omega) hin
    (by omega)
  exact ⟨e, by rw [hwrite, he]; rfl⟩

/-! ## Reading -/

theorem Stored.trans (hb : b.Inv B) (h : Stored b x c)
    (h' : Stored c y d) : Stored b (x ++ y) d where
  position := by
    rw [h'.position, h.position, length_append, Nat.add_assoc]
  size := by
    rw [h'.size, h.size, h.position, length_append]
    omega
  contents := by
    have hlen : b.position ≤ b.contents.length := by
      rw [ByteArray.contents, length_take, hb.length_flatten, Nat.min_eq_left hb.size_le]
      exact hb.position_le
    rw [h'.contents, h.contents, h.position, overwrite_overwrite _ _ _ _ hlen]

theorem Inv.readLoop_stored (hB : 1 ≤ B) (hf : file.length < fuel) (hb : b.Inv B) :
    ∃ b', (readLoop B fuel file).run b = .ok () b' ∧ b'.Inv B ∧ Stored b file b' := by
  induction fuel generalizing file b with
  | zero => exact absurd hf (Nat.not_lt_zero _)
  | succ fuel ih =>
    obtain ⟨c, hwrite, hc, hstored⟩ := hb.write_stored hB (file.take B)
    rw [readLoop, run_bind_ok hwrite, run_ite]
    by_cases heof : file.length < B
    · rw [if_pos heof]
      rw [take_of_length_le (Nat.le_of_lt heof)] at hstored
      exact ⟨c, rfl, hc, hstored⟩
    · have hleft : (file.drop B).length < fuel := by
        rw [length_drop]
        omega
      obtain ⟨b', hrest, hb', hstored'⟩ := ih hleft hc
      rw [if_neg heof]
      refine ⟨b', hrest, hb', ?_⟩
      have h := hstored.trans hb hstored'
      rwa [take_append_drop] at h

theorem Inv.readFromFile_stored (hB : 1 ≤ B) (hb : b.Inv B) (disk : Disk)
    (hopen : disk.refuses name = false) (hfile : disk.content name = some file) :
    ∃ b', (readFromFile name disk).run b = .ok true b' ∧ Stored b file b' := by
  obtain ⟨b', hloop, -, hstored⟩ := hb.readLoop_stored hB (Nat.lt_succ_self file.length)
  refine ⟨b', ?_, hstored⟩
  rw [readFromFile, hopen, hfile, if_neg (by decide)]
  dsimp only
  rw [EStateM.run_bind, EStateM.run_get]
  dsimp only
  rw [hb.base, run_bind_ok hloop]
  rfl

theorem Inv.append_of_stored (hb : b.Inv B) (h : Stored b x b')
    (hend : b.position = b.size) : b'.contents = b.contents ++ x := by
  have hlen : b.contents.length = b.position := by
    rw [contents, length_take, hb.length_flatten, Nat.min_eq_left hb.size_le, hend]
  rw [h.contents, overwrite, ← hlen, take_length, drop_of_length_le (by omega), append_nil]

/-- `writeToFile` puts the bytes from the position to the size into the file, and `readFromFile`
stores exactly these at the cursor of any other object, if the first round reaches the end of a
block. For blocks of at most 2^31 bytes it does not return otherwise. -/
theorem file_carries_rest (B : Nat) (hB : 1 ≤ B) (b : ByteArray) (hb : Reachable B b)
    (hmem : b.capacity < 2 ^ 63) (C : Nat) (hC : 1 ≤ C) (t : ByteArray)
    (ht : Reachable C t) (name : String) (disk : Disk) (hopen : disk.refuses name = false) :
    (Regular b → ∃ disk' t', writeToFile b name disk = .ok (true, disk') ∧
      disk'.content = Function.update disk.content name (some (b.contents.drop b.position)) ∧
      (readFromFile name disk').run t = .ok true t' ∧
      Stored t (b.contents.drop b.position) t' ∧
      (t.position = t.size → t'.contents = t.contents ++ b.contents.drop b.position)) ∧
    (B ≤ 2 ^ 31 → ((∃ r, writeToFile b name disk = .ok r) → Regular b)) := by
  refine ⟨fun hreg => ?_, fun hmax => ?_⟩
  · have hti := ht.inv hC
    have hwrite := (hb.inv hB).writeToFile_eq hB hmem hreg hopen
    obtain ⟨t', hread, hstored⟩ := hti.readFromFile_stored hC { disk with
        content := Function.update disk.content name (some (b.contents.drop b.position)) }
      hopen (Function.update_self name _ _)
    exact ⟨_, t', hwrite, rfl, hread, hstored, hti.append_of_stored hstored⟩
  · rintro ⟨r, hr⟩
    by_contra hreg
    obtain ⟨e, he⟩ := (hb.inv hB).writeToFile_stops hB hmax hmem hreg hopen
    exact absurd (hr.symm.trans he) nofun

def blank : Disk := ⟨fun _ => none, fun _ => false⟩

def twoRead : ByteArray :=
  (runAll Op.exec [.write [0, 1, 2, 3, 4, 5], .setPosition 2] (new 4 fun _ => 0)).2

theorem reachable_twoRead : Reachable 4 twoRead :=
  .call (.setPosition 2) (.call (.write [0, 1, 2, 3, 4, 5]) (.new fun _ => 0))

theorem file_carries_rest_twoRead : ∃ disk' t', writeToFile twoRead "a" blank = .ok (true, disk') ∧
      disk'.content "a" = some [2, 3, 4, 5] ∧
      (readFromFile "a" disk').run (new 3 fun _ => 0) = .ok true t' ∧
      t'.contents = [2, 3, 4, 5] := by
  obtain ⟨disk', t', hwrite, hfile, hread, -, happend⟩ := (file_carries_rest 4 (by decide) twoRead
    reachable_twoRead (by decide) 3 (by decide) (new 3 fun _ => 0)
    (.new fun _ => 0) "a" blank rfl).1 (by decide)
  refine ⟨disk', t', hwrite, ?_, hread, (happend rfl).trans (by decide)⟩
  rw [hfile]
  decide

/-- One byte left, at the end of a block of four: the length of the first round is -2. -/
def lastByte : ByteArray :=
  (runAll Op.exec [.write [0, 1, 2, 3], .setPosition 3] (new 4 fun _ => 0)).2

theorem writeToFile_negative_length :
    Reachable 4 lastByte ∧ lastByte.contents.drop lastByte.position = [3] ∧
    writeToFile lastByte "a" blank = .error (.negativeLength (-2)) := by
  refine ⟨?_, by decide, ?_⟩
  · exact .call (.setPosition 3) (.call (.write [0, 1, 2, 3]) (.new fun _ => 0))
  · have hloop : writeLoop lastByte.baseSize (chainFrom lastByte.root lastByte.cur)
        (toInt64 lastByte.getReadSize) (toInt64 lastByte.position) =
        .error (.negativeLength (-2)) := by
      decide
    rw [writeToFile, hloop]
    rfl

end ByteArray
end Helens
