import Helens.ByteArrayPositions

/-! Transfers through the buffers an object hands out, as `SocketStream` makes them: the caller
fills or empties the front of the buffers and moves the cursor by what it moved. They do what
`write` and `read` of as many bytes do. -/

namespace Helens
open Lib.Blocks Lib.StateError

namespace ByteArray

/-- The objects that calls lead to. The memory behind the buffers that `getWriteBuffers` returns
is the caller's to fill. -/
inductive Reachable (B : Nat) : ByteArray → Prop
  | new (heap : Nat → UInt8) : Reachable B (new B heap)
  | call {b : ByteArray} (op : Op) : Reachable B b → Reachable B (stateOf (op.exec.run b))
  | setIsLittleEndian {b : ByteArray} (val : Bool) : Reachable B b →
      Reachable B (stateOf ((setIsLittleEndian val).run b))
  | fill {b b' : ByteArray} {n len : Nat} {vs : List IoVec} (x : List UInt8) : Reachable B b →
      (getWriteBuffers n).run b = .ok (len, vs) b' → x.length ≤ n →
      Reachable B { b' with root := scatter b'.root vs x }

variable {B : Nat} {b b' : ByteArray}

theorem Reachable.inv (hB : 1 ≤ B) (h : Reachable B b) : b.Inv B := by
  induction h with
  | new heap => exact inv_new hB heap
  | call op _ ih => exact exec_inv hB op _ ih
  | setIsLittleEndian val _ ih =>
    exact ⟨ih.base, ih.uniform, ih.some_block, ih.capacity, ih.position_le, ih.size_le, ih.cur⟩
  | fill x _ hget hx ih =>
    obtain ⟨vs, c, hrun, hi, -, -, hfit, hcov⟩ := ih.getWriteBuffers_eq hB _
    rw [hget] at hrun
    cases hrun
    exact (hi.scattered hcov hfit hx).1

def contents (b : ByteArray) : List UInt8 := b.root.flatten.take b.size

structure Stored (b : ByteArray) (x : List UInt8) (b' : ByteArray) : Prop where
  position : b'.position = b.position + x.length
  size : b'.size = max b.size (b.position + x.length)
  contents : b'.contents = overwrite b.contents b.position x

theorem Inv.stored (hb : b.Inv B) (n) (hposition : b'.position = b.position + x.length)
    (hsize : b'.size = max b.size (b.position + x.length))
    (hmem : b'.root.flatten = overwrite (b.flat.reserve B n).mem b.position x) : Stored b x b' := by
  have hlen : b.size ≤ b.root.flatten.length := by
    rw [hb.length_flatten]
    exact hb.size_le
  have hold : b.size ≤ (b.flat.reserve B n).mem.length := by
    simp only [Flat.reserve, Flat.grow, flat, List.length_append]
    omega
  have hkeep : (b.flat.reserve B n).mem.take b.size = b.contents :=
    List.take_append_of_le_length hlen
  refine ⟨hposition, hsize, ?_⟩
  rw [contents, hsize, hmem, take_max_overwrite _ _ hb.position_le hold, hkeep]

theorem Inv.write_stored (hB : 1 ≤ B) (hb : b.Inv B) (x) :
    ∃ b', (write x).run b = .ok () b' ∧ b'.Inv B ∧ Stored b x b' := by
  obtain ⟨b', hrun, hi, hflat, -⟩ := hb.write_eq hB x
  refine ⟨b', hrun, hi, hb.stored x.length ?_ ?_ (congrArg Flat.mem hflat)⟩
  · exact congrArg Flat.position hflat
  · exact congrArg Flat.size hflat

theorem Inv.fill_stored (hB : 1 ≤ B) (hb : b.Inv B) (hx : x.length ≤ n) :
    ∃ vs b₁ b', (getWriteBuffers n).run b = .ok (n, vs) b₁ ∧
      (setPosition (b₁.position + x.length)).run { b₁ with root := scatter b₁.root vs x } =
        .ok () b' ∧ b'.Inv B ∧ Stored b x b' := by
  obtain ⟨vs, b₁, hget, hi, hflat, -, hfit, hcov⟩ := hb.getWriteBuffers_eq hB n
  obtain ⟨hi₂, hmem⟩ := hi.scattered hcov hfit hx
  have hposition : b₁.position = b.position := congrArg Flat.position hflat
  have hsize : b₁.size = b.size := congrArg Flat.size hflat
  obtain ⟨b', hset, hi', heq⟩ := hi₂.setPosition_eq hB (v := b₁.position + x.length)
    (by dsimp only; omega)
  refine ⟨vs, b₁, b', hget, hset, hi', hb.stored n ?_ ?_ ?_⟩
  · rw [heq, ← hposition]
  · rw [heq, ← hposition, ← hsize]
  · rw [heq, ← hflat, ← hposition]
    exact hmem

theorem Inv.read_eq_setPosition (hB : 1 ≤ B) (hb : b.Inv B) (hk : 0 < k)
    (hle : k ≤ b.size - b.position) :
    ∃ b', (setPosition (b.position + k)).run b = .ok () b' ∧
      (read k).run b = .ok (slice b.root.flatten b.position k) b' := by
  have hcap := hb.size_le
  obtain ⟨b₁, hset, hi₁, heq₁⟩ := hb.setPosition_eq hB (v := b.position + k) (by omega)
  obtain ⟨b₂, hread, hi₂, heq₂⟩ := hb.read_eq hB hk hle
  have hsize : max b.size (b.position + k) = b.size := Nat.max_eq_left (by omega)
  rw [hsize] at heq₁
  -- the two objects agree in all but the current block, and the invariant gives that
  have hcur : b₁.cur = b₂.cur := by
    rw [hi₁.cur, hi₂.cur, heq₁, heq₂]
  have hsame : b₁ = b₂ := by
    rw [heq₁, heq₂, hcur]
  exact ⟨b₁, hset, hsame ▸ hread⟩

/-- In every object that calls lead to, filling the front of the write buffers is `write`, and
emptying the front of the read buffers is `read`, for every shorter transfer. -/
theorem buffers_agree_with_copies (B : Nat) (hB : 1 ≤ B) (b : ByteArray) (hb : Reachable B b)
    (n : Nat) :
    (∃ vs b₁, (getWriteBuffers n).run b = .ok (n, vs) b₁ ∧
      ∀ x : List UInt8, 1 ≤ x.length → x.length ≤ n → ∃ b₂ b',
        (setPosition (b₁.position + x.length)).run { b₁ with root := scatter b₁.root vs x } =
          .ok () b₂ ∧
        (write x).run b = .ok () b' ∧ b₂.contents = b'.contents ∧ b₂.size = b'.size ∧
        b₂.position = b'.position) ∧
    ∃ len vs, (getReadBuffers n).run b = .ok (len, vs) b ∧
      ∀ rt, 1 ≤ rt → rt ≤ len → ∃ b', (setPosition (b.position + rt)).run b = .ok () b' ∧
        (read rt).run b = .ok ((gather b.root vs).take rt) b' := by
  have hi := hb.inv hB
  constructor
  · obtain ⟨vs, b₁, hget, -⟩ := hi.getWriteBuffers_eq hB n
    refine ⟨vs, b₁, hget, ?_⟩
    intro x _ hx
    obtain ⟨vs', c, b₂, hget', hset, -, hfill⟩ := hi.fill_stored hB hx
    obtain ⟨b', hwrite, -, hcopy⟩ := hi.write_stored hB x
    rw [hget] at hget'
    cases hget'
    refine ⟨b₂, b', hset, hwrite, ?_, ?_, ?_⟩
    · rw [hfill.contents, hcopy.contents]
    · rw [hfill.size, hcopy.size]
    · rw [hfill.position, hcopy.position]
  · obtain ⟨vs, hget, hcov⟩ := hi.getReadBuffers_eq hB n
    refine ⟨_, vs, hget, ?_⟩
    intro rt hpos hle
    obtain ⟨b', hset, hread⟩ := hi.read_eq_setPosition hB hpos (by omega)
    refine ⟨b', hset, ?_⟩
    rw [hread, Covers.gather_eq hi.uniform hcov, take_slice, Nat.min_eq_left hle]

def threeRead : ByteArray :=
  (runAll Op.exec [.write [0, 1, 2, 3, 4, 5], .setPosition 3] (new 4 fun _ => 0)).2

theorem reachable_threeRead : Reachable 4 threeRead :=
  .call (.setPosition 3) (.call (.write [0, 1, 2, 3, 4, 5]) (.new fun _ => 0))

theorem buffers_agree_with_copies_threeRead :
    (∃ vs b₁ b₂ b', (getWriteBuffers 7).run threeRead = .ok (7, vs) b₁ ∧
      (setPosition (b₁.position + 3)).run { b₁ with root := scatter b₁.root vs [7, 8, 9] } =
        .ok () b₂ ∧ (write [7, 8, 9]).run threeRead = .ok () b' ∧ b₂.contents = b'.contents) ∧
    ∃ b', (read 2).run threeRead = .ok [3, 4] b' := by
  have h := buffers_agree_with_copies 4 (by decide) threeRead reachable_threeRead 7
  obtain ⟨⟨vs, b₁, hget, hfill⟩, len, ws, hread, hcopy⟩ := h
  obtain ⟨b₂, b', hset, hwrite, hcontents, -⟩ := hfill [7, 8, 9] (by decide) (by decide)
  have hbuffers : (getReadBuffers 7).run threeRead = .ok (3, [⟨0, 3, 1⟩, ⟨1, 0, 2⟩]) threeRead := by
    rfl
  rw [hbuffers] at hread
  cases hread
  obtain ⟨b₃, -, hrt⟩ := hcopy 2 (by decide) (by decide)
  exact ⟨⟨vs, b₁, b₂, b', hget, hset, hwrite, hcontents⟩, b₃, hrt⟩

end ByteArray
end Helens
