import Helens.ByteArrayFlat

/-! Whole runs of the chunked buffer. `Op` is a call a caller can make,
`Op.exec` the call on the chain of blocks and `Op.flat` the same call on flat
memory. Every run on blocks shows what the run on flat memory shows. -/

namespace Helens
open Lib.Blocks Lib.StateError

inductive Op
  | write (buf : List UInt8)
  | read (size : Nat)
  | setPosition (v : Nat)
  | clear
  | getWriteBuffers (len : Nat)
  | getReadBuffers (len : Nat)
  | toString
  deriving DecidableEq

inductive Ret (V : Type)
  | unit
  | bytes (buf : List UInt8)
  | buffers (len : Nat) (vs : V)
  deriving DecidableEq

def Ret.cells (B : Nat) : Ret (List IoVec) → Ret (List Nat)
  | .unit => .unit
  | .bytes buf => .bytes buf
  | .buffers len vs => .buffers len (Helens.cells B vs)

def Op.exec : Op → BA (Ret (List IoVec))
  | .write buf => do ByteArray.write buf; return .unit
  | .read size => do return .bytes (← ByteArray.read size)
  | .setPosition v => do ByteArray.setPosition v; return .unit
  | .clear => do ByteArray.clear; return .unit
  | .getWriteBuffers len => do
    let (n, vs) ← ByteArray.getWriteBuffers len
    return .buffers n vs
  | .getReadBuffers len => do
    let (n, vs) ← ByteArray.getReadBuffers len
    return .buffers n vs
  | .toString => do return .bytes (← ByteArray.toString)

def Flat.addresses (f : Flat) (n : Nat) : List Nat := (List.range n).map (f.position + ·)

def Op.flat (B : Nat) : Op → EStateM Fault Flat (Ret (List Nat))
  | .write buf => do
    modify fun f => (f.reserve B buf.length).store buf
    return .unit
  | .read size => do
    let f ← get
    if size > f.size - f.position then
      throw (.outOfRange "not enough len")
    set { f with position := f.position + size }
    return .bytes (slice f.mem f.position size)
  | .setPosition v => do
    let f ← get
    if v > f.mem.length then
      throw (.outOfRange "set_position out of range")
    set { f with position := v, size := max f.size v }
    return .unit
  | .clear => do
    modify fun f => { f with mem := f.mem.take B, position := 0, size := 0 }
    return .unit
  | .getWriteBuffers len => do
    modify fun f => f.reserve B len
    return .buffers len ((← get).addresses len)
  | .getReadBuffers len => do
    let f ← get
    let n := min len (f.size - f.position)
    return .buffers n (f.addresses n)
  | .toString => do
    let f ← get
    return .bytes (slice f.mem f.position (f.size - f.position))

theorem Op.exec_refines (hB : 1 ≤ B) (op : Op) (b : ByteArray) (hop : op ≠ .read 0) (hb : b.Inv B) :
    mapResult ByteArray.flat (Ret.cells B) (op.exec.run b) = (op.flat B).run b.flat ∧
      (stateOf (op.exec.run b)).Inv B ∧ ∀ e t, op.exec.run b = .error e t → t = b := by
  cases op with
  | write buf =>
    obtain ⟨b', hr, hi, hf, _⟩ := hb.write_eq hB buf
    have hx : (Op.write buf).exec.run b = .ok .unit b' := by simp [Op.exec, hr]
    rw [hx]
    exact ⟨by simp [mapResult, Op.flat, Ret.cells, hf], hi, by simp⟩
  | read n =>
    by_cases hlt : b.size - b.position < n
    · have hx : (Op.read n).exec.run b = .error (.outOfRange "not enough len") b := by
        simp [Op.exec, hb.read_throw hlt]
      rw [hx]
      exact ⟨by simp [mapResult, Op.flat, ByteArray.flat, hlt], hb, by simp⟩
    · have hn : 0 < n := by
        rcases Nat.eq_zero_or_pos n with rfl | h
        · exact absurd rfl hop
        · exact h
      obtain ⟨b', hr, hi, hf⟩ := hb.read_eq hB hn (by omega)
      have hx : (Op.read n).exec.run b =
          .ok (.bytes (slice b.root.flatten b.position n)) b' := by simp [Op.exec, hr]
      rw [hx]
      refine ⟨?_, hi, by simp⟩
      rw [hf]
      simp [mapResult, Op.flat, ByteArray.flat, Ret.cells, hlt]
  | setPosition v =>
    by_cases hv : b.capacity < v
    · have hx : (Op.setPosition v).exec.run b =
          .error (.outOfRange "set_position out of range") b := by
        simp [Op.exec, ByteArray.setPosition_throw hv]
      rw [hx]
      refine ⟨?_, hb, by simp⟩
      simp only [mapResult, Op.flat, ByteArray.flat, EStateM.run_bind, EStateM.run_get,
        hb.length_flatten, gt_iff_lt, if_pos hv]
      rfl
    · obtain ⟨b', hr, hi, hf⟩ := hb.setPosition_eq hB (v := v) (by omega)
      have hx : (Op.setPosition v).exec.run b = .ok .unit b' := by simp [Op.exec, hr]
      rw [hx]
      refine ⟨?_, hi, by simp⟩
      rw [hf]
      simp only [mapResult, Op.flat, ByteArray.flat, EStateM.run_bind, EStateM.run_get,
        hb.length_flatten, gt_iff_lt, if_neg hv, EStateM.run_set]
      rfl
  | clear =>
    obtain ⟨b', hr, hi, hf⟩ := hb.clear_eq hB
    have hx : Op.clear.exec.run b = .ok .unit b' := by simp [Op.exec, hr]
    rw [hx]
    exact ⟨by simp [mapResult, Op.flat, Ret.cells, hf], hi, by simp⟩
  | getWriteBuffers len =>
    obtain ⟨vs, b', hr, hi, hf, _, _, hcov⟩ := hb.getWriteBuffers_eq hB len
    have hx : (Op.getWriteBuffers len).exec.run b = .ok (.buffers len vs) b' := by
      simp [Op.exec, hr]
    rw [hx]
    refine ⟨?_, hi, by simp⟩
    simp only [mapResult, Op.flat, Ret.cells, hcov.cells_eq, Flat.addresses, EStateM.run_bind,
      EStateM.run_modify, EStateM.run_get, EStateM.run_pure, ← hf]
    rfl
  | getReadBuffers len =>
    obtain ⟨vs, hr, hcov⟩ := hb.getReadBuffers_eq hB len
    have hx : (Op.getReadBuffers len).exec.run b =
        .ok (.buffers (min len (b.size - b.position)) vs) b := by simp [Op.exec, hr]
    rw [hx]
    refine ⟨?_, hb, by simp⟩
    simp [mapResult, Op.flat, Ret.cells, hcov.cells_eq, Flat.addresses, ByteArray.flat]
  | toString =>
    have hx : Op.toString.exec.run b =
        .ok (.bytes (slice b.root.flatten b.position (b.size - b.position))) b := by
      simp [Op.exec, hb.toString_eq hB]
    rw [hx]
    exact ⟨by simp [mapResult, Op.flat, Ret.cells, ByteArray.flat], hb, by simp⟩

theorem Op.flat_error (op : Op) (f e t)
    (h : (op.flat B).run f = .error e t) : ∃ what, e = .outOfRange what := by
  cases op with
  | read n =>
    by_cases hlt : f.size - f.position < n
    · simp only [Op.flat, EStateM.run_bind, EStateM.run_get, gt_iff_lt, if_pos hlt] at h
      cases h
      exact ⟨_, rfl⟩
    · simp only [Op.flat, EStateM.run_bind, EStateM.run_get, gt_iff_lt, if_neg hlt] at h
      cases h
  | setPosition v =>
    by_cases hlt : f.mem.length < v
    · simp only [Op.flat, EStateM.run_bind, EStateM.run_get, gt_iff_lt, if_pos hlt] at h
      cases h
      exact ⟨_, rfl⟩
    · simp only [Op.flat, EStateM.run_bind, EStateM.run_get, gt_iff_lt, if_neg hlt] at h
      cases h
  | write buf => cases h
  | clear => cases h
  | getWriteBuffers len => cases h
  | getReadBuffers len => cases h
  | toString => cases h

theorem ByteArray.Inv.write_frame (hB : 1 ≤ B) (hb : b.Inv B)
    (buf : List UInt8) (i) (hi : i < b.capacity)
    (hout : i < b.position ∨ b.position + buf.length ≤ i) :
    (stateOf ((ByteArray.write buf).run b)).flat.mem[i]? = b.flat.mem[i]? := by
  obtain ⟨c, _, _, hcf, _, hroom⟩ := hb.addCapacity_eq hB buf.length
  obtain ⟨b', hr, _, hf, _⟩ := hb.write_eq hB buf
  have hlen : i < b.flat.mem.length := by
    simp only [ByteArray.flat, hb.length_flatten]
    exact hi
  have hres : b.position + buf.length ≤ (b.flat.reserve B buf.length).mem.length := by
    rw [← hcf]
    have hc := ‹c.Inv B›.length_flatten
    have hp : c.position = b.position := congrArg Flat.position hcf
    simp only [ByteArray.flat, hc]
    omega
  rw [hr]
  simp only [stateOf, hf, Flat.store]
  change (overwrite _ b.position buf)[i]? = _
  rw [getElem?_overwrite _ _ _ _ hres hout]
  simp only [Flat.reserve, Flat.grow]
  rw [List.getElem?_append_left hlen]

/-- **The node list refines a flat buffer** in every run, with the same outcomes, position, size,
capacity and current block. A call that throws leaves the object as it was. -/
theorem runs_refine_flat (B : Nat) (hB : 1 ≤ B) (heap : Nat → UInt8) (ops : List Op)
    (hops : ∀ op ∈ ops, op ≠ .read 0) (b : ByteArray) (outs : List (Except Fault
      (Ret (List IoVec))))
    (hrun : runAll Op.exec ops (ByteArray.new B heap) = (outs, b)) :
    outs.map (·.map (Ret.cells B)) = (runAll (Op.flat B) ops (Flat.new B heap)).1 ∧
    b.flat = (runAll (Op.flat B) ops (Flat.new B heap)).2 ∧
    (∀ e, .error e ∈ outs → ∃ what, e = .outOfRange what) ∧
    b.capacity = B * b.root.length ∧ b.position ≤ b.size ∧ b.size ≤ b.capacity ∧
    b.cur = (if b.position = b.capacity then none else some (b.position / B)) ∧
    (∀ (op : Op) (e : Fault) (t : ByteArray), op ≠ .read 0 → op.exec.run b = .error e t → t = b) ∧
    ∀ (buf : List UInt8) (i : Nat), i < b.capacity →
      (i < b.position ∨ b.position + buf.length ≤ i) →
      (stateOf ((ByteArray.write buf).run b)).flat.mem[i]? = b.flat.mem[i]? := by
  have hnew : (ByteArray.new B heap).flat = Flat.new B heap := by
    simp [ByteArray.flat, ByteArray.new, Flat.new]
  have hsim := runAll_simulates Op.exec (Op.flat B) ByteArray.flat (Ret.cells B)
    (ByteArray.Inv B) (· ≠ .read 0)
    (fun op s ho hs => ⟨(op.exec_refines hB s ho hs).1, (op.exec_refines hB s ho hs).2.1⟩)
    ops (ByteArray.new B heap) hops (ByteArray.inv_new hB heap)
  rw [hnew, hrun] at hsim
  obtain ⟨houts, hflat, (hinv : b.Inv B)⟩ := hsim
  refine ⟨houts, hflat, ?_, hinv.capacity, hinv.position_le, hinv.size_le, ?_, ?_, ?_⟩
  · intro e he
    have hm : .error e ∈ (runAll (Op.flat B) ops (Flat.new B heap)).1 := by
      rw [← houts]
      exact List.mem_map.mpr ⟨_, he, rfl⟩
    exact error_mem_runAll (Op.flat B) (fun e => ∃ what, e = .outOfRange what)
      Op.flat_error ops _ e hm
  · have hle : b.position ≤ b.capacity := Nat.le_trans hinv.position_le hinv.size_le
    rw [hinv.cur]
    by_cases hz : b.position = b.capacity
    · rw [if_neg (by omega), if_pos hz]
    · rw [if_pos (by omega), if_neg hz]
  · intro op e t ho
    exact (op.exec_refines hB b ho hinv).2.2 e t
  · intro buf i hi hout
    exact hinv.write_frame hB buf i hi hout

def boundaryRun : List Op := [.write [1, 2, 3, 4], .read 1, .setPosition 1, .read 3]

theorem runs_refine_flat_boundary : (runAll Op.exec boundaryRun (ByteArray.new 2 fun _ => 0)).1 =
      [.ok .unit, .error (.outOfRange "not enough len"), .ok .unit, .ok (.bytes [2, 3, 4])] ∧
    (runAll Op.exec boundaryRun (ByteArray.new 2 fun _ => 0)).2.cur = none := by
  have h := runs_refine_flat 2 (by decide) (fun _ => 0) boundaryRun (by decide)
    (runAll Op.exec boundaryRun (ByteArray.new 2 fun _ => 0)).2
    (runAll Op.exec boundaryRun (ByteArray.new 2 fun _ => 0)).1 rfl
  exact ⟨by decide, h.2.2.2.2.2.2.1.trans (by decide)⟩

end Helens
