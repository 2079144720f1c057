import Helens.ByteArrayRuns
import Helens.Lib.Runs

/-! The overloads of `read` and `getReadBuffers` that take a position. `read` looks into the block
of the cursor, and `getReadBuffers` clamps by what is left behind the cursor. -/

namespace Helens
open Lib.Blocks Lib.Runs Lib.StateError List

namespace ByteArray

/-! ## Reachable objects -/

theorem exec_inv {B : Nat} (hB : 1 ≤ B) (op : Op) (b : ByteArray) (hb : b.Inv B) :
    (stateOf (op.exec.run b)).Inv B := by
  by_cases hop : op = .read 0
  · have hread : op.exec.run b =
        if b.position < b.capacity then .ok (.bytes []) b else .error .nullDeref b := by
      by_cases hlt : b.position < b.capacity
      · simp [hop, Op.exec, hb.read_zero hB, hlt]
      · simp [hop, Op.exec, hb.read_zero hB, hlt]
    rw [hread]
    split <;> exact hb
  · exact (op.exec_refines hB b hop hb).2.1

theorem inv_of_run {B : Nat} (hB : 1 ≤ B) (heap : Nat → UInt8) (ops) :
    (runAll Op.exec ops (new B heap)).2.Inv B :=
  runAll_keeps Op.exec (Inv B) (fun op b => exec_inv hB op b) ops _ (inv_new hB heap)

/-! ## The positioned calls -/

/-- The cursor and the position are inside the chain, in one block if there is something to read. -/
def SameBlock (b : ByteArray) (n position : Nat) : Prop :=
  b.position < b.capacity ∧ position < b.capacity ∧
    (n = 0 ∨ position / b.baseSize = b.position / b.baseSize)
  deriving Decidable

/-- What is left to read is the same for the cursor and for the position, or more than `len`
for both. -/
def SameRest (b : ByteArray) (len position : Nat) : Prop :=
  min len (b.size - b.position) = min len (b.size - position)
  deriving Decidable

variable {B : Nat} {b : ByteArray}

theorem Inv.readAt_eq (hB : 1 ≤ B) (hb : b.Inv B) {n position : Nat} (hpos : position ≤ b.size)
    (hn : n ≤ b.size - position) (hblock : SameBlock b n position) :
    ∃ vs c, b.walkFrom position n = .ok (vs, c) ∧ cells B vs = (range n).map (position + ·) ∧
      (readAt n position).run b = .ok (slice b.root.flatten position n) b := by
  have hsize := hb.size_le
  obtain ⟨hlt, hlt', rfl | heq⟩ := hblock
  · obtain ⟨x, hd, -⟩ := hb.deref_at hB hlt
    have hw : b.walkFrom position 0 = .ok ([], b.cur) := by
      simp only [walkFrom, hb.cur, if_pos hlt, hd, bind, Except.bind, walk]
    exact ⟨[], b.cur, hw, rfl, by simp [readAt, hw, ofExcept, gather, pieces]⟩
  · rw [hb.base] at heq
    have hcur : b.cur = some (position / B) := by rw [hb.cur, if_pos hlt, heq]
    obtain ⟨vs, hw, hcov⟩ := hb.walkFrom_at hB position n hcur hlt' (by omega)
    refine ⟨vs, _, hw, hcov.cells_eq, ?_⟩
    simp [readAt, sizeSub_of_le hpos, Nat.not_lt.mpr hn, hw, ofExcept,
      Covers.gather_eq hb.uniform hcov]

/-- The walk begins where it is told to. -/
theorem walk_head {rt : List Node} {ncap : Nat} (hncap : 0 < ncap)
    (hd : deref rt (some i) = .ok (i, x))
    (h : walk rt fuel (some i) npos ncap (n + 1) = .ok (vs, c)) :
    (cells B vs).head? = some (B * i + npos) := by
  obtain _ | fuel := fuel
  · cases h
  have hcell : ∀ len vs, 0 < len →
      (cells B (⟨i, npos, len⟩ :: vs)).head? = some (B * i + npos) := by
    rintro (_ | len) vs hlen
    · exact absurd hlen (Nat.lt_irrefl 0)
    · simp [cells, range_succ_eq_map]
  simp only [walk, hd, Except.bind, bind] at h
  split at h
  · cases h
    exact hcell _ _ (Nat.succ_pos n)
  · obtain ⟨y, -, h⟩ := bind_eq_ok.mp h
    obtain ⟨z, -, h⟩ := bind_eq_ok.mp h
    cases h
    exact hcell _ _ hncap

theorem Inv.sameBlock (hB : 1 ≤ B) (hb : b.Inv B) {n pos : Nat} (hpos : pos < b.capacity)
    (hw : b.walkFrom pos n = .ok (vs, c)) (hcells : cells B vs = (range n).map (pos + ·)) :
    SameBlock b n pos := by
  have hlt : b.position < b.capacity := by
    by_contra hend
    simp [walkFrom, hb.cur, if_neg hend, deref, bind, Except.bind] at hw
  refine ⟨hlt, hpos, ?_⟩
  cases n with
  | zero => exact .inl rfl
  | succ n =>
    obtain ⟨x, hd, hlen⟩ := hb.deref_at hB hlt
    have hoff : pos % B < B := Nat.mod_lt _ hB
    simp only [walkFrom, hb.cur, if_pos hlt, hd, hlen, hb.base, bind, Except.bind] at hw
    have hhead := @walk_head B _ _ _ _ _ _ _ _ _ (Nat.sub_pos_of_lt hoff) hd hw
    simp only [hcells, range_succ_eq_map, map_cons, head?_cons, Nat.add_zero,
      Option.some.injEq] at hhead
    right
    rw [hb.base, hhead, Nat.mul_add_div hB, Nat.div_eq_of_lt hoff, Nat.add_zero]

theorem skip_eq (root : List Node) (count i) (h : i + count < root.length) :
    skip root count (some i) = .ok (some (i + count)) := by
  induction count generalizing i with
  | zero => rfl
  | succ count ih =>
    have hnext : next root i = some (i + 1) := if_pos (by omega)
    simp only [skip, deref_lt root i (by omega), bind, Except.bind, hnext]
    rw [ih (i + 1) (by omega)]
    congr 2
    omega

theorem Inv.getReadBuffersAt_eq (hB : 1 ≤ B) (hb : b.Inv B) {len position : Nat}
    (hpos : position ≤ b.size) (hrest : SameRest b len position) :
    ∃ vs, (getReadBuffersAt len position).run b = .ok (min len (b.size - position), vs) b ∧
      Covers B b.root.length position vs (min len (b.size - position)) := by
  have hsize := hb.size_le
  have hmin : (if len > b.size - b.position then b.size - b.position else len) =
      min len (b.size - position) := by
    rw [← hrest]
    split <;> omega
  by_cases hz : min len (b.size - position) = 0
  · exact ⟨[], by simp [getReadBuffersAt, hb.getReadSize_eq, hmin, hz], hz⟩
  · have hlt : position < b.capacity := by omega
    obtain ⟨n, hd, hlen⟩ := hb.deref_at hB hlt
    obtain ⟨vs, hw, hcov⟩ := hb.walk_at hB position (min len (b.size - position)) hlt (by omega)
    have hi : position / B < b.root.length := by
      rw [Nat.div_lt_iff_lt_mul (by omega), Nat.mul_comm, ← hb.capacity]
      exact hlt
    have hskip : skip b.root (position / B) (some 0) = .ok (some (position / B)) := by
      have h := skip_eq b.root (position / B) 0 (by omega)
      rwa [Nat.zero_add] at h
    refine ⟨vs, ?_, hcov⟩
    simp [getReadBuffersAt, hb.getReadSize_eq, hmin, hz, hb.base, hskip, hd, hlen, hw, ofExcept]

theorem Inv.getReadBuffersAt_fst (hb : b.Inv B) {len pos n : Nat}
    (h : (getReadBuffersAt len pos).run b = .ok (n, vs) c) :
    n = min len (b.size - b.position) := by
  have hmin : (if len > b.size - b.position then b.size - b.position else len) =
      min len (b.size - b.position) := by
    split <;> omega
  obtain ⟨b₀, b₁, hget, h⟩ := run_bind_eq_ok h
  cases hget
  dsimp only at h
  rw [hb.getReadSize_eq, hmin] at h
  obtain ⟨hz, h⟩ | ⟨-, h⟩ := run_ite_eq_ok h
  · cases h
    exact hz.symm
  · obtain ⟨cur, b₁, -, h⟩ := run_bind_eq_ok h
    obtain ⟨x, b₂, -, h⟩ := run_bind_eq_ok h
    obtain ⟨y, b₃, -, h⟩ := run_bind_eq_ok h
    cases h
    rfl

/-! ## Beside a move of the cursor -/

theorem mem_cells_lt {vs : List IoVec} {position n size : Nat} (hpos : position ≤ size)
    (hn : n ≤ size - position) (hcells : cells B vs = (range n).map (position + ·)) :
    ∀ a ∈ cells B vs, a < size := by
  intro a ha
  rw [hcells, mem_map] at ha
  obtain ⟨i, hi, rfl⟩ := ha
  rw [mem_range] at hi
  omega

theorem Inv.read_slice (hB : 1 ≤ B) (hb : b.Inv B) (hlt : b.position < b.capacity)
    (hn : n ≤ b.size - b.position) :
    ∃ b', (read n).run b = .ok (slice b.root.flatten b.position n) b' := by
  cases n with
  | zero =>
    refine ⟨b, ?_⟩
    rw [hb.read_zero hB, if_pos hlt]
    simp
  | succ n =>
    obtain ⟨b', hr, -⟩ := hb.read_eq hB (Nat.succ_pos n) hn
    exact ⟨b', hr⟩

/-- In every object that calls lead to, a positioned `read` takes what a move of the cursor and the
plain call take, exactly if the position is in the cursor's block or there is nothing to take; a
positioned `getReadBuffers` exactly if there is as much to read. -/
theorem positioned_calls_agree (B : Nat) (hB : 1 ≤ B) (heap : Nat → UInt8) (ops : List Op)
    (b : ByteArray) (hrun : (runAll Op.exec ops (new B heap)).2 = b) (position : Nat)
    (hpos : position ≤ b.size) :
    ∃ b', (setPosition position).run b = .ok () b' ∧
      (∀ n, n ≤ b.size - position → (SameBlock b n position ↔
        ∃ buf vs cur b'', (readAt n position).run b = .ok buf b ∧ (read n).run b' = .ok buf b'' ∧
          b.walkFrom position n = .ok (vs, cur) ∧
          cells B vs = (List.range n).map (position + ·) ∧ ∀ a ∈ cells B vs, a < b.size)) ∧
      ∀ len, SameRest b len position ↔
        ∃ size vs vs', (getReadBuffersAt len position).run b = .ok (size, vs) b ∧
          (getReadBuffers len).run b' = .ok (size, vs') b' ∧
          cells B vs = cells B vs' ∧ gather b.root vs = gather b'.root vs' ∧
          ∀ a ∈ cells B vs, a < b.size := by
  have hb : b.Inv B := hrun ▸ inv_of_run hB heap ops
  have hcap : position ≤ b.capacity := Nat.le_trans hpos hb.size_le
  obtain ⟨b', hset, hb', heq⟩ := hb.setPosition_eq hB hcap
  have hroot : b'.root = b.root := by rw [heq]
  have hat : b'.position = position := by rw [heq]
  have hsize : b'.size = b.size := by
    rw [heq]
    exact Nat.max_eq_left hpos
  have hcapacity : b'.capacity = b.capacity := by rw [heq]
  refine ⟨b', hset, fun n hn => ⟨fun hblock => ?_, ?_⟩, fun len => ?_⟩
  · obtain ⟨vs, cur, hw, hcells, hread⟩ := hb.readAt_eq hB hpos hn hblock
    have hlt : b'.position < b'.capacity := by
      rw [hat, hcapacity]
      exact hblock.2.1
    have hrest : n ≤ b'.size - b'.position := by
      rw [hat, hsize]
      exact hn
    obtain ⟨b'', hread'⟩ := hb'.read_slice hB hlt hrest
    rw [hat, hroot] at hread'
    exact ⟨_, vs, cur, b'', hread, hread', hw, hcells, mem_cells_lt hpos hn hcells⟩
  · rintro ⟨buf, vs, cur, b'', -, hread', hw, hcells, -⟩
    have hlt : position < b.capacity := by
      cases n with
      | zero =>
        rw [hb'.read_zero hB, hat, hcapacity] at hread'
        by_contra hend
        rw [if_neg hend] at hread'
        cases hread'
      | succ n =>
        have hle := hb.size_le
        omega
    exact hb.sameBlock hB hlt hw hcells
  · obtain ⟨vs', hbuffers', hcov'⟩ := hb'.getReadBuffers_eq hB len
    rw [hat, hsize] at hbuffers' hcov'
    constructor
    · intro hrest
      obtain ⟨vs, hbuffers, hcov⟩ := hb.getReadBuffersAt_eq hB hpos hrest
      refine ⟨_, vs, vs', hbuffers, hbuffers', ?_, ?_, ?_⟩
      · rw [hcov.cells_eq, hcov'.cells_eq]
      · rw [Covers.gather_eq hb.uniform hcov, Covers.gather_eq hb'.uniform hcov', hroot]
      · exact mem_cells_lt hpos (Nat.min_le_right _ _) hcov.cells_eq
    · rintro ⟨n, vs, ws, hbuffers, hplain, -⟩
      rw [hbuffers'] at hplain
      cases hplain
      exact (hb.getReadBuffersAt_fst hbuffers).symm

def insideRun : List Op := [.write [0, 1, 2, 3, 4, 5, 6, 7, 8, 9], .setPosition 5]

def inside : ByteArray := (runAll Op.exec insideRun (new 4 fun _ => 0)).2

theorem positioned_calls_agree_inside : SameBlock inside 3 6 ∧ SameRest inside 4 6 ∧
    (∃ buf b' b'', (setPosition 6).run inside = .ok () b' ∧
      (readAt 3 6).run inside = .ok buf inside ∧ (read 3).run b' = .ok buf b'') ∧
    ∃ size vs, (getReadBuffersAt 4 6).run inside = .ok (size, vs) inside := by
  obtain ⟨b', hset, hread, hbuffers⟩ :=
    positioned_calls_agree 4 (by decide) (fun _ => 0) insideRun inside rfl 6 (by decide)
  obtain ⟨buf, vs, cur, b'', hread, hread', -⟩ := (hread 3 (by decide)).mp (by decide)
  obtain ⟨size, vs, vs', hat, -⟩ := (hbuffers 4).mp (by decide)
  exact ⟨by decide, by decide, ⟨buf, b', b'', hset, hread, hread'⟩, size, vs, hat⟩

/-- With the cursor at the end, `read` at 0 takes the last block and `getReadBuffers` at 0 finds
nothing; with the cursor at 0, `getReadBuffers` at 8 runs off the chain. -/
theorem positioned_calls_disagree :
    let ops := [Op.write [0, 1, 2, 3, 4, 5, 6, 7, 8, 9]]
    let written := (runAll Op.exec ops (new 4 fun _ => 0)).2
    let rewound := (runAll Op.exec (ops ++ [.setPosition 0]) (new 4 fun _ => 0)).2
    valueOf ((readAt 4 0).run written) = some [8, 9, 0, 0] ∧
      valueOf ((do setPosition 0; read 4).run written) = some [0, 1, 2, 3] ∧
      valueOf ((getReadBuffersAt 4 0).run written) = some (0, []) ∧
      valueOf ((do setPosition 0; getReadBuffers 4).run written) = some (4, [⟨0, 0, 4⟩]) ∧
      valueOf ((getReadBuffersAt 10 8).run rewound) = none ∧
      valueOf ((do setPosition 8; getReadBuffers 10).run rewound) = some (2, [⟨2, 0, 2⟩]) := by
  decide +kernel

end ByteArray
end Helens
