import Helens.ByteArray

/-! The chunked buffer seen as a flat one: `ByteArray.Inv` is the representation invariant,
`ByteArray.flat` the flat buffer, and each operation does on the chain what its namesake does on
flat memory. -/

namespace Helens
open Lib.Blocks List

/-! ## The flat buffer -/

/-- One stretch of memory with a cursor. `heap` is what memory that is claimed
later will hold. -/
structure Flat where
  mem : List UInt8
  position : Nat
  size : Nat
  heap : Nat → UInt8

namespace Flat

def grow (k : Nat) (f : Flat) : Flat :=
  { f with mem := f.mem ++ ByteArray.newNode f.heap k, heap := fun i => f.heap (k + i) }

/-- Room for `n` bytes behind the cursor; memory is claimed in units of `B`. -/
def reserve (B n : Nat) (f : Flat) : Flat :=
  f.grow (B * ((n - (f.mem.length - f.position) + B - 1) / B))

def store (buf : List UInt8) (f : Flat) : Flat :=
  { f with
    mem := overwrite f.mem f.position buf
    position := f.position + buf.length
    size := max f.size (f.position + buf.length) }

def new (B : Nat) (heap : Nat → UInt8) : Flat :=
  ⟨ByteArray.newNode heap B, 0, 0, fun i => heap (B + i)⟩

end Flat

/-! ## The representation -/

def ByteArray.flat (b : ByteArray) : Flat := ⟨b.root.flatten, b.position, b.size, b.heap⟩

structure ByteArray.Inv (B : Nat) (b : ByteArray) : Prop where
  base : b.baseSize = B
  uniform : Uniform B b.root
  some_block : 0 < b.root.length
  capacity : b.capacity = B * b.root.length
  position_le : b.position ≤ b.size
  size_le : b.size ≤ b.capacity
  cur : b.cur = if b.position < b.capacity then some (b.position / B) else none

/-- The iovecs name the `size` cells from `pos` on, in order, each within a
block of the chain. -/
def Covers (B blocks : Nat) : Nat → List IoVec → Nat → Prop
  | _, [], size => size = 0
  | pos, v :: vs, size => B * v.node + v.off = pos ∧ v.off + v.len ≤ B ∧ v.node < blocks ∧
      v.len ≤ size ∧ Covers B blocks (pos + v.len) vs (size - v.len)

def cells (B : Nat) (vs : List IoVec) : List Nat :=
  vs.flatMap fun v => (List.range v.len).map (B * v.node + v.off + ·)

variable {vs : List IoVec}

theorem Covers.cells_eq {B n : Nat}
    (h : Covers B n pos vs size) : cells B vs = (range size).map (pos + ·) := by
  induction vs generalizing pos size with
  | nil => rw [show size = 0 from h]; rfl
  | cons v vs ih =>
    obtain ⟨hpos, _, _, hle, ht⟩ := h
    have hs : size = v.len + (size - v.len) := by omega
    rw [hs, range_add, map_append, map_map]
    simp only [cells, flatMap_cons, hpos]
    congr 1
    have hc := ih ht
    simp only [cells] at hc
    rw [hc]
    apply map_congr_left
    intro i _
    simp [Nat.add_assoc]

namespace ByteArray

variable {B : Nat} {root : List Node} {b : ByteArray}

theorem Covers.gather_eq (hu : Uniform B root) {pos size : Nat}
    (h : Covers B root.length pos vs size) : gather root vs = slice root.flatten pos size := by
  induction vs generalizing pos size with
  | nil => rw [show size = 0 from h]; simp [gather, pieces]
  | cons v vs ih =>
    obtain ⟨hpos, hin, hnode, hle, ht⟩ := h
    have hx : root[v.node]? = some (root.getD v.node []) := by
      simp [getElem?_eq_getElem hnode]
    have hs : size = v.len + (size - v.len) := by omega
    have hg := ih ht
    rw [hs, slice_add, ← hg, ← hpos, slice_flatten hu hx _ _ hin]
    simp [gather, pieces]

/-- Filling the pieces from the front stores the buffer at their flat offset;
the buffer may be shorter than the pieces. -/
theorem Covers.scatter_eq (hu : Uniform B root) {pos size : Nat}
    (h : Covers B root.length pos vs size) (buf : List UInt8) (hbuf : buf.length ≤ size)
    (hcap : pos + size ≤ root.flatten.length) :
    (scatter root vs buf).flatten = overwrite root.flatten pos buf ∧
      Uniform B (scatter root vs buf) ∧ (scatter root vs buf).length = root.length := by
  induction vs generalizing root pos size buf with
  | nil =>
    have hz : buf = [] := length_eq_zero_iff.mp (by rw [show size = 0 from h] at hbuf; omega)
    subst hz
    exact ⟨by simp [scatter], hu, rfl⟩
  | cons v vs ih =>
    obtain ⟨hpos, hin, hnode, hle, ht⟩ := h
    have hx : root[v.node]? = some (root.getD v.node []) := by
      simp [getElem?_eq_getElem hnode]
    have hxlen : (root.getD v.node []).length = B := hu _ (mem_of_getElem? hx)
    have htake : (buf.take v.len).length ≤ v.len := length_take_le _ _
    have hset := flatten_set_overwrite hu hx v.off (buf.take v.len) (by omega)
    have hu' : Uniform B (root.set v.node (overwrite (root.getD v.node []) v.off
      (buf.take v.len))) :=
      hu.set _ _ (by rw [length_overwrite _ _ _ (by omega), hxlen])
    have hlen' : (root.set v.node (overwrite (root.getD v.node []) v.off
        (buf.take v.len))).length = root.length := by simp
    rw [← hlen'] at ht
    have hflat : (root.set v.node (overwrite (root.getD v.node []) v.off
        (buf.take v.len))).flatten.length = root.flatten.length := by
      rw [hu'.length_flatten, hu.length_flatten, hlen']
    obtain ⟨h1, h2, h3⟩ := ih hu' ht (buf.drop v.len) (by simp; omega) (by rw [hflat]; omega)
    refine ⟨?_, h2, h3.trans hlen'⟩
    simp only [scatter]
    rw [h1, hset, hpos]
    by_cases hb : buf.length ≤ v.len
    · -- the buffer ends inside this piece, so nothing is left for the others
      rw [take_of_length_le hb, drop_of_length_le hb, overwrite_nil]
    · have hl : (buf.take v.len).length = v.len := by simp; omega
      have hj := overwrite_overwrite root.flatten (buf.take v.len) (buf.drop v.len) pos (by omega)
      rwa [hl, take_append_drop] at hj

/-! ## The walk -/

theorem deref_lt (root : List Node) (i) (h : i < root.length) :
    deref root (some i) = .ok (i, root.getD i []) := by
  simp [deref, getElem?_eq_getElem h]

def blockAt (B blocks pos : Nat) : Option Nat := if pos < B * blocks then some (pos / B) else none

theorem blockAt_div {B blocks i o : Nat} (hi : i < blocks) (ho : o < B) :
    blockAt B blocks (B * i + o) = some i := by
  have hlt : B * i + o < B * blocks := by
    have := Nat.mul_le_mul_left B (Nat.succ_le_of_lt hi)
    rw [Nat.mul_succ] at this
    omega
  rw [blockAt, if_pos hlt, Nat.mul_add_div (by omega), Nat.div_eq_of_lt ho, Nat.add_zero]

theorem next_eq_blockAt (hB : 1 ≤ B) (root : List Node) (i) :
    next root i = blockAt B root.length (B * (i + 1)) := by
  unfold next blockAt
  by_cases h : i + 1 < root.length
  · rw [if_pos h, if_pos ((Nat.mul_lt_mul_left (by omega)).mpr h), Nat.mul_div_cancel_left _
      (by omega)]
  · rw [if_neg h, if_neg (fun hlt => h ((Nat.mul_lt_mul_left (by omega)).mp hlt))]

/-- One spec for the loop: as long as the cells asked for exist, it visits
exactly them and ends on the block of the position behind them. -/
theorem walk_covers (hu : Uniform B root) (fuel i npos size) (hi : i < root.length)
    (hn : npos < B) (hf : size ≤ fuel) (hcap : B * i + npos + size ≤ B * root.length) :
    ∃ vs, walk root fuel (some i) npos (B - npos) size =
        .ok (vs, blockAt B root.length (B * i + npos + size)) ∧
      Covers B root.length (B * i + npos) vs size := by
  have hlen : ∀ k, k < root.length → (root.getD k []).length = B := by
    intro k hk
    have hx : root[k]? = some (root.getD k []) := by simp [getElem?_eq_getElem hk]
    exact hu _ (mem_of_getElem? hx)
  induction fuel generalizing i npos size with
  | zero =>
    obtain rfl : size = 0 := by omega
    exact ⟨[], by simp [walk, blockAt_div hi hn], rfl⟩
  | succ fuel ih =>
    cases size with
    | zero => exact ⟨[], by simp [walk, blockAt_div hi hn], rfl⟩
    | succ size =>
      by_cases hlast : B - npos ≥ size + 1
      · refine ⟨[⟨i, npos, size + 1⟩], ?_, by simp [Covers]; omega⟩
        simp only [walk, deref_lt root i hi, bind, Except.bind, if_pos hlast, hlen i hi]
        by_cases hfull : B = npos + (size + 1)
        · rw [if_pos hfull, next_eq_blockAt (by omega : 1 ≤ B), Nat.mul_succ]
          have hsum : B * i + npos + (size + 1) = B * i + B := by omega
          rw [hsum]
        · rw [if_neg hfull, Nat.add_assoc, blockAt_div hi (by omega)]
      · -- the rest of this block is used up and the loop moves on
        have hnext : i + 1 < root.length := by
          by_contra hge
          have h1 := Nat.mul_le_mul_left B (show root.length ≤ i + 1 by omega)
          rw [Nat.mul_succ] at h1
          omega
        have hstep : B * (i + 1) = B * i + B := Nat.mul_succ B i
        obtain ⟨vs, hw, hc⟩ := ih (i + 1) 0 (size + 1 - (B - npos)) hnext (by omega) (by omega)
          (by omega)
        refine ⟨⟨i, npos, B - npos⟩ :: vs, ?_, ?_⟩
        · have hd := deref_lt root (i + 1) hnext
          simp only [walk, deref_lt root i hi, bind, Except.bind, if_neg hlast, next,
            if_pos hnext, hd, hlen (i + 1) hnext]
          rw [Nat.sub_zero] at hw
          rw [hw]
          simp only [Except.ok.injEq, Prod.mk.injEq, true_and]
          congr 1
          omega
        · refine ⟨rfl, by dsimp only; omega, hi, by dsimp only; omega, ?_⟩
          rw [show B * i + npos + (B - npos) = B * (i + 1) + 0 by omega]
          exact hc

theorem walk_pieces (hu : Uniform B root) (fuel i size) (hi : i < root.length)
    (hcap : B * i + size ≤ B * root.length) (vs cur)
    (hsize : 0 < size) (h : walk root fuel (some i) 0 B size = .ok (vs, cur)) :
    pieces root vs = chunks B fuel (slice root.flatten (B * i) size) := by
  induction fuel generalizing i size vs with
  | zero =>
    obtain ⟨size, rfl⟩ : ∃ n, size = n + 1 := ⟨size - 1, by omega⟩
    simp [walk] at h
  | succ fuel ih =>
    obtain ⟨size, rfl⟩ : ∃ n, size = n + 1 := ⟨size - 1, by omega⟩
    have hx : root[i]? = some (root.getD i []) := by simp [getElem?_eq_getElem hi]
    have hlen : (slice root.flatten (B * i) (size + 1)).length = size + 1 :=
      length_slice _ _ _ (by rw [hu.length_flatten]; exact hcap)
    simp only [walk, deref_lt root i hi, bind, Except.bind] at h
    rw [chunks, hlen]
    by_cases hlast : size + 1 ≤ B
    · rw [if_pos hlast] at h
      simp only [Except.ok.injEq, Prod.mk.injEq] at h
      rw [if_pos hlast, ← h.1, ← Nat.add_zero (B * i), slice_flatten hu hx _ _ (by omega)]
      rfl
    · have hstep : B * (i + 1) = B * i + B := Nat.mul_succ B i
      have hnext : i + 1 < root.length := by
        by_contra hge
        have h1 := Nat.mul_le_mul_left B (show root.length ≤ i + 1 by omega)
        omega
      have hy : root[i + 1]? = some (root.getD (i + 1) []) := by
        simp [getElem?_eq_getElem hnext]
      rw [if_neg hlast] at h
      simp only [next, if_pos hnext, deref_lt root (i + 1) hnext, hu _ (mem_of_getElem? hy)] at h
      cases hw : walk root fuel (some (i + 1)) 0 B (size + 1 - B) with
      | error e => simp [hw] at h
      | ok r =>
        obtain ⟨vs', cur'⟩ := r
        simp only [hw, Except.ok.injEq, Prod.mk.injEq] at h
        obtain ⟨rfl, rfl⟩ := h
        have hrest := ih (i + 1) (size + 1 - B) hnext (by omega) vs' (by omega) hw
        have hhead : slice (root.getD i []) 0 B =
            (slice root.flatten (B * i) (size + 1)).take B := by
          rw [take_slice, Nat.min_eq_left (by omega), ← slice_flatten hu hx 0 B (by omega),
            Nat.add_zero]
        rw [if_neg hlast, drop_slice, ← hstep, ← hrest, ← hhead]
        rfl

theorem Inv.length_flatten (hb : Inv B b) : b.root.flatten.length = b.capacity := by
  rw [hb.uniform.length_flatten, hb.capacity]

theorem Inv.deref_at (hB : 1 ≤ B) (hb : Inv B b) (h : pos < b.capacity) :
    ∃ n, deref b.root (some (pos / B)) = .ok (pos / B, n) ∧ n.length = B := by
  have hi : pos / B < b.root.length := by
    rw [Nat.div_lt_iff_lt_mul (by omega), Nat.mul_comm, ← hb.capacity]
    exact h
  have hx : b.root[pos / B]? = some (b.root.getD (pos / B) []) := by
    simp [getElem?_eq_getElem hi]
  exact ⟨_, deref_lt b.root _ hi, hb.uniform _ (mem_of_getElem? hx)⟩

theorem Inv.walk_at (hB : 1 ≤ B) (hb : Inv B b) (pos size) (h : pos < b.capacity)
    (hcap : pos + size ≤ b.capacity) :
    ∃ vs, walk b.root size (some (pos / B)) (pos % B) (B - pos % B) size =
        .ok (vs, blockAt B b.root.length (pos + size)) ∧
      Covers B b.root.length pos vs size := by
  have hi : pos / B < b.root.length := by
    rw [Nat.div_lt_iff_lt_mul (by omega), Nat.mul_comm, ← hb.capacity]
    exact h
  have hn : pos % B < B := Nat.mod_lt _ (by omega)
  have hpos : B * (pos / B) + pos % B = pos := Nat.div_add_mod _ _
  obtain ⟨vs, hw, hc⟩ := walk_covers hb.uniform size (pos / B) (pos % B) size
    hi hn (Nat.le_refl _) (by rw [hpos, ← hb.capacity]; exact hcap)
  rw [hpos] at hw hc
  exact ⟨vs, hw, hc⟩

theorem Inv.walkFrom_at (hB : 1 ≤ B) (hb : Inv B b) (pos size)
    (hcur : b.cur = some (pos / B)) (h : pos < b.capacity) (hcap : pos + size ≤ b.capacity) :
    ∃ vs, b.walkFrom pos size = .ok (vs, blockAt B b.root.length (pos + size)) ∧
      Covers B b.root.length pos vs size := by
  obtain ⟨n, hd, hlen⟩ := hb.deref_at hB h
  obtain ⟨vs, hw, hc⟩ := hb.walk_at hB pos size h hcap
  refine ⟨vs, ?_, hc⟩
  simp only [walkFrom, hcur, hd, bind, Except.bind, hb.base, hlen]
  exact hw

theorem Inv.walkFrom_eq (hB : 1 ≤ B) (hb : Inv B b) (size) (h : b.position < b.capacity)
    (hcap : b.position + size ≤ b.capacity) :
    ∃ vs, b.walkFrom b.position size = .ok (vs, blockAt B b.root.length (b.position + size)) ∧
      Covers B b.root.length b.position vs size := by
  have hcur : b.cur = some (b.position / B) := by rw [hb.cur, if_pos h]
  exact hb.walkFrom_at hB b.position size hcur h hcap

theorem Inv.scattered (hb : Inv B b) (hcov : Covers B b.root.length b.position vs n)
    (hfit : b.position + n ≤ b.capacity) (hx : x.length ≤ n) :
    Inv B { b with root := scatter b.root vs x } ∧
      (scatter b.root vs x).flatten = overwrite b.root.flatten b.position x := by
  obtain ⟨hmem, huni, hlen⟩ := Covers.scatter_eq hb.uniform hcov x hx
    (by rw [hb.length_flatten]; exact hfit)
  refine ⟨⟨hb.base, huni, ?_, ?_, hb.position_le, hb.size_le, hb.cur⟩, hmem⟩
  · rw [hlen]
    exact hb.some_block
  · rw [hlen]
    exact hb.capacity

/-! ## The operations -/

theorem sizeSub_of_le {a b : Nat} (h : b ≤ a) : sizeSub a b = a - b := if_pos h

theorem Inv.getReadSize_eq (hb : Inv B b) :
    b.getReadSize = b.size - b.position := sizeSub_of_le hb.position_le

theorem Inv.getCapacity_eq (hb : Inv B b) : b.getCapacity = b.capacity - b.position :=
  sizeSub_of_le (Nat.le_trans hb.position_le hb.size_le)

theorem newNode_add (heap : Nat → UInt8) (m n) :
    newNode heap (m + n) = newNode heap m ++ newNode (fun i => heap (m + i)) n := by
  simp [newNode, range_add, Function.comp_def]

@[simp] theorem length_newNode (heap : Nat → UInt8) (n) :
    (newNode heap n).length = n := by simp [newNode]

theorem appendNodes_eq (count) (b : ByteArray) :
    ∃ news : List Node, news.flatten = newNode b.heap (b.baseSize * count) ∧
      news.length = count ∧ Uniform b.baseSize news ∧
      appendNodes count b = { b with
        root := b.root ++ news
        capacity := b.capacity + b.baseSize * count
        heap := fun i => b.heap (b.baseSize * count + i) } := by
  induction count generalizing b with
  | zero => exact ⟨[], by simp [newNode], rfl, by simp [Uniform], by simp [appendNodes]⟩
  | succ count ih =>
    obtain ⟨news, h1, h2, h3, h4⟩ := ih { b with
      root := b.root ++ [newNode b.heap b.baseSize]
      capacity := b.capacity + b.baseSize
      heap := fun i => b.heap (b.baseSize + i) }
    have hm : b.baseSize * (count + 1) = b.baseSize + b.baseSize * count := by
      rw [Nat.mul_succ, Nat.add_comm]
    refine ⟨newNode b.heap b.baseSize :: news, ?_, by simp [h2], ?_, ?_⟩
    · rw [flatten_cons, h1, hm, newNode_add]
    · intro x hx
      rcases mem_cons.mp hx with rfl | hx
      · exact length_newNode _ _
      · exact h3 x hx
    · rw [appendNodes, h4]
      simp [hm, Nat.add_assoc]

theorem grow_zero (f : Flat) : f.grow 0 = f := by
  simp [Flat.grow, newNode]

theorem reserve_of_le {B n : Nat} (hB : 1 ≤ B) (f : Flat) (h : n ≤ f.mem.length - f.position) :
    f.reserve B n = f := by
  rw [Flat.reserve, Nat.sub_eq_zero_of_le h, Nat.div_eq_of_lt (by omega), Nat.mul_zero, grow_zero]

theorem le_mul_ceil (hB : 1 ≤ B) (n) : n ≤ B * ((n + B - 1) / B) := by
  have h1 := Nat.div_add_mod (n + B - 1) B
  have h2 := Nat.mod_lt (n + B - 1) (show 0 < B by omega)
  omega

theorem Inv.addCapacity_eq (hB : 1 ≤ B) (hb : Inv B b) (n) :
    ∃ b', (addCapacity n).run b = .ok () b' ∧ Inv B b' ∧ b'.flat = b.flat.reserve B n ∧
      b'.endian = b.endian ∧ b'.position + n ≤ b'.capacity := by
  have hle : b.position ≤ b.capacity := Nat.le_trans hb.position_le hb.size_le
  have hmem : b.flat.mem.length - b.flat.position = b.capacity - b.position := by
    simp only [flat, hb.length_flatten]
  by_cases henough : n ≤ b.capacity - b.position
  · have hr : (addCapacity n).run b = .ok () b := by
      by_cases hn : n = 0
      · simp [addCapacity, hn]
      · simp [addCapacity, hn, hb.getCapacity_eq, henough]
    exact ⟨b, hr, hb, (reserve_of_le hB _ (by rw [hmem]; exact henough)).symm, rfl, by omega⟩
  · have hn : n ≠ 0 := by omega
    have hc := le_mul_ceil hB (n - (b.capacity - b.position))
    have hpos : n - (b.capacity - b.position) ≠ 0 := by omega
    generalize hcount : (n - (b.capacity - b.position) + B - 1) / B = count at hc
    have hcount0 : count ≠ 0 := by
      rintro rfl
      omega
    obtain ⟨news, h1, h2, h3, h4⟩ := appendNodes_eq count b
    rw [hb.base] at h1 h3 h4
    -- with no room left `m_cur` is null, and has to be set to the first new block
    have hrun : (addCapacity n).run b = .ok () { b with
        root := b.root ++ news
        capacity := b.capacity + B * count
        heap := fun i => b.heap (B * count + i)
        cur := if b.capacity - b.position = 0 then some b.root.length else b.cur } := by
      simp only [addCapacity, if_neg hn, EStateM.run_bind, EStateM.run_get, hb.getCapacity_eq,
        ge_iff_le, if_neg henough, hb.base, hcount, if_neg hcount0, h4, EStateM.run_set]
      split <;> rfl
    have hcap : b.capacity + B * count = B * (b.root.length + count) := by
      rw [hb.capacity, Nat.mul_add]
    refine ⟨_, hrun, ⟨hb.base, hb.uniform.append h3, ?_, ?_, hb.position_le, ?_, ?_⟩, ?_, rfl, ?_⟩
    · have := hb.some_block
      simp only [length_append]
      omega
    · rw [length_append, h2]; exact hcap
    · exact Nat.le_trans hb.size_le (Nat.le_add_right _ _)
    · dsimp only
      rw [if_pos (show b.position < b.capacity + B * count by omega)]
      by_cases hz : b.capacity - b.position = 0
      · have hat : b.position = B * b.root.length := by rw [← hb.capacity]; omega
        rw [if_pos hz, hat, Nat.mul_div_cancel_left _ (by omega)]
      · rw [if_neg hz, hb.cur, if_pos (by omega)]
    · rw [Flat.reserve, hmem, hcount]
      simp only [flat, Flat.grow, flatten_append, h1]
    · change b.position + n ≤ b.capacity + B * count
      omega

theorem Inv.capacity_of_reserve {B n : Nat} {b b' : ByteArray} (hb : Inv B b) (hb' : Inv B b')
    (h : b'.flat = b.flat.reserve B n) :
    b'.capacity = b.capacity + B * ((n - (b.capacity - b.position) + B - 1) / B) := by
  have hm := congrArg (fun f => f.mem.length) h
  simpa [flat, Flat.reserve, Flat.grow, hb.length_flatten, hb'.length_flatten] using hm

theorem Inv.write_eq (hB : 1 ≤ B) (hb : Inv B b) (buf : List UInt8) :
    ∃ b', (write buf).run b = .ok () b' ∧ Inv B b' ∧
      b'.flat = (b.flat.reserve B buf.length).store buf ∧ b'.endian = b.endian := by
  by_cases hz : buf.length = 0
  · refine ⟨b, by simp [write, hz], hb, ?_, rfl⟩
    have hnil : buf = [] := length_eq_zero_iff.mp hz
    subst hnil
    rw [length_nil, reserve_of_le hB _ (Nat.zero_le _)]
    simp [Flat.store, flat, hb.position_le]
  · obtain ⟨c, hc, hi, hf, he, hroom⟩ := hb.addCapacity_eq hB buf.length
    obtain ⟨vs, hw, hcov⟩ := hi.walkFrom_eq hB buf.length (by omega) hroom
    have hs := Covers.scatter_eq hi.uniform hcov buf (Nat.le_refl _)
      (by rw [hi.length_flatten]; exact hroom)
    obtain ⟨hs1, hs2, hs3⟩ := hs
    have hrun : (write buf).run b = .ok () { c with
        root := scatter c.root vs buf
        cur := blockAt B c.root.length (c.position + buf.length)
        position := c.position + buf.length
        size := if c.position + buf.length > c.size then c.position + buf.length else c.size } := by
      simp [write, hz, hc, hw, ofExcept]
    refine ⟨_, hrun, ⟨hi.base, hs2, ?_, ?_, ?_, ?_, ?_⟩, ?_, he⟩
    · rw [hs3]; exact hi.some_block
    · rw [hs3]; exact hi.capacity
    · dsimp only
      split <;> omega
    · have := hi.size_le
      dsimp only
      split <;> omega
    · rw [blockAt, hi.capacity]
    · rw [← hf]
      simp only [flat, Flat.store, hs1]
      congr 1
      split <;> omega

theorem Inv.read_eq (hB : 1 ≤ B) (hb : Inv B b) {n : Nat} (hn : 0 < n)
    (h : n ≤ b.size - b.position) :
    ∃ b', (read n).run b = .ok (slice b.root.flatten b.position n) b' ∧ Inv B b' ∧
      b' = { b with position := b.position + n, cur := b'.cur } := by
  have hsz := hb.size_le
  have hps := hb.position_le
  obtain ⟨vs, hw, hcov⟩ := hb.walkFrom_eq hB n (by omega) (by omega)
  have hrun : (read n).run b = .ok (slice b.root.flatten b.position n) { b with
      cur := blockAt B b.root.length (b.position + n), position := b.position + n } := by
    simp [read, hb.getReadSize_eq, Nat.not_lt.mpr h, hw, ofExcept, Covers.gather_eq hb.uniform hcov]
  refine ⟨_, hrun, ⟨hb.base, hb.uniform, hb.some_block, hb.capacity, ?_, hsz, ?_⟩, rfl⟩
  · dsimp only
    omega
  · rw [blockAt, hb.capacity]

theorem Inv.read_zero (hB : 1 ≤ B) (hb : Inv B b) : (read 0).run b =
      if b.position < b.capacity then .ok [] b else .error .nullDeref b := by
  by_cases h : b.position < b.capacity
  · have hi : b.position / B < b.root.length := by
      rw [Nat.div_lt_iff_lt_mul (by omega), Nat.mul_comm, ← hb.capacity]
      exact h
    have hc : b.cur = some (b.position / B) := by rw [hb.cur, if_pos h]
    have hw : b.walkFrom b.position 0 = .ok ([], b.cur) := by
      simp only [walkFrom, hc, deref_lt b.root _ hi, bind, Except.bind, walk]
    simp [read, hw, ofExcept, gather, pieces, h]
  · have hw : b.walkFrom b.position 0 = .error .nullDeref := by
      simp only [walkFrom, hb.cur, if_neg h, deref, bind, Except.bind]
    simp [read, hw, ofExcept, h]

theorem Inv.read_throw (hb : Inv B b) (h : b.size - b.position < n) :
    (read n).run b = .error (.outOfRange "not enough len") b := by
  simp [read, hb.getReadSize_eq, h]

theorem seek_eq (hB : 1 ≤ B) (hu : Uniform B root) (hne : 0 < root.length) (i v)
    (hv : v ≤ B * root.length) :
    seek root i v = .ok (if v < B * root.length then some (i + v / B) else none) := by
  induction root generalizing i v with
  | nil => simp at hne
  | cons n rest ih =>
    have hn : n.length = B := hu n (by simp)
    have hur : Uniform B rest := fun x hx => hu x (by simp [hx])
    have hm : B * (n :: rest).length = B * rest.length + B := by
      rw [length_cons, Nat.mul_succ]
    rw [hm] at hv ⊢
    rw [seek, hn]
    by_cases hgt : v > B
    · have hrest : 0 < rest.length := by
        rcases Nat.eq_zero_or_pos rest.length with h0 | h0
        · rw [h0] at hv; omega
        · exact h0
      rw [if_pos hgt, ih hur hrest (i + 1) (v - B) (by omega)]
      have hdiv : v / B = (v - B) / B + 1 := Nat.div_eq_sub_div (by omega) (by omega)
      have hiff : v - B < B * rest.length ↔ v < B * rest.length + B := by omega
      simp only [hdiv, hiff, Nat.add_assoc, Nat.add_comm 1]
    · rw [if_neg hgt]
      by_cases heq : v = B
      · rw [if_pos heq, heq, Nat.div_self (by omega)]
        cases rest with
        | nil => simp
        | cons m rest =>
          have hp : 0 < B * (m :: rest).length := Nat.mul_pos (by omega) (by simp)
          rw [if_neg (by simp), if_pos (by omega)]
      · rw [if_neg heq, if_pos (by omega), Nat.div_eq_of_lt (by omega), Nat.add_zero]

theorem Inv.setPosition_eq (hB : 1 ≤ B) (hb : Inv B b) (hv : v ≤ b.capacity) :
    ∃ b', (setPosition v).run b = .ok () b' ∧ Inv B b' ∧
      b' = { b with position := v, size := max b.size v, cur := b'.cur } := by
  have hseek := seek_eq hB hb.uniform hb.some_block 0 v (by rw [← hb.capacity]; exact hv)
  have hmax : (if v > b.size then v else b.size) = max b.size v := by
    split <;> omega
  have hrun : (setPosition v).run b = .ok () { b with
      position := v
      size := max b.size v
      cur := if v < B * b.root.length then some (0 + v / B) else none } := by
    simp [setPosition, Nat.not_lt.mpr hv, hseek, ofExcept, hmax]
  refine ⟨_, hrun, ⟨hb.base, hb.uniform, hb.some_block, hb.capacity, ?_, ?_, ?_⟩, rfl⟩
  · exact Nat.le_max_right _ _
  · exact Nat.max_le.mpr ⟨hb.size_le, hv⟩
  · dsimp only
    rw [hb.capacity, Nat.zero_add]

theorem setPosition_throw (hv : b.capacity < v) :
    (setPosition v).run b = .error (.outOfRange "set_position out of range") b := by
  simp [setPosition, hv]

theorem Inv.clear_eq (hB : 1 ≤ B) (hb : Inv B b) : ∃ b', clear.run b = .ok () b' ∧ Inv B b' ∧
      b'.flat = ⟨b.flat.mem.take B, 0, 0, b.flat.heap⟩ := by
  obtain ⟨n, rest, hroot⟩ : ∃ n rest, b.root = n :: rest := by
    cases hr : b.root with
    | nil => have := hb.some_block; simp [hr] at this
    | cons n rest => exact ⟨n, rest, rfl⟩
  have hn : n.length = B := hb.uniform n (by simp [hroot])
  refine ⟨_, rfl, ⟨hb.base, hb.uniform.take 1, ?_, ?_, ?_, ?_, ?_⟩, ?_⟩
  · simp [hroot]
  · simp [hroot, hb.base]
  · exact Nat.le_refl _
  · exact Nat.zero_le _
  · simp [hb.base, show 0 < B by omega]
  · simp [flat, hroot, ← hn]

theorem Inv.toString_eq (hB : 1 ≤ B) (hb : Inv B b) :
    toString.run b = .ok (slice b.root.flatten b.position (b.size - b.position)) b := by
  have hsz := hb.size_le
  by_cases hz : b.size - b.position = 0
  · simp [toString, hb.getReadSize_eq, hz]
  · obtain ⟨vs, hw, hcov⟩ := hb.walkFrom_eq hB (b.size - b.position) (by omega) (by omega)
    have hsub : sizeSub b.size b.position = b.size - b.position := hb.getReadSize_eq
    simp [toString, readAt, hb.getReadSize_eq, hz, hw, hsub, ofExcept,
      Covers.gather_eq hb.uniform hcov]

theorem Inv.getReadBuffers_eq (hB : 1 ≤ B) (hb : Inv B b) (len) :
    ∃ vs, (getReadBuffers len).run b = .ok (min len (b.size - b.position), vs) b ∧
      Covers B b.root.length b.position vs (min len (b.size - b.position)) := by
  have hsz := hb.size_le
  have hmin : (if len > b.size - b.position then b.size - b.position else len) =
      min len (b.size - b.position) := by
    split <;> omega
  by_cases hz : min len (b.size - b.position) = 0
  · exact ⟨[], by simp [getReadBuffers, hb.getReadSize_eq, hmin, hz], hz⟩
  · obtain ⟨vs, hw, hcov⟩ := hb.walkFrom_eq hB (min len (b.size - b.position))
      (by omega) (by omega)
    refine ⟨vs, ?_, hcov⟩
    simp [getReadBuffers, hb.getReadSize_eq, hmin, hz, hw, ofExcept]

theorem Inv.getReadBuffers_pieces (hB : 1 ≤ B) (hb : Inv B b) (hpos : b.position = 0)
    (hsize : 0 < b.size) (hlen : b.size ≤ len) :
    ∃ vs, (getReadBuffers len).run b = .ok (b.size, vs) b ∧
      pieces b.root vs = chunks B b.size (b.root.flatten.take b.size) := by
  have hcap := hb.size_le
  have hcur : b.cur = some 0 := by
    rw [hb.cur, hpos, if_pos (by omega), Nat.zero_div]
  have hx : b.root[0]? = some (b.root.getD 0 []) := by
    simp [getElem?_eq_getElem hb.some_block]
  obtain ⟨vs, hw, -⟩ := hb.walkFrom_eq hB b.size (by omega) (by omega)
  rw [hpos] at hw
  refine ⟨vs, ?_, ?_⟩
  · have hz : b.size ≠ 0 := by omega
    have hmin : (if len > b.size then b.size else len) = b.size := by split <;> omega
    simp [getReadBuffers, hb.getReadSize_eq, hpos, hmin, hz, hw, ofExcept]
  · simp only [walkFrom, hcur, deref_lt b.root 0 hb.some_block, bind, Except.bind,
      Nat.zero_mod, Nat.sub_zero, hb.uniform _ (mem_of_getElem? hx)] at hw
    have hp := walk_pieces hb.uniform b.size 0 b.size hb.some_block
      (by rw [← hb.capacity]; omega) vs _ hsize hw
    simpa [slice] using hp

theorem Inv.getWriteBuffers_eq (hB : 1 ≤ B) (hb : Inv B b) (len) :
    ∃ vs b', (getWriteBuffers len).run b = .ok (len, vs) b' ∧ Inv B b' ∧
      b'.flat = b.flat.reserve B len ∧ b'.endian = b.endian ∧
      b'.position + len ≤ b'.capacity ∧ Covers B b'.root.length b'.position vs len := by
  by_cases hz : len = 0
  · subst hz
    refine ⟨[], b, by simp [getWriteBuffers], hb, ?_, rfl, ?_, rfl⟩
    · rw [reserve_of_le hB _ (Nat.zero_le _)]
    · exact Nat.le_trans hb.position_le hb.size_le
  · obtain ⟨c, hc, hi, hf, he, hroom⟩ := hb.addCapacity_eq hB len
    obtain ⟨vs, hw, hcov⟩ := hi.walkFrom_eq hB len (by omega) hroom
    refine ⟨vs, c, ?_, hi, hf, he, hroom, hcov⟩
    simp [getWriteBuffers, hz, hc, hw, ofExcept]

theorem inv_new (hB : 1 ≤ B) (heap : Nat → UInt8) : Inv B (new B heap) where
  base := rfl
  uniform := by simp [new, Uniform]
  some_block := by simp [new]
  capacity := by simp [new]
  position_le := Nat.le_refl _
  size_le := Nat.zero_le _
  cur := by simp [new, show 0 < B by omega]

end ByteArray
end Helens
