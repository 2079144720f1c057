import Helens.HashStreams
import Helens.HashValues

/-! The streams of `Dict` and `HashMultimap`: all values in one vector, and nodes with offsets
into it in place of their pointers. -/

namespace Helens.Ds

open Lib.Runs Lib.SortedVector Lib.Words Lib.PlainData

/-! ## The code -/

abbrev WireNode (K : Type) := K × BitVec 32 × BitVec 64

section
variable {K V : Type}

def packNode (pool : List V) (acc : List V × List (WireNode K)) (n : K × Values V) :
    Except HashError (List V × List (WireNode K)) := do
  let vs ← n.2.read pool
  .ok (acc.1 ++ vs, acc.2 ++ [(n.1, BitVec.ofInt 32 n.2.size, BitVec.ofNat 64 acc.1.length)])

/-- Both vectors, behind `m_size`. A stream that has failed takes nothing more. -/
def writePool (value : Pod V) (node : Pod (WireNode K)) (size : Nat)
    (acc : List V × List (WireNode K)) : List UInt8 × Bool :=
  let vs := writeVector value acc.1
  if vs.2 then
    let ns := writeVector node acc.2
    (leBytes 8 size ++ (vs.1 ++ ns.1), ns.2)
  else (leBytes 8 size ++ vs.1, false)

/-- `n.val = &vs[0] + (uint64_t)n.val`, where `&vs[0]` is null as long as the vector never
had an element. -/
def attach (reserved : Bool) (n : WireNode K) : K × Values V :=
  (n.1, ⟨n.2.1.toInt, if reserved = false ∧ n.2.2 = 0 then .null else .shared n.2.2.toNat⟩)

/-- What `readFrom` leaves: the table, `m_values`, the nodes that were pushed if it came to
that, and its answer. -/
structure PoolRead (K V : Type) where
  table : Table K (Values V)
  values : List V
  reserved : Bool
  pushed : Option (List (K × Values V))
  done : Bool

def readPool [LinearOrder K] [Inhabited K] [Inhabited V] (hash : K → Nat)
    (sorter : Sorter (K × Values V) Prod.fst) (value : Pod V) (node : Pod (WireNode K))
    (granted : Request → Bool) (t : Table K (Values V)) (values : List V) (reserved : Bool)
    (is : List UInt8) : Except HashError (PoolRead K V) :=
  match readWord 8 is with
  | none => .ok ⟨{ t with size := partWord 8 t.size is, datas := none }, values, reserved, none,
    false⟩
  | some (size, is) => do
    let t := { t with size, datas := none }
    let (values, rest) ← readVector value (fun n => granted (.values n)) values is
    let reserved := reserved || !values.isEmpty
    match rest with
    | none => .ok ⟨t, values, reserved, none, false⟩
    | some is => do
      let (ws, rest) ← readVector node (fun n => granted (.nodes n)) [] is
      match rest with
      | none => .ok ⟨t, values, reserved, none, false⟩
      | some _ => do
        let ns := ws.map (attach reserved)
        let (t, pushed, done) ← Table.load hash sorter granted t ns
        .ok ⟨t, values, reserved, some (ns.take pushed), done⟩

/-! ## Reading -/

def Attached (reserved : Bool) (pool : List V) (n : WireNode K) : Prop :=
  if reserved = false ∧ n.2.2 = 0 then n.2.1.toInt = 0
  else 0 ≤ n.2.1.toInt ∧ n.2.2.toNat < pool.length ∧ n.2.2.toNat + n.2.1.toInt ≤ pool.length

structure PoolReadable (value : Pod V) (node : Pod (WireNode K)) (granted : Request → Bool)
    (old : List V) (is : List UInt8) (size : Nat) (vs : List V)
      (ws : List (WireNode K)) : Prop where
  stream : ∃ is₁ is₂ rest, is = leBytes 8 size ++ is₁ ∧ value.Image is₁ vs is₂ ∧
    node.Image is₂ ws rest
  bounds : 0 < size ∧ size < 2 ^ 64
  bytes : vs.length * value.size < 2 ^ 63 ∧ ws.length * node.size < 2 ^ 63
  room : old.length < vs.length → granted (.values vs.length) = true
  nodesRoom : 0 < ws.length → granted (.nodes ws.length) = true
  table : Table.Granted granted size ws.length

theorem holds_attach_iff {reserved : Bool} :
    Holds pool (attach reserved n).2 ((attach reserved n).2.toList pool) ↔
      Attached reserved pool n := by
  unfold Attached
  split
  · next hnull =>
    rw [attach, if_pos hnull]
    constructor
    · intro h
      have hsize := h.size_eq
      rw [h.eq_nil rfl] at hsize
      exact hsize
    · intro hzero
      rw [hzero]
      exact .null
  · next hnull =>
    rw [attach, if_neg hnull]
    constructor
    · intro h
      have hsize := h.size_eq
      have hle := h.le_length rfl
      dsimp only at hsize hle
      omega
    · rintro ⟨hnonneg, hlt, hle⟩
      have hcount : n.2.2.toNat + n.2.1.toInt.toNat ≤ pool.length := by omega
      have hholds := Holds.shared_take hlt hcount
      rw [Int.toNat_of_nonneg hnonneg] at hholds
      rw [hholds.toList_eq]
      exact hholds

variable [LinearOrder K] [Inhabited K] [Inhabited V] {hash : K → Nat}
  {sorter : Sorter (K × Values V) Prod.fst} {granted : Request → Bool} {t : Table K (Values V)}
  {reserved : Bool} {size : Nat}

variable (hash) (sorter) (t) (reserved) in
theorem readPool_post (h : PoolReadable value node granted values is size vs ws) :
    Post (fun r => Table.Loaded hash size (ws.map (attach (reserved || !vs.isEmpty))) r.table ∧
        r.values = vs ∧ r.reserved = (reserved || !vs.isEmpty) ∧
        r.pushed = some (ws.map (attach (reserved || !vs.isEmpty))) ∧ r.done = true)
      Never (readPool hash sorter value node granted t values reserved is) := by
  obtain ⟨is₁, is₂, rest, rfl, hvalues, hnodes⟩ := h.stream
  have hread : readVector value (fun n => granted (.values n)) values is₁ = .ok (vs, some is₂) :=
    readVector_eq_iff.mpr ⟨hvalues, h.bytes.1, h.room⟩
  have hread' : readVector node (fun n => granted (.nodes n)) [] is₂ = .ok (ws, some rest) :=
    readVector_eq_iff.mpr ⟨hnodes, h.bytes.2, h.nodesRoom⟩
  have hgranted : Table.Granted granted size
      (ws.map (attach (V := V) (reserved || !vs.isEmpty))).length := by
    rw [List.length_map]
    exact h.table
  rw [readPool, readWord_leBytes h.bounds.2]
  apply post_bind_ok hread
  apply post_bind_ok hread'
  have hload := Table.load_post hash sorter
    (t := { t with size, datas := none }) h.bounds.1 hgranted
  apply hload.bind
  rintro ⟨t', pushed, done⟩ ⟨hloaded, hr⟩
  cases hr
  refine ⟨hloaded, rfl, rfl, ?_, rfl⟩
  rw [List.take_length]

theorem readable_of_readPool (h : Post (fun r => r.table.Rep) Never
    (readPool hash sorter value node granted t values reserved is)) :
    ∃ size vs ws, PoolReadable value node granted values is size vs ws := by
  have hnone : ∀ {size total : Nat},
      ¬ Table.Rep { size, total, datas := (none : Option (List (List (K × Values V)))) } :=
    fun hrep => absurd hrep.datas (by simp)
  unfold readPool at h
  split at h
  · exact absurd h hnone
  · next size is₁ hword =>
    obtain ⟨hsize, rfl⟩ := readWord_eq_some_iff.mp hword
    cases hread : readVector value (fun n => granted (.values n)) values is₁ with
    | error e =>
      rw [hread] at h
      exact h.elim
    | ok r =>
      obtain ⟨vs, rest⟩ := r
      rw [hread] at h
      cases rest with
      | none => exact absurd h hnone
      | some is₂ =>
        cases hread' : readVector node (fun n => granted (.nodes n)) [] is₂ with
        | error e =>
          simp only [bind, Except.bind, hread'] at h
          exact h.elim
        | ok r =>
          obtain ⟨ws, rest⟩ := r
          simp only [bind, Except.bind, hread'] at h
          cases rest with
          | none => exact absurd h hnone
          | some rest =>
            obtain ⟨hvalues, hbytes, hroom⟩ := readVector_eq_iff.mp hread
            obtain ⟨hnodes, hbytes', hroom'⟩ := readVector_eq_iff.mp hread'
            have hload : Post (fun r => r.1.Rep) Never
                (Table.load hash sorter granted { t with size, datas := none }
                  (ws.map (attach (reserved || !vs.isEmpty)))) := by
              cases hl : Table.load hash sorter granted { t with size, datas := none }
                  (ws.map (attach (reserved || !vs.isEmpty))) with
              | error e =>
                simp only [hl] at h
                exact h
              | ok r =>
                simp only [hl] at h
                exact h
            obtain ⟨hpos, hgranted⟩ := Table.granted_of_load hload
            rw [List.length_map] at hgranted
            exact ⟨size, vs, ws, ⟨is₁, is₂, rest, rfl, hvalues, hnodes⟩, ⟨hpos, hsize⟩,
              ⟨hbytes, hbytes'⟩, hroom, hroom', hgranted⟩

end

end Helens.Ds
