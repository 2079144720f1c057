import Helens.HashPools
import Helens.Lib.Blocks

/-! `Dict`: the operations, and what they keep of the table and of the arrays that the nodes
point to. -/

namespace Helens.Ds

open Lib.Runs Lib.SortedVector Lib.Words Lib.PlainData Lib.Blocks Lib.Stores List

/-! ## The code -/

/-- The table and `m_values`. `reserved` says that `m_values` has storage, so that
`&m_values[0]` is not null. -/
structure Dict (K V : Type) where
  table : Table K (Values V)
  values : List V
  reserved : Bool
  deriving DecidableEq

namespace Dict

variable {K V : Type} [LinearOrder K] (hash : K → Nat) (sorter : Sorter (K × Values V) Prod.fst)

def new (size : Nat) : Except HashError (Dict K V) := do
  let table ← Table.new size
  .ok { table, values := [], reserved := false }

def get (d : Dict K V) (k : K) : Except HashError (Option (List V)) := do
  let (_, b, it) ← d.table.locate hash k
  match it with
  | none => .ok none
  | some i => do
    let n ← Table.nodeAt b i
    if n.2.size < 0 then .error .badArrayLength
    else do
      let vs ← n.2.read d.values
      .ok (some vs)

def existsKey (d : Dict K V) (k : K) : Except HashError Bool := do
  let (_, _, it) ← d.table.locate hash k
  .ok it.isSome

def copyInto (d : Dict K V) (t : Table K (Values V)) (pos : Nat) (b : List (K × Values V)) (i : Nat)
    (x : Values V) (vs : List V) : Except HashError (Dict K V) :=
  match x.val with
  | .null => .error .outsideArray
  | .own old => if old.length < vs.length then .error .outsideArray
    else .ok { d with table := t.writeNode pos b i ⟨x.size, .own (overwrite old 0 vs)⟩ }
  | .shared offset => if d.values.length < offset + vs.length then .error .outsideArray
    else .ok { d with table := t, values := overwrite d.values offset vs }

/-- `insert(k, v, size)` of the `size` values at `v`. No values change nothing, and as many as
the key has are written where those are. -/
def insert (d : Dict K V) (k : K) (vs : List V) : Except HashError (Dict K V) :=
  if vs.length = 0 then .ok d
  else do
    let t ← d.table.autoRehash hash sorter
    let (pos, b, it) ← t.locate hash k
    match it with
    | none =>
      if asInt vs.length < 0 then .error .badArrayLength
      else .ok { d with table := t.addNode pos b (k, ⟨asInt vs.length, .own vs⟩) }
    | some i => do
      let n ← Table.nodeAt b i
      if n.2.size = asInt vs.length then copyInto d t pos b i n.2 vs
      else do
        release d.values n.2.val
        .ok { d with table := t.writeNode pos b i ⟨asInt vs.length, .own vs⟩ }

def del (d : Dict K V) (k : K) : Except HashError (Dict K V × Bool) := do
  let (pos, b, it) ← d.table.locate hash k
  match it with
  | none => .ok (d, false)
  | some i => do
    let n ← Table.nodeAt b i
    release d.values n.2.val
    .ok ({ d with table := d.table.removeNode sorter pos b i }, true)

def rehash (d : Dict K V) : Except HashError (Dict K V) := do
  let table ← d.table.rehash hash sorter
  .ok { d with table }

def freeDatas (d : Dict K V) : Except HashError Unit :=
  match d.table.datas with
  | none => .ok ()
  | some _ => do
    let ns ← d.table.allNodes
    ns.forM fun n => release d.values n.2.val

variable (value : Pod V) (node : Pod (WireNode K))

def writeTo (d : Dict K V) : Except HashError (List UInt8 × Bool) := do
  let ns ← d.table.allNodes
  let acc ← ns.foldlM (packNode d.values) ([], [])
  .ok (writePool value node d.table.size acc)

def readFrom [Inhabited K] [Inhabited V] (granted : Request → Bool) (d : Dict K V)
    (is : List UInt8) : Except HashError (Dict K V × Bool) := do
  freeDatas d
  let r ← readPool hash sorter value node granted d.table d.values d.reserved is
  .ok ({ table := r.table, values := r.values, reserved := r.reserved }, r.done)

/-! ## What the operations keep -/

variable {hash} {sorter} {Q : HashError → Prop} {P : Table K (Values V) → Prop} {d : Dict K V}

omit [LinearOrder K] in
theorem copyInto_own {pos} (hx : Holds d.values x (x.toList d.values)) (hval : x.val = .own old)
    (hsize : x.size = vs.length) :
    copyInto d t pos b i x vs =
      .ok { d with table := t.writeNode pos b i ⟨vs.length, .own vs⟩ } := by
  have hold : old.length = vs.length := by
    have hlen := hx.size_eq
    rw [hx.eq_own hval] at hlen
    omega
  have hover : overwrite old 0 vs = vs := by
    rw [overwrite, Nat.zero_add, ← hold, drop_length, take_zero, nil_append,
      append_nil]
  rw [copyInto, hval]
  dsimp only
  rw [if_neg (by omega), hover, hsize]

theorem copyInto_post {pos} (tame : Table.Tame hash sorter Q P) (h : Kept P low d.values t)
    (hl : t.locate hash k = .ok (pos, b, some i)) (hi : b[i]? = some (k, x))
    (hpos : 0 < vs.length) (hlow : low ≤ 1) (hsize : x.size = vs.length)
    (hlt : vs.length < 2 ^ 31) :
    Post (fun d' => Kept P low d'.values d'.table) Q (copyInto d t pos b i x vs) := by
  have hx := h.holds hl hi
  have hlen : (x.toList d.values).length = vs.length := by
    have := hx.size_eq
    omega
  cases hval : x.val with
  | null =>
    rw [hx.eq_nil hval, length_nil] at hlen
    omega
  | own old =>
    rw [copyInto_own hx hval hsize]
    exact h.write tame hl hi (.own vs) (by omega) hlt
  | shared offset =>
    obtain ⟨-, hle⟩ := hx.le_length hval
    rw [copyInto, hval]
    dsimp only
    rw [if_neg (by omega)]
    apply h.of_length
    exact length_overwrite _ _ _ (by omega)

theorem insert_kept (tame : Table.Tame hash sorter Q P) (h : Kept P low d.values d.table) (k)
    (vs : List V) (hlow : low ≤ 1) (htotal : d.table.total + 1 < 2 ^ 31)
    (hlt : vs.length < 2 ^ 31) :
    Post (fun d' => Kept P low d'.values d'.table) Q (insert hash sorter d k vs) := by
  have hint := asInt_of_lt hlt
  unfold insert
  split
  · exact h
  · next hpos =>
    rw [Table.autoRehash_eq]
    apply (h.rehash_post tame (by omega)).bind
    rintro t ⟨ht, htotal', -⟩
    apply tame.post_locate ht.table
    · intro pos b hl
      dsimp only
      rw [hint, if_neg (by omega)]
      exact ht.add tame hl (by omega) (.own vs) (by omega) hlt
    · intro pos b i x hl hi
      apply post_bind_ok (Table.nodeAt_eq hi)
      rw [hint]
      dsimp only
      split
      · next hsize => exact copyInto_post tame ht hl hi (by omega) hlow hsize hlt
      · apply post_bind_ok (ht.holds hl hi).release_eq
        exact ht.write tame hl hi (.own vs) (by omega) hlt

theorem del_kept (tame : Table.Tame hash sorter Q P) (h : Kept P low d.values d.table) (k)
    (htotal : d.table.total < 2 ^ 31) :
    Post (fun r => Kept P low r.1.values r.1.table) Q (del hash sorter d k) := by
  apply tame.post_locate h.table
  · exact fun _ _ _ => h
  · intro pos b i x hl hi
    apply post_bind_ok (Table.nodeAt_eq hi)
    apply post_bind_ok (h.holds hl hi).release_eq
    exact h.remove tame hl hi htotal

theorem get_defined (tame : Table.Tame hash sorter Q P) (h : Kept P low d.values d.table) (k) :
    Post (fun _ => True) Q (get hash d k) := by
  apply tame.post_locate h.table
  · exact fun _ _ _ => trivial
  · intro pos b i x hl hi
    have hx := h.holds hl hi
    have hsize := hx.size_eq
    apply post_bind_ok (Table.nodeAt_eq hi)
    dsimp only
    rw [if_neg (by omega)]
    apply post_bind_ok hx.read_eq
    trivial

theorem existsKey_defined (tame : Table.Tame hash sorter Q P) (h : Kept P low d.values d.table)
    (k) : Post (fun _ => True) Q (existsKey hash d k) := by
  apply (tame.locate h.table k).bind
  exact fun _ _ => trivial

theorem rehash_kept (tame : Table.Tame hash sorter Q P) (h : Kept P low d.values d.table)
    (htotal : d.table.total < 2 ^ 31) :
    Post (fun d' => Kept P low d'.values d'.table) Q (rehash hash sorter d) := by
  apply (h.rehash_post tame htotal).bind
  exact fun t ht => ht.1

/-! ## Runs -/

inductive Action (K V : Type)
  | new (size : Nat)
  | get (i : Nat) (k : K)
  | existsKey (i : Nat) (k : K)
  | insert (i : Nat) (k : K) (vs : List V)
  | del (i : Nat) (k : K)
  | rehash (i : Nat)

inductive Answer (V : Type)
  | values (vs : Option (List V))
  | flag (b : Bool)
  deriving DecidableEq

variable (hash) (sorter) in
def exec : Action K V → Store (Dict K V) (Answer V) → Except HashError (Store (Dict K V) (Answer V))
  | .new size, s => do
    let d ← new size
    .ok (s.make d)
  | .get i k, s => s.call i fun d => do
    let vs ← get hash d k
    .ok (d, [.values vs])
  | .existsKey i k, s => s.call i fun d => do
    let found ← existsKey hash d k
    .ok (d, [.flag found])
  | .insert i k vs, s => s.call i fun d => do
    let d' ← insert hash sorter d k vs
    .ok (d', [.flag true])
  | .del i k, s => s.call i fun d => do
    let (d', found) ← del hash sorter d k
    .ok (d', [.flag found])
  | .rehash i, s => s.call i fun d => do
    let d' ← rehash hash sorter d
    .ok (d', [])

omit [LinearOrder K] in
def Action.Sized : Action K V → Prop
  | .new size => 0 < size ∧ size < 2 ^ 32 ∧ size ≠ 2 ^ 31
  | .insert _ _ vs => vs.length < 2 ^ 31
  | _ => True

instance : (a : Action K V) → Decidable a.Sized
  | .new size => inferInstanceAs (Decidable (_ ∧ _))
  | .insert _ _ vs => inferInstanceAs (Decidable (vs.length < 2 ^ 31))
  | .get .. | .existsKey .. | .del .. | .rehash .. => inferInstanceAs (Decidable True)

omit [LinearOrder K] in
def Room (s : Store (Dict K V) (Answer V)) (a : Action K V) : Prop :=
  a.Sized ∧ ∀ d ∈ s.objects, d.table.total + 1 < 2 ^ 31
  deriving Decidable

theorem exec_kept (tame : Table.Tame hash sorter Q P) (hlow : low ≤ 1)
    (hs : ∀ d ∈ s.objects, Kept P low d.values d.table) (a) (hroom : Room s a) :
    Post (fun s' => ∀ d ∈ s'.objects, Kept P low d.values d.table) Q (exec hash sorter a s) := by
  have hkeys : ∀ {i : Nat} {d : Dict K V}, s.objects[i]? = some d → d.table.total + 1 < 2 ^ 31 :=
    fun hi => hroom.2 _ (mem_of_getElem? hi)
  cases a with
  | new size =>
    obtain ⟨h1, h2, h3⟩ := hroom.1
    obtain ⟨t, ht, hkept⟩ := (Kept.new_post tame low [] h1 h3 h2).exists_ok
    have hnew : new size = .ok ({ table := t, values := [], reserved := false } : Dict K V) := by
      rw [new, ht]
      rfl
    apply post_bind_ok hnew
    exact Store.forall_make hs hkept
  | get i k =>
    apply Store.post_call_all hs
    intro d _ hd
    apply (get_defined tame hd k).bind
    exact fun _ _ => hd
  | existsKey i k =>
    apply Store.post_call_all hs
    intro d _ hd
    apply (existsKey_defined tame hd k).bind
    exact fun _ _ => hd
  | insert i k vs =>
    apply Store.post_call_all hs
    intro d hi hd
    apply (insert_kept tame hd k vs hlow (hkeys hi) hroom.1).bind
    exact fun _ hr => hr
  | del i k =>
    apply Store.post_call_all hs
    intro d hi hd
    have hlt := hkeys hi
    apply (del_kept tame hd k (by omega)).bind
    exact fun _ hr => hr
  | rehash i =>
    apply Store.post_call_all hs
    intro d hi hd
    have hlt := hkeys hi
    apply (rehash_kept tame hd (by omega)).bind
    exact fun _ hr => hr

end Dict

end Helens.Ds
