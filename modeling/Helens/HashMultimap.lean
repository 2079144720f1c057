import Helens.HashValues
import Helens.Lib.Stores
import Mathlib.Algebra.BigOperators.Ring.Finset
import Mathlib.Algebra.Group.Action.Defs
import Mathlib.Algebra.Order.BigOperators.Group.List
import Mathlib.Algebra.Order.Ring.Nat

/-! `HashMultimap`: the operations, what each of them does to the keys and their values, and
when the two counters stay right. -/

namespace Helens.Ds

open Lib.Runs Lib.SortedVector Lib.FiniteMap Lib.Stores List

/-! ## The code -/

/-- The table with its counters and `m_values`. `reserved` says that `m_values` has storage,
so that `&m_values[0]` is not null. -/
structure HashMultimap (K V : Type) where
  table : Table K (Values V)
  elements : Nat
  values : List V
  reserved : Bool

namespace HashMultimap

variable {K V : Type} [LinearOrder K] [LinearOrder V] (hash : K → Nat)
  (sorter : Sorter (K × Values V) Prod.fst) (vsorter : Sorter V id)

def new (size : Nat) : Except HashError (HashMultimap K V) := do
  let table ← Table.new size
  .ok { table, elements := 0, values := [], reserved := false }

def get (h : HashMultimap K V) (k : K) : Except HashError (Option (List V)) := do
  let (_, b, it) ← h.table.locate hash k
  match it with
  | none => .ok none
  | some i => do
    let n ← Table.nodeAt b i
    if n.2.size < 0 then .error .badArrayLength
    else do
      let vs ← n.2.read h.values
      .ok (some vs)

def existsKey (h : HashMultimap K V) (k : K) : Except HashError Bool := do
  let (_, _, it) ← h.table.locate hash k
  .ok it.isSome

def existsValue (h : HashMultimap K V) (k : K) (v : V) : Except HashError Bool := do
  let (_, b, it) ← h.table.locate hash k
  match it with
  | none => .ok false
  | some i => do
    let n ← Table.nodeAt b i
    let vs ← n.2.read h.values
    .ok (search id vs v).isSome

/-- `insert(k, v)`. Where the value is found it is written over by its equal. -/
def insert (h : HashMultimap K V) (k : K) (v : V) : Except HashError (HashMultimap K V) := do
  let t ← h.table.autoRehash hash sorter
  let (pos, b, it) ← t.locate hash k
  match it with
  | none =>
    .ok { h with
      table := t.addNode pos b (k, ⟨1, .own [v]⟩)
      elements := addFetch h.elements 1 }
  | some i => do
    let n ← Table.nodeAt b i
    let vs ← n.2.read h.values
    if (search id vs v).isSome then .ok { h with table := t }
    else if n.2.size = 2 ^ 31 - 1 then .error .intOverflow
    else do
      release h.values n.2.val
      .ok { h with
        table := t.writeNode pos b i ⟨n.2.size + 1, .own (sortLast id (vs ++ [v]))⟩
        elements := addFetch h.elements 1 }

def addArray (h : HashMultimap K V) (t : Table K (Values V)) (pos : Nat) (b : List (K × Values V))
    (k : K) (vs : List V) : Except HashError (HashMultimap K V) :=
  if asInt vs.length < 0 then .error .badArrayLength
  else .ok { h with
    table := t.addNode pos b (k, ⟨asInt vs.length, .own (vsorter.sort vs)⟩)
    elements := addFetch h.elements vs.length }

/-- The values that are not found, each once and in order as `std::set` has them. -/
def newValues (old vs : List V) : List V :=
  ((vs.filter fun v => (search id old v).isNone).dedup).insertionSort (· ≤ ·)

def insertArray (h : HashMultimap K V) (k : K) (vs : List V) :
    Except HashError (HashMultimap K V) := do
  let t ← h.table.autoRehash hash sorter
  let (pos, b, it) ← t.locate hash k
  match it with
  | none => addArray vsorter h t pos b k vs
  | some i => do
    let n ← Table.nodeAt b i
    let old ← n.2.read h.values
    let news := newValues old vs
    let size := asInt (n.2.size.toNat + news.length)
    if size < 0 then .error .invalidRange
    else do
      release h.values n.2.val
      .ok { h with
        table := t.writeNode pos b i ⟨size, .own (vsorter.sort (old ++ news))⟩
        elements := addFetch h.elements news.length }

/-- `set(k, v, size)`. The values that a key had are not taken off `m_elements`. -/
def set (h : HashMultimap K V) (k : K) (vs : List V) : Except HashError (HashMultimap K V) := do
  let t ← h.table.autoRehash hash sorter
  let (pos, b, it) ← t.locate hash k
  match it with
  | none => addArray vsorter h t pos b k vs
  | some i => do
    let n ← Table.nodeAt b i
    if asInt vs.length < 0 then .error .invalidRange
    else do
      release h.values n.2.val
      .ok { h with
        table := t.writeNode pos b i ⟨asInt vs.length, .own (vsorter.sort vs)⟩
        elements := addFetch h.elements vs.length }

def del (h : HashMultimap K V) (k : K) : Except HashError (HashMultimap K V × Bool) := do
  let (pos, b, it) ← h.table.locate hash k
  match it with
  | none => .ok (h, false)
  | some i => do
    let n ← Table.nodeAt b i
    release h.values n.2.val
    .ok ({ h with
      table := h.table.removeNode sorter pos b i
      elements := subFetch h.elements (BitVec.ofInt 64 n.2.size).toNat }, true)

/-- The array that `del(k, v)` leaves: the values before the found one, then over them what
is copied from behind the node instead of from behind the value. -/
def leftover [Inhabited V] (vs : List V) (j : Nat) (memory : Nat → V) : List V :=
  let copied := (List.range (vs.length - j - 1)).map memory
  copied ++ (vs.take j ++ List.replicate (vs.length - 1 - j) default).drop copied.length

/-- `del(k, v)`. Its second `memcpy` takes the node's iterator `it` as a pointer, which compiles
only where the vector's iterators are pointers: `memory` is what lies behind the node. -/
def delValue [Inhabited V] (h : HashMultimap K V) (k : K) (v : V) (memory : Nat → V) :
    Except HashError (HashMultimap K V × Bool) := do
  let (pos, b, it) ← h.table.locate hash k
  match it with
  | none => .ok (h, false)
  | some i => do
    let n ← Table.nodeAt b i
    let vs ← n.2.read h.values
    match search id vs v with
    | none => .ok (h, false)
    | some j =>
      if n.2.size = 1 then do
        release h.values n.2.val
        .ok ({ h with
          table := h.table.removeNode sorter pos b i
          elements := subFetch h.elements 1 }, true)
      else do
        release h.values n.2.val
        .ok ({ h with
          table := h.table.writeNode pos b i ⟨n.2.size - 1, .own (leftover vs j memory)⟩ }, true)

def rehash (h : HashMultimap K V) : Except HashError (HashMultimap K V) := do
  let table ← h.table.rehash hash sorter
  .ok { h with table }

/-! ## What the operations do -/

def entries (h : HashMultimap K V) : List (K × List V) := contents h.values h.table

structure Sound (h : HashMultimap K V) : Prop where
  table : Ds.Sound hash h.values h.table
  elements : h.elements < 2 ^ 64

def inserted (v : V) : Option (List V) → List V
  | none => [v]
  | some vs => if (search id vs v).isSome then vs else sortLast id (vs ++ [v])

def insertedArray (vs : List V) : Option (List V) → List V
  | none => vsorter.sort vs
  | some old => vsorter.sort (old ++ newValues old vs)

def deleted [Inhabited V] (v : V) (memory : Nat → V) : Option (List V) → Option (List V)
  | none => none
  | some vs =>
    match search id vs v with
    | none => some vs
    | some j => if vs.length = 1 then none else some (leftover vs j memory)

variable {hash} {sorter} {vsorter} {h : HashMultimap K V} {k : K} {v : V} {vs : List V}

section
variable {pool old : List V} {x : Values V}

theorem length_sortLast_concat (old : List V) (v) :
    (sortLast id (old ++ [v])).length = old.length + 1 := by
  rw [length_sortLast, length_append]
  rfl

theorem size_add_one (hx : Holds pool x old) (v) :
    x.size + 1 = ((sortLast id (old ++ [v])).length : Nat) := by
  rw [length_sortLast_concat, hx.size_eq]
  rfl

variable (vsorter) in
theorem asInt_length_sort (hlen : vs.length < 2 ^ 31) :
    asInt vs.length = ((vsorter.sort vs).length : Nat) := by
  rw [(vsorter.perm vs).length_eq, asInt_of_lt hlen]

theorem length_newValues_le (old vs : List V) : (newValues old vs).length ≤ vs.length := by
  rw [newValues, length_insertionSort]
  exact (dedup_sublist _).length_le.trans (length_filter_le _ _)

variable (vsorter) in
theorem asInt_length_merged (hx : Holds pool x old) (hlt : old.length + vs.length < 2 ^ 31) :
    asInt (x.size.toNat + (newValues old vs).length) =
      ((vsorter.sort (old ++ newValues old vs)).length : Nat) := by
  have hnews := length_newValues_le old vs
  rw [(vsorter.perm _).length_eq, length_append, hx.size_eq, Int.toNat_natCast,
    asInt_of_lt (by omega)]

omit [LinearOrder V] in
theorem length_leftover [Inhabited V] (hj : j < vs.length) (memory : Nat → V) :
    (leftover vs j memory).length = vs.length - 1 := by
  simp only [leftover, length_append, length_map, length_range, length_drop,
    length_take, length_replicate]
  omega

omit [LinearOrder V] in
theorem size_sub_one [Inhabited V] (hx : Holds pool x old) (hj : j < old.length)
    (memory : Nat → V) : x.size - 1 = ((leftover old j memory).length : Nat) := by
  rw [length_leftover hj, hx.size_eq]
  omega

end

omit [LinearOrder V] in
theorem Sound.room (hs : h.Sound hash)
    (htotal : k ∉ h.entries.map Prod.fst → h.table.total + 1 < 2 ^ 31)
    (ht : Ds.Sound hash h.values t) (hperm : (contents h.values t).Perm h.entries)
    (hk : k ∉ t.nodes.map Prod.fst) : t.total + 1 < 2 ^ 31 := by
  rw [← ht.length_contents, hperm.length_eq, entries, hs.table.length_contents]
  apply htotal
  rw [← keys_contents h.values, (hperm.map Prod.fst).mem_iff] at hk
  exact hk

theorem insert_post (hs : h.Sound hash)
    (htotal : k ∉ h.entries.map Prod.fst → h.table.total + 1 < 2 ^ 31)
    (hroom : ∀ vs, (k, vs) ∈ h.entries → (search id vs v).isSome = false → vs.length + 1 < 2 ^ 31) :
    Post (fun h' => h'.Sound hash ∧ ∃ before,
        Update h.entries h'.entries k before (some (inserted v before)) ∧
        h'.elements = addFetch h.elements ((inserted v before).length - before.elim 0 length))
      Never (insert hash sorter h k v) := by
  rw [insert]
  refine hs.table.locate_rehashed fun t found ht hperm hfound => ?_
  cases hfound with
  | absent hb hk =>
    obtain ⟨hsound, hnew⟩ := ht.addNode hb hk (hs.room htotal ht hperm hk) (.own [v]) (by simp)
    refine ⟨⟨hsound, addFetch_lt _ _⟩, none, ?_, rfl⟩
    have hupdate := Update.add (keys_contents h.values ▸ hk) hnew
    exact hupdate.perm_left hperm.symm
  | present hb hi =>
    rename_i b i x
    have hholds := ht.holds hb hi
    have hmem : (k, x.toList h.values) ∈ contents h.values t := mem_contents hb hi
    dsimp only
    apply post_bind_ok (Table.nodeAt_eq hi)
    apply post_bind_ok hholds.read_eq
    split
    · next hin =>
      refine ⟨⟨ht, hs.elements⟩, some (x.toList h.values), ?_, ?_⟩
      · rw [inserted, if_pos hin]
        exact (Update.same hmem (List.Perm.refl _)).perm_left hperm.symm
      · rw [inserted, if_pos hin, Option.elim_some, Nat.sub_self, addFetch, Nat.add_zero,
          Nat.mod_eq_of_lt hs.elements]
    · next hout =>
      have hlen := hroom _ (hperm.mem_iff.mp hmem) (Bool.not_eq_true _ ▸ hout)
      have hsize : x.size ≠ 2 ^ 31 - 1 := by
        rw [hholds.size_eq]
        omega
      have hlen' := length_sortLast_concat (x.toList h.values) v
      rw [if_neg hsize, size_add_one hholds v]
      apply post_bind_ok hholds.release_eq
      obtain ⟨hsound, rest, hold, hnew⟩ := ht.writeNode hb hi
        (.own (sortLast id (x.toList h.values ++ [v]))) (by omega)
      refine ⟨⟨hsound, addFetch_lt _ _⟩, some (x.toList h.values), ?_, ?_⟩
      · rw [inserted, if_neg hout]
        exact (Update.write hold hnew).perm_left hperm.symm
      · rw [inserted, if_neg hout, hlen', Option.elim_some, Nat.add_sub_cancel_left]

theorem addArray_post (ht : Ds.Sound hash h.values t)
    (hperm : (contents h.values t).Perm h.entries) (htotal : t.total + 1 < 2 ^ 31)
    (hlen : vs.length < 2 ^ 31)
    (hb : t.buckets[hash k % t.size]? = some b) (hk : k ∉ t.nodes.map Prod.fst) :
    Post (fun h' => h'.Sound hash ∧ Update h.entries h'.entries k none (some (vsorter.sort vs)) ∧
        h'.elements = addFetch h.elements vs.length)
      Never (addArray vsorter h t (hash k % t.size) b k vs) := by
  have hsort : (vsorter.sort vs).length = vs.length := (vsorter.perm vs).length_eq
  rw [addArray, asInt_length_sort vsorter hlen, if_neg (by omega)]
  obtain ⟨hsound, hnew⟩ := ht.addNode hb hk htotal (.own (vsorter.sort vs)) (by omega)
  refine ⟨⟨hsound, addFetch_lt _ _⟩, ?_, rfl⟩
  have hupdate := Update.add (keys_contents h.values ▸ hk) hnew
  exact hupdate.perm_left hperm.symm

theorem insertArray_post (hs : h.Sound hash)
    (htotal : k ∉ h.entries.map Prod.fst → h.table.total + 1 < 2 ^ 31) (hlen : vs.length < 2 ^ 31)
    (hroom : ∀ old, (k, old) ∈ h.entries → old.length + vs.length < 2 ^ 31) :
    Post (fun h' => h'.Sound hash ∧ ∃ before,
        Update h.entries h'.entries k before (some (insertedArray vsorter vs before)) ∧
        h'.elements = addFetch h.elements
          ((insertedArray vsorter vs before).length - before.elim 0 length))
      Never (insertArray hash sorter vsorter h k vs) := by
  rw [insertArray]
  refine hs.table.locate_rehashed fun t found ht hperm hfound => ?_
  cases hfound with
  | absent hb hk =>
    apply (addArray_post ht hperm (hs.room htotal ht hperm hk) hlen hb hk).imp
    rintro h' ⟨hsound, hupdate, helements⟩
    refine ⟨hsound, none, hupdate, ?_⟩
    rw [helements, insertedArray, (vsorter.perm vs).length_eq]
    rfl
  | present hb hi =>
    rename_i b i x
    have hholds := ht.holds hb hi
    have hmem : (k, x.toList h.values) ∈ contents h.values t := mem_contents hb hi
    dsimp only
    apply post_bind_ok (Table.nodeAt_eq hi)
    apply post_bind_ok hholds.read_eq
    have hnews := length_newValues_le (x.toList h.values) vs
    have hroom' := hroom _ (hperm.mem_iff.mp hmem)
    have hsort := (vsorter.perm (x.toList h.values ++ newValues (x.toList h.values) vs)).length_eq
    rw [length_append] at hsort
    rw [asInt_length_merged vsorter hholds hroom', if_neg (by omega)]
    apply post_bind_ok hholds.release_eq
    obtain ⟨hsound, rest, hold, hnew⟩ := ht.writeNode hb hi
      (.own (vsorter.sort (x.toList h.values ++ newValues (x.toList h.values) vs))) (by omega)
    refine ⟨⟨hsound, addFetch_lt _ _⟩, some (x.toList h.values), ?_, ?_⟩
    · exact (Update.write hold hnew).perm_left hperm.symm
    · rw [insertedArray, hsort, Option.elim_some, Nat.add_sub_cancel_left]

theorem set_post (hs : h.Sound hash)
    (htotal : k ∉ h.entries.map Prod.fst → h.table.total + 1 < 2 ^ 31) (hlen : vs.length < 2 ^ 31) :
    Post (fun h' => h'.Sound hash ∧ ∃ before,
        Update h.entries h'.entries k before (some (vsorter.sort vs)) ∧
        h'.elements = addFetch h.elements vs.length)
      Never (set hash sorter vsorter h k vs) := by
  rw [set]
  refine hs.table.locate_rehashed fun t found ht hperm hfound => ?_
  cases hfound with
  | absent hb hk =>
    apply (addArray_post ht hperm (hs.room htotal ht hperm hk) hlen hb hk).imp
    rintro h' ⟨hsound, hupdate, helements⟩
    exact ⟨hsound, none, hupdate, helements⟩
  | present hb hi =>
    rename_i b i x
    have hsort := (vsorter.perm vs).length_eq
    dsimp only
    apply post_bind_ok (Table.nodeAt_eq hi)
    rw [asInt_length_sort vsorter hlen, if_neg (by omega)]
    apply post_bind_ok (ht.holds hb hi).release_eq
    obtain ⟨hsound, rest, hold, hnew⟩ := ht.writeNode hb hi (.own (vsorter.sort vs)) (by omega)
    refine ⟨⟨hsound, addFetch_lt _ _⟩, some (x.toList h.values), ?_, rfl⟩
    exact (Update.write hold hnew).perm_left hperm.symm

omit [LinearOrder V] in
theorem del_post (hs : h.Sound hash) :
    Post (fun r => r.1.Sound hash ∧ ∃ before, Update h.entries r.1.entries k before none ∧
        r.2 = before.isSome ∧
        r.1.elements = subFetch h.elements (before.elim 0 length))
      Never (del hash sorter h k) := by
  apply (Table.locate_post hs.table.inv k).bind
  intro found hfound
  cases hfound with
  | absent hb hk =>
    refine ⟨hs, none, .keep ?_ (List.Perm.refl _), rfl, ?_⟩
    · rw [entries, keys_contents]
      exact hk
    · rw [Option.elim_none, subFetch, if_pos (Nat.zero_le _)]
      rfl
  | present hb hi =>
    rename_i b i x
    have hholds := hs.table.holds hb hi
    have hlen := hs.table.lengths _ (Table.mem_nodes_of_bucket hb (mem_of_getElem? hi))
    dsimp only at hlen ⊢
    apply post_bind_ok (Table.nodeAt_eq hi)
    apply post_bind_ok hholds.release_eq
    obtain ⟨hsound, hold⟩ := hs.table.removeNode sorter hb hi
    refine ⟨⟨hsound, ?_⟩, some (x.toList h.values), .remove hold, rfl, ?_⟩
    · exact subFetch_lt hs.elements
    · have hsize : (BitVec.ofInt 64 x.size).toNat = (x.toList h.values).length := by
        rw [hholds.size_eq, BitVec.toNat_ofInt]
        omega
      rw [Option.elim_some, ← hsize]

theorem delValue_post [Inhabited V] (hs : h.Sound hash) (memory : Nat → V) :
    Post (fun r => r.1.Sound hash ∧ ∃ before,
        Update h.entries r.1.entries k before (deleted v memory before) ∧
        r.2 = (before.any fun vs => (search id vs v).isSome) ∧
        r.1.elements = if before.isSome ∧ deleted v memory before = none
          then subFetch h.elements 1 else h.elements)
      Never (delValue hash sorter h k v memory) := by
  apply (Table.locate_post hs.table.inv k).bind
  intro found hfound
  cases hfound with
  | absent hb hk =>
    refine ⟨hs, none, .keep ?_ (List.Perm.refl _), rfl, rfl⟩
    rw [entries, keys_contents]
    exact hk
  | present hb hi =>
    rename_i b i x
    have hholds := hs.table.holds hb hi
    have hmem : (k, x.toList h.values) ∈ h.entries := mem_contents hb hi
    have hlen := hs.table.lengths _ (Table.mem_nodes_of_bucket hb (mem_of_getElem? hi))
    have hsize := hholds.size_eq
    dsimp only at hlen ⊢
    apply post_bind_ok (Table.nodeAt_eq hi)
    apply post_bind_ok hholds.read_eq
    cases hsearch : search id (x.toList h.values) v with
    | none =>
      have hdeleted : deleted v memory (some (x.toList h.values)) = some (x.toList h.values) := by
        rw [deleted, hsearch]
      refine ⟨hs, some (x.toList h.values), ?_, ?_, ?_⟩
      · rw [hdeleted]
        exact Update.same hmem (List.Perm.refl _)
      · rw [Option.any_some, hsearch]
        rfl
      · rw [hdeleted, if_neg (by simp)]
    | some j =>
      obtain ⟨w, hj, -⟩ := key_of_search hsearch
      have hj' := (List.getElem?_eq_some_iff.mp hj).1
      have hfound : true = ((some (x.toList h.values)).any fun vs => (search id vs v).isSome) := by
        rw [Option.any_some, hsearch]
        rfl
      dsimp only
      split
      · next hone =>
        have hdeleted : deleted v memory (some (x.toList h.values)) = none := by
          rw [deleted, hsearch]
          exact if_pos (by omega)
        apply post_bind_ok hholds.release_eq
        obtain ⟨hsound, hold⟩ := hs.table.removeNode sorter hb hi
        refine ⟨⟨hsound, subFetch_lt hs.elements⟩, some (x.toList h.values), ?_, hfound, ?_⟩
        · rw [hdeleted]
          exact .remove hold
        · rw [hdeleted, if_pos ⟨rfl, rfl⟩]
      · next hone =>
        have hdeleted : deleted v memory (some (x.toList h.values)) =
            some (leftover (x.toList h.values) j memory) := by
          rw [deleted, hsearch]
          exact if_neg (by omega)
        apply post_bind_ok hholds.release_eq
        have hleft := length_leftover hj' memory
        rw [size_sub_one hholds hj' memory]
        obtain ⟨hsound, rest, hold, hnew⟩ := hs.table.writeNode hb hi
          (.own (leftover (x.toList h.values) j memory)) (by omega)
        refine ⟨⟨hsound, hs.elements⟩, some (x.toList h.values), ?_, hfound, ?_⟩
        · rw [hdeleted]
          exact .write hold hnew
        · rw [hdeleted, if_neg (by simp)]

omit [LinearOrder V] in
theorem rehash_post (hs : h.Sound hash) :
    Post (fun h' => h'.Sound hash ∧ h'.entries.Perm h.entries ∧ h'.elements = h.elements)
      Never (rehash hash sorter h) := by
  apply (hs.table.rehash_post sorter).bind
  rintro t ⟨ht, hperm⟩
  exact ⟨⟨ht, hs.elements⟩, hperm, rfl⟩

omit [LinearOrder V] in
theorem get_post (hs : h.Sound hash) :
    Post (fun found => found = valueOf h.entries k) Never (get hash h k) := by
  apply (Table.locate_post hs.table.inv k).bind
  intro found hfound
  cases hfound with
  | absent hb hk => exact (valueOf_contents_none hk).symm
  | present hb hi =>
    rename_i b i x
    have hholds := hs.table.holds hb hi
    have hsize : ¬ x.size < 0 := by
      rw [hholds.size_eq]
      omega
    dsimp only
    apply post_bind_ok (Table.nodeAt_eq hi)
    rw [if_neg hsize]
    apply post_bind_ok hholds.read_eq
    exact (hs.table.valueOf_contents hb hi).symm

omit [LinearOrder V] in
theorem existsKey_post (hs : h.Sound hash) :
    Post (fun found => found = (valueOf h.entries k).isSome) Never (existsKey hash h k) := by
  apply (Table.locate_post hs.table.inv k).bind
  intro found hfound
  cases hfound with
  | absent hb hk =>
    rw [entries, valueOf_contents_none hk]
    rfl
  | present hb hi =>
    rw [entries, hs.table.valueOf_contents hb hi]
    rfl

theorem existsValue_post (hs : h.Sound hash) :
    Post (fun found => found = (valueOf h.entries k).any fun vs => (search id vs v).isSome)
      Never (existsValue hash h k v) := by
  apply (Table.locate_post hs.table.inv k).bind
  intro found hfound
  cases hfound with
  | absent hb hk =>
    rw [entries, valueOf_contents_none hk]
    rfl
  | present hb hi =>
    rw [entries, hs.table.valueOf_contents hb hi]
    dsimp only
    apply post_bind_ok (Table.nodeAt_eq hi)
    apply post_bind_ok (hs.table.holds hb hi).read_eq
    rfl

/-! ## Runs -/

inductive Action (K V : Type)
  | new (size : Nat)
  | get (i : Nat) (k : K)
  | existsKey (i : Nat) (k : K)
  | existsValue (i : Nat) (k : K) (v : V)
  | insert (i : Nat) (k : K) (v : V)
  | insertArray (i : Nat) (k : K) (vs : List V)
  | set (i : Nat) (k : K) (vs : List V)
  | del (i : Nat) (k : K)
  | delValue (i : Nat) (k : K) (v : V) (memory : Nat → V)
  | rehash (i : Nat)

inductive Answer (V : Type)
  | values (vs : Option (List V))
  | flag (b : Bool)
  deriving DecidableEq

variable (hash) (sorter) (vsorter) in
def exec [Inhabited V] : Action K V → Store (HashMultimap K V) (Answer V) →
    Except HashError (Store (HashMultimap K V) (Answer V))
  | .new size, s => do
    let h ← new size
    .ok (s.make h)
  | .get i k, s => s.call i fun h => do
    let vs ← get hash h k
    .ok (h, [.values vs])
  | .existsKey i k, s => s.call i fun h => do
    let found ← existsKey hash h k
    .ok (h, [.flag found])
  | .existsValue i k v, s => s.call i fun h => do
    let found ← existsValue hash h k v
    .ok (h, [.flag found])
  | .insert i k v, s => s.call i fun h => do
    let h' ← insert hash sorter h k v
    .ok (h', [.flag true])
  | .insertArray i k vs, s => s.call i fun h => do
    let h' ← insertArray hash sorter vsorter h k vs
    .ok (h', [.flag true])
  | .set i k vs, s => s.call i fun h => do
    let h' ← set hash sorter vsorter h k vs
    .ok (h', [.flag true])
  | .del i k, s => s.call i fun h => do
    let (h', found) ← del hash sorter h k
    .ok (h', [.flag found])
  | .delValue i k v memory, s => s.call i fun h => do
    let (h', found) ← delValue hash sorter h k v memory
    .ok (h', [.flag found])
  | .rehash i, s => s.call i fun h => do
    let h' ← rehash hash sorter h
    .ok (h', [])

def Action.Sized : Action K V → Prop
  | .new size => 0 < size ∧ size < 2 ^ 32 ∧ size ≠ 2 ^ 31
  | _ => True

instance : (a : Action K V) → Decidable a.Sized
  | .new size => inferInstanceAs (Decidable (_ ∧ _))
  | .get .. | .existsKey .. | .existsValue .. | .insert .. | .insertArray .. | .set .. | .del ..
  | .delValue .. | .rehash .. => inferInstanceAs (Decidable True)

/-! ## The counters -/

/-- A call that keeps the counters right: the sizes stay in the range of `int`, `set` finds
no values under the key, and `del(k, v)` takes away the only one. -/
def Gentle (s : Store (HashMultimap K V) (Answer V)) : Action K V → Prop
  | .new size => 0 < size ∧ size < 2 ^ 32 ∧ size ≠ 2 ^ 31
  | .insert i k _ => ∀ h ∈ s.objects[i]?,
    (valueOf h.entries k = none → h.table.total + 1 < 2 ^ 31) ∧
    ∀ vs ∈ valueOf h.entries k, vs.length + 1 < 2 ^ 31
  | .insertArray i k vs => ∀ h ∈ s.objects[i]?,
    (valueOf h.entries k = none → h.table.total + 1 < 2 ^ 31) ∧ vs.length < 2 ^ 31 ∧
    ∀ old ∈ valueOf h.entries k, old.length + vs.length < 2 ^ 31
  | .set i k vs => ∀ h ∈ s.objects[i]?,
    (valueOf h.entries k = none → h.table.total + 1 < 2 ^ 31) ∧ vs.length < 2 ^ 31 ∧
    ∀ old ∈ valueOf h.entries k, old = []
  | .delValue i k v _ => ∀ h ∈ s.objects[i]?, ∀ vs ∈ valueOf h.entries k, v ∈ vs → vs.length = 1
  | _ => True

instance (s : Store (HashMultimap K V) (Answer V)) : (a : Action K V) → Decidable (Gentle s a)
  | .new size => inferInstanceAs (Decidable (_ ∧ _))
  | .insert i k _ => inferInstanceAs (Decidable (∀ h ∈ s.objects[i]?, _))
  | .insertArray i k vs => inferInstanceAs (Decidable (∀ h ∈ s.objects[i]?, _))
  | .set i k vs => inferInstanceAs (Decidable (∀ h ∈ s.objects[i]?, _))
  | .delValue i k v _ => inferInstanceAs (Decidable (∀ h ∈ s.objects[i]?, _))
  | .get .. | .existsKey .. | .existsValue .. | .del .. | .rehash .. =>
    inferInstanceAs (Decidable True)

structure Counted (hash : K → Nat) (h : HashMultimap K V) : Prop where
  sound : h.Sound hash
  elements : h.elements = (h.entries.map fun e => e.2.length).sum

omit [LinearOrder V] in
theorem Sound.sum_lt (hs : h.Sound hash) : (h.entries.map fun e => e.2.length).sum < 2 ^ 64 := by
  have hbound : ∀ n ∈ h.entries.map fun e => e.2.length, n ≤ 2 ^ 31 := by
    intro n hn
    obtain ⟨e, he, rfl⟩ := mem_map.mp hn
    obtain ⟨node, hnode, rfl⟩ := mem_map.mp he
    exact (hs.table.lengths node hnode).le
  have hsum := sum_le_card_nsmul _ _ hbound
  have hcount : (h.entries.map fun e => e.2.length).length < 2 ^ 31 := by
    rw [length_map, entries, hs.table.length_contents]
    exact hs.table.total
  rw [smul_eq_mul] at hsum
  have hmul := Nat.mul_le_mul_right (2 ^ 31) hcount.le
  omega

omit [LinearOrder V] in
theorem Counted.update {h' : HashMultimap K V} (hc : Counted hash h) (hs : h'.Sound hash)
    {before after : Option (List V)} (hupdate : Update h.entries h'.entries k before after)
    (helements : h'.elements =
      addFetch h.elements (after.elim 0 length - before.elim 0 length))
    (hle : before.elim 0 length ≤ after.elim 0 length) : Counted hash h' := by
  refine ⟨hs, ?_⟩
  have hsum := hupdate.sum_map length
  have hlt := hs.sum_lt
  rw [helements, hc.elements, addFetch, Nat.mod_eq_of_lt (by omega)]
  omega

theorem insertedArray_length_le (vs) (before : Option (List V)) :
    before.elim 0 length ≤ (insertedArray vsorter vs before).length := by
  cases before with
  | none => exact Nat.zero_le _
  | some old =>
    rw [insertedArray, (vsorter.perm _).length_eq, length_append]
    exact Nat.le_add_right _ _

theorem inserted_length_le (v) (before : Option (List V)) :
    before.elim 0 length ≤ (inserted v before).length := by
  cases before with
  | none => exact Nat.zero_le _
  | some vs =>
    rw [inserted, Option.elim_some]
    split
    · exact Nat.le_refl _
    · rw [length_sortLast_concat]
      exact Nat.le_succ _

theorem deleted_of_gentle [Inhabited V] (memory : Nat → V) (hgentle : v ∈ vs → vs.length = 1) :
    deleted v memory (some vs) = some vs ∨ vs.length = 1 ∧ deleted v memory (some vs) = none := by
  rw [deleted]
  cases hsearch : search id vs v with
  | none => exact .inl rfl
  | some j =>
    obtain ⟨w, hj, rfl⟩ := key_of_search hsearch
    have hone := hgentle (mem_of_getElem? hj)
    exact .inr ⟨hone, if_pos hone⟩

theorem Counted.delValue_post [Inhabited V] (hc : Counted hash h) (memory : Nat → V)
    (hgentle : ∀ vs ∈ valueOf h.entries k, v ∈ vs → vs.length = 1) :
    Post (fun r => Counted hash r.1) Never (delValue hash sorter h k v memory) := by
  apply (HashMultimap.delValue_post hc.sound memory).imp
  rintro ⟨h', found⟩ ⟨hs, before, hupdate, -, heq⟩
  refine ⟨hs, ?_⟩
  have hsum := hupdate.sum_map length
  have hbefore := hupdate.valueOf_eq hc.sound.table.nodup
  have helements := hc.elements
  cases before with
  | none =>
    rw [if_neg (by simp)] at heq
    rw [heq]
    exact helements.trans hsum.symm
  | some vs =>
    rcases deleted_of_gentle memory (hgentle vs hbefore) with hsame | ⟨hone, hnone⟩
    · rw [hsame, if_neg (by simp)] at heq
      rw [hsame] at hsum
      omega
    · rw [hnone, if_pos ⟨rfl, rfl⟩] at heq
      rw [hnone] at hsum
      dsimp only [Option.elim_some, Option.elim_none] at hsum heq ⊢
      rw [heq, subFetch, if_pos (by omega)]
      omega

variable (hash) (sorter) (vsorter) in
theorem Counted.exec_post [Inhabited V]
    (hs : ∀ h ∈ s.objects, Counted hash h) (a) (hgentle : Gentle s a) :
    Post (fun s' => ∀ h ∈ s'.objects, Counted hash h) Never (exec hash sorter vsorter a s) := by
  cases a with
  | new size =>
    have hnew : Post (fun h : HashMultimap K V => Counted hash h) Never (new size) := by
      apply (Ds.Sound.new_post hash [] hgentle.1 hgentle.2.2 hgentle.2.1).bind
      rintro t ⟨ht, hnil⟩
      refine ⟨⟨ht, Nat.two_pow_pos 64⟩, ?_⟩
      rw [entries, hnil]
      rfl
    apply hnew.bind
    intro h hh h' hh'
    rcases mem_append.mp hh' with hh' | hh'
    · exact hs h' hh'
    · rw [mem_singleton.mp hh']
      exact hh
  | get i k =>
    apply Store.post_call_all hs
    intro h _ hc
    apply (get_post hc.sound).bind
    exact fun _ _ => hc
  | existsKey i k =>
    apply Store.post_call_all hs
    intro h _ hc
    apply (existsKey_post hc.sound).bind
    exact fun _ _ => hc
  | existsValue i k v =>
    apply Store.post_call_all hs
    intro h _ hc
    apply (existsValue_post hc.sound).bind
    exact fun _ _ => hc
  | insert i k v =>
    apply Store.post_call_all hs
    intro h hi hc
    obtain ⟨htotal, hroom⟩ := hgentle h hi
    apply (insert_post hc.sound (fun hk => htotal (valueOf_eq_none_iff.mpr hk))
      fun vs hvs _ => hroom vs ((valueOf_eq_some_iff hc.sound.table.nodup).mpr hvs)).bind
    rintro h' ⟨hs', before, hupdate, helements⟩
    exact hc.update hs' hupdate helements (inserted_length_le v before)
  | insertArray i k vs =>
    apply Store.post_call_all hs
    intro h hi hc
    obtain ⟨htotal, hlen, hroom⟩ := hgentle h hi
    apply (insertArray_post hc.sound (fun hk => htotal (valueOf_eq_none_iff.mpr hk)) hlen
      fun old hold => hroom old ((valueOf_eq_some_iff hc.sound.table.nodup).mpr hold)).bind
    rintro h' ⟨hs', before, hupdate, helements⟩
    exact hc.update hs' hupdate helements (insertedArray_length_le vs before)
  | set i k vs =>
    apply Store.post_call_all hs
    intro h hi hc
    obtain ⟨htotal, hlen, hempty⟩ := hgentle h hi
    apply (set_post hc.sound (fun hk => htotal (valueOf_eq_none_iff.mpr hk)) hlen).bind
    rintro h' ⟨hs', before, hupdate, helements⟩
    have hzero : before.elim 0 length = 0 := by
      have hbefore := hupdate.valueOf_eq hc.sound.table.nodup
      cases before with
      | none => rfl
      | some old => rw [hempty old hbefore]; rfl
    apply hc.update hs' hupdate
    · rw [helements, Option.elim_some, (vsorter.perm vs).length_eq, hzero]
      rfl
    · rw [hzero]
      exact Nat.zero_le _
  | del i k =>
    apply Store.post_call_all hs
    intro h hi hc
    apply (del_post hc.sound).bind
    rintro ⟨h', found⟩ ⟨hs', before, hupdate, -, helements⟩
    refine ⟨hs', ?_⟩
    have hsum := hupdate.sum_map length
    have hold := hc.elements
    dsimp only [Option.elim_none] at hsum helements ⊢
    rw [helements, subFetch, if_pos (by omega)]
    omega
  | delValue i k v memory =>
    apply Store.post_call_all hs
    intro h hi hc
    apply (hc.delValue_post memory (hgentle h hi)).bind
    exact fun r hr => hr
  | rehash i =>
    apply Store.post_call_all hs
    intro h hi hc
    apply (rehash_post hc.sound).bind
    rintro h' ⟨hs', hperm, helements⟩
    refine ⟨hs', ?_⟩
    rw [helements, hc.elements]
    exact ((hperm.map fun e => e.2.length).sum_eq).symm

omit [LinearOrder V] in
theorem Counted.sum_size (hc : Counted hash h) :
    (h.elements : Int) = (h.table.nodes.map fun n => n.2.size).sum := by
  have hsize : (h.table.nodes.map fun n => n.2.size) =
      (h.entries.map fun e => e.2.length).map Nat.cast := by
    rw [entries, contents, map_map, map_map]
    apply map_congr_left
    intro n hn
    exact (hc.sound.table.arrays n hn).size_eq
  rw [hc.elements, hsize, Nat.cast_list_sum]

def CountersRight (s : Store (HashMultimap K V) (Answer V)) : Prop :=
  ∀ h ∈ s.objects, h.table.total = (h.table.nodes.map Prod.fst).toFinset.card ∧
    (h.elements : Int) = (h.table.nodes.map fun n => n.2.size).sum
  deriving Decidable

/-- `m_total` counts the keys and `m_elements` the values, as long as the calls are gentle. -/
theorem runs_count [Inhabited V] (acts : List (Action K V))
    (hgentle : Along (exec hash sorter vsorter) Gentle acts .empty) :
    Post CountersRight (fun _ => False) (run (exec hash sorter vsorter) acts .empty) := by
  have hrun := post_run (fun s a hs ha => Counted.exec_post hash sorter vsorter hs a ha) acts .empty
    hgentle
    fun h hh => absurd hh not_mem_nil
  apply hrun.imp
  intro s hs h hh
  have hc := hs h hh
  refine ⟨?_, hc.sum_size⟩
  rw [toFinset_card_of_nodup hc.sound.table.inv.nodup, length_map]
  exact hc.sound.table.inv.total

def countedRun : List (Action Nat Nat) :=
  [.new 1, .insert 0 5 30, .insertArray 0 5 [20, 30, 10, 20], .set 0 1 [7],
    .delValue 0 1 7 fun _ => 0, .insertArray 0 9 [2, 2, 1], .del 0 5]

theorem countedRun_gentle :
    Along (exec (· % 4) (.insertion Prod.fst) (.insertion id)) Gentle countedRun .empty := by
  decide +kernel

theorem runs_count_seven :
    Along (exec (· % 4) (.insertion Prod.fst) (.insertion id)) Gentle countedRun .empty ∧
    Post CountersRight (fun _ => False)
      (run (exec (· % 4) (.insertion Prod.fst) (.insertion id)) countedRun .empty) := by
  refine ⟨countedRun_gentle, ?_⟩
  apply runs_count
  exact countedRun_gentle

/-- `set` over two values by one, and `del(k, v)` of one of two values. -/
theorem runs_miscount :
    ¬ Post CountersRight (fun _ => True) (run (exec (· % 4) (.insertion Prod.fst) (.insertion id))
      [.new 1, .insertArray 0 5 [10, 20], .set 0 5 [30]]
      (.empty : Store (HashMultimap Nat Nat) (Answer Nat))) ∧
    ¬ Post CountersRight (fun _ => True) (run (exec (· % 4) (.insertion Prod.fst) (.insertion id))
      [.new 1, .insertArray 0 5 [10, 20], .delValue 0 5 20 fun _ => 0]
      (.empty : Store (HashMultimap Nat Nat) (Answer Nat))) := by
  decide +kernel

end HashMultimap

end Helens.Ds
