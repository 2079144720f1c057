import Helens.HashMultimap
import Helens.HashPools

/-! The streams of `HashMultimap`, and the operations on maps that were read from a stream:
there the arrays can be read, but keys need not lie where they are looked for. -/

namespace Helens.Ds.HashMultimap

open Lib.Runs Lib.SortedVector Lib.FiniteMap Lib.Stores Lib.Words Lib.PlainData

variable {K V : Type} [LinearOrder K] [LinearOrder V] (hash : K → Nat)
  (sorter : Sorter (K × Values V) Prod.fst) (vsorter : Sorter V id)

/-! ## The code -/

omit [LinearOrder K] [LinearOrder V] in
/-- Every array that is not part of `m_values` is deleted, unless its node has no values. -/
def freeDatas (h : HashMultimap K V) : Except HashError Unit :=
  match h.table.datas with
  | none => .ok ()
  | some _ => do
    let ns ← h.table.allNodes
    ns.forM fun n => if n.2.size = 0 then .ok () else release h.values n.2.val

variable (value : Pod V) (node : Pod (WireNode K))

omit [LinearOrder K] [LinearOrder V] in
def writeTo (h : HashMultimap K V) : Except HashError (List UInt8 × Bool) := do
  let ns ← h.table.allNodes
  let acc ← ns.foldlM (fun acc n => if n.2.size = 0 then .ok acc else packNode h.values acc n)
    ([], [])
  .ok (writePool value node h.table.size acc)

omit [LinearOrder K] [LinearOrder V] in
def countElements (ns : List (K × Values V)) : Nat :=
  ns.foldl (fun m n => addFetch m (BitVec.ofInt 64 n.2.size).toNat) 0

omit [LinearOrder V] in
def readFrom [Inhabited K] [Inhabited V] (granted : Request → Bool) (h : HashMultimap K V)
    (is : List UInt8) : Except HashError (HashMultimap K V × Bool) := do
  freeDatas h
  let r ← readPool hash sorter value node granted h.table h.values h.reserved is
  .ok ({ table := r.table, elements := r.pushed.elim h.elements countElements,
         values := r.values, reserved := r.reserved }, r.done)

/-! ## What the operations keep -/

variable {hash} {sorter} {vsorter} {Q : HashError → Prop} {P : Table K (Values V) → Prop}
  {h : HashMultimap K V} {vs : List V} (tame : Table.Tame hash sorter Q P)
include tame

theorem insert_kept (hk : Kept P 0 h.values h.table) (htotal : h.table.total + 1 < 2 ^ 31)
    (hroom : ∀ n ∈ h.table.nodes, n.2.size + 1 < 2 ^ 31) :
    Post (fun h' => Kept P 0 h'.values h'.table) Q (insert hash sorter h k v) := by
  rw [insert, Table.autoRehash_eq]
  apply (hk.rehash_post tame (by omega)).bind
  rintro t ⟨ht, htotal', hsub⟩
  apply tame.post_locate ht.table
  · intro pos b hl
    exact ht.add tame hl (by omega) (.own [v]) (by omega) (by simp)
  · intro pos b i x hl hi
    have hx := ht.holds hl hi
    have hsize := hroom (k, x) (hsub _ (Table.mem_nodes_of_locate hl hi))
    apply post_bind_ok (Table.nodeAt_eq hi)
    apply post_bind_ok hx.read_eq
    dsimp only at hsize ⊢
    split
    · exact ht
    · have hlen := length_sortLast_concat (x.toList h.values) v
      have heq := hx.size_eq
      rw [if_neg (by omega)]
      apply post_bind_ok hx.release_eq
      rw [size_add_one hx v]
      exact ht.write tame hl hi (.own _) (by omega) (by omega)

theorem addArray_kept {pos} (ht : Kept P 0 h.values t) (hl : t.locate hash k = .ok (pos, b, none))
    (htotal : t.total + 1 < 2 ^ 31) (hlen : vs.length < 2 ^ 31) :
    Post (fun h' => Kept P 0 h'.values h'.table) Q (addArray vsorter h t pos b k vs) := by
  have hsort : (vsorter.sort vs).length = vs.length := (vsorter.perm vs).length_eq
  rw [addArray, asInt_length_sort vsorter hlen, if_neg (by omega)]
  exact ht.add tame hl htotal (.own (vsorter.sort vs)) (by omega) (by omega)

theorem insertArray_kept (hk : Kept P 0 h.values h.table) (htotal : h.table.total + 1 < 2 ^ 31)
    (hlen : vs.length < 2 ^ 31) (hroom : ∀ n ∈ h.table.nodes, n.2.size + vs.length < 2 ^ 31) :
    Post (fun h' => Kept P 0 h'.values h'.table) Q (insertArray hash sorter vsorter h k vs) := by
  rw [insertArray, Table.autoRehash_eq]
  apply (hk.rehash_post tame (by omega)).bind
  rintro t ⟨ht, htotal', hsub⟩
  apply tame.post_locate ht.table
  · intro pos b hl
    exact addArray_kept tame ht hl (by omega) hlen
  · intro pos b i x hl hi
    have hx := ht.holds hl hi
    have hbound := hroom (k, x) (hsub _ (Table.mem_nodes_of_locate hl hi))
    have hnews := length_newValues_le (x.toList h.values) vs
    have hsort := (vsorter.perm (x.toList h.values ++ newValues (x.toList h.values) vs)).length_eq
    have heq := hx.size_eq
    rw [List.length_append] at hsort
    dsimp only at hbound
    apply post_bind_ok (Table.nodeAt_eq hi)
    apply post_bind_ok hx.read_eq
    dsimp only
    rw [asInt_length_merged vsorter hx (by omega), if_neg (by omega)]
    apply post_bind_ok hx.release_eq
    exact ht.write tame hl hi (.own _) (by omega) (by omega)

theorem set_kept (hk : Kept P 0 h.values h.table) (htotal : h.table.total + 1 < 2 ^ 31)
    (hlen : vs.length < 2 ^ 31) :
    Post (fun h' => Kept P 0 h'.values h'.table) Q (set hash sorter vsorter h k vs) := by
  rw [set, Table.autoRehash_eq]
  apply (hk.rehash_post tame (by omega)).bind
  rintro t ⟨ht, htotal', -⟩
  apply tame.post_locate ht.table
  · intro pos b hl
    exact addArray_kept tame ht hl (by omega) hlen
  · intro pos b i x hl hi
    have hsort := (vsorter.perm vs).length_eq
    apply post_bind_ok (Table.nodeAt_eq hi)
    dsimp only
    rw [asInt_length_sort vsorter hlen, if_neg (by omega)]
    apply post_bind_ok (ht.holds hl hi).release_eq
    exact ht.write tame hl hi (.own (vsorter.sort vs)) (by omega) (by omega)

omit [LinearOrder V] in
theorem del_kept (hk : Kept P 0 h.values h.table) (htotal : h.table.total < 2 ^ 31) :
    Post (fun r => Kept P 0 r.1.values r.1.table) Q (del hash sorter h k) := by
  apply tame.post_locate hk.table
  · exact fun _ _ _ => hk
  · intro pos b i x hl hi
    apply post_bind_ok (Table.nodeAt_eq hi)
    apply post_bind_ok (hk.holds hl hi).release_eq
    exact hk.remove tame hl hi htotal

theorem delValue_kept [Inhabited V] (hk : Kept P 0 h.values h.table)
    (htotal : h.table.total < 2 ^ 31) (memory : Nat → V) :
    Post (fun r => Kept P 0 r.1.values r.1.table) Q (delValue hash sorter h k v memory) := by
  apply tame.post_locate hk.table
  · exact fun _ _ _ => hk
  · intro pos b i x hl hi
    have hx := hk.holds hl hi
    have hbound := hk.sizes (k, x) (Table.mem_nodes_of_locate hl hi)
    apply post_bind_ok (Table.nodeAt_eq hi)
    apply post_bind_ok hx.read_eq
    dsimp only at hbound ⊢
    cases hsearch : search id (x.toList h.values) v with
    | none => exact hk
    | some j =>
      obtain ⟨w, hj, -⟩ := key_of_search hsearch
      have heq := hx.size_eq
      dsimp only
      split
      · apply post_bind_ok hx.release_eq
        exact hk.remove tame hl hi htotal
      · apply post_bind_ok hx.release_eq
        have hj' := (List.getElem?_eq_some_iff.mp hj).1
        have hleft := length_leftover hj' memory
        rw [size_sub_one hx hj' memory]
        exact hk.write tame hl hi (.own _) (by omega) (by omega)

omit [LinearOrder V] in
theorem get_defined (hk : Kept P 0 h.values h.table) : Post (fun _ => True) Q (get hash h k) := by
  apply tame.post_locate hk.table
  · exact fun _ _ _ => trivial
  · intro pos b i x hl hi
    have hx := hk.holds hl hi
    have hsize := hx.size_eq
    apply post_bind_ok (Table.nodeAt_eq hi)
    dsimp only
    rw [if_neg (by omega)]
    apply post_bind_ok hx.read_eq
    trivial

theorem existsValue_defined (hk : Kept P 0 h.values h.table) :
    Post (fun _ => True) Q (existsValue hash h k v) := by
  apply tame.post_locate hk.table
  · exact fun _ _ _ => trivial
  · intro pos b i x hl hi
    apply post_bind_ok (Table.nodeAt_eq hi)
    apply post_bind_ok (hk.holds hl hi).read_eq
    trivial

/-! ## Runs -/

omit tame [LinearOrder K] [LinearOrder V] in
def Action.adds : Action K V → Nat
  | .insert .. => 1
  | .insertArray _ _ vs => vs.length
  | .set _ _ vs => vs.length
  | _ => 0

omit tame [LinearOrder K] [LinearOrder V] in
structure Room (s : Store (HashMultimap K V) (Answer V)) (a : Action K V) : Prop where
  sized : a.Sized
  keys : ∀ h ∈ s.objects, h.table.total + 1 < 2 ^ 31
  values : ∀ h ∈ s.objects, ∀ n ∈ h.table.nodes, n.2.size + a.adds < 2 ^ 31
  array : a.adds < 2 ^ 31

theorem exec_kept [Inhabited V]
    (hs : ∀ h ∈ s.objects, Kept P 0 h.values h.table) (a) (hroom : Room s a) :
    Post (fun s' => ∀ h ∈ s'.objects, Kept P 0 h.values h.table) Q
      (exec hash sorter vsorter a s) := by
  have hkeys : ∀ {i : Nat} {h : HashMultimap K V}, s.objects[i]? = some h →
      h.table.total + 1 < 2 ^ 31 := fun hi => hroom.keys _ (List.mem_of_getElem? hi)
  have hvalues : ∀ {i : Nat} {h : HashMultimap K V}, s.objects[i]? = some h →
      ∀ n ∈ h.table.nodes, n.2.size + a.adds < 2 ^ 31 :=
    fun hi => hroom.values _ (List.mem_of_getElem? hi)
  cases a with
  | new size =>
    obtain ⟨h1, h2, h3⟩ := hroom.sized
    obtain ⟨t, ht, hkept⟩ := (Kept.new_post tame 0 [] h1 h3 h2).exists_ok
    have hnew : new size = .ok ({ table := t, elements := 0, values := [], reserved := false } :
        HashMultimap K V) := by
      rw [new, ht]
      rfl
    apply post_bind_ok hnew
    exact Store.forall_make hs hkept
  | get i k =>
    apply Store.post_call_all hs
    intro h _ hk
    apply (get_defined tame hk).bind
    exact fun _ _ => hk
  | existsKey i k =>
    apply Store.post_call_all hs
    intro h _ hk
    have hfind : Post (fun _ => True) Q (existsKey hash h k) :=
      (tame.locate hk.table k).bind fun _ _ => trivial
    apply hfind.bind
    exact fun _ _ => hk
  | existsValue i k v =>
    apply Store.post_call_all hs
    intro h _ hk
    apply (existsValue_defined tame hk).bind
    exact fun _ _ => hk
  | insert i k v =>
    apply Store.post_call_all hs
    intro h hi hk
    apply (insert_kept tame hk (hkeys hi) (hvalues hi)).bind
    exact fun _ hr => hr
  | insertArray i k vs =>
    apply Store.post_call_all hs
    intro h hi hk
    apply (insertArray_kept tame hk (hkeys hi) hroom.array (hvalues hi)).bind
    exact fun _ hr => hr
  | set i k vs =>
    apply Store.post_call_all hs
    intro h hi hk
    apply (set_kept tame hk (hkeys hi) hroom.array).bind
    exact fun _ hr => hr
  | del i k =>
    apply Store.post_call_all hs
    intro h hi hk
    have hlt := hkeys hi
    apply (del_kept tame hk (by omega)).bind
    exact fun _ hr => hr
  | delValue i k v memory =>
    apply Store.post_call_all hs
    intro h hi hk
    have hlt := hkeys hi
    apply (delValue_kept tame hk (by omega) memory).bind
    exact fun _ hr => hr
  | rehash i =>
    apply Store.post_call_all hs
    intro h hi hk
    have hlt := hkeys hi
    have hrehash : Post (fun h' => Kept P 0 h'.values h'.table) Q (rehash hash sorter h) := by
      apply (hk.rehash_post tame (by omega)).bind
      exact fun t ht => ht.1
    apply hrehash.bind
    exact fun _ hr => hr

end Helens.Ds.HashMultimap
