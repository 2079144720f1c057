import Helens.Lib.LinkedIndex
import Helens.Lib.Runs
import Mathlib.Order.MinMax

/-! `LruCache`: a list of entries, the most recently used first, and an index of
iterators into it. The operations are compared with those of the plain list of
entries, and the runs with the history of uses. -/

namespace Helens.Ds

open Lib.LinkedIndex Lib.Runs List LinkedList

inductive Undefined
  | staleIterator
  | backOfEmpty
  deriving DecidableEq

def good {α : Type} : Option α → Except Undefined α
  | some a => .ok a
  | none => .error .staleIterator

theorem post_good_bind {α β : Type} {P : β → Prop} {Q : Undefined → Prop} {o : Option α} {a : α}
    {f : α → Except Undefined β} (ho : o = some a) (hf : Post P Q (f a)) :
    Post P Q (good o >>= f) := by
  rw [ho]
  exact hf

/-- `m_maxSize + m_elasticity`, in `size_t`. -/
def getMaxAllowedSize (maxSize elasticity : Nat) : Nat := (maxSize + elasticity) % 2 ^ 64

/-! ## The code -/

/-- `m_cache` and `m_keys`. The callback `m_cb` is left out: the operations return
what it is called with, in that order. -/
structure LruCache (K V : Type) where
  cache : AList fun _ : K => Nat
  keys : LinkedList (K × V)

namespace LruCache

variable {K V : Type} [DecidableEq K]

def init : LruCache K V := ⟨∅, .empty⟩

def size (c : LruCache K V) : Nat := c.cache.entries.length

/-- The loop of `prune`. Every round takes a cell off the list, so `n` is the number
of cells that are left. -/
def pruneLoop (maxSize : Nat) :
    Nat → LruCache K V → Except Undefined (LruCache K V × List (K × V))
  | 0, c => if maxSize < c.size then .error .backOfEmpty else .ok (c, [])
  | n + 1, c =>
    if maxSize < c.size then
      match c.keys.popBack with
      | none => .error .backOfEmpty
      | some (back, keys) => do
        let (c', pruned) ← pruneLoop maxSize n { cache := c.cache.erase back.2.1, keys }
        .ok (c', back.2 :: pruned)
    else .ok (c, [])

def prune (maxSize elasticity : Nat) (c : LruCache K V) :
    Except Undefined (LruCache K V × List (K × V)) :=
  if maxSize = 0 ∨ c.size < getMaxAllowedSize maxSize elasticity then .ok (c, [])
  else pruneLoop maxSize c.keys.cells.length c

def set (maxSize elasticity : Nat) (k : K) (v : V) (c : LruCache K V) :
    Except Undefined (LruCache K V × List (K × V)) :=
  match c.cache.lookup k with
  | some it => do
    let written ← good (c.keys.modify it fun item => (item.1, v))
    let keys ← good (written.splice it)
    .ok ({ c with keys }, [])
  | none =>
    prune maxSize elasticity
      { cache := c.cache.insert k c.keys.fresh, keys := c.keys.pushFront (k, v) }

def get (k : K) (c : LruCache K V) : Except Undefined (LruCache K V × Option V) :=
  match c.cache.lookup k with
  | none => .ok (c, none)
  | some it => do
    let keys ← good (c.keys.splice it)
    let item ← good (keys.get? it)
    .ok ({ c with keys }, some item.2)

def del (k : K) (c : LruCache K V) : Except Undefined (LruCache K V × Bool) :=
  match c.cache.lookup k with
  | none => .ok (c, false)
  | some it => do
    let keys ← good (c.keys.erase it)
    .ok ({ cache := c.cache.erase k, keys }, true)

def existsKey (k : K) (c : LruCache K V) : Bool := (c.cache.lookup k).isSome

def clear (c : LruCache K V) : LruCache K V := ⟨∅, c.keys.clear⟩

end LruCache

/-! ## The list of entries -/

/-- What pruning keeps of a list of entries, and what it takes away, in this order. -/
def pruned {α : Type} (maxSize elasticity : Nat) (items : List α) : List α × List α :=
  if maxSize = 0 ∨ items.length < getMaxAllowedSize maxSize elasticity then (items, [])
  else (items.take maxSize, (items.drop maxSize).reverse)

/-- Setting an entry of a list: one with a new key may push others out. -/
def setItem {α K : Type} [DecidableEq K] (key : α → K) (maxSize elasticity : Nat) (a : α)
    (items : List α) : List α × List α :=
  if key a ∈ items.map key then (use key a items, [])
  else pruned maxSize elasticity (use key a items)

section Lists

variable {α K : Type} [DecidableEq K] {key : α → K} {maxSize elasticity : Nat} {a : α}
  {items : List α}

theorem take_drop_of_le (h : items.length ≤ n) :
    (items.take n, (items.drop n).reverse) = (items, []) := by
  rw [take_of_length_le h, drop_of_length_le h, reverse_nil]

theorem take_drop_concat (h : n ≤ items.length) :
    ((items ++ [a]).take n, ((items ++ [a]).drop n).reverse) =
      (items.take n, a :: (items.drop n).reverse) := by
  rw [take_append_of_le_length h, drop_append_of_le_length h, reverse_append]
  rfl

/-- A loop that cuts off last entries while there are more than `maxSize`: by induction on their
number, the last one goes and the rest is cut. -/
theorem prune_rule {σ ε : Type} {I : σ → Prop} {items : σ → List α}
    {loop : Nat → σ → Except ε (σ × List α)}
    (stop : ∀ n c, I c → (items c).length ≤ maxSize → loop n c = .ok (c, []))
    (step : ∀ n c, I c → (items c).length = n + 1 → maxSize ≤ n → ∃ c' back, I c' ∧
      items c = items c' ++ [back] ∧
      loop (n + 1) c = loop n c' >>= fun r => .ok (r.1, back :: r.2))
    (n c) (hc : I c) (hn : (items c).length = n) :
    Post (fun r => I r.1 ∧
      (items r.1, r.2) = ((items c).take maxSize, ((items c).drop maxSize).reverse))
      Never (loop n c) := by
  induction n generalizing c with
  | zero =>
    have hle : (items c).length ≤ maxSize := by omega
    rw [stop 0 c hc hle]
    exact ⟨hc, (take_drop_of_le hle).symm⟩
  | succ n ih =>
    rcases Nat.lt_or_ge maxSize (items c).length with hlt | hle
    · obtain ⟨c', back, hc', hitems, hloop⟩ := step n c hc hn (by omega)
      have hlen : (items c').length = n := by
        rw [hitems, length_append, length_singleton] at hn
        omega
      rw [hloop, hitems, take_drop_concat (by omega)]
      refine (ih c' hc' hlen).bind ?_
      rintro ⟨c'', rest⟩ ⟨hc'', heq⟩
      exact ⟨hc'', congrArg (fun p => (p.1, back :: p.2)) heq⟩
    · rw [stop (n + 1) c hc hle]
      exact ⟨hc, (take_drop_of_le hle).symm⟩

theorem pruned_append (maxSize elasticity : Nat) (items : List α) :
    (pruned maxSize elasticity items).1 ++ (pruned maxSize elasticity items).2.reverse = items := by
  unfold pruned
  split
  · simp
  · simp

theorem length_pruned (hmax : 0 < maxSize) :
    (pruned maxSize elasticity items).1.length ≤ max maxSize (maxSize + elasticity - 1) := by
  unfold pruned
  split
  · next h =>
    have hlt : items.length < maxSize + elasticity :=
      lt_of_lt_of_le (h.resolve_left (by omega)) (Nat.mod_le _ _)
    exact le_max_of_le_right (Nat.le_sub_one_of_lt hlt)
  · exact le_max_of_le_left (length_take_le _ _)

theorem setItem_append (key : α → K) (maxSize elasticity a items) :
    (setItem key maxSize elasticity a items).1 ++
      (setItem key maxSize elasticity a items).2.reverse = use key a items := by
  unfold setItem
  split
  · simp
  · exact pruned_append ..

theorem setItem_sublist (key : α → K) (maxSize elasticity a items) :
    (setItem key maxSize elasticity a items).1.Sublist (use key a items) := by
  rw [← setItem_append key maxSize elasticity a items]
  exact sublist_append_left _ _

theorem setItem_of_mem (h : key a ∈ items.map key) :
    setItem key maxSize elasticity a items = (use key a items, []) := if_pos h

theorem setItem_of_notMem (h : key a ∉ items.map key) :
    setItem key maxSize elasticity a items = pruned maxSize elasticity (a :: items) := by
  rw [setItem, if_neg h, use_of_notMem h]

theorem length_use_of_mem (hnodup : (items.map key).Nodup) (h : key a ∈ items.map key) :
    (use key a items).length = items.length := by
  have hlen := congrArg List.length (map_use key a items)
  rw [length_map, length_cons, ← hnodup.erase_eq_filter, length_erase_of_mem h, length_map] at hlen
  have hpos := length_pos_of_mem h
  rw [length_map] at hpos
  omega

theorem length_setItem (hmax : 0 < maxSize) (hnodup : (items.map key).Nodup)
    (h : items.length ≤ max maxSize (maxSize + elasticity - 1)) :
    (setItem key maxSize elasticity a items).1.length ≤ max maxSize (maxSize + elasticity - 1) := by
  unfold setItem
  split
  · next hmem => exact (length_use_of_mem hnodup hmem).le.trans h
  · exact length_pruned hmax

theorem recent_use (h : ByRecency uses (items.map key)) (a) :
    ByRecency (key a :: uses) ((use key a items).map key) := by
  rw [map_use]
  exact h.use

theorem older_of_setItem (h : ByRecency uses (items.map key))
    (hb : b ∈ (setItem key maxSize elasticity a items).1)
    (he : e ∈ (setItem key maxSize elasticity a items).2) :
    (key a :: uses).idxOf (key b) < (key a :: uses).idxOf (key e) := by
  have horder := (recent_use h a).1
  rw [← setItem_append key maxSize elasticity a items, map_append, pairwise_append] at horder
  exact horder.2.2 _ (mem_map_of_mem hb) _
    (mem_map_of_mem (mem_reverse.mpr he))

end Lists

/-! ## The code against the list -/

namespace LruCache

variable {K V : Type} [DecidableEq K] {c : LruCache K V} {k : K} {v : V}

def Inv (c : LruCache K V) : Prop := Indexes Prod.fst c.cache c.keys

def items (c : LruCache K V) : List (K × V) := c.keys.values

def keyList (c : LruCache K V) : List K := c.items.map Prod.fst

theorem Inv.size_eq (hc : c.Inv) : c.size = c.items.length := hc.length_eq

theorem Inv.lookup_none (hc : c.Inv) (hk : c.cache.lookup k = none) : k ∉ c.keyList := by
  intro hmem
  exact AList.lookup_eq_none.mp hk (hc.mem_iff.mpr hmem)

theorem Inv.lookup_some (hc : c.Inv) (hk : c.cache.lookup k = some it) :
    ∃ v, c.keys.get? it = some (k, v) ∧ (k, v) ∈ c.items := by
  obtain ⟨⟨k', v⟩, hcell, rfl⟩ := hc.get? hk
  exact ⟨v, hcell, mem_map.mpr ⟨_, get?_eq_some_iff.mp hcell, rfl⟩⟩

theorem pruneLoop_post (maxSize) (c : LruCache K V) (hc : c.Inv) : Post (fun r => r.1.Inv ∧
      (r.1.items, r.2) = (c.items.take maxSize, (c.items.drop maxSize).reverse))
      Never (pruneLoop maxSize c.keys.cells.length c) := by
  refine prune_rule ?_ ?_ _ c hc (length_map _)
  · intro n c hc hsize
    rw [← show c.size = c.items.length from hc.size_eq] at hsize
    cases n <;> exact if_neg (Nat.not_lt.mpr hsize)
  · intro n c hc hlen hmax
    have hn : c.keys.cells.length = n + 1 := (length_map _).symm.trans hlen
    obtain ⟨back, keys, hpop, hcells, hvalues, -⟩ := popBack_eq hn
    refine ⟨{ cache := c.cache.erase back.2.1, keys }, back.2, hc.popBack hcells, hvalues, ?_⟩
    rw [pruneLoop, if_pos (by rw [hc.size_eq, hlen]; omega), hpop]

theorem prune_post (maxSize elasticity) (hc : c.Inv) :
    Post (fun r => r.1.Inv ∧ (r.1.items, r.2) = pruned maxSize elasticity c.items)
      Never (prune maxSize elasticity c) := by
  unfold prune pruned
  rw [← hc.size_eq]
  split
  · exact ⟨hc, rfl⟩
  · exact pruneLoop_post maxSize c hc

theorem set_post (maxSize elasticity k v) (hc : c.Inv) :
    Post (fun r => r.1.Inv ∧ (r.1.items, r.2) = setItem Prod.fst maxSize elasticity (k, v) c.items)
      Never (set maxSize elasticity k v c) := by
  unfold set
  split
  · next it hk =>
    obtain ⟨w, hcell, hmem⟩ := hc.lookup_some hk
    have hin := get?_eq_some_iff.mp hcell
    obtain ⟨written, keys, hwritten, -, hkeys, hcells⟩ :=
      modify_splice_eq (fun item => (item.1, v)) hcell
    have hpresent : (k, v).1 ∈ c.items.map Prod.fst := mem_map.mpr ⟨_, hmem, rfl⟩
    rw [setItem_of_mem hpresent]
    refine post_good_bind hwritten (post_good_bind hkeys ?_)
    refine ⟨hc.splice (b := (k, v)) hin rfl hcells, congrArg (·, []) ?_⟩
    simp only [items, values, hcells, map_cons, use]
    exact congrArg _ (hc.values_remove hin)
  · next hk =>
    rw [setItem_of_notMem (hc.lookup_none hk)]
    exact prune_post maxSize elasticity (hc.pushFront (a := (k, v)) hk)

theorem get_post (k) (hc : c.Inv) : Post (fun r => r.1.Inv ∧
      ((k ∉ c.keyList ∧ r.1.items = c.items ∧ r.2 = none) ∨
       ∃ v, (k, v) ∈ c.items ∧ r.1.items = use Prod.fst (k, v) c.items ∧ r.2 = some v))
      Never (get k c) := by
  unfold get
  split
  · next hk => exact ⟨hc, .inl ⟨hc.lookup_none hk, rfl, rfl⟩⟩
  · next it hk =>
    obtain ⟨v, hcell, hmem⟩ := hc.lookup_some hk
    have hin := get?_eq_some_iff.mp hcell
    obtain ⟨keys, hkeys, hcells⟩ := splice_eq hcell
    have hfront : keys.get? it = some (k, v) := by
      rw [get?_eq_some_iff, hcells]
      exact mem_cons_self
    refine post_good_bind hkeys (post_good_bind hfront ?_)
    refine ⟨hc.splice hin rfl hcells, .inr ⟨v, hmem, ?_, rfl⟩⟩
    simp only [items, values, hcells, map_cons, use]
    exact congrArg _ (hc.values_remove hin)

theorem del_post (k) (hc : c.Inv) :
    Post (fun r => r.1.Inv ∧ r.1.items = c.items.filter (·.1 != k) ∧ r.2 = decide (k ∈ c.keyList))
      Never (del k c) := by
  unfold del
  split
  · next hk =>
    have hnot := hc.lookup_none hk
    refine ⟨hc, ?_, by simp [hnot]⟩
    refine (filter_eq_self.mpr fun item hitem => ?_).symm
    rw [bne_iff_ne]
    rintro rfl
    exact hnot (mem_map_of_mem hitem)
  · next it hk =>
    obtain ⟨v, hcell, hmem⟩ := hc.lookup_some hk
    have hin := get?_eq_some_iff.mp hcell
    refine post_good_bind (erase_eq hcell) ?_
    refine ⟨hc.remove hin, hc.values_remove hin, ?_⟩
    exact (decide_eq_true (mem_map_of_mem hmem)).symm

theorem existsKey_eq (k) (hc : c.Inv) : c.existsKey k = decide (k ∈ c.keyList) := by
  rw [existsKey, Bool.eq_iff_iff, AList.lookup_isSome, decide_eq_true_iff]
  exact hc.mem_iff

theorem clear_inv (c : LruCache K V) : c.clear.Inv := indexes_nil rfl

/-! ## Runs -/

inductive Event (K V : Type)
  | set (k : K) (v : V)
  | hit (k : K)

def Event.key : Event K V → K
  | .set k _ => k
  | .hit k => k

def uses (log : List (Event K V)) : List K := log.map Event.key

def lastSet (k : K) : List (Event K V) → Option V
  | [] => none
  | .set k' v :: log => if k' = k then some v else lastSet k log
  | .hit _ :: log => lastSet k log

structure State (K V : Type) where
  cache : LruCache K V
  log : List (Event K V)

inductive Action (K V : Type)
  | set (k : K) (v : V)
  | get (k : K)
  | del (k : K)
  | existsKey (k : K)
  | clear

def exec (maxSize elasticity : Nat) : Action K V → State K V → Except Undefined (State K V)
  | .set k v, s => do
    let (cache, _) ← s.cache.set maxSize elasticity k v
    .ok { cache, log := .set k v :: s.log }
  | .get k, s => do
    let (cache, found) ← s.cache.get k
    .ok { cache, log := if found.isSome then .hit k :: s.log else s.log }
  | .del k, s => do
    let (cache, _) ← s.cache.del k
    .ok { s with cache }
  | .existsKey _, s => .ok s
  | .clear, s => .ok { s with cache := s.cache.clear }

structure Recorded (maxSize elasticity : Nat) (log : List (Event K V))
    (items : List (K × V)) : Prop where
  recent : ByRecency (uses log) (items.map Prod.fst)
  valued : ∀ item ∈ items, lastSet item.1 log = some item.2
  bounded : items.length ≤ max maxSize (maxSize + elasticity - 1)

section Recorded

variable {maxSize elasticity : Nat} {log : List (Event K V)} {items items' : List (K × V)}

theorem Recorded.sublist (h : Recorded maxSize elasticity log items)
    (hsub : items'.Sublist items) : Recorded maxSize elasticity log items' where
  recent := h.recent.sublist (hsub.map _)
  valued := fun item hitem => h.valued item (hsub.subset hitem)
  bounded := hsub.length_le.trans h.bounded

theorem Recorded.set (hmax : 0 < maxSize) (hnodup : (items.map Prod.fst).Nodup)
    (h : Recorded maxSize elasticity log items) :
    Recorded maxSize elasticity (.set k v :: log)
      (setItem Prod.fst maxSize elasticity (k, v) items).1 where
  recent := by
    refine (recent_use h.recent (k, v)).sublist ?_
    exact (setItem_sublist Prod.fst maxSize elasticity (k, v) items).map _
  valued := by
    intro item hitem
    have hmem := (setItem_sublist Prod.fst maxSize elasticity (k, v) items).subset hitem
    unfold lastSet
    rcases mem_cons.mp hmem with rfl | hother
    · exact if_pos rfl
    · obtain ⟨hold, hne⟩ := mem_filter.mp hother
      rw [bne_iff_ne] at hne
      rw [if_neg (Ne.symm hne)]
      exact h.valued item hold
  bounded := length_setItem hmax hnodup h.bounded

theorem Recorded.hit (hnodup : (items.map Prod.fst).Nodup)
    (h : Recorded maxSize elasticity log items) (hmem : (k, v) ∈ items) :
    Recorded maxSize elasticity (.hit k :: log) (use Prod.fst (k, v) items) where
  recent := recent_use h.recent (k, v)
  valued := by
    intro item hitem
    rcases mem_cons.mp hitem with rfl | hother
    · exact h.valued (k, v) hmem
    · exact h.valued item (mem_of_mem_filter hother)
  bounded := (length_use_of_mem hnodup (mem_map.mpr ⟨_, hmem, rfl⟩)).le.trans h.bounded

end Recorded

def State.Inv (maxSize elasticity : Nat) (s : State K V) : Prop :=
  s.cache.Inv ∧ Recorded maxSize elasticity s.log s.cache.items

theorem exec_inv {maxSize elasticity : Nat} (hmax : 0 < maxSize) (a) (s : State K V)
    (hs : s.Inv maxSize elasticity) :
    Post (State.Inv maxSize elasticity) Never (exec maxSize elasticity a s) := by
  obtain ⟨hc, hrec⟩ := hs
  have hnodup : (s.cache.items.map Prod.fst).Nodup := Indexes.nodup hc
  cases a with
  | set k v =>
    refine (set_post maxSize elasticity k v hc).bind ?_
    rintro ⟨c', evicted⟩ ⟨hc', heq⟩
    have hitems : c'.items = (setItem Prod.fst maxSize elasticity (k, v) s.cache.items).1 :=
      congrArg Prod.fst heq
    refine ⟨hc', ?_⟩
    dsimp only
    rw [hitems]
    exact hrec.set hmax hnodup
  | get k =>
    refine (get_post k hc).bind ?_
    rintro ⟨c', found⟩ ⟨hc', ⟨-, hitems, rfl⟩ | ⟨v, hmem, hitems, rfl⟩⟩
    · refine ⟨hc', ?_⟩
      dsimp only at hitems ⊢
      rw [hitems]
      exact hrec
    · refine ⟨hc', ?_⟩
      dsimp only at hitems ⊢
      rw [hitems]
      exact hrec.hit hnodup hmem
  | del k =>
    refine (del_post k hc).bind ?_
    rintro ⟨c', answer⟩ ⟨hc', hitems, -⟩
    refine ⟨hc', ?_⟩
    dsimp only at hitems ⊢
    rw [hitems]
    exact hrec.sublist filter_sublist
  | existsKey k => exact ⟨hc, hrec⟩
  | clear => exact ⟨clear_inv s.cache, hrec.sublist (nil_sublist _)⟩

/-- What the cache promises of a state that its history led to. -/
structure LeastRecentlyUsed (maxSize elasticity : Nat) (s : State K V) : Prop where
  nodup : s.cache.keyList.Nodup
  indexed : ∀ k, k ∈ s.cache.cache ↔ k ∈ s.cache.keyList
  ordered : ByRecency (uses s.log) s.cache.keyList
  found : ∀ k ∈ s.cache.keyList, ∃ v, lastSet k s.log = some v ∧
    Post (fun r => r.2 = some v) (fun _ => False) (s.cache.get k)
  missed : ∀ k ∉ s.cache.keyList,
    Post (fun r => r.2 = none) (fun _ => False) (s.cache.get k)
  existing : ∀ k, s.cache.existsKey k = decide (k ∈ s.cache.keyList)
  /-- A set stores its pair in front and pushes out only keys that were used before all those
  that stay. -/
  setting : ∀ k v, Post (fun r =>
      (r.1.items, r.2) = setItem Prod.fst maxSize elasticity (k, v) s.cache.items ∧
      ∀ e ∈ r.2, ∀ k' ∈ r.1.keyList,
        (k :: uses s.log).idxOf k' < (k :: uses s.log).idxOf e.1)
    (fun _ => False) (s.cache.set maxSize elasticity k v)
  bounded : s.cache.size ≤ max maxSize (maxSize + elasticity - 1)

theorem State.Inv.leastRecentlyUsed {maxSize elasticity : Nat} {s : State K V}
    (hs : s.Inv maxSize elasticity) : LeastRecentlyUsed maxSize elasticity s := by
  obtain ⟨hc, hrec⟩ := hs
  have hnodup : s.cache.keyList.Nodup := Indexes.nodup hc
  refine ⟨hnodup, fun k => Indexes.mem_iff hc, hrec.recent, ?_, ?_, fun k => existsKey_eq k hc, ?_,
    ?_⟩
  · intro k hk
    obtain ⟨⟨k, v⟩, hmem, rfl⟩ := mem_map.mp hk
    refine ⟨v, hrec.valued _ hmem, (get_post k hc).imp ?_⟩
    rintro r ⟨-, ⟨hnot, -⟩ | ⟨w, hw, -, hr⟩⟩
    · exact absurd hk hnot
    · have hset := hrec.valued _ hmem
      have hset' := hrec.valued _ hw
      exact hr.trans (hset'.symm.trans hset)
  · intro k hk
    apply (get_post k hc).imp
    rintro r ⟨-, ⟨-, -, hr⟩ | ⟨w, hw, -⟩⟩
    · exact hr
    · exact absurd (mem_map.mpr ⟨_, hw, rfl⟩) hk
  · intro k v
    apply (set_post maxSize elasticity k v hc).imp
    rintro r ⟨-, heq⟩
    refine ⟨heq, fun e he k' hk' => ?_⟩
    obtain ⟨item, hitem, rfl⟩ := mem_map.mp hk'
    have hkept := congrArg Prod.fst heq
    have hgone := congrArg Prod.snd heq
    dsimp only at hkept hgone
    rw [hkept] at hitem
    rw [hgone] at he
    exact older_of_setItem hrec.recent hitem he
  · rw [hc.size_eq]
    exact hrec.bounded

/-- Every run of an `LruCache` of positive size keeps its order of use. -/
theorem runs_least_recently_used (maxSize elasticity : Nat) (hmax : 0 < maxSize)
    (as : List (Action K V)) :
    Post (LeastRecentlyUsed maxSize elasticity) (fun _ => False)
      (run (exec maxSize elasticity) as ⟨init, []⟩) := by
  have hinit : State.Inv maxSize elasticity (⟨init, []⟩ : State K V) := by
    refine ⟨indexes_nil rfl, ?_⟩
    exact ⟨byRecency_nil, nofun, Nat.zero_le _⟩
  have hrun : Post (State.Inv maxSize elasticity) (fun _ => False)
      (run (exec maxSize elasticity) as ⟨init, []⟩) :=
    post_run_all (fun s a hs => exec_inv hmax a s hs) as _ hinit
  exact hrun.imp (fun s hs => hs.leastRecentlyUsed)

theorem runs_least_recently_used_three : Post (LeastRecentlyUsed 2 1) (fun _ => False)
      (run (exec 2 1) [.set 1 10, .set 2 20, .get 1, .set 3 30, .get (2 : Nat)]
        (⟨init, []⟩ : State Nat Nat)) :=
  runs_least_recently_used 2 1 (by decide) _

end LruCache
end Helens.Ds
