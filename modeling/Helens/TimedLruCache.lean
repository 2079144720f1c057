import Helens.Lib.OrderedSet
import Helens.LruCache
import Mathlib.Data.Prod.Lex
import Mathlib.Order.WithBot

/-! `TimedLruCache`: an LRU cache whose entries have deadlines. A third container
holds the same iterators in the order of the deadlines, through a comparator that
reads the entries. -/

namespace Helens.Ds

open Lib.LinkedIndex Lib.Runs Lib.OrderedSet List LinkedList

structure Item (K V : Type) where
  key : K
  val : V
  ts : Nat

/-! ## The code -/

structure TimedLruCache (K V : Type) where
  cache : AList fun _ : K => Nat
  keys : LinkedList (Item K V)
  timed : List Nat

namespace TimedLruCache

variable {K V : Type} [LinearOrder K]

def init : TimedLruCache K V := ⟨∅, .empty, []⟩

def size (c : TimedLruCache K V) : Nat := c.cache.entries.length

/-- `ItemTimeOp`. What it says of a stale iterator is never used: `timedFind` and
`timedInsert` stop when they meet one. -/
def itemTimeOp (keys : LinkedList (Item K V)) (a b : Nat) : Bool :=
  if a = b then false
  else match keys.get? a, keys.get? b with
    | some x, some y => if x.ts ≠ y.ts then x.ts < y.ts else x.key < y.key
    | none, some _ => true
    | _, none => false

def live (keys : LinkedList (Item K V)) (its : List Nat) : Bool :=
  its.all fun it => (keys.get? it).isSome

/-- `m_timed.erase(it)`: the element that is equivalent to the iterator goes. -/
def timedErase (keys : LinkedList (Item K V)) (it : Nat) (timed : List Nat) :
    Except Undefined (List Nat) :=
  if live keys (it :: timed) then
    .ok (match find (itemTimeOp keys) it timed with
      | none => timed
      | some x => timed.erase x)
  else .error .staleIterator

def timedInsert (keys : LinkedList (Item K V)) (it : Nat) (timed : List Nat) :
    Except Undefined (List Nat) :=
  if live keys (it :: timed) then .ok (insert (itemTimeOp keys) it timed)
  else .error .staleIterator

def pruneLoop (maxSize : Nat) :
    Nat → TimedLruCache K V → Except Undefined (TimedLruCache K V × List (Item K V))
  | 0, c => if maxSize < c.size then .error .backOfEmpty else .ok (c, [])
  | n + 1, c =>
    if maxSize < c.size then
      match c.keys.popBack with
      | none => .error .backOfEmpty
      | some (back, keys) => do
        let timed ← timedErase c.keys back.1 c.timed
        let (c', pruned) ← pruneLoop maxSize n { cache := c.cache.erase back.2.key, keys, timed }
        .ok (c', back.2 :: pruned)
    else .ok (c, [])

def prune (maxSize elasticity : Nat) (c : TimedLruCache K V) :
    Except Undefined (TimedLruCache K V × List (Item K V)) :=
  if maxSize = 0 ∨ c.size < getMaxAllowedSize maxSize elasticity then .ok (c, [])
  else pruneLoop maxSize c.keys.cells.length c

/-- `expired + GetCurrentMS()`, in `uint64_t`. -/
def deadline (expired now : Nat) : Nat := (expired + now) % 2 ^ 64

def set (maxSize elasticity : Nat) (k : K) (v : V) (expired now : Nat) (c : TimedLruCache K V) :
    Except Undefined (TimedLruCache K V × List (Item K V)) :=
  match c.cache.lookup k with
  | some it => do
    let keys ← good (c.keys.splice it)
    let timed ← timedErase keys it c.timed
    let keys ← good (keys.modify it fun item => { item with val := v, ts := deadline expired now })
    let timed ← timedInsert keys it timed
    .ok ({ c with keys, timed }, [])
  | none => do
    let keys := c.keys.pushFront ⟨k, v, deadline expired now⟩
    let timed ← timedInsert keys c.keys.fresh c.timed
    prune maxSize elasticity { cache := c.cache.insert k c.keys.fresh, keys, timed }

def get (k : K) (c : TimedLruCache K V) : Except Undefined (TimedLruCache K V × Option V) :=
  match c.cache.lookup k with
  | none => .ok (c, none)
  | some it => do
    let keys ← good (c.keys.splice it)
    let item ← good (keys.get? it)
    .ok ({ c with keys }, some item.val)

def del (k : K) (c : TimedLruCache K V) : Except Undefined (TimedLruCache K V × Bool) :=
  match c.cache.lookup k with
  | none => .ok (c, false)
  | some it => do
    let timed ← timedErase c.keys it c.timed
    let keys ← good (c.keys.erase it)
    .ok ({ cache := c.cache.erase k, keys, timed }, true)

def clear (c : TimedLruCache K V) : TimedLruCache K V := ⟨∅, c.keys.clear, []⟩

def checkTimeoutLoop (t : Nat) :
    List Nat → TimedLruCache K V → Except Undefined (TimedLruCache K V × List (Item K V))
  | [], c => .ok (c, [])
  | it :: rest, c => do
    let item ← good (c.keys.get? it)
    if item.ts ≤ t then
      let keys ← good (c.keys.erase it)
      let (c', removed) ← checkTimeoutLoop t rest
        { cache := c.cache.erase item.key, keys, timed := c.timed.erase it }
      .ok (c', item :: removed)
    else .ok (c, [])

def checkTimeout (t : Nat) (c : TimedLruCache K V) :
    Except Undefined (TimedLruCache K V × List (Item K V)) :=
  checkTimeoutLoop t c.timed c

/-! ## The order of the deadlines -/

def sortKey (keys : LinkedList (Item K V)) (it : Nat) : WithBot (Nat ×ₗ K) :=
  (keys.get? it).map fun item => toLex (item.ts, item.key)

theorem itemTimeOp_iff (keys : LinkedList (Item K V)) (a b : Nat) :
    itemTimeOp keys a b = true ↔ sortKey keys a < sortKey keys b := by
  unfold itemTimeOp
  split
  · next hab => simp [hab]
  · unfold sortKey
    cases keys.get? a with
    | none =>
      cases keys.get? b with
      | none => exact ⟨nofun, fun h => absurd h (lt_irrefl _)⟩
      | some y => exact ⟨fun _ => WithBot.bot_lt_coe _, fun _ => rfl⟩
    | some x =>
      cases keys.get? b with
      | none => exact ⟨nofun, fun h => absurd h not_lt_bot⟩
      | some y =>
        refine Iff.trans ?_ (WithBot.coe_lt_coe.trans Prod.Lex.toLex_lt_toLex).symm
        by_cases hts : x.ts = y.ts
        · simp [hts]
        · simp [hts]

section Timed

variable {cache : AList fun _ : K => Nat} {keys keys' : LinkedList (Item K V)}
  {timed : List Nat} {it : Nat}

omit [LinearOrder K] in
theorem sortKey_congr (h : keys'.get? it = keys.get? it) : sortKey keys' it = sortKey keys it := by
  rw [sortKey, sortKey, h]

theorem ordered_congr (h : Ordered (itemTimeOp keys) timed)
    (heq : ∀ it ∈ timed, keys'.get? it = keys.get? it) : Ordered (itemTimeOp keys') timed := by
  refine List.Pairwise.imp_of_mem ?_ h
  intro a b ha hb hab
  rw [itemTimeOp_iff] at hab ⊢
  rw [sortKey_congr (heq a ha), sortKey_congr (heq b hb)]
  exact hab

theorem ordered_nodup (h : Ordered (itemTimeOp keys) timed) : timed.Nodup := by
  refine h.imp ?_
  rintro a b hab rfl
  rw [itemTimeOp_iff] at hab
  exact lt_irrefl _ hab

omit [LinearOrder K] in
theorem sortKey_ne (hx : keys.get? a = some x)
    (hy : keys.get? b = some y) (hkey : x.key ≠ y.key) : sortKey keys a ≠ sortKey keys b := by
  unfold sortKey
  rw [hx, hy]
  intro h
  exact hkey (congrArg (fun p : Nat ×ₗ K => (ofLex p).2) (Option.some.inj h))

end Timed

/-! ## The joint invariant -/

structure Inv (c : TimedLruCache K V) : Prop where
  indexed : Indexes Item.key c.cache c.keys
  timed : ∀ it, it ∈ c.timed ↔ (c.keys.get? it).isSome
  ordered : Ordered (itemTimeOp c.keys) c.timed

def items (c : TimedLruCache K V) : List (Item K V) := c.keys.values

section Inv

variable {c : TimedLruCache K V} {k : K} {it : Nat} {item : Item K V}

theorem Inv.size_eq (hc : c.Inv) : c.size = c.items.length := hc.indexed.length_eq

theorem Inv.lookup_none (hc : c.Inv) (hk : c.cache.lookup k = none) : k ∉ c.items.map Item.key := by
  intro hmem
  exact AList.lookup_eq_none.mp hk (hc.indexed.mem_iff.mpr hmem)

omit [LinearOrder K] in
theorem mem_items (hcell : c.keys.get? it = some item) : item ∈ c.items :=
  mem_map.mpr ⟨_, get?_eq_some_iff.mp hcell, rfl⟩

variable {keys : LinkedList (Item K V)}

theorem Inv.without (hc : c.Inv) (hcell : c.keys.get? it = some item)
    (hcells : ∀ d, d ∈ keys.cells ↔ d ∈ c.keys.cells ∧ d.1 ≠ it) :
    Inv ⟨c.cache.erase item.key, keys, c.timed.erase it⟩ := by
  have hothers : ∀ x, x ≠ it → keys.get? x = c.keys.get? x := by
    intro x hx
    refine get?_congr fun a => ?_
    rw [hcells]
    exact and_iff_left hx
  have hmem : ∀ x, x ∈ c.timed.erase it ↔ x ≠ it ∧ x ∈ c.timed := fun x =>
    (ordered_nodup hc.ordered).mem_erase_iff
  refine ⟨hc.indexed.without (get?_eq_some_iff.mp hcell) hcells, ?_, ?_⟩
  · intro x
    dsimp only
    rw [hmem x, hc.timed x]
    by_cases hx : x = it
    · subst hx
      have hgone : keys.get? x = none := by
        rw [Option.eq_none_iff_forall_ne_some]
        intro a ha
        exact ((hcells _).mp (get?_eq_some_iff.mp ha)).2 rfl
      simp [hgone]
    · simp [hx, hothers x hx]
  · refine ordered_congr (hc.ordered.sublist erase_sublist) fun x hx => ?_
    exact hothers x ((hmem x).mp hx).1

theorem inv_timedInsert {cache : AList fun _ : K => Nat} {timed : List Nat}
    (hindexed : Indexes Item.key cache keys) (hcell : keys.get? it = some item)
    (htimed : ∀ x, x ∈ timed ↔ x ≠ it ∧ (keys.get? x).isSome)
    (hordered : Ordered (itemTimeOp keys) timed) :
    ∃ timed', timedInsert keys it timed = .ok timed' ∧ Inv ⟨cache, keys, timed'⟩ := by
  have hlive : TimedLruCache.live keys (it :: timed) = true := by
    refine all_eq_true.mpr fun x hx => ?_
    rcases mem_cons.mp hx with rfl | hx
    · simp [hcell]
    · exact ((htimed x).mp hx).2
  have hfree : ∀ x ∈ timed, sortKey keys x ≠ sortKey keys it := by
    intro x hx
    obtain ⟨hne, hsome⟩ := (htimed x).mp hx
    obtain ⟨y, hy⟩ := Option.isSome_iff_exists.mp hsome
    refine sortKey_ne hy hcell fun hkey => hne ?_
    exact hindexed.name_eq (get?_eq_some_iff.mp hy)
      (get?_eq_some_iff.mp hcell) hkey
  refine ⟨_, if_pos hlive, hindexed, fun x => ?_, hordered.insert (itemTimeOp_iff keys) _⟩
  dsimp only
  rw [mem_insert (itemTimeOp_iff keys) hfree, htimed x]
  by_cases hx : x = it
  · subst hx
    simp [hcell]
  · simp [hx]

theorem timedErase_eq (hc : c.Inv)
    (heq : ∀ x, keys.get? x = c.keys.get? x) (hcell : c.keys.get? it = some item) :
    timedErase keys it c.timed = .ok (c.timed.erase it) := by
  have hmem : it ∈ c.timed := by
    rw [hc.timed it, hcell]
    rfl
  have hlive : TimedLruCache.live keys (it :: c.timed) = true := by
    refine all_eq_true.mpr fun x hx => ?_
    rw [heq x]
    rcases mem_cons.mp hx with rfl | hx
    · exact (hc.timed x).mp hmem
    · exact (hc.timed x).mp hx
  have hordered : Ordered (itemTimeOp keys) c.timed := ordered_congr hc.ordered fun x _ => heq x
  unfold timedErase
  rw [if_pos hlive, hordered.find_mem (itemTimeOp_iff keys) hmem]

/-! ## The operations -/

theorem Inv.popBack (hc : c.Inv)
    (hcells : c.keys.cells = keys.cells ++ [back]) :
    timedErase c.keys back.1 c.timed = .ok (c.timed.erase back.1) ∧
      Inv ⟨c.cache.erase back.2.key, keys, c.timed.erase back.1⟩ := by
  have hcell : c.keys.get? back.1 = some back.2 := by
    rw [get?_eq_some_iff, hcells]
    exact mem_append_right _ (mem_singleton_self _)
  exact ⟨timedErase_eq hc (fun _ => rfl) hcell, hc.without hcell (mem_popBack hcells)⟩

theorem pruneLoop_post (maxSize) (c : TimedLruCache K V) (hc : c.Inv) :
    Post (fun r => r.1.Inv ∧
      (r.1.items, r.2) = (c.items.take maxSize, (c.items.drop maxSize).reverse))
      Never (pruneLoop maxSize c.keys.cells.length c) := by
  refine prune_rule ?_ ?_ _ c hc (length_map _)
  · intro n c hc hsize
    rw [← show c.size = c.items.length from hc.size_eq] at hsize
    cases n <;> exact if_neg (Nat.not_lt.mpr hsize)
  · intro n c hc hlen hmax
    have hn : c.keys.cells.length = n + 1 := (length_map _).symm.trans hlen
    obtain ⟨back, keys, hpop, hcells, hvalues, -⟩ := popBack_eq hn
    obtain ⟨herase, hback⟩ := hc.popBack hcells
    refine ⟨⟨c.cache.erase back.2.key, keys, c.timed.erase back.1⟩, back.2, hback, hvalues, ?_⟩
    rw [pruneLoop, if_pos (by rw [hc.size_eq, hlen]; omega), hpop]
    dsimp only
    rw [herase]
    rfl

theorem prune_post (maxSize elasticity) (hc : c.Inv) :
    Post (fun r => r.1.Inv ∧ (r.1.items, r.2) = pruned maxSize elasticity c.items)
      Never (prune maxSize elasticity c) := by
  unfold prune pruned
  rw [← hc.size_eq]
  split
  · exact ⟨hc, rfl⟩
  · exact pruneLoop_post maxSize c hc

theorem Inv.splice (hc : c.Inv) (hcell : c.keys.get? it = some item)
    (hcells : keys.cells = (it, item) :: (c.keys.remove it).cells) :
    (∀ x, keys.get? x = c.keys.get? x) ∧ Inv ⟨c.cache, keys, c.timed⟩ := by
  have hin := get?_eq_some_iff.mp hcell
  have heq : ∀ x, keys.get? x = c.keys.get? x := by
    intro x
    refine get?_congr fun a => ?_
    rw [hcells, mem_cons, mem_remove, Prod.mk.injEq]
    constructor
    · rintro (⟨rfl, rfl⟩ | ⟨ha, -⟩)
      · exact hin
      · exact ha
    · intro ha
      by_cases hx : x = it
      · subst hx
        exact .inl ⟨rfl, cell_unique ha hin⟩
      · exact .inr ⟨ha, hx⟩
  refine ⟨heq, hc.indexed.splice hin rfl hcells, fun x => ?_, ?_⟩
  · dsimp only
    rw [heq x]
    exact hc.timed x
  · exact ordered_congr hc.ordered fun x _ => heq x

theorem Inv.overwrite {f : Item K V → Item K V} (hc : c.Inv) (hcell : c.keys.get? it = some item)
    (hf : (f item).key = item.key) :
    ∃ front keys timed, c.keys.splice it = some front ∧
      timedErase front it c.timed = .ok (c.timed.erase it) ∧ front.modify it f = some keys ∧
      timedInsert keys it (c.timed.erase it) = .ok timed ∧ Inv ⟨c.cache, keys, timed⟩ ∧
      keys.values = use Item.key (f item) c.items := by
  have hin := get?_eq_some_iff.mp hcell
  obtain ⟨front, hfront, hcells⟩ := splice_eq hcell
  obtain ⟨heq, hinv⟩ := hc.splice hcell hcells
  have hcell' : front.get? it = some item := by
    rw [heq, hcell]
  obtain ⟨keys, hkeys, hwritten⟩ := modify_eq f hcell'
  have hkeys_cells : keys.cells = (it, f item) :: (c.keys.remove it).cells := by
    rw [hwritten, hcells, map_cons, if_pos rfl]
    refine congrArg _ ((map_congr_left fun d hd => ?_).trans (map_id _))
    exact if_neg (mem_remove.mp hd).2
  have hothers : ∀ x, x ≠ it → keys.get? x = c.keys.get? x := by
    intro x hx
    refine get?_congr fun a => ?_
    simp [hkeys_cells, mem_remove, hx]
  have hnew : keys.get? it = some (f item) := by
    rw [get?_eq_some_iff, hkeys_cells]
    exact mem_cons_self
  have hmem : ∀ x, x ∈ c.timed.erase it ↔ x ≠ it ∧ x ∈ c.timed := fun x =>
    (ordered_nodup hc.ordered).mem_erase_iff
  have htimed : ∀ x, x ∈ c.timed.erase it ↔ x ≠ it ∧ (keys.get? x).isSome := by
    intro x
    rw [hmem x, hc.timed x]
    refine and_congr_right fun hx => ?_
    rw [hothers x hx]
  have hordered : Ordered (itemTimeOp keys) (c.timed.erase it) :=
    ordered_congr (hc.ordered.sublist erase_sublist) fun x hx =>
      hothers x ((hmem x).mp hx).1
  obtain ⟨timed, hinsert, hinv'⟩ :=
    inv_timedInsert (hc.indexed.splice hin hf hkeys_cells) hnew htimed hordered
  refine ⟨front, keys, timed, hfront, timedErase_eq hc heq hcell, hkeys, hinsert, hinv', ?_⟩
  simp only [values, hkeys_cells, map_cons, use, hf]
  exact congrArg _ (hc.indexed.values_remove hin)

theorem Inv.pushFront (item : Item K V) (hc : c.Inv) (hk : c.cache.lookup item.key = none) :
    ∃ timed, timedInsert (c.keys.pushFront item) c.keys.fresh c.timed = .ok timed ∧
      Inv ⟨c.cache.insert item.key c.keys.fresh, c.keys.pushFront item, timed⟩ := by
  have hfresh : c.keys.get? c.keys.fresh = none := by
    rw [Option.eq_none_iff_forall_ne_some]
    intro a ha
    exact absurd (c.keys.old _ (get?_eq_some_iff.mp ha)) (lt_irrefl _)
  have hothers : ∀ x, x ≠ c.keys.fresh → (c.keys.pushFront item).get? x = c.keys.get? x := by
    intro x hx
    refine get?_congr fun a => ?_
    simp [LinkedList.pushFront, hx]
  have hne : ∀ x ∈ c.timed, x ≠ c.keys.fresh := by
    rintro x hx rfl
    rw [hc.timed, hfresh] at hx
    cases hx
  refine inv_timedInsert (hc.indexed.pushFront hk)
    (get?_eq_some_iff.mpr mem_cons_self) (fun x => ?_) ?_
  · by_cases hx : x = c.keys.fresh
    · subst hx
      simp [hc.timed, hfresh]
    · rw [hothers x hx, hc.timed x]
      exact (and_iff_right hx).symm
  · exact ordered_congr hc.ordered fun x hx => hothers x (hne x hx)

theorem set_post (maxSize elasticity k v expired now) (hc : c.Inv) :
    Post (fun r => r.1.Inv ∧ (r.1.items, r.2) =
        setItem Item.key maxSize elasticity ⟨k, v, deadline expired now⟩ c.items)
      Never (set maxSize elasticity k v expired now c) := by
  unfold set
  split
  · next it hk =>
    obtain ⟨item, hcell, rfl⟩ := hc.indexed.get? hk
    obtain ⟨front, keys, timed, hfront, herase, hkeys, hinsert, hinv, hvalues⟩ :=
      hc.overwrite (f := fun i => { i with val := v, ts := deadline expired now }) hcell rfl
    have hpresent : item.key ∈ c.items.map Item.key := mem_map_of_mem (mem_items hcell)
    have hset : setItem Item.key maxSize elasticity ⟨item.key, v, deadline expired now⟩ c.items =
        (use Item.key ⟨item.key, v, deadline expired now⟩ c.items, []) := setItem_of_mem hpresent
    rw [hset]
    refine post_good_bind hfront ?_
    rw [herase]
    refine post_good_bind hkeys ?_
    rw [hinsert]
    exact ⟨hinv, congrArg (·, []) hvalues⟩
  · next hk =>
    obtain ⟨timed, hinsert, hinv⟩ := hc.pushFront ⟨k, v, deadline expired now⟩ hk
    rw [setItem_of_notMem (hc.lookup_none hk)]
    dsimp only
    rw [hinsert]
    exact prune_post maxSize elasticity hinv

theorem get_post (k) (hc : c.Inv) : Post (fun r => r.1.Inv ∧
      ((k ∉ c.items.map Item.key ∧ r.1.items = c.items ∧ r.2 = none) ∨
       ∃ item ∈ c.items, item.key = k ∧ r.1.items = use Item.key item c.items ∧
         r.2 = some item.val))
      Never (get k c) := by
  unfold get
  split
  · next hk => exact ⟨hc, .inl ⟨hc.lookup_none hk, rfl, rfl⟩⟩
  · next it hk =>
    obtain ⟨item, hcell, hkey⟩ := hc.indexed.get? hk
    obtain ⟨keys, hkeys, hcells⟩ := splice_eq hcell
    obtain ⟨heq, hinv⟩ := hc.splice hcell hcells
    have hfront : keys.get? it = some item := by
      rw [heq, hcell]
    refine post_good_bind hkeys (post_good_bind hfront ?_)
    refine ⟨hinv, .inr ⟨item, mem_items hcell, hkey, ?_, rfl⟩⟩
    simp only [items, values, hcells, map_cons, use]
    exact congrArg _ (hc.indexed.values_remove (get?_eq_some_iff.mp hcell))

theorem del_post (k) (hc : c.Inv) :
    Post (fun r => r.1.Inv ∧ r.1.items = c.items.filter (·.key != k)) Never (del k c) := by
  unfold del
  split
  · next hk =>
    refine ⟨hc, (filter_eq_self.mpr fun item hitem => ?_).symm⟩
    rw [bne_iff_ne]
    rintro rfl
    exact hc.lookup_none hk (mem_map_of_mem hitem)
  · next it hk =>
    obtain ⟨item, hcell, rfl⟩ := hc.indexed.get? hk
    rw [timedErase_eq hc (fun _ => rfl) hcell]
    refine post_good_bind (erase_eq hcell) ?_
    refine ⟨hc.without hcell fun _ => mem_remove, ?_⟩
    exact hc.indexed.values_remove (get?_eq_some_iff.mp hcell)

theorem clear_inv (c : TimedLruCache K V) : c.clear.Inv := by
  refine ⟨indexes_nil rfl, fun it => ?_, List.Pairwise.nil⟩
  simp [clear, LinkedList.get?, LinkedList.clear]

/-! ## Timeouts -/

theorem Inv.exists_timed (hc : c.Inv) (hitem : item ∈ c.items) :
    ∃ it ∈ c.timed, c.keys.get? it = some item := by
  obtain ⟨⟨it, item⟩, hcell, rfl⟩ := mem_map.mp hitem
  have hget := get?_eq_some_iff.mpr hcell
  refine ⟨it, ?_, hget⟩
  rw [hc.timed it, hget]
  rfl

theorem Inv.head_le (hc : c.Inv) (htimed : c.timed = it :: rest)
    (hcell : c.keys.get? it = some item) (hb : b ∈ c.items) : item.ts ≤ b.ts := by
  obtain ⟨x, hx, hget⟩ := hc.exists_timed hb
  have hordered := hc.ordered
  rw [htimed] at hx hordered
  rcases mem_cons.mp hx with rfl | hx
  · obtain rfl := Option.some.inj (hcell.symm.trans hget)
    exact le_refl _
  · have hlt := (pairwise_cons.mp hordered).1 x hx
    rw [itemTimeOp_iff, sortKey, sortKey, hcell, hget] at hlt
    rcases Prod.Lex.toLex_lt_toLex.mp (WithBot.coe_lt_coe.mp hlt) with hlt | ⟨heq, -⟩
    · exact hlt.le
    · exact heq.le

def TimedOut (t : Nat) (items : List (Item K V)) (left removed : List (Item K V)) : Prop :=
  left = items.filter (fun item => decide (t < item.ts)) ∧
    (∀ item, item ∈ removed ↔ item ∈ items ∧ item.ts ≤ t) ∧ removed.Nodup

omit [LinearOrder K] in
theorem timedOut_none {t : Nat} {items : List (Item K V)} (h : ∀ item ∈ items, t < item.ts) :
    TimedOut t items items [] := by
  refine ⟨?_, fun item => ?_, nodup_nil⟩
  · exact (filter_eq_self.mpr fun item hitem => decide_eq_true (h item hitem)).symm
  · refine ⟨nofun, ?_⟩
    rintro ⟨hitem, hle⟩
    exact absurd (h item hitem) (not_lt.mpr hle)

theorem TimedOut.cons {t : Nat} {items left removed : List (Item K V)}
    (hnodup : (items.map Item.key).Nodup) (hitem : item ∈ items) (hle : item.ts ≤ t)
    (h : TimedOut t (items.filter fun b => b.key != item.key) left removed) :
    TimedOut t items left (item :: removed) := by
  have hsame : ∀ b ∈ items, b.key = item.key → b = item := fun b hb hkey =>
    inj_on_of_nodup_map hnodup hb hitem hkey
  obtain ⟨hleft, hmem, hrest⟩ := h
  refine ⟨?_, fun b => ?_, nodup_cons.mpr ⟨?_, hrest⟩⟩
  · rw [hleft, filter_filter]
    refine filter_congr fun b hb => ?_
    rw [Bool.and_eq_left_iff_imp, decide_eq_true_iff, bne_iff_ne]
    intro hlt hkey
    rw [hsame b hb hkey] at hlt
    exact absurd hlt (not_lt.mpr hle)
  · rw [mem_cons, hmem, mem_filter, bne_iff_ne]
    constructor
    · rintro (rfl | ⟨⟨hb, -⟩, hts⟩)
      · exact ⟨hitem, hle⟩
      · exact ⟨hb, hts⟩
    · rintro ⟨hb, hts⟩
      by_cases hkey : b.key = item.key
      · exact .inl (hsame b hb hkey)
      · exact .inr ⟨⟨hb, hkey⟩, hts⟩
  · intro hin
    have hother := (mem_filter.mp ((hmem item).mp hin).1).2
    rw [bne_iff_ne] at hother
    exact hother rfl

theorem checkTimeoutLoop_post (t) : ∀ (l : List Nat) (c : TimedLruCache K V), c.Inv →
    c.timed = l → Post (fun r => r.1.Inv ∧ TimedOut t c.items r.1.items r.2)
      Never (checkTimeoutLoop t l c) := by
  intro l
  induction l with
  | nil =>
    intro c hc hl
    refine ⟨hc, timedOut_none fun item hitem => ?_⟩
    obtain ⟨it, hit, -⟩ := hc.exists_timed hitem
    rw [hl] at hit
    cases hit
  | cons it rest ih =>
    intro c hc hl
    have hsome : (c.keys.get? it).isSome := (hc.timed it).mp (by rw [hl]; exact mem_cons_self)
    obtain ⟨item, hcell⟩ := Option.isSome_iff_exists.mp hsome
    refine post_good_bind hcell ?_
    split
    · next hle =>
      have hinv := hc.without hcell fun _ => mem_remove
      have hrest : c.timed.erase it = rest := by
        rw [hl, erase_cons_head]
      refine post_good_bind (erase_eq hcell) ?_
      refine (ih _ hinv hrest).bind ?_
      rintro ⟨c', removed⟩ ⟨hc', hout⟩
      refine ⟨hc', TimedOut.cons hc.indexed.nodup (mem_items hcell) hle ?_⟩
      have hvalues := hc.indexed.values_remove (get?_eq_some_iff.mp hcell)
      rw [items, hvalues] at hout
      exact hout
    · next hlt =>
      refine ⟨hc, timedOut_none fun b hb => ?_⟩
      exact lt_of_lt_of_le (not_le.mp hlt) (hc.head_le hl hcell hb)

theorem checkTimeout_post (t) (hc : c.Inv) :
    Post (fun r => r.1.Inv ∧ TimedOut t c.items r.1.items r.2) Never (checkTimeout t c) :=
  checkTimeoutLoop_post t c.timed c hc rfl

end Inv

/-! ## Runs -/

structure State (K V : Type) where
  cache : TimedLruCache K V
  uses : List K

inductive Action (K V : Type)
  | set (k : K) (v : V) (expired now : Nat)
  | get (k : K)
  | del (k : K)
  | clear
  | checkTimeout (t : Nat)

def exec (maxSize elasticity : Nat) : Action K V → State K V → Except Undefined (State K V)
  | .set k v expired now, s => do
    let (cache, _) ← s.cache.set maxSize elasticity k v expired now
    .ok { cache, uses := k :: s.uses }
  | .get k, s => do
    let (cache, found) ← s.cache.get k
    .ok { cache, uses := if found.isSome then k :: s.uses else s.uses }
  | .del k, s => do
    let (cache, _) ← s.cache.del k
    .ok { s with cache }
  | .clear, s => .ok { s with cache := s.cache.clear }
  | .checkTimeout t, s => do
    let (cache, _) ← s.cache.checkTimeout t
    .ok { s with cache }

def State.Inv (s : State K V) : Prop :=
  s.cache.Inv ∧ ByRecency s.uses (s.cache.items.map Item.key)

theorem exec_inv (maxSize elasticity a) (s : State K V) (hs : s.Inv) :
    Post State.Inv Never (exec maxSize elasticity a s) := by
  obtain ⟨hc, hrec⟩ := hs
  have hsub : ∀ {items : List (Item K V)}, items.Sublist s.cache.items →
      ByRecency s.uses (items.map Item.key) := fun h => hrec.sublist (h.map _)
  cases a with
  | set k v expired now =>
    refine (set_post maxSize elasticity k v expired now hc).bind ?_
    rintro ⟨c', evicted⟩ ⟨hc', heq⟩
    have hitems : c'.items = (setItem Item.key maxSize elasticity
        ⟨k, v, deadline expired now⟩ s.cache.items).1 := congrArg Prod.fst heq
    refine ⟨hc', ?_⟩
    dsimp only
    rw [hitems]
    exact (recent_use hrec ⟨k, v, deadline expired now⟩).sublist ((setItem_sublist ..).map _)
  | get k =>
    refine (get_post k hc).bind ?_
    rintro ⟨c', found⟩ ⟨hc', ⟨-, hitems, rfl⟩ | ⟨item, hmem, rfl, hitems, rfl⟩⟩
    · refine ⟨hc', ?_⟩
      dsimp only at hitems ⊢
      rw [hitems]
      exact hrec
    · refine ⟨hc', ?_⟩
      dsimp only at hitems ⊢
      rw [hitems]
      exact recent_use hrec item
  | del k =>
    refine (del_post k hc).bind ?_
    rintro ⟨c', answer⟩ ⟨hc', hitems⟩
    refine ⟨hc', ?_⟩
    dsimp only at hitems ⊢
    rw [hitems]
    exact hsub filter_sublist
  | clear => exact ⟨clear_inv s.cache, byRecency_nil⟩
  | checkTimeout t =>
    refine (checkTimeout_post t hc).bind ?_
    rintro ⟨c', removed⟩ ⟨hc', hleft, -⟩
    refine ⟨hc', ?_⟩
    dsimp only at hleft ⊢
    rw [hleft]
    exact hsub filter_sublist

/-- What the three containers promise together, in a state that a run led to. -/
structure Joint (maxSize elasticity : Nat) (s : State K V) : Prop where
  indexed : ∀ k it, s.cache.cache.lookup k = some it ↔
    ∃ item, s.cache.keys.get? it = some item ∧ item.key = k
  timed : ∀ it, it ∈ s.cache.timed ↔ (s.cache.keys.get? it).isSome
  timed_nodup : s.cache.timed.Nodup
  ordered : s.cache.timed.Pairwise fun a b => ∀ x y, s.cache.keys.get? a = some x →
    s.cache.keys.get? b = some y → x.ts < y.ts ∨ x.ts = y.ts ∧ x.key < y.key
  timeout : ∀ t, Post (fun r => TimedOut t s.cache.items r.1.items r.2) (fun _ => False)
    (s.cache.checkTimeout t)
  /-- The list is in the order of the last uses, and pruning cuts it off. -/
  recent : ByRecency s.uses (s.cache.items.map Item.key)
  pruning : ∀ k v expired now, Post (fun r =>
      (r.1.items, r.2) =
        setItem Item.key maxSize elasticity ⟨k, v, deadline expired now⟩ s.cache.items ∧
      ∀ e ∈ r.2, ∀ b ∈ r.1.items,
        (k :: s.uses).idxOf b.key < (k :: s.uses).idxOf e.key)
    (fun _ => False) (s.cache.set maxSize elasticity k v expired now)

theorem State.Inv.joint (maxSize elasticity : Nat) {s : State K V} (hs : s.Inv) :
    Joint maxSize elasticity s := by
  obtain ⟨hc, hrec⟩ := hs
  refine ⟨fun k it => ?_, hc.timed, ordered_nodup hc.ordered, ?_, fun t => ?_, hrec, ?_⟩
  · simp only [hc.indexed k it, get?_eq_some_iff]
  · refine hc.ordered.imp ?_
    intro a b hab x y hx hy
    rw [itemTimeOp_iff, sortKey, sortKey, hx, hy] at hab
    exact Prod.Lex.toLex_lt_toLex.mp (WithBot.coe_lt_coe.mp hab)
  · exact (checkTimeout_post t hc).imp (fun r hr => hr.2)
  · intro k v expired now
    apply (set_post maxSize elasticity k v expired now hc).imp
    rintro ⟨c', evicted⟩ ⟨-, heq⟩
    refine ⟨heq, ?_⟩
    intro e he b hb
    have hkept := congrArg Prod.fst heq
    have hgone := congrArg Prod.snd heq
    dsimp only at hkept hgone he hb
    rw [hkept] at hb
    rw [hgone] at he
    exact older_of_setItem hrec hb he

/-- In every run of a `TimedLruCache` the three containers stay together. -/
theorem runs_stay_joint (maxSize elasticity : Nat) (as : List (Action K V)) :
    Post (Joint maxSize elasticity) (fun _ => False)
      (run (exec maxSize elasticity) as ⟨init, []⟩) := by
  have hinit : State.Inv (⟨init, []⟩ : State K V) :=
    ⟨clear_inv init, byRecency_nil⟩
  have hrun : Post State.Inv (fun _ => False)
      (run (exec maxSize elasticity) as (⟨init, []⟩ : State K V)) :=
    post_run_all (fun s a hs => exec_inv maxSize elasticity a s hs) as _ hinit
  exact hrun.imp (fun s hs => hs.joint maxSize elasticity)

end TimedLruCache
end Helens.Ds
