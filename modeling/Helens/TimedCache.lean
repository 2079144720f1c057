import Helens.Lib.FiniteMap
import Helens.TimedLruCache

/-! `TimedCache`: items in a set ordered by their deadlines, and an index of iterators into
it. An overwritten item is left in the set, so the runs are compared with what was written
last under each key. -/

namespace Helens.Ds

open Lib.FiniteMap Lib.OrderedSet Lib.Runs List

/-! ## The code -/

/-- A node of `m_timed` has a name, which its iterators hold: an item that is erased and
inserted again is another node. -/
structure TimedCache (K V : Type) where
  maxSize : Nat
  elasticity : Nat
  cache : AList fun _ : K => Nat
  timed : List (Nat × Item K V)
  fresh : Nat

namespace TimedCache

variable {K V : Type} [LinearOrder K]

def init (maxSize elasticity : Nat) : TimedCache K V := ⟨maxSize, elasticity, ∅, [], 0⟩

def size (c : TimedCache K V) : Nat := c.cache.entries.length

def less (a b : Nat × Item K V) : Bool :=
  if a.2.ts ≠ b.2.ts then a.2.ts < b.2.ts else a.2.key < b.2.key

def timedInsert (item : Item K V) (c : TimedCache K V) : Nat × TimedCache K V :=
  match find less (c.fresh, item) c.timed with
  | some node => (node.1, c)
  | none => (c.fresh,
      { c with timed := insert less (c.fresh, item) c.timed, fresh := c.fresh + 1 })

def timedErase (it : Nat) (c : TimedCache K V) : TimedCache K V :=
  { c with timed := c.timed.filter fun node => node.1 ≠ it }

/-- The loop of `prune` over what is left of `m_timed`, which may be its end. -/
def pruneLoop (maxSize : Nat) : List (Nat × Item K V) → TimedCache K V →
    Except Undefined (TimedCache K V × List (Item K V))
  | [], c => if maxSize < c.size then .error .backOfEmpty else .ok (c, [])
  | node :: rest, c =>
    if maxSize < c.size then do
      let (c', pruned) ← pruneLoop maxSize rest
        { c with cache := c.cache.erase node.2.key, timed := rest }
      .ok (c', node.2 :: pruned)
    else .ok (c, [])

def prune (c : TimedCache K V) : Except Undefined (TimedCache K V × List (Item K V)) :=
  if c.maxSize = 0 ∨ c.size < getMaxAllowedSize c.maxSize c.elasticity then .ok (c, [])
  else pruneLoop c.maxSize c.timed c

def set (k : K) (v : V) (expired now : Nat) (c : TimedCache K V) :
    Except Undefined (TimedCache K V × List (Item K V)) :=
  let cache := if (c.cache.lookup k).isSome then c.cache.erase k else c.cache
  let (it, c) := timedInsert ⟨k, v, TimedLruCache.deadline expired now⟩ { c with cache }
  prune { c with cache := c.cache.insert k it }

def get (k : K) (c : TimedCache K V) : Except Undefined (Option V) :=
  match c.cache.lookup k with
  | none => .ok none
  | some it => do
    let item ← good (valueOf c.timed it)
    .ok (some item.val)

/-- A key that is there is deleted without a `return`. -/
def del (k : K) (c : TimedCache K V) : Except Undefined (TimedCache K V × Option Bool) :=
  match c.cache.lookup k with
  | none => .ok (c, some false)
  | some it => do
    let _ ← good (valueOf c.timed it)
    .ok ({ timedErase it c with cache := c.cache.erase k }, none)

/-- The item is inserted again with the deadline that it had. -/
def expired (k : K) (ts now : Nat) (c : TimedCache K V) :
    Except Undefined (TimedCache K V × Bool) :=
  match c.cache.lookup k with
  | none => .ok (c, false)
  | some it => do
    let item ← good (valueOf c.timed it)
    if item.ts = TimedLruCache.deadline ts now then .ok (c, true)
    else
      let (it', c) := timedInsert item (timedErase it c)
      .ok ({ c with cache := c.cache.insert k it' }, true)

def clear (c : TimedCache K V) : TimedCache K V := { c with cache := ∅, timed := [] }

def checkTimeoutLoop (t : Nat) :
    List (Nat × Item K V) → TimedCache K V → TimedCache K V × List (Item K V)
  | [], c => (c, [])
  | node :: rest, c =>
    if node.2.ts ≤ t then
      let (c', removed) := checkTimeoutLoop t rest
        { c with cache := c.cache.erase node.2.key, timed := rest }
      (c', node.2 :: removed)
    else (c, [])

def checkTimeout (t : Nat) (c : TimedCache K V) : TimedCache K V × List (Item K V) :=
  checkTimeoutLoop t c.timed c

/-! ## The index and the set -/

def sortKey (node : Nat × Item K V) : Nat ×ₗ K := toLex (node.2.ts, node.2.key)

theorem less_iff (a b : Nat × Item K V) : less a b = true ↔ sortKey a < sortKey b := by
  refine Iff.trans ?_ Prod.Lex.toLex_lt_toLex.symm
  unfold less
  by_cases hts : a.2.ts = b.2.ts
  · simp [hts]
  · simp [hts]

theorem ts_le_of_less {a b : Nat × Item K V} (h : less a b = true) : a.2.ts ≤ b.2.ts := by
  unfold less at h
  split at h
  · exact (of_decide_eq_true h).le
  · next heq => exact (not_not.mp heq).le

omit [LinearOrder K] in
theorem sortKey_ne (h : b.2.ts = a.2.ts → b.2.key ≠ a.2.key) : sortKey b ≠ sortKey a := by
  intro heq
  have hpair : (b.2.ts, b.2.key) = (a.2.ts, a.2.key) := congrArg ofLex heq
  obtain ⟨hts, hkey⟩ := Prod.mk.inj hpair
  exact h hts hkey

/-- The set is in order, no two nodes have one name, and the index points to items of its
keys. What it has for `but` is left open. -/
structure LinkedBut (but : Option K) (c : TimedCache K V) : Prop where
  names : ∀ a ∈ c.timed, ∀ b ∈ c.timed, a.1 = b.1 → a = b
  fresh : ∀ node ∈ c.timed, node.1 < c.fresh
  ordered : Ordered less c.timed
  index : ∀ k it, but ≠ some k → c.cache.lookup k = some it →
    ∃ item, (it, item) ∈ c.timed ∧ item.key = k

def Linked (c : TimedCache K V) : Prop := LinkedBut none c

def current (c : TimedCache K V) (k : K) : Option (Item K V) :=
  (c.cache.lookup k).bind (valueOf c.timed)

variable {c : TimedCache K V} {k : K} {item : Item K V} {node : Nat × Item K V}

theorem LinkedBut.nodup (h : LinkedBut but c) : c.timed.Nodup := by
  apply h.ordered.imp
  rintro a b hab rfl
  exact lt_irrefl _ ((less_iff a a).mp hab)

theorem LinkedBut.valueOf_iff (h : LinkedBut but c) :
    valueOf c.timed it = some item ↔ (it, item) ∈ c.timed := by
  apply valueOf_eq_some_iff
  exact List.Nodup.map_on h.names h.nodup

theorem LinkedBut.current_eq (h : LinkedBut but c) (hbut : but ≠ some k)
    (hk : c.cache.lookup k = some it) :
    ∃ item, (it, item) ∈ c.timed ∧ item.key = k ∧ valueOf c.timed it = some item ∧
      current c k = some item := by
  obtain ⟨item, hmem, hkey⟩ := h.index k it hbut hk
  have hvalue := h.valueOf_iff.mpr hmem
  refine ⟨item, hmem, hkey, hvalue, ?_⟩
  rw [current, hk]
  exact hvalue

theorem LinkedBut.mono (h : Linked c) (k) : LinkedBut (some k) c :=
  ⟨h.names, h.fresh, h.ordered, fun k' it _ hk' => h.index k' it nofun hk'⟩

theorem current_congr (h : LinkedBut but c) (h' : LinkedBut but c')
    (hbut : but ≠ some k) (hlookup : c'.cache.lookup k = c.cache.lookup k)
    (hmem : ∀ node ∈ c'.timed, node.2.key = k → node ∈ c.timed) : current c' k = current c k := by
  cases hk : c.cache.lookup k with
  | none =>
    rw [current, current, hlookup, hk]
    rfl
  | some it =>
    obtain ⟨item, hitem, hkey, -, hcurrent⟩ := h'.current_eq hbut (hlookup.trans hk)
    rw [hcurrent, current, hk]
    exact (h.valueOf_iff.mpr (hmem _ hitem hkey)).symm

/-! ## Removing an item -/

omit [LinearOrder K] in
theorem mem_timedErase : node ∈ (timedErase it c).timed ↔ node ∈ c.timed ∧ node.1 ≠ it := by
  simp [timedErase]

theorem Linked.timedErase (h : Linked c) (hnode : node ∈ c.timed) :
    LinkedBut (some node.2.key) (timedErase node.1 c) := by
  refine ⟨?_, ?_, h.ordered.sublist filter_sublist, ?_⟩
  · intro a ha b hb
    exact h.names a (mem_timedErase.mp ha).1 b (mem_timedErase.mp hb).1
  · intro n hn
    exact h.fresh n (mem_timedErase.mp hn).1
  · intro k it hne hk
    obtain ⟨item, hitem, rfl⟩ := h.index k it nofun hk
    refine ⟨item, mem_timedErase.mpr ⟨hitem, ?_⟩, rfl⟩
    intro hname
    have heq := h.names _ hitem _ hnode hname
    exact hne (congrArg (fun n => some n.2.key) heq.symm)

def without (node : Nat × Item K V) (c : TimedCache K V) : TimedCache K V :=
  { timedErase node.1 c with cache := c.cache.erase node.2.key }

theorem Linked.without (h : Linked c) (hnode : node ∈ c.timed) : Linked (without node c) := by
  have hbut := h.timedErase hnode
  refine ⟨hbut.names, hbut.fresh, hbut.ordered, ?_⟩
  intro k it _ hk
  by_cases hkey : k = node.2.key
  · rw [hkey, TimedCache.without, AList.lookup_erase] at hk
    cases hk
  · rw [TimedCache.without, AList.lookup_erase_ne hkey] at hk
    exact hbut.index k it (fun heq => hkey (Option.some.inj heq).symm) hk

theorem Linked.current_without (h : Linked c) (hnode : node ∈ c.timed) (k) :
    current (TimedCache.without node c) k = if k = node.2.key then none else current c k := by
  split
  · next hkey =>
    rw [hkey, current, TimedCache.without, AList.lookup_erase]
    rfl
  · next hkey =>
    apply current_congr h (h.without hnode) nofun (AList.lookup_erase_ne hkey)
    exact fun n hn _ => (mem_timedErase.mp hn).1

theorem Linked.without_head (h : Linked c) (htimed : c.timed = node :: rest) :
    { c with cache := c.cache.erase node.2.key, timed := rest } = TimedCache.without node c := by
  have hnotin : node ∉ rest := by
    have hnodup := h.nodup
    rw [htimed] at hnodup
    exact (nodup_cons.mp hnodup).1
  have hrest : rest.filter (fun n => decide (n.1 ≠ node.1)) = rest := by
    apply filter_eq_self.mpr
    intro n hn
    rw [decide_eq_true_iff]
    intro hname
    have hin : n ∈ c.timed := htimed ▸ mem_cons_of_mem _ hn
    have heq := h.names n hin node (htimed ▸ mem_cons_self) hname
    exact hnotin (heq ▸ hn)
  rw [TimedCache.without, TimedCache.timedErase, htimed, filter_cons, hrest, if_neg (by simp)]

/-! ## Inserting an item -/

def Unused (item : Item K V) (c : TimedCache K V) : Prop :=
  ∀ node ∈ c.timed, node.2.ts = item.ts → node.2.key ≠ item.key

instance (item : Item K V) (c : TimedCache K V) : Decidable (Unused item c) :=
  inferInstanceAs (Decidable (∀ node ∈ c.timed, _))

def withNew (item : Item K V) (c : TimedCache K V) : TimedCache K V :=
  { c with
    cache := c.cache.insert item.key c.fresh
    timed := insert less (c.fresh, item) c.timed
    fresh := c.fresh + 1 }

theorem timedInsert_eq (hunused : Unused item c) : timedInsert item c =
    (c.fresh, { c with timed := insert less (c.fresh, item) c.timed, fresh := c.fresh + 1 }) := by
  unfold timedInsert
  split
  · next node hfind =>
    obtain ⟨hmem, hkey⟩ := find_eq_some less_iff hfind
    exact absurd hkey (sortKey_ne (hunused node hmem))
  · rfl

theorem mem_withNew (hunused : Unused item c) :
    node ∈ (withNew item c).timed ↔ node = (c.fresh, item) ∨ node ∈ c.timed :=
  mem_insert less_iff (fun n hn => sortKey_ne (hunused n hn)) node

theorem LinkedBut.withNew (h : LinkedBut (some item.key) c) (hunused : Unused item c) :
    Linked (withNew item c) := by
  have hold : ∀ n ∈ c.timed, n.1 ≠ c.fresh := fun n hn => Nat.ne_of_lt (h.fresh n hn)
  refine ⟨?_, ?_, ?_, ?_⟩
  · intro a ha b hb hname
    rcases (mem_withNew hunused).mp ha with rfl | ha
    · rcases (mem_withNew hunused).mp hb with rfl | hb
      · rfl
      · exact absurd hname.symm (hold b hb)
    · rcases (mem_withNew hunused).mp hb with rfl | hb
      · exact absurd hname (hold a ha)
      · exact h.names a ha b hb hname
  · intro n hn
    rcases (mem_withNew hunused).mp hn with rfl | hn
    · exact Nat.lt_succ_self _
    · exact Nat.lt_succ_of_lt (h.fresh n hn)
  · exact h.ordered.insert less_iff _
  · intro k it _ hk
    by_cases hkey : k = item.key
    · rw [hkey, TimedCache.withNew, AList.lookup_insert] at hk
      cases hk
      exact ⟨item, (mem_withNew hunused).mpr (.inl rfl), hkey.symm⟩
    · rw [TimedCache.withNew, AList.lookup_insert_ne hkey] at hk
      obtain ⟨item', hitem, hkey'⟩ := h.index k it (fun heq => hkey (Option.some.inj heq).symm) hk
      exact ⟨item', (mem_withNew hunused).mpr (.inr hitem), hkey'⟩

theorem LinkedBut.current_withNew (h : LinkedBut (some item.key) c) (hunused : Unused item c)
    (k) : current (TimedCache.withNew item c) k =
      if k = item.key then some item else current c k := by
  have hnew := h.withNew hunused
  split
  · next hkey =>
    have hlookup : (TimedCache.withNew item c).cache.lookup k = some c.fresh := by
      rw [hkey, TimedCache.withNew, AList.lookup_insert]
    rw [current, hlookup]
    exact hnew.valueOf_iff.mpr ((mem_withNew hunused).mpr (.inl rfl))
  · next hkey =>
    have hbut : some item.key ≠ some k := fun heq => hkey (Option.some.inj heq).symm
    apply current_congr h (LinkedBut.mono hnew _) hbut (AList.lookup_insert_ne hkey)
    intro n hn hn'
    rcases (mem_withNew hunused).mp hn with rfl | hn
    · exact absurd hn'.symm hkey
    · exact hn

/-! ## Inserting an item again -/

def renew (node : Nat × Item K V) (c : TimedCache K V) : TimedCache K V :=
  withNew node.2 (timedErase node.1 c)

theorem Linked.unused_timedErase (h : Linked c) (hnode : node ∈ c.timed) :
    Unused node.2 (TimedCache.timedErase node.1 c) := by
  intro n hn hts hkey
  obtain ⟨hmem, hname⟩ := mem_timedErase.mp hn
  have hplace : sortKey n = sortKey node := by rw [sortKey, sortKey, hts, hkey]
  have hsame := h.ordered.eq_of_key_eq less_iff hmem hnode hplace
  exact hname (congrArg Prod.fst hsame)

theorem Linked.renew (h : Linked c) (hnode : node ∈ c.timed) : Linked (renew node c) :=
  (h.timedErase hnode).withNew (h.unused_timedErase hnode)

theorem Linked.current_timedErase (h : Linked c) (hnode : node ∈ c.timed)
    (hk : k ≠ node.2.key) : current (TimedCache.timedErase node.1 c) k = current c k := by
  apply current_congr (LinkedBut.mono h node.2.key) (h.timedErase hnode) _ rfl
  · exact fun n hn _ => (mem_timedErase.mp hn).1
  · exact fun heq => hk (Option.some.inj heq).symm

theorem Linked.current_renew (h : Linked c) (hnode : node ∈ c.timed)
    (hcurrent : current c node.2.key = some node.2) (k) :
    current (TimedCache.renew node c) k = current c k := by
  rw [TimedCache.renew, (h.timedErase hnode).current_withNew (h.unused_timedErase hnode)]
  split
  · next hkey => rw [hkey, hcurrent]
  · next hkey => exact h.current_timedErase hnode hkey

theorem Linked.expired_eq (h : Linked c) (hk : c.cache.lookup k = some it)
    (hitem : (it, item) ∈ c.timed) (hkey : item.key = k) (ts now) :
    expired k ts now c = .ok (if item.ts = TimedLruCache.deadline ts now then c
      else TimedCache.renew (it, item) c, true) := by
  subst hkey
  have hinsert := timedInsert_eq (h.unused_timedErase hitem)
  rw [expired, hk]
  dsimp only
  rw [h.valueOf_iff.mpr hitem]
  change (if item.ts = _ then _ else _) = _
  split
  · rfl
  · rw [hinsert]
    rfl

/-! ## What was written last -/

/-- The cache, and the value and deadline that the latest `set` of each key gave it, until
the key is removed. -/
structure Tracked (K V : Type) where
  cache : TimedCache K V
  written : AList fun _ : K => V × Nat

def forget (removed : List (Item K V)) (written : AList fun _ : K => V × Nat) :
    AList fun _ : K => V × Nat :=
  removed.foldl (fun w item => w.erase item.key) written

structure Tracked.Inv (s : Tracked K V) : Prop where
  linked : Linked s.cache
  tracks : ∀ k, (current s.cache k).map (fun item => (item.val, item.ts)) = s.written.lookup k

def Exact (c : TimedCache K V) : Prop :=
  ∀ node ∈ c.timed, c.cache.lookup node.2.key = some node.1

structure Tracked.Sound (exact : Bool) (s : Tracked K V) : Prop where
  inv : s.Inv
  exact_of : exact = true → Exact s.cache

variable {s : Tracked K V}

theorem Tracked.Sound.without (h : s.Sound exact) (hnode : node ∈ s.cache.timed) :
    Tracked.Sound exact ⟨TimedCache.without node s.cache, s.written.erase node.2.key⟩ := by
  refine ⟨⟨h.inv.linked.without hnode, ?_⟩, ?_⟩
  · intro k
    dsimp only
    rw [h.inv.linked.current_without hnode k]
    split
    · next hkey =>
      rw [hkey, AList.lookup_erase]
      rfl
    · next hkey =>
      rw [AList.lookup_erase_ne hkey]
      exact h.inv.tracks k
  · intro hexact n hn
    obtain ⟨hmem, hname⟩ := mem_timedErase.mp hn
    have hindex := h.exact_of hexact
    have hkey : n.2.key ≠ node.2.key := by
      intro heq
      have hn' := hindex n hmem
      rw [heq, hindex node hnode] at hn'
      exact hname (Option.some.inj hn').symm
    exact (AList.lookup_erase_ne hkey).trans (hindex n hmem)

theorem Tracked.Sound.without_head (h : s.Sound exact) (htimed : s.cache.timed = node :: rest) :
    Tracked.Sound exact ⟨{ s.cache with cache := s.cache.cache.erase node.2.key, timed := rest },
      s.written.erase node.2.key⟩ := by
  rw [h.inv.linked.without_head htimed]
  exact h.without (htimed ▸ mem_cons_self)

theorem Tracked.Sound.withNew {c : TimedCache K V}
    (h : LinkedBut (some item.key) c) (hunused : Unused item c)
    (htracks : ∀ k, k ≠ item.key → (current c k).map (fun item => (item.val, item.ts)) = w.lookup k)
    (hw : w.lookup item.key = some (item.val, item.ts))
    (hexact : exact = true → ∀ n ∈ c.timed, n.2.key ≠ item.key ∧
      c.cache.lookup n.2.key = some n.1) : Tracked.Sound exact ⟨TimedCache.withNew item c, w⟩ := by
  refine ⟨⟨h.withNew hunused, ?_⟩, ?_⟩
  · intro k
    dsimp only
    rw [h.current_withNew hunused k]
    split
    · next hkey =>
      rw [hkey, hw]
      rfl
    · next hkey => exact htracks k hkey
  · intro he n hn
    rcases (mem_withNew hunused).mp hn with rfl | hn
    · exact AList.lookup_insert _
    · obtain ⟨hkey, hlookup⟩ := hexact he n hn
      exact (AList.lookup_insert_ne hkey).trans hlookup

/-! ## The operations -/

section
variable {σ : Type} {I : TimedCache K V → σ → Prop} {f : σ → Item K V → σ}

/-- The loop takes items from the front. What holds of the cache and of what is noted about the
items taken is kept, if it is when one item is. -/
theorem pruneLoop_inv (linked : ∀ c x, I c x → Linked c)
    (pop : ∀ c x node rest, I c x → c.timed = node :: rest →
      I { c with cache := c.cache.erase node.2.key, timed := rest } (f x node.2))
    (maxSize) : ∀ (timed : List (Nat × Item K V)) (c : TimedCache K V) (x : σ),
    I c x → c.timed = timed →
    Post (fun r => I r.1 (r.2.foldl f x)) Never (pruneLoop maxSize timed c) := by
  intro timed
  induction timed with
  | nil =>
    intro c x hc htimed
    -- without items there are no keys
    have hempty : c.size = 0 := by
      rw [size, length_eq_zero_iff, eq_nil_iff_forall_not_mem]
      intro e he
      have hlookup : c.cache.lookup e.1 = some e.2 := AList.mem_lookup_iff.mpr he
      obtain ⟨item, hitem, -⟩ := (linked c x hc).index _ _ nofun hlookup
      rw [htimed] at hitem
      cases hitem
    rw [pruneLoop, hempty, if_neg (Nat.not_lt_zero _)]
    exact hc
  | cons node rest ih =>
    intro c x hc htimed
    unfold pruneLoop
    split
    · apply (ih _ (f x node.2) (pop c x node rest hc htimed) rfl).bind
      exact fun r hr => hr
    · exact hc

theorem prune_inv (linked : ∀ c x, I c x → Linked c)
    (pop : ∀ c x node rest, I c x → c.timed = node :: rest →
      I { c with cache := c.cache.erase node.2.key, timed := rest } (f x node.2))
    {c : TimedCache K V} (hc : I c x) : Post (fun r => I r.1 (r.2.foldl f x)) Never (prune c) := by
  unfold prune
  split
  · exact hc
  · exact pruneLoop_inv linked pop _ _ c x hc rfl

theorem checkTimeoutLoop_inv (pop : ∀ c x node rest, I c x → c.timed = node :: rest →
      I { c with cache := c.cache.erase node.2.key, timed := rest } (f x node.2))
    (t) : ∀ (timed : List (Nat × Item K V)) (c : TimedCache K V) (x : σ),
    I c x → c.timed = timed →
    I (checkTimeoutLoop t timed c).1 ((checkTimeoutLoop t timed c).2.foldl f x) := by
  intro timed
  induction timed with
  | nil =>
    intro c x hc _
    exact hc
  | cons node rest ih =>
    intro c x hc htimed
    unfold checkTimeoutLoop
    split
    · exact ih _ (f x node.2) (pop c x node rest hc htimed) rfl
    · exact hc

end

theorem mem_checkTimeoutLoop (t k) : ∀ (timed : List (Nat × Item K V))
    (c : TimedCache K V), Ordered less timed →
    (k ∈ (checkTimeoutLoop t timed c).1.cache ↔
      k ∈ c.cache ∧ ∀ node ∈ timed, node.2.key = k → t < node.2.ts) := by
  intro timed
  induction timed with
  | nil =>
    intro c _
    simp [checkTimeoutLoop]
  | cons node rest ih =>
    intro c hordered
    obtain ⟨hfirst, hrest⟩ := pairwise_cons.mp hordered
    unfold checkTimeoutLoop
    split
    · next hdue =>
      rw [ih _ hrest, AList.mem_erase, forall_mem_cons]
      constructor
      · rintro ⟨⟨hne, hmem⟩, hall⟩
        exact ⟨hmem, fun hkey => absurd hkey.symm hne, hall⟩
      · rintro ⟨hmem, hnode, hall⟩
        refine ⟨⟨fun hkey => ?_, hmem⟩, hall⟩
        exact absurd (hnode hkey.symm) (not_lt.mpr hdue)
    · next hdue =>
      -- the items behind are not due either
      refine (and_iff_left ?_).symm
      intro n hn _
      rcases mem_cons.mp hn with rfl | hn
      · exact not_le.mp hdue
      · have hlater : node.2.ts ≤ n.2.ts := ts_le_of_less (hfirst n hn)
        omega

theorem mem_checkTimeout (h : Linked c) (t k) : k ∈ (checkTimeout t c).1.cache ↔
      k ∈ c.cache ∧ ∀ node ∈ c.timed, node.2.key = k → t < node.2.ts :=
  mem_checkTimeoutLoop t k c.timed c h.ordered

theorem prune_post (hs : s.Sound exact) :
    Post (fun r => Tracked.Sound exact ⟨r.1, forget r.2 s.written⟩) Never (prune s.cache) := by
  apply prune_inv (I := fun c w => Tracked.Sound exact ⟨c, w⟩) _ _ hs
  · exact fun c w h => h.inv.linked
  · exact fun c w node rest h htimed => h.without_head htimed

omit [LinearOrder K] in
theorem insert_erase [DecidableEq K] (m : AList fun _ : K => Nat) (k it) :
    (if (m.lookup k).isSome then m.erase k else m).insert k it = m.insert k it := by
  split
  · apply AList.ext
    rw [AList.entries_insert, AList.entries_insert]
    congr 1
    exact kerase_of_notMem_keys (notMem_keys_kerase k m.nodupKeys)
  · rfl

theorem set_post (hs : s.Sound exact) (k v expired now)
    (hunused : Unused ⟨k, v, TimedLruCache.deadline expired now⟩ s.cache)
    (hnew : exact = true → s.cache.cache.lookup k = none) :
    Post (fun r => Tracked.Sound exact
        ⟨r.1, forget r.2 (s.written.insert k (v, TimedLruCache.deadline expired now))⟩)
      Never (set k v expired now s.cache) := by
  have hinsert : timedInsert ⟨k, v, TimedLruCache.deadline expired now⟩ { s.cache with
      cache := if (s.cache.cache.lookup k).isSome then s.cache.cache.erase k else s.cache.cache } =
      _ := timedInsert_eq hunused
  rw [set, hinsert]
  dsimp only
  rw [insert_erase]
  have hsound : Tracked.Sound exact ⟨TimedCache.withNew
      ⟨k, v, TimedLruCache.deadline expired now⟩ s.cache,
      s.written.insert k (v, TimedLruCache.deadline expired now)⟩ := by
    apply Tracked.Sound.withNew (LinkedBut.mono hs.inv.linked k) hunused
    · intro k' hk'
      rw [AList.lookup_insert_ne hk']
      exact hs.inv.tracks k'
    · exact AList.lookup_insert _
    · intro he n hn
      have hlookup := hs.exact_of he n hn
      refine ⟨?_, hlookup⟩
      rintro rfl
      rw [hnew he] at hlookup
      cases hlookup
  exact prune_post hsound

theorem get_eq_of_linked (h : Linked c) (k) :
    get k c = .ok ((current c k).map fun item => item.val) := by
  rw [get]
  cases hk : c.cache.lookup k with
  | none =>
    rw [current, hk]
    rfl
  | some it =>
    obtain ⟨item, -, -, hvalue, hcurrent⟩ := h.current_eq (Option.some_ne_none _).symm hk
    dsimp only
    rw [hvalue, hcurrent]
    rfl

theorem get_eq (hs : s.Inv) (k) : get k s.cache = .ok ((s.written.lookup k).map Prod.fst) := by
  rw [get_eq_of_linked hs.linked, ← hs.tracks k, Option.map_map]
  rfl

theorem del_post (hs : s.Sound exact) (k) :
    Post (fun r => Tracked.Sound exact ⟨r.1, s.written.erase k⟩) Never (del k s.cache) := by
  unfold del
  cases hk : s.cache.cache.lookup k with
  | none =>
    have hcurrent : current s.cache k = none := by
      rw [current, hk]
      rfl
    refine ⟨⟨hs.inv.linked, fun k' => ?_⟩, hs.exact_of⟩
    by_cases hkey : k' = k
    · rw [hkey, AList.lookup_erase]
      exact congrArg _ hcurrent
    · rw [AList.lookup_erase_ne hkey]
      exact hs.inv.tracks k'
  | some it =>
    obtain ⟨item, hitem, rfl, hvalue, -⟩ := hs.inv.linked.current_eq (Option.some_ne_none _).symm hk
    dsimp only
    rw [hvalue]
    exact hs.without hitem

theorem expired_post (hs : s.Sound exact) (k ts now) :
    Post (fun r => Tracked.Sound exact ⟨r.1, s.written⟩) Never (expired k ts now s.cache) := by
  have hlinked := hs.inv.linked
  cases hk : s.cache.cache.lookup k with
  | none =>
    rw [expired, hk]
    exact hs
  | some it =>
    obtain ⟨item, hitem, rfl, -, hcurrent⟩ := hlinked.current_eq (Option.some_ne_none _).symm hk
    rw [hlinked.expired_eq hk hitem rfl]
    simp only [post_ok]
    split
    · exact hs
    · apply Tracked.Sound.withNew (hlinked.timedErase hitem) (hlinked.unused_timedErase hitem)
      · intro k' hk'
        rw [hlinked.current_timedErase hitem hk']
        exact hs.inv.tracks k'
      · rw [← hs.inv.tracks item.key, hcurrent]
        rfl
      · intro he n hn
        obtain ⟨hmem, hname⟩ := mem_timedErase.mp hn
        have hlookup := hs.exact_of he n hmem
        refine ⟨?_, hlookup⟩
        intro hkey
        rw [hkey, hk] at hlookup
        exact hname (Option.some.inj hlookup).symm

theorem clear_sound (s : Tracked K V) (exact) : Tracked.Sound exact ⟨clear s.cache, ∅⟩ := by
  refine ⟨⟨⟨?_, ?_, List.Pairwise.nil, ?_⟩, fun _ => rfl⟩, ?_⟩
  · exact fun a ha => absurd ha not_mem_nil
  · exact fun a ha => absurd ha not_mem_nil
  · intro k it _ hk
    cases hk
  · exact fun _ a ha => absurd ha not_mem_nil

/-- What `checkTimeout` takes is due, and a key leaves only with an item of it. -/
theorem checkTimeout_post (t) (hs : s.Sound exact) :
    Tracked.Sound exact ⟨(checkTimeout t s.cache).1, forget (checkTimeout t s.cache).2 s.written⟩ ∧
    ∀ k, k ∈ s.cache.cache → k ∉ (checkTimeout t s.cache).1.cache →
      ∃ node ∈ s.cache.timed, node.2.key = k ∧ node.2.ts ≤ t := by
  constructor
  · apply checkTimeoutLoop_inv (I := fun c w => Tracked.Sound exact ⟨c, w⟩) _ t _ _ _ hs rfl
    exact fun c w node rest h htimed => h.without_head htimed
  · intro k hk hgone
    rw [mem_checkTimeout hs.inv.linked] at hgone
    by_contra hnone
    refine hgone ⟨hk, fun node hnode hkey => ?_⟩
    by_contra hdue
    exact hnone ⟨node, hnode, hkey, not_lt.mp hdue⟩

/-! ## Runs -/

inductive Action (K V : Type)
  | set (k : K) (v : V) (expired now : Nat)
  | del (k : K)
  | expired (k : K) (ts now : Nat)
  | clear
  | checkTimeout (t : Nat)
  | prune
  | setMaxSize (v : Nat)
  | setElasticity (v : Nat)

def exec : Action K V → Tracked K V → Except Undefined (Tracked K V)
  | .set k v expired now, s => do
    let (cache, pruned) ← s.cache.set k v expired now
    let written := s.written.insert k (v, TimedLruCache.deadline expired now)
    .ok ⟨cache, forget pruned written⟩
  | .del k, s => do
    let (cache, _) ← s.cache.del k
    .ok ⟨cache, s.written.erase k⟩
  | .expired k ts now, s => do
    let (cache, _) ← s.cache.expired k ts now
    .ok ⟨cache, s.written⟩
  | .clear, s => .ok ⟨s.cache.clear, ∅⟩
  | .checkTimeout t, s =>
    let (cache, removed) := s.cache.checkTimeout t
    .ok ⟨cache, forget removed s.written⟩
  | .prune, s => do
    let (cache, pruned) ← s.cache.prune
    .ok ⟨cache, forget pruned s.written⟩
  | .setMaxSize v, s => .ok ⟨{ s.cache with maxSize := v }, s.written⟩
  | .setElasticity v, s => .ok ⟨{ s.cache with elasticity := v }, s.written⟩

def Tracked.init (maxSize elasticity : Nat) : Tracked K V := ⟨TimedCache.init maxSize elasticity, ∅⟩

/-- No item in the set has the key and the deadline that are set. -/
def NewDeadline (s : Tracked K V) : Action K V → Prop
  | .set k v expired now => Unused ⟨k, v, TimedLruCache.deadline expired now⟩ s.cache
  | _ => True

instance (s : Tracked K V) : (a : Action K V) → Decidable (NewDeadline s a)
  | .set k v expired now =>
    inferInstanceAs (Decidable (Unused ⟨k, v, TimedLruCache.deadline expired now⟩ s.cache))
  | .del _ | .expired .. | .clear | .checkTimeout _ | .prune | .setMaxSize _ | .setElasticity _ =>
    isTrue trivial

def NewKey (s : Tracked K V) : Action K V → Prop
  | .set k _ _ _ => s.cache.cache.lookup k = none
  | _ => True

instance (s : Tracked K V) : (a : Action K V) → Decidable (NewKey s a)
  | .set k _ _ _ => inferInstanceAs (Decidable (s.cache.cache.lookup k = none))
  | .del _ | .expired .. | .clear | .checkTimeout _ | .prune | .setMaxSize _ | .setElasticity _ =>
    isTrue trivial

theorem init_sound (maxSize elasticity) :
    Tracked.Sound exact (Tracked.init maxSize elasticity : Tracked K V) :=
  clear_sound (Tracked.init maxSize elasticity) exact

theorem exec_sound (s : Tracked K V) (a) (hs : s.Sound exact)
    (hdeadline : NewDeadline s a) (hkey : exact = true → NewKey s a) :
    Post (Tracked.Sound exact) Never (exec a s) := by
  cases a with
  | set k v expired now =>
    exact (set_post hs k v expired now hdeadline hkey).bind fun r hr => hr
  | del k => exact (del_post hs k).bind fun r hr => hr
  | expired k ts now => exact (expired_post hs k ts now).bind fun r hr => hr
  | clear => exact clear_sound s exact
  | checkTimeout t => exact (checkTimeout_post t hs).1
  | prune => exact (prune_post hs).bind fun r hr => hr
  | setMaxSize v =>
    exact ⟨⟨⟨hs.inv.linked.names, hs.inv.linked.fresh, hs.inv.linked.ordered,
      hs.inv.linked.index⟩, hs.inv.tracks⟩, hs.exact_of⟩
  | setElasticity v =>
    exact ⟨⟨⟨hs.inv.linked.names, hs.inv.linked.fresh, hs.inv.linked.ordered,
      hs.inv.linked.index⟩, hs.inv.tracks⟩, hs.exact_of⟩

/-- Where no item of the same key and deadline is left in the set, the last write wins. -/
theorem runs_last_write_wins (maxSize elasticity : Nat) (as : List (Action K V))
    (has : Along exec NewDeadline as (Tracked.init maxSize elasticity)) :
    Post (fun s => ∀ k, s.cache.get k = .ok ((s.written.lookup k).map Prod.fst))
      (fun _ => False) (run exec as (Tracked.init maxSize elasticity)) := by
  have hstep : ∀ (s : Tracked K V) a, s.Sound false → NewDeadline s a →
      Post (Tracked.Sound false) (fun _ => False) (exec a s) :=
    fun s a hs ha => exec_sound s a hs ha nofun
  exact (post_run hstep as _ has (init_sound maxSize elasticity)).mono
    (fun s hs k => get_eq hs.inv k) fun _ => id

def overwrites : List (Action Nat Nat) :=
  [.set 1 10 5 0, .set 1 20 9 0, .set 2 30 9 0, .checkTimeout 5, .set 1 40 9 1, .expired 2 7 1]

theorem overwrites_new_deadlines : Along exec NewDeadline overwrites (Tracked.init 4 0) := by
  decide +kernel

theorem overwrites_last_write_wins : Along exec NewDeadline overwrites (Tracked.init 4 0) ∧
      Post (fun s => ∀ k, s.cache.get k = .ok ((s.written.lookup k).map Prod.fst))
        (fun _ => False) (run exec overwrites (Tracked.init 4 0)) :=
  ⟨overwrites_new_deadlines, runs_last_write_wins 4 0 overwrites overwrites_new_deadlines⟩

/-- The clock has not moved between two writes of one key: the first value stays. -/
theorem second_write_lost :
    (run exec [.set 1 10 5 0, .set 1 20 5 0] (Tracked.init 0 0 : Tracked Nat Nat)).map
      (fun s => (s.cache.get 1, s.written.lookup 1)) = .ok (.ok (some 10), some (20, 5)) := by
  decide +kernel

/-- One item per key of the index, no other item, and a timeout takes only what is due by the
latest `set`. -/
structure Timely (s : Tracked K V) : Prop where
  nodup : (s.cache.timed.map fun node => node.2.key).Nodup
  keys : ∀ k, k ∈ s.cache.timed.map (fun node => node.2.key) ↔ k ∈ s.cache.cache
  due : ∀ t k, k ∈ s.cache.cache → k ∉ (s.cache.checkTimeout t).1.cache →
    ∃ v ts, s.written.lookup k = some (v, ts) ∧ ts ≤ t

theorem Tracked.Sound.timely (hs : s.Sound true) : Timely s := by
  have hexact := hs.exact_of rfl
  refine ⟨?_, ?_, ?_⟩
  · apply List.Nodup.map_on
    · intro a ha b hb hkey
      apply hs.inv.linked.names a ha b hb
      have hlookup := hexact a ha
      rw [hkey, hexact b hb] at hlookup
      exact (Option.some.inj hlookup).symm
    · exact hs.inv.linked.nodup
  · intro k
    rw [mem_map, ← AList.lookup_isSome, Option.isSome_iff_exists]
    constructor
    · rintro ⟨node, hnode, rfl⟩
      exact ⟨node.1, hexact node hnode⟩
    · rintro ⟨it, hit⟩
      obtain ⟨item, hitem, hkey⟩ := hs.inv.linked.index k it nofun hit
      exact ⟨(it, item), hitem, hkey⟩
  · intro t k hk hgone
    obtain ⟨node, hnode, rfl, hdue⟩ := (checkTimeout_post t hs).2 k hk hgone
    have hcurrent : current s.cache node.2.key = some node.2 := by
      rw [current, hexact node hnode]
      exact hs.inv.linked.valueOf_iff.mpr hnode
    have htracks := hs.inv.tracks node.2.key
    rw [hcurrent] at htracks
    exact ⟨node.2.val, node.2.ts, htracks.symm, hdue⟩

/-- Where keys are only set when they are not in the cache, the set and the index hold the
same, and a timeout follows the latest deadline. -/
theorem runs_stay_timely (maxSize elasticity : Nat) (as : List (Action K V))
    (has : Along exec NewKey as (Tracked.init maxSize elasticity)) :
    Post Timely (fun _ => False) (run exec as (Tracked.init maxSize elasticity)) := by
  have hstep : ∀ (s : Tracked K V) a, s.Sound true → NewKey s a →
      Post (Tracked.Sound true) (fun _ => False) (exec a s) := by
    intro s a hs ha
    apply exec_sound s a hs ?_ fun _ => ha
    cases a with
    | set k v expired now =>
      -- an item of the key would be in the index
      intro node hnode _ hkey
      have hlookup := hs.exact_of rfl node hnode
      rw [hkey, show s.cache.cache.lookup k = none from ha] at hlookup
      cases hlookup
    | _ => trivial
  exact (post_run hstep as _ has (init_sound maxSize elasticity)).mono
    (fun s hs => hs.timely) fun _ => id

def renewed : List (Action Nat Nat) :=
  [.set 1 10 5 0, .del 1, .set 1 20 9 0, .set 2 30 9 0, .expired 1 3 2, .checkTimeout 5]

theorem renewed_new_keys : Along exec NewKey renewed (Tracked.init 4 0) := by decide +kernel

theorem renewed_stay_timely : Along exec NewKey renewed (Tracked.init 4 0) ∧
      Post Timely (fun _ => False) (run exec renewed (Tracked.init 4 0)) :=
  ⟨renewed_new_keys, runs_stay_timely 4 0 renewed renewed_new_keys⟩

/-- A key set again leaves its first item behind, and that item's deadline removes the key. -/
theorem second_write_timed_out_early :
    (run exec [.set 1 10 5 0, .set 1 20 9 0] (Tracked.init 0 0 : Tracked Nat Nat)).map
      (fun s => (s.cache.timed.map fun node => node.2.key, s.written.lookup 1,
        s.cache.get 1, (s.cache.checkTimeout 5).1.get 1)) =
      .ok ([1, 1], some (20, 9), .ok (some 20), .ok none) := by
  decide +kernel

end TimedCache

end Helens.Ds
