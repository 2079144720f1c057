import Helens.TimedCache

/-! The deadlines of `TimedCache` under `expired`. Calls that do not name a key leave its items
alone as long as it is in the cache, so a later `checkTimeout` shows what `expired` has done. -/

namespace Helens.Ds.TimedCache

open Lib.FiniteMap Lib.OrderedSet Lib.Runs

variable {K V : Type} [LinearOrder K]

/-! ## All runs -/

/-- The deadline of a key is that of the item which the index has for it. -/
def deadlineOf (c : TimedCache K V) (k : K) : Option Nat := (current c k).map fun item => item.ts

def Action.key : Action K V → Option K
  | .set k .. | .del k | .expired k .. => some k
  | .clear | .checkTimeout _ | .prune | .setMaxSize _ | .setElasticity _ => none

/-- The index points to items of its keys. As long as `key` is in it, the items of `key` are
those of `timed`. -/
structure Spared (key : Option K) (timed : List (Nat × Item K V)) (c : TimedCache K V) : Prop where
  linked : Linked c
  items : ∀ k ∈ key, k ∈ c.cache → ∀ node, node.2.key = k → (node ∈ c.timed ↔ node ∈ timed)

variable {key : Option K} {timed : List (Nat × Item K V)} {c : TimedCache K V} {k : K} {it : Nat}
  {item : Item K V} {node : Nat × Item K V}

theorem Linked.spared (h : Linked c) : Spared key c.timed c := ⟨h, fun _ _ _ _ _ => Iff.rfl⟩

theorem Spared.without (h : Spared key timed c) (hnode : node ∈ c.timed) :
    Spared key timed (TimedCache.without node c) := by
  refine ⟨h.linked.without hnode, ?_⟩
  intro k hk hmem n hn
  obtain ⟨hne, hmem'⟩ := AList.mem_erase.mp hmem
  rw [← h.items k hk hmem' n hn]
  refine mem_timedErase.trans (and_iff_left_of_imp ?_)
  intro hin hname
  have heq := h.linked.names n hin node hnode hname
  exact hne (heq ▸ hn).symm

theorem Spared.pop (h : Spared key timed c) (htimed : c.timed = node :: rest) :
    Spared key timed { c with cache := c.cache.erase node.2.key, timed := rest } := by
  rw [h.linked.without_head htimed]
  exact h.without (htimed ▸ List.mem_cons_self)

theorem mem_of_mem_insert_ne {m : AList fun _ : K => Nat} {k k' : K} (hne : k' ≠ k)
    (h : k' ∈ m.insert k it) : k' ∈ m := (AList.mem_insert m).mp h |>.resolve_left hne

theorem Spared.withNew (h : LinkedBut (some item.key) c)
    (hitems : ∀ k ∈ key, k ∈ c.cache → ∀ node, node.2.key = k → (node ∈ c.timed ↔ node ∈ timed))
    (hunused : Unused item c) (hkey : key ≠ some item.key) :
    Spared key timed (TimedCache.withNew item c) := by
  refine ⟨h.withNew hunused, ?_⟩
  intro k hk hmem n hn
  have hne : k ≠ item.key := fun heq => hkey (heq ▸ hk)
  rw [← hitems k hk (mem_of_mem_insert_ne hne hmem) n hn, mem_withNew hunused]
  refine or_iff_right ?_
  rintro rfl
  exact hne hn.symm

theorem Spared.pointed (h : Spared key timed c) (hnode : node ∈ c.timed)
    (hkey : key ≠ some node.2.key) :
    Spared key timed { c with cache := c.cache.insert node.2.key node.1 } := by
  refine ⟨⟨h.linked.names, h.linked.fresh, h.linked.ordered, ?_⟩, ?_⟩
  · intro k it _ hk
    by_cases hne : k = node.2.key
    · rw [hne, AList.lookup_insert] at hk
      cases hk
      exact ⟨node.2, hnode, hne.symm⟩
    · rw [AList.lookup_insert_ne hne] at hk
      exact h.linked.index k it nofun hk
  · intro k hk hmem
    have hne : k ≠ node.2.key := fun heq => hkey (heq ▸ hk)
    exact h.items k hk (mem_of_mem_insert_ne hne hmem)

theorem Spared.prune (h : Spared key timed c) :
    Post (fun r => Spared key timed r.1) Never (prune c) :=
  prune_inv (I := fun c (_ : Unit) => Spared key timed c) (f := fun _ _ => ())
    (fun _ _ h => h.linked) (fun _ _ _ _ h htimed => h.pop htimed) (x := ()) h

theorem Spared.checkTimeout (h : Spared key timed c) (t) : Spared key timed (checkTimeout t c).1 :=
  checkTimeoutLoop_inv (I := fun c (_ : Unit) => Spared key timed c) (f := fun _ _ => ())
    (fun _ _ _ _ h htimed => h.pop htimed) t c.timed c () h rfl

/-- A `set` finds an item of its key and deadline, which stays, or none. -/
theorem Spared.set (h : Spared key timed c) (k v expired now) (hkey : key ≠ some k) :
    Post (fun r => Spared key timed r.1) Never (set k v expired now c) := by
  by_cases hunused : Unused ⟨k, v, TimedLruCache.deadline expired now⟩ c
  · have hinsert : timedInsert ⟨k, v, TimedLruCache.deadline expired now⟩ { c with
        cache := if (c.cache.lookup k).isSome then c.cache.erase k else c.cache } = _ :=
      timedInsert_eq hunused
    rw [TimedCache.set, hinsert]
    dsimp only
    rw [insert_erase]
    have hnew : Spared key timed
        (TimedCache.withNew ⟨k, v, TimedLruCache.deadline expired now⟩ c) :=
      Spared.withNew (LinkedBut.mono h.linked k) h.items hunused hkey
    exact hnew.prune
  · simp only [Unused, not_forall, not_not] at hunused
    obtain ⟨node, hnode, hts, rfl⟩ := hunused
    have hfind : find less (c.fresh, ⟨node.2.key, v, TimedLruCache.deadline expired now⟩) c.timed =
        some node :=
      h.linked.ordered.find_of_key_eq less_iff hnode (by rw [sortKey, sortKey, hts])
    rw [TimedCache.set, timedInsert, hfind]
    dsimp only
    rw [insert_erase]
    exact (h.pointed hnode hkey).prune

theorem Spared.del (h : Spared key timed c) (k) :
    Post (fun r => Spared key timed r.1) Never (del k c) := by
  unfold TimedCache.del
  cases hk : c.cache.lookup k with
  | none => exact h
  | some it =>
    obtain ⟨item, hitem, rfl, hvalue, -⟩ := h.linked.current_eq (Option.some_ne_none _).symm hk
    dsimp only
    rw [hvalue]
    exact h.without hitem

theorem Spared.renew (h : Spared key timed c) (hnode : node ∈ c.timed)
    (hkey : key ≠ some node.2.key) : Spared key timed (TimedCache.renew node c) := by
  apply Spared.withNew (h.linked.timedErase hnode) _ (h.linked.unused_timedErase hnode) hkey
  intro k hk hmem n hn
  rw [← h.items k hk hmem n hn]
  refine mem_timedErase.trans (and_iff_left_of_imp ?_)
  intro hin hname
  have heq := h.linked.names n hin node hnode hname
  exact hkey (heq ▸ hn ▸ hk)

theorem Spared.expired (h : Spared key timed c) (k ts now) (hkey : key ≠ some k) :
    Post (fun r => Spared key timed r.1) Never (expired k ts now c) := by
  cases hk : c.cache.lookup k with
  | none =>
    rw [TimedCache.expired, hk]
    exact h
  | some it =>
    obtain ⟨item, hitem, rfl, -, -⟩ := h.linked.current_eq (Option.some_ne_none _).symm hk
    rw [h.linked.expired_eq hk hitem rfl]
    simp only [post_ok]
    split
    · exact h
    · exact h.renew hitem hkey

theorem exec_spared (s : Tracked K V) (a : Action K V) (hs : Spared key timed s.cache)
    (hkey : ∀ k ∈ a.key, key ≠ some k) :
    Post (fun s' => Spared key timed s'.cache) Never (exec a s) := by
  cases a with
  | set k v expired now => exact (hs.set k v expired now (hkey k rfl)).bind fun r hr => hr
  | del k => exact (hs.del k).bind fun r hr => hr
  | expired k ts now => exact (hs.expired k ts now (hkey k rfl)).bind fun r hr => hr
  | clear =>
    refine ⟨(clear_sound s false).inv.linked, fun k _ hmem => ?_⟩
    cases AList.mem_keys.mp hmem
  | checkTimeout t => exact hs.checkTimeout t
  | prune => exact hs.prune.bind fun r hr => hr
  | setMaxSize v =>
    exact ⟨⟨hs.linked.names, hs.linked.fresh, hs.linked.ordered, hs.linked.index⟩, hs.items⟩
  | setElasticity v =>
    exact ⟨⟨hs.linked.names, hs.linked.fresh, hs.linked.ordered, hs.linked.index⟩, hs.items⟩

variable (key) in
theorem run_spared (bs) (hbs : ∀ b ∈ bs, ∀ k ∈ b.key, key ≠ some k) :
    ∀ s : Tracked K V, Spared key timed s.cache →
      Post (fun s' => Spared key timed s'.cache) Never (run exec bs s) := by
  induction bs with
  | nil =>
    intro s hs
    exact hs
  | cons b bs ih =>
    intro s hs
    obtain ⟨hb, hrest⟩ := List.forall_mem_cons.mp hbs
    exact (exec_spared s b hs hb).bind fun s' hs' => ih hrest s' hs'

theorem run_linked (maxSize elasticity : Nat) (as : List (Action K V)) :
    Post (fun s => Linked s.cache) Never (run exec as (Tracked.init maxSize elasticity)) := by
  have hinit : Tracked.Sound false (Tracked.init maxSize elasticity : Tracked K V) :=
    init_sound maxSize elasticity
  apply (run_spared none as (fun _ _ _ _ => nofun) _ hinit.inv.linked.spared).imp
  exact fun s hs => hs.linked

/-! ## What `expired` does -/

theorem Linked.expired_post (h : Linked c) (k ts now) :
    Post (fun r => Linked r.1 ∧ r.2 = decide (k ∈ c.cache) ∧
        (∀ k', k' ∈ r.1.cache ↔ k' ∈ c.cache) ∧ (∀ k', current r.1 k' = current c k') ∧
        ∀ item, (∃ it, (it, item) ∈ r.1.timed) ↔ ∃ it, (it, item) ∈ c.timed)
      Never (expired k ts now c) := by
  cases hk : c.cache.lookup k with
  | none =>
    have hout : k ∉ c.cache := AList.lookup_eq_none.mp hk
    rw [TimedCache.expired, hk]
    exact ⟨h, (decide_eq_false hout).symm, fun _ => Iff.rfl, fun _ => rfl, fun _ => Iff.rfl⟩
  | some it =>
    have hin : k ∈ c.cache := AList.lookup_isSome.mp (hk ▸ rfl)
    obtain ⟨item, hitem, rfl, -, hcurrent⟩ := h.current_eq (Option.some_ne_none _).symm hk
    rw [h.expired_eq hk hitem rfl]
    simp only [post_ok]
    split
    · exact ⟨h, (decide_eq_true hin).symm, fun _ => Iff.rfl, fun _ => rfl, fun _ => Iff.rfl⟩
    · refine ⟨h.renew hitem, (decide_eq_true hin).symm, ?_, h.current_renew hitem hcurrent, ?_⟩
      · intro k'
        refine (AList.mem_insert _).trans (or_iff_right_of_imp ?_)
        rintro rfl
        exact hin
      · intro i
        have hmem : ∀ n, (n, i) ∈ (TimedCache.renew (it, item) c).timed ↔
            (n, i) = (c.fresh, item) ∨ (n, i) ∈ c.timed ∧ n ≠ it := fun n =>
          (mem_withNew (h.unused_timedErase hitem)).trans (or_congr_right mem_timedErase)
        simp only [hmem]
        constructor
        · rintro ⟨n, heq | ⟨hn, -⟩⟩
          · obtain ⟨-, rfl⟩ := Prod.mk.inj heq
            exact ⟨it, hitem⟩
          · exact ⟨n, hn⟩
        · rintro ⟨n, hn⟩
          by_cases hname : n = it
          · have heq := h.names _ hn _ hitem hname
            obtain ⟨-, rfl⟩ := Prod.mk.inj heq
            exact ⟨c.fresh, .inl rfl⟩
          · exact ⟨n, .inr ⟨hn, hname⟩⟩

def NoneBefore (deadline : Nat) (k : K) (c : TimedCache K V) : Prop :=
  ∀ node ∈ c.timed, node.2.key = k → deadline ≤ node.2.ts

omit [LinearOrder K] in
theorem noneBefore_congr (d)
    (h : ∀ item, (∃ it, (it, item) ∈ c'.timed) ↔ ∃ it, (it, item) ∈ c.timed) :
    NoneBefore d k c' ↔ NoneBefore d k c := by
  constructor
  · intro hall node hnode hkey
    obtain ⟨it, hit⟩ := (h node.2).mpr ⟨node.1, hnode⟩
    exact hall (it, node.2) hit hkey
  · intro hall node hnode hkey
    obtain ⟨it, hit⟩ := (h node.2).mp ⟨node.1, hnode⟩
    exact hall (it, node.2) hit hkey

/-- A timeout takes a key that is there from its deadline on, exactly if it has no item before. -/
theorem Linked.timeout_iff (h : Linked c) (hd : deadlineOf c k = some d) (hk : k ∈ c.cache) :
    (∀ t, k ∉ (checkTimeout t c).1.cache ↔ d ≤ t) ↔ NoneBefore d k c := by
  obtain ⟨item, hitem, hts⟩ := Option.map_eq_some_iff.mp hd
  have htaken : ∀ t, k ∉ (checkTimeout t c).1.cache ↔
      ∃ node ∈ c.timed, node.2.key = k ∧ node.2.ts ≤ t := by
    intro t
    rw [mem_checkTimeout h]
    simp only [hk, true_and, not_forall, not_lt, exists_prop]
  simp only [htaken]
  constructor
  · intro hall node hnode hkey
    exact (hall node.2.ts).mp ⟨node, hnode, hkey, le_rfl⟩
  · intro hnone t
    constructor
    · rintro ⟨node, hnode, hkey, hdue⟩
      exact (hnone node hnode hkey).trans hdue
    · intro hle
      obtain ⟨it, hit⟩ := Option.isSome_iff_exists.mp (AList.lookup_isSome.mpr hk)
      obtain ⟨item', hmem, hkey, -, hcurrent⟩ := h.current_eq (Option.some_ne_none _).symm hit
      obtain rfl := Option.some.inj (hcurrent.symm.trans hitem)
      exact ⟨(it, item'), hmem, hkey, hts.trans_le hle⟩

/-- `expired` tells whether the key is there and keeps all values. Its deadline is the one asked for
afterwards exactly if no item of the key is due earlier. -/
theorem expired_moves_deadline_iff (maxSize elasticity : Nat) (as : List (Action K V)) (k : K)
    (ts now : Nat) :
    ∃ s c found, run exec as (Tracked.init maxSize elasticity) = .ok s ∧
      s.cache.expired k ts now = .ok (c, found) ∧ found = decide (k ∈ s.cache.cache) ∧
      (∀ k', c.get k' = s.cache.get k') ∧
      (∀ k' ≠ k, deadlineOf c k' = deadlineOf s.cache k' ∧
        ∀ t, k' ∈ (c.checkTimeout t).1.cache ↔ k' ∈ (s.cache.checkTimeout t).1.cache) ∧
      (found = true → ((deadlineOf c k = some (TimedLruCache.deadline ts now) ∧
          ∀ bs : List (Action K V), (∀ b ∈ bs, b.key ≠ some k) →
            Post (fun s' => k ∈ s'.cache.cache → ∀ t,
                (k ∉ (s'.cache.checkTimeout t).1.cache ↔ TimedLruCache.deadline ts now ≤ t))
              (fun _ => False) (run exec bs ⟨c, s.written⟩)) ↔
        (deadlineOf s.cache k = some (TimedLruCache.deadline ts now) ∧
          NoneBefore (TimedLruCache.deadline ts now) k s.cache))) := by
  obtain ⟨s, hrun, hs⟩ := (run_linked maxSize elasticity as).exists_ok
  obtain ⟨⟨c, found⟩, hexpired, hc, hfound, hkeys, hcurrent, hitems⟩ :=
    (hs.expired_post k ts now).exists_ok
  dsimp only at hc hfound hkeys hcurrent hitems
  have hdeadline : ∀ k', deadlineOf c k' = deadlineOf s.cache k' := by
    intro k'
    rw [deadlineOf, deadlineOf, hcurrent]
  refine ⟨s, c, found, hrun, hexpired, hfound, ?_, ?_, ?_⟩
  · intro k'
    rw [get_eq_of_linked hc, get_eq_of_linked hs, hcurrent]
  · intro k' _
    refine ⟨hdeadline k', fun t => ?_⟩
    have hnone := noneBefore_congr (k := k') (t + 1) hitems
    rw [mem_checkTimeout hc, mem_checkTimeout hs, hkeys]
    exact and_congr_right fun _ => hnone
  · intro htrue
    have hk : k ∈ c.cache := (hkeys k).mpr (of_decide_eq_true (hfound.symm.trans htrue))
    rw [← hdeadline, ← noneBefore_congr _ hitems]
    refine and_congr_right fun hd => ?_
    rw [← hc.timeout_iff hd hk]
    constructor
    · intro hlater
      exact hlater [] (fun b hb => absurd hb List.not_mem_nil) hk
    · intro htimeout bs hbs
      have hspares : ∀ b ∈ bs, ∀ k' ∈ b.key, some k ≠ some k' := by
        intro b hb k' hk' heq
        exact hbs b hb (heq ▸ hk')
      apply (run_spared (some k) bs hspares ⟨c, s.written⟩ hc.spared).imp
      intro s' hspared hk' t
      have hsame := hspared.items k rfl hk'
      rw [← htimeout t, mem_checkTimeout hspared.linked, mem_checkTimeout hc]
      simp only [hk, hk', true_and]
      refine not_congr (forall_congr' fun node => ?_)
      constructor
      · exact fun h hnode hkey => h ((hsame node hkey).mpr hnode) hkey
      · exact fun h hnode hkey => h ((hsame node hkey).mp hnode) hkey

/-- A key with the deadline 5 is given 100 more at the time 0, and is gone at the time 50. -/
theorem expired_keeps_old_deadline :
    (do let s ← run exec [.set 1 10 5 0] (Tracked.init 0 0 : Tracked Nat Nat)
        let (c, found) ← s.cache.expired 1 100 0
        let kept ← c.get 1
        let late ← (c.checkTimeout 50).1.get 1
        .ok (found, deadlineOf c 1, kept, late)) = .ok (true, some 5, some 10, none) := by
  decide +kernel

end Helens.Ds.TimedCache
