import Helens.HashInvariants
import Helens.Lib.FiniteMap
import Helens.Lib.Stores

/-! `HashMap`: the operations, and runs of them on many maps against finite maps. -/

namespace Helens.Ds.HashMap

open Lib.Runs Lib.SortedVector Lib.FiniteMap Lib.Stores List

variable {K V : Type} [LinearOrder K] (hash : K → Nat) (sorter : Sorter (K × V) Prod.fst)

/-! ## The code -/

def get (t : Table K V) (k : K) : Except HashError (Option V) := do
  let (_, b, it) ← t.locate hash k
  .ok (it.bind fun i => b[i]?.map Prod.snd)

def existsKey (t : Table K V) (k : K) : Except HashError Bool := do
  let (_, _, it) ← t.locate hash k
  .ok it.isSome

def set (t : Table K V) (k : K) (v : V) : Except HashError (Table K V × Bool) := do
  let t ← t.autoRehash hash sorter
  let (pos, b, it) ← t.locate hash k
  match it with
  | none => .ok (t.addNode pos b (k, v), true)
  | some i => .ok (t.writeNode pos b i v, false)

def del (t : Table K V) (k : K) : Except HashError (Table K V × Bool) := do
  let (pos, b, it) ← t.locate hash k
  match it with
  | none => .ok (t, false)
  | some i => .ok (t.removeNode sorter pos b i, true)

/-- The pairs of the other map are copied before the first is set. -/
def merge (t oth : Table K V) : Except HashError (Table K V) := do
  let tmp ← oth.allNodes
  tmp.foldlM (fun t n => do
    let (t', _) ← set hash sorter t n.1 n.2
    .ok t') t

/-! ## Against a finite map -/

structure Agrees (t : Table K V) (m : Finmap fun _ : K => V) : Prop where
  inv : t.Inv hash
  pairs : Represents t.nodes m
  total : t.total = m.keys.card

variable {hash} {sorter} {t oth : Table K V} {m n : Finmap fun _ : K => V}

theorem Agrees.of_inv (h : t.Inv hash) (hpairs : Represents t.nodes m) : Agrees hash t m :=
  ⟨h, hpairs, h.total.trans hpairs.length_eq⟩

theorem Agrees.notMem (h : Agrees hash t m) (hk : k ∉ t.nodes.map Prod.fst) : k ∉ m := by
  rw [← h.pairs.mem_keys]
  exact hk

theorem Agrees.lookup (h : Agrees hash t m) {k : K} {v : V} {p i : Nat} {b : List (K × V)}
    (hb : t.buckets[p]? = some b) (hi : b[i]? = some (k, v)) : m.lookup k = some v :=
  (h.pairs.mem_iff k v).mp (Table.mem_nodes_of_bucket hb (mem_of_getElem? hi))

theorem get_post (h : Agrees hash t m) (k) :
    Post (fun v => v = m.lookup k) Never (get hash t k) := by
  apply (Table.locate_post h.inv k).bind
  intro found hfound
  cases hfound with
  | absent hb hk => exact (Finmap.lookup_eq_none.mpr (h.notMem hk)).symm
  | present hb hi =>
    dsimp only [post_ok, Option.bind_some]
    rw [hi, h.lookup hb hi]
    rfl

theorem existsKey_post (h : Agrees hash t m) (k) :
    Post (fun found => found = decide (k ∈ m)) Never (existsKey hash t k) := by
  apply (Table.locate_post h.inv k).bind
  intro found hfound
  cases hfound with
  | absent hb hk => exact (decide_eq_false (h.notMem hk)).symm
  | present hb hi => exact (decide_eq_true (Finmap.mem_of_lookup_eq_some (h.lookup hb hi))).symm

theorem rehash_post (h : Agrees hash t m) (hlt : m.keys.card < 2 ^ 31) :
    Post (fun t' => Agrees hash t' m) Never (t.rehash hash sorter) := by
  apply (Table.rehash_post h.inv (h.total ▸ hlt)).imp
  rintro t' ⟨hinv, -, hperm⟩
  exact .of_inv hinv (h.pairs.perm hperm)

theorem set_post (h : Agrees hash t m) (k v) (hlt : (m.insert k v).keys.card < 2 ^ 31) :
    Post (fun r => Agrees hash r.1 (m.insert k v) ∧ r.2 = decide (k ∉ m)) Never
      (set hash sorter t k v) := by
  have hsub : m.keys ⊆ (m.insert k v).keys := by
    rw [keys_insert]
    exact Finset.subset_insert _ _
  have hcard : m.keys.card < 2 ^ 31 := lt_of_le_of_lt (Finset.card_le_card hsub) hlt
  rw [set, Table.autoRehash_eq]
  apply (rehash_post h hcard).bind
  intro t h
  apply (Table.locate_post h.inv k).bind
  intro found hfound
  cases hfound with
  | absent hb hk =>
    have hk' := h.notMem hk
    have hsize : t.total + 1 < 2 ^ 31 := by
      rw [card_keys_insert hk'] at hlt
      rw [h.total]
      exact hlt
    obtain ⟨hinv, hperm⟩ := Table.addNode_inv h.inv hb hk hsize v
    exact ⟨.of_inv hinv ((h.pairs.insert hk').perm hperm), (decide_eq_true hk').symm⟩
  | present hb hi =>
    obtain ⟨hinv, rest, hold, hnew⟩ := Table.writeNode_inv h.inv hb hi v
    have hmem : k ∈ m := Finmap.mem_of_lookup_eq_some (h.lookup hb hi)
    have hpairs : Represents ((k, v) :: rest) (m.insert k v) :=
      (h.pairs.perm hold.symm).replace
    exact ⟨.of_inv hinv (hpairs.perm hnew), (decide_eq_false (not_not.mpr hmem)).symm⟩

theorem del_post (h : Agrees hash t m) (k) :
    Post (fun r => Agrees hash r.1 (m.erase k) ∧ r.2 = decide (k ∈ m)) Never
      (del hash sorter t k) := by
  apply (Table.locate_post h.inv k).bind
  intro found hfound
  cases hfound with
  | absent hb hk =>
    have hk' := h.notMem hk
    have herase : m.erase k = m := by
      apply Finmap.ext_lookup
      intro k'
      by_cases heq : k' = k
      · subst heq
        rw [Finmap.lookup_erase, Finmap.lookup_eq_none.mpr hk']
      · exact Finmap.lookup_erase_ne heq
    rw [herase]
    exact ⟨h, (decide_eq_false hk').symm⟩
  | present hb hi =>
    have hmem : k ∈ m := Finmap.mem_of_lookup_eq_some (h.lookup hb hi)
    obtain ⟨hinv, hperm⟩ := Table.removeNode_inv sorter h.inv hb hi
    exact ⟨.of_inv hinv (h.pairs.perm hperm.symm).erase, (decide_eq_true hmem).symm⟩

theorem merge_post (h : Agrees hash t m) (hoth : Agrees hash oth n)
    (hlt : (n ∪ m).keys.card < 2 ^ 31) :
    Post (fun t' => Agrees hash t' (n ∪ m)) Never (merge hash sorter t oth) := by
  rw [merge, hoth.inv.rep.allNodes_eq]
  rw [← hoth.pairs.insertAll_eq m] at hlt ⊢
  -- after each part of the copy, the map has that part inserted
  have hinit : Agrees hash t (insertAll m []) := h
  apply post_foldlM (P := fun es t => Agrees hash t (insertAll m es)) hinit
  intro pre e t hpre ht
  obtain ⟨rest, hrest⟩ := hpre
  have hsub := keys_subset_insertAll rest (insertAll m (pre ++ [e]))
  rw [insertAll, insertAll, ← foldl_append, hrest] at hsub
  have hcard := lt_of_le_of_lt (Finset.card_le_card hsub) hlt
  rw [foldl_append, foldl_cons, foldl_nil] at hcard
  rw [insertAll, foldl_append, foldl_cons, foldl_nil]
  apply (set_post ht e.1 e.2 hcard).bind
  rintro ⟨t', isNew⟩ ⟨ht', -⟩
  exact ht'

/-! ## Runs -/

inductive Action (K V : Type)
  | new (size : Nat)
  | set (i : Nat) (k : K) (v : V)
  | get (i : Nat) (k : K)
  | existsKey (i : Nat) (k : K)
  | del (i : Nat) (k : K)
  | rehash (i : Nat)
  | merge (i j : Nat)

inductive Answer (V : Type)
  | value (v : Option V)
  | flag (b : Bool)
  deriving DecidableEq

variable (hash) (sorter)

def exec : Action K V → Store (Table K V) (Answer V) →
    Except HashError (Store (Table K V) (Answer V))
  | .new size, s => do
    let t ← Table.new size
    .ok (s.make t)
  | .set i k v, s => s.call i fun t => do
    let (t', isNew) ← set hash sorter t k v
    .ok (t', [.flag isNew])
  | .get i k, s => s.call i fun t => do
    let v ← get hash t k
    .ok (t, [.value v])
  | .existsKey i k, s => s.call i fun t => do
    let found ← existsKey hash t k
    .ok (t, [.flag found])
  | .del i k, s => s.call i fun t => do
    let (t', found) ← del hash sorter t k
    .ok (t', [.flag found])
  | .rehash i, s => s.call i fun t => do
    let t' ← t.rehash hash sorter
    .ok (t', [])
  | .merge i j, s =>
    match s.objects[j]? with
    | none => .ok s
    | some oth => s.call i fun t => do
      let t' ← merge hash sorter t oth
      .ok (t', [])

/-! ## What the calls keep -/

def Action.adds (s : Store (Table K V) (Answer V)) : Action K V → Nat
  | .set .. => 1
  | .merge _ j => s.objects[j]?.elim 0 Table.total
  | _ => 0

def Action.Sized : Action K V → Prop
  | .new size => 0 < size ∧ size < 2 ^ 32 ∧ size ≠ 2 ^ 31
  | _ => True

instance : (a : Action K V) → Decidable a.Sized
  | .new size => inferInstanceAs (Decidable (_ ∧ _))
  | .set .. | .get .. | .existsKey .. | .del .. | .rehash .. | .merge .. =>
    inferInstanceAs (Decidable True)

def Room (s : Store (Table K V) (Answer V)) (a : Action K V) : Prop :=
  a.Sized ∧ ∀ t ∈ s.objects, t.total + a.adds s < 2 ^ 31
  deriving Decidable

variable {hash} {sorter} {Q : HashError → Prop} {P : Table K V → Prop}

theorem set_kept (tame : Table.Tame hash sorter Q P) (h : P t) (hlt : t.total + 1 < 2 ^ 31) (k v) :
    Post (fun r => P r.1 ∧ r.1.total ≤ t.total + 1) Q (set hash sorter t k v) := by
  obtain ⟨t', ht', hP, hperm⟩ := tame.rehash h (by omega)
  have htotal : t'.total = t.total := by
    rw [tame.total hP, tame.total h, hperm.length_eq]
  rw [set, Table.autoRehash_eq]
  apply post_bind_ok ht'
  apply tame.post_locate hP
  · intro pos b hl
    obtain ⟨hP', hnew⟩ := tame.add hP hl (by omega) v
    refine ⟨hP', ?_⟩
    rw [tame.total hP', hnew.length_eq, length_cons, ← tame.total hP]
    omega
  · intro pos b i old hl hi
    obtain ⟨hP', -⟩ := tame.write hP hl hi v
    exact ⟨hP', by rw [← htotal]; exact Nat.le_succ _⟩

theorem del_kept (tame : Table.Tame hash sorter Q P) (h : P t) (hlt : t.total < 2 ^ 31) (k) :
    Post (fun r => P r.1) Q (del hash sorter t k) := by
  apply tame.post_locate h
  · exact fun _ _ _ => h
  · intro pos b i old hl hi
    exact (tame.remove h hl hi hlt).1

theorem merge_kept (tame : Table.Tame hash sorter Q P) (h : P t) (hoth : P oth)
    (hlt : t.total + oth.total < 2 ^ 31) : Post P Q (merge hash sorter t oth) := by
  rw [merge, tame.allNodes hoth]
  rw [tame.total hoth] at hlt
  -- each part of the copy adds at most its length
  have hloop : Post (fun t' => P t' ∧ t'.total ≤ t.total + oth.nodes.length) Q
      (oth.nodes.foldlM (fun t n => do
        let (t', _) ← set hash sorter t n.1 n.2
        .ok t') t) := by
    apply post_foldlM (P := fun pre t' => P t' ∧ t'.total ≤ t.total + pre.length)
    · exact ⟨h, Nat.le_refl _⟩
    · rintro pre n t' hpre ⟨ht', hle⟩
      have hlen := hpre.length_le
      rw [length_append, length_singleton] at hlen ⊢
      apply (set_kept tame ht' (by omega) n.1 n.2).bind
      rintro ⟨t'', isNew⟩ ⟨ht'', hle'⟩
      exact ⟨ht'', by dsimp only at hle'; omega⟩
  exact hloop.imp (fun t' ht' => ht'.1)

theorem exec_kept (tame : Table.Tame hash sorter Q P)
    (h : ∀ t ∈ s.objects, P t) (a) (hroom : Room s a) :
    Post (fun s' => ∀ t ∈ s'.objects, P t) Q (exec hash sorter a s) := by
  have hbound : ∀ {i : Nat} {t : Table K V}, s.objects[i]? = some t → t.total + a.adds s < 2 ^ 31 :=
    fun ht => hroom.2 _ (mem_of_getElem? ht)
  cases a with
  | new size =>
    have hpost : Post (fun t : Table K V => t.Inv hash ∧ t.nodes = []) _ _ :=
      Table.new_post hash hroom.1.1 hroom.1.2.2 hroom.1.2.1
    obtain ⟨t, ht, hinv, -⟩ := hpost.exists_ok
    apply post_bind_ok ht
    exact Store.forall_make h (tame.of_inv hinv)
  | set i k v =>
    apply Store.post_call_all h
    intro t hi ht
    apply (set_kept tame ht (hbound hi) k v).bind
    exact fun r hr => hr.1
  | get i k =>
    apply Store.post_call_all h
    intro t _ ht
    have hget : Post (fun _ => True) Q (get hash t k) := (tame.locate ht k).bind fun _ _ => trivial
    apply hget.bind
    exact fun _ _ => ht
  | existsKey i k =>
    apply Store.post_call_all h
    intro t _ ht
    have hfind : Post (fun _ => True) Q (existsKey hash t k) :=
      (tame.locate ht k).bind fun _ _ => trivial
    apply hfind.bind
    exact fun _ _ => ht
  | del i k =>
    apply Store.post_call_all h
    intro t hi ht
    apply (del_kept tame ht (hbound hi) k).bind
    exact fun _ hr => hr
  | rehash i =>
    apply Store.post_call_all h
    intro t hi ht
    obtain ⟨t', ht', hP, -⟩ := tame.rehash ht (hbound hi)
    apply post_bind_ok ht'
    exact hP
  | merge i j =>
    dsimp only [exec]
    cases hj : s.objects[j]? with
    | none => exact h
    | some oth =>
      have hadds : Action.adds s (.merge i j : Action K V) = oth.total := by
        rw [Action.adds, hj]
        rfl
      apply Store.post_call_all h
      intro t hi ht
      have hlt := hbound hi
      rw [hadds] at hlt
      apply (merge_kept tame ht (h oth (mem_of_getElem? hj)) hlt).bind
      exact fun _ hr => hr

variable (hash) (sorter)

/-! ## Runs against finite maps -/

def expected : Action K V → Store (Finmap fun _ : K => V) (Answer V) →
    Store (Finmap fun _ : K => V) (Answer V)
  | .new _, r => r.make ∅
  | .set i k v, r => r.reply i fun m => (m.insert k v, [.flag (decide (k ∉ m))])
  | .get i k, r => r.reply i fun m => (m, [.value (m.lookup k)])
  | .existsKey i k, r => r.reply i fun m => (m, [.flag (decide (k ∈ m))])
  | .del i k, r => r.reply i fun m => (m.erase k, [.flag (decide (k ∈ m))])
  | .rehash i, r => r.reply i fun m => (m, [])
  | .merge i j, r =>
    match r.objects[j]? with
    | none => r
    | some n => r.reply i fun m => (n ∪ m, [])

abbrev Sides (K V : Type) :=
  Store (Table K V) (Answer V) × Store (Finmap fun _ : K => V) (Answer V)

def step (a : Action K V) (x : Sides K V) : Except HashError (Sides K V) :=
  beside (exec hash sorter) expected a x

def start : Sides K V := (.empty, .empty)

def Small (r : Store (Finmap fun _ : K => V) (Answer V)) : Prop :=
  ∀ m ∈ r.objects, m.keys.card < 2 ^ 31
  deriving Decidable

def Fits (x : Sides K V) (a : Action K V) : Prop := a.Sized ∧ Small (expected a x.2)
  deriving Decidable

variable {hash} {sorter}

variable (hash) (sorter) in
theorem exec_post (h : s.Matches (Agrees hash) r)
    (hsmall : Small r) (a : Action K V) (hsized : a.Sized) (hafter : Small (expected a r)) :
    Post (fun s' => s'.Matches (Agrees hash) (expected a r)) Never (exec hash sorter a s) := by
  -- what a call leaves behind is among the maps after it
  have hreply : ∀ {i : Nat} {m : Finmap fun _ : K => V} (g : _ → _ × List (Answer V)),
      r.objects[i]? = some m → expected a r = r.reply i g → (g m).1.keys.card < 2 ^ 31 := by
    intro i m g hm heq
    apply hafter
    rw [heq, Store.reply, hm]
    exact mem_set (List.getElem?_eq_some_iff.mp hm).1 _
  have hbefore : ∀ {i : Nat} {m : Finmap fun _ : K => V}, r.objects[i]? = some m →
      m.keys.card < 2 ^ 31 := fun hm => hsmall _ (mem_of_getElem? hm)
  cases a with
  | new size =>
    apply (Table.new_post hash hsized.1 hsized.2.2 hsized.2.1).bind
    rintro t ⟨hinv, hnil⟩
    apply h.make
    apply Agrees.of_inv hinv
    rw [hnil]
    exact Represents.nil
  | set i k v =>
    apply h.call
    intro t m _ hm hagrees
    apply (set_post hagrees k v (hreply _ hm rfl)).bind
    rintro ⟨t', isNew⟩ ⟨ht', rfl⟩
    exact ⟨ht', rfl⟩
  | get i k =>
    apply h.call
    intro t m _ _ hagrees
    apply (get_post hagrees k).bind
    rintro _ rfl
    exact ⟨hagrees, rfl⟩
  | existsKey i k =>
    apply h.call
    intro t m _ _ hagrees
    apply (existsKey_post hagrees k).bind
    rintro _ rfl
    exact ⟨hagrees, rfl⟩
  | del i k =>
    apply h.call
    intro t m _ hm hagrees
    apply (del_post hagrees k).bind
    rintro ⟨t', found⟩ ⟨ht', rfl⟩
    exact ⟨ht', rfl⟩
  | rehash i =>
    apply h.call
    intro t m _ hm hagrees
    apply (rehash_post hagrees (hbefore hm)).bind
    intro t' ht'
    exact ⟨ht', rfl⟩
  | merge i j =>
    dsimp only [exec]
    cases hj : s.objects[j]? with
    | none =>
      have hnone : r.objects[j]? = none := by
        rw [List.getElem?_eq_none_iff] at hj ⊢
        rwa [← h.length]
      dsimp only [expected]
      rw [hnone]
      exact h
    | some oth =>
      obtain ⟨n, hn, hoth⟩ := h.exists_right hj
      have hexpected : expected (.merge i j) r = r.reply i fun m => (n ∪ m, []) := by
        dsimp only [expected]
        rw [hn]
      rw [hexpected]
      apply h.call
      intro t m _ hm hagrees
      apply (merge_post hagrees hoth (hreply _ hm hexpected)).bind
      intro t' ht'
      exact ⟨ht', rfl⟩

variable (hash) (sorter) in
theorem step_post (h : x.1.Matches (Agrees hash) x.2 ∧ Small x.2)
    (a) (hfits : Fits x a) :
    Post (fun y => y.1.Matches (Agrees hash) y.2 ∧ Small y.2) Never (step hash sorter a x) := by
  apply (exec_post hash sorter h.1 h.2 a hfits.1 hfits.2).bind
  intro s hs
  exact ⟨hs, hfits.2⟩

/-- The maps answer as finite maps do, in every run that keeps them small: every bucket is in
order with its own keys, and the total counts the keys. -/
theorem runs_agree (acts : List (Action K V)) (h : Along (step hash sorter) Fits acts start) :
    Post (fun x => x.1.Matches (Agrees hash) x.2) (fun _ => False)
      (run (step hash sorter) acts start) := by
  have hstart : (start : Sides K V).1.Matches (Agrees hash) start.2 ∧ Small (start : Sides K V).2 :=
    ⟨Store.Matches.empty, fun m hm => absurd hm not_mem_nil⟩
  have hrun := post_run (fun x a hx ha => step_post hash sorter hx a ha) acts start h hstart
  exact hrun.imp (fun x hx => hx.1)

def mergedRun : List (Action Nat Nat) :=
  [.new 1, .set 0 5 10, .set 0 1 20, .set 0 5 30, .new 3, .merge 1 0, .del 0 5, .get 0 5,
    .get 1 5, .rehash 1, .existsKey 1 1]

theorem mergedRun_fits : Along (step (· % 4) (.insertion Prod.fst)) Fits mergedRun start := by
  decide +kernel

theorem runs_agree_merged : Along (step (· % 4) (.insertion Prod.fst)) Fits mergedRun start ∧
    Post (fun x => x.1.Matches (Agrees (· % 4)) x.2) (fun _ => False)
      (run (step (· % 4) (.insertion Prod.fst)) mergedRun start) := by
  refine ⟨mergedRun_fits, ?_⟩
  apply runs_agree
  exact mergedRun_fits

/-! ## The limits -/

def filling (n : Nat) : List (Action Nat Unit) :=
  .new 1 :: (List.range n).map fun i => .set 0 (i + 1) ()

structure Filled (n : Nat) (x : Sides Nat Unit) (m : Finmap fun _ : Nat => Unit) : Prop where
  agree : x.1.Matches (Agrees fun _ => 0) x.2
  maps : x.2.objects = [m]
  card : m.keys.card = n
  keys : ∀ k ∈ m, 0 < k ∧ k ≤ n

variable {n : Nat} {m : Finmap fun _ : Nat => Unit} {sorter : Sorter (Nat × Unit) Prod.fst}

theorem Filled.small (h : Filled n x m) (hn : n < 2 ^ 31) : Small x.2 := by
  intro m' hm'
  rw [h.maps, mem_singleton] at hm'
  rw [hm', h.card]
  exact hn

theorem Filled.set_post (h : Filled n x m) (hn : n + 1 < 2 ^ 31) :
    Post (fun y => ∃ m', Filled (n + 1) y m') Never
      (step (fun _ => 0) sorter (.set 0 (n + 1) ()) x) := by
  have hnew : n + 1 ∉ m := fun hmem => absurd (h.keys _ hmem).2 (by omega)
  have hmaps : (expected (.set 0 (n + 1) ()) x.2).objects = [m.insert (n + 1) ()] := by
    simp [expected, Store.reply, h.maps]
  have hcard : (m.insert (n + 1) ()).keys.card = n + 1 := by
    rw [card_keys_insert hnew, h.card]
  have hsmall : Small (expected (.set 0 (n + 1) ()) x.2) := by
    intro m' hm'
    rw [hmaps, mem_singleton] at hm'
    rw [hm', hcard]
    exact hn
  apply (exec_post (fun _ => 0) sorter h.agree (h.small (by omega)) (.set 0 (n + 1) ()) trivial
    hsmall).bind
  intro s hs
  refine ⟨_, hs, hmaps, hcard, ?_⟩
  intro k hk
  rcases Finmap.mem_insert.mp hk with rfl | hk
  · omega
  · have hle := h.keys k hk
    omega

theorem filling_post (hn : n < 2 ^ 31) :
    Post (fun x => ∃ m, Filled n x m) Never (run (step (fun _ => 0) sorter) (filling n) start) := by
  have hnew := exec_post (fun _ => 0) sorter (V := Unit) Store.Matches.empty
    (fun m hm => absurd hm not_mem_nil) (.new 1) (by decide) (by decide)
  apply (hnew.bind fun s hs => ?_ : Post (fun x => ∃ m, Filled 0 x m) _ _).bind
  · rintro x hx
    apply post_run_range hx
    rintro i y hi ⟨m, hm⟩
    exact hm.set_post (by omega)
  · exact ⟨∅, hs, rfl, rfl, fun k hk => absurd hk Finmap.notMem_empty⟩

/-- A key that comes as the 2³¹st node of its bucket is left at the end of it, and is not
found again. -/
theorem set_at_limit {t : Table Nat Unit}
    (h : Agrees (fun _ => 0) t m) (hpos : ∀ k ∈ m, 0 < k)
    (hcard : m.keys.card = 2 ^ 31 - 1) :
    Post (fun r => existsKey (fun _ => 0) r.1 0 = .ok false) Never
      (set (fun _ => 0) sorter t 0 ()) := by
  rw [set, Table.autoRehash_eq]
  apply (rehash_post h (by omega)).bind
  intro t h
  apply (Table.locate_post h.inv 0).bind
  intro found hfound
  cases hfound with
  | present hb hi =>
    have hmem : 0 ∈ m := Finmap.mem_of_lookup_eq_some (h.lookup hb hi)
    exact absurd (hpos 0 hmem) (lt_irrefl 0)
  | absent hb hk =>
    have hkeys : ∀ n ∈ t.nodes, 0 < n.1 := by
      intro n hn
      apply hpos
      rw [← h.pairs.mem_keys]
      exact mem_map_of_mem hn
    obtain ⟨pos, b', hlocate⟩ :=
      Table.locate_addNode_limit h.inv hkeys (h.total.trans hcard) hb ()
    rw [post_ok, existsKey, hlocate]
    rfl

theorem Filled.last_key_lost (h : Filled n x m) (hn : n = 2 ^ 31 - 1) :
    Post (fun y => y.1.answers ≠ y.2.answers) Never
      (run (step (fun _ => 0) sorter) [.set 0 0 (), .existsKey 0 0] x) := by
  obtain ⟨t, hget, hagrees⟩ := h.agree.exists_left h.maps
  have hset : Post (fun s => ∃ t', s.objects[0]? = some t' ∧
      existsKey (fun _ => 0) t' 0 = .ok false) Never
      (exec (fun _ => 0) sorter (.set 0 0 ()) x.1) := by
    apply Store.post_call_at hget
    apply (set_at_limit hagrees (fun k hk => (h.keys k hk).1) (h.card.trans hn)).bind
    exact fun _ hlost => hlost
  have hexpected : (expected (.existsKey 0 0) (expected (.set 0 0 ()) x.2)).answers.getLast? =
      some (.flag true) := by
    simp [expected, Store.reply, h.maps, Finmap.mem_insert]
  apply post_beside_last hset (u := .flag false) _ hexpected (by decide)
  rintro s ⟨t', ht', hlost⟩
  apply Store.post_call ht'
  rw [hlost]
  exact getLast?_concat

/-- 2³¹ has no absolute value in `int`, and with 2³¹ keys in one bucket the last key is never found.
-/
theorem runs_disagree :
    run (step (fun _ => 0) (.insertion Prod.fst)) [.new (2 ^ 31)] (start : Sides Nat Unit) =
      .error .undefinedBasket ∧
    Post (fun x => x.1.answers ≠ x.2.answers) (fun _ => False)
      (run (step (fun _ => 0) (.insertion Prod.fst))
        (filling (2 ^ 31 - 1) ++ [Action.set 0 0 (), .existsKey 0 0]) start) := by
  constructor
  · rfl
  · generalize hn : 2 ^ 31 - 1 = n
    rw [run_append]
    apply (filling_post (by omega)).bind
    rintro x ⟨m, hm⟩
    exact hm.last_key_lost hn.symm

end Helens.Ds.HashMap
