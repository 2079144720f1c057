import Helens.HashMultimap
import Mathlib.Data.Finset.Sort

/-! `HashMultimap` against finite maps from keys to finite sets of values, in the runs of
`insert(k, v)`, `del(k)` and `rehash`. -/

namespace Helens.Ds.HashMultimap

open Lib.Runs Lib.SortedVector Lib.FiniteMap Lib.Stores List

variable {K V : Type} [LinearOrder K] [LinearOrder V] (hash : K → Nat)
  {sorter : Sorter (K × Values V) Prod.fst} {vsorter : Sorter V id}

abbrev Sets (K V : Type) := Finmap fun _ : K => Finset V

def setOf (m : Sets K V) (k : K) : Finset V := (m.lookup k).getD ∅

def setWith (m : Sets K V) (k : K) (v : V) : Finset V := Insert.insert v (setOf m k)

structure Agrees (h : HashMultimap K V) (m : Sets K V) : Prop where
  sound : h.Sound hash
  strict : ∀ e ∈ h.entries, Strict id e.2
  pairs : Represents (h.entries.map fun e => (e.1, e.2.toFinset)) m

variable {hash} {h : HashMultimap K V} {m : Sets K V} {k : K} {v : V}

theorem Agrees.lookup_eq (ha : Agrees hash h m) (k) :
    m.lookup k = (valueOf h.entries k).map toFinset := by
  apply Option.ext
  intro s
  rw [← ha.pairs.mem_iff, mem_map, Option.map_eq_some_iff]
  constructor
  · rintro ⟨e, he, heq⟩
    obtain ⟨rfl, rfl⟩ := Prod.mk.inj heq
    exact ⟨e.2, (valueOf_eq_some_iff ha.sound.table.nodup).mpr he, rfl⟩
  · rintro ⟨vs, hvs, rfl⟩
    exact ⟨(k, vs), (valueOf_eq_some_iff ha.sound.table.nodup).mp hvs, rfl⟩

variable {vs : List V}

theorem Agrees.strict_of_valueOf (ha : Agrees hash h m)
    (hvs : valueOf h.entries k = some vs) : Strict id vs :=
  ha.strict (k, vs) ((valueOf_eq_some_iff ha.sound.table.nodup).mp hvs)

theorem length_eq_card (hvs : Strict id vs) : vs.length = vs.toFinset.card := by
  have hnodup := hvs.nodup
  rw [map_id] at hnodup
  exact (toFinset_card_of_nodup hnodup).symm

theorem sort_toFinset_of_strict (hvs : Strict id vs) : vs.toFinset.sort = vs := by
  have hnodup := hvs.nodup
  rw [map_id] at hnodup
  exact (toFinset_sort (· ≤ ·) hnodup).mpr (hvs.imp fun hab => hab.le)

theorem search_isSome_iff (hvs : Strict id vs) :
    (search id vs v).isSome = decide (v ∈ vs.toFinset) := by
  rw [Bool.eq_iff_iff, decide_eq_true_iff, mem_toFinset, ← not_iff_not]
  rw [Bool.not_eq_true, Option.isSome_eq_false_iff, Option.isNone_iff_eq_none,
    search_eq_none_iff hvs, map_id]

/-! ## The operations -/

theorem inserted_strict (ha : Agrees hash h m) (hroom : (setWith m k v).card < 2 ^ 31) :
    Strict id (inserted v (valueOf h.entries k)) ∧
      (inserted v (valueOf h.entries k)).toFinset = setWith m k v := by
  cases hvs : valueOf h.entries k with
  | none =>
    have hset : setOf m k = ∅ := by rw [setOf, ha.lookup_eq, hvs]; rfl
    rw [setWith, hset]
    exact ⟨pairwise_singleton _ _, rfl⟩
  | some vs =>
    have hset : setOf m k = vs.toFinset := by rw [setOf, ha.lookup_eq, hvs]; rfl
    have hstrict := ha.strict_of_valueOf hvs
    rw [setWith, hset] at hroom ⊢
    rw [inserted, search_isSome_iff hstrict]
    split
    · next hin =>
      exact ⟨hstrict, (Finset.insert_eq_of_mem (of_decide_eq_true hin)).symm⟩
    · next hout =>
      have hv : v ∉ vs.toFinset := fun hin => hout (decide_eq_true hin)
      have hlen : vs.length + 1 < 2 ^ 31 := by
        rw [Finset.card_insert_of_notMem hv, ← length_eq_card hstrict] at hroom
        exact hroom
      have hv' : id v ∉ vs.map id := by
        rw [map_id]
        exact fun hin => hv (mem_toFinset.mpr hin)
      rw [sortLast_eq hstrict.sorted v hlen]
      refine ⟨placed_strict hstrict hv', ?_⟩
      ext w
      rw [mem_toFinset, (placed_perm vs v).mem_iff, mem_append, mem_singleton,
        Finset.mem_insert, mem_toFinset]
      exact or_comm

variable (hash) in
theorem Agrees.new_post (hsize : 0 < size ∧ size < 2 ^ 32 ∧ size ≠ 2 ^ 31) :
    Post (fun h : HashMultimap K V => Agrees hash h ∅) Never (new size) := by
  apply (Ds.Sound.new_post hash [] hsize.1 hsize.2.2 hsize.2.1).bind
  rintro t ⟨ht, hnil⟩
  have hentries : entries (⟨t, 0, [], false⟩ : HashMultimap K V) = [] := hnil
  refine ⟨⟨ht, Nat.two_pow_pos 64⟩, ?_, ?_⟩
  · rw [hentries]
    exact fun e he => absurd he not_mem_nil
  · rw [hentries]
    exact Represents.nil

theorem Agrees.insert_post (ha : Agrees hash h m)
    (hkeys : (m.insert k (setWith m k v)).keys.card < 2 ^ 31)
    (hroom : (setWith m k v).card < 2 ^ 31) :
    Post (fun h' => Agrees hash h' (m.insert k (setWith m k v))) Never
      (HashMultimap.insert hash sorter h k v) := by
  have htotal : k ∉ h.entries.map Prod.fst → h.table.total + 1 < 2 ^ 31 := by
    intro hk
    have hcard := ha.pairs.length_eq
    rw [length_map, entries, ha.sound.table.length_contents] at hcard
    have hkm : k ∉ m.keys := by
      rw [Finmap.mem_keys, ← ha.pairs.mem_keys, map_map]
      exact hk
    rw [keys_insert, Finset.card_insert_of_notMem hkm] at hkeys
    omega
  have hlength : ∀ vs, (k, vs) ∈ h.entries → (search id vs v).isSome = false →
      vs.length + 1 < 2 ^ 31 := by
    intro vs hmem hnone
    have hvs : valueOf h.entries k = some vs := (valueOf_eq_some_iff ha.sound.table.nodup).mpr hmem
    have hset : setOf m k = vs.toFinset := by rw [setOf, ha.lookup_eq, hvs]; rfl
    have hstrict := ha.strict_of_valueOf hvs
    rw [search_isSome_iff hstrict] at hnone
    rw [setWith, hset, Finset.card_insert_of_notMem (of_decide_eq_false hnone),
      ← length_eq_card hstrict] at hroom
    exact hroom
  apply (HashMultimap.insert_post ha.sound htotal hlength).imp
  rintro h' ⟨hs, before, hupdate, -⟩
  have hbefore := hupdate.valueOf_eq ha.sound.table.nodup
  obtain ⟨hstrict, hset⟩ := inserted_strict (v := v) ha hroom
  rw [hbefore] at hstrict hset
  refine ⟨hs, ?_, ?_⟩
  · apply hupdate.forall_mem ha.strict
    rintro vs ⟨⟩
    exact hstrict
  · have hpairs := ha.pairs.update_insert (hupdate.map toFinset)
    rw [hset] at hpairs
    exact hpairs

theorem Agrees.del_post (ha : Agrees hash h m) :
    Post (fun r => Agrees hash r.1 (m.erase k) ∧ r.2 = decide (k ∈ m)) Never
      (del hash sorter h k) := by
  apply (HashMultimap.del_post ha.sound).imp
  rintro ⟨h', found⟩ ⟨hs, before, hupdate, hfound, -⟩
  refine ⟨⟨hs, ?_, ha.pairs.update_erase (hupdate.map toFinset)⟩, ?_⟩
  · exact hupdate.forall_mem ha.strict fun v hv => nomatch hv
  · have hlookup := ha.pairs.lookup_of_update (hupdate.map toFinset)
    rw [show found = before.isSome from hfound, Bool.eq_iff_iff, decide_eq_true_iff,
      ← Finmap.lookup_isSome, hlookup, Option.isSome_map]

theorem Agrees.rehash_post (ha : Agrees hash h m) :
    Post (fun h' => Agrees hash h' m) Never (rehash hash sorter h) := by
  apply (HashMultimap.rehash_post ha.sound).imp
  rintro h' ⟨hs, hperm, -⟩
  refine ⟨hs, ?_, ha.pairs.perm (hperm.map _)⟩
  exact fun e he => ha.strict e (hperm.mem_iff.mp he)

theorem Agrees.get_post (ha : Agrees hash h m) :
    Post (fun vs => vs = (m.lookup k).map fun s => s.sort) Never (get hash h k) := by
  apply (HashMultimap.get_post ha.sound).imp
  rintro _ rfl
  rw [ha.lookup_eq]
  cases hvs : valueOf h.entries k with
  | none => rfl
  | some vs =>
    rw [Option.map_some, Option.map_some, sort_toFinset_of_strict (ha.strict_of_valueOf hvs)]

theorem Agrees.existsKey_post (ha : Agrees hash h m) :
    Post (fun found => found = decide (k ∈ m)) Never (existsKey hash h k) := by
  apply (HashMultimap.existsKey_post ha.sound).imp
  rintro _ rfl
  rw [Bool.eq_iff_iff, decide_eq_true_iff, ← Finmap.lookup_isSome, ha.lookup_eq,
    Option.isSome_map]

theorem Agrees.existsValue_post (ha : Agrees hash h m) :
    Post (fun found => found = decide (v ∈ setOf m k)) Never (existsValue hash h k v) := by
  apply (HashMultimap.existsValue_post ha.sound).imp
  rintro _ rfl
  rw [setOf, ha.lookup_eq]
  cases hvs : valueOf h.entries k with
  | none => rfl
  | some vs => exact search_isSome_iff (ha.strict_of_valueOf hvs)

/-! ## Runs -/

def Action.Plain : Action K V → Prop
  | .insertArray .. | .set .. | .delValue .. => False
  | _ => True

instance : (a : Action K V) → Decidable a.Plain
  | .insertArray .. | .set .. | .delValue .. => inferInstanceAs (Decidable False)
  | .new .. | .get .. | .existsKey .. | .existsValue .. | .insert .. | .del .. | .rehash .. =>
    inferInstanceAs (Decidable True)

def expected : Action K V → Store (Sets K V) (Answer V) → Store (Sets K V) (Answer V)
  | .new _, r => r.make ∅
  | .get i k, r => r.reply i fun m => (m, [.values ((m.lookup k).map fun s => s.sort)])
  | .existsKey i k, r => r.reply i fun m => (m, [.flag (decide (k ∈ m))])
  | .existsValue i k v, r => r.reply i fun m => (m, [.flag (decide (v ∈ setOf m k))])
  | .insert i k v, r => r.reply i fun m => (m.insert k (setWith m k v), [.flag true])
  | .del i k, r => r.reply i fun m => (m.erase k, [.flag (decide (k ∈ m))])
  | .rehash i, r => r.reply i fun m => (m, [])
  | .insertArray .., r | .set .., r | .delValue .., r => r

abbrev Sides (K V : Type) := Store (HashMultimap K V) (Answer V) × Store (Sets K V) (Answer V)

def step [Inhabited V] (hash : K → Nat) (sorter : Sorter (K × Values V) Prod.fst)
    (vsorter : Sorter V id) (a : Action K V) (x : Sides K V) : Except HashError (Sides K V) :=
  beside (exec hash sorter vsorter) expected a x

def start : Sides K V := (.empty, .empty)

def Small (r : Store (Sets K V) (Answer V)) : Prop :=
  ∀ m ∈ r.objects, m.keys.card < 2 ^ 31 ∧ ∀ k ∈ m.keys, (setOf m k).card < 2 ^ 31
  deriving Decidable

def Fits (x : Sides K V) (a : Action K V) : Prop :=
  a.Plain ∧ a.Sized ∧ Small (expected a x.2)
  deriving Decidable

variable (hash) (sorter) (vsorter) in
theorem exec_post [Inhabited V] (hs : s.Matches (Agrees hash) r) (a : Action K V)
    (hplain : a.Plain) (hsized : a.Sized) (hsmall : Small (expected a r)) :
    Post (fun s' => s'.Matches (Agrees hash) (expected a r)) Never
      (exec hash sorter vsorter a s) := by
  cases a with
  | new size =>
    apply (Agrees.new_post hash hsized).bind
    intro h hh
    exact hs.make hh
  | get i k =>
    apply hs.call
    intro h m _ _ ha
    apply (ha.get_post (k := k)).bind
    rintro _ rfl
    exact ⟨ha, rfl⟩
  | existsKey i k =>
    apply hs.call
    intro h m _ _ ha
    apply (ha.existsKey_post (k := k)).bind
    rintro _ rfl
    exact ⟨ha, rfl⟩
  | existsValue i k v =>
    apply hs.call
    intro h m _ _ ha
    apply (ha.existsValue_post (k := k) (v := v)).bind
    rintro _ rfl
    exact ⟨ha, rfl⟩
  | insert i k v =>
    apply hs.call
    intro h m _ hm ha
    -- the map after the call is among the small ones
    have hmem : m.insert k (setWith m k v) ∈ (expected (.insert i k v) r).objects := by
      rw [expected, Store.reply, hm]
      exact mem_set (List.getElem?_eq_some_iff.mp hm).1 _
    obtain ⟨hkeys, hsets⟩ := hsmall _ hmem
    have hroom : (setWith m k v).card < 2 ^ 31 := by
      have hk : k ∈ (m.insert k (setWith m k v)).keys := by
        rw [keys_insert]
        exact Finset.mem_insert_self _ _
      have hcard := hsets k hk
      rw [setOf, Finmap.lookup_insert] at hcard
      exact hcard
    apply (ha.insert_post hkeys hroom).bind
    intro h' ha'
    exact ⟨ha', rfl⟩
  | del i k =>
    apply hs.call
    intro h m _ _ ha
    apply (ha.del_post (k := k)).bind
    rintro ⟨h', found⟩ ⟨ha', rfl⟩
    exact ⟨ha', rfl⟩
  | rehash i =>
    apply hs.call
    intro h m _ _ ha
    apply ha.rehash_post.bind
    intro h' ha'
    exact ⟨ha', rfl⟩
  | insertArray i k vs => exact hplain.elim
  | set i k vs => exact hplain.elim
  | delValue i k v memory => exact hplain.elim

theorem step_post [Inhabited V] {x : Sides K V} (hx : x.1.Matches (Agrees hash) x.2)
    (a) (hfits : Fits x a) :
    Post (fun y => y.1.Matches (Agrees hash) y.2) Never (step hash sorter vsorter a x) := by
  apply (exec_post hash sorter vsorter hx a hfits.1 hfits.2.1 hfits.2.2).bind
  intro s hs
  exact hs

/-- The maps answer as maps to sets do, in every run that keeps them small, and every array
is in order without duplicates. -/
theorem runs_agree_with_sets [Inhabited V] (acts : List (Action K V))
    (h : Along (step hash sorter vsorter) Fits acts start) :
    Post (fun x => x.1.Matches (Agrees hash) x.2) (fun _ => False)
      (run (step hash sorter vsorter) acts start) :=
  post_run (fun _ a hx ha => step_post hx a ha) acts start h Store.Matches.empty

def plainRun : List (Action Nat Nat) :=
  [.new 1, .insert 0 5 30, .insert 0 5 20, .insert 0 5 30, .insert 0 1 7, .get 0 5, .del 0 1,
    .existsKey 0 1, .existsValue 0 5 20, .rehash 0]

theorem plainRun_fits :
    Along (step (· % 4) (.insertion Prod.fst) (.insertion id)) Fits plainRun start := by
  decide +kernel

theorem runs_agree_with_sets_two :
    Along (step (· % 4) (.insertion Prod.fst) (.insertion id)) Fits plainRun start ∧
    Post (fun x => x.1.Matches (Agrees (· % 4)) x.2) (fun _ => False)
      (run (step (· % 4) (.insertion Prod.fst) (.insertion id)) plainRun start) := by
  refine ⟨plainRun_fits, ?_⟩
  apply runs_agree_with_sets
  exact plainRun_fits

/-! ## The limits -/

def filling (n : Nat) : List (Action Nat Nat) :=
  .new 1 :: (List.range n).map fun i => .insert 0 (i + 1) 0

structure Filled (n : Nat) (x : Sides Nat Nat) (m : Sets Nat Nat) : Prop where
  agree : x.1.Matches (Agrees fun _ => 0) x.2
  maps : x.2.objects = [m]
  card : m.keys.card = n
  keys : ∀ k ∈ m, 0 < k ∧ k ≤ n ∧ m.lookup k = some {0}

section
variable {sorter : Sorter (Nat × Values Nat) Prod.fst} {vsorter : Sorter Nat id} {n : Nat}
  {x : Sides Nat Nat} {m : Sets Nat Nat}

theorem Filled.insert_post (h : Filled n x m) (hn : n + 1 < 2 ^ 31) :
    Post (fun y => ∃ m', Filled (n + 1) y m') Never
      (step (fun _ => 0) sorter vsorter (.insert 0 (n + 1) 0) x) := by
  have hnew : n + 1 ∉ m := fun hmem => absurd (h.keys _ hmem).2.1 (by omega)
  have hset : setWith m (n + 1) 0 = {0} := by
    rw [setWith, setOf, Finmap.lookup_eq_none.mpr hnew]
    rfl
  have hmaps : (expected (.insert 0 (n + 1) 0) x.2).objects = [m.insert (n + 1) {0}] := by
    rw [← hset]
    simp [expected, Store.reply, h.maps]
  have hcard : (m.insert (n + 1) {0}).keys.card = n + 1 := by
    rw [card_keys_insert hnew, h.card]
  have hkeys : ∀ k ∈ m.insert (n + 1) {0},
      0 < k ∧ k ≤ n + 1 ∧ (m.insert (n + 1) {0}).lookup k = some {0} := by
    intro k hk
    by_cases heq : k = n + 1
    · subst heq
      exact ⟨Nat.succ_pos n, le_refl _, Finmap.lookup_insert m⟩
    · have hkm := (Finmap.mem_insert.mp hk).resolve_left heq
      obtain ⟨hpos, hle, hlookup⟩ := h.keys k hkm
      exact ⟨hpos, by omega, (Finmap.lookup_insert_of_ne m heq).trans hlookup⟩
  have hsmall : Small (expected (.insert 0 (n + 1) 0) x.2) := by
    intro m' hm'
    rw [hmaps, mem_singleton] at hm'
    subst hm'
    refine ⟨by omega, fun k hk => ?_⟩
    rw [setOf, (hkeys k (Finmap.mem_keys.mp hk)).2.2]
    decide
  apply (exec_post (fun _ => 0) sorter vsorter h.agree (.insert 0 (n + 1) 0) trivial trivial
    hsmall).bind
  intro s hs
  exact ⟨_, hs, hmaps, hcard, hkeys⟩

theorem filling_post (hn : n < 2 ^ 31) : Post (fun x => ∃ m, Filled n x m) Never
      (run (step (fun _ => 0) sorter vsorter) (filling n) start) := by
  have hnew := exec_post (fun _ => 0) sorter vsorter
    Store.Matches.empty (.new 1) trivial (by decide) (by decide)
  apply (hnew.bind fun s hs => ?_ : Post (fun x => ∃ m, Filled 0 x m) _ _).bind
  · rintro x hx
    apply post_run_range hx
    rintro i y hi ⟨m, hm⟩
    exact hm.insert_post (by omega)
  · exact ⟨∅, hs, rfl, rfl, fun k hk => absurd hk Finmap.notMem_empty⟩

theorem insert_at_limit {h : HashMultimap Nat Nat} (ha : Agrees (fun _ => 0) h m)
    (hpos : ∀ k ∈ m, 0 < k) (hcard : m.keys.card = 2 ^ 31 - 1) :
    Post (fun h' => existsKey (fun _ => 0) h' 0 = .ok false) Never
      (HashMultimap.insert (fun _ => 0) sorter h 0 0) := by
  have hmem : ∀ k, k ∈ h.entries.map Prod.fst → k ∈ m := by
    intro k hk
    rw [← ha.pairs.mem_keys, map_map]
    exact hk
  have htotal : h.table.total = 2 ^ 31 - 1 := by
    rw [← hcard, ← ha.pairs.length_eq, length_map, entries, ha.sound.table.length_contents]
  rw [HashMultimap.insert, Table.autoRehash_eq]
  apply (ha.sound.table.rehash_post sorter).bind
  rintro t ⟨ht, hperm⟩
  have hkeys : ∀ n ∈ t.nodes, 0 < n.1 := by
    intro n hn
    apply hpos
    apply hmem
    have hin : n.1 ∈ (contents h.values t).map Prod.fst := by
      rw [keys_contents]
      exact mem_map_of_mem hn
    exact (hperm.map Prod.fst).mem_iff.mp hin
  have htotal' : t.total = 2 ^ 31 - 1 := by
    rw [← htotal, ← ht.length_contents, hperm.length_eq, ha.sound.table.length_contents]
  apply (Table.locate_post ht.inv 0).bind
  intro found hfound
  cases hfound with
  | present hb hi =>
    have hzero := hkeys _ (Table.mem_nodes_of_bucket hb (mem_of_getElem? hi))
    exact absurd hzero (lt_irrefl 0)
  | absent hb hk =>
    obtain ⟨pos, b', hlocate⟩ :=
      Table.locate_addNode_limit ht.inv hkeys htotal' hb ⟨1, .own [0]⟩
    rw [post_ok, existsKey, hlocate]
    rfl

theorem Filled.last_key_lost (h : Filled n x m) (hn : n = 2 ^ 31 - 1) :
    Post (fun y => y.1.answers ≠ y.2.answers) Never
      (run (step (fun _ => 0) sorter vsorter) [.insert 0 0 0, .existsKey 0 0] x) := by
  obtain ⟨g, hget, hagrees⟩ := h.agree.exists_left h.maps
  have hinsert : Post (fun s => ∃ g', s.objects[0]? = some g' ∧
      existsKey (fun _ => 0) g' 0 = .ok false) Never
      (exec (fun _ => 0) sorter vsorter (.insert 0 0 0) x.1) := by
    apply Store.post_call_at hget
    apply (insert_at_limit hagrees (fun k hk => (h.keys k hk).1) (h.card.trans hn)).bind
    exact fun _ hlost => hlost
  have hexpected : (expected (.existsKey 0 0) (expected (.insert 0 0 0) x.2)).answers.getLast? =
      some (.flag true) := by
    simp [expected, Store.reply, h.maps, Finmap.mem_insert]
  apply post_beside_last hinsert (u := .flag false) _ hexpected (by decide)
  rintro s ⟨g', hg', hlost⟩
  apply Store.post_call hg'
  rw [hlost]
  exact getLast?_concat

end

/-- A size of 0 has no logarithm. With 2³¹ keys in one bucket, the last key is never found. -/
theorem runs_disagree_with_sets :
    run (step (fun _ => 0) (.insertion Prod.fst) (.insertion id)) [.new 0]
      (start : Sides Nat Nat) = .error .undefinedBasket ∧
    Post (fun x => x.1.answers ≠ x.2.answers) (fun _ => False)
      (run (step (fun _ => 0) (.insertion Prod.fst) (.insertion id))
        (filling (2 ^ 31 - 1) ++ [Action.insert 0 0 0, .existsKey 0 0]) start) := by
  constructor
  · rfl
  · generalize hn : 2 ^ 31 - 1 = n
    rw [run_append]
    apply (filling_post (by omega)).bind
    rintro x ⟨m, hm⟩
    exact hm.last_key_lost hn.symm

end Helens.Ds.HashMultimap
