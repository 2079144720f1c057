import Mathlib.Data.List.AList
import Mathlib.Data.Set.Basic
import Helens.Lib.Runs

/-! `ZKServiceDiscovery::getChildren` and `SDLoadBalance::onServiceChange`. Calls replace the stored
items of a service under the lock and then, without it, call back with the old and the new items.
The lock sections and the callback are the steps; ZooKeeper's answers are inputs. -/

namespace Helens.ServiceDiscovery

open Lib.Runs List

abbrev Str := List Char

/-- What is asked of the C library: `inet_addr` and `strtoull`. -/
structure Libc where
  inetAddr : Str → BitVec 32
  strtoull : Str → BitVec 64

/-! ## `service_discovery.cc` -/

abbrev Id := BitVec 64

structure ServiceItemInfo where
  id : Id
  port : BitVec 16
  ip : Str
  data : Str

def atoi (libc : Libc) (str : Str) : BitVec 64 := if str.isEmpty then 0 else libc.strtoull str

def ServiceItemInfo.create (libc : Libc) (ipAndPort data : Str) : Option ServiceItemInfo :=
  if ':' ∉ ipAndPort then none
  else
    let ip := ipAndPort.takeWhile (· ≠ ':')
    let port := atoi libc ((ipAndPort.dropWhile (· ≠ ':')).drop 1)
    let ipAddr := libc.inetAddr ip
    if ipAddr = 0 then none
    else some
      { id := (ipAddr.setWidth 64 <<< 32) ||| port
        port := port.setWidth 16
        ip, data }

def split (str : Str) (delim : Char) : List Str := if str.isEmpty then [] else str.splitOn delim

def parseDomainService (path : Str) : Option (Str × Str) :=
  match split path '/' with
  | [_, _, domain, service, _] => some (domain, service)
  | _ => none

abbrev Infos := AList fun _ : Id => ServiceItemInfo

structure Discovery where
  queryInfos : Str → Option (List Str)
  datas : Str × Str → Infos

/-- The items of the children's names; names that are no addresses are skipped. -/
def collect (libc : Libc) (vals : List Str) : Infos :=
  vals.foldl (fun infos val =>
    match ServiceItemInfo.create libc val [] with
    | none => infos
    | some info => infos.insert info.id info) ∅

def all : Str := ['a', 'l', 'l']

def check (path : Str) (d : Discovery) : Option (Str × Str) :=
  match parseDomainService path with
  | none => none
  | some (domain, service) =>
    match d.queryInfos domain with
    | none => none
    | some services =>
      if service ∉ services ∧ all ∉ services then none else some (domain, service)

def queryServer (domain service : Str) (d : Discovery) : Discovery :=
  let services := (d.queryInfos domain).getD []
  { d with queryInfos := Function.update d.queryInfos domain (some (service :: services)) }

/-! ## `load_balance.cc` -/

inductive LoadBalanceType
  | roundRobin
  | weight
  | fair
  deriving DecidableEq

/-- `fair` tells a `FairLoadBalanceItem` from a `LoadBalanceItem`. -/
structure LoadBalanceItem (S : Type) where
  id : Id
  stream : S
  weight : Nat
  fair : Bool

abbrev Items (S : Type) := AList fun _ : Id => LoadBalanceItem S

/-- `types` and `defaultType` give the type for a domain and service. -/
structure SDLoadBalance (S : Type) where
  datas : Str × Str → Option (Items S)
  types : Str × Str → Option LoadBalanceType
  defaultType : LoadBalanceType

variable {S : Type}

def update (adds : List (LoadBalanceItem S)) (dels : List Id) (items : Items S) : Items S :=
  adds.foldl (fun items item => items.insert item.id item)
    (dels.foldl (fun items id => items.erase id) items)

/-- `onServiceChange`; `cb` makes the stream of an item. -/
def onServiceChange (cb : ServiceItemInfo → Option S) (key : Str × Str) (old new : Infos)
    (lb : SDLoadBalance S) : SDLoadBalance S :=
  let type := (lb.types key).getD lb.defaultType
  let items := (lb.datas key).getD ∅
  let delInfos := old.keys.filter (· ∉ new)
  let addValues := new.entries.filter (·.1 ∉ old)
  let addInfos := addValues.filterMap fun e =>
    (cb e.2).map fun stream => ⟨e.1, stream, 10000, type = .fair⟩
  { lb with datas := Function.update lb.datas key (some (update addInfos delInfos items)) }

/-! ## Interleavings -/

structure Change where
  key : Str × Str
  old : Infos
  new : Infos

/-- `asking` are the calls between their sections, `changes` those before their callback, in
the order in which they stored their items. -/
structure System (S : Type) where
  discovery : Discovery
  balance : SDLoadBalance S
  asking : List (Str × Str) := []
  changes : List Change := []

inductive Action
  | queryServer (domain service : Str)
  | check (path : Str)
  | fail (i : Nat)
  | swap (i : Nat) (vals : List Str)
  | callback (i : Nat)

def exec (libc : Libc) (cb : ServiceItemInfo → Option S) :
    Action → System S → Except Empty (System S)
  | .queryServer domain service, s =>
    .ok { s with discovery := queryServer domain service s.discovery }
  | .check path, s =>
    match check path s.discovery with
    | none => .ok s
    | some key => .ok { s with asking := s.asking ++ [key] }
  | .fail i, s => .ok { s with asking := s.asking.eraseIdx i }
  | .swap i vals, s =>
    match s.asking[i]? with
    | none => .ok s
    | some key =>
      let new := collect libc vals
      .ok { s with
        discovery := { s.discovery with datas := Function.update s.discovery.datas key new }
        asking := s.asking.eraseIdx i
        changes := s.changes ++ [⟨key, s.discovery.datas key, new⟩] }
  | .callback i, s =>
    match s.changes[i]? with
    | none => .ok s
    | some change => .ok { s with
        balance := onServiceChange cb change.key change.old change.new s.balance
        changes := s.changes.eraseIdx i }

def ids {β : Id → Type} (m : AList β) : Set Id := { id | id ∈ m }

def balanced (lb : SDLoadBalance S) (key : Str × Str) : Set Id := ids ((lb.datas key).getD ∅)

/-- A service whose callbacks have all run has the items that were stored last. -/
def Agree (s : System S) : Prop :=
  ∀ key, (∀ change ∈ s.changes, change.key ≠ key) →
    balanced s.balance key = ids (s.discovery.datas key)

/-! ## The difference -/

theorem mem_foldl_erase (dels : List Id) (items : Items S) (id) :
    id ∈ dels.foldl (fun items id => items.erase id) items ↔ id ∈ items ∧ id ∉ dels := by
  induction dels generalizing items with
  | nil => simp
  | cons del dels ih =>
    rw [foldl_cons, ih, AList.mem_erase, mem_cons, not_or]
    tauto

theorem mem_foldl_insert (adds : List (LoadBalanceItem S)) (items : Items S) (id) :
    id ∈ adds.foldl (fun items item => items.insert item.id item) items ↔
      id ∈ items ∨ id ∈ adds.map LoadBalanceItem.id := by
  induction adds generalizing items with
  | nil => simp
  | cons item adds ih =>
    rw [foldl_cons, ih, AList.mem_insert, map_cons, mem_cons]
    tauto

variable {cb : ServiceItemInfo → Option S}

theorem map_id_addInfos (hcb : ∀ info, (cb info).isSome) (fair)
    (entries : List (Sigma fun _ : Id => ServiceItemInfo)) :
    (entries.filterMap fun e => (cb e.2).map fun stream =>
      (⟨e.1, stream, 10000, fair⟩ : LoadBalanceItem S)).map LoadBalanceItem.id =
      entries.map Sigma.fst := by
  induction entries with
  | nil => rfl
  | cons e entries ih =>
    obtain ⟨stream, hstream⟩ := Option.isSome_iff_exists.mp (hcb e.2)
    rw [filterMap_cons_some (b := ⟨e.1, stream, 10000, fair⟩) (by rw [hstream]; rfl),
      map_cons, ih, map_cons]

theorem mem_onServiceChange (hcb : ∀ info, (cb info).isSome) (key old new lb id) :
    id ∈ balanced (onServiceChange cb key old new lb) key ↔
      id ∈ balanced lb key ∧ ¬(id ∈ old ∧ id ∉ new) ∨ id ∈ new ∧ id ∉ old := by
  have hadds : id ∈ (new.entries.filter (·.1 ∉ old)).map Sigma.fst ↔ id ∈ new ∧ id ∉ old := by
    simp only [mem_map, mem_filter, decide_eq_true_eq, AList.mem_keys, AList.keys, List.keys]
    constructor
    · rintro ⟨e, ⟨he, hold⟩, rfl⟩
      exact ⟨⟨e, he, rfl⟩, hold⟩
    · rintro ⟨⟨e, he, rfl⟩, hold⟩
      exact ⟨e, ⟨he, hold⟩, rfl⟩
  simp only [balanced, onServiceChange, update, ids, Set.mem_ofPred_eq, Function.update_self,
    Option.getD_some]
  rw [mem_foldl_insert, mem_foldl_erase,
    map_id_addInfos hcb, hadds, mem_filter, decide_eq_true_iff, ← AList.mem_keys]

theorem balanced_onServiceChange (hcb : ∀ info, (cb info).isSome) (h : balanced lb key = ids old) :
    balanced (onServiceChange cb key old new lb) key = ids new := by
  ext id
  rw [mem_onServiceChange hcb, h]
  show id ∈ old ∧ ¬(id ∈ old ∧ id ∉ new) ∨ id ∈ new ∧ id ∉ old ↔ id ∈ new
  tauto

theorem balanced_onServiceChange_of_ne (cb : ServiceItemInfo → Option S)
    (hkey : key' ≠ key) (old new lb) :
    balanced (onServiceChange cb key old new lb) key' = balanced lb key' := by
  unfold balanced onServiceChange
  dsimp only
  rw [Function.update_of_ne hkey]

/-! ## Changes in order -/

def Leads : Set Id → List Change → Set Id → Prop
  | s, [], t => s = t
  | s, change :: changes, t => s = ids change.old ∧ Leads (ids change.new) changes t

theorem Leads.concat : ∀ {s : Set Id} {changes : List Change}, Leads s changes (ids old) →
      Leads s (changes ++ [⟨key, old, new⟩]) (ids new)
  | _, [], h => ⟨h, rfl⟩
  | _, _ :: _, ⟨hold, hrest⟩ => ⟨hold, Leads.concat hrest⟩

def waiting (key : Str × Str) (changes : List Change) : List Change :=
  changes.filter fun change => change.key = key

theorem waiting_append (key changes changes') :
    waiting key (changes ++ changes') = waiting key changes ++ waiting key changes' :=
  filter_append ..

theorem waiting_cons (key) (change : Change) (changes) :
    waiting key (change :: changes) =
      if key = change.key then change :: waiting key changes else waiting key changes := by
  by_cases hkey : key = change.key
  · simp [waiting, hkey]
  · simp [waiting, hkey, Ne.symm hkey]

def Inv (s : System S) : Prop :=
  ∀ key, Leads (balanced s.balance key) (waiting key s.changes) (ids (s.discovery.datas key))

/-- The callbacks of one service run in the order in which its items were stored. -/
def InOrder (s : System S) : Action → Prop
  | .callback i => ∀ change ∈ s.changes[i]?, ∀ before ∈ s.changes.take i, before.key ≠ change.key
  | _ => True

instance (s : System S) : (a : Action) → Decidable (InOrder s a)
  | .callback i => inferInstanceAs (Decidable (∀ change ∈ s.changes[i]?, _))
  | .queryServer .. | .check _ | .fail _ | .swap .. => isTrue trivial

theorem waiting_eraseIdx (hi : changes[i]? = some change)
    (hfirst : ∀ before ∈ changes.take i, before.key ≠ change.key) (key) :
    waiting key changes = if key = change.key then change :: waiting key (changes.eraseIdx i)
      else waiting key (changes.eraseIdx i) := by
  obtain ⟨hlt, hget⟩ := List.getElem?_eq_some_iff.mp hi
  have hsplit : changes = changes.take i ++ change :: changes.drop (i + 1) := by
    rw [← hget, ← drop_eq_getElem_cons hlt, take_append_drop]
  have herase : changes.eraseIdx i = changes.take i ++ changes.drop (i + 1) :=
    eraseIdx_eq_take_drop_succ ..
  have hbefore : key = change.key → waiting key (changes.take i) = [] := by
    rintro rfl
    apply filter_eq_nil_iff.mpr
    intro before hmem
    rw [decide_eq_true_iff]
    exact hfirst before hmem
  rw [herase, waiting_append]
  conv_lhs => rw [hsplit]
  rw [waiting_append, waiting_cons]
  by_cases hkey : key = change.key
  · rw [if_pos hkey, if_pos hkey, hbefore hkey, nil_append, nil_append]
  · rw [if_neg hkey, if_neg hkey]

theorem Inv.swap {s : System S} (hs : Inv s) (key : Str × Str) (new : Infos)
    (asking : List (Str × Str)) :
    Inv { s with
      discovery := { s.discovery with datas := Function.update s.discovery.datas key new }
      asking
      changes := s.changes ++ [⟨key, s.discovery.datas key, new⟩] } := by
  intro key'
  dsimp only
  rw [waiting_append, waiting_cons]
  by_cases hkey : key' = key
  · subst hkey
    rw [Function.update_self, if_pos rfl]
    exact (hs key').concat
  · rw [Function.update_of_ne hkey, if_neg hkey]
    exact (append_nil (waiting key' s.changes)).symm ▸ hs key'

theorem Inv.callback (hcb : ∀ info, (cb info).isSome) (hs : Inv s)
    (hi : s.changes[i]? = some change)
    (hfirst : ∀ before ∈ s.changes.take i, before.key ≠ change.key) :
    Inv { s with
      balance := onServiceChange cb change.key change.old change.new s.balance
      changes := s.changes.eraseIdx i } := by
  intro key
  have hleads := hs key
  rw [waiting_eraseIdx hi hfirst key] at hleads
  by_cases hkey : key = change.key
  · rw [if_pos hkey] at hleads
    obtain ⟨hold, hrest⟩ := hleads
    rw [hkey] at hold hrest ⊢
    dsimp only
    rw [balanced_onServiceChange hcb hold]
    exact hrest
  · rw [if_neg hkey] at hleads
    dsimp only
    rw [balanced_onServiceChange_of_ne cb hkey]
    exact hleads

theorem exec_inv (libc) (hcb : ∀ info, (cb info).isSome) (s a)
    (hs : Inv s) (ha : InOrder s a) : Post Inv Never (exec libc cb a s) := by
  cases a with
  | queryServer domain service => exact hs
  | check path =>
    rw [exec]
    split
    · exact hs
    · exact hs
  | fail i => exact hs
  | swap i vals =>
    rw [exec]
    split
    · exact hs
    · next key hi => exact hs.swap key (collect libc vals) _
  | callback i =>
    rw [exec]
    split
    · exact hs
    · next change hi => exact hs.callback hcb hi (ha change hi)

theorem Inv.agree (hs : Inv s) : Agree s := by
  intro key hdone
  have hleads := hs key
  have hnone : waiting key s.changes = [] := by
    apply filter_eq_nil_iff.mpr
    intro change hmem
    rw [decide_eq_true_iff]
    exact hdone change hmem
  rw [hnone] at hleads
  exact hleads

def System.init (types : Str × Str → Option LoadBalanceType) (defaultType : LoadBalanceType) :
    System S :=
  { discovery := ⟨fun _ => none, fun _ => ∅⟩, balance := ⟨fun _ => none, types, defaultType⟩ }

/-- Where the callbacks of a service run in the order in which its items were stored, the load
balance ends with the last items. -/
theorem runs_agree_in_order (libc : Libc) (cb : ServiceItemInfo → Option S)
    (hcb : ∀ info, (cb info).isSome) (types : Str × Str → Option LoadBalanceType)
    (defaultType : LoadBalanceType) (as : List Action)
    (has : Along (exec libc cb) InOrder as (System.init types defaultType)) :
    Post Agree (fun _ => False) (run (exec libc cb) as (System.init types defaultType)) := by
  have hinit : Inv (System.init types defaultType : System S) := fun key => rfl
  exact (post_run (exec_inv libc hcb) as _ has hinit).imp (fun s hs => hs.agree)

def oneHost : Libc where
  inetAddr _ := 1
  strtoull str := BitVec.ofNat 64 ((str.getLastD '0').toNat - '0'.toNat)

def path : Str := "/helens/d/s/providers".toList

def key : Str × Str := ("d".toList, "s".toList)

def twoCalls : List Action :=
  [.queryServer "d".toList "s".toList, .check path, .check path, .swap 0 ["h:1".toList,
    "h:2".toList],
    .swap 0 ["h:2".toList, "h".toList, "h:3".toList], .callback 0, .callback 0]

theorem twoCalls_in_order : Along (exec oneHost fun info => some info.ip) InOrder twoCalls
      (System.init (fun _ => none) .fair) := by
  decide +kernel

theorem twoCalls_agree : Along (exec oneHost fun info => some info.ip) InOrder twoCalls
        (System.init (fun _ => none) .fair) ∧
      Post Agree (fun _ => False) (run (exec oneHost fun info => some info.ip) twoCalls
        (System.init (fun _ => none) .fair)) :=
  ⟨twoCalls_in_order, runs_agree_in_order oneHost (fun info => some info.ip) (fun _ => rfl)
    (fun _ => none) .fair twoCalls twoCalls_in_order⟩

/-- One call stores an item and another one removes it; the callback of the second runs
first, so the item stays in the load balance. -/
theorem late_callback_disagrees : (run (exec oneHost fun info => some info.ip)
      [.queryServer "d".toList "s".toList, .check path, .check path, .swap 0 ["h:1".toList],
        .swap 0 [], .callback 1, .callback 0]
      (System.init (fun _ => none) .fair)).map (fun s => (s.changes.length,
        (s.balance.datas key).map AList.keys, (s.discovery.datas key).keys)) =
      .ok (0, some [0x100000001], []) := by
  decide +kernel

end Helens.ServiceDiscovery
