import Mathlib.Data.List.Perm.Basic
import Helens.Lib.Runs

/-! The statistics that `RockSDLoadBalance::request` keeps for an item: a ring of counters, one slot
per second. A request keeps a reference to the slot of its second until its response; meanwhile
later calls recycle slots. Start, response and `getWeight` are one step each. -/

namespace Helens.LoadBalance

open Lib.Runs Function
open List hiding set

/-! ## `load_balance.cc` -/

structure HolderStats where
  usedTime : UInt32 := 0
  total : UInt32 := 0
  doing : UInt32 := 0
  timeouts : UInt32 := 0
  oks : UInt32 := 0
  errs : UInt32 := 0

def HolderStats.clear : HolderStats := {}

structure HolderStatsSet where
  lastUpdateTime : Nat := 0
  stats : List HolderStats

namespace HolderStatsSet

def new (size : Nat) : HolderStatsSet := { stats := List.replicate size {} }

def initLoop (now : Nat) : Nat → Nat → List HolderStats → List HolderStats
  | 0, _, stats => stats
  | rounds + 1, t, stats =>
    if t ≤ now then
      initLoop now rounds ((t + 1) % 2 ^ 32) (stats.set (t % stats.length) HolderStats.clear)
    else stats

def init (now : Nat) (s : HolderStatsSet) : HolderStatsSet :=
  if s.lastUpdateTime < now then
    { lastUpdateTime := now
      stats := initLoop now s.stats.length ((s.lastUpdateTime + 1) % 2 ^ 32) s.stats }
  else s

def get (now : Nat) (s : HolderStatsSet) : Nat × HolderStatsSet :=
  (now % (init now s).stats.length, init now s)

end HolderStatsSet

/-! ## `rock_stream.cc` -/

structure Flight where
  item : Nat
  slot : Nat
  second : Nat
  ts : Nat
  deriving DecidableEq

structure State where
  items : Nat → HolderStatsSet
  flights : List Flight := []

def modify (item slot : Nat) (f : HolderStats → HolderStats) (items : Nat → HolderStatsSet) :
    Nat → HolderStatsSet :=
  Function.update items item
    { items item with stats := (items item).stats.modify slot f }

def begin (item ms : Nat) (s : State) : State :=
  let now := ms / 1000 % 2 ^ 32
  let (slot, set) := (s.items item).get now
  { items := modify item slot (fun st => { st with doing := st.doing + 1, total := st.total + 1 })
      (Function.update s.items item set)
    flights := s.flights ++ [⟨item, slot, now, ms⟩] }

def timeout : Int := -1

def count (result : Int) (ts ts2 : Nat) (st : HolderStats) : HolderStats :=
  let st :=
    if result = 0 then
      { st with oks := st.oks + 1, usedTime := st.usedTime + UInt32.ofInt (ts2 - ts) }
    else if result = timeout then { st with timeouts := st.timeouts + 1 }
    else if result < 0 then { st with errs := st.errs + 1 }
    else st
  { st with doing := st.doing - 1 }

def finish (i : Nat) (result : Int) (ts2 : Nat) (s : State) : State :=
  match s.flights[i]? with
  | none => s
  | some f =>
    { items := modify f.item f.slot (count result f.ts ts2) s.items
      flights := s.flights.eraseIdx i }

/-! ## Runs -/

inductive Action
  | begin (item ms : Nat)
  | finish (i : Nat) (result : Int) (ts2 : Nat)
  | getWeight (item now : Nat)

def exec : Action → State → Except Empty State
  | .begin item ms, s => .ok (begin item ms s)
  | .finish i result ts2, s => .ok (finish i result ts2 s)
  | .getWeight item now, s =>
    .ok { s with items := Function.update s.items item ((s.items item).init now) }

def inFlight (flights : List Flight) (item slot : Nat) : Nat :=
  flights.countP fun f => decide (f.item = item ∧ f.slot = slot)

def Timely (s : State) (item now : Nat) : Prop :=
  now + 1 < 2 ^ 32 ∧ ∀ f ∈ s.flights, f.item = item → now < f.second + (s.items item).stats.length
  deriving Decidable

structure Counts (flights : List Flight) (item : Nat) (set : HolderStatsSet) : Prop where
  nonempty : 0 < set.stats.length
  doing : ∀ slot st, set.stats[slot]? = some st →
    st.doing = UInt32.ofNat (inFlight flights item slot)
  slot : ∀ f ∈ flights, f.item = item → f.slot = f.second % set.stats.length
  updated : ∀ f ∈ flights, f.item = item → f.second ≤ set.lastUpdateTime

structure Inv (s : State) : Prop where
  counts : ∀ item, Counts s.flights item (s.items item)
  few : s.flights.length < 2 ^ 32

/-! ## Recycling -/

def Passes (now rounds t length slot : Nat) : Prop :=
  ∃ passed, t ≤ passed ∧ passed < t + rounds ∧ passed ≤ now ∧ passed % length = slot

theorem getElem?_initLoop (hnow : now + 1 < 2 ^ 32) (rounds t)
    (stats : List HolderStats) (ht : t ≤ now + 1) (slot) :
    Passes now rounds t stats.length slot ∧ (HolderStatsSet.initLoop now rounds t stats)[slot]? =
        stats[slot]?.map (fun _ => HolderStats.clear) ∨
    ¬ Passes now rounds t stats.length slot ∧
      (HolderStatsSet.initLoop now rounds t stats)[slot]? = stats[slot]? := by
  induction rounds generalizing t stats with
  | zero =>
    refine .inr ⟨?_, rfl⟩
    rintro ⟨passed, hfrom, hto, -⟩
    omega
  | succ rounds ih =>
    unfold HolderStatsSet.initLoop
    split
    · next hle =>
      have hrest := ih (t + 1) (stats.set (t % stats.length) HolderStats.clear) (by omega)
      rw [length_set, getElem?_set] at hrest
      rw [Nat.mod_eq_of_lt (show t + 1 < 2 ^ 32 by omega)]
      by_cases hself : t % stats.length = slot
      · refine .inl ⟨⟨t, Nat.le_refl _, by omega, hle, hself⟩, ?_⟩
        rw [if_pos hself, ← hself] at hrest
        rw [← hself]
        rcases Nat.lt_or_ge (t % stats.length) stats.length with hin | hout
        · rw [if_pos hin] at hrest
          rw [getElem?_eq_getElem hin]
          rcases hrest with ⟨-, heq⟩ | ⟨-, heq⟩
          · exact heq
          · exact heq
        · rw [if_neg (by omega)] at hrest
          rw [getElem?_eq_none hout]
          rcases hrest with ⟨-, heq⟩ | ⟨-, heq⟩
          · exact heq
          · exact heq
      · have hpasses : Passes now rounds (t + 1) stats.length slot ↔
            Passes now (rounds + 1) t stats.length slot := by
          apply exists_congr
          intro passed
          have hne : passed % stats.length = slot → passed ≠ t := fun hslot heq =>
            hself (heq ▸ hslot)
          omega
        rw [if_neg hself, hpasses] at hrest
        exact hrest
    · next hgt =>
      refine .inr ⟨?_, rfl⟩
      rintro ⟨passed, hfrom, -, hto, -⟩
      omega

theorem length_initLoop (now rounds t) (stats : List HolderStats) :
    (HolderStatsSet.initLoop now rounds t stats).length = stats.length := by
  induction rounds generalizing t stats with
  | zero => rfl
  | succ rounds ih =>
    unfold HolderStatsSet.initLoop
    split
    · rw [ih, length_set]
    · rfl

theorem init_spec (hnow : now + 1 < 2 ^ 32) (s : HolderStatsSet) :
    (s.init now).stats.length = s.stats.length ∧
    s.lastUpdateTime ≤ (s.init now).lastUpdateTime ∧ now ≤ (s.init now).lastUpdateTime ∧
    ∀ slot, (s.init now).stats[slot]? = s.stats[slot]? ∨
      (s.init now).stats[slot]? = some HolderStats.clear ∧
        ∃ passed, s.lastUpdateTime < passed ∧ passed ≤ now ∧ passed % s.stats.length = slot := by
  unfold HolderStatsSet.init
  split
  · next hlt =>
    refine ⟨length_initLoop .., Nat.le_of_lt hlt, Nat.le_refl _, fun slot => ?_⟩
    rw [Nat.mod_eq_of_lt (show s.lastUpdateTime + 1 < 2 ^ 32 by omega)]
    dsimp only
    rcases getElem?_initLoop hnow s.stats.length (s.lastUpdateTime + 1) s.stats (by omega) slot
      with ⟨⟨passed, hfrom, -, hto, hslot⟩, heq⟩ | ⟨-, heq⟩
    · rw [heq]
      cases s.stats[slot]? with
      | none => exact .inl rfl
      | some st => exact .inr ⟨rfl, passed, hfrom, hto, hslot⟩
    · exact .inl heq
  · next hge => exact ⟨rfl, Nat.le_refl _, Nat.not_lt.mp hge, fun _ => .inl rfl⟩

theorem add_le_of_mod_eq {a b n : Nat} (hlt : a < b) (hmod : b % n = a % n) : a + n ≤ b := by
  have hdvd : n ∣ b - a := Nat.dvd_of_mod_eq_zero (Nat.sub_mod_eq_zero_of_mod_eq hmod)
  have hle := Nat.le_of_dvd (Nat.sub_pos_of_lt hlt) hdvd
  omega

theorem inFlight_eq_zero
    (h : ∀ f ∈ flights, f.item = item → f.slot ≠ slot) : inFlight flights item slot = 0 := by
  apply countP_eq_zero.mpr
  intro f hf
  rw [decide_eq_true_iff]
  exact fun hboth => h f hf hboth.1 hboth.2

variable {set : HolderStatsSet}

theorem Counts.init {flights : List Flight} {item now : Nat} (h : Counts flights item set)
    (hnow : now + 1 < 2 ^ 32)
    (hyoung : ∀ f ∈ flights, f.item = item → now < f.second + set.stats.length) :
    Counts flights item (set.init now) := by
  obtain ⟨hlength, hlater, -, hslots⟩ := init_spec hnow set
  refine ⟨?_, ?_, ?_, ?_⟩
  · rw [hlength]
    exact h.nonempty
  · intro slot st hst
    rcases hslots slot with hslot | ⟨hslot, passed, hfrom, hto, hpassed⟩
    · rw [hslot] at hst
      exact h.doing slot st hst
    · rw [hslot] at hst
      obtain rfl := Option.some.inj hst
      -- a request on this slot would be a round old
      have hnone : inFlight flights item slot = 0 := by
        apply inFlight_eq_zero
        intro f hf hitem hslot
        have hsecond := h.slot f hf hitem
        have hround := add_le_of_mod_eq (Nat.lt_of_le_of_lt (h.updated f hf hitem) hfrom)
          (hpassed.trans (hslot.symm.trans hsecond))
        have hfresh := hyoung f hf hitem
        omega
      rw [hnone]
      rfl
  · intro f hf hitem
    rw [hlength]
    exact h.slot f hf hitem
  · intro f hf hitem
    exact Nat.le_trans (h.updated f hf hitem) hlater

/-! ## Requests -/

theorem inFlight_cons (f : Flight) (flights item slot) :
    inFlight (f :: flights) item slot =
      inFlight flights item slot + if f.item = item ∧ f.slot = slot then 1 else 0 := by
  rw [inFlight, countP_cons, ← inFlight]
  simp only [decide_eq_true_eq]

theorem Counts.add {g : HolderStats → HolderStats}
    (h : Counts flights f.item set) (hperm : flights'.Perm (f :: flights))
    (hg : ∀ st, (g st).doing = st.doing + 1) (hslot : f.slot = f.second % set.stats.length)
    (hupdated : f.second ≤ set.lastUpdateTime) :
    Counts flights' f.item { set with stats := set.stats.modify f.slot g } := by
  refine ⟨?_, ?_, ?_, ?_⟩
  · rw [length_modify]
    exact h.nonempty
  · intro slot st hst
    have hcount : inFlight flights' f.item slot = inFlight (f :: flights) f.item slot :=
      hperm.countP_eq _
    rw [hcount, inFlight_cons]
    dsimp only at hst
    rw [getElem?_modify] at hst
    obtain ⟨old, hold, rfl⟩ := Option.map_eq_some_iff.mp hst
    have hdoing := h.doing slot old hold
    by_cases hself : f.slot = slot
    · rw [if_pos hself, if_pos ⟨rfl, hself⟩, hg, hdoing, UInt32.ofNat_add]
      rfl
    · rw [if_neg hself, if_neg fun hboth => hself hboth.2, Nat.add_zero]
      exact hdoing
  · intro f' hf' hitem
    dsimp only
    rw [length_modify]
    rcases mem_cons.mp (hperm.mem_iff.mp hf') with rfl | hf'
    · exact hslot
    · exact h.slot f' hf' hitem
  · intro f' hf' hitem
    rcases mem_cons.mp (hperm.mem_iff.mp hf') with rfl | hf'
    · exact hupdated
    · exact h.updated f' hf' hitem

theorem Counts.remove {g : HolderStats → HolderStats} (h : Counts flights f.item set)
    (hperm : flights.Perm (f :: flights')) (hg : ∀ st, (g st).doing = st.doing - 1) :
    Counts flights' f.item { set with stats := set.stats.modify f.slot g } := by
  have hmem : ∀ f' ∈ flights', f' ∈ flights := fun f' hf' =>
    hperm.mem_iff.mpr (mem_cons_of_mem _ hf')
  refine ⟨?_, ?_, ?_, ?_⟩
  · rw [length_modify]
    exact h.nonempty
  · intro slot st hst
    have hcount : inFlight flights f.item slot = inFlight (f :: flights') f.item slot :=
      hperm.countP_eq _
    rw [inFlight_cons] at hcount
    dsimp only at hst
    rw [getElem?_modify] at hst
    obtain ⟨old, hold, rfl⟩ := Option.map_eq_some_iff.mp hst
    have hdoing := h.doing slot old hold
    rw [hcount] at hdoing
    by_cases hself : f.slot = slot
    · rw [if_pos ⟨rfl, hself⟩, UInt32.ofNat_add] at hdoing
      rw [if_pos hself, hg, hdoing]
      exact UInt32.add_sub_cancel ..
    · rw [if_neg fun hboth => hself hboth.2, Nat.add_zero] at hdoing
      rw [if_neg hself]
      exact hdoing
  · intro f' hf' hitem
    dsimp only
    rw [length_modify]
    exact h.slot f' (hmem f' hf') hitem
  · exact fun f' hf' hitem => h.updated f' (hmem f' hf') hitem

theorem Counts.other (h : Counts flights item set) (hitem : f.item ≠ item)
    (hperm : flights'.Perm (f :: flights) ∨ flights.Perm (f :: flights')) :
    Counts flights' item set := by
  have hskip : ∀ l slot, inFlight (f :: l) item slot = inFlight l item slot := by
    intro l slot
    rw [inFlight_cons, if_neg fun hboth => hitem hboth.1, Nat.add_zero]
  have hcount : ∀ slot, inFlight flights' item slot = inFlight flights item slot := by
    intro slot
    rcases hperm with hperm | hperm
    · exact (hperm.countP_eq _).trans (hskip flights slot)
    · exact ((hperm.countP_eq _).trans (hskip flights' slot)).symm
  have hmem : ∀ f' ∈ flights', f'.item = item → f' ∈ flights := by
    intro f' hf' hitem'
    rcases hperm with hperm | hperm
    · rcases mem_cons.mp (hperm.mem_iff.mp hf') with rfl | hf'
      · exact absurd hitem' hitem
      · exact hf'
    · exact hperm.mem_iff.mpr (mem_cons_of_mem _ hf')
  refine ⟨h.nonempty, ?_, ?_, ?_⟩
  · intro slot st hst
    rw [hcount]
    exact h.doing slot st hst
  · exact fun f' hf' hitem' => h.slot f' (hmem f' hf' hitem') hitem'
  · exact fun f' hf' hitem' => h.updated f' (hmem f' hf' hitem') hitem'

/-! ## Runs keep the counts -/

/-- Requests start, and weights are asked for, while no request under way on the item is as
old as the ring. -/
def Fits (s : State) : Action → Prop
  | .begin item ms => Timely s item (ms / 1000 % 2 ^ 32) ∧ s.flights.length + 1 < 2 ^ 32
  | .getWeight item now => Timely s item now
  | .finish .. => True

instance (s : State) : (a : Action) → Decidable (Fits s a)
  | .begin item ms => inferInstanceAs (Decidable (_ ∧ _))
  | .getWeight item now => inferInstanceAs (Decidable (Timely s item now))
  | .finish .. => isTrue trivial

theorem Inv.begin (hs : Inv s)
    (htimely : Timely s item (ms / 1000 % 2 ^ 32)) (hfew : s.flights.length + 1 < 2 ^ 32) :
    Inv (begin item ms s) := by
  refine ⟨?_, ?_⟩
  · unfold LoadBalance.begin HolderStatsSet.get modify
    dsimp only
    rw [update_self, update_idem]
    generalize ms / 1000 % 2 ^ 32 = now at htimely ⊢
    have hperm := perm_append_singleton
      (⟨item, now % ((s.items item).init now).stats.length, now, ms⟩ : Flight) s.flights
    rw [forall_update_iff (p := fun item set => Counts _ item set)]
    refine ⟨?_, ?_⟩
    · have hcounts := (hs.counts item).init htimely.1 htimely.2
      exact hcounts.add hperm (fun _ => rfl) rfl (init_spec htimely.1 _).2.2.1
    · intro item' hitem
      exact (hs.counts item').other (Ne.symm hitem) (.inl hperm)
  · rw [LoadBalance.begin, length_append]
    exact hfew

theorem count_doing (result ts ts2) (st : HolderStats) :
    (count result ts ts2 st).doing = st.doing - 1 := by
  unfold count
  by_cases hok : result = 0
  · rw [if_pos hok]
  · by_cases htimeout : result = timeout
    · rw [if_neg hok, if_pos htimeout]
    · by_cases herr : result < 0
      · rw [if_neg hok, if_neg htimeout, if_pos herr]
      · rw [if_neg hok, if_neg htimeout, if_neg herr]

theorem Inv.finish (hs : Inv s) (i result ts2) : Inv (finish i result ts2 s) := by
  unfold LoadBalance.finish
  split
  · exact hs
  · next f hf =>
    obtain ⟨hlt, hget⟩ := List.getElem?_eq_some_iff.mp hf
    have hperm : s.flights.Perm (f :: s.flights.eraseIdx i) := by
      rw [← hget]
      exact (getElem_cons_eraseIdx_perm hlt).symm
    refine ⟨?_, ?_⟩
    · unfold modify
      rw [forall_update_iff (p := fun item set => Counts _ item set)]
      refine ⟨?_, ?_⟩
      · exact (hs.counts f.item).remove hperm (count_doing result f.ts ts2)
      · intro item' hitem
        exact (hs.counts item').other (Ne.symm hitem) (.inr hperm)
    · exact Nat.lt_of_le_of_lt (length_eraseIdx_le ..) hs.few

theorem exec_inv (s a) (hs : Inv s) (ha : Fits s a) : Post Inv Never (exec a s) := by
  cases a with
  | begin item ms => exact hs.begin ha.1 ha.2
  | finish i result ts2 => exact hs.finish i result ts2
  | getWeight item now =>
    refine ⟨?_, hs.few⟩
    rw [forall_update_iff (p := fun item set => Counts _ item set)]
    exact ⟨(hs.counts item).init ha.1 ha.2, fun item' _ => hs.counts item'⟩

/-- Each counter is the number of requests under way that went up on it, and none of them
will make it underflow. -/
structure Accurate (s : State) : Prop where
  doing : ∀ item slot st, (s.items item).stats[slot]? = some st →
    st.doing.toNat = inFlight s.flights item slot
  no_underflow : ∀ f ∈ s.flights, ∃ st, (s.items f.item).stats[f.slot]? = some st ∧
    0 < st.doing.toNat

theorem Inv.accurate (hs : Inv s) : Accurate s := by
  have hdoing : ∀ item slot st, (s.items item).stats[slot]? = some st →
      st.doing.toNat = inFlight s.flights item slot := by
    intro item slot st hst
    have hle : inFlight s.flights item slot ≤ s.flights.length := countP_le_length
    rw [(hs.counts item).doing slot st hst, UInt32.toNat_ofNat']
    exact Nat.mod_eq_of_lt (Nat.lt_of_le_of_lt hle hs.few)
  refine ⟨hdoing, ?_⟩
  intro f hf
  have hslot : f.slot < (s.items f.item).stats.length := by
    rw [(hs.counts f.item).slot f hf rfl]
    exact Nat.mod_lt _ (hs.counts f.item).nonempty
  refine ⟨_, getElem?_eq_getElem hslot, ?_⟩
  rw [hdoing f.item f.slot _ (getElem?_eq_getElem hslot)]
  exact countP_pos_iff.mpr ⟨f, hf, decide_eq_true ⟨rfl, rfl⟩⟩

def State.init : State := { items := fun _ => HolderStatsSet.new 5 }

/-- Where no request is still under way five seconds after its start when its item is used again,
`m_doing` is right slot by slot. -/
theorem runs_accurate (as : List Action) (has : Along exec Fits as State.init) :
    Post Accurate (fun _ => False) (run exec as State.init) := by
  have hinit : Inv State.init := by
    refine ⟨fun item => ⟨Nat.zero_lt_succ _, ?_, ?_, ?_⟩, Nat.two_pow_pos 32⟩
    · intro slot st hst
      rw [eq_of_mem_replicate (mem_of_getElem? hst)]
      rfl
    · exact fun f hf => absurd hf not_mem_nil
    · exact fun f hf => absurd hf not_mem_nil
  exact (post_run exec_inv as _ has hinit).imp (fun s hs => hs.accurate)

def overlapping : List Action :=
  [.begin 0 100500, .begin 0 101200, .begin 1 101300, .finish 0 0 104000, .getWeight 0 105,
    .finish 0 (-1) 105500, .begin 0 106000, .finish 0 (-3) 109000]

theorem overlapping_fit : Along exec Fits overlapping State.init := by decide +kernel

theorem overlapping_accurate : Along exec Fits overlapping State.init ∧
      Post Accurate (fun _ => False) (run exec overlapping State.init) :=
  ⟨overlapping_fit, runs_accurate overlapping overlapping_fit⟩

/-- A request that takes five seconds: its slot is recycled by the next request, and when
both are finished the counter has gone below zero. -/
theorem doing_underflows :
    (run exec [.begin 0 0, .begin 0 5000, .finish 0 0 5100, .finish 0 0 5200] State.init).map
      (fun s => (s.flights, ((s.items 0).stats.map fun st => st.doing))) =
      .ok ([], [4294967295, 0, 0, 0, 0]) := by
  decide +kernel

end Helens.LoadBalance
