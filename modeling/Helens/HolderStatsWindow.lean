import Helens.HolderStats
import Helens.Lib.SlidingWindow

/-! The ring of `HolderStatsSet` as a window: with times that do not go back, every slot has what
was counted in one of the last seconds, and `getTotal` is what was counted in all of them. -/

namespace Helens.LoadBalance

open Lib.SlidingWindow List

/-! ## `load_balance.cc` -/

def HolderStats.add (a b : HolderStats) : HolderStats where
  usedTime := a.usedTime + b.usedTime
  total := a.total + b.total
  doing := a.doing + b.doing
  timeouts := a.timeouts + b.timeouts
  oks := a.oks + b.oks
  errs := a.errs + b.errs

def HolderStatsSet.getTotal (s : HolderStatsSet) : HolderStats :=
  s.stats.foldl (fun rt i => rt.add i) {}

/-- A call of `get(now)`, and what is counted in the slot before the next one. A counter that
goes down goes up by its negative. -/
def HolderStatsSet.use (s : HolderStatsSet) (call : Nat × HolderStats) : HolderStatsSet :=
  let (slot, s) := s.get call.1
  { s with stats := s.stats.modify slot fun st => st.add call.2 }

def HolderStatsSet.used (size : Nat) (calls : List (Nat × HolderStats)) : HolderStatsSet :=
  calls.foldl HolderStatsSet.use (HolderStatsSet.new size)

/-! ## Adding counters -/

instance : Zero HolderStats := ⟨HolderStats.clear⟩

instance : Add HolderStats := ⟨HolderStats.add⟩

theorem HolderStats.add_eq (a b : HolderStats) : a + b = a.add b := rfl

theorem HolderStats.zero_eq : (0 : HolderStats) = HolderStats.clear := rfl

instance : AddCommMonoid HolderStats where
  add_assoc a b c := by
    simp only [HolderStats.add_eq, HolderStats.add, UInt32.add_assoc]
  zero_add a := by
    simp only [HolderStats.add_eq, HolderStats.zero_eq, HolderStats.add, HolderStats.clear,
      UInt32.zero_add]
  add_zero a := by
    simp only [HolderStats.add_eq, HolderStats.zero_eq, HolderStats.add, HolderStats.clear,
      UInt32.add_zero]
  add_comm a b := by
    simp only [HolderStats.add_eq, HolderStats.add, UInt32.add_comm]
  nsmul := nsmulRec

theorem HolderStatsSet.getTotal_eq (s : HolderStatsSet) : s.getTotal = s.stats.sum :=
  sum_eq_foldl.symm

/-! ## The window -/

/-- The calls are not later than the last one, and every slot has the sum of its second. -/
structure Windowed (size : Nat) (calls : List (Nat × HolderStats)) (s : HolderStatsSet) : Prop where
  length : s.stats.length = size
  past : ∀ c ∈ calls, c.1 ≤ s.lastUpdateTime
  holds : ∀ slot < size,
    s.stats[slot]? = some (sumAt calls (secondOf size s.lastUpdateTime slot))

variable {size now : Nat} {calls : List (Nat × HolderStats)} {s : HolderStatsSet}

/-- The seconds between two calls are empty, and the slots they fall on are those that are
cleared. -/
theorem Windowed.init (h : Windowed size calls s) (hsize : 0 < size) (hnow : now + 1 < 2 ^ 32)
    (hle : s.lastUpdateTime ≤ now) :
    Windowed size calls (s.init now) ∧ (s.init now).lastUpdateTime = now := by
  unfold HolderStatsSet.init
  split
  · next hlt =>
    refine ⟨⟨(length_initLoop ..).trans h.length, ?_, ?_⟩, rfl⟩
    · exact fun c hc => (h.past c hc).trans hle
    · intro slot hslot
      dsimp only
      rw [Nat.mod_eq_of_lt (show s.lastUpdateTime + 1 < 2 ^ 32 by omega)]
      rcases getElem?_initLoop hnow s.stats.length (s.lastUpdateTime + 1) s.stats (by omega) slot
        with ⟨⟨passed, hfrom, -, hto, hpassed⟩, heq⟩ | ⟨hnot, heq⟩
      · rw [h.length] at hpassed
        have hlater := lt_secondOf hsize (Nat.lt_of_succ_le hfrom) hto
        rw [heq, h.holds slot hslot, Option.map_some, sumAt_eq_zero]
        · rfl
        · intro c hc hsecond
          have hpast := h.past c hc
          rw [hpassed] at hlater
          omega
      · rw [heq, h.holds slot hslot, secondOf_eq hslot hle]
        intro p hfrom hround hto hp
        rw [h.length] at hnot
        exact hnot ⟨p, hfrom, by omega, hto, hp⟩
  · next hge => exact ⟨h, by omega⟩

theorem Windowed.use (h : Windowed size calls s) (hsize : 0 < size) (call)
    (hnow : call.1 + 1 < 2 ^ 32) (hle : s.lastUpdateTime ≤ call.1) :
    Windowed size (calls ++ [call]) (s.use call) ∧ (s.use call).lastUpdateTime = call.1 := by
  obtain ⟨hinit, hlast⟩ := h.init hsize hnow hle
  refine ⟨⟨?_, ?_, ?_⟩, hlast⟩
  · exact (length_modify ..).trans hinit.length
  · intro c hc
    rcases mem_append.mp hc with hc | hc
    · exact hinit.past c hc
    · rw [mem_singleton.mp hc]
      exact hlast.ge
  · intro slot hslot
    have hmem := secondOf_mem hsize call.1 slot
    have hmod := secondOf_emod call.1 hslot
    have hsecond : (call.1 : Int) = secondOf size call.1 slot ↔ call.1 % size = slot := by
      constructor
      · intro heq
        rw [← heq] at hmod
        omega
      · intro heq
        apply eq_of_emod_eq (by omega) (le_refl _) hmem.1 hmem.2
        rw [hmod, ← heq]
        exact (Int.natCast_emod call.1 size).symm
    rw [HolderStatsSet.use, HolderStatsSet.get]
    dsimp only
    rw [hlast, getElem?_modify, hinit.holds slot hslot, hinit.length, hlast, sumAt_append,
      sumAt_cons]
    simp only [hsecond, Option.map_eq_map, Option.map_some]
    split
    · exact congrArg some (congrArg _ (add_zero _).symm)
    · exact congrArg some (add_zero _).symm

/-! ## Runs -/

theorem windowed_new (size) : Windowed size [] (HolderStatsSet.new size) where
  length := length_replicate
  past c hc := absurd hc not_mem_nil
  holds slot hslot := by
    rw [HolderStatsSet.new, getElem?_replicate, if_pos hslot]
    rfl

theorem windowed_used (hsize : 0 < size) (calls : List (Nat × HolderStats))
    (hsorted : calls.Pairwise fun a b => a.1 ≤ b.1) (hnow : ∀ c ∈ calls, c.1 + 1 < 2 ^ 32) :
    Windowed size calls (HolderStatsSet.used size calls) ∧
      ∀ c ∈ calls.getLast?, (HolderStatsSet.used size calls).lastUpdateTime = c.1 := by
  induction calls using reverseRecOn with
  | nil => exact ⟨windowed_new size, fun c hc => nomatch hc⟩
  | append_singleton calls call ih =>
    obtain ⟨hbefore, -, horder⟩ := pairwise_append.mp hsorted
    obtain ⟨hcalls, hlast⟩ := ih hbefore fun c hc => hnow c (mem_append_left _ hc)
    -- the last call so far is not later than this one
    have hle : (HolderStatsSet.used size calls).lastUpdateTime ≤ call.1 := by
      cases hend : calls.getLast? with
      | none =>
        rw [getLast?_eq_none_iff.mp hend]
        exact Nat.zero_le _
      | some c =>
        rw [hlast c hend]
        exact horder c (mem_of_getLast? hend) call (mem_singleton_self call)
    have hused : HolderStatsSet.used size (calls ++ [call]) =
        (HolderStatsSet.used size calls).use call := foldl_append
    obtain ⟨hwindow, hnew⟩ := hcalls.use hsize call (hnow call (by simp)) hle
    rw [hused, getLast?_concat]
    refine ⟨hwindow, ?_⟩
    rintro c ⟨⟩
    exact hnew

theorem Windowed.getTotal (h : Windowed size calls s) (hsize : 0 < size) :
    s.getTotal = sumWithin calls size s.lastUpdateTime := by
  have hstats : s.stats = (range size).map fun slot =>
      sumAt calls (secondOf size s.lastUpdateTime slot) := by
    apply ext_getElem?
    intro slot
    rw [getElem?_map]
    rcases Nat.lt_or_ge slot size with hslot | hslot
    · rw [h.holds slot hslot, getElem?_range hslot]
      rfl
    · rw [getElem?_eq_none (h.length.trans_le hslot),
        getElem?_eq_none (length_range.trans_le hslot)]
      rfl
  rw [HolderStatsSet.getTotal_eq, hstats, ← sum_sumAt hsize]
  rfl

/-- With times that do not go back, a slot has what was counted in one of the last `size` seconds,
and `getTotal` all of it. -/
theorem used_window (size : Nat) (hsize : 1 ≤ size) (calls : List (Nat × HolderStats))
    (hsorted : calls.Pairwise fun a b => a.1 ≤ b.1) (hnow : ∀ c ∈ calls, c.1 < 2 ^ 32 - 1) :
    let s := HolderStatsSet.used size calls
    (∀ c ∈ calls.getLast?, s.lastUpdateTime = c.1) ∧ s.stats.length = size ∧
      (∀ slot < size, ∃ second : Int,
        s.lastUpdateTime - size < second ∧ second ≤ s.lastUpdateTime ∧ second % size = slot ∧
          s.stats[slot]? = some (sumAt calls second)) ∧
      s.getTotal = sumWithin calls size s.lastUpdateTime := by
  have htimes : ∀ c ∈ calls, c.1 + 1 < 2 ^ 32 := by
    intro c hc
    have hc' := hnow c hc
    omega
  obtain ⟨hwindow, hlast⟩ := windowed_used hsize calls hsorted htimes
  refine ⟨hlast, hwindow.length, ?_, hwindow.getTotal hsize⟩
  intro slot hslot
  obtain ⟨hlow, hhigh⟩ := secondOf_mem hsize (HolderStatsSet.used size calls).lastUpdateTime slot
  exact ⟨_, hlow, hhigh, secondOf_emod _ hslot, hwindow.holds slot hslot⟩

def gaps : List (Nat × HolderStats) :=
  [(100, { total := 1, doing := 1 }), (100, { total := 2 }), (101, { oks := 1, doing := -1 }),
    (107, { total := 4 }), (109, { errs := 1 })]

theorem used_window_gaps :
    let s := HolderStatsSet.used 5 gaps
    (∀ c ∈ gaps.getLast?, s.lastUpdateTime = c.1) ∧ s.stats.length = 5 ∧
      (∀ slot : Nat, slot < 5 → ∃ second : Int,
        s.lastUpdateTime - 5 < second ∧ second ≤ s.lastUpdateTime ∧ second % 5 = slot ∧
          s.stats[slot]? = some (sumAt gaps second)) ∧
      s.getTotal = sumWithin gaps 5 s.lastUpdateTime :=
  used_window 5 (by decide) gaps (by decide) (by decide)

end Helens.LoadBalance
