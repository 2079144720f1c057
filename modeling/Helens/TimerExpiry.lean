import Helens.Timer

/-! What `listExpiredCb` lists and leaves behind. `lower_bound` with a probe that has the clock and
some address, and a skip over equal deadlines, split the set at the clock. -/

namespace Helens
open Lib Lib.Runs List

namespace TimerManager

variable {m : TimerManager}

/-! ## The split -/

theorem less_probe_iff (i now addr : Nat) : (m.timer i).less { next := now, addr } = true ↔
    m.key i < toLex (now, addr) := by
  rw [key, Prod.Lex.toLex_lt_toLex]
  unfold Timer.less
  dsimp only
  split
  · simp_all
  · split
    · simp; omega
    · simp; omega

/-- `lower_bound` of the probe and the skip behind it leave the timers that are not due. -/
theorem dropWhile_probe (now addr : Nat) (h : OrderedSet.Ordered m.less l) :
    (OrderedSet.lowerBound (fun i => (m.timer i).less { next := now, addr }) l).dropWhile
        (fun i => (m.timer i).next == now) =
      l.filter fun i => decide (now < (m.timer i).next) := by
  have hbelow : l.Pairwise fun i j => (m.timer j).less { next := now, addr } = true →
      (m.timer i).less { next := now, addr } = true := by
    refine List.Pairwise.imp ?_ h
    intro i j hij hj
    rw [less_probe_iff] at hj ⊢
    exact lt_trans ((m.less_iff i j).mp hij) hj
  rw [OrderedSet.lowerBound, OrderedSet.dropWhile_eq_filter hbelow]
  -- what is not below the probe is not due earlier, so equal deadlines come first
  have hge : ∀ i, (!(m.timer i).less { next := now, addr }) = true → now ≤ (m.timer i).next := by
    intro i hi
    by_contra hlt
    rw [Timer.less, if_pos (by simpa using hlt)] at hi
    cases hi
  have hequal : (l.filter fun i => !(m.timer i).less { next := now, addr }).Pairwise
      fun i j => ((m.timer j).next == now) = true → ((m.timer i).next == now) = true := by
    refine List.Pairwise.imp_of_mem ?_ ((next_le_of_ordered h).sublist filter_sublist)
    intro i j hi _ hle hj
    have hnow := hge i (mem_filter.mp hi).2
    rw [beq_iff_eq] at hj ⊢
    omega
  rw [OrderedSet.dropWhile_eq_filter hequal, filter_filter]
  apply filter_congr
  intro i _
  rw [Bool.eq_iff_iff, Bool.and_eq_true, decide_eq_true_eq]
  constructor
  · rintro ⟨hne, hless⟩
    have hnow := hge i hless
    have hne' : (m.timer i).next ≠ now := by simpa using hne
    omega
  · intro hlt
    have hless : (m.timer i).less { next := now, addr } = false := by
      rw [Timer.less, if_neg (by simp; omega), if_pos hlt]
    exact ⟨by simp; omega, by rw [hless]; rfl⟩

/-! ## The loop -/

def settled (now : Nat) (t : Timer) : Timer :=
  if t.recurring then { t with next := u64 (now + t.ms) } else { t with cb := none }

theorem Inv.settle_eq (h : Inv m (i :: out)) (now) :
    ∃ m', m.settle i now = .ok m' ∧ Inv m' out ∧
      (∀ j, m'.timer j = if j = i then settled now (m.timer i) else m.timer j) ∧
      ∀ j, j ∈ m'.timers ↔ j ∈ m.timers ∨ j = i ∧ (m.timer i).recurring = true := by
  have hlt := h.lt_length (.inr mem_cons_self)
  unfold TimerManager.settle
  by_cases hrec : (m.timer i).recurring = true
  · have hmod := (h.modify mem_cons_self
      (f := fun t => { t with next := u64 (now + (m.timer i).ms) }) (fun _ => rfl) (fun _ => rfl)).1
    rw [if_pos hrec, TimerManager.setNext, if_neg (h.apart i mem_cons_self)]
    refine ⟨_, rfl, hmod.insert, ?_, ?_⟩
    · intro j
      change (m.modify i _).timer j = _
      rw [timer_modify hlt, settled, if_pos hrec]
    · intro j
      rw [TimerManager.insert, OrderedSet.mem_insert (less_iff _)
        fun _ hk => hmod.key_ne mem_cons_self hk, or_comm]
      simp only [hrec, and_true]
      rfl
  · rw [if_neg hrec]
    refine ⟨_, rfl, h.clearCb.1, ?_, ?_⟩
    · intro j
      rw [TimerManager.clearCb, timer_modify hlt, settled, if_neg hrec]
    · intro j
      simp only [hrec, and_false, or_false, Bool.false_eq_true]
      rfl

theorem Inv.expire_eq (now) (h : Inv m out) :
    ∃ m', TimerManager.expire now out m = .ok (m', out.map fun i => (i, (m.timer i).cb)) ∧
      (∀ j, m'.timer j = if j ∈ out then settled now (m.timer j) else m.timer j) ∧
      ∀ j, j ∈ m'.timers ↔ j ∈ m.timers ∨ j ∈ out ∧ (m.timer j).recurring = true := by
  induction out generalizing m with
  | nil => exact ⟨m, rfl, by simp, by simp⟩
  | cons i rest ih =>
    obtain ⟨hi, -⟩ := nodup_cons.mp h.nodup
    obtain ⟨m₁, hsettle, hinv, htimer, hmem⟩ := h.settle_eq now
    obtain ⟨m₂, hexpire, htimer₂, hmem₂⟩ := ih hinv
    have hrest : ∀ j ∈ rest, m₁.timer j = m.timer j := by
      intro j hj
      rw [htimer, if_neg]
      rintro rfl
      exact hi hj
    refine ⟨m₂, ?_, ?_, ?_⟩
    · have hcbs : (rest.map fun j => (j, (m₁.timer j).cb)) =
          rest.map fun j => (j, (m.timer j).cb) :=
        map_congr_left fun j hj => by rw [hrest j hj]
      simp only [TimerManager.expire, hsettle, hexpire, hcbs, bind, Except.bind, pure, Except.pure,
        map_cons]
    · intro j
      rw [htimer₂]
      by_cases hj : j ∈ rest
      · rw [if_pos hj, if_pos (mem_cons_of_mem _ hj), hrest j hj]
      · rw [if_neg hj, htimer]
        by_cases hji : j = i
        · rw [if_pos hji, if_pos (hji ▸ mem_cons_self), hji]
        · rw [if_neg hji, if_neg (by simp [hji, hj])]
    · intro j
      rw [hmem₂, hmem, mem_cons]
      constructor
      · rintro ((hj | ⟨rfl, hrec⟩) | ⟨hj, hrec⟩)
        · exact .inl hj
        · exact .inr ⟨.inl rfl, hrec⟩
        · rw [hrest j hj] at hrec
          exact .inr ⟨.inr hj, hrec⟩
      · rintro (hj | ⟨rfl | hj, hrec⟩)
        · exact .inl (.inl hj)
        · exact .inl (.inr ⟨rfl, hrec⟩)
        · rw [← hrest j hj] at hrec
          exact .inr ⟨hj, hrec⟩

/-! ## The call -/

/-- The timers that are listed: those that are due, or all of them if the clock has gone back. -/
def expired (m : TimerManager) (now : Nat) : List Nat :=
  if (m.detectClockRollover now).2 then m.timers
  else m.timers.filter fun i => decide ((m.timer i).next ≤ now)

theorem due_of_ordered (h : OrderedSet.Ordered m.less l) (now) :
    l.Pairwise fun i j => decide ((m.timer j).next ≤ now) = true →
      decide ((m.timer i).next ≤ now) = true := by
  refine List.Pairwise.imp ?_ (next_le_of_ordered h)
  intro i j hle hj
  rw [decide_eq_true_eq] at hj ⊢
  omega

theorem filter_due_append (h : OrderedSet.Ordered m.less l) (now) :
    (l.filter fun i => decide ((m.timer i).next ≤ now)) ++
      (l.filter fun i => decide (now < (m.timer i).next)) = l := by
  have hdue := due_of_ordered h now
  have hrest : (l.filter fun i => decide (now < (m.timer i).next)) =
      l.dropWhile fun i => decide ((m.timer i).next ≤ now) := by
    rw [OrderedSet.dropWhile_eq_filter hdue]
    apply filter_congr
    intro i _
    rw [Bool.eq_iff_iff, Bool.not_eq_true', decide_eq_true_eq, decide_eq_false_iff_not]
    omega
  rw [hrest, ← OrderedSet.takeWhile_eq_filter hdue, takeWhile_append_dropWhile]

theorem Inv.expire_split (h : Inv m []) (heq : out ++ it = m.timers) (now) :
    ∃ m', TimerManager.expire now (m.timers.take (m.timers.length - it.length))
        { m with timers := it, previouseTime := now } =
        .ok (m', out.map fun i => (i, (m.timer i).cb)) ∧
      (∀ j, m'.timer j = if j ∈ out then settled now (m.timer j) else m.timer j) ∧
      ∀ j, j ∈ m'.timers ↔ j ∈ m.timers ∧ j ∉ out ∨ j ∈ out ∧ (m.timer j).recurring = true := by
  have htake : m.timers.take (m.timers.length - it.length) = out := by
    rw [← heq]
    exact take_left' (by simp)
  have hsplit := (h.flags m.tickled now).split heq
  obtain ⟨m', hexpire, htimer, hmem⟩ := hsplit.expire_eq now
  refine ⟨m', by rw [htake]; exact hexpire, htimer, fun j => ?_⟩
  rw [hmem, ← heq, mem_append]
  have hapart : j ∈ out → j ∉ it := fun hj => hsplit.apart j hj
  change j ∈ it ∨ j ∈ out ∧ (m.timer j).recurring = true ↔ _
  tauto

theorem Inv.listExpiredCb_eq (h : Inv m []) (now addr) : ∃ m', m.listExpiredCb now addr =
        .ok (m', (m.expired now).map fun i => (i, (m.timer i).cb)) ∧
      (∀ j, m'.timer j = if j ∈ m.expired now then settled now (m.timer j) else m.timer j) ∧
      ∀ j, j ∈ m'.timers ↔
        j ∈ m.timers ∧ j ∉ m.expired now ∨ j ∈ m.expired now ∧ (m.timer j).recurring = true := by
  have hdue := due_of_ordered h.ordered now
  unfold TimerManager.listExpiredCb expired
  generalize hroll : m.detectClockRollover now = roll
  obtain ⟨m₁, rollover⟩ := roll
  obtain rfl : m₁ = { m with previouseTime := now } := (congrArg Prod.fst hroll).symm
  cases hl : m.timers with
  | nil => exact ⟨m, by simp; rfl, by simp, by simp [hl]⟩
  | cons front rest =>
    dsimp only
    rw [← hl]
    cases rollover with
    | true => exact h.expire_split (append_nil _) now
    | false =>
      simp only [Bool.not_false, Bool.true_and, Bool.false_eq_true, if_false]
      split
      · -- the front is not due, so none is
        rename_i hfront
        have hnone : (m.timers.filter fun i => decide ((m.timer i).next ≤ now)) = [] := by
          rw [← OrderedSet.takeWhile_eq_filter hdue, hl, takeWhile_cons, if_neg]
          have hlt : (m.timer front).next > now := of_decide_eq_true hfront
          simpa using hlt
        rw [hnone]
        exact ⟨_, rfl, fun j => by simp; rfl, fun j => by simp⟩
      · obtain ⟨m', hexpire, hrest⟩ := h.expire_split (filter_due_append h.ordered now) now
        rw [← dropWhile_probe now addr h.ordered] at hexpire
        exact ⟨m', hexpire, hrest⟩

/-! ## The flag -/

theorem detectClockRollover_of_le (h : m.previouseTime ≤ now) :
    (m.detectClockRollover now).2 = false := by
  rw [detectClockRollover, decide_eq_false_iff_not]
  omega

theorem detectClockRollover_of_lt (hu64 : m.previouseTime < 2 ^ 64)
    (h : now + 60 * 60 * 1000 < m.previouseTime) : (m.detectClockRollover now).2 = true := by
  rw [detectClockRollover, decide_eq_true_eq, u64]
  omega

/-- **`listExpiredCb` returns the callbacks of `due`,** once and in the order of their deadlines: of
the timers that are due, or of all if the clock has gone back. Those that recur are stored again, no
other timer is touched. -/
theorem listExpiredCb_lists_due (now₀ : Nat) (as : List Action) (s : State)
    (hrun : run exec as (init now₀) = .ok s) (now addr : Nat) :
    ∃ (m' : TimerManager) (due : List Nat), s.manager.listExpiredCb now addr =
        .ok (m', due.map fun i => (i, (s.manager.timer i).cb)) ∧
      due.Nodup ∧
      (due.Pairwise fun i j => (s.manager.timer i).next ≤ (s.manager.timer j).next) ∧
      ((s.manager.detectClockRollover now).2 = false →
        ∀ i, i ∈ due ↔ i ∈ s.manager.timers ∧ (s.manager.timer i).next ≤ now) ∧
      ((s.manager.detectClockRollover now).2 = true → due = s.manager.timers) ∧
      (s.manager.previouseTime ≤ now → (s.manager.detectClockRollover now).2 = false) ∧
      (s.manager.previouseTime < 2 ^ 64 → now + 60 * 60 * 1000 < s.manager.previouseTime →
        (s.manager.detectClockRollover now).2 = true) ∧
      (∀ i ∈ due, (s.manager.timer i).recurring = true → i ∈ m'.timers ∧
        m'.timer i = { s.manager.timer i with next := u64 (now + (s.manager.timer i).ms) }) ∧
      (∀ i ∈ due, (s.manager.timer i).recurring = false →
        i ∉ m'.timers ∧ m'.timer i = { s.manager.timer i with cb := none }) ∧
      ∀ i, i ∉ due → m'.timer i = s.manager.timer i ∧ (i ∈ m'.timers ↔ i ∈ s.manager.timers) := by
  have hinv := inv_of_run hrun
  obtain ⟨m', hlist, htimer, hmem⟩ := hinv.manager.listExpiredCb_eq now addr
  have hsub : (s.manager.expired now).Sublist s.manager.timers := by
    rw [expired]
    split
    · exact List.Sublist.refl _
    · exact filter_sublist
  refine ⟨m', s.manager.expired now, hlist, ?_, ?_, ?_, ?_, detectClockRollover_of_le,
    detectClockRollover_of_lt, ?_, ?_, ?_⟩
  · exact (ordered_nodup hinv.manager.ordered).sublist hsub
  · exact (next_le_of_ordered hinv.manager.ordered).sublist hsub
  · intro hflag i
    simp [expired, hflag]
  · intro hflag
    rw [expired, if_pos hflag]
  · intro i hi hrec
    rw [htimer, if_pos hi, settled, if_pos hrec]
    exact ⟨(hmem i).mpr (.inr ⟨hi, hrec⟩), rfl⟩
  · intro i hi hrec
    rw [htimer, if_pos hi, settled, if_neg (by simp [hrec]), hmem]
    exact ⟨by simp [hi, hrec], rfl⟩
  · intro i hi
    rw [htimer, if_neg hi, hmem]
    exact ⟨rfl, by simp [hi]⟩

def threeTimers : State :=
  { manager :=
      { heap := [⟨true, 5, 15, some 0, 8⟩, ⟨false, 9, 19, some 1, 4⟩, ⟨false, 5, 15, some 2, 6⟩],
        timers := [2, 0, 1], tickled := true, previouseTime := 10 } }

theorem listExpiredCb_lists_due_threeTimers :
    run exec [.addTimer 5 0 true 10 8, .addTimer 9 1 false 10 4, .addTimer 5 2 false 10 6]
        (init 10) = .ok threeTimers ∧
      ∃ (m' : TimerManager) (due : List Nat), threeTimers.manager.listExpiredCb 15 7 =
          .ok (m', due.map fun i => (i, (threeTimers.manager.timer i).cb)) ∧
        (∀ i, i ∈ due ↔ i ∈ threeTimers.manager.timers ∧
          (threeTimers.manager.timer i).next ≤ 15) := by
  have hrun : run exec [.addTimer 5 0 true 10 8, .addTimer 9 1 false 10 4,
      .addTimer 5 2 false 10 6] (init 10) = .ok threeTimers := by decide +kernel
  obtain ⟨m', due, hlist, -, -, hdue, -, hflag, -⟩ :=
    listExpiredCb_lists_due 10 _ threeTimers hrun 15 7
  exact ⟨hrun, m', due, hlist, hdue (hflag (by decide))⟩

end TimerManager
end Helens
