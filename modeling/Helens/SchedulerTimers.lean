import Helens.SchedulerWakeups

/-! Whether a worker is awake for the earliest timer. A deadline is served when a tickle is under
way, a worker waits no longer than that, or a worker is on its way to `getNextTimer`. A timer put in
front of the others calls for a tickle, once until the next `getNextTimer`. -/

namespace Helens.Scheduler

open Lib Lib.Runs

/-! ## Served deadlines -/

def Wait.late (D : Nat) (t : Wait) : Bool :=
  match t.wakeTime with
  | none => true
  | some wake => D < wake

/-- The worker has its timeout, and waits or is about to wait past `D`. -/
def Pc.late (D : Nat) : Pc → Bool
  | .check t | .armed t | .blocked t => t.late D
  | _ => false

/-- The worker waits or is about to wait, and not past `D`. -/
def Pc.punctual (D : Nat) : Pc → Bool
  | .check t | .armed t | .blocked t => !t.late D
  | _ => false

/-- The worker is on its way to `getNextTimer` with no task to run first, or is
about to write to the pipe. -/
def Pc.looks : Pc → Bool
  | .check _ | .armed _ | .blocked _ | .dispatch (some _) | .swapIn _ _ | .running _ _ | .exited =>
    false
  | _ => true

def Pc.serves (D : Nat) (pc : Pc) : Bool := pc.looks || pc.punctual D

/-- No worker waits past the earliest deadline unless the deadline is served. -/
def OnTime (s : Shared) (workers : List Worker) : Prop :=
  ∀ D ∈ s.timers.deadline, (∃ w ∈ workers, w.pc.late D = true) → Watched (Pc.serves D) s workers
  deriving Decidable

/-- A deadline that comes in front of the others is served as well. -/
def Ahead (s : State) (D : Nat) : Prop :=
  s.shared.timers.tickled = true → (∃ w ∈ s.workers, w.pc.late D = true) →
    Watched (Pc.serves D) s.shared s.workers
  deriving Decidable

/-- When a worker's step does not leave a deadline to a wait that is too long. -/
def Worker.Timely (s : State) (i : Nat) (c : Choice) (w : Worker) : Prop :=
  match w.pc with
  | .scan =>
    (scanFibers s.shared.state i s.shared.fibers).1.isSome = true →
    (scanFibers s.shared.state i s.shared.fibers).2.2 = false →
      OnTime s.shared (s.workers.eraseIdx i)
  | .dispatch none => w.idleTerm = true → OnTime s.shared (s.workers.eraseIdx i)
  | .idle =>
    match c with
    | .clock now =>
      epollTimeout (s.shared.timers.getNextTimer now).2 = none → ∀ D ∈ s.shared.timers.deadline,
        Watched (Pc.serves D) s.shared (s.workers.eraseIdx i)
    | _ => True
  | .blocked t =>
    match c with
    | .interrupt now => ∀ D ∈ s.shared.timers.deadline, ({ t with since := now } : Wait).late D →
        Watched (Pc.serves D) s.shared (s.workers.eraseIdx i)
    | _ => True
  | _ => True

instance (s : State) (i : Nat) (c : Choice) (w : Worker) : Decidable (w.Timely s i c) := by
  unfold Worker.Timely
  exact match w.pc with
    | .scan | .dispatch none => inferInstance
    | .idle => by
      dsimp only
      exact match c with
        | .clock _ => inferInstance
        | .go | .yieldToReady | .yieldToHold | .finish | .throws | .pending _ | .wake _
        | .interrupt _ | .expire _ _ => instDecidableTrue
    | .blocked _ => by
      dsimp only
      exact match c with
        | .interrupt _ => inferInstance
        | .go | .yieldToReady | .yieldToHold | .finish | .throws | .clock _ | .pending _
        | .wake _ | .expire _ _ => instDecidableTrue
    | .tickle _ | .write _ | .dispatch (some _) | .drop | .swapIn _ _ | .running _ _
    | .swapOut _ _ | .back _ _ | .after _ _ | .requeue _ _ | .park _ _ | .recycle _ | .enter
    | .check _ | .armed _ | .woken _ | .posting _ _ | .handling _ | .leave | .exited =>
      instDecidableTrue

def Timely (s : State) : Action → Prop
  | .addTimer ms _ _ now _ => Ahead s (u64 (now + ms))
  | .reset i ms fromNow now =>
    (s.shared.timers.timer i).cb.isSome = true →
      Ahead s (TimerManager.resetTime (s.shared.timers.timer i) ms fromNow now)
  | .worker i c => ∀ w ∈ s.workers[i]?, w.Timely s i c
  | _ => True

instance (s : State) : (a : Action) → Decidable (Timely s a)
  | .addTimer ms _ _ now _ => inferInstanceAs (Decidable (Ahead s (u64 (now + ms))))
  | .reset i ms fromNow now =>
    inferInstanceAs (Decidable (_ → _))
  | .worker i c => inferInstanceAs (Decidable (∀ w ∈ s.workers[i]?, _))
  | .create | .schedule _ | .stop | .notify | .write => inferInstanceAs (Decidable True)

/-! ## Waits -/

theorem Wait.late_mono {D D' : Nat} (hle : D ≤ D') {t : Wait} (h : t.late D' = true) :
    t.late D = true := by
  unfold Wait.late at h ⊢
  split at h
  · rfl
  · simp only [decide_eq_true_eq] at h ⊢
    omega

theorem Pc.late_mono {D D' : Nat} (hle : D ≤ D') {pc : Pc} (h : pc.late D' = true) :
    pc.late D = true := by
  cases pc with
  | check t | armed t | blocked t => exact Wait.late_mono hle h
  | _ => cases h

theorem Pc.serves_mono {D D' : Nat} (hle : D ≤ D') {pc : Pc} (h : pc.serves D = true) :
    pc.serves D' = true := by
  have hpunctual : pc.punctual D = true → pc.punctual D' = true := by
    intro h
    cases pc with
    | check t | armed t | blocked t =>
      simp only [Pc.punctual, Bool.not_eq_true'] at h ⊢
      by_contra hlate
      rw [Wait.late_mono hle (by simpa using hlate)] at h
      cases h
    | _ => cases h
  unfold Pc.serves at h ⊢
  rw [Bool.or_eq_true] at h ⊢
  exact h.imp id hpunctual

theorem Pc.idling_of_late {D : Nat} {pc : Pc} (h : pc.late D = true) : pc.idling = 1 := by
  cases pc with
  | check t | armed t | blocked t => rfl
  | _ => cases h

theorem epollTimeout_le (h : epollTimeout (some t) = some timeout) : timeout ≤ t := by
  unfold epollTimeout at h
  dsimp only at h
  split at h
  · have heq := Option.some.inj h
    omega
  split at h
  · have hmod := Nat.mod_le t (2 ^ 32)
    have hmin := Nat.min_le_left (t % 2 ^ 32) 3000
    have heq := Option.some.inj h
    omega
  · cases h

/-- A timeout that fits an `int` does not reach past the deadline it was taken from. -/
theorem punctual_nextTimer {m : TimerManager} {D now timeout : Nat} (hD : m.deadline = some D)
    (htimeout : epollTimeout (m.getNextTimer now).2 = some timeout) :
    Wait.late D ⟨(m.getNextTimer now).2, now⟩ = false := by
  rw [TimerManager.getNextTimer_eq, hD] at htimeout ⊢
  dsimp only [Option.map_some] at htimeout ⊢
  have hle := epollTimeout_le htimeout
  unfold Wait.late Wait.wakeTime
  rw [htimeout]
  cases timeout with
  | zero => simp
  | succ n =>
    simp only [decide_eq_false_iff_not]
    split at hle <;> omega

/-! ## What the steps keep -/

theorem Sound.none_late {s : State} (h : Sound s) (hidle : ¬ s.shared.idleThreadCount > 0)
    {w : Worker} (hw : w ∈ s.workers) {D : Nat} : w.pc.late D = false := by
  by_contra hlate
  exact hidle (h.idle_pos hw (Pc.idling_of_late (D := D) (by simpa using hlate)))

section
variable {s : State} {i : Nat} {w w' : Worker} {shared : Shared}

theorem onTime_served (hw : s.workers[i]? = some w)
    (h : ∀ D ∈ shared.timers.deadline, w'.pc.serves D = true ∨
      Watched (Pc.serves D) shared (s.workers.eraseIdx i)) :
    OnTime shared (s.workers.set i w') := by
  intro D hD _
  exact (watched_set_iff hw w').mpr (h D hD)

theorem onTime_quit (hw : s.workers[i]? = some w)
    (hlate : ∀ D, w'.pc.late D = false) (h : OnTime shared (s.workers.eraseIdx i)) :
    OnTime shared (s.workers.set i w') := by
  rintro D hD ⟨v, hv, hv'⟩
  rcases (mem_set_iff_eraseIdx hw w' v).mp hv with rfl | hv
  · rw [hlate D] at hv'
    cases hv'
  · exact (watched_set_iff hw w').mpr (.inr (h D hD ⟨v, hv, hv'⟩))

theorem onTime_same (h : OnTime s.shared s.workers) (hw : s.workers[i]? = some w)
    (hlate : ∀ D, w'.pc.late D = true → w.pc.late D = true)
    (hserves : ∀ D, w.pc.serves D = true → w'.pc.serves D = true)
    (htimers : shared.timers = s.shared.timers) (hpipe : shared.pipe = s.shared.pipe)
    (htickles : shared.tickles = s.shared.tickles) (hwrites : shared.writes = s.shared.writes) :
    OnTime shared (s.workers.set i w') := by
  rintro D hD ⟨v, hv, hv'⟩
  rw [htimers] at hD
  have hbefore : ∃ v ∈ s.workers, v.pc.late D = true := by
    rcases (mem_set_iff_eraseIdx hw w' v).mp hv with rfl | hv
    · exact ⟨w, List.mem_of_getElem? hw, hlate D hv'⟩
    · exact ⟨v, List.mem_of_mem_eraseIdx hv, hv'⟩
  refine (watched_set_iff hw w').mpr ?_
  rcases (watched_iff hw).mp (h D hD hbefore) with hself | hothers
  · exact .inl (hserves D hself)
  · exact .inr (hothers.mono (by rw [hpipe]; exact id) (Nat.le_of_eq htickles.symm)
      (Nat.le_of_eq hwrites.symm) fun _ => id)

theorem onTime_move {c : Choice} (hsound : Sound s) (h : OnTime s.shared s.workers)
    (hC : Timely s (.worker i c)) (hw : s.workers[i]? = some w)
    (hmove : Moves i c w s.shared w' shared) : OnTime shared (s.workers.set i w') := by
  by_cases hlooks : w'.pc.looks = true
  · exact onTime_served hw fun D _ => .inl (by rw [Pc.serves, hlooks]; rfl)
  have hC := hC w hw
  cases hmove with
  | stay => exact onTime_same h hw (fun _ => id) (fun _ => id) rfl rfl rfl rfl
  | @take _ _ _ ft left hscan =>
    refine onTime_quit hw (fun _ => rfl) ?_
    have hothers := hC (by rw [hscan]; rfl) (by rw [hscan])
    exact fun D hD hlate => (hothers D hD hlate).mono id (Nat.le_refl _) (Nat.le_refl _) fun _ => id
  | @noIdle _ _ _ k hidle =>
    refine onTime_quit hw (fun _ => by cases k <;> rfl) ?_
    rintro D _ ⟨v, hv, hlate⟩
    rw [hsound.none_late hidle (List.mem_of_mem_eraseIdx hv)] at hlate
    cases hlate
  | write => exact onTime_served hw fun _ _ => .inr (.inl rfl)
  | exit => exact onTime_quit hw (fun _ => rfl) (hC rfl)
  | start => exact onTime_same h hw (fun _ => id) nofun rfl rfl rfl rfl
  | reuse => exact onTime_same h hw (fun _ => id) nofun rfl rfl rfl rfl
  | fresh => exact onTime_same h hw (fun _ => id) nofun rfl rfl rfl rfl
  | swapIn => exact onTime_same h hw (fun _ => id) nofun rfl rfl rfl rfl
  | @nextTimer _ _ _ now hc =>
    subst hc
    refine onTime_served hw ?_
    intro D hD
    have hdeadline : s.shared.timers.deadline = some D := by
      rw [TimerManager.getNextTimer_eq] at hD
      exact hD
    cases htimeout : epollTimeout (s.shared.timers.getNextTimer now).2 with
    | none =>
      have hothers := hC htimeout D hdeadline
      exact .inr (hothers.mono id (Nat.le_refl _) (Nat.le_refl _) fun _ => id)
    | some timeout =>
      left
      simp [Pc.serves, Pc.punctual, punctual_nextTimer hdeadline htimeout]
  | arm => exact onTime_same h hw (fun _ => id) (fun _ => id) rfl rfl rfl rfl
  | block => exact onTime_same h hw (fun _ => id) (fun _ => id) rfl rfl rfl rfl
  | @interrupt _ _ _ t now hc =>
    subst hc
    refine onTime_served hw ?_
    intro D hD
    cases hlate : ({ t with since := now } : Wait).late D with
    | true => exact .inr (hC D hD hlate)
    | false =>
      left
      simp [Pc.serves, Pc.punctual, hlate]
  | expire => exact absurd (by dsimp only; split <;> rfl) hlooks
  | _ => exact absurd rfl hlooks

end

/-- A timer that comes in front calls for a tickle, or is served already; one that
does not leaves an earlier deadline. -/
theorem onTime_insert {s : State} (h : OnTime s.shared s.workers) {shared : Shared} {atFront : Bool}
    (hpipe : shared.pipe = s.shared.pipe)
    (htickles : shared.tickles = s.shared.tickles + if atFront then 1 else 0)
    (hwrites : shared.writes = s.shared.writes)
    (hdeadline : ∀ D, shared.timers.deadline = some D → atFront = true ∨
      (s.shared.timers.tickled = true ∧ Ahead s D) ∨
      ∃ D' ≤ D, s.shared.timers.deadline = some D') : OnTime shared s.workers := by
  rintro D hD ⟨w, hw, hlate⟩
  rcases hdeadline D hD with hfront | ⟨htickled, hahead⟩ | ⟨D', hle, hD'⟩
  · refine .inr (.inl ?_)
    rw [htickles, if_pos hfront]
    exact Nat.succ_pos _
  · exact (hahead htickled ⟨w, hw, hlate⟩).mono (by rw [hpipe]; exact id)
      (by rw [htickles]; exact Nat.le_add_right _ _) (Nat.le_of_eq hwrites.symm) fun _ => id
  · exact (h D' hD' ⟨w, hw, Pc.late_mono hle hlate⟩).mono (by rw [hpipe]; exact id)
      (by rw [htickles]; exact Nat.le_add_right _ _) (Nat.le_of_eq hwrites.symm)
      fun _ => Pc.serves_mono hle

theorem onTime_outer {s : State} (hsound : Sound s) (htimers : s.shared.timers.Inv [])
    (h : OnTime s.shared s.workers) (hC : Timely s a) {shared : Shared}
    (houter : Outer s.workers.length a s.shared shared) : OnTime shared s.workers := by
  cases houter with
  | stay => exact h
  | create => exact h
  | scheduleFirst => exact fun D hD _ => .inr (.inl (Nat.succ_pos _))
  | schedule => exact h
  | addTimer =>
    refine onTime_insert h rfl rfl rfl fun D hD => ?_
    rcases htimers.addTimer_deadline hD with hfront | ⟨htickled, rfl⟩ | hbefore
    · exact .inl hfront
    · exact .inr (.inl ⟨htickled, hC⟩)
    · exact .inr (.inr hbefore)
  | reset hreset =>
    refine onTime_insert h rfl rfl rfl fun D hD => ?_
    rcases htimers.reset_deadline hreset hD with hfront | ⟨htickled, hcb, rfl⟩ | hbefore
    · exact .inl hfront
    · exact .inr (.inl ⟨htickled, hC hcb⟩)
    · exact .inr (.inr hbefore)
  | stop =>
    intro D hD hlate
    exact (h D hD hlate).mono id (Nat.le_add_right _ _) (Nat.le_refl _) fun _ => id
  | notify => exact fun D hD _ => .inr (.inr (.inl (Nat.succ_pos _)))
  | noIdle hidle =>
    rintro D _ ⟨v, hv, hlate⟩
    rw [hsound.none_late hidle hv] at hlate
    cases hlate
  | write => exact fun D hD _ => .inl rfl

/-! ## Runs -/

structure Timed (s : State) : Prop where
  sound : Sound s
  timers : s.shared.timers.Inv []
  onTime : OnTime s.shared s.workers

theorem Moves.timers {w w' : Worker} {s s' : Shared}
    (hmove : Moves self c w s w' s') (h : s.timers.Inv []) : s'.timers.Inv [] := by
  cases hmove with
  | nextTimer =>
    rw [TimerManager.getNextTimer_eq]
    exact h.flags _ _
  | expire hlist => exact ((h.listExpiredCb _ _).of_ok hlist).1
  | _ => exact h

theorem Outer.timers {s s' : Shared} (houter : Outer n a s s')
    (h : s.timers.Inv []) : s'.timers.Inv [] := by
  cases houter with
  | addTimer haddr => exact (h.addTimer _ _ _ _ _ haddr).1
  | reset hreset => exact ((h.reset _ _ _ _).of_ok hreset).1
  | _ => exact h

theorem exec_timed (s a) (h : Timed s) (hC : Timely s a) :
    Post Timed (fun _ => True) (exec a s) := by
  refine post_exec ?_ ?_ fun _ _ => trivial
  · intro shared houter
    exact ⟨h.sound.outer houter, houter.timers h.timers,
      onTime_outer h.sound h.timers h.onTime hC houter⟩
  · rintro i c w w' shared rfl hw hmove
    exact ⟨h.sound.move hw hmove, hmove.timers h.timers, onTime_move h.sound h.onTime hC hw hmove⟩

theorem init_timed (n now) : Timed (init n now) where
  sound := init_sound n now
  timers := (TimerManager.init_inv now).manager
  onTime := by
    rintro D hD
    cases hD

/-- **In a run of timely steps,** no worker waits past the earliest deadline unless a tickle is
pending, or another worker serves it. -/
theorem deadlines_served (n now : Nat) (as : List Action) (h : Along exec Timely as (init n now)) :
    Post (fun s => OnTime s.shared s.workers) (fun _ => True) (run exec as (init n now)) :=
  (post_run exec_timed as _ h (init_timed n now)).imp (fun _ hs => hs.onTime)

def goesToSleep (i now : Nat) : List Action :=
  [.worker i .go, .worker i .go, .worker i .go, .worker i (.clock now), .worker i (.pending true),
    .worker i .go]

def timerInFront : List Action :=
  goesToSleep 0 0 ++ goesToSleep 1 0 ++
    [Action.addTimer 100 7 false 0 1, .notify, .write, .worker 1 (.wake true)]

theorem deadlines_served_front : Along exec Timely timerInFront (init 2 0) ∧
      Post (fun s => OnTime s.shared s.workers) (fun _ => True)
        (run exec timerInFront (init 2 0)) :=
  ⟨by decide, deadlines_served 2 0 timerInFront (by decide)⟩

/-- A timeout of `2 ^ 31` is negative as an `int`; and one report of the pipe can stand for the
tickles of a timer and of a task, whose worker takes the task only. -/
theorem sleeps_past_deadline : Post (fun s => ¬ OnTime s.shared s.workers) (fun _ => False)
        (run exec (.addTimer (2 ^ 31) 7 false 0 1 :: .notify :: goesToSleep 0 0) (init 1 0)) ∧
      Post (fun s => ¬ OnTime s.shared s.workers) (fun _ => False)
        (run exec (goesToSleep 0 0 ++ goesToSleep 1 0 ++
          [Action.addTimer 100 7 false 0 1, .notify, .write, .schedule [{ task := .cb 3 }], .notify,
            .write, .worker 1 (.wake true), .worker 1 (.expire 0 2), .worker 1 .go,
            .worker 1 .go, .worker 1 .go, .worker 1 .go]) (init 2 0)) :=
  ⟨by decide, by decide⟩

end Helens.Scheduler
