import Helens.SchedulerFibers

/-! Whether a queued task finds a worker. A worker that neither runs a task nor sleeps will look at
the queue again, and so will one that a tickle wakes. A task is lost when there is none of either
and a worker sleeps. -/

namespace Helens.Scheduler

open Lib Lib.Runs List

/-! ## Attended queues -/

def Pc.asleep : Pc → Bool
  | .blocked _ => true
  | _ => false

/-- The worker will look at the queue again by itself, or is about to write to the pipe. -/
def Pc.alert : Pc → Bool
  | .blocked _ | .dispatch (some _) | .swapIn _ _ | .running _ _ | .exited => false
  | _ => true

def FiberAndThread.runnable (state : Nat → FiberState) (ft : FiberAndThread) : Bool :=
  ft.thread == none && !ft.executing state

/-- A tickle is pending or in flight, or one of these workers stands where `p` says. -/
def Watched (p : Pc → Bool) (s : Shared) (workers : List Worker) : Prop :=
  s.pipe = true ∨ 0 < s.tickles ∨ 0 < s.writes ∨ ∃ w ∈ workers, p w.pc = true
  deriving Decidable

abbrev Attended (s : Shared) (workers : List Worker) : Prop := Watched Pc.alert s workers

/-- A runnable task waits while a worker sleeps and nothing will bring it to look. -/
def Lost (s : State) : Prop :=
  (∃ ft ∈ s.shared.fibers, ft.runnable s.shared.state = true) ∧
    (∃ w ∈ s.workers, w.pc.asleep = true) ∧ ¬ Attended s.shared s.workers

instance : DecidablePred Lost := fun s =>
  inferInstanceAs (Decidable (_ ∧ _))

def Worker.sleeps (w : Worker) : Bool :=
  match w.pc with
  | .armed t => epollTimeout t.next != some 0
  | _ => false

def Worker.exits (w : Worker) : Bool :=
  match w.pc with
  | .dispatch none => w.idleTerm
  | _ => false

/-- The steps that may lose a task, and when they do not. -/
def Heard (s : State) : Action → Prop
  | .schedule fts =>
    s.shared.fibers = [] ∨ (∀ ft ∈ fts, ft.runnable s.shared.state = false) ∨
      (∀ w ∈ s.workers, w.pc.asleep = false) ∨ Attended s.shared s.workers
  | .worker i _ =>
    ∀ w ∈ s.workers[i]?, (w.sleeps = true ∨
        w.exits = true ∧ ∃ v ∈ s.workers.eraseIdx i, v.pc.asleep = true) →
      (∀ ft ∈ s.shared.fibers, ft.runnable s.shared.state = false) ∨
        Attended s.shared (s.workers.eraseIdx i)
  | _ => True

instance (s : State) : (a : Action) → Decidable (Heard s a)
  | .schedule fts =>
    inferInstanceAs (Decidable (_ ∨ _))
  | .worker i _ =>
    inferInstanceAs (Decidable (∀ w ∈ s.workers[i]?, _))
  | .create | .addTimer _ _ _ _ _ | .reset _ _ _ _ | .stop | .notify | .write =>
    inferInstanceAs (Decidable True)

/-! ## The look through the queue -/

theorem scanFibers_last {state : Nat → FiberState}
    (h : scanFibers state self fibers = (some ft, left, false)) :
    ∀ it ∈ left, it.runnable state = false := by
  induction fibers generalizing left with
  | nil => cases h
  | cons it rest ih =>
    rcases hrest : scanFibers state self rest with ⟨ft', left', tickleMe'⟩
    unfold scanFibers at h
    rw [hrest] at h
    split at h
    · cases h
    · split at h
      · rename_i hexec
        cases h
        intro x hx
        rcases mem_cons.mp hx with rfl | hx
        · simp [FiberAndThread.runnable, hexec]
        · exact ih hrest x hx
      · obtain ⟨_, rfl, hrest'⟩ : some it.task = some ft ∧ rest = left ∧
          (!rest.isEmpty) = false := by
          simpa using h
        have hnil : rest = [] := by simpa using hrest'
        simp [hnil]

/-! ## What the steps keep -/

theorem Pc.idling_of_asleep {pc : Pc} (h : pc.asleep = true) : pc.idling = 1 := by
  cases pc with
  | blocked t => rfl
  | _ => cases h

theorem runnable_congr {state state' : Nat → FiberState} {ft : FiberAndThread}
    (h : ∀ f, ft.task = .fiber f → state f = .exec → state' f = .exec)
    (hrun : ft.runnable state' = true) : ft.runnable state = true := by
  unfold FiberAndThread.runnable FiberAndThread.executing at hrun ⊢
  cases ht : ft.task with
  | cb g => simpa [ht] using hrun
  | fiber f =>
    simp only [ht, Bool.and_eq_true, Bool.not_eq_true', beq_eq_false_iff_ne] at hrun ⊢
    exact ⟨hrun.1, fun hexec => hrun.2 (h f ht hexec)⟩

variable {s : State}

theorem watched_iff {p : Pc → Bool} {s : Shared} (hw : workers[i]? = some w) :
    Watched p s workers ↔ p w.pc = true ∨ Watched p s (workers.eraseIdx i) := by
  unfold Watched
  constructor
  · rintro (h | h | h | ⟨v, hv, h⟩)
    · exact .inr (.inl h)
    · exact .inr (.inr (.inl h))
    · exact .inr (.inr (.inr (.inl h)))
    · rcases (mem_iff_eraseIdx hw v).mp hv with rfl | hv
      · exact .inl h
      · exact .inr (.inr (.inr (.inr ⟨v, hv, h⟩)))
  · rintro (h | h | h | h | ⟨v, hv, h⟩)
    · exact .inr (.inr (.inr ⟨w, mem_of_getElem? hw, h⟩))
    · exact .inl h
    · exact .inr (.inl h)
    · exact .inr (.inr (.inl h))
    · exact .inr (.inr (.inr ⟨v, mem_of_mem_eraseIdx hv, h⟩))

theorem watched_set_iff {p : Pc → Bool} {s : Shared} {workers : List Worker} {w : Worker}
    (hw : workers[i]? = some w) (w' : Worker) :
    Watched p s (workers.set i w') ↔ p w'.pc = true ∨ Watched p s (workers.eraseIdx i) := by
  have hset : (workers.set i w')[i]? = some w' := by
    simp [(List.getElem?_eq_some_iff.mp hw).1]
  rw [watched_iff hset, eraseIdx_set_eq]

theorem Watched.mono {p q : Pc → Bool} {s s' : Shared}
    (h : Watched p s workers) (hpipe : s.pipe = true → s'.pipe = true)
    (htickles : s.tickles ≤ s'.tickles) (hwrites : s.writes ≤ s'.writes)
    (hpq : ∀ pc, p pc = true → q pc = true) : Watched q s' workers := by
  rcases h with h | h | h | ⟨w, hw, h⟩
  · exact .inl (hpipe h)
  · exact .inr (.inl (Nat.lt_of_lt_of_le h htickles))
  · exact .inr (.inr (.inl (Nat.lt_of_lt_of_le h hwrites)))
  · exact .inr (.inr (.inr ⟨w, hw, hpq _ h⟩))

theorem Sound.none_asleep (h : Sound s) (hidle : ¬ s.shared.idleThreadCount > 0)
    (hw : w ∈ s.workers) : w.pc.asleep = false := by
  by_contra hasleep
  exact hidle (h.idle_pos hw (Pc.idling_of_asleep (by simpa using hasleep)))

/-! ## What the steps keep -/

theorem not_lost_same (h : ¬ Lost s) {w w' : Worker} {shared : Shared}
    (hw : s.workers[i]? = some w) (halert : w.pc.alert = false)
    (hasleep : w'.pc.asleep = true → w.pc.asleep = true)
    (hfibers : ∀ ft ∈ shared.fibers, ft.runnable shared.state = true →
      ft ∈ s.shared.fibers ∧ ft.runnable s.shared.state = true)
    (hflags : Attended s.shared (s.workers.eraseIdx i) → Attended shared (s.workers.eraseIdx i)) :
    ¬ Lost { shared := shared, workers := s.workers.set i w' } := by
  rintro ⟨⟨ft, hft, hrun⟩, ⟨v, hv, hsleep⟩, hnot⟩
  replace hnot := fun hor => hnot ((watched_set_iff hw w').mpr hor)
  refine h ⟨⟨ft, hfibers ft hft hrun⟩, ?_, ?_⟩
  · rcases (mem_set_iff_eraseIdx hw w' v).mp hv with rfl | hv
    · exact ⟨w, mem_of_getElem? hw, hasleep hsleep⟩
    · exact ⟨v, mem_of_mem_eraseIdx hv, hsleep⟩
  · intro hatt
    rcases (watched_iff hw).mp hatt with hself | hothers
    · rw [halert] at hself
      cases hself
    · exact hnot (.inr (hflags hothers))

/-- A worker that stops looking loses nothing if no task is runnable or the queue is
attended without it. -/
theorem not_lost_quit {w w' : Worker} (hw : s.workers[i]? = some w)
    (hC : (∀ ft ∈ s.shared.fibers, ft.runnable s.shared.state = false) ∨
      Attended s.shared (s.workers.eraseIdx i)) :
    ¬ Lost { shared := s.shared, workers := s.workers.set i w' } := by
  rintro ⟨⟨ft, hft, hrun⟩, _, hnot⟩
  replace hnot := fun hor => hnot ((watched_set_iff hw w').mpr hor)
  rcases hC with hC | hC
  · rw [hC ft hft] at hrun
    cases hrun
  · exact hnot (.inr hC)

theorem not_lost_move (hsound : Sound s) (h : ¬ Lost s) {c : Choice} (hC : Heard s (.worker i c))
    {w w' : Worker} {shared : Shared} (hw : s.workers[i]? = some w)
    (hmove : Moves i c w s.shared w' shared) :
    ¬ Lost { shared := shared, workers := s.workers.set i w' } := by
  by_cases halert : w'.pc.alert = true
  -- an alert worker will look at the queue
  · rintro ⟨_, _, hnot⟩
    exact hnot ((watched_set_iff hw w').mpr (.inl halert))
  cases hmove with
  | stay =>
    exact not_lost_same h hw (by simpa using halert) id (fun ft hft hrun => ⟨hft, hrun⟩) id
  | take hscan =>
    rintro ⟨⟨ft, hft, hrun⟩, _, _⟩
    rw [scanFibers_last hscan ft hft] at hrun
    cases hrun
  | @noIdle _ _ _ k hidle =>
    rintro ⟨_, ⟨v, hv, hsleep⟩, _⟩
    rcases (mem_set_iff_eraseIdx hw _ v).mp hv with rfl | hv
    · cases k <;> cases hsleep
    · rw [hsound.none_asleep hidle (mem_of_mem_eraseIdx hv)] at hsleep
      cases hsleep
  | write =>
    rintro ⟨_, _, hnot⟩
    exact hnot (.inl rfl)
  | exit =>
    by_cases hsleep : ∃ v ∈ s.workers.eraseIdx i, v.pc.asleep = true
    · exact not_lost_quit hw (hC _ hw (.inr ⟨rfl, hsleep⟩))
    · rintro ⟨_, ⟨v, hv, hv'⟩, _⟩
      rcases (mem_set_iff_eraseIdx hw _ v).mp hv with rfl | hv
      · cases hv'
      · exact hsleep ⟨v, hv, hv'⟩
  | start => exact not_lost_same h hw rfl nofun (fun ft hft hrun => ⟨hft, hrun⟩) id
  | @reuse _ _ f _ hstate =>
    refine not_lost_same h hw rfl nofun (fun ft hft hrun => ⟨hft, ?_⟩) id
    refine runnable_congr (fun g _ hexec => ?_) hrun
    have hne : g ≠ f := by
      rintro rfl
      rw [hexec] at hstate
      exact absurd hstate (by decide)
    change Function.update s.shared.state f .init g = .exec
    rw [Function.update_of_ne hne]
    exact hexec
  | fresh =>
    refine not_lost_same h hw rfl nofun (fun ft hft hrun => ⟨hft, ?_⟩) id
    refine runnable_congr (fun g hg hexec => ?_) hrun
    have hne : g ≠ s.shared.made := Nat.ne_of_lt (hsound.queued ft hft g hg)
    change Function.update s.shared.state s.shared.made .init g = .exec
    rw [Function.update_of_ne hne]
    exact hexec
  | @swapIn _ _ _ f _ _ =>
    refine not_lost_same h hw rfl nofun (fun ft hft hrun => ⟨hft, ?_⟩) id
    refine runnable_congr (fun g _ hexec => ?_) hrun
    change Function.update s.shared.state f .exec g = .exec
    by_cases hg : g = f
    · rw [hg, Function.update_self]
    · rw [Function.update_of_ne hg]
      exact hexec
  | block htimeout =>
    refine not_lost_quit hw (hC _ hw (.inl ?_))
    simpa [Worker.sleeps] using htimeout
  | interrupt => exact not_lost_same h hw rfl (fun _ => rfl) (fun ft hft hrun => ⟨hft, hrun⟩) id
  | expire => exact absurd (by dsimp only; split <;> rfl) halert
  | _ => exact absurd rfl halert

theorem not_lost_outer (hsound : Sound s) (h : ¬ Lost s) (hC : Heard s a)
    (houter : Outer s.workers.length a s.shared shared) : ¬ Lost { s with shared := shared } := by
  -- where the queue stays and no tickle gets lost
  have hsame : shared.fibers = s.shared.fibers → shared.state = s.shared.state →
      (Attended s.shared s.workers → Attended shared s.workers) →
      ¬ Lost { s with shared := shared } := by
    rintro hfibers hstate hflags ⟨hrun, hsleep, hnot⟩
    rw [hfibers, hstate] at hrun
    exact h ⟨hrun, hsleep, fun hatt => hnot (hflags hatt)⟩
  cases houter with
  | stay => exact h
  | create => exact hsame rfl rfl fun hatt => hatt
  | scheduleFirst =>
    rintro ⟨_, _, hnot⟩
    exact hnot (.inr (.inl (Nat.succ_pos _)))
  | schedule _ hne =>
    rintro ⟨⟨ft, hft, hrun⟩, ⟨w, hw, hsleep⟩, hnot⟩
    rcases mem_append.mp hft with hft | hft
    · exact h ⟨⟨ft, hft, hrun⟩, ⟨w, hw, hsleep⟩, hnot⟩
    · rcases hC with hC | hC | hC | hC
      · exact hne hC
      · rw [hC ft hft] at hrun
        cases hrun
      · rw [hC w hw] at hsleep
        cases hsleep
      · exact hnot hC
  | addTimer | reset | stop =>
    exact hsame rfl rfl fun hatt => hatt.mono id (Nat.le_add_right _ _) (Nat.le_refl _) fun _ => id
  | notify => exact hsame rfl rfl fun _ => .inr (.inr (.inl (Nat.succ_pos _)))
  | noIdle hidle =>
    rintro ⟨_, ⟨w, hw, hsleep⟩, _⟩
    rw [hsound.none_asleep hidle hw] at hsleep
    cases hsleep
  | write => exact hsame rfl rfl fun _ => .inl rfl

theorem exec_not_lost (s a) (h : Sound s ∧ ¬ Lost s) (hC : Heard s a) :
    Post (fun s => Sound s ∧ ¬ Lost s) (fun _ => True) (exec a s) := by
  refine post_exec ?_ ?_ fun _ _ => trivial
  · intro shared houter
    exact ⟨h.1.outer houter, not_lost_outer h.1 h.2 hC houter⟩
  · rintro i c w w' shared rfl hw hmove
    exact ⟨h.1.move hw hmove, not_lost_move h.1 h.2 hC hw hmove⟩

theorem init_not_lost (n now) : ¬ Lost (init n now) := by
  rintro ⟨⟨ft, hft, _⟩, _⟩
  cases hft

/-- **In a run whose pushes, sleeps and exits are heard,** no runnable task waits while a worker
sleeps, no tickle is under way and nobody else is free. -/
theorem no_task_lost (n now : Nat) (as : List Action) (h : Along exec Heard as (init n now)) :
    Post (fun s => ¬ Lost s) (fun _ => True) (run exec as (init n now)) :=
  (post_run exec_not_lost as _ h ⟨init_sound n now, init_not_lost n now⟩).mono
    (fun _ hs => hs.2) fun _ he => he

def asleepFirst : List Action :=
  [.worker 0 .go, .worker 0 .go, .worker 0 .go, .worker 0 (.clock 0), .worker 0 (.pending true),
    .worker 0 .go, .schedule [{ task := .cb 1 }], .notify, .write, .worker 0 (.wake true)]

theorem no_task_lost_asleep : Along exec Heard asleepFirst (init 1 0) ∧
      Post (fun s => ¬ Lost s) (fun _ => True) (run exec asleepFirst (init 1 0)) :=
  ⟨by decide, no_task_lost 1 0 asleepFirst (by decide)⟩

/-- The task is scheduled between the worker's look and its `++m_idleThreadCount`: the
tickle sees no idle thread, and the worker goes to sleep. -/
theorem push_before_idle_loses_task : Post Lost (fun _ => False) (run exec
        [.worker 0 .go, .schedule [{ task := .cb 1 }], .notify, .worker 0 .go, .worker 0 .go,
          .worker 0 (.clock 0), .worker 0 (.pending true), .worker 0 .go] (init 1 0)) := by
  decide

end Helens.Scheduler
