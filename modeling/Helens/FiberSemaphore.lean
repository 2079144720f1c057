import Helens.Lib.Runs

/-! `FiberSemaphore`: a permit goes to the first fiber that waits, and to the counter only if none
does. Every call is one section under the spinlock. What the calls came to is logged, and the
counter, of 64 bits, and the queue are read off the log. -/

namespace Helens.FiberSemaphore

open Lib.Runs List

/-! ## The semaphore -/

/-- An entry of `m_waiters`: `Scheduler::GetThis()` and `Fiber::GetThis()`. -/
structure Waiter where
  scheduler : Nat
  fiber : Nat
  deriving DecidableEq

structure Semaphore where
  concurrency : UInt64
  waiters : List Waiter := []
  deriving DecidableEq

def tryWait (s : Semaphore) : Bool × Semaphore :=
  if s.concurrency > 0 then (true, { s with concurrency := s.concurrency - 1 })
  else (false, s)

def wait (w : Waiter) (s : Semaphore) : Bool × Semaphore :=
  if s.concurrency > 0 then (true, { s with concurrency := s.concurrency - 1 })
  else (false, { s with waiters := s.waiters ++ [w] })

def notify (s : Semaphore) : Option Waiter × Semaphore :=
  match s.waiters with
  | next :: rest => (some next, { s with waiters := rest })
  | [] => (none, { s with concurrency := s.concurrency + 1 })

/-! ## Interleavings -/

inductive Event where
  | tryWait (ok : Bool)
  | wait (w : Waiter) (ok : Bool)
  | notify (next : Option Waiter)
  deriving DecidableEq

structure State where
  sem : Semaphore
  log : List Event := []
  deriving DecidableEq

inductive Action where
  | tryWait (scheduler : Option Nat)
  | wait (scheduler : Option Nat) (fiber : Nat)
  | notify
  deriving DecidableEq

inductive Abort where
  /-- `HELENS_ASSERT(Scheduler::GetThis())` -/
  | noScheduler
  deriving DecidableEq

def exec : Action → State → Except Abort State
  | .tryWait none, _ => .error .noScheduler
  | .tryWait (some _), s =>
    let r := tryWait s.sem
    .ok ⟨r.2, s.log ++ [.tryWait r.1]⟩
  | .wait none _, _ => .error .noScheduler
  | .wait (some scheduler) fiber, s =>
    let r := wait ⟨scheduler, fiber⟩ s.sem
    .ok ⟨r.2, s.log ++ [.wait ⟨scheduler, fiber⟩ r.1]⟩
  | .notify, s =>
    let r := notify s.sem
    .ok ⟨r.2, s.log ++ [.notify r.1]⟩

def init (initialConcurrency : UInt64) : State := ⟨⟨initialConcurrency, []⟩, []⟩

/-! ## Reading the log -/

def Event.acquires : Event → Bool
  | .tryWait ok => ok
  | .wait _ ok => ok
  | .notify next => next.isSome

def Event.notifies : Event → Bool
  | .notify _ => true
  | _ => false

def Event.queues : Event → Option Waiter
  | .wait w false => some w
  | _ => none

def Event.wakes : Event → Option Waiter
  | .notify next => next
  | _ => none

def acquired (log : List Event) : Nat := log.countP Event.acquires

def notifies (log : List Event) : Nat := log.countP Event.notifies

def queued (log : List Event) : List Waiter := log.filterMap Event.queues

def woken (log : List Event) : List Waiter := log.filterMap Event.wakes

variable (log : List Event) {e : Event}

@[simp] theorem acquired_concat (e : Event) :
    acquired (log ++ [e]) = acquired log + if e.acquires then 1 else 0 := by
  simp [acquired, countP_append, countP_singleton]

@[simp] theorem notifies_concat (e : Event) :
    notifies (log ++ [e]) = notifies log + if e.notifies then 1 else 0 := by
  simp [notifies, countP_append, countP_singleton]

@[simp] theorem queued_concat (e : Event) :
    queued (log ++ [e]) = queued log ++ e.queues.toList := by
  rw [queued, filterMap_append]
  cases h : e.queues <;> simp [queued, h]

@[simp] theorem woken_concat (e : Event) : woken (log ++ [e]) = woken log ++ e.wakes.toList := by
  rw [woken, filterMap_append]
  cases h : e.wakes <;> simp [woken, h]

/-! ## Steps -/

inductive Step (s : Semaphore) : Event → Semaphore → Prop
  /-- a permit is taken from the counter -/
  | take {e : Event} : 0 < s.concurrency → e.acquires = true → e.notifies = false →
    e.queues = none → e.wakes = none → Step s e { s with concurrency := s.concurrency - 1 }
  /-- `tryWait` finds no permit -/
  | refuse : Step s (.tryWait false) s
  | queue (w : Waiter) : s.concurrency = 0 →
    Step s (.wait w false) { s with waiters := s.waiters ++ [w] }
  /-- a permit goes to the first waiter -/
  | hand {next : Waiter} {rest : List Waiter} : s.waiters = next :: rest →
    Step s (.notify (some next)) { s with waiters := rest }
  /-- a permit goes to the counter -/
  | release : s.waiters = [] → Step s (.notify none) { s with concurrency := s.concurrency + 1 }

theorem exec_step (s : State) (a) :
    Post (fun s' => ∃ e sem, s' = ⟨sem, s.log ++ [e]⟩ ∧ Step s.sem e sem ∧
        (e.notifies = true → a = .notify))
      (fun e => e = .noScheduler) (exec a s) := by
  cases a with
  | tryWait scheduler =>
    cases scheduler with
    | none => rfl
    | some _ =>
      refine ⟨_, _, rfl, ?_, by rintro ⟨⟩⟩
      unfold tryWait
      split
      · exact .take (by assumption) rfl rfl rfl rfl
      · exact .refuse
  | wait scheduler fiber =>
    cases scheduler with
    | none => rfl
    | some scheduler =>
      refine ⟨_, _, rfl, ?_, by rintro ⟨⟩⟩
      unfold wait
      split
      · exact .take (by assumption) rfl rfl rfl rfl
      · rename_i hzero
        exact .queue _ (by simpa using hzero)
  | notify =>
    refine ⟨_, _, rfl, ?_, fun _ => rfl⟩
    unfold notify
    split
    · exact .hand (by assumption)
    · exact .release (by assumption)

theorem toNat_sub_one {c : UInt64} (h : 0 < c) : (c - 1).toNat + 1 = c.toNat := by
  have hpos : 0 < c.toNat := UInt64.lt_iff_toNat_lt.mp h
  have hone : (1 : UInt64) ≤ c := UInt64.le_iff_toNat_le.mpr hpos
  rw [UInt64.toNat_sub_of_le _ _ hone]
  exact Nat.sub_add_cancel hpos

theorem toNat_add_one (c : UInt64) : (c + 1).toNat = (c.toNat + 1) % 2 ^ 64 := UInt64.toNat_add c 1

/-- What a section does to the number of permits: it wraps where a `notify` finds the counter at
its maximum. -/
theorem Step.permits (h : Step s e s') : s.concurrency.toNat + (if e.notifies then 1 else 0) =
        s'.concurrency.toNat + (if e.acquires then 1 else 0) ∨
      (e.notifies = true ∧ s.waiters = [] ∧ s.concurrency.toNat + 1 = 2 ^ 64 ∧
        s.concurrency.toNat + (if e.notifies then 1 else 0) =
          s'.concurrency.toNat + (if e.acquires then 1 else 0) + 2 ^ 64) := by
  cases h with
  | take hpos hacq hnot =>
    left
    rw [hacq, hnot, if_pos rfl, if_neg Bool.false_ne_true]
    exact (toNat_sub_one hpos).symm
  | refuse => exact .inl rfl
  | queue w hzero => exact .inl rfl
  | hand hwaiters => exact .inl rfl
  | release hwaiters =>
    have hlt := s.concurrency.toNat_lt
    change s.concurrency.toNat + 1 = (s.concurrency + 1).toNat + 0 ∨ _ ∧ _ ∧ _ ∧
      s.concurrency.toNat + 1 = (s.concurrency + 1).toNat + 0 + 2 ^ 64
    rw [toNat_add_one]
    rcases Nat.lt_or_ge (s.concurrency.toNat + 1) (2 ^ 64) with hfits | hmax
    · exact .inl (Nat.mod_eq_of_lt hfits).symm
    · have heq : s.concurrency.toNat + 1 = 2 ^ 64 := Nat.le_antisymm hlt hmax
      rw [heq]
      exact .inr ⟨rfl, hwaiters, rfl, rfl⟩

theorem Step.waiters (h : Step s e s') :
    s.waiters ++ e.queues.toList = e.wakes.toList ++ s'.waiters := by
  cases h with
  | take hpos hacq hnot hqueue hwake => simp [hqueue, hwake]
  | refuse => simp [Event.queues, Event.wakes]
  | queue w hzero => simp [Event.queues, Event.wakes]
  | hand hwaiters => simp [Event.queues, Event.wakes, hwaiters]
  | release hwaiters => simp [Event.queues, Event.wakes]

theorem Step.idle (h : Step s e s')
    (hidle : 0 < s.concurrency → s.waiters = []) : 0 < s'.concurrency → s'.waiters = [] := by
  cases h with
  | take hpos => exact fun _ => hidle hpos
  | refuse => exact hidle
  | queue w hzero =>
    intro hpos
    rw [show s.concurrency = 0 from hzero] at hpos
    exact absurd hpos (by decide)
  | hand hwaiters =>
    intro hpos
    rw [hidle hpos] at hwaiters
    cases hwaiters
  | release hwaiters => exact fun _ => hwaiters

/-! ## Runs -/

/-- A permit in the counter means that no fiber waits, the queue is what was queued and not yet
woken, and permits are conserved in 64 bits. -/
structure Inv (initial : UInt64) (s : State) : Prop where
  idle : 0 < s.sem.concurrency → s.sem.waiters = []
  fifo : queued s.log = woken s.log ++ s.sem.waiters
  balance : (initial.toNat + notifies s.log) % 2 ^ 64 =
    (acquired s.log + s.sem.concurrency.toNat) % 2 ^ 64

def Balanced (initial : UInt64) (s : State) : Prop :=
  initial.toNat + notifies s.log = acquired s.log + s.sem.concurrency.toNat

/-- The counter does not wrap: no `notify` finds it at its maximum. -/
def NoWrap (s : State) (a : Action) : Prop :=
  a = .notify → s.sem.waiters = [] → s.sem.concurrency.toNat + 1 < 2 ^ 64
  deriving Decidable

theorem Inv.step (h : Inv initial s)
    (hstep : Step s.sem e sem) : Inv initial ⟨sem, s.log ++ [e]⟩ := by
  refine ⟨hstep.idle h.idle, ?_, ?_⟩
  · rw [queued_concat, woken_concat, h.fifo, append_assoc, hstep.waiters, append_assoc]
  · have hbalance := h.balance
    have hpermits := hstep.permits
    rw [notifies_concat, acquired_concat]
    dsimp only
    omega

theorem exec_inv (s a) (h : Inv initial s) :
    Post (Inv initial) (fun e => e = .noScheduler) (exec a s) := by
  apply (exec_step s a).imp
  rintro _ ⟨e, sem, rfl, hstep, -⟩
  exact h.step hstep

theorem exec_balanced (s a) (h : Balanced initial s)
    (hfits : NoWrap s a) : Post (Balanced initial) (fun e => e = .noScheduler) (exec a s) := by
  apply (exec_step s a).imp
  rintro _ ⟨e, sem, rfl, hstep, hnotify⟩
  unfold Balanced at h ⊢
  rw [notifies_concat, acquired_concat]
  dsimp only
  rcases hstep.permits with hpermits | ⟨he, hwaiters, hmax, -⟩
  · omega
  · have hlt := hfits (hnotify he) hwaiters
    omega

theorem init_inv (initial) : Inv initial (init initial) :=
  ⟨fun _ => rfl, rfl, by simp [init, notifies, acquired]⟩

theorem init_balanced (initial) : Balanced initial (init initial) := by
  simp [Balanced, init, notifies, acquired]

/-- **In every interleaving of `wait`, `tryWait` and `notify`:** a permit in the counter means that
nobody is queued, waits are woken once and in order, and permits are conserved, as numbers if the
counter does not wrap. -/
theorem permits_and_order (initial : UInt64) (as : List Action) (s : State)
    (hrun : run exec as (init initial) = .ok s) :
    (s.sem.concurrency > 0 → s.sem.waiters = []) ∧ queued s.log = woken s.log ++ s.sem.waiters ∧
      (initial.toNat + notifies s.log) % 2 ^ 64 =
        (acquired s.log + s.sem.concurrency.toNat) % 2 ^ 64 ∧
      (Along exec NoWrap as (init initial) →
        initial.toNat + notifies s.log = acquired s.log + s.sem.concurrency.toNat) := by
  have hinv := (post_run_all exec_inv as (init initial) (init_inv initial)).of_ok hrun
  refine ⟨hinv.idle, hinv.fifo, hinv.balance, fun halong => ?_⟩
  exact (post_run exec_balanced as (init initial) halong (init_balanced initial)).of_ok hrun

def handover : List Action :=
  [.wait (some 0) 1, .wait (some 0) 2, .tryWait (some 0), .notify, .notify, .notify,
    .tryWait (some 0)]

theorem permits_and_order_handover :
    ∃ s, run exec handover (init 0) = .ok s ∧ woken s.log = [⟨0, 1⟩, ⟨0, 2⟩] ∧
      (0 : UInt64).toNat + notifies s.log = acquired s.log + s.sem.concurrency.toNat := by
  obtain ⟨s, hrun, hwoken⟩ : ∃ s, run exec handover (init 0) = .ok s ∧
      woken s.log = [⟨0, 1⟩, ⟨0, 2⟩] := ⟨_, rfl, rfl⟩
  exact ⟨s, hrun, hwoken, (permits_and_order 0 handover s hrun).2.2.2 (by decide)⟩

/-- A `notify` on a counter at its maximum loses every permit. -/
theorem permits_lost :
    run exec [.notify] (init 0xffffffffffffffff) = .ok ⟨⟨0, []⟩, [.notify none]⟩ ∧
      (0xffffffffffffffff : UInt64).toNat + notifies [.notify none] ≠
        acquired [.notify none] + (0 : UInt64).toNat := by
  decide +kernel

end Helens.FiberSemaphore
