import Helens.Timer

/-! The scheduler with its workers: `Scheduler::run`, the idle loop of `IOManager`, and the
wake-ups. A step is one mutex section, one access to a counter or a fiber's state, or one call of
the kernel. `Pc` says where a worker stands; the `tickle()` calls of other threads are counted. -/

namespace Helens.Scheduler

open Lib Lib.Runs

/-! ## State -/

inductive FiberState where
  | init | hold | exec | term | ready | except
  deriving DecidableEq

inductive Task where
  | fiber (f : Nat)
  | cb (g : Nat)

/-- `FiberAndThread`; no thread is the source's `-1`. -/
structure FiberAndThread where
  task : Task
  thread : Option Nat := none

inductive Cont where
  | dispatch (ft : Option Task)
  | loop
  | handle (report : Bool)

/-- A wait in `epoll_wait`: what `getNextTimer` returned, and the time the wait
counts from. -/
structure Wait where
  next : Option Nat
  since : Nat

/-- Where a worker stands. `own` marks a run of its `cb_fiber`, `report` an
`epoll_wait` that returned the tickle pipe. -/
inductive Pc where
  /-- about to look through `m_fibers` -/
  | scan
  /-- in `tickle()`, before the test of `hasIdleThreads` -/
  | tickle (k : Cont)
  /-- in `tickle()`, before the write to the pipe -/
  | write (k : Cont)
  | dispatch (ft : Option Task)
  /-- the fiber taken is finished: before `--m_activeThreadCount` -/
  | drop
  | swapIn (f : Nat) (own : Bool)
  | running (f : Nat) (own : Bool)
  /-- in `swapOut`, still on the stack of the fiber -/
  | swapOut (f : Nat) (own : Bool)
  /-- back in `run`, before `--m_activeThreadCount` -/
  | back (f : Nat) (own : Bool)
  /-- before the tests of the fiber's state -/
  | after (f : Nat) (own : Bool)
  /-- before `schedule` of a fiber found `READY` -/
  | requeue (f : Nat) (own : Bool)
  /-- before `m_state = HOLD` -/
  | park (f : Nat) (own : Bool)
  /-- before `cb_fiber->reset(nullptr)` -/
  | recycle (f : Nat)
  /-- before `++m_idleThreadCount` -/
  | enter
  /-- in `idle`, before `getNextTimer` -/
  | idle
  /-- in `stopping(next_timeout)`, behind `getNextTimer` -/
  | check (t : Wait)
  /-- before `epoll_wait` -/
  | armed (t : Wait)
  | blocked (t : Wait)
  /-- behind `epoll_wait`, before `listExpiredCb` -/
  | woken (report : Bool)
  /-- before `schedule(cbs.begin(), cbs.end())` -/
  | posting (report : Bool) (cbs : List Nat)
  /-- in the loop over the events -/
  | handling (report : Bool)
  /-- back in `run`, before `--m_idleThreadCount` -/
  | leave
  | exited

/-- A worker thread, with `cb_fiber` and whether `idle_fiber` has ended. -/
structure Worker where
  pc : Pc := .scan
  cbFiber : Option Nat := none
  idleTerm : Bool := false

structure Shared where
  fibers : List FiberAndThread := []
  /-- `m_state` of every fiber; fibers below `made` exist -/
  state : Nat → FiberState := fun _ => .init
  made : Nat := 0
  activeThreadCount : Int := 0
  idleThreadCount : Int := 0
  /-- the tickle pipe has been written since it was last reported or read -/
  pipe : Bool := false
  /-- threads in `tickle()` before the test of `hasIdleThreads` -/
  tickles : Nat := 0
  /-- threads in `tickle()` before the write -/
  writes : Nat := 0
  timers : TimerManager := {}
  /-- `m_autoStop && m_stopping` -/
  stop : Bool := false

structure State where
  shared : Shared := {}
  workers : List Worker := []

inductive Abort where
  /-- `swapIn` finds `EXEC` -/
  | swapInExec
  /-- `Fiber::reset` of a fiber that is not finished -/
  | resetState
  /-- `YieldToReady` or `YieldToHold` of a fiber not in `EXEC` -/
  | yieldState
  | timer (e : TimerManager.Abort)

/-! ## The queue -/

def scheduleNoLock (s : Shared) (ft : FiberAndThread) : Shared × Bool :=
  ({ s with fibers := s.fibers ++ [ft] }, s.fibers.isEmpty)

def scheduleAll (s : Shared) : List FiberAndThread → Shared × Bool
  | [] => (s, false)
  | ft :: fts =>
    let (s, first) := scheduleNoLock s ft
    let (s, rest) := scheduleAll s fts
    (s, rest || first)

def FiberAndThread.elsewhere (self : Nat) (it : FiberAndThread) : Bool :=
  it.thread != none && it.thread != some self

/-- `it->fiber && it->fiber->getState() == Fiber::EXEC` -/
def FiberAndThread.executing (state : Nat → FiberState) (it : FiberAndThread) : Bool :=
  match it.task with
  | .fiber f => state f == .exec
  | .cb _ => false

/-- The look through `m_fibers`: the task taken, what stays, and `tickle_me`. -/
def scanFibers (state : Nat → FiberState) (self : Nat) :
    List FiberAndThread → Option Task × List FiberAndThread × Bool
  | [] => (none, [], false)
  | it :: rest =>
    if it.elsewhere self then
      let (ft, left, _) := scanFibers state self rest
      (ft, it :: left, true)
    else if it.executing state then
      let (ft, left, tickleMe) := scanFibers state self rest
      (ft, it :: left, tickleMe)
    else (some it.task, rest, !rest.isEmpty)

def stopping (s : Shared) : Bool := s.stop && s.fibers.isEmpty && s.activeThreadCount == 0

/-! ## Waiting -/

/-- The timeout `epoll_wait` is given, after `(int)next_timeout`; `none` is a
negative one, which waits without limit. -/
def epollTimeout : Option Nat → Option Nat
  | none => some 3000
  | some t =>
    -- `~0ull` is taken for no timer
    if t = 2 ^ 64 - 1 then some 3000
    else if t % 2 ^ 32 < 2 ^ 31 then some (min (t % 2 ^ 32) 3000) else none

/-- The time a wait ends by itself, if it does; one that returns at once is over
before any deadline. -/
def Wait.wakeTime (t : Wait) : Option Nat :=
  match epollTimeout t.next with
  | none => none
  | some 0 => some 0
  | some (n + 1) => some (t.since + (n + 1))

/-! ## Steps -/

inductive Choice where
  | go
  /-- the fiber calls `YieldToReady`, `YieldToHold`, returns, or throws -/
  | yieldToReady | yieldToHold | finish | throws
  /-- the clock `getNextTimer` reads -/
  | clock (now : Nat)
  /-- whether `m_pendingEventCount` is 0 -/
  | pending (quiet : Bool)
  /-- `epoll_wait` returns, with the pipe or without -/
  | wake (report : Bool)
  /-- `epoll_wait` fails with `EINTR` -/
  | interrupt (now : Nat)
  /-- the clock `listExpiredCb` reads, and the address of its `now_timer` -/
  | expire (now addr : Nat)

def Cont.pc : Cont → Pc
  | .dispatch ft => .dispatch ft
  | .loop => .scan
  | .handle report => .handling report

def Finished (x : FiberState) : Prop := x = .term ∨ x = .except
  deriving Decidable

def setState (s : Shared) (f : Nat) (x : FiberState) : Shared :=
  { s with state := Function.update s.state f x }

def resetFiber (s : Shared) (f : Nat) : Except Abort Shared :=
  if Finished (s.state f) ∨ s.state f = .init then .ok (setState s f .init)
  else .error .resetState

def runTask (c : Choice) (w : Worker) (s : Shared) (f : Nat) (own : Bool) :
    Except Abort (Worker × Shared) :=
  match c with
  | .yieldToReady =>
    if s.state f = .exec then .ok ({ w with pc := .swapOut f own }, setState s f .ready)
    else .error .yieldState
  | .yieldToHold =>
    if s.state f = .exec then .ok ({ w with pc := .swapOut f own }, s) else .error .yieldState
  | .finish => .ok ({ w with pc := .swapOut f own }, setState s f .term)
  | .throws => .ok ({ w with pc := .swapOut f own }, setState s f .except)
  | _ => .ok (w, s)

def idleStep (c : Choice) (w : Worker) (s : Shared) : Except Abort (Worker × Shared) :=
  match w.pc with
  | .idle =>
    match c with
    | .clock now =>
      let (timers, next) := s.timers.getNextTimer now
      .ok ({ w with pc := .check ⟨next, now⟩ }, { s with timers := timers })
    | _ => .ok (w, s)
  | .check t =>
    match c with
    | .pending quiet =>
      if t.next.getD (2 ^ 64 - 1) = 2 ^ 64 - 1 ∧ quiet = true ∧ stopping s = true then
        .ok ({ w with pc := .leave, idleTerm := true }, s)
      else .ok ({ w with pc := .armed t }, s)
    | _ => .ok (w, s)
  | .armed t =>
    -- a timeout of 0 polls and does not block
    if epollTimeout t.next = some 0 then
      .ok ({ w with pc := .woken s.pipe }, { s with pipe := false })
    else .ok ({ w with pc := .blocked t }, s)
  | .blocked t =>
    match c with
    | .wake report =>
      if report then
        if s.pipe then .ok ({ w with pc := .woken true }, { s with pipe := false })
        else .ok (w, s)
      else .ok ({ w with pc := .woken false }, s)
    | .interrupt now => .ok ({ w with pc := .blocked { t with since := now } }, s)
    | _ => .ok (w, s)
  | .woken report =>
    match c with
    | .expire now addr =>
      match s.timers.listExpiredCb now addr with
      | .error e => .error (.timer e)
      | .ok (timers, cbs) =>
        let cbs := cbs.filterMap Prod.snd
        .ok ({ w with pc := if cbs.isEmpty then .handling report else .posting report cbs },
          { s with timers := timers })
    | _ => .ok (w, s)
  | .posting report cbs =>
    let (s, need) := scheduleAll s (cbs.map fun g => { task := .cb g })
    .ok ({ w with pc := if need then .tickle (.handle report) else .handling report }, s)
  | .handling true => .ok ({ w with pc := .handling false }, { s with pipe := false })
  | .handling false => .ok ({ w with pc := .leave }, s)
  | _ => .ok (w, s)

def runStep (self : Nat) (c : Choice) (w : Worker) (s : Shared) : Except Abort (Worker × Shared) :=
  match w.pc with
  | .scan =>
    let (ft, left, tickleMe) := scanFibers s.state self s.fibers
    .ok ({ w with pc := if tickleMe then .tickle (.dispatch ft) else .dispatch ft },
      { s with
        fibers := left
        activeThreadCount := s.activeThreadCount + if ft.isSome then 1 else 0 })
  | .tickle k => .ok ({ w with pc := if s.idleThreadCount > 0 then .write k else k.pc }, s)
  | .write k => .ok ({ w with pc := k.pc }, { s with pipe := true })
  | .dispatch none => .ok ({ w with pc := if w.idleTerm then .exited else .enter }, s)
  | .dispatch (some (.fiber f)) =>
    .ok ({ w with pc := if Finished (s.state f) then .drop else .swapIn f false }, s)
  | .dispatch (some (.cb _)) =>
    match w.cbFiber with
    | some f =>
      match resetFiber s f with
      | .error e => .error e
      | .ok s => .ok ({ w with pc := .swapIn f true }, s)
    | none =>
      .ok ({ w with pc := .swapIn s.made true, cbFiber := some s.made },
        { setState s s.made .init with made := s.made + 1 })
  | .drop => .ok ({ w with pc := .scan }, { s with activeThreadCount := s.activeThreadCount - 1 })
  | .swapIn f own =>
    if s.state f = .exec then .error .swapInExec
    else .ok ({ w with pc := .running f own }, setState s f .exec)
  | .running f own => runTask c w s f own
  | .swapOut f own => .ok ({ w with pc := .back f own }, s)
  | .back f own =>
    .ok ({ w with pc := .after f own }, { s with activeThreadCount := s.activeThreadCount - 1 })
  | .after f own =>
    .ok ({ w with
      pc := if s.state f = .ready then .requeue f own
        else if Finished (s.state f) then (if own then .recycle f else .scan)
        else .park f own }, s)
  | .requeue f own =>
    let (s, need) := scheduleNoLock s { task := .fiber f }
    .ok ({ w with
      pc := if need then .tickle .loop else .scan
      cbFiber := if own then none else w.cbFiber }, s)
  | .park f own =>
    .ok ({ w with pc := .scan, cbFiber := if own then none else w.cbFiber }, setState s f .hold)
  | .recycle f =>
    match resetFiber s f with
    | .error e => .error e
    | .ok s => .ok ({ w with pc := .scan }, s)
  | .enter => .ok ({ w with pc := .idle }, { s with idleThreadCount := s.idleThreadCount + 1 })
  | .leave => .ok ({ w with pc := .scan }, { s with idleThreadCount := s.idleThreadCount - 1 })
  | _ => idleStep c w s

/-! ## Runs -/

inductive Action where
  | create
  /-- `schedule`, by any thread: the section under the lock -/
  | schedule (fts : List FiberAndThread)
  | addTimer (ms cb : Nat) (recurring : Bool) (now addr : Nat)
  | reset (i ms : Nat) (fromNow : Bool) (now : Nat)
  | stop
  /-- a `tickle()` of one of these: the test of `hasIdleThreads` -/
  | notify
  /-- a `tickle()` of one of these: the write -/
  | write
  | worker (i : Nat) (c : Choice)

def FiberAndThread.Known (made : Nat) (ft : FiberAndThread) : Prop :=
  ∀ f, ft.task = .fiber f → f < made

instance (made : Nat) (ft : FiberAndThread) : Decidable (ft.Known made) :=
  match h : ft.task with
  | .fiber f =>
    if hf : f < made then isTrue fun g hg => by cases h.symm.trans hg; exact hf
    else isFalse fun hk => hf (hk f h)
  | .cb _ => isTrue fun g hg => by cases h.symm.trans hg

def exec : Action → State → Except Abort State
  | .create, s => .ok { s with shared := { s.shared with made := s.shared.made + 1 } }
  | .schedule fts, s =>
    if ∀ ft ∈ fts, ft.Known s.shared.made then
      let (shared, need) := scheduleAll s.shared fts
      .ok { s with shared := { shared with tickles := shared.tickles + if need then 1 else 0 } }
    else .ok s
  | .addTimer ms cb recurring now addr, s =>
    if ∃ i ∈ s.shared.timers.timers, (s.shared.timers.timer i).addr = addr then .ok s
    else
      let (timers, atFront) := s.shared.timers.addTimer ms cb recurring now addr
      .ok { s with shared :=
        { s.shared with
          timers := timers
          tickles := s.shared.tickles + if atFront then 1 else 0 } }
  | .reset i ms fromNow now, s =>
    match s.shared.timers.reset i ms fromNow now with
    | .error e => .error (.timer e)
    | .ok (timers, _, atFront) =>
      .ok { s with shared :=
        { s.shared with
          timers := timers
          tickles := s.shared.tickles + if atFront then 1 else 0 } }
  | .stop, s =>
    .ok { s with shared :=
      { s.shared with stop := true, tickles := s.shared.tickles + s.workers.length } }
  | .notify, s =>
    if s.shared.tickles = 0 then .ok s
    else .ok { s with shared :=
      { s.shared with
        tickles := s.shared.tickles - 1
        writes := s.shared.writes + if s.shared.idleThreadCount > 0 then 1 else 0 } }
  | .write, s =>
    if s.shared.writes = 0 then .ok s
    else .ok { s with shared :=
      { s.shared with writes := s.shared.writes - 1, pipe := true } }
  | .worker i c, s =>
    match s.workers[i]? with
    | none => .ok s
    | some w =>
      match runStep i c w s.shared with
      | .error e => .error e
      | .ok (w', shared) => .ok { shared := shared, workers := s.workers.set i w' }

def init (n now : Nat) : State :=
  { shared := { timers := { previouseTime := now } }, workers := List.replicate n {} }

/-! ## What a worker's step can do -/

@[simp] theorem scheduleAll_eq (s fts) : scheduleAll s fts =
      ({ s with fibers := s.fibers ++ fts }, s.fibers.isEmpty && !fts.isEmpty) := by
  induction fts generalizing s with
  | nil => simp [scheduleAll]
  | cons ft fts ih =>
    rw [scheduleAll, scheduleNoLock]
    dsimp only
    rw [ih]
    simp

theorem scanFibers_none {state : Nat → FiberState}
    (h : scanFibers state self fibers = (none, left, tickleMe)) : left = fibers := by
  induction fibers generalizing left tickleMe with
  | nil =>
    cases h
    rfl
  | cons it rest ih =>
    rcases hrest : scanFibers state self rest with ⟨ft, left', tickleMe'⟩
    unfold scanFibers at h
    rw [hrest] at h
    split at h
    · cases h
      rw [ih hrest]
    · split at h
      · cases h
        rw [ih hrest]
      · cases h

/-- The steps of a worker, one by one: the worker and the shared state before
and after. -/
inductive Moves (self : Nat) (c : Choice) : Worker → Shared → Worker → Shared → Prop
  | stay {w s} : Moves self c w s w s
  | take {cb e s ft left} : scanFibers s.state self s.fibers = (some ft, left, false) →
    Moves self c ⟨.scan, cb, e⟩ s ⟨.dispatch (some ft), cb, e⟩
      { s with fibers := left, activeThreadCount := s.activeThreadCount + 1 }
  | takeTickle {cb e s ft left} : scanFibers s.state self s.fibers = (some ft, left, true) →
    Moves self c ⟨.scan, cb, e⟩ s ⟨.tickle (.dispatch (some ft)), cb, e⟩
      { s with fibers := left, activeThreadCount := s.activeThreadCount + 1 }
  | miss {cb e s left} : scanFibers s.state self s.fibers = (none, left, false) →
    Moves self c ⟨.scan, cb, e⟩ s ⟨.dispatch none, cb, e⟩ s
  | missTickle {cb e s left} : scanFibers s.state self s.fibers = (none, left, true) →
    Moves self c ⟨.scan, cb, e⟩ s ⟨.tickle (.dispatch none), cb, e⟩ s
  | notify {cb e s k} : s.idleThreadCount > 0 →
    Moves self c ⟨.tickle k, cb, e⟩ s ⟨.write k, cb, e⟩ s
  | noIdle {cb e s k} : ¬ s.idleThreadCount > 0 →
    Moves self c ⟨.tickle k, cb, e⟩ s ⟨k.pc, cb, e⟩ s
  | write {cb e s k} : Moves self c ⟨.write k, cb, e⟩ s ⟨k.pc, cb, e⟩ { s with pipe := true }
  | exit {cb s} : Moves self c ⟨.dispatch none, cb, true⟩ s ⟨.exited, cb, true⟩ s
  | goIdle {cb s} : Moves self c ⟨.dispatch none, cb, false⟩ s ⟨.enter, cb, false⟩ s
  | finished {cb e s f} : Finished (s.state f) →
    Moves self c ⟨.dispatch (some (.fiber f)), cb, e⟩ s ⟨.drop, cb, e⟩ s
  | start {cb e s f} : ¬ Finished (s.state f) →
    Moves self c ⟨.dispatch (some (.fiber f)), cb, e⟩ s ⟨.swapIn f false, cb, e⟩ s
  | reuse {e s f g} : Finished (s.state f) ∨ s.state f = .init →
    Moves self c ⟨.dispatch (some (.cb g)), some f, e⟩ s ⟨.swapIn f true, some f, e⟩
      (setState s f .init)
  | fresh {e s g} :
    Moves self c ⟨.dispatch (some (.cb g)), none, e⟩ s ⟨.swapIn s.made true, some s.made, e⟩
      { setState s s.made .init with made := s.made + 1 }
  | drop {cb e s} : Moves self c ⟨.drop, cb, e⟩ s ⟨.scan, cb, e⟩
      { s with activeThreadCount := s.activeThreadCount - 1 }
  | swapIn {cb e s f own} : s.state f ≠ .exec →
    Moves self c ⟨.swapIn f own, cb, e⟩ s ⟨.running f own, cb, e⟩ (setState s f .exec)
  | ready {cb e s f own} : s.state f = .exec →
    Moves self c ⟨.running f own, cb, e⟩ s ⟨.swapOut f own, cb, e⟩ (setState s f .ready)
  | hold {cb e s f own} : s.state f = .exec →
    Moves self c ⟨.running f own, cb, e⟩ s ⟨.swapOut f own, cb, e⟩ s
  | finish {cb e s f own x} : Finished x →
    Moves self c ⟨.running f own, cb, e⟩ s ⟨.swapOut f own, cb, e⟩ (setState s f x)
  | swapOut {cb e s f own} : Moves self c ⟨.swapOut f own, cb, e⟩ s ⟨.back f own, cb, e⟩ s
  | back {cb e s f own} : Moves self c ⟨.back f own, cb, e⟩ s ⟨.after f own, cb, e⟩
      { s with activeThreadCount := s.activeThreadCount - 1 }
  | afterReady {cb e s f own} : s.state f = .ready →
    Moves self c ⟨.after f own, cb, e⟩ s ⟨.requeue f own, cb, e⟩ s
  | afterOwn {cb e s f} : Finished (s.state f) →
    Moves self c ⟨.after f true, cb, e⟩ s ⟨.recycle f, cb, e⟩ s
  | afterFiber {cb e s f} : Finished (s.state f) →
    Moves self c ⟨.after f false, cb, e⟩ s ⟨.scan, cb, e⟩ s
  | afterPark {cb e s f own} : s.state f ≠ .ready → ¬ Finished (s.state f) →
    Moves self c ⟨.after f own, cb, e⟩ s ⟨.park f own, cb, e⟩ s
  | requeueFirst {cb e s f own} : s.fibers = [] →
    Moves self c ⟨.requeue f own, cb, e⟩ s ⟨.tickle .loop, if own then none else cb, e⟩
      { s with fibers := [{ task := .fiber f }] }
  | requeue {cb e s f own} : s.fibers ≠ [] →
    Moves self c ⟨.requeue f own, cb, e⟩ s ⟨.scan, if own then none else cb, e⟩
      { s with fibers := s.fibers ++ [{ task := .fiber f }] }
  | park {cb e s f own} :
    Moves self c ⟨.park f own, cb, e⟩ s ⟨.scan, if own then none else cb, e⟩ (setState s f .hold)
  | recycle {cb e s f} :
    Moves self c ⟨.recycle f, cb, e⟩ s ⟨.scan, cb, e⟩ (setState s f .init)
  | enter {cb e s} : Moves self c ⟨.enter, cb, e⟩ s ⟨.idle, cb, e⟩
      { s with idleThreadCount := s.idleThreadCount + 1 }
  | leave {cb e s} : Moves self c ⟨.leave, cb, e⟩ s ⟨.scan, cb, e⟩
      { s with idleThreadCount := s.idleThreadCount - 1 }
  | nextTimer {cb e s now} : c = .clock now →
    Moves self c ⟨.idle, cb, e⟩ s ⟨.check ⟨(s.timers.getNextTimer now).2, now⟩, cb, e⟩
      { s with timers := (s.timers.getNextTimer now).1 }
  | idleStop {cb e s t} : t.next.getD (2 ^ 64 - 1) = 2 ^ 64 - 1 → stopping s = true →
    Moves self c ⟨.check t, cb, e⟩ s ⟨.leave, cb, true⟩ s
  | arm {cb e s t} : Moves self c ⟨.check t, cb, e⟩ s ⟨.armed t, cb, e⟩ s
  | poll {cb e s t} : epollTimeout t.next = some 0 →
    Moves self c ⟨.armed t, cb, e⟩ s ⟨.woken s.pipe, cb, e⟩ { s with pipe := false }
  | block {cb e s t} : epollTimeout t.next ≠ some 0 →
    Moves self c ⟨.armed t, cb, e⟩ s ⟨.blocked t, cb, e⟩ s
  | report {cb e s t} : s.pipe = true →
    Moves self c ⟨.blocked t, cb, e⟩ s ⟨.woken true, cb, e⟩ { s with pipe := false }
  | wake {cb e s t} : Moves self c ⟨.blocked t, cb, e⟩ s ⟨.woken false, cb, e⟩ s
  | interrupt {cb e s t now} : c = .interrupt now →
    Moves self c ⟨.blocked t, cb, e⟩ s ⟨.blocked { t with since := now }, cb, e⟩ s
  | expire {cb e s r timers cbs now addr} : s.timers.listExpiredCb now addr = .ok (timers, cbs) →
    Moves self c ⟨.woken r, cb, e⟩ s
      ⟨if (cbs.filterMap Prod.snd).isEmpty then .handling r
        else .posting r (cbs.filterMap Prod.snd), cb, e⟩ { s with timers := timers }
  | postFirst {cb e s r cbs} : s.fibers = [] →
    Moves self c ⟨.posting r cbs, cb, e⟩ s ⟨.tickle (.handle r), cb, e⟩
      { s with fibers := cbs.map fun g => { task := .cb g } }
  | post {cb e s r cbs} :
    Moves self c ⟨.posting r cbs, cb, e⟩ s ⟨.handling r, cb, e⟩
      { s with fibers := s.fibers ++ cbs.map fun g => { task := .cb g } }
  | drain {cb e s} : Moves self c ⟨.handling true, cb, e⟩ s ⟨.handling false, cb, e⟩
      { s with pipe := false }
  | yieldIdle {cb e s} : Moves self c ⟨.handling false, cb, e⟩ s ⟨.leave, cb, e⟩ s

theorem runTask_moves (self c cb e s f own) :
    Post (fun r => Moves self c ⟨.running f own, cb, e⟩ s r.1 r.2) (fun a => a ≠ .swapInExec)
      (runTask c ⟨.running f own, cb, e⟩ s f own) := by
  cases c with
  | yieldToReady =>
    rw [runTask]
    split
    · exact .ready ‹_›
    · simp
  | yieldToHold =>
    rw [runTask]
    split
    · exact .hold ‹_›
    · simp
  | finish => exact .finish (.inl rfl)
  | throws => exact .finish (.inr rfl)
  | _ => exact .stay

theorem idleStep_moves (self c w s) :
    Post (fun r => Moves self c w s r.1 r.2) (fun a => a ≠ .swapInExec) (idleStep c w s) := by
  obtain ⟨pc, cb, e⟩ := w
  cases pc with
  | idle =>
    cases c with
    | clock now => exact .nextTimer rfl
    | _ => exact .stay
  | check t =>
    cases c with
    | pending quiet =>
      unfold idleStep
      dsimp only
      split
      · rename_i hstop
        exact .idleStop hstop.1 hstop.2.2
      · exact .arm
    | _ => exact .stay
  | armed t =>
    unfold idleStep
    dsimp only
    split
    · exact .poll ‹_›
    · exact .block ‹_›
  | blocked t =>
    cases c with
    | wake report =>
      unfold idleStep
      dsimp only
      split
      · split
        · exact .report ‹_›
        · exact .stay
      · exact .wake
    | interrupt now => exact .interrupt rfl
    | _ => exact .stay
  | woken report =>
    cases c with
    | expire now addr =>
      unfold idleStep
      dsimp only
      split
      · simp
      · exact .expire ‹_›
    | _ => exact .stay
  | posting report cbs =>
    unfold idleStep
    dsimp only
    rw [scheduleAll_eq]
    dsimp only
    split
    · rename_i hneed
      have hempty : s.fibers = [] := by simp_all
      have hpost : Moves self c ⟨.posting report cbs, cb, e⟩ s ⟨.tickle (.handle report), cb, e⟩
          { s with fibers := cbs.map fun g => { task := .cb g } } := .postFirst hempty
      simpa [hempty] using hpost
    · exact .post
  | handling report =>
    cases report with
    | true => exact .drain
    | false => exact .yieldIdle
  | _ => exact .stay

theorem resetFiber_moves {w : Worker} {s : Shared} {pc : Pc} {P : Prop}
    (hmove : Finished (s.state f) ∨ s.state f = .init →
      Moves self c w s { w with pc } (setState s f .init)) :
    Post (fun r => Moves self c w s r.1 r.2) (fun a => a = .swapInExec → P)
      (match resetFiber s f with
      | .error e => .error e
      | .ok s => .ok ({ w with pc }, s)) := by
  unfold resetFiber
  by_cases hstate : Finished (s.state f) ∨ s.state f = .init
  · rw [if_pos hstate]
    exact hmove hstate
  · rw [if_neg hstate]
    exact nofun

/-- Every step of a worker is one of these, and `swapIn` stops the process only
where it finds `EXEC`. -/
theorem runStep_moves (self c) (w : Worker) (s : Shared) :
    Post (fun r => Moves self c w s r.1 r.2)
      (fun a => a = .swapInExec → ∃ f own, w.pc = .swapIn f own ∧ s.state f = .exec)
      (runStep self c w s) := by
  obtain ⟨pc, cb, e⟩ := w
  cases pc with
  | scan =>
    unfold runStep
    dsimp only
    rcases hscan : scanFibers s.state self s.fibers with ⟨ft, left, tickleMe⟩
    cases ft with
    | none =>
      obtain rfl := scanFibers_none hscan
      cases tickleMe with
      | true => simpa using Moves.missTickle hscan
      | false => simpa using Moves.miss hscan
    | some ft =>
      cases tickleMe with
      | true => exact .takeTickle hscan
      | false => exact .take hscan
  | tickle k =>
    unfold runStep
    dsimp only
    split
    · exact .notify ‹_›
    · exact .noIdle ‹_›
  | write k => exact .write
  | dispatch ft =>
    cases ft with
    | none =>
      cases e with
      | true => exact .exit
      | false => exact .goIdle
    | some t =>
      cases t with
      | fiber f =>
        unfold runStep
        dsimp only
        split
        · exact .finished ‹_›
        · exact .start ‹_›
      | cb g =>
        cases cb with
        | none => exact .fresh
        | some f =>
          exact resetFiber_moves .reuse
  | drop => exact .drop
  | swapIn f own =>
    unfold runStep
    dsimp only
    split
    · exact fun _ => ⟨f, own, rfl, ‹_›⟩
    · exact .swapIn ‹_›
  | running f own =>
    exact (runTask_moves self c cb e s f own).mono (fun _ h => h) fun _ h h' => absurd h' h
  | swapOut f own => exact .swapOut
  | back f own => exact .back
  | after f own =>
    unfold runStep
    dsimp only
    split
    · exact .afterReady ‹_›
    · split
      · cases own with
        | true => exact .afterOwn ‹_›
        | false => exact .afterFiber ‹_›
      · exact .afterPark ‹_› ‹_›
  | requeue f own =>
    unfold runStep scheduleNoLock
    dsimp only
    split
    · rename_i hneed
      have hempty : s.fibers = [] := List.isEmpty_iff.mp hneed
      rw [hempty]
      exact .requeueFirst hempty
    · rename_i hneed
      exact .requeue fun hempty => hneed (List.isEmpty_iff.mpr hempty)
  | park f own => exact .park
  | recycle f =>
    exact resetFiber_moves fun _ => .recycle
  | enter => exact .enter
  | leave => exact .leave
  | _ => exact (idleStep_moves self c _ s).mono (fun _ h => h) fun _ h h' => absurd h' h

/-- The steps of the other threads, one by one: what they do to the shared state,
for `n` workers. -/
inductive Outer (n : Nat) : Action → Shared → Shared → Prop
  | stay {a s} : Outer n a s s
  | create {s} : Outer n .create s { s with made := s.made + 1 }
  | scheduleFirst {fts s} : (∀ ft ∈ fts, ft.Known s.made) → s.fibers = [] → fts ≠ [] →
    Outer n (.schedule fts) s { s with fibers := fts, tickles := s.tickles + 1 }
  | schedule {fts s} : (∀ ft ∈ fts, ft.Known s.made) → s.fibers ≠ [] →
    Outer n (.schedule fts) s { s with fibers := s.fibers ++ fts }
  | addTimer {ms cb recurring now addr s} :
    (∀ i ∈ s.timers.timers, (s.timers.timer i).addr ≠ addr) →
    Outer n (.addTimer ms cb recurring now addr) s
      { s with
        timers := (s.timers.addTimer ms cb recurring now addr).1
        tickles := s.tickles + if (s.timers.addTimer ms cb recurring now addr).2 then 1 else 0 }
  | reset {i ms fromNow now s timers done atFront} :
    s.timers.reset i ms fromNow now = .ok (timers, done, atFront) →
    Outer n (.reset i ms fromNow now) s
      { s with timers := timers, tickles := s.tickles + if atFront then 1 else 0 }
  | stop {s} : Outer n .stop s { s with stop := true, tickles := s.tickles + n }
  | notify {s} : 0 < s.tickles → s.idleThreadCount > 0 →
    Outer n .notify s { s with tickles := s.tickles - 1, writes := s.writes + 1 }
  | noIdle {s} : ¬ s.idleThreadCount > 0 → Outer n .notify s { s with tickles := s.tickles - 1 }
  | write {s} : Outer n .write s { s with writes := s.writes - 1, pipe := true }

/-- The rule for one step: what the other threads keep, what each move of a
worker keeps, and where the process may end. -/
theorem post_exec {I : State → Prop} {Q : Abort → Prop}
    (houter : ∀ shared, Outer s.workers.length a s.shared shared → I { s with shared := shared })
    (hmove : ∀ i c w w' shared, a = .worker i c → s.workers[i]? = some w →
      Moves i c w s.shared w' shared → I { shared := shared, workers := s.workers.set i w' })
    (hstop : ∀ e, (e = .swapInExec → ∃ (i : Nat) (w : Worker) (f : Nat) (own : Bool),
      s.workers[i]? = some w ∧ w.pc = .swapIn f own ∧ s.shared.state f = .exec) → Q e) :
    Post I Q (exec a s) := by
  cases a with
  | create => exact houter _ .create
  | schedule fts =>
    rw [exec]
    split
    · rename_i hknown
      cases fts with
      | nil => exact houter _ .stay
      | cons ft fts =>
        rw [scheduleAll_eq]
        cases hfibers : s.shared.fibers with
        | nil => exact houter _ (.scheduleFirst hknown hfibers (List.cons_ne_nil _ _))
        | cons it rest =>
          have hne : s.shared.fibers ≠ [] := by simp [hfibers]
          simpa [hfibers] using houter _ (.schedule hknown hne)
    · exact houter _ .stay
  | addTimer ms cb recurring now addr =>
    rw [exec]
    split
    · exact houter _ .stay
    · rename_i hfree
      exact houter _ (.addTimer fun i hi heq => hfree ⟨i, hi, heq⟩)
  | reset i ms fromNow now =>
    rw [exec]
    split
    · exact hstop _ nofun
    · exact houter _ (.reset ‹_›)
  | stop => exact houter _ .stop
  | notify =>
    rw [exec]
    split
    · exact houter _ .stay
    · by_cases hidle : s.shared.idleThreadCount > 0
      · rw [if_pos hidle]
        exact houter _ (.notify (by omega) hidle)
      · rw [if_neg hidle]
        exact houter _ (.noIdle hidle)
  | write =>
    rw [exec]
    split
    · exact houter _ .stay
    · exact houter _ .write
  | worker i c =>
    rw [exec]
    cases hw : s.workers[i]? with
    | none => exact houter _ .stay
    | some w =>
      have hstep := runStep_moves i c w s.shared
      dsimp only
      cases hx : runStep i c w s.shared with
      | error e =>
        rw [hx] at hstep
        refine hstop e fun he => ?_
        obtain ⟨f, own, hpc, hexec⟩ := hstep he
        exact ⟨i, w, f, own, hw, hpc, hexec⟩
      | ok r =>
        rw [hx] at hstep
        exact hmove i c w r.1 r.2 rfl hw hstep

end Helens.Scheduler
