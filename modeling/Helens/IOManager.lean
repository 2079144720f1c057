import Mathlib.Data.Finset.Card
import Helens.Lib.Runs

/-! `IOManager`: the table of `FdContext`s, the events registered in them, and the threads that work
on both. A section of code under one lock is one step; what a thread knows from an earlier section
is kept in `flight`. -/

namespace Helens.IOManager
open Lib.Runs

/-! ## Contexts -/

inductive Event
  | read
  | write
deriving DecidableEq

instance : Fintype Event := ⟨{.read, .write}, by intro e; cases e <;> decide⟩

/-- What is to be run once an event is there. Null pointers and an empty
`std::function` are `none`. -/
structure EventContext where
  scheduler : Option Nat := none
  fiber : Option Nat := none
  cb : Option Nat := none

def EventContext.IsEmpty (x : EventContext) : Prop :=
  x.scheduler = none ∧ x.fiber = none ∧ x.cb = none
  deriving Decidable

/-- One file descriptor. The source's bit mask of events is the set of its bits. -/
structure FdContext where
  fd : Nat
  events : Finset Event := ∅
  read : EventContext := {}
  write : EventContext := {}

def FdContext.getContext (c : FdContext) : Event → EventContext
  | .read => c.read
  | .write => c.write

def FdContext.setContext (c : FdContext) (e : Event) (x : EventContext) : FdContext :=
  match e with
  | .read => { c with read := x }
  | .write => { c with write := x }

variable (c : FdContext)

@[simp] theorem getContext_setContext (e e' x) :
    (c.setContext e x).getContext e' = if e' = e then x else c.getContext e' := by
  cases e <;> cases e' <;> rfl

@[simp] theorem setContext_events (e x) : (c.setContext e x).events = c.events := by
  cases e <;> rfl

@[simp] theorem setContext_fd (e x) : (c.setContext e x).fd = c.fd := by
  cases e <;> rfl

@[simp] theorem getContext_events (events) (e : Event) :
    { c with events := events }.getContext e = c.getContext e := by
  cases e <;> rfl

/-! ## Work under the lock of a context -/

inductive Task
  | fiber (f : Nat)
  | cb (f : Nat)
deriving DecidableEq

/-- Why the process ends. All but the last two are the source's own asserts. -/
inductive Abort
  /-- `addEvent` for an event that is registered already. -/
  | eventRegistered
  /-- `addEvent` finds the event's context in use. -/
  | contextInUse
  /-- `triggerEvent` for an event that is not registered. -/
  | eventNotRegistered
  /-- `cancelAll` did not get rid of every event. -/
  | eventsLeft
  /-- A null scheduler is asked to schedule. -/
  | nullScheduler
  /-- The table is read behind its end. -/
  | outOfRange
deriving DecidableEq

structure Locked where
  ptr : Nat
  ctx : FdContext
  /-- `m_pendingEventCount`, an integer so that it could fall below zero. -/
  pending : Int
  /-- What the kernel watches for a descriptor, and the pointer it hands back. -/
  interest : Nat → Option (Nat × Finset Event)
  scheduled : List (Nat × Task)

/-- `ADD`, `MOD` and `DEL` in one: the kernel is to watch `events` and nothing
else. It may refuse, and the section then goes no further. -/
def epollCtl (granted : Bool) (events : Finset Event) (l : Locked) : Option Locked :=
  if granted then
    some { l with
      interest := Function.update l.interest l.ctx.fd
        (if events = ∅ then none else some (l.ptr, events)) }
  else
    none

def EventContext.task (x : EventContext) : Option Task :=
  match x.cb with
  | some f => some (.cb f)
  | none => x.fiber.map .fiber

/-- `schedule` swaps out what its argument points to, and the scheduler is
forgotten. -/
def EventContext.taken (x : EventContext) : EventContext :=
  match x.cb with
  | some _ => { x with scheduler := none, cb := none }
  | none => { x with scheduler := none, fiber := none }

def triggerEvent (e : Event) (l : Locked) : Except Abort Locked :=
  if e ∉ l.ctx.events then
    .error .eventNotRegistered
  else
    match (l.ctx.getContext e).scheduler with
    | none => .error .nullScheduler
    | some r => .ok { l with
        ctx := { l.ctx with events := l.ctx.events.erase e }.setContext e
          (l.ctx.getContext e).taken
        -- `scheduleNoLock` drops a task that is neither fiber nor callback
        scheduled := l.scheduled ++ (l.ctx.getContext e).task.toList.map (r, ·) }

def release (e : Event) (l : Locked) : Except Abort Locked := do
  let l ← triggerEvent e l
  return { l with pending := l.pending - 1 }

def releaseIf (c : Prop) [Decidable c] (e : Event) (l : Locked) : Except Abort Locked :=
  if c then release e l else .ok l

structure Caller where
  scheduler : Option Nat
  fiber : Nat

def Caller.context (t : Caller) : Option Nat → EventContext
  | some f => { scheduler := t.scheduler, cb := some f }
  | none => { scheduler := t.scheduler, fiber := some t.fiber }

def addEvent (e : Event) (cb : Option Nat) (caller : Caller) (granted : Bool) (l : Locked) :
    Except Abort (Bool × Locked) :=
  if e ∈ l.ctx.events then
    .error .eventRegistered
  else
    match epollCtl granted (insert e l.ctx.events) l with
    | none => .ok (false, l)
    | some l =>
      if ¬ (l.ctx.getContext e).IsEmpty then
        .error .contextInUse
      else
        .ok (true, { l with
          pending := l.pending + 1
          ctx := { l.ctx with events := insert e l.ctx.events }.setContext e
            (caller.context cb) })

def delEvent (e : Event) (granted : Bool) (l : Locked) : Except Abort (Bool × Locked) :=
  if e ∉ l.ctx.events then
    .ok (false, l)
  else
    match epollCtl granted (l.ctx.events.erase e) l with
    | none => .ok (false, l)
    | some l => .ok (true, { l with
        pending := l.pending - 1
        ctx := { l.ctx with events := l.ctx.events.erase e }.setContext e {} })

def cancelEvent (e : Event) (granted : Bool) (l : Locked) : Except Abort (Bool × Locked) :=
  if e ∉ l.ctx.events then
    .ok (false, l)
  else
    match epollCtl granted (l.ctx.events.erase e) l with
    | none => .ok (false, l)
    | some l => do
      let l ← release e l
      return (true, l)

def cancelAll (granted : Bool) (l : Locked) : Except Abort (Bool × Locked) :=
  if l.ctx.events = ∅ then
    .ok (false, l)
  else
    match epollCtl granted ∅ l with
    | none => .ok (false, l)
    | some l => do
      let l ← releaseIf (.read ∈ l.ctx.events) .read l
      let l ← releaseIf (.write ∈ l.ctx.events) .write l
      if l.ctx.events ≠ ∅ then
        .error .eventsLeft
      else
        return (true, l)

/-- The events a report stands for: `EPOLLERR` and `EPOLLHUP` wake whatever is
registered by now. -/
def realEvents (c : FdContext) (reported : Finset Event) (failed : Bool) : Finset Event :=
  if failed then reported ∪ c.events else reported

/-- One turn of the loop in `idle` over what `epoll_wait` reported; `failed` is
`EPOLLERR` or `EPOLLHUP`. -/
def handleReport (reported : Finset Event) (failed granted : Bool) (l : Locked) :
    Except Abort (Bool × Locked) :=
  if l.ctx.events ∩ realEvents l.ctx reported failed = ∅ then
    .ok (false, l)
  else
    match epollCtl granted (l.ctx.events \ realEvents l.ctx reported failed) l with
    | none => .ok (false, l)
    | some l' => do
      let l' ← releaseIf (.read ∈ realEvents l.ctx reported failed) .read l'
      let l' ← releaseIf (.write ∈ realEvents l.ctx reported failed) .write l'
      return (true, l')

/-! ## The manager -/

inductive Call
  | addEvent (e : Event) (cb : Option Nat) (caller : Caller)
  | delEvent (e : Event)
  | cancelEvent (e : Event)
  | cancelAll

inductive Job
  /-- `addEvent` has found the table too short. -/
  | grow (fd : Nat) (e : Event) (cb : Option Nat) (caller : Caller)
  | call (ptr : Nat) (c : Call)
  | report (ptr : Nat) (reported : Finset Event) (failed : Bool)

structure State where
  /-- Every `FdContext` there ever was; a pointer is a position. Nothing before the
  destructor deletes one. -/
  heap : List FdContext
  table : List Nat
  pending : Int
  interest : Nat → Option (Nat × Finset Event)
  scheduled : List (Nat × Task)
  flight : List Job

def contextResize (size : Nat) (s : State) : State :=
  { s with
    table := s.table.take size ++ List.range' s.heap.length (size - s.table.length)
    heap := s.heap ++
      (List.range' s.table.length (size - s.table.length)).map fun fd => { fd := fd } }

def start : State :=
  contextResize 32
    { heap := [], table := [], pending := 0, interest := fun _ => none, scheduled := [],
      flight := [] }

/-- The size `addEvent` asks for: `fd * 1.5`, rounded down. -/
def grownSize (fd : Nat) : Nat := fd * 3 / 2

/-- The section of a call under the read lock. All calls but `addEvent` return
`false` where the table is too short. -/
def probe (fd : Nat) (c : Call) (s : State) : State :=
  match s.table[fd]? with
  | some ptr => { s with flight := s.flight ++ [.call ptr c] }
  | none =>
    match c with
    | .addEvent e cb caller => { s with flight := s.flight ++ [.grow fd e cb caller] }
    | _ => s

def growTable (i fd : Nat) (e : Event) (cb : Option Nat) (caller : Caller) (s : State) :
    Except Abort State :=
  let s := contextResize (grownSize fd) s
  match s.table[fd]? with
  | some ptr => .ok { s with flight := s.flight.set i (.call ptr (.addEvent e cb caller)) }
  | none => .error .outOfRange

def Call.work : Call → Bool → Locked → Except Abort (Bool × Locked)
  | .addEvent e cb caller => IOManager.addEvent e cb caller
  | .delEvent e => IOManager.delEvent e
  | .cancelEvent e => IOManager.cancelEvent e
  | .cancelAll => IOManager.cancelAll

def withLock (i ptr : Nat) (work : Locked → Except Abort (Bool × Locked)) (s : State) :
    Except Abort State :=
  match s.heap[ptr]? with
  | none => .ok s
  | some ctx => do
    let (_, l) ← work ⟨ptr, ctx, s.pending, s.interest, s.scheduled⟩
    return { s with
      heap := s.heap.set ptr l.ctx
      pending := l.pending
      interest := l.interest
      scheduled := l.scheduled
      flight := s.flight.eraseIdx i }

def maxEvents : Nat := 256

def reportOf (interest : Nat → Option (Nat × Finset Event)) : Nat × Finset Event × Bool → Option Job
  | (fd, reported, failed) =>
    (interest fd).map fun (ptr, watched) => .report ptr (reported ∩ watched) failed

inductive Action
  | call (fd : Nat) (c : Call)
  | grow (i : Nat)
  /-- Job `i` takes the lock of its context; `granted` is what `epoll_ctl` says. -/
  | lock (i : Nat) (granted : Bool)
  /-- `epoll_wait` returns to an idle thread. -/
  | wait (reports : List (Nat × Finset Event × Bool))
  /-- The descriptor is closed, and the kernel stops watching it. -/
  | close (fd : Nat)

def exec : Action → State → Except Abort State
  | .call fd c, s => .ok (probe fd c s)
  | .grow i, s =>
    match s.flight[i]? with
    | some (.grow fd e cb caller) => growTable i fd e cb caller s
    | _ => .ok s
  | .lock i granted, s =>
    match s.flight[i]? with
    | some (.call ptr c) => withLock i ptr (c.work granted) s
    | some (.report ptr reported failed) =>
      withLock i ptr (handleReport reported failed granted) s
    | _ => .ok s
  | .wait reports, s =>
    .ok { s with flight := s.flight ++ (reports.take maxEvents).filterMap (reportOf s.interest) }
  | .close fd, s => .ok { s with interest := Function.update s.interest fd none }

end Helens.IOManager
