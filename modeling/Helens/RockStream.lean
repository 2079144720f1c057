import Mathlib.Data.List.AList
import Mathlib.Data.List.Perm.Basic
import Helens.Lib.Runs

/-! Requests on an asynchronous stream. `request` registers a context under a sequence number, arms
a timer and puts its fiber to sleep; the response, the timer and the close each take the context to
`doRsp`, where a compare-and-swap decides who wakes the fiber. A step is one lock section or one
access. The parties at work are jobs. -/

namespace Helens.RockStream

open Lib.Runs

/-! ## State -/

/-- A `RockResponse`. `request` says which request the peer answers with it, which no
code reads. -/
structure Response where
  sn : Nat
  result : Int
  request : Option Nat := none
  deriving DecidableEq

def TIMEOUT : Int := -1

def IO_ERROR : Int := -2

inductive Stage where
  | created
  /-- behind `addCtx` -/
  | added
  /-- behind `addTimer` -/
  | armed
  /-- behind the write to `ctx->timer` -/
  | stored
  /-- in `YieldToHold` -/
  | waiting
  | resumed
  deriving DecidableEq

/-- Who took a context out of `m_ctxs` to complete it. -/
inductive Party where
  | response (rsp : Response)
  | close

/-- A `RockCtx`. The last fields are history: who took the context, whether its response, timeout or
a close has come, how often its fiber was scheduled, and what it read. -/
structure Ctx where
  sn : Nat
  result : Int := 0
  timed : Bool := false
  scheduler : Bool := true
  fiber : Bool := true
  timer : Bool := false
  response : Option Response := none
  stage : Stage := .created
  /-- the timer manager holds the timer -/
  pending : Bool := false
  party : Option Party := none
  ended : Bool := false
  scheduled : Nat := 0
  outcome : Option (Int × Option Response) := none

inductive Role where
  | response (rsp : Response)
  | timeout
  /-- the loop of `innerClose`, with the contexts still to come -/
  | close (rest : List Nat)

inductive Pc where
  /-- `m_ctxs.erase(ctx->sn)` -/
  | erase
  /-- `ctx->timed = true` -/
  | timed
  /-- `ctx->result = ...` -/
  | result
  /-- `ctx->response = rsp` -/
  | response
  /-- `doRsp`: `scd = scheduler` -/
  | load
  /-- the compare-and-swap -/
  | swap (scd : Bool)
  /-- `timer->cancel()` -/
  | cancel
  /-- `if(timed)` -/
  | check
  /-- `result = TIMEOUT` -/
  | write
  /-- `scd->schedule(&fiber)` -/
  | schedule
  | done
  deriving DecidableEq

structure Job where
  role : Role
  ctx : Nat
  pc : Pc

structure State where
  ctxs : List Ctx := []
  table : AList (fun _ : Nat => Nat) := ∅
  jobs : List Job := []

/-! ## Steps -/

/-- `doRsp` returns; `innerClose` goes on with its next context. -/
def Job.leave (j : Job) : Job :=
  match j.role with
  | .close (c :: rest) => { role := .close rest, ctx := c, pc := .result }
  | _ => { j with pc := .done }

def Job.step (j : Job) (x : Ctx) : Job × Ctx :=
  match j.pc with
  | .erase => ({ j with pc := .timed }, { x with ended := true })
  | .timed => ({ j with pc := .load }, { x with timed := true })
  | .result =>
    match j.role with
    | .response rsp => ({ j with pc := .response }, { x with result := rsp.result })
    | _ => ({ j with pc := .load }, { x with result := IO_ERROR })
  | .response =>
    match j.role with
    | .response rsp => ({ j with pc := .load }, { x with response := some rsp })
    | _ => (j, x)
  | .load => ({ j with pc := .swap x.scheduler }, x)
  | .swap scd =>
    if x.scheduler = scd then
      (if scd && x.fiber then { j with pc := .cancel } else j.leave, { x with scheduler := false })
    else (j.leave, x)
  | .cancel =>
    ({ j with pc := .check }, if x.timer then { x with pending := false, timer := false } else x)
  | .check => ({ j with pc := if x.timed then .write else .schedule }, x)
  | .write => ({ j with pc := .schedule }, { x with result := TIMEOUT })
  | .schedule => (j.leave, { x with fiber := false, scheduled := x.scheduled + 1 })
  | .done => (j, x)

inductive Action where
  /-- `request` on a connected stream: the new context -/
  | request (sn : Nat)
  | addCtx (c : Nat)
  | addTimer (c : Nat)
  | storeTimer (c : Nat)
  /-- `enqueue` and `YieldToHold` -/
  | yieldToHold (c : Nat)
  /-- the timer expires and `onTimeOut` starts -/
  | fire (c : Nat)
  /-- `doRecv` of a response: `getAndDelCtx` -/
  | doRecv (rsp : Response)
  /-- `innerClose`: `ctxs.swap(m_ctxs)`, with the order of the loop behind it -/
  | innerClose (order : List Nat)
  | job (k : Nat)
  /-- the fiber goes on behind `YieldToHold` -/
  | resume (c : Nat)

def State.advance (s : State) (c : Nat) (stage : Stage) (f : Ctx → Ctx) : State :=
  match s.ctxs[c]? with
  | none => s
  | some x => if x.stage = stage then { s with ctxs := s.ctxs.set c (f x) } else s

/-- `addCtx`: `insert` does not overwrite. -/
def addCtx (s : State) (c : Nat) : State :=
  match s.ctxs[c]? with
  | none => s
  | some x =>
    if x.stage = .created then
      { s with
        ctxs := s.ctxs.set c { x with stage := .added }
        table := if x.sn ∈ s.table then s.table else s.table.insert x.sn c }
    else s

/-- The request that a response answers has had its response. -/
def answered (rsp : Response) (c : Nat) (x : Ctx) : Ctx :=
  if rsp.request = some c then { x with ended := true } else x

def doRecv (s : State) (rsp : Response) : State :=
  let ctxs := s.ctxs.mapIdx (answered rsp)
  match s.table.lookup rsp.sn with
  | none => { s with ctxs := ctxs }
  | some c =>
    { ctxs := ctxs.modify c fun x => { x with party := some (.response rsp) }
      table := s.table.erase rsp.sn
      jobs := s.jobs ++ [{ role := .response rsp, ctx := c, pc := .result }] }

/-- The close of the stream ends what is in flight, and takes what is registered. -/
def closed (order : List Nat) (c : Nat) (x : Ctx) : Ctx :=
  { x with
    ended := x.ended || x.stage ≠ .created
    party := if c ∈ order then some .close else x.party }

def innerClose (s : State) (order : List Nat) : State :=
  { ctxs := s.ctxs.mapIdx (closed order)
    table := ∅
    jobs := match order with
      | [] => s.jobs
      | c :: rest => s.jobs ++ [{ role := .close rest, ctx := c, pc := .result }] }

def jobStep (s : State) (k : Nat) : State :=
  match s.jobs[k]? with
  | none => s
  | some j =>
    match s.ctxs[j.ctx]? with
    | none => s
    | some x =>
      { ctxs := s.ctxs.set j.ctx (j.step x).2
        table := if j.pc = .erase then s.table.erase x.sn else s.table
        jobs := s.jobs.set k (j.step x).1 }

def step : Action → State → State
  | .request sn, s => { s with ctxs := s.ctxs ++ [{ sn := sn }] }
  | .addCtx c, s => addCtx s c
  | .addTimer c, s => s.advance c .added fun x => { x with stage := .armed, pending := true }
  | .storeTimer c, s => s.advance c .armed fun x => { x with stage := .stored, timer := true }
  | .yieldToHold c, s => s.advance c .stored fun x => { x with stage := .waiting }
  | .fire c, s =>
    match s.ctxs[c]? with
    | none => s
    | some x =>
      if x.pending then
        { s with
          ctxs := s.ctxs.set c { x with pending := false }
          jobs := s.jobs ++ [{ role := .timeout, ctx := c, pc := .erase }] }
      else s
  | .doRecv rsp, s => doRecv s rsp
  | .innerClose order, s =>
    if order.Perm (s.table.entries.map Sigma.snd) then innerClose s order else s
  | .job k, s => jobStep s k
  | .resume c, s =>
    match s.ctxs[c]? with
    | none => s
    | some x =>
      if x.stage = .waiting ∧ 0 < x.scheduled then
        { s with ctxs :=
          s.ctxs.set c { x with stage := .resumed, outcome := some (x.result, x.response) } }
      else s

def init : State := {}

def exec (a : Action) (s : State) : Except Empty State := .ok (step a s)

/-! ## What a job's step can do -/

/-- The steps of a job, one by one: the job and its context before and after. -/
inductive Moves : Job → Ctx → Job → Ctx → Prop
  | stay {j x} : Moves j x j x
  | erase {r c x} : Moves ⟨r, c, .erase⟩ x ⟨r, c, .timed⟩ { x with ended := true }
  | timed {r c x} : Moves ⟨r, c, .timed⟩ x ⟨r, c, .load⟩ { x with timed := true }
  | result {rsp c x} : Moves ⟨.response rsp, c, .result⟩ x ⟨.response rsp, c, .response⟩
      { x with result := rsp.result }
  | ioError {r c x} : (∀ rsp, r ≠ .response rsp) →
    Moves ⟨r, c, .result⟩ x ⟨r, c, .load⟩ { x with result := IO_ERROR }
  | response {rsp c x} : Moves ⟨.response rsp, c, .response⟩ x ⟨.response rsp, c, .load⟩
      { x with response := some rsp }
  | load {r c x} : Moves ⟨r, c, .load⟩ x ⟨r, c, .swap x.scheduler⟩ x
  | win {r c x} : x.scheduler = true →
    Moves ⟨r, c, .swap true⟩ x ⟨r, c, .cancel⟩ { x with scheduler := false }
  | nothing {r c x scd} : x.scheduler = scd →
    Moves ⟨r, c, .swap scd⟩ x (Job.leave ⟨r, c, .swap scd⟩) { x with scheduler := false }
  | lose {r c x scd} : x.scheduler ≠ scd →
    Moves ⟨r, c, .swap scd⟩ x (Job.leave ⟨r, c, .swap scd⟩) x
  | cancel {r c x} : Moves ⟨r, c, .cancel⟩ x ⟨r, c, .check⟩
      { x with pending := false, timer := false }
  | noTimer {r c x} : Moves ⟨r, c, .cancel⟩ x ⟨r, c, .check⟩ x
  | late {r c x} : x.timed = true → Moves ⟨r, c, .check⟩ x ⟨r, c, .write⟩ x
  | check {r c x} : x.timed = false → Moves ⟨r, c, .check⟩ x ⟨r, c, .schedule⟩ x
  | write {r c x} : Moves ⟨r, c, .write⟩ x ⟨r, c, .schedule⟩ { x with result := TIMEOUT }
  | schedule {r c x} : Moves ⟨r, c, .schedule⟩ x (Job.leave ⟨r, c, .schedule⟩)
      { x with fiber := false, scheduled := x.scheduled + 1 }

theorem Job.step_moves (j : Job) (x) : Moves j x (j.step x).1 (j.step x).2 := by
  obtain ⟨r, c, pc⟩ := j
  cases pc with
  | erase => exact .erase
  | timed => exact .timed
  | result =>
    cases r with
    | response rsp => exact .result
    | timeout => exact .ioError nofun
    | close rest => exact .ioError nofun
  | response =>
    cases r with
    | response rsp => exact .response
    | timeout => exact .stay
    | close rest => exact .stay
  | load => exact .load
  | swap scd =>
    unfold Job.step
    dsimp only
    split
    · rename_i hscd
      cases hwin : (scd && x.fiber) with
      | true =>
        obtain ⟨rfl, _⟩ := Bool.and_eq_true_iff.mp hwin
        exact .win hscd
      | false => exact .nothing hscd
    · exact .lose ‹_›
  | cancel =>
    unfold Job.step
    dsimp only
    split
    · exact .cancel
    · exact .noTimer
  | check =>
    unfold Job.step
    dsimp only
    split
    · exact .late ‹_›
    · exact .check (by simpa using ‹¬ x.timed = true›)
  | write => exact .write
  | schedule => exact .schedule
  | done => exact .stay

/-! ## What a step can do -/

/-- The steps of a request's own fiber behind `addCtx`: its context before and after. -/
inductive Goes : Ctx → Ctx → Prop
  | addTimer {x} : x.stage = .added → Goes x { x with stage := .armed, pending := true }
  | storeTimer {x} : x.stage = .armed → Goes x { x with stage := .stored, timer := true }
  | yieldToHold {x} : x.stage = .stored → Goes x { x with stage := .waiting }
  | resume {x} : x.stage = .waiting → 0 < x.scheduled →
    Goes x { x with stage := .resumed, outcome := some (x.result, x.response) }

inductive Steps (s : State) : Action → State → Prop
  | stay {a} : Steps s a s
  | request {sn} : Steps s (.request sn) { s with ctxs := s.ctxs ++ [{ sn := sn }] }
  | addCtx {c x} : s.ctxs[c]? = some x → x.stage = .created →
    Steps s (.addCtx c)
      { s with
        ctxs := s.ctxs.set c { x with stage := .added }
        table := if x.sn ∈ s.table then s.table else s.table.insert x.sn c }
  | goes {a c x x'} : s.ctxs[c]? = some x → Goes x x' →
    Steps s a { s with ctxs := s.ctxs.set c x' }
  | fire {c x} : s.ctxs[c]? = some x → x.pending = true →
    Steps s (.fire c)
      { s with
        ctxs := s.ctxs.set c { x with pending := false }
        jobs := s.jobs ++ [{ role := .timeout, ctx := c, pc := .erase }] }
  | doRecv {rsp} : Steps s (.doRecv rsp) (doRecv s rsp)
  | innerClose {order} : order.Perm (s.table.entries.map Sigma.snd) →
    Steps s (.innerClose order) (innerClose s order)
  | job {k j x} : s.jobs[k]? = some j → s.ctxs[j.ctx]? = some x →
    Steps s (.job k)
      { ctxs := s.ctxs.set j.ctx (j.step x).2
        table := if j.pc = .erase then s.table.erase x.sn else s.table
        jobs := s.jobs.set k (j.step x).1 }

theorem Steps.advance (c) {f : Ctx → Ctx}
    (h : ∀ x : Ctx, x.stage = stage → Goes x (f x)) : Steps s a (s.advance c stage f) := by
  unfold State.advance
  split
  · exact .stay
  · split
    · exact .goes ‹_› (h _ ‹_›)
    · exact .stay

theorem step_steps (s a) : Steps s a (step a s) := by
  cases a with
  | request sn => exact .request
  | addCtx c =>
    unfold step RockStream.addCtx
    dsimp only
    split
    · exact .stay
    · split
      · exact .addCtx ‹_› ‹_›
      · exact .stay
  | addTimer c => exact .advance c fun _ => .addTimer
  | storeTimer c => exact .advance c fun _ => .storeTimer
  | yieldToHold c => exact .advance c fun _ => .yieldToHold
  | fire c =>
    unfold step
    dsimp only
    split
    · exact .stay
    · split
      · exact .fire ‹_› ‹_›
      · exact .stay
  | doRecv rsp => exact .doRecv
  | innerClose order =>
    unfold step
    dsimp only
    split
    · exact .innerClose ‹_›
    · exact .stay
  | job k =>
    unfold step jobStep
    dsimp only
    split
    · exact .stay
    · split
      · exact .stay
      · exact .job ‹_› ‹_›
  | resume c =>
    unfold step
    dsimp only
    split
    · exact .stay
    · split
      · rename_i hwaiting
        exact .goes ‹_› (.resume hwaiting.1 hwaiting.2)
      · exact .stay

theorem Goes.stage (h : Goes x x') : x.stage ≠ .created ∧ x'.stage ≠ .created := by
  cases h with
  | addTimer hs | storeTimer hs | yieldToHold hs =>
    rw [hs]
    exact ⟨nofun, nofun⟩
  | resume hs =>
    rw [hs]
    exact ⟨nofun, nofun⟩

theorem Goes.frame (h : Goes x x') :
    x'.sn = x.sn ∧ x'.ended = x.ended ∧ x'.scheduler = x.scheduler ∧
      x'.scheduled = x.scheduled := by
  cases h <;> exact ⟨rfl, rfl, rfl, rfl⟩

end Helens.RockStream
