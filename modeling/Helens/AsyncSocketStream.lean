import Helens.FiberSemaphore

/-! The send queue of `AsyncSocketStream`: `enqueue`, the loop of `doWrite` and `innerClose`,
interleaved at every lock section and every call of the semaphore. Only a push into an empty queue
notifies, and the writer takes the whole queue for one permit. There is one writer at a time. -/

namespace Helens.AsyncSocketStream

open Lib.Runs FiberSemaphore List

variable {α : Type}

/-! ## The code -/

inductive Writer (α : Type)
  /-- it has not been started, or has ended -/
  | idle
  /-- before `isConnected` -/
  | check
  /-- before `m_sem.wait` -/
  | ready
  /-- in `m_waiters` of the semaphore -/
  | waiting (w : Waiter)
  /-- with a permit, before the swap -/
  | taken
  /-- in the loop over `ctxs`, with those that are left -/
  | sending (ctxs : List α)
  /-- in `innerClose`, before `m_sem.notify` -/
  | closing
  /-- in `innerClose`, before the queue is cleared -/
  | clearing
  /-- behind the loop, before the queue is cleared -/
  | out
  deriving DecidableEq

/-- `notifying` counts calls of `enqueue` that have not notified yet, `clearing` those of
`innerClose` that have not cleared yet. What was enqueued and what was sent is logged. -/
structure State (α : Type) where
  queue : List α := []
  sem : Semaphore := ⟨0, []⟩
  notifying : Nat := 0
  clearing : Nat := 0
  writer : Writer α := .idle
  enqueued : List α := []
  sent : List α := []
  deriving DecidableEq

/-- `m_sem.notify`. Only the writer waits, so it is the writer that is woken. -/
def notify (s : State α) : State α :=
  let r := FiberSemaphore.notify s.sem
  { s with sem := r.2, writer := if r.1.isSome then .taken else s.writer }

def Writer.next : List α → Writer α
  | [] => .check
  | ctxs => .sending ctxs

inductive Action (α : Type)
  /-- the section of `enqueue` -/
  | enqueue (ctx : α)
  /-- `m_sem.notify` of a call of `enqueue` -/
  | notify
  /-- `m_sem.notify` of a call of `innerClose` outside `doWrite` -/
  | close
  /-- the section of such a call that clears the queue -/
  | clear
  /-- `doWrite` is started -/
  | start
  | isConnected (connected : Bool)
  | wait (w : Waiter)
  | swap
  /-- `doSend` returns the result, or throws -/
  | doSend (result : Option Bool)
  /-- the two sections of `innerClose` in `doWrite` -/
  | closeInside
  | clearInside
  /-- the section behind the loop -/
  | leave

/-- A step that is not the next one of its fiber does nothing. -/
def step (s : State α) : Action α → State α
  | .enqueue ctx => { s with
      queue := s.queue ++ [ctx]
      notifying := s.notifying + if s.queue = [] then 1 else 0
      enqueued := s.enqueued ++ [ctx] }
  | .notify =>
    if s.notifying = 0 then s else notify { s with notifying := s.notifying - 1 }
  | .close => notify { s with clearing := s.clearing + 1 }
  | .clear => if s.clearing = 0 then s else { s with queue := [], clearing := s.clearing - 1 }
  | .start =>
    match s.writer with
    | .idle => { s with writer := .check }
    | _ => s
  | .isConnected connected =>
    match s.writer with
    | .check => { s with writer := if connected then .ready else .out }
    | _ => s
  | .wait w =>
    match s.writer with
    | .ready =>
      let r := FiberSemaphore.wait w s.sem
      { s with sem := r.2, writer := if r.1 then .taken else .waiting w }
    | _ => s
  | .swap =>
    match s.writer with
    | .taken => { s with queue := [], writer := .next s.queue }
    | _ => s
  | .doSend result =>
    match s.writer with
    | .sending (ctx :: ctxs) => { s with
        sent := s.sent ++ [ctx]
        writer := match result with
          | some true => .next ctxs
          | some false => .closing
          | none => .out }
    | _ => s
  | .closeInside =>
    match s.writer with
    | .closing => notify { s with writer := .clearing }
    | _ => s
  | .clearInside =>
    match s.writer with
    | .clearing => { s with queue := [], writer := .check }
    | _ => s
  | .leave =>
    match s.writer with
    | .out => { s with queue := [], writer := .idle }
    | _ => s

def exec (a : Action α) (s : State α) : Except Empty (State α) := .ok (step s a)

/-! ## What a step can do -/

/-- The steps that are the next ones of their fibers. -/
inductive Steps (s : State α) : Action α → State α → Prop
  | stay {a : Action α} : Steps s a s
  | push (ctx : α) : Steps s (.enqueue ctx) { s with
      queue := s.queue ++ [ctx]
      notifying := s.notifying + if s.queue = [] then 1 else 0
      enqueued := s.enqueued ++ [ctx] }
  | notified : s.notifying ≠ 0 →
    Steps s .notify (notify { s with notifying := s.notifying - 1 })
  | closed : Steps s .close (notify { s with clearing := s.clearing + 1 })
  | cleared : Steps s .clear { s with queue := [], clearing := s.clearing - 1 }
  | started : s.writer = .idle → Steps s .start { s with writer := .check }
  | checked (connected : Bool) : s.writer = .check →
    Steps s (.isConnected connected) { s with writer := if connected then .ready else .out }
  | permitted (w : Waiter) : s.writer = .ready → 0 < s.sem.concurrency →
    Steps s (.wait w) { s with
      sem := { s.sem with concurrency := s.sem.concurrency - 1 }
      writer := .taken }
  | queued (w : Waiter) : s.writer = .ready → s.sem.concurrency = 0 →
    Steps s (.wait w) { s with
      sem := { s.sem with waiters := s.sem.waiters ++ [w] }
      writer := .waiting w }
  | swapped : s.writer = .taken →
    Steps s .swap { s with queue := [], writer := .next s.queue }
  | passed {ctx : α} {ctxs : List α} (result : Option Bool) (writer : Writer α) :
    s.writer = .sending (ctx :: ctxs) →
    writer = .next ctxs ∨ writer = .closing ∨ writer = .out →
    Steps s (.doSend result) { s with sent := s.sent ++ [ctx], writer }
  | closedInside : s.writer = .closing →
    Steps s .closeInside (notify { s with writer := .clearing })
  | clearedInside : s.writer = .clearing →
    Steps s .clearInside { s with queue := [], writer := .check }
  | left : s.writer = .out → Steps s .leave { s with queue := [], writer := .idle }

theorem step_steps (s : State α) (a : Action α) : Steps s a (step s a) := by
  cases a with
  | enqueue ctx => exact .push ctx
  | notify =>
    dsimp only [step]
    split
    · exact .stay
    · exact .notified (by assumption)
  | close => exact .closed
  | clear =>
    dsimp only [step]
    split
    · exact .stay
    · exact .cleared
  | start =>
    dsimp only [step]
    split
    · exact .started (by assumption)
    · exact .stay
  | isConnected connected =>
    dsimp only [step]
    split
    · exact .checked connected (by assumption)
    · exact .stay
  | wait w =>
    dsimp only [step]
    split
    · next hready =>
      unfold FiberSemaphore.wait
      split
      · next hpos => exact .permitted w hready hpos
      · next hzero => exact .queued w hready (by simpa using hzero)
    · exact .stay
  | swap =>
    dsimp only [step]
    split
    · exact .swapped (by assumption)
    · exact .stay
  | doSend result =>
    dsimp only [step]
    split
    · next ctx ctxs hsending =>
      refine .passed result _ hsending ?_
      match result with
      | some true => exact .inl rfl
      | some false => exact .inr (.inl rfl)
      | none => exact .inr (.inr rfl)
    · exact .stay
  | closeInside =>
    dsimp only [step]
    split
    · exact .closedInside (by assumption)
    · exact .stay
  | clearInside =>
    dsimp only [step]
    split
    · exact .clearedInside (by assumption)
    · exact .stay
  | leave =>
    dsimp only [step]
    split
    · exact .left (by assumption)
    · exact .stay

theorem notify_eq (s : State α) : (∃ w rest, s.sem.waiters = w :: rest ∧
      notify s = { s with sem := { s.sem with waiters := rest }, writer := .taken }) ∨
    (s.sem.waiters = [] ∧
      notify s = { s with sem := { s.sem with concurrency := s.sem.concurrency + 1 } }) := by
  unfold notify FiberSemaphore.notify
  split
  · next w rest hwaiters => exact .inl ⟨w, rest, hwaiters, rfl⟩
  · next hwaiters => exact .inr ⟨hwaiters, rfl⟩

/-! ## Contexts in order -/

def Writer.batch : Writer α → List α
  | .sending ctxs => ctxs
  | _ => []

@[simp] theorem Writer.batch_next (ctxs : List α) : (Writer.next ctxs).batch = ctxs := by
  cases ctxs <;> rfl

/-- What was sent, what the writer holds and what is queued were enqueued in this order. -/
def Ordered (s : State α) : Prop := (s.sent ++ (s.writer.batch ++ s.queue)).Sublist s.enqueued

variable {s s' : State α}

theorem Ordered.drop (h : Ordered s) (hsent : s'.sent = s.sent)
    (hbatch : s'.writer.batch.Sublist s.writer.batch) (hqueue : s'.queue.Sublist s.queue)
    (henqueued : s'.enqueued = s.enqueued) : Ordered s' := by
  unfold Ordered at h ⊢
  rw [hsent, henqueued]
  exact ((Sublist.refl s.sent).append (hbatch.append hqueue)).trans h

theorem Ordered.notify {s : State α} (h : Ordered s) : Ordered (notify s) := by
  rcases notify_eq s with ⟨w, rest, -, heq⟩ | ⟨-, heq⟩
  · rw [heq]
    exact h.drop rfl (nil_sublist _) (Sublist.refl _) rfl
  · rw [heq]
    exact h

theorem Ordered.step (h : Ordered s) (hstep : Steps s a s') : Ordered s' := by
  cases hstep with
  | stay => exact h
  | push ctx =>
    have hpush := Sublist.append h (Sublist.refl [ctx])
    rwa [append_assoc, append_assoc] at hpush
  | notified => exact Ordered.notify h
  | closed => exact Ordered.notify h
  | cleared => exact h.drop rfl (Sublist.refl _) (nil_sublist _) rfl
  | started => exact h.drop rfl (nil_sublist _) (Sublist.refl _) rfl
  | checked connected =>
    refine h.drop rfl ?_ (Sublist.refl _) rfl
    cases connected <;> exact nil_sublist _
  | permitted => exact h.drop rfl (nil_sublist _) (Sublist.refl _) rfl
  | queued => exact h.drop rfl (nil_sublist _) (Sublist.refl _) rfl
  | swapped htaken =>
    unfold Ordered at h ⊢
    rw [htaken] at h
    rw [Writer.batch_next, append_nil]
    exact h
  | @passed ctx ctxs result writer hsending hwriter =>
    unfold Ordered at h ⊢
    rw [hsending] at h
    have hrest : writer.batch.Sublist ctxs := by
      rcases hwriter with rfl | rfl | rfl
      · simp
      · exact nil_sublist _
      · exact nil_sublist _
    have hkept := (Sublist.refl (s.sent ++ [ctx])).append
      (hrest.append (Sublist.refl s.queue))
    refine hkept.trans ?_
    rw [append_assoc]
    exact h
  | closedInside hclosing =>
    exact Ordered.notify (h.drop rfl (nil_sublist _) (Sublist.refl _) rfl)
  | clearedInside => exact h.drop rfl (nil_sublist _) (nil_sublist _) rfl
  | left => exact h.drop rfl (nil_sublist _) (nil_sublist _) rfl

/-! ## Permits -/

/-- There is a permit, a call that is about to notify, or a writer that has a permit. -/
def Attended (s : State α) : Prop :=
  s.queue ≠ [] → 0 < s.sem.concurrency ∨ 0 < s.notifying ∨ s.writer = .taken

def Writer.waiters : Writer α → List Waiter
  | .waiting w => [w]
  | _ => []

structure Inv (s : State α) : Prop where
  waiters : s.sem.waiters = s.writer.waiters
  attended : Attended s

def NoWrap (s : State α) (a : Action α) : Prop :=
  ¬ (s.sem.concurrency.toNat + 1 = 2 ^ 64 ∧ (step s a).sem.concurrency = 0)
  deriving Decidable

theorem waiters_next (ctxs : List α) : (Writer.next ctxs).waiters = [] := by
  cases ctxs <;> rfl

theorem add_one_pos {c : UInt64} (h : ¬ (c.toNat + 1 = 2 ^ 64 ∧ c + 1 = 0)) : 0 < c + 1 := by
  have hlt := c.toNat_lt
  have hadd := toNat_add_one c
  rw [UInt64.lt_iff_toNat_lt]
  rcases Nat.lt_or_ge (c.toNat + 1) (2 ^ 64) with hfits | hmax
  · rw [hadd, Nat.mod_eq_of_lt hfits]
    exact Nat.succ_pos _
  · have heq : c.toNat + 1 = 2 ^ 64 := Nat.le_antisymm hlt hmax
    exfalso
    apply h ⟨heq, ?_⟩
    rw [← UInt64.toNat_inj, hadd, heq]
    rfl

/-- Behind a `notify` the queue is attended, whatever it was before. -/
theorem notify_inv {s : State α} (h : s.sem.waiters = s.writer.waiters)
    (hwrap : ¬ (s.sem.concurrency.toNat + 1 = 2 ^ 64 ∧ (notify s).sem.concurrency = 0)) :
    Inv (notify s) := by
  rcases notify_eq s with ⟨w, rest, hwaiters, heq⟩ | ⟨hwaiters, heq⟩
  · have hrest : rest = [] := by
      cases hwriter : s.writer with
      | waiting w' =>
        rw [hwaiters, hwriter] at h
        exact (List.cons.inj h).2
      | _ =>
        rw [hwaiters, hwriter] at h
        cases h
    rw [heq, hrest]
    exact ⟨rfl, fun _ => .inr (.inr rfl)⟩
  · rw [heq] at hwrap ⊢
    exact ⟨h, fun _ => .inl (add_one_pos hwrap)⟩

theorem Inv.move (h : Inv s) (hqueue : s'.queue = s.queue) (hsem : s'.sem = s.sem)
    (hnotifying : s'.notifying = s.notifying) (hwriter : s.writer ≠ .taken)
    (hwaiters : s'.writer.waiters = s.writer.waiters) : Inv s' := by
  refine ⟨by rw [hsem, hwaiters, h.waiters], fun hne => ?_⟩
  rw [hqueue] at hne
  rw [hsem, hnotifying]
  rcases h.attended hne with hpos | hpos | htaken
  · exact .inl hpos
  · exact .inr (.inl hpos)
  · exact absurd htaken hwriter

theorem Inv.emptied (h : Inv s) (hqueue : s'.queue = []) (hsem : s'.sem = s.sem)
    (hwaiters : s'.writer.waiters = s.writer.waiters) : Inv s' :=
  ⟨by rw [hsem, hwaiters, h.waiters], fun hne => absurd hqueue hne⟩

theorem Inv.step (h : Inv s) (hstep : Steps s a s')
    (hwrap : ¬ (s.sem.concurrency.toNat + 1 = 2 ^ 64 ∧ s'.sem.concurrency = 0)) : Inv s' := by
  cases hstep with
  | stay => exact h
  | push ctx =>
    refine ⟨h.waiters, fun _ => ?_⟩
    by_cases hempty : s.queue = []
    · refine .inr (.inl ?_)
      dsimp only
      rw [if_pos hempty]
      exact Nat.succ_pos _
    · rcases h.attended hempty with hpos | hpos | htaken
      · exact .inl hpos
      · exact .inr (.inl (Nat.lt_add_right _ hpos))
      · exact .inr (.inr htaken)
  | notified => exact notify_inv h.waiters hwrap
  | closed => exact notify_inv h.waiters hwrap
  | cleared => exact h.emptied rfl rfl rfl
  | started hidle => exact h.move rfl rfl rfl (by rw [hidle]; nofun) (by rw [hidle]; rfl)
  | checked connected hcheck =>
    refine h.move rfl rfl rfl (by rw [hcheck]; nofun) ?_
    rw [hcheck]
    cases connected <;> rfl
  | permitted w hready hpos =>
    refine ⟨?_, fun _ => .inr (.inr rfl)⟩
    rw [h.waiters, hready]
    rfl
  | queued w hready hzero =>
    refine ⟨?_, fun hne => ?_⟩
    · dsimp only
      rw [h.waiters, hready]
      rfl
    · rcases h.attended hne with hpos | hpos | htaken
      · exact .inl hpos
      · exact .inr (.inl hpos)
      · rw [hready] at htaken
        cases htaken
  | swapped htaken =>
    refine h.emptied rfl rfl ?_
    rw [htaken]
    exact waiters_next s.queue
  | @passed ctx ctxs result writer hsending hwriter =>
    refine h.move rfl rfl rfl (by rw [hsending]; nofun) ?_
    rw [hsending]
    rcases hwriter with rfl | rfl | rfl
    · exact waiters_next ctxs
    · rfl
    · rfl
  | closedInside hclosing =>
    refine notify_inv ?_ hwrap
    rw [h.waiters, hclosing]
    rfl
  | clearedInside hclearing => exact h.emptied rfl rfl (by rw [hclearing]; rfl)
  | left hout => exact h.emptied rfl rfl (by rw [hout]; rfl)

/-! ## Runs -/

def init : State α := {}

theorem init_inv : Inv (init : State α) := ⟨rfl, fun hne => absurd rfl hne⟩

theorem init_ordered : Ordered (init : State α) := Sublist.refl _

theorem exec_inv (s : State α) (a : Action α) (h : Inv s) (hwrap : NoWrap s a) :
    Post Inv Never (exec a s) := h.step (step_steps s a) hwrap

theorem exec_ordered (s : State α) (a : Action α) (h : Ordered s) :
    Post Ordered Never (exec a s) := h.step (step_steps s a)

/-- **In every interleaving** a queue that is not empty has a permit, a call about to notify or a
writer on its way, if the counter does not wrap; and what is sent was enqueued, once and in this
order. -/
theorem queue_attended (as : List (Action α)) (s : State α) (hrun : run exec as init = .ok s) :
    (Along exec NoWrap as init → s.queue ≠ [] →
        0 < s.sem.concurrency ∨ 0 < s.notifying ∨ s.writer = .taken) ∧
      s.sent.Sublist s.enqueued := by
  constructor
  · intro halong
    exact ((post_run exec_inv as init halong init_inv).of_ok hrun).attended
  · have hordered := (post_run_all exec_ordered as init init_ordered).of_ok hrun
    exact (sublist_append_left _ _).trans hordered

def delivery : List (Action Nat) :=
  [.start, .isConnected true, .wait ⟨0, 1⟩, .enqueue 1, .enqueue 2, .notify, .swap,
    .doSend (some true), .doSend (some true), .isConnected true, .enqueue 3, .notify, .wait ⟨0, 1⟩]

theorem queue_attended_delivery :
    ∃ s, run exec delivery init = .ok s ∧ s.queue = [3] ∧ s.sent = [1, 2] ∧
      (0 < s.sem.concurrency ∨ 0 < s.notifying ∨ s.writer = .taken) ∧
      s.sent.Sublist s.enqueued := by
  obtain ⟨s, hrun, hqueue, hsent⟩ : ∃ s, run exec delivery init = .ok s ∧ s.queue = [3] ∧
      s.sent = [1, 2] := ⟨_, rfl, rfl, rfl⟩
  obtain ⟨hattended, hordered⟩ := queue_attended delivery s hrun
  exact ⟨s, hrun, hqueue, hsent, hattended (by decide) (by rw [hqueue]; decide), hordered⟩

/-! ### A counter that wraps -/

def closes (n : Nat) : List (Action α) := (List.replicate n [.close, .clear]).flatten

def released (c : UInt64) : State α := { sem := ⟨c, []⟩ }

theorem run_closes (n c) :
    run exec (closes n) (released c : State α) = .ok (released (c + UInt64.ofNat n)) := by
  induction n generalizing c with
  | zero =>
    rw [show c + UInt64.ofNat 0 = c from UInt64.add_zero c]
    rfl
  | succ n ih =>
    have hsum : c + UInt64.ofNat (n + 1) = (c + 1) + UInt64.ofNat n := by
      rw [UInt64.ofNat_add, UInt64.add_comm (UInt64.ofNat n), ← UInt64.add_assoc]
      rfl
    rw [hsum, ← ih (c + 1), closes, replicate_succ, flatten_cons]
    rfl

/-- Behind 2⁶⁴ - 1 calls of `innerClose` the first context that is enqueued takes the counter to
zero: the context is queued and nobody will look. -/
theorem queue_unattended :
    ∃ s, run exec (closes (2 ^ 64 - 1) ++ [Action.enqueue (), .notify]) init = .ok s ∧
      s.queue ≠ [] ∧ ¬ (0 < s.sem.concurrency ∨ 0 < s.notifying ∨ s.writer = .taken) := by
  have hfull : run exec (closes (2 ^ 64 - 1)) (init : State Unit) =
      .ok (released (0 + UInt64.ofNat (2 ^ 64 - 1))) := run_closes (2 ^ 64 - 1) 0
  have hlast : run exec [.enqueue (), .notify]
      (released (0 + UInt64.ofNat (2 ^ 64 - 1)) : State Unit) =
      .ok { queue := [()], enqueued := [()] } := by decide +kernel
  refine ⟨{ queue := [()], enqueued := [()] }, ?_, by decide, by decide⟩
  rw [run_append, hfull]
  exact hlast

end Helens.AsyncSocketStream
