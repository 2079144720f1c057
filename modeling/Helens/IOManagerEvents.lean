import Mathlib.Algebra.BigOperators.Group.List.Basic
import Mathlib.Algebra.Order.Ring.Int
import Helens.IOManager

/-! The bookkeeping of registered events. The pending count is always the number of registered
events; `triggerEvent` is called for an event that is not registered only where `idle` works through
a report of which some events are registered and some are not. -/

namespace Helens.IOManager
open Lib.Runs List

/-! ## One context -/

def EventContext.Armed (x : EventContext) : Prop :=
  (x.cb.isSome ∧ x.fiber = none) ∨ (x.cb = none ∧ x.fiber.isSome)

variable {x : EventContext} {s : State}

theorem EventContext.Armed.not_isEmpty (h : x.Armed) : ¬ x.IsEmpty := by
  rintro ⟨_, hfiber, hcb⟩
  rcases h with ⟨h, _⟩ | ⟨_, h⟩
  · simp [hcb] at h
  · simp [hfiber] at h

theorem EventContext.Armed.taken (h : x.Armed) : x.taken.IsEmpty := by
  rcases h with ⟨hcb, hfiber⟩ | ⟨hcb, _⟩
  · obtain ⟨f, hf⟩ := Option.isSome_iff_exists.mp hcb
    simp [EventContext.taken, EventContext.IsEmpty, hf, hfiber]
  · simp [EventContext.taken, EventContext.IsEmpty, hcb]

theorem Caller.context_armed (t : Caller) (cb) : (t.context cb).Armed := by
  cases cb with
  | none => exact .inr ⟨rfl, rfl⟩
  | some f => exact .inl ⟨rfl, rfl⟩

structure FdContext.Consistent (c : FdContext) : Prop where
  armed : ∀ e ∈ c.events, (c.getContext e).Armed
  empty : ∀ e ∉ c.events, (c.getContext e).IsEmpty

theorem FdContext.Consistent.new (fd) : ({ fd := fd } : FdContext).Consistent where
  armed e he := absurd he (Finset.notMem_empty e)
  empty e _ := by cases e <;> exact ⟨rfl, rfl, rfl⟩

theorem FdContext.Consistent.inUse_iff {c : FdContext} (h : c.Consistent) (e) :
    ¬ (c.getContext e).IsEmpty ↔ e ∈ c.events := by
  constructor
  · intro hne
    by_contra he
    exact hne (h.empty e he)
  · intro he
    exact (h.armed e he).not_isEmpty

theorem FdContext.Consistent.register {c : FdContext} (h : c.Consistent) (e : Event)
    (hx : x.Armed) : ({ c with events := insert e c.events }.setContext e x).Consistent where
  armed e' he' := by
    rw [getContext_setContext]
    split
    · exact hx
    · rename_i hne
      rw [getContext_events]
      rw [setContext_events] at he'
      exact h.armed e' (Finset.mem_of_mem_insert_of_ne he' hne)
  empty e' he' := by
    rw [setContext_events] at he'
    have hne : e' ≠ e := fun h => he' (h ▸ Finset.mem_insert_self e c.events)
    rw [getContext_setContext, if_neg hne, getContext_events]
    exact h.empty e' fun h => he' (Finset.mem_insert_of_mem h)

theorem FdContext.Consistent.remove {c : FdContext} (h : c.Consistent) (e : Event)
    (hx : x.IsEmpty) : ({ c with events := c.events.erase e }.setContext e x).Consistent where
  armed e' he' := by
    rw [setContext_events] at he'
    obtain ⟨hne, he'⟩ := Finset.mem_erase.mp he'
    rw [getContext_setContext, if_neg hne, getContext_events]
    exact h.armed e' he'
  empty e' he' := by
    rw [getContext_setContext]
    split
    · exact hx
    · rename_i hne
      rw [setContext_events] at he'
      rw [getContext_events]
      exact h.empty e' fun h => he' (Finset.mem_erase.mpr ⟨hne, h⟩)

/-! ## The sections under the lock of a context -/

/-- A section may work here: the context of `fd` is in order, and with the events
of all other contexts, `k` in number, the count is right. -/
structure Sound (fd : Nat) (k : Int) (l : Locked) : Prop where
  fd : l.ctx.fd = fd
  consistent : l.ctx.Consistent
  counted : l.pending = k + l.ctx.events.card

section
variable {fd : Nat} {k : Int} {l : Locked}

theorem epollCtl_some (h : epollCtl granted events l = some l') :
    granted = true ∧ l'.ctx = l.ctx ∧ l'.pending = l.pending := by
  cases granted with
  | false => cases h
  | true =>
    cases h
    exact ⟨rfl, rfl, rfl⟩

theorem Sound.epollCtl (h : Sound fd k l)
    (hctl : IOManager.epollCtl granted events l = some l') : Sound fd k l' := by
  obtain ⟨_, hctx, hpending⟩ := epollCtl_some hctl
  exact ⟨hctx ▸ h.fd, hctx ▸ h.consistent, by rw [hctx, hpending, h.counted]⟩

theorem Sound.remove (h : Sound fd k l) {e : Event} (he : e ∈ l.ctx.events) (hx : x.IsEmpty)
    (scheduled : List (Nat × Task)) :
    Sound fd k { l with
      pending := l.pending - 1
      ctx := { l.ctx with events := l.ctx.events.erase e }.setContext e x
      scheduled := scheduled } where
  fd := by rw [setContext_fd]; exact h.fd
  consistent := h.consistent.remove e hx
  counted := by
    have hcard := Finset.card_erase_add_one he
    have hcount := h.counted
    rw [setContext_events]
    dsimp only
    omega

theorem release_of_notMem (he : e ∉ l.ctx.events) : release e l = .error .eventNotRegistered := by
  unfold release triggerEvent
  rw [if_pos he]
  rfl

theorem release_sound (h : Sound fd k l) (e) :
    Post (fun l' => Sound fd k l' ∧ l'.ctx.events = l.ctx.events.erase e)
      (fun a => a = .eventNotRegistered → e ∉ l.ctx.events) (release e l) := by
  by_cases he : e ∈ l.ctx.events
  · unfold release triggerEvent
    rw [if_neg (not_not_intro he)]
    cases (l.ctx.getContext e).scheduler with
    | none => intro ha; cases ha
    | some r =>
      refine ⟨h.remove he (h.consistent.armed e he).taken _, ?_⟩
      exact setContext_events _ _ _
  · rw [release_of_notMem he]
    intro _
    exact he

theorem releaseIf_sound (c : Prop) [Decidable c] (h : Sound fd k l) (e) :
    Post (fun l' => Sound fd k l' ∧ l'.ctx.events = if c then l.ctx.events.erase e else
      l.ctx.events)
      (fun a => a = .eventNotRegistered → c ∧ e ∉ l.ctx.events) (releaseIf c e l) := by
  unfold releaseIf
  by_cases hc : c
  · simp only [if_pos hc]
    exact (release_sound h e).mono (fun _ h => h) fun _ ha hreg => ⟨hc, ha hreg⟩
  · simp only [if_neg hc]
    exact ⟨h, rfl⟩

theorem addEvent_sound (h : Sound fd k l) (e cb caller granted) : Post (fun r => Sound fd k r.2)
    (· ≠ .eventNotRegistered)
      (addEvent e cb caller granted l) := by
  unfold addEvent
  split
  · exact Abort.noConfusion
  · rename_i he
    split
    · exact h
    · rename_i l' hctl
      have h' := h.epollCtl hctl
      obtain ⟨_, hctx, _⟩ := epollCtl_some hctl
      split
      · exact Abort.noConfusion
      · refine ⟨?_, h'.consistent.register e (caller.context_armed cb), ?_⟩
        · rw [setContext_fd]
          exact h'.fd
        · have hcard := Finset.card_insert_of_notMem (hctx ▸ he)
          have hcount := h'.counted
          rw [setContext_events]
          dsimp only
          omega

theorem delEvent_sound (h : Sound fd k l) (e granted) :
    Post (fun r => Sound fd k r.2) (· ≠ .eventNotRegistered) (delEvent e granted l) := by
  unfold delEvent
  split
  · exact h
  · rename_i he
    split
    · exact h
    · rename_i l' hctl
      obtain ⟨_, hctx, _⟩ := epollCtl_some hctl
      exact (h.epollCtl hctl).remove (hctx ▸ not_not.mp he) ⟨rfl, rfl, rfl⟩ _

theorem cancelEvent_sound (h : Sound fd k l) (e granted) :
    Post (fun r => Sound fd k r.2) (· ≠ .eventNotRegistered) (cancelEvent e granted l) := by
  unfold cancelEvent
  split
  · exact h
  · rename_i he
    split
    · exact h
    · rename_i l' hctl
      obtain ⟨_, hctx, _⟩ := epollCtl_some hctl
      have hrel := release_sound (h.epollCtl hctl) e
      refine Post.bind (hrel.mono (fun _ h => h) ?_) fun l'' h'' => h''.1
      intro a ha hreg
      exact ha hreg (hctx ▸ not_not.mp he)

theorem cancelAll_sound (h : Sound fd k l) (granted) :
    Post (fun r => Sound fd k r.2) (· ≠ .eventNotRegistered) (cancelAll granted l) := by
  unfold cancelAll
  split
  · exact h
  · split
    · exact h
    · rename_i l' hctl
      -- each event is asked for right before it is triggered
      refine Post.bind ((releaseIf_sound _ (h.epollCtl hctl) .read).mono (fun _ h => h.1) ?_) ?_
      · exact fun a ha hreg => (ha hreg).2 (ha hreg).1
      intro l₁ h₁
      refine Post.bind ((releaseIf_sound _ h₁ .write).mono (fun _ h => h.1) ?_) ?_
      · exact fun a ha hreg => (ha hreg).2 (ha hreg).1
      intro l₂ h₂
      split
      · exact Abort.noConfusion
      · exact h₂

theorem Call.work_sound (h : Sound fd k l) (c : Call) (granted) :
    Post (fun r => Sound fd k r.2) (· ≠ .eventNotRegistered) (c.work granted l) := by
  cases c with
  | addEvent e cb caller => exact addEvent_sound h e cb caller granted
  | delEvent e => exact delEvent_sound h e granted
  | cancelEvent e => exact cancelEvent_sound h e granted
  | cancelAll => exact cancelAll_sound h granted

/-! ## Reports -/

/-- Either nothing of the report is registered any more, or all of it is. -/
def FdContext.Settles (c : FdContext) (reported : Finset Event) (failed : Bool) : Prop :=
  c.events ∩ realEvents c reported failed = ∅ ∨ realEvents c reported failed ⊆ c.events
  deriving Decidable

theorem handleReport_sound (h : Sound fd k l) (reported failed granted) :
    Post (fun r => Sound fd k r.2)
      (fun a => a = .eventNotRegistered → ¬ (granted = true → l.ctx.Settles reported failed))
      (handleReport reported failed granted l) := by
  unfold handleReport
  split
  · exact h
  · rename_i hsome
    split
    · exact h
    · rename_i l' hctl
      obtain ⟨hgranted, hctx, _⟩ := epollCtl_some hctl
      have hstale : ∀ e, e ∈ realEvents l.ctx reported failed → e ∉ l.ctx.events →
          ¬ (granted = true → l.ctx.Settles reported failed) := by
        intro e hreal hnot hall
        rcases hall hgranted with hnone | hsub
        · exact hsome hnone
        · exact hnot (hsub hreal)
      refine Post.bind ((releaseIf_sound _ (h.epollCtl hctl) .read).mono (fun _ h => h) ?_) ?_
      · exact fun a ha hreg => hstale .read (ha hreg).1 (hctx ▸ (ha hreg).2)
      intro l₁ ⟨h₁, hevents⟩
      refine Post.bind ((releaseIf_sound _ h₁ .write).mono (fun _ h => h.1) ?_) fun l₂ h₂ => h₂
      intro a ha hreg
      refine hstale .write (ha hreg).1 fun hmem => (ha hreg).2 ?_
      -- triggering the read event left the write event alone
      rw [hevents, hctx]
      split
      · exact Finset.mem_erase.mpr ⟨by decide, hmem⟩
      · exact hmem

end

/-! ## The manager -/

def registered (s : State) : Nat := (s.heap.map fun c => c.events.card).sum

structure Inv (s : State) : Prop where
  consistent : ∀ c ∈ s.heap, c.Consistent
  counted : s.pending = registered s

theorem Inv.sound (hs : Inv s) (hctx : s.heap[ptr]? = some ctx) :
    Sound ctx.fd (registered s - ctx.events.card)
      ⟨ptr, ctx, s.pending, s.interest, s.scheduled⟩ := by
  refine ⟨rfl, hs.consistent ctx (mem_of_getElem? hctx), ?_⟩
  have hcount := hs.counted
  dsimp only
  omega

/-- What the manager keeps through a section: the context it works on is put
back in order, and all others stay as they are. -/
theorem withLock_inv (hs : Inv s) (i ptr)
    {work : Locked → Except Abort (Bool × Locked)} {Q : Abort → Prop}
    (hwork : ∀ ctx, s.heap[ptr]? = some ctx → ∀ fd k l, l.ctx = ctx → Sound fd k l →
      Post (fun r => Sound fd k r.2) Q (work l)) : Post Inv Q (withLock i ptr work s) := by
  unfold withLock
  split
  · exact hs
  · rename_i ctx hctx
    refine Post.bind (hwork ctx hctx _ _ _ rfl (hs.sound hctx)) ?_
    intro ⟨_, l⟩ hl
    refine ⟨?_, ?_⟩
    · intro c hc
      rcases mem_or_eq_of_mem_set hc with hc | rfl
      · exact hs.consistent c hc
      · exact hl.consistent
    · have hsum := sum_map_set (fun c => c.events.card) hctx l.ctx
      have hcount := hl.counted
      unfold registered at hcount ⊢
      dsimp only at hcount hsum ⊢
      omega

theorem contextResize_inv (hs : Inv s) (size) : Inv (contextResize size s) where
  consistent := by
    intro c hc
    rcases mem_append.mp hc with hc | hc
    · exact hs.consistent c hc
    · obtain ⟨fd, _, rfl⟩ := mem_map.mp hc
      exact .new fd
  counted := by
    have hnew : ∀ fds : List Nat,
        ((fds.map fun fd => ({ fd := fd } : FdContext)).map fun c => c.events.card).sum = 0 := by
      intro fds
      induction fds with
      | nil => rfl
      | cons fd fds ih => simpa using ih
    unfold registered contextResize
    dsimp only
    rw [map_append, sum_append, hnew, Nat.add_zero]
    exact hs.counted

theorem start_inv : Inv start :=
  contextResize_inv ⟨fun _ h => absurd h not_mem_nil, rfl⟩ 32

/-- A step in which a report of `idle` is settled, if the kernel lets it through. -/
def Settled (s : State) : Action → Prop
  | .lock i true =>
    match s.flight[i]? with
    | some (.report ptr reported failed) => ∀ c ∈ s.heap[ptr]?, c.Settles reported failed
    | _ => True
  | _ => True

instance (s : State) (a : Action) : Decidable (Settled s a) := by
  unfold Settled
  split
  · split <;> infer_instance
  · infer_instance

theorem exec_inv (hs : Inv s) (a) :
    Post Inv (fun b => b = .eventNotRegistered → ¬ Settled s a) (exec a s) := by
  cases a with
  | call fd c =>
    rw [exec]
    unfold probe
    split
    · exact ⟨hs.consistent, hs.counted⟩
    · split
      · exact ⟨hs.consistent, hs.counted⟩
      · exact hs
  | grow i =>
    rw [exec]
    split
    · rename_i fd e cb caller _
      have hs' := contextResize_inv hs (grownSize fd)
      unfold growTable
      dsimp only
      split
      · exact ⟨hs'.consistent, hs'.counted⟩
      · intro h
        cases h
    · exact hs
  | lock i granted =>
    rw [exec]
    split
    · refine withLock_inv hs i _ ?_
      intro ctx _ fd k l _ hl
      exact (Call.work_sound hl _ granted).mono (fun _ h => h) fun _ h h' => absurd h' h
    · rename_i ptr reported failed hjob
      refine withLock_inv hs i _ ?_
      rintro ctx hctx fd k l rfl hl
      refine (handleReport_sound hl reported failed granted).mono (fun _ h => h) ?_
      intro b hb hreg hsettled
      refine hb hreg fun hgranted => ?_
      subst hgranted
      simp only [Settled, hjob] at hsettled
      exact hsettled _ hctx
    · exact hs
  | wait reports => exact ⟨hs.consistent, hs.counted⟩
  | close fd => exact ⟨hs.consistent, hs.counted⟩

/-- The count is right, and an event context is in use exactly while its event is
registered. -/
def Accounted (s : State) : Prop :=
  s.pending = registered s ∧ ∀ c ∈ s.heap, ∀ e, ¬ (c.getContext e).IsEmpty ↔ e ∈ c.events
  deriving Decidable

theorem Inv.accounted (h : Inv s) : Accounted s :=
  ⟨h.counted, fun c hc e => (h.consistent c hc).inUse_iff e⟩

/-- **In every interleaving** the books are right, also where a report is not settled. -/
theorem books_kept (schedule : List Action) :
    Post Accounted (fun _ => True) (run exec schedule start) := by
  have hstep : ∀ s a, Inv s → Post Inv (fun _ => True) (exec a s) := fun s a hs =>
    (exec_inv hs a).mono (fun _ => id) fun _ _ => trivial
  exact (post_run_all hstep schedule start start_inv).imp (fun _ h => h.accounted)

/-- For any schedule in which every report is settled when it is worked through, `triggerEvent` is
called for registered events only, and the books are right. -/
theorem registered_events_triggered (schedule : List Action)
    (h : Along exec Settled schedule start) :
    Post Accounted (· ≠ .eventNotRegistered) (run exec schedule start) := by
  have hrun := post_run (I := Inv) (Q := fun b => b ≠ Abort.eventNotRegistered)
    (fun s a hs ha => (exec_inv hs a).mono (fun _ h => h) fun _ hb hreg => hb hreg ha)
    schedule start h start_inv
  exact hrun.imp (fun _ h => h.accounted)

def worker : Caller := ⟨some 1, 7⟩

def bothEvents : List Action :=
  [.call 5 (.addEvent .read (some 9) worker), .lock 0 true,
    .call 5 (.addEvent .write none worker), .lock 0 true]

theorem registered_events_triggered_both : Post Accounted (· ≠ .eventNotRegistered)
        (run exec (bothEvents ++ [Action.wait [(5, {.read, .write}, false)], .lock 0 true]) start) ∧
      Post (fun s => s.scheduled = [(1, .cb 9), (1, .fiber 7)]) (fun _ => False)
        (run exec (bothEvents ++ [Action.wait [(5, {.read, .write}, false)], .lock 0 true])
          start) :=
  ⟨registered_events_triggered _ (by decide +kernel), by decide +kernel⟩

/-- Both events are reported, one is deleted, and `idle` triggers both. -/
theorem stale_report_triggers_deleted_event : ¬ Post Accounted (· ≠ .eventNotRegistered)
      (run exec (bothEvents ++ [Action.wait [(5, {.read, .write}, false)],
        .call 5 (.delEvent .write), .lock 1 true, .lock 0 true]) start) := by
  decide +kernel

end Helens.IOManager
