import Helens.Lib.Runs

/-! `FoxRedis` of `db/redis.cc`: the contexts that a command shares with its timer and with the
callback of hiredis. -/

namespace Helens.FoxRedis
open Lib.Runs List

/-- A call of `cmd`: its `FCtx`, on the stack of a fiber until that is scheduled, and its `Ctx`, if
one was made. `queued` is a callback that hiredis owes, `armed` a timer that libevent has. -/
structure Command where
  made : Bool
  queued : Bool
  armed : Bool
  timeout : Bool := false
  scheduled : Nat := 0
  deleted : Nat := 0

structure State where
  commands : List Command := []
  ctxCount : Nat := 0

inductive Dangling
  | fctx
  | ctx

def schedule (c : Command) : Except Dangling Command :=
  if c.scheduled > 0 then .error .fctx else .ok { c with scheduled := c.scheduled + 1 }

def delete (c : Command) : Except Dangling Command :=
  if c.deleted > 0 then .error .ctx else .ok { c with deleted := c.deleted + 1, armed := false }

def eventCb (c : Command) : Except Dangling Command :=
  if c.deleted > 0 then .error .ctx else schedule { c with timeout := true, armed := false }

/-- Every branch for a reply schedules the fiber. -/
def cmdCb (c : Command) : Except Dangling Command :=
  if c.deleted > 0 then .error .ctx
  else if c.timeout then delete c
  else schedule c >>= delete

inductive Action
  | pcmd (connected accepted : Bool)
  | timeout (i : Nat)
  | reply (i : Nat)

def exec : Action → State → Except Dangling State
  | .pcmd connected accepted, s =>
    if connected then
      .ok {
        commands := s.commands ++ [{ made := true, queued := accepted, armed := true }]
        ctxCount := s.ctxCount + 1 }
    else
      .ok { s with commands :=
        s.commands ++ [{ made := false, queued := false, armed := false, scheduled := 1 }] }
  | .timeout i, s =>
    match s.commands[i]? with
    | none => .ok s
    | some c =>
      if c.armed then do
        let c ← eventCb c
        .ok { s with commands := s.commands.set i c }
      else .ok s
  | .reply i, s =>
    match s.commands[i]? with
    | none => .ok s
    | some c =>
      if c.queued then do
        let c ← cmdCb { c with queued := false }
        .ok { commands := s.commands.set i c, ctxCount := s.ctxCount - 1 }
      else .ok s

/-- A command that is no longer queued has scheduled its fiber once and deleted its context. -/
structure Settled (s : State) : Prop where
  once : ∀ c ∈ s.commands, c.scheduled ≤ 1 ∧ c.deleted ≤ 1
  done : ∀ c ∈ s.commands, c.queued = false → c.scheduled = 1 ∧ c.deleted = c.made.toNat
  count : s.ctxCount = s.commands.countP (·.queued)

/-- The fiber waits as long as the timer is armed, and the context is there as long as its callback
is queued. -/
structure Command.Inv (c : Command) : Prop where
  scheduled : c.scheduled = (!c.armed).toNat
  deleted : c.deleted = (c.made && !c.queued).toNat
  made : c.queued → c.made
  armed : c.armed → c.queued
  timeout : c.queued → c.timeout = !c.armed

structure Inv (s : State) : Prop where
  commands : ∀ c ∈ s.commands, c.Inv
  count : s.ctxCount = s.commands.countP (·.queued)

def Action.Accepted : Action → Prop
  | .pcmd connected accepted => connected → accepted
  | _ => True

instance instDecidableAccepted : (a : Action) → Decidable a.Accepted
  | .pcmd .. => inferInstanceAs (Decidable (_ → _))
  | .timeout _ | .reply _ => isTrue trivial

variable {s : State} {c c' : Command} {a : Action}

theorem Command.Inv.eventCb_post (h : c.Inv) (harmed : c.armed) :
    Post (fun c' => c'.Inv ∧ c'.queued = c.queued) Never (eventCb c) := by
  have hqueued := h.armed harmed
  have hfiber : c.scheduled = 0 := by simp [h.scheduled, harmed]
  have hctx : c.deleted = 0 := by simp [h.deleted, hqueued]
  simp only [eventCb, schedule, hctx, hfiber]
  exact ⟨⟨rfl, by simp [hqueued], h.made, by simp, by simp⟩, rfl⟩

theorem Command.Inv.cmdCb_post (h : c.Inv) (hqueued : c.queued) :
    Post (fun c' => c'.Inv ∧ c'.queued = false) Never (cmdCb { c with queued := false }) := by
  have hmade := h.made hqueued
  have htimeout := h.timeout hqueued
  have hctx : c.deleted = 0 := by simp [h.deleted, hqueued]
  cases harmed : c.armed with
  | true =>
    have hfiber : c.scheduled = 0 := by simp [h.scheduled, harmed]
    simp only [cmdCb, schedule, hctx, hfiber, htimeout, harmed]
    exact ⟨⟨rfl, by simp [hmade], by simp, by simp, by simp⟩, rfl⟩
  | false =>
    have hfiber : c.scheduled = 1 := by simp [h.scheduled, harmed]
    simp only [cmdCb, delete, hctx, hfiber, htimeout, harmed]
    exact ⟨⟨rfl, by simp [hmade], by simp, by simp, by simp⟩, rfl⟩

theorem Inv.replace (h : Inv s) (hc : c'.Inv) : ∀ d ∈ s.commands.set i c', d.Inv := by
  intro d hd
  rcases mem_or_eq_of_mem_set hd with hd | rfl
  · exact h.commands d hd
  · exact hc

theorem Inv.push (h : Inv s) (hc : c.Inv) : ∀ d ∈ s.commands ++ [c], d.Inv := by
  simpa [or_imp, forall_and] using ⟨h.commands, hc⟩

theorem Inv.exec_post (h : Inv s) (ha : a.Accepted) : Post Inv Never (exec a s) := by
  cases a with
  | pcmd connected accepted =>
    rw [exec]
    split
    · next hconnected =>
      obtain rfl : accepted = true := ha hconnected
      exact ⟨h.push ⟨rfl, rfl, by simp, by simp, by simp⟩, by simp [h.count]⟩
    · exact ⟨h.push ⟨rfl, rfl, by simp, by simp, by simp⟩, by simp [h.count]⟩
  | timeout i =>
    rw [exec]
    split
    · exact h
    · next c hi =>
      obtain ⟨hlt, hget⟩ := List.getElem?_eq_some_iff.mp hi
      split
      · next harmed =>
        have hc := h.commands c (mem_of_getElem? hi)
        have hqueued := hc.armed harmed
        have hpos : 0 < s.commands.countP (·.queued) :=
          countP_pos_iff.mpr ⟨c, mem_of_getElem? hi, hqueued⟩
        refine (hc.eventCb_post harmed).bind fun c' hc' => ⟨h.replace hc'.1, ?_⟩
        simp only [countP_set hlt, hget, hc'.2, hqueued, h.count, if_true]
        exact (Nat.sub_add_cancel hpos).symm
      · exact h
  | reply i =>
    rw [exec]
    split
    · exact h
    · next c hi =>
      obtain ⟨hlt, hget⟩ := List.getElem?_eq_some_iff.mp hi
      split
      · next hqueued =>
        refine ((h.commands c (mem_of_getElem? hi)).cmdCb_post hqueued).bind fun c' hc' =>
          ⟨h.replace hc'.1, ?_⟩
        simp [countP_set hlt, hget, hc'.2, hqueued, h.count]
      · exact h

theorem Inv.settled (h : Inv s) : Settled s where
  once c hc := by
    rw [(h.commands c hc).scheduled, (h.commands c hc).deleted]
    exact ⟨Bool.toNat_le _, Bool.toNat_le _⟩
  done c hc hqueued := by
    have hinv := h.commands c hc
    have harmed : c.armed = false :=
      Bool.eq_false_iff.mpr fun ha => by simp [hinv.armed ha] at hqueued
    simp [hinv.scheduled, hinv.deleted, hqueued, harmed]
  count := h.count

theorem runs_settled (as : List Action) (has : ∀ a ∈ as, a.Accepted) :
    Post Settled Never (run exec as {}) := by
  have hinv : ∀ s, Inv s → Post Inv Never (run exec as s) := by
    induction as with
    | nil => exact fun s hs => hs
    | cons a as ih =>
      rw [forall_mem_cons] at has
      exact fun s hs => (hs.exec_post has.1).bind (ih has.2)
  exact (hinv {} ⟨by simp, rfl⟩).imp (fun _ => Inv.settled)

/-- A reply in time, a reply behind the timeout, and a command without a connection. -/
theorem runs_settled_late :
    Post Settled Never (run exec [.pcmd true true, .pcmd true true, .reply 0, .timeout 1,
      .pcmd false false, .timeout 0, .reply 1] {}) :=
  runs_settled _ (by decide)

/-- The context of a command that is not queued stays behind when its timer has fired. -/
theorem refused_command_leaks :
    ¬ Post Settled Never (run exec [.pcmd true false, .timeout 0] {}) := by
  intro h
  exact absurd h.count (by decide)

end Helens.FoxRedis
