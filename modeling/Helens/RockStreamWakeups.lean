import Helens.RockStreamTable

/-! Who wakes the fiber of a request. The compare-and-swap in `doRsp` lets one party through. The
chances to wake the fiber are the pointer still to be swapped, a job that has swapped it, and the
wake-ups it had; no step adds to them. -/

namespace Helens.RockStream

open Lib.Runs List

def Pc.won : Pc → Bool
  | .cancel | .check | .write | .schedule => true
  | _ => false

def Pc.past : Pc → Bool
  | .cancel | .check | .write | .schedule | .done => true
  | _ => false

/-- A job that may yet schedule the fiber of context `c`. -/
def Job.wakes (c : Nat) (j : Job) : Nat := if j.ctx = c ∧ j.pc.won = true then 1 else 0

/-- What is left to wake a fiber: the pointer to be swapped, and a job that has it. -/
def Ctx.wakeUps (x : Ctx) (jobs : List Job) (c : Nat) : Nat :=
  (if x.scheduler then 1 else 0) + (jobs.map (Job.wakes c)).sum + x.scheduled

structure WokenOnce (s : State) : Prop where
  once : ∀ (c : Nat) (x : Ctx), s.ctxs[c]? = some x → x.wakeUps s.jobs c ≤ 1
  /-- nobody can wake a fiber that is not there -/
  absent : ∀ c, s.ctxs.length ≤ c → (s.jobs.map (Job.wakes c)).sum = 0

theorem Job.wakes_leave (c) (j : Job) : j.leave.wakes c = 0 := by
  unfold Job.wakes Job.leave
  split <;> simp [Pc.won]

theorem Moves.wakes (h : Moves j x j' x') :
    (if x'.scheduler then 1 else 0) + j'.wakes j.ctx + x'.scheduled ≤
      (if x.scheduler then 1 else 0) + j.wakes j.ctx + x.scheduled := by
  cases h with
  | stay => exact Nat.le_refl _
  | win hscd => simp [Job.wakes, Pc.won, hscd]
  | nothing =>
    rw [Job.wakes_leave]
    simp
  | lose =>
    rw [Job.wakes_leave]
    omega
  | schedule =>
    rw [Job.wakes_leave]
    simp [Job.wakes, Pc.won]
    omega
  | _ => simp [Job.wakes, Pc.won]

theorem Moves.wakes_other (h : Moves j x j' x') (hc : j.ctx ≠ c) : j'.wakes c = 0 := by
  cases h with
  | nothing | lose | schedule => exact Job.wakes_leave c _
  | _ => simp_all [Job.wakes]

theorem WokenOnce.job (h : WokenOnce s) (hj : s.jobs[k]? = some j)
    (hx : s.ctxs[j.ctx]? = some x) (hmove : Moves j x j' x') (table : AList fun _ : Nat => Nat) :
    WokenOnce { ctxs := s.ctxs.set j.ctx x', table := table, jobs := s.jobs.set k j' } := by
  refine ⟨?_, ?_⟩
  · intro c y hy
    have hsum := sum_map_set (Job.wakes c) hj j'
    unfold Ctx.wakeUps
    rcases (getElem?_set_iff hx x').mp hy with ⟨rfl, rfl⟩ | ⟨hne, hy⟩
    · have hstep := hmove.wakes
      have hbefore := h.once j.ctx x hx
      unfold Ctx.wakeUps at hbefore
      dsimp only
      omega
    · have hzero := hmove.wakes_other (Ne.symm hne)
      have hbefore := h.once c y hy
      unfold Ctx.wakeUps at hbefore
      dsimp only
      omega
  · intro c hc
    rw [length_set] at hc
    have hlt := (List.getElem?_eq_some_iff.mp hx).1
    have hsum := sum_map_set (Job.wakes c) hj j'
    have hzero := hmove.wakes_other (c := c) (by omega)
    have hbefore := h.absent c hc
    dsimp only
    omega

theorem WokenOnce.request (h : WokenOnce s) (sn : Nat) :
    WokenOnce { s with ctxs := s.ctxs ++ [{ sn := sn }] } := by
  refine ⟨?_, ?_⟩
  · intro c x hx
    rcases getElem?_concat_iff.mp hx with hx | ⟨rfl, rfl⟩
    · exact h.once c x hx
    · have hbefore := h.absent s.ctxs.length (Nat.le_refl _)
      simp [Ctx.wakeUps, hbefore]
  · intro c hc
    rw [length_append] at hc
    exact h.absent c (by omega)

theorem WokenOnce.start (h : WokenOnce s) (hj : j.pc.won = false) :
    WokenOnce { s with jobs := s.jobs ++ [j] } := by
  have hsum : ∀ c, ((s.jobs ++ [j]).map (Job.wakes c)).sum = (s.jobs.map (Job.wakes c)).sum := by
    intro c
    simp [Job.wakes, hj]
  refine ⟨?_, ?_⟩
  · intro c x hx
    have hbefore := h.once c x hx
    unfold Ctx.wakeUps at hbefore ⊢
    rw [hsum]
    exact hbefore
  · intro c hc
    rw [hsum]
    exact h.absent c hc

theorem WokenOnce.frame (h : WokenOnce s) {f : Nat → Ctx → Ctx}
    (hf : ∀ (c : Nat) (x : Ctx), s.ctxs[c]? = some x →
      (f c x).scheduler = x.scheduler ∧ (f c x).scheduled = x.scheduled)
    (table : AList fun _ : Nat => Nat) :
    WokenOnce { s with ctxs := s.ctxs.mapIdx f, table := table } := by
  refine ⟨?_, ?_⟩
  · intro c y hy
    obtain ⟨x, hx, rfl⟩ := getElem?_mapIdx_iff.mp hy
    have hbefore := h.once c x hx
    unfold Ctx.wakeUps at hbefore ⊢
    rw [(hf c x hx).1, (hf c x hx).2]
    exact hbefore
  · intro c hc
    rw [length_mapIdx] at hc
    exact h.absent c hc

theorem set_eq_mapIdx (xs : List Ctx) (c x) :
    xs.set c x = xs.mapIdx fun d y => if c = d then x else y := by
  refine ext_getElem? fun d => ?_
  rw [getElem?_set, getElem?_mapIdx]
  by_cases hcd : c = d
  · subst hcd
    by_cases hlt : c < xs.length <;> simp [hlt]
  · cases xs[d]? <;> simp [hcd]

theorem modify_eq_mapIdx (xs : List Ctx) (c) (f : Ctx → Ctx) :
    xs.modify c f = xs.mapIdx fun d y => if d ∈ [c] then f y else y := by
  refine ext_getElem? fun d => ?_
  rw [getElem?_modify, getElem?_mapIdx]
  by_cases hcd : c = d
  · subst hcd
    simp
  · have hdc : d ≠ c := fun h => hcd h.symm
    simp [hcd, hdc]

theorem WokenOnce.set (h : WokenOnce s) (hx : s.ctxs[c]? = some x)
    (hscheduler : x'.scheduler = x.scheduler) (hscheduled : x'.scheduled = x.scheduled)
    (table : AList fun _ : Nat => Nat) :
    WokenOnce { s with ctxs := s.ctxs.set c x', table := table } := by
  rw [set_eq_mapIdx]
  refine h.frame (fun d y hy => ?_) table
  by_cases hcd : c = d
  · subst hcd
    rw [hx] at hy
    obtain rfl := Option.some.inj hy
    rw [if_pos rfl]
    exact ⟨hscheduler, hscheduled⟩
  · rw [if_neg hcd]
    exact ⟨rfl, rfl⟩

theorem WokenOnce.doRecv (h : WokenOnce s) (rsp) : WokenOnce (doRecv s rsp) := by
  have hanswered : ∀ c x, (answered rsp c x).scheduler = x.scheduler ∧
      (answered rsp c x).scheduled = x.scheduled := by
    intro c x
    unfold answered
    split <;> exact ⟨rfl, rfl⟩
  have hframe : ∀ table, WokenOnce { s with ctxs := s.ctxs.mapIdx (answered rsp), table :=
    table } :=
    h.frame fun c x _ => hanswered c x
  unfold RockStream.doRecv
  dsimp only
  split
  · exact hframe s.table
  · rw [modify_eq_mapIdx]
    refine WokenOnce.start ((hframe s.table).frame (fun c x _ => ?_) _) rfl
    split <;> exact ⟨rfl, rfl⟩

theorem WokenOnce.innerClose (h : WokenOnce s) (order) : WokenOnce (innerClose s order) := by
  have hframe : WokenOnce { s with ctxs := s.ctxs.mapIdx (closed order), table := ∅ } := by
    refine h.frame (fun _ _ _ => ?_) ∅
    exact ⟨rfl, rfl⟩
  cases order with
  | nil => exact hframe
  | cons c rest => exact hframe.start rfl

theorem Steps.wokenOnce {s t : State} (hs : Steps s a t) (h : WokenOnce s) : WokenOnce t := by
  cases hs with
  | stay => exact h
  | request => exact h.request _
  | addCtx hx =>
    refine h.set hx ?_ ?_ _
    · rfl
    · rfl
  | goes hx hgoes =>
    obtain ⟨_, _, hscheduler, hscheduled⟩ := hgoes.frame
    exact h.set hx hscheduler hscheduled s.table
  | fire hx =>
    refine WokenOnce.start (h.set hx ?_ ?_ s.table) rfl
    · rfl
    · rfl
  | doRecv => exact h.doRecv _
  | innerClose => exact h.innerClose _
  | job hj hx => exact h.job hj hx (Job.step_moves _ _) _

end Helens.RockStream
