import Helens.RockStream

/-! Requests and the numbers they are registered under. `insert` gives up on a number in use, a
timeout erases whatever stands under its number, and a response goes to whichever request does. -/

namespace Helens.RockStream

open Lib.Runs List

def Job.Own (j : Job) : Prop :=
  match j.role with
  | .response rsp => rsp.request = some j.ctx
  | _ => True

instance (j : Job) : Decidable j.Own :=
  match h : j.role with
  | .response rsp =>
    if hr : rsp.request = some j.ctx then isTrue (by unfold Job.Own; rw [h]; exact hr)
    else isFalse (by unfold Job.Own; rw [h]; exact hr)
  | .timeout => isTrue (by unfold Job.Own; rw [h]; trivial)
  | .close _ => isTrue (by unfold Job.Own; rw [h]; trivial)

/-- Every request in flight is registered until its own response, its timeout or a
close has come, and no response completes another request. -/
def Kept (s : State) : Prop :=
  (∀ p ∈ s.ctxs.zipIdx, p.1.stage ≠ .created → p.1.ended = false →
    s.table.lookup p.1.sn = some p.2) ∧ ∀ j ∈ s.jobs, j.Own

instance : DecidablePred Kept := fun s =>
  inferInstanceAs (Decidable (_ ∧ _))

/-- A request is registered under a free number; a timeout and a response find
under their number the request they belong to, or none. -/
def OwnNumber (s : State) : Action → Prop
  | .addCtx c => ∀ x ∈ s.ctxs[c]?, x.stage = .created → x.sn ∉ s.table
  | .doRecv rsp => ∀ c ∈ s.table.lookup rsp.sn, rsp.request = some c
  | .job k =>
    ∀ j ∈ s.jobs[k]?, j.pc = .erase → ∀ x ∈ s.ctxs[j.ctx]?, ∀ c ∈ s.table.lookup x.sn, c = j.ctx
  | _ => True

instance (s : State) : (a : Action) → Decidable (OwnNumber s a)
  | .addCtx c => inferInstanceAs (Decidable (∀ x ∈ s.ctxs[c]?, _))
  | .doRecv rsp =>
    inferInstanceAs (Decidable (∀ c ∈ s.table.lookup rsp.sn, _))
  | .job k =>
    inferInstanceAs (Decidable (∀ j ∈ s.jobs[k]?, _))
  | .request _ | .addTimer _ | .storeTimer _ | .yieldToHold _ | .fire _ | .innerClose _
  | .resume _ => inferInstanceAs (Decidable True)

/-! ## What the steps keep -/

def Registered (s : State) : Prop :=
  ∀ c x, s.ctxs[c]? = some x → x.stage ≠ .created → x.ended = false → s.table.lookup x.sn = some c

theorem kept_iff (s : State) : Kept s ↔ Registered s ∧ ∀ j ∈ s.jobs, j.Own := by
  refine and_congr_left fun _ => ⟨?_, ?_⟩
  · intro h c x hx
    exact h (x, c) (mem_zipIdx_iff_getElem?.mpr hx)
  · intro h p hp
    exact h p.2 p.1 (mem_zipIdx_iff_getElem?.mp hp)

variable {s : State}

theorem Registered.set (h : Registered s) (hx : s.ctxs[c]? = some x) (hsn : x'.sn = x.sn)
    (hstage : x'.stage ≠ .created → x.stage ≠ .created) (hended : x'.ended = false →
      x.ended = false)
    {jobs : List Job} : Registered { s with ctxs := s.ctxs.set c x', jobs := jobs } := by
  intro d y hy hs he
  rcases (getElem?_set_iff hx x').mp hy with ⟨rfl, rfl⟩ | ⟨_, hy⟩
  · rw [hsn]
    exact h d x hx (hstage hs) (hended he)
  · exact h d y hy hs he

theorem Moves.frame (h : Moves j x j' x') :
    x'.sn = x.sn ∧ x'.stage = x.stage ∧ x'.party = x.party ∧ x'.outcome = x.outcome := by
  cases h <;> exact ⟨rfl, rfl, rfl, rfl⟩

theorem Moves.ended (h : Moves j x j' x') (hpc : j.pc ≠ .erase) : x'.ended = x.ended := by
  cases h with
  | erase => exact absurd rfl hpc
  | _ => rfl

theorem Job.own_leave {j : Job} (h : j.Own) : j.leave.Own := by
  unfold Job.leave
  split
  · trivial
  · exact h

theorem Moves.own (h : Moves j x j' x') (hown : j.Own) : j'.Own := by
  cases h with
  | nothing | lose | schedule => exact Job.own_leave hown
  | _ => exact hown

theorem kept_addCtx (h : Kept s) {x : Ctx} (hx : s.ctxs[c]? = some x) (hfree : x.sn ∉ s.table) :
    Kept { s with
      ctxs := s.ctxs.set c { x with stage := .added }
      table := if x.sn ∈ s.table then s.table else s.table.insert x.sn c } := by
  obtain ⟨hreg, hown⟩ := (kept_iff s).mp h
  refine (kept_iff _).mpr ⟨?_, hown⟩
  intro d y hy hs he
  rw [if_neg hfree]
  rcases (getElem?_set_iff hx _).mp hy with ⟨rfl, rfl⟩ | ⟨_, hy⟩
  · exact AList.lookup_insert _
  · have hbefore := hreg d y hy hs he
    -- a registered request uses another number
    have hne : y.sn ≠ x.sn := by
      intro heq
      rw [heq, AList.lookup_eq_none.mpr hfree] at hbefore
      cases hbefore
    rw [AList.lookup_insert_ne hne]
    exact hbefore

theorem Registered.answered (h : Registered s)
    (hy : (s.ctxs.mapIdx (answered rsp))[d]? = some y) (hs : y.stage ≠ .created)
    (he : y.ended = false) : s.table.lookup y.sn = some d ∧ rsp.request ≠ some d := by
  obtain ⟨x, hx, rfl⟩ := getElem?_mapIdx_iff.mp hy
  unfold RockStream.answered at hs he ⊢
  split at he
  · cases he
  · rename_i hne
    rw [if_neg hne] at hs ⊢
    exact ⟨h d x hx hs he, hne⟩

theorem kept_doRecv (h : Kept s) (hC : OwnNumber s (.doRecv rsp)) : Kept (doRecv s rsp) := by
  obtain ⟨hreg, hown⟩ := (kept_iff s).mp h
  unfold doRecv
  split
  · exact (kept_iff _).mpr ⟨fun d y hy hs he => (hreg.answered hy hs he).1, hown⟩
  · rename_i c hc
    have hrequest := hC c hc
    refine (kept_iff _).mpr ⟨?_, ?_⟩
    · intro d y hy hs he
      rw [List.getElem?_modify] at hy
      obtain ⟨x, hx, rfl⟩ := Option.map_eq_some_iff.mp hy
      have hx' : x.stage ≠ .created ∧ x.ended = false := by
        split at hs <;> split at he <;> exact ⟨hs, he⟩
      obtain ⟨hlookup, hne⟩ := hreg.answered hx hx'.1 hx'.2
      have hsn : x.sn ≠ rsp.sn := by
        intro heq
        rw [heq, hc] at hlookup
        obtain rfl := Option.some.inj hlookup
        exact hne hrequest
      have hsame : (if c = d then { x with party := some (.response rsp) } else x).sn = x.sn := by
        split <;> rfl
      rw [hsame, AList.lookup_erase_ne hsn]
      exact hlookup
    · exact forall_mem_append.mpr ⟨hown, forall_mem_singleton.mpr hrequest⟩

theorem kept_innerClose (h : Kept s) (order) : Kept (innerClose s order) := by
  refine (kept_iff _).mpr ⟨?_, ?_⟩
  · intro d y hy hs he
    obtain ⟨x, _, rfl⟩ := getElem?_mapIdx_iff.mp hy
    simp_all [closed]
  · unfold innerClose
    cases order with
    | nil => exact h.2
    | cons c rest => exact forall_mem_append.mpr ⟨h.2, forall_mem_singleton.mpr trivial⟩

theorem kept_job (h : Kept s) {x : Ctx} (hj : s.jobs[k]? = some j)
    (hx : s.ctxs[j.ctx]? = some x) (hC : j.pc = .erase → ∀ c ∈ s.table.lookup x.sn, c = j.ctx) :
    Kept {
      ctxs := s.ctxs.set j.ctx (j.step x).2
      table := if j.pc = .erase then s.table.erase x.sn else s.table
      jobs := s.jobs.set k (j.step x).1 } := by
  obtain ⟨hreg, hown⟩ := (kept_iff s).mp h
  have hmove := j.step_moves x
  obtain ⟨hsn, hstage, _⟩ := hmove.frame
  have hjobs : ∀ i ∈ s.jobs.set k (j.step x).1, i.Own := by
    intro i hi
    rcases mem_or_eq_of_mem_set hi with hi | rfl
    · exact hown i hi
    · exact hmove.own (hown j (mem_of_getElem? hj))
  refine (kept_iff _).mpr ⟨?_, hjobs⟩
  by_cases hpc : j.pc = .erase
  · -- the request whose timeout this is has ended, the others use other numbers
    intro d y hy hs he
    rw [if_pos hpc]
    rcases (getElem?_set_iff hx _).mp hy with ⟨rfl, rfl⟩ | ⟨hne, hy⟩
    · rw [Job.step, hpc] at he
      cases he
    · have hbefore := hreg d y hy hs he
      have hsn' : y.sn ≠ x.sn := by
        intro heq
        rw [heq] at hbefore
        exact hne (hC hpc d hbefore)
      rw [AList.lookup_erase_ne hsn']
      exact hbefore
  · rw [if_neg hpc]
    refine hreg.set hx hsn (by rw [hstage]; exact id) ?_
    rw [hmove.ended hpc]
    exact id

theorem Steps.kept {s t : State} (hs : Steps s a t) (h : Kept s) (hC : OwnNumber s a) : Kept t := by
  obtain ⟨hreg, hown⟩ := (kept_iff s).mp h
  cases hs with
  | stay => exact h
  | request =>
    refine (kept_iff _).mpr ⟨?_, hown⟩
    intro d y hy hs he
    rcases getElem?_concat_iff.mp hy with hy | ⟨_, rfl⟩
    · exact hreg d y hy hs he
    · exact absurd rfl hs
  | addCtx hx hstage => exact kept_addCtx h hx (hC _ hx hstage)
  | goes hx hgoes =>
    obtain ⟨hsn, hended, _⟩ := hgoes.frame
    refine (kept_iff _).mpr ⟨hreg.set hx hsn (fun _ => hgoes.stage.1) ?_, hown⟩
    rw [hended]
    exact id
  | fire hx =>
    refine (kept_iff _).mpr ⟨?_, ?_⟩
    · refine hreg.set hx ?_ ?_ ?_
      · rfl
      · exact id
      · exact id
    · exact forall_mem_append.mpr ⟨hown, forall_mem_singleton.mpr trivial⟩
  | doRecv => exact kept_doRecv h hC
  | innerClose => exact kept_innerClose h _
  | job hj hx => exact kept_job h hj hx fun hpc => hC _ hj hpc _ hx

/-- **In a run where every number found is one's own,** no timeout or response takes another
request, and every request stays registered until its response, its timeout or the close. -/
theorem requests_stay_registered (as : List Action) (h : Along exec OwnNumber as init) :
    Post Kept (fun _ => False) (run exec as init) := by
  refine post_run (fun s a hs hC => ?_) as init h ?_
  · exact (step_steps s a).kept hs hC
  · exact ⟨by simp [init], by simp [init]⟩

def twoNumbers : List Action :=
  [.request 5, .addCtx 0, .addTimer 0, .request 6, .addCtx 1, .addTimer 1, .fire 0, .job 0,
    .doRecv ⟨6, 0, some 1⟩, .job 1]

theorem requests_stay_registered_two :
    Along exec OwnNumber twoNumbers init ∧ Post Kept (fun _ => False) (run exec twoNumbers init) :=
  ⟨by decide, requests_stay_registered twoNumbers (by decide)⟩

/-- A second request under a number in use is never registered, and the timeout of an answered
request can take a later one out of the table. -/
theorem number_reuse_unregisters : Post (fun s => ¬ Kept s) (fun _ => False)
        (run exec [.request 5, .addCtx 0, .request 5, .addCtx 1] init) ∧
      Post (fun s => ¬ Kept s) (fun _ => False) (run exec
          [.request 5, .addCtx 0, .addTimer 0, .doRecv ⟨5, 0, some 0⟩, .job 0, .job 0, .job 0,
            .job 0, .job 0, .job 0, .job 0, .storeTimer 0, .yieldToHold 0, .resume 0, .request 5,
            .addCtx 1, .fire 0, .job 1] init) :=
  ⟨by decide, by decide⟩

end Helens.RockStream
