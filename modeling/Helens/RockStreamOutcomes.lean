import Helens.RockStreamParties

/-! What a request gets. The fiber is scheduled at most once in every run, and reads one outcome as
long as no timeout sets `timed` while a response is between the table and the end of its `doRsp`. -/

namespace Helens.RockStream

open Lib.Runs List

/-! ## What the steps keep -/

def Ctx.Free (x : Ctx) : Prop := x.party = none ∧ x.timed = false ∧ x.scheduled = 0

structure Inv (s : State) : Prop where
  ctxs : ∀ (c : Nat) (x : Ctx), s.ctxs[c]? = some x → x.Ok c
  jobs : ∀ j ∈ s.jobs, ∃ x, s.ctxs[j.ctx]? = some x ∧ x.stage ≠ .created ∧ j.Ok x
  rest : ∀ j ∈ s.jobs, ∀ rest, j.role = .close rest →
    ∀ c ∈ rest, ∃ x, s.ctxs[c]? = some x ∧ x.stage ≠ .created ∧ x.party = some .close
  taken : ∀ (c : Nat) (x : Ctx) (rsp : Response), s.ctxs[c]? = some x →
    x.party = some (.response rsp) → ∃ j ∈ s.jobs, j.ctx = c ∧ j.role = .response rsp
  table : ∀ sn c, s.table.lookup sn = some c →
    (∃ x, s.ctxs[c]? = some x ∧ x.sn = sn ∧ x.stage ≠ .created ∧ x.Free) ∧
      ∀ j ∈ s.jobs, j.ctx = c → j.pc = .erase
  fresh : ∀ (c : Nat) (x : Ctx), s.ctxs[c]? = some x → x.stage = .created →
    x.Free ∧ x.pending = false

/-- Nothing that the jobs look at is changed. -/
structure Ctx.Same (x x' : Ctx) : Prop where
  sn : x'.sn = x.sn
  result : x'.result = x.result
  timed : x'.timed = x.timed
  scheduler : x'.scheduler = x.scheduler
  response : x'.response = x.response
  party : x'.party = x.party
  scheduled : x'.scheduled = x.scheduled
  stage : x.stage ≠ .created → x'.stage ≠ .created
  fresh : x'.stage = .created → x.stage = .created ∧ x'.pending = x.pending

variable {x x' : Ctx} {s : State}

theorem Ctx.Same.next (h : x.Same x') : x.Next x' :=
  ⟨h.party, fun hs => h.scheduler.trans hs, fun ht => h.timed.trans ht, .inl h.result,
    .inl h.response⟩

theorem Ctx.Same.free (h : x.Same x') (hfree : x.Free) : x'.Free :=
  ⟨h.party.trans hfree.1, h.timed.trans hfree.2.1, h.scheduled.trans hfree.2.2⟩

variable {c : Nat} {order : List Nat} {party : Party}

theorem Ctx.Same.ok (h : x.Same x') (hok : x.Ok c)
    (houtcome : ∀ o ∈ x'.outcome, Coherent c x.sn o) : x'.Ok c := by
  refine ⟨?_, ?_, ?_⟩
  · rw [h.next.answer, h.sn, h.scheduled, h.response, h.result]
    exact hok.answer
  · rw [h.next.answer, h.scheduled, h.response, h.result]
    exact hok.failed
  · rw [h.sn]
    exact houtcome

theorem Inv.frame (h : Inv s) {f : Nat → Ctx → Ctx}
    (hsame : ∀ (c : Nat) (x : Ctx), s.ctxs[c]? = some x → x.Same (f c x) ∧ (f c x).Ok c) :
    Inv { s with ctxs := s.ctxs.mapIdx f } := by
  have hget : ∀ {c x}, s.ctxs[c]? = some x → (s.ctxs.mapIdx f)[c]? = some (f c x) :=
    fun hx => getElem?_mapIdx_iff.mpr ⟨_, hx, rfl⟩
  refine ⟨?_, ?_, ?_, ?_, ?_, ?_⟩
  · intro c y hy
    obtain ⟨x, hx, rfl⟩ := getElem?_mapIdx_iff.mp hy
    exact (hsame c x hx).2
  · intro j hj
    obtain ⟨x, hx, hstage, hok⟩ := h.jobs j hj
    have hs := (hsame j.ctx x hx).1
    exact ⟨_, hget hx, hs.stage hstage, hok.next hs.next (.inl hs.timed)⟩
  · intro j hj rest hrole c hc
    obtain ⟨x, hx, hstage, hparty⟩ := h.rest j hj rest hrole c hc
    have hs := (hsame c x hx).1
    exact ⟨_, hget hx, hs.stage hstage, hs.party.trans hparty⟩
  · intro c y rsp hy hparty
    obtain ⟨x, hx, rfl⟩ := getElem?_mapIdx_iff.mp hy
    exact h.taken c x rsp hx ((hsame c x hx).1.party ▸ hparty)
  · intro sn c hc
    obtain ⟨⟨x, hx, hsn, hstage, hfree⟩, hjobs⟩ := h.table sn c hc
    have hs := (hsame c x hx).1
    exact ⟨⟨_, hget hx, hs.sn.trans hsn, hs.stage hstage, hs.free hfree⟩, hjobs⟩
  · intro c y hy hstage
    obtain ⟨x, hx, rfl⟩ := getElem?_mapIdx_iff.mp hy
    have hs := (hsame c x hx).1
    obtain ⟨hcreated, hpending⟩ := hs.fresh hstage
    obtain ⟨hfree, hnone⟩ := h.fresh c x hx hcreated
    exact ⟨hs.free hfree, hpending.trans hnone⟩

theorem Inv.set (h : Inv s) (hx : s.ctxs[c]? = some x)
    (hsame : x.Same x') (houtcome : ∀ o ∈ x'.outcome, Coherent c x.sn o) :
    Inv { s with ctxs := s.ctxs.set c x' } := by
  rw [set_eq_mapIdx]
  refine h.frame fun d y hy => ?_
  by_cases hcd : c = d
  · subst hcd
    rw [hx] at hy
    obtain rfl := Option.some.inj hy
    rw [if_pos rfl]
    exact ⟨hsame, hsame.ok (h.ctxs c x hx) houtcome⟩
  · rw [if_neg hcd]
    exact ⟨⟨rfl, rfl, rfl, rfl, rfl, rfl, rfl, id, fun hs => ⟨hs, rfl⟩⟩, h.ctxs d y hy⟩

theorem Goes.same (h : Goes x x') : x.Same x' := by
  cases h <;> exact ⟨rfl, rfl, rfl, rfl, rfl, rfl, rfl, fun _ => nofun, nofun⟩

theorem Goes.outcome (h : Goes x x') (hok : x.Ok c) :
    ∀ o ∈ x'.outcome, Coherent c x.sn o := by
  cases h with
  | addTimer | storeTimer | yieldToHold => exact hok.outcome
  | resume _ hwoken =>
    rintro o ⟨⟩
    cases hanswer : x.answer with
    | none =>
      obtain ⟨hresponse, hresult, hne⟩ := hok.failed hanswer
      rw [hresponse]
      exact hresult.resolve_left (hne hwoken)
    | some rsp =>
      obtain ⟨hrequest, hsn, hread⟩ := hok.answer rsp hanswer
      obtain ⟨hresponse, hresult⟩ := hread hwoken
      rw [hresponse]
      exact ⟨hrequest, hsn, hresult⟩

theorem Inv.request (h : Inv s) (sn : Nat) :
    Inv { s with ctxs := s.ctxs ++ [{ sn := sn }] } := by
  have hget : ∀ {c : Nat} {x : Ctx}, s.ctxs[c]? = some x →
      (s.ctxs ++ [({ sn := sn } : Ctx)])[c]? = some x :=
    fun hx => getElem?_concat_iff.mpr (.inl hx)
  refine ⟨?_, ?_, ?_, ?_, ?_, ?_⟩
  · intro c x hx
    rcases getElem?_concat_iff.mp hx with hx | ⟨_, rfl⟩
    · exact h.ctxs c x hx
    · exact ⟨nofun, fun _ => ⟨rfl, .inl rfl, nofun⟩, nofun⟩
  · intro j hj
    obtain ⟨x, hx, hok⟩ := h.jobs j hj
    exact ⟨x, hget hx, hok⟩
  · intro j hj rest hrole c hc
    obtain ⟨x, hx, hok⟩ := h.rest j hj rest hrole c hc
    exact ⟨x, hget hx, hok⟩
  · intro c x rsp hx hparty
    rcases getElem?_concat_iff.mp hx with hx | ⟨_, rfl⟩
    · exact h.taken c x rsp hx hparty
    · cases hparty
  · intro n c hc
    obtain ⟨⟨x, hx, hok⟩, hjobs⟩ := h.table n c hc
    exact ⟨⟨x, hget hx, hok⟩, hjobs⟩
  · intro c x hx hstage
    rcases getElem?_concat_iff.mp hx with hx | ⟨_, rfl⟩
    · exact h.fresh c x hx hstage
    · exact ⟨⟨rfl, rfl, rfl⟩, rfl⟩

theorem Inv.registered (h : Inv s) {sn c : Nat} (hc : s.table.lookup sn = some c)
    (hx : s.ctxs[c]? = some x) : x.sn = sn ∧ x.stage ≠ .created ∧ x.Free := by
  obtain ⟨⟨y, hy, hfacts⟩, _⟩ := h.table sn c hc
  rw [hx] at hy
  obtain rfl := Option.some.inj hy
  exact hfacts

theorem Inv.unused (h : Inv s) (hx : s.ctxs[c]? = some x)
    (hstage : x.stage = .created) {j : Job} (hj : j ∈ s.jobs) : j.ctx ≠ c := by
  rintro rfl
  obtain ⟨y, hy, hne, _⟩ := h.jobs j hj
  rw [hx] at hy
  obtain rfl := Option.some.inj hy
  exact hne hstage

theorem Inv.addCtx (h : Inv s) (hx : s.ctxs[c]? = some x)
    (hstage : x.stage = .created) :
    Inv { s with
      ctxs := s.ctxs.set c { x with stage := .added }
      table := if x.sn ∈ s.table then s.table else s.table.insert x.sn c } := by
  have hset : Inv { s with ctxs := s.ctxs.set c { x with stage := .added } } := by
    refine h.set hx ?_ (h.ctxs c x hx).outcome
    exact ⟨rfl, rfl, rfl, rfl, rfl, rfl, rfl, fun _ => nofun, nofun⟩
  refine ⟨hset.ctxs, hset.jobs, hset.rest, hset.taken, ?_, hset.fresh⟩
  intro sn d hd
  split at hd
  · exact hset.table sn d hd
  · by_cases hsn : sn = x.sn
    · subst hsn
      rw [AList.lookup_insert] at hd
      obtain rfl := Option.some.inj hd
      refine ⟨⟨_, (getElem?_set_iff hx _).mpr (.inl ⟨rfl, rfl⟩), rfl, nofun,
        (h.fresh c x hx hstage).1⟩, ?_⟩
      exact fun j hj hc => absurd hc (h.unused hx hstage hj)
    · rw [AList.lookup_insert_ne hsn] at hd
      exact hset.table sn d hd

theorem Inv.fire (h : Inv s) (hx : s.ctxs[c]? = some x)
    (hpending : x.pending = true) :
    Inv { s with
      ctxs := s.ctxs.set c { x with pending := false }
      jobs := s.jobs ++ [{ role := .timeout, ctx := c, pc := .erase }] } := by
  have hstage : x.stage ≠ .created := by
    intro hs
    have hf := (h.fresh c x hx hs).2
    rw [hpending] at hf
    cases hf
  have hset : Inv { s with ctxs := s.ctxs.set c { x with pending := false } } := by
    refine h.set hx ?_ (h.ctxs c x hx).outcome
    exact ⟨rfl, rfl, rfl, rfl, rfl, rfl, rfl, id, fun hs => absurd hs hstage⟩
  refine ⟨hset.ctxs, ?_, ?_, ?_, ?_, hset.fresh⟩
  · refine forall_mem_append.mpr ⟨hset.jobs, forall_mem_singleton.mpr ?_⟩
    exact ⟨_, (getElem?_set_iff hx _).mpr (.inl ⟨rfl, rfl⟩), hstage, ⟨nofun, nofun⟩,
      fun h _ => absurd rfl h, fun _ h => absurd rfl h, nofun⟩
  · exact forall_mem_append.mpr ⟨hset.rest, forall_mem_singleton.mpr nofun⟩
  · intro d y rsp hy hparty
    obtain ⟨j, hj, hrole⟩ := hset.taken d y rsp hy hparty
    exact ⟨j, mem_append_left _ hj, hrole⟩
  · intro sn d hd
    obtain ⟨hctx, hjobs⟩ := hset.table sn d hd
    exact ⟨hctx, forall_mem_append.mpr ⟨hjobs, forall_mem_singleton.mpr fun _ => rfl⟩⟩

def takenBy (party : Party) (order : List Nat) (c : Nat) (x : Ctx) : Ctx :=
  if c ∈ order then { x with party := some party } else x

theorem takenBy_of_mem (hc : c ∈ order) (x) :
    takenBy party order c x = { x with party := some party } :=
  if_pos hc

theorem takenBy_of_notMem (hc : c ∉ order) (x) : takenBy party order c x = x :=
  if_neg hc

theorem Ctx.Ok.take (h : x.Ok c) (hfree : x.Free)
    (hrsp : ∀ rsp, party = .response rsp → rsp.request = some c ∧ rsp.sn = x.sn) :
    Ctx.Ok c { x with party := some party } := by
  obtain ⟨hparty, _, hscheduled⟩ := hfree
  refine ⟨?_, ?_, h.outcome⟩
  · intro rsp hanswer
    cases party with
    | response r =>
      obtain rfl := Option.some.inj hanswer
      obtain ⟨hrequest, hsn⟩ := hrsp r rfl
      refine ⟨hrequest, hsn, fun hpos => ?_⟩
      change 0 < x.scheduled at hpos
      omega
    | close => cases hanswer
  · intro _
    exact h.failed (Ctx.answer_of_party hparty)

theorem Inv.take (h : Inv s) {new : List Job} {table : AList fun _ : Nat => Nat}
    (hreg : ∀ c ∈ order, ∃ sn, s.table.lookup sn = some c)
    (htable : ∀ sn c, table.lookup sn = some c → s.table.lookup sn = some c ∧ c ∉ order)
    (hrsp : ∀ rsp, party = .response rsp → ∀ c ∈ order, rsp.request = some c ∧
      s.table.lookup rsp.sn = some c ∧ ∃ j ∈ new, j.ctx = c ∧ j.role = .response rsp)
    (hnew : ∀ j ∈ new, j.ctx ∈ order ∧ ∀ x : Ctx, x.party = some party → x.timed = false → j.Ok x)
    (hrest : ∀ j ∈ new, ∀ rest, j.role = .close rest → party = .close ∧ ∀ c ∈ rest, c ∈ order) :
    Inv {
      ctxs := s.ctxs.mapIdx (takenBy party order)
      table := table
      jobs := s.jobs ++ new } := by
  -- a context of the order is free, and only timeouts that have done nothing are about it
  have hfree : ∀ {c}, c ∈ order → ∃ x, s.ctxs[c]? = some x ∧ x.stage ≠ .created ∧ x.Free ∧
      ∀ j ∈ s.jobs, j.ctx = c → j.pc = .erase := by
    intro c hc
    obtain ⟨sn, hsn⟩ := hreg c hc
    obtain ⟨⟨x, hx, _, hstage, hx'⟩, hjobs⟩ := h.table sn c hsn
    exact ⟨x, hx, hstage, hx', hjobs⟩
  have hfree' : ∀ {c x}, c ∈ order → s.ctxs[c]? = some x → x.stage ≠ .created ∧ x.Free := by
    intro c x hc hx
    obtain ⟨sn, hsn⟩ := hreg c hc
    exact (h.registered hsn hx).2
  have hin : ∀ {c x}, s.ctxs[c]? = some x → c ∈ order →
      (s.ctxs.mapIdx (takenBy party order))[c]? = some { x with party := some party } :=
    fun hx hc => getElem?_mapIdx_iff.mpr ⟨_, hx, takenBy_of_mem hc _⟩
  have hout : ∀ {c x}, s.ctxs[c]? = some x → c ∉ order →
      (s.ctxs.mapIdx (takenBy party order))[c]? = some x :=
    fun hx hc => getElem?_mapIdx_iff.mpr ⟨_, hx, takenBy_of_notMem hc _⟩
  refine ⟨?_, ?_, ?_, ?_, ?_, ?_⟩
  · intro c y hy
    obtain ⟨x, hx, rfl⟩ := getElem?_mapIdx_iff.mp hy
    by_cases hc : c ∈ order
    · rw [takenBy_of_mem hc]
      refine (h.ctxs c x hx).take (hfree' hc hx).2 fun rsp hparty => ?_
      obtain ⟨hrequest, hlookup, _⟩ := hrsp rsp hparty c hc
      exact ⟨hrequest, (h.registered hlookup hx).1.symm⟩
    · rw [takenBy_of_notMem hc]
      exact h.ctxs c x hx
  · refine forall_mem_append.mpr ⟨fun j hj => ?_, fun j hj => ?_⟩
    · obtain ⟨x, hx, hstage, hok⟩ := h.jobs j hj
      by_cases hc : j.ctx ∈ order
      · obtain ⟨_, _, _, _, herase⟩ := hfree hc
        exact ⟨_, hin hx hc, hstage, hok.of_erase (herase j hj rfl) _⟩
      · exact ⟨_, hout hx hc, hstage, hok⟩
    · obtain ⟨hc, hok⟩ := hnew j hj
      obtain ⟨x, hx, hstage, ⟨_, htimed, _⟩, _⟩ := hfree hc
      exact ⟨_, hin hx hc, hstage, hok _ rfl htimed⟩
  · refine forall_mem_append.mpr ⟨fun j hj rest hrole c hc => ?_,
      fun j hj rest hrole c hc => ?_⟩
    · obtain ⟨x, hx, hstage, hparty⟩ := h.rest j hj rest hrole c hc
      have hnot : c ∉ order := by
        intro hmem
        have hnone := (hfree' hmem hx).2.1
        rw [hparty] at hnone
        cases hnone
      exact ⟨x, hout hx hnot, hstage, hparty⟩
    · obtain ⟨rfl, hsub⟩ := hrest j hj rest hrole
      obtain ⟨x, hx, hstage, _⟩ := hfree (hsub c hc)
      exact ⟨_, hin hx (hsub c hc), hstage, rfl⟩
  · intro c y rsp hy hparty
    obtain ⟨x, hx, rfl⟩ := getElem?_mapIdx_iff.mp hy
    by_cases hc : c ∈ order
    · rw [takenBy_of_mem hc] at hparty
      obtain ⟨_, _, j, hj, hctx⟩ := hrsp rsp (Option.some.inj hparty) c hc
      exact ⟨j, mem_append_right _ hj, hctx⟩
    · rw [takenBy_of_notMem hc] at hparty
      obtain ⟨j, hj, hctx⟩ := h.taken c x rsp hx hparty
      exact ⟨j, mem_append_left _ hj, hctx⟩
  · intro sn c hlookup
    obtain ⟨hbefore, hc⟩ := htable sn c hlookup
    obtain ⟨⟨x, hx, hok⟩, hjobs⟩ := h.table sn c hbefore
    refine ⟨⟨x, hout hx hc, hok⟩, forall_mem_append.mpr ⟨hjobs, fun j hj hctx => ?_⟩⟩
    exact absurd (hctx ▸ (hnew j hj).1) hc
  · intro c y hy hstage
    obtain ⟨x, hx, rfl⟩ := getElem?_mapIdx_iff.mp hy
    by_cases hc : c ∈ order
    · rw [takenBy_of_mem hc] at hstage
      exact absurd hstage (hfree' hc hx).1
    · rw [takenBy_of_notMem hc] at hstage ⊢
      exact h.fresh c x hx hstage

theorem Inv.doRecv (h : Inv s) (hC : Settled s (.doRecv rsp)) : Inv (doRecv s rsp) := by
  have hframe : Inv { s with ctxs := s.ctxs.mapIdx (answered rsp) } := by
    refine h.frame fun c x hx => ?_
    have hsame : x.Same (answered rsp c x) ∧ (answered rsp c x).outcome = x.outcome := by
      unfold answered
      split
      · exact ⟨⟨rfl, rfl, rfl, rfl, rfl, rfl, rfl, id, fun hs => ⟨hs, rfl⟩⟩, rfl⟩
      · exact ⟨⟨rfl, rfl, rfl, rfl, rfl, rfl, rfl, id, fun hs => ⟨hs, rfl⟩⟩, rfl⟩
    exact ⟨hsame.1, hsame.1.ok (h.ctxs c x hx) (hsame.2 ▸ (h.ctxs c x hx).outcome)⟩
  unfold RockStream.doRecv
  split
  · exact hframe
  · rename_i c hc
    dsimp only
    rw [modify_eq_mapIdx]
    refine hframe.take ?_ ?_ ?_ ?_ ?_
    · intro d hd
      rw [mem_singleton.mp hd]
      exact ⟨rsp.sn, hc⟩
    · intro sn d hd
      have hsn : sn ≠ rsp.sn := by
        rintro rfl
        rw [AList.lookup_erase] at hd
        cases hd
      rw [AList.lookup_erase_ne hsn] at hd
      refine ⟨hd, fun hmem => hsn ?_⟩
      -- a context stands under its own number only
      obtain rfl := mem_singleton.mp hmem
      obtain ⟨⟨x, hx, hxsn, _⟩, _⟩ := h.table sn d hd
      exact hxsn.symm.trans (h.registered hc hx).1
    · rintro r ⟨⟩ d hd
      rw [mem_singleton.mp hd]
      exact ⟨hC c hc, hc, _, mem_singleton_self _, rfl, rfl⟩
    · intro j hj
      rw [mem_singleton.mp hj]
      refine ⟨mem_singleton_self c, fun x hparty htimed => ?_⟩
      exact ⟨hparty, ⟨nofun, nofun, nofun⟩, fun h => absurd rfl h, fun h => absurd rfl h,
        fun _ _ => htimed, by simp [Pc.past]⟩
    · intro j hj rest hrole
      rw [mem_singleton.mp hj] at hrole
      cases hrole

theorem Inv.innerClose (h : Inv s)
    (horder : order.Perm (s.table.entries.map Sigma.snd)) : Inv (innerClose s order) := by
  have hframe : Inv { s with
      ctxs := s.ctxs.mapIdx fun _ x => { x with ended := x.ended || x.stage ≠ .created } } := by
    refine h.frame fun c x hx => ?_
    have hsame : x.Same { x with ended := x.ended || x.stage ≠ .created } :=
      ⟨rfl, rfl, rfl, rfl, rfl, rfl, rfl, id, fun hs => ⟨hs, rfl⟩⟩
    exact ⟨hsame, hsame.ok (h.ctxs c x hx) (h.ctxs c x hx).outcome⟩
  have hreg : ∀ c ∈ order, ∃ sn, s.table.lookup sn = some c := by
    intro c hc
    obtain ⟨⟨sn, d⟩, hmem, rfl⟩ := mem_map.mp (horder.mem_iff.mp hc)
    exact ⟨sn, AList.mem_lookup_iff.mpr hmem⟩
  have hctxs : s.ctxs.mapIdx (closed order) =
      (s.ctxs.mapIdx fun _ x => { x with ended := x.ended || x.stage ≠ .created }).mapIdx
        (takenBy .close order) := by
    rw [mapIdx_mapIdx]
    congr 1
    funext c x
    unfold closed takenBy
    dsimp only [Function.comp_apply]
    split <;> rfl
  have hempty : ∀ sn c, (∅ : AList fun _ : Nat => Nat).lookup sn = some c →
      s.table.lookup sn = some c ∧ c ∉ order := by
    intro sn c hc
    rw [AList.lookup_empty] at hc
    cases hc
  unfold RockStream.innerClose
  rw [hctxs]
  cases order with
  | nil =>
    rw [← append_nil s.jobs]
    exact hframe.take hreg hempty nofun nofun nofun
  | cons c rest =>
    refine hframe.take hreg hempty nofun ?_ ?_
    · intro j hj
      rw [mem_singleton.mp hj]
      exact ⟨mem_cons_self, fun x hparty _ =>
        ⟨hparty, ⟨nofun, nofun, nofun⟩, fun h => absurd rfl h⟩⟩
    · intro j hj tail hrole
      rw [mem_singleton.mp hj] at hrole
      cases hrole
      exact ⟨rfl, fun d hd => mem_cons_of_mem c hd⟩

/-- A response that has the context is past its compare-and-swap when `timed` is set. -/
theorem Inv.lost (h : Inv s) (hx : s.ctxs[c]? = some x)
    (hdecided : ∀ i ∈ s.jobs, i.ctx = c → i.role.isResponse = true →
      i.pc = .schedule ∨ i.pc = .done)
    (hanswer : x.answer ≠ none) : x.scheduler = false := by
  unfold Ctx.answer Party.answer at hanswer
  split at hanswer
  · rename_i rsp hparty
    obtain ⟨⟨role, d, pc⟩, hi, rfl, hrole⟩ := h.taken c x rsp hx hparty
    obtain rfl : role = .response rsp := hrole
    obtain ⟨y, hy, _, hok⟩ := h.jobs _ hi
    rw [hx] at hy
    obtain rfl := Option.some.inj hy
    refine RspOk.past hok (.inl ?_)
    rcases hdecided _ hi rfl rfl with hpc | hpc
    · rw [hpc]
      rfl
    · rw [hpc]
      rfl
  · exact absurd rfl hanswer

/-! A job's step, in a state where a timeout finds no response on its way. -/

section
variable {s : State} {k : Nat} {j j' : Job} {x x' : Ctx}

theorem Moves.closes (hx : s.ctxs[j.ctx]? = some x) (hmove : Moves j x j' x')
    (h : ∃ y : Ctx, s.ctxs[c]? = some y ∧ y.stage ≠ .created ∧ y.party = some .close) :
    ∃ y : Ctx, (s.ctxs.set j.ctx x')[c]? = some y ∧ y.stage ≠ .created ∧ y.party = some .close := by
  obtain ⟨y, hy, hs, hp⟩ := h
  by_cases hc : c = j.ctx
  · subst hc
    rw [hx] at hy
    obtain rfl := Option.some.inj hy
    obtain ⟨_, hstage, hparty, _⟩ := hmove.frame
    exact ⟨x', (getElem?_set_iff hx x').mpr (.inl ⟨rfl, rfl⟩), hstage ▸ hs, hparty.trans hp⟩
  · exact ⟨y, (getElem?_set_iff hx x').mpr (.inr ⟨hc, hy⟩), hs, hp⟩

variable (h : Inv s) (hj : s.jobs[k]? = some j) (hx : s.ctxs[j.ctx]? = some x)
  (hmove : Moves j x j' x')
  (hdecided : j.pc = .timed → ∀ i ∈ s.jobs, i.ctx = j.ctx → i.role.isResponse = true →
    i.pc = .schedule ∨ i.pc = .done)

include h hj hx in
theorem Inv.ok_at : x.stage ≠ .created ∧ j.Ok x := by
  obtain ⟨y, hy, hfacts⟩ := h.jobs j (mem_of_getElem? hj)
  rw [hx] at hy
  obtain rfl := Option.some.inj hy
  exact hfacts

include h hj hx hmove hdecided

theorem Inv.moves_self : (∃ c rest, j.role = .close (c :: rest) ∧ j' = ⟨.close rest, c, .result⟩) ∨
      (j'.role = j.role ∧ j'.ctx = j.ctx ∧ j'.Ok x') :=
  hmove.ok (h.ok_at hj hx).2 fun hpc => h.lost hx (hdecided hpc)

theorem Inv.moves_jobs : ∀ i ∈ s.jobs.set k j',
    ∃ y, (s.ctxs.set j.ctx x')[i.ctx]? = some y ∧ y.stage ≠ .created ∧ i.Ok y := by
  obtain ⟨hstage, hok⟩ := h.ok_at hj hx
  obtain ⟨_, hstage', _⟩ := hmove.frame
  have hself : (s.ctxs.set j.ctx x')[j.ctx]? = some x' :=
    (getElem?_set_iff hx x').mpr (.inl ⟨rfl, rfl⟩)
  intro i hi
  rcases mem_or_eq_of_mem_set hi with hi | rfl
  · obtain ⟨y, hy, hs, hi'⟩ := h.jobs i hi
    by_cases hc : i.ctx = j.ctx
    · rw [hc] at hy ⊢
      rw [hx] at hy
      obtain rfl := Option.some.inj hy
      refine ⟨x', hself, hstage' ▸ hs, hi'.next (hmove.next hok) ?_⟩
      exact hmove.timed_eq.imp_right fun hpc => hdecided hpc i hi hc
    · exact ⟨y, (getElem?_set_iff hx x').mpr (.inr ⟨hc, hy⟩), hs, hi'⟩
  · rcases h.moves_self hj hx hmove hdecided with ⟨c, rest, hrole, rfl⟩ | ⟨_, hc, hok'⟩
    · have hrest := h.rest j (mem_of_getElem? hj) _ hrole c mem_cons_self
      obtain ⟨y, hy, hs, hp⟩ := hmove.closes hx hrest
      exact ⟨y, hy, hs, hp, ⟨nofun, nofun, nofun⟩, fun h => absurd rfl h⟩
    · rw [hc]
      exact ⟨x', hself, hstage' ▸ hstage, hok'⟩

theorem Inv.moves_rest : ∀ i ∈ s.jobs.set k j', ∀ rest, i.role = .close rest → ∀ c ∈ rest,
    ∃ y, (s.ctxs.set j.ctx x')[c]? = some y ∧ y.stage ≠ .created ∧ y.party = some .close := by
  have hmem := mem_of_getElem? hj
  intro i hi rest hrole c hc
  rcases mem_or_eq_of_mem_set hi with hi | rfl
  · exact hmove.closes hx (h.rest i hi rest hrole c hc)
  · rcases h.moves_self hj hx hmove hdecided with ⟨d, tail, hrole', rfl⟩ | ⟨hrole', _⟩
    · cases hrole
      exact hmove.closes hx (h.rest j hmem _ hrole' c (mem_cons_of_mem d hc))
    · exact hmove.closes hx (h.rest j hmem rest (hrole' ▸ hrole) c hc)

theorem Inv.moves_taken (hy : (s.ctxs.set j.ctx x')[c]? = some y)
    (hp : y.party = some (.response rsp)) :
    ∃ i ∈ s.jobs.set k j', i.ctx = c ∧ i.role = .response rsp := by
  have hbefore : ∃ i ∈ s.jobs, i.ctx = c ∧ i.role = .response rsp := by
    rcases (getElem?_set_iff hx x').mp hy with ⟨rfl, rfl⟩ | ⟨_, hy⟩
    · obtain ⟨_, _, hparty, _⟩ := hmove.frame
      exact h.taken _ x rsp hx (hparty ▸ hp)
    · exact h.taken c y rsp hy hp
  obtain ⟨i, hi, hctx, hrole⟩ := hbefore
  rcases (mem_iff_eraseIdx hj i).mp hi with rfl | hi
  · -- the response's own job stays with its context
    rcases h.moves_self hj hx hmove hdecided with ⟨_, _, hrole', _⟩ | ⟨hrole', hctx', _⟩
    · rw [hrole] at hrole'
      cases hrole'
    · exact ⟨j', (mem_set_iff_eraseIdx hj j' j').mpr (.inl rfl), hctx'.trans hctx,
        hrole'.trans hrole⟩
  · exact ⟨i, (mem_set_iff_eraseIdx hj j' i).mpr (.inr hi), hctx, hrole⟩

theorem Inv.moves_table {sn c : Nat}
    (hlookup : (if j.pc = .erase then s.table.erase x.sn else s.table).lookup sn = some c) :
    (∃ y, (s.ctxs.set j.ctx x')[c]? = some y ∧ y.sn = sn ∧ y.stage ≠ .created ∧ y.Free) ∧
      ∀ i ∈ s.jobs.set k j', i.ctx = c → i.pc = .erase := by
  have hmem := mem_of_getElem? hj
  have hbefore : s.table.lookup sn = some c ∧ (j.pc = .erase → sn ≠ x.sn) := by
    split at hlookup
    · have hne : sn ≠ x.sn := by
        rintro rfl
        rw [AList.lookup_erase] at hlookup
        cases hlookup
      rw [AList.lookup_erase_ne hne] at hlookup
      exact ⟨hlookup, fun _ => hne⟩
    · exact ⟨hlookup, fun hpc => absurd hpc ‹_›⟩
  obtain ⟨⟨y, hy, hysn, hrest⟩, hjobs⟩ := h.table sn c hbefore.1
  have hc : c ≠ j.ctx := by
    rintro rfl
    exact hbefore.2 (hjobs j hmem rfl) (h.registered hbefore.1 hx).1.symm
  refine ⟨⟨y, (getElem?_set_iff hx x').mpr (.inr ⟨hc, hy⟩), hysn, hrest⟩, fun i hi hctx => ?_⟩
  rcases mem_or_eq_of_mem_set hi with hi | rfl
  · exact hjobs i hi hctx
  · rcases h.moves_self hj hx hmove hdecided with ⟨d, rest, hrole, rfl⟩ | ⟨_, hctx', _⟩
    · -- a context that the close still has to come to is not in the table
      obtain rfl : d = c := hctx
      obtain ⟨z, hz, _, hp⟩ := h.rest j hmem _ hrole d mem_cons_self
      have hnone := (h.registered hbefore.1 hz).2.2.1
      rw [hp] at hnone
      cases hnone
    · exact absurd (hctx.symm.trans hctx') hc

theorem Inv.moves : Inv {
      ctxs := s.ctxs.set j.ctx x'
      table := if j.pc = .erase then s.table.erase x.sn else s.table
      jobs := s.jobs.set k j' } where
  ctxs := by
    intro c y hy
    rcases (getElem?_set_iff hx x').mp hy with ⟨rfl, rfl⟩ | ⟨_, hy⟩
    · exact hmove.ctx_ok (h.ok_at hj hx).2 (h.ctxs _ x hx)
    · exact h.ctxs c y hy
  jobs := h.moves_jobs hj hx hmove hdecided
  rest := h.moves_rest hj hx hmove hdecided
  taken := fun _ _ _ hy hp => h.moves_taken hj hx hmove hdecided hy hp
  table := fun _ _ hlookup => h.moves_table hj hx hmove hdecided hlookup
  fresh := by
    intro c y hy hs
    rcases (getElem?_set_iff hx x').mp hy with ⟨rfl, rfl⟩ | ⟨_, hy⟩
    · obtain ⟨_, hstage, _⟩ := hmove.frame
      exact absurd (hstage ▸ hs) (h.ok_at hj hx).1
    · exact h.fresh c y hy hs

end

theorem Steps.inv {t : State} (hs : Steps s a t) (h : Inv s) (hC : Settled s a) : Inv t := by
  cases hs with
  | stay => exact h
  | request => exact h.request _
  | addCtx hx hstage => exact h.addCtx hx hstage
  | goes hx hgoes => exact h.set hx hgoes.same (hgoes.outcome (h.ctxs _ _ hx))
  | fire hx hpending => exact h.fire hx hpending
  | doRecv => exact h.doRecv hC
  | innerClose horder => exact h.innerClose horder
  | job hj hx => exact h.moves hj hx (Job.step_moves _ _) fun hpc => hC _ hj hpc

/-- **The fiber of a request is scheduled at most once in every run,** and in a run where
every step is settled it reads one outcome. -/
theorem one_outcome (as : List Action) :
    Post (fun s => ∀ x ∈ s.ctxs, x.scheduled ≤ 1) (fun _ => False) (run exec as init) ∧
      (Along exec Settled as init → Post OneOutcome (fun _ => False) (run exec as init)) := by
  constructor
  · have hinit : WokenOnce init := ⟨by simp [init], fun _ _ => rfl⟩
    have hrun : Post WokenOnce (fun _ => False) (run exec as init) := by
      refine post_run_all (fun s a hs => ?_) as init hinit
      exact (step_steps s a).wokenOnce hs
    refine hrun.imp (fun s hs x hx => ?_)
    obtain ⟨c, hc⟩ := mem_iff_getElem?.mp hx
    have hle := hs.once c x hc
    unfold Ctx.wakeUps at hle
    omega
  · intro h
    have hinit : Inv init := by constructor <;> simp [init]
    have hrun : Post Inv (fun _ => False) (run exec as init) := by
      refine post_run (fun s a hs hC => ?_) as init h hinit
      exact (step_steps s a).inv hs hC
    refine hrun.imp (fun s hs p hp => ?_)
    exact (hs.ctxs p.2 p.1 (mem_zipIdx_iff_getElem?.mp hp)).outcome

def answeredInTime : List Action :=
  [.request 5, .addCtx 0, .addTimer 0, .storeTimer 0, .yieldToHold 0, .fire 0,
    .doRecv ⟨5, 7, some 0⟩, .job 1, .job 1, .job 1, .job 1, .job 1, .job 1, .job 0, .job 0,
    .job 0, .job 0, .job 1, .resume 0]

theorem one_outcome_in_time : Along exec Settled answeredInTime init ∧
      Post OneOutcome (fun _ => False) (run exec answeredInTime init) :=
  ⟨by decide, (one_outcome answeredInTime).2 (by decide)⟩

/-- The timer has fired when the response takes the context: the fiber reads `TIMEOUT` beside the
response. -/
theorem timeout_spoils_response :
    Post (fun s => ¬ OneOutcome s ∧ s.ctxs.map Ctx.outcome = [some (TIMEOUT, some ⟨5, 7, some 0⟩)])
      (fun _ => False)
      (run exec [.request 5, .addCtx 0, .addTimer 0, .storeTimer 0, .yieldToHold 0, .fire 0,
          .doRecv ⟨5, 7, some 0⟩, .job 0, .job 1, .job 1, .job 0, .job 1, .job 1, .job 1, .job 1,
          .job 1, .job 1, .resume 0] init) := by
  decide

end Helens.RockStream
