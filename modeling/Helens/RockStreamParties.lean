import Helens.RockStreamWakeups

/-! The parties at work on a request. A response writes `result` and `response` before its `doRsp`,
while a timeout may set `timed`, and whoever wins the compare-and-swap overwrites `result` when it
sees `timed`. -/

namespace Helens.RockStream

open Lib.Runs

/-! ## One outcome -/

def Failed (result : Int) : Prop := result = TIMEOUT ∨ result = IO_ERROR

theorem Failed.ne_zero (h : Failed result) : result ≠ 0 := by
  rcases h with rfl | rfl <;> decide

/-- What a fiber reads behind `YieldToHold`: its own response and that response's
result, or a failure and no response. -/
def Coherent (c : Nat) (sn : Nat) : Int × Option Response → Prop
  | (result, some rsp) => rsp.request = some c ∧ rsp.sn = sn ∧ result = rsp.result
  | (result, none) => result = TIMEOUT ∨ result = IO_ERROR

instance (c sn : Nat) : (o : Int × Option Response) → Decidable (Coherent c sn o)
  | (result, some rsp) =>
    inferInstanceAs (Decidable (_ ∧ _))
  | (result, none) => inferInstanceAs (Decidable (_ ∨ _))

def OneOutcome (s : State) : Prop :=
  ∀ p ∈ s.ctxs.zipIdx, ∀ o ∈ p.1.outcome, Coherent p.2 p.1.sn o

instance : DecidablePred OneOutcome := fun s =>
  inferInstanceAs (Decidable (∀ p ∈ s.ctxs.zipIdx, _))

def Role.isResponse : Role → Bool
  | .response _ => true
  | _ => false

/-- A response is for its own request, and no timeout sets `timed` while a response that has taken
the context is in `doRsp`. -/
def Settled (s : State) : Action → Prop
  | .doRecv rsp => ∀ c ∈ s.table.lookup rsp.sn, rsp.request = some c
  | .job k =>
    ∀ j ∈ s.jobs[k]?, j.pc = .timed → ∀ i ∈ s.jobs, i.ctx = j.ctx → i.role.isResponse = true →
      i.pc = .schedule ∨ i.pc = .done
  | _ => True

instance (s : State) : (a : Action) → Decidable (Settled s a)
  | .doRecv rsp =>
    inferInstanceAs (Decidable (∀ c ∈ s.table.lookup rsp.sn, _))
  | .job k =>
    inferInstanceAs (Decidable (∀ j ∈ s.jobs[k]?, _))
  | .request _ | .addCtx _ | .addTimer _ | .storeTimer _ | .yieldToHold _ | .fire _
  | .innerClose _ | .resume _ => inferInstanceAs (Decidable True)

/-! ## What holds of the parties -/

def Party.answer : Option Party → Option Response
  | some (.response rsp) => some rsp
  | _ => none

def Ctx.answer (x : Ctx) : Option Response := Party.answer x.party

variable {x : Ctx}

theorem Ctx.answer_of_party {party : Option Party} (h : x.party = party) :
    x.answer = Party.answer party := by
  rw [Ctx.answer, h]

/-- A response that has the context: what it has written stays, and nobody has set
`timed` before it decides. -/
structure RspOk (rsp : Response) (x : Ctx) (pc : Pc) : Prop where
  party : x.party = some (.response rsp)
  place : pc ≠ .erase ∧ pc ≠ .timed ∧ pc ≠ .write
  result : pc ≠ .result → x.result = rsp.result
  response : pc ≠ .result → pc ≠ .response → x.response = some rsp
  timed : pc ≠ .schedule → pc ≠ .done → x.timed = false
  past : pc.past = true ∨ pc = .swap false → x.scheduler = false

/-- A timeout that has set `timed`: a response that has the context is past its
compare-and-swap, so the timeout loses its own. -/
structure TimeoutOk (x : Ctx) (pc : Pc) : Prop where
  place : pc ≠ .result ∧ pc ≠ .response
  timed : pc ≠ .erase → pc ≠ .timed → x.timed = true
  answer : x.answer ≠ none → pc ≠ .erase → pc ≠ .timed →
    x.scheduler = false ∧ pc.won = false ∧ pc ≠ .swap true
  result : pc = .schedule → x.result ≠ 0

structure CloseOk (x : Ctx) (pc : Pc) : Prop where
  party : x.party = some .close
  place : pc ≠ .erase ∧ pc ≠ .timed ∧ pc ≠ .response
  result : pc ≠ .result → x.result ≠ 0

def Job.Ok (j : Job) (x : Ctx) : Prop :=
  match j.role with
  | .response rsp => RspOk rsp x j.pc
  | .timeout => TimeoutOk x j.pc
  | .close _ => CloseOk x j.pc

structure Ctx.Ok (c : Nat) (x : Ctx) : Prop where
  answer : ∀ rsp, x.answer = some rsp → rsp.request = some c ∧ rsp.sn = x.sn ∧
    (0 < x.scheduled → x.response = some rsp ∧ x.result = rsp.result)
  failed : x.answer = none → x.response = none ∧ (x.result = 0 ∨ Failed x.result) ∧
    (0 < x.scheduled → x.result ≠ 0)
  outcome : ∀ o ∈ x.outcome, Coherent c x.sn o

/-- What a job may do to a context, for the other jobs at work on it. -/
structure Ctx.Next (x x' : Ctx) : Prop where
  party : x'.party = x.party
  scheduler : x.scheduler = false → x'.scheduler = false
  timed : x.timed = true → x'.timed = true
  result : x'.result = x.result ∨ (∃ rsp, x.answer = some rsp ∧ x'.result = rsp.result) ∨
    (x.answer = none ∧ Failed x'.result)
  response : x'.response = x.response ∨ ∃ rsp, x.answer = some rsp ∧ x'.response = some rsp

variable {x x' : Ctx} {j j' : Job} {c : Nat} {r : Role} {pc pc' : Pc}

theorem Ctx.Next.answer (h : x.Next x') : x'.answer = x.answer := by
  unfold Ctx.answer
  rw [h.party]

theorem Ctx.Next.keeps_result (h : x.Next x') (hanswer : x.answer = some rsp)
    (hresult : x.result = rsp.result) : x'.result = rsp.result := by
  rcases h.result with hr | ⟨r, hr, hres⟩ | ⟨hr, _⟩
  · rw [hr, hresult]
  · rw [hanswer] at hr
    rw [hres, Option.some.inj hr]
  · rw [hanswer] at hr
    cases hr

theorem Ctx.Next.keeps_response (h : x.Next x') (hanswer : x.answer = some rsp)
    (hresponse : x.response = some rsp) : x'.response = some rsp := by
  rcases h.response with hr | ⟨r, hr, hres⟩
  · rw [hr, hresponse]
  · rw [hanswer] at hr
    rw [hres, Option.some.inj hr]

theorem Ctx.Next.keeps_failed (h : x.Next x') (hanswer : x.answer = none) :
    x'.response = x.response ∧ (x'.result = x.result ∨ Failed x'.result) := by
  constructor
  · rcases h.response with hr | ⟨r, hr, _⟩
    · exact hr
    · rw [hanswer] at hr
      cases hr
  · rcases h.result with hr | ⟨r, hr, _⟩ | ⟨_, hr⟩
    · exact .inl hr
    · rw [hanswer] at hr
      cases hr
    · exact .inr hr

theorem Ctx.Next.ne_zero (h : x.Next x') (hanswer : x.answer = none)
    (hresult : x.result ≠ 0) : x'.result ≠ 0 := by
  rcases (h.keeps_failed hanswer).2 with hr | hr
  · rw [hr]
    exact hresult
  · exact hr.ne_zero

theorem Job.Ok.next {j : Job} (h : j.Ok x) (hnext : x.Next x')
    (htimed : x'.timed = x.timed ∨ (j.role.isResponse = true → j.pc = .schedule ∨ j.pc = .done)) :
    j.Ok x' := by
  obtain ⟨role, c, pc⟩ := j
  cases role with
  | response rsp =>
    have hanswer := Ctx.answer_of_party (RspOk.party h)
    refine ⟨hnext.party.trans h.party, h.place, ?_, ?_, ?_, ?_⟩
    · exact fun hpc => hnext.keeps_result hanswer (RspOk.result h hpc)
    · exact fun h₁ h₂ => hnext.keeps_response hanswer (RspOk.response h h₁ h₂)
    · intro h₁ h₂
      rcases htimed with hsame | hdecided
      · rw [hsame]
        exact RspOk.timed h h₁ h₂
      · rcases hdecided rfl with hpc | hpc
        · exact absurd hpc h₁
        · exact absurd hpc h₂
    · exact fun hpc => hnext.scheduler (RspOk.past h hpc)
  | timeout =>
    refine ⟨h.place, ?_, ?_, ?_⟩
    · exact fun h₁ h₂ => hnext.timed (TimeoutOk.timed h h₁ h₂)
    · intro hanswer h₁ h₂
      rw [hnext.answer] at hanswer
      obtain ⟨hs, hrest⟩ := TimeoutOk.answer h hanswer h₁ h₂
      exact ⟨hnext.scheduler hs, hrest⟩
    · intro hpc
      refine hnext.ne_zero ?_ (TimeoutOk.result h hpc)
      -- a timeout that has won did so because no response had the context
      by_contra hanswer
      have hpc' : pc = .schedule := hpc
      subst hpc'
      cases (TimeoutOk.answer h hanswer nofun nofun).2.1
  | close rest =>
    have hanswer := Ctx.answer_of_party (CloseOk.party h)
    exact ⟨hnext.party.trans h.party, h.place,
      fun hpc => hnext.ne_zero hanswer (CloseOk.result h hpc)⟩

theorem Job.Ok.of_erase {j : Job} (h : j.Ok x) (hpc : j.pc = .erase) (x') : j.Ok x' := by
  obtain ⟨role, c, pc⟩ := j
  obtain rfl : pc = .erase := hpc
  cases role with
  | response rsp => exact absurd rfl (RspOk.place h).1
  | timeout => exact ⟨h.place, fun h _ => absurd rfl h, fun _ h => absurd rfl h, nofun⟩
  | close rest => exact absurd rfl (CloseOk.place h).1

theorem Moves.timed_eq (h : Moves j x j' x') : x'.timed = x.timed ∨ j.pc = .timed := by
  cases h with
  | timed => exact .inr rfl
  | _ => exact .inl rfl

theorem Moves.scheduled_eq (h : Moves j x j' x') : x'.scheduled = x.scheduled ∨
      j.pc = .schedule ∧ x'.result = x.result ∧ x'.response = x.response := by
  cases h with
  | schedule => exact .inr ⟨rfl, rfl, rfl⟩
  | _ => exact .inl rfl

theorem Job.Ok.answer_none {pc : Pc} (h : Job.Ok ⟨r, c, pc⟩ x)
    (hpc : pc = .write ∨ pc = .result ∧ ∀ rsp, r ≠ .response rsp) : x.answer = none := by
  cases r with
  | response rsp =>
    rcases hpc with rfl | ⟨_, hr⟩
    · exact absurd rfl (RspOk.place h).2.2
    · exact absurd rfl (hr rsp)
  | timeout =>
    rcases hpc with rfl | ⟨rfl, _⟩
    · by_contra hanswer
      cases (TimeoutOk.answer h hanswer nofun nofun).2.1
    · exact absurd rfl (TimeoutOk.place h).1
  | close rest => exact Ctx.answer_of_party (CloseOk.party h)

theorem Moves.next (h : Moves j x j' x') (hok : j.Ok x) : x.Next x' := by
  cases h with
  | timed => exact ⟨rfl, id, fun _ => rfl, .inl rfl, .inl rfl⟩
  | result =>
    have hanswer := Ctx.answer_of_party (RspOk.party hok)
    exact ⟨rfl, id, id, .inr (.inl ⟨_, hanswer, rfl⟩), .inl rfl⟩
  | ioError hr =>
    have hanswer := hok.answer_none (.inr ⟨rfl, hr⟩)
    exact ⟨rfl, id, id, .inr (.inr ⟨hanswer, .inr rfl⟩), .inl rfl⟩
  | response =>
    have hanswer := Ctx.answer_of_party (RspOk.party hok)
    exact ⟨rfl, id, id, .inl rfl, .inr ⟨_, hanswer, rfl⟩⟩
  | win | nothing => exact ⟨rfl, fun _ => rfl, id, .inl rfl, .inl rfl⟩
  | write =>
    have hanswer := hok.answer_none (.inl rfl)
    exact ⟨rfl, id, id, .inr (.inr ⟨hanswer, .inl rfl⟩), .inl rfl⟩
  | _ => exact ⟨rfl, id, id, .inl rfl, .inl rfl⟩

theorem Job.Ok.schedule {j : Job} (h : j.Ok x) (hpc : j.pc = .schedule) :
    (∀ rsp, x.answer = some rsp → x.response = some rsp ∧ x.result = rsp.result) ∧
      (x.answer = none → x.result ≠ 0) := by
  obtain ⟨role, c, pc⟩ := j
  obtain rfl : pc = .schedule := hpc
  cases role with
  | response r =>
    have hanswer : x.answer = some r := Ctx.answer_of_party (RspOk.party h)
    rw [hanswer]
    refine ⟨?_, nofun⟩
    rintro rsp ⟨⟩
    exact ⟨RspOk.response h nofun nofun, RspOk.result h nofun⟩
  | timeout =>
    refine ⟨?_, fun _ => TimeoutOk.result h rfl⟩
    intro rsp hanswer
    have hsome : x.answer ≠ none := by
      rw [hanswer]
      nofun
    cases (TimeoutOk.answer h hsome nofun nofun).2.1
  | close rest =>
    have hanswer : x.answer = none := Ctx.answer_of_party (CloseOk.party h)
    rw [hanswer]
    exact ⟨nofun, fun _ => CloseOk.result h nofun⟩

theorem Moves.ctx_ok (h : Moves j x j' x') (hok : j.Ok x) (hx : x.Ok c) : x'.Ok c := by
  have hnext := h.next hok
  obtain ⟨hsn, _, _, houtcome⟩ := h.frame
  refine ⟨?_, ?_, ?_⟩
  · intro rsp hanswer
    rw [hnext.answer] at hanswer
    obtain ⟨hrequest, hnumber, hscheduled⟩ := hx.answer rsp hanswer
    refine ⟨hrequest, hsn ▸ hnumber, fun hpos => ?_⟩
    rcases h.scheduled_eq with hsame | ⟨hpc, hresult, hresponse⟩
    · obtain ⟨h₁, h₂⟩ := hscheduled (hsame ▸ hpos)
      exact ⟨hnext.keeps_response hanswer h₁, hnext.keeps_result hanswer h₂⟩
    · rw [hresult, hresponse]
      exact (hok.schedule hpc).1 rsp hanswer
  · intro hanswer
    rw [hnext.answer] at hanswer
    obtain ⟨hresponse, hresult, hscheduled⟩ := hx.failed hanswer
    obtain ⟨hkeep, hfailed⟩ := hnext.keeps_failed hanswer
    refine ⟨hkeep.trans hresponse, ?_, fun hpos => ?_⟩
    · rcases hfailed with hsame | hnew
      · rw [hsame]
        exact hresult
      · exact .inr hnew
    · rcases h.scheduled_eq with hsame | ⟨hpc, hsame, _⟩
      · exact hnext.ne_zero hanswer (hscheduled (hsame ▸ hpos))
      · rw [hsame]
        exact (hok.schedule hpc).2 hanswer
  · rw [houtcome, hsn]
    exact hx.outcome

theorem RspOk.advance (h : RspOk rsp x pc)
    (hpc : pc ≠ .result ∧ pc ≠ .response) (hplace : pc' ≠ .erase ∧ pc' ≠ .timed ∧ pc' ≠ .write)
    (htimed : pc' ≠ .schedule → pc' ≠ .done → pc ≠ .schedule ∧ pc ≠ .done)
    (hpast : pc'.past = true ∨ pc' = .swap false → x.scheduler = false) : RspOk rsp x pc' where
  party := h.party
  place := hplace
  result := fun _ => h.result hpc.1
  response := fun _ _ => h.response hpc.1 hpc.2
  timed := fun h₁ h₂ => h.timed (htimed h₁ h₂).1 (htimed h₁ h₂).2
  past := hpast

theorem TimeoutOk.advance (h : TimeoutOk x pc) (hpc : pc ≠ .erase ∧ pc ≠ .timed)
    (hplace : pc' ≠ .result ∧ pc' ≠ .response)
    (hanswer : x.answer ≠ none → pc.won = false → x.scheduler = false → pc ≠ .swap true →
      pc'.won = false ∧ pc' ≠ .swap true)
    (hresult : pc' = .schedule → x.result ≠ 0) : TimeoutOk x pc' where
  place := hplace
  timed := fun _ _ => h.timed hpc.1 hpc.2
  answer := fun ha _ _ =>
    have ⟨hs, hwon, hswap⟩ := h.answer ha hpc.1 hpc.2
    ⟨hs, hanswer ha hwon hs hswap⟩
  result := hresult

theorem CloseOk.advance (h : CloseOk x pc) (hpc : pc ≠ .result)
    (hplace : pc' ≠ .erase ∧ pc' ≠ .timed ∧ pc' ≠ .response) : CloseOk x pc' where
  party := h.party
  place := hplace
  result := fun _ => h.result hpc

theorem Job.Ok.done {pc : Pc} (h : Job.Ok ⟨r, c, pc⟩ x)
    (hpc : pc.past = true ∨ ∃ scd, pc = .swap scd)
    (hpast : r.isResponse = true → x.scheduler = false) : Job.Ok ⟨r, c, .done⟩ x := by
  have hplace : pc ≠ .erase ∧ pc ≠ .timed ∧ pc ≠ .result ∧ pc ≠ .response := by
    rcases hpc with hpc | ⟨scd, rfl⟩
    · refine ⟨?_, ?_, ?_, ?_⟩ <;> rintro rfl <;> cases hpc
    · exact ⟨nofun, nofun, nofun, nofun⟩
  obtain ⟨herase, htimed, hresult, hresponse⟩ := hplace
  cases r with
  | response rsp =>
    exact RspOk.advance h ⟨hresult, hresponse⟩ ⟨nofun, nofun, nofun⟩ (fun _ h => absurd rfl h)
      fun _ => hpast rfl
  | timeout =>
    exact TimeoutOk.advance h ⟨herase, htimed⟩ ⟨nofun, nofun⟩ (fun _ _ _ _ => ⟨rfl, nofun⟩) nofun
  | close rest => exact CloseOk.advance h hresult ⟨nofun, nofun, nofun⟩

/-- A job leaves `doRsp` for the next context of its close, or for good. -/
theorem Job.Ok.leave {pc : Pc} (h : Job.Ok ⟨r, c, pc⟩ x)
    (hpc : pc.past = true ∨ ∃ scd, pc = .swap scd)
    (hpast : r.isResponse = true → x.scheduler = false) :
    (∃ d rest, r = .close (d :: rest) ∧ Job.leave ⟨r, c, pc⟩ = ⟨.close rest, d, .result⟩) ∨
      ((Job.leave ⟨r, c, pc⟩).role = r ∧ (Job.leave ⟨r, c, pc⟩).ctx = c ∧
        (Job.leave ⟨r, c, pc⟩).Ok x) := by
  unfold Job.leave
  split
  · rename_i d rest hrole
    exact .inl ⟨d, rest, hrole, rfl⟩
  · exact .inr ⟨rfl, rfl, h.done hpc hpast⟩

theorem Pc.place_won {pc : Pc} (h : pc.won = true) : pc ≠ .erase ∧ pc ≠ .timed ∧
    pc ≠ .result ∧ pc ≠ .response ∧ pc ≠ .done ∧ pc.past = true := by
  cases pc <;> simp_all [Pc.won, Pc.past]

theorem Job.Ok.won (h : Job.Ok ⟨r, c, pc⟩ x) (hpc : pc.won = true)
    (hpc' : pc'.won = true) (hrsp : r.isResponse = true → pc' ≠ .write)
    (htimed : pc = .schedule → pc' = .schedule)
    (hresult : r = .timeout → pc' = .schedule → x.result ≠ 0) : Job.Ok ⟨r, c, pc'⟩ x := by
  obtain ⟨herase, hmark, hres, hresponse, hdone, hpast⟩ := Pc.place_won hpc
  obtain ⟨herase', hmark', hres', hresponse', hdone', _⟩ := Pc.place_won hpc'
  cases r with
  | response rsp =>
    exact RspOk.advance h ⟨hres, hresponse⟩ ⟨herase', hmark', hrsp rfl⟩
      (fun h₁ _ => ⟨fun heq => h₁ (htimed heq), hdone⟩) fun _ => RspOk.past h (.inl hpast)
  | timeout =>
    refine TimeoutOk.advance h ⟨herase, hmark⟩ ⟨hres', hresponse'⟩ ?_ (hresult rfl)
    intro _ hlost
    change pc.won = false at hlost
    rw [hpc] at hlost
    cases hlost
  | close rest => exact CloseOk.advance h hres ⟨herase', hmark', hresponse'⟩

theorem Moves.ok (h : Moves j x j' x') (hok : j.Ok x)
    (hlost : j.pc = .timed → x.answer ≠ none → x.scheduler = false) :
    (∃ c rest, j.role = .close (c :: rest) ∧ j' = ⟨.close rest, c, .result⟩) ∨
      (j'.role = j.role ∧ j'.ctx = j.ctx ∧ j'.Ok x') := by
  have hkeep : x'.timed = x.timed → j.Ok x' := fun ht => hok.next (h.next hok) (.inl ht)
  cases h with
  | stay => exact .inr ⟨rfl, rfl, hok⟩
  | @nothing r c _ scd _ => exact (hkeep rfl).leave (.inr ⟨scd, rfl⟩) fun _ => rfl
  | @lose r c _ scd hscd =>
    refine hok.leave (.inr ⟨scd, rfl⟩) fun hrole => ?_
    cases r with
    | response rsp =>
      cases scd with
      | true => simpa using hscd
      | false => exact RspOk.past hok (.inr rfl)
    | timeout | close => cases hrole
  | @schedule r c _ =>
    refine (hkeep rfl).leave (.inl rfl) fun hrole => ?_
    cases r with
    | response rsp => exact RspOk.past (hkeep rfl) (.inl rfl)
    | timeout | close => cases hrole
  | @erase r =>
    refine .inr ⟨rfl, rfl, ?_⟩
    cases r with
    | response rsp => exact absurd rfl (RspOk.place hok).1
    | timeout => exact ⟨⟨nofun, nofun⟩, fun _ h => absurd rfl h, fun _ _ h => absurd rfl h, nofun⟩
    | close rest => exact absurd rfl (CloseOk.place hok).1
  | @timed r =>
    refine .inr ⟨rfl, rfl, ?_⟩
    cases r with
    | response rsp => exact absurd rfl (RspOk.place hok).2.1
    | timeout =>
      exact ⟨⟨nofun, nofun⟩, fun _ _ => rfl, fun ha _ _ => ⟨hlost rfl ha, rfl, nofun⟩, nofun⟩
    | close rest => exact absurd rfl (CloseOk.place hok).2.1
  | result =>
    have hbefore : RspOk _ _ Pc.result := hkeep rfl
    exact .inr ⟨rfl, rfl, hbefore.party, ⟨nofun, nofun, nofun⟩, fun _ => rfl,
      fun _ h => absurd rfl h, fun _ _ => hbefore.timed nofun nofun, by simp [Pc.past]⟩
  | @ioError r _ _ hr =>
    refine .inr ⟨rfl, rfl, ?_⟩
    cases r with
    | response rsp => exact absurd rfl (hr rsp)
    | timeout => exact absurd rfl (TimeoutOk.place hok).1
    | close rest => exact ⟨hok.party, ⟨nofun, nofun, nofun⟩, fun _ => Failed.ne_zero (.inr rfl)⟩
  | response =>
    have hbefore : RspOk _ _ Pc.response := hkeep rfl
    exact .inr ⟨rfl, rfl, hbefore.party, ⟨nofun, nofun, nofun⟩, fun _ => hbefore.result nofun,
      fun _ _ => rfl, fun _ _ => hbefore.timed nofun nofun, by simp [Pc.past]⟩
  | @load r _ _ =>
    refine .inr ⟨rfl, rfl, ?_⟩
    cases r with
    | response rsp =>
      exact RspOk.advance hok ⟨nofun, nofun⟩ ⟨nofun, nofun, nofun⟩ (fun _ _ => ⟨nofun, nofun⟩)
        (by simp [Pc.past])
    | timeout =>
      refine TimeoutOk.advance hok ⟨nofun, nofun⟩ ⟨nofun, nofun⟩ ?_ nofun
      exact fun _ _ hs _ => ⟨rfl, by simp [hs]⟩
    | close rest => exact CloseOk.advance hok nofun ⟨nofun, nofun, nofun⟩
  | @win r _ _ _ =>
    refine .inr ⟨rfl, rfl, ?_⟩
    cases r with
    | response rsp =>
      exact RspOk.advance (hkeep rfl) ⟨nofun, nofun⟩ ⟨nofun, nofun, nofun⟩
        (fun _ _ => ⟨nofun, nofun⟩) fun _ => rfl
    | timeout =>
      refine TimeoutOk.advance (hkeep rfl) ⟨nofun, nofun⟩ ⟨nofun, nofun⟩ ?_ nofun
      exact fun _ _ _ hswap => absurd rfl hswap
    | close rest => exact CloseOk.advance (hkeep rfl) nofun ⟨nofun, nofun, nofun⟩
  | cancel | noTimer => exact .inr ⟨rfl, rfl, (hkeep rfl).won rfl rfl nofun nofun nofun⟩
  | @late r _ _ ht =>
    refine .inr ⟨rfl, rfl, (hkeep rfl).won rfl rfl (fun hrole => ?_) nofun nofun⟩
    -- a response that has the context has not seen `timed`
    cases r with
    | response rsp =>
      have hf := RspOk.timed hok nofun nofun
      rw [ht] at hf
      cases hf
    | timeout | close => cases hrole
  | check ht =>
    refine .inr ⟨rfl, rfl, (hkeep rfl).won rfl rfl nofun nofun ?_⟩
    rintro rfl _
    have hf := TimeoutOk.timed hok nofun nofun
    rw [ht] at hf
    cases hf
  | write =>
    exact .inr ⟨rfl, rfl, (hkeep rfl).won rfl rfl nofun nofun
      fun _ _ => Failed.ne_zero (.inl rfl)⟩

end Helens.RockStream
