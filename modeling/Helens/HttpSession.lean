import Helens.HttpParser

/-! `HttpSession::recvRequest` of `http/http_session.cc`, and when the requests
that were sent over one connection come out of it again. -/

namespace Helens.HttpSession

open List
open Lib.Blocks Lib.StateError Lib.Segments Lib.Scanner Http Http11 Helens.Stream

/-! ## `http_session.cc` -/

def recvHead (buffSize : Nat) (relaxed : Bool) :
    Nat → Parser → List UInt8 → Net (Option (Parser × List UInt8)) :=
  (httpParser relaxed).recvHead (execute relaxed) buffSize

def recvBody (lib : Library) (parser : Parser) (rest : List UInt8) :
    Net (Option HttpRequest) := do
  let length := toInt64 (getContentLength lib parser)
  match ← recvFixed lib length rest with
  | none => return none
  | some body =>
    let request := if length > 0 then { parser.data.request with body := body }
      else parser.data.request
    return some request.init

def recvRequest (lib : Library) (buffSize : Nat) (m : Memory) : Net (Option HttpRequest) := do
  let c ← get
  match ← recvHead buffSize m.uriRelaxed (c.inbox.flatten.length + 1) (httpParserInit m) [] with
  | none => return none
  | some (parser, rest) => recvBody lib parser rest

def recvRequests (lib : Library) (buffSize : Nat) : List Memory → Net (List (Option HttpRequest))
  | [] => return []
  | m :: ms => do
    let r ← recvRequest lib buffSize m
    let rs ← recvRequests lib buffSize ms
    return r :: rs

/-! ## Requests on the wire -/

def readHead (head : List UInt8) : Option (Parse Nat Reg Data) :=
  parse (machine false) head head 0 ⟨httpParserStart, fun _ => none, {}, []⟩

/-- A request on the wire: a header block that the automaton accepts and whose
callbacks report no error, and a body as long as the headers say. -/
structure Request (lib : Library) where
  head : List UInt8
  body : List UInt8
  parsed : Parse Nat Reg Data
  accepted : readHead head = some parsed
  valid : parsed.data.error = 0
  length : getAs lib parsed.data.request.headers (ascii "content-length") 0 = body.length
  fits : body.length < 2 ^ 63
  fits_string : body.length ≤ lib.maxSize

variable {lib : Library}

def Request.bytes (r : Request lib) : List UInt8 := r.head ++ r.body

def Request.request (r : Request lib) : HttpRequest :=
  { r.parsed.data.request with body := r.body }.init

/-! ## Reads -/

/-- A read for the header block at position `o` does not go beyond the body, and what it leaves of
it fits an `int`. -/
def StaysInside (o : Nat) (r : Request lib) (e : Nat) : Prop :=
  o + r.head.length ≤ e → e ≤ o + r.bytes.length ∧
    (e < o + r.bytes.length → 0 < toInt32 (o + r.bytes.length - e : Nat))
  deriving Decidable

def ReadsWell (buffSize : Nat) (segs : List (List UInt8)) (o : Nat) (r : Request lib) : Prop :=
  ∀ e ∈ readEnds buffSize segs (o + r.head.length) r.head.length o,
    EndsWell buffSize o r.head.length r.parsed.tokens e ∧ StaysInside o r e
  deriving Decidable

def AllReadWell (buffSize : Nat) (segs : List (List UInt8)) : Nat → List (Request lib) → Prop
  | _, [] => True
  | o, r :: rs =>
    ReadsWell buffSize segs o r ∧ AllReadWell buffSize segs (o + r.bytes.length) rs

/-! ## The header block -/

theorem Request.parse_head (r : Request lib) (relaxed) :
    parse (httpParser relaxed).machine r.head r.head 0 ⟨httpParserStart, fun _ => none, {}, []⟩ =
      some r.parsed :=
  parse_mono (M := machine false) (fun _ _ _ he => step_relaxed relaxed he) r.accepted

theorem Request.parsed_body (r : Request lib) : r.parsed.data.request.body = [] :=
  parse_data (P := fun d => d.request.body = [])
    (fun cb texts b d hd => (handle_body cb texts b d).trans hd) r.accepted rfl

theorem Request.final (r : Request lib) : decide (httpParserFirstFinal ≤ r.parsed.cs) = true := by
  obtain ⟨cs, b, e, he, hstop, hcs⟩ := parse_target r.accepted
  rw [hcs, ← (step_target he).2, hstop]

theorem StaysInside.split
    (h : StaysInside o r (o + r.head.length + z.length)) (hbody : r.body ++ more = z ++ w) :
    ∃ w', r.body = z ++ w' ∧ (w' ≠ [] → 0 < toInt32 w'.length) := by
  obtain ⟨hle, hleft⟩ := h (Nat.le_add_right _ _)
  rw [Request.bytes, length_append] at hle hleft
  obtain ⟨w', hw'⟩ := head_extends hbody (by omega)
  refine ⟨w', hw', fun hne => ?_⟩
  have hlen := congrArg List.length hw'
  rw [length_append] at hlen
  have hpos := length_pos_iff.mpr hne
  have hsub : o + (r.head.length + r.body.length) - (o + r.head.length + z.length) = w'.length := by
    omega
  rw [hsub] at hleft
  exact hleft (by omega)

/-! ## Whole requests -/

theorem recvBody_eq {segs : List (List UInt8)} {k : Nat} {p : Parser} {r : Request lib}
    {z w more : List UInt8} {c : Conn} (hc : Delivered segs k c)
    (hs : segs.flatten.drop k = w ++ more) (hd : p.data = r.parsed.data) (hbody : r.body = z ++ w)
    (hw : w ≠ [] → 0 < toInt32 w.length) :
    ∃ c', (recvBody lib p z).run c = .ok (some r.request) c' ∧
      Delivered segs (k + w.length) c' := by
  have hlen : toInt64 (getContentLength lib p) = r.body.length := by
    rw [getContentLength, hd, r.length, toInt64_of_lt r.fits]
  obtain ⟨c', hrun, hc'⟩ := recvFixed_eq hc hs hbody r.fits r.fits_string hw
  -- without a body the field keeps its default
  have hset : (if (r.body.length : Int) > 0 then { r.parsed.data.request with body := r.body }
      else r.parsed.data.request) = { r.parsed.data.request with body := r.body } := by
    split
    · rfl
    · have hnil : r.body = [] := length_eq_zero_iff.mp (by omega)
      rw [hnil, ← r.parsed_body]
  refine ⟨c', ?_, hc'⟩
  rw [recvBody]
  dsimp only
  rw [hlen, run_bind_ok hrun, hd]
  dsimp only
  rw [hset]
  rfl

theorem recvRequest_run (h : (recvHead buffSize m.uriRelaxed (c.inbox.flatten.length + 1)
    (httpParserInit m) []).run c = .ok (some (p, rest)) c₁) (lib) :
    (recvRequest lib buffSize m).run c = (recvBody lib p rest).run c₁ := by
  rw [recvRequest, EStateM.run_bind, EStateM.run_get]
  dsimp only
  rw [run_bind_ok h]

theorem recvRequest_eq {r : Request lib} (m) (hs : segs.flatten.drop o = r.bytes ++ more)
    (hw : ReadsWell buffSize segs o r) (hc : Delivered segs o c) :
    ∃ c', (recvRequest lib buffSize m).run c = .ok (some r.request) c' ∧
      Delivered segs (o + r.bytes.length) c' := by
  have hs' : segs.flatten.drop o = r.head ++ (r.body ++ more) := by
    rw [hs, Request.bytes, append_assoc]
  obtain ⟨_, p, z, w, c₁, hrun, hc₁, hd, hbody, _, hmem⟩ :=
    Automaton.recvHead_whole (p := httpParserInit m) (execute_of_ne_nil m.uriRelaxed) hs'
      (r.parse_head m.uriRelaxed) r.valid r.final
      (by decide : httpParserStart ≠ 0 ∧ decide (httpParserFirstFinal ≤ httpParserStart) = false)
      rfl rfl hc fun e he => (hw e he).1
  obtain ⟨w, hbody, hpos⟩ := (hw _ hmem).2.split hbody
  have hs₁ : segs.flatten.drop (o + r.head.length + z.length) = w ++ more := by
    rw [← drop_drop, ← drop_drop, hs, Request.bytes, append_assoc, drop_left,
      hbody, append_assoc, drop_left]
  obtain ⟨c₂, hrun₂, hc₂⟩ := recvBody_eq hc₁ hs₁ hd hbody hpos
  refine ⟨c₂, (recvRequest_run hrun lib).trans hrun₂, ?_⟩
  · have hat : o + r.head.length + z.length + w.length = o + r.bytes.length := by
      rw [Request.bytes, hbody]
      simp only [length_append]
      omega
    rw [← hat]
    exact hc₂

theorem recvRequests_eq {buffSize : Nat} {segs : List (List UInt8)}
    {sent : List (Memory × Request lib)} {o : Nat} {c : Conn}
    (hs : segs.flatten.drop o = sent.flatMap fun s => s.2.bytes)
    (hw : AllReadWell buffSize segs o (sent.map Prod.snd)) (hc : Delivered segs o c) :
    ∃ c', (recvRequests lib buffSize (sent.map Prod.fst)).run c =
      .ok (sent.map fun s => some s.2.request) c' := by
  induction sent generalizing o c with
  | nil => exact ⟨c, rfl⟩
  | cons s sent ih =>
    rw [flatMap_cons] at hs
    obtain ⟨c₁, hrun, hc₁⟩ := recvRequest_eq s.1 hs hw.1 hc
    have hs₁ : segs.flatten.drop (o + s.2.bytes.length) = sent.flatMap fun s => s.2.bytes := by
      rw [← drop_drop, hs, drop_left]
    obtain ⟨c₂, hrun₂⟩ := ih hs₁ hw.2 hc₁
    refine ⟨c₂, ?_⟩
    rw [map_cons, recvRequests, run_bind_ok hrun, run_bind_ok hrun₂]
    rfl

def ComeThrough (buffSize : Nat) (segs : List (List UInt8)) (sent : List (Memory × Request lib)) :
    Prop :=
  ∃ c, (recvRequests lib buffSize (sent.map Prod.fst)).run (receiver segs) =
    .ok (sent.map fun s => some s.2.request) c

/-- Requests on one connection come out in order when no read for a header block ends in a reported
text or behind the request. -/
theorem requests_come_through (buffSize : Nat) (segs : List (List UInt8))
    (sent : List (Memory × Request lib)) (hs : segs.flatten = sent.flatMap fun s => s.2.bytes)
    (hw : AllReadWell buffSize segs 0 (sent.map Prod.snd)) : ComeThrough buffSize segs sent :=
  recvRequests_eq (by rw [drop_zero, hs]) hw (delivered_receiver segs)

/-- A library that reads the digits of a number and has strings of up to 4096 bytes. -/
def decimals : Library := ⟨fun text => some (digitsVal 10 text), 4096⟩

def getText : List UInt8 := ascii "GET /a?b HTTP/1.1\r\nHost: h\r\n\r\n"

def getRequest : Request decimals where
  head := getText
  body := []
  parsed := (readHead getText).get (by decide +kernel)
  accepted := by simp
  valid := by decide +kernel
  length := by decide +kernel
  fits := by decide
  fits_string := by decide

def postText : List UInt8 := ascii "POST /c HTTP/1.0\r\nContent-Length: 3\r\n\r\n"

def postRequest : Request decimals where
  head := postText
  body := ascii "xyz"
  parsed := (readHead postText).get (by decide +kernel)
  accepted := by simp
  valid := by decide +kernel
  length := by decide +kernel
  fits := by decide
  fits_string := by decide

def calmSegs : List (List UInt8) :=
  [getText.take 19, getText.drop 19, postText ++ ascii "x", ascii "yz"]

theorem requests_come_through_calm :
    ComeThrough 4096 calmSegs [(⟨false, 0⟩, getRequest), (⟨true, 7⟩, postRequest)] :=
  requests_come_through 4096 calmSegs [(⟨false, 0⟩, getRequest), (⟨true, 7⟩, postRequest)]
    (by decide +kernel) ⟨by decide +kernel, by decide +kernel, trivial⟩

/-- Two requests in one read: the second is dropped with the buffer. -/
theorem pipelined_request_lost :
    ¬ ∀ (buffSize : Nat) (segs : List (List UInt8)) (sent : List (Memory × Request decimals)),
      (∀ s ∈ sent, s.2.head.length ≤ buffSize) →
      (segs.flatten = sent.flatMap fun s => s.2.bytes) → ComeThrough buffSize segs sent := by
  intro h
  obtain ⟨c, hc⟩ := h 4096 [getText ++ getText]
    [(⟨false, 0⟩, getRequest), (⟨false, 0⟩, getRequest)] (by decide +kernel) (by decide +kernel)
  exact absurd (valueOf_ok hc) (by decide +kernel)

/-! ## Sizes of bodies -/

end Helens.HttpSession
