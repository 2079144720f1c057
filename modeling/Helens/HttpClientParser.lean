import Helens.Http
import Helens.HttpHead
import Helens.HttpClientTable

/-! `HttpResponseParser` of `http/http_parser.cc` over the automaton of
`httpclient_parser.rl`. -/

namespace Helens.HttpClient
open Lib.Blocks Lib.Scanner Http List

/-! ## Actions -/

inductive Reg where
  | mark
  | fieldStart
  | fieldLen
  deriving DecidableEq

/-- The actions that do more than note a position. -/
inductive Report where
  | contentLen
  | httpField
  | reasonPhrase
  | statusCode
  | httpVersion
  | chunkSize
  | transChunked
  deriving DecidableEq

/-- `write_connection_close` sets a flag that nothing reads, and `done` calls
`on_response_header_done`, which is empty, and ends the scan. -/
def Action.acts : Action → List (Act Reg Report)
  | .mark => [.set .mark]
  | .startField => [.set .fieldStart]
  | .writeField => [.measure .fieldLen .fieldStart]
  | .startValue => [.set .mark]
  | .writeContentLen => [.report .contentLen]
  | .writeConnectionClose => []
  | .writeValue => [.report .httpField]
  | .reasonPhrase => [.report .reasonPhrase]
  | .statusCode => [.report .statusCode]
  | .httpVersion => [.report .httpVersion]
  | .chunkSize => [.report .chunkSize]
  | .transChunked => [.report .transChunked]
  | .done => []

def spans : Report → List (Span Reg)
  | .httpField => [.counted .fieldStart .fieldLen, .upTo .mark]
  | .transChunked => []
  | _ => [.upTo .mark]

/-- What the callbacks fill, `m_error`, and the fields of `httpclient_parser` that are
read from outside. -/
structure Data where
  response : HttpResponse := {}
  error : Nat := 0
  contentLen : Int := -1
  chunked : Bool := false
  chunksDone : Bool := false

/-! ## Callbacks -/

def onResponseReason (text : List UInt8) (d : Data) : Data :=
  { d with response := { d.response with reason := text } }

def onResponseStatus (text : List UInt8) (d : Data) : Data :=
  { d with response := { d.response with status := toInt32 (strtol 10 text) } }

def onResponseVersion (text : List UInt8) (d : Data) : Data :=
  match parseVersion text with
  | some v => { d with response := { d.response with version := v } }
  | none => { d with error := 1001 }

def onResponseHttpField (field value : List UInt8) (d : Data) : Data :=
  if field.isEmpty then d else { d with response := d.response.setHeader field value }

/-- The action `chunk_size`; the callbacks it makes are empty. -/
def chunkSize (text : List UInt8) (d : Data) : Data :=
  let contentLen := toInt32 (strtol 16 text)
  { d with chunked := true, contentLen := contentLen, chunksDone := contentLen ≤ 0 }

def handle (rep : Report) (texts : List (List UInt8)) (left : List UInt8) (d : Data) : Data :=
  match rep with
  | .contentLen => { d with contentLen := toInt32 (strtol 10 (texts.getD 0 [] ++ left)) }
  | .httpField => onResponseHttpField (texts.getD 0 []) (texts.getD 1 []) d
  | .reasonPhrase => onResponseReason (texts.getD 0 []) d
  | .statusCode => onResponseStatus (texts.getD 0 [] ++ left) d
  | .httpVersion => onResponseVersion (texts.getD 0 []) d
  | .chunkSize => chunkSize (texts.getD 0 [] ++ left) d
  | .transChunked => { d with chunked := true }

def isNumber (base : Nat) (text : List UInt8) (b : UInt8) : Bool :=
  !text.isEmpty && text.all (fun d => digitVal d < base) && endsNumber base b

def settled (rep : Report) (texts : List (List UInt8)) (b : UInt8) : Bool :=
  match rep with
  | .contentLen => isNumber 10 (texts.getD 0 []) b
  | .statusCode => isNumber 10 (texts.getD 0 []) b
  | .chunkSize => isNumber 16 (texts.getD 0 []) b
  | _ => true

theorem strtol_isNumber (hbase : base ≤ 16) (h : isNumber base text b = true) (rest) :
    strtol base (text ++ b :: rest) = min (digitsVal base text : Int) (2 ^ 63 - 1) := by
  simp only [isNumber, Bool.and_eq_true, Bool.not_eq_true', isEmpty_eq_false_iff,
    all_eq_true, decide_eq_true_eq] at h
  exact strtol_digits hbase h.1.1 h.1.2 h.2 rest

theorem handle_settled (rep texts b rest d) (h : settled rep texts b = true) :
    handle rep texts (b :: rest) d = handle rep texts [b] d := by
  cases rep with
  | contentLen =>
    rw [handle, handle, strtol_isNumber (by decide) h, strtol_isNumber (by decide) h]
  | statusCode =>
    rw [handle, handle, onResponseStatus, onResponseStatus, strtol_isNumber (by decide) h,
      strtol_isNumber (by decide) h]
  | chunkSize =>
    rw [handle, handle, chunkSize, chunkSize, strtol_isNumber (by decide) h,
      strtol_isNumber (by decide) h]
  | _ => rfl

/-! ## The automaton -/

def step (cs : Nat) (b : UInt8) : Option (Edge Nat Reg Report) :=
  (lookup rows false cs b).map fun r =>
    ⟨r.target, r.actions.flatMap Action.acts, r.actions.contains .done⟩

theorem rows_targets : ∀ row ∈ rows, ∀ r ∈ row, r.target ≠ httpclientParserError ∧
    (r.actions.contains .done = false →
      decide (r.target = httpclientParserFirstFinal) = false) := by
  decide +kernel

theorem step_target (cs b) (e : Edge Nat Reg Report) (h : step cs b = some e) :
    e.target ≠ httpclientParserError ∧
      (e.stop = false → decide (e.target = httpclientParserFirstFinal) = false) := by
  obtain ⟨r, hr, rfl⟩ := Option.map_eq_some_iff.mp h
  obtain ⟨row, hrow, hmem⟩ := mem_rows_of_lookup hr
  exact rows_targets row hrow r hmem

theorem handle_error (rep texts left) (d : Data)
    (h : d.error ≠ 0) : (handle rep texts left d).error ≠ 0 := by
  cases rep with
  | httpField =>
    rw [handle, onResponseHttpField]
    split <;> exact h
  | httpVersion =>
    rw [handle, onResponseVersion]
    split
    · exact h
    · exact (by decide : (1001 : Nat) ≠ 0)
  | _ => exact h

theorem handle_body (rep texts left) (d : Data) :
    (handle rep texts left d).response.body = d.response.body := by
  cases rep with
  | httpField =>
    rw [handle, onResponseHttpField]
    split <;> rfl
  | httpVersion =>
    rw [handle, onResponseVersion]
    split <;> rfl
  | _ => rfl

/-! ## The parser -/

def httpclientParser : Automaton Reg Report Data where
  machine := ⟨step, spans, handle, settled, handle_settled⟩
  reset := fun _ _ => 0
  error := Data.error
  final := fun cs => decide (cs = httpclientParserFirstFinal)
  step_target := step_target
  handle_error := handle_error

abbrev Parser := State Nat Reg Data

def httpclientParserInit (d : Data) : Parser :=
  ⟨httpclientParserStart, fun _ => 0, { response := d.response, error := d.error }⟩

/-- `HttpResponseParser::execute`. On an empty buffer the checks behind the scan fail;
the -1 that is returned then is taken for a number of bytes. -/
def execute (chunck : Bool) (p : Parser) (data : List UInt8) : Except Fault (Nat × Parser) :=
  if data.isEmpty then .error .overrun
  else httpclientParser.run (if chunck then httpclientParserInit p.data else p) data

theorem execute_of_ne_nil (p data) (h : data ≠ []) :
    execute false p data = httpclientParser.run p data := by
  rw [execute, if_neg (by simpa using h), if_neg (by decide)]

def getContentLength (lib : Library) (p : Parser) : Nat :=
  getAs lib p.data.response.headers (ascii "content-length") 0

/-! ## Headers of chunks -/

theorem step_digit : ∀ b : UInt8, digitVal b < 16 →
    step 1 b = some ⟨2, [.set .mark], false⟩ ∧ step 2 b = some ⟨2, [], false⟩ :=
  Lib.Words.forall_byte (by decide +kernel)

theorem parse_digits (hds : ∀ d ∈ ds, digitVal d < 16) (hcs : g.cs = 2) :
    parse httpclientParser.machine w (ds ++ rest) p g =
      parse httpclientParser.machine w rest (p + ds.length) g := by
  induction ds generalizing p with
  | nil => rfl
  | cons d ds ih =>
    have hstep : httpclientParser.machine.step g.cs d = some ⟨2, [], false⟩ := by
      rw [hcs]
      exact (step_digit d (hds d (mem_cons_self ..))).2
    have hg : { g with cs := 2 } = g := by rw [← hcs]
    rw [cons_append, parse_go hstep rfl rfl, hg,
      ih fun d' hd' => hds d' (mem_cons_of_mem _ hd'), length_cons]
    congr 1
    omega

theorem parse_chunkHeader (hne : ds ≠ []) (hds : ∀ d ∈ ds, digitVal d < 16) (d) :
    ∃ gf, parse httpclientParser.machine (ds ++ [13, 10]) (ds ++ [13, 10]) 0
        ⟨httpclientParserStart, fun _ => none, d, []⟩ = some gf ∧
      gf.cs = httpclientParserFirstFinal ∧ gf.data = chunkSize (ds ++ [13]) d := by
  obtain ⟨d₀, ds, rfl⟩ := exists_cons_of_ne_nil hne
  have hfirst := (step_digit d₀ (hds d₀ (mem_cons_self ..))).1
  have hnum : isNumber 16 (d₀ :: ds) 13 = true := by
    simp only [isNumber, Bool.and_eq_true, Bool.not_eq_true', isEmpty_eq_false_iff,
      all_eq_true, decide_eq_true_eq]
    exact ⟨⟨hne, hds⟩, by decide⟩
  let w := d₀ :: ds ++ [13, 10]
  let g : Parse Nat Reg Data :=
    ⟨2, Function.update (fun _ => none) .mark (some (.pos 0)), d, []⟩
  let gs : Parse Nat Reg Data :=
    { g with data := chunkSize (d₀ :: ds ++ [13]) d, tokens := [(0, 0 + 1 + ds.length)] }
  have htoken : Span.token g.marks w (0 + 1 + ds.length) (.upTo .mark) = some (0, d₀ :: ds) := by
    have htake : slice w 0 (0 + 1 + ds.length - 0) = d₀ :: ds := by
      rw [slice, drop_zero]
      exact take_left' (by rw [length_cons]; omega)
    rw [← htake]
    rfl
  have hperf : performAt httpclientParser.machine w (0 + 1 + ds.length) 13 [.report .chunkSize] g =
      some gs := by
    have hmap : (httpclientParser.machine.spans .chunkSize).mapM
        (Span.token g.marks w (0 + 1 + ds.length)) = some [(0, d₀ :: ds)] := by
      change [Span.upTo Reg.mark].mapM _ = _
      rw [mapM_cons, htoken]
      rfl
    rw [performAt, hmap]
    dsimp only
    have hset : httpclientParser.machine.settled .chunkSize [d₀ :: ds] 13 = true := hnum
    rw [map_cons, map_nil, hset, if_pos rfl]
    rfl
  refine ⟨{ gs with cs := httpclientParserFirstFinal }, ?_, rfl, rfl⟩
  let g₀ : Parse Nat Reg Data := ⟨httpclientParserStart, fun _ => none, d, []⟩
  have hstep : httpclientParser.machine.step g₀.cs d₀ = some ⟨2, [.set .mark], false⟩ := hfirst
  have hstart : parse httpclientParser.machine w (d₀ :: (ds ++ [13, 10])) 0 g₀ =
      parse httpclientParser.machine w (ds ++ [13, 10]) (0 + 1) g := parse_go hstep rfl rfl
  change parse httpclientParser.machine w (d₀ :: (ds ++ [13, 10])) 0 g₀ = _
  rw [hstart, parse_digits (fun d' hd' => hds d' (mem_cons_of_mem _ hd')) rfl,
    parse_go (e := ⟨3, [.report .chunkSize], false⟩) rfl hperf rfl]
  have hlast : performAt httpclientParser.machine w (0 + 1 + ds.length + 1) 10 []
      { gs with cs := 3 } = some { gs with cs := 3 } := rfl
  have hend := parse_end (e := ⟨httpclientParserFirstFinal, [], true⟩) rfl hlast rfl
  exact hend

theorem execute_chunkHeader (hne : ds ≠ []) (hds : ∀ d ∈ ds, digitVal d < 16)
    (z) (herr : p.data.error = 0) :
    ∃ p', execute true p (ds ++ [13, 10] ++ z) = .ok ((ds ++ [13, 10]).length, p') ∧
      httpclientParser.hasError p' = false ∧ httpclientParser.isFinished p' = 1 ∧
      p'.data = chunkSize (ds ++ [13]) (httpclientParserInit p.data).data := by
  obtain ⟨gf, hparse, hcs, hd⟩ := parse_chunkHeader hne hds (httpclientParserInit p.data).data
  have herr' : httpclientParser.error gf.data = 0 := by rw [hd]; exact herr
  have hfin : httpclientParser.final gf.cs = true := by rw [hcs]; rfl
  obtain ⟨p', hrun, h1, h2, hd'⟩ :=
    Automaton.run_stop (u := []) (x := ds ++ [13, 10]) z (p := httpclientParserInit p.data) hparse
      (fun t _ ht => absurd ht (Nat.not_lt_zero _))
      ⟨fun _ _ h => (nomatch h), fun _ _ _ h => (nomatch h)⟩ rfl rfl herr' hfin
  refine ⟨p', ?_, h1, h2, hd'.trans hd⟩
  rw [execute, if_neg (by simp), if_pos rfl, hrun]

end Helens.HttpClient
