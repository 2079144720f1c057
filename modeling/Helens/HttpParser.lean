import Helens.Http
import Helens.HttpHead
import Helens.Http11Table
import Mathlib.Data.List.Find
import Mathlib.Data.List.TakeWhile

/-! `HttpRequestParser` of `http/http_parser.cc` over the automaton of
`http11_parser.rl`. A call of `execute` runs the automaton over the bytes read so
far; its marks are offsets into that buffer. -/

namespace Helens.Http11
open Lib.Scanner Http List

/-! ## Actions -/

inductive Reg where
  | mark
  | fieldStart
  | fieldLen
  | queryStart
  deriving DecidableEq

inductive Callback where
  | httpField
  | requestMethod
  | requestUri
  | fragment
  | requestPath
  | queryString
  | httpVersion

/-- `done` ends the scan; `on_request_header_done` is empty, and nothing reads what `xml` and `json`
set. -/
def Action.acts : Action → List (Act Reg Callback)
  | .mark => [.set .mark]
  | .startField => [.set .fieldStart]
  | .writeField => [.measure .fieldLen .fieldStart]
  | .startValue => [.set .mark]
  | .writeValue => [.report .httpField]
  | .requestMethod => [.report .requestMethod]
  | .requestUri => [.report .requestUri]
  | .fragment => [.report .fragment]
  | .startQuery => [.set .queryStart]
  | .queryString => [.report .queryString]
  | .httpVersion => [.report .httpVersion]
  | .requestPath => [.report .requestPath]
  | .done => []
  | .xml => []
  | .json => []

def spans : Callback → List (Span Reg)
  | .httpField => [.counted .fieldStart .fieldLen, .upTo .mark]
  | .requestUri => []
  | .queryString => [.upTo .queryStart]
  | _ => [.upTo .mark]

structure Data where
  request : HttpRequest := {}
  error : Nat := 0

/-! ## Callbacks -/

/-- `text` goes on behind the method: `CharsToHttpMethod` is not told where the
method ends. -/
def onRequestMethod (text : List UInt8) (d : Data) : Data :=
  let m := charsToHttpMethod text
  if m = .invalidMethod then { d with error := 1000 }
  else { d with request := { d.request with method := m } }

def onRequestFragment (text : List UInt8) (d : Data) : Data :=
  { d with request := { d.request with fragment := text } }

def onRequestPath (text : List UInt8) (d : Data) : Data :=
  { d with request := { d.request with path := text } }

def onRequestQuery (text : List UInt8) (d : Data) : Data :=
  { d with request := { d.request with query := text } }

def onRequestVersion (text : List UInt8) (d : Data) : Data :=
  match parseVersion text with
  | some v => { d with request := { d.request with version := v } }
  | none => { d with error := 1001 }

def onRequestHttpField (field value : List UInt8) (d : Data) : Data :=
  if field.isEmpty then d else { d with request := d.request.setHeader field value }

/-- The callback with its texts, in the order of `spans`; `left` is the buffer behind
them. -/
def handle (cb : Callback) (texts : List (List UInt8)) (left : List UInt8) (d : Data) : Data :=
  match cb with
  | .httpField => onRequestHttpField (texts.getD 0 []) (texts.getD 1 []) d
  | .requestMethod => onRequestMethod (texts.getD 0 [] ++ left) d
  | .requestUri => d
  | .fragment => onRequestFragment (texts.getD 0 []) d
  | .requestPath => onRequestPath (texts.getD 0 []) d
  | .queryString => onRequestQuery (texts.getD 0 []) d
  | .httpVersion => onRequestVersion (texts.getD 0 []) d

/-- Only the method is looked up in what follows it, and a blank ends that. -/
def settled : Callback → List (List UInt8) → UInt8 → Bool
  | .requestMethod, _, b => b == 32
  | _, _, _ => true

theorem isPrefixOf_append_cons {name : List UInt8} {b : UInt8} (text rest)
    (hb : b ∉ name) : name.isPrefixOf (text ++ b :: rest) = name.isPrefixOf text := by
  induction name generalizing text with
  | nil => rfl
  | cons a name ih =>
    have ha : (a == b) = false := by
      simp only [beq_eq_false_iff_ne, ne_eq]
      rintro rfl
      exact hb (mem_cons_self ..)
    cases text with
    | nil => simp [isPrefixOf, ha]
    | cons c text =>
      simp only [cons_append, isPrefixOf, ih text fun h => hb (mem_cons_of_mem _ h)]

theorem charsToHttpMethod_blank (text rest) :
    charsToHttpMethod (text ++ 32 :: rest) = charsToHttpMethod text := by
  have hblank : ∀ x ∈ httpMethodMap, (32 : UInt8) ∉ ascii x.2 := by decide
  rw [charsToHttpMethod, charsToHttpMethod,
    find?_congr fun x hx => isPrefixOf_append_cons text rest (hblank x hx)]

theorem handle_settled (cb texts b rest d) (h : settled cb texts b = true) :
    handle cb texts (b :: rest) d = handle cb texts [b] d := by
  cases cb with
  | requestMethod =>
    obtain rfl : b = 32 := by simpa [settled] using h
    rw [handle, handle, onRequestMethod, onRequestMethod, charsToHttpMethod_blank,
      charsToHttpMethod_blank]
  | _ => rfl

/-! ## The automaton -/

def step (relaxed : Bool) (cs : Nat) (b : UInt8) : Option (Edge Nat Reg Callback) :=
  (lookup rows relaxed cs b).map fun r =>
    ⟨r.target, r.actions.flatMap Action.acts, r.actions.contains .done⟩

theorem rows_targets : ∀ row ∈ rows, ∀ r ∈ row, r.target ≠ httpParserError ∧
    r.actions.contains .done = decide (httpParserFirstFinal ≤ r.target) := by
  decide +kernel

theorem rows_guarded_last : ∀ row ∈ rows,
    row.Pairwise fun a a' => a.guarded = true → a'.guarded = true := by
  decide +kernel

theorem step_relaxed (relaxed) (h : step false cs b = some e) : step relaxed cs b = some e := by
  obtain ⟨r, hr, he⟩ := Option.map_eq_some_iff.mp h
  rw [step, lookup_guard rows_guarded_last relaxed hr, Option.map_some, he]

/-- Only `done` leads to a final state, and no transition to the error state. -/
theorem step_target (h : step relaxed cs b = some e) :
    e.target ≠ httpParserError ∧ e.stop = decide (httpParserFirstFinal ≤ e.target) := by
  obtain ⟨r, hr, rfl⟩ := Option.map_eq_some_iff.mp h
  obtain ⟨row, hrow, hmem⟩ := mem_rows_of_lookup hr
  exact rows_targets row hrow r hmem

theorem handle_error (cb texts left) (d : Data)
    (h : d.error ≠ 0) : (handle cb texts left d).error ≠ 0 := by
  cases cb with
  | httpField =>
    rw [handle, onRequestHttpField]
    split <;> exact h
  | requestMethod =>
    rw [handle, onRequestMethod]
    dsimp only
    split
    · exact (by decide : (1000 : Nat) ≠ 0)
    · exact h
  | httpVersion =>
    rw [handle, onRequestVersion]
    split
    · exact h
    · exact (by decide : (1001 : Nat) ≠ 0)
  | _ => exact h

theorem handle_body (cb texts left) (d : Data) :
    (handle cb texts left d).request.body = d.request.body := by
  cases cb with
  | httpField =>
    rw [handle, onRequestHttpField]
    split <;> rfl
  | requestMethod =>
    rw [handle, onRequestMethod]
    dsimp only
    split <;> rfl
  | httpVersion =>
    rw [handle, onRequestVersion]
    split <;> rfl
  | _ => rfl

/-! ## The parser -/

def resetMarks (regs : Reg → Nat) : Reg → Nat
  | .queryStart => regs .queryStart
  | _ => 0

def machine (relaxed : Bool) : Machine Nat UInt8 Reg Callback Data :=
  ⟨step relaxed, spans, handle, settled, handle_settled⟩

def httpParser (relaxed : Bool) : Automaton Reg Callback Data where
  machine := machine relaxed
  reset := resetMarks
  error := Data.error
  final := fun cs => decide (httpParserFirstFinal ≤ cs)
  step_target := by
    intro cs b e he
    obtain ⟨hne, hstop⟩ := step_target he
    exact ⟨hne, fun h => hstop.symm.trans h⟩
  handle_error := handle_error

abbrev Parser := State Nat Reg Data

/-- What stands in the memory of a new parser: `http_parser_init` sets neither
`uri_relaxed` nor `query_start`. -/
structure Memory where
  uriRelaxed : Bool
  queryStart : Nat

def httpParserInit (m : Memory) : Parser :=
  ⟨httpParserStart, fun r => if r = .queryStart then m.queryStart else 0, {}⟩

def execute (relaxed : Bool) (p : Parser) (data : List UInt8) : Except Fault (Nat × Parser) :=
  if data.isEmpty then .ok (0, p) else (httpParser relaxed).run p data

theorem execute_of_ne_nil (relaxed p data) (h : data ≠ []) :
    execute relaxed p data = (httpParser relaxed).run p data := by
  rw [execute, if_neg (by simpa using h)]

def getContentLength (lib : Library) (p : Parser) : Nat :=
  getAs lib p.data.request.headers (ascii "content-length") 0

/-! ## Methods -/

/-- The tokens of the grammar: `Method = ( upper | digit ){1,20}`. -/
def isMethod (token : List UInt8) : Bool :=
  0 < token.length && token.length ≤ 20 &&
    token.all fun b => (65 ≤ b && b ≤ 90) || (48 ≤ b && b ≤ 57)

theorem cStr_of_isMethod (h : isMethod token = true) : cStr token = token := by
  have hall := (Bool.and_eq_true _ _ ▸ h).2
  rw [cStr, takeWhile_eq_self_iff]
  intro b hb
  have hbyte := all_eq_true.mp hall b hb
  rw [decide_eq_true_eq]
  rintro rfl
  exact absurd hbyte (by decide)

/-- Both searches of the table return a method of it, if they find one. -/
theorem find_eq_invalid (p : HttpMethod × String → Bool) :
    (match httpMethodMap.find? p with
      | some x => x.1
      | none => .invalidMethod) = .invalidMethod ↔ ∀ x ∈ httpMethodMap, p x = false := by
  have hvalid : ∀ x ∈ httpMethodMap, x.1 ≠ .invalidMethod := by decide
  split
  · next x hx =>
    have hmem := mem_of_find?_eq_some hx
    have hp := find?_some hx
    exact iff_of_false (hvalid x hmem) fun h => absurd (h x hmem) (by simp [hp])
  · next hnone => simpa using hnone

theorem charsToHttpMethod_eq (hc : cStr token = token)
    (hname : ∀ x ∈ httpMethodMap, ascii x.2 <+: token → ascii x.2 = token) :
    charsToHttpMethod token = stringToHttpMethod token := by
  rw [charsToHttpMethod, stringToHttpMethod, hc, find?_congr]
  intro x hx
  rw [Bool.eq_iff_iff, isPrefixOf_iff_prefix, beq_iff_eq]
  exact ⟨hname x hx, fun h => h ▸ prefix_refl _⟩

theorem stringToHttpMethod_eq_invalid (hc : cStr token = token) :
    stringToHttpMethod token = .invalidMethod ↔ token ∉ httpMethodMap.map fun x => ascii x.2 := by
  refine (find_eq_invalid _).trans ?_
  rw [hc]
  simp

theorem names_apart : ∀ x ∈ httpMethodMap, ∀ y ∈ httpMethodMap,
    ascii x.2 <+: ascii y.2 → ascii x.2 = ascii y.2 := by decide +kernel

/-- A method token is stored as the method of that name, and rejected exactly if it is no name: this
holds exactly of the tokens that begin with no name but their own. -/
theorem method_by_name (token rest : List UInt8) (d : Data) (htoken : isMethod token = true)
    (herr : d.error = 0) :
    (∀ x ∈ httpMethodMap, ascii x.2 <+: token → ascii x.2 = token) ↔
    ((handle .requestMethod [token] (32 :: rest) d).error ≠ 0 ↔
      token ∉ httpMethodMap.map fun x => ascii x.2) ∧
    ((handle .requestMethod [token] (32 :: rest) d).error = 0 →
      (handle .requestMethod [token] (32 :: rest) d).request.method =
        stringToHttpMethod token) := by
  have hc := cStr_of_isMethod htoken
  have heq : handle .requestMethod [token] (32 :: rest) d = onRequestMethod token d := by
    rw [onRequestMethod, ← charsToHttpMethod_blank token rest]
    rfl
  have herror : (onRequestMethod token d).error ≠ 0 ↔
      charsToHttpMethod token = .invalidMethod := by
    rw [onRequestMethod]
    dsimp only
    split <;> simp [*]
  rw [heq, herror]
  constructor
  · intro hname
    rw [charsToHttpMethod_eq hc hname, ← stringToHttpMethod_eq_invalid hc]
    refine ⟨Iff.rfl, fun hzero => ?_⟩
    rw [onRequestMethod, charsToHttpMethod_eq hc hname]
    dsimp only
    split
    · next hinvalid => simp [onRequestMethod, charsToHttpMethod_eq hc hname, hinvalid] at hzero
    · rfl
  · rintro ⟨hreject, -⟩ x hx hprefix
    have hfound : charsToHttpMethod token ≠ .invalidMethod := fun hnone =>
      absurd ( isPrefixOf_iff_prefix.mpr hprefix) (by simp [(find_eq_invalid _).mp hnone x hx])
    obtain ⟨y, hy, rfl⟩ := mem_map.mp (not_not.mp (mt hreject.mpr hfound))
    exact names_apart x hx y hy hprefix

theorem method_by_name_put :
    (handle .requestMethod [ascii "PUT"] [32, 47] {}).request.method = .put :=
  ((method_by_name (ascii "PUT") [47] {} (by decide +kernel) rfl).mp (by decide)).2 (by decide)

/-- `GETX` is taken for `GET`. -/
theorem method_by_beginning : isMethod (ascii "GETX") = true ∧
    stringToHttpMethod (ascii "GETX") = .invalidMethod ∧
    (execute false (httpParserInit ⟨false, 0⟩) (ascii "GETX / HTTP/1.1\r\n\r\n")).toOption.map
      (fun r => (r.2.data.error, r.2.data.request.method, (httpParser false).isFinished r.2)) =
        some (0, .get, 1) := by
  decide +kernel

end Helens.Http11
