import Helens.Http
import Helens.Lib.Cuts

/-! The header fields that `HttpRequest::dump` and `HttpResponse::dump` of `http/http.cc` write when
no websocket is set, and what a reader of the text finds in them. -/

namespace Helens.Http
open Lib.Cuts List

abbrev Field := List UInt8 × List UInt8

def line (e : Field) : List UInt8 := e.1 ++ 58 :: 32 :: (e.2 ++ [13, 10])

def connection (close : Bool) : Field :=
  (ascii "connection", ascii (if close then "close" else "keep-alive"))

def contentLength (body : List UInt8) : Field :=
  (ascii "content-length", ascii (toString body.length))

def dumpFields (start : List UInt8) (fields : List Field) (body : List UInt8) : List UInt8 :=
  start ++ [13, 10] ++ fields.flatMap line ++
    if body.isEmpty then [13, 10] else line (contentLength body) ++ [13, 10] ++ body

def stored (headers : MapType) : List Field :=
  headers.filter fun e => !sameText e.1 (ascii "connection")

def versionText (v : UInt8) : List UInt8 :=
  ascii s!"HTTP/{(v >>> 4).toNat}.{(v &&& 0x0F).toNat}"

def methodText (m : HttpMethod) : List UInt8 :=
  ascii (((httpMethodMap.find? (·.1 = m)).map (·.2)).getD "<unknown>")

def HttpRequest.firstLine (r : HttpRequest) : List UInt8 :=
  methodText r.method ++ [32] ++ r.path ++ (if r.query.isEmpty then [] else [63]) ++ r.query ++
    (if r.fragment.isEmpty then [] else [35]) ++ r.fragment ++ [32] ++ versionText r.version

def HttpRequest.dump (r : HttpRequest) : List UInt8 :=
  dumpFields r.firstLine (connection r.close :: stored r.headers) r.body

/-- With the text of `HttpStatusToString`. -/
def HttpResponse.firstLine (statusText : List UInt8) (r : HttpResponse) : List UInt8 :=
  versionText r.version ++ [32] ++ ascii (toString r.status) ++ [32] ++
    if r.reason.isEmpty then statusText else r.reason

def HttpResponse.dump (statusText : List UInt8) (r : HttpResponse) (cookies : List (List UInt8)) :
    List UInt8 :=
  dumpFields (r.firstLine statusText)
    (stored r.headers ++ cookies.map (ascii "Set-Cookie", ·) ++ [connection r.close]) r.body

/-! ## Reading the fields -/

def readField (l : List UInt8) : Field :=
  (l.takeWhile (· != 58), ((l.dropWhile (· != 58)).drop 2).dropLast)

/-- The lines up to an empty one. -/
def readFields : List (List UInt8) → List Field
  | [] => []
  | l :: ls => if l = [13] then [] else readField l :: readFields ls

/-- Each of the two fields once: the size of the body, and the connection. -/
structure Framed (text body : List UInt8) (close : Bool) : Prop where
  length : (readFields ((text.splitOn 10).drop 1)).filter
    (fun e => sameText e.1 (ascii "content-length")) = [contentLength body]
  connection : (readFields ((text.splitOn 10).drop 1)).filter
    (fun e => sameText e.1 (ascii "connection")) = [connection close]

/-- The lines that a field is written on. -/
def lines (e : Field) : List (List UInt8) := (e.1 ++ 58 :: 32 :: (e.2 ++ [13])).splitOn 10

/-- A line that neither ends the fields nor is one of the two. -/
def Quiet (l : List UInt8) : Prop :=
  l ≠ [13] ∧ sameText (readField l).1 (ascii "content-length") = false ∧
    sameText (readField l).1 (ascii "connection") = false
  deriving Decidable

/-- What is written on the first line, in stored fields and in cookies begins no such line. -/
def Tidy (start : List UInt8) (fs : List Field) : Prop :=
  (∀ l ∈ ((start ++ [13]).splitOn 10).tail, Quiet l) ∧ ∀ e ∈ fs, ∀ l ∈ lines e, Quiet l
  deriving Decidable

theorem splitOn_lines (fs : List Field) (rest) :
    (fs.flatMap line ++ rest).splitOn 10 = fs.flatMap lines ++ rest.splitOn 10 := by
  induction fs with
  | nil => rfl
  | cons e fs ih =>
    have hraw : (e :: fs).flatMap line ++ rest =
        (e.1 ++ 58 :: 32 :: (e.2 ++ [13])) ++ 10 :: (fs.flatMap line ++ rest) := by
      simp [line]
    rw [hraw, splitOn_append_cons_self, ih, flatMap_cons, append_assoc]
    rfl

theorem readFields_append (h : ∀ l ∈ ls, l ≠ [13]) (ls') :
    readFields (ls ++ ls') = ls.map readField ++ readFields ls' := by
  induction ls with
  | nil => rfl
  | cons l ls ih =>
    rw [forall_mem_cons] at h
    rw [cons_append, readFields, if_neg h.1, ih h.2, map_cons, cons_append]

theorem newline_notMem_digits (n : Nat) : 10 ∉ ascii (toString n) := by
  intro hmem
  rw [Nat.toString_eq_ofList_toDigits, ascii, String.toList_ofList] at hmem
  obtain ⟨c, hc, heq⟩ := mem_map.mp hmem
  have hdigit := Nat.isDigit_of_mem_toDigits (by decide) (by decide) hc
  have hrange : 48 ≤ c.toNat ∧ c.toNat ≤ 57 := by
    simpa [Char.isDigit, UInt32.le_iff_toNat_le] using hdigit
  have htoNat := congrArg UInt8.toNat heq
  simp at htoNat
  omega

theorem lines_own (hname : 58 ∉ e.1 ∧ 10 ∉ e.1) (hval : 10 ∉ e.2) :
    (∀ l ∈ lines e, l ≠ [13]) ∧ (lines e).map readField = [e] := by
  have hline : 10 ∉ e.1 ++ 58 :: 32 :: (e.2 ++ [13]) := by simpa using ⟨hname.2, hval⟩
  obtain ⟨htake, hdrop⟩ := cut_append hname.1 (32 :: (e.2 ++ [13]))
  rw [lines, splitOn_eq_singleton hline]
  refine ⟨forall_mem_singleton.mpr fun heq => ?_, by simp [readField, htake, hdrop]⟩
  have hlen := congrArg length heq
  simp at hlen
  omega

theorem filter_quiet {ls : List (List UInt8)} (h : ∀ l ∈ ls, Quiet l) :
    (ls.map readField).filter (fun e => sameText e.1 (ascii "content-length")) = [] ∧
      (ls.map readField).filter (fun e => sameText e.1 (ascii "connection")) = [] := by
  simp only [filter_eq_nil_iff, forall_mem_map, Bool.not_eq_true]
  exact ⟨fun l hl => (h l hl).2.1, fun l hl => (h l hl).2.2⟩

theorem framed_dumpFields {pre post : List Field} (h : Tidy start (pre ++ post))
    (hbody : body ≠ []) :
    Framed (dumpFields start (pre ++ connection close :: post) body) body close := by
  obtain ⟨hconn, hconn'⟩ : (∀ l ∈ lines (connection close), l ≠ [13]) ∧
      (lines (connection close)).map readField = [connection close] := by
    cases close <;> exact lines_own (by decide) (by decide)
  obtain ⟨hlen, hlen'⟩ := @lines_own (contentLength body)
    (show 58 ∉ ascii "content-length" ∧ 10 ∉ ascii "content-length" by decide)
    (newline_notMem_digits _)
  obtain ⟨l₀, more, hmore⟩ := exists_cons_of_ne_nil (splitOn_ne_nil 10 (start ++ [13]))
  rw [Tidy, hmore, tail_cons, forall_mem_append] at h
  obtain ⟨hfirst, hpre, hpost⟩ := h
  have hpre := forall_mem_flatMap.mpr hpre
  have hpost := forall_mem_flatMap.mpr hpost
  have hread : readFields
      (((dumpFields start (pre ++ connection close :: post) body).splitOn 10).drop 1) =
      (more ++ (pre.flatMap lines ++ (lines (connection close) ++ (post.flatMap lines ++
        lines (contentLength body))))).map readField := by
    have htext : dumpFields start (pre ++ connection close :: post) body = (start ++ [13]) ++
        10 :: ((pre ++ connection close :: post ++ [contentLength body]).flatMap line ++
          ([13] ++ 10 :: body)) := by
      simp [dumpFields, hbody]
    rw [htext, splitOn_append_cons_self, hmore, cons_append, drop_one, tail_cons, splitOn_lines,
      splitOn_append_cons_self, ← append_assoc, readFields_append]
    · simp [readFields, splitOn_eq_singleton]
    · simp only [flatMap_append, flatMap_cons, flatMap_nil, append_nil, forall_mem_append]
      exact ⟨fun l hl => (hfirst l hl).1, ⟨fun l hl => (hpre l hl).1, hconn,
        fun l hl => (hpost l hl).1⟩, hlen⟩
  constructor
  · rw [hread]
    simp only [map_append, filter_append, filter_quiet hfirst, filter_quiet hpre,
      filter_quiet hpost, hconn', hlen']
    rfl
  · rw [hread]
    simp only [map_append, filter_append, filter_quiet hfirst, filter_quiet hpre,
      filter_quiet hpost, hconn', hlen']
    rfl

theorem dump_frames (q : HttpRequest) (r : HttpResponse) (statusText : List UInt8)
    (cookies : List (List UInt8)) (hq : Tidy q.firstLine (stored q.headers))
    (hr : Tidy (r.firstLine statusText) (stored r.headers ++ cookies.map (ascii "Set-Cookie", ·))) :
    (q.body ≠ [] → Framed q.dump q.body q.close) ∧
      (r.body ≠ [] → Framed (r.dump statusText cookies) r.body r.close) :=
  ⟨fun hbody => @framed_dumpFields _ _ _ [] _ hq hbody,
    fun hbody => framed_dumpFields (by rwa [append_nil]) hbody⟩

theorem dump_frames_one :
    Framed (HttpRequest.dump { body := [120], headers := [(ascii "a", ascii "b\nc")] }) [120] true ∧
    Framed (HttpResponse.dump (ascii "OK") { body := [120] } []) [120] true := by
  have h := dump_frames { body := [120], headers := [(ascii "a", ascii "b\nc")] } { body := [120] }
    (ascii "OK") [] (by decide +kernel) (by decide +kernel)
  exact ⟨h.1 (by decide), h.2 (by decide)⟩

/-- A stored length is written beside the true one. -/
theorem stored_length_printed : ¬ Framed
    (HttpRequest.dump { body := [120], headers := [(ascii "Content-Length", ascii "9")] })
    [120] true :=
  fun h => absurd h.length (by decide)

end Helens.Http
