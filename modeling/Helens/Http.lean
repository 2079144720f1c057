import Helens.Stream

/-! Requests and responses of `http/http.h` and `http/http.cc`: the fields that
the parsers fill, and how headers are stored and read. -/

namespace Helens.Http
open List

def ascii (s : String) : List UInt8 := s.toList.map fun c => UInt8.ofNat c.toNat

def cStr (s : List UInt8) : List UInt8 := s.takeWhile (· ≠ 0)

/-! ## Methods -/

inductive HttpMethod where
  | delete
  | get
  | head
  | post
  | put
  | connect
  | options
  | trace
  | copy
  | lock
  | mkcol
  | move
  | propfind
  | proppatch
  | search
  | unlock
  | bind
  | rebind
  | unbind
  | acl
  | report
  | mkactivity
  | checkout
  | merge
  | msearch
  | notify
  | subscribe
  | unsubscribe
  | patch
  | purge
  | mkcalendar
  | link
  | unlink
  | source
  | invalidMethod
  deriving DecidableEq

def httpMethodMap : List (HttpMethod × String) :=
  [(.delete, "DELETE"), (.get, "GET"), (.head, "HEAD"), (.post, "POST"), (.put, "PUT"),
    (.connect, "CONNECT"), (.options, "OPTIONS"), (.trace, "TRACE"), (.copy, "COPY"),
    (.lock, "LOCK"), (.mkcol, "MKCOL"), (.move, "MOVE"), (.propfind, "PROPFIND"),
    (.proppatch, "PROPPATCH"), (.search, "SEARCH"), (.unlock, "UNLOCK"), (.bind, "BIND"),
    (.rebind, "REBIND"), (.unbind, "UNBIND"), (.acl, "ACL"), (.report, "REPORT"),
    (.mkactivity, "MKACTIVITY"), (.checkout, "CHECKOUT"), (.merge, "MERGE"),
    (.msearch, "M-SEARCH"), (.notify, "NOTIFY"), (.subscribe, "SUBSCRIBE"),
    (.unsubscribe, "UNSUBSCRIBE"), (.patch, "PATCH"), (.purge, "PURGE"),
    (.mkcalendar, "MKCALENDAR"), (.link, "LINK"), (.unlink, "UNLINK"), (.source, "SOURCE")]

/-- `CharsToHttpMethod`: the first name that the text begins with. -/
def charsToHttpMethod (m : List UInt8) : HttpMethod :=
  match httpMethodMap.find? fun x => (ascii x.2).isPrefixOf m with
  | some x => x.1
  | none => .invalidMethod

def stringToHttpMethod (m : List UInt8) : HttpMethod :=
  match httpMethodMap.find? fun x => ascii x.2 == cStr m with
  | some x => x.1
  | none => .invalidMethod

/-! ## Versions -/

def sameStart (text name : List UInt8) : Bool :=
  text.isPrefixOf (name ++ [0]) || (name ++ [0]).isPrefixOf text

def parseVersion (text : List UInt8) : Option UInt8 :=
  if sameStart text (ascii "HTTP/1.1") then some 0x11
  else if sameStart text (ascii "HTTP/1.0") then some 0x10
  else none

/-! ## Headers -/

def toLower (b : UInt8) : UInt8 := if 65 ≤ b ∧ b ≤ 90 then b + 32 else b

def sameText (a b : List UInt8) : Bool := (cStr a).map toLower == (cStr b).map toLower

/-- `CaseInsensitiveLess`: what `strcasecmp` says of the two C strings. -/
def caseInsensitiveLess (a b : List UInt8) : Bool :=
  ((cStr a).map toLower).lex ((cStr b).map toLower) fun x y => x < y

/-- A `MapType`, in the order of `CaseInsensitiveLess`: keys that it does not tell apart are
one key. -/
abbrev MapType := List (List UInt8 × List UInt8)

/-- The entry `e` put at its place. A key that is there keeps its spelling, and its value unless
`assign` says otherwise. -/
def putEntry (assign : Bool) (e : List UInt8 × List UInt8) : MapType → MapType
  | [] => [e]
  | x :: m =>
    if sameText x.1 e.1 then (x.1, if assign then e.2 else x.2) :: m
    else if caseInsensitiveLess e.1 x.1 then e :: x :: m
    else x :: putEntry assign e m

def setEntry (key val : List UInt8) : MapType → MapType := putEntry true (key, val)

def findEntry (key : List UInt8) (m : MapType) : Option (List UInt8) :=
  (m.find? fun e => sameText e.1 key).map Prod.snd

/-- What the code takes from boost and from `std::string`: `lexical_cast<uint64_t>`, with no value
for a bad cast, and the largest size of a string. -/
structure Library where
  lexicalCast : List UInt8 → Option Nat
  maxSize : Nat

def getAs (lib : Library) (m : MapType) (key : List UInt8) (dflt : Nat) : Nat :=
  ((findEntry key m).bind lib.lexicalCast).getD dflt

/-! ## Requests -/

structure HttpRequest where
  method : HttpMethod := .get
  version : UInt8 := 0x11
  close : Bool := true
  path : List UInt8 := ascii "/"
  query : List UInt8 := []
  fragment : List UInt8 := []
  body : List UInt8 := []
  headers : MapType := []
  deriving DecidableEq

def HttpRequest.setHeader (r : HttpRequest) (key val : List UInt8) : HttpRequest :=
  { r with headers := setEntry key val r.headers }

def HttpRequest.init (r : HttpRequest) : HttpRequest :=
  let conn := (findEntry (ascii "connection") r.headers).getD []
  if conn.isEmpty then r
  else { r with close := !sameText conn (ascii "keep-alive") }

/-! ## Responses -/

structure HttpResponse where
  status : Int := 200
  version : UInt8 := 0x11
  close : Bool := true
  reason : List UInt8 := []
  body : List UInt8 := []
  headers : MapType := []
  deriving DecidableEq

def HttpResponse.setHeader (r : HttpResponse) (key val : List UInt8) : HttpResponse :=
  { r with headers := setEntry key val r.headers }

/-! ## `strtol` -/

def isSpace (b : UInt8) : Bool := b == 32 || (9 ≤ b && b ≤ 13)

def digitVal (b : UInt8) : Nat :=
  if 48 ≤ b ∧ b ≤ 57 then b.toNat - 48
  else if 65 ≤ b ∧ b ≤ 90 then b.toNat - 55
  else if 97 ≤ b ∧ b ≤ 122 then b.toNat - 87
  else 36

def digitsVal (base : Nat) (ds : List UInt8) : Nat :=
  ds.foldl (fun v d => v * base + digitVal d) 0

/-- In base 16 a `0x` in front of a digit is skipped. -/
def skipHex (base : Nat) : List UInt8 → List UInt8
  | 48 :: x :: d :: s =>
    if base = 16 ∧ (x = 120 ∨ x = 88) ∧ digitVal d < 16 then d :: s else 48 :: x :: d :: s
  | s => s

def magnitude (base : Nat) (s : List UInt8) : Nat :=
  digitsVal base ((skipHex base s).takeWhile fun d => digitVal d < base)

/-- The first number of the text, cut off at the bounds of a `long`. -/
def strtol (base : Nat) (s : List UInt8) : Int :=
  match s.dropWhile isSpace with
  | 45 :: s => max (-(magnitude base s : Int)) (-2 ^ 63)
  | 43 :: s => min (magnitude base s) (2 ^ 63 - 1)
  | s => min (magnitude base s) (2 ^ 63 - 1)

def endsNumber (base : Nat) (b : UInt8) : Bool := base ≤ digitVal b && b ≠ 120 && b ≠ 88

theorem not_special_of_digit : ∀ b : UInt8, digitVal b < 16 →
    isSpace b = false ∧ b ≠ 45 ∧ b ≠ 43 ∧ b ≠ 120 ∧ b ≠ 88 :=
  Lib.Words.forall_byte (by decide +kernel)

theorem skipHex_digits (hds : ∀ d ∈ ds, digitVal d < 16) (hb : endsNumber base b = true) (rest) :
    skipHex base (ds ++ b :: rest) = ds ++ b :: rest := by
  unfold skipHex
  split
  · rename_i x d s heq
    rw [if_neg, heq]
    rintro ⟨rfl, hx, _⟩
    simp only [endsNumber, Bool.and_eq_true, decide_eq_true_eq] at hb
    -- the byte behind the first digit is a digit or ends the number
    cases ds with
    | nil =>
      cases heq
      exact absurd hb.1.1 (by decide)
    | cons d₀ ds =>
      cases ds with
      | nil =>
        cases heq
        rcases hx with rfl | rfl
        · exact hb.1.2 rfl
        · exact hb.2 rfl
      | cons d₁ ds =>
        simp only [cons_append, cons.injEq] at heq
        obtain ⟨_, rfl, _⟩ := heq
        obtain ⟨_, _, _, hx₁, hx₂⟩ :=
          not_special_of_digit d₁ (hds d₁ (mem_cons_of_mem _ (mem_cons_self ..)))
        rcases hx with rfl | rfl
        · exact hx₁ rfl
        · exact hx₂ rfl
  · rfl

/-- Behind digits `strtol` reads no further than the byte that ends them. -/
theorem strtol_digits (hbase : base ≤ 16) (hne : ds ≠ [])
    (hds : ∀ d ∈ ds, digitVal d < base) (hb : endsNumber base b = true)
    (rest) : strtol base (ds ++ b :: rest) = min (digitsVal base ds : Int) (2 ^ 63 - 1) := by
  have hds' : ∀ d ∈ ds, digitVal d < 16 := fun d hd => Nat.lt_of_lt_of_le (hds d hd) hbase
  obtain ⟨d, ds, rfl⟩ := exists_cons_of_ne_nil hne
  obtain ⟨hspace, hminus, hplus, _⟩ := not_special_of_digit d (hds' d (mem_cons_self ..))
  have hdrop : (d :: ds ++ b :: rest).dropWhile isSpace = d :: ds ++ b :: rest := by
    simp [hspace]
  have hmag : magnitude base (d :: ds ++ b :: rest) = digitsVal base (d :: ds) := by
    have hend : base ≤ digitVal b := by
      simp only [endsNumber, Bool.and_eq_true, decide_eq_true_eq] at hb
      exact hb.1.1
    rw [magnitude, skipHex_digits hds' hb, takeWhile_append_of_pos (by simpa using hds)]
    simp [Nat.not_lt.mpr hend]
  rw [strtol, hdrop]
  split
  · rename_i heq
    cases heq
    exact absurd rfl hminus
  · rename_i heq
    cases heq
    exact absurd rfl hplus
  · rw [hmag]

end Helens.Http
