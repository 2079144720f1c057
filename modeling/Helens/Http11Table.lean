import Helens.Lib.Scanner

/-! The automaton of `http11_parser.rl`, as `http11_parser.rl.cc` has it: one row a state, with
ranges of bytes, targets and actions. In a row the first range that holds a byte counts. State 0 is
the error state. The bytes of `more_delims` count only when `uri_relaxed` is set. -/

namespace Helens.Http11
open Lib.Scanner

inductive Action where
  | mark
  | startField
  | writeField
  | startValue
  | writeValue
  | requestMethod
  | requestUri
  | fragment
  | startQuery
  | queryString
  | httpVersion
  | requestPath
  | done
  | xml
  | json
  deriving DecidableEq

def httpParserStart : Nat := 1

def httpParserFirstFinal : Nat := 348

def httpParserError : Nat := 0

def hex (target : Nat) : List (Range Action) :=
  [go 48 57 target, go 65 70 target, go 97 102 target]

def method (target : Nat) : List (Range Action) :=
  [act 32 32 3 [.requestMethod], go 48 57 target, go 65 90 target]

/-- A row reads its `own` bytes first, then those that every part of a URI may have. -/
def uriPart (target : Nat) (actions : List Action) (own : List (Range Action)) :
    List (Range Action) :=
  own ++ [act 33 33 target actions, act 36 36 target actions, act 38 46 target actions,
    act 48 57 target actions, act 59 59 target actions, act 61 61 target actions,
    act 65 90 target actions, act 95 95 target actions, act 97 122 target actions,
    act 126 126 target actions, rel 94 target actions, rel 123 target actions,
    rel 125 target actions]

def segments (target : Nat) (actions : List Action) (own : List (Range Action)) :
    List (Range Action) :=
  uriPart target actions (own ++ [act 47 47 target actions, act 58 58 target actions,
    act 64 64 target actions, act 128 255 target actions])

def pathEnd (actions : List Action) (own : List (Range Action)) : List (Range Action) :=
  act 32 32 4 (actions ++ [Action.requestPath, Action.requestUri]) ::
    act 35 35 20 (actions ++ [Action.requestPath, Action.requestUri]) ::
    act 63 63 29 (actions ++ [Action.requestPath]) :: own

def fieldName (actions : List Action) (own : List (Range Action)) : List (Range Action) :=
  own ++ [act 1 8 14 actions, act 10 31 14 actions, act 33 33 14 actions, act 35 39 14 actions,
    act 42 43 14 actions, act 45 46 14 actions, act 48 57 14 actions, act 65 90 14 actions,
    act 94 122 14 actions, act 124 124 14 actions, act 126 126 14 actions]

def fieldValue (actions : List Action) (own : List (Range Action)) : List (Range Action) :=
  act 10 10 13 (actions ++ [Action.writeValue]) :: act 13 13 17 (actions ++ [Action.writeValue]) ::
    own ++ [act 1 126 16 actions, act 128 255 16 actions]

def requestLine : List (List (Range Action)) :=
  [[], [act 48 57 2 [.mark], act 60 60 194 [.mark], act 64 64 198 [.mark], act 65 90 2 [.mark]],
   method 175,
   uriPart 19 [.mark] (pathEnd [.mark] [act 37 37 24 [.mark], act 47 47 33 [.mark],
    act 64 64 19 [.mark], act 65 90 173 [.mark], act 97 122 173 [.mark]]), [act 72 72 5 [.mark]],
   [go 84 84 6], [go 84 84 7], [go 80 80 8], [go 47 47 9], [go 49 49 10], [go 46 46 11],
   [go 48 49 12], [act 10 10 13 [.httpVersion], act 13 13 17 [.httpVersion]],
   fieldName [.startField] [act 10 10 348 [.startField, .done], act 13 13 18 [.startField]],
   fieldName [] [act 58 58 15 [.writeField]],
   fieldValue [.startValue] [act 9 9 15 [.startValue], act 32 32 15 [.startValue]],
   fieldValue [] [], [go 10 10 13],
   fieldName [] [act 10 10 348 [.done], act 58 58 15 [.writeField]],
   uriPart 19 [] (pathEnd [] [go 37 37 24, go 47 47 26, go 64 64 19]),
   segments 21 [.mark] [act 32 32 4 [.mark, .fragment], act 37 37 22 [.mark],
    act 63 63 21 [.mark]],
   segments 21 [] [act 32 32 4 [.fragment], go 37 37 22, go 63 63 21], hex 23, hex 21, hex 25,
   hex 19, segments 26 [] (go 37 37 27 :: pathEnd [] []), hex 28, hex 26,
   segments 30 [.startQuery] [act 32 32 4 [.startQuery, .queryString, .requestUri],
    act 35 35 20 [.startQuery, .queryString, .requestUri], act 37 37 31 [.startQuery],
    act 63 63 30 [.startQuery]],
   segments 30 [] [act 32 32 4 [.queryString, .requestUri],
    act 35 35 20 [.queryString, .requestUri], go 37 37 31, go 63 63 30], hex 32, hex 30,
   segments 26 [] (go 37 37 27 :: go 47 47 34 :: pathEnd [] []),
   uriPart 35 [] (pathEnd [] [go 37 37 36, go 47 47 26, go 58 58 38, go 64 64 42, go 91 91 47]),
   uriPart 35 [] (pathEnd [] [go 37 37 36, go 47 47 26, go 58 58 38, go 64 64 42]), hex 37,
   hex 35,
   uriPart 39 [] (pathEnd [] [go 37 37 40, go 47 47 26, go 48 57 38, go 58 58 39, go 64 64 42]),
   uriPart 39 [] [go 37 37 40, go 58 58 39, go 64 64 42], hex 41, hex 39,
   uriPart 43 [] (pathEnd [] [go 37 37 44, go 47 47 26, go 58 58 46, go 91 91 47]),
   uriPart 43 [] (pathEnd [] [go 37 37 44, go 47 47 26, go 58 58 46]), hex 45, hex 43,
   pathEnd [] [go 47 47 26, go 48 57 46]]

def relativeUri : List (List (Range Action)) :=
  [[hex 170, go 46 46 171 :: hex 170, uriPart 172 [] [go 58 58 172],
   uriPart 172 [] [go 58 58 172, go 93 93 61],
   uriPart 19 [] (pathEnd [] [go 37 37 24, go 43 43 173, go 45 46 173, go 47 47 26,
    go 48 57 173, go 58 58 174, go 64 64 19, go 65 90 173, go 97 122 173]),
   segments 26 [.mark] (pathEnd [.mark] [act 37 37 27 [.mark], act 47 47 33 [.mark]])],
   (List.range' 176 18).map method,
   [[act 32 32 3 [.requestMethod]], [go 45 46 195, go 48 57 195, go 65 90 195, go 97 122 195],
   [act 9 13 196 [.requestPath], act 32 32 196 [.requestPath], go 45 46 195,
    act 47 47 196 [.requestPath], go 48 57 195, act 62 62 196 [.requestPath], go 65 90 195,
    go 97 122 195], [go 0 61 196, go 62 62 197, go 63 255 196],
   [act 0 0 349 [.xml, .done], go 1 61 196, go 62 62 197, go 63 255 196],
   uriPart 202 [] [act 32 32 199 [.requestPath], go 37 37 203, go 47 47 208, go 64 64 202],
   [act 123 123 200 [.mark]], [go 0 124 200, go 125 125 201, go 126 255 200],
   [act 0 0 349 [.json, .done], go 1 124 200, go 125 125 201, go 126 255 200],
   uriPart 202 [] [act 32 32 199 [.requestPath], go 37 37 203, go 47 47 205, go 64 64 202],
   hex 204, hex 202, segments 205 [] [act 32 32 199 [.requestPath], go 37 37 206], hex 207,
   hex 205, segments 205 [] [act 32 32 199 [.requestPath], go 37 37 206, go 47 47 209],
   uriPart 210 [] [act 32 32 199 [.requestPath], go 37 37 211, go 47 47 205, go 58 58 213,
    go 64 64 217, go 91 91 222],
   uriPart 210 [] [act 32 32 199 [.requestPath], go 37 37 211, go 47 47 205, go 58 58 213,
    go 64 64 217], hex 212, hex 210,
   uriPart 214 [] [act 32 32 199 [.requestPath], go 37 37 215, go 47 47 205, go 48 57 213,
    go 58 58 214, go 64 64 217],
   uriPart 214 [] [go 37 37 215, go 58 58 214, go 64 64 217], hex 216, hex 214,
   uriPart 218 [] [act 32 32 199 [.requestPath], go 37 37 219, go 47 47 205, go 58 58 221,
    go 91 91 222],
   uriPart 218 [] [act 32 32 199 [.requestPath], go 37 37 219, go 47 47 205, go 58 58 221],
   hex 220, hex 218, [act 32 32 199 [.requestPath], go 47 47 205, go 48 57 221]]].flatten

def lastRows : List (List (Range Action)) :=
  [hex 345, go 46 46 346 :: hex 345, uriPart 347 [] [go 58 58 347],
   uriPart 347 [] [go 58 58 347, go 93 93 236], fieldName [] [act 58 58 15 [.writeField]], []]

/-- The digits of an `h16` from the second one on; `ends` is what may follow it. -/
def h16 (first : List (Range Action)) (next : Nat) (ends : List (Range Action)) :
    List (List (Range Action)) :=
  [first ++ ends ++ hex next, ends ++ hex (next + 1), ends ++ hex (next + 2), ends]

/-- The first byte of an `ls32`: a digit may begin an `IPv4address`. -/
def ls32 (digit octet : Nat) : List (Range Action) :=
  [go 48 48 digit, go 49 49 octet, go 50 50 (octet + 3), go 51 57 digit, go 65 70 (octet + 6),
    go 97 102 (octet + 6)]

/-- Behind a 1 or a 2 that begins a `dec_octet` or an `h16`, from state `s` on. -/
def octetOrH16 (s next : Nat) (ends : List (Range Action)) : List (List (Range Action)) :=
  [go 46 46 55 :: go 48 57 (s + 1) :: ends ++ hex next,
   go 46 46 55 :: go 48 57 (s + 2) :: ends ++ hex (next + 1), go 46 46 55 :: ends ++ hex (next + 2),
   go 46 46 55 :: go 48 48 (s + 4) :: go 53 53 (s + 5) :: ends ++ hex next,
   go 48 57 (s + 2) :: ends ++ hex (next + 1), go 48 48 (s + 2) :: ends ++ hex (next + 1),
   ends ++ hex next]

/-- Behind a 1 or a 2 that begins a `dec_octet`, from state `s` on. -/
def decOctet (s last : Nat) (ends : Range Action) : List (List (Range Action)) :=
  [[ends, go 48 57 (s + 1)], [ends, go 48 57 last], [ends, go 48 48 (s + 3), go 53 53 (s + 4)],
   [go 48 57 last], [go 48 48 last]]

def ipLiteral : List (List (Range Action)) :=
  [go 6 6 48 :: go 58 58 167 :: go 118 118 169 :: hex 91, hex 49] ++ h16 [] 50 [go 58 58 53] ++
  [ls32 54 84, go 46 46 55 :: go 58 58 80 :: hex 77,
   [go 48 48 56, go 49 49 72, go 50 50 74, go 51 57 56], [go 46 46 57],
   [go 48 48 58, go 49 49 67, go 50 50 69, go 51 57 58], [go 46 46 59],
   [go 48 48 60, go 49 49 62, go 50 50 64, go 51 57 60], [go 93 93 61]]

def ipLiteralRest : List (List (Range Action)) :=
  [decOctet 62 60 (go 93 93 61), decOctet 67 58 (go 46 46 59), decOctet 72 56 (go 46 46 57),
   [go 58 58 80 :: hex 78, go 58 58 80 :: hex 79, [go 58 58 80], hex 81, go 93 93 61 :: hex 82,
    go 93 93 61 :: hex 83, go 93 93 61 :: hex 60], octetOrH16 84 77 [go 58 58 80],
   h16 [] 92 [go 58 58 95], [go 58 58 166 :: hex 96], h16 [] 97 [go 58 58 100],
   [go 58 58 165 :: hex 101], h16 [] 102 [go 58 58 105], [go 58 58 164 :: hex 106],
   h16 [] 107 [go 58 58 110], [go 58 58 163 :: hex 111], h16 [] 112 [go 58 58 115],
   [go 58 58 151 :: hex 116], h16 [] 117 [go 58 58 120], [go 58 58 150 :: hex 121],
   h16 [] 122 [go 58 58 125], [go 58 58 126 :: hex 121, go 2 3 48 :: go 93 93 61 :: ls32 127 143],
   h16 [go 46 46 55] 128 [go 58 58 131, go 93 93 61], [ls32 132 136],
   h16 [go 46 46 55] 133 [go 58 58 80, go 93 93 61],
   octetOrH16 136 133 [go 58 58 80, go 93 93 61], octetOrH16 143 128 [go 58 58 131, go 93 93 61],
   [go 2 3 48 :: ls32 127 143, go 2 3 48 :: ls32 152 156], h16 [go 46 46 55] 153 [go 58 58 131],
   octetOrH16 156 153 [go 58 58 131],
   [go 2 3 48 :: hex 49, [go 2 3 48], [go 3 3 48], [go 4 4 48], [go 58 58 168],
    go 2 5 48 :: go 93 93 61 :: ls32 127 143]].flatten

/-- The rows of a text that the grammar has a second time, `k` states further on. -/
def again (k : Nat) (rows : List (List (Range Action))) : List (List (Range Action)) :=
  rows.map fun row => row.map fun r => { r with target := r.target + k }

def rows : List (List (Range Action)) :=
  [requestLine, ipLiteral,
   [pathEnd [] [go 47 47 26, go 58 58 46]],
   ipLiteralRest, relativeUri, again 175 ipLiteral,
   [[act 32 32 199 [.requestPath], go 47 47 205, go 58 58 221]], again 175 ipLiteralRest,
   lastRows].flatten

end Helens.Http11
