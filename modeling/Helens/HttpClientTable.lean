import Helens.Lib.Scanner

/-! The automaton of `httpclient_parser.rl`, as `httpclient_parser.rl.cc` has it, row
by row. It reads a response header block or the header of a chunk. -/

namespace Helens.HttpClient
open Lib.Scanner

inductive Action where
  | mark
  | startField
  | writeField
  | startValue
  | writeContentLen
  | writeConnectionClose
  | writeValue
  | reasonPhrase
  | statusCode
  | httpVersion
  | chunkSize
  | transChunked
  | done
  deriving DecidableEq

def httpclientParserStart : Nat := 1

def httpclientParserFirstFinal : Nat := 120

def httpclientParserError : Nat := 0

def token (target : Nat) (actions : List Action) : List (Range Action) :=
  [act 33 33 target actions, act 35 39 target actions, act 42 43 target actions,
    act 45 46 target actions, act 48 57 target actions, act 65 90 target actions,
    act 94 122 target actions, act 124 124 target actions, act 126 126 target actions]

def name : List (Range Action) := also (act 58 58 22 [.writeField]) (token 21 [])

def value : List (Range Action) :=
  [go 0 9 23, act 10 10 20 [.writeValue], go 11 12 23, act 13 13 24 [.writeValue], go 14 255 23]

def letter (c target : Nat) (row : List (Range Action)) : List (Range Action) :=
  cut c target (cut (c + 32) target row)

/-- Behind the colon of a field name: blanks lead to `self`, the value's `own` bytes come first. -/
def valueStart (self lf cr : Nat) (own : List (Range Action)) : List (Range Action) :=
  own.append [act 9 9 self [.startValue], act 10 10 lf [.startValue, .writeValue],
    act 11 12 self [.startValue], act 13 13 cr [.startValue, .writeValue],
    act 32 32 self [.startValue], act 0 255 23 [.startValue]]

def rows : List (List (Range Action)) :=
  [[], [act 48 57 2 [.mark], act 65 70 2 [.mark], act 72 72 8 [.mark], act 97 102 2 [.mark]],
   [act 10 10 120 [.chunkSize, .done], act 13 13 3 [.chunkSize], go 48 57 2,
    act 59 59 4 [.chunkSize], go 65 70 2, go 97 102 2], [act 10 10 120 [.done]],
   token 5 [.startField],
   act 10 10 120 [.writeField, .startValue, .writeValue, .done] ::
    act 13 13 3 [.writeField, .startValue, .writeValue] ::
    also (act 59 59 4 [.writeField, .startValue, .writeValue])
      (also (act 61 61 6 [.writeField, .startValue]) (token 5 [])),
   token 7 [.startValue],
   act 10 10 120 [.writeValue, .done] :: act 13 13 3 [.writeValue] ::
    also (act 59 59 4 [.writeValue]) (token 7 []),
   [go 84 84 9], [go 84 84 10], [go 80 80 11], [go 47 47 12], [go 48 57 13],
   [go 46 46 14, go 48 57 13], [go 48 57 15], [act 32 32 16 [.httpVersion], go 48 57 15],
   [act 48 57 17 [.mark]], [act 32 32 18 [.statusCode], go 48 57 17],
   [act 0 9 19 [.mark], act 11 255 19 [.mark]],
   [go 0 9 19, act 10 10 20 [.reasonPhrase], go 11 12 19, act 13 13 24 [.reasonPhrase],
    go 14 255 19],
   act 10 10 120 [.done] :: go 13 13 3 :: letter 67 25 (letter 84 44 (token 21 [.startField])),
   name,
   valueStart 22 20 24 [], value, [go 10 10 20],
   letter 79 26 name, letter 78 27 name, letter 78 28 (letter 84 101 name), letter 69 29 name,
   letter 67 30 name, letter 84 31 name, letter 73 32 name, letter 79 33 name, letter 78 34 name,
   cut 58 35 name,
   valueStart 35 36 95 [act 67 67 96 [.startValue], act 99 99 96 [.startValue]],
   go 9 9 37 :: act 10 10 122 [.done] :: go 11 12 37 :: go 13 13 89 :: go 32 32 37 ::
    letter 67 90 (letter 84 44 (token 21 [.startField])),
   [go 9 13 37, go 32 32 37, go 67 67 38, go 99 99 38], [go 76 76 39, go 108 108 39],
   [go 79 79 40, go 111 111 40], [go 83 83 41, go 115 115 41], [go 69 69 42, go 101 101 42],
   [go 10 10 43, go 13 13 88],
   act 10 10 120 [.writeConnectionClose, .done] :: act 13 13 3 [.writeConnectionClose] ::
    letter 67 25 (letter 84 44 (token 21 [.writeConnectionClose, .startField])),
   letter 82 45 name, letter 65 46 name, letter 78 47 name, letter 83 48 name,
   letter 70 49 name, letter 69 50 name, letter 82 51 name, cut 45 52 name, letter 69 53 name,
   letter 78 54 name, letter 67 55 name, letter 79 56 name, letter 68 57 name, letter 73 58 name,
   letter 78 59 name, letter 71 60 name, cut 58 61 name,
   valueStart 61 62 80 [act 67 67 81 [.startValue], act 99 99 81 [.startValue]],
   go 9 9 63 :: act 10 10 121 [.done] :: go 11 12 63 :: go 13 13 72 :: go 32 32 63 ::
    act 67 67 73 [.startValue, .startField] :: act 99 99 73 [.startValue, .startField] ::
    letter 84 44 (token 21 [.startField]),
   [go 9 13 63, go 32 32 63, act 67 67 64 [.startValue], act 99 99 64 [.startValue]],
   [go 72 72 65, go 104 104 65], [go 85 85 66, go 117 117 66], [go 78 78 67, go 110 110 67],
   [go 75 75 68, go 107 107 68], [go 69 69 69, go 101 101 69], [go 68 68 70, go 100 100 70],
   [act 10 10 20 [.writeValue, .transChunked], act 13 13 71 [.writeValue]],
   [act 10 10 20 [.transChunked]],
   [go 9 9 63, act 10 10 121 [.done], go 11 13 63, go 32 32 63, act 67 67 64 [.startValue],
    act 99 99 64 [.startValue]], letter 72 74 (letter 79 26 name), letter 85 75 name,
   letter 78 76 name, letter 75 77 name, letter 69 78 name, letter 68 79 name,
   act 10 10 20 [.writeValue, .transChunked] :: act 13 13 71 [.writeValue] :: name,
   [go 9 9 63, go 10 10 62, go 11 13 63, go 32 32 63, act 67 67 64 [.startValue],
    act 99 99 64 [.startValue]], letter 72 82 value, letter 85 83 value, letter 78 84 value,
   letter 75 85 value, letter 69 86 value, letter 68 87 value,
   act 10 10 20 [.writeValue, .transChunked] :: act 13 13 71 [.writeValue] :: value, [go 10 10 43],
   [go 9 9 37, act 10 10 122 [.done], go 11 13 37, go 32 32 37, go 67 67 38, go 99 99 38],
   letter 76 91 (letter 79 26 name), letter 79 92 name, letter 83 93 name, letter 69 94 name,
   go 10 10 43 :: go 13 13 88 :: name,
   [go 9 9 37, go 10 10 36, go 11 13 37, go 32 32 37, go 67 67 38, go 99 99 38], letter 76 97 value,
   letter 79 98 value, letter 83 99 value, letter 69 100 value, cut 10 43 (cut 13 88 value),
   letter 69 102 name, letter 78 103 name, letter 84 104 name, cut 45 105 name, letter 76 106 name,
   letter 69 107 name, letter 78 108 name, letter 71 109 name, letter 84 110 name,
   letter 72 111 name, cut 58 112 name,
   valueStart 112 113 118 [act 48 57 119 [.startValue]],
   go 9 9 114 :: act 10 10 123 [.done] :: go 11 12 114 :: go 13 13 116 :: go 32 32 114 ::
    act 48 57 117 [.startValue, .startField] ::
    letter 67 25 (letter 84 44 (token 21 [.startField])),
   [go 9 13 114, go 32 32 114, act 48 57 115 [.startValue]],
   [act 10 10 20 [.writeContentLen, .writeValue], act 13 13 24 [.writeContentLen, .writeValue],
    go 48 57 115],
   [go 9 9 114, act 10 10 123 [.done], go 11 13 114, go 32 32 114, act 48 57 115 [.startValue]],
   act 10 10 20 [.writeContentLen, .writeValue] :: act 13 13 24 [.writeContentLen, .writeValue] ::
    go 48 57 117 :: name,
   [go 9 9 114, go 10 10 113, go 11 13 114, go 32 32 114, act 48 57 115 [.startValue]],
   act 10 10 20 [.writeContentLen, .writeValue] :: act 13 13 24 [.writeContentLen, .writeValue] ::
    go 48 57 119 :: value, [],
   [go 9 13 63, go 32 32 63, act 67 67 64 [.startValue], act 99 99 64 [.startValue]],
   [go 9 13 37, go 32 32 37, go 67 67 38, go 99 99 38],
   [go 9 13 114, go 32 32 114, act 48 57 115 [.startValue]]]

end Helens.HttpClient
