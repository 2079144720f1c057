import Helens.HttpClientParser

/-! `HttpConnection::recvResponse` of `http/http_connection.cc`, and when a chunked
body comes out of it whole. -/

namespace Helens.HttpConnection
open Lib.StateError Lib.Segments Lib.Scanner Http HttpClient Helens.Stream List

/-! ## `http_connection.cc` -/

def recvHead (buffSize : Nat) : Nat → Parser → List UInt8 → Net (Option (Parser × List UInt8)) :=
  httpclientParser.recvHead (execute false) buffSize

/-- The read at the top of the loop for a chunk header; the first round makes none
when there are bytes in the buffer. -/
def fill (buffSize : Nat) (first : Bool) (data : List UInt8) : Net (Option (List UInt8)) := do
  if !first || data.isEmpty then
    let (rt, x) ← Stream.read (buffSize - data.length)
    if rt ≤ 0 then failed else return some (data ++ x)
  else return some data

def recvChunkHeader (buffSize : Nat) :
    Nat → Bool → Parser → List UInt8 → Net (Option (Parser × List UInt8))
  | 0, _, _, _ => throw .fuel
  | fuel + 1, first, parser, data => do
    match ← fill buffSize first data with
    | none => return none
    | some data =>
      match execute true parser data with
      | .error e => throw e
      | .ok (nparse, parser) =>
        let rest := data.drop nparse
        if httpclientParser.hasError parser then failed
        else if (rest.length : Int) = toInt32 buffSize then failed
        else if httpclientParser.isFinished parser ≠ 0 then return some (parser, rest)
        else recvChunkHeader buffSize fuel false parser rest

/-- The `left` bytes of a chunk and its line end that are not in the buffer of `buffSize` bytes yet.
-/
def recvLeft (buffSize : Nat) : Nat → Int → List UInt8 → Net (Option (List UInt8))
  | 0, _, _ => throw .fuel
  | fuel + 1, left, body =>
    if left > 0 then do
      let n := if left > toInt32 buffSize then toInt32 buffSize else left
      let (rt, x) ← Stream.read (toSize n)
      if buffSize < x.length then throw .overrun
      else if rt ≤ 0 then failed
      else recvLeft buffSize fuel (left - rt) (body ++ x)
    else return some body

def recvData (buffSize : Nat) (contentLen : Int) (body data : List UInt8) :
    Net (Option (List UInt8 × List UInt8)) :=
  if toInt32 (contentLen + 2) ≤ data.length then
    if contentLen < 0 ∨ data.length < contentLen then throw .overrun
    else return some (body ++ data.take contentLen.toNat, data.drop (contentLen.toNat + 2))
  else do
    let left := toInt32 (contentLen - data.length + 2)
    match ← recvLeft buffSize (left.toNat + 1) left (body ++ data) with
    | none => return none
    | some body =>
      if body.length < 2 then throw .overrun
      else return some (body.take (body.length - 2), [])

def recvChunks (buffSize : Nat) :
    Nat → Parser → List UInt8 → List UInt8 → Net (Option (Parser × List UInt8))
  | 0, _, _, _ => throw .fuel
  | fuel + 1, parser, data, body => do
    let c ← get
    match ← recvChunkHeader buffSize (c.inbox.flatten.length + 2) true parser data with
    | none => return none
    | some (parser, data) =>
      match ← recvData buffSize parser.data.contentLen body data with
      | none => return none
      | some (body, data) =>
        if parser.data.chunksDone then return some (parser, body)
        else recvChunks buffSize fuel parser data body

def recvBody (lib : Library) (buffSize : Nat) (parser : Parser) (rest : List UInt8) :
    Net (Option (Parser × List UInt8)) := do
  if parser.data.chunked then
    let c ← get
    recvChunks buffSize (c.inbox.flatten.length + rest.length + 1) parser rest []
  else
    match ← recvFixed lib (toInt64 (getContentLength lib parser)) rest with
    | none => return none
    | some body => return some (parser, body)

structure Inflate where
  gzip : List UInt8 → List UInt8
  deflate : List UInt8 → List UInt8

def contentEncoding (r : HttpResponse) : List UInt8 :=
  (findEntry (ascii "content-encoding") r.headers).getD []

def setContent (z : Inflate) (r : HttpResponse) (body : List UInt8) : HttpResponse :=
  if body.isEmpty then r
  else if sameText (contentEncoding r) (ascii "gzip") then { r with body := z.gzip body }
  else if sameText (contentEncoding r) (ascii "deflate") then { r with body := z.deflate body }
  else { r with body := body }

def recvResponse (lib : Library) (z : Inflate) (buffSize : Nat) : Net (Option HttpResponse) := do
  let c ← get
  match ← recvHead buffSize (c.inbox.flatten.length + 1) (httpclientParserInit {}) [] with
  | none => return none
  | some (parser, rest) =>
    match ← recvBody lib buffSize parser rest with
    | none => return none
    | some (parser, body) => return some (setContent z parser.data.response body)

/-! ## Chunked responses on the wire -/

/-- A chunk: its size in hexadecimal digits, with any number of zeros in front, and
its data. The chunk that ends the body has no data. -/
structure Chunk where
  digits : List UInt8
  data : List UInt8
  some_digit : digits ≠ []
  hex : ∀ d ∈ digits, digitVal d < 16
  size : digitsVal 16 digits = data.length

def Chunk.header (ch : Chunk) : List UInt8 := ch.digits ++ [13, 10]

def Chunk.bytes (ch : Chunk) : List UInt8 := ch.header ++ (ch.data ++ [13, 10])

/-- A header block that the automaton accepts, that ends in the state
`httpclient_parser_is_finished` looks for and says that the body is chunked. -/
structure ChunkedHead where
  text : List UInt8
  parsed : Parse Nat Reg Data
  accepted : parse httpclientParser.machine text text 0
    ⟨httpclientParserStart, fun _ => none, {}, []⟩ = some parsed
  valid : parsed.data.error = 0
  finished : parsed.cs = httpclientParserFirstFinal
  chunked : parsed.data.chunked = true

structure ChunkedResponse where
  head : ChunkedHead
  chunks : List Chunk
  last : Chunk
  some_data : ∀ ch ∈ chunks, ch.data ≠ []
  no_data : last.data = []

namespace ChunkedResponse

variable (r : ChunkedResponse)

def bytes : List UInt8 := r.head.text ++ (r.chunks ++ [r.last]).flatMap Chunk.bytes

def body : List UInt8 := r.chunks.flatMap Chunk.data

def Plain : Prop :=
  sameText (contentEncoding r.head.parsed.data.response) (ascii "gzip") = false ∧
    sameText (contentEncoding r.head.parsed.data.response) (ascii "deflate") = false
  deriving Decidable

def Fits : Prop := ∀ ch ∈ r.chunks, ch.data.length + 2 < 2 ^ 31
  deriving Decidable

end ChunkedResponse

/-! ## Reads -/

/-- Where the buffer ends when the header of a chunk at position `o` is parsed; the last read ended
at `e`. -/
def bufferEnd (buffSize : Nat) (segs : List (List UInt8)) (o e : Nat) : Nat :=
  if e = o then o + (readAt buffSize segs o).length else e

/-- Every chunk header, from position `o` on, is in the buffer as a whole when its first byte is. -/
def HeadersWhole (buffSize : Nat) (segs : List (List UInt8)) : Nat → Nat → List Chunk → Prop
  | _, _, [] => True
  | o, e, ch :: chs =>
    o + ch.header.length ≤ bufferEnd buffSize segs o e ∧
      HeadersWhole buffSize segs (o + ch.bytes.length)
        (max (bufferEnd buffSize segs o e) (o + ch.bytes.length)) chs

instance (buffSize : Nat) (segs : List (List UInt8)) :
    (o e : Nat) → (chs : List Chunk) → Decidable (HeadersWhole buffSize segs o e chs)
  | _, _, [] => isTrue trivial
  | o, e, ch :: chs =>
    have : Decidable (HeadersWhole buffSize segs (o + ch.bytes.length)
        (max (bufferEnd buffSize segs o e) (o + ch.bytes.length)) chs) :=
      instDecidableHeadersWhole buffSize segs _ _ chs
    inferInstanceAs (Decidable (_ ∧ _))

/-- The reads for a response: none for the header block ends in a text that is reported,
and every chunk header comes as a whole. -/
def ReadsWell (buffSize : Nat) (segs : List (List UInt8)) (r : ChunkedResponse) : Prop :=
  ∀ e ∈ readEnds buffSize segs (0 + r.head.text.length) r.head.text.length 0,
    EndsWell buffSize 0 r.head.text.length r.head.parsed.tokens e ∧ (0 + r.head.text.length ≤ e →
        HeadersWhole buffSize segs r.head.text.length e (r.chunks ++ [r.last]))
  deriving Decidable

structure Buffered (segs : List (List UInt8)) (o : Nat) (data : List UInt8) (c : Conn) : Prop where
  delivered : Delivered segs (o + data.length) c
  stream : segs.flatten.drop o = data ++ segs.flatten.drop (o + data.length)

variable {segs : List (List UInt8)} {c : Conn} {buffSize : Nat}

variable {x data more : List UInt8}

theorem Buffered.drop {z : List UInt8}
    (h : Buffered segs o (x ++ z) c) : Buffered segs (o + x.length) z c := by
  have hat : o + (x ++ z).length = o + x.length + z.length := by rw [length_append]; omega
  refine ⟨hat ▸ h.delivered, ?_⟩
  rw [← drop_drop, h.stream, append_assoc, drop_left, hat]

theorem Buffered.split {h : List UInt8}
    (hb : Buffered segs o data c) (hs : segs.flatten.drop o = h ++ more)
    (hlen : h.length ≤ data.length) : ∃ z, data = h ++ z := by
  exact head_extends (hb.stream.symm.trans hs) hlen

/-! ## Chunks -/

theorem fill_eq {ch : Chunk} (hs : segs.flatten.drop o = ch.bytes ++ more)
    (hb : Buffered segs o data c)
    (hw : o + ch.header.length ≤ bufferEnd buffSize segs o (o + data.length)) :
    ∃ z c', (fill buffSize true data).run c = .ok (some (ch.header ++ z)) c' ∧
      Buffered segs o (ch.header ++ z) c' ∧
      o + (ch.header ++ z).length = bufferEnd buffSize segs o (o + data.length) := by
  have hs' : segs.flatten.drop o = ch.header ++ (ch.data ++ [13, 10] ++ more) := by
    rw [hs, Chunk.bytes, append_assoc]
  by_cases hnil : data = []
  · subst hnil
    rw [bufferEnd, length_nil, Nat.add_zero, if_pos rfl] at hw ⊢
    obtain ⟨c', hread, hc'⟩ := (show Delivered segs o c from hb.delivered).read buffSize
    have hb' : Buffered segs o (readAt buffSize segs o) c' := ⟨hc', readAt_append buffSize segs o⟩
    obtain ⟨z, hz⟩ := hb'.split hs' (by omega)
    have hpos : 0 < ch.header.length := by rw [Chunk.header, length_append]; simp
    rw [hz] at hread hb' ⊢
    refine ⟨z, c', ?_, hb', rfl⟩
    rw [fill, if_pos (by decide), length_nil, Nat.sub_zero, run_bind_ok hread]
    dsimp only
    rw [if_neg (by rw [length_append]; omega)]
    rfl
  · have hpos := length_pos_iff.mpr hnil
    rw [bufferEnd, if_neg (by omega)] at hw ⊢
    obtain ⟨z, rfl⟩ := hb.split hs' (by omega)
    refine ⟨z, c, ?_, hb, rfl⟩
    rw [fill, if_neg (by simpa using hnil)]
    rfl

theorem recvChunkHeader_eq (hB : buffSize < 2 ^ 31) {ch : Chunk}
    (hs : segs.flatten.drop o = ch.bytes ++ more) (hb : Buffered segs o data c)
    (hroom : data.length ≤ buffSize)
    (hw : o + ch.header.length ≤ bufferEnd buffSize segs o (o + data.length))
    (herr : p.data.error = 0) (fuel) :
    ∃ p' z c', (recvChunkHeader buffSize (fuel + 1) true p data).run c = .ok (some (p', z)) c' ∧
      p'.data = chunkSize (ch.digits ++ [13]) (httpclientParserInit p.data).data ∧
      Buffered segs (o + ch.header.length) z c' ∧ z.length ≤ buffSize ∧
      o + ch.header.length + z.length = bufferEnd buffSize segs o (o + data.length) := by
  obtain ⟨z, c', hfill, hb', hend⟩ := fill_eq hs hb hw
  obtain ⟨p', hexec, hok, hfin, hd⟩ := execute_chunkHeader ch.some_digit ch.hex z herr
  rw [length_append] at hend
  have hpos : 0 < ch.header.length := by rw [Chunk.header, length_append]; simp
  have hzlen : z.length < buffSize := by
    have hle := readAt_length_le buffSize segs o
    rw [bufferEnd] at hend
    split at hend <;> omega
  have hrest : (ch.header ++ z).drop (ch.digits ++ [13, 10]).length = z := drop_left
  refine ⟨p', z, c', ?_, hd, hb'.drop, by omega, by omega⟩
  rw [recvChunkHeader, run_bind_ok hfill]
  dsimp only
  rw [show execute true p (ch.header ++ z) = _ from hexec]
  dsimp only
  rw [hok, if_neg (by decide), hrest, toInt32_of_lt hB, if_neg (by omega), hfin, if_pos (by decide)]
  rfl

theorem toSize_left (hB : buffSize < 2 ^ 31) (left : Nat) :
    toSize (if (left : Int) > toInt32 buffSize then toInt32 buffSize else left) =
      min left buffSize := by
  rw [toInt32_of_lt hB]
  split
  · rw [toSize_natCast (by omega)]
    omega
  · rw [toSize_natCast (by omega)]
    omega

theorem recvLeft_eq (hpos : 0 < buffSize) (hB : buffSize < 2 ^ 31) {fuel k : Nat}
    {w : List UInt8} (body : List UInt8) (hc : Delivered segs k c)
    (hs : segs.flatten.drop k = w ++ more) (hf : w.length < fuel) :
    ∃ c', (recvLeft buffSize fuel w.length body).run c = .ok (some (body ++ w)) c' ∧
      Delivered segs (k + w.length) c' := by
  induction fuel generalizing k w body c with
  | zero => exact absurd hf (Nat.not_lt_zero _)
  | succ fuel ih =>
    rw [recvLeft]
    by_cases hw : w = []
    · subst hw
      exact ⟨c, by simp, hc⟩
    · have hlen := length_pos_iff.mpr hw
      have hn := toSize_left hB w.length
      have hin : k < segs.flatten.length := by
        have := congrArg List.length hs
        rw [length_drop, length_append] at this
        omega
      obtain ⟨c₁, hread, hc₁⟩ := hc.read (min w.length buffSize)
      have hx := readAt_ne_nil (show 0 < min w.length buffSize by omega) hin
      have hle := readAt_length_le (min w.length buffSize) segs k
      have hsplit := readAt_append (min w.length buffSize) segs k
      generalize readAt (min w.length buffSize) segs k = x at *
      have hxpos := length_pos_iff.mpr hx
      obtain ⟨w', rfl⟩ := head_extends (hs.symm.trans hsplit) (by omega)
      have hs₁ : segs.flatten.drop (k + x.length) = w' ++ more := by
        rw [← drop_drop, hs, append_assoc, drop_left]
      rw [length_append] at hf hle hlen
      obtain ⟨c₂, hrun, hc₂⟩ := ih (body ++ x) hc₁ hs₁ (by omega)
      refine ⟨c₂, ?_, ?_⟩
      · rw [if_pos (by rw [length_append]; omega)]
        dsimp only
        rw [hn, run_bind_ok hread]
        dsimp only
        have hleft : (((x ++ w').length : Nat) : Int) - (x.length : Int) = w'.length := by
          rw [length_append]
          omega
        rw [if_neg (by omega), if_neg (by omega), hleft, ← append_assoc]
        exact hrun
      · rw [length_append, ← Nat.add_assoc]
        exact hc₂

/-- The data of a chunk is appended, and what the reads have brought behind the chunk
stays in the buffer. -/
theorem recvData_eq (hpos : 0 < buffSize) (hB : buffSize < 2 ^ 31) (body)
    (hfits : x.length + 2 < 2 ^ 31)
    (hs : segs.flatten.drop o = x ++ [13, 10] ++ more) (hb : Buffered segs o data c)
    (hroom : data.length ≤ buffSize) :
    ∃ data' c', (recvData buffSize x.length body data).run c = .ok (some (body ++ x, data')) c' ∧
      Buffered segs (o + (x ++ [13, 10]).length) data' c' ∧ data'.length ≤ buffSize ∧
      o + (x ++ [13, 10]).length + data'.length =
        max (o + data.length) (o + (x ++ [13, 10]).length) := by
  have htwo : toInt32 ((x.length : Int) + 2) = x.length + 2 := by
    have := toInt32_of_lt hfits
    push_cast at this
    exact this
  have hxlen : (x ++ [13, 10]).length = x.length + 2 := by rw [length_append]; rfl
  rw [recvData, htwo]
  by_cases hall : x.length + 2 ≤ data.length
  · -- the whole chunk is in the buffer
    obtain ⟨z, rfl⟩ := hb.split hs (by omega)
    have htake : (x ++ [13, 10] ++ z).take x.length = x := by
      rw [append_assoc, take_left]
    have hdrop : (x ++ [13, 10] ++ z).drop (x.length + 2) = z := by
      rw [← hxlen, drop_left]
    rw [length_append] at hroom
    refine ⟨z, c, ?_, hb.drop, by omega, ?_⟩
    · rw [if_pos (by omega), if_neg (by omega), Int.toNat_natCast, htake, hdrop]
      rfl
    · have hz : (x ++ [13, 10] ++ z).length = (x ++ [13, 10]).length + z.length :=
        length_append
      omega
  · -- the rest of the chunk has to be read
    obtain ⟨w, hw⟩ := head_extends (hs.symm.trans hb.stream) (by omega)
    have hwlen : x.length + 2 = data.length + w.length := by
      rw [← hxlen, hw, length_append]
    have hs₁ : segs.flatten.drop (o + data.length) = w ++ more := by
      rw [← drop_drop, hs, hw, append_assoc, drop_left]
    have hleft : toInt32 ((x.length : Int) - data.length + 2) = w.length := by
      have hsub : (x.length : Int) - data.length + 2 = w.length := by omega
      rw [hsub, toInt32_of_lt (by omega)]
    obtain ⟨c', hrun, hc'⟩ := recvLeft_eq hpos hB (body ++ data) hb.delivered hs₁
      (Nat.lt_succ_self w.length)
    have hat : o + data.length + w.length = o + (x ++ [13, 10]).length := by omega
    rw [hat] at hc'
    have hbody : body ++ data ++ w = body ++ x ++ [13, 10] := by
      rw [append_assoc, ← hw, append_assoc]
    refine ⟨[], c', ?_, ⟨hc', rfl⟩, Nat.zero_le _, ?_⟩
    · rw [if_neg (by omega)]
      dsimp only
      rw [hleft, Int.toNat_natCast, run_bind_ok hrun]
      dsimp only
      have hl : (body ++ x ++ [13, 10]).length = (body ++ x).length + 2 := length_append
      rw [hbody, hl, if_neg (by omega), Nat.add_sub_cancel, take_left]
      rfl
    · rw [length_nil]
      omega

theorem Chunk.chunkSize_eq (ch : Chunk) (hfits : ch.data.length + 2 < 2 ^ 31) (d) :
    chunkSize (ch.digits ++ [13]) d =
      { d with chunked := true, contentLen := ch.data.length, chunksDone := ch.data.isEmpty } := by
  have hlen : toInt32 (strtol 16 (ch.digits ++ [13])) = ch.data.length := by
    rw [strtol_digits (by decide) ch.some_digit ch.hex (by decide), ch.size,
      min_eq_left (by omega), toInt32_of_lt (by omega)]
  have hdone : decide ((ch.data.length : Int) ≤ 0) = ch.data.isEmpty := by
    cases ch.data with
    | nil => rfl
    | cons b l => simp
  rw [chunkSize, hlen, hdone]

theorem recvChunks_round (hpos : 0 < buffSize) (hB : buffSize < 2 ^ 31) {ch : Chunk}
    (body) (hs : segs.flatten.drop o = ch.bytes ++ more)
    (hb : Buffered segs o data c) (hroom : data.length ≤ buffSize)
    (hw : o + ch.header.length ≤ bufferEnd buffSize segs o (o + data.length))
    (hfits : ch.data.length + 2 < 2 ^ 31) (herr : p.data.error = 0) (fuel) :
    ∃ p' data' c', (recvChunks buffSize (fuel + 1) p data body).run c =
        (if ch.data.isEmpty then (pure (some (p', body ++ ch.data)) : Net _)
          else recvChunks buffSize fuel p' data' (body ++ ch.data)).run c' ∧
      p'.data.error = 0 ∧ p'.data.response = p.data.response ∧
      Buffered segs (o + ch.bytes.length) data' c' ∧ data'.length ≤ buffSize ∧
      o + ch.bytes.length + data'.length =
        max (bufferEnd buffSize segs o (o + data.length)) (o + ch.bytes.length) := by
  obtain ⟨p', z, c₁, hrun₁, hd, hb₁, hroom₁, hend₁⟩ :=
    recvChunkHeader_eq hB hs hb hroom hw herr (c.inbox.flatten.length + 1)
  have hs₁ : segs.flatten.drop (o + ch.header.length) = ch.data ++ [13, 10] ++ more := by
    rw [← drop_drop, hs, Chunk.bytes, append_assoc, drop_left]
  obtain ⟨data', c₂, hrun₂, hb₂, hroom₂, hend₂⟩ :=
    recvData_eq hpos hB body hfits hs₁ hb₁ hroom₁
  rw [ch.chunkSize_eq hfits] at hd
  have hat : o + ch.header.length + (ch.data ++ [13, 10]).length = o + ch.bytes.length := by
    rw [Nat.add_assoc, ← length_append]
    rfl
  rw [hat] at hb₂ hend₂
  rw [hend₁] at hend₂
  refine ⟨p', data', c₂, ?_, by rw [hd]; exact herr, by rw [hd]; rfl, hb₂, hroom₂, hend₂⟩
  rw [recvChunks, EStateM.run_bind, EStateM.run_get]
  dsimp only
  rw [run_bind_ok hrun₁]
  dsimp only
  rw [hd, run_bind_ok hrun₂]

theorem recvChunks_eq (hpos : 0 < buffSize) (hB : buffSize < 2 ^ 31) {last : Chunk}
    (hlast : last.data = []) {chs : List Chunk} {o fuel : Nat}
    (body) (hne : ∀ ch ∈ chs, ch.data ≠ [])
    (hfits : ∀ ch ∈ chs, ch.data.length + 2 < 2 ^ 31)
    (hs : segs.flatten.drop o = (chs ++ [last]).flatMap Chunk.bytes ++ more)
    (hb : Buffered segs o data c) (hroom : data.length ≤ buffSize)
    (hw : HeadersWhole buffSize segs o (o + data.length) (chs ++ [last]))
    (herr : p.data.error = 0) (hf : chs.length < fuel) :
    ∃ p' c', (recvChunks buffSize fuel p data body).run c =
        .ok (some (p', body ++ chs.flatMap Chunk.data)) c' ∧
      p'.data.response = p.data.response := by
  induction chs generalizing o fuel data body c p with
  | nil =>
    obtain ⟨fuel, rfl⟩ : ∃ f, fuel = f + 1 := ⟨fuel - 1, by omega⟩
    have hs' : segs.flatten.drop o = last.bytes ++ more := by simpa using hs
    obtain ⟨p', _, c', hrun, _, hresp, _⟩ := recvChunks_round hpos hB body hs' hb hroom
      hw.1 (by rw [hlast]; decide) herr fuel
    refine ⟨p', c', ?_, hresp⟩
    rw [hrun, hlast, if_pos (by decide)]
    rfl
  | cons ch chs ih =>
    obtain ⟨fuel, rfl⟩ : ∃ f, fuel = f + 1 := ⟨fuel - 1, by omega⟩
    rw [cons_append, flatMap_cons, append_assoc] at hs
    obtain ⟨p₁, data₁, c₁, hrun₁, herr₁, hresp₁, hb₁, hroom₁, hend₁⟩ :=
      recvChunks_round hpos hB body hs hb hroom hw.1
        (hfits ch (mem_cons_self ..)) herr fuel
    have hs₁ : segs.flatten.drop (o + ch.bytes.length) =
        (chs ++ [last]).flatMap Chunk.bytes ++ more := by
      rw [← drop_drop, hs, drop_left]
    obtain ⟨p', c', hrun, hresp⟩ := ih (body ++ ch.data)
      (fun x hx => hne x (mem_cons_of_mem _ hx))
      (fun x hx => hfits x (mem_cons_of_mem _ hx)) hs₁ hb₁ hroom₁
      (by rw [hend₁]; exact hw.2) herr₁ (Nat.lt_of_succ_lt_succ hf)
    refine ⟨p', c', ?_, hresp.trans hresp₁⟩
    rw [hrun₁, if_neg (by simpa using hne ch (mem_cons_self ..)), hrun, flatMap_cons, append_assoc]

/-! ## Whole responses -/

theorem ChunkedHead.parsed_body (head : ChunkedHead) : head.parsed.data.response.body = [] :=
  parse_data (P := fun d => d.response.body = [])
    (fun rep texts left d hd => (handle_body rep texts left d).trans hd) head.accepted rfl

theorem ChunkedResponse.setContent_body (r : ChunkedResponse) (z)
    (hplain : r.Plain ∨ r.chunks = []) :
    (setContent z r.head.parsed.data.response r.body).body = r.body := by
  rw [setContent]
  split
  · rename_i hnil
    rw [r.head.parsed_body, isEmpty_iff.mp hnil]
  · rename_i hbody
    rcases hplain with hplain | hnone
    · rw [hplain.1, hplain.2]
      rfl
    · exact absurd (by rw [ChunkedResponse.body, hnone]; rfl) hbody

def Receives (lib : Library) (z : Inflate) (buffSize : Nat) (segs : List (List UInt8))
    (body : List UInt8) : Prop :=
  ∃ resp c, (recvResponse lib z buffSize).run (receiver segs) = .ok (some resp) c ∧ resp.body = body

theorem length_le_flatMap_bytes (chs : List Chunk) :
    chs.length ≤ (chs.flatMap Chunk.bytes).length := by
  induction chs with
  | nil => exact Nat.le_refl _
  | cons ch chs ih =>
    have hpos : 0 < ch.bytes.length := by simp [Chunk.bytes, Chunk.header]
    rw [flatMap_cons, length_append, length_cons]
    omega

/-- The body of a chunked response, of which the last read for the header block has
brought the bytes `x`. -/
theorem ChunkedResponse.recvBody_eq (r : ChunkedResponse) (hpos : 0 < buffSize)
    (hB : buffSize < 2 ^ 31) {w : List UInt8} (hs : segs.flatten = r.bytes) (hfits : r.Fits)
    (hc : Delivered segs (r.head.text.length + x.length) c)
    (hx : (r.chunks ++ [r.last]).flatMap Chunk.bytes = x ++ w) (hroom : x.length ≤ buffSize)
    (hwhole : HeadersWhole buffSize segs r.head.text.length (r.head.text.length + x.length)
      (r.chunks ++ [r.last])) (hd : p.data = r.head.parsed.data) :
    ∃ p' c', (recvBody lib buffSize p x).run c = .ok (some (p', r.body)) c' ∧
      p'.data.response = r.head.parsed.data.response := by
  have hs₁ : segs.flatten.drop r.head.text.length =
      (r.chunks ++ [r.last]).flatMap Chunk.bytes ++ [] := by
    rw [hs, ChunkedResponse.bytes, drop_left, append_nil]
  have hb : Buffered segs r.head.text.length x c := by
    refine ⟨hc, ?_⟩
    rw [append_nil] at hs₁
    rw [← drop_drop, hs₁, hx, drop_left]
  -- every chunk has bytes of its own, so the bytes to come bound the rounds
  have hcount : r.chunks.length < c.inbox.flatten.length + x.length + 1 := by
    have hbytes := length_le_flatMap_bytes (r.chunks ++ [r.last])
    have hall := congrArg List.length hb.stream
    rw [hs₁, append_nil, ← hc.flatten, length_append] at hall
    rw [length_append] at hbytes
    omega
  obtain ⟨p', c', hrun, hresp⟩ := recvChunks_eq hpos hB r.no_data [] r.some_data hfits hs₁ hb
    hroom hwhole (by rw [hd]; exact r.head.valid) hcount
  refine ⟨p', c', ?_, hresp.trans (by rw [hd])⟩
  rw [recvBody, hd, r.head.chunked, if_pos rfl, EStateM.run_bind, EStateM.run_get]
  exact hrun

/-- A chunked body is received whole when no read for the header block ends in a reported text and
every chunk header comes in one read. -/
theorem chunked_body_received (lib : Library) (z : Inflate) (buffSize : Nat)
    (hB : buffSize < 2 ^ 31) (segs : List (List UInt8)) (r : ChunkedResponse)
    (hs : segs.flatten = r.bytes) (hplain : r.Plain ∨ r.chunks = []) (hfits : r.Fits)
    (hw : ReadsWell buffSize segs r) : Receives lib z buffSize segs r.body := by
  have hs₀ : segs.flatten.drop 0 = r.head.text ++ (r.chunks ++ [r.last]).flatMap Chunk.bytes := hs
  obtain ⟨hpos, p, x, w, c₁, hrun, hc₁, hd, hx, hroom, hmem⟩ :=
    Automaton.recvHead_whole (p := httpclientParserInit {}) execute_of_ne_nil hs₀ r.head.accepted
      r.head.valid (decide_eq_true r.head.finished)
      (by decide : httpclientParserStart ≠ 0 ∧
        decide (httpclientParserStart = httpclientParserFirstFinal) = false)
      rfl rfl (delivered_receiver segs) fun e he => (hw e he).1
  have hwhole := (hw _ hmem).2 (Nat.le_add_right _ _)
  rw [Nat.zero_add] at hc₁ hwhole
  obtain ⟨p', c', hbody, hresp⟩ := r.recvBody_eq hpos hB hs hfits hc₁ hx hroom hwhole hd
  refine ⟨setContent z r.head.parsed.data.response r.body, c', ?_, r.setContent_body z hplain⟩
  rw [recvResponse, EStateM.run_bind, EStateM.run_get]
  dsimp only
  rw [recvHead, run_bind_ok hrun]
  dsimp only
  rw [run_bind_ok hbody]
  dsimp only
  rw [hresp]
  rfl

def chunkedText : List UInt8 := ascii "HTTP/1.1 200 OK\r\nTransfer-Encoding: chunked\r\n\r\n"

def chunkedHead : ChunkedHead where
  text := chunkedText
  parsed := (parse httpclientParser.machine chunkedText chunkedText 0
    ⟨httpclientParserStart, fun _ => none, {}, []⟩).get (by decide +kernel)
  accepted := by simp
  valid := by decide +kernel
  finished := by decide +kernel
  chunked := by decide +kernel

def helloResponse : ChunkedResponse where
  head := chunkedHead
  chunks :=
    [⟨ascii "05", ascii "hello", by decide, by decide +kernel, by decide +kernel⟩,
      ⟨ascii "A", ascii "chunk size", by decide, by decide +kernel, by decide +kernel⟩]
  last := ⟨ascii "00", [], by decide, by decide +kernel, by decide +kernel⟩
  some_data := by decide
  no_data := rfl

def calmSegs : List (List UInt8) :=
  [chunkedText.take 17, chunkedText.drop 17 ++ ascii "05\r\nhe", ascii "llo\r", ascii "\n",
    ascii "A\r\nchunk", ascii " size\r\n00\r\n", ascii "\r\n"]

theorem chunked_body_received_calm :
    Receives ⟨fun _ => none, 0⟩ ⟨id, id⟩ 4096 calmSegs helloResponse.body :=
  chunked_body_received _ ⟨id, id⟩ 4096 (by decide) calmSegs helloResponse (by decide +kernel)
    (.inl (by decide +kernel)) (by decide +kernel) (by decide +kernel)

def cutSegs : List (List UInt8) :=
  [chunkedText ++ ascii "05\r", ascii "\nhello\r\nA\r\nchunk size\r\n00\r\n\r\n"]

/-- Behind a read that ends in a chunk header the parser begins anew: it refuses the line
feed and the response is lost. -/
theorem chunk_header_lost :
    ¬ ∀ (lib : Library) (z : Inflate) (buffSize : Nat) (segs : List (List UInt8))
      (r : ChunkedResponse),
      r.head.text.length ≤ buffSize → (∀ ch ∈ r.chunks ++ [r.last], ch.header.length ≤ buffSize) →
      segs.flatten = r.bytes → Receives lib z buffSize segs r.body := by
  intro h
  obtain ⟨resp, c, hrun, _⟩ := h ⟨fun _ => none, 0⟩ ⟨id, id⟩ 4096 cutSegs helloResponse
    (by decide +kernel) (by decide +kernel) (by decide +kernel)
  have hnull : valueOf ((recvResponse ⟨fun _ => none, 0⟩ ⟨id, id⟩ 4096).run
      (receiver cutSegs)) = some none := by
    decide +kernel
  rw [valueOf_ok hrun] at hnull
  cases hnull

end Helens.HttpConnection
