import Helens.ByteArrayBuffers
import Helens.RockRoundtrip

/-! `ZlibStream` of `zlib_stream.cc`: output of `deflate` or `inflate`, collected in buffers of one
size. The library itself is a parameter. `encode` and `decode` look at one of its return codes
only, `Z_STREAM_ERROR`. -/

namespace Helens
open Lib.Blocks Lib.StateError Helens.ByteArray List

/-! ## The library -/

inductive ZCode
  | ok
  | streamEnd
  | needDict
  | errno
  | streamError
  | dataError
  | memError
  | bufError
  | versionError
  deriving DecidableEq

inductive ZFlush
  | noFlush
  | finish
  deriving DecidableEq

/-- What one call of `deflate` or `inflate` does: its return code, how much of the input it has
used, and what it has stored in the output. -/
structure ZAnswer where
  code : ZCode
  used : Nat
  out : List UInt8

/-- `deflate` or `inflate` on a `z_stream` of type `σ`, and what callers rely on: a call stores no
more than there is room for, nothing if the stream is inconsistent, and not without end. -/
structure ZLibrary (σ : Type) where
  call : σ → ZFlush → List UInt8 → Nat → ZAnswer × σ
  close : σ → σ
  /-- The most that calls without more input than this can still store. -/
  pending : σ → List UInt8 → Nat
  out_le : ∀ z flush input room, (call z flush input room).1.out.length ≤ room
  out_of_error : ∀ z flush input room, (call z flush input room).1.code = .streamError →
    (call z flush input room).1.out = []
  pending_call : ∀ z flush input room,
    (call z flush input room).1.out.length + pending (call z flush input room).2
      (input.drop (call z flush input room).1.used) ≤ pending z input

/-- The part of a buffer that `iov_len` counts is the buffer here. `answers` is what the library
has answered so far, which the source does not keep. -/
structure ZlibStream (σ : Type) where
  buffSize : Nat
  isEncode : Bool
  zstream : σ
  buffs : List (List UInt8)
  answers : List ZAnswer

namespace ZlibStream

variable {σ : Type}

def new (isEncode : Bool) (buffSize : Nat) (zstream : σ) : ZlibStream σ where
  buffSize := buffSize
  isEncode := isEncode
  zstream := zstream
  buffs := []
  answers := []

def withRoom (s : ZlibStream σ) : ZlibStream σ :=
  match s.buffs.getLast? with
  | none => { s with buffs := s.buffs ++ [[]] }
  | some b => if b.length ≠ s.buffSize then s else { s with buffs := s.buffs ++ [[]] }

/-- The `do` loop of `encode` and `decode`, over what is left of one piece of input. -/
def drain (z : ZLibrary σ) (flush : ZFlush) :
    Nat → ZlibStream σ → List UInt8 → Option (ZCode × ZlibStream σ)
  | 0, _, _ => none
  | fuel + 1, s, input =>
    let s := s.withRoom
    let last := s.buffs.getLastD []
    let room := s.buffSize - last.length
    let r := z.call s.zstream flush input room
    let a := r.1
    let s := { s with zstream := r.2, answers := s.answers ++ [a] }
    if a.code = .streamError then
      some (.streamError, s)
    else
      let s := { s with buffs := s.buffs.dropLast ++ [last ++ a.out] }
      if room - a.out.length = 0 then drain z flush fuel s (input.drop a.used) else some (.ok, s)

/-- The `for` loop of `encode` and `decode`. `avail_in` has 32 bits. -/
def process (z : ZLibrary σ) (finish : Bool) :
    List (List UInt8) → ZlibStream σ → Option (ZCode × ZlibStream σ)
  | [], s => some (.ok, s)
  | v :: vs, s => do
    let input := v.take (v.length % 2 ^ 32)
    let flush := if finish ∧ vs = [] then ZFlush.finish else .noFlush
    let (ret, s) ← drain z flush (z.pending s.zstream input + 1) s input
    if ret = .streamError then
      return (ret, s)
    if flush = .finish then
      return (.ok, { s with zstream := z.close s.zstream })
    process z finish vs s

variable (deflate inflate : ZLibrary σ)

def encode (v : List (List UInt8)) (finish : Bool) : ZlibStream σ → Option (ZCode × ZlibStream σ) :=
  process deflate finish v

def decode (v : List (List UInt8)) (finish : Bool) : ZlibStream σ → Option (ZCode × ZlibStream σ) :=
  process inflate finish v

/-- `write`, of one buffer or of the read buffers of a `ByteArray`. -/
def write (v : List (List UInt8)) (s : ZlibStream σ) : Option (ZCode × ZlibStream σ) :=
  if s.isEncode then encode deflate v false s else decode inflate v false s

def flush (s : ZlibStream σ) : Option (ZCode × ZlibStream σ) :=
  if s.isEncode then encode deflate [[]] true s else decode inflate [[]] true s

def getResult (s : ZlibStream σ) : List UInt8 := s.buffs.flatten

def getByteArray (s : ZlibStream σ) : BA Unit := Rock.getByteArray s.buffs

inductive Call
  | write (v : List (List UInt8))
  | flush

def Call.exec : Call → ZlibStream σ → Option (ZCode × ZlibStream σ)
  | .write v => ZlibStream.write deflate inflate v
  | .flush => ZlibStream.flush deflate inflate

def run : List Call → ZlibStream σ → Option (List ZCode × ZlibStream σ)
  | [], s => some ([], s)
  | call :: calls, s => do
    let (ret, s) ← call.exec deflate inflate s
    let (rets, s) ← run calls s
    return (ret :: rets, s)

def emitted (s : ZlibStream σ) : List UInt8 := s.answers.flatMap ZAnswer.out

/-! ## The buffers -/

/-- Every buffer but the last is full, and the buffers hold what the library has stored. -/
structure Packed (s : ZlibStream σ) : Prop where
  full : ∀ b ∈ s.buffs.dropLast, b.length = s.buffSize
  fits : ∀ b ∈ s.buffs, b.length ≤ s.buffSize
  bytes : s.buffs.flatten = s.emitted

theorem packed_new (isEncode : Bool) (buffSize : Nat) (zstream : σ) :
    (new isEncode buffSize zstream).Packed :=
  ⟨by simp [new], by simp [new], rfl⟩

variable {s : ZlibStream σ}

theorem packed_concat {front : List (List UInt8)} {last : List UInt8}
    (hbuffs : s.buffs = front ++ [last]) (hfull : ∀ b ∈ front, b.length = s.buffSize)
    (hlast : last.length ≤ s.buffSize) (hbytes : front.flatten ++ last = s.emitted) : s.Packed := by
  refine ⟨?_, ?_, ?_⟩
  · rwa [hbuffs, dropLast_concat]
  · intro b hb
    rw [hbuffs, mem_append, mem_singleton] at hb
    rcases hb with hb | rfl
    · exact Nat.le_of_eq (hfull b hb)
    · exact hlast
  · rw [hbuffs, flatten_concat, hbytes]

theorem Packed.withRoom_eq (h : s.Packed) (hsize : 1 ≤ s.buffSize) :
    ∃ front last, s.withRoom = { s with buffs := front ++ [last] } ∧
      (∀ b ∈ front, b.length = s.buffSize) ∧ last.length < s.buffSize ∧
      front.flatten ++ last = s.emitted := by
  have hbytes := h.bytes
  unfold withRoom
  cases hlast : s.buffs.getLast? with
  | none =>
    have hnil : s.buffs = [] := List.getLast?_eq_none_iff.mp hlast
    rw [hnil] at hbytes ⊢
    exact ⟨[], [], rfl, by simp, hsize, hbytes⟩
  | some b =>
    obtain ⟨front, hfront⟩ := List.getLast?_eq_some_iff.mp hlast
    have hfull := h.full
    have hfit := h.fits b (by simp [hfront])
    rw [hfront, dropLast_concat] at hfull
    rw [hfront, flatten_concat] at hbytes
    dsimp only
    split
    · rename_i hne
      refine ⟨front, b, ?_, hfull, by omega, hbytes⟩
      rw [← hfront]
    · rename_i heq
      refine ⟨s.buffs, [], rfl, ?_, hsize, ?_⟩
      · intro x hx
        rw [hfront, mem_append, mem_singleton] at hx
        rcases hx with hx | rfl
        · exact hfull x hx
        · omega
      · rw [append_nil]
        exact h.bytes

/-- A call that returned `ret`: the buffers hold all that was stored, and `ret` says whether an
answer was `Z_STREAM_ERROR`. -/
structure Advanced (s : ZlibStream σ) (ret : ZCode) (s' : ZlibStream σ) : Prop where
  buffSize : s'.buffSize = s.buffSize
  isEncode : s'.isEncode = s.isEncode
  packed : s'.Packed
  answers : ∃ new, s'.answers = s.answers ++ new ∧
    (ret = .streamError ∧ (∃ a ∈ new, a.code = .streamError) ∨
      ret = .ok ∧ ∀ a ∈ new, a.code ≠ .streamError)

theorem Advanced.trans {s s₁ s₂ : ZlibStream σ} {ret : ZCode} (h : s.Advanced .ok s₁)
    (h' : s₁.Advanced ret s₂) : s.Advanced ret s₂ := by
  obtain ⟨new, hnew, hret⟩ := h.answers
  obtain ⟨new', hnew', hret'⟩ := h'.answers
  refine ⟨h'.buffSize.trans h.buffSize, h'.isEncode.trans h.isEncode, h'.packed, new ++ new',
    ?_, ?_⟩
  · rw [hnew', hnew, append_assoc]
  · have hgood : ∀ a ∈ new, a.code ≠ .streamError := by
      rcases hret with ⟨hret, -⟩ | ⟨-, hgood⟩
      · cases hret
      · exact hgood
    rcases hret' with ⟨hret', a, ha, hbad⟩ | ⟨hret', hgood'⟩
    · exact .inl ⟨hret', a, mem_append_right _ ha, hbad⟩
    · refine .inr ⟨hret', ?_⟩
      intro a ha
      rcases mem_append.mp ha with ha | ha
      · exact hgood a ha
      · exact hgood' a ha

theorem Packed.drain_eq (z : ZLibrary σ) (flush) {fuel : Nat} {input : List UInt8}
    (h : s.Packed) (hsize : 1 ≤ s.buffSize) (hfuel : z.pending s.zstream input < fuel) :
    ∃ ret s', drain z flush fuel s input = some (ret, s') ∧ s.Advanced ret s' := by
  induction fuel generalizing s input with
  | zero => exact absurd hfuel (Nat.not_lt_zero _)
  | succ fuel ih =>
    obtain ⟨front, last, hroom, hfull, hlast, hbytes⟩ := h.withRoom_eq hsize
    have hget : (front ++ [last]).getLastD [] = last := by simp
    rw [drain, hroom]
    dsimp only
    rw [hget]
    have hout := z.out_le s.zstream flush input (s.buffSize - last.length)
    have herror := z.out_of_error s.zstream flush input (s.buffSize - last.length)
    have hpending := z.pending_call s.zstream flush input (s.buffSize - last.length)
    generalize z.call s.zstream flush input (s.buffSize - last.length) = r at hout herror hpending
    obtain ⟨a, zstream⟩ := r
    dsimp only at hout herror hpending ⊢
    have hemitted : ∀ t : ZlibStream σ, t.answers = s.answers ++ [a] →
        t.emitted = s.emitted ++ a.out := by
      intro t ht
      simp [emitted, ht]
    by_cases hcode : a.code = .streamError
    · -- nothing was stored, and the new buffer may be empty
      rw [if_pos hcode]
      refine ⟨_, _, rfl, rfl, rfl, packed_concat rfl hfull (Nat.le_of_lt hlast) ?_, [a], rfl,
        .inl ⟨rfl, a, by simp, hcode⟩⟩
      rw [hemitted _ rfl, herror hcode, append_nil, hbytes]
    · rw [if_neg hcode, dropLast_concat]
      have hround : s.Advanced .ok { s with
          buffs := front ++ [last ++ a.out], zstream := zstream, answers := s.answers ++ [a] } := by
        refine ⟨rfl, rfl, packed_concat rfl hfull ?_ ?_, [a], rfl, .inr ⟨rfl, by simpa using hcode⟩⟩
        · rw [length_append]
          dsimp only
          omega
        · rw [hemitted _ rfl, ← hbytes, append_assoc]
      split
      · -- the buffer is full now, so at least one byte was stored
        have hleft : z.pending zstream (input.drop a.used) < fuel := by omega
        obtain ⟨ret, s', hrun, hadv⟩ := ih hround.packed hsize hleft
        exact ⟨ret, s', hrun, hround.trans hadv⟩
      · exact ⟨.ok, _, rfl, hround⟩

theorem Advanced.refl (h : s.Packed) : s.Advanced .ok s :=
  ⟨rfl, rfl, h, [], by simp, .inr ⟨rfl, by simp⟩⟩

theorem Packed.process_eq (z finish v) (h : s.Packed) (hsize : 1 ≤ s.buffSize) :
    ∃ ret s', process z finish v s = some (ret, s') ∧ s.Advanced ret s' := by
  induction v generalizing s with
  | nil => exact ⟨.ok, s, rfl, .refl h⟩
  | cons v vs ih =>
    obtain ⟨ret, s₁, hrun, hadv⟩ := h.drain_eq z
      (if finish ∧ vs = [] then ZFlush.finish else .noFlush) hsize (Nat.lt_succ_self
        (z.pending s.zstream (v.take (v.length % 2 ^ 32))))
    rw [process]
    dsimp only
    rw [hrun]
    change ∃ ret' s', (if ret = .streamError then some (ret, s₁) else
      if (if finish ∧ vs = [] then ZFlush.finish else .noFlush) = .finish then
        some (.ok, { s₁ with zstream := z.close s₁.zstream }) else process z finish vs s₁) = _ ∧ _
    by_cases hret : ret = .streamError
    · rw [if_pos hret]
      exact ⟨ret, s₁, rfl, hadv⟩
    · have hok : ret = .ok := by
        obtain ⟨new, -, ⟨hbad, -⟩ | ⟨hok, -⟩⟩ := hadv.answers
        · exact absurd hbad hret
        · exact hok
      subst hok
      rw [if_neg hret]
      split
      · refine ⟨.ok, _, rfl, hadv.buffSize, hadv.isEncode, ?_, hadv.answers⟩
        exact ⟨hadv.packed.full, hadv.packed.fits, hadv.packed.bytes⟩
      · obtain ⟨ret, s₂, hrest, hadv'⟩ := ih hadv.packed (by rw [hadv.buffSize]; exact hsize)
        exact ⟨ret, s₂, hrest, hadv.trans hadv'⟩

theorem Packed.exec_eq (call : Call) (h : s.Packed) (hsize : 1 ≤ s.buffSize) :
    ∃ ret s', call.exec deflate inflate s = some (ret, s') ∧ s.Advanced ret s' := by
  cases call with
  | write v =>
    change ∃ ret s', (if s.isEncode then _ else _) = _ ∧ _
    split
    · exact h.process_eq deflate false v hsize
    · exact h.process_eq inflate false v hsize
  | flush =>
    change ∃ ret s', (if s.isEncode then _ else _) = _ ∧ _
    split
    · exact h.process_eq deflate true [[]] hsize
    · exact h.process_eq inflate true [[]] hsize

/-- What any calls have done, and whether one of them has returned something else than `Z_OK`. -/
theorem Packed.run_eq (calls) (h : s.Packed) (hsize : 1 ≤ s.buffSize) :
    ∃ rets s', run deflate inflate calls s = some (rets, s') ∧ s'.Packed ∧
      s'.buffSize = s.buffSize ∧ ∃ new, s'.answers = s.answers ++ new ∧
      ((∃ ret ∈ rets, ret ≠ .ok) ↔ ∃ a ∈ new, a.code = .streamError) := by
  induction calls generalizing s with
  | nil => exact ⟨[], s, rfl, h, rfl, [], by simp, by simp⟩
  | cons call calls ih =>
    obtain ⟨ret, s₁, hexec, hadv⟩ := h.exec_eq deflate inflate call hsize
    obtain ⟨rets, s₂, hrest, hpacked, hsame, new', hnew', hiff'⟩ := ih hadv.packed
      (by rw [hadv.buffSize]; exact hsize)
    obtain ⟨new, hnew, hret⟩ := hadv.answers
    have hiff : ret ≠ .ok ↔ ∃ a ∈ new, a.code = .streamError := by
      rcases hret with ⟨rfl, hbad⟩ | ⟨rfl, hgood⟩
      · exact ⟨fun _ => hbad, fun _ => by decide⟩
      · refine ⟨fun hne => absurd rfl hne, ?_⟩
        rintro ⟨a, ha, hcode⟩
        exact absurd hcode (hgood a ha)
    refine ⟨ret :: rets, s₂, ?_, hpacked, hsame.trans hadv.buffSize, new ++ new', ?_, ?_⟩
    · rw [run, hexec]
      change (do let (rets, s) ← run deflate inflate calls s₁; return (ret :: rets, s)) = _
      rw [hrest]
      rfl
    · rw [hnew', hnew, append_assoc]
    · simp only [mem_cons, mem_append, or_and_right, exists_or, exists_eq_left, hiff,
        hiff']

theorem contents_of_unread {B : Nat} {e : Endian} {w : List UInt8} {ba : ByteArray}
    (h : Unread B e w.length w ba) : ba.position = 0 ∧ ba.contents = w := by
  have hle := h.inv.position_le
  have hsize := h.size
  have hleft := h.left
  have hstart : ba.position = 0 := by omega
  have hbytes := h.bytes
  rw [hstart] at hbytes
  refine ⟨hstart, ?_⟩
  rw [contents, hsize]
  exact hbytes

/-- `inflate` on bytes that stand for themselves: 255 is an error in the data, input that starts
with 254 one in the state. -/
def copying : ZLibrary Unit where
  call _ _ input room :=
    if input.head? = some 254 then (⟨.streamError, 0, []⟩, ())
    else
      let out := (input.takeWhile (· < 254)).take room
      (⟨if (input.drop out.length).head? = some 255 then .dataError else .ok, out.length, out⟩, ())
  close _ := ()
  pending _ input := input.length
  out_le _ _ input room := by
    split
    · exact Nat.zero_le _
    · exact length_take_le _ _
  out_of_error _ _ input room h := by
    split at h
    · rw [if_pos ‹_›]
    · dsimp only at h
      split at h <;> cases h
  pending_call _ _ input room := by
    split
    · simp
    · have hle : ((input.takeWhile (· < 254)).take room).length ≤ input.length :=
        Nat.le_trans (length_take_le' _ _) (takeWhile_sublist _).length_le
      dsimp only
      rw [length_drop]
      omega

/-- For every buffer size, library and run: the run returns, every buffer but the last is full, and
both ways to read them give all that was stored. -/
theorem buffers_hold_output {σ : Type} (deflate inflate : ZLibrary σ) (buffSize : Nat)
    (hsize : 1 ≤ buffSize) (isEncode : Bool) (zstream : σ) (calls : List Call) :
    ∃ rets s, run deflate inflate calls (new isEncode buffSize zstream) = some (rets, s) ∧
      (∀ b ∈ s.buffs.dropLast, b.length = buffSize) ∧ s.getResult = s.emitted ∧
      ∀ heap, ∃ ba, s.getByteArray.run (ByteArray.new 4096 heap) = .ok () ba ∧
        ba.position = 0 ∧ ba.contents = s.emitted := by
  obtain ⟨rets, s, hrun, hpacked, hsame, -⟩ :=
    (packed_new isEncode buffSize zstream).run_eq deflate inflate calls hsize
  refine ⟨rets, s, hrun, ?_, hpacked.bytes, ?_⟩
  · intro b hb
    exact (hpacked.full b hb).trans hsame
  · intro heap
    obtain ⟨ba, hget, hunread⟩ := Rock.getByteArray_run heap s.buffs
    obtain ⟨hstart, hcontents⟩ := contents_of_unread hunread
    exact ⟨ba, hget, hstart, hcontents.trans hpacked.bytes⟩

theorem buffers_hold_output_copying :
    ∃ rets s, run copying copying [.write [[1, 2], [3, 4]], .write [[5]], .flush]
        (new false 4 ()) = some (rets, s) ∧ s.getResult = s.emitted := by
  obtain ⟨rets, s, hrun, -, hresult, -⟩ := buffers_hold_output copying copying 4 (by decide) false
    () [.write [[1, 2], [3, 4]], .write [[5]], .flush]
  exact ⟨rets, s, hrun, hresult⟩

/-! ## Streams that break -/

/-- What `RockMessageDecoder` does with a new stream: one `write` and `flush`. -/
def through (deflate inflate : ZLibrary σ) (isEncode : Bool) (zstream : σ) (v : List (List UInt8)) :
    Except Rock.ZlibFault (List (List UInt8)) :=
  match write deflate inflate v (new isEncode 4096 zstream) with
  | none => .error .write
  | some (ret, s) =>
    if ret ≠ .ok then .error .write
    else match flush deflate inflate s with
      | none => .error .flush
      | some (ret, s) => if ret ≠ .ok then .error .flush else .ok s.buffs

def toZlib (deflate inflate : ZLibrary σ) (zstream : σ) : Rock.Zlib where
  gzip := through deflate inflate true zstream
  gunzip := through deflate inflate false zstream

theorem through_eq {deflate inflate : ZLibrary σ} {isEncode : Bool} {zstream : σ}
    {v : List (List UInt8)} {rets : List ZCode}
    (h : run deflate inflate [.write v, .flush] (new isEncode 4096 zstream) = some (rets, s)) :
    (∃ ret ∈ rets, ret ≠ .ok) ↔ ∃ e, through deflate inflate isEncode zstream v = .error e := by
  unfold through
  cases hwrite : write deflate inflate v (new isEncode 4096 zstream) with
  | none => simp [run, Call.exec, hwrite] at h
  | some r =>
    obtain ⟨ret₁, s₁⟩ := r
    cases hflush : flush deflate inflate s₁ with
    | none => simp [run, Call.exec, hwrite, hflush] at h
    | some r =>
      obtain ⟨ret₂, s₂⟩ := r
      simp only [run, Call.exec, hwrite, hflush, Option.bind_eq_bind, Option.bind_some,
        Option.pure_def, Option.some.injEq, Prod.mk.injEq] at h
      obtain ⟨rfl, -⟩ := h
      dsimp only
      by_cases h1 : ret₁ = .ok
      · by_cases h2 : ret₂ = .ok
        · simp [h1, h2, hflush]
        · simp [h1, h2, hflush]
      · simp [h1]

def copyingEnv : Rock.Env := ⟨67108864, 4096, toZlib copying copying (), fun _ => 0⟩

/-- Some call of a decoding stream fails exactly if `inflate` has reported `Z_STREAM_ERROR`; its
message is rejected. -/
theorem rejects_iff_stream_error {σ : Type} (deflate inflate : ZLibrary σ) (buffSize : Nat)
    (hsize : 1 ≤ buffSize) (zstream : σ) :
    (∀ chunks : List (List (List UInt8)), ∃ rets s,
      run deflate inflate (chunks.map .write ++ [.flush]) (new false buffSize zstream) =
        some (rets, s) ∧
      ((∃ ret ∈ rets, ret ≠ .ok) ↔ ∃ a ∈ s.answers, a.code = .streamError)) ∧
    ∀ (env : Rock.Env) (flag : UInt8) (ba : ByteArray) (len : Nat) (vs : List IoVec) (c : Conn),
      env.zlib = toZlib deflate inflate zstream → flag &&& 1 ≠ 0 →
      (getReadBuffers (2 ^ 64 - 1)).run ba = .ok (len, vs) ba →
      ∃ rets s, run deflate inflate [.write (pieces ba.root vs), .flush] (new false 4096 zstream) =
          some (rets, s) ∧
        ((∃ a ∈ s.answers, a.code = .streamError) →
          (Rock.parsePayload env flag ba).run c = .ok none c) := by
  constructor
  · intro chunks
    obtain ⟨rets, s, hrun, -, -, new, hnew, hiff⟩ := (packed_new false buffSize zstream).run_eq
      deflate inflate (chunks.map .write ++ [.flush]) hsize
    refine ⟨rets, s, hrun, ?_⟩
    have hall : s.answers = new := hnew
    rw [hall]
    exact hiff
  · intro env flag ba len vs c hzlib hflag hget
    obtain ⟨rets, s, hrun, -, -, new, hnew, hiff⟩ := (packed_new false 4096 zstream).run_eq
      deflate inflate [.write (pieces ba.root vs), .flush] (show 1 ≤ 4096 by decide)
    refine ⟨rets, s, hrun, ?_⟩
    intro hbad
    have hall : s.answers = new := hnew
    rw [hall] at hbad
    obtain ⟨e, he⟩ := (through_eq hrun).mp (hiff.mpr hbad)
    have hgunzip : env.zlib.gunzip (pieces ba.root vs) = .error e := by
      rw [hzlib]
      exact he
    rw [Rock.parsePayload, if_pos hflag, run_bind_ok (Stream.onByteArray_ok hget c)]
    dsimp only
    rw [hgunzip]
    rfl

def brokenChunk : List (List UInt8) := [[3, 7], [254], [1]]

def brokenBuffer : ByteArray :=
  (runAll Op.exec [.write [254], .setPosition 0] (ByteArray.new 4 fun _ => 0)).2

theorem rejects_iff_stream_error_copying :
    (∃ rets s, run copying copying [.write brokenChunk, .flush] (new false 4096 ()) =
        some (rets, s) ∧ ∃ ret ∈ rets, ret ≠ .ok) ∧
    (Rock.parsePayload copyingEnv 1 brokenBuffer).run (receiver []) = .ok none (receiver []) := by
  obtain ⟨hrun, hparse⟩ := rejects_iff_stream_error copying copying 4096 (by decide) ()
  constructor
  · obtain ⟨rets, s, hrun, hiff⟩ := hrun [brokenChunk]
    refine ⟨rets, s, hrun, hiff.mpr ?_⟩
    cases hrun
    decide
  · obtain ⟨rets, s, hrun, hnone⟩ := hparse copyingEnv 1 brokenBuffer 1 [⟨0, 0, 1⟩]
      (receiver []) rfl (by decide) rfl
    apply hnone
    cases hrun
    decide

def codes (chunks : List (List (List UInt8))) : Option (List ZCode × List ZCode) :=
  (run copying copying (chunks.map .write ++ [.flush]) (new false 4096 ())).map fun r =>
    (r.1, r.2.answers.map ZAnswer.code)

/-- Data with an error and data that end early: every call returns `Z_OK`, and a message is made of
the bytes. -/
theorem broken_streams_accepted :
    codes [[[3, 7, 1, 65, 255]]] = some ([.ok, .ok], [.dataError, .ok]) ∧
    codes [[[3, 7, 1, 65]]] = some ([.ok, .ok], [.ok, .ok]) ∧
    valueOf ((Rock.parseFrom copyingEnv).run
      (receiver [Rock.header 1 5 ++ [3, 7, 1, 65, 255]])) = some (some (.notify 7 [65])) ∧
    valueOf ((Rock.parseFrom copyingEnv).run
      (receiver [Rock.header 1 4 ++ [3, 7, 1, 65]])) = some (some (.notify 7 [65])) := by
  decide +kernel

end ZlibStream
end Helens
