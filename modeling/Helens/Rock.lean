import Helens.StringRoundtrip
import Helens.Stream

/-! The Rock protocol: the messages of `protocol.cc` and `rock_protocol.cc`, and
the frames `RockMessageDecoder` writes to a stream and reads from it. -/

namespace Helens.Rock
open Lib.Blocks Lib.StateError Lib.Words Helens.ByteArray Helens.Stream

/-! ## Messages -/

inductive Message
  | request (sn cmd : UInt32) (body : List UInt8)
  | response (sn cmd result : UInt32) (resultStr body : List UInt8)
  | notify (notify : UInt32) (body : List UInt8)
  deriving DecidableEq

namespace Message

def getBody : Message → List UInt8
  | request _ _ body => body
  | response _ _ _ _ body => body
  | notify _ body => body

def serializeToByteArray : Message → BA Unit
  | request sn cmd body => do
    writeFuint8 1
    writeUint32 sn
    writeUint32 cmd
    writeStringVint body
  | response sn cmd result resultStr body => do
    writeFuint8 2
    writeUint32 sn
    writeUint32 cmd
    writeUint32 result
    writeStringVint resultStr
    writeStringVint body
  | notify n body => do
    writeFuint8 3
    writeUint32 n
    writeStringVint body

end Message

def parseRequest : BA Message := do
  let sn ← readUint32
  let cmd ← readUint32
  let body ← readStringVint
  return .request sn cmd body

def parseResponse : BA Message := do
  let sn ← readUint32
  let cmd ← readUint32
  let result ← readUint32
  let resultStr ← readStringVint
  let body ← readStringVint
  return .response sn cmd result resultStr body

def parseNotify : BA Message := do
  let n ← readUint32
  let body ← readStringVint
  return .notify n body

def parseFromByteArray : BA (Option Message) := do
  let type ← readFuint8
  if type = 1 then
    return some (← parseRequest)
  else if type = 2 then
    return some (← parseResponse)
  else if type = 3 then
    return some (← parseNotify)
  else
    return none

/-! ## Frames -/

inductive ZlibFault
  | write
  | flush

/-- A `ZlibStream` that is given some memory, piece by piece, and flushed: the
output buffers it then holds. -/
structure Zlib where
  gzip : List (List UInt8) → Except ZlibFault (List (List UInt8))
  gunzip : List (List UInt8) → Except ZlibFault (List (List UInt8))

/-- Compression that never fails, makes something of every input, and is undone
by decompression however the compressed bytes are cut. -/
structure Zlib.Lossless (z : Zlib) : Prop where
  gzip_ok : ∀ ps, ∃ qs, z.gzip ps = .ok qs ∧ qs.flatten ≠ []
  gunzip_ok : ∀ ps qs rs, z.gzip ps = .ok qs → rs.flatten = qs.flatten →
    ∃ out, z.gunzip rs = .ok out ∧ out.flatten = ps.flatten

def getByteArray (buffs : List (List UInt8)) : BA Unit := do
  buffs.forM ByteArray.write
  setPosition 0

/-- The two configuration values, the compressor, and what new memory holds. -/
structure Env where
  maxLength : UInt32
  gzipMinLength : UInt32
  zlib : Zlib
  heap : Nat → UInt8

def newByteArray (env : Env) : ByteArray := ByteArray.new 4096 env.heap

/-- The `RockMsgHeader` as it lies in memory when it is sent: the length is
swapped to network order. -/
def header (flag : UInt8) (length : Nat) : List UInt8 :=
  [0xab, 0xcd, 1, flag] ++ leBytes 4 (bswap 4 length)

/-- The end of `serializeTo`: the header, then what is left in the buffer. -/
def sendFrame (flag : UInt8) (ba : ByteArray) : Net Int := do
  let rt ← writeFixSize (header flag ba.size)
  if rt ≤ 0 then
    return -3
  let (rt, ba) ← writeFixSizeBA ba ba.getReadSize
  if rt ≤ 0 then
    return -4
  return toInt32 (8 + ba.size)

/-- The length field has 32 bits, and so has the comparison. -/
def serializeTo (env : Env) (msg : Message) : Net Int := do
  let (_, ba) ← onByteArray (newByteArray env) (do msg.serializeToByteArray; setPosition 0)
  if ba.size % 2 ^ 32 ≥ env.gzipMinLength.toNat then
    let ((_, iovs), ba) ← onByteArray ba (getReadBuffers (2 ^ 64 - 1))
    match env.zlib.gzip (pieces ba.root iovs) with
    | .error .write => return -1
    | .error .flush => return -2
    | .ok buffs =>
      let (_, ba) ← onByteArray (newByteArray env) (getByteArray buffs)
      sendFrame 1 ba
  else
    sendFrame 0 ba

/-- `catch (std::exception&)` around a body that returns a message: a C++
exception becomes a null message, a bad memory access does not. -/
def catchExceptions (x : Net (Option Message)) : Net (Option Message) := fun c =>
  match x c with
  | .error (.outOfRange _) c' => .ok none c'
  | r => r

def parseMessage (ba : ByteArray) : Net (Option Message) := do
  let (msg, _) ← onByteArray ba parseFromByteArray
  return msg

/-- The rest of `parseFrom` once the buffer holds what followed the header. -/
def parsePayload (env : Env) (flag : UInt8) (ba : ByteArray) : Net (Option Message) := do
  if flag &&& 1 ≠ 0 then
    let ((_, iovs), ba) ← onByteArray ba (getReadBuffers (2 ^ 64 - 1))
    match env.zlib.gunzip (pieces ba.root iovs) with
    | .error _ => return none
    | .ok buffs =>
      let (_, ba) ← onByteArray (newByteArray env) (getByteArray buffs)
      parseMessage ba
  else
    parseMessage ba

def parseFrame (env : Env) : Net (Option Message) := do
  let (rt, header) ← readFixSize 8
  if rt ≤ 0 then
    return none
  if header.take 2 ≠ [0xab, 0xcd] then
    return none
  if header.getD 2 0 ≠ 1 then
    return none
  let length := bswap 4 (ofLeBytes (header.drop 4))
  if length ≥ env.maxLength.toNat then
    return none
  let (rt, ba) ← readFixSizeBA (newByteArray env) (toSize (toInt32 length))
  if rt ≤ 0 then
    return none
  let (_, ba) ← onByteArray ba (setPosition 0)
  parsePayload env (header.getD 3 0) ba

def parseFrom (env : Env) : Net (Option Message) := catchExceptions (parseFrame env)

/-! ## The bytes of a message -/

namespace Message

def stringBytes (s : List UInt8) : List UInt8 := StrKind.head .big .vint s.length ++ s

def bytes : Message → List UInt8
  | request sn cmd body =>
    [1] ++ (varintBytes 5 sn.toNat ++ (varintBytes 5 cmd.toNat ++ stringBytes body))
  | response sn cmd result resultStr body =>
    [2] ++ (varintBytes 5 sn.toNat ++ (varintBytes 5 cmd.toNat ++ (varintBytes 5 result.toNat ++
      (stringBytes resultStr ++ stringBytes body))))
  | notify n body => [3] ++ (varintBytes 5 n.toNat ++ stringBytes body)

theorem bytes_ne_nil (m : Message) : m.bytes ≠ [] := by
  cases m <;> simp [bytes]

def Sized (m : Message) : Prop := m.bytes.length < 2 ^ 64
  deriving Decidable

theorem length_le_stringBytes (s : List UInt8) : s.length ≤ (stringBytes s).length := by
  simp [stringBytes]

theorem Sized.body {m : Message} (h : m.Sized) : m.getBody.length < 2 ^ 64 := by
  have hle := length_le_stringBytes m.getBody
  unfold Sized at h
  cases m <;> simp only [bytes, getBody, List.length_append] at h hle ⊢ <;> omega

theorem Sized.resultStr {sn cmd result : UInt32} {resultStr body : List UInt8}
    (h : (response sn cmd result resultStr body).Sized) : resultStr.length < 2 ^ 64 := by
  have hle := length_le_stringBytes resultStr
  unfold Sized at h
  simp only [bytes, List.length_append] at h
  omega

theorem appends_writeUint32 (v : UInt32) : Appends .big (writeUint32 v) (varintBytes 5 v.toNat) :=
  IntVal.appends_write_bytes .big (.uint32 v)

theorem appends_serialize {m : Message} (h : m.Sized) :
    Appends .big m.serializeToByteArray m.bytes := by
  have hbody := StrKind.appends_write .big .vint m.getBody h.body
  cases m with
  | request sn cmd body =>
    exact (IntVal.appends_write_bytes .big (.fuint8 1)).bind
      ((appends_writeUint32 sn).bind ((appends_writeUint32 cmd).bind hbody))
  | response sn cmd result resultStr body =>
    have hstr := StrKind.appends_write .big .vint resultStr h.resultStr
    exact (IntVal.appends_write_bytes .big (.fuint8 2)).bind
      ((appends_writeUint32 sn).bind ((appends_writeUint32 cmd).bind
        ((appends_writeUint32 result).bind (hstr.bind hbody))))
  | notify n body =>
    exact (IntVal.appends_write_bytes .big (.fuint8 3)).bind ((appends_writeUint32 n).bind hbody)

/-- `x` returns `a` when `good` holds, and follows a null pointer otherwise. -/
def ReturnsIf {α : Type} (good : Prop) (x : BA α) (a : α) (b : ByteArray) : Prop :=
  (good → ∃ b', x.run b = .ok a b') ∧ (¬ good → ∃ b', x.run b = .error .nullDeref b')

theorem ReturnsIf.bind_ok {α β : Type} {good : Prop} {x : BA α} {f : α → BA β} {a : α} {c : β}
    {b b' : ByteArray} (hx : x.run b = .ok a b') (hf : ReturnsIf good (f a) c b') :
    ReturnsIf good (x >>= f) c b := by
  unfold ReturnsIf
  rw [run_bind_ok hx]
  exact hf

theorem ReturnsIf.map {α β : Type} {good : Prop} {x : BA α} {a : α} {b : ByteArray}
    (hx : ReturnsIf good x a b) (f : α → β) : ReturnsIf good (do return f (← x)) (f a) b := by
  constructor
  · intro hg
    obtain ⟨b', hr⟩ := hx.1 hg
    exact ⟨b', by rw [run_bind_ok hr]; rfl⟩
  · intro hg
    obtain ⟨b', hr⟩ := hx.2 hg
    exact ⟨b', by rw [run_bind_error hr]⟩

theorem returnsIf_body (hB : 1 ≤ B)
    (hfit : body.length < 2 ^ 64) (h : Unread B .big total (stringBytes body) b) :
    ReturnsIf (body ≠ [] ∨ total % B ≠ 0) readStringVint body b := by
  have h' : Unread B .big total (StrVal.bytes .big ⟨.vint, body, hfit⟩ ++ []) b := by
    rw [List.append_nil]
    exact h
  obtain ⟨hgood, hbad⟩ := StrVal.read_run hB ⟨.vint, body, hfit⟩ h'
  constructor
  · rintro (hne | hz)
    · obtain ⟨b', hr, -⟩ := hgood (.inl hne)
      exact ⟨b', hr⟩
    · obtain ⟨b', hr, -⟩ := hgood (.inr (.inr hz))
      exact ⟨b', hr⟩
  · intro hn
    rw [not_or, not_not, not_not] at hn
    exact hbad hn.1 rfl hn.2

/-- What `parseFromByteArray` makes of the bytes of a message: the message, or a
null pointer if an empty body ends on the end of a block. -/
theorem returnsIf_parse {B total : Nat} (hB : 1 ≤ B) {m : Message} (hm : m.Sized) {b : ByteArray}
    (h : Unread B .big total m.bytes b) :
    ReturnsIf (m.getBody ≠ [] ∨ total % B ≠ 0) parseFromByteArray (some m) b := by
  cases m with
  | request sn cmd body =>
    obtain ⟨b₁, h1, hb₁⟩ := takes_readFuint8 .big 1 B total _ b hB h
    obtain ⟨b₂, h2, hb₂⟩ := takes_readUint32 .big sn B total _ b₁ hB hb₁
    obtain ⟨b₃, h3, hb₃⟩ := takes_readUint32 .big cmd B total _ b₂ hB hb₂
    have hbody := (returnsIf_body hB hm.body hb₃).map (Message.request sn cmd)
    exact .bind_ok h1 ((ReturnsIf.bind_ok h2 (.bind_ok h3 hbody)).map some)
  | response sn cmd result resultStr body =>
    obtain ⟨b₁, h1, hb₁⟩ := takes_readFuint8 .big 2 B total _ b hB h
    obtain ⟨b₂, h2, hb₂⟩ := takes_readUint32 .big sn B total _ b₁ hB hb₁
    obtain ⟨b₃, h3, hb₃⟩ := takes_readUint32 .big cmd B total _ b₂ hB hb₂
    obtain ⟨b₄, h4, hb₄⟩ := takes_readUint32 .big result B total _ b₃ hB hb₃
    -- the length of the body still stands behind an empty `resultStr`
    have hrest : stringBytes body ≠ [] := by
      have := StrKind.head_ne_nil .big .vint body.length hm.body
      simp [stringBytes, this]
    obtain ⟨b₅, h5, hb₅⟩ :=
      (StrVal.read_run hB ⟨.vint, resultStr, hm.resultStr⟩ hb₄).1 (.inr (.inl hrest))
    have hbody := (returnsIf_body hB hm.body hb₅).map (Message.response sn cmd result resultStr)
    exact .bind_ok h1
      ((ReturnsIf.bind_ok h2 (.bind_ok h3 (.bind_ok h4 (.bind_ok h5 hbody)))).map some)
  | notify n body =>
    obtain ⟨b₁, h1, hb₁⟩ := takes_readFuint8 .big 3 B total _ b hB h
    obtain ⟨b₂, h2, hb₂⟩ := takes_readUint32 .big n B total _ b₁ hB hb₁
    have hbody := (returnsIf_body hB hm.body hb₂).map (Message.notify n)
    exact .bind_ok h1 ((ReturnsIf.bind_ok h2 hbody).map some)

/-! ## The frame of a message -/

def zipped (env : Env) (m : Message) : Bool :=
  m.bytes.length % 2 ^ 32 ≥ env.gzipMinLength.toNat

def payload (env : Env) (m : Message) : List UInt8 :=
  if m.zipped env then
    match env.zlib.gzip (chunks 4096 m.bytes.length m.bytes) with
    | .ok buffs => buffs.flatten
    | .error _ => []
  else m.bytes

def flag (env : Env) (m : Message) : UInt8 := if m.zipped env then 1 else 0

def frame (env : Env) (m : Message) : List UInt8 :=
  header (m.flag env) (m.payload env).length ++ m.payload env

/-- The messages that `parseFrom` can give back: the length field is not
negative, and an empty body does not end on the end of a block. -/
def Safe (env : Env) (m : Message) : Prop :=
  (m.payload env).length < 2 ^ 31 ∧ (m.getBody ≠ [] ∨ m.bytes.length % 4096 ≠ 0)
  deriving Decidable

end Message

end Helens.Rock
