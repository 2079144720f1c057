import Helens.Stream

/-! WebSocket frames: `WSSendMessage`, `WSRecvMessage` and `WSPong` of
`ws_session.cc`. The reserved bits of a head are only logged and are left out. -/

namespace Helens.WebSocket
open Lib.Blocks Lib.StateError Lib.Words Lib.Segments Helens.ByteArray Helens.Stream List

/-! ## Heads -/

inductive Opcode
  | cont
  | textFrame
  | binFrame
  | close
  | ping
  | pong

def Opcode.code : Opcode → Nat
  | cont => 0
  | textFrame => 1
  | binFrame => 2
  | close => 8
  | ping => 0x9
  | pong => 0xA

/-- `WSFrameHead`: bit fields, packed into two bytes from the low bits up. -/
structure WSFrameHead where
  opcode : Nat
  fin : Bool
  payload : Nat
  mask : Bool

namespace WSFrameHead

def toBytes (h : WSFrameHead) : List UInt8 :=
  [UInt8.ofNat (h.opcode % 16 + 128 * h.fin.toNat), UInt8.ofNat
    (h.payload % 128 + 128 * h.mask.toNat)]

def ofBytes (bs : List UInt8) : WSFrameHead where
  opcode := (bs.getD 0 0).toNat % 16
  fin := 128 ≤ (bs.getD 0 0).toNat
  payload := (bs.getD 1 0).toNat % 128
  mask := 128 ≤ (bs.getD 1 0).toNat

end WSFrameHead

structure WSFrameMessage where
  opcode : Nat
  data : List UInt8
  deriving DecidableEq

/-! ## Masking -/

/-- `data[cur_len + i] ^= mask[i % 4]` for `i` below `n`. -/
def xorMask (mask : List UInt8) (off n : Nat) (data : List UInt8) : List UInt8 :=
  data.mapIdx fun j b => if off ≤ j ∧ j < off + n then b ^^^ mask.getD ((j - off) % 4) 0 else b

def masked (mask data : List UInt8) : List UInt8 := xorMask mask 0 data.length data

/-! ## Sending -/

/-- The head, then for the longer forms a length in network order. -/
def payloadField (size : Nat) : Nat :=
  if size < 126 then size else if size < 65536 then 126 else 127

def lengthField (size : Nat) : List UInt8 :=
  if payloadField size = 126 then leBytes 2 (bswap 2 size)
  else if payloadField size = 127 then leBytes 8 (bswap 8 size)
  else []

def sendFail (msg : WSFrameMessage) : Net (Int × WSFrameMessage) := do
  Stream.close
  return (-1, msg)

/-- A part of a frame that may be absent; then there is nothing that can fail. -/
def writePart (present : Bool) (buf : List UInt8) : Net Int :=
  if present then writeFixSize buf else return 1

/-- `randValue` is what `rand()` returns. A client masks the string of its
message in place, so the message is part of the result. -/
def wsSendMessage (msg : WSFrameMessage) (client fin : Bool) (randValue : UInt32) :
    Net (Int × WSFrameMessage) := do
  let size := msg.data.length
  let head : WSFrameHead := ⟨msg.opcode, fin, payloadField size, client⟩
  if (← writeFixSize head.toBytes) ≤ 0 then
    sendFail msg
  else if (← writePart (lengthField size ≠ []) (lengthField size)) ≤ 0 then
    sendFail msg
  else
    let mask := leBytes 4 randValue.toNat
    let msg := if client then { msg with data := masked mask msg.data } else msg
    if (← writePart client mask) ≤ 0 then
      sendFail msg
    else if (← writeFixSize msg.data) ≤ 0 then
      sendFail msg
    else
      return (toInt32 (size + 2), msg)

def wsPong : Net Int := do
  let v ← writeFixSize (WSFrameHead.toBytes ⟨Opcode.pong.code, true, 0, false⟩)
  if v ≤ 0 then
    Stream.close
  return v

/-! ## Receiving -/

def recvLength (head : WSFrameHead) : Net (Option Nat) := do
  if head.payload = 126 then
    let (rt, len) ← readFixSize 2
    return if rt ≤ 0 then none else some (bswap 2 (ofLeBytes len))
  else if head.payload = 127 then
    let (rt, len) ← readFixSize 8
    return if rt ≤ 0 then none else some (bswap 8 (ofLeBytes len))
  else
    return some head.payload

/-- `char mask[4] = {0}`, read from the stream if the head announces a key. -/
def recvMask (present : Bool) : Net (Int × List UInt8) :=
  if present then readFixSize 4 else return (1, [0, 0, 0, 0])

def resize (data : List UInt8) (n : Nat) : List UInt8 :=
  data.take n ++ List.replicate (n - data.length) 0

/-- The branch for data frames, up to `cur_len += length`; `none` is a `break`.
`cur_len` is an `int` and `length` has 64 bits. -/
def recvFrame (maxSize : UInt32) (client : Bool) (head : WSFrameHead) (data : List UInt8)
    (curLen : Int) : Net (Option (List UInt8 × Int)) := do
  if !client && !head.mask then
    return none
  match ← recvLength head with
  | none => return none
  | some length =>
    if toSize (curLen + length) ≥ maxSize.toNat then
      return none
    let (rt, mask) ← recvMask head.mask
    if rt ≤ 0 then
      return none
    let data := resize data (toSize (curLen + length))
    -- `&data[cur_len]` is the start of the transfer
    if 0 < toInt64 length ∧ data.length < toSize curLen + length then
      throw .overrun
    let (rt, x) ← readFixSize length
    if rt ≤ 0 then
      return none
    let data := overwrite data (toSize curLen) x
    let data := if head.mask then xorMask mask (toSize curLen) (toInt32 length).toNat data else data
    return some (data, toInt32 (curLen + length))

def recvFail : Net (Option WSFrameMessage) := do
  Stream.close
  return none

def recvLoop (maxSize : UInt32) (client : Bool) :
    Nat → Nat → List UInt8 → Int → Net (Option WSFrameMessage)
  | 0, _, _, _ => throw .fuel
  | fuel + 1, opcode, data, curLen => do
    let (rt, bytes) ← readFixSize 2
    if rt ≤ 0 then
      recvFail
    else
      let head := WSFrameHead.ofBytes bytes
      if head.opcode = Opcode.ping.code then
        if (← wsPong) ≤ 0 then
          recvFail
        else
          recvLoop maxSize client fuel opcode data curLen
      else if head.opcode = Opcode.pong.code then
        recvLoop maxSize client fuel opcode data curLen
      else if head.opcode = Opcode.cont.code ∨ head.opcode = Opcode.textFrame.code ∨
          head.opcode = Opcode.binFrame.code then
        match ← recvFrame maxSize client head data curLen with
        | none => recvFail
        | some (data, curLen) =>
          let opcode := if opcode = 0 ∧ head.opcode ≠ Opcode.cont.code then head.opcode else opcode
          if head.fin then
            return some ⟨opcode, data⟩
          else
            recvLoop maxSize client fuel opcode data curLen
      else
        recvLoop maxSize client fuel opcode data curLen

/-- Every round takes a head off the stream, so the bytes to come bound the
rounds. -/
def wsRecvMessage (maxSize : UInt32) (client : Bool) : Net (Option WSFrameMessage) := do
  let c ← get
  recvLoop maxSize client (c.inbox.flatten.length + 1) 0 [] 0

/-! ## Heads and masks read back -/

theorem WSFrameHead.ofBytes_toBytes (h : WSFrameHead) (ho : h.opcode < 16) (hp : h.payload < 128) :
    ofBytes h.toBytes = h := by
  obtain ⟨opcode, fin, payload, mask⟩ := h
  dsimp only at ho hp
  have h0 : (UInt8.ofNat (opcode % 16 + 128 * fin.toNat)).toNat = opcode + 128 * fin.toNat := by
    rw [UInt8.toNat_ofNat']
    cases fin
    · simp
      omega
    · simp
      omega
  have h1 : (UInt8.ofNat (payload % 128 + 128 * mask.toNat)).toNat =
    payload + 128 * mask.toNat := by
    rw [UInt8.toNat_ofNat']
    cases mask
    · simp
      omega
    · simp
      omega
  simp only [ofBytes, toBytes, getD_cons_zero, getD_cons_succ, h0, h1]
  congr 1
  · cases fin
    · simpa using ho
    · change (opcode + 128) % 16 = opcode
      omega
  · cases fin
    · simp
      omega
    · simp
  · cases mask
    · simpa using hp
    · simpa using hp
  · cases mask
    · simp
      omega
    · simp

@[simp] theorem length_toBytes (h : WSFrameHead) : h.toBytes.length = 2 := rfl

theorem payloadField_lt (size) : payloadField size < 128 := by
  unfold payloadField
  split
  · omega
  · split <;> omega

/-- Unmasking the part of a string behind `data` leaves `data` alone. -/
theorem xorMask_append (mask data x : List UInt8) :
    xorMask mask data.length x.length (data ++ x) = data ++ masked mask x := by
  unfold masked xorMask
  rw [mapIdx_append]
  congr 1
  · apply ext_getElem (by simp)
    intro j h1 h2
    have hj : j < data.length := by simpa using h1
    simp [Nat.not_le.mpr hj]
  · apply ext_getElem (by simp)
    intro j h1 h2
    have hj : j < x.length := by simpa using h1
    simp [hj, Nat.add_comm j]

@[simp] theorem length_masked (mask data : List UInt8) :
    (masked mask data).length = data.length := by
  simp [masked, xorMask]

theorem masked_masked (mask data) : masked mask (masked mask data) = data := by
  apply ext_getElem (by simp)
  intro j h1 h2
  simp [masked, xorMask, h2, UInt8.xor_assoc]

/-! ## Frames -/

/-- What follows the length: the string, or the key and the masked string. -/
def bodyBytes (client : Bool) (key : UInt32) (data : List UInt8) : List UInt8 :=
  if client then leBytes 4 key.toNat ++ masked (leBytes 4 key.toNat) data else data

def frameBytes (client : Bool) (opcode : Nat) (fin : Bool) (key : UInt32) (data : List UInt8) :
    List UInt8 :=
  WSFrameHead.toBytes ⟨opcode, fin, payloadField data.length, client⟩ ++
    (lengthField data.length ++ bodyBytes client key data)

/-- The lengths `writeFixSize` and `readFixSize` report as they are: 0 looks
like the end of the stream, and more than an `int` holds like an error. -/
def Reported (data : List UInt8) : Prop := data ≠ [] ∧ data.length < 2 ^ 31
  deriving Decidable

theorem toInt32_pos_iff {n : Nat} (h : n < 2 ^ 32) : 0 < toInt32 n ↔ 0 < n ∧ n < 2 ^ 31 := by
  rw [toInt32_natCast, Nat.mod_eq_of_lt h]
  split <;> omega

theorem toInt32_pos_iff_reported (data : List UInt8) (h : data.length < 2 ^ 32) :
    0 < toInt32 data.length ↔ Reported data := by
  rw [toInt32_pos_iff h, Reported, length_pos_iff]

theorem writePart_run (present) (buf : List UInt8) (hne : present = true → buf ≠ [])
    (hlt : buf.length < 2 ^ 31) (hc : c.connected = true) :
    ∃ v quota, (writePart present buf).run c = .ok v { c with
      outbox := c.outbox ++ (if present then buf else []), quota := quota } ∧ ¬ v ≤ 0 := by
  cases present with
  | true =>
    obtain ⟨quota, hr⟩ := writeFixSize_eq hc buf (by omega)
    refine ⟨_, quota, hr, ?_⟩
    have := length_pos_iff.mpr (hne rfl)
    rw [toInt32_of_lt hlt]
    omega
  | false =>
    refine ⟨1, c.quota, ?_, by decide⟩
    rw [if_neg (by decide), append_nil]
    rfl

theorem length_lengthField_le (size) : (lengthField size).length ≤ 8 := by
  unfold lengthField
  split
  · simp
  · split <;> simp

def sentMessage (client : Bool) (key : UInt32) (msg : WSFrameMessage) : WSFrameMessage :=
  if client then { msg with data := masked (leBytes 4 key.toNat) msg.data } else msg

/-- A frame goes out as a whole, but the connection is closed behind a string
whose length is not reported. -/
theorem wsSendMessage_run (opcode) (data : List UInt8) (hlt : data.length < 2 ^ 32)
    (client fin key) (hc : c.connected = true) :
    ∃ rt quota, (wsSendMessage ⟨opcode, data⟩ client fin key).run c =
        .ok (rt, sentMessage client key ⟨opcode, data⟩) { c with
      outbox := c.outbox ++ frameBytes client opcode fin key data
      quota := quota
      connected := decide (Reported data) } := by
  obtain ⟨q₁, h1⟩ := writeFixSize_eq hc
    (WSFrameHead.toBytes ⟨opcode, fin, payloadField data.length, client⟩) (by simp)
  have hl := length_lengthField_le data.length
  obtain ⟨v₂, q₂, h2, hv₂⟩ := writePart_run (lengthField data.length ≠ []) (lengthField data.length)
    (by simp) (by omega) (c := { c with
      outbox := c.outbox ++ WSFrameHead.toBytes ⟨opcode, fin, payloadField data.length, client⟩
      quota := q₁ }) hc
  obtain ⟨v₃, q₃, h3, hv₃⟩ := writePart_run client (leBytes 4 key.toNat)
    (by intro _; exact ne_nil_of_length_pos (by simp)) (by simp)
    (c := { c with
      outbox := c.outbox ++ WSFrameHead.toBytes ⟨opcode, fin, payloadField data.length, client⟩ ++
        (if decide (lengthField data.length ≠ []) then lengthField data.length else [])
      quota := q₂ }) hc
  have hpart : (if decide (lengthField data.length ≠ []) then lengthField data.length else []) =
      lengthField data.length := by
    cases lengthField data.length <;> simp
  rw [hpart] at h2 h3
  have hhead : ¬ toInt32 ((2 : Nat) : Int) ≤ 0 := by decide
  rw [length_toBytes] at h1
  simp only [wsSendMessage]
  rw [run_bind_ok h1, run_ite, if_neg hhead, run_bind_ok h2, run_ite, if_neg hv₂, run_bind_ok h3,
    run_ite, if_neg hv₃]
  -- the string itself, in the form in which it is sent
  have hsent : ∃ sent, sentMessage client key ⟨opcode, data⟩ = ⟨opcode, sent⟩ ∧
      sent.length = data.length ∧
      bodyBytes client key data = (if client then leBytes 4 key.toNat else []) ++ sent := by
    cases client with
    | true => exact ⟨masked (leBytes 4 key.toNat) data, rfl, by simp, rfl⟩
    | false => exact ⟨data, rfl, rfl, rfl⟩
  obtain ⟨sent, hmsg, hlen, hbody⟩ := hsent
  obtain ⟨q₄, h4⟩ := writeFixSize_eq (c := { c with
      outbox := c.outbox ++ WSFrameHead.toBytes ⟨opcode, fin, payloadField data.length, client⟩ ++
        lengthField data.length ++ (if client then leBytes 4 key.toNat else [])
      quota := q₃ }) hc sent (by omega)
  have hout : c.outbox ++ WSFrameHead.toBytes ⟨opcode, fin, payloadField data.length, client⟩ ++
      lengthField data.length ++ (if client then leBytes 4 key.toNat else []) ++ sent =
      c.outbox ++ frameBytes client opcode fin key data := by
    simp [frameBytes, hbody]
  rw [hmsg]
  rw [sentMessage] at hmsg
  rw [hmsg, run_bind_ok h4, hlen, hout]
  have hiff := toInt32_pos_iff_reported data hlt
  by_cases hrep : Reported data
  · refine ⟨toInt32 (data.length + 2), q₄, ?_⟩
    rw [run_ite, if_neg (by have := hiff.mpr hrep; omega), decide_eq_true hrep, ← hc]
    rfl
  · refine ⟨-1, q₄, ?_⟩
    rw [run_ite, if_pos (by have := mt hiff.mp hrep; omega), decide_eq_false hrep]
    rfl

theorem wsSendMessage_closed (msg client fin key)
    (hc : c.connected = false) : (wsSendMessage msg client fin key).run c = .ok (-1, msg) c := by
  have h1 := writeFixSize_closed hc
    (WSFrameHead.toBytes ⟨msg.opcode, fin, payloadField msg.data.length, client⟩)
    (by simp [WSFrameHead.toBytes]) (by simp)
  have hclose : { c with connected := false } = c := by rw [← hc]
  simp only [wsSendMessage]
  rw [run_bind_ok h1, run_ite, if_pos (by decide)]
  simp [sendFail, Stream.close, hclose]

/-! ## Receiving a frame -/

theorem recvLength_run (head : WSFrameHead) (hn : n < 2 ^ 64)
    (hhead : head.payload = payloadField n) (h : Ready (lengthField n ++ rest) c) :
    ∃ c', (recvLength head).run c = .ok (some n) c' ∧ Ready rest c' := by
  unfold recvLength
  unfold lengthField at h
  by_cases h126 : payloadField n = 126
  · have hlt : n < 256 ^ 2 := by
      unfold payloadField at h126
      split at h126
      · omega
      · split at h126 <;> omega
    rw [if_pos h126] at h
    obtain ⟨c', hr, hc'⟩ := h.readFixSize (by simp)
    refine ⟨c', ?_, hc'⟩
    rw [length_leBytes] at hr
    rw [hhead, if_pos h126, run_bind_ok hr]
    dsimp only
    rw [leBytes_bswap, bswap_ofLeBytes_reverse, Nat.mod_eq_of_lt hlt]
    rfl
  · by_cases h127 : payloadField n = 127
    · rw [if_neg h126, if_pos h127] at h
      obtain ⟨c', hr, hc'⟩ := h.readFixSize (by simp)
      refine ⟨c', ?_, hc'⟩
      rw [length_leBytes] at hr
      rw [hhead, if_neg h126, if_pos h127, run_bind_ok hr]
      dsimp only
      rw [leBytes_bswap, bswap_ofLeBytes_reverse, Nat.mod_eq_of_lt (b := 256 ^ 8) hn]
      rfl
    · rw [if_neg h126, if_neg h127, nil_append] at h
      refine ⟨c, ?_, h⟩
      have hsmall : payloadField n = n := by
        unfold payloadField at h126 h127 ⊢
        split
        · rfl
        · split at h126 <;> simp_all
      rw [hhead, if_neg h126, if_neg h127, hsmall]
      rfl

@[simp] theorem length_resize (data n) : (resize data n).length = n := by
  rw [resize, length_append, length_take, length_replicate]
  omega

theorem overwrite_resize (data x : List UInt8) :
    overwrite (resize data (data.length + x.length)) data.length x = data ++ x := by
  rw [resize, take_of_length_le (Nat.le_add_right _ _)]
  simp [overwrite]

theorem recvMask_run (m key) (h : Ready (bodyBytes m key x ++ rest) c) :
    ∃ v mask sent c', (recvMask m).run c = .ok (v, mask) c' ∧ ¬ v ≤ 0 ∧
      Ready (sent ++ rest) c' ∧ sent.length = x.length ∧
      (if m = true then masked mask sent else sent) = x := by
  cases m with
  | true =>
    rw [bodyBytes, if_pos rfl, append_assoc] at h
    obtain ⟨c', hr, hc'⟩ := h.readFixSize (by simp)
    rw [length_leBytes] at hr
    refine ⟨_, _, _, c', by rw [recvMask, if_pos rfl, hr], by decide, hc', by simp, ?_⟩
    rw [if_pos rfl, masked_masked]
  | false => exact ⟨1, _, x, c, rfl, by decide, h, rfl, rfl⟩

/-- A data frame within the size limit is appended if its length is reported, and
ends the call otherwise. -/
theorem recvFrame_run (maxSize : UInt32) (client opcode fin) (hm : client = true ∨ m = true)
    (h : Ready (lengthField x.length ++ (bodyBytes m key x ++ rest)) c)
    (hmax : data.length + x.length < maxSize.toNat) :
    ∃ c', (recvFrame maxSize client ⟨opcode, fin, payloadField x.length, m⟩ data
      data.length).run c =
        .ok (if Reported x then some (data ++ x, toInt32 ((data.length : Int) + x.length))
          else none) c' ∧ (Reported x → Ready rest c') := by
  have h32 := maxSize.toNat_lt
  have hguard : ¬ (!client && !m) = true := by
    rcases hm with rfl | rfl <;> simp
  obtain ⟨c₁, h1, hc₁⟩ := recvLength_run ⟨opcode, fin, payloadField x.length, m⟩
    (by omega) rfl h
  obtain ⟨v, mask, sent, c₂, h2, hv, hc₂, hlen, hx⟩ := recvMask_run m key hc₁
  obtain ⟨c₃, h3, hc₃⟩ := hc₂.readFixSize (by omega)
  have hsum : toSize ((data.length : Int) + x.length) = data.length + x.length :=
    toSize_natCast (n := data.length + x.length) (by omega)
  have hcur : toSize (data.length : Int) = data.length := toSize_natCast (by omega)
  have hroom : (resize data (data.length + x.length)).length = data.length + x.length :=
    length_resize data _
  have hiff := toInt32_pos_iff_reported x (by omega)
  refine ⟨c₃, ?_, fun _ => hc₃⟩
  rw [hlen] at h3
  simp only [recvFrame]
  rw [if_neg hguard, run_bind_ok h1]
  dsimp only
  rw [hsum, if_neg (Nat.not_le.mpr hmax), run_bind_ok h2]
  dsimp only
  rw [if_neg hv, hcur, if_neg (by rw [hroom]; omega), run_bind_ok h3]
  dsimp only
  by_cases hrep : Reported x
  · have hpos := hiff.mpr hrep
    rw [if_neg (by omega), if_pos hrep, ← hlen, overwrite_resize]
    have hn : (toInt32 (sent.length : Int)).toNat = sent.length := by
      rw [hlen, toInt32_of_lt hrep.2, Int.toNat_natCast]
    have hdata : (if m = true then xorMask mask data.length (toInt32 (sent.length : Int)).toNat
        (data ++ sent) else data ++ sent) = data ++ x := by
      rw [hn, xorMask_append, ← hx]
      cases m <;> rfl
    rw [hdata]
    rfl
  · rw [if_pos (by have := mt hiff.mp hrep; omega), if_neg hrep]
    rfl

/-- Past `2 ^ 31` bytes `cur_len` is negative and the next frame is refused. -/
theorem recvFrame_full (maxSize : UInt32) (client opcode fin) {m : Bool}
    (hm : client = true ∨ m = true) {data x rest : List UInt8}
    (h : Ready (lengthField x.length ++ rest) c) (hmax : data.length + x.length < maxSize.toNat)
    (hdata : 2 ^ 31 ≤ data.length) :
    ∃ c', (recvFrame maxSize client ⟨opcode, fin, payloadField x.length, m⟩ data
      (toInt32 data.length)).run c = .ok none c' := by
  have h32 := maxSize.toNat_lt
  have hguard : ¬ (!client && !m) = true := by
    rcases hm with rfl | rfl <;> simp
  obtain ⟨c₁, h1, -⟩ := recvLength_run ⟨opcode, fin, payloadField x.length, m⟩
    (by omega) rfl h
  have hwrap : maxSize.toNat ≤ toSize (toInt32 data.length + x.length) := by
    rw [toInt32_of_ge hdata (by omega), toSize]
    omega
  refine ⟨c₁, ?_⟩
  simp only [recvFrame]
  rw [if_neg hguard, run_bind_ok h1]
  dsimp only
  rw [if_pos hwrap]
  rfl

end Helens.WebSocket
