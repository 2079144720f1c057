import Helens.Codec
import Helens.Lib.Segments

/-! Streams over a socket: `stream.cc` and `streams/socket_stream.cc`. A
connection is what will arrive on it, cut into what single reads can return,
what has been sent, and how much the kernel takes of each write. -/

namespace Helens
open Lib.Blocks Lib.StateError Lib.Segments List

structure Conn where
  inbox : List (List UInt8)
  outbox : List UInt8
  quota : List Nat
  connected : Bool

abbrev Net := EStateM Fault Conn

/-- The end that sends: `quota` is how the kernel takes its writes. -/
def sender (quota : List Nat) : Conn := ⟨[], [], quota, true⟩

/-- The end that receives: `segs` is how its reads cut what was sent. -/
def receiver (segs : List (List UInt8)) : Conn := ⟨segs, [], [], true⟩

def toInt32 (n : Int) : Int := n.bmod (2 ^ 32)

def toInt64 (n : Int) : Int := n.bmod (2 ^ 64)

def toSize (n : Int) : Nat := (n % 2 ^ 64).toNat

/-- Work on a `ByteArray` object from a function that works on a stream. -/
def onByteArray {α : Type} (ba : ByteArray) (x : BA α) : Net (α × ByteArray) :=
  match x.run ba with
  | .ok a ba' => pure (a, ba')
  | .error e _ => throw e

namespace Stream

/-! ## `socket_stream.cc` -/

def maxRw : Nat := 0x7ffff000

def close : Net Unit := modify fun c => { c with connected := false }

/-- `read` into a buffer: the return value and the bytes stored. -/
def read (length : Nat) : Net (Int × List UInt8) := do
  let c ← get
  if !c.connected then
    return (-1, [])
  let (x, rest) := recv (min length maxRw) c.inbox
  set { c with inbox := rest }
  return (x.length, x)

def write (buf : List UInt8) : Net Int := do
  let c ← get
  if !c.connected then
    return -1
  let k := grant c.quota (min buf.length maxRw)
  set { c with outbox := c.outbox ++ buf.take k, quota := c.quota.tail }
  return k

/-- `read` into a `ByteArray`: `recvmsg` fills the write buffers from the front. The kernel's limit
of 1024 buffers to a call is left out, here and in `writeBA`. -/
def readBA (ba : ByteArray) (length : Nat) : Net (Int × ByteArray) := do
  let c ← get
  if !c.connected then
    return (-1, ba)
  let ((n, iovs), ba) ← onByteArray ba (ByteArray.getWriteBuffers length)
  let (rt, x) ← read n
  let ba := { ba with root := ByteArray.scatter ba.root iovs x }
  if rt > 0 then
    let (_, ba) ← onByteArray ba (ByteArray.setPosition (ba.position + rt.toNat))
    return (rt, ba)
  else
    return (rt, ba)

/-- `write` from a `ByteArray`: `sendmsg` takes from the read buffers. -/
def writeBA (ba : ByteArray) (length : Nat) : Net (Int × ByteArray) := do
  let c ← get
  if !c.connected then
    return (-1, ba)
  let ((_, iovs), ba) ← onByteArray ba (ByteArray.getReadBuffers length)
  let rt ← write (ByteArray.gather ba.root iovs)
  if rt > 0 then
    let (_, ba) ← onByteArray ba (ByteArray.setPosition (ba.position + rt.toNat))
    return (rt, ba)
  else
    return (rt, ba)

/-! ## `stream.cc` -/

/-- The virtual functions of a stream whose own state is a `τ`. -/
structure Virtual (τ : Type) where
  read : Nat → EStateM Fault τ (Int × List UInt8)
  readBA : ByteArray → Nat → EStateM Fault τ (Int × ByteArray)
  write : List UInt8 → EStateM Fault τ Int
  writeBA : ByteArray → Nat → EStateM Fault τ (Int × ByteArray)

section
variable {σ τ : Type} (step : Nat → σ → EStateM Fault τ (Int × σ)) (length : Nat)

/-- The loop the four functions share: `step` transfers some of what is left. A
result that is not positive ends it and is returned. -/
def fixLoop : Nat → Nat → σ → EStateM Fault τ (Int × σ)
  | 0, _, _ => throw .fuel
  | fuel + 1, left, s => do
    if left = 0 then
      return (toInt32 length, s)
    let (len, s) ← step left s
    if len ≤ 0 then
      return (len, s)
    fixLoop fuel (left - len.toNat) s

/-- `int64_t left = length; while(left > 0)`; a round moves at least one byte. -/
def fixSize (s : σ) : EStateM Fault τ (Int × σ) :=
  fixLoop step length ((toInt64 length).toNat + 1) (toInt64 length).toNat s

variable (v : Virtual τ)

def Virtual.readFixSize : EStateM Fault τ (Int × List UInt8) :=
  fixSize (fun left got => do
    let (len, x) ← v.read left
    return (len, got ++ x)) length []

def Virtual.readFixSizeBA (ba : ByteArray) : EStateM Fault τ (Int × ByteArray) :=
  fixSize (fun left ba => v.readBA ba left) length ba

def Virtual.writeFixSize (buffer : List UInt8) : EStateM Fault τ Int := do
  let (rt, _) ← fixSize (fun left offset => do
    let len ← v.write (slice buffer offset left)
    return (len, offset + len.toNat)) buffer.length 0
  return rt

def Virtual.writeFixSizeBA (ba : ByteArray) : EStateM Fault τ (Int × ByteArray) :=
  fixSize (fun left ba => v.writeBA ba left) length ba

end

abbrev socketStream : Virtual Conn := ⟨read, readBA, write, writeBA⟩

def readFixSize (length : Nat) : Net (Int × List UInt8) := socketStream.readFixSize length

def readFixSizeBA (ba : ByteArray) (length : Nat) : Net (Int × ByteArray) :=
  socketStream.readFixSizeBA length ba

def writeFixSize (buffer : List UInt8) : Net Int := socketStream.writeFixSize buffer

def writeFixSizeBA (ba : ByteArray) (length : Nat) : Net (Int × ByteArray) :=
  socketStream.writeFixSizeBA length ba

/-! ## Conversions -/

theorem toInt32_natCast (n : Nat) :
    toInt32 n = if n % 2 ^ 32 < 2 ^ 31 then ((n % 2 ^ 32 : Nat) : Int) else
      (n % 2 ^ 32 : Nat) - 2 ^ 32 := by
  rw [toInt32, Int.bmod_def]
  split <;> split <;> omega

variable {n : Nat} {length : Nat} {σ τ : Type} {c : Conn} {w : List UInt8}
    {segs : List (List UInt8)} {k : Nat} {b : ByteArray} {e : Endian} {B : Nat}

theorem toInt32_of_lt (h : n < 2 ^ 31) : toInt32 n = n := by
  rw [toInt32_natCast, if_pos (by omega), Nat.mod_eq_of_lt (by omega)]

theorem toInt32_of_ge (h : 2 ^ 31 ≤ n) (h' : n < 2 ^ 32) : toInt32 n = n - 2 ^ 32 := by
  rw [toInt32_natCast, Nat.mod_eq_of_lt h', if_neg (by omega)]

theorem toInt64_of_lt (h : n < 2 ^ 63) : toInt64 n = n := by
  unfold toInt64
  rw [Int.bmod_eq_of_le] <;> omega

theorem toSize_natCast (h : n < 2 ^ 64) : toSize n = n := by
  unfold toSize
  omega

theorem toSize_of_lt (h : n < 2 ^ 31) : toSize (toInt32 n) = n := by
  rw [toInt32_of_lt h, toSize_natCast (by omega)]

theorem toSize_neg (h : 2 ^ 31 ≤ n) (h' : n < 2 ^ 32) :
    toInt64 (toSize (toInt32 n)) < 0 ∧ toInt32 (toSize (toInt32 n)) < 0 := by
  have hs : (toSize (toInt32 n) : Int) = n - 2 ^ 32 + 2 ^ 64 := by
    rw [toInt32_of_ge h h', toSize]
    omega
  rw [hs]
  unfold toInt64 toInt32
  rw [Int.bmod_def, Int.bmod_def]
  constructor <;> split <;> omega

/-! ## The loop -/

variable {step : Nat → σ → EStateM Fault τ (Int × σ)} {b : ByteArray} {vs : List IoVec}

/-- A round keeps `I`, or ends the loop with a result that is not positive and `E`. -/
theorem fixLoop_rule {I : Nat → σ → τ → Prop}
    {E : Int → σ → τ → Prop} {d : τ} (hstep : ∀ left s d, 0 < left → I left s d →
      Returns (step left s) d fun r d' => r.1 ≤ left ∧ (r.1 ≤ 0 → E r.1 r.2 d') ∧
        (0 < r.1 → I (left - r.1.toNat) r.2 d'))
    (hf : left < fuel) (h : I left s d) :
    Returns (fixLoop step n fuel left s) d fun r d' =>
      r.1 = toInt32 n ∧ I 0 r.2 d' ∨ r.1 ≤ 0 ∧ E r.1 r.2 d' := by
  induction fuel generalizing left s d with
  | zero => exact absurd hf (Nat.not_lt_zero _)
  | succ fuel ih =>
    rw [fixLoop]
    by_cases hz : left = 0
    · subst hz
      rw [if_pos rfl]
      exact returns_pure (.inl ⟨by dsimp only, h⟩)
    · rw [if_neg hz]
      refine (hstep left s d (by omega) h).bind ?_
      rintro ⟨len, s'⟩ d' ⟨hle, hend, hgo⟩
      dsimp only at hle hend hgo ⊢
      split
      · next hlen => exact ⟨_, _, rfl, .inr ⟨hlen, hend hlen⟩⟩
      · exact ih (by omega) (hgo (by omega))

/-- The loop finishes when every round moves something and keeps `I`. -/
theorem fixSize_rule {I : Nat → σ → τ → Prop}
    (hstep : ∀ left s c, 0 < left → I left s c → ∃ (len : Nat) (s' : σ) (c' : τ),
      (step left s).run c = .ok ((len : Int), s') c' ∧ 0 < len ∧ len ≤ left ∧ I (left - len) s' c')
    (s c) (hl : length < 2 ^ 63) (h : I length s c) :
    ∃ s' c', (fixSize step length s).run c = .ok (toInt32 length, s') c' ∧ I 0 s' c' := by
  have hround : ∀ left s c, 0 < left → I left s c → Returns (step left s) c fun r c' =>
      r.1 ≤ left ∧ (r.1 ≤ 0 → False) ∧ (0 < r.1 → I (left - r.1.toNat) r.2 c') := by
    intro left s c hpos hI
    obtain ⟨len, s', c', hrun, hlen, hle, hI⟩ := hstep left s c hpos hI
    exact ⟨((len : Int), s'), c', hrun, by omega, by simp; omega, fun _ => hI⟩
  obtain ⟨⟨rt, s'⟩, c', hrun, hout⟩ :=
    fixLoop_rule (E := fun _ _ _ => False) hround (Nat.lt_succ_self length) h
  obtain ⟨hrt, hI⟩ := hout.resolve_right And.right
  refine ⟨s', c', ?_, hI⟩
  rwa [fixSize, toInt64_of_lt hl, Int.toNat_natCast, ← hrt]

theorem fixSize_neg (s c)
    (h : toInt64 length ≤ 0) : (fixSize step length s).run c = .ok (toInt32 length, s) c := by
  unfold fixSize
  rw [Int.toNat_eq_zero.mpr h, fixLoop]
  simp

/-! ## Any stream -/

theorem read_some (hc : c.connected = true) (hn : 0 < n) (hin : c.inbox.flatten ≠ []) :
    ∃ x segs, (read n).run c = .ok ((x.length : Int), x) { c with inbox := segs } ∧
      x ≠ [] ∧ x.length ≤ n ∧ x ++ segs.flatten = c.inbox.flatten ∧
      advance 0 segs = advance x.length c.inbox := by
  have hroom : 0 < min n maxRw := Nat.lt_min.mpr ⟨hn, by decide⟩
  refine ⟨(recv (min n maxRw) c.inbox).1, (recv (min n maxRw) c.inbox).2, by simp [read, hc],
    recv_ne_nil hroom hin, ?_, recv_flatten _ _, advance_recv _ _⟩
  exact Nat.le_trans (length_recv_le _ _) (Nat.min_le_left _ _)

theorem read_returns (n) (c : Conn) : Returns (read n) c fun r c' =>
    r.2.length ≤ n ∧ (0 < r.1 → r.1 = r.2.length) ∧
      c'.inbox.flatten.length + r.2.length = c.inbox.flatten.length := by
  by_cases hc : c.connected = true
  · have hflat := congrArg List.length (recv_flatten (min n maxRw) c.inbox)
    rw [length_append] at hflat
    refine ⟨((recv (min n maxRw) c.inbox).1.length, (recv (min n maxRw) c.inbox).1),
      { c with inbox := (recv (min n maxRw) c.inbox).2 }, by simp [read, hc], ?_, fun _ => rfl, ?_⟩
    · exact Nat.le_trans (length_recv_le _ _) (Nat.min_le_left _ _)
    · dsimp only
      omega
  · exact ⟨(-1, []), c, by simp [read, hc], Nat.zero_le _, fun hpos => absurd hpos (by decide), rfl⟩

/-- What `readFixSize` returns: the bytes of the whole length, or a result that is not positive. -/
theorem readFixSize_returns (n c) : Returns (readFixSize n) c fun r _ =>
    0 < r.1 → r.1 = toInt32 n ∧ r.2.length = (toInt64 n).toNat := by
  have hround : ∀ left got c, 0 < left → got.length + left = (toInt64 n).toNat →
      Returns (do let (len, x) ← read left; return (len, got ++ x)) c fun r _ => r.1 ≤ left ∧
        (r.1 ≤ 0 → True) ∧ (0 < r.1 → r.2.length + (left - r.1.toNat) = (toInt64 n).toNat) := by
    intro left got c hpos hI
    refine (read_returns left c).bind ?_
    rintro ⟨len, x⟩ c' ⟨hle, hlen, -⟩
    refine returns_pure ?_
    dsimp only at hle hlen ⊢
    rw [length_append]
    refine ⟨by omega, fun _ => trivial, fun hpos => ?_⟩
    have := hlen hpos
    omega
  obtain ⟨r, c', hrun, hend⟩ := fixLoop_rule (n := n) (s := ([] : List UInt8)) (d := c)
    (I := fun left got _ => got.length + left = (toInt64 n).toNat) (E := fun _ _ _ => True)
    hround (Nat.lt_succ_self _) (Nat.zero_add _)
  refine ⟨r, c', hrun, fun hpos => ?_⟩
  obtain ⟨hrt, hlen⟩ := hend.resolve_right fun h => absurd h.1 (by omega)
  exact ⟨hrt, hlen⟩

theorem readFixSize_ok {c c' : Conn} {rt : Int} {x : List UInt8}
    (h : (readFixSize n).run c = .ok (rt, x) c') (hpos : 0 < rt) :
    rt = toInt32 n ∧ x.length = (toInt64 n).toNat := by
  obtain ⟨r, t, hrun, hr⟩ := readFixSize_returns n c
  rw [hrun] at h
  cases h
  exact hr hpos

theorem write_some (hc : c.connected = true) {buf : List UInt8} (hbuf : buf ≠ []) :
    ∃ k quota, (write buf).run c =
        .ok ((k : Nat) : Int) { c with outbox := c.outbox ++ buf.take k, quota := quota } ∧
      0 < k ∧ k ≤ buf.length := by
  have hroom : 0 < min buf.length maxRw :=
    Nat.lt_min.mpr ⟨length_pos_iff.mpr hbuf, by decide⟩
  refine ⟨grant c.quota (min buf.length maxRw), c.quota.tail, by simp [write, hc],
    grant_pos _ hroom, ?_⟩
  exact Nat.le_trans (grant_le _ _) (Nat.min_le_left _ _)

theorem writeFixSize_closed (hc : c.connected = false) (buf : List UInt8) (hbuf : buf ≠ [])
    (hlt : buf.length < 2 ^ 63) : (writeFixSize buf).run c = .ok (-1) c := by
  have hz : buf.length ≠ 0 := by simpa using hbuf
  have hw : ∀ x, (write x).run c = .ok (-1) c := by simp [write, hc]
  rw [writeFixSize, Virtual.writeFixSize, fixSize, toInt64_of_lt hlt, Int.toNat_natCast, fixLoop]
  simp only [hz, if_false, bind_assoc, pure_bind]
  rw [run_bind_ok (hw _)]
  rfl

theorem readFixSize_eq (hc : c.connected = true) (x rest : List UInt8)
    (hin : c.inbox.flatten = x ++ rest) (hlt : x.length < 2 ^ 63) :
    ∃ segs, (readFixSize x.length).run c = .ok (toInt32 x.length, x) { c with inbox := segs } ∧
      segs.flatten = rest ∧ advance 0 segs = advance x.length c.inbox := by
  -- what is read so far and what is still to come make up the stream
  let I : Nat → List UInt8 → Conn → Prop := fun left got d =>
    got.length + left = x.length ∧ ∃ segs, d = { c with inbox := segs } ∧
      got ++ segs.flatten = x ++ rest ∧ advance 0 segs = advance got.length c.inbox
  have hstep : ∀ left got d, 0 < left → I left got d → ∃ (len : Nat) (got' : List UInt8)
      (d' : Conn), (do let (len, y) ← read left; return (len, got ++ y) : Net _).run d =
        .ok ((len : Int), got') d' ∧ 0 < len ∧ len ≤ left ∧ I (left - len) got' d' := by
    rintro left got d hleft ⟨hlen, segs, rfl, hsplit, hat⟩
    have hne : segs.flatten ≠ [] := by
      intro h0
      have := congrArg List.length hsplit
      simp [h0] at this
      omega
    obtain ⟨y, segs', hr, hy, hle, hflat, hat'⟩ :=
      read_some (c := { c with inbox := segs }) hc hleft hne
    refine ⟨y.length, got ++ y, { c with inbox := segs' }, ?_, length_pos_iff.mpr hy, hle,
      ?_, segs', rfl, ?_, ?_⟩
    · rw [run_bind_ok hr]
      rfl
    · rw [length_append]
      omega
    · rw [append_assoc, hflat, hsplit]
    · rw [hat', ← Nat.zero_add y.length, ← advance_advance, hat, advance_advance,
        length_append]
  obtain ⟨got, d, hrun, ⟨hlen, segs, rfl, hsplit, hat⟩⟩ :=
    fixSize_rule hstep [] c hlt ⟨by simp, c.inbox, rfl, by simpa using hin, rfl⟩
  obtain ⟨h1, h2⟩ := append_inj hsplit (by omega)
  exact ⟨segs, by rw [readFixSize, Virtual.readFixSize, hrun, h1], h2, by rw [hat, h1]⟩

theorem writeFixSize_eq (hc : c.connected = true) (buf : List UInt8) (hlt : buf.length < 2 ^ 63) :
    ∃ quota, (writeFixSize buf).run c =
      .ok (toInt32 buf.length) { c with outbox := c.outbox ++ buf, quota := quota } := by
  let I : Nat → Nat → Conn → Prop := fun left offset d =>
    offset + left = buf.length ∧ ∃ quota,
      d = { c with outbox := c.outbox ++ buf.take offset, quota := quota }
  have hstep : ∀ left offset d, 0 < left → I left offset d → ∃ (len offset' : Nat) (d' : Conn),
      (do let len ← write (slice buf offset left); return (len, offset + len.toNat) : Net _).run d =
        .ok ((len : Int), offset') d' ∧ 0 < len ∧ len ≤ left ∧ I (left - len) offset' d' := by
    rintro left offset d hleft ⟨hlen, quota, rfl⟩
    have hs : (slice buf offset left).length = left := length_slice _ _ _ (by omega)
    obtain ⟨k, quota', hr, hpos, hle⟩ := write_some
      (c := { c with outbox := c.outbox ++ buf.take offset, quota := quota }) hc
      (ne_nil_of_length_pos (l := slice buf offset left) (by omega))
    rw [hs] at hle
    have hparts : c.outbox ++ buf.take offset ++ (slice buf offset left).take k =
        c.outbox ++ buf.take (offset + k) := by
      rw [append_assoc, take_slice, Nat.min_eq_left hle, slice, take_add]
    rw [hparts] at hr
    refine ⟨k, offset + k, _, ?_, hpos, hle, by omega, quota', rfl⟩
    rw [run_bind_ok hr]
    rfl
  obtain ⟨offset, d, hrun, ⟨hlen, quota, rfl⟩⟩ :=
    fixSize_rule hstep 0 c hlt ⟨by omega, c.quota, by simp⟩
  refine ⟨quota, ?_⟩
  have hall : offset = buf.length := by omega
  rw [writeFixSize, Virtual.writeFixSize, run_bind_ok hrun, hall, take_length]
  rfl

/-! ## Open connections -/

structure Ready (w : List UInt8) (c : Conn) : Prop where
  connected : c.connected = true
  inbox : c.inbox.flatten = w

theorem Ready.readFixSize {x rest : List UInt8} (h : Ready (x ++ rest) c)
    (hlt : x.length < 2 ^ 63) :
    ∃ c', (Stream.readFixSize x.length).run c = .ok (toInt32 x.length, x) c' ∧ Ready rest c' := by
  obtain ⟨segs, hr, hflat, _⟩ := readFixSize_eq h.connected x rest h.inbox hlt
  exact ⟨_, hr, h.connected, hflat⟩

theorem Ready.readFixSize_eof (h : Ready [] c) (hn : 0 < n)
    (hlt : n < 2 ^ 63) : ∃ c', (Stream.readFixSize n).run c = .ok (0, []) c' := by
  have hrecv : (recv (min n maxRw) c.inbox).1 = [] := by
    have hf := recv_flatten (min n maxRw) c.inbox
    rw [h.inbox] at hf
    exact (append_eq_nil_iff.mp hf).1
  have hread : (Stream.read n).run c =
      .ok (0, []) { c with inbox := (recv (min n maxRw) c.inbox).2 } := by
    simp [Stream.read, h.connected, hrecv]
  have hz : n ≠ 0 := by omega
  refine ⟨{ c with inbox := (recv (min n maxRw) c.inbox).2 }, ?_⟩
  rw [Stream.readFixSize, Virtual.readFixSize, fixSize, toInt64_of_lt hlt, Int.toNat_natCast,
    fixLoop]
  simp only [hz, if_false, bind_assoc, pure_bind]
  rw [run_bind_ok hread]
  rfl

theorem Ready.writeFixSize (h : Ready w c) (buf : List UInt8) (hlt : buf.length < 2 ^ 63) :
    ∃ c', (Stream.writeFixSize buf).run c = .ok (toInt32 buf.length) c' ∧ Ready w c' := by
  obtain ⟨quota, hr⟩ := writeFixSize_eq h.connected buf hlt
  exact ⟨_, hr, h.connected, h.inbox⟩

/-! ## Positions in the stream -/

/-- An open connection that has delivered the first `k` bytes of `segs`. -/
structure Delivered (segs : List (List UInt8)) (k : Nat) (c : Conn) : Prop where
  connected : c.connected = true
  inbox : advance 0 c.inbox = advance k segs

theorem delivered_receiver (segs) : Delivered segs 0 (receiver segs) :=
  ⟨rfl, rfl⟩

theorem Delivered.flatten (h : Delivered segs k c) : c.inbox.flatten = segs.flatten.drop k := by
  rw [← advance_flatten, ← h.inbox, advance_flatten, drop_zero]

/-- What a read into `n` bytes returns at position `k` of `segs`. -/
def readAt (n : Nat) (segs : List (List UInt8)) (k : Nat) : List UInt8 :=
  (recv (min n maxRw) (advance k segs)).1

theorem readAt_ne_nil (hn : 0 < n) (hk : k < segs.flatten.length) : readAt n segs k ≠ [] := by
  refine recv_ne_nil (Nat.lt_min.mpr ⟨hn, by decide⟩) ?_
  rw [advance_flatten]
  exact ne_nil_of_length_pos (by rw [length_drop]; omega)

theorem readAt_length_le (n segs k) : (readAt n segs k).length ≤ n :=
  Nat.le_trans (length_recv_le _ _) (Nat.min_le_left _ _)

/-- The stream from position `k` on begins with what a read there returns. -/
theorem readAt_append (n) (segs : List (List UInt8)) (k) :
    segs.flatten.drop k = readAt n segs k ++ segs.flatten.drop (k + (readAt n segs k).length) := by
  have h := recv_flatten (min n maxRw) (advance k segs)
  rw [advance_flatten] at h
  have hlen : segs.flatten.drop (k + (readAt n segs k).length) =
      (recv (min n maxRw) (advance k segs)).2.flatten := by
    rw [← drop_drop, ← h, readAt, drop_left]
  rw [hlen, readAt, h]

theorem Delivered.read (h : Delivered segs k c) (n) : ∃ c', (Stream.read n).run c =
        .ok (((readAt n segs k).length : Int), readAt n segs k) c' ∧
      Delivered segs (k + (readAt n segs k).length) c' := by
  have hrecv : recv (min n maxRw) c.inbox = recv (min n maxRw) (advance k segs) := by
    rw [← recv_advance_zero, h.inbox]
  refine ⟨{ c with inbox := (recv (min n maxRw) c.inbox).2 }, ?_, h.connected, ?_⟩
  · simp [Stream.read, h.connected, readAt, hrecv]
  · rw [hrecv, advance_recv, advance_advance]
    rfl

theorem Delivered.readFixSize (h : Delivered segs k c) {x rest : List UInt8}
    (hin : segs.flatten.drop k = x ++ rest) (hlt : x.length < 2 ^ 63) :
    ∃ c', (Stream.readFixSize x.length).run c = .ok (toInt32 x.length, x) c' ∧
      Delivered segs (k + x.length) c' := by
  obtain ⟨segs', hr, _, hat⟩ := readFixSize_eq h.connected x rest (h.flatten.trans hin) hlt
  refine ⟨_, hr, h.connected, ?_⟩
  rw [hat, ← Nat.zero_add x.length, ← advance_advance, h.inbox, advance_advance]
  simp

/-! ## `ByteArray`s -/

/-- A buffer that holds the bytes `w` and is to take `left` more: no block more
than those need. -/
structure Filling (B : Nat) (e : Endian) (w : List UInt8) (left : Nat) (b : ByteArray) : Prop where
  inv : b.Inv B
  endian : b.endian = e
  position : b.position = w.length
  size : b.size = w.length
  bytes : b.root.flatten.take w.length = w
  room : b.capacity = B ∨ b.capacity < w.length + left + B

theorem filling_of_atEnd (h : ByteArray.AtEnd B e w b) (left) : Filling B e w left b := by
  refine ⟨h.inv, h.endian, h.position, h.size, h.bytes, ?_⟩
  have ht := h.tight
  unfold ByteArray.Tight at ht
  rw [h.inv.base, h.size] at ht
  omega

theorem Filling.atEnd (h : Filling B e w 0 b) : ByteArray.AtEnd B e w b := by
  refine ⟨h.inv, h.endian, h.position, h.size, h.bytes, ?_⟩
  have hr := h.room
  unfold ByteArray.Tight
  rw [h.inv.base, h.size]
  omega

theorem onByteArray_ok {α : Type} {ba ba' : ByteArray} {x : BA α} {a : α}
    (h : x.run ba = .ok a ba') (c) : (onByteArray ba x).run c = .ok (a, ba') c := by
  rw [onByteArray, h]
  rfl

theorem onByteArray_error {α : Type} {ba ba' : ByteArray} {x : BA α} {e : Fault}
    (h : x.run ba = .error e ba') (c) : (onByteArray ba x).run c = .error e c := by
  rw [onByteArray, h]
  rfl

theorem readBA_run {b₁ b₂ : ByteArray} {x : List UInt8} {c c' : Conn}
    (hc : c.connected = true) (hget : (ByteArray.getWriteBuffers n).run b = .ok (n, vs) b₁)
    (hread : (read n).run c = .ok ((x.length : Int), x) c') (hx : x ≠ [])
    (hset : (ByteArray.setPosition (b₁.position + x.length)).run
      { b₁ with root := ByteArray.scatter b₁.root vs x } = .ok () b₂) :
    (readBA b n).run c = .ok ((x.length : Int), b₂) c' := by
  have hpos : 0 < x.length := length_pos_iff.mpr hx
  rw [readBA, EStateM.run_bind, EStateM.run_get]
  dsimp only
  rw [if_neg (by simp [hc]), run_bind_ok (onByteArray_ok hget c)]
  dsimp only
  rw [run_bind_ok hread]
  dsimp only
  rw [run_ite, if_pos (by omega), Int.toNat_natCast, run_bind_ok (onByteArray_ok hset _)]
  rfl

theorem writeBA_run {b' : ByteArray} {n k : Nat} {c c' : Conn}
    (hc : c.connected = true) {m : Nat} (hget : (ByteArray.getReadBuffers n).run b = .ok (m, vs) b)
    (hwrite : (write (ByteArray.gather b.root vs)).run c = .ok ((k : Nat) : Int) c') (hk : 0 < k)
    (hset : (ByteArray.setPosition (b.position + k)).run b = .ok () b') :
    (writeBA b n).run c = .ok ((k : Int), b') c' := by
  rw [writeBA, EStateM.run_bind, EStateM.run_get]
  dsimp only
  rw [if_neg (by simp [hc]), run_bind_ok (onByteArray_ok hget c)]
  dsimp only
  rw [run_bind_ok hwrite, run_ite, if_pos (by omega), Int.toNat_natCast,
    run_bind_ok (onByteArray_ok hset _)]
  rfl

theorem Filling.reserve (hB : 1 ≤ B) {left : Nat}
    {b' : ByteArray} (h : Filling B e w left b) (hi : b'.Inv B) (he : b'.endian = b.endian)
    (hf : b'.flat = b.flat.reserve B left) : Filling B e w left b' where
  inv := hi
  endian := he.trans h.endian
  position := by
    have := congrArg Flat.position hf
    simpa [ByteArray.flat, Flat.reserve, Flat.grow, h.position] using this
  size := by
    have := congrArg Flat.size hf
    simpa [ByteArray.flat, Flat.reserve, Flat.grow, h.size] using this
  bytes := by
    have hm := congrArg Flat.mem hf
    have hl : w.length ≤ b.root.flatten.length := by
      rw [h.inv.length_flatten, ← h.size]
      exact h.inv.size_le
    simp only [ByteArray.flat, Flat.reserve, Flat.grow] at hm
    rw [hm, take_append_of_le_length hl, h.bytes]
  room := by
    have hsize := h.inv.size_le
    rw [ByteArray.Inv.capacity_of_reserve h.inv hi hf, h.position]
    rw [h.size] at hsize
    exact ByteArray.room_of_reserve hB hsize h.room

/-- Bytes are stored into the room behind what a buffer holds, and the cursor is
moved behind them. -/
theorem Filling.scatter (hB : 1 ≤ B) {w x : List UInt8} {left : Nat} (h : Filling B e w left b)
    (hcov : Covers B b.root.length b.position vs left)
    (hfit : b.position + left ≤ b.capacity) (hx : x.length ≤ left) :
    ∃ b', (ByteArray.setPosition (b.position + x.length)).run
        { b with root := ByteArray.scatter b.root vs x } = .ok () b' ∧
      Filling B e (w ++ x) (left - x.length) b' := by
  obtain ⟨hi, hmem⟩ := h.inv.scattered hcov hfit hx
  obtain ⟨b', hset, hi', hb'⟩ := hi.setPosition_eq hB (v := b.position + x.length)
    (by dsimp only; omega)
  have hpos := h.position
  have hsize := h.size
  have hroom := h.room
  refine ⟨b', hset, hi', ?_, ?_, ?_, ?_, ?_⟩
  · rw [hb']
    exact h.endian
  · rw [hb', length_append, ← hpos]
  · rw [hb', length_append]
    change max b.size (b.position + x.length) = w.length + x.length
    omega
  · have hcap : w.length ≤ b.root.flatten.length := by
      rw [h.inv.length_flatten]
      omega
    rw [hb']
    change (ByteArray.scatter b.root vs x).flatten.take _ = _
    rw [hmem, length_append, hpos, take_add_overwrite _ _ _ hcap, h.bytes]
  · rw [hb', length_append]
    change b.capacity = B ∨ b.capacity < w.length + x.length + (left - x.length) + B
    omega

theorem readBA_some (hB : 1 ≤ B) {left : Nat} (h : Filling B e w left b) (hc : c.connected = true)
    (hleft : 0 < left) (hin : c.inbox.flatten ≠ []) :
    ∃ x segs b', (readBA b left).run c = .ok ((x.length : Int), b') { c with inbox := segs } ∧
      x ≠ [] ∧ x.length ≤ left ∧ x ++ segs.flatten = c.inbox.flatten ∧
      Filling B e (w ++ x) (left - x.length) b' := by
  obtain ⟨vs, b₁, hget, hi, hf, he, hfit, hcov⟩ := h.inv.getWriteBuffers_eq hB left
  obtain ⟨x, segs, hr, hx, hle, hflat, _⟩ := read_some hc hleft hin
  obtain ⟨b₂, hset, hfill⟩ := (h.reserve hB hi he hf).scatter hB hcov hfit hle
  exact ⟨x, segs, b₂, readBA_run hc hget hr hx hset, hx, hle, hflat, hfill⟩

theorem writeBA_some {B total : Nat} (hB : 1 ≤ B) (h : ByteArray.Unread B e total w b)
    (hc : c.connected = true) (hw : w ≠ []) :
    ∃ (k : Nat) (quota : List Nat) (b' : ByteArray), (writeBA b w.length).run c =
        .ok ((k : Int), b') { c with outbox := c.outbox ++ w.take k, quota := quota } ∧
      0 < k ∧ k ≤ w.length ∧ ByteArray.Unread B e total (w.drop k) b' := by
  obtain ⟨vs, hget, hcov⟩ := h.inv.getReadBuffers_eq hB w.length
  rw [h.left, Nat.min_self] at hget hcov
  have hgather : ByteArray.gather b.root vs = w := by
    rw [ByteArray.Covers.gather_eq h.inv.uniform hcov, h.bytes]
  obtain ⟨k, quota, hwrite, hpos, hk⟩ := write_some hc hw
  obtain ⟨b', hset, hrest⟩ := h.skip hB hk
  exact ⟨k, quota, b', writeBA_run hc hget (by rw [hgather]; exact hwrite) hpos hset, hpos, hk,
    hrest⟩

theorem readFixSizeBA_eq (hB : 1 ≤ B) (h : ByteArray.AtEnd B e w b) (hc : c.connected = true)
    (x rest : List UInt8) (hin : c.inbox.flatten = x ++ rest) (hlt : x.length < 2 ^ 63) :
    ∃ segs b', (readFixSizeBA b x.length).run c =
        .ok (toInt32 x.length, b') { c with inbox := segs } ∧
      segs.flatten = rest ∧ ByteArray.AtEnd B e (w ++ x) b' := by
  let I : Nat → ByteArray → Conn → Prop := fun left ba d =>
    ∃ got segs, got.length + left = x.length ∧ d = { c with inbox := segs } ∧
      got ++ segs.flatten = x ++ rest ∧ Filling B e (w ++ got) left ba
  have hstep : ∀ left ba d, 0 < left → I left ba d → ∃ (len : Nat) (ba' : ByteArray) (d' : Conn),
      (readBA ba left).run d = .ok ((len : Int), ba') d' ∧ 0 < len ∧ len ≤ left ∧
        I (left - len) ba' d' := by
    rintro left ba d hleft ⟨got, segs, hlen, rfl, hsplit, hfill⟩
    have hne : segs.flatten ≠ [] := by
      intro h0
      have := congrArg List.length hsplit
      simp [h0] at this
      omega
    obtain ⟨y, segs', ba', hr, hy, hle, hflat, hfill'⟩ :=
      readBA_some hB hfill (c := { c with inbox := segs }) hc hleft hne
    refine ⟨y.length, ba', { c with inbox := segs' }, hr, length_pos_iff.mpr hy, hle,
      got ++ y, segs', ?_, rfl, ?_, ?_⟩
    · rw [length_append]
      omega
    · rw [append_assoc, hflat, hsplit]
    · rwa [append_assoc] at hfill'
  obtain ⟨ba, d, hrun, got, segs, hlen, rfl, hsplit, hfill⟩ := fixSize_rule hstep b c hlt
    ⟨[], c.inbox, by simp, rfl, by simpa using hin, by simpa using filling_of_atEnd h x.length⟩
  obtain ⟨h1, h2⟩ := append_inj hsplit (by omega)
  rw [h1] at hfill
  exact ⟨segs, ba, hrun, h2, hfill.atEnd⟩

theorem writeFixSizeBA_eq {B total : Nat} (hB : 1 ≤ B) (h : ByteArray.Unread B e total w b)
    (hc : c.connected = true) (hlt : w.length < 2 ^ 63) :
    ∃ quota b', (writeFixSizeBA b w.length).run c =
        .ok (toInt32 w.length, b') { c with outbox := c.outbox ++ w, quota := quota } ∧
      b'.size = b.size := by
  let I : Nat → ByteArray → Conn → Prop := fun left ba d =>
    ∃ sent rest quota, w = sent ++ rest ∧ rest.length = left ∧
      d = { c with outbox := c.outbox ++ sent, quota := quota } ∧
      ByteArray.Unread B e total rest ba
  have hstep : ∀ left ba d, 0 < left → I left ba d → ∃ (len : Nat) (ba' : ByteArray) (d' : Conn),
      (writeBA ba left).run d = .ok ((len : Int), ba') d' ∧ 0 < len ∧ len ≤ left ∧
        I (left - len) ba' d' := by
    rintro _ ba d hleft ⟨sent, rest, quota, hw, rfl, rfl, hun⟩
    obtain ⟨k, quota', ba', hrun, hpos, hk, hun'⟩ := writeBA_some hB hun
      (c := { c with outbox := c.outbox ++ sent, quota := quota }) hc
      (ne_nil_of_length_pos hleft)
    refine ⟨k, ba', _, hrun, hpos, hk, sent ++ rest.take k, rest.drop k, quota', ?_, ?_, ?_, hun'⟩
    · rw [append_assoc, take_append_drop, hw]
    · rw [length_drop]
    · rw [append_assoc]
  obtain ⟨ba, d, hrun, sent, rest, quota, hw, hnil, rfl, hun⟩ := fixSize_rule hstep b c hlt
    ⟨[], w, c.quota, rfl, rfl, by simp, h⟩
  rw [length_eq_zero_iff.mp hnil, append_nil] at hw
  refine ⟨quota, ba, ?_, hun.size.trans h.size.symm⟩
  rw [writeFixSizeBA, Virtual.writeFixSizeBA, hrun, hw]

end Stream
end Helens
