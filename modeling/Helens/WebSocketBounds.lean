import Helens.WebSocketRoundtrip

/-! The lengths and indices of `WSRecvMessage`: a length of 64 bits from the wire, a running total
in an `int`, and a limit of 32 bits. -/

namespace Helens.WebSocket
open Lib.Blocks Lib.StateError Lib.Words Lib.Segments Helens.Stream List

/-! ## One round of the loop -/

inductive Round
  | stop
  | message (msg : WSFrameMessage)
  | again (opcode : Nat) (data : List UInt8) (curLen : Int)

def recvRound (maxSize : UInt32) (client : Bool) (opcode : Nat) (data : List UInt8) (curLen : Int) :
    Net Round := do
  let (rt, bytes) ← readFixSize 2
  if rt ≤ 0 then
    return .stop
  else
    let head := WSFrameHead.ofBytes bytes
    if head.opcode = Opcode.ping.code then
      return if (← wsPong) ≤ 0 then .stop else .again opcode data curLen
    else if head.opcode = Opcode.pong.code then
      return .again opcode data curLen
    else if IsData head.opcode then
      match ← recvFrame maxSize client head data curLen with
      | none => return .stop
      | some (data, curLen) =>
        return if head.fin then .message ⟨nextOpcode opcode head.opcode, data⟩
          else .again (nextOpcode opcode head.opcode) data curLen
    else
      return .again opcode data curLen

/-- The variables and the connection at the top of the loop, in the call made on `c₀`. -/
inductive Reached (maxSize : UInt32) (client : Bool) (c₀ : Conn) :
    Nat → List UInt8 → Int → Conn → Prop
  | start : Reached maxSize client c₀ 0 [] 0 c₀
  | round {opcode opcode' : Nat} {data data' : List UInt8} {curLen curLen' : Int} {c c' : Conn} :
      Reached maxSize client c₀ opcode data curLen c →
      (recvRound maxSize client opcode data curLen).run c = .ok (.again opcode' data' curLen') c' →
      Reached maxSize client c₀ opcode' data' curLen' c'

variable {data : List UInt8} {curLen : Int} {opcode : Nat} {c c' : Conn}

/-! ## A data frame -/

variable {maxSize : UInt32} {client : Bool}

theorem recvFrame_ok {head : WSFrameHead} {data data' : List UInt8} {curLen curLen' : Int}
    (h : (recvFrame maxSize client head data curLen).run c = .ok (some (data', curLen')) c') :
    (client = true ∨ head.mask = true) ∧
    ∃ (length : Nat) (x : List UInt8) (c₁ : Conn), (recvLength head).run c = .ok (some length) c₁ ∧
      toSize (curLen + length) < maxSize.toNat ∧ 0 < toInt32 length ∧
      x.length = (toInt64 length).toNat ∧
      data'.length = (overwrite (resize data (toSize (curLen + length))) (toSize curLen) x).length ∧
      curLen' = toInt32 (curLen + length) := by
  unfold recvFrame at h
  obtain ⟨-, h⟩ | ⟨hmask, h⟩ := run_ite_eq_ok h
  · cases h
  refine ⟨by simpa [or_iff_not_imp_left] using hmask, ?_⟩
  obtain ⟨r, c₁, hlength, h⟩ := run_bind_eq_ok h
  cases r with
  | none => cases h
  | some length =>
    dsimp only at h
    obtain ⟨-, h⟩ | ⟨hmax, h⟩ := run_ite_eq_ok h
    · cases h
    obtain ⟨⟨rt, mask⟩, c₂, -, h⟩ := run_bind_eq_ok h
    obtain ⟨-, h⟩ | ⟨-, h⟩ := run_ite_eq_ok h
    · cases h
    obtain ⟨-, h⟩ | ⟨-, h⟩ := run_ite_eq_ok h
    · cases h
    obtain ⟨⟨rt', x⟩, c₃, hread, h⟩ := run_bind_eq_ok h
    obtain ⟨-, h⟩ | ⟨hpos, h⟩ := run_ite_eq_ok h
    · cases h
    obtain ⟨hrt, hx⟩ := readFixSize_ok hread (by omega)
    rw [EStateM.run_pure, EStateM.Result.ok.injEq, Option.some.injEq, Prod.mk.injEq] at h
    obtain ⟨⟨hdata, hcur⟩, -⟩ := h
    refine ⟨length, x, c₁, hlength, by omega, by omega, hx, ?_, hcur.symm⟩
    rw [← hdata]
    split
    · simp [xorMask]
    · rfl

/-! ## The running total -/

/-- The next frame of the stream is a data frame that is not refused for its missing key, and
announces `length` bytes. -/
def Announces (client : Bool) (c : Conn) (length : Nat) : Prop :=
  ∃ rt bytes c₁ c₂, (readFixSize 2).run c = .ok (rt, bytes) c₁ ∧ 0 < rt ∧
    IsData (WSFrameHead.ofBytes bytes).opcode ∧
    (client = true ∨ (WSFrameHead.ofBytes bytes).mask = true) ∧
    (recvLength (WSFrameHead.ofBytes bytes)).run c₁ = .ok (some length) c₂

/-- A frame of `length` bytes behind `data`: the sum is exact, the size stays below the limit, what
is stored and unmasked are bytes of the resized string, and so is the new total. -/
structure InBounds (maxSize : UInt32) (data : List UInt8) (curLen : Int) (length : Nat) : Prop where
  sum : (toSize (curLen + length) : Int) = curLen + length
  limit : (resize data (toSize (curLen + length))).length < maxSize.toNat
  written : ∀ i < (toInt64 length).toNat,
    toSize curLen + i < (resize data (toSize (curLen + length))).length
  unmasked : ∀ i : Nat, (i : Int) < toInt32 length → 0 ≤ toInt32 (curLen + i) ∧
    toInt32 (curLen + i) < (resize data (toSize (curLen + length))).length
  total : 0 < toInt32 length → toInt32 (curLen + length) = curLen + length

/-- The sum does not wrap, and the new total is an `int` where the length is one. -/
def Fits (data : List UInt8) (length : Nat) : Prop :=
  data.length + length < 2 ^ 64 ∧ (length < 2 ^ 31 → data.length + length < 2 ^ 31)

structure Counted (maxSize : UInt32) (data : List UInt8) (curLen : Int) : Prop where
  total : curLen = data.length
  int : data.length < 2 ^ 31
  limit : data = [] ∨ data.length < maxSize.toNat

/-- What passes the check with a sum that does not wrap. -/
theorem Counted.sum_eq (h : Counted maxSize data curLen) {length : Nat}
    (hcheck : toSize (curLen + length) < maxSize.toNat) (hsum : data.length + length < 2 ^ 64) :
    toSize curLen = data.length ∧ toSize (curLen + length) = data.length + length ∧
      data.length + length < maxSize.toNat ∧ data.length + length < 2 ^ 32 := by
  have hmax := maxSize.toNat_lt
  rw [h.total] at hcheck ⊢
  unfold toSize at hcheck ⊢
  omega

theorem Counted.inBounds_iff (h : Counted maxSize data curLen) {length : Nat}
    (hcheck : toSize (curLen + length) < maxSize.toNat) :
    InBounds maxSize data curLen length ↔ Fits data length := by
  constructor
  · intro hin
    have hsum : data.length + length < 2 ^ 64 := by
      have hexact := hin.sum
      rw [h.total] at hexact
      unfold toSize at hexact
      omega
    refine ⟨hsum, fun hlt => ?_⟩
    by_cases hzero : length = 0
    · rw [hzero]
      exact h.int
    · have htotal := hin.total (by rw [toInt32_of_lt hlt]; omega)
      have hlt32 := (h.sum_eq hcheck hsum).2.2.2
      rw [h.total] at htotal
      by_contra hge
      rw [show ((data.length : Int) + length) = (data.length + length : Nat) from rfl,
        toInt32_of_ge (by omega) hlt32] at htotal
      omega
  · rintro ⟨hsum, hint⟩
    obtain ⟨hat, hsize, hmax, hlt32⟩ := h.sum_eq hcheck hsum
    have hcast (i : Nat) : curLen + i = ((data.length + i : Nat) : Int) := by
      rw [h.total]
      rfl
    -- a length that is no positive `int` ends the call behind the transfer
    have hpos : 0 < toInt32 length → data.length + length < 2 ^ 31 := by
      intro hpos
      by_contra hge
      have hlong : 2 ^ 31 ≤ length := by
        by_contra hlt
        exact hge (hint (by omega))
      rw [toInt32_of_ge hlong (by omega)] at hpos
      omega
    refine ⟨by rw [hsize, hcast], by rwa [length_resize, hsize], fun i hi => ?_, fun i hi => ?_,
      fun h0 => ?_⟩
    · rw [toInt64_of_lt (by omega), Int.toNat_natCast] at hi
      rw [hat, length_resize, hsize]
      omega
    · have hfit := hpos (by omega)
      rw [toInt32_of_lt (by omega)] at hi
      rw [hcast, toInt32_of_lt (by omega), length_resize, hsize]
      omega
    · rw [hcast]
      exact toInt32_of_lt (hpos h0)

theorem Counted.frame {head : WSFrameHead} {data data' : List UInt8} {curLen curLen' : Int}
    (h : Counted maxSize data curLen)
    (hrun : (recvFrame maxSize client head data curLen).run c = .ok (some (data', curLen')) c')
    (hfits : ∀ length c₁, (recvLength head).run c = .ok (some length) c₁ →
      toSize (curLen + length) < maxSize.toNat → Fits data length) :
    Counted maxSize data' curLen' ∧ data'.length < maxSize.toNat := by
  obtain ⟨-, length, x, c₁, hlength, hcheck, hpos, hx, hdata, hcur⟩ := recvFrame_ok hrun
  obtain ⟨hsum, hint⟩ := hfits length c₁ hlength hcheck
  obtain ⟨hat, hsize, hmax, hlt32⟩ := h.sum_eq hcheck hsum
  have hin : InBounds maxSize data curLen length := (h.inBounds_iff hcheck).mpr ⟨hsum, hint⟩
  have hbytes : x.length = length := by
    rw [hx, toInt64_of_lt (by omega), Int.toNat_natCast]
  have hlen : data'.length = data.length + length := by
    rw [hdata, hat, length_overwrite _ _ _ (by rw [length_resize, hsize, hbytes]), length_resize,
      hsize]
  have htotal : curLen' = data'.length := by
    rw [hcur, hin.total hpos, h.total, hlen]
    rfl
  have hlt : data.length + length < 2 ^ 31 := by
    have hint32 : toInt32 (curLen + length) < 2 ^ 31 := by
      unfold toInt32
      rw [Int.bmod_def]
      split <;> omega
    rw [hin.total hpos, h.total] at hint32
    omega
  exact ⟨⟨htotal, by omega, .inr (by omega)⟩, by omega⟩

theorem recvRound_ok {r : Round}
    (h : (recvRound maxSize client opcode data curLen).run c = .ok r c') :
    r = .stop ∨ r = .again opcode data curLen ∨
    ∃ rt bytes data' curLen' c₁ c₂, (readFixSize 2).run c = .ok (rt, bytes) c₁ ∧ 0 < rt ∧
      IsData (WSFrameHead.ofBytes bytes).opcode ∧
      (recvFrame maxSize client (WSFrameHead.ofBytes bytes) data curLen).run c₁ =
        .ok (some (data', curLen')) c₂ ∧
      ∃ opcode', r = .message ⟨opcode', data'⟩ ∨ r = .again opcode' data' curLen' := by
  unfold recvRound at h
  obtain ⟨⟨rt, bytes⟩, c₁, hread, h⟩ := run_bind_eq_ok h
  dsimp only at h
  obtain ⟨-, h⟩ | ⟨hrt, h⟩ := run_ite_eq_ok h
  · cases h
    exact .inl rfl
  obtain ⟨-, h⟩ | ⟨-, h⟩ := run_ite_eq_ok h
  · obtain ⟨v, c₂, -, h⟩ := run_bind_eq_ok h
    rw [EStateM.run_pure, EStateM.Result.ok.injEq] at h
    rw [← h.1]
    split
    · exact .inl rfl
    · exact .inr (.inl rfl)
  obtain ⟨-, h⟩ | ⟨-, h⟩ := run_ite_eq_ok h
  · cases h
    exact .inr (.inl rfl)
  obtain ⟨hop, h⟩ | ⟨-, h⟩ := run_ite_eq_ok h
  · obtain ⟨f, c₂, hframe, h⟩ := run_bind_eq_ok h
    cases f with
    | none =>
      cases h
      exact .inl rfl
    | some p =>
      obtain ⟨data', curLen'⟩ := p
      rw [EStateM.run_pure, EStateM.Result.ok.injEq] at h
      refine .inr (.inr ⟨rt, bytes, data', curLen', c₁, c₂, hread, by omega, hop, hframe, ?_⟩)
      rw [← h.1]
      split
      · exact ⟨_, .inl rfl⟩
      · exact ⟨_, .inr rfl⟩
  · cases h
    exact .inr (.inl rfl)

/-- A round whose frame fits keeps the total, and a message is shorter than the limit. -/
theorem Counted.round {r : Round} (h : Counted maxSize data curLen)
    (hfits : ∀ length, Announces client c length → toSize (curLen + length) < maxSize.toNat →
      Fits data length)
    (hrun : (recvRound maxSize client opcode data curLen).run c = .ok r c') :
    (∀ opcode' data' curLen', r = .again opcode' data' curLen' → Counted maxSize data' curLen') ∧
      ∀ msg, r = .message msg → msg.data.length < maxSize.toNat := by
  rcases recvRound_ok hrun with rfl | rfl | ⟨rt, bytes, d, n, c₁, c₂, hread, hrt, hop, hframe, hr⟩
  · exact ⟨nofun, nofun⟩
  · refine ⟨?_, nofun⟩
    rintro _ _ _ ⟨⟩
    exact h
  · have hmask := (recvFrame_ok hframe).1
    obtain ⟨hcounted, hlt⟩ := h.frame hframe fun length c₃ hlength =>
      hfits length ⟨rt, bytes, c₁, c₃, hread, hrt, hop, hmask, hlength⟩
    obtain ⟨op, rfl | rfl⟩ := hr
    · refine ⟨nofun, ?_⟩
      rintro _ ⟨⟩
      exact hlt
    · refine ⟨?_, nofun⟩
      rintro _ _ _ ⟨⟩
      exact hcounted

theorem Reached.counted {c₀ c : Conn} (hfits : ∀ opcode data curLen c length,
      Reached maxSize client c₀ opcode data curLen c → Counted maxSize data curLen →
      Announces client c length → toSize (curLen + length) < maxSize.toNat → Fits data length)
    (h : Reached maxSize client c₀ opcode data curLen c) : Counted maxSize data curLen := by
  induction h with
  | start => exact ⟨rfl, by decide, .inl rfl⟩
  | round hreached hround ih =>
    exact (ih.round (fun length => hfits _ _ _ _ length hreached ih) hround).1 _ _ _ rfl

theorem Reached.frame {c₀ c : Conn} {opcode op : Nat} {data x rest : List UInt8} {key : UInt32}
    (hreached : Reached maxSize true c₀ opcode data data.length c) (hop : IsData op)
    (hrep : Reported x) (hmax : data.length + x.length < maxSize.toNat)
    (h : Ready (frameBytes false op false key x ++ rest) c) :
    ∃ c', Reached maxSize true c₀ (nextOpcode opcode op) (data ++ x)
      (toInt32 ((data.length : Int) + x.length)) c' ∧ Ready rest c' := by
  rw [frameBytes, append_assoc, append_assoc] at h
  obtain ⟨c₁, hr, hc₁⟩ := h.readFixSize (by simp)
  obtain ⟨c₂, hframe, hc₂⟩ := recvFrame_run maxSize true op false (.inl rfl) hc₁ hmax
  rw [if_pos hrep] at hframe
  refine ⟨c₂, hreached.round ?_, hc₂ hrep⟩
  rw [length_toBytes] at hr
  rw [recvRound, run_bind_ok hr]
  dsimp only
  rw [if_neg (by decide), WSFrameHead.ofBytes_toBytes _ hop.lt (payloadField_lt _)]
  dsimp only
  rw [if_neg hop.ne_ping, if_neg hop.ne_pong, if_pos hop, run_bind_ok hframe]
  rfl

end Helens.WebSocket
