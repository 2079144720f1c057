import Helens.WebSocket

/-! Messages over a WebSocket: what a peer sends in fragments, with control
frames in between, and what successive calls of `wsRecvMessage` return. -/

namespace Helens.WebSocket
open Lib.StateError Lib.Words Helens.Stream List

/-! ## One round of the loop -/

def nextOpcode (opcode op : Nat) : Nat := if opcode = 0 ∧ op ≠ Opcode.cont.code then op else opcode

@[simp] theorem nextOpcode_cont (opcode) : nextOpcode opcode Opcode.cont.code = opcode := by
  simp [nextOpcode]

def IsData (op : Nat) : Prop :=
  op = Opcode.cont.code ∨ op = Opcode.textFrame.code ∨ op = Opcode.binFrame.code
  deriving Decidable

theorem IsData.lt (h : IsData op) : op < 16 := by
  rcases h with rfl | rfl | rfl <;> decide

theorem IsData.ne_ping (h : IsData op) : op ≠ Opcode.ping.code := by
  rcases h with rfl | rfl | rfl <;> decide

theorem IsData.ne_pong (h : IsData op) : op ≠ Opcode.pong.code := by
  rcases h with rfl | rfl | rfl <;> decide

variable (maxSize : UInt32) (client : Bool)

theorem wsRecvMessage_eq (h : Ready w c) : (wsRecvMessage maxSize client).run c =
      (recvLoop maxSize client (w.length + 1) 0 [] 0).run c := by
  rw [← h.inbox]
  rfl

theorem recvLoop_data (fuel opcode data curLen) (hop : IsData op)
    (h : Ready (WSFrameHead.toBytes ⟨op, fin, payloadField n, m⟩ ++ rest) c) :
    ∃ c', Ready rest c' ∧ (recvLoop maxSize client (fuel + 1) opcode data curLen).run c = (do
      match ← recvFrame maxSize client ⟨op, fin, payloadField n, m⟩ data curLen with
      | none => recvFail
      | some (data, curLen) =>
        if fin then
          return some ⟨nextOpcode opcode op, data⟩
        else
          recvLoop maxSize client fuel (nextOpcode opcode op) data curLen :
      Net (Option WSFrameMessage)).run c' := by
  obtain ⟨c', hr, hc'⟩ := h.readFixSize (by simp)
  refine ⟨c', hc', ?_⟩
  rw [length_toBytes] at hr
  rw [recvLoop, run_bind_ok hr]
  dsimp only
  rw [if_neg (by decide), WSFrameHead.ofBytes_toBytes _ hop.lt (payloadField_lt n)]
  dsimp only
  rw [if_neg hop.ne_ping, if_neg hop.ne_pong, if_pos (show op = _ ∨ op = _ ∨ op = _ from hop)]
  rfl

theorem recvLoop_frame (fuel opcode) (data : List UInt8) (hop : IsData op)
    (hm : client = true ∨ m = true) (h : Ready (frameBytes m op fin key x ++ rest) c)
    (hmax : data.length + x.length < maxSize.toNat) :
    (Reported x → ∃ c', Ready rest c' ∧
      (recvLoop maxSize client (fuel + 1) opcode data data.length).run c =
        if fin then .ok (some ⟨nextOpcode opcode op, data ++ x⟩) c'
        else (recvLoop maxSize client fuel (nextOpcode opcode op) (data ++ x)
          (toInt32 (data ++ x).length)).run c') ∧
    (¬ Reported x → ∃ c',
      (recvLoop maxSize client (fuel + 1) opcode data data.length).run c = .ok none c') := by
  rw [frameBytes, append_assoc, append_assoc] at h
  obtain ⟨c₁, hc₁, hrun⟩ := recvLoop_data maxSize client fuel opcode data data.length hop h
  obtain ⟨c₂, h2, hc₂⟩ := recvFrame_run maxSize client op fin hm hc₁ hmax
  rw [hrun, run_bind_ok h2]
  constructor
  · intro hrep
    refine ⟨c₂, hc₂ hrep, ?_⟩
    rw [if_pos hrep, length_append, Int.natCast_add]
    cases fin <;> rfl
  · intro hrep
    rw [if_neg hrep]
    exact ⟨{ c₂ with connected := false }, rfl⟩

/-- Past `2 ^ 31` bytes the next data frame ends the call. -/
theorem recvLoop_full (fuel opcode) (data : List UInt8) (hop : IsData op)
    (hm : client = true ∨ m = true) (h : Ready (frameBytes m op fin key x ++ rest) c)
    (hmax : data.length + x.length < maxSize.toNat) (hdata : 2 ^ 31 ≤ data.length) :
    ∃ c', (recvLoop maxSize client (fuel + 1) opcode data (toInt32 data.length)).run c =
      .ok none c' := by
  rw [frameBytes, append_assoc, append_assoc] at h
  obtain ⟨c₁, hc₁, hrun⟩ := recvLoop_data maxSize client fuel opcode data
    (toInt32 data.length) hop h
  obtain ⟨c₂, h2⟩ := recvFrame_full maxSize client op fin hm hc₁ hmax hdata
  rw [hrun, run_bind_ok h2]
  exact ⟨{ c₂ with connected := false }, rfl⟩

/-! ## Fragments -/

structure Fragment where
  key : UInt32
  data : List UInt8

/-- A message in fragments: the first frame has the opcode of the message, the
others `CONTINUE`, and the last one the `fin` bit. -/
def sendFragments (client : Bool) : Nat → List Fragment → Net (List Int)
  | _, [] => return []
  | op, f :: fs => do
    let (rt, _) ← wsSendMessage ⟨op, f.data⟩ client fs.isEmpty f.key
    return rt :: (← sendFragments client Opcode.cont.code fs)

/-- What is on the wire then: nothing follows a fragment that closes the
connection. -/
def sentFrames (client : Bool) : Nat → List Fragment → List UInt8
  | _, [] => []
  | op, f :: fs => frameBytes client op fs.isEmpty f.key f.data ++
      if Reported f.data then sentFrames client Opcode.cont.code fs else []

theorem sendFragments_closed (op fs)
    (hc : c.connected = false) : ∃ rts, (sendFragments client op fs).run c = .ok rts c := by
  induction fs generalizing op with
  | nil => exact ⟨[], rfl⟩
  | cons f fs ih =>
    obtain ⟨rts, hr⟩ := ih Opcode.cont.code
    refine ⟨-1 :: rts, ?_⟩
    rw [sendFragments, run_bind_ok (wsSendMessage_closed _ _ _ _ hc), run_bind_ok hr]
    rfl

theorem sendFragments_run (op fs)
    (hfs : ∀ f ∈ fs, f.data.length < 2 ^ 32) (hc : c.connected = true) :
    ∃ rts out, (sendFragments client op fs).run c = .ok rts out ∧
      out.outbox = c.outbox ++ sentFrames client op fs := by
  induction fs generalizing op c with
  | nil => exact ⟨[], c, rfl, by simp [sentFrames]⟩
  | cons f fs ih =>
    obtain ⟨rt, q, h1⟩ := wsSendMessage_run op f.data (hfs f (by simp)) client fs.isEmpty f.key hc
    by_cases hrep : Reported f.data
    · rw [decide_eq_true hrep] at h1
      obtain ⟨rts, out, h2, hout⟩ := ih Opcode.cont.code (fun x hx => hfs x (by simp [hx]))
        (c := { c with
          outbox := c.outbox ++ frameBytes client op fs.isEmpty f.key f.data
          quota := q
          connected := true }) rfl
      refine ⟨rt :: rts, out, ?_, ?_⟩
      · rw [sendFragments, run_bind_ok h1, run_bind_ok h2]
        rfl
      · rw [hout, sentFrames, if_pos hrep, append_assoc]
    · rw [decide_eq_false hrep] at h1
      obtain ⟨rts, h2⟩ := sendFragments_closed client Opcode.cont.code fs
        (c := { c with
          outbox := c.outbox ++ frameBytes client op fs.isEmpty f.key f.data
          quota := q
          connected := false }) rfl
      refine ⟨rt :: rts, { c with
          outbox := c.outbox ++ frameBytes client op fs.isEmpty f.key f.data
          quota := q
          connected := false }, ?_, ?_⟩
      · rw [sendFragments, run_bind_ok h1, run_bind_ok h2]
        rfl
      · rw [sentFrames, if_neg hrep, append_nil]

/-- Fragments that all come through when `n` bytes of the message are there
already. -/
def ComeThrough (n : Nat) (parts : List (List UInt8)) : Prop :=
  (∀ x ∈ parts, Reported x) ∧ n + parts.dropLast.flatten.length < 2 ^ 31

instance (n : Nat) (parts : List (List UInt8)) : Decidable (ComeThrough n parts) :=
  inferInstanceAs (Decidable (_ ∧ _))

theorem comeThrough_singleton (n x) : ComeThrough n [x] ↔ Reported x ∧ n < 2 ^ 31 := by
  simp [ComeThrough]

theorem comeThrough_cons (n) (x y : List UInt8) (parts) :
    ComeThrough n (x :: y :: parts) ↔ Reported x ∧ ComeThrough (n + x.length) (y :: parts) := by
  simp [ComeThrough, and_assoc, Nat.add_assoc]

/-! ## Control frames -/

structure Control where
  pong : Bool
  key : UInt32
  payload : List UInt8
  fits : payload.length ≤ 125

namespace Control

def opcode (k : Control) : Opcode := if k.pong then .pong else .ping

def bytes (k : Control) : List UInt8 := frameBytes true k.opcode.code true k.key k.payload

def unread (k : Control) : List UInt8 := bodyBytes true k.key k.payload

theorem bytes_eq (k : Control) : k.bytes =
    WSFrameHead.toBytes ⟨k.opcode.code, true, k.payload.length, true⟩ ++ k.unread := by
  have hp : payloadField k.payload.length = k.payload.length :=
    if_pos (Nat.lt_succ_of_le k.fits)
  have hl : lengthField k.payload.length = [] := by
    have := k.fits
    simp only [lengthField, hp]
    rw [if_neg (by omega), if_neg (by omega)]
  rw [bytes, frameBytes, hp, hl, nil_append, unread]

end Control

/-- Bytes that the loop passes over two at a time, as heads of frames it takes
nothing else of. -/
def inert : List UInt8 → Bool
  | [] => true
  | [_] => false
  | a :: _ :: rest => 2 < a.toNat % 16 && inert rest

theorem inert_append (hx : inert xs = true) (hy : inert ys = true) : inert (xs ++ ys) = true := by
  induction xs using inert.induct with
  | case1 => exact hy
  | case2 a => simp [inert] at hx
  | case3 a b xs ih =>
    rw [inert, Bool.and_eq_true] at hx
    rw [cons_append, cons_append, inert, Bool.and_eq_true]
    exact ⟨hx.1, ih hx.2⟩

theorem Control.inert_bytes {k : Control} (h : inert k.unread = true) : inert k.bytes = true := by
  rw [bytes_eq]
  refine inert_append ?_ h
  unfold opcode
  cases k.pong <;> simp [WSFrameHead.toBytes, inert, Opcode.code]

theorem wsPong_run (h : Ready w c) : ∃ c', wsPong.run c = .ok 2 c' ∧ Ready w c' := by
  obtain ⟨c', hr, hc'⟩ := h.writeFixSize (WSFrameHead.toBytes ⟨Opcode.pong.code, true, 0, false⟩)
    (by simp)
  refine ⟨c', ?_, hc'⟩
  rw [length_toBytes] at hr
  rw [wsPong, run_bind_ok hr]
  rfl

theorem recvLoop_skip (fuel opcode data curLen)
    (ha : 2 < a.toNat % 16) (h : Ready (a :: b :: rest) c) :
    ∃ c', Ready rest c' ∧ (recvLoop maxSize client (fuel + 1) opcode data curLen).run c =
      (recvLoop maxSize client fuel opcode data curLen).run c' := by
  obtain ⟨c₁, hr, hc₁⟩ := (show Ready ([a, b] ++ rest) c from h).readFixSize (by simp)
  rw [show [a, b].length = 2 from rfl] at hr
  have hop : (WSFrameHead.ofBytes [a, b]).opcode = a.toNat % 16 := rfl
  have hdata : ¬ IsData (a.toNat % 16) := by
    rintro (h0 | h0 | h0) <;> rw [h0] at ha <;> exact absurd ha (by decide)
  have hrun : (recvLoop maxSize client (fuel + 1) opcode data curLen).run c =
      (if a.toNat % 16 = Opcode.ping.code then do
        if (← wsPong) ≤ 0 then recvFail else recvLoop maxSize client fuel opcode data curLen
      else recvLoop maxSize client fuel opcode data curLen : Net _).run c₁ := by
    rw [recvLoop, run_bind_ok hr]
    dsimp only
    rw [if_neg (by decide), hop]
    by_cases hping : a.toNat % 16 = Opcode.ping.code
    · rw [if_pos hping, if_pos hping]
    · rw [if_neg hping, if_neg hping]
      by_cases hpong : a.toNat % 16 = Opcode.pong.code
      · rw [if_pos hpong]
      · rw [if_neg hpong, if_neg (show ¬ (_ ∨ _ ∨ _) from hdata)]
  rw [hrun]
  by_cases hping : a.toNat % 16 = Opcode.ping.code
  · obtain ⟨c₂, h2, hc₂⟩ := wsPong_run hc₁
    refine ⟨c₂, hc₂, ?_⟩
    rw [if_pos hping, run_bind_ok h2]
    rfl
  · exact ⟨c₁, hc₁, by rw [if_neg hping]⟩

theorem recvLoop_inert (opcode data curLen) (hx : inert xs = true) (h : Ready (xs ++ rest) c)
    (hfuel : (xs ++ rest).length < fuel) :
    ∃ c' fuel', Ready rest c' ∧ rest.length < fuel' ∧
      (recvLoop maxSize client fuel opcode data curLen).run c =
        (recvLoop maxSize client fuel' opcode data curLen).run c' := by
  induction xs using inert.induct generalizing fuel c with
  | case1 => exact ⟨c, fuel, h, hfuel, rfl⟩
  | case2 a => simp [inert] at hx
  | case3 a b xs ih =>
    rw [inert, Bool.and_eq_true, decide_eq_true_eq] at hx
    obtain ⟨fuel, rfl⟩ : ∃ f, fuel = f + 1 := ⟨fuel - 1, by omega⟩
    obtain ⟨c₁, hc₁, h1⟩ := recvLoop_skip maxSize client fuel opcode data curLen hx.1 h
    have hlt : (xs ++ rest).length < fuel := by
      simp only [cons_append, length_cons] at hfuel
      omega
    obtain ⟨c₂, fuel', hc₂, hf, h2⟩ := ih hx.2 hc₁ hlt
    exact ⟨c₂, fuel', hc₂, hf, by rw [h1, h2]⟩

/-! ## A message in pieces -/

structure Piece extends Fragment where
  before : List Control

def Piece.quiet (p : Piece) : Bool := p.before.all fun k => inert k.unread

def piecesBytes (client : Bool) : Nat → List Piece → List UInt8
  | _, [] => []
  | op, p :: ps => p.before.flatMap Control.bytes ++
      (frameBytes client op ps.isEmpty p.key p.data ++ piecesBytes client Opcode.cont.code ps)

theorem inert_controls {ks : List Control} (h : (ks.all fun k => inert k.unread) = true) :
    inert (ks.flatMap Control.bytes) = true := by
  induction ks with
  | nil => rfl
  | cons k ks ih =>
    rw [all_cons, Bool.and_eq_true] at h
    rw [flatMap_cons]
    exact inert_append (Control.inert_bytes h.1) (ih h.2)

theorem length_frameBytes_pos (m op fin key x) : 0 < (frameBytes m op fin key x).length := by
  rw [frameBytes, length_append, length_toBytes]
  omega

theorem recvLoop_pieces (hm : client = true ∨ m = true) (ps : List Piece) (hps : ps ≠ [])
    (hop : IsData op) (opcode) (data rest : List UInt8)
    (hmax : data.length + (ps.flatMap (·.data)).length < maxSize.toNat)
    (hgood : ComeThrough data.length (ps.map (·.data))) (hquiet : ∀ p ∈ ps, p.quiet = true)
    (h : Ready (piecesBytes m op ps ++ rest) c)
    (hfuel : (piecesBytes m op ps ++ rest).length < fuel) :
    ∃ c', (recvLoop maxSize client fuel opcode data data.length).run c =
        .ok (some ⟨nextOpcode opcode op, data ++ ps.flatMap (·.data)⟩) c' ∧ Ready rest c' := by
  induction ps generalizing op opcode data fuel c with
  | nil => exact absurd rfl hps
  | cons p ps ih =>
    rw [piecesBytes, append_assoc, append_assoc] at h hfuel
    obtain ⟨c₁, fuel₁, hc₁, hf₁, h1⟩ := recvLoop_inert maxSize client opcode data data.length
      (inert_controls (hquiet p (by simp))) h hfuel
    obtain ⟨fuel₁, rfl⟩ : ∃ f, fuel₁ = f + 1 := ⟨fuel₁ - 1, by omega⟩
    rw [flatMap_cons, length_append] at hmax
    have hstep := recvLoop_frame maxSize client fuel₁ opcode data hop hm hc₁
      (by omega : data.length + p.data.length < maxSize.toNat)
    rw [h1]
    cases ps with
    | nil =>
      obtain ⟨c₂, hc₂, h2⟩ := hstep.1 ((comeThrough_singleton _ _).mp hgood).1
      refine ⟨c₂, ?_, by simpa [piecesBytes] using hc₂⟩
      simpa using h2
    | cons q qs =>
      simp only [map_cons, comeThrough_cons, ← length_append] at hgood
      obtain ⟨hrep, hrest⟩ := hgood
      obtain ⟨c₂, hc₂, h2⟩ := hstep.1 hrep
      have hlen : (data ++ p.data).length < 2 ^ 31 :=
        Nat.lt_of_le_of_lt (Nat.le_add_right _ _) hrest.2
      rw [h2, if_neg (by simp), toInt32_of_lt hlen]
      have hf₂ : (piecesBytes m Opcode.cont.code (q :: qs) ++ rest).length < fuel₁ := by
        have := length_frameBytes_pos m op (q :: qs).isEmpty p.key p.data
        rw [length_append] at hf₁
        omega
      obtain ⟨c₃, h3, hc₃⟩ := ih (by simp) (.inl rfl) (nextOpcode opcode op) (data ++ p.data)
        (by rw [length_append]; omega) hrest (fun x hx => hquiet x (by simp [hx])) hc₂ hf₂
      refine ⟨c₃, ?_, hc₃⟩
      rw [h3, nextOpcode_cont]
      simp only [flatMap_cons, append_assoc]

theorem recvLoop_lost (hm : client = true ∨ m = true) (fs : List Fragment)
    (hop : IsData op) (opcode) (data : List UInt8)
    (hmax : data.length + (fs.flatMap (·.data)).length < maxSize.toNat) (hfs : fs ≠ [])
    (hbad : ¬ ComeThrough data.length (fs.map (·.data)))
    (h : Ready (sentFrames m op fs) c) (hfuel : (sentFrames m op fs).length < fuel) :
    ∃ c', (recvLoop maxSize client fuel opcode data (toInt32 data.length)).run c = .ok none c' := by
  induction fs generalizing op opcode data fuel c with
  | nil => exact absurd rfl hfs
  | cons f fs ih =>
    obtain ⟨fuel, rfl⟩ : ∃ n, fuel = n + 1 := ⟨fuel - 1, by omega⟩
    rw [sentFrames] at h hfuel
    rw [flatMap_cons, length_append] at hmax
    have hfit : data.length + f.data.length < maxSize.toNat := by omega
    rcases Nat.lt_or_ge data.length (2 ^ 31) with hsmall | hfull
    · rw [toInt32_of_lt hsmall]
      have hstep := recvLoop_frame maxSize client fuel opcode data hop hm h hfit
      by_cases hrep : Reported f.data
      · cases fs with
        | nil => exact absurd ((comeThrough_singleton _ _).mpr ⟨hrep, hsmall⟩) hbad
        | cons g gs =>
          rw [map_cons, map_cons, comeThrough_cons, not_and] at hbad
          have hlost := hbad hrep
          rw [← length_append] at hlost
          obtain ⟨c₂, hc₂, h2⟩ := hstep.1 hrep
          rw [if_pos hrep] at hc₂ hfuel
          have hf₂ : (sentFrames m Opcode.cont.code (g :: gs)).length < fuel := by
            have := length_frameBytes_pos m op (g :: gs).isEmpty f.key f.data
            rw [length_append] at hfuel
            omega
          rw [h2, if_neg (by simp)]
          exact ih (.inl rfl) (nextOpcode opcode op) (data ++ f.data)
            (by rw [length_append]; omega) (by simp) hlost hc₂ hf₂
      · exact hstep.2 hrep
    · exact recvLoop_full maxSize client fuel opcode data hop hm h hfit hfull

/-! ## Messages in fragments -/

theorem sentFrames_eq (op) (fs : List Fragment) (h : ∀ f ∈ fs, Reported f.data) :
    sentFrames m op fs = piecesBytes m op (fs.map fun f => ⟨f, []⟩) := by
  induction fs generalizing op with
  | nil => rfl
  | cons f fs ih =>
    rw [sentFrames, if_pos (h f (by simp)), ih _ (fun x hx => h x (by simp [hx]))]
    simp [piecesBytes]

theorem length_le_joined {fs : List Fragment} {f : Fragment} (hf : f ∈ fs) :
    f.data.length ≤ (fs.flatMap (·.data)).length := by
  obtain ⟨as, bs, rfl⟩ := append_of_mem hf
  simp only [flatMap_append, flatMap_cons, length_append]
  omega

theorem IsData.of_message {op : Opcode} (h : op = .textFrame ∨ op = .binFrame) :
    IsData op.code ∧ nextOpcode 0 op.code = op.code := by
  rcases h with rfl | rfl <;> decide

/-- A message in fragments arrives as one, in either direction and through any transport, exactly
when no fragment is empty and no length before the last reaches `2 ^ 31`. -/
theorem fragments_roundtrip_iff (op : Opcode) (hop : op = .textFrame ∨ op = .binFrame)
    (fs : List Fragment) (hfs : fs ≠ [])
    (hmax : (fs.flatMap (·.data)).length < maxSize.toNat) (quota : List Nat) :
    ∃ rts out, (sendFragments client op.code fs).run (sender quota) = .ok rts out ∧
      ∀ segs : List (List UInt8), segs.flatten = out.outbox →
        ((∃ c', (wsRecvMessage maxSize !client).run (receiver segs) =
          .ok (some ⟨op.code, fs.flatMap (·.data)⟩) c') ↔ ComeThrough 0 (fs.map (·.data))) := by
  have hsmall : ∀ f ∈ fs, f.data.length < 2 ^ 32 := by
    intro f hf
    have h32 := maxSize.toNat_lt
    have hle := length_le_joined hf
    omega
  obtain ⟨hdata, hopcode⟩ := IsData.of_message hop
  obtain ⟨rts, out, hsend, hout⟩ := sendFragments_run client op.code fs hsmall
    (c := sender quota) rfl
  refine ⟨rts, out, hsend, ?_⟩
  intro segs hsegs
  have hready : Ready (sentFrames client op.code fs) (receiver segs) := by
    refine ⟨rfl, ?_⟩
    rw [hout] at hsegs
    simpa [receiver, sender] using hsegs
  have hm : (!client) = true ∨ client = true := by cases client <;> simp
  have hfuel := Nat.lt_succ_self (sentFrames client op.code fs).length
  rw [wsRecvMessage_eq maxSize (!client) hready]
  constructor
  · rintro ⟨c', hok⟩
    by_contra hbad
    obtain ⟨c'', hnone⟩ := recvLoop_lost maxSize (!client) hm fs hdata 0 [] (by simpa using hmax)
      hfs hbad hready hfuel
    change _ = EStateM.Result.ok none c'' at hnone
    rw [show toInt32 (([] : List UInt8).length : Int) = 0 by decide] at hnone
    rw [hnone] at hok
    cases hok
  · intro hgood
    rw [sentFrames_eq op.code fs (fun f hf => hgood.1 _ (mem_map_of_mem hf))]
      at hready hfuel ⊢
    rw [← append_nil (piecesBytes _ _ _)] at hready hfuel
    obtain ⟨c', hok, -⟩ := recvLoop_pieces maxSize (!client) hm (fs.map fun f => ⟨f, []⟩)
      (by simpa using hfs) hdata 0 [] [] (by simpa [flatMap_map] using hmax)
      (by simpa [Function.comp_def] using hgood) (by simp [Piece.quiet])
      hready hfuel
    refine ⟨c', ?_⟩
    rw [hopcode] at hok
    simpa [flatMap_map] using hok

theorem fragments_roundtrip_iff_two :
    ∃ rts out, (sendFragments true 1 [⟨7, [104, 101]⟩, ⟨4294967295, [108, 108, 111]⟩]).run
        (sender [0, 0, 3]) = .ok rts out ∧
      ∀ segs : List (List UInt8), segs.flatten = out.outbox →
        ∃ c', (wsRecvMessage 33554432 false).run (receiver segs) =
          .ok (some ⟨1, [104, 101, 108, 108, 111]⟩) c' := by
  obtain ⟨rts, out, hsend, hrecv⟩ := fragments_roundtrip_iff 33554432 true .textFrame (.inl rfl)
    [⟨7, [104, 101]⟩, ⟨4294967295, [108, 108, 111]⟩] (by decide) (by decide) [0, 0, 3]
  exact ⟨rts, out, hsend, fun segs hsegs => (hrecv segs hsegs).mpr (by decide)⟩

/-- The empty text message of a server: the head goes out, `wsSendMessage`
returns -1 and closes, and the client that gets the head closes too. -/
theorem fragments_roundtrip_empty :
    ∃ out, (sendFragments false 1 [⟨0, []⟩]).run (sender []) = .ok [-1] out ∧
      out.connected = false ∧ out.outbox = [129, 0] ∧
      ∃ c', (wsRecvMessage 33554432 true).run (receiver [out.outbox]) = .ok none c' ∧
        c'.connected = false :=
  ⟨_, rfl, rfl, rfl, _, rfl, rfl⟩

/-! ## Control frames between the fragments -/

structure DataMessage where
  op : Opcode
  pieces : List Piece
  isData : op = .textFrame ∨ op = .binFrame
  nonempty : pieces ≠ []

namespace DataMessage

def bytes (m : DataMessage) : List UInt8 := piecesBytes true m.op.code m.pieces

def message (m : DataMessage) : WSFrameMessage := ⟨m.op.code, m.pieces.flatMap (·.data)⟩

/-- Every fragment comes through, and what the loop leaves of every control
frame is passed over. -/
def Clean (m : DataMessage) : Prop :=
  ComeThrough 0 (m.pieces.map (·.data)) ∧ ∀ p ∈ m.pieces, p.quiet = true

end DataMessage

def recvAll (maxSize : UInt32) : Nat → Net (List (Option WSFrameMessage))
  | 0 => return []
  | n + 1 => do
    let m ← wsRecvMessage maxSize false
    return m :: (← recvAll maxSize n)

theorem recvMessage_run (m : DataMessage) (hclean : m.Clean)
    (hmax : m.message.data.length < maxSize.toNat) (h : Ready (m.bytes ++ rest) c) :
    ∃ c', (wsRecvMessage maxSize false).run c = .ok (some m.message) c' ∧ Ready rest c' := by
  obtain ⟨hdata, hopcode⟩ := IsData.of_message m.isData
  have hfuel := Nat.lt_succ_self (m.bytes ++ rest).length
  obtain ⟨c', hr, hc'⟩ := recvLoop_pieces maxSize false (.inr rfl) m.pieces m.nonempty hdata 0 []
    rest (by simpa [DataMessage.message] using hmax) (by simpa using hclean.1) hclean.2 h hfuel
  refine ⟨c', ?_, hc'⟩
  rw [hopcode] at hr
  exact (wsRecvMessage_eq maxSize false h).trans hr

theorem recvMessage_end {ks : List Control} (hks : (ks.all fun k => inert k.unread) = true)
    {c : Conn} (h : Ready (ks.flatMap Control.bytes) c) :
    ∃ c', (wsRecvMessage maxSize false).run c = .ok none c' := by
  rw [← append_nil (ks.flatMap Control.bytes)] at h
  obtain ⟨c₁, fuel, hc₁, hf, h1⟩ := recvLoop_inert maxSize false 0 [] 0 (inert_controls hks) h
    (Nat.lt_succ_self _)
  obtain ⟨fuel, rfl⟩ : ∃ f, fuel = f + 1 := ⟨fuel - 1, by omega⟩
  obtain ⟨c₂, h2⟩ := hc₁.readFixSize_eof (n := 2) (by decide) (by decide)
  refine ⟨{ c₂ with connected := false }, ?_⟩
  rw [wsRecvMessage_eq maxSize false h, h1, recvLoop, run_bind_ok h2]
  rfl

/-- Control frames anywhere between the fragments of data messages do not change
what the server receives, as long as the loop passes over what it leaves of
them. -/
theorem controls_are_ignored (ms : List DataMessage) (tail : List Control)
    (hclean : ∀ m ∈ ms, m.Clean) (htail : (tail.all fun k => inert k.unread) = true)
    (hmax : ∀ m ∈ ms, m.message.data.length < maxSize.toNat) (segs : List (List UInt8))
    (hsegs : segs.flatten = ms.flatMap DataMessage.bytes ++ tail.flatMap Control.bytes) :
    ∃ c', (recvAll maxSize (ms.length + 1)).run (receiver segs) =
      .ok (ms.map (some ·.message) ++ [none]) c' := by
  have hready : Ready (ms.flatMap DataMessage.bytes ++ tail.flatMap Control.bytes)
      (receiver segs) := ⟨rfl, hsegs⟩
  generalize receiver segs = c at hready ⊢
  clear hsegs
  induction ms generalizing c with
  | nil =>
    obtain ⟨c', hr⟩ := recvMessage_end maxSize htail hready
    exact ⟨c', by rw [recvAll, run_bind_ok hr]; rfl⟩
  | cons m ms ih =>
    rw [flatMap_cons, append_assoc] at hready
    obtain ⟨c₁, h1, hc₁⟩ := recvMessage_run maxSize m (hclean m (by simp)) (hmax m (by simp)) hready
    obtain ⟨c₂, h2⟩ := ih (fun x hx => hclean x (by simp [hx])) (fun x hx => hmax x (by simp [hx]))
      c₁ hc₁
    exact ⟨c₂, by rw [length_cons, recvAll, run_bind_ok h1, run_bind_ok h2]; rfl⟩

theorem controls_are_ignored_quiet :
    ∃ c', (recvAll 33554432 2).run (receiver [DataMessage.bytes ⟨.textFrame,
        [⟨⟨1, [104]⟩, [⟨false, 0x33333333, [], by decide⟩]⟩,
          ⟨⟨2, [105]⟩, [⟨true, 0x33333333, [0, 0], by decide⟩]⟩], .inl rfl, by decide⟩ ++
        Control.bytes ⟨false, 0x33333333, [], by decide⟩]) =
      .ok [some ⟨1, [104, 105]⟩, none] c' :=
  controls_are_ignored 33554432 [⟨.textFrame, [⟨⟨1, [104]⟩, [⟨false, 0x33333333, [], by decide⟩]⟩,
        ⟨⟨2, [105]⟩, [⟨true, 0x33333333, [0, 0], by decide⟩]⟩], .inl rfl, by decide⟩]
    [⟨false, 0x33333333, [], by decide⟩]
    (by
      intro m hm
      rw [mem_singleton.mp hm]
      exact ⟨by decide, by decide⟩)
    (by decide) (by
      intro m hm
      rw [mem_singleton.mp hm]
      decide) _ (by simp)

/-- An empty PING with the key 0 in front of a text message: its key is taken for
an unmasked frame, the server closes and the message is lost. -/
theorem controls_swallow_message : ∃ m : DataMessage, m.message = ⟨1, [104, 105]⟩ ∧
      m.bytes = Control.bytes ⟨false, 0, [], by decide⟩ ++ frameBytes true 1 true 0 [104, 105] ∧
      ∃ c', (recvAll 33554432 2).run (receiver [m.bytes]) = .ok [none, none] c' :=
  ⟨⟨.textFrame, [⟨⟨0, [104, 105]⟩, [⟨false, 0, [], by decide⟩]⟩], .inl rfl, by decide⟩, rfl, rfl,
    _, rfl⟩

end Helens.WebSocket
