import Helens.WebSocketRoundtrip

/-! One message object sent twice. A client masks the string of the object in place, so what it
sends the second time is the string under the first key. -/

namespace Helens.WebSocket
open Lib.StateError Lib.Words Helens.Stream List

def sendTwice (msg : WSFrameMessage) (client : Bool) (key₁ key₂ : UInt32) :
    Net (Int × Int × WSFrameMessage) := do
  let (rt₁, msg) ← wsSendMessage msg client true key₁
  let (rt₂, msg) ← wsSendMessage msg client true key₂
  return (rt₁, rt₂, msg)

/-! ## The object after a send -/

theorem sendFail_eq_ok (h : (sendFail msg).run c = .ok (rt, msg') c') : msg' = msg := by
  cases h
  rfl

theorem wsSendMessage_message (h : (wsSendMessage msg client fin key).run c = .ok (rt, msg') c') :
    msg' = msg ∨ msg' = sentMessage client key msg := by
  simp only [wsSendMessage] at h
  obtain ⟨v₁, c₁, -, h⟩ := run_bind_eq_ok h
  obtain ⟨-, h⟩ | ⟨-, h⟩ := run_ite_eq_ok h
  · exact .inl (sendFail_eq_ok h)
  obtain ⟨v₂, c₂, -, h⟩ := run_bind_eq_ok h
  obtain ⟨-, h⟩ | ⟨-, h⟩ := run_ite_eq_ok h
  · exact .inl (sendFail_eq_ok h)
  obtain ⟨v₃, c₃, -, h⟩ := run_bind_eq_ok h
  obtain ⟨-, h⟩ | ⟨-, h⟩ := run_ite_eq_ok h
  · exact .inr (sendFail_eq_ok h)
  obtain ⟨v₄, c₄, -, h⟩ := run_bind_eq_ok h
  obtain ⟨-, h⟩ | ⟨-, h⟩ := run_ite_eq_ok h
  · exact .inr (sendFail_eq_ok h)
  · rw [EStateM.run_pure, EStateM.Result.ok.injEq, Prod.mk.injEq] at h
    exact .inr h.1.2.symm

/-- Every byte of the key that meets a byte of the string is zero. -/
def Spares (key : UInt32) (data : List UInt8) : Prop :=
  ∀ i < data.length, (leBytes 4 key.toNat).getD (i % 4) 0 = 0

instance (key : UInt32) (data : List UInt8) : Decidable (Spares key data) :=
  inferInstanceAs (Decidable (∀ i < data.length, _))

theorem masked_eq_self_iff (key : UInt32) (data) :
    masked (leBytes 4 key.toNat) data = data ↔ Spares key data := by
  have hbyte : ∀ i (hi : i < data.length), (masked (leBytes 4 key.toNat) data)[i]? =
      some (data[i] ^^^ (leBytes 4 key.toNat).getD (i % 4) 0) := by
    intro i hi
    simp [masked, xorMask, hi]
  constructor
  · intro h i hi
    have hsame := hbyte i hi
    rw [h, getElem?_eq_getElem hi, Option.some.injEq] at hsame
    rw [← UInt8.xor_right_inj data[i], ← hsame, UInt8.xor_zero]
  · intro h
    apply ext_getElem?
    intro i
    by_cases hi : i < data.length
    · rw [hbyte i hi, h i hi, UInt8.xor_zero, getElem?_eq_getElem hi]
    · rw [getElem?_eq_none (by simpa using hi), getElem?_eq_none (by omega)]

theorem sentMessage_eq_self
    (h : client = true → Spares key msg.data) : sentMessage client key msg = msg := by
  cases client with
  | false => rfl
  | true => rw [sentMessage, if_pos rfl, (masked_eq_self_iff key msg.data).mpr (h rfl)]

/-! ## Two deliveries -/

theorem wsRecvMessage_frame (maxSize : UInt32) (hm : client = true ∨ m = true)
    (hop : IsData op) (hrep : Reported x) (hmax : x.length < maxSize.toNat)
    (h : Ready (frameBytes m op true key x ++ rest) c) :
    ∃ c', (wsRecvMessage maxSize client).run c = .ok (some ⟨op, x⟩) c' ∧ Ready rest c' := by
  have hnext : nextOpcode 0 op = op := by
    rcases hop with rfl | rfl | rfl <;> rfl
  obtain ⟨c', hc', hrun⟩ := (recvLoop_frame maxSize client _ 0 [] hop hm h
    (by simpa using hmax)).1 hrep
  rw [hnext] at hrun
  exact ⟨c', (wsRecvMessage_eq maxSize client h).trans hrun, hc'⟩

theorem wsSendMessage_reported (msg : WSFrameMessage) (hrep : Reported msg.data) (client key)
    (hc : c.connected = true) :
    ∃ rt c', (wsSendMessage msg client true key).run c = .ok (rt, sentMessage client key msg) c' ∧
      c'.connected = true ∧
      c'.outbox = c.outbox ++ frameBytes client msg.opcode true key msg.data := by
  have hlt := hrep.2
  obtain ⟨rt, quota, hrun⟩ := wsSendMessage_run msg.opcode msg.data (by omega) client true key hc
  exact ⟨rt, _, hrun, decide_eq_true hrep, rfl⟩

theorem sentMessage_opcode (client key) (msg : WSFrameMessage) :
    (sentMessage client key msg).opcode = msg.opcode := by
  cases client <;> rfl

theorem length_sentMessage (client key) (msg : WSFrameMessage) :
    (sentMessage client key msg).data.length = msg.data.length := by
  cases client with
  | false => rfl
  | true => exact length_masked _ _

/-- What arrives of an object sent twice: its string, and then its string in the form in which
it was sent the first time. -/
theorem sendTwice_run (maxSize : UInt32) (client) (msg : WSFrameMessage)
    (hop : IsData msg.opcode) (hrep : Reported msg.data) (hmax : msg.data.length < maxSize.toNat)
    (key₁ key₂ quota) :
    ∃ rt₁ rt₂ out, (sendTwice msg client key₁ key₂).run (sender quota) =
        .ok (rt₁, rt₂, sentMessage client key₂ (sentMessage client key₁ msg)) out ∧
      ∀ segs : List (List UInt8), segs.flatten = out.outbox → ∃ c₁ c₂,
        (wsRecvMessage maxSize !client).run (receiver segs) = .ok (some msg) c₁ ∧
        (wsRecvMessage maxSize !client).run c₁ = .ok (some (sentMessage client key₁ msg)) c₂ := by
  have hm : (!client) = true ∨ client = true := by cases client <;> simp
  have hlen := length_sentMessage client key₁ msg
  have hrep₂ : Reported (sentMessage client key₁ msg).data := by
    obtain ⟨hne, hlt⟩ := hrep
    refine ⟨ne_nil_of_length_pos ?_, by omega⟩
    rw [hlen]
    exact length_pos_iff.mpr hne
  obtain ⟨rt₁, out₁, h1, hc₁, hout₁⟩ := wsSendMessage_reported msg hrep client key₁
    (c := sender quota) rfl
  obtain ⟨rt₂, out₂, h2, -, hout₂⟩ := wsSendMessage_reported _ hrep₂ client key₂ hc₁
  rw [sentMessage_opcode] at hout₂
  refine ⟨rt₁, rt₂, out₂, ?_, ?_⟩
  · rw [sendTwice, run_bind_ok h1]
    dsimp only
    rw [run_bind_ok h2]
    rfl
  intro segs hsegs
  have hready : Ready (frameBytes client msg.opcode true key₁ msg.data ++
      (frameBytes client msg.opcode true key₂ (sentMessage client key₁ msg).data ++ []))
      (receiver segs) := by
    refine ⟨rfl, ?_⟩
    rw [hout₂, hout₁] at hsegs
    simpa [receiver, sender] using hsegs
  obtain ⟨c₁, hrecv₁, hc₁⟩ := wsRecvMessage_frame maxSize hm hop hrep hmax hready
  obtain ⟨c₂, hrecv₂, -⟩ := wsRecvMessage_frame maxSize hm hop hrep₂ (by omega) hc₁
  refine ⟨c₁, c₂, hrecv₁, ?_⟩
  rw [hrecv₂, ← sentMessage_opcode client key₁ msg]

/-- Where no byte of the keys meets the string, or nothing is masked, a send leaves the object as it
is and an object sent twice arrives twice. -/
theorem resend_delivers_same (maxSize : UInt32) (client : Bool) (msg : WSFrameMessage)
    (key₁ key₂ : UInt32) (hkey₁ : client = true → Spares key₁ msg.data)
    (hkey₂ : client = true → Spares key₂ msg.data) (hop : IsData msg.opcode)
    (hrep : Reported msg.data) (hmax : msg.data.length < maxSize.toNat) (quota : List Nat) :
    (∀ key ∈ [key₁, key₂], ∀ fin rt msg' c c',
      (wsSendMessage msg client fin key).run c = .ok (rt, msg') c' → msg' = msg) ∧
    ∃ rt₁ rt₂ out, (sendTwice msg client key₁ key₂).run (sender quota) = .ok (rt₁, rt₂, msg) out ∧
      ∀ segs : List (List UInt8), segs.flatten = out.outbox → ∃ c₁ c₂,
        (wsRecvMessage maxSize !client).run (receiver segs) = .ok (some msg) c₁ ∧
        (wsRecvMessage maxSize !client).run c₁ = .ok (some msg) c₂ := by
  have h1 := sentMessage_eq_self hkey₁
  have h2 := sentMessage_eq_self hkey₂
  constructor
  · intro key hkey fin rt msg' c c' hrun
    have hself : sentMessage client key msg = msg := by
      rcases mem_cons.mp hkey with rfl | hkey
      · exact h1
      · rw [mem_singleton.mp hkey]
        exact h2
    rcases wsSendMessage_message hrun with h | h
    · exact h
    · exact h.trans hself
  · have hrun := sendTwice_run maxSize client msg hop hrep hmax key₁ key₂ quota
    rw [h1, h2] at hrun
    exact hrun

theorem resend_delivers_same_two :
    ∃ rt₁ rt₂ out, (sendTwice ⟨1, [104, 105]⟩ true 0 0x55660000).run (sender [1]) =
        .ok (rt₁, rt₂, ⟨1, [104, 105]⟩) out ∧
      ∀ segs : List (List UInt8), segs.flatten = out.outbox → ∃ c₁ c₂,
        (wsRecvMessage 33554432 false).run (receiver segs) = .ok (some ⟨1, [104, 105]⟩) c₁ ∧
        (wsRecvMessage 33554432 false).run c₁ = .ok (some ⟨1, [104, 105]⟩) c₂ :=
  (resend_delivers_same 33554432 true ⟨1, [104, 105]⟩ 0 0x55660000 (by decide) (by decide)
    (by decide) (by decide) (by decide) [1]).2

/-- One byte, sent under the keys 1 and 2: the server receives two different strings, and the
object has a third one in the end. -/
theorem resend_delivers_other :
    valueOf ((sendTwice ⟨1, [104]⟩ true 1 2).run (sender [])) = some (3, 3, ⟨1, [107]⟩) ∧
    valueOf ((recvAll 33554432 2).run (receiver
        [(stateOf ((sendTwice ⟨1, [104]⟩ true 1 2).run (sender []))).outbox])) =
      some [some ⟨1, [104]⟩, some ⟨1, [105]⟩] := by
  decide +kernel

end Helens.WebSocket
