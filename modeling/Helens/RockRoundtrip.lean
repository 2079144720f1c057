import Helens.Rock

/-! Sending and receiving RPC messages: a message that is sent as a frame is what
`parseFrom` returns, exactly when its frame is safe to read. -/

namespace Helens.Rock
open Lib.Blocks Lib.StateError Lib.Words Helens.ByteArray Helens.Stream List

/-! ## Sending -/

@[simp] theorem length_header (flag n) : (header flag n).length = 8 := by
  simp [header]

theorem getByteArray_run (heap : Nat → UInt8) (buffs : List (List UInt8)) :
    ∃ ba, (getByteArray buffs).run (ByteArray.new 4096 heap) = .ok () ba ∧
      Unread 4096 .big buffs.flatten.length buffs.flatten ba := by
  have hw := appends_forM (fun buf => ByteArray.appends_write .big buf) buffs
  obtain ⟨b₁, h1, hb₁⟩ := hw 4096 [] _ (by decide) (atEnd_new (by decide) heap)
  rw [nil_append, flatMap_id'] at hb₁
  obtain ⟨b₂, h2, hb₂⟩ := hb₁.rewind (by decide)
  refine ⟨b₂, ?_, hb₂⟩
  rw [getByteArray, run_bind_ok h1, h2]

variable (env : Env) {m : Message}

theorem serialize_run (hm : m.Sized) :
    ∃ ba, (do m.serializeToByteArray; setPosition 0 : BA Unit).run (newByteArray env) =
        .ok () ba ∧ Unread 4096 .big m.bytes.length m.bytes ba ∧ ba.position = 0 := by
  obtain ⟨b₁, h1, hb₁⟩ := Message.appends_serialize hm 4096 [] _ (by decide)
    (atEnd_new (by decide) env.heap)
  rw [nil_append] at hb₁
  obtain ⟨b₂, h2, hb₂⟩ := hb₁.rewind (by decide)
  refine ⟨b₂, ?_, hb₂, ?_⟩
  · rw [newByteArray, run_bind_ok h1, h2]
  · obtain ⟨b', hr, -, hb'⟩ := hb₁.inv.setPosition_eq (by decide) (v := 0) (Nat.zero_le _)
    rw [h2] at hr
    cases hr
    rw [hb']

/-- All bytes of a frame go out, whatever `serializeTo` returns then. -/
theorem sendFrame_run (flag) {w : List UInt8} {ba : ByteArray}
    (h : Unread 4096 .big w.length w ba) (hlt : w.length < 2 ^ 63) (hc : c.connected = true) :
    ∃ rt quota, (sendFrame flag ba).run c =
      .ok rt { c with outbox := c.outbox ++ (header flag w.length ++ w), quota := quota } := by
  obtain ⟨q₁, h1⟩ := writeFixSize_eq hc (header flag w.length) (by simp)
  obtain ⟨q₂, ba', h2, hsize⟩ := writeFixSizeBA_eq (by decide) h
    (c := { c with outbox := c.outbox ++ header flag w.length, quota := q₁ }) hc hlt
  have hread : ba.getReadSize = w.length := by
    rw [h.inv.getReadSize_eq, h.left]
  rw [length_header] at h1
  have h8 : ¬ toInt32 ((8 : Nat) : Int) ≤ 0 := by decide
  rw [sendFrame, h.size, run_bind_ok h1, run_ite, if_neg h8, hread, run_bind_ok h2]
  dsimp only
  rw [← append_assoc]
  by_cases hneg : toInt32 w.length ≤ 0
  · exact ⟨-4, q₂, by rw [run_ite, if_pos hneg]; rfl⟩
  · exact ⟨toInt32 (8 + ba'.size), q₂, by rw [run_ite, if_neg hneg]; rfl⟩

theorem serializeTo_run (hz : env.zlib.Lossless) (hm : m.Sized)
    (hlt : (m.payload env).length < 2 ^ 63) (hc : c.connected = true) :
    ∃ rt quota, (serializeTo env m).run c =
      .ok rt { c with outbox := c.outbox ++ m.frame env, quota := quota } := by
  obtain ⟨ba, hser, hba, hpos⟩ := serialize_run env hm
  have hsize : 0 < ba.size := by
    rw [hba.size]
    exact length_pos_iff.mpr m.bytes_ne_nil
  rw [serializeTo, run_bind_ok (onByteArray_ok hser c)]
  dsimp only
  rw [run_ite, hba.size]
  by_cases hzip : m.bytes.length % 2 ^ 32 ≥ env.gzipMinLength.toNat
  · have hfit : ba.size ≤ 2 ^ 64 - 1 := by
      rw [hba.size]
      exact Nat.le_sub_one_of_lt hm
    obtain ⟨vs, hget, hpieces⟩ := hba.inv.getReadBuffers_pieces (by decide) hpos hsize hfit
    have hall : ba.root.flatten.take ba.size = m.bytes := by
      have hb := hba.bytes
      rwa [hpos, ← hba.size] at hb
    rw [hall, hba.size] at hpieces
    obtain ⟨qs, hqs, -⟩ := hz.gzip_ok (chunks 4096 m.bytes.length m.bytes)
    have hpay : m.payload env = qs.flatten := by
      rw [Message.payload, if_pos (by simpa [Message.zipped] using hzip), hqs]
    obtain ⟨ba', hba', hun⟩ := getByteArray_run env.heap qs
    rw [hpay] at hlt
    have hframe : m.frame env = header 1 qs.flatten.length ++ qs.flatten := by
      rw [Message.frame, hpay, Message.flag, if_pos (by simpa [Message.zipped] using hzip)]
    rw [if_pos hzip, run_bind_ok (onByteArray_ok hget c)]
    dsimp only
    rw [hpieces, hqs]
    dsimp only
    rw [newByteArray, run_bind_ok (onByteArray_ok hba' c), hframe]
    exact sendFrame_run 1 hun hlt hc
  · have hplain : m.zipped env = false := by simpa [Message.zipped] using hzip
    have hpay : m.payload env = m.bytes := by simp [Message.payload, hplain]
    have hframe : m.frame env = header 0 m.bytes.length ++ m.bytes := by
      simp [Message.frame, Message.flag, hpay, hplain]
    rw [hpay] at hlt
    rw [if_neg hzip, hframe]
    exact sendFrame_run 0 hba hlt hc

/-! ## Receiving -/

theorem catchExceptions_ok {x : Net (Option Message)} {c c' : Conn} {m : Option Message}
    (h : x.run c = .ok m c') : (catchExceptions x).run c = .ok m c' := by
  unfold EStateM.run at h
  unfold EStateM.run catchExceptions
  rw [h]

theorem catchExceptions_null {x : Net (Option Message)} {c c' : Conn}
    (h : x.run c = .error .nullDeref c') : (catchExceptions x).run c = .error .nullDeref c' := by
  unfold EStateM.run at h
  unfold EStateM.run catchExceptions
  rw [h]

theorem parseMessage_run {total : Nat} (hm : m.Sized) {ba : ByteArray}
    (h : Unread 4096 .big total m.bytes ba) (c) :
    (m.getBody ≠ [] ∨ total % 4096 ≠ 0 → (parseMessage ba).run c = .ok (some m) c) ∧
    (¬ (m.getBody ≠ [] ∨ total % 4096 ≠ 0) → (parseMessage ba).run c = .error .nullDeref c) := by
  obtain ⟨hgood, hbad⟩ := Message.returnsIf_parse (by decide) hm h
  constructor
  · intro hg
    obtain ⟨b', hr⟩ := hgood hg
    rw [parseMessage, run_bind_ok (onByteArray_ok hr c)]
    rfl
  · intro hg
    obtain ⟨b', hr⟩ := hbad hg
    rw [parseMessage, run_bind_error (onByteArray_error hr c)]

theorem header_fields (flag) {n : Nat} (hn : n < 2 ^ 32) :
    (header flag n).take 2 = [0xab, 0xcd] ∧ (header flag n).getD 2 0 = 1 ∧
      (header flag n).getD 3 0 = flag ∧ bswap 4 (ofLeBytes ((header flag n).drop 4)) = n := by
  refine ⟨rfl, rfl, rfl, ?_⟩
  change bswap 4 (ofLeBytes (leBytes 4 (bswap 4 n))) = n
  rw [leBytes_bswap, bswap_ofLeBytes_reverse, Nat.mod_eq_of_lt (b := 256 ^ 4) hn]

theorem Message.payload_ne_nil (hz : env.zlib.Lossless) (m : Message) : m.payload env ≠ [] := by
  unfold payload
  split
  · obtain ⟨qs, hqs, hne⟩ := hz.gzip_ok (chunks 4096 m.bytes.length m.bytes)
    rw [hqs]
    exact hne
  · exact m.bytes_ne_nil

theorem parsePayload_run (hz : env.zlib.Lossless) (hm : m.Sized) {ba : ByteArray}
    (h : Unread 4096 .big (m.payload env).length (m.payload env) ba)
    (hlt : (m.payload env).length < 2 ^ 64) (c) :
    (m.getBody ≠ [] ∨ m.bytes.length % 4096 ≠ 0 →
      (parsePayload env (m.flag env) ba).run c = .ok (some m) c) ∧
    (¬ (m.getBody ≠ [] ∨ m.bytes.length % 4096 ≠ 0) →
      (parsePayload env (m.flag env) ba).run c = .error .nullDeref c) := by
  cases hzip : m.zipped env with
  | true =>
    obtain ⟨qs, hqs, -⟩ := hz.gzip_ok (chunks 4096 m.bytes.length m.bytes)
    have hpay : m.payload env = qs.flatten := by rw [Message.payload, if_pos hzip, hqs]
    have hflag : m.flag env = 1 := by rw [Message.flag, if_pos hzip]
    obtain ⟨vs, hget, hcov⟩ := h.inv.getReadBuffers_eq (by decide) (2 ^ 64 - 1)
    have hmin : min (2 ^ 64 - 1) (ba.size - ba.position) = (m.payload env).length := by
      rw [h.left]
      omega
    rw [hmin] at hget hcov
    have hin : (pieces ba.root vs).flatten = qs.flatten := by
      rw [← hpay, ← h.bytes]
      exact Covers.gather_eq h.inv.uniform hcov
    obtain ⟨out, hout, hplain⟩ := hz.gunzip_ok _ _ _ hqs hin
    rw [flatten_chunks (by decide) (Nat.le_refl _)] at hplain
    obtain ⟨ba', hba', hun⟩ := getByteArray_run env.heap out
    rw [hplain] at hun
    have hx : (parsePayload env (m.flag env) ba).run c = (parseMessage ba').run c := by
      rw [parsePayload, hflag, if_pos (by decide), run_bind_ok (onByteArray_ok hget c)]
      dsimp only
      rw [hout]
      dsimp only
      rw [newByteArray, run_bind_ok (onByteArray_ok hba' c)]
    rw [hx]
    exact parseMessage_run hm hun c
  | false =>
    have hpay : m.payload env = m.bytes := by simp [Message.payload, hzip]
    have hflag : m.flag env = 0 := by simp [Message.flag, hzip]
    rw [hpay] at h
    have hx : parsePayload env (m.flag env) ba = parseMessage ba := by
      rw [parsePayload, hflag, if_neg (by decide)]
    rw [hx]
    exact parseMessage_run hm h c

theorem parseFrame_header (hmax : (m.payload env).length < env.maxLength.toNat)
    (hc : c.connected = true) (hin : c.inbox.flatten = m.frame env ++ rest) :
    ∃ segs, segs.flatten = m.payload env ++ rest ∧ (parseFrame env).run c = (do
      let (rt, ba) ← readFixSizeBA (newByteArray env) (toSize (toInt32 (m.payload env).length))
      if rt ≤ 0 then
        return none
      let (_, ba) ← onByteArray ba (setPosition 0)
      parsePayload env (m.flag env) ba : Net (Option Message)).run { c with inbox := segs } := by
  have h32 : (m.payload env).length < 2 ^ 32 := Nat.lt_trans hmax env.maxLength.toNat_lt
  rw [Message.frame, append_assoc] at hin
  obtain ⟨segs, hread, hsegs, _⟩ := readFixSize_eq hc _ _ hin (by simp)
  obtain ⟨hmagic, hversion, hflag, hlength⟩ := header_fields (m.flag env) h32
  rw [length_header] at hread
  have h8 : ¬ toInt32 ((8 : Nat) : Int) ≤ 0 := by decide
  refine ⟨segs, hsegs, ?_⟩
  rw [parseFrame, run_bind_ok hread]
  dsimp only
  rw [if_neg h8, hmagic, if_neg (by simp), hversion, if_neg (by simp), hlength, hflag,
    if_neg (Nat.not_le.mpr hmax)]

/-- A payload whose length fits an `int` is read into a buffer as a whole. -/
theorem parseFrame_run (hz : env.zlib.Lossless)
    (hmax : (m.payload env).length < env.maxLength.toNat) (h31 : (m.payload env).length < 2 ^ 31)
    (hc : c.connected = true) (hin : c.inbox.flatten = m.frame env ++ rest) :
    ∃ segs ba, (parseFrame env).run c =
        (parsePayload env (m.flag env) ba).run { c with inbox := segs } ∧
      segs.flatten = rest ∧ Unread 4096 .big (m.payload env).length (m.payload env) ba := by
  obtain ⟨s₁, hs₁, hbody⟩ := parseFrame_header env hmax hc hin
  have hpos : ¬ toInt32 (m.payload env).length ≤ 0 := by
    have := length_pos_iff.mpr (m.payload_ne_nil env hz)
    rw [toInt32_of_lt h31]
    omega
  have hB : 1 ≤ 4096 := by decide
  obtain ⟨s₂, b₁, hread, hs₂, hb₁⟩ := readFixSizeBA_eq hB
    (atEnd_new hB env.heap) (c := { c with inbox := s₁ }) hc _ _ hs₁ (by omega)
  obtain ⟨b₂, hset, hb₂⟩ := hb₁.rewind hB
  rw [nil_append] at hb₂
  refine ⟨s₂, b₂, ?_, hs₂, hb₂⟩
  rw [hbody, toSize_of_lt h31, newByteArray, run_bind_ok hread]
  dsimp only
  rw [if_neg hpos, run_bind_ok (onByteArray_ok hset _)]

theorem parseFrame_negative (hmax : (m.payload env).length < env.maxLength.toNat)
    (h31 : ¬ (m.payload env).length < 2 ^ 31) (hc : c.connected = true)
    (hin : c.inbox.flatten = m.frame env ++ rest) : ∃ c', (parseFrame env).run c = .ok none c' := by
  have h32 : (m.payload env).length < 2 ^ 32 := Nat.lt_trans hmax env.maxLength.toNat_lt
  obtain ⟨segs, _, hbody⟩ := parseFrame_header env hmax hc hin
  obtain ⟨hneg64, hneg32⟩ := toSize_neg (Nat.le_of_not_lt h31) h32
  refine ⟨{ c with inbox := segs }, ?_⟩
  rw [hbody, readFixSizeBA, Virtual.readFixSizeBA,
    run_bind_ok (fixSize_neg _ _ (Int.le_of_lt hneg64))]
  dsimp only
  rw [if_pos (Int.le_of_lt hneg32)]
  rfl

theorem parseFrom_run (hz : env.zlib.Lossless) (hm : m.Sized)
    (hmax : (m.payload env).length < env.maxLength.toNat) (hc : c.connected = true)
    (rest) (hin : c.inbox.flatten = m.frame env ++ rest) :
    (m.Safe env → ∃ segs, (parseFrom env).run c = .ok (some m) { c with inbox := segs } ∧
      segs.flatten = rest) ∧
    (¬ m.Safe env → ∃ c', (parseFrom env).run c =
      if (m.payload env).length < 2 ^ 31 then .error .nullDeref c' else .ok none c') := by
  by_cases h31 : (m.payload env).length < 2 ^ 31
  · obtain ⟨segs, ba, hrun, hsegs, hba⟩ := parseFrame_run env hz hmax h31 hc hin
    obtain ⟨hgood, hbad⟩ := parsePayload_run env hz hm hba (by omega) { c with inbox := segs }
    constructor
    · intro hsafe
      refine ⟨segs, catchExceptions_ok ?_, hsegs⟩
      rw [hrun, hgood hsafe.2]
    · intro hsafe
      refine ⟨{ c with inbox := segs }, ?_⟩
      rw [if_pos h31]
      exact catchExceptions_null (by rw [hrun, hbad (fun h => hsafe ⟨h31, h⟩)])
  · obtain ⟨c', hnone⟩ := parseFrame_negative env hmax h31 hc hin
    constructor
    · intro hsafe
      exact absurd hsafe.1 h31
    · intro _
      refine ⟨c', ?_⟩
      rw [if_neg h31]
      exact catchExceptions_ok hnone

/-! ## Sequences of messages -/

def sendAll (env : Env) : List Message → Net (List Int)
  | [] => return []
  | m :: ms => do
    let rt ← serializeTo env m
    return rt :: (← sendAll env ms)

def receiveAll (env : Env) : Nat → Net (List (Option Message))
  | 0 => return []
  | n + 1 => do
    let m ← parseFrom env
    return m :: (← receiveAll env n)

theorem sendAll_run (hz : env.zlib.Lossless) (ms)
    (hms : ∀ m ∈ ms, m.Sized ∧ (m.payload env).length < 2 ^ 63) (hc : c.connected = true) :
    ∃ rts quota, (sendAll env ms).run c =
      .ok rts { c with outbox := c.outbox ++ ms.flatMap (Message.frame env), quota := quota } := by
  induction ms generalizing c with
  | nil => exact ⟨[], c.quota, by simp [sendAll]⟩
  | cons m ms ih =>
    obtain ⟨hm, hlt⟩ := hms m (by simp)
    obtain ⟨rt, q₁, h1⟩ := serializeTo_run env hz hm hlt hc
    obtain ⟨rts, q₂, h2⟩ := ih (fun x hx => hms x (by simp [hx]))
      (c := { c with outbox := c.outbox ++ m.frame env, quota := q₁ }) hc
    refine ⟨rt :: rts, q₂, ?_⟩
    rw [sendAll, run_bind_ok h1, run_bind_ok h2, flatMap_cons, ← append_assoc]
    rfl

theorem receiveAll_run_iff (hz : env.zlib.Lossless) (ms : List Message)
    (hms : ∀ m ∈ ms, m.Sized ∧ (m.payload env).length < env.maxLength.toNat)
    (hc : c.connected = true) (hin : c.inbox.flatten = ms.flatMap (Message.frame env) ++ rest) :
    (∃ c', (receiveAll env ms.length).run c = .ok (ms.map some) c') ↔ ∀ m ∈ ms, m.Safe env := by
  induction ms generalizing c with
  | nil => simp [receiveAll]
  | cons m ms ih =>
    obtain ⟨hm, hmax⟩ := hms m (by simp)
    rw [flatMap_cons, append_assoc] at hin
    obtain ⟨hgood, hbad⟩ := parseFrom_run env hz hm hmax hc _ hin
    have htail : ∀ x ∈ ms, x.Sized ∧ (x.payload env).length < env.maxLength.toNat :=
      fun x hx => hms x (by simp [hx])
    rw [length_cons, map_cons, receiveAll, forall_mem_cons]
    constructor
    · rintro ⟨c', hrun⟩
      obtain ⟨x, c₁, h1, hrun⟩ := run_bind_eq_ok hrun
      obtain ⟨xs, c₂, h2, hrun⟩ := run_bind_eq_ok hrun
      obtain ⟨rfl, rfl⟩ : x = some m ∧ xs = ms.map some := by
        injection hrun with hr _
        exact List.cons.inj hr
      have hsafe : m.Safe env := by
        by_contra hunsafe
        obtain ⟨c', h⟩ := hbad hunsafe
        rw [h1] at h
        split at h <;> cases h
      obtain ⟨segs, h, hrest⟩ := hgood hsafe
      rw [h1] at h
      cases h
      exact ⟨hsafe, (ih htail (c := { c with inbox := segs }) hc hrest).mp ⟨c₂, h2⟩⟩
    · rintro ⟨hsafe, hall⟩
      obtain ⟨segs, h1, hrest⟩ := hgood hsafe
      obtain ⟨c', h2⟩ := (ih htail (c := { c with inbox := segs }) hc hrest).mpr hall
      exact ⟨c', by rw [run_bind_ok h1, run_bind_ok h2]; rfl⟩

/-- Messages sent one after the other come back in order, through any transport,
exactly when each of them is safe. -/
theorem messages_roundtrip_iff (env : Env) (hz : env.zlib.Lossless) (ms : List Message)
    (hms : ∀ m ∈ ms, m.Sized ∧ (m.payload env).length < env.maxLength.toNat) (quota : List Nat) :
    ∃ rts out, (sendAll env ms).run (sender quota) = .ok rts out ∧
      ∀ segs : List (List UInt8), segs.flatten = out.outbox →
        ((∃ c', (receiveAll env ms.length).run (receiver segs) = .ok (ms.map some) c') ↔
          ∀ m ∈ ms, m.Safe env) := by
  have hlt : ∀ m ∈ ms, m.Sized ∧ (m.payload env).length < 2 ^ 63 := by
    intro m hm
    have := env.maxLength.toNat_lt
    exact ⟨(hms m hm).1, by have := (hms m hm).2; omega⟩
  obtain ⟨rts, q, hsend⟩ := sendAll_run env hz ms hlt (c := sender quota) rfl
  refine ⟨rts, _, hsend, ?_⟩
  intro segs hsegs
  have hin : (receiver segs).inbox.flatten = ms.flatMap (Message.frame env) ++ [] := by
    rw [append_nil]
    simpa [receiver, sender] using hsegs
  exact receiveAll_run_iff env hz ms hms rfl hin

/-! ## The default configuration -/

def stored : Zlib where
  gzip ps := .ok [1 :: ps.flatten]
  gunzip ps := .ok [ps.flatten.drop 1]

theorem stored_lossless : stored.Lossless where
  gzip_ok ps := ⟨[1 :: ps.flatten], rfl, by simp⟩
  gunzip_ok ps qs rs hqs hrs := by
    cases hqs
    exact ⟨_, rfl, by simp [hrs]⟩

def defaultEnv : Env := ⟨1024 * 1024 * 64, 1024 * 4, stored, fun _ => 0⟩

theorem messages_roundtrip_iff_pair :
    ∃ rts out, (sendAll defaultEnv [.request 1 200 [104, 105], .notify 7 []]).run (sender [0, 2]) =
        .ok rts out ∧
      ∀ segs : List (List UInt8), segs.flatten = out.outbox →
        ∃ c', (receiveAll defaultEnv 2).run (receiver segs) =
          .ok [some (.request 1 200 [104, 105]), some (.notify 7 [])] c' := by
  obtain ⟨rts, out, hsend, hrecv⟩ := messages_roundtrip_iff defaultEnv stored_lossless
    [.request 1 200 [104, 105], .notify 7 []] (by decide) [0, 2]
  exact ⟨rts, out, hsend, fun segs hsegs => (hrecv segs hsegs).mpr (by decide)⟩

def fullBlock : Message := .response 1 1 0 (List.replicate 4089 0) []

theorem length_fullBlock : fullBlock.bytes.length = 4096 := by
  have h : (varintBytes 10 4089).length = 2 := by decide
  have h0 : (varintBytes 10 0).length = 1 := by decide
  have h1 : (varintBytes 5 (1 : UInt32).toNat).length = 1 := by decide
  have h2 : (varintBytes 5 (0 : UInt32).toNat).length = 1 := by decide
  simp only [fullBlock, Message.bytes, Message.stringBytes, StrKind.head, length_append,
    length_cons, length_nil, length_replicate, h, h0, h1, h2]

/-- Under the default configuration, in one piece: the frame of the response is
sent, and `parseFrom` dereferences a null pointer on it. -/
theorem messages_roundtrip_null :
    ∃ rts out, (sendAll defaultEnv [fullBlock]).run (sender []) = .ok rts out ∧
      (fullBlock.payload defaultEnv).length < defaultEnv.maxLength.toNat ∧
      ∃ c', (receiveAll defaultEnv 1).run (receiver [out.outbox]) = .error .nullDeref c' := by
  have hsized : fullBlock.Sized := by
    rw [Message.Sized, length_fullBlock]
    decide
  have hzip : fullBlock.zipped defaultEnv = true := by
    simp [Message.zipped, length_fullBlock, defaultEnv]
  have hpay : (fullBlock.payload defaultEnv).length = 4097 := by
    rw [Message.payload, if_pos hzip]
    simp [defaultEnv, stored, flatten_chunks, length_fullBlock]
  have hmax : (fullBlock.payload defaultEnv).length < defaultEnv.maxLength.toNat := by
    rw [hpay]
    decide
  obtain ⟨rts, q, hsend⟩ := sendAll_run defaultEnv stored_lossless [fullBlock]
    (by simp [hsized, hpay]) (c := sender []) rfl
  refine ⟨rts, _, hsend, hmax, ?_⟩
  have hbad : ¬ fullBlock.Safe defaultEnv := by
    rintro ⟨-, hbody | hlen⟩
    · exact hbody rfl
    · exact hlen (by rw [length_fullBlock])
  obtain ⟨c', hc'⟩ := (parseFrom_run defaultEnv stored_lossless hsized hmax
    (c := receiver [(sender []).outbox ++ [fullBlock].flatMap (Message.frame defaultEnv)]) rfl
    [] (by simp [receiver, sender])).2 hbad
  rw [hpay, if_pos (by decide)] at hc'
  exact ⟨c', by rw [receiveAll, run_bind_error hc']⟩

end Helens.Rock
