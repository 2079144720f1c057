import Helens.Codec

/-! Round trips through the codecs. `Appends` and `Takes` are the two contracts
of a codec: a writer appends certain bytes, and a reader that finds these bytes
takes exactly them off and returns a certain value. Both compose. -/

namespace Helens
open Lib.Blocks Lib.StateError Lib.Words List

namespace ByteArray

def Appends (e : Endian) (x : BA Unit) (bs : List UInt8) : Prop :=
  ∀ (B : Nat) (w : List UInt8) (b : ByteArray), 1 ≤ B → AtEnd B e w b →
    ∃ b', x.run b = .ok () b' ∧ AtEnd B e (w ++ bs) b'

def Takes {α : Type} (e : Endian) (x : BA α) (bs : List UInt8) (a : α) : Prop :=
  ∀ (B total : Nat) (rest : List UInt8) (b : ByteArray), 1 ≤ B → Unread B e total (bs ++ rest) b →
      ∃ b', x.run b = .ok a b' ∧ Unread B e total rest b'

variable (e : Endian)

theorem appends_write (buf) : Appends e (write buf) buf :=
  fun _ _ _ hB h => h.write hB buf

theorem appends_of_run {e : Endian}
    (h : ∀ b : ByteArray, b.endian = e → x.run b = (write bs).run b) : Appends e x bs := by
  intro B w b hB hb
  rw [h b hb.endian]
  exact hb.write hB bs

theorem Appends.bind {e : Endian} (hx : Appends e x bs)
    (hy : Appends e y cs) : Appends e (do x; y) (bs ++ cs) := by
  intro B w b hB h
  obtain ⟨b₁, h1, hb₁⟩ := hx B w b hB h
  obtain ⟨b₂, h2, hb₂⟩ := hy B _ b₁ hB hb₁
  refine ⟨b₂, ?_, by rwa [append_assoc] at hb₂⟩
  rw [run_bind_ok h1, h2]

theorem takes_read (x : List UInt8) (hx : x ≠ []) : Takes e (read x.length) x x :=
  fun _ _ _ _ hB h => h.read hB hx

theorem takes_pure {α : Type} (a) : Takes e (pure a : BA α) [] a :=
  fun _ _ _ b _ h => ⟨b, rfl, h⟩

theorem Takes.bind {α β : Type} {e : Endian} {x : BA α} {f : α → BA β} {bs cs : List UInt8}
    {a : α} {c : β} (hx : Takes e x bs a) (hf : Takes e (f a) cs c) :
    Takes e (x >>= f) (bs ++ cs) c := by
  intro B total rest b hB h
  rw [append_assoc] at h
  obtain ⟨b₁, h1, hb₁⟩ := hx B total _ b hB h
  obtain ⟨b₂, h2, hb₂⟩ := hf B total rest b₁ hB hb₁
  exact ⟨b₂, by rw [run_bind_ok h1, h2], hb₂⟩

theorem Takes.map {α β : Type} {e : Endian} {x : BA α} {bs : List UInt8} {a : α}
    (hx : Takes e x bs a) (f : α → β) : Takes e (do return f (← x)) bs (f a) := by
  have h : Takes e (x >>= fun a => pure (f a)) (bs ++ []) (f a) := hx.bind (takes_pure e (f a))
  rwa [append_nil] at h

theorem appends_forM {ι : Type} {e : Endian} {f : ι → BA Unit} {bytes : ι → List UInt8}
    (h : ∀ i, Appends e (f i) (bytes i)) (l : List ι) : Appends e (l.forM f) (l.flatMap bytes) := by
  induction l with
  | nil => exact fun _ w b _ hb => ⟨b, rfl, by simpa using hb⟩
  | cons i l ih =>
    rw [flatMap_cons]
    exact (h i).bind ih

theorem takes_mapM {ι α : Type} {e : Endian} {f : ι → BA α} {bytes : ι → List UInt8} {g : ι → α}
    (h : ∀ i, Takes e (f i) (bytes i) (g i)) (l : List ι) :
    Takes e (l.mapM f) (l.flatMap bytes) (l.map g) := by
  induction l with
  | nil => exact takes_pure e []
  | cons i l ih =>
    rw [mapM_cons, flatMap_cons, map_cons]
    exact (h i).bind (ih.map (fun as => g i :: as))

/-! ## Fixed-width integers -/

def fixedBytes (e : Endian) (w v : Nat) : List UInt8 :=
  if e = byteOrder then leBytes w v else (leBytes w v).reverse

@[simp] theorem length_fixedBytes (w v) : (fixedBytes e w v).length = w := by
  unfold fixedBytes
  split <;> simp

theorem writeFixed_run (w v) (b : ByteArray) :
    (writeFixed w v).run b = (write (fixedBytes b.endian w v)).run b := by
  simp only [writeFixed, EStateM.run_bind, EStateM.run_get, fixedBytes]
  by_cases he : b.endian = byteOrder
  · simp [he]
  · simp [he, leBytes_bswap]

theorem takes_readFixed (w v) (hw : 0 < w) :
    Takes e (readFixed w) (fixedBytes e w v) (v % 256 ^ w) := by
  intro B total rest b hB h
  have hne : fixedBytes e w v ≠ [] := by
    apply ne_nil_of_length_pos
    rw [length_fixedBytes]
    exact hw
  obtain ⟨b', hr, hb'⟩ := h.read hB hne
  rw [length_fixedBytes] at hr
  refine ⟨b', ?_, hb'⟩
  rw [readFixed, run_bind_ok hr]
  simp only [EStateM.run_bind, EStateM.run_get, EStateM.run_pure, hb'.endian, fixedBytes]
  by_cases he : e = byteOrder
  · simp [he, ofLeBytes_leBytes]
  · simp [he, bswap_ofLeBytes_reverse]

theorem takes_readFuint8 (v) : Takes e readFuint8 [v] v := by
  have h := (takes_read e [v] (by simp)).map (fun bs => UInt8.ofNat (ofLeBytes bs))
  simpa [readFuint8, ofLeBytes] using h

/-! ## Varints -/

/-- What the readers do with the bytes the writers make: `m` is the part of the
value that is still in the bytes, `result` the part below bit `i`. -/
theorem takes_readVarintLoop (width) {slots m : Nat} {bs : List UInt8}
    (hbs : septets slots m = some bs) (rounds i result) (hr : slots ≤ rounds)
    (hres : result < 2 ^ i) (hfit : m * 2 ^ i < 2 ^ width) :
    Takes e (readVarintLoop width rounds i result) bs (result + m * 2 ^ i) := by
  induction slots generalizing m bs rounds i result with
  | zero => simp [septets] at hbs
  | succ slots ih =>
    obtain ⟨rounds, rfl⟩ : ∃ r, rounds = r + 1 := ⟨rounds - 1, by omega⟩
    rw [septets] at hbs
    split at hbs
    · next hm =>
      -- a byte with the top bit set carries the low seven bits of `m`
      obtain ⟨cs, hcs, rfl⟩ := Option.map_eq_some_iff.mp hbs
      have hbyte : (UInt8.ofNat (m &&& 0x7F ||| 0x80)).toNat = m % 128 + 128 := by
        rw [and_septet, or_top _ (Nat.mod_lt _ (by decide)), UInt8.toNat_ofNat']
        omega
      have hpay : (UInt8.ofNat (m &&& 0x7F ||| 0x80) &&& 0x7f).toNat = m % 128 := by
        rw [UInt8.toNat_and, hbyte, show (0x7f : UInt8).toNat = 0x7F from rfl, and_septet]
        omega
      have hsplit : m = m % 128 + 128 * (m >>> 7) := by
        rw [Nat.shiftRight_eq_div_pow]; omega
      have hpow : 2 ^ (i + 7) = 128 * 2 ^ i := by rw [Nat.pow_add]; omega
      have hval : m * 2 ^ i = m % 128 * 2 ^ i + (m >>> 7) * 2 ^ (i + 7) := by
        conv => lhs; rw [hsplit]
        rw [hpow, Nat.add_mul, Nat.mul_comm 128, Nat.mul_assoc]
      have hlow : m % 128 * 2 ^ i < 2 ^ width := by omega
      have hnext : result ||| ((m % 128) <<< i % 2 ^ width) = result + m % 128 * 2 ^ i := by
        rw [Nat.mod_eq_of_lt (by rw [Nat.shiftLeft_eq]; exact hlow), or_shiftLeft _ _ _ hres]
      have hbound : result + m % 128 * 2 ^ i < 2 ^ (i + 7) := by
        have := Nat.mul_le_mul_right (2 ^ i) (show m % 128 ≤ 127 by omega)
        omega
      have hrest := ih hcs rounds (i + 7) (result + m % 128 * 2 ^ i) (by omega) hbound (by omega)
      have hge : ¬ UInt8.ofNat (m &&& 0x7F ||| 0x80) < 0x80 := by
        rw [UInt8.lt_iff_toNat_lt, hbyte, show (0x80 : UInt8).toNat = 128 from rfl]
        omega
      rw [readVarintLoop]
      refine Takes.bind (takes_readFuint8 e (UInt8.ofNat (m &&& 0x7F ||| 0x80))) ?_
      rw [if_neg hge, hpay, hnext, hval, ← Nat.add_assoc]
      exact hrest
    · next hm =>
      cases hbs
      have hbyte : (UInt8.ofNat m).toNat = m := by
        rw [UInt8.toNat_ofNat']
        omega
      have hlt : UInt8.ofNat m < 0x80 := by
        rw [UInt8.lt_iff_toNat_lt, hbyte, show (0x80 : UInt8).toNat = 128 from rfl]
        omega
      have hnext : result ||| (m <<< i % 2 ^ width) = result + m * 2 ^ i := by
        rw [Nat.mod_eq_of_lt (by rw [Nat.shiftLeft_eq]; exact hfit), or_shiftLeft _ _ _ hres]
      rw [readVarintLoop]
      refine Takes.bind (takes_readFuint8 e (UInt8.ofNat m)) ?_
      rw [if_pos hlt, hbyte, hnext]
      exact takes_pure e _

def varintBytes (slots v : Nat) : List UInt8 := (septets slots v).getD []

theorem septets_varintBytes (h : v < 128 ^ (k + 1)) :
    septets (k + 1) v = some (varintBytes (k + 1) v) := by
  obtain ⟨bs, hbs⟩ := septets_isSome k v h
  rw [varintBytes, hbs]
  rfl

theorem length_varintBytes_le (slots v) : (varintBytes slots v).length ≤ slots := by
  unfold varintBytes
  cases h : septets slots v with
  | none => exact Nat.zero_le _
  | some bs => exact (septets_length h).2

theorem writeVarint_eq (h : v < 128 ^ (k + 1)) :
    writeVarint (k + 1) v = write (varintBytes (k + 1) v) := by
  rw [writeVarint, septets_varintBytes h]

theorem takes_readVarint (width) (h : v < 128 ^ (k + 1))
    (hk : k + 1 ≤ (width + 6) / 7) (hv : v < 2 ^ width) :
    Takes e (readVarint width) (varintBytes (k + 1) v) v := by
  have ht := takes_readVarintLoop e width (septets_varintBytes h) ((width + 6) / 7) 0 0 hk
    (by simp) (by simpa using hv)
  simpa [readVarint] using ht

theorem decodeZigzag32_encode (v) : decodeZigzag32 (encodeZigzag32 v) = v := by
  have hlt : v < 0 ↔ v.toBitVec.msb = true := by
    rw [Int32.lt_iff_toBitVec_slt, show (0 : Int32).toBitVec = 0#32 from rfl,
      BitVec.slt_zero_eq_msb]
  have henc : (encodeZigzag32 v).toBitVec = zigzag v.toBitVec := by
    unfold encodeZigzag32 zigzag
    by_cases hm : v.toBitVec.msb = true
    · rw [if_pos (hlt.mpr hm), if_pos hm]
      simp
    · rw [if_neg (fun h => hm (hlt.mp h)), if_neg hm]
      simp
  apply Int32.toBitVec_inj.mp
  have hdec : (decodeZigzag32 (encodeZigzag32 v)).toBitVec =
      unzigzag (encodeZigzag32 v).toBitVec := by
    simp [decodeZigzag32, unzigzag]
  rw [hdec, henc]
  exact unzigzag_zigzag (w := 31) v.toBitVec

theorem decodeZigzag64_encode (v) : decodeZigzag64 (encodeZigzag64 v) = v := by
  have hlt : v < 0 ↔ v.toBitVec.msb = true := by
    rw [Int64.lt_iff_toBitVec_slt, show (0 : Int64).toBitVec = 0#64 from rfl,
      BitVec.slt_zero_eq_msb]
  have henc : (encodeZigzag64 v).toBitVec = zigzag v.toBitVec := by
    unfold encodeZigzag64 zigzag
    by_cases hm : v.toBitVec.msb = true
    · rw [if_pos (hlt.mpr hm), if_pos hm]
      simp
    · rw [if_neg (fun h => hm (hlt.mp h)), if_neg hm]
      simp
  apply Int64.toBitVec_inj.mp
  have hdec : (decodeZigzag64 (encodeZigzag64 v)).toBitVec =
      unzigzag (encodeZigzag64 v).toBitVec := by
    simp [decodeZigzag64, unzigzag]
  rw [hdec, henc]
  exact unzigzag_zigzag (w := 63) v.toBitVec

theorem writeFuint8_eq (v) : writeFuint8 v = write [v] := by
  have h : leBytes 1 v.toNat = [v] := by simp [leBytes]
  rw [writeFuint8, h]

theorem writeUint32_eq (v : UInt32) : writeUint32 v = write (varintBytes 5 v.toNat) :=
  writeVarint_eq (k := 4) (Nat.lt_trans v.toNat_lt (by decide))

theorem writeUint64_eq (v : UInt64) : writeUint64 v = write (varintBytes 10 v.toNat) :=
  writeVarint_eq (k := 9) (Nat.lt_trans v.toNat_lt (by decide))

theorem takes_readUint32 (v : UInt32) : Takes e readUint32 (varintBytes 5 v.toNat) v := by
  have h := (takes_readVarint e 32 (k := 4) (Nat.lt_trans v.toNat_lt (by decide)) (by decide)
    v.toNat_lt).map UInt32.ofNat
  rwa [UInt32.ofNat_toNat] at h

theorem takes_readUint64 (v : UInt64) : Takes e readUint64 (varintBytes 10 v.toNat) v := by
  have h := (takes_readVarint e 64 (k := 9) (Nat.lt_trans v.toNat_lt (by decide)) (by decide)
    v.toNat_lt).map UInt64.ofNat
  rwa [UInt64.ofNat_toNat] at h

theorem takes_readFuint16 (v : UInt16) : Takes e readFuint16 (fixedBytes e 2 v.toNat) v := by
  have h := (takes_readFixed e 2 v.toNat (by decide)).map UInt16.ofNat
  rwa [Nat.mod_eq_of_lt (b := 256 ^ 2) v.toNat_lt, UInt16.ofNat_toNat] at h

theorem takes_readFuint32 (v : UInt32) : Takes e readFuint32 (fixedBytes e 4 v.toNat) v := by
  have h := (takes_readFixed e 4 v.toNat (by decide)).map UInt32.ofNat
  rwa [Nat.mod_eq_of_lt (b := 256 ^ 4) v.toNat_lt, UInt32.ofNat_toNat] at h

theorem takes_readFuint64 (v : UInt64) : Takes e readFuint64 (fixedBytes e 8 v.toNat) v := by
  have h := (takes_readFixed e 8 v.toNat (by decide)).map UInt64.ofNat
  rwa [Nat.mod_eq_of_lt (b := 256 ^ 8) v.toNat_lt, UInt64.ofNat_toNat] at h

end ByteArray
open Helens.ByteArray

/-! ## Sequences of integers -/

inductive IntVal
  | fint8 (v : Int8)
  | fuint8 (v : UInt8)
  | fint16 (v : Int16)
  | fuint16 (v : UInt16)
  | fint32 (v : Int32)
  | fuint32 (v : UInt32)
  | fint64 (v : Int64)
  | fuint64 (v : UInt64)
  | int32 (v : Int32)
  | uint32 (v : UInt32)
  | int64 (v : Int64)
  | uint64 (v : UInt64)

namespace IntVal

def write : IntVal → BA Unit
  | fint8 v => writeFint8 v
  | fuint8 v => writeFuint8 v
  | fint16 v => writeFint16 v
  | fuint16 v => writeFuint16 v
  | fint32 v => writeFint32 v
  | fuint32 v => writeFuint32 v
  | fint64 v => writeFint64 v
  | fuint64 v => writeFuint64 v
  | int32 v => writeInt32 v
  | uint32 v => writeUint32 v
  | int64 v => writeInt64 v
  | uint64 v => writeUint64 v

def readLike : IntVal → BA IntVal
  | fint8 _ => do return fint8 (← readFint8)
  | fuint8 _ => do return fuint8 (← readFuint8)
  | fint16 _ => do return fint16 (← readFint16)
  | fuint16 _ => do return fuint16 (← readFuint16)
  | fint32 _ => do return fint32 (← readFint32)
  | fuint32 _ => do return fuint32 (← readFuint32)
  | fint64 _ => do return fint64 (← readFint64)
  | fuint64 _ => do return fuint64 (← readFuint64)
  | int32 _ => do return int32 (← readInt32)
  | uint32 _ => do return uint32 (← readUint32)
  | int64 _ => do return int64 (← readInt64)
  | uint64 _ => do return uint64 (← readUint64)

def bytes (e : Endian) : IntVal → List UInt8
  | fint8 v => [v.toUInt8]
  | fuint8 v => [v]
  | fint16 v => fixedBytes e 2 v.toUInt16.toNat
  | fuint16 v => fixedBytes e 2 v.toNat
  | fint32 v => fixedBytes e 4 v.toUInt32.toNat
  | fuint32 v => fixedBytes e 4 v.toNat
  | fint64 v => fixedBytes e 8 v.toUInt64.toNat
  | fuint64 v => fixedBytes e 8 v.toNat
  | int32 v => varintBytes 5 (encodeZigzag32 v).toNat
  | uint32 v => varintBytes 5 v.toNat
  | int64 v => varintBytes 10 (encodeZigzag64 v).toNat
  | uint64 v => varintBytes 10 v.toNat

theorem write_run (v : IntVal) (b : ByteArray) :
    v.write.run b = (ByteArray.write (v.bytes b.endian)).run b := by
  cases v with
  | fint8 v => exact congrArg (fun x => EStateM.run x b) (writeFuint8_eq v.toUInt8)
  | fuint8 v => exact congrArg (fun x => EStateM.run x b) (writeFuint8_eq v)
  | fint16 v => exact writeFixed_run 2 _ b
  | fuint16 v => exact writeFixed_run 2 _ b
  | fint32 v => exact writeFixed_run 4 _ b
  | fuint32 v => exact writeFixed_run 4 _ b
  | fint64 v => exact writeFixed_run 8 _ b
  | fuint64 v => exact writeFixed_run 8 _ b
  | int32 v => exact congrArg (fun x => EStateM.run x b) (writeUint32_eq _)
  | uint32 v => exact congrArg (fun x => EStateM.run x b) (writeUint32_eq v)
  | int64 v => exact congrArg (fun x => EStateM.run x b) (writeUint64_eq _)
  | uint64 v => exact congrArg (fun x => EStateM.run x b) (writeUint64_eq v)

theorem appends_write_bytes (e) (v : IntVal) : Appends e v.write (v.bytes e) := by
  apply appends_of_run
  intro b hb
  rw [write_run, hb]

def room : IntVal → Nat
  | fint8 _ | fuint8 _ => 1
  | fint16 _ | fuint16 _ => 2
  | fint32 _ | fuint32 _ => 4
  | fint64 _ | fuint64 _ => 8
  | int32 _ | uint32 _ => 5
  | int64 _ | uint64 _ => 10

theorem length_bytes_le (e) (v : IntVal) : (v.bytes e).length ≤ v.room := by
  cases v with
  | int32 v => exact length_varintBytes_le 5 _
  | uint32 v => exact length_varintBytes_le 5 _
  | int64 v => exact length_varintBytes_le 10 _
  | uint64 v => exact length_varintBytes_le 10 _
  | _ => simp [bytes, room]

theorem takes_readLike (e) (v : IntVal) : Takes e v.readLike (v.bytes e) v := by
  cases v with
  | fint8 v =>
    have h := ((takes_readFuint8 e v.toUInt8).map UInt8.toInt8).map fint8
    simpa [readLike, bytes, readFint8, readFuint8] using h
  | fuint8 v => exact (takes_readFuint8 e v).map fuint8
  | fint16 v =>
    have h := ((takes_readFuint16 e v.toUInt16).map UInt16.toInt16).map fint16
    simpa [readLike, bytes, readFint16, readFuint16] using h
  | fuint16 v => exact (takes_readFuint16 e v).map fuint16
  | fint32 v =>
    have h := ((takes_readFuint32 e v.toUInt32).map UInt32.toInt32).map fint32
    simpa [readLike, bytes, readFint32, readFuint32] using h
  | fuint32 v => exact (takes_readFuint32 e v).map fuint32
  | fint64 v =>
    have h := ((takes_readFuint64 e v.toUInt64).map UInt64.toInt64).map fint64
    simpa [readLike, bytes, readFint64, readFuint64] using h
  | fuint64 v => exact (takes_readFuint64 e v).map fuint64
  | int32 v =>
    have h := ((takes_readUint32 e (encodeZigzag32 v)).map decodeZigzag32).map int32
    rwa [decodeZigzag32_encode] at h
  | uint32 v => exact (takes_readUint32 e v).map uint32
  | int64 v =>
    have h := ((takes_readUint64 e (encodeZigzag64 v)).map decodeZigzag64).map int64
    rwa [decodeZigzag64_encode] at h
  | uint64 v => exact (takes_readUint64 e v).map uint64

end IntVal

def intRoundtrip (little : Bool) (vs : List IntVal) : BA (List IntVal × Nat) := do
  setIsLittleEndian little
  vs.forM IntVal.write
  setPosition 0
  let out ← vs.mapM IntVal.readLike
  return (out, (← get).getReadSize)

/-- Every sequence of integers comes back as it went in, with nothing left over,
and no value takes more bytes than its codec has room for. -/
theorem ints_roundtrip (B : Nat) (hB : 1 ≤ B) (heap : Nat → UInt8) (little : Bool)
    (vs : List IntVal) :
    (∃ b, (intRoundtrip little vs).run (ByteArray.new B heap) = .ok (vs, 0) b) ∧
      ∀ (v : IntVal) (b : ByteArray), b.Inv B →
        ∃ b', v.write.run b = .ok () b' ∧ b'.Inv B ∧ b'.position ≤ b.position + v.room := by
  constructor
  · obtain ⟨b₁, h1, hb₁⟩ := (atEnd_new hB heap).setIsLittleEndian little
    obtain ⟨b₂, h2, hb₂⟩ := appends_forM (IntVal.appends_write_bytes _) vs B _ b₁ hB hb₁
    obtain ⟨b₃, h3, hb₃⟩ := hb₂.rewind hB
    obtain ⟨b₄, h4, hb₄⟩ := takes_mapM (IntVal.takes_readLike _) vs B _ [] b₃ hB
      (by simpa using hb₃)
    refine ⟨b₄, ?_⟩
    have hleft : b₄.getReadSize = 0 := by rw [hb₄.inv.getReadSize_eq, hb₄.left]; rfl
    rw [intRoundtrip, run_bind_ok h1, run_bind_ok h2, run_bind_ok h3, run_bind_ok h4]
    simp [hleft]
  · intro v b hb
    obtain ⟨b', hr, hi, hf, -⟩ := hb.write_eq hB (v.bytes b.endian)
    have hp : b'.position = b.position + (v.bytes b.endian).length := congrArg Flat.position hf
    refine ⟨b', by rw [IntVal.write_run, hr], hi, ?_⟩
    have := IntVal.length_bytes_le b.endian v
    omega

theorem ints_roundtrip_extremes :
    (∃ b, (intRoundtrip false [.int32 (-2147483648), .fuint16 513, .int64 (-9223372036854775808),
      .uint64 18446744073709551615, .fint8 (-128)]).run (ByteArray.new 1 fun _ => 0) =
      .ok ([.int32 (-2147483648), .fuint16 513, .int64 (-9223372036854775808),
        .uint64 18446744073709551615, .fint8 (-128)], 0) b) ∧
    ∃ b', (IntVal.int32 (-2147483648)).write.run (ByteArray.new 1 fun _ => 0) = .ok () b' ∧
      b'.Inv 1 ∧ b'.position ≤ 0 + 5 :=
  have h := ints_roundtrip 1 (by decide) (fun _ => 0) false [.int32 (-2147483648), .fuint16 513,
    .int64 (-9223372036854775808), .uint64 18446744073709551615, .fint8 (-128)]
  ⟨h.1, h.2 (.int32 (-2147483648)) _ (inv_new (by decide) _)⟩

end Helens
