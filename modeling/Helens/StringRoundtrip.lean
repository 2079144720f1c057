import Helens.CodecRoundtrip

/-! Sequences of strings through the four string codecs. A string reader ends in
a raw `read`, and `read` of no bytes still takes the address of the current
block; the theorem of this module says exactly when that block is there. -/

namespace Helens
open Lib.Blocks Lib.StateError Lib.Words Helens.ByteArray List

/-- How the length in front of a string is written. -/
inductive StrKind
  | f16
  | f32
  | f64
  | vint

namespace StrKind

def write : StrKind → List UInt8 → BA Unit
  | f16 => writeStringF16
  | f32 => writeStringF32
  | f64 => writeStringF64
  | vint => writeStringVint

def read : StrKind → BA (List UInt8)
  | f16 => readStringF16
  | f32 => readStringF32
  | f64 => readStringF64
  | vint => readStringVint

def limit : StrKind → Nat
  | f16 => 2 ^ 16
  | f32 => 2 ^ 32
  | f64 | vint => 2 ^ 64

def head (e : Endian) : StrKind → Nat → List UInt8
  | f16, n => fixedBytes e 2 n
  | f32, n => fixedBytes e 4 n
  | f64, n => fixedBytes e 8 n
  | vint, n => varintBytes 10 n

theorem head_ne_nil (e) (k : StrKind) (n) (hn : n < k.limit) : k.head e n ≠ [] := by
  apply ne_nil_of_length_pos
  cases k with
  | vint =>
    have h := septets_varintBytes (k := 9) (Nat.lt_trans hn (by decide))
    exact (septets_length h).1
  | _ => simp [head]

def front : StrKind → Nat → IntVal
  | f16, n => .fuint16 (UInt16.ofNat n)
  | f32, n => .fuint32 (UInt32.ofNat n)
  | f64, n => .fuint64 (UInt64.ofNat n)
  | vint, n => .uint64 (UInt64.ofNat n)

theorem bytes_front (e) (k : StrKind) (hn : n < k.limit) : (k.front n).bytes e = k.head e n := by
  cases k with
  | f16 => exact congrArg (fixedBytes e 2) (UInt16.toNat_ofNat_of_lt' hn)
  | f32 => exact congrArg (fixedBytes e 4) (UInt32.toNat_ofNat_of_lt' hn)
  | f64 => exact congrArg (fixedBytes e 8) (UInt64.toNat_ofNat_of_lt' hn)
  | vint => exact congrArg (varintBytes 10) (UInt64.toNat_ofNat_of_lt' hn)

theorem appends_write (e) (k : StrKind) (s : List UInt8) (hs : s.length < k.limit) :
    Appends e (k.write s) (k.head e s.length ++ s) := by
  have hwrite : k.write s = (do (k.front s.length).write; ByteArray.write s) := by
    cases k <;> rfl
  rw [hwrite, ← bytes_front e k hs]
  exact (IntVal.appends_write_bytes e _).bind (ByteArray.appends_write e s)

def readFront : StrKind → BA Nat
  | f16 => do return (← readFuint16).toNat
  | f32 => do return (← readFuint32).toNat
  | f64 => do return (← readFuint64).toNat
  | vint => do return (← readUint64).toNat

theorem takes_readFront (e) (k : StrKind) (hn : n < k.limit) :
    Takes e k.readFront (k.head e n) n := by
  cases k with
  | f16 =>
    have h := (takes_readFuint16 e (UInt16.ofNat n)).map UInt16.toNat
    rwa [UInt16.toNat_ofNat_of_lt' hn] at h
  | f32 =>
    have h := (takes_readFuint32 e (UInt32.ofNat n)).map UInt32.toNat
    rwa [UInt32.toNat_ofNat_of_lt' hn] at h
  | f64 =>
    have h := (takes_readFuint64 e (UInt64.ofNat n)).map UInt64.toNat
    rwa [UInt64.toNat_ofNat_of_lt' hn] at h
  | vint =>
    have h := (takes_readUint64 e (UInt64.ofNat n)).map UInt64.toNat
    rwa [UInt64.toNat_ofNat_of_lt' hn] at h

theorem read_run {B total n : Nat} (hB : 1 ≤ B) {e : Endian} {k : StrKind} {w : List UInt8}
    {b : ByteArray} (hn : n < k.limit) (h : Unread B e total (k.head e n ++ w) b) :
    ∃ b', k.read.run b = (ByteArray.read n).run b' ∧ Unread B e total w b' := by
  have hread : k.read = k.readFront >>= ByteArray.read := by
    cases k <;> simp [read, readFront, readStringF16, readStringF32, readStringF64, readStringVint]
  obtain ⟨b', hr, hb'⟩ := takes_readFront e k hn B total w b hB h
  exact ⟨b', by rw [hread, run_bind_ok hr], hb'⟩

end StrKind

/-- A string that is short enough for the length in front of it. -/
structure StrVal where
  kind : StrKind
  text : List UInt8
  fits : text.length < kind.limit

namespace StrVal

def bytes (e : Endian) (v : StrVal) : List UInt8 := v.kind.head e v.text.length ++ v.text

theorem bytes_ne_nil (e) (v : StrVal) : v.bytes e ≠ [] := by
  unfold bytes
  simp [v.kind.head_ne_nil e _ v.fits]

theorem read_run {B total : Nat} (hB : 1 ≤ B) {e : Endian} {w : List UInt8} {b : ByteArray}
    (v : StrVal) (h : Unread B e total (v.bytes e ++ w) b) :
    (v.text ≠ [] ∨ w ≠ [] ∨ total % B ≠ 0 →
      ∃ b', v.kind.read.run b = .ok v.text b' ∧ Unread B e total w b') ∧
    (v.text = [] → w = [] → total % B = 0 → ∃ b', v.kind.read.run b = .error .nullDeref b') := by
  have htotal : total ≠ 0 := by
    have hl := h.left
    have hne : 0 < (v.bytes e ++ w).length :=
      length_pos_iff.mpr (by simp [bytes_ne_nil])
    have := h.size
    omega
  rw [bytes, append_assoc] at h
  obtain ⟨b₁, hr, hb₁⟩ := StrKind.read_run hB v.fits h
  rw [hr]
  by_cases ht : v.text = []
  · rw [ht] at hb₁ ⊢
    have hnil := hb₁.read_nil hB
    simp only [nil_append] at hb₁ hnil
    rw [length_nil, hnil]
    constructor
    · rintro (h0 | hw | hz)
      · exact absurd rfl h0
      · exact ⟨b₁, if_pos (.inl hw), hb₁⟩
      · exact ⟨b₁, if_pos (.inr (.inl hz)), hb₁⟩
    · intro _ hw hz
      exact ⟨b₁, if_neg (by simp [hw, hz, htotal])⟩
  · constructor
    · intro _
      exact hb₁.read hB ht
    · intro h0
      exact absurd h0 ht

def allBytes (e : Endian) (vs : List StrVal) : List UInt8 := vs.flatMap (bytes e)

/-- Nothing is read behind the last block: no string, a last string with at
least one byte, or a last block that is not full. -/
def ReadsBack (B : Nat) (e : Endian) (vs : List StrVal) : Prop :=
  vs.getLast?.map text ≠ some [] ∨ (allBytes e vs).length % B ≠ 0
  deriving Decidable

theorem allBytes_cons (e) (v : StrVal) (vs) :
    allBytes e (v :: vs) = v.bytes e ++ allBytes e vs := by
  simp [allBytes]

theorem allBytes_ne_nil (e) (h : vs ≠ []) : allBytes e vs ≠ [] := by
  cases vs with
  | nil => exact absurd rfl h
  | cons v vs => simp [allBytes_cons, bytes_ne_nil]

def readAll (vs : List StrVal) : BA (List (List UInt8)) := vs.mapM fun v => v.kind.read

theorem readAll_cons (v : StrVal) (vs) :
    readAll (v :: vs) = do return (← v.kind.read) :: (← readAll vs) := by
  simp only [readAll, mapM_cons]

theorem readAll_ok (hB : 1 ≤ B) (vs : List StrVal)
    (hgood : vs.getLast?.map text ≠ some [] ∨ total % B ≠ 0)
    (h : Unread B e total (allBytes e vs) b) :
    ∃ b', (readAll vs).run b = .ok (vs.map text) b' ∧ Unread B e total [] b' := by
  induction vs generalizing b with
  | nil => exact ⟨b, rfl, h⟩
  | cons v vs ih =>
    rw [allBytes_cons] at h
    -- only the last string can find the cursor behind the last block
    have hhead : v.text ≠ [] ∨ allBytes e vs ≠ [] ∨ total % B ≠ 0 := by
      rcases hgood with hg | hg
      · cases vs with
        | nil => left; simpa using hg
        | cons u us => exact .inr (.inl (allBytes_ne_nil e (by simp)))
      · exact .inr (.inr hg)
    have htail : vs.getLast?.map text ≠ some [] ∨ total % B ≠ 0 := by
      rcases hgood with hg | hg
      · cases vs with
        | nil => left; simp
        | cons u us => left; rwa [getLast?_cons_cons] at hg
      · exact .inr hg
    obtain ⟨b₁, h1, hb₁⟩ := (v.read_run hB h).1 hhead
    obtain ⟨b₂, h2, hb₂⟩ := ih htail hb₁
    refine ⟨b₂, ?_, hb₂⟩
    rw [readAll_cons, run_bind_ok h1, run_bind_ok h2]
    rfl

theorem readAll_null (hB : 1 ≤ B) (vs : List StrVal)
    (hlast : vs.getLast?.map text = some []) (hfull : total % B = 0)
    (h : Unread B e total (allBytes e vs) b) : ∃ b', (readAll vs).run b = .error .nullDeref b' := by
  induction vs generalizing b with
  | nil => simp at hlast
  | cons v vs ih =>
    rw [allBytes_cons] at h
    cases vs with
    | nil =>
      obtain ⟨b₁, h1⟩ := (v.read_run hB h).2 (by simpa using hlast) rfl hfull
      exact ⟨b₁, by rw [readAll_cons, run_bind_error h1]⟩
    | cons u us =>
      rw [getLast?_cons_cons] at hlast
      obtain ⟨b₁, h1, hb₁⟩ := (v.read_run hB h).1 (.inr (.inl (allBytes_ne_nil e (by simp))))
      obtain ⟨b₂, h2⟩ := ih hlast hb₁
      exact ⟨b₂, by rw [readAll_cons, run_bind_ok h1, run_bind_error h2]⟩

end StrVal

/-- Writes strings to a buffer, goes back to the start and reads them again. -/
def strRoundtrip (little : Bool) (vs : List StrVal) : BA (List (List UInt8) × Nat) := do
  setIsLittleEndian little
  vs.forM fun v => v.kind.write v.text
  setPosition 0
  let out ← StrVal.readAll vs
  return (out, (← get).getReadSize)

/-- The strings come back, with every byte consumed, exactly when the readers
stay within the blocks. -/
theorem strings_roundtrip_iff (B : Nat) (hB : 1 ≤ B) (heap : Nat → UInt8) (little : Bool)
    (vs : List StrVal) :
    (∃ b, (strRoundtrip little vs).run (ByteArray.new B heap) = .ok (vs.map StrVal.text, 0) b) ↔
      StrVal.ReadsBack B (if little then .little else .big) vs := by
  obtain ⟨b₁, h1, hb₁⟩ := (atEnd_new hB heap).setIsLittleEndian little
  obtain ⟨b₂, h2, hb₂⟩ := appends_forM
    (fun v : StrVal => v.kind.appends_write (if little then .little else .big) v.text v.fits)
    vs B _ b₁ hB hb₁
  obtain ⟨b₃, h3, hb₃⟩ := hb₂.rewind hB
  rw [strRoundtrip, run_bind_ok h1, run_bind_ok h2, run_bind_ok h3]
  rw [nil_append] at hb₃
  constructor
  · rintro ⟨b, hrun⟩
    by_contra hbad
    simp only [StrVal.ReadsBack, not_or, not_not] at hbad
    obtain ⟨b₄, h4⟩ := StrVal.readAll_null hB vs hbad.1 hbad.2 hb₃
    rw [run_bind_error h4] at hrun
    cases hrun
  · intro hgood
    obtain ⟨b₄, h4, hb₄⟩ := StrVal.readAll_ok hB vs hgood hb₃
    have hleft : b₄.getReadSize = 0 := by rw [hb₄.inv.getReadSize_eq, hb₄.left]; rfl
    refine ⟨b₄, ?_⟩
    rw [run_bind_ok h4]
    simp [hleft]

theorem strings_roundtrip_iff_mixed :
    ∃ b, (strRoundtrip true [⟨.f32, [], by decide⟩, ⟨.vint, [104, 105], by decide⟩,
      ⟨.f16, [], by decide⟩]).run (ByteArray.new 4 fun _ => 0) = .ok ([[], [104, 105], []], 0) b :=
  (strings_roundtrip_iff 4 (by decide) (fun _ => 0) true [⟨.f32, [], by decide⟩,
    ⟨.vint, [104, 105], by decide⟩, ⟨.f16, [], by decide⟩]).mpr (by decide)

/-- An empty string whose length fills the only block: the reader stands behind
the block and dereferences a null pointer. -/
theorem strings_roundtrip_null :
    (∃ b, (strRoundtrip false [⟨.f16, [], by decide⟩]).run (ByteArray.new 2 fun _ => 0) =
      .error .nullDeref b) ∧
    ¬ ∃ b, (strRoundtrip false [⟨.f16, [], by decide⟩]).run (ByteArray.new 2 fun _ => 0) =
      .ok ([[]], 0) b := by
  have h : ∃ b, (strRoundtrip false [⟨.f16, [], by decide⟩]).run (ByteArray.new 2 fun _ => 0) =
      .error .nullDeref b := ⟨_, rfl⟩
  refine ⟨h, ?_⟩
  rintro ⟨b, hok⟩
  obtain ⟨b', herr⟩ := h
  rw [herr] at hok
  cases hok

end Helens
