import Helens.BitmapChanges
import Helens.CodecRoundtrip
import Helens.Lib.PlainData

/-! `writeTo` and `readFrom` of bitmaps. `readFrom` assigns the fields one by one as it reads them
and frees the words before it has read the new ones, so a stream that ends early leaves a mixture
behind; what it reads is not checked. -/

namespace Helens.Ds.Bitmap

open Lib.Runs Lib.RangeLoops Lib.RunLength Lib.StateError Lib.Words Lib.PlainData List
open Helens.ByteArray (Unread AtEnd Takes Appends fixedBytes byteOrder)

/-! ## The code -/

/-- The object in memory. Words that were allocated and not written are unknown; without an
array there are none. -/
structure Object where
  compressed : Bool
  size : Nat
  dataSize : Nat
  data : List (Option Word)
  deriving DecidableEq

def object (b : Bitmap) : Object := ⟨b.compressed, b.size, b.data.length, b.data.map some⟩

def words : Pod Word := .bits 2 (by decide)

def writeTo (b : Bitmap) : BA Unit := do
  ByteArray.writeFuint8 (if b.compressed then 1 else 0)
  ByteArray.writeFuint32 (UInt32.ofNat b.size)
  ByteArray.writeFuint32 (UInt32.ofNat b.data.length)
  ByteArray.write (words.encodeAll b.data)

/-- Calls on the object that read from a stream. An exception leaves both as they are when it is
thrown. -/
abbrev Reading := EStateM Fault (Helens.ByteArray × Object)

def input {α : Type} (x : BA α) : Reading α := fun s =>
  match x.run s.1 with
  | .ok a ba => .ok a (ba, s.2)
  | .error e ba => .error e (ba, s.2)

def assign (f : Object → Object) : Reading Unit := modify fun s => (s.1, f s.2)

def malloc (granted : Nat → Bool) (n : Nat) : List (Option Word) :=
  if granted (2 * n) then List.replicate n none else []

/-- The words, behind the three fields. Without an array there is nowhere to copy them to. -/
def readWords (granted : Nat → Bool) (dataSize : UInt32) : Reading Unit := do
  let bytes ← input (ByteArray.read (2 * dataSize.toNat))
  if dataSize.toNat ≠ 0 ∧ granted (2 * dataSize.toNat) = false then throw .nullDeref
  assign fun o => { o with data := (words.decodeAll dataSize.toNat bytes).map some }

def readFields (granted : Nat → Bool) : Reading Unit := do
  let compress ← input ByteArray.readFuint8
  assign fun o => { o with compressed := compress != 0 }
  let size ← input ByteArray.readFuint32
  assign fun o => { o with size := size.toNat }
  let dataSize ← input ByteArray.readFuint32
  assign fun o => { o with dataSize := dataSize.toNat }
  assign fun o => { o with data := malloc granted dataSize.toNat }
  readWords granted dataSize

/-- `catch(...)` catches the exceptions; the other faults are no exceptions. -/
def readFrom (granted : Nat → Bool) : Reading Bool := fun s =>
  match (readFields granted).run s with
  | .ok () s => .ok true s
  | .error (.outOfRange _) s => .ok false s
  | .error e s => .error e s

/-! ## Well-formed bitmaps -/

/-- The words that a group of compressed ones stands for, on top of `n`. -/
def coverStep (n : Nat) (group : List Word) : Except BitmapError Nat := do
  match ← piece group with
  | .run _ count => if count % 14 = 0 then .ok (n + count / 14) else .error .assertion
  | .literal _ => .ok (n + 1)

def covered (code : List Word) : Except BitmapError Nat :=
  (code.splitBy joins).foldlM coverStep 0

/-- The words are those of the size, or stand for that many. -/
def WellFormed (b : Bitmap) : Prop :=
  if b.compressed then covered b.data = .ok (wordsFor b.size) else b.data.length = wordsFor b.size
  deriving Decidable

def Object.Valid (o : Object) : Prop := ∃ b, WellFormed b ∧ o = object b

/-! ### What a well-formed code is good for -/

theorem coverStep_ok {n m : Nat} (h : coverStep n g = .ok m) :
    (∃ v k, piece g = .ok (.run v (14 * k)) ∧ m = n + k) ∨
      (∃ w, piece g = .ok (.literal w) ∧ m = n + 1) := by
  unfold coverStep at h
  cases hpiece : piece g with
  | error e =>
    rw [hpiece] at h
    cases h
  | ok p =>
    rw [hpiece] at h
    cases p with
    | run v count =>
      dsimp only [bind, Except.bind] at h
      split at h
      · next hcount =>
        have hmul : count = 14 * (count / 14) := by omega
        refine .inl ⟨v, count / 14, ?_, (Except.ok.inj h).symm⟩
        rw [← hmul]
      · cases h
    | literal w => exact .inr ⟨w, rfl, (Except.ok.inj h).symm⟩

theorem le_of_coverSteps {gs : List (List Word)} {n m : Nat}
    (h : gs.foldlM coverStep n = .ok m) : n ≤ m := by
  induction gs generalizing n with
  | nil => exact Nat.le_of_eq (Except.ok.inj h)
  | cons g gs ih =>
    rw [foldlM_cons] at h
    cases hstep : coverStep n g with
    | error e =>
      rw [hstep] at h
      cases h
    | ok k =>
      rw [hstep] at h
      have hle := ih h
      rcases coverStep_ok hstep with ⟨_, _, _, rfl⟩ | ⟨_, _, rfl⟩
      · omega
      · omega

/-- A group that covers words up to `m` is laid over them. -/
theorem overlayStep_covered {g data : List Word} {n m : Nat} (h : coverStep n g = .ok m)
    (hroom : m ≤ data.length) (hfit : 14 * m < 2 ^ 32) :
    ∃ data', overlayStep (fun _ => true) (fun _ w => w) (14 * n, data) g = .ok (14 * m, data') ∧
      data'.length = data.length := by
  unfold overlayStep
  rcases coverStep_ok h with ⟨v, k, hpiece, rfl⟩ | ⟨w, hpiece, rfl⟩
  · rw [hpiece]
    dsimp only [bind, Except.bind]
    rw [if_pos rfl, setRange_eq v hroom hfit, ← Nat.mul_add, Nat.mod_eq_of_lt hfit]
    exact ⟨_, rfl, length_mapRange⟩
  · have hpos : 14 * n / 14 = n := by omega
    have hlt : n < data.length := by omega
    have hnext : (14 * n + 14) % 2 ^ 32 = 14 * (n + 1) := Nat.mod_eq_of_lt hfit
    rw [hpiece]
    dsimp only [bind, Except.bind]
    rw [hpos, read_lt hlt]
    dsimp only
    rw [write_eq hlt, hnext]
    exact ⟨_, rfl, length_set⟩

theorem overlaySteps_covered {gs : List (List Word)} {n m : Nat} {data : List Word}
    (h : gs.foldlM coverStep n = .ok m) (hlen : data.length = m) (hfit : 14 * m < 2 ^ 32) :
    Post (fun st => st.2.length = m) Never
      (gs.foldlM (overlayStep (fun _ => true) fun _ w => w) (14 * n, data)) := by
  induction gs generalizing n data with
  | nil => exact hlen
  | cons g gs ih =>
    rw [foldlM_cons] at h
    cases hstep : coverStep n g with
    | error e =>
      rw [hstep] at h
      cases h
    | ok k =>
      rw [hstep] at h
      have hk : k ≤ m := le_of_coverSteps h
      have hroom : k ≤ data.length := by omega
      obtain ⟨data', hover, hdata'⟩ := overlayStep_covered hstep hroom (by omega)
      rw [foldlM_cons, hover]
      exact ih h (hdata'.trans hlen)

theorem WellFormed.uncompress_post {c : Bitmap} (h : WellFormed c)
    (hfit : 14 * wordsFor c.size < 2 ^ 32) :
    Post (fun b => Sized b ∧ b.size = c.size) Never c.uncompress := by
  unfold WellFormed at h
  unfold uncompress
  cases hc : c.compressed with
  | false =>
    rw [hc] at h
    exact ⟨⟨hc, h⟩, rfl⟩
  | true =>
    rw [hc, if_pos rfl, covered] at h
    have hlen : (new c.size 0#8).data.length = wordsFor c.size := length_replicate
    obtain ⟨st, hst, hlen'⟩ := (overlaySteps_covered h hlen hfit).exists_ok
    rw [Nat.mul_zero] at hst
    unfold overlay
    rw [hst]
    exact ⟨⟨rfl, hlen'⟩, rfl⟩

theorem uncompress_post_run :
    Post (fun b => Sized b ∧ b.size = 84) Never (uncompress ⟨true, 84, [3, runWord true 70]⟩) :=
  WellFormed.uncompress_post (c := ⟨true, 84, [3, runWord true 70]⟩) (by decide) (by decide)

/-! ## What is read -/

def field (e : Endian) (x : List UInt8) : UInt32 :=
  UInt32.ofNat (ofLeBytes (if e = byteOrder then x else x.reverse))

def flagField (w : List UInt8) : Bool := w.headD 0 != 0

def sizeField (e : Endian) (w : List UInt8) : Nat := (field e ((w.drop 1).take 4)).toNat

def countField (e : Endian) (w : List UInt8) : Nat := (field e ((w.drop 5).take 4)).toNat

def spelled (e : Endian) (w : List UInt8) : Bitmap :=
  ⟨flagField w, sizeField e w,
    words.decodeAll (countField e w) ((w.drop 9).take (2 * countField e w))⟩

/-- What the call makes of the bytes `w`, the last ones of a buffer of `total` bytes in blocks of
`B` bytes. -/
def outcome (granted : Nat → Bool) (B total : Nat) (e : Endian) (o : Object) (w : List UInt8) :
    Except Fault (Bool × Object) :=
  if w.length < 1 then .ok (false, o)
  else if w.length < 5 then .ok (false, { o with compressed := flagField w })
  else if w.length < 9 then .ok (false, { o with compressed := flagField w, size := sizeField e w })
  else if w.length < 9 + 2 * countField e w then
    .ok (false, ⟨flagField w, sizeField e w, countField e w, malloc granted (countField e w)⟩)
  else if countField e w = 0 then
    if 9 < w.length ∨ total % B ≠ 0 then .ok (true, object (spelled e w)) else .error .nullDeref
  else if granted (2 * countField e w) then .ok (true, object (spelled e w))
  else .error .nullDeref

def returned : EStateM.Result Fault (ByteArray × Object) Bool → Except Fault (Bool × Object)
  | .ok v s => .ok (v, s.2)
  | .error e _ => .error e

theorem fixedBytes_field (e) (hx : x.length = 4) : fixedBytes e 4 (field e x).toNat = x := by
  have hvalue : ∀ y : List UInt8, y.length = 4 →
      leBytes 4 (UInt32.ofNat (ofLeBytes y)).toNat = y := by
    intro y hy
    have hlt : ofLeBytes y < 2 ^ 32 := by
      have h := ofLeBytes_lt y
      rwa [hy] at h
    rw [UInt32.toNat_ofNat_of_lt' hlt]
    have h := leBytes_ofLeBytes y
    rwa [hy] at h
  unfold fixedBytes field
  split
  · exact hvalue x hx
  · rw [hvalue x.reverse (by rw [length_reverse, hx]), reverse_reverse]

theorem takes_field (e) (hx : x.length = 4) : Takes e ByteArray.readFuint32 x (field e x) := by
  have h := ByteArray.takes_readFuint32 e (field e x)
  rwa [fixedBytes_field e hx] at h

section

variable {B total : Nat} {e : Endian} {ba ba' : ByteArray} {α : Type}

theorem input_ok (h : x.run ba = .ok a ba') (o) : (input x).run (ba, o) = .ok a (ba', o) := by
  unfold EStateM.run at h ⊢
  unfold input EStateM.run
  rw [h]

theorem input_error (h : x.run ba = .error err ba') (o) :
    (input x).run (ba, o) = .error err (ba', o) := by
  unfold EStateM.run at h ⊢
  unfold input EStateM.run
  rw [h]

theorem run_assign_bind (f : Object → Object) (y : Unit → Reading α) (ba o) : (assign f >>= y).run
    (ba, o) = (y ()).run (ba, f o) := rfl

def notEnough : Fault := .outOfRange "not enough len"

theorem read_short (h : Unread B e total w ba) {n : Nat} (hn : w.length < n) :
    (ByteArray.read n).run ba = .error notEnough ba := by
  apply h.inv.read_throw
  rw [h.left]
  exact hn

theorem readFuint8_short (h : Unread B e total w ba) (hw : w.length < 1) :
    ByteArray.readFuint8.run ba = .error notEnough ba :=
  run_bind_error (read_short h hw) _

theorem readFuint32_short (h : Unread B e total w ba) (hw : w.length < 4) :
    ByteArray.readFuint32.run ba = .error notEnough ba := by
  have hfixed : (ByteArray.readFixed 4).run ba = .error notEnough ba :=
    run_bind_error (read_short h hw) _
  exact run_bind_error hfixed _

theorem exists_field (e) (hB : 1 ≤ B) (h : Unread B e total w ba) (hw : 4 ≤ w.length) :
    ∃ ba', ByteArray.readFuint32.run ba = .ok (field e (w.take 4)) ba' ∧
      Unread B e total (w.drop 4) ba' := by
  have hx : (w.take 4).length = 4 := by
    rw [length_take]
    omega
  have hsplit : Unread B e total (w.take 4 ++ w.drop 4) ba := by rwa [take_append_drop]
  exact takes_field e hx B total _ ba hB hsplit

theorem exists_flag (e) (hB : 1 ≤ B) (h : Unread B e total w ba) (hw : 1 ≤ w.length) :
    ∃ ba', ByteArray.readFuint8.run ba = .ok (w.headD 0) ba' ∧ Unread B e total (w.drop 1) ba' := by
  cases w with
  | nil => cases hw
  | cons v w => exact ByteArray.takes_readFuint8 e v B total w ba hB h

end

section

variable {granted : Nat → Bool} {B total : Nat} {e : Endian} {ba : ByteArray} {o : Object}

theorem readFields_fields {size n : UInt32} (h1 : ByteArray.readFuint8.run ba = .ok v ba1)
    (h2 : ByteArray.readFuint32.run ba1 = .ok size ba2)
    (h3 : ByteArray.readFuint32.run ba2 = .ok n ba3) :
    (readFields granted).run (ba, o) =
      (readWords granted n).run (ba3, ⟨v != 0, size.toNat, n.toNat, malloc granted n.toNat⟩) := by
  rw [readFields, run_bind_ok (input_ok h1 o), run_assign_bind, run_bind_ok (input_ok h2 _),
    run_assign_bind, run_bind_ok (input_ok h3 _), run_assign_bind, run_assign_bind]

theorem exists_bytes (hB : 1 ≤ B) (h : Unread B e total w ba) (hk : 0 < k)
    (hw : k ≤ w.length) : ∃ ba', (ByteArray.read k).run ba = .ok (w.take k) ba' := by
  have hlen : (w.take k).length = k := length_take_of_le hw
  have hne : w.take k ≠ [] := ne_nil_of_length_pos (by omega)
  have hsplit : Unread B e total (w.take k ++ w.drop k) ba := by rwa [take_append_drop]
  obtain ⟨ba', hread, -⟩ := hsplit.read hB hne
  rw [hlen] at hread
  exact ⟨ba', hread⟩

variable {n : UInt32}

theorem readWords_short (h : Unread B e total w ba) (hw : w.length < 2 * n.toNat) :
    (readWords granted n).run (ba, o) = .error notEnough (ba, o) :=
  run_bind_error (input_error (read_short h hw) o) _

theorem readWords_some (hB : 1 ≤ B) (h : Unread B e total w ba) (hn : n.toNat ≠ 0)
    (hw : 2 * n.toNat ≤ w.length) (hgranted : granted (2 * n.toNat) = true) :
    ∃ ba', (readWords granted n).run (ba, o) = .ok () (ba',
      { o with data := (words.decodeAll n.toNat (w.take (2 * n.toNat))).map some }) := by
  have hpos : 0 < 2 * n.toNat := by omega
  obtain ⟨ba', hread⟩ := exists_bytes hB h hpos hw
  refine ⟨ba', ?_⟩
  rw [readWords, run_bind_ok (input_ok hread o), hgranted,
    if_neg (fun hbad => absurd hbad.2 (by decide))]
  rfl

theorem readWords_refused (hB : 1 ≤ B) (h : Unread B e total w ba) (hn : n.toNat ≠ 0)
    (hw : 2 * n.toNat ≤ w.length) (hgranted : ¬ granted (2 * n.toNat) = true) :
    ∃ ba', (readWords granted n).run (ba, o) = .error .nullDeref (ba', o) := by
  have hpos : 0 < 2 * n.toNat := by omega
  obtain ⟨ba', hread⟩ := exists_bytes hB h hpos hw
  refine ⟨ba', ?_⟩
  rw [readWords, run_bind_ok (input_ok hread o), if_pos ⟨hn, Bool.eq_false_iff.mpr hgranted⟩]
  rfl

theorem readWords_none (hB : 1 ≤ B) (h : Unread B e total w ba) (hn : n.toNat = 0)
    (htotal : total ≠ 0) :
    (readWords granted n).run (ba, o) =
      if w ≠ [] ∨ total % B ≠ 0 then .ok () (ba, { o with data := [] })
      else .error .nullDeref (ba, o) := by
  have hread := h.read_nil hB
  rw [readWords, hn, Nat.mul_zero]
  by_cases hroom : w ≠ [] ∨ total % B ≠ 0
  · rw [if_pos (hroom.imp_right .inl)] at hread
    rw [run_bind_ok (input_ok hread o), if_pos hroom, if_neg (fun hbad => hbad.1 rfl)]
    rfl
  · have hnone : ¬ (w ≠ [] ∨ total % B ≠ 0 ∨ total = 0) := by
      rintro (hw | hrest | hzero)
      · exact hroom (.inl hw)
      · exact hroom (.inr hrest)
      · exact htotal hzero
    rw [if_neg hnone] at hread
    rw [run_bind_error (input_error hread o), if_neg hroom]

theorem readFrom_caught (h : (readFields granted).run s = .error notEnough t) :
    (readFrom granted).run s = .ok false t := by
  unfold EStateM.run readFrom
  rw [h]
  rfl

theorem readFrom_done (h : (readFields granted).run s = .ok () t) :
    (readFrom granted).run s = .ok true t := by
  unfold EStateM.run readFrom
  rw [h]

theorem readFrom_stopped (h : (readFields granted).run s = .error .nullDeref t) :
    (readFrom granted).run s = .error .nullDeref t := by
  unfold EStateM.run readFrom
  rw [h]

theorem readFrom_words (hB : 1 ≤ B)
    (h : Unread B e total (w.drop 9) ba) (hw : 9 ≤ w.length) (htotal : total ≠ 0)
    (hfields : (readFields granted).run s = (readWords granted (field e ((w.drop 5).take 4))).run
      (ba, ⟨flagField w, sizeField e w, countField e w, malloc granted (countField e w)⟩)) :
    returned ((readFrom granted).run s) =
      if w.length < 9 + 2 * countField e w then
        .ok (false, ⟨flagField w, sizeField e w, countField e w, malloc granted (countField e w)⟩)
      else if countField e w = 0 then
        if 9 < w.length ∨ total % B ≠ 0 then .ok (true, object (spelled e w))
        else .error .nullDeref
      else if granted (2 * countField e w) then .ok (true, object (spelled e w))
      else .error .nullDeref := by
  have hlen : (w.drop 9).length = w.length - 9 := length_drop
  split
  · next hshort =>
    rw [readWords_short h (show (w.drop 9).length < 2 * countField e w by omega)] at hfields
    rw [readFrom_caught hfields]
    rfl
  · next hlong =>
    split
    · next hzero =>
      have hmore : w.drop 9 ≠ [] ↔ 9 < w.length := by
        rw [← length_pos_iff, hlen]
        omega
      rw [readWords_none hB h hzero htotal, if_congr (or_congr_left hmore) rfl rfl] at hfields
      split
      · next hroom =>
        rw [if_pos hroom] at hfields
        rw [readFrom_done hfields, object, spelled, hzero]
        rfl
      · next hroom =>
        rw [if_neg hroom] at hfields
        rw [readFrom_stopped hfields]
        rfl
    · next hzero =>
      have hroom : 2 * countField e w ≤ (w.drop 9).length := by omega
      split
      · next hgranted =>
        obtain ⟨ba', hwords⟩ := readWords_some hB h hzero hroom hgranted
        rw [hwords] at hfields
        rw [readFrom_done hfields, object, spelled, words.length_decodeAll]
        rfl
      · next hgranted =>
        obtain ⟨ba', hwords⟩ := readWords_refused hB h hzero hroom hgranted
        rw [hwords] at hfields
        rw [readFrom_stopped hfields]
        rfl

theorem readFrom_eq (hB : 1 ≤ B) (h : Unread B e total w ba) :
    returned ((readFrom granted).run (ba, o)) = outcome granted B total e o w := by
  unfold outcome
  split
  · next hw =>
    have hfields : (readFields granted).run (ba, o) = .error notEnough (ba, o) :=
      run_bind_error (input_error (readFuint8_short h hw) o) _
    rw [readFrom_caught hfields]
    rfl
  · next hw1 =>
    obtain ⟨ba1, hflag, h1⟩ := exists_flag e hB h (by omega)
    split
    · next hw =>
      have hshort : (w.drop 1).length < 4 := by
        rw [length_drop]
        omega
      have hfields : (readFields granted).run (ba, o) =
          .error notEnough (ba1, { o with compressed := flagField w }) := by
        rw [readFields, run_bind_ok (input_ok hflag o), run_assign_bind]
        exact run_bind_error (input_error (readFuint32_short h1 hshort) _) _
      rw [readFrom_caught hfields]
      rfl
    · next hw5 =>
      have hlen1 : 4 ≤ (w.drop 1).length := by
        rw [length_drop]
        omega
      obtain ⟨ba2, hsize, h2⟩ := exists_field e hB h1 hlen1
      rw [drop_drop] at h2
      split
      · next hw =>
        have hshort : (w.drop (1 + 4)).length < 4 := by
          rw [length_drop]
          omega
        have hfields : (readFields granted).run (ba, o) = .error notEnough
            (ba2, { o with compressed := flagField w, size := sizeField e w }) := by
          rw [readFields, run_bind_ok (input_ok hflag o), run_assign_bind,
            run_bind_ok (input_ok hsize _), run_assign_bind]
          exact run_bind_error (input_error (readFuint32_short h2 hshort) _) _
        rw [readFrom_caught hfields]
        rfl
      · next hw9 =>
        have hlen2 : 4 ≤ (w.drop (1 + 4)).length := by
          rw [length_drop]
          omega
        obtain ⟨ba3, hcount, h3⟩ := exists_field e hB h2 hlen2
        rw [drop_drop] at h3
        have htotal : total ≠ 0 := by
          have hleft := h.left
          rw [h.size] at hleft
          omega
        exact readFrom_words hB h3 (by omega) htotal (readFields_fields hflag hsize hcount)

end

/-! ## Where the object stays valid -/

theorem object_injective {b c : Bitmap} (h : object b = object c) : b = c := by
  obtain ⟨compressed, size, data⟩ := b
  obtain ⟨compressed', size', data'⟩ := c
  simp only [object, Object.mk.injEq] at h
  obtain ⟨rfl, rfl, -, hdata⟩ := h
  rw [(map_injective_iff.mpr (Option.some_injective Word)) hdata]

theorem valid_object {b : Bitmap} : (object b).Valid ↔ WellFormed b := by
  constructor
  · rintro ⟨c, hc, hbc⟩
    rwa [object_injective hbc]
  · exact fun h => ⟨b, h, rfl⟩

theorem not_valid_malloc (granted : Nat → Bool) (compressed size) {n : Nat}
    (hn : n ≠ 0) : ¬ Object.Valid ⟨compressed, size, n, malloc granted n⟩ := by
  rintro ⟨b, -, hb⟩
  simp only [object, Object.mk.injEq] at hb
  obtain ⟨-, -, hlen, hdata⟩ := hb
  unfold malloc at hdata
  split at hdata
  · have hmem : (none : Option Word) ∈ b.data.map some := by
      rw [← hdata]
      exact mem_replicate.mpr ⟨hn, rfl⟩
    obtain ⟨w, -, hw⟩ := mem_map.mp hmem
    cases hw
  · have hnil := congrArg List.length hdata
    rw [length_map, length_nil] at hnil
    omega

/-- The streams that leave a well-formed bitmap, and the old one where they are too short. -/
def Readable (granted : Nat → Bool) (B total : Nat) (e : Endian) (b : Bitmap) (w : List UInt8) :
    Prop :=
  if w.length < 1 then True
  else if w.length < 5 then flagField w = b.compressed
  else if w.length < 9 then flagField w = b.compressed ∧ sizeField e w = b.size
  else 9 + 2 * countField e w ≤ w.length ∧ (if countField e w = 0 then 9 < w.length ∨ total % B ≠ 0
      else granted (2 * countField e w) = true) ∧
    WellFormed (spelled e w)
  deriving Decidable

def Kept (b : Bitmap) (r : Bool × Object) : Prop := r.2.Valid ∧ (r.1 = false → r.2 = object b)

theorem kept_false {b : Bitmap} (hb : WellFormed b) (o) : Kept b (false, o) ↔ o = object b := by
  constructor
  · exact fun h => h.2 rfl
  · rintro rfl
    exact ⟨valid_object.mpr hb, fun _ => rfl⟩

theorem kept_true {b c : Bitmap} : Kept b (true, object c) ↔ WellFormed c := by
  constructor
  · exact fun h => valid_object.mp h.1
  · exact fun h => ⟨valid_object.mpr h, nofun⟩

/-- `readFrom` on a well-formed bitmap leaves a valid object, and the old one if it returns false,
exactly for the readable streams. -/
theorem readFrom_keeps_iff (granted : Nat → Bool) (B total : Nat) (hB : 1 ≤ B) (e : Endian)
    (w : List UInt8) (ba : ByteArray) (h : Unread B e total w ba) (b : Bitmap)
    (hb : WellFormed b) :
    Post (Kept b) (fun _ => False) (returned ((readFrom granted).run (ba, object b))) ↔
      Readable granted B total e b w := by
  rw [readFrom_eq hB h]
  unfold outcome Readable
  split
  · exact iff_of_true ((kept_false hb _).mpr rfl) trivial
  split
  · refine (kept_false hb _).trans ?_
    simp [object]
  split
  · refine (kept_false hb _).trans ?_
    simp [object]
  split
  · next hshort =>
    refine iff_of_false ?_ fun hreadable => absurd hshort (Nat.not_lt.mpr hreadable.1)
    rintro ⟨hvalid, -⟩
    exact not_valid_malloc granted _ _ (by omega) hvalid
  next hlong =>
  split
  · split
    · next hroom => exact kept_true.trans (by simp [hroom, Nat.not_lt.mp hlong])
    · next hroom => exact iff_of_false id fun hreadable => hroom hreadable.2.1
  · split
    · next hgranted => exact kept_true.trans (by simp [hgranted, Nat.not_lt.mp hlong])
    · next hgranted => exact iff_of_false id fun hreadable => hgranted hreadable.2.1

/-- A new buffer that was given the bytes `w`, at its start. -/
def loaded (B : Nat) (w : List UInt8) : ByteArray :=
  stateOf ((do ByteArray.write w; ByteArray.setPosition 0 : BA Unit).run
    (ByteArray.new B fun _ => 0))

theorem unread_loaded {B : Nat} (hB : 1 ≤ B) (w : List UInt8) :
    Unread B .big w.length w (loaded B w) := by
  obtain ⟨ba, hwrite, hend⟩ := (ByteArray.atEnd_new hB fun _ => 0).write hB w
  obtain ⟨ba', hrewind, hunread⟩ := hend.rewind hB
  rw [loaded, run_bind_ok hwrite, hrewind]
  exact hunread

theorem readFrom_keeps_three :
    Post (Kept (new 0 0#8)) (fun _ => False) (returned ((readFrom fun _ => true).run
      (loaded 16 [0, 0, 0, 0, 3, 0, 0, 0, 1, 7, 0], object (new 0 0#8)))) := by
  have hB : 1 ≤ 16 := by decide
  have hiff := readFrom_keeps_iff (fun _ => true) 16 _ hB .big _ _
    (unread_loaded hB [0, 0, 0, 0, 3, 0, 0, 0, 1, 7, 0]) (new 0 0#8) (by decide)
  exact hiff.mpr (by decide +kernel)

/-- Streams that end behind the first field or before the words leave mixtures of old and new, and
one without words is read for fourteen members. -/
theorem readFrom_leaves_mixtures :
    returned ((readFrom fun _ => true).run (loaded 16 [1], object (new 14 0#8))) =
      .ok (false, ⟨true, 14, 1, [some 0#16]⟩) ∧
    returned ((readFrom fun _ => true).run
      (loaded 16 [0, 0, 0, 0, 14, 0, 0, 0, 1], object (new 14 0#8))) =
      .ok (false, ⟨false, 14, 1, [none]⟩) ∧
    returned ((readFrom fun _ => true).run
      (loaded 16 [0, 0, 0, 0, 14, 0, 0, 0, 0], object (new 14 0#8))) =
      .ok (true, object ⟨false, 14, []⟩) ∧
    ¬ WellFormed ⟨false, 14, []⟩ := by
  decide +kernel

/-! ## Round trips -/

def image (e : Endian) (b : Bitmap) : List UInt8 :=
  (if b.compressed then 1 else 0) ::
    (fixedBytes e 4 b.size ++ (fixedBytes e 4 b.data.length ++ words.encodeAll b.data))

section

variable {b : Bitmap} (hsize : b.size < 2 ^ 32) (hcount : b.data.length < 2 ^ 32)

include hsize hcount in
theorem appends_writeTo (e) : Appends e (writeTo b) (image e b) := by
  have hflag : Appends e (ByteArray.writeFuint8 (if b.compressed then 1 else 0))
      [if b.compressed then 1 else 0] := by
    cases b.compressed
    · exact ByteArray.appends_write e _
    · exact ByteArray.appends_write e _
  have hfield : ∀ n < 2 ^ 32, Appends e (ByteArray.writeFuint32 (UInt32.ofNat n))
      (fixedBytes e 4 n) := by
    intro n hn
    apply ByteArray.appends_of_run
    intro ba hba
    rw [ByteArray.writeFuint32, ByteArray.writeFixed_run, UInt32.toNat_ofNat_of_lt' hn, hba]
  exact hflag.bind ((hfield _ hsize).bind ((hfield _ hcount).bind (ByteArray.appends_write e _)))

theorem field_fixedBytes (e) {n : Nat} (hn : n < 2 ^ 32) :
    (field e (fixedBytes e 4 n)).toNat = n := by
  have hvalue : (UInt32.ofNat (ofLeBytes (leBytes 4 n))).toNat = n := by
    have hmod : n % 256 ^ 4 = n := Nat.mod_eq_of_lt hn
    rw [ofLeBytes_leBytes, hmod, UInt32.toNat_ofNat_of_lt' hn]
  unfold field fixedBytes
  by_cases he : e = byteOrder
  · rw [if_pos he, if_pos he, hvalue]
  · rw [if_neg he, if_neg he, reverse_reverse, hvalue]

theorem length_image (e) : (image e b).length = 9 + 2 * b.data.length := by
  have hwords : (words.encodeAll b.data).length = b.data.length * 2 := words.length_encodeAll _
  rw [image, length_cons, length_append, length_append,
    ByteArray.length_fixedBytes, ByteArray.length_fixedBytes, hwords]
  omega

include hsize in
theorem sizeField_image (e) : sizeField e (image e b) = b.size := by
  have htake : ((image e b).drop 1).take 4 = fixedBytes e 4 b.size :=
    take_left' (ByteArray.length_fixedBytes e 4 b.size)
  rw [sizeField, htake, field_fixedBytes e hsize]

theorem drop_image (e) : (image e b).drop 5 =
    fixedBytes e 4 b.data.length ++ words.encodeAll b.data :=
  drop_left' (ByteArray.length_fixedBytes e 4 b.size)

include hcount in
theorem countField_image (e) : countField e (image e b) = b.data.length := by
  rw [countField, drop_image, take_left' (ByteArray.length_fixedBytes e 4 _),
    field_fixedBytes e hcount]

include hsize hcount in
theorem spelled_image (e) : spelled e (image e b) = b := by
  have hwords : (words.encodeAll b.data).length = 2 * b.data.length := by
    rw [words.length_encodeAll, Nat.mul_comm]
    rfl
  have hdrop : (image e b).drop 9 = words.encodeAll b.data := by
    have hmore : (image e b).drop 9 = ((image e b).drop 5).drop 4 := by rw [drop_drop]
    rw [hmore, drop_image, drop_left' (ByteArray.length_fixedBytes e 4 _)]
  have hflag : flagField (image e b) = b.compressed := by
    rw [flagField, image, headD_cons]
    cases b.compressed <;> rfl
  rw [spelled, hflag, sizeField_image hsize, countField_image hcount, hdrop, ← hwords,
    take_length, words.decodeAll_encodeAll]

include hsize hcount in
/-- What `writeTo` wrote behind the cursor of an empty buffer, `readFrom` reads back, whatever the
object held. -/
theorem readFrom_writeTo {granted : Nat → Bool} {B : Nat} {e : Endian} {ba : ByteArray}
    (hB : 1 ≤ B) (hba : AtEnd B e [] ba) (hgranted : granted (2 * b.data.length) = true)
    (hroom : b.data ≠ [] ∨ 9 % B ≠ 0) (o) :
    ∃ ba', (do writeTo b; ByteArray.setPosition 0 : BA Unit).run ba = .ok () ba' ∧
      returned ((readFrom granted).run (ba', o)) = .ok (true, object b) := by
  obtain ⟨ba1, hwrite, hend⟩ := appends_writeTo hsize hcount e B [] ba hB hba
  obtain ⟨ba2, hrewind, hunread⟩ := hend.rewind hB
  refine ⟨ba2, by rw [run_bind_ok hwrite, hrewind], ?_⟩
  rw [readFrom_eq hB hunread]
  unfold outcome
  rw [nil_append, countField_image hcount, spelled_image hsize hcount, length_image,
    if_neg (by omega), if_neg (by omega), if_neg (by omega), if_neg (by omega)]
  split
  · next hnone =>
    have hnil : b.data = [] := length_eq_zero_iff.mp hnone
    have hrest : 9 % B ≠ 0 := hroom.resolve_left fun hne => hne hnil
    rw [hnone, if_pos (.inr hrest)]
  · rfl

theorem readFrom_writeTo_two :
    ∃ ba, (do writeTo ⟨true, 20, [3, 5]⟩; ByteArray.setPosition 0 : BA Unit).run
        (.new 2 fun _ => 0) = .ok () ba ∧
      returned ((readFrom fun _ => true).run (ba, object ⟨true, 0, []⟩)) =
        .ok (true, object ⟨true, 20, [3, 5]⟩) :=
  readFrom_writeTo (by decide) (by decide) (by decide) (ByteArray.atEnd_new (by decide) _) rfl
    (.inl (by decide)) _

end

end Helens.Ds.Bitmap
