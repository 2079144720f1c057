import Helens.BitmapRuns

/-! Bitmaps made by the constructor, both kinds of `set` and `operator~`, and what `operator~`,
`operator==` and `resize` make of them. The comparison sees bits that are no members, and `resize`
masks the last word with the members that were there. -/

namespace Helens.Ds.Bitmap

open Lib.Runs Lib.RangeLoops Lib.RunLength List

/-! ## Building -/

inductive SetCall
  | one (idx : Nat) (v : Bool)
  | range (start n : Nat) (v : Bool)

def SetCall.apply (b : Bitmap) : SetCall → Except BitmapError Bitmap
  | .one idx v => b.set idx v
  | .range start n v => do
    let data ← Bitmap.setRange b.data start n v
    .ok { b with data }

def SetCall.Within (size : Nat) : SetCall → Prop
  | .one idx _ => idx < size
  | .range start n _ => start + n ≤ size

instance (size : Nat) : (c : SetCall) → Decidable (c.Within size)
  | .one idx _ => inferInstanceAs (Decidable (idx < size))
  | .range start n _ => inferInstanceAs (Decidable (start + n ≤ size))

def assemble (size : Nat) (calls : List SetCall) : Except BitmapError Bitmap :=
  calls.foldlM SetCall.apply (new size 0#8)

inductive Change
  | set (c : SetCall)
  | complement

def Change.apply (b : Bitmap) : Change → Except BitmapError Bitmap
  | .set c => c.apply b
  | .complement => b.complement

def make (size : Nat) (byte : BitVec 8) (changes : List Change) : Except BitmapError Bitmap :=
  changes.foldlM Change.apply (new size byte)

variable {b : Bitmap} {i : Nat} {v : Bool} {n : Nat}

theorem SetCall.apply_post {c : SetCall} (h : Proper b) (hc : c.Within b.size) :
    Post (fun b' => Proper b' ∧ b'.size = b.size) (fun e => e = .assertion) (c.apply b) := by
  cases c with
  | one idx v =>
    have hidx : idx < b.size := hc
    exact (set_post h (h.word_lt hidx) (.inl hidx)).mono (fun _ => id) (fun _ => False.elim)
  | range start n v =>
    have hstop : (start + n) % 2 ^ 32 ≤ b.size := Nat.le_trans (Nat.mod_le _ _) hc
    have hword : (start + n) % 2 ^ 32 / 14 ≤ b.data.length := by
      rw [h.length, wordsFor]
      omega
    apply (setRange_post start n h hword (.inl hstop)).bind
    exact fun data hdata => ⟨hdata, rfl⟩

theorem assemble_proper {size : Nat} {calls : List SetCall} (hcalls : ∀ c ∈ calls, c.Within size)
    (hb : assemble size calls = .ok b) : Proper b ∧ b.size = size := by
  have hloop : Post (fun b => Proper b ∧ b.size = size) (fun e => e = .assertion)
      (assemble size calls) := by
    apply post_foldlM (P := fun _ b => Proper b ∧ b.size = size) ⟨new_proper size, rfl⟩
    rintro pre c b hpre ⟨hproper, rfl⟩
    apply SetCall.apply_post hproper
    exact hcalls c (hpre.subset (mem_append_right _ (mem_singleton_self _)))
  exact hloop.of_ok hb

theorem length_write (data : List Word) (i w) :
    Post (fun data' => data'.length = data.length) (fun _ => True) (write data i w) := by
  unfold write
  split
  · exact length_set
  · trivial

theorem length_setRange (data : List Word) (start n v) :
    Post (fun data' => data'.length = data.length) (fun _ => True)
      (Bitmap.setRange data start n v) := by
  unfold Bitmap.setRange
  split
  · rfl
  · dsimp only
    split
    · apply post_foldlM (P := fun _ (data' : List Word) => data'.length = data.length) rfl
      rintro pre i data' _ hlen
      exact (length_write data' i (fill v)).imp (fun _ h => h.trans hlen)
    · exact trivial

theorem SetCall.apply_sized (c : SetCall) (h : Sized b) :
    Post (fun b' => Sized b' ∧ b'.size = b.size) (fun _ => True) (c.apply b) := by
  have hdata : ∀ data : List Word, data.length = b.data.length →
      Sized { b with data } ∧ b.size = b.size :=
    fun data hlen => ⟨⟨h.uncompressed, hlen.trans h.length⟩, rfl⟩
  cases c with
  | one idx v =>
    have hread : Post (fun _ => True) (fun _ => True) (read b.data (idx / 14)) := by
      cases read b.data (idx / 14) <;> trivial
    apply hread.bind
    intro w _
    apply (length_write b.data (idx / 14) _).bind
    exact hdata
  | range start n v =>
    apply (length_setRange b.data start n v).bind
    exact hdata

theorem make_sized {size : Nat} {byte : BitVec 8} {changes : List Change}
    (hb : make size byte changes = .ok b) : Sized b ∧ b.size = size := by
  have hnew : Sized (new size byte) := ⟨rfl, length_replicate⟩
  have hloop : Post (fun b => Sized b ∧ b.size = size) (fun _ => True)
      (make size byte changes) := by
    apply post_foldlM (P := fun _ b => Sized b ∧ b.size = size) ⟨hnew, rfl⟩
    rintro pre c b - ⟨hsized, rfl⟩
    cases c with
    | set c => exact c.apply_sized hsized
    | complement =>
      rw [Change.apply, complement_eq hsized]
      exact ⟨⟨hsized.uncompressed, (length_map _).trans hsized.length⟩, rfl⟩
  exact hloop.of_ok hb

/-! ## Complements -/

theorem getLsbD_flipPlain (w : Word) (hp : p < 14) : (flipPlain w).getLsbD p = !w.getLsbD p := by
  have hp' : p < 16 := by omega
  rw [flipPlain, BitVec.getLsbD_and, BitVec.getLsbD_not, getLsbD_countMask]
  simp [hp, hp']

theorem flipPlain_flipPlain (hw : Plain w) : flipPlain (flipPlain w) = w := by
  apply BitVec.eq_of_getLsbD_eq
  intro p _
  by_cases hp : p < 14
  · rw [getLsbD_flipPlain _ hp, getLsbD_flipPlain _ hp, Bool.not_not]
  · rw [(plain_flipPlain _).getLsbD (Nat.not_lt.mp hp), hw.getLsbD (Nat.not_lt.mp hp)]

theorem Means.flip_flip (h : Means g vs) : (g.map flipWord).map flipWord = g := by
  cases h with
  | @literal w hw =>
    rw [map_singleton, map_singleton, hw.flipWord_eq, (plain_flipPlain w).flipWord_eq,
      flipPlain_flipPlain hw]
  | run => rw [map_flipWord_runWords, map_flipWord_runWords, Bool.not_not]

theorem Encodes.flip_flip (h : Encodes out ws) : (out.map flipWord).map flipWord = out := by
  induction h with
  | nil => rfl
  | snoc _ _ _ _ hmeans ih => rw [map_append, map_append, ih, hmeans.flip_flip]

theorem complement_compressed {c : Bitmap} (hc : c.compressed = true) :
    c.complement = .ok { c with data := c.data.map flipWord } := by
  rw [complement, hc]
  rfl

theorem bit_map {f : Word → Word} (hf : ∀ w p, p < 14 → (f w).getLsbD p = !w.getLsbD p)
    {data : List Word} (hi : i / 14 < data.length) : bit (data.map f) i = !bit data i := by
  unfold bit
  rw [getElem?_map, getElem?_eq_getElem hi]
  exact hf _ _ (Nat.mod_lt i (by decide))

theorem getLsbD_not_word (w : Word) (hp : p < 14) : (~~~ w).getLsbD p = !w.getLsbD p := by
  have hp' : p < 16 := by omega
  rw [BitVec.getLsbD_not, decide_eq_true hp', Bool.true_and]

/-- The complement of a compressed bitmap is that of the plain one, and complementing twice changes
nothing. -/
theorem complement_agrees (size : Nat) (calls : List SetCall)
    (hsize : 14 * wordsFor size < 2 ^ 32) (hcalls : ∀ c ∈ calls, c.Within size) (b : Bitmap)
    (hb : assemble size calls = .ok b) :
    ∃ c c' u d, b.compress = .ok c ∧ c.complement = .ok c' ∧ c'.uncompress = .ok u ∧
      b.complement = .ok d ∧
      (∀ i < size, ∃ v, b.get i = .ok v ∧ u.get i = .ok !v ∧ d.get i = .ok !v) ∧
      d.complement = .ok b ∧ c'.complement = .ok c := by
  obtain ⟨hproper, rfl⟩ := assemble_proper hcalls hb
  obtain ⟨c, hc, hcsize, hpacked⟩ := (hproper.compress_post hsize).exists_ok
  have hlen : (b.data.map flipPlain).length = wordsFor c.size :=
    (length_map _).trans hpacked.length
  have hcode : Encodes (c.data.map flipWord) (b.data.map flipPlain) :=
    Codes.map hpacked.code joins_flipWord fun _ _ => Means.flip
  have hu := uncompress_eq (c := { c with data := c.data.map flipWord }) hpacked.compressed hcode
    hlen (by rw [length_map]; exact hpacked.fits)
  have hd : Sized { b with data := b.data.map (~~~ ·) } :=
    ⟨hproper.uncompressed, (length_map _).trans hproper.length⟩
  refine ⟨c, _, _, _, hc, complement_compressed hpacked.compressed, hu,
    complement_eq hproper.sized, ?_, ?_, ?_⟩
  · intro i hi
    have hword := hproper.word_lt hi
    refine ⟨_, get_eq hword, ?_, ?_⟩
    · rw [get_eq (by simpa using hword), bit_map (fun w p => getLsbD_flipPlain w) hword]
    · rw [get_eq (by simpa using hword), bit_map (fun w p => getLsbD_not_word w) hword]
  · rw [complement_eq hd, map_map]
    have hid : (fun w : Word => ~~~ w) ∘ (fun w : Word => ~~~ w) = id := by
      funext w
      exact BitVec.not_not
    rw [hid, map_id]
  · have hflip := complement_compressed (c := { c with data := c.data.map flipWord })
      hpacked.compressed
    rw [hflip, hpacked.code.flip_flip]

theorem complement_agrees_hundred :
    ∃ b, assemble 100 [.range 0 28 true, .one 35 true, .one 99 true] = .ok b ∧
      ∃ c c' u d, b.compress = .ok c ∧ c.complement = .ok c' ∧ c'.uncompress = .ok u ∧
        b.complement = .ok d ∧
        (∀ i < 100, ∃ v, b.get i = .ok v ∧ u.get i = .ok !v ∧ d.get i = .ok !v) ∧
        d.complement = .ok b ∧ c'.complement = .ok c :=
  ⟨_, rfl, complement_agrees 100 [.range 0 28 true, .one 35 true, .one 99 true] (by decide)
    (by decide) _ rfl⟩

/-! ## Comparing -/

def equals (a b : Bitmap) (aliased : Bool) : Except BitmapError Bool :=
  if aliased then .ok true
  else if a.compressed ≠ b.compressed ∨ a.size ≠ b.size ∨ a.data.length ≠ b.data.length then
    .ok false
  else if a.data ≠ b.data then .ok false
  else if a.size % 14 ≠ 0 then do
    let w ← read a.data (a.data.length - 1)
    let v ← read b.data (b.data.length - 1)
    .ok (w &&& mask (a.size % 14) == v &&& mask (a.size % 14))
  else .ok true

def wordBit (data : List Word) (j p : Nat) : Bool := (data[j]?.getD 0#16).getLsbD p

def SameOutside (a b : Bitmap) : Prop :=
  ∀ j < a.data.length, ∀ p < 16, ¬ (p < 14 ∧ 14 * j + p < a.size) →
    wordBit a.data j p = wordBit b.data j p

instance (a b : Bitmap) : Decidable (SameOutside a b) :=
  inferInstanceAs (Decidable (∀ j < a.data.length, _))

theorem bit_eq_wordBit (data) (hp : p < 14) : bit data (14 * j + p) = wordBit data j p := by
  have hdiv : (14 * j + p) / 14 = j := by omega
  have hmod : (14 * j + p) % 14 = p := by omega
  rw [bit, hdiv, hmod, wordBit]

theorem data_eq_iff {a b : Bitmap} (hlen : a.data.length = b.data.length) :
    a.data = b.data ↔ (∀ i < a.size, bit a.data i = bit b.data i) ∧ SameOutside a b := by
  constructor
  · intro h
    rw [SameOutside, h]
    exact ⟨fun _ _ => rfl, fun _ _ _ _ _ => rfl⟩
  · rintro ⟨hbits, hout⟩
    apply ext_getElem hlen
    intro j hj hj'
    apply BitVec.eq_of_getLsbD_eq
    intro p hp
    have hword : wordBit a.data j p = wordBit b.data j p := by
      by_cases hin : p < 14 ∧ 14 * j + p < a.size
      · rw [← bit_eq_wordBit _ hin.1, ← bit_eq_wordBit _ hin.1]
        exact hbits _ hin.2
      · exact hout j hj p hp hin
    rwa [wordBit, wordBit, getElem?_eq_getElem hj, getElem?_eq_getElem hj'] at hword

theorem equals_eq {a b : Bitmap} (ha : Sized a) (hb : Sized b) (halias : aliased = true → a = b) :
    a.equals b aliased = .ok (decide (a.size = b.size ∧ a.data = b.data)) := by
  unfold equals
  split
  · next haliased =>
    rw [halias haliased]
    simp
  · split
    · next hdiffer =>
      have hne : ¬ (a.size = b.size ∧ a.data = b.data) := by
        rintro ⟨hsize, hdata⟩
        rw [ha.uncompressed, hb.uncompressed, hdata] at hdiffer
        simp [hsize] at hdiffer
      rw [decide_eq_false hne]
    · next hsame =>
      push Not at hsame
      obtain ⟨-, hsize, hlen⟩ := hsame
      by_cases hdata : a.data = b.data
      · rw [if_neg (not_not.mpr hdata), decide_eq_true ⟨hsize, hdata⟩]
        split
        · next hleft =>
          have hlast : b.data.length - 1 < b.data.length := by
            rw [hb.length, wordsFor, ← hsize]
            omega
          rw [hdata, read_lt hlast]
          exact congrArg _ (beq_self_eq_true _)
        · rfl
      · rw [if_pos hdata, decide_eq_false fun h => hdata h.2]

/-- The comparison is that of the sets of members exactly if bitmaps with the same members are the
same outside of them too. -/
theorem equals_same_members (sizeA sizeB : Nat) (byteA byteB : BitVec 8)
    (changesA changesB : List Change) (a b : Bitmap) (ha : make sizeA byteA changesA = .ok a)
    (hb : make sizeB byteB changesB = .ok b) (aliased : Bool) (halias : aliased = true → a = b) :
    (a.size = b.size → (∀ i < a.size, a.get i = b.get i) → SameOutside a b) ↔
      Post (fun same => same = true ↔ a.size = b.size ∧ ∀ i < a.size, a.get i = b.get i)
        (fun _ => False) (a.equals b aliased) := by
  have ha := (make_sized ha).1
  have hb := (make_sized hb).1
  rw [equals_eq ha hb halias, post_ok, decide_eq_true_eq, and_congr_right_iff]
  apply forall_congr'
  intro hsize
  have hlen : a.data.length = b.data.length := by rw [ha.length, hb.length, hsize]
  have hget : (∀ i < a.size, a.get i = b.get i) ↔ ∀ i < a.size, bit a.data i = bit b.data i := by
    apply forall₂_congr
    intro i hi
    rw [get_eq (ha.word_lt hi), get_eq (hb.word_lt (hsize ▸ hi)), Except.ok.injEq]
  rw [data_eq_iff hlen, hget, and_iff_left_iff_imp]

theorem equals_same_members_twenty : ∃ a b, make 20 0#8 [.set (.one 3 true), .complement] = .ok a ∧
      make 20 0xFF#8 [.complement, .set (.one 3 true), .complement] = .ok b ∧
      Post (fun same => same = true ↔ a.size = b.size ∧ ∀ i < a.size, a.get i = b.get i)
        (fun _ => False) (a.equals b false) :=
  ⟨_, _, rfl, rfl, (equals_same_members 20 20 0#8 0xFF#8 [.set (.one 3 true), .complement]
    [.complement, .set (.one 3 true), .complement] _ _ rfl rfl false (by decide)).mp
    fun _ _ => by decide +kernel⟩

/-- A full bitmap by default bytes and one by `set`; an empty one by complement and one that
was empty from the start. -/
theorem equals_sees_outside :
    (∃ a b, make 1 0xFF#8 [] = .ok a ∧ make 1 0#8 [.set (.one 0 true)] = .ok b ∧
      (a.size = b.size ∧ ∀ i < a.size, a.get i = b.get i) ∧ a.equals b false = .ok false) ∧
    ∃ a b, make 14 0#8 [.set (.range 0 14 true), .complement] = .ok a ∧ make 14 0#8 [] = .ok b ∧
      (a.size = b.size ∧ ∀ i < a.size, a.get i = b.get i) ∧ a.equals b false = .ok false :=
  ⟨⟨_, _, rfl, rfl, by decide +kernel⟩, ⟨_, _, rfl, rfl, by decide +kernel⟩⟩

/-! ## Resizing -/

theorem getLsbD_mask (hk : k < 16) (hp : p < 16) : (mask k).getLsbD p = decide (p < k) := by
  have hall : ∀ k < 16, ∀ p < 16, (mask k).getLsbD p = decide (p < k) := by decide
  exact hall k hk p hp

/-- The call keeps the members and gives the new ones the value. -/
def Resizes (b : Bitmap) (n : Nat) (v : Bool) (r : Bitmap) : Prop :=
  (∀ i < min b.size n, r.get i = b.get i) ∧ ∀ i, b.size ≤ i → i < n → r.get i = .ok v

/-- Where the masks of `resize` do no harm. -/
def Resizable (b : Bitmap) (n : Nat) (v : Bool) : Prop :=
  n ≤ b.size ∨ (wordsFor n = wordsFor b.size ∧ v = false) ∨
    (wordsFor b.size < wordsFor n ∧ 0 < b.size ∧ (v = true ∧ b.size % 14 = 0 ∨
        v = false ∧ (b.size % 14 ≠ 0 ∨ ∀ p < 14, bit b.data (b.size - 14 + p) = false)))

instance (b : Bitmap) (n : Nat) (v : Bool) : Decidable (Resizable b n v) :=
  inferInstanceAs (Decidable (_ ∨ _))

theorem Proper.bit_beyond (h : Proper b) (hi : b.size ≤ i) : bit b.data i = false := by
  rw [Bool.eq_false_iff]
  intro hbit
  cases hw : b.data[i / 14]? with
  | none => simp [bit, hw] at hbit
  | some w =>
    rw [bit, hw, Option.getD_some] at hbit
    have hlt := (clean_iff.mp h.clean _ w hw _ hbit).2
    omega

theorem resize_keeping (h : Proper b) (hkeep : wordsFor n ≤ b.data.length) :
    ∃ r, b.resize n v = .ok r ∧ ∀ i < n, r.get i = .ok (bit b.data i) := by
  refine ⟨_, resize_eq_taken h.uncompressed hkeep, fun i hi => ?_⟩
  have hword : i / 14 < wordsFor n := by
    rw [wordsFor]
    omega
  have hlt : i / 14 < (b.data.take (wordsFor n)).length := by
    rw [length_take_of_le hkeep]
    exact hword
  rw [get_eq hlt, bit, getElem?_take_of_lt hword]
  rfl

def grownBit (b : Bitmap) (v : Bool) (i : Nat) : Bool :=
  if i / 14 + 1 < b.data.length then bit b.data i
  else if i / 14 + 1 = b.data.length then
    if v then bit b.data i || decide (i % 14 < b.size % 14)
    else bit b.data i && decide (i % 14 < b.size % 14)
  else v

theorem bit_grown (hgrow : b.data.length < wordsFor n)
    (hw : b.data[b.data.length - 1]? = some w) (hi : i / 14 < wordsFor n) :
    bit ((grown b n v).set (b.data.length - 1)
      (if v then w ||| mask (b.size % 14) else w &&& mask (b.size % 14))) i = grownBit b v i := by
  have hlast := (List.getElem?_eq_some_iff.mp hw).1
  have hp : i % 14 < 16 := Nat.lt_of_lt_of_le (Nat.mod_lt i (by decide)) (by decide)
  have hk : b.size % 14 < 16 := Nat.lt_of_lt_of_le (Nat.mod_lt _ (by decide)) (by decide)
  rw [bit, grownBit]
  by_cases hfirst : i / 14 + 1 < b.data.length
  · rw [if_pos hfirst, List.getElem?_set_ne (by omega), getElem?_grown_old (by omega)]
    rfl
  · rw [if_neg hfirst]
    by_cases heq : i / 14 + 1 = b.data.length
    · have hsame : b.data.length - 1 = i / 14 := by omega
      have hroom : b.data.length - 1 < (grown b n v).length := by
        rw [length_grown hgrow]
        omega
      have hbit : bit b.data i = w.getLsbD (i % 14) := by
        rw [bit, ← hsame, hw]
        rfl
      rw [if_pos heq, ← hsame, List.getElem?_set_self hroom, Option.getD_some, hbit]
      cases v with
      | true => rw [if_pos rfl, if_pos rfl, BitVec.getLsbD_or, getLsbD_mask hk hp]
      | false =>
        rw [if_neg Bool.false_ne_true, if_neg Bool.false_ne_true, BitVec.getLsbD_and,
          getLsbD_mask hk hp]
    · rw [if_neg heq, List.getElem?_set_ne (by omega), getElem?_grown_new (by omega) hi,
        Option.getD_some]
      cases v with
      | true =>
        have hones : ∀ p < 16, (0xFFFF#16).getLsbD p = true := by decide
        exact hones _ hp
      | false => exact BitVec.getLsbD_zero

theorem resize_growing (h : Proper b) (hgrow : b.data.length < wordsFor n) (hpos : 0 < b.size) :
    ∃ r, b.resize n v = .ok r ∧ ∀ i < n, r.get i = .ok (grownBit b v i) := by
  have hlast : b.data.length - 1 < b.data.length := by
    rw [h.length, wordsFor]
    omega
  have hcell := getElem?_eq_getElem hlast
  refine ⟨_, resize_eq_grown h.uncompressed hgrow hcell, fun i hi => ?_⟩
  have hword : i / 14 < wordsFor n := by
    rw [wordsFor]
    omega
  rw [get_eq (by rw [length_set, length_grown hgrow]; exact hword), bit_grown hgrow hcell hword]

theorem resize_from_nothing (h : Proper b) (hzero : b.size = 0)
    (hn : 0 < n) : b.resize n v = .error .outOfBounds := by
  have hdata : b.data.length = 0 := by
    rw [h.length, hzero]
    rfl
  have hgrow : b.data.length < wordsFor n := by
    rw [hdata, wordsFor]
    omega
  unfold resize
  rw [h.uncompressed, if_neg Bool.false_ne_true]
  dsimp only
  rw [if_pos hgrow, if_pos hdata]

theorem resize_keeping_iff (h : Proper b) (hkeep : wordsFor n ≤ b.data.length) :
    Post (Resizes b n v) Never (b.resize n v) ↔ n ≤ b.size ∨ v = false := by
  obtain ⟨r, hr, hbits⟩ := resize_keeping (v := v) h hkeep
  rw [hr, post_ok]
  constructor
  · rintro ⟨-, hnew⟩
    by_contra hbad
    push Not at hbad
    have hvalue := hnew b.size (Nat.le_refl _) hbad.1
    rw [hbits _ hbad.1, h.bit_beyond (Nat.le_refl _), Except.ok.injEq] at hvalue
    exact hbad.2 hvalue.symm
  · intro hok
    constructor
    · intro i hi
      rw [hbits i (by omega), get_eq (h.word_lt (by omega))]
    · intro i hi hn
      rw [hbits i hn, h.bit_beyond hi]
      rcases hok with hle | rfl
      · omega
      · rfl

theorem grownBit_last (hi : i / 14 + 1 = b.data.length) :
    grownBit b v i = if v then bit b.data i || decide (i % 14 < b.size % 14)
      else bit b.data i && decide (i % 14 < b.size % 14) := by
  rw [grownBit, if_neg (by omega), if_pos hi]

theorem grownBit_iff (h : Proper b) (hpos : 0 < b.size) (hsizes : b.size < n) :
    ((∀ i < b.size, grownBit b v i = bit b.data i) ∧ ∀ i, b.size ≤ i → i < n → grownBit b v i = v) ↔
      v = true ∧ b.size % 14 = 0 ∨
        v = false ∧ (b.size % 14 ≠ 0 ∨ ∀ p < 14, bit b.data (b.size - 14 + p) = false) := by
  have hlen := h.length
  rw [wordsFor] at hlen
  constructor
  · rintro ⟨hold, hnew⟩
    cases v with
    | true =>
      left
      refine ⟨rfl, ?_⟩
      -- the first new member lies in the last word, and its bit is not set
      by_contra hleft
      have hvalue := hnew b.size (Nat.le_refl _) hsizes
      rw [grownBit_last (by omega), if_pos rfl, h.bit_beyond (Nat.le_refl _),
        decide_eq_false (Nat.lt_irrefl _)] at hvalue
      cases hvalue
    | false =>
      right
      refine ⟨rfl, ?_⟩
      by_contra hbad
      push Not at hbad
      obtain ⟨hleft, p, hp, hbit⟩ := hbad
      have hvalue := hold (b.size - 14 + p) (by omega)
      rw [grownBit_last (by omega), if_neg Bool.false_ne_true, hleft,
        decide_eq_false (Nat.not_lt_zero _), Bool.and_false] at hvalue
      exact hbit hvalue.symm
  · intro hok
    constructor
    · intro i hi
      by_cases hfirst : i / 14 + 1 < b.data.length
      · rw [grownBit, if_pos hfirst]
      · rw [grownBit_last (by omega)]
        rcases hok with ⟨rfl, hleft⟩ | ⟨rfl, hleft⟩
        · rw [if_pos rfl, hleft, decide_eq_false (Nat.not_lt_zero _), Bool.or_false]
        · rw [if_neg Bool.false_ne_true]
          by_cases hfull : b.size % 14 = 0
          · have hbit := hleft.resolve_left (not_not.mpr hfull) (i % 14) (Nat.mod_lt i (by decide))
            rw [show b.size - 14 + i % 14 = i by omega] at hbit
            rw [hbit, Bool.false_and]
          · rw [decide_eq_true (by omega), Bool.and_true]
    · intro i hi _
      by_cases hword : i / 14 + 1 = b.data.length
      · rw [grownBit_last hword, h.bit_beyond hi]
        rcases hok with ⟨rfl, hleft⟩ | ⟨rfl, -⟩
        · omega
        · rfl
      · rw [grownBit, if_neg (by omega), if_neg hword]

theorem resize_growing_iff (h : Proper b) (hgrow : b.data.length < wordsFor n) (hpos : 0 < b.size) :
    Post (Resizes b n v) Never (b.resize n v) ↔ v = true ∧ b.size % 14 = 0 ∨
        v = false ∧ (b.size % 14 ≠ 0 ∨ ∀ p < 14, bit b.data (b.size - 14 + p) = false) := by
  obtain ⟨r, hr, hbits⟩ := resize_growing (v := v) h hgrow hpos
  have hsizes : b.size < n := by
    rw [h.length, wordsFor, wordsFor] at hgrow
    omega
  rw [hr, post_ok, ← grownBit_iff h hpos hsizes, Resizes, Nat.min_eq_left (Nat.le_of_lt hsizes)]
  apply and_congr
  · apply forall₂_congr
    intro i hi
    rw [hbits i (by omega), get_eq (h.word_lt hi), Except.ok.injEq]
  · apply forall₃_congr
    intro i _ hn
    rw [hbits i hn, Except.ok.injEq]

/-- `resize` keeps the members and gives the new ones the value exactly where its masks do no
harm. -/
theorem resize_iff (size : Nat) (calls : List SetCall) (hcalls : ∀ c ∈ calls, c.Within size)
    (b : Bitmap) (hb : assemble size calls = .ok b) (n : Nat) (v : Bool) :
    Post (Resizes b n v) (fun _ => False) (b.resize n v) ↔ Resizable b n v := by
  obtain ⟨h, rfl⟩ := assemble_proper hcalls hb
  have hlen := h.length
  unfold Resizable
  by_cases hgrow : b.data.length < wordsFor n
  · have hsizes : ¬ n ≤ b.size := by
      rw [hlen, wordsFor, wordsFor] at hgrow
      omega
    have hmore : ¬ (wordsFor n = wordsFor b.size ∧ v = false) := by omega
    rw [or_iff_right hsizes, or_iff_right hmore, ← hlen, and_iff_right hgrow]
    by_cases hpos : 0 < b.size
    · rw [resize_growing_iff h hgrow hpos, and_iff_right hpos]
    · rw [resize_from_nothing h (by omega) (by omega), post_error, false_iff]
      exact fun hbad => hpos hbad.1
  · have hnot : ¬ wordsFor b.size < wordsFor n := by omega
    rw [resize_keeping_iff h (Nat.not_lt.mp hgrow)]
    constructor
    · rintro (hle | rfl)
      · exact .inl hle
      · by_cases hle : n ≤ b.size
        · exact .inl hle
        · have hwords : wordsFor n = wordsFor b.size := by
            rw [wordsFor, wordsFor] at hnot ⊢
            omega
          exact .inr (.inl ⟨hwords, rfl⟩)
    · rintro (hle | ⟨-, rfl⟩ | ⟨hmore, -⟩)
      · exact .inl hle
      · exact .inr rfl
      · exact absurd hmore hnot

theorem resize_iff_twenty :
    ∃ b, assemble 20 [.one 3 true, .one 19 true] = .ok b ∧ Resizable b 40 false ∧
      Post (Resizes b 40 false) (fun _ => False) (b.resize 40 false) := by
  refine ⟨_, rfl, ?_, ?_⟩
  · decide +kernel
  · exact (resize_iff 20 [.one 3 true, .one 19 true] (by decide) _ rfl 40 false).mpr
      (by decide +kernel)

/-- Growth from nothing writes outside the array; growth with zeros loses members of a full last
word; growth with ones sets the wrong bits. -/
theorem resize_masks_wrong_bits :
    (assemble 0 []).bind (fun b => b.resize 1 false) = .error .outOfBounds ∧
    (do let b ← assemble 14 [.one 3 true]
        let r ← b.resize 15 false
        r.get 3) = .ok false ∧
    (do let b ← assemble 10 []
        let r ← b.resize 15 true
        let old ← r.get 3
        let new ← r.get 12
        .ok (old, new)) = .ok (true, false) ∧
    (do let b ← assemble 10 []
        let r ← b.resize 12 true
        r.get 11) = .ok false := by
  decide +kernel

end Helens.Ds.Bitmap
