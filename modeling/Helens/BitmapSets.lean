import Helens.BitmapDecode

/-! Bitmaps that are built by setting single members, and the sets that they stand for.
Compressing such a bitmap loses nothing, and the operators take the compressed bitmap for
the one it was made from. -/

namespace Helens.Ds.Bitmap

open Lib.Runs Lib.RangeLoops Lib.RunLength List

/-! ## Proper bitmaps -/

def Clean (size : Nat) (data : List Word) : Prop :=
  ∀ c ∈ data.zipIdx, ∀ p < 16, c.1.getLsbD p = true → p < 14 ∧ 14 * c.2 + p < size

instance (size : Nat) (data : List Word) : Decidable (Clean size data) :=
  inferInstanceAs (Decidable (∀ c ∈ data.zipIdx, _))

variable {data : List Word} {size : Nat} {i : Nat}

theorem clean_iff :
    Clean size data ↔ ∀ (j : Nat) (w : Word), data[j]? = some w → ∀ p, w.getLsbD p = true →
      p < 14 ∧ 14 * j + p < size := by
  constructor
  · intro h j w hw p hp
    have hlt : p < 16 := by
      by_contra hge
      rw [BitVec.getLsbD_of_ge _ _ (Nat.not_lt.mp hge)] at hp
      cases hp
    exact h (w, j) (mem_zipIdx_iff_getElem?.mpr hw) p hlt hp
  · rintro h ⟨w, j⟩ hc p _ hp
    exact h j w (mem_zipIdx_iff_getElem?.mp hc) p hp

theorem Clean.plain (h : Clean size data) : ∀ w ∈ data, Plain w := by
  intro w hw
  obtain ⟨j, hj⟩ := getElem?_of_mem hw
  refine plain_of_getLsbD fun i hi => ?_
  rw [Bool.eq_false_iff]
  intro hbit
  have hlt := (clean_iff.mp h j w hj i hbit).1
  omega

structure Proper (b : Bitmap) : Prop where
  uncompressed : b.compressed = false
  length : b.data.length = wordsFor b.size
  clean : Clean b.size b.data

theorem new_proper (size) : Proper (new size 0#8) := by
  refine ⟨rfl, length_replicate, clean_iff.mpr fun j w hw p hp => ?_⟩
  rw [eq_of_mem_replicate (mem_of_getElem? hw)] at hp
  have hzero : (0#8 ++ 0#8 : Word) = 0#16 := rfl
  rw [hzero, BitVec.getLsbD_zero] at hp
  cases hp

structure Sized (b : Bitmap) : Prop where
  uncompressed : b.compressed = false
  length : b.data.length = wordsFor b.size

variable {b : Bitmap}

theorem Sized.word_lt (h : Sized b) (hi : i < b.size) : i / 14 < b.data.length := by
  rw [h.length, wordsFor]
  omega

theorem Sized.bulk_le (h : Sized b) : 4 * (b.size / 56) ≤ b.data.length := by
  rw [h.length, wordsFor]
  omega

theorem Sized.size_le (h : Sized b) : b.size ≤ 14 * b.data.length := by
  rw [h.length, wordsFor]
  omega

theorem Proper.sized (h : Proper b) : Sized b := ⟨h.uncompressed, h.length⟩

theorem Proper.word_lt (h : Proper b) (hi : i < b.size) :
    i / 14 < b.data.length := h.sized.word_lt hi

theorem Proper.bulk_le (h : Proper b) : 4 * (b.size / 56) ≤ b.data.length :=
  h.sized.bulk_le

theorem Clean.set (h : Clean size data)
    (hw : ∀ p, w.getLsbD p = true → p < 14 ∧ 14 * i + p < size) : Clean size (data.set i w) := by
  refine clean_iff.mpr fun j x hx p hp => ?_
  rw [getElem?_set] at hx
  split at hx
  · next hij =>
    subst hij
    split at hx
    · obtain rfl := Option.some.inj hx
      exact hw p hp
    · cases hx
  · exact clean_iff.mp h j x hx p hp

theorem set_post (h : Proper b)
    (hidx : idx / 14 < b.data.length) (hv : idx < b.size ∨ v = false) :
    Post (fun b' => Proper b' ∧ b'.size = b.size) Never (b.set idx v) := by
  unfold set
  rw [read_lt hidx]
  dsimp only [bind, Except.bind]
  rw [write_eq hidx]
  refine ⟨⟨h.uncompressed, ?_, h.clean.set fun p hp => ?_⟩, rfl⟩
  · rw [length_set]
    exact h.length
  · have hold := clean_iff.mp h.clean _ _ (getElem?_eq_getElem hidx) p
    cases v with
    | true =>
      rw [if_pos rfl, BitVec.getLsbD_or, Bool.or_eq_true] at hp
      rcases hp with hp | hp
      · exact hold hp
      · rw [getLsbD_pos, Bool.and_eq_true, decide_eq_true_eq, decide_eq_true_eq] at hp
        have hlt := hv.resolve_right (by decide)
        omega
    | false =>
      rw [if_neg Bool.false_ne_true, BitVec.getLsbD_and, Bool.and_eq_true] at hp
      exact hold hp.1

def build (size : Nat) (sets : List (Nat × Bool)) : Except BitmapError Bitmap :=
  sets.foldlM (fun b s => b.set s.1 s.2) (new size 0#8)

theorem build_post (hsets : ∀ s ∈ sets, s.1 < size) :
    Post (fun b => Proper b ∧ b.size = size) Never (build size sets) := by
  refine post_foldlM (P := fun _ b => Proper b ∧ b.size = size) ⟨new_proper size, rfl⟩ ?_
  rintro pre s b hpre ⟨hb, hsize⟩
  have hs : s.1 < b.size := by
    rw [hsize]
    exact hsets s (hpre.subset (mem_append_right _ (mem_singleton_self _)))
  apply (set_post hb (hb.word_lt hs) (.inl hs)).imp
  rintro b' ⟨hb', hsize'⟩
  exact ⟨hb', hsize'.trans hsize⟩

/-- `uncompress` undoes `compress`, which never writes more words than there were. -/
theorem uncompress_compress (size : Nat) (sets : List (Nat × Bool))
    (hsize : 14 * wordsFor size < 2 ^ 32) (hsets : ∀ s ∈ sets, s.1 < size) :
    Post (fun b => Post (fun c => c.data.length ≤ b.data.length ∧
        Post (fun b' => b'.size = b.size ∧ b'.data = b.data) (fun _ => False) c.uncompress)
      (fun _ => False) b.compress) (fun _ => False) (build size sets) := by
  apply (build_post hsets).imp
  rintro b ⟨hb, rfl⟩
  have hfit : 14 * b.data.length < 2 ^ 32 := by
    rw [hb.length]
    exact hsize
  apply (compress_post hb.uncompressed hb.clean.plain hfit).imp
  rintro c ⟨hc, hcsize, hcode, -⟩
  refine ⟨hcode.length_le fun _ _ => Means.length_le, ?_⟩
  rw [uncompress_eq hc hcode (by rw [hcsize, hb.length]) hfit]
  exact ⟨hcsize, rfl⟩

theorem uncompress_compress_hundred : Post (fun b => Post (fun c => c.data.length ≤ b.data.length ∧
        Post (fun b' => b'.size = b.size ∧ b'.data = b.data) (fun _ => False) c.uncompress)
      (fun _ => False) b.compress) (fun _ => False) (build 100 [(3, true), (99, true)]) :=
  uncompress_compress 100 [(3, true), (99, true)] (by decide) (by decide)

/-! ## The operators on index sets -/

def indices (b : Bitmap) : Set Nat := {i | i < b.size ∧ b.get i = .ok true}

def bit (data : List Word) (i : Nat) : Bool := (data[i / 14]?.getD 0#16).getLsbD (i % 14)

theorem get_eq (h : i / 14 < b.data.length) : b.get i = .ok (bit b.data i) := by
  have hpos : i % 14 < 16 := Nat.lt_of_lt_of_le (Nat.mod_lt i (by decide)) (by decide)
  unfold get bit
  rw [read_lt h, getElem?_eq_getElem h, Option.getD_some, ← and_pos_ne_zero _ hpos]
  rfl

theorem Proper.mem_indices (h : Proper b) :
    i ∈ indices b ↔ i < b.size ∧ bit b.data i = true := by
  refine and_congr_right fun hi => ?_
  rw [get_eq (h.word_lt hi), Except.ok.injEq]

theorem bit_zipWith {f : Word → Word → Word} (op : Bool → Bool → Bool)
    (hf : ∀ x y p, (f x y).getLsbD p = op (x.getLsbD p) (y.getLsbD p))
    (hlen : xs.length = ys.length) (hi : i / 14 < xs.length) :
    bit (zipWith f xs ys) i = op (bit xs i) (bit ys i) := by
  have hi' : i / 14 < ys.length := by omega
  unfold bit
  rw [getElem?_zipWith, getElem?_eq_getElem hi, getElem?_eq_getElem hi']
  exact hf _ _ _

theorem bit_mul_add (hw : data[j]? = some w)
    (hp : p < 14) : bit data (14 * j + p) = w.getLsbD p := by
  have hdiv : (14 * j + p) / 14 = j := by omega
  have hmod : (14 * j + p) % 14 = p := by omega
  rw [bit, hdiv, hmod, hw, Option.getD_some]

section Operators

variable {a b c : Bitmap}

theorem Proper.length_eq (ha : Proper a) (hb : Proper b) (hsize : a.size = b.size) :
    a.data.length = b.data.length := by
  rw [ha.length, hb.length, hsize]

/-- What `operator&=` and `operator|=` have in common: an operation on the bits of words, and
the runs of a compressed operand that it writes. -/
structure Operator where
  bits : Bool → Bool → Bool
  words : {n : Nat} → BitVec n → BitVec n → BitVec n
  writes : Bool → Bool
  texts : String × String
  getLsbD_words : ∀ {n : Nat} (x y : BitVec n) (p : Nat),
    (words x y).getLsbD p = bits (x.getLsbD p) (y.getLsbD p)
  words_append : ∀ {n m : Nat} (x x' : BitVec n) (y y' : BitVec m),
    words (x ++ y) (x' ++ y') = words x x' ++ words y y'
  bits_false : bits false false = false
  suits : ∀ {w : Word}, Plain w → Suits writes words w

def Operator.and : Operator where
  bits := (· && ·)
  words x y := x &&& y
  writes v := !v
  texts := ("compress &= uncompress not support", "compress &= compress not support")
  getLsbD_words _ _ _ := BitVec.getLsbD_and
  words_append _ _ _ _ := BitVec.and_append
  bits_false := rfl
  suits hw v := by
    cases v with
    | false => exact BitVec.and_zero
    | true => exact hw

def Operator.or : Operator where
  bits := (· || ·)
  words x y := x ||| y
  writes v := v
  texts := ("compress |= uncompress not support", "compress |= compress not support")
  getLsbD_words _ _ _ := BitVec.getLsbD_or
  words_append _ _ _ _ := BitVec.or_append
  bits_false := rfl
  suits hw v := by
    cases v with
    | false => exact BitVec.or_zero
    | true => exact hw.or_countMask

variable (o : Operator)

def Operator.assign (a b : Bitmap) : Except BitmapError Bitmap :=
  if a.size ≠ b.size then .error (.logicError "m_size != b.m_size")
  else if !a.compressed && !b.compressed then do
    let data ← bulk (fun i x => do let y ← readU64 b.data i; .ok (o.words x y))
      (fun i w => do let v ← read b.data i; .ok (o.words w v)) a
    .ok { a with data }
  else if a.compressed != b.compressed then
    if a.compressed then .error (.logicError o.texts.1)
    else do
      let data ← overlay o.writes o.words b.data a.data
      .ok { a with data }
  else .error (.logicError o.texts.2)

theorem andAssign_eq_assign (a b : Bitmap) : a.andAssign b = Operator.and.assign a b := rfl

theorem orAssign_eq_assign (a b : Bitmap) : a.orAssign b = Operator.or.assign a b := rfl

def Operator.combine (a : Bitmap) (ws : List Word) : Bitmap :=
  { a with data := List.zipWith o.words a.data ws }

theorem Operator.combine_proper (ha : Proper a) (hb : Proper b) (hsize : a.size = b.size) :
    Proper (o.combine a b.data) := by
  refine ⟨ha.uncompressed, ?_, clean_iff.mpr fun j w hw p hp => ?_⟩
  · rw [combine, length_zipWith, ← ha.length_eq hb hsize, Nat.min_self, ha.length]
  · obtain ⟨x, y, hx, hy, rfl⟩ := getElem?_zipWith_eq_some.mp hw
    rw [o.getLsbD_words] at hp
    cases hbit : x.getLsbD p with
    | true => exact clean_iff.mp ha.clean j x hx p hbit
    | false =>
      cases hbit' : y.getLsbD p with
      | true =>
        have hclean := clean_iff.mp hb.clean j y hy p hbit'
        rw [← hsize] at hclean
        exact hclean
      | false =>
        rw [hbit, hbit', o.bits_false] at hp
        cases hp

theorem Operator.mem_indices_combine (ha : Proper a) (hb : Proper b) (hsize : a.size = b.size) :
    i ∈ indices (o.combine a b.data) ↔
      i < a.size ∧ o.bits (bit a.data i) (bit b.data i) = true := by
  rw [(o.combine_proper ha hb hsize).mem_indices]
  refine and_congr_right fun hi => ?_
  rw [combine, bit_zipWith o.bits (fun x y p => o.getLsbD_words x y p) (ha.length_eq hb hsize)
    (ha.word_lt hi)]

theorem indices_and (ha : Proper a) (hb : Proper b) (hsize : a.size = b.size) :
    indices (Operator.and.combine a b.data) = indices a ∩ indices b := by
  ext i
  rw [Operator.and.mem_indices_combine ha hb hsize, Set.mem_inter_iff, ha.mem_indices,
    hb.mem_indices, ← hsize, ← and_and_left]
  exact and_congr_right fun _ => Bool.and_eq_true_iff

theorem indices_or (ha : Proper a) (hb : Proper b) (hsize : a.size = b.size) :
    indices (Operator.or.combine a b.data) = indices a ∪ indices b := by
  ext i
  rw [Operator.or.mem_indices_combine ha hb hsize, Set.mem_union, ha.mem_indices,
    hb.mem_indices, ← hsize, ← and_or_left]
  exact and_congr_right fun _ => Bool.or_eq_true_iff

theorem meets_iff_nonempty (ha : Proper a) (hb : Proper b) (hsize : a.size = b.size) :
    Meets a.data b.data ↔ (indices a ∩ indices b).Nonempty := by
  constructor
  · rintro ⟨j, x, y, hx, hy, hxy⟩
    obtain ⟨p, hp⟩ : ∃ p, (x &&& y).getLsbD p = true := by
      by_contra hnone
      push Not at hnone
      refine hxy (BitVec.eq_of_getLsbD_eq fun i _ => ?_)
      rw [BitVec.getLsbD_zero]
      exact Bool.eq_false_iff.mpr (hnone i)
    rw [BitVec.getLsbD_and, Bool.and_eq_true] at hp
    obtain ⟨hp14, hlt⟩ := clean_iff.mp ha.clean j x hx p hp.1
    refine ⟨14 * j + p, ha.mem_indices.mpr ⟨hlt, ?_⟩, hb.mem_indices.mpr ⟨hsize ▸ hlt, ?_⟩⟩
    · rw [bit_mul_add hx hp14]
      exact hp.1
    · rw [bit_mul_add hy hp14]
      exact hp.2
  · rintro ⟨i, hia, hib⟩
    obtain ⟨hi, hbita⟩ := ha.mem_indices.mp hia
    obtain ⟨hi', hbitb⟩ := hb.mem_indices.mp hib
    have hx := getElem?_eq_getElem (ha.word_lt hi)
    have hy := getElem?_eq_getElem (hb.word_lt hi')
    refine ⟨i / 14, _, _, hx, hy, fun hzero => ?_⟩
    rw [bit, hx, Option.getD_some] at hbita
    rw [bit, hy, Option.getD_some] at hbitb
    have hbits := congrArg (fun w => BitVec.getLsbD w (i % 14)) hzero
    simp only [BitVec.getLsbD_and, hbita, hbitb, BitVec.getLsbD_zero] at hbits
    cases hbits

theorem Operator.assign_eq (ha : Proper a) (hb : Proper b) (hsize : a.size = b.size) :
    o.assign a b = .ok (o.combine a b.data) := by
  have hbulk := bulk_zipWith (f := o.words) o.words_append (ha.length_eq hb hsize) ha.bulk_le
  unfold assign combine
  rw [if_neg (not_not.mpr hsize), ha.uncompressed, hb.uncompressed]
  refine (if_pos rfl).trans ?_
  rw [hbulk]
  rfl

theorem cross_post (ha : Proper a) (hb : Proper b) (hsize : a.size = b.size) :
    Post (fun found => found = true ↔ Meets a.data b.data) Never (a.cross b) := by
  have hcross : a.cross b = normalCross a b := by
    unfold cross
    rw [ha.uncompressed, hb.uncompressed]
    rfl
  rw [hcross]
  exact normalCross_post (ha.length_eq hb hsize) ha.bulk_le

structure Compressed (c : Bitmap) (ws : List Word) : Prop where
  compressed : c.compressed = true
  code : Encodes c.data ws
  length : ws.length = wordsFor c.size
  fits : 14 * ws.length < 2 ^ 32

theorem Compressed.length_eq (hc : Compressed c ws) (ha : Proper a) (hsize : a.size = c.size) :
    a.data.length = ws.length := by
  rw [ha.length, hc.length, hsize]

theorem Operator.assign_compressed (ha : Proper a) (hc : Compressed c ws)
    (hsize : a.size = c.size) : o.assign a c = .ok (o.combine a ws) := by
  have hover : overlay o.writes o.words c.data a.data = .ok (zipWith o.words a.data ws) :=
    overlay_eq hc.code (hc.length_eq ha hsize) hc.fits fun w hw => o.suits (ha.clean.plain w hw)
  unfold assign combine
  rw [if_neg (not_not.mpr hsize), ha.uncompressed, hc.compressed, hover]
  rfl

theorem cross_compressed (ha : Proper a) (hc : Compressed c ws) (hsize : a.size = c.size) :
    Post (fun found => found = true ↔ Meets a.data ws) Never (a.cross c) := by
  have hcross : a.cross c = compressCross a c := by
    unfold cross
    rw [ha.uncompressed, hc.compressed]
    rfl
  rw [hcross]
  exact compressCross_post hc.code (hc.length_eq ha hsize) hc.fits

theorem Proper.compress_post (hb : Proper b) (hfit : 14 * wordsFor b.size < 2 ^ 32) :
    Post (fun c => c.size = b.size ∧ Compressed c b.data) Never b.compress := by
  rw [← hb.length] at hfit
  apply (Bitmap.compress_post hb.uncompressed hb.clean.plain hfit).imp
  rintro c ⟨hc, hsize, hcode, -⟩
  exact ⟨hsize, hc, hcode, by rw [hb.length, hsize], hfit⟩

end Operators

theorem eq_of_decides {p : Prop} (hx : Post (fun found => found = true ↔ p) Never x)
    (hy : Post (fun found => found = true ↔ p) Never y) : x = y := by
  cases x with
  | error e => exact hx.elim
  | ok found =>
    cases y with
    | error e => exact hy.elim
    | ok found' => exact congrArg _ (Bool.eq_iff_iff.mpr (hx.trans hy.symm))

/-- The operators take a compressed operand for the bitmap it was made from, and are the
operations on the sets of members. -/
theorem operators_on_compressed (size : Nat) (setsA setsB : List (Nat × Bool))
    (hsize : 14 * wordsFor size < 2 ^ 32) (hA : ∀ s ∈ setsA, s.1 < size)
    (hB : ∀ s ∈ setsB, s.1 < size) :
    Post (fun a => Post (fun b => Post (fun c =>
        (a.andAssign c = a.andAssign b ∧ a.orAssign c = a.orAssign b ∧ a.cross c = a.cross b) ∧
        Post (fun r => indices r = indices a ∩ indices b) (fun _ => False) (a.andAssign b) ∧
        Post (fun r => indices r = indices a ∪ indices b) (fun _ => False) (a.orAssign b) ∧
        Post (fun found => found = true ↔ (indices a ∩ indices b).Nonempty) (fun _ => False)
          (a.cross b))
      (fun _ => False) b.compress) (fun _ => False) (build size setsB)) (fun _ => False)
      (build size setsA) := by
  apply (build_post hA).imp
  rintro a ⟨ha, rfl⟩
  apply (build_post hB).imp
  rintro b ⟨hb, hba⟩
  have hab : a.size = b.size := hba.symm
  apply (hb.compress_post (by rw [hba]; exact hsize)).imp
  rintro c ⟨hcb, hc⟩
  have hac : a.size = c.size := hab.trans hcb.symm
  refine ⟨⟨?_, ?_, ?_⟩, ?_, ?_, ?_⟩
  · rw [andAssign_eq_assign, andAssign_eq_assign, Operator.assign_compressed _ ha hc hac,
      Operator.assign_eq _ ha hb hab]
  · rw [orAssign_eq_assign, orAssign_eq_assign, Operator.assign_compressed _ ha hc hac,
      Operator.assign_eq _ ha hb hab]
  · exact eq_of_decides (cross_compressed ha hc hac) (cross_post ha hb hab)
  · rw [andAssign_eq_assign, Operator.assign_eq _ ha hb hab]
    exact indices_and ha hb hab
  · rw [orAssign_eq_assign, Operator.assign_eq _ ha hb hab]
    exact indices_or ha hb hab
  · refine (cross_post ha hb hab).imp (fun found hfound => ?_)
    rw [hfound, meets_iff_nonempty ha hb hab]

theorem operators_on_compressed_hundred : Post (fun a => Post (fun b => Post (fun c =>
        (a.andAssign c = a.andAssign b ∧ a.orAssign c = a.orAssign b ∧ a.cross c = a.cross b) ∧
        Post (fun r => indices r = indices a ∩ indices b) (fun _ => False) (a.andAssign b) ∧
        Post (fun r => indices r = indices a ∪ indices b) (fun _ => False) (a.orAssign b) ∧
        Post (fun found => found = true ↔ (indices a ∩ indices b).Nonempty) (fun _ => False)
          (a.cross b))
      (fun _ => False) b.compress) (fun _ => False) (build 100 [(99, true)])) (fun _ => False)
      (build 100 [(3, true), (99, true)]) :=
  operators_on_compressed 100 [(3, true), (99, true)] [(99, true)] (by decide) (by decide)
    (by decide)

end Helens.Ds.Bitmap
