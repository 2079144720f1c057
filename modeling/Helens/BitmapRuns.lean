import Helens.BitmapSets

/-! Runs of all operations that make or change bitmaps. The words stay clean as long as no
call sets a bit outside the size; the calls that do are named by `Safe`. -/

namespace Helens.Ds.Bitmap

open Lib.Runs Lib.RangeLoops Lib.RunLength List

/-! ## Runs -/

inductive Action
  | new (size : Nat) (byte : BitVec 8)
  | copy (i : Nat)
  | set (i idx : Nat) (v : Bool)
  | setRange (i start n : Nat) (v : Bool)
  | andAssign (i j : Nat)
  | orAssign (i j : Nat)
  | complement (i : Nat)
  | resize (i size : Nat) (v : Bool)
  | compress (i : Nat)
  | uncompress (i : Nat)

def call (s : List Bitmap) (i : Nat) (f : Bitmap → Except BitmapError Bitmap)
    (store : Bitmap → List Bitmap) : Except BitmapError (List Bitmap) :=
  match s[i]? with
  | none => .ok s
  | some b =>
    match f b with
    | .ok b' => .ok (store b')
    | .error (.logicError _) => .ok s
    | .error e => .error e

def exec : Action → List Bitmap → Except BitmapError (List Bitmap)
  | .new size byte, s => .ok (s ++ [new size byte])
  | .copy i, s => call s i .ok fun b => s ++ [b]
  | .set i idx v, s => call s i (fun b => b.set idx v) (s.set i)
  | .setRange i start n v, s => call s i (fun b => do
      let data ← Bitmap.setRange b.data start n v
      .ok { b with data }) (s.set i)
  | .andAssign i j, s =>
    match s[j]? with
    | none => .ok s
    | some b => call s i (fun a => a.andAssign b) (s.set i)
  | .orAssign i j, s =>
    match s[j]? with
    | none => .ok s
    | some b => call s i (fun a => a.orAssign b) (s.set i)
  | .complement i, s => call s i complement (s.set i)
  | .resize i size v, s => call s i (fun b => b.resize size v) (s.set i)
  | .compress i, s => call s i compress fun b => s ++ [b]
  | .uncompress i, s => call s i uncompress fun b => s ++ [b]

def AllClean (s : List Bitmap) : Prop :=
  ∀ b ∈ s, b.compressed = false → Clean b.size b.data
  deriving Decidable

/-- The complement of a small bitmap, default bytes, growing with ones, shrinking, setting
beyond the size, and the complement of a compressed bitmap. -/
theorem runs_leave_bits_outside :
    ¬ Post AllClean (fun _ => True) (run exec [.new 10 0#8, .complement 0] []) ∧
    ¬ Post AllClean (fun _ => True) (run exec [.new 10 0xFF#8] []) ∧
    ¬ Post AllClean (fun _ => True) (run exec [.new 10 0#8, .resize 0 20 true] []) ∧
    ¬ Post AllClean (fun _ => True) (run exec [.new 10 0#8, .set 0 9 true, .resize 0 5 false] []) ∧
    ¬ Post AllClean (fun _ => True) (run exec [.new 10 0#8, .set 0 12 true] []) ∧
    ¬ Post AllClean (fun _ => True)
      (run exec [.new 10 0#8, .compress 0, .complement 1, .uncompress 1] []) := by
  decide +kernel

/-! ## What keeps the words clean -/

/-- A call that sets no bit outside the size and accesses no word outside the array. -/
def Safe (s : List Bitmap) : Action → Prop
  | .new size byte => size = 0 ∨
    byte.toNat < 64 ∧ (size % 14 ≠ 0 → 257 * byte.toNat < 2 ^ (size % 14))
  | .copy _ => True
  | .set i idx v => ∀ b ∈ s[i]?, b.compressed = false ∧ idx / 14 < b.data.length ∧
    (idx < b.size ∨ v = false)
  | .setRange i start n v => ∀ b ∈ s[i]?, b.compressed = false ∧
    (start + n) % 2 ^ 32 / 14 ≤ b.data.length ∧ ((start + n) % 2 ^ 32 ≤ b.size ∨ v = false)
  | .andAssign _ _ => True
  | .orAssign _ _ => True
  | .complement i => ∀ b ∈ s[i]?, b.size = 0 ∨ b.compressed = true ∧ b.size % 14 = 0
  | .resize i size v => ∀ b ∈ s[i]?, b.compressed = true ∨
    (b.data.length < wordsFor size ∧ v = false ∧ 0 < b.data.length) ∨
    (wordsFor size ≤ b.data.length ∧
      (size % 14 = 0 ∨ ∀ p < 14, size % 14 ≤ p → bit b.data (14 * (size / 14) + p) = false))
  | .compress i => ∀ b ∈ s[i]?, 14 * wordsFor b.size < 2 ^ 32
  | .uncompress _ => True

instance (s : List Bitmap) : (a : Action) → Decidable (Safe s a)
  | .new size byte => inferInstanceAs (Decidable (_ ∨ _))
  | .copy _ => inferInstanceAs (Decidable True)
  | .set i idx v => inferInstanceAs (Decidable (∀ b ∈ s[i]?, _))
  | .setRange i start n v => inferInstanceAs (Decidable (∀ b ∈ s[i]?, _))
  | .andAssign _ _ => inferInstanceAs (Decidable True)
  | .orAssign _ _ => inferInstanceAs (Decidable True)
  | .complement i => inferInstanceAs (Decidable (∀ b ∈ s[i]?, _))
  | .resize i size v => inferInstanceAs (Decidable (∀ b ∈ s[i]?, _))
  | .compress i => inferInstanceAs (Decidable (∀ b ∈ s[i]?, _))
  | .uncompress _ => inferInstanceAs (Decidable True)

/-- Proper as it is, or the code of clean words. -/
inductive Sound : Bitmap → Prop
  | proper {b : Bitmap} (h : Proper b) : Sound b
  | packed {b : Bitmap} {ws : List Word} (h : Compressed b ws) (hclean : Clean b.size ws) : Sound b

variable {b : Bitmap}

theorem Sound.ofUncompressed (h : Sound b) (hb : b.compressed = false) : Proper b := by
  cases h with
  | proper h => exact h
  | packed h =>
    rw [h.compressed] at hb
    cases hb

/-! ## The calls -/

theorem new_sound {size : Nat} (h : size = 0 ∨
    byte.toNat < 64 ∧ (size % 14 ≠ 0 → 257 * byte.toNat < 2 ^ (size % 14))) :
    Proper (new size byte) := by
  refine ⟨rfl, length_replicate, clean_iff.mpr fun j w hw p hp => ?_⟩
  have hj : j < wordsFor size := by
    have hlt := (List.getElem?_eq_some_iff.mp hw).1
    rwa [new, length_replicate] at hlt
  have hword : w.toNat = 257 * byte.toNat := by
    rw [eq_of_mem_replicate (mem_of_getElem? hw), BitVec.toNat_append,
      ← Nat.shiftLeft_add_eq_or_of_lt byte.isLt, Nat.shiftLeft_eq]
    omega
  have hbit : 2 ^ p ≤ 257 * byte.toNat := by
    rw [← hword]
    exact Nat.ge_two_pow_of_testBit hp
  rw [wordsFor] at hj
  rcases h with rfl | ⟨hbyte, hlast⟩
  · omega
  · have hp14 : p < 14 := by
      have hlt : 2 ^ p < 2 ^ 14 := lt_of_le_of_lt hbit (by omega)
      exact (Nat.pow_lt_pow_iff_right (by decide)).mp hlt
    refine ⟨hp14, ?_⟩
    dsimp only [new]
    by_cases hfull : j < size / 14
    · omega
    · have hlt : 2 ^ p < 2 ^ (size % 14) := lt_of_le_of_lt hbit (hlast (by omega))
      have hp : p < size % 14 := (Nat.pow_lt_pow_iff_right (by decide)).mp hlt
      omega

theorem setRange_post (start n) {v : Bool} (h : Proper b)
    (hstop : (start + n) % 2 ^ 32 / 14 ≤ b.data.length)
    (hv : (start + n) % 2 ^ 32 ≤ b.size ∨ v = false) :
    Post (fun data => Proper { b with data }) (fun e => e = .assertion)
      (Bitmap.setRange b.data start n v) := by
  unfold Bitmap.setRange
  split
  · exact h
  · dsimp only
    split
    · next haligned =>
      by_cases hrange : start / 14 ≤ (start + n) % 2 ^ 32 / 14
      · have hend : start / 14 + ((start + n) % 2 ^ 32 / 14 - start / 14) ≤ b.data.length := by
          omega
        rw [foldlM_each (g := fun _ _ => fill v) (fun i _ _ l hl => ?_) _ hend]
        · refine ⟨h.uncompressed, (length_mapRange).trans h.length,
            clean_iff.mpr fun j w hw p hp => ?_⟩
          dsimp only at hw ⊢
          rw [getElem?_mapRange] at hw
          obtain ⟨old, hold, rfl⟩ := Option.map_eq_some_iff.mp hw
          split at hp
          · next hin =>
            have hp14 : p < 14 := by
              by_contra hge
              rw [(plain_fill v).getLsbD (Nat.not_lt.mp hge)] at hp
              cases hp
            rcases hv with hle | rfl
            · omega
            · simp [fill] at hp
          · exact clean_iff.mp h.clean j old hold p hp
        · have hwrite := write_mapRange (g := fun _ _ => fill v) (le_refl i)
            (getElem?_eq_getElem hl)
          rwa [mapRange_empty (le_refl i)] at hwrite
      · have hnone : (start + n) % 2 ^ 32 / 14 - start / 14 = 0 := by omega
        rw [hnone]
        exact h
    · exact rfl

theorem Sound.words (h : Sound b) :
    ∃ b', Proper b' ∧ b'.size = b.size ∧
      (b.compressed = false ∧ b' = b ∨ Compressed b b'.data) := by
  cases h with
  | proper h => exact ⟨b, h, rfl, .inl ⟨h.uncompressed, rfl⟩⟩
  | @packed ws h hclean => exact ⟨⟨false, b.size, ws⟩, ⟨rfl, h.length, hclean⟩, rfl, .inr h⟩

def Thrown (e : BitmapError) : Prop := ∃ what, e = .logicError what

theorem Operator.assign_post (o : Operator) {a : Bitmap} (ha : Sound a) (hb : Sound b) :
    Post Proper Thrown (o.assign a b) := by
  by_cases hsize : a.size = b.size
  · cases ha with
    | proper ha =>
      obtain ⟨b', hb', hb'size, ⟨hflag, rfl⟩ | hc⟩ := hb.words
      · rw [o.assign_eq ha hb' hsize]
        exact o.combine_proper ha hb' hsize
      · rw [o.assign_compressed ha hc hsize]
        exact o.combine_proper ha hb' (hsize.trans hb'size.symm)
    | packed ha =>
      unfold assign
      rw [if_neg (not_not.mpr hsize), ha.compressed]
      cases b.compressed with
      | true => exact ⟨_, rfl⟩
      | false => exact ⟨_, rfl⟩
  · rw [assign, if_pos hsize]
    exact ⟨_, rfl⟩

/-! ### Complements -/

theorem complement_eq (h : Sized b) :
    b.complement = .ok { b with data := b.data.map (~~~ ·) } := by
  have hbulk : bulk (fun _ x => .ok (~~~ x)) (fun _ w => .ok (~~~ w)) b =
      .ok (b.data.mapIdx fun _ w => ~~~ w) := by
    refine bulk_eq (fun i _ w => rfl) (fun i _ w0 w1 w2 w3 => ?_) h.bulk_le
    rw [BitVec.not_append, BitVec.not_append, BitVec.not_append]
  unfold complement
  rw [h.uncompressed, hbulk]
  refine congrArg (fun data => Except.ok (⟨false, b.size, data⟩ : Bitmap)) ?_
  refine ext_getElem? fun j => ?_
  rw [getElem?_mapIdx, getElem?_map]

theorem isRun_flipWord (w) : isRun (flipWord w) = isRun w := by
  rw [isRun_eq, isRun_eq]
  unfold flipWord
  rw [isRun_eq]
  cases hrun : w.getLsbD 15 with
  | true =>
    rw [if_pos rfl]
    split
    · rw [BitVec.getLsbD_and, hrun]
      decide
    · rw [BitVec.getLsbD_or, hrun]
      decide
  | false =>
    rw [if_neg Bool.false_ne_true, BitVec.getLsbD_and, getLsbD_countMask]
    exact Bool.and_false _

theorem runValue_flipWord (h : isRun w = true) : runValue (flipWord w) = !runValue w := by
  unfold flipWord
  rw [if_pos h, runValue_eq, runValue_eq]
  cases hvalue : w.getLsbD 14 with
  | true =>
    rw [if_pos rfl, BitVec.getLsbD_and, hvalue]
    decide
  | false =>
    rw [if_neg Bool.false_ne_true, BitVec.getLsbD_or, hvalue]
    decide

theorem joins_flipWord (x y) : joins (flipWord x) (flipWord y) = joins x y := by
  unfold joins
  rw [isRun_flipWord, isRun_flipWord]
  cases hx : isRun x with
  | false => rfl
  | true =>
    cases hy : isRun y with
    | false => rfl
    | true =>
      rw [runValue_flipWord hx, runValue_flipWord hy]
      cases runValue x <;> cases runValue y <;> rfl

theorem flipWord_runWord (v) (hd : d < 2 ^ 14) : flipWord (runWord v d) = runWord (!v) d := by
  have hvalue : ∀ i < 16, valueMask.getLsbD i = decide (i = 14) := by decide
  unfold flipWord
  rw [if_pos (isRun_runWord v d), runValue_runWord v hd]
  apply BitVec.eq_of_getLsbD_eq
  intro i hi
  cases v with
  | true =>
    rw [if_pos rfl, BitVec.getLsbD_and, BitVec.getLsbD_not, getLsbD_runWord _ hi,
      getLsbD_runWord _ hi, hvalue i hi]
    by_cases h14 : i = 14
    · subst h14
      simp [Nat.testBit_lt_two_pow hd]
    · simp [h14, hi]
  | false =>
    rw [if_neg Bool.false_ne_true, BitVec.getLsbD_or, getLsbD_runWord _ hi, getLsbD_runWord _ hi,
      hvalue i hi]
    by_cases h14 : i = 14
    · simp [h14]
    · simp [h14]

theorem map_flipWord_runWords (v fuel count) :
    (runWords v fuel count).map flipWord = runWords (!v) fuel count := by
  induction fuel generalizing count with
  | zero => rfl
  | succ fuel ih =>
    by_cases hcount : count = 0
    · simp [hcount]
    · have hdigit : count % 2 ^ 14 < 2 ^ 14 := Nat.mod_lt _ (by decide)
      rw [runWords_succ v fuel hcount, runWords_succ (!v) fuel hcount, map_cons, ih,
        flipWord_runWord v hdigit]

def flipPlain (w : Word) : Word := ~~~ w &&& countMask

theorem plain_flipPlain (w) : Plain (flipPlain w) := by
  apply plain_of_getLsbD
  intro i hi
  have hnot : ¬ i < 14 := by omega
  rw [flipPlain, BitVec.getLsbD_and, getLsbD_countMask, decide_eq_false hnot, Bool.and_false]

theorem Plain.flipWord_eq (hw : Plain w) : flipWord w = flipPlain w := by
  rw [flipWord, hw.isRun]
  rfl

theorem Means.flip (h : Means g vs) : Means (g.map flipWord) (vs.map flipPlain) := by
  cases h with
  | @literal w hw =>
    rw [map_singleton, map_singleton, hw.flipWord_eq]
    exact .literal (plain_flipPlain w)
  | @run v n hn hfit =>
    have hfill : flipPlain (fill v) = fill (!v) := by
      cases v <;> rfl
    rw [map_flipWord_runWords, map_replicate, hfill]
    exact .run hn hfit

theorem complement_sound (h : Sound b)
    (hsafe : b.size = 0 ∨ b.compressed = true ∧ b.size % 14 = 0) :
    Post Sound Never b.complement := by
  cases h with
  | proper h =>
    have hsize : b.size = 0 := by
      rcases hsafe with hsize | ⟨hflag, -⟩
      · exact hsize
      · rw [h.uncompressed] at hflag
        cases hflag
    have hdata : b.data = [] := by
      have hlen := h.length
      rw [hsize] at hlen
      exact length_eq_zero_iff.mp hlen
    rw [complement_eq h.sized, hdata]
    apply Sound.proper
    rw [map_nil, ← hdata]
    exact h
  | @packed ws h hclean =>
    have hmod : b.size % 14 = 0 := by
      rcases hsafe with hsize | ⟨-, hmod⟩
      · rw [hsize]
      · exact hmod
    have hcode : Encodes (b.data.map flipWord) (ws.map flipPlain) :=
      Codes.map h.code joins_flipWord fun _ _ => Means.flip
    have hcompl : b.complement = .ok { b with data := b.data.map flipWord } := by
      rw [complement, h.compressed]
      rfl
    rw [hcompl]
    have hlen : (ws.map flipPlain).length = ws.length := length_map _
    have hpacked : Compressed { b with data := b.data.map flipWord } (ws.map flipPlain) :=
      ⟨h.compressed, hcode, hlen.trans h.length, by rw [hlen]; exact h.fits⟩
    apply Sound.packed hpacked
    · rw [clean_iff]
      intro j w hw p hp
      have hj := (List.getElem?_eq_some_iff.mp hw).1
      rw [hlen, h.length, wordsFor] at hj
      obtain ⟨old, -, rfl⟩ := mem_map.mp (mem_of_getElem? hw)
      have hp14 : p < 14 := by
        by_contra hge
        rw [(plain_flipPlain old).getLsbD (Nat.not_lt.mp hge)] at hp
        cases hp
      dsimp only
      omega

/-! ### Resizing -/

def grown (b : Bitmap) (size : Nat) (v : Bool) : List Word :=
  b.data ++ List.replicate (wordsFor size - b.data.length) (if v then 0xFFFF#16 else 0#16)

section Resize

variable {b : Bitmap} {size : Nat} {v : Bool}

theorem length_grown (hgrow : b.data.length < wordsFor size) :
    (grown b size v).length = wordsFor size := by
  rw [grown, length_append, length_replicate]
  exact Nat.add_sub_cancel' (Nat.le_of_lt hgrow)

theorem getElem?_grown_old (hj : j < b.data.length) :
    (grown b size v)[j]? = b.data[j]? := getElem?_append_left hj

theorem getElem?_grown_new (hj : b.data.length ≤ j) (hlt : j < wordsFor size) :
    (grown b size v)[j]? = some (if v then 0xFFFF#16 else 0#16) := by
  have hnew : j - b.data.length < wordsFor size - b.data.length := by omega
  rw [grown, getElem?_append_right hj, getElem?_replicate, if_pos hnew]

theorem resize_eq_grown (hb : b.compressed = false) (hgrow : b.data.length < wordsFor size)
    (hw : b.data[b.data.length - 1]? = some w) :
    b.resize size v = .ok ⟨false, size, (grown b size v).set (b.data.length - 1)
      (if v then w ||| mask (b.size % 14) else w &&& mask (b.size % 14))⟩ := by
  have hlast := (List.getElem?_eq_some_iff.mp hw).1
  have hcell : (grown b size v)[b.data.length - 1]? = some w :=
    (getElem?_grown_old hlast).trans hw
  have hroom := (List.getElem?_eq_some_iff.mp hcell).1
  unfold resize
  rw [hb, if_neg Bool.false_ne_true]
  dsimp only
  rw [if_pos hgrow, if_neg (by omega), ← grown, read_eq hcell]
  dsimp only [bind, Except.bind]
  rw [write_eq hroom]

theorem resize_eq_taken (hb : b.compressed = false) (hkeep : wordsFor size ≤ b.data.length) :
    b.resize size v = .ok ⟨false, size, b.data.take (wordsFor size)⟩ := by
  unfold resize
  rw [hb, if_neg Bool.false_ne_true]
  dsimp only
  rw [if_neg (Nat.not_lt.mpr hkeep)]

theorem resize_grown (h : Proper b) (hgrow : b.data.length < wordsFor size)
    (hpos : 0 < b.data.length) : Post Proper Never (b.resize size false) := by
  have hlast : b.data.length - 1 < b.data.length := Nat.sub_lt hpos (by decide)
  have hcell := getElem?_eq_getElem hlast
  have hsizes : b.size < size := by
    rw [h.length, wordsFor, wordsFor] at hgrow
    omega
  have hclean : Clean size (grown b size false) := by
    rw [clean_iff]
    intro j w hw p hp
    by_cases hj : j < b.data.length
    · rw [getElem?_grown_old hj] at hw
      have hold := clean_iff.mp h.clean j w hw p hp
      omega
    · have hlt := (List.getElem?_eq_some_iff.mp hw).1
      rw [length_grown hgrow] at hlt
      rw [getElem?_grown_new (Nat.not_lt.mp hj) hlt] at hw
      obtain rfl := Option.some.inj hw
      rw [if_neg Bool.false_ne_true, BitVec.getLsbD_zero] at hp
      cases hp
  rw [resize_eq_grown h.uncompressed hgrow hcell]
  refine ⟨rfl, ?_, hclean.set fun p hp => ?_⟩
  · rw [length_set]
    exact length_grown hgrow
  · rw [if_neg Bool.false_ne_true, BitVec.getLsbD_and, Bool.and_eq_true] at hp
    have hold := clean_iff.mp h.clean _ _ hcell p hp.1
    omega

theorem resize_kept (h : Proper b) (hkeep : wordsFor size ≤ b.data.length) (hfree : size % 14 = 0 ∨
      ∀ p < 14, size % 14 ≤ p → bit b.data (14 * (size / 14) + p) = false) :
    Post Proper Never (b.resize size v) := by
  rw [resize_eq_taken h.uncompressed hkeep]
  refine ⟨rfl, length_take_of_le hkeep, clean_iff.mpr fun j w hw p hp => ?_⟩
  rw [getElem?_take] at hw
  split at hw
  · next hj =>
    have hp14 := (clean_iff.mp h.clean j w hw p hp).1
    refine ⟨hp14, ?_⟩
    by_contra hge
    rw [wordsFor] at hj
    dsimp only at hge
    have hword : j = size / 14 := by omega
    subst hword
    rcases hfree with hzero | hfree
    · omega
    · have hbit := hfree p hp14 (by omega)
      rw [bit_mul_add hw hp14, hp] at hbit
      cases hbit
  · cases hw

end Resize

/-! ## Every run -/

theorem call_post {f : Bitmap → Except BitmapError Bitmap}
    {store : Bitmap → List Bitmap} (hs : ∀ b ∈ s, Sound b)
    (hf : ∀ b, s[i]? = some b → Sound b → Post Sound (fun e => e = .assertion ∨ Thrown e) (f b))
    (hstore : ∀ b, Sound b → ∀ c ∈ store b, Sound c) :
    Post (fun t => ∀ b ∈ t, Sound b) (fun e => e = .assertion) (call s i f store) := by
  unfold call
  cases hb : s[i]? with
  | none => exact hs
  | some b =>
    have hcall := hf b hb (hs b (mem_of_getElem? hb))
    dsimp only
    cases hfb : f b with
    | ok b' =>
      rw [hfb] at hcall
      exact hstore b' hcall
    | error e =>
      rw [hfb] at hcall
      rcases hcall with rfl | ⟨what, rfl⟩
      · exact rfl
      · exact hs

theorem resize_sound {size : Nat} {v : Bool} (h : Sound b)
    (hsafe : b.compressed = true ∨ (b.data.length < wordsFor size ∧ v = false ∧ 0 < b.data.length) ∨
      (wordsFor size ≤ b.data.length ∧ (size % 14 = 0 ∨
        ∀ p < 14, size % 14 ≤ p → bit b.data (14 * (size / 14) + p) = false))) :
    Post Sound Thrown (b.resize size v) := by
  by_cases hflag : b.compressed = true
  · rw [resize, if_pos hflag]
    exact ⟨_, rfl⟩
  · have hproper := h.ofUncompressed (Bool.eq_false_iff.mpr hflag)
    rcases hsafe with hbad | ⟨hgrow, rfl, hpos⟩ | ⟨hkeep, hfree⟩
    · exact absurd hbad hflag
    · exact (resize_grown hproper hgrow hpos).mono (fun _ h => .proper h) (fun _ => False.elim)
    · exact (resize_kept hproper hkeep hfree).mono (fun _ h => .proper h) (fun _ => False.elim)

theorem compress_sound (h : Sound b) (hfit : 14 * wordsFor b.size < 2 ^ 32) :
    Post Sound Never b.compress := by
  cases h with
  | proper h =>
    refine (h.compress_post hfit).mono ?_ (fun _ => False.elim)
    rintro c ⟨hsize, hc⟩
    exact .packed hc (by rw [hsize]; exact h.clean)
  | packed h hclean =>
    rw [Bitmap.compress, if_pos h.compressed]
    exact .packed h hclean

theorem uncompress_sound (h : Sound b) : Post Sound Never b.uncompress := by
  cases h with
  | proper h =>
    rw [Bitmap.uncompress, h.uncompressed]
    exact .proper h
  | packed h hclean =>
    rw [uncompress_eq h.compressed h.code h.length h.fits]
    exact .proper ⟨rfl, h.length, hclean⟩

theorem exec_sound (s a) (hs : ∀ b ∈ s, Sound b) (ha : Safe s a) :
    Post (fun t => ∀ b ∈ t, Sound b) (fun e => e = .assertion) (exec a s) := by
  have hset : ∀ i b, Sound b → ∀ c ∈ s.set i b, Sound c := by
    intro i b hb c hc
    rcases mem_or_eq_of_mem_set hc with hc | rfl
    · exact hs c hc
    · exact hb
  have happend : ∀ b, Sound b → ∀ c ∈ s ++ [b], Sound c := by
    intro b hb c hc
    rcases mem_append.mp hc with hc | hc
    · exact hs c hc
    · rw [mem_singleton.mp hc]
      exact hb
  have hassign : ∀ (o : Operator) {i j : Nat} {b : Bitmap}, s[j]? = some b →
      ∀ a, s[i]? = some a → Sound a →
        Post Sound (fun e => e = .assertion ∨ Thrown e) (o.assign a b) := by
    intro o i j b hj a _ ha
    exact (o.assign_post ha (hs b (mem_of_getElem? hj))).mono (fun _ h => .proper h)
      (fun _ h => .inr h)
  cases a with
  | new size byte => exact happend _ (.proper (new_sound ha))
  | copy i =>
    rw [exec]
    apply call_post hs _ happend
    intro b _ hb
    exact hb
  | set i idx v =>
    apply call_post hs _ (hset i)
    intro b hb hsound
    obtain ⟨hflag, hidx, hv⟩ := ha b hb
    exact (set_post (hsound.ofUncompressed hflag) hidx hv).mono (fun b' h => .proper h.1)
      (fun _ => False.elim)
  | setRange i start n v =>
    apply call_post hs _ (hset i)
    intro b hb hsound
    obtain ⟨hflag, hstop, hv⟩ := ha b hb
    have hrange := setRange_post start n (hsound.ofUncompressed hflag) hstop hv
    exact (hrange.mono (fun _ h => h) (fun _ h => .inl h)).bind fun data h => Sound.proper h
  | andAssign i j =>
    rw [exec]
    cases hj : s[j]? with
    | none => exact hs
    | some b => exact call_post hs (hassign .and hj) (hset i)
  | orAssign i j =>
    rw [exec]
    cases hj : s[j]? with
    | none => exact hs
    | some b => exact call_post hs (hassign .or hj) (hset i)
  | complement i =>
    apply call_post hs _ (hset i)
    intro b hb hsound
    exact (complement_sound hsound (ha b hb)).mono (fun _ h => h) (fun _ => False.elim)
  | resize i size v =>
    apply call_post hs _ (hset i)
    intro b hb hsound
    exact (resize_sound hsound (ha b hb)).mono (fun _ h => h) (fun _ h => .inr h)
  | compress i =>
    apply call_post hs _ happend
    intro b hb hsound
    exact (compress_sound hsound (ha b hb)).mono (fun _ h => h) (fun _ => False.elim)
  | uncompress i =>
    apply call_post hs _ happend
    intro b _ hsound
    exact (uncompress_sound hsound).mono (fun _ h => h) (fun _ => False.elim)

/-- Runs of safe calls keep every uncompressed bitmap clean. They end early only at a
failed assertion. -/
theorem safe_runs_stay_clean (as : List Action) (has : Along exec Safe as []) :
    Post AllClean (fun e => e = .assertion) (run exec as []) := by
  have hrun : Post (fun s => ∀ b ∈ s, Sound b) (fun e => e = .assertion) (run exec as []) :=
    post_run (fun s a hs ha => exec_sound s a hs ha) as [] has (by simp)
  apply hrun.imp
  intro s hs b hb hflag
  exact ((hs b hb).ofUncompressed hflag).clean

theorem safe_runs_stay_clean_run :
    Post AllClean (fun e => e = .assertion) (run exec [.new 28 0x3F#8, .new 28 0#8, .set 1 27 true,
      .compress 0, .complement 2, .orAssign 1 2, .uncompress 2, .andAssign 3 1,
      .setRange 3 0 14 true,
      .resize 3 40 false, .resize 3 28 false, .copy 3] []) :=
  safe_runs_stay_clean _ (by decide +kernel)

end Helens.Ds.Bitmap
