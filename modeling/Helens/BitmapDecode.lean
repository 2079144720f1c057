import Helens.BitmapCompress

/-! What the decoders read from compressed words: `&=`, `|=` and `uncompress` lay the words
of the code over an array, and `cross` looks for a word that meets one of them. -/

namespace Helens.Ds.Bitmap

open Lib.Runs Lib.RangeLoops Lib.RunLength List

/-! ## Laying words over words -/

def laid (literal : Word → Word → Word) (pre data : List Word) : List Word :=
  data.mapIdx fun j w => (pre[j]?).elim w (literal w)

section Laid

variable {literal : Word → Word → Word} {pre vs data : List Word}

theorem getElem?_laid (j : Nat) :
    (laid literal pre data)[j]? = data[j]?.map fun w => (pre[j]?).elim w (literal w) := by
  simp [laid]

theorem length_laid : (laid literal pre data).length = data.length := by
  simp [laid]

theorem laid_nil : laid literal [] data = data := by
  refine ext_getElem? fun j => ?_
  simp [getElem?_laid]

theorem laid_all (h : data.length = pre.length) :
    laid literal pre data = zipWith literal data pre := by
  refine ext_getElem? fun j => ?_
  rw [getElem?_laid, getElem?_zipWith]
  by_cases hj : j < data.length
  · have hj' : j < pre.length := by omega
    simp [hj, hj']
  · rw [getElem?_eq_none (Nat.not_lt.mp hj)]
    rfl

theorem laid_append {g : Nat → Word → Word}
    (h : ∀ j v w, vs[j]? = some v → data[pre.length + j]? = some w →
      g (pre.length + j) w = literal w v) :
    mapRange pre.length (pre.length + vs.length) g (laid literal pre data) =
      laid literal (pre ++ vs) data := by
  refine ext_getElem? fun j => ?_
  rw [getElem?_mapRange, getElem?_laid, getElem?_laid]
  cases hw : data[j]? with
  | none => rfl
  | some w =>
    simp only [Option.map_some]
    by_cases hpre : j < pre.length
    · have hout : ¬ (pre.length ≤ j ∧ j < pre.length + vs.length) := by omega
      rw [if_neg hout, getElem?_append_left hpre]
    · have hge : pre.length ≤ j := Nat.not_lt.mp hpre
      rw [getElem?_eq_none hge, getElem?_append_right hge]
      by_cases hvs : j < pre.length + vs.length
      · have hlt : j - pre.length < vs.length := by omega
        have hcell := getElem?_eq_getElem hlt
        have hsum : pre.length + (j - pre.length) = j := by omega
        have hg := h (j - pre.length) _ w hcell (by rw [hsum]; exact hw)
        rw [hsum] at hg
        rw [if_pos ⟨hge, hvs⟩, hcell]
        exact congrArg some hg
      · have hout : ¬ (pre.length ≤ j ∧ j < pre.length + vs.length) := by omega
        rw [if_neg hout, getElem?_eq_none (by omega)]

end Laid

theorem range_words (hfit : 14 * (p + n) < 2 ^ 32) :
    (14 * p + 14 * n) % 2 ^ 32 = 14 * (p + n) ∧ (14 * p % 14 = 0 ∧ 14 * (p + n) % 14 = 0) ∧
      14 * (p + n) / 14 - 14 * p / 14 = n ∧ 14 * p / 14 = p := by
  refine ⟨?_, by omega, by omega, by omega⟩
  rw [← Nat.mul_add]
  exact Nat.mod_eq_of_lt hfit

variable {data vs pre : List Word}

theorem setRange_eq (v) (hlen : p + n ≤ data.length)
    (hfit : 14 * (p + n) < 2 ^ 32) :
    setRange data (14 * p) (14 * n) v = .ok (mapRange p (p + n) (fun _ _ => fill v) data) := by
  unfold setRange
  by_cases hn : n = 0
  · subst hn
    rw [if_pos rfl, Nat.add_zero, mapRange_empty (le_refl _)]
  · obtain ⟨hstop, haligned, hcount, hfrom⟩ := range_words hfit
    rw [if_neg (by omega)]
    dsimp only
    rw [hstop, if_pos haligned, hcount, hfrom]
    refine foldlM_each (fun i _ _ l hl => ?_) data hlen
    have hwrite := write_mapRange (g := fun _ _ => fill v) (le_refl i)
      (getElem?_eq_getElem hl)
    rwa [mapRange_empty (le_refl i)] at hwrite

theorem mapRange_id : mapRange lo hi (fun _ w => w) data = data := by
  refine ext_getElem? fun j => ?_
  simp [getElem?_mapRange]

def Suits (writes : Bool → Bool) (literal : Word → Word → Word) (w : Word) : Prop :=
  ∀ v, literal w (fill v) = if writes v then fill v else w

theorem overlayStep_eq (writes : Bool → Bool) (literal : Word → Word → Word)
    {g : List Word} (hmeans : Means g vs) (hroom : p + vs.length ≤ data.length)
    (hfit : 14 * (p + vs.length) < 2 ^ 32) :
    ∃ upd : Nat → Word → Word, overlayStep writes literal (14 * p, data) g =
        .ok (14 * (p + vs.length), mapRange p (p + vs.length) upd data) ∧
      ∀ j v w, vs[j]? = some v → Suits writes literal w → upd (p + j) w = literal w v := by
  have hnext : (14 * p + 14 * vs.length) % 2 ^ 32 = 14 * (p + vs.length) := by
    rw [← Nat.mul_add]
    exact Nat.mod_eq_of_lt hfit
  have hpos : 14 * p / 14 = p := by omega
  cases hmeans with
  | @literal w hw =>
    rw [length_singleton] at hroom hnext ⊢
    refine ⟨fun _ old => literal old w, ?_, ?_⟩
    · have hcell := getElem?_eq_getElem hroom
      have hwrite := write_mapRange (g := fun _ old => literal old w) (le_refl p) hcell
      rw [mapRange_empty (le_refl p)] at hwrite
      unfold overlayStep
      rw [piece_literal hw]
      dsimp only [bind, Except.bind]
      rw [hpos, read_eq hcell]
      dsimp only
      rw [hwrite, ← hnext]
    · intro j v old hv _
      cases j with
      | zero => exact congrArg (literal old) (Option.some.inj hv)
      | succ j => simp at hv
  | @run v n hn hfit' =>
    rw [length_replicate] at hroom hfit hnext ⊢
    refine ⟨fun _ old => if writes v then fill v else old, ?_, ?_⟩
    · unfold overlayStep
      rw [piece_runWords v (by omega) hfit']
      dsimp only [bind, Except.bind]
      cases writes v with
      | true =>
        rw [if_pos rfl, setRange_eq v hroom hfit]
        dsimp only
        rw [hnext]
        simp only [↓reduceIte]
      | false =>
        rw [if_neg Bool.false_ne_true, hnext]
        simp only [Bool.false_eq_true, ↓reduceIte, mapRange_id]
    · intro j w old hw hsuits
      rw [eq_of_mem_replicate (mem_of_getElem? hw)]
      exact (hsuits v).symm

theorem overlay_eq {writes : Bool → Bool} {literal : Word → Word → Word} {code ws : List Word}
    (hcode : Encodes code ws) (hlen : data.length = ws.length) (hfit : 14 * ws.length < 2 ^ 32)
    (hsuits : ∀ w ∈ data, Suits writes literal w) :
    overlay writes literal code data = .ok (zipWith literal data ws) := by
  have hloop : Post (fun st => st = (14 * ws.length, laid literal ws data)) Never
      ((code.splitBy joins).foldlM (overlayStep writes literal) (0, data)) := by
    refine Codes.foldlM hcode (P := fun pre st => st = (14 * pre.length, laid literal pre data))
      (by simp [laid_nil]) ?_
    rintro pre g vs st hpre hmeans rfl
    have hroom := hpre.length_le
    rw [length_append, ← hlen] at hroom
    have hroom' : pre.length + vs.length ≤ (laid literal pre data).length := by
      rw [length_laid]
      exact hroom
    obtain ⟨upd, hstep, hupd⟩ := overlayStep_eq writes literal hmeans hroom' (by omega)
    have hlaid : mapRange pre.length (pre.length + vs.length) upd (laid literal pre data) =
        laid literal (pre ++ vs) data :=
      laid_append fun j v w hv hw => hupd j v w hv (hsuits w (mem_of_getElem? hw))
    rw [hstep, hlaid, length_append]
    rfl
  unfold overlay
  rw [hloop.eq_ok, laid_all hlen]
  rfl

theorem uncompress_eq {c : Bitmap} {ws : List Word} (hc : c.compressed = true)
    (hcode : Encodes c.data ws) (hlen : ws.length = wordsFor c.size)
    (hfit : 14 * ws.length < 2 ^ 32) : c.uncompress = .ok ⟨false, c.size, ws⟩ := by
  have hsame : (new c.size 0#8).data.length = ws.length := by
    rw [hlen]
    exact length_replicate
  have hover : overlay (fun _ => true) (fun _ w => w) c.data (new c.size 0#8).data =
      .ok (zipWith (fun _ w => w) (new c.size 0#8).data ws) :=
    overlay_eq hcode hsame hfit fun w _ v => rfl
  have hws : zipWith (fun _ w => w) (new c.size 0#8).data ws = ws := by
    refine ext_getElem (by simp [hsame]) fun j _ _ => ?_
    rw [getElem_zipWith]
  unfold uncompress
  rw [hc, hover, hws]
  rfl

/-! ## Crossing -/

def Meets (xs ys : List Word) : Prop :=
  ∃ (j : Nat) (x y : Word), xs[j]? = some x ∧ ys[j]? = some y ∧ x &&& y ≠ 0#16

theorem meets_append : Meets data (pre ++ vs) ↔ Meets data pre ∨
      ∃ (j : Nat) (x y : Word), data[pre.length + j]? = some x ∧ vs[j]? = some y ∧
        x &&& y ≠ 0#16 := by
  constructor
  · rintro ⟨j, x, y, hx, hy, hxy⟩
    by_cases hj : j < pre.length
    · rw [getElem?_append_left hj] at hy
      exact .inl ⟨j, x, y, hx, hy, hxy⟩
    · rw [getElem?_append_right (Nat.not_lt.mp hj)] at hy
      have hsum : pre.length + (j - pre.length) = j := by omega
      exact .inr ⟨j - pre.length, x, y, by rw [hsum]; exact hx, hy, hxy⟩
  · rintro (⟨j, x, y, hx, hy, hxy⟩ | ⟨j, x, y, hx, hy, hxy⟩)
    · have hj := (List.getElem?_eq_some_iff.mp hy).1
      exact ⟨j, x, y, hx, by rw [getElem?_append_left hj]; exact hy, hxy⟩
    · refine ⟨pre.length + j, x, y, hx, ?_, hxy⟩
      rw [getElem?_append_right (Nat.le_add_right _ _), Nat.add_sub_cancel_left]
      exact hy

theorem meets_append_word (hx : data[pre.length]? = some x) :
    Meets data (pre ++ [w]) ↔ Meets data pre ∨ x &&& w ≠ 0#16 := by
  rw [meets_append]
  refine or_congr_right ⟨?_, fun hne => ⟨0, x, w, hx, rfl, hne⟩⟩
  rintro ⟨j, x', y, hx', hy, hne⟩
  cases j with
  | zero =>
    obtain rfl : w = y := Option.some.inj hy
    rw [Nat.add_zero, hx] at hx'
    rw [Option.some.inj hx']
    exact hne
  | succ j => simp at hy

theorem meets_append_replicate :
    Meets data (pre ++ replicate n w) ↔ Meets data pre ∨
      ∃ j < n, ∃ x, data[pre.length + j]? = some x ∧ x &&& w ≠ 0#16 := by
  rw [meets_append]
  apply or_congr_right
  constructor
  · rintro ⟨j, x, y, hx, hy, hne⟩
    rw [getElem?_replicate] at hy
    split at hy
    · next hj =>
      obtain rfl : w = y := Option.some.inj hy
      exact ⟨j, hj, x, hx, hne⟩
    · cases hy
  · rintro ⟨j, hj, x, hx, hne⟩
    exact ⟨j, x, w, hx, by rw [getElem?_replicate, if_pos hj], hne⟩

theorem getRange_eq (hn : n ≠ 0) (hlen : p + n ≤ data.length)
    (hfit : 14 * (p + n) < 2 ^ 32) :
    Post (fun found => found = true ↔
        ∃ j < n, ∃ w, data[p + j]? = some w ∧ w &&& countMask ≠ 0#16) Never
      (getRange data (14 * p) (14 * n) true) := by
  obtain ⟨hstop, haligned, hcount, hfrom⟩ := range_words hfit
  unfold getRange
  rw [if_neg (by omega)]
  dsimp only
  rw [hstop, if_pos haligned, hcount, hfrom]
  have hany : ∀ i ∈ range' p n, (do
      let w ← read data i
      Except.ok (if true then w &&& countMask != 0#16 else w &&& countMask == 0#16)) =
      .ok (data[i]?.getD 0#16 &&& countMask != 0#16) := by
    intro i hi
    have hlt : i < data.length := by
      have hrange := mem_range'_1.mp hi
      omega
    rw [read_lt hlt, getElem?_eq_getElem hlt]
    rfl
  rw [anyM_eq_ok hany, post_ok, any_eq_true]
  constructor
  · rintro ⟨i, hi, hne⟩
    have hrange := mem_range'_1.mp hi
    have hlt : i < data.length := by omega
    have hsum : p + (i - p) = i := by omega
    rw [getElem?_eq_getElem hlt, Option.getD_some, bne_iff_ne] at hne
    exact ⟨i - p, by omega, data[i], by rw [hsum, getElem?_eq_getElem hlt], hne⟩
  · rintro ⟨j, hj, w, hw, hne⟩
    refine ⟨p + j, mem_range'_1.mpr ⟨by omega, by omega⟩, ?_⟩
    rw [hw, Option.getD_some, bne_iff_ne]
    exact hne

def Found (data pre : List Word) (st : Nat × Bool) : Prop :=
  (st.2 = true ↔ Meets data pre) ∧ (st.2 = false → st.1 = 14 * pre.length)

theorem crossStep_post {g : List Word} (hmeans : Means g vs)
    (hroom : pre.length + vs.length ≤ data.length) (hfit : 14 * (pre.length + vs.length) < 2 ^ 32)
    (h : Found data pre st) : Post (Found data (pre ++ vs)) Never (crossStep data st g) := by
  obtain ⟨cur, found⟩ := st
  obtain ⟨hfound, hcur⟩ := h
  have hnext : (14 * pre.length + 14 * vs.length) % 2 ^ 32 = 14 * (pre ++ vs).length := by
    rw [length_append, ← Nat.mul_add]
    exact Nat.mod_eq_of_lt hfit
  have hpos : 14 * pre.length / 14 = pre.length := Nat.mul_div_cancel_left _ (by decide)
  cases found with
  | true => exact ⟨iff_of_true rfl (meets_append.mpr (.inl (hfound.mp rfl))), nofun⟩
  | false =>
    have hnone : ¬ Meets data pre := fun hmeets => Bool.false_ne_true (hfound.mpr hmeets)
    obtain rfl : cur = 14 * pre.length := hcur rfl
    unfold crossStep
    rw [if_neg Bool.false_ne_true]
    cases hmeans with
    | @literal w hw =>
      rw [length_singleton] at hroom hnext
      have hcell := getElem?_eq_getElem hroom
      rw [piece_literal hw]
      dsimp only [bind, Except.bind]
      rw [hpos, read_eq hcell]
      dsimp only [post_ok]
      refine ⟨?_, fun _ => hnext⟩
      rw [meets_append_word hcell, bne_iff_ne, or_iff_right hnone]
    | @run v n hn hfit' =>
      rw [length_replicate] at hroom hfit hnext
      rw [piece_runWords v (by omega) hfit']
      dsimp only [bind, Except.bind]
      cases v with
      | false =>
        rw [if_neg Bool.false_ne_true]
        refine ⟨iff_of_false Bool.false_ne_true ?_, fun _ => hnext⟩
        rw [meets_append_replicate, or_iff_right hnone]
        rintro ⟨j, -, x, -, hne⟩
        exact hne BitVec.and_zero
      | true =>
        rw [if_pos rfl]
        refine (getRange_eq (by omega) hroom hfit).bind fun found hfound' => ?_
        refine ⟨?_, fun _ => hnext⟩
        rw [meets_append_replicate, or_iff_right hnone]
        exact hfound'

theorem compressCross_post (hcode : Encodes c.data ws)
    (hlen : a.data.length = ws.length) (hfit : 14 * ws.length < 2 ^ 32) :
    Post (fun found => found = true ↔ Meets a.data ws) Never (compressCross a c) := by
  have hloop : Post (Found a.data ws) Never
      ((c.data.splitBy joins).foldlM (crossStep a.data) (0, false)) := by
    refine Codes.foldlM hcode (P := Found a.data) ?_ ?_
    · refine ⟨iff_of_false Bool.false_ne_true ?_, fun _ => rfl⟩
      rintro ⟨j, x, y, -, hy, -⟩
      simp at hy
    · intro pre g vs st hpre hmeans hst
      have hroom := hpre.length_le
      rw [length_append] at hroom
      exact crossStep_post hmeans (by omega) (by omega) hst
  exact hloop.bind fun st hst => hst.1

theorem and_words_ne_zero (x0 x1 x2 x3 y0 y1 y2 y3) :
    (x3 ++ x2 ++ x1 ++ x0 : BitVec 64) &&& (y3 ++ y2 ++ y1 ++ y0) ≠ 0#64 ↔
      x0 &&& y0 ≠ 0#16 ∨ x1 &&& y1 ≠ 0#16 ∨ x2 &&& y2 ≠ 0#16 ∨ x3 &&& y3 ≠ 0#16 := by
  have hand : (x3 ++ x2 ++ x1 ++ x0 : BitVec 64) &&& (y3 ++ y2 ++ y1 ++ y0) =
      (x3 &&& y3) ++ (x2 &&& y2) ++ (x1 &&& y1) ++ (x0 &&& y0) := by
    rw [BitVec.and_append, BitVec.and_append, BitVec.and_append]
  rw [hand]
  constructor
  · intro hne
    by_contra hall
    simp only [not_or, not_not] at hall
    obtain ⟨h0, h1, h2, h3⟩ := hall
    rw [h0, h1, h2, h3] at hne
    exact hne rfl
  · intro hone hzero
    obtain ⟨e0, e1, e2, e3⟩ := extract_words (x0 &&& y0) (x1 &&& y1) (x2 &&& y2) (x3 &&& y3)
    rw [hzero] at e0 e1 e2 e3
    rcases hone with h | h | h | h
    · exact h e0.symm
    · exact h e1.symm
    · exact h e2.symm
    · exact h e3.symm

def meetsAt (xs ys : List Word) (j : Nat) : Bool :=
  xs[j]?.getD 0#16 &&& ys[j]?.getD 0#16 != 0#16

theorem meets_iff (h : xs.length = ys.length) :
    Meets xs ys ↔ ∃ j < xs.length, meetsAt xs ys j = true := by
  constructor
  · rintro ⟨j, x, y, hx, hy, hxy⟩
    refine ⟨j, (List.getElem?_eq_some_iff.mp hx).1, ?_⟩
    rw [meetsAt, hx, hy, bne_iff_ne]
    exact hxy
  · rintro ⟨j, hj, hmeet⟩
    have hx := getElem?_eq_getElem hj
    have hy := getElem?_eq_getElem (h ▸ hj)
    rw [meetsAt, hx, hy, bne_iff_ne] at hmeet
    exact ⟨j, _, _, hx, hy, hmeet⟩

theorem normalCross_post (hlen : a.data.length = b.data.length)
    (hsize : 4 * (a.size / 56) ≤ a.data.length) :
    Post (fun found => found = true ↔ Meets a.data b.data) Never (normalCross a b) := by
  have hwide : ∀ i ∈ range' 0 (a.size / 56), (do
      let x ← readU64 a.data i
      if x ≠ 0#64 then
        let y ← readU64 b.data i
        Except.ok (x &&& y != 0#64)
      else Except.ok false) =
      .ok ((range' (4 * i) 4).any (meetsAt a.data b.data)) := by
    intro i hi
    have hrange := mem_range'_1.mp hi
    have hroom : 4 * i + 4 ≤ a.data.length := by omega
    obtain ⟨x0, x1, x2, x3, hx0, hx1, hx2, hx3, hreadx⟩ := exists_words i hroom
    obtain ⟨y0, y1, y2, y3, hy0, hy1, hy2, hy3, hready⟩ := exists_words i (hlen ▸ hroom)
    have hfour : (range' (4 * i) 4).any (meetsAt a.data b.data) =
        ((x3 ++ x2 ++ x1 ++ x0 : BitVec 64) &&& (y3 ++ y2 ++ y1 ++ y0) != 0#64) := by
      rw [Bool.eq_iff_iff, bne_iff_ne, and_words_ne_zero]
      simp [range', meetsAt, hx0, hx1, hx2, hx3, hy0, hy1, hy2, hy3]
    rw [hreadx, hfour, hready]
    dsimp only [bind, Except.bind]
    split
    · rfl
    · next hzero =>
      rw [not_not.mp hzero, BitVec.zero_and]
      rfl
  have hrest : ∀ i ∈ range' (4 * (a.size / 56)) (a.data.length - 4 * (a.size / 56)), (do
      let w ← read a.data i
      let v ← read b.data i
      Except.ok (w &&& v != 0#16)) = .ok (meetsAt a.data b.data i) := by
    intro i hi
    have hrange := mem_range'_1.mp hi
    have hi : i < a.data.length := by omega
    have hi' : i < b.data.length := by omega
    rw [read_lt hi, read_lt hi', meetsAt, getElem?_eq_getElem hi,
      getElem?_eq_getElem hi']
    rfl
  unfold normalCross
  rw [anyM_eq_ok hwide, anyM_eq_ok hrest, meets_iff hlen]
  dsimp only [bind, Except.bind]
  split
  · next hfound =>
    refine iff_of_true rfl ?_
    obtain ⟨i, hi, hany⟩ := any_eq_true.mp hfound
    obtain ⟨j, hj, hmeet⟩ := any_eq_true.mp hany
    have hrange := mem_range'_1.mp hi
    have hrange' := mem_range'_1.mp hj
    exact ⟨j, by omega, hmeet⟩
  · next hfound =>
    have hnone : ∀ j < 4 * (a.size / 56), ¬ meetsAt a.data b.data j = true := by
      intro j hj hmeet
      refine hfound (any_eq_true.mpr ⟨j / 4, mem_range'_1.mpr (by omega), ?_⟩)
      exact any_eq_true.mpr ⟨j, mem_range'_1.mpr (by omega), hmeet⟩
    rw [post_ok, any_eq_true]
    constructor
    · rintro ⟨j, hj, hmeet⟩
      have hrange := mem_range'_1.mp hj
      exact ⟨j, by omega, hmeet⟩
    · rintro ⟨j, hj, hmeet⟩
      refine ⟨j, mem_range'_1.mpr ?_, hmeet⟩
      have hlow : ¬ j < 4 * (a.size / 56) := fun hlow => hnone j hlow hmeet
      omega

end Helens.Ds.Bitmap
