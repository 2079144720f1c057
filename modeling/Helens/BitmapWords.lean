import Helens.Bitmap

/-! The words of a bitmap and the loops over them: what the masks select, and that a
step of four words is four steps. -/

namespace Helens.Ds

open Lib.Runs Lib.RangeLoops List

/-! ## Masks -/

theorem getLsbD_countMask (i) : countMask.getLsbD i = decide (i < 14) := by
  by_cases hi : i < 16
  · have hall : ∀ i < 16, countMask.getLsbD i = decide (i < 14) := by decide
    exact hall i hi
  · rw [BitVec.getLsbD_of_ge _ _ (Nat.not_lt.mp hi), eq_comm, decide_eq_false_iff_not]
    omega

variable {i : Nat}

theorem and_pos_ne_zero (w : Word) (hi : i < 16) : (w &&& pos i != 0#16) = w.getLsbD i := by
  have htwo : pos i = BitVec.twoPow 16 i := rfl
  rw [htwo, BitVec.and_twoPow]
  cases hw : w.getLsbD i with
  | false => rfl
  | true =>
    have hne : BitVec.twoPow 16 i ≠ 0#16 := by
      intro h
      have hbit := congrArg (fun x => BitVec.getLsbD x i) h
      simp [hi] at hbit
    simpa using hne

theorem getLsbD_pos (i j) : (pos i).getLsbD j = (decide (j < 16) && decide (j = i)) := by
  have htwo : pos i = BitVec.twoPow 16 i := rfl
  rw [htwo, BitVec.getLsbD_twoPow]
  by_cases hij : i = j
  · subst hij
    simp
  · have hji : ¬ j = i := fun h => hij h.symm
    simp [hij, hji]

namespace Bitmap

theorem isRun_eq (w : Word) : isRun w = w.getLsbD 15 :=
  and_pos_ne_zero (i := 15) w (by decide)

theorem runValue_eq (w : Word) : runValue w = w.getLsbD 14 :=
  and_pos_ne_zero (i := 14) w (by decide)

def Plain (w : Word) : Prop := w &&& countMask = w
  deriving Decidable

variable {w : Word} {data : List Word} {g : Nat → Word → Word}

theorem Plain.getLsbD (h : Plain w) (hi : 14 ≤ i) : w.getLsbD i = false := by
  rw [← h, BitVec.getLsbD_and, getLsbD_countMask]
  have hnot : ¬ i < 14 := by omega
  simp [hnot]

theorem plain_of_getLsbD (h : ∀ i, 14 ≤ i → w.getLsbD i = false) : Plain w := by
  refine BitVec.eq_of_getLsbD_eq fun i _ => ?_
  rw [BitVec.getLsbD_and, getLsbD_countMask]
  by_cases hi : i < 14
  · simp [hi]
  · simp [hi, h i (Nat.not_lt.mp hi)]

theorem Plain.isRun (h : Plain w) : isRun w = false := by
  rw [isRun_eq]
  exact h.getLsbD (by decide)

theorem plain_fill (v) : Plain (fill v) := by
  cases v <;> decide

theorem Plain.or_countMask (h : Plain w) : w ||| countMask = countMask := by
  refine BitVec.eq_of_getLsbD_eq fun i _ => ?_
  rw [BitVec.getLsbD_or, getLsbD_countMask]
  by_cases hi : i < 14
  · simp [hi]
  · simp [hi, h.getLsbD (Nat.not_lt.mp hi)]

/-! ## Accesses -/

theorem read_eq (h : data[i]? = some w) : read data i = .ok w := by
  simp [read, h]

theorem read_lt (h : i < data.length) :
    read data i = .ok data[i] := read_eq (getElem?_eq_getElem h)

theorem write_eq (h : i < data.length) (w) : write data i w = .ok (data.set i w) := if_pos h

theorem write_mapRange {lo i : Nat} (hlo : lo ≤ i) (h : data[i]? = some w) :
    write (mapRange lo i g data) i (g i w) = .ok (mapRange lo (i + 1) g data) := by
  obtain ⟨hlt, rfl⟩ := List.getElem?_eq_some_iff.mp h
  rw [write_eq (by simpa using hlt)]
  refine congrArg _ (ext_getElem? fun j => ?_)
  rw [getElem?_mapRange, getElem?_set, length_mapRange, getElem?_mapRange]
  by_cases hij : i = j
  · subst hij
    have hin : lo ≤ i ∧ i < i + 1 := ⟨hlo, Nat.lt_succ_self i⟩
    simp [hlt, hin]
  · have hiff : lo ≤ j ∧ j < i ↔ lo ≤ j ∧ j < i + 1 := by omega
    simp only [hij, hiff, ↓reduceIte]

theorem step_word {f : Word → Except BitmapError Word} (hf : ∀ w, f w = .ok (g i w))
    (h : i + 1 ≤ data.length) :
    (do let w ← read data i
        let w' ← f w
        write data i w') = .ok (mapRange i (i + 1) g data) := by
  have hcell := getElem?_eq_getElem h
  have hwrite := write_mapRange (g := g) (le_refl i) hcell
  rw [mapRange_empty (le_refl i)] at hwrite
  rw [read_eq hcell]
  refine Eq.trans ?_ hwrite
  exact congrArg (fun x => x >>= fun w' => write data i w') (hf data[i])

theorem extract_words (w0 w1 w2 w3 : Word) :
    (w3 ++ w2 ++ w1 ++ w0 : BitVec 64).extractLsb' 0 16 = w0 ∧
    (w3 ++ w2 ++ w1 ++ w0 : BitVec 64).extractLsb' 16 16 = w1 ∧
    (w3 ++ w2 ++ w1 ++ w0 : BitVec 64).extractLsb' 32 16 = w2 ∧
    (w3 ++ w2 ++ w1 ++ w0 : BitVec 64).extractLsb' 48 16 = w3 := by
  refine ⟨?_, ?_, ?_, ?_⟩ <;>
    · refine BitVec.eq_of_getLsbD_eq fun i hi => ?_
      simp only [BitVec.getLsbD_extractLsb', BitVec.getLsbD_append, hi, decide_true, Bool.true_and]
      repeat' split
      all_goals first
        | omega
        | exact congrArg _ (by omega)

/-- `P` holds of the four words of a step, as they stand in the array. -/
theorem exists_words (i) (h : 4 * i + 4 ≤ data.length) :
    ∃ w0 w1 w2 w3, data[4 * i]? = some w0 ∧ data[4 * i + 1]? = some w1 ∧
      data[4 * i + 2]? = some w2 ∧ data[4 * i + 3]? = some w3 ∧
      readU64 data i = .ok (w3 ++ w2 ++ w1 ++ w0) := by
  have h0 := getElem?_eq_getElem (l := data) (i := 4 * i) (by omega)
  have h1 := getElem?_eq_getElem (l := data) (i := 4 * i + 1) (by omega)
  have h2 := getElem?_eq_getElem (l := data) (i := 4 * i + 2) (by omega)
  have h3 := getElem?_eq_getElem (l := data) (i := 4 * i + 3) (by omega)
  refine ⟨_, _, _, _, h0, h1, h2, h3, ?_⟩
  unfold readU64
  rw [read_eq h0, read_eq h1, read_eq h2, read_eq h3]
  rfl

theorem step_u64 {f : BitVec 64 → Except BitmapError (BitVec 64)}
    (hf : ∀ w0 w1 w2 w3, f (w3 ++ w2 ++ w1 ++ w0) =
      .ok (g (4 * i + 3) w3 ++ g (4 * i + 2) w2 ++ g (4 * i + 1) w1 ++ g (4 * i) w0))
    (h : 4 * i + 4 ≤ data.length) :
    (do let x ← readU64 data i
        let y ← f x
        writeU64 data i y) = .ok (mapRange (4 * i) (4 * i + 4) g data) := by
  obtain ⟨w0, w1, w2, w3, h0, h1, h2, h3, hread⟩ := exists_words i h
  obtain ⟨e0, e1, e2, e3⟩ := extract_words (g (4 * i) w0) (g (4 * i + 1) w1) (g (4 * i + 2) w2)
    (g (4 * i + 3) w3)
  have hwrite := write_mapRange (g := g) (le_refl (4 * i)) h0
  rw [mapRange_empty (le_refl _)] at hwrite
  have hsteps : writeU64 data i
      (g (4 * i + 3) w3 ++ g (4 * i + 2) w2 ++ g (4 * i + 1) w1 ++ g (4 * i) w0) =
      .ok (mapRange (4 * i) (4 * i + 4) g data) := by
    unfold writeU64
    rw [e0, e1, e2, e3, hwrite]
    dsimp only [bind, Except.bind]
    rw [write_mapRange (by omega) h1]
    dsimp only
    rw [write_mapRange (by omega) h2]
    exact write_mapRange (by omega) h3
  rw [hread]
  refine Eq.trans ?_ hsteps
  exact congrArg (fun x => x >>= fun y => writeU64 data i y) (hf w0 w1 w2 w3)

theorem bulk_eq {f64 : Nat → BitVec 64 → Except BitmapError (BitVec 64)}
    {f16 : Nat → Word → Except BitmapError Word}
    (h16 : ∀ i < b.data.length, ∀ w, f16 i w = .ok (g i w))
    (h64 : ∀ i, 4 * i + 4 ≤ b.data.length → ∀ w0 w1 w2 w3, f64 i (w3 ++ w2 ++ w1 ++ w0) =
      .ok (g (4 * i + 3) w3 ++ g (4 * i + 2) w2 ++ g (4 * i + 1) w1 ++ g (4 * i) w0))
    (hlen : 4 * (b.size / 56) ≤ b.data.length) : bulk f64 f16 b = .ok (b.data.mapIdx g) := by
  have hwide : (range' 0 (b.size / 56)).foldlM (fun data i => do
      let x ← readU64 data i
      let y ← f64 i x
      writeU64 data i y) b.data = .ok (mapRange (4 * 0) (4 * (0 + b.size / 56)) g b.data) := by
    refine foldlM_blocks (fun i _ hi l hl => ?_) b.data (by omega)
    exact step_u64 (h64 i (by omega)) hl
  have hrest : (range' (4 * (b.size / 56)) (b.data.length - 4 * (b.size / 56))).foldlM
      (fun data i => do
        let w ← read data i
        let w' ← f16 i w
        write data i w') (mapRange 0 (4 * (b.size / 56)) g b.data) =
      .ok (mapRange (4 * (b.size / 56)) b.data.length g
        (mapRange 0 (4 * (b.size / 56)) g b.data)) := by
    have hend : 4 * (b.size / 56) + (b.data.length - 4 * (b.size / 56)) = b.data.length := by
      omega
    have hlast : 4 * (b.size / 56) + (b.data.length - 4 * (b.size / 56)) ≤
        (mapRange 0 (4 * (b.size / 56)) g b.data).length := by
      rw [length_mapRange, hend]
    refine (foldlM_each (g := g) (fun i _ hi l hl => ?_) _ hlast).trans ?_
    · exact step_word (h16 i (by omega)) hl
    · rw [hend]
  rw [Nat.mul_zero, Nat.zero_add] at hwide
  unfold bulk
  rw [hwide]
  refine hrest.trans ?_
  rw [mapRange_mapRange (Nat.zero_le _) hlen, mapRange_all (le_refl _)]

theorem mapIdx_eq_zipWith {f : Word → Word → Word} (h : xs.length = ys.length) :
    xs.mapIdx (fun i w => f w (ys[i]?.getD 0#16)) = zipWith f xs ys := by
  refine ext_getElem? fun i => ?_
  rw [getElem?_mapIdx, getElem?_zipWith]
  by_cases hi : i < xs.length
  · have hi' : i < ys.length := by omega
    simp [hi, hi']
  · rw [getElem?_eq_none (Nat.not_lt.mp hi)]
    rfl

theorem bulk_zipWith {f : ∀ {n : Nat}, BitVec n → BitVec n → BitVec n}
    (hf : ∀ {n m : Nat} (x x' : BitVec n) (y y' : BitVec m), f (x ++ y) (x' ++ y') =
      f x x' ++ f y y') (hlen : b.data.length = ys.length)
    (hsize : 4 * (b.size / 56) ≤ b.data.length) :
    bulk (fun i x => do let y ← readU64 ys i; .ok (f x y))
      (fun i w => do let v ← read ys i; .ok (f w v)) b = .ok (zipWith f b.data ys) := by
  rw [← mapIdx_eq_zipWith hlen]
  refine bulk_eq (fun i hi w => ?_) (fun i hi w0 w1 w2 w3 => ?_) hsize
  · have hi' : i < ys.length := by omega
    rw [read_lt hi', getElem?_eq_getElem hi']
    rfl
  · rw [hlen] at hi
    obtain ⟨v0, v1, v2, v3, h0, h1, h2, h3, hread⟩ := exists_words i hi
    rw [hread, h0, h1, h2, h3]
    refine congrArg Except.ok ?_
    rw [hf, hf, hf]
    rfl

end Bitmap
end Helens.Ds
