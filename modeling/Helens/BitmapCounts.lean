import Helens.BitmapVisits
import Mathlib.Data.Nat.Digits.Defs

/-! `getCount` and `any`. The uncompressed count takes every bit of the words that it reads four at
a time, the compressed one takes each digit of a run for the whole count. `any` has no mask for a
full last word, and looks at the low bytes of compressed words only. -/

namespace Helens.Ds.Bitmap

open Lib.Runs Lib.RangeLoops Lib.RunLength Lib.Visits List

/-! ## The code -/

def countUp (count _ : Nat) : Nat × Bool := ((count + 1) % 2 ^ 32, true)

def countWord (tmp : Word) : Nat :=
  if isRun tmp then
    if runValue tmp then (tmp &&& countMask).toNat else 0
  else countBits tmp

/-- The test of a compressed word, which is kept in a `uint8_t`. -/
def anyByte (w : Word) : Bool :=
  let cur : BitVec 8 := w.setWidth 8
  if cur.setWidth 16 &&& compressMask != 0#16 then cur.setWidth 16 &&& valueMask != 0#16
  else cur != 0#8

/-- Without words `m_data` is null. -/
def any (b : Bitmap) : Except BitmapError Bool :=
  if b.data = [] then .ok false
  else if !b.compressed then do
    let found ← (List.range (b.data.length - 1)).anyM fun i => do
      let w ← read b.data i
      .ok (w != 0#16)
    if found then .ok true
    else do
      let w ← read b.data (b.data.length - 1)
      .ok (w &&& mask (b.size % 14) != 0#16)
  else .ok (b.data.any anyByte)

/-! ## Bits of a word -/

theorem countP_range' (f : Nat → Bool) (lo k) :
    (range' lo k).countP f = (range k).countP fun i => f (lo + i) := by
  rw [range'_eq_map_range, countP_map]
  rfl

def strays (b : Bitmap) (j : Nat) : Nat :=
  (List.range 16).countP fun p =>
    wordBit b.data j p && !(decide (p < 14) && decide (14 * j + p < b.size))

section

variable {b : Bitmap}

theorem countBits_eq {w : Word} (hw : b.data[j]? = some w) :
    countBits w = (between b (14 * j) (14 * (j + 1))).length + strays b j := by
  have hmembers : (between b (14 * j) (14 * (j + 1))).length = (range 16).countP fun p =>
      w.getLsbD p && (decide (p < 14) && decide (14 * j + p < b.size)) := by
    have hsplit : range 16 = range 14 ++ [14, 15] := by decide
    have hlen : 14 * (j + 1) - 14 * j = 14 := by omega
    rw [between, ← countP_eq_length_filter, hlen, countP_range', hsplit, countP_append]
    have hflags : ([14, 15] : List Nat).countP (fun p =>
        w.getLsbD p && (decide (p < 14) && decide (14 * j + p < b.size))) = 0 := by
      rw [countP_eq_zero]
      intro p hp
      have hge : ¬ p < 14 := by
        simp at hp
        omega
      rw [decide_eq_false hge, Bool.false_and, Bool.and_false]
      exact Bool.false_ne_true
    rw [hflags, Nat.add_zero]
    apply countP_congr
    intro p hp
    have hlt := mem_range.mp hp
    rw [member_of_word hw hlt, decide_eq_true hlt, Bool.true_and, Bool.and_comm]
  have hword : ∀ p, wordBit b.data j p = w.getLsbD p := by
    intro p
    rw [wordBit, hw]
    rfl
  have hparts := countP_eq_countP_filter_add (range 16) (fun p => w.getLsbD p)
    fun p => decide (p < 14) && decide (14 * j + p < b.size)
  rw [countP_filter, countP_filter] at hparts
  rw [countBits, hparts, hmembers, strays]
  simp only [hword]

def straysBelow (b : Bitmap) (k : Nat) : Nat := ((List.range k).map (strays b)).sum

theorem straysBelow_succ (k) : straysBelow b (k + 1) = straysBelow b k + strays b k := by
  rw [straysBelow, range_succ, map_append, sum_append]
  rfl

variable {k : Nat}

theorem sum_take_succ {w : Word} (hw : b.data[k]? = some w) :
    ((b.data.take (k + 1)).map countBits).sum =
      ((b.data.take k).map countBits).sum + countBits w := by
  rw [take_add_one, hw, Option.toList_some, map_append, sum_append, map_singleton, sum_singleton]

theorem sum_countBits (hk : k ≤ b.data.length) : ((b.data.take k).map countBits).sum =
      (between b 0 (14 * k)).length + straysBelow b k := by
  induction k with
  | zero => rfl
  | succ k ih =>
    have hcell := getElem?_eq_getElem hk
    have happend : between b 0 (14 * (k + 1)) =
        between b 0 (14 * k) ++ between b (14 * k) (14 * (k + 1)) :=
      between_append (Nat.zero_le _) (by omega)
    rw [sum_take_succ hcell, ih (by omega), countBits_eq hcell, straysBelow_succ, happend,
      length_append]
    omega

/-! ## The count of uncompressed words -/

theorem visit_countUp (is : List Nat) (hc : c < 2 ^ 32) :
    visit countUp is (c, false) = ((c + is.length) % 2 ^ 32, false) := by
  induction is generalizing c with
  | nil => rw [visit_nil, length_nil, Nat.add_zero, Nat.mod_eq_of_lt hc]
  | cons i is ih =>
    rw [visit_cons rfl]
    change visit countUp is ((c + 1) % 2 ^ 32, false) = _
    rw [ih (Nat.mod_lt _ (by decide)), length_cons, Nat.mod_add_mod, Nat.add_assoc, Nat.add_comm 1]

structure Counted (b : Bitmap) (k : Nat) (st : Visiting Nat) : Prop where
  running : st.stopped = false
  count : st.state = ((b.data.take k).map countBits).sum % 2 ^ 32
  place : 14 * k ≤ b.size → st.curPos = 14 * k

/-- The words from `k` on are visited by a callback that counts. -/
theorem Counted.rest (h : Sized b) (hsize : b.size < 2 ^ 32) (hk : k ≤ b.data.length)
    (hst : Counted b k st) :
    Post (fun t => t.state = ((members b).length + straysBelow b k) % 2 ^ 32) Never
      ((range' k (b.data.length - k)).foldlM (foreachWord countUp b) st) := by
  have hstart : Passed countUp b st.state k k st := by
    refine ⟨le_refl k, ?_, fun _ hle => hst.place hle⟩
    rw [between_self, Visiting.outcome, hst.running]
    rfl
  have hend : k + (b.data.length - k) = b.data.length := Nat.add_sub_of_le hk
  apply (post_upward (n := b.data.length - k) hstart fun i t _ hi ht =>
    foreachWord_post h hsize (by omega) ht).imp _
  intro t ht
  rw [hend] at ht
  have hlt : st.state < 2 ^ 32 := by
    rw [hst.count]
    exact Nat.mod_lt _ (by decide)
  have hout := congrArg Prod.fst (ht.outcome.trans (visit_countUp _ hlt))
  have happend : members b = between b 0 (14 * k) ++ between b (14 * k) (14 * b.data.length) := by
    rw [← between_of_ge h.size_le]
    exact between_append (Nat.zero_le _) (Nat.mul_le_mul_left 14 hk)
  refine hout.trans ?_
  rw [hst.count, sum_countBits hk, Nat.mod_add_mod, happend, length_append, Nat.add_right_comm]

theorem countWord_runWords_false (fuel count) :
    ((runWords false fuel count).map countWord).sum = 0 := by
  have hzero : (runWords false fuel count).map countWord =
      (runWords false fuel count).map fun _ => 0 := by
    apply map_congr_left
    intro w hw
    obtain ⟨hrun, hvalue⟩ := mem_runWords hw
    rw [countWord, hrun, hvalue]
    rfl
  rw [hzero, map_const', sum_replicate_nat, Nat.mul_zero]

theorem countWord_runWords_true {count : Nat} (h0 : count ≠ 0) (h : count < 2 ^ 14) :
    ((runWords true 5 count).map countWord).sum = count := by
  have hdiv : count / 2 ^ 14 = 0 := Nat.div_eq_of_lt h
  have hmod : count % 2 ^ 14 = count := Nat.mod_eq_of_lt h
  rw [runWords_succ true 4 h0, hdiv, runWords_zero, hmod, map_singleton, sum_singleton,
    countWord, isRun_runWord, runValue_runWord true h, digit_runWord true h]
  rfl

def maxRun : Nat := 1170

def ShortRuns (n : Nat) (ws : List Word) : Prop := ¬ List.replicate (n + 1) countMask <:+: ws
  deriving Decidable

theorem ShortRuns.le (h : ShortRuns n (replicate m countMask)) : m ≤ n := by
  by_contra hlong
  have hsum : m = (n + 1) + (m - (n + 1)) := by omega
  rw [hsum, ← replicate_append_replicate] at h
  exact h (prefix_append (replicate (n + 1) countMask) _).isInfix

theorem ShortRuns.append (h : ShortRuns n (ws ++ vs)) : ShortRuns n ws ∧ ShortRuns n vs :=
  ⟨fun hbad => h (hbad.trans (prefix_append ws vs).isInfix),
    fun hbad => h (hbad.trans (suffix_append ws vs).isInfix)⟩

theorem Means.count {g vs : List Word} (h : Means g vs) (hshort : ShortRuns maxRun vs) :
    (g.map countWord).sum = (vs.map countBits).sum := by
  cases h with
  | @literal w hw =>
    rw [map_singleton, map_singleton, countWord, hw.isRun]
    rfl
  | @run v n hn hfit =>
    rw [map_replicate, sum_replicate_nat]
    cases v with
    | false =>
      have hzero : countBits (fill false) = 0 := by decide
      rw [countWord_runWords_false, hzero]
      rfl
    | true =>
      have hfull : countBits (fill true) = 14 := by decide
      have hle : n ≤ maxRun := by
        have hfill : fill true = countMask := rfl
        rw [hfill] at hshort
        exact hshort.le
      have hdigit : 14 * n < 2 ^ 14 := by
        rw [maxRun] at hle
        omega
      rw [countWord_runWords_true (by omega) hdigit, hfull, Nat.mul_comm]

theorem Encodes.count (h : Encodes out ws) (hshort : ShortRuns maxRun ws) :
    (out.map countWord).sum = (ws.map countBits).sum := by
  induction h with
  | nil => rfl
  | @snoc out g ws vs _ _ _ _ hmeans ih =>
    obtain ⟨hws, hvs⟩ := hshort.append
    rw [map_append, map_append, sum_append, sum_append, ih hws, hmeans.count hvs]

/-- The words as `compress` looks at them. -/
def masked (b : Bitmap) : Bitmap := { b with data := b.data.map (· &&& countMask) }

end

def count (b : Bitmap) : Nat := (List.range b.size).countP fun i => decide (b.get i = .ok true)

theorem Sized.count_eq {b : Bitmap} (h : Sized b) : count b = (members b).length := by
  rw [count, members, between, ← countP_eq_length_filter, Nat.sub_zero, range_eq_range']
  apply countP_congr
  intro i hi
  have hlt : i < b.size := by
    have hrange := (mem_range'_1.mp hi).2
    omega
  rw [get_eq (h.word_lt hlt), member, decide_eq_true hlt, Bool.true_and, decide_eq_true_eq,
    Except.ok.injEq]

section

variable {w : Word}

end

end Helens.Ds.Bitmap
