import Helens.BitmapChanges
import Helens.Lib.Visits

/-! `foreach`, `rforeach` and `listPosAsc`: nested loops over words and their bits that skip
empty words, four at a time where they can. Each of them visits the members that lie in the words
it has passed. -/

namespace Helens.Ds.Bitmap

open Lib.Runs Lib.RangeLoops Lib.Visits List

variable {σ : Type}

/-! ## The code -/

/-- Where a loop stands: `cur_pos`, what the callback has made of its state, and whether a call
returned false, which ends all loops. -/
structure Visiting (σ : Type) where
  curPos : Nat
  state : σ
  stopped : Bool

def Visiting.forward (st : Visiting σ) (n : Nat) : Visiting σ :=
  { st with curPos := (st.curPos + n) % 2 ^ 32 }

def Visiting.back (st : Visiting σ) (n : Nat) : Visiting σ :=
  { st with curPos := (st.curPos + (2 ^ 32 - n)) % 2 ^ 32 }

section
variable (cb : σ → Nat → σ × Bool)

def atBit (tmp : Word) (st : Visiting σ) (n : Nat) : Visiting σ :=
  if tmp &&& pos n != 0#16 then
    let r := cb st.state st.curPos
    { st with state := r.1, stopped := !r.2 }
  else st

def scanUp (size : Nat) (tmp : Word) : List Nat → Visiting σ → Visiting σ
  | [], st => st
  | n :: ns, st =>
    if st.curPos < size then
      let st := atBit cb tmp st n
      if st.stopped then st else scanUp size tmp ns (st.forward 1)
    else st

def scanDown (tmp : Word) : List Nat → Visiting σ → Visiting σ
  | [], st => st
  | n :: ns, st =>
    let st := atBit cb tmp st n
    if st.stopped then st else scanDown tmp ns (st.back 1)

def foreachWord (b : Bitmap) (st : Visiting σ) (i : Nat) : Except BitmapError (Visiting σ) :=
  if st.stopped then .ok st
  else do
    let tmp ← read b.data i
    if tmp = 0#16 then .ok (st.forward 14)
    else .ok (scanUp cb b.size tmp (List.range 14) st)

/-- One word of four, which is not skipped when it is empty. -/
def foreachOfFour (b : Bitmap) (st : Visiting σ) (i : Nat) : Except BitmapError (Visiting σ) :=
  if st.stopped then .ok st
  else do
    let tmp ← read b.data i
    .ok (scanUp cb b.size tmp (List.range 14) st)

def foreachFour (b : Bitmap) (st : Visiting σ) (i : Nat) : Except BitmapError (Visiting σ) :=
  if st.stopped then .ok st
  else do
    let tmp ← readU64 b.data i
    if tmp = 0#64 then .ok (st.forward 56)
    else [4 * i, 4 * i + 1, 4 * i + 2, 4 * i + 3].foldlM (foreachOfFour cb b) st

def foreach (b : Bitmap) (s : σ) : Except BitmapError σ := do
  let st ← (List.range' 0 (b.size / 56)).foldlM (foreachFour cb b) ⟨0, s, false⟩
  let st ← (List.range' (4 * (b.size / 56)) (b.data.length - 4 * (b.size / 56))).foldlM
    (foreachWord cb b) st
  .ok st.state

/-- The words behind the groups of four. The last word may have fewer than fourteen members; its
loop starts one bit too high. -/
def rforeachWord (b : Bitmap) (st : Visiting σ) (i : Nat) : Except BitmapError (Visiting σ) :=
  if st.stopped then .ok st
  else do
    let tmp ← read b.data i
    if i = b.data.length - 1 ∧ b.size % 14 ≠ 0 then
      if tmp = 0#16 then .ok (st.back (b.size % 14))
      else .ok (scanDown cb tmp (List.range (b.size % 14 + 1)).reverse (st.forward 1))
    else if tmp = 0#16 then .ok (st.back 14)
    else .ok (scanDown cb tmp (List.range 14).reverse st)

def rforeachOfFour (b : Bitmap) (st : Visiting σ) (i : Nat) : Except BitmapError (Visiting σ) :=
  if st.stopped then .ok st
  else do
    let tmp ← read b.data i
    .ok (scanDown cb tmp (List.range 14).reverse st)

def rforeachFour (b : Bitmap) (st : Visiting σ) (i : Nat) : Except BitmapError (Visiting σ) :=
  if st.stopped then .ok st
  else do
    let tmp ← readU64 b.data i
    if tmp = 0#64 then .ok (st.back 56)
    else [4 * i + 3, 4 * i + 2, 4 * i + 1, 4 * i].foldlM (rforeachOfFour cb b) st

def rforeachRest (b : Bitmap) (st : Visiting σ) : Except BitmapError (Visiting σ) :=
  if b.size % 56 ≠ 0 then
    (List.range' (4 * (b.size / 56)) (b.data.length - 4 * (b.size / 56))).reverse.foldlM
      (rforeachWord cb b) st
  else .ok st

def rforeach (b : Bitmap) (s : σ) : Except BitmapError σ := do
  let st ← rforeachRest cb b (Visiting.back ⟨b.size, s, false⟩ 1)
  let st ← (List.range (b.size / 56)).reverse.foldlM (rforeachFour cb b) st
  .ok st.state

end

def listPosAsc (b : Bitmap) (pos : List Nat) : Except BitmapError (List Nat) :=
  foreach (fun pos i => (pos ++ [i], true)) b pos

/-! ## Members -/

def member (b : Bitmap) (i : Nat) : Bool := decide (i < b.size) && bit b.data i

def between (b : Bitmap) (lo hi : Nat) : List Nat :=
  (List.range' lo (hi - lo)).filter (member b)

def members (b : Bitmap) : List Nat := between b 0 b.size

section Members

theorem member_of_ge (h : b.size ≤ i) : member b i = false := by
  rw [member, decide_eq_false (Nat.not_lt.mpr h), Bool.false_and]

theorem between_append {lo mid hi : Nat} (h : lo ≤ mid) (h' : mid ≤ hi) :
    between b lo hi = between b lo mid ++ between b mid hi := by
  have hlen : hi - lo = (mid - lo) + (hi - mid) := by omega
  have hmid : lo + (mid - lo) = mid := by omega
  rw [between, between, between, ← filter_append, hlen, ← range'_append_1, hmid]

theorem between_eq_nil {lo hi : Nat} (h : ∀ i, lo ≤ i → i < hi → member b i = false) :
    between b lo hi = [] := by
  rw [between, filter_eq_nil_iff]
  intro i hi
  rw [mem_range'_1] at hi
  rw [h i hi.1 (by omega)]
  exact Bool.false_ne_true

theorem between_self (lo) : between b lo lo = [] := between_eq_nil fun i _ _ => by omega

theorem between_succ (i) : between b i (i + 1) = if member b i then [i] else [] := by
  rw [between, Nat.add_sub_cancel_left, range'_one, filter_cons]
  rfl

theorem between_of_ge (h : b.size ≤ n) : between b 0 n = members b := by
  have hnone : between b b.size n = [] := between_eq_nil fun i hi _ => member_of_ge hi
  rw [between_append (Nat.zero_le b.size) h, hnone, append_nil, members]

theorem mem_members : i ∈ members b ↔ i < b.size ∧ bit b.data i = true := by
  rw [members, between, mem_filter, mem_range'_1, member, Bool.and_eq_true, decide_eq_true_eq]
  exact ⟨fun h => h.2, fun h => ⟨⟨Nat.zero_le i, by omega⟩, h⟩⟩

theorem pairwise_members : (members b).Pairwise (· < ·) :=
  List.Pairwise.filter _ pairwise_lt_range'

theorem Sized.member_iff_get (h : Sized b) : i ∈ members b ↔ i < b.size ∧ b.get i = .ok true := by
  rw [mem_members]
  apply and_congr_right
  intro hi
  rw [get_eq (h.word_lt hi), Except.ok.injEq]

theorem member_of_word (hw : b.data[j]? = some w) (hp : p < 14) :
    member b (14 * j + p) = (decide (14 * j + p < b.size) && w.getLsbD p) := by
  rw [member, bit_mul_add hw hp]

theorem Proper.member_of_word (h : Proper b) (hw : b.data[j]? = some w)
    (hp : p < 14) : member b (14 * j + p) = w.getLsbD p := by
  rw [Bitmap.member_of_word hw hp]
  cases hbit : w.getLsbD p with
  | false => exact Bool.and_false _
  | true => rw [decide_eq_true (clean_iff.mp h.clean j w hw p hbit).2, Bool.and_true]

theorem between_of_zero (hw : b.data[j]? = some 0#16) : between b (14 * j) (14 * (j + 1)) = [] := by
  apply between_eq_nil
  intro i hi hlt
  obtain ⟨p, rfl⟩ := Nat.exists_eq_add_of_le hi
  rw [member_of_word hw (by omega), BitVec.getLsbD_zero, Bool.and_false]

end Members

/-! ## One word -/

section Words

variable (cb : σ → Nat → σ × Bool)

def Visiting.outcome (st : Visiting σ) : σ × Bool := (st.state, st.stopped)

theorem atBit_eq (tmp : Word) (hn : n < 16) (st : Visiting σ) (hrun : st.stopped = false) :
    (atBit cb tmp st n).curPos = st.curPos ∧ (atBit cb tmp st n).outcome =
      visit cb (if tmp.getLsbD n then [st.curPos] else []) st.outcome := by
  unfold atBit
  rw [and_pos_ne_zero tmp hn]
  split
  · rw [visit_cons hrun]
    exact ⟨rfl, rfl⟩
  · exact ⟨rfl, rfl⟩

theorem scanUp_eq (hsize : b.size < 2 ^ 32) (hw : b.data[j]? = some tmp)
    (hx : x + n = 14) (st : Visiting σ) (hrun : st.stopped = false)
    (hpos : st.curPos = 14 * j + x) :
    (scanUp cb b.size tmp (range' x n) st).outcome =
        visit cb (between b (14 * j + x) (14 * (j + 1))) st.outcome ∧
      ((scanUp cb b.size tmp (range' x n) st).stopped = false → 14 * (j + 1) ≤ b.size →
        (scanUp cb b.size tmp (range' x n) st).curPos = 14 * (j + 1)) := by
  induction n generalizing x st with
  | zero =>
    have hend : 14 * j + x = 14 * (j + 1) := by omega
    rw [hend] at hpos ⊢
    rw [between_self]
    exact ⟨rfl, fun _ _ => hpos⟩
  | succ n ih =>
    rw [range'_succ, scanUp]
    by_cases hlt : st.curPos < b.size
    · obtain ⟨hcur, hout⟩ := atBit_eq cb tmp (show x < 16 by omega) st hrun
      have hmember : member b (14 * j + x) = tmp.getLsbD x := by
        rw [member_of_word hw (by omega), decide_eq_true (by omega), Bool.true_and]
      have hfirst : (atBit cb tmp st x).outcome =
          visit cb (between b (14 * j + x) (14 * j + x + 1)) st.outcome := by
        rw [hout, between_succ, hmember, hpos]
      rw [if_pos hlt, between_append (Nat.le_succ (14 * j + x)) (by omega), visit_append, ← hfirst]
      dsimp only
      cases hstop : (atBit cb tmp st x).stopped with
      | true =>
        rw [if_pos rfl, visit_stopped hstop]
        refine ⟨rfl, fun hgo => ?_⟩
        rw [hstop] at hgo
        cases hgo
      | false =>
        have hnext : ((atBit cb tmp st x).forward 1).curPos = 14 * j + (x + 1) := by
          change ((atBit cb tmp st x).curPos + 1) % 2 ^ 32 = _
          rw [hcur, hpos]
          omega
        rw [if_neg Bool.false_ne_true]
        exact ih (by omega) ((atBit cb tmp st x).forward 1) hstop hnext
    · have hnone : between b (14 * j + x) (14 * (j + 1)) = [] :=
        between_eq_nil fun i hi _ => member_of_ge (by omega)
      rw [if_neg hlt, hnone]
      exact ⟨rfl, fun _ hle => by omega⟩

theorem outcome_back (st : Visiting σ) (n) : (st.back n).outcome = st.outcome := rfl

theorem stopped_back (st : Visiting σ) (n) : (st.back n).stopped = st.stopped := rfl

def before (n : Nat) : Nat := (n + (2 ^ 32 - 1)) % 2 ^ 32

theorem before_succ (h : n < 2 ^ 32) : before (n + 1) = n := by
  rw [before]
  omega

theorem before_back {st : Visiting σ} {n k : Nat} (hpos : st.curPos = before (n + k))
    (hk : k ≤ 56) : (st.back k).curPos = before n := by
  change (st.curPos + (2 ^ 32 - k)) % 2 ^ 32 = _
  rw [hpos, before, before]
  omega

theorem scanDown_eq (hw : ∀ p < m, member b (14 * j + p) = tmp.getLsbD p) (hm : m ≤ 14)
    (hfit : 14 * j + 14 < 2 ^ 32) (st : Visiting σ) (hrun : st.stopped = false)
    (hpos : st.curPos = before (14 * j + m)) :
    (scanDown cb tmp (range m).reverse st).outcome =
        visit cb (between b (14 * j) (14 * j + m)).reverse st.outcome ∧
      ((scanDown cb tmp (range m).reverse st).stopped = false →
        (scanDown cb tmp (range m).reverse st).curPos = before (14 * j)) := by
  induction m generalizing st with
  | zero =>
    rw [Nat.add_zero, between_self]
    exact ⟨rfl, fun _ => hpos⟩
  | succ m ih =>
    obtain ⟨hcur, hout⟩ := atBit_eq cb tmp (show m < 16 by omega) st hrun
    have hindex : st.curPos = 14 * j + m := by
      rw [hpos, ← Nat.add_assoc, before_succ (by omega)]
    have hfirst : (atBit cb tmp st m).outcome =
        visit cb (between b (14 * j + m) (14 * j + m + 1)).reverse st.outcome := by
      rw [hout, between_succ, hw m (Nat.lt_succ_self m), hindex]
      split <;> rfl
    rw [range_succ, reverse_append, reverse_singleton, singleton_append,
      scanDown, ← Nat.add_assoc, between_append (Nat.le_add_right _ m) (Nat.le_succ _),
      reverse_append, visit_append, ← hfirst]
    cases hstop : (atBit cb tmp st m).stopped with
    | true =>
      rw [if_pos rfl, visit_stopped hstop]
      refine ⟨rfl, fun hgo => ?_⟩
      rw [hstop] at hgo
      cases hgo
    | false =>
      have hfrom : (atBit cb tmp st m).curPos = before (14 * j + m + 1) := by
        rw [hcur, hpos, Nat.add_assoc]
      have hnext := before_back hfrom (show 1 ≤ 56 by decide)
      rw [if_neg Bool.false_ne_true]
      have hgo : ((atBit cb tmp st m).back 1).stopped = false := (stopped_back _ 1).trans hstop
      obtain ⟨hrest, hend⟩ := ih (fun p hp => hw p (by omega)) (by omega) _ hgo hnext
      rw [outcome_back] at hrest
      exact ⟨hrest, hend⟩

end Words

/-! ## The loops over words -/

section Loops

variable {cb : σ → Nat → σ × Bool} {b : Bitmap} {s : σ}

structure Passed (cb : σ → Nat → σ × Bool) (b : Bitmap) (s : σ) (lo k : Nat)
    (st : Visiting σ) : Prop where
  le : lo ≤ k
  outcome : st.outcome = visit cb (between b (14 * lo) (14 * k)) (s, false)
  place : st.stopped = false → 14 * k ≤ b.size → st.curPos = 14 * k

section Upward

theorem Passed.append (h : Passed cb b s lo k st) {hi : Nat} (hk : k ≤ hi) :
    visit cb (between b (14 * lo) (14 * hi)) (s, false) =
      visit cb (between b (14 * k) (14 * hi)) st.outcome := by
  rw [between_append (Nat.mul_le_mul_left 14 h.le) (Nat.mul_le_mul_left 14 hk), visit_append,
    ← h.outcome]

theorem Passed.stopped (h : Passed cb b s lo k st) {hi : Nat} (hk : k ≤ hi)
    (hstop : st.stopped = true) : Passed cb b s lo hi st := by
  refine ⟨Nat.le_trans h.le hk, ?_, fun hgo => ?_⟩
  · rw [h.append hk, visit_stopped hstop]
  · rw [hstop] at hgo
    cases hgo

theorem Passed.skip (h : Passed cb b s lo k st) (hsize : b.size < 2 ^ 32) (n)
    (hrun : st.stopped = false) (hnone : between b (14 * k) (14 * (k + n)) = []) :
    Passed cb b s lo (k + n) (st.forward (14 * n)) := by
  refine ⟨Nat.le_trans h.le (Nat.le_add_right k n), ?_, fun _ hle => ?_⟩
  · rw [h.append (Nat.le_add_right k n), hnone]
    rfl
  · change (st.curPos + 14 * n) % 2 ^ 32 = _
    rw [h.place hrun (by omega)]
    omega

theorem Passed.scan (h : Passed cb b s lo k st) (hsize : b.size < 2 ^ 32)
    (hrun : st.stopped = false) (hle : 14 * k ≤ b.size) (hw : b.data[k]? = some tmp) :
    Passed cb b s lo (k + 1) (scanUp cb b.size tmp (range 14) st) := by
  obtain ⟨hout, hend⟩ := scanUp_eq cb hsize (x := 0) (n := 14) hw (by decide) st hrun
    (h.place hrun hle)
  rw [← range_eq_range'] at hout hend
  refine ⟨Nat.le_trans h.le (Nat.le_succ k), ?_, hend⟩
  rw [hout, h.append (Nat.le_succ k)]
  rfl

theorem Sized.word_le (h : Sized b) (hk : k < b.data.length) : 14 * k ≤ b.size := by
  rw [h.length, wordsFor] at hk
  omega

theorem foreachOfFour_post (h : Sized b) (hsize : b.size < 2 ^ 32) (hk : k < b.data.length)
    (hst : Passed cb b s lo k st) :
    Post (Passed cb b s lo (k + 1)) Never (foreachOfFour cb b st k) := by
  unfold foreachOfFour
  cases hrun : st.stopped with
  | true => exact hst.stopped (Nat.le_succ k) hrun
  | false =>
    rw [if_neg Bool.false_ne_true, read_lt hk]
    exact hst.scan hsize hrun (h.word_le hk) (getElem?_eq_getElem hk)

theorem foreachWord_post (h : Sized b) (hsize : b.size < 2 ^ 32) (hk : k < b.data.length)
    (hst : Passed cb b s lo k st) :
    Post (Passed cb b s lo (k + 1)) Never (foreachWord cb b st k) := by
  have hcell := getElem?_eq_getElem hk
  unfold foreachWord
  cases hrun : st.stopped with
  | true => exact hst.stopped (Nat.le_succ k) hrun
  | false =>
    rw [if_neg Bool.false_ne_true, read_eq hcell]
    dsimp only [bind, Except.bind]
    split
    · next hzero =>
      rw [hzero] at hcell
      exact hst.skip hsize 1 hrun (between_of_zero hcell)
    · exact hst.scan hsize hrun (h.word_le hk) hcell

end Upward

/-- Four words are read at once, and are zero only where there is no member. -/
theorem Sized.readU64_four (h : Sized b) (hi : i < b.size / 56) : ∃ w, readU64 b.data i = .ok w ∧
    (w = 0#64 → between b (14 * (4 * i)) (14 * (4 * i + 4)) = []) := by
  have hbulk := h.bulk_le
  have hlen : 4 * i + 4 ≤ b.data.length := by omega
  obtain ⟨w0, w1, w2, w3, h0, h1, h2, h3, hread⟩ := exists_words i hlen
  refine ⟨_, hread, fun hzero => ?_⟩
  obtain ⟨e0, e1, e2, e3⟩ := extract_words w0 w1 w2 w3
  rw [hzero] at e0 e1 e2 e3
  subst e0 e1 e2 e3
  have e01 : 14 * (4 * i) ≤ 14 * (4 * i + 1) := by omega
  have e12 : 14 * (4 * i + 1) ≤ 14 * (4 * i + 2) := by omega
  have e23 : 14 * (4 * i + 2) ≤ 14 * (4 * i + 3) := by omega
  rw [between_append e01 (by omega), between_of_zero h0, between_append e12 (by omega),
    between_of_zero h1, between_append e23 (by omega), between_of_zero h2, between_of_zero h3]
  rfl

theorem foreachFour_post (h : Sized b) (hsize : b.size < 2 ^ 32) {st : Visiting σ}
    (hi : i < b.size / 56) (hst : Passed cb b s 0 (4 * i) st) :
    Post (Passed cb b s 0 (4 * (i + 1))) Never (foreachFour cb b st i) := by
  have hbulk := h.bulk_le
  obtain ⟨w, hread, hnone⟩ := h.readU64_four hi
  unfold foreachFour
  cases hrun : st.stopped with
  | true => exact hst.stopped (by omega) hrun
  | false =>
    rw [if_neg Bool.false_ne_true, hread]
    dsimp only [bind, Except.bind]
    split
    · next hzero => exact hst.skip hsize 4 hrun (hnone hzero)
    · exact post_upward (a := 4 * i) (n := 4) hst fun k t _ hk ht =>
        foreachOfFour_post h hsize (by omega) ht

theorem foreach_eq (h : Sized b) (hsize : b.size < 2 ^ 32) :
    foreach cb b s = .ok (visit cb (members b) (s, false)).1 := by
  have hinit : Passed cb b s 0 (4 * 0) ⟨0, s, false⟩ := ⟨le_refl 0, rfl, fun _ _ => rfl⟩
  have hfours := post_upward (P := fun i => Passed cb b s 0 (4 * i)) (n := b.size / 56) hinit
    fun i t _ hi ht => foreachFour_post h hsize (by omega) ht
  have hend : 4 * (b.size / 56) + (b.data.length - 4 * (b.size / 56)) = b.data.length :=
    Nat.add_sub_of_le h.bulk_le
  have hall : Post (fun r => r = (visit cb (members b) (s, false)).1) Never
      (foreach cb b s) := by
    apply hfours.bind
    intro st hst
    rw [Nat.zero_add] at hst
    apply (post_upward (n := b.data.length - 4 * (b.size / 56)) hst fun i t _ hi ht =>
      foreachWord_post h hsize (by omega) ht).bind
    intro st hst
    rw [hend] at hst
    rw [post_ok, ← between_of_ge h.size_le, ← hst.outcome]
    rfl
  exact hall.eq_ok

theorem listPosAsc_eq (h : Sized b) (hsize : b.size < 2 ^ 32) (pos) :
    listPosAsc b pos = .ok (pos ++ members b) := by
  have hpush : ∀ (l acc : List Nat), l.foldl (fun acc i => acc ++ [i]) acc = acc ++ l := by
    intro l
    induction l with
    | nil => exact fun acc => (append_nil acc).symm
    | cons i l ih =>
      intro acc
      rw [foldl_cons, ih, append_assoc, singleton_append]
  rw [listPosAsc, foreach_eq h hsize, visit_all, hpush]

/-! ### Downward -/

structure Left (cb : σ → Nat → σ × Bool) (b : Bitmap) (s : σ) (k : Nat)
    (st : Visiting σ) : Prop where
  le : k ≤ b.data.length
  outcome : st.outcome = visit cb (between b (14 * k) (14 * b.data.length)).reverse (s, false)
  place : st.stopped = false → st.curPos = before (min (14 * k) b.size)

section Downward

theorem Left.append (h : Left cb b s hi st) (hk : k ≤ hi) :
    visit cb (between b (14 * k) (14 * b.data.length)).reverse (s, false) =
      visit cb (between b (14 * k) (14 * hi)).reverse st.outcome := by
  rw [between_append (Nat.mul_le_mul_left 14 hk) (Nat.mul_le_mul_left 14 h.le),
    reverse_append, visit_append, ← h.outcome]

theorem Left.stopped (h : Left cb b s hi st) (hk : k ≤ hi) (hstop : st.stopped = true) :
    Left cb b s k st := by
  refine ⟨Nat.le_trans hk h.le, ?_, fun hgo => ?_⟩
  · rw [h.append hk, visit_stopped hstop]
  · rw [hstop] at hgo
    cases hgo

theorem Left.skip (h : Left cb b s hi st) (hk : k ≤ hi) (hrun : st.stopped = false)
    (hway : min (14 * hi) b.size = 14 * k + d) (hd : d ≤ 56)
    (hnone : between b (14 * k) (14 * hi) = []) : Left cb b s k (st.back d) := by
  refine ⟨Nat.le_trans hk h.le, ?_, fun _ => ?_⟩
  · rw [h.append hk, hnone]
    rfl
  · have hplace := h.place hrun
    rw [hway] at hplace
    rw [before_back hplace hd, Nat.min_eq_left (by omega)]

/-- The lowest `m` bits of a word whose other bits are no members. The loop may have moved
`cur_pos` before. -/
theorem Left.scan (h : Left cb b s (k + 1) before')
    (hsame : st.outcome = before'.outcome) (hrun : st.stopped = false)
    (hpos : st.curPos = before (14 * k + m)) (hm : m ≤ 14) (hfit : 14 * k + 14 < 2 ^ 32)
    (hw : ∀ p < m, member b (14 * k + p) = tmp.getLsbD p)
    (hrest : ∀ i, 14 * k + m ≤ i → i < 14 * (k + 1) → member b i = false)
    (hle : 14 * k ≤ b.size) : Left cb b s k (scanDown cb tmp (range m).reverse st) := by
  obtain ⟨hout, hend⟩ := scanDown_eq cb hw hm hfit st hrun hpos
  have hword : between b (14 * k) (14 * (k + 1)) = between b (14 * k) (14 * k + m) := by
    rw [between_append (Nat.le_add_right _ m) (by omega), between_eq_nil hrest, append_nil]
  refine ⟨Nat.le_trans (Nat.le_succ k) h.le, ?_, fun hgo => ?_⟩
  · rw [h.append (Nat.le_succ k), hword, hout, hsame]
  · rw [hend hgo, Nat.min_eq_left hle]

end Downward

theorem rforeachOfFour_post (h : Proper b) (hsize : b.size < 2 ^ 31) {k : Nat} {st : Visiting σ}
    (hk : 14 * (k + 1) ≤ b.size) (hst : Left cb b s (k + 1) st) :
    Post (Left cb b s k) Never (rforeachOfFour cb b st k) := by
  have hlen : k < b.data.length := by
    rw [h.length, wordsFor]
    omega
  unfold rforeachOfFour
  cases hrun : st.stopped with
  | true => exact hst.stopped (Nat.le_succ k) hrun
  | false =>
    rw [if_neg Bool.false_ne_true, read_lt hlen]
    have hplace := hst.place hrun
    rw [Nat.min_eq_left hk, Nat.mul_add] at hplace
    exact hst.scan rfl hrun hplace (by decide) (by omega)
      (fun p hp => h.member_of_word (getElem?_eq_getElem hlen) hp)
      (fun i hi hlt => by omega) (by omega)

theorem rforeachFour_post (h : Proper b) (hsize : b.size < 2 ^ 31) {st : Visiting σ}
    (hi : i < b.size / 56) (hst : Left cb b s (4 * (i + 1)) st) :
    Post (Left cb b s (4 * i)) Never (rforeachFour cb b st i) := by
  obtain ⟨w, hread, hnone⟩ := h.sized.readU64_four hi
  unfold rforeachFour
  cases hrun : st.stopped with
  | true => exact hst.stopped (by omega) hrun
  | false =>
    rw [if_neg Bool.false_ne_true, hread]
    dsimp only [bind, Except.bind]
    split
    · next hzero =>
      have hway : min (14 * (4 * i + 4)) b.size = 14 * (4 * i) + 56 := by omega
      exact hst.skip (by omega) hrun hway (by decide) (hnone hzero)
    · exact post_downward (a := 4 * i) (n := 4) hst fun k t _ hk ht =>
        rforeachOfFour_post h hsize (by omega) ht

theorem rforeachWord_post (h : Proper b) (hsize : b.size < 2 ^ 31) {k : Nat} {st : Visiting σ}
    (hk : k < b.data.length) (hst : Left cb b s (k + 1) st) :
    Post (Left cb b s k) Never (rforeachWord cb b st k) := by
  have hle := h.sized.word_le hk
  have hlen := h.length
  rw [wordsFor] at hlen
  have hcell := getElem?_eq_getElem hk
  unfold rforeachWord
  cases hrun : st.stopped with
  | true => exact hst.stopped (Nat.le_succ k) hrun
  | false =>
    have hplace := hst.place hrun
    rw [if_neg Bool.false_ne_true, read_eq hcell]
    dsimp only [bind, Except.bind]
    split
    · next hlast =>
      have htop : min (14 * (k + 1)) b.size = 14 * k + b.size % 14 := by omega
      split
      · next hzero =>
        rw [hzero] at hcell
        exact hst.skip (Nat.le_succ k) hrun htop (by omega) (between_of_zero hcell)
      · -- the loop begins at the bit behind the last member, which is clear
        rw [htop] at hplace
        have hpos : (st.forward 1).curPos = before (14 * k + (b.size % 14 + 1)) := by
          change (st.curPos + 1) % 2 ^ 32 = _
          rw [hplace, before, before]
          omega
        exact hst.scan (m := b.size % 14 + 1) rfl hrun hpos (by omega) (by omega)
          (fun p hp => h.member_of_word hcell (by omega))
          (fun i hi _ => member_of_ge (by omega)) hle
    · next hfull =>
      have htop : min (14 * (k + 1)) b.size = 14 * k + 14 := by omega
      split
      · next hzero =>
        rw [hzero] at hcell
        exact hst.skip (Nat.le_succ k) hrun htop (by decide) (between_of_zero hcell)
      · rw [htop] at hplace
        exact hst.scan rfl hrun hplace (by decide) (by omega)
          (fun p hp => h.member_of_word hcell hp) (fun i hi hlt => by omega) hle

theorem rforeach_eq (h : Proper b) (hsize : b.size < 2 ^ 31) :
    rforeach cb b s = .ok (visit cb (members b).reverse (s, false)).1 := by
  have hcover := h.sized.size_le
  have hinit : Left cb b s b.data.length (Visiting.back ⟨b.size, s, false⟩ 1) := by
    refine ⟨le_refl _, ?_, fun _ => ?_⟩
    · rw [between_self]
      rfl
    · rw [Nat.min_eq_right hcover]
      rfl
  have hwords : Post (Left cb b s (4 * (b.size / 56))) Never
      (rforeachRest cb b (Visiting.back ⟨b.size, s, false⟩ 1)) := by
    unfold rforeachRest
    split
    · apply post_downward
      · rw [Nat.add_sub_of_le h.bulk_le]
        exact hinit
      · intro i t _ hi ht
        exact rforeachWord_post h hsize (by omega) ht
    · next hfull =>
      have hlen : b.data.length = 4 * (b.size / 56) := by
        rw [h.length, wordsFor]
        omega
      rw [hlen] at hinit
      exact hinit
  have hall : Post (fun r => r = (visit cb (members b).reverse (s, false)).1) Never
      (rforeach cb b s) := by
    apply hwords.bind
    intro st hst
    have hfours := post_downward (P := fun i => Left cb b s (4 * i)) (a := 0) (n := b.size / 56)
      (by rw [Nat.zero_add]; exact hst)
      fun i t _ hi ht => rforeachFour_post h hsize (by omega) ht
    rw [← range_eq_range'] at hfours
    apply hfours.bind
    intro st hst
    rw [post_ok, ← between_of_ge hcover]
    have hout := hst.outcome
    rw [Nat.mul_zero] at hout
    rw [← hout]
    rfl
  exact hall.eq_ok

end Loops

end Helens.Ds.Bitmap
