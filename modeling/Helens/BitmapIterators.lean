import Helens.BitmapVisits

/-! `iterator` and `iterator_reverse`: every `next` moves to the nearest member in its
direction, or to a position that `operator!` takes for the end. With the loops of `foreach` and
`rforeach` these are five ways to list the members. -/

namespace Helens.Ds.Bitmap

open Lib.Runs Lib.Visits List

/-! ## The code -/

def wrap (n : Int) : Int := n.bmod (2 ^ 32)

def unsigned (n : Int) : Nat := (n % 2 ^ 32).toNat

/-- `m_pos`, `m_size` and the `m_dataSize` words of `m_data`. -/
structure Iterator where
  pos : Int
  size : Int
  data : List Word

def Iterator.valid (it : Iterator) : Bool := !(decide (it.size ≤ it.pos) || decide (it.pos < 0))

def seekUp (size : Int) (v : Word) : List Nat → Int → Bool × Int
  | [], p => (false, p)
  | i :: is, p =>
    if p < size then
      if v &&& pos i != 0#16 then (true, p) else seekUp size v is (p + 1)
    else (false, p)

def upWords (it : Iterator) : List Nat → Int → Except BitmapError Int
  | [], p => .ok p
  | i :: is, p =>
    if p < it.size then do
      let v ← read it.data i
      if v = 0#16 then upWords it is (wrap (p + 14))
      else
        let r := seekUp it.size v (List.range 14) p
        if r.1 then .ok r.2 else upWords it is r.2
    else .ok p

def restUp (it : Iterator) (p : Int) : Except BitmapError (Bool × Int) :=
  let left := unsigned p % 14
  if left ≠ 0 then do
    let v ← read it.data (unsigned p / 14)
    .ok (seekUp it.size v (List.range' left (14 - left)) p)
  else .ok (false, p)

def next (it : Iterator) : Except BitmapError Iterator := do
  let r ← restUp it (it.pos + 1)
  if r.1 then .ok { it with pos := r.2 }
  else
    let i := unsigned r.2 / 14
    let p ← upWords it (List.range' i (it.data.length - i)) r.2
    .ok { it with pos := p }

def begin (b : Bitmap) : Except BitmapError Iterator := next ⟨-1, wrap b.size, b.data⟩

def seekDown (v : Word) : List Nat → Int → Bool × Int
  | [], p => (false, p)
  | i :: is, p =>
    if 0 ≤ p then
      if v &&& pos i != 0#16 then (true, p) else seekDown v is (p - 1)
    else (false, p)

def downWords (it : Iterator) : List Nat → Int → Except BitmapError Int
  | [], p => .ok p
  | i :: is, p =>
    if 0 ≤ p then do
      let v ← read it.data i
      if v = 0#16 then downWords it is (wrap (p - 14))
      else
        let r := seekDown v (List.range 14).reverse p
        if r.1 then .ok r.2 else downWords it is r.2
    else .ok p

def nextReverse (it : Iterator) : Except BitmapError Iterator :=
  if it.pos ≤ 0 then .ok { it with pos := -1 }
  else
    let p := it.pos - 1
    let left := unsigned p % 14
    let i := unsigned p / 14
    if left ≠ 13 then do
      let v ← read it.data i
      let r := seekDown v (List.range (left + 1)).reverse p
      if r.1 then .ok { it with pos := r.2 }
      else do
        let p ← downWords it (List.range i).reverse r.2
        .ok { it with pos := p }
    else do
      let p ← downWords it (List.range (i + 1)).reverse p
      .ok { it with pos := p }

def rbegin (b : Bitmap) : Except BitmapError Iterator :=
  nextReverse ⟨wrap b.size, wrap b.size, b.data⟩

/-- `for(; !it; it.next())`: what `*it` is in each round, where it takes fewer rounds than
`rounds` to get to the end. -/
def walk (next : Iterator → Except BitmapError Iterator) :
    Nat → Iterator → Except BitmapError (Option (List Int))
  | 0, _ => .ok none
  | rounds + 1, it =>
    if it.valid then do
      let it' ← next it
      let rest ← walk next rounds it'
      .ok (rest.map (it.pos :: ·))
    else .ok (some [])

section
variable {b : Bitmap} {it : Iterator}

structure Reads (b : Bitmap) (it : Iterator) : Prop where
  size : it.size = b.size
  data : it.data = b.data

theorem wrap_of_lt {n : Int} (h : -1 ≤ n) (hlt : n < 2 ^ 31) : wrap n = n := by
  unfold wrap
  rw [Int.bmod_eq_of_le]
  · omega
  · omega

variable {n : Nat}

theorem wrap_size (h : n < 2 ^ 31) : wrap n = n := by
  have hlt : (n : Int) < 2 ^ 31 := by omega
  have hge : (-1 : Int) ≤ n := by omega
  exact wrap_of_lt hge hlt

theorem wrap_past {n : Int} {size : Nat} (h : size ≤ n) (hlt : n < 2 ^ 32) :
    ¬ (0 ≤ wrap n ∧ wrap n < size) := by
  unfold wrap Int.bmod
  dsimp only
  split <;> omega

theorem unsigned_natCast (h : n < 2 ^ 32) : unsigned (n : Int) = n := by
  unfold unsigned
  omega

theorem Reads.valid_iff (h : Reads b it) : it.valid = true ↔ 0 ≤ it.pos ∧ it.pos < b.size := by
  rw [Iterator.valid, h.size]
  simp
  omega

theorem member_lt (h : member b i = true) : i < b.size := by
  rw [member, Bool.and_eq_true, decide_eq_true_eq] at h
  exact h.1

theorem member_of_full (hw : b.data[j]? = some w) (hp : p < 14)
    (hlt : 14 * j + p < b.size) : member b (14 * j + p) = w.getLsbD p := by
  rw [member_of_word hw hp, decide_eq_true hlt, Bool.true_and]

theorem member_of_zero (hw : b.data[j]? = some 0#16) (hlo : 14 * j ≤ i)
    (hi : i < 14 * j + 14) : member b i = false := by
  obtain ⟨p, rfl⟩ := Nat.exists_eq_add_of_le hlo
  rw [member_of_word hw (by omega), BitVec.getLsbD_zero, Bool.and_false]

/-! ## Upward -/

def FirstFrom (b : Bitmap) (n : Nat) (p : Int) : Prop :=
  (∃ q : Nat, p = q ∧ n ≤ q ∧ member b q = true ∧ ∀ i, n ≤ i → i < q → member b i = false) ∨
    (¬ (0 ≤ p ∧ p < b.size) ∧ ∀ i, n ≤ i → member b i = false)

theorem FirstFrom.of_later {n m : Nat} (h : FirstFrom b m p) (hle : n ≤ m)
    (hnone : ∀ i, n ≤ i → i < m → member b i = false) : FirstFrom b n p := by
  rcases h with ⟨q, hq, hge, hmem, hfirst⟩ | ⟨hend, hall⟩
  · left
    refine ⟨q, hq, by omega, hmem, fun i hi hlt => ?_⟩
    by_cases him : i < m
    · exact hnone i hi him
    · exact hfirst i (by omega) hlt
  · right
    refine ⟨hend, fun i hi => ?_⟩
    by_cases him : i < m
    · exact hnone i hi him
    · exact hall i (by omega)

theorem seekUp_post (hw : b.data[j]? = some v) {x n : Nat} (hx : x + n = 14)
    (hle : 14 * j + x ≤ b.size)
    (hr : seekUp b.size v (range' x n) (14 * j + x : Nat) = r) :
    (r.1 = true → FirstFrom b (14 * j + x) r.2) ∧
      (r.1 = false → r.2 = (min (14 * j + 14) b.size : Nat) ∧
        ∀ i, 14 * j + x ≤ i → i < 14 * j + 14 → member b i = false) := by
  induction n generalizing x r with
  | zero =>
    subst hr
    refine ⟨fun hfound => absurd hfound Bool.false_ne_true, fun _ => ⟨?_, fun i hi hlt => by omega⟩⟩
    change ((14 * j + x : Nat) : Int) = _
    congr 1
    omega
  | succ n ih =>
    rw [range'_succ, seekUp] at hr
    by_cases hlt : 14 * j + x < b.size
    · rw [if_pos (by omega), and_pos_ne_zero v (by omega)] at hr
      have hmember := member_of_full hw (by omega) hlt
      cases hbit : v.getLsbD x with
      | true =>
        rw [hbit, if_pos rfl] at hr
        subst hr
        refine ⟨fun _ => .inl ⟨14 * j + x, rfl, Nat.le_refl _, hmember.trans hbit, ?_⟩, ?_⟩
        · intro i hi hi'
          omega
        · intro hnot
          cases hnot
      | false =>
        rw [hbit, if_neg Bool.false_ne_true] at hr
        obtain ⟨hfound, hnot⟩ := ih (x := x + 1) (by omega) (by omega) hr
        have hhere : ∀ i, 14 * j + x ≤ i → i < 14 * j + (x + 1) → member b i = false := by
          intro i hi hi'
          rw [show i = 14 * j + x by omega, hmember, hbit]
        refine ⟨fun h => (hfound h).of_later (by omega) hhere, fun h => ⟨(hnot h).1, ?_⟩⟩
        intro i hi hi'
        by_cases hix : i < 14 * j + (x + 1)
        · exact hhere i hi hix
        · exact (hnot h).2 i (by omega) hi'
    · rw [if_neg (by omega)] at hr
      subst hr
      refine ⟨fun hfound => absurd hfound Bool.false_ne_true, fun _ => ⟨?_, ?_⟩⟩
      · change ((14 * j + x : Nat) : Int) = _
        congr 1
        omega
      · exact fun i hi _ => member_of_ge (by omega)

theorem none_from {n m : Nat} (hnone : ∀ i, n ≤ i → i < m → member b i = false)
    (hm : b.size ≤ m) : ∀ i, n ≤ i → member b i = false := by
  intro i hi
  by_cases hlt : i < m
  · exact hnone i hi hlt
  · exact member_of_ge (by omega)

theorem upWords_post (h : Sized b) (hsize : b.size < 2 ^ 31) (hit : Reads b it) {j n : Nat}
    (hn : j + n = b.data.length) (hle : 14 * j ≤ b.size) :
    Post (FirstFrom b (14 * j)) Never (upWords it (range' j n) (14 * j : Nat)) := by
  have hlen := h.length
  rw [wordsFor] at hlen
  induction n generalizing j with
  | zero =>
    right
    exact ⟨by omega, fun i hi => member_of_ge (by omega)⟩
  | succ n ih =>
    have hj : j < b.data.length := by omega
    have hcell := getElem?_eq_getElem hj
    rw [range'_succ, upWords, hit.size, if_pos (by omega), hit.data, read_eq hcell]
    dsimp only [bind, Except.bind]
    split
    · next hzero =>
      rw [hzero] at hcell
      by_cases hmore : 14 * (j + 1) ≤ b.size
      · have hwrap : wrap (((14 * j : Nat) : Int) + 14) = (14 * (j + 1) : Nat) := by
          rw [wrap_of_lt (by omega) (by omega)]
          omega
        rw [hwrap]
        apply (ih (by omega) hmore).imp
        intro p hp
        exact hp.of_later (by omega) fun i hi hlt => member_of_zero hcell hi (by omega)
      · obtain rfl : n = 0 := by omega
        right
        refine ⟨wrap_past (by omega) (by omega), none_from ?_ (show b.size ≤ 14 * j + 14 by omega)⟩
        exact fun i hi hlt => member_of_zero hcell hi hlt
    · obtain ⟨hfound, hnot⟩ := seekUp_post (x := 0) (n := 14) hcell rfl hle rfl
      rw [← range_eq_range', Nat.add_zero] at hfound hnot
      split
      · next htrue => exact hfound htrue
      · next hfalse =>
        obtain ⟨hend, hnone⟩ := hnot (Bool.eq_false_iff.mpr hfalse)
        rw [hend]
        by_cases hmore : 14 * (j + 1) ≤ b.size
        · rw [Nat.min_eq_left (by omega)]
          apply (ih (by omega) hmore).imp
          intro p hp
          exact hp.of_later (by omega) fun i hi hlt => hnone i hi (by omega)
        · obtain rfl : n = 0 := by omega
          rw [Nat.min_eq_right (by omega)]
          right
          exact ⟨by omega, none_from hnone (by omega)⟩

theorem upWords_of_ge (hit : Reads b it) (hp : b.size ≤ p) : upWords it is p = .ok p := by
  cases is with
  | nil => rfl
  | cons i is => rw [upWords, hit.size, if_neg (by omega)]

theorem next_post (h : Sized b) (hsize : b.size < 2 ^ 31) (hit : Reads b it)
    (hpos : it.pos + 1 = n) (hn : n ≤ b.size) :
    Post (fun it' => Reads b it' ∧ FirstFrom b n it'.pos) Never (next it) := by
  have hlen := h.length
  rw [wordsFor] at hlen
  obtain ⟨at', size', data'⟩ := it
  obtain ⟨rfl, rfl⟩ := hit
  have hit : ∀ p, Reads b ⟨p, b.size, b.data⟩ := fun p => ⟨rfl, rfl⟩
  unfold next restUp
  dsimp only at hpos ⊢
  rw [hpos, unsigned_natCast (by omega)]
  by_cases hleft : n % 14 = 0
  · rw [if_neg (not_not.mpr hleft)]
    dsimp only [bind, Except.bind]
    rw [if_neg Bool.false_ne_true, unsigned_natCast (by omega)]
    have hwords := upWords_post (j := n / 14) (n := b.data.length - n / 14) h hsize (hit at')
      (by omega) (by omega)
    rw [show 14 * (n / 14) = n by omega] at hwords
    apply hwords.bind
    exact fun p hp => ⟨hit p, hp⟩
  · have hj : n / 14 < b.data.length := by omega
    have hcell := getElem?_eq_getElem hj
    have hindex : 14 * (n / 14) + n % 14 = n := Nat.div_add_mod n 14
    obtain ⟨hfound, hnot⟩ := seekUp_post (x := n % 14) (n := 14 - n % 14) hcell (by omega)
      (by omega) rfl
    rw [hindex] at hfound hnot
    rw [if_pos hleft, read_eq hcell]
    dsimp only [bind, Except.bind]
    split
    · next htrue => exact ⟨hit _, hfound htrue⟩
    · next hfalse =>
      obtain ⟨hend, hnone⟩ := hnot (Bool.eq_false_iff.mpr hfalse)
      rw [hend, unsigned_natCast (by omega)]
      by_cases hmore : 14 * (n / 14 + 1) ≤ b.size
      · have hmin : min (14 * (n / 14) + 14) b.size = 14 * (n / 14 + 1) := by omega
        have hdiv : 14 * (n / 14 + 1) / 14 = n / 14 + 1 := by omega
        rw [hmin, hdiv]
        apply (upWords_post h hsize (hit at') (by omega) hmore).bind
        intro p hp
        exact ⟨hit p, hp.of_later (by omega) fun i hi hlt => hnone i hi (by omega)⟩
      · rw [Nat.min_eq_right (by omega), upWords_of_ge (hit at') (le_refl _)]
        exact ⟨hit _, .inr ⟨by dsimp only; omega, none_from hnone (by omega)⟩⟩

theorem between_of_first {n q hi : Nat} (hq : n ≤ q) (hmem : member b q = true)
    (hfirst : ∀ i, n ≤ i → i < q → member b i = false) (hlt : q < hi) :
    between b n hi = q :: between b (q + 1) hi := by
  rw [between_append hq (Nat.le_of_lt hlt), between_eq_nil hfirst,
    between_append (Nat.le_succ q) hlt, between_succ, hmem]
  rfl

theorem walk_next (h : Sized b) (hsize : b.size < 2 ^ 31) {n rounds : Nat} (hn : n ≤ b.size)
    (hrounds : b.size - n < rounds) (hit : Reads b it) (hfirst : FirstFrom b n it.pos) :
    walk next rounds it = .ok (some ((between b n b.size).map Int.ofNat)) := by
  induction rounds generalizing n it with
  | zero => omega
  | succ rounds ih =>
    unfold walk
    rcases hfirst with ⟨q, hq, hge, hmem, hnone⟩ | ⟨hend, hall⟩
    · have hlt := member_lt hmem
      have hvalid : it.valid = true := hit.valid_iff.mpr (by omega)
      obtain ⟨it', hnext, hit', hfirst'⟩ :=
        (next_post (n := q + 1) h hsize hit (by omega) hlt).exists_ok
      rw [if_pos hvalid, hnext]
      dsimp only [bind, Except.bind]
      rw [ih hlt (by omega) hit' hfirst', between_of_first hge hmem hnone hlt, hq]
      rfl
    · have hinvalid : ¬ it.valid = true := fun hv => hend (hit.valid_iff.mp hv)
      rw [if_neg hinvalid, between_eq_nil fun i hi _ => hall i hi]
      rfl

/-- `for(auto it = begin(); !it; it.next())` lists the members. -/
theorem walk_begin (h : Sized b) (hsize : b.size < 2 ^ 31) (hrounds : b.size < rounds) :
    begin b >>= walk next rounds = .ok (some ((members b).map Int.ofNat)) := by
  have hit : Reads b ⟨-1, b.size, b.data⟩ := ⟨rfl, rfl⟩
  obtain ⟨it, hbegin, hit', hfirst⟩ := (next_post h hsize hit rfl (Nat.zero_le b.size)).exists_ok
  rw [begin, wrap_size hsize, hbegin]
  exact walk_next h hsize (Nat.zero_le _) (by omega) hit' hfirst

/-! ## Downward -/

def LastBelow (b : Bitmap) (n : Nat) (p : Int) : Prop :=
  (∃ q : Nat, p = q ∧ q < n ∧ member b q = true ∧ ∀ i, q < i → i < n → member b i = false) ∨
    (p < 0 ∧ ∀ i < n, member b i = false)

theorem LastBelow.of_lower {n m : Nat} (h : LastBelow b m p) (hle : m ≤ n)
    (hnone : ∀ i, m ≤ i → i < n → member b i = false) : LastBelow b n p := by
  rcases h with ⟨q, hq, hlt, hmem, hlast⟩ | ⟨hend, hall⟩
  · left
    refine ⟨q, hq, by omega, hmem, fun i hi hin => ?_⟩
    by_cases him : i < m
    · exact hlast i hi him
    · exact hnone i (by omega) hin
  · right
    refine ⟨hend, fun i hi => ?_⟩
    by_cases him : i < m
    · exact hall i him
    · exact hnone i (by omega) hi

theorem seekDown_post (hw : b.data[j]? = some v) (hm : m ≤ 14) (hle : 14 * j + m ≤ b.size)
    (hr : seekDown v (range m).reverse ((14 * j + m : Nat) - 1) = r) :
    (r.1 = true → LastBelow b (14 * j + m) r.2) ∧ (r.1 = false → r.2 = (14 * j : Nat) - 1 ∧
        ∀ i, 14 * j ≤ i → i < 14 * j + m → member b i = false) := by
  induction m generalizing r with
  | zero =>
    subst hr
    exact ⟨fun hfound => absurd hfound Bool.false_ne_true,
      fun _ => ⟨rfl, fun i hi hlt => by omega⟩⟩
  | succ m ih =>
    have hindex : ((14 * j + (m + 1) : Nat) : Int) - 1 = (14 * j + m : Nat) := by omega
    have hmember := member_of_full (p := m) hw (by omega) (by omega)
    rw [range_succ, reverse_append, reverse_singleton, singleton_append,
      seekDown, hindex, if_pos (by omega), and_pos_ne_zero v (by omega)] at hr
    cases hbit : v.getLsbD m with
    | true =>
      rw [hbit, if_pos rfl] at hr
      subst hr
      refine ⟨fun _ => .inl ⟨14 * j + m, rfl, by omega, hmember.trans hbit, ?_⟩, ?_⟩
      · intro i hi hi'
        omega
      · intro hnot
        cases hnot
    | false =>
      rw [hbit, if_neg Bool.false_ne_true] at hr
      obtain ⟨hfound, hnot⟩ := ih (by omega) (by omega) hr
      have hhere : ∀ i, 14 * j + m ≤ i → i < 14 * j + (m + 1) → member b i = false := by
        intro i hi hi'
        rw [show i = 14 * j + m by omega, hmember, hbit]
      refine ⟨fun h => (hfound h).of_lower (by omega) hhere, fun h => ⟨(hnot h).1, ?_⟩⟩
      intro i hi hi'
      by_cases hix : i < 14 * j + m
      · exact (hnot h).2 i hi hix
      · exact hhere i (by omega) hi'

theorem downWords_post (h : Sized b) (hsize : b.size < 2 ^ 31) (hit : Reads b it)
    (hle : 14 * k ≤ b.size) :
    Post (LastBelow b (14 * k)) Never
      (downWords it (range k).reverse ((14 * k : Nat) - 1)) := by
  induction k with
  | zero =>
    right
    exact ⟨by decide, fun i hi => by omega⟩
  | succ k ih =>
    have hk : k < b.data.length := by
      rw [h.length, wordsFor]
      omega
    have hcell := getElem?_eq_getElem hk
    rw [range_succ, reverse_append, reverse_singleton, singleton_append,
      downWords, if_pos (by omega), hit.data, read_eq hcell]
    dsimp only [bind, Except.bind]
    split
    · next hzero =>
      rw [hzero] at hcell
      have hwrap : wrap (((14 * (k + 1) : Nat) : Int) - 1 - 14) = (14 * k : Nat) - 1 := by
        rw [wrap_of_lt (by omega) (by omega)]
        omega
      rw [hwrap]
      apply (ih (by omega)).imp
      intro p hp
      exact hp.of_lower (by omega) fun i hi hlt => member_of_zero hcell hi (by omega)
    · obtain ⟨hfound, hnot⟩ := seekDown_post (m := 14) hcell (by decide) (by omega) rfl
      rw [show 14 * k + 14 = 14 * (k + 1) by omega] at hfound hnot
      split
      · next htrue => exact hfound htrue
      · next hfalse =>
        obtain ⟨hend, hnone⟩ := hnot (Bool.eq_false_iff.mpr hfalse)
        rw [hend]
        apply (ih (by omega)).imp
        intro p hp
        exact hp.of_lower (by omega) fun i hi hlt => hnone i hi (by omega)

theorem nextReverse_post (h : Sized b) (hsize : b.size < 2 ^ 31) (hit : Reads b it)
    (hpos : it.pos = n) (hn : n ≤ b.size) :
    Post (fun it' => Reads b it' ∧ LastBelow b n it'.pos) Never (nextReverse it) := by
  obtain ⟨at', size', data'⟩ := it
  obtain ⟨rfl, rfl⟩ := hit
  have hit : ∀ p, Reads b ⟨p, b.size, b.data⟩ := fun p => ⟨rfl, rfl⟩
  unfold nextReverse
  dsimp only at hpos ⊢
  rw [hpos]
  cases n with
  | zero => exact ⟨hit (-1), .inr ⟨by dsimp only; omega, fun i hi => by omega⟩⟩
  | succ n =>
    have hindex : ((n + 1 : Nat) : Int) - 1 = n := by omega
    have hdiv := Nat.div_add_mod n 14
    have hj : n / 14 < b.data.length := h.word_lt hn
    rw [if_neg (by omega), hindex, unsigned_natCast (by omega)]
    split
    · next hleft =>
      have hcell := getElem?_eq_getElem hj
      obtain ⟨hfound, hnot⟩ := seekDown_post (m := n % 14 + 1) hcell (by omega) (by omega) rfl
      rw [show 14 * (n / 14) + (n % 14 + 1) = n + 1 by omega, hindex] at hfound hnot
      rw [read_eq hcell]
      dsimp only [bind, Except.bind]
      split
      · next htrue => exact ⟨hit _, hfound htrue⟩
      · next hfalse =>
        obtain ⟨hend, hnone⟩ := hnot (Bool.eq_false_iff.mpr hfalse)
        rw [hend]
        apply (downWords_post (k := n / 14) h hsize (hit _) (by omega)).bind
        intro p hp
        exact ⟨hit p, hp.of_lower (by omega) fun i hi hlt => hnone i hi hlt⟩
    · next hleft =>
      have hwords := downWords_post (k := n / 14 + 1) h hsize (hit (n + 1 : Nat)) (by omega)
      rw [show 14 * (n / 14 + 1) = n + 1 by omega, hindex] at hwords
      apply hwords.bind
      exact fun p hp => ⟨hit p, hp⟩

theorem between_of_last {n q : Nat} (hq : q < n) (hmem : member b q = true)
    (hlast : ∀ i, q < i → i < n → member b i = false) :
    (between b 0 n).reverse = q :: (between b 0 q).reverse := by
  rw [between_append (Nat.zero_le q) (Nat.le_of_lt hq), between_append (Nat.le_succ q) hq,
    between_succ, hmem, between_eq_nil hlast, append_nil, reverse_append]
  rfl

theorem walk_nextReverse (h : Sized b) (hsize : b.size < 2 ^ 31) {n rounds : Nat}
    (hn : n ≤ b.size) (hrounds : n < rounds) (hit : Reads b it) (hlast : LastBelow b n it.pos) :
    walk nextReverse rounds it = .ok (some ((between b 0 n).reverse.map Int.ofNat)) := by
  induction rounds generalizing n it with
  | zero => omega
  | succ rounds ih =>
    unfold walk
    rcases hlast with ⟨q, hq, hlt, hmem, hnone⟩ | ⟨hend, hall⟩
    · have hvalid : it.valid = true := hit.valid_iff.mpr (by omega)
      obtain ⟨it', hnext, hit', hlast'⟩ :=
        (nextReverse_post (n := q) h hsize hit hq (by omega)).exists_ok
      rw [if_pos hvalid, hnext]
      dsimp only [bind, Except.bind]
      rw [ih (by omega) (by omega) hit' hlast', between_of_last hlt hmem hnone, hq]
      rfl
    · have hinvalid : ¬ it.valid = true := fun hv => by
        have hpos := (hit.valid_iff.mp hv).1
        omega
      rw [if_neg hinvalid, between_eq_nil fun i _ hi => hall i (by omega)]
      rfl

/-- `for(auto it = rbegin(); !it; it.next())` lists the members from the last one down. -/
theorem walk_rbegin (h : Sized b) (hsize : b.size < 2 ^ 31) (hrounds : b.size < rounds) :
    rbegin b >>= walk nextReverse rounds = .ok (some ((members b).reverse.map Int.ofNat)) := by
  have hit : Reads b ⟨b.size, b.size, b.data⟩ := ⟨rfl, rfl⟩
  obtain ⟨it, hbegin, hit', hlast⟩ :=
    (nextReverse_post h hsize hit rfl (le_refl b.size)).exists_ok
  rw [rbegin, wrap_size hsize, hbegin]
  exact walk_nextReverse h hsize (le_refl _) hrounds hit' hlast

end

/-- The two loops, `listPosAsc` and both iterators list the members in order, each once, and a
callback is called on them until it returns false. -/
theorem enumerations_list_members (size : Nat) (calls : List SetCall) (hsize : size < 2 ^ 31)
    (hcalls : ∀ c ∈ calls, c.Within size) (b : Bitmap) (hb : assemble size calls = .ok b) :
    ∃ is : List Nat, is.Pairwise (· < ·) ∧ (∀ i, i ∈ is ↔ i < size ∧ b.get i = .ok true) ∧
      (∀ (σ : Type) (cb : σ → Nat → σ × Bool) (s : σ),
        foreach cb b s = .ok (visit cb is (s, false)).1 ∧
        rforeach cb b s = .ok (visit cb is.reverse (s, false)).1) ∧
      (∀ pos, listPosAsc b pos = .ok (pos ++ is)) ∧
      ∀ rounds, size < rounds → begin b >>= walk next rounds = .ok (some (is.map Int.ofNat)) ∧
        rbegin b >>= walk nextReverse rounds = .ok (some (is.reverse.map Int.ofNat)) := by
  obtain ⟨h, rfl⟩ := assemble_proper hcalls hb
  refine ⟨members b, pairwise_members, fun i => h.sized.member_iff_get, fun σ cb s => ?_, ?_, ?_⟩
  · exact ⟨foreach_eq h.sized (by omega), rforeach_eq h hsize⟩
  · exact listPosAsc_eq h.sized (by omega)
  · intro rounds hrounds
    exact ⟨walk_begin h.sized hsize hrounds, walk_rbegin h.sized hsize hrounds⟩

theorem enumerations_list_members_seventy :
    ∃ b, assemble 72 [.range 0 56 true, .one 3 false, .one 70 true] = .ok b ∧
      ∃ is : List Nat, is.Pairwise (· < ·) ∧ (∀ i, i ∈ is ↔ i < 72 ∧ b.get i = .ok true) ∧
        (∀ (σ : Type) (cb : σ → Nat → σ × Bool) (s : σ),
          foreach cb b s = .ok (visit cb is (s, false)).1 ∧
          rforeach cb b s = .ok (visit cb is.reverse (s, false)).1) ∧
        (∀ pos, listPosAsc b pos = .ok (pos ++ is)) ∧
        ∀ rounds, 72 < rounds → begin b >>= walk next rounds = .ok (some (is.map Int.ofNat)) ∧
          rbegin b >>= walk nextReverse rounds = .ok (some (is.reverse.map Int.ofNat)) :=
  ⟨_, rfl, enumerations_list_members 72 [.range 0 56 true, .one 3 false, .one 70 true]
    (by decide) (by decide) _ rfl⟩

example : (do let b ← assemble 20 [.one 3 true, .one 19 true]
              let it ← begin b
              walk next 3 it) = .ok (some [3, 19]) := by decide +kernel

end Helens.Ds.Bitmap
