import Helens.Lib.BinarySearch
import Helens.Lib.Runs
import Helens.Lib.WhileLoops
import Mathlib.Data.Finset.Basic
import Mathlib.Data.Finset.Lattice.Lemmas

/-! `ds::Array`: the two searches, one of which does not end for most values, and the runs of
`insert` and `erase` against finite sets. -/

namespace Helens.Ds

open Lib.BinarySearch Lib.Runs Lib.WhileLoops List

inductive ArrayError
  | outsideArray
  | unfinished
  deriving DecidableEq

structure Array (α : Type) where
  data : List α
  deriving DecidableEq

namespace Array

variable {α : Type} (r : α → α → Prop) [DecidableRel r]

/-! ## The code -/

def at? (data : List α) (i : Int) : Option α := if i < 0 then none else data[i.toNat]?

/-- A round of `exists(v)` with `begin` and `end`. An array in memory has fewer than 2⁶²
elements, so their sum is an `int64_t`. -/
def existsRound (data : List α) (v : α) (w : Int × Int) : (Int × Int) ⊕ Except ArrayError Int :=
  if w.1 ≤ w.2 then
    let m := (w.1 + w.2).tdiv 2
    match at? data m with
    | none => .inr (.error .outsideArray)
    | some x =>
      if r v x then .inl (w.1, m - 1)
      else if r x v then .inl (m + 1, w.2)
      else .inr (.ok m)
  else .inr (.ok (-w.1 - 1))

/-- A round of `exists(v, cmp)`, where `end == m - 1` is a comparison and not an assignment. -/
def existsCmpRound (cmp : α → α → Prop) [DecidableRel cmp] (data : List α) (v : α)
    (w : Int × Int) : (Int × Int) ⊕ Except ArrayError Int :=
  if w.1 ≤ w.2 then
    let m := (w.1 + w.2).tdiv 2
    match at? data m with
    | none => .inr (.error .outsideArray)
    | some x =>
      if cmp v x then .inl w
      else if cmp x v then .inl (m + 1, w.2)
      else .inr (.ok m)
  else .inr (.ok (-w.1 - 1))

def window (a : Array α) : Int × Int := (0, a.data.length - 1)

/-- `exists(v)`, which needs no more rounds than there are elements, and one to return. -/
def existsIndex (a : Array α) (v : α) : Except ArrayError Int :=
  (iterate (existsRound r a.data v) (a.data.length + 1) a.window).getD (.error .unfinished)

/-- `exists(v, cmp)` returns. -/
def ExistsCmp (a : Array α) (v : α) (res : Except ArrayError Int) : Prop :=
  Returns (existsCmpRound r a.data v) a.window res

def memmove (l : List α) (dst src n : Int) : Except ArrayError (List α) :=
  if 0 ≤ dst ∧ 0 ≤ src ∧ 0 ≤ n ∧ dst + n ≤ l.length ∧ src + n ≤ l.length then
    .ok (l.take dst.toNat ++ (l.drop src.toNat).take n.toNat ++ l.drop (dst + n).toNat)
  else .error .outsideArray

def store (l : List α) (i : Int) (v : α) : Except ArrayError (List α) :=
  if 0 ≤ i ∧ i < l.length then .ok (l.set i.toNat v) else .error .outsideArray

/-- `insert(idx, v)`. What `realloc` adds is not initialised. -/
def insertAt (a : Array α) (idx : Int) (v junk : α) : Except ArrayError (Array α) := do
  let grown := a.data ++ [junk]
  let idx := -idx - 1
  let moved ← memmove grown (idx + 1) idx (a.data.length - idx)
  let data ← store moved idx v
  .ok ⟨data⟩

def insert (a : Array α) (v junk : α) : Except ArrayError (Array α × Bool) := do
  let idx ← a.existsIndex r v
  if 0 ≤ idx then do
    let data ← store a.data idx v
    .ok (⟨data⟩, false)
  else do
    let a' ← a.insertAt idx v junk
    .ok (a', true)

def erase (a : Array α) (idx : Int) : Except ArrayError (Array α) := do
  let size := (a.data.length : Int) - 1
  let moved ← memmove a.data idx (idx + 1) (size - idx)
  .ok ⟨moved.take size.toNat⟩

variable {r} {a : Array α} {v x : α}

/-! ## The searches -/

/-- The index of the element that is equivalent to the value, or its place turned negative. -/
structure Answers (r : α → α → Prop) [DecidableRel r] (data : List α) (v : α)
    (idx : Int) : Prop where
  found : ∀ (i : Nat) x, data[i]? = some x → Equivalent r x v → idx = i
  missing : (∀ x ∈ data, ¬ Equivalent r x v) → idx = -(place r data v : Int) - 1

variable {data : List α}

theorem Answers.unique (hi : Answers r data v i)
    (hj : Answers r data v j) : i = j := by
  by_cases hsome : ∃ x ∈ data, Equivalent r x v
  · obtain ⟨x, hx, hequivalent⟩ := hsome
    obtain ⟨n, hn⟩ := getElem?_of_mem hx
    rw [hi.found n x hn hequivalent, hj.found n x hn hequivalent]
  · have hnone : ∀ x ∈ data, ¬ Equivalent r x v := fun x hx h => hsome ⟨x, hx, h⟩
    rw [hi.missing hnone, hj.missing hnone]

theorem at?_natCast (data : List α) (i : Nat) : at? data i = data[i]? := by
  rw [at?, if_neg (by omega), Int.toNat_natCast]

section
variable [IsStrictWeakOrder α r]

theorem answers_found (hl : data.Pairwise r) {m : Nat} (hx : data[m]? = some x)
    (hequivalent : Equivalent r x v) : Answers r data v m := by
  constructor
  · intro i y hi hy
    rw [hequivalent.eq_place hl hx, hy.eq_place hl hi]
  · intro hnone
    exact absurd hequivalent (hnone x (mem_of_getElem? hx))

theorem answers_missing (hl : data.Pairwise r) (hn : n ≤ data.length)
    (hbelow : ∀ i x, data[i]? = some x → i < n → r x v)
    (habove : ∀ i x, data[i]? = some x → n ≤ i → r v x) : Answers r data v (-(n : Int) - 1) := by
  constructor
  · intro i y hi hy
    rcases Nat.lt_or_ge i n with hlt | hge
    · exact absurd (hbelow i y hi hlt) hy.1
    · exact absurd (habove i y hi hge) hy.2
  · intro _
    have hplace : place r data v = n := by
      apply le_antisymm
      · by_contra hlt
        have hin : n < data.length := (not_le.mp hlt).trans_le (place_le_length data v)
        have hcell := getElem?_eq_getElem hin
        have hless := (lt_place_iff hl hcell).mp (not_le.mp hlt)
        exact asymm_of r hless (habove n _ hcell le_rfl)
      · by_contra hlt
        have hin : place r data v < data.length := (not_le.mp hlt).trans_le hn
        have hcell := getElem?_eq_getElem hin
        have hless := hbelow _ _ hcell (not_le.mp hlt)
        exact lt_irrefl _ ((lt_place_iff hl hcell).mpr hless)
    rw [hplace]

/-- What is before the window is below the value, and what is behind it is above. -/
structure Outside (r : α → α → Prop) (data : List α) (v : α) (w : Int × Int) : Prop where
  nonneg : 0 ≤ w.1
  le : w.1 ≤ w.2 + 1
  lt : w.2 < data.length
  before : ∀ (i : Nat) x, data[i]? = some x → (i : Int) < w.1 → r x v
  behind : ∀ (i : Nat) x, data[i]? = some x → w.2 < (i : Int) → r v x

structure Middle (data : List α) (w : Int × Int) (m : Nat) (x : α) : Prop where
  eq : (w.1 + w.2).tdiv 2 = m
  low : w.1 ≤ m
  high : (m : Int) ≤ w.2
  cell : data[m]? = some x

theorem exists_middle {w : Int × Int} (hnonneg : 0 ≤ w.1)
    (hlt : w.2 < data.length) (hle : w.1 ≤ w.2) : ∃ m x, Middle data w m x := by
  have hdiv : (w.1 + w.2).tdiv 2 = (w.1 + w.2) / 2 := Int.tdiv_eq_ediv_of_nonneg (by omega)
  obtain ⟨m, hm⟩ := Int.eq_ofNat_of_zero_le (a := (w.1 + w.2) / 2) (by omega)
  have hin : m < data.length := by omega
  exact ⟨m, data[m], by omega, by omega, by omega, getElem?_eq_getElem hin⟩

section
variable {data : List α} {w : Int × Int} {m : Nat}

omit [IsStrictWeakOrder α r] in
theorem existsRound_eq (h : Middle data w m x) : existsRound r data v w =
    if r v x then .inl (w.1, (m : Int) - 1) else if r x v then .inl ((m : Int) + 1, w.2)
    else .inr (.ok (m : Int)) := by
  have hle : w.1 ≤ w.2 := h.low.trans h.high
  rw [existsRound, if_pos hle]
  dsimp only
  rw [h.eq, at?_natCast, h.cell]

omit [IsStrictWeakOrder α r] in
theorem existsRound_empty (h : w.2 < w.1) : existsRound r data v w = .inr (.ok (-w.1 - 1)) :=
  if_neg (not_le.mpr h)

omit [DecidableRel r] in
theorem Outside.left (h : Outside r data v w) (hl : data.Pairwise r) (hm : Middle data w m x)
    (habove : r v x) : Outside r data v (w.1, (m : Int) - 1) := by
  have hlow := hm.low
  have hhigh := hm.high
  have hlt := h.lt
  refine ⟨h.nonneg, by dsimp only; omega, by dsimp only; omega, h.before, ?_⟩
  intro i y hi hmi
  dsimp only at hmi
  rcases (show m ≤ i by omega).eq_or_lt with rfl | hless
  · rw [hm.cell] at hi
    cases hi
    exact habove
  · obtain ⟨hi', rfl⟩ := List.getElem?_eq_some_iff.mp hi
    obtain ⟨hm', rfl⟩ := List.getElem?_eq_some_iff.mp hm.cell
    exact trans_of r habove (pairwise_iff_getElem.mp hl m i hm' hi' hless)

theorem Outside.right (h : Outside r data v w) (hl : data.Pairwise r) (hm : Middle data w m x)
    (hbelow : r x v) : Outside r data v ((m : Int) + 1, w.2) := by
  have hlow := hm.low
  have hhigh := hm.high
  have hnonneg := h.nonneg
  refine ⟨by dsimp only; omega, by dsimp only; omega, h.lt, ?_, h.behind⟩
  intro i y hi hmi
  dsimp only at hmi
  have hplace := (lt_place_iff hl hm.cell).mpr hbelow
  exact (lt_place_iff hl hi).mp (by omega)

theorem Outside.answers (h : Outside r data v w) (hl : data.Pairwise r) (hempty : w.2 < w.1) :
    Answers r data v (-w.1 - 1) := by
  have hle := h.le
  have hlt := h.lt
  obtain ⟨n, hn⟩ := Int.eq_ofNat_of_zero_le h.nonneg
  rw [hn]
  apply answers_missing hl (by omega)
  · intro i x hi hin
    exact h.before i x hi (by omega)
  · intro i x hi hin
    exact h.behind i x hi (by omega)

omit [IsStrictWeakOrder α r] in
theorem outside_window (a : Array α) (v) : Outside r a.data v a.window := by
  refine ⟨le_rfl, by dsimp only [window]; omega, by dsimp only [window]; omega, ?_, ?_⟩
  · intro i x _ hi
    dsimp only [window] at hi
    omega
  · intro i x hx hi
    have hin := (List.getElem?_eq_some_iff.mp hx).1
    dsimp only [window] at hi
    omega

end

theorem existsIndex_post (a : Array α) (hl : a.data.Pairwise r) (v) :
    ∃ idx, a.existsIndex r v = .ok idx ∧ Answers r a.data v idx := by
  have hloop : ∃ res, iterate (existsRound r a.data v) (a.data.length + 1) a.window = some res ∧
      ∃ idx, res = .ok idx ∧ Answers r a.data v idx := by
    apply iterate_of_measure (I := Outside r a.data v) (fun w => (w.2 + 1 - w.1).toNat) _ _ _ _
      (outside_window a v)
    · dsimp only [window]
      omega
    · -- every round leaves a smaller window
      intro w w' hw hround
      rcases lt_or_ge w.2 w.1 with hempty | hle
      · rw [existsRound_empty hempty] at hround
        cases hround
      obtain ⟨m, x, hm⟩ := exists_middle hw.nonneg hw.lt hle
      have hlow := hm.low
      have hhigh := hm.high
      rw [existsRound_eq hm] at hround
      split at hround
      · next habove =>
        cases hround
        exact ⟨hw.left hl hm habove, by dsimp only; omega⟩
      · split at hround
        · next hbelow =>
          cases hround
          exact ⟨hw.right hl hm hbelow, by dsimp only; omega⟩
        · cases hround
    · intro w res hw hround
      rcases lt_or_ge w.2 w.1 with hempty | hle
      · rw [existsRound_empty hempty] at hround
        cases hround
        exact ⟨_, rfl, hw.answers hl hempty⟩
      obtain ⟨m, x, hm⟩ := exists_middle hw.nonneg hw.lt hle
      rw [existsRound_eq hm] at hround
      split at hround
      · cases hround
      · next habove =>
        split at hround
        · cases hround
        · next hbelow =>
          cases hround
          exact ⟨m, rfl, answers_found hl hm.cell ⟨hbelow, habove⟩⟩
  obtain ⟨res, hres, idx, rfl, hidx⟩ := hloop
  refine ⟨idx, ?_, hidx⟩
  rw [existsIndex, hres]
  rfl

/-! ### The search with `cmp` -/

section
variable {data : List α} {w : Int × Int} {m : Nat}

omit [IsStrictWeakOrder α r] in
theorem existsCmpRound_eq (h : Middle data w m x) : existsCmpRound r data v w =
    if r v x then .inl w else if r x v then .inl ((m : Int) + 1, w.2)
    else .inr (.ok (m : Int)) := by
  have hle : w.1 ≤ w.2 := h.low.trans h.high
  rw [existsCmpRound, if_pos hle]
  dsimp only
  rw [h.eq, at?_natCast, h.cell]

omit [IsStrictWeakOrder α r] in
theorem existsCmpRound_empty (h : w.2 < w.1) : existsCmpRound r data v w = .inr (.ok (-w.1 - 1)) :=
  if_neg (not_le.mpr h)

end

/-- An index that a search looks at which only ever goes on to the right. -/
def Probed (n i : Nat) : Prop := ∃ k, n - 1 - i = n / 2 ^ (k + 1)

/-- All elements are below the value, or the one that is equivalent to it is looked at. -/
def CmpEnds (r : α → α → Prop) (data : List α) (v : α) : Prop :=
  (∀ x ∈ data, r x v) ∨ ∃ i x, data[i]? = some x ∧ Equivalent r x v ∧ Probed data.length i

theorem not_cmpEnds (hl : data.Pairwise r) {k m : Nat}
    (hbelow : ∀ (i : Nat) x, data[i]? = some x → i < data.length - data.length / 2 ^ k → r x v)
    (hm : m + data.length / 2 ^ (k + 1) + 1 = data.length) (hx : data[m]? = some x)
    (habove : r v x) : ¬ CmpEnds r data v := by
  rintro (hall | ⟨i, y, hy, hequivalent, k', hk'⟩)
  · exact asymm_of r habove (hall x (mem_of_getElem? hx))
  · have hplace : place r data v ≤ m := by
      by_contra hlt
      exact asymm_of r habove ((lt_place_iff hl hx).mp (not_le.mp hlt))
    have hi := hequivalent.eq_place hl hy
    have hne : i ≠ m := by
      rintro rfl
      rw [hx] at hy
      cases hy
      exact hequivalent.2 habove
    -- so it was looked at in an earlier round, and passed over
    have hless : data.length / 2 ^ (k + 1) < data.length / 2 ^ (k' + 1) := by omega
    have hround : k' + 1 ≤ k := by
      by_contra hlater
      have hle : data.length / 2 ^ (k' + 1) ≤ data.length / 2 ^ (k + 1) :=
        Nat.div_le_div_left (Nat.pow_le_pow_right Nat.two_pos (by omega)) (Nat.two_pow_pos _)
      omega
    have hpassed : data.length / 2 ^ k ≤ data.length / 2 ^ (k' + 1) :=
      Nat.div_le_div_left (Nat.pow_le_pow_right Nat.two_pos hround) (Nat.two_pow_pos _)
    have hin := (List.getElem?_eq_some_iff.mp hy).1
    exact hequivalent.1 (hbelow i y hy (by omega))

/-- From a round on before which all elements are below the value, the search ends with the right
answer or not at all. -/
theorem existsCmp_from (hl : data.Pairwise r) (v) : ∀ q k : Nat,
    data.length / 2 ^ k = q →
    (∀ (i : Nat) x, data[i]? = some x → i < data.length - q → r x v) →
    (CmpEnds r data v ∧ ∃ idx, Answers r data v idx ∧
      Returns (existsCmpRound r data v) (((data.length - q : Nat) : Int), (data.length : Int) - 1)
        (.ok idx)) ∨
    (¬ CmpEnds r data v ∧ ∀ res, ¬ Returns (existsCmpRound r data v)
      (((data.length - q : Nat) : Int), (data.length : Int) - 1) res) := by
  intro q
  induction q using Nat.strong_induction_on with
  | _ q ih =>
    intro k hq hbelow
    have hle : q ≤ data.length := hq ▸ Nat.div_le_self _ _
    have hhalf : data.length / 2 ^ (k + 1) = q / 2 := by
      rw [Nat.pow_succ, ← Nat.div_div_eq_div_mul, hq]
    rcases Nat.eq_zero_or_pos q with rfl | hpos
    · left
      rw [Nat.sub_zero] at hbelow ⊢
      have hround : existsCmpRound r data v ((data.length : Int), (data.length : Int) - 1) =
          .inr (.ok (-(data.length : Int) - 1)) := existsCmpRound_empty (by dsimp only; omega)
      refine ⟨.inl fun x hx => ?_, _, ?_, (returns_inr hround).mpr rfl⟩
      · obtain ⟨i, hi⟩ := getElem?_of_mem hx
        exact hbelow i x hi (List.getElem?_eq_some_iff.mp hi).1
      · apply answers_missing hl le_rfl hbelow
        intro i x hi hin
        exact absurd (List.getElem?_eq_some_iff.mp hi).1 (not_lt.mpr hin)
    · have hmiddle : ∃ m x, Middle data (((data.length - q : Nat) : Int), (data.length : Int) - 1)
          m x :=
        exists_middle (by dsimp only; omega) (by dsimp only; omega) (by dsimp only; omega)
      obtain ⟨m, x, hm⟩ := hmiddle
      have hmid : m + q / 2 + 1 = data.length := by
        have heq := hm.eq
        rw [Int.tdiv_eq_ediv_of_nonneg (by dsimp only; omega)] at heq
        dsimp only at heq
        omega
      have hround := existsCmpRound_eq (r := r) (v := v) hm
      by_cases habove : r v x
      · right
        rw [if_pos habove] at hround
        refine ⟨?_, fun res => not_returns_of_same hround⟩
        apply not_cmpEnds hl (k := k) _ _ hm.cell habove
        · rw [hq]
          exact hbelow
        · rw [hhalf]
          exact hmid
      · rw [if_neg habove] at hround
        by_cases hless : r x v
        · rw [if_pos hless] at hround
          have hnext : (m : Int) + 1 = ((data.length - q / 2 : Nat) : Int) := by omega
          rw [hnext] at hround
          have hplace := (lt_place_iff hl hm.cell).mpr hless
          simp only [returns_inl hround]
          apply ih (q / 2) (by omega) (k + 1) hhalf
          intro i y hi hin
          exact (lt_place_iff hl hi).mp (by omega)
        · left
          rw [if_neg hless] at hround
          refine ⟨.inr ⟨m, x, hm.cell, ⟨hless, habove⟩, k, ?_⟩, m,
            answers_found hl hm.cell ⟨hless, habove⟩, (returns_inr hround).mpr rfl⟩
          rw [hhalf]
          omega

/-- `exists(v, cmp)` ends exactly if all elements are below the value or its equal is looked at
without a step to the left, and is right then. -/
theorem existsCmp_ends_iff (a : Array α) (hl : a.data.Pairwise r) (v : α) :
    ((∃ res, a.ExistsCmp r v res) ↔ CmpEnds r a.data v) ∧
    ∃ idx, a.existsIndex r v = .ok idx ∧ Answers r a.data v idx ∧
      ∀ res, a.ExistsCmp r v res → res = .ok idx := by
  obtain ⟨idx, hidx, hanswers⟩ := existsIndex_post a hl v
  have hfrom := existsCmp_from hl v a.data.length 0 (by rw [Nat.pow_zero, Nat.div_one])
    (fun i x _ hi => by omega)
  have hwindow : (((a.data.length - a.data.length : Nat) : Int), (a.data.length : Int) - 1) =
      a.window := by
    rw [Nat.sub_self]
    rfl
  rw [hwindow] at hfrom
  rcases hfrom with ⟨hends, idx', hanswers', hreturns⟩ | ⟨hends, hnever⟩
  · refine ⟨iff_of_true ⟨_, hreturns⟩ hends, idx, hidx, hanswers, fun res hres => ?_⟩
    rw [hres.unique hreturns, hanswers.unique hanswers']
  · refine ⟨iff_of_false ?_ hends, idx, hidx, hanswers, fun res hres => absurd hres (hnever res)⟩
    rintro ⟨res, hres⟩
    exact hnever res hres

theorem existsCmp_ends_iff_middle : ([10, 20, 30] : List Nat).Pairwise (· < ·) ∧
    ∃ res, (⟨[10, 20, 30]⟩ : Array Nat).ExistsCmp (· < ·) 20 res := by
  have hl : ([10, 20, 30] : List Nat).Pairwise (· < ·) := by decide
  refine ⟨hl, (existsCmp_ends_iff ⟨[10, 20, 30]⟩ hl 20).1.mpr (.inr ⟨1, 20, rfl, ?_, 0, rfl⟩)⟩
  decide

/-- Below the only element of an array the search with `<` for `cmp` goes on for ever. -/
theorem existsCmp_never_ends : (¬ ∃ res, (⟨[10]⟩ : Array Nat).ExistsCmp (· < ·) 5 res) ∧
    (⟨[10]⟩ : Array Nat).existsIndex (· < ·) 5 = .ok (-1) := by
  constructor
  · rintro ⟨res, hres⟩
    have hsame : existsCmpRound (· < ·) [10] 5 (0, 0) = .inl (0, 0) := by decide
    exact not_returns_of_same hsame hres
  · decide

end

/-! ## Insertion and removal -/

theorem insertAt_eq (a : Array α) (hn : n ≤ a.data.length) (v junk) :
    a.insertAt (-(n : Int) - 1) v junk = .ok ⟨a.data.take n ++ v :: a.data.drop n⟩ := by
  have hidx : -(-(n : Int) - 1) - 1 = n := by omega
  have hmove : memmove (a.data ++ [junk]) ((n : Int) + 1) n ((a.data.length : Int) - n) =
      .ok ((a.data ++ [junk]).take (n + 1) ++ a.data.drop n) := by
    have hcount : ((a.data.length : Int) - n).toNat = a.data.length - n := by omega
    have hstop : ((n : Int) + 1 + ((a.data.length : Int) - n)).toNat = a.data.length + 1 := by omega
    have hbounds : 0 ≤ (n : Int) + 1 ∧ 0 ≤ (n : Int) ∧ 0 ≤ (a.data.length : Int) - n ∧
        (n : Int) + 1 + ((a.data.length : Int) - n) ≤ (a.data ++ [junk]).length ∧
        (n : Int) + ((a.data.length : Int) - n) ≤ (a.data ++ [junk]).length := by
      rw [length_append, length_singleton]
      omega
    have hmoved : ((a.data ++ [junk]).drop n).take (a.data.length - n) = a.data.drop n := by
      rw [drop_append_of_le_length hn]
      exact take_left' (length_drop ..)
    have hrest : (a.data ++ [junk]).drop (a.data.length + 1) = [] := by
      rw [drop_eq_nil_iff, length_append, length_singleton]
    rw [memmove, if_pos hbounds, hcount, hstop, Int.toNat_natCast,
      show ((n : Int) + 1).toNat = n + 1 by omega, hmoved, hrest, append_nil]
  have hlength : ((a.data ++ [junk]).take (n + 1)).length = n + 1 := by
    rw [length_take, length_append, length_singleton]
    omega
  have hset : ((a.data ++ [junk]).take (n + 1)).set n v = a.data.take n ++ [v] := by
    rw [set_eq_take_append_cons_drop, if_pos (by omega), take_take,
      Nat.min_eq_left (Nat.le_succ n), take_append_of_le_length hn,
      drop_of_length_le (by omega)]
  rw [insertAt, hidx, hmove]
  change (store _ _ _ >>= _) = _
  rw [store, if_pos (by rw [length_append, hlength]; omega), Int.toNat_natCast,
    set_append_left _ _ (by omega), hset, append_assoc]
  rfl

theorem erase_eq (a : Array α) (hi : i < a.data.length) : a.erase i = .ok ⟨a.data.eraseIdx i⟩ := by
  have hbounds : 0 ≤ (i : Int) ∧ 0 ≤ (i : Int) + 1 ∧ 0 ≤ (a.data.length : Int) - 1 - i ∧
      (i : Int) + ((a.data.length : Int) - 1 - i) ≤ a.data.length ∧
      (i : Int) + 1 + ((a.data.length : Int) - 1 - i) ≤ a.data.length := by omega
  have hcount : ((a.data.length : Int) - 1 - i).toNat = a.data.length - 1 - i := by omega
  have hstop : ((i : Int) + ((a.data.length : Int) - 1 - i)).toNat = a.data.length - 1 := by omega
  have hsize : ((a.data.length : Int) - 1).toNat = a.data.length - 1 := by omega
  rw [erase, memmove, if_pos hbounds, hcount, hstop, hsize, Int.toNat_natCast,
    show ((i : Int) + 1).toNat = i + 1 by omega]
  change Except.ok _ = _
  rw [take_of_length_le (l := a.data.drop (i + 1)) (by rw [length_drop]; omega),
    eraseIdx_eq_take_drop_succ, take_append_of_le_length, take_of_length_le]
  · rw [length_append, length_take, length_drop]
    omega
  · rw [length_append, length_take, length_drop]
    omega

/-! ## Runs -/

inductive Action (α : Type)
  | insert (v junk : α)
  | erase (v : α)

section
variable [LinearOrder α]

def exec : Action α → Array α → Except ArrayError (Array α)
  | .insert v junk, a => do
    let (a', _) ← a.insert (· < ·) v junk
    .ok a'
  | .erase v, a => do
    let idx ← a.existsIndex (· < ·) v
    a.erase idx

def reference : Action α → Finset α → Finset α
  | .insert v _, s => Insert.insert v s
  | .erase v, s => s.erase v

def step (act : Action α) (x : Array α × Finset α) : Except ArrayError (Array α × Finset α) := do
  let a ← exec act x.1
  .ok (a, reference act x.2)

def start : Array α × Finset α := (⟨[]⟩, ∅)

def Present (x : Array α × Finset α) : Action α → Prop
  | .insert .. => True
  | .erase v => v ∈ x.2

instance (x : Array α × Finset α) : (act : Action α) → Decidable (Present x act)
  | .insert .. => inferInstanceAs (Decidable True)
  | .erase v => inferInstanceAs (Decidable (v ∈ x.2))

structure Agrees (x : Array α × Finset α) : Prop where
  sorted : x.1.data.Pairwise (· < ·)
  elements : x.1.data.toFinset = x.2

variable {x : Array α × Finset α}

theorem equivalent_iff {y v : α} : Equivalent (· < ·) y v ↔ y = v := by
  rw [Equivalent, not_lt, not_lt, and_comm]
  exact le_antisymm_iff.symm

theorem Agrees.existsIndex_post (h : Agrees x) (v) :
    ∃ idx, x.1.existsIndex (· < ·) v = .ok idx ∧ (0 ≤ idx ↔ v ∈ x.2) ∧
      (∀ i : Nat, x.1.data[i]? = some v → idx = i) ∧
      (v ∉ x.2 → idx = -(place (· < ·) x.1.data v : Int) - 1) := by
  obtain ⟨idx, hidx, hanswers⟩ := Array.existsIndex_post x.1 h.sorted v
  have hmem : v ∈ x.2 ↔ v ∈ x.1.data := by rw [← h.elements, mem_toFinset]
  have hmissing : v ∉ x.2 → idx = -(place (· < ·) x.1.data v : Int) - 1 := by
    intro hv
    apply hanswers.missing
    intro y hy hequivalent
    exact hv (hmem.mpr (equivalent_iff.mp hequivalent ▸ hy))
  have hfound : ∀ i : Nat, x.1.data[i]? = some v → idx = i :=
    fun i hi => hanswers.found i v hi (equivalent_iff.mpr rfl)
  refine ⟨idx, hidx, ?_, hfound, hmissing⟩
  constructor
  · intro hpos
    by_contra hv
    have hneg := hmissing hv
    omega
  · intro hv
    obtain ⟨i, hi⟩ := getElem?_of_mem (hmem.mp hv)
    rw [hfound i hi]
    exact Int.natCast_nonneg i

theorem Agrees.insert_post (h : Agrees x) (v junk) :
    Post Agrees Never (step (.insert v junk) x) := by
  obtain ⟨idx, hidx, hnonneg, hfound, hmissing⟩ := h.existsIndex_post v
  have hexec : ∃ a : Array α, exec (.insert v junk) x.1 = .ok a ∧
      Agrees (a, Insert.insert v x.2) := by
    by_cases hv : v ∈ x.2
    · -- the value is written over its equal
      have hin : v ∈ x.1.data := mem_toFinset.mp (h.elements ▸ hv)
      obtain ⟨i, hi⟩ := getElem?_of_mem hin
      obtain ⟨hlt, hget⟩ := List.getElem?_eq_some_iff.mp hi
      have hstore : store x.1.data idx v = .ok x.1.data := by
        rw [hfound i hi, store, if_pos ⟨Int.natCast_nonneg i, by omega⟩, Int.toNat_natCast, ← hget,
          set_getElem_self]
      refine ⟨x.1, ?_, h.sorted, ?_⟩
      · rw [exec, insert, hidx]
        change (if 0 ≤ idx then _ else _) >>= _ = _
        rw [if_pos (hnonneg.mpr hv), hstore]
        rfl
      · rw [Finset.insert_eq_of_mem hv]
        exact h.elements
    · have hneg : ¬ 0 ≤ idx := fun hpos => hv (hnonneg.mp hpos)
      have hnone : ∀ y ∈ x.1.data, ¬ Equivalent (· < ·) y v := by
        intro y hy hequivalent
        exact hv (h.elements ▸ mem_toFinset.mpr (equivalent_iff.mp hequivalent ▸ hy))
      refine ⟨⟨x.1.data.take (place (· < ·) x.1.data v) ++
        v :: x.1.data.drop (place (· < ·) x.1.data v)⟩, ?_, pairwise_insert h.sorted hnone, ?_⟩
      · rw [exec, insert, hidx]
        change (if 0 ≤ idx then _ else _) >>= _ = _
        rw [if_neg hneg, hmissing hv, insertAt_eq x.1 (place_le_length _ _)]
        rfl
      · rw [toFinset_append, toFinset_cons, Finset.union_insert, ← toFinset_append,
          take_append_drop, h.elements]
  obtain ⟨a, ha, hagrees⟩ := hexec
  rw [step, ha]
  exact hagrees

theorem Agrees.erase_post (h : Agrees x) {v : α} (hv : v ∈ x.2) :
    Post Agrees Never (step (.erase v) x) := by
  obtain ⟨idx, hidx, -, hfound, -⟩ := h.existsIndex_post v
  have hin : v ∈ x.1.data := mem_toFinset.mp (h.elements ▸ hv)
  obtain ⟨i, hi⟩ := getElem?_of_mem hin
  obtain ⟨hlt, hget⟩ := List.getElem?_eq_some_iff.mp hi
  have hexec : exec (.erase v) x.1 = .ok ⟨x.1.data.eraseIdx i⟩ := by
    rw [exec, hidx, hfound i hi]
    exact erase_eq x.1 hlt
  have hnodup : x.1.data.Nodup := h.sorted.imp fun hless => hless.ne
  rw [step, hexec]
  refine ⟨h.sorted.sublist (eraseIdx_sublist _ _), ?_⟩
  ext y
  rw [mem_toFinset, reference, Finset.mem_erase, ← h.elements, mem_toFinset, ← hget,
    ← hnodup.erase_getElem i hlt, hnodup.mem_erase_iff]

theorem step_post (x : Array α × Finset α) (act : Action α) (h : Agrees x)
    (hpresent : Present x act) : Post Agrees Never (step act x) := by
  cases act with
  | insert v junk => exact h.insert_post v junk
  | erase v => exact h.erase_post hpresent

/-- In every run that erases only what is there, the array stays the sorted set and `exists` is
right. -/
theorem runs_stay_sorted (acts : List (Action α)) (hpresent : Along step Present acts start) :
    Post (fun x => x.1.data.Pairwise (· < ·) ∧ x.1.data.toFinset = x.2 ∧
        ∀ v, ∃ idx : Int, x.1.existsIndex (· < ·) v = .ok idx ∧ (0 ≤ idx ↔ v ∈ x.2) ∧
          (∀ i : Nat, x.1.data[i]? = some v → idx = i) ∧
          (v ∉ x.2 → idx = -(place (· < ·) x.1.data v : Int) - 1))
      (fun _ => False) (run step acts start) := by
  have hstart : Agrees (start : Array α × Finset α) := ⟨List.Pairwise.nil, rfl⟩
  apply (post_run step_post acts start hpresent hstart).imp
  exact fun x hx => ⟨hx.sorted, hx.elements, hx.existsIndex_post⟩

def sampleRun : List (Action Nat) :=
  [.insert 20 0, .insert 10 7, .insert 30 7, .insert 20 1, .erase 10, .erase 30]

theorem sampleRun_present : Along step Present sampleRun start := by decide +kernel

theorem runs_stay_sorted_sample : Along step Present sampleRun start ∧
    Post (fun x => x.1.data.toFinset = x.2) (fun _ => False) (run step sampleRun start) := by
  have hsorted := runs_stay_sorted sampleRun
  refine ⟨sampleRun_present, Post.mono (hsorted sampleRun_present) ?_ fun _ => id⟩
  exact fun x hx => hx.2.1

/-- What `exists` gives for a value that is missing is no index to erase. -/
theorem erase_of_missing :
    run step [.insert 20 0, .erase 10] (start : Array Nat × Finset Nat) = .error .outsideArray := by
  decide +kernel

end

end Array

end Helens.Ds
