import Mathlib.Data.List.Induction
import Mathlib.Data.List.Perm.Basic
import Mathlib.Data.List.Sort

/-! Vectors kept in the order of a key: binary search, insertion from the end, and any
sorting algorithm. -/

namespace Lib.SortedVector

open List

variable {α κ : Type} [LinearOrder κ] (key : α → κ)

/-! ## Order -/

def Sorted (l : List α) : Prop := l.Pairwise fun a b => key a ≤ key b

def Strict (l : List α) : Prop := l.Pairwise fun a b => key a < key b

variable {key}

variable {l : List α} {k : κ} {i : Nat} {x : α}

theorem Strict.sorted (h : Strict key l) : Sorted key l :=
  h.imp fun hab => hab.le

theorem Strict.nodup (h : Strict key l) : (l.map key).Nodup :=
  pairwise_map.mpr (h.imp fun hab => hab.ne)

theorem Sorted.strict (h : Sorted key l) (hnodup : (l.map key).Nodup) : Strict key l := by
  have hne := pairwise_map.mp hnodup
  exact (h.and hne).imp fun hab => lt_of_le_of_ne hab.1 hab.2

/-- A sorting algorithm: what it gives holds the same elements, in order. Nothing is said
of elements with one key. -/
structure Sorter (α : Type) {κ : Type} [LinearOrder κ] (key : α → κ) where
  sort : List α → List α
  perm : ∀ l, (sort l).Perm l
  sorted : ∀ l, Sorted key (sort l)

theorem Sorter.strict (s : Sorter α key) (h : (l.map key).Nodup) : Strict key (s.sort l) := by
  apply (s.sorted l).strict
  exact (((s.perm l).map key).nodup_iff).mpr h

def Sorter.insertion (key : α → κ) : Sorter α key where
  sort := List.insertionSort fun a b => key a ≤ key b
  perm := perm_insertionSort _
  sorted l := by
    have : Std.Total fun a b : α => key a ≤ key b := ⟨fun a b => le_total _ _⟩
    have : IsTrans α fun a b => key a ≤ key b := ⟨fun a b c => le_trans⟩
    exact pairwise_insertionSort _ l

/-! ## Binary search -/

/-- The loop of `std::lower_bound` on the `len` elements from `first` on. -/
def lowerBoundLoop (key : α → κ) (l : List α) (k : κ) : Nat → Nat → Nat → Nat
  | 0, first, _ => first
  | fuel + 1, first, len =>
    if len = 0 then first
    else
      match l[first + len / 2]? with
      | none => first
      | some x =>
        if key x < k then lowerBoundLoop key l k fuel (first + len / 2 + 1) (len - len / 2 - 1)
        else lowerBoundLoop key l k fuel first (len / 2)

/-- `std::lower_bound`: every round leaves fewer elements. -/
def lowerBound (key : α → κ) (l : List α) (k : κ) : Nat :=
  lowerBoundLoop key l k l.length 0 l.length

/-- The loop of `std::upper_bound` on the `len` elements from `first` on. -/
def upperBoundLoop (key : α → κ) (l : List α) (k : κ) : Nat → Nat → Nat → Nat
  | 0, first, _ => first
  | fuel + 1, first, len =>
    if len = 0 then first
    else
      match l[first + len / 2]? with
      | none => first
      | some x =>
        if k < key x then upperBoundLoop key l k fuel first (len / 2)
        else upperBoundLoop key l k fuel (first + len / 2 + 1) (len - len / 2 - 1)

def upperBound (key : α → κ) (l : List α) (k : κ) : Nat :=
  upperBoundLoop key l k l.length 0 l.length

def search (key : α → κ) (l : List α) (k : κ) : Option Nat :=
  match l[lowerBound key l k]? with
  | none => none
  | some x => if k < key x then none else some (lowerBound key l k)

/-- What is before `first` is below, and what is behind the interval is not. -/
structure Bounds (key : α → κ) (l : List α) (k : κ) (first stop : Nat) : Prop where
  before : ∀ i x, l[i]? = some x → i < first → key x < k
  behind : ∀ i x, l[i]? = some x → stop ≤ i → k ≤ key x

theorem Sorted.key_le (h : Sorted key l) {i j : Nat} {x y : α} (hij : i ≤ j) (hx : l[i]? = some x)
    (hy : l[j]? = some y) : key x ≤ key y := by
  rcases hij.lt_or_eq with hlt | rfl
  · obtain ⟨hi, rfl⟩ := List.getElem?_eq_some_iff.mp hx
    obtain ⟨hj, rfl⟩ := List.getElem?_eq_some_iff.mp hy
    exact pairwise_iff_getElem.mp h i j hi hj hlt
  · rw [hx] at hy
    rw [Option.some.inj hy]

/-- What every round of the search keeps of its range holds where it ends. -/
theorem lowerBoundLoop_rule {I : Nat → Nat → Prop}
    (hbelow : ∀ first mid last x, mid < last → l[mid]? = some x → key x < k → I first last →
      I (mid + 1) last)
    (habove : ∀ first mid last x, l[mid]? = some x → ¬ key x < k → I first last → I first mid) :
    ∀ fuel first len, len ≤ fuel → first + len ≤ l.length → I first (first + len) →
      I (lowerBoundLoop key l k fuel first len) (lowerBoundLoop key l k fuel first len) := by
  intro fuel
  induction fuel with
  | zero =>
    intro first len hlen _ h
    obtain rfl : len = 0 := by omega
    exact h
  | succ fuel ih =>
    intro first len hlen hle h
    unfold lowerBoundLoop
    split
    · next hzero =>
      subst hzero
      exact h
    · next hzero =>
      have hmid : first + len / 2 < l.length := by omega
      have hx := getElem?_eq_getElem hmid
      rw [hx]
      dsimp only
      split
      · next hlt =>
        have hstop : first + len / 2 + 1 + (len - len / 2 - 1) = first + len := by omega
        apply ih _ _ (by omega) (by omega)
        rw [hstop]
        exact hbelow first _ _ _ (by omega) hx hlt h
      · next hnot => exact ih _ _ (by omega) (by omega) (habove _ _ _ _ hx hnot h)

theorem lowerBoundLoop_bounds (hl : Sorted key l) :
    ∀ fuel first len, len ≤ fuel → first + len ≤ l.length → Bounds key l k first (first + len) →
      Bounds key l k (lowerBoundLoop key l k fuel first len)
        (lowerBoundLoop key l k fuel first len) := by
  apply lowerBoundLoop_rule
  · intro first mid last y _ hy hlt h
    refine ⟨fun i x hx hi => ?_, h.behind⟩
    exact lt_of_le_of_lt (hl.key_le (by omega) hx hy) hlt
  · intro first mid last y hy hnot h
    exact ⟨h.before, fun i x hx hi => le_trans (not_lt.mp hnot) (hl.key_le hi hy hx)⟩

theorem lowerBound_bounds (k : κ) (hl : Sorted key l) :
    Bounds key l k (lowerBound key l k) (lowerBound key l k) := by
  apply lowerBoundLoop_bounds hl _ _ _ (le_refl _) (by omega)
  constructor
  · intro i x _ hi
    omega
  · intro i x hx hi
    have hlt := (List.getElem?_eq_some_iff.mp hx).1
    omega

/-- Among numbers, above `k` is the same as not below `k + 1`. -/
theorem upperBoundLoop_eq {key : α → Nat} (l k fuel first len) :
    upperBoundLoop key l k fuel first len = lowerBoundLoop key l (k + 1) fuel first len := by
  induction fuel generalizing first len with
  | zero => rfl
  | succ fuel ih =>
    unfold upperBoundLoop lowerBoundLoop
    split
    · rfl
    · cases l[first + len / 2]? with
      | none => rfl
      | some x =>
        dsimp only
        by_cases hx : k < key x
        · rw [if_pos hx, if_neg (by omega), ih]
        · rw [if_neg hx, if_pos (by omega), ih]

theorem upperBound_bounds {key : α → Nat} (k) (hl : Sorted key l) :
    Bounds key l (k + 1) (upperBound key l k) (upperBound key l k) := by
  rw [upperBound, upperBoundLoop_eq]
  exact lowerBound_bounds (k + 1) hl

theorem lowerBoundLoop_not_below : ∀ fuel first len, len ≤ fuel → first + len ≤ l.length →
      (∀ x, l[first + len]? = some x → ¬ key x < k) →
      ∀ x, l[lowerBoundLoop key l k fuel first len]? = some x → ¬ key x < k := by
  apply lowerBoundLoop_rule (I := fun _ last => ∀ x, l[last]? = some x → ¬ key x < k)
  · exact fun _ _ _ _ _ _ _ h => h
  · intro first mid last y hy hnot _ x hx
    rw [hy] at hx
    rwa [← Option.some.inj hx]

theorem key_of_search (h : search key l k = some i) : ∃ x, l[i]? = some x ∧ key x = k := by
  unfold search at h
  split at h
  · cases h
  · next x hx =>
    split at h
    · cases h
    · next hge =>
      obtain rfl := Option.some.inj h
      have hnot : ¬ key x < k := by
        apply lowerBoundLoop_not_below _ _ _ (le_refl _) (by omega) _ x hx
        intro y hy
        have hlt := (List.getElem?_eq_some_iff.mp hy).1
        omega
      exact ⟨x, hx, le_antisymm (not_lt.mp hge) (not_lt.mp hnot)⟩

theorem search_eq_some_iff (hl : Strict key l) :
    search key l k = some i ↔ ∃ x, l[i]? = some x ∧ key x = k := by
  have hbounds := lowerBound_bounds k hl.sorted
  constructor
  · exact key_of_search
  · rintro ⟨x, hx, rfl⟩
    have hplace : lowerBound key l (key x) = i := by
      rcases lt_trichotomy (lowerBound key l (key x)) i with hlt | heq | hgt
      · -- an element before `x` would not be below it
        have hi := (List.getElem?_eq_some_iff.mp hx).1
        have hcell := getElem?_eq_getElem (lt_trans hlt hi)
        have hle := hbounds.behind _ _ hcell (le_refl _)
        obtain ⟨hi', rfl⟩ := List.getElem?_eq_some_iff.mp hx
        have hless := pairwise_iff_getElem.mp hl _ _ (lt_trans hlt hi) hi' hlt
        exact absurd hle (not_le.mpr hless)
      · exact heq
      · exact absurd (hbounds.before i x hx hgt) (lt_irrefl _)
    simp [search, hplace, hx]

theorem Sorted.search_eq_none_iff (hl : Sorted key l) : search key l k = none ↔ k ∉ l.map key := by
  have hbounds := lowerBound_bounds k hl
  constructor
  · intro h hmem
    obtain ⟨x, hx, rfl⟩ := mem_map.mp hmem
    obtain ⟨i, hi⟩ := getElem?_of_mem hx
    have hplace : lowerBound key l (key x) ≤ i := by
      by_contra hlt
      exact lt_irrefl _ (hbounds.before i x hi (not_le.mp hlt))
    have hcell := getElem?_eq_getElem
      (lt_of_le_of_lt hplace (List.getElem?_eq_some_iff.mp hi).1)
    rw [search, hcell] at h
    dsimp only at h
    rw [if_neg (not_lt.mpr (hl.key_le hplace hcell hi))] at h
    cases h
  · intro h
    cases hs : search key l k with
    | none => rfl
    | some i =>
      obtain ⟨x, hx, rfl⟩ := key_of_search hs
      exact absurd (mem_map_of_mem (mem_of_getElem? hx)) h

theorem search_eq_none_iff (hl : Strict key l) :
    search key l k = none ↔ k ∉ l.map key := hl.sorted.search_eq_none_iff

theorem lowerBoundLoop_eq_first (h : ∀ x ∈ l, ¬ key x < k) :
    ∀ fuel first len, lowerBoundLoop key l k fuel first len = first := by
  intro fuel
  induction fuel with
  | zero =>
    intro first len
    rfl
  | succ fuel ih =>
    intro first len
    unfold lowerBoundLoop
    split
    · rfl
    · split
      · rfl
      · next x hx =>
        rw [if_neg (h x (mem_of_getElem? hx))]
        exact ih first (len / 2)

/-! ## Insertion from the end -/

/-- The element at place `i` moves to the front as long as it is below its neighbour. -/
def sortLastLoop (key : α → κ) (l : List α) : Nat → List α
  | 0 => l
  | i + 1 =>
    match l[i]?, l[i + 1]? with
    | some a, some b =>
      if key b < key a then sortLastLoop key ((l.set (i + 1) a).set i b) i else l
    | _, _ => l

theorem length_sortLastLoop (l : List α) (i) : (sortLastLoop key l i).length = l.length := by
  induction i generalizing l with
  | zero => rfl
  | succ i ih =>
    unfold sortLastLoop
    split
    · split
      · rw [ih, length_set, length_set]
      · rfl
    · rfl

/-- The new element comes to stand behind all that are not above it. -/
def placed (key : α → κ) (l : List α) (x : α) : List α :=
  (l.filter fun a => !decide (key x < key a)) ++ x :: l.filter fun a => decide (key x < key a)

theorem placed_perm (l x) : (placed key l x).Perm (l ++ [x]) := by
  have hsplit := filter_append_perm (fun a => !decide (key x < key a)) l
  simp only [Bool.not_not] at hsplit
  refine perm_middle.trans ?_
  exact (List.Perm.cons x hsplit).trans (perm_append_singleton x l).symm

theorem placed_sorted (h : Sorted key l) (x) : Sorted key (placed key l x) := by
  apply pairwise_append.mpr
  refine ⟨h.sublist filter_sublist, ?_, ?_⟩
  · apply pairwise_cons.mpr
    refine ⟨?_, h.sublist filter_sublist⟩
    intro a ha
    have hlt := of_mem_filter ha
    exact (of_decide_eq_true hlt).le
  · intro a ha b hb
    have hle : key a ≤ key x := by
      have hnot := of_mem_filter ha
      simpa using hnot
    rcases mem_cons.mp hb with rfl | hb
    · exact hle
    · have hlt := of_mem_filter hb
      exact hle.trans (of_decide_eq_true hlt).le

theorem placed_strict (h : Strict key l) (hx : key x ∉ l.map key) :
    Strict key (placed key l x) := by
  apply (placed_sorted h.sorted x).strict
  have hperm : (placed key l x).Perm (x :: l) :=
    (placed_perm l x).trans (perm_append_singleton x l)
  rw [(hperm.map key).nodup_iff, map_cons, nodup_cons]
  exact ⟨hx, h.nodup⟩

theorem sortLastLoop_eq (h : Sorted key l) (x post) :
    sortLastLoop key (l ++ x :: post) l.length = placed key l x ++ post := by
  induction l using reverseRecOn generalizing post with
  | nil => rfl
  | append_singleton l a ih =>
    obtain ⟨hl, -, hbelow⟩ := pairwise_append.mp h
    have hget : (l ++ [a] ++ x :: post)[l.length]? = some a := by simp
    have hget' : (l ++ [a] ++ x :: post)[l.length + 1]? = some x := by simp
    rw [length_append, length_singleton, sortLastLoop, hget, hget']
    dsimp only
    split
    · next hlt =>
      have hswap : ((l ++ [a] ++ x :: post).set (l.length + 1) a).set l.length x =
          l ++ x :: (a :: post) := by
        simp
      rw [hswap, ih hl]
      simp [placed, filter_append, hlt]
    · next hlt =>
      have hall : ∀ b ∈ l ++ [a], ¬ key x < key b := by
        intro b hb
        rcases mem_append.mp hb with hb | hb
        · have hba := hbelow b hb a (mem_singleton_self a)
          exact not_lt.mpr (hba.trans (not_lt.mp hlt))
        · rw [mem_singleton.mp hb]
          exact hlt
      have hnone : (l ++ [a]).filter (fun b => decide (key x < key b)) = [] :=
        filter_eq_nil_iff.mpr fun b hb => by simpa using hall b hb
      have hkeep : (l ++ [a]).filter (fun b => !decide (key x < key b)) = l ++ [a] :=
        filter_eq_self.mpr fun b hb => by simpa using hall b hb
      rw [placed, hnone, hkeep]
      simp

theorem placed_stable {α κ : Type} [LinearOrder κ] (key : α → κ) (l x k) :
    (placed key l x).filter (key · = k) = (l ++ [x]).filter (key · = k) := by
  simp only [placed, filter_append, filter_cons, filter_filter, filter_nil]
  by_cases hk : key x < k
  · have hbefore : ∀ a ∈ l, ¬ (decide (key a = k) && !decide (key x < key a)) = true := by
      simp +contextual [hk]
    have hbehind : ∀ a ∈ l, (decide (key a = k) && decide (key x < key a)) =
        decide (key a = k) := by
      simp +contextual [hk]
    simp [filter_eq_nil_iff.mpr hbefore, filter_congr hbehind, hk.ne]
  · have hbefore : ∀ a ∈ l, (decide (key a = k) && !decide (key x < key a)) =
        decide (key a = k) := by
      simp +contextual [not_lt.mp hk]
    have hbehind : ∀ a ∈ l, ¬ (decide (key a = k) && decide (key x < key a)) = true := by
      simp +contextual [not_lt.mp hk]
    simp [filter_congr hbefore, filter_eq_nil_iff.mpr hbehind]

/-! ## Removal by way of the end -/

def swapAt (l : List α) (i j : Nat) : List α :=
  match l[i]?, l[j]? with
  | some x, some y => (l.set i y).set j x
  | _, _ => l

theorem set_eq_self (h : l[i]? = some x) : l.set i x = l := by
  obtain ⟨hi, rfl⟩ := List.getElem?_eq_some_iff.mp h
  exact set_getElem_self hi

theorem cons_set_perm (h : l[i]? = some x) (y) : (x :: l.set i y).Perm (y :: l) := by
  obtain ⟨hi, rfl⟩ := List.getElem?_eq_some_iff.mp h
  have hset := set_perm_cons_eraseIdx hi y
  have hget := getElem_cons_eraseIdx_perm hi
  exact ((hset.cons _).trans (List.Perm.swap _ _ _)).trans (hget.cons y)

theorem swapAt_dropLast_perm (h : l[i]? = some x) :
    (x :: (swapAt l i (l.length - 1)).dropLast).Perm l := by
  induction l using reverseRecOn with
  | nil => simp at h
  | append_singleton init y _ =>
    have hlast : (init ++ [y])[(init ++ [y]).length - 1]? = some y := by simp
    have hlen : (init ++ [y]).length - 1 = init.length := by simp
    rw [swapAt, h, hlast, hlen]
    dsimp only
    rcases Nat.lt_or_ge i init.length with hi | hi
    · rw [getElem?_append_left hi] at h
      have hset : ((init ++ [y]).set i y).set init.length x = init.set i y ++ [x] := by
        simp [hi]
      rw [hset, dropLast_concat]
      exact (cons_set_perm h y).trans (perm_append_singleton y init).symm
    · have hi' : i = init.length := by
        have hlt := (List.getElem?_eq_some_iff.mp h).1
        rw [length_append, length_singleton] at hlt
        omega
      subst hi'
      have hxy : y = x := by simpa using h
      subst hxy
      have hset : ((init ++ [y]).set init.length y).set init.length y = init ++ [y] := by simp
      rw [hset, dropLast_concat]
      exact (perm_append_singleton y init).symm

/-! ## Buckets -/

theorem flatten_set_perm {bs : List (List α)} {p : Nat} {b : List α} (h : bs[p]? = some b) :
    ∃ rest, bs.flatten.Perm (b ++ rest) ∧ ∀ b', ((bs.set p b').flatten).Perm (b' ++ rest) := by
  induction bs generalizing p with
  | nil => simp at h
  | cons c bs ih =>
    cases p with
    | zero =>
      obtain rfl : c = b := Option.some.inj h
      exact ⟨bs.flatten, List.Perm.refl _, fun b' => List.Perm.refl _⟩
    | succ p =>
      obtain ⟨rest, hperm, hset⟩ := ih h
      refine ⟨c ++ rest, ?_, fun b' => ?_⟩
      · rw [flatten_cons]
        exact (hperm.append_left c).trans (perm_append_comm_assoc _ _ _)
      · rw [set_cons_succ, flatten_cons]
        exact ((hset b').append_left c).trans (perm_append_comm_assoc _ _ _)

theorem flatten_map_perm {f : List α → List α} {bs : List (List α)}
    (h : ∀ b ∈ bs, (f b).Perm b) : (bs.map f).flatten.Perm bs.flatten := by
  induction bs with
  | nil => exact List.Perm.refl _
  | cons b bs ih =>
    obtain ⟨hb, hbs⟩ := forall_mem_cons.mp h
    rw [map_cons, flatten_cons, flatten_cons]
    exact hb.append (ih hbs)

end Lib.SortedVector
