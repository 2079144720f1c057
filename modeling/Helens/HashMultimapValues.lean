import Helens.HashMultimapSets

/-! What `insert(k, v, size)` and `del(k, v)` of `HashMultimap` leave, against the values
inserted one by one and the values without the deleted one. -/

namespace Helens.Ds.HashMultimap

open Lib.Runs Lib.SortedVector Lib.FiniteMap List

variable {K V : Type} [LinearOrder K] [LinearOrder V] (hash : K → Nat)
  (sorter : Sorter (K × Values V) Prod.fst) (vsorter : Sorter V id)

/-! ## An array of values, and its values one by one -/

def insertEach (h : HashMultimap K V) (k : K) (vs : List V) : Except HashError (HashMultimap K V) :=
  vs.foldlM (fun h v => insert hash sorter h k v) h

/-- The keys have the same values in the same order, and the counters are the same. -/
structure SameContents (h₁ h₂ : HashMultimap K V) : Prop where
  values : ∀ k, valueOf h₁.entries k = valueOf h₂.entries k
  total : h₁.table.total = h₂.table.total
  elements : h₁.elements = h₂.elements

def insertedEach (vs : List V) (before : Option (List V)) : Option (List V) :=
  vs.foldl (fun o v => some (inserted v o)) before

variable {hash} {sorter} {vsorter} {h : HashMultimap K V} {k : K} {v : V} {vs : List V}

theorem addFetch_addFetch (n a b) : addFetch (addFetch n a) b = addFetch n (a + b) := by
  simp only [addFetch, Nat.mod_add_mod, Nat.add_assoc]

omit [LinearOrder V] in
theorem total_eq_of_values {h₁ h₂ : HashMultimap K V} (hs₁ : h₁.Sound hash) (hs₂ : h₂.Sound hash)
    (hvalues : ∀ k, valueOf h₁.entries k = valueOf h₂.entries k) :
    h₁.table.total = h₂.table.total := by
  have hperm : (h₁.entries.map Prod.fst).Perm (h₂.entries.map Prod.fst) := by
    apply (perm_ext_iff_of_nodup hs₁.table.nodup hs₂.table.nodup).mpr
    intro k
    have hnone : valueOf h₁.entries k = none ↔ valueOf h₂.entries k = none := by rw [hvalues k]
    exact not_iff_not.mp (valueOf_eq_none_iff.symm.trans (hnone.trans valueOf_eq_none_iff))
  have hlength := hperm.length_eq
  rw [length_map, length_map] at hlength
  rw [← hs₁.table.length_contents, ← hs₂.table.length_contents]
  exact hlength

theorem length_inserted_le (v) (before : Option (List V)) :
    (inserted v before).length ≤ before.elim 0 length + 1 := by
  cases before with
  | none => exact Nat.le_refl _
  | some old =>
    rw [inserted, Option.elim_some]
    split
    · exact Nat.le_succ _
    · rw [length_sortLast_concat]

theorem length_insertedEach_le (vs) (before : Option (List V)) :
    before.elim 0 length ≤ (insertedEach vs before).elim 0 length := by
  induction vs generalizing before with
  | nil => exact Nat.le_refl _
  | cons v vs ih => exact (inserted_length_le v before).trans (ih (some (inserted v before)))

/-- The values are inserted one after the other; the first makes the key, and so only it needs
room among the keys. -/
theorem insertEach_post (vs : List V) : ∀ h : HashMultimap K V, h.Sound hash →
    (k ∉ h.entries.map Prod.fst → h.table.total + 1 < 2 ^ 31) →
    (valueOf h.entries k).elim 0 length + vs.length < 2 ^ 31 →
    Post (fun h' => h'.Sound hash ∧ valueOf h'.entries k = insertedEach vs (valueOf h.entries k) ∧
        (∀ k' ≠ k, valueOf h'.entries k' = valueOf h.entries k') ∧
        h'.elements = addFetch h.elements
          ((insertedEach vs (valueOf h.entries k)).elim 0 length -
            (valueOf h.entries k).elim 0 length))
      Never (insertEach hash sorter h k vs) := by
  induction vs with
  | nil =>
    intro h hs _ _
    refine ⟨hs, rfl, fun _ _ => rfl, ?_⟩
    rw [insertedEach, foldl_nil, Nat.sub_self, addFetch, Nat.add_zero, Nat.mod_eq_of_lt hs.elements]
  | cons v vs ih =>
    intro h hs htotal hroom
    rw [length_cons] at hroom
    rw [insertEach, foldlM_cons]
    have hlength : ∀ old, (k, old) ∈ h.entries → (search id old v).isSome = false →
        old.length + 1 < 2 ^ 31 := by
      intro old hold _
      have hvalue : valueOf h.entries k = some old :=
        (valueOf_eq_some_iff hs.table.nodup).mpr hold
      rw [hvalue, Option.elim_some] at hroom
      omega
    apply (insert_post hs htotal hlength).bind
    rintro h' ⟨hs', before, hupdate, helements⟩
    have hbefore := hupdate.valueOf_eq hs.table.nodup
    have hafter := hupdate.valueOf_after hs'.table.nodup hs.table.nodup
    have hle := inserted_length_le v before
    have hle' := length_inserted_le v before
    have hmore := length_insertedEach_le vs (some (inserted v before))
    rw [hbefore] at hroom ⊢
    have hkey : k ∉ h'.entries.map Prod.fst → h'.table.total + 1 < 2 ^ 31 := by
      intro hk
      rw [← valueOf_eq_none_iff, hafter] at hk
      cases hk
    apply (ih h' hs' hkey (by rw [hafter, Option.elim_some]; omega)).imp
    rintro h'' ⟨hs'', hvalue, hothers, helements'⟩
    rw [hafter] at hvalue helements'
    refine ⟨hs'', hvalue, fun k' hne => ?_, ?_⟩
    · exact (hothers k' hne).trans
        (hupdate.valueOf_of_ne hs'.table.nodup hs.table.nodup hne)
    · rw [helements', helements, addFetch_addFetch]
      rw [Option.elim_some] at hmore ⊢
      have hcons : insertedEach (v :: vs) before =
          insertedEach vs (some (inserted v before)) := rfl
      rw [hcons]
      congr 1
      omega

/-! ### The arrays that the two ways give -/

variable {old : List V}

theorem search_isNone_iff (hold : Sorted id old) : (search id old v).isNone = true ↔ v ∉ old := by
  rw [Option.isNone_iff_eq_none, hold.search_eq_none_iff, map_id]

theorem count_newValues (hold : Sorted id old) (vs w) :
    (newValues old vs).count w = if w ∈ vs ∧ w ∉ old then 1 else 0 := by
  rw [newValues, (perm_insertionSort _ _).count_eq, count_dedup]
  simp only [mem_filter, search_isNone_iff hold]

theorem inserted_of_sorted (hold : Sorted id old) (hroom : old.length + 1 < 2 ^ 31)
    (v) : Sorted id (inserted v (some old)) ∧
      (inserted v (some old)).Perm (old ++ newValues old [v]) := by
  have hnews := count_newValues hold [v]
  rw [inserted]
  by_cases hin : v ∈ old
  · have hsome : (search id old v).isSome = true := by
      rw [← Option.not_isNone, Bool.not_eq_true', ← Bool.not_eq_true, search_isNone_iff hold]
      exact fun hout => hout hin
    rw [if_pos hsome]
    refine ⟨hold, perm_iff_count.mpr fun w => ?_⟩
    rw [count_append, hnews, if_neg, Nat.add_zero]
    rintro ⟨hw, hout⟩
    rw [mem_singleton.mp hw] at hout
    exact hout hin
  · have hnone : ¬ (search id old v).isSome = true := by
      rw [Bool.not_eq_true, ← Option.not_isNone, Bool.not_eq_false', search_isNone_iff hold]
      exact hin
    rw [if_neg hnone, sortLast_eq hold v hroom]
    refine ⟨placed_sorted hold v, perm_iff_count.mpr fun w => ?_⟩
    rw [(placed_perm old v).count_eq, count_append, count_append, hnews]
    by_cases hw : w = v
    · subst hw
      rw [count_singleton_self, if_pos ⟨mem_singleton_self w, hin⟩]
    · rw [count_singleton, if_neg (by simpa using Ne.symm hw), if_neg]
      exact fun h => hw (mem_singleton.mp h.1)

theorem insertedEach_of_sorted (vs : List V) : ∀ old : List V, Sorted id old →
    old.length + vs.length < 2 ^ 31 → ∃ l, insertedEach vs (some old) = some l ∧ Sorted id l ∧
      l.Perm (old ++ newValues old vs) := by
  induction vs with
  | nil =>
    intro old hold _
    refine ⟨old, rfl, hold, ?_⟩
    rw [show newValues old [] = [] from rfl, append_nil]
  | cons v vs ih =>
    intro old hold hroom
    rw [length_cons] at hroom
    obtain ⟨hsorted, hperm⟩ := inserted_of_sorted hold (by omega) v
    have hle := length_inserted_le v (some old)
    rw [Option.elim_some] at hle
    obtain ⟨l, hl, hlsorted, hlperm⟩ := ih (inserted v (some old)) hsorted (by omega)
    refine ⟨l, hl, hlsorted, perm_iff_count.mpr fun w => ?_⟩
    have hmem : w ∈ inserted v (some old) ↔ w ∈ old ∨ w = v := by
      rw [hperm.mem_iff, mem_append, ← count_pos_iff (l := newValues old [v]), count_newValues hold]
      simp only [mem_singleton]
      grind
    have hcount := hperm.count_eq w
    rw [count_append, count_newValues hold] at hcount
    rw [hlperm.count_eq, count_append, count_append, count_newValues hsorted,
      count_newValues hold, hcount]
    simp only [hmem, mem_cons, not_mem_nil, or_false]
    grind

theorem eq_of_sorted_of_perm {l₁ l₂ : List V} (h₁ : Sorted id l₁) (h₂ : Sorted id l₂)
    (hperm : l₁.Perm l₂) : l₁ = l₂ :=
  hperm.eq_of_pairwise (fun _ _ _ _ => le_antisymm) h₁ h₂

variable (vsorter) in
theorem insertedEach_some (hold : Sorted id old) (hroom : old.length + vs.length < 2 ^ 31) :
    insertedEach vs (some old) = some (insertedArray vsorter vs (some old)) := by
  obtain ⟨l, hl, hsorted, hperm⟩ := insertedEach_of_sorted vs old hold hroom
  rw [hl, insertedArray]
  exact congrArg some (eq_of_sorted_of_perm hsorted (vsorter.sorted _)
    (hperm.trans (vsorter.perm _).symm))

variable (vsorter) in
/-- For a new key the array is sorted as it is, and so it has to be without duplicates. An empty
one makes the key, and no value does not. -/
theorem insertedEach_none_iff (hroom : vs.length < 2 ^ 31) :
    some (insertedArray vsorter vs none) = insertedEach vs none ↔ vs ≠ [] ∧ vs.Nodup := by
  cases vs with
  | nil => simp [insertedEach]
  | cons v vs =>
    rw [length_cons] at hroom
    obtain ⟨l, hl, hsorted, hperm⟩ := insertedEach_of_sorted vs [v]
      (pairwise_singleton _ _) (by rw [length_singleton]; omega)
    have heach : insertedEach (v :: vs) none = some l := hl
    have hcount : ∀ w, l.count w = if w ∈ v :: vs then 1 else 0 := by
      intro w
      rw [hperm.count_eq, count_append, count_newValues (pairwise_singleton _ _), count_singleton]
      simp only [mem_cons, not_mem_nil, or_false]
      grind
    rw [heach, insertedArray, Option.some_inj]
    constructor
    · intro heq
      refine ⟨cons_ne_nil _ _, nodup_iff_count_le_one.mpr fun w => ?_⟩
      rw [← (vsorter.perm (v :: vs)).count_eq, heq, hcount]
      split
      · exact Nat.le_refl 1
      · exact Nat.zero_le 1
    · rintro ⟨-, hnodup⟩
      apply eq_of_sorted_of_perm (vsorter.sorted _) hsorted
      apply (vsorter.perm _).trans
      apply perm_iff_count.mpr
      intro w
      rw [hcount]
      exact hnodup.count

variable (hash) (sorter) (vsorter) in
/-- `insert(k, v, size)` leaves what the values inserted one by one do, exactly if the key exists
or the array has values and no duplicates. -/
theorem insertArray_eq_each_iff (h : HashMultimap K V) (k : K) (vs : List V) (hs : h.Sound hash)
    (hsorted : ∀ old ∈ valueOf h.entries k, Sorted id old)
    (htotal : valueOf h.entries k = none → h.table.total + 1 < 2 ^ 31)
    (hroom : (valueOf h.entries k).elim 0 List.length + vs.length < 2 ^ 31) :
    ∃ h₁ h₂, insertArray hash sorter vsorter h k vs = .ok h₁ ∧
      insertEach hash sorter h k vs = .ok h₂ ∧
      (SameContents h₁ h₂ ↔ (valueOf h.entries k).isSome ∨ vs ≠ [] ∧ vs.Nodup) := by
  have htotal' : k ∉ h.entries.map Prod.fst → h.table.total + 1 < 2 ^ 31 :=
    fun hk => htotal (valueOf_eq_none_iff.mpr hk)
  have hlength : ∀ old, (k, old) ∈ h.entries → old.length + vs.length < 2 ^ 31 := by
    intro old hold
    have hvalue : valueOf h.entries k = some old := (valueOf_eq_some_iff hs.table.nodup).mpr hold
    rw [hvalue, Option.elim_some] at hroom
    exact hroom
  obtain ⟨h₁, heq₁, hs₁, before, hupdate, helements₁⟩ :=
    Post.exists_ok (x := insertArray hash sorter vsorter h k vs)
      (insertArray_post hs htotal' (by omega) hlength)
  obtain ⟨h₂, heq₂, hs₂, hvalue₂, hothers₂, helements₂⟩ :=
    Post.exists_ok (x := insertEach hash sorter h k vs) (insertEach_post vs h hs htotal' hroom)
  have hbefore := hupdate.valueOf_eq hs.table.nodup
  have hvalue₁ := hupdate.valueOf_after hs₁.table.nodup hs.table.nodup
  refine ⟨h₁, h₂, heq₁, heq₂, ?_⟩
  rw [hbefore] at hsorted hroom hvalue₂ helements₂ ⊢
  -- all turns on the values of the one key
  have hsame : SameContents h₁ h₂ ↔
      some (insertedArray vsorter vs before) = insertedEach vs before := by
    constructor
    · intro hsame
      rw [← hvalue₁, ← hvalue₂]
      exact hsame.values k
    · intro heq
      have hvalues : ∀ k', valueOf h₁.entries k' = valueOf h₂.entries k' := by
        intro k'
        by_cases hk' : k' = k
        · rw [hk', hvalue₂, ← heq]
          exact hvalue₁
        · rw [hothers₂ k' hk']
          exact hupdate.valueOf_of_ne hs₁.table.nodup hs.table.nodup hk'
      refine ⟨hvalues, total_eq_of_values hs₁ hs₂ hvalues, ?_⟩
      rw [helements₁, helements₂, ← heq, Option.elim_some]
  rw [hsame]
  cases before with
  | none =>
    rw [Option.elim_none, Nat.zero_add] at hroom
    rw [insertedEach_none_iff vsorter hroom]
    simp
  | some old =>
    rw [Option.elim_some] at hroom
    rw [insertedEach_some vsorter (hsorted old rfl) hroom]
    simp

theorem insertArray_eq_each_iff_two : ∃ h h₁ h₂ : HashMultimap Nat Nat, new 1 = .ok h ∧
      insertArray (· % 4) (.insertion Prod.fst) (.insertion id) h 5 [20, 10] = .ok h₁ ∧
      insertEach (· % 4) (.insertion Prod.fst) h 5 [20, 10] = .ok h₂ ∧ SameContents h₁ h₂ := by
  obtain ⟨t, ht, hsound, hnil⟩ :=
    (Ds.Sound.new_post (· % 4) ([] : List Nat) (by decide : 0 < 1) (by decide)
      (by decide)).exists_ok
  have hentries : entries (⟨t, 0, [], false⟩ : HashMultimap Nat Nat) = [] := hnil
  have htotal : t.total = 0 := by rw [← hsound.length_contents, hnil]; rfl
  obtain ⟨h₁, h₂, heq₁, heq₂, hiff⟩ := insertArray_eq_each_iff (· % 4) (.insertion Prod.fst)
    (.insertion id) ⟨t, 0, [], false⟩ 5 [20, 10] ⟨hsound, Nat.two_pow_pos 64⟩
    (by rw [hentries]; rintro old ⟨⟩) (fun _ => by rw [htotal]; decide)
    (by rw [hentries]; decide)
  refine ⟨⟨t, 0, [], false⟩, h₁, h₂, ?_, heq₁, heq₂, hiff.mpr (.inr (by decide))⟩
  rw [new, ht]
  rfl

def bothWays (vs : List Nat) : Except HashError ((Option (List Nat) × Nat) ×
    (Option (List Nat) × Nat)) := do
  let h : HashMultimap Nat Nat ← new 1
  let h₁ ← insertArray id (.insertion Prod.fst) (.insertion id) h 1 vs
  let h₂ ← insertEach id (.insertion Prod.fst) h 1 vs
  let got₁ ← get id h₁ 1
  let got₂ ← get id h₂ 1
  .ok ((got₁, h₁.elements), (got₂, h₂.elements))

/-- A value that is twice in the array is stored twice, and an empty array makes a key. -/
theorem insertArray_keeps_duplicates :
    bothWays [10, 10] = .ok ((some [10, 10], 2), (some [10], 1)) ∧
    bothWays [] = .ok ((some [], 0), (none, 0)) := by
  decide +kernel

/-! ## One value taken away -/

variable (hash) (sorter) in
def build (size : Nat) (pairs : List (K × V)) : Except HashError (HashMultimap K V) := do
  let h ← new size
  pairs.foldlM (fun h p => insert hash sorter h p.1 p.2) h

def valuesOf (pairs : List (K × V)) (k : K) : Finset V :=
  ((pairs.filter fun p => p.1 = k).map Prod.snd).toFinset

def asSets (pairs : List (K × V)) : Sets K V :=
  pairs.foldl (fun m p => m.insert p.1 (setWith m p.1 p.2)) ∅

def remaining (v : V) (before : Option (List V)) : Option (List V) :=
  before.bind fun vs => if vs.filter (· ≠ v) = [] then none else some (vs.filter (· ≠ v))

section
variable {pairs : List (K × V)}

theorem mem_valuesOf : v ∈ valuesOf pairs k ↔ (k, v) ∈ pairs := by
  simp [valuesOf]

theorem asSets_concat (p : K × V) :
    asSets (pairs ++ [p]) = (asSets pairs).insert p.1 (setWith (asSets pairs) p.1 p.2) := by
  rw [asSets, foldl_append]
  rfl

theorem keys_asSets : (asSets pairs).keys = (pairs.map Prod.fst).toFinset := by
  induction pairs using reverseRecOn with
  | nil => rfl
  | append_singleton pairs p ih =>
    rw [asSets_concat, keys_insert, ih]
    ext k
    simp [or_comm]

theorem setOf_asSets (pairs : List (K × V)) (k : K) :
    setOf (asSets pairs) k = valuesOf pairs k := by
  induction pairs using reverseRecOn with
  | nil => rfl
  | append_singleton pairs p ih =>
    rw [asSets_concat, setOf]
    by_cases hk : k = p.1
    · subst hk
      rw [Finmap.lookup_insert, Option.getD_some, setWith, ih]
      ext w
      rw [Finset.mem_insert, mem_valuesOf, mem_valuesOf, mem_append, mem_singleton, Prod.ext_iff]
      simp [or_comm]
    · rw [Finmap.lookup_insert_of_ne _ hk, ← setOf, ih]
      ext w
      rw [mem_valuesOf, mem_valuesOf, mem_append, mem_singleton, Prod.ext_iff]
      simp [hk]

variable (hash) (sorter) in
/-- The map holds the pairs, as long as there is room for the keys and for the values of each. -/
theorem build_post (hsize : 0 < size ∧ size < 2 ^ 32 ∧ size ≠ 2 ^ 31)
    (hkeys : (pairs.map Prod.fst).toFinset.card < 2 ^ 31)
    (hvalues : ∀ k, (valuesOf pairs k).card < 2 ^ 31) :
    Post (fun h => Agrees hash h (asSets pairs)) Never (build hash sorter size pairs) := by
  apply (Agrees.new_post hash hsize).bind
  intro h hh
  apply post_foldlM (P := fun done h => Agrees hash h (asSets done)) hh
  intro done p h hdone ha
  -- what is inserted so far is among what is inserted in all
  have hsub : done ++ [p] ⊆ pairs := hdone.subset
  have hcard : (asSets (done ++ [p])).keys.card < 2 ^ 31 := by
    rw [keys_asSets]
    apply lt_of_le_of_lt (Finset.card_le_card _) hkeys
    intro k hk
    rw [mem_toFinset] at hk ⊢
    exact map_subset _ hsub hk
  have hroom : (setWith (asSets done) p.1 p.2).card < 2 ^ 31 := by
    apply lt_of_le_of_lt (Finset.card_le_card _) (hvalues p.1)
    intro w hw
    have hlookup := setOf_asSets (done ++ [p]) p.1
    rw [asSets_concat, setOf, Finmap.lookup_insert, Option.getD_some] at hlookup
    rw [hlookup, mem_valuesOf] at hw
    exact mem_valuesOf.mpr (hsub hw)
  rw [asSets_concat] at hcard ⊢
  exact ha.insert_post hcard hroom

end

omit [LinearOrder V] in
theorem leftover_last [Inhabited V] (hj : j + 1 = vs.length) (memory : Nat → V) :
    leftover vs j memory = vs.take j := by
  have hzero : vs.length - j - 1 = 0 := by omega
  have hzero' : vs.length - 1 - j = 0 := by omega
  rw [leftover, hzero, hzero']
  simp

omit [LinearOrder V] in
theorem memory_mem_leftover [Inhabited V] (hj : j + 1 < vs.length) (memory : Nat → V) :
    memory 0 ∈ leftover vs j memory := by
  apply mem_append_left
  apply mem_map_of_mem
  rw [mem_range]
  omega

theorem filter_ne_of_strict (hvs : Strict id vs) (hj : vs[j]? = some v) :
    vs.filter (· ≠ v) = vs.take j ++ vs.drop (j + 1) ∧ (∀ w ∈ vs.take j, w < v) ∧
      ∀ w ∈ vs.drop (j + 1), v < w := by
  obtain ⟨hlt, hv⟩ := List.getElem?_eq_some_iff.mp hj
  have hsplit : vs.take j ++ v :: vs.drop (j + 1) = vs := by
    rw [← hv, ← drop_eq_getElem_cons hlt, take_append_drop]
  rw [← hsplit] at hvs
  obtain ⟨-, hbehind, hbefore⟩ := pairwise_append.mp hvs
  have hbelow : ∀ w ∈ vs.take j, w < v := fun w hw => hbefore w hw v mem_cons_self
  have habove : ∀ w ∈ vs.drop (j + 1), v < w := (pairwise_cons.mp hbehind).1
  refine ⟨?_, hbelow, habove⟩
  have hfilter := congrArg (filter (· ≠ v)) hsplit
  rw [filter_append, filter_cons_of_neg (by simp),
    filter_eq_self.mpr fun w hw => decide_eq_true (hbelow w hw).ne,
    filter_eq_self.mpr fun w hw => decide_eq_true (habove w hw).ne'] at hfilter
  exact hfilter.symm

theorem forall_le_iff_last (hvs : Strict id vs) (hj : vs[j]? = some v) :
    (∀ w ∈ vs, w ≤ v) ↔ j + 1 = vs.length := by
  obtain ⟨hlt, rfl⟩ := List.getElem?_eq_some_iff.mp hj
  constructor
  · intro hall
    by_contra hlast
    have hnext : j + 1 < vs.length := by omega
    have hless := pairwise_iff_getElem.mp hvs j (j + 1) hlt hnext (Nat.lt_succ_self j)
    exact absurd hless (not_lt.mpr (hall _ (getElem_mem hnext)))
  · intro hlast w hw
    obtain ⟨i, hi⟩ := getElem?_of_mem hw
    have hi' := (List.getElem?_eq_some_iff.mp hi).1
    exact hvs.sorted.key_le (by omega) hi hj

/-- The values that `del(k, v)` leaves are the other ones exactly if the value is not there or
is the largest. -/
theorem deleted_eq_remaining_iff [Inhabited V] (hvs : Strict id vs) (hne : vs ≠ []) :
    (∀ memory, deleted v memory (some vs) = remaining v (some vs)) ↔
      (v ∈ vs → ∀ w ∈ vs, w ≤ v) := by
  have hremaining : remaining v (some vs) =
      if vs.filter (· ≠ v) = [] then none else some (vs.filter (· ≠ v)) := rfl
  rw [hremaining]
  cases hsearch : search id vs v with
  | none =>
    have hv : v ∉ vs := by
      rw [search_eq_none_iff hvs, map_id] at hsearch
      exact hsearch
    have hfilter : vs.filter (· ≠ v) = vs :=
      filter_eq_self.mpr fun w hw => decide_eq_true fun heq => hv (heq ▸ hw)
    rw [hfilter, if_neg hne]
    simp [deleted, hsearch, hv]
  | some j =>
    obtain ⟨x, hj, hx⟩ := key_of_search hsearch
    obtain rfl : x = v := hx
    obtain ⟨hlt, -⟩ := List.getElem?_eq_some_iff.mp hj
    obtain ⟨hfilter, hbelow, habove⟩ := filter_ne_of_strict hvs hj
    have hmem : x ∈ vs := mem_of_getElem? hj
    rw [hfilter]
    simp only [deleted, hsearch, hmem, forall_const, forall_le_iff_last hvs hj]
    constructor
    · intro hall
      by_contra hlast
      -- what is copied may be the deleted value
      have hfirst := memory_mem_leftover (show j + 1 < vs.length by omega) fun _ => x
      have hdeleted := hall fun _ => x
      rw [if_neg (by omega)] at hdeleted
      split at hdeleted
      · cases hdeleted
      · rw [Option.some.inj hdeleted] at hfirst
        rcases mem_append.mp hfirst with hin | hin
        · exact lt_irrefl _ (hbelow _ hin)
        · exact lt_irrefl _ (habove _ hin)
    · intro hlast memory
      rw [leftover_last hlast, drop_eq_nil_of_le hlast.ge, append_nil]
      have hempty : vs.take j = [] ↔ vs.length = 1 := by
        rw [← length_eq_zero_iff, length_take]
        omega
      simp only [hempty]

variable (sorter) in
theorem delValue_reads [Inhabited V] (ha : Agrees hash h m) (k v) (memory : Nat → V) :
    ∃ h', delValue hash sorter h k v memory = .ok (h', decide (v ∈ setOf m k)) ∧
      (∀ k' ≠ k, get hash h' k' = get hash h k') ∧
      get hash h' k = .ok (deleted v memory (valueOf h.entries k)) := by
  obtain ⟨⟨h', found⟩, heq, hs', before, hupdate, hfound, -⟩ :=
    Post.exists_ok (x := delValue hash sorter h k v memory) (delValue_post ha.sound memory)
  have hbefore := hupdate.valueOf_eq ha.sound.table.nodup
  have hafter := hupdate.valueOf_after hs'.table.nodup ha.sound.table.nodup
  have hread : ∀ k', get hash h' k' = .ok (valueOf h'.entries k') :=
    fun k' => (get_post hs').eq_ok
  refine ⟨h', ?_, fun k' hk' => ?_, ?_⟩
  · rw [heq, show found = _ from hfound, ← hbefore]
    refine congrArg (fun b => Except.ok (h', b)) ?_
    rw [Bool.eq_iff_iff, decide_eq_true_iff, setOf, ha.lookup_eq]
    cases hvs : valueOf h.entries k with
    | none => simp
    | some vs =>
      rw [Option.any_some, search_isSome_iff (ha.strict_of_valueOf hvs)]
      simp
  · rw [hread, (get_post ha.sound).eq_ok]
    exact congrArg Except.ok (hupdate.valueOf_of_ne hs'.table.nodup ha.sound.table.nodup hk')
  · rw [hread, hbefore]
    exact congrArg Except.ok hafter

theorem Agrees.ne_nil {pairs : List (K × V)} (ha : Agrees hash h (asSets pairs))
    (hvs : valueOf h.entries k = some vs) : vs ≠ [] := by
  rintro rfl
  have hlookup : (asSets pairs).lookup k = some ∅ := by
    rw [ha.lookup_eq, hvs]
    rfl
  have hk : k ∈ (asSets pairs).keys := by
    rw [Finmap.mem_keys, ← Finmap.lookup_isSome, hlookup]
    rfl
  rw [keys_asSets, mem_toFinset] at hk
  obtain ⟨p, hp, rfl⟩ := mem_map.mp hk
  have hempty := mem_valuesOf.mpr hp
  rw [← setOf_asSets, setOf, hlookup] at hempty
  simp at hempty

variable (hash) (sorter) in
/-- In a map built by `insert(k, v)`, `del(k, v)` leaves the other values of the key exactly if the
value is not there or is the largest. -/
theorem delValue_keeps_others_iff [Inhabited V] (size : Nat) (pairs : List (K × V)) (k : K) (v : V)
    (hsize : 0 < size ∧ size < 2 ^ 32 ∧ size ≠ 2 ^ 31)
    (hkeys : (pairs.map Prod.fst).toFinset.card < 2 ^ 31)
    (hvalues : ∀ k, (valuesOf pairs k).card < 2 ^ 31) :
    ∃ h before, build hash sorter size pairs = .ok h ∧ get hash h k = .ok before ∧
      (∀ memory, ∃ h', delValue hash sorter h k v memory = .ok (h', decide ((k, v) ∈ pairs)) ∧
        ∀ k' ≠ k, get hash h' k' = get hash h k') ∧
      ((∀ memory, ∃ h' found, delValue hash sorter h k v memory = .ok (h', found) ∧
          get hash h' k = .ok (remaining v before)) ↔
        ((k, v) ∈ pairs → ∀ w, (k, w) ∈ pairs → w ≤ v)) := by
  obtain ⟨h, hbuild, ha⟩ := (build_post hash sorter hsize hkeys hvalues).exists_ok
  have hmem : ∀ w, (k, w) ∈ pairs ↔ w ∈ setOf (asSets pairs) k := by
    intro w
    rw [setOf_asSets, mem_valuesOf]
  simp only [hmem]
  refine ⟨h, valueOf h.entries k, hbuild, (get_post ha.sound).eq_ok, fun memory => ?_, ?_⟩
  · obtain ⟨h', heq, hothers, -⟩ := delValue_reads sorter ha k v memory
    exact ⟨h', heq, hothers⟩
  have hkey : (∀ memory, ∃ h' found, delValue hash sorter h k v memory = .ok (h', found) ∧
      get hash h' k = .ok (remaining v (valueOf h.entries k))) ↔
      ∀ memory, deleted v memory (valueOf h.entries k) = remaining v (valueOf h.entries k) := by
    apply forall_congr'
    intro memory
    obtain ⟨h', heq, -, hread⟩ := delValue_reads sorter ha k v memory
    constructor
    · rintro ⟨h'', found, heq', hread'⟩
      obtain ⟨rfl, rfl⟩ := Prod.mk.inj (Except.ok.inj (heq.symm.trans heq'))
      exact Except.ok.inj (hread.symm.trans hread')
    · intro hsame
      exact ⟨h', _, heq, hsame ▸ hread⟩
  rw [hkey, setOf, ha.lookup_eq]
  cases hvs : valueOf h.entries k with
  | none => simp [deleted, remaining]
  | some vs =>
    rw [deleted_eq_remaining_iff (ha.strict_of_valueOf hvs) (ha.ne_nil hvs)]
    simp

theorem delValue_keeps_others_iff_last : ∃ (h : HashMultimap Nat Nat) (before : Option (List Nat)),
      build id (.insertion Prod.fst) 10 [(5, 20), (5, 10), (5, 30)] = .ok h ∧
      get id h 5 = .ok before ∧
      ∀ memory, ∃ h' found, delValue id (.insertion Prod.fst) h 5 30 memory = .ok (h', found) ∧
        get id h' 5 = .ok (remaining 30 before) := by
  have hsmall : ∀ k, (valuesOf [(5, 20), (5, 10), (5, 30)] k).card < 2 ^ 31 := by
    intro k
    apply lt_of_le_of_lt (toFinset_card_le _)
    rw [length_map]
    exact lt_of_le_of_lt (length_filter_le _ _) (by decide)
  obtain ⟨h, before, hbuild, hget, -, hiff⟩ := delValue_keeps_others_iff id (.insertion Prod.fst)
    10 [(5, 20), (5, 10), (5, 30)] 5 30 (by decide) (by decide) hsmall
  refine ⟨h, before, hbuild, hget, hiff.mpr fun _ w hw => ?_⟩
  simp only [mem_cons, Prod.mk.injEq, true_and, not_mem_nil, or_false] at hw
  omega

/-- Of the values 10, 20 and 30 the first is taken away, and the memory behind the node holds
sevens. -/
theorem delValue_copies_memory :
    (do let h : HashMultimap Nat Nat ← build id (.insertion Prod.fst) 10 [(5, 10), (5, 20), (5, 30)]
        let (h', found) ← delValue id (.insertion Prod.fst) h 5 10 fun _ => 7
        let before ← get id h 5
        let after ← get id h' 5
        .ok (found, before, after)) = .ok (true, some [10, 20, 30], some [7, 7]) := by
  decide +kernel

end Helens.Ds.HashMultimap
