import Mathlib.Algebra.GroupWithZero.Nat
import Mathlib.Data.Finmap

/-! Finite maps as lists of pairs in any order. -/

namespace Lib.FiniteMap

open List Finmap

variable {κ β : Type} [DecidableEq κ]

/-- The pairs are those of the map, every key once. -/
structure Represents (es : List (κ × β)) (m : Finmap fun _ : κ => β) : Prop where
  nodup : (es.map Prod.fst).Nodup
  mem_iff : ∀ k v, (k, v) ∈ es ↔ m.lookup k = some v

def valueOf (es : List (κ × β)) (k : κ) : Option β :=
  (es.find? fun e => decide (e.1 = k)).map Prod.snd

theorem valueOf_eq_some_iff {es : List (κ × β)} (h : (es.map Prod.fst).Nodup) {k : κ} {v : β} :
    valueOf es k = some v ↔ (k, v) ∈ es := by
  induction es with
  | nil => simp [valueOf]
  | cons e es ih =>
    obtain ⟨hnotin, hnodup⟩ := nodup_cons.mp h
    by_cases he : e.1 = k
    · obtain ⟨k', v'⟩ := e
      obtain rfl : k' = k := he
      have hnot : (k', v) ∉ es := fun hmem => hnotin (mem_map.mpr ⟨(k', v), hmem, rfl⟩)
      simp [valueOf, hnot, eq_comm]
    · have htail : valueOf (e :: es) k = valueOf es k := by simp [valueOf, he]
      have hne : (k, v) ≠ e := fun heq => he (by rw [← heq])
      rw [htail, ih hnodup, mem_cons]
      simp [hne]

theorem valueOf_eq_none_iff {es : List (κ × β)} {k : κ} :
    valueOf es k = none ↔ k ∉ es.map Prod.fst := by
  simp only [valueOf, Option.map_eq_none_iff, List.find?_eq_none, decide_eq_true_eq, mem_map,
    not_exists, not_and]

/-- The pairs of at most one key change: what it had before, and what it has after. -/
inductive Update (es es' : List (κ × β)) (k : κ) : Option β → Option β → Prop
  | keep (hk : k ∉ es.map Prod.fst) (h : es'.Perm es) : Update es es' k none none
  | add {v : β} (hk : k ∉ es.map Prod.fst) (h : es'.Perm ((k, v) :: es)) :
      Update es es' k none (some v)
  | write {v v' : β} {rest : List (κ × β)} (hold : es.Perm ((k, v) :: rest))
      (hnew : es'.Perm ((k, v') :: rest)) : Update es es' k (some v) (some v')
  | remove {v : β} (h : es.Perm ((k, v) :: es')) : Update es es' k (some v) none

def insertAll (m : Finmap fun _ : κ => β) (es : List (κ × β)) : Finmap fun _ : κ => β :=
  es.foldl (fun n e => n.insert e.1 e.2) m

namespace Represents

variable {es es' : List (κ × β)} {m m' : Finmap fun _ : κ => β} {k : κ} {v : β}

theorem nil : Represents ([] : List (κ × β)) ∅ := by
  constructor
  · exact nodup_nil
  · intro k v
    simp

theorem perm (h : Represents es m) (hperm : es'.Perm es) : Represents es' m := by
  constructor
  · exact ((hperm.map Prod.fst).nodup_iff).mpr h.nodup
  · intro k v
    rw [hperm.mem_iff]
    exact h.mem_iff k v

theorem unique (h : Represents es m) (h' : Represents es m') : m = m' := by
  apply ext_lookup
  intro k
  apply Option.ext
  intro v
  exact (h.mem_iff k v).symm.trans (h'.mem_iff k v)

theorem mem_keys (h : Represents es m) : k ∈ es.map Prod.fst ↔ k ∈ m := by
  rw [Finmap.mem_iff, mem_map]
  constructor
  · rintro ⟨⟨k, v⟩, hmem, rfl⟩
    exact ⟨v, (h.mem_iff k v).mp hmem⟩
  · rintro ⟨v, hv⟩
    exact ⟨(k, v), (h.mem_iff k v).mpr hv, rfl⟩

theorem length_eq (h : Represents es m) : es.length = m.keys.card := by
  have hkeys : (es.map Prod.fst).toFinset = m.keys := by
    ext k
    rw [mem_toFinset, h.mem_keys, Finmap.mem_keys]
  rw [← hkeys, toFinset_card_of_nodup h.nodup, length_map]

theorem insert (h : Represents es m) (hk : k ∉ m) : Represents ((k, v) :: es) (m.insert k v) := by
  constructor
  · rw [map_cons, nodup_cons, h.mem_keys]
    exact ⟨hk, h.nodup⟩
  · intro k' v'
    rw [mem_cons, h.mem_iff]
    by_cases heq : k' = k
    · subst heq
      rw [lookup_insert, lookup_eq_none.mpr hk]
      simp [eq_comm]
    · rw [lookup_insert_of_ne m heq]
      simp [heq]

theorem erase (h : Represents ((k, v) :: es) m) : Represents es (m.erase k) := by
  have hnodup := nodup_cons.mp h.nodup
  constructor
  · exact hnodup.2
  · intro k' v'
    by_cases heq : k' = k
    · subst heq
      rw [lookup_erase]
      constructor
      · intro hmem
        exact absurd (mem_map_of_mem (f := Prod.fst) hmem) hnodup.1
      · intro hsome
        cases hsome
    · rw [lookup_erase_ne heq, ← h.mem_iff, mem_cons]
      simp [heq]

theorem replace {v' : β} (h : Represents ((k, v) :: es) m) :
    Represents ((k, v') :: es) (m.insert k v') := by
  have hnew := h.erase.insert (v := v') (k := k) notMem_erase_self
  have hmap : (m.erase k).insert k v' = m.insert k v' := by
    apply ext_lookup
    intro k'
    by_cases heq : k' = k
    · subst heq
      rw [lookup_insert, lookup_insert]
    · rw [lookup_insert_of_ne _ heq, lookup_insert_of_ne _ heq,
        lookup_erase_ne heq]
  rw [hmap] at hnew
  exact hnew

theorem lookup_of_update {before after : Option β} (h : Represents es m)
    (hupdate : Update es es' k before after) : m.lookup k = before := by
  cases hupdate with
  | keep hk => exact lookup_eq_none.mpr fun hmem => hk (h.mem_keys.mpr hmem)
  | add hk => exact lookup_eq_none.mpr fun hmem => hk (h.mem_keys.mpr hmem)
  | write hold => exact (h.mem_iff _ _).mp (hold.mem_iff.mpr mem_cons_self)
  | remove hold => exact (h.mem_iff _ _).mp (hold.mem_iff.mpr mem_cons_self)

theorem update_insert {before : Option β} (h : Represents es m)
    (hupdate : Update es es' k before (some v)) : Represents es' (m.insert k v) := by
  cases hupdate with
  | add hk hperm => exact (h.insert fun hmem => hk (h.mem_keys.mpr hmem)).perm hperm
  | write hold hnew => exact ((h.perm hold.symm).replace).perm hnew

theorem update_erase {before : Option β} (h : Represents es m)
    (hupdate : Update es es' k before none) : Represents es' (m.erase k) := by
  cases hupdate with
  | keep hk hperm =>
    have hnone := h.lookup_of_update (.keep hk hperm)
    have herase : m.erase k = m := by
      apply ext_lookup
      intro k'
      by_cases heq : k' = k
      · subst heq
        rw [lookup_erase, hnone]
      · exact lookup_erase_ne heq
    rw [herase]
    exact h.perm hperm
  | remove hold => exact (h.perm hold.symm).erase

theorem insertAll_eq (h : Represents es m) (n : Finmap fun _ : κ => β) :
    insertAll n es = m ∪ n := by
  induction es generalizing m n with
  | nil =>
    rw [h.unique nil, empty_union]
    rfl
  | cons e es ih =>
    obtain ⟨k, v⟩ := e
    rw [insertAll, foldl_cons, ← insertAll, ih h.erase]
    apply ext_lookup
    intro k'
    have hv : m.lookup k = some v := (h.mem_iff k v).mp mem_cons_self
    by_cases heq : k' = k
    · subst heq
      rw [lookup_union_right notMem_erase_self, lookup_insert,
        lookup_union_left (mem_of_lookup_eq_some hv), hv]
    · by_cases hmem : k' ∈ m
      · rw [lookup_union_left (mem_erase.mpr ⟨heq, hmem⟩),
          lookup_union_left hmem, lookup_erase_ne heq]
      · rw [lookup_union_right fun hin => hmem (mem_erase.mp hin).2,
          lookup_union_right hmem, lookup_insert_of_ne _ heq]

end Represents

section
variable {γ : Type} {es es' : List (κ × β)} {k : κ} {before after : Option β}

omit [DecidableEq κ] in
theorem Update.perm_left (h : Update es es' k before after)
    (hperm : ds.Perm es) : Update ds es' k before after := by
  have hkeys : ds.map Prod.fst ⊆ es.map Prod.fst := (hperm.map Prod.fst).subset
  cases h with
  | keep hk h => exact .keep (fun hin => hk (hkeys hin)) (h.trans hperm.symm)
  | add hk h => exact .add (fun hin => hk (hkeys hin)) (h.trans (hperm.symm.cons _))
  | write hold hnew => exact .write (hperm.trans hold) hnew
  | remove h => exact .remove (hperm.trans h)

theorem Update.valueOf_eq (h : Update es es' k before after) (hnodup : (es.map Prod.fst).Nodup) :
    valueOf es k = before := by
  cases h with
  | keep hk => exact valueOf_eq_none_iff.mpr hk
  | add hk => exact valueOf_eq_none_iff.mpr hk
  | write hold => exact (valueOf_eq_some_iff hnodup).mpr (hold.mem_iff.mpr mem_cons_self)
  | remove hold => exact (valueOf_eq_some_iff hnodup).mpr (hold.mem_iff.mpr mem_cons_self)

theorem Update.valueOf_after (h : Update es es' k before after)
    (hnodup : (es'.map Prod.fst).Nodup) (hbefore : (es.map Prod.fst).Nodup) :
    valueOf es' k = after := by
  cases h with
  | keep hk h =>
    rw [valueOf_eq_none_iff, (h.map Prod.fst).mem_iff]
    exact hk
  | add hk h => exact (valueOf_eq_some_iff hnodup).mpr (h.mem_iff.mpr mem_cons_self)
  | write hold hnew => exact (valueOf_eq_some_iff hnodup).mpr (hnew.mem_iff.mpr mem_cons_self)
  | remove h =>
    have hboth := ((h.map Prod.fst).nodup_iff).mp hbefore
    exact valueOf_eq_none_iff.mpr (nodup_cons.mp hboth).1

theorem Update.valueOf_of_ne (h : Update es es' k before after)
    (hnodup : (es'.map Prod.fst).Nodup) (hbefore : (es.map Prod.fst).Nodup)
    (hne : k' ≠ k) : valueOf es' k' = valueOf es k' := by
  have hskip : ∀ {v v' : β} {ds : List (κ × β)}, (k', v) ∈ (k, v') :: ds ↔ (k', v) ∈ ds := by
    intro v v' ds
    rw [mem_cons]
    exact or_iff_right fun heq => hne (congrArg Prod.fst heq)
  apply Option.ext
  intro v
  rw [valueOf_eq_some_iff hnodup, valueOf_eq_some_iff hbefore]
  cases h with
  | keep hk h => exact h.mem_iff
  | add hk h => rw [h.mem_iff, hskip]
  | write hold hnew => rw [hnew.mem_iff, hold.mem_iff, hskip, hskip]
  | remove h => rw [h.mem_iff, hskip]

omit [DecidableEq κ] in
theorem Update.same {v : β} (hmem : (k, v) ∈ es) (hperm : es'.Perm es) :
    Update es es' k (some v) (some v) := by
  obtain ⟨pre, post, rfl⟩ := append_of_mem hmem
  exact .write perm_middle (hperm.trans perm_middle)

omit [DecidableEq κ] in
theorem Update.forall_mem {P : κ × β → Prop} (h : Update es es' k before after)
    (hes : ∀ e ∈ es, P e) (hafter : ∀ v ∈ after, P (k, v)) : ∀ e ∈ es', P e := by
  intro e he
  cases h with
  | keep hk h => exact hes e (h.mem_iff.mp he)
  | add hk h =>
    rcases mem_cons.mp (h.mem_iff.mp he) with rfl | he
    · exact hafter _ rfl
    · exact hes e he
  | write hold hnew =>
    rcases mem_cons.mp (hnew.mem_iff.mp he) with rfl | he
    · exact hafter _ rfl
    · exact hes e (hold.mem_iff.mpr (mem_cons_of_mem _ he))
  | remove h => exact hes e (h.mem_iff.mpr (mem_cons_of_mem _ he))

omit [DecidableEq κ] in
theorem Update.map (f : β → γ) (h : Update es es' k before after) :
    Update (es.map fun e => (e.1, f e.2)) (es'.map fun e => (e.1, f e.2)) k (before.map f)
      (after.map f) := by
  have hkeys : (es.map fun e => (e.1, f e.2)).map Prod.fst = es.map Prod.fst := by simp
  cases h with
  | keep hk h => exact .keep (hkeys ▸ hk) (h.map _)
  | add hk h => exact .add (hkeys ▸ hk) (h.map _)
  | write hold hnew => exact .write (hold.map _) (hnew.map _)
  | remove h => exact .remove (h.map _)

omit [DecidableEq κ] in
theorem Update.sum_map (f : β → Nat) (h : Update es es' k before after) :
    (es'.map fun e => f e.2).sum + before.elim 0 f =
      (es.map fun e => f e.2).sum + after.elim 0 f := by
  cases h with
  | keep hk h =>
    rw [(h.map fun e => f e.2).sum_eq]
  | add hk h =>
    rw [(h.map fun e => f e.2).sum_eq, map_cons, sum_cons]
    dsimp only [Option.elim_none, Option.elim_some]
    omega
  | write hold hnew =>
    rw [(hold.map fun e => f e.2).sum_eq, (hnew.map fun e => f e.2).sum_eq, map_cons,
      map_cons, sum_cons, sum_cons]
    dsimp only [Option.elim_some]
    omega
  | remove h =>
    rw [(h.map fun e => f e.2).sum_eq, map_cons, sum_cons]
    dsimp only [Option.elim_none, Option.elim_some]
    omega

end

theorem keys_insert (m : Finmap fun _ : κ => β) (k : κ) (v) :
    (m.insert k v).keys = Insert.insert k m.keys := by
  ext k'
  rw [Finmap.mem_keys, Finmap.mem_insert, Finset.mem_insert, Finmap.mem_keys]

theorem card_keys_insert {m : Finmap fun _ : κ => β} {k : κ} (hk : k ∉ m) (v) :
    (m.insert k v).keys.card = m.keys.card + 1 := by
  rw [keys_insert, Finset.card_insert_of_notMem (mem_keys.not.mpr hk)]

theorem keys_subset_insertAll (es) (m : Finmap fun _ : κ => β) :
    m.keys ⊆ (insertAll m es).keys := by
  induction es generalizing m with
  | nil => exact Finset.Subset.refl _
  | cons e es ih =>
    apply Finset.Subset.trans _ (ih _)
    rw [keys_insert]
    exact Finset.subset_insert _ _

end Lib.FiniteMap
