import Mathlib.Data.List.Basic

/-! Loops that hand elements to a callback until it returns false, nested in any way: they come to
the visit of the elements that they reach. A loop over groups may also leave only the group it is
in. -/

namespace Lib.Visits

open List

variable {σ α : Type} (cb : σ → α → σ × Bool)

def visit : List α → σ × Bool → σ × Bool
  | [], r => r
  | a :: as, r => if r.2 then r else visit as ((cb r.1 a).1, !(cb r.1 a).2)

variable {cb}

@[simp] theorem visit_nil (r) : visit cb [] r = r := rfl

theorem visit_cons (h : r.2 = false) (a as) :
    visit cb (a :: as) r = visit cb as ((cb r.1 a).1, !(cb r.1 a).2) := by
  rw [visit, h, if_neg Bool.false_ne_true]

theorem visit_stopped (h : r.2 = true) (as) : visit cb as r = r := by
  cases as with
  | nil => rfl
  | cons a as => rw [visit, if_pos h]

theorem visit_append (as bs r) : visit cb (as ++ bs) r = visit cb bs (visit cb as r) := by
  induction as generalizing r with
  | nil => rfl
  | cons a as ih =>
    cases h : r.2 with
    | true => rw [visit_stopped h, visit_stopped h, visit_stopped h]
    | false => rw [cons_append, visit_cons h, visit_cons h, ih]

theorem visit_all {f : σ → α → σ} (as : List α) (s) :
    visit (fun s a => (f s a, true)) as (s, false) = (as.foldl f s, false) := by
  induction as generalizing s with
  | nil => rfl
  | cons a as ih => exact ih (f s a)

/-! ## The calls -/

def logged (cb : σ → α → σ × Bool) (x : σ × List (α × Bool)) (a : α) :
    (σ × List (α × Bool)) × Bool :=
  (((cb x.1 a).1, x.2 ++ [(a, (cb x.1 a).2)]), (cb x.1 a).2)

structure Visited (as : List α) (calls : List (α × Bool)) : Prop where
  elements : calls.map Prod.fst <+: as
  stops : ∀ e ∈ calls.dropLast, e.2 = true
  all : (∀ e ∈ calls, e.2 = true) → calls.map Prod.fst = as

theorem Visited.cons (h : Visited as calls) (a) : Visited (a :: as) ((a, true) :: calls) := by
  refine ⟨cons_prefix_cons.mpr ⟨rfl, h.elements⟩, ?_, fun hall => ?_⟩
  · cases calls with
    | nil => nofun
    | cons e calls =>
      rw [dropLast_cons_cons]
      exact forall_mem_cons.mpr ⟨rfl, h.stops⟩
  · rw [map_cons, h.all (forall_mem_cons.mp hall).2]

theorem visited_last (a : α) (as : List α) : Visited (a :: as) [(a, false)] := by
  refine ⟨cons_prefix_cons.mpr ⟨rfl, nil_prefix⟩, nofun, fun hall => ?_⟩
  exact absurd (hall _ (mem_singleton_self _)) Bool.false_ne_true

variable (cb) in
theorem visit_logged_state (as s log b) :
    ((visit (logged cb) as ((s, log), b)).1.1, (visit (logged cb) as ((s, log), b)).2) =
      visit cb as (s, b) := by
  induction as generalizing s log b with
  | nil => rfl
  | cons a as ih =>
    cases b with
    | true => rw [visit_stopped rfl, visit_stopped rfl]
    | false =>
      rw [visit_cons rfl, visit_cons rfl]
      exact ih _ _ _

variable (cb) in
theorem visit_logged (as : List α) (s : σ) (log : List (α × Bool)) :
    ∃ calls, (visit (logged cb) as ((s, log), false)).1.2 = log ++ calls ∧ Visited as calls ∧
      ((visit (logged cb) as ((s, log), false)).2 = true → ∃ e ∈ calls, e.2 = false) := by
  induction as generalizing s log with
  | nil => exact ⟨[], (append_nil _).symm, ⟨ nil_prefix, nofun, fun _ => rfl⟩, nofun⟩
  | cons a as ih =>
    rw [visit_cons rfl]
    have hlog : (logged cb (s, log) a).1 = ((cb s a).1, log ++ [(a, (cb s a).2)]) := rfl
    have hanswer : (logged cb (s, log) a).2 = (cb s a).2 := rfl
    rw [hlog, hanswer]
    cases hmore : (cb s a).2 with
    | false =>
      refine ⟨[(a, false)], ?_, visited_last a as, fun _ => ⟨_, mem_singleton_self _, rfl⟩⟩
      rw [visit_stopped rfl]
    | true =>
      obtain ⟨calls, hcalls, hvisited, hstopped⟩ := ih (cb s a).1 (log ++ [(a, true)])
      refine ⟨(a, true) :: calls, ?_, hvisited.cons a, fun hstop => ?_⟩
      · rw [append_assoc] at hcalls
        exact hcalls
      · obtain ⟨e, he, hfalse⟩ := hstopped hstop
        exact ⟨e, mem_cons_of_mem _ he, hfalse⟩

/-! ## Groups -/

variable (cb) in
def visitGroups : List (List α) → σ → σ
  | [], s => s
  | g :: gs, s => visitGroups gs (visit cb g (s, false)).1

variable (cb) in
def groupsLeft : List (List α) → σ → List (List α)
  | [], _ => []
  | g :: gs, s =>
    if (visit cb g (s, false)).2 then gs else groupsLeft gs (visit cb g (s, false)).1

variable (cb) in
/-- Up to the first call that returns false the elements are visited as in one list, then come
the groups that are left. -/
theorem visitGroups_eq (gs : List (List α)) (s) : visitGroups cb gs s =
      visitGroups cb (groupsLeft cb gs s) (visit cb gs.flatten (s, false)).1 := by
  induction gs generalizing s with
  | nil => rfl
  | cons g gs ih =>
    rw [visitGroups, groupsLeft, flatten_cons, visit_append]
    cases hstop : (visit cb g (s, false)).2 with
    | true => rw [if_pos rfl, visit_stopped hstop]
    | false =>
      have hstate : visit cb g (s, false) = ((visit cb g (s, false)).1, false) :=
        Prod.ext rfl hstop
      rw [if_neg Bool.false_ne_true, ih, hstate]

theorem visitGroups_of_flatten (h : gs.flatten = []) (s) : visitGroups cb gs s = s := by
  induction gs with
  | nil => rfl
  | cons g gs ih =>
    obtain ⟨hg, hgs⟩ := append_eq_nil_iff.mp h
    rw [visitGroups, hg]
    exact ih hgs

theorem stopped_of_groupsLeft (h : groupsLeft cb gs s ≠ []) :
    (visit cb gs.flatten (s, false)).2 = true := by
  induction gs generalizing s with
  | nil => exact absurd rfl h
  | cons g gs ih =>
    rw [flatten_cons, visit_append]
    rw [groupsLeft] at h
    cases hstop : (visit cb g (s, false)).2 with
    | true =>
      rw [visit_stopped hstop]
      exact hstop
    | false =>
      have hstate : visit cb g (s, false) = ((visit cb g (s, false)).1, false) :=
        Prod.ext rfl hstop
      rw [hstop, if_neg Bool.false_ne_true] at h
      rw [hstate]
      exact ih h

theorem groupsLeft_logged (gs s log) : groupsLeft (logged cb) gs (s, log) = groupsLeft cb gs s := by
  induction gs generalizing s log with
  | nil => rfl
  | cons g gs ih =>
    obtain ⟨hstate, hstop⟩ := Prod.mk.inj (visit_logged_state cb g s log false)
    rw [groupsLeft, groupsLeft, hstop, ← hstate]
    split
    · rfl
    · exact ih _ _

variable (cb) in
/-- The calls for groups: for some of the elements in their order, for all of them if none
returns false, and for the first one in any case. -/
theorem visitGroups_logged (gs : List (List α)) (s log) :
    ∃ calls, (visitGroups (logged cb) gs (s, log)).2 = log ++ calls ∧
      (calls.map Prod.fst).Sublist gs.flatten ∧
      ((∀ e ∈ calls, e.2 = true) → calls.map Prod.fst = gs.flatten) ∧
      (calls = [] → gs.flatten = []) := by
  induction gs generalizing s log with
  | nil => exact ⟨[], (append_nil _).symm, List.Sublist.slnil, fun _ => rfl, fun _ => rfl⟩
  | cons g gs ih =>
    obtain ⟨first, hfirst, hvisited, -⟩ := visit_logged cb g s log
    obtain ⟨calls, hcalls, hsub, hall, hnil⟩ :=
      ih (visit (logged cb) g ((s, log), false)).1.1 (log ++ first)
    rw [← hfirst] at hcalls
    refine ⟨first ++ calls, ?_, ?_, fun htrue => ?_, fun hempty => ?_⟩
    · rw [visitGroups, hcalls, hfirst, append_assoc]
    · rw [map_append, flatten_cons]
      exact hvisited.elements.sublist.append hsub
    · obtain ⟨hfirst', hcalls'⟩ := forall_mem_append.mp htrue
      rw [map_append, flatten_cons, hvisited.all hfirst', hall hcalls']
    · obtain ⟨rfl, rfl⟩ := append_eq_nil_iff.mp hempty
      rw [flatten_cons, ← hvisited.all nofun, hnil rfl]
      rfl

variable (cb) in
/-- The calls up to the first that returns false, and those behind it: there are none exactly if
the groups that are left are empty. -/
theorem visitGroups_calls (gs : List (List α)) (s) :
    ∃ first rest, (visit (logged cb) gs.flatten ((s, []), false)).1.2 = first ∧
      (visitGroups (logged cb) gs (s, [])).2 = first ++ rest ∧ Visited gs.flatten first ∧
      (rest = [] ↔ (groupsLeft cb gs s).flatten = []) ∧
      (rest ≠ [] → ∃ e ∈ first, e.2 = false) := by
  obtain ⟨first, hfirst, hvisited, hstopped⟩ := visit_logged cb gs.flatten s []
  rw [nil_append] at hfirst
  have hsplit := visitGroups_eq (logged cb) gs (s, [])
  rw [groupsLeft_logged] at hsplit
  obtain ⟨rest, hrest, -, -, hnil⟩ := visitGroups_logged cb (groupsLeft cb gs s)
    (visit (logged cb) gs.flatten ((s, []), false)).1.1 first
  rw [← hfirst] at hrest
  have hcalls : (visitGroups (logged cb) gs (s, [])).2 = first ++ rest := by
    rw [hsplit, hrest, hfirst]
  have hempty : (groupsLeft cb gs s).flatten = [] → rest = [] := by
    intro hleft
    rw [hsplit, visitGroups_of_flatten hleft, hfirst] at hcalls
    exact append_right_eq_self.mp hcalls.symm
  refine ⟨first, rest, hfirst, hcalls, hvisited, ⟨hnil, hempty⟩, fun hne => hstopped ?_⟩
  have hleft : groupsLeft (logged cb) gs (s, []) ≠ [] := by
    rw [groupsLeft_logged]
    intro hnone
    rw [hnone] at hempty
    exact hne (hempty rfl)
  exact stopped_of_groupsLeft hleft

end Lib.Visits
