import Mathlib.Data.List.Perm.Basic

/-! Linearization. Calls run step by step beside each other and take effect at one step, their own
or another's. What is seen is explained by the order in which they take effect. -/

namespace Lib.Linear

open List

variable {δ ω ν κ : Type} {apply : δ → ω → δ} {look : δ → ν} {d : δ}

def Explains (apply : δ → ω → δ) (look : δ → ν) (d : δ) (ops : List ω) (v : ν) : Prop :=
  ∃ order : List ω, order.Perm ops ∧ look (order.foldl apply d) = v

/-- What a call has done before and after a step: the same, or what it does in it. -/
def Adds (before after new : Option ω) : Prop :=
  after = before ∧ new = none ∨ before = none ∧ after = new

theorem Adds.perm {before after new : Option ω} (h : Adds before after new) :
    after.toList.Perm (before.toList ++ new.toList) := by
  rcases h with ⟨rfl, rfl⟩ | ⟨rfl, rfl⟩
  · rw [Option.toList_none, append_nil]
  · rw [Option.toList_none, nil_append]

theorem filterMap_cons_toList (f : κ → Option ω) (c : κ) (l : List κ) :
    (c :: l).filterMap f = (f c).toList ++ l.filterMap f := by
  rw [filterMap_cons]
  cases f c with
  | none => rfl
  | some o => rfl

theorem perm_append_both {a a' b b' x y : List ω} (ha : a'.Perm (a ++ x))
    (hb : b'.Perm (b ++ y)) : (a' ++ b').Perm ((a ++ b) ++ (x ++ y)) := by
  have hswap : (x ++ (b ++ y)).Perm (b ++ (x ++ y)) := perm_append_comm_assoc x b y
  have hboth : (a' ++ b').Perm (a ++ (x ++ (b ++ y))) := by
    rw [← append_assoc]
    exact ha.append hb
  rw [append_assoc]
  exact hboth.trans (hswap.append_left a)

theorem filterMap_adds {f f' g : κ → Option ω} {l : List κ} (h : ∀ c ∈ l, Adds (f c) (f' c) (g c)) :
    (l.filterMap f').Perm (l.filterMap f ++ l.filterMap g) := by
  induction l with
  | nil => exact .nil
  | cons c l ih =>
    have hc := (h c mem_cons_self).perm
    have hl := ih fun x hx => h x (mem_cons_of_mem c hx)
    simp only [filterMap_cons_toList]
    exact perm_append_both hc hl

theorem filterMap_set_perm (f : κ → Option ω) {calls : List κ} {k : Nat} {c : κ}
    (hk : calls[k]? = some c) (c' : κ) :
    ((calls.set k c').filterMap f).Perm ((f c').toList ++ (calls.eraseIdx k).filterMap f) := by
  have hlt : k < (calls.set k c').length := by
    rw [length_set]
    exact (List.getElem?_eq_some_iff.mp hk).1
  have hperm := getElem_cons_eraseIdx_perm hlt
  rw [getElem_set_self, eraseIdx_set_eq] at hperm
  rw [← filterMap_cons_toList]
  exact hperm.symm.filterMap f

theorem Explains.step {f f' g : κ → Option ω} {calls : List κ} {k : Nat} {c c' : κ}
    {o : Option ω} {v v' : ν} (h : Explains apply look d (calls.filterMap f) v)
    (hk : calls[k]? = some c) (hown : Adds (f c) (f' c') o)
    (hrest : ∀ x ∈ calls.eraseIdx k, Adds (f x) (f' x) (g x)) (hlook : ∀ e, look e = v →
      look ((o.toList ++ (calls.eraseIdx k).filterMap g).foldl apply e) = v') :
    Explains apply look d ((calls.set k c').filterMap f') v' := by
  obtain ⟨order, hperm, hv⟩ := h
  have hbefore : (calls.filterMap f).Perm
      ((f c).toList ++ (calls.eraseIdx k).filterMap f) := by
    have hset : calls.set k c = calls := by
      obtain ⟨hlt, rfl⟩ := List.getElem?_eq_some_iff.mp hk
      exact set_getElem_self hlt
    have h := filterMap_set_perm f hk c
    rw [hset] at h
    exact h
  have hafter := (filterMap_set_perm f' hk c').trans
    (perm_append_both hown.perm (filterMap_adds hrest))
  refine ⟨order ++ (o.toList ++ (calls.eraseIdx k).filterMap g), ?_, ?_⟩
  · exact ((hperm.trans hbefore).append_right _).trans hafter.symm
  · rw [foldl_append]
    exact hlook _ hv

theorem Explains.start {f : κ → Option ω}
    (h : Explains apply look d (calls.filterMap f) v) (hc : f c = none) :
    Explains apply look d ((calls ++ [c]).filterMap f) v := by
  rw [filterMap_append, filterMap_cons_none hc, filterMap_nil, append_nil]
  exact h

end Lib.Linear
