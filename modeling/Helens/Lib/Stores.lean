import Helens.Lib.Runs

/-! Objects that are made one after the other and called by number, with the answers to all
calls, side by side with a second store that says what they should be. -/

namespace Lib.Stores

open Lib.Runs List

variable {σ τ α ε : Type}

structure Store (σ α : Type) where
  objects : List σ
  answers : List α
  deriving DecidableEq

namespace Store

def empty : Store σ α := ⟨[], []⟩

def make (s : Store σ α) (x : σ) : Store σ α := { s with objects := s.objects ++ [x] }

def call (s : Store σ α) (i : Nat) (f : σ → Except ε (σ × List α)) : Except ε (Store σ α) :=
  match s.objects[i]? with
  | none => .ok s
  | some x => do
    let (x', as) ← f x
    .ok ⟨s.objects.set i x', s.answers ++ as⟩

def reply (s : Store τ α) (i : Nat) (g : τ → τ × List α) : Store τ α :=
  match s.objects[i]? with
  | none => s
  | some y => ⟨s.objects.set i (g y).1, s.answers ++ (g y).2⟩

structure Matches (R : σ → τ → Prop) (s : Store σ α) (r : Store τ α) : Prop where
  length : s.objects.length = r.objects.length
  related : ∀ (i : Nat) x y, s.objects[i]? = some x → r.objects[i]? = some y → R x y
  answers : s.answers = r.answers

variable {R : σ → τ → Prop} {s : Store σ α} {r : Store τ α}

theorem Matches.empty : Matches R (Store.empty : Store σ α) Store.empty := by
  constructor
  · rfl
  · intro i x y hx
    simp [Store.empty] at hx
  · rfl

variable {x : σ} {i : Nat} {f : σ → Except ε (σ × List α)} {Q : ε → Prop}

theorem Matches.make (h : Matches R s r) (hxy : R x y) : Matches R (s.make x) (r.make y) := by
  constructor
  · simp [Store.make, h.length]
  · intro i x' y' hx hy
    have hlen := h.length
    rcases getElem?_concat_iff.mp hx with hx | ⟨hi, rfl⟩
    · rcases getElem?_concat_iff.mp hy with hy | ⟨hi', -⟩
      · exact h.related i x' y' hx hy
      · have hlt := (List.getElem?_eq_some_iff.mp hx).1
        omega
    · rcases getElem?_concat_iff.mp hy with hy | ⟨-, rfl⟩
      · have hlt := (List.getElem?_eq_some_iff.mp hy).1
        omega
      · exact hxy
  · exact h.answers

theorem Matches.exists_right (h : Matches R s r) (hx : s.objects[i]? = some x) :
    ∃ y, r.objects[i]? = some y ∧ R x y := by
  have hi : i < r.objects.length := by
    rw [← h.length]
    exact (List.getElem?_eq_some_iff.mp hx).1
  have hy := getElem?_eq_getElem hi
  exact ⟨_, hy, h.related i x _ hx hy⟩

theorem Matches.exists_left (h : Matches R s r) (hr : r.objects = [y]) :
    ∃ x, s.objects[0]? = some x ∧ R x y := by
  obtain ⟨x, hs⟩ : ∃ x, s.objects = [x] := by
    apply length_eq_one_iff.mp
    rw [h.length, hr]
    rfl
  have hx : s.objects[0]? = some x := by rw [hs]; rfl
  have hy : r.objects[0]? = some y := by rw [hr]; rfl
  exact ⟨x, hx, h.related 0 x y hx hy⟩

theorem Matches.call {g : τ → τ × List α} (h : Matches R s r)
    (hf : ∀ x y, s.objects[i]? = some x → r.objects[i]? = some y → R x y →
      Post (fun o => R o.1 (g y).1 ∧ o.2 = (g y).2) Q (f x)) :
    Post (fun s' => Matches R s' (r.reply i g)) Q (s.call i f) := by
  unfold Store.call Store.reply
  cases hx : s.objects[i]? with
  | none =>
    have hy : r.objects[i]? = none := by
      rw [getElem?_eq_none_iff] at hx ⊢
      rwa [← h.length]
    rw [hy]
    exact h
  | some x =>
    obtain ⟨y, hy, hxy⟩ := h.exists_right hx
    rw [hy]
    apply (hf x y hx hy hxy).bind
    rintro ⟨x', as⟩ ⟨hR, has⟩
    constructor
    · simp [h.length]
    · intro j z w hz hw
      rcases (getElem?_set_iff hx x').mp hz with ⟨rfl, rfl⟩ | ⟨hj, hz⟩
      · rcases (getElem?_set_iff hy _).mp hw with ⟨-, rfl⟩ | ⟨hne, -⟩
        · exact hR
        · exact absurd rfl hne
      · rcases (getElem?_set_iff hy _).mp hw with ⟨rfl, -⟩ | ⟨-, hw⟩
        · exact absurd rfl hj
        · exact h.related j z w hz hw
    · rw [h.answers, show as = (g y).2 from has]

theorem forall_make {I : σ → Prop} (h : ∀ x ∈ s.objects, I x) (hx : I x) :
    ∀ y ∈ (s.make x).objects, I y := by
  intro y hy
  rcases mem_append.mp hy with hy | hy
  · exact h y hy
  · rw [mem_singleton.mp hy]
    exact hx

theorem post_call {P : Store σ α → Prop} (hx : s.objects[i]? = some x)
    (hf : Post (fun o => P ⟨s.objects.set i o.1, s.answers ++ o.2⟩) Q (f x)) :
    Post P Q (s.call i f) := by
  rw [Store.call, hx]
  apply hf.bind
  rintro ⟨x', as⟩ ho
  exact ho

theorem post_call_at {J : σ → Prop} (hx : s.objects[i]? = some x)
    (hf : Post (fun o => J o.1) Q (f x)) :
    Post (fun s' => ∃ x', s'.objects[i]? = some x' ∧ J x') Q (s.call i f) := by
  have hlt : i < s.objects.length := (List.getElem?_eq_some_iff.mp hx).1
  apply post_call hx
  apply hf.imp
  intro o ho
  exact ⟨o.1, getElem?_set_self hlt, ho⟩

theorem post_call_all {I : σ → Prop} (h : ∀ x ∈ s.objects, I x)
    (hf : ∀ x, s.objects[i]? = some x → I x → Post (fun o => I o.1) Q (f x)) :
    Post (fun s' => ∀ x ∈ s'.objects, I x) Q (s.call i f) := by
  unfold Store.call
  cases hx : s.objects[i]? with
  | none => exact h
  | some x =>
    apply (hf x hx (h x (mem_of_getElem? hx))).bind
    rintro ⟨x', as⟩ hx' y hy
    rcases mem_or_eq_of_mem_set hy with hy | rfl
    · exact h y hy
    · exact hx'

end Store

section
variable {ι : Type} {exec : ι → Store σ α → Except ε (Store σ α)}
  {expected : ι → Store τ α → Store τ α}

def beside (exec : ι → Store σ α → Except ε (Store σ α)) (expected : ι → Store τ α → Store τ α)
    (a : ι) (x : Store σ α × Store τ α) : Except ε (Store σ α × Store τ α) := do
  let s ← exec a x.1
  .ok (s, expected a x.2)

theorem post_beside {P : Store σ α × Store τ α → Prop} {Q : ε → Prop}
    {x : Store σ α × Store τ α} (h : Post (fun s => P (s, expected a x.2)) Q (exec a x.1)) :
    Post P Q (beside exec expected a x) := by
  apply h.bind
  exact fun s hs => hs

theorem post_beside_last {L : Store σ α → Prop} {Q : ε → Prop}
    {x : Store σ α × Store τ α} (hfirst : Post L Q (exec a x.1))
    (hsecond : ∀ s, L s → Post (fun s' => s'.answers.getLast? = some u) Q (exec b s))
    (hexpected : (expected b (expected a x.2)).answers.getLast? = some w) (hne : u ≠ w) :
    Post (fun y => y.1.answers ≠ y.2.answers) Q (run (beside exec expected) [a, b] x) := by
  have hstep : Post (fun y => L y.1 ∧ y.2 = expected a x.2) Q (beside exec expected a x) :=
    post_beside (hfirst.imp (fun s hs => ⟨hs, rfl⟩))
  apply hstep.bind
  rintro ⟨s, r⟩ ⟨hs, hr⟩
  obtain rfl : r = expected a x.2 := hr
  have hlast : Post (fun y => y.1.answers ≠ y.2.answers) Q
      (beside exec expected b (s, expected a x.2)) := by
    apply post_beside
    apply (hsecond s hs).imp
    intro s' hs' heq
    rw [show s'.answers = _ from heq, hexpected] at hs'
    exact hne (Option.some.inj hs').symm
  apply hlast.bind
  exact fun y hy => hy

end

end Lib.Stores
