import Mathlib.Order.Basic
import Mathlib.Tactic.Common

/-! Loops that may go on for ever: rounds on a state, each of which leaves another state or
returns. -/

namespace Lib.WhileLoops

variable {σ ρ : Type}

def iterate (round : σ → σ ⊕ ρ) : Nat → σ → Option ρ
  | 0, _ => none
  | fuel + 1, s =>
    match round s with
    | .inl s' => iterate round fuel s'
    | .inr res => some res

def Returns (round : σ → σ ⊕ ρ) (s : σ) (res : ρ) : Prop := ∃ fuel, iterate round fuel s = some res

variable {round : σ → σ ⊕ ρ}

theorem iterate_inl (h : round s = .inl s') (fuel) :
    iterate round (fuel + 1) s = iterate round fuel s' := by
  rw [iterate, h]

theorem iterate_inr (h : round s = .inr res) (fuel) : iterate round (fuel + 1) s = some res := by
  rw [iterate, h]

theorem returns_inl (h : round s = .inl s') : Returns round s res ↔ Returns round s' res := by
  constructor
  · rintro ⟨fuel, hfuel⟩
    cases fuel with
    | zero => cases hfuel
    | succ fuel => exact ⟨fuel, iterate_inl h fuel ▸ hfuel⟩
  · rintro ⟨fuel, hfuel⟩
    exact ⟨fuel + 1, (iterate_inl h fuel).trans hfuel⟩

theorem returns_inr (h : round s = .inr res') : Returns round s res ↔ res = res' := by
  constructor
  · rintro ⟨fuel, hfuel⟩
    cases fuel with
    | zero => cases hfuel
    | succ fuel => exact Option.some.inj (hfuel.symm.trans (iterate_inr h fuel))
  · rintro rfl
    exact ⟨1, iterate_inr h 0⟩

theorem Returns.unique (h : Returns round s res) (h' : Returns round s res') : res = res' := by
  obtain ⟨fuel, hfuel⟩ := h
  induction fuel generalizing s with
  | zero => cases hfuel
  | succ fuel ih =>
    cases hround : round s with
    | inl t =>
      rw [iterate_inl hround] at hfuel
      exact ih ((returns_inl hround).mp h') hfuel
    | inr t =>
      rw [iterate_inr hround] at hfuel
      rw [(returns_inr hround).mp h']
      exact (Option.some.inj hfuel).symm

theorem not_returns_of_same (h : round s = .inl s) : ¬ Returns round s res := by
  rintro ⟨fuel, hfuel⟩
  induction fuel with
  | zero => cases hfuel
  | succ fuel ih => exact ih (iterate_inl h fuel ▸ hfuel)

theorem iterate_of_measure {I : σ → Prop} {P : ρ → Prop} (m : σ → Nat)
    (more : ∀ s s', I s → round s = .inl s' → I s' ∧ m s' < m s)
    (done : ∀ s res, I s → round s = .inr res → P res) :
    ∀ fuel s, I s → m s < fuel → ∃ res, iterate round fuel s = some res ∧ P res := by
  intro fuel
  induction fuel with
  | zero =>
    intro s _ hlt
    exact absurd hlt (Nat.not_lt_zero _)
  | succ fuel ih =>
    intro s hs hlt
    cases hround : round s with
    | inl s' =>
      obtain ⟨hs', hless⟩ := more s s' hs hround
      obtain ⟨res, hres, hP⟩ := ih s' hs' (by omega)
      exact ⟨res, (iterate_inl hround fuel).trans hres, hP⟩
    | inr res => exact ⟨res, iterate_inr hround fuel, done s res hs hround⟩

end Lib.WhileLoops
