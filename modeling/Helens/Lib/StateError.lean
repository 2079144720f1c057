import Mathlib.Tactic.Common

/-! Running computations that carry a state and may stop with an error. The
state survives an error, so a failed run still says what it left behind. -/

namespace Lib.StateError

variable {ε σ α β : Type}

@[simp] theorem run_map (f : α → β) (x : EStateM ε σ α) (s) :
    (f <$> x).run s = match x.run s with
      | .ok a t => .ok (f a) t
      | .error e t => .error e t := rfl

@[simp] theorem run_throw (e : ε) (s) : (throw e : EStateM ε σ α).run s = .error e s := rfl

@[simp] theorem run_ite (c : Prop) [Decidable c] (x y : EStateM ε σ α) (s) :
    (if c then x else y).run s = if c then x.run s else y.run s := by
  split <;> rfl

variable {s t : σ}

theorem run_bind_ok (h : x.run s = .ok a t)
    (y : α → EStateM ε σ β) : (x >>= y).run s = (y a).run t := by
  rw [EStateM.run_bind, h]

theorem run_bind_error (h : x.run s = .error e t)
    (y : α → EStateM ε σ β) : (x >>= y).run s = .error e t := by
  rw [EStateM.run_bind, h]

theorem run_bind_eq_ok {y : α → EStateM ε σ β}
    (h : (x >>= y).run s = .ok b t) : ∃ a u, x.run s = .ok a u ∧ (y a).run u = .ok b t := by
  cases hx : x.run s with
  | ok a u => exact ⟨a, u, rfl, (run_bind_ok hx y).symm.trans h⟩
  | error e u =>
    rw [run_bind_error hx] at h
    cases h

theorem run_ite_eq_ok {c : Prop} [Decidable c] {x y : EStateM ε σ α} {a : α}
    (h : (if c then x else y).run s = .ok a t) :
    c ∧ x.run s = .ok a t ∨ ¬ c ∧ y.run s = .ok a t := by
  rw [run_ite] at h
  split at h
  · exact .inl ⟨by assumption, h⟩
  · exact .inr ⟨by assumption, h⟩

def Returns (x : EStateM ε σ α) (s : σ) (Q : α → σ → Prop) : Prop :=
  ∃ a t, x.run s = .ok a t ∧ Q a t

theorem returns_pure {Q : α → σ → Prop} (h : Q a s) :
    Returns (pure a : EStateM ε σ α) s Q := ⟨a, s, rfl, h⟩

theorem Returns.bind {y : α → EStateM ε σ β} {P : α → σ → Prop}
    {Q : β → σ → Prop} (hx : Returns x s P) (hy : ∀ a t, P a t → Returns (y a) t Q) :
    Returns (x >>= y) s Q := by
  obtain ⟨a, t, hrun, ha⟩ := hx
  obtain ⟨b, u, hrest, hb⟩ := hy a t ha
  exact ⟨b, u, (run_bind_ok hrun y).trans hrest, hb⟩

/-! ## Runs of many calls -/

/-- The state a call leaves behind, whether it returned or stopped. -/
def stateOf : EStateM.Result ε σ α → σ
  | .ok _ s => s
  | .error _ s => s

def mapResult {τ : Type} (abs : σ → τ) (out : α → β) : EStateM.Result ε σ α → EStateM.Result ε τ β
  | .ok a s => .ok (out a) (abs s)
  | .error e s => .error e (abs s)

def valueOf : EStateM.Result ε σ α → Option α
  | .ok a _ => some a
  | .error _ _ => none

theorem valueOf_ok {s : σ} (h : r = .ok a s) : valueOf r = some a := by
  rw [h]
  rfl

/-- A caller that makes the calls `ops` in turn, and goes on after an error:
every outcome, and the state at the end. -/
def runAll {ι : Type} (exec : ι → EStateM ε σ α) : List ι → σ → List (Except ε α) × σ
  | [], s => ([], s)
  | op :: ops, s =>
    match (exec op).run s with
    | .ok a t => (.ok a :: (runAll exec ops t).1, (runAll exec ops t).2)
    | .error e t => (.error e :: (runAll exec ops t).1, (runAll exec ops t).2)

theorem runAll_simulates {ι τ : Type} (exec : ι → EStateM ε σ α) (spec : ι → EStateM ε τ β)
    (abs : σ → τ) (out : α → β) (Inv : σ → Prop) (Ok : ι → Prop)
    (hstep : ∀ op s, Ok op → Inv s → mapResult abs out ((exec op).run s) = (spec op).run (abs s) ∧
      Inv (stateOf ((exec op).run s)))
    (ops s) (hops : ∀ op ∈ ops, Ok op) (hs : Inv s) :
    (runAll exec ops s).1.map (·.map out) = (runAll spec ops (abs s)).1 ∧
      abs (runAll exec ops s).2 = (runAll spec ops (abs s)).2 ∧ Inv (runAll exec ops s).2 := by
  induction ops generalizing s with
  | nil => exact ⟨rfl, rfl, hs⟩
  | cons op ops ih =>
    obtain ⟨hres, hinv⟩ := hstep op s (hops op (by simp)) hs
    have hrest : ∀ o ∈ ops, Ok o := fun o ho => hops o (by simp [ho])
    cases hx : (exec op).run s with
    | ok a t | error a t =>
      rw [hx] at hres hinv
      obtain ⟨h1, h2, h3⟩ := ih t hrest hinv
      refine ⟨?_, ?_, ?_⟩
      · simp only [runAll, hx, ← hres, mapResult, List.map_cons, h1]
        rfl
      · simp [runAll, hx, ← hres, mapResult, h2]
      · simpa [runAll, hx] using h3

theorem runAll_keeps {ι : Type} (exec : ι → EStateM ε σ α) (Inv : σ → Prop)
    (h : ∀ op s, Inv s → Inv (stateOf ((exec op).run s))) (ops s) (hs : Inv s) :
    Inv (runAll exec ops s).2 := by
  induction ops generalizing s with
  | nil => exact hs
  | cons op ops ih =>
    have hstep := h op s hs
    cases hx : (exec op).run s with
    | ok a t | error a t =>
      rw [hx] at hstep
      simpa [runAll, hx] using ih t hstep

theorem error_mem_runAll {ι : Type} (exec : ι → EStateM ε σ α) (P : ε → Prop)
    (h : ∀ op s e t, (exec op).run s = .error e t → P e) (ops s) (e : ε)
    (he : .error e ∈ (runAll exec ops s).1) : P e := by
  induction ops generalizing s with
  | nil => simp [runAll] at he
  | cons op ops ih =>
    cases hx : (exec op).run s with
    | ok a t =>
      simp only [runAll, hx, List.mem_cons, reduceCtorEq, false_or] at he
      exact ih t he
    | error e' t =>
      simp only [runAll, hx, List.mem_cons, Except.error.injEq] at he
      rcases he with rfl | he
      · exact h op s e t hx
      · exact ih t he

end Lib.StateError
