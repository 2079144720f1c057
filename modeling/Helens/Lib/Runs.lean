import Mathlib.Algebra.GroupWithZero.Nat
import Mathlib.Data.List.Induction

/-! Runs of a machine whose steps may stop it for good. An action is one atomic
step, with every choice that is not the machine's own written into it, so a list
of actions is a schedule and `run` is the only run under that schedule. -/

namespace Lib.Runs

open List

variable {σ τ α ε : Type}

/-! ## Outcomes -/

def Post (P : σ → Prop) (Q : ε → Prop) : Except ε σ → Prop
  | .ok s => P s
  | .error e => Q e

abbrev Never (_ : ε) : Prop := False

instance (P : σ → Prop) (Q : ε → Prop) [DecidablePred P] [DecidablePred Q] :
    (x : Except ε σ) → Decidable (Post P Q x)
  | .ok s => inferInstanceAs (Decidable (P s))
  | .error e => inferInstanceAs (Decidable (Q e))

@[simp] theorem post_ok (P : σ → Prop) (Q : ε → Prop) (s) : Post P Q (.ok s) ↔ P s := Iff.rfl

@[simp] theorem post_error (P : σ → Prop) (Q : ε → Prop) (e : ε) :
    Post P Q (.error e) ↔ Q e := Iff.rfl

variable {x : Except ε σ} {P : σ → Prop} {s : σ} {xs : List α} {i : Nat}

theorem Post.mono {P P' : σ → Prop} {Q Q' : ε → Prop} (h : Post P Q x) (hP : ∀ s, P s → P' s)
    (hQ : ∀ e, Q e → Q' e) : Post P' Q' x := by
  cases x with
  | ok s => exact hP s h
  | error e => exact hQ e h

theorem Post.imp {P' : σ → Prop} {Q : ε → Prop} (h : Post P Q x) (hP : ∀ s, P s → P' s) :
    Post P' Q x := h.mono hP fun _ => id

theorem Post.of_ok {Q : ε → Prop} (h : Post P Q x) (hx : x = .ok s) : P s := by
  rw [hx] at h
  exact h

theorem Post.exists_ok (h : Post P Never x) : ∃ s, x = .ok s ∧ P s := by
  cases x with
  | ok s => exact ⟨s, rfl, h⟩
  | error e => exact h.elim

theorem Post.eq_ok (h : Post (· = s) Never x) : x = .ok s := by
  cases x with
  | ok t => exact congrArg _ h
  | error e => exact h.elim

theorem bind_eq_ok {f : σ → Except ε τ} {t : τ} :
    x >>= f = .ok t ↔ ∃ s, x = .ok s ∧ f s = .ok t := by
  cases x with
  | error e => exact ⟨nofun, nofun⟩
  | ok s => exact ⟨fun h => ⟨s, rfl, h⟩, fun ⟨_, rfl, h⟩ => h⟩

theorem Post.bind {P' : τ → Prop} {Q : ε → Prop} {f : σ → Except ε τ} (h : Post P Q x)
    (hf : ∀ s, P s → Post P' Q (f s)) : Post P' Q (x >>= f) := by
  cases x with
  | ok s => exact hf s h
  | error e => exact h

theorem Post.bind_eq {P' : τ → Prop} {Q : ε → Prop} {f : σ → Except ε τ} (h : Post P Q x)
    (hf : ∀ s, x = .ok s → P s → Post P' Q (f s)) : Post P' Q (x >>= f) := by
  cases x with
  | ok s => exact hf s rfl h
  | error e => exact h

theorem post_bind_ok {P : τ → Prop} {Q : ε → Prop} {f : σ → Except ε τ} (hx : x = .ok a)
    (hf : Post P Q (f a)) : Post P Q (x >>= f) := by
  rw [hx]
  exact hf

theorem post_foldlM {P : List α → σ → Prop} {Q : ε → Prop}
    {step : σ → α → Except ε σ} (hinit : P [] s)
    (hstep : ∀ pre a t, pre ++ [a] <+: l → P pre t → Post (P (pre ++ [a])) Q (step t a)) :
    Post (P l) Q (l.foldlM step s) := by
  induction l using reverseRecOn with
  | nil => exact hinit
  | append_singleton l a ih =>
    rw [foldlM_append]
    have hbefore := ih fun pre b t hpre => hstep pre b t (hpre.trans (prefix_append ..))
    refine hbefore.bind fun t ht => ?_
    refine (hstep l a t (prefix_refl _) ht).bind fun u hu => ?_
    exact hu

theorem forM_eq_ok {l : List α} {f : α → Except ε Unit} (h : ∀ a ∈ l, f a = .ok ()) :
    l.forM f = .ok () := by
  induction l with
  | nil => rfl
  | cons a l ih =>
    rw [List.forM, h a mem_cons_self]
    exact ih fun b hb => h b (mem_cons_of_mem a hb)

/-! ## Runs -/

section
variable (exec : α → σ → Except ε σ)

/-- The run under a schedule: it ends with the schedule, or where a step stops
the machine. -/
def run : List α → σ → Except ε σ
  | [], s => .ok s
  | a :: as, s => exec a s >>= run as

/-- Every step of the run is taken in a state that `C` allows for it. -/
def Along (C : σ → α → Prop) : List α → σ → Prop
  | [], _ => True
  | a :: as, s => C s a ∧ Post (Along C as) (fun _ => True) (exec a s)

instance decidableAlong (C : σ → α → Prop) [∀ s a, Decidable (C s a)] :
    (as : List α) → (s : σ) → Decidable (Along exec C as s)
  | [], _ => inferInstanceAs (Decidable True)
  | a :: as, s =>
    have : DecidablePred (Along exec C as) := decidableAlong C as
    inferInstanceAs (Decidable (_ ∧ _))

variable {exec} {C : σ → α → Prop} {I : σ → Prop} {Q : ε → Prop}

/-- The invariant rule: what every allowed step keeps holds at the end of every
allowed run, and a run stops only where a step may. -/
theorem post_run (step : ∀ s a, I s → C s a → Post I Q (exec a s)) (as) :
    ∀ s, Along exec C as s → I s → Post I Q (run exec as s) := by
  induction as with
  | nil =>
    intro s _ hs
    exact hs
  | cons a as ih =>
    intro s hC hs
    have hstep := step s a hs hC.1
    have hrest := hC.2
    unfold run
    cases hx : exec a s with
    | ok t =>
      rw [hx] at hstep hrest
      exact ih t hrest hstep
    | error e =>
      rw [hx] at hstep
      exact hstep

theorem post_run_all (step : ∀ s a, I s → Post I Q (exec a s)) (as s) (hs : I s) :
    Post I Q (run exec as s) := by
  have hall : ∀ as s, Along exec (fun _ _ => True) as s := by
    intro as
    induction as with
    | nil => exact fun _ => trivial
    | cons a as ih =>
      intro s
      refine ⟨trivial, ?_⟩
      cases exec a s with
      | ok t => exact ih t
      | error e => trivial
  exact post_run (fun s a h _ => step s a h) as s (hall as s) hs

theorem run_append (as bs s) : run exec (as ++ bs) s = run exec as s >>= run exec bs := by
  induction as generalizing s with
  | nil => rfl
  | cons a as ih =>
    rw [cons_append, run, run]
    cases exec a s with
    | ok t => exact ih t
    | error e => rfl

/-- A run over the numbers below `n`, from what holds after each of them. -/
theorem post_run_range {P : Nat → σ → Prop} {f : Nat → α} (hinit : P 0 s)
    (hstep : ∀ i t, i < n → P i t → Post (P (i + 1)) Q (exec (f i) t)) :
    Post (P n) Q (run exec ((range n).map f) s) := by
  induction n with
  | zero => exact hinit
  | succ n ih =>
    rw [range_succ, map_append, run_append]
    apply (ih fun i t hi => hstep i t (by omega)).bind
    intro t ht
    apply (hstep n t (by omega) ht).bind
    exact fun u hu => hu

theorem along_append {s t : σ} (h : Along exec C (as ++ bs) s)
    (hrun : run exec as s = .ok t) : Along exec C as s ∧ Along exec C bs t := by
  induction as generalizing s with
  | nil =>
    cases hrun
    exact ⟨trivial, h⟩
  | cons a as ih =>
    obtain ⟨ha, hrest⟩ := h
    unfold run at hrun
    cases hx : exec a s with
    | ok u =>
      rw [hx] at hrest hrun
      obtain ⟨h₁, h₂⟩ := ih hrest hrun
      refine ⟨⟨ha, ?_⟩, h₂⟩
      rw [hx]
      exact h₁
    | error e =>
      rw [hx] at hrun
      cases hrun

end

/-! ## Parts of a state -/

theorem sum_map_set (f : α → Nat) {x : α} (h : xs[i]? = some x) (y) :
    ((xs.set i y).map f).sum + f x = (xs.map f).sum + f y := by
  induction xs generalizing i with
  | nil => cases h
  | cons z xs ih =>
    cases i with
    | zero =>
      cases h
      simp only [set_cons_zero, map_cons, sum_cons]
      omega
    | succ i =>
      have := ih h
      simp only [set_cons_succ, map_cons, sum_cons]
      omega

theorem getElem?_set_iff {x : α} (h : xs[i]? = some x) (y)
    : (xs.set i y)[k]? = some z ↔ k = i ∧ z = y ∨ k ≠ i ∧ xs[k]? = some z := by
  have hi : i < xs.length := (List.getElem?_eq_some_iff.mp h).1
  by_cases hk : k = i
  · subst hk
    simp [hi, eq_comm]
  · simp [hk, getElem?_set_ne (Ne.symm hk)]

theorem getElem?_mapIdx_iff {f : Nat → α → σ} :
    (xs.mapIdx f)[k]? = some z ↔ ∃ x, xs[k]? = some x ∧ f k x = z := by
  rw [getElem?_mapIdx, Option.map_eq_some_iff]

theorem getElem?_concat_iff {x : α} :
    (xs ++ [x])[k]? = some z ↔ xs[k]? = some z ∨ k = xs.length ∧ z = x := by
  rw [getElem?_append]
  split
  · rename_i hlt
    have hne : k ≠ xs.length := Nat.ne_of_lt hlt
    simp [hne]
  · rename_i hge
    have hnone : xs[k]? = none := getElem?_eq_none (Nat.not_lt.mp hge)
    rw [hnone, getElem?_singleton]
    split
    · have hk : k = xs.length := by omega
      simp [hk, eq_comm]
    · have hk : k ≠ xs.length := by omega
      simp [hk]

theorem mem_iff_eraseIdx {x : α} (h : xs[i]? = some x) (z) :
    z ∈ xs ↔ z = x ∨ z ∈ xs.eraseIdx i := by
  rw [mem_iff_getElem?, mem_eraseIdx_iff_getElem?]
  constructor
  · rintro ⟨j, hj⟩
    by_cases hij : j = i
    · left
      rw [hij, h] at hj
      exact (Option.some.inj hj).symm
    · exact .inr ⟨j, hij, hj⟩
  · rintro (rfl | ⟨j, _, hj⟩)
    · exact ⟨i, h⟩
    · exact ⟨j, hj⟩

theorem mem_set_iff_eraseIdx {x : α} (h : xs[i]? = some x) (y z) :
    z ∈ xs.set i y ↔ z = y ∨ z ∈ xs.eraseIdx i := by
  have hi : i < xs.length := (List.getElem?_eq_some_iff.mp h).1
  have hset : (xs.set i y)[i]? = some y := by simp [hi]
  rw [mem_iff_eraseIdx hset, eraseIdx_set_eq]

end Lib.Runs
