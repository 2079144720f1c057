import Helens.Lib.Runs
import Mathlib.Data.List.SplitBy

/-! Codes that are read in groups: neighbours that belong together make up one group, which stands
for a stretch of the original. The groups are found again because no group joins the one before it.
-/

namespace Lib.RunLength

open Lib.Runs List

variable {ω β σ ε : Type} {joins : ω → ω → Bool} {means : List ω → List β → Prop}

inductive Codes (joins : ω → ω → Bool) (means : List ω → List β → Prop) :
    List ω → List β → Prop
  | nil : Codes joins means [] []
  | snoc {out g : List ω} {ws vs : List β} (hout : Codes joins means out ws) (hne : g ≠ [])
      (hchain : g.IsChain fun x y => joins x y = true)
      (hapart : ∀ x ∈ out.getLast?, ∀ y ∈ g.head?, joins x y = false) (hmeans : means g vs) :
      Codes joins means (out ++ g) (ws ++ vs)

theorem Codes.foldlM (h : Codes joins means out ws)
    {P : List β → σ → Prop} {Q : ε → Prop} {step : σ → List ω → Except ε σ} (hinit : P [] s)
    (hstep : ∀ pre g vs t, pre ++ vs <+: ws → means g vs → P pre t →
      Post (P (pre ++ vs)) Q (step t g)) : Post (P ws) Q ((out.splitBy joins).foldlM step s) := by
  induction h with
  | nil => exact hinit
  | snoc hout hne hchain hapart hmeans ih =>
    rw [splitBy_append hapart, splitBy_of_isChain hne hchain, foldlM_append]
    have hbefore := ih fun pre g vs t hpre => hstep pre g vs t (hpre.trans (prefix_append ..))
    refine hbefore.bind fun t ht => ?_
    refine (hstep _ _ _ t (prefix_refl _) hmeans ht).bind fun u hu => ?_
    exact hu

theorem Codes.length_le (h : Codes joins means out ws)
    (hle : ∀ g vs, means g vs → g.length ≤ vs.length) : out.length ≤ ws.length := by
  induction h with
  | nil => exact le_refl _
  | snoc hout hne hchain hapart hmeans ih =>
    rw [length_append, length_append]
    exact Nat.add_le_add ih (hle _ _ hmeans)

theorem Codes.map (h : Codes joins means out ws) {f : ω → ω}
    {k : β → β} (hjoins : ∀ x y, joins (f x) (f y) = joins x y)
    (hmeans : ∀ g vs, means g vs → means (g.map f) (vs.map k)) :
    Codes joins means (out.map f) (ws.map k) := by
  induction h with
  | nil => exact .nil
  | @snoc out g ws vs hout hne hchain hapart hg ih =>
    rw [map_append, map_append]
    refine .snoc ih (by simpa using hne) ?_ ?_ (hmeans g vs hg)
    · rw [isChain_map]
      exact hchain.imp fun x y hxy => (hjoins x y).trans hxy
    · intro x hx y hy
      rw [List.getLast?_map] at hx
      rw [List.head?_map] at hy
      obtain ⟨x', hx', rfl⟩ := Option.map_eq_some_iff.mp hx
      obtain ⟨y', hy', rfl⟩ := Option.map_eq_some_iff.mp hy
      rw [hjoins]
      exact hapart x' hx' y' hy'

end Lib.RunLength
