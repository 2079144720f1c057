import Helens.Dict
import Helens.Lib.Visits

/-! The loops over all nodes, `HashMap::rforeach` and `Dict::foreach`. Both hand copies of the
nodes to a callback, bucket after bucket. A call that returns false ends `rforeach`, but only the
bucket it is in for `foreach`. -/

namespace Helens.Ds

open Lib.Runs Lib.SortedVector Lib.Visits List

variable {K V σ : Type}

/-! ## The code -/

def HashMap.rforeach (cb : σ → K × V → σ × Bool) (t : Table K V) (s : σ) : Except HashError σ := do
  let bs ← t.allBuckets
  .ok (visit cb bs.flatten (s, false)).1

/-- The callback gets the key, and `val` and `size`. The `break` leaves the inner loop. -/
def Dict.foreach (cb : σ → K × Values V → σ × Bool) (d : Dict K V) (s : σ) :
    Except HashError σ := do
  let bs ← d.table.allBuckets
  .ok (visitGroups cb bs s)

/-! ## The calls -/

variable [LinearOrder K] {hash : K → Nat}

theorem Table.Inv.nodup_calls {β : Type} {t : Table K β} (h : t.Inv hash)
    {calls : List ((K × β) × Bool)} (hsub : (calls.map Prod.fst).Sublist t.nodes) :
    (calls.map fun e => e.1.1).Nodup := by
  have hkeys := hsub.map Prod.fst
  rw [map_map] at hkeys
  exact h.nodup.sublist hkeys

omit [LinearOrder K] in
theorem Table.mem_calls {β : Type} {t : Table K β} {calls : List ((K × β) × Bool)}
    (hall : calls.map Prod.fst = t.nodes) : ∀ k ∈ t.nodes.map Prod.fst,
      k ∈ calls.map fun e => e.1.1 := by
  intro k hk
  rw [← hall, map_map] at hk
  exact hk

/-- Each key is visited at most once. No call follows one that returned false, exactly if the
buckets behind it are empty. -/
theorem Dict.foreach_calls (d : Dict K V) (h : d.table.Inv hash) (cb : σ → K × Values V → σ × Bool)
    (s : σ) :
    Post (fun r => (r.2.map fun e => e.1.1).Nodup ∧ ((∀ e ∈ r.2, e.2 = true) →
          ∀ k ∈ d.table.nodes.map Prod.fst, k ∈ r.2.map fun e => e.1.1) ∧
        ((∀ e ∈ r.2.dropLast, e.2 = true) ↔ (groupsLeft cb d.table.buckets s).flatten = []) ∧
        (HashMap.rforeach (logged cb) d.table (s, []) = .ok r ↔
          (groupsLeft cb d.table.buckets s).flatten = []))
      (fun _ => False) (foreach (logged cb) d (s, [])) := by
  have hbuckets := h.rep.allBuckets_eq
  have hrforeach : HashMap.rforeach (logged cb) d.table (s, []) =
      .ok (visit (logged cb) d.table.buckets.flatten ((s, []), false)).1 := by
    rw [HashMap.rforeach, hbuckets]
    rfl
  obtain ⟨calls, hcalls, hsub, hall, -⟩ := visitGroups_logged cb d.table.buckets s []
  obtain ⟨first, rest, hfirst, hboth, hvisited, hrest, hstop⟩ :=
    visitGroups_calls cb d.table.buckets s
  rw [nil_append] at hcalls
  apply post_bind_ok hbuckets
  rw [post_ok, hrforeach, Except.ok.injEq, ← hrest]
  refine ⟨?_, ?_, ⟨fun htrue => ?_, ?_⟩, ⟨fun hsame => ?_, fun hnil => ?_⟩⟩
  · rw [hcalls]
    exact h.nodup_calls hsub
  · rw [hcalls]
    exact fun htrue => Table.mem_calls (hall htrue)
  · by_contra hne
    obtain ⟨e, he, hfalse⟩ := hstop hne
    rw [hboth, dropLast_append_of_ne_nil hne] at htrue
    rw [htrue e (mem_append_left _ he)] at hfalse
    cases hfalse
  · rintro rfl
    rw [hboth, append_nil]
    exact hvisited.stops
  · rw [← hsame, hfirst] at hboth
    exact append_right_eq_self.mp hboth.symm
  · rw [visitGroups_eq, groupsLeft_logged, visitGroups_of_flatten (hrest.mp hnil)]

def Dict.pair : Dict Nat Nat :=
  { table := ⟨2, 2, some [[(2, ⟨1, .own [20]⟩)], [(1, ⟨1, .own [10]⟩)]]⟩
    values := []
    reserved := false }

theorem Dict.pair_inv : Dict.pair.table.Inv id := by
  refine ⟨⟨1, by decide, rfl⟩, rfl, ⟨rfl, ?_, ?_⟩, rfl⟩
  · intro i b hb
    rcases i with _ | _ | i
    · cases hb
      exact pairwise_singleton _ _
    · cases hb
      exact pairwise_singleton _ _
    · cases hb
  · intro i b hb
    rcases i with _ | _ | i
    · cases hb
      decide
    · cases hb
      decide
    · cases hb

theorem Dict.foreach_calls_pair :
    (groupsLeft (fun (n : Nat) (x : Nat × Values Nat) => (n + 1, decide (x.1 ≠ 1)))
      Dict.pair.table.buckets 0).flatten = [] ∧
    Post (fun r => ∀ e ∈ r.2.dropLast, e.2 = true) (fun _ => False)
      (Dict.foreach (logged fun (n : Nat) (x : Nat × Values Nat) => (n + 1, decide (x.1 ≠ 1)))
        Dict.pair (0, [])) := by
  have hleft : (groupsLeft (fun (n : Nat) (x : Nat × Values Nat) => (n + 1, decide (x.1 ≠ 1)))
      Dict.pair.table.buckets 0).flatten = [] := by decide
  refine ⟨hleft, ?_⟩
  apply (Dict.foreach_calls Dict.pair Dict.pair_inv _ 0).imp
  exact fun r hr => hr.2.2.1.mpr hleft

/-- A callback that counts its calls and returns false is called once by `rforeach`, and once for
each bucket by `foreach`. -/
theorem Dict.foreach_goes_on :
    (do let d : Dict Nat Nat ← Dict.new 1
        let d ← Dict.insert id (.insertion Prod.fst) d 1 [10]
        let d ← Dict.insert id (.insertion Prod.fst) d 2 [20]
        let n ← Dict.foreach (fun (n : Nat) _ => (n + 1, false)) d 0
        let m ← HashMap.rforeach (fun (n : Nat) _ => (n + 1, false)) d.table 0
        .ok (n, m)) = .ok (2, 1) := by
  decide +kernel

end Helens.Ds
