import Helens.HashRoundtrip
import Helens.Lib.Visits

/-! `clear` and `wforeach` of `HashMap`. `clear` leaves no bucket, so every call that looks for a
key divides by zero. `wforeach` hands copies of the nodes to the callback, so what the callback
writes is lost. -/

namespace Helens.Ds.HashMap

open Lib.Runs Lib.SortedVector Lib.FiniteMap Lib.Visits List

variable {K V σ : Type} [LinearOrder K] (hash : K → Nat) (sorter : Sorter (K × V) Prod.fst)

/-! ## After `clear` -/

/-- The calls on one map. It is merged with another one, or with itself. -/
inductive Later (K V : Type)
  | get (k : K)
  | existsKey (k : K)
  | set (k : K) (v : V)
  | del (k : K)
  | rehash
  | merge (oth : Option (Table K V))

def Later.exec : Later K V → Table K V × List (Answer V) →
    Except HashError (Table K V × List (Answer V))
  | .get k, x => do
    let v ← HashMap.get hash x.1 k
    .ok (x.1, x.2 ++ [.value v])
  | .existsKey k, x => do
    let found ← HashMap.existsKey hash x.1 k
    .ok (x.1, x.2 ++ [.flag found])
  | .set k v, x => do
    let (t, isNew) ← HashMap.set hash sorter x.1 k v
    .ok (t, x.2 ++ [.flag isNew])
  | .del k, x => do
    let (t, found) ← HashMap.del hash sorter x.1 k
    .ok (t, x.2 ++ [.flag found])
  | .rehash, x => do
    let t ← x.1.rehash hash sorter
    .ok (t, x.2)
  | .merge oth, x => do
    let t ← HashMap.merge hash sorter x.1 (oth.getD x.1)
    .ok (t, x.2)

def Later.Idle : Later K V → Prop
  | .rehash => True
  | .merge oth => ∀ u ∈ oth, u.nodes = []
  | _ => False

def Later.Sound : Later K V → Prop
  | .merge oth => ∀ u ∈ oth, Valid hash u
  | _ => True

/-- Both runs end, with the same answers and the same pairs. -/
def Alike (x y : Except HashError (Table K V × List (Answer V))) : Prop :=
  ∃ r r', x = .ok r ∧ y = .ok r' ∧ r.2 = r'.2 ∧ r.1.nodes.Perm r'.1.nodes

variable {hash} {sorter} {t : Table K V}

structure Empty (t : Table K V) : Prop where
  rate : t.needRehash = false
  allNodes : t.allNodes = .ok []
  nodes : t.nodes = []

omit [LinearOrder K] in
theorem Cleared.empty (h : Cleared t) : Empty t := by
  refine ⟨?_, ?_, h.nodes⟩
  · rw [Table.needRehash, h.1, h.2.1]
    decide
  · exact Table.allNodes_of_size h.1

omit [LinearOrder K] in
theorem empty_new (h : Table.new size = .ok t) : Empty t := by
  unfold Table.new at h
  cases hsize : basket (asInt size) with
  | error e =>
    rw [hsize] at h
    cases h
  | ok n =>
    rw [hsize] at h
    obtain rfl := Except.ok.inj h
    refine ⟨?_, ?_, ?_⟩
    · have hzero : asDouble 0 = 0 := by decide
      rw [Table.needRehash, Table.withBuckets, hzero, Nat.zero_mul]
      exact decide_eq_false (Nat.not_lt_zero _)
    · rw [Table.allNodes, Table.allBuckets, Table.withBuckets]
      dsimp only
      split
      · rfl
      · rw [if_neg (by simp), take_of_length_le (by simp)]
        exact congrArg Except.ok flatten_replicate_nil
    · exact flatten_replicate_nil

theorem Valid.allNodes_eq (h : Valid hash t) : t.allNodes = .ok t.nodes := by
  rcases h with h | h
  · exact h.rep.allNodes_eq
  · rw [h.empty.allNodes, h.nodes]

theorem Later.exec_idle (h : Empty t) {a : Later K V} (hidle : a.Idle) (hsound : a.Sound hash)
    (as) : a.exec hash sorter (t, as) = .ok (t, as) := by
  cases a with
  | get | existsKey | set | del => exact hidle.elim
  | rehash =>
    rw [Later.exec, Table.rehash, h.rate]
    rfl
  | merge oth =>
    have hnone : (oth.getD t).allNodes = .ok [] := by
      cases oth with
      | none => exact h.allNodes
      | some u =>
        have hu : Valid hash u := hsound u rfl
        have hnodes := Valid.allNodes_eq hu
        rw [hidle u rfl] at hnodes
        exact hnodes
    rw [Later.exec, HashMap.merge, hnone]
    rfl

def Stops {α : Type} (x : Except HashError α) : Prop :=
  Post (fun _ => False) (· = .remainderByZero) x

theorem Stops.bind {α β : Type} {x : Except HashError α} (h : Stops x)
    (f : α → Except HashError β) : Stops (x >>= f) := Post.bind h fun _ => False.elim

theorem Cleared.locate_stops (h : Cleared t) (k) : Stops (t.locate hash k) := by
  rw [h.locate_eq]
  rfl

theorem Cleared.set_stops (h : Cleared t) (k v) : Stops (HashMap.set hash sorter t k v) := by
  rw [HashMap.set, Table.autoRehash_eq]
  apply post_bind_ok h.rehash_eq
  exact (h.locate_stops k).bind _

theorem Later.exec_stops (h : Cleared t) {a : Later K V} (hidle : ¬ a.Idle) (hsound : a.Sound hash)
    (as) : Stops (a.exec hash sorter (t, as)) := by
  cases a with
  | get k => exact ((h.locate_stops k).bind _).bind _
  | existsKey k => exact ((h.locate_stops k).bind _).bind _
  | set k v => exact (h.set_stops k v).bind _
  | del k => exact ((h.locate_stops k).bind _).bind _
  | rehash => exact absurd trivial hidle
  | merge oth =>
    cases oth with
    | none => exact absurd (fun u hu => by cases hu) hidle
    | some u =>
      have hu : Valid hash u := hsound u rfl
      have hnodes := Valid.allNodes_eq hu
      have hne : u.nodes ≠ [] := by
        intro hnil
        apply hidle
        rintro u' hu'
        cases hu'
        exact hnil
      obtain ⟨n, ns, hcons⟩ := exists_cons_of_ne_nil hne
      rw [hcons] at hnodes
      apply Stops.bind
      apply post_bind_ok hnodes
      rw [foldlM_cons]
      exact ((h.set_stops n.1 n.2).bind _).bind _

/-- A cleared map behaves as a new one exactly in the runs that look for no key. -/
theorem clear_alike_iff (t : Table K V) (size : Nat) (fresh : Table K V)
    (hfresh : Table.new size = .ok fresh) (later : List (Later K V))
    (hlater : ∀ a ∈ later, a.Sound hash) :
    Alike (run (Later.exec hash sorter) later (clear t, []))
        (run (Later.exec hash sorter) later (fresh, [])) ↔
      ∀ a ∈ later, a.Idle := by
  have hcleared : Cleared (clear t) := ⟨rfl, rfl, rfl⟩
  have hempty := empty_new hfresh
  induction later with
  | nil =>
    refine iff_of_true ⟨_, _, rfl, rfl, rfl, ?_⟩ nofun
    rw [hcleared.nodes, hempty.nodes]
  | cons a later ih =>
    obtain ⟨ha, hrest⟩ := forall_mem_cons.mp hlater
    rw [forall_mem_cons, run, run]
    by_cases hidle : a.Idle
    · rw [Later.exec_idle hcleared.empty hidle ha, Later.exec_idle hempty hidle ha]
      exact (ih hrest).trans (and_iff_right hidle).symm
    · refine iff_of_false ?_ fun hall => hidle hall.1
      rintro ⟨r, r', hr, -⟩
      exact ((Later.exec_stops hcleared hidle ha []).bind _).of_ok hr

theorem clear_alike_rehash : ∃ fresh : Table Nat Nat, Table.new 1 = .ok fresh ∧
      Alike (run (Later.exec id (.insertion Prod.fst))
          [.rehash, .merge none, .merge (some fresh)] (clear ⟨2, 1, some [[], [(5, 10)]]⟩, []))
        (run (Later.exec id (.insertion Prod.fst))
          [.rehash, .merge none, .merge (some fresh)] (fresh, [])) := by
  have hsized : Post (fun t : Table Nat Nat => t.Inv id ∧ t.nodes = []) (fun _ => False)
      (Table.new 1) := Table.new_post _ (by decide) (by decide) (by decide)
  obtain ⟨fresh, hfresh, hinv, hnodes⟩ := hsized.exists_ok
  refine ⟨fresh, hfresh, (clear_alike_iff _ 1 fresh hfresh _ ?_).mpr ?_⟩
  · simp [Later.Sound, Valid, hinv]
  · simp [Later.Idle, hnodes]

/-- Looking for a key, setting one and deleting one stop the program in a cleared map, and are
answered in a new one. -/
theorem clear_stops_program :
    let t : Table Nat Nat := ⟨2, 1, some [[], [(5, 10)]]⟩
    get id (clear t) 5 = .error .remainderByZero ∧
    existsKey id (clear t) 5 = .error .remainderByZero ∧
    set id (.insertion Prod.fst) (clear t) 5 10 = .error .remainderByZero ∧
    del id (.insertion Prod.fst) (clear t) 5 = .error .remainderByZero ∧
    (do let fresh : Table Nat Nat ← Table.new 1
        get id fresh 5) = .ok none := by
  decide +kernel

/-! ## `wforeach` -/

/-- A call of the callback. `auto n` is a copy of the node: what the callback leaves in `n.val` is
lost with it. -/
def visitCopy (cb : σ → K → V → σ × V × Bool) (s : σ) (n : K × V) : σ × Bool :=
  ((cb s n.1 n.2).1, (cb s n.1 n.2).2.2)

def wforeach (cb : σ → K → V → σ × V × Bool) (t : Table K V) (s : σ) :
    Except HashError (Table K V × σ) := do
  let ns ← t.allNodes
  .ok (t, (visit (visitCopy cb) ns (s, false)).1)

structure Seen (K V : Type) where
  key : K
  left : V
  more : Bool

/-- As `Lib.Visits.logged`, with the value that the callback left. -/
def logged (cb : σ → K → V → σ × V × Bool) (x : σ × List (Seen K V)) (k : K) (v : V) :
    (σ × List (Seen K V)) × V × Bool :=
  (((cb x.1 k v).1, x.2 ++ [⟨k, (cb x.1 k v).2.1, (cb x.1 k v).2.2⟩]), (cb x.1 k v).2)

omit [LinearOrder K] in
theorem visit_logged (cb : σ → K → V → σ × V × Bool) (ns s log) :
    ∃ calls, (visit (visitCopy (logged cb)) ns ((s, log), false)).1.2 = log ++ calls ∧
      Visited (ns.map Prod.fst) (calls.map fun e => (e.key, e.more)) := by
  induction ns generalizing s log with
  | nil => exact ⟨[], (append_nil _).symm, nil_prefix, nofun, fun _ => rfl⟩
  | cons n ns ih =>
    rw [visit_cons rfl]
    cases hmore : (cb s n.1 n.2).2.2 with
    | false =>
      have hstopped : (visitCopy (logged cb) (s, log) n).2 = false := hmore
      refine ⟨[⟨n.1, (cb s n.1 n.2).2.1, false⟩], ?_, visited_last n.1 _⟩
      rw [hstopped, visit_stopped rfl, ← hmore]
      rfl
    | true =>
      have hgoes : (visitCopy (logged cb) (s, log) n).2 = true := hmore
      rw [hgoes]
      obtain ⟨calls, hlog, hcalls⟩ := ih (cb s n.1 n.2).1
        (log ++ [⟨n.1, (cb s n.1 n.2).2.1, (cb s n.1 n.2).2.2⟩])
      refine ⟨⟨n.1, (cb s n.1 n.2).2.1, (cb s n.1 n.2).2.2⟩ :: calls, ?_, ?_⟩
      · rw [append_cons]
        exact hlog
      · rw [map_cons, hmore]
        exact hcalls.cons n.1

/-- Each key is visited at most once, and a call that returns false is the last. The values that the
callback left are found exactly if they are those that were there before. -/
theorem wforeach_visits (t : Table K V) (m : Finmap fun _ : K => V) (h : Agrees hash t m)
    (cb : σ → K → V → σ × V × Bool) (s : σ) :
    Post (fun r =>
        (r.2.2.map Seen.key).Nodup ∧ (∀ e ∈ r.2.2.dropLast, e.more = true) ∧
        ((∀ e ∈ r.2.2, e.more = true) → ∀ k ∈ m, k ∈ r.2.2.map Seen.key) ∧
        (∀ k, k ∉ r.2.2.map Seen.key → get hash r.1 k = .ok (m.lookup k)) ∧
        ((∀ e ∈ r.2.2, get hash r.1 e.key = .ok (some e.left)) ↔
          ∀ e ∈ r.2.2, m.lookup e.key = some e.left))
      (fun _ => False) (wforeach (logged cb) t (s, [])) := by
  have hget : ∀ k, get hash t k = .ok (m.lookup k) := fun k => (get_post h k).eq_ok
  obtain ⟨calls, hlog, hcalls⟩ := visit_logged cb t.nodes s []
  rw [nil_append] at hlog
  have hend : wforeach (logged cb) t (s, []) =
      .ok (t, (visit (visitCopy (logged cb)) t.nodes ((s, []), false)).1.1, calls) := by
    rw [wforeach, h.inv.rep.allNodes_eq, ← hlog]
    rfl
  rw [hend]
  have hkeys : calls.map Seen.key = (calls.map fun e => (e.key, e.more)).map Prod.fst := by
    rw [map_map]
    rfl
  have hstops := hcalls.stops
  rw [← map_dropLast, forall_mem_map] at hstops
  refine ⟨?_, hstops, fun hall k hk => ?_, fun k _ => hget k, ?_⟩
  · rw [hkeys]
    exact h.inv.nodup.sublist hcalls.elements.sublist
  · rw [hkeys, hcalls.all (forall_mem_map.mpr hall)]
    exact h.pairs.mem_keys.mpr hk
  · apply forall₂_congr
    intro e _
    rw [hget, Except.ok.injEq]

theorem wforeach_visits_reading :
    let t : Table Nat Nat := ⟨2, 1, some [[], [(1, 10)]]⟩
    Agrees id t ((∅ : Finmap fun _ : Nat => Nat).insert 1 10) ∧
      Post (fun r => ∀ e ∈ r.2.2, get id r.1 e.key = .ok (some e.left)) (fun _ => False)
        (wforeach (logged fun (s k v : Nat) => (s + k, v, true)) t (0, [])) := by
  intro t
  have hnew : Table.new 1 = .ok (⟨2, 0, some [[], []]⟩ : Table Nat Nat) := by decide +kernel
  have hset : set id (.insertion Prod.fst) ⟨2, 0, some [[], []]⟩ 1 10 = .ok (t, true) := by
    decide +kernel
  obtain ⟨hinv, hnodes⟩ :=
    (Table.new_post id (by decide) (by decide) (by decide)).of_ok hnew
  have hfresh : Agrees id (⟨2, 0, some [[], []]⟩ : Table Nat Nat) ∅ := by
    apply Agrees.of_inv hinv
    rw [hnodes]
    exact Represents.nil
  have h := ((set_post hfresh 1 10 (by decide +kernel)).of_ok hset).1
  have hend : wforeach (logged fun (s k v : Nat) => (s + k, v, true)) t (0, []) =
      .ok (t, 1, [⟨1, 10, true⟩]) := rfl
  have hvisits := wforeach_visits t _ h (fun (s k v : Nat) => (s + k, v, true)) 0
  rw [hend] at hvisits ⊢
  refine ⟨h, hvisits.2.2.2.2.mpr ?_⟩
  simp

/-- The callback writes 20 for 10, and 10 is found afterwards. -/
theorem wforeach_loses_values :
    (do let t : Table Nat Nat ← Table.new 1
        let (t, _) ← set id (.insertion Prod.fst) t 1 10
        let (t, s) ← wforeach (fun (n : Nat) _ _ => (n + 1, 20, true)) t 0
        let v ← get id t 1
        .ok (s, v)) = .ok (1, some 10) := by
  decide +kernel

end Helens.Ds.HashMap
