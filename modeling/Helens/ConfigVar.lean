import Mathlib.Data.List.Chain
import Mathlib.Data.List.Nodup
import Helens.Lib.Runs

/-! `ConfigVar` of `config.h`. `setValue` compares and notifies in a section under the read
lock and assigns in a second one under the write lock; each section is one step here, so the
calls of several threads interleave between the sections. -/

namespace Helens

open Lib.Runs List

/-! ## The code -/

structure ConfigVar (T : Type) where
  val : T
  cbs : List Nat := []

structure Notification (T : Type) where
  listener : Nat
  old : T
  new : T
  deriving DecidableEq

namespace ConfigVar

variable {T : Type}

def compareAndNotify [BEq T] (v : T) (c : ConfigVar T) : Option (List (Notification T)) :=
  if v == c.val then none else some (c.cbs.map fun key => ⟨key, c.val, v⟩)

def assign (v : T) (c : ConfigVar T) : ConfigVar T := { c with val := v }

/-- `funId` is the static counter of the template's member. -/
def addListener (c : ConfigVar T) (funId : Nat) : ConfigVar T × Nat :=
  ({ c with cbs := c.cbs ++ [funId + 1] }, funId + 1)

def delListener (key : Nat) (c : ConfigVar T) : ConfigVar T :=
  { c with cbs := c.cbs.filter (· ≠ key) }

def clearListener (c : ConfigVar T) : ConfigVar T := { c with cbs := [] }

/-! ## Interleavings -/

/-- The variable, the counter that it shares with all variables of its type, the values of the
calls that are between their sections, and what the listeners were told. -/
structure Shared (T : Type) where
  var : ConfigVar T
  funId : Nat := 0
  pending : List T := []
  log : List (Notification T) := []

inductive Action (T : Type)
  | notify (v : T)
  | assign (i : Nat)
  | addListener
  | addElsewhere (other : ConfigVar T)
  | delListener (key : Nat)
  | clearListener

def exec [BEq T] : Action T → Shared T → Except Empty (Shared T)
  | .notify v, s =>
    match compareAndNotify v s.var with
    | none => .ok s
    | some told => .ok { s with pending := s.pending ++ [v], log := s.log ++ told }
  | .assign i, s =>
    match s.pending[i]? with
    | none => .ok s
    | some v => .ok { s with var := s.var.assign v, pending := s.pending.eraseIdx i }
  | .addListener, s =>
    let (var, funId) := s.var.addListener s.funId
    .ok { s with var, funId }
  | .addElsewhere other, s => .ok { s with funId := (other.addListener s.funId).2 }
  | .delListener key, s => .ok { s with var := s.var.delListener key }
  | .clearListener, s => .ok { s with var := s.var.clearListener }

def heard (key : Nat) (log : List (Notification T)) : List (Notification T) :=
  log.filter fun n => n.listener = key

def Follows (a b : Notification T) : Prop := a.new = b.old

/-- The notifications of each listener form a chain, and with no call under way the last
one announced the stored value. -/
structure Agree (s : Shared T) : Prop where
  chain : ∀ key, (heard key s.log).IsChain Follows
  last : s.pending = [] → ∀ key ∈ s.var.cbs, ∀ n ∈ (heard key s.log).getLast?, n.new = s.var.val

/-! ## One call at a time -/

/-- A call enters its first section only when no other one is between its sections. -/
def Alone (s : Shared T) : Action T → Prop
  | .notify _ => s.pending = []
  | _ => True

instance (s : Shared T) : (a : Action T) → Decidable (Alone s a)
  | .notify _ => inferInstanceAs (Decidable (s.pending = []))
  | .assign _ | .addListener | .addElsewhere _ | .delListener _ | .clearListener => isTrue trivial

def Shared.latest (s : Shared T) : T := s.pending.headD s.var.val

structure Inv (s : Shared T) : Prop where
  nodup : s.var.cbs.Nodup
  cbs_le : ∀ key ∈ s.var.cbs, key ≤ s.funId
  log_le : ∀ n ∈ s.log, n.listener ≤ s.funId
  one : s.pending.length ≤ 1
  chain : ∀ key, (heard key s.log).IsChain Follows
  last : ∀ key ∈ s.var.cbs, ∀ n ∈ (heard key s.log).getLast?, n.new = s.latest

theorem heard_round (key old new) {cbs : List Nat} (hnodup : cbs.Nodup) :
    heard key (cbs.map fun k => (⟨k, old, new⟩ : Notification T)) =
      if key ∈ cbs then [⟨key, old, new⟩] else [] := by
  induction cbs with
  | nil => rfl
  | cons k cbs ih =>
    obtain ⟨hk, hrest⟩ := nodup_cons.mp hnodup
    rw [map_cons, heard, filter_cons, ← heard, ih hrest]
    by_cases hkey : k = key
    · rw [← hkey, if_neg hk]
      simp
    · simp [hkey, Ne.symm hkey]

theorem heard_append (key : Nat) (log told : List (Notification T)) :
    heard key (log ++ told) = heard key log ++ heard key told := filter_append ..

theorem heard_eq_nil {key : Nat} {log : List (Notification T)}
    (h : ∀ n ∈ log, n.listener < key) : heard key log = [] := by
  apply filter_eq_nil_iff.mpr
  intro n hn
  rw [decide_eq_true_iff]
  exact Nat.ne_of_lt (h n hn)

variable {s : Shared T}

theorem Inv.notify (hs : Inv s) (halone : s.pending = []) (v : T) : Inv { s with
      pending := s.pending ++ [v]
      log := s.log ++ s.var.cbs.map fun key => ⟨key, s.var.val, v⟩ } := by
  have hlatest : s.latest = s.var.val := by rw [Shared.latest, halone]; rfl
  have hround := fun key => heard_round key s.var.val v hs.nodup
  refine ⟨hs.nodup, hs.cbs_le, ?_, ?_, ?_, ?_⟩
  · intro n hn
    rcases mem_append.mp hn with hn | hn
    · exact hs.log_le n hn
    · obtain ⟨key, hkey, rfl⟩ := mem_map.mp hn
      exact hs.cbs_le key hkey
  · simp [halone]
  · intro key
    rw [heard_append, hround]
    apply isChain_append.mpr
    refine ⟨hs.chain key, ?_, ?_⟩
    · split
      · exact isChain_singleton _
      · exact isChain_nil
    · intro a ha b hb
      split at hb
      · next hkey =>
        obtain rfl := Option.some.inj hb
        exact (hs.last key hkey a ha).trans hlatest
      · cases hb
  · intro key hkey n hn
    rw [heard_append, hround, if_pos hkey, List.getLast?_concat] at hn
    obtain rfl := Option.some.inj hn
    rw [Shared.latest, halone]
    rfl

theorem Inv.assign (hs : Inv s) (hi : s.pending[i]? = some v) :
    Inv { s with var := s.var.assign v, pending := s.pending.eraseIdx i } := by
  -- there is only one call to finish
  obtain ⟨w, hw⟩ : ∃ w, s.pending = [w] := by
    cases hp : s.pending with
    | nil =>
      rw [hp] at hi
      cases hi
    | cons w rest =>
      have hone := hs.one
      rw [hp, length_cons] at hone
      obtain rfl : rest = [] := length_eq_zero_iff.mp (by omega)
      exact ⟨w, rfl⟩
  have hlast := hs.last
  rw [Shared.latest, hw] at hlast
  rw [hw] at hi ⊢
  obtain ⟨rfl, rfl⟩ : i = 0 ∧ w = v := by
    cases i with
    | zero => exact ⟨rfl, Option.some.inj hi⟩
    | succ i => cases hi
  exact ⟨hs.nodup, hs.cbs_le, hs.log_le, Nat.zero_le _, hs.chain, hlast⟩

theorem Inv.addListener (hs : Inv s) : Inv { s with
      var := (s.var.addListener s.funId).1
      funId := (s.var.addListener s.funId).2 } := by
  have hnew : s.funId + 1 ∉ s.var.cbs := fun hmem =>
    absurd (hs.cbs_le _ hmem) (Nat.not_succ_le_self _)
  refine ⟨?_, ?_, ?_, hs.one, hs.chain, ?_⟩
  · exact nodup_append.mpr ⟨hs.nodup, nodup_singleton _, fun a ha b hb heq =>
      hnew (mem_singleton.mp hb ▸ heq ▸ ha)⟩
  · intro key hkey
    rcases mem_append.mp hkey with hkey | hkey
    · exact Nat.le_succ_of_le (hs.cbs_le key hkey)
    · exact Nat.le_of_eq (mem_singleton.mp hkey)
  · exact fun n hn => Nat.le_succ_of_le (hs.log_le n hn)
  · intro key hkey n hn
    rcases mem_append.mp hkey with hkey | hkey
    · exact hs.last key hkey n hn
    · obtain rfl := mem_singleton.mp hkey
      rw [heard_eq_nil fun n hn => Nat.lt_succ_of_le (hs.log_le n hn)] at hn
      cases hn

theorem Inv.addElsewhere (hs : Inv s) : Inv { s with funId := s.funId + 1 } :=
  ⟨hs.nodup, fun key hkey => Nat.le_succ_of_le (hs.cbs_le key hkey),
    fun n hn => Nat.le_succ_of_le (hs.log_le n hn), hs.one, hs.chain, hs.last⟩

theorem Inv.sublist (hs : Inv s) {cbs : List Nat} (h : cbs.Sublist s.var.cbs) :
    Inv { s with var := { s.var with cbs } } :=
  ⟨hs.nodup.sublist h, fun key hkey => hs.cbs_le key (h.subset hkey), hs.log_le, hs.one, hs.chain,
    fun key hkey => hs.last key (h.subset hkey)⟩

theorem exec_inv [BEq T] (s : Shared T) (a : Action T) (hs : Inv s) (ha : Alone s a) :
    Post Inv Never (exec a s) := by
  cases a with
  | notify v =>
    rw [exec, compareAndNotify]
    by_cases hsame : (v == s.var.val) = true
    · rw [if_pos hsame]
      exact hs
    · rw [if_neg hsame]
      exact hs.notify ha v
  | assign i =>
    rw [exec]
    split
    · exact hs
    · next v hi => exact hs.assign hi
  | addListener => exact hs.addListener
  | addElsewhere other => exact hs.addElsewhere
  | delListener key => exact hs.sublist filter_sublist
  | clearListener => exact hs.sublist (nil_sublist _)

def Shared.init (v : T) : Shared T := { var := { val := v } }

/-- Where each `setValue` runs alone, every listener is told of a chain of changes that ends in the
stored value. -/
theorem alone_runs_agree [BEq T] (v : T) (as : List (Action T))
    (has : Along exec Alone as (Shared.init v)) :
    Post Agree (fun _ => False) (run exec as (Shared.init v)) := by
  have hinit : Inv (Shared.init v) := by
    refine ⟨nodup_nil, ?_, ?_, Nat.zero_le _, fun _ => isChain_nil, ?_⟩
    · exact fun key hkey => absurd hkey not_mem_nil
    · exact fun n hn => absurd hn not_mem_nil
    · exact fun key hkey => absurd hkey not_mem_nil
  have hrun := post_run exec_inv as _ has hinit
  apply hrun.imp
  intro s hs
  refine ⟨hs.chain, ?_⟩
  intro hdone key hkey n hn
  rw [hs.last key hkey n hn, Shared.latest, hdone]
  rfl

def oneByOne : List (Action Nat) :=
  [.addListener, .notify 1, .addElsewhere { val := 5 }, .addListener, .assign 0, .notify 1,
    .notify 2, .assign 0, .delListener 1, .notify 3, .assign 0]

theorem oneByOne_alone : Along exec Alone oneByOne (Shared.init 0) := by decide +kernel

theorem oneByOne_agree : Along exec Alone oneByOne (Shared.init 0) ∧
      Post Agree (fun _ => False) (run exec oneByOne (Shared.init 0)) :=
  ⟨oneByOne_alone, alone_runs_agree 0 oneByOne oneByOne_alone⟩

/-- Two calls both notify before either assigns, and assign in the other order. -/
theorem overlapping_disagree : (run exec [.addListener, .notify 1, .notify 2, .assign 1, .assign 0]
        (Shared.init 0 : Shared Nat)).map (fun s => (heard 1 s.log, s.pending, s.var.val)) =
      .ok ([⟨1, 0, 1⟩, ⟨1, 0, 2⟩], [], 1) := by
  decide +kernel

end ConfigVar

end Helens
