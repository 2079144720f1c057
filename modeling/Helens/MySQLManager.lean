import Helens.Stream

/-! `MySQLManager` of `db/mysql.cc`: the idle connections, what `get` lends, and what the deleter
does with it. Each call is one step; clock, definitions and the outcome of checks and of connecting
are inputs. -/

namespace Helens.MySQLManager
open Helens.Stream List

/-! ## The code -/

structure MySQL where
  id : Nat
  poolSize : Int := 10
  mysql : Bool := false
  lastUsedTime : Nat := 0

/-- `m_conns` as one list: each connection with the name of the list that it is in. Lent
connections have the name that is bound in their deleter. -/
structure State where
  conns : List (String × MySQL) := []
  lent : List (String × MySQL) := []
  deleted : List Nat := []
  fresh : Nat := 0

def lend (name : String) (rt : MySQL) (now : Nat) (s : State) : State :=
  { s with lent := s.lent ++ [(name, { rt with lastUsedTime := now })] }

/-- `define` is the `pool` of the definition of `name`, if there is one. -/
def get (name : String) (define : Option Int) (needCheck ping connect : Bool) (now : Nat)
    (s : State) : State :=
  match s.conns.find? (·.1 = name) with
  | some (_, rt) =>
    let s := { s with conns := s.conns.eraseP (·.1 = name) }
    if !needCheck then lend name rt now s
    else if ping then lend name rt now s
    else if connect then lend name rt now s
    else s
  | none =>
    match define with
    | none => s
    | some pool =>
      let rt : MySQL := { id := s.fresh }
      let s := { s with fresh := s.fresh + 1 }
      if connect then lend name { rt with poolSize := pool, mysql := true } now s
      else { s with deleted := s.deleted ++ [rt.id] }

def idle (s : State) (name : String) : List MySQL :=
  (s.conns.filter (·.1 = name)).map Prod.snd

def freeMySQL (name : String) (m : MySQL) (s : State) : State :=
  if m.mysql ∧ (idle s name).length < toSize m.poolSize then
    { s with conns := s.conns ++ [(name, m)] }
  else { s with deleted := s.deleted ++ [m.id] }

def checkConnection (now : Nat) (sec : Int) (s : State) : State :=
  let old (e : String × MySQL) : Bool := sec ≤ toInt32 ((now : Int) - e.2.lastUsedTime)
  { s with
    conns := s.conns.filter (!old ·)
    deleted := s.deleted ++ (s.conns.filter old).map (·.2.id) }

/-! ## Runs -/

inductive Action
  | get (name : String) (define : Option Int) (needCheck ping connect : Bool) (now : Nat)
  | release (i : Nat)
  | checkConnection (now : Nat) (sec : Int)

def step (s : State) : Action → State
  | .get name define needCheck ping connect now => get name define needCheck ping connect now s
  | .release i =>
    match s.lent[i]? with
    | none => s
    | some (name, m) => freeMySQL name m { s with lent := s.lent.eraseIdx i }
  | .checkConnection now sec => checkConnection now sec s

/-- A connection that does not answer can be connected again. -/
def Action.Reconnects : Action → Prop
  | .get _ _ needCheck ping connect _ => needCheck ∧ !ping → connect
  | _ => True

instance instDecidableReconnects : (a : Action) → Decidable a.Reconnects
  | .get .. => inferInstanceAs (Decidable (_ → _))
  | .release _ | .checkConnection .. => isTrue trivial

def ids (s : State) : List Nat := (s.conns ++ s.lent).map (·.2.id) ++ s.deleted

/-- Every connection that was made is in one place, and no idle list is longer than its
connections allow. -/
structure Accounted (s : State) : Prop where
  once : (ids s).Perm (range s.fresh)
  room : ∀ name size, (∀ m ∈ idle s name, toSize m.poolSize ≤ size) → (idle s name).length ≤ size

def Fits (l : List MySQL) : Prop := ∀ pre m, pre ++ [m] <+ l → pre.length < toSize m.poolSize

structure Inv (s : State) : Prop where
  once : (ids s).Perm (range s.fresh)
  fits : ∀ name, Fits (idle s name)

theorem Fits.push (h : Fits l) (hm : l.length < toSize m.poolSize) : Fits (l ++ [m]) := by
  intro pre m' hsub
  rw [← reverse_sublist, reverse_append, reverse_append] at hsub
  cases hsub with
  | cons _ hsub => exact h pre m' (reverse_sublist.mp (by simpa using hsub))
  | cons_cons _ hsub => exact Nat.lt_of_le_of_lt (by simpa using hsub.length_le) hm

theorem Inv.accounted (h : Inv s) : Accounted s := by
  refine ⟨h.once, fun name size hsize => ?_⟩
  have hfits := h.fits name
  rcases eq_nil_or_concat' (idle s name) with hl | ⟨l, m, hl⟩
  · simp [hl]
  · rw [hl] at hfits hsize ⊢
    have hlast := hsize m (by simp)
    have hroom := hfits l m (Sublist.refl _)
    rw [length_append, length_singleton]
    omega

/-- Connections go from one place to another, and none out of `m_conns` that stay there. -/
theorem Inv.move (h : Inv s) (hids : (ids t).Perm (ids s)) (hfresh : t.fresh = s.fresh)
    (hconns : t.conns <+ s.conns) : Inv t where
  once := hfresh ▸ hids.trans h.once
  fits name pre m hsub := h.fits name pre m (hsub.trans ((hconns.filter _).map _))

theorem Inv.create {t : State} (h : Inv s) (hids : (ids t).Perm (ids s ++ [s.fresh]))
    (hfresh : t.fresh = s.fresh + 1) (hconns : t.conns = s.conns) : Inv t where
  once := by
    rw [hfresh, range_succ]
    exact hids.trans (h.once.append_right _)
  fits name := by
    rw [idle, hconns]
    exact h.fits name

theorem Inv.get (h : Inv s) {name : String} {define : Option Int} {needCheck ping connect : Bool}
    (hreach : needCheck ∧ !ping → connect) (now) :
    Inv (get name define needCheck ping connect now s) := by
  unfold MySQLManager.get
  split
  · next n rt hfind =>
    obtain ⟨hname, as, bs, hconns, hnot⟩ := find?_eq_some_iff_append.mp hfind
    have herase : s.conns.eraseP (·.1 = name) = as ++ bs := by
      rw [hconns, eraseP_append_right _ (by simpa using hnot), eraseP_cons, hname, cond_true]
    have hlent : Inv (lend name rt now { s with conns := s.conns.eraseP (·.1 = name) }) := by
      refine h.move ?_ rfl eraseP_sublist
      rw [herase]
      refine perm_iff_count.mpr fun a => ?_
      simp [ids, lend, hconns, count_cons]
      omega
    cases needCheck <;> cases ping <;> cases connect <;> first | exact hlent | simp at hreach
  · cases define with
    | none => exact h
    | some pool =>
      cases connect with
      | true => exact h.create (perm_iff_count.mpr fun a => by simp [ids, lend, count_cons]) rfl rfl
      | false => exact h.create (by simp [ids]) rfl rfl

theorem Inv.release (h : Inv s) (hi : s.lent[i]? = some (name, m)) :
    Inv (freeMySQL name m { s with lent := s.lent.eraseIdx i }) := by
  obtain ⟨hlt, hget⟩ := List.getElem?_eq_some_iff.mp hi
  have hperm := (getElem_cons_eraseIdx_perm hlt).map fun e => e.2.id
  have hcount (a : Nat) := hperm.count_eq a
  simp only [hget, map_cons, count_cons] at hcount
  unfold freeMySQL
  split
  · next hroom =>
    refine ⟨Perm.trans (perm_iff_count.mpr fun a => ?_) h.once, fun name' => ?_⟩
    · simp [ids, ← hcount, count_cons]
      omega
    · by_cases hname : name = name'
      · subst hname
        simpa [idle] using (h.fits name).push hroom.2
      · simpa [idle, hname] using h.fits name'
  · refine h.move (perm_iff_count.mpr fun a => ?_) rfl (Sublist.refl _)
    simp [ids, ← hcount, count_cons]
    omega

theorem Inv.step (h : Inv s) (ha : a.Reconnects) : Inv (step s a) := by
  cases a with
  | get name define needCheck ping connect now => exact h.get ha now
  | release i =>
    rw [MySQLManager.step]
    split
    · exact h
    · next hi => exact h.release hi
  | checkConnection now sec =>
    refine h.move (perm_iff_count.mpr fun a => ?_) rfl filter_sublist
    have hparts := (filter_append_perm (fun e : String × MySQL =>
      decide (sec ≤ toInt32 ((now : Int) - e.2.lastUsedTime))) s.conns).map (·.2.id)
    have hcount := hparts.count_eq a
    simp only [map_append, count_append] at hcount
    simp only [ids, MySQLManager.step, checkConnection, map_append, count_append]
    omega

theorem runs_accounted (as : List Action) (has : ∀ a ∈ as, a.Reconnects) :
    Accounted (as.foldl step {}) := by
  suffices hinv : Inv (as.foldl step {}) from hinv.accounted
  refine foldlRecOn as step (motive := Inv) ⟨Perm.refl _, fun _ pre m h => ?_⟩ fun s h a ha =>
    h.step (has a ha)
  simp [idle] at h

def loans : List Action :=
  [.get "a" (some 1) false false true 3, .get "a" (some 1) false false true 4, .release 0,
    .release 0, .get "a" none true true false 9, .release 0, .checkConnection 50 30]

theorem runs_accounted_loans : Accounted (loans.foldl step {}) :=
  runs_accounted loans (by decide)

/-- A connection that neither answers nor can be connected again is not idle, not lent and not
deleted. -/
theorem lost_connection : ¬ ∀ as : List Action, Accounted (as.foldl step {}) := by
  intro h
  have hids := (h [.get "a" (some 1) false false true 3, .release 0,
    .get "a" none true false false 9]).once.length_eq
  exact absurd hids (by decide)

end Helens.MySQLManager
