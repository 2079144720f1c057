import Mathlib.Data.List.Perm.Basic
import Helens.Lib.Runs

/-! `HttpConnectionPool`: what `getConnection` lends and what `ReleasePtr` does with it. Each call
is one step; the clock and the outcome of connecting are inputs. Connections carry a name and the
time they were made: `m_createTime` is never set. -/

namespace Helens.ConnectionPool

open Lib.Runs List

/-! ## The code -/

structure HttpConnection where
  name : Nat
  born : Nat
  createTime : Nat := 0
  request : Nat := 0
  isConnected : Bool := true

inductive Dial
  | addrFail
  | sockFail
  | connectFail
  | connected

structure HttpConnectionPool where
  maxSize : Nat
  maxAliveTime : Nat
  maxRequest : Nat
  conns : List HttpConnection := []
  total : BitVec 32 := 0

def borrow (maxAliveTime now : Nat) :
    List HttpConnection → List HttpConnection × Option HttpConnection × List HttpConnection
  | [] => ([], none, [])
  | conn :: conns =>
    let (invalid, ptr, rest) := borrow maxAliveTime now conns
    if !conn.isConnected then (conn :: invalid, ptr, rest)
    else if conn.createTime + maxAliveTime > now then (conn :: invalid, ptr, rest)
    else ([], some conn, conns)

structure State where
  pool : HttpConnectionPool
  lent : List HttpConnection := []
  fresh : Nat := 0
  deleted : List Nat := []
  handed : List (HttpConnection × Nat) := []

def discard (invalid rest : List HttpConnection) (s : State) : State :=
  { s with
    pool := { s.pool with
      conns := rest
      total := s.pool.total - BitVec.ofNat 32 invalid.length }
    deleted := s.deleted ++ invalid.map HttpConnection.name }

def create (now : Nat) (s : State) : HttpConnection × State :=
  ({ name := s.fresh, born := now },
    { s with pool := { s.pool with total := s.pool.total + 1 }, fresh := s.fresh + 1 })

def lend (conn : HttpConnection) (now : Nat) (s : State) : State :=
  { s with lent := s.lent ++ [conn], handed := s.handed ++ [(conn, now)] }

def getConnection (now : Nat) (dial : Dial) (s : State) : State :=
  let (invalid, ptr, rest) := borrow s.pool.maxAliveTime now s.pool.conns
  let s := discard invalid rest s
  match ptr, dial with
  | some conn, _ => lend conn now s
  | none, .addrFail | none, .sockFail | none, .connectFail => s
  | none, .connected =>
    let (conn, s) := create now s
    lend conn now s

def releasePtr (conn : HttpConnection) (now : Nat) (s : State) : State :=
  let conn := { conn with request := conn.request + 1 }
  if !conn.isConnected || decide (conn.createTime + s.pool.maxAliveTime ≥ now) ||
      decide (conn.request ≥ s.pool.maxRequest) then
    { s with
      pool := { s.pool with total := s.pool.total - 1 }
      deleted := s.deleted ++ [conn.name] }
  else { s with pool := { s.pool with conns := s.pool.conns ++ [conn] } }

/-! ## Runs -/

inductive Action
  | getConnection (now : Nat) (dial : Dial)
  | release (i now : Nat)
  | close (name : Nat)

def closed (name : Nat) (conn : HttpConnection) : HttpConnection :=
  if conn.name = name then { conn with isConnected := false } else conn

def exec : Action → State → Except Empty State
  | .getConnection now dial, s => .ok (getConnection now dial s)
  | .release i now, s =>
    match s.lent[i]? with
    | none => .ok s
    | some conn => .ok (releasePtr conn now { s with lent := s.lent.eraseIdx i })
  | .close name, s => .ok { s with
      pool := { s.pool with conns := s.pool.conns.map (closed name) }
      lent := s.lent.map (closed name) }

def names (s : State) : List Nat :=
  s.pool.conns.map HttpConnection.name ++ s.lent.map HttpConnection.name ++ s.deleted

/-- The count is right up to its 32 bits, every connection is in one of idle, lent and deleted, and
what is handed out is connected. -/
structure Inv (s : State) : Prop where
  total : s.pool.total = BitVec.ofNat 32 (s.pool.conns.length + s.lent.length)
  once : (names s).Perm (List.range s.fresh)
  idle : ∀ conn ∈ s.pool.conns, conn.request < s.pool.maxRequest
  handed : ∀ h ∈ s.handed, h.1.isConnected = true ∧
    (0 < s.pool.maxRequest → h.1.request < s.pool.maxRequest)

theorem borrow_spec (maxAliveTime now conns) :
    conns = (borrow maxAliveTime now conns).1 ++
        ((borrow maxAliveTime now conns).2.1.toList ++ (borrow maxAliveTime now conns).2.2) ∧
      (∀ conn ∈ (borrow maxAliveTime now conns).2.1, conn.isConnected = true) ∧
      ((borrow maxAliveTime now conns).2.1 = none → (borrow maxAliveTime now conns).2.2 = []) := by
  induction conns with
  | nil => exact ⟨rfl, nofun, fun _ => rfl⟩
  | cons conn conns ih =>
    obtain ⟨hsplit, hconnected, hempty⟩ := ih
    unfold borrow
    by_cases hopen : conn.isConnected = true
    · by_cases hage : conn.createTime + maxAliveTime > now
      · simp only [hopen, hage, Bool.not_true, Bool.false_eq_true, ↓reduceIte]
        refine ⟨?_, hconnected, hempty⟩
        rw [cons_append, ← hsplit]
      · simp only [hopen, hage, Bool.not_true, Bool.false_eq_true, ↓reduceIte]
        refine ⟨rfl, ?_, nofun⟩
        rintro _ ⟨⟩
        exact hopen
    · simp only [hopen, Bool.not_false, ↓reduceIte]
      refine ⟨?_, hconnected, hempty⟩
      rw [cons_append, ← hsplit]

/-- What `getConnection` can do: it lends an idle connection, or all idle ones were invalid
and it fails or lends a new one. -/
theorem getConnection_cases (now dial) (s : State) :
    (∃ invalid conn rest, s.pool.conns = invalid ++ conn :: rest ∧ conn.isConnected = true ∧
      getConnection now dial s = lend conn now (discard invalid rest s)) ∨
    getConnection now dial s = discard s.pool.conns [] s ∨
    getConnection now dial s =
      lend ⟨s.fresh, now, 0, 0, true⟩ now (create now (discard s.pool.conns [] s)).2 := by
  obtain ⟨hsplit, hconnected, hempty⟩ := borrow_spec s.pool.maxAliveTime now s.pool.conns
  unfold getConnection
  generalize borrow s.pool.maxAliveTime now s.pool.conns = taken at hsplit hconnected hempty
  obtain ⟨invalid, ptr, rest⟩ := taken
  cases ptr with
  | some conn => exact .inl ⟨invalid, conn, rest, hsplit, hconnected conn rfl, rfl⟩
  | none =>
    obtain rfl : rest = [] := hempty rfl
    obtain rfl : s.pool.conns = invalid := by simpa using hsplit
    cases dial with
    | addrFail => exact .inr (.inl rfl)
    | sockFail => exact .inr (.inl rfl)
    | connectFail => exact .inr (.inl rfl)
    | connected => exact .inr (.inr rfl)

/-! ## The accounting -/

theorem ofNat_sub_ofNat (h : a = b + c) :
    BitVec.ofNat 32 a - BitVec.ofNat 32 b = BitVec.ofNat 32 c := by
  rw [h, Nat.add_comm, BitVec.ofNat_add, BitVec.add_sub_cancel]

theorem perm_of_count {l l' : List Nat} (n) (h : l.Perm (range n))
    (hcount : ∀ a, l'.count a = l.count a) : l'.Perm (range n) :=
  (perm_iff_count.mpr hcount).trans h

variable {s : State}

theorem Inv.lend_idle (hs : Inv s) {invalid rest : List HttpConnection} {conn : HttpConnection}
    (hconns : s.pool.conns = invalid ++ conn :: rest) (hopen : conn.isConnected = true) (now) :
    Inv (lend conn now (discard invalid rest s)) := by
  have hidle : ∀ c ∈ invalid ++ conn :: rest, c.request < s.pool.maxRequest := hconns ▸ hs.idle
  refine ⟨?_, ?_, ?_, ?_⟩
  · simp only [lend, discard, hs.total]
    apply ofNat_sub_ofNat
    simp only [hconns, length_append, length_cons, length_nil]
    omega
  · apply perm_of_count _ hs.once
    intro a
    simp only [names, lend, discard, hconns, map_append, map_cons, map_nil,
      count_append, count_cons, count_nil]
    omega
  · intro c hc
    exact hidle c (mem_append_right _ (mem_cons_of_mem _ hc))
  · intro h hh
    rcases mem_append.mp hh with hh | hh
    · exact hs.handed h hh
    · obtain rfl := mem_singleton.mp hh
      exact ⟨hopen, fun _ => hidle conn (mem_append_right _ mem_cons_self)⟩

theorem Inv.discard_all (hs : Inv s) : Inv (discard s.pool.conns [] s) := by
  refine ⟨?_, ?_, ?_, hs.handed⟩
  · simp only [discard, hs.total]
    apply ofNat_sub_ofNat
    simp only [length_nil]
    omega
  · apply perm_of_count _ hs.once
    intro a
    simp only [names, discard, map_nil, count_append, count_nil]
    omega
  · exact fun c hc => absurd hc not_mem_nil

theorem Inv.lend_new (hs : Inv s) (now) :
    Inv (lend ⟨s.fresh, now, 0, 0, true⟩ now (create now s).2) := by
  refine ⟨?_, ?_, hs.idle, ?_⟩
  · simp only [lend, create, hs.total, length_append, length_singleton]
    exact (BitVec.ofNat_add (s.pool.conns.length + s.lent.length) 1).symm
  · have hnew : ((names s) ++ [s.fresh]).Perm (range (s.fresh + 1)) := by
      rw [range_succ]
      exact hs.once.append_right _
    apply perm_of_count _ hnew
    intro a
    simp only [names, lend, create, map_append, map_cons, map_nil,
      count_append, count_cons, count_nil]
    omega
  · intro h hh
    rcases mem_append.mp hh with hh | hh
    · exact hs.handed h hh
    · obtain rfl := mem_singleton.mp hh
      exact ⟨rfl, id⟩

theorem Inv.getConnection (hs : Inv s) (now dial) : Inv (getConnection now dial s) := by
  rcases getConnection_cases now dial s with ⟨invalid, conn, rest, hconns, hopen, heq⟩ | heq | heq
  · rw [heq]
    exact hs.lend_idle hconns hopen now
  · rw [heq]
    exact hs.discard_all
  · rw [heq]
    exact hs.discard_all.lend_new now

theorem releasePtr_cases (conn now s) :
    releasePtr conn now s = { s with
      pool := { s.pool with total := s.pool.total - 1 }, deleted := s.deleted ++ [conn.name] } ∨
    (conn.request + 1 < s.pool.maxRequest ∧ releasePtr conn now s = { s with
      pool := { s.pool with
        conns := s.pool.conns ++ [{ conn with request := conn.request + 1 }] } }) := by
  unfold releasePtr
  dsimp only
  split
  · exact .inl rfl
  · next hkeep =>
    simp only [Bool.or_eq_true, decide_eq_true_eq, not_or, ge_iff_le, Nat.not_le] at hkeep
    exact .inr ⟨hkeep.2, rfl⟩

theorem Inv.release (hs : Inv s) {i : Nat} {conn : HttpConnection} (hi : s.lent[i]? = some conn)
    (now) : Inv (releasePtr conn now { s with lent := s.lent.eraseIdx i }) := by
  obtain ⟨hlt, hget⟩ := List.getElem?_eq_some_iff.mp hi
  have hperm : (conn :: s.lent.eraseIdx i).Perm s.lent := by
    rw [← hget]
    exact getElem_cons_eraseIdx_perm hlt
  have hlength := hperm.length_eq
  rw [length_cons] at hlength
  have hcount : ∀ a, (s.lent.map HttpConnection.name).count a =
      ((s.lent.eraseIdx i).map HttpConnection.name).count a + [conn.name].count a := by
    intro a
    rw [← (hperm.map HttpConnection.name).count_eq, map_cons, count_cons, count_singleton]
  rcases releasePtr_cases conn now { s with lent := s.lent.eraseIdx i } with heq | ⟨hkeep, heq⟩
  · rw [heq]
    refine ⟨?_, ?_, hs.idle, hs.handed⟩
    · simp only [hs.total]
      exact ofNat_sub_ofNat (b := 1) (by omega)
    · apply perm_of_count _ hs.once
      intro a
      simp only [names, count_append, hcount]
      omega
  · rw [heq]
    refine ⟨?_, ?_, ?_, hs.handed⟩
    · simp only [hs.total, length_append, length_singleton]
      congr 1
      omega
    · apply perm_of_count _ hs.once
      intro a
      simp only [names, map_append, map_cons, map_nil, count_append, hcount]
      omega
    · intro c hc
      rcases mem_append.mp hc with hc | hc
      · exact hs.idle c hc
      · obtain rfl := mem_singleton.mp hc
        exact hkeep

theorem closed_name (name) (conn : HttpConnection) : (closed name conn).name = conn.name := by
  unfold closed
  split <;> rfl

theorem closed_request (name) (conn : HttpConnection) :
    (closed name conn).request = conn.request := by
  unfold closed
  split <;> rfl

theorem exec_inv (s a) (hs : Inv s) : Post Inv Never (exec a s) := by
  cases a with
  | getConnection now dial => exact hs.getConnection now dial
  | release i now =>
    rw [exec]
    split
    · exact hs
    · next conn hi => exact hs.release hi now
  | close name =>
    refine ⟨?_, ?_, ?_, hs.handed⟩
    · simp only [length_map]
      exact hs.total
    · have hnames : ∀ l : List HttpConnection,
          (l.map (closed name)).map HttpConnection.name = l.map HttpConnection.name := by
        intro l
        simp [closed_name]
      simp only [names, hnames]
      exact hs.once
    · intro c hc
      obtain ⟨c', hc', rfl⟩ := mem_map.mp hc
      rw [closed_request]
      exact hs.idle c' hc'

/-! ## The limits -/

/-- A call of `getConnection` finds room, and no idle connection is too old. -/
def Fits (s : State) : Action → Prop
  | .getConnection now _ => s.lent.length < s.pool.maxSize ∧ s.lent.length + 1 < 2 ^ 31 ∧
      ∀ conn ∈ s.pool.conns, now ≤ conn.born + s.pool.maxAliveTime
  | _ => True

instance (s : State) : (a : Action) → Decidable (Fits s a)
  | .getConnection now _ => inferInstanceAs (Decidable (_ ∧ _))
  | .release .. => isTrue trivial
  | .close _ => isTrue trivial

def init (maxSize maxAliveTime maxRequest : Nat) : State :=
  { pool := { maxSize, maxAliveTime, maxRequest } }

structure Limited (s : State) : Prop where
  inv : Inv s
  serves : 0 < s.pool.maxRequest
  room : s.pool.conns.length + s.lent.length ≤ s.pool.maxSize
  small : s.pool.conns.length + s.lent.length < 2 ^ 31
  young : ∀ h ∈ s.handed, h.2 ≤ h.1.born + s.pool.maxAliveTime

theorem Limited.getConnection (hs : Limited s)
    (hfits : Fits s (.getConnection now dial)) : Limited (getConnection now dial s) := by
  have hinv := hs.inv.getConnection now dial
  obtain ⟨hroom, hsmall, hage⟩ := hfits
  have hroom' := hs.room
  have hsmall' := hs.small
  rcases getConnection_cases now dial s with ⟨invalid, conn, rest, hconns, hopen, heq⟩ | heq | heq
  · rw [hconns, length_append, length_cons] at hroom' hsmall'
    rw [heq] at hinv ⊢
    refine ⟨hinv, hs.serves, ?_, ?_, ?_⟩
    · simp only [lend, discard, length_append, length_singleton]
      omega
    · simp only [lend, discard, length_append, length_singleton]
      omega
    · intro h hh
      rcases mem_append.mp hh with hh | hh
      · exact hs.young h hh
      · obtain rfl := mem_singleton.mp hh
        apply hage conn
        rw [hconns]
        exact mem_append_right _ mem_cons_self
  · rw [heq] at hinv ⊢
    refine ⟨hinv, hs.serves, ?_, ?_, hs.young⟩
    · simp only [discard, length_nil]
      omega
    · simp only [discard, length_nil]
      omega
  · rw [heq] at hinv ⊢
    refine ⟨hinv, hs.serves, ?_, ?_, ?_⟩
    · simp only [lend, create, discard, length_append, length_singleton, length_nil]
      omega
    · simp only [lend, create, discard, length_append, length_singleton, length_nil]
      omega
    · intro h hh
      rcases mem_append.mp hh with hh | hh
      · exact hs.young h hh
      · obtain rfl := mem_singleton.mp hh
        exact Nat.le_add_right _ _

theorem exec_limited (s a) (hs : Limited s) (hfits : Fits s a) : Post Limited Never (exec a s) := by
  have hinv := exec_inv s a hs.inv
  have hroom := hs.room
  have hsmall := hs.small
  cases a with
  | getConnection now dial => exact hs.getConnection hfits
  | release i now =>
    rw [exec] at hinv ⊢
    split at hinv
    · exact hs
    · next conn hi =>
      have hlength := length_eraseIdx_of_lt (List.getElem?_eq_some_iff.mp hi).1
      have hpos := (List.getElem?_eq_some_iff.mp hi).1
      rw [post_ok] at hinv ⊢
      rcases releasePtr_cases conn now { s with lent := s.lent.eraseIdx i } with heq | ⟨-, heq⟩
      · rw [heq] at hinv ⊢
        refine ⟨hinv, hs.serves, ?_, ?_, hs.young⟩
        · dsimp only
          omega
        · dsimp only
          omega
      · rw [heq] at hinv ⊢
        refine ⟨hinv, hs.serves, ?_, ?_, hs.young⟩
        · simp only [length_append, length_singleton]
          omega
        · simp only [length_append, length_singleton]
          omega
  | close name =>
    refine ⟨hinv, hs.serves, ?_, ?_, hs.young⟩
    · simp only [length_map]
      exact hroom
    · simp only [length_map]
      exact hsmall

structure WithinLimits (s : State) : Prop where
  total : s.pool.total.toInt = s.pool.conns.length + s.lent.length
  total_le : s.pool.total.toInt ≤ s.pool.maxSize
  once : (names s).Perm (List.range s.fresh)
  handed : ∀ conn now, (conn, now) ∈ s.handed → conn.isConnected = true ∧
    now ≤ conn.born + s.pool.maxAliveTime ∧ conn.request < s.pool.maxRequest

theorem Limited.withinLimits (hs : Limited s) : WithinLimits s := by
  have hsmall := hs.small
  have htotal : s.pool.total.toInt = s.pool.conns.length + s.lent.length := by
    rw [hs.inv.total, BitVec.toInt_ofNat', Int.bmod_eq_of_le (by omega) (by omega)]
    exact Int.natCast_add _ _
  refine ⟨htotal, ?_, hs.inv.once, ?_⟩
  · rw [htotal]
    exact_mod_cast hs.room
  · intro conn now hmem
    obtain ⟨hopen, hserved⟩ := hs.inv.handed _ hmem
    exact ⟨hopen, hs.young _ hmem, hserved hs.serves⟩

/-- **In every run**, whatever the limits, no call stops, and no connection is lost or deleted
twice. -/
theorem runs_conserve (maxSize maxAliveTime maxRequest : Nat) (as : List Action) :
    Post Inv Never (run exec as (init maxSize maxAliveTime maxRequest)) :=
  post_run_all exec_inv as _ ⟨rfl, Perm.refl _, nofun, nofun⟩

/-- Where `getConnection` is called with fewer than `m_maxSize` lent, and no idle connection too
old, the pool keeps its limits. -/
theorem runs_within_limits (maxSize maxAliveTime maxRequest : Nat) (hserves : 0 < maxRequest)
    (as : List Action) (has : Along exec Fits as (init maxSize maxAliveTime maxRequest)) :
    Post WithinLimits (fun _ => False) (run exec as (init maxSize maxAliveTime maxRequest)) := by
  have hinit : Limited (init maxSize maxAliveTime maxRequest) := by
    refine ⟨⟨rfl, List.Perm.refl _, ?_, ?_⟩, hserves, Nat.zero_le _, ?_, ?_⟩
    · exact fun conn hconn => absurd hconn not_mem_nil
    · exact fun h hh => absurd hh not_mem_nil
    · exact Nat.two_pow_pos 31
    · exact fun h hh => absurd hh not_mem_nil
  exact (post_run exec_limited as _ has hinit).imp (fun s hs => hs.withinLimits)

def loans : List Action :=
  [.getConnection 1000 .connected, .release 0 1100, .getConnection 1150 .addrFail,
    .getConnection 1150 .connectFail, .getConnection 1160 .connected, .close 1, .release 1 1170]

theorem loans_fit : Along exec Fits loans (init 2 500 3) := by decide +kernel

theorem loans_within_limits : 0 < 3 ∧ Along exec Fits loans (init 2 500 3) ∧
      Post WithinLimits (fun _ => False) (run exec loans (init 2 500 3)) :=
  ⟨by decide, loans_fit, runs_within_limits 2 500 3 (by decide) loans loans_fit⟩

/-- A pool for one connection lends two. A connection that may live 100 ms is handed out again
8000 ms after it was made. -/
theorem limits_exceeded :
    (run exec [.getConnection 1000 .connected, .getConnection 1000 .connected] (init 1 100 5)).map
        (fun s => s.pool.total) = .ok 2 ∧
      (run exec [.getConnection 1000 .connected, .release 0 2000, .getConnection 9000 .connected]
          (init 1 100 5)).map (fun s => s.handed.map fun h => (h.1.name, h.2 - h.1.born)) =
        .ok [(0, 0), (0, 8000)] := by
  decide +kernel

end Helens.ConnectionPool
