import Mathlib.Data.Prod.Lex
import Helens.Lib.OrderedSet
import Helens.Lib.Runs

/-! The timer manager: `m_timers` is an ordered set of references to timers, compared through their
fields. A write to `m_next` of a stored timer and an `erase(end())` stop the model. -/

namespace Helens

open Lib Lib.Runs List

/-! ## Timers -/

structure Timer where
  recurring : Bool := false
  ms : Nat := 0
  next : Nat := 0
  cb : Option Nat := none
  addr : Nat := 0
  deriving Inhabited, DecidableEq

def Timer.less (lhs rhs : Timer) : Bool :=
  if lhs.next < rhs.next then true
  else if rhs.next < lhs.next then false
  else decide (lhs.addr < rhs.addr)

def u64 (n : Nat) : Nat := n % 2 ^ 64

/-- `TimerManager`. `heap` holds every timer ever made, `timers` is `m_timers`. -/
structure TimerManager where
  heap : List Timer := []
  timers : List Nat := []
  tickled : Bool := false
  previouseTime : Nat := 0
  deriving DecidableEq

namespace TimerManager

inductive Abort where
  /-- `m_timers.erase(m_timers.end())` -/
  | eraseEnd
  /-- `m_next` is written while the set holds the timer -/
  | keyChanged
  deriving DecidableEq

def timer (m : TimerManager) (i : Nat) : Timer := m.heap.getD i default

def less (m : TimerManager) (i j : Nat) : Bool := (m.timer i).less (m.timer j)

def modify (m : TimerManager) (i : Nat) (f : Timer → Timer) : TimerManager :=
  { m with heap := m.heap.modify i f }

def insert (m : TimerManager) (i : Nat) : TimerManager :=
  { m with timers := OrderedSet.insert m.less i m.timers }

def erase (m : TimerManager) : Option Nat → Except Abort TimerManager
  | none => .error .eraseEnd
  | some i => .ok { m with timers := m.timers.erase i }

def find (m : TimerManager) (i : Nat) : Option Nat := OrderedSet.find m.less i m.timers

def setNext (m : TimerManager) (i next : Nat) : Except Abort TimerManager :=
  if i ∈ m.timers then .error .keyChanged
  else .ok (m.modify i fun t => { t with next := next })

def clearCb (m : TimerManager) (i : Nat) : TimerManager := m.modify i fun t => { t with cb := none }

/-! ## Operations -/

/-- `addTimer(val, lock)`; the flag says that `onTimerInsertedAtFront` is called. -/
def insertTimer (m : TimerManager) (val : Nat) : TimerManager × Bool :=
  let m := m.insert val
  let atFront := m.timers.head? == some val && !m.tickled
  ({ m with tickled := m.tickled || atFront }, atFront)

/-- `addTimer(ms, cb, recurring)`, with the clock and the address the new timer gets. -/
def addTimer (m : TimerManager) (ms cb : Nat) (recurring : Bool) (now addr : Nat) :
    TimerManager × Bool :=
  let timer : Timer := { recurring, ms, cb := some cb, next := u64 (now + ms), addr }
  insertTimer { m with heap := m.heap ++ [timer] } m.heap.length

def cancel (m : TimerManager) (i : Nat) : Except Abort (TimerManager × Bool) :=
  if (m.timer i).cb.isSome then do
    let m ← (m.clearCb i).erase ((m.clearCb i).find i)
    return (m, true)
  else return (m, false)

def refresh (m : TimerManager) (i now : Nat) : Except Abort (TimerManager × Bool) :=
  if (m.timer i).cb.isNone then return (m, false)
  else match m.find i with
    | none => return (m, false)
    | some it => do
      let m ← m.erase (some it)
      let m ← m.setNext i (u64 (now + (m.timer i).ms))
      return (m.insert i, true)

def resetTime (t : Timer) (ms : Nat) (fromNow : Bool) (now : Nat) : Nat :=
  let start := if fromNow then now else u64 (t.next + (2 ^ 64 - t.ms))
  u64 (start + ms)

/-- `reset`; the second flag is `onTimerInsertedAtFront`. -/
def reset (m : TimerManager) (i ms : Nat) (fromNow : Bool) (now : Nat) :
    Except Abort (TimerManager × Bool × Bool) :=
  if ms == (m.timer i).ms && !fromNow then return (m, true, false)
  else if (m.timer i).cb.isNone then return (m, false, false)
  else match m.find i with
    | none => return (m, false, false)
    | some it => do
      let m ← m.erase (some it)
      let next := resetTime (m.timer i) ms fromNow now
      let m ← (m.modify i fun t => { t with ms := ms }).setNext i next
      let (m, atFront) := m.insertTimer i
      return (m, true, atFront)

/-- `getNextTimer`: `none` is `~0ull`. -/
def getNextTimer (m : TimerManager) (now : Nat) : TimerManager × Option Nat :=
  let m := { m with tickled := false }
  match m.timers with
  | [] => (m, none)
  | next :: _ => (m, some (if now ≥ (m.timer next).next then 0 else (m.timer next).next - now))

def detectClockRollover (m : TimerManager) (now : Nat) : TimerManager × Bool :=
  ({ m with previouseTime := now },
    decide (now < m.previouseTime ∧ now < u64 (m.previouseTime + (2 ^ 64 - 60 * 60 * 1000))))

/-- A recurring timer is stored again, another one has done its work. -/
def settle (m : TimerManager) (i now : Nat) : Except Abort TimerManager :=
  if (m.timer i).recurring then do
    let m ← m.setNext i (u64 (now + (m.timer i).ms))
    return m.insert i
  else return m.clearCb i

/-- The loop over `expired`: what it hands back are the callbacks, each with the
timer it was taken from. -/
def expire (now : Nat) :
    List Nat → TimerManager → Except Abort (TimerManager × List (Nat × Option Nat))
  | [], m => return (m, [])
  | i :: rest, m => do
    let next ← m.settle i now
    let (last, cbs) ← expire now rest next
    return (last, (i, (m.timer i).cb) :: cbs)

/-- `listExpiredCb`; `addr` is the address of `now_timer`. -/
def listExpiredCb (m : TimerManager) (now addr : Nat) :
    Except Abort (TimerManager × List (Nat × Option Nat)) :=
  match m.timers with
  | [] => return (m, [])
  | front :: _ =>
    let (m, rollover) := m.detectClockRollover now
    if !rollover && decide ((m.timer front).next > now) then return (m, [])
    else
      let nowTimer : Timer := { next := now, addr }
      let it := if rollover then []
        else OrderedSet.lowerBound (fun i => (m.timer i).less nowTimer) m.timers
      let it := it.dropWhile fun i => (m.timer i).next == now
      let expired := m.timers.take (m.timers.length - it.length)
      expire now expired { m with timers := it }

/-! ## The order of the set -/

def key (m : TimerManager) (i : Nat) : Nat ×ₗ Nat := toLex ((m.timer i).next, (m.timer i).addr)

theorem less_iff (m : TimerManager) (i j) : m.less i j = true ↔ m.key i < m.key j := by
  rw [key, key, Prod.Lex.toLex_lt_toLex]
  unfold less Timer.less
  split
  · simp_all
  · rename_i hle
    split
    · rename_i hlt
      have hne : (m.timer i).next ≠ (m.timer j).next := Nat.ne_of_gt hlt
      simp [hle, hne]
    · rename_i hge
      have heq : (m.timer i).next = (m.timer j).next := by omega
      simp [heq]

variable {m : TimerManager} {i : Nat} {out : List Nat}

theorem timer_modify (hi : i < m.heap.length) (f : Timer → Timer)
    (j) : (m.modify i f).timer j = if j = i then f (m.timer i) else m.timer j := by
  unfold modify timer
  rw [getD_eq_getElem?_getD, getD_eq_getElem?_getD, getD_eq_getElem?_getD, getElem?_modify]
  by_cases hj : j = i
  · subst hj
    simp [getElem?_eq_getElem hi]
  · have hij : ¬ i = j := fun h => hj h.symm
    simp [hj, hij]

theorem lt_of_cb (h : (m.timer i).cb.isSome = true) :
    i < m.heap.length := by
  by_contra hge
  have hdefault : m.timer i = default := by
    rw [timer, getD_eq_getElem?_getD, getElem?_eq_none (by omega), Option.getD_none]
  rw [hdefault] at h
  exact absurd h (by decide)

/-- The invariant inside an operation that has taken the timers `out` from the
set: every timer with a callback is stored or in hand. -/
structure Inv (m : TimerManager) (out : List Nat) : Prop where
  ordered : OrderedSet.Ordered m.less m.timers
  stored : ∀ i, i ∈ m.timers ∨ i ∈ out ↔ (m.timer i).cb.isSome = true
  nodup : out.Nodup
  apart : ∀ i ∈ out, i ∉ m.timers
  addrs : ∀ i j, (m.timer i).cb.isSome = true → (m.timer j).cb.isSome = true →
    (m.timer i).addr = (m.timer j).addr → i = j

/-- The heap only grows, and a callback once gone stays gone. -/
structure Keeps (m m' : TimerManager) : Prop where
  heap : m.heap.length ≤ m'.heap.length
  gone : ∀ i, i < m.heap.length → (m.timer i).cb = none → (m'.timer i).cb = none

theorem Keeps.refl (m) : Keeps m m := ⟨Nat.le_refl _, fun _ _ h => h⟩

theorem Keeps.trans (h₁ : Keeps a b) (h₂ : Keeps b c) : Keeps a c :=
  ⟨Nat.le_trans h₁.heap h₂.heap,
    fun i hi hcb => h₂.gone i (Nat.lt_of_lt_of_le hi h₁.heap) (h₁.gone i hi hcb)⟩

theorem ordered_nodup (h : OrderedSet.Ordered m.less l) : l.Nodup := by
  refine List.Pairwise.imp ?_ h
  intro i j hij heq
  rw [less_iff, heq] at hij
  exact lt_irrefl _ hij

theorem next_le_of_ordered (h : OrderedSet.Ordered m.less l) :
    l.Pairwise fun i j => (m.timer i).next ≤ (m.timer j).next := by
  refine List.Pairwise.imp ?_ h
  intro i j hij
  rw [less_iff, key, key, Prod.Lex.toLex_lt_toLex] at hij
  rcases hij with hlt | ⟨heq, -⟩
  · exact Nat.le_of_lt hlt
  · exact Nat.le_of_eq heq

theorem ordered_congr {m' : TimerManager} (h : OrderedSet.Ordered m.less l)
    (heq : ∀ i ∈ l, m'.timer i = m.timer i) : OrderedSet.Ordered m'.less l := by
  refine List.Pairwise.imp_of_mem ?_ h
  intro i j hi hj hij
  unfold less at hij ⊢
  rw [heq i hi, heq j hj]
  exact hij

namespace Inv

theorem lt_length (h : Inv m out) (hi : i ∈ m.timers ∨ i ∈ out) : i < m.heap.length :=
  lt_of_cb ((h.stored i).mp hi)

theorem mem_timers (h : Inv m []) (hcb : (m.timer i).cb.isSome = true) :
    i ∈ m.timers := by
  simpa using (h.stored i).mpr hcb

theorem find_eq (h : Inv m out) (hi : i ∈ m.timers) : m.find i = some i :=
  OrderedSet.Ordered.find_mem m.less_iff h.ordered hi

theorem key_ne (h : Inv m out) (hi : i ∈ out) (hj : j ∈ m.timers) : m.key j ≠ m.key i := by
  intro heq
  have haddr : (m.timer j).addr = (m.timer i).addr := congrArg (fun k => (ofLex k).2) heq
  have hji := h.addrs j i ((h.stored j).mp (Or.inl hj)) ((h.stored i).mp (Or.inr hi)) haddr
  exact h.apart i hi (hji ▸ hj)

theorem erase (h : Inv m out) (hi : i ∈ m.timers) :
    Inv { m with timers := m.timers.erase i } (i :: out) where
  ordered := List.Pairwise.sublist erase_sublist h.ordered
  stored j := by
    rw [(ordered_nodup h.ordered).mem_erase_iff, mem_cons]
    change _ ↔ (m.timer j).cb.isSome = true
    have hj := h.stored j
    by_cases hji : j = i
    · subst hji
      simpa [hi] using hj
    · simpa [hji] using hj
  nodup := nodup_cons.mpr ⟨fun hout => h.apart i hout hi, h.nodup⟩
  apart j hj := by
    rw [(ordered_nodup h.ordered).mem_erase_iff]
    rcases mem_cons.mp hj with rfl | hj
    · exact fun hmem => hmem.1 rfl
    · exact fun hmem => h.apart j hj hmem.2
  addrs := h.addrs

theorem modify (h : Inv m out) (hi : i ∈ out) {f : Timer → Timer}
    (hcb : ∀ t, (f t).cb = t.cb) (haddr : ∀ t, (f t).addr = t.addr) :
    Inv (m.modify i f) out ∧ Keeps m (m.modify i f) := by
  have hlt := h.lt_length (Or.inr hi)
  have hcb' : ∀ j, ((m.modify i f).timer j).cb = (m.timer j).cb := by
    intro j
    rw [timer_modify hlt]
    split
    · rename_i hj
      rw [hcb, hj]
    · rfl
  have haddr' : ∀ j, ((m.modify i f).timer j).addr = (m.timer j).addr := by
    intro j
    rw [timer_modify hlt]
    split
    · rename_i hj
      rw [haddr, hj]
    · rfl
  refine ⟨⟨?_, ?_, h.nodup, h.apart, ?_⟩, ?_, ?_⟩
  · refine ordered_congr h.ordered ?_
    intro j hj
    rw [timer_modify hlt, if_neg]
    rintro rfl
    exact h.apart _ hi hj
  · intro j
    rw [hcb']
    exact h.stored j
  · intro j k
    rw [hcb', hcb', haddr', haddr']
    exact h.addrs j k
  · simp [TimerManager.modify]
  · intro j _ hj
    rw [hcb', hj]

theorem setNext (h : Inv m out) (hi : i ∈ out) (next) :
    Post (fun m' => Inv m' out ∧ Keeps m m') Never (m.setNext i next) := by
  unfold TimerManager.setNext
  rw [if_neg (h.apart i hi)]
  exact h.modify hi (fun _ => rfl) (fun _ => rfl)

theorem insert (h : Inv m (i :: out)) : Inv (m.insert i) out where
  ordered := h.ordered.insert m.less_iff _
  stored j := by
    rw [TimerManager.insert, OrderedSet.mem_insert m.less_iff fun _ hk => h.key_ne mem_cons_self hk]
    have hj := h.stored j
    rw [mem_cons] at hj
    change _ ↔ (m.timer j).cb.isSome = true
    rw [← hj]
    tauto
  nodup := (nodup_cons.mp h.nodup).2
  apart j hj := by
    rw [TimerManager.insert, OrderedSet.mem_insert m.less_iff fun _ hk => h.key_ne mem_cons_self hk]
    rintro (rfl | hmem)
    · exact (nodup_cons.mp h.nodup).1 hj
    · exact h.apart j (mem_cons_of_mem _ hj) hmem
  addrs := h.addrs

theorem clearCb (h : Inv m (i :: out)) : Inv (m.clearCb i) out ∧ Keeps m (m.clearCb i) := by
  have hlt := h.lt_length (Or.inr mem_cons_self)
  have hsome : ∀ j, ((m.clearCb i).timer j).cb.isSome = true ↔
      j ≠ i ∧ (m.timer j).cb.isSome = true := by
    intro j
    rw [TimerManager.clearCb, timer_modify hlt]
    split
    · simp_all
    · simp_all
  have haddr : ∀ j, ((m.clearCb i).timer j).addr = (m.timer j).addr := by
    intro j
    rw [TimerManager.clearCb, timer_modify hlt]
    split
    · simp_all
    · rfl
  obtain ⟨hnot, hnodup⟩ := nodup_cons.mp h.nodup
  have hi : i ∉ m.timers := h.apart i mem_cons_self
  refine ⟨⟨?_, ?_, hnodup, fun j hj => h.apart j (mem_cons_of_mem _ hj), ?_⟩, ?_, ?_⟩
  · refine ordered_congr h.ordered ?_
    intro j hj
    rw [TimerManager.clearCb, timer_modify hlt, if_neg]
    rintro rfl
    exact hi hj
  · intro j
    rw [hsome, ← h.stored j, mem_cons]
    change j ∈ m.timers ∨ j ∈ out ↔ _
    by_cases hji : j = i
    · subst hji
      simp [hi, hnot]
    · simp [hji]
  · intro j k hj hk
    rw [haddr, haddr]
    exact h.addrs j k ((hsome j).mp hj).2 ((hsome k).mp hk).2
  · simp [TimerManager.clearCb, TimerManager.modify]
  · intro j _ hj
    rw [TimerManager.clearCb, timer_modify hlt]
    split
    · rfl
    · exact hj

theorem flags (h : Inv m out) (tickled) (previouseTime : Nat) :
    Inv { m with tickled := tickled, previouseTime := previouseTime } out :=
  ⟨h.ordered, h.stored, h.nodup, h.apart, h.addrs⟩

theorem insertTimer (h : Inv m (i :: out)) : Inv (m.insertTimer i).1 out :=
  h.insert.flags _ _

end Inv

theorem Keeps.insertTimer {m' : TimerManager} (h : Keeps m m') (i) :
    Keeps m (m'.insertTimer i).1 := ⟨h.heap, h.gone⟩

/-! ## What each operation keeps -/

variable {m : TimerManager}

theorem timer_append (m : TimerManager) (t : Timer) (i : Nat) :
    ({ m with heap := m.heap ++ [t] } : TimerManager).timer i =
      if i = m.heap.length then t else m.timer i := by
  unfold timer
  rw [getD_eq_getElem?_getD, getD_eq_getElem?_getD]
  split
  · rename_i hi
    rw [hi, getElem?_concat_length, Option.getD_some]
  · rename_i hi
    rcases Nat.lt_or_gt_of_ne hi with hlt | hgt
    · rw [getElem?_append_left hlt]
    · rw [getElem?_eq_none (by simp; omega), getElem?_eq_none (by omega)]

theorem Inv.alloc (h : Inv m []) (hcb : t.cb.isSome = true)
    (haddr : ∀ i ∈ m.timers, (m.timer i).addr ≠ t.addr) :
    Inv { m with heap := m.heap ++ [t] } [m.heap.length] := by
  have hlt : ∀ i ∈ m.timers, i ≠ m.heap.length :=
    fun i hi => Nat.ne_of_lt (h.lt_length (Or.inl hi))
  have haddr' : ∀ i, (m.timer i).cb.isSome = true → (m.timer i).addr ≠ t.addr := by
    intro i hi
    rcases (h.stored i).mpr hi with hmem | hmem
    · exact haddr i hmem
    · cases hmem
  refine ⟨?_, ?_, by simp, ?_, ?_⟩
  · refine ordered_congr h.ordered ?_
    intro i hi
    rw [timer_append, if_neg (hlt i hi)]
  · intro i
    rw [timer_append, mem_singleton]
    split
    · simp_all
    · rename_i hi
      rw [← h.stored i]
      simp [hi]
  · intro i hi hmem
    exact hlt i hmem (mem_singleton.mp hi)
  · intro i j
    rw [timer_append, timer_append]
    split <;> split
    · rename_i hi hj
      intro _ _ _
      rw [hi, hj]
    · intro _ hj heq
      exact absurd heq.symm (haddr' j hj)
    · intro hi _ heq
      exact absurd heq (haddr' i hi)
    · exact h.addrs i j

theorem Inv.addTimer (h : Inv m []) (ms cb : Nat) (recurring : Bool) (now addr : Nat)
    (haddr : ∀ i ∈ m.timers, (m.timer i).addr ≠ addr) :
    Inv (m.addTimer ms cb recurring now addr).1 [] ∧
      Keeps m (m.addTimer ms cb recurring now addr).1 := by
  refine ⟨(h.alloc (by rfl) haddr).insertTimer, Keeps.insertTimer ⟨?_, ?_⟩ _⟩
  · simp
  · intro i hi hcb
    rw [timer_append, if_neg (Nat.ne_of_lt hi)]
    exact hcb

theorem find_clearCb (hi : i < m.heap.length) : (m.clearCb i).find i = m.find i := by
  have hless : (m.clearCb i).less = m.less := by
    funext j k
    unfold less clearCb Timer.less
    rw [timer_modify hi, timer_modify hi]
    split <;> split <;> simp_all
  unfold find
  rw [hless]
  rfl

theorem Inv.cancel (h : Inv m []) (i) : Post (fun r => Inv r.1 [] ∧ Keeps m r.1 ∧
        (r.2 = true → i < m.heap.length ∧ (r.1.timer i).cb = none))
      Never (m.cancel i) := by
  unfold TimerManager.cancel
  split
  · rename_i hcb
    have hmem := h.mem_timers hcb
    have hlt := lt_of_cb hcb
    have hclear := (h.erase hmem).clearCb
    rw [find_clearCb hlt, h.find_eq hmem]
    refine ⟨hclear.1, ⟨hclear.2.heap, hclear.2.gone⟩, fun _ => ⟨hlt, ?_⟩⟩
    change ((m.clearCb i).timer i).cb = none
    rw [TimerManager.clearCb, timer_modify hlt, if_pos rfl]
  · exact ⟨h, Keeps.refl m, by rintro ⟨⟩⟩

theorem Inv.refresh (h : Inv m []) (i now) :
    Post (fun r => Inv r.1 [] ∧ Keeps m r.1) Never (m.refresh i now) := by
  unfold TimerManager.refresh
  split
  · exact ⟨h, Keeps.refl m⟩
  · rename_i hcb
    have hmem := h.mem_timers (by simpa [Option.isSome_iff_ne_none] using hcb)
    rw [h.find_eq hmem]
    refine ((h.erase hmem).setNext mem_cons_self _).bind ?_
    rintro m' ⟨hinv, hkeeps⟩
    exact ⟨hinv.insert, ⟨hkeeps.heap, hkeeps.gone⟩⟩

theorem Inv.reset (h : Inv m []) (i ms fromNow now) :
    Post (fun r => Inv r.1 [] ∧ Keeps m r.1) Never (m.reset i ms fromNow now) := by
  unfold TimerManager.reset
  split
  · exact ⟨h, Keeps.refl m⟩
  split
  · exact ⟨h, Keeps.refl m⟩
  · rename_i hcb
    have hmem := h.mem_timers (by simpa [Option.isSome_iff_ne_none] using hcb)
    rw [h.find_eq hmem]
    have hout := (h.erase hmem).modify mem_cons_self
      (f := fun t => { t with ms := ms }) (fun _ => rfl) (fun _ => rfl)
    refine (hout.1.setNext mem_cons_self _).bind ?_
    rintro m' ⟨hinv, hkeeps⟩
    have hkeeps' := hout.2.trans hkeeps
    exact ⟨hinv.insertTimer, ⟨hkeeps'.heap, hkeeps'.gone⟩⟩

theorem Inv.settle (h : Inv m (i :: out)) (now) :
    Post (fun m' => Inv m' out ∧ Keeps m m') Never (m.settle i now) := by
  unfold TimerManager.settle
  split
  · refine (h.setNext mem_cons_self _).bind ?_
    rintro m' ⟨hinv, hkeeps⟩
    exact ⟨hinv.insert, ⟨hkeeps.heap, hkeeps.gone⟩⟩
  · exact h.clearCb

theorem Inv.expire (now) : ∀ {m : TimerManager}, Inv m out →
    Post (fun r => Inv r.1 [] ∧ Keeps m r.1 ∧ r.2.map Prod.fst = out ∧ ∀ e ∈ r.2, e.2.isSome = true)
      Never (TimerManager.expire now out m) := by
  induction out with
  | nil =>
    intro m h
    exact ⟨h, Keeps.refl m, rfl, by simp⟩
  | cons i rest ih =>
    intro m h
    have hcb : (m.timer i).cb.isSome = true := (h.stored i).mp (Or.inr mem_cons_self)
    unfold TimerManager.expire
    refine (h.settle now).bind ?_
    rintro m' ⟨hinv, hkeeps⟩
    refine (ih hinv).bind ?_
    rintro ⟨m'', cbs⟩ ⟨hinv', hkeeps', hmap, hsome⟩
    refine ⟨hinv', hkeeps.trans hkeeps', ?_, ?_⟩
    · simp [hmap]
    · simpa [hcb] using hsome

theorem Inv.split (h : Inv m []) (heq : expired ++ it = m.timers) :
    Inv { m with timers := it } expired := by
  have hordered := h.ordered
  have hnodup := ordered_nodup h.ordered
  rw [← heq] at hordered hnodup
  obtain ⟨hne, _, hdisjoint⟩ := nodup_append.mp hnodup
  refine ⟨(pairwise_append.mp hordered).2.1, ?_, hne, ?_, h.addrs⟩
  · intro i
    change _ ↔ (m.timer i).cb.isSome = true
    rw [← h.stored i, ← heq, mem_append]
    simp [or_comm]
  · intro i hi hit
    exact hdisjoint i hi i hit rfl

theorem Inv.listExpiredCb (h : Inv m []) (now addr) :
    Post (fun r => Inv r.1 [] ∧ Keeps m r.1 ∧ ∀ e ∈ r.2, e.1 ∈ m.timers ∧ e.2.isSome = true)
      Never (m.listExpiredCb now addr) := by
  unfold TimerManager.listExpiredCb
  split
  · exact ⟨h, Keeps.refl m, by simp⟩
  · dsimp only [detectClockRollover]
    split
    · exact ⟨h.flags _ _, ⟨Nat.le_refl _, fun _ _ hcb => hcb⟩, by simp⟩
    · set it := dropWhile _ _ with hit
      have hsuffix : it <:+ m.timers := by
        rw [hit]
        refine (dropWhile_suffix _).trans ?_
        split
        · exact nil_suffix
        · exact dropWhile_suffix _
      have heq := suffix_iff_eq_append.mp hsuffix
      apply (((h.flags m.tickled now).split heq).expire now).imp
      rintro ⟨m', cbs⟩ ⟨hinv, hkeeps, hmap, hsome⟩
      refine ⟨hinv, ⟨hkeeps.heap, hkeeps.gone⟩, fun e he => ⟨?_, hsome e he⟩⟩
      have hexpired : e.1 ∈ m.timers.take (m.timers.length - it.length) := by
        rw [← hmap]
        exact mem_map_of_mem he
      exact mem_of_mem_take hexpired

/-! ## The earliest deadline -/

def deadline (m : TimerManager) : Option Nat := m.timers.head?.map fun i => (m.timer i).next

theorem Inv.deadline_le (h : Inv m out) (hj : j ∈ m.timers) :
    ∃ D ≤ (m.timer j).next, m.deadline = some D := by
  cases hl : m.timers with
  | nil =>
    rw [hl] at hj
    cases hj
  | cons i rest =>
    refine ⟨(m.timer i).next, ?_, by rw [deadline, hl]; rfl⟩
    rw [hl] at hj
    rcases mem_cons.mp hj with rfl | hj
    · exact Nat.le_refl _
    · have hordered := next_le_of_ordered h.ordered
      rw [hl] at hordered
      exact (pairwise_cons.mp hordered).1 j hj

theorem deadline_of_head? (h : m.timers.head? = some i) :
    m.deadline = some (m.timer i).next := by
  rw [deadline, h]
  rfl

/-- The front after an insertion: the timer put in, with a call for a tickle unless
`m_tickled` was set, or a timer that was stored. -/
theorem insertTimer_front (m : TimerManager) (i) :
    ((m.insertTimer i).1.timers.head? = some i ∧ ((m.insertTimer i).2 = true ∨ m.tickled = true)) ∨
      ∃ j ∈ m.timers, (m.insertTimer i).1.timers.head? = some j := by
  rcases OrderedSet.head?_insert m.less i m.timers with h | ⟨j, hj, h⟩
  · refine .inl ⟨h, ?_⟩
    cases ht : m.tickled with
    | true => exact .inr rfl
    | false =>
      left
      simp [insertTimer, insert, h, ht]
  · exact .inr ⟨j, hj, h⟩

/-- The deadline after `addTimer`: a tickle is called for, or `m_tickled` was set and it
is the new timer's, or there was an earlier one. -/
theorem Inv.addTimer_deadline (h : Inv m [])
    (hD : (m.addTimer ms cb recurring now addr).1.deadline = some D) :
    (m.addTimer ms cb recurring now addr).2 = true ∨
      (m.tickled = true ∧ D = u64 (now + ms)) ∨ ∃ D' ≤ D, m.deadline = some D' := by
  unfold TimerManager.addTimer at hD ⊢
  set t : Timer := { recurring, ms, cb := some cb, next := u64 (now + ms), addr } with ht
  set m' : TimerManager := { m with heap := m.heap ++ [t] } with hm'
  have htimer : ∀ i, (m'.insertTimer m.heap.length).1.timer i =
      if i = m.heap.length then t else m.timer i := fun i => timer_append m t i
  dsimp only at hD ⊢
  rcases insertTimer_front m' m.heap.length with ⟨hhead, hfront⟩ | ⟨j, hj, hhead⟩
  · rw [deadline_of_head? hhead, htimer, if_pos rfl] at hD
    rcases hfront with hfront | htickled
    · exact .inl hfront
    · exact .inr (.inl ⟨htickled, (Option.some.inj hD).symm⟩)
  · have hj' : j ∈ m.timers := hj
    have hne : j ≠ m.heap.length := Nat.ne_of_lt (h.lt_length (.inl hj'))
    rw [deadline_of_head? hhead, htimer, if_neg hne] at hD
    obtain ⟨D', hle, hD'⟩ := h.deadline_le hj'
    rw [← Option.some.inj hD]
    exact .inr (.inr ⟨D', hle, hD'⟩)

theorem Inv.reset_deadline (h : Inv m []) {ms : Nat}
    (hreset : m.reset i ms fromNow now = .ok (m', done, atFront)) (hD : m'.deadline = some D) :
    atFront = true ∨ (m.tickled = true ∧ (m.timer i).cb.isSome = true ∧
        D = resetTime (m.timer i) ms fromNow now) ∨
      ∃ D' ≤ D, m.deadline = some D' := by
  unfold TimerManager.reset at hreset
  split at hreset
  · cases hreset
    exact .inr (.inr ⟨D, Nat.le_refl _, hD⟩)
  split at hreset
  · cases hreset
    exact .inr (.inr ⟨D, Nat.le_refl _, hD⟩)
  · rename_i hcb
    have hsome : (m.timer i).cb.isSome = true := by
      simpa [Option.isSome_iff_ne_none] using hcb
    have hmem := h.mem_timers hsome
    have hlt := lt_of_cb hsome
    have hnot : i ∉ m.timers.erase i := (h.erase hmem).apart i mem_cons_self
    rw [h.find_eq hmem] at hreset
    dsimp only [TimerManager.erase, TimerManager.setNext, bind, Except.bind, pure,
      Except.pure] at hreset
    set m₀ : TimerManager := { m with timers := m.timers.erase i } with hm₀
    rw [if_neg (show i ∉ (m₀.modify i _).timers from hnot)] at hreset
    set m₁ := m₀.modify i fun t => { t with ms := ms } with hm₁
    set m₂ := m₁.modify i fun t => { t with next := resetTime (m.timer i) ms fromNow now } with hm₂
    have htimer : ∀ j, (m₂.insertTimer i).1.timer j =
        if j = i then { m₁.timer i with next := resetTime (m.timer i) ms fromNow now }
        else m.timer j := by
      intro j
      change m₂.timer j = _
      rw [hm₂, timer_modify (by simpa [hm₁, hm₀, TimerManager.modify] using hlt)]
      split
      · rfl
      · rename_i hji
        rw [hm₁, timer_modify (by simpa [hm₀] using hlt), if_neg hji]
        rfl
    cases hreset
    change (m₂.insertTimer i).1.deadline = some D at hD
    change (m₂.insertTimer i).2 = true ∨ _
    rcases insertTimer_front m₂ i with ⟨hhead, hfront⟩ | ⟨j, hj, hhead⟩
    · rw [deadline_of_head? hhead, htimer, if_pos rfl] at hD
      rcases hfront with hfront | htickled
      · exact .inl hfront
      · exact .inr (.inl ⟨htickled, hsome, (Option.some.inj hD).symm⟩)
    · have hj' : j ∈ m.timers.erase i := hj
      have hne : j ≠ i := fun hji => hnot (hji ▸ hj')
      rw [deadline_of_head? hhead, htimer, if_neg hne] at hD
      obtain ⟨D', hle, hD'⟩ := h.deadline_le (mem_of_mem_erase hj')
      rw [← Option.some.inj hD]
      exact .inr (.inr ⟨D', hle, hD'⟩)

theorem getNextTimer_eq (m : TimerManager) (now) :
    m.getNextTimer now = ({ m with tickled := false },
      m.deadline.map fun D => if now ≥ D then 0 else D - now) := by
  unfold getNextTimer deadline
  dsimp only
  cases m.timers with
  | nil => rfl
  | cons i rest => rfl

/-! ## Runs -/

/-- What callers see: a `cancel` that returned true, and each callback that
`listExpiredCb` returned, with its timer. -/
inductive Event where
  | cancelled (i : Nat)
  | returned (i : Nat) (cb : Option Nat)
  deriving DecidableEq

structure State where
  manager : TimerManager := {}
  log : List Event := []
  deriving DecidableEq

/-- An operation with the clock it reads, and the address an allocation gets. -/
inductive Action where
  | addTimer (ms cb : Nat) (recurring : Bool) (now addr : Nat)
  | cancel (i : Nat)
  | refresh (i now : Nat)
  | reset (i ms : Nat) (fromNow : Bool) (now : Nat)
  | getNextTimer (now : Nat)
  | listExpiredCb (now addr : Nat)

def exec : Action → State → Except Abort State
  | .addTimer ms cb recurring now addr, s =>
    -- the allocator hands out no address of a live object, and stored timers are alive
    if ∃ i ∈ s.manager.timers, (s.manager.timer i).addr = addr then .ok s
    else .ok { s with manager := (s.manager.addTimer ms cb recurring now addr).1 }
  | .cancel i, s => do
    let (m, done) ← s.manager.cancel i
    return { manager := m, log := if done then s.log ++ [.cancelled i] else s.log }
  | .refresh i now, s => do
    let (m, _) ← s.manager.refresh i now
    return { s with manager := m }
  | .reset i ms fromNow now, s => do
    let (m, _) ← s.manager.reset i ms fromNow now
    return { s with manager := m }
  | .getNextTimer now, s => .ok { s with manager := (s.manager.getNextTimer now).1 }
  | .listExpiredCb now addr, s => do
    let (m, cbs) ← s.manager.listExpiredCb now addr
    return { manager := m, log := s.log ++ cbs.map fun e => .returned e.1 e.2 }

/-- No callback of a timer is returned after its `cancel` returned true. -/
def NoneAfterCancel (log : List Event) : Prop :=
  log.Pairwise fun e f => ∀ i cb, e = .cancelled i → f ≠ .returned i cb

structure State.Inv (s : State) : Prop where
  manager : s.manager.Inv []
  cancelled : ∀ i, .cancelled i ∈ s.log →
    i < s.manager.heap.length ∧ (s.manager.timer i).cb = none
  log : NoneAfterCancel s.log

variable {s : State}

theorem State.Inv.silent (h : s.Inv) (hinv : m.Inv [])
    (hkeeps : Keeps s.manager m) : State.Inv { s with manager := m } :=
  ⟨hinv, fun i hi => ⟨Nat.lt_of_lt_of_le (h.cancelled i hi).1 hkeeps.heap,
    hkeeps.gone i (h.cancelled i hi).1 (h.cancelled i hi).2⟩, h.log⟩

theorem State.Inv.cancel (h : s.Inv) (hinv : m.Inv [])
    (hkeeps : Keeps s.manager m) (hi : i < s.manager.heap.length) (hcb : (m.timer i).cb = none) :
    State.Inv { manager := m, log := s.log ++ [.cancelled i] } := by
  have hsilent := h.silent hinv hkeeps
  refine ⟨hinv, ?_, ?_⟩
  · intro j hj
    rcases mem_append.mp hj with hj | hj
    · exact hsilent.cancelled j hj
    · obtain rfl : j = i := by simpa using hj
      exact ⟨Nat.lt_of_lt_of_le hi hkeeps.heap, hcb⟩
  · refine pairwise_append.mpr ⟨h.log, pairwise_singleton _ _, ?_⟩
    intro e _ f hf j cb _ heq
    rw [mem_singleton.mp hf] at heq
    cases heq

theorem State.Inv.list (h : s.Inv) {cbs : List (Nat × Option Nat)}
    (hinv : m.Inv []) (hkeeps : Keeps s.manager m) (hcbs : ∀ e ∈ cbs, e.1 ∈ s.manager.timers) :
    State.Inv { manager := m, log := s.log ++ cbs.map fun e => .returned e.1 e.2 } := by
  have hsilent := h.silent hinv hkeeps
  refine ⟨hinv, ?_, ?_⟩
  · intro j hj
    rcases mem_append.mp hj with hj | hj
    · exact hsilent.cancelled j hj
    · simp at hj
  · refine pairwise_append.mpr ⟨h.log, ?_, ?_⟩
    · refine pairwise_map.mpr (pairwise_of_forall ?_)
      intro e f i cb heq
      cases heq
    · rintro e he f hf i cb rfl rfl
      obtain ⟨x, hx, heq⟩ := mem_map.mp hf
      obtain rfl : x.1 = i := (Event.returned.inj heq).1
      have hsome := (h.manager.stored x.1).mp (Or.inl (hcbs x hx))
      rw [(h.cancelled x.1 he).2] at hsome
      cases hsome

theorem exec_inv (s : State) (a) (h : s.Inv) : Post State.Inv Never (exec a s) := by
  cases a with
  | addTimer ms cb recurring now addr =>
    rw [exec]
    split
    · exact h
    · rename_i hfree
      have hadd := h.manager.addTimer ms cb recurring now addr
        fun i hi heq => hfree ⟨i, hi, heq⟩
      exact h.silent hadd.1 hadd.2
  | cancel i =>
    rw [exec]
    refine (h.manager.cancel i).bind ?_
    rintro ⟨m, done⟩ ⟨hinv, hkeeps, hdone⟩
    cases done with
    | false => exact h.silent hinv hkeeps
    | true => exact h.cancel hinv hkeeps (hdone rfl).1 (hdone rfl).2
  | refresh i now =>
    rw [exec]
    refine (h.manager.refresh i now).bind ?_
    rintro ⟨m, _⟩ ⟨hinv, hkeeps⟩
    exact h.silent hinv hkeeps
  | reset i ms fromNow now =>
    rw [exec]
    refine (h.manager.reset i ms fromNow now).bind ?_
    rintro ⟨m, _⟩ ⟨hinv, hkeeps⟩
    exact h.silent hinv hkeeps
  | getNextTimer now =>
    rw [exec, getNextTimer_eq]
    exact h.silent (h.manager.flags _ _) ⟨Nat.le_refl _, fun _ _ hcb => hcb⟩
  | listExpiredCb now addr =>
    rw [exec]
    refine (h.manager.listExpiredCb now addr).bind ?_
    rintro ⟨m, cbs⟩ ⟨hinv, hkeeps, hcbs⟩
    exact h.list hinv hkeeps fun e he => (hcbs e he).1

def init (now : Nat) : State := { manager := { previouseTime := now } }

theorem init_inv (now) : (init now).Inv where
  manager := by
    refine ⟨List.Pairwise.nil, ?_, nodup_nil, by simp, ?_⟩
    · intro i
      exact ⟨by simp [init], fun hcb => absurd (lt_of_cb hcb) (by simp [init])⟩
    · intro i j hcb
      exact absurd (lt_of_cb hcb) (by simp [init])
  cancelled := by simp [init]
  log := List.Pairwise.nil

theorem inv_of_run (h : run exec as (init now) = .ok s) : s.Inv :=
  (post_run_all exec_inv as (init now) (init_inv now)).of_ok h

/-- **Every run of the operations** keeps `m_timers` strictly ordered, holding exactly the timers
with a callback, and no timer is listed after its `cancel` returned true. -/
theorem timers_stay_ordered (now : Nat) (as : List Action) :
    Post (fun s => OrderedSet.Ordered s.manager.less s.manager.timers ∧
        (∀ i, i ∈ s.manager.timers ↔ (s.manager.timer i).cb.isSome = true) ∧
        NoneAfterCancel s.log)
      (fun _ => False) (run exec as (init now)) := by
  apply (post_run_all exec_inv as (init now) (init_inv now)).imp
  intro s h
  exact ⟨h.manager.ordered, fun i => by simpa using h.manager.stored i, h.log⟩

end TimerManager

end Helens
