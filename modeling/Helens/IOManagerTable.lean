import Mathlib.Data.List.Range
import Helens.IOManagerEvents

/-! The table of contexts. `addEvent` finds the table too short under the read lock and resizes it
under the write lock, by its own descriptor alone. As long as this never makes it smaller, a context
stays where it is. -/

namespace Helens.IOManager
open Lib.Runs List

def fds (s : State) : List Nat := s.heap.map (·.fd)

def Aligned (s : State) : Prop :=
  ∃ n, s.table = List.range n ∧ fds s = List.range n

variable {s : State}

theorem Aligned.length_eq (h : Aligned s) : s.heap.length = s.table.length := by
  obtain ⟨n, htable, hfds⟩ := h
  have hlen : (fds s).length = n := by rw [hfds, length_range]
  rw [htable, length_range, ← hlen, fds, length_map]

theorem Aligned.lookup (h : Aligned s) {ptr : Nat} {c : FdContext}
    (hc : s.heap[ptr]? = some c) : s.table[c.fd]? = some ptr := by
  obtain ⟨n, htable, hfds⟩ := h
  have hfd : (fds s)[ptr]? = some c.fd := by rw [fds, getElem?_map, hc]; rfl
  rw [hfds] at hfd
  obtain ⟨hlt, heq⟩ := List.getElem?_eq_some_iff.mp hfd
  rw [getElem_range] at heq
  rw [htable, ← heq]
  exact hfd.trans (congrArg some heq.symm)

theorem Aligned.context (h : Aligned s) {fd ptr : Nat}
    (hp : s.table[fd]? = some ptr) : ∃ c, s.heap[ptr]? = some c ∧ c.fd = fd := by
  obtain ⟨n, htable, hfds⟩ := h
  rw [htable] at hp
  obtain ⟨hlt, heq⟩ := List.getElem?_eq_some_iff.mp hp
  rw [getElem_range] at heq
  subst heq
  rw [← hfds, fds, getElem?_map] at hp
  exact Option.map_eq_some_iff.mp hp

/-! ## Steps -/

theorem contextResize_aligned (h : Aligned s) (hsize : s.table.length ≤ size) :
    Aligned (contextResize size s) ∧ s.table <+: (contextResize size s).table := by
  have hlen := h.length_eq
  obtain ⟨n, htable, hfds⟩ := h
  have hn : s.table.length = n := by rw [htable, length_range]
  have hrange : range n ++ range' n (size - n) = range size := by
    obtain ⟨m, rfl⟩ := Nat.exists_eq_add_of_le (hn ▸ hsize)
    rw [Nat.add_sub_cancel_left, range_eq_range', range_eq_range']
    simpa using range'_append_1 (s := 0) (m := n) (n := m)
  have htake : s.table.take size = s.table := take_of_length_le hsize
  refine ⟨⟨size, ?_, ?_⟩, ?_⟩
  · unfold contextResize
    dsimp only
    rw [htake, hlen, hn, htable, hrange]
  · unfold contextResize fds
    dsimp only
    rw [map_append, map_map]
    change fds s ++ map (fun fd => fd) _ = _
    rw [map_id'', hfds, hn, hrange]
    exact fun _ => rfl
  · unfold contextResize
    dsimp only
    rw [htake]
    exact prefix_append _ _

theorem start_aligned : Aligned start :=
  (contextResize_aligned ⟨0, rfl, rfl⟩ (Nat.zero_le 32)).1

theorem withLock_fds (hs : Inv s) (i ptr) {work : Locked → Except Abort (Bool × Locked)}
    (hwork : ∀ fd k l, Sound fd k l → Post (fun r => Sound fd k r.2) (fun _ => True) (work l)) :
    Post (fun t => t.table = s.table ∧ fds t = fds s) (fun _ => True) (withLock i ptr work s) := by
  unfold withLock
  split
  · exact ⟨rfl, rfl⟩
  · rename_i ctx hctx
    refine Post.bind (hwork _ _ _ (hs.sound hctx)) ?_
    intro ⟨_, l⟩ hl
    refine ⟨rfl, ?_⟩
    unfold fds
    dsimp only
    rw [map_set, hl.fd]
    have hfd : (s.heap.map (·.fd))[ptr]? = some ctx.fd := by
      rw [getElem?_map, hctx]
      rfl
    obtain ⟨hlt, heq⟩ := List.getElem?_eq_some_iff.mp hfd
    rw [← heq, set_getElem_self]

def NoShrink (s : State) : Action → Prop
  | .grow i =>
    match s.flight[i]? with
    | some (.grow fd _ _ _) => s.table.length ≤ grownSize fd
    | _ => True
  | _ => True

instance (s : State) (a : Action) : Decidable (NoShrink s a) := by
  unfold NoShrink
  exact match a with
    | .grow i => by
      dsimp only
      exact match s.flight[i]? with
        | some (.grow _ _ _ _) => Nat.decLe _ _
        | none | some (.call _ _) | some (.report _ _ _) => instDecidableTrue
    | .call _ _ | .lock _ _ | .wait _ | .close _ => instDecidableTrue

theorem exec_aligned (hs : Inv s) (h : Aligned s) (ha : NoShrink s a) :
    Post (fun t => Aligned t ∧ s.table <+: t.table) (fun _ => True) (exec a s) := by
  have same : ∀ t : State, t.table = s.table ∧ fds t = fds s → Aligned t ∧ s.table <+: t.table := by
    rintro t ⟨htable, hfds⟩
    obtain ⟨n, h₁, h₂⟩ := h
    exact ⟨⟨n, htable.trans h₁, hfds.trans h₂⟩, htable ▸ prefix_rfl⟩
  cases a with
  | call fd c =>
    rw [exec]
    unfold probe
    split
    · exact same _ ⟨rfl, rfl⟩
    · split <;> exact same _ ⟨rfl, rfl⟩
  | grow i =>
    rw [exec]
    split
    · rename_i fd e cb caller hjob
      simp only [NoShrink, hjob] at ha
      obtain ⟨haligned, hgrows⟩ := contextResize_aligned h ha
      unfold growTable
      dsimp only
      split
      · exact ⟨haligned, hgrows⟩
      · trivial
    · exact same s ⟨rfl, rfl⟩
  | lock i granted =>
    rw [exec]
    split
    · refine (withLock_fds hs i _ ?_).imp same
      intro fd k l hl
      exact (Call.work_sound hl _ granted).mono (fun _ h => h) fun _ _ => trivial
    · refine (withLock_fds hs i _ ?_).imp same
      intro fd k l hl
      exact (handleReport_sound hl _ _ granted).mono (fun _ h => h) fun _ _ => trivial
    · exact same s ⟨rfl, rfl⟩
  | wait reports => exact same _ ⟨rfl, rfl⟩
  | close fd => exact same _ ⟨rfl, rfl⟩

/-! ## Runs -/

/-- What the table at `s` promises for a later `t`: a context stays at its
descriptor, and a call for the descriptor of a registered event finds it. -/
structure Kept (s t : State) : Prop where
  stays : ∀ fd ptr, s.table[fd]? = some ptr →
    t.table[fd]? = some ptr ∧ ∃ c : FdContext, t.heap[ptr]? = some c ∧ c.fd = fd
  found : ∀ (ptr : Nat) (c : FdContext), t.heap[ptr]? = some c → c.events ≠ ∅ → ∀ call,
    probe c.fd call t = { t with flight := t.flight ++ [Job.call ptr call] }

theorem Aligned.kept {s t : State} (h : Aligned t) (hgrows : s.table <+: t.table) : Kept s t where
  stays := by
    intro fd ptr hp
    obtain ⟨hlt, _⟩ := List.getElem?_eq_some_iff.mp hp
    have ht : t.table[fd]? = some ptr := by
      obtain ⟨rest, hrest⟩ := hgrows
      rw [← hrest, getElem?_append_left hlt, hp]
    exact ⟨ht, h.context ht⟩
  found := by
    intro ptr c hc _ call
    unfold probe
    rw [h.lookup hc]

theorem run_aligned (hs : Inv s) (h : Aligned s) (schedule) (hC : Along exec NoShrink schedule s) :
    Post (fun t => Inv t ∧ Aligned t ∧ s.table <+: t.table) (fun _ => True)
      (run exec schedule s) := by
  refine post_run (C := NoShrink) ?_ schedule s hC ⟨hs, h, prefix_rfl⟩
  rintro u a ⟨hu, halign, hgrows⟩ ha
  have hinv := exec_inv hu a
  have htable := exec_aligned hu halign ha
  cases hx : exec a u with
  | ok v =>
    rw [hx] at hinv htable
    exact ⟨hinv, htable.1, hgrows.trans htable.2⟩
  | error b => trivial

/-- In any schedule in which no thread makes the table smaller, a context stays in the table, and
every registered event can be deleted and cancelled. -/
theorem contexts_stay_in_table (before after : List Action)
    (h : Along exec NoShrink (before ++ after) start) :
    Post (fun s => Post (Kept s) (fun _ => True) (run exec after s)) (fun _ => True)
      (run exec before start) := by
  cases hs : run exec before start with
  | error b => trivial
  | ok s =>
    obtain ⟨hbefore, hafter⟩ := along_append h hs
    have hfirst := run_aligned start_inv start_aligned before hbefore
    rw [hs] at hfirst
    obtain ⟨hinv, halign, _⟩ := hfirst
    exact (run_aligned hinv halign after hafter).mono (fun t ht => ht.2.1.kept ht.2.2)
      fun _ h => h

def growTo (fd : Nat) : List Action :=
  [.call fd (.addEvent .read none worker), .grow 0, .lock 0 true]

theorem contexts_stay_in_table_grown :
    Post (fun s => Post (Kept s) (fun _ => True) (run exec (growTo 50) s)) (fun _ => True)
        (run exec (growTo 32) start) ∧
      Post (fun t => t.table.length = 75 ∧ t.pending = 2) (fun _ => False)
        (run exec (growTo 32 ++ growTo 50) start) :=
  ⟨contexts_stay_in_table _ _ (by decide +kernel), by decide +kernel⟩

/-- Two threads find the table of 32 too short, for descriptors 100 and 32. The
first makes it 150 long and registers its event. -/
def twoProbes : List Action :=
  [.call 100 (.addEvent .read none worker), .call 32 (.addEvent .read none worker),
    .grow 0, .lock 0 true]

/-- The second then makes the table 48 long: the context of descriptor 100 is no
longer there, and its event is still registered. -/
theorem twoProbes_grow : Post (fun s => s.table[100]? = some 100 ∧
        Post (fun t => t.table[100]? = none ∧ ∃ c ∈ t.heap[100]?, c.events = {.read})
          Never (run exec [.grow 0] s))
      Never (run exec twoProbes start) := by
  decide +kernel

theorem late_growth_drops_context :
    ¬ Post (fun s => Post (Kept s) (fun _ => True) (run exec [.grow 0] s)) (fun _ => True)
      (run exec twoProbes start) := by
  intro hkept
  have hdrop := twoProbes_grow
  cases hs : run exec twoProbes start with
  | error b =>
    rw [hs] at hdrop
    exact hdrop
  | ok s =>
    rw [hs] at hdrop hkept
    obtain ⟨hthere, hgone⟩ := hdrop
    change Post (Kept s) _ _ at hkept
    cases ht : run exec [.grow 0] s with
    | error b =>
      rw [ht] at hgone
      exact hgone
    | ok t =>
      rw [ht] at hgone hkept
      have hstays := (hkept.stays 100 100 hthere).1
      rw [hgone.1] at hstays
      cases hstays

end Helens.IOManager
