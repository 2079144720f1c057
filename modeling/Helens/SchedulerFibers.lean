import Mathlib.Algebra.Order.BigOperators.Group.List
import Mathlib.Algebra.Order.Ring.Int
import Mathlib.Algebra.Order.Ring.Nat
import Helens.Scheduler

/-! What the workers do with fibers. As long as no worker is handed a fiber that another has in
hand, no fiber runs on two threads. `m_activeThreadCount` counts the workers between the look and
the decrement behind `swapIn`, so `stopping` misses exactly those behind it that still put a fiber
back. -/

namespace Helens.Scheduler

open Lib Lib.Runs List

/-! ## Counted workers -/

def Cont.active : Cont → Nat
  | .dispatch (some _) => 1
  | _ => 0

def Pc.active : Pc → Nat
  | .tickle k | .write k => k.active
  | .dispatch (some _) | .drop | .swapIn _ _ | .running _ _ | .swapOut _ _ | .back _ _ => 1
  | _ => 0

variable (k : Cont) {f : Nat}

@[simp] theorem Cont.active_pc : k.pc.active = k.active := by
  cases k with
  | dispatch ft => cases ft <;> rfl
  | loop => rfl
  | handle report => rfl

theorem Moves.active {self : Nat} {c : Choice} {w w' : Worker} {s s' : Shared}
    (h : Moves self c w s w' s') :
    s'.activeThreadCount + w.pc.active = s.activeThreadCount + w'.pc.active := by
  cases h with
  | noIdle =>
    rw [Cont.active_pc]
    rfl
  | write =>
    rw [Cont.active_pc]
    rfl
  | expire => split <;> simp [Pc.active]
  | _ => simp [Pc.active, Cont.active, setState]

def Cont.idling : Cont → Nat
  | .handle _ => 1
  | _ => 0

def Pc.idling : Pc → Nat
  | .tickle k | .write k => k.idling
  | .idle | .check _ | .armed _ | .blocked _ | .woken _ | .posting _ _ | .handling _ | .leave => 1
  | _ => 0

@[simp] theorem Cont.idling_pc : k.pc.idling = k.idling := by
  cases k <;> rfl

theorem Moves.idling {self : Nat} {c : Choice} {w w' : Worker} {s s' : Shared}
    (h : Moves self c w s w' s') :
    s'.idleThreadCount + w.pc.idling = s.idleThreadCount + w'.pc.idling := by
  cases h with
  | noIdle =>
    rw [Cont.idling_pc]
    rfl
  | write =>
    rw [Cont.idling_pc]
    rfl
  | expire => split <;> simp [Pc.idling]
  | _ => simp [Pc.idling, Cont.idling, setState]

/-! ## Fibers in hand -/

def Task.hand : Task → Option Nat
  | .fiber f => some f
  | .cb _ => none

def Cont.hand : Cont → Option Nat
  | .dispatch (some t) => t.hand
  | _ => none

def Pc.hand : Pc → Option Nat
  | .tickle k | .write k => k.hand
  | .dispatch (some t) => t.hand
  | .swapIn f _ | .running f _ | .swapOut f _ | .back f _ => some f
  | .after f _ | .requeue f _ | .park f _ | .recycle f => some f
  | _ => none

def Pc.starting : Pc → Option Nat
  | .tickle k | .write k => k.hand
  | .dispatch (some t) => t.hand
  | .swapIn f _ => some f
  | _ => none

def Pc.runs : Pc → Option Nat
  | .running f _ | .swapOut f _ => some f
  | _ => none

/-- The fiber a worker's next step takes in hand: one from the queue, or its
`cb_fiber` for another callback. -/
def takes (self : Nat) (w : Worker) (s : Shared) : Option Nat :=
  match w.pc with
  | .scan => (scanFibers s.state self s.fibers).1.bind Task.hand
  | .dispatch (some (.cb _)) => w.cbFiber
  | _ => none

/-- A worker takes a fiber in hand only if no other worker has it. -/
def TakenAlone (s : State) : Action → Prop
  | .worker i _ =>
    ∀ w ∈ s.workers[i]?, ∀ f ∈ takes i w s.shared, ∀ v ∈ s.workers.eraseIdx i, v.pc.hand ≠ some f
  | _ => True

instance (s : State) : (a : Action) → Decidable (TakenAlone s a)
  | .worker i _ =>
    inferInstanceAs (Decidable (∀ w ∈ s.workers[i]?, _))
  | .create | .schedule _ | .addTimer _ _ _ _ _ | .reset _ _ _ _ | .stop | .notify | .write =>
    inferInstanceAs (Decidable True)

@[simp] theorem Cont.hand_pc : k.pc.hand = k.hand := by
  cases k with
  | dispatch ft => cases ft <;> rfl
  | loop => rfl
  | handle report => rfl

@[simp] theorem Cont.starting_pc : k.pc.starting = k.hand := by
  cases k with
  | dispatch ft => cases ft <;> rfl
  | loop => rfl
  | handle report => rfl

theorem Pc.hand_of_runs {pc : Pc} (h : pc.runs = some f) : pc.hand = some f := by
  cases pc <;> simp_all [Pc.runs, Pc.hand]

theorem Pc.hand_of_starting {pc : Pc} (h : pc.starting = some f) : pc.hand = some f := by
  cases pc with
  | dispatch ft =>
    cases ft with
    | none => cases h
    | some t => exact h
  | tickle k => exact h
  | write k => exact h
  | swapIn g own => exact h
  | _ => cases h

/-- What the look through the queue takes was there, and not in `EXEC`. -/
theorem scanFibers_some {state : Nat → FiberState} {self : Nat}
    (h : scanFibers state self fibers = (some ft, left, tickleMe)) :
    (∃ it ∈ fibers, it.task = ft) ∧ (∀ it ∈ left, it ∈ fibers) ∧
      ∀ f, ft = .fiber f → state f ≠ .exec := by
  induction fibers generalizing left tickleMe with
  | nil => cases h
  | cons it rest ih =>
    rcases hrest : scanFibers state self rest with ⟨ft', left', tickleMe'⟩
    have hskip : ∀ {b}, (ft', it :: left', b) = (some ft, left, tickleMe) →
        (∃ x ∈ it :: rest, x.task = ft) ∧ (∀ x ∈ left, x ∈ it :: rest) ∧
          ∀ f, ft = .fiber f → state f ≠ .exec := by
      rintro b heq
      cases heq
      obtain ⟨⟨x, hx, hxt⟩, hleft, hstate⟩ := ih hrest
      refine ⟨⟨x, mem_cons_of_mem _ hx, hxt⟩, ?_, hstate⟩
      intro y hy
      rcases mem_cons.mp hy with rfl | hy
      · exact mem_cons_self
      · exact mem_cons_of_mem _ (hleft y hy)
    unfold scanFibers at h
    rw [hrest] at h
    split at h
    · exact hskip h
    · split at h
      · exact hskip h
      · rename_i hexec
        cases h
        refine ⟨⟨it, mem_cons_self, rfl⟩, fun x hx => mem_cons_of_mem _ hx, ?_⟩
        intro f hf hstate
        exact hexec (by simp [FiberAndThread.executing, hf, hstate])

section
variable {w w' : Worker}

theorem eq_of_setState_ne {f g : Nat} (h : (setState s f x).state g ≠ s.state g) : g = f := by
  by_contra hne
  exact h (Function.update_of_ne hne _ _)

theorem Moves.hand (h : Moves self c w s w' s') (hf : w'.pc.hand = some f) :
    w.pc.hand = some f ∨ takes self w s = some f ∨ f = s.made ∧ f < s'.made := by
  cases h with
  | take hscan =>
    right; left
    rw [takes, hscan]
    exact hf
  | takeTickle hscan =>
    right; left
    rw [takes, hscan]
    exact hf
  | noIdle => exact .inl (by rwa [Cont.hand_pc] at hf)
  | write => exact .inl (by rwa [Cont.hand_pc] at hf)
  | start => exact .inl hf
  | reuse => exact .inr (.inl hf)
  | fresh =>
    obtain rfl := Option.some.inj hf
    exact .inr (.inr ⟨rfl, Nat.lt_succ_self _⟩)
  | expire => split at hf <;> cases hf
  | _ => first | exact .inl hf | cases hf

theorem Moves.state (h : Moves self c w s w' s') (hf : s'.state f ≠ s.state f) :
    w.pc.hand = some f ∨ takes self w s = some f ∨ f = s.made := by
  cases h with
  | swapIn | ready | finish | park | recycle =>
    obtain rfl := eq_of_setState_ne hf
    exact .inl rfl
  | reuse =>
    obtain rfl := eq_of_setState_ne hf
    exact .inr (.inl rfl)
  | fresh => exact .inr (.inr (eq_of_setState_ne hf))
  | _ => exact absurd rfl hf

/-- A worker that is about to swap a fiber in has not found it in `EXEC`. -/
theorem Moves.starting (h : Moves self c w s w' s')
    (hw : ∀ f, w.pc.starting = some f → s.state f ≠ .exec)
    (hf : w'.pc.starting = some f) : s'.state f ≠ .exec := by
  cases h with
  | @take _ _ _ ft _ hscan | @takeTickle _ _ _ ft _ hscan =>
    refine (scanFibers_some hscan).2.2 f ?_
    cases ft with
    | fiber g => rw [Option.some.inj hf]
    | cb g => cases hf
  | noIdle =>
    rw [Cont.starting_pc] at hf
    exact hw f hf
  | write =>
    rw [Cont.starting_pc] at hf
    exact hw f hf
  | reuse | fresh =>
    obtain rfl := Option.some.inj hf
    simp [setState]
  | expire => split at hf <;> cases hf
  | stay | notify | start => exact hw f hf
  | _ => cases hf

/-- What is in hand, queued or kept as `cb_fiber` exists. -/
structure Known (made : Nat) (w : Worker) : Prop where
  hand : ∀ f, w.pc.hand = some f → f < made
  cbFiber : ∀ f, w.cbFiber = some f → f < made

theorem Known.mono {w : Worker} (h : Known made w) (hle : made ≤ made') : Known made' w :=
  ⟨fun f hf => Nat.lt_of_lt_of_le (h.hand f hf) hle,
    fun f hf => Nat.lt_of_lt_of_le (h.cbFiber f hf) hle⟩

theorem Moves.made (h : Moves self c w s w' s') : s.made ≤ s'.made := by
  cases h with
  | fresh => exact Nat.le_succ _
  | _ => exact Nat.le_refl _

theorem takes_lt (hq : ∀ ft ∈ s.fibers, ft.Known s.made) (hw : Known s.made w)
    (hf : takes self w s = some f) : f < s.made := by
  unfold takes at hf
  split at hf
  · obtain ⟨ft, hft, hhand⟩ := Option.bind_eq_some_iff.mp hf
    rcases hscan : scanFibers s.state self s.fibers with ⟨ft', left, tickleMe⟩
    rw [hscan] at hft
    obtain rfl : ft' = some ft := hft
    obtain ⟨it, hit, htask⟩ := (scanFibers_some hscan).1
    refine hq it hit f ?_
    rw [htask]
    cases ft with
    | fiber g => rw [Option.some.inj hhand]
    | cb g => cases hhand
  · exact hw.cbFiber f hf
  · cases hf

theorem Moves.queued (h : Moves self c w s w' s') (hq : ∀ ft ∈ s.fibers, ft.Known s.made)
    (hw : Known s.made w) : ∀ ft ∈ s'.fibers, ft.Known s'.made := by
  cases h with
  | take hscan | takeTickle hscan => exact fun ft hft => hq ft ((scanFibers_some hscan).2.1 ft hft)
  | fresh =>
    intro ft hft f hf
    exact Nat.lt_succ_of_lt (hq ft hft f hf)
  | requeueFirst =>
    intro ft hft f hf
    rw [mem_singleton.mp hft] at hf
    cases hf
    exact hw.hand _ rfl
  | requeue =>
    intro ft hft f hf
    rcases mem_append.mp hft with hft | hft
    · exact hq ft hft f hf
    · rw [mem_singleton.mp hft] at hf
      cases hf
      exact hw.hand _ rfl
  | postFirst =>
    intro ft hft f hf
    obtain ⟨g, _, rfl⟩ := mem_map.mp hft
    cases hf
  | post =>
    intro ft hft f hf
    rcases mem_append.mp hft with hft | hft
    · exact hq ft hft f hf
    · obtain ⟨g, _, rfl⟩ := mem_map.mp hft
      cases hf
  | _ => exact hq

theorem Moves.known (h : Moves self c w s w' s') (hq : ∀ ft ∈ s.fibers, ft.Known s.made)
    (hw : Known s.made w) : Known s'.made w' := by
  have hmade := h.made
  refine ⟨?_, ?_⟩
  · intro f hf
    rcases h.hand hf with hf' | hf' | hf'
    · exact Nat.lt_of_lt_of_le (hw.hand f hf') hmade
    · exact Nat.lt_of_lt_of_le (takes_lt hq hw hf') hmade
    · exact hf'.2
  · intro f hf
    cases h with
    | fresh =>
      obtain rfl := Option.some.inj hf
      exact Nat.lt_succ_self _
    | requeueFirst | requeue | park =>
      split at hf
      · cases hf
      · exact hw.cbFiber f hf
    | _ => exact hw.cbFiber f hf

end

/-! ## What every run keeps -/

/-- What every run keeps: both counters are right, and the fibers in hand or
queued exist. -/
structure Sound (s : State) : Prop where
  active : s.shared.activeThreadCount = ((s.workers.map fun w => w.pc.active).sum : Nat)
  idling : s.shared.idleThreadCount = ((s.workers.map fun w => w.pc.idling).sum : Nat)
  queued : ∀ ft ∈ s.shared.fibers, ft.Known s.shared.made
  known : ∀ w ∈ s.workers, Known s.shared.made w

theorem Sound.move {s : State} (h : Sound s) {c : Choice} {w w' : Worker}
    (hw : s.workers[i]? = some w) (hmove : Moves i c w s.shared w' shared) :
    Sound { shared := shared, workers := s.workers.set i w' } := by
  have hknown := h.known w (mem_of_getElem? hw)
  refine ⟨?_, ?_, hmove.queued h.queued hknown, ?_⟩
  · have hactive := hmove.active
    have hsum := sum_map_set (fun w : Worker => w.pc.active) hw w'
    have hcount := h.active
    dsimp only at hsum ⊢
    omega
  · have hidling := hmove.idling
    have hsum := sum_map_set (fun w : Worker => w.pc.idling) hw w'
    have hcount := h.idling
    dsimp only at hsum ⊢
    omega
  · intro v hv
    rcases (mem_set_iff_eraseIdx hw w' v).mp hv with rfl | hv
    · exact hmove.known h.queued hknown
    · exact (h.known v (mem_of_mem_eraseIdx hv)).mono hmove.made

theorem Sound.outer {s : State} (h : Sound s)
    (houter : Outer n a s.shared shared) : Sound { s with shared := shared } := by
  refine ⟨?_, ?_, ?_, ?_⟩
  · cases houter <;> exact h.active
  · cases houter <;> exact h.idling
  · cases houter with
    | create =>
      intro ft hft f hf
      exact Nat.lt_succ_of_lt (h.queued ft hft f hf)
    | scheduleFirst hknown => exact hknown
    | schedule hknown =>
      intro ft hft
      rcases mem_append.mp hft with hft | hft
      · exact h.queued ft hft
      · exact hknown ft hft
    | _ => exact h.queued
  · cases houter with
    | create => exact fun w hw => (h.known w hw).mono (Nat.le_succ _)
    | _ => exact h.known

theorem exec_sound (s a) (h : Sound s) : Post Sound (fun _ => True) (exec a s) :=
  post_exec (fun _ houter => h.outer houter) (fun _ _ _ _ _ _ hw hmove => h.move hw hmove)
    fun _ _ => trivial

theorem init_sound (n now) : Sound (init n now) := by
  refine ⟨by simp [init, Pc.active], by simp [init, Pc.idling], by simp [init], ?_⟩
  intro w hw
  rw [eq_of_mem_replicate hw]
  exact ⟨nofun, nofun⟩

/-- **In every interleaving** the counters count the workers, and no fiber is made up. -/
theorem runs_counted (n now : Nat) (as : List Action) :
    Post Sound (fun _ => True) (run exec as (init n now)) :=
  post_run_all exec_sound as _ (init_sound n now)

theorem Sound.idle_pos {s : State} (h : Sound s) {w : Worker} (hw : w ∈ s.workers)
    (hidle : w.pc.idling = 1) : s.shared.idleThreadCount > 0 := by
  have hle := le_sum_of_mem (mem_map_of_mem (f := fun w : Worker => w.pc.idling) hw)
  have hcount := h.idling
  omega

/-! ## No fiber runs twice -/

structure Held (s : State) : Prop where
  sound : Sound s
  alone : ∀ (i j : Nat) (v w : Worker) (f : Nat), s.workers[i]? = some v → s.workers[j]? = some w →
    v.pc.hand = some f → w.pc.hand = some f → i = j
  starting : ∀ w ∈ s.workers, ∀ f, w.pc.starting = some f → s.shared.state f ≠ .exec

theorem Held.apart {s : State} (h : Held s) {c : Choice}
    (hC : TakenAlone s (.worker i c)) {w v : Worker} {j f : Nat} (hw : s.workers[i]? = some w)
    (hv : s.workers[j]? = some v) (hj : j ≠ i)
    (hf : w.pc.hand = some f ∨ takes i w s.shared = some f ∨ f = s.shared.made) :
    v.pc.hand ≠ some f := by
  intro hhand
  rcases hf with hf | hf | rfl
  · exact hj (h.alone j i v w f hv hw hhand hf)
  · exact hC w hw f hf v (mem_eraseIdx_iff_getElem?.mpr ⟨j, hj, hv⟩) hhand
  · exact Nat.lt_irrefl _ ((h.sound.known v (mem_of_getElem? hv)).hand _ hhand)

theorem Held.move {s : State} (h : Held s) {c : Choice}
    (hC : TakenAlone s (.worker i c)) {w w' : Worker}
    (hw : s.workers[i]? = some w) (hmove : Moves i c w s.shared w' shared) :
    Held { shared := shared, workers := s.workers.set i w' } := by
  have hwm := mem_of_getElem? hw
  have hi : i < s.workers.length := (List.getElem?_eq_some_iff.mp hw).1
  -- another worker's fiber is not the one that comes into hand
  have hother : ∀ j v f, s.workers[j]? = some v → j ≠ i → v.pc.hand = some f →
      w'.pc.hand ≠ some f := by
    intro j v f hv hj hhand hf
    refine h.apart hC hw hv hj ?_ hhand
    rcases hmove.hand hf with hf | hf | hf
    · exact .inl hf
    · exact .inr (.inl hf)
    · exact .inr (.inr hf.1)
  have hget : ∀ j v, (s.workers.set i w')[j]? = some v →
      j = i ∧ v = w' ∨ j ≠ i ∧ s.workers[j]? = some v := by
    intro j v hv
    rw [getElem?_set] at hv
    by_cases hij : i = j
    · rw [if_pos hij, if_pos hi] at hv
      exact .inl ⟨hij.symm, (Option.some.inj hv).symm⟩
    · rw [if_neg hij] at hv
      exact .inr ⟨fun hji => hij hji.symm, hv⟩
  refine ⟨h.sound.move hw hmove, ?_, ?_⟩
  · intro j k v u f hv hu hvf huf
    rcases hget j v hv with ⟨hj, rfl⟩ | ⟨hj, hv'⟩ <;>
      rcases hget k u hu with ⟨hk, rfl⟩ | ⟨hk, hu'⟩
    · rw [hj, hk]
    · exact absurd hvf (hother k u f hu' hk huf)
    · exact absurd huf (hother j v f hv' hj hvf)
    · exact h.alone j k v u f hv' hu' hvf huf
  · intro v hv f hf
    obtain ⟨j, hv⟩ := mem_iff_getElem?.mp hv
    rcases hget j v hv with ⟨rfl, rfl⟩ | ⟨hj, hv⟩
    · exact hmove.starting (h.starting w hwm) hf
    · have hkeep : shared.state f = s.shared.state f := by
        by_contra hne
        exact h.apart hC hw hv hj (hmove.state hne) (Pc.hand_of_starting hf)
      rw [hkeep]
      exact h.starting v (mem_of_getElem? hv) f hf

theorem exec_held (s a) (h : Held s) (hC : TakenAlone s a) :
    Post Held (fun e => e ≠ .swapInExec) (exec a s) := by
  refine post_exec ?_ ?_ ?_
  · intro shared houter
    have hstate : shared.state = s.shared.state := by cases houter <;> rfl
    refine ⟨h.sound.outer houter, h.alone, ?_⟩
    rw [hstate]
    exact h.starting
  · rintro i c w w' shared rfl hw hmove
    exact h.move hC hw hmove
  · rintro e hstop rfl
    obtain ⟨i, w, f, own, hw, hpc, hexec⟩ := hstop rfl
    refine h.starting w (mem_of_getElem? hw) f ?_ hexec
    rw [hpc]
    rfl

theorem init_held (n now) : Held (init n now) := by
  have hpc : ∀ w ∈ (init n now).workers, w = {} := fun w hw => eq_of_mem_replicate hw
  refine ⟨init_sound n now, ?_, ?_⟩
  · intro i j v w f hv _ hf
    rw [hpc v (mem_of_getElem? hv)] at hf
    cases hf
  · intro w hw f hf
    rw [hpc w hw] at hf
    cases hf

def RunsOnce (s : State) : Prop :=
  s.workers.Pairwise fun v w => v.pc.runs = none ∨ v.pc.runs ≠ w.pc.runs

instance : DecidablePred RunsOnce := fun s =>
  inferInstanceAs
    (Decidable (s.workers.Pairwise fun v w => v.pc.runs = none ∨ v.pc.runs ≠ w.pc.runs))

/-- **In a run where no worker takes a fiber that another has in hand,** no
fiber is executed by two threads at once, and `swapIn` never finds `EXEC`. -/
theorem fibers_run_once (n now : Nat) (as : List Action)
    (h : Along exec TakenAlone as (init n now)) :
    Post RunsOnce (fun e => e ≠ .swapInExec) (run exec as (init n now)) := by
  apply (post_run exec_held as _ h (init_held n now)).imp
  intro s hs
  refine pairwise_iff_getElem.mpr ?_
  intro i j hi hj hij
  cases hf : (s.workers[i]).pc.runs with
  | none => exact .inl rfl
  | some f =>
    refine .inr fun heq => Nat.ne_of_lt hij ?_
    exact hs.alone i j _ _ f (getElem?_eq_getElem hi) (getElem?_eq_getElem hj)
      (Pc.hand_of_runs hf) (Pc.hand_of_runs heq.symm)

def queuedTwice : List Action :=
  [.create, .schedule [{ task := .fiber 0 }], .schedule [{ task := .fiber 0 }]]

def parkedFirst : List Action :=
  queuedTwice ++
    [Action.worker 0 .go, .worker 0 .go, .worker 0 .go, .worker 0 .go, .worker 0 .yieldToHold,
      .worker 0 .go, .worker 0 .go, .worker 0 .go, .worker 0 .go,
      .worker 1 .go, .worker 1 .go, .worker 1 .go]

theorem fibers_run_once_parked : Along exec TakenAlone parkedFirst (init 2 0) ∧
      Post RunsOnce (fun e => e ≠ .swapInExec) (run exec parkedFirst (init 2 0)) := by
  have halone : Along exec TakenAlone parkedFirst (init 2 0) := by decide +kernel
  exact ⟨halone, fibers_run_once 2 0 parkedFirst halone⟩

/-- Both entries are taken before either worker swaps the fiber in; or the second when the fiber,
still on its thread, has set `READY`. -/
theorem queued_twice_runs_twice : run exec (queuedTwice ++
        [Action.worker 0 .go, .worker 0 .go, .worker 1 .go, .worker 0 .go, .worker 1 .go,
          .worker 0 .go, .worker 1 .go]) (init 2 0) = .error .swapInExec ∧
      Post (fun s => ¬ RunsOnce s) (fun _ => False) (run exec (queuedTwice ++
          [Action.worker 0 .go, .worker 0 .go, .worker 0 .go, .worker 0 .go,
            .worker 0 .yieldToReady, .worker 1 .go, .worker 1 .go, .worker 1 .go]) (init 2 0)) :=
  ⟨rfl, by decide +kernel⟩

/-! ## When `stopping` is true -/

/-- The worker holds a task from the look through the queue to the end of `swapIn`, or a fiber that
it finds `READY`. -/
def Worker.HoldsTask (state : Nat → FiberState) (w : Worker) : Prop :=
  match w.pc with
  | .tickle (.dispatch (some _)) | .write (.dispatch (some _)) | .dispatch (some _) => True
  | .swapIn _ _ | .running _ _ | .swapOut _ _ | .back _ _ | .requeue _ _ => True
  | .after f _ => state f = .ready
  | _ => False

/-- The worker stands between `--m_activeThreadCount` and the `schedule` of a fiber
that yielded `READY`. -/
def Worker.Requeues (state : Nat → FiberState) (w : Worker) : Prop :=
  match w.pc with
  | .requeue _ _ => True
  | .after f _ => state f = .ready
  | _ => False

instance (state : Nat → FiberState) (w : Worker) : Decidable (w.HoldsTask state) := by
  unfold Worker.HoldsTask
  split <;> infer_instance

instance (state : Nat → FiberState) (w : Worker) : Decidable (w.Requeues state) := by
  unfold Worker.Requeues
  split <;> infer_instance

def Idle (s : State) : Prop :=
  s.shared.fibers = [] ∧ ∀ w ∈ s.workers, ¬ w.HoldsTask s.shared.state

instance : DecidablePred Idle := fun s =>
  inferInstanceAs (Decidable (_ ∧ _))

theorem Worker.holdsTask_iff (state : Nat → FiberState) (w : Worker) :
    w.HoldsTask state → w.pc.active = 1 ∨ w.Requeues state := by
  unfold HoldsTask Requeues
  split <;> simp_all [Pc.active, Cont.active]

theorem Worker.Requeues.holdsTask {state : Nat → FiberState} {w : Worker} (h : w.Requeues state) :
    w.HoldsTask state := by
  unfold Requeues at h
  unfold HoldsTask
  split at h <;> simp_all

/-- **In every state reached, `stopping` returns true** only with an empty queue and no task in
hand, unless a worker stands between its decrement and the `schedule` of a `READY` fiber; then it is
too early. -/
theorem stopping_idle_iff (n now : Nat) (as : List Action) :
    Post (fun s => stopping s.shared = true →
        (Idle s ↔ ∀ w ∈ s.workers, ¬ w.Requeues s.shared.state))
      (fun _ => True) (run exec as (init n now)) := by
  apply (post_run_all exec_sound as _ (init_sound n now)).imp
  intro s hs hstop
  unfold stopping at hstop
  simp only [Bool.and_eq_true, List.isEmpty_iff, beq_iff_eq] at hstop
  have hzero : (s.workers.map fun w => w.pc.active).sum = 0 := by
    have hcount := hstop.2
    rw [hs.active] at hcount
    exact_mod_cast hcount
  constructor
  · rintro ⟨_, hidle⟩ w hw hback
    exact hidle w hw hback.holdsTask
  · intro hback
    refine ⟨hstop.1.2, fun w hw htask => ?_⟩
    rcases w.holdsTask_iff s.shared.state htask with hactive | hback'
    · have hle := le_sum_of_mem (mem_map_of_mem (f := fun w : Worker => w.pc.active) hw)
      omega
    · exact hback w hw hback'

/-- A fiber yields `READY` on one worker; before it is queued again the other worker
finds that the scheduler may stop. -/
theorem stopping_drops_ready_fiber :
    Post (fun s => stopping s.shared = true ∧ ¬ Idle s) (fun _ => False) (run exec
        [.create, .schedule [{ task := .fiber 0 }], .stop, .worker 0 .go, .worker 0 .go,
          .worker 0 .go, .worker 0 .yieldToReady, .worker 0 .go, .worker 0 .go] (init 2 0)) := by
  decide

end Helens.Scheduler
