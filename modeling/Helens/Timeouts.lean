import Helens.Scheduler
import Helens.Stream

/-! Times on their way through integer types: from the earliest deadline to the timeout of
`epoll_wait`, and from the argument of a hooked `sleep` to a deadline. A remaining time is cut to an
`int` before it is bounded; `sleep` multiplies in 32 bits, `usleep` and `nanosleep` round down. -/

namespace Helens
open Lib Lib.Runs

/-! ## The timeout of `epoll_wait` -/

namespace Scheduler

def maxTimeout : Nat := 3000

def nextTimeout (next : Option Nat) : Nat := next.getD (2 ^ 64 - 1)

def boundTimeout (next : Nat) : Nat :=
  if next ≠ 2 ^ 64 - 1 then
    if toInt32 next > maxTimeout then maxTimeout else next
  else maxTimeout

/-- The timeouts that `epoll_wait` is given when it is interrupted as often. -/
def epollWaits : Nat → Nat → List Int
  | 0, next => [toInt32 (boundTimeout next)]
  | interrupts + 1, next =>
    toInt32 (boundTimeout next) :: epollWaits interrupts (boundTimeout next)

def Fits (next : Nat) : Prop := next = 2 ^ 64 - 1 ∨ next ≤ maxTimeout ∨ toInt32 next ≥ maxTimeout

theorem fits_of_lt (h : next < 2 ^ 31) : Fits next := by
  unfold Fits maxTimeout
  rw [Stream.toInt32_of_lt h]
  omega

theorem boundTimeout_cases (next : Nat) :
    ((next = 2 ^ 64 - 1 ∨ toInt32 next > maxTimeout) ∧ boundTimeout next = maxTimeout) ∨
      (next ≠ 2 ^ 64 - 1 ∧ toInt32 next ≤ maxTimeout ∧ boundTimeout next = next) := by
  by_cases hnone : next = 2 ^ 64 - 1
  · exact .inl ⟨.inl hnone, if_neg (not_not.mpr hnone)⟩
  · by_cases hlong : toInt32 next > maxTimeout
    · exact .inl ⟨.inr hlong, (if_pos hnone).trans (if_pos hlong)⟩
    · exact .inr ⟨hnone, not_lt.mp hlong, (if_pos hnone).trans (if_neg hlong)⟩

theorem boundTimeout_idem (next) : boundTimeout (boundTimeout next) = boundTimeout next := by
  rcases boundTimeout_cases next with ⟨-, hmax⟩ | ⟨-, -, hnext⟩
  · rw [hmax]
    decide
  · rw [hnext, hnext]

theorem epollWaits_eq (interrupts next) :
    epollWaits interrupts next = List.replicate (interrupts + 1) (toInt32 (boundTimeout next)) := by
  induction interrupts generalizing next with
  | zero => rfl
  | succ interrupts ih => rw [epollWaits, ih, boundTimeout_idem, ← List.replicate_succ]

theorem toInt32_boundTimeout_iff (next) :
    toInt32 (boundTimeout next) = min (next : Int) maxTimeout ↔ Fits next := by
  have hmax : toInt32 maxTimeout = maxTimeout := by decide
  have hint := Stream.toInt32_natCast next
  unfold Fits
  rcases boundTimeout_cases next with ⟨hlong, heq⟩ | ⟨hsome, hshort, heq⟩
  · rw [heq, hmax]
    unfold maxTimeout at hlong ⊢
    split at hint <;> omega
  · rw [heq]
    unfold maxTimeout at hshort ⊢
    split at hint <;> omega

end Scheduler

/-! ## What is passed for a set of timers -/

namespace TimerManager
open Scheduler (Fits fits_of_lt nextTimeout epollWaits epollWaits_eq toInt32_boundTimeout_iff)

theorem getNextTimer_snd (m : TimerManager) (now) :
    (m.getNextTimer now).2 = m.deadline.map (· - now) := by
  rw [getNextTimer_eq]
  dsimp only
  congr 1
  funext D
  split <;> omega

theorem exists_of_deadline {m : TimerManager} {D : Nat} (h : m.deadline = some D) :
    ∃ i ∈ m.timers, (m.timer i).next = D := by
  unfold deadline at h
  obtain ⟨i, hi, heq⟩ := Option.map_eq_some_iff.mp h
  exact ⟨i, List.mem_of_head? hi, heq⟩

/-- **On every set of timers and at every clock, the timeout is the minimum** of the remaining time
and 3000, never negative, and 0 only when a timer is due, exactly if the remaining time fits. -/
theorem epoll_timeout_is_minimum (now₀ : Nat) (as : List Action) (s : State)
    (hrun : run exec as (init now₀) = .ok s) (now interrupts : Nat) (timeout : Int)
    (hmem : timeout ∈ epollWaits interrupts (nextTimeout (s.manager.getNextTimer now).2)) :
    Fits (nextTimeout (s.manager.getNextTimer now).2) ↔
      (s.manager.timers = [] → timeout = 3000) ∧ (∀ i ∈ s.manager.timers,
        (∀ j ∈ s.manager.timers, (s.manager.timer i).next ≤ (s.manager.timer j).next) →
        (s.manager.getNextTimer now).2 = some ((s.manager.timer i).next - now) ∧
        timeout = min (((s.manager.timer i).next - now : Nat) : Int) 3000) ∧
      0 ≤ timeout ∧
      (timeout = 0 → ∃ i ∈ s.manager.timers, (s.manager.timer i).next ≤ now) := by
  have hinv := inv_of_run hrun
  rw [epollWaits_eq] at hmem
  rw [← toInt32_boundTimeout_iff, ← List.eq_of_mem_replicate hmem, getNextTimer_snd]
  have hleast : ∀ i ∈ s.manager.timers, ∀ D, s.manager.deadline = some D →
      D ≤ (s.manager.timer i).next := by
    intro i hi D hD
    obtain ⟨D', hle, hD'⟩ := hinv.manager.deadline_le hi
    exact Option.some.inj (hD.symm.trans hD') ▸ hle
  cases hD : s.manager.deadline with
  | none =>
    have hnil : s.manager.timers = [] := List.eq_nil_iff_forall_not_mem.mpr fun i hi => by
      obtain ⟨D, -, hsome⟩ := hinv.manager.deadline_le hi
      exact absurd (hD.symm.trans hsome) nofun
    have hmin : min (nextTimeout none : Int) Scheduler.maxTimeout = 3000 := by decide
    simp only [Option.map_none, hmin, hnil, List.not_mem_nil, false_imp_iff, forall_true_left,
      implies_true, true_and, false_and, exists_false]
    omega
  | some D =>
    obtain ⟨i, hi, hnext⟩ := exists_of_deadline hD
    rw [Option.map_some, nextTimeout, Option.getD_some]
    constructor
    · intro heq
      unfold Scheduler.maxTimeout at heq
      refine ⟨fun hnil => absurd hi (hnil ▸ List.not_mem_nil), ?_, by omega, ?_⟩
      · intro j hj hmin
        obtain rfl : (s.manager.timer j).next = D :=
          Nat.le_antisymm (hnext ▸ hmin i hi) (hleast j hj D hD)
        exact ⟨rfl, heq⟩
      · intro hzero
        exact ⟨i, hi, by omega⟩
    · rintro ⟨-, hmin, -⟩
      have heq := (hmin i hi fun j hj => hnext ▸ hleast j hj D hD).2
      rwa [hnext] at heq

def oneTimer (ms : Nat) : State :=
  { manager := { heap := [⟨false, ms, ms, some 0, 0⟩], timers := [0], tickled := true } }

theorem epoll_timeout_is_minimum_oneTimer :
    run exec [.addTimer 5000 0 false 0 0] (init 0) = .ok (oneTimer 5000) ∧
      ∀ timeout ∈ epollWaits 2 (nextTimeout ((oneTimer 5000).manager.getNextTimer 4000).2),
        timeout = 1000 := by
  have hrun : run exec [.addTimer 5000 0 false 0 0] (init 0) = .ok (oneTimer 5000) := by
    decide +kernel
  refine ⟨hrun, fun timeout hmem => ?_⟩
  have hmin := (epoll_timeout_is_minimum 0 _ _ hrun 4000 2 timeout hmem).mp
    (fits_of_lt (by decide))
  rw [(hmin.2.1 0 (by decide) (by decide)).2]
  decide +kernel

/-- A timer 2^31 milliseconds ahead makes the timeout negative, one 2^32 milliseconds ahead makes it
zero. -/
theorem epoll_timeout_overflows :
    run exec [.addTimer (2 ^ 31) 0 false 0 0] (init 0) = .ok (oneTimer (2 ^ 31)) ∧
      epollWaits 0 (nextTimeout ((oneTimer (2 ^ 31)).manager.getNextTimer 0).2) = [-2 ^ 31] ∧
      run exec [.addTimer (2 ^ 32) 0 false 0 0] (init 0) = .ok (oneTimer (2 ^ 32)) ∧
      epollWaits 0 (nextTimeout ((oneTimer (2 ^ 32)).manager.getNextTimer 0).2) = [0] ∧
      ∀ i ∈ (oneTimer (2 ^ 32)).manager.timers, 0 < ((oneTimer (2 ^ 32)).manager.timer i).next := by
  decide +kernel

end TimerManager

/-! ## The deadline of a sleep -/

namespace Hook

/-- What the three functions do when the hook is enabled: a timer for the fiber that calls them.
`cb` is the call of `schedule` that is bound to it. -/
def sleepFor (m : TimerManager) (ms cb now addr : Nat) : TimerManager :=
  (m.addTimer ms cb false now addr).1

/-- `sleep`: the product is one of 32 bits. -/
def sleep (m : TimerManager) (seconds cb now addr : Nat) : TimerManager :=
  sleepFor m (seconds * 1000 % 2 ^ 32) cb now addr

def usleep (m : TimerManager) (usec cb now addr : Nat) : TimerManager :=
  sleepFor m (usec / 1000) cb now addr

structure Timespec where
  tvSec : Int
  tvNsec : Int

def timeoutMs (req : Timespec) : Int :=
  toInt32 (toInt64 (toInt64 (req.tvSec * 1000) + (req.tvNsec.tdiv 1000).tdiv 1000))

def nanosleep (m : TimerManager) (req : Timespec) (cb now addr : Nat) : TimerManager :=
  sleepFor m (toSize (timeoutMs req)) cb now addr

def Timespec.ms (req : Timespec) : Int := req.tvSec * 1000 + (req.tvNsec.tdiv 1000).tdiv 1000

def Timespec.ns (req : Timespec) : Int := req.tvSec * 10 ^ 9 + req.tvNsec

theorem timeoutMs_eq (req) : timeoutMs req = req.ms.bmod (2 ^ 32) := by
  unfold timeoutMs toInt32 toInt64
  rw [Int.bmod_add_bmod]
  exact Int.bmod_bmod_of_dvd (by decide)

theorem tdiv_tdiv (x : Int) : (x ≤ (x.tdiv 1000).tdiv 1000 * 10 ^ 6 ↔ x ≤ 0 ∨ x % 10 ^ 6 = 0) ∧
    (x.tdiv 1000).tdiv 1000 * 10 ^ 6 < x + 10 ^ 6 ∧
    x < (x.tdiv 1000).tdiv 1000 * 10 ^ 6 + 10 ^ 6 := by
  rcases Int.le_total 0 x with hx | hx
  · rw [Int.tdiv_eq_ediv_of_nonneg hx, Int.tdiv_eq_ediv_of_nonneg (by omega)]
    omega
  · obtain ⟨y, rfl⟩ : ∃ y, x = -y := ⟨-x, by omega⟩
    rw [Int.neg_tdiv, Int.neg_tdiv, Int.tdiv_eq_ediv_of_nonneg (show 0 ≤ y by omega),
      Int.tdiv_eq_ediv_of_nonneg (by omega)]
    omega

/-- The milliseconds of `req` are its nanoseconds, rounded towards the seconds. -/
theorem Timespec.ns_ms (req : Timespec) :
    (req.ns ≤ req.ms * 10 ^ 6 ↔ req.tvNsec ≤ 0 ∨ req.tvNsec % 10 ^ 6 = 0) ∧
      req.ms * 10 ^ 6 < req.ns + 10 ^ 6 ∧ req.ns < req.ms * 10 ^ 6 + 10 ^ 6 := by
  have hround := tdiv_tdiv req.tvNsec
  unfold Timespec.ns Timespec.ms
  omega

theorem addTimer_next (m : TimerManager) (ms cb recurring now addr) :
    ((m.addTimer ms cb recurring now addr).1.timer m.heap.length).next = u64 (now + ms) := by
  change (TimerManager.timer { m with heap := m.heap ++ [_] } m.heap.length).next = _
  rw [TimerManager.timer_append, if_pos rfl]

theorem nanosleep_next (m : TimerManager) (req cb now addr) :
    (((nanosleep m req cb now addr).timer m.heap.length).next : Int) =
      (now + req.ms.bmod (2 ^ 32)) % 2 ^ 64 := by
  rw [nanosleep, sleepFor, addTimer_next, timeoutMs_eq, u64, toSize]
  omega

/-- **When the timer that is armed is not early**: for `addTimer` and `sleep` exactly if nothing
overflows, for `usleep` exactly if also the time is whole milliseconds. For `nanosleep` so too, as
long as the milliseconds are an `int`; where they are not, only a time before now is not early,
unless the clock is so near to 0 or 2^64 that the sum wraps as well. -/
theorem armed_not_early (m : TimerManager) (cb now addr : Nat) :
    (∀ ms recurring, now + ms < 2 ^ 64 ↔
      now + ms ≤ ((m.addTimer ms cb recurring now addr).1.timer m.heap.length).next) ∧
    (∀ seconds, seconds * 1000 < 2 ^ 32 ∧ now + seconds * 1000 < 2 ^ 64 ↔
      now + seconds * 1000 ≤ ((sleep m seconds cb now addr).timer m.heap.length).next) ∧
    (∀ usec, usec % 1000 = 0 ∧ now + usec / 1000 < 2 ^ 64 ↔
      now * 1000 + usec ≤ ((usleep m usec cb now addr).timer m.heap.length).next * 1000) ∧
    (∀ req : Timespec, -2 ^ 31 ≤ req.ms → req.ms < 2 ^ 31 →
      (now + req.ms < 2 ^ 64 ∧ (now + req.ms < 0 ∨ req.tvNsec ≤ 0 ∨ req.tvNsec % 10 ^ 6 = 0) ↔
        (now : Int) * 10 ^ 6 + req.ns ≤
          ((nanosleep m req cb now addr).timer m.heap.length).next * 10 ^ 6)) ∧
    ∀ req : Timespec, req.ms < -2 ^ 31 ∨ 2 ^ 31 ≤ req.ms → 2 ^ 31 ≤ now → now + 2 ^ 31 ≤ 2 ^ 64 →
      (req.ms < 0 ↔ (now : Int) * 10 ^ 6 + req.ns ≤
        ((nanosleep m req cb now addr).timer m.heap.length).next * 10 ^ 6) := by
  refine ⟨?_, ?_, ?_, ?_, ?_⟩
  · intro ms recurring
    rw [addTimer_next, u64]
    omega
  · intro seconds
    rw [sleep, sleepFor, addTimer_next, u64]
    constructor
    · rintro ⟨hproduct, hclock⟩
      rw [Nat.mod_eq_of_lt hproduct, Nat.mod_eq_of_lt hclock]
    · intro hle
      have hproduct := Nat.mod_le (now + seconds * 1000 % 2 ^ 32) (2 ^ 64)
      omega
  · intro usec
    rw [usleep, sleepFor, addTimer_next, u64]
    omega
  · intro req hlow hhigh
    have hround := req.ns_ms
    rw [nanosleep_next, Int.bmod_eq_of_le (by omega) (by omega)]
    omega
  · intro req hint hlow hhigh
    have hround := req.ns_ms
    have hle := Int.le_bmod (x := req.ms) (m := 2 ^ 32) (by decide)
    have hlt := Int.bmod_lt (x := req.ms) (m := 2 ^ 32) (by decide)
    rw [nanosleep_next, Int.emod_eq_of_lt (by omega) (by omega)]
    omega

theorem armed_not_early_second : ((nanosleep {} ⟨1, 500000000⟩ 0 1000 0).timer 0).next = 2500 ∧
      (1000 : Int) * 10 ^ 6 + (⟨1, 500000000⟩ : Timespec).ns ≤
        ((nanosleep {} ⟨1, 500000000⟩ 0 1000 0).timer 0).next * 10 ^ 6 := by
  refine ⟨by decide +kernel, ?_⟩
  exact ((armed_not_early {} 0 1000 0).2.2.2.1 ⟨1, 500000000⟩ (by decide) (by decide)).mp
    ⟨by decide, .inr (.inr (by decide))⟩

/-- `sleep(4294968)` sleeps for 704 milliseconds, `usleep(1)` and a `nanosleep` of one nanosecond
for none, and `addTimer(~0ull)` is due at once. -/
theorem armed_early : ((sleep {} 4294968 0 0 0).timer 0).next = 704 ∧
      ((usleep {} 1 0 0 0).timer 0).next = 0 ∧
      ((nanosleep {} ⟨0, 1⟩ 0 0 0).timer 0).next = 0 ∧
      ((TimerManager.addTimer {} (2 ^ 64 - 1) 0 false 1 0).1.timer 0).next = 0 := by
  decide +kernel

end Hook
end Helens
