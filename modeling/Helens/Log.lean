import Helens.ConfigVar
import Helens.Lib.OrderedSet

/-! The loggers and the listener of the variable `logs` in `log.cc`. A formatter is its pattern;
which patterns are errors, and whether the process has the option `d`, are parameters. -/

namespace Helens.Log

open Lib.OrderedSet Lib.Runs List

abbrev Str := List Char

inductive Level
  | unknow
  | debug
  | info
  | warn
  | error
  | fatal
  deriving DecidableEq

/-! ## Loggers -/

inductive Target
  | file (file : Str)
  | stdout
  deriving DecidableEq

structure Appender where
  target : Target
  level : Level := .debug
  hasFormatter : Bool := false
  formatter : Option Str := none

def Appender.setFormatter (val : Str) (a : Appender) : Appender :=
  { a with formatter := some val, hasFormatter := true }

def defaultPattern : Str :=
  "%d\x7b%Y-%m-%d %H:%M:%S\x7d%T%t%T%N%T%F%T[%p]%T[%c]%T%f:%l%T%m%n".toList

structure Logger where
  level : Level := .debug
  formatter : Str := defaultPattern
  appenders : List Appender := []

structure Env where
  isError : Str → Bool
  daemon : Bool

namespace Logger

def setFormatter (env : Env) (val : Str) (l : Logger) : Logger :=
  if env.isError val then l
  else
    { l with
      formatter := val
      appenders := l.appenders.map fun a =>
        if !a.hasFormatter then { a with formatter := some val } else a }

def addAppender (a : Appender) (l : Logger) : Logger :=
  let a := if a.formatter.isNone then { a with formatter := some l.formatter } else a
  { l with appenders := l.appenders ++ [a] }

def clearAppenders (l : Logger) : Logger := { l with appenders := [] }

end Logger

/-! ## Configurations -/

structure LogAppenderDefine where
  target : Target
  level : Level := .unknow
  formatter : Str := []
  deriving DecidableEq

structure LogDefine (N : Type) where
  name : N
  level : Level := .unknow
  formatter : Str := []
  appenders : List LogAppenderDefine := []

variable {N : Type} [LinearOrder N]

/-- `LogDefine::operator==`, which compares the appenders with themselves. -/
instance : BEq (LogDefine N) where
  beq a b := decide (a.name = b.name) && decide (a.level = b.level) &&
    decide (a.formatter = b.formatter) && decide (a.appenders = a.appenders)

def less (a b : LogDefine N) : Bool := a.name < b.name

/-- The `std::set` of the definitions of a configuration; the first of a name is kept. -/
def toSet (defines : List (LogDefine N)) : List (LogDefine N) :=
  defines.foldl (fun set define => insert less define set) []

/-- Loggers by name; a logger that was not asked for yet is one as it is constructed. -/
abbrev Loggers (N : Type) := N → Logger

def makeAppender (env : Env) (a : LogAppenderDefine) : Option Appender :=
  if a.target = .stdout ∧ env.daemon then none
  else
    let ap : Appender := { target := a.target, level := a.level }
    if !a.formatter.isEmpty && !env.isError a.formatter then some (ap.setFormatter a.formatter)
    else some ap

/-- The body of the first loop of the listener, for a logger that is new or changed. -/
def configure (env : Env) (define : LogDefine N) (l : Logger) : Logger :=
  let l := { l with level := define.level }
  let l := if !define.formatter.isEmpty then l.setFormatter env define.formatter else l
  (define.appenders.filterMap (makeAppender env)).foldl (fun l a => l.addAppender a)
    l.clearAppenders

def change (env : Env) (old : List (LogDefine N)) (loggers : Loggers N) (define : LogDefine N) :
    Loggers N :=
  match find less define old with
  | none => Function.update loggers define.name (configure env define (loggers define.name))
  | some before =>
    if !(define == before) then
      Function.update loggers define.name (configure env define (loggers define.name))
    else loggers

def remove (new : List (LogDefine N)) (loggers : Loggers N) (define : LogDefine N) : Loggers N :=
  match find less define new with
  | none => Function.update loggers define.name
      { loggers define.name with level := .unknow, appenders := [] }
  | some _ => loggers

def onChange (env : Env) (old new : List (LogDefine N)) (loggers : Loggers N) : Loggers N :=
  old.foldl (remove new) (new.foldl (change env old) loggers)

/-! ## Loading -/

structure State (N : Type) where
  loggers : Loggers N
  defines : ConfigVar (List (LogDefine N))

def load (env : Env) (defines : List (LogDefine N)) (s : State N) : State N :=
  match s.defines.compareAndNotify (toSet defines) with
  | none => s
  | some told =>
    { loggers := told.foldl (fun loggers n => onChange env n.old n.new loggers) s.loggers
      defines := s.defines.assign (toSet defines) }

/-- The root logger writes to the standard output; the variable is empty and has the
listener. -/
def fresh (root : N) : State N :=
  { loggers := fun name =>
      if name = root then ({} : Logger).addAppender { target := .stdout } else {}
    defines := (ConfigVar.addListener { val := [] } 0).1 }

/-! ## The sets -/

theorem less_iff (a b : LogDefine N) : less a b = true ↔ a.name < b.name := decide_eq_true_iff

theorem toSet_ordered (defines : List (LogDefine N)) : Ordered less (toSet defines) := by
  have hfold : ∀ (defines set : List (LogDefine N)), Ordered less set →
      Ordered less (defines.foldl (fun set define => insert less define set) set) := by
    intro defines
    induction defines with
    | nil => exact fun _ hset => hset
    | cons define defines ih => exact fun set hset => ih _ (hset.insert less_iff define)
  exact hfold defines [] List.Pairwise.nil

theorem find_of_name_eq {set : List (LogDefine N)} (hset : Ordered less set)
    {define other : LogDefine N} (hmem : define ∈ set) (hname : other.name = define.name) :
    find less other set = some define := by
  have hsame : find less other set = find less define set := by
    have hbelow : (fun d : LogDefine N => less d other) = fun d => less d define := by
      funext d
      rw [less, less, hname]
    have habove : ∀ d : LogDefine N, less other d = less define d := by
      intro d
      rw [less, less, hname]
    unfold find
    rw [hbelow]
    simp only [habove]
  rw [hsame]
  exact hset.find_mem less_iff hmem

theorem beq_iff (a b : LogDefine N) :
    (a == b) = true ↔ a.name = b.name ∧ a.level = b.level ∧ a.formatter = b.formatter := by
  show (decide (a.name = b.name) && decide (a.level = b.level) &&
    decide (a.formatter = b.formatter) && decide (a.appenders = a.appenders)) = true ↔ _
  simp [and_assoc]

theorem exists_beq_of_beq {set set' : List (LogDefine N)} (h : (set == set') = true) :
    ∀ define ∈ set, ∃ before ∈ set', (define == before) = true := by
  induction set generalizing set' with
  | nil => exact fun define hmem => absurd hmem not_mem_nil
  | cons first set ih =>
    cases set' with
    | nil => cases h
    | cons first' set' =>
      rw [cons_beq_cons, Bool.and_eq_true] at h
      intro define hmem
      rcases mem_cons.mp hmem with rfl | hmem
      · exact ⟨first', mem_cons_self, h.1⟩
      · obtain ⟨before, hbefore, heq⟩ := ih h.2 define hmem
        exact ⟨before, mem_cons_of_mem _ hbefore, heq⟩

/-! ## One logger -/

def usable (env : Env) (define : LogDefine N) : Bool :=
  !define.formatter.isEmpty && !env.isError define.formatter

variable {define : LogDefine N}

omit [LinearOrder N] in
theorem configure_congr (env) (h : usable env define = false → l.formatter = l'.formatter) :
    configure env define l = configure env define l' := by
  unfold configure
  by_cases hempty : define.formatter.isEmpty = true
  · have hkept := h (by simp [usable, hempty])
    simp [hempty, Logger.clearAppenders, hkept]
  · by_cases herror : env.isError define.formatter = true
    · have hkept := h (by simp [usable, herror])
      simp [hempty, herror, Logger.clearAppenders, Logger.setFormatter, hkept]
    · simp [hempty, herror, Logger.clearAppenders, Logger.setFormatter]

/-! ## The loops of the listener -/

theorem change_of_ne (env old loggers) (hname : name ≠ define.name) :
    change env old loggers define name = loggers name := by
  unfold change
  cases find less define old with
  | none => exact Function.update_of_ne hname _ _
  | some before =>
    dsimp only
    split
    · exact Function.update_of_ne hname _ _
    · rfl

def changed (old : List (LogDefine N)) (define : LogDefine N) : Bool :=
  match find less define old with
  | none => true
  | some before => !(define == before)

theorem change_self (env old loggers)
    (define : LogDefine N) : change env old loggers define define.name =
      if changed old define then configure env define (loggers define.name)
      else loggers define.name := by
  unfold change changed
  cases find less define old with
  | none => exact Function.update_self ..
  | some before =>
    dsimp only
    by_cases hsame : (!(define == before)) = true
    · rw [if_pos hsame, if_pos hsame]
      exact Function.update_self ..
    · rw [if_neg hsame, if_neg hsame]

theorem foldl_change (env : Env) (old : List (LogDefine N))
    (hnew : Ordered less new) (loggers : Loggers N) :
    (∀ name, (∀ define ∈ new, name ≠ define.name) →
      new.foldl (change env old) loggers name = loggers name) ∧
    ∀ define ∈ new, new.foldl (change env old) loggers define.name =
      if changed old define then configure env define (loggers define.name)
      else loggers define.name := by
  induction new generalizing loggers with
  | nil => exact ⟨fun _ _ => rfl, fun define hmem => absurd hmem not_mem_nil⟩
  | cons first new ih =>
    obtain ⟨hfirst, hrest⟩ := pairwise_cons.mp hnew
    obtain ⟨hothers, hselves⟩ := ih hrest (change env old loggers first)
    refine ⟨?_, ?_⟩
    · intro name hname
      rw [foldl_cons, hothers name fun define hmem => hname define (mem_cons_of_mem _ hmem)]
      exact change_of_ne env old loggers (hname first mem_cons_self)
    · intro define hmem
      rw [foldl_cons]
      have hne : ∀ d ∈ new, first.name ≠ d.name := fun d hd =>
        ne_of_lt ((less_iff first d).mp (hfirst d hd))
      rcases mem_cons.mp hmem with rfl | hmem
      · rw [hothers _ hne]
        exact change_self env old loggers define
      · rw [hselves define hmem, change_of_ne env old loggers (Ne.symm (hne define hmem))]

theorem foldl_remove (hnew : Ordered less new) (hmem : define ∈ new)
    (old : List (LogDefine N)) (loggers) :
    old.foldl (remove new) loggers define.name = loggers define.name := by
  induction old generalizing loggers with
  | nil => rfl
  | cons other old ih =>
    rw [foldl_cons, ih]
    unfold remove
    cases hfind : find less other new with
    | none =>
      apply Function.update_of_ne
      intro hname
      rw [find_of_name_eq hnew hmem hname.symm] at hfind
      cases hfind
    | some _ => rfl

theorem onChange_eq (env : Env) (old : List (LogDefine N))
    (hnew : Ordered less new) (loggers : Loggers N) (hmem : define ∈ new) :
    onChange env old new loggers define.name =
      if changed old define then configure env define (loggers define.name)
      else loggers define.name := by
  rw [onChange, foldl_remove hnew hmem]
  exact (foldl_change env old hnew loggers).2 define hmem

/-! ## Histories -/

/-- What the definition makes of a logger of a fresh process. -/
def configured (env : Env) (root : N) (define : LogDefine N) : Logger :=
  configure env define ((fresh root).loggers define.name)

/-- A definition without a formatter is for a logger that still has its first one, and one that
agrees with the stored level and formatter agrees in the appenders. -/
def Fits (env : Env) (root : N) (s : State N) (defines : List (LogDefine N)) : Prop :=
  ∀ define ∈ toSet defines, (usable env define = false →
      (s.loggers define.name).formatter = ((fresh root).loggers define.name).formatter) ∧
    ∀ before ∈ s.defines.val, (define == before) = true → before.appenders = define.appenders
  deriving Decidable

structure Inv (env : Env) (root : N) (s : State N) : Prop where
  listener : s.defines.cbs = [1]
  applied : ∀ define ∈ s.defines.val, s.loggers define.name = configured env root define

variable {env : Env} {root : N} {s : State N}

theorem Inv.applied_of_beq (hs : Inv env root s)
    (hfits : Fits env root s defines) {define before : LogDefine N}
    (hmem : define ∈ toSet defines) (hbefore : before ∈ s.defines.val)
    (hbeq : (define == before) = true) : s.loggers define.name = configured env root define := by
  obtain ⟨hname, hlevel, hformatter⟩ := (beq_iff define before).mp hbeq
  have happenders := (hfits define hmem).2 before hbefore hbeq
  obtain rfl : define = before := by
    cases define
    cases before
    simp_all
  exact hs.applied define hbefore

theorem Inv.load (hs : Inv env root s) {defines : List (LogDefine N)}
    (hfits : Fits env root s defines) :
    Inv env root (load env defines s) ∧ ∀ define ∈ toSet defines,
      (load env defines s).loggers define.name = configured env root define := by
  unfold Log.load ConfigVar.compareAndNotify
  by_cases hsame : (toSet defines == s.defines.val) = true
  · rw [if_pos hsame]
    refine ⟨hs, ?_⟩
    intro define hmem
    obtain ⟨before, hbefore, hbeq⟩ := exists_beq_of_beq hsame define hmem
    exact hs.applied_of_beq hfits hmem hbefore hbeq
  · rw [if_neg hsame, hs.listener]
    have happlied : ∀ define ∈ toSet defines,
        onChange env s.defines.val (toSet defines) s.loggers define.name =
          configured env root define := by
      intro define hmem
      rw [onChange_eq env s.defines.val (toSet_ordered defines) s.loggers hmem]
      by_cases hchanged : changed s.defines.val define = true
      · rw [if_pos hchanged]
        exact configure_congr env (hfits define hmem).1
      · -- the listener leaves the logger of an equal definition as it is
        rw [if_neg hchanged]
        unfold changed at hchanged
        split at hchanged
        · exact absurd rfl hchanged
        · next before hfind =>
          rw [Bool.not_eq_true, Bool.not_eq_false'] at hchanged
          exact hs.applied_of_beq hfits hmem (find_eq_some less_iff hfind).1 hchanged
    exact ⟨⟨hs.listener, happlied⟩, happlied⟩

def exec (env : Env) (defines : List (LogDefine N)) (s : State N) : Except Empty (State N) :=
  .ok (Log.load env defines s)

theorem inv_fresh (env : Env) (root : N) : Inv env root (fresh root) :=
  ⟨rfl, fun _ hmem => absurd hmem not_mem_nil⟩

theorem fits_fresh (env : Env) (root : N) (defines : List (LogDefine N)) :
    Fits env root (fresh root) defines :=
  fun _ _ => ⟨fun _ => rfl, fun _ hbefore => absurd hbefore not_mem_nil⟩

/-- Where definitions fit, the loggers that the latest configuration names are what it alone makes
of those of a fresh process. -/
theorem latest_configuration_decides (env : Env) (root : N)
    (history : List (List (LogDefine N))) (defines : List (LogDefine N))
    (hfits : Along (exec env) (Fits env root) (history ++ [defines]) (fresh root)) :
    ∃ s alone, run (exec env) (history ++ [defines]) (fresh root) = .ok s ∧
      run (exec env) [defines] (fresh root) = .ok alone ∧
      ∀ define ∈ toSet defines, s.loggers define.name = alone.loggers define.name := by
  have hstep : ∀ (s : State N) defines, Inv env root s → Fits env root s defines →
      Post (Inv env root) (fun _ => False) (exec env defines s) :=
    fun s defines hs hfits => (hs.load hfits).1
  have hreturns : ∀ (s : State N) defines, True →
      Post (fun _ => True) (fun _ => False) (exec env defines s) := fun _ _ _ => trivial
  have htotal := post_run_all hreturns history (fresh root) trivial
  obtain ⟨t, hrun, -⟩ := htotal.exists_ok
  obtain ⟨hhistory, hlast⟩ := along_append hfits hrun
  have hinv : Inv env root t :=
    (post_run hstep history _ hhistory (inv_fresh env root)).of_ok hrun
  refine ⟨Log.load env defines t, Log.load env defines (fresh root), ?_, rfl, ?_⟩
  · rw [run_append, hrun]
    rfl
  · intro define hmem
    rw [(hinv.load hlast.1).2 define hmem,
      ((inv_fresh env root).load (fits_fresh env root defines)).2 define hmem]

def plain : Env := ⟨fun _ => false, false⟩

def history : List (List (LogDefine Nat)) :=
  [[⟨1, .info, "%m".toList, [⟨.file "x".toList, .debug, []⟩]⟩, ⟨2, .warn, [], []⟩],
    [⟨1, .warn, "%m".toList, [⟨.stdout, .debug, "%p%n".toList⟩]⟩], [⟨2, .info, [], []⟩]]

def latest : List (LogDefine Nat) :=
  [⟨1, .warn, "%m%n".toList, [⟨.file "y".toList, .unknow, []⟩]⟩, ⟨2, .info, [], []⟩]

theorem history_fits : Along (exec plain) (Fits plain 0) (history ++ [latest]) (fresh 0) := by
  decide +kernel

theorem latest_decides_history : Along (exec plain) (Fits plain 0) (history ++ [latest]) (fresh 0) ∧
    ∃ s alone, run (exec plain) (history ++ [latest]) (fresh 0) = .ok s ∧
      run (exec plain) [latest] (fresh 0) = .ok alone ∧
      ∀ define ∈ toSet latest, s.loggers define.name = alone.loggers define.name :=
  ⟨history_fits, latest_configuration_decides plain 0 history latest history_fits⟩

/-- New appenders alone are not taken over, and without a new formatter the old one stays. -/
theorem history_decides :
    let x : LogAppenderDefine := ⟨.file "x".toList, .debug, []⟩
    let y : LogAppenderDefine := ⟨.file "y".toList, .debug, []⟩
    let targets (l : Logger) := l.appenders.map Appender.target
    ((run (exec plain) [[⟨1, .info, [], [x]⟩], [⟨1, .info, [], [y]⟩, ⟨2, .info, [], []⟩]]
        (fresh 0)).map (fun s => targets (s.loggers 1)) = .ok [.file "x".toList] ∧
      (run (exec plain) [[⟨1, .info, [], [y]⟩, ⟨2, .info, [], []⟩]] (fresh 0)).map
        (fun s => targets (s.loggers 1)) = .ok [.file "y".toList]) ∧
    (run (exec plain) [[⟨1, .info, "%m".toList, []⟩], [⟨1, .warn, [], []⟩]] (fresh 0)).map
        (fun s => (s.loggers 1).formatter) = .ok "%m".toList ∧
      (run (exec plain) [[⟨1, .warn, [], []⟩]] (fresh 0)).map
        (fun s => (s.loggers 1).formatter) = .ok defaultPattern := by
  decide +kernel

end Helens.Log
