import Helens.Config
import Helens.Log

/-! `LexicalCast` between a `LogDefine` and text in `log.cc`. How yaml-cpp writes a node and
loads a text are parameters. -/

namespace Helens.LogYaml
open Config List
open Helens.Log (Level)

structure LogAppenderDefine where
  type : Int := 0
  level : Level := .unknow
  formatter : Str := []
  file : Str := []

structure LogDefine where
  name : Str
  level : Level := .unknow
  formatter : Str := []
  appenders : List LogAppenderDefine := []

def levelToString : Level → Str
  | .unknow => "UNKNOW".toList
  | .debug => "DEBUG".toList
  | .info => "INFO".toList
  | .warn => "WARN".toList
  | .error => "ERROR".toList
  | .fatal => "FATAL".toList

def levelFromString (str : Str) : Level :=
  if str = "debug".toList ∨ str = "DEBUG".toList then .debug
  else if str = "info".toList ∨ str = "INFO".toList then .info
  else if str = "warn".toList ∨ str = "WARN".toList then .warn
  else if str = "error".toList ∨ str = "ERROR".toList then .error
  else if str = "fatal".toList ∨ str = "FATAL".toList then .fatal
  else .unknow

/-! ## From text -/

inductive Fault
  | nameIsNull
  | badConversion
  | badSubscript

def member (key : String) : Yaml → Except Fault (Option Yaml)
  | .map entries => .ok ((entries.find? fun e => e.1 = key.toList).map Prod.snd)
  | .scalar _ => .error .badSubscript
  | _ => .ok none

/-- `n[key].as<std::string>()`, where `n[key]` is defined. -/
def text (key : String) (n : Yaml) : Except Fault (Option Str) := do
  match ← member key n with
  | none => return none
  | some (.scalar s) => return some s
  | some _ => throw .badConversion

/-- The body of the loop over the appenders; `none` where it logs an error and goes on. -/
def readAppender (a : Yaml) : Except Fault (Option LogAppenderDefine) := do
  match ← text "type" a with
  | none => return none
  | some type =>
    if type = "FileLogAppender".toList then
      match ← text "file" a with
      | none => return none
      | some file => return some { type := 1, file, formatter := (← text "formatter" a).getD [] }
    else if type = "StdoutLogAppender".toList then
      return some { type := 2, formatter := (← text "formatter" a).getD [] }
    else return none

def readDefine (n : Yaml) : Except Fault LogDefine := do
  match ← text "name" n with
  | none => throw .nameIsNull
  | some name =>
    let level := levelFromString ((← text "level" n).getD [])
    let formatter := (← text "formatter" n).getD []
    match ← member "appenders" n with
    | some (.sequence nodes) =>
      return { name, level, formatter, appenders := (← nodes.mapM readAppender).reduceOption }
    | _ => return { name, level, formatter }

/-! ## To text -/

def levelEntry (level : Level) : List (Str × Yaml) :=
  if level ≠ .unknow then [("level".toList, .scalar (levelToString level))] else []

def formatterEntry (formatter : Str) : List (Str × Yaml) :=
  if !formatter.isEmpty then [("formatter".toList, .scalar formatter)] else []

def typeEntries (a : LogAppenderDefine) : List (Str × Yaml) :=
  if a.type = 1 then
    [("type".toList, .scalar "FileLogAppender".toList), ("file".toList, .scalar a.file)]
  else if a.type = 2 then [("type".toList, .scalar "StdoutLogAppender".toList)]
  else []

def writeAppender (a : LogAppenderDefine) : Yaml :=
  match typeEntries a ++ levelEntry a.level ++ formatterEntry a.formatter with
  | [] => .null
  | entries => .map entries

def writeDefine (i : LogDefine) : Yaml :=
  .map (("name".toList, .scalar i.name) :: levelEntry i.level ++ formatterEntry i.formatter ++
    if i.appenders.isEmpty then []
    else [("appenders".toList, .sequence (i.appenders.map writeAppender))])

structure YamlCpp where
  emit : Yaml → Str
  load : Str → Yaml

def ofString (y : YamlCpp) (v : Str) : Except Fault LogDefine := readDefine (y.load v)

def toString (y : YamlCpp) (i : LogDefine) : Str := y.emit (writeDefine i)

/-! ## There and back -/

/-- What `readAppender` makes of an appender: a level is not read, and a file only of type 1. -/
def stored (a : LogAppenderDefine) : LogAppenderDefine :=
  { a with level := .unknow, file := if a.type = 1 then a.file else [] }

theorem readAppender_writeAppender (h : a.type = 1 ∨ a.type = 2) :
    readAppender (writeAppender a) = .ok (some (stored a)) := by
  obtain ⟨type, level, formatter, file⟩ := a
  obtain rfl | rfl : type = 1 ∨ type = 2 := h <;> cases level <;> cases formatter <;> rfl

theorem mapM_readAppender {as : List LogAppenderDefine} (h : ∀ a ∈ as, a.type = 1 ∨ a.type = 2) :
    (as.map writeAppender).mapM readAppender = .ok (as.map (some ∘ stored)) := by
  induction as with
  | nil => rfl
  | cons a as ih =>
    rw [map_cons, mapM_cons, readAppender_writeAppender (h a mem_cons_self),
      ih fun b hb => h b (mem_cons_of_mem _ hb)]
    rfl

theorem readDefine_writeDefine (i) : readDefine (writeDefine i) = (do
      return { i with
        appenders := (← (i.appenders.map writeAppender).mapM readAppender).reduceOption }) := by
  obtain ⟨name, level, formatter, appenders⟩ := i
  cases level <;> cases formatter <;> cases appenders <;> rfl

/-- A definition comes back exactly if no appender has a level and no stdout appender a file. -/
theorem defines_roundtrip (y : YamlCpp) (i : LogDefine)
    (hyaml : y.load (y.emit (writeDefine i)) = writeDefine i)
    (htype : ∀ a ∈ i.appenders, a.type = 1 ∨ a.type = 2) :
    (∀ a ∈ i.appenders, a.level = .unknow ∧ (a.type = 2 → a.file = [])) ↔
      ofString y (toString y i) = .ok i := by
  have hall : (i.appenders.map (some ∘ stored)).reduceOption = i.appenders.map stored := by
    apply filterMap_map.trans
    rw [← filterMap_eq_map]
    rfl
  have hread : ofString y (toString y i) = .ok { i with appenders := i.appenders.map stored } := by
    rw [ofString, toString, hyaml, readDefine_writeDefine, mapM_readAppender htype, ← hall]
    rfl
  have hsame : { i with appenders := i.appenders.map stored } = i ↔
      i.appenders.map stored = i.appenders := by
    cases i
    simp
  rw [hread, Except.ok.injEq, hsame, map_eq_self]
  apply forall₂_congr
  rintro ⟨type, level, formatter, file⟩ ha
  obtain rfl | rfl : type = 1 ∨ type = 2 := htype _ ha <;> simp [stored, eq_comm]

/-- A library that knows one text. -/
def library (printed : String) (i : LogDefine) : YamlCpp :=
  ⟨fun _ => printed.toList, fun t => if t = printed.toList then writeDefine i else .null⟩

theorem load_library (printed i) : (library printed i).load
    ((library printed i).emit (writeDefine i)) = writeDefine i := if_pos rfl

def fileAndStdout : LogDefine where
  name := "root".toList
  level := .info
  appenders := [{ type := 1, file := "a.log".toList }, { type := 2, formatter := "%m%n".toList }]

def printed : String := "name: root\nlevel: INFO\nappenders:\n  - type: FileLogAppender\n    " ++
  "file: a.log\n  - type: StdoutLogAppender\n    formatter: \"%m%n\""

theorem defines_roundtrip_two : ofString (library printed fileAndStdout)
    (toString (library printed fileAndStdout) fileAndStdout) = .ok fileAndStdout :=
  (defines_roundtrip _ _ (load_library ..) (by decide)).mp (by decide)

/-- The level of an appender is written and not read. -/
theorem appender_level_lost :
    ¬ ∀ (y : YamlCpp) (i : LogDefine), y.load (y.emit (writeDefine i)) = writeDefine i →
      i.name ≠ [] → (∀ a ∈ i.appenders, a.type = 1 ∨ a.type = 2) →
      ofString y (toString y i) = .ok i := by
  intro h
  have hlost := h (library "name: a\nappenders:\n  - type: StdoutLogAppender\n    level: ERROR"
    { name := ['a'], appenders := [{ type := 2, level := .error }] }) _ (load_library ..)
    (by decide) (by decide)
  rw [ofString, toString, load_library] at hlost
  cases hlost

end Helens.LogYaml
