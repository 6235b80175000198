import PathGlob.Value

/-! # Logging
Loggers have dotted names and levels. A logger without a level of its own has that of the nearest
logger above it, and a record is kept if its level is not below that of its logger.

* **`Logging`** — the levels that are set; **`Logging.effectiveLevel`**, **`Logging.isEnabled`**.
* **`LogMessage`**, **`Logging.log`** — a message on its way to a logger, and the record it leaves.
* **`LoggerOwner`** — where a logger has its name from. -/

namespace PathGlob

/-! ## Levels -/

/-- The weight of a record; heavier records are kept by more loggers. -/
abbrev Level := Int

/-- The level of the finest records. -/
def traceLevel : Level := 4

/-- The level of records for finding faults. -/
def debugLevel : Level := 10

/-- The level of records on the ordinary course of things. -/
def infoLevel : Level := 20

/-- The level of warnings, which is also that of a program in which no level is set. -/
def warningLevel : Level := 30

/-- The level of errors. -/
def errorLevel : Level := 40

/-- The level of the gravest errors. -/
def criticalLevel : Level := 50

/-- The name of a level. -/
def levelName (l : Level) : Text :=
  if l = 0 then "NOTSET".toList
  else if l = traceLevel then "TRACE".toList
  else if l = debugLevel then "DEBUG".toList
  else if l = infoLevel then "INFO".toList
  else if l = warningLevel then "WARNING".toList
  else if l = errorLevel then "ERROR".toList
  else if l = criticalLevel then "CRITICAL".toList
  else "Level ".toList ++ intText l

/-! ## Loggers -/

/-- The name of the logger above all others. -/
def rootLogger : Text := "root".toList

/-- The name of the logger of the whole library. -/
def libraryLogger : Text := "globdir".toList

/-- Where a logger has its name from. -/
inductive LoggerOwner
  /-- Nobody in particular. -/
  | library
  /-- It was given a name. -/
  | named (name : Text)
  /-- It belongs to a class of a module. -/
  | classOf (module owner : Text)

/-- The name of a logger. An empty name means the logger above all others. -/
def LoggerOwner.loggerName : LoggerOwner → Text
  | .library => libraryLogger
  | .named name => if name.isEmpty then rootLogger else name
  | .classOf module owner => module ++ '.' :: owner

/-- The names above the one that is given from back to front, the nearest first. A part of a name has
at least one character, so that of two neighbouring dots only the second one separates. -/
def namesAbove : Text → List Text
  | [] => []
  | '.' :: c :: r => (c :: r).reverse :: namesAbove r
  | _ :: r => namesAbove r

/-- A logger with the loggers above it, the nearest first; the one above all others is left out. -/
def loggerChain (name : Text) : List Text :=
  if name = rootLogger then [] else name :: namesAbove name.reverse

/-- The levels that are set, and whether calls are traced. -/
structure Logging where
  /-- The level of the logger above all others. -/
  rootLevel : Level := warningLevel
  /-- The levels of the other loggers; the first entry of a logger counts, and zero is no level. -/
  levels : List (Text × Level) := []
  /-- Whether calls are traced. -/
  callTracing : Bool := false

/-- The state of a program in which nothing is set. -/
def Logging.initial : Logging := {}

/-- The level that is set for a logger other than the one above all others. -/
def Logging.ownLevel? (g : Logging) (name : Text) : Option Level :=
  match g.levels.lookup name with
  | some l => if l = 0 then none else some l
  | none => none

/-- The level that counts for a logger: its own, or that of the nearest logger above it. -/
def Logging.effectiveLevel (g : Logging) (name : Text) : Level :=
  ((loggerChain name).findSome? g.ownLevel?).getD g.rootLevel

/-- The state in which the level of a logger is set; zero takes its level away. -/
def Logging.setLevel (g : Logging) (name : Text) (l : Level) : Logging :=
  if name = rootLogger then { g with rootLevel := l }
  else { g with levels := (name, l) :: g.levels }

/-- Whether a logger keeps records of a level. Level zero and below is never kept. -/
def Logging.isEnabled (g : Logging) (name : Text) (l : Level) : Bool :=
  0 < l && g.effectiveLevel name ≤ l

/-- How a logger shows itself in messages. -/
def Logging.describe (g : Logging) (name : Text) : Text :=
  "LoggingDescriptor(name=".toList ++ quoted name ++ ", level=".toList
    ++ quoted (levelName (g.effectiveLevel name)) ++ [')']

/-! ## Records -/

/-- What a logger keeps. -/
structure LogRecord where
  /-- The level of the record. -/
  level : Level
  /-- The logger that kept it. -/
  logger : Text
  /-- The message. -/
  message : Text
  deriving DecidableEq, Repr

/-- A message with values for its places. -/
structure LogMessage where
  /-- The text, in which `%s` is the place of a value. -/
  text : Text
  /-- The values; without any the text is left as it is. -/
  args : List Value := []
  /-- Whether the text is made only if it is needed. -/
  deferred : Bool := false

/-- A text in which each `%s` is replaced by the next value. -/
def insertValues : Text → List Value → Text
  | '%' :: 's' :: r, v :: vs => v.plain ++ insertValues r vs
  | '%' :: '%' :: r, vs => '%' :: insertValues r vs
  | c :: r, vs => c :: insertValues r vs
  | [], _ => []

/-- The text of a message with its values. -/
def LogMessage.content (m : LogMessage) : Text :=
  if m.args.isEmpty then m.text else insertValues m.text m.args

/-- The record that a message leaves, if its logger keeps it. -/
def Logging.log (g : Logging) (name : Text) (l : Level) (m : LogMessage) : List LogRecord :=
  if g.isEnabled name l then [⟨l, name, m.content⟩] else []

/-- How often the text of a message is made on demand: once if the record is kept, else never. -/
def Logging.evaluations (g : Logging) (name : Text) (l : Level) (m : LogMessage) : Nat :=
  if m.deferred && g.isEnabled name l then 1 else 0

/-- A record is kept exactly if its level is enabled. -/
theorem Logging.log_eq_nil_iff (g : Logging) (name : Text) (l : Level) (m : LogMessage) :
    g.log name l m = [] ↔ g.isEnabled name l = false := by
  unfold Logging.log
  split <;> simp_all

end PathGlob
