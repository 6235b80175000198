import PathGlob.Log
import PathGlob.Value.Brief

/-! # Traced calls
While call tracing is on, a traced function leaves a record when it is called and, if asked to, one
with its result. Arguments and results are shown in brief.

* **`CallSite`** — a traced function; **`Call`** — a call of it.
* **`Logging.traceCall`**, **`Logging.traceResult`** — the records of a call.
* **`isSwitchedOn`** — whether a setting of the environment turns something on. -/

namespace PathGlob

/-! ## Names of functions -/

/-- What follows the first occurrence of `sep` in a text. -/
def behindFirst? (sep : Text) : Text → Option Text
  | [] => none
  | c :: r => if sep.isPrefixOf (c :: r) then some (r.drop (sep.length - 1)) else behindFirst? sep r

/-- What follows an occurrence is shorter than the text. -/
theorem length_lt_of_behindFirst? {sep t r : Text} (h : behindFirst? sep t = some r) :
    r.length < t.length := by
  induction t with
  | nil => simp [behindFirst?] at h
  | cons c t ih =>
    rw [behindFirst?] at h
    split at h
    · simp only [Option.some.injEq] at h
      rw [← h, List.length_drop, List.length_cons]
      omega
    · have := ih h
      rw [List.length_cons]
      omega

/-- What follows the last occurrence of `sep`, occurrences taken from the left without overlap; the
whole text if there is none. -/
def behindAll (sep : Text) (t : Text) : Text :=
  match _hr : behindFirst? sep t with
  | some r => behindAll sep r
  | none => t
termination_by t.length
decreasing_by exact length_lt_of_behindFirst? (by assumption)

/-- The mark in the name of a function that is defined inside another one. -/
def localMark : Text := ".<locals>.".toList

/-- Whether a function belongs to a class, so that its first argument is the object it is called
on: behind the last mark of a local definition its name has a dot. -/
def isMethodName (qualifiedName : Text) : Bool := (behindAll localMark qualifiedName).contains '.'

/-! ## Calls -/

/-- A function whose calls are traced. -/
structure CallSite where
  /-- The name of the function with the classes and functions around it. -/
  qualifiedName : Text
  /-- The level of the records. -/
  level : Level := traceLevel
  /-- Whether the result is shown too. -/
  exiting : Bool := false

/-- The arguments of a call. -/
structure Call where
  /-- The arguments given by place. -/
  positional : List Value
  /-- The arguments given by name, in the order in which they were given. -/
  named : List (Text × Value)

/-- How the arguments of a call are shown. -/
def Call.argumentTexts (c : Call) : List Text :=
  c.positional.map Value.brief ++ c.named.map fun (name, v) => name ++ '=' :: v.brief

/-- The message on a call. -/
def CallSite.callMessage (s : CallSite) (c : Call) : Text :=
  let shown :=
    if isMethodName s.qualifiedName then { c with positional := c.positional.drop 1 } else c
  s.qualifiedName ++ '(' :: joinWith commaBlank shown.argumentTexts ++ [')']

/-- The message on a result. -/
def CallSite.resultMessage (s : CallSite) (result : Value) : Text :=
  s.qualifiedName ++ "(...) -> ".toList ++ result.brief

/-- The record of a call, none unless calls are traced. -/
def Logging.traceCall (g : Logging) (logger : Text) (s : CallSite) (c : Call) : List LogRecord :=
  if g.callTracing then g.log logger s.level { text := s.callMessage c } else []

/-- The record of a result, none unless calls are traced and the result is to be shown. -/
def Logging.traceResult (g : Logging) (logger : Text) (s : CallSite) (result : Value) :
    List LogRecord :=
  if g.callTracing && s.exiting then g.log logger s.level { text := s.resultMessage result } else []

/-! ## Settings -/

/-- The texts that turn a setting off. -/
def offTexts : List Text := [[], ['0'], "false".toList, "False".toList]

/-- Whether a setting of the environment turns something on: it is there, and not one of the texts
that turn it off. -/
def isSwitchedOn (setting : Option Text) : Bool := setting.any (!offTexts.contains ·)

end PathGlob
