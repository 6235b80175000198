import PathGlob.Segment.CharSet

/-! # Tokens of a segment
A segment is the part of a pattern that is matched against a single name. It is a sequence of
tokens: literal characters, the wildcards `?` and `*`, and bracket expressions.

* **`readTokens?`** — the tokens of a segment, none if a bracket expression is open at the end or
  has no members.
* **`Token.expression`** — a token as a regular expression.
* **`Token.holds`** — whether a token matches a single character. -/

namespace PathGlob

/-- A token of a segment. -/
inductive Token
  /-- One particular character. -/
  | literal (c : Char)
  /-- Any one character. -/
  | anyChar
  /-- Any number of characters. -/
  | anyRun
  /-- One character of a class. -/
  | bracket (b : Bracket)
  deriving DecidableEq, Repr

/-! ## Reading -/

/-- The token of an unescaped character outside a bracket expression. -/
def Token.ofChar (c : Char) : Token :=
  if c = '*' then .anyRun else if c = '?' then .anyChar else .literal c

/-- The tokens of the rest of a segment, where `current` is the bracket expression that is being
read, if one is. -/
def readRest? (escapes : Bool) (current : Option Bracket) : Text → Option (List Token)
  | [] => if current.isNone then some [] else none
  | c :: r =>
    if escapes && c == '\\' then
      match r with
      | [] => if current.isNone then some [.literal '\\'] else none
      | d :: r =>
        match current with
        -- an escaped bracket neither opens nor closes
        | some b => readRest? escapes (some (b.add ⟨d, true⟩)) r
        | none => (readRest? escapes none r).map (.literal d :: ·)
    else
      match current with
      | some b =>
        if c = ']' then
          if b.members.isEmpty then none
          else (readRest? escapes none r).map (.bracket b :: ·)
        else readRest? escapes (some (b.add (Member.plain c))) r
      | none =>
        if c = '[' then readRest? escapes (some Bracket.empty) r
        else (readRest? escapes none r).map (Token.ofChar c :: ·)

/-- The tokens of a segment. If `escapes` holds, a backslash makes the character behind it literal,
in a bracket expression too, and a backslash at the very end stands for itself. -/
def readTokens? (escapes : Bool) (segment : Text) : Option (List Token) :=
  readRest? escapes none segment

@[simp] theorem readTokens?_nil (escapes : Bool) : readTokens? escapes [] = some [] := rfl

/-! ## As regular expressions -/

/-- The characters that have a meaning in a regular expression, blanks included. -/
def expressionSpecials : List Char :=
  ['(', ')', '[', ']', '\x7b', '\x7d', '?', '*', '+', '-', '|', '^', '$', '\\', '.', '&', '~', '#',
    ' ', '\t', '\n', '\r', '\x0b', '\x0c']

/-- A character as a regular expression that matches it alone. -/
def literalExpression (c : Char) : Text := if c ∈ expressionSpecials then ['\\', c] else [c]

/-- A token as a regular expression. If `pathName` holds, a run has no separator. -/
def Token.expression (pathName : Bool) : Token → Text
  | .literal c => literalExpression c
  | .anyChar => ['.']
  | .anyRun => if pathName then ['[', '^', '/', ']', '*'] else ['.', '*']
  | .bracket b => b.expression?.getD []

/-! ## Meaning -/

/-- Whether the token can be matched at all. -/
def Token.wellFormed : Token → Bool
  | .bracket b => (CharSet.ofMembers b.members).wellFormed
  | _ => true

/-- Whether a token matches a character. A run is not a matter of one character and matches none. -/
def Token.holds (ignoreCase : Bool) : Token → Char → Bool
  | .literal c, d => if ignoreCase then sameLetter c d else c == d
  | .anyChar, _ => true
  | .anyRun, _ => false
  | .bracket b, d => (CharSet.ofMembers b.members).holds ignoreCase d

/-- Whether the token spells out the dot: it is a literal dot or a bracket expression whose first
member is a dot. -/
def Token.isDot : Token → Bool
  | .literal c => c == '.'
  | .bracket b => b.beginsWith '.'
  | _ => false

/-- Without regard to case, what a token matches hangs on the small letter alone. -/
theorem Token.holds_congr {a b : Char} (h : smallCode a.toNat = smallCode b.toNat) (t : Token) :
    t.holds true a = t.holds true b := by
  cases t <;> simp [Token.holds, sameLetter_congr h, CharSet.holds_congr h]

end PathGlob
