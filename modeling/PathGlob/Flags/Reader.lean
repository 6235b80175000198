import PathGlob.Flags
import PathGlob.Text.Blank
import PathGlob.Text.Digit
import PathGlob.Value

/-! # Reading flags
Flags may be given as an integer, as a numeral or as names of flags.

* **`Flags.ofText`** — reads a text: nothing but blanks is the empty set, a text of digits or one
  that starts with `0x` is a numeral, and anything else is a list of names.
* **`Flags.ofValue`** — reads a value of any kind.
* **`FlagsError`** — why a value stands for no flags. -/

namespace PathGlob

/-- Why a value cannot be read as flags. -/
inductive FlagsError
  /-- A name that no flag has. -/
  | unknownName (name : Text)
  /-- A text that looks like a numeral and is none. -/
  | badNumeral (t : Text)
  /-- A decimal numeral with more digits than are read. -/
  | longNumeral (digits : Nat)
  /-- A value that is neither an integer nor a text. -/
  | badKind (kind : Text)

/-- The most digits of a decimal numeral that is read. -/
def numeralLimit : Nat := 4300

/-- The most characters of a quoted text that the message on a bad numeral shows. -/
def numeralShown : Nat := 200

/-- The wording of an error. -/
def FlagsError.message : FlagsError → Text
  | .unknownName n => "Unknown glob flag ".toList ++ quoted n ++ ['.']
  | .badNumeral t =>
    "invalid literal for int() with base 0: ".toList ++ (quoted t).take numeralShown
  | .longNumeral n =>
    "Exceeds the limit (".toList ++ natText numeralLimit
      ++ " digits) for integer string conversion: value has ".toList ++ natText n
      ++ " digits; use sys.set_int_max_str_digits() to increase the limit".toList
  | .badKind k => apostrophe :: k ++ "' object has no attribute 'strip'".toList

/-! ## Names -/

/-- The character under which names are compared: capital for small, for the letters whose capital
is one of the basic alphabet, and a low line for a hyphen. -/
def nameChar (c : Char) : Char :=
  if 'a' ≤ c ∧ c ≤ 'z' then Char.ofNat (c.toNat - 32)
  else if c = 'ſ' then 'S'
  else if c = 'ı' then 'I'
  else if c = '-' then '_'
  else c

/-- Whether two names are the same, small and capital letters, hyphens and low lines alike. -/
def sameName (a b : Text) : Bool := a.map nameChar == b.map nameChar

/-- The flags that a single name stands for. -/
def Flags.ofName (name : Text) : Except FlagsError Flags :=
  if sameName name noneName then .ok Flags.empty
  else
    match Flag.all.find? fun f => sameName name f.name with
    | some f => .ok (Flags.ofFlag f)
    | none => .error (.unknownName name)

/-- Whether a character separates names. -/
def isNameSeparator (c : Char) : Bool := c == '|' || c == ',' || isBlank c

/-- The names in a text. -/
def flagNames (t : Text) : List Text := (piecesBy isNameSeparator t).filter (!·.isEmpty)

/-- The union of the flags of names in order; the first name that is unknown decides the error. -/
def Flags.ofNames (names : List Text) : Except FlagsError Flags :=
  names.foldlM (fun fs name => (Flags.ofName name).map fs.union) Flags.empty

/-! ## Numerals -/

/-- Whether a text starts like a hexadecimal numeral. -/
def beginsHex : Text → Bool
  | '0' :: x :: _ => x == 'x' || x == 'X'
  | _ => false

/-- Whether a text is read as a numeral. -/
def looksNumeric (t : Text) : Bool := t.all isDigit || beginsHex t

/-- The digits of a hexadecimal numeral, without the low lines that may stand before the first digit
and between two digits. A low line elsewhere, or no digit at all, makes it no numeral. -/
def hexDigits? (t : Text) : Option Text :=
  -- a low line may stand directly behind the start of the numeral
  let groups :=
    match pieces '_' t with
    | [] :: g :: gs => g :: gs
    | gs => gs
  if groups.all (!·.isEmpty) then some groups.flatten else none

/-- The number that a hexadecimal numeral stands for, given what follows `0x`. -/
def readHex? (t : Text) : Option Nat := (hexDigits? t).bind (numeral? 16 hexValue?)

/-- The number that a decimal numeral stands for. Only zero may start with a zero. -/
def readDecimal? (t : Text) : Option Nat :=
  match numeral? 10 digitValue? t with
  | some n => if n ≠ 0 ∧ (t.head?.bind digitValue?) = some 0 then none else some n
  | none => none

/-- The number that a numeral stands for. -/
def readNumeral (t : Text) : Except FlagsError Nat :=
  if beginsHex t then
    match readHex? (t.drop 2) with
    | some n => .ok n
    | none => .error (.badNumeral t)
  else
    let digits := (t.takeWhile fun c => (digitValue? c).isSome).length
    if numeralLimit < digits then .error (.longNumeral digits)
    else
      match readDecimal? t with
      | some n => .ok n
      | none => .error (.badNumeral t)

/-! ## Texts and values -/

/-- The flags that a text stands for. -/
def Flags.ofText (t : Text) : Except FlagsError Flags :=
  let s := strip t
  if s.isEmpty then .ok Flags.empty
  else if looksNumeric s then (readNumeral s).map Flags.mk
  else Flags.ofNames (flagNames s)

/-- The flags that a value stands for. A truth value counts as zero or one. -/
def Flags.ofValue : Value → Except FlagsError Flags
  | .int n => .ok (Flags.ofInt n)
  | .bool b => .ok ⟨b.toNat⟩
  | .text t => Flags.ofText t
  | v => .error (.badKind v.kind)

end PathGlob
