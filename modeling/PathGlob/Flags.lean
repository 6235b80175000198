import PathGlob.Text

/-! # Flags
Four switches change what a pattern means. A set of flags is a natural number whose first four
binary digits are the switches; higher digits have no meaning but are kept.

* **`Flag`** — the switches; **`Flags`** — sets of them; **`Flags.standard`** — the usual set.
* **`Flags.ofInt`** — the flags that an integer stands for, negative integers included.
* **`Flags.toText`** — the names of the known flags of a set. -/

namespace PathGlob

/-! ## Single flags -/

/-- The switches of a pattern. -/
inductive Flag
  /-- The backslash is an ordinary character. -/
  | noEscape
  /-- A star in a segment does not match a separator. -/
  | pathName
  /-- Names that start with a dot are matched by wildcards. -/
  | dotMatch
  /-- Letters match without regard to case. -/
  | ignoreCase
  deriving DecidableEq, Repr

/-- All flags, in the order of their digits. -/
def Flag.all : List Flag := [.noEscape, .pathName, .dotMatch, .ignoreCase]

/-- The place of the binary digit of a flag. -/
def Flag.place : Flag → Nat
  | .noEscape => 0
  | .pathName => 1
  | .dotMatch => 2
  | .ignoreCase => 3

/-- The name of a flag. -/
def Flag.name : Flag → Text
  | .noEscape => "no-escape".toList
  | .pathName => "path-name".toList
  | .dotMatch => "dot-match".toList
  | .ignoreCase => "ignore-case".toList

/-- Every flag is listed. -/
theorem Flag.mem_all (f : Flag) : f ∈ Flag.all := by cases f <;> simp [Flag.all]

/-! ## Sets of flags -/

/-- A set of flags. -/
structure Flags where
  /-- The number whose binary digits are the switches. -/
  bits : Nat
  deriving DecidableEq, Repr

/-- No flag. -/
def Flags.empty : Flags := ⟨0⟩

/-- The set of one flag. -/
def Flags.ofFlag (f : Flag) : Flags := ⟨1 <<< f.place⟩

/-- The flags of both sets. -/
def Flags.union (a b : Flags) : Flags := ⟨a.bits ||| b.bits⟩

/-- Whether a flag is in the set. -/
def Flags.has (fs : Flags) (f : Flag) : Bool := fs.bits.testBit f.place

/-- The flags that are meant if none are given: no escapes, stars do not match separators, and
letters match without regard to case. -/
def Flags.standard : Flags :=
  ((Flags.ofFlag .noEscape).union (Flags.ofFlag .pathName)).union (Flags.ofFlag .ignoreCase)

/-- A flag is in a union if it is in one of the two sets. -/
@[simp] theorem Flags.has_union (a b : Flags) (f : Flag) :
    (a.union b).has f = (a.has f || b.has f) := by
  simp [Flags.has, Flags.union, Nat.testBit_or]

/-- Nothing is in the empty set. -/
@[simp] theorem Flags.has_empty (f : Flag) : Flags.empty.has f = false := by
  simp [Flags.has, Flags.empty]

/-- Whether the backslash escapes the character behind it. -/
def Flags.escapes (fs : Flags) : Bool := !fs.has .noEscape

/-! ## Flags and integers -/

/-- The number of binary digits of a natural number. -/
def binaryLength (n : Nat) : Nat := if n = 0 then 0 else n.log2 + 1

/-- The flags that an integer stands for. A negative integer down to the complement of all known
flags counts back from sixteen, and a smaller one from the next power of two above its amount. -/
def Flags.ofInt : Int → Flags
  | .ofNat n => ⟨n⟩
  | .negSucc n => ⟨(if n < 16 then 16 else 1 <<< binaryLength (n + 1)) - (n + 1)⟩

/-! ## Text form -/

/-- How the empty set of flags is written. -/
def noneName : Text := "none".toList

/-- The names of the known flags of a set, separated by bars; only the set without any digit is
called `none`. -/
def Flags.toText (fs : Flags) : Text :=
  if fs.bits = 0 then noneName else joinWith ['|'] ((Flag.all.filter fs.has).map Flag.name)

@[simp] theorem Flags.toText_empty : Flags.empty.toText = noneName := rfl

end PathGlob
