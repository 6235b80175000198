import PathGlob.Flags
import PathGlob.Segment.Token

/-! # Segments
Matching a name against a single segment of a pattern.

* **`Segment.compile?`** — the compiled form of a segment, none if it can match no name because of a
  malformed bracket expression.
* **`Segment.accepts`** — whether the tokens of a segment, in order, use up a whole name.
* **`NameMatcher`** — a segment with its flags; **`NameMatcher.accepts`** also keeps names that
  start with a dot from being matched by accident.
* **`nameMatches`** — the whole in one step. -/

namespace PathGlob

/-! ## Compiled segments -/

/-- A segment whose bracket expressions are well-formed. -/
structure Segment where
  /-- The tokens in order. -/
  tokens : List Token
  deriving DecidableEq, Repr

/-- The compiled form of a segment. -/
def Segment.compile? (fs : Flags) (pattern : Text) : Option Segment :=
  match readTokens? fs.escapes pattern with
  | some tokens => if tokens.all Token.wellFormed then some ⟨tokens⟩ else none
  | none => none

/-- The segment as a regular expression. -/
def Segment.expression (fs : Flags) (s : Segment) : Text :=
  s.tokens.flatMap (Token.expression (fs.has .pathName))

/-- Whether the first token spells out a dot. -/
def Segment.explicitDot (s : Segment) : Bool := s.tokens.head?.any Token.isDot

/-! ## Matching -/

/-- Whether a text can be split so that the first part has only characters that `inRun` accepts and
`rest` accepts the second part. -/
def splitsAfterRun (inRun : Char → Bool) (rest : Text → Bool) : Text → Bool
  | [] => rest []
  | c :: r => rest (c :: r) || (inRun c && splitsAfterRun inRun rest r)

/-- Whether a split exists, said without the search. -/
theorem splitsAfterRun_iff {inRun : Char → Bool} {rest : Text → Bool} {t : Text} :
    splitsAfterRun inRun rest t = true ↔
      ∃ u v, t = u ++ v ∧ (∀ c ∈ u, inRun c = true) ∧ rest v = true := by
  induction t with
  | nil =>
    rw [splitsAfterRun]
    constructor
    · exact fun h => ⟨[], [], rfl, by simp, h⟩
    · rintro ⟨u, v, h, -, hv⟩
      obtain ⟨rfl, rfl⟩ := List.append_eq_nil_iff.1 h.symm
      exact hv
  | cons c r ih =>
    rw [splitsAfterRun, Bool.or_eq_true, Bool.and_eq_true, ih]
    constructor
    · rintro (h | ⟨hc, u, v, rfl, hu, hv⟩)
      · exact ⟨[], c :: r, rfl, by simp, h⟩
      · exact ⟨c :: u, v, rfl, by simpa using ⟨hc, hu⟩, hv⟩
    · rintro ⟨u, v, h, hu, hv⟩
      cases u with
      | nil => exact .inl (by simpa [h] using hv)
      | cons d u =>
        obtain ⟨rfl, rfl⟩ : c = d ∧ r = u ++ v := by simpa using h
        exact .inr ⟨hu c (by simp), u, v, rfl, fun x hx => hu x (by simp [hx]), hv⟩

/-- Whether a character may belong to a run: under path names a separator may not. -/
def Flags.inRun (fs : Flags) (c : Char) : Bool := !(fs.has .pathName && c == '/')

/-- Whether the tokens, in order, use up a whole name. -/
def tokensAccept (fs : Flags) : List Token → Text → Bool
  | [], name => name.isEmpty
  | .anyRun :: ts, name => splitsAfterRun fs.inRun (tokensAccept fs ts) name
  | t :: ts, name =>
    match name with
    | [] => false
    | c :: r => t.holds (fs.has .ignoreCase) c && tokensAccept fs ts r

@[simp] theorem tokensAccept_nil (fs : Flags) (name : Text) :
    tokensAccept fs [] name = name.isEmpty := by
  rw [tokensAccept]

/-- Whether a segment matches a whole name. -/
def Segment.accepts (fs : Flags) (s : Segment) (name : Text) : Bool := tokensAccept fs s.tokens name

/-! ## Matchers -/

/-- A segment to be matched against many names. -/
structure NameMatcher where
  /-- The text of the segment. -/
  pattern : Text
  /-- The flags that apply. -/
  flags : Flags
  /-- The compiled form; an empty segment has none. -/
  compiled? : Option Segment

/-- The matcher of a segment. -/
def NameMatcher.ofSegment (fs : Flags) (pattern : Text) : NameMatcher :=
  ⟨pattern, fs, if pattern.isEmpty then none else Segment.compile? fs pattern⟩

/-- Whether a name is hidden: it starts with a dot. -/
def isHidden (name : Text) : Bool := name.head? == some '.'

/-- Whether a matcher accepts a name. The empty segment accepts the empty name alone, and a hidden
name has to be asked for by a flag or by a segment that spells out the dot. -/
def NameMatcher.accepts (m : NameMatcher) (name : Text) : Bool :=
  if m.pattern.isEmpty then name.isEmpty
  else
    match m.compiled? with
    | none => false
    | some s =>
      -- the dot of a hidden name is not left to a wildcard
      if !m.flags.has .dotMatch && isHidden name && !s.explicitDot then false
      else s.accepts m.flags name

/-- The form of a matcher in messages. -/
def NameMatcher.describe (m : NameMatcher) : Text :=
  "SegmentMatcher(pattern=".toList ++ quoted m.pattern ++ ", flags=".toList ++ m.flags.toText
    ++ [')']

/-- Whether a name matches a segment as a whole. -/
def nameMatches (fs : Flags) (pattern name : Text) : Bool :=
  (NameMatcher.ofSegment fs pattern).accepts name

end PathGlob
