import PathGlob.Walk

/-! # Texts with escapes
The path that a provider is asked for is the text of the walk with its escapes removed. That text
grows at its end, name by name, and removing the escapes respects this as long as it never ends
inside an escape.

* **`Flags.plainText`** — a text with its escapes removed, if the flags have escapes.
* **`endsInsideEscape`** — whether a text ends with a backslash that waits for a character.
* **`Flags.Whole`** — a text that does not end inside an escape; **`Flags.Whole.joinPath`** and
  **`Flags.Whole.plainText_joinPath`** say that paths are formed of such texts.
* **`WellEscaped`** — a text in which every backslash stands directly before a character that has a
  meaning in a segment. -/

namespace PathGlob

variable {fs : Flags}

/-! ## Texts without their escapes -/

/-- A text with its escapes removed, if the flags have escapes. -/
def Flags.plainText (fs : Flags) (t : Text) : Text := if fs.escapes then unescape t else t

/-- The provider is asked for the path without its escapes. -/
theorem Scope.queryPath_eq (s : Scope) (path : Text) : s.queryPath path = s.flags.plainText path :=
  rfl

@[simp] theorem Flags.plainText_nil (fs : Flags) : fs.plainText [] = [] := by
  simp [Flags.plainText]

/-- A character that is no backslash stands for itself. -/
theorem Flags.plainText_cons {c : Char} (h : c ≠ '\\') (r : Text) :
    fs.plainText (c :: r) = c :: fs.plainText r := by
  unfold Flags.plainText
  split
  · exact unescape_cons h r
  · rfl

/-- A backslash is removed, and the character behind it stays. -/
theorem Flags.plainText_escape (h : fs.escapes = true) (c : Char) (r : Text) :
    fs.plainText ('\\' :: c :: r) = c :: fs.plainText r := by
  simp only [Flags.plainText, h, if_true]
  exact unescape_escaped c r

/-- A character that begins no escape stands for itself. -/
theorem Flags.plainText_unescaped {c : Char} (h : ¬(fs.escapes && c == '\\') = true) (r : Text) :
    fs.plainText (c :: r) = c :: fs.plainText r := by
  by_cases hc : c = '\\'
  · simp [Flags.plainText, show fs.escapes = false by simpa [hc] using h]
  · exact Flags.plainText_cons hc r

/-- A text without a backslash stands for itself. -/
theorem Flags.plainText_of_not_mem {t : Text} (h : '\\' ∉ t) : fs.plainText t = t := by
  induction t with
  | nil => simp
  | cons c t ih =>
    rw [List.mem_cons, not_or] at h
    rw [Flags.plainText_cons (Ne.symm h.1), ih h.2]

/-- Removing the escapes does not change the end of a text. -/
theorem getLast?_unescape (t : Text) : (unescape t).getLast? = t.getLast? := by
  fun_induction unescape t with
  | case1 => rfl
  | case2 c => rfl
  | case3 d r ih =>
    cases r with
    | nil => simp [unescape]
    | cons x r => simp [List.getLast?_cons, ih]
  | case4 c d r h ih => simp [List.getLast?_cons, ih]

/-- A path ends in a separator if it does so with its escapes. -/
@[simp] theorem endsIn_plainText (c : Char) (t : Text) : endsIn c (fs.plainText t) = endsIn c t := by
  unfold Flags.plainText
  split
  · rw [endsIn, getLast?_unescape, endsIn]
  · rfl

/-- Removing the escapes brings in no characters. -/
theorem mem_of_mem_plainText {c : Char} {t : Text} (h : c ∈ fs.plainText t) : c ∈ t := by
  unfold Flags.plainText at h
  split at h
  · fun_induction unescape t with
    | case1 => exact h
    | case2 d => exact h
    | case3 d r ih =>
      rcases List.mem_cons.1 h with rfl | hr
      · simp
      · simp [ih hr]
    | case4 d e r _ ih =>
      rcases List.mem_cons.1 h with rfl | hr
      · simp
      · exact List.mem_cons_of_mem _ (ih hr)
  · exact h

/-! ## Whole texts -/

/-- **Whether a text ends inside an escape**: read from the left, its last character is a backslash that
begins an escape. -/
def endsInsideEscape (t : Text) : Bool := t.foldl (fun inside c => !inside && c == '\\') false

/-- A character that is no backslash begins no escape. -/
theorem endsInsideEscape_cons {c : Char} (hc : c ≠ '\\') (r : Text) :
    endsInsideEscape (c :: r) = endsInsideEscape r := by
  have hstate : (!false && c == '\\') = false := by simpa using hc
  rw [endsInsideEscape, List.foldl_cons, hstate, endsInsideEscape]

/-- Behind an escape reading begins anew. -/
theorem endsInsideEscape_escape (c : Char) (r : Text) :
    endsInsideEscape ('\\' :: c :: r) = endsInsideEscape r := rfl

/-- **A text that does not end inside an escape**: what follows it keeps its meaning. -/
def Flags.Whole (fs : Flags) (t : Text) : Prop :=
  ∀ u, fs.plainText (t ++ u) = fs.plainText t ++ fs.plainText u

theorem Flags.Whole.nil : fs.Whole [] := fun u => by simp

/-- Without escapes every text is whole. -/
theorem Flags.Whole.of_not_escapes (h : fs.escapes = false) (t : Text) : fs.Whole t := fun u => by
  simp [Flags.plainText, h]

/-- A character that is no backslash may stand in front of a whole text. -/
theorem Flags.Whole.cons {c : Char} {t : Text} (hc : c ≠ '\\') (h : fs.Whole t) :
    fs.Whole (c :: t) := fun u => by
  rw [List.cons_append, Flags.plainText_cons hc, Flags.plainText_cons hc, h u, List.cons_append]

/-- An escape in front keeps a text whole. -/
theorem Flags.Whole.escape {c : Char} {t : Text} (ht : fs.Whole t) (he : fs.escapes = true) :
    fs.Whole ('\\' :: c :: t) := fun u => by
  rw [List.cons_append, List.cons_append, Flags.plainText_escape he, Flags.plainText_escape he, ht u,
    List.cons_append]

/-- Whole texts may be put together. -/
theorem Flags.Whole.append {t u : Text} (ht : fs.Whole t) (hu : fs.Whole u) :
    fs.Whole (t ++ u) := fun v => by
  rw [List.append_assoc, ht, ht, hu, List.append_assoc]

/-- A text without a backslash is whole. -/
theorem Flags.Whole.of_not_mem {t : Text} (h : '\\' ∉ t) : fs.Whole t := by
  induction t with
  | nil => exact Flags.Whole.nil
  | cons c t ih =>
    rw [List.mem_cons, not_or] at h
    exact (ih h.2).cons (Ne.symm h.1)

/-- The path of a name in a directory is whole if both are. -/
theorem Flags.Whole.joinPath {base t : Text} (hb : fs.Whole base) (ht : fs.Whole t) :
    fs.Whole (PathGlob.joinPath base t) := by
  unfold PathGlob.joinPath
  split
  · exact hb.append ht
  · exact hb.append (ht.cons (by decide))

/-- **Removing the escapes respects the joining of paths.** -/
theorem Flags.Whole.plainText_joinPath {base : Text} (hb : fs.Whole base) (t : Text) :
    fs.plainText (PathGlob.joinPath base t) =
      PathGlob.joinPath (fs.plainText base) (fs.plainText t) := by
  unfold PathGlob.joinPath
  rw [endsIn_plainText]
  split
  · exact hb t
  · rw [hb, Flags.plainText_cons (by decide)]

/-- A separator behind a whole text stays where it is. -/
theorem Flags.Whole.plainText_slash {t : Text} (h : fs.Whole t) :
    fs.plainText (t ++ ['/']) = fs.plainText t ++ ['/'] := by
  rw [h, Flags.plainText_cons (by decide), Flags.plainText_nil]

/-- A listed name is written so that it means itself. -/
theorem Scope.plainText_nameText (s : Scope) (name : Text) :
    s.flags.plainText (s.nameText name) = name := by
  unfold Flags.plainText Scope.nameText
  split
  · exact unescape_escapeName name
  · rfl

/-- A listed name is written as a whole text. -/
theorem Scope.whole_nameText (s : Scope) (name : Text) : s.flags.Whole (s.nameText name) := by
  by_cases he : s.flags.escapes = true
  · have hname : s.nameText name = escapeName name := by simp [Scope.nameText, he]
    rw [hname]
    induction name with
    | nil => exact Flags.Whole.nil
    | cons c r ih =>
      have hr := ih (by simp [Scope.nameText, he])
      rw [escapeName_cons]
      apply Flags.Whole.append _ hr
      unfold escapeChar
      split
      · exact Flags.Whole.nil.escape he
      · have hc : c ≠ '\\' := by
          rintro rfl
          simp_all [needsEscape]
        exact Flags.Whole.nil.cons hc
  · exact Flags.Whole.of_not_escapes (by simpa using he) _

/-- **A mark with a meaning never stands inside an escape**: it is that of its character, and the
text in front of it is whole. -/
theorem exists_of_getElem?_marks {t : Text} {i : Nat} {m : Mark}
    (h : (marks fs.escapes t)[i]? = some m) (hm : m ≠ .plain) :
    ∃ u c r, t = u ++ c :: r ∧ u.length = i ∧ Mark.ofChar c = m ∧ fs.Whole u := by
  fun_induction marks fs.escapes t generalizing i with
  | case1 => simp at h
  | case2 c =>
    cases i with
    | succ i => simp at h
    | zero =>
      refine ⟨[], c, [], rfl, rfl, ?_, Flags.Whole.nil⟩
      by_cases hc : fs.escapes && c == '\\'
      · exact absurd (by simpa [hc] using h.symm) hm
      · simpa [hc] using h
  | case3 c d r hc ih =>
    obtain ⟨he, rfl⟩ : fs.escapes = true ∧ c = '\\' := by simpa using hc
    -- the marks of the backslash and of the character behind it are plain
    cases i with
    | zero => exact absurd (by simpa using h.symm) hm
    | succ i =>
      cases i with
      | zero => exact absurd (by simpa using h.symm) hm
      | succ i =>
        obtain ⟨u, x, v, rfl, hlen, hx, hu⟩ := ih (by simpa using h)
        exact ⟨'\\' :: d :: u, x, v, rfl, by simp [hlen], hx, hu.escape he⟩
  | case4 c d r hc ih =>
    cases i with
    | zero => exact ⟨[], c, d :: r, rfl, rfl, by simpa using h, Flags.Whole.nil⟩
    | succ i =>
      obtain ⟨u, x, v, heq, hlen, hx, hu⟩ := ih (by simpa using h)
      refine ⟨c :: u, x, v, by rw [heq]; rfl, by simp [hlen], hx, ?_⟩
      by_cases hb : c = '\\'
      · exact Flags.Whole.of_not_escapes (by simpa [hb] using hc) _
      · exact hu.cons hb

/-! ## Well-escaped texts -/

/-- Whether a character has a meaning inside a segment. -/
def isSegmentSpecial (c : Char) : Bool :=
  c == '*' || c == '?' || c == '[' || c == ']' || c == '-' || c == '^'

/-- **A text in which every backslash stands directly before a character with a meaning inside a
segment**; without escapes there is no backslash at all. -/
inductive WellEscaped (escapes : Bool) : Text → Prop
  /-- The empty text. -/
  | nil : WellEscaped escapes []
  /-- A character that is no backslash. -/
  | char {c : Char} {r : Text} (hc : c ≠ '\\') (h : WellEscaped escapes r) :
    WellEscaped escapes (c :: r)
  /-- A backslash with the character behind it. -/
  | escape {c : Char} {r : Text} (he : escapes = true) (hc : isSegmentSpecial c = true)
    (h : WellEscaped escapes r) : WellEscaped escapes ('\\' :: c :: r)

/-- A text without a backslash is well-escaped. -/
theorem WellEscaped.of_not_mem {e : Bool} {t : Text} (h : '\\' ∉ t) : WellEscaped e t := by
  induction t with
  | nil => exact .nil
  | cons c t ih =>
    rw [List.mem_cons, not_or] at h
    exact .char (Ne.symm h.1) (ih h.2)

/-- **Every backslash of a well-escaped text stands directly before a character with a meaning**, and
a text in which this holds is well-escaped. -/
theorem wellEscaped_iff {e : Bool} {t : Text} :
    WellEscaped e t ↔ ∀ u v, t = u ++ '\\' :: v →
      e = true ∧ ∃ c ∈ v.head?, isSegmentSpecial c = true := by
  constructor
  · intro h
    induction h with
    | nil => simp
    | @char c r hc _ ih =>
      intro u v ht
      cases u with
      | nil => exact absurd (List.cons.inj ht).1 hc
      | cons x u => exact ih u v (List.cons.inj ht).2
    | @escape c r he hc _ ih =>
      intro u v ht
      match u with
      | [] => exact ⟨he, c, by rw [← (List.cons.inj ht).2]; rfl, hc⟩
      | [x] =>
        obtain ⟨rfl, -⟩ := List.cons.inj (List.cons.inj ht).2
        exact absurd hc (by decide)
      | x :: y :: u => exact ih u v (List.cons.inj (List.cons.inj ht).2).2
  · intro h
    induction hn : t.length using Nat.strongRecOn generalizing t with
    | _ n shorter =>
      cases t with
      | nil => exact .nil
      | cons c r =>
        by_cases hc : c = '\\'
        · subst hc
          obtain ⟨he, d, hd, hspecial⟩ := h [] r rfl
          obtain ⟨r', rfl⟩ := List.head?_eq_some_iff.1 hd
          refine .escape he hspecial (shorter r'.length ?_ ?_ rfl)
          · rw [← hn, List.length_cons, List.length_cons]
            omega
          · intro u v hr
            exact h ('\\' :: d :: u) v (by rw [hr]; rfl)
        · refine .char hc (shorter r.length ?_ ?_ rfl)
          · rw [← hn, List.length_cons]
            omega
          · intro u v hr
            exact h (c :: u) v (by rw [hr]; rfl)

/-- A separator does not belong to an escape, so a text is well-escaped on both sides of it. -/
theorem WellEscaped.of_append_cons {e : Bool} {a b : Text} (h : WellEscaped e (a ++ '/' :: b)) :
    WellEscaped e a ∧ WellEscaped e b := by
  generalize ht : a ++ '/' :: b = t at h
  induction h generalizing a with
  | nil => simp at ht
  | @char c r hc h ih =>
    cases a with
    | nil =>
      obtain ⟨rfl, rfl⟩ : '/' = c ∧ b = r := by simpa using ht
      exact ⟨.nil, h⟩
    | cons x a =>
      obtain ⟨rfl, hr⟩ : x = c ∧ a ++ '/' :: b = r := by simpa using ht
      exact ⟨.char hc (ih hr).1, (ih hr).2⟩
  | @escape c r he hc h ih =>
    match a with
    | [] => simp at ht
    | [x] =>
      obtain ⟨-, rfl, -⟩ : x = '\\' ∧ '/' = c ∧ b = r := by simpa using ht
      exact absurd hc (by decide)
    | x :: y :: a =>
      obtain ⟨rfl, rfl, hr⟩ : x = '\\' ∧ y = c ∧ a ++ '/' :: b = r := by simpa using ht
      exact ⟨.escape he hc (ih hr).1, (ih hr).2⟩

/-- Well-escaped texts may be put together. -/
theorem WellEscaped.append {e : Bool} {a b : Text} (ha : WellEscaped e a) (hb : WellEscaped e b) :
    WellEscaped e (a ++ b) := by
  induction ha with
  | nil => exact hb
  | char hc _ ih => exact .char hc ih
  | escape he hc _ ih => exact .escape he hc ih

/-- A well-escaped text is whole. -/
theorem WellEscaped.whole {t : Text} (h : WellEscaped fs.escapes t) : fs.Whole t := by
  induction h with
  | nil => exact Flags.Whole.nil
  | char hc _ ih => exact ih.cons hc
  | escape he _ _ ih => exact ih.escape he

/-- Without its escapes a well-escaped text has no backslash. -/
theorem WellEscaped.not_mem_plainText {t : Text} (h : WellEscaped fs.escapes t) :
    '\\' ∉ fs.plainText t := by
  induction h with
  | nil => simp
  | char hc _ ih =>
    rw [Flags.plainText_cons hc, List.mem_cons, not_or]
    exact ⟨Ne.symm hc, ih⟩
  | @escape c r he hc _ ih =>
    have hne : '\\' ≠ c := by
      rintro rfl
      exact absurd hc (by decide)
    rw [Flags.plainText_escape he, List.mem_cons, not_or]
    exact ⟨hne, ih⟩

/-- Only the text `t` itself stands for a text `t` of characters without a meaning. -/
theorem WellEscaped.eq_of_plainText_eq {t u : Text} (h : WellEscaped fs.escapes t)
    (hu : ∀ c ∈ u, isSegmentSpecial c = false) (heq : fs.plainText t = u) : t = u := by
  induction h generalizing u with
  | nil => simpa using heq
  | char hc _ ih =>
    rw [Flags.plainText_cons hc] at heq
    subst heq
    rw [← ih (fun c h => hu c (by simp [h])) rfl]
  | @escape c r he hc _ ih =>
    -- an escaped character would be special
    rw [Flags.plainText_escape he] at heq
    subst heq
    have hfalse := hu c (by simp)
    rw [hc] at hfalse
    cases hfalse

end PathGlob
