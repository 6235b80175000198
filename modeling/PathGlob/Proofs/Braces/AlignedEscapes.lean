import Mathlib.Data.List.Basic
import PathGlob.Proofs.Braces.Alternatives

/-! # Escapes in alternatives
Brace expansion works on characters and drops the backslashes of commas and braces; what comes behind it
cuts each alternative into escapes and other characters anew. It always finds the escapes of the pattern:
no backslash of one literal meets the character of another one, and no escape loses its character.

* **`escapeTokens`** — a text cut into escapes and other characters; **`bareToken`** — a token without
  the backslash of a comma or a brace.
* **`EscapeRow`** — tokens that are found again in the text that they make up.
* **`patternTokens`** — the tokens of a pattern for its groups, its literals being such tokens.
* **`sequenceChoices`** — the literals that are chosen, one list for each choice of branches;
  **`expandBraces_eq_choices`** says that the alternatives are made of them.
* **`expandBraces_keeps_escapes`** — the main statement. -/

namespace PathGlob

/-! ## Texts cut into tokens -/

/-- **The tokens of a text with escapes**: a backslash with the character behind it, a backslash at the
very end, or any other single character. -/
def escapeTokens : Text → List Text
  | [] => []
  | [c] => [[c]]
  | c :: d :: r => if c = '\\' then ['\\', d] :: escapeTokens r else [c] :: escapeTokens (d :: r)

/-- A backslash is a token with the character behind it. -/
@[simp] theorem escapeTokens_escape (c : Char) (r : Text) :
    escapeTokens ('\\' :: c :: r) = ['\\', c] :: escapeTokens r := by
  rw [escapeTokens, if_pos rfl]

/-- Another character is a token by itself. -/
theorem escapeTokens_cons {c : Char} (h : c ≠ '\\') (r : Text) :
    escapeTokens (c :: r) = [c] :: escapeTokens r := by
  cases r with
  | nil => rfl
  | cons d r => rw [escapeTokens, if_neg h]

/-- The tokens make up the text. -/
theorem flatten_escapeTokens (t : Text) : (escapeTokens t).flatten = t := by
  fun_induction escapeTokens t with
  | case1 => rfl
  | case2 c => rfl
  | case3 d r ih => rw [List.flatten_cons, ih]; rfl
  | case4 c d r h ih => rw [List.flatten_cons, ih]; rfl

/-- Escapes are removed token by token. -/
theorem unescape_eq_flatMap (t : Text) : unescape t = (escapeTokens t).flatMap unescape := by
  fun_induction escapeTokens t with
  | case1 => rfl
  | case2 c => rfl
  | case3 d r ih => rw [unescape_escaped, ih, List.flatMap_cons, unescape_escaped]; rfl
  | case4 c d r h ih => rw [unescape_cons h, ih, List.flatMap_cons, unescape_singleton]; rfl

/-- Wildcards and separators are found token by token. -/
theorem marks_eq_flatMap (t : Text) : marks true t = (escapeTokens t).flatMap (marks true) := by
  fun_induction escapeTokens t with
  | case1 => rfl
  | case2 c => simp
  | case3 d r ih => simp [marks, ih]
  | case4 c d r h ih => simp [marks, h, ih]

/-! ## Tokens put together -/

/-- **Tokens that are found again in the text that they make up**: a backslash by itself is the last
one. -/
inductive EscapeRow : List Text → Prop
  /-- No token. -/
  | nil : EscapeRow []
  /-- A backslash at the very end. -/
  | backslash : EscapeRow [['\\']]
  /-- A character that is no backslash. -/
  | char {c : Char} {ts : List Text} (hc : c ≠ '\\') (h : EscapeRow ts) : EscapeRow ([c] :: ts)
  /-- A backslash with the character behind it. -/
  | escape (c : Char) {ts : List Text} (h : EscapeRow ts) : EscapeRow (['\\', c] :: ts)

/-- The tokens of a text are of this kind. -/
theorem escapeRow_escapeTokens (t : Text) : EscapeRow (escapeTokens t) := by
  fun_induction escapeTokens t with
  | case1 => exact .nil
  | case2 c =>
    by_cases hc : c = '\\'
    · rw [hc]
      exact .backslash
    · exact .char hc .nil
  | case3 d r ih => exact .escape d ih
  | case4 c d r h ih => exact .char h ih

/-- **They are found again.** -/
theorem EscapeRow.escapeTokens_flatten {ts : List Text} (h : EscapeRow ts) :
    escapeTokens ts.flatten = ts := by
  induction h with
  | nil => rfl
  | backslash => rfl
  | char hc _ ih =>
    rw [List.flatten_cons, List.singleton_append, escapeTokens_cons hc, ih]
  | escape c _ ih =>
    rw [List.flatten_cons, List.cons_append, List.singleton_append, escapeTokens_escape, ih]

/-- **So are some of them, taken in order**: what was the last one cannot stand in front. -/
theorem EscapeRow.sublist {ts us : List Text} (h : EscapeRow us) (hsub : ts.Sublist us) :
    EscapeRow ts := by
  induction h generalizing ts with
  | nil =>
    rw [List.sublist_nil.1 hsub]
    exact .nil
  | backslash =>
    rcases List.sublist_cons_iff.1 hsub with hskip | ⟨r, rfl, hr⟩
    · rw [List.sublist_nil.1 hskip]
      exact .nil
    · rw [List.sublist_nil.1 hr]
      exact .backslash
  | char hc _ ih =>
    rcases List.sublist_cons_iff.1 hsub with hskip | ⟨r, rfl, hr⟩
    · exact ih hskip
    · exact .char hc (ih hr)
  | escape c _ ih =>
    rcases List.sublist_cons_iff.1 hsub with hskip | ⟨r, rfl, hr⟩
    · exact ih hskip
    · exact .escape c (ih hr)

/-! ## Bare tokens -/

/-- **A token without the backslash of a comma or a brace.** -/
def bareToken : Text → Text
  | ['\\', c] => unescapeStructural c
  | t => t

@[simp] theorem bareToken_singleton (c : Char) : bareToken [c] = [c] := by simp [bareToken]

@[simp] theorem bareToken_escape (c : Char) : bareToken ['\\', c] = unescapeStructural c := rfl

/-- What stands for an escaped character is the bare character or the escape. -/
theorem unescapeStructural_cases (c : Char) :
    (c ∈ [',', '\x7b', '\x7d'] ∧ unescapeStructural c = [c]) ∨
      unescapeStructural c = ['\\', c] := by
  unfold unescapeStructural
  split
  · rename_i h
    exact .inl ⟨by simpa using h, rfl⟩
  · exact .inr rfl

/-- A token is an escape, or stays as it is. -/
theorem bareToken_cases (t : Text) : (∃ c, t = ['\\', c]) ∨ bareToken t = t := by
  fun_cases bareToken t with
  | case1 c => exact .inl ⟨c, rfl⟩
  | case2 => exact .inr rfl

/-- A bare token stands for the same characters. -/
theorem unescape_bareToken (t : Text) : unescape (bareToken t) = unescape t := by
  rcases bareToken_cases t with ⟨c, rfl⟩ | h
  · rw [bareToken_escape]
    rcases unescapeStructural_cases c with ⟨-, hc⟩ | hc
    · rw [hc, unescape_escaped]
      rfl
    · rw [hc]
  · rw [h]

/-- It has the same wildcards and separators: commas and braces are neither. -/
theorem filter_marks_bareToken (t : Text) :
    (marks true (bareToken t)).filter (· ≠ .plain) = (marks true t).filter (· ≠ .plain) := by
  rcases bareToken_cases t with ⟨c, rfl⟩ | h
  · rw [bareToken_escape]
    rcases unescapeStructural_cases c with ⟨hmem, hc⟩ | hc
    · rw [hc]
      have hplain : c = ',' ∨ c = '\x7b' ∨ c = '\x7d' := by simpa using hmem
      rcases hplain with rfl | rfl | rfl <;> rfl
    · rw [hc]
  · rw [h]

/-- **An escape was an escape before.** -/
theorem eq_of_bareToken_eq_escape {t : Text} {c : Char} (h : bareToken t = ['\\', c]) :
    t = ['\\', c] := by
  rcases bareToken_cases t with ⟨d, rfl⟩ | hsame
  · rw [bareToken_escape] at h
    rcases unescapeStructural_cases d with ⟨-, hd⟩ | hd
    · rw [hd] at h
      simp at h
    · exact hd.symm.trans h
  · exact hsame.symm.trans h

/-- **A character that is neither a comma nor a brace was a character before.** -/
theorem eq_of_bareToken_eq_singleton {t : Text} {c : Char} (h : bareToken t = [c])
    (hc : c ∉ [',', '\x7b', '\x7d']) : t = [c] := by
  rcases bareToken_cases t with ⟨d, rfl⟩ | hsame
  · rw [bareToken_escape] at h
    rcases unescapeStructural_cases d with ⟨hmem, hd⟩ | hd
    · rw [hd] at h
      exact absurd ((List.cons.inj h).1 ▸ hmem) hc
    · rw [hd] at h
      simp at h
  · exact hsame.symm.trans h

/-- Bare tokens are found again, too. -/
theorem EscapeRow.map_bareToken {ts : List Text} (h : EscapeRow ts) : EscapeRow (ts.map bareToken) := by
  induction h with
  | nil => exact .nil
  | backslash => exact .backslash
  | char hc _ ih =>
    rw [List.map_cons, bareToken_singleton]
    exact .char hc ih
  | escape c _ ih =>
    rw [List.map_cons, bareToken_escape]
    rcases unescapeStructural_cases c with ⟨hmem, hc⟩ | hc
    · rw [hc]
      refine .char ?_ ih
      rintro rfl
      exact absurd hmem (by decide)
    · rw [hc]
      exact .escape c ih

/-! ## Tokens of a pattern -/

/-- What a token is to the groups: an escape is a literal, and a character what it is unescaped. -/
def BraceToken.ofEscape : Text → BraceToken
  | [c] => .ofChar c
  | t => .literal t

/-- **The tokens of a pattern for its groups**, with all backslashes. -/
def patternTokens (pattern : Text) : List BraceToken := (escapeTokens pattern).map .ofEscape

/-- The token with another text in place of a literal. -/
def BraceToken.mapText (f : Text → Text) : BraceToken → BraceToken
  | .literal t => .literal (f t)
  | token => token

/-- The characters of a token stay. -/
theorem BraceToken.text_ofEscape (t : Text) : (BraceToken.ofEscape t).text = t := by
  fun_cases BraceToken.ofEscape t with
  | case1 c => exact BraceToken.text_ofChar c
  | case2 => rfl

/-- A single character is bare already. -/
theorem BraceToken.mapText_ofChar (c : Char) :
    (BraceToken.ofChar c).mapText bareToken = BraceToken.ofChar c := by
  unfold BraceToken.ofChar
  split
  · rfl
  split
  · rfl
  split
  · rfl
  · exact congrArg BraceToken.literal (bareToken_singleton c)

/-- **Brace expansion reads these tokens**, without the backslashes of commas and braces. -/
theorem braceTokens_eq_map (pattern : Text) :
    braceTokens true pattern = (patternTokens pattern).map (.mapText bareToken) := by
  unfold patternTokens
  fun_induction escapeTokens pattern with
  | case1 => rfl
  | case2 c => exact congrArg (fun x => [x]) (BraceToken.mapText_ofChar c).symm
  | case3 d r ih =>
    have hbare : (if d ∈ [',', '\x7b', '\x7d'] then [d] else ['\\', d]) = bareToken ['\\', d] := by
      simp [unescapeStructural]
    rw [braceTokens, if_pos (show (true && '\\' == '\\') = true from rfl), ih, hbare]
    rfl
  | case4 c d r h ih =>
    rw [braceTokens, if_neg (by simpa using h), ih, ← BraceToken.mapText_ofChar c]
    rfl

/-- A comma that is made a literal keeps its text. -/
theorem map_text_literalCommas (n : Nat) (ts : List BraceToken) :
    (literalCommas n ts).map BraceToken.text = ts.map BraceToken.text := by
  induction ts generalizing n with
  | nil => rw [literalCommas]
  | cons token ts ih =>
    obtain ⟨m, h | ⟨rfl, h⟩⟩ := literalCommas_cons_cases n token ts
    · rw [h, List.map_cons, ih, List.map_cons]
    · rw [h, List.map_cons, ih]
      rfl

/-- The tokens of a pattern are how its sequence is written. -/
theorem map_text_sequenceTokens {pattern : Text} {xs : List BraceItem}
    (h : Reads (patternTokens pattern) xs) :
    (sequenceTokens xs).map BraceToken.text = escapeTokens pattern := by
  have htext : BraceToken.text ∘ BraceToken.ofEscape = id := funext BraceToken.text_ofEscape
  rw [h, map_text_literalCommas, patternTokens, List.map_map, htext, List.map_id]

/-! ## Choices -/

mutual

/-- The literals that are chosen from an item: those of one branch, if it is a group. -/
def BraceItem.choices : BraceItem → List (List Text)
  | .literal t => [[t]]
  | .group first more => sequenceChoices first ++ branchChoices more

/-- **The literals that are chosen from a sequence**, one list for each choice of branches; the choice
from the first item varies slowest. -/
def sequenceChoices : List BraceItem → List (List Text)
  | [] => [[]]
  | x :: xs => x.choices.flatMap fun ts => (sequenceChoices xs).map (ts ++ ·)

/-- The literals that are chosen from one of several branches. -/
def branchChoices : List (List BraceItem) → List (List Text)
  | [] => []
  | b :: bs => sequenceChoices b ++ branchChoices bs

end

mutual

/-- What is chosen from an item stands, in order, in what is written. -/
theorem BraceItem.sublist_of_mem_choices {x : BraceItem} {ts : List Text} (h : ts ∈ x.choices) :
    (ts.map BraceToken.literal).Sublist x.tokens := by
  cases x with
  | literal t =>
    rw [BraceItem.choices, List.mem_singleton] at h
    rw [h, BraceItem.tokens]
    exact List.Sublist.refl _
  | group first more =>
    rw [BraceItem.tokens]
    apply List.Sublist.cons
    rw [BraceItem.choices, List.mem_append] at h
    rcases h with h | h
    · rw [List.append_assoc]
      exact (sublist_of_mem_sequenceChoices h).trans (List.sublist_append_left _ _)
    · exact ((sublist_of_mem_branchChoices h).trans (List.sublist_append_right _ _)).trans
        (List.sublist_append_left _ _)

/-- So does what is chosen from a sequence. -/
theorem sublist_of_mem_sequenceChoices {xs : List BraceItem} {ts : List Text}
    (h : ts ∈ sequenceChoices xs) : (ts.map BraceToken.literal).Sublist (sequenceTokens xs) := by
  cases xs with
  | nil =>
    rw [sequenceChoices, List.mem_singleton] at h
    rw [h]
    exact List.nil_sublist _
  | cons x xs =>
    rw [sequenceChoices, List.mem_flatMap] at h
    obtain ⟨us, hus, hts⟩ := h
    obtain ⟨vs, hvs, rfl⟩ := List.mem_map.1 hts
    rw [sequenceTokens, List.map_append]
    exact (BraceItem.sublist_of_mem_choices hus).append (sublist_of_mem_sequenceChoices hvs)

/-- So does what is chosen from branches. -/
theorem sublist_of_mem_branchChoices {bs : List (List BraceItem)} {ts : List Text}
    (h : ts ∈ branchChoices bs) : (ts.map BraceToken.literal).Sublist (branchTokens bs) := by
  cases bs with
  | nil => cases h
  | cons b bs =>
    rw [branchTokens]
    apply List.Sublist.cons
    rw [branchChoices, List.mem_append] at h
    rcases h with h | h
    · exact (sublist_of_mem_sequenceChoices h).trans (List.sublist_append_left _ _)
    · exact (sublist_of_mem_branchChoices h).trans (List.sublist_append_right _ _)

end

/-- The choices from a sequence in two parts: one from each part. -/
theorem sequenceChoices_append (xs ys : List BraceItem) :
    sequenceChoices (xs ++ ys) =
      (sequenceChoices xs).flatMap fun ts => (sequenceChoices ys).map (ts ++ ·) := by
  induction xs with
  | nil => simp [sequenceChoices]
  | cons x xs ih =>
    rw [List.cons_append, sequenceChoices, sequenceChoices, ih, List.flatMap_assoc]
    simp only [List.map_flatMap, List.flatMap_map, List.map_map, Function.comp_def, List.append_assoc]

@[simp] theorem sequenceChoices_singleton (x : BraceItem) : sequenceChoices [x] = x.choices := by
  simp [sequenceChoices, List.flatMap_singleton']

/-- The choices from branches are those from each branch in order. -/
theorem branchChoices_eq (bs : List (List BraceItem)) :
    branchChoices bs = bs.flatMap sequenceChoices := by
  induction bs with
  | nil => rfl
  | cons b bs ih => rw [branchChoices, ih, List.flatMap_cons]

/-- The choices from a group are those from its branches. -/
theorem BraceItem.choices_ofBranches (done : List (List BraceItem)) (last : List BraceItem) :
    (BraceItem.ofBranches (done ++ [last])).choices =
      done.flatMap sequenceChoices ++ sequenceChoices last := by
  cases done with
  | nil => simp [BraceItem.ofBranches, BraceItem.choices, branchChoices]
  | cons first more =>
    simp [BraceItem.ofBranches, BraceItem.choices, branchChoices_eq, List.flatMap_append]

/-! ## Alternatives -/

/-- The operations in which each text is changed before it is added. -/
def BraceBuilder.onTexts {α : Type} (b : BraceBuilder α) (f : Text → Text) : BraceBuilder α :=
  { b with text := fun x t => b.text x (f t) }

/-- Reading changed literals is reading with changed operations. -/
theorem OpenGroups.run_mapText {α : Type} {b : BraceBuilder α} {f : Text → Text}
    (hcomma : f [','] = [',']) (o : OpenGroups α) (ts : List BraceToken) :
    o.run b (ts.map (.mapText f)) = o.run (b.onTexts f) ts := by
  induction ts generalizing o with
  | nil => rfl
  | cons token ts ih =>
    have hstep : o.step b (token.mapText f) = o.step (b.onTexts f) token := by
      rcases o with ⟨_ | ⟨x, outer⟩, current⟩
      · -- outside of all groups a comma is added as a text
        cases token with
        | comma => simp [BraceToken.mapText, OpenGroups.step, BraceBuilder.onTexts, hcomma]
        | _ => rfl
      · cases token <;> rfl
    rw [List.map_cons, OpenGroups.run_cons, OpenGroups.run_cons, hstep, funext ih]

/-- **The texts that the choices make up** are put together as the sequence is. -/
theorem isHom_sequenceChoices (f : Text → Text) :
    itemBuilder.IsHom (textBuilder.onTexts f)
      fun xs => (sequenceChoices xs).map fun ts => (ts.map f).flatten where
  empty := rfl
  text xs t := by
    simp [itemBuilder, textBuilder, BraceBuilder.onTexts, sequenceChoices_append, BraceItem.choices,
      List.map_eq_flatMap, List.flatMap_assoc]
  group before done last := by
    simp [itemBuilder, textBuilder, BraceBuilder.onTexts, sequenceChoices_append,
      BraceItem.choices_ofBranches, Function.comp_def, List.flatMap_def]

/-- The braces of a pattern are balanced with all backslashes if they are without some. -/
theorem balanced_braceTokens_iff {p : Text} :
    Balanced (braceTokens true p) ↔ Balanced (patternTokens p) := by
  rw [balanced_iff_run textBuilder, balanced_iff_run (textBuilder.onTexts bareToken),
    braceTokens_eq_map, OpenGroups.run_mapText (bareToken_singleton ',')]
  rfl

/-- **The alternatives of a pattern are made of the literals that are chosen.** -/
theorem expandBraces_eq_choices {p : Text} {xs : List BraceItem} (h : Reads (patternTokens p) xs) :
    expandBraces true p = (sequenceChoices xs).map fun ts => (ts.map bareToken).flatten := by
  have hchoices := OpenGroups.run_map (isHom_sequenceChoices bareToken) (.start itemBuilder)
    (patternTokens p)
  rw [reads_iff_run.1 h, ← OpenGroups.run_mapText (bareToken_singleton ','),
    ← braceTokens_eq_map] at hchoices
  -- the tokens without these backslashes are read as a sequence, too, which stands for the same texts
  obtain ⟨ys, hys, -⟩ := ((balanced_iff_run textBuilder).2 ⟨_, hchoices⟩).existsUnique_reads
  have htexts := OpenGroups.run_map isHom_sequenceTexts (.start itemBuilder) (braceTokens true p)
  rw [reads_iff_run.1 hys] at htexts
  -- both end with the same value, since the same tokens are read in the same way
  have hsame := Option.some.inj (htexts.symm.trans hchoices)
  rw [expandBraces, braceExpansion_of_reads hys]
  exact congrArg OpenGroups.current hsame

/-- **A text in which the escapes of tokens are kept.** -/
structure KeepsEscapes (ts : List Text) (t : Text) : Prop where
  /-- Cut anew, the text has these tokens with bare commas and braces. -/
  tokens : escapeTokens t = ts.map bareToken
  /-- However the tokens make up pieces, those of the text are the ones of the pieces in order. -/
  pieces (us : List (List Text)) (hus : us.flatten = ts) :
    escapeTokens t = us.flatMap fun u => (escapeTokens u.flatten).map bareToken
  /-- What is escaped was escaped at the same place. -/
  escape (i : Nat) (c : Char) (h : (escapeTokens t)[i]? = some ['\\', c]) : ts[i]? = some ['\\', c]
  /-- What is not escaped was not, but for commas and braces. -/
  char (i : Nat) (c : Char) (hc : c ∉ [',', '\x7b', '\x7d']) (h : (escapeTokens t)[i]? = some [c]) :
    ts[i]? = some [c]
  /-- The wildcards and separators are those of the tokens in order. -/
  marks : (marks true t).filter (· ≠ .plain) = (ts.flatMap (marks true)).filter (· ≠ .plain)
  /-- Without its escapes the text consists of the pieces without theirs. -/
  unescape (us : List (List Text)) (hus : us.flatten = ts) :
    unescape t = us.flatMap fun u => unescape u.flatten

section

variable {ts : List Text}

/-- The text of the bare tokens is cut into the bare tokens. -/
theorem EscapeRow.escapeTokens_bare (h : EscapeRow ts) :
    escapeTokens (ts.map bareToken).flatten = ts.map bareToken :=
  h.map_bareToken.escapeTokens_flatten

/-- A piece is cut into the tokens of which it is made. -/
theorem EscapeRow.escapeTokens_piece (h : EscapeRow ts) {us : List (List Text)} (hus : us.flatten = ts)
    {u : List Text} (hu : u ∈ us) : escapeTokens u.flatten = u := by
  have hsub : u.Sublist ts := hus ▸ List.sublist_flatten_of_mem hu
  exact (h.sublist hsub).escapeTokens_flatten

/-- Without its escapes the text consists of the tokens without theirs. -/
theorem EscapeRow.unescape_bare (h : EscapeRow ts) :
    unescape (ts.map bareToken).flatten = ts.flatMap unescape := by
  rw [unescape_eq_flatMap, h.escapeTokens_bare, List.flatMap_map]
  exact List.flatMap_congr fun u _ => unescape_bareToken u

/-- **Tokens that are found again keep their escapes** when commas and braces become bare. -/
theorem EscapeRow.keepsEscapes (h : EscapeRow ts) : KeepsEscapes ts (ts.map bareToken).flatten where
  tokens := h.escapeTokens_bare
  pieces us hus := by
    have hpieces : ∀ u ∈ us, (escapeTokens u.flatten).map bareToken = u.map bareToken := by
      intro u hu
      rw [h.escapeTokens_piece hus hu]
    rw [h.escapeTokens_bare, List.flatMap_congr hpieces, ← hus, List.map_flatten, List.flatMap_def]
  escape i c hi := by
    rw [h.escapeTokens_bare, List.getElem?_map] at hi
    obtain ⟨u, hu, hbare⟩ := Option.map_eq_some_iff.1 hi
    rw [hu, eq_of_bareToken_eq_escape hbare]
  char i c hc hi := by
    rw [h.escapeTokens_bare, List.getElem?_map] at hi
    obtain ⟨u, hu, hbare⟩ := Option.map_eq_some_iff.1 hi
    rw [hu, eq_of_bareToken_eq_singleton hbare hc]
  marks := by
    rw [marks_eq_flatMap, h.escapeTokens_bare, List.flatMap_map, List.filter_flatMap,
      List.filter_flatMap]
    exact List.flatMap_congr fun u _ => filter_marks_bareToken u
  unescape us hus := by
    have hpieces : ∀ u ∈ us, PathGlob.unescape u.flatten = u.flatMap PathGlob.unescape := by
      intro u hu
      rw [unescape_eq_flatMap, h.escapeTokens_piece hus hu]
    rw [h.unescape_bare, List.flatMap_congr hpieces, ← hus, ← List.flatMap_id (L := us),
      List.flatMap_assoc]
    rfl

end

/-- **Expansion keeps escapes aligned.** If the braces of a pattern are balanced, it is read in exactly
one way as a sequence of groups and of tokens with all their backslashes. Its alternatives are made of
the tokens that are chosen from this sequence, which stand in the pattern in the same order; in each
alternative their escapes are kept. -/
theorem expandBraces_keeps_escapes {p : Text} (h : Balanced (braceTokens true p)) :
    (∃! xs, Reads (patternTokens p) xs) ∧
      ∀ xs, Reads (patternTokens p) xs →
        expandBraces true p = (sequenceChoices xs).map (fun ts => (ts.map bareToken).flatten) ∧
          ∀ ts ∈ sequenceChoices xs,
            ts.Sublist (escapeTokens p) ∧ KeepsEscapes ts (ts.map bareToken).flatten := by
  refine ⟨(balanced_braceTokens_iff.1 h).existsUnique_reads, fun xs hxs => ?_⟩
  refine ⟨expandBraces_eq_choices hxs, fun ts hts => ?_⟩
  -- what is chosen is written in the pattern, so a backslash by itself can only be chosen last
  have hsub : ts.Sublist (escapeTokens p) := by
    have hwritten := (sublist_of_mem_sequenceChoices hts).map BraceToken.text
    rwa [map_text_sequenceTokens hxs, List.map_map, show BraceToken.text ∘ .literal = id from rfl,
      List.map_id] at hwritten
  exact ⟨hsub, ((escapeRow_escapeTokens p).sublist hsub).keepsEscapes⟩

/-- In `a{\,b,{\*,}c}\` the comma becomes bare and the star stays escaped; the backslash at the end is
behind every choice. -/
theorem expandBraces_keeps_escapes_nested :
    Balanced (braceTokens true "a\x7b\\,b,\x7b\\*,\x7dc\x7d\\".toList) ∧
      expandBraces true "a\x7b\\,b,\x7b\\*,\x7dc\x7d\\".toList =
        ["a,b\\".toList, "a\\*c\\".toList, "ac\\".toList] ∧
      KeepsEscapes [['a'], ['\\', ','], ['b'], ['\\']] "a,b\\".toList ∧
      KeepsEscapes [['a'], ['\\', '*'], ['c'], ['\\']] "a\\*c\\".toList := by
  have hread : Reads (patternTokens "a\x7b\\,b,\x7b\\*,\x7dc\x7d\\".toList)
      [.literal ['a'],
        .group [.literal ['\\', ','], .literal ['b']]
          [[.group [.literal ['\\', '*']] [[]], .literal ['c']]],
        .literal ['\\']] := rfl
  have hbalanced : Balanced (braceTokens true "a\x7b\\,b,\x7b\\*,\x7dc\x7d\\".toList) :=
    balanced_braceTokens_iff.2 ((balanced_iff_run itemBuilder).2 ⟨_, reads_iff_run.1 hread⟩)
  obtain ⟨hexpand, hkeeps⟩ := (expandBraces_keeps_escapes hbalanced).2 _ hread
  exact ⟨hbalanced, hexpand, (hkeeps _ (by decide)).2, (hkeeps _ (by decide)).2⟩

end PathGlob
