import PathGlob.Proofs.Braces.Alternatives
import PathGlob.Proofs.Walk.RelativePaths
import PathGlob.Proofs.Walk.Simulation
import PathGlob.Search

/-! # Patterns without wildcards
The search of a pattern without wildcards and brace groups lists nothing. It asks whether there is
an entry at one path, the pattern without its escapes.

* **`IsLiteral`** — such patterns; **`IsLiteral.searchJobs_eq`** is the single job of their searches.
* **`searchCheck`**, **`ChecksExistence`** — what passes in a search that checks a path, and a search
  that is nothing but such a check.
* **`escapePattern`** — a text written so that it means itself.
* **`search_checks_existence`** — the main statement. -/

namespace PathGlob

variable {ε : Type} {fs : Flags} {escapes : Bool} {pattern path : Text}

/-! ## Literal patterns -/

/-- **A pattern without wildcards and brace groups**: none of its unescaped characters begins one or
ends one. -/
def IsLiteral (escapes : Bool) (pattern : Text) : Prop :=
  ∀ c ∈ unescaped escapes pattern, c ∉ ['*', '?', '[', '\x7b', '\x7d']

instance (escapes : Bool) (pattern : Text) : Decidable (IsLiteral escapes pattern) :=
  List.decidableBAll _ _

/-- A character of such a pattern begins no wildcard. -/
theorem Mark.ofChar_ne_wildcard {c : Char} (h : c ∉ ['*', '?', '[', '\x7b', '\x7d']) :
    Mark.ofChar c ≠ .wildcard := by
  have hwild : isWildcard c = false := by
    simp only [List.mem_cons, not_or] at h
    simp [isWildcard, h.1, h.2.1, h.2.2.1]
  unfold Mark.ofChar
  rw [hwild]
  simp only [Bool.false_eq_true, if_false]
  split <;> simp

/-- **Its alternative has no wildcard.** -/
theorem IsLiteral.wildcard_not_mem (h : IsLiteral escapes pattern) :
    Mark.wildcard ∉ marks escapes (withoutBraceEscapes escapes pattern) := by
  unfold IsLiteral at h
  fun_induction unescaped escapes pattern with
  | case1 => exact List.not_mem_nil
  | case2 c =>
    have hc := Mark.ofChar_ne_wildcard (h c (List.mem_singleton_self c))
    rw [withoutBraceEscapes_singleton, marks]
    split
    · simp
    · simpa using hc.symm
  | case3 c d r hescape ih =>
    obtain ⟨he, rfl⟩ : escapes = true ∧ c = '\\' := by simpa using hescape
    have hr := ih h
    rw [withoutBraceEscapes_escape he]
    split
    · -- a comma or a brace is plain without its backslash, too
      rename_i hd
      have hplain : Mark.ofChar d = .plain := by
        rcases List.mem_cons.1 hd with rfl | hd
        · rfl
        rcases List.mem_cons.1 hd with rfl | hd
        · rfl
        rw [List.mem_singleton.1 hd]
        rfl
      have hb : d ≠ '\\' := by
        rintro rfl
        exact absurd hd (by decide)
      rw [List.singleton_append, marks_cons_of_ne hb, hplain]
      simpa using hr
    · rw [List.cons_append, List.singleton_append, marks_escape he]
      simpa using hr
  | case4 c d r hescape ih =>
    have hc := Mark.ofChar_ne_wildcard (h c List.mem_cons_self)
    have hr := ih fun x hx => h x (List.mem_cons_of_mem c hx)
    rw [withoutBraceEscapes_cons hescape, marks_unescaped hescape, List.mem_cons, not_or]
    exact ⟨hc.symm, hr⟩

/-- The alternative names its starting point if the pattern does. -/
theorem isAnchored_withoutBraceEscapes (escapes : Bool) (pattern : Text) :
    isAnchored (withoutBraceEscapes escapes pattern) = isAnchored pattern := by
  have hcolon : (withoutBraceEscapes escapes pattern).contains ':' = pattern.contains ':' := by
    rw [Bool.eq_iff_iff, List.contains_iff_mem, List.contains_iff_mem]
    exact mem_withoutBraceEscapes_iff (by decide)
  rw [isAnchored, isAnchored, beginsWith_withoutBraceEscapes, hcolon]

/-- The alternative ends in a separator if the pattern does. -/
theorem endsIn_withoutBraceEscapes (fs : Flags) (pattern : Text) :
    endsIn '/' (withoutBraceEscapes fs.escapes pattern) = endsIn '/' pattern := by
  rw [← @endsIn_plainText fs, fs.plainText_withoutBraceEscapes, endsIn_plainText]

/-- The alternative is empty only if the pattern is. -/
theorem withoutBraceEscapes_ne_nil (escapes : Bool) (h : pattern ≠ []) :
    withoutBraceEscapes escapes pattern ≠ [] := by
  fun_cases unescaped escapes pattern with
  | case1 => exact absurd rfl h
  | case2 c =>
    rw [withoutBraceEscapes_singleton]
    exact h
  | case3 c d r hescape =>
    obtain ⟨he, rfl⟩ : escapes = true ∧ c = '\\' := by simpa using hescape
    rw [withoutBraceEscapes_escape he]
    split <;> simp
  | case4 c d r hescape => simp [withoutBraceEscapes_cons hescape]

/-- **The search of such a pattern has a single job**: the test of the alternative if the pattern names
its starting point, and otherwise the visit of the current directory. -/
theorem IsLiteral.searchJobs_eq (h : IsLiteral fs.escapes pattern) (hne : pattern ≠ []) :
    (searchJobs fs pattern : List (Job ε)) =
      if isAnchored pattern then
        [.candidate ⟨fs, endsIn '/' pattern, false⟩ (withoutBraceEscapes fs.escapes pattern)]
      else
        [.visit ⟨fs, endsIn '/' pattern, true⟩ currentDirectory
          (withoutBraceEscapes fs.escapes pattern) false] := by
  have hwild := h.wildcard_not_mem
  have hopen : '\x7b' ∉ unescaped fs.escapes pattern := fun hm => h _ hm (by decide)
  have hclose : '\x7d' ∉ unescaped fs.escapes pattern := fun hm => h _ hm (by decide)
  have hempty : pattern.isEmpty = false := by simpa using hne
  unfold searchJobs
  rw [expandBraces_of_not_mem hopen hclose, hempty, ← isAnchored_withoutBraceEscapes fs.escapes,
    ← endsIn_withoutBraceEscapes fs]
  have hne' := withoutBraceEscapes_ne_nil fs.escapes hne
  generalize withoutBraceEscapes fs.escapes pattern = t at hwild hne'
  have hwalked : walkedPattern t = t := by
    refine if_neg ?_
    rintro rfl
    exact hwild (Flags.isWild_iff.1 fs.isWild_doubleStar)
  have hempty' : t.isEmpty = false := by simpa using hne'
  have hlead : leadEnd? (marks fs.escapes t) = some t.length := by
    rw [leadEnd?, if_neg hwild, length_marks]
  simp [startJobs, hwalked, hempty', hlead]

/-! ## Checks of a path -/

/-- What passes in a search that checks a path: a pattern that does not name its starting point asks
for the current directory before. -/
def searchCheck (pattern path : Text) (o p q : Provider ε) : List (Event ε) :=
  if isAnchored pattern then existenceCheck (endsIn '/' pattern) path o p
  else
    .asked (.findDirectory currentDirectory) (o.findDirectory currentDirectory) ::
      if (o.findDirectory currentDirectory).isSome then
        existenceCheck (endsIn '/' pattern) path p q
      else []

/-- **A search that is nothing but the check of a path.** -/
structure ChecksExistence (fs : Flags) (pattern path : Text) : Prop where
  /-- It ends, and this is what passes, whatever provider is there at each of its steps. -/
  exchanged {ε : Type} (o p q r : Provider ε) (ps : List (Provider ε)) :
    (runUnder (o :: p :: q :: r :: ps) (searchJobs fs pattern)).2 = [] ∧
      exchanges (runUnder (o :: p :: q :: r :: ps) (searchJobs fs pattern)).1 =
        searchCheck pattern path o p q
  /-- However far it runs, nothing is listed, and no other paths are asked for. -/
  asked {ε : Type} (ps : List (Provider ε)) {query : Query} {answer : query.Answer ε} :
    .asked query answer ∈ (runUnder ps (searchJobs fs pattern)).1 →
      query ∈ [.findDirectory currentDirectory, .findDirectory path, .findFile path]
  /-- The outcome under a provider that stays the same. -/
  outcome {ε : Type} (p : Provider ε) :
    Yields p (searchJobs fs pattern)
      (if isAnchored pattern ∨ (p.findDirectory currentDirectory).isSome then
        (p.entryAt? (endsIn '/' pattern) path).toList
      else [])

/-! ### What passes -/

/-- What a search that checks a path hands out. -/
theorem filterMap_found?_searchCheck (pattern path : Text) (o p q : Provider ε) :
    (searchCheck pattern path o p q).filterMap Event.found? =
      if isAnchored pattern then
        ((o.findDirectory path).or (if endsIn '/' pattern then none else p.findFile path)).toList
      else if (o.findDirectory currentDirectory).isSome then
        ((p.findDirectory path).or (if endsIn '/' pattern then none else q.findFile path)).toList
      else [] := by
  unfold searchCheck
  split
  · exact filterMap_found?_existenceCheck _ path o p
  · split
    · exact filterMap_found?_existenceCheck _ path p q
    · rfl

/-- What the check of a path asks for. -/
theorem eq_of_asked_mem_existenceCheck {directoriesOnly : Bool} {p q : Provider ε} {query : Query}
    {answer : query.Answer ε} (h : .asked query answer ∈ existenceCheck directoriesOnly path p q) :
    query = .findDirectory path ∨ query = .findFile path := by
  unfold existenceCheck at h
  split at h
  · simp only [List.mem_cons, List.not_mem_nil, or_false, reduceCtorEq] at h
    cases h
    exact .inl rfl
  · rcases List.mem_cons.1 h with h | h
    · cases h
      exact .inl rfl
    · split at h
      · cases h
      · rcases List.mem_cons.1 h with h | h
        · cases h
          exact .inr rfl
        · obtain ⟨e, -, h⟩ := List.mem_map.1 h
          cases h

/-- What a search that checks a path asks for. -/
theorem mem_of_asked_mem_searchCheck {o p q : Provider ε} {query : Query} {answer : query.Answer ε}
    (h : .asked query answer ∈ searchCheck pattern path o p q) :
    query ∈ [.findDirectory currentDirectory, .findDirectory path, .findFile path] := by
  have hcheck : query = .findDirectory path ∨ query = .findFile path →
      query ∈ [.findDirectory currentDirectory, .findDirectory path, .findFile path] := by
    rintro (rfl | rfl) <;> simp
  unfold searchCheck at h
  split at h
  · exact hcheck (eq_of_asked_mem_existenceCheck h)
  · rcases List.mem_cons.1 h with h | h
    · cases h
      exact List.mem_cons_self
    · split at h
      · exact hcheck (eq_of_asked_mem_existenceCheck h)
      · cases h

/-! ### Runs -/

/-- **The test of a path is such a check.** -/
theorem runUnder_candidate (s : Scope) (path : Text) (p q r : Provider ε)
    (ps : List (Provider ε)) :
    (runUnder (p :: q :: r :: ps) [.candidate s path]).2 = [] ∧
      exchanges (runUnder (p :: q :: r :: ps) [.candidate s path]).1 =
        existenceCheck s.directoriesOnly (s.candidatePath path) p q := by
  have hdeliver : ∀ (r : Provider ε) ps e, runUnder (r :: ps) [.deliver e] = ([.found e], []) :=
    fun r ps e => congrArg (fun run => (_ :: run.1, run.2)) (runUnder_nil ps)
  rw [runUnder_cons, Job.events_candidate, existenceCheck, List.append_nil]
  cases hd : p.findDirectory (s.candidatePath path) with
  | some e =>
    rw [Job.next_candidate_of_some hd, hdeliver]
    exact ⟨rfl, rfl⟩
  | none =>
    rw [Job.next_candidate_of_none hd]
    cases s.directoriesOnly with
    | true => exact ⟨rfl, rfl⟩
    | false =>
      simp only [Bool.false_eq_true, if_false]
      rw [runUnder_cons, Job.next_tryFile, Job.events_tryFile, List.append_nil]
      cases q.findFile (s.candidatePath path) with
      | none => exact ⟨rfl, rfl⟩
      | some e =>
        rw [Option.toList_some, List.map_singleton, hdeliver]
        exact ⟨rfl, rfl⟩

/-! ## Searches of literal patterns -/

/-- Behind the current directory, the path of a walk without wildcards is the pattern. -/
theorem candidatePath_currentDirectory (s : Scope) (hs : s.relative = true) (t : Text) :
    s.candidatePath (joinPath currentDirectory t) = s.flags.plainText t := by
  have hquery : s.queryPath (joinPath currentDirectory t) = '.' :: '/' :: s.flags.plainText t := by
    rw [Scope.queryPath_eq]
    show s.flags.plainText ('.' :: '/' :: t) = _
    rw [Flags.plainText_cons (by decide), Flags.plainText_cons (by decide)]
  rw [Scope.candidatePath, hquery]
  simp [hs]

/-- **Such a search is the check of a path**, whatever provider is there at each of its steps. -/
theorem IsLiteral.exchanged (h : IsLiteral fs.escapes pattern) (hne : pattern ≠ [])
    (o p q r : Provider ε) (ps : List (Provider ε)) :
    (runUnder (o :: p :: q :: r :: ps) (searchJobs fs pattern)).2 = [] ∧
      exchanges (runUnder (o :: p :: q :: r :: ps) (searchJobs fs pattern)).1 =
        searchCheck pattern (fs.plainText pattern) o p q := by
  rw [h.searchJobs_eq hne, searchCheck, ← fs.plainText_withoutBraceEscapes]
  have hwild := Flags.isWild_eq_false_iff.2 h.wildcard_not_mem
  generalize withoutBraceEscapes fs.escapes pattern = t at hwild
  by_cases ha : isAnchored pattern = true
  · rw [if_pos ha, if_pos ha]
    -- an anchored walk keeps the path as it is
    have hpath : Scope.candidatePath ⟨fs, endsIn '/' pattern, false⟩ t = fs.plainText t := by
      unfold Scope.candidatePath
      rw [Scope.queryPath_eq]
      split
      · rename_i heq
        exact heq.symm
      · rfl
    rw [← hpath]
    exact runUnder_candidate _ t o p q (r :: ps)
  · rw [if_neg ha, if_neg ha, runUnder_cons, Job.next_visit]
    have hdot : Scope.queryPath ⟨fs, endsIn '/' pattern, true⟩ currentDirectory = currentDirectory :=
      Flags.plainText_of_not_mem (by decide)
    rw [Job.events_visit, hdot]
    by_cases hd : (o.findDirectory currentDirectory).isSome = true
    · rw [if_pos hd, if_pos hd, visitJobs_literal (by rw [Part.next_of_not_isWild hwild]),
        Part.next_of_not_isWild hwild]
      obtain ⟨hover, hpasses⟩ := runUnder_candidate ⟨fs, endsIn '/' pattern, true⟩
        (joinPath currentDirectory t) p q r ps
      rw [candidatePath_currentDirectory _ rfl] at hpasses
      refine ⟨hover, ?_⟩
      rw [exchanges_append]
      exact congrArg (_ :: ·) hpasses
    · rw [if_neg hd, if_neg hd]
      exact ⟨rfl, rfl⟩

/-- **The search of a literal pattern is nothing but the check of a path.** -/
theorem IsLiteral.checksExistence (h : IsLiteral fs.escapes pattern) (hne : pattern ≠ []) :
    ChecksExistence fs pattern (fs.plainText pattern) where
  exchanged := h.exchanged hne
  asked {ε} ps query answer hasked := by
    cases ps with
    | nil => cases hasked
    | cons o ps =>
      -- the run is the beginning of one that is long enough
      obtain ⟨p, q, r, qs, hps⟩ : ∃ p q r qs, ps ++ [o, o, o] = p :: q :: r :: qs := by
        match ps with
        | [] => exact ⟨o, o, o, [], rfl⟩
        | [p] => exact ⟨p, o, o, [o], rfl⟩
        | [p, q] => exact ⟨p, q, o, [o, o], rfl⟩
        | p :: q :: r :: ps => exact ⟨p, q, r, ps ++ [o, o, o], rfl⟩
      have hmem := runUnder_subset_append (o :: ps) [o, o, o] (searchJobs fs pattern) hasked
      rw [List.cons_append, hps] at hmem
      have hpasses : .asked query answer ∈ exchanges _ := List.mem_filter.2 ⟨hmem, rfl⟩
      rw [(h.exchanged hne o p q r qs).2] at hpasses
      exact mem_of_asked_mem_searchCheck hpasses
  outcome {ε} p := by
    obtain ⟨hover, hpasses⟩ := h.exchanged hne p p p p []
    have hrun : runUnder [p, p, p, p] (searchJobs fs pattern) = runWithin p 4 (searchJobs fs pattern) :=
      runUnder_replicate p 4 _
    rw [hrun] at hover hpasses
    refine ⟨4, hover, ?_⟩
    rw [← filterMap_found?_exchanges, hpasses, filterMap_found?_searchCheck, Provider.entryAt?]
    cases isAnchored pattern <;> cases endsIn '/' pattern <;>
      cases (p.findDirectory currentDirectory).isSome <;> rfl

/-! ## Escaped patterns -/

/-- Whether a character has a meaning in the pattern of a search. -/
def hasMeaning (c : Char) : Bool := c ∈ ['\\', '*', '?', '[', '\x7b', '\x7d', ',']

/-- **A text written so that it means itself**: with a backslash in front of every character that has
a meaning. -/
def escapePattern (text : Text) : Text :=
  text.flatMap fun c => if hasMeaning c then ['\\', c] else [c]

/-- A written text is read back. -/
theorem plainText_escapePattern (he : fs.escapes = true) (text : Text) :
    fs.plainText (escapePattern text) = text := by
  unfold escapePattern
  induction text with
  | nil => exact fs.plainText_nil
  | cons c text ih =>
    rw [List.flatMap_cons]
    split
    · rw [List.cons_append, List.singleton_append, Flags.plainText_escape he, ih]
    · rename_i hc
      have hb : c ≠ '\\' := by
        rintro rfl
        exact hc rfl
      rw [List.singleton_append, Flags.plainText_cons hb, ih]

/-- It is a literal pattern. -/
theorem isLiteral_escapePattern (text : Text) : IsLiteral true (escapePattern text) := by
  unfold IsLiteral escapePattern
  induction text with
  | nil => simp [unescaped]
  | cons c text ih =>
    rw [List.flatMap_cons]
    split
    · exact ih
    · rename_i hc
      have hb : ¬(true && c == '\\') = true := by
        rintro hb
        obtain rfl : c = '\\' := by simpa using hb
        exact hc rfl
      rw [List.singleton_append, unescaped_cons hb]
      intro x hx
      rcases List.mem_cons.1 hx with rfl | hx
      · simp only [hasMeaning, decide_eq_true_eq, List.mem_cons, not_or] at hc
        simp [hc]
      · exact ih x hx

/-- Only the empty text is written as the empty pattern. -/
theorem escapePattern_ne_nil {text : Text} (h : text ≠ []) : escapePattern text ≠ [] := by
  cases text with
  | nil => exact absurd rfl h
  | cons c text =>
    rw [escapePattern, List.flatMap_cons]
    split <;> simp

/-! ## The main statement -/

/-- **A pattern without wildcards is an existence check.** Unless it is empty, its search does nothing
but check the path that the pattern is without its escapes. Every text but the empty one can be written
as a pattern whose search checks exactly the text, if there are escapes. -/
theorem search_checks_existence :
    (∀ (fs : Flags) (pattern : Text), pattern ≠ [] → IsLiteral fs.escapes pattern →
      ChecksExistence fs pattern (if fs.escapes then unescape pattern else pattern)) ∧
    ∀ (fs : Flags) (text : Text), fs.escapes = true → text ≠ [] →
      ChecksExistence fs (escapePattern text) text := by
  constructor
  · intro fs pattern hne h
    exact h.checksExistence hne
  · intro fs text he hne
    have hliteral : IsLiteral fs.escapes (escapePattern text) := he ▸ isLiteral_escapePattern text
    have hchecks := hliteral.checksExistence (escapePattern_ne_nil hne)
    rwa [plainText_escapePattern he] at hchecks

/-- Both `a\\\,\*\` and the text `a\,*\` with a backslash in front of each of its special characters
check the path `a\,*\`: the backslash at the very end of the first pattern escapes nothing. -/
theorem checksExistence_of_backslashes :
    ("a\\\\\\,\\*\\".toList ≠ [] ∧ IsLiteral Flags.empty.escapes "a\\\\\\,\\*\\".toList ∧
      ChecksExistence Flags.empty "a\\\\\\,\\*\\".toList "a\\,*\\".toList) ∧
    Flags.empty.escapes = true ∧ "a\\,*\\".toList ≠ [] ∧
      escapePattern "a\\,*\\".toList = "a\\\\\\,\\*\\\\".toList ∧
      ChecksExistence Flags.empty "a\\\\\\,\\*\\\\".toList "a\\,*\\".toList :=
  ⟨⟨by decide, by decide, search_checks_existence.1 Flags.empty _ (by decide) (by decide)⟩,
    rfl, by decide, rfl, search_checks_existence.2 Flags.empty "a\\,*\\".toList rfl (by decide)⟩

end PathGlob
