import PathGlob.Proofs.Braces.Expansion
import PathGlob.Proofs.Escapes

/-! # The alternatives of a pattern
What the texts that a pattern stands for have in common with the pattern.

* **`expandBraces_congr`** — only the tokens of a pattern count.
* **`mem_of_mem_expandBraces`** — an alternative has no characters but those of the pattern.
* **`unescaped`** — the characters of a text that are not escaped.
* **`expandBraces_of_not_mem`** — without unescaped braces there is a single alternative, the pattern
  without the backslashes in front of commas and braces; the lemmas behind it say what it shares with
  the pattern. -/

namespace PathGlob

variable {escapes : Bool} {pattern t : Text} {c : Char}

/-- **Only the tokens of a pattern count** for what it stands for. -/
theorem expandBraces_congr {e e' : Bool} {p q : Text} (h : braceTokens e p = braceTokens e' q) :
    expandBraces e p = expandBraces e' q := by
  rw [expandBraces, expandBraces, braceExpansion_eq, braceExpansion_eq, h]

/-- A text that a pattern stands for comes from the sequence that the pattern is read as. -/
theorem exists_reads_of_mem_expandBraces (h : t ∈ expandBraces escapes pattern) :
    ∃ xs, Reads (braceTokens escapes pattern) xs ∧ t ∈ sequenceTexts xs := by
  by_cases hbalanced : Balanced (braceTokens escapes pattern)
  · obtain ⟨xs, hxs, -⟩ := hbalanced.existsUnique_reads
    rw [expandBraces, braceExpansion_of_reads hxs] at h
    exact ⟨xs, hxs, h⟩
  · rw [expandBraces, braceExpansion_of_not_balanced hbalanced] at h
    cases h

/-! ## Characters -/

mutual

/-- The characters of a text of an item are those of literals with which the item is written. -/
theorem BraceItem.exists_literal_of_mem_texts {x : BraceItem} {t : Text} {c : Char}
    (h : t ∈ x.texts) (hc : c ∈ t) : ∃ u, .literal u ∈ x.tokens ∧ c ∈ u := by
  cases x with
  | literal u =>
    rw [BraceItem.texts, List.mem_singleton] at h
    exact ⟨u, by rw [BraceItem.tokens]; exact List.mem_singleton_self _, h ▸ hc⟩
  | group first more =>
    rw [BraceItem.texts, List.mem_append] at h
    rcases h with h | h
    · obtain ⟨u, hu, hcu⟩ := exists_literal_of_mem_sequenceTexts h hc
      exact ⟨u, by simp [BraceItem.tokens, hu], hcu⟩
    · obtain ⟨u, hu, hcu⟩ := exists_literal_of_mem_branchTexts h hc
      exact ⟨u, by simp [BraceItem.tokens, hu], hcu⟩

/-- So are those of a text of a sequence. -/
theorem exists_literal_of_mem_sequenceTexts {xs : List BraceItem} {t : Text} {c : Char}
    (h : t ∈ sequenceTexts xs) (hc : c ∈ t) : ∃ u, .literal u ∈ sequenceTokens xs ∧ c ∈ u := by
  cases xs with
  | nil =>
    rw [sequenceTexts, List.mem_singleton] at h
    rw [h] at hc
    cases hc
  | cons x xs =>
    rw [sequenceTexts, List.mem_flatMap] at h
    obtain ⟨v, hv, ht⟩ := h
    obtain ⟨w, hw, rfl⟩ := List.mem_map.1 ht
    rw [sequenceTokens]
    rcases List.mem_append.1 hc with hc | hc
    · obtain ⟨u, hu, hcu⟩ := BraceItem.exists_literal_of_mem_texts hv hc
      exact ⟨u, List.mem_append_left _ hu, hcu⟩
    · obtain ⟨u, hu, hcu⟩ := exists_literal_of_mem_sequenceTexts hw hc
      exact ⟨u, List.mem_append_right _ hu, hcu⟩

/-- So are those of a text of branches. -/
theorem exists_literal_of_mem_branchTexts {bs : List (List BraceItem)} {t : Text} {c : Char}
    (h : t ∈ branchTexts bs) (hc : c ∈ t) : ∃ u, .literal u ∈ branchTokens bs ∧ c ∈ u := by
  cases bs with
  | nil => cases h
  | cons b bs =>
    rw [branchTexts, List.mem_append] at h
    rw [branchTokens]
    rcases h with h | h
    · obtain ⟨u, hu, hcu⟩ := exists_literal_of_mem_sequenceTexts h hc
      exact ⟨u, by simp [hu], hcu⟩
    · obtain ⟨u, hu, hcu⟩ := exists_literal_of_mem_branchTexts h hc
      exact ⟨u, by simp [hu], hcu⟩

end

/-- The first token stays, unless it is a comma outside of all groups. -/
theorem literalCommas_cons_cases (n : Nat) (token : BraceToken) (ts : List BraceToken) :
    ∃ m, literalCommas n (token :: ts) = token :: literalCommas m ts ∨
      token = .comma ∧ literalCommas n (token :: ts) = .literal [','] :: literalCommas m ts := by
  cases token with
  | literal u => exact ⟨n, .inl (by rw [literalCommas])⟩
  | opening => exact ⟨n + 1, .inl (by rw [literalCommas])⟩
  | closing => exact ⟨n - 1, .inl (by rw [literalCommas])⟩
  | comma =>
    cases n with
    | zero => exact ⟨0, .inr ⟨rfl, by rw [literalCommas]⟩⟩
    | succ n => exact ⟨n + 1, .inl (by rw [literalCommas])⟩

/-- The tokens whose outer commas are literals are those from before, and literal commas. -/
theorem mem_literalCommas {token : BraceToken} {n : Nat} {ts : List BraceToken}
    (h : token ∈ literalCommas n ts) :
    token ∈ ts ∨ token = .literal [','] ∧ .comma ∈ ts := by
  induction ts generalizing n with
  | nil => simp [literalCommas] at h
  | cons first ts ih =>
    have hlater : ∀ {m}, token ∈ literalCommas m ts →
        token ∈ first :: ts ∨ token = .literal [','] ∧ .comma ∈ first :: ts := fun hm =>
      (ih hm).imp (List.mem_cons_of_mem _) fun hc => ⟨hc.1, List.mem_cons_of_mem _ hc.2⟩
    obtain ⟨m, heq | ⟨rfl, heq⟩⟩ := literalCommas_cons_cases n first ts
    · rw [heq] at h
      rcases List.mem_cons.1 h with rfl | h
      · exact .inl List.mem_cons_self
      · exact hlater h
    · rw [heq] at h
      rcases List.mem_cons.1 h with rfl | h
      · exact .inr ⟨rfl, List.mem_cons_self⟩
      · exact hlater h

/-- How a token is written, once the backslashes in front of commas and braces are dropped. -/
def BraceToken.text : BraceToken → Text
  | .literal t => t
  | .opening => ['\x7b']
  | .closing => ['\x7d']
  | .comma => [',']

/-- An unescaped character is written as it is. -/
@[simp] theorem BraceToken.text_ofChar (c : Char) : (BraceToken.ofChar c).text = [c] := by
  unfold BraceToken.ofChar
  split
  · rename_i h
    rw [h]
    rfl
  · split
    · rename_i h
      rw [h]
      rfl
    · split
      · rename_i h
        rw [h]
        rfl
      · rfl

/-- The characters of tokens are characters of the pattern. -/
theorem mem_of_mem_braceTokens {token : BraceToken} (h : token ∈ braceTokens escapes pattern)
    (hc : c ∈ token.text) : c ∈ pattern := by
  fun_induction braceTokens escapes pattern with
  | case1 => cases h
  | case2 d =>
    rw [List.mem_singleton.1 h, BraceToken.text_ofChar] at hc
    exact hc
  | case3 d x r hescape ih =>
    obtain rfl : d = '\\' := by simpa using (Bool.and_eq_true_iff.1 hescape).2
    rcases List.mem_cons.1 h with rfl | h
    · rw [BraceToken.text] at hc
      split at hc
      · obtain rfl := List.mem_singleton.1 hc
        simp
      · exact List.mem_append_left r hc
    · simp [ih h]
  | case4 d x r _ ih =>
    rcases List.mem_cons.1 h with rfl | h
    · rw [BraceToken.text_ofChar, List.mem_singleton] at hc
      simp [hc]
    · exact List.mem_cons_of_mem d (ih h)

/-- **An alternative has no characters but those of the pattern.** -/
theorem mem_of_mem_expandBraces (h : t ∈ expandBraces escapes pattern) (hc : c ∈ t) :
    c ∈ pattern := by
  obtain ⟨xs, hxs, ht⟩ := exists_reads_of_mem_expandBraces h
  obtain ⟨u, hu, hcu⟩ := exists_literal_of_mem_sequenceTexts ht hc
  rw [hxs] at hu
  rcases mem_literalCommas hu with hu | ⟨hu, hcomma⟩
  · exact mem_of_mem_braceTokens hu hcu
  · rw [BraceToken.literal.inj hu] at hcu
    exact mem_of_mem_braceTokens hcomma hcu

/-! ## Patterns without a backslash -/

/-- Without a backslash nothing is escaped. -/
theorem braceTokens_of_not_mem (h : '\\' ∉ pattern) :
    braceTokens escapes pattern = pattern.map .ofChar := by
  fun_induction braceTokens escapes pattern with
  | case1 => rfl
  | case2 d => rfl
  | case3 d x r hescape ih =>
    obtain rfl : d = '\\' := by simpa using (Bool.and_eq_true_iff.1 hescape).2
    exact absurd List.mem_cons_self h
  | case4 d x r _ ih =>
    rw [ih fun hmem => h (List.mem_cons_of_mem d hmem)]
    rfl

/-! ## Patterns without unescaped braces -/

/-- **The characters of a text that are not escaped.** A backslash at the very end escapes nothing. -/
def unescaped (escapes : Bool) : Text → Text
  | [] => []
  | [c] => [c]
  | c :: d :: r => if escapes && c == '\\' then unescaped escapes r else c :: unescaped escapes (d :: r)

/-- A character that begins no escape is one of them. -/
theorem unescaped_cons (h : ¬(escapes && c == '\\') = true) (r : Text) :
    unescaped escapes (c :: r) = c :: unescaped escapes r := by
  cases r with
  | nil => rfl
  | cons d r => rw [unescaped, if_neg h]

/-- Without backslashes all characters are unescaped. -/
theorem unescaped_of_not_mem (hback : '\\' ∉ pattern) :
    unescaped escapes pattern = pattern := by
  induction pattern with
  | nil => rfl
  | cons c r ih =>
    rw [List.mem_cons, not_or] at hback
    rw [unescaped_cons (by simp [Ne.symm hback.1]), ih hback.2]

/-- A brace that opens or closes a group is an unescaped character. -/
theorem mem_unescaped_of_mem_braceTokens :
    (.opening ∈ braceTokens escapes pattern → '\x7b' ∈ unescaped escapes pattern) ∧
      (.closing ∈ braceTokens escapes pattern → '\x7d' ∈ unescaped escapes pattern) := by
  have hchar : ∀ d, (.opening = BraceToken.ofChar d → '\x7b' = d) ∧
      (.closing = BraceToken.ofChar d → '\x7d' = d) := by
    intro d
    constructor
    · intro h
      exact (List.cons.inj ((congrArg BraceToken.text h).trans (BraceToken.text_ofChar d))).1
    · intro h
      exact (List.cons.inj ((congrArg BraceToken.text h).trans (BraceToken.text_ofChar d))).1
  fun_induction braceTokens escapes pattern with
  | case1 => exact ⟨fun h => absurd h List.not_mem_nil, fun h => absurd h List.not_mem_nil⟩
  | case2 d =>
    simp only [List.mem_singleton, unescaped]
    exact hchar d
  | case3 d x r hescape ih =>
    simpa [unescaped, hescape] using ih
  | case4 d x r hescape ih =>
    rw [unescaped_cons hescape]
    simp only [List.mem_cons]
    exact ⟨Or.imp (hchar d).1 ih.1, Or.imp (hchar d).2 ih.2⟩

/-- Tokens without braces are read as literals, and stand for what is written. -/
theorem reads_literals {ts : List BraceToken} (hopen : .opening ∉ ts) (hclose : .closing ∉ ts) :
    Reads ts (ts.map fun token => .literal token.text) := by
  unfold Reads
  induction ts with
  | nil => rfl
  | cons token ts ih =>
    rw [List.mem_cons, not_or] at hopen hclose
    rw [List.map_cons, sequenceTokens, ih hopen.2 hclose.2]
    cases token with
    | literal u => rfl
    | opening => exact absurd rfl hopen.1
    | closing => exact absurd rfl hclose.1
    | comma => rfl

/-- Literals stand for a single text. -/
theorem sequenceTexts_literals (us : List Text) :
    sequenceTexts (us.map .literal) = [us.flatten] := by
  induction us with
  | nil => rfl
  | cons u us ih => simp [sequenceTexts, BraceItem.texts, ih]

/-- **A pattern in which only the backslashes of escaped commas and braces are dropped.** -/
def withoutBraceEscapes (escapes : Bool) (pattern : Text) : Text :=
  (braceTokens escapes pattern).flatMap BraceToken.text

/-- **Without unescaped braces there is a single alternative.** -/
theorem expandBraces_of_not_mem (hopen : '\x7b' ∉ unescaped escapes pattern)
    (hclose : '\x7d' ∉ unescaped escapes pattern) :
    expandBraces escapes pattern = [withoutBraceEscapes escapes pattern] := by
  have hreads := reads_literals (fun h => hopen (mem_unescaped_of_mem_braceTokens.1 h))
    fun h => hclose (mem_unescaped_of_mem_braceTokens.2 h)
  rw [expandBraces, braceExpansion_of_reads hreads, withoutBraceEscapes, List.flatMap_def,
    ← sequenceTexts_literals, List.map_map]
  rfl

/-! ### What the alternative shares with the pattern -/

@[simp] theorem withoutBraceEscapes_singleton (escapes : Bool) (c : Char) :
    withoutBraceEscapes escapes [c] = [c] := by
  simp [withoutBraceEscapes, braceTokens]

/-- An unescaped character stays. -/
theorem withoutBraceEscapes_cons (h : ¬(escapes && c == '\\') = true) (r : Text) :
    withoutBraceEscapes escapes (c :: r) = c :: withoutBraceEscapes escapes r := by
  cases r with
  | nil => simp [withoutBraceEscapes, braceTokens]
  | cons d r =>
    rw [withoutBraceEscapes, braceTokens, if_neg h, List.flatMap_cons, BraceToken.text_ofChar]
    rfl

/-- Without backslashes nothing is dropped from an alternative. -/
theorem withoutBraceEscapes_of_not_mem (hback : '\\' ∉ pattern) :
    withoutBraceEscapes escapes pattern = pattern := by
  induction pattern with
  | nil => rfl
  | cons c r ih =>
    rw [List.mem_cons, not_or] at hback
    rw [withoutBraceEscapes_cons (by simp [Ne.symm hback.1]), ih hback.2]

/-- An escaped character stays, and its backslash does unless it is a comma or a brace. -/
theorem withoutBraceEscapes_escape (h : escapes = true) (d : Char) (r : Text) :
    withoutBraceEscapes escapes ('\\' :: d :: r) =
      (if d ∈ [',', '\x7b', '\x7d'] then [d] else ['\\', d]) ++ withoutBraceEscapes escapes r := by
  simp [withoutBraceEscapes, braceTokens, h, BraceToken.text]

/-- It begins with a separator if the pattern does. -/
theorem beginsWith_withoutBraceEscapes (escapes : Bool) (pattern : Text) :
    beginsWith ['/'] (withoutBraceEscapes escapes pattern) = beginsWith ['/'] pattern := by
  fun_cases unescaped escapes pattern with
  | case1 => rfl
  | case2 c => rw [withoutBraceEscapes_singleton]
  | case3 c d r hescape =>
    obtain ⟨he, rfl⟩ : escapes = true ∧ c = '\\' := by simpa using hescape
    rw [withoutBraceEscapes_escape he]
    split
    · rename_i hd
      have hslash : '/' ≠ d := by
        rintro rfl
        exact absurd hd (by decide)
      show ('/' == d && true) = false
      simp [hslash]
    · rfl
  | case4 c d r hescape =>
    rw [withoutBraceEscapes_cons hescape]
    rfl

/-- It has the same characters, but for backslashes. -/
theorem mem_withoutBraceEscapes_iff (hc : c ≠ '\\') :
    c ∈ withoutBraceEscapes escapes pattern ↔ c ∈ pattern := by
  fun_induction unescaped escapes pattern with
  | case1 => rfl
  | case2 d => rw [withoutBraceEscapes_singleton]
  | case3 x d r hescape ih =>
    obtain ⟨he, rfl⟩ : escapes = true ∧ x = '\\' := by simpa using hescape
    rw [withoutBraceEscapes_escape he, List.mem_append, ih]
    split <;> simp [hc]
  | case4 x d r hescape ih =>
    rw [withoutBraceEscapes_cons hescape, List.mem_cons, ih, ← List.mem_cons]

/-- **It stands for the same path.** -/
theorem Flags.plainText_withoutBraceEscapes (fs : Flags) (pattern : Text) :
    fs.plainText (withoutBraceEscapes fs.escapes pattern) = fs.plainText pattern := by
  fun_induction unescaped fs.escapes pattern with
  | case1 => rfl
  | case2 d => rw [withoutBraceEscapes_singleton]
  | case3 x d r hescape ih =>
    obtain ⟨he, rfl⟩ : fs.escapes = true ∧ x = '\\' := by simpa using hescape
    rw [withoutBraceEscapes_escape he, Flags.plainText_escape he, ← ih]
    split
    · rename_i hd
      have hb : d ≠ '\\' := by
        rintro rfl
        exact absurd hd (by decide)
      exact Flags.plainText_cons hb _
    · exact Flags.plainText_escape he d _
  | case4 x d r hescape ih =>
    rw [withoutBraceEscapes_cons hescape, Flags.plainText_unescaped hescape,
      Flags.plainText_unescaped hescape, ih]

end PathGlob
