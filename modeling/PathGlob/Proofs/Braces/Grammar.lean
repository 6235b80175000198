import Mathlib.Logic.ExistsUnique
import PathGlob.Braces

/-! # The grammar of brace groups
A pattern is a row of tokens: braces, commas and literal texts. If its braces are balanced, it is read
in one way only as a sequence of literals and groups.

* **`braceTokens`** — the tokens of a pattern; **`Balanced`** — every brace has its partner.
* **`BraceItem`** — a literal or a group with its branches; **`sequenceTokens`** — how a sequence of
  them is written, **`sequenceTexts`** — the texts that it stands for.
* **`Reads`** — tokens are read as a sequence, a comma outside of all groups being a literal.
* **`OpenGroups`** — what is open while tokens are read from left to right, with values of any kind
  for sequences; **`OpenGroups.isSome_run_iff`** says when reading goes through.
* **`Balanced.existsUnique_reads`** — the main statement. -/

namespace PathGlob

/-! ## Tokens -/

/-- What a pattern consists of if only its groups count. -/
inductive BraceToken
  /-- A text without a meaning. -/
  | literal (t : Text)
  /-- The beginning of a group. -/
  | opening
  /-- The end of a group. -/
  | closing
  /-- The end of a branch, if a group is open. -/
  | comma
  deriving DecidableEq, Repr

/-- The token of an unescaped character. -/
def BraceToken.ofChar (c : Char) : BraceToken :=
  if c = '\x7b' then .opening else if c = '\x7d' then .closing
  else if c = ',' then .comma else .literal [c]

/-- The tokens of a pattern. If `escapes` holds, a backslash makes the character behind it a literal;
it stays in front of it unless the character is a brace or a comma. A backslash at the very end stands
for itself. -/
def braceTokens (escapes : Bool) : Text → List BraceToken
  | [] => []
  | [c] => [.ofChar c]
  | c :: d :: r =>
    if escapes && c == '\\' then
      .literal (if d ∈ [',', '\x7b', '\x7d'] then [d] else ['\\', d]) :: braceTokens escapes r
    else .ofChar c :: braceTokens escapes (d :: r)

/-- **Every brace has its partner**: no beginning closes more groups than it opens, and as many are
closed as are opened. -/
def Balanced (ts : List BraceToken) : Prop :=
  (∀ us, us <+: ts → us.count .closing ≤ us.count .opening) ∧
    ts.count .closing = ts.count .opening

/-- The tokens in which a comma outside of all groups is a literal; `depth` groups are open in
front. -/
def literalCommas : (depth : Nat) → List BraceToken → List BraceToken
  | _, [] => []
  | 0, .comma :: ts => .literal [','] :: literalCommas 0 ts
  | n + 1, .comma :: ts => .comma :: literalCommas (n + 1) ts
  | n, .opening :: ts => .opening :: literalCommas (n + 1) ts
  | n, .closing :: ts => .closing :: literalCommas (n - 1) ts
  | n, .literal t :: ts => .literal t :: literalCommas n ts

/-! ## Sequences and groups -/

/-- A literal or a group. -/
inductive BraceItem
  /-- A text. -/
  | literal (t : Text)
  /-- A group: its first branch, and the branches behind the commas of the group. -/
  | group (first : List BraceItem) (more : List (List BraceItem))

mutual

/-- How an item is written. -/
def BraceItem.tokens : BraceItem → List BraceToken
  | .literal t => [.literal t]
  | .group first more => .opening :: (sequenceTokens first ++ branchTokens more ++ [.closing])

/-- How a sequence is written. -/
def sequenceTokens : List BraceItem → List BraceToken
  | [] => []
  | x :: xs => x.tokens ++ sequenceTokens xs

/-- How the branches behind the first one are written. -/
def branchTokens : List (List BraceItem) → List BraceToken
  | [] => []
  | b :: bs => .comma :: (sequenceTokens b ++ branchTokens bs)

end

mutual

/-- The texts that an item stands for: those of a group are the texts of its branches in order. -/
def BraceItem.texts : BraceItem → List Text
  | .literal t => [t]
  | .group first more => sequenceTexts first ++ branchTexts more

/-- The texts that a sequence stands for: one text of each item, put together in order; the choice
from the first item varies slowest. -/
def sequenceTexts : List BraceItem → List Text
  | [] => [[]]
  | x :: xs => x.texts.flatMap fun s => (sequenceTexts xs).map (s ++ ·)

/-- The texts that branches stand for. -/
def branchTexts : List (List BraceItem) → List Text
  | [] => []
  | b :: bs => sequenceTexts b ++ branchTexts bs

end

/-- **The tokens are read as a sequence of literals and groups.** Outside of all groups a comma is a
literal. -/
def Reads (ts : List BraceToken) (xs : List BraceItem) : Prop :=
  sequenceTokens xs = literalCommas 0 ts

/-! ### Laws of sequences -/

/-- A sequence in two parts is written part by part. -/
theorem sequenceTokens_append (xs ys : List BraceItem) :
    sequenceTokens (xs ++ ys) = sequenceTokens xs ++ sequenceTokens ys := by
  induction xs with
  | nil => rfl
  | cons x xs ih => rw [List.cons_append, sequenceTokens, sequenceTokens, ih, List.append_assoc]

@[simp] theorem sequenceTokens_singleton (x : BraceItem) : sequenceTokens [x] = x.tokens := by
  rw [sequenceTokens, sequenceTokens, List.append_nil]

/-- The texts of a sequence are those of its items, put together. -/
theorem sequenceTexts_eq (xs : List BraceItem) :
    sequenceTexts xs = concatProduct (xs.map BraceItem.texts) := by
  induction xs with
  | nil => rfl
  | cons x xs ih => rw [sequenceTexts, ih, List.map_cons, concatProduct_cons]

/-- The texts of branches are those of each branch in order. -/
theorem branchTexts_eq (bs : List (List BraceItem)) : branchTexts bs = bs.flatMap sequenceTexts := by
  induction bs with
  | nil => rfl
  | cons b bs ih => rw [branchTexts, ih, List.flatMap_cons]

/-- The texts of a sequence in two parts: one of each part, put together. -/
theorem sequenceTexts_append (xs ys : List BraceItem) :
    sequenceTexts (xs ++ ys) = (sequenceTexts xs).flatMap fun s => (sequenceTexts ys).map (s ++ ·) := by
  induction xs with
  | nil => simp [sequenceTexts]
  | cons x xs ih =>
    rw [List.cons_append, sequenceTexts, sequenceTexts, ih, List.flatMap_assoc]
    simp only [List.map_flatMap, List.flatMap_map, List.map_map, Function.comp_def,
      List.append_assoc]

@[simp] theorem sequenceTexts_singleton (x : BraceItem) : sequenceTexts [x] = x.texts := by
  simp [sequenceTexts, List.flatMap_singleton']

/-- The group with the given branches, of which there is one at least. -/
def BraceItem.ofBranches : List (List BraceItem) → BraceItem
  | [] => .group [] []
  | first :: more => .group first more

/-- The texts of a group are those of its branches. -/
theorem BraceItem.texts_ofBranches (done : List (List BraceItem)) (last : List BraceItem) :
    (BraceItem.ofBranches (done ++ [last])).texts =
      done.flatMap sequenceTexts ++ sequenceTexts last := by
  cases done with
  | nil => simp [BraceItem.ofBranches, BraceItem.texts, branchTexts]
  | cons first more =>
    simp [BraceItem.ofBranches, BraceItem.texts, branchTexts_eq, List.flatMap_append]

/-! ## Reading from left to right -/

/-- The operations by which a value of a sequence is put together. -/
structure BraceBuilder (α : Type) where
  /-- The value of the empty sequence. -/
  empty : α
  /-- The value with a text at the end. -/
  text : α → Text → α
  /-- The value with a group at the end, of finished branches and a last one. -/
  group : α → List α → α → α

/-- **What is open while tokens are read.** -/
structure OpenGroups (α : Type) where
  /-- The open groups, the innermost first: the sequence in front of the group, and the finished
  branches of the group. -/
  outer : List (α × List α)
  /-- The sequence that is being read. -/
  current : α

/-- What is open behind a token, none if it closes a group that is not open. -/
def OpenGroups.step {α : Type} (b : BraceBuilder α) (o : OpenGroups α) :
    BraceToken → Option (OpenGroups α)
  | .literal t => some ⟨o.outer, b.text o.current t⟩
  | .opening => some ⟨(o.current, []) :: o.outer, b.empty⟩
  | .comma =>
    match o.outer with
    | [] => some ⟨[], b.text o.current [',']⟩
    | (before, done) :: outer => some ⟨(before, done ++ [o.current]) :: outer, b.empty⟩
  | .closing =>
    match o.outer with
    | [] => none
    | (before, done) :: outer => some ⟨outer, b.group before done o.current⟩

/-- What is open behind tokens. -/
def OpenGroups.run {α : Type} (b : BraceBuilder α) : OpenGroups α → List BraceToken →
    Option (OpenGroups α)
  | o, [] => some o
  | o, t :: ts => (o.step b t).bind fun o' => OpenGroups.run b o' ts

/-- What is open at the beginning: nothing, and the sequence is empty. -/
def OpenGroups.start {α : Type} (b : BraceBuilder α) : OpenGroups α := ⟨[], b.empty⟩

section

variable {α β : Type} {b : BraceBuilder α} {b' : BraceBuilder β} {o o' : OpenGroups α}

@[simp] theorem OpenGroups.run_nil (b : BraceBuilder α) (o : OpenGroups α) : o.run b [] = some o :=
  rfl

theorem OpenGroups.run_cons (b : BraceBuilder α) (o : OpenGroups α) (t : BraceToken)
    (ts : List BraceToken) : o.run b (t :: ts) = (o.step b t).bind fun o' => o'.run b ts := rfl

/-! ### Depth -/

/-- A token changes the number of open groups as it says; only a group that is open is closed. -/
theorem OpenGroups.step_cases (b : BraceBuilder α) (o : OpenGroups α) (t : BraceToken) :
    (o.step b t = none ∧ t = .closing ∧ o.outer = []) ∨
      ∃ o', o.step b t = some o' ∧
        o'.outer.length + [t].count .closing = o.outer.length + [t].count .opening := by
  cases t with
  | literal u => exact .inr ⟨_, rfl, by simp⟩
  | opening => exact .inr ⟨_, rfl, by simp⟩
  | comma =>
    rcases o with ⟨_ | ⟨⟨before, done⟩, outer⟩, current⟩
    · exact .inr ⟨_, rfl, by simp⟩
    · exact .inr ⟨_, rfl, by simp⟩
  | closing =>
    rcases o with ⟨_ | ⟨⟨before, done⟩, outer⟩, current⟩
    · exact .inl ⟨rfl, rfl, rfl⟩
    · exact .inr ⟨_, rfl, by simp⟩

/-- Behind tokens as many groups are open as were opened and not closed. -/
theorem OpenGroups.length_outer_run {ts : List BraceToken} (h : o.run b ts = some o') :
    o'.outer.length + ts.count .closing = o.outer.length + ts.count .opening := by
  induction ts generalizing o with
  | nil =>
    cases h
    rfl
  | cons t ts ih =>
    rw [OpenGroups.run_cons] at h
    rcases o.step_cases b t with ⟨hs, -, -⟩ | ⟨o₁, hs, hlen⟩
    · rw [hs] at h
      cases h
    · rw [hs, Option.bind_some] at h
      have hrest := ih h
      rw [← List.singleton_append, List.count_append, List.count_append]
      omega

/-- **Reading goes through exactly if no beginning closes more groups than are open.** -/
theorem OpenGroups.isSome_run_iff {ts : List BraceToken} :
    (o.run b ts).isSome ↔ ∀ us, us <+: ts → us.count .closing ≤ o.outer.length + us.count .opening := by
  induction ts generalizing o with
  | nil => simp
  | cons t ts ih =>
    rw [OpenGroups.run_cons]
    rcases o.step_cases b t with ⟨hs, rfl, houter⟩ | ⟨o₁, hs, hlen⟩
    · -- the token itself closes too many
      rw [hs, Option.bind_none]
      constructor
      · intro h
        cases h
      · intro h
        have hone := h [.closing] (by simp)
        rw [houter] at hone
        simp at hone
    · rw [hs, Option.bind_some, ih]
      constructor
      · intro h vs hvs
        rcases List.prefix_cons_iff.1 hvs with rfl | ⟨us, rfl, hus⟩
        · simp
        · have hrest := h us hus
          rw [← List.singleton_append, List.count_append, List.count_append]
          omega
      · intro h us hus
        have hall := h (t :: us) ((List.prefix_cons_inj t).2 hus)
        rw [← List.singleton_append, List.count_append, List.count_append] at hall
        omega

/-- **Tokens are balanced exactly if they are read through and no group is open at the end.** -/
theorem balanced_iff_run (b : BraceBuilder α) {ts : List BraceToken} :
    Balanced ts ↔ ∃ x, (OpenGroups.start b).run b ts = some ⟨[], x⟩ := by
  have hstart : (OpenGroups.start b).outer.length = 0 := rfl
  have hrun : ((OpenGroups.start b).run b ts).isSome ↔
      ∀ us, us <+: ts → us.count .closing ≤ us.count .opening := by
    rw [OpenGroups.isSome_run_iff, hstart]
    simp only [Nat.zero_add]
  constructor
  · rintro ⟨hbegin, hcount⟩
    obtain ⟨⟨outer, x⟩, ho⟩ := Option.isSome_iff_exists.1 (hrun.2 hbegin)
    have hlen := OpenGroups.length_outer_run ho
    rw [hstart, hcount] at hlen
    obtain rfl : outer = [] := List.length_eq_zero_iff.1 (by simpa using hlen)
    exact ⟨x, ho⟩
  · rintro ⟨x, ho⟩
    have hlen := OpenGroups.length_outer_run ho
    rw [hstart] at hlen
    exact ⟨hrun.1 (by rw [ho]; rfl), by simpa using hlen⟩

/-! ### Values of other kinds -/

/-- **A translation of values** that respects how they are put together. -/
structure BraceBuilder.IsHom (b : BraceBuilder α) (b' : BraceBuilder β) (f : α → β) : Prop where
  /-- The empty sequence. -/
  empty : f b.empty = b'.empty
  /-- A text at the end. -/
  text (x : α) (t : Text) : f (b.text x t) = b'.text (f x) t
  /-- A group at the end. -/
  group (x : α) (done : List α) (last : α) :
    f (b.group x done last) = b'.group (f x) (done.map f) (f last)

/-- What is open, with translated values. -/
def OpenGroups.map (f : α → β) (o : OpenGroups α) : OpenGroups β :=
  ⟨o.outer.map fun x => (f x.1, x.2.map f), f o.current⟩

/-- **Reading commutes with a translation of values.** -/
theorem OpenGroups.run_map {f : α → β} (hf : b.IsHom b' f) (o : OpenGroups α)
    (ts : List BraceToken) : (o.map f).run b' ts = (o.run b ts).map (OpenGroups.map f) := by
  have hstep : ∀ (o : OpenGroups α) t, (o.map f).step b' t = (o.step b t).map (OpenGroups.map f) := by
    rintro ⟨outer, current⟩ t
    cases t with
    | literal t => simp [OpenGroups.map, OpenGroups.step, hf.text]
    | opening => simp [OpenGroups.map, OpenGroups.step, hf.empty]
    | comma =>
      cases outer with
      | nil => simp [OpenGroups.map, OpenGroups.step, hf.text]
      | cons x outer => simp [OpenGroups.map, OpenGroups.step, hf.empty]
    | closing =>
      cases outer with
      | nil => simp [OpenGroups.map, OpenGroups.step]
      | cons x outer => simp [OpenGroups.map, OpenGroups.step, hf.group]
  induction ts generalizing o with
  | nil => rfl
  | cons t ts ih =>
    rw [OpenGroups.run_cons, OpenGroups.run_cons, hstep]
    cases o.step b t with
    | none => rfl
    | some o' => exact ih o'

/-- A comma outside of all groups is read as a literal. -/
theorem OpenGroups.run_literalCommas (b : BraceBuilder α) (o : OpenGroups α)
    (ts : List BraceToken) : o.run b (literalCommas o.outer.length ts) = o.run b ts := by
  induction ts generalizing o with
  | nil => simp [literalCommas]
  | cons t ts ih =>
    rcases o with ⟨outer, current⟩
    cases t with
    | literal t =>
      simp only [literalCommas, OpenGroups.run_cons, OpenGroups.step, Option.bind_some]
      exact ih ⟨outer, _⟩
    | opening =>
      simp only [literalCommas, OpenGroups.run_cons, OpenGroups.step, Option.bind_some]
      exact ih ⟨_ :: outer, _⟩
    | comma =>
      cases outer with
      | nil =>
        simp only [List.length_nil, literalCommas, OpenGroups.run_cons, OpenGroups.step,
          Option.bind_some]
        exact ih ⟨[], _⟩
      | cons x outer =>
        simp only [List.length_cons, literalCommas, OpenGroups.run_cons, OpenGroups.step,
          Option.bind_some]
        exact ih ⟨_ :: outer, _⟩
    | closing =>
      cases outer with
      | nil => rfl
      | cons x outer =>
        simp only [List.length_cons, literalCommas, OpenGroups.run_cons, OpenGroups.step,
          Option.bind_some, Nat.add_sub_cancel]
        exact ih ⟨outer, _⟩

end

/-! ## Reading items -/

/-- Sequences of items as values. -/
def itemBuilder : BraceBuilder (List BraceItem) where
  empty := []
  text xs t := xs ++ [.literal t]
  group before done last := before ++ [.ofBranches (done ++ [last])]

@[simp] theorem itemBuilder_empty : itemBuilder.empty = [] := rfl

mutual

/-- What an item is written as is read as the item. -/
theorem BraceItem.run_tokens (x : BraceItem) (outer : List (List BraceItem × List (List BraceItem)))
    (current : List BraceItem) (ts : List BraceToken) :
    OpenGroups.run itemBuilder ⟨outer, current⟩ (x.tokens ++ ts) =
      OpenGroups.run itemBuilder ⟨outer, current ++ [x]⟩ ts := by
  cases x with
  | literal t => rfl
  | group first more =>
    simp only [BraceItem.tokens, List.cons_append, List.append_assoc, OpenGroups.run_cons,
      OpenGroups.step, Option.bind_some]
    rw [run_sequenceTokens first, itemBuilder_empty, List.nil_append, run_branchTokens more]
    rfl

/-- So is a sequence. -/
theorem run_sequenceTokens (xs : List BraceItem)
    (outer : List (List BraceItem × List (List BraceItem))) (current : List BraceItem)
    (ts : List BraceToken) :
    OpenGroups.run itemBuilder ⟨outer, current⟩ (sequenceTokens xs ++ ts) =
      OpenGroups.run itemBuilder ⟨outer, current ++ xs⟩ ts := by
  cases xs with
  | nil => rw [sequenceTokens, List.nil_append, List.append_nil]
  | cons x xs =>
    rw [sequenceTokens, List.append_assoc, BraceItem.run_tokens x, run_sequenceTokens xs,
      List.append_assoc, List.singleton_append]

/-- The branches behind the first one, and the end of their group. -/
theorem run_branchTokens (bs : List (List BraceItem)) (before : List BraceItem)
    (done : List (List BraceItem)) (outer : List (List BraceItem × List (List BraceItem)))
    (current : List BraceItem) (ts : List BraceToken) :
    OpenGroups.run itemBuilder ⟨(before, done) :: outer, current⟩
        (branchTokens bs ++ .closing :: ts) =
      OpenGroups.run itemBuilder ⟨outer, before ++ [.ofBranches (done ++ current :: bs)]⟩ ts := by
  cases bs with
  | nil => rfl
  | cons c bs =>
    simp only [branchTokens, List.cons_append, List.append_assoc, OpenGroups.run_cons,
      OpenGroups.step, Option.bind_some]
    rw [run_sequenceTokens c, itemBuilder_empty, List.nil_append, run_branchTokens bs,
      List.append_assoc, List.singleton_append]

end

/-- A comma stands between neighbouring branches: behind each one but the last. -/
theorem sequenceTokens_append_branchTokens (first : List BraceItem) (more : List (List BraceItem))
    (last : List BraceItem) :
    sequenceTokens first ++ branchTokens (more ++ [last]) =
      ((first :: more).flatMap fun b => sequenceTokens b ++ [.comma]) ++ sequenceTokens last := by
  induction more generalizing first with
  | nil => simp [branchTokens]
  | cons b more ih =>
    rw [List.cons_append, branchTokens, ih, List.flatMap_cons (x := first), List.append_assoc,
      List.append_assoc, List.singleton_append]

/-- How a group is written, seen from its last branch. -/
theorem BraceItem.tokens_ofBranches (done : List (List BraceItem)) (last : List BraceItem) :
    (BraceItem.ofBranches (done ++ [last])).tokens =
      .opening :: ((done.flatMap fun b => sequenceTokens b ++ [.comma]) ++ sequenceTokens last ++
        [.closing]) := by
  cases done with
  | nil => rw [List.nil_append, ofBranches, tokens, branchTokens, List.append_nil]; rfl
  | cons first more =>
    rw [List.cons_append, ofBranches, tokens, sequenceTokens_append_branchTokens]

/-- The tokens in front of the sequence that is being read. -/
def outerTokens : List (List BraceItem × List (List BraceItem)) → List BraceToken
  | [] => []
  | (before, done) :: outer =>
    outerTokens outer ++ sequenceTokens before ++
      .opening :: done.flatMap fun b => sequenceTokens b ++ [.comma]

/-- The tokens that have been read. -/
def OpenGroups.tokens (o : OpenGroups (List BraceItem)) : List BraceToken :=
  outerTokens o.outer ++ sequenceTokens o.current

/-- A token that is read joins the tokens that have been read. -/
theorem OpenGroups.tokens_step {o o' : OpenGroups (List BraceItem)} {t : BraceToken}
    (h : o.step itemBuilder t = some o') (ts : List BraceToken) :
    o'.tokens ++ literalCommas o'.outer.length ts =
      o.tokens ++ literalCommas o.outer.length (t :: ts) := by
  rcases o with ⟨outer, current⟩
  cases t with
  | literal t =>
    cases h
    simp [OpenGroups.tokens, literalCommas, itemBuilder, sequenceTokens_append, BraceItem.tokens]
  | opening =>
    cases h
    simp [OpenGroups.tokens, literalCommas, outerTokens, sequenceTokens]
  | comma =>
    cases outer with
    | nil =>
      cases h
      simp [OpenGroups.tokens, literalCommas, itemBuilder, sequenceTokens_append, BraceItem.tokens]
    | cons x outer =>
      cases h
      simp [OpenGroups.tokens, literalCommas, outerTokens, sequenceTokens]
  | closing =>
    cases outer with
    | nil => cases h
    | cons x outer =>
      cases h
      simp [OpenGroups.tokens, literalCommas, outerTokens, itemBuilder, sequenceTokens_append,
        BraceItem.tokens_ofBranches]

/-- **What has been read is written as it was read**, up to commas outside of all groups. -/
theorem OpenGroups.tokens_run {o o' : OpenGroups (List BraceItem)} {ts : List BraceToken}
    (h : o.run itemBuilder ts = some o') :
    o'.tokens = o.tokens ++ literalCommas o.outer.length ts := by
  induction ts generalizing o with
  | nil =>
    cases h
    rw [literalCommas, List.append_nil]
  | cons t ts ih =>
    rw [OpenGroups.run_cons] at h
    obtain ⟨o₁, hstep, hrun⟩ := Option.bind_eq_some_iff.1 h
    rw [ih hrun, OpenGroups.tokens_step hstep]

/-- **A sequence is read from tokens** exactly if reading them from left to right ends with it and
with no open group. -/
theorem reads_iff_run {ts : List BraceToken} {xs : List BraceItem} :
    Reads ts xs ↔ (OpenGroups.start itemBuilder).run itemBuilder ts = some ⟨[], xs⟩ := by
  constructor
  · intro h
    -- commas outside of all groups are read as if they were written as literals
    have hread := run_sequenceTokens xs [] [] []
    rw [List.append_nil, h, List.nil_append] at hread
    exact (OpenGroups.run_literalCommas itemBuilder (.start itemBuilder) ts).symm.trans hread
  · intro h
    simpa [Reads, OpenGroups.tokens, outerTokens, OpenGroups.start, sequenceTokens] using
      OpenGroups.tokens_run h

/-- **Balanced tokens are read in exactly one way.** -/
theorem Balanced.existsUnique_reads {ts : List BraceToken} (h : Balanced ts) :
    ∃! xs, Reads ts xs := by
  obtain ⟨xs, hrun⟩ := (balanced_iff_run itemBuilder).1 h
  refine ⟨xs, reads_iff_run.2 hrun, fun ys hys => ?_⟩
  have hsame := (reads_iff_run.1 hys).symm.trans hrun
  cases hsame
  rfl

/-! ## Reading texts -/

/-- Lists of texts as values: those that a sequence stands for. -/
def textBuilder : BraceBuilder (List Text) where
  empty := [[]]
  text ss t := ss.map (· ++ t)
  group before done last := before.flatMap fun s => (done.flatten ++ last).map (s ++ ·)

/-- **The texts of a sequence** are put together as the sequence is. -/
theorem isHom_sequenceTexts : itemBuilder.IsHom textBuilder sequenceTexts where
  empty := rfl
  text xs t := by
    simp [itemBuilder, textBuilder, sequenceTexts_append, BraceItem.texts, List.map_eq_flatMap]
  group before done last := by
    simp [itemBuilder, textBuilder, sequenceTexts_append, BraceItem.texts_ofBranches,
      List.flatMap_def]

mutual

/-- An item stands for a text at least. -/
theorem BraceItem.texts_ne_nil (x : BraceItem) : x.texts ≠ [] := by
  cases x with
  | literal t => simp [BraceItem.texts]
  | group first more =>
    rw [BraceItem.texts]
    exact List.append_ne_nil_of_left_ne_nil (sequenceTexts_ne_nil first) _

/-- So does a sequence. -/
theorem sequenceTexts_ne_nil (xs : List BraceItem) : sequenceTexts xs ≠ [] := by
  cases xs with
  | nil => simp [sequenceTexts]
  | cons x xs =>
    obtain ⟨s, hs⟩ := List.exists_mem_of_ne_nil _ x.texts_ne_nil
    obtain ⟨u, hu⟩ := List.exists_mem_of_ne_nil _ (sequenceTexts_ne_nil xs)
    rw [sequenceTexts]
    exact List.ne_nil_of_mem (List.mem_flatMap.2 ⟨s, hs, List.mem_map_of_mem hu⟩)

end

end PathGlob
