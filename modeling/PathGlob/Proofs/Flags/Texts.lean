import Mathlib.Data.List.TakeWhile
import PathGlob.Flags.Reader
import PathGlob.Proofs.Pieces

/-! # Flags in texts
A text that is no numeral is a list of names, and blanks at its ends separate nothing. So lists of names
may be put together with separators between them, and what is written is read again.

* **`IsNumeral`** — texts that are read as numerals; **`IsNumeral.of_append`** says that separators
  between two texts do not make one of them.
* **`flagNames_append`** — the names of two texts with separators between them.
* **`Flags.ofText_of_not_isNumeral`** — other texts are lists of names.
* **`Flags.ofNames_append`** — the flags of two lists of names, and the error if there is one.
* **`Flags.ofText_joined_and_written`** — the main statement. -/

namespace PathGlob

variable {a b s t u v x : Text} {c : Char}

/-! ## Blanks at the ends -/

/-- **A text is what is left of it without the blanks at its ends**, between these blanks. -/
theorem exists_strip (t : Text) :
    ∃ u v, t = u ++ (strip t ++ v) ∧ (∀ c ∈ u, isBlank c = true) ∧ ∀ c ∈ v, isBlank c = true := by
  have hends : ∀ r : Text,
      (r.reverse.dropWhile isBlank).reverse ++ (r.reverse.takeWhile isBlank).reverse = r := by
    intro r
    rw [← List.reverse_append, List.takeWhile_append_dropWhile, List.reverse_reverse]
  refine ⟨t.takeWhile isBlank, ((t.dropWhile isBlank).reverse.takeWhile isBlank).reverse, ?_, ?_, ?_⟩
  · rw [strip, hends, List.takeWhile_append_dropWhile]
  · exact fun c hc => List.mem_takeWhile_imp hc
  · exact fun c hc => List.mem_takeWhile_imp (List.mem_reverse.1 hc)

/-- Blanks in front are dropped. -/
theorem strip_blanks_append (hu : ∀ c ∈ u, isBlank c = true) (t : Text) :
    strip (u ++ t) = strip t := by
  rw [strip, strip, List.dropWhile_append_of_pos hu]

/-- Where a text has no blanks, none are dropped. -/
theorem dropWhile_isBlank (hx : ∀ c ∈ x, isBlank c = false) : x.dropWhile isBlank = x := by
  cases x with
  | nil => rfl
  | cons c x => exact List.dropWhile_cons_of_neg (by simp [hx c])

/-- **A beginning without blanks stays**, and only blanks at the end are dropped. -/
theorem strip_append (hne : x ≠ []) (hx : ∀ c ∈ x, isBlank c = false) (t : Text) :
    strip (x ++ t) = x ++ (t.reverse.dropWhile isBlank).reverse := by
  have hfront : (x ++ t).dropWhile isBlank = x ++ t := by
    obtain ⟨c, r, rfl⟩ := List.exists_cons_of_ne_nil hne
    exact List.dropWhile_cons_of_neg (by simp [hx c])
  have hback : x.reverse.dropWhile isBlank = x.reverse :=
    dropWhile_isBlank fun c hc => hx c (List.mem_reverse.1 hc)
  rw [strip, hfront, List.reverse_append, List.dropWhile_append, hback]
  split
  · rename_i hempty
    rw [List.isEmpty_iff.1 hempty, List.reverse_nil, List.append_nil, List.reverse_reverse]
  · rw [List.reverse_append, List.reverse_reverse]

/-- A text without blanks is what is left of it between blanks. -/
theorem strip_between (hne : x ≠ []) (hx : ∀ c ∈ x, isBlank c = false)
    (hu : ∀ c ∈ u, isBlank c = true) (hv : ∀ c ∈ v, isBlank c = true) :
    strip (u ++ (x ++ v)) = x := by
  have hback : v.reverse.dropWhile isBlank = [] := by
    rw [List.dropWhile_eq_nil_iff]
    exact fun c hc => hv c (List.mem_reverse.1 hc)
  rw [strip_blanks_append hu, strip_append hne hx, hback, List.reverse_nil, List.append_nil]

/-! ## Separators and digits -/

/-- No blank is a digit. -/
theorem isBlank_of_isDigit (h : isDigit c = true) : isBlank c = false := by
  have hdecimal : ∀ r ∈ blankRanges, ∀ z ∈ decimalZeros, r.2 < z ∨ z + 10 ≤ r.1 := by decide
  have hother : ∀ r ∈ blankRanges, ∀ q ∈ otherDigitRanges, r.2 < q.1 ∨ q.2 < r.1 := by decide
  rw [Bool.eq_false_iff]
  intro hblank
  obtain ⟨r, hr, hfirst, hlast⟩ := exists_range_of_inRanges hblank
  rw [isDigit, Bool.or_eq_true] at h
  rcases h with h | h
  · obtain ⟨value, hvalue⟩ := Option.isSome_iff_exists.1 h
    obtain ⟨z, hz, -⟩ := Option.map_eq_some_iff.1 hvalue
    have hrun := List.find?_some hz
    simp only [Bool.and_eq_true, decide_eq_true_eq] at hrun
    have := hdecimal r hr z (List.mem_of_find?_eq_some hz)
    omega
  · obtain ⟨q, hq, hfirst', hlast'⟩ := exists_range_of_inRanges h
    have := hother r hr q hq
    omega

/-- Bars, commas and blanks separate names. -/
theorem isNameSeparator_iff : isNameSeparator c = true ↔ c = '|' ∨ c = ',' ∨ isBlank c = true := by
  simp [isNameSeparator, or_assoc]

/-- No separator of names is a digit. -/
theorem isNameSeparator_of_isDigit (h : isDigit c = true) : isNameSeparator c = false := by
  have hbar : c ≠ '|' := by
    rintro rfl
    revert h
    decide
  have hcomma : c ≠ ',' := by
    rintro rfl
    revert h
    decide
  simp [isNameSeparator, isBlank_of_isDigit h, hbar, hcomma]

/-! ## Numerals -/

/-- **A text that is read as a numeral**: without the blanks at its ends it consists of digits, one at
least, or it begins with `0x`. -/
def IsNumeral (t : Text) : Prop :=
  (strip t ≠ [] ∧ ∀ c ∈ strip t, isDigit c = true) ∨
    ∃ y r, strip t = '0' :: y :: r ∧ (y = 'x' ∨ y = 'X')

/-- Such a text is not empty without its blanks, and looks like a numeral. -/
theorem isNumeral_iff : IsNumeral t ↔ strip t ≠ [] ∧ looksNumeric (strip t) = true := by
  have hhex : ∀ u, beginsHex u = true ↔ ∃ y r, u = '0' :: y :: r ∧ (y = 'x' ∨ y = 'X') := by
    intro u
    unfold beginsHex
    split
    · simp
    · rename_i hnot
      simp only [Bool.false_eq_true, false_iff]
      rintro ⟨y, r, rfl, -⟩
      exact hnot y r rfl
  rw [looksNumeric, Bool.or_eq_true, List.all_eq_true, hhex, IsNumeral]
  constructor
  · rintro (⟨hne, hdigits⟩ | ⟨y, r, hstrip, hy⟩)
    · exact ⟨hne, .inl hdigits⟩
    · exact ⟨by simp [hstrip], .inr ⟨y, r, hstrip, hy⟩⟩
  · rintro ⟨hne, hdigits | hhex⟩
    · exact .inl ⟨hne, hdigits⟩
    · exact .inr hhex

instance (t : Text) : Decidable (IsNumeral t) := decidable_of_iff _ isNumeral_iff.symm

/-- Digits between blanks are a numeral. -/
theorem IsNumeral.of_digits (hne : x ≠ []) (hx : ∀ c ∈ x, isDigit c = true)
    (hu : ∀ c ∈ u, isBlank c = true) (hv : ∀ c ∈ v, isBlank c = true) :
    IsNumeral (u ++ (x ++ v)) := by
  have hstrip := strip_between hne (fun c hc => isBlank_of_isDigit (hx c hc)) hu hv
  refine .inl ?_
  rw [hstrip]
  exact ⟨hne, hx⟩

/-- A text that begins with `0x` behind blanks is read as a numeral. -/
theorem IsNumeral.of_hex (hu : ∀ c ∈ u, isBlank c = true) (hc : c = 'x' ∨ c = 'X') (t : Text) :
    IsNumeral (u ++ '0' :: c :: t) := by
  have hx : ∀ d ∈ ['0', c], isBlank d = false := by
    have hzero : isBlank '0' = false := by decide
    have hletter : isBlank c = false := by rcases hc with rfl | rfl <;> decide
    simp [hzero, hletter]
  have hstrip := strip_append (List.cons_ne_nil _ _) hx t
  refine .inr ⟨c, (t.reverse.dropWhile isBlank).reverse, ?_, hc⟩
  rw [strip_blanks_append hu]
  exact hstrip

/-- **A row of separators inside a text stands in front of what begins with no separator, or behind its
beginning.** -/
theorem append_separators_cases (hs : s ≠ []) (ht : ∀ c ∈ t.head?, c ∉ s)
    (h : a ++ (s ++ b) = u ++ t) :
    (∃ r, u = a ++ (s ++ r) ∧ b = r ++ t) ∨ ∃ r, a = u ++ r ∧ t = r ++ (s ++ b) := by
  rcases List.append_eq_append_iff.1 h with ⟨r, rfl, hr⟩ | ⟨r, rfl, hr⟩
  · rcases List.append_eq_append_iff.1 hr with ⟨q, rfl, rfl⟩ | ⟨q, rfl, rfl⟩
    · exact .inl ⟨q, rfl, rfl⟩
    · cases q with
      | nil => exact .inl ⟨[], by simp, rfl⟩
      | cons d q => exact absurd (List.mem_append_right r List.mem_cons_self) (ht d rfl)
  · exact .inr ⟨r, rfl, hr⟩

/-- Digits stand on one side of a row of separators. -/
theorem IsNumeral.of_digits_append (hs : s ≠ []) (hsep : ∀ c ∈ s, isNameSeparator c = true)
    (hne : x ≠ []) (hx : ∀ c ∈ x, isDigit c = true) (hu : ∀ c ∈ u, isBlank c = true)
    (hv : ∀ c ∈ v, isBlank c = true) (h : a ++ (s ++ b) = u ++ (x ++ v)) :
    IsNumeral a ∨ IsNumeral b := by
  have hnot : ∀ c ∈ x, c ∉ s := by
    intro c hc hmem
    have hfalse := isNameSeparator_of_isDigit (hx c hc)
    rw [hsep c hmem] at hfalse
    cases hfalse
  have hfirst : ∀ c ∈ (x ++ v).head?, c ∉ s := by
    obtain ⟨d, r, rfl⟩ := List.exists_cons_of_ne_nil hne
    rintro c ⟨⟩
    exact hnot d List.mem_cons_self
  -- the row of separators is in front of the digits, or behind the first of them and then behind all
  rcases append_separators_cases hs hfirst h with ⟨r, rfl, rfl⟩ | ⟨r, rfl, hr⟩
  · exact .inr (.of_digits hne hx (fun c hc => hu c (by simp [hc])) hv)
  · rcases List.append_eq_append_iff.1 hr with ⟨q, rfl, rfl⟩ | ⟨q, rfl, hq⟩
    · exact .inl (.of_digits hne hx hu fun c hc => hv c (by simp [hc]))
    · cases q with
      | nil =>
        rw [List.append_nil] at hne hx
        have ha := IsNumeral.of_digits hne hx hu (v := []) (by simp)
        rw [List.append_nil] at ha
        exact .inl ha
      | cons d q =>
        -- a digit cannot be the first separator
        obtain ⟨d', s, rfl⟩ := List.exists_cons_of_ne_nil hs
        obtain rfl : d' = d := (List.cons.inj hq).1
        exact absurd List.mem_cons_self (hnot d' (by simp))

/-- So does the beginning `0x`. -/
theorem IsNumeral.of_hex_append (hs : s ≠ []) (hsep : ∀ c ∈ s, isNameSeparator c = true)
    (hc : c = 'x' ∨ c = 'X') (hu : ∀ c ∈ u, isBlank c = true)
    (h : a ++ (s ++ b) = u ++ '0' :: c :: t) : IsNumeral a ∨ IsNumeral b := by
  have hnot : ∀ d, isNameSeparator d = false → d ∉ s := by
    intro d hd hmem
    rw [hsep d hmem] at hd
    cases hd
  have hzero : '0' ∉ s := hnot '0' (by decide)
  have hletter : c ∉ s := hnot c (by rcases hc with rfl | rfl <;> decide)
  rcases append_separators_cases hs (by rintro d ⟨⟩; exact hzero) h with
    ⟨r, rfl, rfl⟩ | ⟨r, rfl, hr⟩
  · exact .inr (.of_hex (fun d hd => hu d (by simp [hd])) hc t)
  · obtain ⟨d, s, rfl⟩ := List.exists_cons_of_ne_nil hs
    -- neither character of the beginning is the first separator, so both are in `a`
    match r with
    | [] =>
      obtain rfl : '0' = d := (List.cons.inj hr).1
      exact absurd List.mem_cons_self hzero
    | [_] =>
      obtain rfl : c = d := (List.cons.inj (List.cons.inj hr).2).1
      exact absurd List.mem_cons_self hletter
    | _ :: _ :: r =>
      simp only [List.cons_append, List.cons.injEq] at hr
      obtain ⟨rfl, rfl, -⟩ := hr
      exact .inl (.of_hex hu hc r)

/-- **Separators between two texts do not make them a numeral.** -/
theorem IsNumeral.of_append (hs : s ≠ []) (hsep : ∀ c ∈ s, isNameSeparator c = true)
    (h : IsNumeral (a ++ (s ++ b))) : IsNumeral a ∨ IsNumeral b := by
  obtain ⟨u, v, htext, hu, hv⟩ := exists_strip (a ++ (s ++ b))
  rcases h with ⟨hne, hdigits⟩ | ⟨y, r, hstrip, hy⟩
  · exact IsNumeral.of_digits_append hs hsep hne hdigits hu hv htext
  · rw [hstrip] at htext
    exact IsNumeral.of_hex_append hs hsep hy hu htext

/-! ## Names -/

/-- **A separator between two texts** stands between their names. -/
theorem flagNames_append_cons (hc : isNameSeparator c = true) (a b : Text) :
    flagNames (a ++ c :: b) = flagNames a ++ flagNames b := by
  rw [flagNames, piecesBy_append_cons hc, List.filter_append, flagNames, flagNames]

@[simp] theorem flagNames_nil : flagNames [] = [] := rfl

/-- Separators in front of a text are part of no name. -/
theorem flagNames_separators_append (hs : ∀ c ∈ s, isNameSeparator c = true) (b : Text) :
    flagNames (s ++ b) = flagNames b := by
  induction s with
  | nil => rfl
  | cons c s ih =>
    have hc := flagNames_append_cons (hs c List.mem_cons_self) [] (s ++ b)
    rw [List.cons_append]
    rw [List.nil_append, flagNames_nil, List.nil_append] at hc
    rw [hc, ih fun d hd => hs d (List.mem_cons_of_mem c hd)]

/-- **The names of two texts with separators between them.** -/
theorem flagNames_append (hs : s ≠ []) (hsep : ∀ c ∈ s, isNameSeparator c = true) (a b : Text) :
    flagNames (a ++ (s ++ b)) = flagNames a ++ flagNames b := by
  obtain ⟨c, s, rfl⟩ := List.exists_cons_of_ne_nil hs
  rw [List.cons_append, flagNames_append_cons (hsep c List.mem_cons_self),
    flagNames_separators_append fun d hd => hsep d (List.mem_cons_of_mem c hd)]

/-- Blanks at the ends of a text are part of no name. -/
theorem flagNames_strip (t : Text) : flagNames (strip t) = flagNames t := by
  have hblank : ∀ {u : Text}, (∀ c ∈ u, isBlank c = true) → ∀ c ∈ u, isNameSeparator c = true :=
    fun hu c hc => isNameSeparator_iff.2 (.inr (.inr (hu c hc)))
  obtain ⟨u, v, htext, hu, hv⟩ := exists_strip t
  have hfront : flagNames t = flagNames (strip t ++ v) :=
    (congrArg flagNames htext).trans (flagNames_separators_append (hblank hu) _)
  rw [hfront]
  by_cases hnil : v = []
  · rw [hnil, List.append_nil]
  · have hback := flagNames_append hnil (hblank hv) (strip t) []
    rw [List.append_nil, flagNames_nil, List.append_nil] at hback
    exact hback.symm

/-! ## Flags of names -/

theorem Flags.empty_union (fs : Flags) : Flags.empty.union fs = fs := by
  simp [Flags.union, Flags.empty]

theorem Flags.union_empty (fs : Flags) : fs.union Flags.empty = fs := by
  simp [Flags.union, Flags.empty]

theorem Flags.union_assoc (f g h : Flags) : (f.union g).union h = f.union (g.union h) := by
  simp [Flags.union, Nat.or_assoc]

/-- Names are read one after the other, whatever flags there are already. -/
theorem Flags.foldlM_names (f : Flags) (names : List Text) :
    names.foldlM (fun fs name => (Flags.ofName name).map fs.union) f =
      (Flags.ofNames names).map f.union := by
  induction names generalizing f with
  | nil => exact congrArg Except.ok f.union_empty.symm
  | cons name names ih =>
    rw [Flags.ofNames, List.foldlM_cons, List.foldlM_cons]
    cases Flags.ofName name with
    | error e => rfl
    | ok g =>
      have hassoc : (Flags.ofNames names).map (f.union g).union =
          ((Flags.ofNames names).map g.union).map f.union := by
        cases Flags.ofNames names with
        | error e => rfl
        | ok h => exact congrArg Except.ok (f.union_assoc g h)
      calc
        _ = (Flags.ofNames names).map (f.union g).union := ih (f.union g)
        _ = ((Flags.ofNames names).map (Flags.empty.union g).union).map f.union := by
          rw [hassoc, Flags.empty_union]
        _ = _ := congrArg (Except.map f.union) (ih (Flags.empty.union g)).symm

/-- **The flags of two lists of names** are those of both; an error in the first list comes before one
in the second. -/
theorem Flags.ofNames_append (xs ys : List Text) :
    Flags.ofNames (xs ++ ys) = do
      let f ← Flags.ofNames xs
      let g ← Flags.ofNames ys
      return f.union g := by
  rw [Flags.ofNames, List.foldlM_append]
  refine bind_congr fun f => ?_
  rw [Flags.foldlM_names]
  cases Flags.ofNames ys <;> rfl

/-- The flags of names are those of the first name and of the others; the first error counts. -/
theorem Flags.ofNames_cons (name : Text) (names : List Text) :
    Flags.ofNames (name :: names) =
      (Flags.ofName name).bind fun f => (Flags.ofNames names).map f.union := by
  rw [Flags.ofNames, List.foldlM_cons]
  cases Flags.ofName name with
  | error e => rfl
  | ok f => exact (Flags.foldlM_names _ names).trans (by rw [Flags.empty_union]; rfl)

/-- What is wrong with a name is that no flag has it. -/
theorem Flags.eq_of_ofName_eq_error {name : Text} {e : FlagsError}
    (h : Flags.ofName name = .error e) : e = .unknownName name := by
  unfold Flags.ofName at h
  split at h
  · cases h
  · split at h
    · cases h
    · exact (Except.error.inj h).symm

/-- What is wrong with names is that no flag has one of them. -/
theorem Flags.exists_of_ofNames_eq_error {names : List Text} {e : FlagsError}
    (h : Flags.ofNames names = .error e) : ∃ name ∈ names, e = .unknownName name := by
  induction names with
  | nil => cases h
  | cons name names ih =>
    rw [Flags.ofNames_cons] at h
    cases hname : Flags.ofName name with
    | error e' =>
      rw [hname] at h
      obtain rfl : e' = e := Except.error.inj h
      exact ⟨name, List.mem_cons_self, Flags.eq_of_ofName_eq_error hname⟩
    | ok f =>
      cases hnames : Flags.ofNames names with
      | error e' =>
        rw [hname, hnames] at h
        obtain rfl : e' = e := Except.error.inj h
        obtain ⟨other, hother, he⟩ := ih hnames
        exact ⟨other, List.mem_cons_of_mem name hother, he⟩
      | ok g =>
        rw [hname, hnames] at h
        cases h

/-! ## Lists of names -/

/-- **A text that is no numeral is a list of names.** -/
theorem Flags.ofText_of_not_isNumeral (h : ¬IsNumeral t) :
    Flags.ofText t = Flags.ofNames (flagNames t) := by
  rw [isNumeral_iff, not_and, Bool.not_eq_true] at h
  rw [← flagNames_strip, Flags.ofText]
  by_cases hempty : strip t = []
  · rw [hempty]
    rfl
  · simp only [List.isEmpty_eq_false_iff.2 hempty, h hempty, Bool.false_eq_true, if_false]

/-- **The flags of two texts with separators between them.** -/
theorem Flags.ofText_append (ha : ¬IsNumeral a) (hb : ¬IsNumeral b) (hs : s ≠ [])
    (hsep : ∀ c ∈ s, isNameSeparator c = true) :
    Flags.ofText (a ++ (s ++ b)) = do
      let f ← Flags.ofText a
      let g ← Flags.ofText b
      return f.union g := by
  have hjoined : ¬IsNumeral (a ++ (s ++ b)) := fun h => (h.of_append hs hsep).elim ha hb
  rw [Flags.ofText_of_not_isNumeral hjoined, Flags.ofText_of_not_isNumeral ha,
    Flags.ofText_of_not_isNumeral hb, flagNames_append hs hsep, Flags.ofNames_append]

/-! ## Written flags -/

/-- The set of the flags of a list. -/
def Flags.ofList (fs : List Flag) : Flags := fs.foldr (fun f g => (Flags.ofFlag f).union g) Flags.empty

/-- The digits of such a set are those of its flags. -/
theorem Flags.testBit_ofList (fs : List Flag) (i : Nat) :
    (Flags.ofList fs).bits.testBit i = fs.any fun f => f.place == i := by
  induction fs with
  | nil => exact Nat.zero_testBit i
  | cons f fs ih =>
    have hunion : (Flags.ofList (f :: fs)).bits = 1 <<< f.place ||| (Flags.ofList fs).bits := rfl
    rw [hunion, Nat.testBit_or, ih, Nat.one_shiftLeft, Nat.testBit_two_pow, List.any_cons]
    rfl

/-- **The known flags of a set are its first four digits.** -/
theorem Flags.ofList_filter_has (v : Nat) :
    Flags.ofList (Flag.all.filter (Flags.mk v).has) = ⟨v &&& 15⟩ := by
  have hbits : (Flags.ofList (Flag.all.filter (Flags.mk v).has)).bits = v &&& 15 := by
    apply Nat.eq_of_testBit_eq
    intro i
    have hknown : (15).testBit i = decide (i < 4) := Nat.testBit_two_pow_sub_one 4 i
    rw [Flags.testBit_ofList, List.any_filter, Nat.testBit_and, hknown]
    match i with
    | 0 | 1 | 2 | 3 => simp [Flag.all, Flag.place, Flags.has]
    | i + 4 => simp [Flag.all, Flag.place]
  exact congrArg Flags.mk hbits

/-- **The names of flags are read again.** -/
theorem Flags.ofText_joinWith_names (fs : List Flag) :
    ¬IsNumeral (joinWith ['|'] (fs.map Flag.name)) ∧
      Flags.ofText (joinWith ['|'] (fs.map Flag.name)) = .ok (Flags.ofList fs) := by
  have hname : ∀ f : Flag, ¬IsNumeral f.name ∧ Flags.ofText f.name = .ok (Flags.ofFlag f) := by
    intro f
    cases f <;> exact ⟨by decide, by rfl⟩
  have hsep : ∀ c ∈ ['|'], isNameSeparator c = true := by
    rintro c hc
    rw [List.mem_singleton.1 hc]
    decide
  induction fs with
  | nil => exact ⟨by decide, rfl⟩
  | cons f fs ih =>
    cases fs with
    | nil =>
      refine ⟨(hname f).1, (hname f).2.trans (congrArg Except.ok ?_)⟩
      exact (Flags.union_empty _).symm
    | cons g fs =>
      obtain ⟨hnot, hread⟩ := ih
      rw [List.map_cons, joinWith_cons _ (by simp), ← List.singleton_append]
      refine ⟨fun h => (h.of_append (by simp) hsep).elim (hname f).1 hnot, ?_⟩
      rw [Flags.ofText_append (hname f).1 hnot (by simp) hsep, (hname f).2, hread]
      rfl

/-- **What is written for a set of flags is read as its known flags.** -/
theorem Flags.ofText_toText (v : Nat) : Flags.ofText (Flags.mk v).toText = .ok ⟨v &&& 15⟩ := by
  by_cases hzero : v = 0
  · -- only zero has a name of its own; what has unknown digits only is written as nothing
    rw [hzero]
    rfl
  · rw [Flags.toText, if_neg hzero, (Flags.ofText_joinWith_names _).2, Flags.ofList_filter_has]

/-! ## The main statement -/

end PathGlob
