import PathGlob.Part

/-! # Scanning for the end of a part
The end of a part is found in one pass over the characters of a pattern, which remembers the last
separator, whether a wildcard has been passed, and whether the next character is escaped. The pass can
end early, at a wildcard or at a separator behind one.

* **`Scan`**, **`Scan.step`**, **`Scan.run`** — what is remembered, what one character does to it, and the
  pass over what is left of a pattern.
* **`Scan.run_eq_runMarks`** — a pass over characters is one over their marks.
* **`Scan.runMarks_lead`**, **`Scan.runMarks_part`** — where it ends, without wildcards and with them.
* **`scannedStop_eq`** — a scan finds the end of the part; **`Part.next_eq_scanned`** says so of the next
  part. -/

namespace PathGlob

/-! ## Scans -/

/-- What is remembered during a scan. -/
structure Scan where
  /-- The place of the last separator, if one has been passed. -/
  lastSeparator? : Option Nat := none
  /-- Whether a wildcard has been passed. -/
  containsWildcard : Bool := false
  /-- Whether the next character is escaped. -/
  inEscape : Bool := false
  deriving DecidableEq, Repr

/-- What a character with a mark at the place `i` does to a scan: it goes on, or it ends with the end of
the part and whether this has a wildcard. -/
def Scan.read (allowWildcard : Bool) (s : Scan) (i : Nat) : Mark → Except (Nat × Bool) Scan
  | .plain => .ok s
  | .wildcard =>
    if !allowWildcard then .error ((s.lastSeparator?.map (· + 1)).getD 0, s.containsWildcard)
    else
      match s.lastSeparator? with
      | some last => .error (last, s.containsWildcard)
      | none => .ok { s with containsWildcard := true }
  | .separator =>
    if s.containsWildcard then .error (i, s.containsWildcard)
    else .ok { s with lastSeparator? := some i }

/-- What the character at the place `i` does to a scan. -/
def Scan.step (escapes allowWildcard : Bool) (s : Scan) (i : Nat) (c : Char) :
    Except (Nat × Bool) Scan :=
  if s.inEscape then .ok { s with inEscape := false }
  else if escapes && c == '\\' then .ok { s with inEscape := true }
  else s.read allowWildcard i (Mark.ofChar c)

/-- A scan of what is left of a pattern from the place `i` on. -/
def Scan.run (escapes allowWildcard : Bool) : Scan → Nat → Text → Nat × Bool
  | s, i, [] => (i, s.containsWildcard)
  | s, i, c :: r =>
    match s.step escapes allowWildcard i c with
    | .ok s' => s'.run escapes allowWildcard (i + 1) r
    | .error stop => stop

/-- **The end of the part that begins at a place**, found by a scan. -/
def scannedStop (escapes : Bool) (pattern : Text) (position : Nat) (allowWildcard : Bool) :
    Nat × Bool :=
  ({} : Scan).run escapes allowWildcard (min position pattern.length) (pattern.drop position)

/-! ## Scans of marks -/

/-- A scan of marks. -/
def Scan.runMarks (allowWildcard : Bool) : Scan → Nat → List Mark → Nat × Bool
  | s, i, [] => (i, s.containsWildcard)
  | s, i, m :: ms =>
    match s.read allowWildcard i m with
    | .ok s' => s'.runMarks allowWildcard (i + 1) ms
    | .error stop => stop

variable {s s' : Scan} {i : Nat}

/-- A mark neither begins nor ends an escape. -/
theorem Scan.inEscape_of_read {allowWildcard : Bool} {m : Mark} (h : s.read allowWildcard i m = .ok s') :
    s'.inEscape = s.inEscape := by
  cases m <;> grind [Scan.read]

/-- **A scan of characters is one of their marks.** -/
theorem Scan.run_eq_runMarks (escapes allowWildcard : Bool) (hs : s.inEscape = false) (i : Nat)
    (t : Text) :
    s.run escapes allowWildcard i t = s.runMarks allowWildcard i (marks escapes t) := by
  fun_induction marks escapes t generalizing s i with
  | case1 => rfl
  | case2 c =>
    by_cases hc : (escapes && c == '\\') = true
    · simp [Scan.run, Scan.runMarks, Scan.step, Scan.read, hs, hc]
    · simp [Scan.run, Scan.runMarks, Scan.step, hs, hc]
  | case3 c d r hc ih =>
    -- the next character ends the escape, and nothing has been remembered
    have hsame : { s with inEscape := false } = s := by rw [← hs]
    simp [Scan.run, Scan.runMarks, Scan.step, Scan.read, hs, hc, hsame, ih hs]
  | case4 c d r hc ih =>
    rw [Scan.run, Scan.step, hs, if_neg Bool.false_ne_true, if_neg hc, Scan.runMarks]
    cases hread : s.read allowWildcard i (Mark.ofChar c) with
    | error stop => rfl
    | ok s' =>
      have hs' : s'.inEscape = false := by rw [Scan.inEscape_of_read hread, hs]
      exact ih hs' (i + 1)

/-! ## Ends -/

/-- The place behind the last separator in front of the first wildcard, if `last?` is the place of the
last one so far and the marks begin at `i`. -/
def behindSeparator? (last? : Option Nat) (i : Nat) (ms : List Mark) : Option Nat :=
  ((behindLastSeparator? (beforeWildcard ms)).map (i + ·)).or (last?.map (· + 1))

@[simp] theorem behindSeparator?_nil (last? : Option Nat) (i : Nat) :
    behindSeparator? last? i [] = last?.map (· + 1) := rfl

@[simp] theorem behindSeparator?_wildcard (last? : Option Nat) (i : Nat) (ms : List Mark) :
    behindSeparator? last? i (.wildcard :: ms) = last?.map (· + 1) := by
  simp [behindSeparator?, beforeWildcard, behindLastSeparator?]

@[simp] theorem behindSeparator?_plain (last? : Option Nat) (i : Nat) (ms : List Mark) :
    behindSeparator? last? i (.plain :: ms) = behindSeparator? last? (i + 1) ms := by
  have hfront : beforeWildcard (.plain :: ms) = .plain :: beforeWildcard ms := by
    simp [beforeWildcard]
  rw [behindSeparator?, behindSeparator?, hfront, behindLastSeparator?]
  cases behindLastSeparator? (beforeWildcard ms) with
  | none => simp
  | some n => simp [Nat.add_assoc, Nat.add_comm 1]

@[simp] theorem behindSeparator?_separator (last? : Option Nat) (i : Nat) (ms : List Mark) :
    behindSeparator? last? i (.separator :: ms) = behindSeparator? (some i) (i + 1) ms := by
  have hfront : beforeWildcard (.separator :: ms) = .separator :: beforeWildcard ms := by
    simp [beforeWildcard]
  rw [behindSeparator?, behindSeparator?, hfront, behindLastSeparator?]
  cases behindLastSeparator? (beforeWildcard ms) with
  | none => simp
  | some n => simp [Nat.add_assoc, Nat.add_comm 1]

section

variable (last? : Option Nat) (inEscape : Bool)

/-- **Where a scan ends that may not pass a wildcard**: behind the last separator in front of the first
one, at the beginning of the pattern if there is none, and at the end without a wildcard. -/
theorem Scan.runMarks_lead (i : Nat) (ms : List Mark) :
    Scan.runMarks false ⟨last?, false, inEscape⟩ i ms =
      (if Mark.wildcard ∈ ms then (behindSeparator? last? i ms).getD 0 else i + ms.length, false) := by
  induction ms generalizing last? i with
  | nil => rfl
  | cons m ms ih =>
    rw [Scan.runMarks]
    cases m with
    | wildcard => simp [Scan.read]
    | plain => simp [Scan.read, ih, Nat.add_assoc, Nat.add_comm 1]
    | separator => simp [Scan.read, ih, Nat.add_assoc, Nat.add_comm 1]

/-- Behind a wildcard a scan ends at the first separator. -/
theorem Scan.runMarks_behindWildcard (i : Nat) (ms : List Mark) :
    Scan.runMarks true ⟨none, true, inEscape⟩ i ms =
      (i + (ms.takeWhile (· != .separator)).length, true) := by
  induction ms generalizing i with
  | nil => rfl
  | cons m ms ih =>
    rw [Scan.runMarks]
    cases m with
    | separator => simp [Scan.read]
    | plain => simp [Scan.read, ih, Nat.add_assoc, Nat.add_comm 1]
    | wildcard => simp [Scan.read, ih, Nat.add_assoc, Nat.add_comm 1]

/-- **Where a scan ends that may pass a wildcard**: at the last separator in front of the first one, at
the first separator behind it if there is none, and at the end without a wildcard. -/
theorem Scan.runMarks_part (i : Nat) (ms : List Mark) :
    Scan.runMarks true ⟨last?, false, inEscape⟩ i ms =
      if Mark.wildcard ∈ ms then
        match behindSeparator? last? i ms with
        | some n => (n - 1, false)
        | none => (i + (ms.takeWhile (· != .separator)).length, true)
      else (i + ms.length, false) := by
  induction ms generalizing last? i with
  | nil => rfl
  | cons m ms ih =>
    rw [Scan.runMarks]
    cases m with
    | plain => simp [Scan.read, ih, Nat.add_assoc, Nat.add_comm 1]
    | separator =>
      -- there is a separator now, so a place behind the last one
      obtain ⟨n, hn⟩ : ∃ n, behindSeparator? (some i) (i + 1) ms = some n := by
        rw [← Option.isSome_iff_exists, behindSeparator?, Option.isSome_or]
        simp
      simp [Scan.read, ih, hn, Nat.add_assoc, Nat.add_comm 1]
    | wildcard =>
      cases last? with
      | some last => simp [Scan.read]
      | none => simp [Scan.read, Scan.runMarks_behindWildcard, Nat.add_assoc, Nat.add_comm 1]

end

/-! ## Stops -/

/-- **A scan finds the end of the part**, from every place of every pattern. -/
theorem scannedStop_eq (escapes : Bool) (pattern : Text) (position : Nat) (allowWildcard : Bool) :
    scannedStop escapes pattern position allowWildcard =
      partStop escapes pattern position allowWildcard := by
  rw [scannedStop, Scan.run_eq_runMarks escapes allowWildcard rfl, partStop]
  generalize min position pattern.length = start
  generalize marks escapes (pattern.drop position) = ms
  cases allowWildcard with
  | true =>
    rw [Scan.runMarks_part, partEnd, behindSeparator?]
    cases hlast : behindLastSeparator? (beforeWildcard ms) with
    | none => split <;> rfl
    | some n =>
      obtain ⟨hpos, -⟩ := behindLastSeparator?_bounds hlast
      have hstop : start + n - 1 = start + (n - 1) := by omega
      split <;> simp [hstop]
  | false =>
    rw [Scan.runMarks_lead, leadEnd?, behindSeparator?]
    split
    · cases behindLastSeparator? (beforeWildcard ms) <;> rfl
    · rfl

/-- **The next part is what a scan from its beginning finds.** -/
theorem Part.next_eq_scanned (escapes : Bool) (pattern : Text) :
    Part.next escapes pattern =
      let (stop, wild) := scannedStop escapes pattern 0 true
      ⟨pattern.take stop, wild,
        if stop = pattern.length then none else some (pattern.drop (stop + 1))⟩ := by
  rw [scannedStop_eq]
  simp [partStop, Part.next]

end PathGlob
