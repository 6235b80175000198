import PathGlob.Text
import PathGlob.Text.CaseFold.Table

/-! # Letters without regard to case
Two characters are the same letter if their small letters are equal or share their capital form.

* **`smallCode`** — the code point of the small letter of a character, its own if it has none.
* **`sameLetter`** — equality without regard to case.
* **`caseVariants`** — all code points that are the same letter as a given character. -/

namespace PathGlob

/-! ## Small letters -/

/-- The distance to the small letter, found in a list of runs in ascending order. -/
def smallShift? (n : Nat) : List CaseRun → Option Int
  | [] => none
  | r :: rs => if n < r.first then none else if r.holds n then some r.shift else smallShift? n rs

/-- The code point of the small letter of a code point. -/
def smallCode (n : Nat) : Nat :=
  match smallShift? n smallRuns with
  | some shift => (n + shift).toNat
  | none => n

/-- A shift that the search finds comes from a run that holds the code point. -/
theorem exists_run_of_smallShift? {n : Nat} {rs : List CaseRun} {s : Int}
    (h : smallShift? n rs = some s) : ∃ r ∈ rs, r.holds n = true ∧ r.shift = s := by
  induction rs with
  | nil => simp [smallShift?] at h
  | cons r rs ih =>
    rw [smallShift?] at h
    split at h
    · simp at h
    · split at h
      · exact ⟨r, by simp, by assumption, by simpa using h⟩
      · obtain ⟨q, hq, hn⟩ := ih h
        exact ⟨q, by simp [hq], hn⟩

/-! ## Letters with one capital form -/

/-- The small letters that have the same capital form as the small letter `n`, itself included. -/
def capitalGroup (n : Nat) : List Nat := (sharedCapitals.find? (·.contains n)).getD [n]

/-- A small letter belongs to its own group. -/
theorem mem_capitalGroup (n : Nat) : n ∈ capitalGroup n := by
  unfold capitalGroup
  cases h : sharedCapitals.find? (·.contains n) with
  | none => simp
  | some g => simpa using List.find?_some h

/-- Whether two characters are the same letter in either case. -/
def sameLetter (a b : Char) : Bool :=
  (capitalGroup (smallCode a.toNat)).contains (smallCode b.toNat)

/-- Every character is the same letter as itself. -/
@[simp] theorem sameLetter_self (c : Char) : sameLetter c c = true := by
  simpa [sameLetter] using mem_capitalGroup (smallCode c.toNat)

/-- Whether two characters are the same letter hangs on the small letter of the second alone. -/
theorem sameLetter_congr {a b c : Char} (h : smallCode b.toNat = smallCode c.toNat) :
    sameLetter a b = sameLetter a c := by
  simp [sameLetter, h]

/-! ## Variants -/

/-- The capital letter of a run whose small letter is `n`. -/
def CaseRun.capital? (r : CaseRun) (n : Nat) : Option Nat :=
  let m := ((n : Int) - r.shift).toNat
  if r.holds m then some m else none

/-- The code points of all characters that are the same letter as `c`. -/
def caseVariants (c : Char) : List Nat :=
  let group := capitalGroup (smallCode c.toNat)
  group ++ group.flatMap fun n => smallRuns.filterMap (·.capital? n)

/-- The variants of a character hang on its small letter alone. -/
theorem caseVariants_congr {a b : Char} (h : smallCode a.toNat = smallCode b.toNat) :
    caseVariants a = caseVariants b := by
  simp [caseVariants, h]

end PathGlob
