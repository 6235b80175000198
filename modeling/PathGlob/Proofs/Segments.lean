import PathGlob.Proofs.Pieces

/-! # The segments of a pattern
A pattern is cut at every separator; the separator with which an absolute pattern begins only says
where it starts.

* **`segmentsOf`** — the segments of a pattern.
* **`segmentsOf_append_cons`** — the segments of patterns that are put together.
* **`segmentsOf_cases`** — only a leading piece may be no segment, and then it is empty. -/

namespace PathGlob

variable {pattern : Text}

/-- The segments of a pattern; the separator with which an absolute one begins belongs to none. -/
def segmentsOf (pattern : Text) : List Text :=
  if beginsWith ['/'] pattern then (pieces '/' pattern).tail else pieces '/' pattern

/-- The segments of a relative pattern are its pieces. -/
theorem segmentsOf_of_relative (h : beginsWith ['/'] pattern = false) :
    segmentsOf pattern = pieces '/' pattern := if_neg (by simp [h])

/-- Only the empty piece in front of an absolute pattern is no segment. -/
theorem segmentsOf_cases (h : pattern ≠ []) :
    pieces '/' pattern = [] :: segmentsOf pattern ∨
      ∃ p ps, p ≠ [] ∧ pieces '/' pattern = p :: ps ∧ segmentsOf pattern = p :: ps := by
  cases pattern with
  | nil => exact absurd rfl h
  | cons c r =>
    by_cases hc : c = '/'
    · subst hc
      exact .inl (by simp [segmentsOf, beginsWith])
    · -- the first character belongs to the first piece
      obtain ⟨p, ps, -, hcut⟩ := pieces_cons_of_ne hc r
      have hbegin : beginsWith ['/'] (c :: r) = false := by
        simp [beginsWith, List.isPrefixOf, Ne.symm hc]
      exact .inr ⟨c :: p, ps, by simp, hcut, by rw [segmentsOf_of_relative hbegin, hcut]⟩

/-- A pattern has segments. -/
theorem segmentsOf_ne_nil (pattern : Text) : segmentsOf pattern ≠ [] := by
  unfold segmentsOf
  split
  · rename_i h
    cases pattern with
    | nil => cases h
    | cons c r =>
      obtain rfl : '/' = c := by simpa [beginsWith] using h
      rw [pieces_cons_self, List.tail_cons]
      exact pieces_ne_nil '/' r
  · exact pieces_ne_nil '/' pattern

/-- The segments of a pattern are pieces of it. -/
theorem mem_pieces_of_mem_segmentsOf {seg : Text} (h : seg ∈ segmentsOf pattern) :
    seg ∈ pieces '/' pattern := by
  unfold segmentsOf at h
  split at h
  · exact List.mem_of_mem_tail h
  · exact h

/-- The last segment of a pattern is its last piece. -/
theorem getLast?_segmentsOf (h : pattern ≠ []) :
    (segmentsOf pattern).getLast? = (pieces '/' pattern).getLast? := by
  rcases segmentsOf_cases h with hcut | ⟨p, ps, -, hcut, hsegs⟩
  · rw [hcut, List.getLast?_cons_of_ne_nil (segmentsOf_ne_nil pattern)]
  · rw [hcut, hsegs]

/-- No segment is empty if no piece behind the first one is. -/
theorem ne_nil_of_mem_segmentsOf (h : pattern ≠ [])
    (hp : ∀ seg ∈ (pieces '/' pattern).tail, seg ≠ []) : ∀ seg ∈ segmentsOf pattern, seg ≠ [] := by
  rcases segmentsOf_cases h with hcut | ⟨p, ps, hne, hcut, hsegs⟩
  · rwa [hcut] at hp
  · rw [hcut] at hp
    rw [hsegs]
    simpa [hne] using hp

/-- No segment but the last one is empty if no piece behind the first one and before the last one
is. -/
theorem ne_nil_of_mem_dropLast_segmentsOf (h : pattern ≠ [])
    (hp : ∀ seg ∈ (pieces '/' pattern).tail.dropLast, seg ≠ []) :
    ∀ seg ∈ (segmentsOf pattern).dropLast, seg ≠ [] := by
  rcases segmentsOf_cases h with hcut | ⟨p, ps, hne, hcut, hsegs⟩
  · rwa [hcut] at hp
  · rw [hcut] at hp
    rw [hsegs]
    cases ps with
    | nil => simp
    | cons q qs =>
      rw [List.dropLast_cons_cons]
      simpa [hne] using hp

/-! ## Patterns put together -/

/-- What is put behind a pattern does not change how it begins. -/
theorem beginsWith_append_of_ne_nil (h : pattern ≠ []) (t : Text) :
    beginsWith ['/'] (pattern ++ t) = beginsWith ['/'] pattern := by
  cases pattern with
  | nil => exact absurd rfl h
  | cons c r => simp [beginsWith, List.isPrefixOf]

/-- **The segments of what is put together** are those of the first pattern and the pieces of what
stands behind the separator. -/
theorem segmentsOf_append_cons (h : pattern ≠ []) (t : Text) :
    segmentsOf (pattern ++ '/' :: t) = segmentsOf pattern ++ pieces '/' t := by
  unfold segmentsOf
  rw [beginsWith_append_of_ne_nil h, pieces_append_cons]
  split
  · exact List.tail_append_of_ne_nil (pieces_ne_nil '/' pattern)
  · rfl

end PathGlob
