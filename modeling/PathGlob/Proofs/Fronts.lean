import PathGlob.Proofs.Namespace.Walks

/-! # Fronts of patterns
The parts of a pattern in front of a wildcard that begins a segment do not hang on what stands behind
that wildcard.

* **`IsFront`** — a text behind which a segment begins.
* **`Front`** — a front that does not end in a `**`, without escapes and drive marks.
* **`Front.exists_next`** — the next part of a pattern with a front.
* **`Front.exists_start`** — the beginning of its walk. -/

namespace PathGlob

variable {fs : Flags} {front : Text}

/-- A text behind which a segment begins: it is empty or ends in a separator. -/
def IsFront (t : Text) : Prop := t = [] ∨ endsIn '/' t = true

/-- What stands behind a separator in a front is a front. -/
theorem IsFront.of_append_cons {t u : Text} (h : endsIn '/' (t ++ '/' :: u) = true) : IsFront u := by
  by_cases hu : u = []
  · exact .inl hu
  · rw [endsIn_append_cons t '/' hu] at h
    exact .inr h

/-- A front stays one behind a separator. -/
theorem IsFront.append_cons {u : Text} (h : IsFront u) (t : Text) : IsFront (t ++ '/' :: u) := by
  rcases h with rfl | hu
  · exact .inr (endsIn_iff.2 ⟨t, rfl⟩)
  · by_cases hne : u = []
    · subst hne
      cases hu
    · exact .inr (by rwa [endsIn_append_cons t '/' hne])

/-- A `**` in front of a pattern. -/
def starred (pattern : Text) : Text := doubleStar ++ '/' :: pattern

/-- **A front that does not end in a `**`**, without escapes and drive marks. -/
structure Front (front : Text) : Prop where
  /-- A segment begins behind it. -/
  ends : IsFront front
  /-- There is no escape. -/
  backslash : '\\' ∉ front
  /-- There is no drive mark. -/
  colon : ':' ∉ front
  /-- The segment at its end is no `**`. -/
  not_starred : ¬∃ t, IsFront t ∧ front = t ++ starred []

/-- What stands behind a separator in a front has the properties of the front. -/
theorem Front.of_append_cons {t u : Text} (h : Front (t ++ '/' :: u)) : Front u where
  ends := by
    rcases h.ends with hnil | hend
    · simp at hnil
    · exact .of_append_cons hend
  backslash := fun hb => h.backslash (by simp [hb])
  colon := fun hc => h.colon (by simp [hc])
  not_starred := by
    rintro ⟨v, hv, rfl⟩
    exact h.not_starred ⟨t ++ '/' :: v, hv.append_cons t, by simp⟩

/-- **The first part of a front**: a segment with a wildcard, or segments without one in front of a
segment that has a wildcard, which may be what follows the front. -/
theorem exists_split_front (fs : Flags) (hend : endsIn '/' front = true) (hb : '\\' ∉ front)
    (hc : ':' ∉ front) :
    ∃ text front', front = text ++ '/' :: front' ∧
      (fs.isWild text = true ∧ '/' ∉ text ∨
        fs.isWild text = false ∧ ∀ w, ∃ seg tail, front' ++ '*' :: w = seg ++ tail ∧
          WildSegment fs seg) := by
  obtain ⟨lits, rest, hsplit, hlits, hrest⟩ := exists_literals fs (pieces '/' front)
  have hjoin : front = joinWith ['/'] (lits ++ rest) := by rw [← hsplit, joinWith_pieces]
  have hpiece : ∀ seg ∈ lits ++ rest, WellEscaped fs.escapes seg ∧ '/' ∉ seg ∧ ':' ∉ seg := by
    intro seg hseg
    rw [← hsplit] at hseg
    exact ⟨.of_not_mem fun h => hb (mem_of_mem_pieces hseg h), not_mem_of_mem_pieces hseg,
      fun h => hc (mem_of_mem_pieces hseg h)⟩
  have hplain : fs.isWild (joinWith ['/'] lits) = false :=
    fs.isWild_joinWith (fun seg hseg => (hpiece seg (by simp [hseg])).1) hlits
  have hlast : (lits ++ rest).getLast? = some [] := by
    rw [← hsplit]
    rw [← joinWith_pieces '/' front,
      endsIn_joinWith (pieces_ne_nil '/' front) fun u hu => not_mem_of_mem_pieces hu] at hend
    exact hend.2
  cases rest with
  | nil =>
    -- without a wildcard in the front the next one is that behind it
    obtain ⟨u, rfl⟩ := endsIn_iff.1 hend
    refine ⟨u, [], rfl, .inr ⟨?_, fun w => ⟨['*'], w, rfl, wildSegment_star fs⟩⟩⟩
    rw [List.append_nil] at hjoin
    have hu : WellEscaped fs.escapes u := .of_not_mem fun h => hb (by simp [h])
    rw [← hjoin, Flags.isWild_eq_false_iff, hu.marks_append] at hplain
    exact Flags.isWild_eq_false_iff.2 fun h => hplain (List.mem_append_left _ h)
  | cons seg more =>
    have hw : fs.isWild seg = true := hrest seg rfl
    obtain ⟨hesc, hslash, hcolon⟩ := hpiece seg (by simp)
    -- the front ends in a separator, so its last piece is empty and is not the segment
    have hmore : more ≠ [] := by
      rintro rfl
      obtain rfl : seg = [] := by simpa using hlast
      cases hw
    have htail : joinWith ['/'] (seg :: more) = seg ++ '/' :: joinWith ['/'] more :=
      joinWith_cons seg hmore
    by_cases hl : lits = []
    · subst hl
      rw [List.nil_append, htail] at hjoin
      exact ⟨seg, _, hjoin, .inl ⟨hw, hslash⟩⟩
    · rw [joinWith_append hl (by simp)] at hjoin
      refine ⟨_, _, hjoin, .inr ⟨hplain, fun w => ?_⟩⟩
      exact ⟨seg, '/' :: (joinWith ['/'] more ++ '*' :: w), by rw [htail]; simp,
        hesc.wildSegment hw hslash hcolon⟩

/-- **The next part of a pattern with a front** does not hang on what stands behind the wildcard. -/
theorem Front.exists_next (h : Front front) (hne : front ≠ []) (fs : Flags) :
    ∃ text wild front', front = text ++ '/' :: front' ∧ Front front' ∧
      ∀ w, Part.next fs.escapes (front ++ '*' :: w) = ⟨text, wild, some (front' ++ '*' :: w)⟩ := by
  obtain ⟨text, front', rfl, hcases⟩ :=
    exists_split_front fs (h.ends.resolve_left hne) h.backslash h.colon
  have hesc : WellEscaped fs.escapes text := .of_not_mem fun hb => h.backslash (by simp [hb])
  refine ⟨text, fs.isWild text, front', rfl, h.of_append_cons, ?_⟩
  intro w
  rw [List.append_assoc, List.cons_append]
  rcases hcases with ⟨hw, hslash⟩ | ⟨hw, htail⟩
  · rw [hw]
    have htext := hesc.wildSegment hw hslash fun hc => h.colon (by simp [hc])
    exact Part.next_segment_cons htext _
  · obtain ⟨seg, tail, hcut, hseg⟩ := htail w
    rw [hw, hcut]
    exact Part.next_lead hesc hw hseg tail

/-- **The walk of a pattern with a front** begins with a visit that does not hang on what stands
behind the wildcard, except for whether only directories are wanted. -/
theorem Front.exists_start (ε : Type) (h : Front front) (fs : Flags) (d : Bool) :
    ∃ sc base front', sc.flags = fs ∧ Front front' ∧ ∀ w, endsIn '/' (front ++ '*' :: w) = d →
      '/' ∈ w → ':' ∉ w →
        (startJobs fs (front ++ '*' :: w) : List (Job ε)) =
          [.visit sc base (front' ++ '*' :: w) false] := by
  by_cases ha : beginsWith ['/'] front = true
  · cases front with
    | nil => cases ha
    | cons c r =>
      obtain rfl : '/' = c := by simpa [beginsWith] using ha
      obtain ⟨text, front', hsplit, hcases⟩ :=
        exists_split_front fs (h.ends.resolve_left (by simp)) h.backslash h.colon
      have hesc : WellEscaped fs.escapes text :=
        .of_not_mem fun hb => h.backslash (by rw [hsplit]; simp [hb])
      have hfront' : Front front' := by
        rw [hsplit] at h
        exact h.of_append_cons
      refine ⟨⟨fs, d, false⟩, text ++ ['/'], front', rfl, hfront', ?_⟩
      intro w hend _ _
      rcases hcases with ⟨hw, hslash⟩ | ⟨hw, htail⟩
      · -- the pattern is absolute, so a first segment with a wildcard would have the separator
        cases text with
        | nil => cases hw
        | cons x text =>
          obtain rfl : '/' = x := (List.cons.inj hsplit).1
          exact absurd List.mem_cons_self hslash
      · obtain ⟨seg, tail, hcut, hseg⟩ := htail w
        rw [List.cons_append] at hend ⊢
        rw [startJobs_of_lead text tail _ hesc hw hseg, hend, hcut]
        rw [← List.cons_append, hsplit, List.append_assoc, List.cons_append, hcut]
  · refine ⟨⟨fs, d, true⟩, currentDirectory, front, rfl, h, ?_⟩
    intro w hend hslash hcolon
    have hstar : front ++ '*' :: w ≠ doubleStar := ne_doubleStar_of_mem (by simp [hslash])
    have hanchored : isAnchored (front ++ '*' :: w) = false := by
      have hbegin : beginsWith ['/'] (front ++ '*' :: w) = false := by
        cases front with
        | nil => rfl
        | cons c r =>
          rw [beginsWith_append_of_ne_nil (by simp)]
          simpa using ha
      simp [isAnchored, hbegin, h.colon, hcolon]
    rw [startJobs_of_relative (by simp) hstar hanchored, hend]

end PathGlob
