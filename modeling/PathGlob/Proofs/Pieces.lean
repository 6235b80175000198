import PathGlob.Text

/-! # Cutting and joining texts
Cutting a text at a separator and joining pieces with it are inverse to each other, and both respect
putting texts together.

* **`joinWith_pieces`**, **`pieces_joinWith`** — the two inverse laws.
* **`piecesBy_append_cons`**, **`joinWith_append`** — a separator between two texts cuts there.
* **`not_mem_of_mem_pieces`** — no piece has a separator. -/

namespace PathGlob

variable {c : Char}

/-! ## Joining -/

/-- A separator stands behind the first of several texts. -/
theorem joinWith_cons (t : Text) {ts : List Text} (h : ts ≠ []) :
    joinWith [c] (t :: ts) = t ++ c :: joinWith [c] ts := by
  cases ts with
  | nil => exact absurd rfl h
  | cons u us => simp

/-- The first of several texts stands in front when they are joined. -/
theorem exists_joinWith_cons (t : Text) (ts : List Text) :
    ∃ tail, joinWith [c] (t :: ts) = t ++ tail := by
  cases ts with
  | nil => exact ⟨[], by simp⟩
  | cons u us => exact ⟨_, joinWith_cons t (by simp)⟩

/-- A separator stands between two joined lists. -/
theorem joinWith_append {ts us : List Text} (ht : ts ≠ []) (hu : us ≠ []) :
    joinWith [c] (ts ++ us) = joinWith [c] ts ++ c :: joinWith [c] us := by
  induction ts with
  | nil => exact absurd rfl ht
  | cons t ts ih =>
    cases ts with
    | nil => exact joinWith_cons t hu
    | cons t' ts =>
      rw [List.cons_append, joinWith_cons t (by simp), ih (by simp), joinWith_cons t (by simp)]
      simp

/-- A character of joined texts is the separator or stands in one of them. -/
theorem eq_or_exists_of_mem_joinWith {d : Char} {ts : List Text} (h : d ∈ joinWith [c] ts) :
    d = c ∨ ∃ t ∈ ts, d ∈ t := by
  induction ts with
  | nil => cases h
  | cons t ts ih =>
    by_cases hts : ts = []
    · rw [hts, joinWith_singleton] at h
      exact .inr ⟨t, List.mem_cons_self, h⟩
    · rw [joinWith_cons t hts] at h
      rcases List.mem_append.1 h with h | h
      · exact .inr ⟨t, List.mem_cons_self, h⟩
      · rcases List.mem_cons.1 h with h | h
        · exact .inl h
        · exact (ih h).imp_right fun ⟨u, hu, hd⟩ => ⟨u, List.mem_cons_of_mem t hu, hd⟩

/-! ## Cutting -/

/-- A separator in front of a text is cut off. -/
@[simp] theorem pieces_cons_self (r : Text) : pieces c (c :: r) = [] :: pieces c r :=
  piecesBy_cons_of_sep (by simp) r

/-- A text has a piece. -/
theorem pieces_ne_nil (c : Char) (t : Text) : pieces c t ≠ [] := piecesBy_ne_nil _ t

/-- A character that does not separate belongs to the first piece. -/
theorem piecesBy_cons_of_not {sep : Char → Bool} {d : Char} (hd : sep d = false) (r : Text) :
    ∃ p ps, piecesBy sep r = p :: ps ∧ piecesBy sep (d :: r) = (d :: p) :: ps := by
  cases h : piecesBy sep r with
  | nil => exact absurd h (piecesBy_ne_nil sep r)
  | cons p ps =>
    refine ⟨p, ps, rfl, ?_⟩
    simp [piecesBy, hd, h]

/-- The same for a single separator. -/
theorem pieces_cons_of_ne {d : Char} (hd : d ≠ c) (r : Text) :
    ∃ p ps, pieces c r = p :: ps ∧ pieces c (d :: r) = (d :: p) :: ps :=
  piecesBy_cons_of_not (by simpa using hd) r

/-- **A separator between two texts cuts there.** -/
theorem piecesBy_append_cons {sep : Char → Bool} {x : Char} (hx : sep x = true) (a b : Text) :
    piecesBy sep (a ++ x :: b) = piecesBy sep a ++ piecesBy sep b := by
  induction a with
  | nil => exact piecesBy_cons_of_sep hx b
  | cons d a ih =>
    cases hd : sep d with
    | true =>
      rw [List.cons_append, piecesBy_cons_of_sep hd, piecesBy_cons_of_sep hd, ih, List.cons_append]
    | false =>
      -- the character goes to the first piece on both sides
      obtain ⟨p, ps, ha, hda⟩ := piecesBy_cons_of_not hd a
      obtain ⟨q, qs, hb, hdb⟩ := piecesBy_cons_of_not hd (a ++ x :: b)
      rw [ih, ha, List.cons_append, List.cons.injEq] at hb
      rw [List.cons_append, hda, hdb, ← hb.1, ← hb.2, List.cons_append]

/-- The same for a single separator. -/
theorem pieces_append_cons (a b : Text) : pieces c (a ++ c :: b) = pieces c a ++ pieces c b :=
  piecesBy_append_cons (by simp) a b

/-- A text without a separator is a single piece. -/
theorem pieces_of_not_mem {t : Text} (h : c ∉ t) : pieces c t = [t] := by
  induction t with
  | nil => rfl
  | cons d t ih =>
    rw [List.mem_cons, not_or] at h
    have hr : piecesBy (· == c) t = [t] := ih h.2
    have hd : ¬d = c := fun he => h.1 he.symm
    simp [pieces, piecesBy, hd, hr]

/-- Texts without a separator are read back from their joining. -/
theorem pieces_joinWith {ts : List Text} (hne : ts ≠ []) (h : ∀ t ∈ ts, c ∉ t) :
    pieces c (joinWith [c] ts) = ts := by
  induction ts with
  | nil => exact absurd rfl hne
  | cons t ts ih =>
    cases ts with
    | nil => exact pieces_of_not_mem (h t (by simp))
    | cons u us =>
      rw [joinWith_cons t (by simp), pieces_append_cons, pieces_of_not_mem (h t (by simp)),
        ih (by simp) fun x hx => h x (by simp [hx])]
      rfl

/-- **The pieces of a text, joined again, are the text.** -/
theorem joinWith_pieces (c : Char) (t : Text) : joinWith [c] (pieces c t) = t := by
  induction t with
  | nil => rfl
  | cons d t ih =>
    by_cases hd : d = c
    · subst hd
      rw [pieces_cons_self, joinWith_cons [] (pieces_ne_nil d t), ih]
      rfl
    · obtain ⟨p, ps, hp, hcut⟩ := pieces_cons_of_ne hd t
      rw [hcut, ← ih, hp]
      cases ps <;> simp

/-- No piece has a separator. -/
theorem not_mem_of_mem_pieces {t u : Text} (h : u ∈ pieces c t) : c ∉ u := by
  induction t generalizing u with
  | nil =>
    obtain rfl : u = [] := by simpa [pieces] using h
    simp
  | cons d t ih =>
    by_cases hd : d = c
    · subst hd
      rw [pieces_cons_self] at h
      rcases List.mem_cons.1 h with rfl | hu
      · simp
      · exact ih hu
    · obtain ⟨p, ps, hp, hcut⟩ := pieces_cons_of_ne hd t
      rw [hcut] at h
      rw [hp] at ih
      rcases List.mem_cons.1 h with rfl | hu
      · rw [List.mem_cons, not_or]
        exact ⟨fun he => hd he.symm, ih (by simp)⟩
      · exact ih (by simp [hu])

/-- The pieces of a text have no other characters than the text. -/
theorem mem_of_mem_pieces {t u : Text} (h : u ∈ pieces c t) {d : Char} (hd : d ∈ u) : d ∈ t := by
  obtain ⟨us, vs, hsplit⟩ := List.append_of_mem h
  have hjoin := joinWith_pieces c t
  rw [hsplit] at hjoin
  rw [← hjoin]
  have hu : d ∈ joinWith [c] (u :: vs) := by
    cases vs with
    | nil => exact hd
    | cons v vs =>
      rw [joinWith_cons u (by simp)]
      exact List.mem_append_left _ hd
  cases us with
  | nil => exact hu
  | cons w us =>
    rw [joinWith_append (by simp) (by simp)]
    exact List.mem_append_right _ (List.mem_cons_of_mem _ hu)

/-! ## The end of a text -/

/-- A text ends in `c` if it has the form `t` and then `c`. -/
theorem endsIn_iff {t : Text} : endsIn c t = true ↔ ∃ u, t = u ++ [c] := by
  rw [endsIn, beq_iff_eq, List.getLast?_eq_some_iff]

/-- A text without the character does not end in it. -/
theorem endsIn_of_not_mem {t : Text} (h : c ∉ t) : endsIn c t = false := by
  rw [Bool.eq_false_iff, Ne, endsIn_iff]
  rintro ⟨u, rfl⟩
  exact h (by simp)

/-- Behind something, the end is that of what is there. -/
theorem endsIn_append (t : Text) {u : Text} (h : u ≠ []) : endsIn c (t ++ u) = endsIn c u := by
  unfold endsIn
  rw [List.getLast?_append, List.getLast?_eq_some_getLast h]
  rfl

/-- The same behind a separator. -/
theorem endsIn_append_cons (t : Text) (x : Char) {u : Text} (h : u ≠ []) :
    endsIn c (t ++ x :: u) = endsIn c u := by
  rw [List.append_cons, endsIn_append _ h]

/-- The last of joined texts decides how the joining ends. -/
theorem endsIn_joinWith {ts : List Text} (hne : ts ≠ []) (h : ∀ t ∈ ts, c ∉ t) :
    endsIn c (joinWith [c] ts) = true ↔ 2 ≤ ts.length ∧ ts.getLast? = some [] := by
  induction ts with
  | nil => exact absurd rfl hne
  | cons t ts ih =>
    cases ts with
    | nil =>
      have ht : c ∉ t := h t (by simp)
      constructor
      · intro he
        obtain ⟨u, rfl⟩ := endsIn_iff.1 he
        simp at ht
      · simp
    | cons u us =>
      rw [joinWith_cons t (by simp), List.getLast?_cons_cons]
      -- what is behind the separator ends in it, or nothing is
      have hlast : endsIn c (t ++ c :: joinWith [c] (u :: us)) = true ↔
          joinWith [c] (u :: us) = [] ∨ endsIn c (joinWith [c] (u :: us)) = true := by
        cases hj : joinWith [c] (u :: us) with
        | nil => simp [endsIn]
        | cons d r => simp [endsIn, List.getLast?_append]
      rw [hlast, ih (by simp) fun x hx => h x (by simp [hx])]
      cases us with
      | nil => simp
      | cons v vs => simp [joinWith_cons u (List.cons_ne_nil v vs)]

/-- A text whose last piece is empty ends in the separator. -/
theorem endsIn_of_getLast?_pieces {t : Text} (hne : t ≠ [])
    (h : (pieces c t).getLast? = some []) : endsIn c t = true := by
  rw [← joinWith_pieces c t, endsIn_joinWith (pieces_ne_nil c t) fun u hu => not_mem_of_mem_pieces hu]
  refine ⟨?_, h⟩
  match hp : pieces c t with
  | [] => exact absurd hp (pieces_ne_nil c t)
  | [u] =>
    -- a single empty piece is that of the empty text
    obtain rfl : u = [] := by simpa [hp] using h
    have hjoin := joinWith_pieces c t
    rw [hp] at hjoin
    exact absurd hjoin.symm hne
  | _ :: _ :: _ => simp

end PathGlob
