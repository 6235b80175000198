import PathGlob.Namespace
import PathGlob.Proofs.Pieces

/-! # Paths and locations
A path is followed piece by piece, so a path with a further name leads to a child of the place that
the path means, and the path of a location leads back to the location.

* **`IsName`** — the texts that are names of entries.
* **`follow_of_names`** — following names goes down by exactly these names.
* **`locateFrom_joinPath`** — the place of a joined path.
* **`locateFrom_text`**, **`lastName_text`** — the path of a location is read back.
* **`locateFrom_isName`** — a path leads to places with proper names only. -/

namespace PathGlob

/-! ## Names -/

/-- **A name of an entry**: a text that is no reference to a directory and has no separator, neither
a slash nor a backslash. -/
def IsName (name : Text) : Prop := isEntryName name = true ∧ '\\' ∉ name

/-- What a name is not, and what it has not. -/
theorem isName_iff {name : Text} :
    IsName name ↔ name ≠ [] ∧ name ≠ ['.'] ∧ name ≠ ['.', '.'] ∧ '/' ∉ name ∧ '\\' ∉ name := by
  simp [IsName, isEntryName, and_assoc]

instance (name : Text) : Decidable (IsName name) := inferInstanceAs (Decidable (_ ∧ _))

theorem IsName.ne_nil {name : Text} (h : IsName name) : name ≠ [] := (isName_iff.1 h).1

theorem IsName.slash_not_mem {name : Text} (h : IsName name) : '/' ∉ name :=
  (isName_iff.1 h).2.2.2.1

theorem IsName.backslash_not_mem {name : Text} (h : IsName name) : '\\' ∉ name := h.2

/-- A name leads to a child. -/
theorem stepInto_of_isName {name : Text} (h : IsName name) (l : Location) :
    stepInto l name = name :: l := by
  obtain ⟨h₁, h₂, h₃, -⟩ := isName_iff.1 h
  simp [stepInto, h₁, h₂, h₃]

@[simp] theorem stepInto_nil (l : Location) : stepInto l [] = l := by simp [stepInto]

/-- **Following names goes down by these names.** -/
theorem follow_of_names {names : List Text} (h : ∀ name ∈ names, IsName name) (l : Location) :
    follow l names = names.reverse ++ l := by
  induction names generalizing l with
  | nil => rfl
  | cons name names ih =>
    rw [follow_cons, stepInto_of_isName (h name (by simp)), ih fun x hx => h x (by simp [hx])]
    simp

/-! ## Slashes -/

@[simp] theorem withSlashes_nil : withSlashes [] = [] := rfl

@[simp] theorem withSlashes_append (s t : Text) :
    withSlashes (s ++ t) = withSlashes s ++ withSlashes t := List.map_append

@[simp] theorem withSlashes_slash (t : Text) : withSlashes ('/' :: t) = '/' :: withSlashes t := rfl

/-- A text without a backslash stays as it is. -/
theorem withSlashes_of_not_mem {t : Text} (h : '\\' ∉ t) : withSlashes t = t := by
  unfold withSlashes
  rw [List.map_congr_left (g := id), List.map_id]
  intro c hc
  have hne : c ≠ '\\' := fun he => h (he ▸ hc)
  simp [hne]

/-- No backslash is left. -/
theorem backslash_not_mem_withSlashes (t : Text) : '\\' ∉ withSlashes t := by
  unfold withSlashes
  rw [List.mem_map]
  rintro ⟨c, -, hc⟩
  split at hc
  · cases hc
  · contradiction

/-! ## Places of paths -/

/-- The place at which a path begins. -/
def originOf (start : Location) (path : Text) : Location :=
  if beginsWith ['/'] (withSlashes path) then rootLocation else start

theorem locateFrom_eq (start : Location) (path : Text) :
    locateFrom start path = follow (originOf start path) (pieces '/' (withSlashes path)) := rfl

/-- What stands behind a text does not change where it begins. -/
theorem originOf_append (start : Location) {path : Text} (h : path ≠ []) (t : Text) :
    originOf start (path ++ t) = originOf start path := by
  cases path with
  | nil => exact absurd rfl h
  | cons c r => simp [originOf, beginsWith, withSlashes]

/-- The place of a path with something behind a separator. -/
theorem locateFrom_append_slash (start : Location) {path : Text} (h : path ≠ []) (t : Text) :
    locateFrom start (path ++ '/' :: t) =
      follow (locateFrom start path) (pieces '/' (withSlashes t)) := by
  rw [locateFrom_eq, locateFrom_eq, originOf_append start h, withSlashes_append, withSlashes_slash,
    pieces_append_cons, follow_append]

/-- A separator at the end of a path does not change the place. -/
theorem locateFrom_slash_end (start : Location) {path : Text} (h : path ≠ []) :
    locateFrom start (path ++ ['/']) = locateFrom start path := by
  rw [locateFrom_append_slash start h]
  exact stepInto_nil _

/-- The place of an absolute path. -/
theorem locateFrom_slash (start : Location) (t : Text) :
    locateFrom start ('/' :: t) = follow rootLocation (pieces '/' (withSlashes t)) := by
  rw [locateFrom_eq, withSlashes_slash, pieces_cons_self, follow_cons, stepInto_nil]
  rfl

/-- **The place of a joined path.** -/
theorem locateFrom_joinPath (start : Location) {base : Text} (h : base ≠ []) (t : Text) :
    locateFrom start (joinPath base t) =
      follow (locateFrom start base) (pieces '/' (withSlashes t)) := by
  unfold joinPath
  split
  · rename_i he
    obtain ⟨u, rfl⟩ := endsIn_iff.1 he
    rw [List.append_assoc, List.singleton_append]
    cases u with
    | nil =>
      -- the base is the root
      rw [List.nil_append, List.nil_append, locateFrom_slash, locateFrom_slash]
      rfl
    | cons c u =>
      rw [locateFrom_append_slash start (by simp), locateFrom_slash_end start (by simp)]
  · exact locateFrom_append_slash start h t

/-! ## Paths of locations -/

/-- The path of a child is that of its parent with its name. -/
theorem Location.text_cons (name : Text) (l : Location) :
    Location.text (name :: l) = (if l = [] then [] else Location.text l) ++ '/' :: name := by
  unfold Location.text
  rw [List.reverse_cons]
  by_cases hl : l = []
  · subst hl
    simp
  · rw [joinWith_append (by simpa using hl) (by simp), if_neg hl]
    simp

/-- The path of a location of names has no backslash. -/
theorem backslash_not_mem_text {l : Location} (h : ∀ name ∈ l, IsName name) :
    '\\' ∉ Location.text l := by
  induction l with
  | nil => simp
  | cons name l ih =>
    have hl := ih fun x hx => h x (by simp [hx])
    have hn := (h name (by simp)).backslash_not_mem
    rw [Location.text_cons]
    split <;> simp [hn, hl]

/-- **The path of a location leads to the location.** -/
theorem locateFrom_text (start : Location) {l : Location} (h : ∀ name ∈ l, IsName name) :
    locateFrom start (Location.text l) = l := by
  have hb : '\\' ∉ Location.text l := backslash_not_mem_text h
  unfold Location.text at hb ⊢
  rw [List.mem_cons, not_or] at hb
  rw [locateFrom_slash, withSlashes_of_not_mem hb.2]
  by_cases hl : l = []
  · subst hl
    rfl
  · have hrev : ∀ name ∈ l.reverse, IsName name := fun name hn => h name (List.mem_reverse.1 hn)
    rw [pieces_joinWith (by simpa using hl) fun name hn => (hrev name hn).slash_not_mem,
      follow_of_names hrev]
    simp [rootLocation]

/-- **The last name of the path of a child is its name.** -/
theorem lastName_text {name : Text} (h : IsName name) (l : Location) :
    lastName (Location.text (name :: l)) = name := by
  rw [Location.text_cons]
  generalize (if l = [] then [] else Location.text l) = parent
  have hrev : (parent ++ '/' :: name).reverse = name.reverse ++ '/' :: parent.reverse := by simp
  -- the name is not empty and has no separator, so that none stands at the end
  have hkeep : dropTrailingSlashes (parent ++ '/' :: name) = parent ++ '/' :: name := by
    unfold dropTrailingSlashes
    rw [hrev]
    cases hn : name.reverse with
    | nil => exact absurd (List.reverse_eq_nil_iff.1 hn) h.ne_nil
    | cons c r =>
      have hc : c ≠ '/' := by
        rintro rfl
        exact h.slash_not_mem (List.mem_reverse.1 (hn ▸ List.mem_cons_self))
      rw [List.cons_append, List.dropWhile_cons_of_neg (by simpa using hc), ← List.cons_append,
        ← hn, ← hrev, List.reverse_reverse]
  have hname : ∀ c ∈ name.reverse, (c != '/') = true := by
    intro c hc
    have hne : c ≠ '/' := fun he => h.slash_not_mem (List.mem_reverse.1 (he ▸ hc))
    simpa using hne
  unfold lastName
  rw [hkeep, hrev, List.takeWhile_append_of_pos hname]
  simp

/-! ## Places with proper names -/

/-- A piece without separators keeps all names proper. -/
theorem isName_of_mem_stepInto {l : Location} (h : ∀ name ∈ l, IsName name) {t : Text}
    (hs : '/' ∉ t) (hb : '\\' ∉ t) : ∀ name ∈ stepInto l t, IsName name := by
  intro name hname
  unfold stepInto at hname
  split at hname
  · exact h name hname
  · rename_i h₁
    split at hname
    · exact h name (List.mem_of_mem_tail hname)
    · rename_i h₂
      rw [not_or] at h₁
      rcases List.mem_cons.1 hname with rfl | hl
      · exact isName_iff.2 ⟨h₁.1, h₁.2, h₂, hs, hb⟩
      · exact h name hl

/-- Pieces without separators keep all names proper. -/
theorem isName_of_mem_follow {ts : List Text} (hts : ∀ t ∈ ts, '/' ∉ t ∧ '\\' ∉ t) {l : Location}
    (h : ∀ name ∈ l, IsName name) : ∀ name ∈ follow l ts, IsName name := by
  induction ts generalizing l with
  | nil => exact h
  | cons t ts ih =>
    rw [follow_cons]
    have ht := hts t (by simp)
    exact ih (fun x hx => hts x (by simp [hx])) (isName_of_mem_stepInto h ht.1 ht.2)

/-- **A path leads to places with proper names only.** -/
theorem locateFrom_isName {start : Location} (h : ∀ name ∈ start, IsName name) (path : Text) :
    ∀ name ∈ locateFrom start path, IsName name := by
  rw [locateFrom_eq]
  apply isName_of_mem_follow
  · intro t ht
    exact ⟨not_mem_of_mem_pieces ht,
      fun hb => backslash_not_mem_withSlashes path (mem_of_mem_pieces ht hb)⟩
  · unfold originOf
    split
    · simp [rootLocation]
    · exact h

end PathGlob
