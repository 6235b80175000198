import Mathlib.Data.List.Nodup
import Mathlib.Data.List.TakeWhile
import PathGlob.Proofs.Namespace.Tree

/-! # Canonical paths
Paths are kept in one form only, that of the path of a place, so that a place is known by its path, and
the path of the directory above it is found in its text.

* **`IsCanonical`** — the form in which paths are kept; **`isCanonical_text`** says that the paths of
  places have it.
* **`text_inj`** — a place is known by its path.
* **`dirName`** — the path of the directory in which a path stands; **`dirName_text`** says that it is that
  of the parent.
* **`Namespace.IsTree.kind?_location`** — a node says what is at its place. -/

namespace PathGlob

variable {s : Namespace} {l l' : Location} {name : Text}

/-! ## Canonical paths -/

/-- The path of the directory in which a path stands: all in front of the last name, without the
separators at its end unless there are only separators. -/
def dirName (path : Text) : Text :=
  let front := (path.reverse.dropWhile (· != '/')).reverse
  if front.all (· == '/') then front else dropTrailingSlashes front

/-- **The form in which paths are kept**: from the root, with slashes only, and apart from that of the
root itself with proper names between the slashes. -/
structure IsCanonical (path : Text) : Prop where
  /-- It begins at the root. -/
  absolute : beginsWith ['/'] path = true
  /-- It has no backslash. -/
  backslash : '\\' ∉ path
  /-- Its names are not empty and no references to a directory. -/
  names : path = ['/'] ∨ ∀ name ∈ (pieces '/' path).tail, name ≠ [] ∧ name ≠ ['.'] ∧ name ≠ ['.', '.']

/-- **The path of a place of proper names is canonical.** -/
theorem isCanonical_text (h : ∀ name ∈ l, IsName name) : IsCanonical l.text where
  absolute := rfl
  backslash := backslash_not_mem_text h
  names := by
    by_cases hl : l = []
    · left
      rw [hl, Location.text_nil]
    · right
      intro name hname
      have hrev : ∀ name ∈ l.reverse, '/' ∉ name :=
        fun name hn => (h name (List.mem_reverse.1 hn)).slash_not_mem
      rw [Location.text, pieces_cons_self, List.tail_cons,
        pieces_joinWith (by simpa using hl) hrev, List.mem_reverse] at hname
      obtain ⟨hne, hdot, hdots, -⟩ := isName_iff.1 (h name hname)
      exact ⟨hne, hdot, hdots⟩

/-- A place of proper names is known by its path. -/
theorem text_inj (h : ∀ name ∈ l, IsName name) (h' : ∀ name ∈ l', IsName name)
    (heq : l.text = l'.text) : l = l' := by
  rw [← locateFrom_text rootLocation h, heq, locateFrom_text rootLocation h']

/-- The path of a place other than the root does not end in a separator. -/
theorem endsIn_text_cons (h : IsName name) (l : Location) :
    endsIn '/' (Location.text (name :: l)) = false := by
  rw [Location.text_cons, endsIn_append_cons _ _ h.ne_nil]
  cases hend : endsIn '/' name with
  | false => rfl
  | true =>
    obtain ⟨u, rfl⟩ := endsIn_iff.1 hend
    exact absurd (List.mem_append_right u (List.mem_singleton_self '/')) h.slash_not_mem

/-- Without a separator at its end nothing is dropped from a text. -/
theorem dropTrailingSlashes_of_endsIn {t : Text} (h : endsIn '/' t = false) :
    dropTrailingSlashes t = t := by
  unfold dropTrailingSlashes
  have hkeep : t.reverse.dropWhile (· == '/') = t.reverse := by
    rw [List.dropWhile_eq_self_iff]
    intro hpos hslash
    have hhead : t.reverse.head? = some '/' := by
      rw [List.head?_eq_getElem?, List.getElem?_eq_getElem hpos]
      simpa using hslash
    rw [List.head?_reverse] at hhead
    simp [endsIn, hhead] at h
  rw [hkeep, List.reverse_reverse]

/-- **The directory in which the path of a child stands is that of its parent.** -/
theorem dirName_text (h : ∀ x ∈ name :: l, IsName x) :
    dirName (Location.text (name :: l)) = l.text := by
  have hname : ∀ c ∈ name.reverse, (c != '/') = true := by
    intro c hc
    have hne : c ≠ '/' :=
      fun he => (h name List.mem_cons_self).slash_not_mem (List.mem_reverse.1 (he ▸ hc))
    simpa using hne
  have hfront : ∀ parent : Text,
      ((parent ++ '/' :: name).reverse.dropWhile (· != '/')).reverse = parent ++ ['/'] := by
    intro parent
    rw [List.reverse_append, List.reverse_cons, List.append_assoc,
      List.dropWhile_append_of_pos hname]
    simp
  unfold dirName
  rw [Location.text_cons, hfront]
  cases l with
  | nil => rfl
  | cons up l =>
    -- the name above is not made of separators, so the one behind it is dropped
    have hup : IsName up := h up (by simp)
    have hend := endsIn_text_cons hup l
    rw [if_neg (List.cons_ne_nil up l)]
    have hother : ¬(Location.text (up :: l) ++ ['/']).all (· == '/') = true := by
      rw [List.all_append, Bool.and_eq_true, not_and_or]
      left
      intro hall
      have hlast : Location.text (up :: l) ≠ [] := by simp [Location.text]
      have hslash := List.all_eq_true.1 hall _ (List.getLast_mem hlast)
      rw [endsIn, List.getLast?_eq_some_getLast hlast] at hend
      simp_all
    rw [if_neg hother]
    have hdrop : dropTrailingSlashes (Location.text (up :: l) ++ ['/']) =
        dropTrailingSlashes (Location.text (up :: l)) := by
      simp [dropTrailingSlashes]
    rw [hdrop, dropTrailingSlashes_of_endsIn hend]

/-! ## Nodes at their places -/

/-- A node at a place says what is there. -/
theorem Namespace.IsTree.kind?_location (hs : s.IsTree) {n : Node} (hn : n ∈ s.nodes) :
    s.kind? n.location = some n.kind := by
  cases hloc : n.location with
  | nil => exact absurd hloc (hs.ne_root n hn)
  | cons name l =>
    rw [Namespace.kind?_cons]
    cases hfind : s.nodes.find? (·.location == name :: l) with
    | none => exact absurd (List.find?_eq_none.1 hfind n hn) (by simp [hloc])
    | some m =>
      have hm : m.location = name :: l := by simpa using List.find?_some hfind
      have hsame : m = n := List.inj_on_of_nodup_map hs.distinct (List.mem_of_find?_eq_some hfind) hn
        (hm.trans hloc.symm)
      rw [hsame]
      rfl

end PathGlob
