import PathGlob.FileSystem.Path
import PathGlob.Location
import PathGlob.Proofs.Pieces
import PathGlob.Provider

/-! # Names of plain paths
The plain form of a path has the names of the path, and a joined path has one name more.

* **`isEntryName_iff`** — what names of entries are not, and what they have not.
* **`plainNames_plainPath`** — the plain form has the same names.
* **`pieces_plainPath`** — its pieces are these names, possibly with empty pieces in front.
* **`plainNames_joinPath`** — the names of a joined path. -/

namespace PathGlob

/-! ## Names -/

/-- What a name of an entry is not, and what it has not. -/
theorem isEntryName_iff {name : Text} :
    isEntryName name = true ↔ name ≠ [] ∧ name ≠ ['.'] ∧ name ≠ ['.', '.'] ∧ '/' ∉ name := by
  simp [isEntryName, and_assoc]

/-- The names of a plain path are pieces of the path with a meaning of their own. -/
theorem mem_plainNames_iff {path name : Text} :
    name ∈ plainNames path ↔ name ∈ pieces '/' path ∧ name ≠ [] ∧ name ≠ ['.'] := by
  simp [plainNames]

@[simp] theorem plainNames_nil : plainNames [] = [] := rfl

/-- A separator at the front changes no names. -/
@[simp] theorem plainNames_slash (path : Text) : plainNames ('/' :: path) = plainNames path := by
  rw [plainNames, pieces_cons_self]
  rfl

/-- A piece behind a separator adds its names. -/
theorem plainNames_append_slash (path t : Text) :
    plainNames (path ++ '/' :: t) = plainNames path ++ plainNames t := by
  rw [plainNames, pieces_append_cons, List.filter_append]
  rfl

/-- A name without separators is the only one of its path. -/
theorem plainNames_of_isEntryName {name : Text} (h : isEntryName name = true) :
    plainNames name = [name] := by
  obtain ⟨hne, hdot, -, hslash⟩ := isEntryName_iff.1 h
  rw [plainNames, pieces_of_not_mem hslash]
  simp [hne, hdot]

/-- **The names of a joined path**: those of the directory, and then the joined one. -/
theorem plainNames_joinPath (path : Text) {name : Text} (h : isEntryName name = true) :
    plainNames (joinPath path name) = plainNames path ++ [name] := by
  unfold joinPath
  split
  · rename_i hend
    obtain ⟨dir, rfl⟩ := endsIn_iff.1 hend
    rw [List.append_assoc, List.singleton_append, plainNames_append_slash, plainNames_append_slash,
      plainNames_of_isEntryName h, plainNames_nil, List.append_nil]
  · rw [plainNames_append_slash, plainNames_of_isEntryName h]

/-! ## Plain paths -/

/-- The anchor of a path has no names. -/
theorem plainNames_pathAnchor_append (path t : Text) :
    plainNames (pathAnchor path ++ t) = plainNames t := by
  unfold pathAnchor
  split <;> simp

/-- A path that does not begin with a separator has no anchor. -/
theorem pathAnchor_of_relative {path : Text} (h : beginsWith ['/'] path = false) :
    pathAnchor path = [] := by
  unfold pathAnchor
  split
  · cases h
  · cases h
  · cases h
  · rfl

/-- The names of a plain path have no separator. -/
theorem slash_not_mem_of_mem_plainNames {path name : Text} (h : name ∈ plainNames path) :
    '/' ∉ name :=
  not_mem_of_mem_pieces (mem_plainNames_iff.1 h).1

/-- Each character of a path is a separator, a dot, or in one of its names. -/
theorem exists_mem_plainNames {path : Text} {c : Char} (hc : c ∈ path) (hslash : c ≠ '/')
    (hdot : c ≠ '.') : ∃ name ∈ plainNames path, c ∈ name := by
  rw [← joinWith_pieces '/' path] at hc
  rcases eq_or_exists_of_mem_joinWith hc with rfl | ⟨name, hname, hc⟩
  · exact absurd rfl hslash
  · refine ⟨name, mem_plainNames_iff.2 ⟨hname, List.ne_nil_of_mem hc, ?_⟩, hc⟩
    rintro rfl
    exact hdot (List.mem_singleton.1 hc)

/-- The pieces of the names put together are the names again. -/
theorem pieces_joinWith_plainNames {path : Text} (h : plainNames path ≠ []) :
    pieces '/' (joinWith ['/'] (plainNames path)) = plainNames path :=
  pieces_joinWith h fun _ => slash_not_mem_of_mem_plainNames

/-- The plain form of a path with names is its anchor with the names behind it. -/
theorem plainPath_eq {path : Text} (h : plainNames path ≠ []) :
    plainPath path = pathAnchor path ++ joinWith ['/'] (plainNames path) := by
  unfold plainPath
  split
  · rename_i hnil
    have hpieces := pieces_joinWith_plainNames h
    rw [(List.append_eq_nil_iff.1 hnil).2, pieces_of_not_mem (List.not_mem_nil)] at hpieces
    have hempty : [] ∈ plainNames path := hpieces ▸ List.mem_singleton_self []
    exact absurd rfl (mem_plainNames_iff.1 hempty).2.1
  · rfl

/-- The plain form of a path without names is a separator or two, or the current directory. -/
theorem plainNames_plainPath_of_eq_nil {path : Text} (h : plainNames path = []) :
    plainNames (plainPath path) = [] := by
  unfold plainPath
  split
  · rfl
  · rw [h, plainNames_pathAnchor_append, joinWith_nil, plainNames_nil]

/-- **The plain form has the same names.** -/
@[simp] theorem plainNames_plainPath (path : Text) : plainNames (plainPath path) = plainNames path := by
  by_cases h : plainNames path = []
  · rw [plainNames_plainPath_of_eq_nil h, h]
  · rw [plainPath_eq h, plainNames_pathAnchor_append, plainNames, pieces_joinWith_plainNames h,
      plainNames, List.filter_filter]
    simp

/-- The name of an entry in a directory, read from the plain form of its path. -/
theorem plainName_joinPath (path : Text) {name : Text} (h : isEntryName name = true) :
    plainName (plainPath (joinPath path name)) = name := by
  rw [plainName, plainNames_plainPath, plainNames_joinPath path h, List.getLast?_concat]
  rfl

/-- **The pieces of a plain path are its names**, with an empty piece in front for each separator of
its anchor. -/
theorem pieces_plainPath {path : Text} (h : plainNames path ≠ []) :
    ∃ lead, pieces '/' (plainPath path) = lead ++ plainNames path := by
  have hanchor : ∀ t : Text, ∃ lead, pieces '/' (pathAnchor path ++ t) = lead ++ pieces '/' t := by
    intro t
    unfold pathAnchor
    split
    · exact ⟨[[]], pieces_cons_self t⟩
    · exact ⟨[[], []], pieces_append_cons ['/'] t⟩
    · exact ⟨[[]], pieces_cons_self t⟩
    · exact ⟨[], rfl⟩
  rw [plainPath_eq h]
  obtain ⟨lead, hlead⟩ := hanchor (joinWith ['/'] (plainNames path))
  exact ⟨lead, hlead.trans (congrArg (lead ++ ·) (pieces_joinWith_plainNames h))⟩

end PathGlob
