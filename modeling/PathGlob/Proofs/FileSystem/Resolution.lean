import PathGlob.FileSystem
import PathGlob.Proofs.FileSystem.Paths

/-! # Resolving long paths
Each link that is followed uses up one of the few that may be, and between two links a path only goes
down in the tree. So the names of a path that leads somewhere are not many, whatever the links stand
for.

* **`FileSystem.resolve_append`** — the last names of a path are resolved somewhere, with no more links.
* **`FileSystem.height`** — the height of a tree.
* **`FileSystem.length_le_of_resolve`** — the number of names that can be resolved. -/

namespace PathGlob

variable {s : FileSystem} {links : Nat} {l : Location} {r : Location × Bool}

/-! ## One name after the other -/

@[simp] theorem FileSystem.resolve_nil (s : FileSystem) (links : Nat) (l : Location) :
    s.resolve links l [] = .ok (l, true) := by
  rw [FileSystem.resolve]

/-- An empty piece and a reference to the directory itself are passed over. -/
theorem FileSystem.resolve_plain {x : Text} (h : x = [] ∨ x = ['.']) (rest : List Text) :
    s.resolve links l (x :: rest) = s.resolve links l rest := by
  rw [FileSystem.resolve, if_pos h]

/-- How a name of an entry is resolved. -/
theorem FileSystem.resolve_name {name : Text} (h : isEntryName name = true) (rest : List Text) :
    s.resolve links l (name :: rest) =
      if nameLimit < byteLength name then .error .nameTooLong
      else
        match s.kind? (name :: l) with
        | none => .error .notFound
        | some .directory => s.resolve links (name :: l) rest
        | some .file => if rest.isEmpty then .ok (name :: l, false) else .error .notDirectory
        | some (.link target) =>
          match links with
          | 0 => .error .linkLoop
          | links + 1 => s.resolve links (startOf target l) (pieces '/' target ++ rest) := by
  obtain ⟨hne, hdot, hdots, -⟩ := isEntryName_iff.1 h
  rw [FileSystem.resolve]
  exact (if_neg (not_or.2 ⟨hne, hdot⟩)).trans (if_neg hdots)

/-- **A step of a resolution** that does not end with it: the other names are resolved from some place,
or a link is used up and its target takes the place of the name. -/
theorem FileSystem.cases_of_resolve {name : Text} {rest : List Text} (hrest : rest ≠ [])
    (h : s.resolve links l (name :: rest) = .ok r) :
    (∃ m, s.resolve links m rest = .ok r) ∨
      ∃ fewer target, links = fewer + 1 ∧
        s.resolve fewer (startOf target l) (pieces '/' target ++ rest) = .ok r := by
  rw [FileSystem.resolve] at h
  split at h
  · exact .inl ⟨l, h⟩
  split at h
  · exact .inl ⟨l.tail, h⟩
  split at h
  · cases h
  split at h
  · cases h
  · exact .inl ⟨name :: l, h⟩
  · rw [if_neg (by simp [hrest])] at h
    cases h
  · cases links with
    | zero => cases h
    | succ links => exact .inr ⟨links, _, rfl, h⟩

/-- **The last names of a path that leads somewhere are resolved in their turn**, from the place that
the names before lead to, and with the links that are left. -/
theorem FileSystem.resolve_append {xs ys : List Text} (hys : ys ≠ [])
    (h : s.resolve links l (xs ++ ys) = .ok r) :
    ∃ fewer ≤ links, ∃ m, s.resolve fewer m ys = .ok r := by
  -- a link starts over with the names of its target, so the induction on the names is an inner one
  induction links using Nat.strongRecOn generalizing l xs with
  | _ links ihlinks =>
    induction xs generalizing l with
    | nil => exact ⟨links, Nat.le_refl links, l, h⟩
    | cons name xs ih =>
      rw [List.cons_append] at h
      rcases s.cases_of_resolve (by simp [hys]) h with ⟨m, h⟩ | ⟨fewer, target, hlinks, h⟩
      · exact ih h
      · rw [← List.append_assoc] at h
        obtain ⟨fewest, hfewest, hrest⟩ := ihlinks fewer (by omega) h
        exact ⟨fewest, by omega, hrest⟩

/-! ## The height of the tree -/

/-- **The height of the tree**: the number of names that lead to the deepest node. -/
def FileSystem.height (s : FileSystem) : Nat :=
  (s.nodes.map (·.location.length)).max?.getD 0

/-- No node is deeper than the tree is high. -/
theorem FileSystem.length_le_height {k : FileKind} (h : s.kind? l = some k) :
    l.length ≤ s.height := by
  unfold FileSystem.kind? at h
  split at h
  · rename_i hroot
    rw [hroot]
    exact Nat.zero_le _
  · obtain ⟨node, hnode, -⟩ := Option.map_eq_some_iff.1 h
    have hlocation : node.location = l := by simpa using List.find?_some hnode
    have hmem : l.length ∈ s.nodes.map (·.location.length) :=
      List.mem_map.2 ⟨node, List.mem_of_find?_eq_some hnode, by rw [hlocation]⟩
    exact List.le_max?_getD_of_mem hmem

/-- **The number of names of a path that leads somewhere** is bounded: between two links it goes down
in the tree, and no more than `links` of them are followed. -/
theorem FileSystem.length_le_of_resolve {names : List Text}
    (hnames : ∀ name ∈ names, isEntryName name = true) (h : s.resolve links l names = .ok r) :
    names.length ≤ s.height - l.length + links * (s.height + 1) := by
  induction names generalizing links l with
  | nil => exact Nat.zero_le _
  | cons name rest ih =>
    have hrest : ∀ x ∈ rest, isEntryName x = true := fun x hx => hnames x (List.mem_cons_of_mem _ hx)
    rw [s.resolve_name (hnames name List.mem_cons_self)] at h
    split at h
    · cases h
    split at h
    · cases h
    · rename_i hkind
      have hdeep : l.length + 1 ≤ s.height := s.length_le_height hkind
      have hlater := ih hrest h
      simp only [List.length_cons] at hlater ⊢
      omega
    · rename_i hkind
      have hdeep : l.length + 1 ≤ s.height := s.length_le_height hkind
      split at h
      · rename_i hempty
        rw [List.isEmpty_iff.1 hempty]
        simp only [List.length_cons, List.length_nil]
        omega
      · cases h
    · cases links with
      | zero => cases h
      | succ links =>
        -- behind the target of the link the rest may begin anywhere, even at the root
        have hlater : rest.length ≤ s.height + links * (s.height + 1) := by
          by_cases hnil : rest = []
          · rw [hnil]
            exact Nat.zero_le _
          · obtain ⟨fewer, hfewer, m, hm⟩ := s.resolve_append hnil h
            have hbound := ih hrest hm
            have hmul := Nat.mul_le_mul_right (s.height + 1) hfewer
            omega
        rw [List.length_cons, Nat.succ_mul]
        omega

end PathGlob
