import PathGlob.FileSystem
import PathGlob.Proofs.FileSystem.Paths

/-! # The names in a file system
No separator and no reference to a directory is the name of a node. File systems that are made of paths
and links are like that, since a path is taken apart at its separators and its references are followed.

* **`Location.IsProper`** — the places that are reached by proper names.
* **`FileSystem.HasEntryNames`** — all nodes are at such places.
* **`FileSystem.hasEntryNames_ofPaths`** — the file systems that are made of paths and links. -/

namespace PathGlob

variable {s : FileSystem} {l : Location} {name : Text} {names : List Text}

/-! ## Proper places -/

/-- **A place that is reached by proper names only.** -/
def Location.IsProper (l : Location) : Prop := ∀ name ∈ l, isEntryName name = true

theorem Location.isProper_nil : Location.IsProper [] := fun _ h => absurd h List.not_mem_nil

/-- A child of a place is proper if both the place and its name are. -/
theorem Location.isProper_cons_iff :
    Location.IsProper (name :: l) ↔ isEntryName name = true ∧ l.IsProper :=
  List.forall_mem_cons

/-- The parent of a proper place is proper. -/
theorem Location.IsProper.tail (h : l.IsProper) : Location.IsProper l.tail :=
  fun name hname => h name (List.mem_of_mem_tail hname)

/-- A piece of a path is a proper name unless it leads elsewhere. -/
theorem isEntryName_of_piece (hslash : '/' ∉ name) (hplain : ¬(name = [] ∨ name = ['.']))
    (hdots : name ≠ ['.', '.']) : isEntryName name = true :=
  isEntryName_iff.2 ⟨fun h => hplain (.inl h), fun h => hplain (.inr h), hdots, hslash⟩

/-- Pieces without separators lead from proper places to proper places. -/
theorem Location.IsProper.follow (h : l.IsProper) (hnames : ∀ name ∈ names, '/' ∉ name) :
    Location.IsProper (PathGlob.follow l names) := by
  induction names generalizing l with
  | nil => exact h
  | cons name names ih =>
    obtain ⟨hname, hnames⟩ := List.forall_mem_cons.1 hnames
    refine ih ?_ hnames
    unfold stepInto
    split
    · exact h
    · rename_i hplain
      split
      · exact h.tail
      · rename_i hdots
        exact Location.isProper_cons_iff.2 ⟨isEntryName_of_piece hname hplain hdots, h⟩

/-- The place at which a path starts is proper if the current directory is. -/
theorem Location.IsProper.startOf (h : l.IsProper) (path : Text) :
    Location.IsProper (startOf path l) := by
  unfold PathGlob.startOf
  split
  · exact Location.isProper_nil
  · exact h

/-- **What is resolved from a proper place leads to one**, whatever the links stand for. -/
theorem FileSystem.isProper_of_resolve {links : Nat} {m : Location} {b : Bool} (hl : l.IsProper)
    (hnames : ∀ name ∈ names, '/' ∉ name) (h : s.resolve links l names = .ok (m, b)) :
    m.IsProper := by
  fun_induction FileSystem.resolve s links l names with
  | case1 links l =>
    cases h
    exact hl
  | case2 links l name rest hplain ih => exact ih hl (List.forall_mem_cons.1 hnames).2 h
  | case3 links l rest hplain ih => exact ih hl.tail (List.forall_mem_cons.1 hnames).2 h
  | case6 links l name rest hplain hdots hlong hkind ih =>
    obtain ⟨hname, hrest⟩ := List.forall_mem_cons.1 hnames
    exact ih (Location.isProper_cons_iff.2 ⟨isEntryName_of_piece hname hplain hdots, hl⟩) hrest h
  | case7 links l name rest hplain hdots hlong hkind hend =>
    cases h
    exact Location.isProper_cons_iff.2
      ⟨isEntryName_of_piece (List.forall_mem_cons.1 hnames).1 hplain hdots, hl⟩
  | case4 => cases h
  | case5 => cases h
  | case8 => cases h
  | case9 => cases h
  | case10 l name rest hplain hdots hlong target hkind links ih =>
    refine ih (hl.startOf target) (fun x hx => ?_) h
    rcases List.mem_append.1 hx with hx | hx
    · exact not_mem_of_mem_pieces hx
    · exact (List.forall_mem_cons.1 hnames).2 x hx

/-! ## Proper file systems -/

/-- **All nodes have proper names**, and so have the directories that they are in. -/
def FileSystem.HasEntryNames (s : FileSystem) : Prop := ∀ n ∈ s.nodes, n.location.IsProper

/-- A further node at a proper place does no harm. -/
theorem FileSystem.HasEntryNames.concat (hs : s.HasEntryNames) {n : FileNode}
    (hn : n.location.IsProper) : ({ s with nodes := s.nodes ++ [n] } : FileSystem).HasEntryNames :=
  fun m hm => (List.mem_append.1 hm).elim (hs m) fun hm => List.mem_singleton.1 hm ▸ hn

/-- Neither do directories at a proper place and around it. -/
theorem FileSystem.HasEntryNames.withDirectory (hs : s.HasEntryNames) (hl : l.IsProper) :
    (s.withDirectory l).HasEntryNames := by
  induction l with
  | nil => exact hs
  | cons name parent ih =>
    unfold FileSystem.withDirectory
    split
    · exact hs
    · exact (ih hl.tail).concat hl

/-- Nor does what is added at a proper place. -/
theorem FileSystem.HasEntryNames.addAt (hs : s.HasEntryNames) (kind : FileKind) (hl : l.IsProper) :
    (s.addAt kind l).HasEntryNames := by
  unfold FileSystem.addAt
  split
  · exact hs
  · exact (hs.withDirectory hl.tail).concat hl

/-- The current directory stays where it is. -/
theorem FileSystem.cwd_withDirectory (s : FileSystem) (l : Location) :
    (s.withDirectory l).cwd = s.cwd := by
  induction l with
  | nil => rfl
  | cons name parent ih =>
    unfold FileSystem.withDirectory
    split
    · rfl
    · exact ih

/-- It does so whatever is added. -/
@[simp] theorem FileSystem.cwd_addAt (s : FileSystem) (kind : FileKind) (l : Location) :
    (s.addAt kind l).cwd = s.cwd := by
  unfold FileSystem.addAt
  split
  · rfl
  · exact s.cwd_withDirectory l.tail

/-- A path is added at a proper place. -/
theorem FileSystem.HasEntryNames.addPath (hs : s.HasEntryNames) (hcwd : s.cwd.IsProper) (path : Text) :
    (s.addPath path).HasEntryNames :=
  hs.addAt _ ((hcwd.startOf path).follow fun _ => not_mem_of_mem_pieces)

/-- So is a link, behind the links in the path of its directory. -/
theorem FileSystem.HasEntryNames.addLink (hs : s.HasEntryNames) (hcwd : s.cwd.IsProper)
    (path target : Text) : (s.addLink path target).HasEntryNames := by
  have hparent : ∀ name ∈ (pieces '/' path).dropLast, '/' ∉ name :=
    fun _ h => not_mem_of_mem_pieces (List.dropLast_subset _ h)
  refine hs.addAt _ (Location.IsProper.follow ?_ fun _ h =>
    not_mem_of_mem_pieces (List.mem_of_mem_drop h))
  split
  · rename_i l hl
    exact FileSystem.isProper_of_resolve (hcwd.startOf path) hparent hl
  · exact (hcwd.startOf path).follow hparent

/-- **File systems that are made of paths and links have proper names**, if the current directory has. -/
theorem FileSystem.hasEntryNames_ofPaths {cwd : Location} (hcwd : cwd.IsProper) (paths : List Text)
    (links : List (Text × Text)) : (FileSystem.ofPaths cwd paths links).HasEntryNames := by
  have hnone : FileSystem.HasEntryNames ⟨[], cwd⟩ := fun _ h => absurd h List.not_mem_nil
  have hcreate : (FileSystem.create cwd).HasEntryNames ∧ (FileSystem.create cwd).cwd.IsProper :=
    ⟨hnone.withDirectory hcwd, (FileSystem.cwd_withDirectory ⟨[], cwd⟩ cwd).symm ▸ hcwd⟩
  have hpaths := List.foldlRecOn paths FileSystem.addPath
    (motive := fun s => s.HasEntryNames ∧ s.cwd.IsProper) hcreate fun s hs path _ =>
      ⟨hs.1.addPath hs.2 path, (FileSystem.cwd_addAt s _ _).symm ▸ hs.2⟩
  exact (List.foldlRecOn links (fun (s : FileSystem) l => s.addLink l.1 l.2)
    (motive := fun s => s.HasEntryNames ∧ s.cwd.IsProper) hpaths fun s hs link _ =>
      ⟨hs.1.addLink hs.2 link.1 link.2, (FileSystem.cwd_addAt s _ _).symm ▸ hs.2⟩).1

end PathGlob
