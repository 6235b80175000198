import PathGlob.Proofs.Braces.Grammar

/-! # The places of brace groups in a tree
The nodes of a tree under construction stand in the order of their making, so those of an item are
one block: a choice, then for each of its branches the sequence and the blocks of its items. What is
open determines the whole tree, and each step of building leads from the tree of one state to the
tree of the next.

* **`pushChar`**, **`mergedBuilder`** — sequences in which neighbouring texts are one literal.
* **`BraceItem.nodes`**, **`sequenceNodes`**, **`branchNodes`** — the nodes of closed parts.
* **`OpenGroups.tree`** — the tree of what is open.
* **`OpenGroups.tree_addText`**, **`tree_openGroup`**, **`tree_nextBranch`**, **`tree_closeGroup`** —
  the steps of building.
* **`OpenGroups.alternatives_tree`** — the texts of the tree are those of the sequence. -/

namespace PathGlob

/-! ## Sequences with merged literals -/

/-- The sequence with a character at the end: the literal at its end grows, or a new one begins. -/
def pushChar (xs : List BraceItem) (c : Char) : List BraceItem :=
  match xs.getLast? with
  | some (.literal t) => xs.dropLast ++ [.literal (t ++ [c])]
  | _ => xs ++ [.literal [c]]

@[simp] theorem pushChar_nil (c : Char) : pushChar [] c = [.literal [c]] := rfl

/-- A literal at the end grows. -/
@[simp] theorem pushChar_literal (xs : List BraceItem) (t : Text) (c : Char) :
    pushChar (xs ++ [.literal t]) c = xs ++ [.literal (t ++ [c])] := by
  simp [pushChar]

/-- Behind a group a new literal begins. -/
@[simp] theorem pushChar_group (xs : List BraceItem) (first : List BraceItem)
    (more : List (List BraceItem)) (c : Char) :
    pushChar (xs ++ [.group first more]) c = xs ++ [.group first more] ++ [.literal [c]] := by
  simp [pushChar]

/-- Sequences of items as values, neighbouring texts being merged. -/
def mergedBuilder : BraceBuilder (List BraceItem) where
  empty := []
  text xs t := t.foldl pushChar xs
  group before done last := before ++ [.ofBranches (done ++ [last])]

/-- A further character stands at the end of each text. -/
theorem sequenceTexts_pushChar (xs : List BraceItem) (c : Char) :
    sequenceTexts (pushChar xs c) = (sequenceTexts xs).map (· ++ [c]) := by
  rcases List.eq_nil_or_concat xs with rfl | ⟨xs, x, rfl⟩
  · rfl
  · rw [List.concat_eq_append]
    cases x with
    | literal t =>
      rw [pushChar_literal, sequenceTexts_append, sequenceTexts_append]
      simp [BraceItem.texts, List.map_flatMap]
    | group first more =>
      rw [pushChar_group, sequenceTexts_append]
      simp [BraceItem.texts, List.map_eq_flatMap]

/-- **Merging keeps the texts of a sequence.** -/
theorem isHom_sequenceTexts_merged : mergedBuilder.IsHom textBuilder sequenceTexts where
  empty := rfl
  text xs t := by
    change sequenceTexts (t.foldl pushChar xs) = (sequenceTexts xs).map (· ++ t)
    induction t generalizing xs with
    | nil => simp
    | cons c t ih => simp [ih, sequenceTexts_pushChar]
  group := isHom_sequenceTexts.group

/-! ## Nodes of closed parts -/

mutual

/-- How many nodes an item has. -/
def BraceItem.size : BraceItem → Nat
  | .literal _ => 1
  | .group first more => 2 + sequenceSize first + branchesSize more

/-- How many nodes the items of a sequence have. -/
def sequenceSize : List BraceItem → Nat
  | [] => 0
  | x :: xs => x.size + sequenceSize xs

/-- How many nodes branches have, their own sequences included. -/
def branchesSize : List (List BraceItem) → Nat
  | [] => 0
  | b :: bs => 1 + sequenceSize b + branchesSize bs

end

/-- The places of things whose nodes stand one behind the other from a place on; `size` says how many
nodes each of them has. -/
def placesOf {α : Type} (size : α → Nat) : Nat → List α → List Nat
  | _, [] => []
  | start, x :: xs => start :: placesOf size (start + size x) xs

/-- How many nodes things have together. -/
def totalSize {α : Type} (size : α → Nat) : List α → Nat
  | [] => 0
  | x :: xs => size x + totalSize size xs

/-- The places of the items of a sequence. -/
def itemPlaces : Nat → List BraceItem → List Nat := placesOf BraceItem.size

/-- The places of branches. -/
def branchPlaces : Nat → List (List BraceItem) → List Nat := placesOf fun b => 1 + sequenceSize b

mutual

/-- The nodes of an item that has the parent `parent`, the first of them at the place `start`. -/
def BraceItem.nodes (parent start : Nat) : BraceItem → List BraceNode
  | .literal t => [⟨some parent, .text t⟩]
  | .group first more =>
    -- the choice, the sequence of the first branch with its items, and the other branches
    ⟨some parent,
        .choice ((start + 1) :: branchPlaces (start + 1 + (1 + sequenceSize first)) more)⟩ ::
      ⟨some start, .sequence (itemPlaces (start + 2) first)⟩ ::
      (sequenceNodes (start + 1) (start + 2) first ++
        branchNodes start (start + 1 + (1 + sequenceSize first)) more)

/-- The nodes of the items of a sequence. -/
def sequenceNodes (parent start : Nat) : List BraceItem → List BraceNode
  | [] => []
  | x :: xs => x.nodes parent start ++ sequenceNodes parent (start + x.size) xs

/-- The nodes of branches. -/
def branchNodes (parent start : Nat) : List (List BraceItem) → List BraceNode
  | [] => []
  | b :: bs =>
    ⟨some parent, .sequence (itemPlaces (start + 1) b)⟩ ::
      (sequenceNodes start (start + 1) b ++
        branchNodes parent (start + (1 + sequenceSize b)) bs)

end

/-! ### Laws of sizes and places -/

section

variable {α : Type} {size : α → Nat} (parent start : Nat)

/-- The last things stand behind the first ones. -/
theorem placesOf_append (xs ys : List α) :
    placesOf size start (xs ++ ys) =
      placesOf size start xs ++ placesOf size (start + totalSize size xs) ys := by
  induction xs generalizing start with
  | nil => rfl
  | cons x xs ih => simp [placesOf, totalSize, ih, Nat.add_assoc]

theorem le_of_mem_placesOf {start i : Nat} {xs : List α} (h : i ∈ placesOf size start xs) :
    start ≤ i := by
  induction xs generalizing start with
  | nil => cases h
  | cons x xs ih =>
    rcases List.mem_cons.1 h with rfl | h
    · exact Nat.le_refl _
    · exact Nat.le_of_add_right_le (ih h)

theorem totalSize_append (xs ys : List α) :
    totalSize size (xs ++ ys) = totalSize size xs + totalSize size ys := by
  induction xs with
  | nil => simp [totalSize]
  | cons x xs ih => rw [List.cons_append, totalSize, totalSize, ih, Nat.add_assoc]

theorem sequenceSize_eq (xs : List BraceItem) : sequenceSize xs = totalSize BraceItem.size xs := by
  induction xs with
  | nil => rfl
  | cons x xs ih => rw [sequenceSize, ih, totalSize]

theorem branchesSize_eq (bs : List (List BraceItem)) :
    branchesSize bs = totalSize (fun b => 1 + sequenceSize b) bs := by
  induction bs with
  | nil => rfl
  | cons b bs ih => rw [branchesSize, ih, totalSize]

theorem branchesSize_append (bs cs : List (List BraceItem)) :
    branchesSize (bs ++ cs) = branchesSize bs + branchesSize cs := by
  rw [branchesSize_eq, branchesSize_eq, branchesSize_eq, totalSize_append]

@[simp] theorem itemPlaces_nil : itemPlaces start [] = [] := rfl

@[simp] theorem itemPlaces_cons (x : BraceItem) (xs : List BraceItem) :
    itemPlaces start (x :: xs) = start :: itemPlaces (start + x.size) xs := rfl

theorem itemPlaces_append (xs ys : List BraceItem) :
    itemPlaces start (xs ++ ys) =
      itemPlaces start xs ++ itemPlaces (start + sequenceSize xs) ys := by
  rw [sequenceSize_eq]
  exact placesOf_append start xs ys

@[simp] theorem branchPlaces_nil : branchPlaces start [] = [] := rfl

@[simp] theorem branchPlaces_cons (b : List BraceItem) (bs : List (List BraceItem)) :
    branchPlaces start (b :: bs) = start :: branchPlaces (start + (1 + sequenceSize b)) bs := rfl

theorem branchPlaces_append (bs cs : List (List BraceItem)) :
    branchPlaces start (bs ++ cs) =
      branchPlaces start bs ++ branchPlaces (start + branchesSize bs) cs := by
  rw [branchesSize_eq]
  exact placesOf_append start bs cs

theorem sequenceNodes_append (xs ys : List BraceItem) :
    sequenceNodes parent start (xs ++ ys) =
      sequenceNodes parent start xs ++ sequenceNodes parent (start + sequenceSize xs) ys := by
  induction xs generalizing start with
  | nil => simp [sequenceNodes, sequenceSize]
  | cons x xs ih => simp [sequenceNodes, sequenceSize, ih, Nat.add_assoc]

theorem branchNodes_append (bs cs : List (List BraceItem)) :
    branchNodes parent start (bs ++ cs) =
      branchNodes parent start bs ++ branchNodes parent (start + branchesSize bs) cs := by
  induction bs generalizing start with
  | nil => simp [branchNodes, branchesSize]
  | cons b bs ih => simp [branchNodes, branchesSize, ih, Nat.add_assoc]

mutual

/-- An item has as many nodes as its size says. -/
theorem BraceItem.length_nodes (parent start : Nat) (x : BraceItem) :
    (x.nodes parent start).length = x.size := by
  cases x with
  | literal t => rfl
  | group first more =>
    simp only [BraceItem.nodes, BraceItem.size, List.length_cons, List.length_append]
    rw [length_sequenceNodes _ _ first, length_branchNodes _ _ more]
    omega

/-- So has a sequence. -/
theorem length_sequenceNodes (parent start : Nat) (xs : List BraceItem) :
    (sequenceNodes parent start xs).length = sequenceSize xs := by
  cases xs with
  | nil => rfl
  | cons x xs =>
    rw [sequenceNodes, sequenceSize, List.length_append, BraceItem.length_nodes _ _ x,
      length_sequenceNodes _ _ xs]

/-- So have branches. -/
theorem length_branchNodes (parent start : Nat) (bs : List (List BraceItem)) :
    (branchNodes parent start bs).length = branchesSize bs := by
  cases bs with
  | nil => rfl
  | cons b bs =>
    rw [branchNodes, branchesSize, List.length_cons, List.length_append,
      length_sequenceNodes _ _ b, length_branchNodes _ _ bs]
    omega

end

end

attribute [simp] BraceItem.length_nodes length_sequenceNodes length_branchNodes

/-- The nodes of a group: its choice, and those of its branches. -/
theorem BraceItem.nodes_ofBranches (parent start : Nat) {bs : List (List BraceItem)}
    (h : bs ≠ []) :
    (BraceItem.ofBranches bs).nodes parent start =
      ⟨some parent, .choice (branchPlaces (start + 1) bs)⟩ ::
        branchNodes start (start + 1) bs := by
  cases bs with
  | nil => exact absurd rfl h
  | cons first more => rfl

/-! ## The tree of what is open -/

/-- The place of the sequence that is being read. -/
def openPlace : List (List BraceItem × List (List BraceItem)) → Nat
  | [] => 0
  | (before, done) :: outer => openPlace outer + 1 + sequenceSize before + 1 + branchesSize done

/-- The place of an item behind those of a sequence that is being read. -/
def itemPlace (outer : List (List BraceItem × List (List BraceItem))) (xs : List BraceItem) : Nat :=
  openPlace outer + 1 + sequenceSize xs

/-- The parent of the sequence that is being read. -/
def openChoice? : List (List BraceItem × List (List BraceItem)) → Option Nat
  | [] => none
  | (before, _) :: outer => some (itemPlace outer before)

/-- The nodes in front of the sequence that is being read. -/
def outerNodes : List (List BraceItem × List (List BraceItem)) → List BraceNode
  | [] => []
  | (before, done) :: outer =>
    let choice := itemPlace outer before
    (outerNodes outer ++
      ⟨openChoice? outer, .sequence (itemPlaces (openPlace outer + 1) before ++ [choice])⟩ ::
        sequenceNodes (openPlace outer) (openPlace outer + 1) before) ++
      ⟨some (openPlace outer),
          .choice (branchPlaces (choice + 1) done ++ [choice + 1 + branchesSize done])⟩ ::
        branchNodes choice (choice + 1) done

/-- **The tree of what is open.** -/
def OpenGroups.tree (o : OpenGroups (List BraceItem)) : BraceTree where
  nodes := outerNodes o.outer ++
    ⟨openChoice? o.outer, .sequence (itemPlaces (openPlace o.outer + 1) o.current)⟩ ::
      sequenceNodes (openPlace o.outer) (openPlace o.outer + 1) o.current
  current := openPlace o.outer
  depth := o.outer.length

section

variable (outer : List (List BraceItem × List (List BraceItem))) (before current : List BraceItem)
  (done : List (List BraceItem))

theorem openPlace_cons :
    openPlace ((before, done) :: outer) = itemPlace outer before + 1 + branchesSize done := rfl

@[simp] theorem length_outerNodes : (outerNodes outer).length = openPlace outer := by
  induction outer with
  | nil => rfl
  | cons x outer ih =>
    obtain ⟨before, done⟩ := x
    simp only [outerNodes, openPlace_cons, itemPlace, List.length_append, List.length_cons, ih,
      length_sequenceNodes, length_branchNodes]
    omega

/-- The nodes in front of an item behind those of a sequence that is being read. -/
def itemFront : List BraceNode :=
  outerNodes outer ++
    ⟨openChoice? outer,
        .sequence (itemPlaces (openPlace outer + 1) before ++ [itemPlace outer before])⟩ ::
      sequenceNodes (openPlace outer) (openPlace outer + 1) before

@[simp] theorem length_itemFront :
    (itemFront outer before).length = itemPlace outer before := by
  simp [itemFront, itemPlace, Nat.add_assoc, Nat.add_comm 1]

/-- **The tree seen from the last item** of the sequence that is being read. -/
theorem OpenGroups.tree_append (x : BraceItem) :
    OpenGroups.tree ⟨outer, before ++ [x]⟩ =
      ⟨itemFront outer before ++ x.nodes (openPlace outer) (itemPlace outer before),
        openPlace outer, outer.length⟩ := by
  simp [OpenGroups.tree, itemFront, itemPlaces_append, sequenceNodes_append, sequenceNodes,
    itemPlace]

/-- **The tree seen from the innermost choice**: the sequence that is being read is the last of its
branches. -/
theorem OpenGroups.tree_cons :
    OpenGroups.tree ⟨(before, done) :: outer, current⟩ =
      ⟨itemFront outer before ++
        ⟨some (openPlace outer),
            .choice (branchPlaces (itemPlace outer before + 1) (done ++ [current]))⟩ ::
          branchNodes (itemPlace outer before) (itemPlace outer before + 1) (done ++ [current]),
        openPlace ((before, done) :: outer), outer.length + 1⟩ := by
  simp [OpenGroups.tree, outerNodes, itemFront, branchPlaces_append, branchNodes_append,
    branchNodes, openChoice?, openPlace_cons]

/-- A group has the same nodes while it is open. -/
theorem OpenGroups.nodes_tree_cons :
    (OpenGroups.tree ⟨(before, done) :: outer, current⟩).nodes =
      (OpenGroups.tree ⟨outer, before ++ [.ofBranches (done ++ [current])]⟩).nodes := by
  rw [OpenGroups.tree_cons, OpenGroups.tree_append, BraceItem.nodes_ofBranches _ _ (by simp)]

end

/-- At the beginning the tree is empty. -/
theorem OpenGroups.tree_start : (OpenGroups.start mergedBuilder).tree = BraceTree.empty := rfl

/-! ## Steps of building -/

section

variable {front back : List BraceNode} {n : BraceNode} {i current depth : Nat}

/-- The node behind `front`. -/
theorem BraceTree.modify_at (h : front.length = i) (f : BraceContent → BraceContent) :
    (⟨front ++ n :: back, current, depth⟩ : BraceTree).modify i f =
      ⟨front ++ ⟨n.parent, f n.content⟩ :: back, current, depth⟩ := by
  subst h
  rw [BraceTree.modify, List.modify_eq_take_cons_drop (by simp)]
  simp

theorem BraceTree.content?_at (h : front.length = i) :
    (⟨front ++ n :: back, current, depth⟩ : BraceTree).content? i = some n.content := by
  subst h
  simp [BraceTree.content?]

theorem BraceTree.parentOf_at {p : Nat} (h : front.length = i) (hp : n.parent = some p) :
    (⟨front ++ n :: back, current, depth⟩ : BraceTree).parentOf i = .ok p := by
  subst h
  simp [BraceTree.parentOf, hp]

/-- A new node stands behind all others, and its parent refers to it. -/
theorem BraceTree.addNode_at (h : front.length = i) (content : BraceContent) :
    (⟨front ++ n :: back, current, depth⟩ : BraceTree).addNode i content =
      ⟨front ++ ⟨n.parent, n.content.attach (i + 1 + back.length)⟩ ::
        (back ++ [⟨some i, content⟩]), current, depth⟩ := by
  rw [BraceTree.addNode, BraceTree.modify_at h]
  simp [BraceTree.size, h, Nat.add_assoc, Nat.add_comm 1]

end

section

variable (outer : List (List BraceItem × List (List BraceItem))) (before current : List BraceItem)
  (done : List (List BraceItem)) (c : Char)

/-- A group begins. -/
theorem OpenGroups.tree_openGroup :
    (OpenGroups.tree ⟨outer, current⟩).openGroup = OpenGroups.tree ⟨(current, []) :: outer, []⟩ := by
  have hsize : (OpenGroups.tree ⟨outer, current⟩).size = itemPlace outer current := by
    simp [OpenGroups.tree, BraceTree.size, itemPlace, Nat.add_assoc, Nat.add_comm 1]
  -- first the choice joins the sequence, then its first branch joins the choice
  have hchoice : (OpenGroups.tree ⟨outer, current⟩).addNode (openPlace outer) (.choice []) =
      ⟨itemFront outer current ++ [⟨some (openPlace outer), .choice []⟩], openPlace outer,
        outer.length⟩ := by
    rw [OpenGroups.tree, BraceTree.addNode_at (length_outerNodes outer)]
    simp [itemFront, BraceContent.attach, itemPlace]
  have hcurrent : (OpenGroups.tree ⟨outer, current⟩).current = openPlace outer := rfl
  simp only [BraceTree.openGroup, hcurrent, hsize, hchoice,
    BraceTree.addNode_at (length_itemFront outer current)]
  rw [OpenGroups.tree_cons]
  simp [OpenGroups.tree, BraceContent.attach, BraceTree.size, branchNodes, sequenceNodes,
    openPlace_cons, branchesSize]

/-- The sequence that is being read has the choice of its group as parent. -/
theorem OpenGroups.parentOf_tree :
    (OpenGroups.tree ⟨(before, done) :: outer, current⟩).parentOf
      (openPlace ((before, done) :: outer)) = .ok (itemPlace outer before) :=
  BraceTree.parentOf_at (length_outerNodes _) rfl

/-- The next branch of a group begins. -/
theorem OpenGroups.tree_nextBranch :
    (OpenGroups.tree ⟨(before, done) :: outer, current⟩).nextBranch =
      .ok (OpenGroups.tree ⟨(before, done ++ [current]) :: outer, []⟩) := by
  have hsize : (OpenGroups.tree ⟨(before, done) :: outer, current⟩).size =
      openPlace ((before, done) :: outer) + 1 + sequenceSize current := by
    simp [OpenGroups.tree, BraceTree.size, Nat.add_assoc, Nat.add_comm 1]
  have hbranch : (OpenGroups.tree ⟨(before, done) :: outer, current⟩).addNode
      (itemPlace outer before) (.sequence []) =
        { OpenGroups.tree ⟨(before, done ++ [current]) :: outer, []⟩ with
          current := openPlace ((before, done) :: outer) } := by
    rw [OpenGroups.tree_cons, OpenGroups.tree_cons,
      BraceTree.addNode_at (length_itemFront outer before), branchPlaces_append _ (done ++ [current]),
      branchNodes_append _ _ (done ++ [current])]
    simp [BraceContent.attach, branchNodes, sequenceNodes]
  have hcurrent : (OpenGroups.tree ⟨(before, done) :: outer, current⟩).current =
      openPlace ((before, done) :: outer) := rfl
  simp only [BraceTree.nextBranch, hcurrent, OpenGroups.parentOf_tree, bind, Except.bind, pure,
    Except.pure, hsize, hbranch]
  simp [OpenGroups.tree, openPlace_cons, branchesSize_append, branchesSize]
  omega

/-- A group ends. -/
theorem OpenGroups.tree_closeGroup :
    (OpenGroups.tree ⟨(before, done) :: outer, current⟩).closeGroup =
      .ok (OpenGroups.tree ⟨outer, before ++ [.ofBranches (done ++ [current])]⟩) := by
  have hchoice : (OpenGroups.tree ⟨(before, done) :: outer, current⟩).parentOf
      (itemPlace outer before) = .ok (openPlace outer) := by
    rw [OpenGroups.tree_cons]
    exact BraceTree.parentOf_at (length_itemFront outer before) rfl
  have hcurrent : (OpenGroups.tree ⟨(before, done) :: outer, current⟩).current =
      openPlace ((before, done) :: outer) := rfl
  -- no node changes, the group is an item from now on
  simp only [BraceTree.closeGroup, hcurrent, OpenGroups.parentOf_tree, hchoice, bind, Except.bind,
    pure, Except.pure, OpenGroups.nodes_tree_cons]
  rfl

theorem OpenGroups.content?_tree :
    (OpenGroups.tree ⟨outer, current⟩).content? (OpenGroups.tree ⟨outer, current⟩).current =
      some (.sequence (itemPlaces (openPlace outer + 1) current)) :=
  BraceTree.content?_at (length_outerNodes outer)

@[simp] theorem OpenGroups.openText?_tree_nil : (OpenGroups.tree ⟨outer, []⟩).openText? = none := by
  rw [BraceTree.openText?, OpenGroups.content?_tree]
  rfl

/-- A text at the end of the sequence that is being read is found. -/
theorem OpenGroups.openText?_tree_append (x : BraceItem) :
    (OpenGroups.tree ⟨outer, before ++ [x]⟩).openText? =
      match x with
      | .literal _ => some (itemPlace outer before)
      | .group _ _ => none := by
  have hlast : (itemPlaces (openPlace outer + 1) (before ++ [x])).getLast? =
      some (itemPlace outer before) := by
    simp [itemPlaces_append, itemPlace]
  rw [BraceTree.openText?, OpenGroups.content?_tree]
  simp only [bind, Option.bind, BraceContent.children, hlast]
  rw [OpenGroups.tree_append]
  cases x with
  | literal t =>
    rw [BraceItem.nodes, BraceTree.content?_at (length_itemFront outer before)]
    rfl
  | group first more =>
    rw [BraceItem.nodes, BraceTree.content?_at (length_itemFront outer before)]
    rfl

/-- A character joins the sequence that is being read. -/
theorem OpenGroups.tree_addChar :
    (OpenGroups.tree ⟨outer, current⟩).addChar c = OpenGroups.tree ⟨outer, pushChar current c⟩ := by
  have hnew : (OpenGroups.tree ⟨outer, current⟩).addNode (openPlace outer) (.text [c]) =
      OpenGroups.tree ⟨outer, current ++ [.literal [c]]⟩ := by
    rw [OpenGroups.tree_append, OpenGroups.tree, BraceTree.addNode_at (length_outerNodes outer)]
    simp [itemFront, BraceContent.attach, itemPlace, BraceItem.nodes]
  rcases List.eq_nil_or_concat current with rfl | ⟨xs, x, rfl⟩
  · rw [BraceTree.addChar, OpenGroups.openText?_tree_nil]
    exact hnew
  · rw [List.concat_eq_append] at hnew ⊢
    rw [BraceTree.addChar, OpenGroups.openText?_tree_append]
    cases x with
    | literal t =>
      -- the text node grows in its place
      rw [pushChar_literal, OpenGroups.tree_append, OpenGroups.tree_append]
      exact BraceTree.modify_at (length_itemFront outer xs) _
    | group first more =>
      rw [pushChar_group]
      exact hnew

/-- Characters join the sequence that is being read. -/
theorem OpenGroups.tree_addText (t : Text) :
    (OpenGroups.tree ⟨outer, current⟩).addText t =
      OpenGroups.tree ⟨outer, mergedBuilder.text current t⟩ := by
  rw [BraceTree.addText]
  change _ = OpenGroups.tree ⟨outer, t.foldl pushChar current⟩
  induction t generalizing current with
  | nil => rfl
  | cons c t ih => rw [List.foldl_cons, List.foldl_cons, OpenGroups.tree_addChar, ih]

end

/-! ## Texts of places -/

/-- The texts of the node at a place, if the nodes behind `start` are `ns`. -/
def textsAt (start : Nat) (ns : List BraceNode) (i : Nat) : List Text :=
  (stringsFrom start ns).getD (i - start) []

/-- The texts of the first node come from those of the later ones. -/
theorem textsAt_cons (start : Nat) (n : BraceNode) (ns : List BraceNode) :
    textsAt start (n :: ns) start = n.content.strings (textsAt (start + 1) ns) := by
  simp [textsAt, stringsFrom]
  rfl

/-- Earlier nodes have no influence on the texts of a place. -/
theorem textsAt_append {start i : Nat} {front : List BraceNode} (h : start + front.length ≤ i)
    (ns : List BraceNode) : textsAt start (front ++ ns) i = textsAt (start + front.length) ns i := by
  induction front generalizing start with
  | nil => rfl
  | cons n front ih =>
    rw [List.length_cons] at h
    -- the texts of the first node stand in front of those of the others
    have hrest : textsAt (start + 1) (front ++ ns) i = textsAt (start + 1 + front.length) ns i :=
      ih (by omega)
    rw [List.length_cons, show start + (front.length + 1) = start + 1 + front.length by omega,
      ← hrest, textsAt, textsAt, List.cons_append, stringsFrom,
      show i - start = i - (start + 1) + 1 by omega, List.getD_cons_succ]

/-- The nodes in front of a place have no influence on the texts there. -/
theorem textsAt_drop {nodes : List BraceNode} {i j : Nat} (hi : i ≤ nodes.length) (hj : i ≤ j) :
    textsAt 0 nodes j = textsAt i (nodes.drop i) j := by
  have hlen : (nodes.take i).length = i := List.length_take_of_le hi
  have happend : textsAt 0 (nodes.take i ++ nodes.drop i) j =
      textsAt (0 + (nodes.take i).length) (nodes.drop i) j := textsAt_append (by omega) _
  rwa [List.take_append_drop, hlen, Nat.zero_add] at happend

/-- The texts of a tree are those of its root. -/
theorem BraceTree.alternatives_eq (t : BraceTree) :
    t.alternatives = if t.depth = 0 then textsAt 0 t.nodes 0 else [] := by
  rw [BraceTree.alternatives]
  cases t.nodes <;> rfl

theorem map_textsAt_append {start m : Nat} {places : List Nat} {front : List BraceNode}
    (hm : start + front.length = m) (h : ∀ i ∈ places, m ≤ i) (ns : List BraceNode) :
    places.map (textsAt start (front ++ ns)) = places.map (textsAt m ns) := by
  subst hm
  exact List.map_congr_left fun i hi => textsAt_append (h i hi) ns

/-- The texts of branches, if those of the items of the first one and of the others are known. -/
theorem textsAt_branchNodes_cons {b : List BraceItem} {bs : List (List BraceItem)}
    (hb : ∀ parent start ns, (itemPlaces start b).map
      (textsAt start (sequenceNodes parent start b ++ ns)) = b.map BraceItem.texts)
    (hbs : ∀ parent start ns, (branchPlaces start bs).map
      (textsAt start (branchNodes parent start bs ++ ns)) = bs.map sequenceTexts)
    (parent start : Nat) (ns : List BraceNode) :
    (branchPlaces start (b :: bs)).map (textsAt start (branchNodes parent start (b :: bs) ++ ns)) =
      (b :: bs).map sequenceTexts := by
  rw [branchPlaces_cons, branchNodes, List.map_cons, List.map_cons, List.cons_append, List.append_assoc]
  congr 1
  · rw [textsAt_cons, BraceContent.strings, hb, sequenceTexts_eq]
  · rw [← List.cons_append, map_textsAt_append (by simp [Nat.add_comm 1])
      (fun i (hi : i ∈ branchPlaces (start + (1 + sequenceSize b)) bs) => le_of_mem_placesOf hi), hbs]

mutual

/-- **The first node of an item has its texts**, whatever nodes stand behind those of the item. -/
theorem BraceItem.textsAt_nodes (x : BraceItem) (parent start : Nat) (ns : List BraceNode) :
    textsAt start (x.nodes parent start ++ ns) start = x.texts := by
  cases x with
  | literal t => rw [BraceItem.nodes, List.singleton_append, textsAt_cons]; rfl
  | group first more =>
    have hbranches := textsAt_branchNodes_cons (textsAt_sequenceNodes first)
      (textsAt_branchNodes more) start (start + 1) ns
    have hnodes := BraceItem.nodes_ofBranches parent start (List.cons_ne_nil first more)
    rw [BraceItem.ofBranches] at hnodes
    rw [hnodes, List.cons_append, textsAt_cons, BraceContent.strings, List.flatMap_def, hbranches,
      BraceItem.texts, branchTexts_eq, ← List.flatMap_def, List.flatMap_cons]

/-- The texts of the items of a sequence. -/
theorem textsAt_sequenceNodes (xs : List BraceItem) (parent start : Nat) (ns : List BraceNode) :
    (itemPlaces start xs).map (textsAt start (sequenceNodes parent start xs ++ ns)) =
      xs.map BraceItem.texts := by
  cases xs with
  | nil => rfl
  | cons x xs =>
    rw [itemPlaces_cons, sequenceNodes, List.append_assoc, List.map_cons, List.map_cons,
      BraceItem.textsAt_nodes x, map_textsAt_append (by rw [BraceItem.length_nodes])
        (fun i (hi : i ∈ itemPlaces (start + x.size) xs) => le_of_mem_placesOf hi),
      textsAt_sequenceNodes xs]

/-- The texts of branches. -/
theorem textsAt_branchNodes (bs : List (List BraceItem)) (parent start : Nat)
    (ns : List BraceNode) :
    (branchPlaces start bs).map (textsAt start (branchNodes parent start bs ++ ns)) =
      bs.map sequenceTexts := by
  cases bs with
  | nil => rfl
  | cons b bs =>
    exact textsAt_branchNodes_cons (textsAt_sequenceNodes b) (textsAt_branchNodes bs) parent start ns

end

/-- **The texts of the tree are those of the sequence**; there are none as long as a group is
open. -/
theorem OpenGroups.alternatives_tree (o : OpenGroups (List BraceItem)) :
    o.tree.alternatives = if o.outer = [] then sequenceTexts o.current else [] := by
  rcases o with ⟨outer, current⟩
  cases outer with
  | nil =>
    have htexts := textsAt_sequenceNodes current 0 1 []
    rw [List.append_nil] at htexts
    rw [BraceTree.alternatives_eq, if_pos (by rfl), if_pos rfl, OpenGroups.tree, outerNodes,
      List.nil_append, textsAt_cons, BraceContent.strings, sequenceTexts_eq]
    exact congrArg concatProduct htexts
  | cons x outer => simp [BraceTree.alternatives_eq, OpenGroups.tree]

end PathGlob
