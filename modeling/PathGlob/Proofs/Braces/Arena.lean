import Mathlib.Data.List.Chain
import PathGlob.Proofs.Braces.Layout

/-! # Trees of brace groups as lists of nodes
Nodes refer to each other by their places in a list that only grows, and each call that builds a tree
changes some of the parents, the lists of children, the current place and the depth. What they have to do
with each other is kept by every call, also by one that fails, since nothing is written before the last
parent is found.

* **`BraceTree.Linked`** — parents and lists of children say the same; **`BraceTree.Sound`** — the nodes
  have the children that they may have; **`BraceTree.WellBuilt`** — the invariant of a tree under
  construction.
* **`BraceTree.Linked.addNode`**, **`BraceTree.Sound.addNode`**, **`BraceTree.Sound.addBranch`** — what a
  further node keeps.
* **`BraceTree.WellBuilt.addChar`**, **`openGroup`**, **`nextBranch`**, **`closeGroup`** — the steps.
* **`BraceStep.perform`** — the calls on a tree in place, which **`BraceStep.run_perform`** relates to the
  steps.
* **`BraceTree.Flattens`** — going down to the children; **`BraceTree.Linked.flattens`** — it ends.
* **`BraceTree.wellBuilt_afterSteps`** — the main statement. -/

namespace PathGlob

variable {t u : BraceTree} {i j p : Nat} {content : BraceContent}

/-! ## Views of a tree -/

/-- The kinds of nodes. -/
inductive BraceKind
  /-- Texts and choices in order. -/
  | sequence
  /-- Branches of which one is taken. -/
  | choice
  /-- Characters as they are. -/
  | text
  deriving DecidableEq, Repr

/-- The kind of a content. -/
def BraceContent.kind : BraceContent → BraceKind
  | .sequence _ => .sequence
  | .choice _ => .choice
  | .text _ => .text

/-- The kind of the node at a place. -/
def BraceTree.kind? (t : BraceTree) (i : Nat) : Option BraceKind :=
  (t.content? i).map BraceContent.kind

/-- The parent of the node at a place. -/
def BraceTree.parent? (t : BraceTree) (i : Nat) : Option Nat := t.nodes[i]?.bind BraceNode.parent

/-- The children of the node at a place. -/
def BraceTree.children (t : BraceTree) (i : Nat) : List Nat :=
  ((t.content? i).map BraceContent.children).getD []

/-- The kinds of the children of the node at a place. -/
def BraceTree.childKinds (t : BraceTree) (i : Nat) : List (Option BraceKind) :=
  (t.children i).map t.kind?

@[simp] theorem BraceContent.kind_attach (content : BraceContent) (i : Nat) :
    (content.attach i).kind = content.kind := by
  cases content <;> rfl

@[simp] theorem BraceContent.kind_push (content : BraceContent) (c : Char) :
    (content.push c).kind = content.kind := by
  cases content <;> rfl

@[simp] theorem BraceContent.children_push (content : BraceContent) (c : Char) :
    (content.push c).children = content.children := by
  cases content <;> rfl

/-- All contents but texts take a further child. -/
theorem BraceContent.children_attach (h : content.kind ≠ .text) (i : Nat) :
    (content.attach i).children = content.children ++ [i] := by
  cases content with
  | text chars => exact absurd rfl h
  | _ => rfl

/-! ### A changed content -/

section

variable (f : BraceContent → BraceContent)

@[simp] theorem BraceTree.size_modify : (t.modify p f).size = t.size := by
  simp [BraceTree.modify, BraceTree.size]

@[simp] theorem BraceTree.parent?_modify : (t.modify p f).parent? i = t.parent? i := by
  simp only [BraceTree.parent?, BraceTree.modify, List.getElem?_modify]
  cases t.nodes[i]? with
  | none => rfl
  | some n => by_cases h : p = i <;> simp [h]

/-- Only the content at the place is changed. -/
theorem BraceTree.content?_modify :
    (t.modify p f).content? i = if p = i then (t.content? i).map f else t.content? i := by
  simp only [BraceTree.content?, BraceTree.modify, List.getElem?_modify]
  cases t.nodes[i]? with
  | none => simp
  | some n => by_cases h : p = i <;> simp [h]

end

section

variable (c : Char)

@[simp] theorem BraceTree.kind?_push : (t.modify p (·.push c)).kind? i = t.kind? i := by
  rw [BraceTree.kind?, BraceTree.content?_modify]
  split
  · cases h : t.content? i <;> simp [BraceTree.kind?, h]
  · rfl

@[simp] theorem BraceTree.children_push : (t.modify p (·.push c)).children i = t.children i := by
  rw [BraceTree.children, BraceTree.content?_modify]
  split
  · cases h : t.content? i <;> simp [BraceTree.children, h]
  · rfl

end

/-! ### A further node -/

@[simp] theorem BraceTree.size_addNode : (t.addNode p content).size = t.size + 1 := by
  simp [BraceTree.addNode, BraceTree.modify, BraceTree.size]

/-- The new node stands behind all others. -/
theorem BraceTree.getElem?_addNode :
    (t.addNode p content).nodes[i]? =
      if i = t.size then some ⟨some p, content⟩ else (t.modify p (·.attach t.size)).nodes[i]? := by
  have hlen : (t.modify p (·.attach t.size)).nodes.length = t.size := BraceTree.size_modify _
  rw [BraceTree.addNode]
  rcases Nat.lt_trichotomy i t.size with hlt | rfl | hgt
  · rw [if_neg (Nat.ne_of_lt hlt), List.getElem?_append_left (by rwa [hlen])]
  · rw [if_pos rfl, List.getElem?_append_right (Nat.le_of_eq hlen), hlen, Nat.sub_self]
    rfl
  · rw [if_neg (Nat.ne_of_gt hgt), List.getElem?_eq_none, List.getElem?_eq_none]
    · rw [hlen]
      exact Nat.le_of_lt hgt
    · rw [List.length_append, hlen]
      exact hgt

theorem BraceTree.parent?_addNode :
    (t.addNode p content).parent? i = if i = t.size then some p else t.parent? i := by
  rw [BraceTree.parent?, BraceTree.getElem?_addNode]
  split
  · rfl
  · exact BraceTree.parent?_modify _

theorem BraceTree.content?_addNode :
    (t.addNode p content).content? i =
      if i = t.size then some content
      else if p = i then (t.content? i).map (·.attach t.size) else t.content? i := by
  rw [BraceTree.content?, BraceTree.getElem?_addNode]
  split
  · rfl
  · exact BraceTree.content?_modify _

theorem BraceTree.kind?_addNode :
    (t.addNode p content).kind? i = if i = t.size then some content.kind else t.kind? i := by
  rw [BraceTree.kind?, BraceTree.content?_addNode]
  split
  · rfl
  · split
    · cases h : t.content? i <;> simp [BraceTree.kind?, h]
    · rfl

/-- The new node has its parent and its kind, and the others keep theirs. -/
theorem BraceTree.parent?_addNode_self : (t.addNode p content).parent? t.size = some p := by
  rw [BraceTree.parent?_addNode, if_pos rfl]

theorem BraceTree.parent?_addNode_of_lt (hi : i < t.size) :
    (t.addNode p content).parent? i = t.parent? i := by
  rw [BraceTree.parent?_addNode, if_neg (Nat.ne_of_lt hi)]

theorem BraceTree.kind?_addNode_self : (t.addNode p content).kind? t.size = some content.kind := by
  rw [BraceTree.kind?_addNode, if_pos rfl]

theorem BraceTree.kind?_addNode_of_lt (hi : i < t.size) :
    (t.addNode p content).kind? i = t.kind? i := by
  rw [BraceTree.kind?_addNode, if_neg (Nat.ne_of_lt hi)]

/-- The new node is the last child of its parent. -/
theorem BraceTree.children_addNode (hp : ∃ k, t.kind? p = some k ∧ k ≠ .text) :
    (t.addNode p content).children i =
      if i = t.size then content.children
      else if i = p then t.children i ++ [t.size] else t.children i := by
  rw [BraceTree.children, BraceTree.content?_addNode]
  by_cases hi : i = t.size
  · rw [if_pos hi, if_pos hi]
    rfl
  rw [if_neg hi, if_neg hi]
  by_cases hpi : p = i
  · obtain ⟨k, hk, hne⟩ := hp
    obtain ⟨before, hbefore, rfl⟩ := Option.map_eq_some_iff.1 hk
    rw [if_pos hpi, if_pos hpi.symm, BraceTree.children, ← hpi, hbefore]
    exact BraceContent.children_attach hne t.size
  · rw [if_neg hpi, if_neg (Ne.symm hpi), BraceTree.children]

/-! ## Links -/

/-- A place with a kind is that of a node. -/
theorem BraceTree.lt_size_of_kind? {k : BraceKind} (h : t.kind? i = some k) : i < t.size := by
  obtain ⟨content, hcontent, -⟩ := Option.map_eq_some_iff.1 h
  obtain ⟨n, hn, -⟩ := Option.map_eq_some_iff.1 hcontent
  exact (List.getElem?_eq_some_iff.1 hn).1

/-- A place with a parent is that of a node. -/
theorem BraceTree.lt_size_of_parent? (h : t.parent? i = some p) : i < t.size := by
  obtain ⟨n, hn, -⟩ := Option.bind_eq_some_iff.1 h
  exact (List.getElem?_eq_some_iff.1 hn).1

/-- **A tree whose nodes are linked**: parents and lists of children say the same. -/
structure BraceTree.Linked (t : BraceTree) : Prop where
  /-- The root has no parent. -/
  root : t.parent? 0 = none
  /-- Every other node has one. -/
  parent : ∀ i, 0 < i → i < t.size → ∃ p, t.parent? i = some p
  /-- A parent stands in front of its children. -/
  parent_lt : ∀ i p, t.parent? i = some p → p < i
  /-- A node is among the children of its parent, and of no other node. -/
  mem_children_iff : ∀ i j, j ∈ t.children i ↔ t.parent? j = some i
  /-- Children stand in the order of their places. -/
  increasing : ∀ i, (t.children i).Pairwise (· < ·)

/-- Children are nodes. -/
theorem BraceTree.Linked.child_lt (h : t.Linked) (hj : j ∈ t.children i) : j < t.size :=
  BraceTree.lt_size_of_parent? ((h.mem_children_iff i j).1 hj)

/-- A node stands once in the list of children of its parent, and in no other list. -/
theorem BraceTree.Linked.count_children (h : t.Linked) (i j : Nat) :
    (t.children i).count j = if t.parent? j = some i then 1 else 0 := by
  have hnodup : (t.children i).Nodup := (h.increasing i).imp fun hlt => Nat.ne_of_lt hlt
  rw [hnodup.count]
  simp only [h.mem_children_iff]

/-- Only parents, children and the number of nodes decide whether the nodes are linked. -/
theorem BraceTree.Linked.congr (h : t.Linked) (hsize : u.size = t.size)
    (hparent : ∀ i, u.parent? i = t.parent? i) (hchildren : ∀ i, u.children i = t.children i) :
    u.Linked := by
  constructor
  · simpa only [hparent] using h.root
  · simpa only [hparent, hsize] using h.parent
  · simpa only [hparent] using h.parent_lt
  · simpa only [hparent, hchildren] using h.mem_children_iff
  · simpa only [hchildren] using h.increasing

section

variable (h : t.Linked) (hp : ∃ k, t.kind? p = some k ∧ k ≠ .text)
  (hcontent : content.children = [])

include h hp hcontent

/-- A further node is the child of its parent, and the other nodes are the children of theirs. -/
theorem BraceTree.Linked.mem_children_addNode_iff :
    j ∈ (t.addNode p content).children i ↔ (t.addNode p content).parent? j = some i := by
  have hlt : p < t.size := by
    obtain ⟨k, hk, -⟩ := hp
    exact BraceTree.lt_size_of_kind? hk
  rw [BraceTree.children_addNode hp, BraceTree.parent?_addNode, hcontent]
  by_cases hj : j = t.size
  · -- the new node has been nobody's child
    have hnot : t.size ∉ t.children i := fun hmem => Nat.lt_irrefl _ (h.child_lt hmem)
    subst hj
    split
    · rename_i hi
      simp [hi, Nat.ne_of_lt hlt]
    · split
      · rename_i hi
        simp [hi]
      · rename_i hi
        simp [hnot, Ne.symm hi]
  · rw [if_neg hj, ← h.mem_children_iff i j]
    split
    · -- the new node has no children yet
      rename_i hi
      have hnot : j ∉ t.children i := by
        intro hmem
        have hbehind := h.parent_lt j i ((h.mem_children_iff i j).1 hmem)
        have hfront := h.child_lt hmem
        omega
      simp [hnot]
    · split
      · simp [hj]
      · rfl

/-- A further node stands behind its siblings. -/
theorem BraceTree.Linked.increasing_addNode (i : Nat) :
    ((t.addNode p content).children i).Pairwise (· < ·) := by
  rw [BraceTree.children_addNode hp, hcontent]
  split
  · exact .nil
  · split
    · rw [List.pairwise_append]
      refine ⟨h.increasing i, List.pairwise_singleton _ _, ?_⟩
      intro j hj k hk
      rw [List.mem_singleton.1 hk]
      exact h.child_lt hj
    · exact h.increasing i

/-- **A further node is linked.** -/
theorem BraceTree.Linked.addNode : (t.addNode p content).Linked := by
  have hlt : p < t.size := by
    obtain ⟨k, hk, -⟩ := hp
    exact BraceTree.lt_size_of_kind? hk
  constructor
  · rw [BraceTree.parent?_addNode_of_lt (Nat.lt_of_le_of_lt (Nat.zero_le p) hlt)]
    exact h.root
  · intro i hi hsize
    rw [BraceTree.parent?_addNode]
    split
    · exact ⟨p, rfl⟩
    · rename_i hne
      rw [BraceTree.size_addNode] at hsize
      exact h.parent i hi (by omega)
  · intro i q hq
    rw [BraceTree.parent?_addNode] at hq
    split at hq
    · rename_i hi
      rw [hi, ← Option.some.inj hq]
      exact hlt
    · exact h.parent_lt i q hq
  · exact fun i j => h.mem_children_addNode_iff hp hcontent
  · exact h.increasing_addNode hp hcontent

end

/-! ## Kinds of children -/

/-- **The kinds that the children of a node have**, in order: a sequence holds texts and choices and no
two texts next to each other, a choice holds sequences, a text holds nothing. -/
def BraceKind.Allows : BraceKind → List (Option BraceKind) → Prop
  | .sequence, ks =>
    (∀ k ∈ ks, k = some .text ∨ k = some .choice) ∧
      ks.IsChain fun k l => ¬(k = some .text ∧ l = some .text)
  | .choice, ks => ∀ k ∈ ks, k = some .sequence
  | .text, ks => ks = []

/-- A node may have no children yet. -/
theorem BraceKind.allows_nil (k : BraceKind) : k.Allows [] := by
  cases k <;> simp [BraceKind.Allows]

/-- A sequence takes a text, unless there is one at its end. -/
theorem BraceKind.allows_text {ks : List (Option BraceKind)} (h : BraceKind.sequence.Allows ks)
    (hlast : some .text ∉ ks.getLast?) : BraceKind.sequence.Allows (ks ++ [some .text]) := by
  obtain ⟨hall, hchain⟩ := h
  refine ⟨?_, ?_⟩
  · intro k hk
    rcases List.mem_append.1 hk with hk | hk
    · exact hall k hk
    · exact .inl (List.mem_singleton.1 hk)
  · rw [List.isChain_append]
    refine ⟨hchain, .singleton _, ?_⟩
    rintro k hk l - ⟨rfl, -⟩
    exact hlast hk

/-- A sequence takes a choice. -/
theorem BraceKind.allows_choice {ks : List (Option BraceKind)} (h : BraceKind.sequence.Allows ks) :
    BraceKind.sequence.Allows (ks ++ [some .choice]) := by
  obtain ⟨hall, hchain⟩ := h
  refine ⟨?_, ?_⟩
  · intro k hk
    rcases List.mem_append.1 hk with hk | hk
    · exact hall k hk
    · exact .inr (List.mem_singleton.1 hk)
  · rw [List.isChain_append]
    refine ⟨hchain, .singleton _, ?_⟩
    rintro k - l hl ⟨-, rfl⟩
    simp at hl

/-- A choice takes a sequence. -/
theorem BraceKind.allows_sequence {ks : List (Option BraceKind)} (h : BraceKind.choice.Allows ks) :
    BraceKind.choice.Allows (ks ++ [some .sequence]) := by
  intro k hk
  rcases List.mem_append.1 hk with hk | hk
  · exact h k hk
  · exact List.mem_singleton.1 hk

/-- **A tree whose nodes have the children that they may have.** -/
structure BraceTree.Sound (t : BraceTree) : Prop extends t.Linked where
  /-- The root is a sequence. -/
  top : t.kind? 0 = some .sequence
  /-- Children have the right kinds. -/
  allows : ∀ i k, t.kind? i = some k → k.Allows (t.childKinds i)
  /-- No text is empty. -/
  written : ∀ i chars, t.content? i = some (.text chars) → chars ≠ []

/-- The kind of a new node stands behind those of its siblings. -/
theorem BraceTree.Linked.childKinds_addNode (h : t.Linked)
    (hp : ∃ k, t.kind? p = some k ∧ k ≠ .text) (hcontent : content.children = []) :
    (t.addNode p content).childKinds i =
      if i = t.size then []
      else if i = p then t.childKinds i ++ [some content.kind] else t.childKinds i := by
  have hold : (t.children i).map (t.addNode p content).kind? = t.childKinds i := by
    refine List.map_congr_left fun j hj => ?_
    exact BraceTree.kind?_addNode_of_lt (h.child_lt hj)
  rw [BraceTree.childKinds, BraceTree.children_addNode hp, hcontent]
  split
  · rfl
  · split
    · rw [List.map_append, hold, List.map_singleton, BraceTree.kind?_addNode_self]
    · exact hold

/-- **A further node that its parent may have.** -/
theorem BraceTree.Sound.addNode (h : t.Sound) {k : BraceKind} (hk : t.kind? p = some k)
    (hallows : k.Allows (t.childKinds p ++ [some content.kind])) (hcontent : content.children = [])
    (hwritten : content ≠ .text []) : (t.addNode p content).Sound := by
  have hp : ∃ k, t.kind? p = some k ∧ k ≠ .text := by
    refine ⟨k, hk, ?_⟩
    rintro rfl
    simp [BraceKind.Allows] at hallows
  have hsize := BraceTree.lt_size_of_kind? hk
  refine ⟨h.toLinked.addNode hp hcontent, ?_, ?_, ?_⟩
  · rw [BraceTree.kind?_addNode_of_lt (Nat.lt_of_le_of_lt (Nat.zero_le p) hsize)]
    exact h.top
  · intro i l hl
    rw [BraceTree.kind?_addNode] at hl
    -- only the list of the parent has grown
    rw [h.toLinked.childKinds_addNode hp hcontent]
    split
    · exact l.allows_nil
    · rename_i hi
      rw [if_neg hi] at hl
      split
      · rename_i hip
        rw [hip] at hl ⊢
        obtain rfl := Option.some.inj (hk.symm.trans hl)
        exact hallows
      · exact h.allows i l hl
  · intro i chars hi
    rw [BraceTree.content?_addNode] at hi
    split at hi
    · rintro rfl
      exact hwritten (Option.some.inj hi)
    · split at hi
      · obtain ⟨before, hbefore, hattach⟩ := Option.map_eq_some_iff.1 hi
        cases before with
        | text before =>
          obtain rfl : before = chars := BraceContent.text.inj hattach
          exact h.written i before hbefore
        | _ => cases hattach
      · exact h.written i chars hi

/-- **A text may grow.** -/
theorem BraceTree.Sound.push (h : t.Sound) (p : Nat) (c : Char) :
    (t.modify p (·.push c)).Sound := by
  have hkinds : ∀ i, (t.modify p (·.push c)).childKinds i = t.childKinds i := by
    intro i
    rw [BraceTree.childKinds, BraceTree.children_push, BraceTree.childKinds]
    exact List.map_congr_left fun j _ => BraceTree.kind?_push c
  refine ⟨h.toLinked.congr (BraceTree.size_modify _) (fun _ => BraceTree.parent?_modify _)
    (fun _ => BraceTree.children_push c), ?_, ?_, ?_⟩
  · simpa using h.top
  · simpa [hkinds] using h.allows
  · intro i chars hi
    rw [BraceTree.content?_modify] at hi
    split at hi
    · obtain ⟨before, -, hpush⟩ := Option.map_eq_some_iff.1 hi
      cases before with
      | text before =>
        rw [← BraceContent.text.inj hpush]
        simp
      | _ => cases hpush
    · exact h.written i chars hi

/-! ## Ancestors -/

/-- **The ancestors of a node**, from its parent up to the root. -/
inductive BraceTree.Ancestors (t : BraceTree) : Nat → List Nat → Prop
  /-- A node without a parent has none. -/
  | root {i : Nat} (h : t.parent? i = none) : t.Ancestors i []
  /-- Those of a parent are those of its children, too. -/
  | parent {i p : Nat} {above : List Nat} (h : t.parent? i = some p) (habove : t.Ancestors p above) :
    t.Ancestors i (p :: above)

/-- How many of some nodes are choices. -/
def BraceTree.choicesAmong (t : BraceTree) (places : List Nat) : Nat :=
  places.countP fun i => t.kind? i = some .choice

/-- A choice counts. -/
theorem BraceTree.choicesAmong_choice (hi : t.kind? i = some .choice) (places : List Nat) :
    t.choicesAmong (i :: places) = t.choicesAmong places + 1 :=
  List.countP_cons_of_pos (decide_eq_true hi)

/-- A sequence does not. -/
theorem BraceTree.choicesAmong_sequence (hi : t.kind? i = some .sequence) (places : List Nat) :
    t.choicesAmong (i :: places) = t.choicesAmong places :=
  List.countP_cons_of_neg (by simp [hi])

/-- There is one list of ancestors only. -/
theorem BraceTree.Ancestors.unique {above above' : List Nat} (h : t.Ancestors i above)
    (h' : t.Ancestors i above') : above' = above := by
  induction h generalizing above' with
  | root h =>
    cases h' with
    | root _ => rfl
    | parent hp _ =>
      rw [h] at hp
      cases hp
  | parent h _ ih =>
    cases h' with
    | root hp =>
      rw [h] at hp
      cases hp
    | parent hp habove =>
      rw [h] at hp
      cases hp
      rw [ih habove]

/-- Ancestors stand in front. -/
theorem BraceTree.Ancestors.lt (h : t.Linked) {above : List Nat} (habove : t.Ancestors i above) :
    ∀ j ∈ above, j < i := by
  induction habove with
  | root _ => intro j hj; cases hj
  | parent hp _ ih =>
    intro j hj
    have hlt := h.parent_lt _ _ hp
    rcases List.mem_cons.1 hj with rfl | hj
    · exact hlt
    · exact Nat.lt_trans (ih j hj) hlt

/-- **A further node changes nothing above the others.** -/
theorem BraceTree.Ancestors.addNode (h : t.Linked) (hi : i < t.size) {above : List Nat}
    (habove : t.Ancestors i above) (p : Nat) (content : BraceContent) :
    (t.addNode p content).Ancestors i above ∧
      (t.addNode p content).choicesAmong above = t.choicesAmong above := by
  -- on the way up all places stay in front of the new one
  constructor
  · induction habove with
    | root hroot =>
      refine .root ?_
      rw [BraceTree.parent?_addNode_of_lt hi]
      exact hroot
    | parent hp _ ih =>
      refine .parent ?_ (ih (Nat.lt_trans (h.parent_lt _ _ hp) hi))
      rw [BraceTree.parent?_addNode_of_lt hi]
      exact hp
  · refine List.countP_congr fun j hj => ?_
    have hlt := Nat.lt_trans (habove.lt h j hj) hi
    rw [BraceTree.kind?_addNode_of_lt hlt]

/-! ## Trees under construction -/

/-- **A tree as the steps of building leave it.** -/
structure BraceTree.WellBuilt (t : BraceTree) : Prop extends t.Sound where
  /-- Every choice has a branch. -/
  branched : ∀ i, t.kind? i = some .choice → t.children i ≠ []
  /-- The current node is a sequence. -/
  current : t.kind? t.current = some .sequence
  /-- The depth is the number of choices above it. -/
  depth : ∃ above, t.Ancestors t.current above ∧ t.choicesAmong above = t.depth

/-- Only the nodes of a tree decide whether they are sound. -/
theorem BraceTree.Sound.congr (h : t.Sound) (hnodes : u.nodes = t.nodes) : u.Sound := by
  obtain ⟨nodes, current, depth⟩ := u
  obtain rfl : nodes = t.nodes := hnodes
  exact ⟨⟨h.root, h.parent, h.parent_lt, h.mem_children_iff, h.increasing⟩, h.top, h.allows, h.written⟩

/-- Only the parents decide what is above a node. -/
theorem BraceTree.Ancestors.congr {above : List Nat} (h : t.Ancestors i above)
    (hparent : ∀ i, u.parent? i = t.parent? i) : u.Ancestors i above := by
  induction h with
  | root hroot => exact .root ((hparent _).trans hroot)
  | parent hp _ ih => exact .parent ((hparent _).trans hp) ih

/-- **Another sequence becomes current**, with the depth that belongs to it. -/
theorem BraceTree.Sound.moveTo (h : t.Sound)
    (hbranched : ∀ i, t.kind? i = some .choice → t.children i ≠ []) (hi : t.kind? i = some .sequence)
    {above : List Nat} (habove : t.Ancestors i above) {d : Nat} (hd : t.choicesAmong above = d) :
    BraceTree.WellBuilt { t with current := i, depth := d } :=
  ⟨h.congr rfl, hbranched, hi, above, habove.congr fun _ => rfl, hd⟩

/-- A node with children has a kind. -/
theorem BraceTree.exists_kind?_of_mem_children (h : j ∈ t.children i) : ∃ k, t.kind? i = some k := by
  unfold BraceTree.children at h
  cases hcontent : t.content? i with
  | none => simp [hcontent] at h
  | some content => exact ⟨content.kind, by rw [BraceTree.kind?, hcontent]; rfl⟩

/-- **Above a sequence stands a choice, and above other nodes a sequence.** -/
theorem BraceTree.Sound.kind?_parent (h : t.Sound) {k : BraceKind} (hp : t.parent? j = some p)
    (hk : t.kind? j = some k) :
    t.kind? p = some (if k = .sequence then .choice else .sequence) := by
  have hmem := (h.mem_children_iff p j).2 hp
  obtain ⟨l, hl⟩ := BraceTree.exists_kind?_of_mem_children hmem
  have hallows := h.allows p l hl
  have hkind : some k ∈ t.childKinds p := hk ▸ List.mem_map_of_mem hmem
  cases l with
  | sequence =>
    rcases hallows.1 _ hkind with heq | heq
    · rw [hl, Option.some.inj heq]
      rfl
    · rw [hl, Option.some.inj heq]
      rfl
  | choice =>
    rw [hl, Option.some.inj (hallows _ hkind)]
    rfl
  | text =>
    have hnil : t.childKinds p = [] := hallows
    rw [hnil] at hkind
    cases hkind

/-- **The current node is the root, or a branch of a choice** in the sequence that goes on behind it. -/
theorem BraceTree.WellBuilt.current_cases (h : t.WellBuilt) :
    (t.parent? t.current = none ∧ t.depth = 0) ∨
      ∃ choice outer above, t.parent? t.current = some choice ∧ t.kind? choice = some .choice ∧
        t.parent? choice = some outer ∧ t.kind? outer = some .sequence ∧ t.Ancestors outer above ∧
        t.choicesAmong above + 1 = t.depth := by
  obtain ⟨above, habove, hdepth⟩ := h.depth
  cases habove with
  | root hroot => exact .inl ⟨hroot, hdepth.symm⟩
  | @parent _ choice _ hchoice habove =>
    have hkind : t.kind? choice = some .choice := h.toSound.kind?_parent hchoice h.current
    cases habove with
    | root hroot =>
      -- the root is no choice
      have hsize := BraceTree.lt_size_of_kind? hkind
      have hpos : 0 < choice := by
        rw [Nat.pos_iff_ne_zero]
        rintro rfl
        rw [h.top] at hkind
        cases hkind
      obtain ⟨outer, houter⟩ := h.parent choice hpos hsize
      rw [hroot] at houter
      cases houter
    | @parent _ outer above houter habove =>
      have hkind' : t.kind? outer = some .sequence := h.toSound.kind?_parent houter hkind
      refine .inr ⟨choice, outer, above, hchoice, hkind, houter, hkind', habove, ?_⟩
      rw [← hdepth, BraceTree.choicesAmong_choice hkind, BraceTree.choicesAmong_sequence hkind']

/-- At the beginning there is an empty sequence. -/
theorem BraceTree.wellBuilt_empty : BraceTree.empty.WellBuilt := by
  have hcontent : ∀ i content, BraceTree.empty.content? i = some content →
      i = 0 ∧ content = .sequence [] := by
    intro i content hi
    cases i with
    | zero => exact ⟨rfl, (Option.some.inj hi).symm⟩
    | succ i => cases hi
  have hparent : ∀ i, BraceTree.empty.parent? i = none := by
    intro i
    cases i <;> rfl
  have hchildren : ∀ i, BraceTree.empty.children i = [] := by
    intro i
    cases i <;> rfl
  refine ⟨⟨⟨rfl, ?_, ?_, ?_, ?_⟩, rfl, ?_, ?_⟩, ?_, rfl, [], .root rfl, rfl⟩
  · intro i hpos hsize
    exact absurd hsize (Nat.not_lt.2 hpos)
  · intro i p hp
    rw [hparent] at hp
    cases hp
  · intro i j
    rw [hchildren, hparent]
    simp
  · intro i
    rw [hchildren]
    exact .nil
  · intro i k _
    rw [BraceTree.childKinds, hchildren]
    exact k.allows_nil
  · intro i chars hi
    cases (hcontent i _ hi).2
  · intro i hi
    obtain ⟨content, hi, hk⟩ := Option.map_eq_some_iff.1 hi
    rw [(hcontent i content hi).2] at hk
    cases hk

/-! ### Steps -/

/-- A new child is not the end of the others. -/
theorem BraceTree.children_addNode_ne_nil (hp : ∃ k, t.kind? p = some k ∧ k ≠ .text)
    (hi : i ≠ t.size) (h : t.children i ≠ []) : (t.addNode p content).children i ≠ [] := by
  rw [BraceTree.children_addNode hp, if_neg hi]
  split
  · simp
  · exact h

/-- The parent of a node with a parent. -/
theorem BraceTree.parentOf_eq (t : BraceTree) (i : Nat) :
    t.parentOf i = match t.parent? i with
      | some p => .ok p
      | none => .error .outsideRoot := rfl

/-- **A new branch of a choice becomes current**, if all other choices have branches. -/
theorem BraceTree.Sound.addBranch (h : t.Sound) (hp : t.kind? p = some .choice)
    (hothers : ∀ i, i ≠ p → t.kind? i = some .choice → t.children i ≠ []) {above : List Nat}
    (habove : t.Ancestors p above) {d : Nat} (hd : t.choicesAmong above + 1 = d) :
    BraceTree.WellBuilt { t.addNode p (.sequence []) with current := t.size, depth := d } := by
  have hchoice : ∃ k, t.kind? p = some k ∧ k ≠ .text := ⟨_, hp, by simp⟩
  have hlt := BraceTree.lt_size_of_kind? hp
  have hsound : (t.addNode p (.sequence [])).Sound :=
    h.addNode hp (BraceKind.allows_sequence (h.allows p _ hp)) rfl (by simp)
  obtain ⟨habove', hcount⟩ := habove.addNode h.toLinked hlt p (.sequence [])
  have hkind : (t.addNode p (.sequence [])).kind? p = some .choice := by
    rw [BraceTree.kind?_addNode_of_lt hlt, hp]
  refine hsound.moveTo ?_ BraceTree.kind?_addNode_self
    (.parent BraceTree.parent?_addNode_self habove') ?_
  · intro i hi
    rw [BraceTree.kind?_addNode] at hi
    split at hi
    · cases hi
    · rename_i hne
      by_cases hip : i = p
      · rw [BraceTree.children_addNode hchoice, if_neg hne, if_pos hip]
        simp
      · exact BraceTree.children_addNode_ne_nil hchoice hne (hothers i hip hi)
  · rw [BraceTree.choicesAmong_choice hkind, hcount, hd]

/-- **The beginning of a group keeps a tree well-built.** -/
theorem BraceTree.WellBuilt.openGroup (h : t.WellBuilt) : t.openGroup.WellBuilt := by
  have hseq : ∃ k, t.kind? t.current = some k ∧ k ≠ .text := ⟨_, h.current, by simp⟩
  obtain ⟨above, habove, hdepth⟩ := h.depth
  have hlt := BraceTree.lt_size_of_kind? h.current
  have hsound : (t.addNode t.current (.choice [])).Sound :=
    h.toSound.addNode h.current (BraceKind.allows_choice (h.allows _ _ h.current)) rfl (by simp)
  obtain ⟨habove', hcount⟩ := habove.addNode h.toLinked hlt t.current (.choice [])
  -- the new choice is the only one without a branch, and gets its first
  refine hsound.addBranch BraceTree.kind?_addNode_self ?_
    (.parent BraceTree.parent?_addNode_self habove') ?_
  · intro i hne hi
    rw [BraceTree.kind?_addNode, if_neg hne] at hi
    exact BraceTree.children_addNode_ne_nil hseq hne (h.branched i hi)
  · have hkind : (t.addNode t.current (.choice [])).kind? t.current = some .sequence := by
      rw [BraceTree.kind?_addNode_of_lt hlt, h.current]
    rw [BraceTree.choicesAmong_sequence hkind, hcount, hdepth]

/-- **What follows from a next branch**: there is one unless the root is current. -/
theorem BraceTree.WellBuilt.nextBranch (h : t.WellBuilt) :
    if t.depth = 0 then t.nextBranch = .error .outsideRoot
    else ∃ u, t.nextBranch = .ok u ∧ u.WellBuilt ∧ u.depth = t.depth := by
  rcases h.current_cases with ⟨hroot, hdepth⟩ | ⟨choice, outer, above, hchoice, hkind, houter, hkind',
    habove, hdepth⟩
  · rw [if_pos hdepth, BraceTree.nextBranch, BraceTree.parentOf_eq, hroot]
    rfl
  · rw [if_neg (by omega), BraceTree.nextBranch, BraceTree.parentOf_eq, hchoice]
    refine ⟨_, rfl, ?_, rfl⟩
    refine h.toSound.addBranch hkind (fun i _ hi => h.branched i hi) (.parent houter habove) ?_
    rw [BraceTree.choicesAmong_sequence hkind']
    exact hdepth

/-- The sequence behind the innermost choice becomes current. -/
theorem BraceTree.closeGroup_of_ok {choice : Nat} (h : t.parentOf t.current = .ok choice) :
    t.closeGroup =
      (t.parentOf choice).map fun outer => { t with current := outer, depth := t.depth - 1 } := by
  simp only [BraceTree.closeGroup, h, bind, Except.bind]
  cases t.parentOf choice <;> rfl

/-- **What follows from the end of a group**: there is one unless the root is current. -/
theorem BraceTree.WellBuilt.closeGroup (h : t.WellBuilt) :
    if t.depth = 0 then t.closeGroup = .error .outsideRoot
    else ∃ u, t.closeGroup = .ok u ∧ u.WellBuilt ∧ u.depth + 1 = t.depth := by
  rcases h.current_cases with ⟨hroot, hdepth⟩ | ⟨choice, outer, above, hchoice, hkind, houter, hkind',
    habove, hdepth⟩
  · rw [if_pos hdepth, BraceTree.closeGroup, BraceTree.parentOf_eq, hroot]
    rfl
  · have hclose : t.closeGroup = .ok { t with current := outer, depth := t.depth - 1 } := by
      have hparent : t.parentOf t.current = .ok choice := by rw [BraceTree.parentOf_eq, hchoice]
      rw [BraceTree.closeGroup_of_ok hparent, BraceTree.parentOf_eq, houter]
      rfl
    rw [if_neg (by omega)]
    have hbuilt := h.toSound.moveTo h.branched hkind' habove (d := t.depth - 1) (by omega)
    exact ⟨_, hclose, hbuilt, Nat.sub_add_cancel (by omega)⟩

/-- If no text is open, the current sequence does not end with one. -/
theorem BraceTree.not_text_of_openText? (hnone : t.openText? = none) :
    some .text ∉ (t.childKinds t.current).getLast? := by
  intro hlast
  rw [BraceTree.childKinds, List.getLast?_map] at hlast
  obtain ⟨last, hlast, hkind⟩ := Option.map_eq_some_iff.1 hlast
  obtain ⟨content, hcontent, htext⟩ := Option.map_eq_some_iff.1 hkind
  cases hcurrent : t.content? t.current with
  | none => simp [BraceTree.children, hcurrent] at hlast
  | some before =>
    have hlast' : before.children.getLast? = some last := by
      simpa [BraceTree.children, hcurrent] using hlast
    have hopen : content.isText = true := by
      cases content with
      | text chars => rfl
      | _ => cases htext
    simp [BraceTree.openText?, hcurrent, hlast', hcontent, hopen] at hnone

/-- **A character keeps a tree well-built.** -/
theorem BraceTree.WellBuilt.addChar (h : t.WellBuilt) (c : Char) : (t.addChar c).WellBuilt := by
  obtain ⟨above, habove, hdepth⟩ := h.depth
  rw [BraceTree.addChar]
  cases hopen : t.openText? with
  | some i =>
    -- the text at the end grows
    have hcount : (t.modify i (·.push c)).choicesAmong above = t.choicesAmong above :=
      List.countP_congr fun j _ => by rw [BraceTree.kind?_push]
    refine ⟨h.toSound.push i c, ?_, ?_, above, ?_, hcount.trans hdepth⟩
    · simpa using h.branched
    · exact (BraceTree.kind?_push c).trans h.current
    · exact habove.congr fun _ => BraceTree.parent?_modify _
  | none =>
    have hseq : ∃ k, t.kind? t.current = some k ∧ k ≠ .text := ⟨_, h.current, by simp⟩
    have hlt := BraceTree.lt_size_of_kind? h.current
    have hallows :=
      BraceKind.allows_text (h.allows _ _ h.current) (BraceTree.not_text_of_openText? hopen)
    obtain ⟨habove', hcount⟩ := habove.addNode h.toLinked hlt t.current (.text [c])
    refine ⟨h.toSound.addNode h.current hallows rfl (by simp), ?_, ?_, above, habove', ?_⟩
    · intro i hi
      rw [BraceTree.kind?_addNode] at hi
      split at hi
      · cases hi
      · rename_i hne
        exact BraceTree.children_addNode_ne_nil hseq hne (h.branched i hi)
    · change (t.addNode t.current (.text [c])).kind? t.current = _
      rw [BraceTree.kind?_addNode_of_lt hlt, h.current]
    · exact hcount.trans hdepth

/-! ## Building in place -/

/-- **The calls that build a tree.** -/
inductive BraceStep
  /-- A character joins the current sequence. -/
  | char (c : Char)
  /-- A group begins. -/
  | openGroup
  /-- The next branch of the innermost group begins. -/
  | nextBranch
  /-- The innermost group ends. -/
  | closeGroup
  deriving DecidableEq, Repr

/-- Makes a node and returns its place. -/
def makeNode (parent : Nat) (content : BraceContent) : EStateM BraceError BraceTree Nat := do
  let t ← get
  set (t.addNode parent content)
  return t.size

/-- Looks for the parent of the node at a place. -/
def findParent (i : Nat) : EStateM BraceError BraceTree Nat := do
  match (← get).parentOf i with
  | .ok p => return p
  | .error e => throw e

/-- **Performs a call on the tree in place**: what was changed before an error stays changed. -/
def BraceStep.perform : BraceStep → EStateM BraceError BraceTree Unit
  | .char c => do
    let t ← get
    let place ←
      match t.openText? with
      | some i => pure i
      | none => makeNode t.current (.text [])
    modify (·.modify place (·.push c))
  | .openGroup => do
    let choice ← makeNode (← get).current (.choice [])
    let branch ← makeNode choice (.sequence [])
    modify ({ · with current := branch })
    modify fun t => { t with depth := t.depth + 1 }
  | .nextBranch => do
    let choice ← findParent (← get).current
    let branch ← makeNode choice (.sequence [])
    modify ({ · with current := branch })
  | .closeGroup => do
    -- both parents are found before anything is written
    let choice ← findParent (← get).current
    let outer ← findParent choice
    modify ({ · with current := outer })
    modify fun t => { t with depth := t.depth - 1 }

/-- The tree that a call leads to. -/
def BraceTree.step (t : BraceTree) : BraceStep → Except BraceError BraceTree
  | .char c => .ok (t.addChar c)
  | .openGroup => .ok t.openGroup
  | .nextBranch => t.nextBranch
  | .closeGroup => t.closeGroup

/-- The end of a call that leads to `outcome`: an error leaves the tree as it was. -/
def BraceTree.afterStep (t : BraceTree) :
    Except BraceError BraceTree → EStateM.Result BraceError BraceTree Unit
  | .ok u => .ok () u
  | .error e => .error e t

theorem run_makeNode (t : BraceTree) (parent : Nat) (content : BraceContent) :
    (makeNode parent content).run t = .ok t.size (t.addNode parent content) := rfl

/-- Looking for a parent changes nothing. -/
theorem run_findParent (t : BraceTree) (i : Nat) :
    (findParent i).run t = match t.parentOf i with
      | .ok p => .ok p t
      | .error e => .error e t := by
  rw [findParent, EStateM.run_bind]
  show EStateM.run (match t.parentOf i with | .ok p => _ | .error e => _) t = _
  cases t.parentOf i <;> rfl

/-- A text that is made empty and takes a character is made with it. -/
theorem BraceTree.push_addNode (t : BraceTree) (p : Nat) (c : Char) :
    (t.addNode p (.text [])).modify t.size (·.push c) = t.addNode p (.text [c]) :=
  BraceTree.modify_at (BraceTree.size_modify _) _

/-- **A call in place leads to the same tree**, and one that fails leaves nothing behind. -/
theorem BraceStep.run_perform (s : BraceStep) (t : BraceTree) :
    s.perform.run t = t.afterStep (t.step s) := by
  cases s with
  | char c =>
    unfold BraceTree.step BraceTree.addChar
    cases h : t.openText? with
    | some i => simp [BraceStep.perform, h, BraceTree.afterStep]
    | none =>
      -- in place a new text is made empty, and then grows
      simp only [BraceTree.afterStep, ← BraceTree.push_addNode]
      simp [BraceStep.perform, h, run_makeNode]
  | openGroup => rfl
  | nextBranch =>
    unfold BraceTree.step BraceTree.nextBranch
    cases h : t.parentOf t.current with
    | ok choice => simp [BraceStep.perform, run_findParent, run_makeNode, h, BraceTree.afterStep]
    | error e => simp [BraceStep.perform, run_findParent, h, BraceTree.afterStep]
  | closeGroup =>
    unfold BraceTree.step
    cases h : t.parentOf t.current with
    | error e =>
      have hclose : t.closeGroup = .error e := by
        rw [BraceTree.closeGroup, h]
        rfl
      simp [BraceStep.perform, run_findParent, h, hclose, BraceTree.afterStep]
    | ok choice =>
      rw [BraceTree.closeGroup_of_ok h]
      cases h' : t.parentOf choice with
      | ok outer => simp [BraceStep.perform, run_findParent, h, h', BraceTree.afterStep, Except.map]
      | error e => simp [BraceStep.perform, run_findParent, h, h', BraceTree.afterStep, Except.map]

/-! ## Flattening -/

/-- **The texts of a node, found by going down to its children.** -/
inductive BraceTree.Flattens (t : BraceTree) : Nat → List Text → Prop
  /-- The texts of a node come from those of its children. -/
  | node {i : Nat} {content : BraceContent} {textsOf : Nat → List Text}
    (hcontent : t.content? i = some content)
    (hchildren : ∀ j ∈ content.children, t.Flattens j (textsOf j)) :
    t.Flattens i (content.strings textsOf)

/-- Only the texts of its children decide about those of a node. -/
theorem BraceContent.strings_congr {f g : Nat → List Text}
    (h : ∀ j ∈ content.children, f j = g j) : content.strings f = content.strings g := by
  cases content with
  | text chars => rfl
  | choice branches => exact List.flatMap_congr h
  | sequence parts => exact congrArg concatProduct (List.map_congr_left h)

/-- There is only one result. -/
theorem BraceTree.Flattens.unique {ss ss' : List Text} (h : t.Flattens i ss)
    (h' : t.Flattens i ss') : ss' = ss := by
  induction h generalizing ss' with
  | node hcontent _ ih =>
    cases h' with
    | node hcontent' hchildren' =>
      obtain rfl := Option.some.inj (hcontent.symm.trans hcontent')
      exact BraceContent.strings_congr fun j hj => ih j hj (hchildren' j hj)

/-- **Going down ends at every node**, with the texts that are found from the back of the list. -/
theorem BraceTree.Linked.flattens (h : t.Linked) (hi : i < t.size) :
    t.Flattens i (textsAt 0 t.nodes i) := by
  -- fewer nodes stand behind a child than behind its parent
  induction hn : t.size - i using Nat.strongRecOn generalizing i with
  | _ n later =>
    have hcontent : t.content? i = some t.nodes[i].content := by
      rw [BraceTree.content?, List.getElem?_eq_getElem hi]
      rfl
    have hchild : ∀ j ∈ t.nodes[i].content.children, i < j ∧ j < t.size := by
      intro j hj
      have hmem : j ∈ t.children i := by rwa [BraceTree.children, hcontent]
      exact ⟨h.parent_lt j i ((h.mem_children_iff i j).1 hmem), h.child_lt hmem⟩
    have htexts : textsAt 0 t.nodes i = t.nodes[i].content.strings (textsAt 0 t.nodes) := by
      rw [textsAt_drop (Nat.le_of_lt hi) (Nat.le_refl i), List.drop_eq_getElem_cons hi, textsAt_cons]
      exact BraceContent.strings_congr fun j hj => (textsAt_drop hi (hchild j hj).1).symm
    rw [htexts]
    refine .node hcontent fun j hj => ?_
    obtain ⟨hlt, hsize⟩ := hchild j hj
    exact later (t.size - j) (by omega) hsize rfl

/-- Lists with something to choose from have a text that is put together. -/
theorem concatProduct_ne_nil {sss : List (List Text)} (h : ∀ ss ∈ sss, ss ≠ []) :
    concatProduct sss ≠ [] := by
  induction sss with
  | nil => simp
  | cons ss sss ih =>
    obtain ⟨s, ss, rfl⟩ := List.exists_cons_of_ne_nil (h ss List.mem_cons_self)
    have hrest := ih fun ss hss => h ss (List.mem_cons_of_mem _ hss)
    simp [hrest]

/-- **Every node of a well-built tree has a text.** -/
theorem BraceTree.WellBuilt.flattens_ne_nil (h : t.WellBuilt) {ss : List Text}
    (hss : t.Flattens i ss) : ss ≠ [] := by
  induction hss with
  | @node i content textsOf hcontent _ ih =>
    cases content with
    | text chars => simp [BraceContent.strings]
    | choice branches =>
      have hne : branches ≠ [] := by
        have hbranched := h.branched i (by rw [BraceTree.kind?, hcontent]; rfl)
        rwa [BraceTree.children, hcontent] at hbranched
      obtain ⟨b, bs, rfl⟩ := List.exists_cons_of_ne_nil hne
      have hfirst := ih b List.mem_cons_self
      simp [BraceContent.strings, hfirst]
    | sequence parts =>
      refine concatProduct_ne_nil fun ss hss => ?_
      obtain ⟨j, hj, rfl⟩ := List.mem_map.1 hss
      exact ih j hj

/-! ## Call after call -/

/-- **The tree that a call leaves behind**, whether it fails or not. -/
def BraceStep.leaves (s : BraceStep) (t : BraceTree) : BraceTree :=
  match s.perform.run t with
  | .ok _ u => u
  | .error _ u => u

/-- The tree that calls leave behind, one after the other. -/
def BraceTree.afterSteps (steps : List BraceStep) : BraceTree :=
  steps.foldl (fun t s => s.leaves t) BraceTree.empty

/-- **What a call does to a well-built tree**: without an open group there is no next branch and no end of
a group, and in all other cases the tree stays well-built. -/
theorem BraceTree.WellBuilt.step_cases (h : t.WellBuilt) (s : BraceStep) :
    if (s = .nextBranch ∨ s = .closeGroup) ∧ t.depth = 0 then t.step s = .error .outsideRoot
    else ∃ u, t.step s = .ok u ∧ u.WellBuilt := by
  cases s with
  | char c => exact ⟨_, rfl, h.addChar c⟩
  | openGroup => exact ⟨_, rfl, h.openGroup⟩
  | nextBranch =>
    have hbranch := h.nextBranch
    split at hbranch
    · rename_i hdepth
      rw [if_pos ⟨.inl rfl, hdepth⟩]
      exact hbranch
    · rename_i hdepth
      rw [if_neg fun hfail => hdepth hfail.2]
      obtain ⟨u, hu, hbuilt, -⟩ := hbranch
      exact ⟨u, hu, hbuilt⟩
  | closeGroup =>
    have hclose := h.closeGroup
    split at hclose
    · rename_i hdepth
      rw [if_pos ⟨.inr rfl, hdepth⟩]
      exact hclose
    · rename_i hdepth
      rw [if_neg fun hfail => hdepth hfail.2]
      obtain ⟨u, hu, hbuilt, -⟩ := hclose
      exact ⟨u, hu, hbuilt⟩

/-- A call leaves a well-built tree behind. -/
theorem BraceTree.WellBuilt.leaves (h : t.WellBuilt) (s : BraceStep) : (s.leaves t).WellBuilt := by
  have hstep := h.step_cases s
  rw [BraceStep.leaves, BraceStep.run_perform]
  split at hstep
  · rw [hstep]
    exact h
  · obtain ⟨u, hu, hbuilt⟩ := hstep
    rw [hu]
    exact hbuilt

/-- **A call fails exactly if it needs an open group and there is none**, and then it leaves the tree as
it was. -/
theorem BraceTree.WellBuilt.run_eq_error_iff (h : t.WellBuilt) (s : BraceStep) (e : BraceError) :
    s.perform.run t = .error e u ↔
      ((s = .nextBranch ∨ s = .closeGroup) ∧ t.depth = 0) ∧ u = t := by
  have hstep := h.step_cases s
  rw [BraceStep.run_perform]
  split at hstep
  · rename_i hfail
    cases e
    simp [hstep, BraceTree.afterStep, hfail, eq_comm]
  · rename_i hfail
    obtain ⟨v, hv, -⟩ := hstep
    simp [hv, BraceTree.afterStep, hfail]

/-- **Call after call leaves a well-built tree behind.** -/
theorem BraceTree.wellBuilt_foldl (h : t.WellBuilt) (steps : List BraceStep) :
    (steps.foldl (fun t s => s.leaves t) t).WellBuilt := by
  induction steps generalizing t with
  | nil => exact h
  | cons s steps ih => exact ih (h.leaves s)

/-- **The invariant of a tree under construction.** Whatever calls are made, also such that fail, the tree
is well-built. A node stands once in the list of children of its parent and in no other list. The depth
is the number of choices above the current node, so a call fails exactly if no group is open and it
needs one; then the tree is as before, and otherwise the end of a group takes one from a depth that
is not zero. Going down from any node comes to an end and to one result. The texts of the tree are those
of its root while no group is open, and there is at least one then. -/
theorem BraceTree.wellBuilt_afterSteps (steps : List BraceStep) :
    let t := BraceTree.afterSteps steps
    t.WellBuilt ∧
      (∀ i j, (t.children i).count j = if t.parent? j = some i then 1 else 0) ∧
      (∀ above, t.Ancestors t.current above → t.choicesAmong above = t.depth) ∧
      (∀ (s : BraceStep) (e : BraceError) (u : BraceTree), s.perform.run t = .error e u ↔
        ((s = .nextBranch ∨ s = .closeGroup) ∧ t.depth = 0) ∧ u = t) ∧
      (∀ u : BraceTree, BraceStep.closeGroup.perform.run t = .ok () u → u.depth + 1 = t.depth) ∧
      (∀ i, i < t.size → ∃! ss, t.Flattens i ss) ∧
      ∃ ss, t.Flattens 0 ss ∧ t.alternatives = (if t.depth = 0 then ss else []) ∧
        (t.depth = 0 → t.alternatives ≠ []) := by
  intro t
  have hbuilt : t.WellBuilt := BraceTree.wellBuilt_foldl BraceTree.wellBuilt_empty steps
  have hflattens := hbuilt.toLinked.flattens (BraceTree.lt_size_of_kind? hbuilt.top)
  refine ⟨hbuilt, hbuilt.toLinked.count_children, ?_, fun s e _ => hbuilt.run_eq_error_iff s e, ?_, ?_,
    _, hflattens, t.alternatives_eq, ?_⟩
  · intro above habove
    obtain ⟨above', habove', hdepth⟩ := hbuilt.depth
    rw [← habove.unique habove', hdepth]
  · intro u hu
    have hclose := hbuilt.closeGroup
    rw [BraceStep.run_perform, BraceTree.step] at hu
    split at hclose
    · rw [hclose] at hu
      cases hu
    · obtain ⟨v, hv, -, hdepth⟩ := hclose
      rw [hv] at hu
      cases hu
      exact hdepth
  · intro i hi
    exact ⟨_, hbuilt.toLinked.flattens hi, fun ss hss => (hbuilt.toLinked.flattens hi).unique hss⟩
  · intro hdepth
    rw [t.alternatives_eq, if_pos hdepth]
    exact hbuilt.flattens_ne_nil hflattens

/-- A group is closed that is not open, and then one is built with two branches. -/
theorem BraceTree.wellBuilt_afterSteps_group :
    let steps : List BraceStep :=
      [.closeGroup, .char 'a', .openGroup, .char 'b', .nextBranch, .closeGroup]
    (BraceTree.afterSteps steps).depth = 0 ∧
      (BraceTree.afterSteps steps).alternatives = [['a', 'b'], ['a']] ∧
      (BraceTree.afterSteps steps).WellBuilt :=
  ⟨by decide, by decide, (BraceTree.wellBuilt_afterSteps _).1⟩

end PathGlob
