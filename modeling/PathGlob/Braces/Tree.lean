import PathGlob.Text

/-! # Trees of brace groups
The alternatives of a pattern with brace groups form a tree: a sequence holds texts and choices in
order, a choice holds one sequence for each of its branches. The tree is built from left to right,
its nodes stand in a list in the order of their making, and each refers to its parent and its
children by their places in that list. A child therefore always stands behind its parent.

* **`BraceTree`** — a tree under construction, with the sequence that receives what comes next.
* **`BraceTree.addChar`**, **`openGroup`**, **`nextBranch`**, **`closeGroup`** — the steps of
  building.
* **`BraceTree.alternatives`** — all texts that a choice of branches leads to. -/

namespace PathGlob

/-! ## Nodes -/

/-- What a node holds. -/
inductive BraceContent
  /-- Texts and choices in order. -/
  | sequence (parts : List Nat)
  /-- Sequences of which one is taken. -/
  | choice (branches : List Nat)
  /-- Characters as they are. -/
  | text (chars : Text)
  deriving DecidableEq, Repr

/-- The places of a node's children. -/
def BraceContent.children : BraceContent → List Nat
  | .sequence parts => parts
  | .choice branches => branches
  | .text _ => []

/-- A content with one more child at the end. -/
def BraceContent.attach (child : Nat) : BraceContent → BraceContent
  | .sequence parts => .sequence (parts ++ [child])
  | .choice branches => .choice (branches ++ [child])
  | .text chars => .text chars

/-- A content with one more character, which only a text takes. -/
def BraceContent.push (c : Char) : BraceContent → BraceContent
  | .text chars => .text (chars ++ [c])
  | content => content

/-- Whether a content is a text. -/
def BraceContent.isText : BraceContent → Bool
  | .text _ => true
  | _ => false

/-- A node of the tree. -/
structure BraceNode where
  /-- The place of the parent; the root has none. -/
  parent : Option Nat
  /-- What the node holds. -/
  content : BraceContent
  deriving DecidableEq, Repr

/-- A tree under construction. -/
structure BraceTree where
  /-- The nodes in the order of their making. -/
  nodes : List BraceNode
  /-- The place of the sequence that receives the next character. -/
  current : Nat
  /-- How many choices are open. -/
  depth : Nat
  deriving DecidableEq, Repr

/-- Why a step of building is refused. -/
inductive BraceError
  /-- The step leads out of the root. -/
  | outsideRoot
  deriving DecidableEq, Repr

/-- The wording of an error. -/
def BraceError.message : BraceError → Text
  | .outsideRoot => "root node has no parent".toList

/-! ## Building -/

/-- The tree whose root sequence is empty. -/
def BraceTree.empty : BraceTree := ⟨[⟨none, .sequence []⟩], 0, 0⟩

/-- The place that the next node gets. -/
def BraceTree.size (t : BraceTree) : Nat := t.nodes.length

/-- What the node at a place holds. -/
def BraceTree.content? (t : BraceTree) (i : Nat) : Option BraceContent :=
  t.nodes[i]?.map BraceNode.content

/-- The parent of the node at a place. -/
def BraceTree.parentOf (t : BraceTree) (i : Nat) : Except BraceError Nat :=
  match t.nodes[i]?.bind BraceNode.parent with
  | some p => .ok p
  | none => .error .outsideRoot

/-- The tree in which the content of one node is changed. -/
def BraceTree.modify (t : BraceTree) (i : Nat) (f : BraceContent → BraceContent) : BraceTree :=
  { t with nodes := t.nodes.modify i fun n => { n with content := f n.content } }

/-- The tree with a new node, the last child of the node at `parent`. -/
def BraceTree.addNode (t : BraceTree) (parent : Nat) (content : BraceContent) : BraceTree :=
  let u := t.modify parent (·.attach t.size)
  { u with nodes := u.nodes ++ [⟨some parent, content⟩] }

/-- The place of the text at the end of the current sequence, if it ends with one. -/
def BraceTree.openText? (t : BraceTree) : Option Nat := do
  let content ← t.content? t.current
  let last ← content.children.getLast?
  let lastContent ← t.content? last
  if lastContent.isText then some last else none

/-- The tree with a further character in the current sequence: the text at its end grows, or a new
text begins. -/
def BraceTree.addChar (t : BraceTree) (c : Char) : BraceTree :=
  match t.openText? with
  | some i => t.modify i (·.push c)
  | none => t.addNode t.current (.text [c])

/-- The tree with further characters in the current sequence. -/
def BraceTree.addText (t : BraceTree) (chars : Text) : BraceTree := chars.foldl BraceTree.addChar t

/-- The tree in which a choice begins at the end of the current sequence; its first branch becomes
current. -/
def BraceTree.openGroup (t : BraceTree) : BraceTree :=
  let u := t.addNode t.current (.choice [])
  let v := u.addNode t.size (.sequence [])
  { v with current := u.size, depth := t.depth + 1 }

/-- The tree in which a further branch of the innermost choice begins and becomes current. Without
an open choice there is none. -/
def BraceTree.nextBranch (t : BraceTree) : Except BraceError BraceTree := do
  let choice ← t.parentOf t.current
  let u := t.addNode choice (.sequence [])
  return { u with current := t.size }

/-- The tree in which the innermost choice ends and the sequence that holds it becomes current.
Without an open choice there is none. -/
def BraceTree.closeGroup (t : BraceTree) : Except BraceError BraceTree := do
  let choice ← t.parentOf t.current
  let sequence ← t.parentOf choice
  return { t with current := sequence, depth := t.depth - 1 }

/-! ## Flattening -/

/-- All ways to put together one text of each list, in order; the choice from the first list varies
slowest. -/
def concatProduct : List (List Text) → List Text
  | [] => [[]]
  | ss :: rest => ss.flatMap fun s => (concatProduct rest).map (s ++ ·)

@[simp] theorem concatProduct_nil : concatProduct [] = [[]] := rfl

/-- The first list is chosen from first. -/
@[simp] theorem concatProduct_cons (ss : List Text) (rest : List (List Text)) :
    concatProduct (ss :: rest) = ss.flatMap fun s => (concatProduct rest).map (s ++ ·) := rfl

/-- The texts of a node, given the texts of its children. -/
def BraceContent.strings (textsOf : Nat → List Text) : BraceContent → List Text
  | .text chars => [chars]
  | .choice branches => branches.flatMap textsOf
  | .sequence parts => concatProduct (parts.map textsOf)

/-- The texts of all nodes of a list whose first node has the place `start`. Children stand behind
their parent, so the texts of the later nodes are all that a node needs. -/
def stringsFrom : Nat → List BraceNode → List (List Text)
  | _, [] => []
  | start, n :: ns =>
    let later := stringsFrom (start + 1) ns
    n.content.strings (fun i => later.getD (i - (start + 1)) []) :: later

/-- The texts of a tree, none as long as a choice is open. -/
def BraceTree.alternatives (t : BraceTree) : List Text :=
  if t.depth = 0 then (stringsFrom 0 t.nodes).headD [] else []

@[simp] theorem BraceTree.alternatives_empty : BraceTree.empty.alternatives = [[]] := by
  simp [BraceTree.alternatives, BraceTree.empty, stringsFrom, BraceContent.strings]

end PathGlob
