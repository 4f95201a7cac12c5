import Espalier.Syntax.Node

set_option autoImplicit false

/-! # Trees

A `Tree` is an arena of nodes with a root and, where it was kept, the source text. Nodes carry no
pointer to their parent, and may be unreachable from the root: new nodes are built first and
attached later. Every look-up is checked, so a child id that names no node is noticed where it is
followed; the recursive questions are bounded by the size of the arena, which no path through an
acyclic tree exceeds, and give `none` for an id outside the arena. -/

namespace Espalier

/-- An arena of nodes with a root and the source text they came from. -/
structure Tree where
  nodes : Array Node := #[]
  root : Option NodeId := none
  source : Option String := none
deriving DecidableEq, Repr

namespace Tree

/-- How many nodes the arena holds. -/
def size (t : Tree) : Nat := t.nodes.size

/-- Does the arena hold a node of this name? -/
def contains (t : Tree) (id : NodeId) : Bool := decide (id.index < t.size)

/-- The node of a name. -/
def node? (t : Tree) (id : NodeId) : Option Node := t.nodes[id.index]?

/-- The kind of a node. -/
def kind? (t : Tree) (id : NodeId) : Option NodeKind := (t.node? id).map Node.kind

/-- The type of a node. -/
def type? (t : Tree) (id : NodeId) : Option NodeType := (t.node? id).map Node.type

/-- The children of a node, in visiting order. -/
def children? (t : Tree) (id : NodeId) : Option (List NodeId) := (t.kind? id).map NodeKind.children

/-- Add a node at the end of the arena. -/
def push (t : Tree) (n : Node) : Tree := { t with nodes := t.nodes.push n }

/-- Replace a node by what `f` makes of it. -/
def modify (t : Tree) (id : NodeId) (f : Node → Node) : Tree :=
  { t with nodes := t.nodes.modify id.index f }

/-- How deep a chain of child ids can go before it repeats or leaves the arena. -/
def depthBound (t : Tree) : Nat := t.size + 2

@[simp] theorem size_push (t : Tree) (n : Node) : (t.push n).size = t.size + 1 := by
  simp [size, push]

@[simp] theorem size_modify (t : Tree) (id : NodeId) (f : Node → Node) :
    (t.modify id f).size = t.size := by
  simp [size, modify]

/-- The pushed node is the one after the last; the others keep their place. -/
theorem node?_push (t : Tree) (n : Node) (id : NodeId) :
    (t.push n).node? id = if id.index = t.size then some n else t.node? id :=
  Array.getElem?_push

/-- Only the named node changes. -/
theorem node?_modify (t : Tree) (id id' : NodeId) (f : Node → Node) :
    (t.modify id f).node? id' = if id' = id then (t.node? id').map f else t.node? id' := by
  obtain ⟨i⟩ := id
  obtain ⟨j⟩ := id'
  by_cases h : j = i
  · subst h
    simp [node?, modify, Array.getElem?_modify]
  · simp [node?, modify, Array.getElem?_modify, h, Ne.symm h]

/-! ## Questions about subtrees -/

/-- Does some way down from `id` take this many steps? -/
def descends (t : Tree) : Nat → NodeId → Bool
  | 0, _ => true
  | steps + 1, id =>
    match t.children? id with
    | some below => below.any (t.descends steps)
    | none => false

/-- Is `target` at or below `id`, looking at most `fuel` levels down? -/
def reachesWithin (t : Tree) (target : NodeId) : Nat → NodeId → Option Bool
  | 0, _ => none
  | fuel + 1, id =>
    if id = target then some true
    else do
      let below ← t.children? id
      below.anyM (t.reachesWithin target fuel)

/-- Is `descendant` at or below `ancestor`? -/
def subtreeContains? (t : Tree) (ancestor descendant : NodeId) : Option Bool :=
  t.reachesWithin descendant t.depthBound ancestor

/-- Does a node of type `type` stand at or below `id`, outside the subtrees whose root has a denied
type? The last child is looked at first. -/
def hasTypeWithin (t : Tree) (type : NodeType) (deny : List NodeType) : Nat → NodeId → Option Bool
  | 0, _ => none
  | fuel + 1, id => do
    let kind ← t.kind? id
    if kind.type ∈ deny then some false
    else if kind.type = type then some true
    else kind.children.reverse.anyM (t.hasTypeWithin type deny fuel)

/-- Does a node of the given type stand at or below `id`, outside the denied subtrees? -/
def hasType? (t : Tree) (id : NodeId) (type : NodeType) (deny : List NodeType) : Option Bool :=
  t.hasTypeWithin type deny t.depthBound id

/-- The nodes at and below `id`, each before its children, at most `fuel` levels down. -/
def subtreeWithin (t : Tree) : Nat → NodeId → Option (List NodeId)
  | 0, _ => none
  | fuel + 1, id => do
    let below ← t.children? id
    let lists ← below.mapM (t.subtreeWithin fuel)
    some (id :: lists.flatten)

/-- The nodes at and below `id`, each before its children. -/
def subtree? (t : Tree) (id : NodeId) : Option (List NodeId) := t.subtreeWithin t.depthBound id

/-- The field of `parent` that holds `node`; the first one in visiting order. -/
def fieldOf? (t : Tree) (parent node : NodeId) : Option (Option Field) := do
  let kind ← t.kind? parent
  some ((kind.fields.find? fun e => decide (node ∈ e.2.ids)).map Prod.fst)

/-! ## Source text -/

/-- What follows the first `n` bytes, if that many bytes end between two characters. -/
def dropBytes? : Nat → List Char → Option (List Char)
  | 0, cs => some cs
  | _ + 1, [] => none
  | n + 1, c :: cs => if c.utf8Size ≤ n + 1 then dropBytes? (n + 1 - c.utf8Size) cs else none

/-- The first `n` bytes, if that many bytes end between two characters. -/
def takeBytes? : Nat → List Char → Option (List Char)
  | 0, _ => some []
  | _ + 1, [] => none
  | n + 1, c :: cs =>
    if c.utf8Size ≤ n + 1 then (takeBytes? (n + 1 - c.utf8Size) cs).map (c :: ·) else none

/-- The bytes of a text from `start` up to `stop`, if both lie between characters of the text. -/
def slice? (text : String) (span : Span) : Option String :=
  if span.start ≤ span.stop then do
    let rest ← dropBytes? span.start text.toList
    let taken ← takeBytes? (span.stop - span.start) rest
    some (String.ofList taken)
  else none

/-- The source text covered by the span of a node. -/
def sourceOf? (t : Tree) (id : NodeId) : Option (Option String) := do
  let node ← t.node? id
  some (node.span.bind fun span => t.source.bind fun text => slice? text span)

end Tree

/-! ## Building -/

/-- A computation that builds on a tree. It fails where it meets an id outside the arena. -/
abbrev TreeM := StateT Tree Option

namespace TreeM

/-- The node of a name. -/
def node (id : NodeId) : TreeM Node := do (← get).node? id

/-- The kind of a node. -/
def kind (id : NodeId) : TreeM NodeKind := do (← get).kind? id

/-- The type of a node. -/
def type (id : NodeId) : TreeM NodeType := do (← get).type? id

/-- Add a node and name it. -/
def allocNode (n : Node) : TreeM NodeId := do
  let t ← get
  set (t.push n)
  pure ⟨t.size⟩

/-- Add a node of a kind, without comments. -/
def alloc (k : NodeKind) : TreeM NodeId := allocNode { kind := k }

/-- Change a node. -/
def modifyNode (id : NodeId) (f : Node → Node) : TreeM Unit := do
  let _ ← node id
  modify fun t => t.modify id f

/-- Change the kind of a node. -/
def modifyKind (id : NodeId) (f : NodeKind → NodeKind) : TreeM Unit :=
  modifyNode id fun n => { n with kind := f n.kind }

/-! ## Copies -/

/-- Copy the content of one field with `copy` and put the result into a kind. -/
def copyField (copy : NodeId → TreeM NodeId) (k : NodeKind) : Field × Child → TreeM NodeKind
  | (f, .one id) => do pure (k.setNode f (← copy id))
  | (f, .opt (some id)) => do pure (k.setNode f (← copy id))
  | (_, .opt none) => pure k
  | (f, .many ids) => do pure (k.setList f (← ids.mapM copy))

/-- Copy a subtree, at most `fuel` levels deep; the copy of a node comes after those of its
children. -/
def copyWithin : Nat → NodeId → TreeM NodeId
  | 0, _ => failure
  | fuel + 1, id => do
    let old ← node id
    let kind ← old.kind.fields.foldlM (copyField (copyWithin fuel)) old.kind
    allocNode { old with kind }

/-- Copy a subtree into fresh nodes and name its root. -/
def deepClone (id : NodeId) : TreeM NodeId := do
  let t ← get
  copyWithin t.depthBound id

/-! ## Comments -/

/-- Attach a comment in front of a node or behind it. -/
def addComment (id : NodeId) (leading : Bool) (c : Comment) : TreeM Unit :=
  modifyNode id fun n =>
    if leading then { n with leading := n.leading ++ [c] }
    else { n with trailing := n.trailing ++ [c] }

/-- Append the leading comments of `donor` to those of `heir`. -/
def inheritLeading (heir donor : NodeId) : TreeM Unit := do
  let d ← node donor
  modifyNode heir fun n => { n with leading := n.leading ++ d.leading }

/-- Append the trailing comments of `donor` to those of `heir`. -/
def inheritTrailing (heir donor : NodeId) : TreeM Unit := do
  let d ← node donor
  modifyNode heir fun n => { n with trailing := n.trailing ++ d.trailing }

/-- Append the inner comments of `donor` to those of `heir`. -/
def inheritInner (heir donor : NodeId) : TreeM Unit := do
  let d ← node donor
  modifyNode heir fun n => { n with inner := n.inner ++ d.inner }

/-- Append all comments of `donor` to those of `heir`. -/
def inheritComments (heir donor : NodeId) : TreeM Unit := do
  inheritLeading heir donor
  inheritTrailing heir donor
  inheritInner heir donor

/-- Drop all comments of a node. -/
def removeComments (id : NodeId) : TreeM Unit :=
  modifyNode id fun n => { n with leading := [], trailing := [], inner := [] }

end TreeM

end Espalier
