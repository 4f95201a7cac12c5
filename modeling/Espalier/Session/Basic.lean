import Espalier.Decimal.Notation
import Espalier.Failure
import Espalier.Json.Basic
import Espalier.Syntax.Tree
import Espalier.Table

set_option autoImplicit false

/-! # Sessions

A session owns a tree together with everything that refers into it: the handles to positions
(paths), the buckets in which handles are found again, the scopes with their bindings, and the
frames of the traversals that are running. Operations on a session are computations in `SessionM`;
what they changed before they fail stays changed. -/

namespace Espalier

/-! ## Names -/

/-- The name of a path: its place among the handles of the session. -/
structure PathId where
  index : Nat
deriving DecidableEq, Repr

/-- The name of a scope: its place in the scope table. -/
structure ScopeId where
  index : Nat
deriving DecidableEq, Repr

/-! ## Paths -/

/-- Where the node of a path lives. -/
inductive Container where
  /-- The root of the tree. -/
  | root
  /-- A single-node field of `parent`; the key names the field. -/
  | slot (parent : NodeId)
  /-- A list field of `parent`; the key is the index. -/
  | list (parent : NodeId) (field : Field)
  /-- Nowhere: navigation ran off the tree. -/
  | detached
deriving DecidableEq, Repr

/-- The node that owns a container. -/
def Container.parent? : Container → Option NodeId
  | .slot parent | .list parent _ => some parent
  | .root | .detached => none

/-- The place of a node within its container. -/
inductive Key where
  | root
  | field (f : Field)
  | index (i : Nat)
deriving DecidableEq, Repr

/-- The largest index: places in a list are 64-bit numbers. -/
def Key.maxIndex : Nat := Nat.pow 2 64 - 1

/-- An index moved by `delta`, held between zero and the largest index. -/
def Key.shiftIndex (delta : Int) (i : Nat) : Nat := min (i + delta).toNat maxIndex

/-- Within the range of indices a shift is an addition. -/
theorem Key.shiftIndex_of_le (n i : Nat) (h : i + n ≤ Key.maxIndex) :
    Key.shiftIndex n i = i + n := by
  simp only [shiftIndex]
  omega

/-- What a session knows about a path. -/
structure PathData where
  node : Option NodeId
  parent : Option PathId
  container : Container
  key : Key
  removed : Bool := false
  skip : Bool := false
  stop : Bool := false
  /-- The traversal frame that visited this path last; requeued visits go there. -/
  frame : Option Nat := none
  requeues : Nat := 0
  /-- The inferred type, once it was asked for. -/
  inferred : Option ValueType := none
  /-- Values that clients attached. -/
  notes : Table String Json := .empty

namespace PathData

/-- The field that holds the path: the list, or the slot. -/
def field? (d : PathData) : Option Field :=
  match d.container, d.key with
  | .list _ f, _ => some f
  | _, .field f => some f
  | _, _ => none

/-- The list field that holds the path. -/
def listField? (d : PathData) : Option Field :=
  match d.container with
  | .list _ f => some f
  | _ => none

/-- The index of the path in its list. -/
def index? (d : PathData) : Option Nat :=
  match d.key with
  | .index i => some i
  | _ => none

end PathData

/-! ## Scopes -/

/-- How a name was declared. -/
inductive BindingKind where
  | var
  | letVar
  | const
  | param
  /-- Function declarations, which belong to the function scope. -/
  | hoisted
  /-- Names that are visible only inside their own construct. -/
  | inner
  | module
deriving DecidableEq, Repr

/-- The name of a binding kind in reports. -/
def BindingKind.name : BindingKind → String
  | .var => "var"
  | .letVar => "let"
  | .const => "const"
  | .param => "param"
  | .hoisted => "hoisted"
  | .inner => "local"
  | .module => "module"

/-- The binding kind of a declared variable. -/
def BindingKind.ofVariableKind : VariableKind → BindingKind
  | .var => .var
  | .letVar => .letVar
  | .const => .const

/-- A declared name: where it was declared, where it is assigned again and where it is read. -/
structure Binding where
  name : String
  /-- The identifier that introduces the name. -/
  identifier : NodeId
  scope : ScopeId
  /-- The declarator, function, parameter or import specifier. -/
  path : PathId
  kind : BindingKind
  violations : List PathId := []
  references : List PathId := []

namespace Binding

/-- Is the name never assigned again? -/
def isConstant (b : Binding) : Bool := b.violations.isEmpty

/-- Is the name ever read? -/
def isReferenced (b : Binding) : Bool := !b.references.isEmpty

/-- Note an assignment. -/
def reassign (b : Binding) (p : PathId) : Binding :=
  if p ∈ b.violations then b else { b with violations := b.violations ++ [p] }

/-- Note a read. -/
def reference (b : Binding) (p : PathId) : Binding :=
  if p ∈ b.references then b else { b with references := b.references ++ [p] }

/-- Forget a read. -/
def dereference (b : Binding) (p : PathId) : Binding :=
  { b with references := b.references.filter fun q => decide (q ≠ p) }

end Binding

/-- A scope: the block that opens it, the scope around it and the names it declares. The last three
fields are kept on the program scope only. -/
structure Scope where
  block : PathId
  blockType : NodeType
  parent : Option ScopeId
  bindings : Table String Binding := .empty
  /-- Every name that is declared or read anywhere below. -/
  references : List String := []
  /-- Names that are read without being declared. -/
  globals : List String := []
  /-- Names that were generated. -/
  uids : List String := []

/-- Does this scope own `var` and function declarations? -/
def Scope.isFunctionScope (s : Scope) : Bool :=
  s.blockType == .program || s.blockType.isFunction

/-- All scopes of a session. -/
structure ScopeTable where
  scopes : Array Scope := #[]
  byBlock : Table NodeId ScopeId := .empty
  /-- The generated `var` declaration of each body, which later declarations share. -/
  generated : Table NodeId NodeId := .empty
  root : Option ScopeId := none
  crawled : Bool := false

/-! ## Sessions -/

/-- The choices that hold for a whole session. -/
structure Config where
  /-- How deep a traversal may go. -/
  maxDepth : Nat := 10000
  /-- How often one path may be requeued in a pass. -/
  maxRequeues : Nat := 1000
  /-- What generated names start with. -/
  uidLead : String := "_"
  /-- Are scopes built on the first question about them, and not at once? -/
  lazyScopes : Bool := false
deriving DecidableEq, Repr

/-- Pending work of one visit: the paths that were requeued, oldest first. -/
structure Frame where
  id : Nat
  queue : List PathId := []
deriving DecidableEq, Repr

/-- Why a text is no expression. -/
structure ParseError where
  message : String
  offset : Option Nat
deriving DecidableEq, Repr

/-- A parser that builds the nodes of an expression in the tree at hand. -/
abbrev ExpressionParser := String → TreeM (Except ParseError NodeId)

/-- A tree with its paths, scopes and running traversals. -/
structure Session where
  tree : Tree
  config : Config := {}
  paths : Array PathData := #[]
  /-- The paths of each container, oldest first. -/
  cache : Table Container (List PathId) := .empty
  /-- The paths without a position, one per parent. -/
  detached : Table (Option PathId) PathId := .empty
  scopes : ScopeTable := {}
  /-- The running visits, innermost first. -/
  frames : List Frame := []
  nextFrame : Nat := 0
  stopping : Bool := false
  mutations : Nat := 0
  parser : Option ExpressionParser := none

/-- A computation on a session. -/
abbrev SessionM := EStateM Failure Session

namespace SessionM

/-- Refuse the operation. -/
def refuse {α : Type} (cause : Refusal) : SessionM α := throw (.refused cause)

/-- The value of a look-up that has to succeed. -/
def found {α : Type} : Option α → SessionM α
  | some a => pure a
  | none => throw .dangling

/-- The answer to a question about the tree. -/
def ask {α : Type} (question : Tree → Option α) : SessionM α := do
  found (question (← get).tree)

/-- Build on the tree. -/
def onTree {α : Type} (build : TreeM α) : SessionM α := do
  let s ← get
  match build.run s.tree with
  | some (a, tree) =>
    set { s with tree }
    pure a
  | none => throw .dangling

/-- Why there is no answer about everything at and below some nodes: a way down from one of them is
longer than any way down in a tree without circles, or an id names no node. -/
def failureBelow (t : Tree) (ids : List NodeId) : Failure :=
  if ids.any (t.descends t.size) then .exhausted else .dangling

/-- The answer to a question about everything at and below some nodes. -/
def askBelow {α : Type} (ids : List NodeId) (question : Tree → Option α) : SessionM α := do
  let s ← get
  match question s.tree with
  | some a => pure a
  | none => throw (failureBelow s.tree ids)

/-- Build on the tree from everything at and below some nodes. -/
def buildBelow {α : Type} (ids : List NodeId) (build : TreeM α) : SessionM α := do
  let s ← get
  match build.run s.tree with
  | some _ => onTree build
  | none => throw (failureBelow s.tree ids)

/-- The index after `i`. There is none after the largest one. -/
def nextIndex (i : Nat) : SessionM Nat :=
  if i < Key.maxIndex then pure (i + 1) else throw .overflow

/-- Count a change that was made through a path. -/
def recordMutation : SessionM Unit := modify fun s => { s with mutations := s.mutations + 1 }

end SessionM

open SessionM

/-! ## Reading paths -/

namespace PathId

/-- What the session knows about a path. -/
def data (p : PathId) : SessionM PathData := do
  found (← get).paths[p.index]?

/-- Change what the session knows about a path. -/
def modifyData (p : PathId) (f : PathData → PathData) : SessionM Unit := do
  let _ ← p.data
  modify fun s => { s with paths := s.paths.modify p.index f }

/-- The node at a path. -/
def node? (p : PathId) : SessionM (Option NodeId) := do pure (← p.data).node

/-- The kind of the node at a path. -/
def kind? (p : PathId) : SessionM (Option NodeKind) := do
  match ← p.node? with
  | some id => do pure (some (← ask fun t => t.kind? id))
  | none => pure none

/-- The type of the node at a path. -/
def type? (p : PathId) : SessionM (Option NodeType) := do
  pure ((← p.kind?).map NodeKind.type)

/-- Does the path hold a node of this type? -/
def is (p : PathId) (type : NodeType) : SessionM Bool := do
  pure ((← p.type?) == some type)

/-- Does the path hold a node whose type satisfies `test`? -/
def isAny (p : PathId) (test : NodeType → Bool) : SessionM Bool := do
  pure ((← p.type?).any test)

/-- The name of the identifier at a path. -/
def identifierName? (p : PathId) : SessionM (Option String) := do
  pure ((← p.kind?).bind NodeKind.identifierName?)

/-- The path around a path. -/
def parent? (p : PathId) : SessionM (Option PathId) := do pure (← p.data).parent

/-- The node that owns the container of a path. -/
def parentNode? (p : PathId) : SessionM (Option NodeId) := do
  pure (← p.data).container.parent?

/-- The type of the node that owns the container of a path. -/
def parentType? (p : PathId) : SessionM (Option NodeType) := do
  match ← p.parentNode? with
  | some id => do pure (some (← ask fun t => t.type? id))
  | none => pure none

/-- Where the path lives. -/
def container (p : PathId) : SessionM Container := do pure (← p.data).container

/-- The place of the path in its container. -/
def key (p : PathId) : SessionM Key := do pure (← p.data).key

/-- The field that holds the path. -/
def field? (p : PathId) : SessionM (Option Field) := do pure (← p.data).field?

/-- The index of the path in its list. -/
def index? (p : PathId) : SessionM (Option Nat) := do pure (← p.data).index?

/-- Does the path stand in a list? -/
def inList (p : PathId) : SessionM Bool := do pure (← p.data).listField?.isSome

/-- Was the node of the path removed? -/
def isRemoved (p : PathId) : SessionM Bool := do pure (← p.data).removed

/-- Attach a value to the path. Its numbers are kept as what they stand for. -/
def setNote (p : PathId) (name : String) (value : Json) : SessionM Unit :=
  p.modifyData fun d => { d with notes := d.notes.insert name value.settled }

/-- The value attached under a name. -/
def note? (p : PathId) (name : String) : SessionM (Option Json) := do
  pure ((← p.data).notes.get? name)

end PathId

namespace Session

/-! ## Forgetting -/

/-- Forget where paths are found again. Later navigation makes new paths; the old ones stay valid
but are not returned any more. -/
def clearPaths (s : Session) : Session := { s with cache := .empty, detached := .empty }

/-- Forget all scopes and inferred types. -/
def clearScopes (s : Session) : Session :=
  { s with scopes := {}, paths := s.paths.map fun d => { d with inferred := none } }

/-- Forget paths and scopes. -/
def clear (s : Session) : Session := s.clearPaths.clearScopes

end Session

end Espalier
