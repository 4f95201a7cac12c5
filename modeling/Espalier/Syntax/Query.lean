import Espalier.Decimal.Notation
import Espalier.Syntax.Tree
import Espalier.Table

set_option autoImplicit false

/-! # Questions about nodes

Facts that follow from a node and its parent alone: which identifiers are read, which names a node
introduces, the key of a property, and which expressions have no effect. -/

namespace Espalier

/-- Is an identifier in `field` of a node of this kind read as a value? Binding positions, property
names that are not computed, labels and assignment targets are not. -/
def NodeKind.readsField (k : NodeKind) (field : Field) : Bool :=
  match k with
  | .memberExpression _ _ computed => field == .object || computed
  | .objectProperty _ _ computed _ => if field = .key then computed else true
  | .variableDeclarator .. => field == .init
  | .functionDeclaration .. | .functionExpression .. | .arrowFunctionExpression .. => field == .body
  | .catchClause .. | .labeledStatement .. | .breakStatement .. | .continueStatement .. => false
  | .importSpecifier .. | .importDefaultSpecifier .. | .importNamespaceSpecifier .. => false
  | .exportSpecifier .. => field == .localName
  | .exportNamedDeclaration _ _ source => source.isNone
  | .assignmentExpression .. | .assignmentPattern .. => field == .right
  | .arrayPattern .. | .objectPattern .. | .restElement .. => false
  | _ => true

/-! ## Binding identifiers -/

/-- Note that `name` is introduced at `site`: beside the earlier sites, or in place of them. -/
def recordSite {α : Type} (keepAll : Bool) (found : Table String (List α)) (name : String)
    (site : α) : Table String (List α) :=
  found.insert name (if keepAll then (found.get? name).getD [] ++ [site] else [site])

/-- The nodes in a field, none when the kind has no such field. -/
def NodeKind.fieldIds (k : NodeKind) (f : Field) : List NodeId :=
  match k.child? f with
  | some c => c.ids
  | none => []

namespace Tree

/-- Where the search for binding identifiers goes on from a node that is no identifier. Exports
lead to their declaration. With `outerOnly`, a function declaration leads to its name only and the
other functions lead nowhere. -/
def bindingTargets? (t : Tree) (outerOnly : Bool) (k : NodeKind) : Option (List NodeId) :=
  if k.type.isExportDeclaration then
    match (k.child? .declaration).bind Child.node? with
    | some declaration => do
      let type ← t.type? declaration
      some (if type.isDeclaration then [declaration] else [])
    | none => some []
  else if outerOnly && k.type == .functionDeclaration then some (k.fieldIds .id)
  else if outerOnly && k.type.isFunction then some []
  else some (k.type.bindingFields.flatMap k.fieldIds)

/-- One step of the search: what a level of nodes introduces and the level below it. -/
def bindingLevel? (t : Tree) (keepAll outerOnly : Bool) :
    List NodeId → Table String (List NodeId) →
      Option (Table String (List NodeId) × List NodeId)
  | [], found => some (found, [])
  | id :: rest, found => do
    let kind ← t.kind? id
    match kind with
    | .identifier name _ =>
      t.bindingLevel? keepAll outerOnly rest (recordSite keepAll found name id)
    | kind =>
      let targets ← t.bindingTargets? outerOnly kind
      let (found, below) ← t.bindingLevel? keepAll outerOnly rest found
      some (found, targets ++ below)

/-- The search, level by level, at most `fuel` levels deep. -/
def bindingSearch? (t : Tree) (keepAll outerOnly : Bool) :
    Nat → List NodeId → Table String (List NodeId) → Option (Table String (List NodeId))
  | 0, _, _ => none
  | fuel + 1, level, found =>
    if level = [] then some found
    else do
      let (found, below) ← t.bindingLevel? keepAll outerOnly level found
      t.bindingSearch? keepAll outerOnly fuel below found

/-- The identifiers that a node introduces, by name, breadth first. With `keepAll` every identifier
of a name is listed, otherwise the last one. -/
def bindingIdentifiers? (t : Tree) (id : NodeId) (keepAll outerOnly : Bool) :
    Option (Table String (List NodeId)) :=
  t.bindingSearch? keepAll outerOnly (t.depthBound + 1) [id] .empty

/-! ## Keys and effects -/

/-- The key of a property or member access as text, where it can be told. -/
def staticKey? (t : Tree) (key : NodeId) (computed : Bool) : Option (Option String) := do
  let kind ← t.kind? key
  some <| match kind with
    | .identifier name _ => if computed then none else some name
    | .stringLiteral value => some value
    | .numericLiteral value => some value.programText
    | _ => none

/-- Can the value of this expression be dropped without anyone noticing? -/
def isPureValue? (t : Tree) (id : NodeId) : Option Bool := do
  let kind ← t.kind? id
  match kind with
  | .identifier .. | .stringLiteral .. | .numericLiteral .. | .booleanLiteral .. => some true
  | .nullLiteral | .thisExpression => some true
  | .unaryExpression .void argument => do
    let type ← t.type? argument
    some type.isLiteral
  | _ => some false

end Tree

end Espalier
