import Espalier.Edit.Place
import Espalier.Syntax.Build

set_option autoImplicit false

/-! # Removal

A node that its parent cannot do without takes the parent with it, or leaves the other operand or
an empty block in its place. `replace` puts a node in place of another one. -/

namespace Espalier

open SessionM

section Remove

variable (replace : PathId → NodeId → SessionM Unit)

namespace PathId

/-- Would the parent be meaningless without the node at this path? -/
def carriesParent (p : PathId) (parent : NodeType) : SessionM Bool := do
  let d ← p.data
  if (d.key = .field .test ∧ parent.isWhile)
      ∨ (d.key = .field .declaration ∧ parent.isExportDeclaration)
      ∨ (d.key = .field .body ∧ parent = .labeledStatement)
      ∨ (d.key = .field .expression ∧ parent = .expressionStatement) then pure true
  else if d.field? = some .declarations ∧ parent = .variableDeclaration then
    match d.container.parent? with
    | some owner => do pure ((← listLength owner .declarations) == 1)
    | none => pure false
  else pure false

/-- The operand that takes the place of a two-operand parent when this one goes. -/
def otherOperand? (p parent : PathId) (type : NodeType) : SessionM (Option NodeId) := do
  let d ← p.data
  if type = .sequenceExpression then
    match d.container.parent?, d.key with
    | some owner, .index i =>
      if (← listLength owner .expressions) = 2 then
        (← parent.element .expressions (1 - min i 1)).node?
      else pure none
    | _, _ => pure none
  else if type.isBinary then
    (← parent.child (if d.key = .field .left then .right else .left)).node?
  else pure none

/-- Is this a place where an empty block may stand instead? -/
def leavesBlock (d : PathData) (parent : NodeType) : Bool :=
  (parent == .ifStatement && d.key == .field .consequent)
    || (d.key == .field .body && (parent.isLoop || parent == .arrowFunctionExpression))

/-- Let the parent make up for the node at this path, where it has to; tell whether it did.
`removeParent` removes the parent. -/
def adjustParent (p parent : PathId) (type : NodeType) (removeParent : SessionM Unit) :
    SessionM Bool := do
  if ← p.carriesParent type then
    removeParent
    pure true
  else
    match ← p.otherOperand? parent type with
    | some other =>
      replace parent other
      pure true
    | none =>
      if leavesBlock (← p.data) type then
        p.setNode (← onTree (TreeM.block []))
        pure true
      else pure false

end PathId

/-- Remove a path, and with it at most `fuel` parents that make no sense without it. -/
def removeWithin : Nat → PathId → SessionM Unit
  | 0, _ => throw .exhausted
  | fuel + 1, p => do
    if ← p.isRemoved then refuse .removedPath
    else
      p.resync
      match ← p.node? with
      | none => refuse .emptyPath
      | some node =>
        unregister node
        let adjusted ← match ← p.parent?, ← p.parentType? with
          | some parent, some type =>
            p.adjustParent replace parent type (removeWithin fuel parent)
          | _, _ => pure false
        if !adjusted then p.detach
        p.markRemoved
        recordMutation

/-- Take the node at a path out of the tree. -/
def PathId.removeUsing (p : PathId) : SessionM Unit := do
  removeWithin replace (← climbBound) p

end Remove

end Espalier
