import Espalier.Edit.Place
import Espalier.Syntax.Build

set_option autoImplicit false

/-! # Insertion

Statements are inserted beside a path where a list allows it. A path inside a statement wrapper
hands over to its parent, and a statement in a single-node slot is first wrapped in a block. -/

namespace Espalier

open SessionM

namespace PathId

/-- Does insertion beside the path belong beside its parent? -/
def delegatesInsertion (p : PathId) : SessionM Bool := do
  match ← p.parentType? with
  | some .expressionStatement | some .labeledStatement | some .exportNamedDeclaration => pure true
  | some .exportDefaultDeclaration => p.isAny NodeType.isDeclaration
  | _ => pure false

/-- Wrap the statement at the path in a block, with `nodes` before or after it. -/
def wrapWith (p : PathId) (nodes : List NodeId) (after : Bool) : SessionM (List PathId) := do
  match ← p.node? with
  | none => refuse .emptyPath
  | some current =>
    let block ← onTree (TreeM.block (if after then current :: nodes else nodes ++ [current]))
    p.setNode block
    recordMutation
    (List.range nodes.length).mapM fun i => p.element .body (if after then i + 1 else i)

/-- Insert beside a path where it stands. -/
def insertHere (p : PathId) (nodes : List NodeId) (after : Bool) : SessionM (List PathId) := do
  let d ← p.data
  match d.container, d.key, d.parent with
  | .list _ f, .index i, some parent => do
    parent.insertAt f (← if after then nextIndex i else pure i) nodes
  | _, _, _ =>
    if ← p.isStatementOrBlock then p.wrapWith nodes after
    else refuse (.notAList (if after then "insert_after" else "insert_before"))

/-- Insert beside a path, or beside one further up where it hands over, at most `fuel` times. -/
def insertWithin (nodes : List NodeId) (after : Bool) : Nat → PathId → SessionM (List PathId)
  | 0, _ => throw .exhausted
  | fuel + 1, p => do
    if ← p.isRemoved then refuse .removedPath
    else
      p.resync
      match ← p.delegatesInsertion, ← p.parent? with
      | true, some parent => insertWithin nodes after fuel parent
      | _, _ => p.insertHere nodes after

/-- Insert nodes before or after a path. -/
def insertBeside (p : PathId) (nodes : List NodeId) (after : Bool) : SessionM (List PathId) := do
  if ← p.isRemoved then refuse .removedPath
  else if nodes = [] then pure []
  else insertWithin nodes after (← climbBound) p

/-- Insert nodes before a path. -/
def insertBefore (p : PathId) (nodes : List NodeId) : SessionM (List PathId) :=
  p.insertBeside nodes false

/-- Insert nodes after a path. -/
def insertAfter (p : PathId) (nodes : List NodeId) : SessionM (List PathId) :=
  p.insertBeside nodes true

/-- Insert nodes at the start of a list field of the node at the path. -/
def unshiftInto (p : PathId) (f : Field) (nodes : List NodeId) : SessionM (List PathId) := do
  if ← p.isRemoved then refuse .removedPath else p.insertAt f 0 nodes

/-- Insert nodes at the end of a list field of the node at the path. -/
def pushInto (p : PathId) (f : Field) (nodes : List NodeId) : SessionM (List PathId) := do
  if ← p.isRemoved then refuse .removedPath
  else
    match ← p.node? with
    | none => refuse .emptyPath
    | some node => p.insertAt f (← listLength node f) nodes

end PathId

end Espalier
