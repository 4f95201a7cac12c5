import Espalier.Edit.Insert
import Espalier.Edit.Reduce
import Espalier.Edit.Remove
import Espalier.Scope.Declare
import Espalier.Walk.Traverse

set_option autoImplicit false

/-! # Replacement

A node is replaced by another one at the same position. An expression in the place of a statement
becomes an expression statement. Statements in the place of an expression become a sequence where
they have an expression form; otherwise they become the body of a function that is called at once,
with their `var` declarations moved out and their value returned.

The parts of this need each other: replacing by statements replaces nodes inside the new function.
They are therefore written against a `replace` that does the inner replacements, and tied together
at the end. -/

namespace Espalier

open SessionM

namespace PathId

/-! ## Plain replacement -/

/-- Put a node at the position of a path: it takes over the comments, counts as a change, is
registered if it declares names, and is visited once more. -/
def putNode (p : PathId) (old : Option NodeId) (new : NodeId) : SessionM Unit := do
  match old with
  | some old =>
    onTree (TreeM.inheritComments new old)
    onTree (TreeM.removeComments old)
  | none => pure ()
  p.setNode new
  recordMutation
  if ← scopesCrawled then
    if (← ask fun t => t.type? new).isDeclaration then p.registerDeclaration
  p.requeue

/-- Replace the node at a path by another one. `byStatements` handles a statement that comes to
stand in the place of an expression. -/
def replaceUsing (byStatements : PathId → List NodeId → SessionM PathId) (p : PathId)
    (new : NodeId) : SessionM Unit := do
  if ← p.isRemoved then refuse .removedPath
  else
    p.resync
    if ← p.isRemoved then refuse .removedPath
    else
      let old ← p.node?
      if old = some new then pure ()
      else
        let type ← ask fun t => t.type? new
        match ← p.type? with
        | none => p.putNode old new
        | some current =>
          if current = .program ∧ type ≠ .program then refuse (.rootReplacement type)
          else
            let flexible ← if ← p.isForHead then pure true else p.canSwapBody new
            if current.isExpression && type.isStatement && !flexible then
              let _ ← byStatements p [new]
            else if current.isStatement && type.isExpression && !flexible
                && (← p.parentType?) != some .exportDefaultDeclaration then
              p.putNode old (← onTree (TreeM.alloc (.expressionStatement new)))
            else p.putNode old new

/-- Replace an element of a list by several nodes. The first and the last one take over the
comments. -/
def replaceWithMultiple (p : PathId) (nodes : List NodeId) : SessionM (List PathId) := do
  if ← p.isRemoved then refuse .removedPath
  else
    p.resync
    match nodes.head?, nodes.getLast? with
    | some first, some last =>
      let d ← p.data
      match d.node with
      | none => refuse .emptyPath
      | some old =>
        match d.listField?, d.key, d.parent with
        | some f, .index i, some parent =>
          onTree (TreeM.inheritLeading first old)
          onTree (TreeM.inheritTrailing last old)
          onTree (TreeM.removeComments old)
          let paths ← parent.insertAt f (i + 1) nodes
          unregister old
          p.detach
          p.markRemoved
          pure paths
        | _, _, _ => refuse (.notAList "replace_with_multiple")
    | _, _ => refuse .emptyNodeList

/-! ## Statements in the place of an expression -/

/-- In statement position the last value of a sequence is not used, unless it is the value of the
program, and can go when it has no effect. -/
def dropUnusedValue (p : PathId) (expression : NodeId) : SessionM NodeId := do
  if (← p.parentType?) ≠ some .expressionStatement then pure expression
  else if ← p.isCompletionRecord false then pure expression
  else
    match ← ask fun t => t.kind? expression with
    | .sequenceExpression (first :: second :: rest) =>
      let last := (second :: rest).getLastD second
      if ← ask fun t => t.isPureValue? last then
        let kept := first :: (second :: rest).dropLast
        modifyKind expression fun _ => .sequenceExpression kept
        pure (if kept.length = 1 then first else expression)
      else pure expression
    | _ => pure expression

/-- The nearest loop around a path that comes before the function `wrapper`. -/
def loopBelow? (p : PathId) (wrapper : Option NodeId) : SessionM (Option PathId) := do
  let found ← climb (← p.parent?) fun q => do
    if (← q.node?) = wrapper then pure (some none)
    else if ← q.isAny NodeType.isLoop then pure (some (some q))
    else pure none
  pure found.join

/-- The name under which a loop notes its result variable. -/
def resultNote : String := "expressionReplacementReturnUid"

/-- The variable that holds the value of a loop inside the function at `callee`. On first use it is
declared there and returned at the end of the body. -/
def resultVariable (callee loop : PathId) : SessionM String := do
  match ← loop.note? resultNote with
  | some (.str uid) => pure uid
  | _ =>
    let uid ← (← callee.scope).generateDeclaredUid "ret"
    let body ← callee.child .body
    let returned ← onTree (TreeM.identifier uid)
    let ret ← onTree (TreeM.alloc (.returnStatement (some returned)))
    let _ ← body.pushInto .body [ret]
    loop.setNote resultNote (.str uid)
    pure uid

section Nested

variable (replace : PathId → NodeId → SessionM Unit)

/-- Turn the declarators of a `var` declaration into assignments and declare their names in
`scope`. Gives the first target and the assignments. -/
def hoistDeclarators (scope : ScopeId) : List NodeId → SessionM (Option NodeId × List NodeId)
  | [] => pure (none, [])
  | declarator :: rest => do
    match ← ask fun t => t.kind? declarator with
    | .variableDeclarator id init =>
      let names ← askBelow [id] fun t => t.bindingIdentifiers? id false false
      names.keys.forM fun name => do
        let _ ← scope.pushDeclaration name none
      let assignment ← init.mapM fun init => onTree (TreeM.assign id init)
      let (_, assignments) ← hoistDeclarators scope rest
      pure (some id, assignment.toList ++ assignments)
    | _ => hoistDeclarators scope rest

/-- Replace a declaration in the head of a loop: by its target, or by its assignments. -/
def replaceForHead (p : PathId) (target : Option NodeId) (assignments : List NodeId) :
    SessionM Unit := do
  if (← p.data).key = .field .left then
    match target with
    | some id => replace p id
    | none => pure ()
  else
    match assignments with
    | [] => p.removeUsing replace
    | [single] => replace p single
    | _ => replace p (← onTree (TreeM.alloc (.sequenceExpression assignments)))

/-- Replace a declaration by its assignments as statements. -/
def replaceByStatements (p : PathId) (assignments : List NodeId) : SessionM Unit := do
  let statements ← assignments.mapM fun a => onTree (TreeM.alloc (.expressionStatement a))
  if ← p.inList then
    if statements = [] then p.removeUsing replace
    else
      let _ ← p.replaceWithMultiple statements
  else
    match statements with
    | [] => replace p (← onTree (TreeM.alloc .emptyStatement))
    | [single] => replace p single
    | _ => replace p (← onTree (TreeM.block statements))

/-- Move a `var` declaration out to `scope` and leave its assignments. -/
def hoistDeclaration (scope : ScopeId) (p : PathId) : SessionM Unit := do
  match ← p.kind? with
  | some (.variableDeclaration .var declarations) =>
    let (target, assignments) ← hoistDeclarators scope declarations
    if ← p.isForHead then p.replaceForHead replace target assignments
    else p.replaceByStatements replace assignments
  | _ => pure ()

/-- Move the `var` declarations below `function` out to `scope`, nested functions apart. -/
def hoistVariables (function : PathId) (scope : ScopeId) : SessionM Unit := do
  let visitor : Visitor Unit := Visitor.empty
    |>.on .enter (.category .function) (fun p => p.skip)
    |>.on .enter (.type .variableDeclaration) (fun p => hoistDeclaration replace scope p)
  let _ ← WalkM.runOn (function.traverse visitor) ()

/-- Return the value of a statement from the function at `callee`: at once, or through the result
variable of the loop around it. -/
def returnRecord (callee p : PathId) : SessionM Unit := do
  match ← p.kind? with
  | some (.expressionStatement expression) =>
    match ← p.loopBelow? (← callee.node?) with
    | some loop =>
      let uid ← resultVariable callee loop
      let target ← onTree (TreeM.identifier uid)
      let assignment ← onTree (TreeM.assign target expression)
      replace (← p.child .expression) assignment
    | none =>
      replace p (← onTree (TreeM.alloc (.returnStatement (some expression))))
  | _ => pure ()

/-- Put a call of a function with the given statements in the place of an expression. -/
def wrapInFunction (p : PathId) (scope : ScopeId) (statements : List NodeId) : SessionM Unit := do
  let body ← onTree (TreeM.block statements)
  let function ← onTree (TreeM.functionExpression none [] body)
  let call ← onTree (TreeM.alloc (.callExpression function []))
  replace p call
  let callee ← p.child .callee
  hoistVariables replace callee scope
  (← callee.completionRecords).forM (returnRecord replace callee)

/-- Put statements in the place of an expression: their expression form, or a function call. -/
def replaceByStatementsUsing (p : PathId) (statements : List NodeId) : SessionM PathId := do
  if statements = [] then refuse .emptyNodeList
  else if ← p.isRemoved then refuse .removedPath
  else
    p.resync
    let scope ← p.scope
    match ← buildBelow statements (reduceStatements statements) with
    | some reduced =>
      reduced.declared.forM fun name => do
        let _ ← scope.pushDeclaration name none
      replace p (← p.dropUnusedValue reduced.expression)
    | none => p.wrapInFunction replace scope statements
    pure p

end Nested

/-! ## Tying the knot -/

/-- Replace the node at a path, with at most `fuel` replacements by statements inside each other. -/
def replaceWithin : Nat → PathId → NodeId → SessionM Unit
  | 0, _, _ => throw .exhausted
  | fuel + 1, p, new => p.replaceUsing (replaceByStatementsUsing (replaceWithin fuel)) new

/-- How deep replacements by statements can be inside each other: each one handles statements
further down in the tree. -/
def replaceFuel : SessionM Nat := do pure ((← get).tree.depthBound + 8)

/-- Replace the node at a path. -/
def replaceNode (p : PathId) (new : NodeId) : SessionM Unit := do
  replaceWithin (← replaceFuel) p new

/-- Take the node at a path out of the tree. -/
def remove (p : PathId) : SessionM Unit := do
  p.removeUsing (replaceWithin (← replaceFuel))

/-- Put statements in the place of the expression at a path; the path keeps its place. -/
def replaceExpressionWithStatements (p : PathId) (statements : List NodeId) :
    SessionM PathId := do
  replaceByStatementsUsing (replaceWithin (← replaceFuel)) p statements

end PathId

/-- What may be offered in place of a node. Only a node, or the node of a path, is accepted; the
other offers are refused by name. -/
inductive Replacement where
  | node (id : NodeId)
  | path (p : PathId)
  | nodes (ids : List NodeId)
  | source (text : String)
  | nothing
deriving DecidableEq, Repr

namespace PathId

/-- Replace the node at a path by what is offered. -/
def replaceWith (p : PathId) : Replacement → SessionM Unit
  | .node id => p.replaceNode id
  | .path other => do
    match ← other.node? with
    | some id => p.replaceNode id
    | none => refuse .falsyReplacement
  | .nodes _ => refuse .arrayReplacement
  | .source _ => refuse .sourceReplacement
  | .nothing => refuse .falsyReplacement

/-- Put nodes in the place of a path: as elements of its list, as a plain replacement, as a
computation in the place of an expression, or as a block. -/
def replaceInline (p : PathId) (nodes : List NodeId) : SessionM (List PathId) := do
  if ← p.inList then p.replaceWithMultiple nodes
  else
    match nodes with
    | [] => refuse .emptyNodeList
    | [single] =>
      p.replaceNode single
      pure [p]
    | _ =>
      if ← p.isAny NodeType.isExpression then
        let _ ← p.replaceExpressionWithStatements nodes
        pure [p]
      else if ← p.isStatementOrBlock then
        p.replaceNode (← onTree (TreeM.block nodes))
        p.elements .body
      else refuse (.notAList "replace_inline")

/-- Replace the node at a path by the expression that a text stands for. -/
def replaceWithSource (p : PathId) (text : String) : SessionM Unit := do
  match (← get).parser with
  | none => refuse .noParser
  | some parser =>
    match ← onTree (parser text) with
    | .ok id => p.replaceNode id
    | .error e => refuse (.parse e.message e.offset)

end PathId

end Espalier
