import Espalier.Path.Family

set_option autoImplicit false

/-! # What a position allows

Facts about a path that follow from its position: whether it is read, whether it may be swapped for
a block or a declaration, whether its value is the value of the program, and whether a chain of
property accesses matches a dotted pattern. -/

namespace Espalier

open SessionM

namespace PathId

/-! ## Reading -/

/-- Is an identifier at this position read as a value? -/
def isReferenced (p : PathId) : SessionM Bool := do
  let d ← p.data
  match d.container.parent?, d.field? with
  | some parent, some f => do pure ((← ask fun t => t.kind? parent).readsField f)
  | _, _ => pure false

/-- Does the path hold an identifier that is read as a value? -/
def isReferencedIdentifier (p : PathId) : SessionM Bool := do
  if ← p.is .identifier then p.isReferenced else pure false

/-- Is there a node in the field, or an element in the list? -/
def has (p : PathId) (f : Field) : SessionM Bool := do
  match (← p.kind?).bind fun k => k.child? f with
  | some c => pure !c.ids.isEmpty
  | none => pure false

/-- The source text of the node, or nothing. -/
def sourceText (p : PathId) : SessionM String := do
  match ← p.node? with
  | some id => do pure ((← ask fun t => t.sourceOf? id).getD "")
  | none => pure ""

/-! ## Positions -/

/-- Is this a place for one statement or a block: a branch or the body of a loop? -/
def isStatementOrBlock (p : PathId) : SessionM Bool := do
  let d ← p.data
  let parent ← p.parentType?
  if parent = some .labeledStatement ∨ d.listField?.isSome then pure false
  else
    let fits := match d.key with
      | .field .consequent | .field .body | .field .alternate => true
      | _ => false
    pure (fits && !parent.any NodeType.isFunction)

/-- Is this a place for a variable declaration or an expression: the head of a `for` loop? -/
def isForHead (p : PathId) : SessionM Bool := do
  let fits := match (← p.data).key with
    | .field .init | .field .left => true
    | _ => false
  if fits then pure ((← p.parentType?).any NodeType.isFor) else pure false

/-- Is this the body of an arrow function that would change between an expression and a block? -/
def canSwapBody (p : PathId) (replacement : NodeId) : SessionM Bool := do
  if (← p.data).key ≠ .field .body then pure false
  else if (← p.parentType?) ≠ some .arrowFunctionExpression then pure false
  else
    let type ← ask fun t => t.type? replacement
    match ← p.type? with
    | some .blockStatement => pure type.isExpression
    | some current => pure (current.isExpression && type == .blockStatement)
    | none => pure false

/-- Is the path the last element of its list, or not in a list at all? -/
def isLast (p : PathId) : SessionM Bool := do
  let d ← p.data
  match d.container, d.key with
  | .list parent f, .index i => do pure ((← nextIndex i) == (← listLength parent f))
  | _, _ => pure true

/-- Does the value of this path end up as the value of what is around it? Undecided as long as the
path is the last one in its list and stands neither below the program nor below a function. -/
def endsProgram? (insideFunction : Bool) (p : PathId) : SessionM (Option Bool) := do
  if ← p.isLast then
    match ← p.parent? with
    | none => pure (some true)
    | some parent =>
      if ← parent.is .program then pure (some true)
      else if ← parent.isAny NodeType.isFunction then pure (some insideFunction)
      else pure none
  else pure (some false)

/-- Is the value of this path the value of the program, or of its function where that counts? -/
def isCompletionRecord (p : PathId) (insideFunction : Bool) : SessionM Bool := do
  pure ((← climb (some p) (endsProgram? insideFunction)).getD true)

end PathId

/-! ## Dotted patterns -/

namespace Tree

/-- The name of one access in a chain, where it can be told. -/
def accessName? (t : Tree) (property : NodeId) (computed : Bool) : Option (Option String) := do
  some <| match ← t.kind? property with
    | .identifier name _ => if computed then none else some name
    | .stringLiteral value => some value
    | _ => none

/-- The names along a chain of accesses, from its start on. -/
def chainNames? (t : Tree) : Nat → NodeId → Option (List (Option String))
  | 0, _ => none
  | fuel + 1, id => do
    match ← t.kind? id with
    | .memberExpression object property computed => do
      let name ← t.accessName? property computed
      let names ← t.chainNames? fuel object
      some (names ++ [name])
    | .identifier name _ => some [some name]
    | .thisExpression => some [some "this"]
    | _ => some [none]

end Tree

/-- Do the names along a chain match the parts of a pattern? A star matches every name; with
`allowPartial` the chain may go on after the last part. -/
def matchesParts (names : List (Option String)) (parts : List String) (allowPartial : Bool) :
    Bool :=
  if names.length < parts.length || (!allowPartial && parts.length < names.length) then false
  else (parts.zip names).all fun (part, name) =>
    match name with
    | some name => part == "*" || part == name
    | none => false

/-- Does the chain of accesses at this path match a dotted pattern? -/
def PathId.matchesPattern (p : PathId) (pattern : String) (allowPartial : Bool) :
    SessionM Bool := do
  match ← p.node? with
  | none => pure false
  | some id =>
    if (← ask fun t => t.type? id) = .memberExpression then
      let names ← askBelow [id] fun t => t.chainNames? t.depthBound id
      pure (matchesParts names (Dotted.parts pattern) allowPartial)
    else pure false

end Espalier
