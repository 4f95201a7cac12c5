import Espalier.Syntax.Tree

set_option autoImplicit false

/-! # Parentheses

Whether an expression has to be parenthesised depends on its kind, on the parent and on the field
it stands in; for object and function expressions also on whether the expression starts a
statement. `above` lists the enclosing nodes, the parent first. -/

namespace Espalier

/-- Positions whose operand binds tighter than a conditional: operands of operators, the test of a
conditional, a callee and the object of an access. -/
def bindsTighter (parent : NodeType) (field : Option Field) : Bool :=
  parent.isBinary || parent == .unaryExpression
    || (parent == .conditionalExpression && field == some .test)
    || ((parent == .callExpression || parent == .newExpression) && field == some .callee)
    || (parent == .memberExpression && field == some .object)

/-- The left operand of `**`, where no unary operator may stand bare. -/
def isPowerBase (parent : NodeKind) (field : Option Field) : Bool :=
  match parent with
  | .binaryExpression .power _ _ => field == some .left
  | _ => false

/-- Does an operator expression of the given precedence need parentheses? Equal precedence groups
to the left, except that `**` groups to the right. -/
def operatorNeedsParens (parent : NodeKind) (field : Option Field) (precedence : Nat)
    (isPower : Bool) : Bool :=
  let outer :=
    ((parent.type == .callExpression || parent.type == .newExpression) && field == some .callee)
      || parent.type == .unaryExpression
      || (parent.type == .memberExpression && field == some .object)
  let against (outerPrecedence : Nat) : Bool :=
    if precedence < outerPrecedence then true
    else if precedence = outerPrecedence then
      if isPower then field == some .left else field == some .right
    else false
  if outer then true
  else match parent with
    | .binaryExpression o _ _ => against o.precedence
    | .logicalExpression o _ _ => against o.precedence
    | _ => false

/-- Positions in which a sequence stands without parentheses. -/
def allowsBareSequence (parent : NodeType) (field : Option Field) : Bool :=
  match parent with
  | .forStatement | .throwStatement | .returnStatement => true
  | .ifStatement | .whileStatement => field == some .test
  | .forInStatement => field == some .right
  | .expressionStatement => field == some .expression
  | _ => false

namespace Tree

/-- Is there a call in the chain of accesses that ends at this node? -/
def hasCallWithin (t : Tree) : Nat → NodeId → Option Bool
  | 0, _ => none
  | fuel + 1, id => do
    match ← t.kind? id with
    | .callExpression .. => some true
    | .memberExpression object _ _ => t.hasCallWithin fuel object
    | _ => some false

/-- Does `node` stand at the very start of an expression statement? -/
def startsStatement? (t : Tree) : NodeId → List NodeId → Option Bool
  | _, [] => some false
  | node, parent :: above => do
    let field ← t.fieldOf? parent node
    match ← t.kind? parent with
    | .expressionStatement .. => some (field == some .expression)
    | .callExpression .. =>
      if field = some .callee then t.startsStatement? parent above else some false
    | .sequenceExpression expressions =>
      if expressions.head? = some node then t.startsStatement? parent above else some false
    | .memberExpression .. =>
      if field = some .object then t.startsStatement? parent above else some false
    | .conditionalExpression .. =>
      if field = some .test then t.startsStatement? parent above else some false
    | .binaryExpression .. | .logicalExpression .. | .assignmentExpression .. =>
      if field = some .left then t.startsStatement? parent above else some false
    | _ => some false

/-- Does an expression need parentheses below the given parent, for its own kind? -/
def kindNeedsParens? (t : Tree) (node : NodeId) (above : List NodeId) (parent : NodeKind)
    (field : Option Field) : Option Bool := do
  match ← t.kind? node with
  | .updateExpression .. | .unaryExpression .. =>
    some ((parent.type == .memberExpression && field == some .object) || isPowerBase parent field)
  | .objectExpression .. =>
    if parent.type = .arrowFunctionExpression ∧ field = some .body then some true
    else t.startsStatement? node above
  | .functionExpression .. => t.startsStatement? node above
  | .binaryExpression o _ _ => some (operatorNeedsParens parent field o.precedence (o == .power))
  | .logicalExpression o _ _ => some (operatorNeedsParens parent field o.precedence false)
  | .sequenceExpression .. => some (!allowsBareSequence parent.type field)
  | .arrowFunctionExpression .. =>
    some (parent.type.isExportDeclaration || bindsTighter parent.type field)
  | .conditionalExpression .. => some (bindsTighter parent.type field)
  | .assignmentExpression _ left _ => do
    let type ← t.type? left
    some (type == .objectPattern || bindsTighter parent.type field)
  | _ => some false

/-- Does `node` need parentheses below the nodes `above`? The callee of `new` does when it contains
a call; otherwise its kind decides. -/
def needsParens? (t : Tree) (node : NodeId) (above : List NodeId) : Option Bool :=
  match above with
  | [] => some false
  | parentId :: _ => do
    let field ← t.fieldOf? parentId node
    let parent ← t.kind? parentId
    let calls ←
      if parent.type = .newExpression ∧ field = some .callee then t.hasCallWithin t.depthBound node
      else some false
    if calls then some true else t.kindNeedsParens? node above parent field

end Tree

end Espalier
