import Espalier.Analysis.Execution
import Espalier.Analysis.Resolve

set_option autoImplicit false

/-! # Type inference

Every answer is a type, `any` when nothing is known. The type of a variable is the union of
what is assigned to it before it is read, narrowed by the conditions around the read. Answers are
kept with their path; while one is being found, an empty union stands in its place, so that
variables that are defined by each other do not lead in circles.

The search through a condition follows variables without such a guard, and is therefore bounded by
a number of steps. -/

namespace Espalier

open SessionM

namespace PathId

/-! ## Without recursion -/

/-- The type of a place without a node: that of a declarator without an initial value. It is
undefined, except in the head of a loop over keys or values. -/
def typeOfMissing? (p : PathId) : SessionM (Option ValueType) := do
  if (← p.data).key ≠ .field .init then pure none
  else if (← p.parentType?) ≠ some .variableDeclarator then pure none
  else
    let declaration ← match ← p.parent? with
      | some declarator => declarator.parent?
      | none => pure none
    match declaration with
    | none => pure (some .void)
    | some declaration =>
      if (← declaration.data).key = .field .left then
        match ← declaration.parentType? with
        | some .forInStatement => pure (some .string)
        | some .forOfStatement => pure (some .any)
        | _ => pure (some .void)
      else pure (some .void)

/-- The result type of a unary operator. -/
def typeOfUnary : UnaryOperator → ValueType
  | .typeof => .string
  | .void => .void
  | .minus | .plus | .bitNot => .number
  | .not | .delete => .boolean

/-- What calling a function gives: a promise or an iterator for async functions, else the declared
type. -/
def typeOfResult? : NodeKind → Option ValueType
  | .functionDeclaration _ _ _ isAsync isGenerator returnType
  | .functionExpression _ _ _ isAsync isGenerator returnType =>
    if isAsync then some (.generic (if isGenerator then "AsyncIterator" else "Promise"))
    else returnType
  | .arrowFunctionExpression _ _ isAsync returnType =>
    if isAsync then some (.generic "Promise") else returnType
  | _ => none

/-- The type of a call: what the function gives that the callee stands for. -/
def typeOfCall? (callee : PathId) : SessionM (Option ValueType) := do
  let function ← callee.resolve false
  pure ((← function.kind?).bind typeOfResult?)

/-- The declaration and the assignments of a variable, sorted into those that are executed before
`p` and those whose order is not known. -/
def violationsBefore (p : PathId) : List PathId → SessionM (List PathId × List PathId)
  | [] => pure ([], [])
  | site :: rest => do
    let value ← site.resolve false
    let status ← value.executionStatus p
    let (before, unordered) ← violationsBefore p rest
    pure <| match status with
      | .before => (site :: before, unordered)
      | .unknown => (before, site :: unordered)
      | .after => (before, unordered)

/-- The nearest conditional around a path, if the path stands in one of its branches. Standing in
its test does not count. -/
def nearestConditional? (p : PathId) : SessionM (Option PathId) := do
  let found ← climb (some p) fun q => do
    match ← q.parent? with
    | none => pure none
    | some parent =>
      match ← parent.type? with
      | some .ifStatement | some .conditionalExpression =>
        pure (some (if (← q.data).key = .field .test then none else some parent))
      | _ => pure none
  pure found.join

/-- Is this a `typeof` expression? -/
def isTypeof (p : PathId) : SessionM Bool := do
  match ← p.kind? with
  | some (.unaryExpression .typeof _) => pure true
  | _ => pure false

/-- The type that `typeof name === "…"` gives to `name`. -/
def typeFromTypeof? (name : String) (left right : PathId) : SessionM (Option ValueType) := do
  let sides ← if ← left.isTypeof then pure (some (left, right))
    else if ← right.isTypeof then pure (some (right, left))
    else pure none
  match sides with
  | none => pure none
  | some (operator, other) =>
    match ← (← other.resolve false).kind? with
    | some (.stringLiteral value) =>
      let argument ← operator.child .argument
      if (← argument.identifierName?) = some name then pure (ValueType.ofTypeof? value)
      else pure none
    | _ => pure none

/-! ## From the types of other paths

`annotate` gives the type of another path. -/

section Step

variable (annotate : PathId → SessionM ValueType)

/-- The union of the types of some fields. -/
def unionOfFields? (p : PathId) (fields : List Field) : SessionM (Option ValueType) := do
  let types ← fields.mapM fun f => do annotate (← p.child f)
  pure (ValueType.union? types)

/-- The result type of a binary operator. Addition gives a number for two numbers, a string beside
a string, and else one of the two. -/
def typeOfBinary? (p : PathId) (operator : BinaryOperator) : SessionM (Option ValueType) := do
  if operator.isNumeric then pure (some .number)
  else if operator.isBoolean then pure (some .boolean)
  else
    let left ← p.child .left
    let right ← p.child .right
    let leftIs (name : String) : SessionM Bool := do pure ((← annotate left).isBase name)
    let rightIs (name : String) : SessionM Bool := do pure ((← annotate right).isBase name)
    let numbers ← if ← leftIs "number" then rightIs "number" else pure false
    if numbers then pure (some .number)
    else
      let strings ← if ← leftIs "string" then pure true else rightIs "string"
      pure (if strings then some .string else ValueType.union? [.string, .number])

/-- What a comparison says about the type of `name`: the type of the other side for strict
equality, a number for an ordering, and what a `typeof` test names. -/
def typeFromComparison? (name : String) (p : PathId) (operator : BinaryOperator) :
    SessionM (Option ValueType) := do
  let left ← (← p.child .left).resolve false
  let right ← (← p.child .right).resolve false
  let target ← if (← left.identifierName?) = some name then pure (some right)
    else if (← right.identifierName?) = some name then pure (some left)
    else pure none
  match target with
  | some target =>
    if operator = .strictEqual then do pure (some (← annotate target))
    else pure (if operator.isNumericComparison then some .number else none)
  | none => if operator = .strictEqual then typeFromTypeof? name left right else pure none

/-- The types that the pending parts of a condition give to `name`, looking through `&&` and `||`
and through variables. -/
def typesFromCondition (name : String) : Nat → List PathId → SessionM (List ValueType)
  | 0, _ => throw .exhausted
  | _ + 1, [] => pure []
  | steps + 1, p :: rest => do
    let p ← p.resolve false
    match ← p.kind? with
    | some (.logicalExpression ..) =>
      let left ← p.child .left
      let right ← p.child .right
      typesFromCondition name steps (rest ++ [left, right])
    | some (.binaryExpression operator _ _) =>
      let type ← typeFromComparison? annotate name p operator
      do pure (type.toList ++ (← typesFromCondition name steps rest))
    | _ => typesFromCondition name steps rest

/-- The type that the closest condition which says anything about `name` gives to it, and that
condition. At most `fuel` conditions around `p` are asked. -/
def narrowing? (name : String) (steps : Nat) : Nat → PathId →
    SessionM (Option (ValueType × PathId))
  | 0, _ => throw .exhausted
  | fuel + 1, p => do
    match ← p.nearestConditional? with
    | none => pure none
    | some conditional =>
      let test ← conditional.child .test
      match ValueType.union? (← typesFromCondition annotate name steps [test]) with
      | some type => pure (some (type, conditional))
      | none => narrowing? name steps fuel conditional

/-- The type of a variable where it is read: the union of all assignments that come before or whose
order is not known; a condition stands for those that were made before it. -/
def typeFromAssignments? (steps : Nat) (p : PathId) (name : String) (binding : Binding) :
    SessionM (Option ValueType) := do
  let sites := binding.path :: binding.violations
  let (before, unordered) ← p.violationsBefore sites
  let (narrowed, before) ← match ← narrowing? annotate name steps ((← get).paths.size + 1) p with
    | some (type, conditional) => do
      let (beforeTest, _) ← conditional.violationsBefore sites
      pure ([type], before.filter fun q => decide (q ∉ beforeTest))
    | none => pure ([], before)
  let types ← (before ++ unordered).mapM annotate
  pure (ValueType.union? (narrowed ++ types))

/-- The type of an identifier: that of the variable it refers to, or of a well-known global. -/
def typeOfReference? (steps : Nat) (p : PathId) (name : String) :
    SessionM (Option ValueType) := do
  if !(← p.isReferenced) then pure none
  else
    match ← p.binding? with
    | some binding =>
      match ← ask fun t => t.kind? binding.identifier with
      | .identifier _ (some type) => pure (some type)
      | _ => typeFromAssignments? annotate steps p name binding
    | none =>
      pure <| match name with
        | "undefined" => some .void
        | "NaN" | "Infinity" => some .number
        | _ => none

/-- The type of the node at a path, if anything is known about it. -/
def typeOf? (steps : Nat) (p : PathId) : SessionM (Option ValueType) := do
  match ← p.kind? with
  | none => p.typeOfMissing?
  | some kind =>
    match kind with
    | .identifier _ (some type) => pure (some type)
    | .identifier name none => typeOfReference? annotate steps p name
    | .variableDeclarator id _ =>
      if (← ask fun t => t.type? id) = .identifier then
        do pure (some (← annotate (← p.child .init)))
      else pure none
    | .typeCastExpression _ type => pure (some type)
    | .newExpression callee _ => do
      pure ((← ask fun t => t.kind? callee).identifierName?.map .generic)
    | .unaryExpression operator _ => pure (some (typeOfUnary operator))
    | .binaryExpression operator _ _ => typeOfBinary? annotate p operator
    | .logicalExpression .. => unionOfFields? annotate p [.left, .right]
    | .conditionalExpression .. => unionOfFields? annotate p [.consequent, .alternate]
    | .sequenceExpression [] => pure none
    | .sequenceExpression expressions => do
      pure (some (← annotate (← p.element .expressions (expressions.length - 1))))
    | .assignmentExpression .. => do pure (some (← annotate (← p.child .right)))
    | .updateExpression .. | .numericLiteral _ => pure (some .number)
    | .stringLiteral _ => pure (some .string)
    | .booleanLiteral _ => pure (some .boolean)
    | .nullLiteral => pure (some .null)
    | .objectExpression _ => pure (some (.generic "Object"))
    | .arrayExpression _ | .restElement _ => pure (some (.generic "Array"))
    | .functionDeclaration .. | .functionExpression .. | .arrowFunctionExpression .. =>
      pure (some (.generic "Function"))
    | .callExpression .. => do typeOfCall? (← p.child .callee)
    | _ =>
      if (← p.parentType?) = some .typeCastExpression then
        match ← p.parent? with
        | some parent => do pure (some (← annotate parent))
        | none => pure none
      else pure none

end Step

/-! ## Answers -/

/-- The type of a path, asking at most `fuel` paths in a row. -/
def valueTypeWithin (steps : Nat) : Nat → PathId → SessionM ValueType
  | 0, _ => throw .exhausted
  | fuel + 1, p => do
    match (← p.data).inferred with
    | some type => pure type
    | none =>
      p.modifyData fun d => { d with inferred := some (.union []) }
      let type := (← typeOf? (valueTypeWithin steps fuel) steps p).getD .any
      p.modifyData fun d => { d with inferred := some type }
      pure type

/-- The steps that the search through one condition may take. -/
def conditionSteps : Nat := Nat.pow 2 20

/-- The type of a path. Each question in a row is about another path. -/
def valueType (p : PathId) : SessionM ValueType := do
  valueTypeWithin conditionSteps (← get).pathBound p

/-- The type of a path, found anew, if anything is known about it. -/
def inferType? (p : PathId) : SessionM (Option ValueType) := do
  typeOf? (valueTypeWithin conditionSteps (← get).pathBound) conditionSteps p

/-! ## Questions about types -/

/-- Is the type the base type of the given name? Unless it is asked softly, the type is not looked
for when no base type has that name. -/
def isBaseType (p : PathId) (name : String) (soft : Bool) : SessionM Bool := do
  if !soft && name ∉ ValueType.baseNames then pure false
  else pure ((← p.valueType).isBase name)

/-- Could the value be of the given base type? -/
def couldBeBaseType (p : PathId) (name : String) : SessionM Bool := do
  match ← p.valueType with
  | .any => pure true
  | .union members => pure (members.any fun t => t.isBase name)
  | type => pure (type.isBase name)

/-- Do both paths have the same base type, other than `any`? -/
def sameBaseType (p q : PathId) : SessionM Bool := do
  let left ← p.valueType
  let right ← q.valueType
  pure (left.baseName?.isSome && left != .any && left == right)

/-- Is the type the named type? -/
def isGenericType (p : PathId) (name : String) : SessionM Bool := do
  pure ((← p.valueType) == .generic name)

end PathId

end Espalier
