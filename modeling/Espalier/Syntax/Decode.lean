import Espalier.Decimal.Notation
import Espalier.Json.Parser
import Espalier.Syntax.Tree

set_option autoImplicit false

/-! # Trees from JSON

The reader accepts what the writer produces and a little more: members in any order, unknown
members, optional members left out, structures written as arrays of their members, and enumeration
members written as an object with one empty member. A member that matters may not be repeated. The
unknown members of a tree, of a comment and of a span are passed over without being read, so they
may nest without limit and hold numbers and texts that have no value. What is wrong with a text
that is refused is not told. -/

namespace Espalier

namespace Json

/-! ## Scalars -/

/-- A natural number below `bound`. -/
def natBelow? (bound : Nat) : Json → Option Nat
  | .num n =>
    match Numeral.ofNumber? n with
    | some (.natural n) => if n < bound then some n else none
    | _ => none
  | _ => none

/-- A text. -/
def string? : Json → Option String
  | .str s => some s
  | _ => none

/-- A truth value. -/
def bool? : Json → Option Bool
  | .bool b => some b
  | _ => none

/-- A number, written as an integer or not. -/
def double? : Json → Option Double
  | .num n => (Numeral.ofNumber? n).map Numeral.toDouble
  | _ => none

/-- The items of an array, each read by `f`. -/
def list? {α : Type} (f : Json → Option α) : Json → Option (List α)
  | .arr items => items.mapM f
  | _ => none

/-- `null` for an absent value. -/
def nullable? {α : Type} (f : Json → Option α) : Json → Option (Option α)
  | .null => some none
  | j => (f j).map some

/-- The name of an enumeration member: a text, or an object whose one member has no content. -/
def enumName? : Json → Option String
  | .str s => some s
  | .obj [(name, .null)] => some name
  | _ => none

/-- Like `enumName?`, where an empty object counts as no content as well. -/
def looseEnumName? : Json → Option String
  | .obj [(name, .obj [])] => some name
  | j => enumName? j

/-! ## Members -/

/-- The only member of this name: `none` when the name is repeated, `some none` when there is no
such member. -/
def unique? (members : List (String × Json)) (name : String) : Option (Option Json) :=
  match members.filter fun e => e.1 == name with
  | [] => some none
  | [e] => some (some e.2)
  | _ => none

/-- A member that has to be there. -/
def required? {α : Type} (f : Json → Option α) (members : List (String × Json)) (name : String) :
    Option α := do
  match ← unique? members name with
  | some j => f j
  | none => none

/-- A member that may be missing or `null`. -/
def optional? {α : Type} (f : Json → Option α) (members : List (String × Json)) (name : String) :
    Option (Option α) := do
  match ← unique? members name with
  | some j => nullable? f j
  | none => some none

/-- A member that stands for `fallback` when it is missing, but may not be `null`. -/
def defaulted? {α : Type} (fallback : α) (f : Json → Option α) (members : List (String × Json))
    (name : String) : Option α := do
  match ← unique? members name with
  | some j => f j
  | none => some fallback

end Json

/-! ## Types -/

namespace ValueType

/-- The type of a form that has no content. -/
def ofFormName? : String → Option ValueType
  | "Any" => some .any
  | "Mixed" => some .mixed
  | "Number" => some .number
  | "String" => some .string
  | "Boolean" => some .boolean
  | "Void" => some .void
  | "Null" => some .null
  | _ => none

mutual

/-- A type of a form, given its content; a form without content takes `null`. -/
def ofContent? (form : String) : Json → Option ValueType
  | .str name => if form = "Generic" then some (.generic name) else none
  | .arr items => if form = "Union" then (ofJsonList? items).map .union else none
  | .null => ofFormName? form
  | _ => none

/-- A type: its form and perhaps its content, in either order, or an array of the two. -/
def ofJson? : Json → Option ValueType
  | .obj members => ofMembers? none none members
  | .arr [form, content] => do ofContent? (← Json.looseEnumName? form) content
  | _ => none

/-- The members of a type. `form` is the form met so far; `early` is the reading of content
that came before its form. -/
def ofMembers? (form : Option String) (early : Option (String → Option ValueType)) :
    List (String × Json) → Option ValueType
  | [] =>
    match form, early with
    | some form, some content => content form
    | some form, none => ofFormName? form
    | none, _ => none
  | (name, j) :: rest =>
    if name = "kind" then
      match form, Json.looseEnumName? j with
      | none, some form => ofMembers? (some form) early rest
      | _, _ => none
    else if name = "of" then
      match early with
      | none => ofMembers? form (some fun form => ofContent? form j) rest
      | some _ => none
    else ofMembers? form early rest

/-- Types one by one. -/
def ofJsonList? : List Json → Option (List ValueType)
  | [] => some []
  | j :: rest => do
    let t ← ofJson? j
    let ts ← ofJsonList? rest
    some (t :: ts)

end

end ValueType

/-! ## Nodes -/

/-- Node ids are 32-bit numbers. -/
def NodeId.ofJson? (j : Json) : Option NodeId := (Json.natBelow? (Nat.pow 2 32) j).map NodeId.mk

/-- A list of node ids. -/
def NodeId.listOfJson? (j : Json) : Option (List NodeId) := Json.list? NodeId.ofJson? j

/-- A kind of comment. -/
def CommentKind.ofJson? (j : Json) : Option CommentKind := do
  match ← Json.enumName? j with
  | "Line" => some .line
  | "Block" => some .block
  | _ => none

/-- A comment: an object, or an array of its two members. -/
def Comment.ofJson? : Json → Option Comment
  | .obj members => do
    let kind ← Json.required? CommentKind.ofJson? members "kind"
    let value ← Json.required? Json.string? members "value"
    some { kind, value }
  | .arr [kind, value] => do
    let kind ← CommentKind.ofJson? kind
    let value ← Json.string? value
    some { kind, value }
  | _ => none

/-- A span: an object, or an array of its two members. Offsets are 64-bit numbers. -/
def Span.ofJson? : Json → Option Span
  | .obj members => do
    let start ← Json.required? (Json.natBelow? (Nat.pow 2 64)) members "start"
    let stop ← Json.required? (Json.natBelow? (Nat.pow 2 64)) members "end"
    some { start, stop }
  | .arr [start, stop] => do
    let start ← Json.natBelow? (Nat.pow 2 64) start
    let stop ← Json.natBelow? (Nat.pow 2 64) stop
    some { start, stop }
  | _ => none

namespace NodeKind

/-- A member of an enumeration by its text. -/
def enum? {α : Type} (ofText? : String → Option α) (j : Json) : Option α := do
  ofText? (← Json.looseEnumName? j)

/-- Read the fields of a kind of the given type. -/
def ofMembers? (ms : List (String × Json)) : NodeType → Option NodeKind
  | .program => do
    let body ← Json.required? NodeId.listOfJson? ms "body"
    let directives ← Json.defaulted? [] (Json.list? Json.string?) ms "directives"
    some (.program body directives)
  | .expressionStatement => do
    let expression ← Json.required? NodeId.ofJson? ms "expression"
    some (.expressionStatement expression)
  | .blockStatement => do
    let body ← Json.required? NodeId.listOfJson? ms "body"
    some (.blockStatement body)
  | .emptyStatement => some .emptyStatement
  | .debuggerStatement => some .debuggerStatement
  | .returnStatement => do
    let argument ← Json.optional? NodeId.ofJson? ms "argument"
    some (.returnStatement argument)
  | .ifStatement => do
    let test ← Json.required? NodeId.ofJson? ms "test"
    let consequent ← Json.required? NodeId.ofJson? ms "consequent"
    let alternate ← Json.optional? NodeId.ofJson? ms "alternate"
    some (.ifStatement test consequent alternate)
  | .forStatement => do
    let init ← Json.optional? NodeId.ofJson? ms "init"
    let test ← Json.optional? NodeId.ofJson? ms "test"
    let update ← Json.optional? NodeId.ofJson? ms "update"
    let body ← Json.required? NodeId.ofJson? ms "body"
    some (.forStatement init test update body)
  | .forInStatement => do
    let left ← Json.required? NodeId.ofJson? ms "left"
    let right ← Json.required? NodeId.ofJson? ms "right"
    let body ← Json.required? NodeId.ofJson? ms "body"
    some (.forInStatement left right body)
  | .forOfStatement => do
    let left ← Json.required? NodeId.ofJson? ms "left"
    let right ← Json.required? NodeId.ofJson? ms "right"
    let body ← Json.required? NodeId.ofJson? ms "body"
    some (.forOfStatement left right body)
  | .whileStatement => do
    let test ← Json.required? NodeId.ofJson? ms "test"
    let body ← Json.required? NodeId.ofJson? ms "body"
    some (.whileStatement test body)
  | .doWhileStatement => do
    let body ← Json.required? NodeId.ofJson? ms "body"
    let test ← Json.required? NodeId.ofJson? ms "test"
    some (.doWhileStatement body test)
  | .breakStatement => do
    let label ← Json.optional? NodeId.ofJson? ms "label"
    some (.breakStatement label)
  | .continueStatement => do
    let label ← Json.optional? NodeId.ofJson? ms "label"
    some (.continueStatement label)
  | .throwStatement => do
    let argument ← Json.required? NodeId.ofJson? ms "argument"
    some (.throwStatement argument)
  | .tryStatement => do
    let block ← Json.required? NodeId.ofJson? ms "block"
    let handler ← Json.optional? NodeId.ofJson? ms "handler"
    let finalizer ← Json.optional? NodeId.ofJson? ms "finalizer"
    some (.tryStatement block handler finalizer)
  | .catchClause => do
    let param ← Json.optional? NodeId.ofJson? ms "param"
    let body ← Json.required? NodeId.ofJson? ms "body"
    some (.catchClause param body)
  | .labeledStatement => do
    let label ← Json.required? NodeId.ofJson? ms "label"
    let body ← Json.required? NodeId.ofJson? ms "body"
    some (.labeledStatement label body)
  | .variableDeclaration => do
    let kind ← Json.required? (enum? VariableKind.ofKeyword?) ms "kind"
    let declarations ← Json.required? NodeId.listOfJson? ms "declarations"
    some (.variableDeclaration kind declarations)
  | .variableDeclarator => do
    let id ← Json.required? NodeId.ofJson? ms "id"
    let init ← Json.optional? NodeId.ofJson? ms "init"
    some (.variableDeclarator id init)
  | .functionDeclaration => do
    let id ← Json.optional? NodeId.ofJson? ms "id"
    let params ← Json.required? NodeId.listOfJson? ms "params"
    let body ← Json.required? NodeId.ofJson? ms "body"
    let isAsync ← Json.defaulted? false Json.bool? ms "is_async"
    let isGenerator ← Json.defaulted? false Json.bool? ms "is_generator"
    let returnType ← Json.optional? ValueType.ofJson? ms "return_type"
    some (.functionDeclaration id params body isAsync isGenerator returnType)
  | .functionExpression => do
    let id ← Json.optional? NodeId.ofJson? ms "id"
    let params ← Json.required? NodeId.listOfJson? ms "params"
    let body ← Json.required? NodeId.ofJson? ms "body"
    let isAsync ← Json.defaulted? false Json.bool? ms "is_async"
    let isGenerator ← Json.defaulted? false Json.bool? ms "is_generator"
    let returnType ← Json.optional? ValueType.ofJson? ms "return_type"
    some (.functionExpression id params body isAsync isGenerator returnType)
  | .arrowFunctionExpression => do
    let params ← Json.required? NodeId.listOfJson? ms "params"
    let body ← Json.required? NodeId.ofJson? ms "body"
    let isAsync ← Json.defaulted? false Json.bool? ms "is_async"
    let returnType ← Json.optional? ValueType.ofJson? ms "return_type"
    some (.arrowFunctionExpression params body isAsync returnType)
  | .identifier => do
    let name ← Json.required? Json.string? ms "name"
    let declared ← Json.optional? ValueType.ofJson? ms "type_annotation"
    some (.identifier name declared)
  | .stringLiteral => do
    let value ← Json.required? Json.string? ms "value"
    some (.stringLiteral value)
  | .numericLiteral => do
    let value ← Json.required? Json.double? ms "value"
    some (.numericLiteral value)
  | .booleanLiteral => do
    let value ← Json.required? Json.bool? ms "value"
    some (.booleanLiteral value)
  | .nullLiteral => some .nullLiteral
  | .thisExpression => some .thisExpression
  | .memberExpression => do
    let object ← Json.required? NodeId.ofJson? ms "object"
    let property ← Json.required? NodeId.ofJson? ms "property"
    let computed ← Json.defaulted? false Json.bool? ms "computed"
    some (.memberExpression object property computed)
  | .callExpression => do
    let callee ← Json.required? NodeId.ofJson? ms "callee"
    let arguments ← Json.required? NodeId.listOfJson? ms "arguments"
    some (.callExpression callee arguments)
  | .newExpression => do
    let callee ← Json.required? NodeId.ofJson? ms "callee"
    let arguments ← Json.required? NodeId.listOfJson? ms "arguments"
    some (.newExpression callee arguments)
  | .binaryExpression => do
    let operator ← Json.required? (enum? BinaryOperator.ofSymbol?) ms "operator"
    let left ← Json.required? NodeId.ofJson? ms "left"
    let right ← Json.required? NodeId.ofJson? ms "right"
    some (.binaryExpression operator left right)
  | .logicalExpression => do
    let operator ← Json.required? (enum? LogicalOperator.ofSymbol?) ms "operator"
    let left ← Json.required? NodeId.ofJson? ms "left"
    let right ← Json.required? NodeId.ofJson? ms "right"
    some (.logicalExpression operator left right)
  | .unaryExpression => do
    let operator ← Json.required? (enum? UnaryOperator.ofSymbol?) ms "operator"
    let argument ← Json.required? NodeId.ofJson? ms "argument"
    some (.unaryExpression operator argument)
  | .updateExpression => do
    let operator ← Json.required? (enum? UpdateOperator.ofSymbol?) ms "operator"
    let argument ← Json.required? NodeId.ofJson? ms "argument"
    let before ← Json.defaulted? false Json.bool? ms "prefix"
    some (.updateExpression operator argument before)
  | .assignmentExpression => do
    let operator ← Json.required? (enum? AssignmentOperator.ofSymbol?) ms "operator"
    let left ← Json.required? NodeId.ofJson? ms "left"
    let right ← Json.required? NodeId.ofJson? ms "right"
    some (.assignmentExpression operator left right)
  | .conditionalExpression => do
    let test ← Json.required? NodeId.ofJson? ms "test"
    let consequent ← Json.required? NodeId.ofJson? ms "consequent"
    let alternate ← Json.required? NodeId.ofJson? ms "alternate"
    some (.conditionalExpression test consequent alternate)
  | .sequenceExpression => do
    let expressions ← Json.required? NodeId.listOfJson? ms "expressions"
    some (.sequenceExpression expressions)
  | .objectExpression => do
    let properties ← Json.required? NodeId.listOfJson? ms "properties"
    some (.objectExpression properties)
  | .objectProperty => do
    let key ← Json.required? NodeId.ofJson? ms "key"
    let value ← Json.required? NodeId.ofJson? ms "value"
    let computed ← Json.defaulted? false Json.bool? ms "computed"
    let shorthand ← Json.defaulted? false Json.bool? ms "shorthand"
    some (.objectProperty key value computed shorthand)
  | .arrayExpression => do
    let elements ← Json.required? NodeId.listOfJson? ms "elements"
    some (.arrayExpression elements)
  | .typeCastExpression => do
    let expression ← Json.required? NodeId.ofJson? ms "expression"
    let declared ← Json.required? ValueType.ofJson? ms "type_annotation"
    some (.typeCastExpression expression declared)
  | .assignmentPattern => do
    let left ← Json.required? NodeId.ofJson? ms "left"
    let right ← Json.required? NodeId.ofJson? ms "right"
    some (.assignmentPattern left right)
  | .arrayPattern => do
    let elements ← Json.required? NodeId.listOfJson? ms "elements"
    some (.arrayPattern elements)
  | .objectPattern => do
    let properties ← Json.required? NodeId.listOfJson? ms "properties"
    some (.objectPattern properties)
  | .restElement => do
    let argument ← Json.required? NodeId.ofJson? ms "argument"
    some (.restElement argument)
  | .importDeclaration => do
    let specifiers ← Json.required? NodeId.listOfJson? ms "specifiers"
    let source ← Json.required? NodeId.ofJson? ms "source"
    some (.importDeclaration specifiers source)
  | .importSpecifier => do
    let localName ← Json.required? NodeId.ofJson? ms "local"
    let imported ← Json.required? NodeId.ofJson? ms "imported"
    some (.importSpecifier localName imported)
  | .importDefaultSpecifier => do
    let localName ← Json.required? NodeId.ofJson? ms "local"
    some (.importDefaultSpecifier localName)
  | .importNamespaceSpecifier => do
    let localName ← Json.required? NodeId.ofJson? ms "local"
    some (.importNamespaceSpecifier localName)
  | .exportNamedDeclaration => do
    let declaration ← Json.optional? NodeId.ofJson? ms "declaration"
    let specifiers ← Json.required? NodeId.listOfJson? ms "specifiers"
    let source ← Json.optional? NodeId.ofJson? ms "source"
    some (.exportNamedDeclaration declaration specifiers source)
  | .exportSpecifier => do
    let localName ← Json.required? NodeId.ofJson? ms "local"
    let exported ← Json.required? NodeId.ofJson? ms "exported"
    some (.exportSpecifier localName exported)
  | .exportDefaultDeclaration => do
    let declaration ← Json.required? NodeId.ofJson? ms "declaration"
    some (.exportDefaultDeclaration declaration)

/-- The type of a node: its name, or its number among all types. -/
def typeOfJson? : Json → Option NodeType
  | .str name => NodeType.ofName? name
  | j => do NodeType.all[← Json.natBelow? (Nat.pow 2 64) j]?

/-- Read a kind: its type and its fields among the members of an object. -/
def ofJson? (members : List (String × Json)) : Option NodeKind := do
  let type ← Json.required? typeOfJson? members "type"
  ofMembers? members type

end NodeKind

/-- Read a node. -/
def Node.ofJson? : Json → Option Node
  | .obj members => do
    let leading ← Json.defaulted? [] (Json.list? Comment.ofJson?) members "leading_comments"
    let trailing ← Json.defaulted? [] (Json.list? Comment.ofJson?) members "trailing_comments"
    let inner ← Json.defaulted? [] (Json.list? Comment.ofJson?) members "inner_comments"
    let span ← Json.optional? Span.ofJson? members "span"
    let kind ← NodeKind.ofJson? members
    some { kind, leading, trailing, inner, span }
  | _ => none

/-! ## Trees -/

namespace Tree

/-- The parts of a tree, read one by one. -/
def ofParts? (nodes : Json) (root source : Option Json) : Option Tree := do
  let nodes ← Json.list? Node.ofJson? nodes
  let root ← match root with
    | some j => Json.nullable? NodeId.ofJson? j
    | none => some none
  let source ← match source with
    | some j => Json.nullable? Json.string? j
    | none => some none
  some { nodes := nodes.toArray, root, source }

/-- Read a tree: an object, or an array of its members of which only the nodes have to be there. -/
def ofJson? : Json → Option Tree
  | .obj members => do
    let nodes ← Json.required? some members "nodes"
    ofParts? nodes (← Json.unique? members "root") (← Json.unique? members "source")
  | .arr (nodes :: rest) => if rest.length ≤ 2 then ofParts? nodes rest[0]? rest[1]? else none
  | _ => none

end Tree

/-! ## Texts -/

/-- What is asked of a comment. -/
def Comment.shape : Json.Shape := .record [("kind", .any), ("value", .any)] .ignored

/-- What is asked of a span. -/
def Span.shape : Json.Shape := .record [("start", .any), ("end", .any)] .ignored

/-- What is asked of a node: all its members, because only the type of a node tells which of them
are its fields. -/
def Node.shape : Json.Shape :=
  .record [("leading_comments", .list Comment.shape), ("trailing_comments", .list Comment.shape),
    ("inner_comments", .list Comment.shape), ("span", Span.shape)] .any

/-- A number that stands for a value at all. -/
def Json.Number.isReadable (n : Json.Number) : Bool := (Numeral.ofNumber? n).isSome

namespace Tree

/-- What is asked of a tree. -/
def shape : Json.Shape :=
  .record [("nodes", .list Node.shape), ("root", .any), ("source", .any)] .ignored

/-- How deeply a tree may be nested in its text; members nobody asks for do not count. -/
def maxDepth : Nat := 127

/-- Read a tree from its text. Every number that is asked for has to stand for a value. -/
def ofText? (text : String) : Option Tree := do
  let j ← Json.parse? shape maxDepth text
  if j.allNumbers Json.Number.isReadable then ofJson? j else none

end Tree

end Espalier
