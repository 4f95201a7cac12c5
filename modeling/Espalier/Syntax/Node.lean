import Espalier.Decimal.Double
import Espalier.Syntax.Field
import Espalier.Syntax.Operator
import Espalier.Syntax.ValueType

set_option autoImplicit false

/-! # Nodes

A node is a kind with its fields, the comments attached to it and its place in the source text.
Child nodes are named by `NodeId`. The kinds are read and written through one table of child
fields, `NodeKind.fields`, and one function that maps over them, `NodeKind.mapFields`. -/

namespace Espalier

/-- The name of a node: its place in the arena of its tree. -/
structure NodeId where
  index : Nat
deriving DecidableEq, Repr

/-- The bytes of the source text from `start` up to `stop`. -/
structure Span where
  start : Nat
  stop : Nat
deriving DecidableEq, Repr

/-- How a comment is delimited. -/
inductive CommentKind where
  | line
  | block
deriving DecidableEq, Repr

/-- A comment without its delimiters. -/
structure Comment where
  kind : CommentKind
  value : String
deriving DecidableEq, Repr

/-- What a node is: its kind with its child nodes and its own data. -/
inductive NodeKind where
  | program (body : List NodeId) (directives : List String)
  | expressionStatement (expression : NodeId)
  | blockStatement (body : List NodeId)
  | emptyStatement
  | debuggerStatement
  | returnStatement (argument : Option NodeId)
  | ifStatement (test : NodeId) (consequent : NodeId) (alternate : Option NodeId)
  | forStatement (init : Option NodeId) (test : Option NodeId) (update : Option NodeId)
      (body : NodeId)
  | forInStatement (left : NodeId) (right : NodeId) (body : NodeId)
  | forOfStatement (left : NodeId) (right : NodeId) (body : NodeId)
  | whileStatement (test : NodeId) (body : NodeId)
  | doWhileStatement (body : NodeId) (test : NodeId)
  | breakStatement (label : Option NodeId)
  | continueStatement (label : Option NodeId)
  | throwStatement (argument : NodeId)
  | tryStatement (block : NodeId) (handler : Option NodeId) (finalizer : Option NodeId)
  | catchClause (param : Option NodeId) (body : NodeId)
  | labeledStatement (label : NodeId) (body : NodeId)
  | variableDeclaration (kind : VariableKind) (declarations : List NodeId)
  | variableDeclarator (id : NodeId) (init : Option NodeId)
  | functionDeclaration (id : Option NodeId) (params : List NodeId) (body : NodeId)
      (isAsync : Bool) (isGenerator : Bool) (returnType : Option ValueType)
  | functionExpression (id : Option NodeId) (params : List NodeId) (body : NodeId)
      (isAsync : Bool) (isGenerator : Bool) (returnType : Option ValueType)
  | arrowFunctionExpression (params : List NodeId) (body : NodeId) (isAsync : Bool)
      (returnType : Option ValueType)
  | identifier (name : String) (declared : Option ValueType)
  | stringLiteral (value : String)
  | numericLiteral (value : Double)
  | booleanLiteral (value : Bool)
  | nullLiteral
  | thisExpression
  | memberExpression (object : NodeId) (property : NodeId) (computed : Bool)
  | callExpression (callee : NodeId) (arguments : List NodeId)
  | newExpression (callee : NodeId) (arguments : List NodeId)
  | binaryExpression (operator : BinaryOperator) (left : NodeId) (right : NodeId)
  | logicalExpression (operator : LogicalOperator) (left : NodeId) (right : NodeId)
  | unaryExpression (operator : UnaryOperator) (argument : NodeId)
  | updateExpression (operator : UpdateOperator) (argument : NodeId) (before : Bool)
  | assignmentExpression (operator : AssignmentOperator) (left : NodeId) (right : NodeId)
  | conditionalExpression (test : NodeId) (consequent : NodeId) (alternate : NodeId)
  | sequenceExpression (expressions : List NodeId)
  | objectExpression (properties : List NodeId)
  | objectProperty (key : NodeId) (value : NodeId) (computed : Bool) (shorthand : Bool)
  | arrayExpression (elements : List NodeId)
  | typeCastExpression (expression : NodeId) (declared : ValueType)
  | assignmentPattern (left : NodeId) (right : NodeId)
  | arrayPattern (elements : List NodeId)
  | objectPattern (properties : List NodeId)
  | restElement (argument : NodeId)
  | importDeclaration (specifiers : List NodeId) (source : NodeId)
  | importSpecifier (localName : NodeId) (imported : NodeId)
  | importDefaultSpecifier (localName : NodeId)
  | importNamespaceSpecifier (localName : NodeId)
  | exportNamedDeclaration (declaration : Option NodeId) (specifiers : List NodeId)
      (source : Option NodeId)
  | exportSpecifier (localName : NodeId) (exported : NodeId)
  | exportDefaultDeclaration (declaration : NodeId)
deriving DecidableEq, Repr

/-- The kind of a node without its fields. -/
def NodeKind.type : NodeKind → NodeType
  | .program .. => .program
  | .expressionStatement .. => .expressionStatement
  | .blockStatement .. => .blockStatement
  | .emptyStatement => .emptyStatement
  | .debuggerStatement => .debuggerStatement
  | .returnStatement .. => .returnStatement
  | .ifStatement .. => .ifStatement
  | .forStatement .. => .forStatement
  | .forInStatement .. => .forInStatement
  | .forOfStatement .. => .forOfStatement
  | .whileStatement .. => .whileStatement
  | .doWhileStatement .. => .doWhileStatement
  | .breakStatement .. => .breakStatement
  | .continueStatement .. => .continueStatement
  | .throwStatement .. => .throwStatement
  | .tryStatement .. => .tryStatement
  | .catchClause .. => .catchClause
  | .labeledStatement .. => .labeledStatement
  | .variableDeclaration .. => .variableDeclaration
  | .variableDeclarator .. => .variableDeclarator
  | .functionDeclaration .. => .functionDeclaration
  | .functionExpression .. => .functionExpression
  | .arrowFunctionExpression .. => .arrowFunctionExpression
  | .identifier .. => .identifier
  | .stringLiteral .. => .stringLiteral
  | .numericLiteral .. => .numericLiteral
  | .booleanLiteral .. => .booleanLiteral
  | .nullLiteral => .nullLiteral
  | .thisExpression => .thisExpression
  | .memberExpression .. => .memberExpression
  | .callExpression .. => .callExpression
  | .newExpression .. => .newExpression
  | .binaryExpression .. => .binaryExpression
  | .logicalExpression .. => .logicalExpression
  | .unaryExpression .. => .unaryExpression
  | .updateExpression .. => .updateExpression
  | .assignmentExpression .. => .assignmentExpression
  | .conditionalExpression .. => .conditionalExpression
  | .sequenceExpression .. => .sequenceExpression
  | .objectExpression .. => .objectExpression
  | .objectProperty .. => .objectProperty
  | .arrayExpression .. => .arrayExpression
  | .typeCastExpression .. => .typeCastExpression
  | .assignmentPattern .. => .assignmentPattern
  | .arrayPattern .. => .arrayPattern
  | .objectPattern .. => .objectPattern
  | .restElement .. => .restElement
  | .importDeclaration .. => .importDeclaration
  | .importSpecifier .. => .importSpecifier
  | .importDefaultSpecifier .. => .importDefaultSpecifier
  | .importNamespaceSpecifier .. => .importNamespaceSpecifier
  | .exportNamedDeclaration .. => .exportNamedDeclaration
  | .exportSpecifier .. => .exportSpecifier
  | .exportDefaultDeclaration .. => .exportDefaultDeclaration

/-! ## Child fields -/

/-- The content of a child field: a required node, an optional node, or a list. -/
inductive Child where
  | one (id : NodeId)
  | opt (id? : Option NodeId)
  | many (ids : List NodeId)
deriving DecidableEq, Repr

namespace Child

/-- The nodes in a field, in order. -/
def ids : Child → List NodeId
  | .one id => [id]
  | .opt id? => id?.toList
  | .many ids => ids

/-- Does the field hold a list? -/
def isList : Child → Bool
  | .many _ => true
  | _ => false

/-- The node of a field that holds at most one. -/
def node? : Child → Option NodeId
  | .one id => some id
  | .opt id? => id?
  | .many _ => none

/-- The nodes of a field that holds a list. -/
def list? : Child → Option (List NodeId)
  | .many ids => some ids
  | _ => none

end Child

/-- The child fields of a kind with their content, in visiting order. -/
def NodeKind.fields : NodeKind → List (Field × Child)
  | .program body _ => [(.body, .many body)]
  | .expressionStatement expression => [(.expression, .one expression)]
  | .blockStatement body => [(.body, .many body)]
  | .emptyStatement => []
  | .debuggerStatement => []
  | .returnStatement argument => [(.argument, .opt argument)]
  | .ifStatement test consequent alternate =>
    [(.test, .one test), (.consequent, .one consequent), (.alternate, .opt alternate)]
  | .forStatement init test update body =>
    [(.init, .opt init), (.test, .opt test), (.update, .opt update), (.body, .one body)]
  | .forInStatement left right body =>
    [(.left, .one left), (.right, .one right), (.body, .one body)]
  | .forOfStatement left right body =>
    [(.left, .one left), (.right, .one right), (.body, .one body)]
  | .whileStatement test body => [(.test, .one test), (.body, .one body)]
  | .doWhileStatement body test => [(.body, .one body), (.test, .one test)]
  | .breakStatement label => [(.label, .opt label)]
  | .continueStatement label => [(.label, .opt label)]
  | .throwStatement argument => [(.argument, .one argument)]
  | .tryStatement block handler finalizer =>
    [(.block, .one block), (.handler, .opt handler), (.finalizer, .opt finalizer)]
  | .catchClause param body => [(.param, .opt param), (.body, .one body)]
  | .labeledStatement label body => [(.label, .one label), (.body, .one body)]
  | .variableDeclaration _ declarations => [(.declarations, .many declarations)]
  | .variableDeclarator id init => [(.id, .one id), (.init, .opt init)]
  | .functionDeclaration id params body _ _ _ =>
    [(.id, .opt id), (.params, .many params), (.body, .one body)]
  | .functionExpression id params body _ _ _ =>
    [(.id, .opt id), (.params, .many params), (.body, .one body)]
  | .arrowFunctionExpression params body _ _ => [(.params, .many params), (.body, .one body)]
  | .identifier _ _ => []
  | .stringLiteral _ => []
  | .numericLiteral _ => []
  | .booleanLiteral _ => []
  | .nullLiteral => []
  | .thisExpression => []
  | .memberExpression object property _ => [(.object, .one object), (.property, .one property)]
  | .callExpression callee arguments => [(.callee, .one callee), (.arguments, .many arguments)]
  | .newExpression callee arguments => [(.callee, .one callee), (.arguments, .many arguments)]
  | .binaryExpression _ left right => [(.left, .one left), (.right, .one right)]
  | .logicalExpression _ left right => [(.left, .one left), (.right, .one right)]
  | .unaryExpression _ argument => [(.argument, .one argument)]
  | .updateExpression _ argument _ => [(.argument, .one argument)]
  | .assignmentExpression _ left right => [(.left, .one left), (.right, .one right)]
  | .conditionalExpression test consequent alternate =>
    [(.test, .one test), (.consequent, .one consequent), (.alternate, .one alternate)]
  | .sequenceExpression expressions => [(.expressions, .many expressions)]
  | .objectExpression properties => [(.properties, .many properties)]
  | .objectProperty key value _ _ => [(.key, .one key), (.value, .one value)]
  | .arrayExpression elements => [(.elements, .many elements)]
  | .typeCastExpression expression _ => [(.expression, .one expression)]
  | .assignmentPattern left right => [(.left, .one left), (.right, .one right)]
  | .arrayPattern elements => [(.elements, .many elements)]
  | .objectPattern properties => [(.properties, .many properties)]
  | .restElement argument => [(.argument, .one argument)]
  | .importDeclaration specifiers source =>
    [(.specifiers, .many specifiers), (.source, .one source)]
  | .importSpecifier localName imported =>
    [(.localName, .one localName), (.imported, .one imported)]
  | .importDefaultSpecifier localName => [(.localName, .one localName)]
  | .importNamespaceSpecifier localName => [(.localName, .one localName)]
  | .exportNamedDeclaration declaration specifiers source =>
    [(.declaration, .opt declaration), (.specifiers, .many specifiers), (.source, .opt source)]
  | .exportSpecifier localName exported =>
    [(.localName, .one localName), (.exported, .one exported)]
  | .exportDefaultDeclaration declaration => [(.declaration, .one declaration)]

/-- A map on child fields, one function for each kind of content. -/
structure FieldMap where
  one : Field → NodeId → NodeId
  opt : Field → Option NodeId → Option NodeId
  many : Field → List NodeId → List NodeId

/-- What a map makes of a field. -/
def FieldMap.apply (g : FieldMap) (f : Field) : Child → Child
  | .one id => .one (g.one f id)
  | .opt id? => .opt (g.opt f id?)
  | .many ids => .many (g.many f ids)

/-- Map every child field of a kind and keep its own data. -/
def NodeKind.mapFields (g : FieldMap) : NodeKind → NodeKind
  | .program body directives => .program (g.many .body body) directives
  | .expressionStatement expression => .expressionStatement (g.one .expression expression)
  | .blockStatement body => .blockStatement (g.many .body body)
  | .emptyStatement => .emptyStatement
  | .debuggerStatement => .debuggerStatement
  | .returnStatement argument => .returnStatement (g.opt .argument argument)
  | .ifStatement test consequent alternate =>
    .ifStatement (g.one .test test) (g.one .consequent consequent) (g.opt .alternate alternate)
  | .forStatement init test update body =>
    .forStatement (g.opt .init init) (g.opt .test test) (g.opt .update update) (g.one .body body)
  | .forInStatement left right body =>
    .forInStatement (g.one .left left) (g.one .right right) (g.one .body body)
  | .forOfStatement left right body =>
    .forOfStatement (g.one .left left) (g.one .right right) (g.one .body body)
  | .whileStatement test body => .whileStatement (g.one .test test) (g.one .body body)
  | .doWhileStatement body test => .doWhileStatement (g.one .body body) (g.one .test test)
  | .breakStatement label => .breakStatement (g.opt .label label)
  | .continueStatement label => .continueStatement (g.opt .label label)
  | .throwStatement argument => .throwStatement (g.one .argument argument)
  | .tryStatement block handler finalizer =>
    .tryStatement (g.one .block block) (g.opt .handler handler) (g.opt .finalizer finalizer)
  | .catchClause param body => .catchClause (g.opt .param param) (g.one .body body)
  | .labeledStatement label body => .labeledStatement (g.one .label label) (g.one .body body)
  | .variableDeclaration kind declarations =>
    .variableDeclaration kind (g.many .declarations declarations)
  | .variableDeclarator id init => .variableDeclarator (g.one .id id) (g.opt .init init)
  | .functionDeclaration id params body isAsync isGenerator returnType =>
    .functionDeclaration (g.opt .id id) (g.many .params params) (g.one .body body) isAsync
      isGenerator returnType
  | .functionExpression id params body isAsync isGenerator returnType =>
    .functionExpression (g.opt .id id) (g.many .params params) (g.one .body body) isAsync
      isGenerator returnType
  | .arrowFunctionExpression params body isAsync returnType =>
    .arrowFunctionExpression (g.many .params params) (g.one .body body) isAsync returnType
  | .identifier name declared => .identifier name declared
  | .stringLiteral value => .stringLiteral value
  | .numericLiteral value => .numericLiteral value
  | .booleanLiteral value => .booleanLiteral value
  | .nullLiteral => .nullLiteral
  | .thisExpression => .thisExpression
  | .memberExpression object property computed =>
    .memberExpression (g.one .object object) (g.one .property property) computed
  | .callExpression callee arguments =>
    .callExpression (g.one .callee callee) (g.many .arguments arguments)
  | .newExpression callee arguments =>
    .newExpression (g.one .callee callee) (g.many .arguments arguments)
  | .binaryExpression operator left right =>
    .binaryExpression operator (g.one .left left) (g.one .right right)
  | .logicalExpression operator left right =>
    .logicalExpression operator (g.one .left left) (g.one .right right)
  | .unaryExpression operator argument => .unaryExpression operator (g.one .argument argument)
  | .updateExpression operator argument before =>
    .updateExpression operator (g.one .argument argument) before
  | .assignmentExpression operator left right =>
    .assignmentExpression operator (g.one .left left) (g.one .right right)
  | .conditionalExpression test consequent alternate =>
    .conditionalExpression (g.one .test test) (g.one .consequent consequent)
      (g.one .alternate alternate)
  | .sequenceExpression expressions => .sequenceExpression (g.many .expressions expressions)
  | .objectExpression properties => .objectExpression (g.many .properties properties)
  | .objectProperty key value computed shorthand =>
    .objectProperty (g.one .key key) (g.one .value value) computed shorthand
  | .arrayExpression elements => .arrayExpression (g.many .elements elements)
  | .typeCastExpression expression declared =>
    .typeCastExpression (g.one .expression expression) declared
  | .assignmentPattern left right => .assignmentPattern (g.one .left left) (g.one .right right)
  | .arrayPattern elements => .arrayPattern (g.many .elements elements)
  | .objectPattern properties => .objectPattern (g.many .properties properties)
  | .restElement argument => .restElement (g.one .argument argument)
  | .importDeclaration specifiers source =>
    .importDeclaration (g.many .specifiers specifiers) (g.one .source source)
  | .importSpecifier localName imported =>
    .importSpecifier (g.one .localName localName) (g.one .imported imported)
  | .importDefaultSpecifier localName => .importDefaultSpecifier (g.one .localName localName)
  | .importNamespaceSpecifier localName => .importNamespaceSpecifier (g.one .localName localName)
  | .exportNamedDeclaration declaration specifiers source =>
    .exportNamedDeclaration (g.opt .declaration declaration) (g.many .specifiers specifiers)
      (g.opt .source source)
  | .exportSpecifier localName exported =>
    .exportSpecifier (g.one .localName localName) (g.one .exported exported)
  | .exportDefaultDeclaration declaration =>
    .exportDefaultDeclaration (g.one .declaration declaration)

namespace NodeKind

/-- The content of a child field; `none` when this kind has no such field. -/
def child? (k : NodeKind) (f : Field) : Option Child :=
  (k.fields.find? fun e => decide (e.1 = f)).map Prod.snd

/-- Does this kind have the field? -/
def hasField (k : NodeKind) (f : Field) : Bool := (k.child? f).isSome

/-- The map that puts a node into one single-node field. -/
def putNode (f : Field) (id : NodeId) : FieldMap where
  one g old := if g = f then id else old
  opt g old := if g = f then some id else old
  many _ old := old

/-- The map that empties one optional field. -/
def dropNode (f : Field) : FieldMap where
  one _ old := old
  opt g old := if g = f then none else old
  many _ old := old

/-- The map that replaces the list of one field. -/
def putList (f : Field) (ids : List NodeId) : FieldMap where
  one _ old := old
  opt _ old := old
  many g old := if g = f then ids else old

/-- Put a node into a single-node field. -/
def setNode (k : NodeKind) (f : Field) (id : NodeId) : NodeKind := k.mapFields (putNode f id)

/-- Empty an optional field. -/
def clearNode (k : NodeKind) (f : Field) : NodeKind := k.mapFields (dropNode f)

/-- Replace the list of a list field. -/
def setList (k : NodeKind) (f : Field) (ids : List NodeId) : NodeKind := k.mapFields (putList f ids)

/-- The nodes below this one, in visiting order. -/
def children (k : NodeKind) : List NodeId := k.fields.flatMap fun e => e.2.ids

/-- The name of an identifier. -/
def identifierName? : NodeKind → Option String
  | .identifier name _ => some name
  | _ => none

/-- The fields of a kind are the visitor fields of its type. -/
theorem map_fst_fields (k : NodeKind) : k.fields.map Prod.fst = k.type.visitorFields := by
  cases k <;> rfl

/-- A map acts on each field separately. -/
theorem fields_mapFields (g : FieldMap) (k : NodeKind) :
    (k.mapFields g).fields = k.fields.map fun e => (e.1, g.apply e.1 e.2) := by
  cases k <;> rfl

/-- A map on child fields keeps the type. -/
theorem type_mapFields (g : FieldMap) (k : NodeKind) : (k.mapFields g).type = k.type := by
  cases k <;> rfl

end NodeKind

/-- A node: its kind, the comments attached to it and its place in the source text. -/
structure Node where
  kind : NodeKind
  leading : List Comment := []
  trailing : List Comment := []
  inner : List Comment := []
  span : Option Span := none
deriving DecidableEq, Repr

/-- The kind of a node without its fields. -/
def Node.type (n : Node) : NodeType := n.kind.type

end Espalier
