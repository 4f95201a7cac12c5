import Espalier.Syntax.NodeType

set_option autoImplicit false

/-! # Child fields

The names of the fields that hold child nodes, the fields of each node type in the order in which
they are visited, and the fields through which a node introduces names. -/

namespace Espalier

/-- The name of a field that holds one child node or a list of them. -/
inductive Field where
  | body
  | expression
  | declarations
  | id
  | init
  | params
  | test
  | consequent
  | alternate
  | update
  | left
  | right
  | argument
  | block
  | handler
  | finalizer
  | param
  | label
  | object
  | property
  | callee
  | arguments
  | expressions
  | properties
  | key
  | value
  | elements
  | specifiers
  | source
  | localName
  | imported
  | exported
  | declaration
deriving DecidableEq, Repr

namespace Field

/-- Every field, in declaration order. -/
def all : List Field := [
  .body, .expression, .declarations, .id, .init, .params, .test, .consequent, .alternate, .update,
  .left, .right, .argument, .block, .handler, .finalizer, .param, .label, .object, .property,
  .callee, .arguments, .expressions, .properties, .key, .value, .elements, .specifiers, .source,
  .localName, .imported, .exported, .declaration]

/-- The name of a field in JSON, in patterns and in messages. -/
def name : Field → String
  | .body => "body"
  | .expression => "expression"
  | .declarations => "declarations"
  | .id => "id"
  | .init => "init"
  | .params => "params"
  | .test => "test"
  | .consequent => "consequent"
  | .alternate => "alternate"
  | .update => "update"
  | .left => "left"
  | .right => "right"
  | .argument => "argument"
  | .block => "block"
  | .handler => "handler"
  | .finalizer => "finalizer"
  | .param => "param"
  | .label => "label"
  | .object => "object"
  | .property => "property"
  | .callee => "callee"
  | .arguments => "arguments"
  | .expressions => "expressions"
  | .properties => "properties"
  | .key => "key"
  | .value => "value"
  | .elements => "elements"
  | .specifiers => "specifiers"
  | .source => "source"
  | .localName => "local"
  | .imported => "imported"
  | .exported => "exported"
  | .declaration => "declaration"

/-- The field of a name. -/
def ofName? (s : String) : Option Field := all.find? fun f => f.name == s

end Field

namespace NodeType

/-- The child fields of a node type, in visiting order. -/
def visitorFields : NodeType → List Field
  | .program | .blockStatement => [.body]
  | .expressionStatement => [.expression]
  | .emptyStatement | .debuggerStatement | .stringLiteral | .numericLiteral
  | .booleanLiteral | .nullLiteral | .thisExpression | .identifier => []
  | .returnStatement | .throwStatement => [.argument]
  | .ifStatement | .conditionalExpression => [.test, .consequent, .alternate]
  | .forStatement => [.init, .test, .update, .body]
  | .forInStatement | .forOfStatement => [.left, .right, .body]
  | .whileStatement => [.test, .body]
  | .doWhileStatement => [.body, .test]
  | .breakStatement | .continueStatement => [.label]
  | .tryStatement => [.block, .handler, .finalizer]
  | .catchClause => [.param, .body]
  | .labeledStatement => [.label, .body]
  | .variableDeclaration => [.declarations]
  | .variableDeclarator => [.id, .init]
  | .functionDeclaration | .functionExpression => [.id, .params, .body]
  | .arrowFunctionExpression => [.params, .body]
  | .memberExpression => [.object, .property]
  | .callExpression | .newExpression => [.callee, .arguments]
  | .binaryExpression | .logicalExpression | .assignmentExpression | .assignmentPattern =>
    [.left, .right]
  | .unaryExpression | .updateExpression | .restElement => [.argument]
  | .sequenceExpression => [.expressions]
  | .objectExpression | .objectPattern => [.properties]
  | .objectProperty => [.key, .value]
  | .arrayExpression | .arrayPattern => [.elements]
  | .typeCastExpression => [.expression]
  | .importDeclaration => [.specifiers, .source]
  | .importSpecifier => [.localName, .imported]
  | .importDefaultSpecifier | .importNamespaceSpecifier => [.localName]
  | .exportNamedDeclaration => [.declaration, .specifiers, .source]
  | .exportSpecifier => [.localName, .exported]
  | .exportDefaultDeclaration => [.declaration]

/-- The fields through which a node introduces binding identifiers, in search order. -/
def bindingFields : NodeType → List Field
  | .catchClause => [.param]
  | .labeledStatement => [.label]
  | .unaryExpression | .updateExpression | .restElement => [.argument]
  | .assignmentExpression | .assignmentPattern => [.left]
  | .importSpecifier | .importDefaultSpecifier | .importNamespaceSpecifier => [.localName]
  | .importDeclaration => [.specifiers]
  | .exportSpecifier => [.exported]
  | .functionDeclaration | .functionExpression => [.id, .params]
  | .objectProperty => [.value]
  | .arrayPattern => [.elements]
  | .objectPattern => [.properties]
  | .variableDeclaration => [.declarations]
  | .variableDeclarator => [.id]
  | _ => []

end NodeType

end Espalier
