set_option autoImplicit false

/-! # Node types

The 54 kinds of syntax node, and the categories that group them: statements, expressions,
functions, loops and so on. Rules and scopes are written against categories, so that each table of
members stands here once. -/

namespace Espalier

/-- The kind of a node, without its fields. -/
inductive NodeType where
  | program
  | expressionStatement
  | blockStatement
  | emptyStatement
  | debuggerStatement
  | returnStatement
  | ifStatement
  | forStatement
  | forInStatement
  | forOfStatement
  | whileStatement
  | doWhileStatement
  | breakStatement
  | continueStatement
  | throwStatement
  | tryStatement
  | catchClause
  | labeledStatement
  | variableDeclaration
  | variableDeclarator
  | functionDeclaration
  | functionExpression
  | arrowFunctionExpression
  | identifier
  | stringLiteral
  | numericLiteral
  | booleanLiteral
  | nullLiteral
  | thisExpression
  | memberExpression
  | callExpression
  | newExpression
  | binaryExpression
  | logicalExpression
  | unaryExpression
  | updateExpression
  | assignmentExpression
  | conditionalExpression
  | sequenceExpression
  | objectExpression
  | objectProperty
  | arrayExpression
  | typeCastExpression
  | assignmentPattern
  | arrayPattern
  | objectPattern
  | restElement
  | importDeclaration
  | importSpecifier
  | importDefaultSpecifier
  | importNamespaceSpecifier
  | exportNamedDeclaration
  | exportSpecifier
  | exportDefaultDeclaration
deriving DecidableEq, Repr

namespace NodeType

/-- Every node type, in declaration order. -/
def all : List NodeType := [
  .program, .expressionStatement, .blockStatement, .emptyStatement, .debuggerStatement,
  .returnStatement, .ifStatement, .forStatement, .forInStatement, .forOfStatement,
  .whileStatement, .doWhileStatement, .breakStatement, .continueStatement, .throwStatement,
  .tryStatement, .catchClause, .labeledStatement, .variableDeclaration, .variableDeclarator,
  .functionDeclaration, .functionExpression, .arrowFunctionExpression, .identifier,
  .stringLiteral, .numericLiteral, .booleanLiteral, .nullLiteral, .thisExpression,
  .memberExpression, .callExpression, .newExpression, .binaryExpression, .logicalExpression,
  .unaryExpression, .updateExpression, .assignmentExpression, .conditionalExpression,
  .sequenceExpression, .objectExpression, .objectProperty, .arrayExpression, .typeCastExpression,
  .assignmentPattern, .arrayPattern, .objectPattern, .restElement, .importDeclaration,
  .importSpecifier, .importDefaultSpecifier, .importNamespaceSpecifier, .exportNamedDeclaration,
  .exportSpecifier, .exportDefaultDeclaration]

/-- The name of a node type in JSON and in messages. -/
def name : NodeType → String
  | .program => "Program"
  | .expressionStatement => "ExpressionStatement"
  | .blockStatement => "BlockStatement"
  | .emptyStatement => "EmptyStatement"
  | .debuggerStatement => "DebuggerStatement"
  | .returnStatement => "ReturnStatement"
  | .ifStatement => "IfStatement"
  | .forStatement => "ForStatement"
  | .forInStatement => "ForInStatement"
  | .forOfStatement => "ForOfStatement"
  | .whileStatement => "WhileStatement"
  | .doWhileStatement => "DoWhileStatement"
  | .breakStatement => "BreakStatement"
  | .continueStatement => "ContinueStatement"
  | .throwStatement => "ThrowStatement"
  | .tryStatement => "TryStatement"
  | .catchClause => "CatchClause"
  | .labeledStatement => "LabeledStatement"
  | .variableDeclaration => "VariableDeclaration"
  | .variableDeclarator => "VariableDeclarator"
  | .functionDeclaration => "FunctionDeclaration"
  | .functionExpression => "FunctionExpression"
  | .arrowFunctionExpression => "ArrowFunctionExpression"
  | .identifier => "Identifier"
  | .stringLiteral => "StringLiteral"
  | .numericLiteral => "NumericLiteral"
  | .booleanLiteral => "BooleanLiteral"
  | .nullLiteral => "NullLiteral"
  | .thisExpression => "ThisExpression"
  | .memberExpression => "MemberExpression"
  | .callExpression => "CallExpression"
  | .newExpression => "NewExpression"
  | .binaryExpression => "BinaryExpression"
  | .logicalExpression => "LogicalExpression"
  | .unaryExpression => "UnaryExpression"
  | .updateExpression => "UpdateExpression"
  | .assignmentExpression => "AssignmentExpression"
  | .conditionalExpression => "ConditionalExpression"
  | .sequenceExpression => "SequenceExpression"
  | .objectExpression => "ObjectExpression"
  | .objectProperty => "ObjectProperty"
  | .arrayExpression => "ArrayExpression"
  | .typeCastExpression => "TypeCastExpression"
  | .assignmentPattern => "AssignmentPattern"
  | .arrayPattern => "ArrayPattern"
  | .objectPattern => "ObjectPattern"
  | .restElement => "RestElement"
  | .importDeclaration => "ImportDeclaration"
  | .importSpecifier => "ImportSpecifier"
  | .importDefaultSpecifier => "ImportDefaultSpecifier"
  | .importNamespaceSpecifier => "ImportNamespaceSpecifier"
  | .exportNamedDeclaration => "ExportNamedDeclaration"
  | .exportSpecifier => "ExportSpecifier"
  | .exportDefaultDeclaration => "ExportDefaultDeclaration"

/-- The node type of a name. -/
def ofName? (s : String) : Option NodeType := all.find? fun t => t.name == s

/-! ## Membership -/

/-- Nodes that stand where a statement may stand. -/
def isStatement : NodeType → Bool
  | .expressionStatement | .blockStatement | .emptyStatement | .debuggerStatement
  | .returnStatement | .ifStatement | .forStatement | .forInStatement | .forOfStatement
  | .whileStatement | .doWhileStatement | .breakStatement | .continueStatement | .throwStatement
  | .tryStatement | .labeledStatement | .variableDeclaration | .functionDeclaration
  | .importDeclaration | .exportNamedDeclaration | .exportDefaultDeclaration => true
  | _ => false

/-- Nodes that have a value. Patterns and object properties do not count. -/
def isExpression : NodeType → Bool
  | .functionExpression | .arrowFunctionExpression | .identifier | .stringLiteral
  | .numericLiteral | .booleanLiteral | .nullLiteral | .thisExpression | .memberExpression
  | .callExpression | .newExpression | .binaryExpression | .logicalExpression | .unaryExpression
  | .updateExpression | .assignmentExpression | .conditionalExpression | .sequenceExpression
  | .objectExpression | .arrayExpression | .typeCastExpression => true
  | _ => false

/-- Function declarations, function expressions and arrow functions. -/
def isFunction : NodeType → Bool
  | .functionDeclaration | .functionExpression | .arrowFunctionExpression => true
  | _ => false

/-- The three loops with a `for` head. -/
def isFor : NodeType → Bool
  | .forStatement | .forInStatement | .forOfStatement => true
  | _ => false

/-- The two loops that only have a condition. -/
def isWhile : NodeType → Bool
  | .whileStatement | .doWhileStatement => true
  | _ => false

/-- All loops. -/
def isLoop (t : NodeType) : Bool := t.isFor || t.isWhile

/-- Nodes that may open a scope. -/
def isScopable (t : NodeType) : Bool :=
  t.isFunction || t.isFor || t == .program || t == .blockStatement || t == .catchClause

/-- Declarations, with imports and exports. -/
def isDeclaration : NodeType → Bool
  | .variableDeclaration | .functionDeclaration | .importDeclaration | .exportNamedDeclaration
  | .exportDefaultDeclaration => true
  | _ => false

/-- String, number, boolean and null literals. -/
def isLiteral : NodeType → Bool
  | .stringLiteral | .numericLiteral | .booleanLiteral | .nullLiteral => true
  | _ => false

/-- Destructuring targets. -/
def isPattern : NodeType → Bool
  | .assignmentPattern | .arrayPattern | .objectPattern | .restElement => true
  | _ => false

/-- The two export statements. -/
def isExportDeclaration : NodeType → Bool
  | .exportNamedDeclaration | .exportDefaultDeclaration => true
  | _ => false

/-- The entries of import and export lists. -/
def isModuleSpecifier : NodeType → Bool
  | .importSpecifier | .importDefaultSpecifier | .importNamespaceSpecifier
  | .exportSpecifier => true
  | _ => false

/-- The two expressions with a left and a right operand and an operator with a precedence. -/
def isBinary : NodeType → Bool
  | .binaryExpression | .logicalExpression => true
  | _ => false

end NodeType

/-! ## Categories -/

/-- A named group of node types. -/
inductive Category where
  | statement
  | expression
  | function
  | loop
  | forLoop
  | whileLoop
  | scopable
  | declaration
  | literal
  | pattern
  | exportDeclaration
  | moduleSpecifier
  | binary
deriving DecidableEq, Repr

namespace Category

/-- Every category, in declaration order. -/
def all : List Category := [
  .statement, .expression, .function, .loop, .forLoop, .whileLoop, .scopable, .declaration,
  .literal, .pattern, .exportDeclaration, .moduleSpecifier, .binary]

/-- The name of a category. -/
def name : Category → String
  | .statement => "Statement"
  | .expression => "Expression"
  | .function => "Function"
  | .loop => "Loop"
  | .forLoop => "For"
  | .whileLoop => "While"
  | .scopable => "Scopable"
  | .declaration => "Declaration"
  | .literal => "Literal"
  | .pattern => "Pattern"
  | .exportDeclaration => "ExportDeclaration"
  | .moduleSpecifier => "ModuleSpecifier"
  | .binary => "Binary"

/-- The category of a name. -/
def ofName? (s : String) : Option Category := all.find? fun c => c.name == s

end Category

/-- Does a node type belong to a category? -/
def NodeType.belongsTo (t : NodeType) : Category → Bool
  | .statement => t.isStatement
  | .expression => t.isExpression
  | .function => t.isFunction
  | .loop => t.isLoop
  | .forLoop => t.isFor
  | .whileLoop => t.isWhile
  | .scopable => t.isScopable
  | .declaration => t.isDeclaration
  | .literal => t.isLiteral
  | .pattern => t.isPattern
  | .exportDeclaration => t.isExportDeclaration
  | .moduleSpecifier => t.isModuleSpecifier
  | .binary => t.isBinary

/-- The members of a category, in declaration order. -/
def Category.members (c : Category) : List NodeType := NodeType.all.filter fun t => t.belongsTo c

end Espalier
