import Espalier.Decimal.Notation
import Espalier.Json.Printer
import Espalier.Syntax.Tree

set_option autoImplicit false

/-! # Trees as JSON

A node is one flat object: its type, the fields of its kind, then its comments and its span where
it has any. Absent optional nodes are written as `null`; empty comment lists, absent types
and an empty list of directives are left out. -/

namespace Espalier

namespace ValueType

/-- The name of the form of a type. -/
def formName : ValueType → String
  | .any => "Any"
  | .mixed => "Mixed"
  | .number => "Number"
  | .string => "String"
  | .boolean => "Boolean"
  | .void => "Void"
  | .null => "Null"
  | .generic _ => "Generic"
  | .union _ => "Union"

mutual

/-- A type as an object with its form and, for named types and unions, its content. -/
def toJson : ValueType → Json
  | .generic name => .obj [("kind", .str "Generic"), ("of", .str name)]
  | .union members => .obj [("kind", .str "Union"), ("of", .arr (listToJson members))]
  | t => .obj [("kind", .str t.formName)]

/-- Types one by one. -/
def listToJson : List ValueType → List Json
  | [] => []
  | t :: rest => toJson t :: listToJson rest

end

end ValueType

/-- A node id is its number. -/
def NodeId.toJson (id : NodeId) : Json := .ofNat id.index

/-- A list of node ids. -/
def NodeId.listToJson (ids : List NodeId) : Json := .arr (ids.map NodeId.toJson)

/-- The name of a kind of comment. -/
def CommentKind.name : CommentKind → String
  | .line => "Line"
  | .block => "Block"

/-- A comment as an object. -/
def Comment.toJson (c : Comment) : Json :=
  .obj [("kind", .str c.kind.name), ("value", .str c.value)]

/-- A span as an object. -/
def Span.toJson (s : Span) : Json := .obj [("start", .ofNat s.start), ("end", .ofNat s.stop)]

/-- A member that is left out when it is absent. -/
def presentMember (name : String) : Option Json → List (String × Json)
  | none => []
  | some j => [(name, j)]

/-- A list member that is left out when it is empty. -/
def listMember {α : Type} (name : String) (f : α → Json) (items : List α) : List (String × Json) :=
  if items.isEmpty then [] else [(name, .arr (items.map f))]

/-- The members of a node that belong to its kind, after the type. -/
def NodeKind.members : NodeKind → List (String × Json)
  | .program body directives =>
    [("body", NodeId.listToJson body)] ++ listMember "directives" .str directives
  | .expressionStatement expression => [("expression", expression.toJson)]
  | .blockStatement body => [("body", NodeId.listToJson body)]
  | .emptyStatement => []
  | .debuggerStatement => []
  | .returnStatement argument => [("argument", .ofOption NodeId.toJson argument)]
  | .ifStatement test consequent alternate =>
    [("test", test.toJson), ("consequent", consequent.toJson),
     ("alternate", .ofOption NodeId.toJson alternate)]
  | .forStatement init test update body =>
    [("init", .ofOption NodeId.toJson init), ("test", .ofOption NodeId.toJson test),
     ("update", .ofOption NodeId.toJson update), ("body", body.toJson)]
  | .forInStatement left right body =>
    [("left", left.toJson), ("right", right.toJson), ("body", body.toJson)]
  | .forOfStatement left right body =>
    [("left", left.toJson), ("right", right.toJson), ("body", body.toJson)]
  | .whileStatement test body => [("test", test.toJson), ("body", body.toJson)]
  | .doWhileStatement body test => [("body", body.toJson), ("test", test.toJson)]
  | .breakStatement label => [("label", .ofOption NodeId.toJson label)]
  | .continueStatement label => [("label", .ofOption NodeId.toJson label)]
  | .throwStatement argument => [("argument", argument.toJson)]
  | .tryStatement block handler finalizer =>
    [("block", block.toJson), ("handler", .ofOption NodeId.toJson handler),
     ("finalizer", .ofOption NodeId.toJson finalizer)]
  | .catchClause param body => [("param", .ofOption NodeId.toJson param), ("body", body.toJson)]
  | .labeledStatement label body => [("label", label.toJson), ("body", body.toJson)]
  | .variableDeclaration kind declarations =>
    [("kind", .str kind.keyword), ("declarations", NodeId.listToJson declarations)]
  | .variableDeclarator id init => [("id", id.toJson), ("init", .ofOption NodeId.toJson init)]
  | .functionDeclaration id params body isAsync isGenerator returnType =>
    [("id", .ofOption NodeId.toJson id), ("params", NodeId.listToJson params),
     ("body", body.toJson), ("is_async", .bool isAsync), ("is_generator", .bool isGenerator)]
      ++ presentMember "return_type" (returnType.map ValueType.toJson)
  | .functionExpression id params body isAsync isGenerator returnType =>
    [("id", .ofOption NodeId.toJson id), ("params", NodeId.listToJson params),
     ("body", body.toJson), ("is_async", .bool isAsync), ("is_generator", .bool isGenerator)]
      ++ presentMember "return_type" (returnType.map ValueType.toJson)
  | .arrowFunctionExpression params body isAsync returnType =>
    [("params", NodeId.listToJson params), ("body", body.toJson), ("is_async", .bool isAsync)]
      ++ presentMember "return_type" (returnType.map ValueType.toJson)
  | .identifier name declared =>
    [("name", .str name)]
      ++ presentMember "type_annotation" (declared.map ValueType.toJson)
  | .stringLiteral value => [("value", .str value)]
  | .numericLiteral value => [("value", value.toJson)]
  | .booleanLiteral value => [("value", .bool value)]
  | .nullLiteral => []
  | .thisExpression => []
  | .memberExpression object property computed =>
    [("object", object.toJson), ("property", property.toJson), ("computed", .bool computed)]
  | .callExpression callee arguments =>
    [("callee", callee.toJson), ("arguments", NodeId.listToJson arguments)]
  | .newExpression callee arguments =>
    [("callee", callee.toJson), ("arguments", NodeId.listToJson arguments)]
  | .binaryExpression operator left right =>
    [("operator", .str operator.symbol), ("left", left.toJson), ("right", right.toJson)]
  | .logicalExpression operator left right =>
    [("operator", .str operator.symbol), ("left", left.toJson), ("right", right.toJson)]
  | .unaryExpression operator argument =>
    [("operator", .str operator.symbol), ("argument", argument.toJson)]
  | .updateExpression operator argument before =>
    [("operator", .str operator.symbol), ("argument", argument.toJson), ("prefix", .bool before)]
  | .assignmentExpression operator left right =>
    [("operator", .str operator.symbol), ("left", left.toJson), ("right", right.toJson)]
  | .conditionalExpression test consequent alternate =>
    [("test", test.toJson), ("consequent", consequent.toJson), ("alternate", alternate.toJson)]
  | .sequenceExpression expressions => [("expressions", NodeId.listToJson expressions)]
  | .objectExpression properties => [("properties", NodeId.listToJson properties)]
  | .objectProperty key value computed shorthand =>
    [("key", key.toJson), ("value", value.toJson), ("computed", .bool computed),
     ("shorthand", .bool shorthand)]
  | .arrayExpression elements => [("elements", NodeId.listToJson elements)]
  | .typeCastExpression expression declared =>
    [("expression", expression.toJson), ("type_annotation", declared.toJson)]
  | .assignmentPattern left right => [("left", left.toJson), ("right", right.toJson)]
  | .arrayPattern elements => [("elements", NodeId.listToJson elements)]
  | .objectPattern properties => [("properties", NodeId.listToJson properties)]
  | .restElement argument => [("argument", argument.toJson)]
  | .importDeclaration specifiers source =>
    [("specifiers", NodeId.listToJson specifiers), ("source", source.toJson)]
  | .importSpecifier localName imported =>
    [("local", localName.toJson), ("imported", imported.toJson)]
  | .importDefaultSpecifier localName => [("local", localName.toJson)]
  | .importNamespaceSpecifier localName => [("local", localName.toJson)]
  | .exportNamedDeclaration declaration specifiers source =>
    [("declaration", .ofOption NodeId.toJson declaration),
     ("specifiers", NodeId.listToJson specifiers), ("source", .ofOption NodeId.toJson source)]
  | .exportSpecifier localName exported =>
    [("local", localName.toJson), ("exported", exported.toJson)]
  | .exportDefaultDeclaration declaration => [("declaration", declaration.toJson)]

/-- A node as one flat object. -/
def Node.toJson (n : Node) : Json :=
  .obj ([("type", .str n.type.name)] ++ n.kind.members
    ++ listMember "leading_comments" Comment.toJson n.leading
    ++ listMember "trailing_comments" Comment.toJson n.trailing
    ++ listMember "inner_comments" Comment.toJson n.inner
    ++ presentMember "span" (n.span.map Span.toJson))

/-- A tree: its nodes in the order of their ids, its root and its source text. -/
def Tree.toJson (t : Tree) : Json :=
  .obj ([("nodes", .arr (t.nodes.toList.map Node.toJson))]
    ++ presentMember "root" (t.root.map NodeId.toJson)
    ++ presentMember "source" (t.source.map .str))

/-- The JSON text of a tree, one item or member per line. -/
def Tree.jsonText (t : Tree) : String := t.toJson.pretty

end Espalier
