import Espalier.Syntax.Parens
import Espalier.Syntax.Query

set_option autoImplicit false

/-! # Program text

A tree is printed with one statement per line at the top level and blocks on one line. `renderKind`
says how a node is put together from the texts of its children; `printWithin` adds parentheses and
comments and goes down the tree. -/

namespace Espalier

/-! ## Pieces -/

/-- How a character is written inside a string literal. -/
def escapeInLiteral (c : Char) : List Char :=
  if c = '"' then ['\\', '"']
  else if c = '\\' then ['\\', '\\']
  else if c = '\n' then ['\\', 'n']
  else if c = '\r' then ['\\', 'r']
  else if c = '\t' then ['\\', 't']
  else [c]

/-- A string literal in double quotes. -/
def literalText (s : String) : String :=
  "\"" ++ String.ofList (s.toList.flatMap escapeInLiteral) ++ "\""

/-- The text of a comment in front of a node. -/
def Comment.leadingText (c : Comment) : String :=
  match c.kind with
  | .block => "/*" ++ c.value ++ "*/ "
  | .line => "//" ++ c.value ++ "\n"

/-- The text of a comment behind a node. -/
def Comment.trailingText (c : Comment) : String :=
  match c.kind with
  | .block => " /*" ++ c.value ++ "*/"
  | .line => " //" ++ c.value ++ "\n"

/-- A text between the comments of a node. Inner comments are not printed. -/
def Node.withComments (n : Node) (text : String) : String :=
  String.join (n.leading.map Comment.leadingText) ++ text
    ++ String.join (n.trailing.map Comment.trailingText)

/-- A text between braces and blanks, or `\x7b\x7d` for an empty list. -/
def braced (items : List String) (separator : String) : String :=
  if items = [] then "\x7b\x7d" else "\x7b " ++ separator.intercalate items ++ " \x7d"

/-- Texts joined by commas. -/
def commas (items : List String) : String := ", ".intercalate items

/-- One name, or two names joined by `as` when they differ. -/
def renamed (first second : String) : String :=
  if first = second then first else first ++ " as " ++ second

/-! ## Nodes from their children -/

section Render

variable (print : NodeId → Option String)

/-- The texts of several nodes. -/
def printAll (ids : List NodeId) : Option (List String) := ids.mapM print

/-- The text of an optional node, with something in front of it. -/
def printOptional (lead : String) : Option NodeId → Option String
  | none => some ""
  | some id => do some (lead ++ (← print id))

/-- A function with its name, parameters and body. -/
def renderFunction (id : Option NodeId) (params : List NodeId) (body : NodeId)
    (isAsync isGenerator : Bool) : Option String := do
  let name ← match id with
    | some id => do some (" " ++ (← print id))
    | none => some " "
  let params ← printAll print params
  let body ← print body
  some ((if isAsync then "async " else "") ++ "function" ++ (if isGenerator then "*" else "")
    ++ name ++ "(" ++ commas params ++ ") " ++ body)

/-- Two operands around an operator. -/
def renderOperator (left : NodeId) (operator : String) (right : NodeId) : Option String := do
  some ((← print left) ++ " " ++ operator ++ " " ++ (← print right))

/-- A keyword with an optional argument. -/
def renderJump (keyword : String) (argument : Option NodeId) : Option String := do
  some (keyword ++ (← printOptional print " " argument) ++ ";")

/-- An import: the specifiers that are no named imports first, then the named ones in braces. -/
def renderImport (t : Tree) (specifiers : List NodeId) (source : NodeId) : Option String := do
  let source ← print source
  if specifiers = [] then some ("import " ++ source ++ ";")
  else
    let texts ← specifiers.mapM fun id => do
      let type ← t.type? id
      some (type == .importSpecifier, ← print id)
    let plain := (texts.filter fun e => !e.1).map Prod.snd
    let named := (texts.filter fun e => e.1).map Prod.snd
    let parts := if named = [] then plain else plain ++ [braced named ", "]
    some ("import " ++ commas parts ++ " from " ++ source ++ ";")

/-- An export: its declaration, or its specifiers. -/
def renderExport (declaration : Option NodeId) (specifiers : List NodeId)
    (source : Option NodeId) : Option String := do
  match declaration with
  | some declaration => some ("export " ++ (← print declaration))
  | none =>
    let specifiers ← printAll print specifiers
    let source ← printOptional print " from " source
    some ("export \x7b " ++ commas specifiers ++ " \x7d" ++ source ++ ";")

/-- A property of an object or an object pattern. -/
def renderProperty (key value : NodeId) (computed shorthand : Bool) : Option String := do
  if shorthand then print value
  else
    let key ← print key
    let value ← print value
    some ((if computed then "[" ++ key ++ "]" else key) ++ ": " ++ value)

/-- The text of a node from the texts of its children, without its parentheses and comments. A
variable declaration in the head of a loop has no semicolon. -/
def renderKind (t : Tree) (inForHead : Bool) : NodeKind → Option String
  | .program body directives => do
    let body ← printAll print body
    some ("\n".intercalate (directives.map (fun d => literalText d ++ ";") ++ body))
  | .expressionStatement expression => do some ((← print expression) ++ ";")
  | .blockStatement body => do some (braced (← printAll print body) " ")
  | .emptyStatement => some ";"
  | .debuggerStatement => some "debugger;"
  | .returnStatement argument => renderJump print "return" argument
  | .ifStatement test consequent alternate => do
    some ("if (" ++ (← print test) ++ ") " ++ (← print consequent)
      ++ (← printOptional print " else " alternate))
  | .forStatement init test update body => do
    some ("for (" ++ (← printOptional print "" init) ++ ";" ++ (← printOptional print " " test)
      ++ ";" ++ (← printOptional print " " update) ++ ") " ++ (← print body))
  | .forInStatement left right body => do
    some ("for (" ++ (← print left) ++ " in " ++ (← print right) ++ ") " ++ (← print body))
  | .forOfStatement left right body => do
    some ("for (" ++ (← print left) ++ " of " ++ (← print right) ++ ") " ++ (← print body))
  | .whileStatement test body => do
    some ("while (" ++ (← print test) ++ ") " ++ (← print body))
  | .doWhileStatement body test => do
    some ("do " ++ (← print body) ++ " while (" ++ (← print test) ++ ");")
  | .breakStatement label => renderJump print "break" label
  | .continueStatement label => renderJump print "continue" label
  | .throwStatement argument => renderJump print "throw" (some argument)
  | .tryStatement block handler finalizer => do
    some ("try " ++ (← print block) ++ (← printOptional print " " handler)
      ++ (← printOptional print " finally " finalizer))
  | .catchClause param body => do
    let head ← match param with
      | some param => do some ("catch (" ++ (← print param) ++ ") ")
      | none => some "catch "
    some (head ++ (← print body))
  | .labeledStatement label body => do some ((← print label) ++ ": " ++ (← print body))
  | .variableDeclaration kind declarations => do
    let declarations ← printAll print declarations
    some (kind.keyword ++ " " ++ commas declarations ++ (if inForHead then "" else ";"))
  | .variableDeclarator id init => do some ((← print id) ++ (← printOptional print " = " init))
  | .functionDeclaration id params body isAsync isGenerator _
  | .functionExpression id params body isAsync isGenerator _ =>
    renderFunction print id params body isAsync isGenerator
  | .arrowFunctionExpression params body isAsync _ => do
    let params ← printAll print params
    some ((if isAsync then "async " else "") ++ "(" ++ commas params ++ ") => " ++ (← print body))
  | .identifier name declared =>
    some (match declared with
      | some type => name ++ ": " ++ type.text
      | none => name)
  | .stringLiteral value => some (literalText value)
  | .numericLiteral value => some value.programText
  | .booleanLiteral value => some (if value then "true" else "false")
  | .nullLiteral => some "null"
  | .thisExpression => some "this"
  | .memberExpression object property computed => do
    let object ← print object
    let property ← print property
    some (if computed then object ++ "[" ++ property ++ "]" else object ++ "." ++ property)
  | .callExpression callee arguments => do
    some ((← print callee) ++ "(" ++ commas (← printAll print arguments) ++ ")")
  | .newExpression callee arguments => do
    some ("new " ++ (← print callee) ++ "(" ++ commas (← printAll print arguments) ++ ")")
  | .binaryExpression operator left right => renderOperator print left operator.symbol right
  | .logicalExpression operator left right => renderOperator print left operator.symbol right
  | .unaryExpression operator argument => do
    some (operator.symbol ++ (if operator.isKeyword then " " else "") ++ (← print argument))
  | .updateExpression operator argument before => do
    let argument ← print argument
    some (if before then operator.symbol ++ argument else argument ++ operator.symbol)
  | .assignmentExpression operator left right => renderOperator print left operator.symbol right
  | .conditionalExpression test consequent alternate => do
    some ((← print test) ++ " ? " ++ (← print consequent) ++ " : " ++ (← print alternate))
  | .sequenceExpression expressions => do some (commas (← printAll print expressions))
  | .objectExpression properties | .objectPattern properties => do
    some (braced (← printAll print properties) ", ")
  | .objectProperty key value computed shorthand =>
    renderProperty print key value computed shorthand
  | .arrayExpression elements | .arrayPattern elements => do
    some ("[" ++ commas (← printAll print elements) ++ "]")
  | .typeCastExpression expression declared => do
    some ("(" ++ (← print expression) ++ ": " ++ declared.text ++ ")")
  | .assignmentPattern left right => renderOperator print left "=" right
  | .restElement argument => do some ("..." ++ (← print argument))
  | .importDeclaration specifiers source => renderImport print t specifiers source
  | .importSpecifier localName imported => do
    let localText ← print localName
    let imported ← print imported
    some (renamed imported localText)
  | .importDefaultSpecifier localName => print localName
  | .importNamespaceSpecifier localName => do some ("* as " ++ (← print localName))
  | .exportNamedDeclaration declaration specifiers source =>
    renderExport print declaration specifiers source
  | .exportSpecifier localName exported => do
    let localText ← print localName
    let exported ← print exported
    some (renamed localText exported)
  | .exportDefaultDeclaration declaration => do
    let text ← print declaration
    let type ← t.type? declaration
    some ("export default " ++ text ++ (if type.isStatement then "" else ";"))

end Render

/-! ## Trees -/

namespace Tree

/-- Does `node` stand in the head of the loop that encloses it directly? -/
def inForHead? (t : Tree) (node : NodeId) (above : List NodeId) : Option Bool :=
  match above with
  | [] => some false
  | parent :: _ => do
    some <| match ← t.kind? parent with
      | .forStatement init _ _ _ => init == some node
      | .forInStatement left _ _ | .forOfStatement left _ _ => left == node
      | _ => false

/-- The text of a node below the nodes `above`, at most `fuel` levels deep. -/
def printWithin (t : Tree) : Nat → List NodeId → NodeId → Option String
  | 0, _, _ => none
  | fuel + 1, above, id => do
    let node ← t.node? id
    let parens ← t.needsParens? id above
    let inForHead ← t.inForHead? id above
    let text ← renderKind (t.printWithin fuel (id :: above)) t inForHead node.kind
    some (node.withComments (if parens then "(" ++ text ++ ")" else text))

/-- The text of a subtree on its own. -/
def nodeText? (t : Tree) (id : NodeId) : Option String := t.printWithin t.depthBound [] id

/-- The text of the whole program; empty when there is no root. -/
def programText? (t : Tree) : Option String :=
  match t.root with
  | some root => t.nodeText? root
  | none => some ""

end Tree

end Espalier
