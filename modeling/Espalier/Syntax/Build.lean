import Espalier.Dotted
import Espalier.Syntax.Tree

set_option autoImplicit false

/-! # Building nodes

Nodes that are built from several parts, or with the usual choice of their flags. All other nodes
are built by `TreeM.alloc` from their kind. -/

namespace Espalier.TreeM

/-- An identifier without a declared type. -/
def identifier (name : String) : TreeM NodeId := alloc (.identifier name none)

/-- A string literal. -/
def stringLiteral (value : String) : TreeM NodeId := alloc (.stringLiteral value)

/-- A block. -/
def block (body : List NodeId) : TreeM NodeId := alloc (.blockStatement body)

/-- `id = value`. -/
def assign (id value : NodeId) : TreeM NodeId := alloc (.assignmentExpression .assign id value)

/-- `void 0`, the usual way to write the undefined value. -/
def undefined : TreeM NodeId := do
  let zero ← alloc (.numericLiteral .zero)
  alloc (.unaryExpression .void zero)

/-- A declaration of one name. -/
def declare (kind : VariableKind) (name : String) (init : Option NodeId) : TreeM NodeId := do
  let id ← identifier name
  let declarator ← alloc (.variableDeclarator id init)
  alloc (.variableDeclaration kind [declarator])

/-- A function declaration that is neither async nor a generator. -/
def functionDeclaration (id : Option NodeId) (params : List NodeId) (body : NodeId) :
    TreeM NodeId :=
  alloc (.functionDeclaration id params body false false none)

/-- A function expression that is neither async nor a generator. -/
def functionExpression (id : Option NodeId) (params : List NodeId) (body : NodeId) :
    TreeM NodeId :=
  alloc (.functionExpression id params body false false none)

/-- An arrow function that is not async. -/
def arrowFunction (params : List NodeId) (body : NodeId) : TreeM NodeId :=
  alloc (.arrowFunctionExpression params body false none)

/-- Access the given properties one after the other. -/
def memberOf (object : NodeId) : List String → TreeM NodeId
  | [] => pure object
  | name :: rest => do
    let property ← identifier name
    let object ← alloc (.memberExpression object property false)
    memberOf object rest

/-- A chain of property accesses from a dotted text such as `React.createClass`. The first part is
an identifier or `this`. -/
def memberChain (dotted : String) : TreeM NodeId := do
  match Dotted.parts dotted with
  | [] => identifier ""
  | first :: rest =>
    let object ← if first = "this" then alloc .thisExpression else identifier first
    memberOf object rest

/-- A call of a function by name. -/
def call (name : String) (arguments : List NodeId) : TreeM NodeId := do
  let callee ← identifier name
  alloc (.callExpression callee arguments)

/-- An import from the module of the given name. -/
def importDeclaration (specifiers : List NodeId) (source : String) : TreeM NodeId := do
  let source ← stringLiteral source
  alloc (.importDeclaration specifiers source)

/-- The import of one name under another. -/
def importSpecifier (localName imported : String) : TreeM NodeId := do
  let localId ← identifier localName
  let imported ← identifier imported
  alloc (.importSpecifier localId imported)

/-- The import of a default export. -/
def importDefaultSpecifier (localName : String) : TreeM NodeId := do
  let localId ← identifier localName
  alloc (.importDefaultSpecifier localId)

/-- The import of a whole module. -/
def importNamespaceSpecifier (localName : String) : TreeM NodeId := do
  let localId ← identifier localName
  alloc (.importNamespaceSpecifier localId)

end Espalier.TreeM
