import Espalier.Edit.Insert
import Espalier.Scope.Uid

set_option autoImplicit false

/-! # Declaring names

A name is declared by `var` at the top of the nearest function or program body. All names that are
declared in one body share one declaration, which is found again by its node. -/

namespace Espalier

open SessionM

/-- Give an arrow function with an expression as its body a block. The expression keeps its path,
which now stands below a `return`. -/
def ensureBlock (function : PathId) : SessionM Unit := do
  let body ← function.child .body
  match ← body.node? with
  | none => refuse .emptyPath
  | some expression =>
    if (← ask fun t => t.type? expression) = .blockStatement then pure ()
    else
      let ret ← onTree (TreeM.alloc (.returnStatement (some expression)))
      let block ← onTree (TreeM.block [ret])
      -- The body path leaves its slot first, so that the block gets a path of its own.
      body.moveTo none (.slot ret) (.field .argument)
      let blockPath ← function.child .body
      blockPath.setNode block
      let retPath ← blockPath.element .body 0
      body.moveTo (some retPath) (.slot ret) (.field .argument)

/-- The path of the block or program whose `body` holds the declarations of a scope. -/
def declarationHost (block : PathId) : SessionM PathId := do
  if ← block.is .program then pure block
  else
    ensureBlock block
    block.child .body

/-- The path of the shared declaration of a body, made on first use. -/
def sharedDeclaration (host : PathId) (body : NodeId) : SessionM PathId := do
  let kind ← ask fun t => t.kind? body
  let place := ((← get).scopes.generated.get? body).bind fun declaration =>
    (((kind.child? .body).bind Child.list?).getD []).idxOf? declaration
  match place with
  | some i => host.element .body i
  | none =>
    let declaration ← onTree (TreeM.alloc (.variableDeclaration .var []))
    let inserted ← host.unshiftInto .body [declaration]
    modify fun s =>
      { s with
        scopes := { s.scopes with generated := s.scopes.generated.insert body declaration } }
    found inserted.head?

namespace ScopeId

/-- Declare `var name = init` in the nearest function or program body and give the path of the
declarator. -/
def pushDeclaration (s : ScopeId) (name : String) (init : Option NodeId) : SessionM PathId := do
  let target ← s.functionScope
  let host ← declarationHost (← target.data).block
  match ← host.node? with
  | none => refuse .emptyPath
  | some body =>
    let declaration ← sharedDeclaration host body
    let id ← onTree (TreeM.identifier name)
    let declarator ← onTree (TreeM.alloc (.variableDeclarator id init))
    let inserted ← declaration.pushInto .declarations [declarator]
    let path ← found inserted.head?
    target.registerBinding name .var path id
    pure path

/-- A new name like `text`, declared by `var`. -/
def generateDeclaredUid (s : ScopeId) (text : String) : SessionM String := do
  let uid ← s.generateUid text
  let _ ← s.pushDeclaration uid none
  pure uid

end ScopeId

end Espalier
