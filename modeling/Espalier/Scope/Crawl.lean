import Espalier.Scope.Basic

set_option autoImplicit false

/-! # Building scopes

A crawl walks everything below a scope block. Names are registered on the way; reads and writes are
collected and resolved when the walk is done, so that a declaration is seen by uses that come
before it. -/

namespace Espalier

open SessionM

/-- The reads and writes met on a walk, each with the scope it was met in. -/
structure Uses where
  reads : List (ScopeId × PathId) := []
  writes : List (ScopeId × PathId × List String) := []

namespace Uses

/-- The uses of two walks, one after the other. -/
def append (a b : Uses) : Uses := ⟨a.reads ++ b.reads, a.writes ++ b.writes⟩

instance : Append Uses := ⟨append⟩

/-- The uses of several walks. -/
def concat (us : List Uses) : Uses := us.foldl append {}

end Uses

/-- Declare every identifier of the pattern at `pattern`. -/
def registerPattern (pattern : PathId) (kind : BindingKind) (scope : ScopeId)
    (declaration : PathId) : SessionM Unit := do
  let found ← pattern.bindingIdentifierPaths true false
  found.entries.forM fun (name, sites) => sites.forM fun site => do
    match ← site.node? with
    | some id => scope.registerBinding name kind declaration id
    | none => pure ()

/-- Declare the names of a variable declaration; each declarator is the site of its names. -/
def registerDeclarators (p : PathId) (kind : VariableKind) (scope : ScopeId)
    (andThen : PathId → SessionM Uses) : SessionM Uses := do
  let target ← if kind = .var then scope.functionScope else pure scope
  let uses ← (← p.elements .declarations).mapM fun declarator => do
    registerPattern (← declarator.child .id) (.ofVariableKind kind) target declarator
    andThen declarator
  pure (.concat uses)

/-- Declare the names of an import; each specifier is the site of its name. -/
def registerImports (p : PathId) (scope : ScopeId) : SessionM Unit := do
  (← p.elements .specifiers).forM fun specifier => do
    registerPattern (← specifier.child .localName) .module scope specifier

/-- Declare the name of the function at `function`, if it has one. -/
def registerFunctionName (function : PathId) (kind : BindingKind) (scope : ScopeId) :
    SessionM Unit := do
  let id ← function.child .id
  match ← id.node?, ← id.identifierName? with
  | some node, some name => scope.registerBinding name kind function node
  | _, _ => pure ()

/-! ## The walk -/

section Walk

variable (walk : PathId → ScopeId → SessionM Uses)

/-- Walk the children of a path. -/
def walkChildren (p : PathId) (scope : ScopeId) : SessionM Uses := do
  match ← p.type? with
  | none => pure {}
  | some type =>
    let uses ← type.visitorFields.mapM fun f => do
      pure (Uses.concat (← (← p.inField f).mapM fun child => walk child scope))
    pure (.concat uses)

/-- Walk the inside of a scope block. Parameters, and the names of function expressions, belong to
the scope of the function; so do the statements of its body. -/
def walkBlock (block : PathId) (scope : ScopeId) : SessionM Uses := do
  match ← block.type? with
  | none => pure {}
  | some .catchClause =>
    let param ← block.child .param
    let head ← match ← param.node? with
      | some _ => do
        registerPattern param .letVar scope param
        walk param scope
      | none => pure {}
    pure (head ++ (← walkChildren walk (← block.child .body) scope))
  | some type =>
    if type.isFunction then
      if type = .functionExpression then registerFunctionName block .inner scope
      let heads ← (← block.elements .params).mapM fun param => do
        registerPattern param .param scope param
        walk param scope
      let body ← block.child .body
      let inner ← if ← body.is .blockStatement then walkChildren walk body scope
        else walk body scope
      pure (Uses.concat heads ++ inner)
    else walkChildren walk block scope

end Walk

/-- Walk a subtree, at most `fuel` levels deep. -/
def walkWithin : Nat → PathId → ScopeId → SessionM Uses
  | 0, _, _ => throw .exhausted
  | fuel + 1, p, scope => do
    match ← p.kind? with
    | none => pure {}
    | some kind =>
      if ← p.isScopeBlock then
        if kind.type = .functionDeclaration then
          registerFunctionName p .hoisted (← scope.functionScope)
        let inner ← createScope p (some scope)
        walkBlock (walkWithin fuel) p inner
      else
        match kind with
        | .variableDeclaration declared _ =>
          registerDeclarators p declared scope fun declarator =>
            walkChildren (walkWithin fuel) declarator scope
        | .importDeclaration .. =>
          registerImports p scope
          pure {}
        | .assignmentExpression _ left _ =>
          let names ← askBelow [left] fun t => t.bindingIdentifiers? left false false
          let below ← walkChildren (walkWithin fuel) p scope
          pure ({ writes := [(scope, p, names.keys)] } ++ below)
        | .updateExpression _ argument _ =>
          let target ← ask fun t => t.kind? argument
          let below ← walkChildren (walkWithin fuel) p scope
          let writes := target.identifierName?.toList.map fun name => (scope, p, [name])
          pure ({ writes } ++ below)
        | .identifier .. =>
          pure (if ← p.isReferencedIdentifier then { reads := [(scope, p)] } else {})
        | _ => walkChildren (walkWithin fuel) p scope

/-! ## Resolving uses -/

/-- Note the assignments of one write. -/
def resolveWrite : ScopeId × PathId × List String → SessionM Unit
  | (scope, p, names) => names.forM fun name => do
    let _ ← scope.modifyBinding name fun b => b.reassign p

/-- Note a read at its binding, or among the globals. -/
def resolveRead : ScopeId × PathId → SessionM Unit
  | (scope, p) => do
    match ← p.identifierName? with
    | none => pure ()
    | some name =>
      scope.noteReference name
      if ← scope.modifyBinding name fun b => b.reference p then pure ()
      else scope.noteGlobal name

/-- Create a scope for `block` and build everything below it. -/
def crawlScope (block : PathId) (parent : Option ScopeId) : SessionM ScopeId := do
  let scope ← createScope block parent
  let fuel := (← get).tree.depthBound + 1
  let uses ← walkBlock (walkWithin fuel) block scope
  uses.writes.forM resolveWrite
  uses.reads.forM resolveRead
  pure scope

/-- Build the scopes of the whole tree, unless that was done before. -/
def ensureScopes : SessionM Unit := do
  if ← scopesCrawled then pure ()
  else
    modify fun s => { s with scopes := { s.scopes with crawled := true } }
    let root ← rootPath
    if (← root.node?).isSome then
      let _ ← crawlScope root none

/-- Build all scopes anew and give the program scope. -/
def crawl : SessionM (Option ScopeId) := do
  modify fun s => { s with scopes := {} }
  ensureScopes
  pure (← get).scopes.root

/-! ## The scope of a path -/

/-- The scope of what is around everything else. -/
def outermostScope : SessionM ScopeId := do
  match (← get).scopes.root with
  | some root => pure root
  | none => createScope (← rootPath) none

/-- The nearest scope block on the way up from a path, with its node. -/
def PathId.scopeBlock? (p : PathId) : SessionM (Option (PathId × NodeId)) :=
  climb (some p) fun q => do
    match ← q.node? with
    | none => pure none
    | some node => do pure (if ← q.isScopeBlock then some (q, node) else none)

/-- The innermost scope around a path, inside at most `fuel` blocks without a scope. Such a block
is crawled once the scope around it is known. -/
def scopeWithin : Nat → PathId → SessionM ScopeId
  | 0, _ => throw .exhausted
  | fuel + 1, p => do
    match ← p.scopeBlock? with
    | none => outermostScope
    | some (block, node) =>
      match (← get).scopes.byBlock.get? node with
      | some scope => pure scope
      | none =>
        let parent ← match ← block.parent? with
          | none => pure none
          | some q => do pure (some (← scopeWithin fuel q))
        crawlScope block parent

/-- The innermost scope around a path; a scope block is its own scope. -/
def PathId.scope (p : PathId) : SessionM ScopeId := do
  ensureScopes
  scopeWithin ((← get).paths.size + 1) p

/-- The binding that the identifier at a path refers to. -/
def PathId.binding? (p : PathId) : SessionM (Option Binding) := do
  match ← p.identifierName? with
  | none => pure none
  | some name => do (← p.scope).binding? name

/-- Declare the names of a declaration that came into the tree after the crawl. -/
def PathId.registerDeclaration (p : PathId) : SessionM Unit := do
  match ← p.node? with
  | none => refuse .emptyPath
  | some node =>
    let scope ← p.scope
    match ← ask fun t => t.kind? node with
    | .variableDeclaration kind _ =>
      let _ ← registerDeclarators p kind scope fun _ => pure {}
    | .functionDeclaration (some id) _ _ _ _ _ =>
      -- The innermost scope is that of the function; its name belongs to the one around it.
      let outer ← match (← scope.data).parent with
        | some parent => parent.functionScope
        | none => pure scope
      match (← ask fun t => t.kind? id).identifierName? with
      | some name => outer.registerBinding name .hoisted p id
      | none => pure ()
    | .importDeclaration .. => registerImports p scope
    | _ => pure ()

/-- Open a session on a tree. -/
def Session.open? (tree : Tree) (config : Config) : Except Failure Session :=
  let fresh : Session := { tree, config }
  if config.lazyScopes then .ok fresh
  else match ensureScopes.run fresh with
    | .ok _ s => .ok s
    | .error e _ => .error e

end Espalier
