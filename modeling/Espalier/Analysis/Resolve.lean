import Espalier.Scope.Crawl

set_option autoImplicit false

/-! # What an expression stands for

A path is resolved by following declarators, constant bindings and type casts, and on request also
accesses into literal objects and arrays. No path is followed twice, so that the search ends on
variables that are defined by each other. -/

namespace Espalier

open SessionM

/-- How many positions there are in a tree: fields and list elements of all nodes. -/
def Tree.positionCount (t : Tree) : Nat :=
  t.nodes.foldl (fun n node =>
    node.kind.fields.foldl (fun n e => n + 1 + e.2.ids.length) n) 1

/-- How many paths a search can meet: those that exist and one for each position. -/
def Session.pathBound (s : Session) : Nat := s.paths.size + s.tree.positionCount + 2

/-- A search that remembers the paths it followed. -/
abbrev ResolveM := StateT (List PathId) SessionM

namespace PathId

/-! ## One step

`inner` resolves a further path; `none` stands for the path itself. -/

section Step

variable (inner : PathId → ResolveM (Option PathId))

/-- What `p` stands for, or `p` itself. -/
def resolveOrSelf (p : PathId) : ResolveM PathId := do
  pure ((← inner p).getD p)

/-- What a variable declarator stands for: its initial value, if it declares one name. -/
def resolveDeclarator (p : PathId) : ResolveM (Option PathId) := do
  let id ← p.child .id
  if ← id.is .identifier then
    let init ← p.child .init
    pure (some (← resolveOrSelf inner init))
  else pure none

/-- What a variable that is read stands for: what its declaration stands for, if it is never
assigned again and is not an import. A value that encloses the read is no answer. -/
def resolveIdentifier (p : PathId) : ResolveM (Option PathId) := do
  match ← p.binding? with
  | none => pure none
  | some binding =>
    if !binding.isConstant || binding.kind == .module || binding.path == p then pure none
    else
      let target ← resolveOrSelf inner binding.path
      let node ← target.node?
      let enclosing ← p.find? fun q => do pure ((← q.node?) == node)
      pure (if enclosing.isSome then none else some target)

/-- The last property of an object with the given key. -/
def lastProperty? (key : String) : List PathId → SessionM (Option PathId)
  | [] => pure none
  | property :: rest => do
    match ← lastProperty? key rest with
    | some found => pure (some found)
    | none =>
      match ← property.kind? with
      | some (.objectProperty id _ computed _) =>
        let name ← ask fun t => t.staticKey? id computed
        pure (if name = some key then some property else none)
      | _ => pure none

/-- What an access into `target` under a known key stands for. -/
def resolveAccess (target : PathId) (key : String) : ResolveM (Option PathId) := do
  match ← target.type? with
  | some .objectExpression =>
    match ← lastProperty? key (← target.elements .properties) with
    | some property => do
      let value ← property.child .value
      pure (some (← resolveOrSelf inner value))
    | none => pure none
  | some .arrayExpression =>
    match Dotted.index? key with
    | none => pure none
    | some i =>
      let element ← target.element .elements i
      match ← element.node? with
      | some _ => do pure (some (← resolveOrSelf inner element))
      | none => pure none
  | _ => pure none

/-- What an access stands for, when its key is known. -/
def resolveMember (p : PathId) (property : NodeId) (computed : Bool) :
    ResolveM (Option PathId) := do
  let type ← ask fun t => t.type? property
  if computed && !type.isLiteral then pure none
  else
    match ← ask fun t => t.staticKey? property computed with
    | none => pure none
    | some key =>
      let object ← p.child .object
      resolveAccess inner (← resolveOrSelf inner object) key

end Step

/-! ## The search -/

/-- Resolve a path, following at most `fuel` paths in a row. -/
def resolveWithin (dangerous : Bool) : Nat → PathId → ResolveM (Option PathId)
  | 0, _ => throw .exhausted
  | fuel + 1, p => do
    if p ∈ (← get) then pure none
    else
      modify fun seen => p :: seen
      match ← p.kind? with
      | some (.variableDeclarator ..) => resolveDeclarator (resolveWithin dangerous fuel) p
      | some (.identifier ..) =>
        if ← p.isReferencedIdentifier then resolveIdentifier (resolveWithin dangerous fuel) p
        else pure none
      | some (.typeCastExpression ..) => do
        let inner ← p.child .expression
        pure (some (← resolveOrSelf (resolveWithin dangerous fuel) inner))
      | some (.memberExpression _ property computed) =>
        if dangerous then resolveMember (resolveWithin dangerous fuel) p property computed
        else pure none
      | _ => pure none

/-- The path of the expression that a path stands for, or the path itself. -/
def resolve (p : PathId) (dangerous : Bool) : SessionM PathId := do
  let fuel := (← get).pathBound
  let (found, _) ← (resolveWithin dangerous fuel p).run []
  pure (found.getD p)

/-! ## Imports -/

/-- Does a specifier import the given name? The default import is called `default` and the import
of a whole module is called `*`. -/
def importsName (specifier : PathId) (name : String) : SessionM Bool := do
  match ← specifier.kind? with
  | some (.importDefaultSpecifier _) => pure (name == "default")
  | some (.importNamespaceSpecifier _) => pure (name == "*")
  | some (.importSpecifier _ imported) => do
    pure ((← ask fun t => t.kind? imported).identifierName? == some name)
  | _ => pure false

/-- Is the identifier at this path bound by an import from `source`, and there by `name`? -/
def referencesImport (p : PathId) (source : String) (name : Option String) : SessionM Bool := do
  if !(← p.isReferencedIdentifier) then pure false
  else
    match ← p.binding? with
    | none => pure false
    | some binding =>
      if binding.kind ≠ .module then pure false
      else
        match ← binding.path.parent? with
        | none => pure false
        | some declaration =>
          match ← declaration.kind? with
          | some (.importDeclaration _ sourceNode) =>
            if (← ask fun t => t.kind? sourceNode) = .stringLiteral source then
              match name with
              | some name => binding.path.importsName name
              | none => pure true
            else pure false
          | _ => pure false

end PathId

end Espalier
