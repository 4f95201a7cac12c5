import Espalier.Path.Facts

set_option autoImplicit false

/-! # Scopes and bindings

Looking names up and registering them. A scope is always younger than the scope around it, so the
chain of scopes outward from a scope is at most as long as the table. -/

namespace Espalier

open SessionM

/-- Does the node at a path open a scope? The bodies of functions and catch clauses share the scope
of their owner. -/
def PathId.isScopeBlock (p : PathId) : SessionM Bool := do
  match ← p.type? with
  | none => pure false
  | some .blockStatement =>
    pure !((← p.parentType?).any fun type => type.isFunction || type == .catchClause)
  | some type => pure type.isScopable

namespace ScopeId

/-- The content of a scope. -/
def data (s : ScopeId) : SessionM Scope := do
  found (← get).scopes.scopes[s.index]?

/-- Change the content of a scope. -/
def modifyData (s : ScopeId) (f : Scope → Scope) : SessionM Unit := do
  let _ ← s.data
  modify fun session =>
    { session with
      scopes := { session.scopes with scopes := session.scopes.scopes.modify s.index f } }

/-- The scope and those around it, innermost first, at most `fuel` of them. -/
def chainWithin : Nat → ScopeId → SessionM (List ScopeId)
  | 0, _ => throw .exhausted
  | fuel + 1, s => do
    match (← s.data).parent with
    | none => pure [s]
    | some parent => do pure (s :: (← chainWithin fuel parent))

/-- The scope and those around it, innermost first. -/
def chain (s : ScopeId) : SessionM (List ScopeId) := do
  chainWithin ((← get).scopes.scopes.size + 1) s

/-- The outermost scope. -/
def programScope (s : ScopeId) : SessionM ScopeId := do
  pure ((← s.chain).getLastD s)

/-- The first scope of a chain that owns `var` declarations, or else the last one. -/
def firstFunctionScope (s : ScopeId) : List ScopeId → SessionM ScopeId
  | [] => pure s
  | t :: rest => do
    if (← t.data).isFunctionScope then pure t else firstFunctionScope t rest

/-- The nearest scope that owns `var` declarations. -/
def functionScope (s : ScopeId) : SessionM ScopeId := do
  firstFunctionScope s (← s.chain)

/-- The binding of a name in this very scope. -/
def ownBinding? (s : ScopeId) (name : String) : SessionM (Option Binding) := do
  pure ((← s.data).bindings.get? name)

/-- The first scope of a chain that declares a name. -/
def firstDeclaring (name : String) : List ScopeId → SessionM (Option ScopeId)
  | [] => pure none
  | s :: rest => do
    if (← s.data).bindings.contains name then pure (some s) else firstDeclaring name rest

/-- The scope that declares a name, searching outward. -/
def bindingScope? (s : ScopeId) (name : String) : SessionM (Option ScopeId) := do
  firstDeclaring name (← s.chain)

/-- The binding a name refers to in this scope. -/
def binding? (s : ScopeId) (name : String) : SessionM (Option Binding) := do
  match ← s.bindingScope? name with
  | some owner => owner.ownBinding? name
  | none => pure none

/-- Change the binding a name refers to in this scope, and tell whether there is one. -/
def modifyBinding (s : ScopeId) (name : String) (f : Binding → Binding) : SessionM Bool := do
  match ← s.bindingScope? name with
  | some owner =>
    owner.modifyData fun d => { d with bindings := d.bindings.modify name f }
    pure true
  | none => pure false

/-- Is the name declared in this scope or around it? -/
def hasBinding (s : ScopeId) (name : String) : SessionM Bool := do
  pure (← s.bindingScope? name).isSome

/-- Is the name read somewhere in the program without being declared? -/
def hasGlobal (s : ScopeId) (name : String) : SessionM Bool := do
  pure (decide (name ∈ (← (← s.programScope).data).globals))

/-- Is the name read or declared somewhere in the program? -/
def hasReference (s : ScopeId) (name : String) : SessionM Bool := do
  pure (decide (name ∈ (← (← s.programScope).data).references))

/-- Add a name to a list of names, once. -/
def addName (names : List String) (name : String) : List String :=
  if name ∈ names then names else names ++ [name]

/-- Note in the program scope that a name occurs. -/
def noteReference (s : ScopeId) (name : String) : SessionM Unit := do
  (← s.programScope).modifyData fun d => { d with references := addName d.references name }

/-- Note in the program scope that a name is read without being declared. -/
def noteGlobal (s : ScopeId) (name : String) : SessionM Unit := do
  (← s.programScope).modifyData fun d => { d with globals := addName d.globals name }

/-- Declare a name in this scope. A name that was already declared by another identifier is
declared anew: the earlier declaration counts as an assignment, and reads stay with the name. -/
def registerBinding (s : ScopeId) (name : String) (kind : BindingKind) (path : PathId)
    (identifier : NodeId) : SessionM Unit := do
  s.noteReference name
  let fresh : Binding := { name, identifier, scope := s, path, kind }
  let store (b : Binding) : SessionM Unit :=
    s.modifyData fun d => { d with bindings := d.bindings.insert name b }
  match ← s.ownBinding? name with
  | none => store fresh
  | some old =>
    if old.identifier = identifier then pure ()
    else
      store { fresh with violations := old.path :: old.violations, references := old.references }

/-- Forget a name in the scope that declares it. -/
def removeBinding (s : ScopeId) (name : String) : SessionM Unit := do
  match ← s.bindingScope? name with
  | some owner => owner.modifyData fun d => { d with bindings := d.bindings.erase name }
  | none => pure ()

end ScopeId

/-- All scopes, oldest first. -/
def scopeIds : SessionM (List ScopeId) := do
  pure ((List.range (← get).scopes.scopes.size).map ScopeId.mk)

/-- Have the scopes been built? -/
def scopesCrawled : SessionM Bool := do pure (← get).scopes.crawled

/-- Add a scope for the node at `block`. The first scope without a parent is the program scope. -/
def createScope (block : PathId) (parent : Option ScopeId) : SessionM ScopeId := do
  let type ← block.type?
  let node ← block.node?
  let s ← get
  let id : ScopeId := ⟨s.scopes.scopes.size⟩
  let fresh : Scope := { block, blockType := type.getD .program, parent }
  set { s with scopes :=
    { s.scopes with
      scopes := s.scopes.scopes.push fresh
      byBlock := match node with
        | some node => s.scopes.byBlock.insert node id
        | none => s.scopes.byBlock
      root := if parent.isNone && s.scopes.root.isNone then some id else s.scopes.root } }
  pure id

end Espalier
