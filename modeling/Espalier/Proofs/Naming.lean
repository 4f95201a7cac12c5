import Espalier.Proofs.Charting

set_option autoImplicit false

/-! # How edits deal with names

An edit never writes to the scopes on its own. It asks for the scope of a path, registers bindings,
forgets those of a subtree and makes up names; beside that it only notes which declaration is shared
(`Naming`). So what these few computations do to the table of scopes, every edit does. -/

namespace Espalier

open SessionM

variable {α : Type}

/-- What edits do with names. -/
inductive NameStep : (α : Type) → SessionM α → Prop
  | hop {α : Type} {x : SessionM α} : Hop α x → NameStep α x
  | scope (p : PathId) : NameStep ScopeId p.scope
  | register (i : ScopeId) (name : String) (kind : BindingKind) (path : PathId)
      (identifier : NodeId) : NameStep Unit (i.registerBinding name kind path identifier)
  | unregister (node : NodeId) : NameStep Unit (unregister node)
  | generateUid (i : ScopeId) (text : String) : NameStep String (i.generateUid text)
  /-- The declaration that a body shares is noted. -/
  | share (body declaration : NodeId) :
      NameStep PUnit (modify fun s => { s with
        scopes := { s.scopes with generated := s.scopes.generated.insert body declaration } })

/-- The computation navigates and deals with names as edits do. -/
abbrev Naming (x : SessionM α) : Prop := Composed NameStep x

theorem Navigating.naming {x : SessionM α} (hx : Navigating x) : Naming x :=
  hx.lift fun _ _ hop => .primitive (.hop hop)

namespace Naming

theorem scope (p : PathId) : Naming p.scope := .primitive (.scope p)

theorem registerBinding (i : ScopeId) (name : String) (kind : BindingKind) (path : PathId)
    (identifier : NodeId) : Naming (i.registerBinding name kind path identifier) :=
  .primitive (.register i name kind path identifier)

theorem unregister (node : NodeId) : Naming (unregister node) := .primitive (.unregister node)

theorem generateUid (i : ScopeId) (text : String) : Naming (i.generateUid text) :=
  .primitive (.generateUid i text)

theorem registerDeclaration (p : PathId) : Naming p.registerDeclaration :=
  Composed.registerDeclaration Navigating.naming registerBinding scope p

/-- To deal with names is to write to the table of scopes. -/
theorem charting {x : SessionM α} (hx : Naming x) : Charting x := by
  refine hx.lift fun _ _ step => ?_
  cases step with
  | hop hop => exact .primitive (.hop hop)
  | scope p => exact Charting.scope p
  | register i name kind path identifier => exact Charting.registerBinding i name kind path identifier
  | unregister node => exact Charting.unregister node
  | generateUid i text => exact Charting.generateUid i text
  | share body declaration => exact .primitive (.write _)

end Naming

end Espalier
