import Espalier.Path.Navigate

set_option autoImplicit false

/-! # Keeping paths in step with the tree

When the tree changes around a path, `resync` finds its node again: first the container follows the
node of the parent path, then the key follows the node. A node that is found no more leaves its
path removed. Insertions and removals in a list move the keys of the paths behind them. -/

namespace Espalier

open SessionM

namespace PathId

/-- Let the path live in another container. -/
def moveToContainer (p : PathId) (c : Container) : SessionM Unit := do
  unfile (← p.container) p
  fileUnder c p
  p.modifyData fun d => { d with container := c }

/-- Let the path live at another position, without touching the tree. -/
def moveTo (p : PathId) (parent : Option PathId) (c : Container) (k : Key) : SessionM Unit := do
  p.moveToContainer c
  p.modifyData fun d => { d with parent, key := k }

/-- Mark the path as removed: it holds no node, is not found again and is not descended into. -/
def markRemoved (p : PathId) : SessionM Unit := do
  unfile (← p.container) p
  p.modifyData fun d => { d with removed := true, skip := true, node := none }

/-- The container of the path once its parent path holds `parent`, if that is another one. -/
def rehomed? (c : Container) (parent : NodeId) : Option Container :=
  match c with
  | .slot old => if old = parent then none else some (.slot parent)
  | .list old f => if old = parent then none else some (.list parent f)
  | .root | .detached => none

/-- Let the container follow the node of the parent path. -/
def resyncParent (p : PathId) : SessionM Unit := do
  let d ← p.data
  match d.parent with
  | none => pure ()
  | some parent =>
    match ← parent.node? with
    | none => pure ()
    | some node =>
      match rehomed? d.container node with
      | none => pure ()
      | some c => p.moveToContainer c

/-- The key under which a container holds a node: the first single-node field, or the first place
in the list. -/
def keyOf? (c : Container) (node : NodeId) : SessionM (Option Key) :=
  match c with
  | .slot parent => do
    let kind ← ask fun t => t.kind? parent
    pure ((kind.fields.find? fun e => e.2.node? == some node).map fun e => .field e.1)
  | .list parent f => do
    let kind ← ask fun t => t.kind? parent
    pure ((((kind.child? f).bind Child.list?).getD []).idxOf? node |>.map .index)
  | .root | .detached => pure none

/-- Let the key follow the node. -/
def resyncKey (p : PathId) : SessionM Unit := do
  let d ← p.data
  match d.node with
  | none => pure ()
  | some node =>
    if (← nodeAt d.container d.key) = some node then pure ()
    else if d.container = .detached then pure ()
    else
      match ← keyOf? d.container node with
      | some k => p.modifyData fun d => { d with key := k }
      | none => p.markRemoved

/-- Find the node of the path again after the tree changed. -/
def resync (p : PathId) : SessionM Unit := do
  if ← p.isRemoved then pure ()
  else
    p.resyncParent
    p.resyncKey

end PathId

/-- Move the keys of the paths of a list from index `start` on by `delta`. -/
def shiftKeys (c : Container) (start : Nat) (delta : Int) : SessionM Unit := do
  ((← get).bucket c).forM fun p => p.modifyData fun d =>
    match d.key with
    | .index i => if start ≤ i then { d with key := .index (Key.shiftIndex delta i) } else d
    | _ => d

end Espalier
