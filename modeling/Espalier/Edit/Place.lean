import Espalier.Path.Resync
import Espalier.Scope.Crawl

set_option autoImplicit false

/-! # Writing to positions

The elementary edits: put a node at a position, splice nodes into a list, take a node out, and
forget what the scopes know about a subtree. Everything else is made of these. -/

namespace Espalier

open SessionM

/-- Change the kind of a node that is in the tree. -/
def modifyKind (id : NodeId) (f : NodeKind → NodeKind) : SessionM Unit :=
  onTree (TreeM.modifyKind id f)

namespace PathId

/-- Put a node at the position of a path, without conversion, requeueing or comments. -/
def setNode (p : PathId) (node : NodeId) : SessionM Unit := do
  let d ← p.data
  match d.container, d.key with
  | .root, _ => modify fun s => { s with tree := { s.tree with root := some node } }
  | .slot parent, .field f =>
    let kind ← ask fun t => t.kind? parent
    match kind.child? f with
    | some (.many _) => refuse (.notASlot kind.type f)
    | some _ => modifyKind parent fun k => k.setNode f node
    | none => refuse (.unknownField kind.type f.name)
  | .list parent f, .index i =>
    let kind ← ask fun t => t.kind? parent
    match kind.child? f with
    | some (.many ids) =>
      if i < ids.length then modifyKind parent fun k => k.setList f (ids.set i node)
      else refuse (.outOfBounds f i ids.length)
    | _ => refuse (.unknownField kind.type f.name)
  | _, _ => refuse .emptyPath
  p.modifyData fun d => { d with node := some node, inferred := none }

/-- Splice nodes into a list field of the node at a path. The paths behind move, and inserted
declarations are registered once the scopes are built. -/
def insertAt (p : PathId) (f : Field) (i : Nat) (nodes : List NodeId) :
    SessionM (List PathId) := do
  match ← p.node? with
  | none => refuse .emptyPath
  | some parent =>
    let kind ← ask fun t => t.kind? parent
    match kind.child? f with
    | some (.many ids) =>
      if ids.length < i then refuse (.outOfBounds f i ids.length)
      else modifyKind parent fun k => k.setList f (ids.take i ++ nodes ++ ids.drop i)
    | some _ => refuse (.notAList "insert")
    | none => refuse (.unknownField kind.type f.name)
    shiftKeys (.list parent f) i nodes.length
    let paths ← (List.range nodes.length).mapM fun j => p.element f (i + j)
    recordMutation
    if ← scopesCrawled then
      paths.forM fun q => do
        if ← q.isAny NodeType.isDeclaration then q.registerDeclaration
    pure paths

/-- Take the node at a path out of its container. The paths behind it move. -/
def detach (p : PathId) : SessionM Unit := do
  let d ← p.data
  match d.container, d.key with
  | .root, _ => refuse .rootRemoval
  | .slot parent, .field f =>
    let kind ← ask fun t => t.kind? parent
    match kind.child? f with
    | some (.opt _) => modifyKind parent fun k => k.clearNode f
    | some (.one _) => refuse (.requiredSlot kind.type f)
    | _ => refuse (.unknownField kind.type f.name)
  | .list parent f, .index i =>
    let kind ← ask fun t => t.kind? parent
    match kind.child? f with
    | some (.many ids) =>
      if i < ids.length then modifyKind parent fun k => k.setList f (ids.eraseIdx i)
      else refuse (.outOfBounds f i ids.length)
    | _ => refuse (.notAList "remove")
    shiftKeys (.list parent f) (i + 1) (-1)
  | _, _ => refuse .emptyPath

/-- How many paths an edit can meet that goes from path to parent and resyncs each of them. On a
way in a circle every path is settled, or found to be removed, after the second round. -/
def climbBound : SessionM Nat := do pure (2 * ((← get).paths.size + 1))

/-! ## Steering a traversal -/

/-- Visit the path once more, as a fresh entry, before its traversal frame moves on. -/
def requeue (p : PathId) : SessionM Unit := do
  let d ← p.data
  match d.removed, d.frame with
  | false, some frame =>
    modify fun s => { s with frames := enqueue frame s.frames }
  | _, _ => pure ()
where
  /-- Append the path to the queue of the innermost frame of that number, once. -/
  enqueue (frame : Nat) : List Frame → List Frame
    | [] => []
    | f :: rest =>
      if f.id = frame then
        (if p ∈ f.queue then f else { f with queue := f.queue ++ [p] }) :: rest
      else f :: enqueue frame rest

/-- Do not descend below the path. -/
def skip (p : PathId) : SessionM Unit := p.modifyData fun d => { d with skip := true }

/-- End the traversal that is visiting the path. -/
def stop (p : PathId) : SessionM Unit := do
  p.modifyData fun d => { d with stop := true, skip := true }
  modify fun s => { s with stopping := true }

end PathId

/-! ## Scopes -/

/-- A scope without the bindings, reads and assignments that lie in a subtree. `lives` tells which
paths hold a node outside it. -/
def Scope.without (below : List NodeId) (lives : PathId → Bool) (s : Scope) : Scope :=
  let kept := s.bindings.entries.filter fun e => decide (e.2.identifier ∉ below)
  { s with bindings := ⟨kept.map fun (name, b) =>
      (name, { b with
        references := b.references.filter lives
        violations := b.violations.filter lives })⟩ }

/-- A scope still binds the names whose identifiers are not among the nodes it has forgotten. -/
theorem Scope.contains_without_iff {below : List NodeId} {lives : PathId → Bool} {sc : Scope}
    {x : String} : (sc.without below lives).bindings.contains x = true ↔
      ∃ v : Binding, (x, v) ∈ sc.bindings.entries ∧ v.identifier ∉ below := by
  rw [Table.contains_iff_mem_keys, Table.keys, List.mem_map]
  constructor
  · rintro ⟨e, he, rfl⟩
    obtain ⟨old, hold, rfl⟩ := List.mem_map.mp he
    obtain ⟨hv, hkept⟩ := List.mem_filter.mp hold
    exact ⟨old.2, hv, by simpa using hkept⟩
  · rintro ⟨v, hv, hkept⟩
    exact ⟨_, List.mem_map.mpr ⟨(x, v), List.mem_filter.mpr ⟨hv, by simpa using hkept⟩, rfl⟩, rfl⟩

/-- Forget what the scopes know about the subtree at `node`. -/
def unregister (node : NodeId) : SessionM Unit := do
  if ← scopesCrawled then
    let below ← askBelow [node] fun t => t.subtree? node
    let paths := (← get).paths
    let lives (p : PathId) : Bool :=
      match paths[p.index]? with
      | some d => d.node.any fun id => decide (id ∉ below)
      | none => false
    (← scopeIds).forM fun scope => scope.modifyData (Scope.without below lives)

end Espalier
