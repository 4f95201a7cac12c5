import Espalier.Dotted
import Espalier.Session.Basic

set_option autoImplicit false

/-! # Navigation

A position is a container with a key. Going to the same position twice gives the same path: each
container has a bucket of the paths that live in it. Elements of a list are recognised by their
node, so that they keep their path when others are inserted or removed before them; slots and
places past the end of a list are recognised by their key. -/

namespace Espalier

open SessionM

/-- The node that stands at a position. -/
def nodeAt (c : Container) (k : Key) : SessionM (Option NodeId) :=
  match c, k with
  | .root, _ => do pure (← get).tree.root
  | .slot parent, .field f => do
    pure (((← ask fun t => t.kind? parent).child? f).bind Child.node?)
  | .list parent f, .index i => do
    pure ((((← ask fun t => t.kind? parent).child? f).bind Child.list?).bind fun ids => ids[i]?)
  | _, _ => pure none

/-- The length of a list field; zero when there is no such list. -/
def listLength (parent : NodeId) (f : Field) : SessionM Nat := do
  pure ((((← ask fun t => t.kind? parent).child? f).bind Child.list?).getD []).length

/-- Add a path to the session. -/
def allocPath (d : PathData) : SessionM PathId := do
  let s ← get
  set { s with paths := s.paths.push d }
  pure ⟨s.paths.size⟩

/-- The paths that live in a container. -/
def Session.bucket (s : Session) (c : Container) : List PathId := (s.cache.get? c).getD []

/-- Put a path into the bucket of a container. -/
def fileUnder (c : Container) (p : PathId) : SessionM Unit :=
  modify fun s => { s with cache := s.cache.insert c (s.bucket c ++ [p]) }

/-- Take a path out of the bucket of a container. -/
def unfile (c : Container) (p : PathId) : SessionM Unit :=
  modify fun s =>
    if s.cache.contains c then
      { s with cache := s.cache.insert c ((s.bucket c).filter fun q => decide (q ≠ p)) }
    else s

/-- The path without a position below `parent`. There is one for each parent, and it starts afresh
whenever it is asked for. -/
def detachedAt (parent : Option PathId) (k : Key) : SessionM PathId := do
  let fresh : PathData := { node := none, parent, container := .detached, key := k }
  match (← get).detached.get? parent with
  | some p =>
    p.modifyData fun _ => fresh
    pure p
  | none =>
    let p ← allocPath fresh
    modify fun s => { s with detached := s.detached.insert parent p }
    pure p

/-- The path that stands for leaving the tree below `parent`. -/
def detachedPath (parent : Option PathId) : SessionM PathId := detachedAt parent .root

/-- Does this path stand for the position with the given key and node? -/
def PathData.standsFor (d : PathData) (c : Container) (k : Key) (node : Option NodeId) : Bool :=
  match c, node with
  | .list _ _, some id => d.node == some id
  | _, _ => d.key == k

/-- The path in the bucket of a container that stands for a position. -/
def Session.cached? (s : Session) (c : Container) (k : Key) (node : Option NodeId) :
    Option PathId :=
  (s.bucket c).find? fun p =>
    match s.paths[p.index]? with
    | some d => d.standsFor c k node
    | none => false

/-- The path of a position, made on first use. -/
def pathFor (parent : Option PathId) (c : Container) (k : Key) : SessionM PathId := do
  if c = .detached then detachedAt parent k
  else
    let node ← nodeAt c k
    match (← get).cached? c k node with
    | some p =>
      p.modifyData fun d => { d with parent, key := k, node }
      pure p
    | none =>
      let p ← allocPath { node, parent, container := c, key := k }
      fileUnder c p
      pure p

/-- The path of the root. -/
def rootPath : SessionM PathId := pathFor none .root .root

namespace PathId

/-- The path of a single-node field, without a node when the field is empty. Other fields lead
nowhere. -/
def child (p : PathId) (f : Field) : SessionM PathId := do
  match ← p.node? with
  | none => detachedPath (some p)
  | some id =>
    match (← ask fun t => t.kind? id).child? f with
    | some (.one _) | some (.opt _) => pathFor (some p) (.slot id) (.field f)
    | _ => detachedPath (some p)

/-- The path of one element of a list field, without a node past the end. Other fields lead
nowhere. -/
def element (p : PathId) (f : Field) (i : Nat) : SessionM PathId := do
  match ← p.node? with
  | none => detachedPath (some p)
  | some id =>
    match (← ask fun t => t.kind? id).child? f with
    | some (.many _) => pathFor (some p) (.list id f) (.index i)
    | _ => detachedPath (some p)

/-- The paths of all elements of a list field. -/
def elements (p : PathId) (f : Field) : SessionM (List PathId) := do
  match ← p.node? with
  | none => pure []
  | some id => (List.range (← listLength id f)).mapM (p.element f)

/-- The paths in a field that holds nodes, be it a slot or a list. -/
def inField (p : PathId) (f : Field) : SessionM (List PathId) := do
  match ← p.kind? with
  | none => pure []
  | some kind =>
    match kind.child? f with
    | some (.many _) => p.elements f
    | some (.one _) | some (.opt (some _)) => do pure [← p.child f]
    | _ => pure []

/-! ## Dotted patterns -/

/-- A look-up on its way: the path reached, and the list field that still needs an index. -/
structure Cursor where
  path : PathId
  list : Option Field := none

/-- Follow one part of a pattern: an index into the pending list, the name of a field, or nothing
for the way up. -/
def Cursor.step (c : Cursor) (part : String) : SessionM Cursor := do
  match c.list with
  | some f =>
    match ← c.path.type? with
    | none => refuse .emptyPath
    | some type =>
      match Dotted.index? part with
      | none => refuse (.unknownField type part)
      | some i => do pure { path := ← c.path.element f i }
  | none =>
    if part = "" then
      match ← c.path.parent? with
      | some parent => pure { path := parent }
      | none => do pure { path := ← detachedPath none }
    else
      match ← c.path.kind? with
      | none => refuse .emptyPath
      | some kind =>
        match Field.ofName? part with
        | none => refuse (.unknownField kind.type part)
        | some f =>
          match kind.child? f with
          | some (.many _) => pure { c with list := some f }
          | some _ => do pure { path := ← c.path.child f }
          | none => refuse (.unknownField kind.type part)

/-- Follow a dotted pattern such as `consequent.body.0`. An empty part climbs to the parent. -/
def follow (p : PathId) (pattern : String) : SessionM PathId := do
  let c ← (Dotted.parts pattern).foldlM Cursor.step { path := p }
  match c.list with
  | none => pure c.path
  | some f =>
    match ← c.path.type? with
    | none => refuse .emptyPath
    | some parent => refuse (.notASlot parent f)

end PathId

end Espalier
