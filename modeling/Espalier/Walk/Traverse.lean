import Espalier.Walk.Visitor

set_option autoImplicit false

/-! # Traversal

The walk is depth first: enter a node, walk its children field by field, leave it. Handlers may
change the tree under the walk. A path that was given another node is requeued and visited once
more before its frame moves on; in a list the cursor follows the visited path, so that elements
inserted behind it are visited and those inserted before it are not. -/

namespace Espalier

open SessionM

variable {σ : Type}

/-- What a traversal did. -/
structure Traversal where
  stopped : Bool := false
  visited : Nat := 0
deriving DecidableEq, Repr

namespace Walk

/-- Run `body` and then put the walk in order, whether `body` fails or not. -/
def ensuring {α : Type} (body : WalkM σ α) (cleanup : Walk σ → Walk σ) : WalkM σ α := fun w =>
  match body w with
  | .ok a w => .ok a (cleanup w)
  | .error e w => .error e (cleanup w)

/-- The walk inside a new frame. -/
def pushFrame (w : Walk σ) : Walk σ :=
  let id := w.session.nextFrame
  { w with session := { w.session with nextFrame := id + 1, frames := { id } :: w.session.frames } }

/-- The walk without the frame of this number. -/
def dropFrame (id : Nat) (w : Walk σ) : Walk σ :=
  { w with
    session :=
      { w.session with frames := w.session.frames.filter fun f => decide (f.id ≠ id) } }

/-- Run `body` in a frame of its own. -/
def withFrame {α : Type} (body : WalkM σ α) : WalkM σ α := do
  let id := (← get).session.nextFrame
  modify pushFrame
  ensuring body (dropFrame id)

/-- Has the walk been told to stop? -/
def isStopping : WalkM σ Bool := do pure (← get).session.stopping

/-- Does the path, or the walk as a whole, have to stop? -/
def mustStop (p : PathId) : WalkM σ Bool := do
  let d ← p.data
  pure (d.stop || (← isStopping))

/-- Is the visit of `node` at the path to be broken off? -/
def isInterrupted (p : PathId) (node : NodeId) : WalkM σ Bool := do
  let d ← p.data
  pure (d.removed || d.node != some node || d.skip || d.stop || (← isStopping))

/-- Call handlers one after the other, until the visit is broken off; tell whether it was. -/
def callAll (p : PathId) (node : NodeId) : List (Handler σ) → WalkM σ Bool
  | [] => isInterrupted p node
  | h :: rest => do
    if ← isInterrupted p node then pure true
    else
      h p
      callAll p node rest

/-- Take the oldest path off the queue of the innermost frame. -/
def dequeue : WalkM σ (Option PathId) := do
  let s := (← get).session
  match s.frames with
  | [] => pure none
  | f :: rest =>
    match f.queue with
    | [] => pure none
    | p :: queue =>
      modify fun w => { w with session := { w.session with frames := { f with queue } :: rest } }
      pure (some p)

/-- Prepare the data of a path for a visit, and count the visit. -/
def beginVisit (p : PathId) (requeued : Bool) : WalkM σ Unit := do
  let frame := (← get).session.frames.head?.map Frame.id
  p.modifyData fun d =>
    { d with
      frame
      skip := false
      stop := false
      requeues := if requeued then d.requeues else 0 }
  modify fun w => { w with visited := w.visited + 1 }

/-- Count a requeued visit of the path and refuse it beyond the limit. -/
def countRequeue (p : PathId) : WalkM σ Unit := do
  let limit := (← get).session.config.maxRequeues
  p.modifyData fun d => { d with requeues := d.requeues + 1 }
  if limit < (← p.data).requeues then
    let type := (← p.type?).getD .program
    throw (.refused (.requeueLimit type limit))

mutual

/-- Visit the node at a path: enter it, walk its children and leave it. Gives `true` when the walk
has to stop. -/
def visit (v : Visitor σ) : Nat → Nat → PathId → Bool → WalkM σ Bool
  | 0, _, _, _ => throw .exhausted
  | fuel + 1, depth, p, requeued => do
    if ← isStopping then pure true
    else
      let d ← p.data
      match d.node, d.removed with
      | some node, false =>
        let type ← ask fun t => t.type? node
        let limit := (← get).session.config.maxDepth
        if type ∈ v.blacklist then pure false
        else if limit ≤ depth then throw (.refused (.depthLimit limit))
        else
          beginVisit p requeued
          if ← callAll p node (v.handlersFor .enter type) then mustStop p
          else if ← visitFields v fuel (depth + 1) p node type.visitorFields then pure true
          else
            let d ← p.data
            -- Another node came to stand here; it was requeued and has a visit of its own.
            if d.removed || d.node != some node then mustStop p
            else
              let _ ← callAll p node (v.handlersFor .exit (← ask fun t => t.type? node))
              mustStop p
      | _, _ => pure false

/-- Visit the requeued paths of the innermost frame, oldest first. -/
def drain (v : Visitor σ) : Nat → Nat → WalkM σ Bool
  | 0, _ => throw .exhausted
  | fuel + 1, depth => do
    match ← dequeue with
    | none => pure false
    | some p =>
      p.resync
      if ← p.isRemoved then drain v fuel depth
      else
        countRequeue p
        if ← visit v fuel depth p true then pure true else drain v fuel depth

/-- Visit the elements of a list field from index `i` on. The length is read again at every step,
and a node that was `seen` is not visited again. -/
def visitList (v : Visitor σ) :
    Nat → Nat → PathId → NodeId → Field → List NodeId → Nat → WalkM σ Bool
  | 0, _, _, _, _, _, _ => throw .exhausted
  | fuel + 1, depth, parent, owner, f, seen, i => do
    if (← parent.node?) ≠ some owner then pure false
    else if (← listLength owner f) ≤ i then pure false
    else
      let p ← parent.element f i
      match ← p.node? with
      | none => pure false
      | some node =>
        if node ∈ seen then visitList v fuel depth parent owner f seen (i + 1)
        else if ← visit v fuel depth p false then pure true
        else if ← drain v fuel depth then pure true
        else
          p.resync
          let d ← p.data
          let next := match d.removed, d.key with
            | false, .index j => j + 1
            | _, _ => i
          visitList v fuel depth parent owner f (node :: seen) next

/-- Visit the child fields of `node`, as long as the path holds it. -/
def visitFields (v : Visitor σ) : Nat → Nat → PathId → NodeId → List Field → WalkM σ Bool
  | 0, _, _, _, _ => throw .exhausted
  | _ + 1, _, _, _, [] => pure false
  | fuel + 1, depth, p, node, f :: rest => do
    if (← p.node?) ≠ some node then pure false
    else
      let stopped ← match (← ask fun t => t.kind? node).child? f with
        | some (.many _) => withFrame (visitList v fuel depth p node f [] 0)
        | some (.one _) | some (.opt (some _)) => do
          let child ← p.child f
          visitSingle v fuel depth child
        | _ => pure false
      if stopped then pure true else visitFields v fuel depth p node rest

/-- Visit the node of a single-node field in a frame of its own. -/
def visitSingle (v : Visitor σ) : Nat → Nat → PathId → WalkM σ Bool
  | 0, _, _ => throw .exhausted
  | fuel + 1, depth, p => do
    match ← p.node? with
    | none => pure false
    | some _ =>
      withFrame do
        if ← visit v fuel depth p false then pure true else drain v fuel depth

end

/-- The steps that a walk may nest: more than any walk that ends will need, as a tree has no more
than `2 ^ 32` nodes. -/
def defaultFuel : Nat := Nat.pow 2 40

/-- The walk after one that ran inside it: the count of visits, the frames and the wish to stop are
those of before. -/
def resume (outer w : Walk σ) : Walk σ :=
  let frames := w.session.frames
  { w with
    visited := outer.visited
    session :=
      { w.session with
        frames := frames.drop (frames.length - outer.session.frames.length)
        stopping := outer.session.stopping } }

/-- Run a walk on its own: it has its own count of visits, and its frames and its wish to stop end
with it. -/
def isolated (body : WalkM σ Bool) : WalkM σ Traversal := fun outer =>
  match body { outer with visited := 0, session := { outer.session with stopping := false } } with
  | .ok stopped w => .ok { stopped, visited := w.visited } (resume outer w)
  | .error e w => .error e (resume outer w)

end Walk

/-- Walk the whole tree. -/
def traverseWith (fuel : Nat) (v : Visitor σ) : WalkM σ Traversal :=
  Walk.isolated do
    let root ← rootPath
    Walk.visitSingle v fuel 0 root

/-- Walk the children of a path, but not the path itself. Stopping ends this walk only. -/
def PathId.traverseWith (fuel : Nat) (p : PathId) (v : Visitor σ) : WalkM σ Traversal := do
  match ← p.node? with
  | none => pure {}
  | some node =>
    Walk.isolated do
      let type ← ask fun t => t.type? node
      Walk.visitFields v fuel 0 p node type.visitorFields

/-- Walk the whole tree. -/
def traverse (v : Visitor σ) : WalkM σ Traversal := traverseWith Walk.defaultFuel v

/-- Walk the children of a path. -/
def PathId.traverse (p : PathId) (v : Visitor σ) : WalkM σ Traversal :=
  p.traverseWith Walk.defaultFuel v

end Espalier
