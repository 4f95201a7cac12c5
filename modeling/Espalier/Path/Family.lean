import Espalier.Path.Navigate
import Espalier.Syntax.Query

set_option autoImplicit false

/-! # Relatives of a path

Siblings, ancestors, the enclosing statement, the paths whose value a construct has, and the
identifiers a node introduces. Any path may be made the parent of any other, so the way up from a
path need not end; it is followed only as far as a question needs it. -/

namespace Espalier

open SessionM

/-- The length of the longest list field. -/
def Tree.longestList (t : Tree) : Nat :=
  t.nodes.foldl (fun n node => node.kind.fields.foldl (fun n e => max n e.2.ids.length) n) 0

namespace PathId

/-! ## Siblings -/

/-- The element with the given index of the list that holds the path. -/
def sibling (p : PathId) (i : Nat) : SessionM PathId := do
  let d ← p.data
  match d.container, d.parent with
  | .list _ f, some parent => parent.element f i
  | _, parent => detachedPath parent

/-- The element before the path. -/
def prevSibling (p : PathId) : SessionM PathId := do
  match ← p.index? with
  | some (i + 1) => p.sibling i
  | _ => detachedPath (← p.parent?)

/-- The element after the path. -/
def nextSibling (p : PathId) : SessionM PathId := do
  match ← p.index? with
  | some i => do p.sibling (← nextIndex i)
  | none => detachedPath (← p.parent?)

/-- The siblings from index `i` on, up to the first one without a node. -/
def siblingsFrom (p : PathId) : Nat → Nat → SessionM (List PathId)
  | 0, _ => throw .exhausted
  | fuel + 1, i => do
    let q ← p.sibling i
    match ← q.node? with
    | none => pure []
    | some _ => do pure (q :: (← siblingsFrom p fuel (i + 1)))

/-- All later siblings, nearest first. -/
def nextSiblings (p : PathId) : SessionM (List PathId) := do
  match ← p.index? with
  | none => pure []
  | some i => siblingsFrom p ((← get).tree.longestList + 1) (← nextIndex i)

/-- All earlier siblings, nearest first. -/
def prevSiblings (p : PathId) : SessionM (List PathId) := do
  match ← p.index? with
  | none => pure []
  | some i => (List.range i).reverse.mapM p.sibling

/-- The other operand next to a left or right operand. -/
def opposite? (p : PathId) : SessionM (Option PathId) := do
  let d ← p.data
  let other : Option Field := match d.key with
    | .field .left => some .right
    | .field .right => some .left
    | _ => none
  match other, d.parent with
  | some f, some parent => do pure (some (← parent.child f))
  | _, _ => pure none

/-! ## Ancestors -/

/-- The path and its ancestors, at most `fuel` of them. -/
def ancestryWithin : Nat → PathId → SessionM (List PathId)
  | 0, _ => throw .exhausted
  | fuel + 1, p => do
    match ← p.parent? with
    | none => pure [p]
    | some parent => do pure (p :: (← ancestryWithin fuel parent))

/-- The path followed by its ancestors up to the root. -/
def ancestry (p : PathId) : SessionM (List PathId) := do
  ancestryWithin ((← get).paths.size + 1) p

/-- Climb from `start` until a path gives an answer, past at most `fuel` paths. -/
def climbWithin {α : Type} (answer : PathId → SessionM (Option α)) :
    Nat → Option PathId → SessionM (Option α)
  | _, none => pure none
  | 0, some _ => throw .exhausted
  | fuel + 1, some p => do
    match ← answer p with
    | some a => pure (some a)
    | none => climbWithin answer fuel (← p.parent?)

/-- The first answer on the way up from `start`. A way that is longer than the number of paths
leads in a circle. -/
def climb {α : Type} (start : Option PathId) (answer : PathId → SessionM (Option α)) :
    SessionM (Option α) := do
  climbWithin answer (← get).paths.size start

/-- The first path on the way up from `start` that satisfies `test`. -/
def firstWhere (start : Option PathId) (test : PathId → SessionM Bool) :
    SessionM (Option PathId) :=
  climb start fun q => do pure (if ← test q then some q else none)

/-- The nearest ancestor that satisfies `test`. -/
def findParent? (p : PathId) (test : PathId → SessionM Bool) : SessionM (Option PathId) := do
  firstWhere (← p.parent?) test

/-- The path itself or its nearest ancestor that satisfies `test`. -/
def find? (p : PathId) (test : PathId → SessionM Bool) : SessionM (Option PathId) :=
  firstWhere (some p) test

/-- The function around the path. -/
def functionParent? (p : PathId) : SessionM (Option PathId) :=
  p.findParent? fun q => q.isAny NodeType.isFunction

/-- The program around the path, or the path itself. -/
def programParent? (p : PathId) : SessionM (Option PathId) := p.find? fun q => q.is .program

/-- Does the node of `ancestor` stand strictly above the path? -/
def isDescendant (p ancestor : PathId) : SessionM Bool := do
  match ← ancestor.node? with
  | none => pure false
  | some node =>
    let above ← p.findParent? fun q => do pure ((← q.node?) == some node)
    pure above.isSome

/-- Does the node of the path stand strictly above `descendant`? -/
def isAncestor (p descendant : PathId) : SessionM Bool := descendant.isDescendant p

/-- The path itself or its nearest ancestor that is a statement in a list. -/
def statementParent (p : PathId) : SessionM PathId := do
  let found ← p.find? fun q => do
    if ← q.inList then q.isAny NodeType.isStatement else pure false
  match found with
  | some q => pure q
  | none => refuse .noStatementParent

/-! ## Completion records -/

/-- The paths whose value is the value of this construct, at most `fuel` levels down. -/
def completionsWithin : Nat → PathId → SessionM (List PathId)
  | 0, _ => throw .exhausted
  | fuel + 1, p => do
    let through (fields : List Field) : SessionM (List PathId) := do
      let lists ← fields.mapM fun f => do completionsWithin fuel (← p.child f)
      pure lists.flatten
    match ← p.type? with
    | none => pure []
    | some .ifStatement => through [.consequent, .alternate]
    | some .tryStatement => through [.block, .handler, .finalizer]
    | some .program | some .blockStatement =>
      match (← p.elements .body).getLast? with
      | some last => completionsWithin fuel last
      | none => pure []
    | some type =>
      if type.isLoop || type.isFunction || type == .catchClause then through [.body]
      else pure [p]

/-- The paths whose value is the value of this construct. -/
def completionRecords (p : PathId) : SessionM (List PathId) := do
  completionsWithin ((← get).tree.depthBound + 1) p

/-! ## Binding identifiers -/

/-- Where the search for binding identifiers goes on from a path that holds no identifier; the
counterpart of `Tree.bindingTargets?` for paths. -/
def bindingTargets (p : PathId) (outerOnly : Bool) (type : NodeType) : SessionM (List PathId) := do
  if type.isExportDeclaration then
    let declaration ← p.child .declaration
    pure (if ← declaration.isAny NodeType.isDeclaration then [declaration] else [])
  else if outerOnly && type == .functionDeclaration then do pure [← p.child .id]
  else if outerOnly && type.isFunction then pure []
  else do pure (← type.bindingFields.mapM p.inField).flatten

/-- One step of the search: what a level of paths introduces and the level below it. -/
def bindingLevel (keepAll outerOnly : Bool) : List PathId → Table String (List PathId) →
    SessionM (Table String (List PathId) × List PathId)
  | [], found => pure (found, [])
  | p :: rest, found => do
    match ← p.kind? with
    | none => bindingLevel keepAll outerOnly rest found
    | some (.identifier name _) =>
      bindingLevel keepAll outerOnly rest (recordSite keepAll found name p)
    | some kind =>
      let targets ← p.bindingTargets outerOnly kind.type
      let (found, below) ← bindingLevel keepAll outerOnly rest found
      pure (found, targets ++ below)

/-- The search, level by level, at most `fuel` levels deep. -/
def bindingSearch (keepAll outerOnly : Bool) :
    Nat → List PathId → Table String (List PathId) → SessionM (Table String (List PathId))
  | 0, _, _ => throw .exhausted
  | fuel + 1, level, found => do
    if level = [] then pure found
    else
      let (found, below) ← bindingLevel keepAll outerOnly level found
      bindingSearch keepAll outerOnly fuel below found

/-- The paths of the identifiers that the node at this path introduces, by name. -/
def bindingIdentifierPaths (p : PathId) (keepAll outerOnly : Bool) :
    SessionM (Table String (List PathId)) := do
  bindingSearch keepAll outerOnly ((← get).tree.depthBound + 1) [p] .empty

/-- The identifiers that the node at this path introduces, by name. -/
def bindingIdentifiers (p : PathId) (keepAll : Bool) : SessionM (Table String (List NodeId)) := do
  match ← p.node? with
  | some id => askBelow [id] fun t => t.bindingIdentifiers? id keepAll false
  | none => pure .empty

end PathId

end Espalier
