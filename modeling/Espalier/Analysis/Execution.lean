import Espalier.Scope.Crawl

set_option autoImplicit false

/-! # Execution order

Which of two paths is executed first. Inside one function the order is that of the tree. Across
functions an answer is given only through named function declarations that are called directly and
nowhere used otherwise, when all their calls agree. -/

namespace Espalier

open SessionM

/-- Where the execution of a path stands relative to another. -/
inductive ExecutionStatus where
  | before
  | after
  | unknown
deriving DecidableEq, Repr

/-- Before, if the first number is less; after otherwise; unknown without both numbers. -/
def ExecutionStatus.ofPlaces : Option Nat → Option Nat → ExecutionStatus
  | some a, some b => if a < b then .before else .after
  | _, _ => .unknown

namespace PathId

/-- The function or program in which the path is executed. A function's own position belongs to
what is around it. -/
def executionParent? (p : PathId) : SessionM (Option PathId) := do
  let start ← if ← p.isAny NodeType.isFunction then p.parent? else pure (some p)
  match start with
  | none => pure none
  | some start => start.find? fun q => q.isAny fun type => type.isFunction || type == .program

/-! ## One function -/

/-- Where two ancestries meet: the path there, and the paths just below it on both sides. -/
structure Fork where
  path : PathId
  below : Option PathId
  otherBelow : Option PathId

/-- Find where two ancestries meet, comparing by node. `below` is the path met before. -/
def forkOf (others : List (Option NodeId × PathId)) (below : Option PathId) :
    List (Option NodeId × PathId) → Option Fork
  | [] => none
  | (node, p) :: above =>
    match node, others.findIdx? fun e => e.1 == node with
    | some _, some i =>
      let otherBelow := match i with
        | 0 => none
        | j + 1 => (others[j]?).map Prod.snd
      some { path := p, below, otherBelow }
    | _, _ => forkOf others (some p) above

/-- The order of two paths inside one function: a path that contains the other counts as after it;
else the elements of a list, or the fields of the node where the two ways part, decide. -/
def statusInFunction (p target : PathId) : SessionM ExecutionStatus := do
  let withNode (q : PathId) : SessionM (Option NodeId × PathId) := do pure (← q.node?, q)
  let mine ← (← p.ancestry).mapM withNode
  let others ← (← target.ancestry).mapM withNode
  match forkOf others none mine with
  | none => pure .unknown
  | some ⟨fork, some a, some b⟩ =>
    let da ← a.data
    let db ← b.data
    if da.listField?.isSome ∧ da.container = db.container then
      pure (.ofPlaces da.index? db.index?)
    else
      match ← fork.type? with
      | none => pure .unknown
      | some type =>
        let place (f : Option Field) := f.bind fun f => type.visitorFields.idxOf? f
        pure (.ofPlaces (place da.field?) (place db.field?))
  | some _ => pure .after

/-! ## Across functions -/

/-- A computation that keeps the function declarations whose calls are being examined, the one that
was come to first in front. -/
abbrev OrderM := StateT (List NodeId) SessionM

/-- Is the path the callee of a call? -/
def isCallee (p : PathId) : SessionM Bool := do
  if (← p.data).key = .field .callee then
    pure ((← p.parentType?) == some .callExpression)
  else pure false

/-- Does the path, or one on the way up from it, hold the node? -/
def isInside (p : PathId) (node : NodeId) : SessionM Bool := do
  pure (← p.find? fun q => do pure ((← q.node?) == some node)).isSome

/-- Examine the calls of a function declaration, which is under examination meanwhile. -/
def examining {α : Type} (function : NodeId) (x : OrderM α) : OrderM α := do
  modify fun underway => underway ++ [function]
  let a ← x
  modify fun underway => underway.filter (· != function)
  pure a

/-- The agreement of several calls: `none` when one is not a plain call, is unknown, or contradicts
the others. Calls from inside the function do not count. -/
def agreement (function : NodeId) (statusAt : PathId → OrderM ExecutionStatus) :
    Option ExecutionStatus → List PathId → OrderM (Option ExecutionStatus)
  | agreed, [] => pure agreed
  | agreed, call :: rest => do
    if !(← call.isCallee) then pure none
    else if ← call.isInside function then agreement function statusAt agreed rest
    else
      let status ← statusAt call
      if status = .unknown ∨ agreed.any (· != status) then pure none
      else agreement function statusAt (some status) rest

/-- The status that all direct calls of the function declaration at `function` agree on. There is
none for other functions, exported ones, and those already under examination. -/
def statusThroughCalls (function : PathId) (statusAt : PathId → OrderM ExecutionStatus) :
    OrderM (Option ExecutionStatus) := do
  if !(← function.is .functionDeclaration) then pure none
  else if (← function.parentType?).any NodeType.isExportDeclaration then pure none
  else
    match ← function.node? with
    | none => pure none
    | some node =>
      if node ∈ (← get) then pure none
      else
        let id ← function.child .id
        match ← id.binding? with
        | none => pure none
        | some binding =>
          if !binding.isReferenced then pure (some .before)
          else examining node (agreement node statusAt none binding.references)

/-- Is the function at this path named, and is its name read? -/
def hasReferences (function : PathId) : SessionM Bool := do
  let id ← function.child .id
  pure ((← id.binding?).any Binding.isReferenced)

/-- The order of two paths, looking through at most `fuel` nested calls. -/
def statusWithin : Nat → PathId → PathId → OrderM ExecutionStatus
  | 0, _, _ => throw .exhausted
  | fuel + 1, p, target => do
    let mine ← p.executionParent?
    let other ← target.executionParent?
    let nodeOf (q : Option PathId) : SessionM (Option NodeId) := match q with
      | some q => q.node?
      | none => pure none
    if (← nodeOf mine) = (← nodeOf other) then p.statusInFunction target
    else
      let fromTarget ← match other with
        | some function => function.statusThroughCalls fun call => statusWithin fuel p call
        | none => pure none
      match fromTarget, mine with
      | some status, _ => pure status
      | none, none => pure .unknown
      | none, some function =>
        if ← function.hasReferences then
          let fromMine ← function.statusThroughCalls fun call => statusWithin fuel call target
          pure (fromMine.getD .unknown)
        else pure .unknown

/-- Where the execution of this path stands relative to `target`. Each nested look-up examines
another function, so there are at most as many as there are nodes. -/
def executionStatus (p target : PathId) : SessionM ExecutionStatus := do
  let fuel := (← get).tree.size + 2
  let (status, _) ← (statusWithin fuel p target).run []
  pure status

/-- Is this path certainly executed before `target`? -/
def executesBefore (p target : PathId) : SessionM Bool := do
  pure ((← p.executionStatus target) == .before)

/-- Might this path be executed before `target`? -/
def mayExecuteBefore (p target : PathId) : SessionM Bool := do
  pure ((← p.executionStatus target) != .after)

end PathId

end Espalier
