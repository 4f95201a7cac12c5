import Espalier.Path.Resync

set_option autoImplicit false

/-! # Visitors

A visitor is a table of handlers, registered for one node type, for a category or for every node,
and called when a node is entered or left. A walk threads a value of the client's own beside the
session, so that what handlers note is kept even when the walk fails. -/

namespace Espalier

/-- The state of a walk: the session, the number of visits so far and the client's own value. -/
structure Walk (σ : Type) where
  session : Session
  visited : Nat := 0
  own : σ

/-- A computation during a walk. -/
abbrev WalkM (σ : Type) := EStateM Failure (Walk σ)

namespace WalkM

variable {σ α : Type}

/-- Run a computation on the session of the walk. -/
def onSession (x : SessionM α) : WalkM σ α := fun w =>
  match x w.session with
  | .ok a session => .ok a { w with session }
  | .error e session => .error e { w with session }

instance : MonadLift SessionM (WalkM σ) := ⟨onSession⟩

/-- Run a walk on a session, starting from a value of one's own. -/
def runOn (x : WalkM σ α) (own : σ) : SessionM (α × σ) := fun session =>
  match x { session, own } with
  | .ok a w => .ok (a, w.own) w.session
  | .error e w => .error e w.session

end WalkM

/-- What is done when a node is entered or left. -/
abbrev Handler (σ : Type) := PathId → WalkM σ Unit

/-- The two moments at which handlers are called. -/
inductive Phase where
  | enter
  | exit
deriving DecidableEq, Repr

/-- Which nodes a handler is registered for. -/
inductive Selector where
  | any
  | type (t : NodeType)
  | category (c : Category)
deriving DecidableEq, Repr

/-- A table of handlers in the order of their registration, and the node types that are never
entered. -/
structure Visitor (σ : Type) where
  entries : List (Phase × Selector × Handler σ) := []
  blacklist : List NodeType := []

namespace Visitor

variable {σ : Type}

/-- The visitor without handlers. -/
def empty : Visitor σ := {}

/-- Register a handler after those that are already there. -/
def on (v : Visitor σ) (phase : Phase) (selector : Selector) (h : Handler σ) : Visitor σ :=
  { v with entries := v.entries ++ [(phase, selector, h)] }

/-- Never enter nodes of this type. -/
def avoid (v : Visitor σ) (type : NodeType) : Visitor σ :=
  { v with blacklist := v.blacklist ++ [type] }

/-- Is there no handler at all? -/
def isEmpty (v : Visitor σ) : Bool := v.entries.isEmpty

/-- The handlers of a phase whose selector passes a test. -/
def select (v : Visitor σ) (phase : Phase) (test : Selector → Bool) : List (Handler σ) :=
  v.entries.filterMap fun (ph, selector, h) =>
    if ph = phase ∧ test selector then some h else none

/-- The handlers for a node: those for every node first, then those for its type, then those for
its categories. -/
def handlersFor (v : Visitor σ) (phase : Phase) (type : NodeType) : List (Handler σ) :=
  v.select phase (· == .any)
    ++ v.select phase (· == .type type)
    ++ v.select phase fun
      | .category c => type.belongsTo c
      | _ => false

end Visitor

end Espalier
