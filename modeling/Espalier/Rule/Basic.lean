import Espalier.Decimal.Double
import Espalier.Walk.Traverse

set_option autoImplicit false

/-! # Rules

A rule contributes one visitor. A `Transformer` runs its rules over a session, the highest priority
first, each as a traversal of its own, and keeps statistics for each rule. -/

namespace Espalier

/-- A change of the whole tree, made by one visitor. The visitor is made anew for each run. -/
structure Rule (σ : Type) where
  name : String
  description : String
  priority : Nat := 100
  visitor : WalkM σ (Visitor σ)

/-- What a rule did so far. -/
structure RuleStats where
  ruleName : String
  /-- Traversals run with the rule. -/
  applications : Nat := 0
  /-- Changes the rule made. -/
  transformations : Nat := 0
  errors : Nat := 0
  /-- Time spent in the rule, where it is measured. -/
  totalMilliseconds : Nat := 0
deriving DecidableEq, Repr

/-- The mean time of an application, zero before the first one. -/
def RuleStats.averageMilliseconds (s : RuleStats) : Double :=
  if s.applications = 0 then .zero
  else (Double.ofNat s.totalMilliseconds).divMagnitude (.ofNat s.applications)

/-- What a run of rules did. -/
structure Summary where
  rulesRun : Nat := 0
  /-- The rules that changed the tree. -/
  rulesApplied : List String := []
  mutations : Nat := 0
  nodesVisited : Nat := 0
  /-- The rules whose traversal was stopped. -/
  stopped : List String := []
deriving DecidableEq, Repr

namespace Summary

/-- Two runs, one after the other. -/
def merge (a b : Summary) : Summary where
  rulesRun := a.rulesRun + b.rulesRun
  rulesApplied := a.rulesApplied ++ b.rulesApplied
  mutations := a.mutations + b.mutations
  nodesVisited := a.nodesVisited + b.nodesVisited
  stopped := a.stopped ++ b.stopped

/-- Did anything change? -/
def changed (s : Summary) : Bool := decide (0 < s.mutations)

end Summary

/-- The rule that failed, and why. -/
structure RuleFailure where
  rule : String
  cause : Refusal
deriving DecidableEq, Repr

namespace RuleFailure

/-- Which rule failed. -/
def headline (f : RuleFailure) : String := "rule " ++ ticked f.rule ++ " failed"

/-- Which rule failed, and why. -/
def message (f : RuleFailure) : String := f.headline ++ ": " ++ f.cause.message

end RuleFailure

/-- Rules in the order in which they run, with the statistics of each. -/
structure Transformer (σ : Type) where
  rules : List (Rule σ) := []
  stats : Table String RuleStats := .empty

namespace Transformer

variable {σ : Type}

/-- Put a rule behind all rules of at least its priority. -/
def place (r : Rule σ) : List (Rule σ) → List (Rule σ)
  | [] => [r]
  | q :: rest => if r.priority ≤ q.priority then q :: place r rest else r :: q :: rest

/-- Add a rule. Rules of equal priority keep the order in which they were added. -/
def add (t : Transformer σ) (r : Rule σ) : Transformer σ where
  rules := place r t.rules
  stats := t.stats.insert r.name { ruleName := r.name }

/-- The names of the rules in the order in which they run. -/
def ruleNames (t : Transformer σ) : List String := t.rules.map Rule.name

/-- Run one traversal; a refusal is an outcome, other failures are passed on. -/
def attempt (v : WalkM σ (Visitor σ)) : WalkM σ (Except Refusal Traversal) := fun w =>
  match (v >>= traverse) w with
  | .ok done w => .ok (.ok done) w
  | .error (.refused cause) w => .ok (.error cause) w
  | .error e w => .error e w

/-- Change the statistics of a rule. -/
def note (name : String) (f : RuleStats → RuleStats) (stats : Table String RuleStats) :
    Table String RuleStats :=
  stats.insert name (f ((stats.get? name).getD { ruleName := name }))

/-- Run the rules one after the other. The first one that fails ends the run. -/
def runRules (summary : Summary) (stats : Table String RuleStats) :
    List (Rule σ) → WalkM σ (Table String RuleStats × Except RuleFailure Summary)
  | [] => pure (stats, .ok summary)
  | r :: rest => do
    let stats := note r.name (fun s => { s with applications := s.applications + 1 }) stats
    let before := (← get).session.mutations
    match ← attempt r.visitor with
    | .error cause =>
      let stats := note r.name (fun s => { s with errors := s.errors + 1 }) stats
      pure (stats, .error { rule := r.name, cause })
    | .ok done =>
      let mutations := (← get).session.mutations - before
      let stats := note r.name
        (fun s => { s with transformations := s.transformations + mutations }) stats
      let step : Summary :=
        { rulesRun := 1
          rulesApplied := if 0 < mutations then [r.name] else []
          mutations
          nodesVisited := done.visited
          stopped := if done.stopped then [r.name] else [] }
      runRules (summary.merge step) stats rest

/-- Run every rule once. -/
def run (t : Transformer σ) : WalkM σ (Transformer σ × Except RuleFailure Summary) := do
  let (stats, outcome) ← runRules {} t.stats t.rules
  pure ({ t with stats }, outcome)

end Transformer

end Espalier
