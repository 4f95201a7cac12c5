import Espalier.Analysis.Execution
import Espalier.Analysis.Resolve
import Espalier.Edit.Replace
import Espalier.Rule.Basic

set_option autoImplicit false

/-! # Built-in rules

`strict-mode` puts the `"use strict"` directive in front of the program. `constant-inliner` replaces
reads of variables that are never assigned again by a copy of their literal value. -/

namespace Espalier

open SessionM

variable {σ : Type}

namespace Rule

/-- The directive that switches to strict mode. -/
def strictDirective : String := "use strict"

/-- Add the directive to the program at a path, unless it is there. Directives are no nodes, so
there is nothing to visit below. -/
def addStrictDirective (enabled : Bool) (p : PathId) : SessionM Unit := do
  p.skip
  match ← p.node? with
  | none => pure ()
  | some id =>
    if enabled then
      match ← ask fun t => t.kind? id with
      | .program body directives =>
        if strictDirective ∈ directives then pure ()
        else
          modifyKind id fun _ => .program body (strictDirective :: directives)
          recordMutation
      | _ => recordMutation

/-- The rule that makes a program strict. -/
def strictMode (enabled : Bool) (priority : Nat) : Rule σ where
  name := "strict-mode"
  description := "Adds a \"use strict\" directive to the program"
  priority
  visitor := pure (Visitor.empty.on .enter (.type .program) fun p => addStrictDirective enabled p)

/-- The literal that may stand for the variable read at a path: the variable is never assigned
again, its value is a literal, and the value is certainly computed before the read. -/
def inlinableLiteral? (p : PathId) (binding : Binding) : SessionM (Option NodeId) := do
  let declared := binding.kind == .var || binding.kind == .letVar || binding.kind == .const
  if !binding.isConstant || !declared then pure none
  else
    let value ← p.resolve false
    if value = p then pure none
    else if !(← value.isAny NodeType.isLiteral) then pure none
    else if ← value.executesBefore p then value.node?
    else pure none

/-- Replace the variable read at a path by its literal value, where that is certain. -/
def inlineConstant (p : PathId) : SessionM Unit := do
  if ← p.isReferencedIdentifier then
    match ← p.binding? with
    | none => pure ()
    | some binding =>
      match ← inlinableLiteral? p binding with
      | none => pure ()
      | some literal =>
        let copy ← buildBelow [literal] (TreeM.deepClone literal)
        p.replaceNode copy
        let _ ← binding.scope.modifyBinding binding.name fun b => b.dereference p

/-- The rule that inlines constants. -/
def constantInliner (priority : Nat) : Rule σ where
  name := "constant-inliner"
  description := "Inlines literal values of bindings that are never reassigned"
  priority
  visitor := pure (Visitor.empty.on .enter (.type .identifier) fun p => inlineConstant p)

/-- The names of the built-in rules. -/
def builtinNames : List String := ["strict-mode", "constant-inliner"]

/-- The built-in rule of a name, with its usual priority. -/
def builtin? (name : String) : Option (Rule σ) :=
  if name = "strict-mode" then some (strictMode true 200)
  else if name = "constant-inliner" then some (constantInliner 100)
  else none

end Rule

/-- Why built-in rules were not run to the end. -/
inductive TransformError where
  | noRules
  | unknownRule (name : String)
  | failed (failure : RuleFailure)
deriving DecidableEq, Repr

namespace TransformError

/-- What went wrong, in one line. -/
def headline : TransformError → String
  | .noRules =>
    "no rules given; pass --rule with one of: " ++ ", ".intercalate Rule.builtinNames
  | .unknownRule name =>
    "unknown rule " ++ ticked name ++ " (available: " ++ ", ".intercalate Rule.builtinNames ++ ")"
  | .failed failure => failure.headline

/-- What went wrong, with its cause. -/
def message : TransformError → String
  | .failed failure => failure.message
  | e => e.headline

end TransformError

/-- A transformer with the built-in rules of the given names, or the first name that is unknown. -/
def Transformer.ofNames : List String → Transformer σ → Except TransformError (Transformer σ)
  | [], t => .ok t
  | name :: rest, t =>
    match Rule.builtin? name with
    | some r => ofNames rest (t.add r)
    | none => .error (.unknownRule name)

/-- Run the built-in rules of the given names, the highest priority first. -/
def transformByName (names : List String) : SessionM (Except TransformError Summary) := do
  if names = [] then pure (.error .noRules)
  else
    match Transformer.ofNames names ({} : Transformer Unit) with
    | .error e => pure (.error e)
    | .ok t =>
      let ((_, outcome), _) ← WalkM.runOn t.run ()
      pure (match outcome with
        | .ok summary => .ok summary
        | .error failure => .error (.failed failure))

end Espalier
