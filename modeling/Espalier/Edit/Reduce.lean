import Espalier.Syntax.Build
import Espalier.Syntax.Query

set_option autoImplicit false

/-! # Statements as one expression

A list of statements has an expression form when it consists of expressions, expression statements,
`var` declarations, blocks, branches and empty statements. The form evaluates the same
sub-expressions in the same order; the names declared by `var` have to be declared around it. -/

namespace Espalier

/-- A computation on a tree that may find that there is no expression form. What it built stays. -/
abbrev ReduceM := OptionT TreeM

/-- An expression form, and the names that have to be declared around it. -/
structure Reduced where
  expression : NodeId
  declared : List String
deriving DecidableEq, Repr

/-- The expressions found so far, the names met, and whether the value of the last statement is
undefined. -/
structure Reduction where
  expressions : List NodeId := []
  declared : List String := []
  endsUndefined : Bool := false
deriving DecidableEq, Repr

namespace Reduction

/-- Add one expression, whose value is the value so far. -/
def add (r : Reduction) (expression : NodeId) (declared : List String) : Reduction :=
  { expressions := r.expressions ++ [expression]
    declared := r.declared ++ declared
    endsUndefined := false }

/-- Add a declarator of a `var` declaration: an assignment if it has an initial value. -/
def addDeclarator (r : Reduction) (declarator : NodeId) : TreeM Reduction := do
  match ← TreeM.kind declarator with
  | .variableDeclarator id init =>
    let names ← (← get).bindingIdentifiers? id false false
    let assignment ← init.mapM fun init => TreeM.assign id init
    pure
      { r with
        expressions := r.expressions ++ assignment.toList
        declared := r.declared ++ names.keys }
  | _ => pure r

/-- The one expression that stands for all of them: the last one gives the value. -/
def finish (r : Reduction) : TreeM Reduced := do
  let expressions ←
    if r.endsUndefined || r.expressions.isEmpty then
      do pure (r.expressions ++ [← TreeM.undefined])
    else pure r.expressions
  match expressions with
  | [expression] => pure { expression, declared := r.declared }
  | _ => do
    let expression ← TreeM.alloc (.sequenceExpression expressions)
    pure { expression, declared := r.declared }

end Reduction

/-- Add one statement; `reduce` finds the form of the statements inside it. -/
def reduceStatement (reduce : List NodeId → ReduceM Reduced) (r : Reduction) (node : NodeId) :
    ReduceM Reduction := do
  let kind ← TreeM.kind node
  if kind.type.isExpression then pure (r.add node [])
  else
    match kind with
    | .expressionStatement expression => pure (r.add expression [])
    | .variableDeclaration .var declarations =>
      let r ← (declarations.foldlM Reduction.addDeclarator r : TreeM Reduction)
      pure { r with endsUndefined := true }
    | .ifStatement test consequent alternate =>
      let yes ← reduce [consequent]
      let no ← match alternate with
        | some alternate => reduce [alternate]
        | none => do pure { expression := ← TreeM.undefined, declared := [] }
      let choice ← TreeM.alloc (.conditionalExpression test yes.expression no.expression)
      pure (r.add choice (yes.declared ++ no.declared))
    | .blockStatement body =>
      let inner ← reduce body
      pure (r.add inner.expression inner.declared)
    | .emptyStatement => pure { r with endsUndefined := true }
    | _ => failure

/-- The expression form of statements that are nested at most `fuel` levels deep. -/
def reduceWithin : Nat → List NodeId → ReduceM Reduced
  | 0, _ => OptionT.lift failure
  | fuel + 1, nodes => do
    let r ← nodes.foldlM (reduceStatement (reduceWithin fuel)) {}
    r.finish

/-- The expression form of some statements, if they have one. -/
def reduceStatements (nodes : List NodeId) : TreeM (Option Reduced) := do
  let t ← get
  (reduceWithin t.depthBound nodes).run

end Espalier
