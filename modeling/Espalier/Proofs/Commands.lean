import Mathlib.Data.List.Forall2
import Espalier.Syntax.Query

set_option autoImplicit false

/-! # What statements do

A statement that has an expression form is read as a `Command`, and commands are run under a
`Meaning`, which gives every expression of the tree an action of its own. -/

namespace Espalier

/-! ## Commands -/

/-- What a statement that has an expression form does. -/
inductive Command where
  /-- Evaluate an expression. -/
  | evaluate (expression : NodeId)
  /-- Go through declarators, given by their targets and initial values. -/
  | declare (declarators : List (NodeId × Option NodeId))
  /-- Evaluate a test and do one thing or the other. -/
  | choose (test : NodeId) (yes no : Command)
  /-- Do one thing after the other. -/
  | block (commands : List Command)

mutual

/-- The targets of the declarators in a command, in order. -/
def Command.targets : Command → List NodeId
  | .evaluate _ => []
  | .declare ds => ds.map Prod.fst
  | .choose _ yes no => yes.targets ++ no.targets
  | .block cs => targetsOf cs

/-- The targets of the declarators in several commands, in order. -/
def targetsOf : List Command → List NodeId
  | [] => []
  | c :: cs => c.targets ++ targetsOf cs

end

namespace Tree

variable (t : Tree)

/-- The target and the initial value of a declarator. -/
def declarator? (n : NodeId) : Option (NodeId × Option NodeId) :=
  match t.kind? n with
  | some (.variableDeclarator id init) => some (id, init)
  | _ => none

/-- The names that a target binds, in the order in which the search finds them. -/
def boundNames (target : NodeId) : List String :=
  ((t.bindingIdentifiers? target false false).map Table.keys).getD []

/-- The statement does what the command says. A missing branch and an empty statement do
nothing. -/
inductive Commands : NodeId → Command → Prop
  | expression {n : NodeId} {k : NodeKind} :
    t.kind? n = some k → k.type.isExpression = true → Commands n (.evaluate n)
  | statement {n e : NodeId} : t.kind? n = some (.expressionStatement e) → Commands n (.evaluate e)
  | variables {n : NodeId} {ds : List NodeId} : t.kind? n = some (.variableDeclaration .var ds) →
    Commands n (.declare (ds.filterMap t.declarator?))
  | branches {n test yes no : NodeId} {a b : Command} :
    t.kind? n = some (.ifStatement test yes (some no)) → Commands yes a → Commands no b →
      Commands n (.choose test a b)
  | branch {n test yes : NodeId} {a : Command} :
    t.kind? n = some (.ifStatement test yes none) → Commands yes a →
      Commands n (.choose test a (.block []))
  | block {n : NodeId} {ids : List NodeId} {cs : List Command} :
    t.kind? n = some (.blockStatement ids) → List.Forall₂ Commands ids cs → Commands n (.block cs)
  | empty {n : NodeId} : t.kind? n = some .emptyStatement → Commands n (.block [])

/-- Something at the statement, inside its blocks or in its branches has no expression form: a
`let` or `const` declaration, or a node that is neither an expression nor one of five kinds of
statements. -/
inductive Obstructed : NodeId → Prop
  | lexical {n : NodeId} {v : VariableKind} {ds : List NodeId} :
    t.kind? n = some (.variableDeclaration v ds) → v ≠ .var → Obstructed n
  | foreign {n : NodeId} {k : NodeKind} : t.kind? n = some k → k.type.isExpression = false →
    k.type ∉ [.expressionStatement, .variableDeclaration, .ifStatement, .blockStatement,
      .emptyStatement] → Obstructed n
  | consequent {n test yes : NodeId} {no : Option NodeId} :
    t.kind? n = some (.ifStatement test yes no) → Obstructed yes → Obstructed n
  | alternate {n test yes no : NodeId} :
    t.kind? n = some (.ifStatement test yes (some no)) → Obstructed no → Obstructed n
  | member {n m : NodeId} {ids : List NodeId} :
    t.kind? n = some (.blockStatement ids) → m ∈ ids → Obstructed m → Obstructed n

end Tree

/-! ## Meanings -/

/-- What the expressions of a tree mean: each is an action on a state that gives a value, and so is
the assignment of an initial value to a target. -/
structure Meaning (σ V : Type) where
  expression : NodeId → StateM σ V
  assignment : NodeId → NodeId → StateM σ V
  /-- Does a test with this value succeed? -/
  succeeds : V → Bool
  undefined : V

namespace Meaning

variable {σ V : Type} (M : Meaning σ V)

/-- Actions one after the other, with the value of the last one. -/
def inOrder (acts : List (StateM σ V)) : StateM σ V := acts.foldlM (fun _ act => act) M.undefined

/-- One of two actions, after a test. -/
def choose (test yes no : StateM σ V) : StateM σ V := do
  if M.succeeds (← test) then yes else no

/-- The assignments that declarators with an initial value make. -/
def assignments (ds : List (NodeId × Option NodeId)) : List (StateM σ V) :=
  ds.filterMap fun d => d.2.map (M.assignment d.1)

end Meaning

section Run

variable {σ V : Type} (M : Meaning σ V)

mutual

/-- The action of a command. -/
def Command.run : Command → StateM σ V
  | .evaluate e => M.expression e
  | .declare ds => do
    let _ ← M.inOrder (M.assignments ds)
    pure M.undefined
  | .choose test yes no => M.choose (M.expression test) yes.run no.run
  | .block cs => M.inOrder (runEach cs)

/-- The actions of several commands. -/
def runEach : List Command → List (StateM σ V)
  | [] => []
  | c :: cs => c.run :: runEach cs

end

/-- The value of an expression of `t`. The expressions of `old` have the meaning they are given;
those that are new are put together from them. -/
inductive Tree.Evaluates (t old : Tree) : NodeId → StateM σ V → Prop
  | known {e : NodeId} : old.contains e = true → Evaluates t old e (M.expression e)
  | assignment {e target value : NodeId} : old.contains e = false →
    t.kind? e = some (.assignmentExpression .assign target value) →
      Evaluates t old e (M.assignment target value)
  | sequence {e : NodeId} {es : List NodeId} {acts : List (StateM σ V)} : old.contains e = false →
    t.kind? e = some (.sequenceExpression es) → List.Forall₂ (Evaluates t old) es acts →
      Evaluates t old e (M.inOrder acts)
  | conditional {e test yes no : NodeId} {c a b : StateM σ V} : old.contains e = false →
    t.kind? e = some (.conditionalExpression test yes no) → Evaluates t old test c →
      Evaluates t old yes a → Evaluates t old no b → Evaluates t old e (M.choose c a b)
  | undefined {e zero : NodeId} : old.contains e = false →
    t.kind? e = some (.unaryExpression .void zero) → t.kind? zero = some (.numericLiteral .zero) →
      Evaluates t old e (pure M.undefined)

end Run


section Unique

variable {σ V : Type} {M : Meaning σ V} {t old : Tree}

/-- An expression has one value. -/
theorem Tree.Evaluates.unique {e : NodeId} {act act' : StateM σ V} (h : t.Evaluates M old e act)
    (h' : t.Evaluates M old e act') : act = act' := by
  revert act'
  refine @Tree.Evaluates.rec σ V M t old
    (fun e act _ => ∀ {act'}, t.Evaluates M old e act' → act = act')
    (fun es acts _ => ∀ acts', List.Forall₂ (t.Evaluates M old) es acts' → acts = acts')
    ?_ ?_ ?_ ?_ ?_ ?_ ?_ e act h
  · intro e hold act' h'
    cases h' <;> simp_all
  · intro e target value hnew hk act' h'
    cases h' <;> simp_all
  · intro e es acts hnew hk _ ih act' h'
    cases h' with
    | sequence _ hk' hacts =>
      obtain rfl : es = _ := by simpa [hk] using hk'
      rw [ih _ hacts]
    | _ => simp_all
  · intro e test yes no c a b hnew hk _ _ _ ihc iha ihb act' h'
    cases h' with
    | conditional _ hk' hc ha hb =>
      obtain ⟨rfl, rfl, rfl⟩ : test = _ ∧ yes = _ ∧ no = _ := by simpa [hk] using hk'
      rw [ihc hc, iha ha, ihb hb]
    | _ => simp_all
  · intro e zero hnew hk _ act' h'
    cases h' <;> simp_all
  · intro acts' h'
    cases h'
    rfl
  · intro e act es acts _ _ ihe ihes acts' h'
    cases h' with
    | cons he hes => rw [ihe he, ihes _ hes]

/-- A statement does one thing. -/
theorem Tree.Commands.unique {n : NodeId} {c c' : Command} (h : t.Commands n c)
    (h' : t.Commands n c') : c = c' := by
  revert c'
  refine @Tree.Commands.rec t (fun n c _ => ∀ {c'}, t.Commands n c' → c = c')
    (fun ids cs _ => ∀ cs', List.Forall₂ t.Commands ids cs' → cs = cs')
    ?_ ?_ ?_ ?_ ?_ ?_ ?_ ?_ ?_ n c h
  · intro n k hk hexpr c' h'
    cases h' <;> grind [NodeKind.type, NodeType.isExpression]
  · intro n e hk c' h'
    cases h' <;> grind [NodeKind.type, NodeType.isExpression]
  · intro n ds hk c' h'
    cases h' <;> grind [NodeKind.type, NodeType.isExpression]
  · intro n test yes no a b hk _ _ iha ihb c' h'
    cases h' with
    | branches hk' ha hb =>
      obtain ⟨rfl, rfl, rfl⟩ : test = _ ∧ yes = _ ∧ no = _ := by simpa [hk] using hk'
      rw [iha ha, ihb hb]
    | _ => grind [NodeKind.type, NodeType.isExpression]
  · intro n test yes a hk _ iha c' h'
    cases h' with
    | branch hk' ha =>
      obtain ⟨rfl, rfl⟩ : test = _ ∧ yes = _ := by simpa [hk] using hk'
      rw [iha ha]
    | _ => grind [NodeKind.type, NodeType.isExpression]
  · intro n ids cs hk _ ih c' h'
    cases h' with
    | block hk' hcs =>
      obtain rfl : ids = _ := by simpa [hk] using hk'
      rw [ih _ hcs]
    | _ => grind [NodeKind.type, NodeType.isExpression]
  · intro n hk c' h'
    cases h' <;> grind [NodeKind.type, NodeType.isExpression]
  · intro cs' h'
    cases h'
    rfl
  · intro n c ids cs _ _ ihc ihcs cs' h'
    cases h' with
    | cons hc hcs => rw [ihc hc, ihcs _ hcs]

end Unique

/-! ## Actions in order -/

namespace Meaning

variable {σ V : Type} (M : Meaning σ V)

theorem inOrder_concat (acts : List (StateM σ V)) (act : StateM σ V) :
    M.inOrder (acts ++ [act]) = M.inOrder acts >>= fun _ => act := by
  simp [inOrder, List.foldlM_append]

theorem inOrder_singleton (act : StateM σ V) : M.inOrder [act] = act := by
  simp [inOrder]

/-- Where the value is dropped, it does not matter which value the actions start from. -/
theorem foldlM_then {β : Type} (acts : List (StateM σ V)) (v w : V) (next : StateM σ β) :
    (acts.foldlM (fun _ act => act) v >>= fun _ => next) =
      acts.foldlM (fun _ act => act) w >>= fun _ => next := by
  cases acts with
  | nil => simp
  | cons act acts => rfl

theorem inOrder_append_then {β : Type} (acts more : List (StateM σ V)) (next : StateM σ β) :
    (M.inOrder (acts ++ more) >>= fun _ => next) =
      M.inOrder acts >>= fun _ => M.inOrder more >>= fun _ => next := by
  simp only [inOrder, List.foldlM_append, bind_assoc]
  exact bind_congr fun v => foldlM_then more v M.undefined next

theorem assignments_append (ds es : List (NodeId × Option NodeId)) :
    M.assignments (ds ++ es) = M.assignments ds ++ M.assignments es := by
  simp [assignments]

end Meaning

theorem targetsOf_append (cs ds : List Command) :
    targetsOf (cs ++ ds) = targetsOf cs ++ targetsOf ds := by
  induction cs with
  | nil => simp [targetsOf]
  | cons c cs ih => simp [targetsOf, ih]

theorem runEach_append {σ V : Type} (M : Meaning σ V) (cs ds : List Command) :
    runEach M (cs ++ ds) = runEach M cs ++ runEach M ds := by
  induction cs with
  | nil => simp [runEach]
  | cons c cs ih => simp [runEach, ih]

end Espalier
