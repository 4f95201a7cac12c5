import Espalier.Proofs.Forest
import Espalier.Syntax.Query

set_option autoImplicit false

/-! # Lexical scoping

What the names of a program tree mean, said without a crawl: which nodes open a scope, which scope
a node is in, which scope a declaration gives its names to, and to which declaring scope a name
leads from a place. `Tree.Grammatical` asks of a tree what a parser guarantees for the constructs
that declare or assign names; of all other constructs it asks nothing. -/

namespace Espalier.Tree

variable (t : Tree)

/-! ## Patterns -/

/-- The name is bound by the pattern at this node. -/
inductive Binds : NodeId → String → Prop
  | identifier {n : NodeId} {x : String} {declared : Option ValueType} :
    t.kind? n = some (.identifier x declared) → Binds n x
  | element {n e : NodeId} {ids : List NodeId} {x : String} :
    t.kind? n = some (.arrayPattern ids) → e ∈ ids → Binds e x → Binds n x
  | member {n e : NodeId} {ids : List NodeId} {x : String} :
    t.kind? n = some (.objectPattern ids) → e ∈ ids → Binds e x → Binds n x
  | value {n key v : NodeId} {computed shorthand : Bool} {x : String} :
    t.kind? n = some (.objectProperty key v computed shorthand) → Binds v x → Binds n x
  | rest {n e : NodeId} {x : String} :
    t.kind? n = some (.restElement e) → Binds e x → Binds n x
  | initialized {n left right : NodeId} {x : String} :
    t.kind? n = some (.assignmentPattern left right) → Binds left x → Binds n x

/-- The node is a pattern, or another target of an assignment. -/
inductive IsTarget : NodeId → Prop
  | identifier {n : NodeId} {x : String} {declared : Option ValueType} :
    t.kind? n = some (.identifier x declared) → IsTarget n
  | access {n object property : NodeId} {computed : Bool} :
    t.kind? n = some (.memberExpression object property computed) → IsTarget n
  | array {n : NodeId} {ids : List NodeId} :
    t.kind? n = some (.arrayPattern ids) → (∀ e ∈ ids, IsTarget e) → IsTarget n
  | object {n : NodeId} {ids : List NodeId} :
    t.kind? n = some (.objectPattern ids) → (∀ e ∈ ids, IsTarget e) → IsTarget n
  | property {n key v : NodeId} {computed shorthand : Bool} :
    t.kind? n = some (.objectProperty key v computed shorthand) → IsTarget v → IsTarget n
  | rest {n e : NodeId} : t.kind? n = some (.restElement e) → IsTarget e → IsTarget n
  | initialized {n left right : NodeId} :
    t.kind? n = some (.assignmentPattern left right) → IsTarget left → IsTarget n

/-- The local name of an import specifier, with what else stands in it. -/
inductive Imports : NodeId → NodeId → Option NodeId → Prop
  | named {e l i : NodeId} : t.kind? e = some (.importSpecifier l i) → Imports e l (some i)
  | main {e l : NodeId} : t.kind? e = some (.importDefaultSpecifier l) → Imports e l none
  | whole {e l : NodeId} : t.kind? e = some (.importNamespaceSpecifier l) → Imports e l none

/-- The node is an identifier. -/
def IsIdentifier (n : NodeId) : Prop := ∃ x declared, t.kind? n = some (.identifier x declared)

/-- The node is a string literal. -/
def IsText (n : NodeId) : Prop := ∃ v, t.kind? n = some (.stringLiteral v)

/-- What a parser guarantees for the constructs that declare or assign names. -/
structure Grammatical : Prop where
  declarator : ∀ d v ds, t.Reachable d → t.kind? d = some (.variableDeclaration v ds) →
    ∀ e ∈ ds, ∃ target init, t.kind? e = some (.variableDeclarator target init) ∧ t.IsTarget target
  specifier : ∀ d es source, t.Reachable d → t.kind? d = some (.importDeclaration es source) →
    t.IsText source ∧ ∀ e ∈ es, ∃ l i?, t.Imports e l i? ∧ t.IsIdentifier l ∧
      ∀ i, i? = some i → t.IsIdentifier i ∨ t.IsText i
  functionName : ∀ f k i, t.Reachable f → t.kind? f = some k → k.type.isFunction = true →
    k.child? .id = some (.opt (some i)) → t.IsIdentifier i
  param : ∀ f k ps, t.Reachable f → t.kind? f = some k → k.type.isFunction = true →
    k.child? .params = some (.many ps) → ∀ p ∈ ps, t.IsTarget p
  handler : ∀ c param? body, t.Reachable c → t.kind? c = some (.catchClause param? body) →
    (∀ p, param? = some p → t.IsTarget p) ∧ ∃ ids, t.kind? body = some (.blockStatement ids)
  assigned : ∀ n op left right, t.Reachable n →
    t.kind? n = some (.assignmentExpression op left right) → t.IsTarget left

/-! ## Programs with plain names -/

section Plain

variable {t : Tree} {n : NodeId}

theorem isIdentifier_of_type (h : t.type? n = some .identifier) : t.IsIdentifier n := by
  obtain ⟨k, hk, hkt⟩ := kind_of_type? h
  cases k <;> first | exact ⟨_, _, hk⟩ | cases hkt

theorem isTarget_of_type (h : t.type? n = some .identifier) : t.IsTarget n := by
  obtain ⟨x, declared, hk⟩ := isIdentifier_of_type h
  exact .identifier hk

variable (t) in
/-- What the node declares and assigns has a plain name, and it is no import and no catch clause. -/
def declaresPlainly (k : NodeKind) : Bool :=
  let named (n : NodeId) : Bool := t.type? n == some .identifier
  (!k.type.isFunction || (k.fieldIds .id ++ k.fieldIds .params).all named) && match k with
  | .variableDeclaration _ ds => ds.all fun e => match t.kind? e with
    | some (.variableDeclarator target _) => named target
    | _ => false
  | .assignmentExpression _ left _ => named left
  | .importDeclaration .. | .catchClause .. => false
  | _ => true

/-- An arena with nothing but plain names is grammatical. -/
theorem Grammatical.of_plain (h : t.nodes.toList.all fun node => t.declaresPlainly node.kind) :
    t.Grammatical := by
  have hplain : ∀ {n k}, t.kind? n = some k → t.declaresPlainly k = true := by
    intro n k hk
    obtain ⟨node, hnode, rfl⟩ := Option.map_eq_some_iff.mp hk
    exact List.all_eq_true.mp h node (Array.mem_toList_iff.mpr (Array.mem_of_getElem? hnode))
  have hfunction : ∀ {f k i}, t.kind? f = some k → k.type.isFunction = true →
      i ∈ k.fieldIds .id ++ k.fieldIds .params → t.type? i = some .identifier := by
    intro f k i hk hfun hi
    have hnamed := (Bool.and_eq_true_iff.mp (hplain hk)).1
    rw [hfun, Bool.not_true, Bool.false_or] at hnamed
    exact beq_iff_eq.mp (List.all_eq_true.mp hnamed i hi)
  refine ⟨fun d v ds _ hk e he => ?_, fun d es source _ hk => (by cases hplain hk),
    fun f k i _ hk hfun hid => ?_, fun f k ps _ hk hfun hps p hp => ?_,
    fun c param? body _ hk => (by cases hplain hk), fun n op left right _ hk => ?_⟩
  · have hdeclarator := List.all_eq_true.mp (hplain hk) e he
    split at hdeclarator
    next target init he =>
      exact ⟨target, init, he, isTarget_of_type (beq_iff_eq.mp hdeclarator)⟩
    · cases hdeclarator
  · refine isIdentifier_of_type (hfunction hk hfun (List.mem_append_left _ ?_))
    simp [NodeKind.fieldIds, hid, Child.ids]
  · refine isTarget_of_type (hfunction hk hfun (List.mem_append_right _ ?_))
    simpa [NodeKind.fieldIds, hps, Child.ids] using hp
  · exact isTarget_of_type (beq_iff_eq.mp (hplain hk))

end Plain

/-! ## Scopes -/

/-- The node opens a scope: a program, a function, a `for` loop, a catch clause, or a block that is
not the body of a function or a catch clause. -/
def Opens (b : NodeId) : Prop :=
  ∃ k, t.kind? b = some k ∧ k.type.isScopable = true ∧
    (k.type = .blockStatement → ∀ p kp, t.Reachable p → t.IsChild p b → t.kind? p = some kp →
      kp.type.isFunction = false ∧ kp.type ≠ .catchClause)

/-- The innermost scope around the node is that of `b`. -/
inductive InScope : NodeId → NodeId → Prop
  | here {p n : NodeId} : t.Reachable p → t.IsChild p n → t.Opens p → InScope n p
  | up {p n b : NodeId} : t.Reachable p → t.IsChild p n → ¬ t.Opens p → InScope p b → InScope n b

/-- The scope of the node is that of `b`: its own one if it opens one, else the innermost one around
it. -/
def ScopeAt (n b : NodeId) : Prop := (t.Opens n ∧ b = n) ∨ (¬ t.Opens n ∧ t.InScope n b)

/-- The node is a function or a program, which own `var` and function declarations. -/
def OwnsVariables (b : NodeId) : Prop :=
  ∃ k, t.kind? b = some k ∧ (k.type = .program ∨ k.type.isFunction = true)

/-- From the scope of `b` outward, the first scope of a function or a program is that of `c`. -/
inductive HoistsTo : NodeId → NodeId → Prop
  | here {b : NodeId} : t.OwnsVariables b → HoistsTo b b
  | outer {b b' c : NodeId} : ¬ t.OwnsVariables b → t.InScope b b' → HoistsTo b' c → HoistsTo b c

/-- The block at the node declares the name in the scope it opens: as a parameter, as the parameter
of a catch clause, or as the name of a function expression. -/
inductive BindsInside : NodeId → String → Prop
  | param {f p : NodeId} {k : NodeKind} {ps : List NodeId} {x : String} :
    t.kind? f = some k → k.type.isFunction = true → k.child? .params = some (.many ps) → p ∈ ps →
    t.Binds p x → BindsInside f x
  | caught {c p body : NodeId} {x : String} :
    t.kind? c = some (.catchClause (some p) body) → t.Binds p x → BindsInside c x
  | ownName {f i body : NodeId} {ps : List NodeId} {isAsync isGenerator : Bool}
    {returned declared : Option ValueType} {x : String} :
    t.kind? f = some (.functionExpression (some i) ps body isAsync isGenerator returned) →
    t.kind? i = some (.identifier x declared) → BindsInside f x

/-- The construct at the first node declares the name in the scope of the second one. -/
inductive Introduces : NodeId → NodeId → String → Prop
  | inside {b : NodeId} {x : String} : t.BindsInside b x → Introduces b b x
  | function {f i body b c : NodeId} {ps : List NodeId} {isAsync isGenerator : Bool}
    {returned declared : Option ValueType} {x : String} :
    t.kind? f = some (.functionDeclaration (some i) ps body isAsync isGenerator returned) →
    t.kind? i = some (.identifier x declared) → t.InScope f b → t.HoistsTo b c → Introduces f c x
  | lexical {d e target b : NodeId} {v : VariableKind} {ds : List NodeId} {init : Option NodeId}
    {x : String} :
    t.kind? d = some (.variableDeclaration v ds) → v ≠ .var → e ∈ ds →
    t.kind? e = some (.variableDeclarator target init) → t.Binds target x → t.InScope d b →
    Introduces d b x
  | hoisted {d e target b c : NodeId} {ds : List NodeId} {init : Option NodeId} {x : String} :
    t.kind? d = some (.variableDeclaration .var ds) → e ∈ ds →
    t.kind? e = some (.variableDeclarator target init) → t.Binds target x → t.InScope d b →
    t.HoistsTo b c → Introduces d c x
  | imported {d e l source b : NodeId} {es : List NodeId} {i? : Option NodeId}
    {declared : Option ValueType} {x : String} :
    t.kind? d = some (.importDeclaration es source) → e ∈ es → t.Imports e l i? →
    t.kind? l = some (.identifier x declared) → t.InScope d b → Introduces d b x

/-- The scope of `b` declares the name. -/
def Declares (b : NodeId) (x : String) : Prop := ∃ d, t.Reachable d ∧ t.Introduces d b x

/-- From the scope of `b` outward, the first scope that declares the name is that of `c`. -/
inductive Resolves : NodeId → String → NodeId → Prop
  | here {b : NodeId} {x : String} : t.Declares b x → Resolves b x b
  | outer {b b' c : NodeId} {x : String} :
    ¬ t.Declares b x → t.InScope b b' → Resolves b' x c → Resolves b x c

/-! ## Uses -/

/-- The node is an identifier that is read as a value. -/
def Reads (n : NodeId) (x : String) : Prop :=
  (∃ declared, t.kind? n = some (.identifier x declared)) ∧
    ∃ pos p k f, pos.parent? = some p ∧ pos.field? = some f ∧ t.occupant? pos = some n ∧
      t.Reachable p ∧ t.kind? p = some k ∧ k.readsField f = true

/-- The node is an assignment or an update that writes to the variable. -/
inductive Assigns : NodeId → String → Prop
  | assignment {n left right : NodeId} {op : AssignmentOperator} {x : String} :
    t.kind? n = some (.assignmentExpression op left right) → t.Binds left x → Assigns n x
  | update {n argument : NodeId} {op : UpdateOperator} {before : Bool}
    {declared : Option ValueType} {x : String} :
    t.kind? n = some (.updateExpression op argument before) →
    t.kind? argument = some (.identifier x declared) → Assigns n x

/-- The node is a loop over keys or values that writes each of them to the variable. -/
inductive Iterates : NodeId → String → Prop
  | keys {n left right body : NodeId} {x : String} :
    t.kind? n = some (.forInStatement left right body) → t.Binds left x → Iterates n x
  | values {n left right body : NodeId} {x : String} :
    t.kind? n = some (.forOfStatement left right body) → t.Binds left x → Iterates n x

/-! ## Scopes are unique -/

variable {t}

/-- A node is in one scope. -/
theorem IsProgram.inScope_unique (h : t.IsProgram) {n b b' : NodeId} (hb : t.InScope n b)
    (hb' : t.InScope n b') : b = b' := by
  induction hb with
  | here hp hc ho =>
    cases hb' with
    | here hp' hc' _ => exact h.forest.parent_unique hp hp' hc hc'
    | up hp' hc' ho' _ =>
      obtain rfl := h.forest.parent_unique hp hp' hc hc'
      exact absurd ho ho'
  | up hp hc ho _ ih =>
    cases hb' with
    | here hp' hc' ho' =>
      obtain rfl := h.forest.parent_unique hp hp' hc hc'
      exact absurd ho' ho
    | up hp' hc' _ hb' =>
      obtain rfl := h.forest.parent_unique hp hp' hc hc'
      exact ih hb'

theorem IsProgram.hoistsTo_unique (h : t.IsProgram) {b c c' : NodeId} (hc : t.HoistsTo b c)
    (hc' : t.HoistsTo b c') : c = c' := by
  induction hc with
  | here ho =>
    cases hc' with
    | here => rfl
    | outer hno _ _ => exact absurd ho hno
  | outer hno hb _ ih =>
    cases hc' with
    | here ho => exact absurd ho hno
    | outer _ hb' hc' =>
      obtain rfl := h.inScope_unique hb hb'
      exact ih hc'

end Espalier.Tree
