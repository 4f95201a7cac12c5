import Espalier.Syntax.Printer
import Espalier.Proofs.Forest
import Espalier.Proofs.Grammar

set_option autoImplicit false

/-! # Printed expressions are read back

The printer puts an expression in parentheses where it holds together less tightly than its place
asks for. `Expr.tokens` says so for expressions, `Tree.printed` that these are the tokens that the
printer prints, and `Tree.Shows.derives_phrase` that the grammar reads them as the same expression;
together they are `printed_reads_back`. -/

namespace Espalier

/-! ## The tokens of an expression -/

namespace Expr

/-- Is there a call in the chain of accesses that the expression ends? -/
def calls : Expr → Bool
  | .call .. => true
  | .access e _ | .index e _ => e.calls
  | _ => false

/-- How tightly an expression holds together; a chain with calls does not stand behind `new`. -/
def level : Expr → Nat
  | .sequence _ => 1
  | .assign .. => 2
  | .conditional .. => 3
  | .operation o _ _ => o.precedence + 3
  | e => if e.calls then tightest + 3 else tightest + 4

/-- The tokens of the expression, in parentheses if it has to hold together more tightly. -/
def enclose (e : Expr) (level : Nat) (ts : List Token) : List Token :=
  if level ≤ e.level then ts else .open :: ts ++ [.close]

end Expr

mutual

/-- The tokens of an expression that stands alone. -/
def Expr.tokens : Expr → List Token
  | .name x => [.name x]
  | .operation o l r =>
    l.enclose (o.leftLevel + 3) l.tokens ++ .operator o :: r.enclose (o.rightLevel + 3) r.tokens
  | .conditional c a b =>
    c.enclose 4 c.tokens ++ .question :: a.enclose 2 a.tokens ++ .colon :: b.enclose 2 b.tokens
  | .assign o l r =>
    l.enclose (tightest + 3) l.tokens ++ .assign o :: r.enclose 2 r.tokens
  | .sequence es => itemTokens es
  | .call e es => e.enclose (tightest + 3) e.tokens ++ (.open :: itemTokens es ++ [.close])
  | .new e es => .new :: e.enclose (tightest + 4) e.tokens ++ (.open :: itemTokens es ++ [.close])
  | .access e x => e.enclose (tightest + 3) e.tokens ++ [.dot, .name x]
  | .index e p =>
    e.enclose (tightest + 3) e.tokens ++ .openIndex :: p.enclose 2 p.tokens ++ [.closeIndex]

/-- The tokens of expressions between commas. -/
def itemTokens : List Expr → List Token
  | [] => []
  | e :: es =>
    match es with
    | [] => e.enclose 2 e.tokens
    | _ :: _ => e.enclose 2 e.tokens ++ .comma :: itemTokens es

end

/-- Induction on expressions, with all members of a list at once. -/
theorem Expr.induction {P : Expr → Prop} (name : ∀ x, P (.name x))
    (operation : ∀ o l r, P l → P r → P (.operation o l r))
    (conditional : ∀ c a b, P c → P a → P b → P (.conditional c a b))
    (assign : ∀ o l r, P l → P r → P (.assign o l r))
    (sequence : ∀ es, (∀ e ∈ es, P e) → P (.sequence es))
    (call : ∀ e es, P e → (∀ e ∈ es, P e) → P (.call e es))
    (new : ∀ e es, P e → (∀ e ∈ es, P e) → P (.new e es))
    (access : ∀ e x, P e → P (.access e x)) (index : ∀ e p, P e → P p → P (.index e p)) (e : Expr) :
    P e :=
  @Expr.rec P (fun es => ∀ e ∈ es, P e) name (fun o l r hl hr => operation o l r hl hr)
    (fun c a b hc ha hb => conditional c a b hc ha hb) (fun o l r hl hr => assign o l r hl hr)
    (fun es hes => sequence es hes) (fun e es he hes => call e es he hes)
    (fun e es he hes => new e es he hes) (fun e x he => access e x he)
    (fun e p he hp => index e p he hp) (by simp)
    (fun e es he hes e' he' => by
      rcases List.mem_cons.mp he' with rfl | he'
      · exact he
      · exact hes e' he') e

/-! ## Trees that show an expression -/

/-- The kind of a node with an operator. -/
def Operator.kind (o : Operator) (left right : NodeId) : NodeKind :=
  match o with
  | .binary o => .binaryExpression o left right
  | .logical o => .logicalExpression o left right

/-- The node is of the given kind and has no comments around it. -/
def Tree.Bare (t : Tree) (n : NodeId) (k : NodeKind) : Prop :=
  ∃ node, t.node? n = some node ∧ node.kind = k ∧ node.leading = [] ∧ node.trailing = []

/-- The expression is a name or an access. -/
def Expr.isTarget : Expr → Bool
  | .name _ | .access .. | .index .. => true
  | _ => false

/-- The node and the nodes below it are an expression. -/
inductive Tree.Shows (t : Tree) : NodeId → Expr → Prop
  | name {n : NodeId} {x : String} : t.Bare n (.identifier x none) → Shows t n (.name x)
  | operation {n i j : NodeId} {o : Operator} {l r : Expr} : t.Bare n (o.kind i j) →
    Shows t i l → Shows t j r → Shows t n (.operation o l r)
  | conditional {n i j m : NodeId} {c a b : Expr} : t.Bare n (.conditionalExpression i j m) →
    Shows t i c → Shows t j a → Shows t m b → Shows t n (.conditional c a b)
  | assign {n i j : NodeId} {o : AssignmentOperator} {l r : Expr} :
    t.Bare n (.assignmentExpression o i j) → l.isTarget = true → Shows t i l → Shows t j r →
      Shows t n (.assign o l r)
  | sequence {n : NodeId} {ids : List NodeId} {es : List Expr} :
    t.Bare n (.sequenceExpression ids) → 2 ≤ ids.length → List.Forall₂ (Shows t) ids es →
      Shows t n (.sequence es)
  | call {n i : NodeId} {ids : List NodeId} {e : Expr} {es : List Expr} :
    t.Bare n (.callExpression i ids) → Shows t i e → List.Forall₂ (Shows t) ids es →
      Shows t n (.call e es)
  | new {n i : NodeId} {ids : List NodeId} {e : Expr} {es : List Expr} :
    t.Bare n (.newExpression i ids) → Shows t i e → List.Forall₂ (Shows t) ids es →
      Shows t n (.new e es)
  | access {n i j : NodeId} {e : Expr} {x : String} : t.Bare n (.memberExpression i j false) →
    Shows t i e → t.Bare j (.identifier x none) → Shows t n (.access e x)
  | index {n i j : NodeId} {e p : Expr} : t.Bare n (.memberExpression i j true) →
    Shows t i e → Shows t j p → Shows t n (.index e p)

/-! ## The tokens are read back -/

/-- The phrase that an expression is by its own form. -/
def Expr.phrase : Expr → Phrase
  | .sequence _ => .expression
  | .assign .. => .assignment
  | .conditional .. => .conditional
  | .operation o _ _ => .operand o.precedence
  | e => .chain e.calls

section Levels

attribute [local simp] Expr.level

theorem Expr.level_pos (e : Expr) : 1 ≤ e.level := by
  cases e with
  | sequence | assign | conditional | operation => simp
  | name | call | new | access | index =>
    simp only [level]
    split <;> decide

/-- An expression is a chain, or it is looser than all chains. -/
theorem Expr.phrase_cases (e : Expr) : (e.phrase = .chain e.calls ∧ tightest + 3 ≤ e.level) ∨
    (e.level < tightest + 3 ∧ e.calls = false) := by
  cases e with
  | sequence | assign | conditional => exact .inr ⟨by simp [tightest], rfl⟩
  | operation o l r => exact .inr ⟨by simpa using o.precedence_lt, rfl⟩
  | name | call | new | access | index =>
    refine .inl ⟨rfl, ?_⟩
    simp only [level]
    split <;> omega

theorem Expr.not_calls_of_level {e : Expr} (h : tightest + 4 ≤ e.level) : e.calls = false := by
  cases hcalls : e.calls with
  | false => rfl
  | true => cases e <;> simp_all [calls]

/-- The target of an assignment needs no parentheses. -/
theorem Expr.enclose_of_isTarget {e : Expr} (h : e.isTarget = true) (ts : List Token) :
    e.enclose 2 ts = e.enclose (tightest + 3) ts := by
  rcases e.phrase_cases with ⟨-, hlevel⟩ | ⟨hlevel, -⟩
  · rw [enclose, enclose, if_pos hlevel, if_pos (Nat.le_trans (by decide) hlevel)]
  · cases e with
    | name | access | index =>
      simp only [level] at hlevel
      split at hlevel <;> omega
    | _ => cases h

namespace Derives

variable {ts : List Token} {e : Expr}

theorem loosen {m n : Nat} (h : Derives (.operand m) ts e) (hnm : n ≤ m) (hm : m ≤ tightest) :
    Derives (.operand n) ts e := by
  induction m with
  | zero =>
    obtain rfl : n = 0 := by omega
    exact h
  | succ m ih =>
    rcases Nat.lt_or_ge m n with hlt | hle
    · obtain rfl : n = m + 1 := by omega
      exact h
    · exact ih (.tighter (by omega) h) hle (by omega)

/-- By its own form an expression is an operand, or looser than all of them. -/
theorem operand_of_phrase (h : Derives e.phrase ts e) {n : Nat} (hn : n + 3 ≤ e.level)
    (hpos : 1 ≤ n) (hle : n ≤ tightest) : Derives (.operand n) ts e := by
  cases e with
  | sequence | assign | conditional =>
    simp only [Expr.level] at hn
    omega
  | operation o l r =>
    exact loosen h (by simpa using hn) (Nat.le_of_lt o.precedence_lt)
  | name | call | new | access | index => exact loosen (.chain h) hle (Nat.le_refl _)

theorem assignment_of_phrase (h : Derives e.phrase ts e) (hlevel : 2 ≤ e.level) :
    Derives .assignment ts e := by
  cases e with
  | sequence => simp at hlevel
  | assign => exact h
  | conditional => exact .value h
  | operation o l r =>
    exact .value (.operand (operand_of_phrase h
      (by simpa using o.precedence_pos) (Nat.le_refl _) (by decide)))
  | name | call | new | access | index =>
    exact .value (.operand (loosen (.chain h) (by decide) (Nat.le_refl _)))

theorem expression_of_phrase (h : Derives e.phrase ts e) : Derives .expression ts e := by
  cases e with
  | sequence => exact h
  | assign | conditional | operation =>
    exact .single (assignment_of_phrase h (by simp))
  | name | call | new | access | index =>
    refine .single (assignment_of_phrase h ?_)
    simp only [Expr.level]
    split <;> decide

theorem parens_of_phrase (h : Derives e.phrase ts e) :
    Derives (.chain false) (.open :: ts ++ [.close]) e := .parens (expression_of_phrase h)

theorem enclose_assignment (h : Derives e.phrase ts e) :
    Derives .assignment (e.enclose 2 ts) e := by
  unfold Expr.enclose
  split
  · next hlevel => exact assignment_of_phrase h hlevel
  · exact .value (.operand (loosen (.chain (parens_of_phrase h)) (by decide) (Nat.le_refl _)))

theorem enclose_operand (h : Derives e.phrase ts e) {n : Nat} (hpos : 1 ≤ n) (hle : n ≤ tightest) :
    Derives (.operand n) (e.enclose (n + 3) ts) e := by
  unfold Expr.enclose
  split
  · next hlevel => exact operand_of_phrase h hlevel hpos hle
  · exact loosen (.chain (parens_of_phrase h)) hle (Nat.le_refl _)

theorem enclose_chain (h : Derives e.phrase ts e) :
    Derives (.chain e.calls) (e.enclose (tightest + 3) ts) e := by
  rcases e.phrase_cases with hphrase | ⟨hlevel, hcalls⟩
  · rw [Expr.enclose, if_pos hphrase.2]
    exact hphrase.1 ▸ h
  · rw [Expr.enclose, if_neg (by omega), hcalls]
    exact parens_of_phrase h

theorem enclose_member (h : Derives e.phrase ts e) :
    Derives (.chain false) (e.enclose (tightest + 4) ts) e := by
  unfold Expr.enclose
  split
  · next hmember =>
    rcases e.phrase_cases with hphrase | ⟨hlevel, -⟩
    · have hcalls : e.calls = false := e.not_calls_of_level hmember
      rw [hphrase.1, hcalls] at h
      exact h
    · omega
  · exact parens_of_phrase h

theorem items_of_phrases {es : List Expr} (hne : es ≠ [])
    (h : ∀ e ∈ es, Derives e.phrase e.tokens e) :
    Derives .items (itemTokens es) (.sequence es) := by
  induction es with
  | nil => exact absurd rfl hne
  | cons e es ih =>
    have he := enclose_assignment (h e (by simp))
    cases es with
    | nil => exact .item he
    | cons e' es => exact .items he (ih (by simp) fun e he => h e (List.mem_cons_of_mem _ he))

theorem arguments_of_phrases {es : List Expr} (h : ∀ e ∈ es, Derives e.phrase e.tokens e) :
    Derives .arguments (.open :: itemTokens es ++ [.close]) (.sequence es) := by
  cases es with
  | nil => exact .noArguments
  | cons e es => exact .arguments (items_of_phrases (by simp) h)

end Derives

end Levels

theorem Operator.leftLevel_bounds (o : Operator) : 1 ≤ o.leftLevel ∧ o.leftLevel ≤ tightest := by
  have hpos := o.precedence_pos
  have hlt := o.precedence_lt
  unfold leftLevel
  split <;> omega

theorem Operator.rightLevel_bounds (o : Operator) : 1 ≤ o.rightLevel ∧ o.rightLevel ≤ tightest := by
  have hpos := o.precedence_pos
  have hlt := o.precedence_lt
  unfold rightLevel
  split <;> omega

/-- Everything in one of two related lists is related to something in the other one. -/
theorem exists_of_forall₂ {α β : Type} {R : α → β → Prop} {as : List α} {bs : List β}
    (h : List.Forall₂ R as bs) {b : β} (hb : b ∈ bs) : ∃ a ∈ as, R a b := by
  obtain ⟨i, hi, rfl⟩ := List.getElem_of_mem hb
  have hi' : i < as.length := h.length_eq ▸ hi
  exact ⟨as[i], List.getElem_mem hi', h.get hi' hi⟩

/-- The tokens of an expression of a tree are the phrase that it is by its own form. -/
theorem Tree.Shows.derives_phrase {t : Tree} {e : Expr} {n : NodeId} (h : t.Shows n e) :
    Derives e.phrase e.tokens e := by
  induction e using Expr.induction generalizing n with
  | name x => exact .name
  | operation o l r ihl ihr =>
    cases h with
    | operation _ hl hr =>
      rw [Expr.tokens]
      exact .operation
        ((ihl hl).enclose_operand o.leftLevel_bounds.1 o.leftLevel_bounds.2)
        ((ihr hr).enclose_operand o.rightLevel_bounds.1 o.rightLevel_bounds.2)
  | conditional c a b ihc iha ihb =>
    cases h with
    | conditional _ hc ha hb =>
      rw [Expr.tokens]
      exact .conditional ((ihc hc).enclose_operand (Nat.le_refl 1) (by decide))
        (iha ha).enclose_assignment (ihb hb).enclose_assignment
  | assign o l r ihl ihr =>
    cases h with
    | assign _ _ hl hr =>
      rw [Expr.tokens]
      exact .assignment (.chain (ihl hl).enclose_chain) (ihr hr).enclose_assignment
  | sequence es ih =>
    cases h with
    | sequence _ hlen hes =>
      have hlen' : 2 ≤ es.length := hes.length_eq ▸ hlen
      rw [Expr.tokens]
      refine .sequence (Derives.items_of_phrases ?_ fun e he => ?_) hlen'
      · rintro rfl
        simp at hlen'
      · obtain ⟨m, -, hm⟩ := exists_of_forall₂ hes he
        exact ih e he hm
  | call f es ihf ih =>
    cases h with
    | call _ hf hes =>
      rw [Expr.tokens]
      refine .call (ihf hf).enclose_chain (Derives.arguments_of_phrases fun e he => ?_)
      obtain ⟨m, -, hm⟩ := exists_of_forall₂ hes he
      exact ih e he hm
  | new f es ihf ih =>
    cases h with
    | new _ hf hes =>
      rw [Expr.tokens]
      refine .new (ihf hf).enclose_member (Derives.arguments_of_phrases fun e he => ?_)
      obtain ⟨m, -, hm⟩ := exists_of_forall₂ hes he
      exact ih e he hm
  | access e x ih =>
    cases h with
    | access _ he _ =>
      rw [Expr.tokens]
      exact .access (ih he).enclose_chain
  | index e p ihe ihp =>
    cases h with
    | index _ he hp =>
      rw [Expr.tokens]
      exact .index (ihe he).enclose_chain (.single (ihp hp).enclose_assignment)

/-! ## The text of tokens -/

/-- How a token is printed, with the blanks around it. -/
def Token.text : Token → String
  | .name x => x
  | .operator o => " " ++ o.symbol ++ " "
  | .assign o => " " ++ o.symbol ++ " "
  | .question => " ? "
  | .colon => " : "
  | .comma => ", "
  | .new => "new "
  | .open => "("
  | .close => ")"
  | .openIndex => "["
  | .closeIndex => "]"
  | .dot => "."

/-- The text of several tokens. -/
def textOf (ts : List Token) : String := String.join (ts.map Token.text)

@[simp] theorem textOf_nil : textOf [] = "" := rfl

@[simp] theorem textOf_cons (t : Token) (ts : List Token) :
    textOf (t :: ts) = t.text ++ textOf ts := by
  simp [textOf, String.join_cons]

@[simp] theorem textOf_append (ts us : List Token) :
    textOf (ts ++ us) = textOf ts ++ textOf us := by
  induction ts with
  | nil => simp
  | cons t ts ih => simp [ih, String.append_assoc]

/-- The text of an expression where it has to hold together. -/
def Expr.textAt (e : Expr) (level : Nat) : String := textOf (e.enclose level e.tokens)

theorem textAt_name (x : String) : (Expr.name x).textAt 2 = x := by
  simp [Expr.textAt, Expr.enclose, Expr.level, Expr.calls, tightest, Expr.tokens, Token.text]

theorem textOf_itemTokens (es : List Expr) :
    textOf (itemTokens es) = commas (es.map (·.textAt 2)) := by
  induction es with
  | nil => simp [itemTokens, commas]
  | cons e es ih =>
    cases es with
    | nil => simp [itemTokens, commas, Expr.textAt]
    | cons e' es =>
      rw [itemTokens, textOf_append, textOf_cons, ih]
      simp [commas, Expr.textAt, Token.text, String.append_assoc]

/-! ## Parentheses in a tree -/

/-- How tightly an expression in a field of a node has to hold together. -/
def NodeKind.asks : NodeKind → Field → Option Nat
  | .binaryExpression o _ _, .left => some ((Operator.binary o).leftLevel + 3)
  | .binaryExpression o _ _, .right => some ((Operator.binary o).rightLevel + 3)
  | .logicalExpression o _ _, .left => some ((Operator.logical o).leftLevel + 3)
  | .logicalExpression o _ _, .right => some ((Operator.logical o).rightLevel + 3)
  | .conditionalExpression .., .test => some 4
  | .conditionalExpression .., .consequent => some 2
  | .conditionalExpression .., .alternate => some 2
  | .assignmentExpression .., .left => some 2
  | .assignmentExpression .., .right => some 2
  | .sequenceExpression _, .expressions => some 2
  | .callExpression .., .callee => some (tightest + 3)
  | .callExpression .., .arguments => some 2
  | .newExpression .., .callee => some (tightest + 4)
  | .newExpression .., .arguments => some 2
  | .memberExpression .., .object => some (tightest + 3)
  | .memberExpression .., .property => some 2
  | _, _ => none

/-- Does an expression need parentheses for its own form? -/
def Expr.needsParens (e : Expr) (parent : NodeKind) (field : Option Field) : Bool :=
  match e with
  | .operation o _ _ => operatorNeedsParens parent field o.precedence (o == .power)
  | .sequence _ => !allowsBareSequence parent.type field
  | .conditional .. | .assign .. => bindsTighter parent.type field
  | _ => false

theorem Operator.operatorNeedsParens_kind (p : Operator) (i j : NodeId) (f : Field) (n : Nat)
    (isPower : Bool) : operatorNeedsParens (p.kind i j) (some f) n isPower =
      if n < p.precedence then true
      else if n = p.precedence then if isPower then f == .left else f == .right
      else false := by
  cases p <;> rfl

/-- On the left of an operator stands what binds at least as tightly, except for powers. -/
theorem Operator.operatorNeedsParens_left (o p : Operator) (i j : NodeId) :
    operatorNeedsParens (p.kind i j) (some .left) o.precedence (o == .power) =
      !decide (p.leftLevel + 3 ≤ o.precedence + 3) := by
  have ho := o.precedence_eq_iff
  have hp := p.precedence_eq_iff
  have hfield : ((some Field.left : Option Field) == some .right) = false := rfl
  rw [operatorNeedsParens_kind, leftLevel]
  grind

theorem Operator.operatorNeedsParens_right (o p : Operator) (i j : NodeId) :
    operatorNeedsParens (p.kind i j) (some .right) o.precedence (o == .power) =
      !decide (p.rightLevel + 3 ≤ o.precedence + 3) := by
  have ho := o.precedence_eq_iff
  have hp := p.precedence_eq_iff
  rw [operatorNeedsParens_kind, rightLevel]
  grind

/-- What the printer tests of a place, for each level that a place asks for. Conditionals and
assignments stand bare where nothing tighter is asked for; only behind `new` no call is allowed. -/
theorem NodeKind.place_of_asks {k : NodeKind} {f : Field} {level : Nat} (h : k.asks f = some level) :
    allowsBareSequence k.type (some f) = false ∧
    ((bindsTighter k.type (some f) = true ∧ 4 ≤ level) ∨
      (bindsTighter k.type (some f) = false ∧ level = 2)) ∧
    (((k.type = .newExpression ∧ f = .callee) ∧ level = tightest + 4) ∨
      (¬ (k.type = .newExpression ∧ f = .callee) ∧ level ≤ tightest + 3)) := by
  have hleft : ∀ o : Operator, 4 ≤ o.leftLevel + 3 ∧ o.leftLevel + 3 ≤ tightest + 3 := fun o =>
    o.leftLevel_bounds.imp (fun h => by omega) fun h => Nat.add_le_add_right h 3
  have hright : ∀ o : Operator, 4 ≤ o.rightLevel + 3 ∧ o.rightLevel + 3 ≤ tightest + 3 := fun o =>
    o.rightLevel_bounds.imp (fun h => by omega) fun h => Nat.add_le_add_right h 3
  unfold asks at h
  split at h <;> cases h <;> refine ⟨rfl, ?_, ?_⟩
  all_goals first
    | exact .inr ⟨rfl, rfl⟩
    | exact .inl ⟨rfl, by first | exact (hleft _).1 | exact (hright _).1 | decide⟩
    | exact .inl ⟨⟨rfl, rfl⟩, rfl⟩
    | exact .inr ⟨by simp [type], by first | exact (hleft _).2 | exact (hright _).2 | decide⟩

/-- The parentheses of the printer are those that the place asks for. -/
theorem NodeKind.needsParens_of_asks {k : NodeKind} {f : Field} {level : Nat}
    (h : k.asks f = some level) (e : Expr) :
    ((decide (k.type = .newExpression ∧ f = .callee) && e.calls) || e.needsParens k (some f)) =
      !decide (level ≤ e.level) := by
  obtain ⟨hbare, hbinds, hnew⟩ := place_of_asks h
  cases e with
  | operation o l r =>
    have hpos := o.precedence_pos
    have hlt := o.precedence_lt
    simp only [Expr.calls, Expr.needsParens, Expr.level, Bool.and_false, Bool.false_or]
    unfold asks at h
    split at h <;> cases h
    · exact o.operatorNeedsParens_left (.binary _) _ _
    · exact o.operatorNeedsParens_right (.binary _) _ _
    · exact o.operatorNeedsParens_left (.logical _) _ _
    · exact o.operatorNeedsParens_right (.logical _) _ _
    all_goals
      simp only [operatorNeedsParens, NodeKind.type]
      simp
      try omega
  | sequence es =>
    have hlevel : ¬ level ≤ 1 := by omega
    simp [Expr.calls, Expr.needsParens, Expr.level, hbare, hlevel]
  | conditional | assign =>
    rcases hbinds with ⟨hbinds, hlevel⟩ | ⟨hbinds, rfl⟩
    · have hthree : ¬ level ≤ 3 := by omega
      have htwo : ¬ level ≤ 2 := by omega
      simp [Expr.calls, Expr.needsParens, Expr.level, hbinds, hthree, htwo]
    · simp [Expr.calls, Expr.needsParens, Expr.level, hbinds]
  | name | call | new | access | index =>
    rcases hnew with ⟨hnew, rfl⟩ | ⟨hnew, hlevel⟩
    · simp only [hnew, Expr.needsParens, Expr.level]
      split <;> simp_all
    · simp only [hnew, Expr.needsParens, Expr.level]
      split <;> simp <;> omega

/-! ## The printer -/

namespace Tree

variable {t : Tree} {n : NodeId} {e : Expr}

theorem Bare.kind {k : NodeKind} (h : t.Bare n k) : t.kind? n = some k := by
  obtain ⟨node, hnode, rfl, -⟩ := h
  simp [kind?, hnode]

theorem Bare.type {k : NodeKind} (h : t.Bare n k) : t.type? n = some k.type := by
  obtain ⟨node, hnode, rfl, -⟩ := h
  simp [type?, hnode, Node.type]

/-- What stands in a field of a node is a child. -/
theorem mem_children {k : NodeKind} {f : Field} {c : Child} {m : NodeId} (hf : (f, c) ∈ k.fields)
    (hm : m ∈ c.ids) : m ∈ k.children := List.mem_flatMap.mpr ⟨(f, c), hf, hm⟩

/-- The children of a node of limited depth are less deep. -/
theorem DepthWithin.below_kind {d : Nat} {k : NodeKind} (h : t.DepthWithin d n)
    (hk : t.kind? n = some k) : ∃ d', d = d' + 1 ∧ ∀ m ∈ k.children, t.DepthWithin d' m := by
  cases d with
  | zero => exact h.elim
  | succ d =>
    obtain ⟨k', hk', hall⟩ := h
    obtain rfl : k' = k := Option.some.inj (hk'.symm.trans hk)
    exact ⟨d, rfl, hall⟩

/-- The search for calls follows the accesses. -/
theorem Shows.hasCallWithin (h : t.Shows n e) {d : Nat} (hd : t.DepthWithin d n) :
    t.hasCallWithin d n = some e.calls := by
  induction e using Expr.induction generalizing n d with
  | access e x ih =>
    cases h with
    | access hn he _ =>
      obtain ⟨d', rfl, hbelow⟩ := hd.below_kind hn.kind
      simpa [Tree.hasCallWithin, hn.kind, Expr.calls] using
        ih he (hbelow _ (by simp [NodeKind.children, NodeKind.fields, Child.ids]))
  | index e p ih =>
    cases h with
    | index hn he _ =>
      obtain ⟨d', rfl, hbelow⟩ := hd.below_kind hn.kind
      simpa [Tree.hasCallWithin, hn.kind, Expr.calls] using
        ih he (hbelow _ (by simp [NodeKind.children, NodeKind.fields, Child.ids]))
  | operation o l r =>
    cases h with
    | operation hn =>
      obtain ⟨d', rfl, -⟩ := hd.below_kind hn.kind
      cases o <;> simp [Tree.hasCallWithin, hn.kind, Operator.kind, Expr.calls]
  | _ =>
    cases h with
    | _ hn =>
      obtain ⟨d', rfl, -⟩ := hd.below_kind hn.kind
      simp [Tree.hasCallWithin, hn.kind, Expr.calls]

theorem Shows.kindNeedsParens (h : t.Shows n e) (above : List NodeId) (k : NodeKind)
    (f : Option Field) : t.kindNeedsParens? n above k f = some (e.needsParens k f) := by
  unfold kindNeedsParens?
  cases h with
  | @operation _ i j o l r hn _ _ =>
    rw [hn.kind]
    cases o with
    | binary o =>
      have hpower : (Operator.binary o == .power) = (o == .power) := by cases o <;> rfl
      simp [Operator.kind, Expr.needsParens, Operator.precedence, hpower]
    | logical o => rfl
  | assign hn htarget hl =>
    -- The target is no pattern, so only the place matters.
    obtain ⟨type, htype, hpattern⟩ : ∃ type, t.type? _ = some type ∧ type ≠ .objectPattern := by
      cases hl with
      | name hm | access hm | index hm => exact ⟨_, hm.type, by simp [NodeKind.type]⟩
      | _ => cases htarget
    simp [hn.kind, htype, Expr.needsParens, hpattern]
  | name hn | conditional hn | sequence hn | call hn | new hn | access hn | index hn =>
    simp [hn.kind, Expr.needsParens]

/-- Whether the printer puts parentheses around an expression, when it stands in a field. -/
theorem Shows.needsParens (h : t.Shows n e) (hd : t.DepthWithin t.size n) {p : NodeId}
    {k : NodeKind} {f : Field} {level : Nat} (hk : t.kind? p = some k)
    (hf : t.fieldOf? p n = some (some f)) (hlevel : k.asks f = some level) (above : List NodeId) :
    t.needsParens? n (p :: above) = some (!decide (level ≤ e.level)) := by
  have hcalls : t.hasCallWithin t.depthBound n = some e.calls :=
    h.hasCallWithin (hd.mono (by unfold depthBound; omega))
  rw [← NodeKind.needsParens_of_asks hlevel e]
  simp only [needsParens?, hf, hk, hcalls, h.kindNeedsParens, Option.bind_eq_bind, Option.bind_some,
    Option.some.injEq]
  by_cases hnew : k.type = .newExpression ∧ f = .callee
  · cases hc : e.calls <;> simp [hnew]
  · simp [hnew]

end Tree

/-! ### Fields -/

namespace Tree

variable {t : Tree}

/-- In a forest, the field of a node is found. -/
theorem Forest.fieldOf {K : Set NodeId} (hF : t.Forest K) {p n : NodeId} {k : NodeKind} {f : Field}
    {c : Child} (hp : p ∈ K) (hk : t.kind? p = some k) (hf : (f, c) ∈ k.fields) (hn : n ∈ c.ids) :
    t.fieldOf? p n = some (some f) := by
  simp only [fieldOf?, hk, Option.bind_eq_bind, Option.bind_some, Option.some.injEq]
  cases hfound : k.fields.find? fun e => decide (n ∈ e.2.ids) with
  | none => exact absurd hn (by simpa using List.find?_eq_none.mp hfound (f, c) hf)
  | some found =>
    obtain ⟨f', c'⟩ := found
    have hn' : n ∈ c'.ids := by simpa using List.find?_some hfound
    obtain ⟨pos, hpos, hfield, hocc⟩ := exists_position hk hf hn
    obtain ⟨pos', hpos', hfield', hocc'⟩ :=
      exists_position hk (List.mem_of_find?_eq_some hfound) hn'
    -- The node stands at one position only.
    obtain rfl := hF.single pos pos' n (Position.within_of_parent hpos hp)
      (Position.within_of_parent hpos' hp) hocc hocc'
    simpa using hfield'.symm.trans hfield

/-! ### Texts -/

/-- The node stands below the nodes `above`, where an expression has to hold together to the given
degree. -/
inductive Placed (t : Tree) : List NodeId → NodeId → Nat → Prop
  | alone {n : NodeId} : Placed t [] n 1
  | child {p n : NodeId} {above : List NodeId} {k : NodeKind} {f : Field} {level : Nat} :
    t.kind? p = some k → t.fieldOf? p n = some (some f) → k.asks f = some level →
      Placed t (p :: above) n level

variable {n : NodeId} {e : Expr} {above : List NodeId} {level : Nat} {K : Set NodeId}

theorem Placed.needsParens (hp : t.Placed above n level) (h : t.Shows n e)
    (hd : t.DepthWithin t.size n) :
    t.needsParens? n above = some (!decide (level ≤ e.level)) := by
  cases hp with
  | alone => simp [needsParens?, e.level_pos]
  | child hk hf hlevel => exact h.needsParens hd hk hf hlevel _

theorem Placed.inForHead (hp : t.Placed above n level) : ∃ b, t.inForHead? n above = some b := by
  cases hp with
  | alone => exact ⟨false, rfl⟩
  | child hk =>
    simp only [inForHead?, hk, Option.bind_eq_bind, Option.bind_some]
    exact ⟨_, rfl⟩

/-- The text of a node is what is rendered, in the parentheses that its place asks for. -/
theorem Placed.print (hp : t.Placed above n level) (h : t.Shows n e)
    (hsize : t.DepthWithin t.size n) {k : NodeKind} (hn : t.Bare n k) {d : Nat}
    (hrender : ∀ b, renderKind (t.printWithin d (n :: above)) t b k = some (textOf e.tokens)) :
    t.printWithin (d + 1) above n = some (e.textAt level) := by
  obtain ⟨node, hnode, rfl, hleading, htrailing⟩ := hn
  obtain ⟨b, hb⟩ := hp.inForHead
  simp only [printWithin, hnode, hp.needsParens h hsize, hb, hrender, Option.bind_eq_bind,
    Option.bind_some, Option.some.injEq]
  simp only [Node.withComments, hleading, htrailing, List.map_nil, Expr.textAt, Expr.enclose]
  by_cases hlevel : level ≤ e.level
  · simp [hlevel]
  · simp [hlevel, Token.text, String.append_assoc]

theorem printAll_eq {print : NodeId → Option String} {ids : List NodeId} {es : List Expr}
    (h : List.Forall₂ t.Shows ids es)
    (hprint : ∀ m ∈ ids, ∀ e ∈ es, t.Shows m e → print m = some (e.textAt 2)) :
    printAll print ids = some (es.map (·.textAt 2)) := by
  induction h with
  | nil => rfl
  | @cons m e ids es hm _ ih =>
    have hrest := ih fun m hm e he => hprint m (by simp [hm]) e (by simp [he])
    rw [printAll] at hrest ⊢
    simp [hprint m (by simp) e (by simp) hm, hrest]

/-- Wherever a node of the forest shows the expression, the printer prints its tokens. -/
def Printed (t : Tree) (K : Set NodeId) (e : Expr) : Prop :=
  ∀ n d above level, t.Shows n e → n ∈ K → t.DepthWithin d n → t.Placed above n level →
    t.printWithin d above n = some (e.textAt level)

/-- An expression in a field of a node is printed as the field asks for. -/
theorem Printed.child (ih : t.Printed K e) (hF : t.Forest K) (hn : n ∈ K) {d : Nat} {k : NodeKind}
    (hk : t.kind? n = some k) (hd : ∀ m ∈ k.children, t.DepthWithin d m) (above : List NodeId)
    {m : NodeId} (h : t.Shows m e) (f : Field) {c : Child} (hf : (f, c) ∈ k.fields) (hm : m ∈ c.ids)
    (hlevel : k.asks f = some level) :
    t.printWithin d (n :: above) m = some (e.textAt level) := by
  have hmem : m ∈ k.children := mem_children hf hm
  exact ih m d (n :: above) level h (hF.closed_child hn ((t.isChild_iff n m).mpr ⟨k, hk, hmem⟩))
    (hd m hmem) (.child hk (hF.fieldOf hn hk hf hm) hlevel)

theorem printed_name (hF : t.Forest K) (x : String) : t.Printed K (.name x) := by
  intro n d above level h hn hd hp
  cases h with
  | name hb =>
    obtain ⟨d, rfl, -⟩ := hd.below_kind hb.kind
    refine hp.print (.name hb) (hF.depthWithin hn) hb fun b => ?_
    simp [renderKind, Expr.tokens, Token.text]

theorem printed (hF : t.Forest K) (e : Expr) : t.Printed K e := by
  induction e using Expr.induction with
  | name x => exact printed_name hF x
  | operation o l r ihl ihr =>
    intro n d above level h hn hd hp
    cases h with
    | operation hb hl hr =>
      obtain ⟨d, rfl, hbelow⟩ := hd.below_kind hb.kind
      refine hp.print (.operation hb hl hr) (hF.depthWithin hn) hb fun b => ?_
      cases o with
      | binary o | logical o =>
        have hi := ihl.child hF hn hb.kind hbelow above hl .left (.head _) (.head _) rfl
        have hj := ihr.child hF hn hb.kind hbelow above hr .right (.tail _ (.head _)) (.head _) rfl
        simp [Operator.kind, renderKind, renderOperator, hi, hj, Expr.tokens, Expr.textAt,
          Token.text, Operator.symbol, String.append_assoc]
  | conditional c a b ihc iha ihb =>
    intro n d above level h hn hd hp
    cases h with
    | conditional hk hc ha hb =>
      obtain ⟨d, rfl, hbelow⟩ := hd.below_kind hk.kind
      refine hp.print (.conditional hk hc ha hb) (hF.depthWithin hn) hk fun _ => ?_
      have hi := ihc.child hF hn hk.kind hbelow above hc .test (.head _) (.head _) rfl
      have hj := iha.child hF hn hk.kind hbelow above ha .consequent (.tail _ (.head _))
        (.head _) rfl
      have hm := ihb.child hF hn hk.kind hbelow above hb .alternate (.tail _ (.tail _ (.head _)))
        (.head _) rfl
      simp [renderKind, hi, hj, hm, Expr.tokens, Expr.textAt, Token.text, String.append_assoc]
  | assign o l r ihl ihr =>
    intro n d above level h hn hd hp
    cases h with
    | assign hb htarget hl hr =>
      obtain ⟨d, rfl, hbelow⟩ := hd.below_kind hb.kind
      refine hp.print (.assign hb htarget hl hr) (hF.depthWithin hn) hb fun b => ?_
      have hi := ihl.child hF hn hb.kind hbelow above hl .left (.head _) (.head _) rfl
      have hj := ihr.child hF hn hb.kind hbelow above hr .right (.tail _ (.head _)) (.head _) rfl
      simp [renderKind, renderOperator, hi, hj, Expr.tokens, Expr.textAt, Token.text,
        String.append_assoc, l.enclose_of_isTarget htarget]
  | sequence es ih =>
    intro n d above level h hn hd hp
    cases h with
    | sequence hb hlen hes =>
      obtain ⟨d, rfl, hbelow⟩ := hd.below_kind hb.kind
      refine hp.print (.sequence hb hlen hes) (hF.depthWithin hn) hb fun b => ?_
      have hall := t.printAll_eq hes fun m hm e he h =>
        (ih e he).child hF hn hb.kind hbelow above h .expressions (.head _) hm rfl
      simp [renderKind, hall, Expr.tokens, textOf_itemTokens]
  | call f es ihf ih =>
    intro n d above level h hn hd hp
    cases h with
    | call hb hf hes =>
      obtain ⟨d, rfl, hbelow⟩ := hd.below_kind hb.kind
      refine hp.print (.call hb hf hes) (hF.depthWithin hn) hb fun b => ?_
      have hi := ihf.child hF hn hb.kind hbelow above hf .callee (.head _) (.head _) rfl
      have hall := t.printAll_eq hes fun m hm e he h =>
        (ih e he).child hF hn hb.kind hbelow above h .arguments (.tail _ (.head _)) hm rfl
      simp [renderKind, hi, hall, Expr.tokens, textOf_itemTokens, Expr.textAt, Token.text,
        String.append_assoc]
  | new f es ihf ih =>
    intro n d above level h hn hd hp
    cases h with
    | new hb hf hes =>
      obtain ⟨d, rfl, hbelow⟩ := hd.below_kind hb.kind
      refine hp.print (.new hb hf hes) (hF.depthWithin hn) hb fun b => ?_
      have hi := ihf.child hF hn hb.kind hbelow above hf .callee (.head _) (.head _) rfl
      have hall := t.printAll_eq hes fun m hm e he h =>
        (ih e he).child hF hn hb.kind hbelow above h .arguments (.tail _ (.head _)) hm rfl
      simp [renderKind, hi, hall, Expr.tokens, textOf_itemTokens, Expr.textAt, Token.text,
        String.append_assoc]
  | access e x ih =>
    intro n d above level h hn hd hp
    cases h with
    | access hb he hx =>
      obtain ⟨d, rfl, hbelow⟩ := hd.below_kind hb.kind
      refine hp.print (.access hb he hx) (hF.depthWithin hn) hb fun b => ?_
      have hi := ih.child hF hn hb.kind hbelow above he .object (.head _) (.head _) rfl
      have hj := (printed_name hF x).child hF hn hb.kind hbelow above (.name hx) .property
        (.tail _ (.head _)) (.head _) rfl
      rw [textAt_name] at hj
      simp [renderKind, hi, hj, Expr.tokens, Expr.textAt, Token.text, String.append_assoc]
  | index e p ihe ihp =>
    intro n d above level h hn hd hp
    cases h with
    | index hb he hp' =>
      obtain ⟨d, rfl, hbelow⟩ := hd.below_kind hb.kind
      refine hp.print (.index hb he hp') (hF.depthWithin hn) hb fun b => ?_
      have hi := ihe.child hF hn hb.kind hbelow above he .object (.head _) (.head _) rfl
      have hj := ihp.child hF hn hb.kind hbelow above hp' .property (.tail _ (.head _))
        (.head _) rfl
      simp [renderKind, hi, hj, Expr.tokens, Expr.textAt, Token.text, String.append_assoc]

end Tree

/-- The printer and the grammar agree. In a forest, the text of an expression is that of its tokens,
the grammar reads these as the expression and as nothing else, and no other expression has the same
tokens. -/
theorem printed_reads_back {t : Tree} {K : Set NodeId} (hF : t.Forest K) {n : NodeId} (hn : n ∈ K)
    {e : Expr} (h : t.Shows n e) :
    t.nodeText? n = some (textOf e.tokens) ∧ (∀ e', Derives .expression e.tokens e' ↔ e' = e) ∧
      ∀ (t' : Tree) (n' : NodeId) (e' : Expr), t'.Shows n' e' → e'.tokens = e.tokens → e' = e := by
  have hd : t.DepthWithin t.depthBound n :=
    (hF.depthWithin hn).mono (by unfold Tree.depthBound; omega)
  have htext := t.printed hF e n t.depthBound [] 1 h hn hd .alone
  rw [Expr.textAt, Expr.enclose, if_pos e.level_pos] at htext
  have hderives : Derives .expression e.tokens e := h.derives_phrase.expression_of_phrase
  refine ⟨htext, fun e' => ⟨fun h' => h'.unique hderives, fun h' => h' ▸ hderives⟩,
    fun t' n' e' h' htokens => ?_⟩
  have hderives' := h'.derives_phrase.expression_of_phrase
  rw [htokens] at hderives'
  exact hderives'.unique hderives

/-- The program `new (f(x).g)((a, b)) * (p = q ? r : s);`. -/
def parensProgram : Tree where
  nodes := #[{ kind := .identifier "f" none }, { kind := .identifier "x" none },
    { kind := .callExpression ⟨0⟩ [⟨1⟩] }, { kind := .identifier "g" none },
    { kind := .memberExpression ⟨2⟩ ⟨3⟩ false }, { kind := .identifier "a" none },
    { kind := .identifier "b" none }, { kind := .sequenceExpression [⟨5⟩, ⟨6⟩] },
    { kind := .newExpression ⟨4⟩ [⟨7⟩] }, { kind := .identifier "p" none },
    { kind := .identifier "q" none }, { kind := .identifier "r" none },
    { kind := .identifier "s" none }, { kind := .conditionalExpression ⟨10⟩ ⟨11⟩ ⟨12⟩ },
    { kind := .assignmentExpression .assign ⟨9⟩ ⟨13⟩ },
    { kind := .binaryExpression .multiply ⟨8⟩ ⟨14⟩ }, { kind := .expressionStatement ⟨15⟩ },
    { kind := .program [⟨16⟩] [] }]
  root := some ⟨17⟩

theorem parensProgram_isProgram : parensProgram.IsProgram :=
  .of_bottomUp (by decide) (by decide) (by decide) (by decide)

/-- The expression of the program. -/
def parensExpr : Expr :=
  .operation (.binary .multiply)
    (.new (.access (.call (.name "f") [.name "x"]) "g") [.sequence [.name "a", .name "b"]])
    (.assign .assign (.name "p") (.conditional (.name "q") (.name "r") (.name "s")))

theorem parensProgram_shows : parensProgram.Shows ⟨15⟩ parensExpr := by
  have hname : ∀ i x, parensProgram.node? i = some { kind := .identifier x none } →
      parensProgram.Shows i (.name x) := fun i x h => .name ⟨_, h, rfl, rfl, rfl⟩
  have hcall : parensProgram.Shows ⟨2⟩ (.call (.name "f") [.name "x"]) :=
    .call ⟨_, rfl, rfl, rfl, rfl⟩ (hname _ _ rfl) (.cons (hname _ _ rfl) .nil)
  have hsequence : parensProgram.Shows ⟨7⟩ (.sequence [.name "a", .name "b"]) :=
    .sequence ⟨_, rfl, rfl, rfl, rfl⟩ (by decide)
      (.cons (hname _ _ rfl) (.cons (hname _ _ rfl) .nil))
  have hchoice : parensProgram.Shows ⟨13⟩ (.conditional (.name "q") (.name "r") (.name "s")) :=
    .conditional ⟨_, rfl, rfl, rfl, rfl⟩ (hname _ _ rfl) (hname _ _ rfl) (hname _ _ rfl)
  refine .operation ⟨_, rfl, rfl, rfl, rfl⟩ (.new ⟨_, rfl, rfl, rfl, rfl⟩ ?_ (.cons hsequence .nil))
    (.assign ⟨_, rfl, rfl, rfl, rfl⟩ rfl (hname _ _ rfl) hchoice)
  exact .access ⟨_, rfl, rfl, rfl, rfl⟩ hcall ⟨_, rfl, rfl, rfl, rfl⟩

theorem parensProgram_reads_back : parensProgram.IsProgram ∧
    parensProgram.nodeText? ⟨15⟩ = some "new (f(x).g)((a, b)) * (p = q ? r : s)" ∧
      ∀ e', Derives .expression parensExpr.tokens e' ↔ e' = parensExpr := by
  have hroot : parensProgram.Reachable ⟨17⟩ := .root rfl
  have hstatement : parensProgram.Reachable ⟨16⟩ := .child hroot ⟨.item ⟨17⟩ .body 0, rfl, rfl⟩
  have hexpr : parensProgram.Reachable ⟨15⟩ := .child hstatement ⟨.slot ⟨16⟩ .expression, rfl, rfl⟩
  obtain ⟨htext, hreads, -⟩ :=
    printed_reads_back parensProgram_isProgram.forest hexpr parensProgram_shows
  exact ⟨parensProgram_isProgram, htext.trans (congrArg some (by decide)), hreads⟩

end Espalier
