import Espalier.Proofs.Copies
import Espalier.Proofs.Printing
import Espalier.Proofs.Separation

set_option autoImplicit false

/-! # Printed statements are told apart

The printer writes a statement of blocks, `if`, and expressions of names, calls and operators with
one operand as its text (`Tree.Says.nodeText?`). Printed texts are therefore told apart where the
three rules of separation are kept (`separated_text_injective`). The printer does not keep them by
itself: a sign before its like is printed as the operator that changes its operand
(`minusProgram_confused`). -/

namespace Espalier

/-! ## What the printer prints -/

namespace Tree

/-- The node and the nodes below it are an expression of names, operators and calls, without
comments. -/
inductive Writes (t : Tree) : NodeId → Term → Prop
  | name {n : NodeId} {x : PlainName} : t.Bare n (.identifier x.1 none) → Writes t n (.name x)
  | unary {n i : NodeId} {o : UnaryOperator} {e : Term} : t.Bare n (.unaryExpression o i) →
    Writes t i e → Writes t n (.unary o e)
  | update {n i : NodeId} {o : UpdateOperator} {before : Bool} {e : Term} :
    t.Bare n (.updateExpression o i before) → Writes t i e → Writes t n (.update o before e)
  | call {n i : NodeId} {ids : List NodeId} {e : Term} {es : List Term} :
    t.Bare n (.callExpression i ids) → Writes t i e → List.Forall₂ (Writes t) ids es →
      Writes t n (.call e es)

/-- The node and the nodes below it are a statement of blocks, `if` and expressions, without
comments. -/
inductive Says (t : Tree) : NodeId → Clause → Prop
  | block {n : NodeId} {ids : List NodeId} {ss : List Clause} : t.Bare n (.blockStatement ids) →
    List.Forall₂ (Says t) ids ss → Says t n (.block ss)
  | choice {n i j : NodeId} {e : Term} {s : Clause} : t.Bare n (.ifStatement i j none) →
    t.Writes i e → Says t j s → Says t n (.choice e s)
  | choiceElse {n i j m : NodeId} {e : Term} {s s' : Clause} :
    t.Bare n (.ifStatement i j (some m)) → t.Writes i e → Says t j s → Says t m s' →
      Says t n (.choiceElse e s s')
  | expression {n i : NodeId} {e : Term} : t.Bare n (.expressionStatement i) → t.Writes i e →
    Says t n (.expression e)

variable {t : Tree} {n : NodeId} {k : NodeKind} {above : List NodeId}

/-! ### Children -/

@[simp]
theorem children_unaryExpression (o : UnaryOperator) (i : NodeId) :
    (NodeKind.unaryExpression o i).children = [i] := rfl

@[simp]
theorem children_updateExpression (o : UpdateOperator) (i : NodeId) (before : Bool) :
    (NodeKind.updateExpression o i before).children = [i] := rfl

@[simp]
theorem children_callExpression (i : NodeId) (ids : List NodeId) :
    (NodeKind.callExpression i ids).children = i :: ids := by
  simp [NodeKind.children, NodeKind.fields, Child.ids]

@[simp]
theorem children_blockStatement (ids : List NodeId) :
    (NodeKind.blockStatement ids).children = ids := by
  simp [NodeKind.children, NodeKind.fields, Child.ids]

@[simp]
theorem children_ifStatement (i j : NodeId) (m : Option NodeId) :
    (NodeKind.ifStatement i j m).children = i :: j :: m.toList := by
  cases m <;> rfl

@[simp]
theorem children_expressionStatement (i : NodeId) :
    (NodeKind.expressionStatement i).children = [i] := rfl

/-! ### No parentheses -/

/-- The kinds of node at hand, apart from names. -/
def plainTypes : List NodeType :=
  [.unaryExpression, .updateExpression, .callExpression, .ifStatement, .blockStatement,
    .expressionStatement]

/-- The node around is one of the kinds at hand, if there is one. -/
def PlainlyBelow (t : Tree) (above : List NodeId) : Prop :=
  ∀ p ∈ above.head?, ∃ k, t.kind? p = some k ∧ k.type ∈ plainTypes

theorem isPowerBase_of_plain (hk : k.type ∈ plainTypes) (f : Option Field) :
    isPowerBase k f = false := by
  cases k with
  | binaryExpression => simp [plainTypes, NodeKind.type] at hk
  | _ => rfl

theorem PlainlyBelow.needsParens (h : t.PlainlyBelow above) (hn : t.kind? n = some k)
    (hk : k.type ∈ .identifier :: plainTypes) : t.needsParens? n above = some false := by
  cases above with
  | nil => rfl
  | cons p above =>
    obtain ⟨parent, hp, hplain⟩ := h p rfl
    have hnew : parent.type ≠ .newExpression := fun h => by simp [h, plainTypes] at hplain
    have hmember : parent.type ≠ .memberExpression := fun h => by simp [h, plainTypes] at hplain
    simp only [needsParens?, fieldOf?, hp, Option.bind_eq_bind, Option.bind_some, hnew, false_and,
      if_false, kindNeedsParens?, hn]
    cases k <;> simp [plainTypes, NodeKind.type] at hk <;>
      simp [hmember, isPowerBase_of_plain hplain]

theorem PlainlyBelow.inForHead (h : t.PlainlyBelow above) :
    ∃ b, t.inForHead? n above = some b := by
  cases above with
  | nil => exact ⟨false, rfl⟩
  | cons p above =>
    obtain ⟨parent, hp, -⟩ := h p rfl
    exact ⟨_, by rw [inForHead?, hp]; rfl⟩

/-- A node of the kinds at hand is printed as it is rendered. -/
theorem PlainlyBelow.print (h : t.PlainlyBelow above) (hb : t.Bare n k)
    (hk : k.type ∈ .identifier :: plainTypes) {d : Nat} {text : String}
    (hrender : ∀ b, renderKind (t.printWithin d (n :: above)) t b k = some text) :
    t.printWithin (d + 1) above n = some text := by
  have hparens := h.needsParens hb.kind hk
  obtain ⟨b, hhead⟩ := h.inForHead (n := n)
  obtain ⟨node, hnode, rfl, hleading, htrailing⟩ := hb
  simp [printWithin, hnode, hparens, hhead, hrender, Node.withComments, hleading, htrailing]

theorem Bare.plainlyBelow (hb : t.Bare n k) (hk : k.type ∈ plainTypes) :
    t.PlainlyBelow (n :: above) := by
  intro p hp
  obtain rfl : n = p := by simpa using hp
  exact ⟨k, hb.kind, hk⟩

/-! ### Expressions -/

theorem commas_chars (es : List Term) :
    commas (es.map fun e => String.ofList e.chars) = String.ofList (Term.listChars es) := by
  cases es with
  | nil => simp [commas, Term.listChars]
  | cons e es =>
    induction es generalizing e with
    | nil => simp [commas, Term.listChars, Term.moreChars]
    | cons e' es ih =>
      have hrest := ih e'
      simp only [commas, List.map_cons, String.intercalate_cons_cons, Term.listChars,
        Term.moreChars] at hrest ⊢
      rw [hrest]
      apply String.toList_injective
      simp

/-- Wherever a node shows the expression, the printer prints its text. -/
def PrintsTerm (t : Tree) (e : Term) : Prop := ∀ n d above, t.Writes n e → t.DepthWithin d n →
  t.PlainlyBelow above → t.printWithin d above n = some (String.ofList e.chars)

theorem printAll_terms {d : Nat} {ids : List NodeId} {es : List Term}
    (h : List.Forall₂ t.Writes ids es) (hes : ∀ e ∈ es, t.PrintsTerm e)
    (hd : ∀ m ∈ ids, t.DepthWithin d m) (habove : t.PlainlyBelow above) :
    printAll (t.printWithin d above) ids = some (es.map fun e => String.ofList e.chars) := by
  induction h with
  | nil => rfl
  | @cons m e ids es hm _ ih =>
    have hrest := ih (fun e he => hes e (by simp [he])) fun m hm => hd m (by simp [hm])
    rw [printAll] at hrest ⊢
    simp [hes e (by simp) m d above hm (hd m (by simp)) habove, hrest]

theorem printsTerm (e : Term) : t.PrintsTerm e := by
  induction e using Term.induction with
  | name x =>
    intro n d above h hd habove
    cases h with
    | name hb =>
      obtain ⟨d, rfl, -⟩ := hd.below_kind hb.kind
      exact habove.print hb (by simp [NodeKind.type]) fun b => by simp [renderKind, Term.chars]
  | unary o e ih =>
    intro n d above h hd habove
    cases h with
    | unary hb he =>
      obtain ⟨d, rfl, hbelow⟩ := hd.below_kind hb.kind
      have hprint := ih _ d (n :: above) he (hbelow _ (by simp))
        (hb.plainlyBelow (by simp [NodeKind.type, plainTypes]))
      refine habove.print hb (by simp [NodeKind.type, plainTypes]) fun b => ?_
      cases hkey : o.isKeyword <;> simp [renderKind, hprint, Term.chars, UnaryOperator.opening,
        String.ofList_append, hkey, String.append_assoc]
  | update o before e ih =>
    intro n d above h hd habove
    cases h with
    | update hb he =>
      obtain ⟨d, rfl, hbelow⟩ := hd.below_kind hb.kind
      have hprint := ih _ d (n :: above) he (hbelow _ (by simp))
        (hb.plainlyBelow (by simp [NodeKind.type, plainTypes]))
      refine habove.print hb (by simp [NodeKind.type, plainTypes]) fun b => ?_
      cases before <;> simp [renderKind, hprint, Term.chars, String.ofList_append]
  | call f es ihf ih =>
    intro n d above h hd habove
    cases h with
    | call hb hf hes =>
      obtain ⟨d, rfl, hbelow⟩ := hd.below_kind hb.kind
      have hplain : t.PlainlyBelow (n :: above) :=
        hb.plainlyBelow (by simp [NodeKind.type, plainTypes])
      have hprint := ihf _ d (n :: above) hf (hbelow _ (by simp)) hplain
      have hall := printAll_terms hes ih (fun m hm => hbelow m (by simp [hm])) hplain
      refine habove.print hb (by simp [NodeKind.type, plainTypes]) fun b => ?_
      simp [renderKind, hprint, hall, commas_chars, Term.chars, String.ofList_append,
        String.append_assoc]

/-! ### Statements -/

theorem braced_chars (ss : List Clause) :
    braced (ss.map fun s => String.ofList s.chars) " " = String.ofList (Clause.block ss).chars := by
  cases ss with
  | nil => rfl
  | cons s ss =>
    have hrest : ∀ s : Clause, " ".intercalate ((s :: ss).map fun s => String.ofList s.chars) ++
        " " = String.ofList (s.chars ++ Clause.restChars ss) := by
      induction ss with
      | nil => simp [Clause.restChars, String.ofList_append]
      | cons s' ss ih =>
        intro s
        have h := ih s'
        simp only [List.map_cons, String.intercalate_cons_cons, Clause.restChars] at h ⊢
        rw [String.append_assoc, h]
        apply String.toList_injective
        simp
    have h := congrArg String.toList (hrest s)
    apply String.toList_injective
    simp only [String.toList_append, List.map_cons, String.toList_ofList] at h
    have hlist : (braced ((s :: ss).map fun s => String.ofList s.chars) " ").toList =
        "\x7b ".toList ++ ((" ".intercalate
          ((s :: ss).map fun s => String.ofList s.chars)).toList ++ " ".toList) ++
            "\x7d".toList := by
      simp [braced]
    rw [hlist, List.map_cons, h]
    simp [Clause.chars, Clause.bodyChars]

/-- Wherever a node says the statement, the printer prints its text. -/
def PrintsClause (t : Tree) (s : Clause) : Prop := ∀ n d above, t.Says n s → t.DepthWithin d n →
  t.PlainlyBelow above → t.printWithin d above n = some (String.ofList s.chars)

theorem printAll_clauses {d : Nat} {ids : List NodeId} {ss : List Clause}
    (h : List.Forall₂ t.Says ids ss) (hss : ∀ s ∈ ss, t.PrintsClause s)
    (hd : ∀ m ∈ ids, t.DepthWithin d m) (habove : t.PlainlyBelow above) :
    printAll (t.printWithin d above) ids = some (ss.map fun s => String.ofList s.chars) := by
  induction h with
  | nil => rfl
  | @cons m s ids ss hm _ ih =>
    have hrest := ih (fun s hs => hss s (by simp [hs])) fun m hm => hd m (by simp [hm])
    rw [printAll] at hrest ⊢
    simp [hss s (by simp) m d above hm (hd m (by simp)) habove, hrest]

theorem printsClause (s : Clause) : t.PrintsClause s := by
  induction s using Clause.induction with
  | block ss ih =>
    intro n d above h hd habove
    cases h with
    | block hb hss =>
      obtain ⟨d, rfl, hbelow⟩ := hd.below_kind hb.kind
      have hall := printAll_clauses hss ih
        (fun m hm => hbelow m (by simp [hm]))
        (@Bare.plainlyBelow _ _ _ above hb (by simp [NodeKind.type, plainTypes]))
      refine habove.print hb (by simp [NodeKind.type, plainTypes]) fun b => ?_
      simp [renderKind, hall, braced_chars]
  | choice e s ih =>
    intro n d above h hd habove
    cases h with
    | choice hb he hs =>
      obtain ⟨d, rfl, hbelow⟩ := hd.below_kind hb.kind
      have hplain : t.PlainlyBelow (n :: above) :=
        hb.plainlyBelow (by simp [NodeKind.type, plainTypes])
      have htest := t.printsTerm e _ d (n :: above) he
        (hbelow _ (by simp)) hplain
      have hyes := ih _ d (n :: above) hs
        (hbelow _ (by simp)) hplain
      refine habove.print hb (by simp [NodeKind.type, plainTypes]) fun b => ?_
      simp only [renderKind, htest, hyes, printOptional, Option.bind_eq_bind,
        Option.bind_some, Option.some.injEq]
      apply String.toList_injective
      simp [Clause.chars]
  | choiceElse e s m ih ihm =>
    intro n d above h hd habove
    cases h with
    | choiceElse hb he hs hm =>
      obtain ⟨d, rfl, hbelow⟩ := hd.below_kind hb.kind
      have hplain : t.PlainlyBelow (n :: above) :=
        hb.plainlyBelow (by simp [NodeKind.type, plainTypes])
      have htest := t.printsTerm e _ d (n :: above) he
        (hbelow _ (by simp)) hplain
      have hyes := ih _ d (n :: above) hs
        (hbelow _ (by simp)) hplain
      have hno := ihm _ d (n :: above) hm
        (hbelow _ (by simp)) hplain
      refine habove.print hb (by simp [NodeKind.type, plainTypes]) fun b => ?_
      simp only [renderKind, htest, hyes, hno, printOptional, Option.bind_eq_bind,
        Option.bind_some, Option.some.injEq]
      apply String.toList_injective
      simp [Clause.chars]
  | expression e =>
    intro n d above h hd habove
    cases h with
    | expression hb he =>
      obtain ⟨d, rfl, hbelow⟩ := hd.below_kind hb.kind
      have hprint := t.printsTerm e _ d (n :: above) he
        (hbelow _ (by simp))
        (hb.plainlyBelow (by simp [NodeKind.type, plainTypes]))
      refine habove.print hb (by simp [NodeKind.type, plainTypes]) fun b => ?_
      simp [renderKind, hprint, Clause.chars, String.ofList_append]

/-! ### Depth -/

theorem exists_depth (hk : t.kind? n = some k) (h : ∀ c ∈ k.children, ∃ d, t.DepthWithin d c) :
    ∃ d, t.DepthWithin d n := by
  have hall : ∀ l : List NodeId, (∀ c ∈ l, ∃ d, t.DepthWithin d c) →
      ∃ d, ∀ c ∈ l, t.DepthWithin d c := by
    intro l
    induction l with
    | nil => exact fun _ => ⟨0, by simp⟩
    | cons c l ih =>
      intro hl
      obtain ⟨d, hd⟩ := hl c (by simp)
      obtain ⟨e, he⟩ := ih fun c hc => hl c (by simp [hc])
      refine ⟨max d e, fun c' hc' => ?_⟩
      rcases List.mem_cons.mp hc' with rfl | hc'
      · exact hd.mono (le_max_left d e)
      · exact (he c' hc').mono (le_max_right d e)
  obtain ⟨d, hd⟩ := hall _ h
  exact ⟨d + 1, k, hk, hd⟩

theorem Writes.exists_depth {e : Term} (h : t.Writes n e) : ∃ d, t.DepthWithin d n := by
  induction e using Term.induction generalizing n with
  | name x =>
    cases h with
    | name hb => exact Tree.exists_depth hb.kind (by simp [NodeKind.children, NodeKind.fields])
  | unary o e ih =>
    cases h with
    | unary hb he =>
      refine Tree.exists_depth hb.kind fun c hc => ?_
      obtain rfl : c = _ := by simpa using hc
      exact ih he
  | update o before e ih =>
    cases h with
    | update hb he =>
      refine Tree.exists_depth hb.kind fun c hc => ?_
      obtain rfl : c = _ := by simpa using hc
      exact ih he
  | call f es ihf ih =>
    cases h with
    | call hb hf hes =>
      refine Tree.exists_depth hb.kind fun c hc => ?_
      obtain rfl | hc : c = _ ∨ c ∈ _ := by simpa using hc
      · exact ihf hf
      · obtain ⟨a, ha, hca⟩ := exists_of_forall₂ hes.flip hc
        exact ih a ha hca

theorem Says.exists_depth {s : Clause} (h : t.Says n s) : ∃ d, t.DepthWithin d n := by
  induction s using Clause.induction generalizing n with
  | block ss ih =>
    cases h with
    | block hb hss =>
      refine Tree.exists_depth hb.kind fun c hc => ?_
      rw [children_blockStatement] at hc
      obtain ⟨a, ha, hca⟩ := exists_of_forall₂ hss.flip hc
      exact ih a ha hca
  | choice e s ih =>
    cases h with
    | choice hb he hs =>
      refine Tree.exists_depth hb.kind fun c hc => ?_
      obtain rfl | rfl : c = _ ∨ c = _ := by simpa using hc
      · exact he.exists_depth
      · exact ih hs
  | choiceElse e s m ih ihm =>
    cases h with
    | choiceElse hb he hs hm =>
      refine Tree.exists_depth hb.kind fun c hc => ?_
      obtain rfl | rfl | rfl : c = _ ∨ c = _ ∨ c = _ := by simpa using hc
      · exact he.exists_depth
      · exact ih hs
      · exact ihm hm
  | expression e =>
    cases h with
    | expression hb he =>
      refine Tree.exists_depth hb.kind fun c hc => ?_
      obtain rfl : c = _ := by simpa using hc
      exact he.exists_depth

/-- A statement is printed as its text. -/
theorem Says.nodeText? {s : Clause} (h : t.Says n s) :
    t.nodeText? n = some (String.ofList s.chars) := by
  obtain ⟨d, hd⟩ := h.exists_depth
  have hsize : t.DepthWithin t.size n := Acyclic.depthWithin
    (fun m hm => (hd.down hm).not_transGen) (fun m hm => (hd.down hm).kind)
    (fun p hp m hm => hp.tail hm) .refl
  exact t.printsClause s n t.depthBound [] h (hsize.mono (Nat.le_add_right t.size 2))
    (by simp [PlainlyBelow])

end Tree

/-- Statements of blocks, `if` and expressions of names, calls and operators with one operand are
told apart by their texts, where no sign stands before its like, no operator in front of its operand
is called or followed by an operator, and no `else` stands behind an `if` without one. -/
theorem separated_text_injective {t t' : Tree} {n n' : NodeId} {s s' : Clause} (h : t.Says n s)
    (h' : t'.Says n' s') (hs : s.separated) (hs' : s'.separated) :
    ∃ text text', t.nodeText? n = some text ∧ t'.nodeText? n' = some text' ∧
      (text = text' ↔ s = s') := by
  refine ⟨_, _, h.nodeText?, h'.nodeText?, fun heq => ?_, fun heq => heq ▸ rfl⟩
  have hchars : s.chars ++ [] = s'.chars ++ [] := by
    simpa using congrArg String.toList heq
  have hnil : ¬ BeginsElse [] := fun h => by simp [BeginsElse] at h
  exact (s.told s' [] [] hs hs' (fun _ => hnil) (fun _ => hnil) hchars).1

/-- The program `if (x) { if (x) -x; } else x++; if (x) if (x) -x; else x++;`. -/
def choiceProgram : Tree where
  nodes := #[{ kind := .identifier "x" none }, { kind := .identifier "x" none },
    { kind := .identifier "x" none }, { kind := .unaryExpression .minus ⟨2⟩ },
    { kind := .expressionStatement ⟨3⟩ }, { kind := .ifStatement ⟨1⟩ ⟨4⟩ none },
    { kind := .blockStatement [⟨5⟩] }, { kind := .identifier "x" none },
    { kind := .updateExpression .increment ⟨7⟩ false }, { kind := .expressionStatement ⟨8⟩ },
    { kind := .ifStatement ⟨0⟩ ⟨6⟩ (some ⟨9⟩) }, { kind := .identifier "x" none },
    { kind := .identifier "x" none }, { kind := .identifier "x" none },
    { kind := .unaryExpression .minus ⟨13⟩ }, { kind := .expressionStatement ⟨14⟩ },
    { kind := .identifier "x" none }, { kind := .updateExpression .increment ⟨16⟩ false },
    { kind := .expressionStatement ⟨17⟩ }, { kind := .ifStatement ⟨12⟩ ⟨15⟩ (some ⟨18⟩) },
    { kind := .ifStatement ⟨11⟩ ⟨19⟩ none }, { kind := .program [⟨10⟩, ⟨20⟩] [] }]
  root := some ⟨21⟩

/-- The name of the program. -/
def nameX : PlainName := ⟨"x", by decide⟩

/-- Its two statements, with the `else` at the outer and at the inner `if`, are told apart. -/
theorem choiceProgram_told_apart :
    let x : Term := .name nameX
    let minus : Clause := .expression (.unary .minus x)
    let increment : Clause := .expression (.update .increment false x)
    let outer : Clause := .choiceElse x (.block [.choice x minus]) increment
    let inner : Clause := .choice x (.choiceElse x minus increment)
    choiceProgram.Says ⟨10⟩ outer ∧ choiceProgram.Says ⟨20⟩ inner ∧ outer.separated ∧
      inner.separated ∧ ∃ text text', choiceProgram.nodeText? ⟨10⟩ = some text ∧
        choiceProgram.nodeText? ⟨20⟩ = some text' ∧ (text = text' ↔ outer = inner) := by
  intro x minus increment outer inner
  have hbare : ∀ n k, choiceProgram.node? n = some { kind := k } → choiceProgram.Bare n k :=
    fun n k hn => ⟨_, hn, rfl, rfl, rfl⟩
  have hx : ∀ n, choiceProgram.node? n = some { kind := .identifier "x" none } →
      choiceProgram.Writes n x := fun n hn => .name (hbare n _ hn)
  have houter : choiceProgram.Says ⟨10⟩ outer :=
    .choiceElse (hbare _ _ rfl) (hx _ rfl)
      (.block (hbare _ _ rfl) (.cons (.choice (hbare _ _ rfl) (hx _ rfl)
        (.expression (hbare _ _ rfl) (.unary (hbare _ _ rfl) (hx _ rfl)))) .nil))
      (.expression (hbare _ _ rfl) (.update (hbare _ _ rfl) (hx _ rfl)))
  have hinner : choiceProgram.Says ⟨20⟩ inner :=
    .choice (hbare _ _ rfl) (hx _ rfl) (.choiceElse (hbare _ _ rfl) (hx _ rfl)
      (.expression (hbare _ _ rfl) (.unary (hbare _ _ rfl) (hx _ rfl)))
      (.expression (hbare _ _ rfl) (.update (hbare _ _ rfl) (hx _ rfl))))
  exact ⟨houter, hinner, by decide, by decide,
    separated_text_injective houter hinner (by decide) (by decide)⟩

/-! ## Signs that are not kept apart -/

/-- The program `-(-x); --x;`. -/
def minusProgram : Tree where
  nodes := #[{ kind := .identifier "x" none }, { kind := .unaryExpression .minus ⟨0⟩ },
    { kind := .unaryExpression .minus ⟨1⟩ }, { kind := .expressionStatement ⟨2⟩ },
    { kind := .identifier "x" none }, { kind := .updateExpression .decrement ⟨4⟩ true },
    { kind := .expressionStatement ⟨5⟩ }, { kind := .program [⟨3⟩, ⟨6⟩] [] }]
  root := some ⟨7⟩

/-- Its two statements are different, and printed alike. -/
theorem minusProgram_confused : minusProgram.IsProgram ∧
    minusProgram.Says ⟨3⟩ (.expression (.unary .minus (.unary .minus (.name nameX)))) ∧
    minusProgram.Says ⟨6⟩ (.expression (.update .decrement true (.name nameX))) ∧
    Clause.expression (.unary .minus (.unary .minus (.name nameX))) ≠
      .expression (.update .decrement true (.name nameX)) ∧
    minusProgram.nodeText? ⟨3⟩ = some "--x;" ∧ minusProgram.nodeText? ⟨6⟩ = some "--x;" := by
  have hprogram : minusProgram.IsProgram :=
    .of_bottomUp (by decide) (by decide) (by decide) (by decide)
  have hbare : ∀ n k, minusProgram.node? n = some { kind := k } → minusProgram.Bare n k :=
    fun n k hn => ⟨_, hn, rfl, rfl, rfl⟩
  have hsigns : minusProgram.Says ⟨3⟩
      (.expression (.unary .minus (.unary .minus (.name nameX)))) :=
    .expression (hbare _ _ rfl) (.unary (hbare _ _ rfl) (.unary (hbare _ _ rfl)
      (.name (hbare _ _ rfl))))
  have hchange : minusProgram.Says ⟨6⟩ (.expression (.update .decrement true (.name nameX))) :=
    .expression (hbare _ _ rfl) (.update (hbare _ _ rfl) (.name (hbare _ _ rfl)))
  exact ⟨hprogram, hsigns, hchange, nofun, hsigns.nodeText?, hchange.nodeText?⟩

end Espalier
