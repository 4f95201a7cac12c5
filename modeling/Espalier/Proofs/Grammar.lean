import Mathlib.Order.Filter.AtTopBot.Basic
import Espalier.Syntax.Operator

set_option autoImplicit false

/-! # The grammar of expressions

`Derives` is the expression grammar: which tokens are read as which expression. It is left
recursive, as grammars of languages with left-associative operators are. `parse` reads tokens
without looking back, and finds everything that is derived (`Derives.read`); so no tokens are read
in two ways (`Derives.unique`). -/

namespace Espalier

/-! ## Expressions and tokens -/

/-- An operator between two operands. -/
inductive Operator where
  | binary (o : BinaryOperator)
  | logical (o : LogicalOperator)
deriving DecidableEq, Repr

namespace Operator

/-- The text of an operator. -/
def symbol : Operator → String
  | .binary o => o.symbol
  | .logical o => o.symbol

/-- How tightly an operator binds. -/
def precedence : Operator → Nat
  | .binary o => o.precedence
  | .logical o => o.precedence

/-- The one operator that groups to the right. -/
def power : Operator := .binary .power

/-- The precedence from which on an operator stands bare on the left of this one. -/
def leftLevel (o : Operator) : Nat := if o = power then o.precedence + 1 else o.precedence

/-- The same on the right. -/
def rightLevel (o : Operator) : Nat := if o = power then o.precedence else o.precedence + 1

end Operator

/-- The structure of an expression. -/
inductive Expr where
  | name (x : String)
  | operation (o : Operator) (left right : Expr)
  | conditional (test yes no : Expr)
  | assign (o : AssignmentOperator) (target value : Expr)
  | sequence (es : List Expr)
  | call (callee : Expr) (arguments : List Expr)
  | new (callee : Expr) (arguments : List Expr)
  | access (object : Expr) (property : String)
  | index (object property : Expr)

/-- What a text consists of. A name is one token, whatever its characters are. -/
inductive Token where
  | name (x : String)
  | operator (o : Operator)
  | assign (o : AssignmentOperator)
  | question
  | colon
  | comma
  | new
  | open
  | close
  | openIndex
  | closeIndex
  | dot
deriving DecidableEq, Repr

/-! ## Derivations -/

/-- The operands that bind tighter than all operators. -/
def tightest : Nat := 12

/-- The kinds of phrases. -/
inductive Phrase where
  /-- One or more expressions between commas, as a sequence. -/
  | items
  /-- Items between parentheses, if any. -/
  | arguments
  | expression
  | assignment
  | conditional
  /-- Operations of at least the given precedence. -/
  | operand (precedence : Nat)
  /-- A name or an expression in parentheses with accesses, and also with calls if they are
  allowed. The arguments of `new` are no call. -/
  | chain (calls : Bool)

/-- The tokens are a phrase, which is read as the expression. -/
inductive Derives : Phrase → List Token → Expr → Prop
  | name {x : String} : Derives (.chain false) [.name x] (.name x)
  | parens {ts : List Token} {e : Expr} : Derives .expression ts e →
    Derives (.chain false) (.open :: ts ++ [.close]) e
  | new {ts us : List Token} {e : Expr} {es : List Expr} : Derives (.chain false) ts e →
    Derives .arguments us (.sequence es) → Derives (.chain false) (.new :: ts ++ us) (.new e es)
  | access {calls : Bool} {ts : List Token} {e : Expr} {x : String} : Derives (.chain calls) ts e →
    Derives (.chain calls) (ts ++ [.dot, .name x]) (.access e x)
  | index {calls : Bool} {ts us : List Token} {e p : Expr} : Derives (.chain calls) ts e →
    Derives .expression us p →
      Derives (.chain calls) (ts ++ .openIndex :: us ++ [.closeIndex]) (.index e p)
  | call {calls : Bool} {ts us : List Token} {e : Expr} {es : List Expr} :
    Derives (.chain calls) ts e → Derives .arguments us (.sequence es) →
      Derives (.chain true) (ts ++ us) (.call e es)
  | noArguments : Derives .arguments [.open, .close] (.sequence [])
  | arguments {ts : List Token} {es : List Expr} : Derives .items ts (.sequence es) →
    Derives .arguments (.open :: ts ++ [.close]) (.sequence es)
  | chain {calls : Bool} {ts : List Token} {e : Expr} : Derives (.chain calls) ts e →
    Derives (.operand tightest) ts e
  | tighter {n : Nat} {ts : List Token} {e : Expr} : n < tightest →
    Derives (.operand (n + 1)) ts e → Derives (.operand n) ts e
  | operation {o : Operator} {ts us : List Token} {l r : Expr} :
    Derives (.operand o.leftLevel) ts l → Derives (.operand o.rightLevel) us r →
      Derives (.operand o.precedence) (ts ++ .operator o :: us) (.operation o l r)
  | operand {ts : List Token} {e : Expr} : Derives (.operand 1) ts e → Derives .conditional ts e
  | conditional {ts us vs : List Token} {c a b : Expr} : Derives (.operand 1) ts c →
    Derives .assignment us a → Derives .assignment vs b →
      Derives .conditional (ts ++ .question :: us ++ .colon :: vs) (.conditional c a b)
  | value {ts : List Token} {e : Expr} : Derives .conditional ts e → Derives .assignment ts e
  | assignment {o : AssignmentOperator} {ts us : List Token} {l r : Expr} :
    Derives (.operand tightest) ts l → Derives .assignment us r →
      Derives .assignment (ts ++ .assign o :: us) (.assign o l r)
  | item {ts : List Token} {e : Expr} : Derives .assignment ts e → Derives .items ts (.sequence [e])
  | items {ts us : List Token} {e : Expr} {es : List Expr} : Derives .assignment ts e →
    Derives .items us (.sequence es) → Derives .items (ts ++ .comma :: us) (.sequence (e :: es))
  | single {ts : List Token} {e : Expr} : Derives .assignment ts e → Derives .expression ts e
  | sequence {ts : List Token} {es : List Expr} : Derives .items ts (.sequence es) →
    2 ≤ es.length → Derives .expression ts (.sequence es)

/-! ## Reading without looking back -/

/-- What is read next: a phrase, or what may follow an expression that was read. -/
inductive Task where
  | phrase (p : Phrase)
  /-- More operations of one precedence, after an operand. -/
  | operations (precedence : Nat) (left : Expr)
  /-- More accesses and calls. -/
  | links (calls : Bool) (e : Expr)

/-- A sequence of one expression is that expression. -/
def Expr.unwrap : Expr → Expr
  | .sequence [e] => e
  | e => e

/-- Read tokens from left to right: the expression, and the tokens behind it. What is
read is nested at most `fuel` levels deep. -/
def parse : Nat → Task → List Token → Option (Expr × List Token)
  | 0, _, _ => none
  | fuel + 1, task, ts => match task with
    | .phrase .items => do
      let (e, ts) ← parse fuel (.phrase .assignment) ts
      match ts with
      | .comma :: ts =>
        let (more, ts) ← parse fuel (.phrase .items) ts
        match more with
        | .sequence es => some (.sequence (e :: es), ts)
        | _ => none
      | _ => some (.sequence [e], ts)
    | .phrase .arguments =>
      match ts with
      | .open :: .close :: ts => some (.sequence [], ts)
      | .open :: ts => do
        let (es, ts) ← parse fuel (.phrase .items) ts
        match ts with
        | .close :: ts => some (es, ts)
        | _ => none
      | _ => none
    | .phrase .expression => do
      let (e, ts) ← parse fuel (.phrase .items) ts
      some (e.unwrap, ts)
    | .phrase .assignment => do
      let (e, ts) ← parse fuel (.phrase .conditional) ts
      match ts with
      | .assign o :: ts =>
        let (value, ts) ← parse fuel (.phrase .assignment) ts
        some (.assign o e value, ts)
      | _ => some (e, ts)
    | .phrase .conditional => do
      let (test, ts) ← parse fuel (.phrase (.operand 1)) ts
      match ts with
      | .question :: ts =>
        let (yes, ts) ← parse fuel (.phrase .assignment) ts
        match ts with
        | .colon :: ts =>
          let (no, ts) ← parse fuel (.phrase .assignment) ts
          some (.conditional test yes no, ts)
        | _ => none
      | _ => some (test, ts)
    | .phrase (.operand n) =>
      if n < tightest then do
        let (left, ts) ← parse fuel (.phrase (.operand (n + 1))) ts
        parse fuel (.operations n left) ts
      else parse fuel (.phrase (.chain true)) ts
    | .phrase (.chain calls) =>
      match ts with
      | .name x :: ts => parse fuel (.links calls (.name x)) ts
      | .open :: ts => do
        let (e, ts) ← parse fuel (.phrase .expression) ts
        match ts with
        | .close :: ts => parse fuel (.links calls e) ts
        | _ => none
      | .new :: ts => do
        let (callee, ts) ← parse fuel (.phrase (.chain false)) ts
        let (arguments, ts) ← parse fuel (.phrase .arguments) ts
        match arguments with
        | .sequence es => parse fuel (.links calls (.new callee es)) ts
        | _ => none
      | _ => none
    | .operations n left =>
      match ts with
      | .operator o :: us =>
        if o.precedence ≠ n then some (left, ts)
        else if o = .power then do
          let (right, ts) ← parse fuel (.phrase (.operand n)) us
          some (.operation o left right, ts)
        else do
          let (right, ts) ← parse fuel (.phrase (.operand (n + 1))) us
          parse fuel (.operations n (.operation o left right)) ts
      | _ => some (left, ts)
    | .links calls e =>
      match ts with
      | .dot :: .name x :: ts => parse fuel (.links calls (.access e x)) ts
      | .openIndex :: ts => do
        let (p, ts) ← parse fuel (.phrase .expression) ts
        match ts with
        | .closeIndex :: ts => parse fuel (.links calls (.index e p)) ts
        | _ => none
      | .open :: us =>
        if calls then do
          let (arguments, ts) ← parse fuel (.phrase .arguments) (.open :: us)
          match arguments with
          | .sequence es => parse fuel (.links calls (.call e es)) ts
          | _ => none
        else some (e, ts)
      | _ => some (e, ts)

/-- Reading tokens gives this, however deep it may go from some depth on. -/
def Parses (task : Task) (ts : List Token) (r : Expr × List Token) : Prop :=
  ∀ᶠ fuel in Filter.atTop, parse fuel task ts = some r

namespace Parses

variable {task : Task} {ts : List Token} {r r' : Expr × List Token}

theorem step (h : ∀ᶠ fuel in Filter.atTop, parse (fuel + 1) task ts = some r) :
    Parses task ts r := by
  obtain ⟨n, hn⟩ := Filter.eventually_atTop.mp h
  refine Filter.eventually_atTop.mpr ⟨n + 1, fun fuel hfuel => ?_⟩
  obtain ⟨fuel, rfl⟩ : ∃ i, fuel = i + 1 := ⟨fuel - 1, by omega⟩
  exact hn fuel (by omega)

/-- What is read at once. -/
theorem of_forall (h : ∀ fuel, parse (fuel + 1) task ts = some r) : Parses task ts r :=
  step (.of_forall h)

theorem unique (h : Parses task ts r) (h' : Parses task ts r') : r = r' := by
  obtain ⟨fuel, hr, hr'⟩ := (h.and h').exists
  exact Option.some.inj (hr.symm.trans hr')

end Parses

/-! ## Everything derived is found -/

attribute [local simp] parse

/-- How tightly a token binds that continues an expression: comma, assignment, conditional, the
operators by their precedence, and the links of a chain. -/
def Token.strength : Token → Nat
  | .comma => 1
  | .assign _ => 2
  | .question => 3
  | .operator o => o.precedence + 3
  | .open | .openIndex | .dot => tightest + 3
  | _ => 0

/-- The tokens do not continue an expression of the given strength. -/
def EndsBefore (strength : Nat) (rest : List Token) : Prop :=
  ∀ t ∈ rest.head?, t.strength < strength

@[simp] theorem endsBefore_nil (n : Nat) : EndsBefore n [] := by simp [EndsBefore]

@[simp] theorem endsBefore_cons (n : Nat) (t : Token) (ts : List Token) :
    EndsBefore n (t :: ts) ↔ t.strength < n := by
  simp [EndsBefore]

theorem EndsBefore.mono {m n : Nat} {rest : List Token} (h : EndsBefore m rest) (hmn : m ≤ n) :
    EndsBefore n rest := fun t ht => Nat.lt_of_lt_of_le (h t ht) hmn

theorem Operator.precedence_pos (o : Operator) : 1 ≤ o.precedence := by
  cases o with
  | binary o => cases o <;> decide
  | logical o => cases o <;> decide

theorem Operator.precedence_lt (o : Operator) : o.precedence < tightest := by
  cases o with
  | binary o => cases o <;> decide
  | logical o => cases o <;> decide

theorem Operator.precedence_eq_iff (o : Operator) :
    o.precedence = power.precedence ↔ o = power := by
  cases o with
  | binary o => cases o <;> decide
  | logical o => cases o <;> decide

theorem parses_links_of_ends (calls : Bool) (e : Expr) {rest : List Token}
    (h : EndsBefore (tightest + 3) rest) : Parses (.links calls e) rest (e, rest) := by
  refine .of_forall fun fuel => ?_
  cases rest with
  | nil => rfl
  | cons t ts => cases t <;> simp_all [Token.strength]

theorem parses_operations_of_ends (n : Nat) (e : Expr) {rest : List Token}
    (h : EndsBefore (n + 3) rest) : Parses (.operations n e) rest (e, rest) := by
  refine .of_forall fun fuel => ?_
  cases rest with
  | nil => rfl
  | cons t ts =>
    cases t with
    | operator o =>
      have hne : o.precedence ≠ n := by
        simp [Token.strength] at h
        omega
      simp [hne]
    | _ => rfl

/-- What reading the tokens of a phrase comes to, with other tokens behind them. -/
def Phrase.Read : Phrase → List Token → Expr → Prop
  | .items, ts, e => ∀ rest, EndsBefore 1 rest → Parses (.phrase .items) (ts ++ rest) (e, rest)
  | .arguments, ts, e => ∀ rest, Parses (.phrase .arguments) (ts ++ rest) (e, rest)
  | .expression, ts, e => ∀ rest, EndsBefore 1 rest →
    Parses (.phrase .expression) (ts ++ rest) (e, rest)
  | .assignment, ts, e => ∀ rest, EndsBefore 2 rest →
    Parses (.phrase .assignment) (ts ++ rest) (e, rest)
  | .conditional, ts, e => ∀ rest, EndsBefore 2 rest →
    Parses (.phrase .conditional) (ts ++ rest) (e, rest)
  -- After an operand there may be more operations on the same level, but none after a power.
  | .operand n, ts, e =>
    (∀ rest, EndsBefore (n + 3) rest → Parses (.phrase (.operand n)) (ts ++ rest) (e, rest)) ∧
      (n < Operator.power.precedence → ∀ rest r, EndsBefore (n + 4) rest →
        Parses (.operations n e) rest r → Parses (.phrase (.operand n)) (ts ++ rest) r)
  | .chain calls, ts, e => ∀ calls' rest r, (calls = true → calls' = true) →
    Parses (.links calls' e) rest r → Parses (.phrase (.chain calls')) (ts ++ rest) r

theorem Phrase.Read.tighter {n : Nat} {ts : List Token} {e : Expr} (hn : n < tightest)
    (h : (Phrase.operand (n + 1)).Read ts e) : (Phrase.operand n).Read ts e := by
  have hrest : ∀ rest r, EndsBefore (n + 4) rest → Parses (.operations n e) rest r →
      Parses (.phrase (.operand n)) (ts ++ rest) r := by
    intro rest r hends hr
    refine .step ?_
    filter_upwards [h.1 rest hends, hr] with fuel hoperand hr
    simp [hn, hoperand, hr]
  refine ⟨fun rest hends => ?_, fun _ => hrest⟩
  exact hrest rest _ (hends.mono (by omega)) (parses_operations_of_ends n e hends)

theorem Phrase.Read.loosest {ts : List Token} {e : Expr}
    (h : (Phrase.operand tightest).Read ts e) : (Phrase.operand 1).Read ts e := by
  have hall : ∀ k < tightest, (Phrase.operand (tightest - k)).Read ts e := by
    intro k hk
    induction k with
    | zero => exact h
    | succ k ih =>
      refine Phrase.Read.tighter (by omega) ?_
      rw [show tightest - (k + 1) + 1 = tightest - k by omega]
      exact ih (by omega)
  exact hall 11 (by decide)

theorem Phrase.Read.operation {o : Operator} {ts us : List Token} {l r : Expr}
    (hl : (Phrase.operand o.leftLevel).Read ts l) (hr : (Phrase.operand o.rightLevel).Read us r) :
    (Phrase.operand o.precedence).Read (ts ++ .operator o :: us) (.operation o l r) := by
  have hlt := o.precedence_lt
  by_cases ho : o = .power
  · -- The right operand of a power takes all powers behind it.
    subst ho
    refine ⟨fun rest hends => ?_, fun hlt => absurd hlt (Nat.lt_irrefl _)⟩
    have hleft := hl.1 (.operator .power :: (us ++ rest))
      (by simp [Token.strength, Operator.leftLevel])
    have hright := hr.1 rest hends
    simp only [Operator.leftLevel, Operator.rightLevel, if_true] at hleft hright
    have hpowers : Parses (.operations Operator.power.precedence l)
        (.operator .power :: (us ++ rest)) (.operation .power l r, rest) := by
      refine .step ?_
      filter_upwards [hright] with fuel hright
      simp [hright]
    refine .step ?_
    filter_upwards [hleft, hpowers] with fuel hleft hpowers
    simp [hlt, hleft, hpowers]
  · have hleft : o.leftLevel = o.precedence := if_neg ho
    have hright : o.rightLevel = o.precedence + 1 := if_neg ho
    rw [hleft] at hl
    rw [hright] at hr
    have hpower : o.precedence < Operator.power.precedence :=
      Nat.lt_of_le_of_ne (Nat.le_of_lt_succ hlt) (mt o.precedence_eq_iff.mp ho)
    have hrest : ∀ rest r', EndsBefore (o.precedence + 4) rest →
        Parses (.operations o.precedence (.operation o l r)) rest r' →
          Parses (.phrase (.operand o.precedence)) (ts ++ .operator o :: us ++ rest) r' := by
      intro rest r' hends hr'
      rw [List.append_assoc, List.cons_append]
      refine hl.2 hpower (.operator o :: (us ++ rest)) r' (by simp [Token.strength]) (.step ?_)
      filter_upwards [hr.1 rest hends, hr'] with fuel hright hr'
      simp [ho, hright, hr']
    refine ⟨fun rest hends => ?_, fun _ => hrest⟩
    exact hrest rest _ (hends.mono (by omega)) (parses_operations_of_ends _ _ hends)

theorem Phrase.Read.item {ts : List Token} {e : Expr} (h : Phrase.assignment.Read ts e) :
    Phrase.items.Read ts (.sequence [e]) := by
  intro rest hends
  refine .step ?_
  filter_upwards [h rest (hends.mono (by omega))] with fuel he
  simp only [parse, he, Option.bind_eq_bind, Option.bind_some]
  cases rest with
  | nil => rfl
  | cons t ts => cases t <;> simp_all [Token.strength]

theorem Phrase.Read.operand {ts : List Token} {e : Expr} (h : (Phrase.operand 1).Read ts e)
    (rest : List Token) (hends : EndsBefore 3 rest) :
    Parses (.phrase .conditional) (ts ++ rest) (e, rest) := by
  refine .step ?_
  filter_upwards [h.1 rest (hends.mono (by omega))] with fuel he
  simp only [parse, he, Option.bind_eq_bind, Option.bind_some]
  cases rest with
  | nil => rfl
  | cons t ts => cases t <;> simp_all [Token.strength]

/-- No phrase is empty, and none starts with a closing parenthesis. -/
theorem Derives.head {p : Phrase} {ts : List Token} {e : Expr} (h : Derives p ts e) :
    ∃ t us, ts = t :: us ∧ t ≠ .close := by
  induction h with
  | name => exact ⟨_, _, rfl, by simp⟩
  | parens | new | noArguments | arguments => exact ⟨_, _, rfl, by simp⟩
  | chain _ ih | tighter _ _ ih | operand _ ih | value _ ih | item _ ih | single _ ih
  | sequence _ _ ih => exact ih
  | access _ ih | index _ _ ih | call _ _ ih | operation _ _ ih | conditional _ _ _ ih
  | assignment _ _ ih | items _ _ ih =>
    obtain ⟨t, us, rfl, ht⟩ := ih
    exact ⟨t, _, rfl, ht⟩

theorem Derives.arguments_head {us : List Token} {e : Expr} (h : Derives .arguments us e) :
    ∃ vs, us = .open :: vs := by
  cases h with
  | noArguments => exact ⟨_, rfl⟩
  | arguments => exact ⟨_, rfl⟩

theorem Derives.read {p : Phrase} {ts : List Token} {e : Expr} (h : Derives p ts e) :
    p.Read ts e := by
  induction h with
  | name =>
    intro calls rest r _ hr
    refine .step ?_
    filter_upwards [hr] with fuel hr
    exact hr
  | parens _ ih =>
    intro calls rest r _ hr
    refine .step ?_
    filter_upwards [ih (.close :: rest) (by simp [Token.strength]), hr] with fuel he hr
    simp [he, hr]
  | @new ts us e es _ hes ihe ihes =>
    intro calls rest r _ hr
    -- Where no calls are allowed, the callee ends before the arguments.
    have hcallee : Parses (.phrase (.chain false)) (ts ++ (us ++ rest)) (e, us ++ rest) := by
      refine ihe false _ _ id (.of_forall fun fuel => ?_)
      obtain ⟨vs, rfl⟩ := hes.arguments_head
      rfl
    refine .step ?_
    filter_upwards [hcallee, ihes rest, hr] with fuel hcallee hes hr
    simp [hcallee, hes, hr]
  | access _ ih =>
    intro calls rest r hcalls hr
    rw [List.append_assoc]
    refine ih calls _ _ hcalls (.step ?_)
    filter_upwards [hr] with fuel hr
    exact hr
  | index _ _ ih ihp =>
    intro calls rest r hcalls hr
    rw [List.append_assoc, List.append_assoc]
    refine ih calls _ _ hcalls (.step ?_)
    filter_upwards [ihp (.closeIndex :: rest) (by simp [Token.strength]), hr] with fuel hp hr
    simp [hp, hr]
  | @call _ ts us e es _ hes ihe ihes =>
    intro calls rest r hcalls hr
    obtain rfl : calls = true := hcalls rfl
    have hargs := ihes rest
    obtain ⟨vs, rfl⟩ := hes.arguments_head
    rw [List.append_assoc]
    refine ihe true _ _ (fun _ => rfl) (.step ?_)
    rw [List.cons_append] at hargs ⊢
    filter_upwards [hargs, hr] with fuel hargs hr
    simp [hargs, hr]
  | noArguments => exact fun rest => .of_forall fun _ => rfl
  | arguments h ih =>
    intro rest
    have hitems := ih (.close :: rest) (by simp [Token.strength])
    obtain ⟨t, us, rfl, ht⟩ := h.head
    simp only [List.cons_append, List.append_assoc, List.nil_append] at hitems ⊢
    refine .step ?_
    filter_upwards [hitems] with fuel hitems
    cases t <;> simp_all
  | chain _ ih =>
    refine ⟨fun rest hends => ?_, fun hlt => absurd hlt (by decide)⟩
    refine .step ?_
    filter_upwards [ih true rest _ (fun _ => rfl) (parses_links_of_ends true _ hends)] with fuel he
    simpa using he
  | tighter hn _ ih => exact ih.tighter hn
  | operation _ _ ihl ihr => exact ihl.operation ihr
  | operand _ ih => exact fun rest hends => Phrase.Read.operand ih rest (hends.mono (by omega))
  | @conditional ts us vs c a b _ _ _ ihc iha ihb =>
    intro rest hends
    have hc := ihc.1 (.question :: (us ++ .colon :: (vs ++ rest))) (by simp [Token.strength])
    have ha := iha (.colon :: (vs ++ rest)) (by simp [Token.strength])
    refine .step ?_
    filter_upwards [hc, ha, ihb rest hends] with fuel hc ha hb
    simp [hc, ha, hb]
  | value _ ih =>
    intro rest hends
    refine .step ?_
    filter_upwards [ih rest hends] with fuel he
    simp only [parse, he, Option.bind_eq_bind, Option.bind_some]
    cases rest with
    | nil => rfl
    | cons t ts => cases t <;> simp_all [Token.strength]
  | @assignment o ts us l r _ _ ihl ihr =>
    intro rest hends
    have hl := Phrase.Read.operand (Phrase.Read.loosest ihl) (.assign o :: (us ++ rest))
      (by simp [Token.strength])
    refine .step ?_
    filter_upwards [hl, ihr rest hends] with fuel hl hr
    simp [hl, hr]
  | item _ ih => exact Phrase.Read.item ih
  | @items ts us e es _ _ ihe ihes =>
    intro rest hends
    refine .step ?_
    filter_upwards [ihe (.comma :: (us ++ rest)) (by simp [Token.strength]), ihes rest hends]
      with fuel he hes
    simp [he, hes]
  | single _ ih =>
    intro rest hends
    refine .step ?_
    filter_upwards [Phrase.Read.item ih rest hends] with fuel he
    simp [he, Expr.unwrap]
  | @sequence ts es _ hlen ih =>
    intro rest hends
    have hes : (Expr.sequence es).unwrap = .sequence es := by
      rcases es with _ | ⟨e, _ | ⟨e', es⟩⟩
      · rfl
      · exact absurd hlen (by simp)
      · rfl
    refine .step ?_
    filter_upwards [ih rest hends] with fuel he
    simp [he, hes]

/-- The tokens of an expression are read in one way. -/
theorem Derives.unique {ts : List Token} {e e' : Expr} (h : Derives .expression ts e)
    (h' : Derives .expression ts e') : e = e' :=
  congrArg Prod.fst ((h.read [] (by simp)).unique (h'.read [] (by simp)))

end Espalier
