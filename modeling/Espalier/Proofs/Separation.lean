import Espalier.Syntax.Operator
import Mathlib.Data.List.Basic
import Mathlib.Tactic.Common

set_option autoImplicit false

/-! # Texts of statements

Statements made of blocks, `if`, and expressions of names, calls and operators with one operand are
written without parentheses, so three rules are needed to tell their texts apart: a sign does not
stand before a text that begins with the same sign, an operator in front of its operand is not
called or followed by an operator, and no `else` comes behind an `if` without one. Where these
rules are kept, a text that begins with a statement begins with no other one (`Clause.told`), and
where one of them is not, two statements have one text. -/

namespace Espalier

/-! ## Statements and their text -/

/-- May the character stand in a name? -/
def isNameChar (c : Char) : Bool := c.isAlphanum || c == '$' || c == '_' || 127 < c.toNat

/-- Is the text a name that is no word of the language? -/
def isPlainName (x : String) : Bool :=
  x != "" && x.toList.all isNameChar && !(["typeof", "void", "delete", "if", "else"].contains x)

/-- A name that is no word of the language. -/
abbrev PlainName := { x : String // isPlainName x = true }

/-- An expression of names, operators with one operand, and calls. -/
inductive Term where
  | name (x : PlainName)
  | unary (o : UnaryOperator) (e : Term)
  | update (o : UpdateOperator) (before : Bool) (e : Term)
  | call (f : Term) (args : List Term)

/-- A statement of blocks, `if` with and without `else`, and expressions. -/
inductive Clause where
  | block (body : List Clause)
  | choice (test : Term) (yes : Clause)
  | choiceElse (test : Term) (yes no : Clause)
  | expression (e : Term)

/-- What stands in front of the operand. -/
def UnaryOperator.opening (o : UnaryOperator) : List Char :=
  o.symbol.toList ++ if o.isKeyword then [' '] else []

mutual

/-- The text of an expression. -/
def Term.chars : Term → List Char
  | .name x => x.1.toList
  | .unary o e => o.opening ++ e.chars
  | .update o before e =>
    if before then o.symbol.toList ++ e.chars else e.chars ++ o.symbol.toList
  | .call f es => f.chars ++ '(' :: (Term.listChars es ++ [')'])

/-- The texts of expressions, between commas. -/
def Term.listChars : List Term → List Char
  | [] => []
  | e :: es => e.chars ++ Term.moreChars es

/-- The texts of expressions, each behind a comma. -/
def Term.moreChars : List Term → List Char
  | [] => []
  | e :: es => ',' :: ' ' :: (e.chars ++ Term.moreChars es)

end

mutual

/-- The text of a statement. -/
def Clause.chars : Clause → List Char
  | .block body => '\x7b' :: (Clause.bodyChars body ++ ['\x7d'])
  | .choice test yes => "if (".toList ++ test.chars ++ ')' :: ' ' :: yes.chars
  | .choiceElse test yes no =>
    "if (".toList ++ test.chars ++ ')' :: ' ' :: (yes.chars ++ (" else ".toList ++ no.chars))
  | .expression e => e.chars ++ [';']

/-- What stands between the braces of a block: each statement behind a blank, and a blank. -/
def Clause.bodyChars : List Clause → List Char
  | [] => []
  | s :: ss => ' ' :: (s.chars ++ Clause.restChars ss)

/-- The other statements of a block, and the last blank. -/
def Clause.restChars : List Clause → List Char
  | [] => [' ']
  | s :: ss => ' ' :: (s.chars ++ Clause.restChars ss)

end

/-! ## The rules -/

/-- The sign that an operator is. -/
def UnaryOperator.sign? : UnaryOperator → Option Char
  | .minus => some '-'
  | .plus => some '+'
  | _ => none

/-- Is the expression a name with what stands behind it? -/
def Term.isPostfix : Term → Bool
  | .name _ | .call .. => true
  | .update _ before _ => !before
  | .unary .. => false

mutual

/-- No sign stands before its like, and nothing stands behind an expression that begins with an
operator. -/
def Term.separated : Term → Bool
  | .name _ => true
  | .unary o e => e.separated && o.sign?.all fun c => e.chars.head? != some c
  | .update _ before e => e.separated && (before || e.isPostfix)
  | .call f es => f.separated && f.isPostfix && Term.allSeparated es

/-- All expressions of a list keep the rules. -/
def Term.allSeparated : List Term → Bool
  | [] => true
  | e :: es => e.separated && Term.allSeparated es

end

/-- Could an `else` behind the statement belong to it? -/
def Clause.isOpen : Clause → Bool
  | .choice .. => true
  | .choiceElse _ _ no => no.isOpen
  | .block _ | .expression _ => false

mutual

/-- The expressions keep the rules, and no `else` stands behind a statement that is open. -/
def Clause.separated : Clause → Bool
  | .block body => Clause.allSeparated body
  | .choice test yes => test.separated && yes.separated
  | .choiceElse test yes no => test.separated && yes.separated && !yes.isOpen && no.separated
  | .expression e => e.separated

/-- All statements of a list keep the rules. -/
def Clause.allSeparated : List Clause → Bool
  | [] => true
  | s :: ss => s.separated && Clause.allSeparated ss

end

/-- Induction on expressions, with all members of a list at once. -/
theorem Term.induction {P : Term → Prop} (name : ∀ x, P (.name x))
    (unary : ∀ o e, P e → P (.unary o e)) (update : ∀ o b e, P e → P (.update o b e))
    (call : ∀ f es, P f → (∀ e ∈ es, P e) → P (.call f es)) (e : Term) : P e :=
  @Term.rec P (fun es => ∀ e ∈ es, P e) name (fun o e he => unary o e he)
    (fun o b e he => update o b e he) (fun f es hf hes => call f es hf hes) (by simp)
    (fun e es he hes e' he' => by
      rcases List.mem_cons.mp he' with rfl | he'
      · exact he
      · exact hes e' he') e

/-! ## Names -/

/-- The first part of a text, as far as the characters of names go, is known from the text. -/
theorem span_unique {a a' b b' : List Char} (ha : a.all isNameChar) (ha' : a'.all isNameChar)
    (hb : ∀ c ∈ b.head?, isNameChar c = false) (hb' : ∀ c ∈ b'.head?, isNameChar c = false)
    (h : a ++ b = a' ++ b') : a = a' ∧ b = b' := by
  induction a generalizing a' with
  | nil =>
    cases a' with
    | nil => exact ⟨rfl, h⟩
    | cons c a' =>
      obtain rfl : b = c :: (a' ++ b') := by simpa using h
      simp_all
  | cons c a ih =>
    cases a' with
    | nil =>
      obtain rfl : c :: (a ++ b) = b' := by simpa using h
      simp_all
    | cons c' a' =>
      simp only [List.cons_append, List.cons.injEq] at h
      simp only [List.all_cons, Bool.and_eq_true] at ha ha'
      obtain ⟨hrest, hb⟩ := ih ha.2 ha'.2 h.2
      exact ⟨by rw [h.1, hrest], hb⟩

namespace PlainName

theorem all (x : PlainName) : x.1.toList.all isNameChar := by
  have h := x.2
  simp only [isPlainName, Bool.and_eq_true] at h
  exact h.1.2

theorem exists_cons (x : PlainName) : ∃ c cs, x.1.toList = c :: cs ∧ isNameChar c = true := by
  have h := x.2
  simp only [isPlainName, Bool.and_eq_true, bne_iff_ne, ne_eq] at h
  cases hx : x.1.toList with
  | nil => exact absurd (String.toList_eq_nil_iff.mp hx) h.1.1
  | cons c cs => exact ⟨c, cs, rfl, by simpa [hx] using List.all_eq_true.mp h.1.2 c⟩

theorem ne_of_mem (x : PlainName) {w : String}
    (hw : w ∈ ["typeof", "void", "delete", "if", "else"]) : x.1 ≠ w := by
  rintro rfl
  have h := x.2
  simp only [isPlainName, Bool.and_eq_true, Bool.not_eq_true', List.contains_eq_mem,
    decide_eq_false_iff_not] at h
  exact h.2 hw

/-- A word of the language that is followed by something else is not a name with what follows. -/
theorem append_ne (x : PlainName) {w : String} (hw : w ∈ ["typeof", "void", "delete", "if", "else"])
    {b b' : List Char} (hb : ∀ c ∈ b.head?, isNameChar c = false)
    (hb' : ∀ c ∈ b'.head?, isNameChar c = false) : w.toList ++ b ≠ x.1.toList ++ b' := by
  intro h
  have hall : ∀ w ∈ ["typeof", "void", "delete", "if", "else"], w.toList.all isNameChar := by decide
  exact x.ne_of_mem hw (String.toList_injective (span_unique (hall w hw) x.all hb hb' h).1).symm

end PlainName

/-! ## What stands behind a name -/

/-- What can stand behind a name: an operator or the arguments of a call. -/
inductive Tail where
  | post (o : UpdateOperator)
  | args (es : List Term)

/-- The text of what stands behind a name. -/
def Tail.chars : Tail → List Char
  | .post o => o.symbol.toList
  | .args es => '(' :: (Term.listChars es ++ [')'])

/-- An expression with something behind it. -/
def Tail.onto (e : Term) : Tail → Term
  | .post o => .update o false e
  | .args es => .call e es

/-- The name at the start of an expression, and what stands behind it, from the left. -/
def Term.spine : Term → Option (PlainName × List Tail)
  | .name x => some (x, [])
  | .update o before e => if before then none else e.spine.map fun s => (s.1, s.2 ++ [.post o])
  | .call f es => f.spine.map fun s => (s.1, s.2 ++ [.args es])
  | .unary .. => none

namespace Term

variable {e e' : Term} {x : PlainName} {l : List Tail}

theorem exists_spine (h : e.separated) (hp : e.isPostfix) : ∃ x l, e.spine = some (x, l) := by
  induction e using Term.induction with
  | name x => exact ⟨x, [], rfl⟩
  | unary o e => cases hp
  | update o before e ih =>
    cases before with
    | true => cases hp
    | false =>
      simp only [separated, Bool.and_eq_true, Bool.false_or] at h
      obtain ⟨x, l, hs⟩ := ih h.1 h.2
      exact ⟨x, l ++ [.post o], by simp [spine, hs]⟩
  | call f es ih =>
    simp only [separated, Bool.and_eq_true] at h
    obtain ⟨x, l, hs⟩ := ih h.1.1 h.1.2
    exact ⟨x, l ++ [.args es], by simp [spine, hs]⟩

theorem chars_of_spine (h : e.spine = some (x, l)) :
    e.chars = x.1.toList ++ l.flatMap Tail.chars := by
  induction e using Term.induction generalizing x l with
  | name y =>
    obtain ⟨rfl, rfl⟩ := Prod.mk.inj (Option.some.inj h)
    simp [chars]
  | unary o e => cases h
  | update o before e ih =>
    cases before with
    | true => cases h
    | false =>
      obtain ⟨⟨y, m⟩, hs, heq⟩ := Option.map_eq_some_iff.mp h
      obtain ⟨rfl, rfl⟩ := Prod.mk.inj heq
      simp [chars, ih hs, Tail.chars]
  | call f es ih =>
    obtain ⟨⟨y, m⟩, hs, heq⟩ := Option.map_eq_some_iff.mp h
    obtain ⟨rfl, rfl⟩ := Prod.mk.inj heq
    simp [chars, ih hs, Tail.chars]

/-- An expression is made of its name and what stands behind it. -/
theorem foldl_spine (h : e.spine = some (x, l)) : l.foldl Tail.onto (.name x) = e := by
  induction e using Term.induction generalizing x l with
  | name y =>
    obtain ⟨rfl, rfl⟩ := Prod.mk.inj (Option.some.inj h)
    rfl
  | unary o e => cases h
  | update o before e ih =>
    cases before with
    | true => cases h
    | false =>
      obtain ⟨⟨y, m⟩, hs, heq⟩ := Option.map_eq_some_iff.mp h
      obtain ⟨rfl, rfl⟩ := Prod.mk.inj heq
      simp [ih hs, Tail.onto]
  | call f es ih =>
    obtain ⟨⟨y, m⟩, hs, heq⟩ := Option.map_eq_some_iff.mp h
    obtain ⟨rfl, rfl⟩ := Prod.mk.inj heq
    simp [ih hs, Tail.onto]

/-- What stands behind the name is separated as the expression is. -/
theorem separated_of_spine (h : e.separated) (hs : e.spine = some (x, l)) :
    ∀ es, .args es ∈ l → allSeparated es := by
  induction e using Term.induction generalizing x l with
  | name y =>
    obtain ⟨rfl, rfl⟩ := Prod.mk.inj (Option.some.inj hs)
    simp
  | unary o e => cases hs
  | update o before e ih =>
    cases before with
    | true => cases hs
    | false =>
      simp only [separated, Bool.and_eq_true] at h
      obtain ⟨⟨y, m⟩, hm, heq⟩ := Option.map_eq_some_iff.mp hs
      obtain ⟨rfl, rfl⟩ := Prod.mk.inj heq
      simpa using ih h.1 hm
  | call f es ih =>
    simp only [separated, Bool.and_eq_true] at h
    obtain ⟨⟨y, m⟩, hm, heq⟩ := Option.map_eq_some_iff.mp hs
    obtain ⟨rfl, rfl⟩ := Prod.mk.inj heq
    intro es' hmem
    rcases List.mem_append.mp hmem with hmem | hmem
    · exact ih h.1.1 hm es' hmem
    · obtain rfl : es' = es := by simpa using hmem
      exact h.2

end Term

/-! ## Expressions are told apart -/

/-- What can stand behind an expression that is complete. -/
def EndsTerm (r : List Char) : Prop := ∃ c r', r = c :: r' ∧ c ∈ [')', ',', ';']

/-- From a text that begins with the expression, the expression and the rest are known. -/
def Term.Told (e : Term) : Prop := ∀ e' r r', e.separated → e'.separated → EndsTerm r →
  EndsTerm r' → e.chars ++ r = e'.chars ++ r' → e = e' ∧ r = r'

theorem EndsTerm.not_isNameChar {r : List Char} (h : EndsTerm r) :
    ∀ c ∈ r.head?, isNameChar c = false := by
  obtain ⟨c, r', rfl, hc⟩ := h
  revert c
  simp
  decide

theorem UnaryOperator.opening_inj {o o' : UnaryOperator} {a a' : List Char}
    (h : o.opening ++ a = o'.opening ++ a') : o = o' ∧ a = a' := by
  cases o <;> cases o' <;> simp_all [opening, symbol, isKeyword]

theorem UpdateOperator.symbol_inj {o o' : UpdateOperator} {a a' : List Char}
    (h : o.symbol.toList ++ a = o'.symbol.toList ++ a') : o = o' ∧ a = a' := by
  cases o <;> cases o' <;> simp_all [symbol]

namespace Term

variable {e e' : Term} {r r' : List Char}

/-- An expression begins with a sign, a letter, or a character of a name. -/
theorem head (h : e.separated) : ∃ c cs, e.chars = c :: cs ∧
    (isNameChar c = true ∨ c ∈ ['-', '+', '!', '~']) := by
  induction e using Term.induction with
  | name x =>
    obtain ⟨c, cs, hx, hc⟩ := x.exists_cons
    exact ⟨c, cs, hx, .inl hc⟩
  | unary o e =>
    cases o <;> simp [chars, UnaryOperator.opening, UnaryOperator.symbol, UnaryOperator.isKeyword,
      isNameChar]
  | update o before e ih =>
    simp only [separated, Bool.and_eq_true] at h
    cases before with
    | true => cases o <;> simp [chars, UpdateOperator.symbol]
    | false =>
      obtain ⟨c, cs, he, hc⟩ := ih h.1
      exact ⟨c, cs ++ o.symbol.toList, by simp [chars, he], hc⟩
  | call f es ih =>
    simp only [separated, Bool.and_eq_true] at h
    obtain ⟨c, cs, he, hc⟩ := ih h.1.1
    exact ⟨c, _, by rw [chars, he, List.cons_append], hc⟩

/-- An expression that begins with a sign is no name with something behind it. -/
theorem sign_ne_chain {c : Char} {a : List Char} (hc : isNameChar c = false)
    (h : e'.separated) (hp : e'.isPostfix) : c :: a ≠ e'.chars ++ r' := by
  obtain ⟨x, l, hs⟩ := exists_spine h hp
  obtain ⟨d, ds, hx, hd⟩ := x.exists_cons
  rw [chars_of_spine hs, hx]
  intro heq
  simp only [List.cons_append, List.cons.injEq] at heq
  rw [heq.1, hd] at hc
  cases hc

/-- What stands behind a name does not go on with the name. -/
theorem tails_head (l : List Tail) (hr : EndsTerm r) :
    ∀ c ∈ (l.flatMap Tail.chars ++ r).head?, isNameChar c = false := by
  cases l with
  | nil => exact hr.not_isNameChar
  | cons t l =>
    cases t with
    | post o => cases o <;> simp [Tail.chars, UpdateOperator.symbol] <;> decide
    | args es => simp [Tail.chars]; decide

/-- A word of the language is no name with something behind it. -/
theorem word_ne_chain {w : String} (hw : w ∈ ["typeof", "void", "delete", "if", "else"])
    (h : e'.separated) (hp : e'.isPostfix) (hr' : EndsTerm r') (a : List Char) :
    w.toList ++ ' ' :: a ≠ e'.chars ++ r' := by
  obtain ⟨x, l, hs⟩ := exists_spine h hp
  rw [chars_of_spine hs, List.append_assoc]
  exact x.append_ne hw (by simp; decide) (tails_head l hr')

/-- An operator in front of its operand is no name with something behind it. -/
theorem unary_ne_chain {o : UnaryOperator} (h : e'.separated) (hp : e'.isPostfix)
    (hr' : EndsTerm r') : o.opening ++ (e.chars ++ r) ≠ e'.chars ++ r' := by
  cases o with
  | minus | plus | not | bitNot => exact sign_ne_chain (by decide) h hp
  | typeof => exact word_ne_chain (w := "typeof") (by decide) h hp hr' _
  | void => exact word_ne_chain (w := "void") (by decide) h hp hr' _
  | delete => exact word_ne_chain (w := "delete") (by decide) h hp hr' _

/-- A sign does not make an operator that changes its operand with what stands behind it. -/
theorem unary_ne_update {o : UnaryOperator} {u : UpdateOperator} {a : List Char}
    (h : (unary o e).separated) : o.opening ++ (e.chars ++ r) ≠ u.symbol.toList ++ a := by
  simp only [separated, Bool.and_eq_true] at h
  obtain ⟨c, cs, he, -⟩ := head h.1
  have hhead := h.2
  rw [he] at hhead ⊢
  cases o <;> cases u <;>
    simp_all [UnaryOperator.opening, UnaryOperator.symbol, UnaryOperator.isKeyword,
      UpdateOperator.symbol, UnaryOperator.sign?]

/-- The arguments of a call are told apart when each of them is. -/
theorem moreChars_inj {es es' : List Term} (hes : ∀ e ∈ es, e.Told) (h : allSeparated es)
    (h' : allSeparated es')
    (heq : moreChars es ++ ')' :: r = moreChars es' ++ ')' :: r') : es = es' ∧ r = r' := by
  induction es generalizing es' with
  | nil =>
    cases es' with
    | nil => simpa [moreChars] using heq
    | cons e' es' => simp [moreChars] at heq
  | cons e es ih =>
    cases es' with
    | nil => simp [moreChars] at heq
    | cons e' es' =>
      simp only [allSeparated, Bool.and_eq_true] at h h'
      simp only [moreChars, List.cons_append, List.cons.injEq, true_and, List.append_assoc] at heq
      have hends : ∀ (l : List Term) (q : List Char), EndsTerm (moreChars l ++ ')' :: q) := by
        rintro (_ | ⟨a, l⟩) q
        · exact ⟨')', q, rfl, by simp⟩
        · exact ⟨',', _, rfl, by simp⟩
      obtain ⟨rfl, hrest⟩ := hes e (by simp) e' _ _ h.1 h'.1 (hends es r) (hends es' r') heq
      obtain ⟨rfl, hr⟩ := ih (fun a ha => hes a (by simp [ha])) h.2 h'.2 hrest
      exact ⟨rfl, hr⟩

theorem listChars_inj {es es' : List Term} (hes : ∀ e ∈ es, e.Told) (h : allSeparated es)
    (h' : allSeparated es')
    (heq : listChars es ++ ')' :: r = listChars es' ++ ')' :: r') : es = es' ∧ r = r' := by
  have hcomma : ∀ es : List Term, es ≠ [] → moreChars es = ',' :: ' ' :: listChars es := by
    rintro (_ | ⟨e, es⟩) hne
    · exact absurd rfl hne
    · rfl
  have hclose : ∀ (es : List Term) (q q' : List Char), allSeparated es → es ≠ [] →
      ')' :: q ≠ listChars es ++ q' := by
    rintro (_ | ⟨e, es⟩) q q' hes hne
    · exact absurd rfl hne
    · simp only [allSeparated, Bool.and_eq_true] at hes
      obtain ⟨c, cs, he, hc⟩ := head hes.1
      simp only [listChars, he, List.cons_append, ne_eq, List.cons.injEq, not_and]
      rintro rfl
      exact absurd hc (by decide)
  by_cases hnil : es = []
  · subst hnil
    by_cases hnil' : es' = []
    · subst hnil'
      simpa [listChars] using heq
    · exact absurd heq (hclose es' _ _ h' hnil')
  · by_cases hnil' : es' = []
    · subst hnil'
      exact absurd heq.symm (hclose es _ _ h hnil)
    · refine moreChars_inj hes h h' ?_
      rw [hcomma es hnil, hcomma es' hnil', List.cons_append, List.cons_append, heq]
      rfl

/-- What stands behind a name is told apart when the arguments of its calls are. -/
theorem tails_inj {l l' : List Tail} (hes : ∀ es, .args es ∈ l → ∀ e ∈ es, e.Told)
    (h : ∀ es, .args es ∈ l → allSeparated es) (h' : ∀ es, .args es ∈ l' → allSeparated es)
    (hr : EndsTerm r) (hr' : EndsTerm r')
    (heq : l.flatMap Tail.chars ++ r = l'.flatMap Tail.chars ++ r') : l = l' ∧ r = r' := by
  have hstop : ∀ (t : Tail) (q : List Char), ¬ EndsTerm (t.chars ++ q) := by
    rintro (o | es) q ⟨c, q', hq, hc⟩
    · cases o <;> simp [Tail.chars, UpdateOperator.symbol] at hq <;> simp [← hq.1] at hc
    · simp [Tail.chars] at hq
      simp [← hq.1] at hc
  induction l generalizing l' with
  | nil =>
    cases l' with
    | nil => exact ⟨rfl, heq⟩
    | cons t l' =>
      rw [List.flatMap_nil, List.nil_append, List.flatMap_cons, List.append_assoc] at heq
      exact absurd (heq ▸ hr) (hstop t _)
  | cons t l ih =>
    cases l' with
    | nil =>
      rw [List.flatMap_nil, List.nil_append, List.flatMap_cons, List.append_assoc] at heq
      exact absurd (heq ▸ hr') (hstop t _)
    | cons t' l' =>
      have hrest := fun heq => @ih l' (fun es hm => hes es (by simp [hm]))
        (fun es hm => h es (by simp [hm])) (fun es hm => h' es (by simp [hm])) heq
      rw [List.flatMap_cons, List.flatMap_cons, List.append_assoc, List.append_assoc] at heq
      cases t with
      | post o =>
        cases t' with
        | post o' =>
          obtain ⟨rfl, hbehind⟩ := UpdateOperator.symbol_inj heq
          obtain ⟨rfl, hr⟩ := hrest hbehind
          exact ⟨rfl, hr⟩
        | args es' => cases o <;> simp [Tail.chars, UpdateOperator.symbol] at heq
      | args es =>
        cases t' with
        | post o' => cases o' <;> simp [Tail.chars, UpdateOperator.symbol] at heq
        | args es' =>
          simp only [Tail.chars, List.cons_append, List.cons.injEq, true_and, List.append_assoc,
            List.nil_append] at heq
          obtain ⟨rfl, hbehind⟩ :=
            listChars_inj (hes es (by simp)) (h es (by simp)) (h' es' (by simp)) heq
          obtain ⟨rfl, hr⟩ := hrest hbehind
          exact ⟨rfl, hr⟩

/-- Names with what stands behind them are told apart. -/
theorem chain_told (hp : e.isPostfix) (hes : ∀ x l, e.spine = some (x, l) →
    ∀ es, .args es ∈ l → ∀ a ∈ es, a.Told) : e.Told := by
  intro e' r r' h h' hr hr' heq
  obtain ⟨x, l, hs⟩ := exists_spine h hp
  cases hp' : e'.isPostfix with
  | true =>
    obtain ⟨x', l', hs'⟩ := exists_spine h' hp'
    rw [chars_of_spine hs, chars_of_spine hs', List.append_assoc, List.append_assoc] at heq
    obtain ⟨hx, hbehind⟩ := span_unique x.all x'.all (tails_head l hr) (tails_head l' hr') heq
    obtain rfl : x = x' := Subtype.ext (String.toList_injective hx)
    obtain ⟨rfl, hr⟩ := tails_inj (hes x l hs) (separated_of_spine h hs)
      (separated_of_spine h' hs') hr hr' hbehind
    exact ⟨by rw [← foldl_spine hs, ← foldl_spine hs'], hr⟩
  | false =>
    cases e' with
    | name | call => cases hp'
    | unary o f =>
      simp only [chars, List.append_assoc] at heq
      exact absurd heq.symm (unary_ne_chain h hp hr)
    | update o before f =>
      cases before with
      | false => cases hp'
      | true =>
        simp only [chars, if_true] at heq
        cases o <;> exact absurd heq.symm (sign_ne_chain (by decide) h hp)

/-- Expressions that keep the rules are told apart: the first of them is known from the text. -/
theorem told (e : Term) : e.Told ∧ ∀ x l, e.spine = some (x, l) →
    ∀ es, .args es ∈ l → ∀ a ∈ es, a.Told := by
  induction e using Term.induction with
  | name x =>
    have hes : ∀ y l, (name x).spine = some (y, l) → ∀ es, .args es ∈ l → ∀ a ∈ es, a.Told := by
      intro y l hs
      obtain ⟨rfl, rfl⟩ := Prod.mk.inj (Option.some.inj hs)
      simp
    exact ⟨chain_told rfl hes, hes⟩
  | unary o e ih =>
    refine ⟨fun e' r r' h h' hr hr' heq => ?_, fun x l hs => by cases hs⟩
    rw [chars, List.append_assoc] at heq
    cases e' with
    | unary o' f =>
      rw [chars, List.append_assoc] at heq
      obtain ⟨rfl, hbehind⟩ := UnaryOperator.opening_inj heq
      simp only [separated, Bool.and_eq_true] at h h'
      obtain ⟨rfl, hr⟩ := ih.1 f r r' h.1 h'.1 hr hr' hbehind
      exact ⟨rfl, hr⟩
    | update u before f =>
      cases before with
      | true =>
        rw [chars, if_pos rfl, List.append_assoc] at heq
        exact absurd heq (unary_ne_update h)
      | false => exact absurd heq (unary_ne_chain h' rfl hr')
    | name | call => exact absurd heq (unary_ne_chain h' rfl hr')
  | update o before e ih =>
    cases before with
    | true =>
      refine ⟨fun e' r r' h h' hr hr' heq => ?_, fun x l hs => by cases hs⟩
      rw [chars, if_pos rfl, List.append_assoc] at heq
      cases hp' : e'.isPostfix with
      | true => cases o <;> exact absurd heq (sign_ne_chain (by decide) h' hp')
      | false =>
        cases e' with
        | name | call => cases hp'
        | unary o' f =>
          rw [chars, List.append_assoc] at heq
          exact absurd heq.symm (unary_ne_update h')
        | update o' before f =>
          cases before with
          | false => cases hp'
          | true =>
            rw [chars, if_pos rfl, List.append_assoc] at heq
            obtain ⟨rfl, hbehind⟩ := UpdateOperator.symbol_inj heq
            simp only [separated, Bool.and_eq_true] at h h'
            obtain ⟨rfl, hr⟩ := ih.1 f r r' h.1 h'.1 hr hr' hbehind
            exact ⟨rfl, hr⟩
    | false =>
      have hes : ∀ x l, (update o false e).spine = some (x, l) →
          ∀ es, .args es ∈ l → ∀ a ∈ es, a.Told := by
        intro x l hs es hmem
        obtain ⟨⟨y, m⟩, hm, heq⟩ := Option.map_eq_some_iff.mp hs
        obtain ⟨rfl, rfl⟩ := Prod.mk.inj heq
        exact ih.2 y m hm es (by simpa using hmem)
      exact ⟨chain_told rfl hes, hes⟩
  | call f es ihf ih =>
    have hes : ∀ x l, (call f es).spine = some (x, l) →
        ∀ es, .args es ∈ l → ∀ a ∈ es, a.Told := by
      intro x l hs es' hmem
      obtain ⟨⟨y, m⟩, hm, heq⟩ := Option.map_eq_some_iff.mp hs
      obtain ⟨rfl, rfl⟩ := Prod.mk.inj heq
      rcases List.mem_append.mp hmem with hmem | hmem
      · exact ihf.2 y m hm es' hmem
      · obtain rfl : es' = es := by simpa using hmem
        exact fun a ha => (ih a ha).1
    exact ⟨chain_told rfl hes, hes⟩

end Term

/-! ## Statements are told apart -/

/-- The text goes on with an `else`. -/
def BeginsElse (r : List Char) : Prop := " else ".toList <+: r

/-- From a text that begins with the statement, the statement and the rest are known, unless an
`else` behind it could belong to it. -/
def Clause.Told (s : Clause) : Prop := ∀ s' r r', s.separated → s'.separated →
  (s.isOpen → ¬ BeginsElse r) → (s'.isOpen → ¬ BeginsElse r') →
  s.chars ++ r = s'.chars ++ r' → s = s' ∧ r = r'

/-- Induction on statements, with all members of a list at once. -/
theorem Clause.induction {P : Clause → Prop} (block : ∀ ss, (∀ s ∈ ss, P s) → P (.block ss))
    (choice : ∀ e s, P s → P (.choice e s))
    (choiceElse : ∀ e s s', P s → P s' → P (.choiceElse e s s'))
    (expression : ∀ e, P (.expression e)) (s : Clause) : P s :=
  @Clause.rec P (fun ss => ∀ s ∈ ss, P s) (fun ss hss => block ss hss)
    (fun e s hs => choice e s hs) (fun e s s' hs hs' => choiceElse e s s' hs hs') expression
    (by simp)
    (fun s ss hs hss s' hs' => by
      rcases List.mem_cons.mp hs' with rfl | hs'
      · exact hs
      · exact hss s' hs') s

namespace Clause

variable {s s' : Clause} {r r' : List Char}

/-- A word that begins a statement, or a part of one, is no expression. -/
theorem word_ne_expression {w : String} (hw : w ∈ ["if", "else"]) {e : Term} (h : e.separated)
    (hr : EndsTerm r) (a : List Char) : w.toList ++ ' ' :: a ≠ e.chars ++ r := by
  cases hp : e.isPostfix with
  | true =>
    exact Term.word_ne_chain (List.mem_append_right ["typeof", "void", "delete"] hw) h hp hr a
  | false =>
    obtain rfl | rfl : w = "if" ∨ w = "else" := by simpa using hw
    all_goals
      cases e with
      | name | call => cases hp
      | unary o f =>
        cases o <;> simp [Term.chars, UnaryOperator.opening, UnaryOperator.symbol,
          UnaryOperator.isKeyword]
      | update o before f =>
        cases before with
        | false => cases hp
        | true => cases o <;> simp [Term.chars, UpdateOperator.symbol]

/-- A statement begins with a brace, with `if`, or with an expression. -/
theorem chars_cases (s : Clause) : (∃ a, s.chars = '\x7b' :: a) ∨
    (∃ a, s.chars = "if".toList ++ ' ' :: a) ∨ ∃ e, s = .expression e := by
  cases s with
  | block body => exact .inl ⟨_, rfl⟩
  | choice | choiceElse => exact .inr (.inl ⟨_, rfl⟩)
  | expression e => exact .inr (.inr ⟨e, rfl⟩)

theorem endsTerm_semicolon (r : List Char) : EndsTerm (';' :: r) := ⟨';', r, rfl, by simp⟩

/-- A statement does not begin like an `else`. -/
theorem not_beginsElse (h : s.separated) : ¬ BeginsElse (' ' :: (s.chars ++ r)) := by
  rintro ⟨a, ha⟩
  have ha' : "else".toList ++ ' ' :: a = s.chars ++ r := by simpa using ha
  rcases s.chars_cases with ⟨b, hb⟩ | ⟨b, hb⟩ | ⟨e, rfl⟩
  · simp [hb] at ha'
  · simp [hb] at ha'
  · rw [chars, List.append_assoc] at ha'
    exact word_ne_expression (by simp) h (endsTerm_semicolon r) a ha'

/-- A statement does not begin with a closing brace. -/
theorem close_ne (h : s.separated) (a : List Char) : '\x7d' :: a ≠ s.chars ++ r := by
  rcases s.chars_cases with ⟨b, hb⟩ | ⟨b, hb⟩ | ⟨e, rfl⟩
  · simp [hb]
  · simp [hb]
  · obtain ⟨c, cs, he, hc⟩ := Term.head h
    simp only [chars, he, List.cons_append, ne_eq, List.cons.injEq, not_and]
    rintro rfl
    exact absurd hc (by decide)

/-- The statements of a block are told apart when each of them is. -/
theorem restChars_inj {ss ss' : List Clause} (hss : ∀ s ∈ ss, s.Told) (h : allSeparated ss)
    (h' : allSeparated ss')
    (heq : restChars ss ++ '\x7d' :: r = restChars ss' ++ '\x7d' :: r') : ss = ss' ∧ r = r' := by
  have hrest : ∀ (l : List Clause) (q : List Char), allSeparated l →
      ¬ BeginsElse (restChars l ++ '\x7d' :: q) := by
    rintro (_ | ⟨s, l⟩) q hl
    · rintro ⟨a, ha⟩
      simp [restChars] at ha
    · simp only [allSeparated, Bool.and_eq_true] at hl
      rw [restChars, List.cons_append, List.append_assoc]
      exact not_beginsElse hl.1
  induction ss generalizing ss' with
  | nil =>
    cases ss' with
    | nil => simpa [restChars] using heq
    | cons s' ss' =>
      simp only [allSeparated, Bool.and_eq_true] at h'
      simp only [restChars, List.cons_append, List.nil_append, List.cons.injEq, true_and,
        List.append_assoc] at heq
      exact absurd heq (close_ne h'.1 r)
  | cons s ss ih =>
    simp only [allSeparated, Bool.and_eq_true] at h
    cases ss' with
    | nil =>
      simp only [restChars, List.cons_append, List.nil_append, List.cons.injEq, true_and,
        List.append_assoc] at heq
      exact absurd heq.symm (close_ne h.1 r')
    | cons s' ss' =>
      simp only [allSeparated, Bool.and_eq_true] at h'
      simp only [restChars, List.cons_append, List.cons.injEq, true_and, List.append_assoc] at heq
      obtain ⟨rfl, hbehind⟩ := hss s (by simp) s' _ _ h.1 h'.1 (fun _ => hrest ss r h.2)
        (fun _ => hrest ss' r' h'.2) heq
      obtain ⟨rfl, hr⟩ := ih (fun a ha => hss a (by simp [ha])) h.2 h'.2 hbehind
      exact ⟨rfl, hr⟩

theorem bodyChars_inj {ss ss' : List Clause} (hss : ∀ s ∈ ss, s.Told) (h : allSeparated ss)
    (h' : allSeparated ss')
    (heq : bodyChars ss ++ '\x7d' :: r = bodyChars ss' ++ '\x7d' :: r') : ss = ss' ∧ r = r' := by
  cases ss with
  | nil =>
    cases ss' with
    | nil => simpa [bodyChars] using heq
    | cons => simp [bodyChars] at heq
  | cons s ss =>
    cases ss' with
    | nil => simp [bodyChars] at heq
    | cons s' ss' => exact restChars_inj hss h h' heq

/-- The test of an `if` and what is behind it are known from the text. -/
theorem test_inj {e e' : Term} {a a' : List Char} (h : e.separated) (h' : e'.separated)
    (heq : "if (".toList ++ (e.chars ++ ')' :: ' ' :: a) =
      "if (".toList ++ (e'.chars ++ ')' :: ' ' :: a')) : e = e' ∧ a = a' := by
  have hends : ∀ q, EndsTerm (')' :: q) := fun q => ⟨')', q, rfl, by simp⟩
  obtain ⟨rfl, hbehind⟩ := (Term.told e).1 e' _ _ h h' (hends _) (hends _)
    (List.append_cancel_left heq)
  exact ⟨rfl, by simpa using hbehind⟩

theorem brace_ne_expression {e : Term} (h : e.separated) (a : List Char) :
    '\x7b' :: a ≠ e.chars ++ ';' :: r := by
  obtain ⟨c, cs, he, hc⟩ := Term.head h
  simp only [he, List.cons_append, ne_eq, List.cons.injEq, not_and]
  rintro rfl
  exact absurd hc (by decide)

theorem if_ne_expression {e : Term} (h : e.separated) (a : List Char) :
    "if (".toList ++ a ≠ e.chars ++ ';' :: r :=
  word_ne_expression (w := "if") (by simp) h (endsTerm_semicolon r) ('(' :: a)

/-- Statements that keep the rules are told apart. -/
theorem told (s : Clause) : s.Told := by
  induction s using Clause.induction with
  | block ss ih =>
    intro s' r r' h h' _ _ heq
    simp only [chars, List.cons_append, List.append_assoc, List.nil_append] at heq
    cases s' with
    | block ss' =>
      simp only [chars, List.cons_append, List.append_assoc, List.nil_append, List.cons.injEq,
        true_and] at heq
      obtain ⟨rfl, hr⟩ := bodyChars_inj ih h h' heq
      exact ⟨rfl, hr⟩
    | choice | choiceElse => simp [chars] at heq
    | expression e =>
      rw [chars, List.append_assoc] at heq
      exact absurd heq (brace_ne_expression h' _)
  | choice e s ih =>
    intro s' r r' h h' hopen hopen' heq
    simp only [separated, Bool.and_eq_true] at h
    simp only [chars, List.cons_append, List.append_assoc] at heq
    cases s' with
    | block ss' => simp [chars] at heq
    | choice e' y =>
      simp only [separated, Bool.and_eq_true] at h'
      simp only [chars, List.cons_append, List.append_assoc] at heq
      obtain ⟨rfl, hbehind⟩ := test_inj h.1 h'.1 heq
      obtain ⟨rfl, hr⟩ := ih y r r' h.2 h'.2 (fun _ => hopen rfl) (fun _ => hopen' rfl) hbehind
      exact ⟨rfl, hr⟩
    | choiceElse e' y n =>
      simp only [separated, Bool.and_eq_true, Bool.not_eq_true'] at h'
      simp only [chars, List.cons_append, List.append_assoc] at heq
      obtain ⟨rfl, hbehind⟩ := test_inj h.1 h'.1.1.1 heq
      -- What stands behind the first statement is an `else`, which would belong to it.
      obtain ⟨-, hr⟩ := ih y r _ h.2 h'.1.1.2 (fun _ => hopen rfl)
        (fun hy => by rw [h'.1.2] at hy; cases hy) hbehind
      exact absurd ⟨n.chars ++ r', hr.symm⟩ (hopen rfl)
    | expression e' =>
      rw [chars, List.append_assoc] at heq
      exact absurd heq (if_ne_expression h' _)
  | choiceElse e s m ih ihm =>
    intro s' r r' h h' hopen hopen' heq
    simp only [separated, Bool.and_eq_true, Bool.not_eq_true'] at h
    simp only [chars, List.cons_append, List.append_assoc] at heq
    cases s' with
    | block ss' => simp [chars] at heq
    | choice e' y =>
      simp only [separated, Bool.and_eq_true] at h'
      simp only [chars, List.cons_append, List.append_assoc] at heq
      obtain ⟨rfl, hbehind⟩ := test_inj h.1.1.1 h'.1 heq
      obtain ⟨-, hr⟩ := ih y _ r' h.1.1.2 h'.2 (fun hs => by rw [h.1.2] at hs; cases hs)
        (fun _ => hopen' rfl) hbehind
      exact absurd ⟨m.chars ++ r, hr⟩ (hopen' rfl)
    | choiceElse e' y n =>
      simp only [separated, Bool.and_eq_true, Bool.not_eq_true'] at h'
      simp only [chars, List.cons_append, List.append_assoc] at heq
      obtain ⟨rfl, hbehind⟩ := test_inj h.1.1.1 h'.1.1.1 heq
      obtain ⟨rfl, hrest⟩ := ih y _ _ h.1.1.2 h'.1.1.2 (fun hs => by rw [h.1.2] at hs; cases hs)
        (fun hy => by rw [h'.1.2] at hy; cases hy) hbehind
      obtain ⟨rfl, hr⟩ := ihm n r r' h.2 h'.2 hopen hopen' (List.append_cancel_left hrest)
      exact ⟨rfl, hr⟩
    | expression e' =>
      rw [chars, List.append_assoc] at heq
      exact absurd heq (if_ne_expression h' _)
  | expression e =>
    intro s' r r' h h' _ _ heq
    rw [chars, List.append_assoc] at heq
    cases s' with
    | block ss' =>
      simp only [chars, List.cons_append, List.append_assoc] at heq
      exact absurd heq.symm (brace_ne_expression h _)
    | choice | choiceElse =>
      simp only [chars, List.cons_append, List.append_assoc] at heq
      exact absurd heq.symm (if_ne_expression h _)
    | expression e' =>
      rw [chars, List.append_assoc] at heq
      obtain ⟨rfl, hr⟩ := (Term.told e).1 e' _ _ h h' (endsTerm_semicolon r)
        (endsTerm_semicolon r') heq
      exact ⟨rfl, by simpa using hr⟩

end Clause

/-! ## The rules are needed -/

/-- Two signs are an operator that changes its operand. -/
theorem signs_confused (e : Term) :
    (Term.unary .minus (.unary .minus e)).chars = (Term.update .decrement true e).chars ∧
      (Term.unary .plus (.unary .plus e)).chars = (Term.update .increment true e).chars :=
  ⟨rfl, rfl⟩

/-- What stands behind an expression with an operator in front stands behind the operand. -/
theorem operators_confused (o : UnaryOperator) (u : UpdateOperator) (e : Term) (es : List Term) :
    (Term.call (.unary o e) es).chars = (Term.unary o (.call e es)).chars ∧
      (Term.update u false (.unary o e)).chars = (Term.unary o (.update u false e)).chars := by
  simp [Term.chars]

/-- An `else` belongs to the last `if`. -/
theorem elses_confused (e e' : Term) (s s' : Clause) :
    (Clause.choiceElse e (.choice e' s) s').chars =
      (Clause.choice e (.choiceElse e' s s')).chars := by
  simp [Clause.chars]

end Espalier
