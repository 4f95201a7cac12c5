import Espalier.Proofs.Editing
import Espalier.Proofs.Order
import Espalier.Proofs.Searches
import Espalier.Rule.Builtin
import Mathlib

set_option autoImplicit false

/-! # Literals for variables

A variable that is read is replaced by a literal only if the literal comes before the read, and so
does the declarator with this literal as its initial value (`Rule.inlinableLiteral?_precedes`; for
whole runs of the rule this is `constantInliner_precedes`). The declarator of the variable itself may
still come after the read, where it leads to the literal through another variable
(`earlyProgram_inlines`). -/

namespace Espalier

open SessionM Session

/-- What comes before something else does so with the declarator it is the initial value of. -/
theorem Tree.Precedes.declarator {t : Tree} {n m id d : NodeId} (ht : t.IsProgram)
    (h : t.Precedes n m) (hk : t.kind? d = some (.variableDeclarator id (some n)))
    (hd : t.Reachable d) : t.Precedes d m := by
  have hinit : t.occupant? (.slot d .init) = some n := by
    simp only [Tree.occupant?, Tree.field?, hk]
    rfl
  have hw : (Position.slot d .init).Within t.reachable := Position.within_of_parent rfl hd
  cases h with
  | @fork c a b type pos pos' hc htype hpos hpos' hearlier ha hb han hbm =>
    have hw' : pos.Within t.reachable := Position.within_of_parent hpos hc
    rcases han.cases_tail with rfl | ⟨q, haq, hqn⟩
    · -- Nothing in the declarator comes after its initial value.
      obtain rfl := ht.forest.single pos (.slot d .init) n hw' hw ha hinit
      obtain rfl := Option.some.inj hpos
      obtain rfl := Option.some.inj (htype.symm.trans (Tree.type?_of_kind hk))
      cases hearlier with
      | @field _ _ f g i j hf hg hi hj hlt =>
        obtain rfl := Option.some.inj hf
        have hlast : 1 = i := Option.some.inj hi
        have hbound : j < 2 := (List.findIdx?_eq_some_iff_getElem.mp hj).1
        omega
    · have hq := ht.forest.closed_below (ht.forest.closed pos a hw' ha) haq
      obtain rfl := ht.forest.parent_unique hq hd hqn ⟨.slot d .init, rfl, hinit⟩
      exact .fork hc htype hpos hpos' hearlier ha hb haq hbm

section Inlining

variable {s s' : Session} {K : Set NodeId} {p : PathId} {r literal b : NodeId}

/-- A path that passes a test of its type holds a node. -/
theorem PathId.holds_of_isAny {test : NodeType → Bool} (hrun : p.isAny test s = .ok true s') :
    s' = s ∧ ∃ n type, s.Holds p n ∧ s.tree.type? n = some type ∧ test type = true := by
  obtain ⟨o, s₁, htype, htest⟩ := bind_eq_ok hrun
  obtain ⟨k, s₂, hkind, hmap⟩ := bind_eq_ok htype
  obtain ⟨node, s₃, hnode, hask⟩ := bind_eq_ok hkind
  injection htest with htest hs'
  injection hmap with hmap hs₁
  subst hs' hs₁ hmap
  cases node with
  | none =>
    injection hask with hask
    subst hask
    cases htest
  | some n =>
    obtain ⟨rfl, hholds⟩ := PathId.holds_of_node? hnode
    dsimp only at hask
    cases hk : s₃.tree.kind? n with
    | none =>
      have hdangling : ask (fun t => t.kind? n) s₃ = .error .dangling s₃ := by
        show (get >>= fun s => found (s.tree.kind? n)) s₃ = _
        rw [run_get_bind, hk]
        rfl
      rw [bind_of_error hdangling] at hask
      cases hask
    | some kind =>
      rw [bind_of_ok (ask_run hk)] at hask
      injection hask with hkind hs₂
      subst hkind hs₂
      exact ⟨rfl, n, kind.type, hholds, Tree.type?_of_kind hk, htest⟩

/-- A literal is neither a function nor a program. -/
theorem NodeType.isLiteral_not_function {type : NodeType} (h : type.isLiteral = true) :
    type.isFunction = false ∧ (type == .program) = false := by
  revert h
  cases type <;> decide

/-- A literal is found for a variable that is never assigned again: it is held by the path that the
read is resolved to, and executed before the read. -/
theorem Rule.inlinableLiteral?_eq_ok {binding : Binding}
    (hrun : Rule.inlinableLiteral? p binding s = .ok (some literal) s') :
    (binding.isConstant = true ∧
      (binding.kind = .var ∨ binding.kind = .letVar ∨ binding.kind = .const)) ∧
    ∃ value s₁ n type, p.resolve false s = .ok value s₁ ∧ s₁.Holds value n ∧
      s₁.tree.type? n = some type ∧ type.isLiteral = true ∧
      value.executesBefore p s₁ = .ok true s' ∧ s'.Holds value literal := by
  unfold Rule.inlinableLiteral? at hrun
  split at hrun
  · cases hrun
  next hfixed =>
  simp only [Bool.or_eq_true, Bool.not_eq_true', not_or, Bool.not_eq_false, beq_iff_eq] at hfixed
  refine ⟨⟨hfixed.1, by tauto⟩, ?_⟩
  obtain ⟨value, s₁, hvalue, hvalued⟩ := bind_eq_ok hrun
  split at hvalued
  · cases hvalued
  obtain ⟨isLiteral, s₂, hliteral, htested⟩ := bind_eq_ok hvalued
  cases isLiteral with
  | false => cases htested
  | true =>
    obtain ⟨rfl, n, type, hn, htype, hisLiteral⟩ := PathId.holds_of_isAny hliteral
    rw [Bool.not_true, if_neg Bool.false_ne_true] at htested
    obtain ⟨before, s₃, hbefore, hanswer⟩ := bind_eq_ok htested
    cases before with
    | false => cases hanswer
    | true =>
      obtain ⟨rfl, hheld⟩ := PathId.holds_of_node? hanswer
      exact ⟨value, s₂, n, type, hvalue, hn, htype, hisLiteral, hbefore, hheld⟩

/-- A literal that takes the place of a variable in the same function comes before the read in a
depth-first walk, and so does the declarator with the literal as its initial value. -/
theorem Rule.inlinableLiteral?_precedes {binding : Binding} {x : String}
    {declared : Option ValueType} (h : s.Orderly K) (hcrawled : s.scopes.crawled = true)
    (hp : s.Holds p r) (hr : s.tree.Reachable r)
    (hk : s.tree.kind? r = some (.identifier x declared))
    (hrun : Rule.inlinableLiteral? p binding s = .ok (some literal) s')
    (hb : s.tree.RunsIn literal b) (hb' : s.tree.RunsIn r b) :
    (∃ type, s.tree.type? literal = some type ∧ type.isLiteral = true) ∧
      s.tree.Precedes literal r ∧ ∀ d id, s.tree.Reachable d →
        s.tree.kind? d = some (.variableDeclarator id (some literal)) → s.tree.Precedes d r := by
  obtain ⟨-, value, s₁, n, type, hvalue, hn, htype, hisLiteral, hbefore, hheld⟩ :=
    Rule.inlinableLiteral?_eq_ok hrun
  -- Neither the search nor the question about its execution changes the tree or what paths hold.
  have h₁ := Surveying.resolve p s s₁ K value h hcrawled hvalue
  have horderly := h.surveys h₁
  have h₂ := Surveying.executesBefore value p s₁ s' K true horderly
    (h₁.widened.crawled.trans hcrawled) hbefore
  obtain rfl := (h₂.grew.holds horderly.sound hn).unique_node hheld
  rw [h₁.tree] at htype
  -- It is enough that the literal comes first: its declarator ends with it.
  suffices hprecedes : s.tree.Precedes n r from ⟨⟨type, htype, hisLiteral⟩, hprecedes,
    fun d id hd hk => hprecedes.declarator h.program hk hd⟩
  have hreach : s.tree.Reachable n := by
    cases hb with
    | here htype' hfunction =>
      obtain rfl := Option.some.inj (htype.symm.trans htype')
      obtain ⟨hplain, hprogram⟩ := NodeType.isLiteral_not_function hisLiteral
      simp [hplain, hprogram] at hfunction
    | up _ _ hm hc _ => exact .child hm hc
  rw [← h₁.tree] at htype hreach hb hb' hr hk ⊢
  exact PathId.precedes_of_executesBefore horderly.sound hn hreach
    (h₁.grew.holds h.sound hp) hr htype (NodeType.isLiteral_not_function hisLiteral).1
    (Tree.type?_of_kind hk) rfl hb hb' hbefore

end Inlining

/-! ## A literal through another variable -/

/-- The program `var a = 1; f(b); var b = a;`, built bottom up. -/
def earlyProgram : Tree where
  nodes := #[{ kind := .numericLiteral ⟨0x3ff0000000000000⟩ }, { kind := .identifier "a" none },
    { kind := .variableDeclarator ⟨1⟩ (some ⟨0⟩) }, { kind := .variableDeclaration .var [⟨2⟩] },
    { kind := .identifier "f" none }, { kind := .identifier "b" none },
    { kind := .callExpression ⟨4⟩ [⟨5⟩] }, { kind := .expressionStatement ⟨6⟩ },
    { kind := .identifier "a" none }, { kind := .identifier "b" none },
    { kind := .variableDeclarator ⟨9⟩ (some ⟨8⟩) }, { kind := .variableDeclaration .var [⟨10⟩] },
    { kind := .program [⟨3⟩, ⟨7⟩, ⟨11⟩] [] }]
  root := some ⟨12⟩

theorem earlyProgram_isProgram : earlyProgram.IsProgram :=
  .of_bottomUp (by decide) (by decide) (by decide) (by decide)

/-- The session after the crawl. The reads of `b` and `a` have the paths 9 and 12. -/
def earlySession : Session := after ensureScopes { tree := earlyProgram }

/-- The variable `a`. -/
def earlyValue : Binding :=
  { name := "a", identifier := ⟨1⟩, scope := ⟨0⟩, path := ⟨4⟩, kind := .var, references := [⟨12⟩] }

/-- The variable `b`. -/
def earlyRead : Binding :=
  { name := "b", identifier := ⟨9⟩, scope := ⟨0⟩, path := ⟨10⟩, kind := .var, references := [⟨9⟩] }

/-- Both variables are replaced by the literal `1`. -/
theorem earlySession_runs :
    PathId.binding? ⟨9⟩ earlySession = .ok (some earlyRead) earlySession ∧
    Rule.inlinableLiteral? ⟨9⟩ earlyRead earlySession = .ok (some ⟨0⟩) earlySession ∧
    PathId.binding? ⟨12⟩ earlySession = .ok (some earlyValue) earlySession ∧
    Rule.inlinableLiteral? ⟨12⟩ earlyValue earlySession = .ok (some ⟨0⟩) earlySession := by cbv

theorem earlyProgram_isChild : earlyProgram.IsChild ⟨12⟩ ⟨3⟩ ∧ earlyProgram.IsChild ⟨3⟩ ⟨2⟩ ∧
    earlyProgram.IsChild ⟨2⟩ ⟨0⟩ ∧ earlyProgram.IsChild ⟨12⟩ ⟨7⟩ ∧ earlyProgram.IsChild ⟨7⟩ ⟨6⟩ ∧
    earlyProgram.IsChild ⟨6⟩ ⟨5⟩ ∧ earlyProgram.IsChild ⟨12⟩ ⟨11⟩ ∧
    earlyProgram.IsChild ⟨11⟩ ⟨10⟩ ∧ earlyProgram.IsChild ⟨10⟩ ⟨8⟩ :=
  ⟨⟨.item ⟨12⟩ .body 0, rfl, rfl⟩, ⟨.item ⟨3⟩ .declarations 0, rfl, rfl⟩,
    ⟨.slot ⟨2⟩ .init, rfl, rfl⟩, ⟨.item ⟨12⟩ .body 1, rfl, rfl⟩, ⟨.slot ⟨7⟩ .expression, rfl, rfl⟩,
    ⟨.item ⟨6⟩ .arguments 0, rfl, rfl⟩, ⟨.item ⟨12⟩ .body 2, rfl, rfl⟩,
    ⟨.item ⟨11⟩ .declarations 0, rfl, rfl⟩, ⟨.slot ⟨10⟩ .init, rfl, rfl⟩⟩

/-- The literal and the read of `a` are both in the program, and in no function. -/
theorem earlyProgram_runsIn : earlyProgram.Reachable ⟨2⟩ ∧ earlyProgram.Reachable ⟨8⟩ ∧
    earlyProgram.RunsIn ⟨0⟩ ⟨12⟩ ∧ earlyProgram.RunsIn ⟨8⟩ ⟨12⟩ := by
  obtain ⟨h3, h2, h0, -, -, -, h11, h10, h8⟩ := earlyProgram_isChild
  have hroot : earlyProgram.Reachable ⟨12⟩ := .root rfl
  have hvalue : earlyProgram.Reachable ⟨2⟩ := .child (.child hroot h3) h2
  have hread : earlyProgram.Reachable ⟨10⟩ := .child (.child hroot h11) h10
  have hprogram : earlyProgram.RunsIn ⟨12⟩ ⟨12⟩ := .here (t := earlyProgram) rfl rfl
  refine ⟨hvalue, .child hread h8, ?_, ?_⟩
  · exact .up (t := earlyProgram) rfl rfl hvalue h0 (.up (t := earlyProgram) rfl rfl
      (.child hroot h3) h2 (.up (t := earlyProgram) rfl rfl hroot h3 hprogram))
  · exact .up (t := earlyProgram) rfl rfl hread h8 (.up (t := earlyProgram) rfl rfl
      (.child hroot h11) h10 (.up (t := earlyProgram) rfl rfl hroot h11 hprogram))

theorem earlySession_holds : earlySession.scopes.crawled = true ∧ earlySession.Holds ⟨9⟩ ⟨5⟩ ∧
    earlySession.Holds ⟨10⟩ ⟨10⟩ ∧ earlySession.Holds ⟨12⟩ ⟨8⟩ := by
  have hnodes : earlySession.scopes.crawled = true ∧
      earlySession.paths[9]?.bind PathData.node = some ⟨5⟩ ∧
      earlySession.paths[10]?.bind PathData.node = some ⟨10⟩ ∧
      earlySession.paths[12]?.bind PathData.node = some ⟨8⟩ := by decide +kernel
  obtain ⟨hcrawled, h9, h10, h12⟩ := hnodes
  exact ⟨hcrawled, Option.bind_eq_some_iff.mp h9, Option.bind_eq_some_iff.mp h10,
    Option.bind_eq_some_iff.mp h12⟩

/-- The read of `a` comes after the declarator of `a`. -/
theorem earlyProgram_precedes : earlyProgram.IsProgram ∧
    (∃ s, Rule.inlinableLiteral? ⟨12⟩ earlyValue s = .ok (some ⟨0⟩) s ∧ s.Holds ⟨12⟩ ⟨8⟩) ∧
      earlyProgram.Precedes ⟨2⟩ ⟨8⟩ := by
  obtain ⟨_, s, hrun, htree, horderly⟩ := ensureScopes_orderly earlyProgram_isProgram {}
  obtain rfl : earlySession = s := after_of_ok hrun
  obtain ⟨hcrawled, -, -, hholds⟩ := earlySession_holds
  obtain ⟨-, -, -, hliteral⟩ := earlySession_runs
  have hruns := earlyProgram_runsIn
  rw [← htree] at hruns
  obtain ⟨hvalue, hread, hin, hin'⟩ := hruns
  have hkind : earlySession.tree.kind? ⟨8⟩ = some (.identifier "a" none) := by
    rw [htree]
    rfl
  have hdeclarator : earlySession.tree.kind? ⟨2⟩ = some (.variableDeclarator ⟨1⟩ (some ⟨0⟩)) := by
    rw [htree]
    rfl
  refine ⟨earlyProgram_isProgram, ⟨earlySession, hliteral, hholds⟩, ?_⟩
  rw [← htree]
  exact (Rule.inlinableLiteral?_precedes horderly hcrawled hholds hread hkind hliteral hin
    hin').2.2 ⟨2⟩ ⟨1⟩ hvalue hdeclarator

/-- The read of `b` is replaced, although it comes before the declarator of `b`. -/
theorem earlyProgram_inlines : earlyProgram.IsProgram ∧ ∃ s, Session.open? earlyProgram {} = .ok s ∧
    s.Holds ⟨9⟩ ⟨5⟩ ∧ PathId.binding? ⟨9⟩ s = .ok (some earlyRead) s ∧
      s.Holds earlyRead.path ⟨10⟩ ∧ Rule.inlinableLiteral? ⟨9⟩ earlyRead s = .ok (some ⟨0⟩) s ∧
        earlyProgram.Precedes ⟨5⟩ ⟨10⟩ := by
  obtain ⟨_, s, hrun, -, -⟩ := ensureScopes_orderly earlyProgram_isProgram {}
  obtain rfl : earlySession = s := after_of_ok hrun
  obtain ⟨-, hread, hdeclarator, -⟩ := earlySession_holds
  obtain ⟨hbinding, hliteral, -, -⟩ := earlySession_runs
  obtain ⟨-, -, -, -, h6, h5, -, h10, -⟩ := earlyProgram_isChild
  refine ⟨earlyProgram_isProgram, earlySession, open?_of_ensureScopes rfl hrun, hread, hbinding,
    hdeclarator, hliteral, ?_⟩
  have hearlier : (Position.item ⟨12⟩ .body 1).Earlier .program (.item ⟨12⟩ .body 2) :=
    .element (by decide)
  exact .fork (t := earlyProgram) (.root rfl) rfl rfl rfl hearlier rfl rfl
    (.tail (.single h6) h5) (.single h10)

end Espalier
