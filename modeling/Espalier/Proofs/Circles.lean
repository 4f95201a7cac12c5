import Espalier.Analysis.Inference
import Espalier.Proofs.Editing
import Mathlib

set_option autoImplicit false

/-! # Conditions that lead in circles

The search through a condition puts the operands of a logical expression back on its queue, and
follows variables to their values. It notes nowhere what it followed. It ends if and only if no part
of the condition leads back to itself (`typesFromCondition_ends_iff`): where the operands of a value
lead back to the variable, the queue never gets empty and the search ends only when its steps are
used up, however many they are. So it is with two variables that are defined by each other
(`circularProgram_exhausted`).

What is said here is about a session that the search leaves as it is (`Session.Unfolding`). Such are
the sessions in which nothing is left to be found (`Session.Warm.unfolding`). -/

namespace Espalier

open SessionM

/-- A part of a condition in the search: what it stands for is a logical expression, whose operands
are next, a comparison between values whose types are known, or nothing that says anything about a
type. -/
inductive Session.Unfolds (s : Session) (annotate : PathId → SessionM ValueType) (name : String)
    (p : PathId) : List PathId → Prop
  | operands {q a b : PathId} {op : LogicalOperator} {left right : NodeId}
      (resolve : p.resolve false s = .ok q s)
      (kind : q.kind? s = .ok (some (.logicalExpression op left right)) s)
      (left : q.child .left s = .ok a s) (right : q.child .right s = .ok b s) :
      Session.Unfolds s annotate name p [a, b]
  | comparison {q : PathId} {op : BinaryOperator} {left right : NodeId} {type : Option ValueType}
      (resolve : p.resolve false s = .ok q s)
      (kind : q.kind? s = .ok (some (.binaryExpression op left right)) s)
      (answer : PathId.typeFromComparison? annotate name q op s = .ok type s) :
      Session.Unfolds s annotate name p []
  | silent {q : PathId} {o : Option NodeKind} (resolve : p.resolve false s = .ok q s)
      (kind : q.kind? s = .ok o s) (plain : ∀ k, o = some k → k.type.isBinary = false) :
      Session.Unfolds s annotate name p []

/-- The parts of a condition and the operands that they stand for. -/
structure Session.Unfolding (s : Session) (annotate : PathId → SessionM ValueType) (name : String)
    (parts : Set PathId) (next : PathId → List PathId) : Prop where
  unfolds : ∀ p ∈ parts, s.Unfolds annotate name p (next p)
  closed : ∀ p ∈ parts, ∀ q ∈ next p, q ∈ parts

/-- How many steps a search with these parts on its queue takes, if no part leads in a circle. -/
inductive UnfoldingSteps (next : PathId → List PathId) : List PathId → Nat → Prop
  | nil : UnfoldingSteps next [] 0
  | cons {p : PathId} {rest : List PathId} {m n : Nat} : UnfoldingSteps next (next p) m →
      UnfoldingSteps next rest n → UnfoldingSteps next (p :: rest) (m + n + 1)

section Steps

variable {next : PathId → List PathId}

theorem UnfoldingSteps.append {l l' : List PathId} {m n : Nat} (h : UnfoldingSteps next l m)
    (h' : UnfoldingSteps next l' n) : UnfoldingSteps next (l ++ l') (m + n) := by
  induction h with
  | nil => simpa using h'
  | @cons p rest m k hp _ _ ih =>
    rw [show m + k + 1 + n = m + (k + n) + 1 by omega]
    exact .cons hp ih

/-- Parts that do not lead in a circle are unfolded in a number of steps. -/
theorem exists_unfoldingSteps {queue : List PathId}
    (h : ∀ p ∈ queue, Acc (fun q p => q ∈ next p) p) : ∃ n, UnfoldingSteps next queue n := by
  have hlist : ∀ l : List PathId, (∀ p ∈ l, ∃ n, UnfoldingSteps next (next p) n) →
      ∃ n, UnfoldingSteps next l n := by
    intro l hl
    induction l with
    | nil => exact ⟨0, .nil⟩
    | cons p l ih =>
      obtain ⟨m, hm⟩ := hl p List.mem_cons_self
      obtain ⟨n, hn⟩ := ih fun q hq => hl q (List.mem_cons_of_mem p hq)
      exact ⟨_, .cons hm hn⟩
  have hpart : ∀ p, Acc (fun q p => q ∈ next p) p → ∃ n, UnfoldingSteps next (next p) n := by
    intro p hp
    induction hp with
    | intro p _ ih => exact hlist (next p) ih
  exact hlist queue fun p hp => hpart p (h p hp)

/-- No part of a circle can be unfolded to the end. -/
theorem not_acc_of_circle {circle : List PathId} (h : ∀ p ∈ circle, ∃ q ∈ next p, q ∈ circle)
    {p : PathId} (hp : p ∈ circle) : ¬ Acc (fun q p => q ∈ next p) p := by
  intro hacc
  induction hacc with
  | intro p _ ih =>
    obtain ⟨q, hq, hqc⟩ := h p hp
    exact ih q hq hqc

end Steps

namespace PathId

section Search

variable {annotate : PathId → SessionM ValueType} {name : String} {s : Session} {parts : Set PathId}
  {next : PathId → List PathId}

/-- One step of the search: a part comes off the queue, and its operands go behind the others. -/
theorem typesFromCondition_unfolds {p : PathId} {operands : List PathId}
    (h : s.Unfolds annotate name p operands) (rest : List PathId) :
    ∃ types, ∀ steps, typesFromCondition annotate name (steps + 1) (p :: rest) s =
      (do pure (types ++ (← typesFromCondition annotate name steps (rest ++ operands)))) s := by
  have hnone : ∀ x : SessionM (List ValueType), (do pure ([] ++ (← x))) s = x s := by
    intro x
    show EStateM.bind x _ s = _
    unfold EStateM.bind
    cases x s <;> rfl
  cases h with
  | operands hresolve hkind hleft hright =>
    refine ⟨[], fun steps => ?_⟩
    rw [hnone, typesFromCondition, bind_of_ok hresolve, bind_of_ok hkind]
    dsimp only
    rw [bind_of_ok hleft, bind_of_ok hright]
  | @comparison q op left right type hresolve hkind hanswer =>
    refine ⟨type.toList, fun steps => ?_⟩
    rw [typesFromCondition, bind_of_ok hresolve, bind_of_ok hkind, List.append_nil]
    dsimp only
    rw [bind_of_ok hanswer]
  | @silent q o hresolve hkind hplain =>
    refine ⟨[], fun steps => ?_⟩
    rw [hnone, typesFromCondition, bind_of_ok hresolve, bind_of_ok hkind, List.append_nil]
    cases o with
    | none => rfl
    | some k =>
      have hplain := hplain k rfl
      cases k <;> first | rfl | cases hplain

theorem mem_step (h : s.Unfolding annotate name parts next) {p : PathId} {rest : List PathId}
    (hqueue : ∀ q ∈ p :: rest, q ∈ parts) : ∀ q ∈ rest ++ next p, q ∈ parts := by
  intro q hq
  rcases List.mem_append.mp hq with hq | hq
  · exact hqueue q (List.mem_cons_of_mem p hq)
  · exact h.closed p (hqueue p List.mem_cons_self) q hq

/-- The search ends, or its steps are used up. -/
theorem typesFromCondition_outcome (h : s.Unfolding annotate name parts next) (steps : Nat)
    {queue : List PathId} (hqueue : ∀ p ∈ queue, p ∈ parts) :
    (∃ types, typesFromCondition annotate name steps queue s = .ok types s) ∨
      typesFromCondition annotate name steps queue s = .error .exhausted s := by
  induction steps generalizing queue with
  | zero => exact .inr rfl
  | succ steps ih =>
    cases queue with
    | nil => exact .inl ⟨[], rfl⟩
    | cons p rest =>
      obtain ⟨types, hstep⟩ :=
        typesFromCondition_unfolds (h.unfolds p (hqueue p List.mem_cons_self)) rest
      rw [hstep]
      rcases ih (mem_step h hqueue) with ⟨later, hlater⟩ | hlater
      · exact .inl ⟨types ++ later, by rw [bind_of_ok hlater]; rfl⟩
      · exact .inr (bind_of_error hlater)

/-- A search that ends has unfolded every part to the end. -/
theorem acc_of_typesFromCondition (h : s.Unfolding annotate name parts next) {steps : Nat}
    {queue : List PathId} (hqueue : ∀ p ∈ queue, p ∈ parts) {types : List ValueType}
    {s' : Session} (hrun : typesFromCondition annotate name steps queue s = .ok types s') :
    ∀ p ∈ queue, Acc (fun q p => q ∈ next p) p := by
  induction steps generalizing queue types s' with
  | zero => cases hrun
  | succ steps ih =>
    cases queue with
    | nil => simp
    | cons p rest =>
      obtain ⟨found, hstep⟩ :=
        typesFromCondition_unfolds (h.unfolds p (hqueue p List.mem_cons_self)) rest
      rw [hstep] at hrun
      obtain ⟨later, s₁, hlater, -⟩ := bind_eq_ok hrun
      have hacc := ih (mem_step h hqueue) hlater
      intro q hq
      rcases List.mem_cons.mp hq with rfl | hq
      · exact .intro q fun a ha => hacc a (List.mem_append_right rest ha)
      · exact hacc q (List.mem_append_left _ hq)

/-- As many steps as there are unfoldings are enough. -/
theorem typesFromCondition_ends (h : s.Unfolding annotate name parts next) {queue : List PathId}
    {n : Nat} (hsteps : UnfoldingSteps next queue n) (hqueue : ∀ p ∈ queue, p ∈ parts) :
    ∃ types, typesFromCondition annotate name (n + 1) queue s = .ok types s := by
  induction n generalizing queue with
  | zero =>
    cases hsteps
    exact ⟨[], rfl⟩
  | succ n ih =>
    cases hsteps with
    | @cons p rest m k hp hrest =>
      obtain ⟨types, hstep⟩ :=
        typesFromCondition_unfolds (h.unfolds p (hqueue p List.mem_cons_self)) rest
      obtain ⟨later, hlater⟩ := ih (Nat.add_comm k m ▸ hrest.append hp) (mem_step h hqueue)
      exact ⟨types ++ later, by rw [hstep, bind_of_ok hlater]; rfl⟩

/-- The search through a condition ends if and only if no part leads in a circle. If it does not
end, its steps are used up, however many they are. -/
theorem typesFromCondition_ends_iff (h : s.Unfolding annotate name parts next)
    {queue : List PathId} (hqueue : ∀ p ∈ queue, p ∈ parts) :
    ((∃ steps types, typesFromCondition annotate name steps queue s = .ok types s) ↔
      ∀ p ∈ queue, Acc (fun q p => q ∈ next p) p) ∧
    ∀ steps, (∃ types, typesFromCondition annotate name steps queue s = .ok types s) ∨
      typesFromCondition annotate name steps queue s = .error .exhausted s := by
  refine ⟨⟨?_, fun hacc => ?_⟩, fun steps => typesFromCondition_outcome h steps hqueue⟩
  · rintro ⟨steps, types, hrun⟩
    exact acc_of_typesFromCondition h hqueue hrun
  · obtain ⟨n, hn⟩ := exists_unfoldingSteps hacc
    exact ⟨n + 1, typesFromCondition_ends h hn hqueue⟩

/-- The type of a variable is not found where the search through the closest condition around it
does not end. -/
theorem typeOf?_exhausted {p conditional test : PathId} {binding : Binding} {k : NodeKind}
    {before unordered : List PathId} {steps : Nat}
    (hkind : p.kind? s = .ok (some (.identifier name none)) s)
    (hreferenced : p.isReferenced s = .ok true s)
    (hbinding : p.binding? s = .ok (some binding) s)
    (hidentifier : s.tree.kind? binding.identifier = some k)
    (hplain : ∀ x type, k ≠ .identifier x (some type))
    (hbefore : p.violationsBefore (binding.path :: binding.violations) s =
      .ok (before, unordered) s)
    (hconditional : p.nearestConditional? s = .ok (some conditional) s)
    (htest : conditional.child .test s = .ok test s)
    (hsearch : typesFromCondition annotate name steps [test] s = .error .exhausted s) :
    typeOf? annotate steps p s = .error .exhausted s := by
  have hnarrowing : ∀ fuel, narrowing? annotate name steps fuel p s = .error .exhausted s := by
    intro fuel
    cases fuel with
    | zero => rfl
    | succ fuel =>
      rw [narrowing?, bind_of_ok hconditional]
      dsimp only
      rw [bind_of_ok htest, bind_of_error hsearch]
  have hassignments : typeFromAssignments? annotate steps p name binding s =
      .error .exhausted s := by
    unfold typeFromAssignments?
    dsimp only
    rw [bind_of_ok hbefore]
    dsimp only
    rw [run_get_bind, bind_of_error (hnarrowing _)]
  unfold typeOf?
  rw [bind_of_ok hkind]
  show typeOfReference? annotate steps p name s = _
  unfold typeOfReference?
  rw [bind_of_ok hreferenced]
  simp only [Bool.not_true, Bool.false_eq_true, if_false]
  rw [bind_of_ok hbinding]
  dsimp only
  rw [bind_of_ok (ask_run hidentifier)]
  split
  · exact absurd rfl (hplain _ _)
  · exact hassignments

/-- While a type is being found, an empty union stands in its place. -/
theorem valueTypeWithin_exhausted {p : PathId} {d : PathData} {steps : Nat}
    (hd : s.paths[p.index]? = some d) (hnone : d.inferred = none)
    (htype : ∀ annotate, typeOf? annotate steps p
      (after (p.modifyData fun d => { d with inferred := some (.union []) }) s) =
        .error .exhausted (after (p.modifyData fun d => { d with inferred := some (.union []) }) s))
    (fuel : Nat) : ∃ s', valueTypeWithin steps fuel p s = .error .exhausted s' := by
  cases fuel with
  | zero => exact ⟨s, rfl⟩
  | succ fuel =>
    have hasked := PathId.modifyData_run hd fun d => { d with inferred := some (.union []) }
    rw [after_of_ok hasked] at htype
    rw [valueTypeWithin, bind_of_ok (p.data_run hd), hnone]
    dsimp only
    rw [bind_of_ok hasked, bind_of_error (htype _)]
    exact ⟨_, rfl⟩

end Search

end PathId

/-! ## Two variables that are defined by each other -/

/-- The program `var a = b && 1; var b = a && 1; if (a) { a; }`, built bottom up. -/
def circularProgram : Tree where
  nodes := #[{ kind := .identifier "b" none }, { kind := .numericLiteral ⟨0x3ff0000000000000⟩ },
    { kind := .logicalExpression .and ⟨0⟩ ⟨1⟩ }, { kind := .identifier "a" none },
    { kind := .variableDeclarator ⟨3⟩ (some ⟨2⟩) }, { kind := .variableDeclaration .var [⟨4⟩] },
    { kind := .identifier "a" none }, { kind := .numericLiteral ⟨0x3ff0000000000000⟩ },
    { kind := .logicalExpression .and ⟨6⟩ ⟨7⟩ }, { kind := .identifier "b" none },
    { kind := .variableDeclarator ⟨9⟩ (some ⟨8⟩) }, { kind := .variableDeclaration .var [⟨10⟩] },
    { kind := .identifier "a" none }, { kind := .identifier "a" none },
    { kind := .expressionStatement ⟨13⟩ }, { kind := .blockStatement [⟨14⟩] },
    { kind := .ifStatement ⟨12⟩ ⟨15⟩ none }, { kind := .program [⟨5⟩, ⟨11⟩, ⟨16⟩] [] }]
  root := some ⟨17⟩

theorem circularProgram_isProgram : circularProgram.IsProgram :=
  .of_bottomUp (by decide) (by decide) (by decide) (by decide)

/-- The session after the crawl. -/
def circularSession : Session := after ensureScopes { tree := circularProgram }

/-- The session while the type of the last `a` is being found. -/
def circularSearch : Session :=
  after ((⟨17⟩ : PathId).modifyData fun d => { d with inferred := some (.union []) })
    circularSession

/-- The variable of the last `a`. -/
def circularBinding : Binding :=
  { name := "a", identifier := ⟨3⟩, scope := ⟨0⟩, path := ⟨4⟩, kind := .var,
    references := [⟨12⟩, ⟨14⟩, ⟨17⟩] }

/-- In the search, `a` stands for `b && 1` and `b` stands for `a && 1`; the last `a` is in a branch
of the conditional with the test `a`. -/
theorem circularSearch_runs :
    (PathId.resolve ⟨14⟩ false circularSearch = .ok ⟨6⟩ circularSearch ∧
      PathId.resolve ⟨12⟩ false circularSearch = .ok ⟨6⟩ circularSearch ∧
      PathId.kind? ⟨6⟩ circularSearch =
        .ok (some (.logicalExpression .and ⟨0⟩ ⟨1⟩)) circularSearch ∧
      PathId.child ⟨6⟩ .left circularSearch = .ok ⟨7⟩ circularSearch ∧
      PathId.child ⟨6⟩ .right circularSearch = .ok ⟨8⟩ circularSearch) ∧
    (PathId.resolve ⟨7⟩ false circularSearch = .ok ⟨11⟩ circularSearch ∧
      PathId.kind? ⟨11⟩ circularSearch =
        .ok (some (.logicalExpression .and ⟨6⟩ ⟨7⟩)) circularSearch ∧
      PathId.child ⟨11⟩ .left circularSearch = .ok ⟨12⟩ circularSearch ∧
      PathId.child ⟨11⟩ .right circularSearch = .ok ⟨13⟩ circularSearch) ∧
    (PathId.resolve ⟨8⟩ false circularSearch = .ok ⟨8⟩ circularSearch ∧
      PathId.kind? ⟨8⟩ circularSearch =
        .ok (some (.numericLiteral ⟨0x3ff0000000000000⟩)) circularSearch ∧
      PathId.resolve ⟨13⟩ false circularSearch = .ok ⟨13⟩ circularSearch ∧
      PathId.kind? ⟨13⟩ circularSearch =
        .ok (some (.numericLiteral ⟨0x3ff0000000000000⟩)) circularSearch) ∧
    circularSearch.tree.kind? ⟨3⟩ = some (.identifier "a" none) ∧
    PathId.kind? ⟨17⟩ circularSearch = .ok (some (.identifier "a" none)) circularSearch ∧
    PathId.isReferenced ⟨17⟩ circularSearch = .ok true circularSearch ∧
    PathId.binding? ⟨17⟩ circularSearch = .ok (some circularBinding) circularSearch ∧
    PathId.violationsBefore ⟨17⟩ [⟨4⟩] circularSearch = .ok ([⟨4⟩], []) circularSearch ∧
    PathId.nearestConditional? ⟨17⟩ circularSearch = .ok (some ⟨3⟩) circularSearch ∧
    PathId.child ⟨3⟩ .test circularSearch = .ok ⟨14⟩ circularSearch := by cbv

/-- The operands of the parts of the condition. -/
def circularNext (p : PathId) : List PathId :=
  if p = ⟨7⟩ then [⟨12⟩, ⟨13⟩] else if p = ⟨12⟩ ∨ p = ⟨14⟩ then [⟨7⟩, ⟨8⟩] else []

/-- The parts of the condition. -/
def circularParts : List PathId := [⟨7⟩, ⟨8⟩, ⟨12⟩, ⟨13⟩, ⟨14⟩]

theorem circularSearch_unfolding (annotate : PathId → SessionM ValueType) :
    circularSearch.Unfolding annotate "a" { p | p ∈ circularParts } circularNext := by
  obtain ⟨⟨htest, ha, hka, hla, hra⟩, ⟨hb, hkb, hlb, hrb⟩, ⟨h8, hk8, h13, hk13⟩, -⟩ :=
    circularSearch_runs
  have hclosed : ∀ p ∈ circularParts, ∀ q ∈ circularNext p, q ∈ circularParts := by decide
  refine ⟨fun p hp => ?_, hclosed⟩
  simp only [circularParts, Set.mem_ofPred_eq, List.mem_cons, List.not_mem_nil, or_false] at hp
  rcases hp with rfl | rfl | rfl | rfl | rfl
  · exact .operands hb hkb hlb hrb
  · exact .silent h8 hk8 fun k hk => Option.some.inj hk ▸ rfl
  · exact .operands ha hka hla hra
  · exact .silent h13 hk13 fun k hk => Option.some.inj hk ▸ rfl
  · exact .operands htest hka hla hra

/-- The variables lead in a circle. -/
theorem not_acc_circularNext : ¬ Acc (fun q p => q ∈ circularNext p) ⟨14⟩ := by
  have hcircle : ∀ p ∈ [⟨7⟩, ⟨12⟩, (⟨14⟩ : PathId)],
      ∃ q ∈ circularNext p, q ∈ [⟨7⟩, ⟨12⟩, (⟨14⟩ : PathId)] := by decide
  exact not_acc_of_circle hcircle (by decide)

/-- The search through the test does not end; the search through the literal does. -/
theorem circularSearch_ends :
    (¬ ∃ steps types, PathId.typesFromCondition PathId.valueType "a" steps [⟨14⟩] circularSearch =
      .ok types circularSearch) ∧
    ∃ steps types, PathId.typesFromCondition PathId.valueType "a" steps [⟨8⟩] circularSearch =
      .ok types circularSearch := by
  have hunfolding := circularSearch_unfolding PathId.valueType
  have htest : ∀ p ∈ [(⟨14⟩ : PathId)], p ∈ circularParts := by decide
  have hliteral : ∀ p ∈ [(⟨8⟩ : PathId)], p ∈ circularParts := by decide
  constructor
  · intro hends
    have hacc := (PathId.typesFromCondition_ends_iff hunfolding htest).1.mp hends
    exact not_acc_circularNext (hacc ⟨14⟩ List.mem_cons_self)
  · refine (PathId.typesFromCondition_ends_iff hunfolding hliteral).1.mpr fun p hp => ?_
    obtain rfl := List.mem_singleton.mp hp
    exact .intro _ fun q hq => by cases hq

/-- The search through the test uses up all its steps. -/
theorem circularSearch_exhausted (annotate : PathId → SessionM ValueType) (steps : Nat) :
    PathId.typesFromCondition annotate "a" steps [⟨14⟩] circularSearch =
      .error .exhausted circularSearch := by
  have hunfolding := circularSearch_unfolding annotate
  have hqueue : ∀ p ∈ [(⟨14⟩ : PathId)], p ∈ circularParts := by decide
  refine (PathId.typesFromCondition_outcome hunfolding steps hqueue).resolve_left ?_
  rintro ⟨types, hrun⟩
  exact not_acc_circularNext
    (PathId.acc_of_typesFromCondition hunfolding hqueue hrun ⟨14⟩ List.mem_cons_self)

/-- The type of the last `a` is not found, whatever the bounds. -/
theorem circularProgram_exhausted : circularProgram.IsProgram ∧
    ∃ s, Session.open? circularProgram {} = .ok s ∧ s.Holds ⟨17⟩ ⟨13⟩ ∧
      ∀ steps fuel, ∃ s', PathId.valueTypeWithin steps fuel ⟨17⟩ s = .error .exhausted s' := by
  obtain ⟨_, s, hrun, -, -⟩ := ensureScopes_orderly circularProgram_isProgram {}
  obtain rfl : circularSession = s := after_of_ok hrun
  have hfresh : (circularSession.paths[17]?.map fun d => (d.node, d.inferred.isNone)) =
      some (some ⟨13⟩, true) := by decide +kernel
  obtain ⟨d, hd, hfields⟩ := Option.map_eq_some_iff.mp hfresh
  obtain ⟨hnode, hnone⟩ := Prod.mk.inj hfields
  obtain ⟨-, -, -, hdeclared, hkind, hreferenced, hbinding, hbefore, hconditional, htest⟩ :=
    circularSearch_runs
  refine ⟨circularProgram_isProgram, circularSession, open?_of_ensureScopes rfl hrun,
    ⟨d, hd, hnode⟩, fun steps fuel => ?_⟩
  refine PathId.valueTypeWithin_exhausted (p := ⟨17⟩) hd (Option.isNone_iff_eq_none.mp hnone)
    (fun annotate => ?_) fuel
  exact PathId.typeOf?_exhausted hkind hreferenced hbinding hdeclared (by simp) hbefore
    hconditional htest (circularSearch_exhausted annotate steps)

end Espalier
