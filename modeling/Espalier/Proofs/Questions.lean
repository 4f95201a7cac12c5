import Espalier.Proofs.Charting

set_option autoImplicit false

/-! # How searches and type inference are composed

To find what a name stands for, and which of two paths is executed first, takes navigation and
looking up names (`Searching`). The type of a path takes such searches, and the types of other paths
(`Inquiring`); all in all, inference leaves its answers with the paths it was asked about
(`Inferring`). -/

namespace Espalier

open SessionM

variable {α β : Type}

/-! ## Searches -/

/-- What searches are made of: hops, and looking up what a name refers to. -/
inductive Glance : (α : Type) → SessionM α → Prop
  | hop {α : Type} {x : SessionM α} : Hop α x → Glance α x
  | lookup (p : PathId) : Glance (Option Binding) p.binding?

/-- The computation navigates and looks into scopes. -/
abbrev Searching (x : SessionM α) : Prop := Composed Glance x

theorem Navigating.searching {x : SessionM α} (hx : Navigating x) : Searching x :=
  hx.lift fun _ _ hop => .primitive (.hop hop)

theorem Searching.charting {x : SessionM α} (hx : Searching x) : Charting x := by
  refine hx.lift fun _ _ glance => ?_
  cases glance with
  | hop hop => exact .primitive (.hop hop)
  | lookup p =>
    refine (Composed.identifierName? p).bind fun o => ?_
    cases o with
    | none => exact .pure _
    | some name => exact (Charting.scope p).bind fun i => .scopeBinding? i name

namespace Searching

theorem binding? (p : PathId) : Searching p.binding? := .primitive (.lookup p)

end Searching

/-- The last property with a key is searched from the end of the list. -/
theorem Navigating.lastProperty? (key : String) (l : List PathId) :
    Navigating (PathId.lastProperty? key l) := by
  induction l with
  | nil => exact .pure _
  | cons q l ih =>
    refine Composed.bind ih fun o => ?_
    cases o with
    | some found => exact .pure _
    | none =>
      refine (Composed.kind? q).bind fun k => ?_
      split
      · exact (Composed.ask _).bind fun _ => .pure _
      · exact .pure _

/-- A search that remembers what it met on its way, from any such memory. -/
def Following {μ : Type} (x : StateT μ SessionM α) : Prop := ∀ seen, Searching (x.run seen)

namespace Following

section Memory

variable {μ : Type}

theorem pure (a : α) : Following (pure a : StateT μ SessionM α) :=
  fun seen => Composed.pure (a, seen)

theorem throw (e : Failure) : Following (throw e : StateT μ SessionM α) := fun _ => Composed.throw e

theorem bind {x : StateT μ SessionM α} {f : α → StateT μ SessionM β} (hx : Following x)
    (hf : ∀ a, Following (f a)) : Following (x >>= f) :=
  fun seen => (hx seen).bind fun r => hf r.1 r.2

theorem memory : Following (get : StateT μ SessionM μ) := fun seen => Composed.pure (seen, seen)

theorem remember (f : μ → μ) : Following (modify f : StateT μ SessionM PUnit) :=
  fun seen => Composed.pure (PUnit.unit, f seen)

theorem lift {x : SessionM α} (hx : Searching x) : Following (liftM x : StateT μ SessionM α) :=
  fun seen => hx.bind fun a => Composed.pure (a, seen)

theorem go {x : SessionM α} (hx : Navigating x) : Following (liftM x : StateT μ SessionM α) :=
  lift hx.searching

theorem ite {c : Prop} [Decidable c] {x y : StateT μ SessionM α} (hx : Following x)
    (hy : Following y) : Following (if c then x else y) := by
  split
  · exact hx
  · exact hy

end Memory

section Inner

variable {inner : PathId → ResolveM (Option PathId)} (hinner : ∀ p, Following (inner p))

include hinner

theorem resolveOrSelf (p : PathId) : Following (PathId.resolveOrSelf inner p) :=
  (hinner p).bind fun _ => pure _

theorem resolveDeclarator (p : PathId) : Following (PathId.resolveDeclarator inner p) := by
  refine (go (.child p .id)).bind fun id => (go (.is id _)).bind fun _ => ite ?_ (pure _)
  exact (go (.child p .init)).bind fun init => (resolveOrSelf hinner init).bind fun _ => pure _

theorem resolveIdentifier (p : PathId) : Following (PathId.resolveIdentifier inner p) := by
  refine (lift (.binding? p)).bind fun o => ?_
  cases o with
  | none => exact pure _
  | some binding =>
    refine ite (pure _) ?_
    refine (resolveOrSelf hinner binding.path).bind fun target => (go (.node? target)).bind fun _ => ?_
    exact (go (.firstWhere (fun q => (Composed.node? q).bind fun _ => .pure _) _)).bind fun _ => pure _

theorem resolveAccess (target : PathId) (key : String) :
    Following (PathId.resolveAccess inner target key) := by
  refine (go (.type? target)).bind fun o => ?_
  split
  · refine (go (.elements target _)).bind fun l => (go (.lastProperty? key l)).bind fun o => ?_
    cases o with
    | none => exact pure _
    | some q =>
      exact (go (.child q .value)).bind fun r => (resolveOrSelf hinner r).bind fun _ => pure _
  · split
    · exact pure _
    · refine (go (.element target _ _)).bind fun q => (go (.node? q)).bind fun o => ?_
      cases o with
      | none => exact pure _
      | some _ => exact (resolveOrSelf hinner q).bind fun _ => pure _
  · exact pure _

theorem resolveMember (p : PathId) (property : NodeId) (computed : Bool) :
    Following (PathId.resolveMember inner p property computed) := by
  refine (go (.ask _)).bind fun _ => ite (pure _) ((go (.ask _)).bind fun o => ?_)
  cases o with
  | none => exact pure _
  | some key =>
    exact (go (.child p .object)).bind fun q => (resolveOrSelf hinner q).bind fun r =>
      resolveAccess hinner r key

end Inner

theorem resolveWithin (dangerous : Bool) (fuel : Nat) (p : PathId) :
    Following (PathId.resolveWithin dangerous fuel p) := by
  induction fuel generalizing p with
  | zero => exact throw _
  | succ fuel ih =>
    refine memory.bind fun seen => ite (pure _) ?_
    refine (remember _).bind fun _ => ?_
    refine (go (.kind? p)).bind fun k => ?_
    split
    · exact resolveDeclarator ih p
    · exact (go (.isReferencedIdentifier p)).bind fun _ => ite (resolveIdentifier ih p) (pure _)
    · exact (go (.child p .expression)).bind fun q => (resolveOrSelf ih q).bind fun _ => pure _
    · exact ite (resolveMember ih p _ _) (pure _)
    · exact pure _

end Following

namespace Searching

theorem resolve (p : PathId) (dangerous : Bool) : Searching (p.resolve dangerous) :=
  Composed.get.bind fun _ => (Following.resolveWithin dangerous _ p []).bind fun _ => .pure _

theorem importsName (specifier : PathId) (name : String) :
    Searching (specifier.importsName name) := by
  refine (Composed.kind? specifier).bind fun k => ?_
  split
  · exact .pure _
  · exact .pure _
  · exact (Composed.ask _).bind fun _ => .pure _
  · exact .pure _

theorem referencesImport (p : PathId) (source : String) (name : Option String) :
    Searching (p.referencesImport source name) := by
  refine (Composed.isReferencedIdentifier p).bind fun _ => .ite (.pure _) ?_
  refine (binding? p).bind fun o => ?_
  cases o with
  | none => exact .pure _
  | some binding =>
    refine .ite (.pure _) ((Composed.parent? binding.path).bind fun o => ?_)
    cases o with
    | none => exact .pure _
    | some declaration =>
      refine (Composed.kind? declaration).bind fun k => ?_
      split
      · refine (Composed.ask _).bind fun _ => .ite ?_ (.pure _)
        cases name with
        | none => exact .pure _
        | some name => exact importsName binding.path name
      · exact .pure _

/-! ### The order of execution -/

theorem executionParent? (p : PathId) : Searching p.executionParent? := by
  unfold PathId.executionParent?
  extract_lets find
  have hfind : ∀ start, Searching (find start) := by
    intro start
    cases start with
    | none => exact .pure _
    | some q => exact .firstWhere (fun r => .isAny r _) _
  refine (Composed.isAny p _).bind fun v => ?_
  cases v with
  | true => exact (Composed.parent? p).bind hfind
  | false => exact (Composed.pure _).bind hfind

theorem statusInFunction (p q : PathId) : Searching (p.statusInFunction q) := by
  have hnodes : ∀ l : List PathId, Searching (l.mapM fun q => do pure (← q.node?, q)) :=
    fun l => .mapM l fun q => (Composed.node? q).bind fun _ => .pure _
  refine (Composed.ancestry p).bind fun l => (hnodes l).bind fun mine => ?_
  refine (Composed.ancestry q).bind fun l => (hnodes l).bind fun others => ?_
  split
  · exact .pure _
  · next fork a b _ =>
    refine (Composed.data a).bind fun da => (Composed.data b).bind fun db => .ite (.pure _) ?_
    refine (Composed.type? fork).bind fun o => ?_
    cases o with
    | none => exact .pure _
    | some type => exact .pure _
  · exact .pure _

theorem isCallee (p : PathId) : Searching p.isCallee :=
  (Composed.data p).bind fun _ => .ite ((Composed.parentType? p).bind fun _ => .pure _) (.pure _)

theorem isInside (p : PathId) (node : NodeId) : Searching (p.isInside node) :=
  (Composed.firstWhere (fun q => (Composed.node? q).bind fun _ => .pure _) _).bind fun _ => .pure _

theorem hasReferences (function : PathId) : Searching function.hasReferences :=
  (Navigating.child function .id).searching.bind fun id => (binding? id).bind fun _ => .pure _

end Searching

namespace Following

section Calls

variable {statusAt : PathId → PathId.OrderM ExecutionStatus}
  (hstatus : ∀ q, Following (statusAt q))

include hstatus

theorem agreement (function : NodeId) (agreed : Option ExecutionStatus) (calls : List PathId) :
    Following (PathId.agreement function statusAt agreed calls) := by
  induction calls generalizing agreed with
  | nil => exact pure _
  | cons call calls ih =>
    refine (lift (.isCallee call)).bind fun _ => ite (pure _) ?_
    refine (lift (.isInside call function)).bind fun _ => ite (ih agreed) ?_
    exact (hstatus call).bind fun _ => ite (pure _) (ih _)

theorem statusThroughCalls (function : PathId) :
    Following (function.statusThroughCalls statusAt) := by
  refine (go (.is function _)).bind fun _ => ite (pure _) ?_
  refine (go (.parentType? function)).bind fun _ => ite (pure _) ?_
  refine (go (.node? function)).bind fun o => ?_
  cases o with
  | none => exact pure _
  | some node =>
    refine memory.bind fun _ => ite (pure _) ((go (.child function .id)).bind fun id => ?_)
    refine (lift (.binding? id)).bind fun o => ?_
    cases o with
    | none => exact pure _
    | some binding =>
      refine ite (pure _) ((remember _).bind fun _ => ?_)
      exact (agreement hstatus node none _).bind fun _ => (remember _).bind fun _ => pure _

end Calls

theorem statusWithin (fuel : Nat) (p q : PathId) : Following (PathId.statusWithin fuel p q) := by
  induction fuel generalizing p q with
  | zero => exact throw _
  | succ fuel ih =>
    unfold PathId.statusWithin
    refine (lift (.executionParent? p)).bind fun mine => ?_
    refine (lift (.executionParent? q)).bind fun other => ?_
    extract_lets nodeOf fromMine
    -- The node of the function around a path, if there is one.
    have hnode : ∀ o, Searching (nodeOf o) := by
      intro o
      cases o with
      | none => exact Composed.pure _
      | some q => exact Composed.node? q
    -- What the calls of the function around `p` say counts if those of the other one say nothing.
    have hmine : ∀ fromTarget, Following (fromMine fromTarget) := by
      intro fromTarget
      cases fromTarget with
      | some status => exact pure _
      | none =>
        cases mine with
        | none => exact pure _
        | some function =>
          refine (lift (.hasReferences function)).bind fun _ => ite ?_ (pure _)
          exact (statusThroughCalls (fun r => ih r q) function).bind fun _ => pure _
    refine (lift (hnode mine)).bind fun _ => (lift (hnode other)).bind fun _ => ?_
    refine ite (lift (.statusInFunction p q)) ?_
    cases other with
    | none => exact (pure _).bind hmine
    | some function => exact (statusThroughCalls (fun r => ih p r) function).bind hmine

end Following

namespace Searching

theorem executionStatus (p q : PathId) : Searching (p.executionStatus q) :=
  Composed.get.bind fun _ => (Following.statusWithin _ p q []).bind fun _ => .pure _

theorem executesBefore (p q : PathId) : Searching (p.executesBefore q) :=
  (executionStatus p q).bind fun _ => .pure _

theorem mayExecuteBefore (p q : PathId) : Searching (p.mayExecuteBefore q) :=
  (executionStatus p q).bind fun _ => .pure _

end Searching

/-! ## Inference -/

namespace Searching

theorem typeOfMissing? (p : PathId) : Searching p.typeOfMissing? := by
  unfold PathId.typeOfMissing?
  refine (Composed.data p).bind fun _ => .ite (.pure _) ?_
  refine (Composed.parentType? p).bind fun _ => .ite (.pure _) ?_
  extract_lets rest
  have hrest : ∀ declaration, Searching (rest declaration) := by
    intro declaration
    cases declaration with
    | none => exact .pure _
    | some q =>
      refine (Composed.data q).bind fun _ => .ite ?_ (.pure _)
      refine (Composed.parentType? q).bind fun o => ?_
      split
      · exact .pure _
      · exact .pure _
      · exact .pure _
  refine (Composed.parent? p).bind fun o => ?_
  cases o with
  | none => exact (Composed.pure _).bind hrest
  | some q => exact (Composed.parent? q).bind hrest

theorem typeOfCall? (callee : PathId) : Searching callee.typeOfCall? :=
  (resolve callee false).bind fun q => (Composed.kind? q).bind fun _ => .pure _

theorem violationsBefore (p : PathId) (sites : List PathId) :
    Searching (p.violationsBefore sites) := by
  induction sites with
  | nil => exact .pure _
  | cons q sites ih =>
    refine (resolve q false).bind fun r => (executionStatus r p).bind fun _ => ?_
    exact Composed.bind ih fun _ => .pure _

theorem nearestConditional? (p : PathId) : Searching p.nearestConditional? := by
  refine (Composed.climb (fun q => (Composed.parent? q).bind fun o => ?_) _).bind fun _ => .pure _
  cases o with
  | none => exact .pure _
  | some parent =>
    refine (Composed.type? parent).bind fun o => ?_
    split
    · exact (Composed.data q).bind fun _ => .pure _
    · exact (Composed.data q).bind fun _ => .pure _
    · exact .pure _

theorem isTypeof (p : PathId) : Searching p.isTypeof := by
  refine (Composed.kind? p).bind fun k => ?_
  split
  · exact .pure _
  · exact .pure _

theorem typeFromTypeof? (name : String) (left right : PathId) :
    Searching (PathId.typeFromTypeof? name left right) := by
  unfold PathId.typeFromTypeof?
  extract_lets rest
  have hrest : ∀ sides, Searching (rest sides) := by
    intro sides
    cases sides with
    | none => exact .pure _
    | some sides =>
      refine (resolve sides.2 false).bind fun q => (Composed.kind? q).bind fun k => ?_
      split
      · refine (Navigating.child sides.1 .argument).searching.bind fun r => ?_
        exact (Composed.identifierName? r).bind fun _ => .ite (.pure _) (.pure _)
      · exact .pure _
  refine (isTypeof left).bind fun v => (isTypeof right).bind fun w => ?_
  cases v with
  | true => exact (Composed.pure _).bind hrest
  | false =>
    cases w with
    | true => exact (Composed.pure _).bind hrest
    | false => exact (Composed.pure _).bind hrest

end Searching

/-- What the type of a path is found with: searches, and questions about the types of others. -/
inductive Inquiry (annotate : PathId → SessionM ValueType) : (α : Type) → SessionM α → Prop
  | glance {α : Type} {x : SessionM α} : Glance α x → Inquiry annotate α x
  | ask (p : PathId) : Inquiry annotate ValueType (annotate p)

/-- The computation searches, and asks for the types of paths. -/
abbrev Inquiring (annotate : PathId → SessionM ValueType) (x : SessionM α) : Prop :=
  Composed (Inquiry annotate) x

theorem Searching.inquiring {annotate : PathId → SessionM ValueType} {x : SessionM α}
    (hx : Searching x) : Inquiring annotate x :=
  hx.lift fun _ _ glance => .primitive (.glance glance)

namespace Inquiring

variable {annotate : PathId → SessionM ValueType}

theorem ask (p : PathId) : Inquiring annotate (annotate p) := .primitive (.ask p)

theorem child (p : PathId) (f : Field) : Inquiring annotate (p.child f) :=
  (Navigating.child p f).searching.inquiring

theorem resolve (p : PathId) : Inquiring annotate (p.resolve false) :=
  (Searching.resolve p false).inquiring

theorem unionOfFields? (p : PathId) (fields : List Field) :
    Inquiring annotate (PathId.unionOfFields? annotate p fields) :=
  (Composed.mapM _ fun f => (child p f).bind fun q => ask q).bind fun _ => .pure _

theorem typeOfBinary? (p : PathId) (operator : BinaryOperator) :
    Inquiring annotate (PathId.typeOfBinary? annotate p operator) := by
  refine .ite (.pure _) (.ite (.pure _) ?_)
  refine (child p .left).bind fun left => (child p .right).bind fun right => ?_
  have his : ∀ (q : PathId) (name : String),
      Inquiring annotate (do pure ((← annotate q).isBase name)) := fun q _ =>
    (ask q).bind fun _ => .pure _
  have hstrings : ∀ strings : Bool, Inquiring annotate (pure
      (if strings then some .string else ValueType.union? [.string, .number])) := fun _ => .pure _
  have hrest : ∀ (leftIs rightIs : String → SessionM Bool)
      (_ : ∀ name, Inquiring annotate (leftIs name))
      (_ : ∀ name, Inquiring annotate (rightIs name)) (numbers : Bool), Inquiring annotate (do
      if numbers then pure (some .number)
      else
        let strings ← if ← leftIs "string" then pure true else rightIs "string"
        pure (if strings then some .string else ValueType.union? [.string, .number])) := by
    intro leftIs rightIs hl hr numbers
    refine .ite (.pure _) ((hl _).bind fun v => ?_)
    cases v with
    | true => exact (Composed.pure _).bind hstrings
    | false => exact (hr _).bind hstrings
  refine (his left _).bind fun v => ?_
  cases v with
  | true => exact (his right _).bind (hrest _ _ (his left) (his right))
  | false => exact (Composed.pure _).bind (hrest _ _ (his left) (his right))

theorem typeFromComparison? (name : String) (p : PathId) (operator : BinaryOperator) :
    Inquiring annotate (PathId.typeFromComparison? annotate name p operator) := by
  unfold PathId.typeFromComparison?
  refine (child p .left).bind fun a => (resolve a).bind fun left => ?_
  refine (child p .right).bind fun b => (resolve b).bind fun right => ?_
  extract_lets rest
  have hrest : ∀ target, Inquiring annotate (rest target) := by
    intro target
    cases target with
    | none => exact .ite (Searching.typeFromTypeof? name left right).inquiring (.pure _)
    | some q => exact .ite ((ask q).bind fun _ => .pure _) (.pure _)
  refine (Composed.identifierName? left).bind fun _ => ?_
  refine (Composed.identifierName? right).bind fun _ => ?_
  refine .ite ((Composed.pure _).bind hrest) ?_
  exact .ite ((Composed.pure _).bind hrest) ((Composed.pure _).bind hrest)

theorem typesFromCondition (name : String) (steps : Nat) (ps : List PathId) :
    Inquiring annotate (PathId.typesFromCondition annotate name steps ps) := by
  induction steps generalizing ps with
  | zero => exact .throw _
  | succ steps ih =>
    cases ps with
    | nil => exact .pure _
    | cons p ps =>
      refine (resolve p).bind fun q => (Composed.kind? q).bind fun k => ?_
      split
      · exact (child q .left).bind fun left => (child q .right).bind fun right => ih _
      · exact (typeFromComparison? name q _).bind fun _ => (ih ps).bind fun _ => .pure _
      · exact ih ps

theorem narrowing? (name : String) (steps fuel : Nat) (p : PathId) :
    Inquiring annotate (PathId.narrowing? annotate name steps fuel p) := by
  induction fuel generalizing p with
  | zero => exact .throw _
  | succ fuel ih =>
    refine (Searching.nearestConditional? p).inquiring.bind fun o => ?_
    cases o with
    | none => exact .pure _
    | some conditional =>
      refine (child conditional .test).bind fun test => ?_
      refine (typesFromCondition name steps [test]).bind fun types => ?_
      split
      · exact .pure _
      · exact ih conditional

theorem typeFromAssignments? (steps : Nat) (p : PathId) (name : String) (binding : Binding) :
    Inquiring annotate (PathId.typeFromAssignments? annotate steps p name binding) := by
  refine (Searching.violationsBefore p _).inquiring.bind fun order => Composed.get.bind fun s => ?_
  refine (narrowing? name steps _ p).bind fun o => ?_
  have hrest : ∀ known : List ValueType × List PathId, Inquiring annotate (do
      let types ← (known.2 ++ order.2).mapM annotate
      pure (ValueType.union? (known.1 ++ types))) := fun known =>
    (Composed.mapM _ ask).bind fun _ => .pure _
  cases o with
  | none => exact (Composed.pure _).bind hrest
  | some found =>
    refine (Searching.violationsBefore found.2 _).inquiring.bind fun _ => ?_
    exact (Composed.pure _).bind hrest

theorem typeOfReference? (steps : Nat) (p : PathId) (name : String) :
    Inquiring annotate (PathId.typeOfReference? annotate steps p name) := by
  refine (Composed.isReferenced p).bind fun _ => .ite (.pure _) ?_
  refine (Searching.binding? p).inquiring.bind fun o => ?_
  cases o with
  | none => exact .pure _
  | some binding =>
    refine (Composed.ask _).bind fun k => ?_
    split
    · exact .pure _
    · exact typeFromAssignments? steps p name binding

theorem typeOf? (steps : Nat) (p : PathId) :
    Inquiring annotate (PathId.typeOf? annotate steps p) := by
  refine (Composed.kind? p).bind fun o => ?_
  cases o with
  | none => exact (Searching.typeOfMissing? p).inquiring
  | some kind =>
    have hof : ∀ q : PathId, Inquiring annotate (do pure (some (← annotate q))) := fun q =>
      (ask q).bind fun _ => .pure _
    dsimp only
    split
    · exact .pure _
    · exact typeOfReference? steps p _
    · exact (Composed.ask _).bind fun _ =>
        .ite ((child p .init).bind fun q => hof q) (.pure _)
    · exact .pure _
    · exact (Composed.ask _).bind fun _ => .pure _
    · exact .pure _
    · exact typeOfBinary? p _
    · exact unionOfFields? p _
    · exact unionOfFields? p _
    · exact .pure _
    · exact (Navigating.element p _ _).searching.inquiring.bind fun q => hof q
    · exact (child p .right).bind fun q => hof q
    · exact .pure _
    · exact .pure _
    · exact .pure _
    · exact .pure _
    · exact .pure _
    · exact .pure _
    · exact .pure _
    · exact .pure _
    · exact .pure _
    · exact .pure _
    · exact .pure _
    · exact (child p .callee).bind fun q => (Searching.typeOfCall? q).inquiring
    · refine (Composed.parentType? p).bind fun _ => .ite ((Composed.parent? p).bind fun o => ?_)
        (.pure _)
      cases o with
      | none => exact .pure _
      | some parent => exact hof parent

end Inquiring

/-- What inference is made of: searches, and answers left with a path. -/
inductive Conclusion : (α : Type) → SessionM α → Prop
  | glance {α : Type} {x : SessionM α} : Glance α x → Conclusion α x
  | answer (p : PathId) (type : ValueType) :
      Conclusion Unit (p.modifyData fun d => { d with inferred := some type })

/-- The computation searches, and leaves inferred types with paths. -/
abbrev Inferring (x : SessionM α) : Prop := Composed Conclusion x

theorem Searching.inferring {x : SessionM α} (hx : Searching x) : Inferring x :=
  hx.lift fun _ _ glance => .primitive (.glance glance)

theorem Navigating.inferring {x : SessionM α} (hx : Navigating x) : Inferring x :=
  hx.searching.inferring

theorem Inquiring.inferring {annotate : PathId → SessionM ValueType} {x : SessionM α}
    (hx : Inquiring annotate x) (hannotate : ∀ p, Inferring (annotate p)) : Inferring x :=
  hx.lift fun _ _ inquiry => by
    cases inquiry with
    | glance glance => exact .primitive (.glance glance)
    | ask p => exact hannotate p

namespace Inferring

theorem valueTypeWithin (steps fuel : Nat) (p : PathId) :
    Inferring (PathId.valueTypeWithin steps fuel p) := by
  induction fuel generalizing p with
  | zero => exact .throw _
  | succ fuel ih =>
    refine (Composed.data p).bind fun d => ?_
    split
    · exact .pure _
    · refine Composed.bind (.primitive (.answer p _)) fun _ => ?_
      refine ((Inquiring.typeOf? steps p).inferring ih).bind fun _ => ?_
      exact Composed.bind (.primitive (.answer p _)) fun _ => .pure _

theorem valueType (p : PathId) : Inferring p.valueType :=
  Composed.get.bind fun _ => valueTypeWithin _ _ p

theorem inferType? (p : PathId) : Inferring p.inferType? :=
  Composed.get.bind fun s => (Inquiring.typeOf? _ p).inferring (valueTypeWithin _ s.pathBound)

theorem isBaseType (p : PathId) (name : String) (soft : Bool) :
    Inferring (p.isBaseType name soft) :=
  .ite (.pure _) ((valueType p).bind fun _ => .pure _)

theorem couldBeBaseType (p : PathId) (name : String) : Inferring (p.couldBeBaseType name) := by
  refine (valueType p).bind fun t => ?_
  split
  · exact .pure _
  · exact .pure _
  · exact .pure _

theorem sameBaseType (p q : PathId) : Inferring (p.sameBaseType q) :=
  (valueType p).bind fun _ => (valueType q).bind fun _ => .pure _

theorem isGenericType (p : PathId) (name : String) : Inferring (p.isGenericType name) :=
  (valueType p).bind fun _ => .pure _

end Inferring

end Espalier
