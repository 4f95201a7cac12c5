import Espalier.Edit.Replace
import Espalier.Proofs.Naming

set_option autoImplicit false

/-! # How edits are composed

An edit navigates, registers and unregisters names, and writes to the tree, to the paths and to the
queues of the running walks. A replacement by statements walks the function that it makes. How each
edit is made of these steps is shown once (`Editing`); what all the steps do to a session, and what
such a walk does if its handlers do, every edit does (`Editing.leads`). -/

namespace Espalier

open SessionM

variable {α β : Type}

/-- What edits are made of. -/
inductive EditStep : (α : Type) → SessionM α → Prop
  | name {α : Type} {x : SessionM α} : NameStep α x → EditStep α x
  | onTree {α : Type} (build : TreeM α) : EditStep α (onTree build)
  /-- Another node becomes the root. -/
  | plant (node : NodeId) :
      EditStep PUnit (modify fun s => { s with tree := { s.tree with root := some node } })
  | modifyData (p : PathId) (f : PathData → PathData) : EditStep Unit (p.modifyData f)
  | unfile (c : Container) (p : PathId) : EditStep Unit (unfile c p)
  | fileUnder (c : Container) (p : PathId) : EditStep Unit (fileUnder c p)
  | recordMutation : EditStep Unit recordMutation
  | requeue (p : PathId) : EditStep Unit p.requeue

/-- The computation is composed of the steps of edits. -/
abbrev Stepwise (x : SessionM α) : Prop := Composed EditStep x

namespace Stepwise

theorem question {x : SessionM α} (hx : Composed (fun _ _ => False) x) : Stepwise x :=
  hx.lift fun _ _ h => h.elim

theorem of_navigating {x : SessionM α} (hx : Navigating x) : Stepwise x :=
  hx.lift fun _ _ hop => .primitive (.name (.hop hop))

theorem modifyData (p : PathId) (f : PathData → PathData) : Stepwise (p.modifyData f) :=
  .primitive (.modifyData p f)

/-! ## Keeping in step -/

theorem moveToContainer (p : PathId) (c : Container) : Stepwise (p.moveToContainer c) :=
  Composed.bind ((Composed.data p).bind fun _ => .pure _) fun _ =>
    Composed.bind (.primitive (.unfile _ p)) fun _ =>
      Composed.bind (.primitive (.fileUnder c p)) fun _ => modifyData p _

theorem markRemoved (p : PathId) : Stepwise p.markRemoved :=
  Composed.bind ((Composed.data p).bind fun _ => .pure _) fun _ =>
    Composed.bind (.primitive (.unfile _ p)) fun _ => modifyData p _

theorem resyncParent (p : PathId) : Stepwise p.resyncParent := by
  refine (Composed.data p).bind fun d => ?_
  split
  · exact .pure _
  · refine (Composed.node? _).bind fun o => ?_
    split
    · exact .pure _
    · split
      · exact .pure _
      · exact moveToContainer p _

theorem resyncKey (p : PathId) : Stepwise p.resyncKey := by
  refine (Composed.data p).bind fun d => ?_
  split
  · exact .pure _
  · refine (Composed.nodeAt _ _).bind fun _ => .ite (.pure _) (.ite (.pure _) ?_)
    refine Composed.bind ?_ fun o => ?_
    · unfold PathId.keyOf?
      split
      · exact (Composed.ask _).bind fun _ => .pure _
      · exact (Composed.ask _).bind fun _ => .pure _
      · exact .pure _
      · exact .pure _
    · cases o with
      | none => exact markRemoved p
      | some k => exact modifyData p _

theorem resync (p : PathId) : Stepwise p.resync :=
  (Composed.isRemoved p).bind fun _ =>
    .ite (.pure _) ((resyncParent p).bind fun _ => resyncKey p)

end Stepwise

/-! ## Edits -/

/-- The visitor whose handlers only work on the session. -/
def Visitor.ofSession (entries : List (Phase × Selector × (PathId → SessionM Unit))) :
    Visitor Unit where
  entries := entries.map fun e => (e.1, e.2.1, fun p => WalkM.onSession (e.2.2 p))

/-- The computation is composed of the steps of edits, and of walks whose handlers are. -/
inductive Editing : {α : Type} → SessionM α → Prop
  | step {α : Type} {x : SessionM α} : EditStep α x → Editing x
  | pure {α : Type} (a : α) : Editing (pure a)
  | throw {α : Type} (e : Failure) : Editing (throw e : SessionM α)
  | get : Editing get
  | bind {α β : Type} {x : SessionM α} {f : α → SessionM β} :
      Editing x → (∀ a, Editing (f a)) → Editing (x >>= f)
  | walk (entries : List (Phase × Selector × (PathId → SessionM Unit))) (p : PathId) :
      (∀ e ∈ entries, ∀ q, Editing (e.2.2 q)) →
      Editing ((p.traverse (Visitor.ofSession entries)).runOn ())

namespace Editing

/-- What the steps of edits do to a session, all edits do. -/
theorem leads {R : Session → Session → Prop} (hrefl : ∀ s, R s s)
    (htrans : ∀ s₁ s₂ s₃, R s₁ s₂ → R s₂ s₃ → R s₁ s₃)
    (hstep : ∀ α (x : SessionM α), EditStep α x → Leads R x)
    (hwalk : ∀ entries (p : PathId), (∀ e ∈ entries, ∀ q, Leads R (e.2.2 q)) →
      Leads R ((p.traverse (Visitor.ofSession entries)).runOn ()))
    {x : SessionM α} (hx : Editing x) : Leads R x := by
  induction hx with
  | step h => exact hstep _ _ h
  | pure a => exact .pure hrefl a
  | throw e => exact .throw hrefl e
  | get => exact .get hrefl
  | bind _ _ ihx ihf => exact .bind htrans ihx ihf
  | walk entries p _ ih => exact hwalk entries p ih

/-- What is composed of steps of edits is an edit. -/
theorem of_composed {Primitive : (α : Type) → SessionM α → Prop} {x : SessionM α}
    (hx : Composed Primitive x) (h : ∀ α (x : SessionM α), Primitive α x → Editing x) :
    Editing x := by
  induction hx with
  | primitive hx => exact h _ _ hx
  | pure a => exact .pure a
  | throw e => exact .throw e
  | get => exact .get
  | bind _ _ ihx ihf => exact .bind ihx ihf

theorem of_stepwise {x : SessionM α} (hx : Stepwise x) : Editing x :=
  of_composed hx fun _ _ h => .step h

theorem question {x : SessionM α} (hx : Composed (fun _ _ => False) x) : Editing x :=
  of_composed hx fun _ _ h => h.elim

theorem of_naming {x : SessionM α} (hx : Naming x) : Editing x :=
  of_composed hx fun _ _ h => .step (.name h)

theorem of_navigating {x : SessionM α} (hx : Navigating x) : Editing x := of_naming hx.naming

theorem ite {c : Prop} [Decidable c] {x y : SessionM α} (hx : Editing x) (hy : Editing y) :
    Editing (if c then x else y) := by
  split
  · exact hx
  · exact hy

theorem refuse (cause : Refusal) : Editing (refuse cause : SessionM α) := .throw _

theorem onTree (build : TreeM α) : Editing (onTree build) := .step (.onTree build)

theorem buildBelow (ids : List NodeId) (build : TreeM α) : Editing (buildBelow ids build) := by
  refine get.bind fun s => ?_
  split
  · exact onTree build
  · exact .throw _

theorem modifyKind (id : NodeId) (f : NodeKind → NodeKind) : Editing (modifyKind id f) := onTree _

theorem modifyData (p : PathId) (f : PathData → PathData) : Editing (p.modifyData f) :=
  .step (.modifyData p f)

theorem recordMutation : Editing recordMutation := .step .recordMutation

theorem requeue (p : PathId) : Editing p.requeue := .step (.requeue p)

theorem child (p : PathId) (f : Field) : Editing (p.child f) := of_navigating (.child p f)

theorem element (p : PathId) (f : Field) (i : Nat) : Editing (p.element f i) :=
  of_navigating (.element p f i)

theorem mapM {f : α → SessionM β} (l : List α) (hf : ∀ a, Editing (f a)) :
    Editing (l.mapM f) := by
  induction l with
  | nil => exact .pure []
  | cons a l ih =>
    rw [List.mapM_cons]
    exact (hf a).bind fun b => ih.bind fun bs => .pure _

theorem forM {f : α → SessionM PUnit} (l : List α) (hf : ∀ a, Editing (f a)) :
    Editing (l.forM f) := by
  induction l with
  | nil => exact .pure PUnit.unit
  | cons a l ih => exact (hf a).bind fun _ => ih

/-! ## Keeping in step -/

theorem shiftKeys (c : Container) (start : Nat) (delta : Int) :
    Editing (shiftKeys c start delta) :=
  get.bind fun _ => forM _ fun p => modifyData p _

theorem moveTo (p : PathId) (parent : Option PathId) (c : Container) (k : Key) :
    Editing (p.moveTo parent c k) :=
  (of_stepwise (.moveToContainer p c)).bind fun _ => modifyData p _

theorem markRemoved (p : PathId) : Editing p.markRemoved := of_stepwise (.markRemoved p)

theorem resync (p : PathId) : Editing p.resync := of_stepwise (.resync p)

/-! ## Elementary edits -/

theorem setNode (p : PathId) (node : NodeId) : Editing (p.setNode node) := by
  refine (question (.data p)).bind fun d => ?_
  have hset : Editing (p.modifyData fun d => { d with node := some node, inferred := none }) :=
    modifyData p _
  split
  · exact (step (.plant node)).bind fun _ => hset
  · refine (question (.ask _)).bind fun kind => ?_
    split
    · exact (refuse _).bind fun _ => hset
    · exact (modifyKind _ _).bind fun _ => hset
    · exact (refuse _).bind fun _ => hset
  · refine (question (.ask _)).bind fun kind => ?_
    split
    · exact ite ((modifyKind _ _).bind fun _ => hset) ((refuse _).bind fun _ => hset)
    · exact (refuse _).bind fun _ => hset
  · exact (refuse _).bind fun _ => hset

theorem registerAll (paths : List PathId) : Editing (do
    if ← scopesCrawled then
      paths.forM fun q => do
        if ← q.isAny NodeType.isDeclaration then q.registerDeclaration
    Pure.pure paths) := by
  refine (question .scopesCrawled).bind fun _ => ?_
  split
  · refine (forM _ fun q => ?_).bind fun _ => .pure _
    exact (question (.isAny q _)).bind fun _ =>
      ite (of_naming (Naming.registerDeclaration q)) (.pure _)
  · exact (pure _).bind fun _ => .pure _

theorem insertAt (p : PathId) (f : Field) (i : Nat) (nodes : List NodeId) :
    Editing (p.insertAt f i nodes) := by
  refine (question (.node? p)).bind fun o => ?_
  cases o with
  | none => exact refuse _
  | some parent =>
    have hrest : Editing (do
        Espalier.shiftKeys (.list parent f) i nodes.length
        let paths ← (List.range nodes.length).mapM fun j => p.element f (i + j)
        SessionM.recordMutation
        if ← scopesCrawled then
          paths.forM fun q => do
            if ← q.isAny NodeType.isDeclaration then q.registerDeclaration
        Pure.pure paths) :=
      (shiftKeys _ _ _).bind fun _ => (mapM _ fun j => element p f _).bind fun paths =>
        recordMutation.bind fun _ => registerAll paths
    refine (question (.ask _)).bind fun kind => ?_
    split
    · exact ite ((refuse _).bind fun _ => hrest) ((modifyKind _ _).bind fun _ => hrest)
    · exact (refuse _).bind fun _ => hrest
    · exact (refuse _).bind fun _ => hrest

theorem detach (p : PathId) : Editing p.detach := by
  refine (question (.data p)).bind fun d => ?_
  split
  · exact refuse _
  · refine (question (.ask _)).bind fun kind => ?_
    split
    · exact modifyKind _ _
    · exact refuse _
    · exact refuse _
  · refine (question (.ask _)).bind fun kind => ?_
    split
    · exact ite ((modifyKind _ _).bind fun _ => shiftKeys _ _ _)
        ((refuse _).bind fun _ => shiftKeys _ _ _)
    · exact (refuse _).bind fun _ => shiftKeys _ _ _
  · exact refuse _

theorem unregister (node : NodeId) : Editing (unregister node) :=
  of_naming (.unregister node)

/-! ## Insertion -/

theorem unshiftInto (p : PathId) (f : Field) (nodes : List NodeId) :
    Editing (p.unshiftInto f nodes) :=
  (question (.isRemoved p)).bind fun _ => ite (refuse _) (insertAt p f 0 nodes)

theorem pushInto (p : PathId) (f : Field) (nodes : List NodeId) :
    Editing (p.pushInto f nodes) := by
  refine (question (.isRemoved p)).bind fun _ => ite (refuse _) ?_
  refine (question (.node? p)).bind fun o => ?_
  cases o with
  | none => exact refuse _
  | some node => exact (question (.listLength _ _)).bind fun _ => insertAt p f _ nodes

theorem wrapWith (p : PathId) (nodes : List NodeId) (after : Bool) :
    Editing (p.wrapWith nodes after) := by
  refine (question (.node? p)).bind fun o => ?_
  cases o with
  | none => exact refuse _
  | some current =>
    exact (onTree _).bind fun block => (setNode p block).bind fun _ =>
      recordMutation.bind fun _ => mapM _ fun i => element p _ _

theorem insertHere (p : PathId) (nodes : List NodeId) (after : Bool) :
    Editing (p.insertHere nodes after) := by
  refine (question (.data p)).bind fun d => ?_
  split
  · split
    · exact (question (.nextIndex _)).bind fun _ => insertAt _ _ _ nodes
    · exact (pure _).bind fun _ => insertAt _ _ _ nodes
  · exact (question (.isStatementOrBlock p)).bind fun _ => ite (wrapWith p nodes after) (refuse _)

theorem delegatesInsertion (p : PathId) : Editing p.delegatesInsertion := by
  refine (question (.parentType? p)).bind fun o => ?_
  split
  · exact .pure _
  · exact .pure _
  · exact .pure _
  · exact question (.isAny p _)
  · exact .pure _

theorem insertWithin (nodes : List NodeId) (after : Bool) (fuel : Nat) (p : PathId) :
    Editing (PathId.insertWithin nodes after fuel p) := by
  induction fuel generalizing p with
  | zero => exact .throw _
  | succ fuel ih =>
    refine (question (.isRemoved p)).bind fun _ => ite (refuse _) ((resync p).bind fun _ => ?_)
    refine (delegatesInsertion p).bind fun _ => (question (.parent? p)).bind fun o => ?_
    split
    · exact ih _
    · exact insertHere p nodes after

theorem climbBound : Editing PathId.climbBound := get.bind fun _ => .pure _

theorem insertBeside (p : PathId) (nodes : List NodeId) (after : Bool) :
    Editing (p.insertBeside nodes after) :=
  (question (.isRemoved p)).bind fun _ => ite (refuse _) (ite (.pure _)
    (climbBound.bind fun _ => insertWithin nodes after _ p))

/-! ## Removal -/

theorem carriesParent (p : PathId) (parent : NodeType) : Editing (p.carriesParent parent) := by
  refine (question (.data p)).bind fun d => ite (.pure _) (ite ?_ (.pure _))
  split
  · exact (question (.listLength _ _)).bind fun _ => .pure _
  · exact .pure _

theorem otherOperand? (p parent : PathId) (type : NodeType) :
    Editing (p.otherOperand? parent type) := by
  refine (question (.data p)).bind fun d => ite ?_ (ite ?_ (.pure _))
  · split
    · refine (question (.listLength _ _)).bind fun _ => ite ?_ (.pure _)
      exact (element parent _ _).bind fun q => question (.node? q)
    · exact .pure _
  · exact (child parent _).bind fun q => question (.node? q)

section Removal

variable {replace : PathId → NodeId → SessionM Unit} (hreplace : ∀ p n, Editing (replace p n))

include hreplace

theorem adjustParent (p parent : PathId) (type : NodeType) {removeParent : SessionM Unit}
    (hremove : Editing removeParent) :
    Editing (p.adjustParent replace parent type removeParent) := by
  refine (carriesParent p type).bind fun _ => ite (hremove.bind fun _ => .pure _) ?_
  refine (otherOperand? p parent type).bind fun o => ?_
  cases o with
  | some other => exact (hreplace parent other).bind fun _ => .pure _
  | none =>
    refine (question (.data p)).bind fun d => ite ?_ (.pure _)
    exact (onTree _).bind fun block => (setNode p block).bind fun _ => .pure _

theorem removeWithin (fuel : Nat) (p : PathId) : Editing (removeWithin replace fuel p) := by
  induction fuel generalizing p with
  | zero => exact .throw _
  | succ fuel ih =>
    refine (question (.isRemoved p)).bind fun _ => ite (refuse _) ((resync p).bind fun _ => ?_)
    refine (question (.node? p)).bind fun o => ?_
    cases o with
    | none => exact refuse _
    | some node =>
      have hmark : Editing (do p.markRemoved; SessionM.recordMutation) :=
        (markRemoved p).bind fun _ => recordMutation
      have hrest : ∀ adjusted : Bool, Editing (do
          if !adjusted then p.detach
          p.markRemoved
          SessionM.recordMutation) := by
        intro adjusted
        cases adjusted with
        | true => exact hmark
        | false => exact (detach p).bind fun _ => hmark
      refine (unregister node).bind fun _ => (question (.parent? p)).bind fun o => ?_
      refine (question (.parentType? p)).bind fun o' => ?_
      split
      · exact (adjustParent hreplace p _ _ (ih _)).bind hrest
      · exact (pure _).bind hrest

theorem removeUsing (p : PathId) : Editing (p.removeUsing replace) :=
  climbBound.bind fun _ => removeWithin hreplace _ p

end Removal

/-! ## Declarations -/

theorem ensureBlock (function : PathId) : Editing (ensureBlock function) := by
  refine (child function .body).bind fun body => (question (.node? body)).bind fun o => ?_
  cases o with
  | none => exact refuse _
  | some expression =>
    refine (question (.ask _)).bind fun _ => ite (.pure _) ?_
    refine (onTree _).bind fun ret => (onTree _).bind fun block => (moveTo body _ _ _).bind fun _ => ?_
    refine (child function .body).bind fun blockPath => (setNode blockPath block).bind fun _ => ?_
    exact (element blockPath .body 0).bind fun retPath => moveTo body _ _ _

theorem declarationHost (block : PathId) : Editing (declarationHost block) :=
  (question (.is block _)).bind fun _ =>
    ite (.pure _) ((ensureBlock block).bind fun _ => child block .body)

theorem sharedDeclaration (host : PathId) (body : NodeId) :
    Editing (sharedDeclaration host body) := by
  refine (question (.ask _)).bind fun kind => get.bind fun s => ?_
  dsimp only
  split
  · exact element host _ _
  · refine (onTree _).bind fun declaration => (unshiftInto host _ _).bind fun inserted => ?_
    exact (step (.name (.share _ _))).bind fun _ => question (.found _)

theorem pushDeclaration (i : ScopeId) (name : String) (init : Option NodeId) :
    Editing (i.pushDeclaration name init) := by
  refine (question (.functionScope i)).bind fun target =>
    (question (.scopeData target)).bind fun d => ?_
  refine (declarationHost d.block).bind fun host => (question (.node? host)).bind fun o => ?_
  cases o with
  | none => exact refuse _
  | some body =>
    refine (sharedDeclaration host body).bind fun declaration => (onTree _).bind fun id => ?_
    refine (onTree _).bind fun declarator => (pushInto declaration _ _).bind fun inserted => ?_
    refine (question (.found _)).bind fun path => ?_
    exact (of_naming (Naming.registerBinding target name _ path id)).bind fun _ => .pure _

theorem generateDeclaredUid (i : ScopeId) (text : String) :
    Editing (i.generateDeclaredUid text) :=
  (of_naming (Naming.generateUid i text)).bind fun uid =>
    (pushDeclaration i uid none).bind fun _ => .pure _

/-! ## Replacement -/

theorem putNode (p : PathId) (old : Option NodeId) (new : NodeId) : Editing (p.putNode old new) := by
  have hrest : Editing (do
      p.setNode new
      SessionM.recordMutation
      if ← scopesCrawled then
        if (← ask fun t => t.type? new).isDeclaration then p.registerDeclaration
      p.requeue) := by
    refine (setNode p new).bind fun _ => recordMutation.bind fun _ => ?_
    refine (question .scopesCrawled).bind fun _ => ?_
    split
    · refine (question (.ask _)).bind fun _ => ?_
      split
      · exact (of_naming (Naming.registerDeclaration p)).bind fun _ => requeue p
      · exact requeue p
    · exact requeue p
  cases old with
  | none => exact hrest
  | some old => exact (onTree _).bind fun _ => (onTree _).bind fun _ => hrest

theorem dropUnusedValue (p : PathId) (expression : NodeId) :
    Editing (p.dropUnusedValue expression) := by
  refine (question (.parentType? p)).bind fun _ => ite (.pure _) ?_
  refine (question (.isCompletionRecord p false)).bind fun _ => ite (.pure _) ?_
  refine (question (.ask _)).bind fun kind => ?_
  split
  · refine (question (.ask _)).bind fun _ => ite ?_ (.pure _)
    exact (modifyKind _ _).bind fun _ => .pure _
  · exact .pure _

/-- Replacing a node, when statements can be put in the place of an expression. -/
theorem replaceUsing {byStatements : PathId → List NodeId → SessionM PathId}
    (hby : ∀ p l, Editing (byStatements p l)) (p : PathId) (new : NodeId) :
    Editing (p.replaceUsing byStatements new) := by
  refine (question (.isRemoved p)).bind fun _ => ite (refuse _) ((resync p).bind fun _ => ?_)
  refine (question (.isRemoved p)).bind fun _ => ite (refuse _) ?_
  refine (question (.node? p)).bind fun old => ite (.pure _) ((question (.ask _)).bind fun type => ?_)
  refine (question (.type? p)).bind fun o => ?_
  cases o with
  | none => exact putNode p old new
  | some current =>
    have hrest : ∀ flexible : Bool, Editing (do
        if current.isExpression && type.isStatement && !flexible then
          let _ ← byStatements p [new]
        else if current.isStatement && type.isExpression && !flexible
            && (← p.parentType?) != some .exportDefaultDeclaration then
          p.putNode old (← SessionM.onTree (TreeM.alloc (.expressionStatement new)))
        else p.putNode old new) := by
      intro flexible
      refine ite ((hby p [new]).bind fun _ => .pure _) ?_
      refine (question (.parentType? p)).bind fun _ => ite ?_ (putNode p old new)
      exact (onTree _).bind fun statement => putNode p old statement
    refine ite (refuse _) ((question (.isForHead p)).bind fun v => ?_)
    cases v with
    | true => exact hrest true
    | false => exact (question (.canSwapBody p new)).bind hrest

theorem replaceWithMultiple (p : PathId) (nodes : List NodeId) :
    Editing (p.replaceWithMultiple nodes) := by
  refine (question (.isRemoved p)).bind fun _ => ite (refuse _) ((resync p).bind fun _ => ?_)
  split
  · refine (question (.data p)).bind fun d => ?_
    split
    · exact refuse _
    · split
      · refine (onTree _).bind fun _ => (onTree _).bind fun _ => (onTree _).bind fun _ => ?_
        refine (insertAt _ _ _ nodes).bind fun paths => (unregister _).bind fun _ => ?_
        exact (detach p).bind fun _ => (markRemoved p).bind fun _ => .pure _
      · exact refuse _
  · exact refuse _

theorem loopBelow? (p : PathId) (wrapper : Option NodeId) : Editing (p.loopBelow? wrapper) := by
  refine question ((Composed.parent? p).bind fun _ => Composed.bind (.climb (fun q => ?_) _)
    fun _ => .pure _)
  refine (Composed.node? q).bind fun _ => .ite (.pure _) ?_
  exact (Composed.isAny q _).bind fun _ => .ite (.pure _) (.pure _)

theorem resultVariable (callee loop : PathId) : Editing (PathId.resultVariable callee loop) := by
  refine (question (.note? loop _)).bind fun o => ?_
  split
  · exact .pure _
  · refine (of_naming (Naming.scope callee)).bind fun i => ?_
    refine (generateDeclaredUid i _).bind fun uid => (child callee .body).bind fun body => ?_
    refine (onTree _).bind fun _ => (onTree _).bind fun ret => (pushInto body _ _).bind fun _ => ?_
    exact (modifyData loop _).bind fun _ => .pure _

theorem hoistDeclarators (i : ScopeId) (declarators : List NodeId) :
    Editing (PathId.hoistDeclarators i declarators) := by
  induction declarators with
  | nil => exact .pure _
  | cons declarator declarators ih =>
    refine (question (.ask _)).bind fun kind => ?_
    split
    · next id init =>
      refine (question (.askBelow _ _)).bind fun names => ?_
      refine (forM _ fun name => (pushDeclaration i name none).bind fun _ => .pure _).bind fun _ => ?_
      cases init with
      | none => exact (pure _).bind fun _ => ih.bind fun _ => .pure _
      | some init =>
        refine Editing.bind ?_ fun _ => ih.bind fun _ => .pure _
        rw [Option.mapM_some, map_eq_pure_bind]
        exact (onTree _).bind fun _ => .pure _
    · exact ih

section Nested

variable {replace : PathId → NodeId → SessionM Unit} (hreplace : ∀ p n, Editing (replace p n))

include hreplace

theorem replaceForHead (p : PathId) (target : Option NodeId) (assignments : List NodeId) :
    Editing (p.replaceForHead replace target assignments) := by
  refine (question (.data p)).bind fun d => ite ?_ ?_
  · cases target with
    | none => exact .pure _
    | some id => exact hreplace p id
  · split
    · exact removeUsing hreplace p
    · exact hreplace p _
    · exact (onTree _).bind fun _ => hreplace p _

theorem replaceByStatements (p : PathId) (assignments : List NodeId) :
    Editing (p.replaceByStatements replace assignments) := by
  refine (mapM _ fun a => onTree _).bind fun statements => (question (.inList p)).bind fun _ => ?_
  refine ite (ite (removeUsing hreplace p) ?_) ?_
  · exact (replaceWithMultiple p statements).bind fun _ => .pure _
  · split
    · exact (onTree _).bind fun _ => hreplace p _
    · exact hreplace p _
    · exact (onTree _).bind fun _ => hreplace p _

theorem hoistDeclaration (i : ScopeId) (p : PathId) :
    Editing (PathId.hoistDeclaration replace i p) := by
  refine (question (.kind? p)).bind fun k => ?_
  split
  · refine (hoistDeclarators i _).bind fun r => (question (.isForHead p)).bind fun _ => ?_
    exact ite (replaceForHead hreplace p _ _) (replaceByStatements hreplace p _)
  · exact .pure _

theorem hoistVariables (function : PathId) (i : ScopeId) :
    Editing (function.hoistVariables replace i) := by
  have hwalk := walk [(.enter, .category .function, fun p => p.skip),
    (.enter, .type .variableDeclaration, fun p => PathId.hoistDeclaration replace i p)] function
  refine (hwalk fun e he q => ?_).bind fun _ => .pure _
  simp only [List.mem_cons, List.not_mem_nil, or_false] at he
  rcases he with rfl | rfl
  · exact modifyData q _
  · exact hoistDeclaration hreplace i q

theorem returnRecord (callee p : PathId) : Editing (PathId.returnRecord replace callee p) := by
  refine (question (.kind? p)).bind fun k => ?_
  split
  · refine (question (.node? callee)).bind fun _ => (loopBelow? p _).bind fun o => ?_
    cases o with
    | none => exact (onTree _).bind fun _ => hreplace p _
    | some loop =>
      refine (resultVariable callee loop).bind fun uid => (onTree _).bind fun _ => ?_
      exact (onTree _).bind fun _ => (child p .expression).bind fun q => hreplace q _
  · exact .pure _

theorem wrapInFunction (p : PathId) (i : ScopeId) (statements : List NodeId) :
    Editing (p.wrapInFunction replace i statements) := by
  refine (onTree _).bind fun body => (onTree _).bind fun function => (onTree _).bind fun call => ?_
  refine (hreplace p call).bind fun _ => (child p .callee).bind fun callee => ?_
  refine (hoistVariables hreplace callee i).bind fun _ => ?_
  refine (of_navigating (Navigating.completionRecords callee)).bind fun records => ?_
  exact forM _ fun q => returnRecord hreplace callee q

theorem replaceByStatementsUsing (p : PathId) (statements : List NodeId) :
    Editing (p.replaceByStatementsUsing replace statements) := by
  refine ite (refuse _) ((question (.isRemoved p)).bind fun _ => ite (refuse _) ?_)
  refine (resync p).bind fun _ => (of_naming (Naming.scope p)).bind fun i => ?_
  refine (buildBelow _ _).bind fun o => ?_
  cases o with
  | none => exact (wrapInFunction hreplace p i statements).bind fun _ => .pure _
  | some reduced =>
    refine (forM _ fun name => (pushDeclaration i name none).bind fun _ => .pure _).bind fun _ => ?_
    exact (dropUnusedValue p _).bind fun _ => (hreplace p _).bind fun _ => .pure _

end Nested

theorem replaceWithin (fuel : Nat) (p : PathId) (new : NodeId) :
    Editing (PathId.replaceWithin fuel p new) := by
  induction fuel generalizing p new with
  | zero => exact .throw _
  | succ fuel ih => exact replaceUsing (fun p l => replaceByStatementsUsing ih p l) p new

theorem replaceFuel : Editing PathId.replaceFuel := get.bind fun _ => .pure _

theorem replaceNode (p : PathId) (new : NodeId) : Editing (p.replaceNode new) :=
  replaceFuel.bind fun _ => replaceWithin _ p new

theorem remove (p : PathId) : Editing p.remove :=
  replaceFuel.bind fun _ => removeUsing (fun q n => replaceWithin _ q n) p

theorem replaceExpressionWithStatements (p : PathId) (statements : List NodeId) :
    Editing (p.replaceExpressionWithStatements statements) :=
  replaceFuel.bind fun _ => replaceByStatementsUsing (fun q n => replaceWithin _ q n) p statements

theorem replaceWith (p : PathId) (offer : Replacement) : Editing (p.replaceWith offer) := by
  cases offer with
  | node id => exact replaceNode p id
  | path other =>
    refine (question (.node? other)).bind fun o => ?_
    cases o with
    | none => exact refuse _
    | some id => exact replaceNode p id
  | nodes ids => exact refuse _
  | source text => exact refuse _
  | nothing => exact refuse _

theorem replaceInline (p : PathId) (nodes : List NodeId) : Editing (p.replaceInline nodes) := by
  refine (question (.inList p)).bind fun _ => ite (replaceWithMultiple p nodes) ?_
  split
  · exact refuse _
  · exact (replaceNode p _).bind fun _ => .pure _
  · refine (question (.isAny p _)).bind fun _ => ite ?_ ?_
    · exact (replaceExpressionWithStatements p nodes).bind fun _ => .pure _
    · refine (question (.isStatementOrBlock p)).bind fun _ => ite ?_ (refuse _)
      refine (onTree _).bind fun _ => (replaceNode p _).bind fun _ => ?_
      exact of_navigating (Navigating.elements p .body)

theorem replaceWithSource (p : PathId) (text : String) : Editing (p.replaceWithSource text) := by
  refine get.bind fun s => ?_
  split
  · exact refuse _
  · refine (onTree _).bind fun r => ?_
    cases r with
    | ok id => exact replaceNode p id
    | error e => exact refuse _

end Editing

end Espalier
