import Espalier.Edit.Replace
import Espalier.Proofs.WalkUpkeep

set_option autoImplicit false

/-! # Edits in tidy sessions

Every edit leaves a tidy session tidy, whether it succeeds or is refused, whichever path it is made
through and whatever tree it meets. The compound edits follow the elementary ones; those that need
each other are shown against a replacement of which nothing else is known. -/

namespace Espalier

open SessionM Session

variable {α β : Type}

/-! ## Elementary edits -/

namespace Quiet

theorem modifyKind (id : NodeId) (f : NodeKind → NodeKind) : Quiet (modifyKind id f) := .onTree _

theorem child (p : PathId) (f : Field) : Quiet (p.child f) := (Navigating.child p f).quiet

theorem element (p : PathId) (f : Field) (i : Nat) : Quiet (p.element f i) :=
  (Navigating.element p f i).quiet

theorem shiftKeys (c : Container) (start : Nat) (delta : Int) : Quiet (shiftKeys c start delta) := by
  refine Quiet.get.bind fun s => .forM _ fun p => .modifyData p fun d hd => ?_
  split
  · split
    · exact ⟨⟨hd.removed, hd.adrift⟩, rfl, rfl⟩
    · exact ⟨hd, rfl, rfl⟩
  · exact ⟨hd, rfl, rfl⟩

theorem insertAt (p : PathId) (f : Field) (i : Nat) (nodes : List NodeId) :
    Quiet (p.insertAt f i nodes) := by
  refine Quiet.bind (.question (.node? p)) fun o => ?_
  cases o with
  | none => exact .throw _
  | some parent =>
    have hregister : ∀ paths : List PathId, Quiet (do
        if ← scopesCrawled then
          paths.forM fun q => do
            if ← q.isAny NodeType.isDeclaration then q.registerDeclaration
        Pure.pure paths) := fun paths => by
      refine Quiet.bind (.question .scopesCrawled) fun _ => ?_
      split
      · refine Quiet.bind (.forM _ fun q => ?_) fun _ => .pure _
        refine Quiet.bind (.question (.isAny q _)) fun _ => .ite ?_ (.pure _)
        exact (Charting.registerDeclaration q).quiet
      · exact Quiet.bind (.pure _) fun _ => .pure _
    have hrest : Quiet (do
        Espalier.shiftKeys (.list parent f) i nodes.length
        let paths ← (List.range nodes.length).mapM fun j => p.element f (i + j)
        SessionM.recordMutation
        if ← scopesCrawled then
          paths.forM fun q => do
            if ← q.isAny NodeType.isDeclaration then q.registerDeclaration
        Pure.pure paths) :=
      (shiftKeys _ _ _).bind fun _ => Quiet.bind (.mapM _ fun j => element p f _) fun paths =>
        recordMutation.bind fun _ => hregister paths
    refine Quiet.bind (.question (.ask _)) fun kind => ?_
    split
    · exact .ite (Quiet.bind (.throw _) fun _ => hrest) ((modifyKind _ _).bind fun _ => hrest)
    · exact Quiet.bind (.throw _) fun _ => hrest
    · exact Quiet.bind (.throw _) fun _ => hrest

theorem detach (p : PathId) : Quiet p.detach := by
  refine Quiet.bind (.question (.data p)) fun d => ?_
  split
  · exact .throw _
  · refine Quiet.bind (.question (.ask _)) fun kind => ?_
    split
    · exact modifyKind _ _
    · exact .throw _
    · exact .throw _
  · refine Quiet.bind (.question (.ask _)) fun kind => ?_
    split
    · exact .ite ((modifyKind _ _).bind fun _ => shiftKeys _ _ _)
        (Quiet.bind (.throw _) fun _ => shiftKeys _ _ _)
    · exact Quiet.bind (.throw _) fun _ => shiftKeys _ _ _
  · exact .throw _

theorem unregister (node : NodeId) : Quiet (unregister node) := (Charting.unregister node).quiet

/-! ### Steering a traversal -/

theorem setNote (p : PathId) (name : String) (value : Json) : Quiet (p.setNote name value) :=
  .modifyData p fun _ hd => ⟨⟨hd.removed, hd.adrift⟩, rfl, rfl⟩

theorem requeue (p : PathId) : Quiet p.requeue := by
  refine Quiet.bind (.question (.data p)) fun d => ?_
  split
  · exact .aside fun _ => ⟨rfl, rfl, rfl⟩
  · exact .pure _

theorem skip (p : PathId) : Quiet p.skip :=
  .modifyData p fun _ hd => ⟨⟨fun h => ⟨(hd.removed h).1, rfl, (hd.removed h).2.2⟩, hd.adrift⟩,
    rfl, rfl⟩

theorem stop (p : PathId) : Quiet p.stop := by
  refine Quiet.bind (.modifyData p fun _ hd => ?_) fun _ => .aside fun _ => ⟨rfl, rfl, rfl⟩
  exact ⟨⟨fun h => ⟨(hd.removed h).1, rfl, (hd.removed h).2.2⟩, hd.adrift⟩, rfl, rfl⟩

end Quiet

/-! ## Insertion -/

theorem Composed.delegatesInsertion {Primitive : (α : Type) → SessionM α → Prop} (p : PathId) :
    Composed Primitive p.delegatesInsertion := by
  refine (Composed.parentType? p).bind fun o => ?_
  split
  · exact .pure _
  · exact .pure _
  · exact .pure _
  · exact .isAny p _
  · exact .pure _

namespace Tidying

theorem insertAt (p : PathId) (f : Field) (i : Nat) (nodes : List NodeId) :
    Tidying (p.insertAt f i nodes) := of_quiet (.insertAt p f i nodes)

theorem unshiftInto (p : PathId) (f : Field) (nodes : List NodeId) :
    Tidying (p.unshiftInto f nodes) :=
  (question (.isRemoved p)).bind fun _ => ite (refuse _) (insertAt p f 0 nodes)

theorem pushInto (p : PathId) (f : Field) (nodes : List NodeId) :
    Tidying (p.pushInto f nodes) := by
  refine (question (.isRemoved p)).bind fun _ => ite (refuse _) ?_
  refine (question (.node? p)).bind fun o => ?_
  cases o with
  | none => exact refuse _
  | some node => exact (question (.listLength _ _)).bind fun _ => insertAt p f _ nodes

theorem wrapWith (p : PathId) (nodes : List NodeId) (after : Bool) :
    Tidying (p.wrapWith nodes after) := by
  refine node?_bind p (refuse _) fun current => .bind_seated (.onTree _) fun block => ?_
  refine TidyingFrom.bind (Q := fun _ => True) ?_ (fun _ => ?_) fun _ _ _ _ => trivial
  · exact .of_quietFrom fun s hs hp => PathId.setNode_quiet p block s hs hp.1
  · exact .of_quiet (Quiet.recordMutation.bind fun _ => .mapM _ fun i => .element p _ _)

theorem insertHere (p : PathId) (nodes : List NodeId) (after : Bool) :
    Tidying (p.insertHere nodes after) := by
  refine (question (.data p)).bind fun d => ?_
  split
  · split
    · exact (question (.nextIndex _)).bind fun _ => insertAt _ _ _ nodes
    · exact (pure _).bind fun _ => insertAt _ _ _ nodes
  · exact (question (.isStatementOrBlock p)).bind fun _ => ite (wrapWith p nodes after) (refuse _)

theorem insertWithin (nodes : List NodeId) (after : Bool) (fuel : Nat) (p : PathId) :
    Tidying (PathId.insertWithin nodes after fuel p) := by
  induction fuel generalizing p with
  | zero => exact throw _
  | succ fuel ih =>
    refine (question (.isRemoved p)).bind fun _ => ite (refuse _) ((resync p).bind fun _ => ?_)
    refine (question (.delegatesInsertion p)).bind fun _ => ?_
    refine (question (.parent? p)).bind fun o => ?_
    split
    · exact ih _
    · exact insertHere p nodes after

theorem climbBound : Tidying PathId.climbBound := get.bind fun _ => pure _

theorem insertBeside (p : PathId) (nodes : List NodeId) (after : Bool) :
    Tidying (p.insertBeside nodes after) :=
  (question (.isRemoved p)).bind fun _ => ite (refuse _) (ite (pure _)
    (climbBound.bind fun _ => insertWithin nodes after _ p))

end Tidying

/-! ## Removal -/

namespace PathId

variable (p : PathId)

theorem carriesParent_quiet (parent : NodeType) : Quiet (p.carriesParent parent) := by
  refine Quiet.bind (.question (.data p)) fun d => .ite (.pure _) (.ite ?_ (.pure _))
  split
  · exact Quiet.bind (.question (.listLength _ _)) fun _ => .pure _
  · exact .pure _

theorem otherOperand?_quiet (parent : PathId) (type : NodeType) :
    Quiet (p.otherOperand? parent type) := by
  refine Quiet.bind (.question (.data p)) fun d => .ite ?_ (.ite ?_ (.pure _))
  · split
    · refine Quiet.bind (.question (.listLength _ _)) fun _ => .ite ?_ (.pure _)
      exact (Quiet.element parent _ _).bind fun q => .question (.node? q)
    · exact .pure _
  · exact (Quiet.child parent _).bind fun q => .question (.node? q)

end PathId

namespace Tidying

variable {replace : PathId → NodeId → SessionM Unit} (hreplace : ∀ p n, Tidying (replace p n))

include hreplace

theorem adjustParent (p parent : PathId) (type : NodeType) {removeParent : SessionM Unit}
    (hremove : Tidying removeParent) :
    TidyingFrom (Seated p) (p.adjustParent replace parent type removeParent) := by
  refine .bind_seated (PathId.carriesParent_quiet p type) fun _ =>
    .ite (.of_tidying (hremove.bind fun _ => pure _)) ?_
  refine .bind_seated (PathId.otherOperand?_quiet p parent type) fun o => ?_
  cases o with
  | some other => exact .of_tidying ((hreplace parent other).bind fun _ => pure _)
  | none =>
    refine .bind_seated (.question (.data p)) fun d => .ite ?_ (.of_quiet (.pure _))
    refine .bind_seated (.onTree _) fun block => ?_
    refine TidyingFrom.bind (Q := fun _ => True) ?_ (fun _ => .of_quiet (.pure _))
      fun _ _ _ _ => trivial
    exact .of_quietFrom fun s hs hp => PathId.setNode_quiet p block s hs hp.1

theorem removeWithin (fuel : Nat) (p : PathId) : Tidying (removeWithin replace fuel p) := by
  induction fuel generalizing p with
  | zero => exact throw _
  | succ fuel ih =>
    refine (question (.isRemoved p)).bind fun _ => ite (refuse _) ((resync p).bind fun _ => ?_)
    refine node?_bind p (refuse _) fun node => ?_
    -- Whatever happens to the parent, the path keeps the position that it had.
    have hrest : ∀ adjusted : Bool, TidyingFrom (fun s => s.Placed p) (do
        if !adjusted then p.detach
        p.markRemoved
        recordMutation) := by
      intro adjusted
      have hmark : TidyingFrom (fun s => s.Placed p) (do p.markRemoved; recordMutation) :=
        (PathId.markRemoved_tidying p).bind_placed fun _ => .of_quiet .recordMutation
      cases adjusted with
      | true => exact hmark
      | false => exact TidyingFrom.bind_placed (.of_quiet (.detach p)) fun _ => hmark
    refine .bind_seated (.unregister node) fun _ => .bind_seated (.question (.parent? p)) fun o => ?_
    refine .bind_seated (.question (.parentType? p)) fun o' => ?_
    split
    · exact (adjustParent hreplace p _ _ (ih _)).bind hrest fun _ _ hp h => h.placed p hp.2
    · exact TidyingFrom.bind (Q := fun s => s.Placed p) (.of_quiet (.pure _)) hrest
        fun _ _ hp h => h.placed p hp.2

theorem removeUsing (p : PathId) : Tidying (p.removeUsing replace) :=
  climbBound.bind fun _ => removeWithin hreplace _ p

end Tidying

/-! ## Scopes -/

namespace Tidying

/-- The body leaves its slot before the block comes to stand there. -/
theorem ensureBlock (function : PathId) : Tidying (ensureBlock function) := by
  refine (child function .body).bind fun body => node?_bind body (refuse _) fun expression => ?_
  refine .bind_seated (.question (.ask _)) fun _ => .ite (.of_quiet (.pure _)) ?_
  refine .bind_seated (.onTree _) fun ret => .bind_seated (.onTree _) fun block => ?_
  refine .of_quietFrom ?_
  have hmove : ∀ parent : Option PathId,
      QuietFrom (Seated body) (body.moveTo parent (.slot ret) (.field .argument)) := fun parent =>
    PathId.moveTo_quiet body parent (by simp) _
  refine (hmove none).bind (Q := Seated body) (fun _ => ?_) fun _ _ hp h => h.seated hp
  refine QuietFrom.bind_of (.of_quiet (.child function .body)) fun blockPath s s' hs hp hrun h => ?_
  have hlive : s'.Live blockPath := PathId.child_live hs hrun
  refine QuietFrom.bind (P := fun s => s.Live blockPath ∧ s.Seated body) (Q := Seated body)
    (fun s hs hp => PathId.setNode_quiet blockPath block s hs hp.1) (fun _ => ?_)
    (fun _ _ hp h => h.seated hp.2) s' h.tidy ⟨hlive, h.seated hp⟩
  exact QuietFrom.bind (.of_quiet (.element blockPath .body 0)) (fun retPath => hmove (some retPath))
    fun _ _ hp h => h.seated hp

theorem declarationHost (block : PathId) : Tidying (declarationHost block) :=
  (question (.is block _)).bind fun _ => ite (pure _)
    ((ensureBlock block).bind fun _ => child block .body)

theorem sharedDeclaration (host : PathId) (body : NodeId) :
    Tidying (sharedDeclaration host body) := by
  refine (question (.ask _)).bind fun kind => get.bind fun s => ?_
  dsimp only
  split
  · exact of_quiet (.element host _ _)
  · refine (onTree _).bind fun declaration => (unshiftInto host _ _).bind fun inserted => ?_
    exact bind (of_quiet (.aside fun _ => ⟨rfl, rfl, rfl⟩)) fun _ => question (.found _)

theorem pushDeclaration (i : ScopeId) (name : String) (init : Option NodeId) :
    Tidying (i.pushDeclaration name init) := by
  refine (question (.functionScope i)).bind fun target => (question (.scopeData target)).bind fun d => ?_
  refine (declarationHost d.block).bind fun host => (question (.node? host)).bind fun o => ?_
  cases o with
  | none => exact refuse _
  | some body =>
    refine (sharedDeclaration host body).bind fun declaration => (onTree _).bind fun id => ?_
    refine (onTree _).bind fun declarator => (pushInto declaration _ _).bind fun inserted => ?_
    refine (question (.found _)).bind fun path => ?_
    exact (of_quiet (Charting.registerBinding target name _ path id).quiet).bind fun _ => pure _

theorem generateDeclaredUid (i : ScopeId) (text : String) :
    Tidying (i.generateDeclaredUid text) :=
  (of_quiet (Charting.generateUid i text).quiet).bind fun uid =>
    (pushDeclaration i uid none).bind fun _ => pure _

end Tidying

/-! ## Replacement -/

namespace PathId

variable (p : PathId)

theorem putNode_tidying (old : Option NodeId) (new : NodeId) :
    TidyingFrom (fun s => s.Live p) (p.putNode old new) := by
  have hrest : TidyingFrom (fun s => s.Live p) (do
      p.setNode new
      recordMutation
      if ← scopesCrawled then
        if (← ask fun t => t.type? new).isDeclaration then p.registerDeclaration
      p.requeue) := by
    refine TidyingFrom.bind (Q := fun _ => True) (.of_quietFrom (setNode_quiet p new)) (fun _ => ?_)
      fun _ _ _ _ => trivial
    refine .of_quiet (Quiet.recordMutation.bind fun _ => ?_)
    refine Quiet.bind (.question .scopesCrawled) fun _ => ?_
    split
    · refine Quiet.bind (.question (.ask _)) fun _ => ?_
      split
      · exact (Charting.registerDeclaration p).quiet.bind fun _ => .requeue p
      · exact .requeue p
    · exact .requeue p
  cases old with
  | none => exact hrest
  | some old => exact .bind_live (.onTree _) fun _ => .bind_live (.onTree _) fun _ => hrest

theorem dropUnusedValue_quiet (expression : NodeId) : Quiet (p.dropUnusedValue expression) := by
  refine (Quiet.question (.parentType? p)).bind fun _ => .ite (.pure _) ?_
  refine (Quiet.question (.isCompletionRecord p false)).bind fun _ => .ite (.pure _) ?_
  refine (Quiet.question (.ask _)).bind fun kind => ?_
  split
  · refine (Quiet.question (.ask _)).bind fun _ => .ite ?_ (.pure _)
    exact (Quiet.modifyKind _ _).bind fun _ => .pure _
  · exact .pure _

end PathId

namespace Tidying

/-- Replacing a node, when statements can be put in the place of an expression. -/
theorem replaceUsing {byStatements : PathId → List NodeId → SessionM PathId}
    (hby : ∀ p l, Tidying (byStatements p l)) (p : PathId) (new : NodeId) :
    Tidying (p.replaceUsing byStatements new) := by
  refine (question (.isRemoved p)).bind fun _ => ite (refuse _) ((resync p).bind fun _ => ?_)
  refine isRemoved_bind p (refuse _) (.bind_live (.question (.node? p)) fun old => ?_)
  refine .ite (.of_quiet (.pure _)) (.bind_live (.question (.ask _)) fun type => ?_)
  refine .bind_live (.question (.type? p)) fun o => ?_
  cases o with
  | none => exact PathId.putNode_tidying p old new
  | some current =>
    refine .ite (.of_quiet (.throw _)) (.bind_live (.question (.isForHead p)) fun v => ?_)
    have hrest : ∀ flexible : Bool, TidyingFrom (fun s => s.Live p) (do
        if current.isExpression && type.isStatement && !flexible then
          let _ ← byStatements p [new]
        else if current.isStatement && type.isExpression && !flexible
            && (← p.parentType?) != some .exportDefaultDeclaration then
          p.putNode old (← SessionM.onTree (TreeM.alloc (.expressionStatement new)))
        else p.putNode old new) := by
      intro flexible
      refine .ite (.of_tidying ((hby p [new]).bind fun _ => pure _)) ?_
      refine .bind_live (.question (.parentType? p)) fun _ => .ite ?_ ?_
      · exact .bind_live (.onTree _) fun statement => PathId.putNode_tidying p old statement
      · exact PathId.putNode_tidying p old new
    cases v with
    | true => exact hrest true
    | false => exact .bind_live (.question (.canSwapBody p new)) hrest

theorem replaceWithMultiple (p : PathId) (nodes : List NodeId) :
    Tidying (p.replaceWithMultiple nodes) := by
  refine (question (.isRemoved p)).bind fun _ => ite (refuse _) ((resync p).bind fun _ => ?_)
  split
  · next first last _ _ =>
    intro s hs
    cases hd : s.paths[p.index]? with
    | none =>
      rw [after_of_error (bind_of_error (p.data_unknown hd))]
      exact .refl hs
    | some d =>
      rw [after_bind_of_ok (p.data_run hd)]
      cases d.node with
      | none => exact .refl hs
      | some old =>
        dsimp only
        split
        · next f i parent hf hi hparent =>
          -- A path in a list has a position.
          have hplaced : s.Placed p := by
            refine ⟨d, hd, fun hc => ?_⟩
            simp [PathData.listField?, hc] at hf
          have hend : ∀ paths : List PathId, TidyingFrom (fun s => s.Placed p) (do
              Espalier.unregister old
              p.detach
              p.markRemoved
              Pure.pure paths) := fun paths =>
            TidyingFrom.bind_placed (.of_quiet (.unregister old)) fun _ =>
              TidyingFrom.bind_placed (.of_quiet (.detach p)) fun _ =>
                (PathId.markRemoved_tidying p).bind_placed fun _ => .of_quiet (.pure _)
          refine TidyingFrom.bind_placed (.of_quiet (.onTree _)) (fun _ => ?_) s hs hplaced
          refine TidyingFrom.bind_placed (.of_quiet (.onTree _)) fun _ => ?_
          refine TidyingFrom.bind_placed (.of_quiet (.onTree _)) fun _ => ?_
          exact TidyingFrom.bind_placed (.of_quiet (.insertAt parent f _ nodes)) hend
        · exact .refl hs
  · exact refuse _

theorem loopBelow? (p : PathId) (wrapper : Option NodeId) : Tidying (p.loopBelow? wrapper) := by
  refine (question (.parent? p)).bind fun _ => ?_
  refine (question (.climb (fun q => (Composed.node? q).bind fun _ => .ite (.pure _) ?_) _)).bind
    fun _ => pure _
  exact (Composed.isAny q _).bind fun _ => .ite (.pure _) (.pure _)

theorem scope (p : PathId) : Tidying p.scope := of_quiet (Charting.scope p).quiet

theorem resultVariable (callee loop : PathId) : Tidying (PathId.resultVariable callee loop) := by
  refine (question (.note? loop _)).bind fun o => ?_
  split
  · exact pure _
  · refine (scope callee).bind fun i => (generateDeclaredUid i _).bind fun uid => ?_
    refine (child callee .body).bind fun body => (onTree _).bind fun _ => (onTree _).bind fun ret => ?_
    refine (pushInto body _ _).bind fun _ => ?_
    exact (of_quiet (.setNote loop _ _)).bind fun _ => pure _

section Nested

variable {replace : PathId → NodeId → SessionM Unit} (hreplace : ∀ p n, Tidying (replace p n))

theorem hoistDeclarators (i : ScopeId) (declarators : List NodeId) :
    Tidying (PathId.hoistDeclarators i declarators) := by
  induction declarators with
  | nil => exact pure _
  | cons declarator declarators ih =>
    refine (question (.ask _)).bind fun kind => ?_
    split
    · next id init =>
      refine (question (.askBelow _ _)).bind fun names => ?_
      refine bind (forM _ fun name => (pushDeclaration i name none).bind fun _ => pure _) fun _ => ?_
      cases init with
      | none => exact (pure _).bind fun _ => ih.bind fun _ => pure _
      | some init =>
        refine bind ?_ fun _ => ih.bind fun _ => pure _
        rw [Option.mapM_some, map_eq_pure_bind]
        exact (onTree _).bind fun _ => pure _
    · exact ih

include hreplace

theorem replaceForHead (p : PathId) (target : Option NodeId) (assignments : List NodeId) :
    Tidying (p.replaceForHead replace target assignments) := by
  refine (question (.data p)).bind fun d => ite ?_ ?_
  · cases target with
    | none => exact pure _
    | some id => exact hreplace p id
  · split
    · exact removeUsing hreplace p
    · exact hreplace p _
    · exact (onTree _).bind fun _ => hreplace p _

theorem replaceByStatements (p : PathId) (assignments : List NodeId) :
    Tidying (p.replaceByStatements replace assignments) := by
  refine (mapM _ fun a => onTree _).bind fun statements => (question (.inList p)).bind fun _ => ?_
  refine ite (ite (removeUsing hreplace p) ((replaceWithMultiple p statements).bind fun _ => pure _)) ?_
  split
  · exact (onTree _).bind fun _ => hreplace p _
  · exact hreplace p _
  · exact (onTree _).bind fun _ => hreplace p _

theorem hoistDeclaration (i : ScopeId) (p : PathId) :
    Tidying (PathId.hoistDeclaration replace i p) := by
  refine (question (.kind? p)).bind fun k => ?_
  split
  · refine (hoistDeclarators i _).bind fun r => (question (.isForHead p)).bind fun _ => ?_
    exact ite (replaceForHead hreplace p _ _) (replaceByStatements hreplace p _)
  · exact pure _

theorem hoistVariables (function : PathId) (i : ScopeId) :
    Tidying (function.hoistVariables replace i) := by
  refine (runOn (Patrolling.traverseNode ?_ function) ()).bind fun _ => pure _
  intro phase selector h hh p
  simp only [Visitor.on, Visitor.empty, List.nil_append, List.cons_append, List.mem_cons,
    List.not_mem_nil, or_false, Prod.mk.injEq] at hh
  rcases hh with ⟨-, -, rfl⟩ | ⟨-, -, rfl⟩
  · exact .lift (of_quiet (.skip p))
  · exact .lift (hoistDeclaration hreplace i p)

theorem returnRecord (callee p : PathId) : Tidying (PathId.returnRecord replace callee p) := by
  refine (question (.kind? p)).bind fun k => ?_
  split
  · refine (question (.node? callee)).bind fun _ => (loopBelow? p _).bind fun o => ?_
    cases o with
    | none => exact (onTree _).bind fun _ => hreplace p _
    | some loop =>
      refine (resultVariable callee loop).bind fun uid => (onTree _).bind fun _ => ?_
      exact (onTree _).bind fun _ => (child p .expression).bind fun q => hreplace q _
  · exact pure _

theorem wrapInFunction (p : PathId) (i : ScopeId) (statements : List NodeId) :
    Tidying (p.wrapInFunction replace i statements) := by
  refine (onTree _).bind fun body => (onTree _).bind fun function => (onTree _).bind fun call => ?_
  refine (hreplace p call).bind fun _ => (child p .callee).bind fun callee => ?_
  refine (hoistVariables hreplace callee i).bind fun _ => ?_
  refine (of_quiet (Navigating.completionRecords callee).quiet).bind fun records => ?_
  exact forM _ fun q => returnRecord hreplace callee q

theorem replaceByStatementsUsing (p : PathId) (statements : List NodeId) :
    Tidying (p.replaceByStatementsUsing replace statements) := by
  refine ite (refuse _) ((question (.isRemoved p)).bind fun _ => ite (refuse _) ?_)
  refine (resync p).bind fun _ => (scope p).bind fun i => (buildBelow _ _).bind fun o => ?_
  cases o with
  | none => exact (wrapInFunction hreplace p i statements).bind fun _ => pure _
  | some reduced =>
    refine bind (forM _ fun name => (pushDeclaration i name none).bind fun _ => pure _) fun _ => ?_
    exact (of_quiet (PathId.dropUnusedValue_quiet p _)).bind fun _ => (hreplace p _).bind fun _ => pure _

end Nested

/-! ### Tying the knot -/

theorem replaceWithin (fuel : Nat) (p : PathId) (new : NodeId) :
    Tidying (PathId.replaceWithin fuel p new) := by
  induction fuel generalizing p new with
  | zero => exact throw _
  | succ fuel ih => exact replaceUsing (fun p l => replaceByStatementsUsing ih p l) p new

theorem replaceFuel : Tidying PathId.replaceFuel := get.bind fun _ => pure _

theorem replaceNode (p : PathId) (new : NodeId) : Tidying (p.replaceNode new) :=
  replaceFuel.bind fun _ => replaceWithin _ p new

theorem remove (p : PathId) : Tidying p.remove :=
  replaceFuel.bind fun _ => removeUsing (fun q n => replaceWithin _ q n) p

theorem replaceExpressionWithStatements (p : PathId) (statements : List NodeId) :
    Tidying (p.replaceExpressionWithStatements statements) :=
  replaceFuel.bind fun _ => replaceByStatementsUsing (fun q n => replaceWithin _ q n) p statements

theorem replaceWith (p : PathId) (offer : Replacement) : Tidying (p.replaceWith offer) := by
  cases offer with
  | node id => exact replaceNode p id
  | path other =>
    refine (question (.node? other)).bind fun o => ?_
    cases o with
    | none => exact refuse _
    | some id => exact replaceNode p id
  | nodes ids => exact refuse _
  | source text => exact refuse _
  | nothing => exact refuse _

theorem replaceInline (p : PathId) (nodes : List NodeId) : Tidying (p.replaceInline nodes) := by
  refine (question (.inList p)).bind fun _ => ite (replaceWithMultiple p nodes) ?_
  split
  · exact refuse _
  · exact (replaceNode p _).bind fun _ => pure _
  · refine (question (.isAny p _)).bind fun _ => ite ?_ ?_
    · exact (replaceExpressionWithStatements p nodes).bind fun _ => pure _
    · refine (question (.isStatementOrBlock p)).bind fun _ => ite ?_ (refuse _)
      refine (onTree _).bind fun _ => (replaceNode p _).bind fun _ => ?_
      exact of_quiet (Navigating.elements p .body).quiet

theorem replaceWithSource (p : PathId) (text : String) : Tidying (p.replaceWithSource text) := by
  refine get.bind fun s => ?_
  split
  · exact refuse _
  · refine (onTree _).bind fun r => ?_
    cases r with
    | ok id => exact replaceNode p id
    | error e => exact refuse _

end Tidying

end Espalier
