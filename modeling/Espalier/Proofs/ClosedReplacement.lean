import Espalier.Edit.Replace
import Espalier.Proofs.ClosedDeclaring
import Espalier.Proofs.ClosedWalks
import Espalier.Proofs.Copies
import Espalier.Proofs.Material

set_option autoImplicit false

/-! # Replacement within range

Removals and replacements of known nodes leave a closed session, at whatever known path they are
made (`Careful.replaceNode`, `Careful.remove`). The two need each other; so the parts are shown
against a replacement that is within range, and tied together by how deep replacements can be inside
each other. -/

namespace Espalier

open SessionM

variable {α : Type} {s : Session}

/-! ## Building from subtrees -/

namespace Careful

/-- Building from everything at and below known nodes, which succeeds where the ways down end. -/
theorem buildBelow [Names α] {ids : List NodeId} {build : TreeM α} (hids : s.Knows ids)
    (htotal : s.Closed → (∀ n ∈ ids, s.tree.DepthWithin s.tree.size n) →
      ∃ r, build.run s.tree = some r)
    (hstays : s.Closed → ∀ a t', build.run s.tree = some (a, t') →
      s.tree.size ≤ t'.size ∧ t'.Closed ∧ Session.Knows { s with tree := t' } a) :
    Careful (buildBelow ids build) s := by
  refine get_bind fun hs => ?_
  cases hrun : build.run s.tree with
  | some r =>
    obtain ⟨a, t'⟩ := r
    exact onTree fun _ => ⟨a, t', hrun, hstays hs a t' hrun⟩
  | none =>
    have hfailure := hs.failureBelow_eq hids fun hall => by
      obtain ⟨r, hr⟩ := htotal hs hall
      rw [hrun] at hr
      cases hr
    dsimp only
    rw [hfailure]
    exact exhausted

theorem deepClone {n : NodeId} (hn : s.Knows n) :
    Careful (SessionM.buildBelow [n] (TreeM.deepClone n)) s := by
  refine buildBelow (Session.knows_cons.mpr ⟨hn, Session.knows_nil⟩) (fun _ hall => ?_)
    fun hs a t' hrun => ?_
  · have hdepth := hall n (List.mem_singleton_self n)
    obtain ⟨u, hu⟩ := (hdepth.mono (Nat.le_add_right s.tree.size 2)).exists_unfolding
    obtain ⟨c, t', hrun, -⟩ := CopiesTo.copyWithin _ s.tree n u hu
    exact ⟨_, hrun⟩
  · obtain ⟨ht', hsize, ha⟩ := TreeM.Stays.deepClone n hs.tree a t' hrun
    exact ⟨hsize, ht', ha⟩


end Careful

/-- The nodes of a closed tree are a stock. -/
def Tree.arenaStock : Tree.Stock where
  Good := Tree.Closed
  Has t n := n.index < t.size
  grown hg hn := Nat.lt_of_lt_of_le hn hg.size
  child hgood _ hk _ := hgood.children _ _ hk
  push hgood hk := ⟨hgood.push hk, by simp⟩

instance : Names Reduced := ⟨fun s r => s.Knows r.expression, fun h hr => h.knows hr⟩

theorem Careful.reduceStatements {nodes : List NodeId} (hnodes : s.Knows nodes) :
    Careful (SessionM.buildBelow nodes (reduceStatements nodes)) s := by
  refine buildBelow hnodes (fun _ hall => ?_) fun hs o t' hrun => ?_
  · obtain ⟨o, t', hrun, -⟩ := settles_reduceWithin
      (by unfold Tree.depthBound; omega : s.tree.size < s.tree.depthBound) (Nat.le_refl _) nodes
      s.tree (.refl s.tree) hall
    exact ⟨(o, t'), (TreeM.run_get_bind (fun t => (reduceWithin t.depthBound nodes).run) s.tree).trans hrun⟩
  · obtain ⟨hg, ht', ho⟩ := Tree.arenaStock.reduceStatements hs.tree hnodes hrun
    exact ⟨hg.size, ht', ho⟩

/-! ## Removal -/

section Nested

variable {replace : PathId → NodeId → SessionM Unit}
  (hreplace : ∀ (s : Session) p n, s.Knows p → s.Knows n → Careful (replace p n) s)

namespace Careful

section Removal

variable {p : PathId} (hp : s.Knows p)

include hp

theorem carriesParent (type : NodeType) : Reads (p.carriesParent type) s := by
  refine (Reads.data hp).bind fun d hd => .ite (fun _ => .pure trivial) fun _ =>
    .ite (fun _ => ?_) fun _ => .pure trivial
  split
  · next owner howner =>
    exact (Reads.listLength (hd.2.2 owner howner) _).bind fun _ _ => .pure trivial
  · exact .pure trivial

theorem otherOperand? {parent : PathId} (hparent : s.Knows parent) (type : NodeType) :
    Careful (p.otherOperand? parent type) s := by
  refine (Reads.data hp).andThen fun d hd => ite (fun _ => ?_) fun _ => ite (fun _ => ?_) fun _ =>
    pure Session.knows_none
  · split
    · next owner i howner _ =>
      refine (Reads.listLength (hd.2.2 owner howner) _).andThen fun _ _ => ite (fun _ => ?_) fun _ =>
        pure Session.knows_none
      exact (element hparent _ _).bind fun q _ _ hq => (Reads.node? hq).careful
    · exact pure Session.knows_none
  · exact (child hparent _).bind fun q _ _ hq => (Reads.node? hq).careful

include hreplace

theorem adjustParent {parent : PathId} (hparent : s.Knows parent) (type : NodeType)
    {removeParent : SessionM Unit} (hremove : Careful removeParent s) :
    Careful (p.adjustParent replace parent type removeParent) s := by
  refine (carriesParent hp type).andThen fun _ _ => ite (fun _ => ?_) fun _ => ?_
  · exact hremove.bind fun _ _ _ _ => pure trivial
  · refine (otherOperand? hp hparent type).bind fun o s₁ h₁ ho => ?_
    cases o with
    | some other =>
      exact (hreplace s₁ parent other (h₁.knows hparent) (Session.knows_some.mp ho)).bind
        fun _ _ _ _ => pure trivial
    | none =>
      refine (Reads.data (h₁.knows hp)).andThen fun _ _ => ite (fun _ => ?_) fun _ => pure trivial
      exact (block Session.knows_nil).bind fun b _ h₂ hb => (setNode ((h₁.trans h₂).knows hp) hb).bind
        fun _ _ _ _ => pure trivial

omit hp in
theorem removeWithin (fuel : Nat) {p : PathId} (hp : s.Knows p) :
    Careful (removeWithin replace fuel p) s := by
  induction fuel generalizing p s with
  | zero => exact exhausted
  | succ fuel ih =>
    refine (Reads.isRemoved hp).andThen fun _ _ => ite (fun _ => refuse _) fun _ => ?_
    refine (resync hp).bind fun _ s₁ h₁ _ => (Reads.node? (h₁.knows hp)).andThen fun o ho => ?_
    split
    · exact refuse _
    · next n =>
      refine (unregister (Session.knows_some.mp ho)).bind fun _ s₂ h₂ _ => ?_
      have hp₂ := (h₁.trans h₂).knows hp
      have hrest : ∀ (adjusted : Bool) s', s₂.Extends s' → Careful (do
          if !adjusted then p.detach
          p.markRemoved
          SessionM.recordMutation) s' := by
        intro adjusted s' h
        have hgone : ∀ s', s₂.Extends s' → Careful (do
            p.markRemoved
            SessionM.recordMutation) s' := fun s' h =>
          (markRemoved (h.knows hp₂)).bind fun _ _ _ _ => recordMutation
        cases adjusted with
        | true => exact hgone s' h
        | false => exact (detach (h.knows hp₂)).bind fun _ s'' h' _ => hgone s'' (h.trans h')
      refine (Reads.parent? hp₂).andThen fun parent? hparent => (Reads.parentType? hp₂).andThen
        fun type? _ => ?_
      cases parent? with
      | none => exact hrest false s₂ (.refl s₂)
      | some parent =>
        cases type? with
        | none => exact hrest false s₂ (.refl s₂)
        | some type =>
          have hparent := Session.knows_some.mp hparent
          exact (adjustParent hreplace hp₂ hparent type (ih hparent)).bind fun adjusted s' h _ =>
            hrest adjusted s' h

theorem removeUsing : Careful (p.removeUsing replace) s :=
  get_bind fun _ => removeWithin hreplace _ hp

end Removal

end Careful

end Nested

/-! ## Replacement -/

namespace Careful

section Path

variable {p : PathId} (hp : s.Knows p)

include hp

theorem putNode {old : Option NodeId} (hold : s.Knows old) {new : NodeId} (hnew : s.Knows new) :
    Careful (p.putNode old new) s := by
  have hrest : ∀ s', s.Extends s' → Careful (do
      p.setNode new
      SessionM.recordMutation
      if ← scopesCrawled then
        if (← SessionM.ask fun t => t.type? new).isDeclaration then p.registerDeclaration
      p.requeue) s' := by
    intro s' h
    refine (setNode (h.knows hp) (h.knows hnew)).bind fun _ s₁ h₁ _ => ?_
    refine recordMutation.bind fun _ s₂ h₂ _ => Reads.scopesCrawled.andThen fun _ _ => ?_
    have h₀₂ := h.trans (h₁.trans h₂)
    refine ite (fun _ => (Reads.type (h₀₂.knows hnew)).andThen fun _ _ => ite (fun _ => ?_) fun _ => ?_)
      fun _ => requeue (h₀₂.knows hp)
    · exact (registerDeclaration (h₀₂.knows hp)).bind fun _ s₃ h₃ _ => requeue ((h₀₂.trans h₃).knows hp)
    · exact requeue (h₀₂.knows hp)
  cases old with
  | none => exact hrest s (.refl s)
  | some old =>
    have hold := Session.knows_some.mp hold
    exact (inheritComments hnew hold).bind fun _ s₁ h₁ _ =>
      (removeComments (h₁.knows hold)).bind fun _ s₂ h₂ _ => hrest s₂ (h₁.trans h₂)

theorem replaceUsing {byStatements : PathId → List NodeId → SessionM PathId}
    (hby : ∀ s p l, s.Knows p → s.Knows l → Careful (byStatements p l) s) {new : NodeId}
    (hnew : s.Knows new) : Careful (p.replaceUsing byStatements new) s := by
  refine (Reads.isRemoved hp).andThen fun _ _ => ite (fun _ => refuse _) fun _ => ?_
  refine (resync hp).bind fun _ s₁ h₁ _ => ?_
  have hp₁ := h₁.knows hp
  have hnew₁ := h₁.knows hnew
  refine (Reads.isRemoved hp₁).andThen fun _ _ => ite (fun _ => refuse _) fun _ => ?_
  refine (Reads.node? hp₁).andThen fun old hold => ite (fun _ => pure trivial) fun _ => ?_
  refine (Reads.type hnew₁).andThen fun type _ => (Reads.type? hp₁).andThen fun current? _ => ?_
  have hput : Careful (p.putNode old new) s₁ := putNode hp₁ hold hnew₁
  cases current? with
  | none => exact hput
  | some current =>
    refine ite (fun _ => refuse _) fun _ => ?_
    have hchoose : ∀ flexible : Bool, Careful (do
        if current.isExpression && type.isStatement && !flexible then
          let _ ← byStatements p [new]
        else if current.isStatement && type.isExpression && !flexible
            && (← p.parentType?) != some .exportDefaultDeclaration then
          p.putNode old (← SessionM.onTree (TreeM.alloc (.expressionStatement new)))
        else p.putNode old new) s₁ := by
      intro flexible
      refine ite (fun _ => ?_) fun _ => (Reads.parentType? hp₁).andThen fun _ _ =>
        ite (fun _ => ?_) fun _ => hput
      · exact (hby s₁ p [new] hp₁ (Session.knows_cons.mpr ⟨hnew₁, Session.knows_nil⟩)).bind
          fun _ _ _ _ => pure trivial
      · refine (alloc (k := .expressionStatement new) fun c hc => ?_).bind fun wrapped s₂ h₂ hw =>
          putNode (h₂.knows hp₁) (h₂.knows hold) hw
        obtain rfl : c = new := by simpa [NodeKind.children, NodeKind.fields, Child.ids] using hc
        exact hnew₁
    refine (Reads.isForHead hp₁).andThen fun head _ => ?_
    cases head with
    | true => exact hchoose true
    | false => exact (Reads.canSwapBody hp₁ hnew₁).andThen fun swap _ => hchoose swap

theorem replaceWithMultiple {nodes : List NodeId} (hnodes : s.Knows nodes) :
    Careful (p.replaceWithMultiple nodes) s := by
  refine (Reads.isRemoved hp).andThen fun _ _ => ite (fun _ => refuse _) fun _ => ?_
  refine (resync hp).bind fun _ s₁ h₁ _ => ?_
  have hp₁ := h₁.knows hp
  have hnodes₁ := h₁.knows hnodes
  split
  · next first last hfirst hlast =>
    have hfirst₁ : s₁.Knows first := hnodes₁ first (List.mem_of_mem_head? hfirst)
    have hlast₁ : s₁.Knows last := hnodes₁ last (List.mem_of_getLast? hlast)
    refine (Reads.data hp₁).andThen fun d hd => ?_
    split
    · exact refuse _
    · next old hold =>
      have hold₁ : s₁.Knows old := hd.1 old hold
      split
      · next f i parent _ _ hparent =>
        have hparent₁ : s₁.Knows parent := hd.2.1 parent hparent
        refine (inheritLeading hfirst₁ hold₁).bind fun _ s₂ h₂ _ => ?_
        refine (inheritTrailing (h₂.knows hlast₁) (h₂.knows hold₁)).bind fun _ s₃ h₃ _ => ?_
        have h₂₃ := h₂.trans h₃
        refine (removeComments (h₂₃.knows hold₁)).bind fun _ s₄ h₄ _ => ?_
        have h₂₄ := h₂₃.trans h₄
        refine (insertAt (h₂₄.knows hparent₁) f _ (h₂₄.knows hnodes₁)).bind fun paths s₅ h₅ hpaths => ?_
        have h₂₅ := h₂₄.trans h₅
        refine (unregister (h₂₅.knows hold₁)).bind fun _ s₆ h₆ _ => ?_
        refine (detach ((h₂₅.trans h₆).knows hp₁)).bind fun _ s₇ h₇ _ => ?_
        refine (markRemoved ((h₂₅.trans (h₆.trans h₇)).knows hp₁)).bind fun _ s₈ h₈ _ => ?_
        exact pure ((h₆.trans (h₇.trans h₈)).knows hpaths)
      · exact refuse _
  · exact refuse _

theorem dropUnusedValue {n : NodeId} (hn : s.Knows n) : Careful (p.dropUnusedValue n) s := by
  refine (Reads.parentType? hp).andThen fun _ _ => ite (fun _ => pure hn) fun _ => ?_
  refine (Reads.isCompletionRecord hp _).andThen fun _ _ => ite (fun _ => pure hn) fun _ => ?_
  refine (Reads.kind hn).andThen fun kind hkind => ?_
  split
  · next first second rest =>
    have hall : s.Knows (first :: second :: rest) :=
      Session.knows_child_list (Session.knows_kind_child hkind .expressions _ rfl) _ rfl
    obtain ⟨hfirst, htail⟩ := Session.knows_cons.mp hall
    have hlast : s.Knows ((second :: rest).getLastD second) := by
      refine htail _ ?_
      rw [List.getLastD_eq_getLast?]
      cases hl : (second :: rest).getLast? with
      | none => exact List.mem_cons_self
      | some m => exact List.mem_of_getLast? hl
    have hpure : Reads (SessionM.ask fun t => t.isPureValue? ((second :: rest).getLastD second)) s := by
      refine Reads.ask fun hs => ?_
      obtain ⟨k, hk, hknown⟩ := hs.exists_kind hlast
      have hsome : ∃ b, s.tree.isPureValue? ((second :: rest).getLastD second) = some b := by
        unfold Tree.isPureValue?
        rw [hk]
        simp only [Option.bind_eq_bind, Option.bind_some]
        split
        · exact ⟨_, rfl⟩
        · exact ⟨_, rfl⟩
        · exact ⟨_, rfl⟩
        · exact ⟨_, rfl⟩
        · exact ⟨_, rfl⟩
        · exact ⟨_, rfl⟩
        · next argument =>
          obtain ⟨k', hk', -⟩ := hs.exists_kind (hknown argument
            (by simp [NodeKind.children, NodeKind.fields, Child.ids]))
          exact ⟨_, by rw [Tree.type?_of_kind hk']; rfl⟩
        · exact ⟨_, rfl⟩
      obtain ⟨b, hb⟩ := hsome
      exact ⟨b, hb, trivial⟩
    refine hpure.andThen fun _ _ => ite (fun _ => ?_) fun _ => pure hn
    refine (modifyKind hn fun k _ _ c hc => ?_).bind fun _ s₁ h₁ _ => pure ?_
    · have hc : c ∈ first :: (second :: rest).dropLast := by
        simpa [NodeKind.children, NodeKind.fields, Child.ids] using hc
      rcases List.mem_cons.mp hc with rfl | hc
      · exact hfirst
      · exact htail c (List.mem_of_mem_dropLast hc)
    · split
      · exact h₁.knows hfirst
      · exact h₁.knows hn
  · exact pure hn

theorem loopBelow? (wrapper : Option NodeId) : Reads (p.loopBelow? wrapper) s := by
  refine (Reads.parent? hp).bind fun start hstart =>
    (Reads.climb (α := Option PathId) (fun q hq => ?_) hstart).bind fun found hfound => .pure ?_
  · refine (Reads.node? hq).bind fun _ _ => .ite (fun _ => .pure ?_) fun _ => (Reads.isAny hq _).bind
      fun _ _ => .ite (fun _ => .pure ?_) fun _ => .pure Session.knows_none
    · exact Session.knows_some.mpr Session.knows_none
    · exact Session.knows_some.mpr (Session.knows_some.mpr hq)
  · intro q hq
    exact hfound _ (Option.join_eq_some_iff.mp hq) q rfl

end Path

/-! ## Statements in the place of an expression -/

theorem resultVariable {callee loop : PathId} (hc : s.Knows callee) (hl : s.Knows loop) :
    Careful (PathId.resultVariable callee loop) s := by
  have hfresh : Careful (do
      let uid ← (← callee.scope).generateDeclaredUid "ret"
      let body ← callee.child .body
      let returned ← SessionM.onTree (TreeM.identifier uid)
      let ret ← SessionM.onTree (TreeM.alloc (.returnStatement (some returned)))
      let _ ← body.pushInto .body [ret]
      loop.setNote PathId.resultNote (.str uid)
      Pure.pure uid) s := by
    refine (scope hc).bind fun i s₁ h₁ hi => (generateDeclaredUid hi _).bind fun uid s₂ h₂ _ => ?_
    have h₁₂ := h₁.trans h₂
    refine (child (h₁₂.knows hc) .body).bind fun body s₃ h₃ hbody => ?_
    refine (identifier uid).bind fun returned s₄ h₄ hreturned => ?_
    refine (alloc (k := .returnStatement (some returned)) fun c hc => ?_).bind fun ret s₅ h₅ hret => ?_
    · obtain rfl : c = returned := by simpa [NodeKind.children, NodeKind.fields, Child.ids] using hc
      exact hreturned
    have h₁₅ := h₁₂.trans (h₃.trans (h₄.trans h₅))
    refine (pushInto ((h₄.trans h₅).knows hbody) .body
      (Session.knows_cons.mpr ⟨hret, Session.knows_nil⟩)).bind fun _ s₆ h₆ _ => ?_
    exact (setNote ((h₁₅.trans h₆).knows hl) _ _).bind fun _ _ _ _ => pure trivial
  refine (Reads.note? hl _).andThen fun o _ => ?_
  split
  · exact pure trivial
  · exact hfresh

theorem hoistDeclarators {i : ScopeId} (hi : s.Knows i) {l : List NodeId} (hl : s.Knows l) :
    Careful (PathId.hoistDeclarators i l) s := by
  induction l generalizing s with
  | nil => exact pure ⟨Session.knows_none, Session.knows_nil⟩
  | cons n l ih =>
    obtain ⟨hn, hl⟩ := Session.knows_cons.mp hl
    refine (Reads.kind hn).andThen fun kind hkind => ?_
    split
    · next id init =>
      have hid : s.Knows id := hkind id (by simp [NodeKind.children, NodeKind.fields, Child.ids])
      have hinit : ∀ m, init = some m → s.Knows m := fun m hm =>
        hkind m (by simp [NodeKind.children, NodeKind.fields, Child.ids, hm])
      refine (Reads.bindingIdentifiers? hid false).andThen fun names _ => ?_
      refine (forM (Session.knows_texts _) fun name s' h _ => (pushDeclaration (h.knows hi) name
        Session.knows_none).bind fun _ _ _ _ => pure trivial).bind fun _ s₁ h₁ _ => ?_
      have hassign : Careful (init.mapM fun init => SessionM.onTree (TreeM.assign id init)) s₁ := by
        cases init with
        | none => exact pure Session.knows_none
        | some m =>
          rw [Option.mapM_some]
          exact (assign (h₁.knows hid) (h₁.knows (hinit m rfl))).bind fun e _ _ he =>
            pure (Session.knows_some.mpr he)
      refine hassign.bind fun assignment s₂ h₂ ha => ?_
      refine (ih ((h₁.trans h₂).knows hi) ((h₁.trans h₂).knows hl)).bind fun r s₃ h₃ hr => pure ?_
      exact ⟨Session.knows_some.mpr ((h₁.trans (h₂.trans h₃)).knows hid),
        Session.knows_append.mpr ⟨Session.knows_toList (h₃.knows ha), hr.2⟩⟩
    · exact ih hi hl

section Nested

variable {replace : PathId → NodeId → SessionM Unit}
  (hreplace : ∀ (s : Session) p n, s.Knows p → s.Knows n → Careful (replace p n) s)

include hreplace

theorem replaceForHead {p : PathId} (hp : s.Knows p) {target : Option NodeId}
    (htarget : s.Knows target) {assignments : List NodeId} (ha : s.Knows assignments) :
    Careful (p.replaceForHead replace target assignments) s := by
  refine (Reads.data hp).andThen fun d _ => ite (fun _ => ?_) fun _ => ?_
  · cases target with
    | none => exact pure trivial
    | some id => exact hreplace s p id hp (Session.knows_some.mp htarget)
  · split
    · exact removeUsing hreplace hp
    · next single => exact hreplace s p single hp (Session.knows_cons.mp ha).1
    · refine (alloc (k := .sequenceExpression assignments) fun c hc => ha c ?_).bind fun e s₁ h₁ he =>
        hreplace s₁ p e (h₁.knows hp) he
      simpa [NodeKind.children, NodeKind.fields, Child.ids] using hc

theorem replaceByStatements {p : PathId} (hp : s.Knows p) {assignments : List NodeId}
    (ha : s.Knows assignments) : Careful (p.replaceByStatements replace assignments) s := by
  have hstatements : Careful (assignments.mapM fun a =>
      SessionM.onTree (TreeM.alloc (.expressionStatement a))) s :=
    mapM ha fun a s' _ hk => alloc fun c hc => by
      obtain rfl : c = a := by simpa [NodeKind.children, NodeKind.fields, Child.ids] using hc
      exact hk
  refine hstatements.bind fun statements s₁ h₁ hst => ?_
  have hp₁ := h₁.knows hp
  refine (Reads.inList hp₁).andThen fun _ _ => ite (fun _ => ?_) fun _ => ?_
  · refine ite (fun _ => removeUsing hreplace hp₁) fun _ => ?_
    exact (replaceWithMultiple hp₁ hst).bind fun _ _ _ _ => pure trivial
  · split
    · refine (alloc (k := .emptyStatement) fun c hc => ?_).bind fun e s₂ h₂ he =>
        hreplace s₂ p e (h₂.knows hp₁) he
      simp [NodeKind.children, NodeKind.fields] at hc
    · next single => exact hreplace s₁ p single hp₁ (Session.knows_cons.mp hst).1
    · exact (block hst).bind fun b s₂ h₂ hb => hreplace s₂ p b (h₂.knows hp₁) hb

theorem hoistDeclaration {i : ScopeId} (hi : s.Knows i) {p : PathId} (hp : s.Knows p) :
    Careful (PathId.hoistDeclaration replace i p) s := by
  refine (Reads.kind? hp).andThen fun kind hkind => ?_
  split
  · next declarations =>
    have hall : s.Knows declarations :=
      Session.knows_child_list (Session.knows_kind_child (Session.knows_some.mp hkind) .declarations _ rfl)
        _ rfl
    refine (hoistDeclarators hi hall).bind fun r s₁ h₁ hr => ?_
    have hp₁ := h₁.knows hp
    exact (Reads.isForHead hp₁).andThen fun _ _ => ite (fun _ => replaceForHead hreplace hp₁ hr.1 hr.2)
      fun _ => replaceByStatements hreplace hp₁ hr.2
  · exact pure trivial

theorem hoistVariables {function : PathId} (hf : s.Knows function) {i : ScopeId} (hi : s.Knows i) :
    Careful (PathId.hoistVariables replace function i) s := by
  let v : Visitor Unit := Visitor.empty
    |>.on .enter (.category .function) (fun p => p.skip)
    |>.on .enter (.type .variableDeclaration) (fun p => PathId.hoistDeclaration replace i p)
  -- The scope is there as long as no handler forgets scopes.
  have hv : Heedful.Handles s.scopes.scopes.size s v := by
    intro phase selector h hh w p hw hp
    have hi' : w.session.Knows i := Nat.lt_of_lt_of_le hi (hw.scopes (Nat.le_refl _))
    simp only [v, Visitor.on, Visitor.empty, List.nil_append, List.cons_append, List.mem_cons,
      Prod.mk.injEq, List.not_mem_nil, or_false] at hh
    rcases hh with ⟨-, -, rfl⟩ | ⟨-, -, rfl⟩
    · exact Heedful.lift (skip hp)
    · exact Heedful.lift (hoistDeclaration hreplace hi' hp)
  have hwalk : Careful ((function.traverse v).runOn ()) s :=
    runOn (Heedful.traverseNode hv (.refl _ s) hf) fun _ _ _ => ⟨trivial, trivial⟩
  exact hwalk.bind fun _ _ _ _ => pure trivial

theorem returnRecord {callee p : PathId} (hc : s.Knows callee) (hp : s.Knows p) :
    Careful (PathId.returnRecord replace callee p) s := by
  refine (Reads.kind? hp).andThen fun kind hkind => ?_
  split
  · next expression =>
    have he : s.Knows expression := (Session.knows_some.mp hkind) expression
      (by simp [NodeKind.children, NodeKind.fields, Child.ids])
    refine (Reads.node? hc).andThen fun wrapper _ => (loopBelow? hp wrapper).andThen fun o ho => ?_
    split
    · next loop =>
      refine (resultVariable hc (Session.knows_some.mp ho)).bind fun uid s₁ h₁ _ => ?_
      refine (identifier uid).bind fun target s₂ h₂ ht => ?_
      refine (assign ht ((h₁.trans h₂).knows he)).bind fun assignment s₃ h₃ ha => ?_
      refine (child ((h₁.trans (h₂.trans h₃)).knows hp) .expression).bind fun q s₄ h₄ hq => ?_
      exact hreplace s₄ q assignment hq (h₄.knows ha)
    · refine (alloc (k := .returnStatement (some expression)) fun c hc => ?_).bind fun ret s₁ h₁ hret =>
        hreplace s₁ p ret (h₁.knows hp) hret
      obtain rfl : c = expression := by simpa [NodeKind.children, NodeKind.fields, Child.ids] using hc
      exact he
  · exact pure trivial

theorem wrapInFunction {p : PathId} (hp : s.Knows p) {i : ScopeId} (hi : s.Knows i)
    {statements : List NodeId} (hst : s.Knows statements) :
    Careful (p.wrapInFunction replace i statements) s := by
  refine (block hst).bind fun body s₁ h₁ hbody => ?_
  refine (alloc (k := .functionExpression none [] body false false none)
    fun c hc => ?_).bind fun function s₂ h₂ hf => ?_
  · obtain rfl : c = body := by simpa [NodeKind.children, NodeKind.fields, Child.ids] using hc
    exact hbody
  refine (alloc (k := .callExpression function []) fun c hc => ?_).bind fun call s₃ h₃ hcall => ?_
  · obtain rfl : c = function := by simpa [NodeKind.children, NodeKind.fields, Child.ids] using hc
    exact hf
  have h₁₃ := h₁.trans (h₂.trans h₃)
  refine (hreplace s₃ p call (h₁₃.knows hp) hcall).bind fun _ s₄ h₄ _ => ?_
  have h₁₄ := h₁₃.trans h₄
  refine (child (h₁₄.knows hp) .callee).bind fun callee s₅ h₅ hcallee => ?_
  refine (hoistVariables hreplace hcallee ((h₁₄.trans h₅).knows hi)).bind fun _ s₆ h₆ _ => ?_
  refine (completionRecords (h₆.knows hcallee)).bind fun records s₇ h₇ hrecords => ?_
  exact forM hrecords fun q s₈ h₈ hq =>
    returnRecord hreplace ((h₆.trans (h₇.trans h₈)).knows hcallee) hq

theorem replaceByStatementsUsing {p : PathId} (hp : s.Knows p) {statements : List NodeId}
    (hst : s.Knows statements) : Careful (p.replaceByStatementsUsing replace statements) s := by
  refine ite (fun _ => refuse _) fun _ => (Reads.isRemoved hp).andThen fun _ _ =>
    ite (fun _ => refuse _) fun _ => (resync hp).bind fun _ s₁ h₁ _ => ?_
  refine (scope (h₁.knows hp)).bind fun i s₂ h₂ hi => ?_
  have h₁₂ := h₁.trans h₂
  refine (reduceStatements (h₁₂.knows hst)).bind fun o s₃ h₃ ho => ?_
  have h₁₃ := h₁₂.trans h₃
  cases o with
  | some reduced =>
    have hr : s₃.Knows reduced := Session.knows_some.mp ho
    refine (forM (Session.knows_texts _) fun name s' h _ => (pushDeclaration ((h₃.trans h).knows hi) name
      Session.knows_none).bind fun _ _ _ _ => pure trivial).bind fun _ s₄ h₄ _ => ?_
    have h₁₄ := h₁₃.trans h₄
    refine (dropUnusedValue (h₁₄.knows hp) (h₄.knows hr)).bind fun n s₅ h₅ hn => ?_
    exact (hreplace s₅ p n ((h₁₄.trans h₅).knows hp) hn).bind fun _ s₆ h₆ _ =>
      pure ((h₁₄.trans (h₅.trans h₆)).knows hp)
  | none =>
    exact (wrapInFunction hreplace (h₁₃.knows hp) (h₃.knows hi) (h₁₃.knows hst)).bind fun _ s₄ h₄ _ =>
      pure ((h₁₃.trans h₄).knows hp)

end Nested

/-! ## Tying the knot -/

theorem replaceWithin (fuel : Nat) {p : PathId} (hp : s.Knows p) {n : NodeId} (hn : s.Knows n) :
    Careful (PathId.replaceWithin fuel p n) s := by
  induction fuel generalizing s p n with
  | zero => exact exhausted
  | succ fuel ih =>
    exact replaceUsing hp (fun s q l hq hl => replaceByStatementsUsing (fun s r m hr hm => ih hr hm) hq hl)
      hn

section Path

variable {p : PathId} (hp : s.Knows p)

include hp

theorem replaceNode {n : NodeId} (hn : s.Knows n) : Careful (p.replaceNode n) s :=
  get_bind fun _ => replaceWithin _ hp hn

theorem remove : Careful p.remove s :=
  get_bind fun _ => removeUsing (fun _ _ _ hq hn => replaceWithin _ hq hn) hp

theorem replaceExpressionWithStatements {statements : List NodeId} (hst : s.Knows statements) :
    Careful (p.replaceExpressionWithStatements statements) s :=
  get_bind fun _ => replaceByStatementsUsing (fun _ _ _ hq hn => replaceWithin _ hq hn) hp hst

theorem replaceInline {nodes : List NodeId} (hnodes : s.Knows nodes) :
    Careful (p.replaceInline nodes) s := by
  refine (Reads.inList hp).andThen fun _ _ => ite (fun _ => replaceWithMultiple hp hnodes) fun _ => ?_
  have hself : ∀ s', s.Extends s' → s'.Knows [p] := fun s' h =>
    Session.knows_cons.mpr ⟨h.knows hp, Session.knows_nil⟩
  split
  · exact refuse _
  · next single =>
    exact (replaceNode hp (Session.knows_cons.mp hnodes).1).bind fun _ s₁ h₁ _ => pure (hself s₁ h₁)
  · refine (Reads.isAny hp _).andThen fun _ _ => ite (fun _ => ?_) fun _ => ?_
    · exact (replaceExpressionWithStatements hp hnodes).bind fun _ s₁ h₁ _ => pure (hself s₁ h₁)
    · refine (Reads.isStatementOrBlock hp).andThen fun _ _ => ite (fun _ => ?_) fun _ => refuse _
      exact (block hnodes).bind fun b s₁ h₁ hb => (replaceNode (h₁.knows hp) hb).bind fun _ s₂ h₂ _ =>
        elements ((h₁.trans h₂).knows hp) .body

/-- The installed parser is one that builds known nodes. -/
theorem replaceWithSource (text : String) : Careful (p.replaceWithSource text) s := by
  refine get_bind fun hs => ?_
  split
  · exact refuse _
  · next parser hparser =>
    intro hs
    obtain ⟨r, t', hrun, hsize, ht', hr⟩ := hs.parser parser hparser text s.tree hs.tree
    have hext : s.Extends { s with tree := t' } := Session.extends_tree hsize
    have hs' : Session.Closed { s with tree := t' } := hs.of_tree hsize ht'
    rw [bind_of_ok (onTree_run hrun)]
    have hafter : ∀ {x : SessionM Unit}, Careful x { s with tree := t' } →
        s.Ends (x { s with tree := t' }) := by
      intro x hx
      have hends := hx hs'
      cases hrun : x { s with tree := t' } with
      | ok a s'' =>
        rw [hrun] at hends
        exact ⟨hext.trans hends.1, hends.2⟩
      | error e s'' =>
        rw [hrun] at hends
        exact ⟨hext.trans hends.1, hends.2⟩
    cases r with
    | ok id => exact hafter (replaceNode (hext.knows hp) (hr id rfl))
    | error e => exact hafter (refuse _)

end Path

end Careful

end Espalier
