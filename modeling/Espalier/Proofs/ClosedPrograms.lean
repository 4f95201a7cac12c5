import Espalier.Proofs.ClosedRules
import Espalier.Proofs.Clients

set_option autoImplicit false

/-! # Programs within range

What a client is given by a session it may pass on to the session later, as long as the session
still has it: nodes and paths stay for good, scopes until they are forgotten. A `Program` does so. It
uses everything that a session offers, in any order and with any arguments; its walks have handlers
that are again programs, and so have its rules. Started on a closed tree it meets no number without a
node, a path or a scope, and leaves a closed session (`Program.within_range`). -/

namespace Espalier

open SessionM

/-! ## What a session offers -/

/-- What a call is given: nodes of the tree, paths, and scopes of the current scope table. -/
structure Supply where
  nodes : List NodeId := []
  paths : List PathId := []
  scopes : List ScopeId := []

namespace Supply

/-- The session has what is given. -/
def Known (g : Supply) (s : Session) : Prop :=
  (∀ n ∈ g.nodes, n.index < s.tree.size) ∧ (∀ p ∈ g.paths, p.index < s.paths.size) ∧
    ∀ i ∈ g.scopes, i.index < s.scopes.scopes.size

instance (g : Supply) (s : Session) : Decidable (g.Known s) :=
  inferInstanceAs (Decidable (_ ∧ _ ∧ _))

/-- One node. -/
def node (n : NodeId) : Supply := { nodes := [n] }

/-- One path. -/
def path (p : PathId) : Supply := { paths := [p] }

/-- One path, and nodes to put there or beside it. -/
def edit (p : PathId) (nodes : List NodeId) : Supply := { nodes, paths := [p] }

/-- One scope. -/
def scope (i : ScopeId) : Supply := { scopes := [i] }

end Supply

/-- What a replacement consists of. -/
def Replacement.supply : Replacement → Supply
  | .node id => { nodes := [id] }
  | .path other => { paths := [other] }
  | .nodes ids => { nodes := ids }
  | .source _ | .nothing => {}

/-- The calls that a session offers, with what they are given and what they give. -/
inductive Service : {α : Type} → [Names α] → Supply → SessionM α → Prop
  -- Positions.
  | rootPath : Service {} rootPath
  | pathFor (parent : Option PathId) (c : Container) (k : Key) :
      Service { nodes := c.parent?.toList, paths := parent.toList } (pathFor parent c k)
  | child (p : PathId) (f : Field) : Service (.path p) (p.child f)
  | element (p : PathId) (f : Field) (i : Nat) : Service (.path p) (p.element f i)
  | elements (p : PathId) (f : Field) : Service (.path p) (p.elements f)
  | inField (p : PathId) (f : Field) : Service (.path p) (p.inField f)
  | follow (p : PathId) (pattern : String) : Service (.path p) (p.follow pattern)
  | resync (p : PathId) : Service (.path p) p.resync
  -- What is known about a path.
  | data (p : PathId) : Service (.path p) p.data
  | node? (p : PathId) : Service (.path p) p.node?
  | kind? (p : PathId) : Service (.path p) p.kind?
  | type? (p : PathId) : Service (.path p) p.type?
  | is (p : PathId) (type : NodeType) : Service (.path p) (p.is type)
  | isAny (p : PathId) (test : NodeType → Bool) : Service (.path p) (p.isAny test)
  | identifierName? (p : PathId) : Service (.path p) p.identifierName?
  | parent? (p : PathId) : Service (.path p) p.parent?
  | parentNode? (p : PathId) : Service (.path p) p.parentNode?
  | parentType? (p : PathId) : Service (.path p) p.parentType?
  | container (p : PathId) : Service (.path p) p.container
  | index? (p : PathId) : Service (.path p) p.index?
  | inList (p : PathId) : Service (.path p) p.inList
  | isRemoved (p : PathId) : Service (.path p) p.isRemoved
  | note? (p : PathId) (name : String) : Service (.path p) (p.note? name)
  | setNote (p : PathId) (name : String) (value : Json) : Service (.path p) (p.setNote name value)
  -- Relatives.
  | sibling (p : PathId) (i : Nat) : Service (.path p) (p.sibling i)
  | prevSibling (p : PathId) : Service (.path p) p.prevSibling
  | nextSibling (p : PathId) : Service (.path p) p.nextSibling
  | prevSiblings (p : PathId) : Service (.path p) p.prevSiblings
  | nextSiblings (p : PathId) : Service (.path p) p.nextSiblings
  | opposite? (p : PathId) : Service (.path p) p.opposite?
  | find? (p : PathId) (test : PathId → SessionM Bool) :
      (∀ s q, s.Knows q → Reads (test q) s) → Service (.path p) (p.find? test)
  | findParent? (p : PathId) (test : PathId → SessionM Bool) :
      (∀ s q, s.Knows q → Reads (test q) s) → Service (.path p) (p.findParent? test)
  | ancestry (p : PathId) : Service (.path p) p.ancestry
  | functionParent? (p : PathId) : Service (.path p) p.functionParent?
  | programParent? (p : PathId) : Service (.path p) p.programParent?
  | isDescendant (p q : PathId) : Service { paths := [p, q] } (p.isDescendant q)
  | isAncestor (p q : PathId) : Service { paths := [p, q] } (p.isAncestor q)
  | statementParent (p : PathId) : Service (.path p) p.statementParent
  | completionRecords (p : PathId) : Service (.path p) p.completionRecords
  | bindingIdentifierPaths (p : PathId) (keepAll outerOnly : Bool) :
      Service (.path p) (p.bindingIdentifierPaths keepAll outerOnly)
  | bindingIdentifiers (p : PathId) (keepAll : Bool) :
      Service (.path p) (p.bindingIdentifiers keepAll)
  -- What a position allows.
  | isReferenced (p : PathId) : Service (.path p) p.isReferenced
  | isReferencedIdentifier (p : PathId) : Service (.path p) p.isReferencedIdentifier
  | has (p : PathId) (f : Field) : Service (.path p) (p.has f)
  | sourceText (p : PathId) : Service (.path p) p.sourceText
  | isStatementOrBlock (p : PathId) : Service (.path p) p.isStatementOrBlock
  | isForHead (p : PathId) : Service (.path p) p.isForHead
  | canSwapBody (p : PathId) (n : NodeId) : Service (.edit p [n]) (p.canSwapBody n)
  | isCompletionRecord (p : PathId) (insideFunction : Bool) :
      Service (.path p) (p.isCompletionRecord insideFunction)
  | matchesPattern (p : PathId) (pattern : String) (allowPartial : Bool) :
      Service (.path p) (p.matchesPattern pattern allowPartial)
  -- Analysis.
  | resolve (p : PathId) (dangerous : Bool) : Service (.path p) (p.resolve dangerous)
  | referencesImport (p : PathId) (source : String) (name : Option String) :
      Service (.path p) (p.referencesImport source name)
  | executionStatus (p q : PathId) : Service { paths := [p, q] } (p.executionStatus q)
  | executesBefore (p q : PathId) : Service { paths := [p, q] } (p.executesBefore q)
  | mayExecuteBefore (p q : PathId) : Service { paths := [p, q] } (p.mayExecuteBefore q)
  | valueType (p : PathId) : Service (.path p) p.valueType
  | inferType? (p : PathId) : Service (.path p) p.inferType?
  | isBaseType (p : PathId) (name : String) (soft : Bool) : Service (.path p) (p.isBaseType name soft)
  | couldBeBaseType (p : PathId) (name : String) : Service (.path p) (p.couldBeBaseType name)
  | sameBaseType (p q : PathId) : Service { paths := [p, q] } (p.sameBaseType q)
  | isGenericType (p : PathId) (name : String) : Service (.path p) (p.isGenericType name)
  -- Scopes.
  | ensureScopes : Service {} ensureScopes
  | scopeIds : Service {} scopeIds
  | scope (p : PathId) : Service (.path p) p.scope
  | isScopeBlock (p : PathId) : Service (.path p) p.isScopeBlock
  | binding? (p : PathId) : Service (.path p) p.binding?
  | registerDeclaration (p : PathId) : Service (.path p) p.registerDeclaration
  | scopeData (i : ScopeId) : Service (.scope i) i.data
  | programScope (i : ScopeId) : Service (.scope i) i.programScope
  | functionScope (i : ScopeId) : Service (.scope i) i.functionScope
  | ownBinding? (i : ScopeId) (name : String) : Service (.scope i) (i.ownBinding? name)
  | bindingScope? (i : ScopeId) (name : String) : Service (.scope i) (i.bindingScope? name)
  | bindingOf? (i : ScopeId) (name : String) : Service (.scope i) (i.binding? name)
  | hasBinding (i : ScopeId) (name : String) : Service (.scope i) (i.hasBinding name)
  | hasGlobal (i : ScopeId) (name : String) : Service (.scope i) (i.hasGlobal name)
  | hasReference (i : ScopeId) (name : String) : Service (.scope i) (i.hasReference name)
  | removeBinding (i : ScopeId) (name : String) : Service (.scope i) (i.removeBinding name)
  | generateUid (i : ScopeId) (text : String) : Service (.scope i) (i.generateUid text)
  | generateDeclaredUid (i : ScopeId) (text : String) :
      Service (.scope i) (i.generateDeclaredUid text)
  | pushDeclaration (i : ScopeId) (name : String) (init : Option NodeId) :
      Service { nodes := init.toList, scopes := [i] } (i.pushDeclaration name init)
  -- Edits.
  | replaceWith (p : PathId) (offer : Replacement) :
      Service { offer.supply with paths := p :: offer.supply.paths } (p.replaceWith offer)
  | replaceWithMultiple (p : PathId) (nodes : List NodeId) :
      Service (.edit p nodes) (p.replaceWithMultiple nodes)
  | replaceInline (p : PathId) (nodes : List NodeId) :
      Service (.edit p nodes) (p.replaceInline nodes)
  | replaceExpressionWithStatements (p : PathId) (statements : List NodeId) :
      Service (.edit p statements) (p.replaceExpressionWithStatements statements)
  | replaceWithSource (p : PathId) (text : String) : Service (.path p) (p.replaceWithSource text)
  | insertBefore (p : PathId) (nodes : List NodeId) : Service (.edit p nodes) (p.insertBefore nodes)
  | insertAfter (p : PathId) (nodes : List NodeId) : Service (.edit p nodes) (p.insertAfter nodes)
  | unshiftInto (p : PathId) (f : Field) (nodes : List NodeId) :
      Service (.edit p nodes) (p.unshiftInto f nodes)
  | pushInto (p : PathId) (f : Field) (nodes : List NodeId) :
      Service (.edit p nodes) (p.pushInto f nodes)
  | remove (p : PathId) : Service (.path p) p.remove
  | requeue (p : PathId) : Service (.path p) p.requeue
  | skip (p : PathId) : Service (.path p) p.skip
  | stop (p : PathId) : Service (.path p) p.stop
  -- The tree itself.
  | kind (n : NodeId) : Service (.node n) (ask fun t => t.kind? n)
  | alloc (k : NodeKind) : Service { nodes := k.children } (onTree (TreeM.alloc k))
  | deepClone (n : NodeId) : Service (.node n) (buildBelow [n] (TreeM.deepClone n))
  | modifyKind (n : NodeId) (nodes : List NodeId) (f : NodeKind → NodeKind) :
      (∀ k, (f k).children ⊆ nodes ++ k.children) →
      Service { nodes := n :: nodes } (modifyKind n f)
  -- The built-in rules.
  | transformByName (names : List String) : Service {} (transformByName names)

/-! ## Programs -/

namespace WalkM

variable {σ α : Type}

/-- Run a call if the session has what it is given, and go on otherwise if it has not. -/
def knowing (g : Supply) (x otherwise : WalkM σ α) : WalkM σ α := do
  if g.Known (← get).session then x else otherwise

end WalkM

/-- Programs that use a session by its calls, by walks and by rules. They may give back whatever they
were given, after a look whether the session still has it. That a number was out of range is not a
failure that they recover from. -/
inductive Program : {σ α : Type} → WalkM σ α → Prop
  | pure {σ α : Type} (a : α) : Program (pure a : WalkM σ α)
  | throw {σ α : Type} (e : Failure) : e ≠ .dangling → Program (throw e : WalkM σ α)
  | get {σ : Type} : Program (get : WalkM σ (Walk σ))
  | own {σ : Type} (f : σ → σ) : Program (modify fun w => { w with own := f w.own } : WalkM σ PUnit)
  | bind {σ α β : Type} {x : WalkM σ α} {f : α → WalkM σ β} :
      Program x → (∀ a, Program (f a)) → Program (x >>= f)
  | recover {σ α : Type} {x : WalkM σ α} {f : Failure → WalkM σ α} :
      Program x → (∀ e, e ≠ .dangling → Program (f e)) → Program (tryCatch x f)
  | call {σ α : Type} [Names α] {g : Supply} {x : SessionM α} {otherwise : WalkM σ α} :
      Service g x → Program otherwise → Program (WalkM.knowing g (WalkM.onSession x) otherwise)
  | clear {σ : Type} : Program (WalkM.onSession (modify Session.clear) : WalkM σ PUnit)
  | clearPaths {σ : Type} : Program (WalkM.onSession (modify Session.clearPaths) : WalkM σ PUnit)
  | clearScopes {σ : Type} : Program (WalkM.onSession (modify Session.clearScopes) : WalkM σ PUnit)
  | crawl {σ : Type} : Program (WalkM.onSession crawl : WalkM σ (Option ScopeId))
  | setParser {σ : Type} (parser : Option ExpressionParser) :
      (∀ p, parser = some p → p.Closed) →
      Program (WalkM.onSession (modify fun s => { s with parser }) : WalkM σ PUnit)
  | traverse {σ : Type} (v : Visitor σ) :
      (∀ phase selector h, (phase, selector, h) ∈ v.entries → ∀ p, Program (h p)) →
      Program (traverse v)
  | traverseNode {σ : Type} (v : Visitor σ) (p : PathId) {otherwise : WalkM σ Traversal} :
      (∀ phase selector h, (phase, selector, h) ∈ v.entries → ∀ p, Program (h p)) →
      Program otherwise → Program (WalkM.knowing (.path p) (p.traverse v) otherwise)
  /-- The rules of a transformer make visitors whose handlers are programs. -/
  | transform {σ : Type} (t : Transformer σ) :
      (∀ r ∈ t.rules, Program r.visitor) →
      (∀ r ∈ t.rules, ∀ w v w', r.visitor w = .ok v w' →
        ∀ phase selector h, (phase, selector, h) ∈ v.entries → ∀ p, Program (h p)) →
      Program t.run
  /-- A program with a value of its own, run inside another one. -/
  | inside {σ τ α : Type} {x : WalkM τ α} (own : τ) :
      Program x → Program (WalkM.onSession (x.runOn own) : WalkM σ (α × τ))

/-! ## Within range -/

section Service

variable {s : Session}

theorem Supply.Known.node {n : NodeId} (h : (Supply.node n).Known s) : s.Knows n :=
  h.1 n (List.mem_singleton_self n)

theorem Supply.Known.path {p : PathId} (h : (Supply.path p).Known s) : s.Knows p :=
  h.2.1 p (List.mem_singleton_self p)

theorem Supply.Known.scope {i : ScopeId} (h : (Supply.scope i).Known s) : s.Knows i :=
  h.2.2 i (List.mem_singleton_self i)

theorem Supply.Known.editPath {p : PathId} {nodes : List NodeId} (h : (Supply.edit p nodes).Known s) :
    s.Knows p := h.2.1 p (List.mem_singleton_self p)

theorem Supply.Known.editNodes {p : PathId} {nodes : List NodeId} (h : (Supply.edit p nodes).Known s) :
    s.Knows nodes := h.1

/-- Both of two given paths are known. -/
theorem Supply.Known.pair {p q : PathId} (h : Supply.Known { paths := [p, q] } s) :
    s.Knows p ∧ s.Knows q :=
  ⟨h.2.1 p List.mem_cons_self, h.2.1 q (List.mem_cons_of_mem _ (List.mem_singleton_self q))⟩

theorem Careful.replaceWith {p : PathId} (hp : s.Knows p) {offer : Replacement}
    (h : offer.supply.Known s) : Careful (p.replaceWith offer) s := by
  cases offer with
  | node id => exact replaceNode hp (Supply.Known.node h)
  | path other =>
    refine (Reads.node? (Supply.Known.path h)).andThen fun o ho => ?_
    cases o with
    | none => exact refuse _
    | some id => exact replaceNode hp (Session.knows_some.mp ho)
  | nodes | source | nothing => exact refuse _

/-- A call that is given what the session has is within range, and gives what the session has. -/
theorem Service.careful {α : Type} [Names α] {g : Supply} {x : SessionM α} (hx : Service g x)
    (hg : g.Known s) : Careful x s := by
  cases hx with
  | rootPath => exact .rootPath
  | pathFor parent c k =>
    refine .pathFor (fun p hp => ?_) (fun n hn => ?_) k
    · exact hg.2.1 p (by simp [hp])
    · exact hg.1 n (by simp [hn])
  | child p f => exact .child hg.path f
  | element p f i => exact .element hg.path f i
  | elements p f => exact .elements hg.path f
  | inField p f => exact .inField hg.path f
  | follow p pattern => exact .follow hg.path pattern
  | resync p => exact .resync hg.path
  | data p => exact (Reads.data hg.path).careful
  | node? p => exact (Reads.node? hg.path).careful
  | kind? p => exact (Reads.kind? hg.path).careful
  | type? p => exact (Reads.type? hg.path).careful
  | is p type => exact (Reads.is hg.path type).careful
  | isAny p test => exact (Reads.isAny hg.path test).careful
  | identifierName? p => exact (Reads.identifierName? hg.path).careful
  | parent? p => exact (Reads.parent? hg.path).careful
  | parentNode? p => exact (Reads.parentNode? hg.path).careful
  | parentType? p => exact (Reads.parentType? hg.path).careful
  | container p => exact (Reads.container hg.path).careful
  | index? p => exact (Reads.index? hg.path).careful
  | inList p => exact (Reads.inList hg.path).careful
  | isRemoved p => exact (Reads.isRemoved hg.path).careful
  | note? p name => exact (Reads.note? hg.path name).careful
  | setNote p name value => exact .setNote hg.path name value
  | sibling p i => exact .sibling hg.path i
  | prevSibling p => exact .prevSibling hg.path
  | nextSibling p => exact .nextSibling hg.path
  | prevSiblings p => exact .prevSiblings hg.path
  | nextSiblings p => exact .nextSiblings hg.path
  | opposite? p => exact .opposite? hg.path
  | find? p test htest => exact (Reads.find? hg.path (htest s)).careful
  | findParent? p test htest => exact (Reads.findParent? hg.path (htest s)).careful
  | ancestry p => exact (Reads.ancestry hg.path).careful
  | functionParent? p =>
    exact (Reads.findParent? hg.path fun _ hq => Reads.isAny hq NodeType.isFunction).careful
  | programParent? p => exact (Reads.find? hg.path fun _ hq => Reads.is hq .program).careful
  | isDescendant p q => exact (Reads.isDescendant hg.pair.1 hg.pair.2).careful
  | isAncestor p q => exact (Reads.isDescendant hg.pair.2 hg.pair.1).careful
  | statementParent p => exact (Reads.statementParent hg.path).careful
  | completionRecords p => exact .completionRecords hg.path
  | bindingIdentifierPaths p keepAll outerOnly =>
    exact .bindingIdentifierPaths keepAll outerOnly hg.path
  | bindingIdentifiers p keepAll => exact (Reads.bindingIdentifiers hg.path keepAll).careful
  | isReferenced p => exact (Reads.isReferenced hg.path).careful
  | isReferencedIdentifier p => exact (Reads.isReferencedIdentifier hg.path).careful
  | has p f => exact (Reads.has hg.path f).careful
  | sourceText p => exact (Reads.sourceText hg.path).careful
  | isStatementOrBlock p => exact (Reads.isStatementOrBlock hg.path).careful
  | isForHead p => exact (Reads.isForHead hg.path).careful
  | canSwapBody p n =>
    exact (Reads.canSwapBody hg.editPath (hg.editNodes n (List.mem_singleton_self n))).careful
  | isCompletionRecord p insideFunction =>
    exact (Reads.isCompletionRecord hg.path insideFunction).careful
  | matchesPattern p pattern allowPartial =>
    exact (Reads.matchesPattern hg.path pattern allowPartial).careful
  | resolve p dangerous => exact .resolve hg.path dangerous
  | referencesImport p source name => exact .referencesImport hg.path source name
  | executionStatus p q => exact .executionStatus hg.pair.1 hg.pair.2
  | executesBefore p q => exact .executesBefore hg.pair.1 hg.pair.2
  | mayExecuteBefore p q => exact .mayExecuteBefore hg.pair.1 hg.pair.2
  | valueType p => exact .valueType hg.path
  | inferType? p => exact .inferType? hg.path
  | isBaseType p name soft => exact .isBaseType hg.path name soft
  | couldBeBaseType p name => exact .couldBeBaseType hg.path name
  | sameBaseType p q => exact .sameBaseType hg.pair.1 hg.pair.2
  | isGenericType p name => exact .isGenericType hg.path name
  | ensureScopes => exact .ensureScopes
  | scopeIds => exact Reads.scopeIds.careful
  | scope p => exact .scope hg.path
  | isScopeBlock p => exact (Reads.isScopeBlock hg.path).careful
  | binding? p => exact .binding? hg.path
  | registerDeclaration p => exact .registerDeclaration hg.path
  | scopeData i => exact (Reads.scopeData hg.scope).careful
  | programScope i => exact (Reads.programScope hg.scope).careful
  | functionScope i => exact (Reads.functionScope hg.scope).careful
  | ownBinding? i name => exact (Reads.ownBinding? hg.scope name).careful
  | bindingScope? i name => exact (Reads.bindingScope? hg.scope name).careful
  | bindingOf? i name => exact (Reads.scopeBinding? hg.scope name).careful
  | hasBinding i name => exact (Reads.hasBinding hg.scope name).careful
  | hasGlobal i name => exact (Reads.hasGlobal hg.scope name).careful
  | hasReference i name => exact (Reads.hasReference hg.scope name).careful
  | removeBinding i name => exact .removeBinding hg.scope name
  | generateUid i text => exact .generateUid hg.scope text
  | generateDeclaredUid i text => exact .generateDeclaredUid hg.scope text
  | pushDeclaration i name init =>
    refine .pushDeclaration (hg.2.2 i (List.mem_singleton_self i)) name fun n hn => ?_
    exact hg.1 n (by simp [hn])
  | replaceWith p offer =>
    obtain ⟨hp, hpaths⟩ := List.forall_mem_cons.mp hg.2.1
    exact .replaceWith hp ⟨hg.1, hpaths, hg.2.2⟩
  | replaceWithMultiple p nodes => exact .replaceWithMultiple hg.editPath hg.editNodes
  | replaceInline p nodes => exact .replaceInline hg.editPath hg.editNodes
  | replaceExpressionWithStatements p nodes =>
    exact .replaceExpressionWithStatements hg.editPath hg.editNodes
  | replaceWithSource p text => exact .replaceWithSource hg.path text
  | insertBefore p nodes => exact .insertBeside hg.editPath hg.editNodes false
  | insertAfter p nodes => exact .insertBeside hg.editPath hg.editNodes true
  | unshiftInto p f nodes => exact .unshiftInto hg.editPath f hg.editNodes
  | pushInto p f nodes => exact .pushInto hg.editPath f hg.editNodes
  | remove p => exact .remove hg.path
  | requeue p => exact .requeue hg.path
  | skip p => exact .skip hg.path
  | stop p => exact .stop hg.path
  | kind n => exact (Reads.kind hg.node).careful
  | alloc k => exact .alloc hg.1
  | deepClone n => exact .deepClone hg.node
  | modifyKind n nodes f hf =>
    obtain ⟨hn, hnodes⟩ := List.forall_mem_cons.mp hg.1
    exact .modifyKind hn fun k _ hk c hc => (List.mem_append.mp (hf k hc)).elim (hnodes c) (hk c)
  | transformByName names => exact .transformByName names

end Service

/-! ## Forgetting -/

section Forgetting

variable {σ : Type} {s : Session} {w : Walk σ} {k : Nat}

theorem Session.Preserves.knows_data {s' : Session} (h : s.Preserves k s') {d : PathData}
    (hd : s.Knows d) : s'.Knows d :=
  ⟨fun _ hn => h.node (hd.1 _ hn), fun _ hp => h.path (hd.2.1 _ hp), fun _ hn => h.node (hd.2.2 _ hn)⟩

/-- Without the places where paths are found again. -/
theorem Session.Closed.clearPaths (hs : s.Closed) :
    s.Preserves 0 s.clearPaths ∧ s.clearPaths.Closed :=
  ⟨⟨Nat.le_refl _, Nat.le_refl _, id⟩,
    { tree := hs.tree
      paths := ⟨hs.paths.data, hs.paths.sinks, nofun, nofun⟩
      scopes := ⟨hs.scopes.scopes, hs.scopes.byBlock, hs.scopes.root⟩
      frames := hs.frames
      parser := hs.parser }⟩

/-- With another parser. -/
theorem Session.Closed.withParser (hs : s.Closed) {parser : Option ExpressionParser}
    (h : ∀ p, parser = some p → p.Closed) :
    s.Preserves 0 { s with parser } ∧ Session.Closed { s with parser } :=
  ⟨⟨Nat.le_refl _, Nat.le_refl _, id⟩,
    { tree := hs.tree
      paths := ⟨hs.paths.data, hs.paths.sinks, hs.paths.filed, hs.paths.strays⟩
      scopes := ⟨hs.scopes.scopes, hs.scopes.byBlock, hs.scopes.root⟩
      frames := hs.frames
      parser := h }⟩

/-- Without scopes, and with other things noted about the paths. -/
theorem Session.Closed.withoutScopes (hs : s.Closed) {f : PathData → PathData}
    (hf : ∀ d, (f d).node = d.node ∧ (f d).parent = d.parent ∧ (f d).container = d.container) :
    s.Preserves 0 { s with scopes := {}, paths := s.paths.map f } ∧
      Session.Closed { s with scopes := {}, paths := s.paths.map f } := by
  have hret : s.Preserves 0 { s with scopes := {}, paths := s.paths.map f } :=
    ⟨Nat.le_refl _, by simp, fun _ => Nat.zero_le _⟩
  have hread : ∀ {p : PathId} {d : PathData}, s.paths[p.index]? = some d →
      (s.paths.map f)[p.index]? = some (f d) := fun hd => by
    rw [Array.getElem?_map, hd, Option.map_some]
  have hwrote : ∀ {p : PathId} {d : PathData}, (s.paths.map f)[p.index]? = some d →
      ∃ e, s.paths[p.index]? = some e ∧ f e = d := fun hd => by
    rw [Array.getElem?_map] at hd
    exact Option.map_eq_some_iff.mp hd
  refine ⟨hret, hs.tree, ⟨fun p d hd => ?_, fun p d hd hc => ?_, fun c p hp => ?_, fun parent p hp => ?_⟩,
    ⟨nofun, nofun, Session.knows_none⟩, fun g hg _ hq => hret.path (hs.frames g hg _ hq), hs.parser⟩
  · obtain ⟨e, he, rfl⟩ := hwrote hd
    obtain ⟨hnode, hparent, hcontainer⟩ := hret.knows_data (hs.paths.data p e he)
    exact ⟨(hf e).1 ▸ hnode, (hf e).2.1 ▸ hparent, (hf e).2.2 ▸ hcontainer⟩
  · obtain ⟨e, he, rfl⟩ := hwrote hd
    rw [(hf e).1, (hf e).2.1]
    exact hs.paths.sinks p e he ((hf e).2.2 ▸ hc)
  · obtain ⟨e, he, hc⟩ := hs.paths.filed c p hp
    exact ⟨f e, hread he, (hf e).2.2 ▸ hc⟩
  · obtain ⟨⟨e, he, hc⟩, hlt⟩ := hs.paths.strays parent p hp
    exact ⟨⟨f e, hread he, (hf e).2.2 ▸ hc⟩, hlt⟩

theorem Session.Closed.clearScopes (hs : s.Closed) :
    s.Preserves 0 s.clearScopes ∧ s.clearScopes.Closed := hs.withoutScopes fun _ => ⟨rfl, rfl, rfl⟩

namespace Heedful

/-- A change of the session that keeps its nodes and paths. -/
theorem forget {f : Session → Session} (h : w.session.Closed → w.session.Preserves 0 (f w.session) ∧
    (f w.session).Closed) :
    Heedful 0 (WalkM.onSession (MonadStateOf.modifyGet fun s => (.unit, f s)) : WalkM σ PUnit) w := h

theorem crawl : Heedful 0 (WalkM.onSession Espalier.crawl : WalkM σ (Option ScopeId)) w := by
  intro hs
  obtain ⟨hret, hs₀⟩ := hs.withoutScopes (f := id) fun _ => ⟨rfl, rfl, rfl⟩
  rw [Array.map_id] at hret hs₀
  have hbuild : Careful (do
      ensureScopes
      Pure.pure (← MonadState.get).scopes.root) { w.session with scopes := {} } :=
    Careful.ensureScopes.bind fun _ _ _ _ => .get_bind fun hs => .pure hs.scopes.root
  have hrun : Espalier.crawl w.session = (do
      ensureScopes
      Pure.pure (← MonadState.get).scopes.root) { w.session with scopes := {} } := rfl
  have hends := hbuild hs₀
  rw [← hrun] at hends
  show w.LeftBy 0 (WalkM.onSession Espalier.crawl w)
  unfold WalkM.onSession
  cases hcrawl : Espalier.crawl w.session with
  | ok a s' =>
    rw [hcrawl] at hends
    exact ⟨hret.trans (.of_extends hends.1), hends.2.1⟩
  | error e s' =>
    rw [hcrawl] at hends
    exact ⟨hret.trans (.of_extends hends.1), hends.2⟩

/-- A walk that is run inside another one. -/
theorem inside {τ α : Type} {x : WalkM τ α} {own : τ} (hx : Heedful k x { session := w.session, own }) :
    Heedful k (WalkM.onSession (x.runOn own) : WalkM σ (α × τ)) w := by
  intro hs
  have hends := hx hs
  show w.LeftBy k (WalkM.onSession (x.runOn own) w)
  unfold WalkM.onSession WalkM.runOn
  cases hrun : x { session := w.session, own } with
  | ok a w' =>
    rw [hrun] at hends
    exact hends
  | error e w' =>
    rw [hrun] at hends
    exact hends

end Heedful

end Forgetting

/-! ## Programs within range -/

/-- A program is within range, wherever it is started. -/
theorem Program.heedful {σ α : Type} {x : WalkM σ α} (hx : Program x) (w : Walk σ) :
    Heedful 0 x w := by
  induction hx with
  | pure a => exact .pure a
  | throw e he => exact .throw he
  | get => exact .get_bind (f := fun w => Pure.pure w) (.pure _)
  | own f => exact .modify fun hs => ⟨.refl _, hs⟩
  | bind _ _ ihx ihf => exact (ihx w).bind fun a w' _ => ihf a w'
  | recover _ _ ihx ihf => exact (ihx w).tryCatch fun e w' he _ => ihf e he w'
  | call hx _ ih =>
    refine .get_bind ?_
    split
    · next hg => exact .lift (hx.careful hg)
    · exact ih w
  | clear =>
    refine .forget (f := Session.clear) fun hs => ?_
    exact ⟨hs.clearPaths.1.trans hs.clearPaths.2.clearScopes.1, hs.clearPaths.2.clearScopes.2⟩
  | clearPaths => exact .forget (f := Session.clearPaths) Session.Closed.clearPaths
  | clearScopes => exact .forget (f := Session.clearScopes) Session.Closed.clearScopes
  | crawl => exact .crawl
  | setParser parser hparser =>
    exact .forget (f := fun s => { s with parser }) fun hs => hs.withParser hparser
  | traverse v _ ih =>
    exact .traverse (fun phase selector h hh w' p _ _ => ih phase selector h hh p w') (.refl 0 _)
  | traverseNode v p _ _ ih iho =>
    refine .get_bind ?_
    split
    · next hg =>
      exact .traverseNode (fun phase selector h hh w' p _ _ => ih phase selector h hh p w') (.refl 0 _)
        hg.path
    · exact iho w
  | transform t _ _ ihv ihh =>
    exact .transform (fun r hr w' _ => ⟨ihv r hr w', fun v w'' hrun phase selector h hh w₃ p _ _ =>
      ihh r hr w' v w'' hrun phase selector h hh p w₃⟩) (.refl 0 _)
  | inside own _ ih => exact .inside (ih _)

theorem Heedful.after {σ α : Type} {x : WalkM σ α} {w : Walk σ} {k : Nat} (hx : Heedful k x w)
    (hs : w.session.Closed) : (after x w).session.Closed ∧ ∀ e w', x w = .error e w' → e ≠ .dangling := by
  have hends := hx hs
  cases hrun : x w with
  | ok a w' =>
    rw [hrun] at hends
    rw [after_of_ok hrun]
    exact ⟨hends.2, fun _ _ h => by cases h⟩
  | error e w' =>
    rw [hrun] at hends
    rw [after_of_error hrun]
    refine ⟨hends.2.1, fun e' w'' h => ?_⟩
    obtain ⟨rfl, -⟩ := EStateM.Result.error.inj h
    exact hends.2.2

/-- On a tree whose root and child ids are in the arena: opening a session does not fail for a number
out of range. Nor does any program on that session, and it leaves a session in which the child ids of
all nodes, and whatever the paths and the scopes name, are in range. Each call that is given what this
session has stays within range again, and gives what the session has. -/
theorem Program.within_range {t : Tree} (ht : t.Closed) (config : Config) :
    (∀ e, Session.open? t config = .error e → e ≠ .dangling) ∧
    ∀ s, Session.open? t config = .ok s →
      ∀ {σ α : Type} {x : WalkM σ α}, Program x → ∀ own : σ,
        (∀ e w, x { session := s, own } = .error e w → e ≠ .dangling) ∧
        (after x { session := s, own }).session.Closed ∧
        ∀ {β : Type} [Names β] {g : Supply} {y : SessionM β}, Service g y →
          g.Known (after x { session := s, own }).session →
          (after x { session := s, own }).session.Ends (y (after x { session := s, own }).session) := by
  refine ⟨fun e hopen => ?_, fun s hopen σ α x hx own => ?_⟩
  · unfold Session.open? at hopen
    split at hopen
    · cases hopen
    · have hends := Careful.ensureScopes (Session.closed_fresh ht config)
      dsimp only at hopen
      cases hrun : ensureScopes { tree := t, config } with
      | ok a s' =>
        rw [show ensureScopes.run { tree := t, config } = _ from hrun] at hopen
        cases hopen
      | error e' s' =>
        rw [show ensureScopes.run { tree := t, config } = _ from hrun] at hopen
        rw [hrun] at hends
        obtain rfl := Except.error.inj hopen
        exact hends.2.2
  · have hends := (hx.heedful { session := s, own }).after (Session.Closed.opened ht hopen)
    exact ⟨hends.2, hends.1, fun hy hg => hy.careful hg hends.1⟩

/-- Walk the tree and remove every empty statement. -/
def dropSpare : WalkM Unit Traversal :=
  traverse (Visitor.empty.on .enter (.type .emptyStatement) fun p =>
    WalkM.knowing (.path p) (WalkM.onSession p.remove) (pure ()))

theorem dropSpare_program : Program dropSpare := by
  refine .traverse _ fun phase selector h hh p => ?_
  obtain ⟨-, -, rfl⟩ : phase = .enter ∧ selector = .type .emptyStatement ∧ h = _ := by
    simpa [Visitor.on, Visitor.empty] using hh
  exact .call (.remove p) (.pure ())

/-- The walk removes `;`, and the session it leaves still has the path of it. -/
theorem spareProgram_within_range : spareProgram.Closed ∧ Program dropSpare ∧
    ∃ s, Session.open? spareProgram { lazyScopes := true } = .ok s ∧
      (after dropSpare { session := s, own := () }).session.tree.kind? ⟨3⟩ =
        some (.program [⟨1⟩] []) ∧
      (after dropSpare { session := s, own := () }).session.Closed ∧
      (Supply.path ⟨3⟩).Known (after dropSpare { session := s, own := () }).session := by
  have ht : spareProgram.Closed := .of_nodes (by decide) (by decide)
  have hopen : Session.open? spareProgram { lazyScopes := true } =
    .ok { tree := spareProgram, config := { lazyScopes := true } } := rfl
  refine ⟨ht, dropSpare_program, _, hopen, by decide +kernel, ?_, by decide +kernel⟩
  exact ((Program.within_range ht _).2 _ hopen dropSpare_program ()).2.1

end Espalier
