import Espalier.Path.Resync
import Espalier.Proofs.Handles
import Espalier.Scope.Crawl

set_option autoImplicit false

/-! # What is never refused

Refusals are the answers of edits. Going along the fields of nodes, asking about scopes and building
them may meet an id without a node, run out of steps or of indices, but is not refused
(`Unrefused.scope`), and neither is declaring the names of a path that holds a node
(`PathId.registerDeclaration_unrefused`). -/

namespace Espalier

open SessionM

variable {α β : Type}

/-- Where the computation fails, it is not refused. -/
def Unrefused (x : SessionM α) : Prop := ∀ s cause s', x s ≠ .error (.refused cause) s'

namespace Unrefused

/-! ## Composition -/

theorem pure (a : α) : Unrefused (pure a : SessionM α) := fun _ _ _ h => by cases h

theorem get : Unrefused (get : SessionM Session) := fun _ _ _ h => by cases h

theorem modify (f : Session → Session) : Unrefused (modify f : SessionM PUnit) :=
  fun _ _ _ h => by cases h

theorem throw {e : Failure} (he : ∀ cause, e ≠ .refused cause) :
    Unrefused (throw e : SessionM α) := fun _ cause _ h => he cause (EStateM.Result.error.inj h).1

theorem exhausted : Unrefused (MonadExcept.throw .exhausted : SessionM α) := throw nofun

theorem bind {x : SessionM α} {f : α → SessionM β} (hx : Unrefused x)
    (hf : ∀ a, Unrefused (f a)) : Unrefused (x >>= f) := by
  intro s cause s' h
  cases hrun : x s with
  | ok a s₁ =>
    rw [bind_of_ok hrun] at h
    exact hf a s₁ cause s' h
  | error e s₁ =>
    rw [bind_of_error hrun] at h
    obtain ⟨rfl, -⟩ := EStateM.Result.error.inj h
    exact hx s cause s₁ hrun

theorem ite {c : Prop} [Decidable c] {x y : SessionM α} (hx : Unrefused x) (hy : Unrefused y) :
    Unrefused (if c then x else y) := by
  split
  · exact hx
  · exact hy

theorem mapM {f : α → SessionM β} (l : List α) (hf : ∀ a, Unrefused (f a)) :
    Unrefused (l.mapM f) := by
  induction l with
  | nil => exact pure []
  | cons a l ih =>
    rw [List.mapM_cons]
    exact (hf a).bind fun _ => ih.bind fun _ => pure _

theorem forM {f : α → SessionM PUnit} (l : List α) (hf : ∀ a, Unrefused (f a)) :
    Unrefused (l.forM f) := by
  induction l with
  | nil => exact pure PUnit.unit
  | cons a l ih => exact (hf a).bind fun _ => ih

theorem found (o : Option α) : Unrefused (found o) := by
  cases o with
  | none => exact throw nofun
  | some a => exact pure a

theorem ask (question : Tree → Option α) : Unrefused (ask question) := get.bind fun _ => found _

theorem askBelow (ids : List NodeId) (question : Tree → Option α) :
    Unrefused (askBelow ids question) := by
  refine get.bind fun s => ?_
  split
  · exact pure _
  · refine throw fun cause h => ?_
    unfold failureBelow at h
    split at h <;> cases h

/-! ## Paths -/

section Path

variable (p : PathId)

theorem data : Unrefused p.data := get.bind fun _ => found _

theorem modifyData (f : PathData → PathData) : Unrefused (p.modifyData f) :=
  (data p).bind fun _ => modify _

theorem node? : Unrefused p.node? := (data p).bind fun _ => pure _

theorem parent? : Unrefused p.parent? := (data p).bind fun _ => pure _

theorem kind? : Unrefused p.kind? := by
  refine (node? p).bind fun o => ?_
  cases o with
  | none => exact pure _
  | some id => exact (ask _).bind fun _ => pure _

theorem type? : Unrefused p.type? := (kind? p).bind fun _ => pure _

theorem is (type : NodeType) : Unrefused (p.is type) := (type? p).bind fun _ => pure _

theorem isAny (test : NodeType → Bool) : Unrefused (p.isAny test) := (type? p).bind fun _ => pure _

theorem identifierName? : Unrefused p.identifierName? := (kind? p).bind fun _ => pure _

theorem parentType? : Unrefused p.parentType? := by
  refine bind ((data p).bind fun _ => pure _) fun o => ?_
  cases o with
  | none => exact pure _
  | some id => exact (ask _).bind fun _ => pure _

theorem isRemoved : Unrefused p.isRemoved := (data p).bind fun _ => pure _

theorem isForHead : Unrefused p.isForHead :=
  (data p).bind fun _ => ite ((parentType? p).bind fun _ => pure _) (pure _)

theorem canSwapBody (replacement : NodeId) : Unrefused (p.canSwapBody replacement) := by
  refine (data p).bind fun _ => ite (pure _) ((parentType? p).bind fun _ => ite (pure _) ?_)
  refine (ask _).bind fun _ => (type? p).bind fun o => ?_
  split
  · exact pure _
  · exact pure _
  · exact pure _

theorem isReferencedIdentifier : Unrefused p.isReferencedIdentifier := by
  refine (is p _).bind fun _ => ite ((data p).bind fun d => ?_) (pure _)
  split
  · exact (ask _).bind fun _ => pure _
  · exact pure _

theorem isScopeBlock : Unrefused p.isScopeBlock := by
  refine (type? p).bind fun o => ?_
  split
  · exact pure _
  · exact (parentType? p).bind fun _ => pure _
  · exact pure _

/-- The way up. -/
theorem climb {answer : PathId → SessionM (Option α)} (h : ∀ q, Unrefused (answer q))
    (start : Option PathId) : Unrefused (PathId.climb start answer) := by
  refine get.bind fun s => ?_
  generalize s.paths.size = fuel
  induction fuel generalizing start with
  | zero =>
    cases start with
    | none => exact pure _
    | some _ => exact exhausted
  | succ fuel ih =>
    cases start with
    | none => exact pure _
    | some q =>
      refine (h q).bind fun o => ?_
      cases o with
      | none => exact (parent? q).bind ih
      | some a => exact pure _

end Path

/-! ## Navigation -/

theorem nodeAt (c : Container) (k : Key) : Unrefused (nodeAt c k) := by
  unfold Espalier.nodeAt
  split
  · exact get.bind fun _ => pure _
  · exact (ask _).bind fun _ => pure _
  · exact (ask _).bind fun _ => pure _
  · exact pure _

theorem allocPath (d : PathData) : Unrefused (allocPath d) := fun _ _ _ h => by cases h

theorem detachedAt (parent : Option PathId) (k : Key) : Unrefused (detachedAt parent k) := by
  refine get.bind fun s => ?_
  split
  · exact (modifyData _ _).bind fun _ => pure _
  · exact (allocPath _).bind fun _ => (modify _).bind fun _ => pure _

theorem pathFor (parent : Option PathId) (c : Container) (k : Key) :
    Unrefused (pathFor parent c k) := by
  refine ite (detachedAt parent k) ((nodeAt c k).bind fun _ => get.bind fun s => ?_)
  split
  · exact (modifyData _ _).bind fun _ => pure _
  · exact (allocPath _).bind fun p => (modify _).bind fun _ => pure _

theorem rootPath : Unrefused rootPath := pathFor none .root .root

section Path

variable (p : PathId)

theorem child (f : Field) : Unrefused (p.child f) := by
  refine (node? p).bind fun o => ?_
  cases o with
  | none => exact detachedAt (some p) .root
  | some id =>
    refine (ask _).bind fun k => ?_
    split
    · exact pathFor (some p) (.slot id) (.field f)
    · exact pathFor (some p) (.slot id) (.field f)
    · exact detachedAt (some p) .root

theorem element (f : Field) (i : Nat) : Unrefused (p.element f i) := by
  refine (node? p).bind fun o => ?_
  cases o with
  | none => exact detachedAt (some p) .root
  | some id =>
    refine (ask _).bind fun k => ?_
    split
    · exact pathFor (some p) (.list id f) (.index i)
    · exact detachedAt (some p) .root

theorem elements (f : Field) : Unrefused (p.elements f) := by
  refine (node? p).bind fun o => ?_
  cases o with
  | none => exact pure _
  | some id => exact bind ((ask _).bind fun _ => pure _) fun _ => mapM _ (element p f)

theorem inField (f : Field) : Unrefused (p.inField f) := by
  refine (kind? p).bind fun o => ?_
  cases o with
  | none => exact pure _
  | some k =>
    have hone : Unrefused (do Pure.pure [← p.child f]) := (child p f).bind fun _ => pure _
    dsimp only
    split
    · exact elements p f
    · exact hone
    · exact hone
    · exact pure _

theorem bindingTargets (outerOnly : Bool) (type : NodeType) :
    Unrefused (p.bindingTargets outerOnly type) := by
  refine ite ((child p .declaration).bind fun q => (isAny q _).bind fun _ => pure _) ?_
  refine ite ((child p .id).bind fun _ => pure _) (ite (pure _) ?_)
  exact (mapM _ (inField p)).bind fun _ => pure _

theorem bindingLevel (keepAll outerOnly : Bool) (ps : List PathId)
    (t : Table String (List PathId)) :
    Unrefused (PathId.bindingLevel keepAll outerOnly ps t) := by
  induction ps generalizing t with
  | nil => exact pure _
  | cons p ps ih =>
    refine (kind? p).bind fun o => ?_
    split
    · exact ih t
    · exact ih _
    · exact (bindingTargets p outerOnly _).bind fun _ => (ih t).bind fun _ => pure _

theorem bindingIdentifierPaths (keepAll outerOnly : Bool) :
    Unrefused (p.bindingIdentifierPaths keepAll outerOnly) := by
  refine get.bind fun s => ?_
  generalize s.tree.depthBound + 1 = fuel, [p] = ps, Table.empty = t
  induction fuel generalizing ps t with
  | zero => exact exhausted
  | succ fuel ih =>
    exact ite (pure _) ((bindingLevel keepAll outerOnly ps t).bind fun r => ih r.2 r.1)

end Path

theorem fileUnder (c : Container) (p : PathId) : Unrefused (fileUnder c p) := modify _

theorem unfile (c : Container) (p : PathId) : Unrefused (unfile c p) := modify _

theorem resync (p : PathId) : Unrefused p.resync := by
  have hcontainer : Unrefused p.container := (data p).bind fun _ => pure _
  refine bind ((data p).bind fun _ => pure _) fun _ => ite (pure _) (bind ?_ fun _ => ?_)
  · refine (data p).bind fun d => ?_
    split
    · exact pure _
    · refine (node? _).bind fun o => ?_
      split
      · exact pure _
      · split
        · exact pure _
        · exact hcontainer.bind fun _ => (unfile _ p).bind fun _ => (fileUnder _ p).bind fun _ =>
            modifyData p _
  · refine (data p).bind fun d => ?_
    split
    · exact pure _
    · refine (nodeAt _ _).bind fun _ => ite (pure _) (ite (pure _) (bind ?_ fun o => ?_))
      · unfold PathId.keyOf?
        split
        · exact (ask _).bind fun _ => pure _
        · exact (ask _).bind fun _ => pure _
        · exact pure _
        · exact pure _
      · cases o with
        | none => exact hcontainer.bind fun _ => (unfile _ p).bind fun _ => modifyData p _
        | some k => exact modifyData p _

/-! ## Scopes -/

section Scope

variable (i : ScopeId) (name : String)

theorem scopeData : Unrefused i.data := get.bind fun _ => found _

theorem modifyScope (f : Scope → Scope) : Unrefused (i.modifyData f) :=
  (scopeData i).bind fun _ => modify _

theorem chain : Unrefused i.chain := by
  refine get.bind fun s => ?_
  generalize s.scopes.scopes.size + 1 = fuel
  induction fuel generalizing i with
  | zero => exact exhausted
  | succ fuel ih =>
    refine (scopeData i).bind fun sc => ?_
    split
    · exact pure _
    · next j _ => exact (ih j).bind fun _ => pure _

theorem programScope : Unrefused i.programScope := (chain i).bind fun _ => pure _

theorem functionScope : Unrefused i.functionScope := by
  refine (chain i).bind fun l => ?_
  induction l generalizing i with
  | nil => exact pure _
  | cons j l ih => exact (scopeData j).bind fun _ => ite (pure _) (ih j)

theorem bindingScope? : Unrefused (i.bindingScope? name) := by
  refine (chain i).bind fun l => ?_
  induction l with
  | nil => exact pure _
  | cons j l ih => exact (scopeData j).bind fun _ => ite (pure _) ih

theorem modifyBinding (f : Binding → Binding) : Unrefused (i.modifyBinding name f) := by
  refine (bindingScope? i name).bind fun o => ?_
  cases o with
  | none => exact pure _
  | some owner => exact (modifyScope owner _).bind fun _ => pure _

theorem noteReference : Unrefused (i.noteReference name) :=
  (programScope i).bind fun j => modifyScope j _

theorem registerBinding (kind : BindingKind) (path : PathId) (identifier : NodeId) :
    Unrefused (i.registerBinding name kind path identifier) := by
  refine (noteReference i name).bind fun _ => bind ((scopeData i).bind fun _ => pure _) fun o => ?_
  cases o with
  | none => exact modifyScope i _
  | some old => exact ite (pure _) (modifyScope i _)

theorem createScope (block : PathId) (parent : Option ScopeId) :
    Unrefused (createScope block parent) :=
  (type? block).bind fun _ => (node? block).bind fun _ => fun _ _ _ h => by cases h

end Scope

/-! ## Declaring names -/

theorem registerPattern (pattern : PathId) (kind : BindingKind) (i : ScopeId) (site : PathId) :
    Unrefused (registerPattern pattern kind i site) := by
  refine (bindingIdentifierPaths pattern true false).bind fun _ => ?_
  refine forM _ fun e => forM _ fun q => (node? q).bind fun o => ?_
  cases o with
  | none => exact pure _
  | some id => exact registerBinding i e.1 kind site id

theorem registerDeclarators (p : PathId) (kind : VariableKind) (i : ScopeId)
    {andThen : PathId → SessionM Uses} (h : ∀ q, Unrefused (andThen q)) :
    Unrefused (registerDeclarators p kind i andThen) := by
  have hrest : ∀ target : ScopeId, Unrefused (do
      let uses ← (← p.elements .declarations).mapM fun declarator => do
        Espalier.registerPattern (← declarator.child .id) (.ofVariableKind kind) target declarator
        andThen declarator
      Pure.pure (Uses.concat uses)) := fun target =>
    (elements p .declarations).bind fun _ => (mapM _ fun q => (child q .id).bind fun r =>
      (registerPattern r _ target q).bind fun _ => h q).bind fun _ => pure _
  exact ite ((functionScope i).bind hrest) ((pure i).bind hrest)

theorem registerImports (p : PathId) (i : ScopeId) : Unrefused (registerImports p i) :=
  (elements p .specifiers).bind fun _ => forM _ fun q =>
    (child q .localName).bind fun r => registerPattern r _ i q

theorem registerFunctionName (function : PathId) (kind : BindingKind) (i : ScopeId) :
    Unrefused (registerFunctionName function kind i) := by
  refine (child function .id).bind fun q => (node? q).bind fun _ => (identifierName? q).bind fun _ => ?_
  split
  · exact registerBinding i _ kind function _
  · exact pure _

/-! ## Crawling -/

section Walk

variable {walk : PathId → ScopeId → SessionM Uses} (hwalk : ∀ p i, Unrefused (walk p i))

include hwalk

theorem walkChildren (p : PathId) (i : ScopeId) : Unrefused (walkChildren walk p i) := by
  refine (type? p).bind fun o => ?_
  cases o with
  | none => exact pure _
  | some type =>
    refine (mapM _ fun f => (inField p f).bind fun _ => ?_).bind fun _ => pure _
    exact (mapM _ fun q => hwalk q i).bind fun _ => pure _

theorem walkBlock (block : PathId) (i : ScopeId) : Unrefused (walkBlock walk block i) := by
  refine (type? block).bind fun o => ?_
  split
  · exact pure _
  · -- A catch clause: its parameter, then its body.
    refine (child block .param).bind fun param => (node? param).bind fun o => ?_
    have hbody : ∀ head : Uses, Unrefused (do
        Pure.pure (head ++ (← Espalier.walkChildren walk (← block.child .body) i))) := fun head =>
      (child block .body).bind fun q => (walkChildren hwalk q i).bind fun _ => pure _
    cases o with
    | none => exact (pure _).bind hbody
    | some _ => exact (registerPattern param _ i param).bind fun _ => (hwalk param i).bind hbody
  · refine ite ?_ (walkChildren hwalk block i)
    -- A function: its name, its parameters, then its body.
    have hrest : Unrefused (do
        let heads ← (← block.elements .params).mapM fun param => do
          Espalier.registerPattern param .param i param
          walk param i
        let body ← block.child .body
        let inner ← if ← body.is .blockStatement then Espalier.walkChildren walk body i
          else walk body i
        Pure.pure (Uses.concat heads ++ inner)) := by
      refine (elements block .params).bind fun _ => ?_
      refine (mapM _ fun q => (registerPattern q _ i q).bind fun _ => hwalk q i).bind fun _ => ?_
      refine (child block .body).bind fun body => (is body _).bind fun _ => ?_
      exact ite ((walkChildren hwalk body i).bind fun _ => pure _)
        ((hwalk body i).bind fun _ => pure _)
    exact ite ((registerFunctionName block _ i).bind fun _ => hrest) hrest

end Walk

theorem walkWithin (fuel : Nat) (p : PathId) (i : ScopeId) : Unrefused (walkWithin fuel p i) := by
  induction fuel generalizing p i with
  | zero => exact exhausted
  | succ fuel ih =>
    refine (kind? p).bind fun o => ?_
    cases o with
    | none => exact pure _
    | some kind =>
      have hblock : Unrefused (do
          let inner ← Espalier.createScope p (some i)
          Espalier.walkBlock (Espalier.walkWithin fuel) p inner) :=
        (createScope p _).bind fun j => walkBlock ih p j
      refine (isScopeBlock p).bind fun _ => ite (ite ?_ hblock) ?_
      · exact (functionScope i).bind fun j => (registerFunctionName p _ j).bind fun _ => hblock
      · split
        · exact registerDeclarators p _ i fun q => walkChildren ih q i
        · exact (registerImports p i).bind fun _ => pure _
        · exact (askBelow _ _).bind fun _ => (walkChildren ih p i).bind fun _ => pure _
        · exact (ask _).bind fun _ => (walkChildren ih p i).bind fun _ => pure _
        · exact (isReferencedIdentifier p).bind fun _ => pure _
        · exact walkChildren ih p i

theorem crawlScope (block : PathId) (parent : Option ScopeId) :
    Unrefused (crawlScope block parent) := by
  refine (createScope block parent).bind fun i => get.bind fun _ => ?_
  refine (walkBlock (walkWithin _) block i).bind fun uses => bind (forM _ fun use => ?_) fun _ =>
    bind (forM _ fun use => ?_) fun _ => pure _
  · exact forM _ fun name => (modifyBinding use.1 name _).bind fun _ => pure _
  · refine (identifierName? use.2).bind fun o => ?_
    cases o with
    | none => exact pure _
    | some name =>
      exact (noteReference use.1 name).bind fun _ => (modifyBinding use.1 name _).bind fun _ =>
        ite (pure _) ((programScope use.1).bind fun j => modifyScope j _)

theorem ensureScopes : Unrefused ensureScopes := by
  refine bind (get.bind fun _ => pure _) fun _ => ite (pure _) ((modify _).bind fun _ => ?_)
  refine rootPath.bind fun root => (node? root).bind fun _ => ite ?_ (pure _)
  exact (crawlScope root none).bind fun _ => pure _

theorem outermostScope : Unrefused outermostScope := by
  refine get.bind fun s => ?_
  split
  · exact pure _
  · exact rootPath.bind fun root => createScope root none

theorem scopeBlock? (p : PathId) : Unrefused p.scopeBlock? := by
  refine climb (fun q => (node? q).bind fun o => ?_) _
  cases o with
  | none => exact pure _
  | some node => exact (isScopeBlock q).bind fun _ => pure _

theorem scopeWithin (fuel : Nat) (p : PathId) : Unrefused (scopeWithin fuel p) := by
  induction fuel generalizing p with
  | zero => exact exhausted
  | succ fuel ih =>
    refine (scopeBlock? p).bind fun o => ?_
    rcases o with _ | ⟨block, node⟩
    · exact outermostScope
    · refine get.bind fun s => ?_
      dsimp only
      split
      · exact pure _
      · have hcrawl : ∀ parent, Unrefused (Espalier.crawlScope block parent) := crawlScope block
        refine (parent? block).bind fun o => ?_
        cases o with
        | none => exact (pure _).bind hcrawl
        | some q => exact (ih q).bind fun _ => (pure _).bind hcrawl

theorem scope (p : PathId) : Unrefused p.scope :=
  ensureScopes.bind fun _ => get.bind fun _ => scopeWithin _ p

end Unrefused

/-- Declaring the names of a path is only refused where the path holds no node. -/
theorem PathId.registerDeclaration_unrefused {p : PathId} {s s' : Session} {d : PathData}
    {n : NodeId} {cause : Refusal} (hd : s.paths[p.index]? = some d) (hn : d.node = some n) :
    p.registerDeclaration s ≠ .error (.refused cause) s' := by
  have hnode : p.node? s = .ok (some n) s := by rw [p.node?_run hd, hn]
  unfold PathId.registerDeclaration
  rw [bind_of_ok hnode]
  refine Unrefused.bind (.scope p) (fun i => .bind (.ask _) fun _ => ?_) s cause s'
  split
  · exact (Unrefused.registerDeclarators p _ i fun _ => .pure _).bind fun _ => .pure _
  · next id _ _ _ _ _ =>
    extract_lets register
    have hname : ∀ outer, Unrefused (register outer) := fun outer => by
      refine (Unrefused.ask _).bind fun _ => ?_
      split
      · exact .registerBinding outer _ _ p _
      · exact .pure _
    refine (Unrefused.scopeData i).bind fun d => ?_
    split
    · exact (Unrefused.functionScope _).bind hname
    · exact (Unrefused.pure i).bind hname
  · exact .registerImports p i
  · exact .pure _

end Espalier
