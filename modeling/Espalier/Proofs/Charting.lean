import Espalier.Analysis.Inference
import Espalier.Edit.Place
import Espalier.Proofs.Composition
import Espalier.Scope.Uid

set_option autoImplicit false

/-! # How the building of scopes is composed

Scopes are built by navigation and by writes to the table of scopes (`Charting`). Names are declared
by navigation and by registering one binding after another, and a crawl also opens scopes; it walks
with one scope at a time (`Walking`). -/

namespace Espalier

open SessionM

variable {α β : Type}

/-! ## Declaring names -/

namespace Composed

section Declaring

variable {Primitive : (α : Type) → SessionM α → Prop}
  (hnavigate : ∀ {α : Type} {x : SessionM α}, Navigating x → Composed Primitive x)
  (hregister : ∀ (i : ScopeId) name kind path identifier,
    Composed Primitive (i.registerBinding name kind path identifier))

include hnavigate hregister

theorem registerPattern (pattern : PathId) (kind : BindingKind) (i : ScopeId) (site : PathId) :
    Composed Primitive (registerPattern pattern kind i site) := by
  refine (hnavigate (.bindingIdentifierPaths pattern true false)).bind fun found => ?_
  refine .forM _ fun e => .forM _ fun q => (Composed.node? q).bind fun o => ?_
  cases o with
  | none => exact .pure _
  | some id => exact hregister i e.1 kind site id

theorem registerDeclarators (p : PathId) (kind : VariableKind) (i : ScopeId)
    {andThen : PathId → SessionM Uses} (h : ∀ q, Composed Primitive (andThen q)) :
    Composed Primitive (registerDeclarators p kind i andThen) := by
  have hrest : ∀ target : ScopeId, Composed Primitive (do
      let uses ← (← p.elements .declarations).mapM fun declarator => do
        Espalier.registerPattern (← declarator.child .id) (.ofVariableKind kind) target declarator
        andThen declarator
      Pure.pure (Uses.concat uses)) := fun target =>
    (hnavigate (.elements p .declarations)).bind fun _ =>
      (Composed.mapM _ fun q => (hnavigate (.child q .id)).bind fun r =>
        (registerPattern hnavigate hregister r _ target q).bind fun _ => h q).bind fun _ => .pure _
  unfold Espalier.registerDeclarators
  split
  · exact (Composed.functionScope i).bind hrest
  · exact (Composed.pure i).bind hrest

theorem registerImports (p : PathId) (i : ScopeId) :
    Composed Primitive (registerImports p i) :=
  (hnavigate (.elements p .specifiers)).bind fun _ => .forM _ fun q =>
    (hnavigate (.child q .localName)).bind fun r => registerPattern hnavigate hregister r _ i q

theorem registerFunctionName (function : PathId) (kind : BindingKind) (i : ScopeId) :
    Composed Primitive (registerFunctionName function kind i) := by
  refine (hnavigate (.child function .id)).bind fun q => ?_
  refine (Composed.node? q).bind fun _ => (Composed.identifierName? q).bind fun _ => ?_
  split
  · exact hregister i _ kind function _
  · exact .pure _

/-- Declaring the names of a declaration that came into the tree later. -/
theorem registerDeclaration (hscope : ∀ p : PathId, Composed Primitive p.scope) (p : PathId) :
    Composed Primitive p.registerDeclaration := by
  unfold PathId.registerDeclaration
  refine (Composed.node? p).bind fun o => ?_
  cases o with
  | none => exact .throw _
  | some node =>
    refine (hscope p).bind fun i => (Composed.ask _).bind fun _ => ?_
    split
    · exact (registerDeclarators hnavigate hregister p _ i fun _ => .pure _).bind fun _ => .pure _
    · next id _ _ _ _ _ =>
      extract_lets register
      refine (Composed.scopeData i).bind fun d => ?_
      -- The name belongs to the scope around the function, if there is one.
      have hname : ∀ outer, Composed Primitive (register outer) := fun outer => by
        refine (Composed.ask _).bind fun _ => ?_
        split
        · exact hregister outer _ _ p _
        · exact .pure _
      split
      · exact (Composed.functionScope _).bind hname
      · exact (Composed.pure i).bind hname
    · exact registerImports hnavigate hregister p i
    · exact .pure _

end Declaring

end Composed

/-! ## The walk of a crawl -/

/-- What the walk with a scope is composed of: navigation, the registering of names, and the walk
with a new scope inside. -/
structure Walking (P : ScopeId → (α : Type) → SessionM α → Prop) : Prop where
  navigate : ∀ i {α : Type} {x : SessionM α}, Navigating x → Composed (P i) x
  register : ∀ i (j : ScopeId) name kind path identifier,
    Composed (P i) (j.registerBinding name kind path identifier)
  create : ∀ i block {f : ScopeId → SessionM Uses}, (∀ j, Composed (P j) (f j)) →
    Composed (P i) (createScope block (some i) >>= f)

namespace Walking

variable {P : ScopeId → (α : Type) → SessionM α → Prop} (hP : Walking P)

include hP

theorem registerPattern (pattern : PathId) (kind : BindingKind) (i j : ScopeId) (site : PathId) :
    Composed (P i) (Espalier.registerPattern pattern kind j site) :=
  .registerPattern (hP.navigate i) (hP.register i) pattern kind j site

theorem registerFunctionName (function : PathId) (kind : BindingKind) (i j : ScopeId) :
    Composed (P i) (Espalier.registerFunctionName function kind j) :=
  .registerFunctionName (hP.navigate i) (hP.register i) function kind j

section Walk

variable {walk : PathId → ScopeId → SessionM Uses} (hwalk : ∀ p i, Composed (P i) (walk p i))

include hwalk

theorem walkChildren (p : PathId) (i : ScopeId) : Composed (P i) (walkChildren walk p i) := by
  refine (Composed.type? p).bind fun o => ?_
  cases o with
  | none => exact .pure _
  | some type =>
    refine (Composed.mapM _ fun f => ?_).bind fun _ => .pure _
    exact (hP.navigate i (.inField p f)).bind fun _ =>
      (Composed.mapM _ fun q => hwalk q i).bind fun _ => .pure _

theorem walkBlock (block : PathId) (i : ScopeId) : Composed (P i) (walkBlock walk block i) := by
  refine (Composed.type? block).bind fun o => ?_
  split
  · exact .pure _
  · -- A catch clause: its parameter, then its body.
    refine (hP.navigate i (.child block .param)).bind fun param => ?_
    refine (Composed.node? param).bind fun o => ?_
    have hbody : ∀ head : Uses, Composed (P i) (do
        pure (head ++ (← Espalier.walkChildren walk (← block.child .body) i))) := fun head =>
      (hP.navigate i (.child block .body)).bind fun q =>
        (hP.walkChildren hwalk q i).bind fun _ => .pure _
    cases o with
    | none => exact (Composed.pure _).bind hbody
    | some _ =>
      exact (hP.registerPattern param _ i i param).bind fun _ => (hwalk param i).bind hbody
  · refine .ite ?_ (hP.walkChildren hwalk block i)
    -- A function: its name, its parameters, then its body.
    have hrest : Composed (P i) (do
        let heads ← (← block.elements .params).mapM fun param => do
          Espalier.registerPattern param .param i param
          walk param i
        let body ← block.child .body
        let inner ← if ← body.is .blockStatement then Espalier.walkChildren walk body i
          else walk body i
        pure (Uses.concat heads ++ inner)) := by
      refine (hP.navigate i (.elements block .params)).bind fun _ => ?_
      refine (Composed.mapM _ fun q => (hP.registerPattern q _ i i q).bind fun _ => hwalk q i).bind
        fun heads => ?_
      refine (hP.navigate i (.child block .body)).bind fun body => ?_
      refine (Composed.is body _).bind fun _ => ?_
      split
      · exact (hP.walkChildren hwalk body i).bind fun _ => .pure _
      · exact (hwalk body i).bind fun _ => .pure _
    split
    · exact (hP.registerFunctionName block _ i i).bind fun _ => hrest
    · exact hrest

end Walk

/-- Everything below a path is walked with the scopes that are met. -/
theorem walkWithin (fuel : Nat) (p : PathId) (i : ScopeId) :
    Composed (P i) (walkWithin fuel p i) := by
  induction fuel generalizing p i with
  | zero => exact .throw _
  | succ fuel ih =>
    refine (Composed.kind? p).bind fun o => ?_
    cases o with
    | none => exact .pure _
    | some kind =>
      have hblock : Composed (P i) (do
          let inner ← Espalier.createScope p (some i)
          Espalier.walkBlock (Espalier.walkWithin fuel) p inner) :=
        hP.create i p fun inner => hP.walkBlock ih p inner
      refine (Composed.isScopeBlock p).bind fun _ => .ite ?_ ?_
      · split
        · exact (Composed.functionScope i).bind fun j =>
            (hP.registerFunctionName p _ i j).bind fun _ => hblock
        · exact hblock
      · split
        · exact .registerDeclarators (hP.navigate i) (hP.register i) p _ i fun q =>
            hP.walkChildren ih q i
        · exact (Composed.registerImports (hP.navigate i) (hP.register i) p i).bind fun _ =>
            .pure _
        · exact (Composed.askBelow _ _).bind fun _ => (hP.walkChildren ih p i).bind fun _ => .pure _
        · exact (Composed.ask _).bind fun _ => (hP.walkChildren ih p i).bind fun _ => .pure _
        · exact (Composed.isReferencedIdentifier p).bind fun _ => .pure _
        · exact hP.walkChildren ih p i

end Walking

/-! ## Looking for a free name -/

namespace Composed

section FreeName

variable {Primitive : (α : Type) → SessionM α → Prop} (i : ScopeId)

theorem isTaken (name : String) : Composed Primitive (i.isTaken name) :=
  Composed.bind ((Composed.bindingScope? i name).bind fun _ => .pure _) fun _ => .ite (.pure _)
    ((Composed.programScope i).bind fun j => (Composed.scopeData j).bind fun _ => .pure _)

theorem freeCandidate (lead base : String) (fuel n : Nat) :
    Composed Primitive (i.freeCandidate lead base fuel n) := by
  induction fuel generalizing n with
  | zero => exact .throw _
  | succ fuel ih => exact (isTaken i _).bind fun _ => .ite (ih (n + 1)) (.pure _)

theorem takenCount : Composed Primitive i.takenCount := by
  refine (Composed.programScope i).bind fun j => (Composed.scopeData j).bind fun _ => ?_
  refine (Composed.chain i).bind fun l => (Composed.mapM _ fun k => ?_).bind fun _ => .pure _
  exact (Composed.scopeData k).bind fun _ => .pure _

end FreeName

end Composed

/-! ## Building scopes -/

/-- What scopes are built of: hops, and writes to the table of scopes. -/
inductive ChartStep : (α : Type) → SessionM α → Prop
  | hop {α : Type} {x : SessionM α} : Hop α x → ChartStep α x
  | create (block : PathId) (parent : Option ScopeId) : ChartStep ScopeId (createScope block parent)
  | write (g : Session → ScopeTable) : ChartStep PUnit (modify fun s => { s with scopes := g s })

/-- The computation navigates and writes to the table of scopes. -/
abbrev Charting (x : SessionM α) : Prop := Composed ChartStep x

theorem Navigating.charting {x : SessionM α} (hx : Navigating x) : Charting x :=
  hx.lift fun _ _ hop => .primitive (.hop hop)

namespace Charting

/-! ### Names -/

section Name

variable (i : ScopeId) (name : String)

theorem modifyData (f : Scope → Scope) : Charting (i.modifyData f) :=
  (Composed.scopeData i).bind fun _ => .primitive (.write _)

theorem modifyBinding (f : Binding → Binding) : Charting (i.modifyBinding name f) := by
  refine (Composed.bindingScope? i name).bind fun o => ?_
  cases o with
  | none => exact .pure _
  | some owner => exact (modifyData owner _).bind fun _ => .pure _

theorem noteReference : Charting (i.noteReference name) :=
  (Composed.programScope i).bind fun j => modifyData j _

theorem noteGlobal : Charting (i.noteGlobal name) :=
  (Composed.programScope i).bind fun j => modifyData j _

theorem registerBinding (kind : BindingKind) (path : PathId) (identifier : NodeId) :
    Charting (i.registerBinding name kind path identifier) := by
  refine (noteReference i name).bind fun _ => (Composed.ownBinding? i name).bind fun o => ?_
  cases o with
  | none => exact modifyData i _
  | some old => exact .ite (.pure _) (modifyData i _)

theorem removeBinding : Charting (i.removeBinding name) := by
  refine (Composed.bindingScope? i name).bind fun o => ?_
  cases o with
  | none => exact .pure _
  | some owner => exact modifyData owner _

theorem generateUid (text : String) : Charting (i.generateUid text) := by
  refine Composed.get.bind fun _ => (Composed.takenCount i).bind fun _ => ?_
  refine (Composed.freeCandidate i _ _ _ _).bind fun _ => (Composed.programScope i).bind fun j => ?_
  exact (modifyData j _).bind fun _ => .pure _

theorem createScope (block : PathId) (parent : Option ScopeId) :
    Charting (createScope block parent) := .primitive (.create block parent)

end Name

/-! ### The walk -/

theorem walking : Walking fun _ => ChartStep where
  navigate _ _ _ hx := hx.charting
  register _ j name kind path identifier := registerBinding j name kind path identifier
  create _ block _ hf := (createScope block _).bind hf

theorem walkBlock (block : PathId) (i : ScopeId) (fuel : Nat) :
    Charting (walkBlock (walkWithin fuel) block i) :=
  walking.walkBlock (walking.walkWithin fuel) block i

/-! ### Crawling -/

theorem resolveWrite (use : ScopeId × PathId × List String) : Charting (resolveWrite use) :=
  .forM _ fun name => (modifyBinding use.1 name _).bind fun _ => .pure _

theorem resolveRead (use : ScopeId × PathId) : Charting (resolveRead use) := by
  refine (Composed.identifierName? use.2).bind fun o => ?_
  cases o with
  | none => exact .pure _
  | some name =>
    exact (noteReference use.1 name).bind fun _ => (modifyBinding use.1 name _).bind fun _ =>
      .ite (.pure _) (noteGlobal use.1 name)

theorem crawlScope (block : PathId) (parent : Option ScopeId) :
    Charting (crawlScope block parent) := by
  refine (createScope block parent).bind fun i => Composed.get.bind fun _ => ?_
  refine (walkBlock block i _).bind fun uses => ?_
  exact (Composed.forM _ resolveWrite).bind fun _ => (Composed.forM _ resolveRead).bind fun _ =>
    .pure _

theorem ensureScopes : Charting ensureScopes := by
  refine Composed.scopesCrawled.bind fun _ => .ite (.pure _) ?_
  refine Composed.bind (.primitive (.write _)) fun _ => ?_
  refine Navigating.rootPath.charting.bind fun root => (Composed.node? root).bind fun _ => ?_
  exact .ite ((crawlScope root none).bind fun _ => .pure _) (.pure _)

theorem crawl : Charting crawl :=
  Composed.bind (.primitive (.write _)) fun _ => ensureScopes.bind fun _ =>
    Composed.get.bind fun _ => .pure _

/-! ### The scope of a path -/

theorem outermostScope : Charting outermostScope := by
  refine Composed.get.bind fun s => ?_
  split
  · exact .pure _
  · exact Navigating.rootPath.charting.bind fun root => createScope root none

/-- Asking a path whether its node opens a scope. -/
theorem blockAt? (p : PathId) : Navigating (do
    match ← p.node? with
    | none => pure none
    | some node => do pure (if ← p.isScopeBlock then some (p, node) else none)) := by
  refine (Composed.node? p).bind fun o => ?_
  cases o with
  | none => exact .pure _
  | some node => exact (Composed.isScopeBlock p).bind fun _ => .pure _

theorem scopeBlock? (p : PathId) : Navigating p.scopeBlock? := .climb blockAt? _

theorem scopeWithin (fuel : Nat) (p : PathId) : Charting (scopeWithin fuel p) := by
  induction fuel generalizing p with
  | zero => exact .throw _
  | succ fuel ih =>
    refine (scopeBlock? p).charting.bind fun o => ?_
    cases o with
    | none => exact outermostScope
    | some block =>
      refine Composed.get.bind fun s => ?_
      dsimp only
      split
      · exact .pure _
      · refine (Composed.parent? _).bind fun o => ?_
        cases o with
        | none => exact (Composed.pure _).bind fun parent => crawlScope block.1 parent
        | some q => exact (ih q).bind fun j => (Composed.pure _).bind fun parent =>
            crawlScope block.1 parent

theorem scope (p : PathId) : Charting p.scope :=
  ensureScopes.bind fun _ => Composed.get.bind fun _ => scopeWithin _ p

theorem registerDeclaration (p : PathId) : Charting p.registerDeclaration :=
  Composed.registerDeclaration Navigating.charting registerBinding scope p

theorem unregister (node : NodeId) : Charting (unregister node) := by
  refine Composed.scopesCrawled.bind fun _ => .ite ?_ (.pure _)
  refine (Composed.askBelow _ _).bind fun _ => Composed.get.bind fun _ => Composed.scopeIds.bind fun _ => ?_
  exact .forM _ fun i => modifyData i _

end Charting

end Espalier
