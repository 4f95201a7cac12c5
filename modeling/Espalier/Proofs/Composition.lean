import Espalier.Proofs.Outcome
import Espalier.Scope.Basic

set_option autoImplicit false

/-! # Composed computations

Most computations are put together from a few primitive ones. How a computation is composed is
shown once; whatever is true of the primitive computations, and survives sequences and failures,
is then true of it (`Composed.leads`). Questions about a session need no primitive at all, and
all navigation is composed of four hops (`Navigating`). -/

namespace Espalier

variable {ε σ α β : Type}

/-- The computations that are composed of primitive ones. They may read the state and fail. -/
inductive Composed (Primitive : (α : Type) → EStateM ε σ α → Prop) :
    {α : Type} → EStateM ε σ α → Prop
  | primitive {α : Type} {x : EStateM ε σ α} : Primitive α x → Composed Primitive x
  | pure {α : Type} (a : α) : Composed Primitive (pure a)
  | throw {α : Type} (e : ε) : Composed Primitive (throw e : EStateM ε σ α)
  | get : Composed Primitive get
  | bind {α β : Type} {x : EStateM ε σ α} {f : α → EStateM ε σ β} : Composed Primitive x →
      (∀ a, Composed Primitive (f a)) → Composed Primitive (x >>= f)

namespace Composed

variable {Primitive Other : (α : Type) → EStateM ε σ α → Prop}

/-- What the primitive computations are composed of, all are. -/
theorem lift (h : ∀ α (x : EStateM ε σ α), Primitive α x → Composed Other x)
    {x : EStateM ε σ α} (hx : Composed Primitive x) : Composed Other x := by
  induction hx with
  | primitive hx => exact h _ _ hx
  | pure a => exact .pure a
  | throw e => exact .throw e
  | get => exact .get
  | bind _ _ ihx ihf => exact .bind ihx ihf

/-- What primitive computations do to the state, all do. -/
theorem leads {R : σ → σ → Prop} (hrefl : ∀ s, R s s)
    (htrans : ∀ s₁ s₂ s₃, R s₁ s₂ → R s₂ s₃ → R s₁ s₃)
    (h : ∀ α (x : EStateM ε σ α), Primitive α x → Leads R x) {x : EStateM ε σ α}
    (hx : Composed Primitive x) : Leads R x := by
  induction hx with
  | primitive hx => exact h _ _ hx
  | pure a => exact Leads.pure hrefl a
  | throw e => exact Leads.throw hrefl e
  | get => exact Leads.get hrefl
  | bind _ _ ihx ihf => exact Leads.bind htrans ihx ihf

theorem ite {c : Prop} [Decidable c] {x y : EStateM ε σ α} (hx : Composed Primitive x)
    (hy : Composed Primitive y) : Composed Primitive (if c then x else y) := by
  split
  · exact hx
  · exact hy

theorem mapM {f : α → EStateM ε σ β} (l : List α) (hf : ∀ a, Composed Primitive (f a)) :
    Composed Primitive (l.mapM f) := by
  induction l with
  | nil => exact .pure []
  | cons a l ih =>
    rw [List.mapM_cons]
    exact (hf a).bind fun b => ih.bind fun bs => .pure _

theorem foldlM {f : β → α → EStateM ε σ β} (l : List α) (b : β)
    (hf : ∀ b a, Composed Primitive (f b a)) : Composed Primitive (l.foldlM f b) := by
  induction l generalizing b with
  | nil => exact .pure b
  | cons a l ih =>
    rw [List.foldlM_cons]
    exact (hf b a).bind fun b' => ih b'

theorem forM {f : α → EStateM ε σ PUnit} (l : List α) (hf : ∀ a, Composed Primitive (f a)) :
    Composed Primitive (l.forM f) := by
  induction l with
  | nil => exact .pure PUnit.unit
  | cons a l ih => exact (hf a).bind fun _ => ih

/-- A question leaves the state as it is. -/
theorem question_after {x : EStateM ε σ α} (hx : Composed (fun _ _ => False) x) (s : σ) :
    after x s = s :=
  hx.leads (R := fun s s' => s' = s) (fun _ => rfl) (fun _ _ _ h₁ h₂ => h₂.trans h₁)
    (fun _ _ h => h.elim) s

end Composed

theorem question_run {x : EStateM ε σ α} (hx : Composed (fun _ _ => False) x) {s s' : σ} {a : α}
    (h : x s = .ok a s') : s' = s := by
  rw [← after_of_ok h]
  exact hx.question_after s

theorem question_cases {x : EStateM ε σ α} (hx : Composed (fun _ _ => False) x) (s : σ) :
    (∃ e, x s = .error e s) ∨ ∃ a, x s = .ok a s := by
  have hafter := hx.question_after s
  cases h : x s with
  | ok a s' =>
    rw [after_of_ok h] at hafter
    exact .inr ⟨a, by rw [hafter]⟩
  | error e s' =>
    rw [after_of_error h] at hafter
    exact .inl ⟨e, by rw [hafter]⟩

/-! ## Questions -/

open SessionM

namespace Composed

variable {Primitive : (α : Type) → SessionM α → Prop}

theorem found (o : Option α) : Composed Primitive (found o) := by
  cases o with
  | none => exact .throw _
  | some a => exact .pure a

theorem ask (question : Tree → Option α) : Composed Primitive (ask question) :=
  Composed.get.bind fun _ => found _

theorem askBelow (ids : List NodeId) (question : Tree → Option α) :
    Composed Primitive (askBelow ids question) := by
  refine Composed.get.bind fun s => ?_
  split
  · exact .pure _
  · exact .throw _

theorem nextIndex (i : Nat) : Composed Primitive (nextIndex i) := ite (.pure _) (.throw _)

theorem nodeAt (c : Container) (k : Key) : Composed Primitive (nodeAt c k) := by
  unfold Espalier.nodeAt
  split
  · exact Composed.get.bind fun _ => .pure _
  · exact (ask _).bind fun _ => .pure _
  · exact (ask _).bind fun _ => .pure _
  · exact .pure _

theorem listLength (n : NodeId) (f : Field) : Composed Primitive (listLength n f) :=
  (ask _).bind fun _ => .pure _

section Path

variable (p : PathId)

theorem data : Composed Primitive p.data := Composed.get.bind fun _ => found _

theorem node? : Composed Primitive p.node? := (data p).bind fun _ => .pure _

theorem kind? : Composed Primitive p.kind? := by
  refine (node? p).bind fun o => ?_
  cases o with
  | none => exact .pure _
  | some id => exact (ask _).bind fun _ => .pure _

theorem type? : Composed Primitive p.type? := (kind? p).bind fun _ => .pure _

theorem is (type : NodeType) : Composed Primitive (p.is type) := (type? p).bind fun _ => .pure _

theorem isAny (test : NodeType → Bool) : Composed Primitive (p.isAny test) :=
  (type? p).bind fun _ => .pure _

theorem identifierName? : Composed Primitive p.identifierName? := (kind? p).bind fun _ => .pure _

theorem parent? : Composed Primitive p.parent? := (data p).bind fun _ => .pure _

theorem parentType? : Composed Primitive p.parentType? := by
  refine Composed.bind ((data p).bind fun _ => .pure _) fun o => ?_
  cases o with
  | none => exact .pure _
  | some id => exact (ask _).bind fun _ => .pure _

theorem index? : Composed Primitive p.index? := (data p).bind fun _ => .pure _

theorem inList : Composed Primitive p.inList := (data p).bind fun _ => .pure _

theorem isRemoved : Composed Primitive p.isRemoved := (data p).bind fun _ => .pure _

theorem note? (name : String) : Composed Primitive (p.note? name) := (data p).bind fun _ => .pure _

/-! ### On the way up -/

theorem ancestryWithin (fuel : Nat) : Composed Primitive (PathId.ancestryWithin fuel p) := by
  induction fuel generalizing p with
  | zero => exact .throw _
  | succ fuel ih =>
    refine (parent? p).bind fun o => ?_
    cases o with
    | none => exact .pure _
    | some q => exact (ih q).bind fun _ => .pure _

theorem ancestry : Composed Primitive p.ancestry := Composed.get.bind fun _ => ancestryWithin p _

theorem climbWithin {answer : PathId → SessionM (Option α)}
    (ha : ∀ q, Composed Primitive (answer q)) (fuel : Nat) (start : Option PathId) :
    Composed Primitive (PathId.climbWithin answer fuel start) := by
  induction fuel generalizing start with
  | zero =>
    cases start with
    | none => exact .pure _
    | some _ => exact .throw _
  | succ fuel ih =>
    cases start with
    | none => exact .pure _
    | some q =>
      refine (ha q).bind fun o => ?_
      cases o with
      | none => exact (parent? q).bind fun o => ih o
      | some a => exact .pure _

theorem climb {answer : PathId → SessionM (Option α)} (ha : ∀ q, Composed Primitive (answer q))
    (start : Option PathId) : Composed Primitive (PathId.climb start answer) :=
  Composed.get.bind fun _ => climbWithin ha _ _

theorem firstWhere {test : PathId → SessionM Bool} (ht : ∀ q, Composed Primitive (test q))
    (start : Option PathId) : Composed Primitive (PathId.firstWhere start test) :=
  climb (fun q => (ht q).bind fun _ => .pure _) _

theorem findParent? {test : PathId → SessionM Bool} (ht : ∀ q, Composed Primitive (test q)) :
    Composed Primitive (p.findParent? test) := (parent? p).bind fun _ => firstWhere ht _

theorem statementParent : Composed Primitive p.statementParent := by
  refine .bind (firstWhere (fun q => (inList q).bind fun _ => ite (isAny q _) (.pure _)) _)
    fun o => ?_
  cases o with
  | none => exact .throw _
  | some _ => exact .pure _

/-! ### Positions -/

theorem isReferenced : Composed Primitive p.isReferenced := by
  refine (data p).bind fun d => ?_
  split
  · exact (ask _).bind fun _ => .pure _
  · exact .pure _

theorem isReferencedIdentifier : Composed Primitive p.isReferencedIdentifier :=
  (is p _).bind fun _ => ite (isReferenced p) (.pure _)

theorem isStatementOrBlock : Composed Primitive p.isStatementOrBlock :=
  (data p).bind fun _ => (parentType? p).bind fun _ => ite (.pure _) (.pure _)

theorem isForHead : Composed Primitive p.isForHead :=
  (data p).bind fun _ => ite ((parentType? p).bind fun _ => .pure _) (.pure _)

theorem canSwapBody (replacement : NodeId) : Composed Primitive (p.canSwapBody replacement) := by
  refine (data p).bind fun _ => ite (.pure _) ((parentType? p).bind fun _ => ite (.pure _) ?_)
  refine (ask _).bind fun _ => (type? p).bind fun o => ?_
  split
  · exact .pure _
  · exact .pure _
  · exact .pure _

theorem isCompletionRecord (insideFunction : Bool) :
    Composed Primitive (p.isCompletionRecord insideFunction) := by
  refine (climb (fun q => ?_) _).bind fun _ => .pure _
  refine Composed.bind ((data q).bind fun d => ?_) fun _ => ite ((parent? q).bind fun o => ?_)
    (.pure _)
  · split
    · exact (nextIndex _).bind fun _ => (listLength _ _).bind fun _ => .pure _
    · exact .pure _
  · cases o with
    | none => exact .pure _
    | some r => exact (is r _).bind fun _ => ite (.pure _) ((isAny r _).bind fun _ =>
        ite (.pure _) (.pure _))

theorem isScopeBlock : Composed Primitive p.isScopeBlock := by
  refine (type? p).bind fun o => ?_
  split
  · exact .pure _
  · exact (parentType? p).bind fun _ => .pure _
  · exact .pure _

end Path

/-! ### Scopes -/

section Scope

variable (i : ScopeId)

theorem scopeData : Composed Primitive i.data := Composed.get.bind fun _ => found _

theorem chainWithin (fuel : Nat) : Composed Primitive (ScopeId.chainWithin fuel i) := by
  induction fuel generalizing i with
  | zero => exact .throw _
  | succ fuel ih =>
    refine (scopeData i).bind fun sc => ?_
    split
    · exact .pure _
    · next j _ => exact (ih j).bind fun _ => .pure _

theorem chain : Composed Primitive i.chain := Composed.get.bind fun _ => chainWithin i _

theorem programScope : Composed Primitive i.programScope := (chain i).bind fun _ => .pure _

theorem firstFunctionScope (l : List ScopeId) :
    Composed Primitive (ScopeId.firstFunctionScope i l) := by
  induction l generalizing i with
  | nil => exact .pure _
  | cons j l ih => exact (scopeData j).bind fun _ => ite (.pure _) (ih j)

theorem functionScope : Composed Primitive i.functionScope :=
  (chain i).bind fun l => firstFunctionScope i l

theorem firstDeclaring (name : String) (l : List ScopeId) :
    Composed Primitive (ScopeId.firstDeclaring name l) := by
  induction l with
  | nil => exact .pure _
  | cons j l ih => exact (scopeData j).bind fun _ => ite (.pure _) ih

theorem bindingScope? (name : String) : Composed Primitive (i.bindingScope? name) :=
  (chain i).bind fun l => firstDeclaring name l

theorem ownBinding? (name : String) : Composed Primitive (i.ownBinding? name) :=
  (scopeData i).bind fun _ => .pure _

theorem scopeBinding? (name : String) : Composed Primitive (i.binding? name) := by
  refine (bindingScope? i name).bind fun o => ?_
  cases o with
  | none => exact .pure _
  | some owner => exact ownBinding? owner name

theorem scopesCrawled : Composed Primitive scopesCrawled := Composed.get.bind fun _ => .pure _

theorem scopeIds : Composed Primitive scopeIds := Composed.get.bind fun _ => .pure _

end Scope

end Composed

/-! ## Navigation -/

/-- The navigation that all other navigation is composed of. -/
inductive Hop : (α : Type) → SessionM α → Prop
  | root : Hop PathId rootPath
  | detached (parent : Option PathId) : Hop PathId (detachedPath parent)
  | child (p : PathId) (f : Field) : Hop PathId (p.child f)
  | element (p : PathId) (f : Field) (i : Nat) : Hop PathId (p.element f i)

/-- The one computation that every hop ends in: going to the root, nowhere, or to a position below a
path. -/
inductive Landing : (α : Type) → SessionM α → Prop
  | root : Landing PathId (pathFor none .root .root)
  | nowhere (parent : Option PathId) : Landing PathId (pathFor parent .detached .root)
  | slot (p : PathId) (n : NodeId) (f : Field) :
      Landing PathId (pathFor (some p) (.slot n) (.field f))
  | item (p : PathId) (n : NodeId) (f : Field) (i : Nat) :
      Landing PathId (pathFor (some p) (.list n f) (.index i))

/-- A hop asks for the position it leads to, and goes there. -/
theorem Hop.landing {α : Type} {x : SessionM α} (h : Hop α x) : Composed Landing x := by
  cases h with
  | root => exact .primitive .root
  | detached parent => exact .primitive (.nowhere parent)
  | child p f =>
    refine (Composed.node? p).bind fun o => ?_
    cases o with
    | none => exact .primitive (.nowhere (some p))
    | some id =>
      refine (Composed.ask _).bind fun kind => ?_
      split
      · exact .primitive (.slot p id f)
      · exact .primitive (.slot p id f)
      · exact .primitive (.nowhere (some p))
  | element p f i =>
    refine (Composed.node? p).bind fun o => ?_
    cases o with
    | none => exact .primitive (.nowhere (some p))
    | some id =>
      refine (Composed.ask _).bind fun kind => ?_
      split
      · exact .primitive (.item p id f i)
      · exact .primitive (.nowhere (some p))

/-- What landing at a position is made of: paths are made and changed, and noted where they will be
found again. -/
inductive CacheStep : (α : Type) → SessionM α → Prop
  | alloc (d : PathData) : CacheStep PathId (allocPath d)
  | fileUnder (c : Container) (p : PathId) : CacheStep Unit (fileUnder c p)
  | modifyData (p : PathId) (f : PathData → PathData) : CacheStep Unit (p.modifyData f)
  | stray (parent : Option PathId) (p : PathId) :
      CacheStep PUnit (modify fun s => { s with detached := s.detached.insert parent p })

theorem pathFor_caching (parent : Option PathId) (c : Container) (k : Key) :
    Composed CacheStep (pathFor parent c k) := by
  unfold pathFor
  split
  · refine Composed.get.bind fun s => ?_
    split
    · exact (Composed.primitive (.modifyData _ _)).bind fun _ => .pure _
    · exact (Composed.primitive (.alloc _)).bind fun p =>
        (Composed.primitive (.stray parent p)).bind fun _ => .pure _
  · refine (Composed.nodeAt c k).bind fun _ => Composed.get.bind fun s => ?_
    split
    · exact (Composed.primitive (.modifyData _ _)).bind fun _ => .pure _
    · exact (Composed.primitive (.alloc _)).bind fun p =>
        (Composed.primitive (.fileUnder c p)).bind fun _ => .pure _

theorem Hop.caching {α : Type} {x : SessionM α} (h : Hop α x) : Composed CacheStep x := by
  refine h.landing.lift fun _ _ landing => ?_
  cases landing with
  | root => exact pathFor_caching none .root .root
  | nowhere parent => exact pathFor_caching parent .detached .root
  | slot p n f => exact pathFor_caching (some p) (.slot n) (.field f)
  | item p n f i => exact pathFor_caching (some p) (.list n f) (.index i)

/-- The computation goes from path to path, and asks questions on the way. -/
abbrev Navigating {α : Type} (x : SessionM α) : Prop := Composed Hop x

namespace Navigating

/-- Navigation does not touch the scopes. -/
theorem scopes {α : Type} {x : SessionM α} (hx : Navigating x) :
    Leads (fun s s' => s'.scopes = s.scopes) x := by
  have htrans : ∀ s₁ s₂ s₃ : Session, s₂.scopes = s₁.scopes → s₃.scopes = s₂.scopes →
      s₃.scopes = s₁.scopes := fun _ _ _ h₁ h₂ => h₂.trans h₁
  have hrefl : ∀ s : Session, s.scopes = s.scopes := fun _ => rfl
  refine Composed.leads hrefl htrans (fun _ _ hop => ?_) hx
  refine Composed.leads hrefl htrans (fun _ _ step => ?_) hop.caching
  cases step with
  | alloc d => exact fun s => rfl
  | fileUnder c p => exact fun s => rfl
  | modifyData p f =>
    refine Leads.bind htrans (fun s => ?_) fun _ s => rfl
    rw [Composed.question_after (.data p)]
  | stray parent p => exact fun s => rfl

theorem rootPath : Navigating rootPath := .primitive .root

theorem detachedPath (parent : Option PathId) : Navigating (detachedPath parent) :=
  .primitive (.detached parent)

variable (p : PathId)

theorem child (f : Field) : Navigating (p.child f) := .primitive (.child p f)

theorem element (f : Field) (i : Nat) : Navigating (p.element f i) := .primitive (.element p f i)

theorem elements (f : Field) : Navigating (p.elements f) := by
  refine (Composed.node? p).bind fun o => ?_
  cases o with
  | none => exact .pure _
  | some id => exact (Composed.listLength id f).bind fun _ => .mapM _ (element p f)

theorem inField (f : Field) : Navigating (p.inField f) := by
  refine (Composed.kind? p).bind fun o => ?_
  cases o with
  | none => exact .pure _
  | some k =>
    have hone : Navigating (do pure [← p.child f]) := (child p f).bind fun _ => .pure _
    dsimp only
    split
    · exact elements p f
    · exact hone
    · exact hone
    · exact .pure _

/-! ### Relatives -/

theorem sibling (i : Nat) : Navigating (p.sibling i) := by
  refine (Composed.data p).bind fun d => ?_
  split
  · exact element _ _ _
  · exact detachedPath _

theorem prevSibling : Navigating p.prevSibling := by
  refine (Composed.index? p).bind fun o => ?_
  split
  · exact sibling p _
  · exact (Composed.parent? p).bind fun _ => detachedPath _

theorem nextSibling : Navigating p.nextSibling := by
  refine (Composed.index? p).bind fun o => ?_
  split
  · exact (Composed.nextIndex _).bind fun _ => sibling p _
  · exact (Composed.parent? p).bind fun _ => detachedPath _

theorem siblingsFrom (fuel i : Nat) : Navigating (p.siblingsFrom fuel i) := by
  induction fuel generalizing i with
  | zero => exact .throw _
  | succ fuel ih =>
    refine (sibling p i).bind fun q => (Composed.node? q).bind fun o => ?_
    cases o with
    | none => exact .pure _
    | some _ => exact (ih (i + 1)).bind fun _ => .pure _

theorem nextSiblings : Navigating p.nextSiblings := by
  refine (Composed.index? p).bind fun o => ?_
  cases o with
  | none => exact .pure _
  | some i =>
    exact Composed.get.bind fun _ => (Composed.nextIndex i).bind fun _ => siblingsFrom p _ _

theorem prevSiblings : Navigating p.prevSiblings := by
  refine (Composed.index? p).bind fun o => ?_
  cases o with
  | none => exact .pure _
  | some i => exact .mapM _ (sibling p)

theorem opposite? : Navigating p.opposite? := by
  refine (Composed.data p).bind fun d => ?_
  dsimp only
  split
  · exact (child _ _).bind fun _ => .pure _
  · exact .pure _

theorem completionsWithin (fuel : Nat) : Navigating (PathId.completionsWithin fuel p) := by
  induction fuel generalizing p with
  | zero => exact .throw _
  | succ fuel ih =>
    have hthrough : ∀ fields : List Field, Navigating (do
        let lists ← fields.mapM fun f => do PathId.completionsWithin fuel (← p.child f)
        pure lists.flatten) := fun fields =>
      (Composed.mapM _ fun f => (child p f).bind fun q => ih q).bind fun _ => .pure _
    refine (Composed.type? p).bind fun o => ?_
    split
    · exact .pure _
    · exact hthrough _
    · exact hthrough _
    iterate 2
      · refine (elements p .body).bind fun ps => ?_
        split
        · exact ih _
        · exact .pure _
    · exact .ite (hthrough _) (.pure _)

theorem follow (pattern : String) : Navigating (p.follow pattern) := by
  refine (Composed.foldlM _ _ fun c part => ?_).bind fun c => ?_
  · unfold PathId.Cursor.step
    cases c.list with
    | some f =>
      refine (Composed.type? c.path).bind fun o => ?_
      cases o with
      | none => exact .throw _
      | some type =>
        dsimp only
        split
        · exact .throw _
        · exact (element c.path f _).bind fun _ => .pure _
    | none =>
      refine .ite ((Composed.parent? c.path).bind fun o => ?_)
        ((Composed.kind? c.path).bind fun o => ?_)
      · cases o with
        | none => exact (detachedPath none).bind fun _ => .pure _
        | some q => exact .pure _
      · cases o with
        | none => exact .throw _
        | some k =>
          dsimp only
          split
          · exact .throw _
          · split
            · exact .pure _
            · exact (child c.path _).bind fun _ => .pure _
            · exact .throw _
  · split
    · exact .pure _
    · refine (Composed.type? c.path).bind fun o => ?_
      cases o with
      | none => exact .throw _
      | some _ => exact .throw _

/-! ### Binding identifiers -/

theorem bindingTargets (outerOnly : Bool) (type : NodeType) :
    Navigating (p.bindingTargets outerOnly type) := by
  refine .ite ((child p .declaration).bind fun q => (Composed.isAny q _).bind fun _ => .pure _) ?_
  refine .ite ((child p .id).bind fun _ => .pure _) (.ite (.pure _) ?_)
  exact (Composed.mapM _ (inField p)).bind fun _ => .pure _

theorem bindingLevel (keepAll outerOnly : Bool) (ps : List PathId)
    (found : Table String (List PathId)) :
    Navigating (PathId.bindingLevel keepAll outerOnly ps found) := by
  induction ps generalizing found with
  | nil => exact .pure _
  | cons p ps ih =>
    refine (Composed.kind? p).bind fun o => ?_
    split
    · exact ih found
    · exact ih _
    · exact (bindingTargets p outerOnly _).bind fun _ => (ih found).bind fun _ => .pure _

theorem bindingSearch (keepAll outerOnly : Bool) (fuel : Nat) (ps : List PathId)
    (found : Table String (List PathId)) :
    Navigating (PathId.bindingSearch keepAll outerOnly fuel ps found) := by
  induction fuel generalizing ps found with
  | zero => exact .throw _
  | succ fuel ih =>
    exact .ite (.pure _) ((bindingLevel keepAll outerOnly ps found).bind fun r => ih r.2 r.1)

theorem completionRecords : Navigating p.completionRecords :=
  Composed.get.bind fun _ => completionsWithin p _

theorem bindingIdentifierPaths (keepAll outerOnly : Bool) :
    Navigating (p.bindingIdentifierPaths keepAll outerOnly) :=
  Composed.get.bind fun _ => bindingSearch keepAll outerOnly _ _ _

end Navigating

end Espalier
