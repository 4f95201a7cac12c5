import Espalier.Proofs.Ascents
import Espalier.Proofs.Constants

set_option autoImplicit false

/-! # Searches for what an expression stands for

To find what an expression stands for, a session goes on from path to path, and from none twice. The
paths it goes on from hold nodes of the tree, all different, and a search may be as long as there are
positions for nodes. So it ends, whichever variables are defined by each other
(`PathId.resolve_returns`). This holds of every tree with a program at its root, though in one that
cannot be written down scopes may still be built on the way. -/

namespace Espalier

open SessionM Session

variable {α β : Type}

/-! ## Sessions whose scopes are built -/

namespace Session

/-- The scopes of the program are built, though perhaps not for every block. No number is out of
range, and paths with a position are filed. -/
structure Surveyed (s : Session) : Prop extends Orderly s s.tree.reachable where
  crawled : s.scopes.crawled = true
  closed : s.Closed
  shelved : s.Shelved

theorem Surveyed.walkable {s : Session} (h : s.Surveyed) : s.Walkable :=
  ⟨h.sound, h.closed, h.shelved⟩

/-- Where the scopes of an orderly session are built, questions leave the tree as it is and the
session orderly. -/
def Browses (s s' : Session) : Prop := s.Orderly s.tree.reachable → s.scopes.crawled = true →
  s'.tree = s.tree ∧ s'.Orderly s.tree.reachable ∧ s'.scopes.crawled = true

theorem Browses.trans (s₁ s₂ s₃ : Session) (h : s₁.Browses s₂) (h' : s₂.Browses s₃) :
    s₁.Browses s₃ := by
  intro horderly hcrawled
  obtain ⟨htree, horderly₂, hcrawled₂⟩ := h horderly hcrawled
  obtain ⟨htree', horderly₃, hcrawled₃⟩ := h' (htree ▸ horderly₂) hcrawled₂
  exact ⟨htree'.trans htree, htree ▸ horderly₃, hcrawled₃⟩

theorem Surveys.browses {s s' : Session} (h : s.Surveys s.tree.reachable s') : s.Browses s' :=
  fun horderly hcrawled =>
    ⟨h.tree, horderly.surveys h, h.widened.crawled.trans hcrawled⟩

/-- In an orderly session whose scopes are built every name is looked up. -/
theorem Orderly.lookup_returns {s : Session} {p : PathId} {x : String}
    (h : s.Orderly s.tree.reachable) (hcrawled : s.scopes.crawled = true)
    (hname : p.identifierName? s = .ok (some x) s) :
    Returns p.binding? s fun _ s' => s.Surveys s.tree.reachable s' := by
  obtain ⟨n, hp⟩ := PathId.holds_of_name hname
  unfold PathId.binding?
  refine returns_bind_of_ok hname ?_
  refine (PathId.scope_returns h.sound h.ordered h.program.root hcrawled hp
    (h.sound.mem_of_holds hp)).bind fun i s₁ hi => ?_
  obtain ⟨o, hrun, -⟩ := ScopeId.binding?_run hi.1.ordered hi.2 x
  exact ⟨o, s₁, hrun, hi.1⟩

end Session

theorem Inferring.browses {x : SessionM α} (hx : Inferring x) : Leads Session.Browses x := by
  refine hx.leads (fun s horderly hcrawled => ⟨rfl, horderly, hcrawled⟩) Browses.trans
    fun _ _ step => ?_
  cases step with
  | answer p type =>
    intro s horderly hcrawled
    cases hd : s.paths[p.index]? with
    | none =>
      rw [after_of_error (show p.modifyData _ s = _ from bind_of_error (p.data_unknown hd))]
      exact ⟨rfl, horderly, hcrawled⟩
    | some d =>
      rw [after_of_ok (p.modifyData_run hd _)]
      exact ⟨rfl, ⟨horderly.sound.answer p type, horderly.ordered, horderly.program⟩, hcrawled⟩
  | glance glance =>
    cases glance with
    | hop hop =>
      intro s horderly
      have hwent := Navigating.roaming (.primitive hop) s _ horderly.sound
      exact (hwent.surveys horderly.ordered).browses horderly
    | lookup p =>
      intro s horderly hcrawled
      rcases question_cases (Composed.identifierName? p) s with ⟨e, he⟩ | ⟨o, ho⟩
      · rw [after_of_error (show p.binding? s = _ from bind_of_error he)]
        exact ⟨rfl, horderly, hcrawled⟩
      · cases o with
        | none =>
          rw [after_of_ok (show p.binding? s = .ok none s from bind_of_ok ho)]
          exact ⟨rfl, horderly, hcrawled⟩
        | some x =>
          obtain ⟨b, s', hrun, hs'⟩ := horderly.lookup_returns hcrawled ho
          rw [after_of_ok hrun]
          exact hs'.browses horderly hcrawled

namespace Session

/-- Nothing is asked of a program but in a session whose scopes are built. -/
theorem Consulted.surveyed {t : Tree} {s : Session} (h : s.Consulted t) (ht : t.IsProgram)
    (hclosed : t.Closed) : s.Surveyed ∧ s.tree = t := by
  obtain ⟨hclosed', hshelved⟩ := h.filed hclosed
  suffices hs : s.tree = t ∧ s.Orderly t.reachable ∧ s.scopes.crawled = true by
    obtain ⟨rfl, horderly, hcrawled⟩ := hs
    exact ⟨⟨horderly, hcrawled, hclosed', hshelved⟩, rfl⟩
  clear hclosed' hshelved
  induction h with
  | @crawled config s₀ s hopen hrun =>
    have hprudent := Prudent.opened ht hopen
    obtain ⟨hupright, hcrawled, htree, -⟩ := after_ensureScopes hprudent.upright
    rw [after_of_ok hrun] at hupright hcrawled htree
    obtain ⟨s₀', hopen', htree₀, -⟩ := open?_orderly ht config
    obtain rfl := Except.ok.inj (hopen.symm.trans hopen')
    exact ⟨htree.trans htree₀, hupright.toOrderly, hcrawled⟩
  | asked hx _ _ ih =>
    obtain ⟨rfl, horderly, hcrawled⟩ := ih
    exact hx.browses _ horderly hcrawled

end Session

/-! ## Searches that end -/

/-- Where the computation fails, a number is out of range. -/
def Prompt (x : SessionM α) : Prop := ∀ s e s', x s = .error e s' → e = .dangling

namespace Prompt

theorem pure (a : α) : Prompt (pure a : SessionM α) := fun _ _ _ h => by cases h

theorem get : Prompt (get : SessionM Session) := fun _ _ _ h => by cases h

theorem modify (f : Session → Session) : Prompt (modify f : SessionM PUnit) :=
  fun _ _ _ h => by cases h

theorem bind {x : SessionM α} {f : α → SessionM β} (hx : Prompt x) (hf : ∀ a, Prompt (f a)) :
    Prompt (x >>= f) := by
  intro s e s' h
  cases hrun : x s with
  | ok a s₁ =>
    rw [bind_of_ok hrun] at h
    exact hf a s₁ e s' h
  | error e₁ s₁ =>
    rw [bind_of_error hrun] at h
    obtain ⟨rfl, -⟩ := EStateM.Result.error.inj h
    exact hx s e₁ s₁ hrun

theorem ite {c : Prop} [Decidable c] {x y : SessionM α} (hx : Prompt x) (hy : Prompt y) :
    Prompt (if c then x else y) := by
  split
  · exact hx
  · exact hy

theorem mapM (l : List α) {f : α → SessionM β} (hf : ∀ a, Prompt (f a)) : Prompt (l.mapM f) := by
  induction l with
  | nil => exact pure []
  | cons a l ih =>
    rw [List.mapM_cons]
    exact (hf a).bind fun _ => ih.bind fun _ => pure _

theorem found (o : Option α) : Prompt (found o) := by
  cases o with
  | none => exact fun _ _ _ h => (EStateM.Result.error.inj h).1.symm
  | some a => exact pure a

theorem ask (question : Tree → Option α) : Prompt (ask question) := get.bind fun _ => found _

section Path

variable (p : PathId)

theorem data : Prompt p.data := get.bind fun _ => found _

theorem modifyData (f : PathData → PathData) : Prompt (p.modifyData f) :=
  (data p).bind fun _ => modify _

theorem node? : Prompt p.node? := (data p).bind fun _ => pure _

theorem kind? : Prompt p.kind? := by
  refine (node? p).bind fun o => ?_
  cases o with
  | none => exact pure _
  | some id => exact (ask _).bind fun _ => pure _

theorem type? : Prompt p.type? := (kind? p).bind fun _ => pure _

theorem is (type : NodeType) : Prompt (p.is type) := (type? p).bind fun _ => pure _

theorem isReferencedIdentifier : Prompt p.isReferencedIdentifier := by
  refine (is p _).bind fun _ => ite ((data p).bind fun d => ?_) (pure _)
  split
  · exact (ask _).bind fun _ => pure _
  · exact pure _

end Path

theorem nodeAt (c : Container) (k : Key) : Prompt (nodeAt c k) := by
  unfold Espalier.nodeAt
  split
  · exact get.bind fun _ => pure _
  · exact (ask _).bind fun _ => pure _
  · exact (ask _).bind fun _ => pure _
  · exact pure _

theorem listLength (parent : NodeId) (f : Field) : Prompt (listLength parent f) :=
  (ask _).bind fun _ => pure _

theorem allocPath (d : PathData) : Prompt (allocPath d) :=
  get.bind fun _ => bind (fun _ _ _ h => by cases h) fun _ => pure _

theorem pathFor (parent : Option PathId) (c : Container) (k : Key) : Prompt (pathFor parent c k) := by
  unfold Espalier.pathFor
  refine ite ?_ ((nodeAt c k).bind fun node => get.bind fun s => ?_)
  · refine get.bind fun s => ?_
    split
    · exact (modifyData _ _).bind fun _ => pure _
    · exact (allocPath _).bind fun _ => (modify _).bind fun _ => pure _
  · split
    · exact (modifyData _ _).bind fun _ => pure _
    · exact (allocPath _).bind fun _ => (modify _).bind fun _ => pure _

theorem detachedPath (parent : Option PathId) : Prompt (detachedPath parent) :=
  pathFor parent .detached .root

section Path

variable (p : PathId) (f : Field)

theorem child : Prompt (p.child f) := by
  refine (node? p).bind fun o => ?_
  cases o with
  | none => exact detachedPath _
  | some id =>
    refine (ask _).bind fun k => ?_
    split
    · exact pathFor _ _ _
    · exact pathFor _ _ _
    · exact detachedPath _

theorem element (i : Nat) : Prompt (p.element f i) := by
  refine (node? p).bind fun o => ?_
  cases o with
  | none => exact detachedPath _
  | some id =>
    refine (ask _).bind fun k => ?_
    split
    · exact pathFor _ _ _
    · exact detachedPath _

theorem elements : Prompt (p.elements f) := by
  refine (node? p).bind fun o => ?_
  cases o with
  | none => exact pure _
  | some id => exact (listLength id f).bind fun _ => mapM _ fun i => element p f i

end Path

theorem lastProperty? (key : String) (l : List PathId) : Prompt (PathId.lastProperty? key l) := by
  induction l with
  | nil => exact pure _
  | cons q l ih =>
    refine Prompt.bind ih fun o => ?_
    cases o with
    | some found => exact pure _
    | none =>
      refine (kind? q).bind fun k => ?_
      split
      · exact (ask _).bind fun _ => pure _
      · exact pure _

/-- A prompt and careful computation has a result. -/
theorem exists_ok [Names α] {x : SessionM α} {s : Session} (hx : Prompt x) (hc : Careful x s)
    (hs : s.Closed) : ∃ a s', x s = .ok a s' := by
  have hends := hc hs
  cases hrun : x s with
  | ok a s' => exact ⟨a, s', rfl⟩
  | error e s' =>
    rw [hrun] at hends
    exact absurd (hx s e s' hrun) hends.2.2

end Prompt

/-! ### As many paths as there are nodes -/

/-- The positions that are counted are at least as many as the nodes below the nodes. -/
theorem Tree.length_le_positionCount {t : Tree} {l : List NodeId} (hl : l.Nodup)
    (hreach : ∀ n ∈ l, t.Reachable n) : l.length ≤ t.positionCount := by
  have hfields : ∀ (es : List (Field × Child)) (n : Nat),
      n + (es.flatMap fun e => e.2.ids).length ≤ es.foldl (fun n e => n + 1 + e.2.ids.length) n := by
    intro es
    induction es with
    | nil => intro n; simp
    | cons e es ih =>
      intro n
      have h := ih (n + 1 + e.2.ids.length)
      simp only [List.flatMap_cons, List.length_append, List.foldl_cons]
      omega
  have hnodes : ∀ (ns : List Node) (n : Nat), n + (ns.flatMap fun node => node.kind.children).length ≤
      ns.foldl (fun n node => node.kind.fields.foldl (fun n e => n + 1 + e.2.ids.length) n) n := by
    intro ns
    induction ns with
    | nil => intro n; simp
    | cons node ns ih =>
      intro n
      have h := hfields node.kind.fields n
      have h' := ih (node.kind.fields.foldl (fun n e => n + 1 + e.2.ids.length) n)
      have hchildren : node.kind.children = node.kind.fields.flatMap fun e => e.2.ids := rfl
      rw [List.flatMap_cons, List.length_append, List.foldl_cons, hchildren]
      omega
  have hsub : l ⊆ t.root.toList ++ t.nodes.toList.flatMap fun node => node.kind.children := by
    intro n hn
    rw [List.mem_append]
    cases hreach n hn with
    | root hr => exact .inl (Option.mem_toList.mpr hr)
    | @child m n hm hc =>
      obtain ⟨k, hk, hmem⟩ := (t.isChild_iff m n).mp hc
      obtain ⟨node, hnode, rfl⟩ := Option.map_eq_some_iff.mp hk
      exact .inr (List.mem_flatMap.mpr
        ⟨node, Array.mem_toList_iff.mpr (Array.mem_of_getElem? hnode), hmem⟩)
  have hroot : t.root.toList.length ≤ 1 := by cases t.root <;> simp
  have hlength := (hl.subperm hsub).length_le
  have hcount := hnodes t.nodes.toList 1
  rw [List.length_append] at hlength
  rw [Tree.positionCount, ← Array.foldl_toList]
  omega

/-! ### The search -/

namespace PathId

/-- What a path stands for that was not followed before. -/
def resolveAnew (inner : PathId → ResolveM (Option PathId)) (dangerous : Bool) (p : PathId) :
    ResolveM (Option PathId) := do
  match ← p.kind? with
  | some (.variableDeclarator ..) => resolveDeclarator inner p
  | some (.identifier ..) =>
    if ← p.isReferencedIdentifier then resolveIdentifier inner p else pure none
  | some (.typeCastExpression ..) => do
    let expression ← p.child .expression
    pure (some (← resolveOrSelf inner expression))
  | some (.memberExpression _ property computed) =>
    if dangerous then resolveMember inner p property computed else pure none
  | _ => pure none

section Run

variable {dangerous : Bool} {fuel : Nat} {p : PathId} {seen : List PathId} {s : Session}

theorem resolveWithin_run_of_mem (h : p ∈ seen) :
    (resolveWithin dangerous (fuel + 1) p).run seen s = .ok (none, seen) s := by
  unfold resolveWithin
  show (if p ∈ seen then pure none else _ : ResolveM (Option PathId)).run seen s = _
  rw [if_pos h]
  rfl

theorem resolveWithin_run_of_not_mem (h : p ∉ seen) :
    (resolveWithin dangerous (fuel + 1) p).run seen s =
      (resolveAnew (resolveWithin dangerous fuel) dangerous p).run (p :: seen) s := by
  rw [resolveWithin]
  show (if p ∈ seen then pure none else _ : ResolveM (Option PathId)).run seen s = _
  rw [if_neg h]
  rfl

end Run

end PathId

namespace Session

/-- The session after a part of a search: the tree is the same, more paths may be known, and paths
hold what they held. -/
structure Pursued (s s' : Session) : Prop where
  surveyed : s'.Surveyed
  tree : s'.tree = s.tree
  grown : s.Extends s'
  holds : ∀ p n, s.Holds p n → s'.Holds p n

theorem Pursued.refl {s : Session} (h : s.Surveyed) : s.Pursued s :=
  ⟨h, rfl, .refl s, fun _ _ hp => hp⟩

theorem Pursued.trans {s s₁ s₂ : Session} (h₁ : s.Pursued s₁) (h₂ : s₁.Pursued s₂) :
    s.Pursued s₂ :=
  ⟨h₂.surveyed, h₂.tree.trans h₁.tree, h₁.grown.trans h₂.grown,
    fun p n hp => h₂.holds p n (h₁.holds p n hp)⟩

/-- A search that succeeds leaves such a session. -/
theorem Surveyed.search [Names α] {s s' : Session} {x : SessionM α} {a : α} (h : s.Surveyed)
    (hx : Searching x) (hc : Careful x s) (hrun : x s = .ok a s') : s.Pursued s' ∧ s'.Knows a := by
  have hends := hc h.closed
  rw [hrun] at hends
  have hsurveys := hx.surveying s s' _ a h.toOrderly h.crawled hrun
  obtain ⟨htree, horderly, hcrawled⟩ := hsurveys.browses h.toOrderly h.crawled
  rw [← htree] at horderly
  exact ⟨⟨⟨horderly, hcrawled, hends.2.1, (Shelves.inferring hx.inferring).of_ok hrun h.shelved⟩,
    htree, hends.1, fun p n hp => hsurveys.grew.holds h.sound hp⟩, hends.2.2⟩

/-- Each of the nodes is held by one of the paths. -/
def Covered (s : Session) (ns : List NodeId) (seen : List PathId) : Prop :=
  ∀ n ∈ ns, ∃ q ∈ seen, s.Holds q n

end Session

/-- A search that remembers paths with the given nodes has a result, and remembers them still. -/
def Pursuing [Names α] (ns : List NodeId) (x : ResolveM α) (s : Session) : Prop :=
  ∀ seen, s.Surveyed → s.Covered ns seen → ∃ a seen' s', x.run seen s = .ok (a, seen') s' ∧
    s.Pursued s' ∧ s'.Knows a ∧ s'.Covered ns seen'

namespace Pursuing

variable {s : Session} {ns : List NodeId}

section Combine

variable [Names α] [Names β]

theorem pure {a : α} (ha : s.Knows a) : Pursuing ns (pure a : ResolveM α) s :=
  fun seen hs hseen => ⟨a, seen, s, rfl, .refl hs, ha, hseen⟩

theorem bind {x : ResolveM α} {f : α → ResolveM β} (hx : Pursuing ns x s)
    (hf : ∀ a s', s.Pursued s' → s'.Knows a → Pursuing ns (f a) s') : Pursuing ns (x >>= f) s := by
  intro seen hs hseen
  obtain ⟨a, seen₁, s₁, hrun, h₁, ha, hseen₁⟩ := hx seen hs hseen
  obtain ⟨b, seen₂, s₂, hrun', h₂, hb, hseen₂⟩ := hf a s₁ h₁ ha seen₁ h₁.surveyed hseen₁
  exact ⟨b, seen₂, s₂, (Memory.run_of_run hrun).trans hrun', h₁.trans h₂, hb, hseen₂⟩

/-- A search without a memory that has a result. -/
theorem lift {x : SessionM α} (hx : Searching x) (hc : Careful x s)
    (hrun : s.Surveyed → ∃ a s', x s = .ok a s') : Pursuing ns (liftM x : ResolveM α) s := by
  intro seen hs hseen
  obtain ⟨a, s', hrun⟩ := hrun hs
  obtain ⟨h, ha⟩ := hs.search hx hc hrun
  refine ⟨a, seen, s', ?_, h, ha, fun n hn => ?_⟩
  · show (x >>= fun a => Pure.pure (a, seen)) s = _
    rw [bind_of_ok hrun]
    rfl
  · obtain ⟨q, hq, hheld⟩ := hseen n hn
    exact ⟨q, hq, h.holds q n hheld⟩

/-- The same for a computation that is prompt. -/
theorem go {x : SessionM α} (hx : Navigating x) (hc : Careful x s) (hprompt : Prompt x) :
    Pursuing ns (liftM x : ResolveM α) s :=
  lift hx.searching hc fun hs => hprompt.exists_ok hc hs.closed

theorem ite {c : Prop} [Decidable c] {x y : ResolveM α} (hx : c → Pursuing ns x s)
    (hy : ¬c → Pursuing ns y s) : Pursuing ns (if c then x else y) s := by
  split
  · next h => exact hx h
  · next h => exact hy h

end Combine

section Inner

variable {inner : PathId → ResolveM (Option PathId)}
  (hinner : ∀ q s', s.Pursued s' → s'.Knows q → Pursuing ns (inner q) s') {p : PathId}

include hinner

theorem resolveOrSelf {s₁ : Session} (h₁ : s.Pursued s₁) (hp : s₁.Knows p) :
    Pursuing ns (PathId.resolveOrSelf inner p) s₁ := by
  refine (hinner p s₁ h₁ hp).bind fun o s₂ h₂ ho => pure ?_
  cases o with
  | none => exact h₂.grown.knows hp
  | some q => exact Session.knows_some.mp ho

/-- The same, as an answer that there is. -/
theorem resolveSome {s₁ : Session} (h₁ : s.Pursued s₁) (hp : s₁.Knows p) :
    Pursuing ns (do Pure.pure (some (← PathId.resolveOrSelf inner p))) s₁ :=
  (resolveOrSelf hinner h₁ hp).bind fun _ _ _ hq => pure (Session.knows_some.mpr hq)

theorem resolveDeclarator (hp : s.Knows p) : Pursuing ns (PathId.resolveDeclarator inner p) s := by
  refine (go (.child p .id) (.child hp .id) (.child p .id)).bind fun id s₁ h₁ hid => ?_
  refine (go (.is id _) (Reads.is hid _).careful (.is id _)).bind fun _ s₂ h₂ _ => ?_
  refine ite (fun _ => ?_) fun _ => pure Session.knows_none
  have hp₂ := h₂.grown.knows (h₁.grown.knows hp)
  exact (go (.child p .init) (.child hp₂ .init) (.child p .init)).bind fun init s₃ h₃ hinit =>
    resolveSome hinner ((h₁.trans h₂).trans h₃) hinit

theorem resolveIdentifier (hp : s.Knows p) : Pursuing ns (PathId.resolveIdentifier inner p) s := by
  refine (lift (.binding? p) (.binding? hp) fun hs => ?_).bind fun o s₁ h₁ ho => ?_
  · obtain ⟨o, ho, -⟩ := Replies.identifierName? hs.closed hp
    cases o with
    | none => exact ⟨none, s, bind_of_ok ho⟩
    | some x =>
      obtain ⟨o, s', hrun, -⟩ := hs.lookup_returns hs.crawled ho
      exact ⟨o, s', hrun⟩
  cases o with
  | none => exact pure Session.knows_none
  | some binding =>
    have hbinding := Session.knows_some.mp ho
    refine ite (fun _ => pure Session.knows_none) fun _ => ?_
    refine (resolveOrSelf hinner h₁ hbinding.2.2.1).bind fun target s₂ h₂ htarget => ?_
    refine (go (.node? target) (Reads.node? htarget).careful (.node? target)).bind
      fun node s₃ h₃ _ => ?_
    have hp₃ := h₃.grown.knows (h₂.grown.knows (h₁.grown.knows hp))
    refine (lift (x := p.find? fun q => do Pure.pure ((← q.node?) == node))
      (Composed.firstWhere (fun q => (Composed.node? q).bind fun _ => .pure _) _)
      (Reads.find? hp₃ fun q hq => (Reads.node? hq).bind fun _ _ => .pure trivial).careful
      fun hs => ?_).bind fun o s₄ h₄ _ => pure ?_
    · have hfind : s₃.Replies (p.find? fun q => do Pure.pure ((← q.node?) == node)) :=
        .find? hs.walkable hp₃ fun q hq => (Replies.node? hs.closed hq).bind fun _ _ => .pure trivial
      obtain ⟨o, ho, -⟩ := hfind
      exact ⟨o, s₃, ho⟩
    · cases o.isSome with
      | true => exact Session.knows_none
      | false => exact Session.knows_some.mpr (h₄.grown.knows (h₃.grown.knows htarget))

theorem resolveAccess {s₁ : Session} (h₁ : s.Pursued s₁) (hp : s₁.Knows p) (key : String) :
    Pursuing ns (PathId.resolveAccess inner p key) s₁ := by
  refine (go (.type? p) (Reads.type? hp).careful (.type? p)).bind fun o s₂ h₂ _ => ?_
  have hp₂ := h₂.grown.knows hp
  split
  · refine (go (.elements p _) (.elements hp₂ .properties) (.elements p _)).bind
      fun l s₃ h₃ hl => ?_
    refine (go (.lastProperty? key l) (Mindful.lastProperty? key hl).careful
      (.lastProperty? key l)).bind fun o s₄ h₄ ho => ?_
    cases o with
    | none => exact pure Session.knows_none
    | some q =>
      exact (go (.child q .value) (.child (Session.knows_some.mp ho) .value) (.child q .value)).bind
        fun r s₅ h₅ hr => resolveSome hinner ((((h₁.trans h₂).trans h₃).trans h₄).trans h₅) hr
  · split
    · exact pure Session.knows_none
    · refine (go (.element p _ _) (.element hp₂ .elements _) (.element p _ _)).bind
        fun q s₃ h₃ hq => ?_
      refine (go (.node? q) (Reads.node? hq).careful (.node? q)).bind fun o s₄ h₄ _ => ?_
      cases o with
      | none => exact pure Session.knows_none
      | some _ =>
        exact resolveSome hinner (((h₁.trans h₂).trans h₃).trans h₄) (h₄.grown.knows hq)
  · exact pure Session.knows_none

theorem resolveMember (hp : s.Knows p) {property : NodeId} (hproperty : s.Knows property)
    (computed : Bool) : Pursuing ns (PathId.resolveMember inner p property computed) s := by
  refine (go (.ask _) (Reads.type hproperty).careful (.ask _)).bind fun _ s₁ h₁ _ => ?_
  refine ite (fun _ => pure Session.knows_none) fun _ => ?_
  have hname : Reads (SessionM.ask fun t => t.staticKey? property computed) s₁ := by
    refine .ask fun hs => ?_
    obtain ⟨k, hk, -⟩ := hs.exists_kind (h₁.grown.knows hproperty)
    exact ⟨_, by simp only [Tree.staticKey?, hk]; rfl, fun _ _ => trivial⟩
  refine (go (.ask _) hname.careful (.ask _)).bind fun o s₂ h₂ _ => ?_
  cases o with
  | none => exact pure Session.knows_none
  | some key =>
    have h₂ := h₁.trans h₂
    refine (go (.child p .object) (.child (h₂.grown.knows hp) .object) (.child p .object)).bind
      fun q s₃ h₃ hq => ?_
    refine (resolveOrSelf hinner (h₂.trans h₃) hq).bind fun r s₄ h₄ hr => ?_
    exact resolveAccess hinner ((h₂.trans h₃).trans h₄) hr key

end Inner

/-- What is found among more nodes is found among fewer. -/
theorem forget [Names α] {x : ResolveM α} {n : NodeId} {seen : List PathId} (hs : s.Surveyed)
    (hseen : s.Covered (n :: ns) seen) (hx : Pursuing (n :: ns) x s) :
    ∃ a seen' s', x.run seen s = .ok (a, seen') s' ∧ s.Pursued s' ∧ s'.Knows a ∧
      s'.Covered ns seen' := by
  obtain ⟨a, seen', s', hrun, h, ha, hseen'⟩ := hx seen hs hseen
  exact ⟨a, seen', s', hrun, h, ha, fun m hm => hseen' m (List.mem_cons_of_mem n hm)⟩

/-- If more paths may be followed in a row than there are positions that were not met, the search has
a result. -/
theorem resolveWithin (dangerous : Bool) {fuel : Nat} {p : PathId} (hp : s.Knows p)
    (hns : ns.Nodup) (hreach : ∀ n ∈ ns, s.tree.Reachable n)
    (hfuel : s.tree.positionCount < fuel + ns.length) :
    Pursuing ns (PathId.resolveWithin dangerous fuel p) s := by
  induction fuel generalizing ns p s with
  | zero =>
    have hle := Tree.length_le_positionCount hns hreach
    omega
  | succ fuel ih =>
    intro seen hs hseen
    by_cases hmem : p ∈ seen
    · exact ⟨none, seen, s, PathId.resolveWithin_run_of_mem hmem, .refl hs, Session.knows_none, hseen⟩
    rw [PathId.resolveWithin_run_of_not_mem hmem]
    obtain ⟨d, hd⟩ := exists_data hp
    cases hnode : d.node with
    | none =>
      -- A path without a node stands for itself.
      refine ⟨none, p :: seen, s, ?_, .refl hs, Session.knows_none, fun n hn => ?_⟩
      · unfold PathId.resolveAnew
        rw [Memory.run_of_ok (PathId.kind?_run_of_empty hd hnode)]
        rfl
      · obtain ⟨q, hq, hheld⟩ := hseen n hn
        exact ⟨q, List.mem_cons_of_mem p hq, hheld⟩
    | some n =>
      have hheld : s.Holds p n := ⟨d, hd, hnode⟩
      have hnew : n ∉ ns := by
        intro hn
        obtain ⟨q, hq, hqn⟩ := hseen n hn
        exact hmem (hs.sound.holder_unique hqn hheld ▸ hq)
      have hseen' : s.Covered (n :: ns) (p :: seen) := by
        intro m hm
        rcases List.mem_cons.mp hm with rfl | hm
        · exact ⟨p, List.mem_cons_self, hheld⟩
        · obtain ⟨q, hq, hqm⟩ := hseen m hm
          exact ⟨q, List.mem_cons_of_mem p hq, hqm⟩
      have hinner : ∀ q s', s.Pursued s' → s'.Knows q →
          Pursuing (n :: ns) (PathId.resolveWithin dangerous fuel q) s' := by
        intro q s' h' hq
        refine ih hq (List.nodup_cons.mpr ⟨hnew, hns⟩) (fun m hm => ?_) ?_
        · rw [h'.tree]
          rcases List.mem_cons.mp hm with rfl | hm
          · exact hs.sound.mem_of_holds hheld
          · exact hreach m hm
        · rw [h'.tree, List.length_cons]
          omega
      refine forget hs hseen' ?_
      unfold PathId.resolveAnew
      refine (go (.kind? p) (Reads.kind? hp).careful (.kind? p)).bind fun k s₁ h₁ hk => ?_
      have hp₁ := h₁.grown.knows hp
      have hinner₁ : ∀ q s', s₁.Pursued s' → s'.Knows q →
          Pursuing (n :: ns) (PathId.resolveWithin dangerous fuel q) s' :=
        fun q s' h' => hinner q s' (h₁.trans h')
      split
      · exact resolveDeclarator hinner₁ hp₁
      · refine (go (.isReferencedIdentifier p) (Reads.isReferencedIdentifier hp₁).careful
          (.isReferencedIdentifier p)).bind fun v s₂ h₂ _ => ?_
        refine ite (fun _ => ?_) fun _ => pure Session.knows_none
        exact resolveIdentifier (fun q s' h' => hinner₁ q s' (h₂.trans h')) (h₂.grown.knows hp₁)
      · exact (go (.child p .expression) (.child hp₁ .expression) (.child p .expression)).bind
          fun q s₂ h₂ hq => resolveSome hinner₁ h₂ hq
      · next property _ =>
        have hproperty : s₁.Knows property := Session.knows_some.mp hk property
          (by simp [NodeKind.children, NodeKind.fields, Child.ids])
        exact ite (fun _ => resolveMember hinner₁ hp₁ hproperty _) fun _ => pure Session.knows_none
      · exact pure Session.knows_none

end Pursuing

namespace PathId

/-- In a program whose scopes are built every path can be resolved. -/
theorem resolve_returns {s : Session} {p : PathId} (hs : s.Surveyed) (hp : s.Knows p)
    (dangerous : Bool) : ∃ q s', p.resolve dangerous s = .ok q s' ∧ s.Pursued s' ∧ s'.Knows q := by
  have hfuel : s.tree.positionCount < s.pathBound + ([] : List NodeId).length := by
    unfold Session.pathBound
    omega
  obtain ⟨o, seen, s', hrun, h, ho, -⟩ := Pursuing.resolveWithin dangerous hp List.nodup_nil
    (by simp) hfuel [] hs (by simp [Session.Covered])
  refine ⟨o.getD p, s', ?_, h, ?_⟩
  · unfold resolve
    rw [run_get_bind]
    exact bind_of_ok hrun
  · cases o with
    | none => exact h.grown.knows hp
    | some q => exact Session.knows_some.mp ho

end PathId

end Espalier
