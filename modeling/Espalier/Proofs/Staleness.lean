import Espalier.Proofs.Clients
import Espalier.Proofs.Editing
import Espalier.Proofs.Material

set_option autoImplicit false

/-! # Paths that went stale

A path is stale when `resync` does not find its node any more, say because its parent was given
another node. Most edits find out: they resync first, look again, and are refused before they touch
anything that can be reached from the root (`stale_edits_refused`). Insertion does not look again;
it is refused only where the path neither hands over to its parent nor lives in a list
(`rehomedProgram_inserts`). -/

namespace Espalier

open SessionM Session

variable {α β : Type}

/-! ## What an edit spares -/

namespace Tree

/-- The second tree has the root of the first one, and every node that could be reached from there
as it was. -/
structure Spares (t t' : Tree) : Prop where
  root : t'.root = t.root
  node : ∀ n, t.Reachable n → t.contains n = true → t'.node? n = t.node? n

namespace Spares

variable {t t' : Tree}

theorem refl (t : Tree) : t.Spares t := ⟨rfl, fun _ _ _ => rfl⟩

theorem of_eq (h : t' = t) : t.Spares t' := h ▸ .refl t

/-- Building spares what is there. -/
theorem of_grown (h : t.Grown t') : t.Spares t' := ⟨h.root, fun n _ hc => h.node n hc⟩

end Spares

/-- Nothing at or below the nodes can be reached from the root. -/
def Unused (t : Tree) (nodes : List NodeId) : Prop := ∀ n, t.Reachable n → n ∉ t.below nodes

/-- The second tree differs from the first one at most in one node. -/
structure SameBut (t : Tree) (e : NodeId) (t' : Tree) : Prop where
  root : t'.root = t.root
  node : ∀ n, n ≠ e → t'.node? n = t.node? n

theorem SameBut.refl (t : Tree) (e : NodeId) : t.SameBut e t := ⟨rfl, fun _ _ => rfl⟩

theorem SameBut.trans {t t' t'' : Tree} {e : NodeId} (h : t.SameBut e t') (h' : t'.SameBut e t'') :
    t.SameBut e t'' := ⟨h'.root.trans h.root, fun n hn => (h'.node n hn).trans (h.node n hn)⟩

/-- Writing to what is made of unused nodes spares the tree. -/
theorem Spares.of_sameBut {t t₁ t' : Tree} {nodes : List NodeId} {e : NodeId}
    (hunused : t.Unused nodes) (he : e ∈ t.material nodes) (h : t.Grown t₁)
    (h' : t₁.SameBut e t') : t.Spares t' where
  root := h'.root.trans h.root
  node n hn hc := by
    have hne : n ≠ e := by
      rintro rfl
      rcases he with hnew | hbelow
      · simp [hc] at hnew
      · exact hunused n hn hbelow
    exact (h'.node n hne).trans (h.node n hc)

end Tree

/-! ## Computations that leave the tree alone -/

/-- The computation leaves the tree as it is. -/
def Still (x : SessionM α) : Prop := Leads (fun s s' => s'.tree = s.tree) x

namespace Still

theorem same_refl (s : Session) : s.tree = s.tree := rfl

theorem same_trans (s s₁ s₂ : Session) (h₁ : s₁.tree = s.tree) (h₂ : s₂.tree = s₁.tree) :
    s₂.tree = s.tree := h₂.trans h₁

theorem bind {x : SessionM α} {f : α → SessionM β} (hx : Still x) (hf : ∀ a, Still (f a)) :
    Still (x >>= f) := Leads.bind same_trans hx hf

/-- Computations that are composed of such computations are such computations. -/
theorem composed {Primitive : (α : Type) → SessionM α → Prop} {x : SessionM α}
    (hx : Composed Primitive x) (h : ∀ α (x : SessionM α), Primitive α x → Still x) : Still x :=
  hx.leads same_refl same_trans h

theorem question {x : SessionM α} (hx : Composed (fun _ _ => False) x) : Still x :=
  composed hx fun _ _ h => h.elim

theorem pure (a : α) : Still (pure a : SessionM α) := Leads.pure same_refl a

theorem modify (f : Session → Session) (h : ∀ s, (f s).tree = s.tree) :
    Still (modify f : SessionM PUnit) := h

theorem modifyData (p : PathId) (f : PathData → PathData) : Still (p.modifyData f) :=
  (question (.data p)).bind fun _ => modify _ fun _ => rfl

theorem hop {x : SessionM α} (h : Hop α x) : Still x := by
  refine composed h.caching fun _ _ step => ?_
  cases step with
  | alloc d => exact fun _ => rfl
  | fileUnder c p => exact modify _ fun _ => rfl
  | modifyData p f => exact modifyData p f
  | stray parent p => exact modify _ fun _ => rfl

theorem charting {x : SessionM α} (hx : Charting x) : Still x := by
  refine composed hx fun _ _ step => ?_
  cases step with
  | hop hop => exact .hop hop
  | write g => exact .modify _ fun _ => rfl
  | create block parent =>
    exact (question (.type? block)).bind fun _ => (question (.node? block)).bind fun _ => fun _ => rfl

end Still

/-! ## Computations that do not mind new nodes -/

/-- When the computation succeeds, it leaves the tree alone, and it does the same after nodes were
added to the tree. -/
def Robust (x : SessionM α) : Prop := ∀ ⦃s s' : Session⦄ ⦃a : α⦄, x s = .ok a s' →
  s'.tree = s.tree ∧
    ∀ t, s.tree.Grown t → x { s with tree := t } = .ok a { s' with tree := t }

namespace Robust

theorem bind {x : SessionM α} {f : α → SessionM β} (hx : Robust x) (hf : ∀ a, Robust (f a)) :
    Robust (x >>= f) := by
  intro s s' b hrun
  obtain ⟨a, s₁, hrun₁, hrun₂⟩ := bind_eq_ok hrun
  obtain ⟨htree₁, hsame₁⟩ := hx hrun₁
  obtain ⟨htree₂, hsame₂⟩ := hf a hrun₂
  refine ⟨htree₂.trans htree₁, fun t hg => ?_⟩
  rw [bind_of_ok (hsame₁ t hg)]
  exact hsame₂ t (htree₁ ▸ hg)

theorem pure (a : α) : Robust (pure a : SessionM α) := by
  intro s s' b hrun
  cases hrun
  exact ⟨rfl, fun _ _ => rfl⟩

theorem data (p : PathId) : Robust p.data := by
  intro s s' d hrun
  obtain rfl := question_run (.data p) hrun
  refine ⟨rfl, fun t _ => ?_⟩
  cases hd : s'.paths[p.index]? with
  | none =>
    rw [p.data_unknown hd] at hrun
    cases hrun
  | some e =>
    rw [p.data_run hd] at hrun
    cases hrun
    exact p.data_run hd

theorem kind (n : NodeId) : Robust (ask fun t => t.kind? n) := by
  intro s s' k hrun
  obtain rfl := question_run (.ask _) hrun
  refine ⟨rfl, fun t hg => ?_⟩
  cases hk : s'.tree.kind? n with
  | none =>
    rw [ask_dangling hk] at hrun
    cases hrun
  | some k' =>
    rw [ask_run hk] at hrun
    cases hrun
    exact ask_run (hg.kind hk)

/-- A change of what does not depend on the tree. -/
theorem modify (f : Session → Session)
    (h : ∀ (s : Session) t, (f s).tree = s.tree ∧ f { s with tree := t } = { f s with tree := t }) :
    Robust (modify f : SessionM PUnit) := by
  intro s s' a hrun
  obtain rfl : f s = s' := by simpa using hrun
  exact ⟨(h s s.tree).1, fun t _ => congrArg _ (h s t).2⟩

theorem modifyData (p : PathId) (f : PathData → PathData) : Robust (p.modifyData f) :=
  (data p).bind fun _ => modify _ fun _ _ => ⟨rfl, rfl⟩

theorem fileUnder (c : Container) (p : PathId) : Robust (fileUnder c p) :=
  modify _ fun _ _ => ⟨rfl, rfl⟩

theorem unfile (c : Container) (p : PathId) : Robust (unfile c p) := by
  refine modify _ fun s t => ?_
  dsimp only
  split
  · exact ⟨rfl, rfl⟩
  · exact ⟨rfl, rfl⟩

theorem nodeAt (c : Container) (k : Key) : Robust (nodeAt c k) := by
  unfold Espalier.nodeAt
  split
  · intro s s' a hrun
    cases hrun
    exact ⟨rfl, fun t hg => by rw [run_get_bind, hg.root]; rfl⟩
  · exact (kind _).bind fun _ => pure _
  · exact (kind _).bind fun _ => pure _
  · exact pure _

theorem moveToContainer (p : PathId) (c : Container) : Robust (p.moveToContainer c) :=
  ((data p).bind fun _ => pure _).bind fun old =>
    (unfile old p).bind fun _ => (fileUnder c p).bind fun _ => modifyData p _

theorem markRemoved (p : PathId) : Robust p.markRemoved :=
  ((data p).bind fun _ => pure _).bind fun c => (unfile c p).bind fun _ => modifyData p _

theorem resync (p : PathId) : Robust p.resync := by
  refine bind ((data p).bind fun _ => pure _) fun b => ?_
  split
  · exact pure _
  · refine bind ?_ fun _ => (data p).bind fun d => ?_
    · refine (data p).bind fun d => ?_
      split
      · exact pure _
      · refine bind ((data _).bind fun _ => pure _) fun o => ?_
        split
        · exact pure _
        · split
          · exact pure _
          · exact moveToContainer p _
    · split
      · exact pure _
      · refine (nodeAt _ _).bind fun _ => ?_
        split
        · exact pure _
        · split
          · exact pure _
          · refine bind ?_ fun o => ?_
            · unfold PathId.keyOf?
              split
              · exact (kind _).bind fun _ => pure _
              · exact (kind _).bind fun _ => pure _
              · exact pure _
              · exact pure _
            · split
              · exact modifyData p _
              · exact markRemoved p

end Robust

/-! ## Failing edits -/

namespace Session

/-- The computation fails in a certain way, and what it leaves spares the tree. -/
def Fails (s : Session) (t : Tree) (x : SessionM α) (how : Failure → Prop) : Prop :=
  ∃ e s', x s = .error e s' ∧ how e ∧ t.Spares s'.tree

/-- The computation is refused, and spares the tree. -/
def Refuses (s : Session) (x : SessionM α) : Prop :=
  s.Fails s.tree x fun e => ∃ cause, e = .refused cause

/-- `resync` leaves the path removed; the second session is the one that it leaves. -/
structure Stale (s : Session) (p : PathId) (s' : Session) : Prop where
  run : p.resync s = .ok () s'
  removed : ∃ d, s'.paths[p.index]? = some d ∧ d.removed = true

namespace Fails

variable {s s' : Session} {t : Tree} {x : SessionM α} {f : α → SessionM β}
  {how how' : Failure → Prop}

theorem throw {e : Failure} (ht : t.Spares s.tree) (h : how e) :
    s.Fails t (throw e : SessionM α) how := ⟨e, s, rfl, h, ht⟩

theorem refuse (cause : Refusal) (ht : t.Spares s.tree) :
    s.Fails t (refuse cause : SessionM α) fun e => ∃ cause, e = .refused cause := throw ht ⟨cause, rfl⟩

theorem mono (hx : s.Fails t x how) (h : ∀ e, how e → how' e) : s.Fails t x how' := by
  obtain ⟨e, s', hrun, he, ht⟩ := hx
  exact ⟨e, s', hrun, h e he, ht⟩

theorem bind (hx : s.Fails t x how) : s.Fails t (x >>= f) how := by
  obtain ⟨e, s', hrun, he, ht⟩ := hx
  exact ⟨e, s', bind_of_error hrun, he, ht⟩

theorem after_ok {a : α} (h : x s = .ok a s') (hf : s'.Fails t (f a) how) :
    s.Fails t (x >>= f) how := by
  obtain ⟨e, s₁, hrun, he, ht⟩ := hf
  exact ⟨e, s₁, (bind_of_ok h).trans hrun, he, ht⟩

/-- A step that adds to the tree. -/
theorem after_build {build : TreeM α} {f : α → SessionM β} {post : α → Tree → Prop}
    (hbuild : build.Builds s.tree post)
    (hf : ∀ a t', s.tree.Grown t' → Session.Fails { s with tree := t' } t (f a) how) :
    s.Fails t (onTree build >>= f) how := by
  obtain ⟨a, t', hrun, hg, -⟩ := hbuild
  exact after_ok (onTree_run hrun) (hf a t' hg)

/-- A step that spares the tree, whether it fails itself or lets a failure follow. -/
theorem step (hx : t.Spares (after x s).tree) (herror : ∀ e s', x s = .error e s' → how e)
    (hf : ∀ a s', x s = .ok a s' → t.Spares s'.tree → s'.Fails t (f a) how) :
    s.Fails t (x >>= f) how := by
  cases hrun : x s with
  | ok a s' =>
    rw [after_of_ok hrun] at hx
    exact after_ok hrun (hf a s' hrun hx)
  | error e s' =>
    rw [after_of_error hrun] at hx
    exact ⟨e, s', bind_of_error hrun, herror e s' hrun, hx⟩

/-- A question, whether it fails itself or lets a failure follow. -/
theorem question (hx : Composed (fun _ _ => False) x) (ht : t.Spares s.tree)
    (herror : ∀ e, x s = .error e s → how e) (hf : ∀ a, x s = .ok a s → s.Fails t (f a) how) :
    s.Fails t (x >>= f) how := by
  have hafter := hx.question_after s
  refine step (by rwa [hafter]) (fun e s' hrun => ?_) fun a s' hrun _ => ?_
  · rw [after_of_error hrun] at hafter
    exact herror e (hafter ▸ hrun)
  · rw [after_of_ok hrun] at hafter
    rw [hafter] at hrun ⊢
    exact hf a hrun

end Fails

/-- A removed path is noticed. -/
theorem Gone.noticed {s : Session} {p : PathId} (h : s.Gone p) {t : Tree} (ht : t.Spares s.tree)
    {y : SessionM α} : s.Fails t (do
      if ← p.isRemoved then refuse .removedPath
      else y) fun e => ∃ cause, e = .refused cause := by
  obtain ⟨d, hd, hr, -⟩ := h
  refine Fails.after_ok (p.isRemoved_run hd) ?_
  rw [hr]
  exact .refuse _ ht

namespace Stale

variable {s s' : Session} {p : PathId}

theorem tree (h : s.Stale p s') : s'.tree = s.tree := (Robust.resync p h.run).1

theorem spares (h : s.Stale p s') : s.tree.Spares s'.tree := .of_eq h.tree

/-- A path stays stale when nodes are added to the tree. -/
theorem grown (h : s.Stale p s') {t : Tree} (hg : s.tree.Grown t) :
    Stale { s with tree := t } p { s' with tree := t } where
  run := (Robust.resync p h.run).2 t hg
  removed := h.removed

theorem tidy (h : s.Stale p s') (hs : s.Tidy) : s'.Tidy := by
  have := (Tidying.resync p s hs).tidy
  rwa [after_of_ok h.run] at this

/-- The path holds no node any more. -/
theorem data (h : s.Stale p s') (hs : s.Tidy) : ∃ d, s'.paths[p.index]? = some d ∧
    d.removed = true ∧ d.node = none ∧ d.container ≠ .detached := by
  obtain ⟨d, hd, hr⟩ := h.removed
  obtain ⟨hn, -, hc⟩ := ((h.tidy hs).fit p d hd).removed hr
  exact ⟨d, hd, hr, hn, hc⟩

theorem gone (h : s.Stale p s') (hs : s.Tidy) : s'.Gone p := by
  obtain ⟨d, hd, hr, -, hc⟩ := h.data hs
  exact ⟨d, hd, hr, hc⟩

/-- The path is known. -/
theorem known (h : s.Stale p s') : ∃ d, s.paths[p.index]? = some d := by
  cases hd : s.paths[p.index]? with
  | some d => exact ⟨d, rfl⟩
  | none =>
    have hrun : p.resync s = .error .dangling s :=
      bind_of_error (bind_of_error (p.data_unknown hd))
    rw [h.run] at hrun
    cases hrun

/-- What comes after the first look at a path and `resync`. -/
theorem guard {t : Tree} {x : SessionM α} {how : Failure → Prop} (h : s.Stale p s')
    (ht : t.Spares s.tree) (hhow : how (.refused .removedPath)) (hx : s'.Fails t x how) :
    s.Fails t (do
      if ← p.isRemoved then refuse .removedPath
      else
        p.resync
        x) how := by
  obtain ⟨d, hd⟩ := h.known
  refine Fails.after_ok (p.isRemoved_run hd) ?_
  cases d.removed with
  | true => exact .throw ht hhow
  | false => exact Fails.after_ok h.run hx

end Stale

end Session

/-! ## Plain edits of stale paths -/

section Edits

variable {s s' : Session} {p : PathId} {t : Tree}

theorem Session.Gone.replaceWithin (hp : s.Gone p) (ht : t.Spares s.tree) (fuel : Nat)
    (new : NodeId) : s.Fails t (PathId.replaceWithin (fuel + 1) p new)
      fun e => ∃ cause, e = .refused cause := hp.noticed ht

theorem PathId.isStatementOrBlock_run {d : PathData} (hd : s.paths[p.index]? = some d)
    {o : Option NodeType} (ho : p.parentType? s = .ok o s) :
    ∃ b, p.isStatementOrBlock s = .ok b s := by
  unfold PathId.isStatementOrBlock
  rw [bind_of_ok (p.data_run hd), bind_of_ok ho]
  split
  · exact ⟨_, rfl⟩
  · exact ⟨_, rfl⟩

variable (hs : s.Tidy) (h : s.Stale p s')

include hs h

namespace Session.Stale

theorem replaceNode (ht : t.Spares s.tree) (new : NodeId) :
    s.Fails t (p.replaceNode new) fun e => ∃ cause, e = .refused cause :=
  Fails.after_ok rfl (h.guard ht ⟨_, rfl⟩ ((h.gone hs).noticed (h.tree ▸ ht)))

theorem replaceWith (offer : Replacement)
    (hoffer : ∀ q, offer = .path q → ∃ d, s.paths[q.index]? = some d) :
    s.Refuses (p.replaceWith offer) := by
  cases offer with
  | node id => exact h.replaceNode hs (.refl _) id
  | path q =>
    obtain ⟨d, hd⟩ := hoffer q rfl
    refine Fails.after_ok (q.node?_run hd) ?_
    cases d.node with
    | none => exact Fails.refuse _ (.refl _)
    | some id => exact h.replaceNode hs (.refl _) id
  | nodes ids => exact Fails.refuse _ (.refl _)
  | source text => exact Fails.refuse _ (.refl _)
  | nothing => exact Fails.refuse _ (.refl _)

theorem replaceWithMultiple (nodes : List NodeId) : s.Refuses (p.replaceWithMultiple nodes) := by
  refine h.guard (.refl _) ⟨_, rfl⟩ ?_
  cases nodes.head? with
  | none => exact .refuse _ h.spares
  | some first =>
    cases nodes.getLast? with
    | none => exact .refuse _ h.spares
    | some last =>
      obtain ⟨d, hd, -, hn, -⟩ := h.data hs
      refine Fails.after_ok (p.data_run hd) ?_
      rw [hn]
      exact .refuse _ h.spares

theorem remove : s.Refuses p.remove := by
  refine Fails.after_ok rfl (Fails.after_ok rfl (h.guard (.refl _) ⟨_, rfl⟩ ?_))
  obtain ⟨d, hd, -, hn, -⟩ := h.data hs
  refine Fails.after_ok (p.node?_run hd) ?_
  rw [hn]
  exact .refuse _ h.spares

/-- Inserting beside a path that `resync` removes, where the path does not hand over to its parent
and lives in no list. -/
theorem insertBeside {nodes : List NodeId} (hnodes : nodes ≠ []) (after : Bool)
    (hdelegates : p.delegatesInsertion s' = .ok false s')
    (hlist : ∀ d n f, s'.paths[p.index]? = some d → d.container ≠ .list n f) :
    s.Refuses (p.insertBeside nodes after) := by
  have hguard : ∀ fuel, s.Refuses (PathId.insertWithin nodes after (fuel + 1) p) := by
    intro fuel
    obtain ⟨d, hd, -, hn, -⟩ := h.data hs
    refine h.guard (.refl _) ⟨_, rfl⟩ (Fails.after_ok hdelegates ?_)
    refine Fails.after_ok (p.parent?_run hd) (Fails.after_ok (p.data_run hd) ?_)
    split
    · next n f i parent hc _ _ => exact absurd hc (hlist d n f hd)
    · -- A place where the path could be wrapped in a block: there is nothing to wrap.
      obtain ⟨type, s₁, htype, -⟩ := bind_eq_ok hdelegates
      obtain rfl := question_run (.parentType? p) htype
      obtain ⟨b, hb⟩ := PathId.isStatementOrBlock_run hd htype
      refine Fails.after_ok hb ?_
      cases b with
      | false => exact .refuse _ h.spares
      | true =>
        refine Fails.after_ok (p.node?_run hd) ?_
        rw [hn]
        exact .refuse _ h.spares
  obtain ⟨d, hd⟩ := h.known
  refine Fails.after_ok (p.isRemoved_run hd) ?_
  cases d.removed with
  | true => exact .refuse _ (.refl _)
  | false =>
    show s.Refuses (if nodes = [] then _ else _)
    rw [if_neg hnodes]
    exact Fails.after_ok rfl (hguard _)

end Session.Stale

end Edits

/-! ## Statements for a stale path -/

/-- No name has to be declared around an expression form of the nodes. -/
def Tree.Nameless (t : Tree) (nodes : List NodeId) : Prop :=
  ∀ r t', (reduceStatements nodes).run t = some (some r, t') → r.declared = []

/-- What is worked out before statements take the place of an expression can be worked out: the
scope, the expression form, and which part of its value is kept. -/
def Session.Prepares (s : Session) (p : PathId) (nodes : List NodeId) : Prop :=
  ∃ i s₁ o t, p.scope s = .ok i s₁ ∧ (reduceStatements nodes).run s₁.tree = some (o, t) ∧
    ∀ r, o = some r → ∃ e s₂, p.dropUnusedValue r.expression { s₁ with tree := t } = .ok e s₂

/-- The second session differs from the first one in its tree at most in one node. -/
theorem modifyKind_sameBut (e : NodeId) (g : NodeKind → NodeKind) :
    Leads (fun s s' => s.tree.SameBut e s'.tree) (modifyKind e g) := by
  intro s
  cases hk : s.tree.kind? e with
  | none =>
    have hnode : s.tree.node? e = none := Option.map_eq_none_iff.mp hk
    have hrun : modifyKind e g s = .error .dangling s :=
      onTree_dangling (by simp [TreeM.modifyKind, TreeM.modifyNode, TreeM.node, hnode])
    rw [after_of_error hrun]
    exact .refl _ _
  | some k =>
    rw [after_of_ok (modifyKind_run hk g)]
    exact ⟨rfl, fun n hn => by simp [Tree.node?_modify, hn]⟩

/-- Dropping an unused value writes to no other node. -/
theorem PathId.dropUnusedValue_sameBut (p : PathId) (e : NodeId) :
    Leads (fun s s' => s.tree.SameBut e s'.tree) (p.dropUnusedValue e) := by
  have htrans : ∀ s₁ s₂ s₃ : Session, s₁.tree.SameBut e s₂.tree → s₂.tree.SameBut e s₃.tree →
      s₁.tree.SameBut e s₃.tree := fun _ _ _ => .trans
  have hstill : ∀ {α : Type} {x : SessionM α}, Still x →
      Leads (fun s s' : Session => s.tree.SameBut e s'.tree) x := fun hx =>
    hx.mono fun s s' h => h ▸ .refl s.tree e
  have hkept : Leads (fun s s' : Session => s.tree.SameBut e s'.tree)
      (pure e : SessionM NodeId) := hstill (.pure e)
  refine Leads.bind htrans (hstill (.question (.parentType? p))) fun type => ?_
  split
  · exact hkept
  refine Leads.bind htrans (hstill (.question (.isCompletionRecord p false))) fun record => ?_
  split
  · exact hkept
  refine Leads.bind htrans (hstill (.question (.ask _))) fun kind => ?_
  split
  · refine Leads.bind htrans (hstill (.question (.ask _))) fun b => ?_
    split
    · exact Leads.bind htrans (modifyKind_sameBut e _) fun _ => hstill (.pure _)
    · exact hkept
  · exact hkept

section Statements

variable {s s' : Session} {p : PathId} {nodes : List NodeId}

theorem Session.Stale.replaceByStatementsUsing {replace : PathId → NodeId → SessionM Unit}
    (hs : s.Tidy) (h : s.Stale p s')
    (hreplace : ∀ s₁ : Session, s₁.Gone p → s.tree.Spares s₁.tree → ∀ n,
      s₁.Fails s.tree (replace p n) fun e => ∃ cause, e = .refused cause)
    (hunused : s.tree.Unused nodes)
    (hnames : s.tree.Nameless nodes) :
    s.Fails s.tree (p.replaceByStatementsUsing replace nodes) fun e =>
      s'.Prepares p nodes → ∃ cause, e = .refused cause := by
  unfold PathId.replaceByStatementsUsing
  split
  · exact (Fails.refuse _ (.refl _)).mono fun _ he _ => he
  refine h.guard (.refl _) (fun _ => ⟨_, rfl⟩) ?_
  have hscope := Charting.scope p
  refine Fails.step ?_ (fun e s₁ hrun => ?_) fun i s₁ hrun hspares => ?_
  · exact .of_eq ((Still.charting hscope s').trans h.tree)
  · rintro ⟨i, s₂, o, t, hok, -⟩
    rw [hrun] at hok
    cases hok
  have htree : s₁.tree = s.tree := ((Still.charting hscope).of_ok hrun).trans h.tree
  have hcalm := (hscope.quiet.of_ok hrun) (h.tidy hs)
  have hgone : s₁.Gone p := hcalm.gone p (h.gone hs)
  cases hform : (reduceStatements nodes).run s₁.tree with
  | none =>
    refine ⟨_, s₁, bind_of_error (buildBelow_failure hform), ?_, hspares⟩
    rintro ⟨j, s₂, o, t, hok, hsome, -⟩
    rw [hrun] at hok
    cases hok
    rw [hform] at hsome
    cases hsome
  | some r =>
    obtain ⟨o, t⟩ := r
    rw [htree] at hform
    have hbuilt := reduceStatements_assembles hform
    rw [← htree] at hform
    have htidy := (Quiet.onTree (reduceStatements nodes)).of_ok (onTree_run hform) hcalm.tidy
    refine Fails.after_ok (buildBelow_run hform) ?_
    cases o with
    | none =>
      -- Only new nodes are built before the replacement is tried.
      refine Fails.bind (Fails.after_build (TreeM.builds_alloc (.refl _) _) fun body t₁ hg₁ => ?_)
      refine Fails.after_build (TreeM.builds_alloc (.refl _) _) fun function t₂ hg₂ => ?_
      refine Fails.after_build (TreeM.builds_alloc (.refl _) _) fun call t₃ hg₃ => Fails.bind ?_
      have hgrown : s.tree.Grown t₃ := ((hbuilt.1.trans hg₁).trans hg₂).trans hg₃
      exact (hreplace { s₁ with tree := t₃ } hgone (.of_grown hgrown) call).mono fun _ he _ => he
    | some reduced =>
      have hdeclared : reduced.declared = [] := hnames reduced t (by rw [← htree]; exact hform)
      show Session.Fails _ _ (reduced.declared.forM _ >>= _) _
      rw [hdeclared]
      refine Fails.after_ok rfl (Fails.step ?_ (fun e s₂ hrun₂ => ?_) fun e s₂ hrun₂ hspares₂ => ?_)
      · have hsame := PathId.dropUnusedValue_sameBut p reduced.expression { s₁ with tree := t }
        exact .of_sameBut hunused (hbuilt.2 reduced rfl) hbuilt.1 hsame
      · rintro ⟨j, s₃, o, t₃, hok, hsome, hdrop⟩
        rw [hrun] at hok
        cases hok
        rw [hform] at hsome
        cases hsome
        obtain ⟨e', s₄, hdrop⟩ := hdrop reduced rfl
        rw [hrun₂] at hdrop
        cases hdrop
      · have hdropped := (PathId.dropUnusedValue_quiet p reduced.expression).of_ok hrun₂ htidy.tidy
        exact ((hreplace s₂ (hdropped.gone p (htidy.gone p hgone)) hspares₂ e).bind).mono
          fun _ he _ => he

theorem Session.Stale.replaceExpressionWithStatements (hs : s.Tidy) (h : s.Stale p s')
    (hunused : s.tree.Unused nodes)
    (hnames : s.tree.Nameless nodes) :
    s.Fails s.tree (p.replaceExpressionWithStatements nodes) fun e =>
      s'.Prepares p nodes → ∃ cause, e = .refused cause :=
  Fails.after_ok rfl (h.replaceByStatementsUsing hs
    (fun _ hgone hspares n => hgone.replaceWithin hspares _ n) hunused hnames)

/-- The ids that a path carries name nodes of the tree. -/
def Session.Grounded (s : Session) (p : PathId) : Prop :=
  ∀ d, s.paths[p.index]? = some d → (∀ n, d.node = some n → s.tree.contains n = true) ∧
    ∀ n, d.container.parent? = some n → s.tree.contains n = true

theorem Session.Grounded.kind?_run (h : s.Grounded p) {d : PathData}
    (hd : s.paths[p.index]? = some d) : ∃ o, p.kind? s = .ok o s := by
  unfold PathId.kind?
  rw [bind_of_ok (p.node?_run hd)]
  cases hn : d.node with
  | none => exact ⟨_, rfl⟩
  | some n =>
    obtain ⟨k, hk⟩ := (s.tree.contains_iff n).mp ((h d hd).1 n hn)
    exact ⟨some k, bind_of_ok (ask_run hk)⟩

theorem Session.Grounded.parentType?_run (h : s.Grounded p) {d : PathData}
    (hd : s.paths[p.index]? = some d) : ∃ o, p.parentType? s = .ok o s := by
  have hparent : p.parentNode? s = .ok d.container.parent? s := bind_of_ok (p.data_run hd)
  unfold PathId.parentType?
  rw [bind_of_ok hparent]
  cases hn : d.container.parent? with
  | none => exact ⟨_, rfl⟩
  | some n =>
    obtain ⟨k, hk⟩ := (s.tree.contains_iff n).mp ((h d hd).2 n hn)
    exact ⟨some k.type, bind_of_ok (ask_run (Tree.type?_of_kind hk))⟩

theorem Session.Stale.replaceInline (hs : s.Tidy) (h : s.Stale p s')
    (hunused : s.tree.Unused nodes)
    (hnames : s.tree.Nameless nodes) :
    s.Fails s.tree (p.replaceInline nodes) fun e =>
      s.Grounded p → s'.Prepares p nodes → ∃ cause, e = .refused cause := by
  obtain ⟨d, hd⟩ := h.known
  have hinList : p.inList s = .ok d.listField?.isSome s := bind_of_ok (p.data_run hd)
  refine Fails.after_ok hinList ?_
  split
  · exact (h.replaceWithMultiple hs nodes).mono fun _ he _ _ => he
  split
  · exact (Fails.refuse _ (.refl _)).mono fun _ he _ _ => he
  · next single => exact (h.replaceNode hs (.refl _) single).bind.mono fun _ he _ _ => he
  · refine Fails.question (.isAny p _) (.refl _) (fun e hrun hground => ?_) fun b _ => ?_
    · obtain ⟨o, ho⟩ := hground.kind?_run hd
      have hok : p.isAny NodeType.isExpression s = .ok _ s :=
        bind_of_ok (show p.type? s = _ from bind_of_ok ho)
      rw [hrun] at hok
      cases hok
    split
    · exact (h.replaceExpressionWithStatements hs hunused hnames).bind.mono fun _ he _ => he
    refine Fails.question (.isStatementOrBlock p) (.refl _) (fun e hrun hground => ?_) fun b _ => ?_
    · obtain ⟨o, ho⟩ := hground.parentType?_run hd
      obtain ⟨b, hb⟩ := PathId.isStatementOrBlock_run hd ho
      rw [hrun] at hb
      cases hb
    split
    · refine Fails.after_build (TreeM.builds_alloc (.refl _) _) fun block t₁ hg₁ => Fails.bind ?_
      have htidy : Session.Tidy { s with tree := t₁ } := hs.of_same rfl rfl rfl
      exact ((h.grown hg₁).replaceNode htidy (.of_grown hg₁) block).mono fun _ he _ _ => he
    · exact (Fails.refuse _ (.refl _)).mono fun _ he _ _ => he

end Statements

/-! ## Every edit of a stale path -/

/-- An edit of a stale path is refused and spares the tree: a replacement by a node or by the node
of a known path, a replacement by several nodes, a removal; and, for unused nodes whose expression
form needs no names, putting statements in the place of an expression and putting nodes in the
place of the path, which may also fail when what they look at first is not there. An insertion is
refused when the path was marked as removed before, or else when the path neither hands over to its
parent nor lives in a list. -/
theorem stale_edits_refused {s s' : Session} {p : PathId} (hs : s.Reached) (h : s.Stale p s') :
    (∀ offer, (∀ q, offer = .path q → ∃ d, s.paths[q.index]? = some d) →
      s.Refuses (p.replaceWith offer)) ∧
    (∀ nodes, s.Refuses (p.replaceWithMultiple nodes)) ∧
    s.Refuses p.remove ∧
    (∀ nodes, s.tree.Unused nodes → s.tree.Nameless nodes →
      s.Fails s.tree (p.replaceExpressionWithStatements nodes) fun e =>
        s'.Prepares p nodes → ∃ cause, e = .refused cause) ∧
    (∀ nodes, s.tree.Unused nodes → s.tree.Nameless nodes →
      s.Fails s.tree (p.replaceInline nodes) fun e =>
        s.Grounded p → s'.Prepares p nodes → ∃ cause, e = .refused cause) ∧
    (∀ nodes after, s.Gone p ∨ (nodes ≠ [] ∧ p.delegatesInsertion s' = .ok false s' ∧
        ∀ d n f, s'.paths[p.index]? = some d → d.container ≠ .list n f) →
      s.Refuses (p.insertBeside nodes after)) := by
  have ht := hs.tidy
  refine ⟨h.replaceWith ht, h.replaceWithMultiple ht, h.remove ht, fun nodes hunused hnames =>
    h.replaceExpressionWithStatements ht hunused hnames, fun nodes hunused hnames =>
    h.replaceInline ht hunused hnames, fun nodes after hcase => ?_⟩
  rcases hcase with hgone | ⟨hnodes, hdelegates, hlist⟩
  · exact hgone.noticed (.refl _)
  · exact h.insertBeside ht hnodes after hdelegates hlist

/-- Look at a path below the first statement, then replace that statement. -/
def outdate (look : PathId → SessionM PathId) (new : NodeId) : WalkM Unit Unit := do
  let root ← WalkM.onSession rootPath
  let first ← WalkM.onSession (root.element .body 0)
  let _ ← WalkM.onSession (look first)
  WalkM.onSession (first.replaceWith (.node new))

theorem outdate_client {look : PathId → SessionM PathId} (hlook : ∀ p, Navigating (look p))
    (new : NodeId) : Client (outdate look new) :=
  .bind (.call (.navigate .rootPath)) fun root =>
    .bind (.call (.navigate (.element root .body 0))) fun first =>
      .bind (.call (.navigate (hlook first))) fun _ => .call (.replaceWith first (.node new))

/-- The session after that, on a tree that was just opened. -/
def outdated (t : Tree) (look : PathId → SessionM PathId) (new : NodeId) : Session :=
  (after (outdate look new)
    { session := { tree := t, config := { lazyScopes := true } }, own := () }).session

theorem outdated_reached (t : Tree) {look : PathId → SessionM PathId}
    (hlook : ∀ p, Navigating (look p)) (new : NodeId) : (outdated t look new).Reached :=
  .used () 0 (.opened (show Session.open? t { lazyScopes := true } = .ok _ from rfl))
    (outdate_client hlook new)

/-- The program `if (a) ;`, and beside it the statements `if (b) ;` and `;`. -/
def staleProgram : Tree where
  nodes := #[{ kind := .identifier "a" none }, { kind := .emptyStatement },
    { kind := .ifStatement ⟨0⟩ ⟨1⟩ none }, { kind := .program [⟨2⟩] [] },
    { kind := .identifier "b" none }, { kind := .emptyStatement },
    { kind := .ifStatement ⟨4⟩ ⟨5⟩ none }, { kind := .emptyStatement }]
  root := some ⟨3⟩

/-- The test `a` has the path 2; its statement was replaced by the other one. -/
def staleSession : Session := outdated staleProgram (fun p => p.child .test) ⟨6⟩

/-- The session after `resync` of the test. -/
def staleSynced : Session := after (PathId.resync ⟨2⟩) staleSession

theorem staleSession_stale : staleSession.Stale ⟨2⟩ staleSynced where
  run := eq_ok_of_value? (by decide +kernel)
  removed := by
    have h : (staleSynced.paths[2]?.map PathData.removed) = some true := by decide +kernel
    exact Option.map_eq_some_iff.mp h

theorem staleSession_prepares : staleSynced.Prepares ⟨2⟩ [⟨7⟩] := by
  let s₁ := after (PathId.scope ⟨2⟩) staleSynced
  have hscope : (value? (PathId.scope ⟨2⟩) staleSynced).isSome = true := by decide +kernel
  obtain ⟨i, hi⟩ := Option.isSome_iff_exists.mp hscope
  have hform : (((reduceStatements [⟨7⟩]).run s₁.tree).bind fun e => e.1.bind fun r =>
      value? (PathId.dropUnusedValue ⟨2⟩ r.expression) { s₁ with tree := e.2 }).isSome = true := by
    decide +kernel
  obtain ⟨e, he⟩ := Option.isSome_iff_exists.mp hform
  obtain ⟨⟨o, t⟩, hrun, he⟩ := Option.bind_eq_some_iff.mp he
  obtain ⟨r, rfl, hdrop⟩ := Option.bind_eq_some_iff.mp he
  refine ⟨i, s₁, some r, t, eq_ok_of_value? hi, hrun, fun r' hr => ?_⟩
  cases hr
  exact ⟨e, _, eq_ok_of_value? hdrop⟩

theorem staleSession_nameless : staleSession.tree.Nameless [⟨7⟩] := by
  have hcheck : ((reduceStatements [⟨7⟩]).run staleSession.tree).map
      (fun r => r.1.map Reduced.declared) = some (some []) := by decide +kernel
  intro r t' hrun
  rw [hrun] at hcheck
  simpa using hcheck

theorem staleSession_unused : staleSession.tree.Unused [⟨7⟩] := by
  have hloose : staleSession.tree.Loose staleSession.tree.reachable [⟨7⟩] :=
    .leaf (k := .emptyStatement) (by decide +kernel) rfl
      (Tree.not_reachable (by decide +kernel) (by decide +kernel))
  exact fun n hn hbelow => hloose.apart n hbelow hn

/-- The test is not replaced any more, by whatever means, and nothing is inserted beside it. -/
theorem staleProgram_refused : staleSession.Reached ∧ staleSession.Stale ⟨2⟩ staleSynced ∧
    staleSession.Refuses (PathId.replaceWith ⟨2⟩ (.node ⟨7⟩)) ∧
    staleSession.Refuses (PathId.replaceWithMultiple ⟨2⟩ [⟨7⟩]) ∧
    staleSession.Refuses (PathId.remove ⟨2⟩) ∧
    staleSession.Refuses (PathId.replaceExpressionWithStatements ⟨2⟩ [⟨7⟩]) ∧
    staleSession.Refuses (PathId.replaceInline ⟨2⟩ [⟨7⟩]) ∧
    staleSession.Refuses (PathId.insertBeside ⟨2⟩ [⟨7⟩] false) := by
  have hreached : staleSession.Reached := outdated_reached _ (fun p => .child p .test) _
  obtain ⟨hwith, hmultiple, hremove, hstatements, hinline, hinsert⟩ :=
    stale_edits_refused hreached staleSession_stale
  have hgrounded : staleSession.Grounded ⟨2⟩ := by
    have hplace : (staleSession.paths[2]?.map fun d => (d.node, d.container)) =
        some (some ⟨0⟩, .slot ⟨2⟩) := by decide +kernel
    have hsize : staleSession.tree.size = 8 := by decide +kernel
    intro d hd
    obtain ⟨hn, hc⟩ : d.node = some ⟨0⟩ ∧ d.container = .slot ⟨2⟩ := by simpa [hd] using hplace
    simp [hn, hc, Container.parent?, Tree.contains, hsize]
  refine ⟨hreached, staleSession_stale, hwith _ (by simp), hmultiple _, hremove,
    (hstatements _ staleSession_unused staleSession_nameless).mono fun e he =>
      he staleSession_prepares,
    (hinline _ staleSession_unused staleSession_nameless).mono fun e he =>
      he hgrounded staleSession_prepares,
    hinsert _ _ (.inr ⟨by simp, ?_, fun d n f hd => ?_⟩)⟩
  · have hcheck : value? (PathId.delegatesInsertion ⟨2⟩) staleSynced = some false := by
      decide +kernel
    have hrun := eq_ok_of_value? hcheck
    rw [hrun, question_run (.delegatesInsertion ⟨2⟩) hrun]
  · have hcontainer : (staleSynced.paths[2]?.map PathData.container) = some (.slot ⟨6⟩) := by
      decide +kernel
    have hc : d.container = .slot ⟨6⟩ := by simpa [hd] using hcontainer
    simp [hc]

/-- The program `{ a; }`, and beside it the statements `{ b; }` and `c;`. -/
def rehomedProgram : Tree where
  nodes := #[{ kind := .identifier "a" none }, { kind := .expressionStatement ⟨0⟩ },
    { kind := .blockStatement [⟨1⟩] }, { kind := .program [⟨2⟩] [] },
    { kind := .identifier "b" none }, { kind := .expressionStatement ⟨4⟩ },
    { kind := .blockStatement [⟨5⟩] }, { kind := .identifier "c" none },
    { kind := .expressionStatement ⟨7⟩ }]
  root := some ⟨3⟩

/-- The statement `a;` has the path 2; its block was replaced by `{ b; }`. -/
def rehomedSession : Session := outdated rehomedProgram (fun p => p.element .body 0) ⟨6⟩

/-- The path of `a;` is stale, but a statement is inserted before it: into the block `{ b; }`, which
becomes `{ c; b; }`. -/
theorem rehomedProgram_inserts : rehomedSession.Reached ∧
    (∃ s', rehomedSession.Stale ⟨2⟩ s') ∧ rehomedSession.tree.Reachable ⟨6⟩ ∧
    rehomedSession.tree.kind? ⟨6⟩ = some (.blockStatement [⟨5⟩]) ∧
    ∃ s', PathId.insertBefore ⟨2⟩ [⟨8⟩] rehomedSession = .ok [⟨3⟩] s' ∧
      s'.tree.kind? ⟨6⟩ = some (.blockStatement [⟨8⟩, ⟨5⟩]) := by
  have hroot : rehomedSession.tree.root = some ⟨3⟩ ∧
      rehomedSession.tree.kind? ⟨3⟩ = some (.program [⟨6⟩] []) := by decide +kernel
  have hblock : rehomedSession.tree.Reachable ⟨6⟩ :=
    .child (.root hroot.1) ((Tree.isChild_iff _ _ _).mpr ⟨_, hroot.2, by decide⟩)
  have hresync : value? (PathId.resync ⟨2⟩) rehomedSession = some () := by decide +kernel
  have hstale : (after (PathId.resync ⟨2⟩) rehomedSession).paths[2]?.map PathData.removed =
      some true := by decide +kernel
  have hinsert : value? (PathId.insertBefore ⟨2⟩ [⟨8⟩]) rehomedSession = some [⟨3⟩] := by
    decide +kernel
  refine ⟨outdated_reached _ (fun p => .element p .body 0) _, ?_, hblock, by decide +kernel, ?_⟩
  · exact ⟨_, eq_ok_of_value? hresync, Option.map_eq_some_iff.mp hstale⟩
  · exact ⟨_, eq_ok_of_value? hinsert, by decide +kernel⟩

end Espalier
