import Espalier.Proofs.ClosedWalks
import Espalier.Proofs.Settling
import Espalier.Proofs.Sparing

set_option autoImplicit false

/-! # Moving declarations out of the function

The walk that moves `var` declarations out of a function rewrites the tree at the paths that it
visits. It comes to no path of a function that was put around statements, as these wait in no queue,
and what it rewrites are declarations, so that the calls that were made before stand when it ends. -/

namespace Espalier

open SessionM

namespace Session

variable {s s₁ s' : Session} {K : Set Wrapping} {s₀ : Session} {W : Wrapping}
  {p q : PathId} {n c : NodeId} {d : PathData} {scope : ScopeId} {α β σ : Type}

/-- Whatever the path holds stands at its place. -/
def InPlace (s : Session) (p : PathId) : Prop := ∀ n, s.Holds p n → ∃ c, s.Sits p c n

namespace Ledger

/-- What stands below a node that a wrapper cannot have is no wrapper's. -/
theorem spare_child (h : s.Ledger K s₀) {k : NodeKind} (hk : s.tree.kind? n = some k)
    (htype : k.type.isWrapping = false) (hcall : k.type ≠ .callExpression) (hc : c ∈ k.children) :
    s.Spare K c := by
  obtain ⟨pos, hpos, hocc⟩ := (Tree.isChild_iff _ n c).mpr ⟨k, hk, hc⟩
  exact ⟨h.closed.tree.children n k hk c hc,
    h.not_mem_below hocc hpos (Tree.type?_of_kind hk) htype hcall⟩

theorem forM (h : s.Ledger K s₀) {f : α → SessionM PUnit} (l : List α)
    (hf : ∀ a ∈ l, ∀ {s₁ s₂ u}, s.Extends s₁ → Ledger s₁ K s₀ → f a s₁ = .ok u s₂ →
      s₁.Tends K s₀ s₂) {u : PUnit} (hrun : l.forM f s = .ok u s') : s.Tends K s₀ s' := by
  induction l generalizing s with
  | nil =>
    cases hrun
    exact .refl h
  | cons a l ih =>
    have hrun : (f a >>= fun _ => l.forM f) s = .ok u s' := hrun
    obtain ⟨u₁, s₁, ha, hrun⟩ := bind_eq_ok hrun
    have h₁ := hf a List.mem_cons_self (.refl s) h ha
    exact h₁.trans (ih h₁.ledger (fun b hb _ _ _ hmore => hf b (List.mem_cons_of_mem _ hb)
      (h₁.more.trans hmore)) hrun)

/-- Nodes are made one after the other. -/
theorem mapM (h : s.Ledger K s₀) {f : α → SessionM NodeId} (l : List α)
    (hf : ∀ a ∈ l, ∀ {s₁ s₂ n}, s.Extends s₁ → Ledger s₁ K s₀ → f a s₁ = .ok n s₂ →
      s₁.Tends K s₀ s₂ ∧ s₂.Spare K n) {ids : List NodeId} (hrun : l.mapM f s = .ok ids s') :
    s.Tends K s₀ s' ∧ ∀ n ∈ ids, s'.Spare K n := by
  induction l generalizing s ids with
  | nil =>
    cases hrun
    exact ⟨.refl h, nofun⟩
  | cons a l ih =>
    rw [List.mapM_cons] at hrun
    obtain ⟨n, s₁, ha, hrun⟩ := bind_eq_ok hrun
    obtain ⟨rest, s₂, hrest, hrun⟩ := bind_eq_ok hrun
    cases hrun
    obtain ⟨h₁, hn⟩ := hf a List.mem_cons_self (.refl s) h ha
    obtain ⟨h₂, hids⟩ := ih h₁.ledger (fun b hb _ _ _ hmore => hf b (List.mem_cons_of_mem _ hb)
      (h₁.more.trans hmore)) hrest
    exact ⟨h₁.trans h₂, List.forall_mem_cons.mpr ⟨hn.mono h₂.more, hids⟩⟩

/-- Names are declared one after the other. -/
theorem declareAll (h : s.Ledger K s₀) (hscope : s.Knows scope) (names : List String) {u : PUnit}
    (hrun : names.forM (m := SessionM) (fun name => do let _ ← scope.pushDeclaration name none) s =
      .ok u s') :
    s.Tends K s₀ s' :=
  h.forM names (fun _ _ _ _ _ hmore h hrun => by
    obtain ⟨q, s₁, hpush, hrun⟩ := bind_eq_ok hrun
    cases hrun
    exact (h.pushDeclaration (hmore.knows hscope) (by rintro _ ⟨⟩) hpush).1) hrun

/-- Declarators become assignments, and their names are declared elsewhere. -/
theorem hoistDeclarators (h : s.Ledger K s₀) (hscope : s.Knows scope) (l : List NodeId)
    {r : Option NodeId × List NodeId} (hrun : PathId.hoistDeclarators scope l s = .ok r s') :
    s.Tends K s₀ s' ∧ (∀ n, r.1 = some n → s'.Spare K n) ∧ ∀ n ∈ r.2, s'.Spare K n := by
  induction l generalizing s r with
  | nil =>
    cases hrun
    exact ⟨.refl h, nofun, nofun⟩
  | cons declarator rest ih =>
    unfold PathId.hoistDeclarators at hrun
    obtain ⟨k, hk, hrun⟩ := question_bind_eq_ok (.ask _) hrun
    replace hk := (ask_eq_ok hk).2
    split at hrun
    · next id init =>
      have hid : s.Spare K id := h.spare_child hk rfl nofun (by simp [NodeKind.children, NodeKind.fields, Child.ids])
      have hinit : ∀ n, init = some n → s.Spare K n := fun n hn =>
        h.spare_child hk rfl nofun (by simp [NodeKind.children, NodeKind.fields, Child.ids, hn])
      obtain ⟨names, -, hrun⟩ := question_bind_eq_ok (.askBelow _ _) hrun
      obtain ⟨u, s₁, hdeclare, hrun⟩ := bind_eq_ok hrun
      have h₁ := h.declareAll hscope _ hdeclare
      obtain ⟨assignment, s₂, hassign, hrun⟩ := bind_eq_ok hrun
      have h₂ : s₁.Tends K s₀ s₂ ∧ ∀ n, assignment = some n → s₂.Spare K n := by
        cases init with
        | none =>
          cases hassign
          exact ⟨.refl h₁.ledger, nofun⟩
        | some value =>
          rw [Option.mapM_some, map_eq_pure_bind] at hassign
          obtain ⟨n, s₃, hmake, hassign⟩ := bind_eq_ok hassign
          cases hassign
          obtain ⟨h₂, -, -, hn⟩ := h₁.ledger.make (k := .assignmentExpression .assign id value)
            (by simpa [NodeKind.children, NodeKind.fields, Child.ids] using
              ⟨hid.mono h₁.more, (hinit value rfl).mono h₁.more⟩) hmake
          exact ⟨h₂, fun _ hm => Option.some.inj hm ▸ hn⟩
      obtain ⟨h₂, hassignment⟩ := h₂
      obtain ⟨⟨target, assignments⟩, s₃, hrest, hrun⟩ := bind_eq_ok hrun
      cases hrun
      obtain ⟨h₃, -, hassignments⟩ := ih h₂.ledger ((h₁.trans h₂).more.knows hscope) hrest
      refine ⟨h₁.trans (h₂.trans h₃), ?_, fun n hn => ?_⟩
      · rintro n ⟨⟩
        exact hid.mono (h₁.trans (h₂.trans h₃)).more
      · rcases List.mem_append.mp hn with hn | hn
        · exact (hassignment n (Option.mem_toList.mp hn)).mono h₃.more
        · exact hassignments n hn
    · exact ih h hscope hrun

section Nested

variable {replace : PathId → NodeId → SessionM Unit} (hreplace : Considerate replace)

include hreplace

theorem replaceForHead (h : s.Ledger K s₀) (hp : s.Skirts K p) (hknown : s.Knows p)
    {target : Option NodeId} (htarget : ∀ n, target = some n → s.Spare K n)
    {assignments : List NodeId} (hassignments : ∀ n ∈ assignments, s.Spare K n) {u : Unit}
    (hrun : p.replaceForHead replace target assignments s = .ok u s') :
    ∃ K', s.Accrues K s₀ s' K' := by
  obtain ⟨d, -, hrun⟩ := question_bind_eq_ok (.data p) hrun
  split at hrun
  · cases target with
    | none =>
      cases hrun
      exact ⟨K, (Tends.refl h).accrues⟩
    | some id => exact hreplace.accrues h hp.bypasses hknown (htarget id rfl) hrun
  · match assignments, hassignments, hrun with
    | [], _, hrun => exact h.removeUsing hreplace hp.bypasses.shuns hknown hrun
    | [single], hassignments, hrun =>
      exact hreplace.accrues h hp.bypasses hknown (hassignments single List.mem_cons_self) hrun
    | first :: second :: rest, hassignments, hrun =>
      obtain ⟨n, s₁, hmake, hrun⟩ := bind_eq_ok hrun
      obtain ⟨h₁, -, -, hn⟩ := h.make (k := .sequenceExpression (first :: second :: rest))
        (by simpa [NodeKind.children, NodeKind.fields, Child.ids] using hassignments) hmake
      obtain ⟨K', h₂⟩ := hreplace.accrues h₁.ledger (h₁.skirts p hp).bypasses (h₁.more.knows hknown) hn hrun
      exact ⟨K', h₁.accrues.trans h₂⟩

theorem replaceByStatements (h : s.Ledger K s₀) (hp : s.Skirts K p) (hknown : s.Knows p)
    {assignments : List NodeId} (hassignments : ∀ n ∈ assignments, s.Spare K n) {u : Unit}
    (hrun : p.replaceByStatements replace assignments s = .ok u s') :
    ∃ K', s.Accrues K s₀ s' K' := by
  obtain ⟨statements, s₁, hmake, hrun⟩ := bind_eq_ok hrun
  obtain ⟨h₁, hstatements⟩ := h.mapM assignments (fun a ha _ _ _ hmore h hmake => by
    obtain ⟨h₁, -, -, hn⟩ := h.make (k := .expressionStatement a)
      (by simpa [NodeKind.children, NodeKind.fields, Child.ids] using
        (hassignments a ha).mono hmore) hmake
    exact ⟨h₁, hn⟩) hmake
  have hp₁ := h₁.skirts p hp
  have hknown₁ := h₁.more.knows hknown
  have hend : ∀ {s₂ : Session} {n : NodeId} {u : Unit}, s₁.Tends K s₀ s₂ → s₂.Spare K n →
      replace p n s₂ = .ok u s' → ∃ K', s.Accrues K s₀ s' K' := by
    intro s₂ n u h₂ hn hrun
    obtain ⟨K', h₃⟩ := hreplace.accrues h₂.ledger (h₂.skirts p hp₁).bypasses (h₂.more.knows hknown₁) hn hrun
    exact ⟨K', (h₁.trans h₂).accrues.trans h₃⟩
  obtain ⟨list, -, hrun⟩ := question_bind_eq_ok (.inList p) hrun
  split at hrun
  · split at hrun
    · obtain ⟨K', h₂⟩ := h₁.ledger.removeUsing hreplace hp₁.bypasses.shuns hknown₁ hrun
      exact ⟨K', h₁.accrues.trans h₂⟩
    · obtain ⟨ps, s₂, hmultiple, hrun⟩ := bind_eq_ok hrun
      cases hrun
      exact ⟨K, (h₁.toHeeds.trans (h₁.ledger.replaceWithMultiple hp₁.bypasses hstatements hmultiple)).accrues⟩
  · match statements, hstatements, hrun with
    | [], _, hrun =>
      obtain ⟨n, s₂, hempty, hrun⟩ := bind_eq_ok hrun
      obtain ⟨h₂, -, -, hn⟩ := h₁.ledger.make (k := .emptyStatement) nofun hempty
      exact hend h₂ hn hrun
    | [single], hstatements, hrun =>
      exact hend (.refl h₁.ledger) (hstatements single List.mem_cons_self) hrun
    | first :: second :: rest, hstatements, hrun =>
      obtain ⟨n, s₂, hblock, hrun⟩ := bind_eq_ok hrun
      obtain ⟨h₂, -, -, hn⟩ := h₁.ledger.make (k := .blockStatement (first :: second :: rest))
        (by simpa [NodeKind.children, NodeKind.fields, Child.ids] using hstatements) hblock
      exact hend h₂ hn hrun

/-- A declaration at a path that shows what stands at its place is moved out. -/
theorem hoistDeclaration (h : s.Ledger K s₀) (hscope : s.Knows scope)
    (hp : s.InPlace p) {u : Unit}
    (hrun : p.hoistDeclaration replace scope s = .ok u s') : ∃ K', s.Accrues K s₀ s' K' := by
  obtain ⟨o, hkind, hrun⟩ := question_bind_eq_ok (.kind? p) hrun
  split at hrun
  · next declarations =>
    rcases PathId.kind?_eq_ok hkind with ⟨hnone, -⟩ | ⟨n, k, hsome, hholds, hk⟩
    · cases hnone
    · obtain rfl := Option.some.inj hsome
      obtain ⟨c, hsits⟩ := hp n hholds
      have hskirts := hsits.skirts (h.not_mem (Tree.type?_of_kind hk) rfl)
      obtain ⟨⟨target, assignments⟩, s₁, hdeclarators, hrun⟩ := bind_eq_ok hrun
      obtain ⟨h₁, htarget, hassignments⟩ := h.hoistDeclarators hscope declarations hdeclarators
      have hskirts₁ := h₁.skirts p hskirts
      have hknown₁ := h₁.more.knows hholds.knows
      obtain ⟨head, -, hrun⟩ := question_bind_eq_ok (.isForHead p) hrun
      split at hrun
      · obtain ⟨K', h₂⟩ := h₁.ledger.replaceForHead hreplace hskirts₁ hknown₁ htarget hassignments hrun
        exact ⟨K', h₁.accrues.trans h₂⟩
      · obtain ⟨K', h₂⟩ := h₁.ledger.replaceByStatements hreplace hskirts₁ hknown₁ hassignments hrun
        exact ⟨K', h₁.accrues.trans h₂⟩
  · cases hrun
    exact ⟨K, (Tends.refl h).accrues⟩

end Nested

/-! ## The walk -/

/-- What a path notes for the walk is no concern of the calls. -/
theorem flag (h : s.Ledger K s₀) (hd : s.paths[p.index]? = some d) {f : PathData → PathData}
    (hfit : (f d).Fit) (hremoved : (f d).removed = d.removed)
    (hf : ∀ d, (f d).node = d.node ∧ (f d).parent = d.parent ∧ (f d).container = d.container ∧
      (f d).key = d.key ∧ (f d).notes = d.notes) :
    s.Heeds K s₀ { s with paths := s.paths.modify p.index f } ∧
      ∀ q, s.InPlace q → InPlace { s with paths := s.paths.modify p.index f } q := by
  have hclosed : Careful (p.modifyData f) s :=
    .annotate (knows_of_data hd) fun e => ⟨(hf e).1, (hf e).2.1, (hf e).2.2.1⟩
  have hends := hclosed h.closed
  rw [p.modifyData_run hd f] at hends
  have hcalm := h.tidy.calm_modify f fun e he => by
    obtain rfl := Option.some.inj (hd.symm.trans he)
    exact ⟨hfit, (hf d).2.2.1, hremoved⟩
  have hposition : ∀ e, (f e).position? = e.position? := fun e => by
    rw [PathData.position?, PathData.position?, (hf e).2.2.1, (hf e).2.2.2.1]
  have hback : ∀ (q : PathId) e', (s.paths.modify p.index f)[q.index]? = some e' →
      ∃ e, s.paths[q.index]? = some e ∧ (e' = e ∨ e' = f e) := by
    intro q e' he'
    rw [getElem?_modify_paths] at he'
    split at he'
    · obtain ⟨e, he, rfl⟩ := Option.map_eq_some_iff.mp he'
      exact ⟨e, he, .inr rfl⟩
    · exact ⟨e', he', .inl rfl⟩
  have hforth : ∀ (q : PathId) e, s.paths[q.index]? = some e →
      ∃ e', (s.paths.modify p.index f)[q.index]? = some e' ∧ (e' = e ∨ e' = f e) := by
    intro q e he
    rw [getElem?_modify_paths]
    split
    · exact ⟨f e, by rw [he, Option.map_some], .inr rfl⟩
    · exact ⟨e, he, .inl rfl⟩
  refine ⟨h.step hcalm.tidy hends.2.1 hends.1 (fun W hW => (h.wraps W hW).tree.alike (.refl _))
    (fun W _ e he => ?_) (fun _ _ hq => hq) (noted_of_data fun q e' he' => ?_), fun q hq n hn => ?_⟩
  · obtain ⟨e', he', rfl | rfl⟩ := hforth _ e he
    · exact ⟨_, he', rfl, rfl, rfl⟩
    · exact ⟨_, he', (hf e).2.2.1, hposition e, (hf e).1⟩
  · obtain ⟨e, he, rfl | rfl⟩ := hback q e' he'
    · exact ⟨_, he, rfl⟩
    · exact ⟨e, he, (hf e).2.2.2.2⟩
  · obtain ⟨e', he', hn⟩ := hn
    obtain ⟨e, he, hsame⟩ := hback q e' he'
    have hnode : e'.node = e.node := by
      rcases hsame with rfl | rfl
      · rfl
      · exact (hf e).1
    obtain ⟨c, e₁, pos, he₁, hc, hn₁, hpos, hocc⟩ := hq n ⟨e, he, hnode ▸ hn⟩
    obtain rfl := Option.some.inj (he.symm.trans he₁)
    refine ⟨c, e', pos, he', ?_, hn, ?_, hocc⟩
    · rcases hsame with rfl | rfl
      · exact hc
      · exact (hf e).2.2.1.trans hc
    · rcases hsame with rfl | rfl
      · exact hpos
      · exact (hposition e).trans hpos

/-- Frames come and go, and queues get shorter. -/
theorem ofFrames (h : s.Ledger K s₀) (ht : s'.tree = s.tree) (hpaths : s'.paths = s.paths)
    (hcache : s'.cache = s.cache) (hdetached : s'.detached = s.detached)
    (hscopes : s'.scopes = s.scopes) (hparser : s'.parser = s.parser)
    (hframes : ∀ f ∈ s'.frames, ∀ q ∈ f.queue, s.Queued q) : s.Heeds K s₀ s' := by
  have hknown : ∀ f ∈ s'.frames, s.Knows f.queue := fun f hf q hq =>
    let ⟨g, hg, hqg⟩ := hframes f hf q hq
    h.closed.frames g hg q hqg
  obtain ⟨hmore, hclosed⟩ := h.closed.of_frames ht hpaths hcache hdetached hscopes hparser hknown
  exact h.step (h.tidy.of_same hpaths hcache hdetached) hclosed hmore
    (fun W hW => ht ▸ (h.wraps W hW).tree.alike (.refl _))
    (fun W _ e he => ⟨e, hpaths ▸ he, rfl, rfl, rfl⟩) (fun W _ ⟨f, hf, hq⟩ => hframes f hf _ hq)
    (noted_of_data fun q e he => ⟨e, hpaths ▸ he, rfl⟩)

section Walk

variable {w w' : Walk σ} {v : Visitor σ} {h : Handler σ}

/-- A question in a walk, and what is done with its answer. -/
theorem walk_question_bind_eq_ok {x : SessionM α} {f : α → WalkM σ β} {b : β}
    (hx : Composed (fun _ _ => False) x)
    (hrun : ((liftM x : WalkM σ α) >>= f) w = .ok b w') :
    ∃ a, x w.session = .ok a w.session ∧ f a w = .ok b w' := by
  obtain ⟨a, w₁, hask, hrun⟩ := bind_eq_ok hrun
  obtain ⟨s₁, hanswer, rfl⟩ := Walk.lift_eq_ok hask
  have hsame := hx.question_after w.session
  rw [after_of_ok hanswer] at hsame
  subst hsame
  exact ⟨a, hanswer, hrun⟩

/-- A computation of the session in a walk, and what is done with its value. -/
theorem walk_lift_bind_eq_ok {x : SessionM α} {f : α → WalkM σ β} {b : β}
    (hrun : ((liftM x : WalkM σ α) >>= f) w = .ok b w') :
    ∃ a s₁, x w.session = .ok a s₁ ∧ f a { w with session := s₁ } = .ok b w' := by
  obtain ⟨a, w₁, hlift, hrun⟩ := bind_eq_ok hrun
  obtain ⟨s₁, hx, rfl⟩ := Walk.lift_eq_ok hlift
  exact ⟨a, s₁, hx, hrun⟩

/-- The handler leaves the calls standing when the path that it is called on shows what stands at its
place. -/
def Minds (s₀ : Session) (scope : ScopeId) (h : Handler σ) : Prop :=
  ∀ {w w' : Walk σ} {K : Set Wrapping} {p : PathId} {u : Unit}, w.session.Ledger K s₀ →
    w.session.Knows scope → w.session.Knows p → w.session.InPlace p → h p w = .ok u w' →
    ∃ K', w.session.Accrues K s₀ w'.session K'

/-- There is at most one handler for a node, when it is entered, and it leaves the calls standing. -/
structure MindedBy (s₀ : Session) (scope : ScopeId) (v : Visitor σ) : Prop where
  enter : ∀ type, v.handlersFor .enter type = [] ∨
    ∃ h : Handler σ, v.handlersFor .enter type = [h] ∧ Minds s₀ scope h
  exit : ∀ type, v.handlersFor .exit type = []

theorem isInterrupted_eq_ok {b : Bool} (hrun : Walk.isInterrupted p n w = .ok b w') : w = w' := by
  obtain ⟨d, -, hrun⟩ := walk_question_bind_eq_ok (.data p) hrun
  cases hrun
  rfl

theorem mustStop_eq_ok {b : Bool} (hrun : Walk.mustStop p w = .ok b w') : w = w' := by
  obtain ⟨d, -, hrun⟩ := walk_question_bind_eq_ok (.data p) hrun
  cases hrun
  rfl

/-- What the steps of a walk keep, at some fuel. -/
structure Rounds (s₀ : Session) (scope : ScopeId) (v : Visitor σ) (fuel : Nat) : Prop where
  visit : ∀ {w w' : Walk σ} {K : Set Wrapping} {p : PathId} {depth : Nat} {requeued b : Bool},
    w.session.Ledger K s₀ → w.session.Knows scope → w.session.Knows p → w.session.InPlace p →
    Walk.visit v fuel depth p requeued w = .ok b w' → ∃ K', w.session.Accrues K s₀ w'.session K'
  drain : ∀ {w w' : Walk σ} {K : Set Wrapping} {depth : Nat} {b : Bool},
    w.session.Ledger K s₀ → w.session.Knows scope → Walk.drain v fuel depth w = .ok b w' →
    ∃ K', w.session.Accrues K s₀ w'.session K'
  visitList : ∀ {w w' : Walk σ} {K : Set Wrapping} {p : PathId} {owner : NodeId} {f : Field}
    {seen : List NodeId} {i depth : Nat} {b : Bool},
    w.session.Ledger K s₀ → w.session.Knows scope → w.session.Knows p →
    Walk.visitList v fuel depth p owner f seen i w = .ok b w' →
    ∃ K', w.session.Accrues K s₀ w'.session K'
  visitFields : ∀ {w w' : Walk σ} {K : Set Wrapping} {p : PathId} {n : NodeId} {fields : List Field}
    {depth : Nat} {b : Bool}, w.session.Ledger K s₀ → w.session.Knows scope → w.session.Knows p →
    Walk.visitFields v fuel depth p n fields w = .ok b w' → ∃ K', w.session.Accrues K s₀ w'.session K'
  visitSingle : ∀ {w w' : Walk σ} {K : Set Wrapping} {p : PathId} {depth : Nat} {b : Bool},
    w.session.Ledger K s₀ → w.session.Knows scope → w.session.Knows p → w.session.InPlace p →
    Walk.visitSingle v fuel depth p w = .ok b w' → ∃ K', w.session.Accrues K s₀ w'.session K'

theorem enter (hv : MindedBy s₀ scope v) (h : w.session.Ledger K s₀) (hscope : w.session.Knows scope)
    (hknown : w.session.Knows p) (hp : w.session.InPlace p) {type : NodeType} {b : Bool}
    (hrun : Walk.callAll p n (v.handlersFor .enter type) w = .ok b w') :
    ∃ K', w.session.Accrues K s₀ w'.session K' := by
  rcases hv.enter type with hnone | ⟨handler, hone, hminds⟩
  · rw [hnone] at hrun
    obtain rfl := isInterrupted_eq_ok hrun
    exact ⟨K, (Tends.refl h).accrues⟩
  · rw [hone] at hrun
    obtain ⟨interrupted, w₁, hinterrupted, hrun⟩ := bind_eq_ok hrun
    obtain rfl := isInterrupted_eq_ok hinterrupted
    split at hrun
    · cases hrun
      exact ⟨K, (Tends.refl h).accrues⟩
    · obtain ⟨u, w₂, hcall, hrun⟩ := bind_eq_ok hrun
      obtain rfl := isInterrupted_eq_ok hrun
      exact hminds h hscope hknown hp hcall

theorem withFrame {body : WalkM σ Bool} (h : w.session.Ledger K s₀) {b : Bool}
    (hbody : ∀ {w₁ w₂ : Walk σ}, w.session.Heeds K s₀ w₁.session →
      (∀ q, w.session.InPlace q → w₁.session.InPlace q) → body w₁ = .ok b w₂ →
      ∃ K', w₁.session.Accrues K s₀ w₂.session K')
    (hrun : Walk.withFrame body w = .ok b w') : ∃ K', w.session.Accrues K s₀ w'.session K' := by
  let start := Walk.pushFrame w
  have hstart : w.session.Heeds K s₀ start.session := h.ofFrames rfl rfl rfl rfl rfl rfl
    fun f hf q hq => by
      rcases List.mem_cons.mp hf with rfl | hf
      · simp at hq
      · exact ⟨f, hf, hq⟩
  have hrun : Walk.ensuring body (Walk.dropFrame w.session.nextFrame) start = .ok b w' := hrun
  cases hends : body start with
  | error e w₂ => simp [Walk.ensuring, hends] at hrun
  | ok b' w₂ =>
    simp only [Walk.ensuring, hends] at hrun
    obtain ⟨rfl, rfl⟩ := EStateM.Result.ok.inj hrun
    obtain ⟨K', h'⟩ := hbody hstart (fun _ hq => hq) hends
    refine ⟨K', hstart.accrues.trans (h'.trans (Heeds.accrues ?_))⟩
    exact h'.ledger.ofFrames rfl rfl rfl rfl rfl rfl fun f hf q hq => ⟨f, (List.mem_filter.mp hf).1, hq⟩

theorem visit_succ (hv : MindedBy s₀ scope v) {fuel depth : Nat} (ih : Rounds s₀ scope v fuel)
    (h : w.session.Ledger K s₀) (hscope : w.session.Knows scope) (hknown : w.session.Knows p)
    (hp : w.session.InPlace p) {requeued b : Bool}
    (hrun : Walk.visit v (fuel + 1) depth p requeued w = .ok b w') :
    ∃ K', w.session.Accrues K s₀ w'.session K' := by
  rw [Walk.visit] at hrun
  obtain ⟨stopping, w₁, hstopping, hrun⟩ := bind_eq_ok hrun
  cases hstopping
  have hstay : ∃ K', w.session.Accrues K s₀ w.session K' := ⟨K, (Tends.refl h).accrues⟩
  split at hrun
  · cases hrun
    exact hstay
  · obtain ⟨d, hdata, hrun⟩ := walk_question_bind_eq_ok (.data p) hrun
    obtain ⟨-, hd⟩ := PathId.data_eq_ok hdata
    rcases hnode : d.node with _ | node
    · rw [hnode] at hrun
      cases hrun
      exact hstay
    rcases hlive : d.removed with _ | _
    case true =>
      rw [hnode, hlive] at hrun
      cases hrun
      exact hstay
    case false =>
      rw [hnode, hlive] at hrun
      obtain ⟨type, -, hrun⟩ := walk_question_bind_eq_ok (.ask _) hrun
      rw [run_get_bind] at hrun
      split at hrun
      · cases hrun
        exact hstay
      · split at hrun
        · cases hrun
        · rw [bind_of_ok (Walk.beginVisit_of_data hd requeued)] at hrun
          obtain ⟨h₁, hkept⟩ := h.flag hd (f := fun d => { d with
              frame := w.session.frames.head?.map Frame.id
              skip := false
              stop := false
              requeues := if requeued then d.requeues else 0 })
            ⟨fun hr => by simp [hlive] at hr, (h.tidy.fit p d hd).adrift⟩ rfl
            fun _ => ⟨rfl, rfl, rfl, rfl, rfl⟩
          obtain ⟨interrupted, w₂, hcalls, hrun⟩ := bind_eq_ok hrun
          obtain ⟨K₂, h₂⟩ := enter hv (w := { w with session := _, visited := _ }) h₁.ledger
            (h₁.more.knows hscope) (h₁.more.knows hknown) (hkept p hp) hcalls
          have h₁₂ := h₁.accrues.trans h₂
          split at hrun
          · obtain rfl := mustStop_eq_ok hrun
            exact ⟨K₂, h₁₂⟩
          · obtain ⟨stopped, w₃, hfields, hrun⟩ := bind_eq_ok hrun
            obtain ⟨K₃, h₃⟩ := ih.visitFields h₂.ledger (h₁₂.more.knows hscope) (h₁₂.more.knows hknown)
              hfields
            have h₁₃ := h₁₂.trans h₃
            split at hrun
            · cases hrun
              exact ⟨K₃, h₁₃⟩
            · obtain ⟨d', -, hrun⟩ := walk_question_bind_eq_ok (.data p) hrun
              split at hrun
              · obtain rfl := mustStop_eq_ok hrun
                exact ⟨K₃, h₁₃⟩
              · obtain ⟨type', -, hrun⟩ := walk_question_bind_eq_ok (.ask _) hrun
                obtain ⟨interrupted, w₄, hcalls, hrun⟩ := bind_eq_ok hrun
                rw [hv.exit] at hcalls
                obtain rfl := isInterrupted_eq_ok hcalls
                obtain rfl := mustStop_eq_ok hrun
                exact ⟨K₃, h₁₃⟩

/-- The next path of the queue is none of a wrapped function's. -/
theorem dequeue (h : w.session.Ledger K s₀) {o : Option PathId}
    (hrun : Walk.dequeue w = .ok o w') : w.session.Heeds K s₀ w'.session ∧
      ∀ q, o = some q → w.session.Knows q ∧ ∀ W ∈ K, W.callee ≠ q := by
  cases hframes : w.session.frames with
  | nil =>
    simp only [Walk.dequeue, run_get_bind, hframes] at hrun
    cases hrun
    exact ⟨(Tends.refl h).toHeeds, fun q hq => by cases hq⟩
  | cons f rest =>
    cases hqueue : f.queue with
    | nil =>
      simp only [Walk.dequeue, run_get_bind, hframes, hqueue] at hrun
      cases hrun
      exact ⟨(Tends.refl h).toHeeds, fun q hq => by cases hq⟩
    | cons q queue =>
      simp only [Walk.dequeue, run_get_bind, hframes, hqueue] at hrun
      cases hrun
      have hf : f ∈ w.session.frames := hframes ▸ List.mem_cons_self
      have hq : q ∈ f.queue := hqueue ▸ List.mem_cons_self
      refine ⟨h.ofFrames rfl rfl rfl rfl rfl rfl fun g hg r hr => ?_, ?_⟩
      · rcases List.mem_cons.mp hg with rfl | hg
        · exact ⟨f, hf, hqueue ▸ List.mem_cons_of_mem _ hr⟩
        · exact ⟨g, hframes ▸ List.mem_cons_of_mem _ hg, hr⟩
      · rintro _ ⟨⟩
        exact ⟨h.closed.frames f hf q hq, fun W hW heq => (h.wraps W hW).idle (heq ▸ ⟨f, hf, hq⟩)⟩

theorem countRequeue (h : w.session.Ledger K s₀) (hd : w.session.paths[p.index]? = some d)
    {u : Unit} (hrun : Walk.countRequeue p w = .ok u w') : w.session.Heeds K s₀ w'.session ∧
      ∀ q, w.session.InPlace q → w'.session.InPlace q := by
  unfold Walk.countRequeue at hrun
  rw [run_get_bind, bind_of_ok (Walk.lift_run (p.modifyData_run hd _))] at hrun
  obtain ⟨d', -, hrun⟩ := walk_question_bind_eq_ok (.data p) hrun
  split at hrun
  · obtain ⟨type, -, hrun⟩ := walk_question_bind_eq_ok (.type? p) hrun
    cases hrun
  · cases hrun
    exact h.flag hd (h.tidy.fit p d hd |> fun hfit => ⟨hfit.removed, hfit.adrift⟩) rfl
      fun _ => ⟨rfl, rfl, rfl, rfl, rfl⟩

theorem drain_succ {fuel depth : Nat} (ih : Rounds s₀ scope v fuel) (h : w.session.Ledger K s₀)
    (hscope : w.session.Knows scope) {b : Bool} (hrun : Walk.drain v (fuel + 1) depth w = .ok b w') :
    ∃ K', w.session.Accrues K s₀ w'.session K' := by
  rw [Walk.drain] at hrun
  obtain ⟨o, w₁, hnext, hrun⟩ := bind_eq_ok hrun
  obtain ⟨h₁, hq⟩ := dequeue h hnext
  cases o with
  | none =>
    cases hrun
    exact ⟨K, h₁.accrues⟩
  | some p =>
    obtain ⟨hknown, hcallee⟩ := hq p rfl
    obtain ⟨u, s₂, hresync, hrun⟩ := walk_lift_bind_eq_ok hrun
    have h₂ := h₁.trans (h₁.ledger.resync hcallee hresync)
    obtain ⟨removed, hremoved, hrun⟩ := walk_question_bind_eq_ok (.isRemoved p) hrun
    obtain ⟨-, d, hd, hlive⟩ := PathId.isRemoved_eq_ok hremoved
    cases removed with
    | true =>
      obtain ⟨K', h₃⟩ := ih.drain (w := { w₁ with session := s₂ }) h₂.ledger (h₂.more.knows hscope) hrun
      exact ⟨K', h₂.accrues.trans h₃⟩
    | false =>
      obtain ⟨-, hstep, -⟩ := h₁.ledger.resync_inStep hcallee hresync hd hlive
      obtain ⟨u, w₃, hcount, hrun⟩ := bind_eq_ok hrun
      obtain ⟨h₃, hkept⟩ := countRequeue (w := { w₁ with session := s₂ }) h₂.ledger hd hcount
      have hp : s₂.InPlace p := by
        rintro n ⟨e, he, hn⟩
        obtain rfl := Option.some.inj (hd.symm.trans he)
        exact ⟨_, hstep.sits hd hn⟩
      have h₁₃ := h₂.trans h₃
      obtain ⟨stopped, w₄, hvisit, hrun⟩ := bind_eq_ok hrun
      obtain ⟨K₄, h₄⟩ := ih.visit h₃.ledger (h₁₃.more.knows hscope) (h₁₃.more.knows hknown)
        (hkept p hp) hvisit
      have h₁₄ := h₁₃.accrues.trans h₄
      split at hrun
      · cases hrun
        exact ⟨K₄, h₁₄⟩
      · obtain ⟨K₅, h₅⟩ := ih.drain h₄.ledger (h₁₄.more.knows hscope) hrun
        exact ⟨K₅, h₁₄.trans h₅⟩

theorem visitList_succ {fuel depth i : Nat} (ih : Rounds s₀ scope v fuel)
    (h : w.session.Ledger K s₀) (hscope : w.session.Knows scope) (hknown : w.session.Knows p)
    {owner : NodeId} {f : Field} {seen : List NodeId} {b : Bool}
    (hrun : Walk.visitList v (fuel + 1) depth p owner f seen i w = .ok b w') :
    ∃ K', w.session.Accrues K s₀ w'.session K' := by
  rw [Walk.visitList] at hrun
  have hstay : ∃ K', w.session.Accrues K s₀ w.session K' := ⟨K, (Tends.refl h).accrues⟩
  obtain ⟨o, -, hrun⟩ := walk_question_bind_eq_ok (.node? p) hrun
  split at hrun
  · cases hrun
    exact hstay
  · obtain ⟨length, -, hrun⟩ := walk_question_bind_eq_ok (.listLength owner f) hrun
    split at hrun
    · cases hrun
      exact hstay
    · obtain ⟨q, s₁, helement, hrun⟩ := walk_lift_bind_eq_ok hrun
      obtain ⟨h₁, hq⟩ := h.charting (Navigating.element p f i).charting (.element hknown f i) helement
      obtain ⟨node, hnode, hrun⟩ := walk_question_bind_eq_ok (.node? q) hrun
      cases node with
      | none =>
        cases hrun
        exact ⟨K, h₁.accrues⟩
      | some n =>
        obtain ⟨m, -, -, hsits, -⟩ := PathId.element_sits h.tidy helement (PathId.holds_of_node? hnode).2
        have hcallee : ∀ W ∈ K, W.callee ≠ q := by
          obtain ⟨d, pos, hd, hc, -⟩ := hsits
          exact fun W hW => (h₁.ledger.wraps W hW).callee_ne_of_container hd fun o ho => by simp [hc] at ho
        have hplace : s₁.InPlace q := fun n' hn' => by
          obtain ⟨m, -, -, hsits, -⟩ := PathId.element_sits h.tidy helement hn'
          exact ⟨_, hsits⟩
        dsimp only at hrun
        split at hrun
        · obtain ⟨K', h₂⟩ := ih.visitList (w := { w with session := s₁ }) h₁.ledger
            (h₁.more.knows hscope) (h₁.more.knows hknown) hrun
          exact ⟨K', h₁.accrues.trans h₂⟩
        · obtain ⟨stopped, w₂, hvisit, hrun⟩ := bind_eq_ok hrun
          obtain ⟨K₂, h₂⟩ := ih.visit (w := { w with session := s₁ }) h₁.ledger (h₁.more.knows hscope)
            hq hplace hvisit
          split at hrun
          · cases hrun
            exact ⟨K₂, h₁.accrues.trans h₂⟩
          · obtain ⟨stopped, w₃, hdrain, hrun⟩ := bind_eq_ok hrun
            obtain ⟨K₃, h₃⟩ := ih.drain h₂.ledger (h₂.more.knows (h₁.more.knows hscope)) hdrain
            have h₂₃ := h₂.trans h₃
            split at hrun
            · cases hrun
              exact ⟨K₃, h₁.accrues.trans h₂₃⟩
            · obtain ⟨u, s₄, hresync, hrun⟩ := walk_lift_bind_eq_ok hrun
              have h₄ := h₃.ledger.resync (h₂₃.callee_ne hq hcallee) hresync
              have h₁₄ := h₁.accrues.trans (h₂₃.trans h₄.accrues)
              obtain ⟨d, -, hrun⟩ := walk_question_bind_eq_ok (.data q) hrun
              obtain ⟨K₅, h₅⟩ := ih.visitList (w := { w₃ with session := s₄ }) h₄.ledger
                (h₁₄.more.knows hscope) (h₁₄.more.knows hknown) hrun
              exact ⟨K₅, h₁₄.trans h₅⟩

theorem visitFields_succ {fuel depth : Nat} (ih : Rounds s₀ scope v fuel)
    (h : w.session.Ledger K s₀) (hscope : w.session.Knows scope) (hknown : w.session.Knows p)
    {fields : List Field} {b : Bool}
    (hrun : Walk.visitFields v (fuel + 1) depth p n fields w = .ok b w') :
    ∃ K', w.session.Accrues K s₀ w'.session K' := by
  cases fields with
  | nil =>
    rw [Walk.visitFields] at hrun
    cases hrun
    exact ⟨K, (Tends.refl h).accrues⟩
  | cons f fields =>
    rw [Walk.visitFields] at hrun
    obtain ⟨o, -, hrun⟩ := walk_question_bind_eq_ok (.node? p) hrun
    split at hrun
    · cases hrun
      exact ⟨K, (Tends.refl h).accrues⟩
    · obtain ⟨k, -, hrun⟩ := walk_question_bind_eq_ok (.ask _) hrun
      have hrest : ∀ (stopped : Bool) {w₁ : Walk σ} {K₁ : Set Wrapping},
          w.session.Accrues K s₀ w₁.session K₁ →
          (if stopped then pure true else Walk.visitFields v fuel depth p n fields : WalkM σ Bool) w₁ =
            .ok b w' → ∃ K', w.session.Accrues K s₀ w'.session K' := by
        intro stopped w₁ K₁ h₁ hrun
        split at hrun
        · cases hrun
          exact ⟨K₁, h₁⟩
        · obtain ⟨K₂, h₂⟩ := ih.visitFields h₁.ledger (h₁.more.knows hscope) (h₁.more.knows hknown) hrun
          exact ⟨K₂, h₁.trans h₂⟩
      have hchild : ((do
          let child ← p.child f
          let stopped ← Walk.visitSingle v fuel depth child
          if stopped then pure true else Walk.visitFields v fuel depth p n fields : WalkM σ Bool)) w =
            .ok b w' →
          ∃ K', w.session.Accrues K s₀ w'.session K' := by
        intro hrun
        obtain ⟨q, s₂, hchild, hrun⟩ := walk_lift_bind_eq_ok hrun
        obtain ⟨h₂, hq⟩ := h.charting (Navigating.child p f).charting (.child hknown f) hchild
        have hplace : s₂.InPlace q := fun n' hn' => by
          obtain ⟨m, -, -, hsits, -⟩ := PathId.child_sits h.tidy hchild hn'
          exact ⟨_, hsits⟩
        obtain ⟨stopped, w₃, hvisit, hrun⟩ := bind_eq_ok hrun
        obtain ⟨K₃, h₃⟩ := ih.visitSingle (w := { w with session := s₂ }) h₂.ledger
          (h₂.more.knows hscope) hq hplace hvisit
        exact hrest stopped (h₂.accrues.trans h₃) hrun
      cases hc : k.child? f with
      | none =>
        rw [hc] at hrun
        exact hrest false (Tends.refl h).accrues hrun
      | some c =>
        rw [hc] at hrun
        rcases c with _ | (_ | _) | _
        case many =>
          obtain ⟨stopped, w₁, hlist, hrun⟩ := bind_eq_ok hrun
          obtain ⟨K₁, h₁⟩ := withFrame h (fun hh _ hbody => ih.visitList hh.ledger (hh.more.knows hscope)
            (hh.more.knows hknown) hbody) hlist
          exact hrest stopped h₁ hrun
        case one => exact hchild hrun
        case opt.some => exact hchild hrun
        case opt.none => exact hrest false (Tends.refl h).accrues hrun

theorem visitSingle_succ {fuel depth : Nat} (ih : Rounds s₀ scope v fuel)
    (h : w.session.Ledger K s₀) (hscope : w.session.Knows scope) (hknown : w.session.Knows p)
    (hp : w.session.InPlace p) {b : Bool}
    (hrun : Walk.visitSingle v (fuel + 1) depth p w = .ok b w') :
    ∃ K', w.session.Accrues K s₀ w'.session K' := by
  rw [Walk.visitSingle] at hrun
  obtain ⟨o, -, hrun⟩ := walk_question_bind_eq_ok (.node? p) hrun
  cases o with
  | none =>
    cases hrun
    exact ⟨K, (Tends.refl h).accrues⟩
  | some n =>
    refine withFrame h (fun {w₁ w₂} h₁ hkept hbody => ?_) hrun
    obtain ⟨stopped, w₃, hvisit, hbody⟩ := bind_eq_ok hbody
    obtain ⟨K₂, h₂⟩ := ih.visit h₁.ledger (h₁.more.knows hscope) (h₁.more.knows hknown) (hkept p hp) hvisit
    split at hbody
    · cases hbody
      exact ⟨K₂, h₂⟩
    · obtain ⟨K₃, h₃⟩ := ih.drain h₂.ledger (h₂.more.knows (h₁.more.knows hscope)) hbody
      exact ⟨K₃, h₂.trans h₃⟩

theorem rounds (hv : MindedBy s₀ scope v) (fuel : Nat) : Rounds s₀ scope v fuel := by
  induction fuel with
  | zero =>
    refine ⟨fun _ _ _ _ hrun => ?_, fun _ _ hrun => ?_, fun _ _ _ hrun => ?_, fun _ _ _ hrun => ?_,
      fun _ _ _ _ hrun => ?_⟩
    · rw [Walk.visit] at hrun
      cases hrun
    · rw [Walk.drain] at hrun
      cases hrun
    · rw [Walk.visitList] at hrun
      cases hrun
    · rw [Walk.visitFields] at hrun
      cases hrun
    · rw [Walk.visitSingle] at hrun
      cases hrun
  | succ fuel ih =>
    exact ⟨fun h hscope hknown hp hrun => visit_succ hv ih h hscope hknown hp hrun,
      fun h hscope hrun => drain_succ ih h hscope hrun,
      fun h hscope hknown hrun => visitList_succ ih h hscope hknown hrun,
      fun h hscope hknown hrun => visitFields_succ ih h hscope hknown hrun,
      fun h hscope hknown hp hrun => visitSingle_succ ih h hscope hknown hp hrun⟩

/-- A walk over the children of a path leaves the calls standing. -/
theorem traverseNode (hv : MindedBy s₀ scope v) (h : w.session.Ledger K s₀)
    (hscope : w.session.Knows scope) (hknown : w.session.Knows p) {r : Traversal}
    (hrun : p.traverse v w = .ok r w') : ∃ K', w.session.Accrues K s₀ w'.session K' := by
  obtain ⟨o, -, hrun⟩ := walk_question_bind_eq_ok (.node? p) hrun
  cases o with
  | none =>
    cases hrun
    exact ⟨K, (Tends.refl h).accrues⟩
  | some n =>
    let start : Walk σ := { w with visited := 0, session := { w.session with stopping := false } }
    have hstart : w.session.Heeds K s₀ start.session :=
      h.ofFrames rfl rfl rfl rfl rfl rfl fun f hf q hq => ⟨f, hf, hq⟩
    simp only [Walk.isolated] at hrun
    split at hrun
    · next stopped w₁ hbody =>
      obtain ⟨rfl, rfl⟩ := EStateM.Result.ok.inj hrun
      obtain ⟨type, -, hbody⟩ := walk_question_bind_eq_ok (w := start) (.ask _) hbody
      obtain ⟨K', h₁⟩ := (rounds hv Walk.defaultFuel).visitFields hstart.ledger (hstart.more.knows hscope)
        (hstart.more.knows hknown) hbody
      refine ⟨K', hstart.accrues.trans (h₁.trans (Heeds.accrues ?_))⟩
      exact h₁.ledger.ofFrames rfl rfl rfl rfl rfl rfl fun f hf q hq => ⟨f, List.mem_of_mem_drop hf, hq⟩
    · cases hrun

end Walk

/-- The declarations below a known path are moved out. -/
theorem hoistVariables {replace : PathId → NodeId → SessionM Unit} (hreplace : Considerate replace)
    (h : s.Ledger K s₀) (hscope : s.Knows scope) (hknown : s.Knows p) {u : Unit}
    (hrun : PathId.hoistVariables replace p scope s = .ok u s') : ∃ K', s.Accrues K s₀ s' K' := by
  let v : Visitor Unit := Visitor.empty
    |>.on .enter (.category .function) (fun p => p.skip)
    |>.on .enter (.type .variableDeclaration) (fun p => PathId.hoistDeclaration replace scope p)
  have hskip : Minds s₀ scope (σ := Unit) fun p => p.skip := by
    intro w w' K p u h hscope hknown hp hrun
    obtain ⟨s₁, hskip, rfl⟩ := Walk.lift_eq_ok hrun
    obtain ⟨d, hd⟩ := exists_data hknown
    cases (p.modifyData_run hd _).symm.trans hskip
    have hfit := h.tidy.fit p d hd
    exact ⟨K, (h.flag hd (f := fun d => { d with skip := true }) ⟨fun hr => ⟨(hfit.removed hr).1, rfl, (hfit.removed hr).2.2⟩, hfit.adrift⟩ rfl
      fun _ => ⟨rfl, rfl, rfl, rfl, rfl⟩).1.accrues⟩
  have hdeclaration : Minds s₀ scope (σ := Unit) fun p => PathId.hoistDeclaration replace scope p := by
    intro w w' K p u h hscope hknown hp hrun
    obtain ⟨s₁, hdeclaration, rfl⟩ := Walk.lift_eq_ok hrun
    exact h.hoistDeclaration hreplace hscope hp hdeclaration
  have hv : MindedBy s₀ scope v := by
    refine ⟨fun type => ?_, fun type => ?_⟩
    · by_cases htype : type = .variableDeclaration
      · subst htype
        exact .inr ⟨_, rfl, hdeclaration⟩
      · by_cases hfunction : type.belongsTo .function = true
        · refine .inr ⟨_, ?_, hskip⟩
          simp [v, Visitor.handlersFor, Visitor.select, Visitor.on, Visitor.empty, hfunction, Ne.symm htype]
        · refine .inl ?_
          simp [v, Visitor.handlersFor, Visitor.select, Visitor.on, Visitor.empty, hfunction, Ne.symm htype]
    · rfl
  obtain ⟨r, s₁, hwalk, hrun⟩ := bind_eq_ok hrun
  cases hrun
  unfold WalkM.runOn at hwalk
  cases hends : (p.traverse v) { session := s, own := () } with
  | error e w => rw [hends] at hwalk; cases hwalk
  | ok r' w =>
    rw [hends] at hwalk
    cases hwalk
    exact traverseNode (w := { session := s, own := () }) hv h hscope hknown hends

end Ledger

end Session

end Espalier
