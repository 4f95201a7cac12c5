import Espalier.Proofs.Resyncing
import Espalier.Proofs.Tending

set_option autoImplicit false

/-! # Replacement and removal around the function

A node is put in the place of another one, or taken out, at a path that shows none of a wrapper's
nodes. -/

namespace Espalier

open SessionM

/-- A path at a field lives in the node, under the name of the field. -/
theorem PathData.position?_eq_slot {d : PathData} {owner : NodeId} {f : Field} :
    d.position? = some (.slot owner f) ↔ d.container = .slot owner ∧ d.key = .field f := by
  constructor
  · intro h
    obtain hc := Container.position?_container h
    refine ⟨hc.symm, ?_⟩
    unfold PathData.position? at h
    rw [← hc] at h
    unfold Container.position? at h
    split at h <;> simp_all [Position.container]
  · rintro ⟨hc, hk⟩
    rw [PathData.position?, hc, hk]
    rfl

namespace Session

variable {s s₁ s' : Session} {K : Set Wrapping} {s₀ : Session} {W : Wrapping}
  {p q : PathId} {n new : NodeId} {d : PathData}

/-- The path holds a node, and it is no wrapper's. -/
def Bypasses (s : Session) (K : Set Wrapping) (p : PathId) : Prop :=
  ∀ W ∈ K, ∃ n, s.Holds p n ∧ n ∉ W.nodes

theorem Holds.bypasses (h : s.Holds p n) (hn : ∀ W ∈ K, n ∉ W.nodes) : s.Bypasses K p :=
  fun W hW => ⟨n, h, hn W hW⟩

theorem Skirts.bypasses (h : s.Skirts K p) : s.Bypasses K p :=
  let ⟨_, hp, hn⟩ := h.holds
  hp.bypasses hn

theorem Bypasses.not_mem (h : s.Bypasses K p) (hp : s.Holds p n) : ∀ W ∈ K, n ∉ W.nodes := by
  intro W hW
  obtain ⟨m, hm, hmem⟩ := h W hW
  rwa [hp.unique_node hm]

/-- What the path holds is no wrapper's. -/
def Shuns (s : Session) (K : Set Wrapping) (p : PathId) : Prop :=
  ∀ n, s.Holds p n → ∀ W ∈ K, n ∉ W.nodes

theorem Bypasses.shuns (h : s.Bypasses K p) : s.Shuns K p := fun _ hn => h.not_mem hn

theorem Shuns.callee_ne (hp : s.Shuns K p) (h : s.Ledger K s₀) : ∀ W ∈ K, W.callee ≠ p := by
  rintro W hW rfl
  exact hp _ (h.wraps W hW).holds W hW W.function_mem

theorem Bypasses.callee_ne (hp : s.Bypasses K p) (h : s.Ledger K s₀) : ∀ W ∈ K, W.callee ≠ p :=
  hp.shuns.callee_ne h

theorem InStep.sits (h : s.InStep d) (hd : s.paths[p.index]? = some d) (hn : d.node = some n) :
    s.Sits p d.container n :=
  let ⟨pos, hpos, hocc⟩ := h.stands n hn
  ⟨d, pos, hd, rfl, hn, hpos, hocc⟩

/-- The calls stand after the step. Others may have been made in it: these stand too, and the paths
of their functions are new. -/
structure Accrues (s : Session) (K : Set Wrapping) (s₀ s' : Session) (K' : Set Wrapping) :
    Prop where
  sub : K ⊆ K'
  ledger : s'.Ledger K' s₀
  more : s.Extends s'
  fresh : ∀ W ∈ K', W ∈ K ∨ s.paths.size ≤ W.callee.index

section Accrues

variable {K₁ K₂ : Set Wrapping}

theorem Heeds.accrues (h : s.Heeds K s₀ s') : s.Accrues K s₀ s' K :=
  ⟨subset_rfl, h.ledger, h.more, fun _ hW => .inl hW⟩

theorem Accrues.trans (h₁ : s.Accrues K s₀ s₁ K₁) (h₂ : s₁.Accrues K₁ s₀ s' K₂) :
    s.Accrues K s₀ s' K₂ where
  sub := h₁.sub.trans h₂.sub
  ledger := h₂.ledger
  more := h₁.more.trans h₂.more
  fresh W hW := (h₂.fresh W hW).elim (h₁.fresh W) fun hle => .inr (h₁.more.paths.trans hle)

/-- A path that was there is not that of a new function. -/
theorem Accrues.callee_ne (h : s.Accrues K s₀ s' K₁) (hp : s.Knows p)
    (hne : ∀ W ∈ K, W.callee ≠ p) : ∀ W ∈ K₁, W.callee ≠ p := by
  intro W hW
  rcases h.fresh W hW with hold | hnew
  · exact hne W hold
  · rintro rfl
    exact Nat.not_lt_of_le hnew hp

end Accrues

/-- Every path lives where it lived before. -/
def KeepsPlaces (s s' : Session) : Prop := ∀ (q : PathId) d', s'.paths[q.index]? = some d' →
  ∃ d, s.paths[q.index]? = some d ∧ d'.container = d.container

theorem KeepsPlaces.trans (h₁ : s.KeepsPlaces s₁) (h₂ : s₁.KeepsPlaces s') : s.KeepsPlaces s' := by
  intro q d' hd'
  obtain ⟨d₁, hd₁, hc₁⟩ := h₂ q d' hd'
  obtain ⟨d, hd, hc⟩ := h₁ q d₁ hd₁
  exact ⟨d, hd, hc₁.trans hc⟩

theorem keepsPlaces_of_paths (h : s'.paths = s.paths) : s.KeepsPlaces s' :=
  fun _ d hd => ⟨d, h ▸ hd, rfl⟩

/-- Every path lives where it lived before, or below a node that some path held before. -/
def Resettles (s s' : Session) : Prop := ∀ (q : PathId) d', s'.paths[q.index]? = some d' →
  (∃ d, s.paths[q.index]? = some d ∧ d'.container = d.container) ∨
    ∀ m, d'.container.parent? = some m → ∃ r, s.Holds r m

theorem Resettles.keeping (h₁ : s.Resettles s₁) (h₂ : s₁.KeepsPlaces s') : s.Resettles s' := by
  intro q d' hd'
  obtain ⟨d₁, hd₁, hc₁⟩ := h₂ q d' hd'
  rw [hc₁]
  exact h₁ q d₁ hd₁

theorem KeepsPlaces.resettles (h : s.KeepsPlaces s') : s.Resettles s' := fun q d' hd' => .inl (h q d' hd')

/-- Replacing the node of a path that bypasses the calls leaves the calls standing. -/
structure Considerate (replace : PathId → NodeId → SessionM Unit) : Prop where
  tidying : ∀ p n, Tidying (replace p n)
  careful : ∀ {s p n}, s.Knows p → s.Knows n → Careful (replace p n) s
  /-- Nothing is put where there is no position. -/
  refused : ∀ {s p n d u s'}, s.Tidy → s.Closed → s.paths[p.index]? = some d →
    d.container = .detached → replace p n s ≠ .ok u s'
  /-- A node that is neither a statement nor declares names is simply put there. -/
  plain : ∀ {s K s₀ p n type u s'}, Ledger s K s₀ → s.Bypasses K p → s.Spare K n →
    s.tree.type? n = some type → type.isStatement = false → type.isDeclaration = false →
    replace p n s = .ok u s' → s.Heeds K s₀ s' ∧ s.Replaces p n s' ∧ s.Resettles s'
  accrues : ∀ {s K s₀ p n u s'}, Ledger s K s₀ → s.Bypasses K p → s.Knows p → s.Spare K n →
    replace p n s = .ok u s' → ∃ K', s.Accrues K s₀ s' K'

/-- A parent that goes with its child is none that a wrapper has. -/
theorem carriesParent_eq_ok {type : NodeType} {b : Bool}
    (hrun : p.carriesParent type s = .ok b s') :
    s' = s ∧ (b = true → type.isWrapping = false ∧ type ≠ .callExpression) := by
  unfold PathId.carriesParent at hrun
  obtain ⟨d, hd, hrun⟩ := question_bind_eq_ok (.data p) hrun
  split at hrun
  · next hcarries =>
    cases hrun
    refine ⟨rfl, fun _ => ?_⟩
    revert hcarries
    cases type <;> simp [NodeType.isWhile, NodeType.isExportDeclaration, NodeType.isWrapping]
  · split at hrun
    · next hdeclarations =>
      rw [hdeclarations.2]
      cases howner : d.container.parent? with
      | none =>
        rw [howner] at hrun
        cases hrun
        exact ⟨rfl, nofun⟩
      | some owner =>
        rw [howner] at hrun
        obtain ⟨l, hl, hrun⟩ := question_bind_eq_ok (.listLength _ _) hrun
        cases hrun
        exact ⟨rfl, fun _ => ⟨rfl, nofun⟩⟩
    · cases hrun
      exact ⟨rfl, nofun⟩

/-- What is forgotten about a subtree is in the scopes only. -/
theorem unregister_eq_ok {u : Unit} (hrun : unregister n s = .ok u s') :
    ∃ scopes, s' = { s with scopes } := by
  have hcomposed : Composed (fun _ x => Leads (fun s s' : Session =>
      ∃ scopes, s' = { s with scopes }) x) (unregister n) := by
    refine Composed.scopesCrawled.bind fun _ => .ite ?_ (.pure _)
    refine (Composed.askBelow _ _).bind fun _ => Composed.get.bind fun _ =>
      Composed.scopeIds.bind fun _ => ?_
    exact .forM _ fun i => (Composed.scopeData i).bind fun _ => .primitive fun s => ⟨_, rfl⟩
  have hleads := hcomposed.leads (fun s => ⟨s.scopes, rfl⟩)
    (fun s s₁ s₂ ⟨_, h₁⟩ ⟨scopes, h₂⟩ => ⟨scopes, by rw [h₂, h₁]⟩) fun _ _ h => h
  have := hleads s
  rwa [after_of_ok hrun] at this

namespace Ledger

/-- A step that changes nothing but one path, and what waits. -/
theorem ofPath (h : s.Ledger K s₀) (htidy : s'.Tidy) (hclosed : s'.Closed) (hmore : s.Extends s')
    (hp : ∀ W ∈ K, W.callee ≠ p) (htree : s'.tree = s.tree)
    (hothers : ∀ q, q ≠ p → s'.paths[q.index]? = s.paths[q.index]?)
    (hnotes : ∀ d', s'.paths[p.index]? = some d' →
      ∃ d, s.paths[p.index]? = some d ∧ d'.notes = d.notes)
    (hqueue : ∀ q, s'.Queued q → s.Queued q ∨ q = p) : s.Heeds K s₀ s' := by
  refine h.step htidy hclosed hmore (fun W hW => ?_) (fun W hW d hd => ?_) (fun W hW hq => ?_) ?_
  · exact (h.wraps W hW).tree.alike (htree ▸ .refl _)
  · exact ⟨d, (hothers _ (hp W hW)).trans hd, rfl, rfl, rfl⟩
  · exact (hqueue _ hq).resolve_right (hp W hW)
  · refine noted_of_data fun q d' hd' => ?_
    by_cases hq : q = p
    · subst hq
      exact hnotes d' hd'
    · exact ⟨d', (hothers q hq).symm.trans hd', rfl⟩

theorem resync (h : s.Ledger K s₀) (hp : ∀ W ∈ K, W.callee ≠ p) {u : Unit}
    (hrun : p.resync s = .ok u s') : s.Heeds K s₀ s' := by
  obtain ⟨removed, hremoved, -⟩ := question_bind_eq_ok (.isRemoved p) hrun
  obtain ⟨-, d, hd, rfl⟩ := PathId.isRemoved_eq_ok hremoved
  cases hlive : d.removed with
  | true =>
    cases (PathId.resync_run_of_removed hd hlive).symm.trans hrun
    exact (Tends.refl h).toHeeds
  | false =>
    obtain ⟨htidy, hclosed, hmore, -⟩ := h.kept (.resync p) (.resync (knows_of_data hd)) hrun
    obtain ⟨s₁, d', hrun', hsettled, -⟩ := PathId.resync_returns h.tidy h.closed hd hlive
    cases hrun'.symm.trans hrun
    refine h.ofPath htidy hclosed hmore hp hsettled.tree hsettled.others (fun e he => ?_)
      fun q hq => .inl ?_
    · obtain rfl := Option.some.inj (hsettled.data.symm.trans he)
      exact ⟨d, hd, hsettled.notes⟩
    · simpa only [Queued, hsettled.frames] using hq

theorem markRemoved (h : s.Ledger K s₀) (hplaced : s.Placed p) (hp : ∀ W ∈ K, W.callee ≠ p)
    {u : Unit} (hrun : p.markRemoved s = .ok u s') : s.Heeds K s₀ s' := by
  obtain ⟨d, hd, -⟩ := id hplaced
  obtain ⟨htidy, hclosed, hmore, -⟩ := h.keptFrom p.markRemoved_tidying hplaced
    (.markRemoved (knows_of_data hd)) hrun
  cases (PathId.markRemoved_run hd).symm.trans hrun
  have hpaths : ∀ q : PathId, (s.dropped d.container p).paths[q.index]? =
      if q = p then s.paths[q.index]?.map fun d => { d with removed := true, skip := true, node := none }
      else s.paths[q.index]? := fun q => getElem?_modify_paths _ _ _ _
  refine h.ofPath htidy hclosed hmore hp (tree_unfiled _ _) (fun q hq => ?_) (fun e he => ?_)
    fun q hq => .inl ?_
  · rw [hpaths, if_neg hq]
  · rw [hpaths, if_pos rfl, hd] at he
    obtain rfl := Option.some.inj he
    exact ⟨d, hd, rfl⟩
  · have hframes : (s.dropped d.container p).frames = s.frames := frames_unfiled _ _
    simpa only [Queued, hframes] using hq

/-- Only the path itself comes to wait. -/
theorem queued_enqueue {frame : Nat} {frames : List Frame} {f : Frame}
    (hf : f ∈ PathId.requeue.enqueue p frame frames) (hq : q ∈ f.queue) :
    (∃ g ∈ frames, q ∈ g.queue) ∨ q = p := by
  induction frames with
  | nil => cases hf
  | cons g rest ih =>
    unfold PathId.requeue.enqueue at hf
    split at hf
    · rcases List.mem_cons.mp hf with rfl | hf
      · split at hq
        · exact .inl ⟨g, List.mem_cons_self, hq⟩
        · rcases List.mem_append.mp hq with hq | hq
          · exact .inl ⟨g, List.mem_cons_self, hq⟩
          · exact .inr (List.mem_singleton.mp hq)
      · exact .inl ⟨f, List.mem_cons_of_mem _ hf, hq⟩
    · rcases List.mem_cons.mp hf with rfl | hf
      · exact .inl ⟨_, List.mem_cons_self, hq⟩
      · rcases ih hf with ⟨e, he, hqe⟩ | rfl
        · exact .inl ⟨e, List.mem_cons_of_mem _ he, hqe⟩
        · exact .inr rfl

theorem requeue (h : s.Ledger K s₀) (hd : s.paths[p.index]? = some d)
    (hp : ∀ W ∈ K, W.callee ≠ p) {u : Unit} (hrun : p.requeue s = .ok u s') : s.Heeds K s₀ s' := by
  obtain ⟨htidy, hclosed, hmore, -⟩ := h.kept (.of_quiet (.requeue p)) (.requeue (knows_of_data hd)) hrun
  cases (PathId.requeue_run hd).symm.trans hrun
  refine h.ofPath htidy hclosed hmore hp rfl (fun _ _ => rfl) (fun e he => ⟨e, he, rfl⟩) ?_
  rintro q ⟨f, hf, hq⟩
  simp only [PathData.queued] at hf
  split at hf
  · exact queued_enqueue hf hq
  · exact .inl ⟨f, hf, hq⟩

/-! ### Putting a node -/

/-- A node is put at the position of a path, and the path waits for another visit. -/
theorem putSettled (h : s.Ledger K s₀) (hd : s.paths[p.index]? = some d) (hlive : d.removed = false)
    (hp : s.Bypasses K p)
    (hfree : ∀ pos, d.position? = some pos → ∀ W ∈ K, ∀ n ∈ W.nodes, s.tree.occupant? pos ≠ some n)
    (hnew : s.Spare K new) {u : Unit} (hrun : (do
      p.setNode new
      SessionM.recordMutation
      if ← scopesCrawled then
        if (← ask fun t => t.type? new).isDeclaration then p.registerDeclaration
      p.requeue) s = .ok u s') : s.Heeds K s₀ s' ∧
      ∀ type, s.tree.type? new = some type → type.isDeclaration = false → s.KeepsPlaces s' := by
  have hcallee := hp.callee_ne h
  obtain ⟨u₁, s₁, hset, hrun⟩ := bind_eq_ok hrun
  obtain ⟨h₁, pos, -, hreseat⟩ := h.setNode hd hlive hfree hnew hset
  obtain ⟨u₂, s₂, hcount, hrun⟩ := bind_eq_ok hrun
  have h₂ := h₁.toHeeds.trans (h₁.ledger.recordMutation hcount).toHeeds
  cases hcount
  have hplaces : s.KeepsPlaces { s₁ with mutations := s₁.mutations + 1 } := by
    intro q e he
    have he : s₁.paths[q.index]? = some e := he
    rw [hreseat.getElem?_paths] at he
    split at he
    · obtain ⟨e', he', rfl⟩ := Option.map_eq_some_iff.mp he
      exact ⟨e', he', rfl⟩
    · exact ⟨e, he, rfl⟩
  have hqueue : ∀ {s₃ : Session} {u : Unit}, s.Heeds K s₀ s₃ → p.requeue s₃ = .ok u s' →
      s.Heeds K s₀ s' ∧ (s.KeepsPlaces s₃ → s.KeepsPlaces s') := by
    intro s₃ u h₃ hrun
    obtain ⟨e, he⟩ := exists_data (h₃.more.knows (knows_of_data hd))
    refine ⟨h₃.trans (h₃.ledger.requeue he hcallee hrun), fun hkept => hkept.trans ?_⟩
    cases (PathId.requeue_run he).symm.trans hrun
    exact keepsPlaces_of_paths rfl
  obtain ⟨crawled, -, hrun⟩ := question_bind_eq_ok .scopesCrawled hrun
  cases crawled with
  | false =>
    obtain ⟨h₃, hkept⟩ := hqueue h₂ hrun
    exact ⟨h₃, fun _ _ _ => hkept hplaces⟩
  | true =>
    obtain ⟨type, htype, hrun⟩ := question_bind_eq_ok (.ask _) hrun
    have htype : s₁.tree.type? new = some type := (ask_eq_ok htype).2
    split at hrun
    · next hdeclares =>
      obtain ⟨u₃, s₃, hregister, hrun⟩ := bind_eq_ok hrun
      obtain ⟨h₃, -⟩ := h₂.ledger.charting (.registerDeclaration p)
        (.registerDeclaration (h₂.more.knows (knows_of_data hd))) hregister
      refine ⟨(hqueue (h₂.trans h₃.toHeeds) hrun).1, fun type' htype' hplain => ?_⟩
      rw [← Tree.map_type_kind?, hreseat.tree.type, Tree.map_type_kind?, htype'] at htype
      obtain rfl := Option.some.inj htype
      rw [hplain] at hdeclares
      cases hdeclares
    · obtain ⟨h₃, hkept⟩ := hqueue h₂ hrun
      exact ⟨h₃, fun _ _ _ => hkept hplaces⟩

/-- A node is put in the place of the one that the path holds. -/
theorem putNode (h : s.Ledger K s₀) (hd : s.paths[p.index]? = some d) (hlive : d.removed = false)
    (hseat : ∀ o, d.node = some o → s.Sits p d.container o) (hp : s.Bypasses K p)
    (hnew : s.Spare K new) {u : Unit}
    (hrun : p.putNode d.node new s = .ok u s') : s.Heeds K s₀ s' ∧
      ∀ type, s.tree.type? new = some type → type.isDeclaration = false → s.KeepsPlaces s' := by
  have hfree : ∀ pos, d.position? = some pos → ∀ W ∈ K, ∀ n ∈ W.nodes,
      s.tree.occupant? pos ≠ some n := by
    intro pos hpos W hW n hn hocc
    obtain ⟨m, ⟨e, he, hm⟩, hmem⟩ := hp W hW
    obtain rfl := Option.some.inj (hd.symm.trans he)
    obtain ⟨e, pos', he', -, -, hpos', hocc'⟩ := hseat m hm
    obtain rfl := Option.some.inj (hd.symm.trans he')
    obtain rfl := Option.some.inj (hpos.symm.trans hpos')
    exact hmem (Option.some.inj (hocc'.symm.trans hocc) ▸ hn)
  unfold PathId.putNode at hrun
  cases ho : d.node with
  | none =>
    rw [ho] at hrun
    exact h.putSettled hd hlive hp hfree hnew hrun
  | some old =>
    rw [ho] at hrun
    obtain ⟨u₁, s₁, hinherit, hrun⟩ := bind_eq_ok hrun
    obtain ⟨u₂, s₂, hremove, hrun⟩ := bind_eq_ok hrun
    have hold : ∃ k, s.tree.kind? old = some k :=
      (h.closed.exists_kind ((h.closed.paths.data p d hd).1 old ho)).imp fun _ hk => hk.1
    have hnew' : ∃ k, s.tree.kind? new = some k := (h.closed.exists_kind hnew.1).imp fun _ hk => hk.1
    obtain ⟨h₁, t₁, rfl, ha₁⟩ := h.decorate (TreeM.decorates_inheritComments hnew' hold) hinherit
    obtain ⟨h₂, t₂, rfl, ha₂⟩ := h₁.ledger.decorate
      (TreeM.decorates_removeComments (by rwa [← ha₁.kind] at hold)) hremove
    have halike := ha₁.trans ha₂
    obtain ⟨h₃, hkept⟩ := h₂.ledger.putSettled hd hlive (fun W hW => hp W hW)
      (fun pos hpos W hW n hn => (halike.occupant? pos).symm ▸ hfree pos hpos W hW n hn)
      (hnew.mono (h₁.more.trans h₂.more)) hrun
    refine ⟨(h₁.trans h₂).toHeeds.trans h₃, fun type htype hplain => ?_⟩
    exact hkept type (by rwa [← Tree.map_type_kind?, halike.kind, Tree.map_type_kind?]) hplain

/-! ### Replacement -/

/-- A path that is still there after `resync` holds what it held, where it stands. -/
theorem resync_inStep (h : s.Ledger K s₀) (hp : ∀ W ∈ K, W.callee ≠ p) {u : Unit}
    (hrun : p.resync s = .ok u s₁) (hd : s₁.paths[p.index]? = some d) (hlive : d.removed = false) :
    s.Heeds K s₀ s₁ ∧ s₁.InStep d ∧ ∀ n, s₁.Holds p n ↔ s.Holds p n := by
  obtain ⟨removed, hremoved, -⟩ := question_bind_eq_ok (.isRemoved p) hrun
  obtain ⟨-, e, he, rfl⟩ := PathId.isRemoved_eq_ok hremoved
  cases hlive' : e.removed with
  | true =>
    cases (PathId.resync_run_of_removed he hlive').symm.trans hrun
    obtain rfl := Option.some.inj (he.symm.trans hd)
    rw [hlive] at hlive'
    cases hlive'
  | false =>
    obtain ⟨s', d', hrun', hsettled, hend, -⟩ := PathId.resync_returns h.tidy h.closed he hlive'
    cases hrun'.symm.trans hrun
    obtain rfl := Option.some.inj (hd.symm.trans hsettled.data)
    rcases hend with ⟨hremoved, -⟩ | ⟨hnode, hstep⟩
    · rw [hlive] at hremoved
      cases hremoved
    · refine ⟨h.resync hp hrun, hstep, fun n => ?_⟩
      simp only [Holds, hd, he, Option.some.injEq, exists_eq_left', hnode]

/-- After `resync` a path lives where it did or below the node that its parent path holds, and a second
`resync` finds nothing to do. -/
theorem resync_resettles (h : s.Ledger K s₀) {u : Unit} (hrun : p.resync s = .ok u s₁) :
    p.resync s₁ = .ok () s₁ ∧ s.Resettles s₁ := by
  obtain ⟨removed, hremoved, -⟩ := question_bind_eq_ok (.isRemoved p) hrun
  obtain ⟨-, e, he, rfl⟩ := PathId.isRemoved_eq_ok hremoved
  cases hlive : e.removed with
  | true =>
    cases (PathId.resync_run_of_removed he hlive).symm.trans hrun
    exact ⟨hrun, (keepsPlaces_of_paths rfl).resettles⟩
  | false =>
    obtain ⟨s', d', hrun', hsettled, -, hagain⟩ := PathId.resync_returns h.tidy h.closed he hlive
    cases hrun'.symm.trans hrun
    refine ⟨hagain, fun q d hd => ?_⟩
    by_cases hq : q = p
    · subst hq
      obtain rfl := Option.some.inj (hd.symm.trans hsettled.data)
      rw [hsettled.container]
      unfold homeOf
      split
      · exact .inl ⟨e, he, rfl⟩
      · next m hm =>
        refine .inr fun owner howner => ?_
        obtain rfl := Container.owner_under howner
        obtain ⟨r, -, hr⟩ := Option.bind_eq_some_iff.mp hm
        obtain ⟨e', he', hn⟩ := Option.bind_eq_some_iff.mp hr
        exact ⟨r, e', he', hn⟩
    · exact .inl ⟨d, (hsettled.others q hq) ▸ hd, rfl⟩

/-- To replace the node at a path is to put another one there, or to put statements in the place of
an expression. -/
theorem replaceUsing (h : s.Ledger K s₀) (hp : s.Bypasses K p) (hnew : s.Spare K new)
    {byStatements : PathId → List NodeId → SessionM PathId} {u : Unit}
    (hrun : p.replaceUsing byStatements new s = .ok u s') :
    (s.Heeds K s₀ s' ∧
      ∀ type, s.tree.type? new = some type → type.isDeclaration = false → s.Resettles s') ∨
    ∃ s₁ q, p.resync s = .ok () s₁ ∧ s.Heeds K s₀ s₁ ∧ p.resync s₁ = .ok () s₁ ∧ s₁.Skirts K p ∧
      s₁.WantsExpression p new ∧ byStatements p [new] s₁ = .ok q s' := by
  unfold PathId.replaceUsing at hrun
  obtain ⟨removed, -, hrun⟩ := question_bind_eq_ok (.isRemoved p) hrun
  cases removed with
  | true => cases hrun
  | false =>
    obtain ⟨u₁, s₁, hresync, hrun⟩ := bind_eq_ok hrun
    obtain ⟨removed, hremoved, hrun⟩ := question_bind_eq_ok (.isRemoved p) hrun
    obtain ⟨-, d, hd, rfl⟩ := PathId.isRemoved_eq_ok hremoved
    cases hlive : d.removed with
    | true =>
      rw [hlive] at hrun
      cases hrun
    | false =>
      rw [hlive] at hrun
      obtain ⟨h₁, hstep, hholds⟩ := h.resync_inStep (hp.callee_ne h) hresync hd hlive
      obtain ⟨hagain, hresettles⟩ := h.resync_resettles hresync
      have htype : ∀ type, s.tree.type? new = some type → s₁.tree.type? new = some type :=
        fun type htype => by rw [(Robust.resync p hresync).1, htype]
      have hp₁ : s₁.Bypasses K p := fun W hW => (hp W hW).imp fun n hn => ⟨(hholds n).mpr hn.1, hn.2⟩
      have hseat : ∀ o, d.node = some o → s₁.Sits p d.container o := fun o => hstep.sits hd
      have hput : ∀ {u}, p.putNode d.node new s₁ = .ok u s' → s.Heeds K s₀ s' ∧
          ∀ type, s.tree.type? new = some type → type.isDeclaration = false → s.Resettles s' := by
        intro u hrun
        obtain ⟨h₂, hkept⟩ := h₁.ledger.putNode hd hlive hseat hp₁ (hnew.mono h₁.more) hrun
        exact ⟨h₁.trans h₂, fun type ht hplain => hresettles.keeping (hkept type (htype type ht) hplain)⟩
      dsimp only at hrun
      rw [if_neg Bool.false_ne_true, bind_of_ok (p.node?_run hd)] at hrun
      split at hrun
      · cases hrun
        exact .inl ⟨h₁, fun _ _ _ => hresettles⟩
      · obtain ⟨type, htype, hrun⟩ := question_bind_eq_ok (.ask _) hrun
        obtain ⟨-, htype⟩ := ask_eq_ok htype
        obtain ⟨o, ho, hrun⟩ := question_bind_eq_ok (.type? p) hrun
        cases o with
        | none => exact .inl (hput hrun)
        | some current =>
          have hex : s₁.Exchanges p new d current type := ⟨hd, PathId.type?_eq_ok hd ho, htype⟩
          dsimp only at hrun
          split at hrun
          · cases hrun
          · have hchoose : ∀ flexible : Bool,
                (d.IsForHead s₁.tree ∨ d.SwapsBody s₁.tree current type → flexible = true) → (do
                  if current.isExpression && type.isStatement && !flexible then
                    let _ ← byStatements p [new]
                  else if current.isStatement && type.isExpression && !flexible
                      && (← p.parentType?) != some NodeType.exportDefaultDeclaration then
                    p.putNode d.node (← onTree (TreeM.alloc (.expressionStatement new)))
                  else p.putNode d.node new) s₁ = .ok u s' →
                (s.Heeds K s₀ s' ∧ ∀ type, s.tree.type? new = some type →
                  type.isDeclaration = false → s.Resettles s') ∨
                ∃ s₁ q, p.resync s = .ok () s₁ ∧ s.Heeds K s₀ s₁ ∧ p.resync s₁ = .ok () s₁ ∧
                  s₁.Skirts K p ∧ s₁.WantsExpression p new ∧ byStatements p [new] s₁ = .ok q s' := by
              intro flexible hflexible hrun
              split at hrun
              · next hwants =>
                simp only [Bool.and_eq_true, Bool.not_eq_true'] at hwants
                obtain ⟨q, s₂, hby, hrun⟩ := bind_eq_ok hrun
                cases hrun
                have hstiff := mt hflexible (by simp [hwants.2])
                obtain ⟨old, hold, -⟩ := hex.old
                have hskirts := (hseat old hold).skirts (hp₁.not_mem ⟨d, hd, hold⟩)
                exact .inr ⟨s₁, q, hresync, h₁, hagain, hskirts, ⟨d, current, type, hex, hwants.1.1,
                  hwants.1.2, fun h => hstiff (.inl h), fun h => hstiff (.inr h)⟩, hby⟩
              · obtain ⟨parent, -, hrun⟩ := question_bind_eq_ok (.parentType? p) hrun
                split at hrun
                · obtain ⟨e, s₂, he, hrun⟩ := bind_eq_ok hrun
                  obtain ⟨h₂, rfl, rfl, hmade⟩ := h₁.ledger.make (k := .expressionStatement new)
                    (List.forall_mem_singleton.mpr (hnew.mono h₁.more)) he
                  obtain ⟨h₃, hkept⟩ := h₂.ledger.putNode hd hlive
                    (fun o ho => (hseat o ho).grown (.push _ _)) hp₁ hmade hrun
                  refine .inl ⟨h₁.trans (h₂.toHeeds.trans h₃), fun _ _ _ => hresettles.keeping ?_⟩
                  have hkind : (s₁.allocated (.expressionStatement new)).tree.kind? ⟨s₁.tree.size⟩ =
                      some (.expressionStatement new) := by rw [kind?_allocated, if_pos rfl]
                  exact hkept _ (Tree.type?_of_kind hkind) rfl
                · exact .inl (hput hrun)
            obtain ⟨head, hhead, hrun⟩ := question_bind_eq_ok (.isForHead p) hrun
            have hhead := (PathId.isForHead_eq_ok hd hhead).2
            cases head with
            | true => exact hchoose true (fun _ => rfl) hrun
            | false =>
              obtain ⟨swap, hswap, hrun⟩ := question_bind_eq_ok (.canSwapBody p new) hrun
              have hswap := (PathId.canSwapBody_eq_ok hex hswap).2
              exact hchoose swap (fun h => hswap.mpr (h.resolve_left (by simp [← hhead]))) hrun

/-! ### Taking a node out -/

/-- A node that is no wrapper's is taken out of the field or the list where it stands. -/
theorem detach (h : s.Ledger K s₀) {c : Container} (hp : s.Sits p c n) (hn : ∀ W ∈ K, n ∉ W.nodes)
    {u : Unit} (hrun : p.detach s = .ok u s') : s.Heeds K s₀ s' := by
  obtain ⟨d, pos, hd, -, -, hpos, hocc⟩ := hp
  obtain ⟨-, hclosed, hmore, -⟩ := h.kept (.of_quiet (.detach p)) (.detach (knows_of_data hd)) hrun
  unfold PathId.detach at hrun
  rw [bind_of_ok (p.data_run hd)] at hrun
  cases pos with
  | root =>
    rw [← Container.position?_container hpos] at hrun
    cases hrun
  | slot owner f =>
    obtain ⟨hcontainer, hkey⟩ := PathData.position?_eq_slot.mp hpos
    rw [hcontainer, hkey] at hrun
    obtain ⟨k, hk, hrun⟩ := question_bind_eq_ok (.ask _) hrun
    have hk := (ask_eq_ok hk).2
    obtain ⟨child, hchild, hnode⟩ := Option.bind_eq_some_iff.mp hocc
    rw [Tree.field?, hk, Option.bind_some] at hchild
    rw [hchild] at hrun
    cases child with
    | one m => cases hrun
    | many ids => cases hnode
    | opt m =>
      obtain rfl : m = some n := hnode
      cases (modifyKind_run hk _).symm.trans hrun
      exact h.ofTree hclosed hmore.nodes fun W hW =>
        (h.wraps W hW).tree.vacated (Tree.vacated_clearNode hk hchild) (hn W hW)
  | item owner f i =>
    obtain ⟨hcontainer, hkey⟩ := PathData.position?_eq_item.mp hpos
    rw [hcontainer, hkey] at hrun
    obtain ⟨k, hk, hrun⟩ := question_bind_eq_ok (.ask _) hrun
    have hk := (ask_eq_ok hk).2
    obtain ⟨ids, hids, hi⟩ := Option.bind_eq_some_iff.mp hocc
    have hchild : k.child? f = some (.many ids) := by
      simpa [Tree.field?, hk] using Tree.list?_eq_some_iff.mp hids
    rw [hchild] at hrun
    dsimp only at hrun
    rw [if_pos (List.getElem?_eq_some_iff.mp hi).1, bind_of_ok (modifyKind_run hk _)] at hrun
    have hshift := shiftKeys_run (s := s.withList owner f (ids.eraseIdx i)) (.list owner f) (i + 1)
      (-1) fun q hq => (h.tidy.filed _ q hq).imp fun _ hd => hd.1
    cases hshift.symm.trans hrun
    refine h.relist hk hchild (i + 1) (-1) (fun m hm => .inl (List.mem_of_mem_eraseIdx hm)) ?_
    rintro W hW rfl rfl
    obtain ⟨front, hfront⟩ := (h.wraps W hW).tree.statements
    obtain rfl := Option.some.inj (hids.symm.trans hfront)
    refine ⟨front.eraseIdx i, List.eraseIdx_append_of_lt_length ?_ _⟩
    exact W.index_lt_front hi (hn W hW)

theorem unregister (h : s.Ledger K s₀) (hn : s.Knows n) {u : Unit}
    (hrun : unregister n s = .ok u s') : s.Tends K s₀ s' :=
  (h.charting (.unregister n) (.unregister hn) hrun).1

/-- The other operand is found below the parent, which is none that a wrapper has. -/
theorem otherOperand (h : s.Ledger K s₀) {parent : PathId} {type : NodeType}
    (hknown : s.Knows parent) (htype : ∀ m, s.Holds parent m → s.tree.type? m = some type)
    {o : Option NodeId} (hrun : p.otherOperand? parent type s = .ok o s') :
    s.Tends K s₀ s' ∧ (∀ q c n, s.Sits q c n → s'.Sits q c n) ∧
      ∀ other, o = some other → s'.Spare K other ∧ s'.Bypasses K parent := by
  have hstay : ∀ {o'}, (pure none : SessionM (Option NodeId)) s = .ok o' s' →
      s.Tends K s₀ s' ∧ (∀ q c n, s.Sits q c n → s'.Sits q c n) ∧
        ∀ other, o' = some other → s'.Spare K other ∧ s'.Bypasses K parent := by
    intro o' hrun
    cases hrun
    exact ⟨.refl h, fun _ _ _ hq => hq, nofun⟩
  -- The parent shows what it showed, unless it was found below itself.
  have hfound : ∀ {x : SessionM PathId}, Navigating x → Careful x s →
      type.isWrapping = false → type ≠ .callExpression →
      (∀ q s₁ n, x s = .ok q s₁ → s₁.Holds q n → ∃ pos m', pos.parent? = some m' ∧
        s.Holds parent m' ∧ s₁.tree.occupant? pos = some n ∧
        ∀ r, r ≠ q → s₁.paths[r.index]? = s.paths[r.index]?) →
      (x >>= fun q => q.node?) s = .ok o s' →
      s.Tends K s₀ s' ∧ (∀ q c n, s.Sits q c n → s'.Sits q c n) ∧
        ∀ other, o = some other → s'.Spare K other ∧ s'.Bypasses K parent := by
    intro x hx hcareful hwrapping hcall hplace hrun
    obtain ⟨q, s₁, hgo, hrun⟩ := bind_eq_ok hrun
    obtain ⟨h₁, hq⟩ := h.charting hx.charting hcareful hgo
    obtain ⟨htree, hkept⟩ := Seating.of_charting hx.charting h.tidy hgo
    obtain rfl := question_run (.node? q) hrun
    refine ⟨h₁, hkept, fun other ho => ?_⟩
    subst ho
    have hother := (PathId.holds_of_node? hrun).2
    obtain ⟨pos, m', hpos, hm', hocc, hothers⟩ := hplace q _ other hgo hother
    have htype := htype m' hm'
    rw [← htree] at htype
    have hmem := h₁.ledger.not_mem_below hocc hpos htype hwrapping hcall
    refine ⟨⟨h₁.ledger.closed.knows_held hother, hmem⟩, fun W hW => ?_⟩
    by_cases hself : parent = q
    · exact ⟨other, hself ▸ hother, hmem W hW⟩
    · obtain ⟨d, hd, hn⟩ := hm'
      exact ⟨_, ⟨d, (hothers _ hself).trans hd, hn⟩, h₁.ledger.not_mem htype hwrapping W hW⟩
  unfold PathId.otherOperand? at hrun
  obtain ⟨d, -, hrun⟩ := question_bind_eq_ok (.data p) hrun
  split at hrun
  · next hsequence =>
    cases howner : d.container.parent? with
    | none =>
      rw [howner] at hrun
      exact hstay hrun
    | some owner =>
      rw [howner] at hrun
      cases hkey : d.key with
      | root | field =>
        rw [hkey] at hrun
        exact hstay hrun
      | index i =>
        rw [hkey] at hrun
        obtain ⟨l, -, hrun⟩ := question_bind_eq_ok (.listLength _ _) hrun
        split at hrun
        · refine hfound (.element parent .expressions _) (.element hknown .expressions _)
            (hsequence ▸ rfl) (hsequence ▸ nofun) ?_ hrun
          intro q s₁ n hgo hq
          obtain ⟨m', hm', hocc, -, hothers⟩ := PathId.element_sits h.tidy hgo hq
          exact ⟨_, m', rfl, hm', hocc, hothers⟩
        · exact hstay hrun
  · split at hrun
    · next hbinary =>
      have htypes : type.isWrapping = false ∧ type ≠ .callExpression := by
        revert hbinary
        cases type <;> simp [NodeType.isBinary, NodeType.isWrapping]
      refine hfound (.child parent _) (.child hknown _) htypes.1 htypes.2 ?_ hrun
      intro q s₁ n hgo hq
      obtain ⟨m', hm', hocc, -, hothers⟩ := PathId.child_sits h.tidy hgo hq
      exact ⟨_, m', rfl, hm', hocc, hothers⟩
    · exact hstay hrun

section Removal

variable {replace : PathId → NodeId → SessionM Unit} (hreplace : Considerate replace)

include hreplace

/-- The parent makes up for the node: it is removed, or gives way to its other operand, or gets an
empty block. -/
theorem adjustParent (h : s.Ledger K s₀) {parent : PathId} {type : NodeType} {c : Container}
    (hp : s.Sits p c n) (hn : ∀ W ∈ K, n ∉ W.nodes) (hknown : s.Knows parent)
    (htype : ∀ m, s.Holds parent m → s.tree.type? m = some type) {removeParent : SessionM Unit}
    (hremove : ∀ {u}, s.Shuns K parent → removeParent s = .ok u s' → ∃ K', s.Accrues K s₀ s' K')
    {adjusted : Bool} (hrun : p.adjustParent replace parent type removeParent s = .ok adjusted s') :
    ∃ K', s.Accrues K s₀ s' K' ∧
      (adjusted = false → K' = K ∧ ∃ c, s'.Sits p c n) := by
  unfold PathId.adjustParent at hrun
  obtain ⟨carries, s₁, hcarries, hrun⟩ := bind_eq_ok hrun
  obtain ⟨rfl, hwrapping⟩ := carriesParent_eq_ok hcarries
  cases carries with
  | true =>
    obtain ⟨u, s₂, hgone, hrun⟩ := bind_eq_ok hrun
    cases hrun
    obtain ⟨K', hK'⟩ := hremove (fun m hm => h.not_mem (htype m hm) (hwrapping rfl).1) hgone
    exact ⟨K', hK', nofun⟩
  | false =>
    obtain ⟨o, s₂, hother, hrun⟩ := bind_eq_ok hrun
    obtain ⟨h₂, hkept, hother⟩ := h.otherOperand hknown htype hother
    cases o with
    | some other =>
      obtain ⟨u, s₃, hreplaced, hrun⟩ := bind_eq_ok hrun
      cases hrun
      obtain ⟨hspare, hbypasses⟩ := hother other rfl
      obtain ⟨K', hK'⟩ := hreplace.accrues h₂.ledger hbypasses (h₂.more.knows hknown) hspare hreplaced
      exact ⟨K', h₂.toHeeds.accrues.trans hK', nofun⟩
    | none =>
      have hp₂ := hkept _ _ _ hp
      obtain ⟨d₂, pos, hd₂, -, hn₂, hpos, hocc⟩ := id hp₂
      dsimp only at hrun
      rw [bind_of_ok (p.data_run hd₂)] at hrun
      split at hrun
      · obtain ⟨block, s₃, hmake, hrun⟩ := bind_eq_ok hrun
        obtain ⟨h₃, rfl, rfl, hblock⟩ := h₂.ledger.make (k := .blockStatement []) nofun hmake
        obtain ⟨u, s₄, hset, hrun⟩ := bind_eq_ok hrun
        cases hrun
        have hlive₂ : d₂.removed = false := by
          obtain ⟨⟨e, he, hlive⟩, -⟩ := h₂.ledger.tidy.live_of_holds ⟨d₂, hd₂, hn₂⟩
          obtain rfl := Option.some.inj (hd₂.symm.trans he)
          exact hlive
        have hfree : ∀ pos, d₂.position? = some pos → ∀ W ∈ K, ∀ x ∈ W.nodes,
            (s₂.allocated (.blockStatement [])).tree.occupant? pos ≠ some x := by
          intro pos' hpos' W hW x hx hocc'
          obtain rfl := Option.some.inj (hpos.symm.trans hpos')
          have hocc₃ := (Tree.Grown.push s₂.tree { kind := .blockStatement [] }).occupant hocc
          exact hn W hW (Option.some.inj (hocc₃.symm.trans hocc') ▸ hx)
        obtain ⟨h₄, -⟩ := h₃.ledger.setNode hd₂ hlive₂ hfree hblock hset
        exact ⟨K, (h₂.trans (h₃.trans h₄)).toHeeds.accrues, nofun⟩
      · cases hrun
        exact ⟨K, h₂.toHeeds.accrues, fun _ => ⟨rfl, _, hp₂⟩⟩

/-- A path is removed, and with it the parents that make no sense without it. -/
theorem removeWithin (fuel : Nat) (h : s.Ledger K s₀) (hp : s.Shuns K p) (hknown : s.Knows p)
    {u : Unit} (hrun : removeWithin replace fuel p s = .ok u s') : ∃ K', s.Accrues K s₀ s' K' := by
  induction fuel generalizing s p u s' K with
  | zero => cases hrun
  | succ fuel ih =>
    unfold Espalier.removeWithin at hrun
    obtain ⟨removed, -, hrun⟩ := question_bind_eq_ok (.isRemoved p) hrun
    cases removed with
    | true => cases hrun
    | false =>
      obtain ⟨u₁, s₁, hresync, hrun⟩ := bind_eq_ok hrun
      obtain ⟨o, ho, hrun⟩ := question_bind_eq_ok (.node? p) hrun
      cases o with
      | none => cases hrun
      | some n =>
        have hcallee := hp.callee_ne h
        have hholds := (PathId.holds_of_node? ho).2
        obtain ⟨d, hd, hnode⟩ := id hholds
        obtain ⟨⟨e, he, hlive⟩, hplaced⟩ := (h.resync hcallee hresync).ledger.tidy.live_of_holds hholds
        obtain rfl := Option.some.inj (hd.symm.trans he)
        obtain ⟨h₁, hstep, hsame⟩ := h.resync_inStep hcallee hresync hd hlive
        have hn := hp n ((hsame n).mp hholds)
        obtain ⟨u₂, s₂, hforget, hrun⟩ := bind_eq_ok hrun
        have h₂ := h₁.ledger.unregister (h₁.ledger.closed.knows_held hholds) hforget
        obtain ⟨scopes, rfl⟩ := unregister_eq_ok hforget
        have h₁₂ := h₁.trans h₂.toHeeds
        have hsits : Sits { s₁ with scopes } p d.container n := hstep.sits hd hnode
        have hend : ∀ (adjusted : Bool) {s₃ : Session} {K' : Set Wrapping} {u : Unit},
            Accrues { s₁ with scopes } K s₀ s₃ K' → s₃.Placed p →
            (adjusted = false → K' = K ∧ ∃ c, s₃.Sits p c n) → (do
              if !adjusted then p.detach
              p.markRemoved
              SessionM.recordMutation) s₃ = .ok u s' → ∃ K', s.Accrues K s₀ s' K' := by
          intro adjusted s₃ K' u h₃ hplaced₃ hsits₃ hrun
          have hfinish : ∀ {s₄ : Session} {u : Unit}, Accrues { s₁ with scopes } K s₀ s₄ K' →
              s₄.Placed p → (do
                p.markRemoved
                SessionM.recordMutation) s₄ = .ok u s' → ∃ K', s.Accrues K s₀ s' K' := by
            intro s₄ u h₄ hplaced₄ hrun
            obtain ⟨u₅, s₅, hmark, hrun⟩ := bind_eq_ok hrun
            have h₅ := h₄.ledger.markRemoved hplaced₄
              (h₄.callee_ne (h₁₂.more.knows hknown) hcallee) hmark
            exact ⟨K', h₁₂.accrues.trans (h₄.trans
              (h₅.trans (h₅.ledger.recordMutation hrun).toHeeds).accrues)⟩
          cases adjusted with
          | true => exact hfinish h₃ hplaced₃ hrun
          | false =>
            obtain ⟨rfl, c, hsits₃⟩ := hsits₃ rfl
            obtain ⟨u₄, s₄, hdetach, hrun⟩ := bind_eq_ok hrun
            have hdetached := Quiet.detach p s₃ h₃.ledger.tidy
            rw [after_of_ok hdetach] at hdetached
            exact hfinish (h₃.trans (h₃.ledger.detach hsits₃ hn hdetach).accrues)
              (hdetached.placed p hplaced₃) hrun
        rw [bind_of_ok (PathId.parent?_run (s := { s₁ with scopes }) hd)] at hrun
        obtain ⟨type, htype, hrun⟩ := question_bind_eq_ok (.parentType? p) hrun
        obtain ⟨-, rfl⟩ := PathId.parentType?_eq_ok (s := { s₁ with scopes }) hd htype
        have hleave := hend false (u := u) (Tends.refl h₂.ledger).toHeeds.accrues hplaced
          fun _ => ⟨rfl, _, hsits⟩
        cases hparent : d.parent with
        | none =>
          rw [hparent] at hrun
          exact hleave hrun
        | some parent =>
          cases htype : d.ownerType? s₁.tree with
          | none =>
            rw [hparent] at hrun
            dsimp only at hrun
            rw [htype] at hrun
            exact hleave hrun
          | some type =>
            rw [hparent] at hrun
            dsimp only at hrun
            rw [htype] at hrun
            obtain ⟨owner, howner, htype⟩ := Option.bind_eq_some_iff.mp htype
            have hparentKnown : s₁.Knows parent :=
              (h₁.ledger.closed.paths.data p d hd).2.1 parent hparent
            obtain ⟨adjusted, s₃, hadjust, hrun⟩ := bind_eq_ok hrun
            obtain ⟨K', h₃, hsits₃⟩ := h₂.ledger.adjustParent hreplace hsits hn hparentKnown
              (fun m hm => hstep.owner parent m owner hparent hm howner ▸ htype)
              (fun hshuns hrun => ih h₂.ledger hshuns hparentKnown hrun) hadjust
            refine hend adjusted h₃ ?_ hsits₃ hrun
            have hup := Tidying.adjustParent hreplace.tidying p parent type
              (Tidying.removeWithin hreplace.tidying fuel parent) _ h₂.ledger.tidy ⟨⟨d, hd, hlive⟩, hplaced⟩
            rw [after_of_ok hadjust] at hup
            exact hup.placed p hplaced

theorem removeUsing (h : s.Ledger K s₀) (hp : s.Shuns K p) (hknown : s.Knows p) {u : Unit}
    (hrun : p.removeUsing replace s = .ok u s') : ∃ K', s.Accrues K s₀ s' K' := by
  obtain ⟨bound, s₁, hbound, hrun⟩ := bind_eq_ok hrun
  cases hbound
  exact h.removeWithin hreplace _ hp hknown hrun

end Removal

/-- An element before the place where nodes come into a list stays where it is. -/
theorem sits_spliced (hs : s.Tidy) (hd : s.paths[p.index]? = some d) {owner : NodeId} {f : Field}
    {j : Nat} (hpos : d.position? = some (.item owner f j)) (hn : d.node = some n)
    (hocc : s.tree.occupant? (.item owner f j) = some n) {k : NodeKind} {ids nodes : List NodeId}
    {i : Nat} (hk : s.tree.kind? owner = some k) (hc : k.child? f = some (.many ids))
    (hi : i ≤ ids.length) (hj : j < i) : (s.spliced owner f ids i nodes).Sits p (.list owner f) n := by
  have hlist := relisted_withList hk hc (ids.take i ++ nodes ++ ids.drop i)
  obtain ⟨hcontainer, hkey⟩ := PathData.position?_eq_item.mp hpos
  have hsame : d.shifted i nodes.length = d := by
    rw [d.shifted_of_index i nodes.length hkey, if_neg (by omega), ← hkey]
  have hdata : (s.spliced owner f ids i nodes).paths[p.index]? = some d := by
    rw [spliced, getElem?_mapPaths (hs.nodup _)]
    show (if _ then Option.map _ s.paths[p.index]? else s.paths[p.index]?) = _
    rw [hd, Option.map_some, hsame, ite_self]
  refine ⟨d, _, hdata, hcontainer, hn, hpos, (hlist.occupant?_item j).trans ?_⟩
  rw [Tree.occupant?, hlist.list?, Option.bind_some] at hocc
  rw [List.append_assoc, List.getElem?_append_left (by simp; omega), List.getElem?_take_of_lt hj, hocc]

/-- The nodes come into the list behind the element, and that is taken out. -/
theorem replaceElement (h : s.Ledger K s₀) (hp : s.Bypasses K p) {nodes : List NodeId} (hnodes : ∀ n ∈ nodes, s.Spare K n) {first last old : NodeId}
    (hfirst : first ∈ nodes) (hlast : last ∈ nodes) {u : Unit} (hresync : p.resync s = .ok u s₁)
    (hd : s₁.paths[p.index]? = some d) (hold : d.node = some old) {f : Field} {i : Nat}
    {parent : PathId} (hlist : d.listField? = some f) (hkey : d.key = .index i)
    (hparent : d.parent = some parent) {ps : List PathId} (hrun : (do
      onTree (TreeM.inheritLeading first old)
      onTree (TreeM.inheritTrailing last old)
      onTree (TreeM.removeComments old)
      let paths ← parent.insertAt f (i + 1) nodes
      Espalier.unregister old
      p.detach
      p.markRemoved
      pure paths) s₁ = .ok ps s') : s.Heeds K s₀ s' := by
  have hcallee := hp.callee_ne h
  obtain ⟨⟨e, he, hlive⟩, hplaced⟩ := (h.resync hcallee hresync).ledger.tidy.live_of_holds ⟨d, hd, hold⟩
  obtain rfl := Option.some.inj (hd.symm.trans he)
  obtain ⟨h₁, hstep, hsame⟩ := h.resync_inStep hcallee hresync hd hlive
  have hmem := hp.not_mem ((hsame old).mp ⟨d, hd, hold⟩)
  have hkind : ∀ {n}, s₁.Knows n → ∃ k, s₁.tree.kind? n = some k := fun hn =>
    (h₁.ledger.closed.exists_kind hn).imp fun _ hk => hk.1
  have hkold := hkind (h₁.ledger.closed.knows_held ⟨d, hd, hold⟩)
  have hknodes : ∀ n ∈ nodes, ∃ k, s₁.tree.kind? n = some k := fun n hn =>
    hkind (h₁.more.knows (hnodes n hn).1)
  obtain ⟨u₁, s₂, hlead, hrun⟩ := bind_eq_ok hrun
  obtain ⟨h₂, t₂, rfl, ha₂⟩ := h₁.ledger.decorate
    (TreeM.decorates_inheritLeading (hknodes first hfirst) hkold) hlead
  obtain ⟨u₂, s₃, htrail, hrun⟩ := bind_eq_ok hrun
  obtain ⟨h₃, t₃, rfl, ha₃⟩ := h₂.ledger.decorate
    (TreeM.decorates_inheritTrailing (by simpa only [ha₂.kind] using hknodes last hlast)
      (by simpa only [ha₂.kind] using hkold)) htrail
  obtain ⟨u₃, s₄, hremove, hrun⟩ := bind_eq_ok hrun
  have ha₃ := ha₂.trans ha₃
  obtain ⟨h₄, t₄, rfl, ha₄⟩ := h₃.ledger.decorate
    (TreeM.decorates_removeComments (by simpa only [ha₃.kind] using hkold)) hremove
  have ha₄ := ha₃.trans ha₄
  have h₁₄ := h₁.trans (h₂.trans (h₃.trans h₄)).toHeeds
  obtain ⟨paths, s₅, hinsert, hrun⟩ := bind_eq_ok hrun
  -- The element stands in the list of the node that the parent path shows.
  obtain ⟨pos, hpos, hocc⟩ := hstep.stands old hold
  have howner : ∀ owner, s₁.Holds parent owner →
      d.container = .list owner f ∧ pos = .item owner f i := by
    intro owner hholds
    unfold PathData.listField? at hlist
    cases hcontainer : d.container with
    | root | detached | slot => simp [hcontainer] at hlist
    | list m g =>
      rw [hcontainer] at hlist
      obtain rfl := Option.some.inj hlist
      obtain rfl := hstep.owner parent owner m hparent hholds (by rw [hcontainer]; rfl)
      rw [PathData.position?, hcontainer, hkey] at hpos
      exact ⟨rfl, (Option.some.inj hpos).symm⟩
  have hroom : ∀ owner ids, Holds { s₁ with tree := t₄ } parent owner →
      t₄.list? owner f = some ids → ∀ W ∈ K, owner = W.body → f = .body →
      i + 1 + W.results.length ≤ ids.length := by
    rintro owner ids hholds hids W hW rfl rfl
    obtain ⟨-, rfl⟩ := howner _ hholds
    obtain ⟨front, hfront⟩ := (h₁₄.ledger.wraps W hW).tree.statements
    obtain rfl := Option.some.inj (hids.symm.trans hfront)
    have hocc₄ := (ha₄.occupant? _).trans hocc
    rw [Tree.occupant?, hids, Option.bind_some] at hocc₄
    have := W.index_lt_front hocc₄ (hmem W hW)
    simp only [List.length_append, Wrapping.returns, List.length_map]
    omega
  obtain ⟨h₅, -, owner, k, ids, hholds, hk, hc, hi, -, hkept⟩ :=
    h₁₄.ledger.insertAt (fun n hn => (hnodes n hn).mono h₁₄.more) hroom hinsert
  obtain ⟨hcontainer, rfl⟩ := howner owner hholds
  have hsits₅ := hkept p _ _ (sits_spliced h₁₄.ledger.tidy hd hpos hold
    ((ha₄.occupant? _).trans hocc) hk hc hi (Nat.lt_succ_self i))
  obtain ⟨d₅, pos₅, hd₅, hc₅, hn₅, hpos₅, hocc₅⟩ := id hsits₅
  obtain ⟨u₆, s₆, hforget, hrun⟩ := bind_eq_ok hrun
  have h₆ := h₅.ledger.unregister (h₅.ledger.closed.knows_held ⟨d₅, hd₅, hn₅⟩) hforget
  obtain ⟨scopes, rfl⟩ := unregister_eq_ok hforget
  obtain ⟨u₇, s₇, hdetach, hrun⟩ := bind_eq_ok hrun
  have hcalm := Quiet.detach p _ h₆.ledger.tidy
  rw [after_of_ok hdetach] at hcalm
  have h₇ := h₆.ledger.detach (p := p) ⟨d₅, pos₅, hd₅, hc₅, hn₅, hpos₅, hocc₅⟩ hmem hdetach
  obtain ⟨u₈, s₈, hmark, hrun⟩ := bind_eq_ok hrun
  cases hrun
  have h₈ := h₇.ledger.markRemoved
    (hcalm.placed p (h₅.ledger.tidy.live_of_holds ⟨d₅, hd₅, hn₅⟩).2) hcallee hmark
  exact h₁₄.trans (h₅.toHeeds.trans (h₆.toHeeds.trans (h₇.trans h₈)))

/-- An element of a list gives way to several nodes. -/
theorem replaceWithMultiple (h : s.Ledger K s₀) (hp : s.Bypasses K p) {nodes : List NodeId} (hnodes : ∀ n ∈ nodes, s.Spare K n) {ps : List PathId}
    (hrun : p.replaceWithMultiple nodes s = .ok ps s') : s.Heeds K s₀ s' := by
  unfold PathId.replaceWithMultiple at hrun
  obtain ⟨removed, -, hrun⟩ := question_bind_eq_ok (.isRemoved p) hrun
  cases removed with
  | true => cases hrun
  | false =>
    obtain ⟨u₁, s₁, hresync, hrun⟩ := bind_eq_ok hrun
    cases hfirst : nodes.head? with
    | none =>
      simp only [hfirst] at hrun
      cases hrun
    | some first =>
      cases hlast : nodes.getLast? with
      | none =>
        simp only [hfirst, hlast] at hrun
        cases hrun
      | some last =>
        simp only [hfirst, hlast] at hrun
        obtain ⟨d, hd, hrun⟩ := question_bind_eq_ok (.data p) hrun
        have hd := (PathId.data_eq_ok hd).2
        cases hold : d.node with
        | none =>
          rw [hold] at hrun
          cases hrun
        | some old =>
          rw [hold] at hrun
          cases hlist : d.listField? with
          | none =>
            simp only [hlist] at hrun
            cases hrun
          | some f =>
            cases hkey : d.key with
            | root | field =>
              simp only [hlist, hkey] at hrun
              cases hrun
            | index i =>
              cases hparent : d.parent with
              | none =>
                simp only [hlist, hkey, hparent] at hrun
                cases hrun
              | some parent =>
                simp only [hlist, hkey, hparent] at hrun
                exact h.replaceElement hp hnodes (List.mem_of_mem_head? hfirst)
                  (List.mem_of_getLast? hlast) hresync hd hold hlist hkey hparent hrun

end Ledger

end Session

end Espalier
