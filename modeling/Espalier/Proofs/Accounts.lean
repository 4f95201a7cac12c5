import Espalier.Proofs.Scopes
import Espalier.Proofs.Steadiness

set_option autoImplicit false

/-! # The names that the program scope has on its list

The outermost scope keeps a list of the names that occur below it. A name is put on the list before
it is bound, and nothing but a new crawl strikes a name off. So after a crawl every bound name is on
the list of the scope outermost around it (`Session.Accounted`), in whatever scope it is bound, and
every edit keeps it so (`Editing.upholding`). The walk of a crawl carries one condition along: the
scope it walks with is one of the table (`Upholding.walking`). -/

namespace Espalier

open SessionM

variable {α β : Type}

namespace Session

/-- The name is on the scope's list of names that occur below. -/
def Mentions (s : Session) (i : ScopeId) (x : String) : Prop :=
  ∃ sc : Scope, s.scopes.scopes[i.index]? = some sc ∧ x ∈ sc.references

/-- Every bound name is on the list of the scope that is outermost around it. -/
structure Accounted (s : Session) : Prop where
  ordered : s.scopes.Ordered
  mentioned : ∀ i x, s.Binds i x → ∃ k, s.Outermost i k ∧ s.Mentions k x

/-- No scope is gone or moved, and no name is struck off a list. -/
def Retains (s s' : Session) : Prop :=
  ∀ (i : Nat) (sc : Scope), s.scopes.scopes[i]? = some sc → ∃ sc' : Scope,
    s'.scopes.scopes[i]? = some sc' ∧ sc'.place = sc.place ∧ sc.references ⊆ sc'.references

/-- Nothing was lost, and bound names are accounted for. -/
structure Upholds (s s' : Session) : Prop where
  accounted : s'.Accounted
  retains : s.Retains s'

variable {s s₁ s' : Session} {i j k : ScopeId} {x : String}

theorem Retains.refl (s : Session) : s.Retains s :=
  fun _ sc hsc => ⟨sc, hsc, rfl, fun _ h => h⟩

theorem Retains.trans (h₁ : s.Retains s₁) (h₂ : s₁.Retains s') : s.Retains s' := by
  intro i sc hsc
  obtain ⟨sc₁, hsc₁, hp₁, hr₁⟩ := h₁ i sc hsc
  obtain ⟨sc₂, hsc₂, hp₂, hr₂⟩ := h₂ i sc₁ hsc₁
  exact ⟨sc₂, hsc₂, hp₂.trans hp₁, fun x hx => hr₂ (hr₁ hx)⟩

theorem Retains.parent {i : Nat} {sc : Scope} (h : s.Retains s') (hsc : s.scopes.scopes[i]? = some sc) :
    ∃ sc' : Scope, s'.scopes.scopes[i]? = some sc' ∧ sc'.parent = sc.parent := by
  obtain ⟨sc', hsc', hplace, -⟩ := h i sc hsc
  simp only [Scope.place, Prod.mk.injEq] at hplace
  exact ⟨sc', hsc', hplace.2.2⟩

theorem Retains.hasScope (h : s.Retains s') (hi : s.HasScope i) : s'.HasScope i := by
  obtain ⟨sc, hsc⟩ := hi.scope
  obtain ⟨sc', hsc', -⟩ := h _ sc hsc
  exact hasScope_of_scope hsc'

theorem Retains.mentions (h : s.Retains s') (hk : s.Mentions k x) : s'.Mentions k x := by
  obtain ⟨sc, hsc, hx⟩ := hk
  obtain ⟨sc', hsc', -, hsub⟩ := h _ sc hsc
  exact ⟨sc', hsc', hsub hx⟩

theorem Retains.outermost (h : s.Retains s') (hi : s.Outermost i k) : s'.Outermost i k := by
  induction hi with
  | here hout =>
    obtain ⟨sc, hsc, hnone⟩ := hout
    obtain ⟨sc', hsc', hp⟩ := h.parent hsc
    exact .here ⟨sc', hsc', hp.trans hnone⟩
  | outer ha _ ih =>
    obtain ⟨sc, hsc, hj⟩ := ha
    obtain ⟨sc', hsc', hp⟩ := h.parent hsc
    exact .outer ⟨sc', hsc', hp.trans hj⟩ ih

/-- What was on a list stays on it, and an earlier binding stays accounted for. -/
theorem Retains.mentioned (h : s.Retains s') (hx : ∃ k, s.Outermost i k ∧ s.Mentions k x) :
    ∃ k, s'.Outermost i k ∧ s'.Mentions k x := by
  obtain ⟨k, hout, hm⟩ := hx
  exact ⟨k, h.outermost hout, h.mentions hm⟩

theorem Accounted.refl (h : s.Accounted) : s.Upholds s := ⟨h, .refl s⟩

theorem Upholds.trans (h₁ : s.Upholds s₁) (h₂ : s₁.Upholds s') : s.Upholds s' :=
  ⟨h₂.accounted, h₁.retains.trans h₂.retains⟩

/-! ## Writes to the table -/

/-- The scopes are the same, and the look-ups still lead to scopes. -/
theorem Accounted.of_scopes (h : s.Accounted) (hscopes : s'.scopes.scopes = s.scopes.scopes)
    (hblock : s'.scopes.byBlock = s.scopes.byBlock) (hroot : s'.scopes.root = s.scopes.root) :
    s.Upholds s' := by
  have hretains : s.Retains s' := by
    intro i sc hsc
    exact ⟨sc, by rw [hscopes, hsc], rfl, fun _ h => h⟩
  refine ⟨⟨⟨?_, ?_, ?_⟩, ?_⟩, hretains⟩
  · simpa only [hscopes] using h.ordered.parent
  · simpa only [hscopes, hblock] using h.ordered.byBlock
  · simpa only [hscopes, hroot] using h.ordered.root
  · rintro i x ⟨sc, hsc, hx⟩
    rw [hscopes] at hsc
    exact hretains.mentioned (h.mentioned i x ⟨sc, hsc, hx⟩)

/-- Nothing but other parts of the session changes. -/
theorem Accounted.of_table (h : s.Accounted) (htable : s'.scopes = s.scopes) : s.Upholds s' :=
  h.of_scopes (by rw [htable]) (by rw [htable]) (by rw [htable])

/-- A scope may be written to if every name that is bound by it is on the list already. -/
theorem Accounted.mapScope (h : s.Accounted) (i : ScopeId) {f : Scope → Scope}
    (hplace : ∀ sc, (f sc).place = sc.place) (hlist : ∀ sc, sc.references ⊆ (f sc).references)
    (hbinds : ∀ sc x, (f sc).bindings.contains x = true → sc.bindings.contains x = true ∨
      ∃ k, s.Outermost i k ∧ s.Mentions k x) : s.Upholds (s.mapScope i f) := by
  have hretains : s.Retains (s.mapScope i f) := by
    intro j sc hsc
    rw [getElem?_mapScope, hsc]
    split
    · exact ⟨f sc, rfl, hplace sc, hlist sc⟩
    · exact ⟨sc, rfl, rfl, fun _ h => h⟩
  refine ⟨⟨ordered_mapScope h.ordered i hplace, ?_⟩, hretains⟩
  rintro j x ⟨sc, hsc, hx⟩
  apply hretains.mentioned
  rw [getElem?_mapScope] at hsc
  split at hsc
  · next hij =>
    obtain ⟨sc₀, hsc₀, rfl⟩ := Option.map_eq_some_iff.mp hsc
    obtain rfl : i = j := by cases i; cases j; exact congrArg ScopeId.mk hij
    rcases hbinds sc₀ x hx with hold | hnew
    · exact h.mentioned i x ⟨sc₀, hsc₀, hold⟩
    · exact hnew
  · exact h.mentioned j x ⟨sc, hsc, hx⟩

/-- A scope that binds nothing yet may be added inside a scope of the table. -/
theorem Accounted.push (h : s.Accounted) {sc : Scope} (hempty : sc.bindings = .empty)
    (hparent : ∀ j, sc.parent = some j → s.HasScope j)
    (hscopes : s'.scopes.scopes = s.scopes.scopes.push sc)
    (hblock : ∀ n i, s'.scopes.byBlock.get? n = some i →
      s.scopes.byBlock.get? n = some i ∨ i.index = s.scopes.scopes.size)
    (hroot : ∀ i, s'.scopes.root = some i →
      s.scopes.root = some i ∨ i.index = s.scopes.scopes.size) : s.Upholds s' := by
  have hsize : s'.scopes.scopes.size = s.scopes.scopes.size + 1 := by simp [hscopes]
  have hget : ∀ i, s'.scopes.scopes[i]? =
      if i = s.scopes.scopes.size then some sc else s.scopes.scopes[i]? := by
    intro i
    rw [hscopes, Array.getElem?_push]
  have hretains : s.Retains s' := by
    intro i sc₀ hsc₀
    have hlt := (Array.getElem?_eq_some_iff.mp hsc₀).1
    exact ⟨sc₀, by rw [hget, if_neg (by omega), hsc₀], rfl, fun _ h => h⟩
  refine ⟨⟨⟨?_, ?_, ?_⟩, ?_⟩, hretains⟩
  · intro i sc₀ j hsc₀ hj
    rw [hget] at hsc₀
    split at hsc₀
    · next hi =>
      obtain rfl := Option.some.inj hsc₀
      rw [hi]
      exact hparent j hj
    · exact h.ordered.parent i sc₀ j hsc₀ hj
  · intro n i hi
    rcases hblock n i hi with hold | hnew
    · have := h.ordered.byBlock n i hold
      omega
    · omega
  · intro i hi
    rcases hroot i hi with hold | hnew
    · have := h.ordered.root i hold
      omega
    · omega
  · rintro i x ⟨sc₀, hsc₀, hx⟩
    apply hretains.mentioned
    rw [hget] at hsc₀
    split at hsc₀
    · obtain rfl := Option.some.inj hsc₀
      rw [hempty] at hx
      simp [Table.contains, Table.get?_empty] at hx
    · exact h.mentioned i x ⟨sc₀, hsc₀, hx⟩

end Session

open Session

/-- Nothing is around a scope that is not in the table. -/
theorem ScopeId.programScope_unknown {s : Session} {i : ScopeId} (hi : ¬ s.HasScope i) :
    i.programScope s = .error .dangling s := by
  have hnone : s.scopes.scopes[i.index]? = none := by
    rw [Array.getElem?_eq_none_iff]
    exact Nat.le_of_not_lt hi
  have hdata : i.data s = .error .dangling s := by
    show (get >>= fun s => found s.scopes.scopes[i.index]?) s = _
    rw [run_get_bind, hnone]
    rfl
  have hchain : i.chain s = .error .dangling s := by
    show (get >>= fun s => chainWithin (s.scopes.scopes.size + 1) i) s = _
    rw [run_get_bind, chainWithin]
    exact bind_of_error hdata
  exact bind_of_error hchain

/-- Opening a scope fails and changes nothing, or puts a scope that binds nothing at the end of the
table. -/
theorem createScope_cases (block : PathId) (parent : Option ScopeId) (s : Session) :
    (∃ e, createScope block parent s = .error e s) ∨ ∃ (T : ScopeTable) (type : NodeType),
      createScope block parent s = .ok ⟨s.scopes.scopes.size⟩ { s with scopes := T } ∧
      T.scopes = s.scopes.scopes.push { block, blockType := type, parent } ∧
      (∀ n i, T.byBlock.get? n = some i →
        s.scopes.byBlock.get? n = some i ∨ i.index = s.scopes.scopes.size) ∧
      ∀ i, T.root = some i → s.scopes.root = some i ∨ i.index = s.scopes.scopes.size := by
  rcases question_cases (.type? block) s with ⟨e, htype⟩ | ⟨type, htype⟩
  · exact .inl ⟨e, bind_of_error htype⟩
  rcases question_cases (.node? block) s with ⟨e, hnode⟩ | ⟨node, hnode⟩
  · exact .inl ⟨e, (bind_of_ok htype).trans (bind_of_error hnode)⟩
  have hrun : createScope block parent s = .ok ⟨s.scopes.scopes.size⟩ { s with scopes :=
      { s.scopes with
        scopes := s.scopes.scopes.push { block, blockType := type.getD .program, parent }
        byBlock := node.elim s.scopes.byBlock fun n =>
          s.scopes.byBlock.insert n ⟨s.scopes.scopes.size⟩
        root := if parent.isNone && s.scopes.root.isNone then some ⟨s.scopes.scopes.size⟩
          else s.scopes.root } } := by
    unfold createScope
    rw [bind_of_ok htype, bind_of_ok hnode]
    cases node <;> rfl
  refine .inr ⟨_, type.getD .program, hrun, rfl, fun n i hi => ?_, fun i hi => ?_⟩
  · cases node with
    | none => exact .inl hi
    | some m =>
      simp only [Option.elim_some, Table.get?_insert] at hi
      split at hi
      · exact .inr (congrArg ScopeId.index (Option.some.inj hi).symm)
      · exact .inl hi
  · dsimp only at hi
    split at hi
    · exact .inr (congrArg ScopeId.index (Option.some.inj hi).symm)
    · exact .inl hi

/-! ## Computations -/

/-- The computation loses no scope and no name of a list, and bound names stay accounted for. -/
def Upholding (x : SessionM α) : Prop := Leads (fun s s' => s.Accounted → s.Upholds s') x

namespace Upholding

theorem upholds_refl (s : Session) (h : s.Accounted) : s.Upholds s := h.refl

theorem upholds_trans (s s₁ s₂ : Session) (h₁ : s.Accounted → s.Upholds s₁)
    (h₂ : s₁.Accounted → s₁.Upholds s₂) (h : s.Accounted) : s.Upholds s₂ :=
  (h₁ h).trans (h₂ (h₁ h).accounted)

theorem pure (a : α) : Upholding (pure a : SessionM α) := Leads.pure upholds_refl a

theorem bind {x : SessionM α} {f : α → SessionM β} (hx : Upholding x)
    (hf : ∀ a, Upholding (f a)) : Upholding (x >>= f) := Leads.bind upholds_trans hx hf

theorem forM {f : α → SessionM PUnit} (l : List α) (hf : ∀ a, Upholding (f a)) :
    Upholding (l.forM f) := Leads.forM upholds_refl upholds_trans l fun a _ => hf a

theorem composed {Primitive : (α : Type) → SessionM α → Prop} {x : SessionM α}
    (hx : Composed Primitive x) (h : ∀ α (x : SessionM α), Primitive α x → Upholding x) :
    Upholding x := hx.leads upholds_refl upholds_trans h

theorem question {x : SessionM α} (hx : Composed (fun _ _ => False) x) : Upholding x :=
  composed hx fun _ _ h => h.elim

/-- The computation does not write to the table of scopes. -/
theorem of_table {x : SessionM α} (h : ∀ s, (after x s).scopes = s.scopes) : Upholding x :=
  fun s hs => hs.of_table (h s)

theorem onTree (build : TreeM α) : Upholding (onTree build) := by
  refine of_table fun s => ?_
  cases h : build.run s.tree with
  | none => rw [after_of_error (onTree_dangling h)]
  | some r => rw [after_of_ok (onTree_run h)]

theorem modifyPath (p : PathId) (f : PathData → PathData) : Upholding (p.modifyData f) :=
  (question (.data p)).bind fun _ => of_table fun _ => rfl

theorem navigating {x : SessionM α} (hx : Navigating x) : Upholding x := of_table hx.scopes

/-! ### Names -/

/-- A change to a scope that binds no name and strikes none off its list. -/
theorem modifyScope (i : ScopeId) {f : Scope → Scope} (hplace : ∀ sc, (f sc).place = sc.place)
    (hlist : ∀ sc, sc.references ⊆ (f sc).references)
    (hbinds : ∀ sc x, (f sc).bindings.contains x = true → sc.bindings.contains x = true) :
    Upholding (i.modifyData f) := by
  refine (question (.scopeData i)).bind fun _ s hs => ?_
  exact hs.mapScope i hplace hlist fun sc x hx => .inl (hbinds sc x hx)

theorem noteReference (i : ScopeId) (x : String) : Upholding (i.noteReference x) := by
  refine (question (.programScope i)).bind fun j => ?_
  refine modifyScope j (fun _ => rfl) (fun sc y hy => ?_) fun _ _ h => h
  exact (Scope.mem_addName _ _ _).mpr (.inl hy)

theorem noteGlobal (i : ScopeId) (x : String) : Upholding (i.noteGlobal x) :=
  (question (.programScope i)).bind fun j =>
    modifyScope j (fun _ => rfl) (fun _ _ h => h) fun _ _ h => h

theorem modifyBinding (i : ScopeId) (x : String) (f : Binding → Binding) :
    Upholding (i.modifyBinding x f) := by
  refine (question (.bindingScope? i x)).bind fun o => ?_
  cases o with
  | none => exact pure _
  | some owner =>
    have hmodify : Upholding (owner.modifyData fun sc => sc.mapBinding x f) :=
      modifyScope owner (fun _ => rfl) (fun _ _ h => h) fun sc y hy =>
        (Scope.contains_mapBinding sc x y f) ▸ hy
    exact hmodify.bind fun _ => pure _

theorem removeBinding (i : ScopeId) (x : String) : Upholding (i.removeBinding x) := by
  refine (question (.bindingScope? i x)).bind fun o => ?_
  cases o with
  | none => exact pure _
  | some owner =>
    refine modifyScope owner (fun _ => rfl) (fun _ _ h => h) fun sc y hy => ?_
    simp only [Table.contains, Table.get?_erase] at hy ⊢
    split at hy
    · cases hy
    · exact hy

/-- A name is put on the list before it is bound. -/
theorem registerBinding (i : ScopeId) (name : String) (kind : BindingKind) (path : PathId)
    (identifier : NodeId) : Upholding (i.registerBinding name kind path identifier) := by
  intro s hs
  by_cases hi : s.HasScope i
  · obtain ⟨j, hout, hrun⟩ := ScopeId.registerBinding_run hs.ordered hi name kind path identifier
    rw [after_of_ok hrun]
    have hnote : s.Upholds (s.mapScope j fun sc => sc.noteName name) :=
      hs.mapScope j (fun _ => rfl) (fun sc y hy => (Scope.mem_addName _ _ _).mpr (.inl hy))
        fun _ _ h => .inl h
    obtain ⟨sc, hsc⟩ := hout.hasScope.scope
    have hmentions : (s.mapScope j fun sc => sc.noteName name).Mentions j name := by
      refine ⟨sc.noteName name, ?_, (Scope.mem_addName _ _ _).mpr (.inr rfl)⟩
      rw [getElem?_mapScope, if_pos rfl, hsc, Option.map_some]
    refine hnote.trans (hnote.accounted.mapScope i (fun _ => rfl) (fun _ _ h => h) fun sc y hy => ?_)
    rcases (Scope.contains_declare _ _ _).mp hy with hold | rfl
    · exact .inl hold
    · exact .inr ⟨j, hnote.retains.outermost hout, hmentions⟩
  · have hnote : i.noteReference name s = .error .dangling s :=
      bind_of_error (ScopeId.programScope_unknown hi)
    have hrun : i.registerBinding name kind path identifier s = .error .dangling s :=
      bind_of_error hnote
    rw [after_of_error hrun]
    exact hs.refl

theorem unregister (node : NodeId) : Upholding (unregister node) := by
  refine (question .scopesCrawled).bind fun _ => ?_
  split
  · refine (question (.askBelow _ _)).bind fun below => (question .get).bind fun s =>
      (question .scopeIds).bind fun ids => forM ids fun i => ?_
    refine modifyScope i (fun _ => rfl) (fun _ _ h => h) fun sc x hx => ?_
    -- Forgetting bindings binds nothing.
    obtain ⟨v, hv, -⟩ := Scope.contains_without_iff.mp hx
    exact (Table.contains_iff_mem_keys _ _).mpr (List.mem_map.mpr ⟨(x, v), hv, rfl⟩)
  · exact pure _

theorem generateUid (i : ScopeId) (text : String) : Upholding (i.generateUid text) := by
  refine (question .get).bind fun s => (question (Composed.takenCount i)).bind fun n => ?_
  refine (question (Composed.freeCandidate i _ _ _ _)).bind fun name => ?_
  refine (question (.programScope i)).bind fun j => ?_
  have hmodify : Upholding (j.modifyData fun sc => { sc with
      references := ScopeId.addName sc.references name, uids := ScopeId.addName sc.uids name }) :=
    modifyScope j (fun _ => rfl) (fun sc y hy => (Scope.mem_addName _ _ _).mpr (.inl hy))
      fun _ _ h => h
  exact hmodify.bind fun _ => pure _

/-! ### New scopes -/

/-- The computation upholds what it should, and if it gives a scope, that is one of the table. -/
structure Yields (s : Session) (x : SessionM ScopeId) : Prop where
  upholds : s.Upholds (after x s)
  hasScope : ∀ i s', x s = .ok i s' → s'.HasScope i

theorem Yields.pure {s : Session} (hs : s.Accounted) {i : ScopeId} (hi : s.HasScope i) :
    Yields s (Pure.pure i) := by
  refine ⟨hs.refl, fun j s' h => ?_⟩
  cases h
  exact hi

theorem Yields.throw {s : Session} (hs : s.Accounted) (e : Failure) : Yields s (throw e) :=
  ⟨hs.refl, fun _ _ h => by cases h⟩

/-- What is done before a computation that yields a scope. -/
theorem Yields.bind {s : Session} {x : SessionM α} {f : α → SessionM ScopeId}
    (hx : s.Upholds (after x s)) (hf : ∀ a s₁, x s = .ok a s₁ → Yields s₁ (f a)) :
    Yields s (x >>= f) := by
  cases hrun : x s with
  | error e s₁ =>
    rw [after_of_error hrun] at hx
    have hbind : (x >>= f) s = .error e s₁ := bind_of_error hrun
    refine ⟨by rwa [after_of_error hbind], fun i s' h => ?_⟩
    rw [hbind] at h
    cases h
  | ok a s₁ =>
    rw [after_of_ok hrun] at hx
    have hrest := hf a s₁ hrun
    have hafter : after (x >>= f) s = after (f a) s₁ := by
      simp only [after, bind_of_ok hrun]
    refine ⟨by rw [hafter]; exact hx.trans hrest.upholds, fun i s' h => ?_⟩
    rw [bind_of_ok hrun] at h
    exact hrest.hasScope i s' h

/-- What is done in an accounted session before a computation that yields a scope. -/
theorem Yields.step {s : Session} (hs : s.Accounted) {x : SessionM α} {f : α → SessionM ScopeId}
    (hx : Upholding x) (hf : ∀ a s₁, x s = .ok a s₁ → s.Upholds s₁ → Yields s₁ (f a)) :
    Yields s (x >>= f) := by
  have hupholds := hx s hs
  refine .bind hupholds fun a s₁ hrun => hf a s₁ hrun ?_
  rwa [after_of_ok hrun] at hupholds

theorem Yields.get {s : Session} {f : Session → SessionM ScopeId} (h : Yields s (f s)) :
    Yields s (get >>= f) := ⟨h.upholds, h.hasScope⟩

/-- A new scope is one of the table afterwards. -/
theorem createScope {s : Session} (hs : s.Accounted) (block : PathId) {parent : Option ScopeId}
    (hparent : ∀ j, parent = some j → s.HasScope j) : Yields s (createScope block parent) := by
  rcases createScope_cases block parent s with ⟨e, he⟩ | ⟨T, type, hrun, hscopes, hblock, hroot⟩
  · exact ⟨by rw [after_of_error he]; exact hs.refl, fun _ _ h => by rw [he] at h; cases h⟩
  · refine ⟨?_, fun i s' h => ?_⟩
    · rw [after_of_ok hrun]
      exact hs.push rfl hparent hscopes hblock hroot
    · rw [hrun] at h
      cases h
      simp [HasScope, hscopes]

/-- The computation upholds what it should if it is started with a scope of the table. -/
def Within (i : ScopeId) (x : SessionM α) : Prop :=
  Leads (fun s s' => s.Accounted → s.HasScope i → s.Upholds s') x

theorem within {x : SessionM α} (hx : Upholding x) (i : ScopeId) : Within i x :=
  fun s hs _ => hx s hs

theorem within_of_composed {i : ScopeId} {x : SessionM α}
    (hx : Composed (fun _ x => Within i x) x) : Within i x := by
  refine hx.leads (fun s hs _ => hs.refl) (fun s s₁ s₂ h₁ h₂ hs hi => ?_) fun _ _ h => h
  have hfirst := h₁ hs hi
  exact hfirst.trans (h₂ hfirst.accounted (hfirst.retains.hasScope hi))

/-- The walk of a crawl opens scopes inside those it walks with. -/
theorem walking : Walking fun i _ x => Within i x where
  navigate i _ _ hx := .primitive ((navigating hx).within i)
  register i j name kind path identifier :=
    .primitive ((registerBinding j name kind path identifier).within i)
  create i block f hf := by
    refine .primitive fun s hs hi => ?_
    have hparent : ∀ j, some i = some j → s.HasScope j := fun j hj => Option.some.inj hj ▸ hi
    have hcreated := createScope hs block hparent
    cases hrun : Espalier.createScope block (some i) s with
    | error e s₁ =>
      have hupholds := hcreated.upholds
      rw [after_of_error hrun] at hupholds
      rw [after_of_error (bind_of_error hrun)]
      exact hupholds
    | ok j s₁ =>
      have hupholds := hcreated.upholds
      rw [after_of_ok hrun] at hupholds
      have hafter : after (Espalier.createScope block (some i) >>= f) s = after (f j) s₁ := by
        simp only [after, bind_of_ok hrun]
      rw [hafter]
      exact hupholds.trans
        (within_of_composed (hf j) s₁ hupholds.accounted (hcreated.hasScope j s₁ hrun))

/-! ### Crawling -/

theorem resolveWrite (use : ScopeId × PathId × List String) : Upholding (resolveWrite use) :=
  forM _ fun name => (modifyBinding use.1 name _).bind fun _ => pure _

theorem resolveRead (use : ScopeId × PathId) : Upholding (resolveRead use) := by
  refine (question (.identifierName? use.2)).bind fun o => ?_
  cases o with
  | none => exact pure _
  | some name =>
    refine (noteReference use.1 name).bind fun _ => (modifyBinding use.1 name _).bind fun found => ?_
    cases found with
    | true => exact pure _
    | false => exact noteGlobal use.1 name

theorem crawlScope {s : Session} (hs : s.Accounted) (block : PathId) {parent : Option ScopeId}
    (hparent : ∀ j, parent = some j → s.HasScope j) : Yields s (crawlScope block parent) := by
  have hcreated := createScope hs block hparent
  refine .bind hcreated.upholds fun i s₁ hrun => ?_
  have hupholds := hcreated.upholds
  rw [after_of_ok hrun] at hupholds
  have hi := hcreated.hasScope i s₁ hrun
  have hwalk := within_of_composed (walking.walkBlock (walking.walkWithin (s₁.tree.depthBound + 1))
    block i) s₁ hupholds.accounted hi
  refine .get (.bind hwalk fun uses s₂ hrun₂ => ?_)
  rw [after_of_ok hrun₂] at hwalk
  refine .step hwalk.accounted (forM _ resolveWrite) fun _ s₃ _ h₃ => ?_
  refine .step h₃.accounted (forM _ resolveRead) fun _ s₄ _ h₄ => ?_
  exact .pure h₄.accounted (h₄.retains.hasScope (h₃.retains.hasScope (hwalk.retains.hasScope hi)))

theorem ensureScopes : Upholding ensureScopes := by
  refine (question .scopesCrawled).bind fun crawled => ?_
  cases crawled with
  | true => exact pure _
  | false =>
    refine bind (fun s hs => hs.of_scopes rfl rfl rfl) fun _ => ?_
    refine (navigating .rootPath).bind fun root => (question (.node? root)).bind fun o => ?_
    have hcrawl : Upholding (Espalier.crawlScope root none) := fun s hs =>
      (crawlScope hs root (by simp)).upholds
    cases o with
    | none => exact pure _
    | some n => exact hcrawl.bind fun _ => pure _

/-! ### The scope of a path -/

theorem outermostScope {s : Session} (hs : s.Accounted) : Yields s outermostScope := by
  refine .get ?_
  split
  · next root hroot => exact .pure hs (hs.ordered.root root hroot)
  · exact .step hs (navigating .rootPath) fun root s₁ _ h₁ =>
      createScope h₁.accounted root (by simp)

/-- A block that has a scope gives it; another one is crawled once the scope around it is found. -/
theorem scopeWithin (fuel : Nat) (p : PathId) {s : Session} (hs : s.Accounted) :
    Yields s (scopeWithin fuel p) := by
  induction fuel generalizing p s with
  | zero => exact .throw hs _
  | succ fuel ih =>
    refine .step hs (navigating (Charting.scopeBlock? p)) fun o s₁ _ h₁ => ?_
    cases o with
    | none => exact outermostScope h₁.accounted
    | some block =>
      refine .get ?_
      dsimp only
      split
      · next i hi => exact .pure h₁.accounted (h₁.accounted.ordered.byBlock _ i hi)
      · refine .step h₁.accounted (question (.parent? block.1)) fun o s₂ _ h₂ => ?_
        cases o with
        | none => exact crawlScope h₂.accounted block.1 (by simp)
        | some q =>
          have houter := ih q h₂.accounted
          refine .bind houter.upholds fun j s₃ hrun => ?_
          have hupholds := houter.upholds
          rw [after_of_ok hrun] at hupholds
          have hj := houter.hasScope j s₃ hrun
          exact crawlScope hupholds.accounted block.1 fun i hi => Option.some.inj hi ▸ hj

theorem scope (p : PathId) : Upholding p.scope :=
  ensureScopes.bind fun _ => (question .get).bind fun s₀ _ hs =>
    (scopeWithin (s₀.paths.size + 1) p hs).upholds

/-! ## Edits -/

theorem naming {x : SessionM α} (hx : Naming x) : Upholding x := by
  refine composed hx fun _ _ step => ?_
  cases step with
  | hop hop => exact navigating (.primitive hop)
  | scope p => exact scope p
  | register i name kind path identifier => exact registerBinding i name kind path identifier
  | unregister node => exact unregister node
  | generateUid i text => exact generateUid i text
  | share body declaration => exact fun s hs => hs.of_scopes rfl rfl rfl

theorem editStep {x : SessionM α} (h : EditStep α x) : Upholding x := by
  cases h with
  | name h => exact naming (.primitive h)
  | onTree build => exact onTree build
  | plant node => exact of_table fun _ => rfl
  | modifyData p f => exact modifyPath p f
  | unfile c p => exact of_table fun _ => scopes_unfiled c p
  | fileUnder c p => exact of_table fun _ => rfl
  | recordMutation => exact of_table fun _ => rfl
  | requeue p =>
    refine (question (.data p)).bind fun d => ?_
    split
    · exact of_table fun _ => rfl
    · exact pure _

end Upholding

/-! ## Walks -/

variable {σ : Type}

/-- What the walk does to the session loses no scope and no name of a list. -/
def WalksUpholding (x : WalkM σ α) : Prop :=
  Leads (fun w w' => w.session.Accounted → w.session.Upholds w'.session) x

namespace WalksUpholding

theorem lift {x : SessionM α} (hx : Upholding x) :
    WalksUpholding (WalkM.onSession x : WalkM σ α) := by
  intro w hw
  rw [WalkM.after_onSession]
  exact hx w.session hw

theorem kept : Walk.Kept (σ := σ) fun w w' =>
    w.session.Accounted → w.session.Upholds w'.session where
  refl w hw := hw.refl
  trans w w₁ w₂ h₁ h₂ hw := (h₁ hw).trans (h₂ (h₁ hw).accounted)
  step hx := lift (.composed hx fun _ _ => Upholding.editStep)
  count _ hw := hw.refl
  dequeue w hw := by
    obtain ⟨o, frames, hrun, -⟩ := Walk.dequeue_run w
    rw [after_of_ok hrun]
    exact hw.of_table rfl
  framed hbody w hw := by
    rw [Walk.after_withFrame]
    have hpush : w.session.Upholds (Walk.pushFrame w).session := hw.of_table rfl
    have hinside := hpush.trans (hbody _ hpush.accounted)
    exact hinside.trans (hinside.accounted.of_table rfl)

/-- A walk of its own writes to the scopes what its steps write. -/
theorem isolated {body : WalkM σ Bool} (hbody : WalksUpholding body) :
    WalksUpholding (Walk.isolated body) := by
  intro w hw
  let start : Walk σ := { w with visited := 0, session := { w.session with stopping := false } }
  have hafter : after (Walk.isolated body) w = Walk.resume w (after body start) := by
    simp only [after, Walk.isolated]
    cases body start <;> rfl
  have hstart : w.session.Upholds start.session := hw.of_table rfl
  have hinside := hstart.trans (hbody start hstart.accounted)
  rw [hafter]
  exact hinside.trans (hinside.accounted.of_table rfl)

theorem traverse {v : Visitor σ}
    (hv : ∀ phase selector h, (phase, selector, h) ∈ v.entries → ∀ p, WalksUpholding (h p))
    (p : PathId) : WalksUpholding (p.traverse v) := by
  refine kept.bind (kept.question (.node? p)) fun o => ?_
  cases o with
  | none => exact kept.pure _
  | some node =>
    exact isolated (kept.bind (kept.question (.ask _)) fun _ =>
      (kept.steps hv _).visitFields 0 p node _)

end WalksUpholding

/-- No edit loses a scope or strikes a name off a list, and what is bound after it is on the list of
the scope outermost around it. -/
theorem Editing.upholding {x : SessionM α} (hx : Editing x) : Upholding x := by
  refine hx.leads Upholding.upholds_refl Upholding.upholds_trans
    (fun _ _ => Upholding.editStep) fun entries p hentries s hs => ?_
  rw [WalkM.after_runOn]
  refine WalksUpholding.traverse (fun phase selector h hh q => ?_) p { session := s, own := () } hs
  obtain ⟨e, he, heq⟩ := List.mem_map.mp hh
  simp only [Prod.mk.injEq] at heq
  obtain ⟨-, -, rfl⟩ := heq
  exact .lift (hentries e he q)

/-- After a crawl the bound names are accounted for. -/
theorem crawl_accounted {s₀ s : Session} {root : Option ScopeId} (h : crawl s₀ = .ok root s) :
    s.Accounted := by
  obtain ⟨_, s₁, hclear, h⟩ := bind_eq_ok h
  cases hclear
  have hempty : ({ s₀ with scopes := {} } : Session).Accounted := by
    refine ⟨⟨?_, ?_, ?_⟩, ?_⟩
    · simp
    · simp
    · simp
    · rintro i x ⟨sc, hsc, -⟩
      simp at hsc
  obtain ⟨_, s₂, hensure, h⟩ := bind_eq_ok h
  have hafter := Upholding.ensureScopes _ hempty
  rw [after_of_ok hensure] at hafter
  cases h
  exact hafter.accounted

end Espalier
