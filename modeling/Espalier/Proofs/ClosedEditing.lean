import Espalier.Edit.Insert
import Espalier.Proofs.ClosedBuilding
import Espalier.Proofs.Tidiness

set_option autoImplicit false

/-! # Edits within range

Writing to a known position puts known nodes there, and a path that moves goes to a position of a
known node; so edits of a closed session leave a closed one (`Careful.setNode`, `Careful.resync`,
`Careful.insertBeside`). -/

namespace Espalier

open SessionM

variable {s : Session}

/-! ## Buckets -/

namespace Session

/-- A closed session with other buckets, in which every path has a position. -/
theorem Closed.of_cache (h : s.Closed) {cache : Table Container (List PathId)}
    (hfiled : ∀ c (p : PathId), p ∈ bucket { s with cache } c →
      ∃ d, s.paths[p.index]? = some d ∧ d.container ≠ .detached) : Closed { s with cache } :=
  h.of_paths ⟨Nat.le_refl _, Nat.le_refl _, Nat.le_refl _⟩ rfl rfl rfl rfl
    { data := h.paths.data, sinks := h.paths.sinks, filed := hfiled, strays := h.paths.strays }

theorem Closed.unfiled (h : s.Closed) (c : Container) (p : PathId) : (s.unfiled c p).Closed := by
  have hsub : ∀ c' q, q ∈ (s.unfiled c p).bucket c' → q ∈ s.bucket c' := by
    intro c' q hq
    rw [bucket_unfiled] at hq
    split at hq
    · next hc => exact hc ▸ (List.mem_filter.mp hq).1
    · exact hq
  unfold Session.unfiled at hsub ⊢
  split
  · next hc =>
    rw [if_pos hc] at hsub
    exact h.of_cache fun c' q hq => h.paths.filed c' q (hsub c' q hq)
  · exact h

theorem extends_unfiled (c : Container) (p : PathId) : s.Extends (s.unfiled c p) :=
  ⟨by rw [tree_unfiled], by rw [paths_unfiled], by rw [scopes_unfiled]⟩

end Session

/-- Only a path with a position finds a new home, and it has a position there. -/
theorem rehomed?_placed {c c' : Container} {n : NodeId} (h : PathId.rehomed? c n = some c')
    (hn : s.Knows n) : c ≠ .detached ∧ s.Knows c' ∧ c' ≠ .detached := by
  cases c with
  | root => cases h
  | detached => cases h
  | slot m =>
    simp only [PathId.rehomed?, Option.ite_none_left_eq_some, Option.some.injEq] at h
    obtain ⟨-, rfl⟩ := h
    exact ⟨by simp, Session.knows_some.mpr hn, by simp⟩
  | list m f =>
    simp only [PathId.rehomed?, Option.ite_none_left_eq_some, Option.some.injEq] at h
    obtain ⟨-, rfl⟩ := h
    exact ⟨by simp, Session.knows_some.mpr hn, by simp⟩

theorem Reads.keyOf? {c : Container} (hc : s.Knows c) (n : NodeId) :
    Reads (PathId.keyOf? c n) s := by
  unfold PathId.keyOf?
  split
  · exact (kind (Session.knows_some.mp hc)).bind fun _ _ => pure fun _ _ => trivial
  · exact (kind (Session.knows_some.mp hc)).bind fun _ _ => pure fun _ _ => trivial
  · exact pure Session.knows_none
  · exact pure Session.knows_none

namespace Careful

/-- What is known about a path is asked for. -/
theorem data_bind {α : Type} [Names α] {p : PathId} {d : PathData} {f : PathData → SessionM α}
    (hd : s.paths[p.index]? = some d) (hf : Careful (f d) s) : Careful (p.data >>= f) s := by
  intro hs
  rw [bind_of_ok (p.data_run hd)]
  exact hf hs

section Path

variable {p : PathId} (hp : s.Knows p)

theorem unfile (c : Container) (p : PathId) : Careful (unfile c p) s := fun hs =>
  ⟨Session.extends_unfiled c p, hs.unfiled c p, trivial⟩

/-- A path with a position may be put into any bucket. -/
theorem fileUnder (c : Container) {p : PathId} (hplaced : s.Placed p) :
    Careful (fileUnder c p) s := by
  intro hs
  refine ⟨⟨Nat.le_refl _, Nat.le_refl _, Nat.le_refl _⟩, hs.of_cache fun c' q hq => ?_, trivial⟩
  rw [Session.bucket_insert] at hq
  split at hq
  · rcases List.mem_append.mp hq with hq | hq
    · exact hs.paths.filed c q hq
    · exact List.mem_singleton.mp hq ▸ hplaced
  · exact hs.paths.filed c' q hq

/-! ## Moving paths -/

/-- A path with a position moves to another one. -/
theorem moveToContainer {p : PathId} (hplaced : s.Placed p) {c : Container} (hc : s.Knows c)
    (hne : c ≠ .detached) : Careful (p.moveToContainer c) s := by
  obtain ⟨d, hd, hpos⟩ := hplaced
  have hp : s.Knows p := Session.knows_of_data hd
  refine (Reads.container hp).andThen fun old _ => ?_
  refine (unfile old p).bind_run fun _ s₁ hrun h₁ _ => ?_
  obtain rfl : s.unfiled old p = s₁ := (EStateM.Result.ok.inj hrun).2
  have hd₁ : (s.unfiled old p).paths[p.index]? = some d := by rwa [Session.paths_unfiled]
  refine (fileUnder c ⟨d, hd₁, hpos⟩).bind_run fun _ s₂ hrun h₂ _ => ?_
  refine modifyData ((h₁.trans h₂).knows hp) fun e he hknown _ => ?_
  obtain ⟨-, rfl⟩ := EStateM.Result.ok.inj hrun
  obtain rfl : d = e := Option.some.inj (hd₁.symm.trans he)
  refine ⟨⟨hknown.1, hknown.2.1, (h₁.trans h₂).knows hc⟩, fun h => absurd h hne, ?_⟩
  exact ⟨fun h => absurd h hne, fun h => absurd h hpos⟩

/-- What is left of a path that moved. -/
theorem placed_moveToContainer {p : PathId} {c : Container} {s' : Session} (hp : s.Knows p)
    (hne : c ≠ .detached) (hrun : p.moveToContainer c s = .ok () s') : s'.Placed p := by
  obtain ⟨d, hd⟩ := Session.exists_data hp
  rw [PathId.moveToContainer_run hd] at hrun
  obtain ⟨-, rfl⟩ := EStateM.Result.ok.inj hrun
  refine ⟨{ d with container := c }, ?_, hne⟩
  rw [Session.paths_rehomed, getElem?_modify_paths, if_pos rfl, hd, Option.map_some]

theorem moveTo {p : PathId} (hplaced : s.Placed p) {parent : Option PathId}
    (hparent : s.Knows parent) {c : Container} (hc : s.Knows c) (hne : c ≠ .detached) (k : Key) :
    Careful (p.moveTo parent c k) s := by
  have hp : s.Knows p := by
    obtain ⟨d, hd, -⟩ := hplaced
    exact Session.knows_of_data hd
  refine (moveToContainer hplaced hc hne).bind_run fun _ s₁ hrun h₁ _ => ?_
  obtain ⟨d, hd, hpos⟩ := placed_moveToContainer hp hne hrun
  refine modifyData (h₁.knows hp) fun e he hknown _ => ?_
  obtain rfl : d = e := Option.some.inj (hd.symm.trans he)
  exact ⟨⟨hknown.1, h₁.knows hparent, hknown.2.2⟩, fun h => absurd h hpos, Iff.rfl⟩

/-- What is left of a path that moved to a position. -/
theorem placed_moveTo {p : PathId} {parent : Option PathId} {c : Container} {k : Key}
    {s' : Session} (hp : s.Knows p) (hne : c ≠ .detached)
    (hrun : p.moveTo parent c k s = .ok () s') : s'.Placed p := by
  obtain ⟨_, s₁, hmove, hrest⟩ := bind_eq_ok hrun
  obtain ⟨d, hd, hpos⟩ := placed_moveToContainer hp hne hmove
  rw [p.modifyData_run hd] at hrest
  obtain ⟨-, rfl⟩ := EStateM.Result.ok.inj hrest
  refine ⟨{ d with parent, key := k }, ?_, hpos⟩
  rw [getElem?_modify_paths, if_pos rfl, hd, Option.map_some]

include hp

theorem markRemoved : Careful p.markRemoved s := by
  refine (Reads.container hp).andThen fun old _ => (unfile old p).bind fun _ s₁ h₁ _ => ?_
  refine modifyData (h₁.knows hp) fun d _ hd hsinks => ?_
  exact ⟨⟨Session.knows_none, hd.2.1, hd.2.2⟩, fun h => ⟨rfl, (hsinks h).2⟩, Iff.rfl⟩

/-! ## Keeping in step -/

theorem resyncParent : Careful p.resyncParent s := by
  refine of_closed fun hs => ?_
  obtain ⟨d, hd⟩ := Session.exists_data hp
  refine data_bind hd ?_
  split
  · exact pure trivial
  · next parent hparent =>
    refine (Reads.node? ((hs.paths.data p d hd).2.1 parent hparent)).andThen fun o ho => ?_
    split
    · exact pure trivial
    · next node =>
      have hnode := Session.knows_some.mp ho
      split
      · exact pure trivial
      · next c hc =>
        obtain ⟨hplaced, hknown, hne⟩ := rehomed?_placed hc (Session.knows_some.mp ho)
        exact moveToContainer ⟨d, hd, hplaced⟩ hknown hne

theorem resyncKey : Careful p.resyncKey s := by
  refine (Reads.data hp).andThen fun d hd => ?_
  split
  · exact pure trivial
  · next n hn =>
    refine (Reads.nodeAt hd.2.2 d.key).andThen fun _ _ => ite (fun _ => pure trivial) fun _ =>
      ite (fun _ => pure trivial) fun _ => (Reads.keyOf? hd.2.2 n).andThen fun o _ => ?_
    cases o with
    | none => exact markRemoved hp
    | some k => exact annotate hp fun _ => ⟨rfl, rfl, rfl⟩

theorem resync : Careful p.resync s :=
  (Reads.isRemoved hp).andThen fun _ _ => ite (fun _ => pure trivial) fun _ =>
    (resyncParent hp).bind fun _ _ h₁ _ => resyncKey (h₁.knows hp)

omit hp in
theorem shiftKeys {c : Container} (start : Nat) (delta : Int) :
    Careful (shiftKeys c start delta) s := by
  refine get_bind fun hs => ?_
  have hknown : s.Knows (s.bucket c) := fun q hq => by
    obtain ⟨d, hd, -⟩ := hs.paths.filed c q hq
    exact Session.knows_of_data hd
  refine forM hknown fun q s₁ h₁ hq => annotate hq fun d => ?_
  cases d.key with
  | index i =>
    dsimp only
    split
    · exact ⟨rfl, rfl, rfl⟩
    · exact ⟨rfl, rfl, rfl⟩
  | root | field => exact ⟨rfl, rfl, rfl⟩

/-! ## Writing to positions -/

omit hp in
theorem recordMutation : Careful recordMutation s := fun hs =>
  ⟨⟨Nat.le_refl _, Nat.le_refl _, Nat.le_refl _⟩,
    { tree := hs.tree, paths := hs.paths.of_same ⟨Nat.le_refl _, Nat.le_refl _, Nat.le_refl _⟩ rfl rfl rfl
      scopes := hs.scopes.of_same ⟨Nat.le_refl _, Nat.le_refl _, Nat.le_refl _⟩ rfl
      frames := hs.frames, parser := hs.parser }, trivial⟩

omit hp in
/-- A known node is noted with a path that has a position. -/
theorem noteNode {p : PathId} (hplaced : s.Placed p) {n : NodeId} (hn : s.Knows n) :
    Careful (p.modifyData fun d => { d with node := some n, inferred := none }) s := by
  obtain ⟨d, hd, hpos⟩ := hplaced
  refine modifyData (Session.knows_of_data hd) fun e he hknown _ => ?_
  obtain rfl : d = e := Option.some.inj (hd.symm.trans he)
  exact ⟨⟨Session.knows_some.mpr hn, hknown.2⟩, fun h => absurd h hpos, Iff.rfl⟩

theorem setNode {n : NodeId} (hn : s.Knows n) : Careful (p.setNode n) s := by
  obtain ⟨d, hd⟩ := Session.exists_data hp
  refine of_closed fun hs => ?_
  have hknown := hs.paths.data p d hd
  -- What is written to the tree leaves the paths alone.
  have hthen : ∀ {x : SessionM PUnit}, Careful x s → d.container ≠ .detached →
      (∀ s', x s = .ok () s' → s'.paths = s.paths) →
      Careful (x >>= fun _ => p.modifyData fun d => { d with node := some n, inferred := none }) s :=
    fun hx hpos hpaths => hx.bind_run fun _ s₁ hrun h₁ _ =>
      noteNode (p := p) ⟨d, by rw [hpaths s₁ hrun]; exact hd, hpos⟩ (h₁.knows hn)
  have hrefused : ∀ cause : Refusal, Careful (do
      let _ : PUnit ← SessionM.refuse cause
      p.modifyData fun d => { d with node := some n, inferred := none }) s :=
    fun cause => (refuse cause).bind_run fun _ _ hrun => by cases hrun
  have hkind : ∀ {owner : NodeId} {g : NodeKind → NodeKind}, s.Knows owner →
      (∀ k, s.Knows k → s.Knows (g k)) → d.container ≠ .detached → Careful (do
        Espalier.modifyKind owner g
        p.modifyData fun d => { d with node := some n, inferred := none }) s := by
    intro owner g howner hg hpos
    refine hthen (modifyKind howner fun k _ => hg k) hpos fun s' hrun => ?_
    obtain ⟨k, hk, -⟩ := hs.exists_kind howner
    rw [modifyKind_run hk] at hrun
    rw [← (EStateM.Result.ok.inj hrun).2]
  refine data_bind hd ?_
  split
  · next hc =>
    refine hthen (fun hs => ?_) (by simp [hc]) fun s' hrun => by
      rw [← (EStateM.Result.ok.inj hrun).2]
    refine ⟨⟨Nat.le_refl _, Nat.le_refl _, Nat.le_refl _⟩, hs.of_tree (Nat.le_refl _) ⟨fun m hm => ?_,
      hs.tree.children⟩, trivial⟩
    exact Option.some.inj hm ▸ hn
  · next owner f hc _ =>
    have howner : s.Knows owner := Session.knows_some.mp (hc ▸ hknown.2.2 : s.Knows (Container.slot owner))
    refine (Reads.kind howner).andThen fun k _ => ?_
    split
    · exact hrefused _
    · exact hkind howner (fun k hk => Session.knows_setNode hk hn) (by simp [hc])
    · exact hrefused _
  · next owner f i hc _ =>
    have howner : s.Knows owner := Session.knows_some.mp (hc ▸ hknown.2.2 : s.Knows (Container.list owner f))
    refine (Reads.kind howner).andThen fun k hk => ?_
    split
    · next ids hids =>
      have hknown : s.Knows ids := fun m hm =>
        Session.knows_child_list (Session.knows_kind_child hk f _ hids) ids rfl m hm
      refine ite (fun _ => hkind howner (fun k hk => Session.knows_setList hk fun m hm => ?_) (by simp [hc]))
        fun _ => hrefused _
      rcases List.mem_or_eq_of_mem_set hm with hm | rfl
      · exact hknown m hm
      · exact hn
    · exact hrefused _
  · exact hrefused _

theorem detach : Careful p.detach s := by
  refine (Reads.data hp).andThen fun d hd => ?_
  split
  · exact refuse _
  · next owner f hc _ =>
    have howner : s.Knows owner := Session.knows_some.mp (hc ▸ hd.2.2 : s.Knows (Container.slot owner))
    refine (Reads.kind howner).andThen fun k _ => ?_
    split
    · exact modifyKind howner fun k _ hk => Session.knows_clearNode hk
    · exact refuse _
    · exact refuse _
  · next owner f i hc _ =>
    have howner : s.Knows owner := Session.knows_some.mp (hc ▸ hd.2.2 : s.Knows (Container.list owner f))
    refine (Reads.kind howner).andThen fun k hk => ?_
    split
    · next ids hids =>
      have hknown : s.Knows ids := Session.knows_child_list (Session.knows_kind_child hk f _ hids) ids rfl
      refine ite (fun _ => ?_) fun _ => (refuse _).bind_run fun _ _ hrun => by cases hrun
      exact (modifyKind howner fun k _ hk => Session.knows_setList hk
        (Session.knows_of_subset (List.eraseIdx_subset) hknown)).bind fun _ _ _ _ => shiftKeys _ _
    · exact (refuse _).bind_run fun _ _ hrun => by cases hrun
  · exact refuse _

/-! ## Insertion -/

theorem insertAt (f : Field) (i : Nat) {nodes : List NodeId} (hnodes : s.Knows nodes) :
    Careful (p.insertAt f i nodes) s := by
  refine (Reads.node? hp).andThen fun o ho => ?_
  cases o with
  | none => exact refuse _
  | some owner =>
    have howner := Session.knows_some.mp ho
    have hrest : ∀ s₁, s.Extends s₁ → Careful (do
        Espalier.shiftKeys (.list owner f) i nodes.length
        let paths ← (List.range nodes.length).mapM fun j => p.element f (i + j)
        SessionM.recordMutation
        if ← scopesCrawled then
          paths.forM fun q => do
            if ← q.isAny NodeType.isDeclaration then q.registerDeclaration
        Pure.pure paths) s₁ := by
      intro s₁ h₁
      refine (shiftKeys _ _).bind fun _ s₂ h₂ _ => ?_
      refine (mapM (Session.knows_numbers _) fun j s₃ h₃ _ =>
        element ((h₁.trans (h₂.trans h₃)).knows hp) f _).bind fun paths s₃ h₃ hpaths => ?_
      refine recordMutation.bind fun _ s₄ h₄ _ => Reads.scopesCrawled.andThen fun crawled _ => ?_
      have hregister : Careful (paths.forM fun q => do
          if ← q.isAny NodeType.isDeclaration then q.registerDeclaration) s₄ :=
        forM (h₄.knows hpaths) fun q s₅ _ hq => (Reads.isAny hq _).andThen fun _ _ =>
          ite (fun _ => registerDeclaration hq) fun _ => pure trivial
      cases crawled with
      | true => exact hregister.bind fun _ s₅ h₅ _ => pure ((h₄.trans h₅).knows hpaths)
      | false => exact pure (h₄.knows hpaths)
    refine (Reads.kind howner).andThen fun k hk => ?_
    split
    · next ids hids =>
      have hknown : s.Knows ids := Session.knows_child_list (Session.knows_kind_child hk f _ hids) ids rfl
      refine ite (fun _ => (refuse _).bind_run fun _ _ hrun => by cases hrun) fun _ => ?_
      refine (modifyKind howner fun k _ hk => Session.knows_setList hk ?_).bind fun _ s₁ h₁ _ =>
        hrest s₁ h₁
      refine Session.knows_append.mpr ⟨Session.knows_append.mpr ⟨?_, hnodes⟩, ?_⟩
      · exact Session.knows_of_subset (List.take_subset _ _) hknown
      · exact Session.knows_of_subset (List.drop_subset _ _) hknown
    · exact (refuse _).bind_run fun _ _ hrun => by cases hrun
    · exact (refuse _).bind_run fun _ _ hrun => by cases hrun

theorem unshiftInto (f : Field) {nodes : List NodeId} (hnodes : s.Knows nodes) :
    Careful (p.unshiftInto f nodes) s :=
  (Reads.isRemoved hp).andThen fun _ _ => ite (fun _ => refuse _) fun _ => insertAt hp f 0 hnodes

theorem pushInto (f : Field) {nodes : List NodeId} (hnodes : s.Knows nodes) :
    Careful (p.pushInto f nodes) s := by
  refine (Reads.isRemoved hp).andThen fun _ _ => ite (fun _ => refuse _) fun _ => ?_
  refine (Reads.node? hp).andThen fun o ho => ?_
  cases o with
  | none => exact refuse _
  | some n =>
    exact (Reads.listLength (Session.knows_some.mp ho) f).andThen fun _ _ => insertAt hp f _ hnodes

theorem wrapWith {nodes : List NodeId} (hnodes : s.Knows nodes) (after : Bool) :
    Careful (p.wrapWith nodes after) s := by
  refine (Reads.node? hp).andThen fun o ho => ?_
  cases o with
  | none => exact refuse _
  | some current =>
    have hcurrent := Session.knows_some.mp ho
    have hall : s.Knows (if after then current :: nodes else nodes ++ [current]) := by
      split
      · exact Session.knows_cons.mpr ⟨hcurrent, hnodes⟩
      · exact Session.knows_append.mpr ⟨hnodes, Session.knows_cons.mpr ⟨hcurrent, Session.knows_nil⟩⟩
    refine (block hall).bind fun b s₁ h₁ hb => (setNode (h₁.knows hp) hb).bind fun _ s₂ h₂ _ => ?_
    refine recordMutation.bind fun _ s₃ h₃ _ => mapM (Session.knows_numbers _) fun i s₄ h₄ _ => ?_
    exact element ((h₁.trans (h₂.trans (h₃.trans h₄))).knows hp) _ _

theorem insertHere {nodes : List NodeId} (hnodes : s.Knows nodes) (after : Bool) :
    Careful (p.insertHere nodes after) s := by
  refine (Reads.data hp).andThen fun d hd => ?_
  split
  · next hparent =>
    have hparent := hd.2.1 _ hparent
    cases after with
    | true => exact (Reads.nextIndex _).andThen fun _ _ => insertAt hparent _ _ hnodes
    | false => exact insertAt hparent _ _ hnodes
  · exact (Reads.isStatementOrBlock hp).andThen fun _ _ => ite (fun _ => wrapWith hp hnodes after)
      fun _ => refuse _

theorem delegatesInsertion : Reads p.delegatesInsertion s := by
  refine (Reads.parentType? hp).bind fun o _ => ?_
  split
  · exact .pure trivial
  · exact .pure trivial
  · exact .pure trivial
  · exact Reads.isAny hp _
  · exact .pure trivial

omit hp in
theorem insertWithin {p : PathId} (hp : s.Knows p) {nodes : List NodeId} (hnodes : s.Knows nodes)
    (after : Bool) (fuel : Nat) : Careful (PathId.insertWithin nodes after fuel p) s := by
  induction fuel generalizing p s with
  | zero => exact exhausted
  | succ fuel ih =>
    refine (Reads.isRemoved hp).andThen fun _ _ => ite (fun _ => refuse _) fun _ => ?_
    refine (resync hp).bind fun _ s₁ h₁ _ => (delegatesInsertion (h₁.knows hp)).andThen fun _ _ =>
      (Reads.parent? (h₁.knows hp)).andThen fun o ho => ?_
    split
    · exact ih (Session.knows_some.mp ho) (h₁.knows hnodes)
    · exact insertHere (h₁.knows hp) (h₁.knows hnodes) after

theorem insertBeside {nodes : List NodeId} (hnodes : s.Knows nodes) (after : Bool) :
    Careful (p.insertBeside nodes after) s :=
  (Reads.isRemoved hp).andThen fun _ _ => ite (fun _ => refuse _) fun _ =>
    ite (fun _ => pure Session.knows_nil) fun _ => get_bind fun _ => insertWithin hp hnodes after _

/-! ## Steering and notes -/

theorem setNote (name : String) (value : Json) : Careful (p.setNote name value) s :=
  annotate hp fun _ => ⟨rfl, rfl, rfl⟩

theorem skip : Careful p.skip s := annotate hp fun _ => ⟨rfl, rfl, rfl⟩

theorem stop : Careful p.stop s := by
  have hmark : Careful (p.modifyData fun d => { d with stop := true, skip := true }) s :=
    annotate hp fun _ => ⟨rfl, rfl, rfl⟩
  refine hmark.bind fun _ s₁ _ _ => ?_
  intro hs
  have hext : s₁.Extends { s₁ with stopping := true } := ⟨Nat.le_refl _, Nat.le_refl _, Nat.le_refl _⟩
  exact ⟨hext, { tree := hs.tree, paths := hs.paths.of_same hext rfl rfl rfl
                 scopes := hs.scopes.of_same hext rfl, frames := hs.frames, parser := hs.parser }, trivial⟩

theorem requeue : Careful p.requeue s := by
  refine (Reads.data hp).andThen fun d _ => ?_
  split
  · next frame _ _ =>
    intro hs
    have hext : s.Extends { s with frames := PathId.requeue.enqueue p frame s.frames } :=
      ⟨Nat.le_refl _, Nat.le_refl _, Nat.le_refl _⟩
    have hqueues : ∀ frames : List Frame, (∀ f ∈ frames, s.Knows f.queue) →
        ∀ f ∈ PathId.requeue.enqueue p frame frames, s.Knows f.queue := by
      intro frames hframes
      induction frames with
      | nil => exact nofun
      | cons g rest ih =>
        obtain ⟨hg, hrest⟩ := List.forall_mem_cons.mp hframes
        simp only [PathId.requeue.enqueue]
        split
        · refine List.forall_mem_cons.mpr ⟨?_, hrest⟩
          split
          · exact hg
          · exact Session.knows_append.mpr ⟨hg, Session.knows_cons.mpr ⟨hp, Session.knows_nil⟩⟩
        · exact List.forall_mem_cons.mpr ⟨hg, ih hrest⟩
    exact ⟨hext, { tree := hs.tree, paths := hs.paths.of_same hext rfl rfl rfl
                   scopes := hs.scopes.of_same hext rfl
                   frames := hqueues s.frames hs.frames, parser := hs.parser }, trivial⟩
  · exact pure trivial

/-! ## Forgetting -/

omit hp in
theorem unregister {n : NodeId} (hn : s.Knows n) : Careful (unregister n) s := by
  refine Reads.scopesCrawled.andThen fun _ _ => ite (fun _ => ?_) fun _ => pure trivial
  refine (Reads.subtree? hn).andThen fun below _ => get_bind fun _ => ?_
  refine Reads.scopeIds.andThen fun is his => forM his fun i s₁ _ hi => modifyScope hi fun sc hsc => ?_
  refine ⟨hsc.1, hsc.2.1, fun e he => ?_⟩
  obtain ⟨e', he', rfl⟩ := List.mem_map.mp he
  obtain ⟨hid, hscope, hpath, hviolations, hreferences⟩ := hsc.2.2 e' (List.mem_filter.mp he').1
  exact ⟨hid, hscope, hpath, Session.knows_of_subset (List.filter_subset_self _) hviolations,
    Session.knows_of_subset (List.filter_subset_self _) hreferences⟩

end Path

end Careful

end Espalier
