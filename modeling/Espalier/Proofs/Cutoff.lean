import Espalier.Proofs.Recording
import Espalier.Proofs.Steering

set_option autoImplicit false

/-! # Replacements do not go on forever

Where handlers change the tree only by putting new nodes in the place of the visited one, every walk
ends, however large these nodes are and however often a handler puts them there (`Steers.ends`). A
walk goes down no further than `maxDepth`; the lists that it goes along keep their length; and at
each place it makes no more than `maxRequeues` visits beyond the ordinary one. So the proof is an
induction on the depth that is left, and within it on what is left of a list and on the visits that
are left for a path.

That a walk ends is a fact about the steps that it may nest: from some number on, more of them make
no difference (`Walk.Concludes`). The same induction shows that a walk keeps what its handlers keep
(`Visitor.SteersWithin.kept`). -/

namespace Espalier

open SessionM Session

variable {σ α β : Type}

/-! ## Ends of computations -/

namespace Walk

/-- With enough steps the computation ends, always in the same way: it succeeds, and `post` holds, or
it fails as it may. -/
def Concludes (fails : Failure → Prop) (x : Nat → WalkM σ α) (w : Walk σ)
    (post : α → Walk σ → Prop) : Prop :=
  ∃ outcome bound, (∀ fuel, bound ≤ fuel → x fuel w = outcome) ∧
    match outcome with
    | .ok a w' => post a w'
    | .error e _ => fails e

namespace Concludes

variable {fails : Failure → Prop} {w w₁ w' : Walk σ} {post : α → Walk σ → Prop}
  {post' : β → Walk σ → Prop}

theorem of_ok {x : Nat → WalkM σ α} {a : α} (h : ∀ fuel, x fuel w = .ok a w') (ha : post a w') :
    Concludes fails x w post := ⟨_, 0, fun fuel _ => h fuel, ha⟩

theorem of_error {x : Nat → WalkM σ α} {e : Failure} (h : ∀ fuel, x fuel w = .error e w')
    (he : fails e) : Concludes fails x w post := ⟨_, 0, fun fuel _ => h fuel, he⟩

/-- What is known of the end holds when there are no steps to count. -/
theorem of_ok_run {x : WalkM σ α} {a : α} (h : Concludes fails (fun _ => x) w post)
    (hrun : x w = .ok a w') : post a w' := by
  obtain ⟨outcome, bound, hx, hend⟩ := h
  obtain rfl : EStateM.Result.ok a w' = outcome := hrun.symm.trans (hx bound le_rfl)
  exact hend

theorem mono {post₁ : α → Walk σ → Prop} {x : Nat → WalkM σ α} (hx : Concludes fails x w post)
    (h : ∀ a w', post a w' → post₁ a w') : Concludes fails x w post₁ := by
  obtain ⟨outcome, bound, hrun, hend⟩ := hx
  refine ⟨outcome, bound, hrun, ?_⟩
  cases outcome with
  | ok a w₁ => exact h a w₁ hend
  | error e w₁ => exact hend

/-- The first step does not count. -/
theorem succ {x : Nat → WalkM σ α} (h : Concludes fails (fun fuel => x (fuel + 1)) w post) :
    Concludes fails x w post := by
  obtain ⟨outcome, bound, hrun, hend⟩ := h
  refine ⟨outcome, bound + 1, fun fuel hfuel => ?_, hend⟩
  obtain ⟨fuel, rfl⟩ : ∃ fuel', fuel = fuel' + 1 := ⟨fuel - 1, by omega⟩
  exact hrun fuel (by omega)

theorem bind {x : Nat → WalkM σ α} {f : Nat → α → WalkM σ β} (hx : Concludes fails x w post)
    (hf : ∀ a w', post a w' → Concludes fails (fun fuel => f fuel a) w' post') :
    Concludes fails (fun fuel => x fuel >>= f fuel) w post' := by
  obtain ⟨outcome, bound, hrun, hend⟩ := hx
  cases outcome with
  | ok a w₁ =>
    obtain ⟨outcome, bound', hrun', hend'⟩ := hf a w₁ hend
    refine ⟨outcome, max bound bound', fun fuel hfuel => ?_, hend'⟩
    exact (bind_of_ok (hrun fuel (by omega))).trans (hrun' fuel (by omega))
  | error e w₁ => exact ⟨_, bound, fun fuel hfuel => bind_of_error (hrun fuel hfuel), hend⟩

/-- After a step whose outcome is known. -/
theorem bind_ok {x : WalkM σ α} {f : Nat → α → WalkM σ β} {a : α} (hx : x w = .ok a w₁)
    (hf : Concludes fails (fun fuel => f fuel a) w₁ post') :
    Concludes fails (fun fuel => x >>= f fuel) w post' := by
  obtain ⟨outcome, bound, hrun, hend⟩ := hf
  exact ⟨outcome, bound, fun fuel hfuel => (bind_of_ok hx).trans (hrun fuel hfuel), hend⟩

theorem bind_get {f : Nat → Walk σ → WalkM σ β} (hf : Concludes fails (fun fuel => f fuel w) w post') :
    Concludes fails (fun fuel => get >>= f fuel) w post' := hf

/-- In a frame of its own. -/
theorem withFrame {x : Nat → WalkM σ α} (hx : Concludes fails x (pushFrame w) post) :
    Concludes fails (fun fuel => Walk.withFrame (x fuel)) w fun a w' =>
      ∃ w₁, post a w₁ ∧ w' = dropFrame w.session.nextFrame w₁ := by
  obtain ⟨outcome, bound, hrun, hend⟩ := hx
  cases outcome with
  | ok a w₁ =>
    refine ⟨.ok a (dropFrame w.session.nextFrame w₁), bound, fun fuel hfuel => ?_, w₁, hend, rfl⟩
    show ensuring (x fuel) (dropFrame w.session.nextFrame) (pushFrame w) = _
    simp only [ensuring, hrun fuel hfuel]
  | error e w₁ =>
    refine ⟨.error e (dropFrame w.session.nextFrame w₁), bound, fun fuel hfuel => ?_, hend⟩
    show ensuring (x fuel) (dropFrame w.session.nextFrame) (pushFrame w) = _
    simp only [ensuring, hrun fuel hfuel]

/-- On its own. -/
theorem isolated {x : Nat → WalkM σ Bool} {post : Bool → Walk σ → Prop}
    (hx : Concludes fails x
      { w with visited := 0, session := { w.session with stopping := false } } post) :
    Concludes fails (fun fuel => Walk.isolated (x fuel)) w fun _ w' =>
      ∃ b w₁, post b w₁ ∧ w' = resume w w₁ := by
  obtain ⟨outcome, bound, hrun, hend⟩ := hx
  cases outcome with
  | ok stopped w' =>
    exact ⟨_, bound, fun fuel hfuel => isolated_run (hrun fuel hfuel), stopped, w', hend, rfl⟩
  | error e w' =>
    exact ⟨_, bound, fun fuel hfuel => isolated_run_error (hrun fuel hfuel), hend⟩

end Concludes

end Walk

/-! ## More steps -/

namespace Walk

/-- Where the first computation succeeds, the second one does the same. -/
def Lasts (x y : WalkM σ α) : Prop := ∀ ⦃w a w'⦄, x w = .ok a w' → y w = .ok a w'

namespace Lasts

theorem refl (x : WalkM σ α) : Lasts x x := fun _ _ _ h => h

theorem throw (e : Failure) (y : WalkM σ α) : Lasts (throw e) y := fun _ _ _ h => by cases h

theorem bind {x y : WalkM σ α} {f g : α → WalkM σ β} (hx : Lasts x y) (hf : ∀ a, Lasts (f a) (g a)) :
    Lasts (x >>= f) (y >>= g) := by
  intro w b w' h
  obtain ⟨a, w₁, hrun, hrest⟩ := bind_eq_ok h
  rw [bind_of_ok (hx hrun)]
  exact hf a hrest

theorem next {x : WalkM σ α} {f g : α → WalkM σ β} (hf : ∀ a, Lasts (f a) (g a)) :
    Lasts (x >>= f) (x >>= g) := (refl x).bind hf

theorem ite {c : Prop} [Decidable c] {x x' y y' : WalkM σ α} (hx : Lasts x x') (hy : Lasts y y') :
    Lasts (if c then x else y) (if c then x' else y') := by
  split
  · exact hx
  · exact hy

theorem isolated {x y : WalkM σ Bool} (hx : Lasts x y) :
    Lasts (Walk.isolated x) (Walk.isolated y) := by
  intro w done w' h
  unfold Walk.isolated at h ⊢
  cases hrun : x { w with visited := 0, session := { w.session with stopping := false } } with
  | ok b w₁ =>
    rw [hrun] at h
    rw [hx hrun]
    exact h
  | error e w₁ =>
    rw [hrun] at h
    cases h

theorem withFrame {x y : WalkM σ α} (hx : Lasts x y) :
    Lasts (Walk.withFrame x) (Walk.withFrame y) := by
  refine next fun s => next fun _ => ?_
  intro w a w' h
  unfold ensuring at h ⊢
  cases hrun : x w with
  | ok b w₁ =>
    rw [hrun] at h
    rw [hx hrun]
    exact h
  | error e w₁ =>
    rw [hrun] at h
    cases h

end Lasts

/-- One step more makes no difference to a walk that succeeds. -/
structure Lasting (v : Visitor σ) (fuel : Nat) : Prop where
  visit : ∀ depth p requeued,
    Lasts (Walk.visit v fuel depth p requeued) (Walk.visit v (fuel + 1) depth p requeued)
  drain : ∀ depth, Lasts (Walk.drain v fuel depth) (Walk.drain v (fuel + 1) depth)
  visitList : ∀ depth p owner f seen i, Lasts (Walk.visitList v fuel depth p owner f seen i)
    (Walk.visitList v (fuel + 1) depth p owner f seen i)
  visitFields : ∀ depth p node fields, Lasts (Walk.visitFields v fuel depth p node fields)
    (Walk.visitFields v (fuel + 1) depth p node fields)
  visitSingle : ∀ depth p, Lasts (Walk.visitSingle v fuel depth p)
    (Walk.visitSingle v (fuel + 1) depth p)

theorem lasting (v : Visitor σ) (fuel : Nat) : Lasting v fuel := by
  induction fuel with
  | zero =>
    exact ⟨fun _ _ _ => by rw [visit]; exact .throw _ _, fun _ => by rw [drain]; exact .throw _ _,
      fun _ _ _ _ _ _ => by rw [visitList]; exact .throw _ _,
      fun _ _ _ _ => by rw [visitFields]; exact .throw _ _,
      fun _ _ => by rw [visitSingle]; exact .throw _ _⟩
  | succ fuel ih =>
    refine ⟨fun depth p requeued => ?_, fun depth => ?_, fun depth p owner f seen i => ?_,
      fun depth p node fields => ?_, fun depth p => ?_⟩
    · rw [visit, visit]
      refine .next fun _ => .ite (.refl _) (.next fun d => ?_)
      split
      · refine .next fun _ => .next fun _ => .ite (.refl _) (.ite (.refl _) (.next fun _ => ?_))
        refine .next fun _ => .ite (.refl _) ((ih.visitFields _ _ _ _).bind fun _ => .refl _)
      · exact .refl _
    · rw [drain, drain]
      refine .next fun o => ?_
      cases o with
      | none => exact .refl _
      | some p =>
        refine .next fun _ => .next fun _ => .ite (ih.drain depth) (.next fun _ => ?_)
        exact (ih.visit _ _ _).bind fun _ => .ite (.refl _) (ih.drain depth)
    · rw [visitList, visitList]
      refine .next fun _ => .ite (.refl _) (.next fun _ => .ite (.refl _) (.next fun q => ?_))
      refine .next fun o => ?_
      cases o with
      | none => exact .refl _
      | some node =>
        refine .ite (ih.visitList _ _ _ _ _ _) ((ih.visit _ _ _).bind fun _ => .ite (.refl _) ?_)
        refine (ih.drain depth).bind fun _ => .ite (.refl _) (.next fun _ => .next fun _ => ?_)
        exact ih.visitList _ _ _ _ _ _
    · cases fields with
      | nil => rw [visitFields, visitFields]; exact .refl _
      | cons f fields =>
        rw [visitFields, visitFields]
        refine .next fun _ => .ite (.refl _) (.next fun _ => ?_)
        have hrest : ∀ stopped : Bool, Lasts (do
              if stopped then pure true else visitFields v fuel depth p node fields) (do
              if stopped then pure true else visitFields v (fuel + 1) depth p node fields) :=
          fun _ => .ite (.refl _) (ih.visitFields _ _ _ _)
        split
        · exact (ih.visitList _ _ _ _ _ _).withFrame.bind hrest
        · exact .next fun q => (ih.visitSingle depth q).bind hrest
        · exact .next fun q => (ih.visitSingle depth q).bind hrest
        · exact .next hrest
    · rw [visitSingle, visitSingle]
      refine .next fun o => ?_
      cases o with
      | none => exact .refl _
      | some _ =>
        exact .withFrame ((ih.visit _ _ _).bind fun _ => .ite (.refl _) (ih.drain depth))

/-- A visit that succeeds does the same with more steps. -/
theorem visit_lasts (v : Visitor σ) (depth : Nat) (p : PathId) (requeued : Bool) {fuel fuel' : Nat}
    (h : fuel ≤ fuel') : Lasts (visit v fuel depth p requeued) (visit v fuel' depth p requeued) := by
  induction h with
  | refl => exact .refl _
  | step _ ih => exact fun _ _ _ hrun => (lasting v _).visit depth p requeued (ih hrun)

/-- What is known of the end of a visit holds when it succeeds. -/
theorem Concludes.of_visit {fails : Failure → Prop} {v : Visitor σ} {depth fuel : Nat} {p : PathId}
    {requeued b : Bool} {w w' : Walk σ} {post : Bool → Walk σ → Prop}
    (h : Concludes fails (fun fuel => visit v fuel depth p requeued) w post)
    (hrun : visit v fuel depth p requeued w = .ok b w') : post b w' := by
  obtain ⟨outcome, bound, hx, hend⟩ := h
  obtain rfl : EStateM.Result.ok b w' = outcome := by
    rw [← hx (max bound fuel) (by omega)]
    exact (visit_lasts v depth p requeued (by omega) hrun).symm
  exact hend

end Walk

/-- How a walk with the visitor may fail: beyond a limit, or because a handler failed. -/
inductive Visitor.Fails (v : Visitor σ) (config : Config) : Failure → Prop
  | requeueLimit (type : NodeType) : Fails v config (.refused (.requeueLimit type config.maxRequeues))
  | depthLimit : Fails v config (.refused (.depthLimit config.maxDepth))
  | handler {phase : Phase} {selector : Selector} {h : Handler σ} {p : PathId} {w w' : Walk σ}
      {e : Failure} : (phase, selector, h) ∈ v.entries → h p w = .error e w' → Fails v config e

/-! ## The node that is walked -/

namespace Session

/-- The path holds a node of `A` whose children may be walked: none of the nodes of `A` is below it,
but itself. -/
structure Hosting (s : Session) (A K : Set NodeId) (p : PathId) (n : NodeId) : Prop where
  rooted : s.Rooted K
  sub : A ⊆ K
  mem : n ∈ A
  reachable : s.tree.Reachable n
  holds : s.Holds p n
  clear : ∀ a ∈ A, Relation.ReflTransGen s.tree.IsChild n a → a = n
  numbered : s.Numbered

/-- What happens away from the nodes of `A`, and keeps a property of the nodes, the tree and the
scopes. -/
structure Travels (J : Set NodeId → Tree → ScopeTable → Prop) (s : Session) (A K K' : Set NodeId)
    (s' : Session) : Prop extends Ventures s A K K' s' where
  keeps : J K s.tree s.scopes → J K' s'.tree s'.scopes

/-- The same, with all frames closed that were opened. -/
structure Excursion (J : Set NodeId → Tree → ScopeTable → Prop) (s : Session)
    (A K K' : Set NodeId) (s' : Session) : Prop extends Travels J s A K K' s' where
  frames : s'.frames = s.frames

/-- What a walk needs of a session besides its paths. -/
structure Bears (s : Session) (config : Config) (J : Set NodeId → Tree → ScopeTable → Prop)
    (K : Set NodeId) : Prop where
  config : s.config = config
  kept : J K s.tree s.scopes

section Excursion

variable {s s' s'' : Session} {J : Set NodeId → Tree → ScopeTable → Prop}
  {A K K' K'' : Set NodeId} {p : PathId} {pos : Position} {n : NodeId}

namespace Travels

theorem refl (h : s.Rooted K) (A : Set NodeId) : s.Travels J A K K s := ⟨.refl h A, id⟩

theorem trans (h : s.Travels J A K K' s') (h' : s'.Travels J A K' K'' s'') :
    s.Travels J A K K'' s'' :=
  ⟨h.toVentures.trans h'.toVentures, fun hJ => h'.keeps (h.keeps hJ)⟩

theorem mono {B : Set NodeId} (h : s.Travels J A K K' s') (hB : B ⊆ A) : s.Travels J B K K' s' :=
  ⟨h.toVentures.mono hB, h.keeps⟩

/-- Only the frames and the wish to stop change. -/
theorem of_frames (h : s.Rooted K) (frames : List Frame) {nextFrame : Nat}
    (hlater : s.nextFrame ≤ nextFrame) (stopping : Bool) :
    s.Travels J A K K { s with frames, nextFrame, stopping } :=
  ⟨.of_frames h frames hlater stopping, id⟩

theorem bears {config : Config} (h : s.Travels J A K K' s') (hb : s.Bears config J K) :
    s'.Bears config J K' := ⟨h.config.trans hb.config, h.keeps hb.kept⟩

end Travels

/-- What leaves the tree and the scopes as they are. -/
theorem Ventures.travels (h : s.Ventures A K K s') (htree : s'.tree = s.tree)
    (hscopes : s'.scopes = s.scopes) : s.Travels J A K K s' :=
  ⟨h, fun hJ => by rwa [htree, hscopes]⟩

theorem Excursion.trans (h : s.Excursion J A K K' s') (h' : s'.Excursion J A K' K'' s'') :
    s.Excursion J A K K'' s'' :=
  ⟨h.toTravels.trans h'.toTravels, h'.frames.trans h.frames⟩

/-- The frames have numbers that were given out, as long as they are the ones of before. -/
theorem Numbered.ventures (h : s.Numbered) (hv : s.Ventures A K K' s')
    (hframes : s'.frames.map Frame.id = s.frames.map Frame.id) : s'.Numbered := by
  rw [numbered_iff] at h ⊢
  rw [hframes]
  exact fun i hi => (h i hi).trans_le hv.later

namespace Hosting

theorem ventures (h : s.Hosting A K p n) (hv : s.Ventures A K K' s') (hnum : s'.Numbered) :
    s'.Hosting A K' p n where
  rooted := hv.rooted
  sub := h.sub.trans hv.grew
  mem := h.mem
  reachable := hv.reach n h.mem h.reachable
  holds := by
    obtain ⟨d, hd, hn⟩ := h.holds
    obtain ⟨d', hd', hrecalls⟩ := hv.guard p n d h.mem hd hn
    exact ⟨d', hd', by rw [hrecalls, hn]⟩
  clear a ha hway :=
    h.clear a ha (hv.below (hv.grew (h.sub h.mem)) (h.sub ha) hway).2
  numbered := hnum

theorem excursion (h : s.Hosting A K p n) (he : s.Excursion J A K K' s') : s'.Hosting A K' p n :=
  h.ventures he.toVentures (h.numbered.ventures he.toVentures (by rw [he.frames]))

/-- The kind of the node is known. -/
theorem kind (h : s.Hosting A K p n) : ∃ k, s.tree.kind? n = some k :=
  h.rooted.sound.forest.kind n (h.sub h.mem)

end Hosting

/-- A path with nothing queued in its frame. -/
theorem Poised.framed (h : s.Poised A K p pos) (hnum : s.Numbered) {id : Nat} {rest : List Frame}
    (hframes : s.frames = { id } :: rest) : ∃ r, s.Framed A K p pos id r rest := by
  obtain ⟨d, hf⟩ := h.files
  exact ⟨d.requeues, h, fun e he => by rw [Option.some.inj (he.symm.trans hf.data)],
    ⟨[], hframes, .inl rfl⟩, hnum⟩

/-- The node of a visited path. -/
theorem Poised.hosting (h : s.Poised A K p pos) (hn : s.tree.occupant? pos = some n)
    (hnum : s.Numbered) : s.Hosting (insert n A) K p n where
  rooted := h.rooted
  sub := Set.insert_subset (h.mem hn) h.sub
  mem := Set.mem_insert n A
  reachable := h.reachable hn
  holds := h.holds hn
  clear a ha hway := ha.resolve_right fun ha => h.clear n hn a ha hway
  numbered := hnum

/-- Going to a position is away from all nodes. -/
theorem Reaches.ventures (h : s.Rooted K) {parent : Option PathId} {q : PathId}
    (hr : s.Reaches K pos parent q s') (A : Set NodeId) : s.Ventures A K K s' := by
  have hrest := hr.grew.rest
  refine .of_alike (by rw [hr.tree]; exact .refl _) (h.surveys (hr.toWent.surveys h.ordered))
    (fun q a d _ hd hda => ?_) (by rw [hrest]) (by rw [hrest])
  obtain ⟨d', hd', hk⟩ := hr.grew.kept q d hd
  obtain ⟨hd'', -⟩ := hk.2 fun hc =>
    h.sound.not_mem_bucket_of_detached d.container hd hc (h.sound.held q d hd (by simp [hda]))
  exact ⟨d', hd', by unfold PathData.Recalls; rw [hd'']⟩

theorem Reaches.excursion (h : s.Rooted K) {parent : Option PathId} {q : PathId}
    (hr : s.Reaches K pos parent q s') (A : Set NodeId) : s.Excursion J A K K s' :=
  ⟨(hr.ventures h A).travels hr.tree hr.toWent.scopes, by rw [hr.grew.rest]⟩

/-- The path that a position of the node leads to stands there. -/
theorem Hosting.poised (h : s.Hosting A K p n) (hpos : pos.parent? = some n) {c : NodeId}
    (hocc : s.tree.occupant? pos = some c) {q : PathId} (hr : s.Reaches K pos (some p) q s') :
    s'.Poised A K q pos := by
  have hv := hr.ventures h.rooted A
  obtain ⟨d, hf, -⟩ := hr.files
  refine ⟨hv.rooted, h.sub, fun m hm => ?_, ⟨d, hf⟩, ⟨c, by rwa [hr.tree]⟩, fun c hc a ha hway => ?_⟩
  · obtain rfl := Option.some.inj (hpos.symm.trans hm)
    exact ⟨h.mem, hv.reach n h.mem h.reachable⟩
  · -- A way from the child to a node of `A` would lead back to the node.
    rw [hr.tree] at hc hway
    have hchild : s.tree.IsChild n c := ⟨pos, hpos, hc⟩
    obtain rfl := h.clear a ha (.head hchild hway)
    exact h.rooted.sound.forest.acyclic a (h.sub h.mem) (.head' hchild hway)

end Excursion

end Session

namespace Walk

section Steers

variable {v : Visitor σ} {config : Config} {J : Set NodeId → Tree → ScopeTable → Prop}
  {w w' : Walk σ} {A K : Set NodeId} {p : PathId}
  {pos : Position} {n : NodeId} {id r : Nat} {rest : List Frame}

/-! ## Handlers -/

/-- Handlers that steer are called until the visit is broken off. -/
theorem callAll_concludes (hv : v.SteersWithin J) {phase : Phase} {type : NodeType}
    (hs : List (Handler σ))
    (hmem : ∀ h ∈ hs, ∃ selector, (phase, selector, h) ∈ v.entries ∧ selector.covers type = true)
    (hJ : J K w.session.tree w.session.scopes)
    (hvisiting : w.session.Visiting A K p pos id r rest) (hn : n ∈ K)
    (htype : w.session.tree.type? n = some type) :
    Concludes (v.Fails config) (fun _ => callAll p n hs) w fun b w' =>
      ∃ K', w.session.Travels J A K K' w'.session ∧
        w'.session.Visiting A K' p pos id r rest ∧ (b = false → w'.session.Holds p n) := by
  induction hs generalizing w K with
  | nil =>
    obtain ⟨d, hf⟩ := hvisiting.files
    refine .of_ok (fun _ => isInterrupted_of_data hf.data n)
      ⟨K, .refl hvisiting.rooted A, hvisiting, fun hb => ⟨d, hf.data, ?_⟩⟩
    simp only [Bool.or_eq_false_iff, bne_eq_false_iff_eq] at hb
    exact hb.1.1.1.2
  | cons h hs ih =>
    obtain ⟨d, hf⟩ := hvisiting.files
    obtain ⟨m, hocc⟩ := hvisiting.occupied
    obtain ⟨selector, he, hcovers⟩ := hmem h (by simp)
    simp only [callAll]
    refine .bind_ok (isInterrupted_of_data hf.data n) ?_
    by_cases hb : (d.removed || d.node != some n || d.skip || d.stop || w.session.stopping) = true
    · simp only [if_pos hb]
      exact .of_ok (fun _ => rfl) ⟨K, .refl hvisiting.rooted A, hvisiting, fun h => by cases h⟩
    · simp only [if_neg hb]
      cases hrun : h p w with
      | error e w₁ => exact .of_error (fun _ => bind_of_error hrun) (.handler he hrun)
      | ok _ w₁ =>
        obtain rfl : m = n := by
          simp only [Bool.or_eq_true, bne_iff_ne, ne_eq, not_or, not_not] at hb
          exact Option.some.inj ((hf.node.trans hocc).symm.trans hb.1.1.1.2)
        obtain ⟨K₁, hsteered, hJ₁⟩ := hv phase selector h he p m type K w w₁ hvisiting.rooted hJ
          (hvisiting.holds hocc) (hvisiting.reachable hocc) htype hcovers hrun
        obtain ⟨hv₁, hvisiting₁⟩ := hvisiting.steered hsteered
        have hv₁ : w.session.Travels J A K K₁ w₁.session := ⟨hv₁, fun _ => hJ₁⟩
        refine .bind_ok hrun ((ih (fun h' hh' => hmem h' (by simp [hh'])) hJ₁ hvisiting₁
          (hv₁.grew hn) ((hv₁.type m hn).trans htype)).mono ?_)
        rintro b w' ⟨K', hv', h'⟩
        exact ⟨K', hv₁.trans hv', h'⟩

/-! ## Visits -/

/-- Every visit at this depth ends, with the path at its place. -/
def VisitsConclude (v : Visitor σ) (config : Config) (J : Set NodeId → Tree → ScopeTable → Prop)
    (depth : Nat) : Prop :=
  ∀ (w : Walk σ) A K p pos id r rest requeued, w.session.Bears config J K →
    w.session.Framed A K p pos id r rest →
    Concludes (v.Fails config) (fun fuel => visit v fuel depth p requeued) w fun _ w' =>
      ∃ K' r', w.session.Travels J A K K' w'.session ∧ w'.session.Framed A K' p pos id r' rest ∧
        ((r' = if requeued then r else 0) ∨ (w' = w ∧ r' = r))

/-- Every walk of the children of a node ends, with the path of the node at its place. -/
def FieldsConclude (v : Visitor σ) (config : Config) (J : Set NodeId → Tree → ScopeTable → Prop)
    (depth : Nat) : Prop :=
  ∀ (w : Walk σ) A K p n fields, w.session.Bears config J K → w.session.Hosting A K p n →
    Concludes (v.Fails config) (fun fuel => visitFields v fuel depth p n fields) w fun _ w' =>
      ∃ K', w.session.Excursion J A K K' w'.session

/-- How a visit ends, when the path had its place at some point of it. -/
theorem mustStop_concludes {post : Bool → Walk σ → Prop} {fails : Failure → Prop}
    (hf : ∃ d, w.session.Files p pos d) (h : ∀ b, post b w) :
    Concludes fails (fun _ => mustStop p) w post := by
  obtain ⟨d, hf⟩ := hf
  exact .of_ok (fun _ => mustStop_of_data hf.data) (h _)

/-- What comes between the two calls of handlers in a visit, and the second call. -/
theorem walkBelow_concludes (hv : v.SteersWithin J) {depth : Nat}
    (hinside : FieldsConclude v config J depth)
    (hbears : w.session.Bears config J K) (hvisiting : w.session.Visiting A K p pos id r rest)
    (hp : w.session.Holds p n) (fields : List Field) :
    Concludes (v.Fails config) (fun fuel => do
        if ← visitFields v fuel depth p n fields then pure true
        else
          let d ← p.data
          if d.removed || d.node != some n then mustStop p
          else
            let _ ← callAll p n (v.handlersFor .exit (← ask fun t => t.type? n))
            mustStop p) w fun _ w' =>
      ∃ K', w.session.Travels J A K K' w'.session ∧ w'.session.Visiting A K' p pos id r rest := by
  obtain ⟨m, hocc⟩ := hvisiting.occupied
  obtain rfl := hp.unique_node (hvisiting.holds hocc)
  have hhosting := hvisiting.hosting hocc hvisiting.numbered
  refine (hinside w _ K p n fields hbears hhosting).bind ?_
  rintro b w₁ ⟨K₁, he⟩
  have hv₁ := he.toTravels.mono (Set.subset_insert n A)
  have hvisiting₁ : w₁.session.Visiting A K₁ p pos id r rest := by
    refine hvisiting.resume hv₁.toVentures (fun d hf => ?_) (by rw [he.frames]; exact hvisiting.line)
    obtain ⟨d', hd', hrecalls⟩ := he.guard p n d (Set.mem_insert n A) hf.data (hf.node.trans hocc)
    exact ⟨d', n, hd', by rw [hrecalls, hf.node, hocc], by rw [hrecalls], by rw [hrecalls],
      by rw [hrecalls], by rw [hrecalls]⟩
  have hend : ∀ _ : Bool, ∃ K', w.session.Travels J A K K' w₁.session ∧
      w₁.session.Visiting A K' p pos id r rest := fun _ => ⟨K₁, hv₁, hvisiting₁⟩
  by_cases hb : b = true
  · simp only [if_pos hb]
    exact .of_ok (fun _ => rfl) (hend true)
  simp only [if_neg hb]
  obtain ⟨d, hf⟩ := hvisiting₁.files
  refine .bind_ok (lift_run_still (p.data_run hf.data)) ?_
  by_cases hgone : (d.removed || d.node != some n) = true
  · simp only [if_pos hgone]
    exact mustStop_concludes hvisiting₁.files hend
  simp only [if_neg hgone]
  obtain ⟨k, hk⟩ := (hhosting.excursion he).kind
  refine .bind_ok (lift_run_still (ask_run (Tree.type?_of_kind hk))) ?_
  refine (callAll_concludes hv _ (fun h hh => Visitor.covers_of_mem_handlersFor hh)
    (hv₁.bears hbears).kept hvisiting₁ (he.grew (hvisiting.mem hocc))
    (Tree.type?_of_kind hk)).bind ?_
  rintro b w₂ ⟨K₂, hv₂, hvisiting₂, -⟩
  exact mustStop_concludes hvisiting₂.files fun _ => ⟨K₂, hv₁.trans hv₂, hvisiting₂⟩

/-- A visit ends when the walks of children one level deeper do. -/
theorem visits_conclude (hv : v.SteersWithin J) {depth : Nat}
    (hinside : depth < config.maxDepth → FieldsConclude v config J (depth + 1)) :
    VisitsConclude v config J depth := by
  intro w A K p pos id r rest requeued hbears hframed
  obtain ⟨d, hf⟩ := hframed.files
  obtain ⟨n, hocc⟩ := hframed.occupied
  obtain ⟨k, hk⟩ := hframed.rooted.sound.forest.kind n (hframed.mem hocc)
  have hsame : ∃ K' r', w.session.Travels J A K K' w.session ∧
      w.session.Framed A K' p pos id r' rest ∧
        ((r' = if requeued then r else 0) ∨ (w = w ∧ r' = r)) :=
    ⟨K, r, .refl hframed.rooted A, hframed, .inr ⟨rfl, rfl⟩⟩
  refine .succ ?_
  simp only [visit]
  refine .bind_ok (show isStopping w = .ok w.session.stopping w from rfl) ?_
  by_cases hstop : w.session.stopping = true
  · simp only [if_pos hstop]
    exact .of_ok (fun _ => rfl) hsame
  simp only [if_neg hstop]
  refine .bind_ok (lift_run_still (p.data_run hf.data)) ?_
  rw [hf.node, hocc, hf.live]
  dsimp only
  refine .bind_ok (lift_run_still (ask_run (Tree.type?_of_kind hk))) (.bind_get ?_)
  by_cases hhidden : k.type ∈ v.blacklist
  · simp only [if_pos hhidden]
    exact .of_ok (fun _ => rfl) hsame
  simp only [if_neg hhidden]
  by_cases hdeep : w.session.config.maxDepth ≤ depth
  · simp only [if_pos hdeep]
    exact .of_error (fun _ => rfl) (hbears.config ▸ .depthLimit)
  simp only [if_neg hdeep]
  refine .bind_ok (beginVisit_of_data hf.data requeued) ?_
  -- From here on the path is visited, and was requeued as often as a visit of this sort has it.
  have hhead : w.session.frames.head?.map Frame.id = some id := by
    obtain ⟨queue, hline, -⟩ := hframed.line
    rw [hline]
    rfl
  obtain ⟨hv₁, hvisiting⟩ := hframed.visiting (c := if requeued then r else 0)
    (f := fun d => { d with
      frame := w.session.frames.head?.map Frame.id
      skip := false
      stop := false
      requeues := if requeued then d.requeues else 0 })
    (fun _ => ⟨rfl, rfl⟩) (fun d hd => by rw [← hd]) (fun _ _ => hhead) w.session.stopping
  have hv₁ := hv₁.travels (J := J) rfl rfl
  have hend : ∀ (w' : Walk σ) K', w.session.Travels J A K K' w'.session →
      w'.session.Visiting A K' p pos id (if requeued then r else 0) rest →
      ∃ K' r', w.session.Travels J A K K' w'.session ∧ w'.session.Framed A K' p pos id r' rest ∧
        ((r' = if requeued then r else 0) ∨ (w' = w ∧ r' = r)) :=
    fun w' K' hv' hvisiting' => ⟨K', _, hv', hvisiting'.toFramed, .inl rfl⟩
  refine (callAll_concludes (w := { w with session := _, visited := w.visited + 1 }) hv _
    (fun h hh => Visitor.covers_of_mem_handlersFor hh) (hv₁.bears hbears).kept hvisiting
    (hframed.mem hocc) ((hv₁.type n (hframed.mem hocc)).trans (Tree.type?_of_kind hk))).bind ?_
  rintro b w₂ ⟨K₂, hv₂, hvisiting₂, hp⟩
  have hv₂ := hv₁.trans hv₂
  by_cases hb : b = true
  · simp only [if_pos hb]
    exact mustStop_concludes hvisiting₂.files fun _ => hend w₂ K₂ hv₂ hvisiting₂
  simp only [if_neg hb]
  refine (walkBelow_concludes hv (hinside (by rw [← hbears.config]; omega)) (hv₂.bears hbears)
    hvisiting₂ (hp (by simpa using hb)) _).mono ?_
  rintro _ w₃ ⟨K₃, hv₃, hvisiting₃⟩
  exact hend w₃ K₃ (hv₂.trans hv₃) hvisiting₃

/-! ## Requeued visits -/

/-- A requeued visit is counted, up to the limit. -/
theorem countRequeue_concludes (hbears : w.session.Bears config J K)
    (hframed : w.session.Framed A K p pos id r rest) :
    Concludes (v.Fails config) (fun _ => countRequeue p) w fun _ w' =>
      w.session.Travels J A K K w'.session ∧ w'.session.Framed A K p pos id (r + 1) rest ∧
        r + 1 ≤ config.maxRequeues := by
  obtain ⟨rfl, -⟩ := hbears
  obtain ⟨d, hf⟩ := hframed.files
  obtain ⟨hv₁, hframed₁⟩ := hframed.modify (c := r + 1)
    (f := fun d => { d with requeues := d.requeues + 1 }) (fun _ => ⟨rfl, rfl⟩)
    (fun d hd => by rw [← hd]) w.session.stopping
  obtain ⟨d₁, hf₁⟩ := hframed₁.files
  obtain ⟨n, hocc⟩ := hframed₁.occupied
  obtain ⟨k, hk⟩ := hframed₁.rooted.sound.forest.kind n (hframed₁.mem hocc)
  simp only [countRequeue]
  refine .bind_get (.bind_ok (lift_run (p.modifyData_run hf.data _)) ?_)
  refine .bind_ok (lift_run_still (p.data_run hf₁.data)) ?_
  rw [hframed₁.requeues d₁ hf₁.data]
  by_cases hlimit : w.session.config.maxRequeues < r + 1
  · simp only [if_pos hlimit]
    refine .bind_ok (lift_run_still (PathId.type?_run_of_holds (hframed₁.holds hocc) hk)) ?_
    exact .of_error (fun _ => rfl) (.requeueLimit _)
  · simp only [if_neg hlimit]
    exact .of_ok (fun _ => rfl) ⟨hv₁.travels rfl rfl, hframed₁, by omega⟩

/-- What the innermost frame has in its queue. -/
theorem dequeue_run_of_framed (hframed : w.session.Framed A K p pos id r rest) :
    (dequeue w = .ok none w ∧ w.session.frames = { id } :: rest) ∨
      ∃ w₁, dequeue w = .ok (some p) w₁ ∧ w.session.Travels J A K K w₁.session ∧
        w₁.session.Framed A K p pos id r rest := by
  obtain ⟨queue, hline, rfl | rfl⟩ := hframed.line
  · refine .inl ⟨?_, hline⟩
    unfold dequeue
    rw [run_get_bind]
    dsimp only
    rw [hline]
    rfl
  · have hv : w.session.Travels J A K K { w.session with frames := { id } :: rest } :=
      .of_frames hframed.rooted _ le_rfl w.session.stopping
    obtain ⟨n, hocc⟩ := hframed.occupied
    refine .inr ⟨{ w with session := { w.session with frames := { id } :: rest } }, ?_, hv,
      hframed.resume hv.toVentures (fun d hf => ⟨d, n, hf.data, hf.node.trans hocc, rfl, rfl,
        hframed.requeues d hf.data⟩) ⟨[], rfl, .inl rfl⟩⟩
    unfold dequeue
    rw [run_get_bind]
    dsimp only
    rw [hline]
    rfl

/-- A path that has its turn is in step. -/
theorem resync_run_of_framed (hframed : w.session.Framed A K p pos id r rest) :
    (liftM p.resync : WalkM σ Unit) w = .ok () w := by
  obtain ⟨n, hocc⟩ := hframed.occupied
  exact lift_run_still (PathId.resync_run hframed.rooted.sound hframed.within hframed.linked hocc)

/-- The requeued visits of a path end, as there are no more of them than are left for it. -/
theorem drain_concludes {depth : Nat} (hvisits : VisitsConclude v config J depth)
    (hbears : w.session.Bears config J K) (hframed : w.session.Framed A K p pos id r rest) :
    Concludes (v.Fails config) (fun fuel => drain v fuel depth) w fun b w' =>
      ∃ K' r', w.session.Travels J A K K' w'.session ∧ w'.session.Framed A K' p pos id r' rest ∧
        (b = false → w'.session.frames = { id } :: rest) := by
  induction hleft : config.maxRequeues - r using Nat.strong_induction_on generalizing w K r with
  | _ left ih =>
    refine .succ ?_
    simp only [drain]
    rcases dequeue_run_of_framed hframed with ⟨hrun, hempty⟩ | ⟨w₁, hrun, hv₁, hframed₁⟩
    · exact .bind_ok hrun
        (.of_ok (fun _ => rfl) ⟨K, r, .refl hframed.rooted A, hframed, fun _ => hempty⟩)
    refine .bind_ok hrun ?_
    obtain ⟨d, hf⟩ := hframed₁.files
    refine .bind_ok (resync_run_of_framed hframed₁) ?_
    refine .bind_ok (lift_run_still (p.isRemoved_run hf.data)) ?_
    simp only [hf.live, Bool.false_eq_true, if_false]
    refine (countRequeue_concludes (hv₁.bears hbears) hframed₁).bind ?_
    rintro - w₂ ⟨hv₂, hframed₂, hlimit⟩
    have hv₂ := hv₁.trans hv₂
    refine (hvisits w₂ A K p pos id (r + 1) rest true (hv₂.bears hbears) hframed₂).bind ?_
    rintro b w₃ ⟨K₃, r₃, hv₃, hframed₃, hcount⟩
    obtain rfl : r₃ = r + 1 := hcount.elim (fun h => h) And.right
    have hv₃ := hv₂.trans hv₃
    by_cases hb : b = true
    · simp only [if_pos hb]
      exact .of_ok (fun _ => rfl) ⟨K₃, r + 1, hv₃, hframed₃, fun h => by cases h⟩
    · simp only [if_neg hb]
      refine (ih _ (by omega) (hv₃.bears hbears) hframed₃ rfl).mono ?_
      rintro b w₄ ⟨K₄, r₄, hv₄, h₄⟩
      exact ⟨K₄, r₄, hv₃.trans hv₄, h₄⟩

/-- What is done with a path that was taken off the queue. -/
def revisit (v : Visitor σ) (fuel depth : Nat) (p : PathId) : WalkM σ Bool := do
  p.resync
  countRequeue p
  visit v fuel depth p true

/-- The path was taken off the queue of the innermost frame so many times, and each time there was a
requeued visit. -/
inductive Revisits (v : Visitor σ) (depth : Nat) (p : PathId) : Nat → Walk σ → Walk σ → Prop
  | none (w : Walk σ) : Revisits v depth p 0 w w
  | again {times fuel : Nat} {b : Bool} {w w₁ w₂ w₃ : Walk σ} (h : Revisits v depth p times w w₁)
      (htaken : dequeue w₁ = .ok (some p) w₂) (hvisited : revisit v fuel depth p w₂ = .ok b w₃) :
      Revisits v depth p (times + 1) w w₃

/-- The requeued visits of a path are counted. -/
theorem Revisits.framed {depth times : Nat} (h : Revisits v depth p times w w')
    (hvisits : VisitsConclude v config J depth) (hbears : w.session.Bears config J K)
    (hframed : w.session.Framed A K p pos id r rest) :
    (0 < times → r + times ≤ config.maxRequeues) ∧ ∃ K', w.session.Travels J A K K' w'.session ∧
      w'.session.Framed A K' p pos id (r + times) rest := by
  induction h with
  | none w => exact ⟨fun h => absurd h (lt_irrefl 0), K, .refl hframed.rooted A, hframed⟩
  | @again times fuel b w w₁ w₂ w₃ _ htaken hvisited ih =>
    obtain ⟨-, K₁, hv₁, hframed₁⟩ := ih hbears hframed
    rcases dequeue_run_of_framed hframed₁ with ⟨hrun, -⟩ | ⟨w, hrun, hv₂, hframed₂⟩
    · rw [hrun] at htaken
      cases htaken
    obtain rfl : w = w₂ := (EStateM.Result.ok.inj (hrun.symm.trans htaken)).2
    have hv₂ := hv₁.trans hv₂
    unfold revisit at hvisited
    rw [bind_of_ok (resync_run_of_framed hframed₂)] at hvisited
    obtain ⟨_, w', hcounted, hvisited⟩ := bind_eq_ok hvisited
    obtain ⟨hv₃, hframed₃, hlimit⟩ := (countRequeue_concludes (v := v) (hv₂.bears hbears)
      hframed₂).of_ok_run hcounted
    have hv₃ := hv₂.trans hv₃
    obtain ⟨K₄, r₄, hv₄, hframed₄, hcount⟩ := (hvisits w' A K₁ p pos id _ rest true
      (hv₃.bears hbears) hframed₃).of_visit hvisited
    obtain rfl : r₄ = r + times + 1 := hcount.elim (fun h => h) And.right
    exact ⟨fun _ => hlimit, K₄, hv₃.trans hv₄, hframed₄⟩

/-! ## Children -/

/-- What was done in a frame of its own is an excursion. -/
theorem excursion_of_framed {K' : Set NodeId} (hrooted : w.session.Rooted K)
    (hnum : w.session.Numbered) (hv : (pushFrame w).session.Travels J A K K' w'.session)
    (hline : ∃ queue, w'.session.frames = { id := w.session.nextFrame, queue } :: w.session.frames) :
    w.session.Excursion J A K K' (dropFrame w.session.nextFrame w').session := by
  have hpush : w.session.Travels J A K K (pushFrame w).session :=
    .of_frames hrooted _ (Nat.le_succ _) w.session.stopping
  have hdrop : w'.session.Travels J A K' K' (dropFrame w.session.nextFrame w').session :=
    .of_frames hv.rooted _ le_rfl w'.session.stopping
  refine ⟨(hpush.trans hv).trans hdrop, ?_⟩
  obtain ⟨queue, hframes⟩ := hline
  show w'.session.frames.filter _ = _
  rw [hframes, List.filter_cons_of_neg (by simp)]
  exact List.filter_eq_self.mpr fun f hf => decide_eq_true (hnum f hf).ne

/-- A walk of a single-node field ends when the visits at its depth do. -/
theorem visitSingle_concludes {depth : Nat} (hvisits : VisitsConclude v config J depth)
    (hbears : w.session.Bears config J K) (hpoised : w.session.Poised A K p pos)
    (hnum : w.session.Numbered) :
    Concludes (v.Fails config) (fun fuel => visitSingle v fuel depth p) w fun _ w' =>
      ∃ K', w.session.Excursion J A K K' w'.session := by
  obtain ⟨n, hocc⟩ := hpoised.occupied
  refine .succ ?_
  simp only [visitSingle]
  refine .bind_ok (lift_run_still (PathId.node?_run_of_holds (hpoised.holds hocc))) ?_
  have hpush : w.session.Travels J A K K (pushFrame w).session :=
    .of_frames hpoised.rooted _ (Nat.le_succ _) w.session.stopping
  obtain ⟨d, hf⟩ := hpoised.files
  have hpoised₁ : (pushFrame w).session.Poised A K p pos :=
    hpoised.ventures hpush.toVentures
      ⟨d, hf.data, hf.bucket, hf.container, hf.key, hf.live, hf.node⟩ ⟨n, hocc⟩
  obtain ⟨r, hframed⟩ := hpoised₁.framed (numbered_pushFrame hnum) rfl
  have hbody : Concludes (v.Fails config) (fun fuel => do
      if ← visit v fuel depth p false then pure true else drain v fuel depth) (pushFrame w)
      fun _ w' => ∃ K', (pushFrame w).session.Travels J A K K' w'.session ∧
        ∃ queue, w'.session.frames = { id := w.session.nextFrame, queue } :: w.session.frames := by
    refine (hvisits (pushFrame w) A K p pos _ r _ false (hpush.bears hbears) hframed).bind ?_
    rintro b w₁ ⟨K₁, r₁, hv₁, hframed₁, -⟩
    by_cases hb : b = true
    · simp only [if_pos hb]
      obtain ⟨queue, hline, -⟩ := hframed₁.line
      exact .of_ok (fun _ => rfl) ⟨K₁, hv₁, queue, hline⟩
    · simp only [if_neg hb]
      refine (drain_concludes hvisits (hv₁.bears (hpush.bears hbears)) hframed₁).mono ?_
      rintro _ w₂ ⟨K₂, r₂, hv₂, hframed₂, -⟩
      obtain ⟨queue, hline, -⟩ := hframed₂.line
      exact ⟨K₂, hv₁.trans hv₂, queue, hline⟩
  refine hbody.withFrame.mono ?_
  rintro _ _ ⟨w₁, ⟨K₁, hv₁, hline⟩, rfl⟩
  exact ⟨K₁, excursion_of_framed hpoised.rooted hnum hv₁ hline⟩

/-- A walk of a list ends when the visits at its depth do, as the list keeps its length. -/
theorem visitList_concludes {depth : Nat} (hvisits : VisitsConclude v config J depth) {f : Field}
    {length : Nat} (hbears : w.session.Bears config J K) (hhosting : w.session.Hosting A K p n)
    (hlist : (w.session.tree.list? n f).map List.length = some length)
    (hframes : w.session.frames = { id } :: rest) (seen : List NodeId) (i : Nat) :
    Concludes (v.Fails config) (fun fuel => visitList v fuel depth p n f seen i) w fun _ w' =>
      ∃ K', w.session.Travels J A K K' w'.session ∧
        ∃ queue, w'.session.frames = { id, queue } :: rest := by
  induction hleft : length - i using Nat.strong_induction_on generalizing w K seen i with
  | _ left ih =>
    obtain ⟨ids, hids, rfl⟩ := Option.map_eq_some_iff.mp hlist
    have hfield : w.session.tree.field? n f = some (.many ids) := Tree.list?_eq_some_iff.mp hids
    have hrefl : ∃ K', w.session.Travels J A K K' w.session ∧
        ∃ queue, w.session.frames = { id, queue } :: rest :=
      ⟨K, .refl hhosting.rooted A, [], hframes⟩
    refine .succ ?_
    simp only [visitList]
    refine .bind_ok (lift_run_still (PathId.node?_run_of_holds hhosting.holds)) ?_
    simp only [ne_eq, not_true_eq_false, if_false]
    refine .bind_ok (lift_run_still (PathId.listLength_run hfield)) ?_
    by_cases hend : ids.length ≤ i
    · simp only [if_pos hend]
      exact .of_ok (fun _ => rfl) hrefl
    simp only [if_neg hend]
    obtain ⟨m, hm⟩ : ∃ m, ids[i]? = some m := ⟨_, List.getElem?_eq_getElem (by omega)⟩
    have hocc : w.session.tree.occupant? (.item n f i) = some m := by
      simp [Tree.occupant?, hids, hm]
    obtain ⟨q, s₁, hrun, hr⟩ :=
      PathId.element_returns hhosting.rooted.sound hhosting.holds hfield i
    have he₁ := hr.excursion (J := J) hhosting.rooted A
    have hpoised := hhosting.poised rfl hocc hr
    refine .bind_ok (lift_run hrun) ?_
    have hhosting₁ := hhosting.excursion he₁
    have hocc₁ : s₁.tree.occupant? (.item n f i) = some m := by rw [hr.tree, hocc]
    have hlist₁ : (s₁.tree.list? n f).map List.length = some ids.length := by rw [hr.tree, hids]; rfl
    refine .bind_ok (lift_run_still (PathId.node?_run_of_holds (hpoised.holds hocc₁))) ?_
    dsimp only
    -- The walk of the rest of the list, wherever it starts from.
    have hnext : ∀ (w' : Walk σ) K' seen, w.session.Travels J A K K' w'.session →
        w'.session.frames = { id } :: rest →
        Concludes (v.Fails config) (fun fuel => visitList v fuel depth p n f seen (i + 1)) w'
          fun _ w'' => ∃ K'', w.session.Travels J A K K'' w''.session ∧
            ∃ queue, w''.session.frames = { id, queue } :: rest := by
      intro w' K' seen hv' hframes'
      have hhosting' := hhosting.ventures hv'.toVentures
        (hhosting.numbered.ventures hv'.toVentures (by rw [hframes', hframes]))
      refine (ih _ (by omega) (hv'.bears hbears) hhosting'
        ((hv'.lists n (hhosting.sub hhosting.mem) f).trans hlist) hframes' seen (i + 1) rfl).mono ?_
      rintro _ w'' ⟨K'', hv'', hline⟩
      exact ⟨K'', hv'.trans hv'', hline⟩
    by_cases hseen : m ∈ seen
    · simp only [if_pos hseen]
      exact hnext _ K seen he₁.toTravels (he₁.frames.trans hframes)
    simp only [if_neg hseen]
    obtain ⟨r, hframed⟩ := hpoised.framed hhosting₁.numbered (he₁.frames.trans hframes)
    refine (hvisits { w with session := s₁ } A K q _ id r rest false (he₁.bears hbears)
      hframed).bind ?_
    rintro b w₂ ⟨K₂, r₂, hv₂, hframed₂, -⟩
    have hv₂ := he₁.toTravels.trans hv₂
    by_cases hb : b = true
    · simp only [if_pos hb]
      obtain ⟨queue, hline, -⟩ := hframed₂.line
      exact .of_ok (fun _ => rfl) ⟨K₂, hv₂, queue, hline⟩
    simp only [if_neg hb]
    refine (drain_concludes hvisits (hv₂.bears hbears) hframed₂).bind ?_
    rintro b w₃ ⟨K₃, r₃, hv₃, hframed₃, hempty⟩
    have hv₃ := hv₂.trans hv₃
    by_cases hb : b = true
    · simp only [if_pos hb]
      obtain ⟨queue, hline, -⟩ := hframed₃.line
      exact .of_ok (fun _ => rfl) ⟨K₃, hv₃, queue, hline⟩
    simp only [if_neg hb]
    obtain ⟨d, hf⟩ := hframed₃.files
    obtain ⟨m', hocc₃⟩ := hframed₃.occupied
    refine .bind_ok (lift_run_still (PathId.resync_run hframed₃.rooted.sound hframed₃.within
      hframed₃.linked hocc₃)) ?_
    refine .bind_ok (lift_run_still (q.data_run hf.data)) ?_
    -- The path of the element stands where it stood, so the next element is the one behind it.
    rw [hf.live, hf.key]
    exact hnext w₃ K₃ _ hv₃ (hempty (by simpa using hb))

/-- A walk of the children of a node ends when the visits at its depth do. -/
theorem fields_conclude {depth : Nat} (hvisits : VisitsConclude v config J depth) :
    FieldsConclude v config J depth := by
  intro w A K p n fields hbears hhosting
  induction fields generalizing w K with
  | nil =>
    refine .succ ?_
    simp only [visitFields]
    exact .of_ok (fun _ => rfl) ⟨K, .refl hhosting.rooted A, rfl⟩
  | cons f fields ih =>
    refine .succ ?_
    simp only [visitFields]
    refine .bind_ok (lift_run_still (PathId.node?_run_of_holds hhosting.holds)) ?_
    simp only [ne_eq, not_true_eq_false, if_false]
    obtain ⟨k, hk⟩ := hhosting.kind
    refine .bind_ok (lift_run_still (ask_run hk)) ?_
    have hfield : w.session.tree.field? n f = k.child? f := by simp [Tree.field?, hk]
    -- After an excursion the walk is stopped, or goes on with the next field.
    have hnext : ∀ (w' : Walk σ) K' (stopped : Bool), w.session.Excursion J A K K' w'.session →
        Concludes (v.Fails config) (fun fuel => do
            if stopped then pure true else visitFields v fuel depth p n fields) w'
          fun _ w'' => ∃ K'', w.session.Excursion J A K K'' w''.session := by
      intro w' K' stopped he
      cases stopped with
      | true => exact .of_ok (fun _ => rfl) ⟨K', he⟩
      | false =>
        refine (ih w' K' (he.bears hbears) (hhosting.excursion he)).mono ?_
        rintro _ w'' ⟨K'', he'⟩
        exact ⟨K'', he.trans he'⟩
    have hchild : ∀ c, k.child? f = some c → c.isList = false → (∃ m, c.node? = some m) →
        Concludes (v.Fails config) (fun fuel => do
            let child ← p.child f
            let stopped ← visitSingle v fuel depth child
            if stopped then pure true else visitFields v fuel depth p n fields) w
          fun _ w'' => ∃ K'', w.session.Excursion J A K K'' w''.session := by
      rintro c hc hsingle ⟨m, hm⟩
      have hocc : w.session.tree.occupant? (.slot n f) = some m := by
        simp [Tree.occupant?, hfield, hc, hm]
      obtain ⟨q, s₁, hrun, hr⟩ := PathId.child_returns hhosting.rooted.sound hhosting.holds
        (hfield.trans hc) hsingle
      have he₁ := hr.excursion (J := J) hhosting.rooted A
      have hpoised := hhosting.poised rfl hocc hr
      refine .bind_ok (lift_run hrun) ?_
      refine (visitSingle_concludes (w := { w with session := s₁ }) hvisits
        (he₁.bears hbears) hpoised (hhosting.excursion he₁).numbered).bind ?_
      rintro stopped w₂ ⟨K₂, he₂⟩
      exact hnext w₂ K₂ stopped (he₁.trans he₂)
    cases hc : k.child? f with
    | none => exact hnext w K false ⟨.refl hhosting.rooted A, rfl⟩
    | some c =>
      cases c with
      | one m => exact hchild _ hc rfl ⟨m, rfl⟩
      | opt o =>
        cases o with
        | none => exact hnext w K false ⟨.refl hhosting.rooted A, rfl⟩
        | some m => exact hchild _ hc rfl ⟨m, rfl⟩
      | many ids =>
        have hpush : w.session.Travels J A K K (pushFrame w).session :=
          .of_frames hhosting.rooted _ (Nat.le_succ _) w.session.stopping
        have hlist : w.session.tree.list? n f = some ids :=
          Tree.list?_eq_some_iff.mpr (hfield.trans hc)
        refine (visitList_concludes (w := pushFrame w) hvisits (hpush.bears hbears)
          (hhosting.ventures hpush.toVentures (numbered_pushFrame hhosting.numbered))
          (congrArg (Option.map List.length) hlist) rfl [] 0).withFrame.bind ?_
        rintro stopped _ ⟨w₁, ⟨K₁, hv₁, hline⟩, rfl⟩
        exact hnext _ K₁ stopped
          (excursion_of_framed hhosting.rooted hhosting.numbered hv₁ hline)

/-- Visits end at every depth, and deep enough they are refused. -/
theorem visits_conclude_at (hv : v.SteersWithin J) (config : Config) (depth : Nat) :
    VisitsConclude v config J depth := by
  induction hleft : config.maxDepth - depth generalizing depth with
  | zero => exact visits_conclude hv fun hdepth => by omega
  | succ left ih =>
    exact visits_conclude hv fun hdepth => fields_conclude (ih (depth + 1) (by omega))

/-- There are no requeued visits when nothing is queued. -/
theorem Revisits.eq_zero {depth times : Nat} (h : Revisits v depth p times w w')
    (hempty : w.session.frames = { id } :: rest) : times = 0 ∧ w' = w := by
  induction h with
  | none w => exact ⟨rfl, rfl⟩
  | @again times fuel b w w₁ w₂ w₃ _ htaken _ ih =>
    obtain ⟨-, rfl⟩ := ih hempty
    unfold dequeue at htaken
    rw [run_get_bind] at htaken
    dsimp only at htaken
    rw [hempty] at htaken
    cases htaken

end Steers

end Walk

open Walk

/-! ## Whole walks -/

section Whole

variable {v : Visitor σ} {J : Set NodeId → Tree → ScopeTable → Prop} {w w' : Walk σ}
  {K : Set NodeId} {p : PathId} {n : NodeId}

/-- The walk of a whole tree. -/
theorem traverseWith_concludes (hv : v.SteersWithin J) (hrooted : w.session.Rooted K)
    (hnum : w.session.Numbered) (hJ : J K w.session.tree w.session.scopes) :
    Concludes (v.Fails w.session.config) (fun fuel => traverseWith fuel v) w fun _ w' =>
      ∃ K', J K' w'.session.tree w'.session.scopes := by
  let w₀ : Walk σ := { w with visited := 0, session := { w.session with stopping := false } }
  have hv₀ : w.session.Travels J ∅ K K w₀.session :=
    .of_frames hrooted w.session.frames le_rfl false
  let kept : Bool → Walk σ → Prop := fun _ w' => ∃ K', J K' w'.session.tree w'.session.scopes
  refine (Concludes.isolated (w := w) (?_ : Concludes _ _ _ kept)).mono ?_
  · obtain ⟨q, s₁, hrun, hr⟩ := pathFor_returns .root hv₀.rooted.sound (Position.within_root K)
      (show w₀.session.Adopts Position.root.container none from rfl)
    obtain ⟨root, hroot, -⟩ := hrooted.root
    obtain ⟨d, hf, -⟩ := hr.files
    have he := hr.excursion (J := J) hv₀.rooted ∅
    have hpoised : s₁.Poised ∅ K q .root :=
      ⟨he.rooted, Set.empty_subset K, fun m hm => (by cases hm), ⟨d, hf⟩,
        ⟨root, by rw [hr.tree]; exact hroot⟩, fun _ _ a ha => ha.elim⟩
    have hbears := he.bears (hv₀.bears ⟨rfl, hJ⟩)
    refine .bind_ok (lift_run hrun) ?_
    refine (visitSingle_concludes (w := { w₀ with session := s₁ })
      (visits_conclude_at hv w.session.config 0) hbears hpoised
      (hnum.ventures (hv₀.toVentures.trans he.toVentures) (by rw [he.frames]))).mono ?_
    rintro b w₂ ⟨K₂, he₂⟩
    exact ⟨K₂, (he₂.bears hbears).kept⟩
  · rintro _ _ ⟨_, w₁, hkept, rfl⟩
    exact hkept

/-- The walk of the children of a path. -/
theorem PathId.traverseWith_concludes (hv : v.SteersWithin J) (hrooted : w.session.Rooted K)
    (hnum : w.session.Numbered) (hJ : J K w.session.tree w.session.scopes)
    (hp : w.session.Holds p n) (hn : w.session.tree.Reachable n) :
    Concludes (v.Fails w.session.config) (fun fuel => p.traverseWith fuel v) w fun _ w' =>
      ∃ K', J K' w'.session.tree w'.session.scopes := by
  have hv₀ : w.session.Travels J {n} K K { w.session with stopping := false } :=
    .of_frames hrooted w.session.frames le_rfl false
  have hbears := hv₀.bears ⟨rfl, hJ⟩
  obtain ⟨k, hk⟩ := hrooted.sound.forest.kind n (hrooted.sound.mem_of_holds hp)
  have hhosting : Hosting { w.session with stopping := false } {n} K p n :=
    ⟨hv₀.rooted, Set.singleton_subset_iff.mpr (hrooted.sound.mem_of_holds hp), rfl, hn, hp,
      fun a ha _ => ha, hnum⟩
  refine .bind_ok (lift_run_still (PathId.node?_run_of_holds hp)) ?_
  let kept : Bool → Walk σ → Prop := fun _ w' => ∃ K', J K' w'.session.tree w'.session.scopes
  refine (Concludes.isolated (w := w) (?_ : Concludes _ _ _ kept)).mono ?_
  · refine .bind_ok (lift_run_still (ask_run (Tree.type?_of_kind hk))) ?_
    refine (fields_conclude (visits_conclude_at hv w.session.config 0)
      { w with visited := 0, session := { w.session with stopping := false } } {n} K p n _ hbears
      hhosting).mono ?_
    rintro b w₂ ⟨K₂, he₂⟩
    exact ⟨K₂, (he₂.bears hbears).kept⟩
  · rintro _ _ ⟨_, w₁, hkept, rfl⟩
    exact hkept

/-- A walk of a whole tree that succeeds does the same with more steps. -/
theorem traverseWith_lasts (v : Visitor σ) {fuel fuel' : Nat} (h : fuel ≤ fuel') :
    Lasts (traverseWith fuel v) (traverseWith fuel' v) := by
  refine .isolated (.next fun root => ?_)
  induction h with
  | refl => exact .refl _
  | step _ ih => exact fun _ _ _ hrun => (lasting v _).visitSingle 0 root (ih hrun)

/-- What the handlers keep that steer is kept by a walk of a whole tree, if it succeeds. -/
theorem Visitor.SteersWithin.kept (hv : v.SteersWithin J) (hrooted : w.session.Rooted K)
    (hnum : w.session.Numbered) (hJ : J K w.session.tree w.session.scopes) {fuel : Nat}
    {done : Traversal} (hrun : traverseWith fuel v w = .ok done w') :
    ∃ K', J K' w'.session.tree w'.session.scopes := by
  obtain ⟨outcome, bound, hx, hend⟩ := traverseWith_concludes hv hrooted hnum hJ
  obtain rfl : EStateM.Result.ok done w' = outcome := by
    rw [← hx (max bound fuel) (by omega)]
    exact (traverseWith_lasts v (by omega) hrun).symm
  exact hend

/-- In every session over a program tree whose paths are in step with the tree, and for every table
whose handlers steer, walks end: they succeed, they go beyond a limit, or a handler fails. After the
ordinary visit of a path there are no more requeued visits of it in its frame than the limit says. -/
theorem Visitor.Steers.ends {v : Visitor σ} (hv : v.Steers) {w : Walk σ} {K : Set NodeId}
    (hrooted : w.session.Rooted K) (hnum : w.session.Numbered) :
    Concludes (v.Fails w.session.config) (fun fuel => traverseWith fuel v) w (fun _ _ => True) ∧
    ∀ p n, w.session.Holds p n → w.session.tree.Reachable n →
      Concludes (v.Fails w.session.config) (fun fuel => p.traverseWith fuel v) w
        (fun _ _ => True) ∧
      ∀ id rest fuel depth b times w₁ w₂, w.session.frames = { id } :: rest →
        visit v fuel depth p false w = .ok b w₁ → Revisits v depth p times w₁ w₂ →
        times ≤ w.session.config.maxRequeues := by
  refine ⟨(traverseWith_concludes hv.within hrooted hnum trivial).mono fun _ _ _ => trivial,
    fun p n hp hn => ⟨?_, ?_⟩⟩
  · exact (PathId.traverseWith_concludes hv.within hrooted hnum trivial hp hn).mono
      fun _ _ _ => trivial
  · intro id rest fuel depth b times w₁ w₂ hempty hvisit hrevisits
    have hvisits := visits_conclude_at hv.within w.session.config
    obtain ⟨A, pos, hpoised, -⟩ := hrooted.poised hp hn
    obtain ⟨r, hframed⟩ := hpoised.framed hnum hempty
    obtain ⟨K₁, r₁, hv₁, hframed₁, hcount⟩ :=
      (hvisits depth w A K p pos id r rest false ⟨rfl, trivial⟩ hframed).of_visit hvisit
    obtain ⟨hbound, -⟩ := hrevisits.framed (hvisits depth) (hv₁.bears ⟨rfl, trivial⟩) hframed₁
    rcases hcount with rfl | ⟨rfl, -⟩
    · rcases Nat.eq_zero_or_pos times with rfl | hpos
      · exact Nat.zero_le _
      · simpa using hbound hpos
    · rw [(hrevisits.eq_zero hempty).1]
      exact Nat.zero_le _

end Whole

/-! ## An example -/

/-- The program `;`. -/
def restlessProgram : Tree where
  nodes := #[{ kind := .emptyStatement }, { kind := .program [⟨0⟩] [] }]
  root := some ⟨1⟩

theorem restlessProgram_isProgram : restlessProgram.IsProgram :=
  .of_bottomUp (by decide) (by decide) (by decide) (by decide)

/-- The session with `;`, in which paths may be requeued twice. -/
def restlessSession : Session where
  tree := restlessProgram
  config := { maxRequeues := 2, lazyScopes := true }

/-- The first so many times that this is called, put a new `;` in the place of the node and go on. -/
def renew (times : Nat) (next : WalkM Nat Unit) : Handler Nat := fun p => do
  let called := (← get).own
  modify fun w => { w with own := called + 1 }
  if called < times then
    p.replaceWith (.node (← onTree (TreeM.alloc .emptyStatement)))
    next

/-- Do that whenever a `;` is entered. -/
def renewing (times : Nat) (next : WalkM Nat Unit) : Visitor Nat where
  entries := [(.enter, .type .emptyStatement, renew times next)]

theorem renewing_steers (times : Nat) : (renewing times (pure ())).Steers := by
  intro phase selector h hh p n type K w w' hrooted hp hn htype hcovers hrun
  simp only [renewing, List.mem_singleton, Prod.mk.injEq] at hh
  obtain ⟨-, rfl, rfl⟩ := hh
  obtain rfl : NodeType.emptyStatement = type := by simpa [Selector.covers] using hcovers
  unfold renew at hrun
  rw [run_get_bind, run_modify_bind] at hrun
  by_cases hmore : w.own < times
  · rw [if_pos hmore] at hrun
    -- The new node is in no forest yet.
    let s₁ : Session := { w.session with tree := w.session.tree.push { kind := .emptyStatement } }
    have hs₁ := hrooted.aside_grown (Tree.Grown.push w.session.tree { kind := .emptyStatement })
    have hnew : s₁.tree.kind? ⟨w.session.tree.size⟩ = some .emptyStatement := by
      simp [s₁, Tree.kind?, Tree.node?_push]
    have hout : (⟨w.session.tree.size⟩ : NodeId) ∉ K := fun hmem =>
      absurd (hrooted.sound.forest.index_lt_size hmem) (lt_irrefl _)
    have halloc : onTree (TreeM.alloc .emptyStatement) w.session =
        .ok ⟨w.session.tree.size⟩ s₁ := onTree_run rfl
    obtain ⟨new, w₁, hrun₁, hrun⟩ := bind_eq_ok hrun
    obtain ⟨_, halloc', rfl⟩ := lift_eq_ok hrun₁
    obtain ⟨rfl, rfl⟩ := EStateM.Result.ok.inj (halloc.symm.trans halloc')
    obtain ⟨_, w₂, hrun₂, hrun⟩ := bind_eq_ok hrun
    obtain ⟨s₂, hreplace, rfl⟩ := lift_eq_ok hrun₂
    obtain rfl := (EStateM.Result.ok.inj hrun).2
    obtain ⟨k, hk, hkt⟩ := Tree.kind_of_type? htype
    refine ⟨_, .replaced (.aside .refl hs₁) hp (.leaf hnew rfl hout) (hs₁.grown.kind hk) hnew ?_
      hreplace⟩
    exact NodeType.suits_statement (by rw [hkt]; rfl) (by rw [hkt]; decide) rfl
  · rw [if_neg hmore] at hrun
    obtain rfl := (EStateM.Result.ok.inj hrun).2
    exact ⟨K, .refl⟩

/-- The walk in whose innermost frame the path of `;`, which is 1, has its turn. -/
def restlessVisit : Walk Nat :=
  pushFrame
    { session := after ((do (← rootPath).element .body 0) : SessionM PathId) restlessSession, own := 0 }

/-- Twice a new node comes into the place of `;`, and the path is visited twice again. -/
theorem restlessProgram_settles : restlessProgram.IsProgram ∧ (renewing 2 (pure ())).Steers ∧
    Concludes ((renewing 2 (pure ())).Fails restlessVisit.session.config)
      (fun fuel => traverseWith fuel (renewing 2 (pure ()))) restlessVisit (fun _ _ => True) ∧
    ∃ b w₁ w₂, visit (renewing 2 (pure ())) 9 1 ⟨1⟩ false restlessVisit = .ok b w₁ ∧
      Revisits (renewing 2 (pure ())) 1 ⟨1⟩ 2 w₁ w₂ ∧
      2 ≤ restlessVisit.session.config.maxRequeues := by
  have hopen : Session.open? restlessProgram { maxRequeues := 2, lazyScopes := true } =
      .ok restlessSession := rfl
  have htended := (Tended.opened restlessProgram_isProgram hopen).moved .root
  have hrooted := (htended.moved (.element ⟨0⟩ .body 0)).orderly.rooted
  have hframed : restlessVisit.session.Rooted restlessProgram.reachable :=
    (Ventures.of_frames (A := ∅) hrooted [{ id := 0 }] (Nat.le_succ 0) false).rooted
  have hnum : restlessVisit.session.Numbered := numbered_pushFrame fun f hf => by cases hf
  have hreach : restlessVisit.session.tree.Reachable ⟨0⟩ :=
    .child (.root rfl) ((Tree.isChild_iff _ _ _).mpr ⟨_, rfl, by decide⟩)
  have hvisit : value? (visit (renewing 2 (pure ())) 9 1 ⟨1⟩ false) restlessVisit = some false := by
    decide +kernel
  have hround : ∀ (w w₁ : Walk Nat) times, Revisits (renewing 2 (pure ())) 1 ⟨1⟩ times w w₁ →
      value? dequeue w₁ = some (some ⟨1⟩) →
      value? (revisit (renewing 2 (pure ())) 9 1 ⟨1⟩) (after dequeue w₁) = some false →
      Revisits (renewing 2 (pure ())) 1 ⟨1⟩ (times + 1) w
        (after (revisit (renewing 2 (pure ())) 9 1 ⟨1⟩) (after dequeue w₁)) :=
    fun w w₁ times h htaken hvisited =>
      .again h (eq_ok_of_value? htaken) (eq_ok_of_value? hvisited)
  have hrevisits := hround _ _ 1 (hround _ _ 0
    (.none (after (visit (renewing 2 (pure ())) 9 1 ⟨1⟩ false) restlessVisit))
    (by decide +kernel) (by decide +kernel)) (by decide +kernel) (by decide +kernel)
  obtain ⟨hends, hbelow⟩ := (renewing_steers 2).ends hframed hnum
  obtain ⟨-, hbound⟩ := hbelow ⟨1⟩ ⟨0⟩ ⟨_, rfl, rfl⟩ hreach
  exact ⟨restlessProgram_isProgram, renewing_steers 2, hends, false, _, _, eq_ok_of_value? hvisit,
    hrevisits, hbound _ _ 9 1 false 2 _ _ rfl (eq_ok_of_value? hvisit) hrevisits⟩

/-- A walk that a handler starts visits the path as well, and the count begins anew. So here the
statement is visited six times, though its path may be requeued twice only, and the walk succeeds. -/
theorem restlessProgram_exceeds : restlessProgram.IsProgram ∧
    Session.open? restlessProgram { maxRequeues := 2, lazyScopes := true } = .ok restlessSession ∧
    ∃ w', traverse (renewing 5 (do let _ ← traverse Visitor.empty))
        { session := restlessSession, own := 0 } = .ok { stopped := false, visited := 7 } w' ∧
      w'.own = 6 :=
  ⟨restlessProgram_isProgram, rfl, _, eq_ok_of_value? (by decide +kernel), by decide +kernel⟩

end Espalier
