import Espalier.Proofs.Observing
import Espalier.Proofs.Sharing
import Espalier.Proofs.Steadiness
import Espalier.Walk.Traverse

set_option autoImplicit false

/-! # Handlers that steer

A handler steers when it changes the tree only by putting new nodes in the place of the node that is
being visited, of the same class, and the walk only by requeueing, skipping and stopping
(`Visitor.Steers`). Whatever such a handler does, and whatever a walk below the visited path does
with such handlers, stays clear of the nodes around it: the paths of these keep what a walk knows of
them, and the lists of the tree keep their lengths (`Session.Ventures`). -/

namespace Espalier

open SessionM Session

variable {σ : Type}

/-! ## What handlers do -/

/-- The path is where it was and as the walk left it. Its parent, what clients attached to it and
its inferred type may have changed. -/
def PathData.Recalls (d d' : PathData) : Prop :=
  d' = { d with parent := d'.parent, inferred := d'.inferred, notes := d'.notes }

theorem PathData.Recalls.refl (d : PathData) : d.Recalls d := rfl

theorem PathData.Recalls.trans {d d' d'' : PathData} (h : d.Recalls d') (h' : d'.Recalls d'') :
    d.Recalls d'' := by
  unfold Recalls at h h' ⊢
  rw [h', h]

namespace Session

/-- Nothing happened but navigation, the building of scopes and of new nodes, and the taking of
notes. -/
structure Aside (s : Session) (K : Set NodeId) (s' : Session) : Prop where
  rooted : s'.Rooted K
  grown : s.tree.Grown s'.tree
  known : ∀ (q : PathId) d, s.paths[q.index]? = some d → d.container ≠ .detached →
    ∃ d', s'.paths[q.index]? = some d' ∧ d.Recalls d'
  frames : s'.frames = s.frames
  nextFrame : s'.nextFrame = s.nextFrame
  config : s'.config = s.config

/-- Building new nodes. -/
theorem Rooted.aside_grown {s : Session} {K : Set NodeId} {t : Tree} (h : s.Rooted K)
    (hg : s.tree.Grown t) : s.Aside K { s with tree := t } :=
  ⟨h.grown hg, hg, fun _ d hd _ => ⟨d, hd, .refl d⟩, rfl, rfl, rfl⟩

/-- What a handler does that steers while the path is visited. A node that comes into the tree was
never there before. -/
inductive Steered (p : PathId) : Set NodeId → Session → Set NodeId → Session → Prop
  | refl {K : Set NodeId} {s : Session} : Steered p K s K s
  | aside {K K' : Set NodeId} {s s' s'' : Session} (h : Steered p K s K' s')
      (hs : s'.Aside K' s'') : Steered p K s K' s''
  | replaced {K K' : Set NodeId} {s s' s'' : Session} {n new : NodeId} {k knew : NodeKind}
      (h : Steered p K s K' s') (hp : s'.Holds p n) (hloose : s'.tree.Loose K' [new])
      (hk : s'.tree.kind? n = some k) (hknew : s'.tree.kind? new = some knew)
      (hsuits : k.type.Suits knew.type) (hrun : p.replaceWith (.node new) s' = .ok () s'') :
      Steered p K s (K' ∪ s'.tree.below [new]) s''
  | requeued {K K' : Set NodeId} {s s' s'' : Session} (h : Steered p K s K' s')
      (hrun : p.requeue s' = .ok () s'') : Steered p K s K' s''
  | skipped {K K' : Set NodeId} {s s' s'' : Session} (h : Steered p K s K' s')
      (hrun : p.skip s' = .ok () s'') : Steered p K s K' s''
  | stopped {K K' : Set NodeId} {s s' s'' : Session} (h : Steered p K s K' s')
      (hrun : p.stop s' = .ok () s'') : Steered p K s K' s''

end Session

/-- Every handler steers, whatever session it is called in and whatever path is being visited, as
long as it is registered for the node of the path. -/
def Visitor.Steers (v : Visitor σ) : Prop :=
  ∀ phase selector h, (phase, selector, h) ∈ v.entries →
    ∀ (p : PathId) (n : NodeId) (type : NodeType) (K : Set NodeId) (w w' : Walk σ),
      w.session.Rooted K → w.session.Holds p n → w.session.tree.Reachable n →
      w.session.tree.type? n = some type → selector.covers type = true → h p w = .ok () w' →
      ∃ K', Steered p K w.session K' w'.session

/-- Every handler steers in sessions with a property of the nodes, the tree and the scopes, and
keeps it. -/
def Visitor.SteersWithin (J : Set NodeId → Tree → ScopeTable → Prop) (v : Visitor σ) : Prop :=
  ∀ phase selector h, (phase, selector, h) ∈ v.entries →
    ∀ (p : PathId) (n : NodeId) (type : NodeType) (K : Set NodeId) (w w' : Walk σ),
      w.session.Rooted K → J K w.session.tree w.session.scopes → w.session.Holds p n →
      w.session.tree.Reachable n → w.session.tree.type? n = some type →
      selector.covers type = true → h p w = .ok () w' →
      ∃ K', Steered p K w.session K' w'.session ∧ J K' w'.session.tree w'.session.scopes

theorem Visitor.Steers.within {v : Visitor σ} (hv : v.Steers) :
    v.SteersWithin fun _ _ _ => True := by
  intro phase selector h he p n type K w w' hrooted _ hp hn htype hcovers hrun
  obtain ⟨K', hs⟩ := hv phase selector h he p n type K w w' hrooted hp hn htype hcovers hrun
  exact ⟨K', hs, trivial⟩

/-- The handlers that are called for a node are registered for it. -/
theorem Visitor.covers_of_mem_handlersFor {v : Visitor σ} {phase : Phase} {type : NodeType}
    {h : Handler σ} (hh : h ∈ v.handlersFor phase type) :
    ∃ selector, (phase, selector, h) ∈ v.entries ∧ selector.covers type = true := by
  obtain ⟨lined, hlines, heq⟩ := v.exists_lines phase type
  rw [heq] at hh
  obtain ⟨e, he, rfl⟩ := List.mem_map.mp hh
  have hranked : e ∈ v.ranked phase type e.2.1.rank := by
    rw [← hlines.registered]
    exact List.mem_filter.mpr ⟨he, by simp⟩
  obtain ⟨hentry, hphase⟩ := List.mem_filter.mp hranked
  simp only [Bool.and_eq_true, decide_eq_true_eq] at hphase
  exact ⟨e.2.1, by rwa [← hphase.1], hphase.2.1⟩

/-! ## What stays -/

namespace Session

/-- What the session becomes when something happens away from the nodes of `A`. Old nodes move
nowhere, and lists keep their length; the nodes of `A` can be reached as before, and their paths are
as they were. -/
structure Ventures (s : Session) (A K K' : Set NodeId) (s' : Session) : Prop where
  grew : K ⊆ K'
  rooted : s'.Rooted K'
  stands : ∀ (pos : Position) n, pos.Within K' → n ∈ K → s'.tree.occupant? pos = some n →
    pos.Within K ∧ s.tree.occupant? pos = some n
  type : ∀ n ∈ K, s'.tree.type? n = s.tree.type? n
  lists : ∀ n ∈ K, ∀ f,
    (s'.tree.list? n f).map List.length = (s.tree.list? n f).map List.length
  reach : ∀ n ∈ A, s.tree.Reachable n → s'.tree.Reachable n
  guard : ∀ (q : PathId) n d, n ∈ A → s.paths[q.index]? = some d → d.node = some n →
    ∃ d', s'.paths[q.index]? = some d' ∧ d.Recalls d'
  config : s'.config = s.config
  later : s.nextFrame ≤ s'.nextFrame

namespace Ventures

variable {s s' s'' : Session} {A K K' K'' : Set NodeId}

theorem refl (h : s.Rooted K) (A : Set NodeId) : s.Ventures A K K s where
  grew := subset_rfl
  rooted := h
  stands _ _ hw _ hn := ⟨hw, hn⟩
  type _ _ := rfl
  lists _ _ _ := rfl
  reach _ _ h := h
  guard _ _ d _ hd _ := ⟨d, hd, .refl d⟩
  config := rfl
  later := le_rfl

theorem trans (h : s.Ventures A K K' s') (h' : s'.Ventures A K' K'' s'') :
    s.Ventures A K K'' s'' where
  grew := h.grew.trans h'.grew
  rooted := h'.rooted
  stands pos n hw hn hocc := by
    obtain ⟨hw', hocc'⟩ := h'.stands pos n hw (h.grew hn) hocc
    exact h.stands pos n hw' hn hocc'
  type n hn := (h'.type n (h.grew hn)).trans (h.type n hn)
  lists n hn f := (h'.lists n (h.grew hn) f).trans (h.lists n hn f)
  reach n hn hr := h'.reach n hn (h.reach n hn hr)
  guard q n d hn hd hdn := by
    obtain ⟨d', hd', hr⟩ := h.guard q n d hn hd hdn
    obtain ⟨d'', hd'', hr'⟩ := h'.guard q n d' hn hd' (by rw [hr, hdn])
    exact ⟨d'', hd'', hr.trans hr'⟩
  config := h'.config.trans h.config
  later := h.later.trans h'.later

theorem mono {B : Set NodeId} (h : s.Ventures A K K' s') (hB : B ⊆ A) : s.Ventures B K K' s' :=
  { h with
    reach := fun n hn => h.reach n (hB hn)
    guard := fun q n d hn => h.guard q n d (hB hn) }

/-- The tree stays as it is. -/
theorem of_alike (ha : s.tree.Alike s'.tree) (hr : s'.Rooted K)
    (hguard : ∀ (q : PathId) n d, n ∈ A → s.paths[q.index]? = some d → d.node = some n →
      ∃ d', s'.paths[q.index]? = some d' ∧ d.Recalls d') (hconfig : s'.config = s.config)
    (hlater : s.nextFrame ≤ s'.nextFrame) : s.Ventures A K K s' where
  grew := subset_rfl
  rooted := hr
  stands pos n hw _ hn := ⟨hw, by rwa [← ha.occupant?]⟩
  type n _ := by rw [← Tree.map_type_kind?, ha.kind, Tree.map_type_kind?]
  lists n _ f := by rw [ha.list?]
  reach n _ hn := by
    show n ∈ s'.tree.reachable
    rw [ha.reachable]
    exact hn
  guard := hguard
  config := hconfig
  later := hlater

/-- Nothing but the visited path changes. -/
theorem of_modify (h : s.Rooted K) {p : PathId} (hp : ∀ n ∈ A, ¬ s.Holds p n)
    {f : PathData → PathData}
    (hf : ∀ d, (f d).place = d.place ∧ (f d).parent = d.parent) :
    s.Ventures A K K { s with paths := s.paths.modify p.index f } := by
  have halike := s.alike_modify p f fun d _ => (hf d).1
  have hsound : Sound { s with paths := s.paths.modify p.index f } K := by
    refine halike.sound h.sound fun q d d' hd hd' _ => .inl ?_
    have hd'' : (s.paths.modify p.index f)[q.index]? = some d' := hd'
    rw [getElem?_modify_paths, hd] at hd''
    split at hd''
    · obtain rfl : f d = d' := Option.some.inj hd''
      exact (hf d).2
    · rw [Option.some.inj hd'']
  refine .of_alike halike.tree ⟨hsound, h.ordered, h.root⟩ (fun q n d hn hd hdn => ⟨d, ?_, .refl d⟩)
    rfl le_rfl
  have hqp : q ≠ p := by
    rintro rfl
    exact hp n hn ⟨d, hd, hdn⟩
  show (s.paths.modify p.index f)[q.index]? = _
  rw [getElem?_modify_paths, if_neg hqp, hd]

/-- Only the frames and the wish to stop change. -/
theorem of_frames (h : s.Rooted K) (frames : List Frame) {nextFrame : Nat}
    (hlater : s.nextFrame ≤ nextFrame) (stopping : Bool) :
    s.Ventures A K K { s with frames, nextFrame, stopping } :=
  .of_alike (.refl _) (h.alike ⟨.refl _, rfl, rfl, fun _ => rfl⟩ rfl h.ordered)
    (fun _ _ d _ hd _ => ⟨d, hd, .refl d⟩) rfl hlater

theorem of_aside (h : s.Rooted K) (hs : s.Aside K s') : s.Ventures A K K s' where
  grew := subset_rfl
  rooted := hs.rooted
  stands pos n hw _ hn := ⟨hw, by rwa [← hs.grown.occupant? h.sound.forest hw]⟩
  type n hn := by
    obtain ⟨k, hk⟩ := h.sound.forest.kind n hn
    rw [Tree.type?_of_kind hk, Tree.type?_of_kind (hs.grown.kind hk)]
  lists n hn f := by
    obtain ⟨k, hk⟩ := h.sound.forest.kind n hn
    simp only [Tree.list?, Tree.field?, hk, hs.grown.kind hk]
  reach n _ hn := (hs.grown.reachable_iff h.sound.forest).mpr hn
  guard q n d _ hd hdn := by
    refine hs.known q d hd fun hc => ?_
    obtain ⟨pos, e, -, hf, -⟩ := h.sound.files_of_holds ⟨d, hd, hdn⟩
    obtain rfl := Option.some.inj (hd.symm.trans hf.data)
    exact pos.container_ne_detached (hf.container.symm.trans hc)
  config := hs.config
  later := hs.nextFrame.ge

/-- A way down to an old node was there before. -/
theorem below (h : s.Ventures A K K' s') {m n : NodeId} (hm : m ∈ K') (hn : n ∈ K)
    (hway : Relation.ReflTransGen s'.tree.IsChild m n) :
    m ∈ K ∧ Relation.ReflTransGen s.tree.IsChild m n := by
  induction hway using Relation.ReflTransGen.head_induction_on with
  | refl => exact ⟨hn, .refl⟩
  | @head a c hac hcn ih =>
    obtain ⟨pos, hpos, hocc⟩ := hac
    have hw := Position.within_of_parent hpos hm
    obtain ⟨hc, hway⟩ := ih (h.rooted.sound.forest.closed pos c hw hocc)
    obtain ⟨hw', hocc'⟩ := h.stands pos c hw hc hocc
    exact ⟨hw' a hpos, .head ⟨pos, hpos, hocc'⟩ hway⟩

end Ventures

/-! ## The visited path -/

/-- The path stands at a position with a node, whose owner is among the nodes of `A`. None of them
is below the node. -/
structure Poised (s : Session) (A K : Set NodeId) (p : PathId) (pos : Position) : Prop where
  rooted : s.Rooted K
  sub : A ⊆ K
  owner : ∀ m, pos.parent? = some m → m ∈ A ∧ s.tree.Reachable m
  files : ∃ d, s.Files p pos d
  occupied : ∃ n, s.tree.occupant? pos = some n
  clear : ∀ n, s.tree.occupant? pos = some n → ∀ a ∈ A, ¬ Relation.ReflTransGen s.tree.IsChild n a

namespace Poised

variable {s s' : Session} {A K K' : Set NodeId} {p : PathId} {pos : Position} {n : NodeId}

theorem within (h : s.Poised A K p pos) : pos.Within K := fun m hm => h.sub (h.owner m hm).1

theorem within_reachable (h : s.Poised A K p pos) : pos.Within s.tree.reachable :=
  fun m hm => (h.owner m hm).2

theorem holds (h : s.Poised A K p pos) (hn : s.tree.occupant? pos = some n) : s.Holds p n := by
  obtain ⟨d, hf⟩ := h.files
  exact hf.holds hn

theorem reachable (h : s.Poised A K p pos) (hn : s.tree.occupant? pos = some n) :
    s.tree.Reachable n := by
  cases hpos : pos.parent? with
  | none =>
    obtain rfl := Position.eq_root_of_parent hpos
    exact .root hn
  | some m => exact .child (h.owner m hpos).2 ⟨pos, hpos, hn⟩

theorem mem (h : s.Poised A K p pos) (hn : s.tree.occupant? pos = some n) : n ∈ K :=
  h.rooted.sound.forest.mem_of_reachable (h.reachable hn)

/-- The path holds none of the nodes of `A`. -/
theorem not_holds (h : s.Poised A K p pos) : ∀ a ∈ A, ¬ s.Holds p a := by
  intro a ha hp
  obtain ⟨n, hn⟩ := h.occupied
  obtain rfl := (h.holds hn).unique_node hp
  exact h.clear n hn n ha .refl

theorem linked (h : s.Poised A K p pos) : s.Linked p pos := by
  obtain ⟨d, hf⟩ := h.files
  exact ⟨d, hf, h.rooted.sound.linked p pos d hf h.within_reachable⟩

/-- The path stays where it is when something happens away from the nodes of `A`. -/
theorem ventures (h : s.Poised A K p pos) (hv : s.Ventures A K K' s')
    (hf : ∃ d, s'.Files p pos d) (hocc : ∃ n, s'.tree.occupant? pos = some n) :
    s'.Poised A K' p pos where
  rooted := hv.rooted
  sub := h.sub.trans hv.grew
  owner m hm := ⟨(h.owner m hm).1, hv.reach m (h.owner m hm).1 (h.owner m hm).2⟩
  files := hf
  occupied := hocc
  clear n hn a ha hway := by
    have hw : pos.Within K' := fun m hm => hv.grew (h.within m hm)
    have hnK' := hv.rooted.sound.forest.closed pos n hw hn
    obtain ⟨hnK, hway'⟩ := hv.below hnK' (h.sub ha) hway
    exact h.clear n (hv.stands pos n hw hnK hn).2 a ha hway'

end Poised

/-- A path with a node that can be reached stands at a position with an owner, or at the root. -/
theorem Rooted.poised {s : Session} {K : Set NodeId} {p : PathId} {n : NodeId} (h : s.Rooted K)
    (hp : s.Holds p n) (hn : s.tree.Reachable n) :
    ∃ A pos, s.Poised A K p pos ∧ s.tree.occupant? pos = some n := by
  obtain ⟨pos, hw, ⟨d, hf, -⟩, hocc⟩ := h.sound.linked_of_reachable hp hn
  refine ⟨{m | pos.parent? = some m}, pos,
    ⟨h, fun m hm => h.sound.forest.mem_of_reachable (hw m hm), fun m hm => ⟨hm, hw m hm⟩, ⟨d, hf⟩,
      ⟨n, hocc⟩, fun c hc a ha hway => ?_⟩, hocc⟩
  exact h.sound.forest.acyclic a (h.sound.forest.mem_of_reachable (hw a ha))
    (.head' ⟨pos, ha, hc⟩ hway)

/-- A path with a node is filed at the position that it has. -/
theorem Sound.files_of_place {s : Session} {K : Set NodeId} (hs : s.Sound K) {p : PathId}
    {pos : Position} {d : PathData} {n : NodeId} (hd : s.paths[p.index]? = some d)
    (hn : d.node = some n) (hc : d.container = pos.container) (hk : d.key = pos.key) :
    s.Files p pos d ∧ s.tree.occupant? pos = some n := by
  obtain ⟨pos', d', -, hf, hocc⟩ := hs.files_of_holds ⟨d, hd, hn⟩
  obtain rfl := Option.some.inj (hd.symm.trans hf.data)
  obtain rfl : pos' = pos := Position.eq_of_container_key (hf.container.symm.trans hc)
    (hf.key.symm.trans hk)
  exact ⟨hf, hocc⟩

/-- A new node in the place of the visited one is away from all others. -/
theorem Ventures.of_replaced {s s' : Session} {A K : Set NodeId} {p : PathId} {pos : Position}
    {new : NodeId} (h : s.Poised A K p pos) (hloose : s.tree.Loose K [new])
    (hr : s.Replaced K p pos new s') : s.Ventures A K (K ∪ s.tree.below [new]) s' where
  grew := Set.subset_union_left
  rooted := hr.rooted
  stands pos' n hw hn hocc := by
    have hpos : pos' ≠ pos := by
      rintro rfl
      obtain rfl := Option.some.inj (hr.tree.here.symm.trans hocc)
      exact hloose.not_mem (by simp) hn
    have hocc' := (hr.tree.other pos' hpos).symm.trans hocc
    refine ⟨fun m hm => (hw m hm).resolve_right fun hb => ?_, hocc'⟩
    -- What stands below a new node is new.
    exact hloose.apart n (Tree.below_child hb ⟨pos', hm, hocc'⟩) hn
  type n _ := by rw [← Tree.map_type_kind?, hr.tree.type, Tree.map_type_kind?]
  lists n _ f := hr.tree.lists n f
  reach a ha hreach := by
    rcases hr.tree.reachable_or_below hreach with hreach | ⟨e, he, hbelow⟩
    · exact hreach
    · exact absurd hbelow (h.clear e he a ha)
  guard q n d hn hd hdn := by
    have hqp : q ≠ p := by
      rintro rfl
      exact h.not_holds n hn ⟨d, hd, hdn⟩
    obtain ⟨pos', e, -, hf, -⟩ := h.rooted.sound.files_of_holds ⟨d, hd, hdn⟩
    obtain rfl := Option.some.inj (hd.symm.trans hf.data)
    obtain ⟨parent, hd'⟩ := hr.known q d hqp hd (hf.container ▸ pos'.container_ne_detached)
    exact ⟨_, hd', rfl⟩
  config := hr.rest.1
  later := hr.rest.2.1.ge

/-- The path has its turn in the innermost frame, whose number is `id`, and was requeued `r` times.
Nothing else is queued there. -/
structure Framed (s : Session) (A K : Set NodeId) (p : PathId) (pos : Position) (id r : Nat)
    (rest : List Frame) : Prop extends Poised s A K p pos where
  requeues : ∀ d, s.paths[p.index]? = some d → d.requeues = r
  line : ∃ queue, s.frames = { id, queue } :: rest ∧ (queue = [] ∨ queue = [p])
  numbered : s.Numbered

/-- The visit of the path has begun. -/
structure Visiting (s : Session) (A K : Set NodeId) (p : PathId) (pos : Position) (id r : Nat)
    (rest : List Frame) : Prop extends Framed s A K p pos id r rest where
  frame : ∀ d, s.paths[p.index]? = some d → d.frame = some id

section Visiting

variable {s s' s'' : Session} {A K K' : Set NodeId} {p : PathId} {pos : Position} {id r r' : Nat}
  {rest : List Frame}

/-- The path has its turn still when it has its place, and nothing but the path was queued. -/
theorem Framed.resume (h : s.Framed A K p pos id r rest) (hv : s.Ventures A K K' s')
    (hdata : ∀ d, s.Files p pos d → ∃ d' n, s'.paths[p.index]? = some d' ∧ d'.node = some n ∧
      d'.container = d.container ∧ d'.key = d.key ∧ d'.requeues = r')
    (hline : ∃ queue, s'.frames = { id, queue } :: rest ∧ (queue = [] ∨ queue = [p])) :
    s'.Framed A K' p pos id r' rest := by
  obtain ⟨d, hf⟩ := h.files
  obtain ⟨d', n, hd', hn, hc, hk, hrequeues⟩ := hdata d hf
  obtain ⟨hf', hocc⟩ := hv.rooted.sound.files_of_place hd' hn (hc.trans hf.container)
    (hk.trans hf.key)
  refine ⟨h.toPoised.ventures hv ⟨d', hf'⟩ ⟨n, hocc⟩, fun e he => ?_, hline, ?_⟩
  · rw [Option.some.inj (he.symm.trans hd'), hrequeues]
  · obtain ⟨queue, hframes, -⟩ := h.line
    obtain ⟨queue', hframes', -⟩ := hline
    have hnumbered := numbered_iff.mp h.numbered
    rw [hframes] at hnumbered
    rw [numbered_iff, hframes']
    exact fun i hi => (hnumbered i hi).trans_le hv.later

/-- The walk may note something about a path that has its turn, as long as the path stays where it
is. -/
theorem Framed.modify (h : s.Framed A K p pos id r rest) {f : PathData → PathData} {c : Nat}
    (hf : ∀ d, (f d).place = d.place ∧ (f d).parent = d.parent)
    (hrequeues : ∀ d, d.requeues = r → (f d).requeues = c) (stopping : Bool) :
    s.Ventures A K K { s with paths := s.paths.modify p.index f, stopping } ∧
      Framed { s with paths := s.paths.modify p.index f, stopping } A K p pos id c rest := by
  have hv := Ventures.of_modify h.rooted h.not_holds hf
  have hv' := hv.trans (.of_frames hv.rooted s.frames le_rfl stopping)
  refine ⟨hv', h.resume hv' (fun d hfd => ?_) h.line⟩
  obtain ⟨n, hocc⟩ := h.occupied
  have hplace := (hf d).1
  simp only [PathData.place, Prod.mk.injEq] at hplace
  refine ⟨f d, n, ?_, hplace.1.trans (hfd.node.trans hocc), hplace.2.1, hplace.2.2.1,
    hrequeues d (h.requeues d hfd.data)⟩
  show (s.paths.modify p.index f)[p.index]? = _
  rw [getElem?_modify_paths, if_pos rfl, hfd.data]
  rfl

/-- The path is visited in the innermost frame from then on. -/
theorem Framed.visiting (h : s.Framed A K p pos id r rest) {f : PathData → PathData} {c : Nat}
    (hf : ∀ d, (f d).place = d.place ∧ (f d).parent = d.parent)
    (hrequeues : ∀ d, d.requeues = r → (f d).requeues = c)
    (hframe : ∀ d, s.paths[p.index]? = some d → (f d).frame = some id) (stopping : Bool) :
    s.Ventures A K K { s with paths := s.paths.modify p.index f, stopping } ∧
      Visiting { s with paths := s.paths.modify p.index f, stopping } A K p pos id c rest := by
  obtain ⟨hv, h'⟩ := h.modify hf hrequeues stopping
  refine ⟨hv, h', fun e he => ?_⟩
  have he' : (s.paths.modify p.index f)[p.index]? = some e := he
  rw [getElem?_modify_paths, if_pos rfl, Option.map_eq_some_iff] at he'
  obtain ⟨d, hd, rfl⟩ := he'
  exact hframe d hd

namespace Visiting

/-- The visit goes on when the walk knows of the path what it knew. -/
theorem resume (h : s.Visiting A K p pos id r rest) (hv : s.Ventures A K K' s')
    (hdata : ∀ d, s.Files p pos d → ∃ d' n, s'.paths[p.index]? = some d' ∧ d'.node = some n ∧
      d'.container = d.container ∧ d'.key = d.key ∧ d'.frame = d.frame ∧ d'.requeues = d.requeues)
    (hline : ∃ queue, s'.frames = { id, queue } :: rest ∧ (queue = [] ∨ queue = [p])) :
    s'.Visiting A K' p pos id r rest := by
  refine ⟨h.toFramed.resume hv (fun d hf => ?_) hline, fun e he => ?_⟩
  · obtain ⟨d', n, hd', hn, hc, hk, -, hrequeues⟩ := hdata d hf
    exact ⟨d', n, hd', hn, hc, hk, hrequeues.trans (h.requeues d hf.data)⟩
  · obtain ⟨d, hf⟩ := h.files
    obtain ⟨d', -, hd', -, -, -, hframe, -⟩ := hdata d hf
    rw [Option.some.inj (he.symm.trans hd'), hframe]
    exact h.frame d hf.data

/-- Requeueing the visited path puts it into the queue of the innermost frame, once. -/
theorem queued (h : s.Visiting A K p pos id r rest) {d : PathData} (hf : s.Files p pos d) :
    ∃ queue, d.queued p s.frames = { id, queue } :: rest ∧ (queue = [] ∨ queue = [p]) := by
  obtain ⟨queue, hframes, hqueue⟩ := h.line
  unfold PathData.queued
  rw [hf.live, h.frame d hf.data, hframes]
  simp only [PathId.requeue.enqueue, if_true]
  refine ⟨[p], ?_, .inr rfl⟩
  rcases hqueue with rfl | rfl <;> simp

/-- What a handler does that steers stays at the visited position, and the visit goes on. -/
theorem steered (h : s.Visiting A K p pos id r rest) (hs : Steered p K s K' s') :
    s.Ventures A K K' s' ∧ s'.Visiting A K' p pos id r rest := by
  induction hs with
  | refl => exact ⟨.refl h.rooted A, h⟩
  | @aside K' s s' s'' _ hs ih =>
    obtain ⟨hv, h'⟩ := ih h
    have hv' := Ventures.of_aside (A := A) h'.rooted hs
    refine ⟨hv.trans hv', h'.resume hv' (fun d hf => ?_) (by rw [hs.frames]; exact h'.line)⟩
    obtain ⟨d', hd', hrecalls⟩ := hs.known p d hf.data
      (hf.container ▸ pos.container_ne_detached)
    obtain ⟨n, hocc⟩ := h'.occupied
    exact ⟨d', n, hd', by rw [hrecalls, hf.node, hocc], by rw [hrecalls], by rw [hrecalls],
      by rw [hrecalls], by rw [hrecalls]⟩
  | @replaced K' s s' s'' n new k knew _ hp hloose hk hknew hsuits hrun ih =>
    obtain ⟨hv, h'⟩ := ih h
    obtain ⟨m, hocc⟩ := h'.occupied
    obtain rfl := hp.unique_node (h'.holds hocc)
    obtain ⟨pos', -, hl, hr⟩ := (PathId.replaceWith_replaces h'.rooted hp (h'.reachable hocc) hloose
      hk hknew hsuits).of_eq_ok hrun
    obtain ⟨d, hf, -⟩ := hl
    obtain ⟨e, hfe⟩ := h'.files
    obtain ⟨rfl, rfl⟩ := hf.position_unique hfe
    have hv' := Ventures.of_replaced h'.toPoised hloose hr
    refine ⟨hv.trans hv', h'.resume hv' (fun d' hf' => ?_) ?_⟩
    · obtain ⟨-, rfl⟩ := hf'.position_unique hf
      obtain ⟨parent, hown⟩ := hr.own d' hf'.data
      exact ⟨_, new, hown, rfl, rfl, rfl, rfl, rfl⟩
    · rw [hr.frames d hf.data]
      exact h'.queued hf
  | @requeued K' s s' s'' _ hrun ih =>
    obtain ⟨hv, h'⟩ := ih h
    obtain ⟨d, hf⟩ := h'.files
    obtain ⟨n, hocc⟩ := h'.occupied
    obtain rfl := (EStateM.Result.ok.inj ((PathId.requeue_run hf.data).symm.trans hrun)).2
    have hv' := Ventures.of_frames (A := A) h'.rooted (d.queued p s'.frames) le_rfl s'.stopping
    refine ⟨hv.trans hv', h'.resume hv' (fun d' hf' => ?_) (h'.queued hf)⟩
    exact ⟨d', n, hf'.data, hf'.node.trans hocc, rfl, rfl, rfl, rfl⟩
  | @skipped K' s s' s'' _ hrun ih =>
    obtain ⟨hv, h'⟩ := ih h
    obtain ⟨d, hf⟩ := h'.files
    obtain rfl := (EStateM.Result.ok.inj
      ((p.modifyData_run hf.data fun d => { d with skip := true }).symm.trans hrun)).2
    obtain ⟨hv', h''⟩ := h'.toFramed.visiting (f := fun d => { d with skip := true })
      (fun _ => ⟨rfl, rfl⟩) (fun _ hr => hr) h'.frame s'.stopping
    exact ⟨hv.trans hv', h''⟩
  | @stopped K' s s' s'' _ hrun ih =>
    obtain ⟨hv, h'⟩ := ih h
    obtain ⟨d, hf⟩ := h'.files
    have hstop : p.stop s' = .ok () { s' with
        paths := s'.paths.modify p.index fun d => { d with stop := true, skip := true }
        stopping := true } := by
      unfold PathId.stop
      rw [bind_of_ok (p.modifyData_run hf.data _)]
      rfl
    obtain rfl := (EStateM.Result.ok.inj (hstop.symm.trans hrun)).2
    obtain ⟨hv', h''⟩ := h'.toFramed.visiting (f := fun d => { d with stop := true, skip := true })
      (fun _ => ⟨rfl, rfl⟩) (fun _ hr => hr) h'.frame true
    exact ⟨hv.trans hv', h''⟩

end Visiting

end Visiting

end Session

end Espalier
