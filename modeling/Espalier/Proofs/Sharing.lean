import Espalier.Proofs.Editing
import Espalier.Proofs.Reduction

set_option autoImplicit false

/-! # One path for each place

As long as every node that comes into the tree is new to it, two different paths that hold nodes
never stand at the same place, wherever a client goes, whatever it edits, and whichever paths it
brings in step with the tree (`Session.Tended.places_apart`). What makes it so is that below a new
node there are only new nodes: a path whose parent was given another node does not find its own node
there, and is removed. Where an old node is attached again, `resync` files a path at a place that
another path may have already, and does not look (`crowdedProgram_shares`). -/

namespace Espalier

open SessionM Session

/-! ## Trees that grow -/

namespace Tree.Grown

variable {t t' : Tree} {K : Set NodeId}

/-- New nodes leave the positions of the old ones as they are. -/
theorem occupant? (h : t.Grown t') (hF : t.Forest K) {pos : Position} (hw : pos.Within K) :
    t'.occupant? pos = t.occupant? pos := by
  have hkind : ∀ n ∈ K, t'.kind? n = t.kind? n := by
    intro n hn
    obtain ⟨k, hk⟩ := hF.kind n hn
    rw [hk, h.kind hk]
  cases pos with
  | root => exact h.root
  | slot n f => simp only [Tree.occupant?, field?, hkind n (hw n rfl)]
  | item n f i => simp only [Tree.occupant?, list?, field?, hkind n (hw n rfl)]

/-- The children of the nodes of a forest stay the same. -/
theorem isChild_iff (h : t.Grown t') (hF : t.Forest K) {p n : NodeId} (hp : p ∈ K) :
    t'.IsChild p n ↔ t.IsChild p n := by
  unfold Tree.IsChild
  refine exists_congr fun pos => and_congr_right fun hpos => ?_
  rw [h.occupant? hF (Position.within_of_parent hpos hp)]

theorem forest (h : t.Grown t') (hF : t.Forest K) : t'.Forest K where
  kind n hn := by
    obtain ⟨k, hk⟩ := hF.kind n hn
    exact ⟨k, h.kind hk⟩
  closed pos n hw hn := hF.closed pos n hw (by rwa [← h.occupant? hF hw])
  single pos pos' n hw hw' hn hn' :=
    hF.single pos pos' n hw hw' (by rwa [← h.occupant? hF hw]) (by rwa [← h.occupant? hF hw'])
  acyclic n hn hcycle := by
    -- A way down from a node of the forest stays in the forest.
    have hway : ∀ m, Relation.TransGen t'.IsChild n m →
        m ∈ K ∧ Relation.TransGen t.IsChild n m := by
      intro m hm
      induction hm with
      | single hc =>
        have hc := (h.isChild_iff hF hn).mp hc
        exact ⟨hF.closed_child hn hc, .single hc⟩
      | tail _ hc ih =>
        have hc := (h.isChild_iff hF ih.1).mp hc
        exact ⟨hF.closed_child ih.1 hc, ih.2.tail hc⟩
    exact hF.acyclic n hn (hway n hcycle).2

/-- The same can be reached as before. -/
theorem reachable_iff (h : t.Grown t') (hF : t.Forest K) {n : NodeId} :
    t'.Reachable n ↔ t.Reachable n := by
  constructor
  · intro hn
    induction hn with
    | root hr => exact .root (h.root ▸ hr)
    | child _ hc ih => exact .child ih ((h.isChild_iff hF (hF.mem_of_reachable ih)).mp hc)
  · intro hn
    induction hn with
    | root hr => exact .root (h.root.trans hr)
    | child hm hc ih => exact .child ih ((h.isChild_iff hF (hF.mem_of_reachable hm)).mpr hc)

end Tree.Grown

namespace Session

variable {s s' : Session} {K : Set NodeId} {p q : PathId} {n : NodeId}

/-- The paths of a session know nothing of new nodes. -/
theorem Sound.grown {t : Tree} (hs : s.Sound K) (hg : s.tree.Grown t) :
    Sound { s with tree := t } K := by
  have hF := hs.forest
  -- A path is filed where it was filed before.
  have hfiles : ∀ {p pos d}, Files { s with tree := t } p pos d ↔ s.Files p pos d := by
    intro p pos d
    constructor
    · intro hf
      obtain ⟨pos₀, d₀, -, hw₀, hf₀⟩ := hs.filed _ p hf.bucket
      obtain rfl := Option.some.inj (hf.data.symm.trans hf₀.data)
      obtain rfl := Position.eq_of_container_key (hf.container.symm.trans hf₀.container)
        (hf.key.symm.trans hf₀.key)
      exact hf₀
    · intro hf
      obtain ⟨pos₀, d₀, -, hw₀, hf₀⟩ := hs.filed _ p hf.bucket
      obtain ⟨rfl, -⟩ := hf.position_unique hf₀
      exact ⟨hf.data, hf.bucket, hf.container, hf.key, hf.live,
        hf.node.trans (hg.occupant? hF hw₀).symm⟩
  refine ⟨hg.forest hF, fun c p hp => ?_, hs.nodup, fun p q pos d e hp hq hn => ?_, hs.held,
    hs.adrift, fun p pos d hf hw => ?_⟩
  · obtain ⟨pos, d, hc, hw, hf⟩ := hs.filed c p hp
    exact ⟨pos, d, hc, hw, hfiles.mpr hf⟩
  · exact hs.unique p q pos d e (hfiles.mp hp) (hfiles.mp hq) hn
  · exact hs.linked p pos d (hfiles.mp hf) fun m hm => (hg.reachable_iff hF).mp (hw m hm)

/-- Building new nodes keeps a session in order. -/
theorem Rooted.grown {t : Tree} (h : s.Rooted K) (hg : s.tree.Grown t) :
    Rooted { s with tree := t } K := by
  refine ⟨h.sound.grown hg, h.ordered, h.root.of_root hg.root fun r hr => ?_⟩
  obtain ⟨k, hk, -⟩ := h.root.kind_root hr
  rw [hk, hg.kind hk]

end Session

/-! ## Paths that fall out of step -/

namespace Session

/-- A path was removed, and left its bucket. -/
structure Parted (s : Session) (p : PathId) (s' : Session) : Prop where
  tree : s'.tree = s.tree
  scopes : s'.scopes = s.scopes
  detached : s'.detached = s.detached
  bucket : ∀ c, s'.bucket c = (s.bucket c).filter fun q => decide (q ≠ p)
  known : ∀ q : PathId, q ≠ p → s'.paths[q.index]? = s.paths[q.index]?
  own : ∃ d, s'.paths[p.index]? = some d ∧ d.node = none

section Parted

variable {s s' : Session} {K : Set NodeId} {p q : PathId} {n : NodeId}

theorem Parted.mem_bucket (h : s.Parted p s') (c : Container) :
    q ∈ s'.bucket c ↔ q ∈ s.bucket c ∧ q ≠ p := by
  rw [h.bucket, List.mem_filter, decide_eq_true_eq]

theorem Parted.files (h : s.Parted p s') {pos : Position} {d : PathData} :
    s'.Files q pos d ↔ s.Files q pos d ∧ q ≠ p := by
  constructor
  · intro hf
    obtain ⟨hb, hq⟩ := (h.mem_bucket _).mp hf.bucket
    exact ⟨⟨(h.known q hq).symm.trans hf.data, hb, hf.container, hf.key, hf.live,
      hf.node.trans (by rw [h.tree])⟩, hq⟩
  · rintro ⟨hf, hq⟩
    exact ⟨(h.known q hq).trans hf.data, (h.mem_bucket _).mpr ⟨hf.bucket, hq⟩, hf.container,
      hf.key, hf.live, hf.node.trans (by rw [h.tree])⟩

/-- A session stays sound when a path leaves whose node cannot be reached any more. -/
theorem Sound.parted (hs : s.Sound K) (h : s.Parted p s') (hp : s.Holds p n)
    (hn : ¬ s.tree.Reachable n) : s'.Sound K := by
  refine ⟨by rw [h.tree]; exact hs.forest, fun c q hq => ?_, fun c => ?_,
    fun q r pos d e hq hr hne => ?_, fun q d hd hne => ?_, fun r q hq => ?_,
    fun q pos d hf hw => ?_⟩
  · obtain ⟨hb, hqp⟩ := (h.mem_bucket c).mp hq
    obtain ⟨pos, d, hc, hw, hf⟩ := hs.filed c q hb
    exact ⟨pos, d, hc, hw, h.files.mpr ⟨hf, hqp⟩⟩
  · rw [h.bucket]
    exact (hs.nodup c).filter _
  · exact hs.unique q r pos d e (h.files.mp hq).1 (h.files.mp hr).1 hne
  · have hqp : q ≠ p := by
      rintro rfl
      obtain ⟨e, he, hnone⟩ := h.own
      exact hne (Option.some.inj (hd.symm.trans he) ▸ hnone)
    rw [h.known q hqp] at hd
    exact (h.mem_bucket _).mpr ⟨hs.held q d hd hne, hqp⟩
  · rw [h.detached] at hq
    obtain ⟨d, hd, hpl⟩ := hs.adrift r q hq
    have hqp : q ≠ p := by
      rintro rfl
      obtain ⟨e, he, hne⟩ := hp
      obtain rfl := Option.some.inj (hd.symm.trans he)
      simp only [PathData.place, Prod.mk.injEq] at hpl
      rw [hpl.1] at hne
      cases hne
    exact ⟨d, (h.known q hqp).trans hd, hpl⟩
  · obtain ⟨hf, -⟩ := h.files.mp hf
    rw [h.tree] at hw
    have hadopts := hs.linked q pos d hf hw
    unfold Adopts at hadopts ⊢
    cases hc : pos.container.parent? with
    | none => simpa [hc] using hadopts
    | some m =>
      rw [hc] at hadopts
      obtain ⟨r, hr, e, he, hem⟩ := hadopts
      have hrp : r ≠ p := by
        rintro rfl
        exact hn (hp.unique_node ⟨e, he, hem⟩ ▸ hw m hc)
      exact ⟨r, hr, e, (h.known r hrp).trans he, hem⟩

end Parted

end Session

section Resync

variable {s : Session} {K : Set NodeId} {p : PathId} {pos : Position} {d : PathData} {n m : NodeId}

/-- The position in the same field of another node, which is where a path is moved to. -/
def Position.under (m : NodeId) : Position → Position
  | .root => .root
  | .slot _ f => .slot m f
  | .item _ f i => .item m f i

theorem Position.under_of_parent (h : pos.parent? = some m) : pos.under m = pos := by
  cases pos with
  | root => cases h
  | slot | item => rw [← Option.some.inj h]; rfl

/-- A path is moved to another bucket exactly when the position is one below another node. -/
theorem PathId.rehomed?_eq_some {c : Container} (h : PathId.rehomed? pos.container m = some c) :
    c = (pos.under m).container ∧ pos.key = (pos.under m).key ∧ pos.under m ≠ pos ∧
      (pos.under m).parent? = some m := by
  cases pos with
  | root => cases h
  | slot old f =>
    simp only [Position.container, PathId.rehomed?] at h
    split at h
    · cases h
    · next hne =>
      cases h
      exact ⟨rfl, rfl, fun heq => hne (by cases heq; rfl), rfl⟩
  | item old f i =>
    simp only [Position.container, PathId.rehomed?] at h
    split at h
    · cases h
    · next hne =>
      cases h
      exact ⟨rfl, rfl, fun heq => hne (by cases heq; rfl), rfl⟩

/-- A container below a node of a forest has no key for what stands elsewhere. -/
theorem PathId.keyOf?_run (hF : s.tree.Forest K) (hm : m ∈ K) (hn : ¬ s.tree.IsChild m n)
    (hpos : pos.parent? = some m) : PathId.keyOf? pos.container n s = .ok none s := by
  obtain ⟨k, hk⟩ := hF.kind m hm
  have hnot : ∀ f c, (f, c) ∈ k.fields → n ∉ c.ids := fun f c hfc hmem =>
    hn ((s.tree.isChild_iff m n).mpr ⟨k, hk, List.mem_flatMap.mpr ⟨_, hfc, hmem⟩⟩)
  cases pos with
  | root => cases hpos
  | slot owner f =>
    obtain rfl := Option.some.inj hpos
    show ((ask fun t => t.kind? owner) >>= _) s = _
    rw [bind_of_ok (ask_run hk)]
    have hfind : (k.fields.find? fun e => e.2.node? == some n) = none := by
      refine List.find?_eq_none.mpr fun e he hnode => hnot e.1 e.2 he ?_
      have hnode : e.2.node? = some n := by simpa using hnode
      cases hc : e.2 with
      | one | opt | many => simp_all [Child.node?, Child.ids]
    rw [hfind]
    rfl
  | item owner f i =>
    obtain rfl := Option.some.inj hpos
    show ((ask fun t => t.kind? owner) >>= _) s = _
    rw [bind_of_ok (ask_run hk)]
    have hlist : n ∉ ((k.child? f).bind Child.list?).getD [] := by
      cases hc : k.child? f with
      | none => simp
      | some c =>
        have hids := hnot f c ((k.child?_eq_some_iff f c).mp hc)
        cases c with
        | many ids => exact hids
        | one | opt => simp [Child.list?]
    rw [List.idxOf?_eq_none_iff.mpr hlist]
    rfl

/-- What moving a path to another bucket and removing it comes to. -/
theorem Session.Sound.parted_dropped (hs : s.Sound K) (hf : s.Files p pos d) (c : Container) :
    s.Parted p ((s.rehomed p d.container c).dropped c p) := by
  have hpaths : ((s.rehomed p d.container c).dropped c p).paths =
      (s.rehomed p d.container c).paths.modify p.index fun d =>
        { d with removed := true, skip := true, node := none } := rfl
  rw [paths_rehomed] at hpaths
  refine ⟨?_, ?_, ?_, fun c' => ?_, fun q hq => ?_, ?_⟩
  · show ((s.rehomed p d.container c).unfiled c p).tree = _
    rw [tree_unfiled]
    exact tree_unfiled _ _
  · show ((s.rehomed p d.container c).unfiled c p).scopes = _
    rw [scopes_unfiled]
    exact scopes_unfiled _ _
  · show ((s.rehomed p d.container c).unfiled c p).detached = _
    rw [detached_unfiled]
    exact detached_unfiled _ _
  · -- The path is in the bucket of its own container only.
    have hother : c' ≠ d.container → (s.bucket c').filter (fun q => decide (q ≠ p)) =
        s.bucket c' := by
      intro hc
      refine List.filter_eq_self.mpr fun q hq => decide_eq_true fun hqp => hc ?_
      subst hqp
      obtain ⟨pos', d', hpos', -, hf'⟩ := hs.filed c' q hq
      obtain ⟨rfl, -⟩ := hf'.position_unique hf
      rw [← hpos', hf.container]
    have hrehomed : (s.rehomed p d.container c).bucket c' =
        if c' = c then (s.unfiled d.container p).bucket c ++ [p]
        else (s.unfiled d.container p).bucket c' := Session.bucket_insert _ _ _ _
    show ((s.rehomed p d.container c).unfiled c p).bucket c' = _
    rw [bucket_unfiled]
    by_cases hc : c' = c
    · subst hc
      rw [if_pos rfl, hrehomed, if_pos rfl, List.filter_append, bucket_unfiled]
      by_cases hold : c' = d.container
      · rw [if_pos hold, ← hold, List.filter_filter]
        simp
      · rw [if_neg hold]
        simp
    · rw [if_neg hc, hrehomed, if_neg hc, bucket_unfiled]
      by_cases hold : c' = d.container
      · rw [if_pos hold, hold]
      · rw [if_neg hold, hother hold]
  · rw [hpaths, getElem?_modify_paths, if_neg hq, getElem?_modify_paths, if_neg hq]
  · rw [hpaths, getElem?_modify_paths, if_pos rfl, getElem?_modify_paths, if_pos rfl, hf.data]
    exact ⟨_, rfl, rfl⟩

/-- The container of a path follows the node of its parent path, if there is another one. -/
theorem PathId.resyncParent_cases (hs : s.Sound K) (hd : s.paths[p.index]? = some d) :
    p.resyncParent s = .ok () s ∨ (∃ e, p.resyncParent s = .error e s) ∨
      ∃ m c, m ∈ K ∧ PathId.rehomed? d.container m = some c ∧
        p.resyncParent s = .ok () (s.rehomed p d.container c) := by
  unfold PathId.resyncParent
  rw [bind_of_ok (p.data_run hd)]
  cases hparent : d.parent with
  | none => exact .inl rfl
  | some q =>
    show (q.node? >>= _) s = _ ∨ (∃ e, (q.node? >>= _) s = _) ∨ ∃ m c, _ ∧ _ ∧
      (q.node? >>= _) s = _
    cases hq : s.paths[q.index]? with
    | none =>
      have hunknown : q.node? s = .error .dangling s := by
        show (q.data >>= _) s = _
        rw [bind_of_error (q.data_unknown hq)]
      exact .inr (.inl ⟨_, bind_of_error hunknown⟩)
    | some e =>
      rw [bind_of_ok (q.node?_run hq)]
      cases hm : e.node with
      | none => exact .inl rfl
      | some m =>
        cases hc : PathId.rehomed? d.container m with
        | none => exact .inl (by dsimp only; rw [hc]; rfl)
        | some c =>
          refine .inr (.inr ⟨m, c, hs.mem_of_holds ⟨e, hq, hm⟩, hc, ?_⟩)
          dsimp only
          rw [hc]
          exact PathId.moveToContainer_run hd c

/-- Bringing a path in step whose node cannot be found below the node of its parent removes it;
otherwise nothing changes. -/
theorem PathId.resync_cases (hs : s.Sound K) (hp : s.Holds p n) :
    after p.resync s = s ∨ ¬ s.tree.Reachable n ∧ s.Parted p (after p.resync s) := by
  obtain ⟨pos, d, hw, hf, hocc⟩ := hs.files_of_holds hp
  by_cases hn : s.tree.Reachable n
  · obtain ⟨pos', hw', hl, hocc'⟩ := hs.linked_of_reachable hp hn
    have hwK := Position.within_mono (fun m hm => hs.forest.mem_of_reachable hm) hw'
    exact .inl (after_of_ok (PathId.resync_run hs hwK hl hocc'))
  have hremoved : p.isRemoved s = .ok false s := by rw [p.isRemoved_run hf.data, hf.live]
  have hresync : after p.resync s = after (p.resyncParent >>= fun _ => p.resyncKey) s := by
    unfold PathId.resync
    simp only [after]
    rw [bind_of_ok hremoved]
    rfl
  rw [hresync]
  rcases PathId.resyncParent_cases hs hf.data with hsame | ⟨e, herror⟩ | ⟨m, c, hm, hc, hmoved⟩
  · have hkey : p.resyncKey s = .ok () s := by
      unfold PathId.resyncKey
      rw [bind_of_ok (p.data_run hf.data), hf.node.trans hocc, hf.container, hf.key]
      show (nodeAt pos.container pos.key >>= _) s = _
      rw [bind_of_ok (nodeAt_run pos (hs.kind_parent hw)), if_pos hocc]
      rfl
    exact .inl (after_of_ok ((bind_of_ok hsame).trans hkey))
  · exact .inl (after_of_error (bind_of_error herror))
  · -- Nothing else of the forest holds the node.
    rw [hf.container] at hc
    obtain ⟨rfl, hkey, hne, hparent⟩ := PathId.rehomed?_eq_some hc
    let s₁ := s.rehomed p d.container (pos.under m).container
    have hw' : (pos.under m).Within K := Position.within_of_parent hparent hm
    have htree : s₁.tree = s.tree := tree_unfiled _ _
    have hd₁ : s₁.paths[p.index]? = some { d with container := (pos.under m).container } := by
      rw [paths_rehomed, getElem?_modify_paths, if_pos rfl, hf.data]
      rfl
    have hsingle : ∀ pos' : Position, pos'.parent? = some m → s.tree.occupant? pos' ≠ some n := by
      intro pos' hpos' hn'
      obtain rfl := hs.forest.single pos' pos n (Position.within_of_parent hpos' hm) hw hn' hocc
      exact hne (Position.under_of_parent hpos')
    have hchild : ¬ s₁.tree.IsChild m n := by
      rintro ⟨pos', hpos', hn'⟩
      exact hsingle pos' hpos' (htree ▸ hn')
    have hmarked : p.resyncKey s₁ = .ok () (s₁.dropped (pos.under m).container p) := by
      unfold PathId.resyncKey
      rw [bind_of_ok (p.data_run hd₁)]
      dsimp only
      rw [hf.node.trans hocc]
      show (nodeAt (pos.under m).container d.key >>= _) s₁ = _
      rw [hf.key, hkey, bind_of_ok (nodeAt_run (s := s₁) (pos.under m) (by
          rw [htree]
          exact hs.kind_parent hw')), htree, if_neg (hsingle _ hparent),
        if_neg (pos.under m).container_ne_detached,
        bind_of_ok (PathId.keyOf?_run (htree ▸ hs.forest) hm hchild hparent)]
      exact PathId.markRemoved_run hd₁
    rw [after_of_ok ((bind_of_ok hmoved).trans hmarked)]
    exact .inr ⟨hn, hs.parted_dropped hf _⟩

/-- A path without a node has no position, or one that can be reached. -/
def Session.Anchored (s : Session) (p : PathId) : Prop :=
  ∀ d, s.paths[p.index]? = some d → d.removed = false → d.node = none → d.container = .detached ∨
    ∃ pos, s.Files p pos d ∧ pos.Within s.tree.reachable

theorem PathId.resync_sound (hs : s.Sound K) (hp : s.Anchored p) :
    (after p.resync s).Sound K ∧ (after p.resync s).tree = s.tree ∧
      (after p.resync s).scopes = s.scopes := by
  suffices hcases : after p.resync s = s ∨ ∃ n, s.Holds p n ∧ ¬ s.tree.Reachable n ∧
      s.Parted p (after p.resync s) by
    rcases hcases with hsame | ⟨n, hpn, hn, hparted⟩
    · rw [hsame]
      exact ⟨hs, rfl, rfl⟩
    · exact ⟨hs.parted hparted hpn hn, hparted.tree, hparted.scopes⟩
  cases hd : s.paths[p.index]? with
  | none =>
    have hunknown : p.isRemoved s = .error .dangling s := by
      show (p.data >>= _) s = _
      rw [bind_of_error (p.data_unknown hd)]
    exact .inl (after_of_error (bind_of_error hunknown))
  | some d =>
    cases hn : d.node with
    | some n =>
      rcases PathId.resync_cases hs ⟨d, hd, hn⟩ with hsame | ⟨hunreached, hparted⟩
      · exact .inl hsame
      · exact .inr ⟨n, ⟨d, hd, hn⟩, hunreached, hparted⟩
    | none =>
      refine .inl ?_
      have hresync : d.removed = false →
          p.resync s = (p.resyncParent >>= fun _ => p.resyncKey) s := by
        intro hlive
        unfold PathId.resync
        rw [bind_of_ok (p.isRemoved_run hd), hlive]
        rfl
      have hkey : p.resyncKey s = .ok () s := by
        unfold PathId.resyncKey
        rw [bind_of_ok (p.data_run hd), hn]
        rfl
      cases hremoved : d.removed with
      | true =>
        refine after_of_ok (a := ()) ?_
        unfold PathId.resync
        rw [bind_of_ok (p.isRemoved_run hd), hremoved]
        rfl
      | false =>
        have hparent : p.resyncParent s = .ok () s ∨ ∃ e, p.resyncParent s = .error e s := by
          rcases hp d hd hremoved hn with hdetached | ⟨pos, hf, hw⟩
          · rcases PathId.resyncParent_cases hs hd with hsame | herror | ⟨m, c, -, hc, -⟩
            · exact .inl hsame
            · exact .inr herror
            · rw [hdetached] at hc
              cases hc
          · exact .inl (PathId.resyncParent_run hd (hf.container ▸ hs.linked p pos d hf hw))
        rcases hparent with hsame | ⟨e, herror⟩
        · exact after_of_ok ((hresync hremoved).trans ((bind_of_ok hsame).trans hkey))
        · exact after_of_error ((hresync hremoved).trans (bind_of_error herror))

end Resync

/-! ## Sessions that only new nodes come into -/

/-- The sessions that a client can get to with nodes that were never in the tree, and the nodes that
are or were in it. A path that is brought in step holds a node, or stands where it can be reached. -/
inductive Session.Tended : Set NodeId → Session → Prop
  | opened {t : Tree} {config : Config} {s : Session} (ht : t.IsProgram)
      (hopen : Session.open? t config = .ok s) : Tended t.reachable s
  | moved {K : Set NodeId} {s : Session} (m : Move) (h : Tended K s) : Tended K (after m.run s)
  | crawled {K : Set NodeId} {s : Session} (h : Tended K s) : Tended K (after crawl s)
  | built {K : Set NodeId} {s : Session} {t : Tree} (h : Tended K s) (hgrown : s.tree.Grown t)
      (hsmall : t.size ≤ Tree.maxSize) : Tended K { s with tree := t }
  | resynced {K : Set NodeId} {s : Session} {p : PathId} (h : Tended K s) (hp : s.Anchored p) :
      Tended K (after p.resync s)
  | edited {K : Set NodeId} {s : Session} {p : PathId} {owner n : NodeId} {f : Field}
      {ids : List NodeId} (e : ElementEdit) (h : Tended K s) (howner : s.tree.Reachable owner)
      (hlist : s.tree.list? owner f = some ids) (hp : s.Holds p n) (hn : n ∈ ids)
      (hloose : s.tree.Loose K e.nodes) (hfits : e.Fits s.tree owner n ids) :
      Tended (K ∪ s.tree.below e.nodes) (after (e.run p) s)
  | pushed {K : Set NodeId} {s : Session} {host : PathId} {owner : NodeId} {f : Field}
      {ids nodes : List NodeId} (h : Tended K s) (hhost : s.Holds host owner)
      (howner : s.tree.Reachable owner) (hlist : s.tree.list? owner f = some ids)
      (hloose : s.tree.Loose K nodes) :
      Tended (K ∪ s.tree.below nodes) (after (host.pushInto f nodes) s)
  | unshifted {K : Set NodeId} {s : Session} {host : PathId} {owner : NodeId} {f : Field}
      {ids nodes : List NodeId} (h : Tended K s) (hhost : s.Holds host owner)
      (howner : s.tree.Reachable owner) (hlist : s.tree.list? owner f = some ids)
      (hloose : s.tree.Loose K nodes) :
      Tended (K ∪ s.tree.below nodes) (after (host.unshiftInto f nodes) s)
  | replaced {K : Set NodeId} {s : Session} {p : PathId} {n new : NodeId} {k knew : NodeKind}
      (h : Tended K s) (hp : s.Holds p n) (hn : s.tree.Reachable n) (hloose : s.tree.Loose K [new])
      (hk : s.tree.kind? n = some k) (hknew : s.tree.kind? new = some knew)
      (hsuits : k.type.Suits knew.type) :
      Tended (K ∪ s.tree.below [new]) (after (p.replaceWith (.node new)) s)

namespace Session.Tended

variable {K : Set NodeId} {s : Session}

/-- Every such session is in order. -/
theorem orderly (h : Tended K s) : s.Orderly K := by
  induction h with
  | opened ht hopen =>
    obtain ⟨s', hopen', -, horderly⟩ := open?_orderly ht _
    rwa [Except.ok.inj (hopen.symm.trans hopen')]
  | @moved K s m h ih =>
    have hwent : s.Went K (after m.run s) := m.roaming s K ih.sound
    exact ih.surveys (hwent.surveys ih.ordered)
  | @crawled K s h ih =>
    have ha : s.Alike { s with scopes := {} } := ⟨.refl _, rfl, rfl, fun _ => rfl⟩
    have hcleared : Orderly { s with scopes := {} } K :=
      ih.alike ha rfl (ScopeTable.ordered_empty false)
    obtain ⟨_, s', hrun, -, horderly⟩ := ensureScopes_surveys hcleared rfl
    have hcrawl : crawl s = .ok s'.scopes.root s' := by
      unfold crawl
      rw [run_modify_bind, bind_of_ok hrun]
      rfl
    rwa [after_of_ok hcrawl]
  | built h hgrown hsmall ih => exact (ih.rooted.grown hgrown).orderly hsmall
  | resynced h hp ih =>
    obtain ⟨hsound, htree, hscopes⟩ := PathId.resync_sound ih.sound hp
    exact ⟨hsound, hscopes ▸ ih.ordered, htree ▸ ih.program⟩
  | @edited K s p owner n f ids e h howner hlist hp hn hloose hfits ih =>
    -- The path of the element is linked to the path of the owner.
    obtain ⟨i, hi⟩ := List.mem_iff_getElem?.mp hn
    have hocc : s.tree.occupant? (.item owner f i) = some n := by
      simp [Tree.occupant?, hlist, hi]
    obtain ⟨pos, hw, hl, hocc'⟩ := ih.sound.linked_of_reachable hp
      (.child howner ⟨.item owner f i, rfl, hocc⟩)
    obtain rfl := ih.sound.forest.single pos (.item owner f i) n
      (Position.within_mono (fun m hm => ih.sound.forest.mem_of_reachable hm) hw)
      (Position.within_of_parent rfl (ih.sound.forest.mem_of_reachable howner)) hocc' hocc
    obtain ⟨d, -, host, -, hhost⟩ := hl
    obtain ⟨ps, s', hrun, hedited, -⟩ :=
      e.run_edited ⟨ih, hhost, howner, hlist⟩ hp hn hloose hfits
    rw [after_of_ok hrun]
    exact hedited.orderly
  | pushed h hhost howner hlist hloose ih =>
    obtain ⟨ps, s', hrun, hedited, -⟩ :=
      PathId.pushInto_returns ⟨ih, hhost, howner, hlist⟩ hloose
    rw [after_of_ok hrun]
    exact hedited.orderly
  | unshifted h hhost howner hlist hloose ih =>
    obtain ⟨ps, s', hrun, hedited, -⟩ :=
      PathId.unshiftInto_returns ⟨ih, hhost, howner, hlist⟩ hloose
    rw [after_of_ok hrun]
    exact hedited.orderly
  | replaced h hp hn hloose hk hknew hsuits ih =>
    obtain ⟨_, s', hrun, pos, -, -, hr⟩ :=
      PathId.replaceWith_replaces ih.rooted hp hn hloose hk hknew hsuits
    rw [after_of_ok hrun]
    exact hr.orderly ih

end Session.Tended

/-- The path is not removed, holds a node, and has the container and the key. -/
def Session.Occupies (s : Session) (p : PathId) (c : Container) (k : Key) : Prop :=
  ∃ d, s.paths[p.index]? = some d ∧ d.removed = false ∧ d.node ≠ none ∧ d.container = c ∧ d.key = k

theorem Session.occupies_of_place {s : Session} {p : PathId} {n : NodeId} {c : Container} {k : Key}
    (h : (s.paths[p.index]?).map PathData.place = some (some n, c, k, false)) :
    s.Occupies p c k := by
  obtain ⟨d, hd, hpl⟩ := Option.map_eq_some_iff.mp h
  simp only [PathData.place, Prod.mk.injEq] at hpl
  exact ⟨d, hd, hpl.2.2.2, by simp [hpl.1], hpl.2.1, hpl.2.2.1⟩

/-- Two different paths that are not removed and hold nodes never have the same container and
key. -/
theorem Session.Tended.places_apart {K : Set NodeId} {s : Session} (h : s.Tended K) {p q : PathId}
    {c : Container} {k : Key} (hpq : p ≠ q) (hp : s.Occupies p c k) : ¬ s.Occupies q c k := by
  rintro ⟨e, he, -, hen, hec, hek⟩
  obtain ⟨d, hd, -, hdn, hdc, hdk⟩ := hp
  have hs := h.orderly.sound
  obtain ⟨pos, d', -, -, hf⟩ := hs.filed _ p (hs.held p d hd hdn)
  obtain ⟨pos', e', -, -, hf'⟩ := hs.filed _ q (hs.held q e he hen)
  obtain rfl := Option.some.inj (hd.symm.trans hf.data)
  obtain rfl := Option.some.inj (he.symm.trans hf'.data)
  obtain rfl : pos = pos' := Position.eq_of_container_key
    (hf.container.symm.trans (hdc.trans (hec.symm.trans hf'.container)))
    (hf.key.symm.trans (hdk.trans (hek.symm.trans hf'.key)))
  exact hpq (hs.unique p q pos d e hf hf' hdn)

/-! ## An example -/

/-- The program `{ a; }`, and beside it a block `{ }` and a statement `;`. -/
def crowdedProgram : Tree where
  nodes := #[{ kind := .identifier "a" none }, { kind := .expressionStatement ⟨0⟩ },
    { kind := .blockStatement [⟨1⟩] }, { kind := .program [⟨2⟩] [] },
    { kind := .blockStatement [] }, { kind := .emptyStatement }]
  root := some ⟨3⟩

theorem crowdedProgram_isProgram : crowdedProgram.IsProgram :=
  .of_bottomUp (by decide) (by decide) (by decide) (by decide)

/-- The block has the path 1, and `a;` the path 2. -/
def crowdedStart : Session := Session.roam { tree := crowdedProgram, config := { lazyScopes := true } }
  [.root, .element ⟨0⟩ .body 0, .element ⟨1⟩ .body 0]

/-- The empty block stands in the place of the other one. -/
def crowdedReplaced : Session := after (PathId.replaceWith ⟨1⟩ (.node ⟨4⟩)) crowdedStart

/-- The path of `a;` was brought in step. -/
def crowdedSynced : Session := after (PathId.resync ⟨2⟩) crowdedReplaced

/-- The statement `;` came into the empty block. -/
def crowdedPushed : Session := after (PathId.pushInto ⟨1⟩ .body [⟨5⟩]) crowdedSynced

/-- The new statement has the first place of the new block, and the path of `a;` has not. -/
theorem crowdedProgram_apart : ∃ K, crowdedPushed.Tended K ∧ (⟨3⟩ : PathId) ≠ ⟨2⟩ ∧
    crowdedPushed.Occupies ⟨3⟩ (.list ⟨4⟩ .body) (.index 0) ∧
    ¬ crowdedPushed.Occupies ⟨2⟩ (.list ⟨4⟩ .body) (.index 0) := by
  have hout : ∀ i, i = 4 ∨ i = 5 → (⟨i⟩ : NodeId) ∉ crowdedProgram.reachable := by
    rintro i (rfl | rfl) <;> exact Tree.not_reachable (by decide) (by decide)
  let K := crowdedProgram.reachable ∪ crowdedStart.tree.below [⟨4⟩]
  have hopen : Session.open? crowdedProgram { lazyScopes := true } =
      .ok { tree := crowdedProgram, config := { lazyScopes := true } } := rfl
  have hopened := Tended.opened crowdedProgram_isProgram hopen
  have hstart : crowdedStart.Tended crowdedProgram.reachable :=
    .moved (.element ⟨1⟩ .body 0) (.moved (.element ⟨0⟩ .body 0) (.moved .root hopened))
  have hreplaced : crowdedReplaced.Tended K := by
    have hblock : crowdedStart.tree.kind? ⟨2⟩ = some (.blockStatement [⟨1⟩]) := rfl
    have hnew : crowdedStart.tree.kind? ⟨4⟩ = some (.blockStatement []) := rfl
    exact .replaced hstart ⟨_, rfl, rfl⟩
      (.child (.root rfl) ((Tree.isChild_iff _ _ _).mpr ⟨_, rfl, by decide⟩))
      (.leaf hnew rfl (hout 4 (.inl rfl))) hblock hnew (NodeType.suits_statement rfl (by decide) rfl)
  have hsynced : crowdedSynced.Tended K := by
    refine .resynced hreplaced fun d hd _ hn => ?_
    have hnode : (crowdedReplaced.paths[2]?).map PathData.node = some (some ⟨1⟩) := by
      decide +kernel
    rw [hd, Option.map_some, hn] at hnode
    cases hnode
  have hpushed : crowdedPushed.Tended (K ∪ crowdedSynced.tree.below [⟨5⟩]) := by
    have hroot : crowdedSynced.tree.root = some ⟨3⟩ ∧
        crowdedSynced.tree.kind? ⟨3⟩ = some (.program [⟨4⟩] []) ∧
        crowdedSynced.tree.kind? ⟨5⟩ = some .emptyStatement ∧
        crowdedSynced.tree.list? ⟨4⟩ .body = some [] ∧
        (crowdedSynced.paths[1]?).map PathData.node = some (some ⟨4⟩) := by decide +kernel
    obtain ⟨hroot, hprogram, hnew, hlist, hnode⟩ := hroot
    refine .pushed hsynced (Option.map_eq_some_iff.mp hnode)
      (.child (.root hroot) ((Tree.isChild_iff _ _ _).mpr ⟨_, hprogram, by decide⟩)) hlist
      (.leaf hnew rfl ?_)
    rintro (hreach | hbelow)
    · exact hout 5 (.inr rfl) hreach
    · exact absurd (Tree.eq_of_mem_below_leaf (k := .blockStatement []) rfl rfl hbelow) (by decide)
  have hnew : crowdedPushed.Occupies ⟨3⟩ (.list ⟨4⟩ .body) (.index 0) :=
    occupies_of_place (n := ⟨5⟩) (by decide +kernel)
  exact ⟨_, hpushed, by decide, hnew, hpushed.places_apart (by decide) hnew⟩

/-- Keep the path of `a;`, put a new block around the statement, go there again, and bring the first
path in step. -/
def crowding : SessionM (PathId × PathId) := do
  let outer ← (← rootPath).element .body 0
  let old ← outer.element .body 0
  outer.replaceWith (.node (← onTree (TreeM.block [⟨1⟩])))
  let new ← outer.element .body 0
  old.resync
  pure (old, new)

/-- The session when that is done. -/
def crowdedSession : Session :=
  after crowding { tree := crowdedProgram, config := { lazyScopes := true } }

/-- A statement that is attached again is held by two paths, which both have the first place of the
new block. The tree is a program. -/
theorem crowdedProgram_shares : crowdedProgram.IsProgram ∧
    Session.open? crowdedProgram { lazyScopes := true } =
      .ok { tree := crowdedProgram, config := { lazyScopes := true } } ∧
    crowding { tree := crowdedProgram, config := { lazyScopes := true } } =
      .ok (⟨2⟩, ⟨3⟩) crowdedSession ∧ crowdedSession.tree.IsProgram ∧
    ∀ p ∈ [(⟨2⟩ : PathId), ⟨3⟩], crowdedSession.Occupies p (.list ⟨6⟩ .body) (.index 0) := by
  refine ⟨crowdedProgram_isProgram, rfl, eq_ok_of_value? (by decide +kernel), ?_, fun p hp => ?_⟩
  · refine .of_ranked [⟨3⟩, ⟨6⟩, ⟨1⟩, ⟨0⟩] (fun n => [0, 1, 6, 3].idxOf n.index)
      (by decide +kernel) ⟨⟨3⟩, by decide, by decide +kernel, by decide +kernel⟩
      (by decide +kernel) ?_ (by decide +kernel)
    decide +kernel
  · have hplace : ∀ q ∈ [(⟨2⟩ : PathId), ⟨3⟩], (crowdedSession.paths[q.index]?).map PathData.place =
        some (some ⟨1⟩, .list ⟨6⟩ .body, .index 0, false) := by decide +kernel
    exact occupies_of_place (hplace p hp)

end Espalier
