import Espalier.Proofs.Clients
import Espalier.Proofs.ClosedBuilding
import Espalier.Proofs.ClosedScopes
import Espalier.Proofs.Succession

set_option autoImplicit false

/-! # What `resync` does to a path

To bring a path in step with the tree, its container is first made that of the node that its parent
path holds (`Session.homeOf`), and then its key is looked up again by its node. So the path either
ends up where its node stands, or is removed, because its node stands nowhere in that container; no
other path is touched, and a second `resync` finds nothing to do (`PathId.resync_settles`). -/

namespace Espalier

open SessionM Session

variable {s s' : Session} {p q : PathId} {d d' : PathData} {n m owner : NodeId} {c : Container} {k : Key}

/-! ## The container -/

/-- The container as one of another node. -/
def Container.under (c : Container) (m : NodeId) : Container :=
  match c with
  | .slot _ => .slot m
  | .list _ f => .list m f
  | .root | .detached => c

namespace Container

theorem under_under (c : Container) (m : NodeId) : (c.under m).under m = c.under m := by
  cases c <;> rfl

theorem owner_under (h : (c.under m).parent? = some owner) : owner = m := by
  cases c with
  | slot | list => exact (Option.some.inj h).symm
  | root | detached => cases h

end Container

theorem PathId.rehomed?_eq (c : Container) (m : NodeId) :
    PathId.rehomed? c m = if c.under m = c then none else some (c.under m) := by
  cases c with
  | root | detached => simp [rehomed?, Container.under]
  | slot old => simp [rehomed?, Container.under, eq_comm]
  | list old f => simp [rehomed?, Container.under, eq_comm]

namespace Session

/-- The node that the parent path of a path holds. -/
def ownerOf? (s : Session) (d : PathData) : Option NodeId :=
  d.parent.bind fun q => (s.paths[q.index]?).bind PathData.node

/-- The container that a path belongs in: that of the node which its parent path holds. -/
def homeOf (s : Session) (d : PathData) : Container :=
  match s.ownerOf? d with
  | none => d.container
  | some m => d.container.under m

theorem homeOf_of_holds (hq : d.parent = some q) (hm : s.Holds q m) :
    s.homeOf d = d.container.under m := by
  obtain ⟨e, he, hem⟩ := hm
  have howner : s.ownerOf? d = some m := by simp [ownerOf?, hq, he, hem]
  rw [homeOf, howner]

/-- In the second session the path, with what is known about it there, is where it belonged in the
first one. The tree and the other paths are the same. -/
structure Settled (s : Session) (p : PathId) (d d' : PathData) (s' : Session) : Prop where
  tree : s'.tree = s.tree
  data : s'.paths[p.index]? = some d'
  others : ∀ q, q ≠ p → s'.paths[q.index]? = s.paths[q.index]?
  frames : s'.frames = s.frames
  parent : d'.parent = d.parent
  container : d'.container = s.homeOf d
  notes : d'.notes = d.notes

/-- Something else is written to the path. -/
theorem Settled.modify {d₁ : PathData} (h : s.Settled p d d₁ s') (f : PathData → PathData)
    (hf : (f d₁).parent = d₁.parent ∧ (f d₁).container = d₁.container ∧ (f d₁).notes = d₁.notes) :
    s.Settled p d (f d₁) { s' with paths := s'.paths.modify p.index f } where
  tree := h.tree
  frames := h.frames
  data := by rw [getElem?_modify_paths, if_pos rfl, h.data, Option.map_some]
  others q hq := by rw [getElem?_modify_paths, if_neg hq, h.others q hq]
  parent := hf.1.trans h.parent
  container := hf.2.1.trans h.container
  notes := hf.2.2.trans h.notes

/-- Something is written to the path, and it leaves its bucket. -/
theorem Settled.dropped {d₁ : PathData} (h : s.Settled p d d₁ s') (c : Container) :
    s.Settled p d { d₁ with removed := true, skip := true, node := none } (s'.dropped c p) := by
  have h' := h.modify ({ · with removed := true, skip := true, node := none }) ⟨rfl, rfl, rfl⟩
  exact ⟨(tree_unfiled _ _).trans h.tree, h'.data, h'.others, (frames_unfiled _ _).trans h.frames,
    h.parent, h.container, h.notes⟩

/-- A path that is where it belonged, with the node that it had, is where it belongs. -/
theorem Settled.homeOf_eq (h : s.Settled p d d' s') (hd : s.paths[p.index]? = some d)
    (hnode : d'.node = d.node) : s'.homeOf d' = d'.container := by
  have hnodes : ∀ q : PathId, (s'.paths[q.index]?).bind PathData.node =
      (s.paths[q.index]?).bind PathData.node := by
    intro q
    by_cases hq : q = p
    · subst hq
      rw [h.data, hd]
      exact hnode
    · rw [h.others q hq]
  have howner : s'.ownerOf? d' = s.ownerOf? d := by simp only [ownerOf?, h.parent, hnodes]
  rw [homeOf, howner, h.container, homeOf]
  cases s.ownerOf? d with
  | none => rfl
  | some m => exact Container.under_under _ _

end Session

namespace PathId

/-- The path is moved to where it belongs. -/
theorem resyncParent_run_home (hd : s.paths[p.index]? = some d)
    (hparent : ∀ q, d.parent = some q → ∃ e, s.paths[q.index]? = some e) :
    p.resyncParent s = .ok () (if s.homeOf d = d.container then s
      else s.rehomed p d.container (s.homeOf d)) := by
  unfold resyncParent
  rw [bind_of_ok (p.data_run hd)]
  cases hq : d.parent with
  | none =>
    have hhome : s.homeOf d = d.container := by simp [homeOf, ownerOf?, hq]
    rw [if_pos hhome]
    rfl
  | some q =>
    obtain ⟨e, he⟩ := hparent q hq
    refine (bind_of_ok (q.node?_run he)).trans ?_
    cases hm : e.node with
    | none =>
      have hhome : s.homeOf d = d.container := by simp [homeOf, ownerOf?, hq, he, hm]
      rw [if_pos hhome]
      rfl
    | some m =>
      rw [homeOf_of_holds hq ⟨e, he, hm⟩]
      dsimp only
      rw [rehomed?_eq]
      by_cases hsame : d.container.under m = d.container
      · rw [if_pos hsame, if_pos hsame]
        rfl
      · rw [if_neg hsame, if_neg hsame]
        exact moveToContainer_run hd _

/-- Moving a path to where it belongs touches nothing else of it, and no other path. -/
theorem resyncParent_returns (hs : s.Tidy) (hd : s.paths[p.index]? = some d)
    (hlive : d.removed = false)
    (hparent : ∀ q, d.parent = some q → ∃ e, s.paths[q.index]? = some e) :
    ∃ s₁, p.resyncParent s = .ok () s₁ ∧ s₁.Tidy ∧
      s.Settled p d { d with container := s.homeOf d } s₁ := by
  have hrun := resyncParent_run_home hd hparent
  have htidy := (resyncParent_quiet p s hs ⟨d, hd, hlive⟩).tidy
  rw [after_of_ok hrun] at htidy
  refine ⟨_, hrun, htidy, ?_⟩
  split
  · next hhome => exact ⟨rfl, by rw [hd, hhome], fun _ _ => rfl, rfl, rfl, rfl, rfl⟩
  · refine ⟨tree_unfiled _ _, ?_, fun q hq => ?_, frames_unfiled _ _, rfl, rfl, rfl⟩
    · rw [paths_rehomed, getElem?_modify_paths, if_pos rfl, hd]
      rfl
    · rw [paths_rehomed, getElem?_modify_paths, if_neg hq]

end PathId

/-! ## The key -/

/-- The node stands nowhere in the container. -/
def Tree.Lacks (t : Tree) (c : Container) (n : NodeId) : Prop :=
  ∀ pos : Position, pos.container = c → t.occupant? pos ≠ some n

/-- What stands at a container and a key is found, if the owner exists. -/
theorem nodeAt_run_of_owner (h : ∀ m, c.parent? = some m → ∃ k, s.tree.kind? m = some k) (k : Key) :
    nodeAt c k s = .ok ((c.position? k).bind s.tree.occupant?) s := by
  cases hpos : c.position? k with
  | none =>
    have hrun : nodeAt c k s = .ok none s := by
      unfold nodeAt
      cases c <;> cases k <;> simp_all [Container.position?]
    exact hrun
  | some pos =>
    have hplace : nodeAt c k = nodeAt pos.container pos.key ∧ pos.parent? = c.parent? := by
      cases c <;> cases k <;> simp [Container.position?] at hpos <;> subst hpos <;> exact ⟨rfl, rfl⟩
    rw [hplace.1, nodeAt_run pos fun m hm => h m (hplace.2 ▸ hm)]
    rfl

namespace PathId

/-- Where no key is found for a node, the node is not there. -/
theorem lacks_of_keyOf? (h : keyOf? c n s = .ok none s')
    (hroot : c = .root → s.tree.root ≠ some n) (hc : c ≠ .detached) : s.tree.Lacks c n := by
  rintro pos rfl hocc
  unfold keyOf? at h
  cases pos with
  | root => exact hroot rfl hocc
  | slot owner f =>
    obtain ⟨kind, s₁, hask, hpure⟩ := bind_eq_ok h
    obtain ⟨rfl, hkind⟩ := ask_eq_ok hask
    obtain ⟨hnone, -⟩ := EStateM.Result.ok.inj hpure
    rw [Option.map_eq_none_iff, List.find?_eq_none] at hnone
    obtain ⟨child, hchild, hn⟩ := Option.bind_eq_some_iff.mp hocc
    rw [Tree.field?, hkind] at hchild
    have hmem := (kind.child?_eq_some_iff f child).mp hchild
    exact hnone _ hmem (by simpa using hn)
  | item owner f i =>
    obtain ⟨kind, s₁, hask, hpure⟩ := bind_eq_ok h
    obtain ⟨rfl, hkind⟩ := ask_eq_ok hask
    obtain ⟨hnone, -⟩ := EStateM.Result.ok.inj hpure
    rw [Option.map_eq_none_iff, List.idxOf?_eq_none_iff] at hnone
    obtain ⟨ids, hlist, hi⟩ := Option.bind_eq_some_iff.mp hocc
    have hids : (kind.child? f).bind Child.list? = some ids := by
      rw [← hlist, Tree.list?, Tree.field?, hkind]
      rfl
    rw [hids] at hnone
    exact hnone (List.mem_of_getElem? hi)

theorem keyOf?_run_of_owner (h : ∀ m, c.parent? = some m → ∃ k, s.tree.kind? m = some k)
    (n : NodeId) : ∃ o, keyOf? c n s = .ok o s := by
  unfold keyOf?
  cases c with
  | root | detached => exact ⟨none, rfl⟩
  | slot owner | list owner f =>
    obtain ⟨kind, hkind⟩ := h owner rfl
    exact ⟨_, bind_of_ok (ask_run hkind)⟩

/-- The key follows the node, or the path is removed because its node stands nowhere in its
container. -/
theorem resyncKey_cases (hs : s.Tidy) (hd : s.paths[p.index]? = some d)
    (howner : ∀ m, d.container.parent? = some m → ∃ k, s.tree.kind? m = some k) :
    (p.resyncKey s = .ok () s ∧
      ∀ n, d.node = some n → d.position?.bind s.tree.occupant? = some n) ∨
    ∃ n, d.node = some n ∧
      ((∃ k, p.resyncKey s = .ok () { s with paths := s.paths.modify p.index ({ · with key := k }) } ∧
        (d.container.position? k).bind s.tree.occupant? = some n) ∨
      p.resyncKey s = .ok () (s.dropped d.container p) ∧ d.container ≠ .detached ∧
        s.tree.Lacks d.container n) := by
  unfold resyncKey
  rw [bind_of_ok (p.data_run hd)]
  cases hn : d.node with
  | none => exact .inl ⟨rfl, nofun⟩
  | some n =>
    have hat := nodeAt_run_of_owner howner d.key
    have hopen : ∀ x : SessionM Unit, (nodeAt d.container d.key >>= fun o =>
        if o = some n then pure () else x) s =
          if d.position?.bind s.tree.occupant? = some n then .ok () s else x s := fun x => by
      rw [bind_of_ok hat]
      exact apply_ite (fun y : SessionM Unit => y s) _ _ _
    by_cases hfits : d.position?.bind s.tree.occupant? = some n
    · exact .inl ⟨(hopen _).trans (if_pos hfits), fun m hm => hfits.trans hm⟩
    · have hplaced : d.container ≠ .detached := fun hc => by
        rw [(hs.fit p d hd).adrift hc] at hn
        cases hn
      refine .inr ⟨n, rfl, ?_⟩
      obtain ⟨o, hkey⟩ := keyOf?_run_of_owner howner n
      have hrest : ∀ y : Option Key → SessionM Unit, (if d.container = .detached then pure ()
          else keyOf? d.container n >>= y) s = y o s := fun y => by
        rw [if_neg hplaced, bind_of_ok hkey]
      cases o with
      | some k =>
        obtain ⟨-, hfound⟩ := keyOf?_eq_ok hkey
        obtain ⟨pos, hpos, hocc⟩ := hfound k rfl
        refine .inl ⟨k, ?_, by rw [hpos]; exact hocc⟩
        refine ((hopen _).trans (if_neg hfits)).trans ((hrest _).trans ?_)
        exact p.modifyData_run hd _
      | none =>
        refine .inr ⟨?_, hplaced, lacks_of_keyOf? hkey (fun hroot hr => hfits ?_) hplaced⟩
        · refine ((hopen _).trans (if_neg hfits)).trans ((hrest _).trans ?_)
          exact markRemoved_run hd
        · rw [PathData.position?, hroot]
          exact hr

end PathId

/-! ## Paths in step with the tree -/

namespace Session

/-- What is known about a path agrees with the tree: it is not removed, its node, if it has one,
stands where the path lives, and its container is one of the node that its parent path holds. -/
structure InStep (s : Session) (d : PathData) : Prop where
  live : d.removed = false
  stands : ∀ n, d.node = some n → ∃ pos, d.position? = some pos ∧ s.tree.occupant? pos = some n
  owner : ∀ q m owner, d.parent = some q → s.Holds q m → d.container.parent? = some owner →
    owner = m

/-- A removed path has no node and is in no bucket. -/
theorem Tidy.gone (h : s.Tidy) (hd : s.paths[p.index]? = some d) (hr : d.removed = true) :
    d.node = none ∧ ∀ c, p ∉ s.bucket c := by
  refine ⟨((h.fit p d hd).removed hr).1, fun c hb => ?_⟩
  have hlive := (h.container_eq hd hb).2
  rw [hr] at hlive
  cases hlive

/-- A path that lives where it belongs, with its node, is in step. -/
theorem inStep_of_home (hlive : d.removed = false) (hhome : s.homeOf d = d.container)
    (hfits : ∀ n, d.node = some n → d.position?.bind s.tree.occupant? = some n) : s.InStep d where
  live := hlive
  stands n hn := Option.bind_eq_some_iff.mp (hfits n hn)
  owner q m owner hq hm ho := by
    rw [homeOf_of_holds hq hm] at hhome
    rw [← hhome] at ho
    exact Container.owner_under ho

end Session

namespace PathId

/-- A path that lives where it belongs, with its node, is left alone. -/
theorem resync_run_of_home (hd : s.paths[p.index]? = some d) (hlive : d.removed = false)
    (hparent : ∀ q, d.parent = some q → ∃ e, s.paths[q.index]? = some e)
    (howner : ∀ m, d.container.parent? = some m → ∃ k, s.tree.kind? m = some k)
    (hhome : s.homeOf d = d.container)
    (hfits : ∀ n, d.node = some n → d.position?.bind s.tree.occupant? = some n) :
    p.resync s = .ok () s := by
  have hremoved : p.isRemoved s = .ok false s := by rw [p.isRemoved_run hd, hlive]
  have hstay := resyncParent_run_home hd hparent
  rw [if_pos hhome] at hstay
  have hkey : p.resyncKey s = .ok () s := by
    unfold resyncKey
    rw [bind_of_ok (p.data_run hd)]
    cases hn : d.node with
    | none => rfl
    | some n =>
      have hat := nodeAt_run_of_owner howner d.key
      rw [show (d.container.position? d.key).bind s.tree.occupant? = some n from hfits n hn] at hat
      refine (bind_of_ok hat).trans ?_
      rw [if_pos rfl]
      rfl
  unfold resync
  rw [bind_of_ok hremoved]
  exact (bind_of_ok hstay).trans hkey

/-- A removed path is left alone. -/
theorem resync_run_of_removed (hd : s.paths[p.index]? = some d) (hr : d.removed = true) :
    p.resync s = .ok () s := by
  unfold resync
  rw [bind_of_ok (p.isRemoved_run hd), hr]
  rfl

theorem resync_run_of_live {s₁ : Session} (hd : s.paths[p.index]? = some d) (hr : d.removed = false)
    (hparent : p.resyncParent s = .ok () s₁) (hkey : p.resyncKey s₁ = .ok () s') :
    p.resync s = .ok () s' := by
  unfold resync
  rw [bind_of_ok (p.isRemoved_run hd), hr]
  exact (bind_of_ok hparent).trans hkey

/-- The owner of the container where a path belongs is in the tree. -/
theorem exists_kind_homeOf (h : s.Closed) (hd : s.paths[p.index]? = some d)
    (hm : (s.homeOf d).parent? = some m) : ∃ k, s.tree.kind? m = some k := by
  have hknown : s.Knows m := by
    unfold homeOf at hm
    split at hm
    · exact (h.paths.data p d hd).2.2 m hm
    · next m' hm' =>
      obtain rfl := Container.owner_under hm
      obtain ⟨q, -, hq⟩ := Option.bind_eq_some_iff.mp hm'
      obtain ⟨e, he, hem⟩ := Option.bind_eq_some_iff.mp hq
      exact (h.paths.data q e he).1 m hem
  obtain ⟨k, hk, -⟩ := h.exists_kind hknown
  exact ⟨k, hk⟩

/-- A path that is where it belonged, with the node that it had and that stands there, is in step, and
is left alone from then on. -/
theorem inStep_of_settled (hclosed : s.Closed) (hd : s.paths[p.index]? = some d)
    (h : s.Settled p d d' s') (hlive : d'.removed = false) (hnode : d'.node = d.node)
    (hfits : ∀ n, d'.node = some n → d'.position?.bind s.tree.occupant? = some n) :
    s'.InStep d' ∧ p.resync s' = .ok () s' := by
  have hhome := h.homeOf_eq hd hnode
  rw [← h.tree] at hfits
  refine ⟨inStep_of_home hlive hhome hfits, resync_run_of_home h.data hlive (fun q hq => ?_)
    (fun m hm => h.tree ▸ exists_kind_homeOf hclosed hd (h.container ▸ hm)) hhome hfits⟩
  by_cases hqp : q = p
  · exact ⟨d', hqp ▸ h.data⟩
  · rw [h.others q hqp]
    exact exists_data ((hclosed.paths.data p d hd).2.1 q (h.parent ▸ hq))

/-- A path that is not removed comes out in step with its node, or removed because its node stands
nowhere where it belongs. -/
theorem resync_returns (hs : s.Tidy) (hclosed : s.Closed) (hd : s.paths[p.index]? = some d)
    (hlive : d.removed = false) :
    ∃ s' d', p.resync s = .ok () s' ∧ s.Settled p d d' s' ∧
      (d'.removed = true ∧ (∃ n, d.node = some n ∧ s.tree.Lacks d'.container n) ∨
        d'.node = d.node ∧ s'.InStep d') ∧ p.resync s' = .ok () s' := by
  obtain ⟨s₁, hmove, hs₁, h₁⟩ := resyncParent_returns hs hd hlive fun q hq =>
    exists_data ((hclosed.paths.data p d hd).2.1 q hq)
  rcases resyncKey_cases hs₁ h₁.data fun m hm => h₁.tree ▸ exists_kind_homeOf hclosed hd hm with
    ⟨hkey, hfits⟩ | ⟨n, hn, ⟨k, hkey, hocc⟩ | ⟨hkey, -, hlacks⟩⟩
  · obtain ⟨hstep, hagain⟩ := inStep_of_settled hclosed hd h₁ hlive rfl (h₁.tree ▸ hfits)
    exact ⟨s₁, _, resync_run_of_live hd hlive hmove hkey, h₁, .inr ⟨rfl, hstep⟩, hagain⟩
  · have h₂ := h₁.modify ({ · with key := k }) ⟨rfl, rfl, rfl⟩
    obtain ⟨hstep, hagain⟩ := inStep_of_settled hclosed hd h₂ hlive rfl fun m hm => by
      obtain rfl := Option.some.inj (hn.symm.trans hm)
      rw [← h₁.tree]
      exact hocc
    exact ⟨_, _, resync_run_of_live hd hlive hmove hkey, h₂, .inr ⟨rfl, hstep⟩, hagain⟩
  · have h₂ := h₁.dropped (s.homeOf d)
    exact ⟨_, _, resync_run_of_live hd hlive hmove hkey, h₂, .inl ⟨rfl, n, hn, h₁.tree ▸ hlacks⟩,
      resync_run_of_removed h₂.data rfl⟩

/-- In every session that a client can get hold of, if all that it names is there: bringing a path in
step succeeds, and changes neither the tree nor what is known about any other path. The path comes
out removed, without a node and in no bucket, or it has the node that it had and is in step. Its
container becomes the one it belongs in, and it is removed only if its node stands nowhere in that
container. Bringing it in step once more changes nothing. -/
theorem resync_settles (h : s.Reached) (hclosed : s.Closed) (hd : s.paths[p.index]? = some d) :
    ∃ s' d', p.resync s = .ok () s' ∧ s'.tree = s.tree ∧ s'.paths[p.index]? = some d' ∧
      (∀ q, q ≠ p → s'.paths[q.index]? = s.paths[q.index]?) ∧
      ((d'.removed = true ∧ d'.node = none ∧ ∀ c, p ∉ s'.bucket c) ∨
        d'.node = d.node ∧ s'.InStep d') ∧
      (d.removed = false → d'.container = s.homeOf d ∧
        (d'.removed = true → ∃ n, d.node = some n ∧ s.tree.Lacks d'.container n)) ∧
      p.resync s' = .ok () s' := by
  have ht := h.tidy
  cases hr : d.removed with
  | true =>
    have hrun := resync_run_of_removed hd hr
    exact ⟨s, d, hrun, rfl, hd, fun _ _ => rfl, .inl ⟨hr, ht.gone hd hr⟩, nofun, hrun⟩
  | false =>
    obtain ⟨s', d', hrun, hsettled, hend, hagain⟩ := resync_returns ht hclosed hd hr
    refine ⟨s', d', hrun, hsettled.tree, hsettled.data, hsettled.others, ?_,
      fun _ => ⟨hsettled.container, fun hremoved => ?_⟩, hagain⟩
    · have ht' := (Tidying.resync p s ht).tidy
      rw [after_of_ok hrun] at ht'
      exact hend.imp_left fun hgone => ⟨hgone.1, ht'.gone hsettled.data hgone.1⟩
    · rcases hend with ⟨-, hlacks⟩ | ⟨-, hstep⟩
      · exact hlacks
      · rw [hstep.live] at hremoved
        cases hremoved

/-- Go to `a;` in the program `a; ;`, and then turn the list of its statements round. -/
def turnRound : WalkM Unit PathId := do
  let root ← WalkM.onSession rootPath
  let p ← WalkM.onSession (root.element .body 0)
  WalkM.onSession (modifyKind ⟨3⟩ fun k => k.setList .body [⟨2⟩, ⟨1⟩])
  pure p

/-- The session after that. -/
def turnedSession : Session :=
  (after turnRound { session := { tree := spareProgram, config := { lazyScopes := true } }
                     own := () }).session

theorem turnedSession_closed : turnedSession.Closed := by
  have ht : spareProgram.Closed := .of_nodes (by decide) (by decide)
  have hturn : Careful (do
      let root ← rootPath
      let p ← root.element .body 0
      modifyKind ⟨3⟩ fun k => k.setList .body [⟨2⟩, ⟨1⟩]
      pure p) { tree := spareProgram, config := { lazyScopes := true } } := by
    refine Careful.rootPath.bind fun root s₁ h₁ hroot => ?_
    refine (Careful.element hroot .body 0).bind fun p s₂ h₂ hp => ?_
    have hknown : ∀ i < 4, s₂.Knows (⟨i⟩ : NodeId) := fun i hi =>
      h₂.knows (h₁.knows (show i < spareProgram.size from hi))
    refine (Careful.modifyKind (hknown 3 (by decide)) fun k _ hk => ?_).bind fun _ s₃ h₃ _ =>
      .pure (h₃.knows hp)
    exact Session.knows_setList hk (by simp [hknown 1, hknown 2])
  exact (hturn (Session.closed_fresh ht _)).2.1

/-- The path of `a;` is found again in its new place. -/
theorem turnedSession_settles : turnedSession.Reached ∧ turnedSession.Closed ∧
    (turnedSession.paths[1]?.map fun d => (d.node, d.key)) = some (some ⟨1⟩, .index 0) ∧
    turnedSession.tree.occupant? (.item ⟨3⟩ .body 0) = some ⟨2⟩ ∧
    ∃ s' d', PathId.resync ⟨1⟩ turnedSession = .ok () s' ∧ s'.paths[1]? = some d' ∧
      d'.node = some ⟨1⟩ ∧ s'.InStep d' ∧ PathId.resync ⟨1⟩ s' = .ok () s' := by
  have hopen : Session.open? spareProgram { lazyScopes := true } =
    .ok { tree := spareProgram, config := { lazyScopes := true } } := rfl
  have hclient : Client turnRound := .bind (.call (.navigate Navigating.rootPath)) fun root =>
    .bind (.call (.navigate (Navigating.element root .body 0))) fun p =>
      .bind (.call (.onTree _)) fun _ => .pure p
  have hreached : turnedSession.Reached := .used () 0 (.opened hopen) hclient
  obtain ⟨d, hd, hplace⟩ : ∃ d, turnedSession.paths[1]? = some d ∧
      (d.node, d.container, d.parent, d.removed) = (some ⟨1⟩, .list ⟨3⟩ .body, some ⟨0⟩, false) :=
    ⟨_, rfl, rfl⟩
  simp only [Prod.mk.injEq] at hplace
  obtain ⟨hn, hc, hparent, hlive⟩ := hplace
  obtain ⟨s', d', hrun, -, hd', -, hend, hwhy, hagain⟩ :=
    resync_settles hreached turnedSession_closed (p := ⟨1⟩) hd
  refine ⟨hreached, turnedSession_closed, rfl, rfl, s', d', hrun, hd', ?_⟩
  rcases hend with ⟨hremoved, -⟩ | ⟨hnode, hstep⟩
  · obtain ⟨hhome, hlacks⟩ := hwhy hlive
    obtain ⟨n, hn', hlacks⟩ := hlacks hremoved
    obtain rfl := Option.some.inj (hn.symm.trans hn')
    have hholds : turnedSession.Holds ⟨0⟩ ⟨3⟩ := ⟨_, rfl, rfl⟩
    rw [hhome, homeOf_of_holds hparent hholds, hc] at hlacks
    exact absurd rfl (hlacks (.item ⟨3⟩ .body 1) rfl)
  · exact ⟨hnode.trans hn, hstep, hagain⟩

end PathId
end Espalier
