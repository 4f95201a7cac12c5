import Espalier.Edit.Place
import Espalier.Proofs.Declaring
import Espalier.Proofs.Rekeying

set_option autoImplicit false

/-! # Writing to lists

What the elementary edits of a list do to an orderly session: it stays orderly, the list holds
what it should, and paths keep the nodes they hold, except for those of the elements that left the
list (`Session.Edited`). -/

namespace Espalier

open SessionM

namespace Session

/-- A session whose paths are in step with its program tree and whose scopes are ordered. -/
structure Orderly (s : Session) (K : Set NodeId) : Prop where
  sound : s.Sound K
  ordered : s.scopes.Ordered
  program : s.tree.IsProgram

/-- The same without a bound on the tree: its nodes may be more than there are ids. -/
structure Rooted (s : Session) (K : Set NodeId) : Prop where
  sound : s.Sound K
  ordered : s.scopes.Ordered
  root : s.tree.Rooted

/-- The list of a node was changed in an orderly way; `K` becomes `K'`. -/
structure Edited (s : Session) (K' : Set NodeId) (owner : NodeId) (f : Field)
    (ids ids' : List NodeId) (s' : Session) : Prop where
  orderly : s'.Orderly K'
  list : s'.tree.list? owner f = some ids'
  owner : s'.tree.Reachable owner
  type : ∀ n, (s'.tree.kind? n).map NodeKind.type = (s.tree.kind? n).map NodeKind.type
  keeps : ∀ q n, s.Holds q n → (n ∈ ids → n ∈ ids') → s'.Holds q n
  gone : ∀ q, s.Gone q → s'.Gone q
  /-- The path of an element that is in the list no more was removed, or another node took the place
  of the element. -/
  fate : ∀ q n, s.Holds q n → n ∈ ids → n ∉ ids' → s'.Gone q ∨
    ∃ i m, ids[i]? = some n ∧ ids' = ids.set i m ∧ s'.Holds q m

end Session

/-! ## Program trees and forests -/

theorem Tree.Forest.mem_list {t : Tree} {K : Set NodeId} (hF : t.Forest K) {owner : NodeId}
    {f : Field} {ids : List NodeId} (howner : owner ∈ K) (hlist : t.list? owner f = some ids)
    {n : NodeId} (hn : n ∈ ids) : n ∈ K := by
  obtain ⟨i, hi⟩ := List.mem_iff_getElem?.mp hn
  refine hF.closed_child howner ⟨.item owner f i, rfl, ?_⟩
  simp [Tree.occupant?, hlist, hi]

/-- Indices into lists of a program tree are far from the largest one. -/
theorem Tree.maxSize_lt : Tree.maxSize < Key.maxIndex := by
  decide

namespace Session

section Orderly

variable {s s' : Session} {K : Set NodeId} {owner : NodeId} {f : Field}
  {ids ids' nodes : List NodeId}

theorem Rooted.orderly (h : s.Rooted K) (hsmall : s.tree.size ≤ Tree.maxSize) : s.Orderly K :=
  ⟨h.sound, h.ordered, h.sound.forest.isProgram hsmall h.root⟩

theorem Orderly.rooted (h : s.Orderly K) : s.Rooted K := ⟨h.sound, h.ordered, h.program.root⟩

theorem Rooted.surveys (h : s.Rooted K) (hs : s.Surveys K s') : s'.Rooted K :=
  ⟨hs.sound, hs.ordered, by rw [hs.tree]; exact h.root⟩

theorem Orderly.surveys (h : s.Orderly K) (hs : s.Surveys K s') : s'.Orderly K :=
  (h.rooted.surveys hs).orderly (by rw [hs.tree]; exact h.program.small)

/-- What does not touch the shape of the tree, the paths and the scopes keeps a session in order. -/
theorem Rooted.alike (h : s.Rooted K) (ha : s.Alike s') (hp : s'.paths = s.paths)
    (ho : s'.scopes.Ordered) : s'.Rooted K :=
  ⟨ha.sound_of_paths h.sound hp, ho, h.root.of_root ha.tree.root fun r _ => by rw [ha.tree.kind]⟩

theorem Orderly.alike (h : s.Orderly K) (ha : s.Alike s') (hp : s'.paths = s.paths)
    (ho : s'.scopes.Ordered) : s'.Orderly K :=
  (h.rooted.alike ha hp ho).orderly (by rw [ha.tree.size]; exact h.program.small)

theorem Orderly.list_nodup (h : s.Orderly K) (hr : s.tree.Reachable owner)
    (hlist : s.tree.list? owner f = some ids) : ids.Nodup :=
  h.sound.forest.nodup_list (h.sound.forest.mem_of_reachable hr) hlist

/-- A list of a program tree is no longer than there are indices. -/
theorem Orderly.length_lt (h : s.Orderly K) (hr : s.tree.Reachable owner)
    (hlist : s.tree.list? owner f = some ids) : ids.length < Key.maxIndex := by
  have howner := h.sound.forest.mem_of_reachable hr
  have hle := h.sound.forest.length_le_size
    (fun n hn => h.sound.forest.mem_list howner hlist hn) (h.list_nodup hr hlist)
  exact Nat.lt_of_le_of_lt (Nat.le_trans hle h.program.small) Tree.maxSize_lt

/-- An orderly session stays orderly when one of its lists is changed. -/
theorem Relists.edited (h : s.Relists owner f ids ids' s') (ho : s.Orderly K)
    (hloose : s.tree.Loose K nodes) (hr : s.tree.Reachable owner) (hnodup : ids'.Nodup)
    (hsub : ∀ n ∈ ids', n ∈ ids ∨ n ∈ nodes) :
    s.Edited (K ∪ s.tree.below nodes) owner f ids ids' s' := by
  have howner := ho.sound.forest.mem_of_reachable hr
  have hsound := h.sound ho.sound hloose howner hnodup hsub
  have hrooted : s'.Rooted (K ∪ s.tree.below nodes) :=
    ⟨hsound, by rw [h.scopes]; exact ho.ordered,
      ho.rooted.root.of_root h.tree.root fun r _ => h.tree.type? r⟩
  refine ⟨hrooted.orderly (by rw [h.tree.size]; exact ho.program.small), h.tree.list?',
    h.tree.reachable_owner ho.sound.forest howner hr, h.tree.type?, h.keeps, fun q hq => ?_,
    fun q n hq hn hout => .inl (h.fate q n hq hn hout)⟩
  -- A removed path is in no bucket.
  obtain ⟨d, hd, hremoved, hc⟩ := hq
  refine ⟨d, (h.known q fun hmem => ?_).trans hd, hremoved, hc⟩
  obtain ⟨e, i, hf⟩ := ho.sound.files_item hmem
  obtain rfl := Option.some.inj (hf.data.symm.trans hd)
  exact Bool.false_ne_true (hf.live.symm.trans hremoved)

/-- What comes after an edit and only adds to the session. -/
theorem Edited.surveys {K' : Set NodeId} (h : s.Edited K' owner f ids ids' s') {s₁ : Session}
    (hs : s'.Surveys K' s₁) : s.Edited K' owner f ids ids' s₁ where
  orderly := h.orderly.surveys hs
  list := by rw [hs.tree]; exact h.list
  owner := by rw [hs.tree]; exact h.owner
  type n := by rw [hs.tree]; exact h.type n
  keeps q n hq hn := hs.grew.holds h.orderly.sound (h.keeps q n hq hn)
  gone q hq := hs.grew.gone (h.gone q hq)
  fate q n hq hn hout := by
    rcases h.fate q n hq hn hout with hgone | ⟨i, m, hi, hids, hm⟩
    · exact .inl (hs.grew.gone hgone)
    · exact .inr ⟨i, m, hi, hids, hs.grew.holds h.orderly.sound hm⟩

/-- What comes after an edit and does not touch the shape of the tree and the paths. -/
theorem Edited.alike {K' : Set NodeId} (h : s.Edited K' owner f ids ids' s') {s₁ : Session}
    (ha : s'.Alike s₁) (hp : s₁.paths = s'.paths) (ho : s₁.scopes.Ordered) :
    s.Edited K' owner f ids ids' s₁ where
  orderly := h.orderly.alike ha hp ho
  list := by rw [ha.tree.list?]; exact h.list
  owner := by
    have hr : owner ∈ s₁.tree.reachable := by
      rw [ha.tree.reachable]
      exact h.owner
    exact hr
  type n := by rw [ha.tree.kind]; exact h.type n
  keeps q n hq hn := ha.holds (h.keeps q n hq hn)
  gone q hq := ha.gone (h.gone q hq)
  fate q n hq hn hout := by
    rcases h.fate q n hq hn hout with hgone | ⟨i, m, hi, hids, hm⟩
    · exact .inl (ha.gone hgone)
    · exact .inr ⟨i, m, hi, hids, ha.holds hm⟩

/-- What comes before an edit and does not touch the shape of the tree and the paths. -/
theorem Edited.of_alike {K' : Set NodeId} {s₁ : Session} (h : s₁.Edited K' owner f ids ids' s')
    (ha : s.Alike s₁) : s.Edited K' owner f ids ids' s' where
  orderly := h.orderly
  list := h.list
  owner := h.owner
  type n := (h.type n).trans (by rw [ha.tree.kind])
  keeps q n hq hn := h.keeps q n (ha.holds hq) hn
  gone q hq := h.gone q (ha.gone hq)
  fate q n hq hn hout := h.fate q n (ha.holds hq) hn hout

end Orderly

end Session

/-! ## Comments -/

namespace TreeM

theorem node_run {t : Tree} {id : NodeId} {n : Node} (h : t.node? id = some n) :
    (node id).run t = some (n, t) := by
  unfold node
  simp [h]

theorem modifyNode_run {t : Tree} {id : NodeId} {n : Node} (h : t.node? id = some n)
    (g : Node → Node) : (modifyNode id g).run t = some ((), t.modify id g) := by
  unfold modifyNode
  simp [node_run h]

/-- The computation succeeds and leaves a tree of the same shape. -/
def Decorates (x : TreeM Unit) (t : Tree) : Prop := ∃ t', x.run t = some ((), t') ∧ t.Alike t'

variable {t : Tree} {heir donor : NodeId}

theorem decorates_modifyNode (h : ∃ k, t.kind? heir = some k) (g : Node → Node)
    (hg : ∀ n, (g n).kind = n.kind) : (modifyNode heir g).Decorates t := by
  obtain ⟨k, hk⟩ := h
  obtain ⟨n, hn, -⟩ := Option.map_eq_some_iff.mp hk
  refine ⟨_, modifyNode_run hn g, rfl, fun m => ?_⟩
  simp only [Tree.kind?, Tree.node?_modify]
  split
  · rw [Option.map_map]
    exact congrArg (fun f => Option.map f (t.node? m)) (funext hg)
  · rfl

theorem Decorates.bind {x y : TreeM Unit} (hx : x.Decorates t)
    (hy : ∀ t', t.Alike t' → y.Decorates t') : (do x; y).Decorates t := by
  obtain ⟨t₁, hrun, ha⟩ := hx
  obtain ⟨t₂, hrun', ha'⟩ := hy t₁ ha
  refine ⟨t₂, ?_, ha.trans ha'⟩
  simp only [StateT.run_bind, hrun]
  exact hrun'

/-- The three ways to inherit comments: the donor is read and the heir is written. -/
private theorem decorates_inherit (hheir : ∃ k, t.kind? heir = some k)
    (hdonor : ∃ k, t.kind? donor = some k) (g : Node → Node → Node)
    (hg : ∀ d n, (g d n).kind = n.kind) :
    Decorates (do
      let d ← node donor
      modifyNode heir (g d)) t := by
  obtain ⟨k, hk⟩ := hdonor
  obtain ⟨d, hd, -⟩ := Option.map_eq_some_iff.mp hk
  obtain ⟨t', hrun, ha⟩ := decorates_modifyNode hheir (g d) (hg d)
  refine ⟨t', ?_, ha⟩
  simp only [StateT.run_bind, node_run hd]
  exact hrun

theorem decorates_inheritLeading (hheir : ∃ k, t.kind? heir = some k)
    (hdonor : ∃ k, t.kind? donor = some k) : (inheritLeading heir donor).Decorates t :=
  decorates_inherit hheir hdonor
    (fun d n => { n with leading := n.leading ++ d.leading }) fun _ _ => rfl

theorem decorates_inheritTrailing (hheir : ∃ k, t.kind? heir = some k)
    (hdonor : ∃ k, t.kind? donor = some k) : (inheritTrailing heir donor).Decorates t :=
  decorates_inherit hheir hdonor
    (fun d n => { n with trailing := n.trailing ++ d.trailing }) fun _ _ => rfl

theorem decorates_inheritComments (hheir : ∃ k, t.kind? heir = some k)
    (hdonor : ∃ k, t.kind? donor = some k) : (inheritComments heir donor).Decorates t := by
  refine (decorates_inheritLeading hheir hdonor).bind fun t₁ h₁ => ?_
  rw [← h₁.kind] at hheir hdonor
  refine (decorates_inheritTrailing hheir hdonor).bind fun t₂ h₂ => ?_
  rw [← h₂.kind] at hheir hdonor
  exact decorates_inherit hheir hdonor
    (fun d n => { n with inner := n.inner ++ d.inner }) fun _ _ => rfl

theorem decorates_removeComments (hheir : ∃ k, t.kind? heir = some k) :
    (removeComments heir).Decorates t :=
  decorates_modifyNode hheir _ fun _ => rfl

end TreeM

/-- Work on comments does nothing to the shape of the tree. -/
theorem onTree_decorates {x : TreeM Unit} {s : Session} (h : x.Decorates s.tree) :
    ∃ t', onTree x s = .ok () { s with tree := t' } ∧ s.tree.Alike t' :=
  let ⟨t', hrun, ha⟩ := h
  ⟨t', onTree_run hrun, ha⟩

/-- A session with a tree of the same shape. -/
theorem Session.alike_of_tree {s : Session} {t' : Tree} (h : s.tree.Alike t') :
    s.Alike { s with tree := t' } := ⟨h, rfl, rfl, fun _ => rfl⟩

/-! ## Runs of the elementary writes -/

section Runs

variable {s : Session} {K : Set NodeId} {p : PathId} {d : PathData}

/-- Changing the kind of an allocated node. -/
theorem modifyKind_run {n : NodeId} {k : NodeKind} (hk : s.tree.kind? n = some k)
    (g : NodeKind → NodeKind) : modifyKind n g s = .ok ()
      { s with tree := s.tree.modify n fun node => { node with kind := g node.kind } } := by
  obtain ⟨node, hnode, -⟩ := Option.map_eq_some_iff.mp hk
  exact onTree_run (TreeM.modifyNode_run hnode _)

theorem shiftKeys_run (c : Container) (start : Nat) (delta : Int)
    (h : ∀ q ∈ s.bucket c, ∃ d, s.paths[q.index]? = some d) :
    shiftKeys c start delta s = .ok () (s.mapPaths (s.bucket c) (PathData.shifted start delta)) := by
  unfold shiftKeys
  rw [run_get_bind]
  exact Session.forM_modifyData_run _ h

theorem PathId.container_run (hd : s.paths[p.index]? = some d) :
    p.container s = .ok d.container s := by
  show (p.data >>= _) s = _
  rw [bind_of_ok (p.data_run hd)]
  rfl

theorem PathId.moveToContainer_run (hd : s.paths[p.index]? = some d) (c : Container) :
    p.moveToContainer c s = .ok () (s.rehomed p d.container c) := by
  have hd' : (s.unfiled d.container p).paths[p.index]? = some d := by
    rwa [Session.paths_unfiled]
  unfold PathId.moveToContainer
  rw [bind_of_ok (PathId.container_run hd)]
  exact p.modifyData_run (s := { s.unfiled d.container p with
    cache := (s.unfiled d.container p).cache.insert c
      ((s.unfiled d.container p).bucket c ++ [p]) }) hd' _

theorem PathId.markRemoved_run (hd : s.paths[p.index]? = some d) :
    p.markRemoved s = .ok () (s.dropped d.container p) := by
  unfold PathId.markRemoved
  rw [bind_of_ok (PathId.container_run hd)]
  have hu : unfile d.container p s = .ok () (s.unfiled d.container p) := rfl
  rw [bind_of_ok hu, PathId.modifyData_run (by rw [Session.paths_unfiled]; exact hd)]
  simp only [Session.paths_unfiled]
  rfl

/-- Every path in a bucket of a sound session is known. -/
theorem Session.Sound.known (hs : s.Sound K) {c : Container} {q : PathId} (hq : q ∈ s.bucket c) :
    ∃ d, s.paths[q.index]? = some d := by
  obtain ⟨pos, d, -, -, hf⟩ := hs.filed c q hq
  exact ⟨d, hf.data⟩

variable {owner : NodeId} {f : Field} {ids : List NodeId} {i : Nat} {k : NodeKind}

/-- Taking an element out of its list and marking its path as removed. -/
theorem PathId.detach_markRemoved_run (hs : s.Sound K) (hk : s.tree.kind? owner = some k)
    (hc : k.child? f = some (.many ids)) (hp : s.Files p (.item owner f i) d)
    (hi : i < ids.length) : (do p.detach; p.markRemoved) s =
      .ok () (s.plucked owner f ids i p) := by
  have hdetach : p.detach s = .ok () ((s.withList owner f (ids.eraseIdx i)).mapPaths
      (s.bucket (.list owner f)) (PathData.shifted (i + 1) (-1))) := by
    unfold PathId.detach
    rw [bind_of_ok (p.data_run hp.data), hp.container, hp.key]
    show ((ask fun t => t.kind? owner) >>= _) s = _
    rw [bind_of_ok (ask_run hk), hc]
    dsimp only
    rw [if_pos hi, bind_of_ok (modifyKind_run hk _)]
    exact shiftKeys_run (s := s.withList owner f (ids.eraseIdx i)) _ _ _
      fun q hq => hs.known (c := .list owner f) hq
  rw [bind_of_ok hdetach]
  have hb : p ∈ s.bucket (.list owner f) := hp.bucket
  have hd : ((s.withList owner f (ids.eraseIdx i)).mapPaths (s.bucket (.list owner f))
      (PathData.shifted (i + 1) (-1))).paths[p.index]? = some (d.shifted (i + 1) (-1)) := by
    rw [Session.getElem?_mapPaths (hs.nodup _), if_pos hb]
    show (s.paths[p.index]?).map _ = _
    rw [hp.data]
    rfl
  rw [PathId.markRemoved_run hd, PathData.shifted_of_index _ _ hp.key]
  show EStateM.Result.ok () (Session.dropped _ d.container p) = _
  rw [hp.container]
  rfl

/-- A path whose parent holds the owner of its container stays there. -/
theorem PathId.resyncParent_run (hd : s.paths[p.index]? = some d)
    (ha : s.Adopts d.container d.parent) : p.resyncParent s = .ok () s := by
  unfold PathId.resyncParent
  rw [bind_of_ok (p.data_run hd)]
  unfold Session.Adopts at ha
  cases hc : d.container.parent? with
  | none =>
    rw [hc] at ha
    rw [show d.parent = none from ha]
    rfl
  | some m =>
    rw [hc] at ha
    obtain ⟨q, hq, hqm⟩ := ha
    rw [hq]
    show (q.node? >>= _) s = _
    rw [bind_of_ok (PathId.node?_run_of_holds hqm)]
    have hhome : PathId.rehomed? d.container m = none := by
      cases hcontainer : d.container <;> simp_all [PathId.rehomed?, Container.parent?]
    dsimp only
    rw [hhome]
    rfl

/-- If it also holds what stands at its place, it is in step already. -/
theorem PathId.resync_run_of_adopted {n : NodeId} (hd : s.paths[p.index]? = some d)
    (hlive : d.removed = false) (ha : s.Adopts d.container d.parent) (hn : d.node = some n)
    (hat : nodeAt d.container d.key s = .ok (some n) s) : p.resync s = .ok () s := by
  have hremoved : p.isRemoved s = .ok false s := by rw [p.isRemoved_run hd, hlive]
  have hkey : p.resyncKey s = .ok () s := by
    unfold PathId.resyncKey
    rw [bind_of_ok (p.data_run hd), hn]
    show (nodeAt d.container d.key >>= _) s = _
    rw [bind_of_ok hat, if_pos rfl]
    rfl
  unfold PathId.resync
  rw [bind_of_ok hremoved]
  show (p.resyncParent >>= fun _ => p.resyncKey) s = _
  rw [bind_of_ok (PathId.resyncParent_run hd ha)]
  exact hkey

/-- A path that is linked to the one around it and holds its node is in step already. -/
theorem PathId.resync_run (hs : s.Sound K) {pos : Position} {n : NodeId} (hw : pos.Within K)
    (hl : s.Linked p pos) (hn : s.tree.occupant? pos = some n) : p.resync s = .ok () s := by
  obtain ⟨d, hf, ha⟩ := hl
  refine PathId.resync_run_of_adopted hf.data hf.live (hf.container ▸ ha) (hf.node.trans hn) ?_
  rw [hf.container, hf.key, nodeAt_run pos (hs.kind_parent hw), hn]

end Runs

/-! ## Splicing nodes into a list -/

section Insert

variable {s : Session} {K : Set NodeId} {p : PathId} {owner : NodeId} {f : Field}
  {ids nodes : List NodeId} {i : Nat}

/-- What is spliced into a list of a forest does not stand there yet. -/
theorem nodup_splice (hids : ids.Nodup) (hnodes : nodes.Nodup) (hdisjoint : ∀ n ∈ nodes, n ∉ ids)
    (i : Nat) : (ids.take i ++ nodes ++ ids.drop i).Nodup := by
  have hperm : (ids.take i ++ nodes ++ ids.drop i).Perm (ids ++ nodes) := by
    have h : (ids.take i ++ nodes ++ ids.drop i).Perm (ids.take i ++ (ids.drop i ++ nodes)) := by
      rw [List.append_assoc]
      exact List.Perm.append_left _ List.perm_append_comm
    rwa [← List.append_assoc, List.take_append_drop] at h
  refine hperm.nodup_iff.mpr (List.nodup_append.mpr ⟨hids, hnodes, fun a ha b hb hab => ?_⟩)
  exact hdisjoint b hb (hab ▸ ha)

namespace Session

/-- Splicing loose nodes into a list. -/
theorem Orderly.spliced (h : s.Orderly K) (hr : s.tree.Reachable owner) {k : NodeKind}
    (hk : s.tree.kind? owner = some k) (hc : k.child? f = some (.many ids)) (hi : i ≤ ids.length)
    (hloose : s.tree.Loose K nodes) :
    s.Edited (K ∪ s.tree.below nodes) owner f ids (ids.take i ++ nodes ++ ids.drop i)
      (s.spliced owner f ids i nodes) := by
  have howner := h.sound.forest.mem_of_reachable hr
  have htree := relisted_withList hk hc (ids.take i ++ nodes ++ ids.drop i)
  have hnodup := nodup_splice (h.list_nodup hr htree.list?) hloose.nodup
    (fun n hn hmem => hloose.not_mem hn (h.sound.forest.mem_list howner htree.list? hmem)) i
  have hsub : ∀ n ∈ ids.take i ++ nodes ++ ids.drop i, n ∈ ids ∨ n ∈ nodes :=
    fun n hn => (mem_splice i).mp hn
  -- The new list is within the range of indices, because it is a list of a forest as well.
  have hF := htree.forest h.sound.forest hloose howner hnodup hsub
  have hlen := hF.length_le_size
    (fun n hn => hF.mem_list (.inl howner) htree.list?' hn) hnodup
  have hmax : ids.length + nodes.length ≤ Key.maxIndex := by
    have hmax := Tree.maxSize_lt
    have hsmall := h.program.small
    rw [htree.size] at hlen
    simp only [List.length_append, List.length_take, List.length_drop] at hlen
    omega
  exact (h.sound.relists_insert hk hc hi hmax).edited h hloose hr hnodup hsub

end Session

open Session

/-- Register the declarations among inserted nodes, once the scopes are built. -/
def registerInserted (ps : List PathId) : SessionM Unit := do
  if ← scopesCrawled then
    ps.forM fun q => do
      if ← q.isAny NodeType.isDeclaration then q.registerDeclaration

/-- Inserted declarations are registered. -/
theorem registerInserted_returns (h : s.Orderly K) (ps : List PathId)
    (hps : ∀ q ∈ ps, ∃ n, s.Holds q n ∧ s.tree.Reachable n) :
    Returns (registerInserted ps) s fun _ s' => s.Surveys K s' := by
  unfold registerInserted
  refine returns_bind_of_ok (show scopesCrawled s = .ok s.scopes.crawled s from rfl) ?_
  by_cases hcrawled : s.scopes.crawled = true
  · rw [if_pos hcrawled]
    refine forM_surveys ps _ h.sound h.ordered fun q hq s₁ h₁ => ?_
    obtain ⟨n, hqn, hn⟩ := hps q hq
    have hqn₁ := h₁.grew.holds h.sound hqn
    obtain ⟨k, hk⟩ := h₁.sound.forest.kind n (h₁.sound.mem_of_holds hqn₁)
    refine returns_bind_of_ok (PathId.isAny_run_of_holds hqn₁ hk _) ?_
    by_cases hdecl : k.type.isDeclaration = true
    · rw [if_pos hdecl]
      exact registerDeclaration_returns h₁.sound h₁.ordered (by rw [h₁.tree]; exact h.program.root)
        (h₁.widened.crawled.trans hcrawled) hqn₁ (by rw [h₁.tree]; exact hn)
    · rw [if_neg hdecl]
      exact .pure (.refl h₁.sound h₁.ordered)
  · rw [if_neg hcrawled]
    exact .pure (.refl h.sound h.ordered)

namespace Session

/-- Nodes were spliced into a list, and each of them is held by a path. The scopes know nothing of
it yet. -/
structure Spliced (s : Session) (K : Set NodeId) (owner : NodeId) (f : Field) (ids : List NodeId)
    (i : Nat) (nodes : List NodeId) (ps : List PathId) (s' : Session) : Prop where
  edited : s.Edited (K ∪ s.tree.below nodes) owner f ids (ids.take i ++ nodes ++ ids.drop i) s'
  tree : s.tree.Relisted owner f ids (ids.take i ++ nodes ++ ids.drop i) s'.tree
  scopes : s'.scopes = s.scopes
  holds : List.Forall₂ s'.Holds ps nodes

/-- The nodes stand below the owner of the list. -/
theorem Spliced.child {ps : List PathId} {s' : Session}
    (h : s.Spliced K owner f ids i nodes ps s') {n : NodeId} (hn : n ∈ nodes) :
    s'.tree.IsChild owner n := by
  have hmem : n ∈ ids.take i ++ nodes ++ ids.drop i := (mem_splice i).mpr (.inr hn)
  obtain ⟨j, hj⟩ := List.mem_iff_getElem?.mp hmem
  refine ⟨.item owner f j, rfl, ?_⟩
  rw [Tree.occupant?, h.edited.list, Option.bind_some, hj]

/-- The paths hold nodes that can be reached. -/
theorem Spliced.reachable {ps : List PathId} {s' : Session}
    (h : s.Spliced K owner f ids i nodes ps s') {q : PathId} (hq : q ∈ ps) :
    ∃ n ∈ nodes, s'.Holds q n ∧ s'.tree.IsChild owner n ∧ s'.tree.Reachable n := by
  obtain ⟨n, hn, hqn⟩ := exists_counterpart h.holds hq
  exact ⟨n, hn, hqn, h.child hn, .child h.edited.owner (h.child hn)⟩

end Session

/-- To splice nodes into a list is to change the list, and then to register what came in. -/
theorem PathId.insertAt_run (h : s.Orderly K) (hp : s.Holds p owner)
    (hr : s.tree.Reachable owner) {k : NodeKind} (hk : s.tree.kind? owner = some k)
    (hc : k.child? f = some (.many ids)) (hi : i ≤ ids.length) (hloose : s.tree.Loose K nodes) :
    ∃ ps s₁, s.Spliced K owner f ids i nodes ps s₁ ∧
      p.insertAt f i nodes s = (do registerInserted ps; pure ps) s₁ := by
  have hedited := h.spliced hr hk hc hi hloose
  have hlen : (ids.take i).length = i := List.length_take_of_le hi
  have hp₁ := hedited.keeps p owner hp fun hmem => (mem_splice i).mpr (.inl hmem)
  have hfield : (s.spliced owner f ids i nodes).tree.field? owner f =
      some (.many (ids.take i ++ nodes ++ ids.drop i)) := Tree.list?_eq_some_iff.mp hedited.list
  have helements := PathId.mapM_element_returns hedited.orderly.sound hp₁ hfield
    ((List.range nodes.length).map (i + ·))
  rw [List.mapM_map] at helements
  obtain ⟨ps, s₂, hrun, hps⟩ := helements
  have hsur := hps.toWent.surveys hedited.orderly.ordered
  -- The paths hold the inserted nodes, which can be reached from now on.
  have hheld : List.Forall₂ s₂.Holds ps nodes := by
    have hlinked := hps.linked
    rw [List.map_map] at hlinked
    refine List.forall₂_iff_get.mpr ⟨by simpa using hlinked.length_eq, fun j hj hj' => ?_⟩
    have hlj := hlinked.get hj (by simpa using hj')
    simp only [List.get_eq_getElem, List.getElem_map, List.getElem_range, Function.comp_apply]
      at hlj
    refine hlj.holds ?_
    rw [hps.tree, Tree.occupant?, hedited.list, Option.bind_some, List.append_assoc,
      List.getElem?_append_right (by omega), hlen, Nat.add_sub_cancel_left,
      List.getElem?_append_left hj', List.getElem?_eq_getElem hj', List.get_eq_getElem]
  have hcounted : s₂.Alike { s₂ with mutations := s₂.mutations + 1 } :=
    ⟨.refl _, rfl, rfl, fun _ => rfl⟩
  refine ⟨ps, { s₂ with mutations := s₂.mutations + 1 },
    ⟨(hedited.surveys hsur).alike hcounted rfl hsur.ordered, ?_, hps.scopes, hheld⟩, ?_⟩
  · show s.tree.Relisted owner f ids _ s₂.tree
    rw [hps.tree]
    exact relisted_withList hk hc _
  · unfold PathId.insertAt
    rw [bind_of_ok (PathId.node?_run_of_holds hp)]
    show ((ask fun t => t.kind? owner) >>= _) s = _
    rw [bind_of_ok (ask_run hk), hc]
    dsimp only
    rw [if_neg (by omega), bind_of_ok (modifyKind_run hk _)]
    refine (bind_of_ok (shiftKeys_run (s := s.withList owner f _) _ _ _
      fun q hq => h.sound.known (c := .list owner f) hq)).trans ?_
    refine (bind_of_ok hrun).trans ?_
    have hasked : scopesCrawled { s₂ with mutations := s₂.mutations + 1 } =
      .ok s₂.scopes.crawled { s₂ with mutations := s₂.mutations + 1 } := rfl
    refine (bind_of_ok (show recordMutation s₂ = .ok () _ from rfl)).trans ?_
    unfold registerInserted
    rw [bind_assoc, bind_of_ok hasked, bind_of_ok hasked]
    cases s₂.scopes.crawled <;> rfl

/-- Splicing nodes into a list succeeds, and the paths it gives hold the nodes. -/
theorem PathId.insertAt_returns (h : s.Orderly K) (hp : s.Holds p owner)
    (hr : s.tree.Reachable owner) {k : NodeKind} (hk : s.tree.kind? owner = some k)
    (hc : k.child? f = some (.many ids)) (hi : i ≤ ids.length) (hloose : s.tree.Loose K nodes) :
    Returns (p.insertAt f i nodes) s fun ps s' =>
      s.Edited (K ∪ s.tree.below nodes) owner f ids (ids.take i ++ nodes ++ ids.drop i) s' ∧
        List.Forall₂ s'.Holds ps nodes := by
  obtain ⟨ps, s₁, h₁, hrun⟩ := PathId.insertAt_run h hp hr hk hc hi hloose
  rw [Returns, hrun]
  refine (registerInserted_returns h₁.edited.orderly ps fun q hq => ?_).bind fun _ s₂ h₂ =>
    .pure ⟨h₁.edited.surveys h₂, ?_⟩
  · obtain ⟨n, -, hqn, -, hn⟩ := h₁.reachable hq
    exact ⟨n, hqn, hn⟩
  · exact h₁.holds.imp fun q n hqn => h₂.grew.holds h₁.edited.orderly.sound hqn

end Insert

end Espalier
