import Espalier.Path.Navigate
import Espalier.Proofs.Forest
import Espalier.Proofs.Outcome

set_option autoImplicit false

/-! # Handles in step with the tree

A session is `Sound` over a forest when every path that is filed in a bucket agrees with the tree
on the node at its position, and no two filed paths hold one node. Going to a position keeps a
session sound and gives the one path that is filed there (`pathFor_returns`); what it changes
otherwise is little (`Session.Grew`). -/

namespace Espalier

open SessionM

/-! ## Primitive steps -/

section Primitive

variable {s : Session} {p : PathId} {d : PathData}

theorem PathId.data_run (h : s.paths[p.index]? = some d) : p.data s = .ok d s := by
  show (get >>= fun s => found s.paths[p.index]?) s = _
  rw [run_get_bind, h]
  rfl

theorem PathId.data_unknown (h : s.paths[p.index]? = none) : p.data s = .error .dangling s := by
  show (get >>= fun s => found s.paths[p.index]?) s = _
  rw [run_get_bind, h]
  rfl

theorem PathId.modifyData_run (h : s.paths[p.index]? = some d) (f : PathData → PathData) :
    p.modifyData f s = .ok () { s with paths := s.paths.modify p.index f } := by
  show (p.data >>= fun _ => modify _) s = _
  rw [bind_of_ok (p.data_run h)]
  rfl

theorem PathId.data_eq_ok {s' : Session} (h : p.data s = .ok d s') :
    s' = s ∧ s.paths[p.index]? = some d := by
  cases hd : s.paths[p.index]? with
  | none => rw [p.data_unknown hd] at h; cases h
  | some e =>
    rw [p.data_run hd] at h
    cases h
    exact ⟨rfl, rfl⟩

theorem PathId.node?_run (h : s.paths[p.index]? = some d) : p.node? s = .ok d.node s := by
  show (p.data >>= fun d => pure d.node) s = _
  rw [bind_of_ok (p.data_run h)]
  rfl

theorem PathId.isRemoved_run (h : s.paths[p.index]? = some d) :
    p.isRemoved s = .ok d.removed s := by
  show (p.data >>= fun d => pure d.removed) s = _
  rw [bind_of_ok (p.data_run h)]
  rfl

theorem PathId.parent?_run (h : s.paths[p.index]? = some d) : p.parent? s = .ok d.parent s := by
  show (p.data >>= fun d => pure d.parent) s = _
  rw [bind_of_ok (p.data_run h)]
  rfl

theorem ask_run {α : Type} {question : Tree → Option α} {a : α} (h : question s.tree = some a) :
    ask question s = .ok a s := by
  show (get >>= fun s => found (question s.tree)) s = _
  rw [run_get_bind, h]
  rfl

theorem ask_dangling {α : Type} {question : Tree → Option α} (h : question s.tree = none) :
    ask question s = .error .dangling s := by
  show (get >>= fun s => found (question s.tree)) s = _
  rw [run_get_bind, h]
  rfl

/-- A look-up that succeeds changes nothing. -/
theorem ask_eq_ok {α : Type} {question : Tree → Option α} {s' : Session} {a : α}
    (h : ask question s = .ok a s') : s' = s ∧ question s.tree = some a := by
  cases ha : question s.tree with
  | none => rw [ask_dangling ha] at h; cases h
  | some b =>
    rw [ask_run ha] at h
    cases h
    exact ⟨rfl, rfl⟩

theorem onTree_run {α : Type} {build : TreeM α} {a : α} {t : Tree}
    (h : build.run s.tree = some (a, t)) : onTree build s = .ok a { s with tree := t } := by
  unfold onTree
  rw [run_get_bind, h]
  rfl

theorem onTree_dangling {α : Type} {build : TreeM α} (h : build.run s.tree = none) :
    onTree build s = .error .dangling s := by
  unfold onTree
  rw [run_get_bind, h]
  rfl

theorem askBelow_run {α : Type} {ids : List NodeId} {question : Tree → Option α} {a : α}
    (h : question s.tree = some a) : askBelow ids question s = .ok a s := by
  unfold askBelow
  rw [run_get_bind, h]
  rfl

theorem buildBelow_run {α : Type} {ids : List NodeId} {build : TreeM α} {a : α} {t : Tree}
    (h : build.run s.tree = some (a, t)) :
    buildBelow ids build s = .ok a { s with tree := t } := by
  unfold buildBelow
  rw [run_get_bind, h]
  exact onTree_run h

theorem buildBelow_failure {α : Type} {ids : List NodeId} {build : TreeM α}
    (h : build.run s.tree = none) :
    buildBelow ids build s = .error (failureBelow s.tree ids) s := by
  unfold buildBelow
  rw [run_get_bind, h]
  rfl

/-- Building from what is below some nodes leaves what building leaves. -/
theorem after_buildBelow {α : Type} (ids : List NodeId) (build : TreeM α) (s : Session) :
    after (buildBelow ids build) s = after (onTree build) s := by
  cases h : build.run s.tree with
  | none => rw [after_of_error (buildBelow_failure h), after_of_error (onTree_dangling h)]
  | some r => rw [after_of_ok (buildBelow_run h), after_of_ok (onTree_run h)]

/-- The node at a position whose owner exists. -/
theorem nodeAt_run (pos : Position) (h : ∀ n, pos.parent? = some n → ∃ k, s.tree.kind? n = some k) :
    nodeAt pos.container pos.key s = .ok (s.tree.occupant? pos) s := by
  cases pos with
  | root => rfl
  | slot n f =>
    obtain ⟨k, hk⟩ := h n rfl
    show ((ask fun t => t.kind? n) >>= _) s = _
    rw [bind_of_ok (ask_run hk)]
    simp [Tree.occupant?, Tree.field?, hk]
  | item n f i =>
    obtain ⟨k, hk⟩ := h n rfl
    show ((ask fun t => t.kind? n) >>= _) s = _
    rw [bind_of_ok (ask_run hk)]
    simp [Tree.occupant?, Tree.list?, Tree.field?, hk]

/-- Only the written path changes. -/
theorem getElem?_modify_paths (paths : Array PathData) (p q : PathId) (f : PathData → PathData) :
    (paths.modify p.index f)[q.index]? = if q = p then paths[q.index]?.map f else paths[q.index]? := by
  obtain ⟨i⟩ := p
  obtain ⟨j⟩ := q
  by_cases h : j = i
  · subst h
    simp [Array.getElem?_modify]
  · simp [Array.getElem?_modify, h, Ne.symm h]

/-- Only the written bucket changes. -/
theorem Session.bucket_insert (s : Session) (c c' : Container) (l : List PathId) :
    Session.bucket { s with cache := s.cache.insert c l } c' = if c' = c then l else s.bucket c' := by
  simp only [Session.bucket, Table.get?_insert]
  split <;> rfl

end Primitive

/-! ## Sound sessions -/

/-- What places a path: its node, its container and key, and whether it was removed. -/
def PathData.place (d : PathData) : Option NodeId × Container × Key × Bool :=
  (d.node, d.container, d.key, d.removed)


namespace Session

/-- The path holds the node. -/
def Holds (s : Session) (p : PathId) (n : NodeId) : Prop :=
  ∃ d, s.paths[p.index]? = some d ∧ d.node = some n

/-- The path was removed. -/
def Gone (s : Session) (p : PathId) : Prop :=
  ∃ d, s.paths[p.index]? = some d ∧ d.removed = true ∧ d.container ≠ .detached

/-- The path is filed at the position: it is in the bucket of the container, and what the session
knows about it agrees with the position and with the tree. -/
structure Files (s : Session) (p : PathId) (pos : Position) (d : PathData) : Prop where
  data : s.paths[p.index]? = some d
  bucket : p ∈ s.bucket pos.container
  container : d.container = pos.container
  key : d.key = pos.key
  live : d.removed = false
  node : d.node = s.tree.occupant? pos

/-- The path is what a position in the container has as its parent: none at the root, else a path
that holds the owner. -/
def Adopts (s : Session) (c : Container) (parent : Option PathId) : Prop :=
  match c.parent? with
  | none => parent = none
  | some n => ∃ q, parent = some q ∧ s.Holds q n

/-- The paths of the session are in step with its tree. -/
structure Sound (s : Session) (K : Set NodeId) : Prop where
  forest : s.tree.Forest K
  filed : ∀ c (p : PathId), p ∈ s.bucket c → ∃ pos d, pos.container = c ∧ pos.Within K ∧ s.Files p pos d
  nodup : ∀ c, (s.bucket c).Nodup
  /-- A position with a node has one path. -/
  unique : ∀ (p q : PathId) pos d e, s.Files p pos d → s.Files q pos e → d.node ≠ none → p = q
  /-- A path with a node is filed. -/
  held : ∀ (p : PathId) d, s.paths[p.index]? = some d → d.node ≠ none → p ∈ s.bucket d.container
  /-- A path without a position is in no bucket. -/
  adrift : ∀ q (p : PathId), s.detached.get? q = some p →
    ∃ d, s.paths[p.index]? = some d ∧ d.place = (none, .detached, .root, false)
  /-- A path that can be reached from the root has the path around it as its parent. -/
  linked : ∀ (p : PathId) pos d, s.Files p pos d → pos.Within s.tree.reachable →
    s.Adopts pos.container d.parent

/-- What stays of a path when the session navigates: all but its parent, and that changes only to
another path that holds the owner. A path without a position stays one. -/
def Keeps (s : Session) (d d' : PathData) : Prop :=
  (d.container = .detached → d'.container = .detached ∧ d'.node = none) ∧
  (d.container ≠ .detached → d' = { d with parent := d'.parent } ∧
    (d'.parent = d.parent ∨ s.Adopts d.container d'.parent))

/-- What navigation does to a session: paths are added, and known paths keep their position. -/
structure Grew (s s' : Session) : Prop where
  rest : s' = { s with
    paths := s'.paths, cache := s'.cache, detached := s'.detached, scopes := s'.scopes }
  kept : ∀ (p : PathId) d, s.paths[p.index]? = some d → ∃ d', s'.paths[p.index]? = some d' ∧ s'.Keeps d d'
  bucket : ∀ c p, p ∈ s.bucket c → p ∈ s'.bucket c
  fresh : ∀ c (p : PathId) d, p ∈ s'.bucket c → s.paths[p.index]? = some d → p ∈ s.bucket c

theorem Holds.unique_node {s : Session} {p : PathId} {n m : NodeId} (hn : s.Holds p n)
    (hm : s.Holds p m) : n = m := by
  obtain ⟨d, hd, hdn⟩ := hn
  obtain ⟨e, he, hem⟩ := hm
  rw [hd, Option.some.injEq] at he
  subst he
  rw [hdn, Option.some.injEq] at hem
  exact hem

theorem Files.holds {s : Session} {p : PathId} {pos : Position} {d : PathData} {n : NodeId}
    (h : s.Files p pos d) (hn : s.tree.occupant? pos = some n) : s.Holds p n :=
  ⟨d, h.data, h.node.trans hn⟩

/-- A path has one position. -/
theorem Files.position_unique {s : Session} {p : PathId} {pos pos' : Position} {d d' : PathData}
    (h : s.Files p pos d) (h' : s.Files p pos' d') : pos = pos' ∧ d = d' := by
  have hd : d = d' := Option.some.inj (h.data.symm.trans h'.data)
  subst hd
  exact ⟨Position.eq_of_container_key (h.container.symm.trans h'.container)
    (h.key.symm.trans h'.key), rfl⟩

namespace Sound

variable {s : Session} {K : Set NodeId}

/-- A path that holds a node is filed where the node stands. -/
theorem files_of_holds (h : s.Sound K) {p : PathId} {n : NodeId} (hp : s.Holds p n) :
    ∃ pos d, pos.Within K ∧ s.Files p pos d ∧ s.tree.occupant? pos = some n := by
  obtain ⟨d, hd, hn⟩ := hp
  have hb := h.held p d hd (by simp [hn])
  obtain ⟨pos, e, -, hw, hf⟩ := h.filed _ p hb
  have he : d = e := Option.some.inj (hd.symm.trans hf.data)
  subst he
  exact ⟨pos, d, hw, hf, hf.node.symm.trans hn⟩

theorem mem_of_holds (h : s.Sound K) {p : PathId} {n : NodeId} (hp : s.Holds p n) : n ∈ K := by
  obtain ⟨pos, d, hw, -, hocc⟩ := h.files_of_holds hp
  exact h.forest.closed pos n hw hocc

/-- A node is held by one path. -/
theorem holder_unique (h : s.Sound K) {p q : PathId} {n : NodeId} (hp : s.Holds p n)
    (hq : s.Holds q n) : p = q := by
  obtain ⟨pos, d, hw, hf, hocc⟩ := h.files_of_holds hp
  obtain ⟨pos', e, hw', hf', hocc'⟩ := h.files_of_holds hq
  have hpos := h.forest.single pos pos' n hw hw' hocc hocc'
  subst hpos
  exact h.unique p q pos d e hf hf' (by rw [hf.node, hocc]; simp)

/-- The owner of a position is there to be asked. -/
theorem kind_parent (h : s.Sound K) {pos : Position} (hw : pos.Within K) :
    ∀ n, pos.parent? = some n → ∃ k, s.tree.kind? n = some k :=
  fun n hn => h.forest.kind n (hw n hn)

/-- No path without a position is filed. -/
theorem not_mem_bucket_of_detached (h : s.Sound K) {p : PathId} {d : PathData} (c : Container)
    (hd : s.paths[p.index]? = some d) (hc : d.container = .detached) : p ∉ s.bucket c := by
  intro hb
  obtain ⟨pos, e, -, -, hf⟩ := h.filed c p hb
  have he : d = e := Option.some.inj (hd.symm.trans hf.data)
  subst he
  exact pos.container_ne_detached (hf.container.symm.trans hc)

end Sound

namespace Grew

variable {s s₁ s₂ : Session} {K : Set NodeId}

theorem tree (h : s.Grew s₁) : s₁.tree = s.tree := by rw [h.rest]

theorem holds (h : s.Grew s₁) (hs : s.Sound K) {p : PathId} {n : NodeId} (hp : s.Holds p n) :
    s₁.Holds p n := by
  obtain ⟨d, hd, hn⟩ := hp
  obtain ⟨d', hd', hk⟩ := h.kept p d hd
  have hb := hs.held p d hd (by simp [hn])
  have hc : d.container ≠ .detached := fun hc => hs.not_mem_bucket_of_detached _ hd hc hb
  obtain ⟨he, -⟩ := hk.2 hc
  exact ⟨d', hd', by rw [he]; exact hn⟩

theorem gone (h : s.Grew s₁) {p : PathId} (hp : s.Gone p) : s₁.Gone p := by
  obtain ⟨d, hd, hremoved, hc⟩ := hp
  obtain ⟨d', hd', hk⟩ := h.kept p d hd
  obtain ⟨he, -⟩ := hk.2 hc
  exact ⟨d', hd', by rw [he]; exact hremoved, by rw [he]; exact hc⟩

theorem adopts (h : s.Grew s₁) (hs : s.Sound K) {c : Container} {parent : Option PathId}
    (hp : s.Adopts c parent) : s₁.Adopts c parent := by
  unfold Adopts at hp ⊢
  cases hc : c.parent? with
  | none => simpa [hc] using hp
  | some n =>
    rw [hc] at hp
    obtain ⟨q, hq, hn⟩ := hp
    exact ⟨q, hq, h.holds hs hn⟩

/-- Navigation that does nothing. -/
theorem refl (hs : s.Sound K) : s.Grew s where
  rest := rfl
  kept p d hd := by
    refine ⟨d, hd, fun hc => ⟨hc, ?_⟩, fun _ => ⟨rfl, .inl rfl⟩⟩
    by_contra hn
    exact hs.not_mem_bucket_of_detached _ hd hc (hs.held p d hd hn)
  bucket _ _ hp := hp
  fresh _ _ _ hp _ := hp

/-- A known path holds after navigation what it held before. -/
theorem holds_iff (h : s.Grew s₁) (hs : s.Sound K) {p : PathId} {d : PathData}
    (hd : s.paths[p.index]? = some d) (n : NodeId) : s₁.Holds p n ↔ s.Holds p n := by
  constructor
  · rintro ⟨d₁, hd₁, hn⟩
    obtain ⟨d₂, hd₂, hk⟩ := h.kept p d hd
    obtain rfl : d₁ = d₂ := Option.some.inj (hd₁.symm.trans hd₂)
    refine ⟨d, hd, ?_⟩
    by_cases hc : d.container = .detached
    · rw [(hk.1 hc).2] at hn
      cases hn
    · rw [(hk.2 hc).1] at hn
      exact hn
  · exact h.holds hs

/-- Navigation in two parts. -/
theorem trans (h₁ : s.Grew s₁) (h₂ : s₁.Grew s₂) (hs₁ : s₁.Sound K) : s.Grew s₂ where
  rest := by rw [h₂.rest, h₁.rest]
  kept p d hd := by
    obtain ⟨d₁, hd₁, hk₁⟩ := h₁.kept p d hd
    obtain ⟨d₂, hd₂, hk₂⟩ := h₂.kept p d₁ hd₁
    refine ⟨d₂, hd₂, fun hc => hk₂.1 (hk₁.1 hc).1, fun hc => ?_⟩
    obtain ⟨he₁, hp₁⟩ := hk₁.2 hc
    have hc₁ : d₁.container = d.container := by rw [he₁]
    obtain ⟨he₂, hp₂⟩ := hk₂.2 (by rwa [hc₁])
    refine ⟨by rw [he₂, he₁], ?_⟩
    rw [hc₁] at hp₂
    rcases hp₂ with hp₂ | hp₂
    · rw [hp₂]
      exact hp₁.imp id (h₂.adopts hs₁)
    · exact .inr hp₂
  bucket c p hp := h₂.bucket c p (h₁.bucket c p hp)
  fresh c p d hp hd := by
    obtain ⟨d₁, hd₁, -⟩ := h₁.kept p d hd
    exact h₁.fresh c p d (h₂.fresh c p d₁ hp hd₁) hd

/-- A filed path stays filed where it was. -/
theorem files (h : s.Grew s₁) {p : PathId} {pos : Position} {d : PathData}
    (hf : s.Files p pos d) :
    ∃ d₁, s₁.Files p pos d₁ ∧ d₁ = { d with parent := d₁.parent } ∧
      (d₁.parent = d.parent ∨ s₁.Adopts d.container d₁.parent) := by
  obtain ⟨d₁, hd₁, hk⟩ := h.kept p d hf.data
  obtain ⟨he, hp⟩ := hk.2 (by rw [hf.container]; exact pos.container_ne_detached)
  refine ⟨d₁, ⟨hd₁, h.bucket _ _ hf.bucket, ?_, ?_, ?_, ?_⟩, he, hp⟩
  · rw [he]; exact hf.container
  · rw [he]; exact hf.key
  · rw [he]; exact hf.live
  · rw [he, h.tree]; exact hf.node

end Grew

/-! ## Changes that move no path -/

/-- The two sessions have trees of one shape and the same paths at the same positions. -/
structure Alike (s s' : Session) : Prop where
  tree : s.tree.Alike s'.tree
  cache : s'.cache = s.cache
  detached : s'.detached = s.detached
  paths : ∀ p : PathId, (s'.paths[p.index]?).map PathData.place = (s.paths[p.index]?).map PathData.place

namespace Alike

variable {s s' : Session}

theorem symm (h : s.Alike s') : s'.Alike s where
  tree := h.tree.symm
  cache := h.cache.symm
  detached := h.detached.symm
  paths p := (h.paths p).symm

theorem data (h : s.Alike s') {p : PathId} {d : PathData} (hd : s.paths[p.index]? = some d) :
    ∃ d', s'.paths[p.index]? = some d' ∧ d'.place = d.place := by
  have hp := h.paths p
  rw [hd, Option.map_some, Option.map_eq_some_iff] at hp
  exact hp

theorem bucket (h : s.Alike s') (c : Container) : s'.bucket c = s.bucket c := by
  simp only [Session.bucket, h.cache]

theorem files (h : s.Alike s') {p : PathId} {pos : Position} {d : PathData}
    (hf : s.Files p pos d) : ∃ d', s'.Files p pos d' ∧ d'.place = d.place := by
  obtain ⟨d', hd', hp⟩ := h.data hf.data
  simp only [PathData.place, Prod.mk.injEq] at hp
  obtain ⟨hn, hc, hk, hr⟩ := hp
  refine ⟨d', ⟨hd', ?_, ?_, ?_, ?_, ?_⟩, by simp [PathData.place, hn, hc, hk, hr]⟩
  · rw [h.bucket]; exact hf.bucket
  · rw [hc]; exact hf.container
  · rw [hk]; exact hf.key
  · rw [hr]; exact hf.live
  · rw [hn, h.tree.occupant?]; exact hf.node

theorem holds (h : s.Alike s') {p : PathId} {n : NodeId} (hp : s.Holds p n) : s'.Holds p n := by
  obtain ⟨d, hd, hn⟩ := hp
  obtain ⟨d', hd', hpl⟩ := h.data hd
  simp only [PathData.place, Prod.mk.injEq] at hpl
  exact ⟨d', hd', by rw [hpl.1]; exact hn⟩

theorem gone (h : s.Alike s') {p : PathId} (hp : s.Gone p) : s'.Gone p := by
  obtain ⟨d, hd, hremoved, hc⟩ := hp
  obtain ⟨d', hd', hpl⟩ := h.data hd
  simp only [PathData.place, Prod.mk.injEq] at hpl
  exact ⟨d', hd', by rw [hpl.2.2.2]; exact hremoved, by rw [hpl.2.1]; exact hc⟩

theorem adopts (h : s.Alike s') {c : Container} {parent : Option PathId}
    (hp : s.Adopts c parent) : s'.Adopts c parent := by
  unfold Adopts at hp ⊢
  cases hc : c.parent? with
  | none => simpa [hc] using hp
  | some n =>
    rw [hc] at hp
    obtain ⟨q, hq, hn⟩ := hp
    exact ⟨q, hq, h.holds hn⟩

/-- A session stays sound when no path moves and none gets a parent that does not fit. -/
theorem sound (h : s.Alike s') {K : Set NodeId} (hs : s.Sound K)
    (hpar : ∀ (p : PathId) d d', s.paths[p.index]? = some d → s'.paths[p.index]? = some d' →
      d.container ≠ .detached → d'.parent = d.parent ∨ s'.Adopts d.container d'.parent) :
    s'.Sound K where
  forest := h.tree.forest hs.forest
  filed c p hp := by
    rw [h.bucket] at hp
    obtain ⟨pos, d, hc, hw, hf⟩ := hs.filed c p hp
    obtain ⟨d', hf', -⟩ := h.files hf
    exact ⟨pos, d', hc, hw, hf'⟩
  nodup c := by rw [h.bucket]; exact hs.nodup c
  unique p q pos d e hp hq hn := by
    obtain ⟨d', hp', hpl⟩ := h.symm.files hp
    obtain ⟨e', hq', -⟩ := h.symm.files hq
    refine hs.unique p q pos d' e' hp' hq' ?_
    simp only [PathData.place, Prod.mk.injEq] at hpl
    rwa [hpl.1]
  held p d hd hn := by
    obtain ⟨d', hd', hpl⟩ := h.symm.data hd
    simp only [PathData.place, Prod.mk.injEq] at hpl
    rw [h.bucket, ← hpl.2.1]
    exact hs.held p d' hd' (by rwa [hpl.1])
  adrift q p hp := by
    rw [h.detached] at hp
    obtain ⟨d, hd, hpl⟩ := hs.adrift q p hp
    obtain ⟨d', hd', hpl'⟩ := h.data hd
    exact ⟨d', hd', hpl'.trans hpl⟩
  linked p pos d' hf' hw := by
    obtain ⟨d, hf, -⟩ := h.symm.files hf'
    rw [h.tree.reachable] at hw
    have hp := hpar p d d' hf.data hf'.data (by rw [hf.container]; exact pos.container_ne_detached)
    rw [hf.container] at hp
    rcases hp with hp | hp
    · rw [hp]
      exact h.adopts (hs.linked p pos d hf hw)
    · exact hp

theorem sound_of_grew (h : s.Alike s') {K : Set NodeId} (hs : s.Sound K) (hg : s.Grew s') :
    s'.Sound K := by
  refine h.sound hs fun p d d' hd hd' hc => ?_
  obtain ⟨d₁, hd₁, hk⟩ := hg.kept p d hd
  obtain rfl : d' = d₁ := Option.some.inj (hd'.symm.trans hd₁)
  exact (hk.2 hc).2

/-- A session stays sound when its paths stay as they are. -/
theorem sound_of_paths (h : s.Alike s') {K : Set NodeId} (hs : s.Sound K)
    (hp : s'.paths = s.paths) : s'.Sound K := by
  refine h.sound hs fun p d d' hd hd' _ => .inl ?_
  rw [hp] at hd'
  rw [Option.some.inj (hd.symm.trans hd')]

end Alike

/-- Writing to a path what does not move it. -/
theorem alike_modify (s : Session) (p : PathId) (f : PathData → PathData)
    (hf : ∀ d, s.paths[p.index]? = some d → (f d).place = d.place) :
    s.Alike { s with paths := s.paths.modify p.index f } where
  tree := .refl _
  cache := rfl
  detached := rfl
  paths q := by
    show ((s.paths.modify p.index f)[q.index]?).map PathData.place = _
    rw [getElem?_modify_paths]
    by_cases h : q = p
    · subst h
      cases hd : s.paths[q.index]? with
      | none => simp
      | some d => simpa using hf d hd
    · simp [h]

/-! ## Going to a position -/

namespace Sound

variable {s : Session} {K : Set NodeId} {pos : Position}

/-- A path filed at a position stands for it. -/
theorem standsFor_of_files {p : PathId} {d : PathData} (hf : s.Files p pos d) :
    d.standsFor pos.container pos.key (s.tree.occupant? pos) = true := by
  unfold PathData.standsFor
  split
  · next h => rw [hf.node, h]; simp
  · rw [hf.key]; simp

/-- A path in the right bucket that stands for a position is filed there. -/
theorem files_of_standsFor (h : s.Sound K) (hw : pos.Within K) {p : PathId} {d : PathData}
    (hb : p ∈ s.bucket pos.container) (hd : s.paths[p.index]? = some d)
    (hst : d.standsFor pos.container pos.key (s.tree.occupant? pos) = true) :
    s.Files p pos d := by
  obtain ⟨pos', e, hc, hw', hf⟩ := h.filed _ p hb
  obtain rfl : d = e := Option.some.inj (hd.symm.trans hf.data)
  have hpos : pos' = pos := by
    unfold PathData.standsFor at hst
    split at hst
    · next hocc =>
      have hn : s.tree.occupant? pos' = some _ := hf.node.symm.trans (by simpa using hst)
      exact h.forest.single pos' pos _ hw' hw hn hocc
    · exact Position.eq_of_container_key hc (hf.key.symm.trans (by simpa using hst))
  exact hpos ▸ hf

/-- The look-up finds a path that is filed at the position. -/
theorem files_of_cached (h : s.Sound K) (hw : pos.Within K) {p : PathId}
    (hp : s.cached? pos.container pos.key (s.tree.occupant? pos) = some p) :
    ∃ d, s.Files p pos d := by
  have hb := List.mem_of_find?_eq_some hp
  have hst := List.find?_some hp
  cases hd : s.paths[p.index]? with
  | none => simp [hd] at hst
  | some d =>
    rw [hd] at hst
    exact ⟨d, h.files_of_standsFor hw hb hd hst⟩

/-- Where the look-up finds nothing, no path is filed. -/
theorem not_files_of_cached {p : PathId} {d : PathData}
    (hp : s.cached? pos.container pos.key (s.tree.occupant? pos) = none) : ¬ s.Files p pos d := by
  intro hf
  have hno := List.find?_eq_none.mp hp p hf.bucket
  rw [hf.data] at hno
  exact hno (standsFor_of_files hf)

end Sound

/-- The session with a new path filed at a position. -/
def fileNew (s : Session) (pos : Position) (d : PathData) : Session :=
  { s with
    paths := s.paths.push d
    cache := s.cache.insert pos.container (s.bucket pos.container ++ [⟨s.paths.size⟩]) }

section FileNew

variable {s : Session} {K : Set NodeId} {pos : Position} {d : PathData}

theorem getElem?_fileNew (p : PathId) :
    (s.fileNew pos d).paths[p.index]? = if p.index = s.paths.size then some d
      else s.paths[p.index]? :=
  Array.getElem?_push

theorem getElem?_fileNew_of_some {p : PathId} {e : PathData}
    (he : s.paths[p.index]? = some e) : (s.fileNew pos d).paths[p.index]? = some e := by
  have hlt := (Array.getElem?_eq_some_iff.mp he).1
  rw [getElem?_fileNew, if_neg (by omega), he]

theorem bucket_fileNew (c : Container) :
    (s.fileNew pos d).bucket c =
      if c = pos.container then s.bucket pos.container ++ [⟨s.paths.size⟩] else s.bucket c :=
  Session.bucket_insert _ _ _ _

theorem mem_bucket_fileNew (c : Container) (p : PathId) :
    p ∈ (s.fileNew pos d).bucket c ↔
      p ∈ s.bucket c ∨ (c = pos.container ∧ p = ⟨s.paths.size⟩) := by
  rw [bucket_fileNew]
  split
  · next h => subst h; simp
  · next h => simp [h]

theorem Files.fileNew {p : PathId} {pos' : Position} {e : PathData} (hf : s.Files p pos' e) :
    (s.fileNew pos d).Files p pos' e where
  data := getElem?_fileNew_of_some hf.data
  bucket := (mem_bucket_fileNew _ _).mpr (.inl hf.bucket)
  container := hf.container
  key := hf.key
  live := hf.live
  node := hf.node

/-- The new path is filed at its position. -/
theorem files_fileNew (hc : d.container = pos.container) (hk : d.key = pos.key)
    (hr : d.removed = false) (hn : d.node = s.tree.occupant? pos) :
    (s.fileNew pos d).Files ⟨s.paths.size⟩ pos d where
  data := by rw [getElem?_fileNew, if_pos rfl]
  bucket := (mem_bucket_fileNew _ _).mpr (.inr ⟨rfl, rfl⟩)
  container := hc
  key := hk
  live := hr
  node := hn

/-- The new path is no path of before. -/
theorem Sound.not_mem_bucket_size (h : s.Sound K) (c : Container) :
    (⟨s.paths.size⟩ : PathId) ∉ s.bucket c := by
  intro hb
  obtain ⟨_, e, _, _, hf⟩ := h.filed c _ hb
  have := (Array.getElem?_eq_some_iff.mp hf.data).1
  simp at this

theorem Files.of_fileNew (hc : d.container = pos.container) (hk : d.key = pos.key) {p : PathId}
    {pos' : Position} {e : PathData} (hf : (s.fileNew pos d).Files p pos' e) :
    s.Files p pos' e ∨ (p = ⟨s.paths.size⟩ ∧ pos' = pos ∧ e = d) := by
  have hdata := hf.data
  rw [getElem?_fileNew] at hdata
  split at hdata
  · next hp =>
    right
    obtain rfl := Option.some.inj hdata
    refine ⟨by cases p; simpa using hp, ?_, rfl⟩
    exact Position.eq_of_container_key (hf.container.symm.trans hc) (hf.key.symm.trans hk)
  · next hp =>
    left
    have hb := (mem_bucket_fileNew _ _).mp hf.bucket
    exact ⟨hdata, hb.resolve_right fun hb => hp (by rw [hb.2]), hf.container, hf.key, hf.live,
      hf.node⟩

theorem Sound.grew_fileNew (h : s.Sound K) : s.Grew (s.fileNew pos d) where
  rest := rfl
  kept p e he := by
    obtain ⟨e', he', hk⟩ := (Grew.refl h).kept p e he
    obtain rfl : e = e' := Option.some.inj (he.symm.trans he')
    exact ⟨e, getElem?_fileNew_of_some he, hk.1, fun _ => ⟨rfl, .inl rfl⟩⟩
  bucket c p hp := (mem_bucket_fileNew _ _).mpr (.inl hp)
  fresh c p e hp he := by
    refine ((mem_bucket_fileNew _ _).mp hp).resolve_right fun hp => ?_
    have := (Array.getElem?_eq_some_iff.mp he).1
    rw [hp.2] at this
    exact Nat.lt_irrefl _ this

theorem Sound.fileNew (h : s.Sound K) (hw : pos.Within K) (hc : d.container = pos.container)
    (hk : d.key = pos.key) (hr : d.removed = false) (hn : d.node = s.tree.occupant? pos)
    (hfree : ∀ p e, ¬ s.Files p pos e) (hpar : s.Adopts pos.container d.parent) :
    (s.fileNew pos d).Sound K where
  forest := h.forest
  filed c p hp := by
    rcases (mem_bucket_fileNew _ _).mp hp with hp | ⟨rfl, rfl⟩
    · obtain ⟨pos', e, hc', hw', hf⟩ := h.filed c p hp
      exact ⟨pos', e, hc', hw', hf.fileNew⟩
    · exact ⟨pos, d, rfl, hw, files_fileNew hc hk hr hn⟩
  nodup c := by
    rw [bucket_fileNew]
    split
    · exact List.nodup_append.mpr ⟨h.nodup _, by simp,
        fun a ha b hb => by
          rw [List.mem_singleton.mp hb]
          exact fun hab => h.not_mem_bucket_size _ (hab ▸ ha)⟩
    · exact h.nodup c
  unique p q pos' e e' hp hq hne := by
    rcases hp.of_fileNew hc hk with hold | ⟨hnew, hpos, -⟩
    · rcases hq.of_fileNew hc hk with hold' | ⟨-, hpos, -⟩
      · exact h.unique p q pos' e e' hold hold' hne
      · exact absurd (hpos ▸ hold) (hfree _ _)
    · rcases hq.of_fileNew hc hk with hold' | ⟨hnew', -, -⟩
      · exact absurd (hpos ▸ hold') (hfree _ _)
      · rw [hnew, hnew']
  held p e he hne := by
    rw [getElem?_fileNew] at he
    split at he
    · next hp =>
      obtain rfl := Option.some.inj he
      exact (mem_bucket_fileNew _ _).mpr (.inr ⟨hc, by cases p; simpa using hp⟩)
    · exact (mem_bucket_fileNew _ _).mpr (.inl (h.held p e he hne))
  adrift q p hp := by
    obtain ⟨e, he, hpl⟩ := h.adrift q p hp
    exact ⟨e, getElem?_fileNew_of_some he, hpl⟩
  linked p pos' e hf hw' := by
    refine (h.grew_fileNew).adopts h ?_
    rcases hf.of_fileNew hc hk with hold | ⟨-, rfl, rfl⟩
    · exact h.linked p pos' e hold hw'
    · exact hpar

end FileNew

/-- Giving a filed path a parent that holds the owner. -/
theorem Sound.grew_reparent {s : Session} {K : Set NodeId} (h : s.Sound K) {p : PathId}
    {pos : Position} {d : PathData} (hf : s.Files p pos d) {parent : Option PathId}
    (hpar : s.Adopts pos.container parent) (f : PathData → PathData)
    (hfd : f d = { d with parent }) : s.Grew { s with paths := s.paths.modify p.index f } where
  rest := rfl
  kept q e he := by
    obtain ⟨e', he', hk⟩ := (Grew.refl h).kept q e he
    obtain rfl : e = e' := Option.some.inj (he.symm.trans he')
    by_cases hq : q = p
    · subst hq
      obtain rfl : d = e := Option.some.inj (hf.data.symm.trans he)
      refine ⟨{ d with parent }, by rw [getElem?_modify_paths, if_pos rfl, he, ← hfd]; rfl,
        fun hc => absurd (hf.container.symm.trans hc) pos.container_ne_detached,
        fun _ => ⟨rfl, .inr ?_⟩⟩
      have halike : s.Alike { s with paths := s.paths.modify q.index f } :=
        s.alike_modify q f fun d' hd' => by
          obtain rfl : d = d' := Option.some.inj (he.symm.trans hd')
          rw [hfd]; rfl
      rw [hf.container]
      unfold Adopts at hpar ⊢
      cases hc : pos.container.parent? with
      | none => simpa [hc] using hpar
      | some n =>
        rw [hc] at hpar
        obtain ⟨r, hr, hn⟩ := hpar
        exact ⟨r, hr, halike.holds hn⟩
    · exact ⟨e, by rw [getElem?_modify_paths, if_neg hq, he], hk.1, fun _ => ⟨rfl, .inl rfl⟩⟩
  bucket _ _ hp := hp
  fresh _ _ _ hp _ := hp

/-- The session has navigated. -/
structure Went (s : Session) (K : Set NodeId) (s' : Session) : Prop where
  sound : s'.Sound K
  grew : s.Grew s'
  scopes : s'.scopes = s.scopes

theorem Went.refl {s : Session} {K : Set NodeId} (h : s.Sound K) : s.Went K s :=
  ⟨h, .refl h, rfl⟩

theorem Went.trans {s s₁ s₂ : Session} {K : Set NodeId} (h₁ : s.Went K s₁) (h₂ : s₁.Went K s₂) :
    s.Went K s₂ :=
  ⟨h₂.sound, h₁.grew.trans h₂.grew h₁.sound, h₂.scopes.trans h₁.scopes⟩

theorem Went.tree {s s' : Session} {K : Set NodeId} (h : s.Went K s') : s'.tree = s.tree :=
  h.grew.tree

/-- What going to a position gives: a path that is filed there. -/
structure Reaches (s : Session) (K : Set NodeId) (pos : Position) (parent : Option PathId)
    (p : PathId) (s' : Session) : Prop extends Went s K s' where
  files : ∃ d, s'.Files p pos d ∧ d.parent = parent

end Session

open Session in
/-- Going to a position of the forest succeeds. -/
theorem pathFor_returns {s : Session} {K : Set NodeId} (pos : Position) (h : s.Sound K)
    (hw : pos.Within K) {parent : Option PathId} (hpar : s.Adopts pos.container parent) :
    Returns (pathFor parent pos.container pos.key) s (s.Reaches K pos parent) := by
  unfold pathFor
  rw [if_neg pos.container_ne_detached]
  refine returns_bind_of_ok (nodeAt_run pos (h.kind_parent hw)) ?_
  rw [Returns, run_get_bind]
  cases hcached : s.cached? pos.container pos.key (s.tree.occupant? pos) with
  | some p =>
    obtain ⟨d, hf⟩ := h.files_of_cached hw hcached
    have hfd : ({ d with parent, key := pos.key, node := s.tree.occupant? pos } : PathData) =
        { d with parent } := by
      rw [← hf.key, ← hf.node]
    refine ⟨p, _, bind_of_ok (p.modifyData_run hf.data _), ?_⟩
    have hgrew := h.grew_reparent hf hpar
      (fun d => { d with parent, key := pos.key, node := s.tree.occupant? pos }) hfd
    have halike := s.alike_modify p
      (fun d => { d with parent, key := pos.key, node := s.tree.occupant? pos }) fun d' hd' => by
        obtain rfl : d = d' := Option.some.inj (hf.data.symm.trans hd')
        rw [hfd]; rfl
    obtain ⟨d', hf', -, -⟩ := hgrew.files hf
    refine ⟨⟨halike.sound_of_grew h hgrew, hgrew, rfl⟩, d', hf', ?_⟩
    have hdata := hf'.data
    rw [getElem?_modify_paths, if_pos rfl, hf.data] at hdata
    rw [← Option.some.inj hdata]
  | none =>
    have hfree := fun (p : PathId) (e : PathData) => Sound.not_files_of_cached (d := e) hcached (p := p)
    refine ⟨⟨s.paths.size⟩, s.fileNew pos
      { node := s.tree.occupant? pos, parent, container := pos.container, key := pos.key }, rfl, ?_⟩
    exact ⟨⟨h.fileNew hw rfl rfl rfl rfl hfree hpar, h.grew_fileNew, rfl⟩, _,
      files_fileNew rfl rfl rfl rfl, rfl⟩

end Espalier
