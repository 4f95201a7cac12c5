import Espalier.Proofs.ClosedScopes
import Espalier.Proofs.Placing

set_option autoImplicit false

/-! # Paths that stay, and one more in a list

A path `Dwells` a position when it is filed there and navigation finds it again. Where nothing is
written to the bucket of the position and to the owner, it goes on to do so (`Dwells.of_same`),
whatever becomes of the rest of the tree: nothing is asked here about nodes that stand at two
places. Going to an position gives its path (`pathFor_run_of_dwells`), and a node that is
new to a list gets a new path (`PathId.insertAt_run_of_new`). -/

namespace Espalier

open SessionM

namespace Session

variable {s s' : Session} {p q : PathId} {pos : Position} {d : PathData} {c : Container}
  {n : NodeId} {parent : Option PathId}

/-! ## Positions with someone in them -/

/-- Buckets hold known paths of their container, each of them once. -/
structure Catalogued (s : Session) : Prop where
  filed : ∀ c (p : PathId), p ∈ s.bucket c → ∃ d, s.paths[p.index]? = some d ∧ d.container = c
  nodup : ∀ c, (s.bucket c).Nodup

/-- The path is filed at the position, and navigation to the position finds it. -/
structure Dwells (s : Session) (p : PathId) (pos : Position) (d : PathData) : Prop
    extends Files s p pos d where
  found : s.cached? pos.container pos.key (s.tree.occupant? pos) = some p

/-- The bucket has the same paths, and they are as they were. -/
def SameIn (s s' : Session) (c : Container) : Prop :=
  s'.bucket c = s.bucket c ∧ ∀ q ∈ s.bucket c, s'.paths[q.index]? = s.paths[q.index]?

theorem Sound.catalogued {K : Set NodeId} (h : s.Sound K) : s.Catalogued where
  filed c p hp := by
    obtain ⟨pos, d, rfl, -, hf⟩ := h.filed c p hp
    exact ⟨d, hf.data, hf.container⟩
  nodup := h.nodup

/-- In a sound session a path with a node occupies the position where it is filed. -/
theorem Sound.dwells {K : Set NodeId} (h : s.Sound K) (hw : pos.Within K) (hf : s.Files p pos d)
    (hn : d.node ≠ none) : s.Dwells p pos d := by
  refine ⟨hf, ?_⟩
  cases hfound : s.cached? pos.container pos.key (s.tree.occupant? pos) with
  | none => exact absurd hf (Sound.not_files_of_cached hfound)
  | some q =>
    obtain ⟨e, hq⟩ := h.files_of_cached hw hfound
    rw [h.unique p q pos d e hf hq hn]

theorem cached?_of_same (h : s.SameIn s' c) (k : Key) (node : Option NodeId) :
    s'.cached? c k node = s.cached? c k node := by
  unfold cached?
  rw [h.1]
  rw [← List.head?_filter, ← List.head?_filter]
  congr 1
  refine List.filter_congr fun q hq => ?_
  rw [h.2 q hq]

/-- A path stays where neither its bucket nor the position is written to. -/
theorem Dwells.of_same (h : s.Dwells p pos d) (hsame : s.SameIn s' pos.container)
    (hocc : s'.tree.occupant? pos = s.tree.occupant? pos) : s'.Dwells p pos d where
  data := (hsame.2 p h.bucket).trans h.data
  bucket := hsame.1.symm ▸ h.bucket
  container := h.container
  key := h.key
  live := h.live
  node := hocc ▸ h.node
  found := by rw [hocc, cached?_of_same hsame, h.found]

/-- Writing to a path what it has already. -/
theorem modify_paths_eq_self (hd : s.paths[p.index]? = some d) {f : PathData → PathData}
    (hf : f d = d) : s.paths.modify p.index f = s.paths := by
  refine Array.ext_getElem? fun i => ?_
  rw [Array.getElem?_modify]
  split
  · next hi =>
    subst hi
    rw [hd, Option.map_some, hf]
  · rfl

/-- Going to an position from the path around it changes nothing. -/
theorem pathFor_run_of_dwells (h : s.Dwells p pos d) (hparent : d.parent = parent)
    (hk : ∀ m, pos.parent? = some m → ∃ k, s.tree.kind? m = some k) :
    pathFor parent pos.container pos.key s = .ok p s := by
  unfold pathFor
  rw [if_neg pos.container_ne_detached, bind_of_ok (nodeAt_run pos hk), run_get_bind, h.found]
  dsimp only
  rw [bind_of_ok (p.modifyData_run h.data _), modify_paths_eq_self h.data]
  · rfl
  · rw [← hparent, ← h.key, ← h.node]

end Session

open Session

variable {s s' : Session} {p q host : PathId} {d : PathData} {owner n : NodeId} {f : Field}
  {ids : List NodeId} {i : Nat} {k : NodeKind} {pos : Position}

theorem PathId.child_run_of_dwells (hp : s.Holds p n) (hk : s.tree.kind? n = some k)
    (hc : (∃ m, k.child? f = some (.one m)) ∨ ∃ o, k.child? f = some (.opt o))
    (hq : s.Dwells q (.slot n f) d) (hparent : d.parent = some p) : p.child f s = .ok q s := by
  unfold PathId.child
  rw [bind_of_ok (PathId.node?_run_of_holds hp)]
  show ((ask fun t => t.kind? n) >>= _) s = _
  rw [bind_of_ok (ask_run hk)]
  have hrun := pathFor_run_of_dwells hq hparent fun m hm => Option.some.inj hm ▸ ⟨k, hk⟩
  rcases hc with ⟨m, hc⟩ | ⟨o, hc⟩
  all_goals
    rw [hc]
    exact hrun

theorem PathId.element_run_of_dwells (hp : s.Holds p n) (hk : s.tree.kind? n = some k)
    (hc : k.child? f = some (.many ids)) (hq : s.Dwells q (.item n f i) d)
    (hparent : d.parent = some p) : p.element f i s = .ok q s := by
  unfold PathId.element
  rw [bind_of_ok (PathId.node?_run_of_holds hp)]
  show ((ask fun t => t.kind? n) >>= _) s = _
  rw [bind_of_ok (ask_run hk), hc]
  exact pathFor_run_of_dwells hq hparent fun m hm => Option.some.inj hm ▸ ⟨k, hk⟩

/-! ## New nodes -/

namespace Session

/-- The session with a new node of the kind. -/
def allocated (s : Session) (k : NodeKind) : Session := { s with tree := s.tree.push { kind := k } }

theorem alloc_run (k : NodeKind) :
    onTree (TreeM.alloc k) s = .ok ⟨s.tree.size⟩ (s.allocated k) := rfl

theorem kind?_allocated (k : NodeKind) (n : NodeId) :
    (s.allocated k).tree.kind? n = if n.index = s.tree.size then some k else s.tree.kind? n := by
  simp only [allocated, Tree.kind?, Tree.node?_push]
  split <;> rfl

@[simp] theorem size_allocated (k : NodeKind) : (s.allocated k).tree.size = s.tree.size + 1 := by
  simp [allocated]

theorem kind?_allocated_of_some {k k' : NodeKind} (h : s.tree.kind? n = some k') :
    (s.allocated k).tree.kind? n = some k' := by
  have hlt := (s.tree.kind?_isSome_iff n).mp ⟨k', h⟩
  rw [kind?_allocated, if_neg (by omega), h]

/-- Paths and buckets have nothing to do with the scopes, nor with new nodes. -/
theorem sameIn_of_paths {c : Container} (hp : s'.paths = s.paths) (hc : s'.cache = s.cache) :
    s.SameIn s' c := by
  refine ⟨by simp only [bucket, hc], fun q _ => by rw [hp]⟩

theorem Catalogued.of_paths (h : s.Catalogued) (hp : s'.paths = s.paths) (hc : s'.cache = s.cache) :
    s'.Catalogued where
  filed c p hb := by
    rw [hp]
    refine h.filed c p ?_
    simpa only [bucket, hc] using hb
  nodup c := by simpa only [bucket, hc] using h.nodup c

end Session

/-! ## One more node in a list -/

/-- What is known about a new path for an element of a list. -/
def PathData.element (host : PathId) (owner : NodeId) (f : Field) (i : Nat) (n : NodeId) :
    PathData :=
  { node := some n, parent := some host, container := .list owner f, key := .index i }

/-- An element of a list that no path holds gets a new path. -/
theorem PathId.element_run_of_new (hhost : s.Holds host owner) (hk : s.tree.kind? owner = some k)
    (hc : k.child? f = some (.many ids)) (hn : ids[i]? = some n)
    (hnew : ∀ q ∈ s.bucket (.list owner f), ∀ d, s.paths[q.index]? = some d → d.node ≠ some n) :
    host.element f i s =
      .ok ⟨s.paths.size⟩ (s.fileNew (.item owner f i) (.element host owner f i n)) := by
  have hocc : s.tree.occupant? (.item owner f i) = some n := by
    simp [Tree.occupant?, Tree.list?, Tree.field?, hk, hc, Child.list?, hn]
  have hfree : s.cached? (Position.item owner f i).container (Position.item owner f i).key
      (some n) = none := by
    refine List.find?_eq_none.mpr fun q hq => ?_
    cases hd : s.paths[q.index]? with
    | none => simp
    | some d => simpa [PathData.standsFor, Position.container] using hnew q hq d hd
  unfold PathId.element
  rw [bind_of_ok (PathId.node?_run_of_holds hhost)]
  show ((ask fun t => t.kind? owner) >>= _) s = _
  rw [bind_of_ok (ask_run hk), hc]
  show pathFor (some host) (Position.item owner f i).container (Position.item owner f i).key s = _
  unfold pathFor
  rw [if_neg (Position.container_ne_detached _), bind_of_ok (nodeAt_run (.item owner f i)
    fun m hm => Option.some.inj hm ▸ ⟨k, hk⟩), run_get_bind, hocc, hfree]
  rfl

@[simp] theorem PathData.removed_shifted (start : Nat) (delta : Int) (d : PathData) :
    (d.shifted start delta).removed = d.removed := by
  unfold shifted
  split
  · split <;> rfl
  · rfl

@[simp] theorem PathData.container_shifted (start : Nat) (delta : Int) (d : PathData) :
    (d.shifted start delta).container = d.container := by
  unfold shifted
  split
  · split <;> rfl
  · rfl

namespace Session

@[simp] theorem size_mapPaths (ps : List PathId) (g : PathData → PathData) :
    (s.mapPaths ps g).paths.size = s.paths.size := by
  induction ps generalizing s with
  | nil => rfl
  | cons p ps ih =>
    have hstep : s.mapPaths (p :: ps) g =
        mapPaths { s with paths := s.paths.modify p.index g } ps g := rfl
    rw [hstep, ih]
    exact Array.size_modify

@[simp] theorem size_spliced (nodes : List NodeId) :
    (s.spliced owner f ids i nodes).paths.size = s.paths.size := size_mapPaths _ _

theorem getElem?_spliced (h : s.Catalogued) (hd : s.paths[q.index]? = some d) (nodes : List NodeId) :
    (s.spliced owner f ids i nodes).paths[q.index]? =
      some (if q ∈ s.bucket (.list owner f) then d.shifted i nodes.length else d) := by
  show (mapPaths (s.withList owner f (ids.take i ++ nodes ++ ids.drop i))
    (s.bucket (.list owner f)) (PathData.shifted i nodes.length)).paths[q.index]? = _
  rw [getElem?_mapPaths (h.nodup _),
    show (s.withList owner f (ids.take i ++ nodes ++ ids.drop i)).paths[q.index]? = some d from hd]
  split <;> rfl

/-- The session with a node put into a list at index `i`, held by a new path. -/
def joined (s : Session) (host : PathId) (owner : NodeId) (f : Field) (ids : List NodeId) (i : Nat)
    (n : NodeId) : Session :=
  { (s.spliced owner f ids i [n]).fileNew (.item owner f i) (.element host owner f i n) with
    mutations := s.mutations + 1 }

@[simp] theorem scopes_joined : (s.joined host owner f ids i n).scopes = s.scopes := rfl

theorem tree_joined (host : PathId) (hk : s.tree.kind? owner = some k)
    (hc : k.child? f = some (.many ids)) : s.tree.Relisted owner f ids (ids.take i ++ [n] ++ ids.drop i)
      (s.joined host owner f ids i n).tree := relisted_withList hk hc _

theorem bucket_joined (c : Container) : (s.joined host owner f ids i n).bucket c =
    if c = .list owner f then s.bucket c ++ [⟨s.paths.size⟩] else s.bucket c := by
  show ((s.spliced owner f ids i [n]).fileNew (.item owner f i)
    (.element host owner f i n)).bucket c = _
  rw [bucket_fileNew, size_spliced]
  show (if c = .list owner f then s.bucket (.list owner f) ++ _ else s.bucket c) = _
  split
  · next hc => rw [hc]
  · rfl

/-- The new path. -/
theorem getElem?_joined_new : (s.joined host owner f ids i n).paths[s.paths.size]? =
    some (.element host owner f i n) := by
  show ((s.spliced owner f ids i [n]).fileNew (.item owner f i)
    (.element host owner f i n)).paths[s.paths.size]? = _
  rw [getElem?_fileNew ⟨s.paths.size⟩, size_spliced, if_pos rfl]

/-- The old paths, of which those in the list may have another index. -/
theorem getElem?_joined (h : s.Catalogued) (hd : s.paths[q.index]? = some d) :
    (s.joined host owner f ids i n).paths[q.index]? =
      some (if q ∈ s.bucket (.list owner f) then d.shifted i 1 else d) := by
  show ((s.spliced owner f ids i [n]).fileNew (.item owner f i)
    (.element host owner f i n)).paths[q.index]? = _
  exact getElem?_fileNew_of_some (getElem?_spliced h hd [n])

/-- Other buckets stay as they are. -/
theorem same_joined (h : s.Catalogued) {c : Container} (hc : c ≠ .list owner f) :
    s.SameIn (s.joined host owner f ids i n) c := by
  refine ⟨by rw [bucket_joined, if_neg hc], fun q hq => ?_⟩
  obtain ⟨d, hd, hcd⟩ := h.filed c q hq
  have hnot : q ∉ s.bucket (.list owner f) := by
    intro hmem
    obtain ⟨e, he, hce⟩ := h.filed _ q hmem
    obtain rfl := Option.some.inj (hd.symm.trans he)
    exact hc (hcd.symm.trans hce)
  rw [getElem?_joined h hd, if_neg hnot, hd]

/-- Changing a path without moving it to another container. -/
theorem Catalogued.of_containers (h : s.Catalogued) (hc : s'.cache = s.cache)
    (hp : ∀ (p : PathId) d, s.paths[p.index]? = some d →
      ∃ d', s'.paths[p.index]? = some d' ∧ d'.container = d.container) : s'.Catalogued where
  filed c p hb := by
    obtain ⟨d, hd, hcontainer⟩ := h.filed c p (by simpa only [bucket, hc] using hb)
    obtain ⟨d', hd', hcontainer'⟩ := hp p d hd
    exact ⟨d', hd', hcontainer'.trans hcontainer⟩
  nodup c := by simpa only [bucket, hc] using h.nodup c

/-- Filing a new path in its container. -/
theorem Catalogued.fileNew (h : s.Catalogued) (hc : d.container = pos.container) :
    (s.fileNew pos d).Catalogued where
  filed c p hp := by
    rcases (mem_bucket_fileNew c p).mp hp with hp | ⟨rfl, rfl⟩
    · obtain ⟨e, he, hce⟩ := h.filed c p hp
      exact ⟨e, getElem?_fileNew_of_some he, hce⟩
    · exact ⟨d, by rw [getElem?_fileNew, if_pos rfl], hc⟩
  nodup c := by
    rw [bucket_fileNew]
    split
    · refine List.nodup_append.mpr ⟨h.nodup _, by simp, fun a ha b hb hab => ?_⟩
      obtain ⟨e, he, -⟩ := h.filed _ a ha
      have hlt := (Array.getElem?_eq_some_iff.mp he).1
      rw [hab, List.mem_singleton.mp hb] at hlt
      exact Nat.lt_irrefl _ hlt
    · exact h.nodup c

theorem Catalogued.joined (h : s.Catalogued) : (s.joined host owner f ids i n).Catalogued := by
  have hspliced : (s.spliced owner f ids i [n]).Catalogued := by
    refine h.of_containers rfl fun p d hd => ⟨_, getElem?_spliced h hd [n], ?_⟩
    split
    · exact PathData.container_shifted _ _ _
    · rfl
  have hfiled : ((s.spliced owner f ids i [n]).fileNew (.item owner f i)
      (.element host owner f i n)).Catalogued := hspliced.fileNew rfl
  exact hfiled.of_paths rfl rfl

/-- The new path dwells where the node was put. -/
theorem dwells_joined (host : PathId) (h : s.Catalogued) (hk : s.tree.kind? owner = some k)
    (hc : k.child? f = some (.many ids)) (hi : i ≤ ids.length)
    (hnew : ∀ q ∈ s.bucket (.list owner f), ∀ d, s.paths[q.index]? = some d → d.node ≠ some n) :
    (s.joined host owner f ids i n).Dwells ⟨s.paths.size⟩ (.item owner f i)
      (.element host owner f i n) := by
  have hocc : (s.joined host owner f ids i n).tree.occupant? (.item owner f i) = some n := by
    have hlen : (ids.take i).length = i := List.length_take_of_le hi
    rw [Tree.occupant?, (tree_joined host hk hc).list?', Option.bind_some, List.append_assoc,
      List.getElem?_append_right (by omega), hlen, Nat.sub_self]
    rfl
  have hbucket : (s.joined host owner f ids i n).bucket (.list owner f) =
      s.bucket (.list owner f) ++ [⟨s.paths.size⟩] := by
    rw [bucket_joined, if_pos rfl]
  refine ⟨⟨getElem?_joined_new, ?_, rfl, rfl, rfl, hocc.symm⟩, ?_⟩
  · show _ ∈ bucket _ (.list owner f)
    rw [hbucket]
    simp
  · rw [hocc]
    show List.find? _ (bucket _ (.list owner f)) = _
    rw [hbucket, List.find?_append, List.find?_eq_none.mpr, Option.none_or]
    · have hself : (PathData.element host owner f i n).standsFor (.list owner f) (.index i)
          (some n) = true := by simp [PathData.standsFor, PathData.element]
      rw [List.find?_singleton, getElem?_joined_new]
      exact if_pos hself
    · -- The old paths of the list hold other nodes.
      intro q hq
      obtain ⟨d, hd, -⟩ := h.filed _ q hq
      rw [getElem?_joined h hd, if_pos hq]
      simpa [PathData.standsFor, Position.container] using hnew q hq d hd

end Session

/-- A node that no path of the list holds is put into the list, and gets a new path. -/
theorem PathId.insertAt_run_of_new (h : s.Catalogued) (hhost : s.Holds host owner)
    (hk : s.tree.kind? owner = some k) (hc : k.child? f = some (.many ids)) (hi : i ≤ ids.length)
    (hnew : ∀ q ∈ s.bucket (.list owner f), ∀ d, s.paths[q.index]? = some d → d.node ≠ some n) :
    host.insertAt f i [n] s =
      (do registerInserted [⟨s.paths.size⟩]; pure [(⟨s.paths.size⟩ : PathId)])
        (s.joined host owner f ids i n) := by
  have hshift := shiftKeys_run (s := s.withList owner f (ids.take i ++ [n] ++ ids.drop i))
    (.list owner f) i 1 fun q hq => (h.filed _ q hq).imp fun _ hd => hd.1
  have helement : host.element f i (s.spliced owner f ids i [n]) = .ok ⟨s.paths.size⟩
      ((s.spliced owner f ids i [n]).fileNew (.item owner f i) (.element host owner f i n)) := by
    obtain ⟨k', hk', -, hkind⟩ := (relisted_withList hk hc (ids.take i ++ [n] ++ ids.drop i)).list
    obtain rfl := Option.some.inj (hk.symm.trans hk')
    have hhost₁ : (s.spliced owner f ids i [n]).Holds host owner := by
      obtain ⟨d, hd, hn⟩ := hhost
      refine ⟨_, getElem?_spliced h hd [n], ?_⟩
      split
      · rwa [PathData.node_shifted]
      · exact hn
    have hat : (ids.take i ++ [n] ++ ids.drop i)[i]? = some n := by
      have hlen : (ids.take i).length = i := List.length_take_of_le hi
      rw [List.append_assoc, List.getElem?_append_right (by omega), hlen, Nat.sub_self]
      rfl
    have hrun := PathId.element_run_of_new (i := i) hhost₁ hkind (NodeKind.child?_setList k f hc _)
      hat fun q hq d hd => ?_
    · rwa [size_spliced] at hrun
    · obtain ⟨e, he, -⟩ := h.filed _ q hq
      rw [getElem?_spliced h he [n], if_pos (show q ∈ s.bucket _ from hq), Option.some.injEq] at hd
      rw [← hd, PathData.node_shifted]
      exact hnew q hq e he
  unfold PathId.insertAt
  rw [bind_of_ok (PathId.node?_run_of_holds hhost)]
  show ((ask fun t => t.kind? owner) >>= _) s = _
  rw [bind_of_ok (ask_run hk), hc]
  dsimp only
  rw [if_neg (by omega), bind_of_ok (modifyKind_run hk _)]
  refine (bind_of_ok hshift).trans ?_
  have hone : ((List.range [n].length).mapM fun j => host.element f (i + j))
      (s.spliced owner f ids i [n]) = .ok [⟨s.paths.size⟩]
        ((s.spliced owner f ids i [n]).fileNew (.item owner f i) (.element host owner f i n)) := by
    show ([0].mapM fun j => host.element f (i + j)) _ = _
    rw [List.mapM_cons]
    exact bind_of_ok helement
  refine (bind_of_ok hone).trans ?_
  refine (bind_of_ok (show recordMutation _ = .ok () _ from rfl)).trans ?_
  have hasked : scopesCrawled (s.joined host owner f ids i n) =
    .ok s.scopes.crawled (s.joined host owner f ids i n) := rfl
  unfold registerInserted
  rw [bind_assoc, bind_of_ok hasked]
  refine (bind_of_ok hasked).trans ?_
  cases s.scopes.crawled <;> rfl

end Espalier
