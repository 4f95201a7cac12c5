import Espalier.Proofs.Bodies

set_option autoImplicit false

/-! # Arrow functions get a block

Names cannot be declared in an arrow function whose body is an expression, so the body becomes a
block that returns the expression. The path of the expression is moved out of the way first and
then to its place below the `return`; the block and the `return` get paths of their own
(`ensureBlock_run_of_arrow`). -/

namespace Espalier

open SessionM Session

variable {s s' : Session} {p q x block host : PathId} {d e : PathData} {fn expr n : NodeId}
  {k : NodeKind} {K : Set NodeId} {c old new : Container} {key : Key} {parent : Option PathId}

/-! ## Moving a path -/

namespace Session

/-- The session with a path moved to another position. -/
def relocated (s : Session) (p : PathId) (old : Container) (parent : Option PathId)
    (new : Container) (k : Key) : Session :=
  { s.rehomed p old new with
    paths := (s.rehomed p old new).paths.modify p.index fun d => { d with parent, key := k } }

@[simp] theorem tree_relocated : (s.relocated p old parent new key).tree = s.tree :=
  tree_unfiled _ _

@[simp] theorem scopes_relocated : (s.relocated p old parent new key).scopes = s.scopes :=
  scopes_unfiled _ _

@[simp] theorem size_relocated :
    (s.relocated p old parent new key).paths.size = s.paths.size := by
  simp [relocated]

theorem getElem?_relocated_self (hd : s.paths[p.index]? = some d) :
    (s.relocated p old parent new key).paths[p.index]? =
      some { d with container := new, parent, key } := by
  show (Array.modify _ _ _)[p.index]? = _
  rw [getElem?_modify_paths, if_pos rfl, paths_rehomed, getElem?_modify_paths, if_pos rfl, hd]
  rfl

theorem getElem?_relocated (hq : q ≠ p) :
    (s.relocated p old parent new key).paths[q.index]? = s.paths[q.index]? := by
  show (Array.modify _ _ _)[q.index]? = _
  rw [getElem?_modify_paths, if_neg hq, paths_rehomed, getElem?_modify_paths, if_neg hq]

theorem bucket_relocated (c : Container) : (s.relocated p old parent new key).bucket c =
    if c = new then (s.unfiled old p).bucket new ++ [p] else (s.unfiled old p).bucket c :=
  bucket_insert (s.unfiled old p) new c _

theorem Catalogued.relocated (h : s.Catalogued) (hd : s.paths[p.index]? = some d)
    (hold : d.container = old) : (s.relocated p old parent new key).Catalogued := by
  have hout : p ∉ (s.unfiled old p).bucket new := by
    rw [bucket_unfiled]
    split
    · simp
    · next hne =>
      intro hp
      obtain ⟨e, he, hce⟩ := h.filed new p hp
      obtain rfl := Option.some.inj (hd.symm.trans he)
      exact hne (hce.symm.trans hold)
  have hback : ∀ {c q}, q ∈ (s.unfiled old p).bucket c → q ∈ s.bucket c ∧ q ≠ p := by
    intro c q hq
    rw [bucket_unfiled] at hq
    split at hq
    · next hc =>
      obtain ⟨hq, hne⟩ := List.mem_filter.mp hq
      exact ⟨hc ▸ hq, by simpa using hne⟩
    · next hc =>
      refine ⟨hq, ?_⟩
      rintro rfl
      obtain ⟨e, he, hce⟩ := h.filed c q hq
      obtain rfl := Option.some.inj (hd.symm.trans he)
      exact hc (hce.symm.trans hold)
  have hnodup : ∀ c, ((s.unfiled old p).bucket c).Nodup := by
    intro c
    rw [bucket_unfiled]
    split
    · exact (h.nodup old).filter _
    · exact h.nodup c
  have hfiled : ∀ {c q}, q ∈ (s.unfiled old p).bucket c →
      ∃ e, (s.relocated p old parent new key).paths[q.index]? = some e ∧ e.container = c := by
    intro c q hq
    obtain ⟨hq, hne⟩ := hback hq
    obtain ⟨e, he, hce⟩ := h.filed c q hq
    exact ⟨e, by rw [getElem?_relocated hne, he], hce⟩
  constructor
  · intro c q hq
    rw [bucket_relocated] at hq
    split at hq
    · next hc =>
      rcases List.mem_append.mp hq with hq | hq
      · obtain ⟨e, he, hce⟩ := hfiled hq
        exact ⟨e, he, hce.trans hc.symm⟩
      · obtain rfl := List.mem_singleton.mp hq
        exact ⟨_, getElem?_relocated_self hd, hc.symm⟩
    · exact hfiled hq
  · intro c
    rw [bucket_relocated]
    split
    · refine List.nodup_append.mpr ⟨hnodup new, by simp, fun a ha b hb hab => hout ?_⟩
      rwa [hab, List.mem_singleton.mp hb] at ha
    · exact hnodup c

end Session

theorem PathId.moveTo_run (hd : s.paths[p.index]? = some d) (parent : Option PathId)
    (c : Container) (key : Key) :
    p.moveTo parent c key s = .ok () (s.relocated p d.container parent c key) := by
  unfold PathId.moveTo
  rw [bind_of_ok (PathId.moveToContainer_run hd c)]
  have hd' : (s.rehomed p d.container c).paths[p.index]? = some { d with container := c } := by
    rw [paths_rehomed, getElem?_modify_paths, if_pos rfl, hd]
    rfl
  exact PathId.modifyData_run hd' _

/-! ## A position without a path -/

/-- The first path of a position is made. -/
theorem pathFor_run_of_free {pos : Position} (parent : Option PathId) (hk : ∀ m, pos.parent? = some m → ∃ k, s.tree.kind? m = some k)
    (hfree : s.cached? pos.container pos.key (s.tree.occupant? pos) = none) :
    pathFor parent pos.container pos.key s = .ok ⟨s.paths.size⟩ (s.fileNew pos
      { node := s.tree.occupant? pos, parent, container := pos.container, key := pos.key }) := by
  unfold pathFor
  rw [if_neg pos.container_ne_detached, bind_of_ok (nodeAt_run pos hk), run_get_bind, hfree]
  rfl

namespace Session

/-- The session with a node put into a single-node field, at a path. -/
def slotted (s : Session) (p : PathId) (owner : NodeId) (f : Field) (new : NodeId) : Session :=
  { s with
    tree := s.tree.modify owner fun node => { node with kind := node.kind.setNode f new }
    paths := s.paths.modify p.index fun d => { d with node := some new, inferred := none } }

theorem kind?_slotted (owner : NodeId) (f : Field) (new n : NodeId) :
    (s.slotted p owner f new).tree.kind? n =
      if n = owner then (s.tree.kind? n).map fun k => k.setNode f new else s.tree.kind? n := by
  simp only [slotted, Tree.kind?, Tree.node?_modify]
  split
  · rw [Option.map_map, Option.map_map]
    rfl
  · rfl

theorem getElem?_slotted (owner : NodeId) (f : Field) (new : NodeId) (q : PathId) :
    (s.slotted p owner f new).paths[q.index]? =
      if q = p then s.paths[q.index]?.map fun d => { d with node := some new, inferred := none }
      else s.paths[q.index]? := getElem?_modify_paths _ _ _ _

theorem Catalogued.slotted (h : s.Catalogued) (owner : NodeId) (f : Field) (new : NodeId) :
    (s.slotted p owner f new).Catalogued := by
  refine h.of_containers rfl fun q d hd => ?_
  rw [getElem?_slotted, hd]
  split
  · exact ⟨_, rfl, rfl⟩
  · exact ⟨_, rfl, rfl⟩

end Session

/-- Putting a node into a single-node field. -/
theorem PathId.setNode_run_of_slot (hd : s.paths[p.index]? = some d)
    (hcontainer : d.container = .slot fn) {f : Field} (hkey : d.key = .field f)
    (hk : s.tree.kind? fn = some k) {m : NodeId} (hc : k.child? f = some (.one m)) (new : NodeId) :
    p.setNode new s = .ok () (s.slotted p fn f new) := by
  unfold PathId.setNode
  rw [bind_of_ok (p.data_run hd), hcontainer, hkey]
  show ((ask fun t => t.kind? fn) >>= _) s = _
  rw [bind_of_ok (ask_run hk), hc]
  show (modifyKind fn _ >>= _) s = _
  rw [bind_of_ok (modifyKind_run hk _)]
  exact PathId.modifyData_run (s := { s with
    tree := s.tree.modify fn fun node => { node with kind := node.kind.setNode f new } }) hd _

/-! ## The block and the return -/

/-- What is known about a new path for the body of a function. -/
def PathData.body (block : PathId) (fn n : NodeId) : PathData :=
  { node := some n, parent := some block, container := .slot fn, key := .field .body }

namespace Session

/-- The session with a `return` of the expression and a block around it, and with the path of the
expression out of the way. -/
def cleared (s : Session) (x : PathId) (fn expr : NodeId) : Session :=
  ((s.allocated (.returnStatement (some expr))).allocated
    (.blockStatement [⟨s.tree.size⟩])).relocated x (.slot fn) none (.slot ⟨s.tree.size⟩)
      (.field .argument)

/-- Then with the block as the body of the function, and a path that holds it. -/
def walled (s : Session) (x block : PathId) (fn expr : NodeId) : Session :=
  ((s.cleared x fn expr).fileNew (.slot fn .body) (.body block fn expr)).slotted
    ⟨s.paths.size⟩ fn .body ⟨s.tree.size + 1⟩

/-- Then with a path for the `return`, and with the path of the expression below it. -/
def enclosed (s : Session) (x block : PathId) (fn expr : NodeId) : Session :=
  ((s.walled x block fn expr).fileNew (.item ⟨s.tree.size + 1⟩ .body 0)
    (.element ⟨s.paths.size⟩ ⟨s.tree.size + 1⟩ .body 0 ⟨s.tree.size⟩)).relocated x
      (.slot ⟨s.tree.size⟩) (some ⟨s.paths.size + 1⟩) (.slot ⟨s.tree.size⟩) (.field .argument)

/-! ### Trees -/

/-- The two new nodes. -/
theorem kind?_cleared (n : NodeId) : (s.cleared x fn expr).tree.kind? n =
    if n.index = s.tree.size + 1 then some (.blockStatement [⟨s.tree.size⟩])
    else if n.index = s.tree.size then some (.returnStatement (some expr))
    else s.tree.kind? n := by
  rw [cleared, tree_relocated, kind?_allocated, size_allocated, kind?_allocated]

theorem kind?_cleared_of_some (hn : s.tree.kind? n = some k) :
    (s.cleared x fn expr).tree.kind? n = some k := by
  have hlt := (s.tree.kind?_isSome_iff n).mp ⟨k, hn⟩
  rw [kind?_cleared, if_neg (by omega), if_neg (by omega), hn]

/-- The block takes the place of the expression. -/
theorem kind?_walled (hk : s.tree.kind? fn = some k) (n : NodeId) :
    (s.walled x block fn expr).tree.kind? n =
      if n = fn then some (k.setNode .body ⟨s.tree.size + 1⟩)
      else (s.cleared x fn expr).tree.kind? n := by
  rw [walled, kind?_slotted]
  show (if n = fn then ((s.cleared x fn expr).tree.kind? n).map _ else _) = _
  split
  · next hn =>
    rw [hn, kind?_cleared_of_some hk]
    rfl
  · rfl

theorem tree_enclosed : (s.enclosed x block fn expr).tree = (s.walled x block fn expr).tree :=
  tree_relocated

theorem size_tree_enclosed : (s.enclosed x block fn expr).tree.size = s.tree.size + 2 := by
  rw [tree_enclosed]
  show ((s.cleared x fn expr).tree.modify fn _).size = _
  rw [Tree.size_modify, cleared, tree_relocated, size_allocated, size_allocated]

@[simp] theorem scopes_enclosed : (s.enclosed x block fn expr).scopes = s.scopes := by
  rw [enclosed, scopes_relocated]
  show (s.cleared x fn expr).scopes = _
  rw [cleared, scopes_relocated]
  rfl

/-! ### Paths -/

theorem size_cleared : (s.cleared x fn expr).paths.size = s.paths.size := size_relocated

theorem size_walled : (s.walled x block fn expr).paths.size = s.paths.size + 1 := by
  rw [walled, slotted, Array.size_modify, fileNew, Array.size_push, size_cleared]

/-- The path of the block. -/
theorem getElem?_walled_block : (s.walled x block fn expr).paths[s.paths.size]? =
    some (.body block fn ⟨s.tree.size + 1⟩) := by
  have hnew := getElem?_slotted (s := (s.cleared x fn expr).fileNew (.slot fn .body)
    (.body block fn expr))
    (p := ⟨s.paths.size⟩) fn .body ⟨s.tree.size + 1⟩ ⟨s.paths.size⟩
  rw [if_pos rfl, getElem?_fileNew, if_pos size_cleared.symm] at hnew
  exact hnew

theorem getElem?_walled (hq : q.index < s.paths.size) :
    (s.walled x block fn expr).paths[q.index]? = (s.cleared x fn expr).paths[q.index]? := by
  rw [walled, getElem?_slotted, if_neg, getElem?_fileNew, size_cleared, if_neg (by omega)]
  rintro rfl
  exact Nat.lt_irrefl _ hq

/-- The path of the `return`. -/
theorem getElem?_enclosed_return (hx : x.index < s.paths.size) :
    (s.enclosed x block fn expr).paths[s.paths.size + 1]? =
      some (.element ⟨s.paths.size⟩ ⟨s.tree.size + 1⟩ .body 0 ⟨s.tree.size⟩) := by
  have hne : (⟨s.paths.size + 1⟩ : PathId) ≠ x := by
    rintro rfl
    exact absurd hx (Nat.not_lt.mpr (Nat.le_succ _))
  refine (getElem?_relocated hne).trans ?_
  rw [getElem?_fileNew, size_walled, if_pos rfl]

/-- The path of the block is none of those that move. -/
theorem getElem?_enclosed_block (hx : x.index < s.paths.size) :
    (s.enclosed x block fn expr).paths[s.paths.size]? =
      some (.body block fn ⟨s.tree.size + 1⟩) := by
  have hne : (⟨s.paths.size⟩ : PathId) ≠ x := by
    rintro rfl
    simp at hx
  refine (getElem?_relocated hne).trans ?_
  rw [getElem?_fileNew, size_walled, if_neg (by simp)]
  exact getElem?_walled_block

theorem getElem?_cleared_self (hd : s.paths[x.index]? = some d) :
    (s.cleared x fn expr).paths[x.index]? =
      some { d with container := .slot ⟨s.tree.size⟩, parent := none, key := .field .argument } :=
  getElem?_relocated_self (s := (s.allocated _).allocated _) hd

/-- The path of the expression stands below the `return`. -/
theorem getElem?_enclosed_self (hd : s.paths[x.index]? = some d) :
    (s.enclosed x block fn expr).paths[x.index]? =
      some { d with container := .slot ⟨s.tree.size⟩, parent := some ⟨s.paths.size + 1⟩,
                    key := .field .argument } := by
  have hlt := (Array.getElem?_eq_some_iff.mp hd).1
  refine getElem?_relocated_self (d := { d with
    container := .slot ⟨s.tree.size⟩, parent := none, key := .field .argument }) ?_
  rw [getElem?_fileNew, size_walled, if_neg (by omega), getElem?_walled hlt,
    getElem?_cleared_self hd]

/-- Other paths stay as they are. -/
theorem getElem?_enclosed (hq : q.index < s.paths.size) (hne : q ≠ x) :
    (s.enclosed x block fn expr).paths[q.index]? = s.paths[q.index]? := by
  rw [enclosed, getElem?_relocated hne, getElem?_fileNew, size_walled, if_neg (by omega),
    getElem?_walled hq, cleared, getElem?_relocated hne]
  rfl

/-! ### Buckets -/

theorem bucket_cleared_slot (hne : fn ≠ ⟨s.tree.size⟩) : (s.cleared x fn expr).bucket (.slot fn) =
    (s.bucket (.slot fn)).filter fun q => decide (q ≠ x) := by
  rw [cleared, bucket_relocated, if_neg (by simpa using hne), bucket_unfiled, if_pos rfl]
  rfl

theorem bucket_cleared {c : Container} (hfn : c ≠ .slot fn) (hret : c ≠ .slot ⟨s.tree.size⟩) :
    (s.cleared x fn expr).bucket c = s.bucket c := by
  rw [cleared, bucket_relocated, if_neg hret, bucket_unfiled, if_neg hfn]
  rfl

theorem bucket_walled (c : Container) : (s.walled x block fn expr).bucket c =
    if c = .slot fn then (s.cleared x fn expr).bucket c ++ [⟨s.paths.size⟩]
    else (s.cleared x fn expr).bucket c := by
  show ((s.cleared x fn expr).fileNew (.slot fn .body) (.body block fn expr)).bucket c = _
  rw [bucket_fileNew, size_cleared]
  show (if c = .slot fn then (s.cleared x fn expr).bucket (.slot fn) ++ _ else _) = _
  split
  · next hc => rw [hc]
  · rfl

/-- The bucket of the block slot has the path of the block in place of that of the expression. -/
theorem bucket_enclosed_slot (hne : fn ≠ ⟨s.tree.size⟩) :
    (s.enclosed x block fn expr).bucket (.slot fn) =
      ((s.bucket (.slot fn)).filter fun q => decide (q ≠ x)) ++ [⟨s.paths.size⟩] := by
  rw [enclosed, bucket_relocated, if_neg (by simpa using hne), bucket_unfiled,
    if_neg (by simpa using hne), bucket_fileNew, if_neg (by simp [Position.container]),
    bucket_walled, if_pos rfl, bucket_cleared_slot hne]

/-- The list of the block has the path of the `return`. -/
theorem bucket_enclosed_list (hempty : s.bucket (.list ⟨s.tree.size + 1⟩ .body) = []) :
    (s.enclosed x block fn expr).bucket (.list ⟨s.tree.size + 1⟩ .body) =
      [⟨s.paths.size + 1⟩] := by
  rw [enclosed, bucket_relocated, if_neg (by simp), bucket_unfiled, if_neg (by simp),
    bucket_fileNew, if_pos (show Container.list _ _ = (Position.item _ _ 0).container from rfl),
    size_walled]
  show (s.walled x block fn expr).bucket (.list ⟨s.tree.size + 1⟩ .body) ++ _ = _
  rw [bucket_walled, if_neg (by simp), bucket_cleared (by simp) (by simp), hempty]
  rfl

/-- Other lists have the paths that they had. -/
theorem bucket_enclosed {n : NodeId} {f : Field} (hne : n ≠ ⟨s.tree.size + 1⟩) :
    (s.enclosed x block fn expr).bucket (.list n f) = s.bucket (.list n f) := by
  rw [enclosed, bucket_relocated, if_neg (by simp), bucket_unfiled, if_neg (by simp),
    bucket_fileNew, if_neg (by simp [Position.container, hne]), bucket_walled, if_neg (by simp),
    bucket_cleared (by simp) (by simp)]

theorem Catalogued.enclosed (h : s.Catalogued) (hd : s.paths[x.index]? = some d)
    (hcontainer : d.container = .slot fn) : (s.enclosed x block fn expr).Catalogued := by
  have hlt := (Array.getElem?_eq_some_iff.mp hd).1
  have hallocated : ((s.allocated (.returnStatement (some expr))).allocated
      (.blockStatement [⟨s.tree.size⟩])).Catalogued := h.of_paths rfl rfl
  have hcleared : (s.cleared x fn expr).Catalogued := hallocated.relocated hd hcontainer
  have hwalled : (s.walled x block fn expr).Catalogued := (hcleared.fileNew rfl).slotted _ _ _
  have hreturn : ((s.walled x block fn expr).fileNew (.item ⟨s.tree.size + 1⟩ .body 0)
      (.element ⟨s.paths.size⟩ ⟨s.tree.size + 1⟩ .body 0 ⟨s.tree.size⟩)).Catalogued :=
    hwalled.fileNew rfl
  refine hreturn.relocated (d := { d with
    container := .slot ⟨s.tree.size⟩, parent := none, key := .field .argument }) ?_ rfl
  rw [getElem?_fileNew, size_walled, if_neg (by omega), getElem?_walled hlt,
    getElem?_cleared_self hd]

/-! ### Sound sessions -/

/-! ### Functions with an expression as body -/

/-- New nodes are not in use. -/
theorem Sound.not_mem_of_size_le (h : s.Sound K) {i : Nat} (hi : s.tree.size ≤ i) :
    (⟨i⟩ : NodeId) ∉ K :=
  fun hmem => absurd (h.forest.index_lt_size hmem) (Nat.not_lt.mpr hi)

/-- No path is filed below a node that is not in use. -/
theorem Sound.bucket_list_eq_nil (h : s.Sound K) {f : Field} (hn : n ∉ K) :
    s.bucket (.list n f) = [] := by
  refine List.eq_nil_iff_forall_not_mem.mpr fun q hq => ?_
  obtain ⟨pos, d, hc, hw, -⟩ := h.filed _ q hq
  exact hn (hw n (congrArg Container.parent? hc))

/-- Another path of the container has another key. -/
theorem Sound.key_ne (h : s.Sound K) {pos : Position} (hf : s.Files x pos d) (hn : d.node ≠ none)
    (hq : q ∈ s.bucket pos.container) (hne : q ≠ x) :
    ∃ e, s.paths[q.index]? = some e ∧ e.key ≠ pos.key := by
  obtain ⟨pos', e, hc, -, hfq⟩ := h.filed _ q hq
  refine ⟨e, hfq.data, fun hkey => hne ?_⟩
  obtain rfl := Position.eq_of_container_key hc (hfq.key.symm.trans hkey)
  exact (h.unique x q _ d e hf hfq hn).symm

/-- The path `x` holds the node `expr`, which is the body of the function at the path `block`. -/
structure Bares (s : Session) (K : Set NodeId) (block : PathId) (fn : NodeId) (k : NodeKind)
    (x : PathId) (expr : NodeId) (d : PathData) : Prop where
  sound : s.Sound K
  holds : s.Holds block fn
  kind : s.tree.kind? fn = some k
  child : k.child? .body = some (.one expr)
  files : s.Files x (.slot fn .body) d

section Bares

variable (h : s.Bares K block fn k x expr d)

include h

theorem Bares.occupant : s.tree.occupant? (.slot fn .body) = some expr := by
  simp [Tree.occupant?, Tree.field?, h.kind, h.child, Child.node?]

theorem Bares.node : d.node = some expr := h.files.node.trans h.occupant

theorem Bares.lt_size : x.index < s.paths.size := (Array.getElem?_eq_some_iff.mp h.files.data).1

theorem Bares.fn_ne {i : Nat} (hi : s.tree.size ≤ i) : fn ≠ ⟨i⟩ := by
  rintro rfl
  exact h.sound.not_mem_of_size_le hi (h.sound.mem_of_holds h.holds)

/-- The path of the expression is not that of the function. -/
theorem Bares.block_ne : block ≠ x := by
  rintro rfl
  obtain ⟨e, he, hn⟩ := h.holds
  obtain rfl := Option.some.inj (h.files.data.symm.trans he)
  rw [h.node, Option.some.injEq] at hn
  subst hn
  exact h.sound.forest.acyclic _ (h.sound.mem_of_holds ⟨d, h.files.data, h.node⟩)
    (.single ⟨_, rfl, h.occupant⟩)

/-- The path of the expression can be found in the slot, no other. -/
theorem Bares.key_ne (hq : q ∈ s.bucket (.slot fn)) (hne : q ≠ x) :
    ∃ e, s.paths[q.index]? = some e ∧ e.key ≠ .field .body :=
  h.sound.key_ne h.files (by simp [h.node]) hq hne

/-- The path of the function goes on to hold it. -/
theorem Bares.holds_enclosed : (s.enclosed x block fn expr).Holds block fn := by
  obtain ⟨e, he, hn⟩ := h.holds
  have hlt := (Array.getElem?_eq_some_iff.mp he).1
  exact ⟨e, (getElem?_enclosed hlt h.block_ne).trans he, hn⟩

/-- The block is housed in the function. -/
theorem Bares.houses_enclosed (hfunction : k.type.isFunction = true) :
    (s.enclosed x block fn expr).Houses block fn ⟨s.paths.size⟩ ⟨s.tree.size + 1⟩ := by
  have hne := h.fn_ne (Nat.le_refl _)
  have hkind : (s.enclosed x block fn expr).tree.kind? fn =
      some (k.setNode .body ⟨s.tree.size + 1⟩) := by
    rw [tree_enclosed, kind?_walled h.kind, if_pos rfl]
  have hchild : (k.setNode .body ⟨s.tree.size + 1⟩).child? .body =
      some (.one ⟨s.tree.size + 1⟩) := by
    rw [NodeKind.child?_setNode, h.child]
    rfl
  have htype : (k.setNode .body ⟨s.tree.size + 1⟩).type = k.type := k.type_mapFields _
  have hocc : (s.enclosed x block fn expr).tree.occupant? (.slot fn .body) =
      some ⟨s.tree.size + 1⟩ := by
    simp [Tree.occupant?, Tree.field?, hkind, hchild, Child.node?]
  have hbody : (s.enclosed x block fn expr).tree.type? ⟨s.tree.size + 1⟩ =
      some .blockStatement := by
    refine Tree.type?_of_kind (k := .blockStatement [⟨s.tree.size⟩]) ?_
    rw [tree_enclosed, kind?_walled h.kind, if_neg (Ne.symm (h.fn_ne (Nat.le_succ _))),
      kind?_cleared, if_pos rfl]
  refine .function h.holds_enclosed hkind (htype ▸ hfunction) hchild hbody
    ⟨⟨getElem?_enclosed_block h.lt_size, ?_, rfl, rfl, rfl, hocc.symm⟩, ?_⟩ rfl
  · show _ ∈ bucket _ (.slot fn)
    rw [bucket_enclosed_slot hne]
    simp
  · rw [hocc]
    show List.find? _ (bucket _ (.slot fn)) = _
    rw [bucket_enclosed_slot hne, List.find?_append, List.find?_eq_none.mpr, Option.none_or]
    · rw [List.find?_singleton, getElem?_enclosed_block h.lt_size]
      exact if_pos (by simp [PathData.standsFor, PathData.body, Position.container, Position.key])
    · -- The other paths below the function are for other fields.
      intro q hq
      obtain ⟨hq, hne⟩ := List.mem_filter.mp hq
      have hne : q ≠ x := by simpa using hne
      obtain ⟨e, he, hkey⟩ := h.key_ne hq hne
      rw [getElem?_enclosed (Array.getElem?_eq_some_iff.mp he).1 hne, he]
      simpa [PathData.standsFor, Position.container, Position.key] using hkey

/-! ### The steps -/

/-- The path of the expression makes way. -/
theorem Bares.cleared_run : x.moveTo none (.slot ⟨s.tree.size⟩) (.field .argument)
    ((s.allocated (.returnStatement (some expr))).allocated (.blockStatement [⟨s.tree.size⟩])) =
      .ok () (s.cleared x fn expr) := by
  have hrun := PathId.moveTo_run (s := (s.allocated (.returnStatement (some expr))).allocated
    (.blockStatement [⟨s.tree.size⟩])) h.files.data none (.slot ⟨s.tree.size⟩) (.field .argument)
  rwa [h.files.container] at hrun

theorem Bares.kind_cleared : (s.cleared x fn expr).tree.kind? fn = some k :=
  kind?_cleared_of_some h.kind

/-- The slot is free now, and the block gets a path there. -/
theorem Bares.filed_run : block.child .body (s.cleared x fn expr) = .ok ⟨s.paths.size⟩
    ((s.cleared x fn expr).fileNew (.slot fn .body) (.body block fn expr)) := by
  have hholds : (s.cleared x fn expr).Holds block fn := by
    obtain ⟨e, he, hn⟩ := h.holds
    exact ⟨e, (getElem?_relocated (s := (s.allocated _).allocated _) h.block_ne).trans he, hn⟩
  have hocc : (s.cleared x fn expr).tree.occupant? (.slot fn .body) = some expr := by
    simp [Tree.occupant?, Tree.field?, h.kind_cleared, h.child, Child.node?]
  have hfree : (s.cleared x fn expr).cached? (Position.slot fn .body).container
      (Position.slot fn .body).key
      ((s.cleared x fn expr).tree.occupant? (.slot fn .body)) = none := by
    refine List.find?_eq_none.mpr fun q hq => ?_
    have hq : q ∈ (s.cleared x fn expr).bucket (.slot fn) := hq
    rw [bucket_cleared_slot (h.fn_ne (Nat.le_refl _))] at hq
    obtain ⟨hq, hqx⟩ := List.mem_filter.mp hq
    have hqx : q ≠ x := by simpa using hqx
    obtain ⟨e, he, hkey⟩ := h.key_ne hq hqx
    have hq' : (s.cleared x fn expr).paths[q.index]? = some e :=
      (getElem?_relocated (s := (s.allocated _).allocated _) hqx).trans he
    rw [hq']
    simpa [PathData.standsFor, Position.container, Position.key] using hkey
  have hrun := pathFor_run_of_free (some block)
    (fun m hm => Option.some.inj hm ▸ ⟨k, h.kind_cleared⟩) hfree
  rw [hocc, size_cleared] at hrun
  unfold PathId.child
  rw [bind_of_ok (PathId.node?_run_of_holds hholds)]
  show ((ask fun t => t.kind? fn) >>= _) _ = _
  rw [bind_of_ok (ask_run h.kind_cleared), h.child]
  exact hrun

/-- The block takes the place of the expression. -/
theorem Bares.walled_run : (⟨s.paths.size⟩ : PathId).setNode ⟨s.tree.size + 1⟩
    ((s.cleared x fn expr).fileNew (.slot fn .body) (.body block fn expr)) =
      .ok () (s.walled x block fn expr) := by
  have hd : ((s.cleared x fn expr).fileNew (.slot fn .body) (.body block fn expr)).paths[
      s.paths.size]? = some (.body block fn expr) := by
    rw [getElem?_fileNew ⟨s.paths.size⟩, if_pos size_cleared.symm]
  exact PathId.setNode_run_of_slot (p := ⟨s.paths.size⟩) hd rfl rfl h.kind_cleared h.child _

/-- The `return` gets a path in the block. -/
theorem Bares.returned_run : (⟨s.paths.size⟩ : PathId).element .body 0
    (s.walled x block fn expr) = .ok ⟨s.paths.size + 1⟩ ((s.walled x block fn expr).fileNew
      (.item ⟨s.tree.size + 1⟩ .body 0)
      (.element ⟨s.paths.size⟩ ⟨s.tree.size + 1⟩ .body 0 ⟨s.tree.size⟩)) := by
  have hblock : (s.walled x block fn expr).Holds ⟨s.paths.size⟩ ⟨s.tree.size + 1⟩ :=
    ⟨_, getElem?_walled_block, rfl⟩
  have hkblock : (s.walled x block fn expr).tree.kind? ⟨s.tree.size + 1⟩ =
      some (.blockStatement [⟨s.tree.size⟩]) := by
    rw [kind?_walled h.kind, if_neg (Ne.symm (h.fn_ne (Nat.le_succ _))), kind?_cleared, if_pos rfl]
  have hempty : (s.walled x block fn expr).bucket (.list ⟨s.tree.size + 1⟩ .body) = [] := by
    rw [bucket_walled, if_neg (by simp), bucket_cleared (by simp) (by simp)]
    exact h.sound.bucket_list_eq_nil (h.sound.not_mem_of_size_le (Nat.le_succ _))
  have hc : (NodeKind.blockStatement [⟨s.tree.size⟩]).child? .body =
      some (.many [⟨s.tree.size⟩]) := rfl
  have hrun := PathId.element_run_of_new (i := 0) hblock hkblock hc rfl fun q hq => by
    rw [hempty] at hq
    cases hq
  rwa [size_walled] at hrun

/-- The path of the expression goes below it. -/
theorem Bares.enclosed_run : x.moveTo (some ⟨s.paths.size + 1⟩) (.slot ⟨s.tree.size⟩)
    (.field .argument) ((s.walled x block fn expr).fileNew (.item ⟨s.tree.size + 1⟩ .body 0)
      (.element ⟨s.paths.size⟩ ⟨s.tree.size + 1⟩ .body 0 ⟨s.tree.size⟩)) =
        .ok () (s.enclosed x block fn expr) := by
  have hlt := h.lt_size
  have hd : ((s.walled x block fn expr).fileNew (.item ⟨s.tree.size + 1⟩ .body 0)
      (.element ⟨s.paths.size⟩ ⟨s.tree.size + 1⟩ .body 0 ⟨s.tree.size⟩)).paths[x.index]? =
        some { d with container := .slot ⟨s.tree.size⟩, parent := none,
                      key := .field .argument } := by
    rw [getElem?_fileNew, size_walled, if_neg (by omega), getElem?_walled hlt,
      getElem?_cleared_self h.files.data]
  exact PathId.moveTo_run hd _ _ _

end Bares

end Session

/-- A function whose body is an expression gets a block. -/
theorem Session.Bares.ensureBlock_run {s₀ : Session} {ke : NodeKind}
    (h : s.Bares K block fn k x expr d) (hgo : block.child .body s₀ = .ok x s)
    (hke : s.tree.kind? expr = some ke) (hexpr : ke.type ≠ .blockStatement) :
    ensureBlock block s₀ = .ok () (s.enclosed x block fn expr) := by
  have hreturn : onTree (TreeM.alloc (.returnStatement (some expr))) s = .ok ⟨s.tree.size⟩
      (s.allocated (.returnStatement (some expr))) := alloc_run _
  have hwall : onTree (TreeM.block [⟨s.tree.size⟩]) (s.allocated (.returnStatement (some expr))) =
      .ok ⟨s.tree.size + 1⟩ ((s.allocated (.returnStatement (some expr))).allocated
        (.blockStatement [⟨s.tree.size⟩])) := by
    have hrun := alloc_run (s := s.allocated (.returnStatement (some expr)))
      (.blockStatement [⟨s.tree.size⟩])
    rwa [size_allocated] at hrun
  unfold ensureBlock
  rw [bind_of_ok hgo, bind_of_ok (PathId.node?_run h.files.data), h.node]
  show ((ask fun t => t.type? expr) >>= _) s = _
  rw [bind_of_ok (ask_run (Tree.type?_of_kind hke)), if_neg hexpr, bind_of_ok hreturn,
    bind_of_ok hwall, bind_of_ok h.cleared_run, bind_of_ok h.filed_run, bind_of_ok h.walled_run,
    bind_of_ok h.returned_run, h.enclosed_run]

end Espalier
