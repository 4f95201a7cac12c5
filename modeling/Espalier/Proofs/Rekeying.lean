import Espalier.Edit.Place
import Espalier.Proofs.Navigation
import Espalier.Proofs.Relisting

set_option autoImplicit false

/-! # Paths of a list under edits

The length of a list changes in two ways: nodes are spliced in, and an element is taken out. Both
write to the tree and to the paths in the bucket of the list. `Session.Relists` says what the two
have in common, and that is enough for the session to stay sound (`Session.Relists.sound`). -/

namespace Espalier

open SessionM

/-! ## Moved keys -/

/-- Where the element at index `j` stands after `n` nodes were spliced in at index `i`. -/
def shiftedIn (i n j : Nat) : Nat := if i ≤ j then Key.shiftIndex n j else j

/-- Where the element at index `j` stands after the one at index `i` was taken out. -/
def shiftedOut (i j : Nat) : Nat := if i + 1 ≤ j then Key.shiftIndex (-1) j else j

/-- After a splice every old element is found at its moved key, and nothing where nothing was. -/
theorem getElem?_shiftedIn {ids nodes : List NodeId} {i : Nat} (hi : i ≤ ids.length)
    (hmax : ids.length + nodes.length ≤ Key.maxIndex) (j : Nat) :
    (ids.take i ++ nodes ++ ids.drop i)[shiftedIn i nodes.length j]? = ids[j]? := by
  have hlen : (ids.take i).length = i := List.length_take_of_le hi
  unfold shiftedIn
  by_cases hij : i ≤ j
  · rw [if_pos hij]
    by_cases hj : j < ids.length
    · rw [Key.shiftIndex_of_le _ _ (by omega), List.append_assoc,
        List.getElem?_append_right (by omega), List.getElem?_append_right (by omega),
        List.getElem?_drop]
      congr 1
      omega
    · have hout : ids.length + nodes.length ≤ Key.shiftIndex nodes.length j := by
        simp only [Key.shiftIndex]
        omega
      have hlen' : (ids.take i ++ nodes ++ ids.drop i).length = ids.length + nodes.length := by
        simp only [List.length_append, hlen, List.length_drop]
        omega
      rw [List.getElem?_eq_none (by omega), List.getElem?_eq_none (by omega)]
  · rw [if_neg hij, List.append_assoc, List.getElem?_append_left (by omega),
      List.getElem?_take_of_lt (by omega)]

/-- After an element was taken out every other one is found at its moved key. -/
theorem getElem?_shiftedOut {ids : List NodeId} {i : Nat} (hi : i < ids.length)
    (hmax : ids.length ≤ Key.maxIndex) {j : Nat} (hj : j ≠ i) :
    (ids.eraseIdx i)[shiftedOut i j]? = ids[j]? := by
  unfold shiftedOut
  by_cases hij : i + 1 ≤ j
  · rw [if_pos hij]
    by_cases hlt : j < ids.length
    · have hk : Key.shiftIndex (-1) j = j - 1 := by
        simp only [Key.shiftIndex]
        omega
      rw [hk, List.getElem?_eraseIdx, if_neg (by omega)]
      congr 1
      omega
    · have hout : ids.length - 1 ≤ Key.shiftIndex (-1) j := by
        simp only [Key.shiftIndex]
        omega
      have hlen := List.length_eraseIdx_of_lt hi
      rw [List.getElem?_eq_none (by omega), List.getElem?_eq_none (by omega)]
  · rw [if_neg hij, List.getElem?_eraseIdx, if_pos (by omega)]

/-- An element of a list without repetitions has one index. -/
theorem mem_splice {ids nodes : List NodeId} {n : NodeId} (i : Nat) :
    n ∈ ids.take i ++ nodes ++ ids.drop i ↔ n ∈ ids ∨ n ∈ nodes := by
  have h : n ∈ ids ↔ n ∈ ids.take i ∨ n ∈ ids.drop i := by
    rw [← List.mem_append, List.take_append_drop]
  simp only [List.mem_append, h]
  tauto

theorem index_unique {ids : List NodeId} (h : ids.Nodup) {i j : Nat} {n : NodeId}
    (hi : ids[i]? = some n) (hj : ids[j]? = some n) : i = j := by
  obtain ⟨hi', hie⟩ := List.getElem?_eq_some_iff.mp hi
  obtain ⟨hj', hje⟩ := List.getElem?_eq_some_iff.mp hj
  exact h.getElem_inj_iff.mp (hie.trans hje.symm)

/-- The data of a path whose index is moved from `start` on. -/
def PathData.shifted (start : Nat) (delta : Int) (d : PathData) : PathData :=
  match d.key with
  | .index i => if start ≤ i then { d with key := .index (Key.shiftIndex delta i) } else d
  | _ => d

@[simp] theorem PathData.node_shifted (start : Nat) (delta : Int) (d : PathData) :
    (d.shifted start delta).node = d.node := by
  unfold shifted
  split
  · split <;> rfl
  · rfl

theorem PathData.shifted_of_index {d : PathData} {i : Nat} (start : Nat) (delta : Int)
    (h : d.key = .index i) : d.shifted start delta =
      { d with key := .index (if start ≤ i then Key.shiftIndex delta i else i) } := by
  unfold shifted
  rw [h]
  by_cases hi : start ≤ i
  · simp only [hi, if_true]
  · simp only [hi, if_false, ← h]

namespace Session

/-! ## Elementary writes -/

/-- The session with the data of some paths changed. -/
def mapPaths (s : Session) (ps : List PathId) (g : PathData → PathData) : Session :=
  { s with paths := ps.foldl (fun paths p => paths.modify p.index g) s.paths }

/-- The session with another list in a field of a node. -/
def withList (s : Session) (owner : NodeId) (f : Field) (ids : List NodeId) : Session :=
  { s with
    tree := s.tree.modify owner fun node => { node with kind := node.kind.setList f ids } }

/-- The session with a path taken out of a bucket. -/
def unfiled (s : Session) (c : Container) (p : PathId) : Session :=
  if s.cache.contains c then
    { s with cache := s.cache.insert c ((s.bucket c).filter fun q => decide (q ≠ p)) }
  else s

/-- The session with a path moved from one bucket to another. -/
def rehomed (s : Session) (p : PathId) (old new : Container) : Session :=
  { s.unfiled old p with
    paths := (s.unfiled old p).paths.modify p.index fun d => { d with container := new }
    cache := (s.unfiled old p).cache.insert new ((s.unfiled old p).bucket new ++ [p]) }

/-- The session with a path of the container marked as removed. -/
def dropped (s : Session) (c : Container) (p : PathId) : Session :=
  { s.unfiled c p with
    paths := s.paths.modify p.index fun d => { d with removed := true, skip := true, node := none } }

/-- The session with nodes spliced into the list at index `i`. -/
def spliced (s : Session) (owner : NodeId) (f : Field) (ids : List NodeId) (i : Nat)
    (nodes : List NodeId) : Session :=
  (s.withList owner f (ids.take i ++ nodes ++ ids.drop i)).mapPaths (s.bucket (.list owner f))
    (PathData.shifted i nodes.length)

/-- The session with the element at index `i`, which is that of the path, taken out. -/
def plucked (s : Session) (owner : NodeId) (f : Field) (ids : List NodeId) (i : Nat)
    (p : PathId) : Session :=
  ((s.withList owner f (ids.eraseIdx i)).mapPaths (s.bucket (.list owner f))
    (PathData.shifted (i + 1) (-1))).dropped (.list owner f) p

section Writes

variable {s : Session}

/-- Only the paths of the list change, each of them once. -/
theorem getElem?_mapPaths {ps : List PathId} (hps : ps.Nodup) (g : PathData → PathData)
    (q : PathId) : (s.mapPaths ps g).paths[q.index]? =
      if q ∈ ps then s.paths[q.index]?.map g else s.paths[q.index]? := by
  induction ps generalizing s with
  | nil => simp [mapPaths]
  | cons p ps ih =>
    obtain ⟨hp, hps⟩ := List.nodup_cons.mp hps
    have hstep : s.mapPaths (p :: ps) g =
        mapPaths { s with paths := s.paths.modify p.index g } ps g := rfl
    rw [hstep, ih hps]
    show (if q ∈ ps then ((s.paths.modify p.index g)[q.index]?).map g
      else (s.paths.modify p.index g)[q.index]?) = _
    rw [getElem?_modify_paths]
    by_cases hq : q = p
    · subst hq
      simp [hp]
    · simp [hq]

theorem forM_modifyData_run {ps : List PathId} (g : PathData → PathData)
    (h : ∀ p ∈ ps, ∃ d, s.paths[p.index]? = some d) :
    (ps.forM fun p => p.modifyData g) s = .ok () (s.mapPaths ps g) := by
  induction ps generalizing s with
  | nil => rfl
  | cons p ps ih =>
    obtain ⟨d, hd⟩ := h p (by simp)
    show (p.modifyData g >>= fun _ => ps.forM fun p => p.modifyData g) s = _
    rw [bind_of_ok (p.modifyData_run hd g)]
    refine ih fun q hq => ?_
    obtain ⟨e, he⟩ := h q (by simp [hq])
    show ∃ d, (s.paths.modify p.index g)[q.index]? = some d
    rw [getElem?_modify_paths, he]
    split
    · exact ⟨_, rfl⟩
    · exact ⟨_, rfl⟩

theorem bucket_unfiled (c c' : Container) (p : PathId) : (s.unfiled c p).bucket c' =
    if c' = c then (s.bucket c).filter fun q => decide (q ≠ p) else s.bucket c' := by
  unfold unfiled
  split
  · exact Session.bucket_insert _ _ _ _
  · next h =>
    by_cases hc : c' = c
    · subst hc
      have hempty : s.bucket c' = [] := by
        simp only [Session.bucket]
        cases hget : s.cache.get? c' with
        | none => rfl
        | some l => simp [Table.contains, hget] at h
      simp [hempty]
    · rw [if_neg hc]

@[simp] theorem tree_unfiled (c : Container) (p : PathId) : (s.unfiled c p).tree = s.tree := by
  unfold unfiled
  split <;> rfl

@[simp] theorem paths_unfiled (c : Container) (p : PathId) : (s.unfiled c p).paths = s.paths := by
  unfold unfiled
  split <;> rfl

@[simp] theorem paths_rehomed (p : PathId) (old new : Container) : (s.rehomed p old new).paths =
    s.paths.modify p.index fun d => { d with container := new } := by
  simp only [rehomed, paths_unfiled]

@[simp] theorem detached_unfiled (c : Container) (p : PathId) :
    (s.unfiled c p).detached = s.detached := by
  unfold unfiled
  split <;> rfl

@[simp] theorem frames_unfiled (c : Container) (p : PathId) :
    (s.unfiled c p).frames = s.frames := by
  unfold unfiled
  split <;> rfl

@[simp] theorem scopes_unfiled (c : Container) (p : PathId) :
    (s.unfiled c p).scopes = s.scopes := by
  unfold unfiled
  split <;> rfl

/-- Replacing a list changes the list and nothing else. -/
theorem relisted_withList {owner : NodeId} {f : Field} {ids : List NodeId} {k : NodeKind}
    (hk : s.tree.kind? owner = some k) (hc : k.child? f = some (.many ids))
    (ids' : List NodeId) : s.tree.Relisted owner f ids ids' (s.withList owner f ids').tree := by
  have hkind : ∀ n, (s.withList owner f ids').tree.kind? n =
      if n = owner then (s.tree.kind? n).map fun k => k.setList f ids' else s.tree.kind? n := by
    intro n
    simp only [withList, Tree.kind?, Tree.node?_modify]
    by_cases hn : n = owner
    · simp only [hn, if_true, Option.map_map]
      rfl
    · simp only [hn, if_false]
  refine ⟨rfl, Tree.size_modify _ _ _, fun n hn => ?_, k, hk, hc, ?_⟩
  · rw [hkind, if_neg hn]
  · rw [hkind, if_pos rfl, hk]
    rfl

end Writes

/-! ## What the edits have in common -/

/-- The list of a node was changed. The paths outside its bucket stayed as they were; a path in
its bucket stands for an element of the new list, or was taken out of the bucket and is empty. -/
structure Relists (s : Session) (owner : NodeId) (f : Field) (ids ids' : List NodeId)
    (s' : Session) : Prop where
  tree : s.tree.Relisted owner f ids ids' s'.tree
  detached : s'.detached = s.detached
  scopes : s'.scopes = s.scopes
  outside : ∀ c, c ≠ .list owner f → s'.bucket c = s.bucket c
  inside : (s'.bucket (.list owner f)).Sublist (s.bucket (.list owner f))
  known : ∀ q : PathId, q ∉ s.bucket (.list owner f) → s'.paths[q.index]? = s.paths[q.index]?
  stays : ∀ q ∈ s'.bucket (.list owner f), ∃ d d' i, s.paths[q.index]? = some d ∧
    s'.Files q (.item owner f i) d' ∧ d'.parent = d.parent
  leaves : ∀ q ∈ s.bucket (.list owner f), q ∉ s'.bucket (.list owner f) →
    ∃ d', s'.paths[q.index]? = some d' ∧ d'.node = none
  keeps : ∀ q n, s.Holds q n → (n ∈ ids → n ∈ ids') → s'.Holds q n
  single : ∀ q q' n, s'.Holds q n → s'.Holds q' n → q = q'
  /-- The path of an element that is in the list no more was removed. -/
  fate : ∀ q n, s.Holds q n → n ∈ ids → n ∉ ids' → s'.Gone q

namespace Relists

variable {s s' : Session} {K : Set NodeId} {owner : NodeId} {f : Field}
  {ids ids' nodes : List NodeId}

/-- A path outside the bucket of the list is filed where it was. -/
theorem files_outside (h : s.Relists owner f ids ids' s') {q : PathId} {pos : Position}
    {d : PathData} (hpos : pos.container ≠ .list owner f)
    (hq : q ∉ s.bucket (.list owner f)) : s'.Files q pos d ↔ s.Files q pos d := by
  have hdata := h.known q hq
  have hbucket := h.outside _ hpos
  have hocc := h.tree.occupant? hpos
  constructor
  · intro hf
    exact ⟨hdata ▸ hf.data, hbucket ▸ hf.bucket, hf.container, hf.key, hf.live, hocc ▸ hf.node⟩
  · intro hf
    exact ⟨hdata ▸ hf.data, hbucket ▸ hf.bucket, hf.container, hf.key, hf.live, hocc ▸ hf.node⟩

/-- A session stays sound when a list is changed. -/
theorem sound (h : s.Relists owner f ids ids' s') (hs : s.Sound K)
    (hloose : s.tree.Loose K nodes) (howner : owner ∈ K) (hnodup : ids'.Nodup)
    (hsub : ∀ n ∈ ids', n ∈ ids ∨ n ∈ nodes) : s'.Sound (K ∪ s.tree.below nodes) := by
  -- A path is in the bucket of its own container only.
  have hother : ∀ {c : Container} {q : PathId}, q ∈ s.bucket c → c ≠ .list owner f →
      q ∉ s.bucket (.list owner f) := by
    intro c q hq hc hq'
    obtain ⟨pos, d, hpos, -, hf⟩ := hs.filed c q hq
    obtain ⟨pos', d', hpos', -, hf'⟩ := hs.filed _ q hq'
    obtain ⟨rfl, -⟩ := hf.position_unique hf'
    exact hc (hpos.symm.trans hpos')
  have hreach : ∀ n ∈ K, s'.tree.Reachable n → s.tree.Reachable n := by
    intro n hn hn'
    rcases h.tree.reachable_of_reachable hs.forest hloose howner hsub hn' with ⟨-, hr⟩ | hb
    · exact hr
    · exact absurd hn (hloose.apart n hb)
  refine ⟨h.tree.forest hs.forest hloose howner hnodup hsub, fun c p hp => ?_, fun c => ?_,
    fun p q pos d e hp hq hne => ?_, fun p d hd hne => ?_, fun q p hp => ?_,
    fun p pos d hf hw => ?_⟩
  · by_cases hc : c = .list owner f
    · subst hc
      obtain ⟨-, d', i, -, hf, -⟩ := h.stays p hp
      exact ⟨.item owner f i, d', rfl, Position.within_of_parent rfl (.inl howner), hf⟩
    · rw [h.outside c hc] at hp
      obtain ⟨pos, d, rfl, hw, hf⟩ := hs.filed c p hp
      exact ⟨pos, d, rfl, Position.within_mono Set.subset_union_left hw,
        (h.files_outside hc (hother hp hc)).mpr hf⟩
  · by_cases hc : c = .list owner f
    · subst hc
      exact h.inside.nodup (hs.nodup _)
    · rw [h.outside c hc]
      exact hs.nodup c
  · obtain ⟨n, hn⟩ := Option.ne_none_iff_exists'.mp hne
    refine h.single p q n ⟨d, hp.data, hn⟩ ⟨e, hq.data, ?_⟩
    rw [hq.node, ← hp.node, hn]
  · by_cases hp : p ∈ s.bucket (.list owner f)
    · by_cases hp' : p ∈ s'.bucket (.list owner f)
      · obtain ⟨-, d', i, -, hf, -⟩ := h.stays p hp'
        obtain rfl : d = d' := Option.some.inj (hd.symm.trans hf.data)
        rw [hf.container]
        exact hf.bucket
      · obtain ⟨d', hd', hnone⟩ := h.leaves p hp hp'
        obtain rfl : d = d' := Option.some.inj (hd.symm.trans hd')
        exact absurd hnone hne
    · rw [h.known p hp] at hd
      have hb := hs.held p d hd hne
      rw [h.outside _ fun hc => hp (hc ▸ hb)]
      exact hb
  · rw [h.detached] at hp
    obtain ⟨d, hd, hpl⟩ := hs.adrift q p hp
    have hc : d.container = .detached := by
      simp only [PathData.place, Prod.mk.injEq] at hpl
      exact hpl.2.1
    exact ⟨d, by rw [h.known p (hs.not_mem_bucket_of_detached _ hd hc), hd], hpl⟩
  · -- The parent of a path that can be reached holds the owner still: what can be reached has
    -- not left the list.
    have hadopts : ∀ c, (∀ n, c.parent? = some n → n ∈ K ∧ s'.tree.Reachable n) →
        s.Adopts c d.parent → s'.Adopts c d.parent := by
      intro c hcn ha
      unfold Adopts at ha ⊢
      cases hc : c.parent? with
      | none => simpa [hc] using ha
      | some n =>
        rw [hc] at ha
        obtain ⟨q, hq, hn⟩ := ha
        refine ⟨q, hq, h.keeps q n hn fun hmem => ?_⟩
        by_contra hleft
        exact h.tree.not_reachable_of_left hs.forest hloose howner hsub hmem hleft (hcn n hc).2
    by_cases hpos : pos.container = .list owner f
    · have hb := hf.bucket
      rw [hpos] at hb
      obtain ⟨e, d', i, he, hf', hpar⟩ := h.stays p hb
      obtain ⟨-, rfl⟩ := hf.position_unique hf'
      obtain ⟨pos₀, e', hpos₀, hw₀, hf₀⟩ := hs.filed _ p (h.inside.subset hb)
      obtain rfl : e = e' := Option.some.inj (he.symm.trans hf₀.data)
      have hown : s'.tree.Reachable owner := hw owner (by rw [Position.parent?, hpos]; rfl)
      have ha := hs.linked p pos₀ e hf₀ fun n hn => by
        rw [Position.parent?, hpos₀] at hn
        obtain rfl := Option.some.inj hn
        exact hreach _ howner hown
      rw [hpos₀, ← hpar] at ha
      rw [hpos]
      refine hadopts _ (fun n hn => ?_) ha
      obtain rfl := Option.some.inj hn
      exact ⟨howner, hown⟩
    · have hb := hf.bucket
      rw [h.outside _ hpos] at hb
      have hf' := (h.files_outside hpos (hother hb hpos)).mp hf
      obtain ⟨pos', d', -, hwK, hf''⟩ := hs.filed _ p hb
      obtain ⟨rfl, -⟩ := hf'.position_unique hf''
      refine hadopts _ (fun n hn => ⟨hwK n hn, hw n hn⟩) (hs.linked p pos d hf' fun n hn => ?_)
      exact hreach n (hwK n hn) (hw n hn)

end Relists

/-! ## The two edits -/

namespace Sound

variable {s : Session} {K : Set NodeId} {owner : NodeId} {f : Field} {ids nodes : List NodeId}
  {i : Nat}

/-- The paths in the bucket of a list are filed at its places. -/
theorem files_item (hs : s.Sound K) {q : PathId} (hq : q ∈ s.bucket (.list owner f)) :
    ∃ d j, s.Files q (.item owner f j) d := by
  obtain ⟨pos, d, hpos, -, hf⟩ := hs.filed _ q hq
  rcases Tree.Relisted.position_cases owner f pos with ⟨j, rfl⟩ | hne
  · exact ⟨d, j, hf⟩
  · exact absurd hpos hne

/-- The path of an element is the only one at its place. -/
theorem eq_of_files_item (hs : s.Sound K) (hlist : s.tree.list? owner f = some ids)
    {p q : PathId} {d e : PathData} {n : NodeId} (hn : ids[i]? = some n)
    (hp : s.Files p (.item owner f i) d) (hq : s.Files q (.item owner f i) e) : p = q := by
  refine hs.unique p q _ d e hp hq ?_
  rw [hp.node, Tree.occupant?, hlist, Option.bind_some, hn]
  simp

/-- Splicing nodes into a list. -/
theorem relists_insert (hs : s.Sound K) {k : NodeKind} (hk : s.tree.kind? owner = some k)
    (hc : k.child? f = some (.many ids)) (hi : i ≤ ids.length)
    (hmax : ids.length + nodes.length ≤ Key.maxIndex) :
    s.Relists owner f ids (ids.take i ++ nodes ++ ids.drop i)
      (s.spliced owner f ids i nodes) := by
  have htree := relisted_withList hk hc (ids.take i ++ nodes ++ ids.drop i)
  have hdata : ∀ q : PathId, (s.spliced owner f ids i nodes).paths[q.index]? =
      if q ∈ s.bucket (.list owner f) then s.paths[q.index]?.map (PathData.shifted i nodes.length)
      else s.paths[q.index]? := fun q => getElem?_mapPaths (hs.nodup _) _ q
  refine ⟨htree, rfl, rfl, fun _ _ => rfl, .refl _, fun q hq => ?_, fun q hq => ?_,
    fun q hq hq' => absurd hq hq', fun q n hqn _ => ?_, fun q q' n hq hq' => ?_,
    fun q n _ hn hout => absurd ((mem_splice i).mpr (.inl hn)) hout⟩
  · rw [hdata, if_neg hq]
  · have hq : q ∈ s.bucket (.list owner f) := hq
    obtain ⟨d, j, hf⟩ := hs.files_item hq
    refine ⟨d, { d with key := .index (shiftedIn i nodes.length j) }, shiftedIn i nodes.length j,
      hf.data, ⟨?_, hq, hf.container, rfl, hf.live, ?_⟩, rfl⟩
    · rw [hdata, if_pos hq, hf.data, Option.map_some, PathData.shifted_of_index _ _ hf.key]
      rfl
    · show d.node = (s.withList owner f (ids.take i ++ nodes ++ ids.drop i)).tree.occupant? _
      rw [htree.occupant?_item, getElem?_shiftedIn hi hmax, hf.node, Tree.occupant?, htree.list?]
      rfl
  · obtain ⟨d, hd, hn⟩ := hqn
    by_cases hq : q ∈ s.bucket (.list owner f)
    · exact ⟨_, by rw [hdata, if_pos hq, hd]; rfl, by rw [PathData.node_shifted, hn]⟩
    · exact ⟨d, by rw [hdata, if_neg hq, hd], hn⟩
  · have hback : ∀ q, (s.spliced owner f ids i nodes).Holds q n → s.Holds q n := by
      rintro q ⟨d', hd', hn⟩
      rw [hdata] at hd'
      split at hd'
      · obtain ⟨d, hd, rfl⟩ := Option.map_eq_some_iff.mp hd'
        exact ⟨d, hd, by rw [← hn, PathData.node_shifted]⟩
      · exact ⟨d', hd', hn⟩
    exact hs.holder_unique (hback q hq) (hback q' hq')

/-- Taking the element of a path out of its list. -/
theorem relists_remove (hs : s.Sound K) {k : NodeKind} (hk : s.tree.kind? owner = some k)
    (hc : k.child? f = some (.many ids)) (hnodup : ids.Nodup)
    (hmax : ids.length ≤ Key.maxIndex) {p : PathId} {d : PathData} {n : NodeId}
    (hp : s.Files p (.item owner f i) d) (hn : ids[i]? = some n) :
    s.Relists owner f ids (ids.eraseIdx i) (s.plucked owner f ids i p) := by
  have htree := relisted_withList hk hc (ids.eraseIdx i)
  obtain ⟨hi, hie⟩ := List.getElem?_eq_some_iff.mp hn
  have hdata : ∀ q : PathId, (s.plucked owner f ids i p).paths[q.index]? =
      if q = p then s.paths[q.index]?.map fun d =>
        { d.shifted (i + 1) (-1) with removed := true, skip := true, node := none }
      else if q ∈ s.bucket (.list owner f) then s.paths[q.index]?.map (PathData.shifted (i + 1) (-1))
      else s.paths[q.index]? := by
    intro q
    show (Array.modify _ p.index _)[q.index]? = _
    rw [getElem?_modify_paths, getElem?_mapPaths (hs.nodup _)]
    by_cases hqp : q = p
    · subst hqp
      have hb : q ∈ s.bucket (.list owner f) := hp.bucket
      rw [if_pos rfl, if_pos rfl, if_pos hb, Option.map_map]
      rfl
    · rw [if_neg hqp, if_neg hqp]
      rfl
  have hbucket : ∀ c, (s.plucked owner f ids i p).bucket c =
      if c = .list owner f then (s.bucket (.list owner f)).filter fun q => decide (q ≠ p)
      else s.bucket c := fun c => bucket_unfiled _ _ _
  have hmem : ∀ q, q ∈ (s.plucked owner f ids i p).bucket (.list owner f) ↔ q ∈ s.bucket (.list owner f) ∧ q ≠ p := by
    intro q
    rw [hbucket, if_pos rfl, List.mem_filter]
    simp
  have hholds : s.Holds p n := hp.holds (by rw [Tree.occupant?, htree.list?]; exact hn)
  have htree' : s.tree.Relisted owner f ids (ids.eraseIdx i) (s.plucked owner f ids i p).tree := by
    rw [plucked, dropped, tree_unfiled]
    exact htree
  refine ⟨htree', ?_, ?_, fun c hne => ?_, ?_, fun q hq => ?_, fun q hq => ?_, fun q hq hq' => ?_,
    fun q m hqm hstay => ?_, fun q q' m hq hq' => ?_, fun q m hqm hm hout => ?_⟩
  · exact detached_unfiled _ _
  · exact scopes_unfiled _ _
  · rw [hbucket, if_neg hne]
  · rw [hbucket, if_pos rfl]
    exact List.filter_sublist
  · have hqp : q ≠ p := fun hqp => hq (hqp ▸ hp.bucket)
    rw [hdata, if_neg hqp, if_neg hq]
  · obtain ⟨hq, hqp⟩ := (hmem q).mp hq
    obtain ⟨e, j, hf⟩ := hs.files_item hq
    have hj : j ≠ i := by
      rintro rfl
      exact hqp (hs.eq_of_files_item htree.list? hn hf hp)
    refine ⟨e, { e with key := .index (shiftedOut i j) }, shiftedOut i j, hf.data,
      ⟨?_, (hmem q).mpr ⟨hq, hqp⟩, hf.container, rfl, hf.live, ?_⟩, rfl⟩
    · rw [hdata, if_neg hqp, if_pos hq, hf.data, Option.map_some,
        PathData.shifted_of_index _ _ hf.key]
      rfl
    · rw [htree'.occupant?_item, getElem?_shiftedOut hi hmax hj]
      show e.node = _
      rw [hf.node, Tree.occupant?, htree.list?]
      rfl
  · have hqp : q = p := by
      by_contra hqp
      exact hq' ((hmem q).mpr ⟨hq, hqp⟩)
    subst hqp
    exact ⟨_, by rw [hdata, if_pos rfl, hp.data]; rfl, rfl⟩
  · have hqp : q ≠ p := by
      rintro rfl
      obtain rfl := hholds.unique_node hqm
      obtain ⟨j, hj, hje⟩ := List.mem_eraseIdx_iff_getElem?.mp (hstay (List.mem_of_getElem? hn))
      exact hj (index_unique hnodup hje hn)
    obtain ⟨e, he, hm⟩ := hqm
    by_cases hq : q ∈ s.bucket (.list owner f)
    · refine ⟨_, by rw [hdata, if_neg hqp, if_pos hq, he]; rfl, ?_⟩
      rw [PathData.node_shifted, hm]
    · exact ⟨e, by rw [hdata, if_neg hqp, if_neg hq, he], hm⟩
  · have hback : ∀ q, (s.plucked owner f ids i p).Holds q m → s.Holds q m := by
      rintro q ⟨e', he', hm⟩
      rw [hdata] at he'
      split at he'
      · obtain ⟨e, -, rfl⟩ := Option.map_eq_some_iff.mp he'
        cases hm
      · split at he'
        · obtain ⟨e, he, rfl⟩ := Option.map_eq_some_iff.mp he'
          exact ⟨e, he, by rw [← hm, PathData.node_shifted]⟩
        · exact ⟨e', he', hm⟩
    exact hs.holder_unique (hback q hq) (hback q' hq')
  · -- The only element that is in the list no more is the one at index `i`.
    obtain ⟨j, hj⟩ := List.mem_iff_getElem?.mp hm
    obtain rfl : j = i := by
      by_contra hji
      exact hout (List.mem_eraseIdx_iff_getElem?.mpr ⟨j, hji, hj⟩)
    obtain rfl := Option.some.inj (hj.symm.trans hn)
    obtain rfl := hs.holder_unique hqm hholds
    refine ⟨_, by rw [hdata, if_pos rfl, hp.data]; rfl, rfl, ?_⟩
    show (d.shifted _ _).container ≠ _
    rw [PathData.shifted_of_index _ _ hp.key, hp.container]
    exact Position.container_ne_detached _

end Sound

end Session

end Espalier
