import Espalier.Proofs.Replanting

set_option autoImplicit false

/-! # Edits of a list

The edits that a client makes through the path of an element of a list, or through the path of the
node around it. Each of them succeeds where nothing but the list has to change, and leaves in the
tree what the corresponding operation on lists gives. -/

namespace Espalier

open SessionM Session

/-- The list with other nodes in the place of one element. -/
def substitute (n : NodeId) (new ids : List NodeId) : List NodeId :=
  ids.flatMap fun m => if m = n then new else [m]

section Substitute

variable {ids : List NodeId} {n : NodeId} {i : Nat}

theorem substitute_of_not_mem (h : n ∉ ids) (new : List NodeId) : substitute n new ids = ids := by
  induction ids with
  | nil => rfl
  | cons m ids ih =>
    rw [List.mem_cons, not_or] at h
    have ih := ih h.2
    simp only [substitute, List.flatMap_cons] at ih ⊢
    rw [if_neg (Ne.symm h.1), ih]
    rfl

/-- Where each element occurs once, the place of the element is the only one that changes. -/
theorem substitute_eq (hnodup : ids.Nodup) (hi : ids[i]? = some n) (new : List NodeId) :
    substitute n new ids = ids.take i ++ new ++ ids.drop (i + 1) := by
  induction ids generalizing i with
  | nil => simp at hi
  | cons m ids ih =>
    obtain ⟨hm, hnodup⟩ := List.nodup_cons.mp hnodup
    cases i with
    | zero =>
      obtain rfl : m = n := by simpa using hi
      have hrest := substitute_of_not_mem hm new
      simp only [substitute] at hrest
      simp [substitute, hrest]
    | succ i =>
      have hi : ids[i]? = some n := by simpa using hi
      have hne : m ≠ n := fun h => hm (h ▸ List.mem_of_getElem? hi)
      have ih := ih hnodup hi
      simp only [substitute] at ih
      simp [substitute, hne, ih]

theorem not_mem_substitute {new : List NodeId} (h : n ∉ new) : n ∉ substitute n new ids := by
  intro hmem
  obtain ⟨m, -, hm⟩ := List.mem_flatMap.mp hmem
  by_cases heq : m = n
  · exact h (by simpa [heq] using hm)
  · rw [if_neg heq, List.mem_singleton] at hm
    exact heq hm.symm

theorem mem_substitute_of_ne {m : NodeId} (h : m ∈ ids) (hne : m ≠ n) (new : List NodeId) :
    m ∈ substitute n new ids :=
  List.mem_flatMap.mpr ⟨m, h, by simp [hne]⟩

theorem drop_eq_cons (hi : ids[i]? = some n) : ids.drop i = n :: ids.drop (i + 1) := by
  obtain ⟨hlt, hie⟩ := List.getElem?_eq_some_iff.mp hi
  rw [List.drop_eq_getElem_cons hlt, hie]

theorem take_succ_eq (hi : ids[i]? = some n) : ids.take (i + 1) = ids.take i ++ [n] := by
  rw [List.take_add_one, hi]
  rfl

end Substitute

/-! ## Lists that change by themselves -/

/-- Can the list lose an element while its owner stays? A declaration goes with its last declarator,
and a sequence of two gives way to its other operand. -/
def NodeType.Spares (type : NodeType) (ids : List NodeId) : Prop :=
  (type = .variableDeclaration → ids.length ≠ 1) ∧ (type = .sequenceExpression → ids.length ≠ 2)

/-- Few of the nodes that do something of their own when they are edited own a list. -/
theorem NodeKind.type_of_list (k : NodeKind) {f : Field} {ids : List NodeId}
    (h : k.child? f = some (.many ids)) : k.type ≠ .expressionStatement ∧
      k.type ≠ .labeledStatement ∧ k.type ≠ .exportDefaultDeclaration ∧ k.type.isBinary = false := by
  rw [k.child?_eq_some_iff] at h
  cases k <;> simp_all [NodeKind.fields, NodeKind.type, NodeType.isBinary]

/-- The list of a sequence is that of its expressions. -/
theorem NodeKind.field_of_sequence (k : NodeKind) {f : Field} {ids : List NodeId}
    (htype : k.type = .sequenceExpression) (h : k.child? f = some (.many ids)) :
    f = .expressions := by
  rw [k.child?_eq_some_iff] at h
  cases k <;> simp_all [NodeKind.fields, NodeKind.type]

namespace Session

/-- The path holds a node of the tree, and the elements of one of its lists are given. -/
structure Hosts (s : Session) (K : Set NodeId) (host : PathId) (owner : NodeId) (f : Field)
    (ids : List NodeId) : Prop where
  orderly : s.Orderly K
  holds : s.Holds host owner
  reachable : s.tree.Reachable owner
  list : s.tree.list? owner f = some ids

section Hosts

variable {s : Session} {K : Set NodeId} {host : PathId} {owner : NodeId} {f : Field} {ids : List NodeId}
  {p : PathId} {n : NodeId}

theorem Hosts.nodup (h : s.Hosts K host owner f ids) : ids.Nodup :=
  h.orderly.list_nodup h.reachable h.list

theorem Hosts.mem_forest (h : s.Hosts K host owner f ids) : owner ∈ K :=
  h.orderly.sound.forest.mem_of_reachable h.reachable

/-- The node at the path is not an element of its own list. -/
theorem Hosts.not_mem (h : s.Hosts K host owner f ids) : owner ∉ ids := by
  intro hmem
  obtain ⟨i, hi⟩ := List.mem_iff_getElem?.mp hmem
  refine h.orderly.sound.forest.acyclic owner h.mem_forest (.single ⟨.item owner f i, rfl, ?_⟩)
  simp [Tree.occupant?, h.list, hi]

theorem Hosts.child (h : s.Hosts K host owner f ids) :
    ∃ k, s.tree.kind? owner = some k ∧ k.child? f = some (.many ids) := by
  obtain ⟨k, hk⟩ := h.orderly.sound.forest.kind owner h.mem_forest
  exact ⟨k, hk, by simpa [Tree.field?, hk] using Tree.list?_eq_some_iff.mp h.list⟩

/-- Everything known about a path that holds an element of the list. -/
structure Stands (s : Session) (K : Set NodeId) (host : PathId) (owner : NodeId) (f : Field)
    (ids : List NodeId) (p : PathId) (n : NodeId) (i : Nat) (d : PathData) : Prop where
  index : ids[i]? = some n
  lt : i < ids.length
  files : s.Files p (.item owner f i) d
  node : d.node = some n
  parent : d.parent = some host
  linked : s.Linked p (.item owner f i)
  occupant : s.tree.occupant? (.item owner f i) = some n
  within : (Position.item owner f i).Within K

/-- A path that holds an element of the list stands at the place of the element. -/
theorem Hosts.stands (h : s.Hosts K host owner f ids) (hp : s.Holds p n) (hn : n ∈ ids) :
    ∃ i d, s.Stands K host owner f ids p n i d := by
  obtain ⟨i, hi⟩ := List.mem_iff_getElem?.mp hn
  have hocc : s.tree.occupant? (.item owner f i) = some n := by
    simp [Tree.occupant?, h.list, hi]
  have hreach : s.tree.Reachable n := .child h.reachable ⟨_, rfl, hocc⟩
  obtain ⟨pos, hw, hl, hocc'⟩ := h.orderly.sound.linked_of_reachable hp hreach
  have hwithin : (Position.item owner f i).Within K :=
    Position.within_of_parent rfl h.mem_forest
  obtain rfl := h.orderly.sound.forest.single pos (.item owner f i) n
    (Position.within_mono (fun m hm => h.orderly.sound.forest.mem_of_reachable hm) hw) hwithin
    hocc' hocc
  obtain ⟨d, hf, -⟩ := id hl
  exact ⟨i, d, hi, (List.getElem?_eq_some_iff.mp hi).1, hf, hf.node.trans hocc,
    hl.parent_eq h.orderly.sound hf.data rfl h.holds, hl, hocc, hwithin⟩

/-- After an edit the path holds the node with its new elements. -/
theorem Hosts.edited {K' : Set NodeId} {ids' : List NodeId} {s' : Session}
    (h : s.Hosts K host owner f ids) (he : s.Edited K' owner f ids ids' s') :
    s'.Hosts K' host owner f ids' where
  orderly := he.orderly
  holds := he.keeps host owner h.holds fun hmem => absurd hmem h.not_mem
  reachable := he.owner
  list := he.list

theorem Hosts.surveys {s' : Session} (h : s.Hosts K host owner f ids) (hs : s.Surveys K s') :
    s'.Hosts K host owner f ids where
  orderly := h.orderly.surveys hs
  holds := hs.grew.holds h.orderly.sound h.holds
  reachable := by rw [hs.tree]; exact h.reachable
  list := by rw [hs.tree]; exact h.list

theorem Hosts.alike {s' : Session} (h : s.Hosts K host owner f ids) (ha : s.Alike s')
    (hp : s'.paths = s.paths) (ho : s'.scopes.Ordered) : s'.Hosts K host owner f ids where
  orderly := h.orderly.alike ha hp ho
  holds := ha.holds h.holds
  reachable := by
    have hr : owner ∈ s'.tree.reachable := by
      rw [ha.tree.reachable]
      exact h.reachable
    exact hr
  list := by rw [ha.tree.list?]; exact h.list

/-- An edit that changes nothing. -/
theorem Hosts.unchanged (h : s.Hosts K host owner f ids) :
    s.Edited (K ∪ s.tree.below []) owner f ids ids s where
  orderly := by rw [Tree.below_nil, Set.union_empty]; exact h.orderly
  list := h.list
  owner := h.reachable
  type _ := rfl
  keeps _ _ hq _ := hq
  gone _ hq := hq
  fate _ _ _ hn hout := absurd hn hout

end Hosts

end Session

/-! ## Questions about an element -/

namespace Session.Stands

variable {s : Session} {K : Set NodeId} {host : PathId} {owner : NodeId} {f : Field} {ids : List NodeId}
  {p : PathId} {n : NodeId} {i : Nat} {d : PathData}

theorem isRemoved_run (h : s.Stands K host owner f ids p n i d) : p.isRemoved s = .ok false s := by
  rw [p.isRemoved_run h.files.data, h.files.live]

theorem parent?_run (h : s.Stands K host owner f ids p n i d) :
    p.parent? s = .ok (some host) s := by
  rw [p.parent?_run h.files.data, h.parent]

theorem resync_run (h : s.Stands K host owner f ids p n i d) (hs : s.Sound K) :
    p.resync s = .ok () s :=
  PathId.resync_run hs h.within h.linked h.occupant

theorem parentType?_run (h : s.Stands K host owner f ids p n i d) (hs : s.Sound K) {k : NodeKind}
    (hk : s.tree.kind? owner = some k) : p.parentType? s = .ok (some k.type) s := by
  rw [PathId.parentType?_run hs h.within h.linked]
  simp [Tree.type?_of_kind hk]

end Session.Stands

/-! ## Insertion -/

section Edits

variable {s : Session} {K : Set NodeId} {host : PathId} {owner : NodeId} {f : Field} {ids nodes : List NodeId}
  {p : PathId} {n : NodeId}

/-- Insertion beside an element happens in the list. -/
private theorem delegatesInsertion_run {i : Nat} {d : PathData}
    (h : s.Hosts K host owner f ids) (hp : s.Stands K host owner f ids p n i d)
    (hinner : s.tree.type? owner ≠ some .exportNamedDeclaration) :
    p.delegatesInsertion s = .ok false s := by
  obtain ⟨k, hk, hc⟩ := h.child
  obtain ⟨hexpression, hlabeled, hdefault, -⟩ := k.type_of_list hc
  rw [Tree.type?_of_kind hk] at hinner
  unfold PathId.delegatesInsertion
  rw [bind_of_ok (hp.parentType?_run h.orderly.sound hk)]
  generalize k.type = type at *
  cases type <;> first | rfl | contradiction

private theorem insertHere_returns {i : Nat} {d : PathData} (h : s.Hosts K host owner f ids)
    (hp : s.Stands K host owner f ids p n i d) (hloose : s.tree.Loose K nodes) (after : Bool) :
    Returns (p.insertHere nodes after) s fun ps s' =>
      s.Edited (K ∪ s.tree.below nodes) owner f ids
        (substitute n (if after then n :: nodes else nodes ++ [n]) ids) s' ∧
        List.Forall₂ s'.Holds ps nodes := by
  obtain ⟨k, hk, hc⟩ := h.child
  have hinsert := fun j hj => PathId.insertAt_returns (i := j) h.orderly h.holds h.reachable hk hc
    hj hloose
  unfold PathId.insertHere
  refine returns_bind_of_ok (p.data_run hp.files.data) ?_
  rw [hp.files.container, hp.files.key, hp.parent, substitute_eq h.nodup hp.index]
  cases after with
  | false =>
    refine (hinsert i (Nat.le_of_lt hp.lt)).mono fun ps s' hps => ?_
    rw [drop_eq_cons hp.index] at hps
    simpa using hps
  | true =>
    have hnext : nextIndex i s = .ok (i + 1) s := by
      unfold nextIndex
      rw [if_pos (Nat.lt_trans hp.lt (h.orderly.length_lt h.reachable h.list))]
      rfl
    show Returns (nextIndex i >>= fun j => host.insertAt f j nodes) s _
    refine returns_bind_of_ok hnext ((hinsert (i + 1) hp.lt).mono fun ps s' hps => ?_)
    rw [take_succ_eq hp.index] at hps
    simpa using hps

/-- Inserting beside an element. -/
theorem PathId.insertBeside_returns (h : s.Hosts K host owner f ids) (hp : s.Holds p n)
    (hn : n ∈ ids) (hinner : s.tree.type? owner ≠ some .exportNamedDeclaration)
    (hloose : s.tree.Loose K nodes) (after : Bool) :
    Returns (p.insertBeside nodes after) s fun ps s' =>
      s.Edited (K ∪ s.tree.below nodes) owner f ids
        (substitute n (if after then n :: nodes else nodes ++ [n]) ids) s' ∧
        List.Forall₂ s'.Holds ps nodes := by
  obtain ⟨i, d, hst⟩ := h.stands hp hn
  unfold PathId.insertBeside
  refine returns_bind_of_ok hst.isRemoved_run ?_
  by_cases hnil : nodes = []
  · subst hnil
    have hsame : substitute n (if after then [n] else [] ++ [n]) ids = ids := by
      have hone : (if after then [n] else [] ++ [n]) = [n] := by
        cases after <;> rfl
      rw [hone, substitute_eq h.nodup hst.index, List.append_assoc, List.singleton_append,
        ← drop_eq_cons hst.index, List.take_append_drop]
    rw [hsame]
    exact .pure ⟨h.unchanged, .nil⟩
  · simp only [Bool.false_eq_true, if_false, if_neg hnil]
    have hbound : climbBound s = .ok (2 * s.paths.size + 1 + 1) s := rfl
    refine returns_bind_of_ok hbound ?_
    unfold insertWithin
    refine returns_bind_of_ok hst.isRemoved_run ?_
    refine returns_bind_of_ok (hst.resync_run h.orderly.sound) ?_
    refine returns_bind_of_ok (delegatesInsertion_run h hst hinner) ?_
    refine returns_bind_of_ok hst.parent?_run ?_
    exact insertHere_returns h hst hloose after

/-- Inserting at the start or at the end of the list. -/
private theorem insertAt_host_returns (h : s.Hosts K host owner f ids)
    (hloose : s.tree.Loose K nodes) {i : Nat} (hi : i ≤ ids.length) :
    Returns (host.insertAt f i nodes) s fun ps s' =>
      s.Edited (K ∪ s.tree.below nodes) owner f ids (ids.take i ++ nodes ++ ids.drop i) s' ∧
        List.Forall₂ s'.Holds ps nodes := by
  obtain ⟨k, hk, hc⟩ := h.child
  exact PathId.insertAt_returns h.orderly h.holds h.reachable hk hc hi hloose

/-- The path of the program or block is not removed. -/
private theorem isRemoved_host (h : s.Hosts K host owner f ids) :
    host.isRemoved s = .ok false s := by
  obtain ⟨pos, d, -, hf, -⟩ := h.orderly.sound.files_of_holds h.holds
  rw [host.isRemoved_run hf.data, hf.live]

/-- Nodes that are put at the start of the list. -/
theorem PathId.unshiftInto_run (h : s.Hosts K host owner f ids) (nodes : List NodeId) :
    host.unshiftInto f nodes s = host.insertAt f 0 nodes s := by
  unfold PathId.unshiftInto
  rw [bind_of_ok (isRemoved_host h)]
  rfl

/-- Nodes that are put at the end of the list. -/
theorem PathId.pushInto_run (h : s.Hosts K host owner f ids) (nodes : List NodeId) :
    host.pushInto f nodes s = host.insertAt f ids.length nodes s := by
  obtain ⟨k, hk, hc⟩ := h.child
  have hfield : s.tree.field? owner f = some (.many ids) := by simp [Tree.field?, hk, hc]
  unfold PathId.pushInto
  rw [bind_of_ok (isRemoved_host h), if_neg Bool.false_ne_true,
    bind_of_ok (PathId.node?_run_of_holds h.holds)]
  exact bind_of_ok (PathId.listLength_run hfield)

theorem PathId.unshiftInto_returns (h : s.Hosts K host owner f ids)
    (hloose : s.tree.Loose K nodes) :
    Returns (host.unshiftInto f nodes) s fun ps s' =>
      s.Edited (K ∪ s.tree.below nodes) owner f ids (nodes ++ ids) s' ∧
        List.Forall₂ s'.Holds ps nodes := by
  rw [Returns, PathId.unshiftInto_run h]
  refine (insertAt_host_returns h hloose (Nat.zero_le _)).mono fun ps s' hps => ?_
  simpa using hps

theorem PathId.pushInto_returns (h : s.Hosts K host owner f ids) (hloose : s.tree.Loose K nodes) :
    Returns (host.pushInto f nodes) s fun ps s' =>
      s.Edited (K ∪ s.tree.below nodes) owner f ids (ids ++ nodes) s' ∧
        List.Forall₂ s'.Holds ps nodes := by
  rw [Returns, PathId.pushInto_run h]
  refine (insertAt_host_returns h hloose (Nat.le_refl _)).mono fun ps s' hps => ?_
  simpa using hps

/-! ## Removal -/

/-- An element was taken out of a list, and its path was removed. The scopes know nothing of it. -/
structure Session.Withdrawn (s : Session) (K : Set NodeId) (owner : NodeId) (f : Field)
    (ids : List NodeId) (n : NodeId) (s' : Session) : Prop where
  edited : s.Edited K owner f ids (substitute n [] ids) s'
  tree : s.tree.Relisted owner f ids (substitute n [] ids) s'.tree
  scopes : s'.scopes = s.scopes

/-- Taking an element out of the list and marking its path as removed. -/
theorem Session.Hosts.plucked {i : Nat} {d : PathData} (h : s.Hosts K host owner f ids)
    (hp : s.Stands K host owner f ids p n i d) :
    s.Withdrawn K owner f ids n (s.plucked owner f ids i p) := by
  obtain ⟨k, hk, hc⟩ := h.child
  have hrelists := h.orderly.sound.relists_remove hk hc h.nodup
    (Nat.le_of_lt (h.orderly.length_lt h.reachable h.list)) hp.files hp.index
  have hedited := hrelists.edited h.orderly (.nil _ _) h.reachable (h.nodup.eraseIdx i)
    fun m hm => .inl (List.mem_of_mem_eraseIdx hm)
  rw [Tree.below_nil, Set.union_empty] at hedited
  have hids : substitute n [] ids = ids.eraseIdx i := by
    rw [substitute_eq h.nodup hp.index, List.append_nil, ← List.eraseIdx_eq_take_drop_succ]
  exact ⟨hids ▸ hedited, hids ▸ hrelists.tree, hrelists.scopes⟩

private theorem detach_markRemoved_returns {i : Nat} {d : PathData} (h : s.Hosts K host owner f ids)
    (hp : s.Stands K host owner f ids p n i d) :
    Returns (do p.detach; p.markRemoved) s fun _ s' => s.Withdrawn K owner f ids n s' := by
  obtain ⟨k, hk, hc⟩ := h.child
  exact ⟨(), _, PathId.detach_markRemoved_run h.orderly.sound hk hc hp.files hp.lt, h.plucked hp⟩

/-- The node around the list can do without an element. -/
private theorem adjustParent_run {i : Nat} {d : PathData} {k : NodeKind}
    (hp : s.Stands K host owner f ids p n i d) (hk : s.tree.kind? owner = some k)
    (hc : k.child? f = some (.many ids)) (hspares : k.type.Spares ids)
    (replace : PathId → NodeId → SessionM Unit) (removeParent : SessionM Unit) :
    p.adjustParent replace host k.type removeParent s = .ok false s := by
  obtain ⟨hdeclarators, hoperands⟩ := hspares
  obtain ⟨-, -, -, hbinary⟩ := k.type_of_list hc
  have hkey : d.key = .index i := hp.files.key
  have hcontainer : d.container = .list owner f := hp.files.container
  have hlength : listLength owner f s = .ok ids.length s :=
    PathId.listLength_run (by simp [Tree.field?, hk, hc])
  have hcarries : p.carriesParent k.type s = .ok false s := by
    unfold PathId.carriesParent
    rw [bind_of_ok (p.data_run hp.files.data), if_neg (by simp [hkey])]
    split
    · next hlast =>
      obtain ⟨hfield, htype⟩ := hlast
      obtain rfl : f = .declarations := by simpa [PathData.field?, hkey, hcontainer] using hfield
      rw [hcontainer]
      show (listLength owner .declarations >>= _) s = _
      rw [bind_of_ok hlength]
      show EStateM.Result.ok (ids.length == 1) s = _
      rw [beq_eq_false_iff_ne.mpr (hdeclarators htype)]
    · rfl
  have hother : p.otherOperand? host k.type s = .ok none s := by
    unfold PathId.otherOperand?
    rw [bind_of_ok (p.data_run hp.files.data)]
    split
    · next htype =>
      obtain rfl : f = .expressions := k.field_of_sequence htype hc
      rw [hcontainer, hkey]
      show (listLength owner .expressions >>= _) s = _
      rw [bind_of_ok hlength, if_neg (hoperands htype)]
      rfl
    · rw [if_neg (by rw [hbinary]; simp)]
      rfl
  unfold PathId.adjustParent
  rw [bind_of_ok hcarries]
  show (p.otherOperand? host k.type >>= _) s = _
  rw [bind_of_ok hother]
  show (p.data >>= _) s = _
  rw [bind_of_ok (p.data_run hp.files.data)]
  have hblock : PathId.leavesBlock d k.type = false := by
    unfold PathId.leavesBlock
    simp [hkey]
  rw [hblock]
  rfl

/-- To remove an element is to forget what the scopes know about it, and then to take it out of the
list. -/
theorem PathId.remove_withdraws (h : s.Hosts K host owner f ids) (hp : s.Holds p n) (hn : n ∈ ids)
    {k : NodeKind} (hk : s.tree.kind? owner = some k) (hspares : k.type.Spares ids) :
    ∃ s₁, unregister n s = .ok () s₁ ∧ s.Rescoped s₁ ∧
      Returns p.remove s fun _ s' => s₁.Withdrawn K owner f ids n s' := by
  obtain ⟨i, d, hst⟩ := h.stands hp hn
  obtain ⟨_, s₁, hrun, h₁⟩ := unregister_returns h.orderly.sound (h.orderly.sound.mem_of_holds hp)
  refine ⟨s₁, hrun, h₁, ?_⟩
  unfold PathId.remove
  refine returns_bind_of_ok (show replaceFuel s = .ok _ s from rfl) ?_
  unfold PathId.removeUsing
  refine returns_bind_of_ok (show climbBound s = .ok (2 * s.paths.size + 1 + 1) s from rfl) ?_
  unfold removeWithin
  refine returns_bind_of_ok hst.isRemoved_run ?_
  refine returns_bind_of_ok (hst.resync_run h.orderly.sound) ?_
  refine returns_bind_of_ok (PathId.node?_run_of_holds hp) ?_
  refine returns_bind_of_ok hrun ?_
  have hordered := h₁.ordered h.orderly.ordered
  have hpaths : s₁.paths = s.paths := by rw [h₁.rest]
  have hhosts := h.alike h₁.alike hpaths hordered
  obtain ⟨j, e, hst₁⟩ := hhosts.stands (h₁.alike.holds hp) hn
  have hk₁ : s₁.tree.kind? owner = some k := by rw [h₁.alike.tree.kind, hk]
  refine returns_bind_of_ok hst₁.parent?_run ?_
  refine returns_bind_of_ok (hst₁.parentType?_run hhosts.orderly.sound hk₁) ?_
  have hc₁ : k.child? f = some (.many ids) := by
    obtain ⟨k', hk', hc'⟩ := hhosts.child
    rw [Option.some.inj (hk₁.symm.trans hk')]
    exact hc'
  refine returns_bind_of_ok (adjustParent_run hst₁ hk₁ hc₁ hspares _ _) ?_
  show Returns (p.detach >>= fun _ => p.markRemoved >>= fun _ => recordMutation) s₁ _
  rw [← bind_assoc]
  refine (detach_markRemoved_returns hhosts hst₁).bind fun _ s₂ h₂ => ?_
  refine ⟨(), _, rfl, ?_, h₂.tree, h₂.scopes⟩
  exact Edited.alike h₂.edited ⟨.refl _, rfl, rfl, fun _ => rfl⟩ rfl h₂.edited.orderly.ordered

/-- Removing an element. -/
theorem PathId.remove_returns (h : s.Hosts K host owner f ids) (hp : s.Holds p n) (hn : n ∈ ids)
    {k : NodeKind} (hk : s.tree.kind? owner = some k) (hspares : k.type.Spares ids) :
    Returns p.remove s fun _ s' => s.Edited K owner f ids (substitute n [] ids) s' := by
  obtain ⟨s₁, -, h₁, hremove⟩ := PathId.remove_withdraws h hp hn hk hspares
  exact hremove.mono fun _ s' h' => h'.edited.of_alike h₁.alike

/-! ## Replacement -/

/-- An element with loose nodes in its place. -/
theorem PathId.replaceWithMultiple_returns (h : s.Hosts K host owner f ids) (hp : s.Holds p n)
    (hn : n ∈ ids) (hloose : s.tree.Loose K nodes) (hne : nodes ≠ []) :
    Returns (p.replaceWithMultiple nodes) s fun ps s' =>
      s.Edited (K ∪ s.tree.below nodes) owner f ids (substitute n nodes ids) s' ∧
        List.Forall₂ s'.Holds ps nodes := by
  obtain ⟨i, d, hst⟩ := h.stands hp hn
  obtain ⟨first, hfirst⟩ : ∃ first, nodes.head? = some first :=
    ⟨_, List.head?_eq_some_head hne⟩
  obtain ⟨last, hlast⟩ : ∃ last, nodes.getLast? = some last :=
    ⟨_, List.getLast?_eq_some_getLast hne⟩
  have hnK := h.orderly.sound.mem_of_holds hp
  have hkind := h.orderly.sound.forest.kind n hnK
  have hloosekind : ∀ m ∈ nodes, ∃ k, s.tree.kind? m = some k := fun m hm =>
    (s.tree.contains_iff m).mp (hloose.allocated m (s.tree.mem_below hm))
  unfold PathId.replaceWithMultiple
  refine returns_bind_of_ok hst.isRemoved_run ?_
  refine returns_bind_of_ok (hst.resync_run h.orderly.sound) ?_
  rw [hfirst, hlast]
  refine returns_bind_of_ok (p.data_run hst.files.data) ?_
  have hfield : d.listField? = some f := by
    unfold PathData.listField?
    rw [hst.files.container]
    rfl
  rw [hst.node, hfield, hst.files.key, hst.parent]
  -- The comments of the element go to the first and the last of the new ones.
  obtain ⟨t₁, hrun₁, ha₁⟩ := onTree_decorates (s := s) (TreeM.decorates_inheritLeading
    (hloosekind first (List.mem_of_mem_head? hfirst)) hkind)
  have hlast₁ : ∃ k, t₁.kind? last = some k := by
    rw [ha₁.kind]
    exact hloosekind last (List.mem_of_getLast? hlast)
  have hkind₁ : ∃ k, t₁.kind? n = some k := by rw [ha₁.kind]; exact hkind
  obtain ⟨t₂, hrun₂, ha₂⟩ := onTree_decorates (s := { s with tree := t₁ })
    (TreeM.decorates_inheritTrailing hlast₁ hkind₁)
  have hkind₂ : ∃ k, t₂.kind? n = some k := by rw [ha₂.kind]; exact hkind₁
  obtain ⟨t₃, hrun₃, ha₃⟩ := onTree_decorates (s := { s with tree := t₂ })
    (TreeM.decorates_removeComments hkind₂)
  refine returns_bind_of_ok hrun₁ (returns_bind_of_ok hrun₂ (returns_bind_of_ok hrun₃ ?_))
  have ha : s.Alike { s with tree := t₃ } := alike_of_tree ((ha₁.trans ha₂).trans ha₃)
  have hhosts₃ : Hosts { s with tree := t₃ } K host owner f ids := h.alike ha rfl h.orderly.ordered
  obtain ⟨k, hk, hc⟩ := hhosts₃.child
  refine (PathId.insertAt_returns hhosts₃.orderly hhosts₃.holds hhosts₃.reachable hk hc
    (show i + 1 ≤ ids.length from hst.lt) (ha.tree.loose hloose)).bind fun ps s₄ h₄ => ?_
  obtain ⟨h₄, hps⟩ := h₄
  rw [ha.tree.below] at h₄
  have hhosts₄ := hhosts₃.edited h₄
  have hn₄ : n ∈ ids.take (i + 1) ++ nodes ++ ids.drop (i + 1) := (mem_splice _).mpr (.inl hn)
  have hp₄ := h₄.keeps p n (ha.holds hp) fun _ => hn₄
  refine (unregister_returns h₄.orderly.sound (.inl hnK)).bind fun _ s₅ h₅ => ?_
  have hhosts₅ := hhosts₄.alike h₅.alike (by rw [h₅.rest]) (h₅.ordered h₄.orderly.ordered)
  obtain ⟨j, e, hst₅⟩ := hhosts₅.stands (h₅.alike.holds hp₄) hn₄
  rw [← bind_assoc]
  refine (detach_markRemoved_returns hhosts₅ hst₅).bind fun _ s₆ hwithdrawn => .pure ?_
  have h₆ := hwithdrawn.edited
  -- The element is still at its index, because the new ones came in behind it.
  have hi₅ : (ids.take (i + 1) ++ nodes ++ ids.drop (i + 1))[i]? = some n := by
    rw [List.append_assoc, List.getElem?_append_left
      (by rw [List.length_take]; have := hst.lt; omega), List.getElem?_take_of_lt (by omega),
      hst.index]
  have hfinal : substitute n [] (ids.take (i + 1) ++ nodes ++ ids.drop (i + 1)) =
      substitute n nodes ids := by
    rw [substitute_eq hhosts₅.nodup hi₅, substitute_eq h.nodup hst.index, take_succ_eq hst.index]
    have hlen : (ids.take i).length = i := List.length_take_of_le (Nat.le_of_lt hst.lt)
    simp [List.drop_append, hlen]
  rw [hfinal] at h₆
  refine ⟨⟨h₆.orderly, h₆.list, h₆.owner, fun m => ?_, fun q m hqm hm => ?_, fun q hq => ?_,
    fun q m hqm hm hout => ?_⟩, ?_⟩
  · rw [h₆.type, h₅.alike.tree.kind, h₄.type, ha.tree.kind]
  · have hq₄ := h₄.keeps q m (ha.holds hqm) fun hmem => (mem_splice _).mpr (.inl hmem)
    refine h₆.keeps q m (h₅.alike.holds hq₄) fun hmem => ?_
    rcases (mem_splice _).mp hmem with hmem | hmem
    · exact hm hmem
    · exact absurd (h.orderly.sound.mem_of_holds hqm) (hloose.not_mem hmem)
  · exact h₆.gone q (h₅.alike.gone (h₄.gone q (ha.gone hq)))
  · have hq₄ := h₄.keeps q m (ha.holds hqm) fun hmem => (mem_splice _).mpr (.inl hmem)
    rcases h₆.fate q m (h₅.alike.holds hq₄) ((mem_splice _).mpr (.inl hm)) hout with
      hgone | ⟨j, x, -, hids, -⟩
    · exact .inl hgone
    · -- The list is shorter than before the element was taken out.
      have hlen := congrArg List.length hids
      rw [← hfinal, substitute_eq hhosts₅.nodup hi₅] at hlen
      have hlt := (List.getElem?_eq_some_iff.mp hi₅).1
      simp only [List.length_set, List.length_append, List.length_take, List.length_drop,
        List.length_nil] at hlen hlt
      omega
  · refine List.forall₂_iff_get.mpr ⟨hps.length_eq, fun j hj hj' => ?_⟩
    refine h₆.keeps _ _ (h₅.alike.holds (hps.get hj hj')) fun _ => ?_
    rw [substitute_eq h.nodup hst.index]
    simp [List.get_eq_getElem]

/-- Replacing an element by a loose node that suits its place. -/
theorem PathId.replaceWith_returns {new : NodeId} (h : s.Hosts K host owner f ids)
    (hp : s.Holds p n) (hn : n ∈ ids) (hloose : s.tree.Loose K [new]) {k knew : NodeKind}
    (hk : s.tree.kind? n = some k) (hknew : s.tree.kind? new = some knew)
    (hsuits : k.type.Suits knew.type) :
    Returns (p.replaceWith (.node new)) s fun _ s' =>
      s.Edited (K ∪ s.tree.below [new]) owner f ids (substitute n [new] ids) s' ∧
        s'.Holds p new := by
  obtain ⟨i, d, hst⟩ := h.stands hp hn
  have hF := h.orderly.sound.forest
  have hreach : s.tree.Reachable n := .child h.reachable ⟨.item owner f i, rfl, hst.occupant⟩
  refine (PathId.replaceWith_replaces h.orderly.rooted hp hreach hloose hk hknew hsuits).mono ?_
  rintro - s' ⟨pos, hocc, hl, hr⟩
  obtain rfl : pos = .item owner f i := by
    obtain ⟨_, hf, -⟩ := hl
    obtain ⟨-, -, -, hw, hf'⟩ := h.orderly.sound.filed _ p hf.bucket
    exact (hf.position_unique hst.files).1
  have hset : substitute n [new] ids = ids.set i new := by
    rw [substitute_eq h.nodup hst.index, List.set_eq_take_append_cons_drop, if_pos hst.lt]
    simp
  have hs := h.orderly.sound
  have hpnew := hr.holds_self hp
  have hleft : n ∉ substitute n [new] ids :=
    not_mem_substitute fun hmem => hloose.not_mem hmem (hs.mem_of_holds hp)
  refine ⟨⟨hr.orderly h.orderly, hset ▸ hr.tree.list?_set h.list,
    hr.tree.reachable_owner hs.forest hst.within rfl h.reachable, hr.tree.type,
    fun q m hq hm => ?_, fun q hq => hr.gone hs hp hq, fun q m hq hm hout => ?_⟩, hpnew⟩
  · refine hr.holds_of_ne hs ?_ hq
    rintro rfl
    obtain rfl := hp.unique_node hq
    exact hleft (hm hn)
  · -- Only the element that gave way is missing.
    obtain rfl : m = n := by
      by_contra hne
      exact hout (mem_substitute_of_ne hm hne _)
    obtain rfl := hs.holder_unique hp hq
    exact .inr ⟨i, new, hst.index, hset, hpnew⟩

end Edits

end Espalier
