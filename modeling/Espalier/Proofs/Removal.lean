import Espalier.Proofs.Pruning

set_option autoImplicit false

/-! # Removal

To remove a node is to take out the node it goes with (`Tree.Uproots`), to let the other operand or
an empty block take its place where it has to, and to forget what the scopes know about everything
below it. `removeWithin_settles` says this of every removal that is not refused, and of a refused
one that the tree stays as it is but the scopes have forgotten all the same. -/

namespace Espalier

open SessionM Session

/-! ## Forgetting -/

/-- What a scope forgets with a part of what it forgets anyway. -/
theorem Scope.without_without {a b : List NodeId} {la lb : PathId → Bool} (hab : ∀ m ∈ a, m ∈ b)
    (hl : ∀ p, lb p = true → la p = true) (sc : Scope) :
    (sc.without a la).without b lb = sc.without b lb := by
  have hkept : ∀ l : List PathId, (l.filter la).filter lb = l.filter lb := by
    intro l
    rw [List.filter_filter]
    exact List.filter_congr fun p _ => by cases hp : lb p <;> simp [hl, hp]
  simp only [Scope.without, List.filter_map, List.map_map, List.filter_filter]
  congr 2
  rw [List.filter_congr (q := fun e => decide (e.2.identifier ∉ b)) fun e _ => ?_]
  · exact List.map_congr_left fun e _ => by simp only [Function.comp_apply, hkept]
  · by_cases hb : e.2.identifier ∈ b
    · simp [hb]
    · have ha : e.2.identifier ∉ a := fun ha => hb (hab _ ha)
      simp [ha, hb]

namespace Session

/-- The session whose scopes, once they are built, know nothing of the nodes any more. -/
def forget (s : Session) (below : List NodeId) : Session :=
  if s.scopes.crawled = true then s.mapScopes (Scope.without below (s.lives below)) else s

section Forget

variable {s : Session} {a b below : List NodeId}

theorem rescoped_forget (s : Session) (below : List NodeId) : s.Rescoped (s.forget below) := by
  unfold forget
  split
  · exact s.rescoped_mapScopes fun _ => rfl
  · exact .refl s

theorem tree_forget (s : Session) (below : List NodeId) : (s.forget below).tree = s.tree := by
  rw [(s.rescoped_forget below).rest]

theorem paths_forget (s : Session) (below : List NodeId) : (s.forget below).paths = s.paths := by
  rw [(s.rescoped_forget below).rest]

theorem Sound.forget {K : Set NodeId} (h : s.Sound K) (below : List NodeId) :
    (s.forget below).Sound K :=
  (s.rescoped_forget below).alike.sound_of_paths h (s.paths_forget below)

theorem forget_forget (hab : ∀ m ∈ a, m ∈ b) : (s.forget a).forget b = s.forget b := by
  have hlives : (s.forget a).lives b = s.lives b := by
    funext p
    simp only [lives, paths_forget]
  have hout : ∀ p, s.lives b p = true → s.lives a p = true := by
    intro p hp
    unfold lives at hp ⊢
    split at hp
    · next d hd =>
      cases hn : d.node with
      | none => simp [hn] at hp
      | some m =>
        have hmb : m ∉ b := by simpa [hn] using hp
        simpa [hn] using fun hma => hmb (hab m hma)
    · cases hp
  unfold forget at hlives ⊢
  by_cases hcrawled : s.scopes.crawled = true
  · simp only [if_pos hcrawled] at hlives ⊢
    rw [if_pos (show (s.mapScopes _).scopes.crawled = true from hcrawled), hlives]
    simp only [mapScopes, Array.map_map]
    congr 3
    exact funext fun sc => Scope.without_without hab hout sc
  · simp only [if_neg hcrawled]

end Forget

/-! ## Edits beside the tree -/

/-- What an edit leaves alone beside the tree: the scopes, and that known paths are known. -/
structure Spares (s s' : Session) : Prop where
  scopes : s'.scopes = s.scopes
  known : ∀ q : PathId, (∃ d, s.paths[q.index]? = some d) → ∃ d, s'.paths[q.index]? = some d

namespace Spares

variable {s s' s'' : Session} {K : Set NodeId}

theorem trans (h : s.Spares s') (h' : s'.Spares s'') : s.Spares s'' :=
  ⟨h'.scopes.trans h.scopes, fun q hq => h'.known q (h.known q hq)⟩

theorem of_went (h : s.Went K s') : s.Spares s' where
  scopes := h.scopes
  known q := by
    rintro ⟨d, hd⟩
    obtain ⟨d', hd', -⟩ := h.grew.kept q d hd
    exact ⟨d', hd'⟩

/-- Writing to paths does not make any of them unknown. -/
theorem of_paths (hscopes : s'.scopes = s.scopes) (ps : List PathId) (g : PathData → PathData)
    (hpaths : s'.paths = ps.foldl (fun paths p => paths.modify p.index g) s.paths) :
    s.Spares s' := by
  refine ⟨hscopes, fun q hq => ?_⟩
  rw [hpaths]
  clear hpaths
  generalize s.paths = paths at hq
  induction ps generalizing paths with
  | nil => exact hq
  | cons p ps ih =>
    refine ih _ ?_
    obtain ⟨d, hd⟩ := hq
    rw [getElem?_modify_paths, hd]
    split <;> exact ⟨_, rfl⟩

end Spares

end Session

/-- Marking a path as removed touches nothing but the paths. -/
theorem PathId.markRemoved_returns {s : Session} {p : PathId}
    (hp : ∃ d, s.paths[p.index]? = some d) :
    Returns p.markRemoved s fun _ s' => s'.tree = s.tree ∧ s.Spares s' := by
  obtain ⟨d, hd⟩ := hp
  exact ⟨(), _, PathId.markRemoved_run hd, tree_unfiled _ _, .of_paths (scopes_unfiled _ _) [p]
    (fun d => { d with removed := true, skip := true, node := none }) rfl⟩

/-! ## Questions before the removal -/

section Hooks

variable {s : Session} {K : Set NodeId} {p q : PathId} {pos : Position} {d : PathData}
  {n owner : NodeId} {type : NodeType}

/-- Whether the owner of a position hinges on it can be asked for. -/
theorem PathId.carriesParent_run (hf : s.Files p pos d) (howner : pos.parent? = some owner)
    (hocc : s.tree.occupant? pos = some n) (htype : s.tree.type? owner = some type) :
    ∃ v, p.carriesParent type s = .ok v s ∧ (v = true ↔ s.tree.Hinges pos) := by
  have hkey := hf.key
  have hcontainer := hf.container
  obtain ⟨k, hk, rfl⟩ := Tree.kind_of_type? htype
  have hof : ∀ {type : NodeType}, s.tree.type? owner = some type → k.type = type :=
    fun h => Option.some.inj (htype.symm.trans h)
  cases pos with
  | root => cases howner
  | slot m f =>
    obtain rfl := Option.some.inj howner
    have hnodecl : ¬ (f = .declarations ∧ k.type = .variableDeclaration) := by
      rintro ⟨rfl, htype⟩
      obtain ⟨c, hc, hn⟩ := Option.bind_eq_some_iff.mp hocc
      rw [Tree.field?, hk, Option.bind_some, k.child?_eq_some_iff] at hc
      cases k <;> simp_all [NodeKind.type, NodeKind.fields, Child.node?]
    have hfield : d.field? = some f := by simp [PathData.field?, hkey, hcontainer, Position.key,
      Position.container]
    unfold PathId.carriesParent
    rw [bind_of_ok (p.data_run hf.data), hfield, hkey]
    simp only [Position.key, Key.field.injEq, Option.some.injEq, if_neg hnodecl]
    split
    · next h =>
      refine ⟨true, rfl, fun _ => ?_, fun _ => rfl⟩
      rcases h with ⟨rfl, h⟩ | ⟨rfl, h⟩ | ⟨rfl, h⟩ | ⟨rfl, h⟩
      · exact .test htype h
      · exact .declaration htype h
      · exact .labeled (htype.trans (congrArg some h))
      · exact .expression (htype.trans (congrArg some h))
    · next h =>
      refine ⟨false, rfl, fun hv => absurd hv Bool.false_ne_true, fun hh => absurd ?_ h⟩
      cases hh with
      | test ht hw => exact .inl ⟨rfl, (hof ht).symm ▸ hw⟩
      | declaration ht hw => exact .inr (.inl ⟨rfl, (hof ht).symm ▸ hw⟩)
      | labeled ht => exact .inr (.inr (.inl ⟨rfl, hof ht⟩))
      | expression ht => exact .inr (.inr (.inr ⟨rfl, hof ht⟩))
  | item m f i =>
    obtain rfl := Option.some.inj howner
    obtain ⟨ids, hids, hi⟩ := Option.bind_eq_some_iff.mp hocc
    have hfield : d.field? = some f := by simp [PathData.field?, hcontainer, Position.container]
    unfold PathId.carriesParent
    rw [bind_of_ok (p.data_run hf.data), hfield, hkey, hcontainer]
    simp only [Position.key, reduceCtorEq, false_and, or_self, if_false, Option.some.injEq,
      Position.container, Container.parent?]
    split
    · next h =>
      obtain ⟨rfl, h⟩ := h
      refine ⟨ids.length == 1, bind_of_ok (listLength_run (Tree.list?_eq_some_iff.mp hids)), ?_⟩
      rw [beq_iff_eq]
      constructor
      · intro hone
        obtain ⟨only, rfl⟩ := List.length_eq_one_iff.mp hone
        obtain rfl : i = 0 := by
          have := (List.getElem?_eq_some_iff.mp hi).1
          simpa using this
        exact .declarator (htype.trans (congrArg some h)) hids
      · rintro ⟨⟩
        next hlist => rw [Option.some.inj (hids.symm.trans hlist), List.length_singleton]
    · next h =>
      refine ⟨false, rfl, fun hv => absurd hv Bool.false_ne_true, fun hh => absurd ?_ h⟩
      cases hh with
      | declarator ht _ => exact ⟨rfl, hof ht⟩

/-- What stands in a sequence is an element of its list. -/
theorem Tree.sequence_position {t : Tree} (htype : t.type? owner = some .sequenceExpression)
    (hp : pos.parent? = some owner) (hn : t.occupant? pos = some n) :
    ∃ ids i, pos = .item owner .expressions i ∧ t.list? owner .expressions = some ids ∧
      ids[i]? = some n := by
  obtain ⟨k, hk, hkt⟩ := kind_of_type? htype
  obtain ⟨f, c, hf, -, hpos⟩ := mem_fields_of_occupant hp hk hn
  cases k <;> simp only [NodeKind.type, reduceCtorEq] at hkt
  simp only [NodeKind.fields, List.mem_singleton, Prod.mk.injEq] at hf
  obtain ⟨rfl, rfl⟩ := hf
  rcases hpos with ⟨-, hnode⟩ | ⟨ids, i, rfl, hids, hi⟩
  · cases hnode
  · obtain rfl := Child.many.inj hids
    refine ⟨_, i, rfl, list?_eq_some_iff.mpr ?_, hi⟩
    rw [field?, hk]
    rfl

/-- What stands in a binary expression is one of its two operands. -/
theorem Tree.binary_position {t : Tree} (htype : t.type? owner = some type)
    (hbinary : type.isBinary = true) (hp : pos.parent? = some owner)
    (hn : t.occupant? pos = some n) : ∃ left right,
      t.field? owner .left = some (.one left) ∧ t.field? owner .right = some (.one right) ∧
        (pos = .slot owner .left ∧ n = left ∨ pos = .slot owner .right ∧ n = right) := by
  obtain ⟨k, hk, rfl⟩ := kind_of_type? htype
  obtain ⟨f, c, hf, -, hpos⟩ := mem_fields_of_occupant hp hk hn
  cases k <;> simp only [NodeKind.type, NodeType.isBinary, Bool.false_eq_true] at hbinary
  all_goals
    next left right =>
    refine ⟨left, right, by rw [field?, hk]; rfl, by rw [field?, hk]; rfl, ?_⟩
    simp only [NodeKind.fields, List.mem_cons, List.not_mem_nil, Prod.mk.injEq, or_false] at hf
    rcases hf with ⟨rfl, rfl⟩ | ⟨rfl, rfl⟩ <;>
      rcases hpos with ⟨rfl, hnode⟩ | ⟨ids, i, -, hids, -⟩ <;> simp_all [Child.node?]

/-- The other operand, where there is one, is found. -/
theorem PathId.otherOperand?_opposed {other : NodeId} (hs : s.Sound K) (hf : s.Files p pos d)
    (hq : s.Holds q owner) (hother : s.tree.Opposes pos owner other)
    (htype : s.tree.type? owner = some type) :
    Returns (p.otherOperand? q type) s fun found s' => found = some other ∧ s.Went K s' := by
  have hof : ∀ {type' : NodeType}, s.tree.type? owner = some type' → type = type' :=
    fun h => Option.some.inj (htype.symm.trans h)
  have hnode : ∀ {pos' : Position} {q' : PathId} {s' : Session},
      s.Reaches K pos' (some q) q' s' → s.tree.occupant? pos' = some other →
        Returns q'.node? s' fun found s'' => found = some other ∧ s.Went K s'' := by
    intro pos' q' s' hr hocc
    obtain ⟨e, he, -⟩ := hr.files
    exact ⟨_, s', PathId.node?_run_of_holds (he.holds (by rw [hr.tree]; exact hocc)), rfl,
      hr.toWent⟩
  have hbinary : ∀ {f : Field}, type.isBinary = true →
      s.tree.occupant? (.slot owner f) = some other →
      Returns (q.child f) s fun q' s' =>
        Returns q'.node? s' fun found s'' => found = some other ∧ s.Went K s'' := by
    intro f hb hocc
    obtain ⟨c, hc, hnode'⟩ := Option.bind_eq_some_iff.mp hocc
    have hl : c.isList = false := by cases c <;> simp_all [Child.node?, Child.isList]
    exact (PathId.child_returns hs hq hc hl).mono fun q' s' hr => hnode hr hocc
  have hsequence : ∀ {ids : List NodeId} {i : Nat}, s.tree.list? owner .expressions = some ids →
      ids[i]? = some other → Returns (q.element .expressions i) s fun q' s' =>
        Returns q'.node? s' fun found s'' => found = some other ∧ s.Went K s'' := by
    intro ids i hids hi
    exact (PathId.element_returns hs hq (Tree.list?_eq_some_iff.mp hids) i).mono fun q' s' hr =>
      hnode hr (by simp [Tree.occupant?, hids, hi])
  have hkey := hf.key
  have hcontainer := hf.container
  unfold PathId.otherOperand?
  refine returns_bind_of_ok (p.data_run hf.data) ?_
  cases hother with
  | left ht hb hocc =>
    obtain rfl := hof ht
    rw [if_neg (by rintro rfl; cases hb), if_pos hb, if_pos (show d.key = .field .left from hkey)]
    exact (hbinary hb hocc).bind fun _ _ h => h
  | right ht hb hocc =>
    obtain rfl := hof ht
    rw [if_neg (by rintro rfl; cases hb), if_pos hb, if_neg (by rw [hkey]; simp [Position.key])]
    exact (hbinary hb hocc).bind fun _ _ h => h
  | first ht hids =>
    rw [if_pos (hof ht), hcontainer, hkey]
    refine returns_bind_of_ok (listLength_run (Tree.list?_eq_some_iff.mp hids)) ?_
    exact (hsequence hids rfl).bind fun _ _ h => h
  | second ht hids =>
    rw [if_pos (hof ht), hcontainer, hkey]
    refine returns_bind_of_ok (listLength_run (Tree.list?_eq_some_iff.mp hids)) ?_
    exact (hsequence hids rfl).bind fun _ _ h => h

/-- Where there is no other operand, none is found. -/
theorem PathId.otherOperand?_unopposed (hf : s.Files p pos d) (hp : pos.parent? = some owner)
    (hocc : s.tree.occupant? pos = some n) (hno : ∀ other, ¬ s.tree.Opposes pos owner other)
    (htype : s.tree.type? owner = some type) : p.otherOperand? q type s = .ok none s := by
  have hkey := hf.key
  have hcontainer := hf.container
  unfold PathId.otherOperand?
  rw [bind_of_ok (p.data_run hf.data)]
  split
  · next h =>
    obtain ⟨ids, i, rfl, hids, hi⟩ := Tree.sequence_position (h ▸ htype) hp hocc
    rw [hcontainer, hkey]
    show (listLength owner .expressions >>= _) s = _
    rw [bind_of_ok (listLength_run (Tree.list?_eq_some_iff.mp hids)), if_neg]
    · rfl
    · -- Of two elements each one has the other beside it.
      intro htwo
      obtain ⟨one, two, rfl⟩ := List.length_eq_two.mp htwo
      have hlt := (List.getElem?_eq_some_iff.mp hi).1
      match i, hlt with
      | 0, _ => exact hno two (.first (h ▸ htype) hids)
      | 1, _ => exact hno one (.second (h ▸ htype) hids)
  · rw [if_neg]
    · rfl
    · intro hb
      obtain ⟨left, right, hl, hr, hpos⟩ := Tree.binary_position htype hb hp hocc
      rcases hpos with ⟨rfl, -⟩ | ⟨rfl, -⟩
      · exact hno right (.left htype hb (by simp [Tree.occupant?, hr, Child.node?]))
      · exact hno left (.right htype hb (by simp [Tree.occupant?, hl, Child.node?]))

/-- Whether a block may stand at a position is seen from the key and the type of the owner. -/
theorem PathId.leavesBlock_iff (hf : s.Files p pos d) (hp : pos.parent? = some owner)
    (hocc : s.tree.occupant? pos = some n) (htype : s.tree.type? owner = some type) :
    leavesBlock d type = true ↔ s.tree.TakesBlock pos := by
  have hof : ∀ {type' : NodeType}, s.tree.type? owner = some type' → type = type' :=
    fun h => Option.some.inj (htype.symm.trans h)
  unfold leavesBlock
  rw [hf.key]
  simp only [Bool.or_eq_true, Bool.and_eq_true, beq_iff_eq]
  constructor
  · rintro (⟨rfl, hk⟩ | ⟨hk, hb | rfl⟩)
    all_goals
      cases pos <;> simp only [Position.key, Key.field.injEq, reduceCtorEq] at hk
      obtain rfl := Option.some.inj hp
      subst hk
    · exact .consequent htype
    · exact .loop htype hb
    · exact .arrow htype
  · rintro (ht | ⟨ht, hb⟩ | ht)
    all_goals
      obtain rfl := Option.some.inj hp
      obtain rfl := hof ht
    · exact .inl ⟨rfl, rfl⟩
    · exact .inr ⟨rfl, .inl hb⟩
    · exact .inr ⟨rfl, .inr rfl⟩

end Hooks

/-! ## Writing -/

/-- A position that must not be empty, and why the node there is not taken out. -/
inductive Tree.Insists (t : Tree) : Position → Refusal → Prop
  | root : Insists t .root .rootRemoval
  | slot {owner n : NodeId} {f : Field} {type : NodeType} : t.type? owner = some type →
      t.field? owner f = some (.one n) → Insists t (.slot owner f) (.requiredSlot type f)

section Writing

variable {s : Session} {K : Set NodeId} {p : PathId} {pos : Position} {d : PathData}
  {n new : NodeId}

/-- A node is taken out of its position, unless there has to be one. -/
theorem PathId.detach_settles (hs : s.Sound K) (hw : pos.Within K) (hf : s.Files p pos d)
    (hocc : s.tree.occupant? pos = some n) :
    (∃ cause, s.tree.Insists pos cause ∧ p.detach s = .error (.refused cause) s) ∨
      pos ≠ .root ∧ Returns p.detach s fun _ s' =>
        s.tree.Substituted K n [] s'.tree ∧ s.Spares s' := by
  have hkey := hf.key
  have hcontainer := hf.container
  cases pos with
  | root =>
    refine .inl ⟨_, .root, ?_⟩
    unfold PathId.detach
    rw [bind_of_ok (p.data_run hf.data), hcontainer]
    rfl
  | slot owner f =>
    have howner := hw owner rfl
    obtain ⟨k, hk⟩ := hs.forest.kind owner howner
    obtain ⟨c, hc, hnode⟩ := Option.bind_eq_some_iff.mp hocc
    have hck : k.child? f = some c := by simpa [Tree.field?, hk] using hc
    unfold PathId.detach Returns
    rw [bind_of_ok (p.data_run hf.data), hcontainer, hkey]
    dsimp only [Position.container, Position.key]
    rw [bind_of_ok (ask_run hk), hck]
    cases c with
    | one m => exact .inl ⟨_, .slot (Tree.type?_of_kind hk) hc, rfl⟩
    | many ids => cases hnode
    | opt m =>
      obtain rfl : m = some n := hnode
      refine .inr ⟨by simp, (), _, modifyKind_run hk _, ?_, ⟨rfl, fun _ hq => hq⟩⟩
      exact Tree.substituted_clearNode hs.forest howner hk hck
  | item owner f i =>
    have howner := hw owner rfl
    obtain ⟨k, hk⟩ := hs.forest.kind owner howner
    obtain ⟨ids, hids, hi⟩ := Option.bind_eq_some_iff.mp hocc
    have hck : k.child? f = some (.many ids) := by
      simpa [Tree.field?, hk] using Tree.list?_eq_some_iff.mp hids
    have hnodup := hs.forest.nodup_list howner hids
    have hset : ids.eraseIdx i = substitute n [] ids := by
      rw [substitute_eq hnodup hi, List.append_nil, List.eraseIdx_eq_take_drop_succ]
    have hrun : p.detach s = .ok () ((s.withList owner f (ids.eraseIdx i)).mapPaths
        (s.bucket (.list owner f)) (PathData.shifted (i + 1) (-1))) := by
      unfold PathId.detach
      rw [bind_of_ok (p.data_run hf.data), hcontainer, hkey]
      show ((ask fun t => t.kind? owner) >>= _) s = _
      rw [bind_of_ok (ask_run hk), hck]
      dsimp only
      rw [if_pos (List.getElem?_eq_some_iff.mp hi).1, bind_of_ok (modifyKind_run hk _)]
      exact shiftKeys_run (s := s.withList owner f (ids.eraseIdx i)) _ _ _
        fun q hq => hs.known (c := .list owner f) hq
    refine .inr ⟨by simp, (), _, hrun, ?_, .of_paths rfl _ _ rfl⟩
    have hrelisted := relisted_withList hk hck (ids.eraseIdx i)
    rw [hset] at hrelisted
    show s.tree.Substituted K n [] (s.withList owner f (ids.eraseIdx i)).tree
    rw [hset]
    exact hrelisted.substituted hs.forest howner (List.mem_of_getElem? hi)

theorem Session.Reseated.spares {s' : Session} (h : s.Reseated p pos new s') : s.Spares s' :=
  .of_paths (by rw [h.rest]) [p] (fun d => { d with node := some new, inferred := none })
    (by rw [h.rest]; rfl)

/-- A node that declares nothing comes to stand in the place of another one. -/
theorem PathId.putNode_reseats (hs : s.Sound K) (hw : pos.Within K) (hf : s.Files p pos d)
    (hocc : s.tree.occupant? pos = some n) {knew : NodeKind}
    (hknew : s.tree.kind? new = some knew) (hplain : knew.type.isDeclaration = false) :
    Returns (p.putNode (some n) new) s fun _ s' =>
      s.tree.Replanted pos new s'.tree ∧ s.Spares s' := by
  have hkind := hs.forest.kind n (hs.forest.closed pos n hw hocc)
  unfold PathId.putNode
  obtain ⟨t₁, hrun₁, ha₁⟩ := onTree_decorates (s := s)
    (TreeM.decorates_inheritComments ⟨knew, hknew⟩ hkind)
  have hkind₁ : ∃ k, t₁.kind? n = some k := by rw [ha₁.kind]; exact hkind
  obtain ⟨t₂, hrun₂, ha₂⟩ := onTree_decorates (s := { s with tree := t₁ })
    (TreeM.decorates_removeComments hkind₁)
  refine returns_bind_of_ok hrun₁ (returns_bind_of_ok hrun₂ ?_)
  have ht := ha₁.trans ha₂
  have ha : s.Alike { s with tree := t₂ } := alike_of_tree ht
  have hs₂ : Sound { s with tree := t₂ } K := ha.sound_of_paths hs rfl
  obtain ⟨d₂, hf₂, -⟩ := ha.files hf
  obtain ⟨s₃, hrun₃, hseat⟩ := hf₂.setNode_reseats ((ht.occupant? pos).trans hocc) new
  refine returns_bind_of_ok hrun₃ ?_
  refine returns_bind_of_ok (show recordMutation s₃ = .ok () _ from rfl) ?_
  have hself := hseat.files_self hf₂
  have hdone : Returns p.requeue { s₃ with mutations := s₃.mutations + 1 } fun _ s' =>
      s.tree.Replanted pos new s'.tree ∧ s.Spares s' := by
    refine ⟨(), _, PathId.requeue_run hself.data, .of_alike ht hseat.tree, ?_⟩
    exact ⟨hseat.spares.scopes, hseat.spares.known⟩
  refine returns_bind_of_ok (show scopesCrawled _ = .ok _ _ from rfl) ?_
  split
  · have htype : s₃.tree.type? new = some knew.type := by
      rw [← Tree.map_type_kind?, hseat.tree.type, Tree.map_type_kind?]
      exact Tree.type?_of_kind ((ht.kind new).trans hknew)
    refine returns_bind_of_ok (ask_run htype) ?_
    rw [hplain]
    exact hdone
  · exact hdone

end Writing

/-! ## What a removal does -/

/-- The operands of binary, logical and sequence expressions are no statements. -/
def Tree.ExpressesOperands (t : Tree) : Prop :=
  ∀ operator operand type type', t.Reachable operator → t.type? operator = some type →
    (type.isBinary = true ∨ type = .sequenceExpression) → t.IsChild operator operand →
      t.type? operand = some type' → type'.isStatement = false

/-- The last node of a removal is above the first one, or is it. -/
theorem Tree.Uproots.above {t : Tree} {n r : NodeId} {pos : Position} (h : t.Uproots n pos r) :
    Relation.ReflTransGen t.IsChild r n := by
  induction h with
  | alone => exact .refl
  | withOwner _ hocc _ hp _ ih => exact ih.tail ⟨_, hp, hocc⟩

/-- An operator is the owner of the position of its operand. -/
theorem Tree.Opposes.parent {t : Tree} {pos : Position} {operator other : NodeId}
    (h : t.Opposes pos operator other) : pos.parent? = some operator := by
  cases h <;> rfl

/-- An operator has the two operands as its children, and is an expression. -/
theorem Tree.Opposes.operator {t : Tree} {pos : Position} {operator other n : NodeId}
    (h : t.Opposes pos operator other) (hn : t.occupant? pos = some n) :
    ∃ type ids, t.type? operator = some type ∧
      (type.isBinary = true ∨ type = .sequenceExpression) ∧ t.children? operator = some ids ∧
        (ids = [n, other] ∨ ids = [other, n]) := by
  have hbinary : ∀ {type : NodeType} {left right : NodeId}, t.type? operator = some type →
      type.isBinary = true → t.occupant? (.slot operator .left) = some left →
        t.occupant? (.slot operator .right) = some right →
          t.children? operator = some [left, right] := by
    intro type left right ht hb hl hr
    obtain ⟨left', right', hleft, hright, -⟩ := binary_position ht hb rfl hl
    obtain ⟨k, hk, rfl⟩ := kind_of_type? ht
    cases k <;> simp only [NodeKind.type, NodeType.isBinary, Bool.false_eq_true] at hb
    all_goals
      rw [occupant?, field?, hk] at hl hr
      obtain rfl := Option.some.inj hl
      obtain rfl := Option.some.inj hr
      rw [children?_of_kind hk]
      rfl
  have hsequence : ∀ {ids : List NodeId}, t.type? operator = some .sequenceExpression →
      t.list? operator .expressions = some ids → t.children? operator = some ids := by
    intro ids ht hids
    obtain ⟨k, hk, hkt⟩ := kind_of_type? ht
    cases k <;> simp only [NodeKind.type, reduceCtorEq] at hkt
    rw [list?, field?, hk] at hids
    obtain rfl := Option.some.inj hids
    rw [children?_of_kind hk]
    simp [NodeKind.children, NodeKind.fields, Child.ids]
  cases h with
  | left ht hb hr => exact ⟨_, _, ht, .inl hb, hbinary ht hb hn hr, .inl rfl⟩
  | right ht hb hl => exact ⟨_, _, ht, .inl hb, hbinary ht hb hl hn, .inr rfl⟩
  | first ht hids =>
    refine ⟨_, _, ht, .inr rfl, hsequence ht hids, .inl ?_⟩
    simp only [occupant?, hids, Option.bind_some, List.getElem?_cons_zero, Option.some.injEq] at hn
    rw [hn]
  | second ht hids =>
    refine ⟨_, _, ht, .inr rfl, hsequence ht hids, .inr ?_⟩
    simp only [occupant?, hids, Option.bind_some, List.getElem?_cons_succ, List.getElem?_cons_zero,
      Option.some.injEq] at hn
    rw [hn]

section Settles

variable {s : Session} {K : Set NodeId} {p q : PathId} {pos : Position} {d : PathData}
  {n owner other : NodeId} {type : NodeType} {l below : List NodeId}

/-- The other operand takes the place of the operator. -/
theorem PathId.replaceWithin_cuts (hs : s.Sound K) (hrooted : s.tree.Rooted)
    (hops : s.tree.ExpressesOperands)
    (hq : s.Holds q owner) (howner : s.tree.Reachable owner)
    (hother : s.tree.Opposes pos owner other) (hocc : s.tree.occupant? pos = some n)
    (hl : s.tree.inOrder? = some l) (hbelow : s.tree.subtree? n = some below) (depth : Nat) :
    Returns (PathId.replaceWithin (depth + 1) q other) s fun _ s' =>
      s.tree.Cut pos n l below s'.tree ∧ s.Spares s' := by
  have hF := hs.forest
  have hoK := hF.mem_of_reachable howner
  obtain ⟨type, ids, htype, hoperator, hids, hpair⟩ := hother.operator hocc
  obtain ⟨k, hk, rfl⟩ := Tree.kind_of_type? htype
  have hchild : ∀ c ∈ ids, s.tree.IsChild owner c := by
    intro c hc
    obtain ⟨k', hk', rfl⟩ := Option.map_eq_some_iff.mp hids
    exact (s.tree.isChild_iff owner c).mpr ⟨k', hk', hc⟩
  have hn : s.tree.IsChild owner n := hchild n (by rcases hpair with rfl | rfl <;> simp)
  have hc : s.tree.IsChild owner other := hchild other (by rcases hpair with rfl | rfl <;> simp)
  obtain ⟨kother, hkother⟩ := hF.kind other (hF.closed_child hoK hc)
  have hplain := hops owner other _ _ howner htype hoperator hc (Tree.type?_of_kind hkother)
  have hne : owner ≠ other := by
    rintro rfl
    exact hF.acyclic owner hoK (.single hc)
  -- An operator is neither a program nor a statement, and its operand declares nothing.
  have hexpression : k.type ≠ .program ∧ k.type.isStatement = false := by
    rcases hoperator with hb | ht
    · generalize k.type = type at hb
      cases type <;> simp_all [NodeType.isBinary, NodeType.isStatement]
    · rw [ht]
      exact ⟨by decide, by decide⟩
  have hdeclares : kother.type.isDeclaration = false := by
    generalize kother.type = type at hplain
    cases type <;> simp_all [NodeType.isDeclaration, NodeType.isStatement]
  have hsuits : k.type.Suits kother.type :=
    ⟨fun hp => absurd hp hexpression.1, by simp [hplain], by simp [hexpression.2]⟩
  obtain ⟨place, hw, hlinked, hplace⟩ := hs.linked_of_reachable hq howner
  have hwK : place.Within K := Position.within_mono (fun m hm => hF.mem_of_reachable hm) hw
  obtain ⟨e, hf, -⟩ := hlinked
  rw [Returns, PathId.replaceWithin_run hs hq howner hne hk hkother hsuits]
  refine (PathId.putNode_reseats hs hwK hf hplace hkother hdeclares).mono fun _ s' hput => ?_
  obtain ⟨htree, hspares⟩ := hput
  have hroot : s.tree.root ≠ some owner := by
    intro hr
    obtain ⟨k', hk', hkt⟩ := hrooted.kind_root hr
    rw [hk, Option.some.injEq] at hk'
    exact hexpression.1 (hk' ▸ hkt)
  have hnotroot : place ≠ .root := by
    rintro rfl
    exact hroot hplace
  refine ⟨.operand hother hplace htree.here ?_, hspares⟩
  refine (htree.substituted hF hwK hplace hnotroot).inOrder_operand hF hoK hroot hids hpair
    (fun m hm hm' => ?_) hl hbelow
  -- Nothing is below both operands.
  obtain ⟨pos', hp', hocc'⟩ := hc
  obtain rfl := hF.below_disjoint hoK hother.parent hp' hocc hocc' hm hm'
  have hsame : n = other := Option.some.inj (hocc.symm.trans hocc')
  subst hsame
  cases hother with
  | left _ _ hr | right _ _ hr =>
    have hpos := hF.single _ _ n (Position.within_of_parent rfl hoK)
      (Position.within_of_parent rfl hoK) hocc hr
    cases hpos
  | first _ hlist | second _ hlist =>
    have hnodup := hF.nodup_list hoK hlist
    simp only [Tree.occupant?, hlist, Option.bind_some] at hocc
    simp_all

/-- An empty block takes the place of a body. -/
theorem PathId.setNode_block_cuts (hs : s.Sound K) (hw : pos.Within K) (hf : s.Files p pos d)
    (hocc : s.tree.occupant? pos = some n) (hblock : s.tree.TakesBlock pos)
    (hl : s.tree.inOrder? = some l) (hbelow : s.tree.subtree? n = some below) :
    Returns (do p.setNode (← onTree (TreeM.block []))) s fun _ s' =>
      s.tree.Cut pos n l below s'.tree ∧ s.Spares s' := by
  have hF := hs.forest
  obtain ⟨b, t₁, hrun, hgrown, hnew, hb⟩ := TreeM.builds_alloc (.refl s.tree) (.blockStatement [])
  refine returns_bind_of_ok (onTree_run hrun) ?_
  have hs₁ : Sound { s with tree := t₁ } K := hs.grown hgrown
  have hF₁ := hgrown.forest hF
  have hocc₁ : t₁.occupant? pos = some n := (hgrown.occupant? hF hw).trans hocc
  have hf₁ : Files { s with tree := t₁ } p pos d :=
    ⟨hf.data, hf.bucket, hf.container, hf.key, hf.live, hf.node.trans (hocc.trans hocc₁.symm)⟩
  obtain ⟨s', hrun', hseat⟩ := hf₁.setNode_reseats hocc₁ b
  have hslot : ∃ m f, pos = .slot m f := by
    cases hblock <;> exact ⟨_, _, rfl⟩
  obtain ⟨m, f, rfl⟩ := hslot
  have hmK := hw m rfl
  have hroot : s.tree.root ≠ some n := by
    intro hr
    have hpos := hF.single _ .root n hw (Position.within_root K) hocc hr
    cases hpos
  -- The block is no node of the forest, so its kind does not change.
  have hbm : b ≠ m := by
    rintro rfl
    rw [(s.tree.contains_iff b).mpr (hF.kind b hmK)] at hnew
    cases hnew
  have hbkind : s'.tree.kind? b = some (.blockStatement []) := by
    have houtline := hseat.tree.outline b
    have hlist := hseat.tree.list?_of_ne (n := b) (f := .body) (by simp)
    rw [hb, Option.map_some] at houtline
    obtain ⟨k, hk, houtline⟩ := Option.map_eq_some_iff.mp houtline
    cases k <;> cases houtline
    rw [hk]
    simp only [Tree.list?, Tree.field?, hk, hb] at hlist
    exact congrArg (fun ids => some (NodeKind.blockStatement ids)) (Option.some.inj hlist)
  have hsub := (hseat.tree.substituted hF₁ hw hocc₁ (by simp)).of_grown hgrown hF
  refine ⟨(), s', hrun', .block hblock hnew hbkind hseat.tree.here ?_, ?_⟩
  · refine hsub.inOrder_leaf hF (hF.closed _ n hw hocc) hroot ?_ hl hbelow
    rw [Tree.children?_of_kind hbkind]
    rfl
  · exact ⟨hseat.spares.scopes, hseat.spares.known⟩

/-- What is done in the node around a position whose owner does not hinge on it. -/
theorem PathId.adjustParent_settles (hs : s.Sound K) (hrooted : s.tree.Rooted)
    (hops : s.tree.ExpressesOperands)
    (hw : pos.Within K) (hf : s.Files p pos d) (hocc : s.tree.occupant? pos = some n)
    (hp : pos.parent? = some owner) (hq : s.Holds q owner) (howner : s.tree.Reachable owner)
    (htype : s.tree.type? owner = some type) (hhinges : ¬ s.tree.Hinges pos)
    (hl : s.tree.inOrder? = some l) (hbelow : s.tree.subtree? n = some below) (depth : Nat)
    (removeParent : SessionM Unit) :
    (p.adjustParent (PathId.replaceWithin (depth + 1)) q type removeParent s = .ok false s ∧
      (∀ operator other, ¬ s.tree.Opposes pos operator other) ∧ ¬ s.tree.TakesBlock pos) ∨
    Returns (p.adjustParent (PathId.replaceWithin (depth + 1)) q type removeParent) s
      fun adjusted s' => adjusted = true ∧ s.tree.Cut pos n l below s'.tree ∧ s.Spares s' := by
  obtain ⟨v, hv, hiff⟩ := PathId.carriesParent_run hf hp hocc htype
  obtain rfl : v = false := by
    cases v with
    | false => rfl
    | true => exact absurd (hiff.mp rfl) hhinges
  by_cases hother : ∃ other, s.tree.Opposes pos owner other
  · obtain ⟨other, hother⟩ := hother
    refine .inr ?_
    unfold PathId.adjustParent
    refine returns_bind_of_ok hv ?_
    refine (PathId.otherOperand?_opposed hs hf hq hother htype).bind fun found s₁ h₁ => ?_
    obtain ⟨rfl, h₁⟩ := h₁
    have ht := h₁.tree
    rw [← ht] at hrooted hops howner hother hocc hl hbelow ⊢
    refine (PathId.replaceWithin_cuts h₁.sound hrooted hops (h₁.grew.holds hs hq) howner hother hocc
      hl hbelow depth).bind fun _ s₂ h₂ => .pure ⟨rfl, h₂.1, (Spares.of_went h₁).trans h₂.2⟩
  · push Not at hother
    have hno := PathId.otherOperand?_unopposed (q := q) hf hp hocc hother htype
    have hleaves := PathId.leavesBlock_iff hf hp hocc htype
    have hall : ∀ operator other, ¬ s.tree.Opposes pos operator other := by
      intro operator other ho
      obtain rfl := Option.some.inj (ho.parent.symm.trans hp)
      exact hother other ho
    have hstart : p.adjustParent (PathId.replaceWithin (depth + 1)) q type removeParent s =
        (if leavesBlock d type then do
          p.setNode (← onTree (TreeM.block []))
          pure true
        else pure false : SessionM Bool) s := by
      unfold PathId.adjustParent
      refine (bind_of_ok hv).trans ((bind_of_ok hno).trans ?_)
      exact bind_of_ok (p.data_run hf.data)
    by_cases hblock : s.tree.TakesBlock pos
    · refine .inr ?_
      rw [Returns, hstart, if_pos (hleaves.mpr hblock)]
      show Returns (onTree (TreeM.block []) >>= fun b => p.setNode b >>= fun _ => pure true) s _
      rw [← bind_assoc]
      exact (PathId.setNode_block_cuts hs hw hf hocc hblock hl hbelow).bind fun _ s₁ h₁ =>
        .pure ⟨rfl, h₁⟩
    · refine .inl ⟨?_, hall, hblock⟩
      rw [hstart, if_neg (fun hv => hblock (hleaves.mp hv))]
      rfl

end Settles

/-- A session with other scopes has the same ways up. -/
theorem Session.Ancestry.of_rescoped {s s' : Session} {K : Set NodeId} {p : PathId}
    {way : List PathId} (h : s.Ancestry K p way) (hs : s.Rescoped s') : s'.Ancestry K p way := by
  obtain ⟨T, rfl⟩ : ∃ T, s' = { s with scopes := T } := ⟨_, hs.rest⟩
  have hlinked : ∀ {p pos}, s.Linked p pos → Session.Linked { s with scopes := T } p pos := by
    rintro p pos ⟨d, hf, ha⟩
    exact ⟨d, ⟨hf.data, hf.bucket, hf.container, hf.key, hf.live, hf.node⟩, ha⟩
  induction h with
  | root hl hr => exact .root (hlinked hl) hr
  | up hl hw hocc hp hq _ ih => exact .up (hlinked hl) hw hocc hp hq ih

/-- What is left to do once the parent was adjusted, or needs no adjusting. -/
def PathId.partWith (p : PathId) (adjusted : Bool) : SessionM Unit := do
  if !adjusted then p.detach
  p.markRemoved
  recordMutation

section Whole

variable {s s₁ s₂ : Session} {K : Set NodeId} {t : Tree} {l below : List NodeId} {p : PathId}
  {pos : Position} {d : PathData} {n : NodeId}

/-- The node is out of the tree already. -/
theorem PathId.partWith_adjusted (hp : ∃ d, s₁.paths[p.index]? = some d) (h : s₁.Spares s₂) :
    Returns (p.partWith true) s₂ fun _ s' => s'.tree = s₂.tree ∧ s₁.Spares s' := by
  show Returns (p.markRemoved >>= fun _ => recordMutation) s₂ _
  refine (PathId.markRemoved_returns (h.known p hp)).bind fun _ s₃ h₃ => ?_
  exact ⟨(), _, rfl, h₃.1, h.trans ⟨h₃.2.scopes, h₃.2.known⟩⟩

/-- The node is taken out of its position now, unless there has to be one. -/
theorem PathId.partWith_detached (hs : s.Sound K) (hw : pos.Within K) (hf : s.Files p pos d)
    (hocc : s.tree.occupant? pos = some n)
    (hno : ∀ operator other, ¬ s.tree.Opposes pos operator other) (hblock : ¬ s.tree.TakesBlock pos)
    (hl : s.tree.inOrder? = some l) (hbelow : s.tree.subtree? n = some below) :
    (∃ cause, s.tree.Insists pos cause ∧ p.partWith false s = .error (.refused cause) s) ∨
      Returns (p.partWith false) s fun _ s' => s.tree.Cut pos n l below s'.tree ∧ s.Spares s' := by
  rcases PathId.detach_settles hs hw hf hocc with ⟨cause, hinsists, hrun⟩ | ⟨hnotroot, hrun⟩
  · exact .inl ⟨cause, hinsists, bind_of_error hrun⟩
  · refine .inr (hrun.bind fun _ s₂ h₂ =>
      (PathId.partWith_adjusted ⟨d, hf.data⟩ h₂.2).mono fun _ s' h' => ⟨?_, h'.2⟩)
    have hroot : s.tree.root ≠ some n := fun hr =>
      hnotroot (hs.forest.single pos .root n hw (Position.within_root K) hocc hr)
    rw [h'.1]
    exact .gap hno hblock (h₂.1.inOrder_gap hs.forest (hs.forest.closed pos n hw hocc) hroot hl
      hbelow)

/-- A removal forgets what is below the node, adjusts the parent, and parts with the path. -/
theorem removeWithin_run (hs : s.Sound K) (hw : pos.Within K) (hl : s.Linked p pos)
    (hocc : s.tree.occupant? pos = some n) (hbelow : s.tree.subtree? n = some below)
    (replace : PathId → NodeId → SessionM Unit) (fuel : Nat) :
    removeWithin replace (fuel + 1) p s = (do
      let adjusted ← match ← p.parent?, ← p.parentType? with
        | some parent, some type =>
          p.adjustParent replace parent type (removeWithin replace fuel parent)
        | _, _ => pure false
      p.partWith adjusted) (s.forget below) := by
  obtain ⟨d, hf, -⟩ := id hl
  have hremoved : p.isRemoved s = .ok false s := by rw [p.isRemoved_run hf.data, hf.live]
  have hforget : unregister n s = .ok () (s.forget below) := unregister_run_of_subtree hbelow
  rw [removeWithin]
  refine (bind_of_ok hremoved).trans ?_
  refine (bind_of_ok (PathId.resync_run hs hw hl hocc)).trans ?_
  refine (bind_of_ok (PathId.node?_run_of_holds (hl.holds hocc))).trans ?_
  exact bind_of_ok hforget

/-- A removal is refused where a node has to stand, or takes out the node that it comes down to. The
scopes forget what is below that node in both cases. -/
theorem removeWithin_settles (hrooted : t.Rooted) (hops : t.ExpressesOperands)
    (hl : t.inOrder? = some l) (depth fuel : Nat) {way : List PathId} (htree : s.tree = t)
    (hs : s.Sound K) (hway : s.Ancestry K p way) (hfuel : way.length ≤ fuel) (hp : s.Holds p n) :
    ∃ pos r below, t.Uproots n pos r ∧ t.subtree? r = some below ∧
      ((∃ cause, t.Insists pos cause ∧
        removeWithin (PathId.replaceWithin (depth + 1)) fuel p s =
          .error (.refused cause) (s.forget below)) ∨
      Returns (removeWithin (PathId.replaceWithin (depth + 1)) fuel p) s fun _ s' =>
        t.Cut pos r l below s'.tree ∧ (s.forget below).Spares s') := by
  induction fuel generalizing s p n way with
  | zero => exact absurd (List.length_eq_zero_iff.mp (Nat.le_zero.mp hfuel)) hway.ne_nil
  | succ fuel ih =>
    subst htree
    obtain ⟨pos, hreach, hlinked, hocc⟩ := hs.linked_of_reachable hp (hway.reachable hp)
    have hw : pos.Within K :=
      Position.within_mono (fun m hm => hs.forest.mem_of_reachable hm) hreach
    obtain ⟨d, hf, hadopts⟩ := id hlinked
    obtain ⟨below, hbelow⟩ := hs.forest.exists_subtree (hs.mem_of_holds hp)
    have hstart := removeWithin_run hs hw hlinked hocc hbelow
      (PathId.replaceWithin (depth + 1)) fuel
    -- From here on the session is the one that has forgotten the node and everything below it.
    have hscoped := s.rescoped_forget below
    have hs₁ : (s.forget below).Sound K := hs.forget below
    have htree₁ := s.tree_forget below
    have hf₁ : (s.forget below).Files p pos d := by
      obtain ⟨d', hf', -⟩ := hscoped.alike.files hf
      obtain rfl : d' = d := Option.some.inj
        (hf'.data.symm.trans ((congrArg (·[p.index]?) (s.paths_forget below)).trans hf.data))
      exact hf'
    have hparent := PathId.parentType?_run hs₁ hw ⟨d, hf₁, hscoped.alike.adopts hadopts⟩
    rw [bind_of_ok (p.parent?_run hf₁.data), bind_of_ok hparent, htree₁] at hstart
    have hdetach := fun hno hblock => PathId.partWith_detached (s := s.forget below) (l := l) hs₁
      hw hf₁ (by rw [htree₁]; exact hocc) hno hblock (by rw [htree₁]; exact hl)
      (by rw [htree₁]; exact hbelow)
    rw [htree₁] at hdetach
    cases hway with
    | root hl' hr =>
      obtain rfl := hp.unique_node (hl'.holds hr)
      obtain rfl := hs.forest.single pos .root n hw (Position.within_root K) hocc hr
      have hnone : d.parent = none := hadopts
      rw [hnone] at hstart
      refine ⟨.root, n, below, .alone hreach hocc (fun h => by cases h), hbelow, ?_⟩
      rw [Returns, hstart]
      exact hdetach (fun _ _ h => by cases h) fun h => by cases h
    | @up _ q pos' n' owner way hl' hw' hocc' hpar hq hup =>
      obtain rfl := hp.unique_node (hl'.holds hocc')
      obtain rfl := hs.forest.single pos pos' n hw hw' hocc hocc'
      obtain ⟨k, hk⟩ := hs.forest.kind owner (hs.mem_of_holds hq)
      have htype := Tree.type?_of_kind hk
      have hq₁ := hscoped.alike.holds hq
      rw [hlinked.parent_eq hs hf.data hpar hq, hpar, Option.bind_some, htype] at hstart
      replace hstart := hstart.trans (show _ = (p.adjustParent (PathId.replaceWithin (depth + 1)) q
        k.type (removeWithin (PathId.replaceWithin (depth + 1)) fuel q) >>= p.partWith)
        (s.forget below) from rfl)
      by_cases hhinges : s.tree.Hinges pos
      · -- The owner goes with the node.
        obtain ⟨v, hv, hiff⟩ := PathId.carriesParent_run (s := s.forget below) hf₁ hpar
          (by rw [htree₁]; exact hocc) (by rw [htree₁]; exact htype)
        rw [htree₁] at hiff
        obtain rfl := hiff.mpr hhinges
        obtain ⟨pos', r, below', huproots, hbelow', hrun⟩ := ih htree₁ hs₁ (hup.of_rescoped hscoped)
          (by simpa using hfuel) hq₁
        have hsub : ∀ m ∈ below, m ∈ below' := fun m hm =>
          (Tree.mem_subtreeWithin hbelow').mpr ((huproots.above.tail ⟨pos, hpar, hocc⟩).trans
            ((Tree.mem_subtreeWithin hbelow).mp hm))
        rw [forget_forget hsub] at hrun
        have hadjust : p.adjustParent (PathId.replaceWithin (depth + 1)) q k.type
            (removeWithin (PathId.replaceWithin (depth + 1)) fuel q) (s.forget below) = (do
              removeWithin (PathId.replaceWithin (depth + 1)) fuel q
              pure true) (s.forget below) := by
          unfold PathId.adjustParent
          exact bind_of_ok hv
        refine ⟨pos', r, below', .withOwner hreach hocc hhinges hpar huproots, hbelow', ?_⟩
        rw [Returns, hstart]
        rcases hrun with ⟨cause, hinsists, hrun⟩ | ⟨_, s₂, hrun, hcut, hspares⟩
        · exact .inl ⟨cause, hinsists, bind_of_error (hadjust.trans (bind_of_error hrun))⟩
        · refine .inr (returns_bind_of_ok (hadjust.trans (bind_of_ok hrun)) ?_)
          have hknown : ∃ d, (s.forget below').paths[p.index]? = some d := by
            rw [s.paths_forget]
            exact ⟨d, hf.data⟩
          exact (PathId.partWith_adjusted hknown hspares).mono fun _ s' h' => ⟨h'.1 ▸ hcut, h'.2⟩
      · have hadjust := PathId.adjustParent_settles (s := s.forget below) (q := q) (l := l) hs₁
          (by rw [htree₁]; exact hrooted) (by rw [htree₁]; exact hops) hw hf₁
          (by rw [htree₁]; exact hocc) hpar hq₁
          (by rw [htree₁]; exact hup.reachable hq) (by rw [htree₁]; exact htype)
          (by rw [htree₁]; exact hhinges) (by rw [htree₁]; exact hl) (by rw [htree₁]; exact hbelow)
          depth (removeWithin (PathId.replaceWithin (depth + 1)) fuel q)
        rw [htree₁] at hadjust
        refine ⟨pos, n, below, .alone hreach hocc hhinges, hbelow, ?_⟩
        rw [Returns, hstart]
        rcases hadjust with ⟨hrun, hno, hblock⟩ | ⟨_, s₂, hrun, rfl, hcut, hspares⟩
        · rw [bind_of_ok hrun]
          exact hdetach hno hblock
        · refine .inr (returns_bind_of_ok hrun ?_)
          exact (PathId.partWith_adjusted ⟨d, hf₁.data⟩ hspares).mono fun _ s' h' =>
            ⟨h'.1 ▸ hcut, h'.2⟩

end Whole

end Espalier
