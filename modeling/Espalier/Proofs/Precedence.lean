import Espalier.Proofs.Tours

set_option autoImplicit false

/-! # Depth-first order

Of two nodes of a forest either one is around the other, or there is a node in which they are in
different positions; then the one in the earlier position precedes the other (`Tree.Precedes`). This
is the order of a depth-first walk: a tour leaves a node before it enters those that it precedes
(`Tree.Tours.leaves_first`). It is a strict partial order (`Tree.Forest.precedes_trans`,
`Tree.Forest.not_precedes_self`). -/

namespace Espalier

/-! ## Positions in one node -/

/-- The order of the positions in one node: that of the fields, and in a list that of the
elements. -/
inductive Position.Earlier (type : NodeType) : Position → Position → Prop
  | element {owner : NodeId} {f : Field} {i j : Nat} : i < j →
      Earlier type (.item owner f i) (.item owner f j)
  | field {pos pos' : Position} {f g : Field} {i j : Nat} : pos.field? = some f →
      pos'.field? = some g → type.visitorFields.idxOf? f = some i →
      type.visitorFields.idxOf? g = some j → i < j → Earlier type pos pos'

namespace Position.Earlier

variable {type : NodeType} {pos pos' pos'' : Position}

/-- The places of the fields of two positions. -/
theorem places (h : pos.Earlier type pos') :
    pos.field? = pos'.field? ∨ ∃ f g i j, pos.field? = some f ∧ pos'.field? = some g ∧
      type.visitorFields.idxOf? f = some i ∧ type.visitorFields.idxOf? g = some j ∧ i < j := by
  cases h with
  | element _ => exact .inl rfl
  | field hf hg hi hj hlt => exact .inr ⟨_, _, _, _, hf, hg, hi, hj, hlt⟩

theorem irrefl : ¬ pos.Earlier type pos := by
  intro h
  cases h with
  | element hlt => exact Nat.lt_irrefl _ hlt
  | field hf hg hi hj hlt =>
    obtain rfl := Option.some.inj (hf.symm.trans hg)
    obtain rfl := Option.some.inj (hi.symm.trans hj)
    exact Nat.lt_irrefl _ hlt

theorem trans (h : pos.Earlier type pos') (h' : pos'.Earlier type pos'') :
    pos.Earlier type pos'' := by
  cases h with
  | element hlt =>
    cases h' with
    | element hlt' => exact .element (hlt.trans hlt')
    | field hf hg hi hj hlt' => exact .field hf hg hi hj hlt'
  | field hf hg hi hj hlt =>
    rcases h'.places with hsame | ⟨g', k, i', j', hg', hk, hi', hj', hlt'⟩
    · exact .field hf (hsame ▸ hg) hi hj hlt
    · obtain rfl := Option.some.inj (hg.symm.trans hg')
      obtain rfl := Option.some.inj (hj.symm.trans hi')
      exact .field hf hk hi hj' (hlt.trans hlt')

end Position.Earlier

/-! ## Nodes side by side -/

/-- Neither node contains the other, and a depth-first walk comes to the first one first: there is a
node with the one in an earlier position and the other in a later one. -/
inductive Tree.Precedes (t : Tree) (n m : NodeId) : Prop
  | fork {c a b : NodeId} {type : NodeType} {pos pos' : Position} : t.Reachable c →
      t.type? c = some type → pos.parent? = some c → pos'.parent? = some c →
      pos.Earlier type pos' → t.occupant? pos = some a → t.occupant? pos' = some b →
      Relation.ReflTransGen t.IsChild a n → Relation.ReflTransGen t.IsChild b m → Precedes t n m

/-- The node is around the other, or is the other. -/
def Tree.Contains (t : Tree) (n m : NodeId) : Prop := Relation.ReflTransGen t.IsChild n m

namespace Tree

variable {t : Tree} {K : Set NodeId} {n m l c : NodeId}

/-- What stands in a position of a node stands in one of the fields that walks visit. -/
theorem exists_place {pos : Position} {k : NodeKind} (hpos : pos.parent? = some c)
    (hk : t.kind? c = some k) (hocc : t.occupant? pos = some n) :
    ∃ f i, pos.field? = some f ∧ k.type.visitorFields.idxOf? f = some i := by
  obtain ⟨f, child, hmem, -, hshape⟩ := mem_fields_of_occupant hpos hk hocc
  have hf : f ∈ k.type.visitorFields := by
    rw [← k.map_fst_fields]
    exact List.mem_map_of_mem hmem
  obtain ⟨i, hi⟩ := Option.isSome_iff_exists.mp (List.isSome_idxOf?.mpr hf)
  rcases hshape with ⟨rfl, -⟩ | ⟨ids, j, rfl, -, -⟩
  · exact ⟨f, i, rfl, hi⟩
  · exact ⟨f, i, rfl, hi⟩

/-- Only a tree with a root has something that can be reached. -/
theorem Reachable.exists_root (h : t.Reachable n) : ∃ r, t.root = some r := by
  induction h with
  | root hr => exact ⟨_, hr⟩
  | child _ _ ih => exact ih

namespace Forest

/-- The root stands in no field. -/
theorem not_isChild_root {p r : NodeId} (hF : t.Forest K) (hp : p ∈ K) (hr : t.root = some r) :
    ¬ t.IsChild p r := by
  rintro ⟨pos, hpos, hocc⟩
  obtain rfl := hF.single pos .root r (Position.within_of_parent hpos hp)
    (Position.within_root K) hocc hr
  cases hpos

/-- What is above a node that can be reached can be reached itself. -/
theorem reachable_above (hF : t.Forest K) (hc : c ∈ K) (h : t.Contains c n)
    (hn : t.Reachable n) : t.Reachable c := by
  induction h with
  | refl => exact hn
  | @tail p n hcp hpn ih =>
    have hp := hF.closed_below hc hcp
    apply ih
    cases hn with
    | root hr => exact absurd hpn (hF.not_isChild_root hp hr)
    | child hq hqn => exact hF.parent_unique hp (hF.mem_of_reachable hq) hpn hqn ▸ hq

/-- Of nodes in different positions neither is around the other. -/
theorem disjoint_of_precedes (hF : t.Forest K) (h : t.Precedes n m) :
    ¬ t.Contains n m ∧ ¬ t.Contains m n := by
  obtain ⟨hc, -, hpos, hpos', hearlier, hocc, hocc', hdown, hdown'⟩ := h
  have hself : ∀ x, t.Contains _ x → t.Contains _ x → False := fun x hx hx' =>
    Position.Earlier.irrefl (hF.below_disjoint (hF.mem_of_reachable hc) hpos hpos' hocc hocc' hx hx' ▸
      hearlier)
  exact ⟨fun hnm => hself m (hdown.trans hnm) hdown', fun hmn => hself n hdown (hdown'.trans hmn)⟩

theorem not_precedes_self (hF : t.Forest K) : ¬ t.Precedes n n :=
  fun h => (hF.disjoint_of_precedes h).1 .refl

/-- The child through which a node leads to another one strictly below it. -/
theorem eq_child {a x d : NodeId} {pos : Position} (hF : t.Forest K) (hc : c ∈ K)
    (hpos : pos.parent? = some c) (hocc : t.occupant? pos = some a) (ha : t.Contains a m)
    (hx : t.IsChild c x) (hd : t.Contains x d) (hdm : t.Contains d m) : t.Contains a d := by
  obtain ⟨pos', hpos', hocc'⟩ := hx
  obtain rfl := hF.below_disjoint hc hpos hpos' hocc hocc' ha (hd.trans hdm)
  obtain rfl := Option.some.inj (hocc.symm.trans hocc')
  exact hd

theorem precedes_trans (hF : t.Forest K) (h : t.Precedes n m) (h' : t.Precedes m l) :
    t.Precedes n l := by
  obtain @⟨c, a, b, type, pos, pos₁, hc, htype, hpos, hpos₁, hearlier, ha, hb, hn, hm⟩ := h
  obtain @⟨c', a', b', type', pos', pos₁', hc', htype', hpos', hpos₁', hearlier', ha', hb', hm', hl⟩ := h'
  have hcK := hF.mem_of_reachable hc
  have hcK' := hF.mem_of_reachable hc'
  -- Both forks are above the node in the middle.
  have hcm : t.Contains c m := .head ⟨pos₁, hpos₁, hb⟩ hm
  have hcm' : t.Contains c' m := .head ⟨pos', hpos', ha'⟩ hm'
  have hlow : t.Contains c' l := .head ⟨pos₁', hpos₁', hb'⟩ hl
  rcases hF.below_total hcK hcK' hcm hcm' with hcc | hcc
  · rcases hcc.cases_head with rfl | ⟨x, hx, hxc⟩
    · -- They are the same node.
      obtain rfl := hF.below_disjoint hcK hpos₁ hpos' hb ha' hm hm'
      obtain rfl := Option.some.inj (htype.symm.trans htype')
      exact .fork hc htype hpos hpos₁' (hearlier.trans hearlier') ha hb' hn hl
    · exact .fork hc htype hpos hpos₁ hearlier ha hb hn
        ((hF.eq_child hcK hpos₁ hb hm hx hxc hcm').trans hlow)
  · rcases hcc.cases_head with rfl | ⟨x, hx, hxc⟩
    · obtain rfl := hF.below_disjoint hcK hpos₁ hpos' hb ha' hm hm'
      obtain rfl := Option.some.inj (htype.symm.trans htype')
      exact .fork hc htype hpos hpos₁' (hearlier.trans hearlier') ha hb' hn hl
    · have hcn : t.Contains c n := .head ⟨pos, hpos, ha⟩ hn
      exact .fork hc' htype' hpos' hpos₁' hearlier' ha' hb'
        ((hF.eq_child hcK' hpos' ha' hm' hx hxc hcm).trans hcn) hl

theorem precedes_asymm (hF : t.Forest K) (h : t.Precedes n m) : ¬ t.Precedes m n :=
  fun h' => hF.not_precedes_self (hF.precedes_trans h h')

end Forest

/-! ## Tours leave first what comes first -/

section Tour

variable {hidden : List NodeType} {ns ms : List NodeId} {tour : List (Phase × NodeId)} {k : NodeKind}

/-- Two elements of a list, one after the other. -/
private theorem pair_sublist {α : Type} {xs : List α} {x y : α} {i j : Nat} (hi : xs[i]? = some x)
    (hj : xs[j]? = some y) (hlt : i < j) : [x, y].Sublist xs := by
  have hx : x ∈ xs.take j := List.mem_of_getElem? (by rw [List.getElem?_take_of_lt hlt, hi])
  have hy : y ∈ xs.drop j := by
    refine List.mem_of_getElem? (show (xs.drop j)[0]? = some y from ?_)
    rw [List.getElem?_drop, Nat.add_zero, hj]
  rw [← List.take_append_drop j xs]
  exact (List.singleton_sublist.mpr hx).append (List.singleton_sublist.mpr hy)

/-- What stands in an earlier position is an earlier child. -/
theorem sublist_children {a b : NodeId} {pos pos' : Position} (hk : t.kind? c = some k)
    (hpos : pos.parent? = some c) (hpos' : pos'.parent? = some c)
    (hearlier : pos.Earlier k.type pos') (ha : t.occupant? pos = some a)
    (hb : t.occupant? pos' = some b) : [a, b].Sublist k.children := by
  obtain ⟨f, child, hf, hin, hshape⟩ := mem_fields_of_occupant hpos hk ha
  obtain ⟨g, child', hg, hin', hshape'⟩ := mem_fields_of_occupant hpos' hk hb
  have hfield : pos.field? = some f := by
    rcases hshape with ⟨rfl, -⟩ | ⟨_, _, rfl, -, -⟩ <;> rfl
  have hfield' : pos'.field? = some g := by
    rcases hshape' with ⟨rfl, -⟩ | ⟨_, _, rfl, -, -⟩ <;> rfl
  cases hearlier with
  | @element owner f' i j hlt =>
    obtain ⟨ids, i', heq, rfl, hi⟩ := hshape.resolve_left (by rintro ⟨heq, -⟩; cases heq)
    obtain ⟨ids', j', heq', rfl, hj⟩ := hshape'.resolve_left (by rintro ⟨heq, -⟩; cases heq)
    injection heq with _ hff hii
    injection heq' with _ hgg hjj
    subst hff hii hgg hjj
    obtain rfl : ids' = ids := by
      have hf := (k.child?_eq_some_iff _ _).mpr hf
      have hg := (k.child?_eq_some_iff _ _).mpr hg
      exact Child.many.inj (Option.some.inj (hg.symm.trans hf))
    exact (pair_sublist hi hj hlt).trans (List.sublist_flatten_of_mem (List.mem_map_of_mem hf))
  | @field _ _ f' g' i j hf' hg' hi hj hlt =>
    obtain rfl := Option.some.inj (hfield.symm.trans hf')
    obtain rfl := Option.some.inj (hfield'.symm.trans hg')
    have hat : ∀ {f : Field} {child : Child} {i : Nat}, (f, child) ∈ k.fields →
        k.type.visitorFields.idxOf? f = some i → k.fields[i]? = some (f, child) := by
      intro f child i hmem hi
      obtain ⟨hlt, hat, -⟩ := List.idxOf?_eq_some_iff.mp hi
      have hname : (k.fields.map Prod.fst)[i]? = some f := by
        rw [k.map_fst_fields, List.getElem?_eq_getElem hlt, hat]
      rw [List.getElem?_map, Option.map_eq_some_iff] at hname
      obtain ⟨⟨f', child'⟩, he, rfl⟩ := hname
      have hchild := (k.child?_eq_some_iff _ _).mpr hmem
      have hchild' := (k.child?_eq_some_iff _ _).mpr (List.mem_of_getElem? he)
      rw [he, Option.some.inj (hchild.symm.trans hchild')]
    have hpair : [(f, child), (g, child')].Sublist k.fields :=
      pair_sublist (hat hf hi) (hat hg hj) hlt
    have hids : (child.ids ++ child'.ids).Sublist k.children := by
      simpa [NodeKind.children] using hpair.flatMap fun e => e.2.ids
    exact ((List.singleton_sublist.mpr hin).append (List.singleton_sublist.mpr hin')).trans hids

namespace Tours

/-- The tour of some of the nodes is a part of the tour of all. -/
theorem of_sublist (h : t.Tours hidden ns tour) (hsub : ms.Sublist ns) :
    ∃ part, t.Tours hidden ms part ∧ part.Sublist tour := by
  induction h generalizing ms with
  | nil =>
    obtain rfl := List.sublist_nil.mp hsub
    exact ⟨[], .nil, .refl []⟩
  | @pass n ns tour hn _ ih =>
    cases hsub with
    | cons _ hsub => exact ih hsub
    | cons_cons _ hsub =>
      obtain ⟨part, hpart, hin⟩ := ih hsub
      exact ⟨part, .pass hn hpart, hin⟩
  | @visit n k ns inner tour hk hn hinner _ _ ih =>
    cases hsub with
    | cons _ hsub =>
      obtain ⟨part, hpart, hin⟩ := ih hsub
      exact ⟨part, hpart, hin.trans ((List.sublist_cons_self _ _).trans
        (List.sublist_append_right _ _))⟩
    | cons_cons _ hsub =>
      obtain ⟨part, hpart, hin⟩ := ih hsub
      exact ⟨_, .visit hk hn hinner hpart, (List.Sublist.refl _).append (hin.cons_cons _)⟩

/-- The tour of the first node comes before that of the others. -/
theorem split_cons (h : t.Tours hidden (n :: ns) tour) :
    ∃ first rest, tour = first ++ rest ∧ t.Tours hidden [n] first ∧ t.Tours hidden ns rest := by
  cases h with
  | pass hn h => exact ⟨[], _, rfl, .pass hn .nil, h⟩
  | visit hk hn hinner h => exact ⟨_, _, by simp, .single hk hn hinner, h⟩

/-- The tour of a node that is seen, without the node itself. -/
theorem inner {d : Nat} (h : t.Tours hidden ns tour) (hs : t.Sees hidden ns c d)
    (hk : t.kind? c = some k) : ∃ part, t.Tours hidden k.children part ∧ part.Sublist tour := by
  -- The tour of one of the nodes side by side.
  have hone : ∀ {ns tour k c}, t.Tours hidden ns tour → c ∈ ns → t.Visible hidden c →
      t.kind? c = some k → ∃ part, t.Tours hidden k.children part ∧ part.Sublist tour := by
    intro ns tour k c h hc hv hk
    obtain ⟨part, hpart, hin⟩ := h.of_sublist (List.singleton_sublist.mpr hc)
    cases hpart with
    | pass hn => exact absurd hv hn
    | visit hk' _ hinner _ =>
      obtain rfl := Option.some.inj (hk.symm.trans hk')
      refine ⟨_, hinner, List.Sublist.trans ?_ hin⟩
      exact (List.sublist_cons_self _ _).trans (List.sublist_append_left _ _)
  induction hs generalizing k with
  | here hc hv => exact hone h hc hv hk
  | @child p n d _ hc hv ih =>
    obtain ⟨k', hk', hmem⟩ := (t.isChild_iff p n).mp hc
    obtain ⟨part, hpart, hin⟩ := ih hk'
    obtain ⟨part', hpart', hin'⟩ := hone hpart hmem hv hk
    exact ⟨part', hpart', hin'.trans hin⟩

end Tours

/-- What is seen through a node is seen from there, and from each child on the way. -/
theorem Sees.through {a : NodeId} {d : Nat} (hs : t.Sees hidden ns n d) (hF : t.Forest K)
    (hc : c ∈ K) (hroots : ∀ r ∈ ns, ∀ p ∈ K, ¬ t.IsChild p r) (hns : ∀ r ∈ ns, r ∈ K)
    (hca : t.IsChild c a) (han : t.Contains a n) :
    (∃ d, t.Sees hidden ns c d) ∧ ∃ d, t.Sees hidden [a] n d := by
  induction hs with
  | @here n hn hv =>
    rcases han.cases_tail with rfl | ⟨p, hap, hpn⟩
    · exact absurd hca (hroots _ hn c hc)
    · exact absurd hpn (hroots _ hn p (hF.closed_below (hF.closed_child hc hca) hap))
  | @child p n d hp hpn hv ih =>
    have hpK : p ∈ K := by
      obtain ⟨r, hr, hrp⟩ := hp.reaches
      exact hF.closed_below (hns r hr) hrp
    rcases han.cases_tail with rfl | ⟨q, haq, hqn⟩
    · obtain rfl := hF.parent_unique hc hpK hca hpn
      exact ⟨⟨_, hp⟩, 0, .here (List.mem_singleton_self _) hv⟩
    · obtain rfl := hF.parent_unique (hF.closed_below (hF.closed_child hc hca) haq) hpK hqn hpn
      obtain ⟨hc, e, he⟩ := ih haq
      exact ⟨hc, e + 1, he.child hqn hv⟩

/-- A tour of the tree leaves a node before it enters those that it precedes. -/
theorem IsProgram.leaves_first (ht : t.IsProgram) (h : t.Tours hidden t.root.toList tour)
    (hnm : t.Precedes n m) (hn : n ∈ t.seen hidden) (hm : m ∈ t.seen hidden) :
    [(Phase.exit, n), (Phase.enter, m)].Sublist tour := by
  obtain @⟨c, a, b, type, pos, pos', hc, htype, hpos, hpos', hearlier, ha, hb, hdown, hdown'⟩ := hnm
  obtain ⟨d, hn⟩ := hn
  obtain ⟨d', hm⟩ := hm
  have hF := ht.forest
  have hroots : ∀ r ∈ t.root.toList, ∀ p ∈ t.reachable, ¬ t.IsChild p r :=
    fun r hr p hp => hF.not_isChild_root hp (Option.mem_toList.mp hr)
  have hns : ∀ r ∈ t.root.toList, r ∈ t.reachable := fun r hr => .root (Option.mem_toList.mp hr)
  obtain ⟨⟨e, hce⟩, i, hni⟩ := hn.through hF hc hroots hns ⟨pos, hpos, ha⟩ hdown
  obtain ⟨-, j, hmj⟩ := hm.through hF hc hroots hns ⟨pos', hpos', hb⟩ hdown'
  -- The tour has that of the children of the fork in it, and that one those of both branches.
  obtain ⟨k, hk, rfl⟩ := kind_of_type? htype
  obtain ⟨inner, hinner, hin⟩ := h.inner hce hk
  obtain ⟨part, hpart, hin'⟩ := hinner.of_sublist (sublist_children hk hpos hpos' hearlier ha hb)
  refine List.Sublist.trans ?_ (hin'.trans hin)
  obtain ⟨first, second, rfl, hfirst, hsecond⟩ := hpart.split_cons
  have hleft : (Phase.exit, n) ∈ first := (hfirst.mem_iff .exit n).mpr ⟨i, hni⟩
  have hright : (Phase.enter, m) ∈ second := (hsecond.mem_iff .enter m).mpr ⟨j, hmj⟩
  exact (List.singleton_sublist.mpr hleft).append (List.singleton_sublist.mpr hright)

end Tour

end Tree

end Espalier
