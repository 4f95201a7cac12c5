import Espalier.Proofs.ListEdits
import Espalier.Proofs.Sharing

set_option autoImplicit false

/-! # The nodes of a tree in order

A depth-first walk lists the nodes of a tree, each before its children (`Tree.inOrder?`). Where an
edit puts other nodes in the place of one node in every list of children (`Tree.Substituted`), the
list of the whole tree changes in that place only (`Tree.Substituted.inOrder`): what stood at and
below the node makes way for the lists of the nodes that come in. -/

namespace Espalier

/-! ## Lists of nodes -/

theorem substitute_flatMap {α : Type} (n : NodeId) (new : List NodeId) (l : List α)
    (g : α → List NodeId) :
    substitute n new (l.flatMap g) = l.flatMap fun a => substitute n new (g a) := by
  simp only [substitute, List.flatMap_assoc]

/-- What is put in the place of itself stays. -/
theorem flatMap_of_forall_eq {l : List NodeId} {g : NodeId → List NodeId}
    (h : ∀ m ∈ l, g m = [m]) : l.flatMap g = l := by
  induction l with
  | nil => rfl
  | cons m l ih =>
    rw [List.flatMap_cons, h m (by simp), ih fun m' hm' => h m' (by simp [hm']),
      List.singleton_append]

namespace Tree

/-! ## Children by field -/

/-- The nodes in a field, whether it is a list or not. -/
def inField (t : Tree) (n : NodeId) (f : Field) : List NodeId :=
  (t.list? n f).getD (t.occupant? (.slot n f)).toList

section InField

variable {t : Tree} {K : Set NodeId} {n x : NodeId} {f : Field}

theorem inField_eq {c : Child} (h : t.field? n f = some c) : t.inField n f = c.ids := by
  cases c with
  | one | many => simp [inField, list?, occupant?, h, Child.list?, Child.node?, Child.ids]
  | opt id? => simp [inField, list?, occupant?, h, Child.list?, Child.node?, Child.ids]

/-- The children of a node are those of its fields, one field after the other. -/
theorem children?_eq {type : NodeType} (h : t.type? n = some type) :
    t.children? n = some (type.visitorFields.flatMap (t.inField n)) := by
  obtain ⟨k, hk, rfl⟩ := kind_of_type? h
  rw [children?_of_kind hk, NodeKind.children, ← k.map_fst_fields, List.flatMap_map]
  refine congrArg some (List.flatMap_congr fun e he => ?_)
  exact (inField_eq (by simp [field?, hk, (k.child?_eq_some_iff e.1 e.2).mpr he])).symm

/-- What is in a field stands at a position of the field. -/
theorem exists_position_of_inField (h : x ∈ t.inField n f) :
    ∃ pos : Position, pos.parent? = some n ∧ pos.field? = some f ∧ t.occupant? pos = some x := by
  unfold inField at h
  cases hl : t.list? n f with
  | none =>
    refine ⟨.slot n f, rfl, rfl, ?_⟩
    simpa [hl] using h
  | some ids =>
    obtain ⟨i, hi⟩ := List.mem_iff_getElem?.mp (show x ∈ ids by simpa [hl] using h)
    exact ⟨.item n f i, rfl, rfl, by simp [occupant?, hl, hi]⟩

end InField

/-! ## The walk -/

section Walk

variable {t t' : Tree} {d e : Nat} {n m : NodeId} {l : List NodeId}

theorem subtreeWithin_succ_iff : t.subtreeWithin (d + 1) n = some l ↔ ∃ ids ls,
    t.children? n = some ids ∧ ids.mapM (t.subtreeWithin d) = some ls ∧ l = n :: ls.flatten := by
  simp only [subtreeWithin, bind, Option.bind_eq_some_iff, Option.some.injEq]
  constructor
  · rintro ⟨ids, hids, ls, hls, rfl⟩
    exact ⟨ids, ls, hids, hls, rfl⟩
  · rintro ⟨ids, ls, hids, hls, rfl⟩
    exact ⟨ids, hids, ls, hls, rfl⟩

/-- Walks that end, one after the other. -/
theorem mapM_subtreeWithin_cons {id : NodeId} {ids : List NodeId} {ls : List (List NodeId)} :
    (id :: ids).mapM (t.subtreeWithin d) = some ls ↔ ∃ first rest,
      t.subtreeWithin d id = some first ∧ ids.mapM (t.subtreeWithin d) = some rest ∧
        ls = first :: rest := by
  simp only [List.mapM_cons, bind, pure, Option.bind_eq_some_iff, Option.some.injEq]
  constructor
  · rintro ⟨first, hfirst, rest, hrest, rfl⟩
    exact ⟨first, rest, hfirst, hrest, rfl⟩
  · rintro ⟨first, rest, hfirst, hrest, rfl⟩
    exact ⟨first, hfirst, rest, hrest, rfl⟩

/-- What can be listed is of bounded depth. -/
theorem depthWithin_of_subtreeWithin (h : t.subtreeWithin d n = some l) : t.DepthWithin d n := by
  induction d generalizing n l with
  | zero => cases h
  | succ d ih =>
    obtain ⟨ids, ls, hids, hls, -⟩ := subtreeWithin_succ_iff.mp h
    obtain ⟨k, hk, rfl⟩ := Option.map_eq_some_iff.mp hids
    refine ⟨k, hk, fun c hc => ?_⟩
    generalize k.children = ids at hls hc
    induction ids generalizing ls with
    | nil => simp at hc
    | cons id ids ihids =>
      obtain ⟨first, rest, hfirst, hrest, -⟩ := mapM_subtreeWithin_cons.mp hls
      rcases List.mem_cons.mp hc with rfl | hc
      · exact ih hfirst
      · exact ihids rest hrest hc

/-- The walk lists what is at and below the node. -/
theorem mem_subtreeWithin (h : t.subtreeWithin d n = some l) :
    m ∈ l ↔ Relation.ReflTransGen t.IsChild n m := by
  obtain ⟨l', hl', hmem⟩ := (depthWithin_of_subtreeWithin h).subtreeWithin
  obtain rfl := Option.some.inj (h.symm.trans hl')
  exact hmem m

/-- Walks that end list what is at and below the nodes they start from. -/
theorem mem_flatten_of_mapM {ids : List NodeId} {ls : List (List NodeId)}
    (h : ids.mapM (t.subtreeWithin d) = some ls) :
    m ∈ ls.flatten ↔ ∃ c ∈ ids, Relation.ReflTransGen t.IsChild c m := by
  induction ids generalizing ls with
  | nil =>
    obtain rfl : ls = [] := by simpa using h.symm
    simp
  | cons id ids ih =>
    obtain ⟨first, rest, hfirst, hrest, rfl⟩ := mapM_subtreeWithin_cons.mp h
    simp [mem_subtreeWithin hfirst, ← ih hrest]

/-- A walk that ends gives the same when it may go deeper. -/
theorem subtreeWithin_mono (h : t.subtreeWithin d n = some l) (hde : d ≤ e) :
    t.subtreeWithin e n = some l := by
  induction d generalizing e n l with
  | zero => cases h
  | succ d ih =>
    obtain ⟨e, rfl⟩ : ∃ i, e = i + 1 := ⟨e - 1, by omega⟩
    obtain ⟨ids, ls, hids, hls, rfl⟩ := subtreeWithin_succ_iff.mp h
    refine subtreeWithin_succ_iff.mpr ⟨ids, ls, hids, ?_, rfl⟩
    clear h hids
    induction ids generalizing ls with
    | nil => exact hls
    | cons id ids ihids =>
      obtain ⟨first, rest, hfirst, hrest, rfl⟩ := mapM_subtreeWithin_cons.mp hls
      exact mapM_subtreeWithin_cons.mpr
        ⟨first, rest, ih hfirst (by omega), ihids rest hrest, rfl⟩

/-- Below a node that no edit has touched the walk gives what it gave. -/
theorem subtreeWithin_of_unchanged
    (h : ∀ m, Relation.ReflTransGen t.IsChild n m → t'.children? m = t.children? m)
    (hl : t.subtreeWithin d n = some l) : t'.subtreeWithin d n = some l := by
  induction d generalizing n l with
  | zero => cases hl
  | succ d ih =>
    obtain ⟨ids, ls, hids, hls, rfl⟩ := subtreeWithin_succ_iff.mp hl
    refine subtreeWithin_succ_iff.mpr ⟨ids, ls, (h n .refl).trans hids, ?_, rfl⟩
    have hchild : ∀ c ∈ ids, t.IsChild n c := by
      intro c hc
      obtain ⟨k, hk, rfl⟩ := Option.map_eq_some_iff.mp hids
      exact (t.isChild_iff n c).mpr ⟨k, hk, hc⟩
    clear hl hids
    induction ids generalizing ls with
    | nil => exact hls
    | cons id ids ihids =>
      obtain ⟨first, rest, hfirst, hrest, rfl⟩ := mapM_subtreeWithin_cons.mp hls
      refine mapM_subtreeWithin_cons.mpr ⟨first, rest, ih (fun m hm => ?_) hfirst, ?_, rfl⟩
      · exact h m (.head (hchild id (by simp)) hm)
      · exact ihids rest hrest fun c hc => hchild c (by simp [hc])

end Walk

/-! ## One node in the place of others -/

/-- The second tree has other nodes in the place of `x`, as far as it can be seen from the nodes of
a set. -/
structure Substituted (t : Tree) (K : Set NodeId) (x : NodeId) (new : List NodeId) (t' : Tree) :
    Prop where
  size : t.size ≤ t'.size
  root : t'.root = t.root
  children : ∀ n ∈ K, t'.children? n = (t.children? n).map (substitute x new)

section Substituted

variable {t t' : Tree} {K : Set NodeId} {x : NodeId} {new : List NodeId}

/-- It is enough to look at the field of `x`: no other field contains it. -/
theorem Substituted.of_field (hF : t.Forest K) (pos : Position) (hw : pos.Within K)
    (hx : t.occupant? pos = some x) (hsize : t.size ≤ t'.size) (hroot : t'.root = t.root)
    (htype : ∀ n ∈ K, t'.type? n = t.type? n)
    (hhere : ∀ n f, pos.parent? = some n → pos.field? = some f →
      t'.inField n f = substitute x new (t.inField n f))
    (hother : ∀ n ∈ K, ∀ f, ¬ (pos.parent? = some n ∧ pos.field? = some f) →
      t'.inField n f = t.inField n f) : t.Substituted K x new t' := by
  refine ⟨hsize, hroot, fun n hn => ?_⟩
  obtain ⟨k, hk⟩ := hF.kind n hn
  have ht := type?_of_kind hk
  rw [children?_eq ht, children?_eq ((htype n hn).trans ht), Option.map_some, substitute_flatMap]
  refine congrArg some (List.flatMap_congr fun f _ => ?_)
  by_cases hpos : pos.parent? = some n ∧ pos.field? = some f
  · exact hhere n f hpos.1 hpos.2
  · rw [hother n hn f hpos, substitute_of_not_mem]
    intro hmem
    obtain ⟨pos', hp, hf, hocc⟩ := exists_position_of_inField hmem
    obtain rfl := hF.single pos' pos x (Position.within_of_parent hp hn) hw hocc hx
    exact hpos ⟨hp, hf⟩

/-- A list that is not the one of the position stays as it is. -/
theorem Replanted.list?_of_ne {pos : Position} {y n : NodeId} {f : Field}
    (h : t.Replanted pos y t') (hpos : ∀ i, pos ≠ .item n f i) : t'.list? n f = t.list? n f := by
  have hlength := h.lists n f
  have hocc : ∀ i, t'.occupant? (.item n f i) = t.occupant? (.item n f i) :=
    fun i => h.other _ (hpos i).symm
  cases hl : t.list? n f with
  | none => simpa [hl] using hlength
  | some ids =>
    rw [hl, Option.map_some] at hlength
    obtain ⟨ids', hids', -⟩ := Option.map_eq_some_iff.mp hlength
    rw [hids']
    refine congrArg some (List.ext_getElem? fun i => ?_)
    simpa [occupant?, hl, hids'] using hocc i

/-- Another node at one position. -/
theorem Replanted.substituted {pos : Position} {y : NodeId} (h : t.Replanted pos y t')
    (hF : t.Forest K) (hw : pos.Within K) (hx : t.occupant? pos = some x)
    (hpos : pos ≠ .root) : t.Substituted K x [y] t' := by
  refine .of_field hF pos hw hx h.size.symm.le (h.other .root hpos.symm) (fun n _ => ?_)
    (fun n f hp hf => ?_) fun n _ f hne => ?_
  · rw [← map_type_kind?, h.type, map_type_kind?]
  · cases pos with
    | root => cases hp
    | slot m g =>
      obtain rfl := Option.some.inj hp
      obtain rfl := Option.some.inj hf
      have hlist : t.list? m g = none := by
        obtain ⟨c, hc, hnode⟩ := Option.bind_eq_some_iff.mp hx
        rw [list?, hc]
        cases c <;> simp_all [Child.node?, Child.list?]
      have hlist' := h.list?_of_ne (n := m) (f := g) fun i => by simp
      rw [inField, inField, hlist', hlist, h.here, hx]
      simp [substitute]
    | item m g i =>
      obtain rfl := Option.some.inj hp
      obtain rfl := Option.some.inj hf
      obtain ⟨ids, hids, hi⟩ := Option.bind_eq_some_iff.mp hx
      rw [inField, inField, hids, h.list?_set hids, Option.getD_some, Option.getD_some,
        substitute_eq (hF.nodup_list (hw m rfl) hids) hi, List.set_eq_take_append_cons_drop,
        if_pos (List.getElem?_eq_some_iff.mp hi).1]
      simp
  · have hslot : t'.occupant? (.slot n f) = t.occupant? (.slot n f) := by
      refine h.other _ fun heq => hne ?_
      rw [← heq]
      exact ⟨rfl, rfl⟩
    have hlist := h.list?_of_ne (n := n) (f := f) fun i heq => hne (by rw [heq]; exact ⟨rfl, rfl⟩)
    rw [inField, inField, hlist, hslot]

/-- Other nodes in the place of an element of a list. -/
theorem Relisted.substituted {owner : NodeId} {f : Field} {ids : List NodeId}
    (h : t.Relisted owner f ids (substitute x new ids) t') (hF : t.Forest K) (howner : owner ∈ K)
    (hx : x ∈ ids) : t.Substituted K x new t' := by
  obtain ⟨i, hi⟩ := List.mem_iff_getElem?.mp hx
  refine .of_field hF (.item owner f i) (Position.within_of_parent rfl howner)
    (by simp [Tree.occupant?, h.list?, hi]) h.size.symm.le h.root (fun n _ => ?_)
    (fun n g hp hg => ?_) fun n _ g hne => ?_
  · rw [← map_type_kind?, h.type?, map_type_kind?]
  · obtain rfl := Option.some.inj hp
    obtain rfl := Option.some.inj hg
    rw [inField, inField, h.list?, h.list?', Option.getD_some, Option.getD_some]
  · have hlist := h.list?_of_ne (p := n) (g := g) fun hng => hne (by
      rw [hng.1, hng.2]
      exact ⟨rfl, rfl⟩)
    rw [inField, inField, hlist, h.occupant? (by simp [Position.container])]

end Substituted

end Tree

/-- An optional field is emptied. -/
theorem NodeKind.child?_clearNode (k : NodeKind) (f g : Field) :
    (k.clearNode f).child? g = (k.child? g).map ((dropNode f).apply g) := by
  rw [clearNode, child?_mapFields]

namespace Tree

/-- The tree without the node in an optional field. -/
theorem substituted_clearNode {t : Tree} {K : Set NodeId} (hF : t.Forest K) {owner x : NodeId}
    {f : Field} {k : NodeKind} (howner : owner ∈ K) (hk : t.kind? owner = some k)
    (hc : k.child? f = some (.opt (some x))) : t.Substituted K x []
      (t.modify owner fun node => { node with kind := node.kind.clearNode f }) := by
  have hkind : ∀ n, (t.modify owner fun node =>
      { node with kind := node.kind.clearNode f }).kind? n =
      if n = owner then (t.kind? n).map fun k => k.clearNode f else t.kind? n := by
    intro n
    simp only [kind?, node?_modify]
    by_cases hn : n = owner
    · simp only [hn, if_true, Option.map_map]
      rfl
    · simp only [hn, if_false]
  have hfield : t.field? owner f = some (.opt (some x)) := by simp [field?, hk, hc]
  refine .of_field hF (.slot owner f) (Position.within_of_parent rfl howner)
    (by simp [occupant?, hfield, Child.node?]) (size_modify _ _ _).symm.le rfl (fun n _ => ?_)
    (fun n g hp hg => ?_) fun n _ g hne => ?_
  · rw [← map_type_kind?, hkind, ← map_type_kind?]
    split
    · rw [Option.map_map]
      exact congrArg (fun h => Option.map h (t.kind? n)) (funext fun k => k.type_mapFields _)
    · rfl
  · obtain rfl := Option.some.inj hp
    obtain rfl := Option.some.inj hg
    rw [inField_eq hfield, inField_eq (c := .opt none)]
    · simp [Child.ids, substitute]
    · rw [field?, hkind, if_pos rfl, hk, Option.map_some, Option.bind_some,
        NodeKind.child?_clearNode, hc]
      simp [FieldMap.apply, NodeKind.dropNode]
  · have hsame : (t.modify owner fun node =>
        { node with kind := node.kind.clearNode f }).field? n g = t.field? n g := by
      rw [field?, field?, hkind]
      by_cases hn : n = owner
      · have hg : g ≠ f := fun hg => hne ⟨by rw [hn]; rfl, by rw [hg]; rfl⟩
        rw [if_pos hn, hn, hk, Option.map_some, Option.bind_some, Option.bind_some,
          NodeKind.child?_clearNode]
        cases k.child? g with
        | none => rfl
        | some c => cases c <;> simp [FieldMap.apply, NodeKind.dropNode, hg]
      · rw [if_neg hn]
    rw [inField, inField, list?, list?, occupant?, occupant?, hsame]

/-! ## The list of the whole tree -/

/-- The nodes of the tree, each before its children. -/
def inOrder? (t : Tree) : Option (List NodeId) := t.root.bind t.subtree?

/-- What is below the root can be reached, and nothing else. -/
theorem reachable_iff_below {t : Tree} {r m : NodeId} (hr : t.root = some r) :
    t.Reachable m ↔ Relation.ReflTransGen t.IsChild r m := by
  constructor
  · intro h
    induction h with
    | root hr' => rw [Option.some.inj (hr.symm.trans hr')]
    | child _ hc ih => exact ih.tail hc
  · intro h
    induction h with
    | refl => exact .root hr
    | tail _ hc ih => exact .child ih hc

/-- The list has the nodes that can be reached. -/
theorem mem_inOrder {t : Tree} {l : List NodeId} (h : t.inOrder? = some l) (m : NodeId) :
    m ∈ l ↔ t.Reachable m := by
  obtain ⟨r, hr, hl⟩ := Option.bind_eq_some_iff.mp h
  rw [mem_subtreeWithin hl, reachable_iff_below hr]

/-- What is below a node of a forest can be listed. -/
theorem Forest.exists_subtree {t : Tree} {K : Set NodeId} (hF : t.Forest K) {n : NodeId}
    (hn : n ∈ K) : ∃ l, t.subtree? n = some l := by
  obtain ⟨l, hl, -⟩ := ((hF.depthWithin hn).mono
    (show t.size ≤ t.depthBound by unfold depthBound; omega)).subtreeWithin
  exact ⟨l, hl⟩

namespace Substituted

variable {t t' : Tree} {K S : Set NodeId} {x : NodeId} {new : List NodeId}
  {g : NodeId → List NodeId}

/-- The lists change in the place of `x` only. -/
private theorem subtreeWithin (h : t.Substituted K x new t') (hSK : S ⊆ K)
    (hclosed : ∀ m ∈ S, m ≠ x → ∀ c, t.IsChild m c → c ∈ S) (hg : ∀ m ∈ S, m ≠ x → g m = [m])
    (hx : ∀ d l, t.subtreeWithin d x = some l →
      ∃ ls, new.mapM (t'.subtreeWithin d) = some ls ∧ ls.flatten = l.flatMap g)
    {d : Nat} {n : NodeId} {l : List NodeId} (hn : n ∈ S) (hne : n ≠ x)
    (hl : t.subtreeWithin d n = some l) : t'.subtreeWithin d n = some (l.flatMap g) := by
  induction d generalizing n l with
  | zero => cases hl
  | succ d ih =>
    obtain ⟨ids, ls, hids, hls, rfl⟩ := subtreeWithin_succ_iff.mp hl
    have hchild : ∀ c ∈ ids, c ∈ S := by
      intro c hc
      obtain ⟨k, hk, rfl⟩ := Option.map_eq_some_iff.mp hids
      exact hclosed n hn hne c ((t.isChild_iff n c).mpr ⟨k, hk, hc⟩)
    have hlists : ∃ ls', (substitute x new ids).mapM (t'.subtreeWithin d) = some ls' ∧
        ls'.flatten = ls.flatten.flatMap g := by
      clear hl hids
      induction ids generalizing ls with
      | nil =>
        obtain rfl : ls = [] := by simpa using hls.symm
        exact ⟨[], rfl, rfl⟩
      | cons id ids ihids =>
        obtain ⟨first, rest, hfirst, hrest, rfl⟩ := mapM_subtreeWithin_cons.mp hls
        obtain ⟨rest', hrest', hflat⟩ := ihids rest hrest fun c hc => hchild c (by simp [hc])
        obtain ⟨first', hfirst', hflat'⟩ : ∃ ls', (if id = x then new else [id]).mapM
            (t'.subtreeWithin d) = some ls' ∧ ls'.flatten = first.flatMap g := by
          by_cases hid : id = x
          · rw [if_pos hid]
            exact hx d first (hid ▸ hfirst)
          · rw [if_neg hid]
            exact ⟨[first.flatMap g], by
              rw [mapM_subtreeWithin_cons]
              exact ⟨_, [], ih (hchild id (by simp)) hid hfirst, rfl, rfl⟩, by simp⟩
        refine ⟨first' ++ rest', ?_, by simp [hflat, hflat']⟩
        show ((if id = x then new else [id]) ++ substitute x new ids).mapM _ = _
        rw [List.mapM_append, hfirst', hrest']
        rfl
    obtain ⟨ls', hls', hflat⟩ := hlists
    refine subtreeWithin_succ_iff.mpr ⟨_, ls', by rw [h.children n (hSK hn), hids]; rfl, hls', ?_⟩
    rw [List.flatMap_cons, hg n hn hne, hflat, List.singleton_append]

/-- In the list of the whole tree, the nodes below `x` make way for the lists of the nodes that came
in. -/
theorem inOrder (h : t.Substituted K x new t') (hF : t.Forest K) (hxK : x ∈ K)
    (hroot : t.root ≠ some x) {l : List NodeId} (hl : t.inOrder? = some l)
    (hg : ∀ m, t.Reachable m → ¬ Relation.ReflTransGen t.IsChild x m → g m = [m])
    (hx : ∀ d l, t.subtreeWithin d x = some l →
      ∃ ls, new.mapM (t'.subtreeWithin d) = some ls ∧ ls.flatten = l.flatMap g) :
    t'.inOrder? = some (l.flatMap g) := by
  obtain ⟨r, hr, hl⟩ := Option.bind_eq_some_iff.mp hl
  have hrx : r ≠ x := fun heq => hroot (heq ▸ hr)
  -- The nodes that the walk meets before it comes to `x`, and `x` itself.
  let S : Set NodeId := {m | t.Reachable m ∧ ¬ Relation.TransGen t.IsChild x m}
  have hSK : S ⊆ K := fun m hm => hF.mem_of_reachable hm.1
  have hfirst : ∀ {m}, ¬ Relation.TransGen t.IsChild x m → m ≠ x →
      ¬ Relation.ReflTransGen t.IsChild x m := by
    intro m hm hne hb
    rcases Relation.reflTransGen_iff_eq_or_transGen.mp hb with heq | hb
    · exact hne heq
    · exact hm hb
  have hwalk := h.subtreeWithin (S := S) (g := g) hSK (fun m hm hne c hc => ?_)
    (fun m hm hne => hg m hm.1 (hfirst hm.2 hne)) hx (n := r) ⟨.root hr, fun hb => ?_⟩ hrx hl
  · rw [inOrder?, h.root, hr]
    exact subtreeWithin_mono hwalk (by have := h.size; unfold depthBound; omega)
  · refine ⟨.child hm.1 hc, fun hb => ?_⟩
    obtain ⟨q, hq, hqc⟩ := Relation.TransGen.tail'_iff.mp hb
    obtain rfl := hF.parent_unique (hF.closed_below hxK hq) (hSK hm) hqc hc
    exact hfirst hm.2 hne hq
  · -- The root stands in no field.
    obtain ⟨q, hq, pos, hpos, hocc⟩ := Relation.TransGen.tail'_iff.mp hb
    obtain rfl := hF.single pos .root r
      (Position.within_of_parent hpos (hF.closed_below hxK hq)) (Position.within_root K) hocc hr
    cases hpos

end Substituted

/-! ## What goes with a node -/

/-- The position of a node without which its owner makes no sense. -/
inductive Hinges (t : Tree) : Position → Prop
  | test {owner : NodeId} {type : NodeType} : t.type? owner = some type → type.isWhile = true →
      Hinges t (.slot owner .test)
  | declaration {owner : NodeId} {type : NodeType} : t.type? owner = some type →
      type.isExportDeclaration = true → Hinges t (.slot owner .declaration)
  | labeled {owner : NodeId} : t.type? owner = some .labeledStatement →
      Hinges t (.slot owner .body)
  | expression {owner : NodeId} : t.type? owner = some .expressionStatement →
      Hinges t (.slot owner .expression)
  | declarator {owner only : NodeId} : t.type? owner = some .variableDeclaration →
      t.list? owner .declarations = some [only] → Hinges t (.item owner .declarations 0)

/-- To take the first node out of the tree is to take out the last one, which stands at the
position: a node goes alone unless its owner hinges on it. -/
inductive Uproots (t : Tree) : NodeId → Position → NodeId → Prop
  | alone {n : NodeId} {pos : Position} : pos.Within t.reachable → t.occupant? pos = some n →
      ¬ t.Hinges pos → Uproots t n pos n
  | withOwner {n m r : NodeId} {pos pos' : Position} : pos.Within t.reachable →
      t.occupant? pos = some n → t.Hinges pos → pos.parent? = some m → Uproots t m pos' r →
      Uproots t n pos' r

/-- The position is that of an operand of the operator, and the last node is the other one. -/
inductive Opposes (t : Tree) : Position → NodeId → NodeId → Prop
  | left {operator other : NodeId} {type : NodeType} : t.type? operator = some type →
      type.isBinary = true → t.occupant? (.slot operator .right) = some other →
      Opposes t (.slot operator .left) operator other
  | right {operator other : NodeId} {type : NodeType} : t.type? operator = some type →
      type.isBinary = true → t.occupant? (.slot operator .left) = some other →
      Opposes t (.slot operator .right) operator other
  | first {operator one other : NodeId} : t.type? operator = some .sequenceExpression →
      t.list? operator .expressions = some [one, other] →
      Opposes t (.item operator .expressions 0) operator other
  | second {operator one other : NodeId} : t.type? operator = some .sequenceExpression →
      t.list? operator .expressions = some [other, one] →
      Opposes t (.item operator .expressions 1) operator other

/-- A position where an empty block may stand instead. -/
inductive TakesBlock (t : Tree) : Position → Prop
  | consequent {owner : NodeId} : t.type? owner = some .ifStatement →
      TakesBlock t (.slot owner .consequent)
  | loop {owner : NodeId} {type : NodeType} : t.type? owner = some type → type.isLoop = true →
      TakesBlock t (.slot owner .body)
  | arrow {owner : NodeId} : t.type? owner = some .arrowFunctionExpression →
      TakesBlock t (.slot owner .body)

/-- The tree `t` has the nodes of the list `l` in order; in `t'` the node `r`, which stood at the
position, is taken out with everything that was `below` it. The other operand takes the place of an
operator, a new empty block that of a body that has to be there, and otherwise nothing takes the
place of the node. -/
inductive Cut (t : Tree) (pos : Position) (r : NodeId) (l below : List NodeId) (t' : Tree) : Prop
  | gap : (∀ operator other, ¬ t.Opposes pos operator other) → ¬ t.TakesBlock pos →
      t'.inOrder? = some (l.filter fun m => decide (m ∉ below)) → Cut t pos r l below t'
  | operand {operator other : NodeId} {place : Position} : t.Opposes pos operator other →
      t.occupant? place = some operator → t'.occupant? place = some other →
      t'.inOrder? = some (l.filter fun m => decide (m ∉ below ∧ m ≠ operator)) →
      Cut t pos r l below t'
  | block {b : NodeId} : t.TakesBlock pos → t.contains b = false →
      t'.kind? b = some (.blockStatement []) → t'.occupant? pos = some b →
      t'.inOrder? = some (l.flatMap fun m =>
        if m = r then [b] else if m ∈ below then [] else [m]) → Cut t pos r l below t'

theorem flatMap_eq_filter (l : List NodeId) (test : NodeId → Bool) :
    (l.flatMap fun m => if test m then [m] else []) = l.filter test := by
  induction l with
  | nil => rfl
  | cons m l ih => cases h : test m <;> simp [h, ih]

section Cut

variable {t t₁ t' : Tree} {K : Set NodeId} {pos : Position} {r x : NodeId}
  {l below new : List NodeId}

/-- New nodes do not count. -/
theorem Substituted.of_grown (h : t₁.Substituted K x new t') (hg : t.Grown t₁)
    (hF : t.Forest K) : t.Substituted K x new t' where
  size := Nat.le_trans hg.size h.size
  root := h.root.trans hg.root
  children n hn := by
    obtain ⟨k, hk⟩ := hF.kind n hn
    rw [h.children n hn, children?_of_kind (hg.kind hk), children?_of_kind hk]

/-- Nothing takes the place of the node. -/
theorem Substituted.inOrder_gap (h : t.Substituted K r [] t') (hF : t.Forest K) (hr : r ∈ K)
    (hroot : t.root ≠ some r) (hl : t.inOrder? = some l) (hbelow : t.subtree? r = some below) :
    t'.inOrder? = some (l.filter fun m => decide (m ∉ below)) := by
  rw [← flatMap_eq_filter]
  refine h.inOrder hF hr hroot hl (fun m _ hm => ?_) fun d lr hlr => ⟨[], rfl, ?_⟩
  · rw [if_pos]
    exact decide_eq_true fun hmem => hm ((mem_subtreeWithin hbelow).mp hmem)
  · refine (List.flatMap_eq_nil_iff.mpr fun m hm => if_neg ?_).symm
    rw [decide_eq_true_eq, not_not]
    exact (mem_subtreeWithin hbelow).mpr ((mem_subtreeWithin hlr).mp hm)

/-- A node without children takes the place of the node. -/
theorem Substituted.inOrder_leaf {b : NodeId} (h : t.Substituted K r [b] t') (hF : t.Forest K)
    (hr : r ∈ K) (hroot : t.root ≠ some r) (hb : t'.children? b = some [])
    (hl : t.inOrder? = some l) (hbelow : t.subtree? r = some below) :
    t'.inOrder? = some (l.flatMap fun m =>
      if m = r then [b] else if m ∈ below then [] else [m]) := by
  refine h.inOrder hF hr hroot hl (fun m _ hm => ?_) fun d lr hlr => ?_
  · have hne : m ≠ r := by
      rintro rfl
      exact hm .refl
    rw [if_neg hne, if_neg fun hmem => hm ((mem_subtreeWithin hbelow).mp hmem)]
  · cases d with
    | zero => cases hlr
    | succ d =>
      have hleaf : t'.subtreeWithin (d + 1) b = some [b] :=
        subtreeWithin_succ_iff.mpr ⟨[], [], hb, rfl, rfl⟩
      refine ⟨[[b]], mapM_subtreeWithin_cons.mpr ⟨[b], [], hleaf, rfl, rfl⟩, ?_⟩
      obtain ⟨ids, ls, hids, hls, rfl⟩ := subtreeWithin_succ_iff.mp hlr
      obtain ⟨k, hk, rfl⟩ := Option.map_eq_some_iff.mp hids
      -- The node itself stands nowhere below its children.
      have hrest : ∀ m ∈ ls.flatten, m ≠ r ∧ m ∈ below := by
        intro m hm
        obtain ⟨c, hc, hcm⟩ := (mem_flatten_of_mapM hls).mp hm
        have hb : Relation.TransGen t.IsChild r m :=
          .head' ((t.isChild_iff r c).mpr ⟨k, hk, hc⟩) hcm
        refine ⟨?_, (mem_subtreeWithin hbelow).mpr hb.to_reflTransGen⟩
        rintro rfl
        exact hF.acyclic m hr hb
      have hnil : (ls.flatten.flatMap fun m =>
          if m = r then [b] else if m ∈ below then [] else [m]) = [] := by
        refine List.flatMap_eq_nil_iff.mpr fun m hm => ?_
        obtain ⟨hne, hmem⟩ := hrest m hm
        rw [if_neg hne, if_pos hmem]
      rw [List.flatMap_cons, if_pos rfl, hnil]
      rfl

/-- One of the two children of a node takes its place. -/
theorem Substituted.inOrder_operand {operator other : NodeId} {ids : List NodeId}
    (h : t.Substituted K operator [other] t') (hF : t.Forest K) (ho : operator ∈ K)
    (hroot : t.root ≠ some operator) (hids : t.children? operator = some ids)
    (hpair : ids = [r, other] ∨ ids = [other, r])
    (hapart : ∀ m, Relation.ReflTransGen t.IsChild r m → ¬ Relation.ReflTransGen t.IsChild other m)
    (hl : t.inOrder? = some l) (hbelow : t.subtree? r = some below) :
    t'.inOrder? = some (l.filter fun m => decide (m ∉ below ∧ m ≠ operator)) := by
  have hchild : ∀ c ∈ ids, t.IsChild operator c := by
    intro c hc
    obtain ⟨k, hk, rfl⟩ := Option.map_eq_some_iff.mp hids
    exact (t.isChild_iff operator c).mpr ⟨k, hk, hc⟩
  have hr : t.IsChild operator r := hchild r (by rcases hpair with rfl | rfl <;> simp)
  have hother : t.IsChild operator other := hchild other (by rcases hpair with rfl | rfl <;> simp)
  have hmem := fun m => mem_subtreeWithin hbelow (m := m)
  -- Below the other operand nothing changes.
  have hsame : ∀ m, Relation.ReflTransGen t.IsChild other m → t'.children? m = t.children? m := by
    intro m hm
    have hb := Relation.TransGen.head' hother hm
    obtain ⟨k, hk⟩ := hF.kind m (hF.closed_below ho hb.to_reflTransGen)
    rw [h.children m (hF.closed_below ho hb.to_reflTransGen), children?_of_kind hk, Option.map_some,
      substitute_of_not_mem]
    exact fun hc => hF.acyclic operator ho (hb.tail ((t.isChild_iff m operator).mpr ⟨k, hk, hc⟩))
  rw [← flatMap_eq_filter]
  refine h.inOrder hF ho hroot hl (fun m _ hm => ?_) fun d lo hlo => ?_
  · refine if_pos (decide_eq_true ⟨fun hb => hm (.head hr ((hmem m).mp hb)), ?_⟩)
    rintro rfl
    exact hm .refl
  · cases d with
    | zero => cases hlo
    | succ d =>
      obtain ⟨ids', ls, hids', hls, rfl⟩ := subtreeWithin_succ_iff.mp hlo
      obtain rfl := Option.some.inj (hids.symm.trans hids')
      have hgone : ∀ lr, t.subtreeWithin d r = some lr → (lr.flatMap fun m =>
          if decide (m ∉ below ∧ m ≠ operator) = true then [m] else []) = [] := by
        intro lr hlr
        refine List.flatMap_eq_nil_iff.mpr fun m hm => if_neg ?_
        rw [decide_eq_true_eq]
        exact fun hkept => hkept.1 ((hmem m).mpr ((mem_subtreeWithin hlr).mp hm))
      have hkept : ∀ lx, t.subtreeWithin d other = some lx → (lx.flatMap fun m =>
          if decide (m ∉ below ∧ m ≠ operator) = true then [m] else []) = lx := by
        intro lx hlx
        refine flatMap_of_forall_eq fun m hm => if_pos (decide_eq_true ⟨fun hb => ?_, ?_⟩)
        · exact hapart m ((hmem m).mp hb) ((mem_subtreeWithin hlx).mp hm)
        · rintro rfl
          exact hF.acyclic m ho (.head' hother ((mem_subtreeWithin hlx).mp hm))
      have hop : (if decide (operator ∉ below ∧ operator ≠ operator) = true then [operator]
          else []) = [] := if_neg (by simp)
      have hwalk : ∀ lx, t.subtreeWithin d other = some lx →
          [other].mapM (t'.subtreeWithin (d + 1)) = some [lx] := fun lx hlx =>
        mapM_subtreeWithin_cons.mpr ⟨lx, [], subtreeWithin_mono
          (subtreeWithin_of_unchanged hsame hlx) (Nat.le_succ d), rfl, rfl⟩
      rw [List.flatMap_cons, hop, List.nil_append]
      rcases hpair with rfl | rfl
      · obtain ⟨lr, rest, hlr, hrest, rfl⟩ := mapM_subtreeWithin_cons.mp hls
        obtain ⟨lx, rest', hlx, hnil, rfl⟩ := mapM_subtreeWithin_cons.mp hrest
        obtain rfl : rest' = [] := (Option.some.inj hnil).symm
        refine ⟨[lx], hwalk lx hlx, ?_⟩
        simp only [List.flatten_cons, List.flatten_nil, List.append_nil, List.flatMap_append,
          hgone lr hlr, hkept lx hlx, List.nil_append]
      · obtain ⟨lx, rest, hlx, hrest, rfl⟩ := mapM_subtreeWithin_cons.mp hls
        obtain ⟨lr, rest', hlr, hnil, rfl⟩ := mapM_subtreeWithin_cons.mp hrest
        obtain rfl : rest' = [] := (Option.some.inj hnil).symm
        refine ⟨[lx], hwalk lx hlx, ?_⟩
        simp only [List.flatten_cons, List.flatten_nil, List.append_nil, List.flatMap_append,
          hgone lr hlr, hkept lx hlx]

end Cut

end Tree

end Espalier
