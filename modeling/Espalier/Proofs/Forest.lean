import Espalier.Session.Basic
import Mathlib.Data.List.Chain
import Mathlib.Data.List.Nodup
import Mathlib.Data.List.Perm.Subperm
import Mathlib.Data.Set.Basic
import Mathlib.Logic.Relation

set_option autoImplicit false

/-! # Positions and forests

A `Position` is a place in a tree where a node can stand: the root, a single-node field, or an
element of a list. A set of nodes is a `Tree.Forest` when what stands below it is in it again and
no node stands at two of its positions. The nodes that can be reached from the root of a program
tree form a forest (`Tree.IsProgram.forest`), and no chain of children in a forest is
longer than the arena (`Tree.Forest.depthWithin`). -/

namespace Espalier

/-- A place in a tree where a node can stand. -/
inductive Position where
  | root
  | slot (parent : NodeId) (f : Field)
  | item (parent : NodeId) (f : Field) (i : Nat)
deriving DecidableEq

namespace Position

/-- The container of a position. -/
def container : Position → Container
  | .root => .root
  | .slot parent _ => .slot parent
  | .item parent f _ => .list parent f

/-- The key of a position in its container. -/
def key : Position → Key
  | .root => .root
  | .slot _ f => .field f
  | .item _ _ i => .index i

/-- The node whose field the position is in. -/
def parent? (pos : Position) : Option NodeId := pos.container.parent?

/-- The field the position is in. -/
def field? : Position → Option Field
  | .root => none
  | .slot _ f | .item _ f _ => some f

/-- Does the position belong to a node of the set, or is it the root? -/
def Within (pos : Position) (K : Set NodeId) : Prop := ∀ p, pos.parent? = some p → p ∈ K

theorem container_ne_detached (pos : Position) : pos.container ≠ .detached := by
  cases pos <;> simp [container]

/-- A position is known by its container and its key. -/
theorem eq_of_container_key {pos pos' : Position} (hc : pos.container = pos'.container)
    (hk : pos.key = pos'.key) : pos = pos' := by
  cases pos <;> cases pos' <;> simp_all [container, key]

@[simp] theorem parent?_root : Position.root.parent? = none := rfl
@[simp] theorem parent?_slot (p : NodeId) (f : Field) : (slot p f).parent? = some p := rfl
@[simp] theorem parent?_item (p : NodeId) (f : Field) (i : Nat) :
    (item p f i).parent? = some p := rfl

theorem within_root (K : Set NodeId) : Position.root.Within K := by
  intro p hp
  cases hp

theorem within_of_parent {pos : Position} {K : Set NodeId} {p : NodeId} (hp : pos.parent? = some p)
    (h : p ∈ K) : pos.Within K := by
  intro q hq
  rw [← Option.some.inj (hp.symm.trans hq)]
  exact h

theorem within_mono {pos : Position} {K K' : Set NodeId} (hK : K ⊆ K') (h : pos.Within K) :
    pos.Within K' := fun p hp => hK (h p hp)

end Position

/-! ## Child fields -/

theorem NodeType.nodup_visitorFields (type : NodeType) : type.visitorFields.Nodup := by
  cases type <;> decide

namespace NodeKind

/-- The content of a field is its entry among the fields. -/
theorem child?_eq_some_iff (k : NodeKind) (f : Field) (c : Child) :
    k.child? f = some c ↔ (f, c) ∈ k.fields := by
  have hnodup : (k.fields.map Prod.fst).Nodup := by
    rw [map_fst_fields]
    exact k.type.nodup_visitorFields
  simp only [child?, Option.map_eq_some_iff]
  constructor
  · rintro ⟨e, he, rfl⟩
    have hf : e.1 = f := by simpa using List.find?_some he
    rw [← hf]
    exact List.mem_of_find?_eq_some he
  · intro h
    cases hfind : k.fields.find? fun e => decide (e.1 = f) with
    | none => simpa using List.find?_eq_none.mp hfind _ h
    | some e =>
      have he := List.mem_of_find?_eq_some hfind
      have hf : e.1 = f := by simpa using List.find?_some hfind
      refine ⟨e, rfl, ?_⟩
      rw [List.inj_on_of_nodup_map hnodup he h hf]

theorem identifierName?_eq_some_iff (k : NodeKind) {x : String} :
    k.identifierName? = some x ↔ ∃ declared, k = .identifier x declared := by
  cases k <;> simp [identifierName?]

end NodeKind

namespace Tree

/-- The content of a child field of a node. -/
def field? (t : Tree) (id : NodeId) (f : Field) : Option Child := (t.kind? id).bind (·.child? f)

/-- The list in a field of a node. -/
def list? (t : Tree) (id : NodeId) (f : Field) : Option (List NodeId) :=
  (t.field? id f).bind Child.list?

theorem list?_eq_some_iff {t : Tree} {n : NodeId} {f : Field} {ids : List NodeId} :
    t.list? n f = some ids ↔ t.field? n f = some (.many ids) := by
  refine ⟨fun h => ?_, fun h => by simp [list?, h, Child.list?]⟩
  obtain ⟨c, hc, hids⟩ := Option.bind_eq_some_iff.mp h
  cases c with
  | many ids' => rw [hc, Option.some.inj hids]
  | one | opt => cases hids

/-- The node that stands at a position. -/
def occupant? (t : Tree) : Position → Option NodeId
  | .root => t.root
  | .slot parent f => (t.field? parent f).bind Child.node?
  | .item parent f i => (t.list? parent f).bind (·[i]?)

/-- Does the second node stand in a field of the first? -/
def IsChild (t : Tree) (p n : NodeId) : Prop :=
  ∃ pos : Position, pos.parent? = some p ∧ t.occupant? pos = some n

/-- What stands in a field stands at a position of that field. -/
theorem exists_position {t : Tree} {p n : NodeId} {k : NodeKind} {f : Field} {c : Child}
    (hk : t.kind? p = some k) (hf : (f, c) ∈ k.fields) (hn : n ∈ c.ids) :
    ∃ pos : Position, pos.parent? = some p ∧ pos.field? = some f ∧ t.occupant? pos = some n := by
  have hc : t.field? p f = some c := by
    simp [field?, hk, (k.child?_eq_some_iff f c).mpr hf]
  cases c with
  | one id => exact ⟨.slot p f, rfl, rfl, by simp_all [occupant?, Child.node?, Child.ids]⟩
  | opt id? => exact ⟨.slot p f, rfl, rfl, by simp_all [occupant?, Child.node?, Child.ids]⟩
  | many ids =>
    obtain ⟨i, hi⟩ := List.mem_iff_getElem?.mp hn
    exact ⟨.item p f i, rfl, rfl, by simp_all [occupant?, list?, Child.list?, Child.ids]⟩

/-- The children are the nodes that stand in some field. -/
theorem isChild_iff (t : Tree) (p n : NodeId) :
    t.IsChild p n ↔ ∃ k, t.kind? p = some k ∧ n ∈ k.children := by
  constructor
  · rintro ⟨pos, hp, hn⟩
    cases pos with
    | root => simp at hp
    | slot q f =>
      obtain rfl : q = p := by simpa using hp
      simp only [occupant?, field?, Option.bind_eq_some_iff] at hn
      obtain ⟨c, ⟨k, hk, hc⟩, hn⟩ := hn
      refine ⟨k, hk, List.mem_flatMap.mpr ⟨_, (k.child?_eq_some_iff f c).mp hc, ?_⟩⟩
      cases c <;> simp_all [Child.node?, Child.ids]
    | item q f i =>
      obtain rfl : q = p := by simpa using hp
      simp only [occupant?, list?, field?, Option.bind_eq_some_iff] at hn
      obtain ⟨ids, ⟨c, ⟨k, hk, hc⟩, hids⟩, hn⟩ := hn
      refine ⟨k, hk, List.mem_flatMap.mpr ⟨_, (k.child?_eq_some_iff f c).mp hc, ?_⟩⟩
      cases c with
      | many ids' =>
        obtain rfl : ids' = ids := by simpa [Child.list?] using hids
        exact List.mem_of_getElem? hn
      | one | opt => simp [Child.list?] at hids
  · rintro ⟨k, hk, hn⟩
    obtain ⟨⟨f, c⟩, he, hn⟩ := List.mem_flatMap.mp hn
    obtain ⟨pos, hpos, -, hocc⟩ := exists_position hk he hn
    exact ⟨pos, hpos, hocc⟩

/-- No node of the set stands below itself. -/
def Acyclic (t : Tree) (K : Set NodeId) : Prop :=
  ∀ n ∈ K, ¬ Relation.TransGen t.IsChild n n

/-- A node of the set, or the root of the tree, is where every walk starts; what stands below it is
in the set again, no node of the set stands at two
positions, and none stands below itself. -/
structure Forest (t : Tree) (K : Set NodeId) : Prop where
  kind : ∀ n ∈ K, ∃ k, t.kind? n = some k
  closed : ∀ (pos : Position) n, pos.Within K → t.occupant? pos = some n → n ∈ K
  single : ∀ (pos pos' : Position) n, pos.Within K → pos'.Within K →
    t.occupant? pos = some n → t.occupant? pos' = some n → pos = pos'
  acyclic : t.Acyclic K

/-- The nodes that can be reached from the root. -/
inductive Reachable (t : Tree) : NodeId → Prop
  | root {r : NodeId} : t.root = some r → Reachable t r
  | child {p n : NodeId} : Reachable t p → t.IsChild p n → Reachable t n

/-- The set of the nodes that can be reached from the root. -/
def reachable (t : Tree) : Set NodeId := {n | t.Reachable n}

/-- How many nodes an arena can hold: ids are 32-bit numbers. -/
def maxSize : Nat := Nat.pow 2 32

/-- A program tree: its root is a program, every child id below the root is allocated, no node
stands at two positions, and no node stands below itself. -/
structure IsProgram (t : Tree) : Prop where
  small : t.size ≤ maxSize
  root : ∃ r, t.root = some r ∧ t.type? r = some .program
  allocated : ∀ n, t.Reachable n → t.contains n = true
  single : ∀ (pos pos' : Position) n, pos.Within t.reachable → pos'.Within t.reachable →
    t.occupant? pos = some n → t.occupant? pos' = some n → pos = pos'
  acyclic : t.Acyclic t.reachable

theorem kind?_isSome_iff (t : Tree) (id : NodeId) :
    (∃ k, t.kind? id = some k) ↔ id.index < t.size := by
  rw [kind?, node?, size]
  cases h : t.nodes[id.index]? with
  | none => simpa using h
  | some n => simpa using (Array.getElem?_eq_some_iff.mp h).1

theorem contains_iff (t : Tree) (id : NodeId) :
    t.contains id = true ↔ ∃ k, t.kind? id = some k := by
  rw [kind?_isSome_iff, contains, decide_eq_true_eq]

theorem type?_of_kind {t : Tree} {n : NodeId} {k : NodeKind} (h : t.kind? n = some k) :
    t.type? n = some k.type := by
  simp only [kind?, Option.map_eq_some_iff] at h
  obtain ⟨node, hnode, rfl⟩ := h
  simp [type?, hnode, Node.type]

theorem kind_of_type? {t : Tree} {n : NodeId} {type : NodeType} (h : t.type? n = some type) :
    ∃ k, t.kind? n = some k ∧ k.type = type := by
  obtain ⟨node, hnode, htype⟩ := Option.map_eq_some_iff.mp h
  exact ⟨node.kind, by simp [kind?, hnode], htype⟩

/-- What can be reached in a program tree is a forest. -/
theorem IsProgram.forest {t : Tree} (h : t.IsProgram) : t.Forest t.reachable where
  kind n hn := (t.contains_iff n).mp (h.allocated n hn)
  closed pos n hw hn := by
    cases hp : pos.parent? with
    | none =>
      cases pos with
      | root => exact .root hn
      | slot => simp at hp
      | item => simp at hp
    | some p => exact .child (hw p hp) ⟨pos, hp, hn⟩
  single := h.single
  acyclic := h.acyclic

theorem map_type_kind? (t : Tree) (n : NodeId) : (t.kind? n).map NodeKind.type = t.type? n := by
  rw [kind?, type?, Option.map_map]
  rfl

/-- The root of the tree is a program. -/
def Rooted (t : Tree) : Prop := ∃ r, t.root = some r ∧ t.type? r = some .program

theorem Rooted.kind_root {t : Tree} (h : t.Rooted) {r : NodeId} (hr : t.root = some r) :
    ∃ k, t.kind? r = some k ∧ k.type = .program := by
  obtain ⟨r', hr', htype⟩ := h
  obtain rfl := Option.some.inj (hr.symm.trans hr')
  exact kind_of_type? htype

/-- The root stays a program as long as it stays where it is and keeps its type. -/
theorem Rooted.of_root {t t' : Tree} (h : t.Rooted) (hroot : t'.root = t.root)
    (htype : ∀ r, t.root = some r →
      (t'.kind? r).map NodeKind.type = (t.kind? r).map NodeKind.type) : t'.Rooted := by
  obtain ⟨r, hr, hrt⟩ := h
  exact ⟨r, hroot.trans hr, by rw [← map_type_kind?, htype r hr, map_type_kind?, hrt]⟩

theorem IsProgram.kind_root {t : Tree} (h : t.IsProgram) {r : NodeId}
    (hr : t.root = some r) : ∃ k, t.kind? r = some k ∧ k.type = .program :=
  Rooted.kind_root h.root hr

/-! ## Trees of one shape -/

/-- The two trees have the same root, and their nodes are of the same kinds. -/
structure Alike (t t' : Tree) : Prop where
  root : t'.root = t.root
  kind : ∀ n, t'.kind? n = t.kind? n

namespace Alike

variable {t t' t'' : Tree}

theorem refl (t : Tree) : t.Alike t := ⟨rfl, fun _ => rfl⟩

theorem symm (h : t.Alike t') : t'.Alike t := ⟨h.root.symm, fun n => (h.kind n).symm⟩

theorem trans (h : t.Alike t') (h' : t'.Alike t'') : t.Alike t'' :=
  ⟨h'.root.trans h.root, fun n => (h'.kind n).trans (h.kind n)⟩

theorem field? (h : t.Alike t') (n : NodeId) (f : Field) : t'.field? n f = t.field? n f := by
  simp only [Tree.field?, h.kind]

theorem list? (h : t.Alike t') (n : NodeId) (f : Field) : t'.list? n f = t.list? n f := by
  simp only [Tree.list?, h.field?]

theorem occupant? (h : t.Alike t') (pos : Position) : t'.occupant? pos = t.occupant? pos := by
  cases pos <;> simp only [Tree.occupant?, h.root, h.field?, h.list?]

theorem isChild (h : t.Alike t') : t'.IsChild = t.IsChild := by
  funext p n
  simp only [IsChild, h.occupant?]

theorem reachable (h : t.Alike t') : t'.reachable = t.reachable := by
  have hsub : ∀ {t t' : Tree}, t.Alike t' → ∀ n, t.Reachable n → t'.Reachable n := by
    intro t t' h n hn
    induction hn with
    | root hr => exact .root (h.root.trans hr)
    | child _ hc ih => exact .child ih (h.isChild ▸ hc)
  exact Set.ext fun n => ⟨hsub h.symm n, hsub h n⟩

theorem forest {K : Set NodeId} (h : t.Alike t') (hF : t.Forest K) : t'.Forest K where
  kind n hn := by
    rw [h.kind]
    exact hF.kind n hn
  closed pos n hw hn := hF.closed pos n hw ((h.occupant? pos).symm.trans hn)
  single pos pos' n hw hw' hn hn' :=
    hF.single pos pos' n hw hw' ((h.occupant? pos).symm.trans hn) ((h.occupant? pos').symm.trans hn')
  acyclic n hn := by
    rw [h.isChild]
    exact hF.acyclic n hn

end Alike

/-! ## Depth -/

/-- Is everything below the node allocated, and no chain of children longer than the bound? -/
def DepthWithin (t : Tree) : Nat → NodeId → Prop
  | 0, _ => False
  | d + 1, n => ∃ k, t.kind? n = some k ∧ ∀ c ∈ k.children, t.DepthWithin d c

theorem DepthWithin.mono {t : Tree} {d e : Nat} {n : NodeId} (h : t.DepthWithin d n)
    (hde : d ≤ e) : t.DepthWithin e n := by
  induction d generalizing e n with
  | zero => exact h.elim
  | succ d ih =>
    obtain ⟨k, hk, hc⟩ := h
    cases e with
    | zero => omega
    | succ e => exact ⟨k, hk, fun c hm => ih (hc c hm) (by omega)⟩

theorem DepthWithin.child {t : Tree} {d : Nat} {n c : NodeId} {k : NodeKind}
    (h : t.DepthWithin d n) (hk : t.kind? n = some k) (hc : c ∈ k.children) :
    t.DepthWithin d c := by
  cases d with
  | zero => exact h.elim
  | succ d =>
    obtain ⟨k', hk', hall⟩ := h
    obtain rfl : k = k' := Option.some.inj (hk.symm.trans hk')
    exact (hall c hc).mono (Nat.le_succ d)

theorem DepthWithin.kind {t : Tree} {d : Nat} {n : NodeId} (h : t.DepthWithin d n) :
    ∃ k, t.kind? n = some k := by
  cases d with
  | zero => exact h.elim
  | succ d => exact ⟨h.choose, h.choose_spec.1⟩

/-- What has a depth does not stand below itself. -/
theorem DepthWithin.not_transGen {t : Tree} {d : Nat} {n : NodeId} (h : t.DepthWithin d n) :
    ¬ Relation.TransGen t.IsChild n n := by
  induction d generalizing n with
  | zero => exact h.elim
  | succ d ih =>
    intro hn
    obtain ⟨k, hk, hbelow⟩ := h
    obtain ⟨c, hc, hcn⟩ := Relation.TransGen.head'_iff.mp hn
    obtain ⟨k', hk', hmem⟩ := (t.isChild_iff n c).mp hc
    obtain rfl := Option.some.inj (hk.symm.trans hk')
    exact ih (hbelow c hmem) (.tail' hcn hc)

theorem DepthWithin.down {t : Tree} {d : Nat} {n m : NodeId} (h : t.DepthWithin d n)
    (hm : Relation.ReflTransGen t.IsChild n m) : t.DepthWithin d m := by
  induction hm with
  | refl => exact h
  | tail _ hchild ih =>
    obtain ⟨k, hk, hmem⟩ := (t.isChild_iff _ _).mp hchild
    exact ih.child hk hmem

/-- A list without repetitions of nodes of the arena is no longer than the arena. -/
theorem length_le_of_allocated {t : Tree} {l : List NodeId} (hl : ∀ n ∈ l, n.index < t.size)
    (hnodup : l.Nodup) : l.length ≤ t.size := by
  have hmap : (l.map NodeId.index).Nodup :=
    List.Nodup.map (fun ⟨a⟩ ⟨b⟩ hab => by simpa using hab) hnodup
  have hsub : l.map NodeId.index ⊆ List.range t.size := by
    intro i hi
    obtain ⟨n, hn, rfl⟩ := List.mem_map.mp hi
    exact List.mem_range.mpr (hl n hn)
  simpa using (hmap.subperm hsub).length_le

/-- Where the depth is not bounded there is a chain of children that exceeds the bound. -/
private theorem exists_chain {t : Tree} {K : Set NodeId} (hkind : ∀ n ∈ K, ∃ k, t.kind? n = some k)
    (hclosed : ∀ p ∈ K, ∀ n, t.IsChild p n → n ∈ K) {d : Nat} {n : NodeId} (hn : n ∈ K)
    (hd : ¬ t.DepthWithin d n) :
    ∃ l : List NodeId, l.length = d ∧ List.IsChain t.IsChild (n :: l) ∧ ∀ m ∈ l, m ∈ K := by
  induction d generalizing n with
  | zero => exact ⟨[], rfl, .singleton n, by simp⟩
  | succ d ih =>
    obtain ⟨k, hk⟩ := hkind n hn
    obtain ⟨c, hc, hcd⟩ : ∃ c ∈ k.children, ¬ t.DepthWithin d c := by
      by_contra hno
      push Not at hno
      exact hd ⟨k, hk, hno⟩
    have hchild : t.IsChild n c := (t.isChild_iff n c).mpr ⟨k, hk, hc⟩
    have hcK := hclosed n hn c hchild
    obtain ⟨l, hlen, hchain, hmem⟩ := ih hcK hcd
    refine ⟨c :: l, by simp [hlen], List.isChain_cons_cons.mpr ⟨hchild, hchain⟩, ?_⟩
    intro m hm
    rcases List.mem_cons.mp hm with rfl | hm
    · exact hcK
    · exact hmem m hm

/-- Where nothing stands below itself, no chain of children is longer than the arena. -/
theorem Acyclic.depthWithin {t : Tree} {K : Set NodeId} (h : t.Acyclic K)
    (hkind : ∀ n ∈ K, ∃ k, t.kind? n = some k) (hclosed : ∀ p ∈ K, ∀ n, t.IsChild p n → n ∈ K)
    {n : NodeId} (hn : n ∈ K) : t.DepthWithin t.size n := by
  by_contra hd
  obtain ⟨l, hlen, hchain, hmem⟩ := exists_chain hkind hclosed hn hd
  have hall : ∀ m ∈ n :: l, m ∈ K := by
    intro m hm
    rcases List.mem_cons.mp hm with rfl | hm
    · exact hn
    · exact hmem m hm
  have hpairwise : (n :: l).Pairwise (Relation.TransGen t.IsChild) :=
    List.isChain_iff_pairwise.mp (hchain.imp fun _ _ hc => .single hc)
  have hnodup : (n :: l).Nodup := by
    refine (List.pairwise_iff_forall_sublist.mpr fun {a b} hab hne => ?_)
    subst hne
    exact h a (hall a (hab.subset (by simp)))
      (List.pairwise_iff_forall_sublist.mp hpairwise hab)
  have hle := length_le_of_allocated (t := t)
    (fun m hm => (t.kind?_isSome_iff m).mp (hkind m (hall m hm))) hnodup
  simp only [List.length_cons, hlen] at hle
  omega

namespace Forest

variable {t : Tree} {K : Set NodeId}

theorem closed_child (h : t.Forest K) {p n : NodeId} (hp : p ∈ K) (hn : t.IsChild p n) :
    n ∈ K := by
  obtain ⟨pos, hpos, hocc⟩ := hn
  exact h.closed pos n (Position.within_of_parent hpos hp) hocc

theorem index_lt_size (h : t.Forest K) {n : NodeId} (hn : n ∈ K) : n.index < t.size :=
  (t.kind?_isSome_iff n).mp (h.kind n hn)

/-- A list without repetitions of nodes of a forest is no longer than the arena. -/
theorem length_le_size (h : t.Forest K) {l : List NodeId} (hl : ∀ n ∈ l, n ∈ K)
    (hnodup : l.Nodup) : l.length ≤ t.size :=
  length_le_of_allocated (fun n hn => h.index_lt_size (hl n hn)) hnodup

/-- No element stands twice in a list of a forest. -/
theorem nodup_list (h : t.Forest K) {owner : NodeId} {f : Field} {ids : List NodeId}
    (howner : owner ∈ K) (hlist : t.list? owner f = some ids) : ids.Nodup := by
  refine List.nodup_iff_getElem?_ne_getElem?.mpr fun i j hij hj heq => ?_
  obtain ⟨n, hn⟩ : ∃ n, ids[j]? = some n := ⟨_, List.getElem?_eq_getElem hj⟩
  have hocc : ∀ k, t.occupant? (.item owner f k) = ids[k]? := by
    intro k
    simp [occupant?, hlist]
  have hpos := h.single (.item owner f i) (.item owner f j) n
    (Position.within_of_parent rfl howner) (Position.within_of_parent rfl howner)
    (by rw [hocc, heq, hn]) (by rw [hocc, hn])
  cases hpos
  exact Nat.lt_irrefl _ hij

/-- A node of the forest has one parent in it. -/
theorem parent_unique (h : t.Forest K) {p q n : NodeId} (hp : p ∈ K) (hq : q ∈ K)
    (hpn : t.IsChild p n) (hqn : t.IsChild q n) : p = q := by
  obtain ⟨pos, hpos, hocc⟩ := hpn
  obtain ⟨pos', hpos', hocc'⟩ := hqn
  have heq : pos = pos' := h.single pos pos' n (Position.within_of_parent hpos hp)
    (Position.within_of_parent hpos' hq) hocc hocc'
  rw [heq, hpos'] at hpos
  exact (Option.some.inj hpos).symm

theorem closed_below (h : t.Forest K) {n m : NodeId} (hn : n ∈ K)
    (hm : Relation.ReflTransGen t.IsChild n m) : m ∈ K := by
  induction hm with
  | refl => exact hn
  | tail _ hstep ih => exact h.closed_child ih hstep

/-- Everything that can be reached is in the forest. -/
theorem mem_of_reachable (h : t.Forest K) {n : NodeId} (hn : t.Reachable n) : n ∈ K := by
  induction hn with
  | root hr => exact h.closed .root _ (Position.within_root K) hr
  | child _ hc ih => exact h.closed_child ih hc

/-- Of two nodes above a third one, one is above the other. -/
theorem below_total (h : t.Forest K) {a b n : NodeId} (ha : a ∈ K) (hb : b ∈ K)
    (han : Relation.ReflTransGen t.IsChild a n) (hbn : Relation.ReflTransGen t.IsChild b n) :
    Relation.ReflTransGen t.IsChild a b ∨ Relation.ReflTransGen t.IsChild b a := by
  induction han with
  | refl => exact .inr hbn
  | tail hap hpn ih =>
    cases hbn with
    | refl => exact .inl (hap.tail hpn)
    | tail hbq hqn =>
      have heq := h.parent_unique (h.closed_below ha hap) (h.closed_below hb hbq) hpn hqn
      exact ih (heq ▸ hbq)

/-- No node is below two children of one node. -/
theorem below_disjoint (h : t.Forest K) {p n : NodeId} {pos pos' : Position} {c c' : NodeId}
    (hp : p ∈ K) (hpos : pos.parent? = some p) (hpos' : pos'.parent? = some p)
    (hc : t.occupant? pos = some c) (hc' : t.occupant? pos' = some c')
    (hn : Relation.ReflTransGen t.IsChild c n) (hn' : Relation.ReflTransGen t.IsChild c' n) :
    pos = pos' := by
  have hchild : t.IsChild p c := ⟨pos, hpos, hc⟩
  have hchild' : t.IsChild p c' := ⟨pos', hpos', hc'⟩
  have hcK := h.closed_child hp hchild
  have hcK' := h.closed_child hp hchild'
  have hself : ∀ a b : NodeId, a ∈ K → t.IsChild p a → t.IsChild p b →
      Relation.ReflTransGen t.IsChild a b → a = b := by
    intro a b ha hpa hpb hab
    cases hab with
    | refl => rfl
    | tail haq hqb =>
      have hq := h.parent_unique hp (h.closed_below ha haq) hpb hqb
      exact absurd (Relation.TransGen.head' hpa (hq ▸ haq)) (h.acyclic p hp)
  have heq : c = c' := by
    rcases h.below_total hcK hcK' hn hn' with hcc | hcc
    · exact hself c c' hcK hchild hchild' hcc
    · exact (hself c' c hcK' hchild' hchild hcc).symm
  exact h.single pos pos' c (Position.within_of_parent hpos hp)
    (Position.within_of_parent hpos' hp) hc (heq ▸ hc')

/-- In a forest no chain of children is longer than the arena. -/
theorem depthWithin (h : t.Forest K) {n : NodeId} (hn : n ∈ K) :
    t.DepthWithin t.size n :=
  h.acyclic.depthWithin h.kind (fun _ hp _ => h.closed_child hp) hn

end Forest

/-! ## Trees that were built bottom up -/

/-- The nodes that stand somewhere, once for each position. -/
def occupants (t : Tree) : List NodeId :=
  t.root.toList ++ (List.range t.size).flatMap fun i => (t.children? ⟨i⟩).getD []

section Occupants

variable {t : Tree}

theorem children?_of_kind {n : NodeId} {k : NodeKind} (hk : t.kind? n = some k) :
    t.children? n = some k.children := by
  rw [children?, hk, Option.map_some]

/-- What stands at a position below a node is in one of the fields of the node. -/
theorem mem_fields_of_occupant {pos : Position} {p n : NodeId} {k : NodeKind}
    (hp : pos.parent? = some p) (hk : t.kind? p = some k) (hn : t.occupant? pos = some n) :
    ∃ f c, (f, c) ∈ k.fields ∧ n ∈ c.ids ∧ ((pos = .slot p f ∧ c.node? = some n) ∨
      ∃ ids i, pos = .item p f i ∧ c = .many ids ∧ ids[i]? = some n) := by
  cases pos with
  | root => simp at hp
  | slot q f =>
    obtain rfl : q = p := by simpa using hp
    simp only [occupant?, field?, hk, Option.bind_some, Option.bind_eq_some_iff] at hn
    obtain ⟨c, hc, hn⟩ := hn
    refine ⟨f, c, (k.child?_eq_some_iff f c).mp hc, ?_, .inl ⟨rfl, hn⟩⟩
    cases c <;> simp_all [Child.node?, Child.ids]
  | item q f i =>
    obtain rfl : q = p := by simpa using hp
    simp only [occupant?, list?, field?, hk, Option.bind_some, Option.bind_eq_some_iff] at hn
    obtain ⟨ids, ⟨c, hc, hids⟩, hn⟩ := hn
    obtain rfl : c = .many ids := by
      cases c <;> simp_all [Child.list?]
    exact ⟨f, _, (k.child?_eq_some_iff f _).mp hc, List.mem_of_getElem? hn,
      .inr ⟨ids, i, rfl, rfl, hn⟩⟩

/-- Lists that share no element come from the same place when they share one. -/
theorem eq_of_nodup_flatMap {α β : Type} {l : List α} {f : α → List β}
    (h : (l.flatMap f).Nodup) {a a' : α} {b : β} (ha : a ∈ l) (ha' : a' ∈ l) (hb : b ∈ f a)
    (hb' : b ∈ f a') : a = a' := by
  by_contra hne
  have hsymm : Std.Symm (Function.onFun List.Disjoint f) := ⟨fun _ _ hd _ hb hb' => hd hb' hb⟩
  exact (List.nodup_flatMap.mp h).2.forall ha ha' hne hb hb'

/-- Where no child is listed twice in a node, it stands at one position of the node. -/
theorem position_unique_of_nodup {pos pos' : Position} {p n : NodeId} {k : NodeKind}
    (hnodup : k.children.Nodup) (hk : t.kind? p = some k) (hp : pos.parent? = some p)
    (hp' : pos'.parent? = some p) (hn : t.occupant? pos = some n)
    (hn' : t.occupant? pos' = some n) : pos = pos' := by
  obtain ⟨f, c, hf, hc, hpos⟩ := mem_fields_of_occupant hp hk hn
  obtain ⟨f', c', hf', hc', hpos'⟩ := mem_fields_of_occupant hp' hk hn'
  obtain ⟨rfl, rfl⟩ := Prod.mk.inj (eq_of_nodup_flatMap hnodup hf hf' hc hc')
  rcases hpos with ⟨rfl, hnode⟩ | ⟨ids, i, rfl, rfl, hi⟩
  · rcases hpos' with ⟨rfl, -⟩ | ⟨ids, i, -, rfl, -⟩
    · rfl
    · cases hnode
  · rcases hpos' with ⟨-, hnode⟩ | ⟨ids', j, rfl, heq, hj⟩
    · cases hnode
    · obtain rfl := Child.many.inj heq
      have hnodup_ids : ids.Nodup := (List.nodup_flatMap.mp hnodup).1 _ hf
      obtain ⟨hi', hie⟩ := List.getElem?_eq_some_iff.mp hi
      obtain ⟨hj', hje⟩ := List.getElem?_eq_some_iff.mp hj
      rw [(hnodup_ids.getElem_inj_iff).mp (hie.trans hje.symm)]

/-- A forest with a program at its root is a program tree. -/
theorem Forest.isProgram {K : Set NodeId} (hF : t.Forest K)
    (hsmall : t.size ≤ maxSize) (hroot : t.Rooted) : t.IsProgram := by
  have hsub : t.reachable ⊆ K := fun n hn => hF.mem_of_reachable hn
  refine ⟨hsmall, hroot, fun n hn => ?_, fun pos pos' n hw hw' => ?_, fun n hn => ?_⟩
  · simpa [contains] using hF.index_lt_size (hsub hn)
  · exact hF.single pos pos' n (Position.within_mono hsub hw) (Position.within_mono hsub hw')
  · exact hF.acyclic n (hsub hn)

/-- Listed nodes are a forest if the root and the children of a listed node are listed, the children
with a lower rank, and nothing stands at two positions. -/
theorem Forest.of_ranked (l : List NodeId) (rank : NodeId → Nat)
    (hroot : ∀ r, t.root = some r → r ∈ l) (hallocated : ∀ n ∈ l, n.index < t.size)
    (hchildren : ∀ n ∈ l, ∀ c ∈ (t.children? n).getD [], c ∈ l ∧ rank c < rank n)
    (hnodup : (t.root.toList ++ l.flatMap fun n => (t.children? n).getD []).Nodup) :
    t.Forest {n | n ∈ l} := by
  obtain ⟨-, hnodup, hrootless⟩ := List.nodup_append.mp hnodup
  have hlisted : ∀ {p c : NodeId}, t.IsChild p c → c ∈ (t.children? p).getD [] := by
    intro p c hc
    obtain ⟨k, hk, hmem⟩ := (t.isChild_iff p c).mp hc
    rw [children?_of_kind hk]
    exact hmem
  refine ⟨fun n hn => (t.kind?_isSome_iff n).mpr (hallocated n hn), fun pos n hw hn => ?_,
    fun pos pos' n hw hw' hn hn' => ?_, fun n hn hcycle => ?_⟩
  · cases hp : pos.parent? with
    | none =>
      cases pos with
      | root => exact hroot n hn
      | slot | item => cases hp
    | some p => exact (hchildren p (hw p hp) n (hlisted ⟨pos, hp, hn⟩)).1
  · have hnotroot : ∀ (pos : Position) p, pos.parent? = some p → p ∈ l →
        t.occupant? pos = some n → t.root ≠ some n := by
      intro pos p hp hpl hocc hroot
      exact hrootless n (by simp [hroot]) n
        (List.mem_flatMap.mpr ⟨p, hpl, hlisted ⟨pos, hp, hocc⟩⟩) rfl
    cases hp : pos.parent? with
    | none =>
      cases hp' : pos'.parent? with
      | none =>
        cases pos <;> cases pos' <;> simp_all
      | some p' =>
        have hno := hnotroot pos' p' hp' (hw' p' hp') hn'
        cases pos <;> simp_all [occupant?]
    | some p =>
      have hpl : p ∈ l := hw p hp
      cases hp' : pos'.parent? with
      | none =>
        have hno := hnotroot pos p hp hpl hn
        cases pos' <;> simp_all [occupant?]
      | some p' =>
        obtain rfl := eq_of_nodup_flatMap hnodup hpl (hw' p' hp')
          (hlisted ⟨pos, hp, hn⟩) (hlisted ⟨pos', hp', hn'⟩)
        obtain ⟨k, hk, -⟩ := (t.isChild_iff p n).mp ⟨pos, hp, hn⟩
        have hknodup : k.children.Nodup := by
          have hown := (List.nodup_flatMap.mp hnodup).1 p hpl
          rw [children?_of_kind hk] at hown
          exact hown
        exact position_unique_of_nodup hknodup hk hp hp' hn hn'
  · have hdown : ∀ {a b : NodeId}, a ∈ l → Relation.TransGen t.IsChild a b →
        b ∈ l ∧ rank b < rank a := by
      intro a b ha hab
      induction hab with
      | single hc => exact hchildren a ha _ (hlisted hc)
      | tail _ hc ih =>
        obtain ⟨hb, hlt⟩ := hchildren _ ih.1 _ (hlisted hc)
        exact ⟨hb, Nat.lt_trans hlt ih.2⟩
    exact Nat.lt_irrefl _ (hdown hn hcycle).2

/-- A tree is a program tree if its root is a program and the nodes that can be reached are listed:
the children of a listed node are listed and of a lower rank, and nothing stands at two positions. -/
theorem IsProgram.of_ranked (l : List NodeId) (rank : NodeId → Nat) (hsmall : t.size ≤ maxSize)
    (hroot : ∃ r ∈ l, t.root = some r ∧ t.type? r = some .program)
    (hallocated : ∀ n ∈ l, n.index < t.size)
    (hchildren : ∀ n ∈ l, ∀ c ∈ (t.children? n).getD [], c ∈ l ∧ rank c < rank n)
    (hnodup : (t.root.toList ++ l.flatMap fun n => (t.children? n).getD []).Nodup) :
    t.IsProgram := by
  obtain ⟨r, hrl, hr, hrt⟩ := hroot
  have hF := Forest.of_ranked l rank (fun r' hr' => Option.some.inj (hr.symm.trans hr') ▸ hrl)
    hallocated hchildren hnodup
  exact hF.isProgram hsmall ⟨r, hr, hrt⟩

/-- The nodes of a tree are a forest if they come after their children and nothing stands at two
positions. -/
theorem Forest.of_bottomUp (hroot : ∀ r ∈ t.root, r.index < t.size)
    (hbefore : ∀ i < t.size, ∀ c ∈ (t.children? ⟨i⟩).getD [], c.index < i)
    (hnodup : t.occupants.Nodup) : t.Forest {n | n.index < t.size} := by
  have hmem : ∀ n : NodeId, n ∈ (List.range t.size).map NodeId.mk ↔ n.index < t.size := by
    rintro ⟨i⟩
    simp
  have hF : t.Forest {n | n ∈ (List.range t.size).map NodeId.mk} := by
    refine .of_ranked _ NodeId.index (fun r hr => (hmem r).mpr (hroot r hr))
      (fun n hn => (hmem n).mp hn) (fun n hn c hc => ?_) (by rw [List.flatMap_map]; exact hnodup)
    have hlt := hbefore n.index ((hmem n).mp hn) c hc
    exact ⟨(hmem c).mpr (Nat.lt_trans hlt ((hmem n).mp hn)), hlt⟩
  simpa only [hmem] using hF

/-- A tree whose nodes come after their children, none of which stands at two positions, is a
program tree if its root is a program. -/
theorem IsProgram.of_bottomUp (hsmall : t.size ≤ maxSize)
    (hroot : t.root.bind t.type? = some .program)
    (hbefore : ∀ i < t.size, ∀ c ∈ (t.children? ⟨i⟩).getD [], c.index < i)
    (hnodup : t.occupants.Nodup) : t.IsProgram := by
  obtain ⟨r, hr, hrt⟩ := Option.bind_eq_some_iff.mp hroot
  have hF := Forest.of_bottomUp (t := t) (fun r' hr' => ?_) hbefore hnodup
  · exact hF.isProgram hsmall ⟨r, hr, hrt⟩
  · obtain rfl := Option.some.inj (hr.symm.trans hr')
    obtain ⟨k, hk, -⟩ := kind_of_type? hrt
    exact (t.kind?_isSome_iff r).mp ⟨k, hk⟩

end Occupants

end Tree

end Espalier
