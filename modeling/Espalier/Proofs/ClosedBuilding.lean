import Espalier.Proofs.ClosedAnalysis
import Espalier.Proofs.Reduction

set_option autoImplicit false

/-! # Building within range

What is built on the tree of a closed session from nodes that are there leaves a closed session
(`Careful.alloc`, `Careful.modifyKind`). The copy of a subtree, if there is one, takes in no node
that is not there (`TreeM.Stays.deepClone`). -/

namespace Espalier

open SessionM

variable {α β : Type} {s : Session} {t t' : Tree}

/-! ## Children of a changed node -/

namespace NodeKind

variable {k : NodeKind} {c : NodeId} {f : Field}

theorem mem_children_mapFields {g : FieldMap} (h : c ∈ (k.mapFields g).children) :
    ∃ e ∈ k.fields, c ∈ (g.apply e.1 e.2).ids := by
  rw [children, fields_mapFields] at h
  obtain ⟨e, he, hc⟩ := List.mem_flatMap.mp h
  obtain ⟨e', he', rfl⟩ := List.mem_map.mp he
  exact ⟨e', he', hc⟩

theorem mem_children_setNode {id : NodeId} (h : c ∈ (k.setNode f id).children) :
    c = id ∨ c ∈ k.children := by
  obtain ⟨⟨g, child⟩, he, hc⟩ := mem_children_mapFields h
  have hold : c ∈ child.ids → c = id ∨ c ∈ k.children := fun hc =>
    .inr (List.mem_flatMap.mpr ⟨_, he, hc⟩)
  cases child with
  | one old =>
    simp only [FieldMap.apply, putNode] at hc
    split at hc
    · exact .inl (List.mem_singleton.mp hc)
    · exact hold hc
  | opt old =>
    simp only [FieldMap.apply, putNode] at hc
    split at hc
    · exact .inl (List.mem_singleton.mp hc)
    · exact hold hc
  | many old => exact hold hc

theorem mem_children_clearNode (h : c ∈ (k.clearNode f).children) : c ∈ k.children := by
  obtain ⟨⟨g, child⟩, he, hc⟩ := mem_children_mapFields h
  have hold : c ∈ child.ids → c ∈ k.children := fun hc => List.mem_flatMap.mpr ⟨_, he, hc⟩
  cases child with
  | one old => exact hold hc
  | opt old =>
    simp only [FieldMap.apply, dropNode] at hc
    split at hc
    · cases hc
    · exact hold hc
  | many old => exact hold hc

theorem mem_children_setList {ids : List NodeId} (h : c ∈ (k.setList f ids).children) :
    c ∈ ids ∨ c ∈ k.children := by
  obtain ⟨⟨g, child⟩, he, hc⟩ := mem_children_mapFields h
  have hold : c ∈ child.ids → c ∈ ids ∨ c ∈ k.children := fun hc =>
    .inr (List.mem_flatMap.mpr ⟨_, he, hc⟩)
  cases child with
  | one old => exact hold hc
  | opt old => exact hold hc
  | many old =>
    simp only [FieldMap.apply, putList] at hc
    split at hc
    · exact .inl hc
    · exact hold hc

end NodeKind

namespace Session

variable {k : NodeKind} {f : Field}

theorem knows_setNode (hk : s.Knows k) {id : NodeId} (hid : s.Knows id) :
    s.Knows (k.setNode f id) := fun c hc =>
  (NodeKind.mem_children_setNode hc).elim (fun h => h ▸ hid) (hk c)

theorem knows_clearNode (hk : s.Knows k) : s.Knows (k.clearNode f) := fun c hc =>
  hk c (NodeKind.mem_children_clearNode hc)

theorem knows_setList (hk : s.Knows k) {ids : List NodeId} (hids : s.Knows ids) :
    s.Knows (k.setList f ids) := fun c hc =>
  (NodeKind.mem_children_setList hc).elim (hids c) (hk c)

/-! ## Other trees -/

theorem extends_tree (h : s.tree.size ≤ t.size) : s.Extends { s with tree := t } :=
  ⟨h, Nat.le_refl _, Nat.le_refl _⟩

theorem Closed.of_tree (hs : s.Closed) (h : s.tree.size ≤ t.size) (ht : t.Closed) :
    Closed { s with tree := t } where
  tree := ht
  paths := hs.paths.of_same (extends_tree h) rfl rfl rfl
  scopes := hs.scopes.of_same (extends_tree h) rfl
  frames f hf := (extends_tree h).knows (hs.frames f hf)
  parser := hs.parser

end Session

namespace Tree.Closed

/-- A tree stays closed if its new nodes name what is there. -/
theorem of_kinds (h : t.Closed) (hsize : t.size ≤ t'.size) (hroot : t'.root = t.root)
    (hkinds : ∀ n k, t'.kind? n = some k → t.kind? n = some k ∨ ∀ c ∈ k.children, c.index < t'.size) :
    t'.Closed := by
  refine ⟨fun n hn => Nat.lt_of_lt_of_le (h.root n (hroot ▸ hn)) hsize, fun n k hk c hc => ?_⟩
  rcases hkinds n k hk with hold | hnew
  · exact Nat.lt_of_lt_of_le (h.children n k hold c hc) hsize
  · exact hnew c hc

theorem push (h : t.Closed) {node : Node} (hnode : ∀ c ∈ node.kind.children, c.index < t.size) :
    (t.push node).Closed := by
  refine h.of_kinds (by simp) rfl fun n k hk => ?_
  rw [kind?, node?_push] at hk
  split at hk
  · obtain rfl := Option.some.inj hk
    exact .inr fun c hc => by simpa using Nat.lt_succ_of_lt (hnode c hc)
  · exact .inl hk

theorem modify (h : t.Closed) {n : NodeId} {k : NodeKind} (hn : t.kind? n = some k)
    {f : Node → Node}
    (hf : ∀ node, t.node? n = some node → ∀ c ∈ (f node).kind.children, c.index < t.size) :
    (t.modify n f).Closed := by
  refine h.of_kinds (by simp) rfl fun m k hk => ?_
  rw [kind?, node?_modify] at hk
  split at hk
  · next hm =>
    subst hm
    obtain ⟨node', hnode', rfl⟩ := Option.map_eq_some_iff.mp hk
    obtain ⟨node, hnode, rfl⟩ := Option.map_eq_some_iff.mp hnode'
    exact .inr fun c hc => by simpa using hf node hnode c hc
  · exact .inl hk

theorem alike (h : t.Closed) (ha : t.Alike t') : t'.Closed :=
  h.of_kinds ha.size.ge ha.root fun n _ hk => .inl (by rwa [← ha.kind n])

end Tree.Closed

namespace Careful

/-- Building on the tree, if it succeeds and leaves a closed tree. -/
theorem onTree [Names α] {build : TreeM α}
    (h : s.Closed → ∃ a t', build.run s.tree = some (a, t') ∧ s.tree.size ≤ t'.size ∧ t'.Closed ∧
      Session.Knows { s with tree := t' } a) : Careful (onTree build) s := by
  intro hs
  obtain ⟨a, t', hrun, hsize, ht', ha⟩ := h hs
  rw [onTree_run hrun]
  exact ⟨Session.extends_tree hsize, hs.of_tree hsize ht', ha⟩

theorem alloc {k : NodeKind} (hk : s.Knows k) : Careful (SessionM.onTree (TreeM.alloc k)) s :=
  onTree fun hs => ⟨⟨s.tree.size⟩, _, rfl, by simp, hs.tree.push hk,
    show s.tree.size < (s.tree.push _).size by simp⟩

/-- A new block. -/
theorem block {ids : List NodeId} (hids : s.Knows ids) :
    Careful (SessionM.onTree (TreeM.block ids)) s :=
  alloc fun c hc => hids c (by simpa [NodeKind.children, NodeKind.fields, Child.ids] using hc)

theorem identifier (name : String) : Careful (SessionM.onTree (TreeM.identifier name)) s :=
  alloc fun c hc => by simp [NodeKind.children, NodeKind.fields] at hc

theorem assign {id value : NodeId} (hid : s.Knows id) (hvalue : s.Knows value) :
    Careful (SessionM.onTree (TreeM.assign id value)) s := by
  refine alloc fun c hc => ?_
  simp only [NodeKind.children, NodeKind.fields, Child.ids, List.flatMap_cons, List.flatMap_nil,
    List.append_nil, List.singleton_append, List.mem_cons, List.not_mem_nil, or_false] at hc
  rcases hc with rfl | rfl
  · exact hid
  · exact hvalue

/-- Changing the kind of a node. -/
theorem modifyKind {n : NodeId} {f : NodeKind → NodeKind} (hn : s.Knows n)
    (hf : ∀ k, s.tree.kind? n = some k → s.Knows k → s.Knows (f k)) :
    Careful (modifyKind n f) s := by
  intro hs
  obtain ⟨k, hk, hknown⟩ := hs.exists_kind hn
  rw [modifyKind_run hk]
  have hsize : s.tree.size ≤ (s.tree.modify n fun node => { node with kind := f node.kind }).size := by
    simp
  refine ⟨Session.extends_tree hsize, hs.of_tree hsize (hs.tree.modify hk fun node hnode => ?_), trivial⟩
  have hkind : s.tree.kind? n = some node.kind := Option.map_eq_some_iff.mpr ⟨node, hnode, rfl⟩
  exact hf node.kind hkind (hs.tree.children n _ hkind)

/-- Work on comments. -/
theorem decorate {x : TreeM Unit} (h : s.Closed → x.Decorates s.tree) :
    Careful (SessionM.onTree x) s := by
  refine onTree fun hs => ?_
  obtain ⟨t', hrun, ha⟩ := h hs
  exact ⟨(), t', hrun, ha.size.ge, hs.tree.alike ha, trivial⟩

section Comments

variable {heir donor : NodeId} (hheir : s.Knows heir)

include hheir

theorem removeComments : Careful (SessionM.onTree (TreeM.removeComments heir)) s :=
  decorate fun _ => TreeM.decorates_removeComments ((s.tree.kind?_isSome_iff heir).mpr hheir)

theorem inheritComments (hdonor : s.Knows donor) :
    Careful (SessionM.onTree (TreeM.inheritComments heir donor)) s :=
  decorate fun _ => TreeM.decorates_inheritComments ((s.tree.kind?_isSome_iff heir).mpr hheir)
    ((s.tree.kind?_isSome_iff donor).mpr hdonor)

theorem inheritLeading (hdonor : s.Knows donor) :
    Careful (SessionM.onTree (TreeM.inheritLeading heir donor)) s :=
  decorate fun _ => TreeM.decorates_inheritLeading ((s.tree.kind?_isSome_iff heir).mpr hheir)
    ((s.tree.kind?_isSome_iff donor).mpr hdonor)

theorem inheritTrailing (hdonor : s.Knows donor) :
    Careful (SessionM.onTree (TreeM.inheritTrailing heir donor)) s :=
  decorate fun _ => TreeM.decorates_inheritTrailing ((s.tree.kind?_isSome_iff heir).mpr hheir)
    ((s.tree.kind?_isSome_iff donor).mpr hdonor)

end Comments

end Careful

/-! ## Building from what is below -/

/-- If the computation succeeds on a closed tree it leaves a closed one that is no smaller, and `post`
holds of its value and the size of that tree. -/
def TreeM.Stays (x : TreeM α) (t : Tree) (post : α → Nat → Prop) : Prop :=
  t.Closed → ∀ a t', x.run t = some (a, t') → t'.Closed ∧ t.size ≤ t'.size ∧ post a t'.size

namespace TreeM.Stays

variable {x : TreeM α} {f : α → TreeM β} {post : α → Nat → Prop} {post' : β → Nat → Prop}

theorem pure {a : α} (h : post a t.size) : Stays (pure a) t post := by
  intro ht b t' hrun
  obtain ⟨rfl, rfl⟩ := Prod.mk.inj (Option.some.inj hrun)
  exact ⟨ht, Nat.le_refl _, h⟩

theorem bind (hx : x.Stays t post)
    (hf : ∀ a t', t.size ≤ t'.size → post a t'.size → (f a).Stays t' post') :
    (x >>= f).Stays t post' := by
  intro ht b t' hrun
  rw [StateT.run_bind] at hrun
  obtain ⟨⟨a, t₁⟩, hx₁, hf₁⟩ := Option.bind_eq_some_iff.mp hrun
  obtain ⟨ht₁, hsize, ha⟩ := hx ht a t₁ hx₁
  obtain ⟨ht', hsize', hb⟩ := hf a t₁ hsize ha ht₁ b t' hf₁
  exact ⟨ht', hsize.trans hsize', hb⟩

/-- Going through a list, where `inv` holds on the way. -/
theorem foldlM {γ : Type} {f : β → γ → TreeM β} (inv : β → Nat → Prop) {l : List γ} {b : β}
    (hb : inv b t.size)
    (hf : ∀ c ∈ l, ∀ b t', t.size ≤ t'.size → inv b t'.size → (f b c).Stays t' inv) :
    (l.foldlM f b).Stays t inv := by
  induction l generalizing t b with
  | nil => exact pure hb
  | cons c l ih =>
    rw [List.foldlM_cons]
    refine (hf c (by simp) b t (Nat.le_refl _) hb).bind fun b' t₁ h₁ hb' => ih hb' ?_
    exact fun c' hc' b t' h => hf c' (by simp [hc']) b t' (h₁.trans h)

/-- Doing the same with every element of a list. -/
theorem mapM {f : α → TreeM NodeId} {l : List α}
    (hf : ∀ a ∈ l, ∀ t', (f a).Stays t' fun id n => id.index < n) :
    (l.mapM f).Stays t fun ids n => ∀ id ∈ ids, id.index < n := by
  induction l generalizing t with
  | nil => exact pure (by simp)
  | cons a l ih =>
    rw [List.mapM_cons]
    refine (hf a (by simp) t).bind fun id t₁ _ hid => ?_
    refine (ih fun a ha => hf a (by simp [ha])).bind fun ids t₂ h₂ hids => pure ?_
    exact List.forall_mem_cons.mpr ⟨Nat.lt_of_lt_of_le hid h₂, hids⟩

theorem node (n : NodeId) :
    (TreeM.node n).Stays t fun node size => ∀ c ∈ node.kind.children, c.index < size := by
  intro ht a t' hrun
  cases hn : t.node? n with
  | none => simp [TreeM.node, hn] at hrun
  | some node =>
    rw [node_run hn] at hrun
    obtain ⟨rfl, rfl⟩ := Prod.mk.inj (Option.some.inj hrun)
    exact ⟨ht, Nat.le_refl _, ht.children n _ (Option.map_eq_some_iff.mpr ⟨node, hn, rfl⟩)⟩

theorem allocNode {node : Node} (h : ∀ c ∈ node.kind.children, c.index < t.size) :
    (TreeM.allocNode node).Stays t fun id n => id.index < n := by
  intro ht a t' hrun
  obtain ⟨rfl, rfl⟩ := Prod.mk.inj (Option.some.inj hrun)
  exact ⟨ht.push h, by simp, by simp⟩

/-! ### Copies -/

theorem copyField {copy : NodeId → TreeM NodeId} (hcopy : ∀ id t', (copy id).Stays t' fun id n => id.index < n)
    {k : NodeKind} (hk : ∀ c ∈ k.children, c.index < t.size) (e : Field × Child) :
    (TreeM.copyField copy k e).Stays t fun k n => ∀ c ∈ k.children, c.index < n := by
  obtain ⟨f, child⟩ := e
  have hone : ∀ id, (do Pure.pure (k.setNode f (← copy id)) : TreeM NodeKind).Stays t
      fun k n => ∀ c ∈ k.children, c.index < n := by
    intro id
    refine (hcopy id t).bind fun id' t₁ h₁ hid' => pure fun c hc => ?_
    rcases NodeKind.mem_children_setNode hc with rfl | hc
    · exact hid'
    · exact Nat.lt_of_lt_of_le (hk c hc) h₁
  cases child with
  | one id => exact hone id
  | opt o =>
    cases o with
    | none => exact pure hk
    | some id => exact hone id
  | many ids =>
    refine (mapM fun id _ t' => hcopy id t').bind fun ids' t₁ h₁ hids' => pure fun c hc => ?_
    rcases NodeKind.mem_children_setList hc with hc | hc
    · exact hids' c hc
    · exact Nat.lt_of_lt_of_le (hk c hc) h₁

theorem copyWithin (fuel : Nat) (n : NodeId) :
    (TreeM.copyWithin fuel n).Stays t fun id n => id.index < n := by
  induction fuel generalizing n t with
  | zero => intro _ a t' hrun; cases hrun
  | succ fuel ih =>
    refine (node n).bind fun old t₁ _ hold => ?_
    refine (foldlM (fun (k : NodeKind) n => ∀ c ∈ k.children, c.index < n) hold
      fun e _ k t₂ _ hk => ?_).bind fun k t₂ _ hk => allocNode hk
    exact copyField (fun id t' => ih id) hk e

theorem deepClone (n : NodeId) : (TreeM.deepClone n).Stays t fun id n => id.index < n :=
  fun ht a t' hrun => copyWithin t.depthBound n ht a t' hrun

end TreeM.Stays

end Espalier
