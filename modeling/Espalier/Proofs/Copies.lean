import Espalier.Proofs.Closure
import Espalier.Proofs.Reduction
import Espalier.Proofs.Renaming
import Espalier.Proofs.Tours

set_option autoImplicit false

/-! # Copies of subtrees

Everything that stands below a node, written out by value, is its `Unfolding`: a node that stands at
several places is written out at each of them. The copy of a node has the unfolding of the original,
is made of new nodes, and each of these but its top stands at exactly one position, unless an old
node named an id before a node had it (`deepClone_copies`, `strayTree_shares`). What is printed depends on the ids of nodes only through the question which of
them are the same, so the copy of a tree is printed as the tree is (`Tree.Renames.printWithin`). -/

namespace Espalier

/-! ## Unfoldings -/

/-- A node with all that stands below it, by value: its husk and the unfoldings of its children,
in visiting order. -/
inductive Unfolding where
  | node (content : Node) (below : List Unfolding)

mutual

/-- How many nodes an unfolding has, each counted at every place where it stands. -/
def Unfolding.size : Unfolding → Nat
  | .node _ below => Unfolding.sizeOfList below + 1

/-- How many nodes a list of unfoldings has. -/
def Unfolding.sizeOfList : List Unfolding → Nat
  | [] => 0
  | u :: us => u.size + Unfolding.sizeOfList us

end

theorem Unfolding.sizeOfList_append (us vs : List Unfolding) :
    Unfolding.sizeOfList (us ++ vs) = Unfolding.sizeOfList us + Unfolding.sizeOfList vs := by
  induction us with
  | nil => simp [sizeOfList]
  | cons u us ih => simp [sizeOfList, ih, Nat.add_assoc]

namespace Tree

/-- The unfolding of a node, at most `fuel` levels deep. -/
def unfoldWithin (t : Tree) : Nat → NodeId → Option Unfolding
  | 0, _ => none
  | fuel + 1, id => do
    let node ← t.node? id
    let below ← node.kind.children.mapM (t.unfoldWithin fuel)
    some (.node node.husk below)

/-- The unfolding of a node. -/
def unfolding? (t : Tree) (id : NodeId) : Option Unfolding := t.unfoldWithin t.depthBound id

end Tree

/-- In a list without repetitions an element is paired once. -/
theorem eq_of_mem_zip {α β : Type} {l : List α} {l' : List β} (hl : l.Nodup) {a : α} {b b' : β}
    (h : (a, b) ∈ l.zip l') (h' : (a, b') ∈ l.zip l') : b = b' := by
  obtain ⟨i, hi, heq⟩ := List.mem_iff_getElem.mp h
  obtain ⟨j, hj, heq'⟩ := List.mem_iff_getElem.mp h'
  obtain ⟨ha, rfl⟩ := Prod.mk.inj ((List.getElem_zip (h := hi)).symm.trans heq)
  obtain ⟨ha', rfl⟩ := Prod.mk.inj ((List.getElem_zip (h := hj)).symm.trans heq')
  obtain rfl := (hl.getElem_inj_iff).mp (ha.trans ha'.symm)
  rfl

theorem mapM_eq_some_iff_forall₂ {α β : Type} {f : α → Option β} {l : List α} {bs : List β} :
    l.mapM f = some bs ↔ List.Forall₂ (fun a b => f a = some b) l bs := by
  induction l generalizing bs with
  | nil => simp [eq_comm]
  | cons a l ih =>
    simp only [List.mapM_cons, Option.bind_eq_bind, Option.bind_eq_some_iff, Option.pure_def,
      Option.some.injEq, List.forall₂_cons_left_iff, ih]
    aesop

variable {t t' : Tree}

namespace Tree

theorem unfoldWithin_succ_eq_some {d : Nat} {n : NodeId} {u : Unfolding} :
    t.unfoldWithin (d + 1) n = some u ↔ ∃ node us, t.node? n = some node ∧
      List.Forall₂ (fun c v => t.unfoldWithin d c = some v) node.kind.children us ∧
      u = .node node.husk us := by
  rw [unfoldWithin]
  simp only [Option.bind_eq_bind, Option.bind_eq_some_iff, mapM_eq_some_iff_forall₂,
    Option.some.injEq]
  constructor
  · rintro ⟨node, hnode, us, hus, rfl⟩
    exact ⟨node, us, hnode, hus, rfl⟩
  · rintro ⟨node, us, hnode, hus, rfl⟩
    exact ⟨node, hnode, us, hus, rfl⟩

/-- More fuel and more nodes leave an unfolding as it is. -/
theorem Grown.unfoldWithin (h : t.Grown t') {d e : Nat} (hde : d ≤ e) {n : NodeId} {u : Unfolding}
    (hu : t.unfoldWithin d n = some u) : t'.unfoldWithin e n = some u := by
  induction d generalizing e n u with
  | zero => cases hu
  | succ d ih =>
    obtain ⟨e, rfl⟩ : ∃ e', e = e' + 1 := ⟨e - 1, by omega⟩
    obtain ⟨node, us, hnode, hus, rfl⟩ := unfoldWithin_succ_eq_some.mp hu
    have hcontains : t.contains n = true :=
      (t.contains_iff n).mpr ⟨node.kind, by simp [kind?, hnode]⟩
    exact unfoldWithin_succ_eq_some.mpr ⟨node, us, (h.node n hcontains).trans hnode,
      hus.imp fun _ _ => ih (by omega), rfl⟩

/-- Where the depth is bounded, everything can be written out. -/
theorem DepthWithin.exists_unfolding {d : Nat} {n : NodeId} (h : t.DepthWithin d n) :
    ∃ u, t.unfoldWithin d n = some u := by
  induction d generalizing n with
  | zero => exact h.elim
  | succ d ih =>
    obtain ⟨k, hk, hc⟩ := h
    obtain ⟨node, hnode, rfl⟩ := Option.map_eq_some_iff.mp hk
    have hall : ∀ l : List NodeId, (∀ c ∈ l, t.DepthWithin d c) →
        ∃ us, List.Forall₂ (fun c v => t.unfoldWithin d c = some v) l us := by
      intro l
      induction l with
      | nil => exact fun _ => ⟨[], .nil⟩
      | cons c l ihl =>
        intro hl
        obtain ⟨u, hu⟩ := ih (hl c (by simp))
        obtain ⟨us, hus⟩ := ihl fun c hc => hl c (by simp [hc])
        exact ⟨u :: us, .cons hu hus⟩
    obtain ⟨us, hus⟩ := hall _ hc
    exact ⟨_, unfoldWithin_succ_eq_some.mpr ⟨node, us, hnode, hus, rfl⟩⟩

theorem depthWithin_of_unfoldWithin {d : Nat} {n : NodeId} {u : Unfolding}
    (h : t.unfoldWithin d n = some u) : t.DepthWithin d n := by
  induction d generalizing n u with
  | zero => cases h
  | succ d ih =>
    obtain ⟨node, us, hnode, hus, -⟩ := unfoldWithin_succ_eq_some.mp h
    refine ⟨node.kind, by simp [kind?, hnode], fun c hc => ?_⟩
    obtain ⟨i, hi, rfl⟩ := List.mem_iff_getElem.mp hc
    obtain ⟨hlen, hget⟩ := List.forall₂_iff_get.mp hus
    exact ih (hget i hi (hlen ▸ hi))

/-! ## Trees at a node -/

theorem isChild_withRoot (root : Option NodeId) : { t with root }.IsChild = t.IsChild := by
  funext p n
  exact propext ((isChild_iff _ p n).trans (t.isChild_iff p n).symm)

theorem occupant?_withRoot {root : Option NodeId} {pos : Position} {p : NodeId}
    (hpos : pos.parent? = some p) : { t with root }.occupant? pos = t.occupant? pos := by
  cases pos <;> first | rfl | cases hpos

/-- What stands at and below the node is a tree: with the node as the root, each of the nodes is in
the arena and stands at one position. -/
def TreeAt (t : Tree) (n : NodeId) : Prop :=
  { t with root := some n }.Forest {m | Relation.ReflTransGen t.IsChild n m}

/-! ## New nodes -/

/-- The nodes of the arena from number `m` on. -/
def since (t : Tree) (m : Nat) : List NodeId := (List.range' m (t.size - m)).map NodeId.mk

theorem mem_since {m : Nat} {n : NodeId} : n ∈ t.since m ↔ m ≤ n.index ∧ n.index < t.size := by
  simp only [since, List.mem_map, List.mem_range'_1]
  constructor
  · rintro ⟨i, hi, rfl⟩
    show m ≤ i ∧ i < t.size
    omega
  · exact fun h => ⟨n.index, by omega, rfl⟩

theorem nodup_since (m : Nat) : (t.since m).Nodup :=
  List.Nodup.map (fun _ _ h => NodeId.mk.inj h) (List.nodup_range' _ (by omega))

/-- All children of the nodes from number `m` on. -/
def childrenSince (t : Tree) (m : Nat) : List NodeId :=
  (t.since m).flatMap fun n => (t.children? n).getD []

/-- The second tree has new nodes only. Each of them stands at exactly one position in a new node,
except for `tops`, which stand in none. -/
structure Planted (t t' : Tree) (tops : List NodeId) : Prop where
  grown : t.Grown t'
  perm : (t'.childrenSince t.size ++ tops).Perm (t'.since t.size)

theorem Grown.children? (h : t.Grown t') {n : NodeId} (hn : t.contains n = true) :
    t'.children? n = t.children? n := by
  rw [Tree.children?, Tree.children?, kind?, kind?, h.node n hn]

namespace Planted

variable {t₁ t₂ : Tree} {tops tops' : List NodeId}

theorem refl (t : Tree) : t.Planted t [] := ⟨.refl t, by simp [since, childrenSince]⟩

theorem trans (h : t.Planted t₁ tops) (h' : t₁.Planted t₂ tops') :
    t.Planted t₂ (tops ++ tops') := by
  have hle := h.grown.size
  have hle' := h'.grown.size
  have hsince : t₂.since t.size = t₁.since t.size ++ t₂.since t₁.size := by
    simp only [since, ← List.map_append]
    congr 1
    have := List.range'_append_1 (s := t.size) (m := t₁.size - t.size) (n := t₂.size - t₁.size)
    rw [show t.size + (t₁.size - t.size) = t₁.size by omega,
      show t₁.size - t.size + (t₂.size - t₁.size) = t₂.size - t.size by omega] at this
    exact this.symm
  have hold : (t₁.since t.size).flatMap (fun n => (t₂.children? n).getD []) =
      t₁.childrenSince t.size := by
    refine List.flatMap_congr fun n hn => ?_
    rw [h'.grown.children? (decide_eq_true (mem_since.mp hn).2)]
  refine ⟨h.grown.trans h'.grown, ?_⟩
  have hperm := List.perm_iff_count.mp h.perm
  have hperm' := List.perm_iff_count.mp h'.perm
  refine List.perm_iff_count.mpr fun n => ?_
  have hn := hperm n
  have hn' := hperm' n
  simp only [childrenSince, hsince, List.flatMap_append, hold, List.count_append] at hn hn' ⊢
  omega

/-- A node is made of the nodes that stand nowhere yet. -/
theorem push (h : t.Planted t' tops) {node : Node} (hnode : node.kind.children = tops) :
    t.Planted (t'.push node) [⟨t'.size⟩] := by
  have hle := h.grown.size
  have hsince : (t'.push node).since t.size = t'.since t.size ++ [⟨t'.size⟩] := by
    simp only [since, size_push]
    rw [show t'.size + 1 - t.size = t'.size - t.size + 1 by omega, List.range'_concat]
    simp only [List.map_append, List.map_cons, List.map_nil]
    rw [show t.size + 1 * (t'.size - t.size) = t'.size by omega]
  have hold : (t'.since t.size).flatMap (fun n => ((t'.push node).children? n).getD []) =
      t'.childrenSince t.size := by
    refine List.flatMap_congr fun n hn => ?_
    rw [(Grown.push t' node).children? (decide_eq_true (mem_since.mp hn).2)]
  have hnew : (t'.push node).children? ⟨t'.size⟩ = some tops := by
    simp [Tree.children?, kind?, node?_push, hnode]
  refine ⟨h.grown.trans (.push t' node), ?_⟩
  rw [childrenSince, hsince, List.flatMap_append, hold]
  simpa [hnew] using h.perm.append_right [⟨t'.size⟩]

end Planted

end Tree

/-! ## Copying -/

/-- Copies of what has the unfoldings `us` were made: they have these unfoldings again. -/
structure Tree.Copied (t : Tree) (d : Nat) (us : List Unfolding) (cs : List NodeId) (t' : Tree) :
    Prop where
  planted : t.Planted t' cs
  size : t'.size = t.size + Unfolding.sizeOfList us
  unfolds : List.Forall₂ (fun c u => t'.unfoldWithin d c = some u) cs us

theorem Tree.Copied.trans {d : Nat} {us us' : List Unfolding} {cs cs' : List NodeId} {t₁ t₂ : Tree}
    (h : t.Copied d us cs t₁) (h' : t₁.Copied d us' cs' t₂) :
    t.Copied d (us ++ us') (cs ++ cs') t₂ where
  planted := h.planted.trans h'.planted
  size := by rw [h'.size, h.size, Unfolding.sizeOfList_append, Nat.add_assoc]
  unfolds :=
    List.rel_append (h.unfolds.imp fun _ _ => h'.planted.grown.unfoldWithin le_rfl) h'.unfolds

/-- The computation copies everything that is at most `d` levels deep. -/
def CopiesTo (d : Nat) (copy : NodeId → TreeM NodeId) : Prop :=
  ∀ t n u, t.unfoldWithin d n = some u →
    ∃ c t', (copy n).run t = some (c, t') ∧ t.Copied d [u] [c] t'

namespace CopiesTo

variable {d : Nat} {copy : NodeId → TreeM NodeId}

theorem mapM (h : CopiesTo d copy) {ids : List NodeId} {us : List Unfolding}
    (hus : List.Forall₂ (fun n u => t.unfoldWithin d n = some u) ids us) :
    ∃ cs t', (ids.mapM copy).run t = some (cs, t') ∧ t.Copied d us cs t' := by
  induction ids generalizing t us with
  | nil =>
    cases hus
    exact ⟨[], t, rfl, .refl t, rfl, .nil⟩
  | cons n ids ih =>
    obtain ⟨u, us, hu, hrest, rfl⟩ := List.forall₂_cons_left_iff.mp hus
    obtain ⟨c, t₁, hrun, hc⟩ := h t n u hu
    obtain ⟨cs, t₂, hrun', hcs⟩ := ih (hrest.imp fun _ _ => hc.planted.grown.unfoldWithin le_rfl)
    refine ⟨c :: cs, t₂, ?_, hc.trans hcs⟩
    simp [List.mapM_cons, hrun, hrun']

/-- To copy what stands in one field gives the field other content of the same shape. -/
theorem copyField (h : CopiesTo d copy) {k : NodeKind} {f : Field} {c : Child}
    {before after : List (Field × Child)} (hk : k.fields = before ++ (f, c) :: after)
    {us : List Unfolding} (hus : List.Forall₂ (fun n u => t.unfoldWithin d n = some u) c.ids us) :
    ∃ k' c' t', (TreeM.copyField copy k (f, c)).run t = some (k', t') ∧
      k'.fields = before ++ (f, c') :: after ∧ k'.husk = k.husk ∧
      t.Copied d us c'.ids t' := by
  cases c with
  | one n =>
    obtain ⟨u, us, hu, hnil, rfl⟩ := List.forall₂_cons_left_iff.mp hus
    cases hnil
    obtain ⟨m, t', hrun, hm⟩ := h t n u hu
    have hg : ∀ f' c', f' ≠ f → (NodeKind.putNode f m).apply f' c' = c' := by
      rintro f' (_ | _ | _) hf <;> simp [FieldMap.apply, NodeKind.putNode, hf]
    refine ⟨k.setNode f m, .one m, t', by simp [TreeM.copyField, hrun], ?_, ?_, hm⟩
    · rw [NodeKind.setNode, NodeKind.fields_mapFields_split hk hg]
      simp [FieldMap.apply, NodeKind.putNode]
    · exact NodeKind.husk_mapFields_split hk hg
        (by simp [FieldMap.apply, Child.husk, Child.rename])
  | opt n? =>
    cases n? with
    | none =>
      cases hus
      exact ⟨k, .opt none, t, rfl, hk, rfl, .refl t, rfl, .nil⟩
    | some n =>
      obtain ⟨u, us, hu, hnil, rfl⟩ := List.forall₂_cons_left_iff.mp hus
      cases hnil
      obtain ⟨m, t', hrun, hm⟩ := h t n u hu
      have hg : ∀ f' c', f' ≠ f → (NodeKind.putNode f m).apply f' c' = c' := by
        rintro f' (_ | _ | _) hf <;> simp [FieldMap.apply, NodeKind.putNode, hf]
      refine ⟨k.setNode f m, .opt (some m), t', by simp [TreeM.copyField, hrun], ?_, ?_, hm⟩
      · rw [NodeKind.setNode, NodeKind.fields_mapFields_split hk hg]
        simp [FieldMap.apply, NodeKind.putNode]
      · exact NodeKind.husk_mapFields_split hk hg
          (by simp [FieldMap.apply, NodeKind.putNode, Child.husk, Child.rename])
  | many ids =>
    have hids : List.Forall₂ (fun n u => t.unfoldWithin d n = some u) ids us := hus
    obtain ⟨cs, t', hrun, hcs⟩ := h.mapM hids
    have hg : ∀ f' c', f' ≠ f → (NodeKind.putList f cs).apply f' c' = c' := by
      rintro f' (_ | _ | _) hf <;> simp [FieldMap.apply, NodeKind.putList, hf]
    have hlen : cs.length = ids.length := hcs.unfolds.length_eq.trans hus.length_eq.symm
    refine ⟨k.setList f cs, .many cs, t', by simp [TreeM.copyField, hrun], ?_, ?_, hcs⟩
    · rw [NodeKind.setList, NodeKind.fields_mapFields_split hk hg]
      simp [FieldMap.apply, NodeKind.putList]
    · exact NodeKind.husk_mapFields_split hk hg
        (by simp [FieldMap.apply, NodeKind.putList, Child.husk, Child.rename, hlen])

/-- To copy what stands in the fields, one after the other. -/
theorem copyFields (h : CopiesTo d copy) {es : List (Field × Child)} {us : List Unfolding}
    {k : NodeKind} {before : List (Field × Child)} (hk : k.fields = before ++ es)
    (hus : List.Forall₂ (fun n u => t.unfoldWithin d n = some u) (es.flatMap (·.2.ids)) us) :
    ∃ k' es' t', (es.foldlM (TreeM.copyField copy) k).run t = some (k', t') ∧
      k'.fields = before ++ es' ∧ k'.husk = k.husk ∧
      t.Copied d us (es'.flatMap (·.2.ids)) t' := by
  induction es generalizing t us k before with
  | nil =>
    cases hus
    exact ⟨k, [], t, rfl, hk, rfl, .refl t, rfl, .nil⟩
  | cons e es ih =>
    obtain ⟨f, c⟩ := e
    obtain ⟨us₁, us₂, hus₁, hus₂, rfl⟩ : ∃ us₁ us₂,
        List.Forall₂ (fun n u => t.unfoldWithin d n = some u) c.ids us₁ ∧
        List.Forall₂ (fun n u => t.unfoldWithin d n = some u) (es.flatMap (·.2.ids)) us₂ ∧
        us = us₁ ++ us₂ := by
      rw [List.flatMap_cons] at hus
      refine ⟨us.take c.ids.length, us.drop c.ids.length, ?_, ?_, (List.take_append_drop _ _).symm⟩
      · simpa using List.forall₂_take c.ids.length hus
      · simpa using List.forall₂_drop c.ids.length hus
    obtain ⟨k₁, c', t₁, hrun, hk₁, ho₁, hc⟩ := h.copyField hk hus₁
    have hk₁' : k₁.fields = (before ++ [(f, c')]) ++ es := by simpa using hk₁
    obtain ⟨k₂, es', t₂, hrun', hk₂, ho₂, hes⟩ := ih hk₁'
      (hus₂.imp fun _ _ => hc.planted.grown.unfoldWithin le_rfl)
    refine ⟨k₂, (f, c') :: es', t₂, ?_, by simpa using hk₂, ho₂.trans ho₁, ?_⟩
    · simp [List.foldlM_cons, hrun, hrun']
    · simpa using hc.trans hes

/-- The copy of a node: its own data around the copies of its children. -/
theorem succ (h : CopiesTo d (TreeM.copyWithin d)) :
    CopiesTo (d + 1) (TreeM.copyWithin (d + 1)) := by
  intro t n u hu
  obtain ⟨node, us, hnode, hus, rfl⟩ := Tree.unfoldWithin_succ_eq_some.mp hu
  obtain ⟨k, es, t₁, hrun, hk, ho, hes⟩ := h.copyFields
    (show node.kind.fields = [] ++ node.kind.fields from rfl) hus
  have hchildren : k.children = es.flatMap (·.2.ids) := by rw [NodeKind.children, hk]; rfl
  have hnode' : (TreeM.node n).run t = some (node, t) := by simp [TreeM.node, hnode]
  refine ⟨⟨t₁.size⟩, t₁.push { node with kind := k }, ?_, hes.planted.push hchildren, ?_, ?_⟩
  · simp [TreeM.copyWithin, hnode', hrun, TreeM.allocNode]
  · simp [Unfolding.size, Unfolding.sizeOfList, hes.size, Nat.add_assoc]
  · refine .cons (Tree.unfoldWithin_succ_eq_some.mpr ⟨{ node with kind := k }, us, ?_, ?_, ?_⟩) .nil
    · simp [Tree.node?_push]
    · rw [hchildren]
      exact hes.unfolds.imp fun _ _ => (Tree.Grown.push t₁ _).unfoldWithin le_rfl
    · show Unfolding.node { node with kind := node.kind.husk } us =
        .node { node with kind := k.husk } us
      rw [ho]

theorem copyWithin (d : Nat) : CopiesTo d (TreeM.copyWithin d) := by
  induction d with
  | zero => exact fun t n u hu => by cases hu
  | succ d ih => exact ih.succ

end CopiesTo

/-! ## Where the copies stand -/

namespace Tree.Planted

variable {c n : NodeId} {tops : List NodeId}

theorem nodup (h : t.Planted t' tops) : (t'.childrenSince t.size ++ tops).Nodup :=
  h.perm.nodup_iff.mpr (nodup_since _)

/-- What stands in a new node is new. -/
theorem child_new (h : t.Planted t' tops) {p : NodeId} (hp : t.size ≤ p.index)
    (hn : t'.IsChild p n) : n ∈ t'.childrenSince t.size ∧ t.size ≤ n.index := by
  obtain ⟨k, hk, hc⟩ := (t'.isChild_iff p n).mp hn
  have hmem : n ∈ t'.childrenSince t.size := List.mem_flatMap.mpr
    ⟨p, mem_since.mpr ⟨hp, (t'.kind?_isSome_iff p).mp ⟨k, hk⟩⟩, by simpa [children?, hk] using hc⟩
  exact ⟨hmem, (mem_since.mp (h.perm.mem_iff.mp (List.mem_append_left tops hmem))).1⟩

theorem below_new (h : t.Planted t' [c]) (hn : Relation.ReflTransGen t'.IsChild c n) :
    t.size ≤ n.index ∧ n.index < t'.size := by
  have hc : c ∈ t'.since t.size := h.perm.mem_iff.mp (by simp)
  induction hn with
  | refl => exact mem_since.mp hc
  | tail _ hchild ih =>
    have hmem := (h.child_new ih.1 hchild).1
    exact mem_since.mp (h.perm.mem_iff.mp (List.mem_append_left _ hmem))

/-- A new node other than the top stands in a new node. -/
theorem exists_position (h : t.Planted t' [c]) (hn : t.size ≤ n.index ∧ n.index < t'.size)
    (hne : n ≠ c) : ∃ pos p, pos.parent? = some p ∧ t.size ≤ p.index ∧
      t'.occupant? pos = some n := by
  have hmem := h.perm.mem_iff.mpr (mem_since.mpr hn)
  have hchild : n ∈ t'.childrenSince t.size := by simpa [hne] using hmem
  obtain ⟨p, hp, hnp⟩ := List.mem_flatMap.mp hchild
  obtain ⟨hle, hlt⟩ := mem_since.mp hp
  obtain ⟨k, hk⟩ := (t'.kind?_isSome_iff p).mpr hlt
  obtain ⟨pos, hpos, hocc⟩ := (t'.isChild_iff p n).mpr ⟨k, hk, by simpa [children?, hk] using hnp⟩
  exact ⟨pos, p, hpos, hle, hocc⟩

/-- A position outside the new nodes is occupied as before. -/
theorem occupant?_of_old (h : t.Planted t' tops) {pos : Position}
    (hpos : ∀ p, pos.parent? = some p → p.index < t.size) : t'.occupant? pos = t.occupant? pos := by
  have hkind : ∀ p, pos.parent? = some p → t'.kind? p = t.kind? p := fun p hp => by
    rw [kind?, kind?, h.grown.node p (decide_eq_true (hpos p hp))]
  cases pos with
  | root => exact h.grown.root
  | slot p f => simp only [occupant?, field?, hkind p rfl]
  | item p f i => simp only [occupant?, list?, field?, hkind p rfl]

/-- A new node stands at no two positions in new nodes. -/
theorem position_unique (h : t.Planted t' tops) {pos pos' : Position} {p p' : NodeId}
    (hpos : pos.parent? = some p) (hpos' : pos'.parent? = some p') (hp : t.size ≤ p.index)
    (hp' : t.size ≤ p'.index) (hn : t'.occupant? pos = some n) (hn' : t'.occupant? pos' = some n) :
    pos = pos' := by
  obtain ⟨k, hk, hnk⟩ := (t'.isChild_iff p n).mp ⟨pos, hpos, hn⟩
  obtain ⟨k', hk', hnk'⟩ := (t'.isChild_iff p' n).mp ⟨pos', hpos', hn'⟩
  have hmem : p ∈ t'.since t.size := mem_since.mpr ⟨hp, (t'.kind?_isSome_iff p).mp ⟨k, hk⟩⟩
  have hmem' : p' ∈ t'.since t.size := mem_since.mpr ⟨hp', (t'.kind?_isSome_iff p').mp ⟨k', hk'⟩⟩
  have hnodup := (List.nodup_append.mp h.nodup).1
  obtain rfl : p = p' := eq_of_nodup_flatMap hnodup hmem hmem' (by simpa [children?, hk] using hnk)
    (by simpa [children?, hk'] using hnk')
  have hchildren : k.children.Nodup := by
    simpa [children?, hk] using (List.nodup_flatMap.mp hnodup).1 p hmem
  exact position_unique_of_nodup hchildren hk hpos hpos' hn hn'

/-- The top stands in no new node. -/
theorem top_not_child (h : t.Planted t' [c]) {p : NodeId} (hp : t.size ≤ p.index) :
    ¬ t'.IsChild p c := fun hc => by
  have hdisjoint := (List.nodup_append.mp h.nodup).2.2
  exact hdisjoint c (h.child_new hp hc).1 c (by simp) rfl

/-- With the copy as its root, the arena holds a tree. -/
theorem forest (h : t.Planted t' [c]) {d : Nat} (hd : t'.DepthWithin d c) :
    t'.TreeAt c where
  kind n hn := (t'.kind?_isSome_iff n).mpr (h.below_new hn).2
  closed pos n hw hn := by
    cases hpos : pos.parent? with
    | none =>
      cases pos with
      | root => exact Option.some.inj hn ▸ .refl
      | slot | item => cases hpos
    | some p =>
      rw [occupant?_withRoot hpos] at hn
      exact (hw p hpos).tail ⟨pos, hpos, hn⟩
  single pos pos' n hw hw' hn hn' := by
    have hroot : ∀ pos' : Position, pos'.Within {n | Relation.ReflTransGen t'.IsChild c n} →
        { t' with root := some c }.occupant? pos' = some c → pos' = .root := by
      intro pos' hw' hn'
      cases hpos' : pos'.parent? with
      | none => cases pos' <;> first | rfl | cases hpos'
      | some p' =>
        rw [occupant?_withRoot hpos'] at hn'
        exact absurd ⟨pos', hpos', hn'⟩ (h.top_not_child (h.below_new (hw' p' hpos')).1)
    cases hpos : pos.parent? with
    | none =>
      obtain rfl : pos = .root := by cases pos <;> first | rfl | cases hpos
      obtain rfl : c = n := Option.some.inj hn
      exact (hroot pos' hw' hn').symm
    | some p =>
      cases hpos' : pos'.parent? with
      | none =>
        obtain rfl : pos' = .root := by cases pos' <;> first | rfl | cases hpos'
        obtain rfl : c = n := Option.some.inj hn'
        exact hroot pos hw hn
      | some p' =>
        rw [occupant?_withRoot hpos] at hn
        rw [occupant?_withRoot hpos'] at hn'
        exact h.position_unique hpos hpos' (h.below_new (hw p hpos)).1
          (h.below_new (hw' p' hpos')).1 hn hn'
  acyclic n hn := by
    rw [isChild_withRoot]
    exact (hd.down hn).not_transGen

end Tree.Planted

/-! ## Trees with the same unfolding -/

/-- The nodes that stand at the same places below two nodes. -/
inductive Tree.Matches (t t' : Tree) (r r' : NodeId) : NodeId → NodeId → Prop
  | top : Matches t t' r r' r r'
  | child {p p' n n' : NodeId} {k k' : NodeKind} : Matches t t' r r' p p' → t.kind? p = some k →
    t'.kind? p' = some k' → (n, n') ∈ k.children.zip k'.children → Matches t t' r r' n n'

namespace Tree.Matches

variable {r r' n n' m' : NodeId}

theorem symm (h : t.Matches t' r r' n n') : t'.Matches t r' r n' n := by
  induction h with
  | top => exact .top
  | child _ hk hk' hmem ih =>
    refine ih.child hk' hk ?_
    rw [← List.zip_swap]
    exact List.mem_map.mpr ⟨_, hmem, rfl⟩

theorem reaches (h : t.Matches t' r r' n n') : Relation.ReflTransGen t.IsChild r n := by
  induction h with
  | top => exact .refl
  | child _ hk _ hmem ih =>
    exact ih.tail ((t.isChild_iff _ _).mpr ⟨_, hk, (List.of_mem_zip hmem).1⟩)

/-- In a tree a node stands at one place, so it has one partner. -/
theorem unique (hF : t.TreeAt r) (h : t.Matches t' r r' n n') (h' : t.Matches t' r r' n m') :
    n' = m' := by
  have htop : ∀ {p k}, Relation.ReflTransGen t.IsChild r p → t.kind? p = some k →
      r ∉ k.children := by
    intro p k hp hk hmem
    obtain ⟨pos, hpos, hocc⟩ := (t.isChild_iff p r).mpr ⟨k, hk, hmem⟩
    have hrp : Relation.TransGen t.IsChild r r := .tail' hp ⟨pos, hpos, hocc⟩
    exact hF.acyclic r .refl (by rwa [isChild_withRoot])
  induction h generalizing m' with
  | top =>
    cases h' with
    | top => rfl
    | child hp hk _ hmem => exact absurd (List.of_mem_zip hmem).1 (htop hp.reaches hk)
  | @child p p' n n' k k' hp hk hk' hmem ih =>
    cases h' with
    | top => exact absurd (List.of_mem_zip hmem).1 (htop hp.reaches hk)
    | @child q q' _ _ l l' hq hl hl' hmem' =>
      obtain rfl : p = q := by
        refine hF.parent_unique (hp.reaches) (hq.reaches) (n := n) ?_ ?_ <;> rw [isChild_withRoot]
        · exact (t.isChild_iff _ _).mpr ⟨_, hk, (List.of_mem_zip hmem).1⟩
        · exact (t.isChild_iff _ _).mpr ⟨_, hl, (List.of_mem_zip hmem').1⟩
      obtain rfl := ih hq
      obtain rfl := Option.some.inj (hk.symm.trans hl)
      obtain rfl := Option.some.inj (hk'.symm.trans hl')
      exact eq_of_mem_zip (hF.nodup_children hp.reaches hk) hmem hmem'

/-- Partners have the same unfolding. -/
theorem unfolding (h : t.Matches t' r r' n n') {d d' : Nat} {u : Unfolding}
    (hu : t.unfoldWithin d r = some u) (hu' : t'.unfoldWithin d' r' = some u) :
    ∃ d d' v, t.unfoldWithin d n = some v ∧ t'.unfoldWithin d' n' = some v := by
  induction h with
  | top => exact ⟨d, d', u, hu, hu'⟩
  | @child p p' n n' k k' _ hk hk' hmem ih =>
    obtain ⟨d, d', v, hv, hv'⟩ := ih
    obtain ⟨d, rfl⟩ : ∃ i, d = i + 1 := Nat.exists_eq_succ_of_ne_zero (by rintro rfl; cases hv)
    obtain ⟨d', rfl⟩ : ∃ i, d' = i + 1 := Nat.exists_eq_succ_of_ne_zero (by rintro rfl; cases hv')
    obtain ⟨node, us, hnode, hus, rfl⟩ := unfoldWithin_succ_eq_some.mp hv
    obtain ⟨node', us', hnode', hus', heq⟩ := unfoldWithin_succ_eq_some.mp hv'
    obtain ⟨-, rfl⟩ := Unfolding.node.inj heq
    obtain rfl : node.kind = k := by simpa [kind?, hnode] using hk
    obtain rfl : node'.kind = k' := by simpa [kind?, hnode'] using hk'
    obtain ⟨i, hi, hzip⟩ := List.mem_iff_getElem.mp hmem
    obtain ⟨rfl, rfl⟩ := Prod.mk.inj ((List.getElem_zip (h := hi)).symm.trans hzip)
    obtain ⟨hlen, hget⟩ := List.forall₂_iff_get.mp hus
    obtain ⟨hlen', hget'⟩ := List.forall₂_iff_get.mp hus'
    simp only [List.length_zip, lt_min_iff] at hi
    exact ⟨d, d', us.get ⟨i, hlen ▸ hi.1⟩, hget i hi.1 (hlen ▸ hi.1), hget' i hi.2 (hlen' ▸ hi.2)⟩

end Tree.Matches

/-- Trees with the same unfolding are the same up to the ids of their nodes. -/
theorem Tree.TreeAt.exists_renaming {r r' : NodeId} (h : t.TreeAt r) (h' : t'.TreeAt r')
    {d d' : Nat} {u : Unfolding} (hu : t.unfoldWithin d r = some u)
    (hu' : t'.unfoldWithin d' r' = some u) :
    ∃ φ, t.Renames t' φ {n | Relation.ReflTransGen t.IsChild r n} ∧ φ r = r' := by
  classical
  have hnodes : ∀ n n', t.Matches t' r r' n n' → ∃ node node', t.node? n = some node ∧
      t'.node? n' = some node' ∧ node.husk = node'.husk ∧
      node.kind.children.length = node'.kind.children.length := by
    intro n n' hm
    obtain ⟨d, d', v, hv, hv'⟩ := hm.unfolding hu hu'
    obtain ⟨d, rfl⟩ : ∃ i, d = i + 1 := Nat.exists_eq_succ_of_ne_zero (by rintro rfl; cases hv)
    obtain ⟨d', rfl⟩ : ∃ i, d' = i + 1 := Nat.exists_eq_succ_of_ne_zero (by rintro rfl; cases hv')
    obtain ⟨node, us, hnode, hus, rfl⟩ := unfoldWithin_succ_eq_some.mp hv
    obtain ⟨node', us', hnode', hus', heq⟩ := unfoldWithin_succ_eq_some.mp hv'
    obtain ⟨hhusk, rfl⟩ := Unfolding.node.inj heq
    exact ⟨node, node', hnode, hnode', hhusk, hus.length_eq.trans hus'.length_eq.symm⟩
  have hpartner : ∀ n, Relation.ReflTransGen t.IsChild r n → ∃ n', t.Matches t' r r' n n' := by
    intro n hn
    induction hn with
    | refl => exact ⟨r', .top⟩
    | @tail p n _ hchild ih =>
      obtain ⟨p', hp'⟩ := ih
      obtain ⟨k, hk, hmem⟩ := (t.isChild_iff p n).mp hchild
      obtain ⟨node, node', hnode, hnode', -, hlen⟩ := hnodes p p' hp'
      obtain rfl : node.kind = k := by simpa [kind?, hnode] using hk
      have hk' : t'.kind? p' = some node'.kind := by simp [kind?, hnode']
      obtain ⟨i, hi, rfl⟩ := List.mem_iff_getElem.mp hmem
      exact ⟨node'.kind.children.get ⟨i, hlen ▸ hi⟩, hp'.child hk hk'
        (List.mem_iff_getElem.mpr ⟨i, by simp [hi, ← hlen], by simp⟩)⟩
  choose! φ hφ using hpartner
  refine ⟨φ, ⟨fun n hn => ?_,
    fun n hn k hk c hc => hn.tail ((t.isChild_iff n c).mpr ⟨k, hk, hc⟩), ?_⟩,
    (hφ r .refl).unique h .top⟩
  · obtain ⟨node, node', hnode, hnode', hhusk, hlen⟩ := hnodes n _ (hφ n hn)
    refine ⟨node, hnode, ?_⟩
    rw [hnode']
    refine congrArg some (Node.ext_children (by rw [Node.husk_rename, hhusk]) ?_)
    refine List.ext_getElem (by simp [Node.rename, hlen]) fun i hi hi' => ?_
    have hk : t.kind? n = some node.kind := by simp [kind?, hnode]
    have hk' : t'.kind? (φ n) = some node'.kind := by simp [kind?, hnode']
    have hi'' : i < node.kind.children.length := hlen ▸ hi
    have hchild : t.Matches t' r r' (node.kind.children[i]) (node'.kind.children[i]) :=
      (hφ n hn).child hk hk' (List.mem_iff_getElem.mpr ⟨i, by simp [hi, hi''], by simp⟩)
    simpa [Node.rename] using hchild.unique h (hφ _ hchild.reaches)
  · intro n hn m hm heq
    exact (hφ n hn).symm.unique h' (heq ▸ (hφ m hm).symm)


/-! ## What a copy is -/

/-- A node is copied when everything at and below it is in the arena and nothing there stands below
itself; it may stand at several places. The old nodes stay as they are; there is a new node for each
node of the unfolding, and the copy has the same unfolding. Whatever is at or below the copy is new
and, except for the copy itself, stands at exactly one position where it did not stand before. In an
arena whose nodes name no id that no node has, it stands at no other one. Where the original is a
tree, so is the copy, and they have the same text. -/
theorem deepClone_copies {n : NodeId}
    (hallocated : ∀ m, Relation.ReflTransGen t.IsChild n m → t.contains m = true)
    (hacyclic : t.Acyclic {m | Relation.ReflTransGen t.IsChild n m}) :
    ∃ c t' u, (TreeM.deepClone n).run t = some (c, t') ∧ t.Grown t' ∧
      t.unfolding? n = some u ∧ t'.unfolding? c = some u ∧ t'.size = t.size + u.size ∧
      (∀ m, Relation.ReflTransGen t'.IsChild c m → t.size ≤ m.index ∧ (m ≠ c →
        ∃! pos, t'.occupant? pos = some m ∧ t.occupant? pos ≠ some m)) ∧
      (t.Closed → ∀ m, Relation.ReflTransGen t'.IsChild c m → m ≠ c →
        ∃! pos, t'.occupant? pos = some m) ∧
      (t.TreeAt n → t'.TreeAt c ∧ ∃ text, t.nodeText? n = some text ∧
        t'.nodeText? c = some text) := by
  have hdepth : t.DepthWithin t.size n := hacyclic.depthWithin
    (fun m hm => (t.contains_iff m).mp (hallocated m hm)) (fun p hp m hm => hp.tail hm) .refl
  obtain ⟨u, hu⟩ := (hdepth.mono (Nat.le_add_right t.size 2)).exists_unfolding
  obtain ⟨c, t', hrun, hcopied⟩ := CopiesTo.copyWithin t.depthBound t n u hu
  obtain ⟨hplanted, hsize, hunfolds⟩ := hcopied
  have hsize' : t'.size = t.size + u.size := by simpa [Unfolding.sizeOfList] using hsize
  have hbound : t.depthBound ≤ t'.depthBound := by simp only [Tree.depthBound]; omega
  have hu' : t'.unfoldWithin t.depthBound c = some u := by simpa using hunfolds
  -- A new node stands below a new one. In all other positions is what was there before.
  have hposition : ∀ m, Relation.ReflTransGen t'.IsChild c m → m ≠ c →
      ∃! pos, t'.occupant? pos = some m ∧ t.occupant? pos ≠ some m := by
    intro m hm hne
    obtain ⟨pos, p, hpos, hp, hocc⟩ := hplanted.exists_position (hplanted.below_new hm) hne
    refine ⟨pos, ⟨hocc, fun hold => ?_⟩, ?_⟩
    · obtain ⟨k, hk, -⟩ := (t.isChild_iff p m).mp ⟨pos, hpos, hold⟩
      exact absurd ((t.kind?_isSome_iff p).mp ⟨k, hk⟩) (Nat.not_lt.mpr hp)
    · rintro pos' ⟨hocc', hfresh⟩
      by_cases hnew : ∃ p', pos'.parent? = some p' ∧ t.size ≤ p'.index
      · obtain ⟨p', hpos', hp'⟩ := hnew
        exact hplanted.position_unique hpos' hpos hp' hp hocc' hocc
      · refine absurd ((hplanted.occupant?_of_old fun p' hpos' => ?_).symm.trans hocc') hfresh
        exact Nat.lt_of_not_le fun hle => hnew ⟨p', hpos', hle⟩
  refine ⟨c, t', u, ?_, hplanted.grown, hu, (Tree.Grown.refl t').unfoldWithin hbound hu', hsize',
    fun m hm => ⟨(hplanted.below_new hm).1, hposition m hm⟩, fun hclosed m hm hne => ?_,
    fun htree => ?_⟩
  · simp [TreeM.deepClone, hrun]
  · have hfresh : ∀ pos, t.occupant? pos ≠ some m := fun pos hocc =>
      absurd (hclosed.index_lt_of_occupant hocc) (Nat.not_lt.mpr (hplanted.below_new hm).1)
    obtain ⟨pos, ⟨hocc, -⟩, hunique⟩ := hposition m hm hne
    exact ⟨pos, hocc, fun pos' hocc' => hunique pos' ⟨hocc', hfresh pos'⟩⟩
  · have hcopy := hplanted.forest (Tree.depthWithin_of_unfoldWithin hu')
    obtain ⟨φ, hφ, rfl⟩ := htree.exists_renaming hcopy hu hu'
    exact ⟨hcopy, hφ.printWithin .refl (by simp) (hdepth.mono (Nat.le_add_right t.size 2)) le_rfl
      hbound le_rfl hbound⟩

/-- The call `x(x)`, whose callee and argument are one node. -/
def sharedCall : Tree where
  nodes := #[⟨.identifier "x" none, [], [], [], none⟩,
    ⟨.callExpression ⟨0⟩ [⟨0⟩], [], [], [], none⟩]

/-- The call written out, with the name at both places. -/
def sharedCallWritten : Unfolding :=
  .node ⟨.callExpression ⟨0⟩ [⟨0⟩], [], [], [], none⟩
    [.node ⟨.identifier "x" none, [], [], [], none⟩ [],
      .node ⟨.identifier "x" none, [], [], [], none⟩ []]

/-- The copy of the call has three nodes. Its callee and its argument are different ones, each at one
position. -/
theorem sharedCall_copies : ∃ c t', (TreeM.deepClone ⟨1⟩).run sharedCall = some (c, t') ∧
    t'.unfolding? c = some sharedCallWritten ∧ t'.size = 5 ∧
    ∀ m, Relation.ReflTransGen t'.IsChild c m → m ≠ c → ∃! pos, t'.occupant? pos = some m := by
  have hdepth : sharedCall.DepthWithin 2 ⟨1⟩ :=
    Tree.depthWithin_of_unfoldWithin (u := sharedCallWritten) rfl
  obtain ⟨c, t', u, hrun, -, hu, hu', hsize, -, hsingle, -⟩ := deepClone_copies (t := sharedCall)
    (n := ⟨1⟩) (fun m hm => (Tree.contains_iff _ m).mpr (hdepth.down hm).kind)
    (fun m hm => (hdepth.down hm).not_transGen)
  obtain rfl : sharedCallWritten = u := Option.some.inj hu
  exact ⟨c, t', hrun, hu', hsize, hsingle (.of_nodes (by decide) (by decide))⟩

/-- The program `x;`, and beside it a statement whose expression has no node yet. -/
def strayTree : Tree where
  nodes := #[⟨.identifier "x" none, [], [], [], none⟩, ⟨.expressionStatement ⟨0⟩, [], [], [], none⟩,
    ⟨.program [⟨1⟩] [], [], [], [], none⟩, ⟨.expressionStatement ⟨4⟩, [], [], [], none⟩]
  root := some ⟨2⟩

/-- When the statement of the program is copied, the copy of the name has the id that the other
statement names, and stands at two positions. -/
theorem strayTree_shares :
    (∀ m, Relation.ReflTransGen strayTree.IsChild ⟨1⟩ m → strayTree.contains m = true) ∧
    strayTree.Acyclic {m | Relation.ReflTransGen strayTree.IsChild ⟨1⟩ m} ∧
    ∃ c t' m, (TreeM.deepClone ⟨1⟩).run strayTree = some (c, t') ∧
      Relation.ReflTransGen t'.IsChild c m ∧ m ≠ c ∧ ¬ ∃! pos, t'.occupant? pos = some m := by
  have hdepth : strayTree.DepthWithin 2 ⟨1⟩ :=
    Tree.depthWithin_of_unfoldWithin (u := .node ⟨.expressionStatement ⟨0⟩, [], [], [], none⟩
      [.node ⟨.identifier "x" none, [], [], [], none⟩ []]) rfl
  refine ⟨fun m hm => (Tree.contains_iff _ m).mpr (hdepth.down hm).kind,
    fun m hm => (hdepth.down hm).not_transGen, ⟨5⟩,
    (strayTree.push ⟨.identifier "x" none, [], [], [], none⟩).push
      ⟨.expressionStatement ⟨4⟩, [], [], [], none⟩, ⟨4⟩, rfl, ?_, by decide, ?_⟩
  · exact .single ⟨.slot ⟨5⟩ .expression, rfl, rfl⟩
  · rintro ⟨pos, -, hunique⟩
    cases (hunique (.slot ⟨5⟩ .expression) rfl).trans (hunique (.slot ⟨3⟩ .expression) rfl).symm

end Espalier
