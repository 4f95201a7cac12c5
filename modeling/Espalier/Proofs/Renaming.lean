import Espalier.Proofs.Forest
import Espalier.Syntax.Printer

set_option autoImplicit false

/-! # Nodes under other names

A kind is known by its husk, which is everything but the ids of the children, and by its
children. Where the nodes of a tree stand in another arena under other ids, different ids for
different nodes, the text is the same: it depends on the ids only through the question in which
field of its parent a node stands (`Tree.Renames.printWithin`). -/

namespace Espalier

/-! ## Kinds apart from their child ids -/

namespace Child

/-- The content of a child field with other ids. -/
def rename (φ : NodeId → NodeId) : Child → Child
  | .one id => .one (φ id)
  | .opt id? => .opt (id?.map φ)
  | .many ids => .many (ids.map φ)

/-- The shape of a child field: how many nodes it holds, but not which. -/
def husk (c : Child) : Child := c.rename fun _ => ⟨0⟩

@[simp] theorem ids_rename (φ : NodeId → NodeId) (c : Child) : (c.rename φ).ids = c.ids.map φ := by
  cases c with
  | opt id? => cases id? <;> rfl
  | one | many => rfl

theorem length_ids_of_husk {c c' : Child} (h : c.husk = c'.husk) :
    c.ids.length = c'.ids.length := by
  simpa [husk] using congrArg (fun c => (ids c).length) h

/-- A field is known by its shape and the nodes in it. -/
theorem ext_ids {c c' : Child} (h : c.husk = c'.husk) (hids : c.ids = c'.ids) : c = c' := by
  cases c with
  | one id => cases c' <;> simp_all [husk, rename, ids]
  | many l => cases c' <;> simp_all [husk, rename, ids]
  | opt id? =>
    cases c' with
    | opt id?' => cases id? <;> cases id?' <;> simp_all [ids]
    | one | many => simp [husk, rename] at h

end Child

/-- The map that renames all children. -/
def FieldMap.rename (φ : NodeId → NodeId) : FieldMap where
  one _ := φ
  opt _ := Option.map φ
  many _ := List.map φ

@[simp] theorem FieldMap.apply_rename (φ : NodeId → NodeId) (f : Field) (c : Child) :
    (FieldMap.rename φ).apply f c = c.rename φ := by
  cases c <;> rfl

/-- A map that reads the content of each field from a list of fields. -/
def FieldMap.reading (fs : List (Field × Child)) : FieldMap where
  one f old := ((fs.find? fun e => decide (e.1 = f)).bind (·.2.node?)).getD old
  opt f old := (fs.find? fun e => decide (e.1 = f)).elim old (·.2.node?)
  many f old := ((fs.find? fun e => decide (e.1 = f)).bind (·.2.list?)).getD old

/-- Fields are known by their shapes and the nodes in all of them. -/
theorem fields_ext {es es' : List (Field × Child)}
    (h : es.map (Prod.map id Child.husk) = es'.map (Prod.map id Child.husk))
    (hids : es.flatMap (·.2.ids) = es'.flatMap (·.2.ids)) : es = es' := by
  induction es generalizing es' with
  | nil => simpa using h.symm
  | cons e es ih =>
    cases es' with
    | nil => simp at h
    | cons e' es' =>
      simp only [List.map_cons, List.cons.injEq, Prod.map, Prod.mk.injEq, id_eq] at h
      obtain ⟨⟨hf, hc⟩, hrest⟩ := h
      simp only [List.flatMap_cons] at hids
      obtain ⟨hhead, htail⟩ := List.append_inj hids (Child.length_ids_of_husk hc)
      rw [ih hrest htail, Prod.ext hf (Child.ext_ids hc hhead)]

namespace NodeKind

/-- The same kind with other child ids. -/
def rename (φ : NodeId → NodeId) (k : NodeKind) : NodeKind := k.mapFields (.rename φ)

/-- A kind with its own data and the shapes of its fields, without the ids in them. -/
def husk (k : NodeKind) : NodeKind := k.rename fun _ => ⟨0⟩

theorem fields_rename (φ : NodeId → NodeId) (k : NodeKind) :
    (k.rename φ).fields = k.fields.map (Prod.map id (Child.rename φ)) := by
  simp only [rename, fields_mapFields, FieldMap.apply_rename]
  rfl

@[simp] theorem children_rename (φ : NodeId → NodeId) (k : NodeKind) :
    (k.rename φ).children = k.children.map φ := by
  simp [children, fields_rename, List.flatMap_map, List.map_flatMap]

@[simp] theorem type_rename (φ : NodeId → NodeId) (k : NodeKind) : (k.rename φ).type = k.type :=
  type_mapFields _ k

/-- A map is known by what it does to the fields at hand. -/
theorem mapFields_congr {g h : FieldMap} {k : NodeKind}
    (hgh : ∀ e ∈ k.fields, g.apply e.1 e.2 = h.apply e.1 e.2) : k.mapFields g = k.mapFields h := by
  cases k <;> simp_all [fields, mapFields, FieldMap.apply]

theorem rename_mapFields (φ : NodeId → NodeId) (g : FieldMap) (k : NodeKind) :
    (k.mapFields g).rename φ = k.mapFields
      ⟨fun f id => φ (g.one f id), fun f id? => (g.opt f id?).map φ,
        fun f ids => (g.many f ids).map φ⟩ := by
  cases k <;> rfl

/-- A map that keeps the shapes of the fields keeps the husk. -/
theorem husk_mapFields {g : FieldMap} {k : NodeKind}
    (hg : ∀ e ∈ k.fields, (g.apply e.1 e.2).husk = e.2.husk) :
    (k.mapFields g).husk = k.husk := by
  rw [husk, husk, rename_mapFields]
  refine mapFields_congr fun ⟨f, c⟩ he => ?_
  have h := hg _ he
  cases c <;> simp_all [FieldMap.apply, FieldMap.rename, Child.husk, Child.rename]

@[simp] theorem husk_rename (φ : NodeId → NodeId) (k : NodeKind) :
    (k.rename φ).husk = k.husk :=
  husk_mapFields fun ⟨_, c⟩ _ => by
    cases c <;> simp [FieldMap.apply, FieldMap.rename, Child.husk, Child.rename,
      Function.comp_def]

section Split

variable {k : NodeKind} {f : Field} {c : Child} {before after : List (Field × Child)}
  {g : FieldMap}

theorem eq_of_mem_split (hk : k.fields = before ++ (f, c) :: after) {e : Field × Child}
    (he : e ∈ k.fields) (hf : e.1 = f) : e = (f, c) := by
  have hnodup : (k.fields.map Prod.fst).Nodup := by
    rw [map_fst_fields]
    exact k.type.nodup_visitorFields
  exact List.inj_on_of_nodup_map hnodup he (by simp [hk]) hf

/-- A map that acts on one field only. -/
theorem fields_mapFields_split (hk : k.fields = before ++ (f, c) :: after)
    (hg : ∀ f' c', f' ≠ f → g.apply f' c' = c') :
    (k.mapFields g).fields = before ++ (f, g.apply f c) :: after := by
  have hnodup : (k.fields.map Prod.fst).Nodup := by
    rw [map_fst_fields]
    exact k.type.nodup_visitorFields
  rw [hk, List.map_append, List.map_cons, List.nodup_middle, List.nodup_cons,
    ← List.map_append] at hnodup
  have hrest : (before ++ after).map (fun e => (e.1, g.apply e.1 e.2)) = before ++ after := by
    refine (List.map_congr_left fun e he => ?_).trans (List.map_id _)
    have hf : e.1 ≠ f := fun hf => hnodup.1 (List.mem_map.mpr ⟨e, he, hf⟩)
    rw [hg _ _ hf, id_eq]
  obtain ⟨hbefore, hafter⟩ := List.append_inj (by simpa using hrest) (by simp)
  rw [fields_mapFields, hk, List.map_append, List.map_cons, hbefore, hafter]

theorem husk_mapFields_split (hk : k.fields = before ++ (f, c) :: after)
    (hg : ∀ f' c', f' ≠ f → g.apply f' c' = c') (hc : (g.apply f c).husk = c.husk) :
    (k.mapFields g).husk = k.husk := by
  refine husk_mapFields fun e he => ?_
  by_cases hf : e.1 = f
  · rw [eq_of_mem_split hk he hf]
    exact hc
  · rw [hg _ _ hf]

end Split

theorem husk_reading (k : NodeKind) : k.husk.mapFields (.reading k.fields) = k := by
  cases k <;> rfl

/-- A kind is known by its husk and its children. -/
theorem ext_children {k k' : NodeKind} (hhusk : k.husk = k'.husk)
    (hchildren : k.children = k'.children) : k = k' := by
  have hfields : k.fields = k'.fields := by
    refine fields_ext ?_ hchildren
    have h := congrArg fields hhusk
    rwa [husk, husk, fields_rename, fields_rename] at h
  rw [← k.husk_reading, ← k'.husk_reading, hhusk, hfields]

end NodeKind

namespace Node

/-- The same node with other child ids. -/
def rename (φ : NodeId → NodeId) (n : Node) : Node := { n with kind := n.kind.rename φ }

/-- A node with its own data, comments and span, without the ids of its children. -/
def husk (n : Node) : Node := n.rename fun _ => ⟨0⟩

/-- A node is known by its husk and its children. -/
theorem ext_children {n n' : Node} (hhusk : n.husk = n'.husk)
    (hchildren : n.kind.children = n'.kind.children) : n = n' := by
  obtain ⟨k, l, t, i, s⟩ := n
  obtain ⟨k', l', t', i', s'⟩ := n'
  simp only [husk, rename, mk.injEq] at hhusk ⊢
  exact ⟨NodeKind.ext_children hhusk.1 hchildren, hhusk.2⟩

@[simp] theorem husk_rename (φ : NodeId → NodeId) (n : Node) :
    (n.rename φ).husk = n.husk := by
  have h := n.kind.husk_rename φ
  simp only [NodeKind.husk] at h
  simp [husk, rename, h]

end Node

/-! ## The same tree elsewhere -/

/-- The nodes of `S` are in the second tree under other ids, with the same data and comments and
with their children. -/
structure Tree.Renames (t t' : Tree) (φ : NodeId → NodeId) (S : Set NodeId) : Prop where
  node : ∀ n ∈ S, ∃ node, t.node? n = some node ∧ t'.node? (φ n) = some (node.rename φ)
  closed : ∀ n ∈ S, ∀ k, t.kind? n = some k → ∀ c ∈ k.children, c ∈ S
  injective : Set.InjOn φ S

namespace Tree.Renames

variable {t t' : Tree} {φ : NodeId → NodeId} {S : Set NodeId} {n p : NodeId} {above : List NodeId}

theorem kind (h : t.Renames t' φ S) (hn : n ∈ S) :
    ∃ k, t.kind? n = some k ∧ t'.kind? (φ n) = some (k.rename φ) ∧ ∀ c ∈ k.children, c ∈ S := by
  obtain ⟨node, hnode, hnode'⟩ := h.node n hn
  have hk : t.kind? n = some node.kind := by simp [kind?, hnode]
  exact ⟨node.kind, hk, by simp [kind?, hnode', Node.rename], h.closed n hn _ hk⟩

theorem type (h : t.Renames t' φ S) (hn : n ∈ S) :
    ∃ type, t.type? n = some type ∧ t'.type? (φ n) = some type := by
  obtain ⟨k, hk, hk', -⟩ := h.kind hn
  exact ⟨k.type, type?_of_kind hk, by rw [type?_of_kind hk', NodeKind.type_rename]⟩

theorem mem_map_iff (h : t.Renames t' φ S) (hn : n ∈ S) {l : List NodeId} (hl : ∀ m ∈ l, m ∈ S) :
    φ n ∈ l.map φ ↔ n ∈ l := by
  refine ⟨fun hm => ?_, List.mem_map_of_mem⟩
  obtain ⟨m, hm, heq⟩ := List.mem_map.mp hm
  exact h.injective (hl m hm) hn heq ▸ hm

/-- A node stands in the same field of its parent. -/
theorem fieldOf? (h : t.Renames t' φ S) (hp : p ∈ S) (hn : n ∈ S) :
    ∃ f, t.fieldOf? p n = some f ∧ t'.fieldOf? (φ p) (φ n) = some f := by
  obtain ⟨k, hk, hk', hchildren⟩ := h.kind hp
  have hfind : ∀ es : List (Field × Child), (∀ e ∈ es, ∀ c ∈ e.2.ids, c ∈ S) →
      ((es.map (Prod.map id (Child.rename φ))).find? fun e => decide (φ n ∈ e.2.ids)).map Prod.fst =
        (es.find? fun e => decide (n ∈ e.2.ids)).map Prod.fst := by
    intro es
    induction es with
    | nil => exact fun _ => rfl
    | cons e es ih =>
      intro hes
      have hmem : φ n ∈ (Prod.map id (Child.rename φ) e).2.ids ↔ n ∈ e.2.ids := by
        show φ n ∈ (e.2.rename φ).ids ↔ n ∈ e.2.ids
        rw [Child.ids_rename]
        exact h.mem_map_iff hn (hes e (by simp))
      have hrest := ih fun e he => hes e (by simp [he])
      by_cases hin : n ∈ e.2.ids
      · simp only [List.map_cons, List.find?_cons, decide_eq_true hin,
          decide_eq_true (hmem.mpr hin), Option.map_some, Prod.map_fst, id_eq]
      · simpa only [List.map_cons, List.find?_cons, decide_eq_false hin,
          decide_eq_false (mt hmem.mp hin)] using hrest
  refine ⟨_, by rw [Tree.fieldOf?, hk]; rfl, ?_⟩
  rw [Tree.fieldOf?, hk', Option.bind_eq_bind, Option.bind_some, NodeKind.fields_rename, hfind]
  exact fun e he c hc => hchildren c (List.mem_flatMap.mpr ⟨e, he, hc⟩)

/-- Is there a call in the chain of accesses? -/
theorem hasCallWithin (h : t.Renames t' φ S) {d e e' : Nat} (hn : n ∈ S) (hd : t.DepthWithin d n)
    (he : d ≤ e) (he' : d ≤ e') :
    ∃ b, t.hasCallWithin e n = some b ∧ t'.hasCallWithin e' (φ n) = some b := by
  induction d generalizing n e e' with
  | zero => exact hd.elim
  | succ d ih =>
    obtain ⟨e, rfl⟩ : ∃ i, e = i + 1 := ⟨e - 1, by omega⟩
    obtain ⟨e', rfl⟩ : ∃ i, e' = i + 1 := ⟨e' - 1, by omega⟩
    obtain ⟨k, hk, hk', hchildren⟩ := h.kind hn
    obtain ⟨k₁, hk₁, hbelow⟩ := hd
    obtain rfl := Option.some.inj (hk.symm.trans hk₁)
    simp only [Tree.hasCallWithin, hk, hk', Option.bind_eq_bind, Option.bind_some]
    cases k with
    | memberExpression object property computed =>
      have hobject : object ∈ (NodeKind.memberExpression object property computed).children := by
        simp [NodeKind.children, NodeKind.fields, Child.ids]
      exact ih (hchildren object hobject) (hbelow object hobject) (by omega) (by omega)
    | _ => exact ⟨_, rfl, rfl⟩

/-- Does a node stand at the start of a statement? -/
theorem startsStatement? (h : t.Renames t' φ S) (hn : n ∈ S) (habove : ∀ m ∈ above, m ∈ S) :
    ∃ b, t.startsStatement? n above = some b ∧
      t'.startsStatement? (φ n) (above.map φ) = some b := by
  induction above generalizing n with
  | nil => exact ⟨false, rfl, rfl⟩
  | cons p above ih =>
    have hp : p ∈ S := habove p (by simp)
    obtain ⟨f, hf, hf'⟩ := h.fieldOf? hp hn
    obtain ⟨b, hb, hb'⟩ := ih hp fun m hm => habove m (by simp [hm])
    obtain ⟨k, hk, hk', hchildren⟩ := h.kind hp
    simp only [Tree.startsStatement?, List.map_cons, hf, hf', hk, hk', Option.bind_eq_bind,
      Option.bind_some, hb]
    have hite : ∀ (c : Prop) [Decidable c], ∃ b', (if c then some b else some false) = some b' ∧
        (if c then t'.startsStatement? (φ p) (above.map φ) else some false) = some b' := by
      intro c _
      split <;> exact ⟨_, rfl, by first | exact hb' | rfl⟩
    cases k with
    | sequenceExpression expressions =>
      have hhead : (expressions.map φ).head? = some (φ n) ↔ expressions.head? = some n := by
        cases expressions with
        | nil => simp
        | cons m l =>
          have hm : m ∈ S := hchildren m (by simp [NodeKind.children, NodeKind.fields, Child.ids])
          simpa using ⟨fun heq => h.injective hm hn heq, fun heq => heq ▸ rfl⟩
      simp only [NodeKind.rename, NodeKind.mapFields, FieldMap.rename, hhead]
      exact hite _
    | _ => first | exact hite _ | exact ⟨_, rfl, rfl⟩

theorem type_left (h : t.Renames t' φ S) (hn : n ∈ S) {operator : AssignmentOperator}
    {left right : NodeId} (hk : t.kind? n = some (.assignmentExpression operator left right)) :
    ∃ type, t.type? left = some type ∧ t'.type? (φ left) = some type :=
  h.type (h.closed n hn _ hk left (by simp [NodeKind.children, NodeKind.fields, Child.ids]))

theorem isPowerBase_rename (φ : NodeId → NodeId) (k : NodeKind) (f : Option Field) :
    isPowerBase (k.rename φ) f = isPowerBase k f := by
  cases k with
  | binaryExpression o left right => cases o <;> rfl
  | _ => rfl

theorem operatorNeedsParens_rename (φ : NodeId → NodeId) (k : NodeKind) (f : Option Field)
    (precedence : Nat) (isPower : Bool) :
    operatorNeedsParens (k.rename φ) f precedence isPower =
      operatorNeedsParens k f precedence isPower := by
  cases k <;> rfl

theorem kindNeedsParens? (h : t.Renames t' φ S) (hn : n ∈ S) (habove : ∀ m ∈ above, m ∈ S)
    (parent : NodeKind) (f : Option Field) :
    ∃ b, t.kindNeedsParens? n above parent f = some b ∧
      t'.kindNeedsParens? (φ n) (above.map φ) (parent.rename φ) f = some b := by
  obtain ⟨k, hk, hk', -⟩ := h.kind hn
  obtain ⟨b, hb, hb'⟩ := h.startsStatement? hn habove
  have htype := parent.type_rename φ
  have hpower := isPowerBase_rename φ parent f
  have hoperator := operatorNeedsParens_rename φ parent f
  generalize parent.rename φ = parent' at htype hpower hoperator
  simp only [Tree.kindNeedsParens?, hk, hk', Option.bind_eq_bind, Option.bind_some]
  cases k with
  | objectExpression properties =>
    simp only [NodeKind.rename, NodeKind.mapFields, htype, hb, hb']
    split <;> exact ⟨_, rfl, rfl⟩
  | functionExpression => exact ⟨b, hb, hb'⟩
  | assignmentExpression operator left right =>
    obtain ⟨type, hleft, hleft'⟩ := h.type_left hn hk
    simp [NodeKind.rename, NodeKind.mapFields, FieldMap.rename, hleft, hleft', htype]
  | _ => simp [NodeKind.rename, NodeKind.mapFields, htype, hpower, hoperator]

theorem needsParens? (h : t.Renames t' φ S) (hn : n ∈ S) (habove : ∀ m ∈ above, m ∈ S) {d : Nat}
    (hd : t.DepthWithin d n) (ht : d ≤ t.depthBound) (ht' : d ≤ t'.depthBound) :
    ∃ b, t.needsParens? n above = some b ∧ t'.needsParens? (φ n) (above.map φ) = some b := by
  cases above with
  | nil => exact ⟨false, rfl, rfl⟩
  | cons p above =>
    have hp : p ∈ S := habove p (by simp)
    obtain ⟨f, hf, hf'⟩ := h.fieldOf? hp hn
    obtain ⟨parent, hk, hk', -⟩ := h.kind hp
    obtain ⟨calls, hc, hc'⟩ := h.hasCallWithin hn hd ht ht'
    obtain ⟨b, hb, hb'⟩ := h.kindNeedsParens? hn habove parent f
    rw [List.map_cons] at hb'
    simp only [Tree.needsParens?, List.map_cons, hf, hf', hk, hk', Option.bind_eq_bind,
      Option.bind_some, NodeKind.type_rename, hc, hc', hb, hb']
    cases calls <;> split <;> exact ⟨_, rfl, rfl⟩

/-- Does a node stand in the head of a loop? -/
theorem inForHead? (h : t.Renames t' φ S) (hn : n ∈ S) (habove : ∀ m ∈ above, m ∈ S) :
    ∃ b, t.inForHead? n above = some b ∧ t'.inForHead? (φ n) (above.map φ) = some b := by
  cases above with
  | nil => exact ⟨false, rfl, rfl⟩
  | cons p above =>
    obtain ⟨k, hk, hk', hchildren⟩ := h.kind (habove p (by simp))
    have heq : ∀ m ∈ k.children, φ m = φ n ↔ m = n := fun m hm =>
      ⟨fun heq => h.injective (hchildren m hm) hn heq, fun heq => heq ▸ rfl⟩
    simp only [Tree.inForHead?, List.map_cons, hk, hk', Option.bind_eq_bind, Option.bind_some]
    cases k with
    | forStatement init test update body =>
      refine ⟨_, rfl, ?_⟩
      cases init with
      | none => rfl
      | some m =>
        have := heq m (by simp [NodeKind.children, NodeKind.fields, Child.ids])
        simp [NodeKind.rename, NodeKind.mapFields, FieldMap.rename, this]
    | forInStatement left | forOfStatement left =>
      have := heq left (by simp [NodeKind.children, NodeKind.fields, Child.ids])
      simp [NodeKind.rename, NodeKind.mapFields, FieldMap.rename, this]
    | _ => exact ⟨_, rfl, rfl⟩

end Tree.Renames

/-! ## Text -/

section Render

variable {t t' : Tree} {φ : NodeId → NodeId} {print print' : NodeId → Option String}
  {text : NodeId → String}

/-- Both ways to print give this text for the node. -/
def PrintsAlike (φ : NodeId → NodeId) (print print' : NodeId → Option String)
    (text : NodeId → String) (ids : List NodeId) : Prop :=
  ∀ c ∈ ids, print c = some (text c) ∧ print' (φ c) = some (text c)

theorem PrintsAlike.printAll {ids : List NodeId} (h : PrintsAlike φ print print' text ids) :
    Espalier.printAll print ids = some (ids.map text) ∧
      Espalier.printAll print' (ids.map φ) = some (ids.map text) := by
  induction ids with
  | nil => exact ⟨rfl, rfl⟩
  | cons c ids ih =>
    obtain ⟨hc, hc'⟩ := h c (by simp)
    obtain ⟨hl, hl'⟩ := ih fun m hm => h m (by simp [hm])
    simp only [Espalier.printAll] at hl hl' ⊢
    simp [List.mapM_cons, hc, hc', hl, hl']

theorem PrintsAlike.printOptional {id? : Option NodeId}
    (h : PrintsAlike φ print print' text id?.toList) (lead : String) :
    ∃ s, Espalier.printOptional print lead id? = some s ∧
      Espalier.printOptional print' lead (id?.map φ) = some s := by
  cases id? with
  | none => exact ⟨"", rfl, rfl⟩
  | some id =>
    obtain ⟨hid, hid'⟩ := h id (by simp)
    exact ⟨lead ++ text id, by simp [Espalier.printOptional, hid],
      by simp [Espalier.printOptional, hid']⟩

theorem PrintsAlike.append {ids ids' : List NodeId} :
    PrintsAlike φ print print' text (ids ++ ids') ↔
      PrintsAlike φ print print' text ids ∧ PrintsAlike φ print print' text ids' :=
  List.forall_mem_append

theorem PrintsAlike.single {c : NodeId} : PrintsAlike φ print print' text [c] ↔
    print c = some (text c) ∧ print' (φ c) = some (text c) := by
  simp [PrintsAlike]

theorem PrintsAlike.renderFunction {id? : Option NodeId} {params : List NodeId} {body : NodeId}
    (h : PrintsAlike φ print print' text (id?.toList ++ (params ++ [body])))
    (isAsync isGenerator : Bool) :
    ∃ s, Espalier.renderFunction print id? params body isAsync isGenerator = some s ∧
      Espalier.renderFunction print' (id?.map φ) (params.map φ) (φ body) isAsync isGenerator =
        some s := by
  obtain ⟨hid, hparams, hbody⟩ : _ ∧ _ ∧ _ := by simpa only [append, single] using h
  cases id? with
  | none => simp [Espalier.renderFunction, hparams.printAll, hbody]
  | some id =>
    obtain ⟨hid, hid'⟩ := hid id (by simp)
    simp [Espalier.renderFunction, hparams.printAll, hbody, hid, hid']

theorem PrintsAlike.renderImport {specifiers : List NodeId} {source : NodeId}
    (h : PrintsAlike φ print print' text (specifiers ++ [source]))
    (htype : ∀ c ∈ specifiers, ∃ type, t.type? c = some type ∧ t'.type? (φ c) = some type) :
    ∃ s, Espalier.renderImport print t specifiers source = some s ∧
      Espalier.renderImport print' t' (specifiers.map φ) (φ source) = some s := by
  obtain ⟨hlist, hsource, hsource'⟩ : _ ∧ _ ∧ _ := by simpa only [append, single] using h
  obtain ⟨texts, htexts, htexts'⟩ : ∃ texts : List (Bool × String),
      (specifiers.mapM fun id => do
        let type ← t.type? id
        some (type == .importSpecifier, ← print id)) = some texts ∧
      ((specifiers.map φ).mapM fun id => do
        let type ← t'.type? id
        some (type == .importSpecifier, ← print' id)) = some texts := by
    clear h
    induction specifiers with
    | nil => exact ⟨[], rfl, rfl⟩
    | cons c l ih =>
      obtain ⟨texts, hl, hl'⟩ := ih (fun m hm => htype m (by simp [hm]))
        fun m hm => hlist m (by simp [hm])
      obtain ⟨type, hc, hc'⟩ := htype c (by simp)
      obtain ⟨hp, hp'⟩ := hlist c (by simp)
      simp only [Option.bind_eq_bind] at hl hl'
      exact ⟨(type == .importSpecifier, text c) :: texts, by simp [List.mapM_cons, hc, hp, hl],
        by simp [List.mapM_cons, hc', hp', hl']⟩
  by_cases hnil : specifiers = []
  · subst hnil
    exact ⟨_, by simp [Espalier.renderImport, hsource]; rfl,
      by simp [Espalier.renderImport, hsource']⟩
  · simp only [Option.bind_eq_bind] at htexts htexts'
    simp [Espalier.renderImport, hsource, hsource', hnil, htexts, htexts']

theorem PrintsAlike.renderExport {declaration source : Option NodeId} {specifiers : List NodeId}
    (h : PrintsAlike φ print print' text (declaration.toList ++ (specifiers ++ source.toList))) :
    ∃ s, Espalier.renderExport print declaration specifiers source = some s ∧
      Espalier.renderExport print' (declaration.map φ) (specifiers.map φ) (source.map φ) =
        some s := by
  obtain ⟨hdeclaration, hlist, hsource⟩ : _ ∧ _ ∧ _ := by simpa only [append] using h
  cases declaration with
  | some id =>
    obtain ⟨hid, hid'⟩ := hdeclaration id (by simp)
    simp [Espalier.renderExport, hid, hid']
  | none =>
    obtain ⟨s, hs, hs'⟩ := hsource.printOptional " from "
    simp [Espalier.renderExport, hlist.printAll, hs, hs']

/-- The text of a node is made of the texts and types of its children. -/
theorem renderKind_rename {k : NodeKind} (h : PrintsAlike φ print print' text k.children)
    (htype : ∀ c ∈ k.children, ∃ type, t.type? c = some type ∧ t'.type? (φ c) = some type)
    (inForHead : Bool) :
    ∃ s, renderKind print t inForHead k = some s ∧
      renderKind print' t' inForHead (k.rename φ) = some s := by
  simp only [NodeKind.children] at h htype
  cases k <;> simp only [NodeKind.fields, Child.ids, List.flatMap_cons, List.flatMap_nil,
    List.append_nil] at h htype
  case importDeclaration specifiers source =>
    exact h.renderImport fun c hc => htype c (by simp [hc])
  case exportNamedDeclaration => exact h.renderExport
  case exportDefaultDeclaration declaration =>
    obtain ⟨hd, hd'⟩ := h declaration (by simp)
    obtain ⟨type, ht, ht'⟩ := htype declaration (by simp)
    simp [renderKind, NodeKind.rename, NodeKind.mapFields, FieldMap.rename, hd, hd', ht, ht']
  case functionDeclaration => exact h.renderFunction _ _
  case functionExpression => exact h.renderFunction _ _
  -- Each of the other kinds is text around the texts of single nodes, optional nodes or a list.
  all_goals try simp only [PrintsAlike.append, PrintsAlike.single] at h
  case objectProperty computed shorthand =>
    cases shorthand <;> simp [renderKind, renderProperty, NodeKind.rename, NodeKind.mapFields,
      FieldMap.rename, h]
  case catchClause param body =>
    cases param with
    | none => simp [renderKind, NodeKind.rename, NodeKind.mapFields, FieldMap.rename, h]
    | some param =>
      obtain ⟨hparam, hparam'⟩ := h.1 param (by simp)
      simp [renderKind, NodeKind.rename, NodeKind.mapFields, FieldMap.rename, h, hparam, hparam']
  case ifStatement test consequent alternate =>
    obtain ⟨s, hs, hs'⟩ := h.2.2.printOptional " else "
    simp [renderKind, NodeKind.rename, NodeKind.mapFields, FieldMap.rename, h, hs, hs']
  case tryStatement block handler finalizer =>
    obtain ⟨s, hs, hs'⟩ := h.2.1.printOptional " "
    obtain ⟨r, hr, hr'⟩ := h.2.2.printOptional " finally "
    simp [renderKind, NodeKind.rename, NodeKind.mapFields, FieldMap.rename, h, hs, hs', hr, hr']
  case forStatement init test update body =>
    obtain ⟨s, hs, hs'⟩ := h.1.printOptional ""
    obtain ⟨r, hr, hr'⟩ := h.2.1.printOptional " "
    obtain ⟨q, hq, hq'⟩ := h.2.2.1.printOptional " "
    simp [renderKind, NodeKind.rename, NodeKind.mapFields, FieldMap.rename, h, hs, hs', hr, hr',
      hq, hq']
  case variableDeclarator id init =>
    obtain ⟨s, hs, hs'⟩ := h.2.printOptional " = "
    simp [renderKind, NodeKind.rename, NodeKind.mapFields, FieldMap.rename, h, hs, hs']
  case returnStatement | breakStatement | continueStatement =>
    obtain ⟨s, hs, hs'⟩ := h.printOptional " "
    simp [renderKind, renderJump, NodeKind.rename, NodeKind.mapFields, FieldMap.rename, hs, hs']
  case throwStatement =>
    simp [renderKind, renderJump, printOptional, NodeKind.rename, NodeKind.mapFields,
      FieldMap.rename, h]
  case program | blockStatement | variableDeclaration | sequenceExpression | objectExpression
    | arrayExpression | arrayPattern | objectPattern =>
    simp [renderKind, NodeKind.rename, NodeKind.mapFields, FieldMap.rename, h.printAll]
  case arrowFunctionExpression =>
    simp [renderKind, NodeKind.rename, NodeKind.mapFields, FieldMap.rename, h, h.1.printAll]
  case callExpression | newExpression =>
    simp [renderKind, NodeKind.rename, NodeKind.mapFields, FieldMap.rename, h, h.2.printAll]
  all_goals first
    | exact ⟨_, rfl, rfl⟩
    | simp [renderKind, renderOperator, NodeKind.rename, NodeKind.mapFields, FieldMap.rename, h]

end Render

namespace Tree.Renames

variable {t t' : Tree} {φ : NodeId → NodeId} {S : Set NodeId} {n : NodeId} {above : List NodeId}

/-- Under other names everything has the same text. -/
theorem printWithin (h : t.Renames t' φ S) {d e e' : Nat} (hn : n ∈ S)
    (habove : ∀ m ∈ above, m ∈ S) (hd : t.DepthWithin d n) (he : d ≤ e) (he' : d ≤ e')
    (ht : d ≤ t.depthBound) (ht' : d ≤ t'.depthBound) :
    ∃ s, t.printWithin e above n = some s ∧ t'.printWithin e' (above.map φ) (φ n) = some s := by
  induction d generalizing n above e e' with
  | zero => exact hd.elim
  | succ d ih =>
    obtain ⟨e, rfl⟩ : ∃ i, e = i + 1 := ⟨e - 1, by omega⟩
    obtain ⟨e', rfl⟩ : ∃ i, e' = i + 1 := ⟨e' - 1, by omega⟩
    obtain ⟨node, hnode, hnode'⟩ := h.node n hn
    obtain ⟨parens, hp, hp'⟩ := h.needsParens? hn habove hd ht ht'
    obtain ⟨head, hh, hh'⟩ := h.inForHead? hn habove
    have hk : t.kind? n = some node.kind := by simp [kind?, hnode]
    have hchildren := h.closed n hn _ hk
    obtain ⟨k, hk₁, hbelow⟩ := hd
    obtain rfl := Option.some.inj (hk.symm.trans hk₁)
    have hprint : ∀ c ∈ node.kind.children, ∃ s, t.printWithin e (n :: above) c = some s ∧
        t'.printWithin e' ((n :: above).map φ) (φ c) = some s := fun c hc =>
      ih (hchildren c hc) (by simpa [hn] using habove) (hbelow c hc) (by omega) (by omega)
        (by omega) (by omega)
    have halike : PrintsAlike φ (t.printWithin e (n :: above))
        (t'.printWithin e' ((n :: above).map φ))
        (fun c => (t.printWithin e (n :: above) c).getD "") node.kind.children := by
      intro c hc
      obtain ⟨s, hs, hs'⟩ := hprint c hc
      simp only [hs, hs', Option.getD_some, and_self]
    obtain ⟨s, hs, hs'⟩ := renderKind_rename halike (fun c hc => h.type (hchildren c hc)) head
    rw [List.map_cons] at hs'
    simp [Tree.printWithin, hnode, hnode', hp, hp', hh, hh', hs, hs', Node.rename,
      Node.withComments]

end Tree.Renames

end Espalier
