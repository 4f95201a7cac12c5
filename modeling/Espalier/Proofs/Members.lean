import Espalier.Proofs.Numerals
import Espalier.Syntax.Encode

set_option autoImplicit false

/-! # Kinds that read back

Types and the kinds of nodes read back from the members that are written for them
(`NodeKind.ofMembers?_members`), whichever were left out. What may stand in a member is a node, a
list of nodes, a flag, a text, a type or a number (`NodeKind.part_of_mem_members`). -/

namespace Espalier

/-! ## Types -/

namespace ValueType

mutual

theorem ofJson?_toJson : ∀ t : ValueType, ofJson? t.toJson = some t
  | .any | .mixed | .number | .string | .boolean | .void | .null => by
    simp [toJson, formName, ofJson?, ofMembers?, Json.looseEnumName?, Json.enumName?, ofFormName?]
  | .generic name => by
    simp [toJson, ofJson?, ofMembers?, Json.looseEnumName?, Json.enumName?, ofContent?]
  | .union members => by
    simp [toJson, ofJson?, ofMembers?, Json.looseEnumName?, Json.enumName?, ofContent?,
      ofJsonList?_listToJson members]

theorem ofJsonList?_listToJson : ∀ ts : List ValueType, ofJsonList? (listToJson ts) = some ts
  | [] => by simp [listToJson, ofJsonList?]
  | t :: ts => by
    simp [listToJson, ofJsonList?, ofJson?_toJson t, ofJsonList?_listToJson ts]

end

mutual

/-- How deeply the text of a type is nested: one level for a name, and two more than its members
for a union. -/
def levels : ValueType → Nat
  | .union members => levelsOfList members + 2
  | _ => 1

/-- The deepest of several types. -/
def levelsOfList : List ValueType → Nat
  | [] => 0
  | t :: rest => max (levels t) (levelsOfList rest)

end

mutual

theorem depth_toJson : ∀ t : ValueType, t.toJson.depth = t.levels
  | .any | .mixed | .number | .string | .boolean | .void | .null | .generic _ => by
    simp [toJson, levels, Json.depth, Json.depthOfMembers]
  | .union members => by
    simp [toJson, levels, Json.depth, Json.depthOfMembers, depthOfList_listToJson members]

theorem depthOfList_listToJson : ∀ ts : List ValueType,
    Json.depthOfList (listToJson ts) = levelsOfList ts
  | [] => by simp [listToJson, levelsOfList, Json.depthOfList]
  | t :: ts => by
    simp [listToJson, levelsOfList, Json.depthOfList, depth_toJson t, depthOfList_listToJson ts]

end

mutual

/-- No numbers are written for a type. -/
theorem allNumbers_toJson (p : Json.Number → Bool) : ∀ t : ValueType, t.toJson.allNumbers p
  | .any | .mixed | .number | .string | .boolean | .void | .null | .generic _ => by
    simp [toJson, Json.allNumbers, Json.allNumbersOfMembers]
  | .union members => by
    simp [toJson, Json.allNumbers, Json.allNumbersOfMembers,
      allNumbersOfList_listToJson p members]

theorem allNumbersOfList_listToJson (p : Json.Number → Bool) : ∀ ts : List ValueType,
    Json.allNumbersOfList p (listToJson ts)
  | [] => by simp [listToJson, Json.allNumbersOfList]
  | t :: ts => by
    simp [listToJson, Json.allNumbersOfList, allNumbers_toJson p t,
      allNumbersOfList_listToJson p ts]

end

end ValueType

/-! ## Members -/

namespace Json

theorem nullable?_ofOption {α : Type} {f : Json → Option α} {g : α → Json} {o : Option α}
    (hnull : ∀ a, g a ≠ .null) (h : ∀ a ∈ o, f (g a) = some a) :
    nullable? f (ofOption g o) = some o := by
  cases o with
  | none => rfl
  | some a =>
    have hf := h a rfl
    have hne := hnull a
    rw [ofOption]
    cases hg : g a <;> simp_all [nullable?]

theorem list?_map {α : Type} {f : Json → Option α} {g : α → Json} {items : List α}
    (h : ∀ a ∈ items, f (g a) = some a) : list? f (.arr (items.map g)) = some items := by
  rw [list?]
  induction items with
  | nil => rfl
  | cons a items ih =>
    have ih := ih fun b hb => h b (List.mem_cons_of_mem a hb)
    rw [List.map_cons, List.mapM_cons, h a List.mem_cons_self, ih]
    rfl

end Json

theorem forall_presentMember {P : String × Json → Prop} {name : String} {o : Option Json} :
    (∀ m ∈ presentMember name o, P m) ↔ ∀ j ∈ o, P (name, j) := by
  cases o <;> simp [presentMember]

theorem forall_listMember {α : Type} {P : String × Json → Prop} {name : String} {f : α → Json}
    {items : List α} :
    (∀ m ∈ listMember name f items, P m) ↔ (items ≠ [] → P (name, .arr (items.map f))) := by
  cases items <;> simp [listMember]

theorem list?_texts (s : String) (ss : List String) :
    Json.list? Json.string? (.arr (.str s :: ss.map .str)) = some (s :: ss) := by
  rw [← List.map_cons]
  exact Json.list?_map fun _ _ => rfl

theorem ValueType.nullable?_toJson (t : ValueType) :
    Json.nullable? ofJson? t.toJson = some (some t) := by
  have h := t.ofJson?_toJson
  cases t <;> simp_all [Json.nullable?, toJson]

/-! ## Kinds -/

theorem NodeId.ofJson?_toJson {id : NodeId} (h : id.index < Nat.pow 2 32) :
    NodeId.ofJson? id.toJson = some id := by
  rw [NodeId.ofJson?, NodeId.toJson, Json.natBelow?_ofNat h (by decide)]
  rfl

/-- The content of a child field reads back from what is written for it. -/
def Child.ReadsBack : Child → Prop
  | .one id => NodeId.ofJson? id.toJson = some id
  | .opt id? => Json.nullable? NodeId.ofJson? (.ofOption NodeId.toJson id?) = some id?
  | .many ids => NodeId.listOfJson? (NodeId.listToJson ids) = some ids

theorem Child.readsBack {c : Child} (h : ∀ id ∈ c.ids, id.index < Nat.pow 2 32) :
    c.ReadsBack := by
  cases c with
  | one id => exact NodeId.ofJson?_toJson (h id List.mem_cons_self)
  | opt id? =>
    exact Json.nullable?_ofOption (fun _ => nofun) fun id hid =>
      NodeId.ofJson?_toJson (h id (Option.mem_toList.2 hid))
  | many ids => exact Json.list?_map fun id hid => NodeId.ofJson?_toJson (h id hid)

theorem NodeType.ofName?_name (t : NodeType) : NodeType.ofName? t.name = some t := by
  cases t <;> decide

theorem BinaryOperator.ofSymbol?_symbol (o : BinaryOperator) : ofSymbol? o.symbol = some o := by
  cases o <;> decide

theorem LogicalOperator.ofSymbol?_symbol (o : LogicalOperator) : ofSymbol? o.symbol = some o := by
  cases o <;> decide

theorem UnaryOperator.ofSymbol?_symbol (o : UnaryOperator) : ofSymbol? o.symbol = some o := by
  cases o <;> decide

theorem UpdateOperator.ofSymbol?_symbol (o : UpdateOperator) : ofSymbol? o.symbol = some o := by
  cases o <;> decide

theorem AssignmentOperator.ofSymbol?_symbol (o : AssignmentOperator) :
    ofSymbol? o.symbol = some o := by
  cases o <;> decide

theorem VariableKind.ofKeyword?_keyword (k : VariableKind) : ofKeyword? k.keyword = some k := by
  cases k <;> decide

namespace NodeKind

/-- The type that is written in a node. -/
def writtenType? : NodeKind → Option ValueType
  | .functionDeclaration _ _ _ _ _ returnType => returnType
  | .functionExpression _ _ _ _ _ returnType => returnType
  | .arrowFunctionExpression _ _ _ returnType => returnType
  | .identifier _ declared => declared
  | .typeCastExpression _ declared => some declared
  | _ => none

/-- The number that is written in a node. -/
def literal? : NodeKind → Option Double
  | .numericLiteral value => some value
  | _ => none

/-- What may stand in a member of a kind. -/
inductive Part (k : NodeKind) : Json → Prop
  | node {id : NodeId} : id ∈ k.children → Part k id.toJson
  | nodes {ids : List NodeId} : (∀ id ∈ ids, id ∈ k.children) → Part k (NodeId.listToJson ids)
  | absent : Part k .null
  | flag (b : Bool) : Part k (.bool b)
  | text (s : String) : Part k (.str s)
  | texts (ss : List String) : Part k (.arr (ss.map .str))
  | type {t : ValueType} : t ∈ k.writtenType? → Part k t.toJson
  | number {v : Double} : v ∈ k.literal? → Part k v.toJson

/-- The names of the members that every node may have. -/
def reserved : List String :=
  ["type", "leading_comments", "trailing_comments", "inner_comments", "span"]

theorem part_ofOption {k : NodeKind} {o : Option NodeId} (h : ∀ id ∈ o, id ∈ k.children) :
    k.Part (.ofOption NodeId.toJson o) := by
  cases o with
  | none => exact .absent
  | some id => exact .node (h id rfl)

theorem part_type {k : NodeKind} {o : Option ValueType} (h : k.writtenType? = o) :
    ∀ j ∈ o.map ValueType.toJson, k.Part j := by
  intro j hj
  obtain ⟨t, ht, rfl⟩ := Option.map_eq_some_iff.1 hj
  exact .type (h.trans ht)

/-- Every member of a kind is one of its parts. -/
theorem part_of_mem_members (k : NodeKind) : ∀ m ∈ k.members, k.Part m.2 := by
  cases k
  all_goals
    simp only [members, List.forall_mem_append, List.forall_mem_cons, forall_presentMember,
      forall_listMember, List.not_mem_nil, false_implies, implies_true, and_true]
  all_goals repeat' apply And.intro
  all_goals
    first
    | with_reducible exact .flag _
    | with_reducible exact .text _
    | with_reducible refine .node ?_
      simp [children, fields, Child.ids]
    | with_reducible refine .nodes fun id hid => ?_
      simp [children, fields, Child.ids, hid]
    | with_reducible refine part_ofOption fun id hid => ?_
      simp [children, fields, Child.ids, Option.mem_def.1 hid]
    | with_reducible refine part_type ?_
      rfl
    | with_reducible refine .type ?_
      rfl
    | with_reducible refine .number ?_
      rfl
    | with_reducible exact fun _ => .texts _

/-- The type of a node stands in one of its members. -/
theorem exists_member_of_written (k : NodeKind) {t : ValueType} (h : t ∈ k.writtenType?) :
    ∃ m ∈ k.members, m.2 = t.toJson := by
  cases k <;> simp only [writtenType?, Option.mem_def, reduceCtorEq] at h
  all_goals
    first
    | subst h
    | obtain rfl := Option.some.inj h
    simp [members, presentMember]

/-- The members of a kind are not named like those that every node may have. -/
theorem not_reserved (k : NodeKind) : ∀ m ∈ k.members, m.1 ∉ reserved := by
  cases k
  all_goals
    simp only [members, List.forall_mem_append, List.forall_mem_cons, forall_presentMember,
      forall_listMember]
    simp [reserved]

/-- Only members that not every node may have are looked at. -/
theorem ofMembers?_congr {ms ms' : List (String × Json)}
    (h : ∀ name, name ∉ reserved → Json.unique? ms name = Json.unique? ms' name)
    (type : NodeType) : ofMembers? ms type = ofMembers? ms' type := by
  cases type <;>
    simp [ofMembers?, Json.required?, Json.optional?, Json.defaulted?, h, reserved]

/-- A kind reads back from its members. -/
theorem ofMembers?_members {k : NodeKind} (hids : ∀ id ∈ k.children, id.index < Nat.pow 2 32)
    (hnumber : ∀ v ∈ k.literal?, Json.double? v.toJson = some v) :
    ofMembers? k.members k.type = some k := by
  have hfields : ∀ e ∈ k.fields, e.2.ReadsBack := fun e he =>
    Child.readsBack fun id hid => hids id (List.mem_flatMap.2 ⟨e, he, hid⟩)
  clear hids
  cases k
  case numericLiteral value =>
    have hvalue : value.toJson.double? = some value := hnumber value rfl
    simp [ofMembers?, type, members, Json.required?, Json.unique?, hvalue]
  -- Members that may be left out are there or not.
  case' program directives => cases directives
  case' functionDeclaration returnType => cases returnType
  case' functionExpression returnType => cases returnType
  case' arrowFunctionExpression returnType => cases returnType
  case' identifier declared => cases declared
  all_goals
    simp only [fields, List.forall_mem_cons, List.not_mem_nil, false_implies, implies_true,
      and_true, Child.ReadsBack] at hfields
  all_goals
    simp [ofMembers?, type, members, Json.required?, Json.optional?, Json.defaulted?,
      Json.unique?, presentMember, listMember, hfields, Json.string?, Json.bool?, enum?,
      Json.looseEnumName?, Json.enumName?, BinaryOperator.ofSymbol?_symbol,
      LogicalOperator.ofSymbol?_symbol, UnaryOperator.ofSymbol?_symbol,
      UpdateOperator.ofSymbol?_symbol, AssignmentOperator.ofSymbol?_symbol,
      VariableKind.ofKeyword?_keyword, ValueType.ofJson?_toJson, ValueType.nullable?_toJson,
      list?_texts]

end NodeKind

end Espalier
