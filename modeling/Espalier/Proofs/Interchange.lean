import Espalier.Proofs.Members

set_option autoImplicit false

/-! # Trees that read back

The reader of trees undoes the writer: nodes and trees read back from the values written for them
(`Tree.ofJson?_toJson`). The text of a tree reads back as long as its types are not nested too
deeply for the reader, and is refused otherwise (`Tree.ofText?_jsonText`). -/

namespace Espalier

/-! ## Members that may be left out -/

theorem filter_presentMember (name other : String) (o : Option Json) :
    (presentMember name o).filter (fun m => m.1 == other) =
      if name = other then presentMember name o else [] := by
  cases o <;> simp [presentMember, List.filter_cons]

theorem filter_listMember {α : Type} (name other : String) (f : α → Json) (items : List α) :
    (listMember name f items).filter (fun m => m.1 == other) =
      if name = other then listMember name f items else [] := by
  cases items <;> simp [listMember, List.filter_cons]

/-- A list reads back that was left out where it was empty. -/
theorem defaulted?_listMember {α : Type} {f : Json → Option α} {g : α → Json} {items : List α}
    {name : String} {ms : List (String × Json)}
    (hms : Json.unique? ms name = Json.unique? (listMember name g items) name)
    (h : ∀ a ∈ items, f (g a) = some a) :
    Json.defaulted? [] (Json.list? f) ms name = some items := by
  have hlist := Json.list?_map h
  rw [Json.defaulted?, hms]
  cases items with
  | nil => rfl
  | cons a items =>
    rw [List.map_cons] at hlist
    simp [listMember, Json.unique?, hlist]

/-- A value reads back that was left out where it was absent. -/
theorem optional?_presentMember {α : Type} {f : Json → Option α} {g : α → Json} {o : Option α}
    {name : String} {ms : List (String × Json)}
    (hms : Json.unique? ms name = Json.unique? (presentMember name (o.map g)) name)
    (hnull : ∀ a, g a ≠ .null) (h : ∀ a ∈ o, f (g a) = some a) :
    Json.optional? f ms name = some o := by
  have hread := Json.nullable?_ofOption hnull h
  rw [Json.optional?, hms]
  cases o with
  | none => rfl
  | some a =>
    rw [Json.ofOption] at hread
    simp [presentMember, Json.unique?, hread]

/-! ## Nodes -/

theorem CommentKind.ofJson?_name (k : CommentKind) :
    CommentKind.ofJson? (.str k.name) = some k := by
  cases k <;> rfl

theorem Comment.ofJson?_toJson (c : Comment) : Comment.ofJson? c.toJson = some c := by
  simp [Comment.toJson, Comment.ofJson?, Json.required?, Json.unique?, CommentKind.ofJson?_name,
    Json.string?]

/-- The offsets of a span are numbers of 64 bits. -/
def Span.IsStored (s : Span) : Prop := s.start < Nat.pow 2 64 ∧ s.stop < Nat.pow 2 64

instance (s : Span) : Decidable s.IsStored := inferInstanceAs (Decidable (_ ∧ _))

theorem Span.ofJson?_toJson {s : Span} (h : s.IsStored) : Span.ofJson? s.toJson = some s := by
  simp [Span.toJson, Span.ofJson?, Json.required?, Json.unique?,
    Json.natBelow?_ofNat h.1 (Nat.le_refl _), Json.natBelow?_ofNat h.2 (Nat.le_refl _)]

namespace Node

/-- What a node names and where it lies fits the numbers that are kept for them. -/
structure IsStored (n : Node) : Prop where
  children : ∀ id ∈ n.kind.children, id.index < Nat.pow 2 32
  span : ∀ s ∈ n.span, s.IsStored

instance (n : Node) : Decidable n.IsStored :=
  decidable_of_iff ((∀ id ∈ n.kind.children, id.index < Nat.pow 2 32) ∧ ∀ s ∈ n.span, s.IsStored)
    ⟨fun h => ⟨h.1, h.2⟩, fun h => ⟨h.children, h.span⟩⟩

/-- The number written for a literal reads back as that literal. -/
def ReadsNumber (n : Node) : Prop := ∀ v ∈ n.kind.literal?, Json.double? v.toJson = some v

instance (n : Node) : Decidable n.ReadsNumber :=
  inferInstanceAs (Decidable (∀ v ∈ n.kind.literal?, Json.double? v.toJson = some v))

/-- The members that are written for a node. -/
def members (n : Node) : List (String × Json) :=
  [("type", .str n.type.name)] ++ n.kind.members
    ++ listMember "leading_comments" Comment.toJson n.leading
    ++ listMember "trailing_comments" Comment.toJson n.trailing
    ++ listMember "inner_comments" Comment.toJson n.inner
    ++ presentMember "span" (n.span.map Span.toJson)

theorem toJson_eq (n : Node) : n.toJson = .obj n.members := rfl

section Members

variable (n : Node)

/-- The members that every node may have are looked for behind the type and the kind. -/
theorem unique?_reserved {name : String} (h : name ∈ NodeKind.reserved) :
    Json.unique? n.members name = Json.unique? (("type", .str n.type.name) ::
      (listMember "leading_comments" Comment.toJson n.leading
        ++ listMember "trailing_comments" Comment.toJson n.trailing
        ++ listMember "inner_comments" Comment.toJson n.inner
        ++ presentMember "span" (n.span.map Span.toJson))) name := by
  have hkind : n.kind.members.filter (fun m => m.1 == name) = [] := by
    rw [List.filter_eq_nil_iff]
    intro m hm heq
    exact n.kind.not_reserved m hm (eq_of_beq heq ▸ h)
  rw [Json.unique?, Json.unique?, members]
  simp only [List.filter_append, hkind, List.append_assoc, List.filter_cons, List.cons_append,
    List.nil_append]

theorem unique?_type : Json.unique? n.members "type" = some (some (.str n.type.name)) := by
  rw [n.unique?_reserved (by decide)]
  simp [Json.unique?, filter_listMember, filter_presentMember]

theorem unique?_leading : Json.unique? n.members "leading_comments" =
    Json.unique? (listMember "leading_comments" Comment.toJson n.leading) "leading_comments" := by
  rw [n.unique?_reserved (by decide)]
  simp [Json.unique?, filter_listMember, filter_presentMember]

theorem unique?_trailing : Json.unique? n.members "trailing_comments" =
    Json.unique? (listMember "trailing_comments" Comment.toJson n.trailing)
      "trailing_comments" := by
  rw [n.unique?_reserved (by decide)]
  simp [Json.unique?, filter_listMember, filter_presentMember]

theorem unique?_inner : Json.unique? n.members "inner_comments" =
    Json.unique? (listMember "inner_comments" Comment.toJson n.inner) "inner_comments" := by
  rw [n.unique?_reserved (by decide)]
  simp [Json.unique?, filter_listMember, filter_presentMember]

theorem unique?_span : Json.unique? n.members "span" =
    Json.unique? (presentMember "span" (n.span.map Span.toJson)) "span" := by
  rw [n.unique?_reserved (by decide)]
  simp [Json.unique?, filter_listMember, filter_presentMember]

/-- The members that not every node may have are those of its kind. -/
theorem unique?_members {name : String} (h : name ∉ NodeKind.reserved) :
    Json.unique? n.members name = Json.unique? n.kind.members name := by
  simp only [NodeKind.reserved, List.mem_cons, List.not_mem_nil, or_false, not_or] at h
  simp [Json.unique?, members, filter_listMember, filter_presentMember, h, Ne.symm]

end Members

/-- A node reads back. -/
theorem ofJson?_toJson {n : Node} (hstored : n.IsStored) (hnumber : n.ReadsNumber) :
    Node.ofJson? n.toJson = some n := by
  have hkind : NodeKind.ofJson? n.members = some n.kind := by
    simp only [NodeKind.ofJson?, Json.required?, unique?_type, NodeKind.typeOfJson?,
      NodeType.ofName?_name, Option.bind_eq_bind, Option.bind_some]
    rw [NodeKind.ofMembers?_congr fun _ => n.unique?_members]
    exact NodeKind.ofMembers?_members hstored.children hnumber
  have hspan : Json.optional? Span.ofJson? n.members "span" = some n.span :=
    optional?_presentMember n.unique?_span (fun _ h => by cases h) fun s hs =>
      Span.ofJson?_toJson (hstored.span s hs)
  have hcomments {name : String} {cs : List Comment}
      (h : Json.unique? n.members name = Json.unique? (listMember name Comment.toJson cs) name) :
      Json.defaulted? [] (Json.list? Comment.ofJson?) n.members name = some cs :=
    defaulted?_listMember h fun c _ => c.ofJson?_toJson
  simp [toJson_eq, Node.ofJson?, hkind, hspan, hcomments n.unique?_leading,
    hcomments n.unique?_trailing, hcomments n.unique?_inner]

end Node

/-! ## Trees -/

namespace Tree

/-- The ids and offsets of a tree fit the numbers that are kept for them. -/
structure IsStored (t : Tree) : Prop where
  nodes : ∀ n ∈ t.nodes.toList, n.IsStored
  root : ∀ id ∈ t.root, id.index < Nat.pow 2 32

instance (t : Tree) : Decidable t.IsStored :=
  decidable_of_iff ((∀ n ∈ t.nodes.toList, n.IsStored) ∧ ∀ id ∈ t.root, id.index < Nat.pow 2 32)
    ⟨fun h => ⟨h.1, h.2⟩, fun h => ⟨h.nodes, h.root⟩⟩

/-- The numbers written for the literals of a tree read back as those literals. -/
def ReadsNumbers (t : Tree) : Prop := ∀ n ∈ t.nodes.toList, n.ReadsNumber

instance (t : Tree) : Decidable t.ReadsNumbers :=
  inferInstanceAs (Decidable (∀ n ∈ t.nodes.toList, n.ReadsNumber))

/-- A tree reads back. -/
theorem ofJson?_toJson {t : Tree} (hstored : t.IsStored) (hnumbers : t.ReadsNumbers) :
    ofJson? t.toJson = some t := by
  obtain ⟨nodes, root, source⟩ := t
  have hnodes : Json.list? Node.ofJson? (.arr (nodes.toList.map Node.toJson)) =
      some nodes.toList :=
    Json.list?_map fun n hn => Node.ofJson?_toJson (hstored.nodes n hn) (hnumbers n hn)
  have hroot : ∀ id, root = some id → NodeId.ofJson? id.toJson = some id := fun id hid =>
    NodeId.ofJson?_toJson (hstored.root id hid)
  have hid : ∀ id : NodeId, Json.nullable? NodeId.ofJson? id.toJson =
      (NodeId.ofJson? id.toJson).map some := fun _ => rfl
  have htext : ∀ s : String, Json.nullable? Json.string? (.str s) = some (some s) := fun _ => rfl
  cases root <;> cases source <;>
    simp_all [toJson, ofJson?, Json.required?, Json.unique?, presentMember, ofParts?]

end Tree

/-! ## Depth -/

namespace Json

theorem depthOfMembers_le {ms : List (String × Json)} {d : Nat} :
    depthOfMembers ms ≤ d ↔ ∀ m ∈ ms, m.2.depth ≤ d := by
  induction ms with
  | nil => simp [depthOfMembers]
  | cons m ms ih => rw [depthOfMembers, Nat.max_le, ih, List.forall_mem_cons]

theorem depthOfList_le {items : List Json} {d : Nat} :
    depthOfList items ≤ d ↔ ∀ j ∈ items, j.depth ≤ d := by
  induction items with
  | nil => simp [depthOfList]
  | cons j items ih => rw [depthOfList, Nat.max_le, ih, List.forall_mem_cons]

theorem depth_obj_le {ms : List (String × Json)} {d : Nat} :
    (obj ms).depth ≤ d + 1 ↔ ∀ m ∈ ms, m.2.depth ≤ d := by
  rw [depth, Nat.add_le_add_iff_right, depthOfMembers_le]

theorem depth_arr_le {items : List Json} {d : Nat} :
    (arr items).depth ≤ d + 1 ↔ ∀ j ∈ items, j.depth ≤ d := by
  rw [depth, Nat.add_le_add_iff_right, depthOfList_le]

end Json

theorem Comment.depth_toJson (c : Comment) : c.toJson.depth = 1 := rfl

theorem Span.depth_toJson (s : Span) : s.toJson.depth = 1 := rfl

theorem Double.depth_toJson (v : Double) : v.toJson.depth = 0 := by
  unfold toJson
  cases v.jsonNumber? <;> rfl

/-- All parts of a kind but its type are nested at most one level deep. -/
theorem NodeKind.Part.depth_le {k : NodeKind} {j : Json} (h : k.Part j) {d : Nat}
    (htype : ∀ t ∈ k.writtenType?, t.levels ≤ d + 1) : j.depth ≤ d + 1 := by
  cases h with
  | node _ => exact Nat.zero_le _
  | nodes _ =>
    rw [NodeId.listToJson, Json.depth_arr_le]
    intro j hj
    obtain ⟨id, -, rfl⟩ := List.mem_map.1 hj
    exact Nat.zero_le d
  | absent => exact Nat.zero_le _
  | flag _ => exact Nat.zero_le _
  | text _ => exact Nat.zero_le _
  | texts _ =>
    rw [Json.depth_arr_le]
    intro j hj
    obtain ⟨s, -, rfl⟩ := List.mem_map.1 hj
    exact Nat.zero_le d
  | type ht => rw [ValueType.depth_toJson]; exact htype _ ht
  | number _ => rw [Double.depth_toJson]; exact Nat.zero_le _

/-- A node is nested one level deeper than its type, and at least as deep as a comment. -/
theorem Node.depth_toJson_le {n : Node} {d : Nat} :
    n.toJson.depth ≤ d + 3 ↔ ∀ t ∈ n.kind.writtenType?, t.levels ≤ d + 2 := by
  have hcomments : ∀ (name : String) (cs : List Comment),
      ∀ m ∈ listMember name Comment.toJson cs, m.2.depth ≤ d + 2 := by
    intro name cs
    rw [forall_listMember]
    intro _
    rw [Json.depth_arr_le]
    intro j hj
    obtain ⟨c, -, rfl⟩ := List.mem_map.1 hj
    rw [c.depth_toJson]
    omega
  have hspan : ∀ m ∈ presentMember "span" (n.span.map Span.toJson), m.2.depth ≤ d + 2 := by
    rw [forall_presentMember]
    intro j hj
    obtain ⟨s, -, rfl⟩ := Option.map_eq_some_iff.1 hj
    rw [s.depth_toJson]
    omega
  rw [toJson_eq, Json.depth_obj_le]
  constructor
  · intro h t ht
    obtain ⟨m, hm, hmt⟩ := n.kind.exists_member_of_written ht
    rw [← ValueType.depth_toJson, ← hmt]
    exact h m (by simp [members, hm])
  · intro h
    simp only [members, List.forall_mem_append]
    refine ⟨⟨⟨⟨⟨?_, ?_⟩, hcomments _ _⟩, hcomments _ _⟩, hcomments _ _⟩, hspan⟩
    · intro m hm
      obtain rfl := List.mem_singleton.1 hm
      exact Nat.zero_le _
    · exact fun m hm => (n.kind.part_of_mem_members m hm).depth_le h

namespace Tree

/-- A tree is nested two levels deeper than its nodes. -/
theorem depth_toJson_le {t : Tree} {d : Nat} :
    t.toJson.depth ≤ d + 5 ↔
      ∀ n ∈ t.nodes.toList, ∀ ty ∈ n.kind.writtenType?, ty.levels ≤ d + 2 := by
  have hroot : ∀ j ∈ t.root.map NodeId.toJson, j.depth ≤ d + 4 := by
    intro j hj
    obtain ⟨id, -, rfl⟩ := Option.map_eq_some_iff.1 hj
    exact Nat.zero_le _
  have hsource : ∀ j ∈ t.source.map Json.str, j.depth ≤ d + 4 := by
    intro j hj
    obtain ⟨s, -, rfl⟩ := Option.map_eq_some_iff.1 hj
    exact Nat.zero_le _
  rw [toJson, Json.depth_obj_le]
  simp only [List.forall_mem_append, forall_presentMember, List.forall_mem_singleton,
    Json.depth_arr_le, List.forall_mem_map, Node.depth_toJson_le]
  rw [and_iff_left hsource, and_iff_left hroot]

end Tree

/-! ## Numbers -/

namespace Json

theorem allNumbersOfMembers_iff {p : Number → Bool} {ms : List (String × Json)} :
    allNumbersOfMembers p ms ↔ ∀ m ∈ ms, m.2.allNumbers p := by
  induction ms with
  | nil => simp [allNumbersOfMembers]
  | cons m ms ih => rw [allNumbersOfMembers, Bool.and_eq_true, ih, List.forall_mem_cons]

theorem allNumbersOfList_iff {p : Number → Bool} {items : List Json} :
    allNumbersOfList p items ↔ ∀ j ∈ items, j.allNumbers p := by
  induction items with
  | nil => simp [allNumbersOfList]
  | cons j items ih => rw [allNumbersOfList, Bool.and_eq_true, ih, List.forall_mem_cons]

theorem allNumbers_obj {p : Number → Bool} {ms : List (String × Json)} :
    (obj ms).allNumbers p ↔ ∀ m ∈ ms, m.2.allNumbers p := by
  rw [allNumbers, allNumbersOfMembers_iff]

theorem allNumbers_arr {p : Number → Bool} {items : List Json} :
    (arr items).allNumbers p ↔ ∀ j ∈ items, j.allNumbers p := by
  rw [allNumbers, allNumbersOfList_iff]

end Json

/-- What holds of all natural numbers of 64 bits as they are written. -/
def Json.HoldsOfNaturals (p : Json.Number → Bool) : Prop :=
  ∀ n < Nat.pow 2 64, p (.ofDigits (Decimal.digitsOf n))

section Numbers

variable {p : Json.Number → Bool} (hp : Json.HoldsOfNaturals p)

include hp

theorem NodeId.allNumbers_toJson {id : NodeId} (h : id.index < Nat.pow 2 32) :
    id.toJson.allNumbers p :=
  hp id.index (Nat.lt_trans h (by decide))

theorem NodeKind.Part.allNumbers {k : NodeKind} {j : Json} (h : k.Part j)
    (hids : ∀ id ∈ k.children, id.index < Nat.pow 2 32)
    (hliteral : ∀ v ∈ k.literal?, v.toJson.allNumbers p) : j.allNumbers p := by
  cases h with
  | node hid => exact NodeId.allNumbers_toJson hp (hids _ hid)
  | nodes hsub =>
    rw [NodeId.listToJson, Json.allNumbers_arr]
    intro j hj
    obtain ⟨id, hid, rfl⟩ := List.mem_map.1 hj
    exact NodeId.allNumbers_toJson hp (hids id (hsub id hid))
  | absent => rfl
  | flag _ => rfl
  | text _ => rfl
  | texts _ =>
    rw [Json.allNumbers_arr]
    intro j hj
    obtain ⟨s, -, rfl⟩ := List.mem_map.1 hj
    rfl
  | type _ => exact ValueType.allNumbers_toJson p _
  | number hv => exact hliteral _ hv

theorem Span.allNumbers_toJson {s : Span} (h : s.IsStored) : s.toJson.allNumbers p := by
  rw [toJson, Json.allNumbers_obj]
  simp only [List.forall_mem_cons, List.not_mem_nil, false_implies, implies_true, and_true]
  exact ⟨hp _ h.1, hp _ h.2⟩

theorem Node.allNumbers_toJson {n : Node} (hstored : n.IsStored)
    (hliteral : ∀ v ∈ n.kind.literal?, v.toJson.allNumbers p) : n.toJson.allNumbers p := by
  have hcomments : ∀ (name : String) (cs : List Comment),
      ∀ m ∈ listMember name Comment.toJson cs, m.2.allNumbers p := by
    intro name cs
    rw [forall_listMember]
    intro _
    rw [Json.allNumbers_arr]
    intro j hj
    obtain ⟨c, -, rfl⟩ := List.mem_map.1 hj
    rfl
  rw [toJson_eq, Json.allNumbers_obj]
  simp only [members, List.forall_mem_append, forall_presentMember]
  refine ⟨⟨⟨⟨⟨?_, ?_⟩, hcomments _ _⟩, hcomments _ _⟩, hcomments _ _⟩, ?_⟩
  · intro m hm
    obtain rfl := List.mem_singleton.1 hm
    rfl
  · exact fun m hm => (n.kind.part_of_mem_members m hm).allNumbers hp hstored.children hliteral
  · intro j hj
    obtain ⟨s, hs, rfl⟩ := Option.map_eq_some_iff.1 hj
    exact Span.allNumbers_toJson hp (hstored.span s hs)

theorem Tree.allNumbers_toJson {t : Tree} (hstored : t.IsStored)
    (hliteral : ∀ n ∈ t.nodes.toList, ∀ v ∈ n.kind.literal?, v.toJson.allNumbers p) :
    t.toJson.allNumbers p := by
  rw [toJson, Json.allNumbers_obj]
  simp only [List.forall_mem_append, forall_presentMember, List.forall_mem_singleton,
    Json.allNumbers_arr, List.forall_mem_map]
  refine ⟨⟨fun n hn => Node.allNumbers_toJson hp (hstored.nodes n hn) (hliteral n hn), ?_⟩, ?_⟩
  · intro j hj
    obtain ⟨id, hid, rfl⟩ := Option.map_eq_some_iff.1 hj
    exact NodeId.allNumbers_toJson hp (hstored.root id hid)
  · intro j hj
    obtain ⟨s, -, rfl⟩ := Option.map_eq_some_iff.1 hj
    rfl

end Numbers

theorem Json.holdsOfNaturals_isSpelled : HoldsOfNaturals Number.isSpelled := fun n _ =>
  Number.isSpelled_digitsOf n

theorem Json.holdsOfNaturals_isReadable : HoldsOfNaturals Number.isReadable := fun n hn => by
  rw [Number.isReadable, Numeral.ofNumber?_digitsOf hn]
  rfl

theorem Double.isSpelled_toJson (v : Double) : v.toJson.allNumbers Json.Number.isSpelled := by
  unfold toJson
  cases h : v.jsonNumber? with
  | none => rfl
  | some n => exact isSpelled_jsonNumber? h

/-- A number that reads back stands for a value. -/
theorem Double.isReadable_toJson {v : Double} (h : Json.double? v.toJson = some v) :
    v.toJson.allNumbers Json.Number.isReadable := by
  unfold toJson at h ⊢
  cases hn : v.jsonNumber? with
  | none => rfl
  | some n =>
    rw [hn] at h
    obtain ⟨numeral, hnumeral, -⟩ := Option.map_eq_some_iff.1 h
    rw [Json.ofOption, Json.allNumbers, Json.Number.isReadable, hnumeral]
    rfl

/-! ## Texts -/

namespace Json.Shape

mutual

theorem asks_any : ∀ j : Json, any.asks j
  | .null | .bool _ | .num _ | .str _ => rfl
  | .arr items => by simp [asks, isIgnored, asksItems_any 0 items]
  | .obj ms => by simp [asks, isIgnored, asksMembers_any ms]

theorem asksItems_any : ∀ (index : Nat) (items : List Json), any.asksItems index items
  | _, [] => rfl
  | index, j :: items => by
    simp [asksItems, item, asks_any j, asksItems_any (index + 1) items]

theorem asksMembers_any : ∀ ms : List (String × Json), any.asksMembers ms
  | [] => rfl
  | (_, j) :: ms => by simp [asksMembers, member, asks_any j, asksMembers_any ms]

end

theorem asksMembers_iff {s : Shape} {ms : List (String × Json)} :
    s.asksMembers ms ↔ ∀ m ∈ ms, (s.member m.1).asks m.2 := by
  induction ms with
  | nil => simp [asksMembers]
  | cons m ms ih => rw [asksMembers, Bool.and_eq_true, ih, List.forall_mem_cons]

theorem asksItems_list {s : Shape} {items : List Json} (index : Nat) :
    (list s).asksItems index items ↔ ∀ j ∈ items, s.asks j := by
  induction items generalizing index with
  | nil => simp [asksItems]
  | cons j items ih =>
    rw [asksItems, Bool.and_eq_true, ih, List.forall_mem_cons]
    rfl

theorem asks_obj {s : Shape} {ms : List (String × Json)} (hs : s.isIgnored = false) :
    s.asks (.obj ms) ↔ ∀ m ∈ ms, (s.member m.1).asks m.2 := by
  rw [asks, hs, Bool.not_false, Bool.true_and, asksMembers_iff]

theorem asks_list {s : Shape} {items : List Json} :
    (list s).asks (.arr items) ↔ ∀ j ∈ items, s.asks j := by
  rw [asks, show (list s).isIgnored = false from rfl, Bool.not_false, Bool.true_and,
    asksItems_list]

end Json.Shape

theorem Comment.asks_toJson (c : Comment) : Comment.shape.asks c.toJson := rfl

theorem Span.asks_toJson (s : Span) : Span.shape.asks s.toJson := rfl

theorem Node.member_shape {name : String} (h : name ∉ NodeKind.reserved) :
    Node.shape.member name = .any := by
  simp only [NodeKind.reserved, List.mem_cons, List.not_mem_nil, or_false, not_or] at h
  simp [Node.shape, Json.Shape.member, List.lookup_cons, beq_eq_false_iff_ne.2 h.2.1,
    beq_eq_false_iff_ne.2 h.2.2.1, beq_eq_false_iff_ne.2 h.2.2.2.1,
    beq_eq_false_iff_ne.2 h.2.2.2.2]

/-- All that is written for a node is asked for. -/
theorem Node.asks_toJson (n : Node) : Node.shape.asks n.toJson := by
  have hcomments : ∀ cs : List Comment,
      (Json.Shape.list Comment.shape).asks (.arr (cs.map Comment.toJson)) := by
    intro cs
    rw [Json.Shape.asks_list, List.forall_mem_map]
    exact fun c _ => c.asks_toJson
  rw [toJson_eq, Json.Shape.asks_obj rfl]
  simp only [members, List.forall_mem_append, forall_presentMember, forall_listMember]
  refine ⟨⟨⟨⟨⟨?_, ?_⟩, fun _ => hcomments _⟩, fun _ => hcomments _⟩, fun _ => hcomments _⟩, ?_⟩
  · intro m hm
    obtain rfl := List.mem_singleton.1 hm
    rfl
  · intro m hm
    rw [member_shape (n.kind.not_reserved m hm)]
    exact Json.Shape.asks_any m.2
  · intro j hj
    obtain ⟨s, -, rfl⟩ := Option.map_eq_some_iff.1 hj
    exact s.asks_toJson

namespace Tree

/-- All that is written for a tree is asked for. -/
theorem asks_toJson (t : Tree) : shape.asks t.toJson := by
  rw [toJson, Json.Shape.asks_obj rfl]
  simp only [List.forall_mem_append, forall_presentMember, List.forall_mem_singleton]
  refine ⟨⟨?_, ?_⟩, ?_⟩
  · show (Json.Shape.list Node.shape).asks (.arr (t.nodes.toList.map Node.toJson))
    rw [Json.Shape.asks_list, List.forall_mem_map]
    exact fun n _ => n.asks_toJson
  · exact fun j _ => Json.Shape.asks_any j
  · exact fun j _ => Json.Shape.asks_any j

/-- Is no type in the tree nested so deeply that its text is refused? Around a type lie the tree,
the list of its nodes, and a node. -/
def typesFit (t : Tree) : Bool :=
  t.nodes.toList.all fun n => n.kind.writtenType?.all fun ty => decide (ty.levels + 3 ≤ maxDepth)

theorem typesFit_iff (t : Tree) : t.typesFit ↔ t.toJson.depth ≤ maxDepth := by
  rw [show maxDepth = 122 + 5 from rfl, depth_toJson_le, typesFit, List.all_eq_true]
  refine forall₂_congr fun n _ => ?_
  cases n.kind.writtenType? with
  | none => simp
  | some ty => simp [maxDepth]

/-- The text of a tree is read as what is written for it, unless that is nested too deeply. -/
theorem parse?_jsonText {t : Tree} (hstored : t.IsStored) :
    Json.parse? shape maxDepth t.jsonText = if t.typesFit then some t.toJson else none := by
  have hspelled : t.toJson.allNumbers Json.Number.isSpelled :=
    allNumbers_toJson Json.holdsOfNaturals_isSpelled hstored fun _ _ v _ => v.isSpelled_toJson
  rw [jsonText, Json.parse?_pretty maxDepth t.asks_toJson hspelled]
  by_cases h : t.toJson.depth ≤ maxDepth
  · rw [if_pos h, if_pos (t.typesFit_iff.2 h)]
  · rw [if_neg h, if_neg fun hfit => h (t.typesFit_iff.1 hfit)]

theorem ofText?_of_typesFit {t : Tree} (hstored : t.IsStored) (hnumbers : t.ReadsNumbers)
    (h : t.typesFit) : ofText? t.jsonText = some t := by
  have hreadable : t.toJson.allNumbers Json.Number.isReadable :=
    allNumbers_toJson Json.holdsOfNaturals_isReadable hstored fun n hn v hv =>
      Double.isReadable_toJson (hnumbers n hn v hv)
  rw [ofText?, parse?_jsonText hstored, if_pos h]
  simp [hreadable, ofJson?_toJson hstored hnumbers]

theorem ofText?_of_not_typesFit {t : Tree} (hstored : t.IsStored) (h : ¬ t.typesFit) :
    ofText? t.jsonText = none := by
  rw [ofText?, parse?_jsonText hstored, if_neg h]
  rfl

/-- **JSON round trip.** The text of a tree reads back as that tree as long as its types are not
nested too deeply for the reader, and is refused otherwise. -/
theorem ofText?_jsonText {t : Tree} (hstored : t.IsStored) (hnumbers : t.ReadsNumbers) :
    ofText? t.jsonText = if t.typesFit then some t else none := by
  split
  · next h => exact ofText?_of_typesFit hstored hnumbers h
  · next h => exact ofText?_of_not_typesFit hstored h

/-- A program `// note↵"use strict"; x;` with a number and a type in it. -/
def noted : Tree where
  nodes := #[
    { kind := .numericLiteral ⟨0x3FF8000000000000⟩ },
    { kind := .identifier "x" (some (.union [.generic "Array", .null])), span := some ⟨3, 4⟩ },
    { kind := .assignmentExpression .assign ⟨1⟩ ⟨0⟩ },
    { kind := .expressionStatement ⟨2⟩, leading := [⟨.line, "note"⟩] },
    { kind := .program [⟨3⟩] ["use strict"] }]
  root := some ⟨4⟩

/-- The round trip of a program with a number, a type, a comment, a span and a directive. -/
theorem ofText?_jsonText_noted :
    noted.IsStored ∧ noted.ReadsNumbers ∧ ofText? noted.jsonText = some noted := by
  have hstored : noted.IsStored := by decide
  have hnumbers : noted.ReadsNumbers := by decide +kernel
  refine ⟨hstored, hnumbers, ?_⟩
  rw [ofText?_jsonText hstored hnumbers, if_pos (by decide)]

/-- A base type inside the given number of unions. -/
def nestedUnion : Nat → ValueType
  | 0 => .number
  | n + 1 => .union [nestedUnion n]

/-- The program `x;` whose variable has a type of sixty-two nested unions. -/
def overtyped : Tree where
  nodes := #[
    { kind := .identifier "x" (some (nestedUnion 62)) },
    { kind := .expressionStatement ⟨0⟩ },
    { kind := .program [⟨1⟩] [] }]
  root := some ⟨2⟩

/-- Not every tree reads back: the reader refuses what is nested too deeply. -/
theorem not_all_trees_read_back : ¬ ∀ t : Tree, t.IsStored → t.ReadsNumbers →
    ofText? t.jsonText = some t := by
  intro h
  have hstored : overtyped.IsStored := by decide
  have hfit : ¬ overtyped.typesFit := by decide +kernel
  have hread := h overtyped hstored (by decide)
  rw [ofText?_of_not_typesFit hstored hfit] at hread
  cases hread

end Tree

end Espalier
