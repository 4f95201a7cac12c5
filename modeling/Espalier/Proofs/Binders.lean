import Espalier.Path.Family
import Espalier.Proofs.Lexical
import Espalier.Proofs.Navigation

set_option autoImplicit false

/-! # The search for binding identifiers

The search goes down level by level, over nodes or over paths. Both searches find exactly the
names that the search leads to (`Tree.Named`), which for a pattern are the names it binds
(`Tree.IsTarget.named_iff`). -/

namespace Espalier

open SessionM

namespace Tree

variable (t : Tree)

/-- Where the search goes on below a node of this kind that is no identifier. -/
def nextBinders (k : NodeKind) : List NodeId := (t.bindingTargets? false k).getD []

/-- The search from the node leads to an identifier of this name. -/
inductive Named : NodeId → String → Prop
  | identifier {n : NodeId} {x : String} {declared : Option ValueType} :
    t.kind? n = some (.identifier x declared) → Named n x
  | through {n m : NodeId} {k : NodeKind} {x : String} :
    t.kind? n = some k → k.identifierName? = none → m ∈ t.nextBinders k → Named m x → Named n x

variable {t}

/-! ## One step -/

theorem mem_children_of_mem_fieldIds {k : NodeKind} {f : Field} {m : NodeId}
    (h : m ∈ k.fieldIds f) : m ∈ k.children := by
  unfold NodeKind.fieldIds at h
  cases hc : k.child? f with
  | none => simp [hc] at h
  | some c =>
    rw [hc] at h
    exact List.mem_flatMap.mpr ⟨_, (k.child?_eq_some_iff f c).mp hc, h⟩

theorem bindingTargets?_of_not_export {k : NodeKind} (h : k.type.isExportDeclaration = false) :
    t.bindingTargets? false k = some (k.type.bindingFields.flatMap k.fieldIds) := by
  simp [bindingTargets?, h]

theorem bindingTargets?_of_export {k : NodeKind} (h : k.type.isExportDeclaration = true)
    {d : NodeId} (hd : (k.child? .declaration).bind Child.node? = some d) :
    t.bindingTargets? false k =
      (t.type? d).map fun type => if type.isDeclaration then [d] else [] := by
  simp only [bindingTargets?, h, if_true, hd]
  cases t.type? d <;> rfl

theorem bindingTargets?_of_export_empty {k : NodeKind} (h : k.type.isExportDeclaration = true)
    (hd : (k.child? .declaration).bind Child.node? = none) :
    t.bindingTargets? false k = some [] := by
  simp only [bindingTargets?, h, if_true, hd]

theorem mem_children_of_declaration {k : NodeKind} {d : NodeId}
    (h : (k.child? .declaration).bind Child.node? = some d) : d ∈ k.children := by
  obtain ⟨c, hc, hcd⟩ := Option.bind_eq_some_iff.mp h
  refine mem_children_of_mem_fieldIds (f := .declaration) ?_
  unfold NodeKind.fieldIds
  rw [hc]
  cases c <;> simp_all [Child.node?, Child.ids]

/-- The step finds what to search next as long as the children are there. -/
theorem exists_bindingTargets? (outerOnly : Bool) {k : NodeKind}
    (h : ∀ c ∈ k.children, ∃ kc, t.kind? c = some kc) :
    ∃ ms, t.bindingTargets? outerOnly k = some ms := by
  cases hd : (k.child? .declaration).bind Child.node? with
  | none =>
    simp only [bindingTargets?, hd]
    split_ifs <;> exact ⟨_, rfl⟩
  | some d =>
    obtain ⟨kd, hkd⟩ := h d (mem_children_of_declaration hd)
    have htype : t.type? d = some kd.type := by
      simp only [kind?, Option.map_eq_some_iff] at hkd
      obtain ⟨node, hnode, rfl⟩ := hkd
      simp [type?, hnode, Node.type]
    simp only [bindingTargets?, hd, htype]
    split_ifs <;> exact ⟨_, rfl⟩

/-- The search goes on at children. -/
theorem mem_children_of_mem_bindingTargets {outerOnly : Bool} {k : NodeKind} {ms : List NodeId}
    (h : t.bindingTargets? outerOnly k = some ms) {m : NodeId} (hm : m ∈ ms) : m ∈ k.children := by
  unfold bindingTargets? at h
  split_ifs at h with hx ho hf
  · cases hd : (k.child? .declaration).bind Child.node? with
    | none =>
      rw [hd] at h
      cases h
      cases hm
    | some d =>
      rw [hd] at h
      obtain ⟨type, -, h⟩ := Option.bind_eq_some_iff.mp h
      cases h
      split at hm
      · obtain rfl := List.mem_singleton.mp hm
        exact mem_children_of_declaration hd
      · cases hm
  · cases h
    exact mem_children_of_mem_fieldIds hm
  · cases h
    cases hm
  · cases h
    obtain ⟨f, -, hm⟩ := List.mem_flatMap.mp hm
    exact mem_children_of_mem_fieldIds hm

theorem bindingTargets?_eq_some {k : NodeKind} (h : ∀ c ∈ k.children, ∃ kc, t.kind? c = some kc) :
    t.bindingTargets? false k = some (t.nextBinders k) := by
  obtain ⟨ms, hms⟩ := exists_bindingTargets? false h
  simp [nextBinders, hms]

theorem mem_children_of_mem_nextBinders {k : NodeKind} {m : NodeId} (h : m ∈ t.nextBinders k) :
    m ∈ k.children := by
  unfold nextBinders at h
  cases hms : t.bindingTargets? false k with
  | none => simp [hms] at h
  | some ms => exact mem_children_of_mem_bindingTargets hms (by simpa [hms] using h)

/-! ## Patterns -/

section Patterns

attribute [local simp] NodeKind.type NodeType.bindingFields NodeKind.fieldIds NodeKind.child?
  NodeKind.fields Child.ids

@[simp] theorem nextBinders_arrayPattern (ids : List NodeId) :
    t.nextBinders (.arrayPattern ids) = ids := by
  rw [nextBinders, bindingTargets?_of_not_export rfl]
  simp

@[simp] theorem nextBinders_objectPattern (ids : List NodeId) :
    t.nextBinders (.objectPattern ids) = ids := by
  rw [nextBinders, bindingTargets?_of_not_export rfl]
  simp

@[simp] theorem nextBinders_objectProperty (key v : NodeId) (computed shorthand : Bool) :
    t.nextBinders (.objectProperty key v computed shorthand) = [v] := by
  rw [nextBinders, bindingTargets?_of_not_export rfl]
  simp

@[simp] theorem nextBinders_restElement (e : NodeId) : t.nextBinders (.restElement e) = [e] := by
  rw [nextBinders, bindingTargets?_of_not_export rfl]
  simp

@[simp] theorem nextBinders_assignmentPattern (left right : NodeId) :
    t.nextBinders (.assignmentPattern left right) = [left] := by
  rw [nextBinders, bindingTargets?_of_not_export rfl]
  simp

@[simp] theorem nextBinders_memberExpression (object property : NodeId) (computed : Bool) :
    t.nextBinders (.memberExpression object property computed) = [] := by
  rw [nextBinders, bindingTargets?_of_not_export rfl]
  simp

end Patterns

/-- What the search finds from a node is known by its kind. -/
theorem named_iff_of_kind {n : NodeId} {k : NodeKind} (hk : t.kind? n = some k)
    (hid : k.identifierName? = none) (x : String) :
    t.Named n x ↔ ∃ m ∈ t.nextBinders k, t.Named m x := by
  constructor
  · intro h
    cases h with
    | identifier h =>
      rw [hk, Option.some.injEq] at h
      simp [h, NodeKind.identifierName?] at hid
    | through h _ hm hx =>
      rw [hk, Option.some.injEq] at h
      subst h
      exact ⟨_, hm, hx⟩
  · rintro ⟨m, hm, hx⟩
    exact .through hk hid hm hx

theorem named_iff_of_identifier {n : NodeId} {y : String} {declared : Option ValueType}
    (hk : t.kind? n = some (.identifier y declared)) (x : String) : t.Named n x ↔ x = y := by
  constructor
  · intro h
    cases h with
    | identifier h =>
      rw [hk] at h
      cases h
      rfl
    | through h hid _ _ =>
      rw [hk, Option.some.injEq] at h
      simp [← h, NodeKind.identifierName?] at hid
  · rintro rfl
    exact .identifier hk

theorem Binds.named {n : NodeId} {x : String} (h : t.Binds n x) : t.Named n x := by
  induction h with
  | identifier hk => exact .identifier hk
  | element hk he _ ih => exact .through hk rfl (by simpa using he) ih
  | member hk he _ ih => exact .through hk rfl (by simpa using he) ih
  | value hk _ ih => exact .through hk rfl (by simp) ih
  | rest hk _ ih => exact .through hk rfl (by simp) ih
  | initialized hk _ ih => exact .through hk rfl (by simp) ih

/-- From a pattern the search finds the names that the pattern binds. -/
theorem IsTarget.named_iff {n : NodeId} (h : t.IsTarget n) (x : String) :
    t.Named n x ↔ t.Binds n x := by
  refine ⟨?_, Binds.named⟩
  induction h with
  | identifier hk =>
    rw [named_iff_of_identifier hk]
    rintro rfl
    exact .identifier hk
  | access hk => rw [named_iff_of_kind hk rfl]; simp
  | array hk _ ih =>
    rw [named_iff_of_kind hk rfl, nextBinders_arrayPattern]
    rintro ⟨m, hm, hx⟩
    exact .element hk hm (ih m hm hx)
  | object hk _ ih =>
    rw [named_iff_of_kind hk rfl, nextBinders_objectPattern]
    rintro ⟨m, hm, hx⟩
    exact .member hk hm (ih m hm hx)
  | property hk _ ih =>
    rw [named_iff_of_kind hk rfl, nextBinders_objectProperty]
    rintro ⟨m, hm, hx⟩
    rw [List.mem_singleton] at hm
    subst hm
    exact .value hk (ih hx)
  | rest hk _ ih =>
    rw [named_iff_of_kind hk rfl, nextBinders_restElement]
    rintro ⟨m, hm, hx⟩
    rw [List.mem_singleton] at hm
    subst hm
    exact .rest hk (ih hx)
  | initialized hk _ ih =>
    rw [named_iff_of_kind hk rfl, nextBinders_assignmentPattern]
    rintro ⟨m, hm, hx⟩
    rw [List.mem_singleton] at hm
    subst hm
    exact .initialized hk (ih hx)

/-! ## The search over nodes -/

theorem mem_keys_recordSite {α : Type} (keepAll : Bool) (found : Table String (List α))
    (x y : String) (site : α) :
    y ∈ (recordSite keepAll found x site).keys ↔ y ∈ found.keys ∨ y = x := by
  rw [recordSite, Table.keys_insert]
  by_cases hx : x ∈ found.keys
  · rw [if_pos hx]
    constructor
    · exact .inl
    · rintro (h | rfl)
      · exact h
      · exact hx
  · simp [hx]

/-- The nodes to be searched after a level of nodes. -/
def Below (t : Tree) (level : List NodeId) (m : NodeId) : Prop :=
  ∃ n ∈ level, ∃ k, t.kind? n = some k ∧ k.identifierName? = none ∧ m ∈ t.nextBinders k

/-- The names of the identifiers in a level of nodes. -/
def NamedIn (t : Tree) (level : List NodeId) (x : String) : Prop :=
  ∃ n ∈ level, ∃ declared, t.kind? n = some (.identifier x declared)

/-- The names below a level are found in the level or in what is searched after it. -/
theorem named_level_iff (level : List NodeId) (x : String) :
    (∃ n ∈ level, t.Named n x) ↔ t.NamedIn level x ∨ ∃ m, t.Below level m ∧ t.Named m x := by
  constructor
  · rintro ⟨n, hn, hx⟩
    cases hx with
    | identifier hk => exact .inl ⟨n, hn, _, hk⟩
    | through hk hid hm hx => exact .inr ⟨_, ⟨n, hn, _, hk, hid, hm⟩, hx⟩
  · rintro (⟨n, hn, declared, hk⟩ | ⟨m, ⟨n, hn, k, hk, hid, hm⟩, hx⟩)
    · exact ⟨n, hn, .identifier hk⟩
    · exact ⟨n, hn, .through hk hid hm hx⟩

theorem DepthWithin.below {level : List NodeId} {d : Nat}
    (hd : ∀ n ∈ level, t.DepthWithin (d + 1) n) {m : NodeId} (hm : t.Below level m) :
    t.DepthWithin d m := by
  obtain ⟨n, hn, k, hk, -, hm⟩ := hm
  obtain ⟨k', hk', hc⟩ := hd n hn
  obtain rfl : k = k' := Option.some.inj (hk.symm.trans hk')
  exact hc m (mem_children_of_mem_nextBinders hm)

theorem bindingLevel?_cons {keepAll outerOnly : Bool} {n : NodeId} {k : NodeKind} (hk : t.kind? n = some k)
    (hid : k.identifierName? = none) (rest : List NodeId) (found : Table String (List NodeId)) :
    t.bindingLevel? keepAll outerOnly (n :: rest) found = (do
      let targets ← t.bindingTargets? outerOnly k
      let (found, below) ← t.bindingLevel? keepAll outerOnly rest found
      some (found, targets ++ below)) := by
  rw [bindingLevel?, hk]
  cases k with
  | identifier => cases hid
  | _ => rfl

theorem bindingLevel?_eq_some (keepAll : Bool) {d : Nat} (level : List NodeId)
    (hd : ∀ n ∈ level, t.DepthWithin (d + 1) n) (found : Table String (List NodeId)) :
    ∃ found' below, t.bindingLevel? keepAll false level found = some (found', below) ∧
      (∀ x, x ∈ found'.keys ↔ x ∈ found.keys ∨ t.NamedIn level x) ∧
      ∀ m, m ∈ below ↔ t.Below level m := by
  induction level generalizing found with
  | nil => exact ⟨found, [], rfl, by simp [NamedIn], by simp [Below]⟩
  | cons n level ih =>
    obtain ⟨k, hk, hc⟩ := hd n (by simp)
    have hd' : ∀ m ∈ level, t.DepthWithin (d + 1) m := fun m hm => hd m (by simp [hm])
    by_cases hid : k.identifierName? = none
    · obtain ⟨found', below, hrun, hkeys, hbelow⟩ := ih hd' found
      refine ⟨found', t.nextBinders k ++ below, ?_, fun x => ?_, fun m => ?_⟩
      · rw [bindingLevel?_cons hk hid, bindingTargets?_eq_some fun c hc' => (hc c hc').kind, hrun]
        rfl
      · rw [hkeys]
        simp only [NamedIn, List.mem_cons, exists_eq_or_imp, hk, Option.some.injEq]
        have hno : ¬ ∃ declared, k = .identifier x declared := by
          rintro ⟨declared, rfl⟩
          simp [NodeKind.identifierName?] at hid
        simp [hno]
      · rw [List.mem_append, hbelow]
        simp only [Below, List.mem_cons, exists_eq_or_imp, hk, Option.some.injEq]
        constructor
        · rintro (hm | hm)
          · exact .inl ⟨k, rfl, hid, hm⟩
          · exact .inr hm
        · rintro (⟨k', rfl, -, hm⟩ | hm)
          · exact .inl hm
          · exact .inr hm
    · cases k with
      | identifier y declared =>
        obtain ⟨found', below, hrun, hkeys, hbelow⟩ := ih hd' (recordSite keepAll found y n)
        refine ⟨found', below, ?_, fun x => ?_, fun m => ?_⟩
        · unfold bindingLevel?
          simp [hk, hrun]
        · rw [hkeys, mem_keys_recordSite]
          simp only [NamedIn, List.mem_cons, exists_eq_or_imp, hk, Option.some.injEq,
            NodeKind.identifier.injEq, exists_and_left, exists_eq', and_true]
          rw [or_assoc, eq_comm (a := x)]
        · rw [hbelow]
          simp only [Below, List.mem_cons, exists_eq_or_imp, hk, Option.some.injEq]
          constructor
          · exact .inr
          · rintro (⟨k', rfl, hid', -⟩ | hm)
            · simp [NodeKind.identifierName?] at hid'
            · exact hm
      | _ => exact absurd rfl hid

theorem bindingSearch?_eq_some (keepAll : Bool) {d fuel : Nat} (hfuel : d < fuel)
    (level : List NodeId) (hd : ∀ n ∈ level, t.DepthWithin d n)
    (found : Table String (List NodeId)) :
    ∃ found', t.bindingSearch? keepAll false fuel level found = some found' ∧
      ∀ x, x ∈ found'.keys ↔ x ∈ found.keys ∨ ∃ n ∈ level, t.Named n x := by
  induction fuel generalizing d level found with
  | zero => omega
  | succ fuel ih =>
    unfold bindingSearch?
    by_cases hl : level = []
    · exact ⟨found, by rw [if_pos hl], by simp [hl]⟩
    · rw [if_neg hl]
      cases d with
      | zero =>
        obtain ⟨n, hn⟩ := List.exists_mem_of_ne_nil level hl
        exact (hd n hn).elim
      | succ d =>
        obtain ⟨found₁, below, hrun, hkeys, hbelow⟩ := bindingLevel?_eq_some keepAll level hd found
        obtain ⟨found', hrun', hkeys'⟩ := ih (d := d) (by omega) below
          (fun m hm => .below hd ((hbelow m).mp hm)) found₁
        refine ⟨found', by rw [hrun]; exact hrun', fun x => ?_⟩
        rw [hkeys', hkeys, named_level_iff level, or_assoc]
        simp only [hbelow]

/-- The search over nodes finds the names it leads to. -/
theorem bindingIdentifiers?_eq_some (keepAll : Bool) {n : NodeId} (hd : t.DepthWithin t.size n) :
    ∃ found, t.bindingIdentifiers? n keepAll false = some found ∧
      ∀ x, x ∈ found.keys ↔ t.Named n x := by
  have hfuel : t.size < t.depthBound + 1 := by unfold depthBound; omega
  obtain ⟨found, hrun, hkeys⟩ :=
    bindingSearch?_eq_some keepAll hfuel [n] (by simpa using hd) .empty
  exact ⟨found, hrun, fun x => by rw [hkeys]; simp [Table.empty, Table.keys]⟩

end Tree

/-! ## The search over paths -/

namespace Session

/-- Each path holds a node, and the nodes they hold are those of the set. -/
structure Covers (s : Session) (ps : List PathId) (ms : Set NodeId) : Prop where
  held : ∀ p ∈ ps, ∃ m, s.Holds p m
  holds : ∀ m, (∃ p ∈ ps, s.Holds p m) ↔ m ∈ ms

section Covers

variable {s s' : Session} {K : Set NodeId} {ps qs : List PathId} {ms ns : Set NodeId}

theorem Covers.grew (hc : s.Covers ps ms) (h : s.Sound K) (hg : s.Grew s') : s'.Covers ps ms where
  held p hp := by
    obtain ⟨m, hm⟩ := hc.held p hp
    exact ⟨m, hg.holds h hm⟩
  holds m := by
    rw [← hc.holds m]
    refine exists_congr fun p => and_congr_right fun hp => ?_
    obtain ⟨_, d, hd, -⟩ := hc.held p hp
    exact hg.holds_iff h hd m

theorem Covers.append (hp : s.Covers ps ms) (hq : s.Covers qs ns) :
    s.Covers (ps ++ qs) (ms ∪ ns) where
  held p hm := (List.mem_append.mp hm).elim (hp.held p) (hq.held p)
  holds m := by
    rw [Set.mem_union, ← hp.holds m, ← hq.holds m]
    simp only [List.mem_append, or_and_right, exists_or]

/-- Paths at positions hold what stands there. -/
theorem Lists.covers {places : List Position} (hl : s.Lists K places ps s')
    (hocc : ∀ pos ∈ places, ∃ m, s.tree.occupant? pos = some m) :
    s'.Covers ps {m | ∃ pos ∈ places, s.tree.occupant? pos = some m} := by
  have hf := hl.linked
  have htree := hl.tree
  clear hl
  induction hf with
  | nil => exact ⟨by simp, by simp⟩
  | @cons p pos ps places hp _ ih =>
    obtain ⟨d, hfile, -⟩ := hp
    have hpm : ∀ m, s'.Holds p m ↔ s.tree.occupant? pos = some m := by
      intro m
      rw [← htree, ← hfile.node]
      constructor
      · rintro ⟨e, he, hm⟩
        obtain rfl : d = e := Option.some.inj (hfile.data.symm.trans he)
        exact hm
      · exact fun hm => ⟨d, hfile.data, hm⟩
    have ih := ih fun pos' hpos' => hocc pos' (by simp [hpos'])
    refine ⟨fun q hq => ?_, fun m => ?_⟩
    · rcases List.mem_cons.mp hq with rfl | hq
      · obtain ⟨m, hm⟩ := hocc pos (by simp)
        exact ⟨m, (hpm m).mpr hm⟩
      · exact ih.held q hq
    · have hm := ih.holds m
      simp only [Set.mem_ofPred_eq] at hm ⊢
      simp only [List.mem_cons, exists_eq_or_imp, hpm, hm]

end Covers

end Session

/-- What stands in a field are its nodes. -/
theorem Tree.mem_spots_iff {t : Tree} {n : NodeId} {k : NodeKind} (hk : t.kind? n = some k)
    (f : Field) (m : NodeId) :
    (∃ pos ∈ t.spots n f, t.occupant? pos = some m) ↔ m ∈ k.fieldIds f := by
  have hf : t.field? n f = k.child? f := by simp [Tree.field?, hk]
  unfold Tree.spots NodeKind.fieldIds
  rw [hf]
  cases hc : k.child? f with
  | none => simp
  | some c =>
    cases c with
    | one id => simp [Tree.occupant?, hf, hc, Child.node?, Child.ids, eq_comm]
    | opt id? =>
      cases id? with
      | none => simp [Child.ids]
      | some id => simp [Tree.occupant?, hf, hc, Child.node?, Child.ids, eq_comm]
    | many ids =>
      have hocc : ∀ i, t.occupant? (.item n f i) = ids[i]? := by
        intro i
        simp [Tree.occupant?, Tree.list?, hf, hc, Child.list?]
      simp only [List.mem_map, List.mem_range, Child.ids]
      constructor
      · rintro ⟨pos, ⟨i, _, rfl⟩, hm⟩
        rw [hocc] at hm
        exact List.mem_of_getElem? hm
      · intro hm
        obtain ⟨i, hi⟩ := List.mem_iff_getElem?.mp hm
        exact ⟨_, ⟨i, (List.getElem?_eq_some_iff.mp hi).1, rfl⟩, (hocc i).trans hi⟩

theorem Tree.spots_occupied {t : Tree} {n : NodeId} {f : Field} {pos : Position}
    (h : pos ∈ t.spots n f) : ∃ m, t.occupant? pos = some m := by
  unfold Tree.spots at h
  cases hc : t.field? n f with
  | none => simp [hc] at h
  | some c =>
    cases c with
    | one id =>
      obtain rfl : pos = .slot n f := by simpa [hc] using h
      exact ⟨id, by simp [Tree.occupant?, hc, Child.node?]⟩
    | opt id? =>
      cases id? with
      | none => simp [hc] at h
      | some id =>
        obtain rfl : pos = .slot n f := by simpa [hc] using h
        exact ⟨id, by simp [Tree.occupant?, hc, Child.node?]⟩
    | many ids =>
      simp only [hc, List.mem_map, List.mem_range] at h
      obtain ⟨i, hi, rfl⟩ := h
      exact ⟨ids[i], by simp [Tree.occupant?, Tree.list?, hc, Child.list?, hi]⟩

namespace PathId

open Session

variable {s : Session} {K : Set NodeId} {p : PathId} {n : NodeId} {k : NodeKind}

/-- The nodes of several fields. -/
theorem mapM_inField_returns (h : s.Sound K) (hp : s.Holds p n) (hk : s.tree.kind? n = some k)
    (fs : List Field) :
    Returns (fs.mapM p.inField) s fun pss s' =>
      s.Went K s' ∧ s'.Covers pss.flatten {m | m ∈ fs.flatMap k.fieldIds} := by
  induction fs generalizing s with
  | nil => exact .pure ⟨.refl h, by simp, by simp⟩
  | cons f fs ih =>
    rw [List.mapM_cons]
    refine (inField_returns h hp f).bind fun ps s₁ hps => ?_
    refine (ih hps.sound (hps.grew.holds h hp) (by rw [hps.tree]; exact hk)).bind
      fun pss s₂ hpss => .pure ?_
    refine ⟨hps.toWent.trans hpss.1, ?_⟩
    have hcov := ((hps.covers fun _ => Tree.spots_occupied).grew hps.sound hpss.1.grew).append hpss.2
    refine ⟨hcov.held, fun m => ?_⟩
    rw [List.flatten_cons, hcov.holds m]
    simp only [Set.mem_union, Set.mem_ofPred_eq, Tree.mem_spots_iff hk, List.flatMap_cons,
      List.mem_append]

/-- Where the search over paths goes on. -/
theorem bindingTargets_returns (h : s.Sound K) (hp : s.Holds p n) (hk : s.tree.kind? n = some k) :
    Returns (p.bindingTargets false k.type) s fun ps s' =>
      s.Went K s' ∧ s'.Covers ps {m | m ∈ s.tree.nextBinders k} := by
  unfold bindingTargets
  cases hx : k.type.isExportDeclaration with
  | false =>
    simp only [Bool.false_eq_true, if_false, Bool.false_and]
    refine (mapM_inField_returns h hp hk _).bind fun pss s' hpss => .pure ?_
    rw [Tree.nextBinders, Tree.bindingTargets?_of_not_export hx]
    exact hpss
  | true =>
    simp only [if_true]
    refine (child_arrives h hp .declaration).bind fun q s₁ hq => ?_
    have hfield : s.tree.occupant? (.slot n .declaration) =
        (k.child? .declaration).bind Child.node? := by
      simp [Tree.occupant?, Tree.field?, hk]
    obtain ⟨d, hd, hdn⟩ := hq.known
    rw [hfield] at hdn
    cases ho : (k.child? .declaration).bind Child.node? with
    | none =>
      rw [ho] at hdn
      have hany : q.isAny NodeType.isDeclaration s₁ = .ok false s₁ :=
        bind_of_ok (type?_run_of_empty hd hdn)
      refine returns_bind_of_ok hany (.pure ⟨hq.toWent, ?_⟩)
      rw [Tree.nextBinders, Tree.bindingTargets?_of_export_empty hx ho]
      exact ⟨by simp, by simp⟩
    | some m =>
      rw [ho] at hdn
      have hqm : s₁.Holds q m := ⟨d, hd, hdn⟩
      obtain ⟨km, hkm⟩ := hq.sound.forest.kind m (hq.sound.mem_of_holds hqm)
      have hany : q.isAny NodeType.isDeclaration s₁ = .ok km.type.isDeclaration s₁ :=
        bind_of_ok (type?_run_of_holds hqm hkm)
      refine returns_bind_of_ok hany (.pure ⟨hq.toWent, ?_⟩)
      rw [hq.tree] at hkm
      have htype : s.tree.type? m = some km.type := by
        simp only [Tree.kind?, Option.map_eq_some_iff] at hkm
        obtain ⟨node, hnode, rfl⟩ := hkm
        simp [Tree.type?, hnode, Node.type]
      rw [Tree.nextBinders, Tree.bindingTargets?_of_export hx ho, htype]
      simp only [Option.map_some, Option.getD_some]
      cases hdecl : km.type.isDeclaration with
      | false => exact ⟨by simp, by simp⟩
      | true =>
        refine ⟨fun r hr => ⟨m, by rw [List.mem_singleton.mp hr]; exact hqm⟩, fun m' => ?_⟩
        simp only [if_true, List.mem_singleton, exists_eq_left, Set.mem_ofPred_eq]
        constructor
        · exact fun hm' => hm'.unique_node hqm
        · rintro rfl
          exact hqm

end PathId

namespace Session

/-- What was found so far: each name with paths that hold identifiers of that name. -/
def Gathers (s : Session) (found : Table String (List PathId)) : Prop :=
  ∀ e ∈ found.entries, e.2 ≠ [] ∧
    ∀ q ∈ e.2, ∃ m declared, s.Holds q m ∧ s.tree.kind? m = some (.identifier e.1 declared)

theorem Gathers.empty (s : Session) : s.Gathers .empty := by simp [Gathers, Table.empty]

theorem Gathers.grew {s s' : Session} {K : Set NodeId} {found : Table String (List PathId)}
    (hf : s.Gathers found) (h : s.Sound K) (hg : s.Grew s') : s'.Gathers found := by
  intro e he
  refine ⟨(hf e he).1, fun q hq => ?_⟩
  obtain ⟨m, declared, hm, hk⟩ := (hf e he).2 q hq
  exact ⟨m, declared, hg.holds h hm, by rw [hg.tree]; exact hk⟩

theorem Gathers.recordSite {s : Session} {found : Table String (List PathId)}
    (hf : s.Gathers found) (keepAll : Bool) {p : PathId} {n : NodeId} {x : String}
    {declared : Option ValueType} (hp : s.Holds p n)
    (hk : s.tree.kind? n = some (.identifier x declared)) :
    s.Gathers (recordSite keepAll found x p) := by
  intro e he
  rcases Table.mem_entries_insert he with rfl | he
  · cases keepAll with
    | false =>
      refine ⟨by simp, fun q hq => ⟨n, declared, ?_, hk⟩⟩
      obtain rfl : q = p := by simpa using hq
      exact hp
    | true =>
      refine ⟨by simp, fun q hq => ?_⟩
      simp only [if_true, List.mem_append, List.mem_singleton] at hq
      rcases hq with hq | rfl
      · cases hg : found.get? x with
        | none => simp [hg] at hq
        | some sites =>
          rw [hg, Option.getD_some] at hq
          exact (hf _ (Table.mem_entries_of_get? hg)).2 q hq
      · exact ⟨n, declared, hp, hk⟩
  · exact hf e he

/-- What a level of the search over paths has found and has yet to search. -/
structure Level (s : Session) (K : Set NodeId) (ps : List PathId)
    (found : Table String (List PathId)) (r : Table String (List PathId) × List PathId)
    (s' : Session) : Prop extends Went s K s' where
  gathers : s'.Gathers r.1
  keys : ∀ x, x ∈ r.1.keys ↔ x ∈ found.keys ∨
    ∃ p ∈ ps, ∃ n declared, s.Holds p n ∧ s.tree.kind? n = some (.identifier x declared)
  below : s'.Covers r.2 {m | ∃ p ∈ ps, ∃ n k, s.Holds p n ∧ s.tree.kind? n = some k ∧
    k.identifierName? = none ∧ m ∈ s.tree.nextBinders k}

end Session

namespace PathId

open Session

variable {s : Session} {K : Set NodeId}

theorem bindingLevel_cons {keepAll outerOnly : Bool} {p : PathId} {n : NodeId} {k : NodeKind}
    (hp : s.Holds p n) (hk : s.tree.kind? n = some k) (hid : k.identifierName? = none)
    (rest : List PathId) (found : Table String (List PathId)) :
    bindingLevel keepAll outerOnly (p :: rest) found s = (do
      let targets ← p.bindingTargets outerOnly k.type
      let (found, below) ← bindingLevel keepAll outerOnly rest found
      pure (found, targets ++ below) : SessionM _) s := by
  rw [bindingLevel, bind_of_ok (kind?_run_of_holds hp hk)]
  cases k with
  | identifier => cases hid
  | _ => rfl

theorem bindingLevel_returns (keepAll : Bool) (ps : List PathId) (h : s.Sound K)
    (hps : ∀ p ∈ ps, ∃ n, s.Holds p n) (found : Table String (List PathId))
    (hfound : s.Gathers found) :
    Returns (bindingLevel keepAll false ps found) s (s.Level K ps found) := by
  induction ps generalizing s found with
  | nil => exact .pure ⟨.refl h, hfound, by simp, ⟨by simp, by simp⟩⟩
  | cons p ps ih =>
    obtain ⟨n, hp⟩ := hps p (by simp)
    have hps' : ∀ q ∈ ps, ∃ n, s.Holds q n := fun q hq => hps q (by simp [hq])
    have hone : ∀ m, s.Holds p m ↔ m = n := fun m =>
      ⟨fun hm => hm.unique_node hp, fun hm => hm ▸ hp⟩
    obtain ⟨k, hk⟩ := h.forest.kind n (h.mem_of_holds hp)
    cases hid : k.identifierName? with
    | none =>
      rw [Returns, bindingLevel_cons hp hk hid]
      refine (bindingTargets_returns h hp hk).bind fun targets s₁ ht => ?_
      have hps₁ : ∀ q ∈ ps, ∃ n, s₁.Holds q n := fun q hq =>
        (hps' q hq).imp fun _ hm => ht.1.grew.holds h hm
      refine (ih ht.1.sound hps₁ found (hfound.grew h ht.1.grew)).bind fun r s₂ hr => .pure ?_
      have hback : ∀ q ∈ ps, ∀ m, s₁.Holds q m ↔ s.Holds q m := by
        intro q hq m
        obtain ⟨_, e, he, -⟩ := hps' q hq
        exact ht.1.grew.holds_iff h he m
      refine ⟨ht.1.trans hr.toWent, hr.gathers, fun x => ?_, ?_⟩
      · rw [hr.keys, ht.1.tree]
        have hno : ∀ declared, k ≠ .identifier x declared := by
          rintro declared rfl
          simp [NodeKind.identifierName?] at hid
        simp only [List.mem_cons, exists_eq_or_imp, hone, exists_eq_left, hk, Option.some.injEq,
          hno, exists_false, false_or, exists_and_left]
        refine or_congr_right (exists_congr fun q => and_congr_right fun hq => ?_)
        simp only [hback q hq]
      · have hcov := (ht.2.grew ht.1.sound hr.grew).append hr.below
        refine ⟨hcov.held, fun m => ?_⟩
        rw [hcov.holds m, ht.1.tree]
        simp only [Set.mem_union, Set.mem_ofPred_eq, List.mem_cons, exists_eq_or_imp, hone,
          exists_eq_left, hk, Option.some.injEq, exists_and_left, exists_eq_left', hid, true_and]
        refine or_congr_right (exists_congr fun q => and_congr_right fun hq => ?_)
        simp only [hback q hq]
    | some y =>
      obtain ⟨declared, rfl⟩ := k.identifierName?_eq_some_iff.mp hid
      unfold bindingLevel
      refine returns_bind_of_ok (kind?_run_of_holds hp hk) ?_
      refine (ih h hps' _ (hfound.recordSite keepAll hp hk)).mono fun r s' hr => ?_
      refine ⟨hr.toWent, hr.gathers, fun x => ?_, ?_⟩
      · rw [hr.keys, Tree.mem_keys_recordSite, or_assoc]
        simp only [List.mem_cons, exists_eq_or_imp, hone, exists_eq_left, hk, Option.some.injEq,
          NodeKind.identifier.injEq, exists_and_left, exists_eq', and_true]
        rw [eq_comm (a := x)]
      · refine ⟨hr.below.held, fun m => ?_⟩
        rw [hr.below.holds m]
        simp only [Set.mem_ofPred_eq, List.mem_cons, exists_eq_or_imp, hone, exists_eq_left, hk,
          Option.some.injEq, exists_and_left, exists_eq_left', hid]
        simp

/-- The search over paths finds the names it leads to. -/
theorem bindingSearch_returns (keepAll : Bool) {depth fuel : Nat} (hfuel : depth < fuel)
    (ps : List PathId) (h : s.Sound K) (hps : ∀ p ∈ ps, ∃ n, s.Holds p n)
    (hdepth : ∀ p ∈ ps, ∀ n, s.Holds p n → s.tree.DepthWithin depth n)
    (found : Table String (List PathId)) (hfound : s.Gathers found) :
    Returns (bindingSearch keepAll false fuel ps found) s fun found' s' =>
      s.Went K s' ∧ s'.Gathers found' ∧
        ∀ x, x ∈ found'.keys ↔ x ∈ found.keys ∨ ∃ p ∈ ps, ∃ n, s.Holds p n ∧ s.tree.Named n x := by
  induction fuel generalizing s depth ps found with
  | zero => omega
  | succ fuel ih =>
    unfold bindingSearch
    by_cases hl : ps = []
    · rw [if_pos hl]
      exact .pure ⟨.refl h, hfound, by simp [hl]⟩
    · rw [if_neg hl]
      cases depth with
      | zero =>
        obtain ⟨p, hp⟩ := List.exists_mem_of_ne_nil ps hl
        obtain ⟨n, hn⟩ := hps p hp
        exact (hdepth p hp n hn).elim
      | succ depth =>
        refine (bindingLevel_returns keepAll ps h hps found hfound).bind fun r s₁ hr => ?_
        have hdepth₁ : ∀ q ∈ r.2, ∀ m, s₁.Holds q m → s₁.tree.DepthWithin depth m := by
          intro q hq m hm
          obtain ⟨p, hp, n, k, hpn, hk, -, hmem⟩ := (hr.below.holds m).mp ⟨q, hq, hm⟩
          obtain ⟨k', hk', hc⟩ := hdepth p hp n hpn
          obtain rfl : k = k' := Option.some.inj (hk.symm.trans hk')
          rw [hr.tree]
          exact hc m (Tree.mem_children_of_mem_nextBinders hmem)
        refine (ih (by omega : depth < fuel) r.2 hr.sound hr.below.held hdepth₁ r.1
          hr.gathers).mono fun found' s₂ hf => ?_
        refine ⟨hr.toWent.trans hf.1, hf.2.1, fun x => ?_⟩
        rw [hf.2.2, hr.keys, or_assoc, hr.tree]
        refine or_congr_right ⟨?_, ?_⟩
        · rintro (⟨p, hp, n, declared, hn, hk⟩ | ⟨q, hq, m, hm, hx⟩)
          · exact ⟨p, hp, n, hn, .identifier hk⟩
          · obtain ⟨p, hp, n, k, hn, hk, hid, hmem⟩ := (hr.below.holds m).mp ⟨q, hq, hm⟩
            exact ⟨p, hp, n, hn, .through hk hid hmem hx⟩
        · rintro ⟨p, hp, n, hn, hx⟩
          cases hx with
          | identifier hk => exact .inl ⟨p, hp, n, _, hn, hk⟩
          | @through _ m k _ hk hid hmem hx =>
            obtain ⟨q, hq, hm⟩ := (hr.below.holds m).mpr ⟨p, hp, n, k, hn, hk, hid, hmem⟩
            exact .inr ⟨q, hq, m, hm, hx⟩

/-- The names that the node at a path introduces; none when there is no node. -/
theorem bindingIdentifierPaths_returns (keepAll : Bool) {p : PathId} {d : PathData}
    (h : s.Sound K) (hd : s.paths[p.index]? = some d) :
    Returns (p.bindingIdentifierPaths keepAll false) s fun found s' =>
      s.Went K s' ∧ s'.Gathers found ∧
        ∀ x, x ∈ found.keys ↔ ∃ n, d.node = some n ∧ s.tree.Named n x := by
  unfold bindingIdentifierPaths
  rw [Returns, run_get_bind]
  cases hn : d.node with
  | none =>
    refine ⟨.empty, s, ?_, .refl h, .empty s, by simp [Table.empty, Table.keys]⟩
    have hlevel : bindingLevel keepAll false [p] .empty s = .ok (.empty, []) s := by
      unfold bindingLevel
      rw [bind_of_ok (kind?_run_of_empty hd hn)]
      rfl
    unfold bindingSearch
    rw [if_neg (by simp), bind_of_ok hlevel]
    rfl
  | some n =>
    have hp : s.Holds p n := ⟨d, hd, hn⟩
    have hdepth : ∀ q ∈ [p], ∀ m, s.Holds q m → s.tree.DepthWithin s.tree.size m := by
      intro q hq m hm
      exact h.forest.depthWithin (h.mem_of_holds hm)
    refine (bindingSearch_returns keepAll (by unfold Tree.depthBound; omega) [p] h
      (fun q hq => ⟨n, by rw [List.mem_singleton.mp hq]; exact hp⟩) hdepth .empty
      (.empty s)).mono fun found s' hf => ⟨hf.1, hf.2.1, fun x => ?_⟩
    rw [hf.2.2]
    simp only [Table.empty, Table.keys, List.map_nil, List.not_mem_nil, false_or,
      List.mem_singleton, exists_eq_left, Option.some.injEq, exists_eq_left']
    constructor
    · rintro ⟨m, hm, hx⟩
      rw [hp.unique_node hm]
      exact hx
    · exact fun hx => ⟨n, hp, hx⟩

end PathId

end Espalier
