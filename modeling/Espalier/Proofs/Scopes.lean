import Espalier.Proofs.Navigation
import Espalier.Scope.Basic

set_option autoImplicit false

/-! # The scope table

In an `Ordered` table every scope is younger than the scope around it, so the way outward from a
scope ends. What the look-ups find on that way is said by three relations: the outermost scope
(`Outermost`), the nearest scope of a function or a program (`Hoists`) and the nearest scope that
declares a name (`Finds`). -/

namespace Espalier

open SessionM

/-- Scopes are younger than the scopes around them, and the look-ups by block lead to scopes. -/
structure ScopeTable.Ordered (T : ScopeTable) : Prop where
  parent : ∀ (i : Nat) (sc : Scope) (j : ScopeId), T.scopes[i]? = some sc → sc.parent = some j → j.index < i
  byBlock : ∀ (n : NodeId) (i : ScopeId), T.byBlock.get? n = some i → i.index < T.scopes.size
  root : ∀ i : ScopeId, T.root = some i → i.index < T.scopes.size

/-- The place of a scope: its block and the scope around it. -/
def Scope.place (sc : Scope) : PathId × NodeType × Option ScopeId :=
  (sc.block, sc.blockType, sc.parent)

/-- Every scope of the first table is one of the second, with the names it declares. -/
structure ScopeTable.Extends (T T' : ScopeTable) : Prop where
  crawled : T'.crawled = T.crawled
  scope : ∀ (i : Nat) (sc : Scope), T.scopes[i]? = some sc → ∃ sc' : Scope, T'.scopes[i]? = some sc' ∧
    sc'.place = sc.place ∧ ∀ x, sc.bindings.contains x = true → sc'.bindings.contains x = true

theorem ScopeTable.Extends.refl (T : ScopeTable) : T.Extends T :=
  ⟨rfl, fun _ sc h => ⟨sc, h, rfl, fun _ hx => hx⟩⟩

theorem ScopeTable.Extends.trans {T T₁ T₂ : ScopeTable} (h₁ : T.Extends T₁)
    (h₂ : T₁.Extends T₂) : T.Extends T₂ where
  crawled := h₂.crawled.trans h₁.crawled
  scope i sc h := by
    obtain ⟨sc₁, hs₁, hp₁, hx₁⟩ := h₁.scope i sc h
    obtain ⟨sc₂, hs₂, hp₂, hx₂⟩ := h₂.scope i sc₁ hs₁
    exact ⟨sc₂, hs₂, hp₂.trans hp₁, fun x hx => hx₂ x (hx₁ x hx)⟩

theorem ScopeTable.Extends.size_le {T T' : ScopeTable} (h : T.Extends T') :
    T.scopes.size ≤ T'.scopes.size := by
  by_contra hlt
  obtain ⟨sc, hsc⟩ : ∃ sc : Scope, T.scopes[T'.scopes.size]? = some sc :=
    ⟨_, Array.getElem?_eq_getElem (by omega)⟩
  obtain ⟨sc', hsc', -⟩ := h.scope _ sc hsc
  have := (Array.getElem?_eq_some_iff.mp hsc').1
  omega

namespace Session

/-! ## Writing to a scope -/

/-- The session with one scope changed. -/
def mapScope (s : Session) (i : ScopeId) (f : Scope → Scope) : Session :=
  { s with scopes := { s.scopes with scopes := s.scopes.scopes.modify i.index f } }

section MapScope

variable (s : Session) (i : ScopeId) (f : Scope → Scope)

@[simp] theorem size_mapScope : (s.mapScope i f).scopes.scopes.size = s.scopes.scopes.size := by
  simp [mapScope]

@[simp] theorem tree_mapScope : (s.mapScope i f).tree = s.tree := rfl
@[simp] theorem paths_mapScope : (s.mapScope i f).paths = s.paths := rfl
@[simp] theorem root_mapScope : (s.mapScope i f).scopes.root = s.scopes.root := rfl
@[simp] theorem byBlock_mapScope : (s.mapScope i f).scopes.byBlock = s.scopes.byBlock := rfl

/-- Only the written scope changes. -/
theorem getElem?_mapScope (j : Nat) :
    (s.mapScope i f).scopes.scopes[j]? =
      if i.index = j then (s.scopes.scopes[j]?).map f else s.scopes.scopes[j]? := by
  simp only [mapScope, Array.getElem?_modify]

end MapScope

/-- A change of names leaves the places of the scopes. -/
theorem ordered_mapScope {s : Session} (h : s.scopes.Ordered) (i : ScopeId) {f : Scope → Scope}
    (hf : ∀ sc, (f sc).place = sc.place) : (s.mapScope i f).scopes.Ordered where
  parent j sc k hsc hk := by
    rw [getElem?_mapScope] at hsc
    split at hsc
    · obtain ⟨sc₀, hsc₀, rfl⟩ := Option.map_eq_some_iff.mp hsc
      have hp := hf sc₀
      simp only [Scope.place, Prod.mk.injEq] at hp
      exact h.parent j sc₀ k hsc₀ (hp.2.2 ▸ hk)
    · exact h.parent j sc k hsc hk
  byBlock n j hj := by
    rw [size_mapScope]
    exact h.byBlock n j hj
  root j hj := by
    rw [size_mapScope]
    exact h.root j hj

theorem extends_mapScope (s : Session) (i : ScopeId) {f : Scope → Scope}
    (hf : ∀ sc, (f sc).place = sc.place)
    (hx : ∀ sc x, sc.bindings.contains x = true → (f sc).bindings.contains x = true) :
    s.scopes.Extends (s.mapScope i f).scopes where
  crawled := rfl
  scope j sc hsc := by
    rw [getElem?_mapScope, hsc]
    split
    · exact ⟨f sc, rfl, hf sc, hx sc⟩
    · exact ⟨sc, rfl, rfl, fun _ h => h⟩

/-- Another scope table moves no path. -/
theorem alike_scopes (s : Session) (T : ScopeTable) : s.Alike { s with scopes := T } :=
  ⟨.refl _, rfl, rfl, fun _ => rfl⟩

theorem grew_scopes {s : Session} {K : Set NodeId} (h : s.Sound K) (T : ScopeTable) :
    s.Grew { s with scopes := T } where
  rest := rfl
  kept p d hd := (Grew.refl h).kept p d hd
  bucket _ _ hp := hp
  fresh _ _ _ hp _ := hp

/-! ## The way outward -/

/-- The second scope is the one around the first. -/
def Around (s : Session) (i j : ScopeId) : Prop :=
  ∃ sc : Scope, s.scopes.scopes[i.index]? = some sc ∧ sc.parent = some j

/-- Nothing is around the scope. -/
def IsOutermost (s : Session) (i : ScopeId) : Prop :=
  ∃ sc : Scope, s.scopes.scopes[i.index]? = some sc ∧ sc.parent = none

/-- The scope followed by those around it. -/
inductive Chain (s : Session) : ScopeId → List ScopeId → Prop
  | last {i : ScopeId} : s.IsOutermost i → Chain s i [i]
  | step {i j : ScopeId} {l : List ScopeId} : s.Around i j → Chain s j l → Chain s i (i :: l)

/-- The last scope on the way outward. -/
inductive Outermost (s : Session) : ScopeId → ScopeId → Prop
  | here {i : ScopeId} : s.IsOutermost i → Outermost s i i
  | outer {i j k : ScopeId} : s.Around i j → Outermost s j k → Outermost s i k

/-- The scope belongs to a function or a program. -/
def IsFunctionScope (s : Session) (i : ScopeId) : Prop :=
  ∃ sc : Scope, s.scopes.scopes[i.index]? = some sc ∧ sc.isFunctionScope = true

/-- The first scope of a function or a program on the way outward, or the last scope. -/
inductive Hoists (s : Session) : ScopeId → ScopeId → Prop
  | here {i : ScopeId} : s.IsFunctionScope i → Hoists s i i
  | last {i : ScopeId} : ¬ s.IsFunctionScope i → s.IsOutermost i → Hoists s i i
  | outer {i j k : ScopeId} : ¬ s.IsFunctionScope i → s.Around i j → Hoists s j k → Hoists s i k

/-- The scope has a binding of the name. -/
def Binds (s : Session) (i : ScopeId) (x : String) : Prop :=
  ∃ sc : Scope, s.scopes.scopes[i.index]? = some sc ∧ sc.bindings.contains x = true

/-- The first scope on the way outward that has a binding of the name, if there is one. -/
inductive Finds (s : Session) (x : String) : ScopeId → Option ScopeId → Prop
  | here {i : ScopeId} : s.Binds i x → Finds s x i (some i)
  | nowhere {i : ScopeId} : ¬ s.Binds i x → s.IsOutermost i → Finds s x i none
  | outer {i j : ScopeId} {o : Option ScopeId} :
    ¬ s.Binds i x → s.Around i j → Finds s x j o → Finds s x i o

/-- The scope is one of the table. -/
def HasScope (s : Session) (i : ScopeId) : Prop := i.index < s.scopes.scopes.size

theorem HasScope.scope {s : Session} {i : ScopeId} (h : s.HasScope i) :
    ∃ sc : Scope, s.scopes.scopes[i.index]? = some sc :=
  ⟨_, Array.getElem?_eq_getElem h⟩

theorem hasScope_of_scope {s : Session} {i : ScopeId} {sc : Scope}
    (h : s.scopes.scopes[i.index]? = some sc) : s.HasScope i :=
  (Array.getElem?_eq_some_iff.mp h).1

theorem hasScope_of_around {s : Session} {i j : ScopeId} (ho : s.scopes.Ordered)
    (h : s.Around i j) : s.HasScope j := by
  obtain ⟨sc, hsc, hj⟩ := h
  have hlt := ho.parent _ _ _ hsc hj
  have := hasScope_of_scope hsc
  unfold HasScope at this ⊢
  omega

theorem Around.unique {s : Session} {i j k : ScopeId} (h : s.Around i j) (h' : s.Around i k) :
    j = k := by
  obtain ⟨sc, hsc, hj⟩ := h
  obtain ⟨sc', hsc', hk⟩ := h'
  obtain rfl : sc = sc' := Option.some.inj (hsc.symm.trans hsc')
  exact Option.some.inj (hj.symm.trans hk)

theorem Around.not_isOutermost {s : Session} {i j : ScopeId} (h : s.Around i j) :
    ¬ s.IsOutermost i := by
  rintro ⟨sc', hsc', hnone⟩
  obtain ⟨sc, hsc, hj⟩ := h
  obtain rfl : sc = sc' := Option.some.inj (hsc.symm.trans hsc')
  rw [hj] at hnone
  cases hnone

theorem Outermost.unique {s : Session} {i j k : ScopeId} (h : s.Outermost i j)
    (h' : s.Outermost i k) : j = k := by
  induction h with
  | here hout =>
    cases h' with
    | here => rfl
    | outer ha _ => exact absurd hout ha.not_isOutermost
  | outer ha _ ih =>
    cases h' with
    | here hout => exact absurd hout ha.not_isOutermost
    | outer ha' h' =>
      obtain rfl := ha.unique ha'
      exact ih h'

/-- A name leads to one scope. -/
theorem Finds.unique {s : Session} {i : ScopeId} {x : String} {o o' : Option ScopeId}
    (h : s.Finds x i o) (h' : s.Finds x i o') : o = o' := by
  induction h with
  | here hb =>
    cases h' with
    | here => rfl
    | nowhere hno _ => exact absurd hb hno
    | outer hno _ _ => exact absurd hb hno
  | nowhere hno hout =>
    cases h' with
    | here hb => exact absurd hb hno
    | nowhere => rfl
    | outer _ ha _ => exact absurd hout ha.not_isOutermost
  | outer hno ha _ ih =>
    cases h' with
    | here hb => exact absurd hb hno
    | nowhere _ hout => exact absurd hout ha.not_isOutermost
    | outer _ ha' h' =>
      obtain rfl := ha.unique ha'
      exact ih h'

theorem Outermost.hasScope {s : Session} {i j : ScopeId} (h : s.Outermost i j) : s.HasScope j := by
  induction h with
  | here hi =>
    obtain ⟨sc, hsc, -⟩ := hi
    exact hasScope_of_scope hsc
  | outer _ _ ih => exact ih

/-- Names are hoisted to one scope. -/
theorem Hoists.unique {s : Session} {i j k : ScopeId} (h : s.Hoists i j) (h' : s.Hoists i k) :
    j = k := by
  induction h with
  | here hi =>
    cases h' with
    | here => rfl
    | last hno _ => exact absurd hi hno
    | outer hno _ _ => exact absurd hi hno
  | last hno hout =>
    cases h' with
    | here hi => exact absurd hi hno
    | last => rfl
    | outer _ ha _ => exact absurd hout ha.not_isOutermost
  | outer hno ha _ ih =>
    cases h' with
    | here hi => exact absurd hi hno
    | last _ hout => exact absurd hout ha.not_isOutermost
    | outer _ ha' h' =>
      obtain rfl := ha.unique ha'
      exact ih h'

theorem Hoists.hasScope {s : Session} {i j : ScopeId} (h : s.Hoists i j) : s.HasScope j := by
  induction h with
  | here hi =>
    obtain ⟨sc, hsc, -⟩ := hi
    exact hasScope_of_scope hsc
  | last _ hi =>
    obtain ⟨sc, hsc, -⟩ := hi
    exact hasScope_of_scope hsc
  | outer _ _ _ ih => exact ih

theorem Finds.binds {s : Session} {i j : ScopeId} {x : String} (h : s.Finds x i (some j)) :
    s.Binds j x := by
  generalize ho : some j = o at h
  induction h with
  | here hi =>
    obtain rfl := Option.some.inj ho
    exact hi
  | nowhere => simp at ho
  | outer _ _ _ ih => exact ih ho

end Session

/-! ## Runs of the look-ups -/

namespace ScopeId

variable {s : Session} {i : ScopeId} {sc : Scope}

theorem data_run (h : s.scopes.scopes[i.index]? = some sc) : i.data s = .ok sc s := by
  show (get >>= fun s => found s.scopes.scopes[i.index]?) s = _
  rw [run_get_bind, h]
  rfl

theorem modifyData_run (h : s.HasScope i) (f : Scope → Scope) :
    i.modifyData f s = .ok () (s.mapScope i f) := by
  obtain ⟨sc, hsc⟩ := h.scope
  show (i.data >>= fun _ => modify _) s = _
  rw [bind_of_ok (data_run hsc)]
  rfl

/-- The way outward is as long as the scope is old, at most. -/
theorem chainWithin_run (ho : s.scopes.Ordered) (fuel : Nat) (i : ScopeId) (hi : s.HasScope i)
    (hfuel : i.index < fuel) : ∃ l, chainWithin fuel i s = .ok l s ∧ s.Chain i l := by
  induction fuel generalizing i with
  | zero => omega
  | succ fuel ih =>
    obtain ⟨sc, hsc⟩ := hi.scope
    unfold chainWithin
    rw [bind_of_ok (data_run hsc)]
    cases hp : sc.parent with
    | none => exact ⟨[i], rfl, .last ⟨sc, hsc, hp⟩⟩
    | some j =>
      have hlt := ho.parent _ _ _ hsc hp
      have hj := Session.hasScope_of_around ho ⟨sc, hsc, hp⟩
      obtain ⟨l, hl, hc⟩ := ih j hj (by omega)
      exact ⟨i :: l, bind_of_ok hl, .step ⟨sc, hsc, hp⟩ hc⟩

theorem chain_run (ho : s.scopes.Ordered) (hi : s.HasScope i) :
    ∃ l, i.chain s = .ok l s ∧ s.Chain i l := by
  unfold Session.HasScope at hi
  exact chainWithin_run ho _ i hi (by omega)

theorem programScope_run (ho : s.scopes.Ordered) (hi : s.HasScope i) :
    ∃ j, i.programScope s = .ok j s ∧ s.Outermost i j := by
  obtain ⟨l, hl, hc⟩ := chain_run ho hi
  refine ⟨l.getLastD i, bind_of_ok hl, ?_⟩
  clear hl
  suffices h : ∀ d, s.Outermost i (l.getLastD d) from h i
  induction hc with
  | last h => exact fun _ => .here h
  | step h _ ih =>
    intro d
    rw [List.getLastD_cons]
    exact .outer h (ih (Session.hasScope_of_around ho h) _)

theorem firstFunctionScope_run {l : List ScopeId} (hc : s.Chain i l) (d : ScopeId) :
    ∃ j, firstFunctionScope d l s = .ok j s ∧ s.Hoists i j := by
  induction hc generalizing d with
  | @last i h =>
    obtain ⟨sc, hsc, hp⟩ := h
    unfold firstFunctionScope
    rw [bind_of_ok (data_run hsc)]
    by_cases hfun : sc.isFunctionScope = true
    · exact ⟨i, by rw [if_pos hfun]; rfl, .here ⟨sc, hsc, hfun⟩⟩
    · refine ⟨i, by rw [if_neg hfun]; rfl, .last ?_ ⟨sc, hsc, hp⟩⟩
      rintro ⟨sc', hsc', hfun'⟩
      rw [hsc, Option.some.injEq] at hsc'
      exact hfun (hsc' ▸ hfun')
  | @step i j l h _ ih =>
    obtain ⟨sc, hsc, hp⟩ := h
    unfold firstFunctionScope
    rw [bind_of_ok (data_run hsc)]
    by_cases hfun : sc.isFunctionScope = true
    · exact ⟨i, by rw [if_pos hfun]; rfl, .here ⟨sc, hsc, hfun⟩⟩
    · obtain ⟨k, hk, hh⟩ := ih i
      refine ⟨k, by rw [if_neg hfun]; exact hk, .outer ?_ ⟨sc, hsc, hp⟩ hh⟩
      rintro ⟨sc', hsc', hfun'⟩
      rw [hsc, Option.some.injEq] at hsc'
      exact hfun (hsc' ▸ hfun')

theorem functionScope_run (ho : s.scopes.Ordered) (hi : s.HasScope i) :
    ∃ j, i.functionScope s = .ok j s ∧ s.Hoists i j := by
  obtain ⟨l, hl, hc⟩ := chain_run ho hi
  obtain ⟨j, hj, hh⟩ := firstFunctionScope_run hc i
  exact ⟨j, by unfold functionScope; rw [bind_of_ok hl, hj], hh⟩

theorem firstDeclaring_run {l : List ScopeId} (hc : s.Chain i l) (x : String) :
    ∃ o, firstDeclaring x l s = .ok o s ∧ s.Finds x i o := by
  induction hc with
  | @last i h =>
    obtain ⟨sc, hsc, hp⟩ := h
    unfold firstDeclaring
    rw [bind_of_ok (data_run hsc)]
    by_cases hx : sc.bindings.contains x = true
    · exact ⟨some i, by rw [if_pos hx]; rfl, .here ⟨sc, hsc, hx⟩⟩
    · refine ⟨none, by rw [if_neg hx]; rfl, .nowhere ?_ ⟨sc, hsc, hp⟩⟩
      rintro ⟨sc', hsc', hx'⟩
      rw [hsc, Option.some.injEq] at hsc'
      exact hx (hsc' ▸ hx')
  | @step i j l h _ ih =>
    obtain ⟨sc, hsc, hp⟩ := h
    unfold firstDeclaring
    rw [bind_of_ok (data_run hsc)]
    by_cases hx : sc.bindings.contains x = true
    · exact ⟨some i, by rw [if_pos hx]; rfl, .here ⟨sc, hsc, hx⟩⟩
    · obtain ⟨o, hr, hf⟩ := ih
      refine ⟨o, by rw [if_neg hx]; exact hr, .outer ?_ ⟨sc, hsc, hp⟩ hf⟩
      rintro ⟨sc', hsc', hx'⟩
      rw [hsc, Option.some.injEq] at hsc'
      exact hx (hsc' ▸ hx')

theorem bindingScope?_run (ho : s.scopes.Ordered) (hi : s.HasScope i) (x : String) :
    ∃ o, i.bindingScope? x s = .ok o s ∧ s.Finds x i o := by
  obtain ⟨l, hl, hc⟩ := chain_run ho hi
  obtain ⟨o, hr, hf⟩ := firstDeclaring_run hc x
  exact ⟨o, by unfold bindingScope?; rw [bind_of_ok hl, hr], hf⟩

end ScopeId

/-! ## Declaring and using names -/

/-- What becomes of the binding of a name when it is declared, perhaps anew. -/
def Binding.over (b : Binding) : Option Binding → Binding
  | none => b
  | some old =>
    if old.identifier = b.identifier then old
    else { b with violations := old.path :: old.violations, references := old.references }

theorem Binding.references_over (b : Binding) (o : Option Binding) :
    (b.over o).references = b.references ∨
      ∃ old, o = some old ∧ (b.over o).references = old.references := by
  cases o with
  | none => exact .inl rfl
  | some old =>
    refine .inr ⟨old, rfl, ?_⟩
    simp only [Binding.over]
    split <;> rfl

theorem Binding.path_over (b : Binding) (o : Option Binding) :
    (b.over o).path = b.path ∨ ∃ old, o = some old ∧ (b.over o).path = old.path := by
  cases o with
  | none => exact .inl rfl
  | some old =>
    simp only [Binding.over]
    split
    · exact .inr ⟨old, rfl, rfl⟩
    · exact .inl rfl

theorem Binding.identifier_over (b : Binding) (o : Option Binding) :
    (b.over o).identifier = b.identifier ∨
      ∃ old, o = some old ∧ (b.over o).identifier = old.identifier := by
  cases o with
  | none => exact .inl rfl
  | some old =>
    simp only [Binding.over]
    split
    · exact .inr ⟨old, rfl, rfl⟩
    · exact .inl rfl

theorem Binding.violations_over (b : Binding) (o : Option Binding) (v : PathId)
    (h : v ∈ (b.over o).violations) :
    v ∈ b.violations ∨ ∃ old, o = some old ∧ (v = old.path ∨ v ∈ old.violations) := by
  cases o with
  | none => exact .inl h
  | some old =>
    simp only [Binding.over] at h
    split at h
    · exact .inr ⟨old, rfl, .inr h⟩
    · exact .inr ⟨old, rfl, List.mem_cons.mp h⟩

namespace Scope

/-- The scope once a name is declared in it. -/
def declare (sc : Scope) (b : Binding) : Scope :=
  { sc with bindings := match sc.bindings.get? b.name with
      | none => sc.bindings.insert b.name b
      | some old =>
        if old.identifier = b.identifier then sc.bindings
        else sc.bindings.insert b.name (b.over (some old)) }

/-- The scope once one of its bindings is changed. -/
def mapBinding (sc : Scope) (x : String) (f : Binding → Binding) : Scope :=
  { sc with bindings := sc.bindings.modify x f }

/-- The scope once a name is noted that occurs below. -/
def noteName (sc : Scope) (x : String) : Scope :=
  { sc with references := ScopeId.addName sc.references x }

/-- The scope once a name is noted that is read below without being declared. -/
def noteUndeclared (sc : Scope) (x : String) : Scope :=
  { sc with globals := ScopeId.addName sc.globals x }

theorem get?_declare (sc : Scope) (b : Binding) (y : String) :
    (sc.declare b).bindings.get? y =
      if y = b.name then some (b.over (sc.bindings.get? b.name)) else sc.bindings.get? y := by
  unfold declare
  cases hold : sc.bindings.get? b.name with
  | none => simp only [Table.get?_insert, Binding.over]
  | some old =>
    by_cases hid : old.identifier = b.identifier
    · by_cases hy : y = b.name
      · simp [hid, hy, hold, Binding.over]
      · simp [hid, hy]
    · simp only [hid, if_false, Table.get?_insert]

/-- A declared name is bound, and no bound name is lost. -/
theorem contains_declare (sc : Scope) (b : Binding) (y : String) :
    (sc.declare b).bindings.contains y = true ↔
      sc.bindings.contains y = true ∨ y = b.name := by
  simp only [Table.contains, get?_declare]
  by_cases hy : y = b.name
  · simp [hy]
  · simp [hy]

theorem get?_mapBinding (sc : Scope) (x y : String) (f : Binding → Binding) :
    (sc.mapBinding x f).bindings.get? y =
      if y = x then (sc.bindings.get? y).map f else sc.bindings.get? y :=
  Table.get?_modify _ _ _ _

theorem contains_mapBinding (sc : Scope) (x y : String) (f : Binding → Binding) :
    (sc.mapBinding x f).bindings.contains y = sc.bindings.contains y := by
  simp only [Table.contains, get?_mapBinding]
  split <;> simp

theorem mem_addName (names : List String) (x y : String) :
    y ∈ ScopeId.addName names x ↔ y ∈ names ∨ y = x := by
  unfold ScopeId.addName
  by_cases hx : x ∈ names
  · rw [if_pos hx]
    constructor
    · exact .inl
    · rintro (h | rfl)
      · exact h
      · exact hx
  · simp [hx]

end Scope

/-- The table with one more scope, which is that of a node. -/
def ScopeTable.add (T : ScopeTable) (n : NodeId) (sc : Scope) : ScopeTable :=
  { T with
    scopes := T.scopes.push sc
    byBlock := T.byBlock.insert n ⟨T.scopes.size⟩
    root := if sc.parent.isNone && T.root.isNone then some ⟨T.scopes.size⟩ else T.root }

theorem ScopeTable.getElem?_add (T : ScopeTable) (n : NodeId) (sc : Scope) (j : Nat) :
    (T.add n sc).scopes[j]? = if j = T.scopes.size then some sc else T.scopes[j]? :=
  Array.getElem?_push

theorem ScopeTable.getElem?_add_of_some {T : ScopeTable} {j : Nat} {sc' : Scope} (n : NodeId)
    (sc : Scope) (h : T.scopes[j]? = some sc') : (T.add n sc).scopes[j]? = some sc' := by
  have hlt := (Array.getElem?_eq_some_iff.mp h).1
  rw [getElem?_add, if_neg (by omega), h]

theorem ScopeTable.size_add (T : ScopeTable) (n : NodeId) (sc : Scope) :
    (T.add n sc).scopes.size = T.scopes.size + 1 := by
  simp [add]

theorem ScopeTable.Ordered.add {T : ScopeTable} (h : T.Ordered) (n : NodeId) (sc : Scope)
    (hp : ∀ j, sc.parent = some j → j.index < T.scopes.size) : (T.add n sc).Ordered where
  parent i sc' j hsc' hj := by
    rw [getElem?_add] at hsc'
    split at hsc'
    · next hi =>
      obtain rfl := Option.some.inj hsc'
      rw [hi]
      exact hp j hj
    · exact h.parent i sc' j hsc' hj
  byBlock m i hi := by
    rw [size_add]
    have hm : (T.byBlock.insert n ⟨T.scopes.size⟩).get? m = some i := hi
    rw [Table.get?_insert] at hm
    split at hm
    · obtain rfl := Option.some.inj hm
      exact Nat.lt_succ_self _
    · exact Nat.lt_succ_of_lt (h.byBlock m i hm)
  root i hi := by
    rw [size_add]
    simp only [ScopeTable.add] at hi
    split at hi
    · obtain rfl := Option.some.inj hi
      exact Nat.lt_succ_self _
    · exact Nat.lt_succ_of_lt (h.root i hi)

theorem ScopeTable.extends_add (T : ScopeTable) (n : NodeId) (sc : Scope) :
    T.Extends (T.add n sc) :=
  ⟨rfl, fun _ sc' h => ⟨sc', getElem?_add_of_some n sc h, rfl, fun _ hx => hx⟩⟩

/-- The session with one more scope. -/
def Session.addScope (s : Session) (n : NodeId) (sc : Scope) : Session :=
  { s with scopes := s.scopes.add n sc }

theorem Session.getElem?_addScope (s : Session) (n : NodeId) (sc : Scope) (j : Nat) :
    (s.addScope n sc).scopes.scopes[j]? =
      if j = s.scopes.scopes.size then some sc else s.scopes.scopes[j]? :=
  s.scopes.getElem?_add n sc j

/-! ## Runs of the changes -/

section Changes

variable {s : Session} {i : ScopeId}

theorem ScopeId.noteReference_run (ho : s.scopes.Ordered) (hi : s.HasScope i) (x : String) :
    ∃ j, s.Outermost i j ∧
      i.noteReference x s = .ok () (s.mapScope j fun sc => sc.noteName x) := by
  obtain ⟨j, hj, hout⟩ := ScopeId.programScope_run ho hi
  refine ⟨j, hout, ?_⟩
  unfold ScopeId.noteReference
  rw [bind_of_ok hj]
  exact ScopeId.modifyData_run hout.hasScope _

theorem ScopeId.noteGlobal_run (ho : s.scopes.Ordered) (hi : s.HasScope i) (x : String) :
    ∃ j, s.Outermost i j ∧
      i.noteGlobal x s = .ok () (s.mapScope j fun sc => sc.noteUndeclared x) := by
  obtain ⟨j, hj, hout⟩ := ScopeId.programScope_run ho hi
  refine ⟨j, hout, ?_⟩
  unfold ScopeId.noteGlobal
  rw [bind_of_ok hj]
  exact ScopeId.modifyData_run hout.hasScope _

/-- Changing a binding changes it where it is found. -/
theorem ScopeId.modifyBinding_run (ho : s.scopes.Ordered) (hi : s.HasScope i) (x : String)
    (f : Binding → Binding) :
    ∃ o, s.Finds x i o ∧ i.modifyBinding x f s = .ok o.isSome
      (match o with
      | some j => s.mapScope j fun sc => sc.mapBinding x f
      | none => s) := by
  obtain ⟨o, hr, hf⟩ := ScopeId.bindingScope?_run ho hi x
  refine ⟨o, hf, ?_⟩
  unfold ScopeId.modifyBinding
  rw [bind_of_ok hr]
  cases o with
  | none => rfl
  | some j =>
    obtain ⟨sc, hsc, -⟩ := hf.binds
    exact bind_of_ok (ScopeId.modifyData_run (Session.hasScope_of_scope hsc) _)

/-- Only what a change makes of the scope at hand matters. -/
theorem Session.mapScope_congr {sc : Scope} (h : s.scopes.scopes[i.index]? = some sc)
    {f g : Scope → Scope} (hfg : f sc = g sc) : s.mapScope i f = s.mapScope i g := by
  have harr : s.scopes.scopes.modify i.index f = s.scopes.scopes.modify i.index g := by
    refine Array.ext_getElem? fun j => ?_
    rw [Array.getElem?_modify (f := f), Array.getElem?_modify (f := g)]
    split
    · next hj => rw [← hj, h, Option.map_some, Option.map_some, hfg]
    · rfl
  simp only [Session.mapScope, harr]

theorem Session.mapScope_eq_self {sc : Scope} (h : s.scopes.scopes[i.index]? = some sc)
    {f : Scope → Scope} (hf : f sc = sc) : s.mapScope i f = s := by
  have harr : s.scopes.scopes.modify i.index f = s.scopes.scopes := by
    refine Array.ext_getElem? fun j => ?_
    rw [Array.getElem?_modify]
    split
    · next hj => rw [← hj, h, Option.map_some, hf]
    · rfl
  simp only [Session.mapScope, harr]

/-- Declaring a name notes it in the outermost scope and binds it in this one. -/
theorem ScopeId.registerBinding_run (ho : s.scopes.Ordered) (hi : s.HasScope i) (name : String)
    (kind : BindingKind) (path : PathId) (identifier : NodeId) :
    ∃ j, s.Outermost i j ∧ i.registerBinding name kind path identifier s =
      .ok () ((s.mapScope j fun sc => sc.noteName name).mapScope i fun sc =>
        sc.declare { name, identifier, scope := i, path, kind }) := by
  obtain ⟨j, hout, hnote⟩ := ScopeId.noteReference_run ho hi name
  refine ⟨j, hout, ?_⟩
  unfold ScopeId.registerBinding
  rw [bind_of_ok hnote]
  have hi₁ : (s.mapScope j fun sc => sc.noteName name).HasScope i := by
    simpa [Session.HasScope] using hi
  obtain ⟨sc, hsc⟩ := hi₁.scope
  have hown : i.ownBinding? name (s.mapScope j fun sc => sc.noteName name) =
      .ok (sc.bindings.get? name) (s.mapScope j fun sc => sc.noteName name) :=
    bind_of_ok (ScopeId.data_run hsc)
  rw [bind_of_ok hown]
  cases hold : sc.bindings.get? name with
  | none =>
    refine (ScopeId.modifyData_run hi₁ _).trans ?_
    rw [Session.mapScope_congr hsc]
    simp only [Scope.declare, hold]
  | some old =>
    by_cases hid : old.identifier = identifier
    · simp only [hid, if_true]
      refine (run_pure _ _).trans ?_
      rw [Session.mapScope_eq_self hsc]
      simp only [Scope.declare, hold, hid, if_true]
    · simp only [hid, if_false]
      refine (ScopeId.modifyData_run hi₁ _).trans ?_
      rw [Session.mapScope_congr hsc]
      simp only [Scope.declare, hold, hid, if_false, Binding.over]

/-- A new scope for the node at a path. -/
theorem createScope_run {p : PathId} {n : NodeId} {k : NodeKind} (hp : s.Holds p n)
    (hk : s.tree.kind? n = some k) (parent : Option ScopeId) :
    createScope p parent s = .ok ⟨s.scopes.scopes.size⟩
      (s.addScope n { block := p, blockType := k.type, parent }) := by
  unfold createScope
  rw [bind_of_ok (PathId.type?_run_of_holds hp hk), bind_of_ok (PathId.node?_run_of_holds hp)]
  rfl

end Changes

end Espalier
