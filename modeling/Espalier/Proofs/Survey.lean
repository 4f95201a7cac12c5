import Espalier.Proofs.Binders
import Espalier.Proofs.Scopes
import Espalier.Scope.Crawl

set_option autoImplicit false

/-! # What a walk notes

A walk over part of a tree opens scopes, declares names and collects reads and writes. Which of
these it has to note is a set of `Fact`s. `Session.Walked` says that a walk succeeded, that it left
the paths and the scope table in order, and, where the meaning is asked for (`G`), that it noted
the facts of a set and nothing else. Walks of disjoint parts follow one another
(`Session.Walked.trans`). -/

namespace Espalier

open SessionM

/-- Something that a walk has to note. -/
inductive Fact where
  /-- The node opens a scope. -/
  | opens (b : NodeId)
  /-- The scope of the node declares the name. -/
  | declares (b : NodeId) (x : String)
  /-- The first node is read in the scope of the second one. -/
  | reads (n b : NodeId)
  /-- The first node is an assignment in the scope of the second one. -/
  | assigns (n b : NodeId)

/-- The node is an assignment or an update. -/
def Tree.IsAssignment (t : Tree) (n : NodeId) : Prop :=
  ∃ k, t.kind? n = some k ∧ (k.type = .assignmentExpression ∨ k.type = .updateExpression)

/-- The facts that a node itself gives rise to. -/
def Tree.Owns (t : Tree) (n : NodeId) : Fact → Prop
  | .opens b => b = n ∧ t.Opens n
  | .declares b x => t.Introduces n b x
  | .reads m b => m = n ∧ (∃ x, t.Reads n x) ∧ t.InScope n b
  | .assigns m b => m = n ∧ t.IsAssignment n ∧ t.InScope n b

/-- The facts of a node and of everything below it. -/
def Tree.facts (t : Tree) (n : NodeId) : Set Fact :=
  {f | ∃ m, Relation.ReflTransGen t.IsChild n m ∧ t.Owns m f}

namespace Session

/-! ## Order -/

/-- The session has navigated and added to its scope table. -/
structure Surveys (s : Session) (K : Set NodeId) (s' : Session) : Prop where
  sound : s'.Sound K
  grew : s.Grew s'
  ordered : s'.scopes.Ordered
  widened : s.scopes.Extends s'.scopes

section Surveys

variable {s s₁ s₂ : Session} {K : Set NodeId}

theorem Surveys.refl (h : s.Sound K) (ho : s.scopes.Ordered) : s.Surveys K s :=
  ⟨h, .refl h, ho, .refl _⟩

theorem Surveys.trans (h₁ : s.Surveys K s₁) (h₂ : s₁.Surveys K s₂) : s.Surveys K s₂ :=
  ⟨h₂.sound, h₁.grew.trans h₂.grew h₁.sound, h₂.ordered, h₁.widened.trans h₂.widened⟩

theorem Surveys.tree (h : s.Surveys K s₁) : s₁.tree = s.tree := h.grew.tree

theorem Went.surveys (hw : s.Went K s₁) (ho : s.scopes.Ordered) : s.Surveys K s₁ :=
  ⟨hw.sound, hw.grew, by rw [hw.scopes]; exact ho, by rw [hw.scopes]; exact .refl _⟩

theorem surveys_mapScope (h : s.Sound K) (ho : s.scopes.Ordered) (i : ScopeId)
    {f : Scope → Scope} (hf : ∀ sc, (f sc).place = sc.place)
    (hx : ∀ sc x, sc.bindings.contains x = true → (f sc).bindings.contains x = true) :
    s.Surveys K (s.mapScope i f) :=
  ⟨(s.alike_scopes _).sound_of_paths h rfl, grew_scopes h _, ordered_mapScope ho i hf,
    s.extends_mapScope i hf hx⟩

theorem HasScope.later {i : ScopeId} (hi : s.HasScope i) (h : s.Surveys K s₁) : s₁.HasScope i :=
  Nat.lt_of_lt_of_le hi h.widened.size_le

end Surveys

/-! ## Meaning -/

/-- The scope is the one of the node. -/
def ScopeOf (s : Session) (i : ScopeId) (b : NodeId) : Prop :=
  ∃ sc : Scope, s.scopes.scopes[i.index]? = some sc ∧ s.Holds sc.block b

/-- The scopes stand for blocks of the tree, and the scope around a scope for the block around its
block. -/
structure Faithful (s : Session) : Prop where
  block : ∀ (i : Nat) (sc : Scope), s.scopes.scopes[i]? = some sc →
    ∃ b k, s.Holds sc.block b ∧ s.tree.kind? b = some k ∧ sc.blockType = k.type
  single : ∀ i j b, s.ScopeOf i b → s.ScopeOf j b → i = j
  outer : ∀ i j b, s.Around i j → s.ScopeOf i b → ∃ b', s.tree.InScope b b' ∧ s.ScopeOf j b'
  root : ∀ i b, s.IsOutermost i → s.ScopeOf i b → s.tree.root = some b

/-- The path holds a node that is no construct that assigns. -/
def Plain (s : Session) (p : PathId) : Prop :=
  ∃ m k, s.Holds p m ∧ s.tree.kind? m = some k ∧ k.type ≠ .assignmentExpression ∧
    k.type ≠ .updateExpression ∧ k.type ≠ .forInStatement ∧ k.type ≠ .forOfStatement

/-- No use has been noted at a binding or among the globals. -/
structure Pending (s : Session) : Prop where
  references : ∀ (i : Nat) (sc : Scope) x b, s.scopes.scopes[i]? = some sc →
    sc.bindings.get? x = some b → b.references = []
  path : ∀ (i : Nat) (sc : Scope) x b, s.scopes.scopes[i]? = some sc →
    sc.bindings.get? x = some b → s.Plain b.path
  violations : ∀ (i : Nat) (sc : Scope) x b, s.scopes.scopes[i]? = some sc →
    sc.bindings.get? x = some b → ∀ v ∈ b.violations, s.Plain v
  globals : ∀ (i : Nat) (sc : Scope), s.scopes.scopes[i]? = some sc → sc.globals = []

/-- The scope of the node has a binding of the name. -/
def Bound (s : Session) (b : NodeId) (x : String) : Prop := ∃ i, s.ScopeOf i b ∧ s.Binds i x

/-- The walk from the first session to the second has noted the facts of the set, and no others. -/
structure Notes (s : Session) (F : Set Fact) (u : Uses) (s' : Session) : Prop where
  faithful : s'.Faithful
  pending : s'.Pending
  opened : ∀ b i, s'.ScopeOf i b → (∃ j, s.ScopeOf j b) ∨ .opens b ∈ F
  opens : ∀ b, .opens b ∈ F → ∃ i, s'.ScopeOf i b
  declared : ∀ b x, s'.Bound b x → s.Bound b x ∨ .declares b x ∈ F
  declares : ∀ b x, .declares b x ∈ F → s'.Bound b x
  read : ∀ i q, (i, q) ∈ u.reads → ∃ m b, .reads m b ∈ F ∧ s'.Holds q m ∧ s'.ScopeOf i b
  reads : ∀ m b, .reads m b ∈ F → ∃ i q, (i, q) ∈ u.reads ∧ s'.Holds q m ∧ s'.ScopeOf i b
  assigned : ∀ i q names, (i, q, names) ∈ u.writes → ∃ m b, .assigns m b ∈ F ∧ s'.Holds q m ∧
    s'.ScopeOf i b ∧ ∀ x, x ∈ names ↔ s'.tree.Assigns m x
  assigns : ∀ m b x, .assigns m b ∈ F → s'.tree.Assigns m x →
    ∃ i q names, (i, q, names) ∈ u.writes ∧ s'.Holds q m ∧ s'.ScopeOf i b ∧ x ∈ names

section Later

variable {s s' : Session} {K : Set NodeId}

theorem ScopeOf.later {i : ScopeId} {b : NodeId} (hi : s.ScopeOf i b) (hs : s.Sound K)
    (h : s.Surveys K s') : s'.ScopeOf i b := by
  obtain ⟨sc, hsc, hb⟩ := hi
  obtain ⟨sc', hsc', hpl, -⟩ := h.widened.scope _ _ hsc
  simp only [Scope.place, Prod.mk.injEq] at hpl
  exact ⟨sc', hsc', by rw [hpl.1]; exact h.grew.holds hs hb⟩

theorem Binds.later {i : ScopeId} {x : String} (hi : s.Binds i x) (h : s.Surveys K s') :
    s'.Binds i x := by
  obtain ⟨sc, hsc, hx⟩ := hi
  obtain ⟨sc', hsc', -, hx'⟩ := h.widened.scope _ _ hsc
  exact ⟨sc', hsc', hx' x hx⟩

theorem Around.later {i j : ScopeId} (h : s.Around i j) (hs : s.Surveys K s') : s'.Around i j := by
  obtain ⟨sc, hsc, hj⟩ := h
  obtain ⟨sc', hsc', hpl, -⟩ := hs.widened.scope _ _ hsc
  simp only [Scope.place, Prod.mk.injEq] at hpl
  exact ⟨sc', hsc', hpl.2.2.trans hj⟩

theorem IsOutermost.later {i : ScopeId} (h : s.IsOutermost i) (hs : s.Surveys K s') :
    s'.IsOutermost i := by
  obtain ⟨sc, hsc, hj⟩ := h
  obtain ⟨sc', hsc', hpl, -⟩ := hs.widened.scope _ _ hsc
  simp only [Scope.place, Prod.mk.injEq] at hpl
  exact ⟨sc', hsc', hpl.2.2.trans hj⟩

theorem isFunctionScope_later {i : ScopeId} (hi : s.HasScope i) (hs : s.Surveys K s') :
    s'.IsFunctionScope i ↔ s.IsFunctionScope i := by
  obtain ⟨sc, hsc⟩ := hi.scope
  obtain ⟨sc', hsc', hpl, -⟩ := hs.widened.scope _ _ hsc
  simp only [Scope.place, Prod.mk.injEq] at hpl
  simp [IsFunctionScope, hsc, hsc', Scope.isFunctionScope, hpl.2.1]

theorem Hoists.later {i j : ScopeId} (h : s.Hoists i j) (hs : s.Surveys K s') : s'.Hoists i j := by
  induction h with
  | here hi =>
    obtain ⟨sc, hsc, -⟩ := id hi
    exact .here ((isFunctionScope_later (hasScope_of_scope hsc) hs).mpr hi)
  | last hno hout =>
    obtain ⟨sc, hsc, -⟩ := id hout
    have hsame := isFunctionScope_later (hasScope_of_scope hsc) hs
    exact .last (fun hi => hno (hsame.mp hi)) (hout.later hs)
  | outer hno ha _ ih =>
    obtain ⟨sc, hsc, -⟩ := id ha
    have hsame := isFunctionScope_later (hasScope_of_scope hsc) hs
    exact .outer (fun hi => hno (hsame.mp hi)) (ha.later hs) ih

theorem Bound.later {b : NodeId} {x : String} (hb : s.Bound b x) (hs : s.Sound K)
    (h : s.Surveys K s') : s'.Bound b x := by
  obtain ⟨i, hi, hx⟩ := hb
  exact ⟨i, hi.later hs h, hx.later h⟩

theorem Plain.later {p : PathId} (hp : s.Plain p) (hs : s.Sound K) (h : s.Grew s') :
    s'.Plain p := by
  obtain ⟨m, k, hm, hk, ht⟩ := hp
  exact ⟨m, k, h.holds hs hm, by rw [h.tree]; exact hk, ht⟩

/-- Navigation leaves the scopes to their blocks. -/
theorem Faithful.scopeOf_went (hf : s.Faithful) (hs : s.Sound K) (h : s.Went K s') (i : ScopeId)
    (b : NodeId) : s'.ScopeOf i b ↔ s.ScopeOf i b := by
  unfold ScopeOf
  rw [h.scopes]
  refine exists_congr fun sc => and_congr_right fun hsc => ?_
  obtain ⟨_, _, ⟨d, hd, -⟩, -⟩ := hf.block _ sc hsc
  exact h.grew.holds_iff hs hd b

theorem Faithful.went (hf : s.Faithful) (hs : s.Sound K) (h : s.Went K s') : s'.Faithful where
  block i sc hsc := by
    rw [h.scopes] at hsc
    obtain ⟨b, k, hb, hk, ht⟩ := hf.block i sc hsc
    exact ⟨b, k, h.grew.holds hs hb, by rw [h.tree]; exact hk, ht⟩
  single i j b hi hj := hf.single i j b ((hf.scopeOf_went hs h i b).mp hi)
    ((hf.scopeOf_went hs h j b).mp hj)
  outer i j b hij hi := by
    unfold Around at hij
    rw [h.scopes] at hij
    obtain ⟨b', hb', hj⟩ := hf.outer i j b hij ((hf.scopeOf_went hs h i b).mp hi)
    exact ⟨b', by rw [h.tree]; exact hb', (hf.scopeOf_went hs h j b').mpr hj⟩
  root i b hi hb := by
    unfold IsOutermost at hi
    rw [h.scopes] at hi
    rw [h.tree]
    exact hf.root i b hi ((hf.scopeOf_went hs h i b).mp hb)

/-- Navigation notes nothing. -/
theorem Notes.went (hf : s.Faithful) (hp : s.Pending) (hs : s.Sound K) (h : s.Went K s') :
    s.Notes ∅ {} s' := by
  have hscope := hf.scopeOf_went hs h
  have hbinds : ∀ i x, s'.Binds i x ↔ s.Binds i x := by
    intro i x
    unfold Binds
    rw [h.scopes]
  refine ⟨hf.went hs h, ⟨?_, ?_, ?_, ?_⟩, ?_, by simp, ?_, by simp, by simp, by simp, by simp,
    by simp⟩
  · intro i sc x b hsc
    rw [h.scopes] at hsc
    exact hp.references i sc x b hsc
  · intro i sc x b hsc hx
    rw [h.scopes] at hsc
    exact (hp.path i sc x b hsc hx).later hs h.grew
  · intro i sc x b hsc hx v hv
    rw [h.scopes] at hsc
    exact (hp.violations i sc x b hsc hx v hv).later hs h.grew
  · intro i sc hsc
    rw [h.scopes] at hsc
    exact hp.globals i sc hsc
  · intro b i hi
    exact .inl ⟨i, (hscope i b).mp hi⟩
  · rintro b x ⟨i, hi, hx⟩
    exact .inl ⟨i, (hscope i b).mp hi, (hbinds i x).mp hx⟩

end Later

/-! ## Walks -/

/-- The uses are those of known paths in scopes of the table. -/
structure Carries (s : Session) (u : Uses) : Prop where
  reads : ∀ i (q : PathId), (i, q) ∈ u.reads → s.HasScope i ∧ ∃ n, s.Holds q n
  writes : ∀ i q names, (i, q, names) ∈ u.writes → s.HasScope i

/-- The identifiers of bindings are nodes of the tree. -/
def Identified (s : Session) : Prop := ∀ (i : Nat) (sc : Scope) (x : String) (b : Binding),
  s.scopes.scopes[i]? = some sc → sc.bindings.get? x = some b → b.identifier.index < s.tree.size

/-- The second session binds identifiers of the tree if the first one does, and no declaration is
shared that was not. -/
structure Books (s s' : Session) : Prop where
  identified : s.Identified → s'.Identified
  generated : s'.scopes.generated = s.scopes.generated

/-- A walk that succeeded. It left everything in order, and where the meaning is asked for it noted
the facts of the set; the scopes it had to open must not have been there before. -/
structure Walked (s : Session) (K : Set NodeId) (G : Prop) (F : Set Fact) (u : Uses)
    (s' : Session) : Prop extends Surveys s K s' where
  carries : s'.Carries u
  books : s.Books s'
  notes : G → s.Faithful → s.Pending → (∀ b i, .opens b ∈ F → ¬ s.ScopeOf i b) → s.Notes F u s'

section Walked

variable {s s₁ s₂ : Session} {K : Set NodeId} {G : Prop} {F F₁ F₂ : Set Fact} {u u₁ u₂ : Uses}

theorem Carries.empty (s : Session) : s.Carries {} := ⟨by simp, by simp⟩

theorem Carries.later (hu : s.Carries u) (hs : s.Sound K) (h : s.Surveys K s₁) :
    s₁.Carries u where
  reads i q hq := by
    obtain ⟨hi, n, hn⟩ := hu.reads i q hq
    exact ⟨hi.later h, n, h.grew.holds hs hn⟩
  writes i q names hw := (hu.writes i q names hw).later h

theorem Carries.append (h₁ : s.Carries u₁) (h₂ : s.Carries u₂) : s.Carries (u₁ ++ u₂) where
  reads i q hq := (List.mem_append.mp hq).elim (h₁.reads i q) (h₂.reads i q)
  writes i q names hw :=
    (List.mem_append.mp hw).elim (h₁.writes i q names) (h₂.writes i q names)

theorem Books.trans (h₁ : s.Books s₁) (h₂ : s₁.Books s₂) : s.Books s₂ :=
  ⟨h₂.identified ∘ h₁.identified, h₂.generated.trans h₁.generated⟩

theorem Went.books (hw : s.Went K s₁) : s.Books s₁ :=
  ⟨fun h => by unfold Identified; rwa [hw.scopes, hw.tree], by rw [hw.scopes]⟩

theorem Went.walked (hw : s.Went K s₁) (hs : s.Sound K) (ho : s.scopes.Ordered) :
    s.Walked K G ∅ {} s₁ :=
  ⟨hw.surveys ho, .empty _, hw.books, fun _ hf hp _ => .went hf hp hs hw⟩

theorem Walked.refl (hs : s.Sound K) (ho : s.scopes.Ordered) : s.Walked K G ∅ {} s :=
  (Went.refl hs).walked hs ho

/-- Only the facts matter, not how they are said. -/
theorem Walked.congr (h : s.Walked K G F₁ u s₁) (hF : G → ∀ f, f ∈ F₁ ↔ f ∈ F₂) :
    s.Walked K G F₂ u s₁ := by
  refine ⟨h.toSurveys, h.carries, h.books, fun hG hf hp hfresh => ?_⟩
  have heq : F₁ = F₂ := Set.ext (hF hG)
  subst heq
  exact h.notes hG hf hp hfresh

theorem Walked.weaken {G' : Prop} (h : s.Walked K G F u s₁) (hG : G' → G) :
    s.Walked K G' F u s₁ :=
  ⟨h.toSurveys, h.carries, h.books, fun hG' => h.notes (hG hG')⟩

/-- Where the meaning is asked for, the scopes at the start may be taken to be faithful. -/
theorem Walked.of_faithful (h : s.Walked K (G ∧ s.Faithful) F u s₁) : s.Walked K G F u s₁ :=
  ⟨h.toSurveys, h.carries, h.books, fun hG hf => h.notes ⟨hG, hf⟩ hf⟩

/-- Two walks, one after the other, note the facts of both. -/
theorem Notes.trans (h₁ : s.Surveys K s₁) (h₂ : s₁.Surveys K s₂)
    (hn₁ : s.Notes F₁ u₁ s₁) (hn₂ : s₁.Notes F₂ u₂ s₂) :
    s.Notes (F₁ ∪ F₂) (u₁ ++ u₂) s₂ where
  faithful := hn₂.faithful
  pending := hn₂.pending
  opened b i hi := by
    rcases hn₂.opened b i hi with ⟨j, hj⟩ | hb
    · exact (hn₁.opened b j hj).imp id .inl
    · exact .inr (.inr hb)
  opens b hb := by
    rcases hb with hb | hb
    · obtain ⟨i, hi⟩ := hn₁.opens b hb
      exact ⟨i, hi.later h₁.sound h₂⟩
    · exact hn₂.opens b hb
  declared b x hx := by
    rcases hn₂.declared b x hx with hx | hx
    · exact (hn₁.declared b x hx).imp id .inl
    · exact .inr (.inr hx)
  declares b x hx := by
    rcases hx with hx | hx
    · exact (hn₁.declares b x hx).later h₁.sound h₂
    · exact hn₂.declares b x hx
  read i q hq := by
    rcases List.mem_append.mp hq with hq | hq
    · obtain ⟨m, b, hF, hm, hi⟩ := hn₁.read i q hq
      exact ⟨m, b, .inl hF, h₂.grew.holds h₁.sound hm, hi.later h₁.sound h₂⟩
    · obtain ⟨m, b, hF, hm, hi⟩ := hn₂.read i q hq
      exact ⟨m, b, .inr hF, hm, hi⟩
  reads m b hF := by
    rcases hF with hF | hF
    · obtain ⟨i, q, hq, hm, hi⟩ := hn₁.reads m b hF
      exact ⟨i, q, List.mem_append_left _ hq, h₂.grew.holds h₁.sound hm, hi.later h₁.sound h₂⟩
    · obtain ⟨i, q, hq, hm, hi⟩ := hn₂.reads m b hF
      exact ⟨i, q, List.mem_append_right _ hq, hm, hi⟩
  assigned i q names hw := by
    rcases List.mem_append.mp hw with hw | hw
    · obtain ⟨m, b, hF, hm, hi, hx⟩ := hn₁.assigned i q names hw
      refine ⟨m, b, .inl hF, h₂.grew.holds h₁.sound hm, hi.later h₁.sound h₂, ?_⟩
      rw [h₂.tree]
      exact hx
    · obtain ⟨m, b, hF, hm, hi, hx⟩ := hn₂.assigned i q names hw
      exact ⟨m, b, .inr hF, hm, hi, hx⟩
  assigns m b x hF hx := by
    rcases hF with hF | hF
    · rw [h₂.tree] at hx
      obtain ⟨i, q, names, hw, hm, hi, hn⟩ := hn₁.assigns m b x hF hx
      exact ⟨i, q, names, List.mem_append_left _ hw, h₂.grew.holds h₁.sound hm,
        hi.later h₁.sound h₂, hn⟩
    · obtain ⟨i, q, names, hw, hm, hi, hn⟩ := hn₂.assigns m b x hF hx
      exact ⟨i, q, names, List.mem_append_right _ hw, hm, hi, hn⟩

theorem Walked.trans (h₁ : s.Walked K G F₁ u₁ s₁) (h₂ : s₁.Walked K G F₂ u₂ s₂)
    (hdisjoint : G → ∀ b, .opens b ∈ F₁ → .opens b ∉ F₂) :
    s.Walked K G (F₁ ∪ F₂) (u₁ ++ u₂) s₂ := by
  refine ⟨h₁.toSurveys.trans h₂.toSurveys,
    (h₁.carries.later h₁.sound h₂.toSurveys).append h₂.carries, h₁.books.trans h₂.books,
    fun hG hf hp hfresh => ?_⟩
  have hn₁ := h₁.notes hG hf hp fun b i hb => hfresh b i (.inl hb)
  refine hn₁.trans h₁.toSurveys h₂.toSurveys (h₂.notes hG hn₁.faithful hn₁.pending ?_)
  intro b i hb hi
  rcases hn₁.opened b i hi with ⟨j, hj⟩ | hb₁
  · exact hfresh b j (.inr hb) hj
  · exact hdisjoint hG b hb₁ hb

end Walked

end Session

theorem Uses.concat_cons (u : Uses) (us : List Uses) : Uses.concat (u :: us) = u ++ Uses.concat us := by
  have hfold : ∀ (us : List Uses) (v : Uses), us.foldl Uses.append v = v ++ Uses.concat us := by
    intro us
    induction us with
    | nil =>
      intro v
      show v = ⟨v.reads ++ [], v.writes ++ []⟩
      simp
    | cons w us ih =>
      intro v
      have h₁ := ih (Uses.append v w)
      have h₂ := ih (Uses.append {} w)
      show us.foldl Uses.append (Uses.append v w) = Uses.append v (us.foldl Uses.append (Uses.append {} w))
      rw [h₁, h₂]
      show Uses.append (Uses.append v w) _ = Uses.append v (Uses.append (Uses.append {} w) _)
      simp [Uses.append]
  show us.foldl Uses.append (Uses.append {} u) = _
  rw [hfold]
  show Uses.append (Uses.append {} u) _ = Uses.append u _
  simp [Uses.append]

theorem Uses.empty_append (u : Uses) : ({} : Uses) ++ u = u := by
  show (⟨[] ++ u.reads, [] ++ u.writes⟩ : Uses) = u
  simp

section Sequences

open Session

variable {α : Type} {s : Session} {K : Set NodeId} {G : Prop}

/-- Walks of several parts that open no scope in common. -/
theorem mapM_walked (l : List α) (f : α → SessionM Uses) (F : α → Set Fact) (hs : s.Sound K)
    (ho : s.scopes.Ordered)
    (hdisjoint : G → l.Pairwise fun a a' => ∀ b, .opens b ∈ F a → .opens b ∉ F a')
    (hstep : ∀ a ∈ l, ∀ s₁, s.Surveys K s₁ → Returns (f a) s₁ (s₁.Walked K G (F a))) :
    Returns (l.mapM f) s fun us s' => s.Walked K G {fact | ∃ a ∈ l, fact ∈ F a} (.concat us) s' := by
  induction l generalizing s with
  | nil =>
    refine .pure ((Walked.refl hs ho).congr fun _ fact => ?_)
    simp
  | cons a l ih =>
    rw [List.mapM_cons]
    refine (hstep a (by simp) s (.refl hs ho)).bind fun u s₁ hu => ?_
    refine (ih hu.sound hu.ordered (fun hG => (List.pairwise_cons.mp (hdisjoint hG)).2)
      fun a' ha' s₂ hs₂ => hstep a' (by simp [ha']) s₂ (hu.toSurveys.trans hs₂)).bind
      fun us s₂ hus => .pure ?_
    rw [Uses.concat_cons]
    refine (hu.trans hus fun hG b hb hb' => ?_).congr fun _ fact => ?_
    · obtain ⟨a', ha', hb'⟩ := hb'
      exact (List.pairwise_cons.mp (hdisjoint hG)).1 a' ha' b hb hb'
    · simp

/-- Steps that each leave everything in order. -/
theorem forM_surveys (l : List α) (f : α → SessionM Unit) (hs : s.Sound K) (ho : s.scopes.Ordered)
    (hstep : ∀ a ∈ l, ∀ s₁, s.Surveys K s₁ → Returns (f a) s₁ fun _ s' => s₁.Surveys K s') :
    Returns (l.forM f) s fun _ s' => s.Surveys K s' := by
  induction l generalizing s with
  | nil => exact .pure (.refl hs ho)
  | cons a l ih =>
    show Returns (f a >>= fun _ => l.forM f) s _
    refine (hstep a (by simp) s (.refl hs ho)).bind fun _ s₁ h₁ => ?_
    exact (ih h₁.sound h₁.ordered fun a' ha' s₂ h₂ => hstep a' (by simp [ha']) s₂
      (h₁.trans h₂)).mono fun _ s₂ h₂ => h₁.trans h₂

/-- Steps that open no scope and collect no uses. -/
theorem forM_walked (l : List α) (f : α → SessionM Unit) (F : α → Set Fact) (hs : s.Sound K)
    (ho : s.scopes.Ordered) (hopens : G → ∀ a ∈ l, ∀ b, .opens b ∉ F a)
    (hstep : ∀ a ∈ l, ∀ s₁, s.Surveys K s₁ →
      Returns (f a) s₁ fun _ s' => s₁.Walked K G (F a) {} s') :
    Returns (l.forM f) s fun _ s' => s.Walked K G {fact | ∃ a ∈ l, fact ∈ F a} {} s' := by
  induction l generalizing s with
  | nil =>
    refine .pure ((Walked.refl hs ho).congr fun _ fact => ?_)
    simp
  | cons a l ih =>
    show Returns (f a >>= fun _ => l.forM f) s _
    refine (hstep a (by simp) s (.refl hs ho)).bind fun _ s₁ hu => ?_
    refine (ih hu.sound hu.ordered (fun hG a' ha' => hopens hG a' (by simp [ha']))
      fun a' ha' s₂ hs₂ => hstep a' (by simp [ha']) s₂ (hu.toSurveys.trans hs₂)).mono
      fun _ s₂ hus => ?_
    rw [← Uses.empty_append {}]
    refine (hu.trans hus fun hG b hb => absurd hb (hopens hG a (by simp) b)).congr
      fun _ fact => ?_
    simp

end Sequences

/-! ## Declaring names -/

namespace Session

/-- The second session has other names in its scopes, and differs in nothing else. -/
structure Redraws (s s' : Session) : Prop where
  rest : s' = { s with scopes := s'.scopes }
  back : ∀ (k : Nat) (sc' : Scope), s'.scopes.scopes[k]? = some sc' →
    ∃ sc : Scope, s.scopes.scopes[k]? = some sc ∧ sc'.place = sc.place
  forth : ∀ (k : Nat) (sc : Scope), s.scopes.scopes[k]? = some sc →
    ∃ sc' : Scope, s'.scopes.scopes[k]? = some sc' ∧ sc'.place = sc.place

namespace Redraws

variable {s s₁ s₂ : Session}

theorem refl (s : Session) : s.Redraws s :=
  ⟨rfl, fun _ sc h => ⟨sc, h, rfl⟩, fun _ sc h => ⟨sc, h, rfl⟩⟩

theorem trans (h₁ : s.Redraws s₁) (h₂ : s₁.Redraws s₂) : s.Redraws s₂ where
  rest := by rw [h₂.rest, h₁.rest]
  back k sc₂ hsc₂ := by
    obtain ⟨sc₁, hsc₁, hp₁⟩ := h₂.back k sc₂ hsc₂
    obtain ⟨sc, hsc, hp⟩ := h₁.back k sc₁ hsc₁
    exact ⟨sc, hsc, hp₁.trans hp⟩
  forth k sc hsc := by
    obtain ⟨sc₁, hsc₁, hp₁⟩ := h₁.forth k sc hsc
    obtain ⟨sc₂, hsc₂, hp₂⟩ := h₂.forth k sc₁ hsc₁
    exact ⟨sc₂, hsc₂, hp₂.trans hp₁⟩

theorem symm (h : s.Redraws s₁) : s₁.Redraws s where
  rest := by rw [h.rest]
  back k sc hsc := by
    obtain ⟨sc', hsc', hp⟩ := h.forth k sc hsc
    exact ⟨sc', hsc', hp.symm⟩
  forth k sc hsc := by
    obtain ⟨sc', hsc', hp⟩ := h.back k sc hsc
    exact ⟨sc', hsc', hp.symm⟩

theorem tree (h : s.Redraws s₁) : s₁.tree = s.tree := by rw [h.rest]

theorem holds_iff (h : s.Redraws s₁) (p : PathId) (n : NodeId) : s₁.Holds p n ↔ s.Holds p n := by
  unfold Holds
  rw [h.rest]

theorem plain_iff (h : s.Redraws s₁) (p : PathId) : s₁.Plain p ↔ s.Plain p := by
  unfold Plain
  simp only [h.holds_iff, h.tree]

private theorem scopeOf_of (h : s.Redraws s₁) {i : ScopeId} {b : NodeId} (hi : s.ScopeOf i b) :
    s₁.ScopeOf i b := by
  obtain ⟨sc, hsc, hb⟩ := hi
  obtain ⟨sc', hsc', hp⟩ := h.forth _ sc hsc
  simp only [Scope.place, Prod.mk.injEq] at hp
  exact ⟨sc', hsc', (h.holds_iff _ _).mpr (by rw [hp.1]; exact hb)⟩

theorem scopeOf_iff (h : s.Redraws s₁) (i : ScopeId) (b : NodeId) :
    s₁.ScopeOf i b ↔ s.ScopeOf i b :=
  ⟨h.symm.scopeOf_of, h.scopeOf_of⟩

private theorem around_of (h : s.Redraws s₁) {i j : ScopeId} (hi : s.Around i j) :
    s₁.Around i j := by
  obtain ⟨sc, hsc, hj⟩ := hi
  obtain ⟨sc', hsc', hp⟩ := h.forth _ sc hsc
  simp only [Scope.place, Prod.mk.injEq] at hp
  exact ⟨sc', hsc', by rw [hp.2.2]; exact hj⟩

theorem around_iff (h : s.Redraws s₁) (i j : ScopeId) : s₁.Around i j ↔ s.Around i j :=
  ⟨h.symm.around_of, h.around_of⟩

private theorem isOutermost_of (h : s.Redraws s₁) {i : ScopeId} (hi : s.IsOutermost i) :
    s₁.IsOutermost i := by
  obtain ⟨sc, hsc, hj⟩ := hi
  obtain ⟨sc', hsc', hp⟩ := h.forth _ sc hsc
  simp only [Scope.place, Prod.mk.injEq] at hp
  exact ⟨sc', hsc', by rw [hp.2.2]; exact hj⟩

theorem isOutermost_iff (h : s.Redraws s₁) (i : ScopeId) : s₁.IsOutermost i ↔ s.IsOutermost i :=
  ⟨h.symm.isOutermost_of, h.isOutermost_of⟩

private theorem finds_of (h : s.Redraws s₁) (hb : ∀ i x, s₁.Binds i x ↔ s.Binds i x) {x : String}
    {i : ScopeId} {o : Option ScopeId} (hf : s.Finds x i o) : s₁.Finds x i o := by
  induction hf with
  | here hx => exact .here ((hb _ x).mpr hx)
  | nowhere hx ho => exact .nowhere (fun hx' => hx ((hb _ x).mp hx')) ((h.isOutermost_iff _).mpr ho)
  | outer hx ha _ ih => exact .outer (fun hx' => hx ((hb _ x).mp hx')) ((h.around_iff _ _).mpr ha) ih

/-- Where the same names are bound, names lead to the same scopes. -/
theorem finds_iff (h : s.Redraws s₁) (hb : ∀ i x, s₁.Binds i x ↔ s.Binds i x) (x : String)
    (i : ScopeId) (o : Option ScopeId) : s₁.Finds x i o ↔ s.Finds x i o :=
  ⟨h.symm.finds_of fun j y => (hb j y).symm, h.finds_of hb⟩

theorem faithful (h : s.Redraws s₁) (hf : s.Faithful) : s₁.Faithful where
  block i sc' hsc' := by
    obtain ⟨sc, hsc, hp⟩ := h.back i sc' hsc'
    simp only [Scope.place, Prod.mk.injEq] at hp
    obtain ⟨b, k, hb, hk, ht⟩ := hf.block i sc hsc
    exact ⟨b, k, by rw [h.holds_iff, hp.1]; exact hb, by rw [h.tree]; exact hk,
      hp.2.1.trans ht⟩
  single i j b hi hj := hf.single i j b ((h.scopeOf_iff i b).mp hi) ((h.scopeOf_iff j b).mp hj)
  outer i j b hij hi := by
    obtain ⟨b', hb', hj⟩ := hf.outer i j b ((h.around_iff i j).mp hij) ((h.scopeOf_iff i b).mp hi)
    exact ⟨b', by rw [h.tree]; exact hb', (h.scopeOf_iff j b').mpr hj⟩
  root i b hi hb := by
    rw [h.tree]
    exact hf.root i b ((h.isOutermost_iff i).mp hi) ((h.scopeOf_iff i b).mp hb)

end Redraws

theorem redraws_mapScope (s : Session) (i : ScopeId) {f : Scope → Scope}
    (hf : ∀ sc, (f sc).place = sc.place) : s.Redraws (s.mapScope i f) where
  rest := rfl
  back k sc' hsc' := by
    rw [getElem?_mapScope] at hsc'
    split at hsc'
    · obtain ⟨sc, hsc, rfl⟩ := Option.map_eq_some_iff.mp hsc'
      exact ⟨sc, hsc, hf sc⟩
    · exact ⟨sc', hsc', rfl⟩
  forth k sc hsc := by
    rw [getElem?_mapScope, hsc]
    split
    · exact ⟨f sc, rfl, hf sc⟩
    · exact ⟨sc, rfl, rfl⟩

/-- The session once a name is declared in a scope and noted in another one. -/
def register (s : Session) (j i : ScopeId) (b : Binding) : Session :=
  (s.mapScope j fun sc => sc.noteName b.name).mapScope i fun sc => sc.declare b

section Register

variable {s : Session} {K : Set NodeId} {i j : ScopeId} {b : Binding}

theorem redraws_register : s.Redraws (s.register j i b) :=
  (s.redraws_mapScope j (f := fun sc => sc.noteName b.name) fun _ => rfl).trans
    (redraws_mapScope _ i (f := fun sc => sc.declare b) fun _ => rfl)

theorem surveys_register (hs : s.Sound K) (ho : s.scopes.Ordered) :
    s.Surveys K (s.register j i b) := by
  have h₁ : s.Surveys K (s.mapScope j fun sc => sc.noteName b.name) :=
    surveys_mapScope hs ho j (fun _ => rfl) fun _ _ hx => hx
  refine h₁.trans (surveys_mapScope h₁.sound h₁.ordered i (fun _ => rfl) fun sc x hx => ?_)
  exact (sc.contains_declare b x).mpr (.inl hx)

/-- A scope after a declaration: its globals stay, and its bindings but for the declared one. -/
theorem scope_register {k : Nat} {sc' : Scope}
    (h : (s.register j i b).scopes.scopes[k]? = some sc') :
    ∃ sc : Scope, s.scopes.scopes[k]? = some sc ∧ sc'.globals = sc.globals ∧
      (k ≠ i.index → sc'.bindings = sc.bindings) ∧
      (k = i.index → sc'.bindings = (sc.declare b).bindings) := by
  rw [register, getElem?_mapScope] at h
  split at h
  · next hk =>
    obtain ⟨sc₁, hsc₁, rfl⟩ := Option.map_eq_some_iff.mp h
    rw [getElem?_mapScope] at hsc₁
    split at hsc₁
    · obtain ⟨sc, hsc, rfl⟩ := Option.map_eq_some_iff.mp hsc₁
      exact ⟨sc, hsc, rfl, fun hne => absurd hk.symm hne, fun _ => rfl⟩
    · exact ⟨sc₁, hsc₁, rfl, fun hne => absurd hk.symm hne, fun _ => rfl⟩
  · next hk =>
    rw [getElem?_mapScope] at h
    split at h
    · obtain ⟨sc, hsc, rfl⟩ := Option.map_eq_some_iff.mp h
      exact ⟨sc, hsc, rfl, fun _ => rfl, fun he => absurd he.symm hk⟩
    · exact ⟨sc', h, rfl, fun _ => rfl, fun he => absurd he.symm hk⟩

/-- A binding after a declaration is one of before, or the declared one. -/
theorem binding_register {k : Nat} {sc' : Scope} {x : String} {b' : Binding}
    (h : (s.register j i b).scopes.scopes[k]? = some sc') (hx : sc'.bindings.get? x = some b') :
    ∃ sc : Scope, s.scopes.scopes[k]? = some sc ∧ (sc.bindings.get? x = some b' ∨
      (k = i.index ∧ x = b.name ∧ b' = b.over (sc.bindings.get? x))) := by
  obtain ⟨sc, hsc, -, hne, heq⟩ := scope_register h
  refine ⟨sc, hsc, ?_⟩
  by_cases hk : k = i.index
  · rw [heq hk, Scope.get?_declare] at hx
    split at hx
    · next hname =>
      subst hname
      exact .inr ⟨hk, rfl, (Option.some.inj hx).symm⟩
    · exact .inl hx
  · rw [hne hk] at hx
    exact .inl hx

theorem books_register (hb : b.identifier.index < s.tree.size) : s.Books (s.register j i b) where
  identified h k sc' x b' hsc' hx := by
    obtain ⟨sc, hsc, hold | ⟨-, -, rfl⟩⟩ := binding_register hsc' hx
    · exact h k sc x b' hsc hold
    · rcases b.identifier_over (sc.bindings.get? x) with hid | ⟨old, hget, hid⟩
      · rw [hid]
        exact hb
      · rw [hid]
        exact h k sc x old hsc hget
  generated := rfl

theorem pending_register (hp : s.Pending) (hpath : s.Plain b.path) (hv : b.violations = [])
    (hr : b.references = []) : (s.register j i b).Pending := by
  have hplain : ∀ p, s.Plain p → (s.register j i b).Plain p := fun p h =>
    (redraws_register.plain_iff p).mpr h
  refine ⟨?_, ?_, ?_, ?_⟩
  · intro k sc' x b' hsc' hx
    obtain ⟨sc, hsc, hold | ⟨-, -, rfl⟩⟩ := binding_register hsc' hx
    · exact hp.references k sc x b' hsc hold
    · rcases b.references_over (sc.bindings.get? x) with h | ⟨old, hget, h⟩
      · exact h.trans hr
      · exact h.trans (hp.references k sc x old hsc hget)
  · intro k sc' x b' hsc' hx
    obtain ⟨sc, hsc, hold | ⟨-, -, rfl⟩⟩ := binding_register hsc' hx
    · exact hplain _ (hp.path k sc x b' hsc hold)
    · rcases b.path_over (sc.bindings.get? x) with h | ⟨old, hget, h⟩
      · exact hplain _ (h ▸ hpath)
      · exact hplain _ (h ▸ hp.path k sc x old hsc hget)
  · intro k sc' x b' hsc' hx v hvm
    obtain ⟨sc, hsc, hold | ⟨-, -, rfl⟩⟩ := binding_register hsc' hx
    · exact hplain _ (hp.violations k sc x b' hsc hold v hvm)
    · rcases b.violations_over (sc.bindings.get? x) v hvm with h | ⟨old, hget, rfl | h⟩
      · simp [hv] at h
      · exact hplain _ (hp.path k sc x old hsc hget)
      · exact hplain _ (hp.violations k sc x old hsc hget v h)
  · intro k sc' hsc'
    obtain ⟨sc, hsc, hg, -, -⟩ := scope_register hsc'
    rw [hg]
    exact hp.globals k sc hsc

/-- The declared name is bound, and besides it what was bound before. -/
theorem binds_register (hi : s.HasScope i) (k : ScopeId) (x : String) :
    (s.register j i b).Binds k x ↔ s.Binds k x ∨ (k = i ∧ x = b.name) := by
  constructor
  · rintro ⟨sc', hsc', hx⟩
    obtain ⟨sc, hsc, -, hne, heq⟩ := scope_register hsc'
    by_cases hk : k.index = i.index
    · rw [heq hk, Scope.contains_declare] at hx
      exact hx.imp (fun hx => ⟨sc, hsc, hx⟩) fun hx => ⟨by cases k; cases i; simpa using hk, hx⟩
    · rw [hne hk] at hx
      exact .inl ⟨sc, hsc, hx⟩
  · rintro (⟨sc, hsc, hx⟩ | ⟨rfl, rfl⟩)
    · obtain ⟨sc', hsc', hpl⟩ := redraws_register (j := j) (i := i) (b := b) |>.forth _ sc hsc
      obtain ⟨sc₀, hsc₀, -, hne, heq⟩ := scope_register hsc'
      obtain rfl : sc₀ = sc := Option.some.inj (hsc₀.symm.trans hsc)
      refine ⟨sc', hsc', ?_⟩
      by_cases hk : k.index = i.index
      · rw [heq hk]
        exact (sc₀.contains_declare b x).mpr (.inl hx)
      · rw [hne hk]
        exact hx
    · obtain ⟨sc, hsc⟩ := hi.scope
      obtain ⟨sc', hsc', -⟩ := redraws_register (j := j) (i := k) (b := b) |>.forth _ sc hsc
      obtain ⟨sc₀, -, -, -, heq⟩ := scope_register hsc'
      exact ⟨sc', hsc', by rw [heq rfl]; exact (sc₀.contains_declare b _).mpr (.inr rfl)⟩

end Register

end Session

open Session in
/-- Declaring a name notes that the scope declares it. -/
theorem registerBinding_walked {s : Session} {K : Set NodeId} {G : Prop} {F : Set Fact}
    {i : ScopeId} (hs : s.Sound K) (ho : s.scopes.Ordered) (hi : s.HasScope i) (name : String)
    (kind : BindingKind) (path : PathId) (identifier : NodeId)
    (hid : identifier.index < s.tree.size)
    (hF : G → ∃ b, s.ScopeOf i b ∧ s.Plain path ∧ ∀ f, f ∈ F ↔ f = .declares b name) :
    Returns (i.registerBinding name kind path identifier) s fun _ s' => s.Walked K G F {} s' := by
  obtain ⟨j, -, hrun⟩ := ScopeId.registerBinding_run ho hi name kind path identifier
  refine ⟨(), s.register j i { name, identifier, scope := i, path, kind }, hrun,
    surveys_register hs ho, .empty _, books_register hid, fun hG hf hp _ => ?_⟩
  obtain ⟨b, hb, hpath, hFb⟩ := hF hG
  have hdraw : s.Redraws (s.register j i { name, identifier, scope := i, path, kind }) :=
    redraws_register
  refine ⟨hdraw.faithful hf, pending_register hp hpath rfl rfl, ?_, ?_, ?_, ?_, by simp, ?_,
    by simp, ?_⟩
  · exact fun b' k hk => .inl ⟨k, (hdraw.scopeOf_iff k b').mp hk⟩
  · intro b' hb'
    simp [hFb] at hb'
  · rintro b' x ⟨k, hk, hx⟩
    have hk' := (hdraw.scopeOf_iff k b').mp hk
    rcases (binds_register hi k x).mp hx with hx | ⟨rfl, rfl⟩
    · exact .inl ⟨k, hk', hx⟩
    · refine .inr ((hFb _).mpr ?_)
      obtain ⟨sc, hsc, hscb⟩ := hb
      obtain ⟨sc', hsc', hscb'⟩ := hk'
      obtain rfl : sc = sc' := Option.some.inj (hsc.symm.trans hsc')
      rw [hscb.unique_node hscb']
  · intro b' x hx
    rw [hFb] at hx
    cases hx
    exact ⟨i, (hdraw.scopeOf_iff i b).mpr hb, (binds_register hi i name).mpr (.inr ⟨rfl, rfl⟩)⟩
  · intro m b' hm
    simp [hFb] at hm
  · intro m b' x hm
    simp [hFb] at hm

end Espalier
