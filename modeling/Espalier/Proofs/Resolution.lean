import Espalier.Proofs.Subtrees
import Mathlib.Data.Set.Insert

set_option autoImplicit false

/-! # Resolving uses

When the walk is done, each read and each write is noted at the binding its name leads to, or among
the globals. What is noted is a set of `Mark`s; `Session.Settles` says that the names of a session
carry the marks of a set, and nothing else is new. -/

namespace Espalier

open SessionM

/-- Something that is noted when a use is resolved. -/
inductive Mark where
  /-- The path reads the name that the scope declares. -/
  | read (i : ScopeId) (x : String) (p : PathId)
  /-- The path writes to the name that the scope declares. -/
  | write (i : ScopeId) (x : String) (p : PathId)
  /-- The name is read below the scope without being declared. -/
  | undeclared (i : ScopeId) (x : String)

/-- The scope that a mark is made in. -/
def Mark.scope : Mark → ScopeId
  | .read i _ _ | .write i _ _ | .undeclared i _ => i

/-- The name that a mark is about. -/
def Mark.name : Mark → String
  | .read _ x _ | .write _ x _ | .undeclared _ x => x

/-- The second binding is the first one with the marks of a set. -/
structure Binding.Marked (M : Set Mark) (i : ScopeId) (x : String) (b b' : Binding) : Prop where
  references : ∀ p, p ∈ b'.references ↔ p ∈ b.references ∨ .read i x p ∈ M
  violations : ∀ p, p ∈ b'.violations ↔ p ∈ b.violations ∨ .write i x p ∈ M
  nodup : b.references.Nodup → b'.references.Nodup
  identifier : b'.identifier = b.identifier

namespace Binding

variable {M : Set Mark} {i : ScopeId} {x : String}

theorem Marked.refl (b : Binding) (h : ∀ p, .read i x p ∉ M ∧ .write i x p ∉ M) :
    b.Marked M i x b where
  references p := by simp [(h p).1]
  violations p := by simp [(h p).2]
  nodup h := h
  identifier := rfl

theorem marked_reference (b : Binding) (p : PathId) : b.Marked {.read i x p} i x (b.reference p) := by
  unfold reference
  by_cases hp : p ∈ b.references
  · rw [if_pos hp]
    refine ⟨fun q => ⟨.inl, ?_⟩, by simp, id, rfl⟩
    rintro (hq | hq)
    · exact hq
    · cases hq
      exact hp
  · rw [if_neg hp]
    refine ⟨by simp, by simp, fun hnodup => ?_, rfl⟩
    exact List.nodup_append.mpr ⟨hnodup, by simp, fun a ha c hc => by
      rintro rfl
      exact hp (by simpa [List.mem_singleton.mp hc] using ha)⟩

theorem marked_reassign (b : Binding) (p : PathId) : b.Marked {.write i x p} i x (b.reassign p) := by
  unfold reassign
  by_cases hp : p ∈ b.violations
  · rw [if_pos hp]
    refine ⟨by simp, fun q => ⟨.inl, ?_⟩, id, rfl⟩
    rintro (hq | hq)
    · exact hq
    · cases hq
      exact hp
  · rw [if_neg hp]
    exact ⟨by simp, by simp, id, rfl⟩

theorem Marked.trans {b b₁ b₂ : Binding} {M₁ M₂ : Set Mark} (h₁ : b.Marked M₁ i x b₁)
    (h₂ : b₁.Marked M₂ i x b₂) : b.Marked (M₁ ∪ M₂) i x b₂ where
  references p := by rw [h₂.references, h₁.references, Set.mem_union, or_assoc]
  violations p := by rw [h₂.violations, h₁.violations, Set.mem_union, or_assoc]
  nodup h := h₂.nodup (h₁.nodup h)
  identifier := h₂.identifier.trans h₁.identifier

end Binding

namespace Session

/-- The names of the second session are those of the first with the marks of a set. -/
structure Settles (s : Session) (M : Set Mark) (s' : Session) : Prop extends Redraws s s' where
  table : s'.scopes = { s.scopes with scopes := s'.scopes.scopes }
  bindings : ∀ (i : ScopeId) (sc sc' : Scope), s.scopes.scopes[i.index]? = some sc →
    s'.scopes.scopes[i.index]? = some sc' →
      ∀ x, Option.Rel (Binding.Marked M i x) (sc.bindings.get? x) (sc'.bindings.get? x)
  globals : ∀ (i : ScopeId) (sc sc' : Scope), s.scopes.scopes[i.index]? = some sc →
    s'.scopes.scopes[i.index]? = some sc' →
      ∀ x, x ∈ sc'.globals ↔ x ∈ sc.globals ∨ .undeclared i x ∈ M

namespace Settles

variable {s s₁ s₂ : Session} {M M₁ M₂ : Set Mark} {K : Set NodeId}

/-- A binding that gets no mark. -/
private theorem rel_refl {i : ScopeId} {x : String} (o : Option Binding)
    (h : ∀ p, .read i x p ∉ M ∧ .write i x p ∉ M) : Option.Rel (Binding.Marked M i x) o o := by
  cases o with
  | none => exact .none
  | some b => exact .some (.refl b h)

/-- A change of one scope that makes its marks there. -/
theorem mapScope (s : Session) (i : ScopeId) {f : Scope → Scope}
    (hf : ∀ sc, (f sc).place = sc.place) (hM : ∀ m ∈ M, m.scope = i)
    (hb : ∀ sc : Scope, s.scopes.scopes[i.index]? = some sc → ∀ x,
      Option.Rel (Binding.Marked M i x) (sc.bindings.get? x) ((f sc).bindings.get? x))
    (hg : ∀ (sc : Scope) x, x ∈ (f sc).globals ↔ x ∈ sc.globals ∨ .undeclared i x ∈ M) :
    s.Settles M (s.mapScope i f) := by
  have hcases : ∀ (j : ScopeId) (sc sc' : Scope), s.scopes.scopes[j.index]? = some sc →
      (s.mapScope i f).scopes.scopes[j.index]? = some sc' →
        (j = i ∧ sc' = f sc) ∨ (j ≠ i ∧ sc' = sc) := by
    intro j sc sc' hsc hsc'
    rw [getElem?_mapScope, hsc] at hsc'
    split at hsc'
    · next hj => exact .inl ⟨by cases i; cases j; simpa using hj.symm, (Option.some.inj hsc').symm⟩
    · next hj => exact .inr ⟨fun he => hj (by rw [he]), (Option.some.inj hsc').symm⟩
  refine ⟨s.redraws_mapScope i hf, rfl, ?_, ?_⟩
  · intro j sc sc' hsc hsc' x
    rcases hcases j sc sc' hsc hsc' with ⟨rfl, rfl⟩ | ⟨hne, rfl⟩
    · exact hb sc hsc x
    · exact rel_refl _ fun p => ⟨fun hm => hne (hM _ hm), fun hm => hne (hM _ hm)⟩
  · intro j sc sc' hsc hsc' x
    rcases hcases j sc sc' hsc hsc' with ⟨rfl, rfl⟩ | ⟨hne, rfl⟩
    · exact hg sc x
    · exact ⟨.inl, fun hx => hx.resolve_right fun hm => hne (hM _ hm)⟩

theorem refl (s : Session) : s.Settles ∅ s := by
  refine ⟨.refl s, rfl, fun i sc sc' hsc hsc' x => ?_, fun i sc sc' hsc hsc' x => ?_⟩
  · obtain rfl : sc = sc' := Option.some.inj (hsc.symm.trans hsc')
    exact rel_refl _ (by simp)
  · obtain rfl : sc = sc' := Option.some.inj (hsc.symm.trans hsc')
    simp

theorem trans (h₁ : s.Settles M₁ s₁) (h₂ : s₁.Settles M₂ s₂) : s.Settles (M₁ ∪ M₂) s₂ := by
  refine ⟨h₁.toRedraws.trans h₂.toRedraws, by rw [h₂.table, h₁.table], ?_, ?_⟩
  · intro i sc sc₂ hsc hsc₂ x
    obtain ⟨sc₁, hsc₁, -⟩ := h₁.forth _ sc hsc
    have hr₁ := h₁.bindings i sc sc₁ hsc hsc₁ x
    have hr₂ := h₂.bindings i sc₁ sc₂ hsc₁ hsc₂ x
    revert hr₁ hr₂
    generalize sc.bindings.get? x = o, sc₁.bindings.get? x = o₁, sc₂.bindings.get? x = o₂
    intro hr₁ hr₂
    cases hr₁ with
    | none =>
      cases hr₂
      exact .none
    | some hm₁ =>
      cases hr₂ with
      | some hm₂ => exact .some (hm₁.trans hm₂)
  · intro i sc sc₂ hsc hsc₂ x
    obtain ⟨sc₁, hsc₁, -⟩ := h₁.forth _ sc hsc
    rw [h₂.globals i sc₁ sc₂ hsc₁ hsc₂, h₁.globals i sc sc₁ hsc hsc₁, Set.mem_union, or_assoc]

theorem congr (h : s.Settles M₁ s₁) (hM : ∀ m, m ∈ M₁ ↔ m ∈ M₂) : s.Settles M₂ s₁ := by
  have heq : M₁ = M₂ := Set.ext hM
  subst heq
  exact h

/-- No name is bound or lost. -/
theorem contains_eq (h : s.Settles M s₁) {i : ScopeId} {sc sc' : Scope}
    (hsc : s.scopes.scopes[i.index]? = some sc) (hsc' : s₁.scopes.scopes[i.index]? = some sc')
    (x : String) : sc'.bindings.contains x = sc.bindings.contains x := by
  have hr := h.bindings i sc sc' hsc hsc' x
  unfold Table.contains
  revert hr
  generalize sc.bindings.get? x = o, sc'.bindings.get? x = o'
  intro hr
  cases hr with
  | none => rfl
  | some => rfl

/-- Marks change no identifier. -/
theorem books (h : s.Settles M s₁) : s.Books s₁ where
  identified hids i sc' x b' hsc' hx := by
    obtain ⟨sc, hsc, -⟩ := h.back i sc' hsc'
    have hr := h.bindings ⟨i⟩ sc sc' hsc hsc' x
    rw [hx] at hr
    generalize hget : sc.bindings.get? x = o at hr
    cases hr with
    | some hm =>
      rw [hm.identifier, h.toRedraws.tree]
      exact hids i sc x _ hsc hget
  generated := by rw [h.table]

theorem binds_iff (h : s.Settles M s₁) (i : ScopeId) (x : String) : s₁.Binds i x ↔ s.Binds i x := by
  constructor
  · rintro ⟨sc', hsc', hx⟩
    obtain ⟨sc, hsc, -⟩ := h.back _ sc' hsc'
    exact ⟨sc, hsc, by rw [← h.contains_eq hsc hsc']; exact hx⟩
  · rintro ⟨sc, hsc, hx⟩
    obtain ⟨sc', hsc', -⟩ := h.forth _ sc hsc
    exact ⟨sc', hsc', by rw [h.contains_eq hsc hsc']; exact hx⟩

theorem finds_iff (h : s.Settles M s₁) (x : String) (i : ScopeId) (o : Option ScopeId) :
    s₁.Finds x i o ↔ s.Finds x i o := h.toRedraws.finds_iff h.binds_iff x i o

theorem outermost_iff (h : s.Settles M s₁) (i j : ScopeId) :
    s₁.Outermost i j ↔ s.Outermost i j := by
  constructor
  · intro ho
    induction ho with
    | here hi => exact .here ((h.isOutermost_iff _).mp hi)
    | outer ha _ ih => exact .outer ((h.around_iff _ _).mp ha) ih
  · intro ho
    induction ho with
    | here hi => exact .here ((h.isOutermost_iff _).mpr hi)
    | outer ha _ ih => exact .outer ((h.around_iff _ _).mpr ha) ih

theorem size_eq (h : s.Settles M s₁) : s₁.scopes.scopes.size = s.scopes.scopes.size := by
  refine Nat.le_antisymm ?_ ?_
  · by_contra hlt
    obtain ⟨sc, hsc, -⟩ := h.back s.scopes.scopes.size _ (Array.getElem?_eq_getElem (by omega))
    have := (Array.getElem?_eq_some_iff.mp hsc).1
    omega
  · by_contra hlt
    obtain ⟨sc, hsc, -⟩ := h.forth s₁.scopes.scopes.size _ (Array.getElem?_eq_getElem (by omega))
    have := (Array.getElem?_eq_some_iff.mp hsc).1
    omega

theorem surveys (h : s.Settles M s₁) (hs : s.Sound K) (ho : s.scopes.Ordered) :
    s.Surveys K s₁ := by
  have hrest := h.rest
  have htable := h.table
  refine ⟨?_, ?_, ⟨?_, ?_, ?_⟩, ?_, ?_⟩
  · rw [hrest]
    exact (s.alike_scopes _).sound_of_paths hs rfl
  · rw [hrest]
    exact grew_scopes hs _
  · intro i sc' j hsc' hj
    obtain ⟨sc, hsc, hp⟩ := h.back i sc' hsc'
    simp only [Scope.place, Prod.mk.injEq] at hp
    exact ho.parent i sc j hsc (hp.2.2 ▸ hj)
  · intro n i hi
    rw [h.size_eq]
    rw [htable] at hi
    exact ho.byBlock n i hi
  · intro i hi
    rw [h.size_eq]
    rw [htable] at hi
    exact ho.root i hi
  · rw [htable]
  · intro i sc hsc
    obtain ⟨sc', hsc', hp⟩ := h.forth i sc hsc
    exact ⟨sc', hsc', hp, fun x hx => by rw [h.contains_eq (i := ⟨i⟩) hsc hsc']; exact hx⟩

end Settles

end Session

/-! ## Noting a use -/

section Noting

open Session

variable {s : Session} {K : Set NodeId} {i : ScopeId} {x : String}

/-- Marking the binding that a name leads to. -/
theorem modifyBinding_settles (ho : s.scopes.Ordered) (hi : s.HasScope i) {f : Binding → Binding}
    (mark : ScopeId → Mark) (hscope : ∀ j, (mark j).scope = j) (hname : ∀ j, (mark j).name = x)
    (hbinding : ∀ j k y, mark j ≠ .undeclared k y)
    (hf : ∀ j b, Binding.Marked {mark j} j x b (f b)) :
    Returns (i.modifyBinding x f) s fun v s' => ∃ o, s.Finds x i o ∧ v = o.isSome ∧
      s.Settles {m | ∃ j, o = some j ∧ m = mark j} s' := by
  obtain ⟨o, hfinds, hrun⟩ := ScopeId.modifyBinding_run ho hi x f
  refine ⟨_, _, hrun, o, hfinds, rfl, ?_⟩
  cases o with
  | none => exact (Settles.refl s).congr (by simp)
  | some j =>
    have hmap : s.Settles {mark j} (s.mapScope j fun sc => sc.mapBinding x f) := by
      refine .mapScope s j (fun _ => rfl) ?_ ?_ ?_
      · rintro m rfl
        exact hscope j
      · intro sc hsc y
        rw [Scope.get?_mapBinding]
        by_cases hy : y = x
        · rw [if_pos hy, hy]
          cases sc.bindings.get? x with
          | none => exact .none
          | some b => exact .some (hf j b)
        · rw [if_neg hy]
          refine Settles.rel_refl _ fun p => ⟨fun hm => hy ?_, fun hm => hy ?_⟩
          · rw [← hname j, ← Set.mem_singleton_iff.mp hm]
            rfl
          · rw [← hname j, ← Set.mem_singleton_iff.mp hm]
            rfl
      · intro sc y
        exact ⟨.inl, fun hy => hy.resolve_right fun hm =>
          hbinding j j y (Set.mem_singleton_iff.mp hm).symm⟩
    exact hmap.congr (by simp)

/-- Noting a name of the program makes no mark. -/
theorem noteReference_settles (ho : s.scopes.Ordered) (hi : s.HasScope i) (x : String) :
    Returns (i.noteReference x) s fun _ s' => s.Settles ∅ s' := by
  obtain ⟨j, -, hrun⟩ := ScopeId.noteReference_run ho hi x
  refine ⟨(), _, hrun, .mapScope s j (fun _ => rfl) (by simp) (fun sc _ y => ?_) (by simp [Scope.noteName])⟩
  exact Settles.rel_refl _ (by simp)

theorem noteGlobal_settles (ho : s.scopes.Ordered) (hi : s.HasScope i) (x : String) :
    Returns (i.noteGlobal x) s fun _ s' =>
      ∃ j, s.Outermost i j ∧ s.Settles {.undeclared j x} s' := by
  obtain ⟨j, hout, hrun⟩ := ScopeId.noteGlobal_run ho hi x
  refine ⟨(), _, hrun, j, hout, .mapScope s j (fun _ => rfl) ?_ (fun sc _ y => ?_) fun sc y => ?_⟩
  · rintro m rfl
    rfl
  · exact Settles.rel_refl _ (by simp)
  · simp [Scope.noteUndeclared, Scope.mem_addName]

/-- Steps that make marks, one after the other. -/
theorem forM_settles {α : Type} (l : List α) (f : α → SessionM Unit) (F : α → Set Mark)
    (hstep : ∀ a ∈ l, ∀ M s₁, s.Settles M s₁ →
      Returns (f a) s₁ fun _ s' => s₁.Settles (F a) s') :
    Returns (l.forM f) s fun _ s' => s.Settles {m | ∃ a ∈ l, m ∈ F a} s' := by
  induction l generalizing s with
  | nil => exact .pure ((Settles.refl s).congr (by simp))
  | cons a l ih =>
    show Returns (f a >>= fun _ => l.forM f) s _
    refine (hstep a (by simp) ∅ s (.refl s)).bind fun _ s₁ h₁ => ?_
    refine (ih fun a' ha' M s₂ h₂ => hstep a' (by simp [ha']) _ s₂ (h₁.trans h₂)).mono
      fun _ s₂ h₂ => (h₁.trans h₂).congr ?_
    simp

/-- The marks of a write: one for each of its names that is declared. -/
def Session.writeMarks (s : Session) (w : ScopeId × PathId × List String) : Set Mark :=
  {m | ∃ x ∈ w.2.2, ∃ j, s.Finds x w.1 (some j) ∧ m = .write j x w.2.1}

/-- The mark of a read: at its binding, or among the globals. -/
def Session.readMarks (s : Session) (r : ScopeId × PathId) : Set Mark :=
  {m | ∃ n x declared, s.Holds r.2 n ∧ s.tree.kind? n = some (.identifier x declared) ∧
    ((∃ j, s.Finds x r.1 (some j) ∧ m = .read j x r.2) ∨
      (s.Finds x r.1 none ∧ ∃ j, s.Outermost r.1 j ∧ m = .undeclared j x))}

/-- The marks of everything that a walk collected. -/
def Session.marks (s : Session) (u : Uses) : Set Mark :=
  {m | (∃ w ∈ u.writes, m ∈ s.writeMarks w) ∨ ∃ r ∈ u.reads, m ∈ s.readMarks r}

/-- Resolving a write marks the bindings of its names. -/
theorem resolveWrite_settles (hs : s.Sound K) (ho : s.scopes.Ordered)
    (w : ScopeId × PathId × List String) (hw : s.HasScope w.1) :
    Returns (resolveWrite w) s fun _ s' => s.Settles (s.writeMarks w) s' := by
  obtain ⟨i, p, names⟩ := w
  have hone : ∀ x, ∀ M s₁, s.Settles M s₁ →
      Returns (do let _ ← i.modifyBinding x fun b => b.reassign p) s₁ fun _ s' =>
        s₁.Settles {m | ∃ j, s.Finds x i (some j) ∧ m = .write j x p} s' := by
    intro x M s₁ h₁
    have hsur := h₁.surveys hs ho
    refine (modifyBinding_settles hsur.ordered (hw.later hsur) (fun j => .write j x p) (fun _ => rfl)
      (fun _ => rfl) (by simp) fun j b => b.marked_reassign p).bind fun _ s₂ h₂ => ?_
    obtain ⟨o, ho, -, h₂⟩ := h₂
    refine .pure (h₂.congr fun m => ?_)
    have hfinds := (h₁.finds_iff x i o).mp ho
    constructor
    · rintro ⟨j, rfl, rfl⟩
      exact ⟨j, hfinds, rfl⟩
    · rintro ⟨j, hj, rfl⟩
      exact ⟨j, hfinds.unique hj, rfl⟩
  exact forM_settles names _ (fun x => {m | ∃ j, s.Finds x i (some j) ∧ m = .write j x p})
    fun x _ M s₁ h₁ => hone x M s₁ h₁

/-- Resolving a read marks the binding of its name, or notes the name among the globals. -/
theorem resolveRead_settles (hs : s.Sound K) (ho : s.scopes.Ordered) (r : ScopeId × PathId)
    (hi : s.HasScope r.1) {n : NodeId} (hr : s.Holds r.2 n) :
    Returns (resolveRead r) s fun _ s' => s.Settles (s.readMarks r) s' := by
  obtain ⟨i, p⟩ := r
  obtain ⟨k, hk⟩ := hs.forest.kind n (hs.mem_of_holds hr)
  have hname : p.identifierName? s = .ok k.identifierName? s := by
    show (p.kind? >>= _) s = _
    rw [bind_of_ok (PathId.kind?_run_of_holds hr hk)]
    rfl
  unfold resolveRead
  refine returns_bind_of_ok hname ?_
  have hsame : ∀ n' x declared, s.Holds p n' → s.tree.kind? n' = some (.identifier x declared) →
      k.identifierName? = some x := by
    intro n' x declared hn' hk'
    obtain rfl := hr.unique_node hn'
    obtain rfl : k = _ := Option.some.inj (hk.symm.trans hk')
    rfl
  cases hx : k.identifierName? with
  | none =>
    refine .pure ((Settles.refl s).congr fun m => ⟨fun hm => (by cases hm), ?_⟩)
    rintro ⟨n', x, declared, hn', hk', -⟩
    rw [hsame n' x declared hn' hk'] at hx
    cases hx
  | some x =>
    obtain ⟨declared, hid⟩ := k.identifierName?_eq_some_iff.mp hx
    subst hid
    have hmarks : ∀ m, m ∈ s.readMarks (i, p) ↔ (∃ j, s.Finds x i (some j) ∧ m = .read j x p) ∨
        (s.Finds x i none ∧ ∃ j, s.Outermost i j ∧ m = .undeclared j x) := by
      intro m
      constructor
      · rintro ⟨n', x', declared', hn', hk', hm⟩
        have heq := hsame n' x' declared' hn' hk'
        rw [hx, Option.some.injEq] at heq
        subst heq
        exact hm
      · exact fun hm => ⟨n, x, declared, hr, hk, hm⟩
    refine (noteReference_settles ho hi x).bind fun _ s₁ h₁ => ?_
    have hsur₁ := h₁.surveys hs ho
    refine (modifyBinding_settles hsur₁.ordered (hi.later hsur₁) (fun j => .read j x p)
      (fun _ => rfl) (fun _ => rfl) (by simp) fun j b => b.marked_reference p).bind fun v s₂ h₂ => ?_
    obtain ⟨o, hfinds, rfl, h₂⟩ := h₂
    have hsur₂ := hsur₁.trans (h₂.surveys hsur₁.sound hsur₁.ordered)
    have hfinds₀ := (h₁.finds_iff x i o).mp hfinds
    cases o with
    | some j =>
      refine .pure ((h₁.trans h₂).congr fun m => ?_)
      rw [hmarks]
      constructor
      · rintro (hm | ⟨j', hj', rfl⟩)
        · cases hm
        · exact .inl ⟨j', hj' ▸ hfinds₀, rfl⟩
      · rintro (⟨j', hj', rfl⟩ | ⟨hnone, -⟩)
        · exact .inr ⟨j', hfinds₀.unique hj', rfl⟩
        · cases hfinds₀.unique hnone
    | none =>
      refine (noteGlobal_settles hsur₂.ordered (hi.later hsur₂) x).mono fun _ s₃ h₃ => ?_
      obtain ⟨j, hout, h₃⟩ := h₃
      have hout₀ := ((h₁.trans h₂).outermost_iff i j).mp hout
      refine ((h₁.trans h₂).trans h₃).congr fun m => ?_
      rw [hmarks]
      constructor
      · rintro ((hm | ⟨j', hj', -⟩) | rfl)
        · cases hm
        · cases hj'
        · exact .inr ⟨hfinds₀, j, hout₀, rfl⟩
      · rintro (⟨j', hj', -⟩ | ⟨-, j', hj', rfl⟩)
        · cases hfinds₀.unique hj'
        · rw [hj'.unique hout₀]
          exact .inr rfl

/-- Resolving the uses of a walk makes the marks of all of them. -/
theorem resolveUses_settles (hs : s.Sound K) (ho : s.scopes.Ordered) {u : Uses}
    (hu : s.Carries u) :
    Returns (do u.writes.forM resolveWrite; u.reads.forM resolveRead) s fun _ s' =>
      s.Settles (s.marks u) s' := by
  have hwrites := forM_settles u.writes resolveWrite s.writeMarks fun w hw M s₁ h₁ => by
    have hsur := h₁.surveys hs ho
    refine (resolveWrite_settles hsur.sound hsur.ordered w
      ((hu.writes w.1 w.2.1 w.2.2 hw).later hsur)).mono fun _ s₂ h₂ => h₂.congr fun m => ?_
    simp only [writeMarks, h₁.finds_iff]
  refine hwrites.bind fun _ s₁ h₁ => ?_
  have hreads := forM_settles (s := s₁) u.reads resolveRead s.readMarks fun r hr M s₂ h₂ => by
    have h₂ := h₁.trans h₂
    have hsur := h₂.surveys hs ho
    obtain ⟨hi, n, hn⟩ := hu.reads r.1 r.2 hr
    refine (resolveRead_settles hsur.sound hsur.ordered r (hi.later hsur)
      (hsur.grew.holds hs hn)).mono fun _ s₃ h₃ => h₃.congr fun m => ?_
    simp only [readMarks, h₂.finds_iff, h₂.outermost_iff, h₂.holds_iff, h₂.tree]
  exact hreads.mono fun _ s₂ h₂ => h₁.trans h₂

end Noting

/-! ## A whole crawl -/

open Session in
/-- Building a scope and everything below it walks the block and resolves what the walk collected. -/
theorem crawlScope_settles {s : Session} {K : Set NodeId} {G : Prop} {p : PathId} {n : NodeId}
    (hs : s.Sound K) (ho : s.scopes.Ordered) (hp : s.Holds p n) (parent : Option ScopeId)
    (hparent : ∀ j, parent = some j → s.HasScope j) (hmeans : G → s.tree.Meant K)
    (houter : G → ∀ j, parent = some j → ∃ b, s.ScopeOf j b ∧ s.tree.InScope n b)
    (hroot : G → parent = none → s.tree.root = some n) (hopens : G → s.tree.Opens n) :
    Returns (crawlScope p parent) s fun i s' => s'.ScopeOf i n ∧ ∃ u s₁,
      s.Walked K G ({.opens n} ∪ s.tree.factsInside n) u s₁ ∧ s₁.Settles (s₁.marks u) s' := by
  have hn := hs.mem_of_holds hp
  obtain ⟨k, hk⟩ := hs.forest.kind n hn
  unfold crawlScope
  refine (createScope_walked hs ho hp parent hparent houter hroot).bind fun i s₁ h₁ => ?_
  obtain ⟨h₁, hi⟩ := h₁
  rw [Returns, run_get_bind]
  have hinside : s₁.Inside K G p n i :=
    { sound := h₁.sound
      ordered := h₁.ordered
      scope := hi.hasScope
      holds := h₁.grew.holds hs hp
      means := fun hG => by rw [h₁.tree]; exact hmeans hG
      scopeOf := fun hG => ⟨hi, by rw [h₁.tree]; exact hopens hG⟩ }
  have hdepth : ∀ c ∈ k.children, s₁.tree.DepthWithin (s₁.tree.depthBound + 1) c := by
    intro c hc
    rw [h₁.tree]
    refine (hs.forest.depthWithin (hs.forest.closed_child hn ?_)).mono ?_
    · exact (s.tree.isChild_iff n c).mpr ⟨k, hk, hc⟩
    · unfold Tree.depthBound
      omega
  refine (walkBlock_walked (walkWithin_walked K G _) hinside (by rw [h₁.tree]; exact hk)
    hdepth).bind fun u s₂ h₂ => ?_
  rw [h₁.tree] at h₂
  rw [← bind_assoc]
  refine (resolveUses_settles h₂.sound h₂.ordered h₂.carries).bind fun _ s₃ h₃ => .pure ⟨?_, u, s₂, ?_, h₃⟩
  · exact (hi.later h₁.sound h₂.toSurveys).later h₂.sound (h₃.surveys h₂.sound h₂.ordered)
  · rw [← Uses.empty_append u]
    refine h₁.trans h₂ fun _ b hb => ?_
    cases hb
    exact Tree.opens_not_mem_factsInside hs.forest hn

end Espalier
