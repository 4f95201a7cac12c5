import Espalier.Proofs.Walk

set_option autoImplicit false

/-! # The walk of a subtree

Declarations give their names to the scope they belong to, blocks get a scope of their own, reads
and assignments are collected. Together: the walk of a subtree notes the facts of the subtree
(`walkWithin_walked`), and the walk of a program those of the whole tree. -/

namespace Espalier

open SessionM Session

section Scopes

variable {s : Session} {K : Set NodeId} {G : Prop} {p : PathId} {n b : NodeId} {k : NodeKind}
  {i j : ScopeId}

/-! ## New scopes -/

section AddScope

variable {sc : Scope}

theorem scopeOf_addScope (hb : s.Holds sc.block n) (i : ScopeId) (b : NodeId) :
    (s.addScope n sc).ScopeOf i b ↔
      s.ScopeOf i b ∨ (i = ⟨s.scopes.scopes.size⟩ ∧ b = n) := by
  constructor
  · rintro ⟨sc', hsc', hb'⟩
    rw [getElem?_addScope] at hsc'
    split at hsc'
    · next hi =>
      obtain rfl := Option.some.inj hsc'
      exact .inr ⟨by cases i; simpa using hi, Holds.unique_node hb' hb⟩
    · exact .inl ⟨sc', hsc', hb'⟩
  · rintro (⟨sc', hsc', hb'⟩ | ⟨rfl, rfl⟩)
    · exact ⟨sc', ScopeTable.getElem?_add_of_some n _ hsc', hb'⟩
    · exact ⟨sc, by rw [getElem?_addScope, if_pos rfl], hb⟩

/-- The blocks of a table with one more scope, which is the only one of its block. -/
theorem faithful_addScope (hf : s.Faithful) (hb : s.Holds sc.block n)
    (hk : s.tree.kind? n = some k) (ht : sc.blockType = k.type) (hno : ∀ i, ¬ s.ScopeOf i n)
    (hmeans : ∀ j, sc.parent = some j → ∃ b, s.ScopeOf j b ∧ s.tree.InScope n b)
    (hroot : sc.parent = none → s.tree.root = some n) : (s.addScope n sc).Faithful := by
  have hself : ∀ i b (sc' : Scope), (s.addScope n sc).scopes.scopes[i.index]? = some sc' →
      (s.addScope n sc).ScopeOf i b →
        (sc' = sc ∧ b = n) ∨ (s.scopes.scopes[i.index]? = some sc' ∧ s.ScopeOf i b) := by
    intro i b sc' hsc' hi
    rw [getElem?_addScope] at hsc'
    rcases (scopeOf_addScope hb i b).mp hi with hi | ⟨rfl, hbn⟩
    · obtain ⟨sc₀, hsc₀, hb₀⟩ := hi
      have hlt := (Array.getElem?_eq_some_iff.mp hsc₀).1
      rw [if_neg (by omega)] at hsc'
      exact .inr ⟨hsc', sc₀, hsc₀, hb₀⟩
    · rw [if_pos rfl] at hsc'
      exact .inl ⟨(Option.some.inj hsc').symm, hbn⟩
  refine ⟨?_, ?_, ?_, ?_⟩
  · intro i sc' hsc'
    rw [getElem?_addScope] at hsc'
    split at hsc'
    · obtain rfl := Option.some.inj hsc'
      exact ⟨n, k, hb, hk, ht⟩
    · exact hf.block i sc' hsc'
  · intro i j b hi hj
    rcases (scopeOf_addScope hb i b).mp hi with hi' | ⟨rfl, hbn⟩
    · rcases (scopeOf_addScope hb j b).mp hj with hj' | ⟨-, hbn⟩
      · exact hf.single i j b hi' hj'
      · exact absurd (hbn ▸ hi') (hno i)
    · rcases (scopeOf_addScope hb j b).mp hj with hj' | ⟨rfl, -⟩
      · exact absurd (hbn ▸ hj') (hno j)
      · rfl
  · rintro i j b ⟨sc', hsc', hj⟩ hi
    rcases hself i b sc' hsc' hi with ⟨rfl, rfl⟩ | ⟨hsc, hi⟩
    · obtain ⟨b', hb', hin⟩ := hmeans j hj
      exact ⟨b', hin, (scopeOf_addScope hb j b').mpr (.inl hb')⟩
    · obtain ⟨b', hin, hb'⟩ := hf.outer i j b ⟨sc', hsc, hj⟩ hi
      exact ⟨b', hin, (scopeOf_addScope hb j b').mpr (.inl hb')⟩
  · rintro i b ⟨sc', hsc', hj⟩ hi
    rcases hself i b sc' hsc' hi with ⟨rfl, rfl⟩ | ⟨hsc, hi⟩
    · exact hroot hj
    · exact hf.root i b ⟨sc', hsc, hj⟩ hi

theorem pending_addScope (hp : s.Pending) (hx : ∀ x, sc.bindings.get? x = none)
    (hg : sc.globals = []) : (s.addScope n sc).Pending := by
  have hbinding : ∀ (i : Nat) (sc' : Scope) x b, (s.addScope n sc).scopes.scopes[i]? = some sc' →
      sc'.bindings.get? x = some b → s.scopes.scopes[i]? = some sc' := by
    intro i sc' x b hsc' hb
    rw [getElem?_addScope] at hsc'
    split at hsc'
    · obtain rfl := Option.some.inj hsc'
      rw [hx] at hb
      cases hb
    · exact hsc'
  refine ⟨fun i sc' x b h h' => ?_, fun i sc' x b h h' => ?_, fun i sc' x b h h' => ?_,
    fun i sc' h => ?_⟩
  · exact hp.references i sc' x b (hbinding i sc' x b h h') h'
  · exact hp.path i sc' x b (hbinding i sc' x b h h') h'
  · exact hp.violations i sc' x b (hbinding i sc' x b h h') h'
  · rw [getElem?_addScope] at h
    split at h
    · obtain rfl := Option.some.inj h
      exact hg
    · exact hp.globals i sc' h

end AddScope

/-- A new scope notes that its block opens one. -/
theorem createScope_walked (hs : s.Sound K) (ho : s.scopes.Ordered) (hp : s.Holds p n)
    (parent : Option ScopeId) (hparent : ∀ j, parent = some j → s.HasScope j)
    (hmeans : G → ∀ j, parent = some j → ∃ b, s.ScopeOf j b ∧ s.tree.InScope n b)
    (hroot : G → parent = none → s.tree.root = some n) :
    Returns (createScope p parent) s fun i s' =>
      s.Walked K G {.opens n} {} s' ∧ s'.ScopeOf i n := by
  obtain ⟨k, hk⟩ := hs.forest.kind n (hs.mem_of_holds hp)
  have hself : ∀ i b, (s.addScope n { block := p, blockType := k.type, parent }).ScopeOf i b ↔
      s.ScopeOf i b ∨ (i = ⟨s.scopes.scopes.size⟩ ∧ b = n) := scopeOf_addScope hp
  refine ⟨⟨s.scopes.scopes.size⟩, _, createScope_run hp hk parent, ?_,
    (hself _ n).mpr (.inr ⟨rfl, rfl⟩)⟩
  refine ⟨⟨(s.alike_scopes _).sound_of_paths hs rfl, grew_scopes hs _, ho.add n _ hparent,
    s.scopes.extends_add n _⟩, .empty _, ⟨fun hids i sc x b hsc hx => ?_, rfl⟩,
    fun hG hf hpend hfresh => ?_⟩
  · rw [getElem?_addScope] at hsc
    split at hsc
    · obtain rfl := Option.some.inj hsc
      cases hx
    · exact hids i sc x b hsc hx
  refine ⟨faithful_addScope hf hp hk rfl (fun i => hfresh n i rfl) (hmeans hG) (hroot hG),
    pending_addScope hpend (fun _ => rfl) rfl, ?_, ?_, ?_, fun _ _ h => (by cases h),
    by simp, fun _ _ h => (by cases h), by simp, fun _ _ _ h => (by cases h)⟩
  · intro b i hi
    rcases (hself i b).mp hi with hi | ⟨-, rfl⟩
    · exact .inl ⟨i, hi⟩
    · exact .inr rfl
  · rintro b hb
    cases hb
    exact ⟨_, (hself _ n).mpr (.inr ⟨rfl, rfl⟩)⟩
  · rintro b x ⟨i, hi, sc, hsc, hx⟩
    rw [getElem?_addScope] at hsc
    split at hsc
    · obtain rfl := Option.some.inj hsc
      cases hx
    · next hidx =>
      rcases (hself i b).mp hi with hi | ⟨rfl, -⟩
      · exact .inl ⟨i, hi, sc, hsc, hx⟩
      · exact absurd rfl hidx

/-- The scope that owns variables is the one of the nearest function or program. -/
theorem Session.Hoists.scopeOf (hf : s.Faithful) (hprogram : s.tree.IsProgram)
    (h : s.Hoists i j) (hi : s.ScopeOf i b) :
    ∃ c, s.tree.HoistsTo b c ∧ s.ScopeOf j c := by
  have howns : ∀ i b, s.ScopeOf i b → (s.IsFunctionScope i ↔ s.tree.OwnsVariables b) := by
    rintro i b ⟨sc, hsc, hb⟩
    obtain ⟨b', k, hb', hk, ht⟩ := hf.block _ sc hsc
    obtain rfl := hb.unique_node hb'
    have hiff : sc.isFunctionScope = true ↔ (k.type = .program ∨ k.type.isFunction = true) := by
      simp [Scope.isFunctionScope, ht]
    constructor
    · rintro ⟨sc', hsc', hfun⟩
      obtain rfl : sc = sc' := Option.some.inj (hsc.symm.trans hsc')
      exact ⟨k, hk, hiff.mp hfun⟩
    · rintro ⟨k', hk', hfun⟩
      obtain rfl : k = k' := Option.some.inj (hk.symm.trans hk')
      exact ⟨sc, hsc, hiff.mpr hfun⟩
  induction h generalizing b with
  | @here i h => exact ⟨b, .here ((howns i b hi).mp h), hi⟩
  | @last i h hout =>
    have hroot := hf.root i b hout hi
    obtain ⟨r, hr, htype⟩ := hprogram.root
    obtain rfl : r = b := Option.some.inj (hr.symm.trans hroot)
    simp only [Tree.type?, Option.map_eq_some_iff] at htype
    obtain ⟨node, hnode, htype⟩ := htype
    refine absurd ((howns i r hi).mpr ⟨node.kind, by simp [Tree.kind?, hnode], .inl htype⟩) h
  | @outer i j k h hij _ ih =>
    obtain ⟨b', hb', hj⟩ := hf.outer i j b hij hi
    obtain ⟨c, hc, hk⟩ := ih hj
    exact ⟨c, .outer (fun hown => h ((howns i b hi).mpr hown)) hb' hc, hk⟩

end Scopes

/-! ## Declarations -/

section Declarations

variable {s : Session} {K : Set NodeId} {G : Prop} {p : PathId} {n : NodeId} {i : ScopeId}

/-- The scope that a variable declaration gives its names to. -/
theorem variableScope_run (h : s.At K G p n i) (v : VariableKind) :
    ∃ j, (v = .var → i.functionScope s = .ok j s) ∧ (v ≠ .var → j = i) ∧ s.HasScope j ∧
      (G ∧ s.Faithful → ∃ b c, s.tree.InScope n b ∧ s.ScopeOf j c ∧ (v ≠ .var → c = b) ∧
        (v = .var → s.tree.HoistsTo b c)) := by
  by_cases hv : v = .var
  · obtain ⟨j, hrun, hh⟩ := ScopeId.functionScope_run h.ordered h.scope
    refine ⟨j, fun _ => hrun, fun hne => absurd hv hne, hh.hasScope, fun hG => ?_⟩
    obtain ⟨b, hb, hin⟩ := h.inScope hG.1
    obtain ⟨c, hc, hj⟩ := hh.scopeOf hG.2 (h.means hG.1).program hb
    exact ⟨b, c, hin, hj, fun hne => absurd hv hne, fun _ => hc⟩
  · refine ⟨i, fun he => absurd he hv, fun _ => rfl, h.scope, fun hG => ?_⟩
    obtain ⟨b, hb, hin⟩ := h.inScope hG.1
    exact ⟨b, b, hin, hb, fun _ => rfl, fun he => absurd he hv⟩

theorem Session.At.reachable (h : s.At K G p n i) (hG : G) : s.tree.Reachable n := by
  have hn := h.mem
  rw [(h.means hG).all] at hn
  exact hn

/-- What a variable declaration introduces: what the targets of its declarators bind. -/
theorem Tree.introduces_variables_iff {t : Tree} (hm : t.Meant K) {v : VariableKind}
    {ds : List NodeId} (hk : t.kind? n = some (.variableDeclaration v ds)) {b c : NodeId}
    (hb : t.InScope n b) (hlex : v ≠ .var → c = b) (hvar : v = .var → t.HoistsTo b c)
    (c' : NodeId) (x : String) :
    t.Introduces n c' x ↔ c' = c ∧ ∃ e ∈ ds, ∃ target init,
      t.kind? e = some (.variableDeclarator target init) ∧ t.Binds target x := by
  constructor
  · intro h
    cases h with
    | inside h => exact absurd h (Tree.not_bindsInside hk rfl (by simp [NodeKind.type]) x)
    | function hk' => rw [hk] at hk'; cases hk'
    | imported hk' => rw [hk] at hk'; cases hk'
    | lexical hk' hne he hke hx hb' =>
      rw [hk] at hk'
      cases hk'
      rw [hlex hne, hm.program.inScope_unique hb hb']
      exact ⟨rfl, _, he, _, _, hke, hx⟩
    | hoisted hk' he hke hx hb' hc' =>
      rw [hk] at hk'
      cases hk'
      have hbb := hm.program.inScope_unique hb hb'
      subst hbb
      exact ⟨hm.program.hoistsTo_unique hc' (hvar rfl), _, he, _, _, hke, hx⟩
  · rintro ⟨rfl, e, he, target, init, hke, hx⟩
    by_cases hv : v = .var
    · subst hv
      exact .hoisted hk he hke hx hb (hvar rfl)
    · rw [hlex hv]
      exact .lexical hk hv he hke hx hb

/-- Declaring the names of a variable declaration, with a step after each declarator. -/
theorem registerDeclarators_walked (h : s.At K G p n i) {v : VariableKind} {ds : List NodeId}
    (hk : s.tree.kind? n = some (.variableDeclaration v ds)) (andThen : PathId → SessionM Uses)
    (after : NodeId → Set Fact)
    (hafter : ∀ e b, .opens b ∈ after e → .opens b ∈ s.tree.facts e)
    (hthen : ∀ q e pos s₁, e ∈ ds → s.Surveys K s₁ → s₁.Linked q pos → pos.parent? = some n →
      s.tree.occupant? pos = some e → Returns (andThen q) s₁ (s₁.Walked K G (after e))) :
    Returns (registerDeclarators p v i andThen) s (s.Walked K G
      {f | (∃ c x, f = .declares c x ∧ s.tree.Introduces n c x) ∨ ∃ e ∈ ds, f ∈ after e}) := by
  have hfield : s.tree.field? n .declarations = some (.many ds) := by
    simp [Tree.field?, hk, NodeKind.child?, NodeKind.fields]
  obtain ⟨j, hvar, hlex, hj, hmean⟩ := variableScope_run h v
  -- The facts of one declarator: its names, and what the step after it notes.
  let names (e : NodeId) : Set Fact := {f | ∃ c x target init, f = .declares c x ∧ s.ScopeOf j c ∧
    s.tree.kind? e = some (.variableDeclarator target init) ∧ s.tree.Binds target x}
  have hone : ∀ q e pos s₁, e ∈ ds → s.Surveys K s₁ → s₁.Linked q pos → pos.parent? = some n →
      s.tree.occupant? pos = some e → Returns (do
        registerPattern (← q.child .id) (.ofVariableKind v) j q
        andThen q) s₁ (s₁.Walked K (G ∧ s.Faithful) (names e ∪ after e)) := by
    intro q e pos s₁ he hs₁ hq hpos hocc
    have hqe : s₁.Holds q e := hq.holds (by rw [hs₁.tree]; exact hocc)
    refine (PathId.child_arrives hs₁.sound hqe .id).bind fun r s₂ hr => ?_
    obtain ⟨d, hd, hdn⟩ := hr.known
    have hsur₂ := hs₁.trans (hr.toWent.surveys hs₁.ordered)
    have hpattern := registerPattern_walked (G := G ∧ s.Faithful) (F := names e) hr.sound
      hsur₂.ordered (hj.later hsur₂) hd (.ofVariableKind v) q fun hG => by
        obtain ⟨b, c, hb, hc, -, -⟩ := hmean hG
        obtain ⟨target, init, hke, htarget⟩ := (h.means hG.1).grammatical.declarator n v ds
          (h.reachable hG.1) hk e he
        refine ⟨c, hc.later h.sound hsur₂, ⟨e, _, hr.grew.holds hs₁.sound hqe,
          by rw [hsur₂.tree]; exact hke, by simp [NodeKind.type]⟩, fun f => ?_⟩
        have hnode : d.node = some target := by
          rw [hdn, hs₁.tree]
          simp [Tree.occupant?, Tree.field?, hke, NodeKind.child?, NodeKind.fields, Child.node?]
        simp only [names, Set.mem_ofPred_eq, hnode, hsur₂.tree]
        constructor
        · rintro ⟨c', x, target', init', rfl, hc', hke', hx⟩
          rw [hke] at hke'
          cases hke'
          exact ⟨x, target, by rw [hc.node_unique hc'], rfl, hx.named⟩
        · rintro ⟨x, m, rfl, hm, hx⟩
          obtain rfl := Option.some.inj hm
          exact ⟨c, x, target, init, rfl, hc, hke, (htarget.named_iff x).mp hx⟩
    refine hpattern.bind fun _ s₃ h₃ => ?_
    have hsur₃ := hsur₂.trans h₃.toSurveys
    have hl₃ := (hq.grew hs₁.sound hr.grew).grew hr.sound h₃.grew
    refine (hthen q e pos s₃ he hsur₃ hl₃ hpos hocc).mono fun u s₄ hu => ?_
    rw [← Uses.empty_append u, ← Uses.empty_append ({} ++ u)]
    refine ((hr.toWent.walked hs₁.sound hs₁.ordered).trans
      (h₃.trans (hu.weaken And.left) (by simp [names])) (by simp)).congr fun _ f => by simp
  have htail : Returns (do
      let uses ← (← p.elements .declarations).mapM fun declarator => do
        registerPattern (← declarator.child .id) (.ofVariableKind v) j declarator
        andThen declarator
      pure (Uses.concat uses)) s (s.Walked K G
        {f | (∃ c x, f = .declares c x ∧ s.tree.Introduces n c x) ∨ ∃ e ∈ ds, f ∈ after e}) := by
    have hwalks := elements_walked (G := G ∧ s.Faithful) h.sound h.ordered h.holds hfield
      (fun declarator => do
        registerPattern (← declarator.child .id) (.ofVariableKind v) j declarator
        andThen declarator)
      (fun e => names e ∪ after e)
      (by
        rintro e b (hb | hb)
        · simp [names] at hb
        · exact hafter e b hb) hone
    rw [← bind_assoc]
    refine hwalks.bind fun us s₁ hus => .pure (Walked.of_faithful (hus.congr fun hG f => ?_))
    obtain ⟨b, c, hb, hc, hcl, hcv⟩ := hmean hG
    have hintro := Tree.introduces_variables_iff (h.means hG.1) hk hb hcl hcv
    simp only [Set.mem_ofPred_eq, Set.mem_union, names, hintro]
    constructor
    · rintro ⟨e, he, ⟨c', x, target, init, rfl, hc', hke, hx⟩ | hf⟩
      · exact .inl ⟨c', x, rfl, hc'.node_unique hc, e, he, target, init, hke, hx⟩
      · exact .inr ⟨e, he, hf⟩
    · rintro (⟨c', x, rfl, rfl, e, he, target, init, hke, hx⟩ | ⟨e, he, hf⟩)
      · exact ⟨e, he, .inl ⟨c', x, target, init, rfl, hc, hke, hx⟩⟩
      · exact ⟨e, he, .inr hf⟩
  unfold registerDeclarators
  by_cases hv : v = .var
  · rw [if_pos hv]
    exact returns_bind_of_ok (hvar hv) htail
  · rw [if_neg hv, ← hlex hv]
    exact htail

theorem Tree.Imports.occupant {t : Tree} {e l : NodeId} {i? : Option NodeId}
    (h : t.Imports e l i?) : t.occupant? (.slot e .localName) = some l := by
  cases h with
  | named hk => simp [Tree.occupant?, Tree.field?, hk, NodeKind.child?, NodeKind.fields, Child.node?]
  | main hk => simp [Tree.occupant?, Tree.field?, hk, NodeKind.child?, NodeKind.fields, Child.node?]
  | whole hk => simp [Tree.occupant?, Tree.field?, hk, NodeKind.child?, NodeKind.fields, Child.node?]

/-- What stands in an import specifier, none of which is read. -/
theorem Tree.Imports.kind {t : Tree} {e l : NodeId} {i? : Option NodeId} (h : t.Imports e l i?) :
    ∃ k, t.kind? e = some k ∧ k.type.isModuleSpecifier = true ∧ k.readsField .localName = false ∧
      k.readsField .imported = false ∧ k.children = l :: i?.toList ∧
        (∀ i, i? = some i → t.occupant? (.slot e .imported) = some i) := by
  cases h with
  | named hk =>
    refine ⟨_, hk, rfl, rfl, rfl, rfl, fun i hi => ?_⟩
    obtain rfl := Option.some.inj hi
    simp [Tree.occupant?, Tree.field?, hk, NodeKind.child?, NodeKind.fields, Child.node?]
  | main hk => exact ⟨_, hk, rfl, rfl, rfl, rfl, fun i hi => by cases hi⟩
  | whole hk => exact ⟨_, hk, rfl, rfl, rfl, rfl, fun i hi => by cases hi⟩

theorem Tree.Imports.silent {t : Tree} {e l : NodeId} {i? : Option NodeId}
    (h : t.Imports e l i?) : t.Silent e := by
  cases h with
  | named hk | main hk | whole hk =>
    exact Tree.silent_of_kind hk (Tree.not_opens_of_not_scopable hk rfl) rfl
      (by simp [NodeKind.type]) (by simp [NodeKind.type]) (by simp [NodeKind.type])
      (Tree.not_reads_of_not_identifier hk rfl) (by simp [NodeKind.type]) (by simp [NodeKind.type])

/-- What an import introduces: the local names of its specifiers. -/
theorem Tree.introduces_import_iff {t : Tree} (hm : t.Meant K) {es : List NodeId} {source : NodeId}
    (hk : t.kind? n = some (.importDeclaration es source)) {b : NodeId} (hb : t.InScope n b)
    (c : NodeId) (x : String) :
    t.Introduces n c x ↔ c = b ∧ ∃ e ∈ es, ∃ l i? declared, t.Imports e l i? ∧
      t.kind? l = some (.identifier x declared) := by
  constructor
  · intro h
    cases h with
    | inside h => exact absurd h (Tree.not_bindsInside hk rfl (by simp [NodeKind.type]) x)
    | function hk' => rw [hk] at hk'; cases hk'
    | lexical hk' => rw [hk] at hk'; cases hk'
    | hoisted hk' => rw [hk] at hk'; cases hk'
    | imported hk' he hi hkl hb' =>
      rw [hk] at hk'
      cases hk'
      exact ⟨hm.program.inScope_unique hb' hb, _, he, _, _, _, hi, hkl⟩
  · rintro ⟨rfl, e, he, l, i?, declared, hi, hkl⟩
    exact .imported hk he hi hkl hb

/-- Declaring the names of an import. -/
theorem registerImports_walked (h : s.At K G p n i) {es : List NodeId} {source : NodeId}
    (hk : s.tree.kind? n = some (.importDeclaration es source)) :
    Returns (registerImports p i) s fun _ s' =>
      s.Walked K G {f | ∃ c x, f = .declares c x ∧ s.tree.Introduces n c x} {} s' := by
  have hfield : s.tree.field? n .specifiers = some (.many es) := by
    simp [Tree.field?, hk, NodeKind.child?, NodeKind.fields]
  let names (e : NodeId) : Set Fact := {f | ∃ b x l i? declared, f = .declares b x ∧
    s.ScopeOf i b ∧ s.tree.Imports e l i? ∧ s.tree.kind? l = some (.identifier x declared)}
  unfold registerImports
  refine (forM_elements_walked (G := G) h.sound h.ordered h.holds hfield _ names
    (by simp [names]) ?_).mono fun _ s₁ hw => hw.congr fun hG f => ?_
  · intro q e pos s₁ he hs₁ hl hpos hocc
    have hqe : s₁.Holds q e := hl.holds (by rw [hs₁.tree]; exact hocc)
    refine (PathId.child_arrives hs₁.sound hqe .localName).bind fun r s₂ hr => ?_
    obtain ⟨d, hd, hdn⟩ := hr.known
    have hsur₂ := hs₁.trans (hr.toWent.surveys hs₁.ordered)
    refine (registerPattern_walked (G := G) (F := names e) hr.sound hsur₂.ordered
      (h.scope.later hsur₂) hd .module q fun hG => ?_).mono fun _ s₃ h₃ => ?_
    · obtain ⟨b, hb, -⟩ := h.inScope hG
      obtain ⟨-, hspec⟩ := (h.means hG).grammatical.specifier n es source (h.reachable hG) hk
      obtain ⟨l, i?, hi, ⟨x, declared, hkl⟩, -⟩ := hspec e he
      obtain ⟨ke, hke, hmod, -⟩ := hi.kind
      refine ⟨b, hb.later h.sound hsur₂, ⟨e, ke, hr.grew.holds hs₁.sound hqe,
        by rw [hsur₂.tree]; exact hke, ?_⟩, fun f => ?_⟩
      · refine ⟨?_, ?_, ?_, ?_⟩ <;> intro ht <;> rw [ht] at hmod <;> cases hmod
      have hnode : d.node = some l := by rw [hdn, hs₁.tree, hi.occupant]
      have hnamed := fun y => Tree.named_iff_of_identifier hkl y
      simp only [names, Set.mem_ofPred_eq, hnode, hsur₂.tree]
      constructor
      · rintro ⟨b', x', l', i?', declared', rfl, hb', hi', hkl'⟩
        have hll : l = l' := Option.some.inj (hi.occupant.symm.trans hi'.occupant)
        subst hll
        exact ⟨x', l, by rw [hb.node_unique hb'], rfl, .identifier hkl'⟩
      · rintro ⟨y, m, rfl, hm, hy⟩
        obtain rfl := Option.some.inj hm
        rw [hnamed] at hy
        subst hy
        exact ⟨b, y, l, i?, declared, rfl, hb, hi, hkl⟩
    · rw [← Uses.empty_append {}]
      exact ((hr.toWent.walked hs₁.sound hs₁.ordered).trans h₃ (by simp)).congr fun _ f => by simp
  · obtain ⟨b, hb, hin⟩ := h.inScope hG
    simp only [names, Set.mem_ofPred_eq, Tree.introduces_import_iff (h.means hG) hk hin]
    constructor
    · rintro ⟨e, he, b', x, l, i?, declared, rfl, hb', hi, hkl⟩
      exact ⟨b', x, rfl, hb'.node_unique hb, e, he, l, i?, declared, hi, hkl⟩
    · rintro ⟨c, x, rfl, rfl, e, he, l, i?, declared, hi, hkl⟩
      exact ⟨e, he, c, x, l, i?, declared, rfl, hb, hi, hkl⟩

/-- Nothing below an import gives rise to facts. -/
theorem Session.At.factsBelow_import (h : s.At K G p n i) (hG : G) {es : List NodeId}
    {source : NodeId} (hk : s.tree.kind? n = some (.importDeclaration es source)) (f : Fact) :
    f ∉ s.tree.factsBelow n := by
  obtain ⟨htext, hspec⟩ := (h.means hG).grammatical.specifier n es source (h.reachable hG) hk
  rintro ⟨c, hc, hf⟩
  obtain ⟨k', hk', hmem⟩ := (s.tree.isChild_iff n c).mp hc
  obtain rfl : _ = k' := Option.some.inj (hk.symm.trans hk')
  have hmem' : c ∈ es ∨ c = source := by
    simpa [NodeKind.children, NodeKind.fields, Child.ids] using hmem
  rcases hmem' with he | rfl
  · obtain ⟨l, i?, hi, hl, hother⟩ := hspec c he
    obtain ⟨ke, hke, -, hlocal, himported, hchildren, hocc⟩ := hi.kind
    have hcK : c ∈ K := h.sound.forest.closed_child h.mem hc
    rw [hi.silent.mem_facts_iff] at hf
    obtain ⟨m, hm, hf⟩ := hf
    obtain ⟨ke', hke', hmemm⟩ := (s.tree.isChild_iff c m).mp hm
    obtain rfl : ke = ke' := Option.some.inj (hke.symm.trans hke')
    rw [hchildren, List.mem_cons] at hmemm
    rcases hmemm with rfl | hmi
    · have hs := (h.means hG).silent_identifier (.slot c .localName) hcK rfl rfl hi.occupant hke
        hlocal hl
      obtain ⟨x, declared, hkl⟩ := hl
      exact hs.facts_of_leaf hkl rfl f hf
    · have hmi' : i? = some m := by simpa [eq_comm] using hmi
      rcases hother m hmi' with hident | htext'
      · have hs := (h.means hG).silent_identifier (.slot c .imported) hcK rfl rfl (hocc m hmi') hke
          himported hident
        obtain ⟨x, declared, hkm⟩ := hident
        exact hs.facts_of_leaf hkm rfl f hf
      · have hs := Tree.silent_text htext'
        obtain ⟨v, hkm⟩ := htext'
        exact hs.facts_of_leaf hkm rfl f hf
  · have hs := Tree.silent_text htext
    obtain ⟨v, hks⟩ := htext
    exact hs.facts_of_leaf hks rfl f hf

end Declarations

/-! ## Uses -/

section Uses

variable {s : Session} {K : Set NodeId} {G : Prop} {p : PathId} {n : NodeId} {k : NodeKind}
  {i : ScopeId}

/-- The uses that a walk collects at a node, without anything else happening. -/
private theorem Session.At.collects (h : s.At K G p n i) {F : Set Fact} {u : Uses}
    (hread : ∀ e ∈ u.reads, e = (i, p)) (hwrite : ∀ e ∈ u.writes, e.1 = i ∧ e.2.1 = p)
    (hF : G → ∀ f ∈ F, ∃ b, s.tree.InScope n b ∧ (f = .reads n b ∨ f = .assigns n b))
    (hreads : G → ∀ b, s.tree.InScope n b → (.reads n b ∈ F ↔ (i, p) ∈ u.reads))
    (hassigned : G → ∀ b, s.tree.InScope n b → ∀ e ∈ u.writes,
      .assigns n b ∈ F ∧ ∀ x, x ∈ e.2.2 ↔ s.tree.Assigns n x)
    (hassigns : G → ∀ x, s.tree.Assigns n x → ∀ b, .assigns n b ∈ F →
      ∃ names, (i, p, names) ∈ u.writes ∧ x ∈ names) :
    s.Walked K G F u s := by
  refine ⟨.refl h.sound h.ordered, ⟨?_, ?_⟩, ⟨id, rfl⟩, fun hG hf hp _ => ?_⟩
  · rintro i' q hq
    cases hread _ hq
    exact ⟨h.scope, n, h.holds⟩
  · rintro i' q names hw
    obtain ⟨rfl, -⟩ := hwrite _ hw
    exact h.scope
  obtain ⟨b, hb, hin⟩ := h.inScope hG
  have hscope : ∀ b', s.tree.InScope n b' → b = b' := fun b' hb' =>
    (h.means hG).program.inScope_unique hin hb'
  refine ⟨hf, hp, fun b' j hj => .inl ⟨j, hj⟩, ?_, fun b' x hx => .inl hx, ?_, ?_, ?_, ?_, ?_⟩
  · intro b' hb'
    obtain ⟨_, _, hf | hf⟩ := hF hG _ hb' <;> cases hf
  · intro b' x hx
    obtain ⟨_, _, hf | hf⟩ := hF hG _ hx <;> cases hf
  · intro j q hq
    cases hread _ hq
    exact ⟨n, b, (hreads hG b hin).mpr hq, h.holds, hb⟩
  · intro m b' hm
    obtain ⟨b₁, hb₁, hf | hf⟩ := hF hG _ hm <;> cases hf
    obtain rfl := hscope _ hb₁
    exact ⟨i, p, (hreads hG _ hin).mp hm, h.holds, hb⟩
  · intro j q names hw
    obtain ⟨rfl, rfl⟩ := hwrite _ hw
    obtain ⟨hFb, hx⟩ := hassigned hG b hin _ hw
    exact ⟨n, b, hFb, h.holds, hb, hx⟩
  · intro m b' x hm hx
    obtain ⟨b₁, hb₁, hf | hf⟩ := hF hG _ hm <;> cases hf
    obtain rfl := hscope _ hb₁
    obtain ⟨names, hw, hxn⟩ := hassigns hG x hx _ hm
    exact ⟨i, p, names, hw, h.holds, hb, hxn⟩

/-- An identifier is collected as a read where it is one. -/
theorem walkIdentifier_walked (h : s.At K G p n i) {x : String} {declared : Option ValueType}
    (hk : s.tree.kind? n = some (.identifier x declared)) :
    Returns (do pure (if ← p.isReferencedIdentifier then { reads := [(i, p)] } else ({} : Uses))) s
      (s.Walked K G (s.tree.facts n)) := by
  obtain ⟨v, hrun, hv⟩ := PathId.isReferencedIdentifier_run h.sound h.holds hk
  refine returns_bind_of_ok hrun (.pure ?_)
  have howns : ∀ f, f ∈ s.tree.facts n ↔
      ∃ b, f = .reads n b ∧ (∃ y, s.tree.Reads n y) ∧ s.tree.InScope n b := by
    intro f
    rw [Tree.mem_facts_iff]
    have hleaf := Tree.factsBelow_of_leaf hk rfl f
    simp only [hleaf, or_false]
    constructor
    · intro hf
      rcases f with b | ⟨b, y⟩ | ⟨m, b⟩ | ⟨m, b⟩
      · exact absurd hf.2 (Tree.not_opens_of_not_scopable hk rfl)
      · exact absurd hf (Tree.not_introduces hk rfl (by simp [NodeKind.type])
          (by simp [NodeKind.type]) (by simp [NodeKind.type]) b y)
      · obtain ⟨rfl, hread, hb⟩ := hf
        exact ⟨b, rfl, hread, hb⟩
      · obtain ⟨-, ⟨k', hk', ht⟩, -⟩ := hf
        obtain rfl : _ = k' := Option.some.inj (hk.symm.trans hk')
        simp [NodeKind.type] at ht
    · rintro ⟨b, rfl, hread, hb⟩
      exact ⟨rfl, hread, hb⟩
  cases v with
  | false =>
    refine (Walked.refl h.sound h.ordered).congr fun hG f => ?_
    have hno : ¬ ∃ y, s.tree.Reads n y := fun hy => by simpa using (hv (h.means hG)).mpr hy
    rw [howns]
    simp [hno]
  | true =>
    have hyes : G → ∃ y, s.tree.Reads n y := fun hG => (hv (h.means hG)).mp rfl
    refine h.collects (by simp) (by simp) ?_ ?_ (by simp) ?_
    · intro hG f hf
      obtain ⟨b, rfl, -, hb⟩ := (howns f).mp hf
      exact ⟨b, hb, .inl rfl⟩
    · intro hG b hb
      rw [howns]
      simp only [if_true, List.mem_singleton, iff_true]
      exact ⟨b, rfl, hyes hG, hb⟩
    · intro hG y hy
      cases hy with
      | assignment hk' => rw [hk] at hk'; cases hk'
      | update hk' => rw [hk] at hk'; cases hk'

/-- The facts of an assignment or an update. -/
theorem Tree.mem_facts_assignment {t : Tree} (hk : t.kind? n = some k)
    (ht : k.type = .assignmentExpression ∨ k.type = .updateExpression) (f : Fact) :
    f ∈ t.facts n ↔ (∃ b, f = .assigns n b ∧ t.InScope n b) ∨ f ∈ t.factsBelow n := by
  have hno : k.type.isScopable = false ∧ k.type.isFunction = false ∧ k.type ≠ .catchClause ∧
      k.type ≠ .variableDeclaration ∧ k.type ≠ .importDeclaration ∧ k.identifierName? = none := by
    cases k <;> simp_all [NodeKind.type, NodeType.isScopable, NodeType.isFunction, NodeType.isFor,
      NodeKind.identifierName?]
  obtain ⟨hscopable, hfun, hcatch, hvar, himport, hid⟩ := hno
  rw [Tree.mem_facts_iff]
  refine or_congr_left ⟨fun hf => ?_, ?_⟩
  · rcases f with b | ⟨b, y⟩ | ⟨m, b⟩ | ⟨m, b⟩
    · exact absurd hf.2 (Tree.not_opens_of_not_scopable hk hscopable)
    · exact absurd hf (Tree.not_introduces hk hfun hcatch hvar himport b y)
    · obtain ⟨-, ⟨x, hx⟩, -⟩ := hf
      exact absurd hx (Tree.not_reads_of_not_identifier hk hid x)
    · obtain ⟨rfl, -, hb⟩ := hf
      exact ⟨b, rfl, hb⟩
  · rintro ⟨b, rfl, hb⟩
    exact ⟨rfl, ⟨k, hk, ht⟩, hb⟩

/-- An assignment is collected with the names it writes to. -/
theorem Session.At.assignment_walked (h : s.At K G p n i) (hk : s.tree.kind? n = some k)
    (ht : k.type = .assignmentExpression ∨ k.type = .updateExpression)
    {writes : List (ScopeId × PathId × List String)}
    (hwrite : ∀ e ∈ writes, e.1 = i ∧ e.2.1 = p ∧ (G → ∀ x, x ∈ e.2.2 ↔ s.tree.Assigns n x))
    (hall : G → ∀ x, s.tree.Assigns n x → ∃ names, (i, p, names) ∈ writes ∧ x ∈ names)
    {below : Uses} {s₁ : Session} (hbelow : s.Walked K G (s.tree.factsBelow n) below s₁) :
    s.Walked K G (s.tree.facts n) ({ writes } ++ below) s₁ := by
  have hhere : s.Walked K G {f | ∃ b, f = .assigns n b ∧ s.tree.InScope n b} { writes } s := by
    refine h.collects (by simp) (fun e he => ⟨(hwrite e he).1, (hwrite e he).2.1⟩) ?_ ?_ ?_ ?_
    · rintro - f ⟨b, rfl, hb⟩
      exact ⟨b, hb, .inr rfl⟩
    · simp
    · intro hG b hb e he
      exact ⟨⟨b, rfl, hb⟩, (hwrite e he).2.2 hG⟩
    · intro hG x hx b _
      exact hall hG x hx
  refine (hhere.trans hbelow (by simp)).congr fun _ f => ?_
  rw [Tree.mem_facts_assignment hk ht]
  rfl

end Uses

/-! ## Subtrees -/

section Subtree

variable {s : Session} {K : Set NodeId} {G : Prop} {p : PathId} {n : NodeId} {k : NodeKind}
  {i : ScopeId} {d : Nat} {walk : PathId → ScopeId → SessionM Uses}

/-- The name that a function declaration has outside of itself. -/
def Tree.factsOutside (t : Tree) (n : NodeId) : Set Fact :=
  {f | t.type? n = some .functionDeclaration ∧ ∃ m x declared b c,
    t.occupant? (.slot n .id) = some m ∧ t.kind? m = some (.identifier x declared) ∧
      t.InScope n b ∧ t.HoistsTo b c ∧ f = .declares c x}

/-- The facts of a block that opens a scope. -/
theorem Tree.mem_facts_block {t : Tree} (ho : t.Opens n) (f : Fact) :
    f ∈ t.facts n ↔ (f ∈ t.factsOutside n ∨ f = .opens n) ∨ f ∈ t.factsInside n := by
  obtain ⟨k, hk, hscopable, -⟩ := id ho
  have hno : k.type ≠ .variableDeclaration ∧ k.type ≠ .importDeclaration ∧
      k.identifierName? = none ∧ k.type ≠ .assignmentExpression ∧
        k.type ≠ .updateExpression := by
    cases k <;> simp_all [NodeKind.type, NodeType.isScopable, NodeType.isFunction, NodeType.isFor,
      NodeKind.identifierName?]
  obtain ⟨hvar, himport, hid, hassign, hupdate⟩ := hno
  rw [Tree.mem_facts_iff]
  constructor
  · rintro (hf | hf)
    · rcases f with b | ⟨b, y⟩ | ⟨m, b⟩ | ⟨m, b⟩
      · obtain ⟨rfl, -⟩ := hf
        exact .inl (.inr rfl)
      · cases hf with
        | inside h => exact .inr (.inl ⟨y, rfl, h⟩)
        | function hk' hki hb hc =>
          refine .inl (.inl ⟨Tree.type?_of_kind hk', _, y, _, _, b, ?_, hki, hb, hc, rfl⟩)
          simp [Tree.occupant?, Tree.field?, hk', NodeKind.child?, NodeKind.fields, Child.node?]
        | lexical hk' | hoisted hk' =>
          obtain rfl : k = _ := Option.some.inj (hk.symm.trans hk')
          exact absurd rfl hvar
        | imported hk' =>
          obtain rfl : k = _ := Option.some.inj (hk.symm.trans hk')
          exact absurd rfl himport
      · obtain ⟨-, ⟨x, hx⟩, -⟩ := hf
        exact absurd hx (Tree.not_reads_of_not_identifier hk hid x)
      · obtain ⟨-, ⟨k', hk', ht⟩, -⟩ := hf
        obtain rfl : k = k' := Option.some.inj (hk.symm.trans hk')
        exact (ht.elim hassign hupdate).elim
    · exact .inr (.inr hf)
  · rintro ((⟨ht, m, x, declared, b, c, hm, hkm, hb, hc, rfl⟩ | rfl) | ⟨x, rfl, hx⟩ | hf)
    · rw [Tree.type?_of_kind hk, Option.some.injEq] at ht
      cases k with
      | functionDeclaration id? =>
        cases id? with
        | none => simp [Tree.occupant?, Tree.field?, hk, NodeKind.child?, NodeKind.fields,
            Child.node?] at hm
        | some m' =>
          obtain rfl : m' = m := by
            simpa [Tree.occupant?, Tree.field?, hk, NodeKind.child?, NodeKind.fields,
              Child.node?] using hm
          exact .inl (.function hk hkm hb hc)
      | _ => cases ht
    · exact .inl ⟨rfl, ho⟩
    · exact .inl (.inside hx)
    · exact .inr hf

/-- No block opens a scope inside of itself again. -/
theorem Tree.opens_not_mem_factsInside {t : Tree} (h : t.Forest K) (hn : n ∈ K) :
    .opens n ∉ t.factsInside n := by
  rintro (⟨x, hx, -⟩ | ⟨c, hc, hf⟩)
  · cases hx
  · exact h.acyclic n hn (.head' hc (Tree.opens_mem_facts hf))

/-- Declaring the name of a function declaration where it belongs. -/
theorem registerOutside_walked (h : s.At K G p n i)
    (ht : s.tree.type? n = some .functionDeclaration) :
    Returns (do registerFunctionName p .hoisted (← i.functionScope)) s fun _ s' =>
      s.Walked K G (s.tree.factsOutside n) {} s' := by
  obtain ⟨j, hrun, -, hj, hmean⟩ := variableScope_run h .var
  refine returns_bind_of_ok (hrun rfl) ?_
  refine (registerFunctionName_walked (G := G ∧ s.Faithful) (F := s.tree.factsOutside n) h.sound
    h.ordered hj h.holds .hoisted fun hG => ?_).mono fun _ s₁ hw => hw.of_faithful
  obtain ⟨b, c, hb, hc, -, hhoist⟩ := hmean hG
  obtain ⟨k, hk⟩ := h.sound.forest.kind n h.mem
  have htk : k.type = .functionDeclaration := by
    rw [Tree.type?_of_kind hk] at ht
    exact Option.some.inj ht
  refine ⟨c, hc, ⟨n, k, h.holds, hk, by simp [htk]⟩, fun f => ?_⟩
  constructor
  · rintro ⟨-, m, x, declared, b', c', hm, hkm, hb', hc', rfl⟩
    obtain rfl := (h.means hG.1).program.inScope_unique hb hb'
    rw [(h.means hG.1).program.hoistsTo_unique hc' (hhoist rfl)]
    exact ⟨m, x, declared, hm, hkm, rfl⟩
  · rintro ⟨m, x, declared, hm, hkm, rfl⟩
    exact ⟨ht, m, x, declared, b, c, hm, hkm, hb, hhoist rfl, rfl⟩

/-- Walking a block that gets a scope of its own. -/
theorem walkScope_walked (hwalk : WalksTo K G walk d) (h : s.At K G p n i)
    (hk : s.tree.kind? n = some k) (hd : ∀ e ∈ k.children, s.tree.DepthWithin d e)
    (hopens : G → s.tree.Opens n) :
    Returns (do
      if k.type = .functionDeclaration then
        registerFunctionName p .hoisted (← i.functionScope)
      let inner ← createScope p (some i)
      walkBlock walk p inner) s (s.Walked K G (s.tree.facts n)) := by
  -- What follows the name of a function declaration.
  have htail : ∀ s₁, s.Walked K G (s.tree.factsOutside n) {} s₁ → Returns (do
      let inner ← createScope p (some i)
      walkBlock walk p inner) s₁ (s.Walked K G (s.tree.facts n)) := by
    intro s₁ h₁
    have hat := h.later h₁.toSurveys
    have hcreate := createScope_walked (G := G) hat.sound hat.ordered hat.holds (some i)
      (fun j hj => Option.some.inj hj ▸ hat.scope)
      (fun hG j hj => Option.some.inj hj ▸ hat.inScope hG) (by simp)
    refine hcreate.bind fun inner s₂ h₂ => ?_
    obtain ⟨hw₂, hinner⟩ := h₂
    have hsur₂ := h₁.toSurveys.trans hw₂.toSurveys
    have hinside : s₂.Inside K G p n inner :=
      { sound := hsur₂.sound
        ordered := hsur₂.ordered
        scope := hinner.hasScope
        holds := hsur₂.grew.holds h.sound h.holds
        means := fun hG => by rw [hsur₂.tree]; exact h.means hG
        scopeOf := fun hG => ⟨hinner, by rw [hsur₂.tree]; exact hopens hG⟩ }
    refine (walkBlock_walked hwalk hinside (by rw [hsur₂.tree]; exact hk)
      (by rw [hsur₂.tree]; exact hd)).mono fun u s₃ h₃ => ?_
    rw [hsur₂.tree] at h₃
    have hname : ∀ b, .opens b ∉ s.tree.factsOutside n := by
      rintro b ⟨-, m, x, declared, b', c, -, -, -, -, hf⟩
      cases hf
    have hall := (h₁.trans hw₂ fun _ b hb => absurd hb (hname b)).trans h₃ fun _ b hb => by
      rcases hb with hb | hb
      · exact absurd hb (hname b)
      · cases hb
        exact Tree.opens_not_mem_factsInside h.sound.forest h.mem
    rw [Uses.empty_append, Uses.empty_append] at hall
    refine hall.congr fun hG f => ?_
    rw [Tree.mem_facts_block (hopens hG)]
    rfl
  by_cases ht : k.type = .functionDeclaration
  · rw [if_pos ht]
    have htype : s.tree.type? n = some .functionDeclaration := by rw [Tree.type?_of_kind hk, ht]
    rw [← bind_assoc]
    exact (registerOutside_walked h htype).bind fun _ s₁ h₁ => htail s₁ h₁
  · rw [if_neg ht]
    refine htail s ((Walked.refl h.sound h.ordered).congr fun _ f => ⟨fun hf => (by cases hf), ?_⟩)
    rintro ⟨htype, -⟩
    rw [Tree.type?_of_kind hk, Option.some.injEq] at htype
    exact absurd htype ht

/-- What is below a node that opens no scope is in the scope of the node. -/
theorem Session.At.above (h : s.At K G p n i) (hopens : G → ¬ s.tree.Opens n) :
    s.Above K G p n i where
  sound := h.sound
  ordered := h.ordered
  scope := h.scope
  holds := h.holds
  means := h.means
  inScope hG := by
    obtain ⟨b, hb, hin⟩ := h.inScope hG
    exact ⟨b, hb, fun c hc => .up (h.reachable hG) hc (hopens hG) hin⟩

/-- Walking a variable declaration. -/
theorem walkVariables_walked (hwalk : WalksTo K G walk d) (h : s.At K G p n i)
    {v : VariableKind} {ds : List NodeId}
    (hk : s.tree.kind? n = some (.variableDeclaration v ds))
    (hd : ∀ e ∈ ds, s.tree.DepthWithin d e) :
    Returns (registerDeclarators p v i fun declarator => walkChildren walk declarator i) s
      (s.Walked K G (s.tree.facts n)) := by
  have hopens : ¬ s.tree.Opens n := Tree.not_opens_of_not_scopable hk rfl
  have hbelow : ∀ c f, f ∈ s.tree.factsBelow c → f ∈ s.tree.facts c := fun c f hf =>
    (Tree.mem_facts_iff f).mpr (.inr hf)
  -- The declarators themselves give rise to no facts.
  have hsilent : G → ∀ e ∈ ds, s.tree.Silent e := by
    intro hG e he
    obtain ⟨target, init, hke, -⟩ := (h.means hG).grammatical.declarator n v ds (h.reachable hG)
      hk e he
    exact Tree.silent_of_kind hke (Tree.not_opens_of_not_scopable hke rfl) rfl
      (by simp [NodeKind.type]) (by simp [NodeKind.type]) (by simp [NodeKind.type])
      (Tree.not_reads_of_not_identifier hke rfl) (by simp [NodeKind.type]) (by simp [NodeKind.type])
  refine (registerDeclarators_walked h hk _ s.tree.factsBelow (fun e b => hbelow e _)
    ?_).mono fun u s₁ hu => hu.congr fun hG f => ?_
  · intro q e pos s₁ he hs₁ hl hpos hocc
    obtain ⟨ke, hke⟩ := (hd e he).kind
    have hchild : s.tree.IsChild n e := ⟨pos, hpos, hocc⟩
    have hat := (h.above fun _ => hopens).later hs₁ |>.enter hl hpos (by rw [hs₁.tree]; exact hocc)
    rw [← hs₁.tree] at hke
    refine (walkChildren_walked hwalk (hat.above fun hG => ?_) hke fun c hc => ?_).mono
      fun u s₂ hu => ?_
    · rw [hs₁.tree]
      exact fun ho => hsilent hG e he (.opens e) ⟨rfl, ho⟩
    · rw [hs₁.tree] at hke ⊢
      exact (hd e he).child hke hc
    · rw [hs₁.tree] at hu
      exact hu
  · rw [Tree.mem_facts_iff]
    simp only [Set.mem_ofPred_eq]
    have hchildren : f ∈ s.tree.factsBelow n ↔ ∃ e ∈ ds, f ∈ s.tree.factsBelow e := by
      have hfield : s.tree.field? n .declarations = some (.many ds) := by
        simp [Tree.field?, hk, NodeKind.child?, NodeKind.fields]
      rw [Tree.mem_factsBelow_iff hk]
      simp only [NodeKind.type, NodeType.visitorFields, List.mem_singleton, exists_eq_left,
        Tree.mem_factsIn_list hfield]
      exact exists_congr fun e => and_congr_right fun he => (hsilent hG e he).mem_facts_iff f
    rw [hchildren]
    refine or_congr_left ⟨?_, fun hf => ?_⟩
    · rintro ⟨c, x, rfl, hx⟩
      exact hx
    · rcases f with b | ⟨b, y⟩ | ⟨m, b⟩ | ⟨m, b⟩
      · exact absurd hf.2 hopens
      · exact ⟨b, y, rfl, hf⟩
      · obtain ⟨-, ⟨x, hx⟩, -⟩ := hf
        exact absurd hx (Tree.not_reads_of_not_identifier hk rfl x)
      · obtain ⟨-, ⟨k', hk', ht⟩, -⟩ := hf
        obtain rfl : _ = k' := Option.some.inj (hk.symm.trans hk')
        simp [NodeKind.type] at ht

/-- Walking an import. -/
theorem walkImport_walked (h : s.At K G p n i) {es : List NodeId} {source : NodeId}
    (hk : s.tree.kind? n = some (.importDeclaration es source)) :
    Returns (do registerImports p i; pure ({} : Uses)) s (s.Walked K G (s.tree.facts n)) := by
  refine (registerImports_walked h hk).bind fun _ s₁ h₁ => .pure (h₁.congr fun hG f => ?_)
  have hbelow := h.factsBelow_import hG hk f
  rw [Tree.mem_facts_iff]
  simp only [Set.mem_ofPred_eq, hbelow, or_false]
  constructor
  · rintro ⟨c, x, rfl, hx⟩
    exact hx
  · intro hf
    rcases f with b | ⟨b, y⟩ | ⟨m, b⟩ | ⟨m, b⟩
    · exact absurd hf.2 (Tree.not_opens_of_not_scopable hk rfl)
    · exact ⟨b, y, rfl, hf⟩
    · obtain ⟨-, ⟨x, hx⟩, -⟩ := hf
      exact absurd hx (Tree.not_reads_of_not_identifier hk rfl x)
    · obtain ⟨-, ⟨k', hk', ht⟩, -⟩ := hf
      obtain rfl : _ = k' := Option.some.inj (hk.symm.trans hk')
      simp [NodeKind.type] at ht

/-- Walking an assignment. -/
theorem walkAssignment_walked (hwalk : WalksTo K G walk d) (h : s.At K G p n i)
    {op : AssignmentOperator} {left right : NodeId}
    (hk : s.tree.kind? n = some (.assignmentExpression op left right))
    (hd : ∀ e ∈ (NodeKind.assignmentExpression op left right).children, s.tree.DepthWithin d e) :
    Returns (do
      let names ← askBelow [left] fun t => t.bindingIdentifiers? left false false
      let below ← walkChildren walk p i
      pure ({ writes := [(i, p, names.keys)] } ++ below)) s (s.Walked K G (s.tree.facts n)) := by
  have hopens : ¬ s.tree.Opens n := Tree.not_opens_of_not_scopable hk rfl
  have hleft : left ∈ K := by
    refine h.sound.forest.closed_child h.mem ((s.tree.isChild_iff n left).mpr ⟨_, hk, ?_⟩)
    simp [NodeKind.children, NodeKind.fields, Child.ids]
  obtain ⟨found, hfound, hkeys⟩ :=
    Tree.bindingIdentifiers?_eq_some false (h.sound.forest.depthWithin hleft)
  have hnames : G → ∀ x, x ∈ found.keys ↔ s.tree.Assigns n x := by
    intro hG x
    rw [hkeys, ((h.means hG).grammatical.assigned n op left right (h.reachable hG) hk).named_iff]
    constructor
    · exact .assignment hk
    · intro hx
      cases hx with
      | assignment hk' hx =>
        rw [hk] at hk'
        cases hk'
        exact hx
      | update hk' => rw [hk] at hk'; cases hk'
  refine returns_bind_of_ok (askBelow_run hfound) ?_
  refine (walkChildren_walked hwalk (h.above fun _ => hopens) hk hd).bind fun below s₁ h₁ =>
    .pure (h.assignment_walked hk (.inl rfl) ?_ ?_ h₁)
  · intro e he
    obtain rfl := List.mem_singleton.mp he
    exact ⟨rfl, rfl, hnames⟩
  · intro hG x hx
    exact ⟨found.keys, by simp, (hnames hG x).mpr hx⟩

/-- Walking an update. -/
theorem walkUpdate_walked (hwalk : WalksTo K G walk d) (h : s.At K G p n i)
    {op : UpdateOperator} {argument : NodeId} {before : Bool}
    (hk : s.tree.kind? n = some (.updateExpression op argument before))
    (hd : ∀ e ∈ (NodeKind.updateExpression op argument before).children,
      s.tree.DepthWithin d e) :
    Returns (do
      let target ← ask fun t => t.kind? argument
      let below ← walkChildren walk p i
      let writes := target.identifierName?.toList.map fun name => (i, p, [name])
      pure ({ writes } ++ below)) s (s.Walked K G (s.tree.facts n)) := by
  have hopens : ¬ s.tree.Opens n := Tree.not_opens_of_not_scopable hk rfl
  have hmem : argument ∈ (NodeKind.updateExpression op argument before).children := by
    simp [NodeKind.children, NodeKind.fields, Child.ids]
  obtain ⟨target, htarget⟩ := (hd argument hmem).kind
  have hassigns : ∀ x, s.tree.Assigns n x ↔ target.identifierName? = some x := by
    intro x
    rw [target.identifierName?_eq_some_iff]
    constructor
    · intro hx
      cases hx with
      | assignment hk' => rw [hk] at hk'; cases hk'
      | update hk' hka =>
        rw [hk] at hk'
        cases hk'
        exact ⟨_, Option.some.inj (htarget.symm.trans hka)⟩
    · rintro ⟨declared, rfl⟩
      exact .update hk htarget
  refine returns_bind_of_ok (ask_run htarget) ?_
  refine (walkChildren_walked hwalk (h.above fun _ => hopens) hk hd).bind fun below s₁ h₁ =>
    .pure (h.assignment_walked hk (.inr rfl) ?_ ?_ h₁)
  · intro e he
    obtain ⟨y, hy, rfl⟩ := List.mem_map.mp he
    refine ⟨rfl, rfl, fun _ x => ?_⟩
    have hy' : target.identifierName? = some y := by simpa [eq_comm] using hy
    rw [hassigns, hy', List.mem_singleton, Option.some.injEq, eq_comm]
  · intro _ x hx
    exact ⟨[x], List.mem_map.mpr ⟨x, by simp [(hassigns x).mp hx], rfl⟩, by simp⟩

/-- Walking a subtree notes the facts of the subtree. -/
theorem walkWithin_walked (K : Set NodeId) (G : Prop) (d : Nat) :
    WalksTo K G (walkWithin d) d := by
  induction d with
  | zero => exact fun s p n i _ hd => hd.elim
  | succ d ih =>
    intro s p n i h hdepth
    obtain ⟨k, hk, hd⟩ := hdepth
    obtain ⟨pos, hw, hl, hocc⟩ := h.position
    obtain ⟨v, hrun, hblock, hv⟩ := PathId.isScopeBlock_run h.sound hw hl hocc hk
    have hreach : G → pos.Within s.tree.reachable := fun hG => by
      rw [← (h.means hG).all]
      exact hw
    unfold walkWithin
    refine returns_bind_of_ok (PathId.kind?_run_of_holds h.holds hk) ?_
    refine returns_bind_of_ok hrun ?_
    cases v with
    | true =>
      rw [if_pos rfl]
      exact walkScope_walked ih h hk hd fun hG => (hv (hreach hG)).mp rfl
    | false =>
      rw [if_neg (by simp)]
      have hopens : G → ¬ s.tree.Opens n := fun hG ho => by simpa using (hv (hreach hG)).mpr ho
      have hother : k.type ≠ .variableDeclaration → k.type ≠ .importDeclaration →
          k.type ≠ .assignmentExpression → k.type ≠ .updateExpression →
          k.identifierName? = none → Returns (walkChildren (walkWithin d) p i) s
            (s.Walked K G (s.tree.facts n)) := by
        intro hvar himport hassign hupdate hid
        have hscopable : k.type.isScopable = true → k.type = .blockStatement := fun hs =>
          by_contra fun hne => absurd (hblock hs hne) (by simp)
        have hfun : k.type.isFunction = false := by
          by_contra hf
          have hf : k.type.isFunction = true := by simpa using hf
          rw [hscopable (by simp [NodeType.isScopable, hf])] at hf
          cases hf
        have hcatch : k.type ≠ .catchClause := by
          intro hc
          have hb := hscopable (by rw [hc]; rfl)
          rw [hc] at hb
          cases hb
        refine (walkChildren_walked ih (h.above hopens) hk hd).mono fun u s₁ h₁ =>
          h₁.congr fun hG f => ?_
        exact ((Tree.silent_of_kind hk (hopens hG) hfun hcatch hvar himport
          (Tree.not_reads_of_not_identifier hk hid) hassign hupdate).mem_facts_iff f).symm
      cases k with
      | variableDeclaration =>
        refine walkVariables_walked ih h hk fun e he => hd e ?_
        simpa [NodeKind.children, NodeKind.fields, Child.ids] using he
      | importDeclaration => exact walkImport_walked h hk
      | assignmentExpression => exact walkAssignment_walked ih h hk hd
      | updateExpression => exact walkUpdate_walked ih h hk hd
      | identifier => exact walkIdentifier_walked h hk
      | _ =>
        exact hother (by simp [NodeKind.type]) (by simp [NodeKind.type]) (by simp [NodeKind.type])
          (by simp [NodeKind.type]) rfl

end Subtree

end Espalier
