import Espalier.Proofs.Crawl

set_option autoImplicit false

/-! # Blocks and subtrees

The inside of a scope block is walked in the scope of the block: its parameters, and its body,
which opens no scope of its own. A subtree is walked in the scope around it, with a scope for each
block in it. -/

namespace Espalier

open SessionM Session

/-! ## Nodes without facts -/

namespace Tree

variable {t : Tree} {K : Set NodeId} {n : NodeId} {k : NodeKind}

theorem IsTarget.plain (h : t.IsTarget n) : ∃ k, t.kind? n = some k ∧
    k.type ≠ .assignmentExpression ∧ k.type ≠ .updateExpression ∧ k.type ≠ .forInStatement ∧
      k.type ≠ .forOfStatement := by
  cases h <;> exact ⟨_, by assumption, by simp [NodeKind.type]⟩

theorem not_bindsInside (hk : t.kind? n = some k) (hf : k.type.isFunction = false)
    (hc : k.type ≠ .catchClause) (x : String) : ¬ t.BindsInside n x := by
  intro h
  cases h with
  | param h hfun _ _ _ =>
    rw [hk, Option.some.injEq] at h
    rw [← h, hf] at hfun
    cases hfun
  | caught h _ =>
    rw [hk, Option.some.injEq] at h
    exact hc (by rw [h]; rfl)
  | ownName h _ =>
    rw [hk, Option.some.injEq] at h
    rw [h] at hf
    cases hf

theorem not_introduces (hk : t.kind? n = some k) (hf : k.type.isFunction = false)
    (hc : k.type ≠ .catchClause) (hv : k.type ≠ .variableDeclaration)
    (hi : k.type ≠ .importDeclaration) (b : NodeId) (x : String) : ¬ t.Introduces n b x := by
  intro h
  cases h with
  | inside h => exact not_bindsInside hk hf hc x h
  | function h _ _ _ =>
    rw [hk, Option.some.injEq] at h
    rw [h] at hf
    cases hf
  | lexical h _ _ _ _ _ =>
    rw [hk, Option.some.injEq] at h
    exact hv (by rw [h]; rfl)
  | hoisted h _ _ _ _ _ =>
    rw [hk, Option.some.injEq] at h
    exact hv (by rw [h]; rfl)
  | imported h _ _ _ _ =>
    rw [hk, Option.some.injEq] at h
    exact hi (by rw [h]; rfl)

/-- A node gives rise to no facts when it opens no scope, declares nothing, and is neither read nor
an assignment. -/
theorem silent_of_kind (hk : t.kind? n = some k) (ho : ¬ t.Opens n)
    (hf : k.type.isFunction = false) (hc : k.type ≠ .catchClause)
    (hv : k.type ≠ .variableDeclaration) (hi : k.type ≠ .importDeclaration)
    (hr : ∀ x, ¬ t.Reads n x) (ha : k.type ≠ .assignmentExpression)
    (hu : k.type ≠ .updateExpression) : t.Silent n := by
  rintro (b | ⟨b, x⟩ | ⟨m, b⟩ | ⟨m, b⟩) h
  · exact ho h.2
  · exact not_introduces hk hf hc hv hi b x h
  · obtain ⟨-, ⟨x, hx⟩, -⟩ := h
    exact hr x hx
  · obtain ⟨-, ⟨k', hk', h'⟩, -⟩ := h
    obtain rfl : k = k' := Option.some.inj (hk.symm.trans hk')
    exact h'.elim ha hu

theorem not_opens_of_not_scopable (hk : t.kind? n = some k) (h : k.type.isScopable = false) :
    ¬ t.Opens n := by
  rintro ⟨k', hk', hs, -⟩
  obtain rfl : k = k' := Option.some.inj (hk.symm.trans hk')
  rw [h] at hs
  cases hs

theorem not_reads_of_not_identifier (hk : t.kind? n = some k) (h : k.identifierName? = none)
    (x : String) : ¬ t.Reads n x := by
  rintro ⟨⟨declared, hk'⟩, -⟩
  obtain rfl : k = _ := Option.some.inj (hk.symm.trans hk')
  simp [NodeKind.identifierName?] at h

/-- An identifier is not read where its position is none that is read. -/
theorem Meant.not_reads_of_position (hm : t.Meant K) (pos : Position) {p : NodeId} {kp : NodeKind}
    {f : Field} (hp : p ∈ K) (hpos : pos.parent? = some p) (hf : pos.field? = some f)
    (hocc : t.occupant? pos = some n) (hkp : t.kind? p = some kp) (hr : kp.readsField f = false)
    (x : String) : ¬ t.Reads n x := by
  rintro ⟨-, pos', p', k', f', hpos', hf', hocc', hreach, hk', hr'⟩
  have hreach' : t.Reachable p := by
    rw [hm.all] at hp
    exact hp
  have heq : pos = pos' := by
    refine hm.program.single pos pos' n (fun r hr => ?_) (fun r hr => ?_) hocc hocc'
    · rw [← Option.some.inj (hpos.symm.trans hr)]
      exact hreach'
    · rw [← Option.some.inj (hpos'.symm.trans hr)]
      exact hreach
  subst heq
  obtain rfl := Option.some.inj (hpos.symm.trans hpos')
  obtain rfl := Option.some.inj (hf.symm.trans hf')
  obtain rfl : kp = k' := Option.some.inj (hkp.symm.trans hk')
  rw [hr] at hr'
  cases hr'

/-- An identifier that is not read gives rise to no facts. -/
theorem Meant.silent_identifier (hm : t.Meant K) (pos : Position) {p : NodeId} {kp : NodeKind}
    {f : Field} (hp : p ∈ K) (hpos : pos.parent? = some p) (hf : pos.field? = some f)
    (hocc : t.occupant? pos = some n) (hkp : t.kind? p = some kp) (hr : kp.readsField f = false)
    (hn : t.IsIdentifier n) : t.Silent n := by
  obtain ⟨x, declared, hk⟩ := hn
  exact silent_of_kind hk (not_opens_of_not_scopable hk rfl) rfl (by simp [NodeKind.type])
    (by simp [NodeKind.type]) (by simp [NodeKind.type])
    (hm.not_reads_of_position pos hp hpos hf hocc hkp hr) (by simp [NodeKind.type])
    (by simp [NodeKind.type])

theorem silent_text (hn : t.IsText n) : t.Silent n := by
  obtain ⟨v, hk⟩ := hn
  exact silent_of_kind hk (not_opens_of_not_scopable hk rfl) rfl (by simp [NodeKind.type])
    (by simp [NodeKind.type]) (by simp [NodeKind.type]) (not_reads_of_not_identifier hk rfl)
    (by simp [NodeKind.type]) (by simp [NodeKind.type])

/-- Nothing is below a leaf. -/
theorem factsBelow_of_leaf (hk : t.kind? n = some k) (h : k.children = []) (f : Fact) :
    f ∉ t.factsBelow n := by
  rintro ⟨c, hc, -⟩
  obtain ⟨k', hk', hmem⟩ := (t.isChild_iff n c).mp hc
  obtain rfl : k = k' := Option.some.inj (hk.symm.trans hk')
  rw [h] at hmem
  cases hmem

theorem Silent.facts_of_leaf (hs : t.Silent n) (hk : t.kind? n = some k) (h : k.children = [])
    (f : Fact) : f ∉ t.facts n := by
  rw [hs.mem_facts_iff]
  exact factsBelow_of_leaf hk h f

/-- The body of a function or a catch clause that is a block opens no scope. -/
theorem not_opens_body {p : NodeId} {kp : NodeKind} (hp : t.Reachable p) (hc : t.IsChild p n)
    (hkp : t.kind? p = some kp) (hshares : kp.type.isFunction = true ∨ kp.type = .catchClause)
    (hk : t.kind? n = some k) (hb : k.type = .blockStatement) : ¬ t.Opens n := by
  rintro ⟨k', hk', -, hno⟩
  obtain rfl : k = k' := Option.some.inj (hk.symm.trans hk')
  obtain ⟨hfun, hcatch⟩ := hno hb p kp hp hc hkp
  rcases hshares with h | h
  · rw [hfun] at h
    cases h
  · exact hcatch h

theorem silent_body {p : NodeId} {kp : NodeKind} (hp : t.Reachable p) (hc : t.IsChild p n)
    (hkp : t.kind? p = some kp) (hshares : kp.type.isFunction = true ∨ kp.type = .catchClause)
    (hk : t.kind? n = some k) (hb : k.type = .blockStatement) : t.Silent n := by
  refine silent_of_kind hk (not_opens_body hp hc hkp hshares hk hb) ?_ ?_ ?_ ?_
    (not_reads_of_not_identifier hk ?_) ?_ ?_ <;> try simp [hb, NodeType.isFunction]
  cases hid : k.identifierName? with
  | none => rfl
  | some x =>
    obtain ⟨declared, rfl⟩ := k.identifierName?_eq_some_iff.mp hid
    cases hb

/-- The facts of a block but for those of the scope it opens and of its name outside. -/
def factsInside (t : Tree) (n : NodeId) : Set Fact :=
  {f | (∃ x, f = .declares n x ∧ t.BindsInside n x) ∨ f ∈ t.factsBelow n}

end Tree

/-! ## The inside of a block -/

/-- A walk is about to enter a block whose scope is at hand. -/
structure Session.Inside (s : Session) (K : Set NodeId) (G : Prop) (p : PathId) (n : NodeId)
    (i : ScopeId) : Prop where
  sound : s.Sound K
  ordered : s.scopes.Ordered
  scope : s.HasScope i
  holds : s.Holds p n
  means : G → s.tree.Meant K
  scopeOf : G → s.ScopeOf i n ∧ s.tree.Opens n

section Block

variable {s : Session} {K : Set NodeId} {G : Prop} {p q : PathId} {n c : NodeId} {k : NodeKind}
  {i : ScopeId} {d : Nat} {walk : PathId → ScopeId → SessionM Uses}

theorem Session.Inside.later {s₁ : Session} (h : s.Inside K G p n i) (hs : s.Surveys K s₁) :
    s₁.Inside K G p n i where
  sound := hs.sound
  ordered := hs.ordered
  scope := h.scope.later hs
  holds := hs.grew.holds h.sound h.holds
  means hG := by rw [hs.tree]; exact h.means hG
  scopeOf hG := ⟨(h.scopeOf hG).1.later h.sound hs, by rw [hs.tree]; exact (h.scopeOf hG).2⟩

theorem Session.Inside.reachable (h : s.Inside K G p n i) (hG : G) : s.tree.Reachable n := by
  have hn := h.sound.mem_of_holds h.holds
  rw [(h.means hG).all] at hn
  exact hn

theorem Session.Inside.above (h : s.Inside K G p n i) : s.Above K G p n i where
  sound := h.sound
  ordered := h.ordered
  scope := h.scope
  holds := h.holds
  means := h.means
  inScope hG := ⟨n, (h.scopeOf hG).1, fun _ hc => .here (h.reachable hG) hc (h.scopeOf hG).2⟩

/-- Declaring a parameter and walking it. -/
theorem walkParam_walked (hwalk : WalksTo K G walk d) (h : s.Inside K G p n i) {pos : Position}
    (hq : s.Linked q pos) (hpos : pos.parent? = some n) (hc : s.tree.occupant? pos = some c)
    (hd : s.tree.DepthWithin d c) (htarget : G → s.tree.IsTarget c) (kind : BindingKind) :
    Returns (do registerPattern q kind i q; walk q i) s (s.Walked K G
      {f | (∃ x, f = .declares n x ∧ s.tree.Binds c x) ∨ f ∈ s.tree.facts c}) := by
  have hqc := hq.holds hc
  obtain ⟨dq, hdq, hdn⟩ := hqc
  have hpattern := registerPattern_walked (G := G)
    (F := {f | ∃ x, f = .declares n x ∧ s.tree.Named c x}) h.sound h.ordered h.scope hdq kind q
    fun hG => by
      obtain ⟨k, hk, hplain⟩ := (htarget hG).plain
      refine ⟨n, (h.scopeOf hG).1, ⟨c, k, ⟨dq, hdq, hdn⟩, hk, hplain⟩, fun f => ?_⟩
      simp only [Set.mem_ofPred_eq, hdn, Option.some.injEq, exists_and_left, exists_eq_left']
  refine hpattern.bind fun _ s₁ h₁ => ?_
  have hat := (h.above.enter hq hpos hc).later h₁.toSurveys
  refine (hwalk s₁ q c i hat (by rw [h₁.tree]; exact hd)).mono fun u s₂ h₂ => ?_
  rw [← Uses.empty_append u]
  refine (h₁.trans h₂ (by simp)).congr fun hG f => ?_
  simp only [Set.mem_union, Set.mem_ofPred_eq, (htarget hG).named_iff, h₁.tree]

/-- Walking the body of a function or a catch clause that is a block. -/
theorem walkBody_walked (hwalk : WalksTo K G walk d) (h : s.Inside K G p n i)
    (hk : s.tree.kind? n = some k)
    (hshares : k.type.isFunction = true ∨ k.type = .catchClause)
    (hq : s.Linked q (.slot n .body)) (hc : s.tree.occupant? (.slot n .body) = some c)
    (hd : s.tree.DepthWithin d c)
    (hblock : G → ∃ kc, s.tree.kind? c = some kc ∧ kc.type = .blockStatement) :
    Returns (walkChildren walk q i) s (s.Walked K G (s.tree.facts c)) := by
  obtain ⟨kc, hkc⟩ := hd.kind
  have hchild : s.tree.IsChild n c := ⟨_, rfl, hc⟩
  have hb : G → kc.type = .blockStatement := by
    intro hG
    obtain ⟨kc', hkc', hb⟩ := hblock hG
    obtain rfl : kc = kc' := Option.some.inj (hkc.symm.trans hkc')
    exact hb
  have habove : s.Above K G q c i :=
    { sound := h.sound
      ordered := h.ordered
      scope := h.scope
      holds := hq.holds hc
      means := h.means
      inScope := fun hG => by
        have hreach := h.reachable hG
        refine ⟨n, (h.scopeOf hG).1, fun e he => ?_⟩
        exact .up (.child hreach hchild) he
          (Tree.not_opens_body hreach hchild hk hshares hkc (hb hG))
          (.here hreach hchild (h.scopeOf hG).2) }
  refine (walkChildren_walked hwalk habove hkc fun e he => hd.child hkc he).mono
    fun u s₁ h₁ => h₁.congr fun hG f => ?_
  exact ((Tree.silent_body (h.reachable hG) hchild hk hshares hkc (hb hG)).mem_facts_iff f).symm

/-- The facts below a node, field by field. -/
theorem Tree.mem_factsIn_slot {t : Tree} {f : Field} {content : Child} {c : NodeId}
    (hf : t.field? n f = some content) (hc : content.node? = some c) (fact : Fact) :
    fact ∈ t.factsIn n f ↔ fact ∈ t.facts c := by
  have hocc : t.occupant? (.slot n f) = some c := by simp [Tree.occupant?, hf, hc]
  have hspots : t.spots n f = [.slot n f] := by
    unfold Tree.spots
    rw [hf]
    cases content with
    | one => rfl
    | opt id? =>
      cases id? with
      | none => simp [Child.node?] at hc
      | some => rfl
    | many => simp [Child.node?] at hc
  simp [Tree.factsIn, hspots, hocc]

theorem Tree.mem_factsIn_empty {t : Tree} {f : Field} (hf : t.field? n f = some (.opt none))
    (fact : Fact) : fact ∉ t.factsIn n f := by
  simp [Tree.factsIn, Tree.spots, hf]

theorem Tree.mem_factsIn_list {t : Tree} {f : Field} {ids : List NodeId}
    (hf : t.field? n f = some (.many ids)) (fact : Fact) :
    fact ∈ t.factsIn n f ↔ ∃ c ∈ ids, fact ∈ t.facts c := by
  have hk : ∃ k, t.kind? n = some k ∧ k.child? f = some (.many ids) := by
    simpa [Tree.field?, Option.bind_eq_some_iff] using hf
  obtain ⟨k, hk, hc⟩ := hk
  have hids : ∀ c, (∃ pos ∈ t.spots n f, t.occupant? pos = some c) ↔ c ∈ ids := by
    intro c
    rw [Tree.mem_spots_iff hk]
    simp [NodeKind.fieldIds, hc, Child.ids]
  simp only [Tree.factsIn, Set.mem_ofPred_eq]
  constructor
  · rintro ⟨pos, hpos, c, hocc, hfact⟩
    exact ⟨c, (hids c).mp ⟨pos, hpos, hocc⟩, hfact⟩
  · rintro ⟨c, hc, hfact⟩
    obtain ⟨pos, hpos, hocc⟩ := (hids c).mpr hc
    exact ⟨pos, hpos, c, hocc, hfact⟩

/-- Walking a catch clause. -/
theorem walkBlock_catch (hwalk : WalksTo K G walk d) (h : s.Inside K G p n i)
    {param? : Option NodeId} {body : NodeId}
    (hk : s.tree.kind? n = some (.catchClause param? body))
    (hd : ∀ e ∈ (NodeKind.catchClause param? body).children, s.tree.DepthWithin d e) :
    Returns (walkBlock walk p i) s (s.Walked K G (s.tree.factsInside n)) := by
  have hparam : s.tree.field? n .param = some (.opt param?) := by
    simp [Tree.field?, hk, NodeKind.child?, NodeKind.fields]
  have hbody : s.tree.field? n .body = some (.one body) := by
    simp [Tree.field?, hk, NodeKind.child?, NodeKind.fields]
  have hocc : s.tree.occupant? (.slot n .param) = param? := by
    simp [Tree.occupant?, hparam, Child.node?]
  have hoccb : s.tree.occupant? (.slot n .body) = some body := by
    simp [Tree.occupant?, hbody, Child.node?]
  have hn := h.sound.mem_of_holds h.holds
  unfold walkBlock
  refine returns_bind_of_ok (PathId.type?_run_of_holds h.holds hk) ?_
  refine (PathId.child_arrives h.sound h.holds .param).bind fun q s₁ hq => ?_
  have hsur := hq.toWent.surveys h.ordered
  obtain ⟨dq, hdq, hdn⟩ := hq.known
  -- What follows the head of the clause, whatever the head was.
  have htail : ∀ u s₂, s₁.Walked K G {f | ∃ c, param? = some c ∧
      ((∃ x, f = .declares n x ∧ s.tree.Binds c x) ∨ f ∈ s.tree.facts c)} u s₂ →
      Returns (do pure (u ++ (← walkChildren walk (← p.child .body) i))) s₂
        (s.Walked K G (s.tree.factsInside n)) := by
    intro u s₂ hu
    have hsur₂ := hsur.trans hu.toSurveys
    have hin₂ := h.later hsur₂
    refine (PathId.child_arrives hin₂.sound hin₂.holds .body).bind fun r s₃ hr => ?_
    have hocc₂ : s₂.tree.occupant? (.slot n .body) = some body := by rw [hsur₂.tree]; exact hoccb
    have hsur₃ := hsur₂.trans (hr.toWent.surveys hsur₂.ordered)
    have hbodyWalk := walkBody_walked hwalk (h.later hsur₃) (by rw [hsur₃.tree]; exact hk)
      (.inr rfl) (hr.linked body hocc₂) (by rw [hsur₃.tree]; exact hoccb)
      (by rw [hsur₃.tree]; exact hd body (by simp [NodeKind.children, NodeKind.fields, Child.ids]))
      (fun hG => by
        rw [hsur₃.tree]
        obtain ⟨ids, hids⟩ := ((h.means hG).grammatical.handler n _ _ (h.reachable hG) hk).2
        exact ⟨_, hids, rfl⟩)
    refine hbodyWalk.bind fun v s₄ hv => .pure ?_
    rw [hsur₃.tree] at hv
    have hwent : s.Walked K G ∅ {} s₁ := hq.toWent.walked h.sound h.ordered
    have hwent' : s₂.Walked K G ∅ {} s₃ := hr.toWent.walked hin₂.sound hin₂.ordered
    have hall := (hwent.trans hu (by simp)).trans (hwent'.trans hv (by simp)) fun _ b hb hb' => by
      simp only [Set.empty_union, Set.mem_ofPred_eq, reduceCtorEq, false_and, exists_false,
        false_or] at hb hb'
      obtain ⟨c, rfl, hb⟩ := hb
      exact h.sound.forest.factsIn_disjoint hn (by decide : Field.param ≠ .body) b
        ((Tree.mem_factsIn_slot hparam rfl _).mpr hb) ((Tree.mem_factsIn_slot hbody rfl _).mpr hb')
    rw [Uses.empty_append, Uses.empty_append] at hall
    refine hall.congr fun hG f => ?_
    simp only [Set.empty_union, Set.mem_union, Set.mem_ofPred_eq, Tree.factsInside,
      Tree.mem_factsBelow_iff hk, NodeKind.type, NodeType.visitorFields, List.mem_cons,
      List.not_mem_nil, or_false, exists_eq_or_imp, exists_eq_left,
      Tree.mem_factsIn_slot hbody rfl]
    constructor
    · rintro (⟨c, rfl, ⟨x, rfl, hx⟩ | hf⟩ | hf)
      · exact .inl ⟨x, rfl, .caught hk hx⟩
      · exact .inr (.inl ((Tree.mem_factsIn_slot hparam rfl _).mpr hf))
      · exact .inr (.inr hf)
    · rintro (⟨x, rfl, hx⟩ | hf | hf)
      · cases hx with
        | caught hk' hx =>
          rw [hk] at hk'
          cases hk'
          exact .inl ⟨_, rfl, .inl ⟨x, rfl, hx⟩⟩
        | param hk' hfun _ _ _ =>
          rw [hk] at hk'
          cases hk'
          cases hfun
        | ownName hk' _ =>
          rw [hk] at hk'
          cases hk'
      · cases param? with
        | none => exact absurd hf (Tree.mem_factsIn_empty hparam f)
        | some c => exact .inl ⟨c, rfl, .inr ((Tree.mem_factsIn_slot hparam rfl _).mp hf)⟩
      · exact .inr hf
  refine returns_bind_of_ok (q.node?_run hdq) ?_
  rw [hdn, hocc]
  cases param? with
  | none => exact htail {} s₁ ((Walked.refl hsur.sound hsur.ordered).congr fun _ f => by simp)
  | some c =>
    have hhead := walkParam_walked hwalk (h.later hsur) (hq.linked c hocc) rfl
      (by rw [hq.tree]; exact hocc) (by rw [hq.tree]; exact hd c (by simp [NodeKind.children,
        NodeKind.fields, Child.ids])) (fun hG => by
          rw [hq.tree]
          exact ((h.means hG).grammatical.handler n _ _ (h.reachable hG) hk).1 c rfl) .letVar
    show Returns (registerPattern q .letVar i q >>= fun _ => walk q i >>= _) s₁ _
    rw [← bind_assoc]
    refine hhead.bind fun u s₂ hu => htail u s₂ (hu.congr fun _ f => ?_)
    simp [hq.tree]

/-- The fields of a function. -/
theorem NodeKind.function_fields (h : k.type.isFunction = true) : ∃ ps body,
    k.child? .params = some (.many ps) ∧ k.child? .body = some (.one body) ∧
      ((k.type.visitorFields = [.id, .params, .body] ∧ ∃ id?, k.child? .id = some (.opt id?)) ∨
        k.type.visitorFields = [.params, .body] ∧ k.child? .id = none) := by
  cases k with
  | functionDeclaration id? ps body => exact ⟨ps, body, rfl, rfl, .inl ⟨rfl, id?, rfl⟩⟩
  | functionExpression id? ps body => exact ⟨ps, body, rfl, rfl, .inl ⟨rfl, id?, rfl⟩⟩
  | arrowFunctionExpression ps body => exact ⟨ps, body, rfl, rfl, .inr ⟨rfl, rfl⟩⟩
  | _ => cases h

theorem NodeKind.readsField_id (h : k.type.isFunction = true) : k.readsField .id = false := by
  cases k with
  | functionDeclaration => rfl
  | functionExpression => rfl
  | arrowFunctionExpression => rfl
  | _ => cases h

/-- The name of a function is none of the facts of its inside. -/
theorem Session.Inside.mem_factsBelow_function (h : s.Inside K G p n i) (hG : G)
    (hk : s.tree.kind? n = some k) (hfun : k.type.isFunction = true) {ps : List NodeId}
    {body : NodeId} (hps : k.child? .params = some (.many ps))
    (hbody : k.child? .body = some (.one body)) (f : Fact) :
    f ∈ s.tree.factsBelow n ↔ (∃ e ∈ ps, f ∈ s.tree.facts e) ∨ f ∈ s.tree.facts body := by
  have hfield : ∀ field, s.tree.field? n field = k.child? field := fun field => by
    simp [Tree.field?, hk]
  have hparams := Tree.mem_factsIn_list ((hfield _).trans hps) f
  have hbodyIn := Tree.mem_factsIn_slot ((hfield _).trans hbody) rfl f
  have hid : f ∉ s.tree.factsIn n .id := by
    cases hc : k.child? .id with
    | none =>
      rw [← hfield] at hc
      simp [Tree.factsIn, Tree.spots, hc]
    | some content =>
      obtain ⟨ps', body', -, -, ⟨-, id?, hid⟩ | ⟨-, hid⟩⟩ := NodeKind.function_fields hfun
      · rw [← hfield] at hid
        cases id? with
        | none => exact Tree.mem_factsIn_empty hid f
        | some m =>
          rw [Tree.mem_factsIn_slot hid rfl]
          have hident := (h.means hG).grammatical.functionName n k m (h.reachable hG) hk hfun
            ((hfield .id).symm.trans hid)
          have hsilent := (h.means hG).silent_identifier (.slot n .id)
            (h.sound.mem_of_holds h.holds) rfl rfl (by simp [Tree.occupant?, hid, Child.node?]) hk
            (NodeKind.readsField_id hfun) hident
          obtain ⟨x, declared, hkm⟩ := hident
          exact hsilent.facts_of_leaf hkm rfl f
      · rw [hc] at hid
        cases hid
  rw [Tree.mem_factsBelow_iff hk]
  obtain ⟨-, -, -, -, ⟨hv, -⟩ | ⟨hv, -⟩⟩ := NodeKind.function_fields hfun
  · simp [hv, hid, hparams, hbodyIn]
  · simp [hv, hparams, hbodyIn]

/-- Declaring the parameters of a function and walking them. -/
theorem walkParams_walked (hwalk : WalksTo K G walk d) (h : s.Inside K G p n i)
    (hk : s.tree.kind? n = some k) (hfun : k.type.isFunction = true) {ps : List NodeId}
    (hps : k.child? .params = some (.many ps))
    (hd : ∀ e ∈ k.children, s.tree.DepthWithin d e) :
    Returns (do
      (← p.elements .params).mapM fun param => do
        registerPattern param .param i param
        walk param i) s fun us s' => s.Walked K G
          {f | ∃ e ∈ ps, (∃ x, f = .declares n x ∧ s.tree.Binds e x) ∨ f ∈ s.tree.facts e}
          (.concat us) s' := by
  have hfield : s.tree.field? n .params = some (.many ps) := by simp [Tree.field?, hk, hps]
  refine elements_walked h.sound h.ordered h.holds hfield _
    (fun e => {f | (∃ x, f = .declares n x ∧ s.tree.Binds e x) ∨ f ∈ s.tree.facts e}) ?_ ?_
  · rintro e b (⟨x, hx, -⟩ | hb)
    · cases hx
    · exact hb
  · intro q e pos s₁ he hs₁ hl hpos hocc
    have hmem : e ∈ k.children := by
      refine Tree.mem_children_of_mem_fieldIds (f := .params) ?_
      simpa [NodeKind.fieldIds, hps, Child.ids] using he
    refine (walkParam_walked hwalk (h.later hs₁) hl hpos (by rw [hs₁.tree]; exact hocc)
      (by rw [hs₁.tree]; exact hd e hmem) (fun hG => ?_) .param).mono fun u s₂ hu =>
        hu.congr fun _ f => by rw [hs₁.tree]
    rw [hs₁.tree]
    exact (h.means hG).grammatical.param n k ps (h.reachable hG) hk hfun hps e he

/-- Walking a function. -/
theorem walkBlock_function (hwalk : WalksTo K G walk d) (h : s.Inside K G p n i)
    (hk : s.tree.kind? n = some k) (hfun : k.type.isFunction = true)
    (hd : ∀ e ∈ k.children, s.tree.DepthWithin d e) :
    Returns (walkBlock walk p i) s (s.Walked K G (s.tree.factsInside n)) := by
  obtain ⟨ps, body, hps, hbody, -⟩ := NodeKind.function_fields hfun
  have hn := h.sound.mem_of_holds h.holds
  have hfieldp : s.tree.field? n .params = some (.many ps) := by simp [Tree.field?, hk, hps]
  have hfieldb : s.tree.field? n .body = some (.one body) := by simp [Tree.field?, hk, hbody]
  have hoccb : s.tree.occupant? (.slot n .body) = some body := by
    simp [Tree.occupant?, hfieldb, Child.node?]
  have hmemb : body ∈ k.children := by
    refine Tree.mem_children_of_mem_fieldIds (f := .body) ?_
    simp [NodeKind.fieldIds, hbody, Child.ids]
  -- What follows the name of the function.
  have htail : ∀ s₁, s.Walked K G {f | k.type = .functionExpression ∧ ∃ m x declared,
      s.tree.occupant? (.slot n .id) = some m ∧ s.tree.kind? m = some (.identifier x declared) ∧
        f = .declares n x} {} s₁ →
      Returns (do
        let heads ← (← p.elements .params).mapM fun param => do
          registerPattern param .param i param
          walk param i
        let body ← p.child .body
        let inner ← if ← body.is .blockStatement then walkChildren walk body i else walk body i
        pure (Uses.concat heads ++ inner)) s₁ (s.Walked K G (s.tree.factsInside n)) := by
    intro s₁ h₁
    have hk₁ : s₁.tree.kind? n = some k := by rw [h₁.tree]; exact hk
    have hparams := walkParams_walked hwalk (h.later h₁.toSurveys) hk₁ hfun hps
      (by rw [h₁.tree]; exact hd)
    rw [← bind_assoc]
    refine hparams.bind fun heads s₂ hheads => ?_
    rw [h₁.tree] at hheads
    have hsur₂ := h₁.toSurveys.trans hheads.toSurveys
    have hin₂ := h.later hsur₂
    refine (PathId.child_arrives hin₂.sound hin₂.holds .body).bind fun q s₃ hq => ?_
    have hsur₃ := hsur₂.trans (hq.toWent.surveys hsur₂.ordered)
    have hin₃ := h.later hsur₃
    have hocc₃ : s₃.tree.occupant? (.slot n .body) = some body := by
      rw [hsur₃.tree]; exact hoccb
    have hlinked := hq.linked body (by rw [hsur₂.tree]; exact hoccb)
    have hdb : s₃.tree.DepthWithin d body := by rw [hsur₃.tree]; exact hd body hmemb
    obtain ⟨kb, hkb⟩ := hdb.kind
    have his : q.is .blockStatement s₃ = .ok (some kb.type == some .blockStatement) s₃ := by
      show (q.type? >>= _) s₃ = _
      rw [bind_of_ok (PathId.type?_run_of_holds (hlinked.holds hocc₃) hkb)]
      rfl
    have hfinish : ∀ inner s₄, s₃.Walked K G (s₃.tree.facts body) inner s₄ →
        s.Walked K G (s.tree.factsInside n) (Uses.concat heads ++ inner) s₄ := by
      intro inner s₄ hi
      rw [hsur₃.tree] at hi
      have hwent : s₂.Walked K G ∅ {} s₃ := hq.toWent.walked hin₂.sound hin₂.ordered
      have hall := (h₁.trans hheads (by simp)).trans (hwent.trans hi (by simp)) fun _ b hb hb' => by
        simp only [Set.mem_union, Set.empty_union, Set.mem_ofPred_eq, reduceCtorEq, and_false,
          exists_false, false_and, false_or] at hb hb'
        exact h.sound.forest.factsIn_disjoint hn (by decide : Field.params ≠ .body) b
          ((Tree.mem_factsIn_list hfieldp _).mpr hb) ((Tree.mem_factsIn_slot hfieldb rfl _).mpr hb')
      rw [Uses.empty_append, Uses.empty_append] at hall
      refine hall.congr fun hG f => ?_
      simp only [Set.mem_union, Set.empty_union, Set.mem_ofPred_eq, Tree.factsInside,
        h.mem_factsBelow_function hG hk hfun hps hbody]
      constructor
      · rintro ((⟨he, m, x, declared, hm, hkm, rfl⟩ | ⟨e, he, ⟨x, rfl, hx⟩ | hf⟩) | hf)
        · refine .inl ⟨x, rfl, ?_⟩
          cases k with
          | functionExpression id? ps body =>
            cases id? with
            | none => simp [Tree.occupant?, Tree.field?, hk, NodeKind.child?, NodeKind.fields,
                Child.node?] at hm
            | some m' =>
              obtain rfl : m' = m := by
                simpa [Tree.occupant?, Tree.field?, hk, NodeKind.child?, NodeKind.fields,
                  Child.node?] using hm
              exact .ownName hk hkm
          | _ => cases he
        · exact .inl ⟨x, rfl, .param hk hfun hps he hx⟩
        · exact .inr (.inl ⟨e, he, hf⟩)
        · exact .inr (.inr hf)
      · rintro (⟨x, rfl, hx⟩ | ⟨e, he, hf⟩ | hf)
        · cases hx with
          | param hk' _ hps' he hx =>
            obtain rfl : k = _ := Option.some.inj (hk.symm.trans hk')
            rw [hps] at hps'
            cases hps'
            exact .inl (.inr ⟨_, he, .inl ⟨x, rfl, hx⟩⟩)
          | caught hk' _ =>
            obtain rfl : k = _ := Option.some.inj (hk.symm.trans hk')
            cases hfun
          | ownName hk' hkm =>
            obtain rfl : k = _ := Option.some.inj (hk.symm.trans hk')
            refine .inl (.inl ⟨rfl, _, x, _, ?_, hkm, rfl⟩)
            simp [Tree.occupant?, Tree.field?, hk, NodeKind.child?, NodeKind.fields, Child.node?]
        · exact .inl (.inr ⟨e, he, .inr hf⟩)
        · exact .inr hf
    refine returns_bind_of_ok his ?_
    by_cases hb : kb.type = .blockStatement
    · rw [if_pos (by simp [hb])]
      refine (walkBody_walked hwalk hin₃ (by rw [hsur₃.tree]; exact hk) (.inl hfun) hlinked hocc₃
        hdb fun _ => ⟨kb, hkb, hb⟩).bind fun inner s₄ hi => .pure (hfinish inner s₄ hi)
    · rw [if_neg (by simpa using hb)]
      exact (hwalk s₃ q body i (hin₃.above.enter hlinked rfl hocc₃) hdb).bind
        fun inner s₄ hi => .pure (hfinish inner s₄ hi)
  have hnone : k.type ≠ .functionExpression → s.Walked K G
      {f | k.type = .functionExpression ∧ ∃ m x declared, s.tree.occupant? (.slot n .id) = some m ∧
        s.tree.kind? m = some (.identifier x declared) ∧ f = .declares n x} {} s := fun hne =>
    (Walked.refl h.sound h.ordered).congr fun _ f => by simp [hne]
  unfold walkBlock
  refine returns_bind_of_ok (PathId.type?_run_of_holds h.holds hk) ?_
  cases k with
  | functionDeclaration => exact htail s (hnone (by simp [NodeKind.type]))
  | arrowFunctionExpression => exact htail s (hnone (by simp [NodeKind.type]))
  | functionExpression =>
    refine (registerFunctionName_walked (G := G) (F := {f | ∃ m x declared,
      s.tree.occupant? (.slot n .id) = some m ∧ s.tree.kind? m = some (.identifier x declared) ∧
        f = .declares n x}) h.sound h.ordered h.scope h.holds .inner fun hG => ?_).bind
      fun _ s₁ h₁ => htail s₁ (h₁.congr fun _ f => by simp [NodeKind.type])
    exact ⟨n, (h.scopeOf hG).1, ⟨n, _, h.holds, hk, by simp [NodeKind.type]⟩, fun f => .rfl⟩
  | _ => cases hfun

/-- Walking the inside of a block notes what it declares itself and the facts below it. -/
theorem walkBlock_walked (hwalk : WalksTo K G walk d) (h : s.Inside K G p n i)
    (hk : s.tree.kind? n = some k) (hd : ∀ e ∈ k.children, s.tree.DepthWithin d e) :
    Returns (walkBlock walk p i) s (s.Walked K G (s.tree.factsInside n)) := by
  by_cases hcatch : k.type = .catchClause
  · cases k with
    | catchClause param? body => exact walkBlock_catch hwalk h hk hd
    | _ => cases hcatch
  · by_cases hfun : k.type.isFunction = true
    · exact walkBlock_function hwalk h hk hfun hd
    · have hfun' : k.type.isFunction = false := by simpa using hfun
      have hbelow : Returns (walkBlock walk p i) s (s.Walked K G (s.tree.factsBelow n)) := by
        unfold walkBlock
        refine returns_bind_of_ok (PathId.type?_run_of_holds h.holds hk) ?_
        split
        · next heq => cases heq
        · next heq => exact absurd (Option.some.inj heq) hcatch
        · next heq =>
          obtain rfl := Option.some.inj heq
          rw [if_neg (by simp [hfun'])]
          exact walkChildren_walked hwalk h.above hk hd
      refine hbelow.mono fun u s₁ hu => hu.congr fun _ f => ?_
      simp only [Tree.factsInside, Set.mem_ofPred_eq]
      constructor
      · exact .inr
      · rintro (⟨x, -, hx⟩ | hf)
        · exact absurd hx (Tree.not_bindsInside hk hfun' hcatch x)
        · exact hf

end Block

/-! ## Questions about a position -/

section Questions

variable {s : Session} {K : Set NodeId} {p : PathId} {n : NodeId} {k : NodeKind} {pos : Position}

/-- The type of the owner of a position. -/
theorem PathId.parentType?_run (h : s.Sound K) (hw : pos.Within K) (hl : s.Linked p pos) :
    p.parentType? s = .ok (pos.parent?.bind s.tree.type?) s := by
  obtain ⟨d, hf, -⟩ := hl
  have hparent : p.parentNode? s = .ok pos.parent? s := by
    show (p.data >>= _) s = _
    rw [bind_of_ok (p.data_run hf.data)]
    show EStateM.Result.ok d.container.parent? s = _
    rw [hf.container]
    rfl
  show (p.parentNode? >>= _) s = _
  rw [bind_of_ok hparent]
  cases hq : pos.parent? with
  | none => rfl
  | some q =>
    obtain ⟨kq, hkq⟩ := h.forest.kind q (hw q hq)
    show ((ask fun t => t.type? q) >>= _) s = _
    rw [bind_of_ok (ask_run (Tree.type?_of_kind hkq))]
    simp [Tree.type?_of_kind hkq]

/-- A block says of itself whether it opens a scope. -/
theorem PathId.isScopeBlock_run (h : s.Sound K) (hw : pos.Within K) (hl : s.Linked p pos)
    (hocc : s.tree.occupant? pos = some n) (hk : s.tree.kind? n = some k) :
    ∃ v, p.isScopeBlock s = .ok v s ∧
      (k.type.isScopable = true → k.type ≠ .blockStatement → v = true) ∧
        (pos.Within s.tree.reachable → (v = true ↔ s.tree.Opens n)) := by
  have htype := PathId.type?_run_of_holds (hl.holds hocc) hk
  by_cases hb : k.type = .blockStatement
  · refine ⟨!(pos.parent?.bind s.tree.type?).any fun type =>
      type.isFunction || type == .catchClause, ?_, fun _ hne => absurd hb hne, fun hreach => ?_⟩
    · unfold isScopeBlock
      rw [bind_of_ok htype, hb]
      show (p.parentType? >>= _) s = _
      rw [bind_of_ok (PathId.parentType?_run h hw hl)]
      rfl
    · constructor
      · intro hv
        refine ⟨k, hk, by simp [hb, NodeType.isScopable], fun _ q kq hq hchild hkq => ?_⟩
        obtain ⟨pos', hpos', hocc'⟩ := hchild
        have heq : pos' = pos := h.forest.single pos' pos n
          (Position.within_of_parent hpos' (h.forest.mem_of_reachable hq)) hw hocc' hocc
        rw [← heq, hpos', Option.bind_some, Tree.type?_of_kind hkq] at hv
        simpa using hv
      · rintro ⟨k', hk', -, hno⟩
        obtain rfl : k = k' := Option.some.inj (hk.symm.trans hk')
        cases hq : pos.parent? with
        | none => rfl
        | some q =>
          obtain ⟨kq, hkq⟩ := h.forest.kind q (hw q hq)
          obtain ⟨hfun, hcatch⟩ := hno hb q kq (hreach q hq) ⟨pos, hq, hocc⟩ hkq
          simp [Tree.type?_of_kind hkq, hfun, hcatch]
  · refine ⟨k.type.isScopable, ?_, fun hs _ => hs, fun _ => ?_⟩
    · unfold isScopeBlock
      rw [bind_of_ok htype]
      clear htype
      generalize k.type = type at hb
      cases type with
      | blockStatement => exact absurd rfl hb
      | _ => rfl
    · constructor
      · exact fun hs => ⟨k, hk, hs, fun hb' => absurd hb' hb⟩
      · rintro ⟨k', hk', hs, -⟩
        obtain rfl : k = k' := Option.some.inj (hk.symm.trans hk')
        exact hs

theorem PathData.field?_of_position {d : PathData} (hc : d.container = pos.container)
    (hk : d.key = pos.key) : d.field? = pos.field? := by
  unfold PathData.field?
  rw [hc, hk]
  cases pos <;> rfl

theorem PathData.field?_of_files {d : PathData} (hf : s.Files p pos d) : d.field? = pos.field? :=
  PathData.field?_of_position hf.container hf.key

/-- Whether an identifier is read is a question about the field that it stands in. -/
theorem PathId.isReferencedIdentifier_run_of_files (h : s.Sound K) {d : PathData}
    (hf : s.Files p pos d) (hw : pos.Within K) (hocc : s.tree.occupant? pos = some n) {x : String}
    {declared : Option ValueType} (hk : s.tree.kind? n = some (.identifier x declared)) :
    ∃ v, p.isReferencedIdentifier s = .ok v s ∧
      (v = true ↔ ∃ q kq f, pos.parent? = some q ∧ pos.field? = some f ∧
        s.tree.kind? q = some kq ∧ kq.readsField f = true) := by
  have his : p.is .identifier s = .ok true s := by
    show (p.type? >>= _) s = _
    rw [bind_of_ok (PathId.type?_run_of_holds (hf.holds hocc) hk)]
    rfl
  have hcontainer : d.container.parent? = pos.parent? := by rw [hf.container]; rfl
  have hfield := PathData.field?_of_files hf
  have hrun : p.isReferencedIdentifier s = p.isReferenced s := by
    show (p.is .identifier >>= _) s = _
    rw [bind_of_ok his]
    rfl
  rw [hrun]
  unfold isReferenced
  rw [bind_of_ok (p.data_run hf.data), hcontainer, hfield]
  cases hq : pos.parent? with
  | none => exact ⟨false, rfl, by simp⟩
  | some q =>
    obtain ⟨f, hpf⟩ : ∃ f, pos.field? = some f := by
      cases pos with
      | root => simp at hq
      | slot _ f => exact ⟨f, rfl⟩
      | item _ f _ => exact ⟨f, rfl⟩
    obtain ⟨kq, hkq⟩ := h.forest.kind q (hw q hq)
    rw [hpf]
    refine ⟨kq.readsField f, bind_of_ok (ask_run hkq), fun hv => ?_, ?_⟩
    · exact ⟨q, kq, f, rfl, rfl, hkq, hv⟩
    · rintro ⟨q', kq', f', hq', hf', hkq', hv⟩
      obtain rfl := Option.some.inj hq'
      obtain rfl := Option.some.inj hf'
      obtain rfl := Option.some.inj (hkq.symm.trans hkq')
      exact hv

/-- An identifier is collected when it is read. -/
theorem PathId.isReferencedIdentifier_run (h : s.Sound K) (hp : s.Holds p n) {x : String}
    {declared : Option ValueType} (hk : s.tree.kind? n = some (.identifier x declared)) :
    ∃ v, p.isReferencedIdentifier s = .ok v s ∧
      (s.tree.Meant K → (v = true ↔ ∃ y, s.tree.Reads n y)) := by
  obtain ⟨pos, d, hw, hf, hocc⟩ := h.files_of_holds hp
  obtain ⟨v, hrun, hv⟩ := PathId.isReferencedIdentifier_run_of_files h hf hw hocc hk
  refine ⟨v, hrun, fun hm => hv.trans ⟨?_, ?_⟩⟩
  · rintro ⟨q, kq, f, hq, hpf, hkq, hreads⟩
    have hqK := hw q hq
    rw [hm.all] at hqK
    exact ⟨x, ⟨declared, hk⟩, pos, q, kq, f, hq, hpf, hocc, hqK, hkq, hreads⟩
  · rintro ⟨y, -, pos', q, kq, f, hq, hpf, hocc', hreach, hkq, hreads⟩
    -- The node stands at one position only.
    have hwithin : pos.Within s.tree.reachable := by
      rw [← hm.all]
      exact hw
    obtain rfl := hm.program.single pos' pos n (Position.within_of_parent hq hreach) hwithin hocc'
      hocc
    exact ⟨q, kq, f, hq, hpf, hkq, hreads⟩

/-- The nodes that are read are those that the question says are. -/
theorem PathId.isReferencedIdentifier_iff (h : s.Sound K) (hm : s.tree.Meant K)
    (hp : s.Holds p n) :
    p.isReferencedIdentifier s = .ok true s ↔ ∃ x, s.tree.Reads n x := by
  obtain ⟨k, hk⟩ := h.forest.kind n (h.mem_of_holds hp)
  cases hid : k.identifierName? with
  | none =>
    have hno : k.type ≠ .identifier := by
      intro ht
      cases k <;> simp_all [NodeKind.type, NodeKind.identifierName?]
    have his : p.is .identifier s = .ok false s := by
      show (p.type? >>= _) s = _
      rw [bind_of_ok (PathId.type?_run_of_holds hp hk)]
      show EStateM.Result.ok (some k.type == some .identifier) s = _
      simp [hno]
    constructor
    · intro hrun
      have hfalse : p.isReferencedIdentifier s = .ok false s := by
        show (p.is .identifier >>= _) s = _
        rw [bind_of_ok his]
        rfl
      rw [hfalse] at hrun
      cases hrun
    · rintro ⟨x, hx⟩
      exact absurd hx (Tree.not_reads_of_not_identifier hk hid x)
  | some x =>
    obtain ⟨declared, rfl⟩ := k.identifierName?_eq_some_iff.mp hid
    obtain ⟨v, hrun, hv⟩ := PathId.isReferencedIdentifier_run h hp hk
    rw [hrun, ← hv hm]
    constructor
    · intro heq
      cases heq
      rfl
    · rintro rfl
      rfl

end Questions

end Espalier
