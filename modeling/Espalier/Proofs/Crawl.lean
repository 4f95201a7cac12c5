import Espalier.Proofs.Survey

set_option autoImplicit false

/-! # The crawl walks everything once

Each part of the crawl notes the facts of the part of the tree it walks: declarations
(`registerPattern_walked`), the inside of a block (`walkBlock_walked`) and a whole subtree
(`walkWithin_walked`). -/

namespace Espalier

open SessionM Session

/-- The forest is the whole of a grammatical program tree. -/
structure Tree.Meant (t : Tree) (K : Set NodeId) : Prop where
  program : t.IsProgram
  grammatical : t.Grammatical
  all : K = t.reachable

section Registration

variable {s : Session} {K : Set NodeId} {G : Prop} {F : Set Fact} {i : ScopeId}

theorem Session.ScopeOf.node_unique {b b' : NodeId} (h : s.ScopeOf i b) (h' : s.ScopeOf i b') :
    b = b' := by
  obtain ⟨sc, hsc, hb⟩ := h
  obtain ⟨sc', hsc', hb'⟩ := h'
  obtain rfl : sc = sc' := Option.some.inj (hsc.symm.trans hsc')
  exact hb.unique_node hb'

theorem Session.ScopeOf.hasScope {b : NodeId} (h : s.ScopeOf i b) : s.HasScope i := by
  obtain ⟨sc, hsc, -⟩ := h
  exact hasScope_of_scope hsc

/-! ## Declarations -/

/-- Declaring the names of a pattern. -/
theorem registerPattern_walked {pattern : PathId} {d : PathData} (hs : s.Sound K)
    (ho : s.scopes.Ordered) (hi : s.HasScope i) (hd : s.paths[pattern.index]? = some d)
    (kind : BindingKind) (declaration : PathId)
    (hF : G → ∃ b, s.ScopeOf i b ∧ s.Plain declaration ∧
      ∀ f, f ∈ F ↔ ∃ x n, f = .declares b x ∧ d.node = some n ∧ s.tree.Named n x) :
    Returns (registerPattern pattern kind i declaration) s fun _ s' => s.Walked K G F {} s' := by
  unfold registerPattern
  refine (PathId.bindingIdentifierPaths_returns true hs hd).bind fun found s₁ hfound => ?_
  obtain ⟨hwent, hgathers, hkeys⟩ := hfound
  have hsur := hwent.surveys ho
  refine (forM_walked (G := G) found.entries _
    (fun e => {f | ∃ site ∈ e.2, ∃ b, s.ScopeOf i b ∧ f = .declares b e.1}) hsur.sound hsur.ordered
    (by simp) fun e he s₂ hs₂ => ?_).mono fun _ s₂ hw => ?_
  · refine forM_walked e.2 _ (fun _ => {f | ∃ b, s.ScopeOf i b ∧ f = .declares b e.1}) hs₂.sound
      hs₂.ordered (by simp) fun site hsite s₃ hs₃ => ?_
    have hlater := hs₂.trans hs₃
    obtain ⟨m, declared, hm, -⟩ := (hgathers e he).2 site hsite
    have hm₃ := hlater.grew.holds hsur.sound hm
    refine returns_bind_of_ok (PathId.node?_run_of_holds hm₃) ?_
    refine registerBinding_walked hs₃.sound hs₃.ordered ((hi.later hsur).later hlater) e.1 kind
      declaration m (hs₃.sound.forest.index_lt_size (hs₃.sound.mem_of_holds hm₃)) fun hG => ?_
    obtain ⟨b, hb, hplain, -⟩ := hF hG
    refine ⟨b, (hb.later hs hsur).later hsur.sound hlater,
      (hplain.later hs hsur.grew).later hsur.sound hlater.grew, fun f => ⟨?_, ?_⟩⟩
    · rintro ⟨b', hb', rfl⟩
      rw [hb.node_unique hb']
    · rintro rfl
      exact ⟨b, hb, rfl⟩
  rw [← Uses.empty_append {}]
  refine ((hwent.walked hs ho).trans hw (by simp)).congr fun hG f => ?_
  obtain ⟨b, hb, -, hFb⟩ := hF hG
  rw [hFb]
  simp only [Set.empty_union, Set.mem_ofPred_eq]
  constructor
  · rintro ⟨e, he, site, -, b', hb', rfl⟩
    have hx : e.1 ∈ found.keys := List.mem_map_of_mem he
    obtain ⟨n, hn, hx⟩ := (hkeys e.1).mp hx
    exact ⟨e.1, n, by rw [hb.node_unique hb'], hn, hx⟩
  · rintro ⟨x, n, rfl, hn, hx⟩
    obtain ⟨e, he, rfl⟩ := List.mem_map.mp ((hkeys x).mpr ⟨n, hn, hx⟩)
    obtain ⟨site, hsite⟩ := List.exists_mem_of_ne_nil _ (hgathers e he).1
    exact ⟨e, he, site, hsite, b, hb, rfl⟩

/-- Declaring the name of a function. -/
theorem registerFunctionName_walked {p : PathId} {n : NodeId} (hs : s.Sound K)
    (ho : s.scopes.Ordered) (hi : s.HasScope i) (hp : s.Holds p n) (kind : BindingKind)
    (hF : G → ∃ b, s.ScopeOf i b ∧ s.Plain p ∧ ∀ f, f ∈ F ↔ ∃ m x declared,
      s.tree.occupant? (.slot n .id) = some m ∧ s.tree.kind? m = some (.identifier x declared) ∧
        f = .declares b x) :
    Returns (registerFunctionName p kind i) s fun _ s' => s.Walked K G F {} s' := by
  unfold registerFunctionName
  refine (PathId.child_arrives hs hp .id).bind fun q s₁ hq => ?_
  have hsur := hq.toWent.surveys ho
  obtain ⟨d, hd, hdn⟩ := hq.known
  refine returns_bind_of_ok (q.node?_run hd) ?_
  rw [hdn]
  cases hm : s.tree.occupant? (.slot n .id) with
  | none =>
    have hname : q.identifierName? s₁ = .ok none s₁ := by
      show (q.kind? >>= _) s₁ = _
      rw [bind_of_ok (PathId.kind?_run_of_empty hd (hdn.trans hm))]
      rfl
    refine returns_bind_of_ok hname (.pure ((hq.toWent.walked hs ho).congr fun hG f => ?_))
    obtain ⟨b, -, -, hFb⟩ := hF hG
    rw [hFb, hm]
    simp
  | some m =>
    have hqm : s₁.Holds q m := ⟨d, hd, hdn.trans hm⟩
    obtain ⟨k, hk⟩ := hq.sound.forest.kind m (hq.sound.mem_of_holds hqm)
    have hname : q.identifierName? s₁ = .ok k.identifierName? s₁ := by
      show (q.kind? >>= _) s₁ = _
      rw [bind_of_ok (PathId.kind?_run_of_holds hqm hk)]
      rfl
    refine returns_bind_of_ok hname ?_
    rw [hq.tree] at hk
    cases hx : k.identifierName? with
    | none =>
      refine .pure ((hq.toWent.walked hs ho).congr fun hG f => ?_)
      obtain ⟨b, -, -, hFb⟩ := hF hG
      rw [hFb, hm]
      constructor
      · intro hf
        cases hf
      · rintro ⟨m', x, declared, hm', hk', -⟩
        obtain rfl := Option.some.inj hm'
        rw [hk, Option.some.injEq] at hk'
        simp [hk', NodeKind.identifierName?] at hx
    | some x =>
      obtain ⟨declared, rfl⟩ := k.identifierName?_eq_some_iff.mp hx
      have hone : ∀ b f, (∃ m' y declared', some m = some m' ∧
          s.tree.kind? m' = some (.identifier y declared') ∧ f = Fact.declares b y) ↔
            f = .declares b x := by
        intro b f
        constructor
        · rintro ⟨m', y, declared', hm', hk', rfl⟩
          obtain rfl := Option.some.inj hm'
          rw [hk] at hk'
          cases hk'
          rfl
        · rintro rfl
          exact ⟨m, x, declared, rfl, hk, rfl⟩
      have hlt := hq.sound.forest.index_lt_size (hq.sound.mem_of_holds hqm)
      refine (registerBinding_walked (F := F) (G := G) hq.sound hsur.ordered (hi.later hsur) x kind p m
        hlt fun hG => ?_).mono fun _ s₂ hw => ?_
      · obtain ⟨b, hb, hplain, hFb⟩ := hF hG
        refine ⟨b, hb.later hs hsur, hplain.later hs hq.grew, fun f => ?_⟩
        rw [hFb, hm, hone]
      · rw [← Uses.empty_append {}]
        exact ((hq.toWent.walked hs ho).trans hw (by simp)).congr fun _ f => by simp

end Registration

/-! ## The facts of a subtree -/

namespace Tree

variable {t : Tree} {K : Set NodeId} {n : NodeId} {k : NodeKind}

/-- The facts of everything strictly below a node. -/
def factsBelow (t : Tree) (n : NodeId) : Set Fact := {f | ∃ c, t.IsChild n c ∧ f ∈ t.facts c}

/-- The facts of everything in a field of a node. -/
def factsIn (t : Tree) (n : NodeId) (field : Field) : Set Fact :=
  {f | ∃ pos ∈ t.spots n field, ∃ c, t.occupant? pos = some c ∧ f ∈ t.facts c}

theorem mem_facts_iff (f : Fact) : f ∈ t.facts n ↔ t.Owns n f ∨ f ∈ t.factsBelow n := by
  constructor
  · rintro ⟨m, hm, hf⟩
    rcases hm.cases_head with rfl | ⟨c, hc, hm⟩
    · exact .inl hf
    · exact .inr ⟨c, hc, m, hm, hf⟩
  · rintro (hf | ⟨c, hc, m, hm, hf⟩)
    · exact ⟨n, .refl, hf⟩
    · exact ⟨m, .head hc hm, hf⟩

theorem opens_mem_facts {b : NodeId} (h : .opens b ∈ t.facts n) :
    Relation.ReflTransGen t.IsChild n b := by
  obtain ⟨m, hm, rfl, -⟩ := h
  exact hm

theorem parent?_of_mem_spots {f : Field} {pos : Position} (h : pos ∈ t.spots n f) :
    pos.parent? = some n ∧ pos.field? = some f := by
  unfold spots at h
  split at h
  · obtain rfl := List.mem_singleton.mp h
    exact ⟨rfl, rfl⟩
  · obtain rfl := List.mem_singleton.mp h
    exact ⟨rfl, rfl⟩
  · obtain ⟨i, -, rfl⟩ := List.mem_map.mp h
    exact ⟨rfl, rfl⟩
  · simp at h
  · simp at h

theorem nodup_spots (f : Field) : (t.spots n f).Nodup := by
  unfold spots
  split
  · exact List.nodup_singleton _
  · exact List.nodup_singleton _
  · exact List.nodup_range.map fun i j hij => by simpa using hij
  · exact List.nodup_nil
  · exact List.nodup_nil

/-- The children stand in the fields of the kind. -/
theorem isChild_iff_spots (hk : t.kind? n = some k) (c : NodeId) :
    t.IsChild n c ↔ ∃ f ∈ k.type.visitorFields, ∃ pos ∈ t.spots n f, t.occupant? pos = some c := by
  simp only [mem_spots_iff hk]
  rw [isChild_iff, ← k.map_fst_fields]
  simp only [hk, Option.some.injEq, exists_eq_left']
  constructor
  · intro hc
    obtain ⟨⟨f, content⟩, he, hc⟩ := List.mem_flatMap.mp hc
    refine ⟨f, List.mem_map_of_mem he, ?_⟩
    unfold NodeKind.fieldIds
    rw [(k.child?_eq_some_iff f content).mpr he]
    exact hc
  · rintro ⟨f, -, hc⟩
    exact mem_children_of_mem_fieldIds hc

theorem mem_factsBelow_iff (hk : t.kind? n = some k) (f : Fact) :
    f ∈ t.factsBelow n ↔ ∃ field ∈ k.type.visitorFields, f ∈ t.factsIn n field := by
  simp only [factsBelow, Set.mem_ofPred_eq, isChild_iff_spots hk, factsIn]
  constructor
  · rintro ⟨c, ⟨field, hfield, pos, hpos, hc⟩, hf⟩
    exact ⟨field, hfield, pos, hpos, c, hc, hf⟩
  · rintro ⟨field, hfield, pos, hpos, c, hc, hf⟩
    exact ⟨c, ⟨field, hfield, pos, hpos, hc⟩, hf⟩

/-- No scope is opened in two fields of a node. -/
theorem Forest.factsIn_disjoint (h : t.Forest K) (hn : n ∈ K) {f g : Field} (hfg : f ≠ g)
    (b : NodeId) (hf : .opens b ∈ t.factsIn n f) : .opens b ∉ t.factsIn n g := by
  rintro ⟨pos', hpos', c', hc', hb'⟩
  obtain ⟨pos, hpos, c, hc, hb⟩ := hf
  obtain ⟨hp, hfield⟩ := parent?_of_mem_spots hpos
  obtain ⟨hp', hfield'⟩ := parent?_of_mem_spots hpos'
  have heq := h.below_disjoint hn hp hp' hc hc' (opens_mem_facts hb) (opens_mem_facts hb')
  rw [heq, hfield'] at hfield
  exact hfg (Option.some.inj hfield).symm

/-- The node gives rise to no facts. -/
def Silent (t : Tree) (n : NodeId) : Prop := ∀ f, ¬ t.Owns n f

theorem Silent.mem_facts_iff (h : t.Silent n) (f : Fact) : f ∈ t.facts n ↔ f ∈ t.factsBelow n := by
  rw [Tree.mem_facts_iff]
  simp [h f]

end Tree

/-! ## Walking children -/

/-- A walk is about to enter the node at the path, in the scope of the block around it. -/
structure Session.At (s : Session) (K : Set NodeId) (G : Prop) (p : PathId) (n : NodeId)
    (i : ScopeId) : Prop where
  sound : s.Sound K
  ordered : s.scopes.Ordered
  scope : s.HasScope i
  position : ∃ pos, pos.Within K ∧ s.Linked p pos ∧ s.tree.occupant? pos = some n
  means : G → s.tree.Meant K
  inScope : G → ∃ b, s.ScopeOf i b ∧ s.tree.InScope n b

/-- A walk does what is asked of it on subtrees of the given depth. -/
def WalksTo (K : Set NodeId) (G : Prop) (walk : PathId → ScopeId → SessionM Uses) (d : Nat) :
    Prop :=
  ∀ s p n i, s.At K G p n i → s.tree.DepthWithin d n →
    Returns (walk p i) s (s.Walked K G (s.tree.facts n))

section Children

variable {s : Session} {K : Set NodeId} {G : Prop} {p : PathId} {n : NodeId} {k : NodeKind}
  {i : ScopeId} {d : Nat} {walk : PathId → ScopeId → SessionM Uses}

theorem Session.At.later {s₁ : Session} (h : s.At K G p n i) (hs : s.Surveys K s₁) :
    s₁.At K G p n i where
  sound := hs.sound
  ordered := hs.ordered
  scope := h.scope.later hs
  position := by
    obtain ⟨pos, hw, hl, hocc⟩ := h.position
    exact ⟨pos, hw, hl.grew h.sound hs.grew, by rw [hs.tree]; exact hocc⟩
  means hG := by rw [hs.tree]; exact h.means hG
  inScope hG := by
    obtain ⟨b, hb, hin⟩ := h.inScope hG
    exact ⟨b, hb.later h.sound hs, by rw [hs.tree]; exact hin⟩

theorem Session.At.holds (h : s.At K G p n i) : s.Holds p n := by
  obtain ⟨pos, -, hl, hocc⟩ := h.position
  exact hl.holds hocc

theorem Session.At.mem (h : s.At K G p n i) : n ∈ K := h.sound.mem_of_holds h.holds

/-- What a walk of the children of a node needs. -/
structure Session.Above (s : Session) (K : Set NodeId) (G : Prop) (p : PathId) (n : NodeId)
    (i : ScopeId) : Prop where
  sound : s.Sound K
  ordered : s.scopes.Ordered
  scope : s.HasScope i
  holds : s.Holds p n
  means : G → s.tree.Meant K
  inScope : G → ∃ b, s.ScopeOf i b ∧ ∀ c, s.tree.IsChild n c → s.tree.InScope c b

theorem Session.Above.later {s₁ : Session} (h : s.Above K G p n i) (hs : s.Surveys K s₁) :
    s₁.Above K G p n i where
  sound := hs.sound
  ordered := hs.ordered
  scope := h.scope.later hs
  holds := hs.grew.holds h.sound h.holds
  means hG := by rw [hs.tree]; exact h.means hG
  inScope hG := by
    obtain ⟨b, hb, hin⟩ := h.inScope hG
    exact ⟨b, hb.later h.sound hs, by rw [hs.tree]; exact hin⟩

/-- The paths in a field are where a walk can enter. -/
theorem Session.Above.enter {pos : Position} {q : PathId} {c : NodeId} (h : s.Above K G p n i)
    (hq : s.Linked q pos) (hpos : pos.parent? = some n) (hc : s.tree.occupant? pos = some c) :
    s.At K G q c i where
  sound := h.sound
  ordered := h.ordered
  scope := h.scope
  position := by
    refine ⟨pos, fun r hr => ?_, hq, hc⟩
    rw [← Option.some.inj (hpos.symm.trans hr)]
    exact h.sound.mem_of_holds h.holds
  means := h.means
  inScope hG := by
    obtain ⟨b, hb, hin⟩ := h.inScope hG
    exact ⟨b, hb, hin c ⟨pos, hpos, hc⟩⟩

/-- Paths at different positions of a node lead to parts that have no node in common. -/
theorem pairwise_apart_of_linked {s' : Session} {places : List Position} {ps : List PathId}
    (hs : s.Sound K) (hp : s.Holds p n) (hg : s.Grew s') (hl : List.Forall₂ s'.Linked ps places)
    (hnodup : places.Nodup) (hplaces : ∀ pos ∈ places, pos.parent? = some n) :
    ps.Pairwise fun q q' => ∀ c c' m, s'.Holds q c → s'.Holds q' c' →
      Relation.ReflTransGen s.tree.IsChild c m → ¬ Relation.ReflTransGen s.tree.IsChild c' m := by
  have hholds : ∀ q pos, s'.Linked q pos → ∀ c, s'.Holds q c → s.tree.occupant? pos = some c := by
    rintro q pos ⟨d, hf, -⟩ c ⟨e, he, hc⟩
    obtain rfl : d = e := Option.some.inj (hf.data.symm.trans he)
    rw [← hg.tree, ← hf.node]
    exact hc
  induction hl with
  | nil => exact .nil
  | @cons q pos ps places hq hrest ih =>
    obtain ⟨hnot, hnodup⟩ := List.nodup_cons.mp hnodup
    refine .cons (fun q' hq' c c' m hc hc' hm hm' => ?_)
      (ih hnodup fun r hr => hplaces r (by simp [hr]))
    obtain ⟨pos', hpos', hl'⟩ := exists_counterpart hrest hq'
    have heq := hs.forest.below_disjoint (hs.mem_of_holds hp)
      (hplaces pos (by simp)) (hplaces pos' (by simp [hpos'])) (hholds q pos hq c hc)
      (hholds q' pos' hl' c' hc') hm hm'
    exact hnot (heq ▸ hpos')

/-- Parts that have no node in common open no scope in common. -/
theorem pairwise_disjoint_of_apart {s' : Session} {ps : List PathId}
    (hapart : ps.Pairwise fun q q' => ∀ c c' m, s'.Holds q c → s'.Holds q' c' →
      Relation.ReflTransGen s.tree.IsChild c m → ¬ Relation.ReflTransGen s.tree.IsChild c' m)
    (F : PathId → Set Fact)
    (hF : ∀ q ∈ ps, ∀ b, .opens b ∈ F q → ∃ c, s'.Holds q c ∧ .opens b ∈ s.tree.facts c) :
    ps.Pairwise fun q q' => ∀ b, .opens b ∈ F q → .opens b ∉ F q' := by
  refine hapart.imp_of_mem fun {q q'} hq hq' h b hb hb' => ?_
  obtain ⟨c, hc, hbc⟩ := hF q hq b hb
  obtain ⟨c', hc', hbc'⟩ := hF q' hq' b hb'
  exact h c c' b hc hc' (Tree.opens_mem_facts hbc) (Tree.opens_mem_facts hbc')

/-- The places of a list, with what stands there. -/
theorem Tree.mem_items_iff {t : Tree} {f : Field} {ids : List NodeId}
    (hf : t.field? n f = some (.many ids)) {pos : Position} :
    pos ∈ (List.range ids.length).map (Position.item n f) ↔
      ∃ m e, pos = .item n f m ∧ ids[m]? = some e ∧ t.occupant? pos = some e := by
  simp only [List.mem_map, List.mem_range]
  constructor
  · rintro ⟨m, hm, rfl⟩
    exact ⟨m, ids[m], rfl, by simp [hm],
      by simp [Tree.occupant?, Tree.list?, hf, Child.list?, hm]⟩
  · rintro ⟨m, e, rfl, hm, -⟩
    exact ⟨m, (List.getElem?_eq_some_iff.mp hm).1, rfl⟩

/-- What the elements of a list are when they are reached. -/
structure Session.Elements (s : Session) (K : Set NodeId) (n : NodeId) (f : Field)
    (ids : List NodeId) (qs : List PathId) (s' : Session) : Prop extends Went s K s' where
  reached : ∀ q ∈ qs, ∃ e ∈ ids, ∃ pos, s'.Linked q pos ∧ pos.parent? = some n ∧
    s.tree.occupant? pos = some e
  all : ∀ e ∈ ids, ∃ q ∈ qs, s'.Holds q e
  apart : qs.Pairwise fun q q' => ∀ c c' m, s'.Holds q c → s'.Holds q' c' →
    Relation.ReflTransGen s.tree.IsChild c m → ¬ Relation.ReflTransGen s.tree.IsChild c' m

theorem PathId.elements_reached (hs : s.Sound K) (hp : s.Holds p n) {f : Field}
    {ids : List NodeId} (hf : s.tree.field? n f = some (.many ids)) :
    Returns (p.elements f) s (s.Elements K n f ids) := by
  refine (PathId.elements_returns hs hp hf).mono fun qs s₁ hqs => ⟨hqs.toWent, ?_, ?_, ?_⟩
  · intro q hq
    obtain ⟨pos, hpos, hl⟩ := exists_counterpart hqs.linked hq
    obtain ⟨m, e, rfl, hm, hocc⟩ := (Tree.mem_items_iff hf).mp hpos
    exact ⟨e, List.mem_of_getElem? hm, _, hl, rfl, hocc⟩
  · intro e he
    have hcover := hqs.covers fun pos hpos => by
      obtain ⟨m, e, -, -, hocc⟩ := (Tree.mem_items_iff hf).mp hpos
      exact ⟨e, hocc⟩
    obtain ⟨m, hm⟩ := List.mem_iff_getElem?.mp he
    have hocc : s.tree.occupant? (.item n f m) = some e := by
      simp [Tree.occupant?, Tree.list?, hf, Child.list?, hm]
    exact (hcover.holds e).mpr ⟨_, (Tree.mem_items_iff hf).mpr ⟨m, e, rfl, hm, hocc⟩, hocc⟩
  · refine pairwise_apart_of_linked hs hp hqs.grew hqs.linked
      (List.nodup_range.map fun a b hab => by simpa using hab) fun pos hpos => ?_
    obtain ⟨m, e, rfl, -, -⟩ := (Tree.mem_items_iff hf).mp hpos
    rfl

/-- A step for each element of a list. -/
theorem elements_walked (hs : s.Sound K) (ho : s.scopes.Ordered) (hp : s.Holds p n) {f : Field}
    {ids : List NodeId} (hf : s.tree.field? n f = some (.many ids)) (step : PathId → SessionM Uses)
    (F : NodeId → Set Fact) (hopens : ∀ e b, .opens b ∈ F e → .opens b ∈ s.tree.facts e)
    (hstep : ∀ q e pos s₁, e ∈ ids → s.Surveys K s₁ → s₁.Linked q pos → pos.parent? = some n →
      s.tree.occupant? pos = some e → Returns (step q) s₁ (s₁.Walked K G (F e))) :
    Returns (do (← p.elements f).mapM step) s fun us s' =>
      s.Walked K G {fact | ∃ e ∈ ids, fact ∈ F e} (.concat us) s' := by
  refine (PathId.elements_reached hs hp hf).bind fun qs s₁ hqs => ?_
  have hsur := hqs.toWent.surveys ho
  refine (mapM_walked (G := G) qs step (fun q => {fact | ∃ e, s₁.Holds q e ∧ fact ∈ F e})
    hsur.sound hsur.ordered (fun _ => pairwise_disjoint_of_apart hqs.apart _ ?_) ?_).mono
      fun us s₂ hus => ?_
  · rintro q - b ⟨e, he, hb⟩
    exact ⟨e, he, hopens e b hb⟩
  · intro q hq s₂ hs₂
    obtain ⟨e, he, pos, hl, hpos, hocc⟩ := hqs.reached q hq
    have hqe : s₁.Holds q e := hl.holds (by rw [hqs.tree]; exact hocc)
    refine (hstep q e pos s₂ he (hsur.trans hs₂) (hl.grew hsur.sound hs₂.grew) hpos hocc).mono
      fun u s₃ hu => hu.congr fun _ fact => ⟨fun hfact => ⟨e, hqe, hfact⟩, ?_⟩
    rintro ⟨e', he', hfact⟩
    rw [hqe.unique_node he']
    exact hfact
  · rw [← Uses.empty_append (Uses.concat us)]
    refine ((hqs.toWent.walked hs ho).trans hus (by simp)).congr fun _ fact => ?_
    simp only [Set.empty_union, Set.mem_ofPred_eq]
    constructor
    · rintro ⟨q, hq, e, he, hfact⟩
      obtain ⟨e', he', pos, hl, -, hocc⟩ := hqs.reached q hq
      have hqe : s₁.Holds q e' := hl.holds (by rw [hqs.tree]; exact hocc)
      exact ⟨e, hqe.unique_node he ▸ he', hfact⟩
    · rintro ⟨e, he, hfact⟩
      obtain ⟨q, hq, hqe⟩ := hqs.all e he
      exact ⟨q, hq, e, hqe, hfact⟩

/-- A step for each element of a list that opens no scope and collects no uses. -/
theorem forM_elements_walked (hs : s.Sound K) (ho : s.scopes.Ordered) (hp : s.Holds p n)
    {f : Field} {ids : List NodeId} (hf : s.tree.field? n f = some (.many ids))
    (step : PathId → SessionM Unit) (F : NodeId → Set Fact) (hopens : ∀ e b, .opens b ∉ F e)
    (hstep : ∀ q e pos s₁, e ∈ ids → s.Surveys K s₁ → s₁.Linked q pos → pos.parent? = some n →
      s.tree.occupant? pos = some e → Returns (step q) s₁ fun _ s' => s₁.Walked K G (F e) {} s') :
    Returns (do (← p.elements f).forM step) s fun _ s' =>
      s.Walked K G {fact | ∃ e ∈ ids, fact ∈ F e} {} s' := by
  refine (PathId.elements_reached hs hp hf).bind fun qs s₁ hqs => ?_
  have hsur := hqs.toWent.surveys ho
  refine (forM_walked (G := G) qs step (fun q => {fact | ∃ e, s₁.Holds q e ∧ fact ∈ F e})
    hsur.sound hsur.ordered ?_ ?_).mono fun _ s₂ hus => ?_
  · rintro - q - b ⟨e, -, hb⟩
    exact hopens e b hb
  · intro q hq s₂ hs₂
    obtain ⟨e, he, pos, hl, hpos, hocc⟩ := hqs.reached q hq
    have hqe : s₁.Holds q e := hl.holds (by rw [hqs.tree]; exact hocc)
    refine (hstep q e pos s₂ he (hsur.trans hs₂) (hl.grew hsur.sound hs₂.grew) hpos hocc).mono
      fun u s₃ hu => hu.congr fun _ fact => ⟨fun hfact => ⟨e, hqe, hfact⟩, ?_⟩
    rintro ⟨e', he', hfact⟩
    rw [hqe.unique_node he']
    exact hfact
  · rw [← Uses.empty_append {}]
    refine ((hqs.toWent.walked hs ho).trans hus (by simp)).congr fun _ fact => ?_
    simp only [Set.empty_union, Set.mem_ofPred_eq]
    constructor
    · rintro ⟨q, hq, e, he, hfact⟩
      obtain ⟨e', he', pos, hl, -, hocc⟩ := hqs.reached q hq
      have hqe : s₁.Holds q e' := hl.holds (by rw [hqs.tree]; exact hocc)
      exact ⟨e, hqe.unique_node he ▸ he', hfact⟩
    · rintro ⟨e, he, hfact⟩
      obtain ⟨q, hq, hqe⟩ := hqs.all e he
      exact ⟨q, hq, e, hqe, hfact⟩

/-- Walking the paths in a field. -/
theorem walkField_walked (hwalk : WalksTo K G walk d) (h : s.Above K G p n i)
    (hk : s.tree.kind? n = some k) (hd : ∀ c ∈ k.children, s.tree.DepthWithin d c) (f : Field) :
    Returns (do pure (Uses.concat (← (← p.inField f).mapM fun child => walk child i))) s
      (s.Walked K G (s.tree.factsIn n f)) := by
  refine (PathId.inField_returns h.sound h.holds f).bind fun ps s₁ hps => ?_
  have hsur := hps.toWent.surveys h.ordered
  have habove := h.later hsur
  have hcover := hps.covers fun _ => Tree.spots_occupied
  have hwalks := mapM_walked (G := G) ps (fun child => walk child i)
    (fun q => {fact | ∃ c, s₁.Holds q c ∧ fact ∈ s.tree.facts c}) hsur.sound hsur.ordered
    (fun _ => pairwise_disjoint_of_apart (pairwise_apart_of_linked h.sound h.holds hps.grew
      hps.linked (Tree.nodup_spots f) fun pos hpos => (Tree.parent?_of_mem_spots hpos).1) _
      fun q _ b hb => hb)
    (by
      intro q hq s₂ hs₂
      obtain ⟨pos, hpos, hl⟩ := exists_counterpart hps.linked hq
      obtain ⟨c, hc⟩ := Tree.spots_occupied hpos
      have hparent := (Tree.parent?_of_mem_spots hpos).1
      have hc₁ : s₁.tree.occupant? pos = some c := by rw [hps.tree]; exact hc
      have hat := ((habove.enter hl hparent hc₁).later hs₂)
      have hdepth : s₂.tree.DepthWithin d c := by
        rw [hs₂.tree, hps.tree]
        obtain ⟨k', hk', hmem⟩ := (s.tree.isChild_iff n c).mp ⟨pos, hparent, hc⟩
        obtain rfl : k = k' := Option.some.inj (hk.symm.trans hk')
        exact hd c hmem
      refine (hwalk s₂ q c i hat hdepth).mono fun u s₃ hu => hu.congr fun _ fact => ?_
      rw [hs₂.tree, hps.tree]
      constructor
      · exact fun hf => ⟨c, hl.holds hc₁, hf⟩
      · rintro ⟨c', hc', hf⟩
        rw [(hl.holds hc₁).unique_node hc']
        exact hf)
  refine hwalks.bind fun us s₂ hus => .pure ?_
  rw [← Uses.empty_append (Uses.concat us)]
  refine ((hps.toWent.walked h.sound h.ordered).trans hus (by simp)).congr fun _ fact => ?_
  simp only [Set.empty_union, Set.mem_ofPred_eq, Tree.factsIn]
  constructor
  · rintro ⟨q, hq, c, hc, hf⟩
    obtain ⟨pos, hpos, hocc⟩ := (hcover.holds c).mp ⟨q, hq, hc⟩
    exact ⟨pos, hpos, c, hocc, hf⟩
  · rintro ⟨pos, hpos, c, hocc, hf⟩
    obtain ⟨q, hq, hc⟩ := (hcover.holds c).mpr ⟨pos, hpos, hocc⟩
    exact ⟨q, hq, c, hc, hf⟩

/-- Walking the children of a node notes the facts of everything below it. -/
theorem walkChildren_walked (hwalk : WalksTo K G walk d) (h : s.Above K G p n i)
    (hk : s.tree.kind? n = some k) (hd : ∀ c ∈ k.children, s.tree.DepthWithin d c) :
    Returns (walkChildren walk p i) s (s.Walked K G (s.tree.factsBelow n)) := by
  unfold walkChildren
  refine returns_bind_of_ok (PathId.type?_run_of_holds h.holds hk) ?_
  have hfields := mapM_walked (G := G) k.type.visitorFields
    (fun f => do pure (Uses.concat (← (← p.inField f).mapM fun child => walk child i)))
    (s.tree.factsIn n) h.sound h.ordered
    (fun _ => k.type.nodup_visitorFields.imp fun hfg b =>
      h.sound.forest.factsIn_disjoint (h.sound.mem_of_holds h.holds) hfg b)
    (by
      intro f _ s₁ hs₁
      have hk₁ : s₁.tree.kind? n = some k := by rw [hs₁.tree]; exact hk
      refine (walkField_walked hwalk (h.later hs₁) hk₁ ?_ f).mono fun u s₂ hu => ?_
      · rw [hs₁.tree]
        exact hd
      · rw [hs₁.tree] at hu
        exact hu)
  refine hfields.bind fun us s₁ hus => .pure (hus.congr fun _ f => ?_)
  exact (Tree.mem_factsBelow_iff hk f).symm

end Children

end Espalier
