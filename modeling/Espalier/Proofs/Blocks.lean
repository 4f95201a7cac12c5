import Espalier.Proofs.Charting
import Espalier.Proofs.Declaring
import Espalier.Proofs.Relisting

set_option autoImplicit false

/-! # Which blocks a crawl opens scopes for

A crawl of a block opens scopes for the block and for blocks below it, at most one for each, and
finds each of them by its node (`Session.Opened`). What else registers names opens no scope at all
(`Lodging`). The walk of a subtree is taken apart as the walk is: two children of one node have
nothing below them in common, so no scope that one of them was given is overwritten by the other. -/

namespace Espalier

open SessionM Session

variable {α β : Type}

/-! ## Computations that open no scope -/

/-- There are as many scopes, and they are found by the same nodes. -/
def Session.Lodges (s s' : Session) : Prop :=
  s'.scopes.byBlock = s.scopes.byBlock ∧ s'.scopes.scopes.size = s.scopes.scopes.size

theorem Session.Lodges.refl (s : Session) : s.Lodges s := ⟨rfl, rfl⟩

theorem Session.Lodges.trans (s s₁ s₂ : Session) (h₁ : s.Lodges s₁) (h₂ : s₁.Lodges s₂) :
    s.Lodges s₂ := ⟨h₂.1.trans h₁.1, h₂.2.trans h₁.2⟩

/-- The computation opens no scope. -/
def Lodging (x : SessionM α) : Prop := Leads Session.Lodges x

namespace Lodging

theorem composed {Primitive : (α : Type) → SessionM α → Prop} {x : SessionM α}
    (hx : Composed Primitive x) (h : ∀ α (x : SessionM α), Primitive α x → Lodging x) :
    Lodging x := hx.leads Lodges.refl Lodges.trans h

theorem bind {x : SessionM α} {f : α → SessionM β} (hx : Lodging x) (hf : ∀ a, Lodging (f a)) :
    Lodging (x >>= f) := Leads.bind Lodges.trans hx hf

theorem question {x : SessionM α} (hx : Composed (fun _ _ => False) x) : Lodging x :=
  composed hx fun _ _ h => h.elim

theorem navigating {x : SessionM α} (hx : Navigating x) : Lodging x := by
  intro s
  have hscopes : (after x s).scopes = s.scopes := hx.scopes s
  exact ⟨by rw [hscopes], by rw [hscopes]⟩

theorem modifyData (i : ScopeId) (f : Scope → Scope) : Lodging (i.modifyData f) :=
  (question (.scopeData i)).bind fun _ s => ⟨rfl, size_mapScope s i f⟩

section Name

variable (i : ScopeId) (name : String)

theorem noteReference : Lodging (i.noteReference name) :=
  (question (.programScope i)).bind fun j => modifyData j _

theorem registerBinding (kind : BindingKind) (path : PathId) (identifier : NodeId) :
    Lodging (i.registerBinding name kind path identifier) := by
  have hstore : ∀ b : Binding, Lodging (i.modifyData fun d =>
      { d with bindings := d.bindings.insert name b }) := fun b => modifyData i _
  refine (noteReference i name).bind fun _ => (question (.ownBinding? i name)).bind fun o => ?_
  cases o with
  | none => exact hstore _
  | some old =>
    dsimp only
    split
    · exact question (.pure _)
    · exact hstore _

end Name

/-! ### Declarations -/

private theorem navigates {x : SessionM α} (hx : Navigating x) :
    Composed (fun _ y => Lodging y) x := .primitive (navigating hx)

private theorem registers (i : ScopeId) (name : String) (kind : BindingKind) (path : PathId)
    (identifier : NodeId) : Composed (fun _ y => Lodging y)
      (i.registerBinding name kind path identifier) :=
  .primitive (registerBinding i name kind path identifier)

theorem registerPattern (pattern : PathId) (kind : BindingKind) (i : ScopeId) (site : PathId) :
    Lodging (registerPattern pattern kind i site) :=
  composed (.registerPattern navigates registers pattern kind i site) fun _ _ h => h

theorem registerFunctionName (function : PathId) (kind : BindingKind) (i : ScopeId) :
    Lodging (registerFunctionName function kind i) :=
  composed (.registerFunctionName navigates registers function kind i) fun _ _ h => h

theorem registerImports (p : PathId) (i : ScopeId) : Lodging (registerImports p i) :=
  composed (.registerImports navigates registers p i) fun _ _ h => h

theorem registerDeclarators (p : PathId) (kind : VariableKind) (i : ScopeId) :
    Lodging (registerDeclarators p kind i fun _ => pure {}) :=
  composed (.registerDeclarators navigates registers p kind i fun _ => .pure _) fun _ _ h => h

end Lodging

/-! ## Scopes for the nodes of a set -/

/-- Everything strictly below a node. -/
def Tree.beneath (t : Tree) (n : NodeId) : Set NodeId := {m | Relation.TransGen t.IsChild n m}

namespace Session

/-- The path of the block of a scope holds a node, or was removed. -/
def Housed (s : Session) : Prop :=
  ∀ (i : Nat) (sc : Scope), s.scopes.scopes[i]? = some sc →
    (∃ b, s.Holds sc.block b) ∨ s.Gone sc.block

theorem Housed.known {s : Session} (h : s.Housed) {i : Nat} {sc : Scope}
    (hsc : s.scopes.scopes[i]? = some sc) : ∃ d, s.paths[sc.block.index]? = some d := by
  rcases h i sc hsc with ⟨b, d, hd, -⟩ | ⟨d, hd, -⟩
  · exact ⟨d, hd⟩
  · exact ⟨d, hd⟩

/-- The second session has gone on with the scopes of the first one: some nodes of a set were given
a scope, each at most one, which is found by the node. -/
structure Opened (s : Session) (K R : Set NodeId) (s' : Session) : Prop extends Surveys s K s' where
  kept : ∀ b, b ∉ R → s'.scopes.byBlock.get? b = s.scopes.byBlock.get? b
  found : ∀ b i, s'.scopes.byBlock.get? b = some i →
    s.scopes.byBlock.get? b = some i ∨ s'.ScopeOf i b
  housed : s.Housed → s'.Housed
  single : s.Housed → ∀ i b, s'.ScopeOf i b →
    s.ScopeOf i b ∨ (b ∈ R ∧ s'.scopes.byBlock.get? b = some i)

section Opened

variable {s s₁ s₂ : Session} {K R R₁ R₂ : Set NodeId}

/-- What opens no scope leaves the scopes to their blocks. -/
theorem Surveys.opened (h : s.Surveys K s₁) (hl : s.Lodges s₁) (hs : s.Sound K) :
    s.Opened K ∅ s₁ := by
  have hback : ∀ (i : Nat) (sc' : Scope), s₁.scopes.scopes[i]? = some sc' →
      ∃ sc : Scope, s.scopes.scopes[i]? = some sc ∧ sc'.block = sc.block := by
    intro i sc' hsc'
    have hlt : i < s.scopes.scopes.size := hl.2 ▸ (Array.getElem?_eq_some_iff.mp hsc').1
    obtain ⟨sc₁, hsc₁, hplace, -⟩ := h.widened.scope i _ (Array.getElem?_eq_getElem hlt)
    obtain rfl : sc' = sc₁ := Option.some.inj (hsc'.symm.trans hsc₁)
    simp only [Scope.place, Prod.mk.injEq] at hplace
    exact ⟨_, Array.getElem?_eq_getElem hlt, hplace.1⟩
  refine ⟨h, fun b _ => by rw [hl.1], fun b i hi => .inl (by rw [← hl.1, hi]), ?_, ?_⟩
  · intro hh i sc' hsc'
    obtain ⟨sc, hsc, hblock⟩ := hback i sc' hsc'
    rw [hblock]
    exact (hh i sc hsc).imp (fun hb => hb.imp fun b hb => h.grew.holds hs hb) h.grew.gone
  · rintro hh i b ⟨sc', hsc', hb⟩
    obtain ⟨sc, hsc, hblock⟩ := hback i.index sc' hsc'
    obtain ⟨d, hd⟩ := hh.known hsc
    rw [hblock] at hb
    exact .inl ⟨sc, hsc, (h.grew.holds_iff hs hd b).mp hb⟩

theorem Opened.refl (hs : s.Sound K) (ho : s.scopes.Ordered) : s.Opened K ∅ s :=
  Surveys.opened (.refl hs ho) (.refl s) hs

theorem Went.opened (h : s.Went K s₁) (hs : s.Sound K) (ho : s.scopes.Ordered) :
    s.Opened K ∅ s₁ :=
  (h.surveys ho).opened ⟨by rw [h.scopes], by rw [h.scopes]⟩ hs

theorem Opened.mono (h : s.Opened K R₁ s₁) (hR : ∀ b ∈ R₁, b ∈ R₂) : s.Opened K R₂ s₁ where
  toSurveys := h.toSurveys
  kept b hb := h.kept b fun hmem => hb (hR b hmem)
  found := h.found
  housed := h.housed
  single hh i b hi := (h.single hh i b hi).imp id fun hb => ⟨hR b hb.1, hb.2⟩

/-- Scopes for two sets without a common node, one after the other. -/
theorem Opened.trans (h₁ : s.Opened K R₁ s₁) (h₂ : s₁.Opened K R₂ s₂)
    (hdisjoint : ∀ b ∈ R₁, b ∉ R₂) : s.Opened K (R₁ ∪ R₂) s₂ where
  toSurveys := h₁.toSurveys.trans h₂.toSurveys
  kept b hb := by
    rw [Set.mem_union, not_or] at hb
    rw [h₂.kept b hb.2, h₁.kept b hb.1]
  found b i hi := by
    rcases h₂.found b i hi with hi | hi
    · exact (h₁.found b i hi).imp id fun hi => hi.later h₁.sound h₂.toSurveys
    · exact .inr hi
  housed hh := h₂.housed (h₁.housed hh)
  single hh i b hi := by
    rcases h₂.single (h₁.housed hh) i b hi with hi | ⟨hb, hi⟩
    · refine (h₁.single hh i b hi).imp id fun ⟨hb, hi⟩ => ⟨.inl hb, ?_⟩
      rw [h₂.kept b (hdisjoint b hb), hi]
    · exact .inr ⟨.inr hb, hi⟩

/-- What opens no scope may come first. -/
theorem Opened.after_lodging (h₁ : s.Opened K ∅ s₁) (h₂ : s₁.Opened K R s₂) : s.Opened K R s₂ :=
  (h₁.trans h₂ fun _ h => h.elim).mono (by simp)

/-- What opens no scope may come last. -/
theorem Opened.before_lodging (h₁ : s.Opened K R s₁) (h₂ : s₁.Opened K ∅ s₂) : s.Opened K R s₂ :=
  (h₁.trans h₂ fun _ _ => id).mono (by simp)

end Opened

end Session

section Steps

variable {s : Session} {K : Set NodeId} {p : PathId} {n : NodeId} {i : ScopeId}

/-- A computation that succeeds in order, and opens no scope. -/
theorem Returns.opened {x : SessionM α} {post : α → Session → Prop} (hs : s.Sound K)
    (hx : Returns x s post) (hl : Lodging x) (hpost : ∀ a s', post a s' → s.Surveys K s') :
    Returns x s fun _ s' => s.Opened K ∅ s' := by
  obtain ⟨a, s', hrun, h⟩ := hx
  have hlodges : s.Lodges s' := after_of_ok hrun ▸ hl s
  exact ⟨a, s', hrun, (hpost a s' h).opened hlodges hs⟩

/-- A new scope is the one of its block. -/
theorem createScope_opened (hs : s.Sound K) (ho : s.scopes.Ordered) (hp : s.Holds p n)
    (parent : Option ScopeId) (hparent : ∀ j, parent = some j → s.HasScope j) :
    Returns (createScope p parent) s fun i s' => s.Opened K {n} s' ∧ s'.ScopeOf i n := by
  obtain ⟨k, hk⟩ := hs.forest.kind n (hs.mem_of_holds hp)
  obtain ⟨i, s', hrun, hwalked, hi⟩ := createScope_walked (G := False) hs ho hp parent hparent
    False.elim False.elim
  obtain ⟨rfl, rfl⟩ : (⟨s.scopes.scopes.size⟩ : ScopeId) = i ∧
      s.addScope n { block := p, blockType := k.type, parent } = s' := by
    rw [createScope_run hp hk parent] at hrun
    exact ⟨by cases hrun; rfl, by cases hrun; rfl⟩
  have hget : ∀ b, (s.addScope n { block := p, blockType := k.type, parent }).scopes.byBlock.get? b =
      if b = n then some ⟨s.scopes.scopes.size⟩ else s.scopes.byBlock.get? b :=
    fun b => Table.get?_insert ..
  refine ⟨_, _, hrun, ⟨hwalked.toSurveys, fun b hb => ?_, fun b i hi => ?_, fun hh j sc hsc => ?_,
    fun _ j b hj => ?_⟩, hi⟩
  · rw [hget, if_neg (show b ≠ n from hb)]
  · rw [hget] at hi
    split at hi
    · next hb =>
      obtain rfl := Option.some.inj hi
      exact .inr ((scopeOf_addScope hp _ b).mpr (.inr ⟨rfl, hb⟩))
    · exact .inl hi
  · rw [getElem?_addScope] at hsc
    split at hsc
    · obtain rfl := Option.some.inj hsc
      exact .inl ⟨n, hp⟩
    · exact hh j sc hsc
  · rcases (scopeOf_addScope hp j b).mp hj with hj | ⟨rfl, rfl⟩
    · exact .inl hj
    · exact .inr ⟨rfl, by rw [hget, if_pos rfl]⟩

theorem registerPattern_opened {pattern : PathId} {d : PathData} (hs : s.Sound K)
    (ho : s.scopes.Ordered) (hi : s.HasScope i) (hd : s.paths[pattern.index]? = some d)
    (kind : BindingKind) (site : PathId) :
    Returns (registerPattern pattern kind i site) s fun _ s' => s.Opened K ∅ s' :=
  (registerPattern_walked (G := False) (F := ∅) hs ho hi hd kind site False.elim).opened hs
    (.registerPattern pattern kind i site) fun _ _ h => h.toSurveys

theorem registerFunctionName_opened (hs : s.Sound K) (ho : s.scopes.Ordered) (hi : s.HasScope i)
    (hp : s.Holds p n) (kind : BindingKind) :
    Returns (registerFunctionName p kind i) s fun _ s' => s.Opened K ∅ s' :=
  (registerFunctionName_walked (G := False) (F := ∅) hs ho hi hp kind False.elim).opened hs
    (.registerFunctionName p kind i) fun _ _ h => h.toSurveys

/-- Steps that give scopes to sets without a common node. -/
theorem mapM_opened (l : List α) (f : α → SessionM β) (R : α → Set NodeId) (hs : s.Sound K)
    (ho : s.scopes.Ordered) (hapart : l.Pairwise fun a a' => ∀ b ∈ R a, b ∉ R a')
    (hstep : ∀ a ∈ l, ∀ s₁, s.Surveys K s₁ →
      Returns (f a) s₁ fun _ s' => s₁.Opened K (R a) s') :
    Returns (l.mapM f) s fun _ s' => s.Opened K {b | ∃ a ∈ l, b ∈ R a} s' := by
  induction l generalizing s with
  | nil => exact .pure ((Opened.refl hs ho).mono fun _ h => h.elim)
  | cons a l ih =>
    obtain ⟨ha, hl⟩ := List.pairwise_cons.mp hapart
    rw [List.mapM_cons]
    refine (hstep a (by simp) s (.refl hs ho)).bind fun _ s₁ h₁ => ?_
    have hrest := ih h₁.sound h₁.ordered hl fun a' ha' s₂ h₂ =>
      hstep a' (by simp [ha']) s₂ (h₁.toSurveys.trans h₂)
    refine hrest.bind fun _ s₂ h₂ => .pure ((h₁.trans h₂ ?_).mono ?_)
    · rintro b hb ⟨a', ha', hb'⟩
      exact ha a' ha' b hb hb'
    · rintro b (hb | ⟨a', ha', hb⟩)
      · exact ⟨a, by simp, hb⟩
      · exact ⟨a', by simp [ha'], hb⟩

end Steps

/-! ## Parts of a tree -/

namespace Tree

variable {t : Tree} {K : Set NodeId} {n c m : NodeId} {pos pos' : Position}

theorem mem_below_singleton : m ∈ t.below [n] ↔ Relation.ReflTransGen t.IsChild n m := by
  simp [below]

theorem beneath_of_child (hc : t.IsChild n c) (hm : m ∈ t.below [c]) : m ∈ t.beneath n :=
  .head' hc (mem_below_singleton.mp hm)

theorem below_of_beneath (hm : m ∈ t.beneath n) : m ∈ t.below [n] :=
  mem_below_singleton.mpr hm.to_reflTransGen

/-- Everything in a field of a node, and below it. -/
def beneathIn (t : Tree) (n : NodeId) (f : Field) : Set NodeId :=
  {m | ∃ pos ∈ t.spots n f, ∃ c, t.occupant? pos = some c ∧ m ∈ t.below [c]}

/-- Different positions of a node have nothing below them in common. -/
theorem Forest.below_apart (h : t.Forest K) (hn : n ∈ K) (hpos : pos.parent? = some n)
    (hpos' : pos'.parent? = some n) (hne : pos ≠ pos') {c' : NodeId}
    (hc : t.occupant? pos = some c) (hc' : t.occupant? pos' = some c') (hm : m ∈ t.below [c]) :
    m ∉ t.below [c'] := fun hm' =>
  hne (h.below_disjoint hn hpos hpos' hc hc' (mem_below_singleton.mp hm)
    (mem_below_singleton.mp hm'))

theorem Forest.beneathIn_apart (h : t.Forest K) (hn : n ∈ K) {f g : Field} (hfg : f ≠ g)
    (hm : m ∈ t.beneathIn n f) : m ∉ t.beneathIn n g := by
  rintro ⟨pos', hpos', c', hc', hm'⟩
  obtain ⟨pos, hpos, c, hc, hm⟩ := hm
  obtain ⟨hp, hf⟩ := parent?_of_mem_spots hpos
  obtain ⟨hp', hg⟩ := parent?_of_mem_spots hpos'
  refine h.below_apart hn hp hp' (fun heq => hfg ?_) hc hc' hm hm'
  rw [heq, hg] at hf
  exact (Option.some.inj hf).symm

theorem beneath_of_beneathIn {f : Field} (hm : m ∈ t.beneathIn n f) : m ∈ t.beneath n := by
  obtain ⟨pos, hpos, c, hc, hm⟩ := hm
  exact beneath_of_child ⟨pos, (parent?_of_mem_spots hpos).1, hc⟩ hm

end Tree

/-! ## The walk of a subtree -/

/-- The walk gives scopes to nodes of the subtree it enters, and to no others. -/
def WalksIn (K : Set NodeId) (walk : PathId → ScopeId → SessionM Uses) (d : Nat) : Prop :=
  ∀ s p n i, s.At K False p n i → s.tree.DepthWithin d n →
    Returns (walk p i) s fun _ s' => s.Opened K (s.tree.below [n]) s'

section Walk

variable {s : Session} {K : Set NodeId} {p q : PathId} {n c : NodeId} {k : NodeKind}
  {i : ScopeId} {d : Nat} {walk : PathId → ScopeId → SessionM Uses}

/-- Walking the paths in a field. -/
theorem walkField_opened (hwalk : WalksIn K walk d) (h : s.Above K False p n i)
    (hk : s.tree.kind? n = some k) (hd : ∀ c ∈ k.children, s.tree.DepthWithin d c) (f : Field) :
    Returns (do pure (Uses.concat (← (← p.inField f).mapM fun child => walk child i))) s
      fun _ s' => s.Opened K (s.tree.beneathIn n f) s' := by
  refine (PathId.inField_returns h.sound h.holds f).bind fun ps s₁ hps => ?_
  have hsur := hps.toWent.surveys h.ordered
  have habove := h.later hsur
  have hparent := fun pos (hpos : pos ∈ s.tree.spots n f) => (Tree.parent?_of_mem_spots hpos).1
  have hapart := pairwise_apart_of_linked h.sound h.holds hps.grew hps.linked (Tree.nodup_spots f)
    hparent
  have hwalks := mapM_opened ps (fun child => walk child i)
    (fun q => {m | ∃ c, s₁.Holds q c ∧ m ∈ s.tree.below [c]}) hsur.sound hsur.ordered
    (hapart.imp fun h m hm hm' => by
      obtain ⟨c, hc, hm⟩ := hm
      obtain ⟨c', hc', hm'⟩ := hm'
      exact h c c' m hc hc' (Tree.mem_below_singleton.mp hm) (Tree.mem_below_singleton.mp hm'))
    (by
      intro q hq s₂ hs₂
      obtain ⟨pos, hpos, hl⟩ := exists_counterpart hps.linked hq
      obtain ⟨c, hc⟩ := Tree.spots_occupied hpos
      have hc₁ : s₁.tree.occupant? pos = some c := by rw [hps.tree]; exact hc
      have hat := (habove.enter hl (hparent pos hpos) hc₁).later hs₂
      have hdepth : s₂.tree.DepthWithin d c := by
        rw [hs₂.tree, hps.tree]
        obtain ⟨k', hk', hmem⟩ := (s.tree.isChild_iff n c).mp ⟨pos, hparent pos hpos, hc⟩
        obtain rfl : k = k' := Option.some.inj (hk.symm.trans hk')
        exact hd c hmem
      refine (hwalk s₂ q c i hat hdepth).mono fun _ s₃ hu => hu.mono fun m hm => ?_
      rw [hs₂.tree, hps.tree] at hm
      exact ⟨c, hl.holds hc₁, hm⟩)
  refine hwalks.bind fun _ s₂ hus => .pure ?_
  refine (Opened.after_lodging (hps.toWent.opened h.sound h.ordered) hus).mono ?_
  rintro m ⟨q, hq, c, hqc, hm⟩
  obtain ⟨pos, hpos, hl⟩ := exists_counterpart hps.linked hq
  obtain ⟨c', hc'⟩ := Tree.spots_occupied hpos
  obtain rfl := hqc.unique_node (hl.holds (by rw [hps.tree]; exact hc'))
  exact ⟨pos, hpos, c, hc', hm⟩

/-- Walking the children of a node. -/
theorem walkChildren_opened (hwalk : WalksIn K walk d) (h : s.Above K False p n i)
    (hk : s.tree.kind? n = some k) (hd : ∀ c ∈ k.children, s.tree.DepthWithin d c) :
    Returns (walkChildren walk p i) s fun _ s' => s.Opened K (s.tree.beneath n) s' := by
  unfold walkChildren
  refine returns_bind_of_ok (PathId.type?_run_of_holds h.holds hk) ?_
  have hn := h.sound.mem_of_holds h.holds
  have hfields := mapM_opened k.type.visitorFields
    (fun f => do pure (Uses.concat (← (← p.inField f).mapM fun child => walk child i)))
    (s.tree.beneathIn n) h.sound h.ordered
    (k.type.nodup_visitorFields.imp fun hfg m hm => h.sound.forest.beneathIn_apart hn hfg hm)
    (by
      intro f _ s₁ hs₁
      have hk₁ : s₁.tree.kind? n = some k := by rw [hs₁.tree]; exact hk
      have hfield := walkField_opened hwalk (h.later hs₁) hk₁ (by rw [hs₁.tree]; exact hd) f
      rwa [hs₁.tree] at hfield)
  refine hfields.bind fun _ s₁ hus => .pure (hus.mono ?_)
  rintro m ⟨f, -, hm⟩
  exact Tree.beneath_of_beneathIn hm

/-- A step for each element of a list. -/
theorem elements_opened (hs : s.Sound K) (ho : s.scopes.Ordered) (hp : s.Holds p n) {f : Field}
    {ids : List NodeId} (hf : s.tree.field? n f = some (.many ids)) (step : PathId → SessionM α)
    (R : NodeId → Set NodeId) (hR : ∀ e, ∀ m ∈ R e, m ∈ s.tree.below [e])
    (hstep : ∀ q e pos s₁, e ∈ ids → s.Surveys K s₁ → s₁.Linked q pos → pos.parent? = some n →
      s.tree.occupant? pos = some e → Returns (step q) s₁ fun _ s' => s₁.Opened K (R e) s') :
    Returns (do (← p.elements f).mapM step) s fun _ s' =>
      s.Opened K {m | ∃ e ∈ ids, m ∈ R e} s' := by
  refine (PathId.elements_reached hs hp hf).bind fun qs s₁ hqs => ?_
  have hsur := hqs.toWent.surveys ho
  have hapart := hqs.apart
  refine (mapM_opened qs step (fun q => {m | ∃ e ∈ ids, s₁.Holds q e ∧ m ∈ R e}) hsur.sound
    hsur.ordered (hapart.imp fun h m hm hm' => ?_) fun q hq s₂ hs₂ => ?_).mono fun us s₂ hus => ?_
  · obtain ⟨e, -, he, hm⟩ := hm
    obtain ⟨e', -, he', hm'⟩ := hm'
    exact h e e' m he he' (Tree.mem_below_singleton.mp (hR e m hm))
      (Tree.mem_below_singleton.mp (hR e' m hm'))
  · obtain ⟨e, he, pos, hl, hpos, hocc⟩ := hqs.reached q hq
    have hqe : s₁.Holds q e := hl.holds (by rw [hqs.tree]; exact hocc)
    exact (hstep q e pos s₂ he (hsur.trans hs₂) (hl.grew hsur.sound hs₂.grew) hpos hocc).mono
      fun _ s₃ hu => hu.mono fun m hm => ⟨e, he, hqe, hm⟩
  · refine (Opened.after_lodging (hqs.toWent.opened hs ho) hus).mono ?_
    rintro m ⟨-, -, e, he, -, hm⟩
    exact ⟨e, he, hm⟩

/-- Declaring a parameter and walking it. -/
theorem walkParam_opened (hwalk : WalksIn K walk d) (h : s.Above K False p n i) {pos : Position}
    (hq : s.Linked q pos) (hpos : pos.parent? = some n) (hc : s.tree.occupant? pos = some c)
    (hd : s.tree.DepthWithin d c) (kind : BindingKind) :
    Returns (do registerPattern q kind i q; walk q i) s
      fun _ s' => s.Opened K (s.tree.below [c]) s' := by
  obtain ⟨dq, hdq, -⟩ := hq.holds hc
  refine (registerPattern_opened h.sound h.ordered h.scope hdq kind q).bind fun _ s₁ h₁ => ?_
  have hat := (h.enter hq hpos hc).later h₁.toSurveys
  refine (hwalk s₁ q c i hat (by rw [h₁.tree]; exact hd)).mono fun _ s₂ h₂ => ?_
  rw [h₁.tree] at h₂
  exact h₁.after_lodging h₂

/-- What a path is above of, its child is as well. -/
theorem Session.Above.below (h : s.Above K False p n i) (hq : s.Holds q c) :
    s.Above K False q c i := ⟨h.sound, h.ordered, h.scope, hq, False.elim, False.elim⟩

/-- Walking a catch clause. -/
private theorem walkCatch_opened (hwalk : WalksIn K walk d) (h : s.Above K False p n i)
    {param? : Option NodeId} {body : NodeId}
    (hk : s.tree.kind? n = some (.catchClause param? body))
    (hd : ∀ e ∈ (NodeKind.catchClause param? body).children, s.tree.DepthWithin d e) :
    Returns (walkBlock walk p i) s fun _ s' => s.Opened K (s.tree.beneath n) s' := by
  have hparam : s.tree.field? n .param = some (.opt param?) := by
    simp [Tree.field?, hk, NodeKind.child?, NodeKind.fields]
  have hbody : s.tree.field? n .body = some (.one body) := by
    simp [Tree.field?, hk, NodeKind.child?, NodeKind.fields]
  have hocc : s.tree.occupant? (.slot n .param) = param? := by
    simp [Tree.occupant?, hparam, Child.node?]
  have hoccb : s.tree.occupant? (.slot n .body) = some body := by
    simp [Tree.occupant?, hbody, Child.node?]
  have hn := h.sound.mem_of_holds h.holds
  have hdb := hd body (by simp [NodeKind.children, NodeKind.fields, Child.ids])
  obtain ⟨kb, hkb⟩ := hdb.kind
  unfold walkBlock
  refine returns_bind_of_ok (PathId.type?_run_of_holds h.holds hk) ?_
  refine (PathId.child_arrives h.sound h.holds .param).bind fun q s₁ hq => ?_
  have hwent := hq.toWent.opened h.sound h.ordered
  obtain ⟨dq, hdq, hdn⟩ := hq.known
  -- What follows the head of the clause, whatever the head was.
  have htail : ∀ u s₂, s.Opened K {m | ∃ c, param? = some c ∧ m ∈ s.tree.below [c]} s₂ →
      Returns (do pure (u ++ (← walkChildren walk (← p.child .body) i))) s₂
        fun _ s' => s.Opened K (s.tree.beneath n) s' := by
    intro u s₂ h₂
    have habove₂ := h.later h₂.toSurveys
    refine (PathId.child_arrives habove₂.sound habove₂.holds .body).bind fun r s₃ hr => ?_
    have h₃ := h₂.before_lodging (hr.toWent.opened habove₂.sound habove₂.ordered)
    have hrb : s₃.Holds r body := by
      refine (hr.linked body (by rw [h₂.tree]; exact hoccb)).holds ?_
      rw [h₃.tree]
      exact hoccb
    refine (walkChildren_opened hwalk ((h.later h₃.toSurveys).below hrb)
      (by rw [h₃.tree]; exact hkb) (fun e he => ?_)).bind fun v s₄ h₄ => .pure ?_
    · rw [h₃.tree]
      exact hdb.child hkb he
    · rw [h₃.tree] at h₄
      refine (h₃.trans h₄ ?_).mono ?_
      · rintro m ⟨c, rfl, hm⟩ hm'
        have hne : Position.slot n .param ≠ .slot n .body := by simp
        exact h.sound.forest.below_apart hn rfl rfl hne hocc hoccb hm (Tree.below_of_beneath hm')
      · rintro m (⟨c, rfl, hm⟩ | hm)
        · exact Tree.beneath_of_child ⟨_, rfl, hocc⟩ hm
        · exact Tree.beneath_of_child ⟨.slot n .body, rfl, hoccb⟩ (Tree.below_of_beneath hm)
  refine returns_bind_of_ok (q.node?_run hdq) ?_
  rw [hdn, hocc]
  cases param? with
  | none => exact htail {} s₁ (hwent.mono fun _ h => h.elim)
  | some c =>
    have hhead := walkParam_opened hwalk (h.later hwent.toSurveys) (hq.linked c hocc) rfl
      (by rw [hq.tree]; exact hocc) (by
        rw [hq.tree]
        exact hd c (by simp [NodeKind.children, NodeKind.fields, Child.ids])) .letVar
    show Returns (registerPattern q .letVar i q >>= fun _ => walk q i >>= _) s₁ _
    rw [← bind_assoc]
    refine hhead.bind fun u s₂ hu => htail u s₂ ((hwent.after_lodging hu).mono fun m hm => ?_)
    rw [hq.tree] at hm
    exact ⟨c, rfl, hm⟩

/-- Walking a function. -/
private theorem walkFunction_opened (hwalk : WalksIn K walk d) (h : s.Above K False p n i)
    (hk : s.tree.kind? n = some k) (hfun : k.type.isFunction = true)
    (hd : ∀ e ∈ k.children, s.tree.DepthWithin d e) :
    Returns (walkBlock walk p i) s fun _ s' => s.Opened K (s.tree.beneath n) s' := by
  obtain ⟨ps, body, hps, hbody, -⟩ := NodeKind.function_fields hfun
  have hn := h.sound.mem_of_holds h.holds
  have hfieldp : s.tree.field? n .params = some (.many ps) := by simp [Tree.field?, hk, hps]
  have hfieldb : s.tree.field? n .body = some (.one body) := by simp [Tree.field?, hk, hbody]
  have hoccb : s.tree.occupant? (.slot n .body) = some body := by
    simp [Tree.occupant?, hfieldb, Child.node?]
  have hmemb : body ∈ k.children := by
    refine Tree.mem_children_of_mem_fieldIds (f := .body) ?_
    simp [NodeKind.fieldIds, hbody, Child.ids]
  have hmemp : ∀ e ∈ ps, e ∈ k.children := fun e he =>
    Tree.mem_children_of_mem_fieldIds (f := .params) (by simpa [NodeKind.fieldIds, hps, Child.ids])
  -- What follows the name of the function.
  have htail : ∀ s₁, s.Opened K ∅ s₁ → Returns (do
        let heads ← (← p.elements .params).mapM fun param => do
          registerPattern param .param i param
          walk param i
        let body ← p.child .body
        let inner ← if ← body.is .blockStatement then walkChildren walk body i else walk body i
        pure (Uses.concat heads ++ inner)) s₁ fun _ s' => s.Opened K (s.tree.beneath n) s' := by
    intro s₁ h₁
    have habove₁ := h.later h₁.toSurveys
    have hparams := elements_opened (K := K) habove₁.sound habove₁.ordered habove₁.holds
      (by rw [h₁.tree]; exact hfieldp) (fun param => do
        registerPattern param .param i param
        walk param i) (fun e => s.tree.below [e]) (by rw [h₁.tree]; exact fun _ _ => id)
      fun q e pos s₂ he hs₂ hl hpos hocc => by
        have htree : s₂.tree = s.tree := hs₂.tree.trans h₁.tree
        have hparam := walkParam_opened hwalk (habove₁.later hs₂) hl hpos
          (by rw [hs₂.tree]; exact hocc) (by rw [htree]; exact hd e (hmemp e he)) .param
        rwa [htree] at hparam
    rw [← bind_assoc]
    refine hparams.bind fun heads s₂ hheads => ?_
    have h₂ := h₁.after_lodging hheads
    have habove₂ := h.later h₂.toSurveys
    refine (PathId.child_arrives habove₂.sound habove₂.holds .body).bind fun q s₃ hq => ?_
    have h₃ := h₂.before_lodging (hq.toWent.opened habove₂.sound habove₂.ordered)
    have habove₃ := h.later h₃.toSurveys
    have hocc₃ : s₃.tree.occupant? (.slot n .body) = some body := by rw [h₃.tree]; exact hoccb
    have hlinked := hq.linked body (by rw [h₂.tree]; exact hoccb)
    have hdb : s₃.tree.DepthWithin d body := by rw [h₃.tree]; exact hd body hmemb
    obtain ⟨kb, hkb⟩ := hdb.kind
    have his : q.is .blockStatement s₃ = .ok (some kb.type == some .blockStatement) s₃ := by
      show (q.type? >>= _) s₃ = _
      rw [bind_of_ok (PathId.type?_run_of_holds (hlinked.holds hocc₃) hkb)]
      rfl
    have hfinish : ∀ s₄, s₃.Opened K (s₃.tree.below [body]) s₄ →
        s.Opened K (s.tree.beneath n) s₄ := by
      intro s₄ h₄
      rw [h₃.tree] at h₄
      have hoccp : ∀ e ∈ ps, ∃ pos, pos.parent? = some n ∧ s.tree.occupant? pos = some e ∧
          pos ≠ .slot n .body := by
        intro e he
        obtain ⟨j, hj⟩ := List.mem_iff_getElem?.mp he
        exact ⟨.item n .params j, rfl, by simp [Tree.occupant?, Tree.list?, hfieldp, Child.list?, hj],
          by simp⟩
      refine (h₃.trans h₄ ?_).mono ?_
      · rintro m ⟨e, he, hm⟩
        obtain ⟨pos, hpos, hocc, hne⟩ := hoccp e he
        exact h.sound.forest.below_apart hn hpos rfl hne hocc hoccb hm
      · rintro m (⟨e, he, hm⟩ | hm)
        · obtain ⟨pos, hpos, hocc, -⟩ := hoccp e he
          exact Tree.beneath_of_child ⟨pos, hpos, hocc⟩ hm
        · exact Tree.beneath_of_child ⟨.slot n .body, rfl, hoccb⟩ hm
    refine returns_bind_of_ok his ?_
    split
    · refine (walkChildren_opened hwalk (habove₃.below (hlinked.holds hocc₃)) hkb
        fun e he => hdb.child hkb he).bind fun inner s₄ h₄ => .pure (hfinish s₄ ?_)
      exact h₄.mono fun m hm => Tree.below_of_beneath hm
    · exact (hwalk s₃ q body i (habove₃.enter hlinked rfl hocc₃) hdb).bind
        fun inner s₄ h₄ => .pure (hfinish s₄ h₄)
  have hnone := htail s (.refl h.sound h.ordered)
  unfold walkBlock
  refine returns_bind_of_ok (PathId.type?_run_of_holds h.holds hk) ?_
  cases k with
  | functionDeclaration => exact hnone
  | arrowFunctionExpression => exact hnone
  | functionExpression =>
    exact (registerFunctionName_opened h.sound h.ordered h.scope h.holds .inner).bind
      fun _ s₁ h₁ => htail s₁ h₁
  | _ => cases hfun

/-- Walking the inside of a block. -/
theorem walkBlock_opened (hwalk : WalksIn K walk d) (h : s.Above K False p n i)
    (hk : s.tree.kind? n = some k) (hd : ∀ e ∈ k.children, s.tree.DepthWithin d e) :
    Returns (walkBlock walk p i) s fun _ s' => s.Opened K (s.tree.beneath n) s' := by
  by_cases hcatch : k.type = .catchClause
  · cases k with
    | catchClause param? body => exact walkCatch_opened hwalk h hk hd
    | _ => cases hcatch
  · by_cases hfun : k.type.isFunction = true
    · exact walkFunction_opened hwalk h hk hfun hd
    · unfold walkBlock
      refine returns_bind_of_ok (PathId.type?_run_of_holds h.holds hk) ?_
      split
      · next heq => cases heq
      · next heq => exact absurd (Option.some.inj heq) hcatch
      · next heq =>
        obtain rfl := Option.some.inj heq
        rw [if_neg hfun]
        exact walkChildren_opened hwalk h hk hd

/-- A walk that is about to enter a node is above its children. -/
theorem Session.At.descend (h : s.At K False p n i) : s.Above K False p n i :=
  ⟨h.sound, h.ordered, h.scope, h.holds, False.elim, False.elim⟩

/-- Walking a block that gets a scope of its own. -/
private theorem walkScope_opened (hwalk : WalksIn K walk d) (h : s.At K False p n i)
    (hk : s.tree.kind? n = some k) (hd : ∀ e ∈ k.children, s.tree.DepthWithin d e) :
    Returns (do
      let inner ← createScope p (some i)
      walkBlock walk p inner) s fun _ s' => s.Opened K (s.tree.below [n]) s' := by
  refine (createScope_opened h.sound h.ordered h.holds (some i)
    fun j hj => Option.some.inj hj ▸ h.scope).bind fun inner s₁ h₁ => ?_
  obtain ⟨h₁, hinner⟩ := h₁
  have habove : s₁.Above K False p n inner :=
    ⟨h₁.sound, h₁.ordered, hinner.hasScope, h₁.grew.holds h.sound h.holds, False.elim, False.elim⟩
  refine (walkBlock_opened hwalk habove (by rw [h₁.tree]; exact hk)
    (by rw [h₁.tree]; exact hd)).mono fun _ s₂ h₂ => ?_
  rw [h₁.tree] at h₂
  refine (h₁.trans h₂ ?_).mono ?_
  · rintro b rfl hb
    exact h.sound.forest.acyclic b h.mem hb
  · rintro b (rfl | hb)
    · exact Tree.mem_below_singleton.mpr .refl
    · exact Tree.below_of_beneath hb

/-- Declaring the names of a variable declaration and walking its declarators. -/
private theorem walkVariables_opened (hwalk : WalksIn K walk d) (h : s.At K False p n i)
    {v : VariableKind} {ds : List NodeId}
    (hk : s.tree.kind? n = some (.variableDeclaration v ds))
    (hd : ∀ e ∈ ds, s.tree.DepthWithin d e) :
    Returns (registerDeclarators p v i fun declarator => walkChildren walk declarator i) s
      fun _ s' => s.Opened K (s.tree.beneath n) s' := by
  have hfield : s.tree.field? n .declarations = some (.many ds) := by
    simp [Tree.field?, hk, NodeKind.child?, NodeKind.fields]
  obtain ⟨j, hvar, hlex, hj, -⟩ := variableScope_run h v
  have hone : ∀ q e pos s₁, e ∈ ds → s.Surveys K s₁ → s₁.Linked q pos → pos.parent? = some n →
      s.tree.occupant? pos = some e → Returns (do
        registerPattern (← q.child .id) (.ofVariableKind v) j q
        walkChildren walk q i) s₁ fun _ s' => s₁.Opened K (s.tree.beneath e) s' := by
    intro q e pos s₁ he hs₁ hq hpos hocc
    have hqe : s₁.Holds q e := hq.holds (by rw [hs₁.tree]; exact hocc)
    obtain ⟨ke, hke⟩ := (hd e he).kind
    refine (PathId.child_arrives hs₁.sound hqe .id).bind fun r s₂ hr => ?_
    obtain ⟨dr, hdr, -⟩ := hr.known
    have h₂ := hr.toWent.opened hs₁.sound hs₁.ordered
    refine (registerPattern_opened h₂.sound h₂.ordered ((hj.later hs₁).later h₂.toSurveys) hdr
      (.ofVariableKind v) q).bind fun _ s₃ h₃ => ?_
    have h₃ := h₂.after_lodging h₃
    have htree : s₃.tree = s.tree := h₃.tree.trans hs₁.tree
    have habove : s₃.Above K False q e i := ⟨h₃.sound, h₃.ordered,
      (h.scope.later hs₁).later h₃.toSurveys, h₃.grew.holds hs₁.sound hqe, False.elim, False.elim⟩
    refine (walkChildren_opened hwalk habove (by rw [htree]; exact hke)
      fun c hc => by rw [htree]; exact (hd e he).child hke hc).mono fun _ s₄ h₄ => ?_
    rw [htree] at h₄
    exact h₃.after_lodging h₄
  have htail : Returns (do
      let uses ← (← p.elements .declarations).mapM fun declarator => do
        registerPattern (← declarator.child .id) (.ofVariableKind v) j declarator
        walkChildren walk declarator i
      pure (Uses.concat uses)) s fun _ s' => s.Opened K (s.tree.beneath n) s' := by
    rw [← bind_assoc]
    refine (elements_opened h.sound h.ordered h.holds hfield _ s.tree.beneath
      (fun e m hm => Tree.below_of_beneath hm) hone).bind fun _ s₁ h₁ => .pure (h₁.mono ?_)
    rintro m ⟨e, he, hm⟩
    obtain ⟨l, hl⟩ := List.mem_iff_getElem?.mp he
    refine Tree.beneath_of_child ⟨.item n .declarations l, rfl, ?_⟩ (Tree.below_of_beneath hm)
    simp [Tree.occupant?, Tree.list?, hfield, Child.list?, hl]
  unfold registerDeclarators
  by_cases hv : v = .var
  · rw [if_pos hv]
    exact returns_bind_of_ok (hvar hv) htail
  · obtain rfl := hlex hv
    rw [if_neg hv]
    exact htail

/-- Walking a subtree. -/
theorem walkWithin_opened (K : Set NodeId) (d : Nat) : WalksIn K (walkWithin d) d := by
  induction d with
  | zero => exact fun s p n i _ hd => hd.elim
  | succ d ih =>
    intro s p n i h hdepth
    obtain ⟨k, hk, hd⟩ := hdepth
    obtain ⟨pos, hw, hl, hocc⟩ := h.position
    obtain ⟨v, hrun, -, -⟩ := PathId.isScopeBlock_run h.sound hw hl hocc hk
    unfold walkWithin
    refine returns_bind_of_ok (PathId.kind?_run_of_holds h.holds hk) ?_
    refine returns_bind_of_ok hrun ?_
    cases v with
    | true =>
      rw [if_pos rfl]
      by_cases ht : k.type = .functionDeclaration
      · rw [if_pos ht]
        obtain ⟨j, hj, hh⟩ := ScopeId.functionScope_run h.ordered h.scope
        refine returns_bind_of_ok hj ?_
        refine (registerFunctionName_opened h.sound h.ordered hh.hasScope h.holds .hoisted).bind
          fun _ s₁ h₁ => ?_
        have hscope := walkScope_opened ih (h.later h₁.toSurveys) (by rw [h₁.tree]; exact hk)
          (by rw [h₁.tree]; exact hd)
        rw [h₁.tree] at hscope
        exact hscope.mono fun _ s₂ h₂ => h₁.after_lodging h₂
      · rw [if_neg ht]
        exact walkScope_opened ih h hk hd
    | false =>
      rw [if_neg (by simp)]
      have hchildren : Returns (walkChildren (walkWithin d) p i) s
          fun _ s' => s.Opened K (s.tree.below [n]) s' :=
        (walkChildren_opened ih h.descend hk hd).mono fun _ s₁ h₁ =>
          h₁.mono fun m hm => Tree.below_of_beneath hm
      have hnothing : s.Opened K (s.tree.below [n]) s :=
        (Opened.refl h.sound h.ordered).mono fun _ hm => hm.elim
      cases k with
      | variableDeclaration v ds =>
        refine (walkVariables_opened ih h hk fun e he => hd e ?_).mono fun _ s₁ h₁ =>
          h₁.mono fun m hm => Tree.below_of_beneath hm
        simpa [NodeKind.children, NodeKind.fields, Child.ids] using he
      | importDeclaration es source =>
        exact ((registerImports_walked h hk).opened h.sound (.registerImports p i)
          fun _ _ h₁ => h₁.toSurveys).bind fun _ s₁ h₁ => .pure (h₁.mono fun _ hm => hm.elim)
      | assignmentExpression op left right =>
        have hleft : left ∈ K := h.sound.forest.closed_child h.mem
          ((s.tree.isChild_iff n left).mpr ⟨_, hk, by simp [NodeKind.children, NodeKind.fields, Child.ids]⟩)
        obtain ⟨found, hfound, -⟩ :=
          Tree.bindingIdentifiers?_eq_some false (h.sound.forest.depthWithin hleft)
        exact returns_bind_of_ok (askBelow_run hfound) (hchildren.bind fun _ s₁ h₁ => .pure h₁)
      | updateExpression op argument before =>
        obtain ⟨target, htarget⟩ := (hd argument (by
          simp [NodeKind.children, NodeKind.fields, Child.ids])).kind
        exact returns_bind_of_ok (ask_run htarget) (hchildren.bind fun _ s₁ h₁ => .pure h₁)
      | identifier =>
        obtain ⟨v, hv, -⟩ := PathId.isReferencedIdentifier_run h.sound h.holds hk
        exact returns_bind_of_ok hv (.pure hnothing)
      | _ => exact hchildren

end Walk

/-! ## A whole crawl -/

namespace Lodging

theorem modifyBinding (i : ScopeId) (name : String) (f : Binding → Binding) :
    Lodging (i.modifyBinding name f) := by
  refine (question (.bindingScope? i name)).bind fun o => ?_
  cases o with
  | none => exact question (.pure _)
  | some owner => exact (modifyData owner _).bind fun _ => question (.pure _)

theorem noteGlobal (i : ScopeId) (name : String) : Lodging (i.noteGlobal name) :=
  (question (.programScope i)).bind fun j => modifyData j _

theorem resolveWrite (use : ScopeId × PathId × List String) : Lodging (resolveWrite use) :=
  Leads.forM Lodges.refl Lodges.trans _ fun name _ =>
    (modifyBinding use.1 name _).bind fun _ => question (.pure _)

theorem resolveRead (use : ScopeId × PathId) : Lodging (resolveRead use) := by
  refine (question (.identifierName? use.2)).bind fun o => ?_
  cases o with
  | none => exact question (.pure _)
  | some name =>
    refine (noteReference use.1 name).bind fun _ => (modifyBinding use.1 name _).bind fun v => ?_
    cases v with
    | true => exact question (.pure _)
    | false => exact noteGlobal use.1 name

theorem resolveUses (u : Uses) :
    Lodging (do u.writes.forM Espalier.resolveWrite; u.reads.forM Espalier.resolveRead) :=
  Lodging.bind (Leads.forM Lodges.refl Lodges.trans _ fun use _ => resolveWrite use) fun _ =>
    Leads.forM Lodges.refl Lodges.trans _ fun use _ => resolveRead use

end Lodging

/-- Two things that are known of one run. -/
theorem Returns.and {ε σ : Type} {x : EStateM ε σ α} {s : σ} {post post' : α → σ → Prop}
    (h : Returns x s post) (h' : Returns x s post') :
    Returns x s fun a s' => post a s' ∧ post' a s' := by
  obtain ⟨a, s', hrun, ha⟩ := h
  exact ⟨a, s', hrun, ha, h'.of_eq_ok hrun⟩

/-- A crawl opens scopes for the block and for nodes below it. The scope it gives is that of the
block, inside the scope it was told. -/
theorem crawlScope_opened {s : Session} {K : Set NodeId} {p : PathId} {n : NodeId}
    (hs : s.Sound K) (ho : s.scopes.Ordered) (hp : s.Holds p n) (parent : Option ScopeId)
    (hparent : ∀ j, parent = some j → s.HasScope j) :
    Returns (crawlScope p parent) s fun i s' => s.Opened K (s.tree.below [n]) s' ∧
      s'.ScopeOf i n ∧ ∃ sc : Scope, s'.scopes.scopes[i.index]? = some sc ∧ sc.parent = parent := by
  have hn := hs.mem_of_holds hp
  obtain ⟨k, hk⟩ := hs.forest.kind n hn
  have hcreated : Returns (createScope p parent) s fun i s' => ∃ sc : Scope,
      s'.scopes.scopes[i.index]? = some sc ∧ sc.parent = parent :=
    ⟨_, _, createScope_run hp hk parent, _, by rw [getElem?_addScope, if_pos rfl], rfl⟩
  unfold crawlScope
  refine ((createScope_opened hs ho hp parent hparent).and hcreated).bind fun i s₁ h₁ => ?_
  obtain ⟨⟨h₁, hi⟩, sc, hsc, hscp⟩ := h₁
  rw [Returns, run_get_bind]
  have hp₁ := h₁.grew.holds hs hp
  have habove : s₁.Above K False p n i :=
    ⟨h₁.sound, h₁.ordered, hi.hasScope, hp₁, False.elim, False.elim⟩
  have hinside : s₁.Inside K False p n i :=
    ⟨h₁.sound, h₁.ordered, hi.hasScope, hp₁, False.elim, False.elim⟩
  have hk₁ : s₁.tree.kind? n = some k := by rw [h₁.tree]; exact hk
  have hdepth : ∀ c ∈ k.children, s₁.tree.DepthWithin (s₁.tree.depthBound + 1) c := by
    intro c hc
    rw [h₁.tree]
    refine (hs.forest.depthWithin (hs.forest.closed_child hn ?_)).mono ?_
    · exact (s.tree.isChild_iff n c).mpr ⟨k, hk, hc⟩
    · unfold Tree.depthBound
      omega
  refine ((walkBlock_opened (walkWithin_opened K _) habove hk₁ hdepth).and
    (walkBlock_walked (walkWithin_walked K False _) hinside hk₁ hdepth)).bind fun u s₂ h₂ => ?_
  obtain ⟨h₂, hwalked⟩ := h₂
  rw [h₁.tree] at h₂
  rw [← bind_assoc]
  refine ((resolveUses_settles h₂.sound h₂.ordered hwalked.carries).opened h₂.sound
    (.resolveUses u) fun _ s₃ h₃ => h₃.surveys h₂.sound h₂.ordered).bind fun _ s₃ h₃ => .pure ?_
  have h₃ := h₂.before_lodging h₃
  refine ⟨(h₁.trans h₃ ?_).mono ?_, hi.later h₁.sound h₃.toSurveys, ?_⟩
  · rintro b rfl hb
    exact hs.forest.acyclic b hn hb
  · rintro b (rfl | hb)
    · exact Tree.mem_below_singleton.mpr .refl
    · exact Tree.below_of_beneath hb
  · obtain ⟨sc', hsc', hplace, -⟩ := h₃.widened.scope _ sc hsc
    simp only [Scope.place, Prod.mk.injEq] at hplace
    exact ⟨sc', hsc', hplace.2.2.trans hscp⟩

end Espalier
