import Espalier.Proofs.Resolution

set_option autoImplicit false

/-! # The crawl implements lexical scoping

After the crawl of a grammatical program tree the scopes are those of its blocks, each of them
binds the names it declares, and the uses are noted where lexical scoping puts them: reads in
`crawl_resolves_reads`, writes in `crawl_notes_writes`. -/

namespace Espalier

open SessionM

/-! ## The look-ups mean lexical scoping -/

theorem Tree.IsProgram.resolves_unique {t : Tree} (h : t.IsProgram) {b c c' : NodeId} {x : String}
    (hc : t.Resolves b x c) (hc' : t.Resolves b x c') : c = c' := by
  induction hc with
  | here hd =>
    cases hc' with
    | here => rfl
    | outer hno _ _ => exact absurd hd hno
  | outer hno hb _ ih =>
    cases hc' with
    | here hd => exact absurd hd hno
    | outer _ hb' hc' =>
      obtain rfl := h.inScope_unique hb hb'
      exact ih hc'

theorem Tree.Resolves.declares {t : Tree} {b c : NodeId} {x : String} (h : t.Resolves b x c) :
    t.Declares c x := by
  induction h with
  | here hd => exact hd
  | outer _ _ _ ih => exact ih

theorem Tree.Reads.name_unique {t : Tree} {n : NodeId} {x y : String} (hx : t.Reads n x)
    (hy : t.Reads n y) : x = y := by
  obtain ⟨declared, hk⟩ := hx.1
  obtain ⟨declared', hk'⟩ := hy.1
  rw [hk] at hk'
  cases hk'
  rfl

/-- The root is in no scope. -/
theorem Tree.IsProgram.not_inScope_root {t : Tree} (h : t.IsProgram) {r : NodeId}
    (hr : t.root = some r) (b : NodeId) : ¬ t.InScope r b := by
  have hno : ∀ p, t.Reachable p → ¬ t.IsChild p r := by
    rintro p hp ⟨pos, hpos, hocc⟩
    have heq : pos = .root := by
      refine h.single pos .root r (fun q hq => ?_) (fun q hq => by simp at hq) hocc hr
      rw [← Option.some.inj (hpos.symm.trans hq)]
      exact hp
    rw [heq] at hpos
    simp at hpos
  intro hin
  cases hin with
  | here hp hc _ => exact hno _ hp hc
  | up hp hc _ _ => exact hno _ hp hc

theorem Tree.IsProgram.opens_root {t : Tree} (h : t.IsProgram) {r : NodeId}
    (hr : t.root = some r) : t.Opens r := by
  obtain ⟨k, hk, hkt⟩ := h.kind_root hr
  exact ⟨k, hk, by rw [hkt]; rfl, fun hb => by rw [hkt] at hb; cases hb⟩

/-- Every node below the root is in a scope. -/
theorem Tree.IsProgram.exists_inScope {t : Tree} (h : t.IsProgram) {n : NodeId}
    (hn : t.Reachable n) : t.root = some n ∨ ∃ b, t.InScope n b := by
  induction hn with
  | root hr => exact .inl hr
  | @child p n hp hc ih =>
    refine .inr ?_
    by_cases ho : t.Opens p
    · exact ⟨p, .here hp hc ho⟩
    · rcases ih with hr | ⟨b, hb⟩
      · exact absurd (h.opens_root hr) ho
      · exact ⟨b, .up hp hc ho hb⟩

namespace Session

/-- The binding of the name in the scope of the node. -/
def BindingOf (s : Session) (b : NodeId) (x : String) (v : Binding) : Prop :=
  ∃ (i : ScopeId) (sc : Scope), s.scopes.scopes[i.index]? = some sc ∧ s.Holds sc.block b ∧
    sc.bindings.get? x = some v

/-- The name is among the globals of the program. -/
def Undeclared (s : Session) (x : String) : Prop :=
  ∃ r, s.tree.root = some r ∧ ∃ (i : ScopeId) (sc : Scope), s.scopes.scopes[i.index]? = some sc ∧
    s.Holds sc.block r ∧ x ∈ sc.globals

/-- The scopes are those of the blocks of the tree, and each binds what its block declares. -/
structure Mirrors (s : Session) : Prop extends Faithful s where
  program : s.tree.IsProgram
  opens : ∀ b, (∃ i, s.ScopeOf i b) ↔ s.tree.Reachable b ∧ s.tree.Opens b
  declares : ∀ b x, s.Bound b x ↔ s.tree.Declares b x

namespace Mirrors

variable {s : Session} {i j : ScopeId} {b c : NodeId} {x : String} {o : Option ScopeId}

theorem binds_iff (h : s.Mirrors) (hi : s.ScopeOf i b) : s.Binds i x ↔ s.tree.Declares b x := by
  rw [← h.declares]
  constructor
  · exact fun hx => ⟨i, hi, hx⟩
  · rintro ⟨j, hj, hx⟩
    rw [h.single i j b hi hj]
    exact hx

/-- A look-up leads where the name leads, or nowhere when the name leads nowhere. -/
theorem finds_iff (h : s.Mirrors) (hi : s.ScopeOf i b) (hfinds : s.Finds x i o) :
    (∀ j c, s.ScopeOf j c → (o = some j ↔ s.tree.Resolves b x c)) ∧
      (o = none ↔ ∀ c, ¬ s.tree.Resolves b x c) := by
  induction hfinds generalizing b with
  | @here i hb =>
    have hd := (h.binds_iff hi).mp hb
    refine ⟨fun j c hj => ⟨fun hij => ?_, fun hr => ?_⟩, fun hno => (by cases hno), fun hno => ?_⟩
    · obtain rfl := Option.some.inj hij
      rw [← hi.node_unique hj]
      exact .here hd
    · obtain rfl := h.program.resolves_unique (.here hd) hr
      rw [h.single i j b hi hj]
    · exact absurd (.here hd) (hno b)
  | @nowhere i hb hout =>
    have hno : ∀ c, ¬ s.tree.Resolves b x c := by
      intro c hr
      cases hr with
      | here hd => exact hb ((h.binds_iff hi).mpr hd)
      | outer _ hin _ => exact h.program.not_inScope_root (h.root i b hout hi) _ hin
    exact ⟨fun j c _ => ⟨fun hij => (by cases hij), fun hr => absurd hr (hno c)⟩, fun _ => hno,
      fun _ => rfl⟩
  | @outer i j o hb ha _ ih =>
    obtain ⟨b', hin, hj⟩ := h.outer i j b ha hi
    have hstep : ∀ c, s.tree.Resolves b x c ↔ s.tree.Resolves b' x c := by
      intro c
      constructor
      · intro hr
        cases hr with
        | here hd => exact absurd ((h.binds_iff hi).mpr hd) hb
        | outer _ hin' hr =>
          obtain rfl := h.program.inScope_unique hin hin'
          exact hr
      · exact .outer (fun hd => hb ((h.binds_iff hi).mpr hd)) hin
    obtain ⟨hsome, hnone⟩ := ih hj
    exact ⟨fun k c hk => (hsome k c hk).trans (hstep c).symm,
      hnone.trans (forall_congr' fun c => not_congr (hstep c).symm)⟩

/-- The outermost scope is that of the root. -/
theorem outermost (h : s.Mirrors) (hi : s.ScopeOf i b) (hout : s.Outermost i j) :
    ∃ r, s.tree.root = some r ∧ s.ScopeOf j r := by
  induction hout generalizing b with
  | @here i hi' => exact ⟨b, h.root i b hi' hi, hi⟩
  | @outer i j k ha _ ih =>
    obtain ⟨b', -, hj⟩ := h.outer i j b ha hi
    exact ih hj

end Mirrors

/-! ## The session after the crawl -/

/-- A session without paths and scopes is in order. -/
theorem sound_fresh {t : Tree} {K : Set NodeId} (h : t.Forest K) (config : Config)
    (T : ScopeTable) : ({ tree := t, config, scopes := T } : Session).Sound K where
  forest := h
  filed c p hp := by simp [bucket] at hp
  nodup c := by simp [bucket]
  unique p q pos d e hf := by simpa using hf.data
  held p d hd := by simp at hd
  adrift q p hp := by simp at hp
  linked p pos d hf := by simpa using hf.data

end Session

/-- The facts of a program are those of the nodes that can be reached. -/
theorem Tree.mem_facts_root {t : Tree} {r : NodeId} (hr : t.root = some r) (f : Fact) :
    f ∈ t.facts r ↔ ∃ m, t.Reachable m ∧ t.Owns m f := by
  have hreach : ∀ m, Relation.ReflTransGen t.IsChild r m ↔ t.Reachable m := by
    intro m
    constructor
    · intro hm
      induction hm with
      | refl => exact .root hr
      | tail _ hc ih => exact .child ih hc
    · intro hm
      induction hm with
      | root hr' =>
        obtain rfl := Option.some.inj (hr.symm.trans hr')
        exact .refl
      | child _ hc ih => exact ih.tail hc
  unfold facts
  simp only [Set.mem_ofPred_eq, hreach]

namespace Session

/-- What a crawl of a program leaves: scopes that mirror the blocks, and the marks of the uses that
were collected on the way. -/
structure Crawled (s₁ : Session) (u : Uses) (s : Session) : Prop where
  sound : s₁.Sound s₁.tree.reachable
  ordered : s₁.scopes.Ordered
  grammatical : s₁.tree.Grammatical
  mirrors : s₁.Mirrors
  pending : s₁.Pending
  read : ∀ i q, (i, q) ∈ u.reads → ∃ m b x, s₁.tree.Reads m x ∧ s₁.tree.InScope m b ∧
    s₁.Holds q m ∧ s₁.ScopeOf i b
  reads : ∀ m b x, s₁.tree.Reads m x → s₁.tree.InScope m b →
    ∃ i q, (i, q) ∈ u.reads ∧ s₁.Holds q m ∧ s₁.ScopeOf i b
  assigned : ∀ i q names, (i, q, names) ∈ u.writes → ∃ m b, s₁.tree.IsAssignment m ∧
    s₁.tree.Reachable m ∧ s₁.tree.InScope m b ∧ s₁.Holds q m ∧ s₁.ScopeOf i b ∧
      ∀ x, x ∈ names ↔ s₁.tree.Assigns m x
  assigns : ∀ m b x, s₁.tree.Reachable m → s₁.tree.InScope m b → s₁.tree.Assigns m x →
    ∃ i q names, (i, q, names) ∈ u.writes ∧ s₁.Holds q m ∧ s₁.ScopeOf i b ∧ x ∈ names
  settles : s₁.Settles (s₁.marks u) s

end Session

namespace Session.Crawled

variable {s₁ s : Session} {u : Uses} {b c n : NodeId} {x : String} {v : Binding} {p : PathId}

theorem tree (h : s₁.Crawled u s) : s.tree = s₁.tree := h.settles.tree

theorem bound_iff (h : s₁.Crawled u s) : s.Bound b x ↔ s.tree.Declares b x := by
  rw [h.tree, ← h.mirrors.declares]
  unfold Bound
  simp only [h.settles.scopeOf_iff, h.settles.binds_iff]

theorem exists_bindingOf (h : s₁.Crawled u s) (hx : s.tree.Declares b x) :
    ∃ v, s.BindingOf b x v := by
  obtain ⟨i, ⟨sc, hsc, hb⟩, sc', hsc', hx⟩ := h.bound_iff.mpr hx
  obtain rfl : sc = sc' := Option.some.inj (hsc.symm.trans hsc')
  obtain ⟨v, hv⟩ := Option.isSome_iff_exists.mp hx
  exact ⟨v, i, sc, hsc, hb, hv⟩

/-- A binding is one of the walk, with its marks. -/
theorem marked (h : s₁.Crawled u s) (hv : s.BindingOf c x v) : ∃ (i : ScopeId) (sc : Scope)
    (v₁ : Binding), s₁.ScopeOf i c ∧ s₁.scopes.scopes[i.index]? = some sc ∧
      sc.bindings.get? x = some v₁ ∧ v₁.Marked (s₁.marks u) i x v := by
  obtain ⟨i, sc', hsc', hc, hv⟩ := hv
  obtain ⟨sc, hsc, -⟩ := h.settles.back _ sc' hsc'
  have hi : s₁.ScopeOf i c := (h.settles.scopeOf_iff i c).mp ⟨sc', hsc', hc⟩
  have hr := h.settles.bindings i sc sc' hsc hsc' x
  rw [hv] at hr
  cases hv₁ : sc.bindings.get? x with
  | none => simp [hv₁] at hr
  | some v₁ =>
    rw [hv₁, Option.rel_some_some] at hr
    exact ⟨i, sc, v₁, hi, hsc, hv₁, hr⟩

/-- The scope that a name is found in from a scope at hand is the one it leads to. -/
theorem finds_iff_resolves (h : s₁.Crawled u s) {i j : ScopeId} (hi : s₁.ScopeOf i b)
    (hj : s₁.ScopeOf j c) : s₁.Finds x i (some j) ↔ s₁.tree.Resolves b x c := by
  constructor
  · exact fun hf => ((h.mirrors.finds_iff hi hf).1 j c hj).mp rfl
  · intro hr
    obtain ⟨o, -, hf⟩ := ScopeId.bindingScope?_run h.ordered hi.hasScope x
    rw [((h.mirrors.finds_iff hi hf).1 j c hj).mpr hr] at hf
    exact hf

/-- The references of a binding are the reads whose name leads to it, each of them once. -/
theorem references (h : s₁.Crawled u s) (hv : s.BindingOf c x v) : v.references.Nodup ∧
    ∀ p, p ∈ v.references ↔ ∃ n b, s.Holds p n ∧ s.tree.Reads n x ∧ s.tree.InScope n b ∧
      s.tree.Resolves b x c := by
  obtain ⟨i, sc, v₁, hi, hsc, hv₁, hm⟩ := h.marked hv
  have hempty : v₁.references = [] := h.pending.references _ sc x v₁ hsc hv₁
  refine ⟨hm.nodup (by simp [hempty]), fun p => ?_⟩
  rw [hm.references, hempty, h.tree]
  simp only [List.not_mem_nil, false_or, h.settles.holds_iff]
  constructor
  · rintro (⟨w, -, y, -, j, -, hno⟩ | ⟨⟨i₀, q⟩, hr, n, y, declared, hn, hk, hmark⟩)
    · cases hno
    obtain ⟨j, hf, heq⟩ | ⟨-, j, -, hno⟩ := hmark
    · cases heq
      obtain ⟨m, b, z, hz, hin, hm, hb⟩ := h.read i₀ q hr
      obtain rfl := hn.unique_node hm
      obtain ⟨declared', hk'⟩ := hz.1
      rw [hk] at hk'
      cases hk'
      exact ⟨n, b, hn, hz, hin, (h.finds_iff_resolves hb hi).mp hf⟩
    · cases hno
  · rintro ⟨n, b, hn, hx, hin, hres⟩
    obtain ⟨i₀, q, hr, hq, hb⟩ := h.reads n b x hx hin
    obtain rfl := h.sound.holder_unique hn hq
    obtain ⟨declared, hk⟩ := hx.1
    exact .inr ⟨_, hr, n, x, declared, hn, hk,
      .inl ⟨i, (h.finds_iff_resolves hb hi).mpr hres, rfl⟩⟩

/-- Of the constructs that assign, a binding knows the assignments and updates of a name that leads
to it, and no others. -/
theorem violations (h : s₁.Crawled u s) (hv : s.BindingOf c x v) (hn : s.Holds p n)
    (hassigns : ¬ s.Plain p) : p ∈ v.violations ↔
      ∃ b, s.tree.Assigns n x ∧ s.tree.InScope n b ∧ s.tree.Resolves b x c := by
  obtain ⟨i, sc, v₁, hi, hsc, hv₁, hm⟩ := h.marked hv
  have hno : p ∉ v₁.violations := fun hp => hassigns
    ((h.settles.plain_iff p).mpr (h.pending.violations _ sc x v₁ hsc hv₁ p hp))
  rw [hm.violations, h.tree]
  rw [h.settles.holds_iff] at hn
  simp only [hno, false_or]
  constructor
  · rintro (⟨⟨i₀, q, names⟩, hw, y, hy, j, hf, heq⟩ |
      ⟨r, -, m, y, declared, -, -, ⟨j, -, hno⟩ | ⟨-, j, -, hno⟩⟩)
    · cases heq
      obtain ⟨m, b, -, -, hin, hm, hb, hnames⟩ := h.assigned i₀ q names hw
      obtain rfl := hn.unique_node hm
      exact ⟨b, (hnames x).mp hy, hin, (h.finds_iff_resolves hb hi).mp hf⟩
    · cases hno
    · cases hno
  · rintro ⟨b, hx, hin, hres⟩
    have hreach : s₁.tree.Reachable n := h.sound.mem_of_holds hn
    obtain ⟨i₀, q, names, hw, hq, hb, hxn⟩ := h.assigns n b x hreach hin hx
    obtain rfl := h.sound.holder_unique hn hq
    exact .inl ⟨_, hw, x, hxn, i, (h.finds_iff_resolves hb hi).mpr hres, rfl⟩

/-- The globals are the names of the reads that lead nowhere. -/
theorem undeclared_iff (h : s₁.Crawled u s) : s.Undeclared x ↔
    ∃ n b, s.tree.Reads n x ∧ s.tree.InScope n b ∧ ∀ c, ¬ s.tree.Resolves b x c := by
  rw [h.tree]
  constructor
  · rintro ⟨r, hr, i, sc', hsc', hi, hx⟩
    obtain ⟨sc, hsc, -⟩ := h.settles.back _ sc' hsc'
    rw [h.settles.globals i sc sc' hsc hsc', h.pending.globals _ sc hsc] at hx
    simp only [List.not_mem_nil, false_or] at hx
    obtain ⟨w, -, y, -, j, -, hno⟩ | ⟨⟨i₀, q⟩, hr, n, y, declared, hn, hk, hmark⟩ := hx
    · cases hno
    obtain ⟨j, -, hno⟩ | ⟨hf, j, hout, heq⟩ := hmark
    · cases hno
    · cases heq
      obtain ⟨m, b, z, hz, hin, hm, hb⟩ := h.read i₀ q hr
      obtain rfl := hn.unique_node hm
      obtain ⟨declared', hk'⟩ := hz.1
      rw [hk] at hk'
      cases hk'
      exact ⟨n, b, hz, hin, (h.mirrors.finds_iff hb hf).2.mp rfl⟩
  · rintro ⟨n, b, hx, hin, hno⟩
    obtain ⟨i₀, q, hr, hq, hb⟩ := h.reads n b x hx hin
    obtain ⟨declared, hk⟩ := hx.1
    obtain ⟨o, -, hf⟩ := ScopeId.bindingScope?_run h.ordered hb.hasScope x
    rw [(h.mirrors.finds_iff hb hf).2.mpr hno] at hf
    obtain ⟨j, -, hout⟩ := ScopeId.programScope_run h.ordered hb.hasScope
    obtain ⟨r, hroot, sc, hsc, hjr⟩ := h.mirrors.outermost hb hout
    obtain ⟨sc', hsc', hpl⟩ := h.settles.forth _ sc hsc
    simp only [Scope.place, Prod.mk.injEq] at hpl
    refine ⟨r, by rw [h.tree]; exact hroot, j, sc', hsc', ?_, ?_⟩
    · rw [h.settles.holds_iff, hpl.1]
      exact hjr
    · rw [h.settles.globals j sc sc' hsc hsc']
      exact .inr (.inr ⟨_, hr, n, x, declared, hq, hk, .inr ⟨hf, j, hout, rfl⟩⟩)

end Session.Crawled

open Session in
/-- A program is crawled when its scopes are asked for the first time. -/
theorem ensureScopes_crawled {t : Tree} (h : t.IsProgram) (hg : t.Grammatical) (config : Config) :
    Returns ensureScopes { tree := t, config } fun _ s => s.tree = t ∧ s.scopes.crawled = true ∧
      ∃ (s₁ : Session) (u : Uses), s₁.Crawled u s := by
  obtain ⟨r, hr, -⟩ := h.root
  obtain ⟨k, hk, hkt⟩ := h.kind_root hr
  have hopens := h.opens_root hr
  let s₀ : Session := { tree := t, config, scopes := { crawled := true } }
  have hsound : s₀.Sound t.reachable := sound_fresh h.forest config _
  have hordered : s₀.scopes.Ordered := by
    refine ⟨fun i sc j hsc => ?_, fun n i hi => ?_, fun i hi => ?_⟩
    · simp [s₀] at hsc
    · simp [s₀] at hi
    · simp [s₀] at hi
  have hnone : ∀ i b, ¬ s₀.ScopeOf i b := by
    rintro i b ⟨sc, hsc, -⟩
    simp [s₀] at hsc
  have hfaithful : s₀.Faithful := by
    refine ⟨fun i sc hsc => ?_, fun i j b hi => absurd hi (hnone i b),
      fun i j b _ hi => absurd hi (hnone i b), fun i b _ hi => absurd hi (hnone i b)⟩
    simp [s₀] at hsc
  have hpending : s₀.Pending := by
    constructor <;> intro i sc <;> simp [s₀]
  suffices hcrawl : Returns (do
      let root ← rootPath
      if (← root.node?).isSome then
        let _ ← crawlScope root none) s₀ fun _ s => s.tree = t ∧ s.scopes.crawled = true ∧
          ∃ (s₁ : Session) (u : Uses), s₁.Crawled u s from hcrawl
  refine (pathFor_returns .root hsound (fun p hp => by simp at hp) rfl).bind fun p s₁ hp => ?_
  obtain ⟨d, hf, -⟩ := hp.files
  have hpr : s₁.Holds p r := hf.holds (by rw [hp.tree]; exact hr)
  refine returns_bind_of_ok (PathId.node?_run_of_holds hpr) ?_
  rw [Option.isSome_some, if_pos rfl]
  have hsur₁ := hp.toWent.surveys hordered
  have hn₁ := Notes.went hfaithful hpending hsound hp.toWent
  have hnone₁ : ∀ i b, ¬ s₁.ScopeOf i b := by
    intro i b hi
    rcases hn₁.opened b i hi with ⟨j, hj⟩ | hb
    · exact hnone j b hj
    · cases hb
  refine (crawlScope_settles (G := True) hsur₁.sound hsur₁.ordered hpr none (by simp)
    (fun _ => by rw [hp.tree]; exact ⟨h, hg, rfl⟩) (by simp)
    (fun _ _ => by rw [hp.tree]; exact hr) (fun _ => by rw [hp.tree]; exact hopens)).bind
    fun i s₃ h₃ => .pure ?_
  obtain ⟨-, u, s₂, h₂, hset⟩ := h₃
  have hsur₂ := hsur₁.trans h₂.toSurveys
  have htree : s₂.tree = t := hsur₂.tree
  have hsur₃ := hsur₂.trans (hset.surveys hsur₂.sound hsur₂.ordered)
  refine ⟨hsur₃.tree, hsur₃.widened.crawled, s₂, u, ?_⟩
  have hnotes := h₂.notes trivial hn₁.faithful hn₁.pending fun b i _ => hnone₁ i b
  -- The noted facts are those of the whole tree.
  have hfacts : ∀ f, f ∈ ({.opens r} ∪ s₁.tree.factsInside r : Set Fact) ↔
      ∃ m, t.Reachable m ∧ t.Owns m f := by
    intro f
    rw [← Tree.mem_facts_root hr, Tree.mem_facts_block hopens, hp.tree]
    have hout : f ∉ t.factsOutside r := by
      rintro ⟨hd, -⟩
      rw [Tree.type?_of_kind hk, hkt] at hd
      cases hd
    show _ ↔ (f ∈ t.factsOutside r ∨ f = .opens r) ∨ f ∈ t.factsInside r
    simp only [hout, false_or]
    rfl
  have hreads : ∀ m x, t.Reads m x → t.Reachable m := by
    rintro m x ⟨-, pos, p, k, f, hpos, -, hocc, hreach, -, -⟩
    exact .child hreach ⟨pos, hpos, hocc⟩
  refine ⟨by rw [htree]; exact hsur₂.sound, hsur₂.ordered, by rw [htree]; exact hg,
    ⟨hnotes.faithful, by rw [htree]; exact h, ?_, ?_⟩, hnotes.pending, ?_, ?_, ?_, ?_, hset⟩
  · intro b
    rw [htree]
    constructor
    · rintro ⟨i, hi⟩
      rcases hnotes.opened b i hi with ⟨j, hj⟩ | hb
      · exact absurd hj (hnone₁ j b)
      · obtain ⟨m, hm, rfl, ho⟩ := (hfacts _).mp hb
        exact ⟨hm, ho⟩
    · rintro ⟨hb, ho⟩
      exact hnotes.opens b ((hfacts _).mpr ⟨b, hb, rfl, ho⟩)
  · intro b x
    rw [htree]
    constructor
    · intro hx
      rcases hnotes.declared b x hx with ⟨j, hj, -⟩ | hx
      · exact absurd hj (hnone₁ j b)
      · exact (hfacts _).mp hx
    · exact fun hx => hnotes.declares b x ((hfacts _).mpr hx)
  · intro i q hq
    obtain ⟨m, b, hm, hqm, hi⟩ := hnotes.read i q hq
    obtain ⟨m', -, rfl, ⟨x, hx⟩, hin⟩ := (hfacts _).mp hm
    rw [htree]
    exact ⟨m, b, x, hx, hin, hqm, hi⟩
  · intro m b x hx hin
    rw [htree] at hx hin
    exact hnotes.reads m b ((hfacts _).mpr ⟨m, hreads m x hx, rfl, ⟨x, hx⟩, hin⟩)
  · intro i q names hw
    obtain ⟨m, b, hm, hqm, hi, hnames⟩ := hnotes.assigned i q names hw
    obtain ⟨m', hreach, rfl, hassign, hin⟩ := (hfacts _).mp hm
    exact ⟨m, b, by rw [htree]; exact hassign, by rw [htree]; exact hreach,
      by rw [htree]; exact hin, hqm, hi, hnames⟩
  · intro m b x hreach hin hx
    rw [htree] at hreach hin
    refine hnotes.assigns m b x ((hfacts _).mpr ⟨m, hreach, rfl, ?_, hin⟩) hx
    rw [htree] at hx
    cases hx with
    | assignment hk' => exact ⟨_, hk', .inl rfl⟩
    | update hk' => exact ⟨_, hk', .inr rfl⟩

/-- Whether its scopes are built at once or on demand, an opened program is crawled once. -/
theorem open?_crawled {t : Tree} (h : t.IsProgram) (hg : t.Grammatical) (config : Config) :
    ∃ s₀ s, Session.open? t config = .ok s₀ ∧ ensureScopes s₀ = .ok () s ∧ s.tree = t ∧
      ∃ (s₁ : Session) (u : Uses), s₁.Crawled u s := by
  obtain ⟨_, s, hrun, htree, hcrawled, hs⟩ := ensureScopes_crawled h hg config
  by_cases hlazy : config.lazyScopes = true
  · refine ⟨{ tree := t, config }, s, ?_, hrun, htree, hs⟩
    unfold Session.open?
    rw [if_pos hlazy]
  · refine ⟨s, s, ?_, ?_, htree, hs⟩
    · unfold Session.open?
      rw [if_neg hlazy]
      simp only [EStateM.run, hrun]
    · have hquestion : scopesCrawled s = .ok true s := by
        show EStateM.Result.ok s.scopes.crawled s = _
        rw [hcrawled]
      unfold ensureScopes
      rw [bind_of_ok hquestion]
      rfl

/-! ## Reads -/

/-- The scopes of a session bind what the tree declares, and its reads are noted where lexical
scoping puts them. -/
structure Session.LexicalReads (s : Session) : Prop where
  /-- Each block that opens a scope has one, and there are no others. -/
  scopes : ∀ b, (∃ i, s.ScopeOf i b) ↔ s.tree.Reachable b ∧ s.tree.Opens b
  single : ∀ i j b, s.ScopeOf i b → s.ScopeOf j b → i = j
  blocks : ∀ i, s.HasScope i → ∃ b, s.ScopeOf i b
  /-- A scope binds the names it declares. -/
  bindings : ∀ i b, s.ScopeOf i b → ∀ x, s.Binds i x ↔ s.tree.Declares b x
  /-- The paths that are asked whether they are read say so. -/
  asked : ∀ p n, s.Holds p n →
    (p.isReferencedIdentifier s = .ok true s ↔ ∃ x, s.tree.Reads n x)
  /-- What is read has a path and a scope around it. -/
  read : ∀ n x, s.tree.Reads n x → ∃ p b, s.Holds p n ∧ s.tree.InScope n b
  /-- A read is noted once at the binding that its name leads to. -/
  resolved : ∀ p n x b c, s.Holds p n → s.tree.Reads n x → s.tree.InScope n b →
    s.tree.Resolves b x c → ∃ v, s.BindingOf c x v ∧ v.references.count p = 1
  /-- A read is noted at no other binding; at none when its name leads nowhere. -/
  elsewhere : ∀ p n x b c y v, s.Holds p n → s.tree.Reads n x → s.tree.InScope n b →
    s.BindingOf c y v → p ∈ v.references → y = x ∧ s.tree.Resolves b x c
  unresolved : ∀ n x b, s.tree.Reads n x → s.tree.InScope n b →
    (∀ c, ¬ s.tree.Resolves b x c) → s.Undeclared x
  /-- What is noted at a binding is a read whose name leads to it. -/
  noted : ∀ c x v p, s.BindingOf c x v → p ∈ v.references → ∃ n b, s.Holds p n ∧
    p.isReferencedIdentifier s = .ok true s ∧ s.tree.Reads n x ∧ s.tree.InScope n b ∧
      s.tree.Resolves b x c
  /-- A global is the name of a read that leads nowhere. -/
  global : ∀ x, s.Undeclared x → ∃ n b, s.tree.Reads n x ∧ s.tree.InScope n b ∧
    ∀ c, ¬ s.tree.Resolves b x c

theorem Session.Crawled.lexicalReads {s₁ s : Session} {u : Uses} (h : s₁.Crawled u s) :
    s.LexicalReads := by
  have hsound : s.Sound s.tree.reachable := by
    rw [h.tree]
    exact (h.settles.surveys h.sound h.ordered).sound
  have hprogram : s.tree.IsProgram := by
    rw [h.tree]
    exact h.mirrors.program
  have hmeant : s.tree.Meant s.tree.reachable :=
    ⟨hprogram, by rw [h.tree]; exact h.grammatical, rfl⟩
  have hfaithful := h.settles.faithful h.mirrors.toFaithful
  refine ⟨fun b => ?_, hfaithful.single, ?_, ?_, fun p n hp => ?_, ?_, ?_, ?_, ?_, ?_, ?_⟩
  · simp only [h.settles.scopeOf_iff, h.tree]
    exact h.mirrors.opens b
  · intro i hi
    obtain ⟨sc, hsc⟩ := hi.scope
    obtain ⟨b, -, hb, -⟩ := hfaithful.block _ sc hsc
    exact ⟨b, sc, hsc, hb⟩
  · intro i b hi x
    rw [h.settles.scopeOf_iff] at hi
    rw [h.settles.binds_iff, h.tree]
    exact h.mirrors.binds_iff hi
  · exact PathId.isReferencedIdentifier_iff hsound hmeant hp
  · rintro n x hx
    obtain ⟨-, pos, q, k, f, hpos, -, hocc, hq, -, -⟩ := id hx
    have hn : s.tree.Reachable n := .child hq ⟨pos, hpos, hocc⟩
    have hroot : s.tree.root ≠ some n := fun hr => by
      obtain ⟨k', hk', ht⟩ := hprogram.kind_root hr
      obtain ⟨declared, hk⟩ := hx.1
      rw [hk, Option.some.injEq] at hk'
      rw [← hk'] at ht
      cases ht
    obtain ⟨b, hb⟩ := (hprogram.exists_inScope hn).resolve_left hroot
    rw [h.tree] at hx
    obtain ⟨i, p, -, hp, -⟩ := h.reads n b x hx (by rw [← h.tree]; exact hb)
    exact ⟨p, b, (h.settles.holds_iff p n).mpr hp, hb⟩
  · intro p n x b c hp hx hin hres
    obtain ⟨v, hv⟩ := h.exists_bindingOf hres.declares
    obtain ⟨hnodup, hmem⟩ := h.references hv
    exact ⟨v, hv, List.count_eq_one_of_mem hnodup ((hmem p).mpr ⟨n, b, hp, hx, hin, hres⟩)⟩
  · intro p n x b c y v hp hx hin hv hpv
    obtain ⟨m, b', hm, hy, hin', hres⟩ := ((h.references hv).2 p).mp hpv
    obtain rfl := hp.unique_node hm
    obtain rfl := hprogram.inScope_unique hin hin'
    obtain rfl := hx.name_unique hy
    exact ⟨rfl, hres⟩
  · intro n x b hx hin hno
    exact h.undeclared_iff.mpr ⟨n, b, hx, hin, hno⟩
  · intro c x v p hv hpv
    obtain ⟨n, b, hn, hx, hin, hres⟩ := ((h.references hv).2 p).mp hpv
    exact ⟨n, b, hn, (PathId.isReferencedIdentifier_iff hsound hmeant hn).mpr ⟨x, hx⟩, hx, hin,
      hres⟩
  · exact fun x => h.undeclared_iff.mp

/-- The crawl of a grammatical program implements lexical scoping for reads. -/
theorem crawl_resolves_reads {t : Tree} (h : t.IsProgram) (hg : t.Grammatical) (config : Config) :
    ∃ s₀ s, Session.open? t config = .ok s₀ ∧ ensureScopes s₀ = .ok () s ∧ s.tree = t ∧
      s.LexicalReads := by
  obtain ⟨s₀, s, hopen, hrun, htree, s₁, u, hs⟩ := open?_crawled h hg config
  exact ⟨s₀, s, hopen, hrun, htree, hs.lexicalReads⟩

/-- The program `let x; for (x in o) {} y = o;`, built bottom up. -/
def writesProgram : Tree where
  nodes := #[{ kind := .identifier "x" none }, { kind := .variableDeclarator ⟨0⟩ none },
    { kind := .variableDeclaration .letVar [⟨1⟩] }, { kind := .identifier "x" none },
    { kind := .identifier "o" none }, { kind := .blockStatement [] },
    { kind := .forInStatement ⟨3⟩ ⟨4⟩ ⟨5⟩ }, { kind := .identifier "y" none },
    { kind := .identifier "o" none }, { kind := .assignmentExpression .assign ⟨7⟩ ⟨8⟩ },
    { kind := .expressionStatement ⟨9⟩ }, { kind := .program [⟨2⟩, ⟨6⟩, ⟨10⟩] [] }]
  root := some ⟨11⟩

theorem writesProgram_isProgram : writesProgram.IsProgram :=
  .of_bottomUp (by decide) (by decide) (by decide) (by decide)

/-- The program has one declaration and one assignment, and neither functions, imports nor catch
clauses. -/
theorem writesProgram_kinds {n : NodeId} {k : NodeKind} (hk : writesProgram.kind? n = some k) :
    k.type.isFunction = false ∧ k.type ≠ .importDeclaration ∧ k.type ≠ .catchClause ∧
      (k.type = .assignmentExpression → n = ⟨9⟩) ∧ (k.type = .variableDeclaration → n = ⟨2⟩) := by
  have htypes : ∀ i < 12, ∀ type ∈ writesProgram.type? ⟨i⟩, type.isFunction = false ∧
      type ≠ .importDeclaration ∧ type ≠ .catchClause ∧
        (type = .assignmentExpression → (⟨i⟩ : NodeId) = ⟨9⟩) ∧
          (type = .variableDeclaration → (⟨i⟩ : NodeId) = ⟨2⟩) := by decide
  exact htypes n.index ((writesProgram.kind?_isSome_iff n).mp ⟨k, hk⟩) k.type
    (Tree.type?_of_kind hk)

theorem writesProgram_grammatical : writesProgram.Grammatical := .of_plain (by decide)

theorem writesProgram_resolves_reads : writesProgram.IsProgram ∧ writesProgram.Grammatical ∧
    ∃ s₀ s, Session.open? writesProgram {} = .ok s₀ ∧ ensureScopes s₀ = .ok () s ∧
      s.tree = writesProgram ∧ s.LexicalReads :=
  ⟨writesProgram_isProgram, writesProgram_grammatical,
    crawl_resolves_reads writesProgram_isProgram writesProgram_grammatical {}⟩

/-! ## Writes -/

/-- A construct that writes to a variable is an assignment, an update or a loop over keys or
values. -/
theorem Session.not_plain_of_writes {s : Session} {p : PathId} {n : NodeId} {x : String}
    (hp : s.Holds p n) (hn : s.tree.Assigns n x ∨ s.tree.Iterates n x) : ¬ s.Plain p := by
  rintro ⟨m, k, hm, hk, hassign, hupdate, hin, hof⟩
  obtain rfl := hp.unique_node hm
  rcases hn with hn | hn
  · cases hn with
    | assignment hk' => exact hassign (by rw [Option.some.inj (hk.symm.trans hk')]; rfl)
    | update hk' => exact hupdate (by rw [Option.some.inj (hk.symm.trans hk')]; rfl)
  · cases hn with
    | keys hk' => exact hin (by rw [Option.some.inj (hk.symm.trans hk')]; rfl)
    | values hk' => exact hof (by rw [Option.some.inj (hk.symm.trans hk')]; rfl)

/-- Of the constructs that write to a variable, the binding it leads to knows the assignments and
the updates. -/
theorem Session.Crawled.noted_iff {s₁ s : Session} {u : Uses} (h : s₁.Crawled u s)
    {n b c : NodeId} {x : String} {v : Binding} (hv : s.BindingOf c x v)
    (hn : s.tree.Reachable n) (hwrites : s.tree.Assigns n x ∨ s.tree.Iterates n x)
    (hb : s.tree.Assigns n x → s.tree.InScope n b) (hres : s.tree.Resolves b x c) :
    (∃ p ∈ v.violations, s.Holds p n) ↔ s.tree.Assigns n x := by
  constructor
  · rintro ⟨p, hpv, hp⟩
    obtain ⟨-, hx, -⟩ := (h.violations hv hp (s.not_plain_of_writes hp hwrites)).mp hpv
    exact hx
  · intro hx
    have hin := hb hx
    rw [h.tree] at hn hin hx
    obtain ⟨-, p, -, -, hp, -⟩ := h.assigns n b x hn hin hx
    rw [← h.tree] at hin hx
    have hp' := (h.settles.holds_iff p n).mpr hp
    have hnot := s.not_plain_of_writes hp' hwrites
    exact ⟨p, (h.violations hv hp' hnot).mpr ⟨b, hx, hin, hres⟩, hp'⟩

/-- An assignment opens no scope. -/
theorem Tree.Assigns.inScope {t : Tree} {n b : NodeId} {x : String} (h : t.Assigns n x)
    (hb : t.ScopeAt n b) : t.InScope n b := by
  rcases hb with ⟨ho, -⟩ | ⟨-, hb⟩
  · cases h with
    | assignment hk => exact absurd ho (Tree.not_opens_of_not_scopable hk rfl)
    | update hk => exact absurd ho (Tree.not_opens_of_not_scopable hk rfl)
  · exact hb

/-- The operand of an update is read. -/
theorem Tree.reads_of_update {t : Tree} {n argument : NodeId} {op : UpdateOperator} {before : Bool}
    {x : String} (hn : t.Reachable n)
    (hk : t.kind? n = some (.updateExpression op argument before)) (hx : t.Assigns n x) :
    t.Reads argument x ∧ t.IsChild n argument := by
  have hocc : t.occupant? (.slot n .argument) = some argument := by
    simp [Tree.occupant?, Tree.field?, hk, NodeKind.child?, NodeKind.fields, Child.node?]
  cases hx with
  | assignment hk' => rw [hk] at hk'; cases hk'
  | update hk' hka =>
    rw [hk] at hk'
    cases hk'
    exact ⟨⟨⟨_, hka⟩, .slot n .argument, n, _, .argument, rfl, rfl, hocc, hn, hk, rfl⟩,
      .slot n .argument, rfl, hocc⟩

/-- The crawl notes every assignment and every update at the binding that its variable leads to. A
variable that leads nowhere is a global exactly if some read of it leads nowhere, as the operand of
an update does. -/
theorem crawl_notes_writes {t : Tree} (h : t.IsProgram) (hg : t.Grammatical) (config : Config) :
    ∃ s₀ s, Session.open? t config = .ok s₀ ∧ ensureScopes s₀ = .ok () s ∧ s.tree = t ∧
      ∀ n x b, t.Reachable n → t.Assigns n x → t.ScopeAt n b →
        (∀ c, t.Resolves b x c → ∃ v, s.BindingOf c x v ∧ v.isConstant = false ∧
          ∃ p ∈ v.violations, s.Holds p n) ∧
        ((∀ c, ¬ t.Resolves b x c) →
          (s.Undeclared x ↔ ∃ m b', t.Reads m x ∧ t.InScope m b' ∧ ∀ c, ¬ t.Resolves b' x c) ∧
          (t.type? n = some .updateExpression → s.Undeclared x)) := by
  obtain ⟨s₀, s, hopen, hrun, rfl, s₁, u, hs⟩ := open?_crawled h hg config
  refine ⟨s₀, s, hopen, hrun, rfl, fun n x b hn hx hscope => ⟨fun c hres => ?_, fun hno =>
    ⟨hs.undeclared_iff, fun htype => hs.undeclared_iff.mpr ?_⟩⟩⟩
  · obtain ⟨v, hv⟩ := hs.exists_bindingOf hres.declares
    obtain ⟨p, hpv, hp⟩ := (hs.noted_iff hv hn (.inl hx) (fun hx => hx.inScope hscope) hres).mpr hx
    exact ⟨v, hv, List.isEmpty_eq_false_iff.mpr (List.ne_nil_of_mem hpv), p, hpv, hp⟩
  · cases hx with
    | assignment hk =>
      rw [Tree.type?_of_kind hk] at htype
      cases htype
    | update hk hka =>
      obtain ⟨hread, hchild⟩ := Tree.reads_of_update hn hk (.update hk hka)
      refine ⟨_, b, hread, .up hn hchild (Tree.not_opens_of_not_scopable hk rfl) ?_, hno⟩
      exact Tree.Assigns.inScope (.update hk hka) hscope

/-- The program `let x; x = o; x++;`, built bottom up. -/
def countProgram : Tree where
  nodes := #[{ kind := .identifier "x" none }, { kind := .variableDeclarator ⟨0⟩ none },
    { kind := .variableDeclaration .letVar [⟨1⟩] }, { kind := .identifier "x" none },
    { kind := .identifier "o" none }, { kind := .assignmentExpression .assign ⟨3⟩ ⟨4⟩ },
    { kind := .expressionStatement ⟨5⟩ }, { kind := .identifier "x" none },
    { kind := .updateExpression .increment ⟨7⟩ false }, { kind := .expressionStatement ⟨8⟩ },
    { kind := .program [⟨2⟩, ⟨6⟩, ⟨9⟩] [] }]
  root := some ⟨10⟩

theorem countProgram_isProgram : countProgram.IsProgram :=
  .of_bottomUp (by decide) (by decide) (by decide) (by decide)

theorem countProgram_grammatical : countProgram.Grammatical := .of_plain (by decide)

/-- The assignment and the update write to `x` in the scope of the program, which declares it. -/
theorem countProgram_assigns :
    (countProgram.Assigns ⟨5⟩ "x" ∧ countProgram.ScopeAt ⟨5⟩ ⟨10⟩) ∧
    (countProgram.Assigns ⟨8⟩ "x" ∧ countProgram.ScopeAt ⟨8⟩ ⟨10⟩) ∧
    countProgram.Resolves ⟨10⟩ "x" ⟨10⟩ := by
  have hroot : countProgram.Reachable ⟨10⟩ := .root rfl
  have hopens : countProgram.Opens ⟨10⟩ := countProgram_isProgram.opens_root rfl
  have hscope : ∀ statement n, countProgram.IsChild ⟨10⟩ statement → countProgram.IsChild statement n →
      (countProgram.type? statement).map NodeType.isScopable = some false →
      (countProgram.type? n).map NodeType.isScopable = some false → countProgram.ScopeAt n ⟨10⟩ := by
    intro statement n hstatement hn hplain hplain'
    obtain ⟨type, htype, hscopable⟩ := Option.map_eq_some_iff.mp hplain
    obtain ⟨type', htype', hscopable'⟩ := Option.map_eq_some_iff.mp hplain'
    obtain ⟨k, hk, rfl⟩ := Tree.kind_of_type? htype
    obtain ⟨k', hk', rfl⟩ := Tree.kind_of_type? htype'
    exact .inr ⟨Tree.not_opens_of_not_scopable hk' hscopable', .up (.child hroot hstatement) hn
      (Tree.not_opens_of_not_scopable hk hscopable) (.here hroot hstatement hopens)⟩
  refine ⟨⟨.assignment (t := countProgram) rfl (.identifier (t := countProgram) rfl), ?_⟩,
    ⟨.update (t := countProgram) rfl rfl, ?_⟩, .here ⟨⟨2⟩, ?_, ?_⟩⟩
  · exact hscope ⟨6⟩ ⟨5⟩ ⟨.item ⟨10⟩ .body 1, rfl, rfl⟩ ⟨.slot ⟨6⟩ .expression, rfl, rfl⟩ rfl rfl
  · exact hscope ⟨9⟩ ⟨8⟩ ⟨.item ⟨10⟩ .body 2, rfl, rfl⟩ ⟨.slot ⟨9⟩ .expression, rfl, rfl⟩ rfl rfl
  · exact .child hroot ⟨.item ⟨10⟩ .body 0, rfl, rfl⟩
  · exact .lexical (t := countProgram) rfl (by decide) (List.mem_singleton_self _) rfl
      (.identifier (t := countProgram) rfl)
      (.here hroot ⟨.item ⟨10⟩ .body 0, rfl, rfl⟩ hopens)

/-- Both writes are noted at the binding of `x`. -/
theorem countProgram_notes_writes : countProgram.IsProgram ∧ countProgram.Grammatical ∧
    countProgram.Assigns ⟨5⟩ "x" ∧ countProgram.Assigns ⟨8⟩ "x" ∧
    countProgram.Resolves ⟨10⟩ "x" ⟨10⟩ ∧
    ∃ s₀ s, Session.open? countProgram {} = .ok s₀ ∧ ensureScopes s₀ = .ok () s ∧
      s.tree = countProgram ∧ ∀ n ∈ [(⟨5⟩ : NodeId), ⟨8⟩], ∃ v, s.BindingOf ⟨10⟩ "x" v ∧
        v.isConstant = false ∧ ∃ p ∈ v.violations, s.Holds p n := by
  obtain ⟨⟨hassigns, hscope⟩, ⟨hassigns', hscope'⟩, hresolves⟩ := countProgram_assigns
  obtain ⟨s₀, s, hopen, hrun, htree, hnoted⟩ :=
    crawl_notes_writes countProgram_isProgram countProgram_grammatical {}
  have hreach : ∀ statement n, countProgram.IsChild ⟨10⟩ statement →
      countProgram.IsChild statement n → countProgram.Reachable n :=
    fun _ _ hstatement hn => .child (.child (.root rfl) hstatement) hn
  refine ⟨countProgram_isProgram, countProgram_grammatical, hassigns, hassigns', hresolves, s₀, s,
    hopen, hrun, htree, fun n hn => ?_⟩
  rcases List.mem_pair.mp hn with rfl | rfl
  · exact (hnoted ⟨5⟩ "x" ⟨10⟩ (hreach ⟨6⟩ ⟨5⟩ ⟨.item ⟨10⟩ .body 1, rfl, rfl⟩
      ⟨.slot ⟨6⟩ .expression, rfl, rfl⟩) hassigns hscope).1 ⟨10⟩ hresolves
  · exact (hnoted ⟨8⟩ "x" ⟨10⟩ (hreach ⟨9⟩ ⟨8⟩ ⟨.item ⟨10⟩ .body 2, rfl, rfl⟩
      ⟨.slot ⟨9⟩ .expression, rfl, rfl⟩) hassigns' hscope').1 ⟨10⟩ hresolves

/-- The program declares nothing but `x`, for all of itself. -/
theorem writesProgram_declares {b : NodeId} {z : String} (h : writesProgram.Declares b z) :
    b = ⟨11⟩ ∧ z = "x" := by
  have hin : writesProgram.InScope ⟨2⟩ ⟨11⟩ :=
    .here (.root rfl) ⟨.item ⟨11⟩ .body 0, rfl, rfl⟩ (writesProgram_isProgram.opens_root rfl)
  obtain ⟨d, hd, hintro⟩ := h
  cases hintro with
  | inside hb =>
    cases hb with
    | param hk hfun => rw [(writesProgram_kinds hk).1] at hfun; cases hfun
    | caught hk => exact absurd rfl (writesProgram_kinds hk).2.2.1
    | ownName hk => cases (writesProgram_kinds hk).1
  | function hk => cases (writesProgram_kinds hk).1
  | imported hk => exact absurd rfl (writesProgram_kinds hk).2.1
  | lexical hk _ he hke hx hb =>
    obtain rfl := (writesProgram_kinds hk).2.2.2.2 rfl
    cases hk
    obtain rfl := List.mem_singleton.mp he
    cases hke
    refine ⟨writesProgram_isProgram.inScope_unique hb hin, ?_⟩
    cases hx with
    | identifier hk0 => cases hk0; rfl
    | element hk0 | member hk0 | value hk0 | rest hk0 | initialized hk0 => cases hk0
  | hoisted hk =>
    obtain rfl := (writesProgram_kinds hk).2.2.2.2 rfl
    cases hk

/-- The assignment `y = o` writes to a variable that leads nowhere and that is no global, and the
loop `for (x in o) {}` writes to `x` without leaving a note at its binding. -/
theorem writesProgram_unnoted : writesProgram.IsProgram ∧ writesProgram.Grammatical ∧
    (writesProgram.Assigns ⟨9⟩ "y" ∧ writesProgram.ScopeAt ⟨9⟩ ⟨11⟩ ∧
      ∀ c, ¬ writesProgram.Resolves ⟨11⟩ "y" c) ∧
    (writesProgram.Iterates ⟨6⟩ "x" ∧ writesProgram.ScopeAt ⟨6⟩ ⟨6⟩ ∧
      writesProgram.Resolves ⟨6⟩ "x" ⟨11⟩) ∧
    ∃ s₀ s v, Session.open? writesProgram {} = .ok s₀ ∧ ensureScopes s₀ = .ok () s ∧
      ¬ s.Undeclared "y" ∧ s.BindingOf ⟨11⟩ "x" v ∧ ¬ ∃ p ∈ v.violations, s.Holds p ⟨6⟩ := by
  have hroot : writesProgram.Reachable ⟨11⟩ := .root rfl
  have hopens : writesProgram.Opens ⟨11⟩ := writesProgram_isProgram.opens_root rfl
  have hdeclaration : writesProgram.IsChild ⟨11⟩ ⟨2⟩ := ⟨.item ⟨11⟩ .body 0, rfl, rfl⟩
  have hloop : writesProgram.IsChild ⟨11⟩ ⟨6⟩ := ⟨.item ⟨11⟩ .body 1, rfl, rfl⟩
  have hstatement : writesProgram.IsChild ⟨11⟩ ⟨10⟩ := ⟨.item ⟨11⟩ .body 2, rfl, rfl⟩
  have hassignment : writesProgram.IsChild ⟨10⟩ ⟨9⟩ := ⟨.slot ⟨10⟩ .expression, rfl, rfl⟩
  have hassign : writesProgram.Reachable ⟨9⟩ := .child (.child hroot hstatement) hassignment
  have hassigns : writesProgram.Assigns ⟨9⟩ "y" :=
    .assignment (t := writesProgram) rfl (.identifier (t := writesProgram) rfl)
  have hscope : writesProgram.ScopeAt ⟨9⟩ ⟨11⟩ :=
    .inr ⟨Tree.not_opens_of_not_scopable (t := writesProgram) rfl rfl,
      .up (.child hroot hstatement) hassignment
        (Tree.not_opens_of_not_scopable (t := writesProgram) rfl rfl)
        (.here hroot hstatement hopens)⟩
  have hnowhere : ∀ c, ¬ writesProgram.Resolves ⟨11⟩ "y" c := fun c hres => by
    simpa using (writesProgram_declares hres.declares).2
  have hiterates : writesProgram.Iterates ⟨6⟩ "x" :=
    .keys (t := writesProgram) rfl (.identifier (t := writesProgram) rfl)
  have hscope' : writesProgram.ScopeAt ⟨6⟩ ⟨6⟩ :=
    .inl ⟨⟨_, rfl, rfl, fun hb => by cases hb⟩, rfl⟩
  have hres : writesProgram.Resolves ⟨6⟩ "x" ⟨11⟩ := by
    refine .outer (fun hd => by simpa using (writesProgram_declares hd).1)
      (.here hroot hloop hopens) (.here ⟨⟨2⟩, .child hroot hdeclaration, ?_⟩)
    exact .lexical (t := writesProgram) rfl (by decide) (List.mem_singleton_self _) rfl
      (.identifier (t := writesProgram) rfl) (.here hroot hdeclaration hopens)
  obtain ⟨s₀, s, hopen, hrun, htree, s₁, u, hs⟩ :=
    open?_crawled writesProgram_isProgram writesProgram_grammatical {}
  rw [← htree] at hiterates hres hloop hroot
  obtain ⟨v, hv⟩ := hs.exists_bindingOf hres.declares
  have hnot : ¬ s.tree.Assigns ⟨6⟩ "x" := by
    rw [htree]
    intro hx
    cases hx with
    | assignment hk => cases hk
    | update hk => cases hk
  refine ⟨writesProgram_isProgram, writesProgram_grammatical, ⟨hassigns, hscope, hnowhere⟩,
    ⟨htree ▸ hiterates, hscope', htree ▸ hres⟩, s₀, s, v, hopen, hrun, fun hy => ?_, hv, fun hp => ?_⟩
  · obtain ⟨m, b, hread, -⟩ := hs.undeclared_iff.mp hy
    rw [htree] at hread
    obtain ⟨declared, hk⟩ := hread.1
    have hm : m = ⟨7⟩ := by
      have hnames : ∀ i < 12, (writesProgram.kind? ⟨i⟩).bind NodeKind.identifierName? = some "y" →
          (⟨i⟩ : NodeId) = ⟨7⟩ := by decide
      exact hnames m.index ((writesProgram.kind?_isSome_iff m).mp ⟨_, hk⟩) (by rw [hk]; rfl)
    subst hm
    exact Tree.Meant.not_reads_of_position ⟨writesProgram_isProgram, writesProgram_grammatical, rfl⟩
      (.slot ⟨9⟩ .left) hassign rfl rfl rfl rfl rfl "y" hread
  · exact hnot ((hs.noted_iff hv (.child hroot hloop) (.inr hiterates) (fun hx => absurd hx hnot)
      hres).mp hp)

end Espalier
