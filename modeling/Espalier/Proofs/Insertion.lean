import Espalier.Proofs.Enclosing
import Espalier.Proofs.ListEdits

set_option autoImplicit false

/-! # What an insertion declares

Statements that come into a list declare their names at once: what a `var` declaration or a function
declaration among them gives to the function around it is bound in the scope of that function when
the insertion is done (`PathId.insertAt_matched`). An insertion goes into the list that the path is
an element of, or into one further up where a parent stands in for the path (`Tree.LandsIn`). -/

namespace Espalier

open SessionM Session

variable {α β : Type}

/-! ## Names for the function around -/

section

variable (t : Tree)

/-- The declaration at the node gives the name to the function or program around it. -/
inductive Tree.GivesName : NodeId → String → Prop
  | declarator {d e target : NodeId} {ds : List NodeId} {init : Option NodeId} {x : String} :
    t.kind? d = some (.variableDeclaration .var ds) → e ∈ ds →
    t.kind? e = some (.variableDeclarator target init) → t.Binds target x → GivesName d x
  | function {f i body : NodeId} {ps : List NodeId} {isAsync isGenerator : Bool}
    {returned declared : Option ValueType} {x : String} :
    t.kind? f = some (.functionDeclaration (some i) ps body isAsync isGenerator returned) →
    t.kind? i = some (.identifier x declared) → GivesName f x

end

section Steps

variable {s : Session} {K : Set NodeId}

/-- Steps of which each makes something true that stays true. -/
theorem mapM_establishes (l : List α) (f : α → SessionM β) (P : α → Session → Prop)
    (hs : s.Sound K) (ho : s.scopes.Ordered)
    (hkeep : ∀ a s₁ s₂, P a s₁ → s₁.Surveys K s₂ → P a s₂)
    (hstep : ∀ a ∈ l, ∀ s₁, s.Surveys K s₁ →
      Returns (f a) s₁ fun _ s' => s₁.Surveys K s' ∧ P a s') :
    Returns (l.mapM f) s fun _ s' => s.Surveys K s' ∧ ∀ a ∈ l, P a s' := by
  induction l generalizing s with
  | nil => exact .pure ⟨.refl hs ho, by simp⟩
  | cons a l ih =>
    rw [List.mapM_cons]
    refine (hstep a (by simp) s (.refl hs ho)).bind fun _ s₁ ⟨h₁, ha⟩ => ?_
    refine (ih h₁.sound h₁.ordered fun a' ha' s₂ h₂ =>
      hstep a' (by simp [ha']) s₂ (h₁.trans h₂)).bind fun _ s₂ ⟨h₂, hl⟩ => .pure ⟨h₁.trans h₂, ?_⟩
    intro a' ha'
    rcases List.mem_cons.mp ha' with rfl | ha'
    · exact hkeep a' s₁ s₂ ha h₂
    · exact hl a' ha'

theorem forM_establishes (l : List α) (f : α → SessionM Unit) (P : α → Session → Prop)
    (hs : s.Sound K) (ho : s.scopes.Ordered)
    (hkeep : ∀ a s₁ s₂, P a s₁ → s₁.Surveys K s₂ → P a s₂)
    (hstep : ∀ a ∈ l, ∀ s₁, s.Surveys K s₁ →
      Returns (f a) s₁ fun _ s' => s₁.Surveys K s' ∧ P a s') :
    Returns (l.forM f) s fun _ s' => s.Surveys K s' ∧ ∀ a ∈ l, P a s' := by
  induction l generalizing s with
  | nil => exact .pure ⟨.refl hs ho, by simp⟩
  | cons a l ih =>
    show Returns (f a >>= fun _ => l.forM f) s _
    refine (hstep a (by simp) s (.refl hs ho)).bind fun _ s₁ ⟨h₁, ha⟩ => ?_
    refine (ih h₁.sound h₁.ordered fun a' ha' s₂ h₂ =>
      hstep a' (by simp [ha']) s₂ (h₁.trans h₂)).mono fun _ s₂ ⟨h₂, hl⟩ => ⟨h₁.trans h₂, ?_⟩
    intro a' ha'
    rcases List.mem_cons.mp ha' with rfl | ha'
    · exact hkeep a' s₁ s₂ ha h₂
    · exact hl a' ha'

end Steps

section Names

variable {s s' : Session} {K : Set NodeId} {p : PathId} {n : NodeId} {i j fn : ScopeId} {x : String}

/-- A name that was declared is bound. -/
theorem registerBinding_binds (hs : s.Sound K) (ho : s.scopes.Ordered) (hi : s.HasScope i)
    (name : String) (kind : BindingKind) (path : PathId) (identifier : NodeId) :
    Returns (i.registerBinding name kind path identifier) s fun _ s' =>
      s.Surveys K s' ∧ s'.Binds i name := by
  obtain ⟨j, -, hrun⟩ := ScopeId.registerBinding_run ho hi name kind path identifier
  exact ⟨(), s.register j i { name, identifier, scope := i, path, kind }, hrun,
    surveys_register hs ho, (binds_register hi i name).mpr (.inr ⟨rfl, rfl⟩)⟩

/-- Declaring the names of a pattern binds each of them. -/
theorem registerPattern_binds {pattern : PathId} {d : PathData} (hs : s.Sound K)
    (ho : s.scopes.Ordered) (hi : s.HasScope i) (hd : s.paths[pattern.index]? = some d)
    (kind : BindingKind) (site : PathId) :
    Returns (registerPattern pattern kind i site) s fun _ s' => s.Surveys K s' ∧
      ∀ n x, d.node = some n → s.tree.Named n x → s'.Binds i x := by
  unfold registerPattern
  refine (PathId.bindingIdentifierPaths_returns true hs hd).bind fun found s₁ hfound => ?_
  obtain ⟨hwent, hgathers, hkeys⟩ := hfound
  have hsur := hwent.surveys ho
  refine (forM_establishes found.entries _ (fun e s' => s'.Binds i e.1) hsur.sound hsur.ordered
    (fun e s₁ s₂ he hs => he.later hs) fun e he s₂ h₂ => ?_).mono fun _ s₂ hentries => ?_
  · refine (forM_establishes e.2 _ (fun _ s' => s'.Binds i e.1) h₂.sound h₂.ordered
      (fun _ s₁ s₂ hb hs => hb.later hs) fun q hq s₃ h₃ => ?_).mono fun _ s₃ hsites => ?_
    · obtain ⟨m, declared, hm, -⟩ := (hgathers e he).2 q hq
      have hm₃ := h₃.grew.holds h₂.sound (h₂.grew.holds hsur.sound hm)
      refine returns_bind_of_ok (PathId.node?_run_of_holds hm₃) ?_
      exact registerBinding_binds h₃.sound h₃.ordered (((hi.later hsur).later h₂).later h₃) e.1
        kind site m
    · obtain ⟨q, hq⟩ := List.exists_mem_of_ne_nil _ (hgathers e he).1
      exact ⟨hsites.1, hsites.2 q hq⟩
  · refine ⟨hsur.trans hentries.1, fun n x hn hx => ?_⟩
    obtain ⟨e, he, rfl⟩ := List.mem_map.mp ((hkeys x).mpr ⟨n, hn, hx⟩)
    exact hentries.2 e he

/-- The names of a `var` declaration are bound in the scope of the function around it. -/
theorem registerDeclarators_binds (hs : s.Sound K) (ho : s.scopes.Ordered) (hp : s.Holds p n)
    {ds : List NodeId} (hk : s.tree.kind? n = some (.variableDeclaration .var ds))
    (hi : s.HasScope i) (hfn : s.Hoists i fn) :
    Returns (registerDeclarators p .var i fun _ => pure {}) s fun _ s' => s.Surveys K s' ∧
      ∀ x, s.tree.GivesName n x → s'.Binds fn x := by
  have hfield : s.tree.field? n .declarations = some (.many ds) := by
    simp [Tree.field?, hk, NodeKind.child?, NodeKind.fields]
  obtain ⟨j, hrun, hj⟩ := ScopeId.functionScope_run ho hi
  obtain rfl := hj.unique hfn
  unfold registerDeclarators
  rw [if_pos rfl]
  refine returns_bind_of_ok hrun ?_
  refine (PathId.elements_reached hs hp hfield).bind fun qs s₁ hqs => ?_
  have hsur := hqs.toWent.surveys ho
  have hdeclarators := mapM_establishes qs (fun declarator => do
      registerPattern (← declarator.child .id) (.ofVariableKind .var) j declarator
      pure ({} : Uses))
    (fun q s' => ∀ e target init x, s₁.Holds q e →
      s.tree.kind? e = some (.variableDeclarator target init) → s.tree.Binds target x →
        s'.Binds j x) hsur.sound hsur.ordered
    (fun q s₁ s₂ hq hs e target init x he hke hx => (hq e target init x he hke hx).later hs)
    fun q hq s₂ h₂ => by
      obtain ⟨e, -, pos, hl, -, hocc⟩ := hqs.reached q hq
      have hqe₁ : s₁.Holds q e := hl.holds (by rw [hqs.tree]; exact hocc)
      have hqe := h₂.grew.holds hsur.sound hqe₁
      refine (PathId.child_arrives h₂.sound hqe .id).bind fun r s₃ hr => ?_
      obtain ⟨d, hd, hdn⟩ := hr.known
      have h₃ := hr.toWent.surveys h₂.ordered
      refine (registerPattern_binds h₃.sound h₃.ordered (((hj.hasScope.later hsur).later h₂).later h₃)
        hd (.ofVariableKind .var) q).bind fun _ s₄ hpattern => .pure ⟨h₃.trans hpattern.1, ?_⟩
      intro e' target init x he' hke hx
      obtain rfl := hqe₁.unique_node he'
      refine hpattern.2 target x ?_ (by rw [h₃.tree, h₂.tree, hqs.tree]; exact hx.named)
      rw [hdn, h₂.tree, hqs.tree]
      simp [Tree.occupant?, Tree.field?, hke, NodeKind.child?, NodeKind.fields, Child.node?]
  refine hdeclarators.bind fun _ s₂ hall => .pure ⟨hsur.trans hall.1, fun x hx => ?_⟩
  cases hx with
  | function hk' => rw [hk] at hk'; cases hk'
  | declarator hk' he hke hx =>
    rw [hk] at hk'
    cases hk'
    obtain ⟨q, hq, hqe⟩ := hqs.all _ he
    exact hall.2 q hq _ _ _ x hqe hke hx

/-- The name of a function declaration is bound in the scope of the function around it. -/
private theorem declareFunction_binds (hs : s.Sound K) (ho : s.scopes.Ordered)
    (hj : s.Around i j) (hfn : s.Hoists j fn) {id : NodeId} {declared : Option ValueType}
    (hk : s.tree.kind? id = some (.identifier x declared)) :
    Returns (do
      let outer ← match (← i.data).parent with
        | some parent => parent.functionScope
        | none => pure i
      match (← ask fun t => t.kind? id).identifierName? with
      | some name => outer.registerBinding name .hoisted p id
      | none => pure ()) s fun _ s' => s'.Binds fn x := by
  have hhas := hasScope_of_around ho hj
  obtain ⟨sc, hsc, hparent⟩ := hj
  obtain ⟨fn', hrun, hh⟩ := ScopeId.functionScope_run ho hhas
  obtain rfl := hh.unique hfn
  refine returns_bind_of_ok (ScopeId.data_run hsc) ?_
  rw [hparent]
  refine returns_bind_of_ok hrun (returns_bind_of_ok (ask_run hk) ?_)
  exact (registerBinding_binds hs ho hh.hasScope x .hoisted p id).mono fun _ _ h => h.2

/-- Declaring the names of a declaration binds those that it gives to the function around it. -/
theorem PathId.declareIn_binds (hs : s.Sound K) (ho : s.scopes.Ordered) (hp : s.Holds p n)
    (hi : s.HasScope i) (hvar : ¬ s.tree.Opens n → s.Hoists i fn)
    (hfun : s.tree.Opens n → ∃ j, s.Around i j ∧ s.Hoists j fn)
    (hx : s.tree.GivesName n x) : Returns (p.declareIn n i) s fun _ s' => s'.Binds fn x := by
  unfold PathId.declareIn
  cases id hx with
  | declarator hk _ _ _ =>
    refine returns_bind_of_ok (ask_run hk) ?_
    have hnot := Tree.not_opens_of_not_scopable hk rfl
    exact (registerDeclarators_binds hs ho hp hk hi (hvar hnot)).bind fun _ s₁ h₁ =>
      .pure (h₁.2 x hx)
  | function hk hid =>
    refine returns_bind_of_ok (ask_run hk) ?_
    obtain ⟨j, hj, hh⟩ := hfun ⟨_, hk, rfl, fun hb => by cases hb⟩
    exact declareFunction_binds hs ho hj hh hid

end Names

/-! ## Registering what was inserted -/

section Register

variable {s s' : Session} {K : Set NodeId} {p : PathId} {n b : NodeId} {i fn : ScopeId}

/-- A declaration in a block that has a scope is registered there: the names that it gives to the
function around are bound in the scope of that function. -/
theorem PathId.registerDeclaration_binds (h : s.Matched K) (hcrawled : s.scopes.crawled = true)
    (hp : s.Holds p n) (hn : s.tree.Reachable n) (hb : s.tree.InScope n b)
    (hi : s.scopes.byBlock.get? b = some i) (hfn : s.Hoists i fn)
    (hfree : ∀ m ∈ s.tree.below [n], s.scopes.byBlock.get? m = none) {x : String}
    (hx : s.tree.GivesName n x) :
    Returns p.registerDeclaration s fun _ s' => s'.Binds fn x := by
  rw [Returns, PathId.registerDeclaration_run hp]
  by_cases hopens : s.tree.Opens n
  · refine (PathId.scope_crawls h.toOrderly hcrawled hp hn (.inl ⟨hopens, rfl⟩)
      (hfree n (s.tree.mem_below (by simp))) hb hi).bind fun k s₁ hscope => ?_
    obtain ⟨h₁, hk, haround⟩ := hscope
    refine PathId.declareIn_binds h₁.sound h₁.ordered (h₁.grew.holds h.sound hp) hk.hasScope
      (fun hnot => ?_) (fun _ => ⟨i, haround, hfn.later h₁.toSurveys⟩) (by rw [h₁.tree]; exact hx)
    rw [h₁.tree] at hnot
    exact absurd hopens hnot
  · have hrun := PathId.scope_run_of_found h.toOrderly hcrawled hp hn (.inr ⟨hopens, hb⟩) hi
    refine returns_bind_of_ok hrun ?_
    exact PathId.declareIn_binds h.sound h.ordered hp (h.ordered.byBlock b i hi) (fun _ => hfn)
      (fun ho => absurd ho hopens) hx

theorem Tree.GivesName.isDeclaration {t : Tree} {k : NodeKind} {x : String} (h : t.GivesName n x)
    (hk : t.kind? n = some k) : k.type.isDeclaration = true := by
  cases h with
  | declarator hk' => rw [Option.some.inj (hk.symm.trans hk')]; rfl
  | function hk' => rw [Option.some.inj (hk.symm.trans hk')]; rfl

/-- Nodes in the block of a scope, and no scope for anything in them. -/
structure Session.Awaits (s : Session) (nodes : List NodeId) (b : NodeId) (i : ScopeId) : Prop where
  scope : s.scopes.byBlock.get? b = some i
  inScope : ∀ n ∈ nodes, s.tree.Reachable n ∧ s.tree.InScope n b
  free : ∀ n ∈ nodes, ∀ m ∈ s.tree.below [n], s.scopes.byBlock.get? m = none
  apart : nodes.Pairwise fun n n' => ∀ m ∈ s.tree.below [n], m ∉ s.tree.below [n']

theorem Session.Awaits.asks {nodes : List NodeId} (h : s.Awaits nodes b i) (hn : n ∈ nodes) :
    s.Asks n := by
  by_cases hopens : s.tree.Opens n
  · exact ⟨n, .inl ⟨hopens, rfl⟩, .inr ⟨b, i, (h.inScope n hn).2, h.scope, h.free n hn⟩⟩
  · exact ⟨b, .inr ⟨hopens, (h.inScope n hn).2⟩, .inl ⟨i, h.scope⟩⟩

/-- Once the first of them is registered, the others still wait. -/
theorem Session.Awaits.tail {nodes : List NodeId} {R : Set NodeId} (h : s.Awaits (n :: nodes) b i)
    (ho : s.Opened K R s')
    (hR : ∀ m ∈ R, m ∈ s.tree.below [n] ∧ s.scopes.byBlock.get? m = none) :
    s'.Awaits nodes b i where
  scope := by
    have hnot : b ∉ R := fun hb => by simpa [h.scope] using (hR b hb).2
    rw [ho.kept b hnot, h.scope]
  inScope m hm := by
    rw [ho.tree]
    exact h.inScope m (by simp [hm])
  free m hm c hc := by
    rw [ho.tree] at hc
    have hnot : c ∉ R := fun hcR =>
      (List.pairwise_cons.mp h.apart).1 m hm c (hR c hcR).1 hc
    rw [ho.kept c hnot]
    exact h.free m (by simp [hm]) c hc
  apart := by
    rw [ho.tree]
    exact (List.pairwise_cons.mp h.apart).2

/-- Registering nodes that wait opens scopes in them only, and binds every name that one of them
gives to the function around. -/
theorem registerInserted_binds {ps : List PathId} {nodes : List NodeId}
    (hps : List.Forall₂ s.Holds ps nodes) (h : s.Matched K) (hcrawled : s.scopes.crawled = true)
    (hwaits : s.Awaits nodes b i) (hfn : s.Hoists i fn) :
    Returns (registerInserted ps) s fun _ s' => s.Opened K (s.tree.below nodes) s' ∧
      ∀ n ∈ nodes, ∀ x, s.tree.GivesName n x → s'.Binds fn x := by
  unfold registerInserted
  refine returns_bind_of_ok (show scopesCrawled s = .ok s.scopes.crawled s from rfl) ?_
  rw [if_pos hcrawled]
  induction ps generalizing s nodes with
  | nil =>
    cases hps
    exact .pure ⟨(Opened.refl h.sound h.ordered).mono fun _ hm => hm.elim, by simp⟩
  | cons q ps ih =>
    obtain ⟨n, nodes, hq, htail, rfl⟩ := List.forall₂_cons_left_iff.mp hps
    obtain ⟨hn, hin⟩ := hwaits.inScope n (by simp)
    obtain ⟨k, hk⟩ := h.sound.forest.kind n (h.sound.mem_of_holds hq)
    -- One node: a scope is opened in it, if at all.
    have hone : Returns (do if ← q.isAny NodeType.isDeclaration then q.registerDeclaration) s
        fun _ s' => ∃ R, s.Opened K R s' ∧
          (∀ m ∈ R, m ∈ s.tree.below [n] ∧ s.scopes.byBlock.get? m = none) ∧
          ∀ x, s.tree.GivesName n x → s'.Binds fn x := by
      refine returns_bind_of_ok (PathId.isAny_run_of_holds hq hk _) ?_
      by_cases hdecl : k.type.isDeclaration = true
      · rw [if_pos hdecl]
        obtain ⟨_, s₁, hrun, b', R, hb', h₁, hR⟩ :=
          PathId.registerDeclaration_matched h hcrawled hq hn (hwaits.asks (by simp))
        refine ⟨_, s₁, hrun, R, h₁, fun m hm => ?_, fun x hx => ?_⟩
        · obtain ⟨hmem, hnone, hb⟩ := hR m hm
          rcases hb' with ⟨-, rfl⟩ | ⟨-, hin'⟩
          · exact ⟨hmem, hnone⟩
          · rw [h.program.inScope_unique hin' hin, hwaits.scope] at hb
            cases hb
        · exact (PathId.registerDeclaration_binds h hcrawled hq hn hin hwaits.scope hfn
            (hwaits.free n (by simp)) hx).of_eq_ok hrun
      · rw [if_neg hdecl]
        exact .pure ⟨∅, .refl h.sound h.ordered, fun _ hm => hm.elim,
          fun x hx => absurd (hx.isDeclaration hk) hdecl⟩
    refine hone.bind fun _ s₁ ⟨R, h₁, hR, hx₁⟩ => ?_
    have hrest := ih (htail.imp fun q m hqm => h₁.grew.holds h.sound hqm)
      (h.opened h₁ fun m hm => (hR m hm).2) (h₁.widened.crawled.trans hcrawled)
      (hwaits.tail h₁ hR) (hfn.later h₁.toSurveys)
    refine hrest.mono fun _ s₂ ⟨h₂, hx₂⟩ => ?_
    rw [h₁.tree] at h₂ hx₂
    refine ⟨(h₁.trans h₂ ?_).mono ?_, fun m hm x hx => ?_⟩
    · rintro c hc ⟨n', hn', hbelow⟩
      exact (List.pairwise_cons.mp hwaits.apart).1 n' hn' c (hR c hc).1
        (Tree.mem_below_singleton.mpr hbelow)
    · rintro c (hc | ⟨n', hn', hbelow⟩)
      · exact ⟨n, by simp, Tree.mem_below_singleton.mp (hR c hc).1⟩
      · exact ⟨n', by simp [hn'], hbelow⟩
    · rcases List.mem_cons.mp hm with rfl | hm
      · exact (hx₁ x hx).later h₂.toSurveys
      · exact hx₂ m hm x hx

end Register

/-! ## Where an insertion goes -/

/-- Does insertion beside a node of the type belong beside its parent? -/
def NodeType.handsOver (own : NodeType) : NodeType → Bool
  | .expressionStatement | .labeledStatement | .exportNamedDeclaration => true
  | .exportDefaultDeclaration => own.isDeclaration
  | _ => false

/-- Insertion beside the node goes into the list: the node is an element, or its parent stands in
for it. -/
inductive Tree.LandsIn (t : Tree) (owner : NodeId) (f : Field) : NodeId → Prop
  | here {n : NodeId} {i : Nat} {k kowner : NodeKind} : t.Reachable owner →
    t.occupant? (.item owner f i) = some n → t.kind? n = some k → t.kind? owner = some kowner →
    k.type.handsOver kowner.type = false → LandsIn t owner f n
  | up {n m : NodeId} {k km : NodeKind} : t.Reachable m → t.IsChild m n → t.kind? n = some k →
    t.kind? m = some km → k.type.handsOver km.type = true → LandsIn t owner f m →
    LandsIn t owner f n

section Landing

variable {s : Session} {K : Set NodeId} {p : PathId} {n m owner : NodeId} {f : Field}
  {nodes : List NodeId} {k : NodeKind}

theorem Tree.LandsIn.exists_parent {t : Tree} (h : t.LandsIn owner f n) :
    ∃ m, t.Reachable m ∧ t.IsChild m n := by
  cases h with
  | here howner hocc => exact ⟨owner, howner, _, rfl, hocc⟩
  | up hm hc => exact ⟨_, hm, hc⟩

theorem Tree.LandsIn.reachable {t : Tree} (h : t.LandsIn owner f n) : t.Reachable n := by
  obtain ⟨m, hm, hc⟩ := h.exists_parent
  exact .child hm hc

/-- The path of a node that can be reached is linked to the path of its parent. -/
theorem Session.Sound.exists_parent (hs : s.Sound K) (hp : s.Holds p n) (hm : s.tree.Reachable m)
    (hc : s.tree.IsChild m n) : ∃ pos q, pos.Within K ∧ s.Linked p pos ∧
      s.tree.occupant? pos = some n ∧ pos.parent? = some m ∧ s.Holds q m := by
  obtain ⟨pos, hpos, hocc⟩ := hc
  obtain ⟨pos', hw, hl, hocc'⟩ := hs.linked_of_reachable hp (.child hm ⟨pos, hpos, hocc⟩)
  have hwK := Position.within_mono (fun _ hm => hs.forest.mem_of_reachable hm) hw
  obtain rfl := hs.forest.single pos pos' n
    (Position.within_of_parent hpos (hs.forest.mem_of_reachable hm)) hwK hocc hocc'
  obtain ⟨d, hf, ha⟩ := id hl
  unfold Adopts at ha
  rw [show pos.container.parent? = some m from hpos] at ha
  obtain ⟨q, -, hq⟩ := ha
  exact ⟨pos, q, hwK, hl, hocc, hpos, hq⟩

private theorem delegatesInsertion_eq {type : NodeType} (hp : s.Holds p n)
    (hk : s.tree.kind? n = some k) (hparent : p.parentType? s = .ok (some type) s) :
    p.delegatesInsertion s = .ok (k.type.handsOver type) s := by
  unfold PathId.delegatesInsertion
  rw [bind_of_ok hparent]
  cases type <;> first | rfl | exact PathId.isAny_run_of_holds hp hk _

/-- Insertion beside a node for which its parents stand in comes down to a splice. -/
theorem insertWithin_run (h : s.Orderly K) (hland : s.tree.LandsIn owner f n) (after : Bool)
    {l : List PathId} {fuel : Nat} (hl : s.Ancestry K p l) (hp : s.Holds p n)
    (hfuel : l.length ≤ fuel) : ∃ host ids i, s.Hosts K host owner f ids ∧ i ≤ ids.length ∧
      PathId.insertWithin nodes after fuel p s = host.insertAt f i nodes s := by
  induction hland generalizing p l fuel with
  | @here n i k kowner howner hocc hk hkowner hstays =>
    obtain ⟨pos, host, -, -, hocc', hpos, hhost⟩ := h.sound.exists_parent hp howner ⟨_, rfl, hocc⟩
    obtain ⟨ids, hids, hn⟩ : ∃ ids, s.tree.list? owner f = some ids ∧ n ∈ ids := by
      obtain ⟨ids, hids, hi⟩ := Option.bind_eq_some_iff.mp hocc
      exact ⟨ids, hids, List.mem_of_getElem? hi⟩
    have hhosts : s.Hosts K host owner f ids := ⟨h, hhost, howner, hids⟩
    obtain ⟨j, d, hst⟩ := hhosts.stands hp hn
    obtain ⟨rest, rfl⟩ : ∃ rest, fuel = rest + 1 :=
      ⟨fuel - 1, by have := List.length_pos_iff.mpr hl.ne_nil; omega⟩
    have hinsert : PathId.insertWithin nodes after (rest + 1) p s = p.insertHere nodes after s := by
      unfold PathId.insertWithin
      rw [bind_of_ok hst.isRemoved_run, if_neg Bool.false_ne_true,
        bind_of_ok (hst.resync_run h.sound),
        bind_of_ok (delegatesInsertion_eq hp hk (hst.parentType?_run h.sound hkowner)), hstays,
        bind_of_ok hst.parent?_run]
    rw [hinsert]
    unfold PathId.insertHere
    rw [bind_of_ok (p.data_run hst.files.data), hst.files.container, hst.files.key, hst.parent]
    cases after with
    | false => exact ⟨host, ids, j, hhosts, Nat.le_of_lt hst.lt, rfl⟩
    | true =>
      have hnext : nextIndex j s = .ok (j + 1) s := by
        unfold nextIndex
        rw [if_pos (Nat.lt_trans hst.lt (h.length_lt hhosts.reachable hhosts.list))]
        rfl
      exact ⟨host, ids, j + 1, hhosts, hst.lt, bind_of_ok hnext⟩
  | @up n m k km hm hc hk hkm hover _ ih =>
    cases hl with
    | root hl hr =>
      obtain rfl := hp.unique_node (hl.holds hr)
      obtain ⟨pos, hpos, hocc⟩ := hc
      have hw := Position.within_of_parent hpos (h.sound.forest.mem_of_reachable hm)
      obtain rfl := h.sound.forest.single pos .root n hw (Position.within_root K) hocc hr
      cases hpos
    | @up _ q pos n' m' l hl hw hocc hpos hq hup =>
      obtain rfl := hp.unique_node (hl.holds hocc)
      have hlinked := id hl
      obtain ⟨d, hf, -⟩ := hlinked
      obtain ⟨pos', hpos', hocc'⟩ := hc
      have hw' := Position.within_of_parent hpos' (h.sound.forest.mem_of_reachable hm)
      obtain rfl := h.sound.forest.single pos pos' n hw hw' hocc hocc'
      obtain rfl : m' = m := Option.some.inj (hpos.symm.trans hpos')
      obtain ⟨rest, rfl⟩ : ∃ rest, fuel = rest + 1 := ⟨fuel - 1, by simp at hfuel; omega⟩
      have hparent : p.parentType? s = .ok (some km.type) s := by
        rw [PathId.parentType?_run h.sound hw hl]
        simp [hpos, Tree.type?_of_kind hkm]
      obtain ⟨host, ids, i, hhosts, hi, hrun⟩ := ih hup hq (by simpa using hfuel)
      refine ⟨host, ids, i, hhosts, hi, Eq.trans ?_ hrun⟩
      conv_lhs => unfold PathId.insertWithin
      rw [bind_of_ok (p.isRemoved_run hf.data), hf.live, if_neg Bool.false_ne_true,
        bind_of_ok (PathId.resync_run h.sound hw hl hocc),
        bind_of_ok (delegatesInsertion_eq hp hk hparent), hover,
        bind_of_ok ((p.parent?_run hf.data).trans
          (by rw [hl.parent_eq h.sound hf.data hpos hq]))]

/-- Inserting nothing does nothing. -/
theorem PathId.insertBeside_nil_run (h : s.Sound K) (hp : s.Holds p n) (hn : s.tree.Reachable n)
    (after : Bool) : p.insertBeside [] after s = .ok [] s := by
  obtain ⟨pos, -, ⟨d, hf, -⟩, -⟩ := h.linked_of_reachable hp hn
  unfold PathId.insertBeside
  rw [bind_of_ok (p.isRemoved_run hf.data), hf.live]
  rfl

/-- Inserting beside a node for which its parents stand in comes down to a splice. -/
theorem PathId.insertBeside_run (h : s.Orderly K) (hland : s.tree.LandsIn owner f n) (after : Bool)
    (hp : s.Holds p n) (hne : nodes ≠ []) : ∃ host ids i, s.Hosts K host owner f ids ∧
      i ≤ ids.length ∧ p.insertBeside nodes after s = host.insertAt f i nodes s := by
  obtain ⟨l, hl⟩ := h.sound.exists_ancestry hland.reachable hp
  have hbound : climbBound s = .ok (2 * (s.paths.size + 1)) s := rfl
  have hfuel : l.length ≤ 2 * (s.paths.size + 1) := by
    have := hl.length_le h.sound
    omega
  obtain ⟨host, ids, i, hhosts, hi, hrun⟩ := insertWithin_run h hland after hl hp hfuel
  refine ⟨host, ids, i, hhosts, hi, ?_⟩
  obtain ⟨pos, -, ⟨d, hf, -⟩, -⟩ := h.sound.linked_of_reachable hp hland.reachable
  unfold PathId.insertBeside
  rw [bind_of_ok (p.isRemoved_run hf.data), hf.live, if_neg Bool.false_ne_true, if_neg hne,
    bind_of_ok hbound, hrun]

end Landing

/-! ## What comes in -/

section Arrival

variable {s s' : Session} {K : Set NodeId} {p : PathId} {n b owner : NodeId} {f : Field}
  {ids nodes : List NodeId} {j : Nat} {ps : List PathId} {i fn : ScopeId}

namespace Tree

variable {t t' : Tree} {x : String}

section Kinds

variable {B : Set NodeId} (hB : ∀ n ∈ B, ∀ c, t.IsChild n c → c ∈ B)
  (hkind : ∀ n ∈ B, t'.kind? n = t.kind? n)

include hB in
private theorem mem_of_children {k : NodeKind} {c : NodeId} (hk : t.kind? n = some k) (hn : n ∈ B)
    (hc : c ∈ k.children) : c ∈ B := hB n hn c ((t.isChild_iff n c).mpr ⟨k, hk, hc⟩)

include hB hkind in
/-- The names of a pattern depend on nothing but what is in the pattern. -/
theorem Binds.of_kinds (h : t.Binds n x) (hn : n ∈ B) : t'.Binds n x := by
  induction h with
  | identifier hk => exact .identifier ((hkind _ hn).trans hk)
  | element hk he _ ih =>
    exact .element ((hkind _ hn).trans hk) he (ih (mem_of_children hB hk hn (by
      simpa [NodeKind.children, NodeKind.fields, Child.ids] using he)))
  | member hk he _ ih =>
    exact .member ((hkind _ hn).trans hk) he (ih (mem_of_children hB hk hn (by
      simpa [NodeKind.children, NodeKind.fields, Child.ids] using he)))
  | value hk _ ih =>
    exact .value ((hkind _ hn).trans hk) (ih (mem_of_children hB hk hn (by
      simp [NodeKind.children, NodeKind.fields, Child.ids])))
  | rest hk _ ih =>
    exact .rest ((hkind _ hn).trans hk) (ih (mem_of_children hB hk hn (by
      simp [NodeKind.children, NodeKind.fields, Child.ids])))
  | initialized hk _ ih =>
    exact .initialized ((hkind _ hn).trans hk) (ih (mem_of_children hB hk hn (by
      simp [NodeKind.children, NodeKind.fields, Child.ids])))

include hB hkind in
theorem GivesName.of_kinds (h : t.GivesName n x) (hn : n ∈ B) : t'.GivesName n x := by
  cases h with
  | declarator hk he hke hx =>
    have heB := mem_of_children hB hk hn (by
      simpa [NodeKind.children, NodeKind.fields, Child.ids] using he)
    refine .declarator ((hkind _ hn).trans hk) he ((hkind _ heB).trans hke)
      (hx.of_kinds hB hkind (mem_of_children hB hke heB ?_))
    simp [NodeKind.children, NodeKind.fields, Child.ids]
  | @function id body params isAsync isGenerator returned declared x hk hid =>
    have hidB : id ∈ B := mem_of_children hB hk hn (by
      simp [NodeKind.children, NodeKind.fields, Child.ids])
    exact .function ((hkind _ hn).trans hk) ((hkind _ hidB).trans hid)

end Kinds

end Tree

namespace Session

/-- The way outward is a matter of the scopes alone. -/
theorem Hoists.of_scopes (h : s.Hoists i fn) (hscopes : s'.scopes = s.scopes) :
    s'.Hoists i fn := by
  have hfunction : ∀ i, s'.IsFunctionScope i ↔ s.IsFunctionScope i := fun i => by
    simp only [IsFunctionScope, hscopes]
  induction h with
  | here hi => exact .here ((hfunction _).mpr hi)
  | last hi hout =>
    refine .last (mt (hfunction _).mp hi) ?_
    rwa [IsOutermost, hscopes]
  | outer hi ha _ ih =>
    refine .outer (mt (hfunction _).mp hi) ?_ ih
    rwa [Around, hscopes]

/-- The inserted nodes give the names that they gave before. -/
theorem Spliced.givesName (h : s.Spliced K owner f ids j nodes ps s') (howner : owner ∈ K)
    (hloose : s.tree.Loose K nodes) (hn : n ∈ nodes) {x : String} (hx : s.tree.GivesName n x) :
    s'.tree.GivesName n x := by
  refine hx.of_kinds (B := s.tree.below nodes) (fun m hm c hc => Tree.below_child hm hc)
    (fun m hm => h.tree.kind m ?_) (s.tree.mem_below hn)
  rintro rfl
  exact hloose.apart _ hm howner

/-- Nodes that were spliced into a list in the block of a scope wait to be registered there. -/
theorem Spliced.awaits (h : s.Spliced K owner f ids j nodes ps s') (hm : s.Matched K)
    (howner : s.tree.Reachable owner) (hloose : s.tree.Loose K nodes) (hb : s.tree.ScopeAt owner b)
    (hi : s.scopes.byBlock.get? b = some i) : s'.Awaits nodes b i where
  scope := by rw [h.scopes, hi]
  inScope n hn := by
    have hrearranged := h.tree.rearranged fun m hm => (mem_splice j).mp hm
    have hb' := hrearranged.scopeAt hm.sound.forest hloose
      (Tree.Relisted.within_list (hm.sound.forest.mem_of_reachable howner)) h.tree.type? howner hb
      h.edited.owner
    exact ⟨.child h.edited.owner (h.child hn),
      Tree.inScope_of_scopeAt h.edited.owner (h.child hn) hb'⟩
  free n hn := h.unscoped hm (hm.sound.forest.mem_of_reachable howner) hloose hn
  apart := by
    have hF := h.edited.orderly.sound.forest
    refine hloose.nodup.imp_of_mem fun {n n'} hn hn' hne m hm => ?_
    obtain ⟨pos, hpos, hocc⟩ := h.child hn
    obtain ⟨pos', hpos', hocc'⟩ := h.child hn'
    refine hF.below_apart (hF.mem_of_reachable h.edited.owner) hpos hpos' ?_ hocc hocc' hm
    rintro rfl
    exact hne (Option.some.inj (hocc.symm.trans hocc'))

end Session

/-- Nodes that are spliced into a list leave scopes and blocks in step. Where the list is in the
block of a scope, the names that they give to the function around are bound in its scope. -/
theorem PathId.insertAt_matched {host : PathId} (h : s.Matched K)
    (hhosts : s.Hosts K host owner f ids) (hj : j ≤ ids.length) (hloose : s.tree.Loose K nodes)
    (hcrawled : s.scopes.crawled = true) (hb : s.tree.ScopeAt owner b)
    (hi : s.scopes.byBlock.get? b = some i) (hfn : s.Hoists i fn) :
    Returns (host.insertAt f j nodes) s fun _ s' => s'.Matched (K ∪ s.tree.below nodes) ∧
      s'.scopes.crawled = true ∧ ∀ n ∈ nodes, ∀ x, s.tree.GivesName n x → s'.Binds fn x := by
  obtain ⟨k, hk, hc⟩ := hhosts.child
  have howner := hhosts.mem_forest
  obtain ⟨ps, s₁, hs₁, hrun⟩ :=
    PathId.insertAt_run h.toOrderly hhosts.holds hhosts.reachable hk hc hj hloose
  have hm₁ := (hs₁.reworked h.sound howner hloose).matched h
  have hwaits := hs₁.awaits h hhosts.reachable hloose hb hi
  rw [Returns, hrun]
  have hcrawled₁ : s₁.scopes.crawled = true := by rw [hs₁.scopes, hcrawled]
  refine (registerInserted_binds hs₁.holds hm₁ hcrawled₁ hwaits (hfn.of_scopes hs₁.scopes)).bind
    fun _ s₂ hregistered => ?_
  obtain ⟨h₂, hnames⟩ := hregistered
  refine .pure ⟨hm₁.opened h₂ ?_, h₂.widened.crawled.trans hcrawled₁, ?_⟩
  · rintro m ⟨n, hn, hbelow⟩
    exact hwaits.free n hn m (Tree.mem_below_singleton.mpr hbelow)
  · intro n hn x hx
    exact hnames n hn x (hs₁.givesName howner hloose hn hx)

end Arrival

end Espalier
