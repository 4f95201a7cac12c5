import Espalier.Proofs.Prudence
import Espalier.Proofs.Scoping

set_option autoImplicit false

/-! # What an insertion declares

Statements that come into a list declare their names at once, wherever the list is found: at the
path of the insertion, or at a parent that stands in for it. What a `var` declaration or a function
declaration among them gives to the function around it is bound in the scope of that function when
the insertion is done (`insertion_binds`). The scope is that of the path, unless the path holds a
function, which is a scope of its own: then it is that of its parent. Where a path stands in no list,
its statement gets a block with what is inserted beside it, and no scope learns of the names
(`PathId.insertHere_scopes`). -/

namespace Espalier

open SessionM Session

/-! ## The scope that the names go to -/

section Hoist

variable {s s' : Session} {K : Set NodeId} {p q : PathId} {n m b owner : NodeId} {f : Field}
  {nodes : List NodeId}

/-- What can be reached is in a scope, or opens one. -/
theorem Tree.IsProgram.exists_scopeAt {t : Tree} (h : t.IsProgram) (hn : t.Reachable n) : ∃ b, t.ScopeAt n b := by
  by_cases ho : t.Opens n
  · exact ⟨n, .inl ⟨ho, rfl⟩⟩
  · rcases h.exists_inScope hn with hroot | ⟨b, hb⟩
    · exact absurd (h.opens_root hroot) ho
    · exact ⟨b, .inr ⟨ho, hb⟩⟩

/-- What stands in for a node opens no scope. -/
theorem NodeType.handsOver_not_scopable {own type : NodeType} (h : own.handsOver type = true) :
    type.isScopable = false := by
  cases type <;> first | rfl | cases h

/-- The list of an insertion is in the block around the path. -/
theorem Tree.IsProgram.scopeAt_owner {t : Tree} (h : t.IsProgram) (hland : t.LandsIn owner f n)
    (hb : t.InScope n b) : t.ScopeAt owner b := by
  induction hland with
  | here howner hocc _ _ _ => exact h.scopeAt_parent howner ⟨_, rfl, hocc⟩ hb
  | up hm hc _ hkm hover _ ih =>
    rcases h.scopeAt_parent hm hc hb with ⟨ho, -⟩ | ⟨-, hb⟩
    · exact absurd ho (Tree.not_opens_of_not_scopable hkm (NodeType.handsOver_not_scopable hover))
    · exact ih hb

namespace Session

/-- Whether it goes before or behind the first path: when the nodes are inserted there, the names
that they give to the function around are bound in the function scope of the second path, as it was
before. -/
def InsertionBinds (s : Session) (p q : PathId) (nodes : List NodeId) : Prop :=
  ∀ behind : Bool, Returns (do (← q.scope).functionScope) s fun fn s₁ =>
    Returns (p.insertBeside nodes behind) s₁ fun _ s₂ =>
      ∀ d ∈ nodes, ∀ x, s.tree.GivesName d x → ∃ v, fn.ownBinding? x s₂ = .ok (some v) s₂

end Session

theorem ScopeId.ownBinding?_of_binds {i : ScopeId} {x : String} (h : s.Binds i x) :
    ∃ v, i.ownBinding? x s = .ok (some v) s := by
  obtain ⟨sc, hsc, hx⟩ := h
  obtain ⟨v, hv⟩ := Option.isSome_iff_exists.mp hx
  refine ⟨v, ?_⟩
  unfold ScopeId.ownBinding?
  rw [bind_of_ok (ScopeId.data_run hsc)]
  show EStateM.Result.ok (sc.bindings.get? x) s = _
  rw [hv]

/-- Insertion into a list of a block that has a scope. -/
private theorem insertBeside_binds (h : s.Matched K) (hcrawled : s.scopes.crawled = true)
    (hp : s.Holds p n) (hland : s.tree.LandsIn owner f n) (hloose : s.tree.Loose K nodes)
    {i fn : ScopeId} (hb : s.tree.InScope n b) (hi : s.scopes.byBlock.get? b = some i)
    (hfn : s.Hoists i fn) (behind : Bool) : Returns (p.insertBeside nodes behind) s fun _ s' =>
      ∀ d ∈ nodes, ∀ x, s.tree.GivesName d x → ∃ v, fn.ownBinding? x s' = .ok (some v) s' := by
  by_cases hnil : nodes = []
  · subst hnil
    exact ⟨[], s, PathId.insertBeside_nil_run h.sound hp hland.reachable behind, by simp⟩
  · obtain ⟨host, ids, j, hhosts, hj, hrun⟩ :=
      PathId.insertBeside_run h.toOrderly hland behind hp hnil
    rw [Returns, hrun]
    refine (PathId.insertAt_matched h hhosts hj hloose hcrawled
      (h.program.scopeAt_owner hland hb) hi hfn).mono fun _ s' hbinds => ?_
    exact fun d hd x hx => ScopeId.ownBinding?_of_binds (hbinds.2.2 d hd x hx)

/-- In the session of a client that asks for scopes from outside in. -/
theorem Session.Prudent.insertionBinds (h : s.Prudent K) (hp : s.Holds p n)
    (hland : s.tree.LandsIn owner f n) (hloose : s.tree.Loose K nodes) (hq : s.Holds q m)
    (hm : (m = n ∧ ¬ s.tree.Opens n) ∨ (s.tree.Reachable m ∧ s.tree.IsChild m n))
    (hasks : (after ensureScopes s).Asks m) : s.InsertionBinds p q nodes := by
  intro behind
  have hup := h.upright
  obtain ⟨h₁, hcrawled, htree, hkeeps⟩ := after_ensureScopes hup
  have hreach : s.tree.Reachable m := by
    rcases hm with ⟨rfl, -⟩ | ⟨hm, -⟩
    · exact hland.reachable
    · exact hm
  refine (PathId.scope_upright hup hq hreach hasks).bind fun i s₁ ⟨hup₁, hs₁, b, hb, hi⟩ => ?_
  have htree₁ : s₁.tree = s.tree := hs₁.tree.trans htree
  have hin : s.tree.InScope n b := by
    rcases hm with ⟨rfl, hno⟩ | ⟨hm, hc⟩
    · rcases hb with ⟨ho, -⟩ | ⟨-, hb⟩
      · exact absurd ho hno
      · exact hb
    · exact Tree.inScope_of_scopeAt hm hc hb
  obtain ⟨fn, hrun, hfn⟩ := ScopeId.functionScope_run hup₁.ordered hi.hasScope
  refine ⟨fn, s₁, hrun, ?_⟩
  rw [← htree₁] at hland hloose hin ⊢
  exact insertBeside_binds hup₁.toMatched (hs₁.widened.crawled.trans hcrawled)
    (hs₁.grew.holds h₁.sound (hkeeps p n hp)) hland hloose hin (hup₁.found i b hi) hfn behind

end Hoist

/-! ## Programs that were only built and crawled -/

namespace Tree.Grown

variable {t t' : Tree} {K : Set NodeId} {n b : NodeId}

/-- New nodes open no scope around an old one. -/
theorem opens_iff (h : t.Grown t') (hF : t.Forest K) (hb : t.Reachable b) :
    t'.Opens b ↔ t.Opens b := by
  have hkind : ∀ m, t.Reachable m → t'.kind? m = t.kind? m := by
    intro m hm
    obtain ⟨k, hk⟩ := hF.kind m (hF.mem_of_reachable hm)
    rw [hk, h.kind hk]
  unfold Opens
  rw [hkind b hb]
  refine exists_congr fun k => and_congr_right fun _ => and_congr_right fun _ => ?_
  refine imp_congr_right fun _ => forall_congr' fun p => forall_congr' fun kp => ?_
  rw [h.reachable_iff hF]
  refine imp_congr_right fun hp => ?_
  rw [h.isChild_iff hF (hF.mem_of_reachable hp), hkind p hp]

theorem inScope (h : t.Grown t') (hF : t.Forest K) (hb : t.InScope n b) : t'.InScope n b := by
  induction hb with
  | here hp hc ho =>
    exact .here ((h.reachable_iff hF).mpr hp)
      ((h.isChild_iff hF (hF.mem_of_reachable hp)).mpr hc) ((h.opens_iff hF hp).mpr ho)
  | up hp hc ho _ ih =>
    exact .up ((h.reachable_iff hF).mpr hp)
      ((h.isChild_iff hF (hF.mem_of_reachable hp)).mpr hc) (fun ho' => ho ((h.opens_iff hF hp).mp ho')) ih

/-- New nodes do not change the scope of an old one. -/
theorem scopeAt_iff (h : t.Grown t') (hF : t.Forest K) (hn : t.Reachable n) :
    t'.ScopeAt n b ↔ t.ScopeAt n b := by
  have hback : ∀ {m}, m ∈ K → t'.InScope m b → t.InScope m b := by
    intro m hm hb
    induction hb with
    | here hp hc ho =>
      have hp := (h.reachable_iff hF).mp hp
      exact .here hp ((h.isChild_iff hF (hF.mem_of_reachable hp)).mp hc)
        ((h.opens_iff hF hp).mp ho)
    | up hp hc ho _ ih =>
      have hp := (h.reachable_iff hF).mp hp
      exact .up hp ((h.isChild_iff hF (hF.mem_of_reachable hp)).mp hc)
        (fun ho' => ho ((h.opens_iff hF hp).mpr ho')) (ih (hF.mem_of_reachable hp))
  unfold ScopeAt
  rw [h.opens_iff hF hn]
  exact or_congr Iff.rfl (and_congr_right fun _ =>
    ⟨hback (hF.mem_of_reachable hn), fun hb => h.inScope hF hb⟩)

end Tree.Grown

namespace Session

/-- The sessions of a program whose scopes were built, in which nothing was edited. -/
inductive Fresh (t : Tree) : Session → Prop
  | crawled {config : Config} {s₀ s : Session} (hopen : Session.open? t config = .ok s₀)
      (hrun : ensureScopes s₀ = .ok () s) : Fresh t s
  | moved {s : Session} (m : Move) (h : Fresh t s) : Fresh t (after m.run s)
  | built {s : Session} {t' : Tree} (h : Fresh t s) (hgrown : s.tree.Grown t')
      (hsmall : t'.size ≤ Tree.maxSize) : Fresh t { s with tree := t' }

variable {s : Session} {t : Tree} {K : Set NodeId}

theorem Faithful.grown {t' : Tree} (h : s.Faithful) (hg : s.tree.Grown t') (hF : s.tree.Forest K) :
    Faithful { s with tree := t' } where
  block i sc hsc := by
    obtain ⟨b, k, hb, hk, ht⟩ := h.block i sc hsc
    exact ⟨b, k, hb, hg.kind hk, ht⟩
  single := h.single
  outer i j b hij hi := by
    obtain ⟨b', hb', hj⟩ := h.outer i j b hij hi
    exact ⟨b', hg.inScope hF hb', hj⟩
  root i b hout hi := hg.root.trans (h.root i b hout hi)

/-- In a session that was only built and crawled every block has its scope. -/
theorem Fresh.settled (ht : t.IsProgram) (hgrammar : t.Grammatical) (h : Fresh t s) :
    s.Prudent t.reachable ∧ s.Faithful ∧ s.scopes.crawled = true ∧
      ∀ b, s.tree.Reachable b → s.tree.Opens b → ∃ i, s.scopes.byBlock.get? b = some i := by
  induction h with
  | @crawled config s₀ s hopen hrun =>
    obtain ⟨s₀', s', hopen', hrun', htree, s₁, u, hcrawled⟩ := open?_crawled ht hgrammar config
    obtain rfl := Except.ok.inj (hopen.symm.trans hopen')
    obtain rfl : s = s' := by
      rw [hrun] at hrun'
      cases hrun'
      rfl
    have hprudent : s.Prudent t.reachable := by
      have h := Prudent.ensured (.opened ht hopen)
      rwa [after_of_ok hrun] at h
    have hredraws := hcrawled.settles.toRedraws
    refine ⟨hprudent, hredraws.faithful hcrawled.mirrors.toFaithful, ?_, fun b hb ho => ?_⟩
    · have hbuilt := (after_ensureScopes (Prudent.opened ht hopen).upright).2.1
      rwa [after_of_ok hrun] at hbuilt
    · rw [hredraws.tree] at hb ho
      obtain ⟨i, hi⟩ := (hcrawled.mirrors.opens b).mpr ⟨hb, ho⟩
      exact ⟨i, hprudent.upright.found i b ((hredraws.scopeOf_iff i b).mpr hi)⟩
  | @moved s m h ih =>
    obtain ⟨hprudent, hf, hcrawled, hblocks⟩ := ih
    have hsound := hprudent.upright.sound
    have hwent : s.Went t.reachable (after m.run s) := m.roaming s _ hsound
    refine ⟨.moved m hprudent, hf.went hsound hwent, by rw [hwent.scopes, hcrawled], ?_⟩
    rwa [hwent.tree, hwent.scopes]
  | @built s t' h hgrown hsmall ih =>
    obtain ⟨hprudent, hf, hcrawled, hblocks⟩ := ih
    have hF := hprudent.upright.sound.forest
    refine ⟨.built hprudent hgrown hsmall, hf.grown hgrown hF, hcrawled, fun b hb ho => ?_⟩
    have hb := (hgrown.reachable_iff hF).mp hb
    exact hblocks b hb ((hgrown.opens_iff hF hb).mp ho)

/-- Nothing is reached in a session that was only built and crawled but what the program has. -/
theorem Fresh.reachable_iff (ht : t.IsProgram) (hgrammar : t.Grammatical) (h : Fresh t s)
    (n : NodeId) : s.tree.Reachable n ↔ t.Reachable n := by
  induction h with
  | @crawled config s₀ s hopen hrun =>
    obtain ⟨s₀', s', hopen', hrun', htree, s₁, u, hcrawled⟩ := open?_crawled ht hgrammar config
    obtain rfl := Except.ok.inj (hopen.symm.trans hopen')
    obtain rfl : s = s' := by
      rw [hrun] at hrun'
      cases hrun'
      rfl
    rw [htree]
  | @moved s m h ih =>
    have hsound := (h.settled ht hgrammar).1.upright.sound
    rw [(m.roaming s _ hsound).tree, ih]
  | @built s t' h hgrown hsmall ih =>
    have hsound := (h.settled ht hgrammar).1.upright.sound
    rw [hgrown.reachable_iff hsound.forest, ih]

/-- In a session that was only built and crawled the scope of a block and the one around it have
the same function scope. -/
theorem Fresh.insertionBinds {p : PathId} {n owner : NodeId} {f : Field} {nodes : List NodeId}
    (ht : t.IsProgram) (hgrammar : t.Grammatical) (h : Fresh t s) (hp : s.Holds p n)
    (hland : s.tree.LandsIn owner f n) (hvariables : ¬ s.tree.OwnsVariables n)
    (hloose : s.tree.Loose t.reachable nodes) : s.InsertionBinds p p nodes := by
  obtain ⟨hprudent, hf, hcrawled, hblocks⟩ := h.settled ht hgrammar
  have hup := hprudent.upright
  have hreach := hland.reachable
  obtain ⟨m, hm, hc⟩ := hland.exists_parent
  obtain ⟨b, hmb⟩ := hup.program.exists_scopeAt hm
  have hb := Tree.inScope_of_scopeAt hm hc hmb
  by_cases ho : s.tree.Opens n
  · -- From both scopes outward the first function or program is the same.
    obtain ⟨i, hi⟩ := hblocks n hreach ho
    obtain ⟨j, hj⟩ := hblocks b hb.reachable_block hb.opens
    obtain ⟨fn, hrun, hfn⟩ := ScopeId.functionScope_run hup.ordered (hup.ordered.byBlock n i hi)
    obtain ⟨fn', -, hfn'⟩ := ScopeId.functionScope_run hup.ordered (hup.ordered.byBlock b j hj)
    obtain ⟨c, hc, hfnc⟩ := hfn.scopeOf hf hup.program ((hup.known n i hi).2 hreach)
    obtain ⟨c', hc', hfnc'⟩ := hfn'.scopeOf hf hup.program ((hup.known b j hj).2 hb.reachable_block)
    obtain rfl := hup.program.hoistsTo_unique hc (.outer hvariables hb hc')
    obtain rfl := hup.single hfnc hfnc'
    intro behind
    have hscope := PathId.scope_run_of_found hup.toOrderly hcrawled hp hreach (.inl ⟨ho, rfl⟩) hi
    exact ⟨fn, s, (bind_of_ok hscope).trans hrun,
      insertBeside_binds hup.toMatched hcrawled hp hland hloose hb hj hfn' behind⟩
  · refine hprudent.insertionBinds hp hland hloose hp (.inl ⟨rfl, ho⟩) ⟨b, .inr ⟨?_, ?_⟩, .inl ?_⟩
    all_goals rw [after_of_ok (ensureScopes_run hcrawled)]
    · exact ho
    · exact hb
    · exact hblocks b hb.reachable_block hb.opens

end Session

/-! ## Insertions -/

/-- Names are bound at once where they are inserted. In a session that was only built and crawled
the scope is that of the path, if the path holds no function. In any session of a client that asks
for scopes from outside in, it is that of the path, if the path holds no scope block, and that of
its parent in any case. -/
theorem insertion_binds :
    (∀ {t : Tree} {s : Session} {p : PathId} {n owner : NodeId} {f : Field} {nodes : List NodeId},
      t.IsProgram → t.Grammatical → s.Fresh t → s.Holds p n → s.tree.LandsIn owner f n →
      s.tree.Loose t.reachable nodes → ¬ s.tree.OwnsVariables n → s.InsertionBinds p p nodes) ∧
    ∀ {K : Set NodeId} {s : Session} {p q : PathId} {n m owner : NodeId} {f : Field}
      {nodes : List NodeId}, s.Prudent K → s.Holds p n → s.tree.LandsIn owner f n →
      s.tree.Loose K nodes → s.Holds q m →
      (m = n ∧ ¬ s.tree.Opens n) ∨ (s.tree.Reachable m ∧ s.tree.IsChild m n) →
      (after ensureScopes s).Asks m → s.InsertionBinds p q nodes :=
  ⟨fun ht hg hs hp hland hloose hvariables => hs.insertionBinds ht hg hp hland hvariables hloose,
    fun hs hp hland hloose hq hm hasks => hs.insertionBinds hp hland hloose hq hm hasks⟩

/-! ## Statements that get a block

A statement that stands alone in a field is wrapped in a block together with what is inserted beside
it. There the names are not bound when the insertion is done. -/

/-- The wrapping leaves all scopes as they are, whatever the new statements declare. -/
theorem PathId.wrapWith_scopes (p : PathId) (nodes : List NodeId) (behind : Bool) :
    Leads (fun s s' : Session => s'.scopes = s.scopes) (p.wrapWith nodes behind) := by
  have htrans : ∀ s₁ s₂ s₃ : Session, s₂.scopes = s₁.scopes → s₃.scopes = s₂.scopes →
      s₃.scopes = s₁.scopes := fun _ _ _ h₁ h₂ => h₂.trans h₁
  have hquestion : ∀ {α : Type} {x : SessionM α}, Composed (fun _ _ => False) x →
      Leads (fun s s' : Session => s'.scopes = s.scopes) x := fun hx s => by
    rw [hx.question_after]
  have honTree : ∀ {α : Type} (build : TreeM α),
      Leads (fun s s' : Session => s'.scopes = s.scopes) (onTree build) := fun build s => by
    show (after (get >>= _) s).scopes = _
    unfold after
    rw [run_get_bind]
    cases build.run s.tree <;> rfl
  have hnode : ∀ new, Leads (fun s s' : Session => s'.scopes = s.scopes) (p.setNode new) := by
    intro new
    have hset : Leads (fun s s' : Session => s'.scopes = s.scopes)
        (p.modifyData fun d => { d with node := some new, inferred := none }) :=
      Leads.bind htrans (hquestion (.data p)) fun _ _ => rfl
    refine Leads.bind htrans (hquestion (.data p)) fun d => ?_
    split
    · exact Leads.bind htrans (fun _ => rfl) fun _ => hset
    · refine Leads.bind htrans (hquestion (.ask _)) fun kind => ?_
      split
      · exact Leads.bind htrans (fun _ => rfl) fun _ => hset
      · exact Leads.bind htrans (honTree _) fun _ => hset
      · exact Leads.bind htrans (fun _ => rfl) fun _ => hset
    · refine Leads.bind htrans (hquestion (.ask _)) fun kind => ?_
      split
      · split
        · exact Leads.bind htrans (honTree _) fun _ => hset
        · exact Leads.bind htrans (fun _ => rfl) fun _ => hset
      · exact Leads.bind htrans (fun _ => rfl) fun _ => hset
    · exact Leads.bind htrans (fun _ => rfl) fun _ => hset
  refine Leads.bind htrans (hquestion (.node? p)) fun o => ?_
  cases o with
  | none => exact fun _ => rfl
  | some current =>
    refine Leads.bind htrans (honTree _) fun block => Leads.bind htrans (hnode block) fun _ => ?_
    refine Leads.bind htrans (fun _ => rfl) fun _ => ?_
    exact Navigating.scopes (.mapM _ fun i => Navigating.element p _ _)

/-- Where a path stands in no list, an insertion beside it leaves all scopes as they are. -/
theorem PathId.insertHere_scopes {s : Session} {p : PathId} {d : PathData}
    (hd : s.paths[p.index]? = some d) (halone : ∀ n f, d.container ≠ .list n f)
    (nodes : List NodeId) (behind : Bool) :
    (after (p.insertHere nodes behind) s).scopes = s.scopes := by
  rw [PathId.insertHere, after_bind_of_ok (p.data_run hd)]
  split
  · next hcontainer _ _ => exact absurd hcontainer (halone _ _)
  · have hwrapped : Leads (fun s s' : Session => s'.scopes = s.scopes) (do
        if ← p.isStatementOrBlock then p.wrapWith nodes behind
        else refuse (.notAList (if behind then "insert_after" else "insert_before"))) := by
      refine Leads.bind (fun _ _ _ h₁ h₂ => h₂.trans h₁) (fun s => ?_) fun v => ?_
      · rw [Composed.question_after (.isStatementOrBlock p)]
      · cases v with
        | true => exact p.wrapWith_scopes nodes behind
        | false => exact fun _ => rfl
    exact hwrapped s

/-- The program `function f() {} c;`, and beside it the declaration `var x;`. -/
def arrivalProgram : Tree where
  nodes := #[{ kind := .identifier "f" none }, { kind := .blockStatement [] },
    { kind := .functionDeclaration (some ⟨0⟩) [] ⟨1⟩ false false none },
    { kind := .identifier "c" none }, { kind := .expressionStatement ⟨3⟩ },
    { kind := .program [⟨2⟩, ⟨4⟩] [] }, { kind := .identifier "x" none },
    { kind := .variableDeclarator ⟨6⟩ none }, { kind := .variableDeclaration .var [⟨7⟩] }]
  root := some ⟨5⟩

theorem arrivalProgram_isProgram : arrivalProgram.IsProgram :=
  .of_bottomUp (by decide) (by decide) (by decide) (by decide)

theorem arrivalProgram_loose : arrivalProgram.Loose arrivalProgram.reachable [⟨8⟩] :=
  .of_bottomUp (by decide) (by decide) (by decide) (by decide) (by decide)

theorem arrivalProgram_grammatical : arrivalProgram.Grammatical := .of_plain (by decide)

/-- The program is opened: it has the path 0, the function the path 1, and `c;` the path 2. -/
def arrivalStart : Session := after ensureScopes { tree := arrivalProgram }

theorem arrivalStart_facts : ensureScopes { tree := arrivalProgram } = .ok () arrivalStart ∧
    Session.open? arrivalProgram {} = .ok arrivalStart ∧ arrivalStart.tree = arrivalProgram ∧
    arrivalStart.scopes.crawled = true ∧ arrivalStart.Holds ⟨0⟩ ⟨5⟩ ∧ arrivalStart.Holds ⟨1⟩ ⟨2⟩ ∧
    arrivalStart.Holds ⟨2⟩ ⟨4⟩ := by
  obtain ⟨_, s, hrun, htree, -⟩ := ensureScopes_orderly arrivalProgram_isProgram {}
  obtain rfl : arrivalStart = s := after_of_ok hrun
  have hnodes : arrivalStart.scopes.crawled = true ∧
      arrivalStart.paths[0]?.bind PathData.node = some ⟨5⟩ ∧
      arrivalStart.paths[1]?.bind PathData.node = some ⟨2⟩ ∧
      arrivalStart.paths[2]?.bind PathData.node = some ⟨4⟩ := by decide +kernel
  obtain ⟨hcrawled, h0, h1, h2⟩ := hnodes
  exact ⟨hrun, open?_of_ensureScopes rfl hrun, htree, hcrawled, Option.bind_eq_some_iff.mp h0,
    Option.bind_eq_some_iff.mp h1, Option.bind_eq_some_iff.mp h2⟩

/-- What `var x;` declares is bound in the scope of the program, whether it is inserted beside `c;`
or beside the function. -/
theorem arrivalProgram_binds : arrivalProgram.IsProgram ∧ arrivalProgram.Grammatical ∧
    arrivalStart.Fresh arrivalProgram ∧ arrivalStart.tree.GivesName ⟨8⟩ "x" ∧
    arrivalStart.InsertionBinds ⟨2⟩ ⟨2⟩ [⟨8⟩] ∧ arrivalStart.InsertionBinds ⟨1⟩ ⟨0⟩ [⟨8⟩] := by
  obtain ⟨hrun, hopen, htree, hcrawled, h0, h1, h2⟩ := arrivalStart_facts
  have hbuilt : ensureScopes arrivalStart = .ok () arrivalStart := ensureScopes_run hcrawled
  have hfresh : arrivalStart.Fresh arrivalProgram := .crawled hopen hbuilt
  have hprudent : arrivalStart.Prudent arrivalProgram.reachable :=
    .opened arrivalProgram_isProgram hopen
  have hroot : arrivalStart.tree.Reachable ⟨5⟩ := by
    rw [htree]
    exact .root rfl
  have hloose : arrivalStart.tree.Loose arrivalProgram.reachable [⟨8⟩] := by
    rw [htree]
    exact arrivalProgram_loose
  have hlands : ∀ i n, arrivalProgram.occupant? (.item ⟨5⟩ .body i) = some n → ∀ k,
      arrivalProgram.kind? n = some k → arrivalStart.tree.LandsIn ⟨5⟩ .body n := by
    intro i n hocc k hk
    rw [htree] at hroot ⊢
    exact .here hroot hocc hk rfl (by cases k.type <;> rfl)
  have hstatement : ¬ arrivalStart.tree.OwnsVariables ⟨4⟩ := by
    rw [htree]
    rintro ⟨k, hk, htype⟩
    obtain rfl := Option.some.inj hk
    rcases htype with htype | htype <;> cases htype
  have hasks : (after ensureScopes arrivalStart).Asks ⟨5⟩ := by
    rw [after_of_ok hbuilt]
    have hi : arrivalStart.scopes.byBlock.get? ⟨5⟩ = some ⟨0⟩ := by decide +kernel
    refine ⟨⟨5⟩, .inl ⟨?_, rfl⟩, .inl ⟨_, hi⟩⟩
    rw [htree]
    exact arrivalProgram_isProgram.opens_root rfl
  refine ⟨arrivalProgram_isProgram, arrivalProgram_grammatical, hfresh, ?_, ?_, ?_⟩
  · rw [htree]
    exact .declarator (e := ⟨7⟩) rfl (by simp) rfl (.identifier rfl)
  · exact insertion_binds.1 arrivalProgram_isProgram arrivalProgram_grammatical hfresh h2
      (hlands 1 ⟨4⟩ rfl _ rfl) hloose hstatement
  · refine insertion_binds.2 hprudent h1 (hlands 0 ⟨2⟩ rfl _ rfl) hloose h0 (.inr ⟨hroot, ?_⟩) hasks
    rw [htree]
    exact (Tree.isChild_iff _ _ _).mpr ⟨_, rfl, by decide⟩

/-- The path of the function is given the scope of the function, and the declaration that comes
before the function is not bound there. -/
theorem arrivalProgram_outside : arrivalProgram.IsProgram ∧ arrivalProgram.Grammatical ∧
    Session.open? arrivalProgram {} = .ok arrivalStart ∧ arrivalStart.Holds ⟨1⟩ ⟨2⟩ ∧
    arrivalStart.tree.Loose arrivalProgram.reachable [⟨8⟩] ∧
    arrivalStart.tree.GivesName ⟨8⟩ "x" ∧
    (do (← PathId.scope ⟨1⟩).functionScope) arrivalStart = .ok ⟨1⟩ arrivalStart ∧
    ∃ ps s, PathId.insertBefore ⟨1⟩ [⟨8⟩] arrivalStart = .ok ps s ∧
      ScopeId.ownBinding? ⟨1⟩ "x" s = .ok none s := by
  obtain ⟨hrun, hopen, htree, hcrawled, h0, h1, h2⟩ := arrivalStart_facts
  have hblock : arrivalStart.scopes.byBlock.get? ⟨2⟩ = some ⟨1⟩ ∧
      value? (ScopeId.functionScope ⟨1⟩) arrivalStart = some ⟨1⟩ ∧
      (value? (PathId.insertBefore ⟨1⟩ [⟨8⟩]) arrivalStart).isSome = true ∧
      (value? (ScopeId.ownBinding? ⟨1⟩ "x")
        (after (PathId.insertBefore ⟨1⟩ [⟨8⟩]) arrivalStart)).map Option.isNone = some true := by
    decide +kernel
  obtain ⟨hi, hfn, hinsert, hfound⟩ := hblock
  obtain ⟨o, hnone, ho⟩ := Option.map_eq_some_iff.mp hfound
  obtain rfl := Option.isNone_iff_eq_none.mp ho
  have horderly := (Prudent.opened arrivalProgram_isProgram hopen).upright.toOrderly
  have hin : arrivalStart.tree.Reachable ⟨2⟩ ∧ arrivalStart.tree.Opens ⟨2⟩ := by
    rw [htree]
    refine ⟨.child (.root rfl) ((Tree.isChild_iff _ _ _).mpr ⟨_, rfl, by decide⟩),
      Tree.opens_of_all rfl rfl (by decide)⟩
  have hscope : (do (← PathId.scope ⟨1⟩).functionScope) arrivalStart = .ok ⟨1⟩ arrivalStart := by
    rw [bind_of_ok (PathId.scope_run_of_found horderly hcrawled h1 hin.1 (.inl ⟨hin.2, rfl⟩) hi),
      eq_ok_of_value? hfn, (Composed.functionScope ⟨1⟩).question_after arrivalStart]
  refine ⟨arrivalProgram_isProgram, arrivalProgram_grammatical, hopen, h1, ?_, ?_, hscope, ?_⟩
  · rw [htree]
    exact arrivalProgram_loose
  · rw [htree]
    exact .declarator (e := ⟨7⟩) rfl (by simp) rfl (.identifier rfl)
  · obtain ⟨ps, hps⟩ := Option.isSome_iff_exists.mp hinsert
    refine ⟨ps, _, eq_ok_of_value? hps, ?_⟩
    rw [eq_ok_of_value? hnone, (Composed.ownBinding? ⟨1⟩ "x").question_after]

end Espalier
