import Espalier.Proofs.Accounts
import Espalier.Proofs.Observing
import Espalier.Proofs.Order

set_option autoImplicit false

/-! # Order inside one function

In a session in which nothing was edited, two paths that are executed in the same function are
ordered as their nodes are in the tree: one is executed before the other if its node precedes the
other's, and after it otherwise (`order_in_function`). So the order is a strict partial one, and it
is that in which a walk leaves the one node and enters the other. -/

namespace Espalier

open SessionM Session

/-! ## Sessions without edits -/

namespace Session

/-- The sessions of a program in which paths, scopes, names and types were asked for, and nothing
was edited. -/
inductive Viewed (t : Tree) : Session → Prop
  | opened {config : Config} {s : Session} (hopen : Session.open? t config = .ok s) : Viewed t s
  | charted {s : Session} {α : Type} {x : SessionM α} (hx : Charting x) (h : Viewed t s) :
      Viewed t (after x s)
  | inferred {s : Session} {α : Type} {x : SessionM α} (hx : Inferring x) (h : Viewed t s) :
      Viewed t (after x s)

/-- Paths that were in step with the tree still are, and the tree is the same. -/
def Looks (s s' : Session) : Prop := ∀ K, s.Sound K → s'.Sound K ∧ s'.tree = s.tree

theorem looks_refl (s : Session) : s.Looks s := fun _ h => ⟨h, rfl⟩

theorem looks_trans (s₁ s₂ s₃ : Session) (h : s₁.Looks s₂) (h' : s₂.Looks s₃) : s₁.Looks s₃ :=
  fun K hs => ⟨(h' K (h K hs).1).1, (h' K (h K hs).1).2.trans (h K hs).2⟩

end Session

theorem Hop.looks {α : Type} {x : SessionM α} (hx : Hop α x) : Leads Session.Looks x :=
  fun s K hs =>
    have hwent := Navigating.roaming (.primitive hx) s K hs
    ⟨hwent.sound, hwent.tree⟩

theorem Charting.looks {α : Type} {x : SessionM α} (hx : Charting x) : Leads Session.Looks x := by
  refine hx.leads looks_refl looks_trans fun α x step => ?_
  cases step with
  | hop hop => exact hop.looks
  | create block parent =>
    intro s K hs
    rcases createScope_cases block parent s with ⟨e, he⟩ | ⟨T, type, hrun, -⟩
    · rw [after_of_error he]
      exact ⟨hs, rfl⟩
    · rw [after_of_ok hrun]
      exact ⟨(s.alike_scopes T).sound_of_paths hs rfl, rfl⟩
  | write g => exact fun s K hs => ⟨(s.alike_scopes _).sound_of_paths hs rfl, rfl⟩

/-- Leaving an answer with a path moves no path. -/
theorem PathId.answer_looks (p : PathId) (type : ValueType) :
    Leads Session.Looks (p.modifyData fun d => { d with inferred := some type }) := by
  intro s K hs
  cases hd : s.paths[p.index]? with
  | none =>
    rw [after_of_error (show p.modifyData _ s = _ from bind_of_error (p.data_unknown hd))]
    exact ⟨hs, rfl⟩
  | some d =>
    rw [after_of_ok (p.modifyData_run hd _)]
    refine ⟨(s.alike_modify p (fun d => { d with inferred := some type }) fun _ _ => rfl).sound hs
      fun q e e' he he' _ => .inl ?_, rfl⟩
    have he' : (s.paths.modify p.index _)[q.index]? = some e' := he'
    rw [getElem?_modify_paths, he] at he'
    split at he'
    · rw [← Option.some.inj he']
    · rw [← Option.some.inj he']

theorem Inferring.looks {α : Type} {x : SessionM α} (hx : Inferring x) :
    Leads Session.Looks x := by
  refine hx.leads looks_refl looks_trans fun α x step => ?_
  cases step with
  | answer p type => exact p.answer_looks type
  | glance glance =>
    cases glance with
    | hop hop => exact hop.looks
    | lookup p => exact (Searching.binding? p).charting.looks

namespace Session.Viewed

variable {t : Tree} {s : Session}

/-- Where nothing is edited, the paths are in step with the program. -/
theorem sound (h : s.Viewed t) (ht : t.IsProgram) : s.Sound t.reachable ∧ s.tree = t := by
  induction h with
  | @opened config s hopen =>
    have hfresh : Sound { tree := t, config } t.reachable := (fresh_orderly ht config).sound
    unfold Session.open? at hopen
    split at hopen
    · cases hopen
      exact ⟨hfresh, rfl⟩
    · have hafter := Charting.ensureScopes.looks _ _ hfresh
      dsimp only [EStateM.run] at hopen
      split at hopen
      · next _ s' hrun =>
        rw [after_of_ok hrun] at hafter
        cases hopen
        exact hafter
      · cases hopen
  | charted hx _ ih => exact ⟨(hx.looks _ _ ih.1).1, (hx.looks _ _ ih.1).2.trans ih.2⟩
  | inferred hx _ ih => exact ⟨(hx.looks _ _ ih.1).1, (hx.looks _ _ ih.1).2.trans ih.2⟩

/-- A client can get hold of every such session. -/
theorem reached (h : s.Viewed t) : s.Reached := by
  -- What a call leaves is what a program leaves that does nothing else.
  have hcall : ∀ {s : Session} {α : Type} {x : SessionM α}, Call x → s.Reached →
      (after x s).Reached := by
    intro s α x hx hs
    have hused := hs.used () 0 (.call hx)
    rwa [WalkM.after_onSession] at hused
  induction h with
  | opened hopen => exact .opened hopen
  | charted hx _ ih => exact hcall (.chart hx) ih
  | inferred hx _ ih => exact hcall (.infer hx) ih

end Session.Viewed

/-! ## The function around a node -/

/-- The function or program in which a node is executed. The position of a function counts to what
is around it. -/
inductive Tree.ExecutesIn (t : Tree) (n b : NodeId) : Prop
  | inside {type : NodeType} : t.type? n = some type → type.isFunction = false → t.RunsIn n b →
      ExecutesIn t n b
  | function {type : NodeType} {m : NodeId} : t.type? n = some type → type.isFunction = true →
      t.Reachable m → t.IsChild m n → t.RunsIn m b → ExecutesIn t n b

section ExecutesIn

variable {s : Session} {K : Set NodeId} {p q : PathId} {n m b : NodeId}

/-- Everything in a program is in a function or in the program itself. -/
theorem Tree.IsProgram.exists_runsIn {t : Tree} (h : t.IsProgram) (hn : t.Reachable n) :
    ∃ b, t.RunsIn n b := by
  induction hn with
  | @root r hr =>
    obtain ⟨r', hr', htype⟩ := h.root
    obtain rfl := Option.some.inj (hr.symm.trans hr')
    exact ⟨r, .here htype rfl⟩
  | @child m n hm hc ih =>
    obtain ⟨k, hk⟩ := h.forest.kind n (hm.child hc)
    cases houter : k.type.isFunction || k.type == .program with
    | true => exact ⟨n, .here (Tree.type?_of_kind hk) houter⟩
    | false =>
      obtain ⟨b, hb⟩ := ih
      exact ⟨b, .up (Tree.type?_of_kind hk) houter hm hc hb⟩

theorem Tree.IsProgram.exists_executesIn {t : Tree} (h : t.IsProgram) (hn : t.Reachable n) :
    ∃ b, t.ExecutesIn n b := by
  obtain ⟨k, hk⟩ := h.forest.kind n hn
  have htype := Tree.type?_of_kind hk
  cases hfunction : k.type.isFunction with
  | false =>
    obtain ⟨b, hb⟩ := h.exists_runsIn hn
    exact ⟨b, .inside htype hfunction hb⟩
  | true =>
    cases hn with
    | root hr =>
      -- At the root there is a program.
      obtain ⟨r, hr', hprogram⟩ := h.root
      obtain rfl := Option.some.inj (hr.symm.trans hr')
      rw [Option.some.inj (htype.symm.trans hprogram)] at hfunction
      cases hfunction
    | child hm hc =>
      obtain ⟨b, hb⟩ := h.exists_runsIn hm
      exact ⟨b, .function htype hfunction hm hc hb⟩

/-- A path is executed in the function around its node. -/
theorem PathId.executionParent?_holds (hs : s.Sound K) (hp : s.Holds p n)
    (hn : s.tree.Reachable n) (hb : s.tree.ExecutesIn n b) :
    ∃ f, p.executionParent? s = .ok (some f) s ∧ s.Holds f b := by
  cases hb with
  | inside htype hplain hb => exact PathId.executionParent?_run hs hp hn htype hplain hb
  | @function type m htype hfunction hm hc hb =>
    obtain ⟨pos, hpos, hocc⟩ := hc
    obtain ⟨pos', hw, hl, hocc'⟩ := hs.linked_of_reachable hp hn
    obtain rfl := hs.forest.single pos pos' n
      (Position.within_of_parent hpos (hs.forest.mem_of_reachable hm))
      (Position.within_mono (fun x hx => hs.forest.mem_of_reachable hx) hw) hocc hocc'
    obtain ⟨d, hf, ha⟩ := id hl
    unfold Adopts at ha
    rw [show pos.container.parent? = some m from hpos] at ha
    obtain ⟨q, -, hq⟩ := ha
    obtain ⟨l, hup⟩ := hs.exists_ancestry hm hq
    obtain ⟨f, hrun, hfb⟩ := PathId.climbWithin_function_run hs hup hq hb _ (hup.length_le hs)
    obtain ⟨k, hk⟩ := hs.forest.kind n (hs.mem_of_holds hp)
    obtain rfl := Option.some.inj (htype.symm.trans (Tree.type?_of_kind hk))
    refine ⟨f, ?_, hfb⟩
    unfold PathId.executionParent?
    rw [bind_of_ok (PathId.isAny_run_of_holds hp hk _), hfunction]
    show (p.parent? >>= _) s = _
    rw [bind_of_ok (PathId.parent?_linked_run hs hl hpos hq)]
    exact hrun

end ExecutesIn

/-! ## Paths in one function -/

/-- Both nodes are executed in the same function, or in the program. -/
def Tree.Together (t : Tree) (n m : NodeId) : Prop := ∃ b, t.ExecutesIn n b ∧ t.ExecutesIn m b

theorem Tree.Together.symm {t : Tree} {n m : NodeId} (h : t.Together n m) : t.Together m n := by
  obtain ⟨b, hn, hm⟩ := h
  exact ⟨b, hm, hn⟩

namespace Session

/-- The answer to the question in which order two paths are executed. -/
def Orders (s : Session) (p q : PathId) (status : ExecutionStatus) : Prop :=
  p.executionStatus q s = .ok status s

theorem Orders.unique {s : Session} {p q : PathId} {status status' : ExecutionStatus}
    (h : s.Orders p q status) (h' : s.Orders p q status') : status = status' :=
  (EStateM.Result.ok.inj (h.symm.trans h')).1

end Session

section Together

variable {s : Session} {K : Set NodeId} {p q : PathId} {n m l : NodeId}

theorem Tree.Together.trans (h : s.tree.Together n m) (h' : s.tree.Together m l) (hs : s.Sound K)
    (hq : s.Holds q m) (hm : s.tree.Reachable m) : s.tree.Together n l := by
  obtain ⟨b, hn, hb⟩ := h
  obtain ⟨b', hb', hl⟩ := h'
  obtain ⟨f, hf, hfb⟩ := PathId.executionParent?_holds hs hq hm hb
  obtain ⟨f', hf', hfb'⟩ := PathId.executionParent?_holds hs hq hm hb'
  obtain rfl := Option.some.inj (EStateM.Result.ok.inj (hf.symm.trans hf')).1
  obtain rfl := hfb.unique_node hfb'
  exact ⟨b, hn, hl⟩

/-- Paths in one function are ordered as their nodes are. -/
theorem Tree.Together.ranks (h : s.tree.Together n m) (hs : s.Sound K) (hp : s.Holds p n)
    (hn : s.tree.Reachable n) (hq : s.Holds q m) (hm : s.tree.Reachable m) :
    ∃ status, s.Orders p q status ∧ s.tree.Ranks n m status := by
  obtain ⟨b, hb, hb'⟩ := h
  obtain ⟨f, hf, hfb⟩ := PathId.executionParent?_holds hs hp hn hb
  obtain ⟨g, hg, hgb⟩ := PathId.executionParent?_holds hs hq hm hb'
  obtain ⟨status, hrun, hranks⟩ := PathId.statusInFunction_run hs hp hn hq hm
  exact ⟨status, (PathId.executionStatus_same_run hf hfb hg hgb).trans hrun, hranks⟩

theorem Tree.Ranks.before_iff {status : ExecutionStatus} {t : Tree} (h : t.Ranks n m status)
    (hF : t.Forest K) : (status = .before ↔ t.Precedes n m) ∧ (status = .after ↔ ¬ t.Precedes n m) := by
  cases h with
  | ahead h => simp [h]
  | around h =>
    have hno : ¬ t.Precedes n m := fun hnm => h.elim (hF.disjoint_of_precedes hnm).1
      (hF.disjoint_of_precedes hnm).2
    simp [hno]
  | behind h => simp [hF.precedes_asymm h]

end Together

/-- Two paths in one function are executed in the order in which a depth-first walk comes to their
nodes; what contains the other counts as after it. There is always an answer. So what is executed
before is a strict partial order, it is what is disjoint from the other one and has it after itself,
and a walk leaves it before it enters the other one. -/
theorem order_in_function {t : Tree} {s : Session} (ht : t.IsProgram) (hs : s.Viewed t) :
    (∀ p q n m, s.Holds p n → s.Holds q m → t.Together n m →
      (t.Contains n m ∨ t.Contains m n → s.Orders p q .after) ∧
      (t.Precedes n m → s.Orders p q .before) ∧ (¬ t.Precedes n m → s.Orders p q .after)) ∧
    (∀ p n, s.Holds p n → ¬ s.Orders p p .before) ∧
    (∀ p q r n m l, s.Holds p n → s.Holds q m → s.Holds r l → t.Together n m → t.Together m l →
      s.Orders p q .before → s.Orders q r .before → s.Orders p r .before) ∧
    (∀ p q n m, s.Holds p n → s.Holds q m → t.Together n m →
      (s.Orders p q .before ↔ (¬ t.Contains n m ∧ ¬ t.Contains m n) ∧ s.Orders q p .after)) ∧
    ∀ (σ : Type) (v : Visitor σ) (w w' : Walk σ) (done : Traversal) p q n m, s.Holds p n →
      s.Holds q m → t.Together n m → s.Orders p q .before → v.Observes t → w.session.Reached →
      w.session.tree = t → traverse v w = .ok done w' → n ∈ t.seen v.blacklist →
      m ∈ t.seen v.blacklist → ∃ tour, Recounts v t tour w.own w'.own ∧
        [(Phase.exit, n), (Phase.enter, m)].Sublist tour := by
  obtain ⟨hsound, rfl⟩ := hs.sound ht
  have hF := ht.forest
  -- Two paths in one function have one of two answers, by the order of their nodes.
  have hanswer : ∀ p q n m, s.Holds p n → s.Holds q m → s.tree.Together n m →
      (s.Orders p q .before ↔ s.tree.Precedes n m) ∧ (s.Orders p q .after ↔ ¬ s.tree.Precedes n m) ∧
        (s.tree.Precedes n m ∨ s.tree.Contains n m ∨ s.tree.Contains m n ∨ s.tree.Precedes m n) := by
    intro p q n m hp hq htogether
    have hn := hsound.mem_of_holds hp
    have hm := hsound.mem_of_holds hq
    obtain ⟨status, horders, hranks⟩ := htogether.ranks hsound hp hn hq hm
    obtain ⟨hbefore, hafter⟩ := hranks.before_iff hF
    refine ⟨⟨fun h => hbefore.mp (horders.unique h), fun h => hbefore.mpr h ▸ horders⟩,
      ⟨fun h => hafter.mp (horders.unique h), fun h => hafter.mpr h ▸ horders⟩, ?_⟩
    cases hranks with
    | ahead h => exact .inl h
    | around h => exact .inr (or_assoc.mp (.inl h))
    | behind h => exact .inr (.inr (.inr h))
  refine ⟨fun p q n m hp hq htogether => ?_, fun p n hp hbefore => ?_,
    fun p q r n m l hp hq hr hpq hqr hbefore hbefore' => ?_,
    fun p q n m hp hq htogether => ?_,
    fun σ v w w' done p q n m hp hq htogether hbefore hv hw hwt hrun hn hm => ?_⟩
  · obtain ⟨hbefore, hafter, -⟩ := hanswer p q n m hp hq htogether
    refine ⟨fun hcontains => hafter.mpr fun hnm => ?_, hbefore.mpr, hafter.mpr⟩
    exact hcontains.elim (hF.disjoint_of_precedes hnm).1 (hF.disjoint_of_precedes hnm).2
  · obtain ⟨b, hb⟩ := ht.exists_executesIn (hsound.mem_of_holds hp)
    obtain ⟨hiff, -⟩ := hanswer p p n n hp hp ⟨b, hb, hb⟩
    exact hF.not_precedes_self (hiff.mp hbefore)
  · have hnm := (hanswer p q n m hp hq hpq).1.mp hbefore
    have hml := (hanswer q r m l hq hr hqr).1.mp hbefore'
    have hpr := hpq.trans hqr hsound hq (hsound.mem_of_holds hq)
    exact (hanswer p r n l hp hr hpr).1.mpr (hF.precedes_trans hnm hml)
  · obtain ⟨hbefore, -, htotal⟩ := hanswer p q n m hp hq htogether
    obtain ⟨-, hafter, -⟩ := hanswer q p m n hq hp htogether.symm
    rw [hbefore, hafter]
    constructor
    · exact fun hnm => ⟨hF.disjoint_of_precedes hnm, hF.precedes_asymm hnm⟩
    · rintro ⟨⟨hnm, hmn⟩, hno⟩
      rcases htotal with h | h | h | h
      · exact h
      · exact absurd h hnm
      · exact absurd h hmn
      · exact absurd h hno
  · have hnm := (hanswer p q n m hp hq htogether).1.mp hbefore
    rcases hv.traverse_ends hw hwt ht with ⟨-, tour, w₁, hok, htour, hrecounts⟩ | ⟨-, w₁, herr⟩
    · obtain ⟨-, rfl⟩ := EStateM.Result.ok.inj (hok.symm.trans hrun)
      exact ⟨tour, hrecounts, ht.leaves_first htour hnm hn hm⟩
    · rw [herr] at hrun
      cases hrun

/-- The program `function f() { a; b; }`. -/
def seriesProgram : Tree where
  nodes := #[{ kind := .identifier "f" none }, { kind := .identifier "a" none },
    { kind := .expressionStatement ⟨1⟩ }, { kind := .identifier "b" none },
    { kind := .expressionStatement ⟨3⟩ }, { kind := .blockStatement [⟨2⟩, ⟨4⟩] },
    { kind := .functionDeclaration (some ⟨0⟩) [] ⟨5⟩ false false none },
    { kind := .program [⟨6⟩] [] }]
  root := some ⟨7⟩

theorem seriesProgram_isProgram : seriesProgram.IsProgram :=
  .of_bottomUp (by decide) (by decide) (by decide) (by decide)

theorem seriesProgram_executesIn :
    seriesProgram.ExecutesIn ⟨2⟩ ⟨6⟩ ∧ seriesProgram.ExecutesIn ⟨4⟩ ⟨6⟩ := by
  have hfunction : seriesProgram.Reachable ⟨6⟩ := .child (.root rfl) ⟨.item ⟨7⟩ .body 0, rfl, rfl⟩
  have hbody : seriesProgram.IsChild ⟨6⟩ ⟨5⟩ := ⟨.slot ⟨6⟩ .body, rfl, rfl⟩
  have hblock : seriesProgram.Reachable ⟨5⟩ := .child hfunction hbody
  have hfirst : seriesProgram.IsChild ⟨5⟩ ⟨2⟩ := ⟨.item ⟨5⟩ .body 0, rfl, rfl⟩
  have hsecond : seriesProgram.IsChild ⟨5⟩ ⟨4⟩ := ⟨.item ⟨5⟩ .body 1, rfl, rfl⟩
  have hin : seriesProgram.RunsIn ⟨5⟩ ⟨6⟩ :=
    .up (t := seriesProgram) rfl rfl hfunction hbody (.here (t := seriesProgram) rfl rfl)
  exact ⟨.inside (t := seriesProgram) rfl rfl (.up (t := seriesProgram) rfl rfl hblock hfirst hin),
    .inside (t := seriesProgram) rfl rfl (.up (t := seriesProgram) rfl rfl hblock hsecond hin)⟩

/-- The session after the crawl. The statements have the paths 4 and 5. -/
def seriesSession : Session := after ensureScopes { tree := seriesProgram }

/-- The first statement in the function is executed before the second one, and the second one after
the first one. -/
theorem seriesProgram_ordered : seriesProgram.IsProgram ∧ ∃ s, Session.open? seriesProgram {} = .ok s ∧
    s.Viewed seriesProgram ∧ s.Holds ⟨4⟩ ⟨2⟩ ∧ s.Holds ⟨5⟩ ⟨4⟩ ∧ seriesProgram.Together ⟨2⟩ ⟨4⟩ ∧
    s.Orders ⟨4⟩ ⟨5⟩ .before ∧ s.Orders ⟨5⟩ ⟨4⟩ .after := by
  obtain ⟨_, s, hrun, -, -⟩ := ensureScopes_orderly seriesProgram_isProgram {}
  obtain rfl : seriesSession = s := after_of_ok hrun
  have hopen : Session.open? seriesProgram {} = .ok seriesSession := open?_of_ensureScopes rfl hrun
  have hviewed : seriesSession.Viewed seriesProgram := .opened hopen
  have hholds : seriesSession.paths[4]?.bind PathData.node = some ⟨2⟩ ∧
      seriesSession.paths[5]?.bind PathData.node = some ⟨4⟩ := by decide +kernel
  have hp := Option.bind_eq_some_iff.mp hholds.1
  have hq := Option.bind_eq_some_iff.mp hholds.2
  have htogether : seriesProgram.Together ⟨2⟩ ⟨4⟩ := ⟨⟨6⟩, seriesProgram_executesIn⟩
  have hearlier : (Position.item ⟨5⟩ .body 0).Earlier .blockStatement (.item ⟨5⟩ .body 1) :=
    .element (by decide)
  have hprecedes : seriesProgram.Precedes ⟨2⟩ ⟨4⟩ := .fork (t := seriesProgram)
    (.child (.child (.root rfl) ⟨.item ⟨7⟩ .body 0, rfl, rfl⟩) ⟨.slot ⟨6⟩ .body, rfl, rfl⟩)
    rfl rfl rfl hearlier rfl rfl .refl .refl
  obtain ⟨hanswer, -, -, hiff, -⟩ := order_in_function seriesProgram_isProgram hviewed
  have hbefore := (hanswer _ _ _ _ hp hq htogether).2.1 hprecedes
  exact ⟨seriesProgram_isProgram, _, hopen, hviewed, hp, hq, htogether, hbefore,
    ((hiff _ _ _ _ hp hq htogether).mp hbefore).2⟩

end Espalier
