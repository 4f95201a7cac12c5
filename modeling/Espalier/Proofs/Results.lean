import Espalier.Proofs.Returning

set_option autoImplicit false

/-! # Every result variable is returned

Where statements become the body of a function, a loop that ends them gets a variable for the value
of its last statement, and a `return` of the variable comes to the end of the body. However the
declarations of the statements are moved out and their values returned, these calls stand: the
body of each ends with a `return` for each of its variables, in the order in which the variables
were made (`PathId.replaceExpressionWithStatements_returns`). -/

namespace Espalier

open SessionM

namespace Session

variable {s s₁ s' : Session} {K : Set Wrapping} {s₀ : Session} {p q : PathId} {n : NodeId}

/-! ## The expression form -/

/-- What is no wrapper's is a stock: from it nothing is made that a wrapper has. -/
def spareStock (K : Set Wrapping) : Tree.Stock where
  Good t := t.Closed ∧ ∀ W ∈ K, t.Wraps W
  Has t n := n.index < t.size ∧ ∀ W ∈ K, n ∉ W.nodes
  grown hg hn := ⟨Nat.lt_of_lt_of_le hn.1 hg.size, hn.2⟩
  child {t n k} hgood hn hk hplain c hc := by
    refine ⟨hgood.1.children n k hk c hc, fun W hW hmem => ?_⟩
    obtain ⟨pos, hpos, hocc⟩ := (Tree.isChild_iff t n c).mpr ⟨k, hk, hc⟩
    obtain ⟨m, hm, hor⟩ := (hgood.2 W hW).sealed pos c hmem hocc
    obtain rfl := Option.some.inj (hpos.symm.trans hm)
    rcases hor with rfl | hnodes
    · have hcall := (hgood.2 W hW).call
      rw [Tree.type?_of_kind hk] at hcall
      rw [Option.some.inj hcall] at hplain
      cases hplain
    · exact hn.2 W hW hnodes
  push {t k} hgood hk := by
    refine ⟨⟨hgood.1.push fun c hc => (hk c hc).1, fun W hW =>
      ((hgood.2 W hW).push fun c hc => (hk c hc).2 W hW).wraps⟩, by simp, fun W hW hmem => ?_⟩
    exact absurd ((hgood.2 W hW).index_lt hmem) (by simp)

namespace Ledger

/-- Looking for an expression form makes nodes that are no wrapper's. -/
theorem reduce (h : s.Ledger K s₀) {statements : List NodeId}
    (hstatements : ∀ n ∈ statements, s.Spare K n) {o : Option Reduced}
    (hrun : buildBelow statements (reduceStatements statements) s = .ok o s') :
    s.Tends K s₀ s' ∧ ∀ r, o = some r → s'.Spare K r.expression := by
  obtain ⟨-, hclosed, -⟩ := h.kept (.buildBelow _ _) (.reduceStatements fun n hn => (hstatements n hn).1)
    hrun
  unfold buildBelow at hrun
  rw [run_get_bind] at hrun
  cases hbuild : (reduceStatements statements).run s.tree with
  | none =>
    rw [hbuild] at hrun
    cases hrun
  | some r =>
    rw [hbuild] at hrun
    cases (onTree_run hbuild).symm.trans hrun
    obtain ⟨hg, hgood, hform⟩ := (spareStock K).reduceStatements ⟨h.closed.tree, fun W hW =>
      (h.wraps W hW).tree⟩ hstatements hbuild
    exact ⟨h.grow hg hclosed hgood.2, hform⟩

/-- A list that is no body gets fewer elements, and the paths of other lists are what they were. -/
theorem shorten (h : s.Ledger K s₀) {first : NodeId} {rest kept : List NodeId}
    (hk : s.tree.kind? n = some (.sequenceExpression (first :: rest)))
    (hkept : ∀ c ∈ kept, c ∈ first :: rest) {u : Unit}
    (hrun : modifyKind n (fun _ => .sequenceExpression kept) s = .ok u s') :
    s.Heeds K s₀ s' ∧ ∀ q d, s.paths[q.index]? = some d → d.container ≠ .list n .expressions →
      s.Skirts K q → s'.Skirts K q := by
  have hknown : s.Knows n := (s.tree.kind?_isSome_iff n).mp ⟨_, hk⟩
  obtain ⟨-, hclosed, hmore, -⟩ := h.kept (.of_quiet (.modifyKind _ _)) (.modifyKind hknown fun k _ _ c hc => by
    have hc : c ∈ kept := by simpa [NodeKind.children, NodeKind.fields, Child.ids] using hc
    exact (h.closed.tree.children n _ hk c
      (by simpa [NodeKind.children, NodeKind.fields, Child.ids] using hkept c hc))) hrun
  cases (modifyKind_run hk _).symm.trans hrun
  have hlist : s.tree.Relisted n .expressions (first :: rest) kept
      (s.tree.modify n fun node => { node with kind := .sequenceExpression kept }) := by
    refine ⟨rfl, Tree.size_modify _ _ _, fun m hm => ?_, _, hk, rfl, ?_⟩
    · simp only [Tree.kind?, Tree.node?_modify, if_neg hm]
    · obtain ⟨node, hnode, -⟩ := Option.map_eq_some_iff.mp hk
      simp [Tree.kind?, Tree.node?_modify, hnode]
      rfl
  refine ⟨h.ofTree hclosed hmore.nodes fun W hW => (h.wraps W hW).tree.relisted hlist
    (fun c hc => .inl (hkept c hc)) (fun _ heq => by cases heq), fun q d hd hc hq => ?_⟩
  obtain ⟨e, pos, m, m', he, hpos, hm, hmem, hocc, hm'⟩ := hq
  obtain rfl := Option.some.inj (hd.symm.trans he)
  refine ⟨d, pos, m, m', hd, hpos, hm, hmem, (hlist.occupant? ?_).trans hocc, hm'⟩
  rw [Container.position?_container hpos]
  exact hc

/-- The last value of a sequence is dropped. -/
theorem dropUnusedValue (h : s.Ledger K s₀) (hp : K.Nonempty → s.Skirts K p)
    {expression : NodeId} (hexpression : s.Spare K expression)
    (hrun : p.dropUnusedValue expression s = .ok n s') :
    s.Heeds K s₀ s' ∧ (K.Nonempty → s'.Skirts K p) ∧ s'.Spare K n := by
  have hstay : s.Heeds K s₀ s ∧ (K.Nonempty → s.Skirts K p) ∧ s.Spare K expression :=
    ⟨(Tends.refl h).toHeeds, hp, hexpression⟩
  unfold PathId.dropUnusedValue at hrun
  obtain ⟨o, ho, hrun⟩ := question_bind_eq_ok (.parentType? p) hrun
  split at hrun
  · cases hrun
    exact hstay
  · next hparent =>
    obtain ⟨record, -, hrun⟩ := question_bind_eq_ok (.isCompletionRecord p false) hrun
    split at hrun
    · cases hrun
      exact hstay
    · obtain ⟨k, hk, hrun⟩ := question_bind_eq_ok (.ask _) hrun
      replace hk := (ask_eq_ok hk).2
      split at hrun
      · next first second rest =>
        obtain ⟨pure, -, hrun⟩ := question_bind_eq_ok (.ask _) hrun
        split at hrun
        · obtain ⟨u, s₁, hmodify, hrun⟩ := bind_eq_ok hrun
          cases hrun
          have hkept : ∀ c ∈ first :: (second :: rest).dropLast, c ∈ first :: second :: rest :=
            fun c hc => (List.mem_cons.mp hc).elim (fun heq => heq ▸ List.mem_cons_self)
              fun hc => List.mem_cons_of_mem _ (List.mem_of_mem_dropLast hc)
          obtain ⟨h₁, hothers⟩ := h.shorten hk hkept hmodify
          refine ⟨h₁, fun hK => ?_, ?_⟩
          · obtain ⟨d, pos, m, m', hd, hrest⟩ := hp hK
            refine hothers p d hd (fun hc => ?_) (hp hK)
            obtain ⟨-, rfl⟩ := PathId.parentType?_eq_ok hd ho
            rw [PathData.ownerType?, hc] at hparent
            refine hparent fun htype => ?_
            rw [show (Container.list expression Field.expressions).parent? = some expression from rfl,
              Option.bind_some, Tree.type?_of_kind hk] at htype
            cases htype
          · have hfirst : s.Spare K first := h.spare_child hk rfl nofun
              (by simp [NodeKind.children, NodeKind.fields, Child.ids])
            split
            · exact hfirst.mono h₁.more
            · exact hexpression.mono h₁.more
        · cases hrun
          exact hstay
      · cases hrun
        exact hstay

/-! ## Replacement by statements -/

end Ledger

/-- The replacement of the expression at `p` by statements that have no expression form makes the
nodes of a function in `built`, and returns the values of `records` from it, from `opened` on. -/
def Opens (replace : PathId → NodeId → SessionM Unit) (p : PathId) (statements : List NodeId)
    (s built : Session) (callee : PathId) (records : List PathId) (opened : Session) : Prop :=
  ∃ scope s₁ s₂, p.resync s = .ok () s₁ ∧ p.scope s₁ = .ok scope s₂ ∧
    buildBelow statements (reduceStatements statements) s₂ = .ok none built ∧
    p.openWrapper replace scope statements built = .ok (callee, records) opened

namespace Ledger

section Nested

variable {replace : PathId → NodeId → SessionM Unit} (hreplace : Considerate replace)

include hreplace

/-- Statements come to the place of an expression. A function that is made for them returns the
variables that are made for its values. -/
theorem replaceByStatementsUsing (h : s.Ledger K s₀)
    (hp : K.Nonempty → s.Skirts K p ∧ p.resync s = .ok () s) (hknown : s.Knows p)
    {statements : List NodeId} (hstatements : ∀ n ∈ statements, s.Spare K n)
    (hrun : p.replaceByStatementsUsing replace statements s = .ok q s') :
    ∃ K', s.Accrues K s₀ s' K' ∧ ∀ built callee records opened,
      Opens replace p statements s built callee records opened →
      ∃ W, Wrapping.Prolongs ⟨⟨built.tree.size + 2⟩, ⟨built.tree.size + 1⟩, ⟨built.tree.size⟩,
        callee, []⟩ W (PathId.madeResults replace callee records opened) ∧ s'.tree.Wraps W := by
  unfold PathId.replaceByStatementsUsing at hrun
  split at hrun
  · cases hrun
  · obtain ⟨removed, -, hrun⟩ := question_bind_eq_ok (.isRemoved p) hrun
    cases removed with
    | true => cases hrun
    | false =>
      obtain ⟨u₁, s₁, hresync, hrun⟩ := bind_eq_ok hrun
      have h₁ := h.resync (fun W hW => (hp ⟨W, hW⟩).1.bypasses.callee_ne h W hW) hresync
      have hp₁ : K.Nonempty → s₁.Skirts K p := fun hK => by
        cases hresync.symm.trans (hp hK).2
        exact (hp hK).1
      obtain ⟨scope, s₂, hscope, hrun⟩ := bind_eq_ok hrun
      obtain ⟨h₂, hscopeKnown⟩ := h₁.ledger.charting (.scope p) (.scope (h₁.more.knows hknown)) hscope
      obtain ⟨o, s₃, hreduce, hrun⟩ := bind_eq_ok hrun
      have h₁₂ := h₁.trans h₂.toHeeds
      obtain ⟨h₃, hform⟩ := h₂.ledger.reduce (fun n hn => (hstatements n hn).mono h₁₂.more) hreduce
      have h₁₃ := h₁₂.trans h₃.toHeeds
      have hp₃ : K.Nonempty → s₃.Skirts K p := fun hK => (h₂.trans h₃).skirts p (hp₁ hK)
      cases o with
      | some reduced =>
        obtain ⟨u₄, s₄, hdeclare, hrun⟩ := bind_eq_ok hrun
        have h₄ := h₃.ledger.declareAll (h₃.more.knows hscopeKnown) _ hdeclare
        obtain ⟨e, s₅, hdrop, hrun⟩ := bind_eq_ok hrun
        obtain ⟨h₅, hp₅, he⟩ := h₄.ledger.dropUnusedValue (fun hK => h₄.skirts p (hp₃ hK))
          ((hform reduced rfl).mono h₄.more) hdrop
        obtain ⟨u₆, s₆, hreplaced, hrun⟩ := bind_eq_ok hrun
        cases hrun
        have h₁₅ := h₁₃.trans (h₄.toHeeds.trans h₅)
        obtain ⟨K', h₆⟩ := hreplace.accrues h₅.ledger (fun W hW => (hp₅ ⟨W, hW⟩).bypasses W hW)
          (h₁₅.more.knows hknown) he hreplaced
        refine ⟨K', h₁₅.accrues.trans h₆, ?_⟩
        rintro built callee records opened ⟨scope', t₁, t₂, hresync', hscope', hreduce', -⟩
        cases hresync.symm.trans hresync'
        cases hscope.symm.trans hscope'
        cases hreduce.symm.trans hreduce'
      | none =>
        obtain ⟨u₄, s₄, hwrap, hrun⟩ := bind_eq_ok hrun
        cases hrun
        obtain ⟨K', W, callee, records, opened, h₄, hopen, hnames, hwraps⟩ :=
          h₃.ledger.wrapInFunction hreplace hp₃ (h₁₃.more.knows hknown) (h₃.more.knows hscopeKnown)
            (fun n hn => (hstatements n hn).mono h₁₃.more) hwrap
        refine ⟨K', h₁₃.accrues.trans h₄, ?_⟩
        rintro built callee' records' opened' ⟨scope', t₁, t₂, hresync', hscope', hreduce', hopen'⟩
        cases hresync.symm.trans hresync'
        cases hscope.symm.trans hscope'
        cases hreduce.symm.trans hreduce'
        cases hopen.symm.trans hopen'
        exact ⟨W, hnames, hwraps⟩

end Nested

end Ledger

/-- Nothing is put where there is no position. -/
theorem replaceUsing_refused {byStatements : PathId → List NodeId → SessionM PathId} {d : PathData}
    (hs : s.Tidy) (hclosed : s.Closed) (hd : s.paths[p.index]? = some d)
    (hdetached : d.container = .detached) {u : Unit} :
    p.replaceUsing byStatements n s ≠ .ok u s' := by
  intro hrun
  unfold PathId.replaceUsing at hrun
  obtain ⟨removed, hremoved, hrun⟩ := question_bind_eq_ok (.isRemoved p) hrun
  obtain ⟨-, e, he, rfl⟩ := PathId.isRemoved_eq_ok hremoved
  obtain rfl := Option.some.inj (hd.symm.trans he)
  cases hlive : d.removed with
  | true =>
    rw [hlive] at hrun
    cases hrun
  | false =>
    rw [hlive] at hrun
    obtain ⟨u₁, s₁, hresync, hrun⟩ := bind_eq_ok hrun
    obtain ⟨s₂, d', hresync', hsettled, hend, -⟩ := PathId.resync_returns hs hclosed hd hlive
    cases hresync'.symm.trans hresync
    have hcontainer : d'.container = .detached := by
      rw [hsettled.container]
      unfold homeOf
      split
      · exact hdetached
      · rw [hdetached]
        rfl
    obtain ⟨removed, hremoved, hrun⟩ := question_bind_eq_ok (.isRemoved p) hrun
    cases removed with
    | true => cases hrun
    | false =>
      obtain ⟨-, e, he, hlive'⟩ := PathId.isRemoved_eq_ok hremoved
      obtain rfl := Option.some.inj (hsettled.data.symm.trans he)
      have hnode : d'.node = none := by
        rcases hend with ⟨hr, -⟩ | ⟨hsame, -⟩
        · rw [hlive'] at hr
          cases hr
        · exact hsame.trans ((hs.fit p d hd).adrift hdetached)
      dsimp only at hrun
      rw [if_neg Bool.false_ne_true, bind_of_ok (p.node?_run hsettled.data), hnode,
        if_neg (by simp)] at hrun
      obtain ⟨type, -, hrun⟩ := question_bind_eq_ok (.ask _) hrun
      rw [bind_of_ok (PathId.type?_run_of_empty hsettled.data hnode)] at hrun
      obtain ⟨u₂, s₃, hset, -⟩ := bind_eq_ok (x := p.setNode n) hrun
      rcases PathId.setNode_cases hsettled.data n with ⟨pos, s₄, hpos, -⟩ | ⟨e, hrefused, -⟩
      · rw [PathData.position?, hcontainer] at hpos
        cases hpos
      · cases hrefused.symm.trans hset

/-- Replacement leaves the calls standing, however deep statements stand in the place of expressions
inside each other. -/
theorem considerate_replaceWithin (fuel : Nat) : Considerate (PathId.replaceWithin fuel) := by
  induction fuel with
  | zero => exact ⟨fun _ _ => .throw _, fun _ _ => .exhausted, nofun, nofun, nofun⟩
  | succ fuel ih =>
    refine ⟨.replaceWithin _, fun hp hn => .replaceWithin _ hp hn,
      fun hs hclosed hd hdetached => replaceUsing_refused hs hclosed hd hdetached, ?_, ?_⟩
    · intro s K s₀ p n type u s' h hp hn htype hstatement hdeclaration hrun
      have hplain : ∀ s₁, p.resync s = .ok () s₁ → ¬ s₁.WantsExpression p n := by
        rintro s₁ hresync ⟨d, old, new, hex, -, hwants, -⟩
        obtain rfl := Option.some.inj (((Robust.resync p hresync).1 ▸ hex.new).symm.trans htype)
        rw [hstatement] at hwants
        cases hwants
      have hreplaces := (PathId.replaceUsing_decides h.tidy hplain _).1 u s' hrun
      rcases h.replaceUsing hp hn hrun with ⟨h₁, hlives⟩ | ⟨s₁, q, hresync, -, -, -, hwants, -⟩
      · exact ⟨h₁, hreplaces, hlives type htype hdeclaration⟩
      · exact absurd hwants (hplain s₁ hresync)
    · intro s K s₀ p n u s' h hp hknown hn hrun
      rcases h.replaceUsing hp hn hrun with ⟨h₁, -⟩ | ⟨s₁, q, -, h₁, hagain, hskirts, -, hrun⟩
      · exact ⟨K, h₁.accrues⟩
      · obtain ⟨K', h₂, -⟩ := h₁.ledger.replaceByStatementsUsing ih (fun _ => ⟨hskirts, hagain⟩)
          (h₁.more.knows hknown) (List.forall_mem_singleton.mpr (hn.mono h₁.more)) hrun
        exact ⟨K', h₁.accrues.trans h₂⟩

/-- Before a replacement no calls are followed. -/
theorem Ledger.start (hs : s.Tidy) (hclosed : s.Closed) : s.Ledger ∅ s where
  tidy := hs
  closed := hclosed
  grown := Nat.le_refl _
  wraps _ hW := nomatch hW
  made _ hW := nomatch hW
  apart _ hW := nomatch hW
  noted _ _ hx := .inl hx

end Session

/-! ## The function returns its results -/

/-- The variable that a `return` statement returns. -/
def Tree.returnedName? (t : Tree) (n : NodeId) : Option String :=
  match t.kind? n with
  | some (.returnStatement (some argument)) =>
    match t.kind? argument with
    | some (.identifier name _) => some name
    | _ => none
  | _ => none

theorem Tree.Wraps.returnedName? {t : Tree} {W : Wrapping} (h : t.Wraps W) {r : Wrapping.Result}
    (hr : r ∈ W.results) : t.returnedName? r.statement = some r.name := by
  obtain ⟨htype, hargument, hname⟩ := h.result r hr
  obtain ⟨k, hk, htype⟩ := kind_of_type? htype
  cases k <;> cases htype
  next o =>
    rw [Tree.occupant?, Tree.field?, hk, Option.bind_some] at hargument
    obtain rfl : o = some r.argument := hargument
    rw [Tree.returnedName?, hk]
    dsimp only
    rw [hname]

/-- The body ends with a `return` for each of these variables, in this order. -/
def Tree.EndsReturning (t : Tree) (body : NodeId) (names : List String) : Prop :=
  ∃ front returns, t.list? body .body = some (front ++ returns) ∧
    returns.map t.returnedName? = names.map some

theorem Tree.Wraps.endsReturning {t : Tree} {W : Wrapping} (h : t.Wraps W) :
    t.EndsReturning W.body W.names := by
  obtain ⟨front, hlist⟩ := h.statements
  refine ⟨front, W.returns, hlist, ?_⟩
  rw [Wrapping.returns, Wrapping.names, List.map_map, List.map_map]
  exact List.map_congr_left fun r hr => h.returnedName? hr

/-- Statements that become the body of a function: the call, the function and its body are the nodes
made for them, and the body ends with a `return` for each variable that was made for the value of a
loop, in the order in which they were made. The variable that a loop notes in the end is one that it
noted before, or one that such a function returns. -/
theorem PathId.replaceExpressionWithStatements_returns {s s' built opened : Session} {p q callee : PathId}
    {statements : List NodeId} {records : List PathId} (hs : s.Reached) (hclosed : s.Closed)
    (hp : s.Knows p) (hstatements : s.Knows statements)
    (hrun : p.replaceExpressionWithStatements statements s = .ok q s')
    (hopens : Session.Opens (replaceWithin (s.tree.depthBound + 8)) p statements s built callee
      records opened) :
    s'.tree.occupant? (.slot ⟨built.tree.size + 2⟩ .callee) = some ⟨built.tree.size + 1⟩ ∧
    s'.tree.occupant? (.slot ⟨built.tree.size + 1⟩ .body) = some ⟨built.tree.size⟩ ∧
    s'.tree.EndsReturning ⟨built.tree.size⟩
      (madeResults (replaceWithin (s.tree.depthBound + 8)) callee records opened) ∧
    ∀ loop x, s'.NotesResult loop x → s.NotesResult loop x ∨ ∃ W, s'.tree.Wraps W ∧ x ∈ W.names := by
  have hledger := Session.Ledger.start hs.tidy hclosed
  obtain ⟨K, hkept, hmade⟩ := hledger.replaceByStatementsUsing
    (Session.considerate_replaceWithin (s.tree.depthBound + 8)) (fun hK => absurd hK (by simp)) hp
    (fun n hn => ⟨hstatements n hn, fun _ hW => nomatch hW⟩) hrun
  obtain ⟨W, ⟨results, rfl, hnames⟩, hwraps⟩ := hmade built callee records opened hopens
  refine ⟨hwraps.callee, hwraps.block, ?_, fun loop x hx => ?_⟩
  · rw [← hnames]
    exact hwraps.endsReturning
  · refine (hkept.ledger.noted loop x hx).imp_right fun ⟨V, hV, r, hr, hname⟩ => ?_
    exact ⟨V, (hkept.ledger.wraps V hV).tree, List.mem_map.mpr ⟨r, hr, hname⟩⟩

/-- The program `f(g());`, and beside it `if (c) while (a) x; else while (b) y;`. -/
def forkedProgram : Tree where
  nodes := #[{ kind := .identifier "f" none }, { kind := .identifier "g" none },
    { kind := .callExpression ⟨1⟩ [] }, { kind := .callExpression ⟨0⟩ [⟨2⟩] },
    { kind := .expressionStatement ⟨3⟩ }, { kind := .program [⟨4⟩] [] },
    { kind := .identifier "c" none }, { kind := .identifier "a" none },
    { kind := .identifier "x" none }, { kind := .expressionStatement ⟨8⟩ },
    { kind := .whileStatement ⟨7⟩ ⟨9⟩ }, { kind := .identifier "b" none },
    { kind := .identifier "y" none }, { kind := .expressionStatement ⟨12⟩ },
    { kind := .whileStatement ⟨11⟩ ⟨13⟩ }, { kind := .ifStatement ⟨6⟩ ⟨10⟩ (some ⟨14⟩) }]
  root := some ⟨5⟩

/-- The path of the argument `g()`. -/
def argumentPath : SessionM PathId := do
  let root ← rootPath
  let statement ← root.element .body 0
  let call ← statement.child .expression
  call.element .arguments 0

theorem argumentPath_navigating : Navigating argumentPath :=
  Navigating.rootPath.bind fun root => (Navigating.element root .body 0).bind fun statement =>
    (Navigating.child statement .expression).bind fun call => Navigating.element call .arguments 0

/-- The session after the search for it; the argument has the path 3. -/
def forkedSession : Session :=
  after argumentPath { tree := forkedProgram, config := { lazyScopes := true } }

theorem forkedProgram_opened : Session.open? forkedProgram { lazyScopes := true } =
    .ok { tree := forkedProgram, config := { lazyScopes := true } } := rfl

theorem forkedSession_reached : forkedSession.Reached := by
  have hreached := Session.Reached.used () 0 (.opened forkedProgram_opened)
    (.call (.navigate argumentPath_navigating))
  rwa [WalkM.after_onSession] at hreached

theorem forkedSession_closed : forkedSession.Closed := by
  have hfresh : Session.Closed { tree := forkedProgram, config := { lazyScopes := true } } :=
    .opened (.of_nodes (by decide) (by decide)) forkedProgram_opened
  have hcareful : Careful argumentPath { tree := forkedProgram, config := { lazyScopes := true } } :=
    Careful.rootPath.bind fun root _ _ hroot => (Careful.element hroot .body 0).bind
      fun statement _ _ hstatement => (Careful.child hstatement .expression).bind
        fun call _ _ hcall => Careful.element hcall .arguments 0
  have hfound : value? argumentPath { tree := forkedProgram, config := { lazyScopes := true } } =
      some ⟨3⟩ := by decide +kernel
  have hends := hcareful hfresh
  rw [eq_ok_of_value? hfound] at hends
  exact hends.2.1

/-- The session in which the nodes of the function are made, when the two loops come to the place of
the argument. -/
def forkedBuilt : Session := after (do
  PathId.resync ⟨3⟩
  let _ ← PathId.scope ⟨3⟩
  buildBelow [⟨15⟩] (reduceStatements [⟨15⟩])) forkedSession

/-- The session in which the values are about to be returned: the function has the path 6, and the
statements `x;` and `y;` have the paths 12 and 16. -/
def forkedOpened : Session :=
  after (PathId.openWrapper (PathId.replaceWithin 26) ⟨3⟩ ⟨0⟩ [⟨15⟩]) forkedBuilt

theorem forkedSession_opens : Session.Opens (PathId.replaceWithin (forkedSession.tree.depthBound + 8))
    ⟨3⟩ [⟨15⟩] forkedSession forkedBuilt ⟨6⟩ [⟨12⟩, ⟨16⟩] forkedOpened := by
  have hresync : value? (PathId.resync ⟨3⟩) forkedSession = some () := by decide +kernel
  have hscope : value? (PathId.scope ⟨3⟩) (after (PathId.resync ⟨3⟩) forkedSession) = some ⟨0⟩ := by
    decide +kernel
  have hreduce : value? (buildBelow [⟨15⟩] (reduceStatements [⟨15⟩]))
      (after (PathId.scope ⟨3⟩) (after (PathId.resync ⟨3⟩) forkedSession)) = some none := by
    decide +kernel
  have hopen : value? (PathId.openWrapper (PathId.replaceWithin 26) ⟨3⟩ ⟨0⟩ [⟨15⟩]) forkedBuilt =
      some (⟨6⟩, [⟨12⟩, ⟨16⟩]) := by decide +kernel
  have hbuilt : forkedBuilt = after (buildBelow [⟨15⟩] (reduceStatements [⟨15⟩]))
      (after (PathId.scope ⟨3⟩) (after (PathId.resync ⟨3⟩) forkedSession)) := by
    refine after_of_ok (a := none) ?_
    rw [bind_of_ok (eq_ok_of_value? hresync), bind_of_ok (eq_ok_of_value? hscope)]
    exact eq_ok_of_value? hreduce
  have hfuel : forkedSession.tree.depthBound + 8 = 26 := by decide +kernel
  rw [hfuel]
  refine ⟨⟨0⟩, _, _, eq_ok_of_value? hresync, eq_ok_of_value? hscope, ?_, eq_ok_of_value? hopen⟩
  rw [hbuilt]
  exact eq_ok_of_value? hreduce

theorem forkedSession_succeeds :
    value? (PathId.replaceExpressionWithStatements ⟨3⟩ [⟨15⟩]) forkedSession = some ⟨3⟩ := by
  decide +kernel

/-- Two loops end the statements: the function returns `_ret` and `_ret2`. -/
theorem forkedProgram_returns : forkedSession.Reached ∧ forkedSession.Closed ∧ ∃ s',
    PathId.replaceExpressionWithStatements ⟨3⟩ [⟨15⟩] forkedSession = .ok ⟨3⟩ s' ∧
    s'.tree.EndsReturning ⟨16⟩ ["_ret", "_ret2"] := by
  have hrun := eq_ok_of_value? forkedSession_succeeds
  have hnames : PathId.madeResults (PathId.replaceWithin (forkedSession.tree.depthBound + 8)) ⟨6⟩
      [⟨12⟩, ⟨16⟩] forkedOpened = ["_ret", "_ret2"] := by decide +kernel
  have hsize : forkedBuilt.tree.size = 16 := by decide +kernel
  have hreturns := PathId.replaceExpressionWithStatements_returns forkedSession_reached forkedSession_closed
    (show 3 < forkedSession.paths.size by decide +kernel)
    (List.forall_mem_singleton.mpr (show 15 < forkedSession.tree.size by decide +kernel)) hrun
    forkedSession_opens
  rw [hnames, hsize] at hreturns
  exact ⟨forkedSession_reached, forkedSession_closed, _, hrun, hreturns.2.2.1⟩

/-- The variable that the first one of the `return` statements made since there were `since` nodes
returns. -/
def Tree.firstReturned? (t : Tree) (since : Nat) (body : NodeId) : Option String :=
  ((t.list? body .body).bind fun ids =>
    ids.find? fun n => since ≤ n.index && t.type? n == some .returnStatement).bind t.returnedName?

/-- The `return` of `_ret2` stands after that of `_ret`: where the second loop ends, the function does
not return its value. -/
theorem forkedProgram_buried : ¬ ∀ (s s' built opened : Session) (p q callee : PathId)
    (statements : List NodeId) (records : List PathId), s.Reached → s.Closed → s.Knows p →
    s.Knows statements → p.replaceExpressionWithStatements statements s = .ok q s' →
    Session.Opens (PathId.replaceWithin (s.tree.depthBound + 8)) p statements s built callee records
      opened →
    ∀ x ∈ PathId.madeResults (PathId.replaceWithin (s.tree.depthBound + 8)) callee records opened,
      s'.tree.firstReturned? s.tree.size ⟨built.tree.size⟩ = some x := by
  intro h
  have htrue := h _ _ _ _ _ _ _ _ _ forkedSession_reached forkedSession_closed
    (show 3 < forkedSession.paths.size by decide +kernel)
    (List.forall_mem_singleton.mpr (show 15 < forkedSession.tree.size by decide +kernel))
    (eq_ok_of_value? forkedSession_succeeds) forkedSession_opens "_ret2" (by decide +kernel)
  have hfalse : (after (PathId.replaceExpressionWithStatements ⟨3⟩ [⟨15⟩])
      forkedSession).tree.firstReturned? forkedSession.tree.size ⟨forkedBuilt.tree.size⟩ =
      some "_ret" := by decide +kernel
  rw [hfalse] at htrue
  exact absurd htrue (by decide)

end Espalier
