import Espalier.Proofs.Hoisting

set_option autoImplicit false

/-! # The values of loops

A wrapper gets a variable for each loop whose statements end its body, and returns it at the end. -/

namespace Espalier

open SessionM

/-! ## Results of a wrapper -/

/-- Whatever has an expression of this name needs it, and is no part of a wrapper. -/
theorem NodeKind.child?_expression {k : NodeKind} {c : Child} (h : k.child? .expression = some c) :
    (∃ n, c = .one n) ∧ k.type.isWrapping = false ∧ k.type ≠ .callExpression := by
  rw [child?_eq_some_iff] at h
  cases k <;> simp_all [fields, NodeType.isWrapping, NodeKind.type]

namespace Composed

/-- The search for a loop only asks. -/
theorem loopBelow? {Primitive : (α : Type) → SessionM α → Prop} (p : PathId)
    (wrapper : Option NodeId) : Composed Primitive (p.loopBelow? wrapper) := by
  refine (Composed.parent? p).bind fun _ =>
    (Composed.climb (fun q => (Composed.node? q).bind fun _ => .ite (.pure _) ?_) _).bind fun _ => .pure _
  exact (Composed.isAny q _).bind fun _ => .ite (.pure _) (.pure _)

end Composed

namespace Wrapping

variable {W : Wrapping} {n : NodeId} {r : Result}

/-- The call without its results. -/
def bare (W : Wrapping) : Wrapping := { W with results := [] }

theorem mem_bare_nodes : n ∈ W.bare.nodes ↔ n = W.function ∨ n = W.body := by
  simp [nodes, bare]

theorem bare_nodes_subset (hn : n ∈ W.bare.nodes) : n ∈ W.nodes :=
  (mem_bare_nodes.mp hn).elim .inl fun h => .inr (.inl h)

theorem mem_nodes_extend :
    n ∈ (W.extend r).nodes ↔ n ∈ W.nodes ∨ n = r.statement ∨ n = r.argument := by
  simp only [nodes, extend, Set.mem_ofPred_eq, List.mem_append, List.mem_singleton]
  constructor
  · rintro (h | h | ⟨q, hq | rfl, h⟩)
    · exact .inl (.inl h)
    · exact .inl (.inr (.inl h))
    · exact .inl (.inr (.inr ⟨q, hq, h⟩))
    · exact .inr h
  · rintro ((h | h | ⟨q, hq, h⟩) | h)
    · exact .inl h
    · exact .inr (.inl h)
    · exact .inr (.inr ⟨q, .inl hq, h⟩)
    · exact .inr (.inr ⟨r, .inr rfl, h⟩)

theorem returns_extend (W : Wrapping) (r : Result) :
    (W.extend r).returns = W.returns ++ [r.statement] := by
  simp [returns, extend]

/-- The names of the variables, in the order in which they are returned. -/
def names (W : Wrapping) : List String := W.results.map Result.name

/-- The same call with more variables, of these names. -/
def Prolongs (W V : Wrapping) (names : List String) : Prop :=
  ∃ results, V = { W with results := W.results ++ results } ∧ results.map Result.name = names

theorem Prolongs.refl (W : Wrapping) : W.Prolongs W [] := ⟨[], by simp, rfl⟩

theorem Prolongs.trans {U V : Wrapping} {xs ys : List String} (h₁ : W.Prolongs V xs)
    (h₂ : V.Prolongs U ys) : W.Prolongs U (xs ++ ys) := by
  obtain ⟨rs, rfl, rfl⟩ := h₁
  obtain ⟨qs, rfl, rfl⟩ := h₂
  exact ⟨rs ++ qs, by rw [List.append_assoc], List.map_append⟩

theorem prolongs_extend (W : Wrapping) (r : Result) : W.Prolongs (W.extend r) [r.name] :=
  ⟨[r], rfl, rfl⟩

theorem Prolongs.callee {V : Wrapping} {xs : List String} (h : W.Prolongs V xs) :
    V.callee = W.callee := by
  obtain ⟨rs, rfl, -⟩ := h
  rfl

end Wrapping

namespace Tree

variable {t t' : Tree} {W : Wrapping} {n m : NodeId} {r : Wrapping.Result}

/-- Below the results stands nothing but them. -/
theorem Wraps.not_isChild_result (h : t.Wraps W) (hr : r ∈ W.results)
    (hn : n = W.function ∨ n = W.body) : ¬ t.IsChild r.statement n ∧ ¬ t.IsChild r.argument n := by
  obtain ⟨htype, hocc, hkind⟩ := h.result r hr
  constructor
  · intro hchild
    obtain ⟨k, hk, hmem⟩ := (isChild_iff t _ _).mp hchild
    obtain ⟨k', hk', hk₂⟩ := kind_of_type? htype
    obtain rfl := Option.some.inj (hk.symm.trans hk')
    cases k <;> cases hk₂
    next o =>
      obtain ⟨c, hc, hone⟩ := Option.bind_eq_some_iff.mp hocc
      rw [field?, hk, Option.bind_some] at hc
      cases hc
      obtain rfl : o = some r.argument := hone
      obtain rfl : n = r.argument := by simpa [NodeKind.children, NodeKind.fields, Child.ids] using hmem
      have hname := type?_of_kind hkind
      rcases hn with hn | hn
      · rw [hn, h.function] at hname
        cases hname
      · rw [hn, h.body] at hname
        cases hname
  · intro hchild
    obtain ⟨k, hk, hmem⟩ := (isChild_iff t _ _).mp hchild
    obtain rfl := Option.some.inj (hk.symm.trans hkind)
    simp [NodeKind.children, NodeKind.fields] at hmem

/-- The call stands whatever its results are. -/
theorem Wraps.bare (h : t.Wraps W) : t.Wraps W.bare where
  call := h.call
  function := h.function
  body := h.body
  callee := h.callee
  block := h.block
  statements := by
    obtain ⟨front, hlist⟩ := h.statements
    exact ⟨front ++ W.returns, by simpa [Wrapping.bare, Wrapping.returns] using hlist⟩
  result _ hr := nomatch hr
  sealed pos n hn hocc := by
    obtain ⟨m, hm, hor⟩ := h.sealed pos n (Wrapping.bare_nodes_subset hn) hocc
    refine ⟨m, hm, hor.imp_right fun hmem => ?_⟩
    have hn := Wrapping.mem_bare_nodes.mp hn
    rcases hmem with rfl | rfl | ⟨r, hr, rfl | rfl⟩
    · exact W.bare.function_mem
    · exact W.bare.body_mem
    · exact absurd ⟨pos, hm, hocc⟩ (h.not_isChild_result hr hn).1
    · exact absurd ⟨pos, hm, hocc⟩ (h.not_isChild_result hr hn).2

/-- A `return` of a variable, neither of which stands anywhere else. -/
structure Presents (t : Tree) (r : Wrapping.Result) : Prop where
  statement : t.type? r.statement = some .returnStatement
  argument : t.occupant? (.slot r.statement .argument) = some r.argument
  name : t.kind? r.argument = some (.identifier r.name none)
  loose : ∀ pos, t.occupant? pos ≠ some r.statement
  sealed : ∀ pos, t.occupant? pos = some r.argument → pos.parent? = some r.statement

/-- A `return` comes to the end of the body. -/
theorem Wraps.extend (h : t.Wraps W) (hr : t.Presents r) {ids : List NodeId}
    (hlist : t.Relisted W.body .body ids (ids ++ [r.statement]) t') : t'.Wraps (W.extend r) := by
  obtain ⟨k, hk, -, hk'⟩ := hlist.list
  have htype : ∀ n, t'.type? n = t.type? n := fun n => by
    rw [← map_type_kind?, hlist.type?, map_type_kind?]
  have hslot : ∀ m f, t'.occupant? (.slot m f) = t.occupant? (.slot m f) := fun m f =>
    hlist.occupant? (by simp [Position.container])
  have hname : ∀ n x, t.kind? n = some (.identifier x none) →
      t'.kind? n = some (.identifier x none) := fun n x hn => by
    rw [hlist.kind n, hn]
    rintro rfl
    have hblock := h.body
    rw [type?_of_kind hn] at hblock
    cases hblock
  obtain ⟨front, hfront⟩ := h.statements
  rw [hlist.list?] at hfront
  obtain rfl := Option.some.inj hfront
  refine ⟨(htype _).trans h.call, (htype _).trans h.function, (htype _).trans h.body,
    (hslot _ _).trans h.callee, (hslot _ _).trans h.block, ⟨front, ?_⟩, fun q hq => ?_,
    fun pos n hn hocc => ?_⟩
  · rw [Wrapping.returns_extend, ← List.append_assoc]
    exact hlist.list?'
  · rcases List.mem_append.mp hq with hq | hq
    · obtain ⟨htype', hocc, hkind⟩ := h.result q hq
      exact ⟨(htype _).trans htype', (hslot _ _).trans hocc, hname _ _ hkind⟩
    · obtain rfl := List.mem_singleton.mp hq
      exact ⟨(htype _).trans hr.statement, (hslot _ _).trans hr.argument, hname _ _ hr.name⟩
  · rcases Relisted.position_cases W.body .body pos with ⟨i, rfl⟩ | hc
    · exact ⟨W.body, rfl, .inr (W.extend r).body_mem⟩
    · rw [hlist.occupant? hc] at hocc
      rcases Wrapping.mem_nodes_extend.mp hn with hn | rfl | rfl
      · obtain ⟨m, hm, hor⟩ := h.sealed pos n hn hocc
        exact ⟨m, hm, hor.imp_right fun hm => Wrapping.mem_nodes_extend.mpr (.inl hm)⟩
      · exact absurd hocc (hr.loose pos)
      · exact ⟨_, hr.sealed pos hocc, .inr (Wrapping.mem_nodes_extend.mpr (.inr (.inl rfl)))⟩

/-- A `return` of a variable that has just been made. -/
theorem Closed.presents (h : t.Closed) (x : String) :
    Presents ((t.push { kind := .identifier x none }).push
      { kind := .returnStatement (some ⟨t.size⟩) }) ⟨x, ⟨t.size + 1⟩, ⟨t.size⟩⟩ := by
  have hold : ∀ {pos n}, ((t.push { kind := .identifier x none }).push
      { kind := .returnStatement (some ⟨t.size⟩) }).occupant? pos = some n → t.size ≤ n.index →
      pos.parent? = some ⟨t.size + 1⟩ ∧ n = ⟨t.size⟩ := by
    intro pos n hocc hn
    rcases occupant?_push_cases hocc with ⟨hparent, hmem⟩ | hocc
    · exact ⟨by simpa using hparent, by simpa [NodeKind.children, NodeKind.fields, Child.ids] using hmem⟩
    · rcases occupant?_push_cases hocc with ⟨-, hmem⟩ | hocc
      · simp [NodeKind.children, NodeKind.fields] at hmem
      · exact absurd (h.index_lt_of_occupant hocc) (Nat.not_lt.mpr hn)
  have hret : ((t.push { kind := .identifier x none }).push
      { kind := .returnStatement (some ⟨t.size⟩) }).kind? ⟨t.size + 1⟩ =
      some (.returnStatement (some ⟨t.size⟩)) := by simp [kind?, node?_push]
  refine ⟨type?_of_kind hret, ?_, ?_, fun pos hocc => ?_, fun pos hocc => (hold hocc (Nat.le_refl _)).1⟩
  · rw [occupant?, field?, hret]
    rfl
  · simp [kind?, node?_push]
  · have := (hold hocc (Nat.le_succ _)).2
    simp at this

/-- The call of a new function around statements. -/
def wrapped (t : Tree) (statements : List NodeId) : Tree :=
  ((t.push { kind := .blockStatement statements }).push
    { kind := .functionExpression none [] ⟨t.size⟩ false false none }).push
    { kind := .callExpression ⟨t.size + 1⟩ [] }

/-- It is a call without results, and what it consists of stands nowhere else. -/
theorem Closed.wraps_wrapped (h : t.Closed) (statements : List NodeId) (callee : PathId) :
    (t.wrapped statements).Wraps ⟨⟨t.size + 2⟩, ⟨t.size + 1⟩, ⟨t.size⟩, callee, []⟩ := by
  have hblock : (t.wrapped statements).kind? ⟨t.size⟩ = some (.blockStatement statements) := by
    have hne : t.size ≠ t.size + 1 + 1 := by omega
    simp [wrapped, kind?, node?_push, hne]
  have hfunction : (t.wrapped statements).kind? ⟨t.size + 1⟩ =
      some (.functionExpression none [] ⟨t.size⟩ false false none) := by
    simp [wrapped, kind?, node?_push]
  have hcall : (t.wrapped statements).kind? ⟨t.size + 2⟩ = some (.callExpression ⟨t.size + 1⟩ []) := by
    simp [wrapped, kind?, node?_push]
  refine ⟨type?_of_kind hcall, type?_of_kind hfunction, type?_of_kind hblock, ?_, ?_, ⟨statements, ?_⟩,
    fun r hr => (List.not_mem_nil hr).elim, fun pos n hn hocc => ?_⟩
  · rw [occupant?, field?, hcall]
    rfl
  · rw [occupant?, field?, hfunction]
    rfl
  · rw [Wrapping.returns, List.map_nil, List.append_nil, list?_eq_some_iff, field?, hblock]
    rfl
  · have hold : t.occupant? pos ≠ some n := by
      intro hocc
      have hlt := h.index_lt_of_occupant hocc
      rcases hn with rfl | rfl | ⟨r, hr, -⟩
      · exact absurd hlt (by simp)
      · exact absurd hlt (by simp)
      · cases hr
    rcases occupant?_push_cases hocc with ⟨hparent, -⟩ | hocc
    · exact ⟨_, hparent, .inl (by simp)⟩
    · rcases occupant?_push_cases hocc with ⟨hparent, -⟩ | hocc
      · exact ⟨_, hparent, .inr (.inl (by simp))⟩
      · rcases occupant?_push_cases hocc with ⟨hparent, -⟩ | hocc
        · exact ⟨_, hparent, .inr (.inr (.inl rfl))⟩
        · exact absurd hocc hold

end Tree

/-! ## The variables that are made -/

namespace PathId

/-- The first part of a replacement by a function call: the call is put there, and the declarations
are moved out. Gives the path of the function and the statements whose values it returns. -/
def openWrapper (replace : PathId → NodeId → SessionM Unit) (p : PathId) (scope : ScopeId)
    (statements : List NodeId) : SessionM (PathId × List PathId) := do
  let body ← onTree (TreeM.block statements)
  let function ← onTree (TreeM.functionExpression none [] body)
  let call ← onTree (TreeM.alloc (.callExpression function []))
  replace p call
  let callee ← p.child .callee
  hoistVariables replace callee scope
  pure (callee, ← callee.completionRecords)

theorem wrapInFunction_eq (replace : PathId → NodeId → SessionM Unit) (p : PathId) (scope : ScopeId)
    (statements : List NodeId) :
    p.wrapInFunction replace scope statements = (do
      let (callee, records) ← p.openWrapper replace scope statements
      records.forM (returnRecord replace callee)) := by
  simp [wrapInFunction, openWrapper]

/-- The variable that is made for the value of a loop, when the loop has none yet. -/
def newResult? (callee loop : PathId) : SessionM (Option String) := do
  match ← loop.note? resultNote with
  | some (.str _) => pure none
  | _ => some <$> do (← callee.scope).generateDeclaredUid "ret"

/-- The variable that is made to return the value of a statement from the function at `callee`, if
one is. -/
def madeResult? (callee p : PathId) : SessionM (Option String) := do
  match ← p.kind? with
  | some (.expressionStatement _) =>
    match ← p.loopBelow? (← callee.node?) with
    | some loop => newResult? callee loop
    | none => pure none
  | _ => pure none

/-- The variables that are made while the values of the statements are returned, in order. -/
def madeResults (replace : PathId → NodeId → SessionM Unit) (callee : PathId) :
    List PathId → Session → List String
  | [], _ => []
  | p :: records, s => (value? (callee.madeResult? p) s).join.toList ++
      madeResults replace callee records (after (returnRecord replace callee p) s)

end PathId

/-! ## Calls with more results -/

namespace Session

variable {s s₁ s' : Session} {K K' K₁ : Set Wrapping} {s₀ : Session} {W W' W₁ : Wrapping}
  {p q callee loop : PathId} {n : NodeId} {r : Wrapping.Result}

/-- After the step the calls stand, and `W` has become `W'`: it got results of these names. -/
structure Amends (s : Session) (K : Set Wrapping) (s₀ : Session) (W : Wrapping) (s' : Session)
    (K' : Set Wrapping) (W' : Wrapping) (names : List String) : Prop where
  kept : ∀ V ∈ K, V.callee ≠ W.callee → V ∈ K'
  mem : W' ∈ K'
  prolongs : W.Prolongs W' names
  ledger : s'.Ledger K' s₀
  more : s.Extends s'
  fresh : ∀ V ∈ K', V ∈ K ∨ V.callee = W.callee ∨ s.paths.size ≤ V.callee.index

theorem Accrues.amends (h : s.Accrues K s₀ s' K') (hW : W ∈ K) : s.Amends K s₀ W s' K' W [] where
  kept _ hV _ := h.sub hV
  mem := h.sub hW
  prolongs := .refl W
  ledger := h.ledger
  more := h.more
  fresh V hV := (h.fresh V hV).imp_right .inr

theorem Amends.trans {xs ys : List String} (h₁ : s.Amends K s₀ W s₁ K₁ W₁ xs)
    (h₂ : s₁.Amends K₁ s₀ W₁ s' K' W' ys) : s.Amends K s₀ W s' K' W' (xs ++ ys) where
  kept V hV hne := h₂.kept V (h₁.kept V hV hne) (h₁.prolongs.callee ▸ hne)
  mem := h₂.mem
  prolongs := h₁.prolongs.trans h₂.prolongs
  ledger := h₂.ledger
  more := h₁.more.trans h₂.more
  fresh V hV := by
    rcases h₂.fresh V hV with hold | hcallee | hnew
    · exact h₁.fresh V hold
    · exact .inr (.inl (hcallee.trans h₁.prolongs.callee))
    · exact .inr (.inr (h₁.more.paths.trans hnew))

/-- The declarations below a path without a node are none. -/
theorem hoistVariables_eq_ok {replace : PathId → NodeId → SessionM Unit} {scope : ScopeId} {u : Unit}
    (hempty : ∀ n, ¬ s.Holds p n)
    (hrun : PathId.hoistVariables replace p scope s = .ok u s') : s' = s := by
  obtain ⟨r, s₁, hwalk, hrun⟩ := bind_eq_ok hrun
  cases hrun
  unfold WalkM.runOn at hwalk
  split at hwalk
  · next w' hends =>
    obtain ⟨o, ho, hends⟩ := Ledger.walk_question_bind_eq_ok (.node? p) hends
    cases o with
    | none =>
      cases hends
      cases hwalk
      rfl
    | some n => exact absurd (PathId.holds_of_node? ho).2 (hempty n)
  · cases hwalk

/-- Nothing is the value of a path without a node. -/
theorem completionRecords_eq_ok {l : List PathId} (hempty : ∀ n, ¬ s.Holds p n)
    (hrun : p.completionRecords s = .ok l s') : s' = s ∧ l = [] := by
  unfold PathId.completionRecords at hrun
  rw [run_get_bind, PathId.completionsWithin] at hrun
  obtain ⟨o, ho, hrun⟩ := question_bind_eq_ok (.type? p) hrun
  cases o with
  | none =>
    cases hrun
    exact ⟨rfl, rfl⟩
  | some type =>
    obtain ⟨k, s₁, hkind, hpure⟩ := bind_eq_ok ho
    rcases PathId.kind?_eq_ok hkind with ⟨rfl, -⟩ | ⟨n, -, -, hp, -⟩
    · cases hpure
    · exact absurd hp (hempty n)

namespace Ledger

/-- The calls stand when the results of one of them are left out; what is noted is counted from now
on. -/
theorem bare (h : s.Ledger K s₀) (hW : W ∈ K) :
    s.Ledger (insert W.bare (K \ {W})) { s with tree := s₀.tree } where
  tidy := h.tidy
  closed := h.closed
  grown := h.grown
  wraps V hV := by
    rcases hV with rfl | ⟨hV, -⟩
    · exact ⟨(h.wraps W hW).tree.bare, (h.wraps W hW).sits, (h.wraps W hW).idle⟩
    · exact h.wraps V hV
  made V hV n hn := by
    rcases hV with rfl | ⟨hV, -⟩
    · exact h.made W hW n (Wrapping.bare_nodes_subset hn)
    · exact h.made V hV n hn
  apart V hV U hU heq := by
    rcases hV with rfl | ⟨hV, hne⟩
    · rcases hU with rfl | ⟨hU, hne⟩
      · rfl
      · exact absurd (h.apart W hW U hU heq).symm hne
    · rcases hU with rfl | ⟨hU, -⟩
      · exact absurd (h.apart V hV W hW heq) hne
      · exact h.apart V hV U hU heq
  noted _ _ hx := .inl hx

/-- A new `return` comes to the end of the body of a function. -/
theorem pushResult (h : s.Ledger K s₀) (hW : W ∈ K) (hbody : ∀ m, s.Holds p m → m = W.body)
    (hr : s.tree.Presents r) (hstatement : s.Spare K r.statement)
    (hmade : s₀.tree.size ≤ r.statement.index ∧ s₀.tree.size ≤ r.argument.index)
    {ps : List PathId} (hrun : p.pushInto .body [r.statement] s = .ok ps s') :
    s.Extends s' ∧ s'.Ledger (insert (W.extend r) (K \ {W})) s₀ := by
  obtain ⟨removed, -, hrun⟩ := question_bind_eq_ok (.isRemoved p) hrun
  cases removed with
  | true => cases hrun
  | false =>
    obtain ⟨o, ho, hrun⟩ := question_bind_eq_ok (.node? p) hrun
    cases o with
    | none => cases hrun
    | some owner =>
      obtain rfl := hbody owner (PathId.holds_of_node? ho).2
      obtain ⟨length, hlength, hrun⟩ := question_bind_eq_ok (.listLength W.body .body) hrun
      obtain ⟨front, hfront⟩ := (h.wraps W hW).tree.statements
      cases (PathId.listLength_run (Tree.list?_eq_some_iff.mp hfront)).symm.trans hlength
      have hspare : s.Spare (insert W.bare (K \ {W})) r.statement := by
        refine ⟨hstatement.1, fun V hV hn => ?_⟩
        rcases hV with rfl | ⟨hV, -⟩
        · exact hstatement.2 W hW (Wrapping.bare_nodes_subset hn)
        · exact hstatement.2 V hV hn
      have hroom : ∀ owner ids, s.Holds p owner → s.tree.list? owner .body = some ids →
          ∀ V ∈ insert W.bare (K \ {W}), owner = V.body → Field.body = .body →
          (front ++ W.returns).length + V.results.length ≤ ids.length := by
        intro owner ids howner hids V hV hVbody _
        obtain rfl := hbody owner howner
        rw [hfront] at hids
        obtain rfl := Option.some.inj hids
        rcases hV with rfl | ⟨hV, hne⟩
        · simp [Wrapping.bare]
        · exact absurd (h.apart V hV W hW hVbody.symm) hne
      obtain ⟨h₁, -, owner, k, ids, howner, hk, hc, -, htree, -⟩ :=
        (h.bare hW).insertAt (List.forall_mem_singleton.mpr hspare) hroom hrun
      obtain rfl := hbody owner howner
      have hlist := relisted_withList hk hc (ids ++ [r.statement])
      obtain rfl := Option.some.inj (hfront.symm.trans hlist.list?)
      have hrelisted : s.tree.Relisted W.body .body (front ++ W.returns)
          (front ++ W.returns ++ [r.statement]) s'.tree := by
        have htree' : s'.tree = (s.withList W.body .body (front ++ W.returns ++ [r.statement])).tree := by
          rw [htree, spliced, List.take_length, List.drop_length, List.append_nil]
          rfl
        rw [htree']
        exact hlist
      have hextended : s'.Wraps (W.extend r) :=
        ⟨(h.wraps W hW).tree.extend hr hrelisted, (h₁.ledger.wraps W.bare (.inl rfl)).sits,
          (h₁.ledger.wraps W.bare (.inl rfl)).idle⟩
      refine ⟨h₁.more, ⟨h₁.ledger.tidy, h₁.ledger.closed, h₁.ledger.grown, fun V hV => ?_,
        fun V hV n hn => ?_, fun V hV U hU heq => ?_, fun q x hx => ?_⟩⟩
      · rcases hV with rfl | hV
        · exact hextended
        · exact h₁.ledger.wraps V (.inr hV)
      · rcases hV with rfl | hV
        · rcases Wrapping.mem_nodes_extend.mp hn with hn | rfl | rfl
          · exact h.made W hW n hn
          · exact hmade.1
          · exact hmade.2
        · exact h.made V hV.1 n hn
      · rcases hV with rfl | ⟨hV, hne⟩
        · rcases hU with rfl | ⟨hU, hne⟩
          · rfl
          · exact absurd (h.apart W hW U hU heq).symm hne
        · rcases hU with rfl | ⟨hU, -⟩
          · exact absurd (h.apart V hV W hW heq) hne
          · exact h.apart V hV U hU heq
      · rcases h₁.ledger.noted q x hx with hx | ⟨V, hV, e, he, hname⟩
        · rcases h.noted q x hx with hx | ⟨V, hV, e, he, hname⟩
          · exact .inl hx
          by_cases hVW : V = W
          · subst hVW
            exact .inr ⟨V.extend r, .inl rfl, e, List.mem_append_left _ he, hname⟩
          · exact .inr ⟨V, .inr ⟨hV, hVW⟩, e, he, hname⟩
        · rcases hV with rfl | hV
          · cases he
          · exact .inr ⟨V, .inr hV, e, he, hname⟩

/-- A path notes the name of a result. -/
theorem note (h : s.Ledger K s₀) (hW : W ∈ K) (hr : r ∈ W.results) {u : Unit}
    (hrun : loop.setNote PathId.resultNote (.str r.name) s = .ok u s') : s.Heeds K s₀ s' := by
  obtain ⟨d, s₁, hdata, -⟩ := bind_eq_ok hrun
  have hd := (PathId.data_eq_ok hdata).2
  obtain ⟨htidy, hclosed, hmore, -⟩ := h.kept (.of_quiet (.setNote loop _ _))
    (.setNote (knows_of_data hd) _ _) hrun
  cases (loop.modifyData_run hd _).symm.trans hrun
  refine ⟨⟨htidy, hclosed, h.grown, fun V hV => ?_, h.made, h.apart, fun q x hx => ?_⟩, hmore⟩
  · refine (h.wraps V hV).step ((h.wraps V hV).tree.alike (.refl _)) (fun e he => ?_) id
    rw [getElem?_modify_paths]
    split
    · exact ⟨_, congrArg (Option.map _) he, rfl, rfl, rfl⟩
    · exact ⟨e, he, rfl, rfl, rfl⟩
  · obtain ⟨e, he, hnote⟩ := hx
    have he : (s.paths.modify loop.index _)[q.index]? = some e := he
    rw [getElem?_modify_paths] at he
    split at he
    · obtain ⟨e', he', rfl⟩ := Option.map_eq_some_iff.mp he
      rw [Table.get?_insert, if_pos rfl] at hnote
      cases hnote
      exact .inr ⟨W, hW, r, hr, rfl⟩
    · exact h.noted q x ⟨e, he, hnote⟩

/-- The result variable of a loop: the one that it notes, or a new one that is returned at the end of
the body. -/
theorem resultVariable (h : s.Ledger K s₀) (hW : W ∈ K) {uid : String}
    (hrun : PathId.resultVariable W.callee loop s = .ok uid s') : ∃ o K' W',
      value? (PathId.newResult? W.callee loop) s = some o ∧ s.Amends K s₀ W s' K' W' o.toList ∧
      ∀ V ∈ K', ∀ n ∈ V.nodes, n.index < s.tree.size → ∃ U ∈ K, n ∈ U.nodes := by
  obtain ⟨o, hnote, hrun⟩ := question_bind_eq_ok (.note? loop _) hrun
  split at hrun
  · cases hrun
    exact ⟨none, K, W, by rw [value?, PathId.newResult?, bind_of_ok hnote]; rfl,
      (Tends.refl h).accrues.amends hW, fun V hV n hn _ => ⟨V, hV, hn⟩⟩
  · next hnew =>
    have hcallee := (h.wraps W hW).holds
    obtain ⟨scope, s₁, hscope, hrun⟩ := bind_eq_ok hrun
    obtain ⟨h₁, hscopeKnown⟩ := h.charting (.scope W.callee) (.scope hcallee.knows) hscope
    obtain ⟨uid', s₂, hname, hrun⟩ := bind_eq_ok hrun
    have hmade : PathId.newResult? W.callee loop s = .ok (some uid') s₂ := by
      rw [PathId.newResult?, bind_of_ok hnote]
      split
      · exact (hnew _ rfl).elim
      · rw [map_eq_pure_bind, bind_of_ok ((bind_of_ok hscope).trans hname)]
        rfl
    have h₂ := h₁.trans (h₁.ledger.generateDeclaredUid hscopeKnown hname)
    obtain ⟨body, s₃, hchild, hrun⟩ := bind_eq_ok hrun
    obtain ⟨h₃, -⟩ := h₂.ledger.charting (Navigating.child W.callee .body).charting
      (.child (h₂.more.knows hcallee.knows) .body) hchild
    obtain ⟨returned, s₄, hreturned, hrun⟩ := bind_eq_ok hrun
    obtain ⟨h₄, rfl, rfl, hspare₄⟩ := h₃.ledger.make (k := .identifier uid' none)
      (fun c hc => by cases hc) hreturned
    obtain ⟨ret, s₅, hret, hrun⟩ := bind_eq_ok hrun
    obtain ⟨h₅, rfl, rfl, hspare₅⟩ := h₄.ledger.make
      (k := .returnStatement (some ⟨s₃.tree.size⟩)) (List.forall_mem_singleton.mpr hspare₄) hret
    obtain ⟨ps, s₆, hpush, hrun⟩ := bind_eq_ok hrun
    rw [size_allocated] at hspare₅ hpush
    have hbody : ∀ m, s₃.Holds body m → m = W.body := by
      intro m hm
      obtain ⟨owner, howner, hocc, -⟩ := PathId.child_sits h₂.ledger.tidy hchild hm
      obtain rfl := howner.unique_node (h₂.ledger.wraps W hW).holds
      exact Option.some.inj (hocc.symm.trans (h₃.ledger.wraps W hW).tree.block)
    have hgrown := h₃.ledger.grown
    let r : Wrapping.Result := ⟨uid', ⟨s₃.tree.size + 1⟩, ⟨s₃.tree.size⟩⟩
    obtain ⟨hmore₆, h₆⟩ := h₅.ledger.pushResult (r := r) hW hbody
      (h₃.ledger.closed.tree.presents uid') hspare₅ ⟨by simp only [r]; omega, hgrown⟩ hpush
    obtain ⟨u, s₇, hnote, hrun⟩ := bind_eq_ok hrun
    cases hrun
    have h₇ := h₆.note (r := r) (.inl rfl) (List.mem_append_right _ (List.mem_singleton_self r)) hnote
    have hmore := h₂.more.trans (h₃.more.trans (h₄.more.trans (h₅.more.trans (hmore₆.trans h₇.more))))
    refine ⟨some uid, _, W.extend r, by rw [value?, hmade],
      ⟨fun V hV hne => .inr ⟨hV, fun heq => hne (congrArg Wrapping.callee heq)⟩, .inl rfl,
        W.prolongs_extend r, h₇.ledger, hmore, fun V hV => ?_⟩, fun V hV n hn hlt => ?_⟩
    · rcases hV with rfl | hV
      · exact .inr (.inl rfl)
      · exact .inl hV.1
    · rcases hV with rfl | hV
      · rcases Wrapping.mem_nodes_extend.mp hn with hn | rfl | rfl
        · exact ⟨W, hW, hn⟩
        · have := (h₂.trans h₃).more.nodes
          simp only [r] at hlt
          omega
        · have := (h₂.trans h₃).more.nodes
          simp only [r] at hlt
          omega
      · exact ⟨V, hV.1, hn⟩

/-- The paths live where they did before the call was made, or below a node that some path held then. -/
theorem lives_below (h : s.Ledger K s₀) {t : Tree} (hlives : Resettles { s with tree := t } s')
    {q : PathId} {d : PathData} (hd : s'.paths[q.index]? = some d) {m : NodeId}
    (hm : d.container.parent? = some m) : m.index < s.tree.size := by
  rcases hlives q d hd with ⟨e, he, hc⟩ | hheld
  · have hknown : s.Knows e.container := (h.closed.paths.data q e he).2.2
    rw [← hc] at hknown
    exact hknown m hm
  · obtain ⟨r, hr⟩ := hheld m hm
    exact h.closed.knows_held (s := s) hr

/-- The path of the function in a call that was put there is a new one. -/
theorem findCallee (h : s.Ledger K s₀) (h₁ : s.Heeds K s₀ s₁) (h₂ : s₁.Tends K s₀ s') {t : Tree}
    (hlives : Resettles { s with tree := t } s₁)
    (hwraps : ∀ callee, s₁.tree.Wraps
      ⟨⟨s.tree.size + 2⟩, ⟨s.tree.size + 1⟩, ⟨s.tree.size⟩, callee, []⟩)
    (hholds : ∀ m, s₁.Holds p m →
      m = ⟨s.tree.size + 2⟩ ∨ s₁.tree.type? m = some .expressionStatement)
    (hchild : p.child .callee s₁ = .ok q s') (hq : ∃ n, s'.Holds q n) :
    s₁.paths.size ≤ q.index ∧ s'.Ledger
      (insert ⟨⟨s.tree.size + 2⟩, ⟨s.tree.size + 1⟩, ⟨s.tree.size⟩, q, []⟩ K) s₀ := by
  obtain ⟨n, hq⟩ := hq
  rcases PathId.child_eq_ok h₁.ledger.tidy hchild with ⟨d, hd, hnone, -⟩ | ⟨m, k, c, hm, hk, hc, hlands⟩
  · exact absurd hq (not_holds_of_empty hd hnone n)
  · obtain rfl : m = ⟨s.tree.size + 2⟩ := by
      refine (hholds m hm).resolve_right fun htype => ?_
      rw [Tree.type?_of_kind hk] at htype
      cases k <;> simp_all [NodeKind.type, NodeKind.child?, NodeKind.fields]
    have htree : s'.tree = s₁.tree := by rw [hlands.rest]
    obtain ⟨hocc, hsits⟩ := hlands.sits (.slot _ .callee) hq
    have hW := hwraps q
    obtain rfl : n = ⟨s.tree.size + 1⟩ := Option.some.inj ((htree ▸ hocc).symm.trans hW.callee)
    have hnew : s₁.paths.size ≤ q.index := by
      rcases hlands.known with hbucket | hnone
      · obtain ⟨d, hd, hcontainer, -⟩ := h₁.ledger.tidy.filed _ _ hbucket
        exact absurd (h.lives_below hlives hd (m := ⟨s.tree.size + 2⟩) (by rw [hcontainer]; rfl)) (by simp)
      · exact Array.getElem?_eq_none_iff.mp hnone
    have hidle : ¬ s'.Queued q := by
      rintro ⟨f, hf, hqf⟩
      rw [hlands.rest] at hf
      exact absurd (h₁.ledger.closed.frames f hf q hqf) (Nat.not_lt.mpr hnew)
    have hgrown := h.grown
    refine ⟨hnew, h₂.ledger.tidy, h₂.ledger.closed, h₂.ledger.grown, ?_, ?_, ?_, fun r x hx => ?_⟩
    · rintro V (rfl | hV)
      · exact ⟨htree ▸ hW, hsits, hidle⟩
      · exact h₂.ledger.wraps V hV
    · rintro V (rfl | hV) n hn
      · rcases hn with rfl | rfl | ⟨r, hr, -⟩
        · exact hgrown.trans (Nat.le_succ _)
        · exact hgrown
        · cases hr
      · exact h.made V hV n hn
    · have hbody : ∀ V ∈ K, V.body ≠ ⟨s.tree.size⟩ := fun V hV heq =>
        absurd ((h.wraps V hV).tree.index_lt V.body_mem) (by simp [heq])
      rintro V (rfl | hV) U (rfl | hU) heq
      · rfl
      · exact absurd heq.symm (hbody U hU)
      · exact absurd heq (hbody V hV)
      · exact h.apart V hV U hU heq
    · exact (h₂.ledger.noted r x hx).imp_right fun ⟨V, hV, hr⟩ => ⟨V, .inr hV, hr⟩

section Nested

variable {replace : PathId → NodeId → SessionM Unit} (hreplace : Considerate replace)

include hreplace

/-- The value of a statement is returned. -/
theorem returnRecord (h : s.Ledger K s₀) (hW : W ∈ K) {u : Unit}
    (hrun : PathId.returnRecord replace W.callee p s = .ok u s') :
    ∃ K' W', s.Amends K s₀ W s' K' W' (value? (W.callee.madeResult? p) s).join.toList := by
  obtain ⟨o, hkind, hrun⟩ := question_bind_eq_ok (.kind? p) hrun
  split at hrun
  · next expression =>
    rcases PathId.kind?_eq_ok hkind with ⟨hnone, -⟩ | ⟨n, k, hsome, hp, hk⟩
    · cases hnone
    · obtain rfl := Option.some.inj hsome
      have hspare : s.Spare K expression := h.spare_child hk rfl nofun (List.mem_singleton_self expression)
      obtain ⟨wrapper, hwrapper, hrun⟩ := question_bind_eq_ok (.node? W.callee) hrun
      obtain ⟨o, hloop, hrun⟩ := question_bind_eq_ok (.loopBelow? p wrapper) hrun
      rw [value?, PathId.madeResult?, bind_of_ok hkind]
      dsimp only
      rw [bind_of_ok hwrapper, bind_of_ok hloop]
      cases o with
      | none =>
        obtain ⟨ret, s₁, hret, hrun⟩ := bind_eq_ok hrun
        obtain ⟨h₁, rfl, rfl, hnew⟩ := h.make (k := .returnStatement (some expression))
          (List.forall_mem_singleton.mpr hspare) hret
        have hbypasses : (s.allocated (.returnStatement (some expression))).Bypasses K p :=
          Holds.bypasses (s := s.allocated _) hp (h.not_mem (Tree.type?_of_kind hk) rfl)
        obtain ⟨K', h₂⟩ := hreplace.accrues h₁.ledger hbypasses hp.knows hnew hrun
        exact ⟨K', W, (h₁.accrues.trans h₂).amends hW⟩
      | some loop =>
        obtain ⟨uid, s₁, hvariable, hrun⟩ := bind_eq_ok hrun
        obtain ⟨o, K₁, W₁, hmade, h₁, hold⟩ := h.resultVariable hW hvariable
        obtain ⟨target, s₂, htarget, hrun⟩ := bind_eq_ok hrun
        obtain ⟨h₂, -, -, htargetSpare⟩ := h₁.ledger.make (k := .identifier uid none) nofun htarget
        obtain ⟨assignment, s₃, hassign, hrun⟩ := bind_eq_ok hrun
        have hexpression : s₂.Spare K₁ expression := by
          refine ⟨h₂.more.knows (h₁.more.knows hspare.1), fun V hV hn => ?_⟩
          obtain ⟨U, hU, hn⟩ := hold V hV _ hn hspare.1
          exact hspare.2 U hU hn
        obtain ⟨h₃, -, -, hnew⟩ := h₂.ledger.make (k := .assignmentExpression .assign target expression)
          (by simpa [NodeKind.children, NodeKind.fields, Child.ids] using ⟨htargetSpare, hexpression⟩)
          hassign
        have hmore₃ := h₁.more.trans (h₂.more.trans h₃.more)
        obtain ⟨q, s₄, hchild, hrun⟩ := bind_eq_ok hrun
        obtain ⟨h₄, hq⟩ := h₃.ledger.charting (Navigating.child p .expression).charting
          (.child (hmore₃.knows hp.knows) .expression) hchild
        have hbypasses : s₄.Bypasses K₁ q := by
          rcases PathId.child_eq_ok h₃.ledger.tidy hchild with
            ⟨d, hd, -, hdetached⟩ | ⟨m, k, c, -, hk, hc, hlands⟩
          · exact absurd hrun (hreplace.refused h₄.ledger.tidy h₄.ledger.closed hd hdetached)
          · obtain ⟨⟨x, rfl⟩, hwrapping, hcall⟩ := NodeKind.child?_expression hc
            have hocc : s₃.tree.occupant? (.slot m .expression) = some x := by
              rw [Tree.occupant?, Tree.field?, hk, Option.bind_some, hc]
              rfl
            obtain ⟨d, hd, hplace, -⟩ := hlands.data
            have hx : s₄.Holds q x := ⟨d, hd, (congrArg Prod.fst hplace).trans hocc⟩
            exact hx.bypasses
              (h₃.ledger.not_mem_below hocc rfl (Tree.type?_of_kind hk) hwrapping hcall)
        obtain ⟨K', h₅⟩ := hreplace.accrues h₄.ledger hbypasses hq (hnew.mono h₄.more) hrun
        have h₅ := (((h₂.trans (h₃.trans h₄)).accrues).trans h₅).amends h₁.mem
        have hmade : (value? (PathId.newResult? W.callee loop) s).join = o := by rw [hmade, Option.join_some]
        refine ⟨K', W₁, ?_⟩
        dsimp only [value?] at hmade
        rw [hmade, ← List.append_nil o.toList]
        exact h₁.trans h₅
  · next hnone =>
    cases hrun
    refine ⟨K, W, ?_⟩
    have hmade : W.callee.madeResult? p s = .ok none s := by
      rw [PathId.madeResult?, bind_of_ok hkind]
      split
      · exact (hnone _ rfl).elim
      · rfl
    rw [value?, hmade]
    exact (Tends.refl h).accrues.amends hW

theorem returnRecords (h : s.Ledger K s₀) (hW : W ∈ K) (records : List PathId)
    {u : PUnit} (hrun : records.forM (PathId.returnRecord replace W.callee) s = .ok u s') :
    ∃ K' W', s.Amends K s₀ W s' K' W' (PathId.madeResults replace W.callee records s) := by
  induction records generalizing s K W with
  | nil =>
    cases hrun
    exact ⟨K, W, (Tends.refl h).accrues.amends hW⟩
  | cons p records ih =>
    obtain ⟨u₁, s₁, hrecord, hrun⟩ := bind_eq_ok (f := fun _ => records.forM _) hrun
    obtain ⟨K₁, W₁, h₁⟩ := h.returnRecord hreplace hW hrecord
    rw [PathId.madeResults, after_of_ok hrecord]
    rw [← h₁.prolongs.callee] at hrun
    obtain ⟨K', W', h₂⟩ := ih h₁.ledger h₁.mem hrun
    rw [h₁.prolongs.callee] at h₂
    exact ⟨K', W', h₁.trans h₂⟩

/-- The call of a new function comes to the place of a path. -/
theorem placeCall (h : s.Ledger K s₀) (hp : K.Nonempty → s.Skirts K p) {statements : List NodeId}
    (hwrapped : s.Heeds K s₀ { s with tree := s.tree.wrapped statements })
    (hcall : Spare { s with tree := s.tree.wrapped statements } K ⟨s.tree.size + 2⟩) {u : Unit}
    (hrun : replace p ⟨s.tree.size + 2⟩ { s with tree := s.tree.wrapped statements } = .ok u s') :
    s.Heeds K s₀ s' ∧ Resettles { s with tree := s.tree.wrapped statements } s' ∧
      (∀ callee, s'.tree.Wraps ⟨⟨s.tree.size + 2⟩, ⟨s.tree.size + 1⟩, ⟨s.tree.size⟩, callee, []⟩) ∧
      ∀ m, s'.Holds p m → m = ⟨s.tree.size + 2⟩ ∨ s'.tree.type? m = some .expressionStatement := by
  have hcallKind : (s.tree.wrapped statements).kind? ⟨s.tree.size + 2⟩ =
      some (.callExpression ⟨s.tree.size + 1⟩ []) := by
    simp [Tree.wrapped, Tree.kind?, Tree.node?_push]
  have hbypasses : Bypasses { s with tree := s.tree.wrapped statements } K p := fun W hW =>
    have hskirts := hp ⟨W, hW⟩
    hskirts.bypasses W hW
  obtain ⟨h₁, hreplaces, hlives⟩ := hreplace.plain hwrapped.ledger hbypasses hcall
    (Tree.type?_of_kind hcallKind) rfl rfl hrun
  refine ⟨hwrapped.trans h₁, hlives, ?_⟩
  obtain ⟨s₁, d, hresync, htree, hd, ⟨hnode, rfl⟩ | ⟨-, new, t, hoffers, hsucceeded⟩⟩ := hreplaces
  · refine ⟨fun callee => htree ▸ h.closed.tree.wraps_wrapped statements callee, fun m hm => .inl ?_⟩
    obtain ⟨e, he, hm⟩ := hm
    obtain rfl := Option.some.inj (hd.symm.trans he)
    exact Option.some.inj (hm.symm.trans hnode)
  · have hwraps := fun callee => h.closed.tree.wraps_wrapped statements callee
    have hnew : (∀ callee, t.Wraps ⟨⟨s.tree.size + 2⟩, ⟨s.tree.size + 1⟩, ⟨s.tree.size⟩, callee, []⟩) ∧
        ∃ type, t.type? new = some type ∧ type.isWrapping = false ∧
          (new = ⟨s.tree.size + 2⟩ ∨ type = .expressionStatement) := by
      rcases hoffers with ⟨-, rfl, rfl⟩ | ⟨-, rfl, rfl⟩
      · rw [htree]
        refine ⟨fun callee => ((hwraps callee).push fun c hc => ?_).wraps, _,
          Tree.type?_of_kind (k := .expressionStatement ⟨s.tree.size + 2⟩) (by
            simp [Tree.kind?, Tree.node?_push]), rfl, .inr rfl⟩
        obtain rfl := List.mem_singleton.mp hc
        exact (hwraps callee).not_mem (hwraps callee).call rfl
      · rw [htree]
        exact ⟨hwraps, _, Tree.type?_of_kind hcallKind, rfl, .inl rfl⟩
    obtain ⟨hwraps, type, htype, hplain, hor⟩ := hnew
    obtain ⟨pos, hpos, hsucceeds⟩ := hsucceeded.tree
    have hparent : ∀ m, pos.parent? = some m → m.index < s.tree.size := fun m hm =>
      h.lives_below (hwrapped.ledger.resync_resettles hresync).2 hd (m := m) (by
        rw [← Container.position?_container hpos, ← hm]
        cases pos <;> rfl)
    have hhold : ∀ m, s'.Holds p m → m = new := by
      obtain ⟨e, -, he, -, hn, -⟩ := hsucceeded.sits
      exact fun m hm => hm.unique_node ⟨e, he, hn⟩
    refine ⟨fun callee => ((hwraps callee).replanted hsucceeds.replanted (fun n hn hocc => ?_)
      ((hwraps callee).not_mem htype hplain)).wraps, fun m hm => ?_⟩
    · obtain ⟨m, hm, hmem⟩ := (hwraps callee).sealed pos n hn hocc
      have hlt := hparent m hm
      rcases hmem with rfl | rfl | rfl | ⟨r, hr, -⟩
      · exact absurd hlt (by simp)
      · exact absurd hlt (by simp)
      · exact absurd hlt (by simp)
      · cases hr
    · obtain rfl := hhold m hm
      refine hor.imp_right fun hstatement => ?_
      rw [← Tree.map_type_kind?, hsucceeds.replanted.type, Tree.map_type_kind?, htype, hstatement]

/-- Statements become the body of a function that is called in the place of an expression, and their
declarations are moved out. -/
theorem openWrapper (h : s.Ledger K s₀) (hp : K.Nonempty → s.Skirts K p) (hknown : s.Knows p)
    {scope : ScopeId} (hscope : s.Knows scope) {statements : List NodeId}
    (hstatements : ∀ n ∈ statements, s.Spare K n) {records : List PathId}
    (hrun : p.openWrapper replace scope statements s = .ok (callee, records) s') :
    ∃ K', s.Accrues K s₀ s' K' ∧
      (⟨⟨s.tree.size + 2⟩, ⟨s.tree.size + 1⟩, ⟨s.tree.size⟩, callee, []⟩ ∈ K' ∧
        s.paths.size ≤ callee.index ∨
      s'.tree.Wraps ⟨⟨s.tree.size + 2⟩, ⟨s.tree.size + 1⟩, ⟨s.tree.size⟩, callee, []⟩ ∧
        records = []) := by
  obtain ⟨body, s₁, hmake, hrun⟩ := bind_eq_ok hrun
  obtain ⟨h₁, rfl, rfl, hbody⟩ := h.make (k := .blockStatement statements)
    (by simpa [NodeKind.children, NodeKind.fields, Child.ids] using hstatements) hmake
  obtain ⟨function, s₂, hmake, hrun⟩ := bind_eq_ok hrun
  obtain ⟨h₂, rfl, rfl, hfunction⟩ := h₁.ledger.make
    (k := .functionExpression none [] ⟨s.tree.size⟩ false false none)
    (by simpa [NodeKind.children, NodeKind.fields, Child.ids] using hbody) hmake
  obtain ⟨call, s₃, hmake, hrun⟩ := bind_eq_ok hrun
  rw [size_allocated] at hfunction hmake
  obtain ⟨h₃, rfl, rfl, hcall⟩ := h₂.ledger.make (k := .callExpression ⟨s.tree.size + 1⟩ [])
    (by simpa [NodeKind.children, NodeKind.fields, Child.ids] using hfunction) hmake
  rw [size_allocated, size_allocated] at hcall hrun
  obtain ⟨u₄, s₄, hreplaced, hrun⟩ := bind_eq_ok hrun
  obtain ⟨h₄, hlives, hwraps, hholds⟩ := placeCall hreplace h hp (h₁.trans (h₂.trans h₃)).toHeeds hcall
    hreplaced
  obtain ⟨function, s₅, hchild, hrun⟩ := bind_eq_ok hrun
  obtain ⟨h₅, hq⟩ := h₄.ledger.charting (Navigating.child p .callee).charting
    (.child (h₄.more.knows hknown) .callee) hchild
  have h₄₅ := h₄.trans h₅.toHeeds
  obtain ⟨u₆, s₆, hhoist, hrun⟩ := bind_eq_ok hrun
  obtain ⟨found, s₇, hrecords, hrun⟩ := bind_eq_ok hrun
  cases hrun
  by_cases hempty : ∀ n, ¬ s₅.Holds callee n
  · obtain rfl := hoistVariables_eq_ok hempty hhoist
    obtain ⟨rfl, rfl⟩ := completionRecords_eq_ok hempty hrecords
    have htree := (Seating.of_charting (Navigating.child p .callee).charting h₄.ledger.tidy hchild).1
    exact ⟨K, h₄₅.accrues, .inr ⟨htree ▸ hwraps callee, rfl⟩⟩
  · obtain ⟨hnew, hW⟩ : s₄.paths.size ≤ callee.index ∧ s₅.Ledger
        (insert ⟨⟨s.tree.size + 2⟩, ⟨s.tree.size + 1⟩, ⟨s.tree.size⟩, callee, []⟩ K) s₀ :=
      h.findCallee h₄ h₅ hlives hwraps hholds hchild (not_forall_not.mp hempty)
    obtain ⟨K₆, h₆⟩ := hW.hoistVariables hreplace (h₄₅.more.knows hscope) hq hhoist
    obtain ⟨h₇, -⟩ := h₆.ledger.charting (Navigating.completionRecords callee).charting
      (.completionRecords (h₆.more.knows hq)) hrecords
    have hfresh : s.paths.size ≤ callee.index := h₄.more.paths.trans hnew
    refine ⟨K₆, ⟨fun V hV => h₆.sub (.inr hV), h₇.ledger, h₄₅.more.trans (h₆.more.trans h₇.more),
      fun V hV => ?_⟩, .inl ⟨h₆.sub (.inl rfl), hfresh⟩⟩
    rcases h₆.fresh V hV with (rfl | hV) | hlt
    · exact .inr hfresh
    · exact .inl hV
    · exact .inr (h₄₅.more.paths.trans hlt)

/-- Statements become the body of a function that is called in the place of an expression: it returns
the variables that are made for the values of its loops, and no others. -/
theorem wrapInFunction (h : s.Ledger K s₀) (hp : K.Nonempty → s.Skirts K p) (hknown : s.Knows p)
    {scope : ScopeId} (hscope : s.Knows scope) {statements : List NodeId}
    (hstatements : ∀ n ∈ statements, s.Spare K n) {u : Unit}
    (hrun : p.wrapInFunction replace scope statements s = .ok u s') :
    ∃ K' W' callee records s₁, s.Accrues K s₀ s' K' ∧
      p.openWrapper replace scope statements s = .ok (callee, records) s₁ ∧
      Wrapping.Prolongs ⟨⟨s.tree.size + 2⟩, ⟨s.tree.size + 1⟩, ⟨s.tree.size⟩, callee, []⟩ W'
        (PathId.madeResults replace callee records s₁) ∧ s'.tree.Wraps W' := by
  rw [PathId.wrapInFunction_eq] at hrun
  obtain ⟨⟨callee, records⟩, s₁, hopen, hrun⟩ := bind_eq_ok hrun
  obtain ⟨K₁, h₁, ⟨hW, hfresh⟩ | ⟨hwraps, rfl⟩⟩ :=
    h.openWrapper hreplace hp hknown hscope hstatements hopen
  · obtain ⟨K', W', h₂⟩ := h₁.ledger.returnRecords hreplace hW records hrun
    refine ⟨K', W', callee, records, s₁, ⟨fun V hV => h₂.kept V (h₁.sub hV) ?_, h₂.ledger,
      h₁.more.trans h₂.more, fun V hV => ?_⟩, hopen, h₂.prolongs, (h₂.ledger.wraps W' h₂.mem).tree⟩
    · rintro rfl
      exact Nat.not_lt.mpr hfresh (h.wraps V hV).lt_size
    · rcases h₂.fresh V hV with hV | rfl | hlt
      · exact h₁.fresh V hV
      · exact .inr hfresh
      · exact .inr (h₁.more.paths.trans hlt)
  · cases hrun
    exact ⟨K₁, _, callee, [], s', h₁, hopen, .refl _, hwraps⟩

end Nested

end Ledger

end Session

end Espalier
