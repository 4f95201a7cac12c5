import Espalier.Edit.Reduce
import Espalier.Proofs.Binders
import Espalier.Proofs.Commands

set_option autoImplicit false

/-! # Statements and their expression form

The expression form of some statements exists unless one of them is `Tree.Obstructed`; its
evaluation is the run of their commands (`reduceStatements_preserves`). -/

namespace Espalier

/-! ## Trees that grow -/

/-- The second tree has all nodes of the first one as they are, and maybe more. -/
structure Tree.Grown (t t' : Tree) : Prop where
  root : t'.root = t.root
  source : t'.source = t.source
  size : t.size ≤ t'.size
  node : ∀ n, t.contains n = true → t'.node? n = t.node? n

namespace Tree.Grown

variable {t t' t'' : Tree}

theorem refl (t : Tree) : t.Grown t := ⟨rfl, rfl, Nat.le_refl _, fun _ _ => rfl⟩

theorem contains (h : t.Grown t') {n : NodeId} (hn : t.contains n = true) :
    t'.contains n = true := by
  have hsize := h.size
  simp only [Tree.contains, decide_eq_true_eq] at hn ⊢
  omega

theorem trans (h : t.Grown t') (h' : t'.Grown t'') : t.Grown t'' where
  root := h'.root.trans h.root
  source := h'.source.trans h.source
  size := Nat.le_trans h.size h'.size
  node n hn := (h'.node n (h.contains hn)).trans (h.node n hn)

theorem push (t : Tree) (n : Node) : t.Grown (t.push n) where
  root := rfl
  source := rfl
  size := by simp
  node m hm := by
    rw [Tree.node?_push, if_neg]
    simp only [Tree.contains, decide_eq_true_eq] at hm
    omega

theorem kind (h : t.Grown t') {n : NodeId} {k : NodeKind} (hk : t.kind? n = some k) :
    t'.kind? n = some k := by
  have hn : t.contains n = true := (t.contains_iff n).mpr ⟨k, hk⟩
  rw [kind?, h.node n hn]
  exact hk

theorem type (h : t.Grown t') {n : NodeId} {type : NodeType} (hn : t.type? n = some type) :
    t'.type? n = some type := by
  obtain ⟨node, hnode, htype⟩ := Option.map_eq_some_iff.mp hn
  obtain ⟨k, hk⟩ : ∃ k, t.kind? n = some k := ⟨node.kind, by simp [kind?, hnode]⟩
  have hn : t.contains n = true := (t.contains_iff n).mpr ⟨k, hk⟩
  rw [type?, h.node n hn, hnode, Option.map_some, htype]

/-! ### The search for binding identifiers -/

theorem bindingTargets (h : t.Grown t') {outerOnly : Bool} {k : NodeKind} {targets : List NodeId}
    (hk : t.bindingTargets? outerOnly k = some targets) :
    t'.bindingTargets? outerOnly k = some targets := by
  unfold bindingTargets? at hk ⊢
  split at hk
  · next hexport =>
    rw [if_pos hexport]
    split at hk
    · next declaration _ =>
      obtain ⟨type, htype, hk⟩ := Option.bind_eq_some_iff.mp hk
      show (t'.type? declaration).bind _ = _
      rw [h.type htype]
      exact hk
    · exact hk
  · next hexport =>
    rw [if_neg hexport]
    exact hk

theorem bindingLevel (h : t.Grown t') {keepAll outerOnly : Bool} {level : List NodeId}
    {found : Table String (List NodeId)} {r : Table String (List NodeId) × List NodeId}
    (hr : t.bindingLevel? keepAll outerOnly level found = some r) :
    t'.bindingLevel? keepAll outerOnly level found = some r := by
  induction level generalizing found r with
  | nil => exact hr
  | cons n level ih =>
    unfold bindingLevel? at hr ⊢
    obtain ⟨k, hk, hr⟩ := Option.bind_eq_some_iff.mp hr
    show (t'.kind? n).bind _ = _
    rw [h.kind hk, Option.bind_some]
    cases k with
    | identifier => exact ih hr
    | _ =>
      obtain ⟨targets, htargets, hr⟩ := Option.bind_eq_some_iff.mp hr
      obtain ⟨below, hbelow, hr⟩ := Option.bind_eq_some_iff.mp hr
      show (t'.bindingTargets? outerOnly _).bind _ = _
      rw [h.bindingTargets htargets, Option.bind_some]
      show (t'.bindingLevel? keepAll outerOnly level found).bind _ = _
      rw [ih hbelow]
      exact hr

theorem bindingSearch (h : t.Grown t') {keepAll outerOnly : Bool} {fuel fuel' : Nat}
    (hfuel : fuel ≤ fuel') {level : List NodeId} {found r : Table String (List NodeId)}
    (hr : t.bindingSearch? keepAll outerOnly fuel level found = some r) :
    t'.bindingSearch? keepAll outerOnly fuel' level found = some r := by
  induction fuel generalizing fuel' level found with
  | zero => cases hr
  | succ fuel ih =>
    cases fuel' with
    | zero => omega
    | succ fuel' =>
      unfold bindingSearch? at hr ⊢
      split at hr
      · next hl => rw [if_pos hl, hr]
      · next hl =>
        rw [if_neg hl]
        obtain ⟨below, hbelow, hr⟩ := Option.bind_eq_some_iff.mp hr
        show (t'.bindingLevel? keepAll outerOnly level found).bind _ = _
        rw [h.bindingLevel hbelow]
        exact ih (by omega) hr

/-- The search finds the same in the larger tree. -/
theorem bindingIdentifiers (h : t.Grown t') {n : NodeId} {keepAll outerOnly : Bool}
    {r : Table String (List NodeId)} (hr : t.bindingIdentifiers? n keepAll outerOnly = some r) :
    t'.bindingIdentifiers? n keepAll outerOnly = some r := by
  have hsize := h.size
  exact h.bindingSearch (by unfold depthBound; omega) hr

end Tree.Grown

/-! ### Values in a larger tree -/

theorem Tree.Evaluates.grown {σ V : Type} {M : Meaning σ V} {old t t' : Tree} (hg : t.Grown t')
    {e : NodeId} {act : StateM σ V} (h : t.Evaluates M old e act) : t'.Evaluates M old e act := by
  refine @Tree.Evaluates.rec σ V M t old (fun e act _ => t'.Evaluates M old e act)
    (fun es acts _ => List.Forall₂ (t'.Evaluates M old) es acts)
    (fun hold => .known hold) (fun hnew hk => .assignment hnew (hg.kind hk))
    (fun hnew hk _ ih => .sequence hnew (hg.kind hk) ih)
    (fun hnew hk _ _ _ ihc iha ihb => .conditional hnew (hg.kind hk) ihc iha ihb)
    (fun hnew hk hz => .undefined hnew (hg.kind hk) (hg.kind hz)) .nil
    (fun _ _ ihe ihes => .cons ihe ihes) e act h

/-! ## Building expressions -/

/-- The computation succeeds on a tree, adds to it, and `post` holds of its value and the new tree. -/
def TreeM.Builds {α : Type} (x : TreeM α) (t : Tree) (post : α → Tree → Prop) : Prop :=
  ∃ a t', x.run t = some (a, t') ∧ t.Grown t' ∧ post a t'

/-- The same for a computation that may find that there is no expression form. -/
def ReduceM.Settles {α : Type} (x : ReduceM α) (t : Tree) (post : Option α → Tree → Prop) : Prop :=
  x.run.Builds t post

section Builds

variable {α β : Type} {t : Tree}

theorem TreeM.Builds.pure {a : α} {post : α → Tree → Prop} (h : post a t) :
    TreeM.Builds (pure a) t post := ⟨a, t, rfl, .refl t, h⟩

theorem TreeM.Builds.bind {x : TreeM α} {f : α → TreeM β} {post : α → Tree → Prop}
    {post' : β → Tree → Prop} (hx : x.Builds t post)
    (hf : ∀ a t', t.Grown t' → post a t' → (f a).Builds t' post') : (x >>= f).Builds t post' := by
  obtain ⟨a, t₁, hrun, hg, ha⟩ := hx
  obtain ⟨b, t₂, hrun', hg', hb⟩ := hf a t₁ hg ha
  refine ⟨b, t₂, ?_, hg.trans hg', hb⟩
  simp only [StateT.run_bind, hrun]
  exact hrun'

theorem TreeM.Builds.mono {x : TreeM α} {post post' : α → Tree → Prop} (hx : x.Builds t post)
    (h : ∀ a t', t.Grown t' → post a t' → post' a t') : x.Builds t post' := by
  obtain ⟨a, t', hrun, hg, ha⟩ := hx
  exact ⟨a, t', hrun, hg, h a t' hg ha⟩

theorem ReduceM.Settles.pure {a : α} {post : Option α → Tree → Prop} (h : post (some a) t) :
    ReduceM.Settles (pure a) t post := ⟨some a, t, rfl, .refl t, h⟩

theorem ReduceM.Settles.failure {post : Option α → Tree → Prop} (h : post none t) :
    ReduceM.Settles (failure : ReduceM α) t post := ⟨none, t, rfl, .refl t, h⟩

theorem ReduceM.Settles.lift {x : TreeM α} {post : Option α → Tree → Prop}
    (hx : x.Builds t fun a => post (some a)) : ReduceM.Settles (liftM x) t post := by
  obtain ⟨a, t', hrun, hg, ha⟩ := hx
  exact ⟨some a, t', by simp [hrun], hg, ha⟩

theorem ReduceM.Settles.bind {x : ReduceM α} {f : α → ReduceM β} {post : Option α → Tree → Prop}
    {post' : Option β → Tree → Prop} (hx : x.Settles t post)
    (hnone : ∀ t', t.Grown t' → post none t' → post' none t')
    (hf : ∀ a t', t.Grown t' → post (some a) t' → (f a).Settles t' post') :
    (x >>= f).Settles t post' := by
  obtain ⟨o, t₁, hrun, hg, ho⟩ := hx
  cases o with
  | none => exact ⟨none, t₁, by simp [OptionT.run_bind, Option.elimM, hrun], hg, hnone t₁ hg ho⟩
  | some a =>
    obtain ⟨b, t₂, hrun', hg', hb⟩ := hf a t₁ hg ho
    refine ⟨b, t₂, ?_, hg.trans hg', hb⟩
    simp only [OptionT.run_bind, Option.elimM, StateT.run_bind, hrun]
    exact hrun'

theorem TreeM.Builds.bindLift {x : TreeM α} {f : α → ReduceM β} {post : α → Tree → Prop}
    {post' : Option β → Tree → Prop} (hx : x.Builds t post)
    (hf : ∀ a t', t.Grown t' → post a t' → (f a).Settles t' post') :
    ReduceM.Settles (liftM x >>= f) t post' := by
  obtain ⟨a, t₁, hrun, hg, ha⟩ := hx
  obtain ⟨b, t₂, hrun', hg', hb⟩ := hf a t₁ hg ha
  refine ⟨b, t₂, ?_, hg.trans hg', hb⟩
  simp only [OptionT.run_bind, Option.elimM, OptionT.run_monadLift, StateT.run_bind, StateT.run_map,
    monadLift_self, hrun]
  exact hrun'

theorem TreeM.run_get_bind (f : Tree → TreeM α) (t : Tree) :
    (get >>= f : TreeM α).run t = (f t).run t := rfl

theorem TreeM.builds_kind {n : NodeId} {k : NodeKind} (hk : t.kind? n = some k) :
    (TreeM.kind n).Builds t fun k' t' => k' = k ∧ t' = t :=
  ⟨k, t, by simp [TreeM.kind, hk], .refl t, rfl, rfl⟩

theorem contains_of_depth {n : NodeId} {d : Nat} (h : t.DepthWithin d n) :
    t.contains n = true := (t.contains_iff n).mpr h.kind

/-- A new node is none of the old ones. -/
theorem TreeM.builds_alloc {old : Tree} (hg : old.Grown t) (k : NodeKind) :
    (TreeM.alloc k).Builds t fun e t' => old.contains e = false ∧ t'.kind? e = some k := by
  refine ⟨⟨t.size⟩, t.push { kind := k }, rfl, .push t _, ?_, ?_⟩
  · simpa [Tree.contains] using hg.size
  · simp [Tree.kind?, Tree.node?_push]

theorem TreeM.builds_undefined {old : Tree} (hg : old.Grown t) :
    TreeM.undefined.Builds t fun e t' =>
      ∀ {σ V : Type} (M : Meaning σ V), t'.Evaluates M old e (pure M.undefined) := by
  refine (TreeM.builds_alloc hg _).bind fun zero t₁ hg₁ hzero => ?_
  refine (TreeM.builds_alloc (hg.trans hg₁) _).mono fun e t₂ hg₂ he => ?_
  exact fun M => .undefined he.1 he.2 (hg₂.kind hzero.2)

end Builds

/-! ## One statement after the other -/

/-- The reduction stands for commands: it has met their targets, and evaluating its expressions is
running them, up to a last value that is undefined. -/
structure Reduction.Covers (r : Reduction) (old t : Tree) (cs : List Command) : Prop where
  declared : r.declared = (targetsOf cs).flatMap old.boundNames
  meaning : ∀ {σ V : Type} (M : Meaning σ V), ∃ acts,
    List.Forall₂ (t.Evaluates M old) r.expressions acts ∧
      M.inOrder (runEach M cs) = do
        let v ← M.inOrder acts
        pure (if r.endsUndefined then M.undefined else v)

/-- The expression form stands for commands. -/
structure Reduced.Covers (r : Reduced) (old t : Tree) (cs : List Command) : Prop where
  declared : r.declared = (targetsOf cs).flatMap old.boundNames
  meaning : ∀ {σ V : Type} (M : Meaning σ V),
    t.Evaluates M old r.expression (M.inOrder (runEach M cs))

section Covers

variable {old t t' : Tree} {r : Reduction} {cs : List Command}

theorem Reduction.Covers.grown (h : r.Covers old t cs) (hg : t.Grown t') : r.Covers old t' cs where
  declared := h.declared
  meaning M := by
    obtain ⟨acts, hacts, hrun⟩ := h.meaning M
    exact ⟨acts, hacts.imp fun _ _ he => he.grown hg, hrun⟩

/-- An expression is added, whose value is the value so far. -/
theorem Reduction.Covers.add (h : r.Covers old t cs) {c : Command} {e : NodeId}
    {names : List String} (hnames : names = c.targets.flatMap old.boundNames)
    (he : ∀ {σ V : Type} (M : Meaning σ V), t.Evaluates M old e (c.run M)) :
    (r.add e names).Covers old t (cs ++ [c]) where
  declared := by
    simp [Reduction.add, h.declared, hnames, targetsOf_append, targetsOf]
  meaning M := by
    obtain ⟨acts, hacts, hrun⟩ := h.meaning M
    refine ⟨acts ++ [c.run M], List.rel_append hacts (.cons (he M) .nil), ?_⟩
    simp [Reduction.add, runEach_append, runEach, Meaning.inOrder_concat, hrun]

/-- The value becomes undefined. -/
theorem Reduction.Covers.undefined (h : r.Covers old t cs) {c : Command}
    (hnames : c.targets = [])
    (hc : ∀ {σ V : Type} (M : Meaning σ V), c.run M = pure M.undefined) :
    Reduction.Covers { r with endsUndefined := true } old t (cs ++ [c]) where
  declared := by simp [h.declared, targetsOf_append, targetsOf, hnames]
  meaning M := by
    obtain ⟨acts, hacts, hrun⟩ := h.meaning M
    refine ⟨acts, hacts, ?_⟩
    simp [runEach_append, runEach, Meaning.inOrder_concat, hrun, hc]

/-- All expressions together become one. -/
theorem Reduction.Covers.finish (h : r.Covers old t cs) (hg : old.Grown t) :
    r.finish.Builds t fun r' t' => r'.Covers old t' cs := by
  unfold Reduction.finish
  extract_lets join
  -- Several expressions become a sequence, a single one stays as it is.
  have hjoin : ∀ es t₁, t.Grown t₁ →
      (∀ {σ V : Type} (M : Meaning σ V), ∃ acts, List.Forall₂ (t₁.Evaluates M old) es acts ∧
        M.inOrder (runEach M cs) = M.inOrder acts) →
      TreeM.Builds (join es) t₁ fun r' t' => r'.Covers old t' cs := by
    intro es t₁ hg₁ hes
    dsimp only [join]
    split
    · next e =>
      refine .pure ⟨h.declared, fun M => ?_⟩
      obtain ⟨acts, hacts, hrun⟩ := hes M
      cases hacts with
      | cons he hnil =>
        cases hnil
        rw [hrun, Meaning.inOrder_singleton]
        exact he
    · refine (TreeM.builds_alloc (hg.trans hg₁) _).bind fun e t₂ hg₂ he => ?_
      refine .pure ⟨h.declared, fun M => ?_⟩
      obtain ⟨acts, hacts, hrun⟩ := hes M
      rw [hrun]
      exact .sequence he.1 he.2 (hacts.imp fun _ _ ha => ha.grown hg₂)
  split
  · next hend =>
    refine (TreeM.builds_undefined hg).bind fun e t₁ hg₁ he => ?_
    refine hjoin (r.expressions ++ [e]) t₁ hg₁ fun M => ?_
    obtain ⟨acts, hacts, hrun⟩ := h.meaning M
    refine ⟨acts ++ [pure M.undefined], List.rel_append
      (hacts.imp fun _ _ ha => ha.grown hg₁) (.cons (he M) .nil), ?_⟩
    rw [hrun, Meaning.inOrder_concat]
    rcases Bool.or_eq_true_iff.mp hend with hend | hnil
    · simp [hend]
    · have hacts' : acts = [] := by
        rw [List.isEmpty_iff] at hnil
        rw [hnil] at hacts
        cases hacts
        rfl
      simp [hacts', Meaning.inOrder]
  · next hend =>
    refine hjoin r.expressions t (.refl t) fun M => ?_
    obtain ⟨acts, hacts, hrun⟩ := h.meaning M
    have hvalue : r.endsUndefined = false := by
      cases hr : r.endsUndefined <;> simp_all
    exact ⟨acts, hacts, by simp [hrun, hvalue]⟩

end Covers

/-! ### Declarators -/

/-- The second reduction has gone through some more declarators. -/
structure Reduction.Declared (r : Reduction) (old t : Tree) (ds : List (NodeId × Option NodeId))
    (r' : Reduction) : Prop where
  declared : r'.declared = r.declared ++ (ds.map Prod.fst).flatMap old.boundNames
  meaning : ∃ es, r'.expressions = r.expressions ++ es ∧ ∀ {σ V : Type} (M : Meaning σ V),
    List.Forall₂ (t.Evaluates M old) es (M.assignments ds)

section Declarators

variable {old t t' : Tree} {r r₁ r₂ : Reduction} {ds es : List (NodeId × Option NodeId)}

theorem Reduction.Declared.refl (r : Reduction) (old t : Tree) : r.Declared old t [] r :=
  ⟨by simp, [], by simp, fun _ => .nil⟩

theorem Reduction.Declared.trans (h₁ : r.Declared old t ds r₁) (hg : t.Grown t')
    (h₂ : r₁.Declared old t' es r₂) : r.Declared old t' (ds ++ es) r₂ := by
  obtain ⟨hnames₁, es₁, hes₁, hmeaning₁⟩ := h₁
  obtain ⟨hnames₂, es₂, hes₂, hmeaning₂⟩ := h₂
  refine ⟨by simp [hnames₁, hnames₂], es₁ ++ es₂, by simp [hes₁, hes₂], fun M => ?_⟩
  rw [M.assignments_append]
  exact List.rel_append ((hmeaning₁ M).imp fun _ _ he => he.grown hg) (hmeaning₂ M)

theorem builds_addDeclarator (hg : old.Grown t) {n : NodeId}
    (hn : old.DepthWithin old.size n) (r : Reduction) :
    (r.addDeclarator n).Builds t fun r' t' =>
      r.Declared old t' (old.declarator? n).toList r' := by
  obtain ⟨k, hk⟩ := hn.kind
  unfold Reduction.addDeclarator
  refine (TreeM.builds_kind (hg.kind hk)).bind fun k' t₁ _ hk' => ?_
  obtain ⟨rfl, rfl⟩ := hk'
  split
  · next id init =>
    have hid : old.DepthWithin old.size id :=
      hn.child hk (by simp [NodeKind.children, NodeKind.fields, Child.ids])
    obtain ⟨found, hfound, -⟩ := Tree.bindingIdentifiers?_eq_some false hid
    have hd : old.declarator? n = some (id, init) := by simp [Tree.declarator?, hk]
    have hnames : old.boundNames id = found.keys := by simp [Tree.boundNames, hfound]
    have hsearch : TreeM.Builds (do
        let t ← get
        liftM (t.bindingIdentifiers? id false false)) t₁ fun names t' =>
          names = found ∧ t' = t₁ :=
      ⟨found, t₁, by simp [hg.bindingIdentifiers hfound], .refl t₁, rfl, rfl⟩
    rw [← bind_assoc]
    refine hsearch.bind fun names t₂ _ hn => ?_
    obtain ⟨rfl, rfl⟩ := hn
    rw [hd]
    cases init with
    | none => exact .pure ⟨by simp [hnames], [], by simp, fun M => .nil⟩
    | some value =>
      obtain ⟨e, t₃, hrun, hg₃, hnew, he⟩ :=
        TreeM.builds_alloc hg (.assignmentExpression .assign id value)
      have hassign : TreeM.Builds (Option.mapM (fun init => TreeM.assign id init) (some value)) t₂
          fun o t' => o = some e ∧ t' = t₃ :=
        ⟨some e, t₃, by simp [TreeM.assign, hrun], hg₃, rfl, rfl⟩
      refine hassign.bind fun o t₄ _ ho => ?_
      obtain ⟨rfl, rfl⟩ := ho
      exact .pure ⟨by simp [hnames], [e], rfl, fun M => .cons (.assignment hnew he) .nil⟩
  · next hno =>
    have hd : old.declarator? n = none := by
      unfold Tree.declarator?
      rw [hk]
      split
      · next heq => exact absurd (Option.some.inj heq) (hno _ _)
      · rfl
    rw [hd]
    exact .pure (.refl r old t₁)

theorem builds_addDeclarators (hg : old.Grown t) (ids : List NodeId)
    (hids : ∀ n ∈ ids, old.DepthWithin old.size n) (r : Reduction) :
    (ids.foldlM Reduction.addDeclarator r).Builds t fun r' t' =>
      r.Declared old t' (ids.filterMap old.declarator?) r' := by
  induction ids generalizing t r with
  | nil => exact .pure (.refl r old t)
  | cons n ids ih =>
    rw [List.foldlM_cons]
    refine (builds_addDeclarator hg (hids n (by simp)) r).bind fun r₁ t₁ hg₁ h₁ => ?_
    refine (ih (hg.trans hg₁) (fun m hm => hids m (by simp [hm])) r₁).mono fun r₂ t₂ hg₂ h₂ => ?_
    have hsplit : (n :: ids).filterMap old.declarator? =
        (old.declarator? n).toList ++ ids.filterMap old.declarator? := by
      cases hd : old.declarator? n <;> simp [hd]
    rw [hsplit]
    exact h₁.trans hg₂ h₂

/-- A declaration was gone through. -/
theorem Reduction.Covers.declare {cs : List Command} (h : r.Covers old t cs) (hg : t.Grown t')
    (hd : r.Declared old t' ds r₁) :
    Reduction.Covers { r₁ with endsUndefined := true } old t' (cs ++ [.declare ds]) := by
  obtain ⟨hnames, es, hes, hmeaning⟩ := hd
  refine ⟨?_, fun M => ?_⟩
  · simp [hnames, h.declared, targetsOf_append, targetsOf, Command.targets]
  · obtain ⟨acts, hacts, hrun⟩ := h.meaning M
    refine ⟨acts ++ M.assignments ds, ?_, ?_⟩
    · rw [hes]
      exact List.rel_append (hacts.imp fun _ _ he => he.grown hg) (hmeaning M)
    · simp only [runEach_append, runEach, Meaning.inOrder_concat, hrun, Command.run, bind_assoc,
        pure_bind, if_true, M.inOrder_append_then]

end Declarators

/-! ### Statements -/

/-- What is known about the expression form of some statements once it was looked for. -/
def Tree.FormOf (old : Tree) (nodes : List NodeId) : Option Reduced → Tree → Prop
  | none, _ => ∃ n ∈ nodes, old.Obstructed n
  | some r, t => ∃ cs, List.Forall₂ old.Commands nodes cs ∧ r.Covers old t cs

/-- What is known after one more statement. -/
def Tree.Continues (old : Tree) (n : NodeId) (cs : List Command) : Option Reduction → Tree → Prop
  | none, _ => old.Obstructed n
  | some r, t => ∃ c, old.Commands n c ∧ r.Covers old t (cs ++ [c])

section Statements

variable {old t : Tree} {d : Nat} {reduce : List NodeId → ReduceM Reduced} {r : Reduction}
  {cs : List Command} {n : NodeId}

/-- The form of a single statement. -/
theorem Tree.FormOf.single {r : Reduced} (h : old.FormOf [n] (some r) t) :
    ∃ c, old.Commands n c ∧ r.declared = c.targets.flatMap old.boundNames ∧
      ∀ {σ V : Type} (M : Meaning σ V), t.Evaluates M old r.expression (c.run M) := by
  obtain ⟨cs, hcs, hr⟩ := h
  cases hcs with
  | cons hc hnil =>
    cases hnil
    refine ⟨_, hc, by simpa [targetsOf] using hr.declared, fun M => ?_⟩
    have := hr.meaning M
    rwa [runEach, runEach, Meaning.inOrder_singleton] at this

/-- Both branches of a conditional have a form, or one of them stands in the way. -/
theorem settles_branches {test yes : NodeId} {no : Option NodeId}
    (hreduce : ∀ nodes t, old.Grown t → (∀ m ∈ nodes, old.DepthWithin d m) →
      (reduce nodes).Settles t (old.FormOf nodes))
    (hg : old.Grown t) (hk : old.kind? n = some (.ifStatement test yes no))
    (hdepth : old.DepthWithin (d + 1) n) (hr : r.Covers old t cs) :
    ReduceM.Settles (do
      let yes ← reduce [yes]
      let no ← match no with
        | some alternate => reduce [alternate]
        | none => do pure { expression := ← TreeM.undefined, declared := [] }
      let choice ← TreeM.alloc (.conditionalExpression test yes.expression no.expression)
      pure (r.add choice (yes.declared ++ no.declared))) t (old.Continues n cs) := by
  obtain ⟨k, hk', hchildren⟩ := hdepth
  obtain rfl := Option.some.inj (hk.symm.trans hk')
  have htest : old.contains test = true :=
    contains_of_depth (hchildren test (by simp [NodeKind.children, NodeKind.fields, Child.ids]))
  refine (hreduce [yes] t hg fun m hm => hchildren m ?_).bind (fun _ _ hno => ?_)
    fun ryes t₁ hg₁ hyes => ?_
  · rw [List.mem_singleton.mp hm]
    simp [NodeKind.children, NodeKind.fields, Child.ids]
  · obtain ⟨m, hm, hobstructed⟩ := hno
    exact .consequent hk (List.mem_singleton.mp hm ▸ hobstructed)
  obtain ⟨a, ha, hnames, hvalue⟩ := hyes.single
  -- The choice between the two forms, once the form of the other branch is known.
  have hchoose : ∀ (rno : Reduced) (b : Command) (t₂ : Tree), t₁.Grown t₂ →
      old.Commands n (.choose test a b) → rno.declared = b.targets.flatMap old.boundNames →
      (∀ {σ V : Type} (M : Meaning σ V), t₂.Evaluates M old rno.expression (b.run M)) →
      ReduceM.Settles (do
        let choice ← TreeM.alloc (.conditionalExpression test ryes.expression rno.expression)
        pure (r.add choice (ryes.declared ++ rno.declared))) t₂ (old.Continues n cs) := by
    intro rno b t₂ hg₂ hcommand hnames' hvalue'
    refine (TreeM.builds_alloc ((hg.trans hg₁).trans hg₂) _).bindLift fun e t₃ hg₃ he => ?_
    refine .pure ⟨_, hcommand, ((hr.grown hg₁).grown (hg₂.trans hg₃)).add ?_ fun M => ?_⟩
    · simp [Command.targets, hnames, hnames']
    · exact .conditional he.1 he.2 (.known htest) ((hvalue M).grown (hg₂.trans hg₃))
        ((hvalue' M).grown hg₃)
  cases no with
  | none =>
    refine (TreeM.builds_undefined (hg.trans hg₁)).bindLift fun e t₂ hg₂ he => ?_
    exact hchoose _ (.block []) t₂ hg₂ (.branch hk ha) (by simp [Command.targets, targetsOf]) he
  | some no =>
    refine (hreduce [no] t₁ (hg.trans hg₁) fun m hm => hchildren m ?_).bind (fun _ _ hno => ?_)
      fun rno t₂ hg₂ hno => ?_
    · rw [List.mem_singleton.mp hm]
      simp [NodeKind.children, NodeKind.fields, Child.ids]
    · obtain ⟨m, hm, hobstructed⟩ := hno
      exact .alternate hk (List.mem_singleton.mp hm ▸ hobstructed)
    · obtain ⟨b, hb, hnames', hvalue'⟩ := hno.single
      exact hchoose rno b t₂ hg₂ (.branches hk ha hb) hnames' hvalue'

theorem settles_reduceStatement
    (hreduce : ∀ nodes t, old.Grown t → (∀ m ∈ nodes, old.DepthWithin d m) →
      (reduce nodes).Settles t (old.FormOf nodes))
    (hg : old.Grown t) (hdepth : old.DepthWithin (d + 1) n) (hd : d < old.size)
    (hr : r.Covers old t cs) :
    (reduceStatement reduce r n).Settles t (old.Continues n cs) := by
  obtain ⟨k, hk, hchildren⟩ := id hdepth
  unfold reduceStatement
  refine (TreeM.builds_kind (hg.kind hk)).bindLift fun k' t₁ _ hk' => ?_
  obtain ⟨rfl, rfl⟩ := hk'
  split
  · next hexpr =>
    exact .pure ⟨_, .expression hk hexpr, hr.add rfl fun M => .known (contains_of_depth hdepth)⟩
  · next hexpr =>
    split
    · next e =>
      have he : old.contains e = true :=
        contains_of_depth (hchildren e (by simp [NodeKind.children, NodeKind.fields, Child.ids]))
      exact .pure ⟨_, .statement hk, hr.add rfl fun M => .known he⟩
    · next ds =>
      have hds : ∀ m ∈ ds, old.DepthWithin old.size m := fun m hm => (hchildren m (by
        simpa [NodeKind.children, NodeKind.fields, Child.ids] using hm)).mono (by omega)
      refine (builds_addDeclarators hg ds hds r).bindLift fun r' t₂ hg₂ hr' => ?_
      exact .pure ⟨_, .variables hk, hr.declare hg₂ hr'⟩
    · next test yes no => exact settles_branches hreduce hg hk hdepth hr
    · next body =>
      refine (hreduce body t₁ hg fun m hm => hchildren m (by
        simpa [NodeKind.children, NodeKind.fields, Child.ids] using hm)).bind
        (fun _ _ hno => ?_) fun inner t₂ hg₂ hinner => ?_
      · obtain ⟨m, hm, hobstructed⟩ := hno
        exact .member hk hm hobstructed
      · obtain ⟨bs, hbs, hcovers⟩ := hinner
        refine .pure ⟨_, .block hk hbs, (hr.grown hg₂).add ?_ fun M => ?_⟩
        · simpa [Command.targets] using hcovers.declared
        · exact hcovers.meaning M
    · exact .pure ⟨_, .empty hk, hr.undefined (by simp [Command.targets, targetsOf]) fun M => rfl⟩
    · next hstatement hvariables hif hblock hempty =>
      refine .failure ?_
      cases k' with
      | variableDeclaration v ds =>
        exact .lexical hk fun hv => hvariables ds (by rw [hv])
      | expressionStatement e => exact absurd rfl (hstatement e)
      | ifStatement test yes no => exact absurd rfl (hif test yes no)
      | blockStatement body => exact absurd rfl (hblock body)
      | emptyStatement => exact absurd rfl hempty
      | _ => exact .foreign hk (by simpa using hexpr) (by simp [NodeKind.type])

/-- The statements are added one after the other. -/
theorem settles_statements (nodes : List NodeId)
    (hstep : ∀ n ∈ nodes, ∀ t r cs, old.Grown t → r.Covers old t cs →
      (reduceStatement reduce r n).Settles t (old.Continues n cs))
    (hg : old.Grown t) (hr : r.Covers old t cs) :
    (nodes.foldlM (reduceStatement reduce) r).Settles t fun o t' => match o with
      | none => ∃ n ∈ nodes, old.Obstructed n
      | some r' => ∃ ds, List.Forall₂ old.Commands nodes ds ∧ r'.Covers old t' (cs ++ ds) := by
  induction nodes generalizing t r cs with
  | nil => exact .pure ⟨[], .nil, by simpa using hr⟩
  | cons n nodes ih =>
    rw [List.foldlM_cons]
    refine (hstep n (by simp) t r cs hg hr).bind (fun _ _ hno => ⟨n, by simp, hno⟩)
      fun r₁ t₁ hg₁ h₁ => ?_
    obtain ⟨c, hc, hr₁⟩ := h₁
    have hrest := ih (fun m hm => hstep m (by simp [hm])) (hg.trans hg₁) hr₁
    obtain ⟨o, t₂, hrun, hg₂, ho⟩ := hrest
    refine ⟨o, t₂, hrun, hg₂, ?_⟩
    cases o with
    | none =>
      obtain ⟨m, hm, hobstructed⟩ := ho
      exact ⟨m, by simp [hm], hobstructed⟩
    | some r' =>
      obtain ⟨ds, hds, hr'⟩ := ho
      exact ⟨c :: ds, .cons hc hds, by simpa using hr'⟩

end Statements

theorem settles_reduceWithin {old : Tree} {fuel d : Nat} (hfuel : d < fuel) (hd : d ≤ old.size)
    (nodes : List NodeId) (t : Tree) (hg : old.Grown t)
    (hnodes : ∀ n ∈ nodes, old.DepthWithin d n) :
    (reduceWithin fuel nodes).Settles t (old.FormOf nodes) := by
  induction fuel generalizing d nodes t with
  | zero => omega
  | succ fuel ih =>
    unfold reduceWithin
    have hstart : Reduction.Covers {} old t [] :=
      ⟨by simp [targetsOf], fun M => ⟨[], .nil, by simp [runEach, Meaning.inOrder]⟩⟩
    have hstep : ∀ n ∈ nodes, ∀ t r cs, old.Grown t → r.Covers old t cs →
        (reduceStatement (reduceWithin fuel) r n).Settles t (old.Continues n cs) := by
      intro n hn t r cs hg hr
      cases d with
      | zero => exact (hnodes n hn).elim
      | succ d =>
        exact settles_reduceStatement (fun ms t' hg' hms => ih (by omega) (by omega) ms t' hg' hms)
          hg (hnodes n hn) (by omega) hr
    refine (settles_statements nodes hstep hg hstart).bind (fun _ _ hno => hno)
      fun r t₁ hg₁ h₁ => ?_
    obtain ⟨cs, hcs, hr⟩ := h₁
    refine .lift ((hr.finish (hg.trans hg₁)).mono fun r' t₂ _ hr' => ?_)
    exact ⟨cs, hcs, by simpa using hr'⟩

/-! ## Meaning is kept -/

section Kept

variable {t : Tree}

/-- What has a command stands in nobody's way. -/
theorem Tree.Commands.not_obstructed {n : NodeId} {c : Command} (h : t.Commands n c) :
    ¬ t.Obstructed n := by
  intro hn
  induction hn generalizing c with
  | lexical hk hv => cases h <;> grind [NodeKind.type, NodeType.isExpression]
  | foreign hk hexpr hother =>
    cases h with
    | expression hk' hexpr' =>
      obtain rfl := Option.some.inj (hk.symm.trans hk')
      exact absurd hexpr' (by simp [hexpr])
    | _ hk' =>
      obtain rfl := Option.some.inj (hk.symm.trans hk')
      exact hother (by simp [NodeKind.type])
  | consequent hk _ ih =>
    cases h with
    | branches hk' ha _ =>
      obtain ⟨-, rfl, -⟩ := NodeKind.ifStatement.inj (Option.some.inj (hk'.symm.trans hk))
      exact ih ha
    | branch hk' ha =>
      obtain ⟨-, rfl, -⟩ := NodeKind.ifStatement.inj (Option.some.inj (hk'.symm.trans hk))
      exact ih ha
    | _ => grind [NodeKind.type, NodeType.isExpression]
  | alternate hk _ ih =>
    cases h with
    | branches hk' _ hb =>
      obtain ⟨-, -, heq⟩ := NodeKind.ifStatement.inj (Option.some.inj (hk'.symm.trans hk))
      cases heq
      exact ih hb
    | _ => grind [NodeKind.type, NodeType.isExpression]
  | member hk hm _ ih =>
    cases h with
    | block hk' hcs =>
      obtain rfl := NodeKind.blockStatement.inj (Option.some.inj (hk'.symm.trans hk))
      obtain ⟨i, hi, rfl⟩ := List.getElem_of_mem hm
      exact ih (hcs.get hi (hcs.length_eq ▸ hi))
    | _ => grind [NodeKind.type, NodeType.isExpression]

theorem Tree.Commands.unique_all {ns : List NodeId} {cs cs' : List Command}
    (h : List.Forall₂ t.Commands ns cs) (h' : List.Forall₂ t.Commands ns cs') : cs = cs' := by
  induction h generalizing cs' with
  | nil => cases h'; rfl
  | cons hc _ ih =>
    cases h' with
    | cons hc' hcs' => rw [hc.unique hc', ih hcs']

/-- The targets that commands meet belong to the forest of their statements. -/
theorem Tree.Forest.targets {K : Set NodeId} (hF : t.Forest K) {n : NodeId} {c : Command}
    (h : t.Commands n c) : n ∈ K → ∀ m ∈ c.targets, m ∈ K := by
  have hchild : ∀ {p m : NodeId} {k : NodeKind}, t.kind? p = some k → p ∈ K → m ∈ k.children →
      m ∈ K := fun hk hp hm => hF.closed_child hp ((t.isChild_iff _ _).mpr ⟨_, hk, hm⟩)
  refine @Tree.Commands.rec t (fun n c _ => n ∈ K → ∀ m ∈ c.targets, m ∈ K)
    (fun ns cs _ => (∀ n ∈ ns, n ∈ K) → ∀ m ∈ targetsOf cs, m ∈ K)
    ?_ ?_ ?_ ?_ ?_ ?_ ?_ ?_ ?_ n c h
  · simp [Command.targets]
  · simp [Command.targets]
  · intro n ds hk hn m hm
    obtain ⟨d, hd, rfl⟩ := List.mem_map.mp hm
    obtain ⟨e, he, hde⟩ := List.mem_filterMap.mp hd
    have heK : e ∈ K := hchild hk hn (by simpa [NodeKind.children, NodeKind.fields, Child.ids])
    unfold Tree.declarator? at hde
    split at hde
    · next id init hke =>
      cases hde
      exact hchild hke heK (by simp [NodeKind.children, NodeKind.fields, Child.ids])
    · cases hde
  · intro n test yes no a b hk _ _ iha ihb hn m hm
    rw [Command.targets, List.mem_append] at hm
    rcases hm with hm | hm
    · exact iha (hchild hk hn (by simp [NodeKind.children, NodeKind.fields, Child.ids])) m hm
    · exact ihb (hchild hk hn (by simp [NodeKind.children, NodeKind.fields, Child.ids])) m hm
  · intro n test yes a hk _ iha hn m hm
    rw [Command.targets, List.mem_append] at hm
    rcases hm with hm | hm
    · exact iha (hchild hk hn (by simp [NodeKind.children, NodeKind.fields, Child.ids])) m hm
    · simp [Command.targets, targetsOf] at hm
  · intro n ids cs hk _ ih hn m hm
    refine ih (fun e he => hchild hk hn ?_) m (by simpa [Command.targets] using hm)
    simpa [NodeKind.children, NodeKind.fields, Child.ids] using he
  · simp [Command.targets, targetsOf]
  · simp [targetsOf]
  · intro n c ns cs _ _ ihc ihcs hns m hm
    rw [targetsOf, List.mem_append] at hm
    rcases hm with hm | hm
    · exact ihc (hns n (by simp)) m hm
    · exact ihcs (fun n hn => hns n (by simp [hn])) m hm

theorem Tree.Forest.targetsOf {K : Set NodeId} (hF : t.Forest K) {ns : List NodeId}
    {cs : List Command} (h : List.Forall₂ t.Commands ns cs) (hns : ∀ n ∈ ns, n ∈ K) :
    ∀ m ∈ targetsOf cs, m ∈ K := by
  induction h with
  | nil => simp [Espalier.targetsOf]
  | cons hc _ ih =>
    intro m hm
    rw [Espalier.targetsOf, List.mem_append] at hm
    rcases hm with hm | hm
    · exact hF.targets hc (hns _ (by simp)) m hm
    · exact ih (fun n hn => hns n (by simp [hn])) m hm

/-- The names of a pattern are the names it binds. -/
theorem Tree.Forest.mem_boundNames_iff {K : Set NodeId} (hF : t.Forest K) {target : NodeId}
    (hK : target ∈ K) (htarget : t.IsTarget target) (x : String) :
    x ∈ t.boundNames target ↔ t.Binds target x := by
  obtain ⟨found, hfound, hkeys⟩ := Tree.bindingIdentifiers?_eq_some false (hF.depthWithin hK)
  rw [boundNames, hfound, Option.map_some, Option.getD_some, hkeys, htarget.named_iff]

/-- The expression form of statements of a forest exists exactly when nothing obstructs it, and
nothing that was there is changed. The commands of the statements are then uniquely given; the
names to be declared are those of the targets they meet, in order, and whatever the expressions
mean, the form has one value: the run of the commands. -/
theorem reduceStatements_preserves {K : Set NodeId} (hF : t.Forest K) {nodes : List NodeId}
    (hnodes : ∀ n ∈ nodes, n ∈ K) :
    ∃ result t', (reduceStatements nodes).run t = some (result, t') ∧ t.Grown t' ∧
      (result = none ↔ ∃ n ∈ nodes, t.Obstructed n) ∧
      ∀ r, result = some r → ∃ cs, (∀ cs', List.Forall₂ t.Commands nodes cs' ↔ cs' = cs) ∧
        r.declared = (targetsOf cs).flatMap t.boundNames ∧
        (∀ target ∈ targetsOf cs, t.IsTarget target →
          ∀ x, x ∈ t.boundNames target ↔ t.Binds target x) ∧
        ∀ (σ V : Type) (M : Meaning σ V) (act : StateM σ V),
          t'.Evaluates M t r.expression act ↔ act = M.inOrder (runEach M cs) := by
  obtain ⟨result, t', hrun, hg, hform⟩ :=
    settles_reduceWithin (by unfold Tree.depthBound; omega : t.size < t.depthBound)
      (Nat.le_refl _) nodes t (.refl t) fun n hn => hF.depthWithin (hnodes n hn)
  have hreduce : (reduceStatements nodes).run t = some (result, t') :=
    (TreeM.run_get_bind (fun t => (reduceWithin t.depthBound nodes).run) t).trans hrun
  refine ⟨result, t', hreduce, hg, ?_, ?_⟩
  · cases result with
    | none => exact iff_of_true rfl hform
    | some r =>
      obtain ⟨cs, hcs, -⟩ := hform
      refine iff_of_false (by simp) fun ⟨n, hn, hobstructed⟩ => ?_
      obtain ⟨i, hi, rfl⟩ := List.getElem_of_mem hn
      exact (hcs.get hi (hcs.length_eq ▸ hi)).not_obstructed hobstructed
  · rintro r rfl
    obtain ⟨cs, hcs, hcovers⟩ := hform
    refine ⟨cs, fun cs' => ⟨fun h => Tree.Commands.unique_all h hcs, fun h => h ▸ hcs⟩,
      hcovers.declared, fun target ht => ?_, fun σ V M act => ⟨fun h => ?_, fun h => ?_⟩⟩
    · exact hF.mem_boundNames_iff (hF.targetsOf hcs hnodes target ht)
    · exact h.unique (hcovers.meaning M)
    · rw [h]
      exact hcovers.meaning M

end Kept

/-- The program `if (a) { var x = b; } c;`. -/
def branchProgram : Tree where
  nodes := #[{ kind := .identifier "a" none }, { kind := .identifier "x" none },
    { kind := .identifier "b" none }, { kind := .variableDeclarator ⟨1⟩ (some ⟨2⟩) },
    { kind := .variableDeclaration .var [⟨3⟩] }, { kind := .blockStatement [⟨4⟩] },
    { kind := .ifStatement ⟨0⟩ ⟨5⟩ none }, { kind := .identifier "c" none },
    { kind := .expressionStatement ⟨7⟩ }, { kind := .program [⟨6⟩, ⟨8⟩] [] }]
  root := some ⟨9⟩

theorem branchProgram_isProgram : branchProgram.IsProgram :=
  .of_bottomUp (by decide) (by decide) (by decide) (by decide)

theorem branchProgram_commands : List.Forall₂ branchProgram.Commands [⟨6⟩, ⟨8⟩]
    [.choose ⟨0⟩ (.block [.declare [(⟨1⟩, some ⟨2⟩)]]) (.block []), .evaluate ⟨7⟩] :=
  .cons (.branch (t := branchProgram) rfl (.block (t := branchProgram) rfl
    (.cons (Tree.Commands.variables (t := branchProgram) (n := ⟨4⟩)  rfl) .nil)))
    (.cons (.statement (t := branchProgram) rfl) .nil)

/-- The assignment is made where the test succeeds, and the value is that of `c`. -/
theorem branchProgram_preserves : branchProgram.IsProgram ∧
    ∃ r t', (reduceStatements [⟨6⟩, ⟨8⟩]).run branchProgram = some (some r, t') ∧
      r.declared = ["x"] ∧ ∀ (σ V : Type) (M : Meaning σ V),
        t'.Evaluates M branchProgram r.expression (do
          if M.succeeds (← M.expression ⟨0⟩) then
            let _ ← M.assignment ⟨1⟩ ⟨2⟩
          M.expression ⟨7⟩) := by
  have hroot : branchProgram.Reachable ⟨9⟩ := .root rfl
  have hnodes : ∀ n ∈ ([⟨6⟩, ⟨8⟩] : List NodeId), n ∈ branchProgram.reachable := by
    intro n hn
    exact .child hroot ((branchProgram.isChild_iff ⟨9⟩ n).mpr ⟨.program [⟨6⟩, ⟨8⟩] [], rfl, hn⟩)
  obtain ⟨result, t', hrun, -, hnone, hsome⟩ :=
    reduceStatements_preserves branchProgram_isProgram.forest hnodes
  cases result with
  | none =>
    obtain ⟨n, hn, hobstructed⟩ := hnone.mp rfl
    obtain ⟨i, hi, rfl⟩ := List.getElem_of_mem hn
    exact absurd hobstructed
      (branchProgram_commands.get hi (branchProgram_commands.length_eq ▸ hi)).not_obstructed
  | some r =>
    obtain ⟨cs, hcs, hdeclared, -, hvalue⟩ := hsome r rfl
    obtain rfl := (hcs _).mp branchProgram_commands
    refine ⟨branchProgram_isProgram, r, t', hrun, hdeclared.trans (by decide), fun σ V M => ?_⟩
    refine (hvalue σ V M _).mpr ?_
    simp only [Meaning.inOrder, Meaning.choose, Meaning.assignments, runEach, Command.run,
      List.filterMap_cons, List.filterMap_nil, Option.map_some, List.foldlM_cons, List.foldlM_nil,
      bind_assoc, bind_pure]
    refine bind_congr fun v => ?_
    split <;> simp

end Espalier
