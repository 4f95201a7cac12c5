import Espalier.Proofs.Arrivals
import Espalier.Proofs.Cutoff
import Espalier.Proofs.Inlining

set_option autoImplicit false

/-! # Literals in the place of names

A run of the rule that inlines constants puts literals in the place of identifiers, and changes
nothing else in the tree (`Tree.Inlined`). Each of these identifiers was read as a value, and its
name led to a variable that is never assigned again (`Session.ReadsConstant`). One call of the rule
keeps that (`Rule.inlineConstant_steers`): it puts a new leaf in the place of a leaf, so that the
scopes of all other nodes stay the same, and forgets a read, which makes no variable a constant.

Where the literal was found there stood a literal in the program, or a read that gave way before. If
this and the read are in one function, it comes first (`constantInliner_precedes`): the rule only
sees that in the tree of its own session, but as leaves took the place of leaves, nodes side by side
stand for nodes in the same order (`Tree.Inlined.precedes`). -/

namespace Espalier

open SessionM Session

variable {σ : Type}

/-! ## Trees with literals in the place of some nodes -/

/-- A literal opens no scope. -/
theorem NodeType.isLiteral_not_scopable {type : NodeType} (h : type.isLiteral = true) :
    type.isScopable = false := by
  revert h
  cases type <;> decide

/-- A literal has no children. -/
theorem NodeKind.children_of_isLiteral {k : NodeKind} (h : k.type.isLiteral = true) :
    k.children = [] := by
  cases k <;> first | rfl | cases h

namespace Tree

/-- The node is a string, a number, a boolean or `null`. -/
def IsLiteral (t : Tree) (n : NodeId) : Prop :=
  ∃ k, t.kind? n = some k ∧ k.type.isLiteral = true

/-- In the second tree literals that were not in the first one stand in the place of some nodes with
a property. Nothing else of what could be reached is different, but comments. -/
structure Inlined (t : Tree) (C : NodeId → Prop) (t' : Tree) : Prop where
  outline : ∀ n, t.Reachable n →
    (t'.kind? n).map NodeKind.outline = (t.kind? n).map NodeKind.outline
  place : ∀ pos, pos.Within t.reachable → t'.occupant? pos = t.occupant? pos ∨
    ∃ n m, t.occupant? pos = some n ∧ C n ∧ t'.occupant? pos = some m ∧ t'.IsLiteral m ∧
      ¬ t.Reachable m

variable {t t' : Tree} {C : NodeId → Prop} {n m : NodeId}

theorem IsLiteral.not_isChild (h : t.IsLiteral n) : ¬ t.IsChild n m := by
  obtain ⟨k, hk, hliteral⟩ := h
  exact not_isChild_leaf hk (NodeKind.children_of_isLiteral hliteral) m

theorem IsIdentifier.not_isChild (h : t.IsIdentifier n) : ¬ t.IsChild n m := by
  obtain ⟨x, declared, hk⟩ := h
  exact not_isChild_leaf hk rfl m

theorem IsIdentifier.not_isLiteral (h : t.IsIdentifier n) : ¬ t.IsLiteral n := by
  rintro ⟨k, hk, hliteral⟩
  obtain ⟨x, declared, hk'⟩ := h
  obtain rfl := Option.some.inj (hk.symm.trans hk')
  cases hliteral

theorem IsLiteral.of_type (h : t.IsLiteral n)
    (htype : (t'.kind? n).map NodeKind.type = (t.kind? n).map NodeKind.type) : t'.IsLiteral n := by
  obtain ⟨k, hk, hliteral⟩ := h
  rw [hk, Option.map_some] at htype
  obtain ⟨k', hk', heq⟩ := Option.map_eq_some_iff.mp htype
  exact ⟨k', hk', heq ▸ hliteral⟩

namespace Inlined

/-- Whatever can be reached could be reached before, or is a literal. -/
theorem reachable (h : t.Inlined C t') (hn : t'.Reachable n) :
    t.Reachable n ∨ t'.IsLiteral n := by
  induction hn with
  | @root r hr =>
    rcases h.place .root (Position.within_root _) with hsame | ⟨-, m, -, -, hm, hliteral, -⟩
    · exact .inl (.root (hsame.symm.trans hr))
    · exact .inr (Option.some.inj (hm.symm.trans hr) ▸ hliteral)
  | @child p n _ hc ih =>
    rcases ih with hp | hp
    · obtain ⟨pos, hpos, hocc⟩ := hc
      rcases h.place pos (Position.within_of_parent hpos hp) with
        hsame | ⟨-, m, -, -, hm, hliteral, -⟩
      · exact .inl (.child hp ⟨pos, hpos, hsame.symm.trans hocc⟩)
      · exact .inr (Option.some.inj (hm.symm.trans hocc) ▸ hliteral)
    · exact absurd hc hp.not_isChild

theorem mono {C' : NodeId → Prop} (h : t.Inlined C t') (hC : ∀ n, C n → C' n) :
    t.Inlined C' t' := by
  refine ⟨h.outline, fun pos hw => ?_⟩
  rcases h.place pos hw with hsame | ⟨n, m, hn, hCn, hm, hliteral, hout⟩
  · exact .inl hsame
  · exact .inr ⟨n, m, hn, hC n hCn, hm, hliteral, hout⟩

/-- Nodes that could be reached are of the type they were of. -/
theorem type (h : t.Inlined C t') (hn : t.Reachable n) : t'.type? n = t.type? n := by
  have houtline := congrArg (Option.map NodeKind.type) (h.outline n hn)
  simpa only [Option.map_map, Function.comp_def, NodeKind.type_outline, map_type_kind?] using houtline

end Inlined

/-- What is in a node that can be reached can be reached. -/
theorem Reachable.contains (hn : t.Reachable n) (h : t.Contains n m) : t.Reachable m := by
  induction h with
  | refl => exact hn
  | tail _ hc ih => exact .child ih hc

/-! ### The same place in both trees -/

/-- The node stands in the second tree where the other one stands in the first. -/
def StandsFor (t t' : Tree) (m n : NodeId) : Prop :=
  ∃ pos : Position, pos.Within t.reachable ∧ t.occupant? pos = some n ∧ t'.occupant? pos = some m

theorem StandsFor.reachable (h : t.StandsFor t' m n) : t.Reachable n := by
  obtain ⟨pos, hw, hn, -⟩ := h
  cases hpos : pos.parent? with
  | none =>
    cases pos with
    | root => exact .root hn
    | slot | item => cases hpos
  | some p => exact .child (hw p hpos) ⟨pos, hpos, hn⟩

namespace Inlined

variable {a a' b l l' n' p : NodeId} {pos : Position} {K : Set NodeId}

theorem standsFor_of_occupant (h : t.Inlined C t') (hw : pos.Within t.reachable)
    (hm : t'.occupant? pos = some m) : ∃ n, t.occupant? pos = some n ∧ t.StandsFor t' m n := by
  rcases h.place pos hw with hsame | ⟨n, -, hn, -⟩
  · exact ⟨m, hsame.symm.trans hm, pos, hw, hsame.symm.trans hm, hm⟩
  · exact ⟨n, hn, pos, hw, hn, hm⟩

theorem standsFor_root (h : t.Inlined C t') (hm : t'.root = some m) :
    ∃ n, t.root = some n ∧ t.StandsFor t' m n :=
  h.standsFor_of_occupant (Position.within_root _) hm

/-- What stands for a node is the node itself or a new literal. -/
theorem eq_or_isLiteral (h : t.Inlined C t') (hst : t.StandsFor t' m n) :
    m = n ∨ C n ∧ t'.IsLiteral m := by
  obtain ⟨pos, hw, hn, hm⟩ := hst
  rcases h.place pos hw with hsame | ⟨n', m', hn', hC, hm', hliteral, -⟩
  · exact .inl (Option.some.inj (hm.symm.trans (hsame.trans hn)))
  · obtain rfl := Option.some.inj (hn.symm.trans hn')
    obtain rfl := Option.some.inj (hm.symm.trans hm')
    exact .inr ⟨hC, hliteral⟩

/-- What can be reached and has children stands for itself. -/
theorem standsFor_parent (h : t.Inlined C t') (hp : t'.Reachable p) (hc : t'.IsChild p m) :
    t.StandsFor t' p p := by
  obtain ⟨pos, hw, hocc⟩ : ∃ pos : Position, pos.Within t.reachable ∧ t'.occupant? pos = some p := by
    cases hp with
    | root hr => exact ⟨.root, Position.within_root _, hr⟩
    | child hq hqp =>
      obtain ⟨pos, hpos, hocc⟩ := id hqp
      exact ⟨pos, Position.within_of_parent hpos
        ((h.reachable hq).resolve_right fun hliteral => hliteral.not_isChild hqp), hocc⟩
  obtain ⟨n, -, hst⟩ := h.standsFor_of_occupant hw hocc
  rcases h.eq_or_isLiteral hst with rfl | ⟨-, hliteral⟩
  · exact hst
  · exact absurd hc hliteral.not_isChild

/-- Whatever can be reached stands for a node. -/
theorem exists_standsFor (h : t.Inlined C t') (hm : t'.Reachable m) :
    ∃ n, t.StandsFor t' m n := by
  cases hm with
  | root hr =>
    obtain ⟨n, hst⟩ := h.standsFor_root hr
    exact ⟨n, hst.2⟩
  | child hp hc =>
    obtain ⟨pos, hpos, hocc⟩ := id hc
    obtain ⟨n, -, hst⟩ := h.standsFor_of_occupant
      (Position.within_of_parent hpos (h.standsFor_parent hp hc).reachable) hocc
    exact ⟨n, hst⟩

/-- The children stand for children. -/
theorem exists_isChild (h : t.Inlined C t') (hp : t'.Reachable p) (hc : t'.IsChild p m) :
    ∃ n, t.StandsFor t' m n ∧ t.IsChild p n := by
  obtain ⟨pos, hpos, hocc⟩ := id hc
  obtain ⟨n, hn, hst⟩ := h.standsFor_of_occupant
    (Position.within_of_parent hpos (h.standsFor_parent hp hc).reachable) hocc
  exact ⟨n, hst, pos, hpos, hn⟩

section Forests

variable (h : t.Inlined C t') (hF' : t'.Forest K) (hK : t.reachable ⊆ K)

include hF' hK in
theorem standsFor_unique (hst : t.StandsFor t' m n) (hst' : t.StandsFor t' m n') : n = n' := by
  obtain ⟨pos, hw, hn, hm⟩ := hst
  obtain ⟨pos', hw', hn', hm'⟩ := hst'
  obtain rfl := hF'.single pos pos' m (Position.within_mono hK hw) (Position.within_mono hK hw') hm
    hm'
  exact Option.some.inj (hn.symm.trans hn')

include h hF' hK

/-- What stands in a node stands for something in the node. -/
theorem contains (hdown : t'.Contains a m) (ha : t'.Reachable a) (hst : t.StandsFor t' a a')
    (hst' : t.StandsFor t' m n) : t.Contains a' n := by
  induction hdown generalizing n with
  | refl => exact standsFor_unique hF' hK hst hst' ▸ .refl
  | @tail q m hdown hc ih =>
    have hq := ha.contains hdown
    obtain ⟨n', hst'', hc'⟩ := h.exists_isChild hq hc
    obtain rfl := standsFor_unique hF' hK hst' hst''
    exact .tail (ih (h.standsFor_parent hq hc)) hc'

/-- Nodes side by side stand for nodes in the same order. -/
theorem precedes (hp : t'.Precedes l m) (hl : t.StandsFor t' l l') (hm : t.StandsFor t' m n) :
    t.Precedes l' n := by
  cases hp with
  | @fork c a b type pos pos' hc htype hpos hpos' hearlier ha hb hal hbm =>
    have hreach := (h.standsFor_parent hc ⟨pos, hpos, ha⟩).reachable
    obtain ⟨a', ha', hst⟩ := h.standsFor_of_occupant (Position.within_of_parent hpos hreach) ha
    obtain ⟨b', hb', hst'⟩ := h.standsFor_of_occupant (Position.within_of_parent hpos' hreach) hb
    exact .fork hreach ((h.type hreach).symm.trans htype) hpos hpos' hearlier ha' hb'
      (h.contains hF' hK hal (.child hc ⟨pos, hpos, ha⟩) hst hl)
      (h.contains hF' hK hbm (.child hc ⟨pos', hpos', hb⟩) hst' hm)

/-- What stands for a node runs in the function that the node runs in. -/
theorem runsIn (hF : t.Forest t.reachable) (hC : ∀ n, C n → t.IsIdentifier n)
    (hrun : t.RunsIn n b) (hst : t.StandsFor t' m n) (hm : t'.Reachable m) : t'.RunsIn m b := by
  induction hrun generalizing m with
  | @here n type htype hfunction =>
    rcases h.eq_or_isLiteral hst with rfl | ⟨hCn, -⟩
    · exact .here ((h.type hst.reachable).trans htype) hfunction
    · obtain ⟨x, declared, hk⟩ := hC n hCn
      obtain rfl := Option.some.inj (htype.symm.trans (Tree.type?_of_kind hk))
      cases hfunction
  | @up n q b type htype hplain hq hc _ ih =>
    obtain ⟨type', htype', hplain'⟩ : ∃ type', t'.type? m = some type' ∧
        (type'.isFunction || type' == .program) = false := by
      rcases h.eq_or_isLiteral hst with rfl | ⟨-, k, hk, hliteral⟩
      · exact ⟨type, (h.type hst.reachable).trans htype, hplain⟩
      · obtain ⟨hfunction, hprogram⟩ := NodeType.isLiteral_not_function hliteral
        exact ⟨k.type, Tree.type?_of_kind hk, by rw [hfunction, hprogram]; rfl⟩
    obtain ⟨pos, hpos, hn⟩ := hc
    cases hm with
    | root hr =>
      -- The root is a child of nothing.
      obtain ⟨n', hn', hst'⟩ := h.standsFor_root hr
      obtain rfl := standsFor_unique hF' hK hst hst'
      obtain rfl := hF.single pos .root n (Position.within_of_parent hpos hq)
        (Position.within_root _) hn hn'
      cases hpos
    | child hp hc' =>
      obtain ⟨n', hst', hc⟩ := h.exists_isChild hp hc'
      obtain rfl := standsFor_unique hF' hK hst hst'
      have hself := h.standsFor_parent hp hc'
      obtain rfl := hF.parent_unique hq hself.reachable ⟨pos, hpos, hn⟩ hc
      exact .up htype' hplain' hp hc' (ih hself hp)

end Forests

end Inlined

end Tree

/-! ## Constants -/

/-- The variable is declared with `var`, `let` or `const` and never assigned again. -/
def Binding.IsFixed (v : Binding) : Prop :=
  v.isConstant = true ∧ (v.kind = .var ∨ v.kind = .letVar ∨ v.kind = .const)

/-- From the node the name leads to a constant, as far as the scopes of the session know. -/
def Session.LeadsToFixed (s : Session) (n : NodeId) (x : String) : Prop :=
  ∃ b i v, s.tree.ScopeAt n b ∧ s.scopes.byBlock.get? b = some i ∧
    i.binding? x s = .ok (some v) s ∧ v.IsFixed

/-- The node is an identifier that is read as a value and leads to a constant. -/
def Session.ReadsConstant (s : Session) (n : NodeId) : Prop :=
  ∃ x, s.tree.Reads n x ∧ s.LeadsToFixed n x

theorem Session.ReadsConstant.isIdentifier {s : Session} {n : NodeId} (h : s.ReadsConstant n) :
    s.tree.IsIdentifier n := by
  obtain ⟨x, ⟨⟨declared, hk⟩, -⟩, -⟩ := h
  exact ⟨x, declared, hk⟩

/-- The rule finds a literal for the read, in a session with literals in the place of some reads of
constants: the literal that stands for the node `l`. -/
def Session.Supplies (s₀ : Session) (l n : NodeId) : Prop :=
  ∃ (s s' : Session) (p : PathId) (v : Binding) (literal : NodeId),
    s₀.tree.Inlined s₀.ReadsConstant s.tree ∧ s.Holds p n ∧ p.binding? s = .ok (some v) s ∧
      Rule.inlinableLiteral? p v s = .ok (some literal) s' ∧ s.tree.IsLiteral literal ∧
        s₀.tree.StandsFor s.tree literal l

/-- The node is a read of a constant for which the rule finds a literal, and the literal comes before
the read if both are in one function. -/
def Session.Inlinable (s₀ : Session) (n : NodeId) : Prop :=
  s₀.ReadsConstant n ∧ ∃ l, s₀.Supplies l n ∧
    ∀ b, s₀.tree.RunsIn l b → s₀.tree.RunsIn n b → s₀.tree.Precedes l n

/-- What supplies a literal is one, or a read of a constant that gave way to one before. -/
theorem Session.Supplies.isLiteral_or_readsConstant {s₀ : Session} {l n : NodeId}
    (h : s₀.Supplies l n) : s₀.tree.IsLiteral l ∨ s₀.ReadsConstant l := by
  obtain ⟨s, -, -, -, literal, hinlined, -, -, -, hliteral, hst⟩ := h
  rcases hinlined.eq_or_isLiteral hst with rfl | ⟨hread, -⟩
  · refine .inl (hliteral.of_type ?_)
    rw [Tree.map_type_kind?, Tree.map_type_kind?, hinlined.type hst.reachable]
  · exact .inr hread

section Lookup

variable {s s' : Session} {K : Set NodeId} {i j : ScopeId} {x y : String} {v : Binding}
  {n : NodeId}

/-- A name is looked up without a change of the session. -/
theorem ScopeId.binding?_run (ho : s.scopes.Ordered) (hi : s.HasScope i) (x : String) :
    ∃ o, i.binding? x s = .ok o s ∧ ∀ v, o = some v ↔ ∃ (j : ScopeId) (sc : Scope),
      s.Finds x i (some j) ∧ s.scopes.scopes[j.index]? = some sc ∧ sc.bindings.get? x = some v := by
  obtain ⟨o, hrun, hfinds⟩ := ScopeId.bindingScope?_run ho hi x
  unfold ScopeId.binding?
  rw [bind_of_ok hrun]
  cases o with
  | none =>
    refine ⟨none, rfl, fun v => ⟨fun h => (by cases h), ?_⟩⟩
    rintro ⟨j, sc, hj, -⟩
    cases hfinds.unique hj
  | some j =>
    obtain ⟨sc, hsc, -⟩ := hfinds.binds
    refine ⟨sc.bindings.get? x, bind_of_ok (ScopeId.data_run hsc), fun v => ⟨fun hv => ?_, ?_⟩⟩
    · exact ⟨j, sc, hfinds, hsc, hv⟩
    · rintro ⟨j', sc', hj', hsc', hv⟩
      obtain rfl := Option.some.inj (hfinds.unique hj')
      obtain rfl := Option.some.inj (hsc.symm.trans hsc')
      exact hv

theorem Session.leadsToFixed_iff (ho : s.scopes.Ordered) : s.LeadsToFixed n x ↔
    ∃ (b : NodeId) (i j : ScopeId) (sc : Scope) (v : Binding), s.tree.ScopeAt n b ∧
      s.scopes.byBlock.get? b = some i ∧ s.Finds x i (some j) ∧
      s.scopes.scopes[j.index]? = some sc ∧ sc.bindings.get? x = some v ∧ v.IsFixed := by
  constructor
  · rintro ⟨b, i, v, hb, hi, hrun, hv⟩
    obtain ⟨o, hrun', ho'⟩ := ScopeId.binding?_run ho (ho.byBlock b i hi) x
    obtain ⟨rfl, -⟩ := EStateM.Result.ok.inj (hrun.symm.trans hrun')
    obtain ⟨j, sc, hj, hsc, hget⟩ := (ho' v).mp rfl
    exact ⟨b, i, j, sc, v, hb, hi, hj, hsc, hget, hv⟩
  · rintro ⟨b, i, j, sc, v, hb, hi, hj, hsc, hget, hv⟩
    obtain ⟨o, hrun, ho'⟩ := ScopeId.binding?_run ho (ho.byBlock b i hi) x
    obtain rfl := (ho' v).mpr ⟨j, sc, hj, hsc, hget⟩
    exact ⟨b, i, v, hb, hi, hrun, hv⟩

/-- Where a name leads is a question about the scopes only. -/
theorem Session.Finds.of_scopes {o : Option ScopeId} (h : s.Finds x i o)
    (hs : s'.scopes = s.scopes) : s'.Finds x i o := by
  have hb : ∀ j, s'.Binds j x ↔ s.Binds j x := fun j => by simp only [Session.Binds, hs]
  induction h with
  | here hx => exact .here ((hb _).mpr hx)
  | nowhere hx hout =>
    exact .nowhere (fun hx' => hx ((hb _).mp hx')) (by unfold IsOutermost; rwa [hs])
  | outer hx ha _ ih =>
    exact .outer (fun hx' => hx ((hb _).mp hx')) (by unfold Around; rwa [hs]) ih

/-- Another tree, in which the node is in the same scope. -/
theorem Session.LeadsToFixed.of_scopes (h : s'.LeadsToFixed n x) (ho : s.scopes.Ordered)
    (hs : s'.scopes = s.scopes) (hb : ∀ b, s'.tree.ScopeAt n b → s.tree.ScopeAt n b) :
    s.LeadsToFixed n x := by
  obtain ⟨b, i, j, sc, v, hn, hi, hj, hsc, hget, hv⟩ := (leadsToFixed_iff (hs ▸ ho)).mp h
  exact (leadsToFixed_iff ho).mpr ⟨b, i, j, sc, v, hb b hn, hs ▸ hi, hj.of_scopes hs.symm, hs ▸ hsc,
    hget, hv⟩

/-- A read that is forgotten at a binding makes no variable a constant. -/
theorem Session.LeadsToFixed.of_dereference {p : PathId} (ho : s.scopes.Ordered)
    (h : (s.mapScope j fun sc => sc.mapBinding y fun b => b.dereference p).LeadsToFixed n x) :
    s.LeadsToFixed n x := by
  have hplace : ∀ sc : Scope, (sc.mapBinding y fun b => b.dereference p).place = sc.place :=
    fun _ => rfl
  have hbinds : ∀ i z, (s.mapScope j fun sc => sc.mapBinding y fun b => b.dereference p).Binds i z ↔
      s.Binds i z := by
    intro i z
    unfold Session.Binds
    rw [getElem?_mapScope]
    split
    · cases s.scopes.scopes[i.index]? with
      | none => simp
      | some sc => simp [Scope.contains_mapBinding]
    · rfl
  obtain ⟨b, i, k, sc, v, hn, hi, hk, hsc, hget, hv⟩ :=
    (leadsToFixed_iff (ordered_mapScope ho j hplace)).mp h
  have hk := ((redraws_mapScope s j hplace).finds_iff hbinds x i (some k)).mp hk
  rw [getElem?_mapScope] at hsc
  split at hsc
  · obtain ⟨sc₀, hsc₀, rfl⟩ := Option.map_eq_some_iff.mp hsc
    rw [Scope.get?_mapBinding] at hget
    split at hget
    · obtain ⟨v₀, hget₀, rfl⟩ := Option.map_eq_some_iff.mp hget
      exact (leadsToFixed_iff ho).mpr ⟨b, i, k, sc₀, v₀, hn, hi, hk, hsc₀, hget₀, hv⟩
    · exact (leadsToFixed_iff ho).mpr ⟨b, i, k, sc₀, v, hn, hi, hk, hsc₀, hget, hv⟩
  · exact (leadsToFixed_iff ho).mpr ⟨b, i, k, sc, v, hn, hi, hk, hsc, hget, hv⟩

end Lookup

/-! ## A leaf in the place of a leaf -/

/-- Whether a node opens a scope is seen from its type and from those of the nodes around it. -/
theorem Tree.opens_of {t t' : Tree} {b : NodeId} (htype : ∀ m, t'.type? m = t.type? m)
    (hparent : ∀ q, t.Reachable q → t.IsChild q b → t'.Reachable q ∧ t'.IsChild q b)
    (h : t'.Opens b) : t.Opens b := by
  obtain ⟨k, hk, hscopable, hbody⟩ := h
  obtain ⟨k', hk', hkt⟩ := kind_of_type? ((htype b).symm.trans (type?_of_kind hk))
  refine ⟨k', hk', hkt ▸ hscopable, fun hblock q kq hq hc hkq => ?_⟩
  obtain ⟨hq', hc'⟩ := hparent q hq hc
  obtain ⟨kq', hkq', hqt⟩ := kind_of_type? ((htype q).trans (type?_of_kind hkq))
  rw [← hqt]
  exact hbody (hkt ▸ hblock) q kq' hq' hc' hkq'

namespace Tree.Replanted

variable {t t' : Tree} {pos : Position} {n new m b c : NodeId}

section Leaf

variable (h : t.Replanted pos new t') (hocc : t.occupant? pos = some n)
  (hold : ∀ c, ¬ t.IsChild n c) (hnew : ∀ c, ¬ t'.IsChild new c)

include h in
theorem isChild_before (hc : t'.IsChild m c) (hne : c ≠ new) : t.IsChild m c := by
  obtain ⟨pos', hpos, hc⟩ := hc
  refine ⟨pos', hpos, (h.other pos' ?_).symm.trans hc⟩
  rintro rfl
  exact hne (Option.some.inj (hc.symm.trans h.here))

include h hocc in
theorem isChild_after (hc : t.IsChild m c) (hne : c ≠ n) : t'.IsChild m c := by
  obtain ⟨pos', hpos, hc⟩ := hc
  refine ⟨pos', hpos, (h.other pos' ?_).trans hc⟩
  rintro rfl
  exact hne (Option.some.inj (hc.symm.trans hocc))

include h hnew in
theorem reachable_before (hm : t'.Reachable m) (hne : m ≠ new) : t.Reachable m := by
  induction hm with
  | @root r hr =>
    refine .root ((h.other .root ?_).symm.trans hr)
    rintro rfl
    exact hne (Option.some.inj (hr.symm.trans h.here))
  | @child q m _ hc ih =>
    have hq : q ≠ new := by
      rintro rfl
      exact hnew m hc
    exact .child (ih hq) (h.isChild_before hc hne)

include h hocc in
/-- Whatever has a child had one before. -/
theorem exists_isChild_before (hc : t'.IsChild m c) : ∃ d, t.IsChild m d := by
  obtain ⟨pos', hpos, hc⟩ := hc
  by_cases hne : pos' = pos
  · exact ⟨n, pos', hpos, hne ▸ hocc⟩
  · exact ⟨c, pos', hpos, (h.other pos' hne).symm.trans hc⟩

include h hocc hold in
theorem reachable_after (hm : t.Reachable m) (hne : m ≠ n) : t'.Reachable m := by
  induction hm with
  | @root r hr =>
    refine .root ((h.other .root ?_).trans hr)
    rintro rfl
    exact hne (Option.some.inj (hr.symm.trans hocc))
  | @child q m _ hc ih =>
    have hq : q ≠ n := by
      rintro rfl
      exact hold m hc
    exact .child (ih hq) (h.isChild_after hocc hc hne)

include h hocc hold hnew in
theorem opens_iff (hn : b ≠ n) (hne : b ≠ new) : t'.Opens b ↔ t.Opens b := by
  have htype : ∀ m, t'.type? m = t.type? m := fun m => by
    rw [← map_type_kind?, h.type, map_type_kind?]
  refine ⟨opens_of htype fun q hq hc => ?_, opens_of (fun m => (htype m).symm) fun q hq hc => ?_⟩
  · have hqn : q ≠ n := by
      rintro rfl
      exact hold b hc
    exact ⟨h.reachable_after hocc hold hq hqn, h.isChild_after hocc hc hn⟩
  · have hqn : q ≠ new := by
      rintro rfl
      exact hnew b hc
    exact ⟨h.reachable_before hnew hq hqn, h.isChild_before hc hne⟩

include h hocc hold hnew in
/-- The scopes of all other nodes stay the same. -/
theorem inScope_before (hb : t'.InScope m b) (hne : m ≠ new) : t.InScope m b := by
  have hq : ∀ {q c}, t'.IsChild q c → c ≠ new → q ≠ new ∧ q ≠ n := by
    intro q c hc hne
    constructor
    · rintro rfl
      exact hnew c hc
    · rintro rfl
      exact hold c (h.isChild_before hc hne)
  induction hb with
  | here hp hc ho =>
    obtain ⟨hpnew, hpn⟩ := hq hc hne
    exact .here (h.reachable_before hnew hp hpnew) (h.isChild_before hc hne)
      ((h.opens_iff hocc hold hnew hpn hpnew).mp ho)
  | up hp hc ho _ ih =>
    obtain ⟨hpnew, hpn⟩ := hq hc hne
    exact .up (h.reachable_before hnew hp hpnew) (h.isChild_before hc hne)
      (fun ho' => ho ((h.opens_iff hocc hold hnew hpn hpnew).mpr ho')) (ih hpnew)

end Leaf

end Tree.Replanted

/-- A literal takes the place of one more node with the property. -/
theorem Tree.Inlined.replanted {t₀ t t' : Tree} {C : NodeId → Prop} {pos : Position} {n new : NodeId}
    (h : t₀.Inlined C t) (hocc : t.occupant? pos = some n) (hid : t.IsIdentifier n) (hC : C n)
    (hliteral : t'.IsLiteral new) (hout : ¬ t₀.Reachable new) (ht : t.Replanted pos new t') :
    t₀.Inlined C t' := by
  refine ⟨fun m hm => (ht.outline m).trans (h.outline m hm), fun pos' hw => ?_⟩
  by_cases hpos : pos' = pos
  · subst hpos
    refine .inr ⟨n, new, ?_, hC, ht.here, hliteral, hout⟩
    rcases h.place pos' hw with heq | ⟨-, m, -, -, hm, hm', -⟩
    · exact heq.symm.trans hocc
    · obtain rfl := Option.some.inj (hm.symm.trans hocc)
      exact absurd hm' hid.not_isLiteral
  · rw [ht.other pos' hpos]
    rcases h.place pos' hw with heq | ⟨a, m, ha, hCa, hm, hm', hout'⟩
    · exact .inl heq
    · exact .inr ⟨a, m, ha, hCa, hm, hm'.of_type (ht.type m), hout'⟩

/-! ## What a run keeps -/

namespace NodeKind

theorem outline_eq_identifier_iff {k : NodeKind} {x : String} {declared : Option ValueType} :
    k.outline = .identifier x declared ↔ k = .identifier x declared := by
  cases k <;> simp [outline, mapFields]

end NodeKind

theorem Tree.kind?_identifier_iff {t t' : Tree} {n : NodeId} {x : String}
    {declared : Option ValueType}
    (h : (t'.kind? n).map NodeKind.outline = (t.kind? n).map NodeKind.outline) :
    t'.kind? n = some (.identifier x declared) ↔ t.kind? n = some (.identifier x declared) := by
  have hiff : ∀ u : Tree, u.kind? n = some (.identifier x declared) ↔
      (u.kind? n).map NodeKind.outline = some (.identifier x declared) := by
    intro u
    cases u.kind? n <;> simp [NodeKind.outline_eq_identifier_iff]
  rw [hiff, hiff, h]

namespace Session

/-- The nodes, the tree and the scopes of a run that began in the first session. Every block has its
scope. Literals are the only nodes that came into the tree, each in the place of a read of a
constant that it comes after, and no name leads to a constant that did not do so at first. -/
structure Inlines (s₀ : Session) (K : Set NodeId) (t : Tree) (T : ScopeTable) : Prop where
  inlined : s₀.tree.Inlined s₀.Inlinable t
  old : ∀ n, s₀.tree.Reachable n → n ∈ K
  crawled : T.crawled = true
  blocks : ∀ b, t.Reachable b → t.Opens b → ∃ i, T.byBlock.get? b = some i
  parents : ∀ m n, m ∈ K → t.IsChild m n → t.Reachable m
  fixed : ∀ n x, t.Reachable n → t.IsIdentifier n →
    LeadsToFixed { tree := t, scopes := T } n x → s₀.LeadsToFixed n x

namespace Inlines

variable {s₀ : Session} {K : Set NodeId} {t t' : Tree} {T : ScopeTable} {pos : Position}
  {n new : NodeId}

theorem charted {s : Session} (h : s₀.Inlines K s.tree s.scopes) (hs : s.Rooted K) :
    s.Charted K :=
  ⟨hs, h.crawled, h.blocks, h.parents⟩

/-- New nodes do not count. -/
theorem grown (h : s₀.Inlines K t T) (hF : t.Forest K) (ho : T.Ordered) (hg : t.Grown t') :
    s₀.Inlines K t' T where
  inlined := by
    refine ⟨fun n hn => ?_, fun pos hw => ?_⟩
    · obtain ⟨k, hk⟩ := hF.kind n (h.old n hn)
      rw [← h.inlined.outline n hn, hk, hg.kind hk]
    · rw [hg.occupant? hF (Position.within_mono h.old hw)]
      rcases h.inlined.place pos hw with hsame | ⟨n, m, hn, hread, hm, ⟨k, hk, hliteral⟩, hout⟩
      · exact .inl hsame
      · exact .inr ⟨n, m, hn, hread, hm, ⟨k, hg.kind hk, hliteral⟩, hout⟩
  old := h.old
  crawled := h.crawled
  blocks b hb hopens := by
    rw [hg.reachable_iff hF] at hb
    exact h.blocks b hb ((hg.opens_iff hF hb).mp hopens)
  parents m n hm hc := by
    rw [hg.reachable_iff hF]
    exact h.parents m n hm ((hg.isChild_iff hF hm).mp hc)
  fixed n x hn hid hleads := by
    rw [hg.reachable_iff hF] at hn
    obtain ⟨k, hk⟩ := hF.kind n (hF.mem_of_reachable hn)
    obtain ⟨y, declared, hk'⟩ := hid
    obtain rfl := Option.some.inj ((hg.kind hk).symm.trans hk')
    exact h.fixed n x hn ⟨y, declared, hk⟩
      (hleads.of_scopes (s := { tree := t, scopes := T }) ho rfl fun b hb =>
        (hg.scopeAt_iff hF hn).mp hb)

/-- A literal takes the place of a read of a constant. -/
theorem replaced (h : s₀.Inlines K t T) (hF : t.Forest K) (ho : T.Ordered)
    (hloose : t.Loose K [new]) (hw : pos.Within K) (hocc : t.occupant? pos = some n)
    (hread : s₀.Inlinable n) (hid : t.IsIdentifier n) (hliteral : t.IsLiteral new)
    (ht : t.Replanted pos new t') : s₀.Inlines (K ∪ t.below [new]) t' T := by
  have hnew : t'.IsLiteral new := hliteral.of_type (ht.type new)
  have hleaf : ∀ c, ¬ t'.IsChild new c := fun c => hnew.not_isChild
  have hold : ∀ c, ¬ t.IsChild n c := fun c => hid.not_isChild
  have hnewK : new ∉ K := hloose.not_mem (by simp)
  have hgone : ¬ t'.Reachable n := ht.not_reachable hF hloose hw hocc
  have hsame : ∀ {m}, t'.Reachable m → ¬ t'.IsLiteral m → m ≠ new ∧ m ≠ n ∧ t.Reachable m := by
    intro m hm hplain
    have hne : m ≠ new := by
      rintro rfl
      exact hplain hnew
    refine ⟨hne, ?_, ht.reachable_before hleaf hm hne⟩
    rintro rfl
    exact hgone hm
  refine ⟨h.inlined.replanted hocc hid hread hnew (fun hr => hnewK (h.old new hr)) ht,
    fun m hm => .inl (h.old m hm), h.crawled, fun b hb hopens => ?_, fun m c hm hc => ?_,
    fun m x hm hm' hleads => ?_⟩
  · have hplain : ¬ t'.IsLiteral b := by
      rintro ⟨k, hk, hl⟩
      obtain ⟨k', hk', hscopable, -⟩ := hopens
      obtain rfl := Option.some.inj (hk.symm.trans hk')
      exact Bool.false_ne_true ((NodeType.isLiteral_not_scopable hl).symm.trans hscopable)
    obtain ⟨hne, hbn, hb⟩ := hsame hb hplain
    exact h.blocks b hb ((ht.opens_iff hocc hold hleaf hbn hne).mp hopens)
  · -- Whatever has a child in the new tree had one before.
    have hmn : m ≠ new := by
      rintro rfl
      exact hleaf c hc
    have hmK : m ∈ K := by
      refine hm.resolve_right fun hb => hmn ?_
      obtain ⟨k, hk, hl⟩ := hliteral
      exact Tree.eq_of_mem_below_leaf hk (NodeKind.children_of_isLiteral hl) hb
    obtain ⟨d, hd⟩ := ht.exists_isChild_before hocc hc
    have hne : m ≠ n := by
      rintro rfl
      exact hold d hd
    exact ht.reachable_after hocc hold (h.parents m d hmK hd) hne
  · obtain ⟨y, declared, hk⟩ := hm'
    obtain ⟨hne, hmn, hm⟩ := hsame hm (Tree.IsIdentifier.not_isLiteral ⟨y, declared, hk⟩)
    have hidm : t.IsIdentifier m := ⟨y, declared, (Tree.kind?_identifier_iff (ht.outline m)).mp hk⟩
    refine h.fixed m x hm hidm
      (hleads.of_scopes (s := { tree := t, scopes := T }) ho rfl fun b hb => ?_)
    rcases hb with ⟨ho, rfl⟩ | ⟨ho, hin⟩
    · exact .inl ⟨(ht.opens_iff hocc hold hleaf hmn hne).mp ho, rfl⟩
    · exact .inr ⟨fun ho' => ho ((ht.opens_iff hocc hold hleaf hmn hne).mpr ho'),
        ht.inScope_before hocc hold hleaf hin hne⟩

/-- A read is forgotten. -/
theorem dereferenced (h : s₀.Inlines K t T) (ho : T.Ordered) {s : Session} (hT : s.scopes = T)
    (j : ScopeId) (y : String) (p : PathId) :
    s₀.Inlines K t (s.mapScope j fun sc => sc.mapBinding y fun b => b.dereference p).scopes := by
  subst hT
  exact { h with
    fixed := fun n x hn hid hleads => h.fixed n x hn hid
      (LeadsToFixed.of_dereference (s := { tree := t, scopes := s.scopes }) ho hleads) }

end Inlines

end Session

/-! ## What the rule does -/

/-- Which fields are read is a question about the outline, and for an export about its source. -/
theorem NodeKind.readsField_eq (k : NodeKind) (f : Field) : k.readsField f =
    (k.outline.readsField f && (k.type != .exportNamedDeclaration ||
      ((k.child? .source).bind Child.node?).isNone)) := by
  cases k <;> simp [readsField, outline, mapFields, NodeKind.type, child?, fields, Child.node?]

/-- What is read in a tree with literals was read before. -/
theorem Tree.Inlined.reads {t t' : Tree} {C : NodeId → Prop} {pos : Position} {n q : NodeId}
    {x : String} {declared : Option ValueType} {kq : NodeKind} {f : Field} (h : t.Inlined C t')
    (hq : t'.Reachable q) (hpos : pos.parent? = some q) (hfield : pos.field? = some f)
    (hocc : t'.occupant? pos = some n) (hk : t'.kind? n = some (.identifier x declared))
    (hkq : t'.kind? q = some kq) (hreads : kq.readsField f = true) : t.Reads n x := by
  have hid : t'.IsIdentifier n := ⟨x, declared, hk⟩
  have hq' : t.Reachable q := by
    refine (h.reachable hq).resolve_right fun hl => hl.not_isChild ⟨pos, hpos, hocc⟩
  have hw : pos.Within t.reachable := Position.within_of_parent hpos hq'
  have hocc' : t.occupant? pos = some n := by
    rcases h.place pos hw with hsame | ⟨-, m, -, -, hm, hliteral, -⟩
    · exact hsame.symm.trans hocc
    · obtain rfl := Option.some.inj (hm.symm.trans hocc)
      exact absurd hliteral hid.not_isLiteral
  have hn : t.Reachable n := .child hq' ⟨pos, hpos, hocc'⟩
  have houtline := h.outline q hq'
  rw [hkq, Option.map_some] at houtline
  obtain ⟨k, hkt, houtline⟩ := Option.map_eq_some_iff.mp houtline.symm
  have htype : k.type = kq.type := by
    rw [← k.type_outline, houtline, kq.type_outline]
  have hsource : ((k.child? .source).bind Child.node?).isNone =
      ((kq.child? .source).bind Child.node?).isNone := by
    have hoccupant : ∀ {u : Tree} {k : NodeKind}, u.kind? q = some k →
        u.occupant? (.slot q .source) = (k.child? .source).bind Child.node? := by
      intro u k hk
      simp only [Tree.occupant?, Tree.field?, hk, Option.bind_some]
    rw [← hoccupant hkt, ← hoccupant hkq]
    rcases h.place (.slot q .source) (Position.within_of_parent rfl hq') with
      hsame | ⟨a, m, ha, -, hm, -⟩
    · rw [hsame]
    · rw [ha, hm]
      rfl
  refine ⟨⟨declared, (kind?_identifier_iff (h.outline n hn)).mp hk⟩, pos, q, k, f, hpos, hfield,
    hocc', hq', hkt, ?_⟩
  rw [k.readsField_eq, houtline, htype, hsource, ← kq.readsField_eq]
  exact hreads

theorem NodeKind.fields_of_isLiteral {k : NodeKind} (h : k.type.isLiteral = true) :
    k.fields = [] := by
  cases k <;> first | rfl | cases h

/-- The copy of a node without children is one new node. -/
theorem TreeM.deepClone_leaf {t : Tree} {n : NodeId} {node : Node} (hn : t.node? n = some node)
    (hleaf : node.kind.fields = []) :
    (TreeM.deepClone n).run t = some (⟨t.size⟩, t.push node) := by
  have hcopy : (TreeM.copyWithin (t.size + 1 + 1) n).run t = some (⟨t.size⟩, t.push node) := by
    rw [TreeM.copyWithin]
    show ((TreeM.node n).run t).bind _ = _
    rw [show (TreeM.node n).run t = some (node, t) by simp [TreeM.node, hn]]
    simp only [Option.bind_some, hleaf]
    rfl
  exact hcopy

namespace Searching

theorem inlinableLiteral? (p : PathId) (binding : Binding) :
    Searching (Rule.inlinableLiteral? p binding) := by
  unfold Rule.inlinableLiteral?
  refine .ite (.pure _) ((resolve p false).bind fun value => .ite (.pure _) ?_)
  refine (Composed.isAny value _).bind fun v => .ite (.pure _) ?_
  refine (executesBefore value p).bind fun v => .ite ?_ (.pure _)
  exact Composed.node? value

end Searching

section Handler

variable {s s' : Session} {K : Set NodeId} {p : PathId} {n literal : NodeId}

/-- The literal that is found for a read is in the tree, and comes before the read if both are in one
function. The variable is never assigned again. -/
theorem Rule.inlinableLiteral?_found {binding : Binding} {x : String} {declared : Option ValueType}
    (h : s.Charted K) (hp : s.Holds p n) (hk : s.tree.kind? n = some (.identifier x declared))
    (hrun : Rule.inlinableLiteral? p binding s = .ok (some literal) s') :
    binding.IsFixed ∧ s.tree.IsLiteral literal ∧ s.tree.Reachable literal ∧
      ∀ b, s.tree.RunsIn literal b → s.tree.RunsIn n b → s.tree.Precedes literal n := by
  obtain ⟨hfixed, value, s₁, m, type, hvalue, hm, htype, hliteral, hbefore, hheld⟩ :=
    Rule.inlinableLiteral?_eq_ok hrun
  have h₁ := h.searching (.resolve p false) hvalue
  have hcharted := h.went h₁
  have h₂ := hcharted.searching (.executesBefore value p) hbefore
  obtain rfl := (h₂.grew.holds h₁.sound hm).unique_node hheld
  have hp₁ := h₁.grew.holds h.sound hp
  have hreach := hcharted.reachable hm
  have hn := hcharted.reachable hp₁
  rw [← h₁.tree] at hk ⊢
  obtain ⟨k, hkm, rfl⟩ := Tree.kind_of_type? htype
  exact ⟨hfixed, ⟨k, hkm, hliteral⟩, hreach, fun b hb hb' =>
    PathId.precedes_of_executesBefore h₁.sound hm hreach hp₁ hn htype
      (NodeType.isLiteral_not_function hliteral).1 (Tree.type?_of_kind hk) rfl hb hb' hbefore⟩

/-- A read of a constant is inlinable if the rule finds a literal for it in a tree in which some such
reads gave way to literals. -/
theorem Session.Inlines.inlinable {s₀ : Session} {binding : Binding} {x : String}
    {declared : Option ValueType} (h : s₀.Inlines K s.tree s.scopes)
    (hF : s₀.tree.Forest s₀.tree.reachable) (hs : s.Rooted K) (hp : s.Holds p n)
    (hk : s.tree.kind? n = some (.identifier x declared)) (hread : s₀.ReadsConstant n)
    (hbinding : p.binding? s = .ok (some binding) s)
    (hrun : Rule.inlinableLiteral? p binding s = .ok (some literal) s') : s₀.Inlinable n := by
  have hcharted := h.charted hs
  obtain ⟨-, hliteral, hreach, horder⟩ := Rule.inlinableLiteral?_found hcharted hp hk hrun
  have hn := hcharted.reachable hp
  obtain ⟨l, hl⟩ := h.inlined.exists_standsFor hreach
  -- The read itself is not replaced yet.
  obtain ⟨m, hm⟩ := h.inlined.exists_standsFor hn
  obtain rfl : n = m := (h.inlined.eq_or_isLiteral hm).resolve_right fun hgone =>
    Tree.IsIdentifier.not_isLiteral ⟨x, declared, hk⟩ hgone.2
  have hC : ∀ m, s₀.Inlinable m → s₀.tree.IsIdentifier m := fun m hm => hm.1.isIdentifier
  refine ⟨hread, l, ⟨s, s', p, binding, literal, h.inlined.mono fun m hm => hm.1, hp, hbinding, hrun,
    hliteral, hl⟩, fun b hb hb' => ?_⟩
  have hsub : s₀.tree.reachable ⊆ K := fun m hm => h.old m hm
  exact h.inlined.precedes hs.sound.forest hsub
    (horder b (h.inlined.runsIn hs.sound.forest hsub hF hC hb hl hreach)
      (h.inlined.runsIn hs.sound.forest hsub hF hC hb' hm hn)) hl hm

theorem Session.Rooted.aside_went (h : s.Rooted K) (hw : s.Went K s') : s.Aside K s' where
  rooted := h.surveys (hw.surveys h.ordered)
  grown := by rw [hw.tree]; exact .refl _
  known q d hd hc := by
    obtain ⟨d', hd', hkeeps⟩ := hw.grew.kept q d hd
    obtain ⟨heq, -⟩ := hkeeps.2 hc
    refine ⟨d', hd', ?_⟩
    unfold PathData.Recalls
    rw [heq]
  frames := by rw [hw.grew.rest]
  nextFrame := by rw [hw.grew.rest]
  config := by rw [hw.grew.rest]

/-- A run goes on after navigation. -/
theorem Session.Inlines.went {s₀ : Session} (h : s₀.Inlines K s.tree s.scopes)
    (hw : s.Went K s') : s₀.Inlines K s'.tree s'.scopes := by
  rw [hw.tree, hw.scopes]
  exact h

/-- A literal may take the place of an identifier. -/
theorem NodeType.suits_identifier {type : NodeType} (h : type.isLiteral = true) :
    NodeType.identifier.Suits type := by
  refine ⟨fun hprogram => (by cases hprogram), ?_, by simp [isStatement]⟩
  revert h
  cases type <;> decide

theorem NodeType.isLiteral_not_declaration {type : NodeType} (h : type.isLiteral = true) :
    type.isDeclaration = false := by
  revert h
  cases type <;> decide

/-- A copy of a literal is put in the place of an identifier that reads a constant. -/
theorem Session.Inlines.copied {s₀ r : Session} {L : Set NodeId} {x : String}
    {declared : Option ValueType} {kl : NodeKind} (h : s₀.Inlines K s.tree s.scopes)
    (hsteered : Steered p L r K s) (hs : s.Rooted K) (hp : s.Holds p n)
    (hn : s.tree.Reachable n) (hk : s.tree.kind? n = some (.identifier x declared))
    (hread : s₀.Inlinable n) (hkl : s.tree.kind? literal = some kl)
    (hl : kl.type.isLiteral = true)
    (hrun : (do p.replaceNode (← buildBelow [literal] (TreeM.deepClone literal))) s = .ok () s') :
    ∃ K', Steered p L r K' s' ∧ s'.Rooted K' ∧ s₀.Inlines K' s'.tree s'.scopes := by
  have hF := hs.sound.forest
  obtain ⟨node, hnode, rfl⟩ := Option.map_eq_some_iff.mp hkl
  -- The copy is a new node without children.
  have hgrown := Tree.Grown.push s.tree node
  have hs₁ := hs.aside_grown hgrown
  have h₁ := h.grown hF hs.ordered hgrown
  have hnew : (s.tree.push node).kind? ⟨s.tree.size⟩ = some node.kind := by
    simp [Tree.kind?, Tree.node?_push]
  have hout : (⟨s.tree.size⟩ : NodeId) ∉ K := fun hmem =>
    absurd (hF.index_lt_size hmem) (lt_irrefl _)
  have hloose : (s.tree.push node).Loose K [⟨s.tree.size⟩] :=
    .leaf hnew (NodeKind.children_of_isLiteral hl) hout
  have hreplace := (bind_of_ok (buildBelow_run
    (TreeM.deepClone_leaf hnode (NodeKind.fields_of_isLiteral hl)))).symm.trans hrun
  have hp₁ : Holds { s with tree := s.tree.push node } p n := hp
  have hn₁ : (s.tree.push node).Reachable n := (hgrown.reachable_iff hF).mpr hn
  have hk₁ := hgrown.kind hk
  have hsuits := NodeType.suits_identifier hl
  obtain ⟨pos, hocc, ⟨d, hf, -⟩, hr⟩ := (PathId.replaceWith_replaces hs₁.rooted hp₁ hn₁ hloose hk₁
    hnew hsuits).of_eq_ok hreplace
  obtain ⟨pos', d', hw, hf', -⟩ := hs₁.rooted.sound.files_of_holds hp₁
  obtain ⟨rfl, -⟩ := hf'.position_unique hf
  refine ⟨_, (hsteered.aside hs₁).replaced hp₁ hloose hk₁ hnew hsuits hreplace, hr.rooted, ?_⟩
  rw [hr.scopes fun k hk' => ?_]
  · exact h₁.replaced hs₁.rooted.sound.forest hs.ordered hloose hw hocc hread ⟨x, declared, hk₁⟩
      ⟨node.kind, hnew, hl⟩ hr.tree
  · obtain rfl := Option.some.inj (hnew.symm.trans hk')
    exact NodeType.isLiteral_not_declaration hl

/-- A binding is changed where it is found, or no binding is. -/
theorem ScopeId.modifyBinding_eq_ok {i : ScopeId} {x : String} {f : Binding → Binding} {v : Bool}
    (h : i.modifyBinding x f s = .ok v s') :
    s' = s ∨ ∃ j : ScopeId, s' = s.mapScope j fun sc => sc.mapBinding x f := by
  obtain ⟨o, s₁, ho, hrest⟩ := bind_eq_ok h
  obtain rfl := question_run (.bindingScope? i x) ho
  cases o with
  | none =>
    cases hrest
    exact .inl rfl
  | some j =>
    obtain ⟨_, s₂, hmodify, hdone⟩ := bind_eq_ok hrest
    cases hdone
    obtain ⟨sc, s₃, hdata, hwrite⟩ := bind_eq_ok hmodify
    obtain rfl := question_run (.scopeData j) hdata
    cases hwrite
    exact .inr ⟨j, rfl⟩

/-- A read is forgotten at a binding. -/
theorem Session.Inlines.forgotten {s₀ : Session} (h : s₀.Inlines K s.tree s.scopes)
    (hs : s.Rooted K) {i : ScopeId} {x : String} {v : Bool}
    (hrun : i.modifyBinding x (fun b => b.dereference p) s = .ok v s') :
    s.Aside K s' ∧ s₀.Inlines K s'.tree s'.scopes := by
  rcases ScopeId.modifyBinding_eq_ok hrun with rfl | ⟨j, rfl⟩
  · exact ⟨hs.aside_went (.refl hs.sound), h⟩
  · refine ⟨⟨hs.alike (s.alike_scopes _) rfl (ordered_mapScope hs.ordered j fun _ => rfl), .refl _,
      fun q d hd _ => ⟨d, hd, .refl d⟩, rfl, rfl, rfl⟩, h.dereferenced hs.ordered rfl j x p⟩

/-- The rule puts a literal in the place of an identifier that is read and leads to a constant, or
does nothing. -/
theorem Rule.inlineConstant_steers {s₀ : Session} (hF : s₀.tree.Forest s₀.tree.reachable)
    (hs : s.Rooted K) (h : s₀.Inlines K s.tree s.scopes) (hp : s.Holds p n) (hn : s.tree.Reachable n)
    (htype : s.tree.type? n = some .identifier) (hrun : Rule.inlineConstant p s = .ok () s') :
    ∃ K', Steered p K s K' s' ∧ s₀.Inlines K' s'.tree s'.scopes := by
  have hcharted := h.charted hs
  obtain ⟨x, declared, hk⟩ := Tree.isIdentifier_of_type htype
  obtain ⟨pos, hw, ⟨d, hf, -⟩, hocc⟩ := hs.sound.linked_of_reachable hp hn
  have hwK : pos.Within K :=
    Position.within_mono (fun m hm => hs.sound.forest.mem_of_reachable hm) hw
  obtain ⟨v, hasked, hv⟩ := PathId.isReferencedIdentifier_run_of_files hs.sound hf hwK hocc hk
  unfold Rule.inlineConstant at hrun
  rw [bind_of_ok hasked] at hrun
  cases v with
  | false =>
    cases hrun
    exact ⟨K, .refl, h⟩
  | true =>
    rw [if_pos rfl] at hrun
    obtain ⟨o, s₁, hbinding, hfound⟩ := bind_eq_ok hrun
    obtain ⟨b, i, hb, hi, hlookup⟩ := hcharted.binding?_run hp hk
    obtain rfl := question_run (.scopeBinding? i x) (hlookup.symm.trans hbinding)
    cases o with
    | none =>
      cases hfound
      exact ⟨K, .refl, h⟩
    | some binding =>
      obtain ⟨o, s₂, hvalue, hcopied⟩ := bind_eq_ok hfound
      have hwent := hcharted.searching (.inlinableLiteral? p binding) hvalue
      have haside := hs.aside_went hwent
      cases o with
      | none =>
        cases hcopied
        exact ⟨K, .aside .refl haside, h.went hwent⟩
      | some literal =>
        obtain ⟨hfixed, ⟨kl, hkl, hl⟩, -, -⟩ := Rule.inlinableLiteral?_found hcharted hp hk hvalue
        obtain ⟨q, kq, f, hq, hfield, hkq, hreads⟩ := hv.mp rfl
        have hread : s₀.ReadsConstant n :=
          ⟨x, h.inlined.reads (hw q hq) hq hfield hocc hk hkq hreads,
            h.fixed n x hn ⟨x, declared, hk⟩ (LeadsToFixed.of_scopes
              ⟨b, i, binding, hb, hi, hlookup.symm.trans hbinding, hfixed⟩ hs.ordered rfl
              fun _ hb => hb)⟩
        have hinlinable := h.inlinable hF hs hp hk hread hbinding hvalue
        dsimp only at hcopied
        rw [← bind_assoc] at hcopied
        obtain ⟨_, s₃, hput, hforget⟩ := bind_eq_ok hcopied
        obtain ⟨v, s₄, hderef, hdone⟩ := bind_eq_ok hforget
        cases hdone
        rw [← hwent.tree] at hn hk hkl
        obtain ⟨K', hsteered, hs₃, h₃⟩ := (h.went hwent).copied (.aside .refl haside) haside.rooted
          (hwent.grew.holds hs.sound hp) hn hk hinlinable hkl hl hput
        obtain ⟨haside', h'⟩ := h₃.forgotten hs₃ hderef
        exact ⟨K', hsteered.aside haside', h'⟩

end Handler

/-! ## Runs of the rule -/

namespace Session

variable {s : Session} {t : Tree}

/-- No walk is going on. -/
theorem Fresh.numbered (h : Fresh t s) : s.Numbered := by
  induction h with
  | @crawled config s₀ s hopen hrun =>
    have hbuilt : ∀ {s : Session}, s.Numbered → (after ensureScopes s).Numbered := fun hs =>
      (Steadying.charting .ensureScopes _ hs).numbered hs
    have hs₀ : s₀.Numbered := by
      unfold Session.open? at hopen
      have hempty : Numbered { tree := t, config } := fun f hf => by cases hf
      split at hopen
      · exact Except.ok.inj hopen ▸ hempty
      · dsimp only [EStateM.run] at hopen
        cases hrun₀ : ensureScopes { tree := t, config } with
        | ok u s' =>
          rw [hrun₀] at hopen
          rw [← Except.ok.inj hopen, ← after_of_ok hrun₀]
          exact hbuilt hempty
        | error e s' =>
          rw [hrun₀] at hopen
          cases hopen
    rw [← after_of_ok hrun]
    exact hbuilt hs₀
  | @moved s m h ih =>
    exact (Steadying.composed m.navigating (fun _ _ => Steadying.hop) _ ih).numbered ih
  | built h hgrown hsmall ih => exact ih

/-- A run may begin in a session that was only built and crawled. -/
theorem Fresh.inlines (ht : t.IsProgram) (hgrammar : t.Grammatical) (h : Fresh t s) :
    s.Inlines t.reachable s.tree s.scopes := by
  obtain ⟨hprudent, -, hcrawled, hblocks⟩ := h.settled ht hgrammar
  exact ⟨⟨fun _ _ => rfl, fun _ _ => .inl rfl⟩,
    fun n hn => (h.reachable_iff ht hgrammar n).mp hn, hcrawled, hblocks,
    fun m n hm _ => (h.reachable_iff ht hgrammar m).mpr hm,
    fun _ _ _ _ hleads => hleads.of_scopes hprudent.upright.ordered rfl fun _ hb => hb⟩

end Session

/-- The visitor of the rule steers, and puts literals nowhere but in the place of constants. -/
theorem Rule.constantInliner_steers {s₀ : Session} (hF : s₀.tree.Forest s₀.tree.reachable) :
    (Visitor.empty.on .enter (.type .identifier) fun p => Rule.inlineConstant p :
      Visitor σ).SteersWithin s₀.Inlines := by
  intro phase selector h hh p n type K w w' hrooted hJ hp hn htype hcovers hrun
  simp only [Visitor.on, Visitor.empty, List.nil_append, List.mem_singleton, Prod.mk.injEq] at hh
  obtain ⟨-, rfl, rfl⟩ := hh
  obtain rfl : NodeType.identifier = type := by simpa [Selector.covers] using hcovers
  obtain ⟨s', hinline, rfl⟩ := Walk.lift_eq_ok hrun
  exact Rule.inlineConstant_steers hF hrooted hJ hp hn htype hinline

section Run

variable {t : Tree} {w w' : Walk σ} {priority : Nat} {done : Traversal} (ht : t.IsProgram)
  (hgrammar : t.Grammatical) (hfresh : w.session.Fresh t)
  (hrun : Transformer.attempt (Rule.constantInliner priority).visitor w = .ok (.ok done) w')

include ht hgrammar hfresh hrun

/-- A run of the rule over a program whose scopes were built puts literals in the place of reads for
which it finds them, and changes nothing else. -/
theorem constantInliner_inlines : w.session.tree.Inlined w.session.Inlinable w'.session.tree := by
  have horderly := (hfresh.settled ht hgrammar).1.upright.toOrderly
  have hwalk : traverse (Visitor.empty.on .enter (.type .identifier) fun p =>
      Rule.inlineConstant p : Visitor σ) w = .ok done w' := by
    unfold Transformer.attempt Rule.constantInliner at hrun
    rw [run_pure_bind] at hrun
    split at hrun
    next done' w₁ hdone =>
      obtain ⟨hdone', rfl⟩ := EStateM.Result.ok.inj hrun
      rw [hdone, Except.ok.inj hdone']
    all_goals cases hrun
  obtain ⟨K, hend⟩ := (Rule.constantInliner_steers horderly.program.forest).kept horderly.rooted
    hfresh.numbered (hfresh.inlines ht hgrammar) hwalk
  exact hend.inlined

/-- Each node that gave way to a literal in a run of the rule is a read of a constant. What supplied
the literal comes before the read in a depth-first walk, if both are in one function, and so does a
declarator with it as its initial value. -/
theorem constantInliner_precedes {pos : Position} {n m : NodeId}
    (hw : pos.Within w.session.tree.reachable) (hn : w.session.tree.occupant? pos = some n)
    (hm : w'.session.tree.occupant? pos = some m) (hne : m ≠ n) :
    w.session.ReadsConstant n ∧ w'.session.tree.IsLiteral m ∧
      ∃ l, w.session.Supplies l n ∧ (w.session.tree.IsLiteral l ∨ w.session.ReadsConstant l) ∧
        ∀ b, w.session.tree.RunsIn l b → w.session.tree.RunsIn n b →
          w.session.tree.Precedes l n ∧ ∀ d id, w.session.tree.Reachable d →
            w.session.tree.kind? d = some (.variableDeclarator id (some l)) →
              w.session.tree.Precedes d n := by
  have hinlined := constantInliner_inlines ht hgrammar hfresh hrun
  have hprogram := (hfresh.settled ht hgrammar).1.upright.toOrderly.program
  obtain ⟨⟨hread, l, hl, horder⟩, hliteral⟩ :=
    (hinlined.eq_or_isLiteral ⟨pos, hw, hn, hm⟩).resolve_left hne
  refine ⟨hread, hliteral, l, hl, hl.isLiteral_or_readsConstant, fun b hb hb' => ?_⟩
  have hprecedes := horder b hb hb'
  exact ⟨hprecedes, fun d id hd hk => hprecedes.declarator hprogram hk hd⟩

end Run

end Espalier
