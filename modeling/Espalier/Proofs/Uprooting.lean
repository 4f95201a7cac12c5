import Espalier.Proofs.Prudence
import Espalier.Proofs.Removal

set_option autoImplicit false

/-! # Removed, refused and forgotten

What can be said of `PathId.remove` in a session that is in step with its tree. A removal that
succeeds cuts out one node with everything below it (`PathId.remove_cuts`), and the scopes lose the
bindings whose identifiers were there (`PathId.remove_forgets`), also where another declaration of
the name is still in the tree. One that is refused leaves the tree alone, but not the scopes: these
have forgotten the node by then (`PathId.remove_refused`). -/

namespace Espalier

open SessionM Session

/-- The tree `t'` is `t` after a removal: the second list is the order of `t'`, and is the first
one, the order of `t`, but for what was below one node and what makes up for that node. -/
def Tree.Loses (t : Tree) (n : NodeId) (t' : Tree) : Prop :=
  ∃ pos r l below l', t.Uproots n pos r ∧
    (t.inOrder? = some l ∧ ∀ m, m ∈ l ↔ t.Reachable m) ∧
    (t.subtree? r = some below ∧ ∀ m, m ∈ below ↔ Relation.ReflTransGen t.IsChild r m) ∧
    t.Cut pos r l below t' ∧ t'.inOrder? = some l' ∧ ∀ m, m ∈ l' ↔ t'.Reachable m

section Settling

variable {s : Session} {K : Set NodeId} {p : PathId} {n : NodeId}

/-- A removal is refused where a node has to stand, or takes out the node that it comes down to. -/
theorem PathId.remove_settles (hs : s.Sound K) (hrooted : s.tree.Rooted)
    (hops : s.tree.ExpressesOperands) (hp : s.Holds p n) (hn : s.tree.Reachable n) :
    ∃ pos r l below, s.tree.Uproots n pos r ∧ s.tree.inOrder? = some l ∧
      s.tree.subtree? r = some below ∧
      ((∃ cause, s.tree.Insists pos cause ∧
        p.remove s = .error (.refused cause) (s.forget below)) ∨
      Returns p.remove s fun _ s' =>
        s.tree.Cut pos r l below s'.tree ∧ (s.forget below).Spares s') := by
  obtain ⟨root, hroot, -⟩ := id hrooted
  obtain ⟨l, hl⟩ := hs.forest.exists_subtree (hs.forest.mem_of_reachable (.root hroot))
  have horder : s.tree.inOrder? = some l := Option.bind_eq_some_iff.mpr ⟨root, hroot, hl⟩
  obtain ⟨way, hway⟩ := hs.exists_ancestry hn hp
  obtain ⟨pos, r, below, huproots, hbelow, h⟩ := removeWithin_settles hrooted hops horder
    (s.tree.depthBound + 7) (2 * (s.paths.size + 1)) rfl hs hway
    (by have := hway.length_le hs; omega) hp
  -- The steps that are allowed suffice for the way up.
  have hrun : p.remove s = removeWithin (PathId.replaceWithin (s.tree.depthBound + 7 + 1))
      (2 * (s.paths.size + 1)) p s := rfl
  refine ⟨pos, r, l, below, huproots, horder, hbelow, ?_⟩
  rw [Returns, hrun]
  exact h

end Settling

/-! ## A program -/

/-- The operands of the operators of an arena are no statements. -/
theorem Tree.expressesOperands_of_all {t : Tree}
    (h : ∀ i < t.size, ∀ type ∈ t.type? ⟨i⟩, type.isBinary = true ∨ type = .sequenceExpression →
      ∀ c ∈ (t.children? ⟨i⟩).getD [], ∀ type' ∈ t.type? c, type'.isStatement = false) :
    t.ExpressesOperands := by
  intro operator operand type type' _ htype hoperator hc htype'
  obtain ⟨k, hk, hmem⟩ := (t.isChild_iff operator operand).mp hc
  refine h operator.index ((t.kind?_isSome_iff operator).mp ⟨k, hk⟩) type htype hoperator operand ?_
    type' htype'
  rw [children?_of_kind hk]
  exact hmem

/-- The program `var x; var x; x.y || x;`. -/
def redeclaredProgram : Tree where
  nodes := #[{ kind := .identifier "x" none }, { kind := .variableDeclarator ⟨0⟩ none },
    { kind := .variableDeclaration .var [⟨1⟩] }, { kind := .identifier "x" none },
    { kind := .variableDeclarator ⟨3⟩ none }, { kind := .variableDeclaration .var [⟨4⟩] },
    { kind := .identifier "x" none }, { kind := .identifier "y" none },
    { kind := .memberExpression ⟨6⟩ ⟨7⟩ false }, { kind := .identifier "x" none },
    { kind := .logicalExpression .or ⟨8⟩ ⟨9⟩ }, { kind := .expressionStatement ⟨10⟩ },
    { kind := .program [⟨2⟩, ⟨5⟩, ⟨11⟩] [] }]
  root := some ⟨12⟩

theorem redeclaredProgram_isProgram : redeclaredProgram.IsProgram :=
  .of_bottomUp (by decide) (by decide) (by decide) (by decide)

theorem redeclaredProgram_expressesOperands : redeclaredProgram.ExpressesOperands :=
  Tree.expressesOperands_of_all (by decide)

/-- The program is opened: it has the path 0, the second declaration the path 2, the object of `x.y`
the path 10 and the other operand the path 12. -/
def redeclaredStart : Session := after ensureScopes { tree := redeclaredProgram }

theorem redeclaredStart_facts : Session.open? redeclaredProgram {} = .ok redeclaredStart ∧
    redeclaredStart.Sound redeclaredProgram.reachable ∧
    redeclaredStart.tree = redeclaredProgram ∧ redeclaredStart.scopes.crawled = true ∧
    (redeclaredStart.Holds ⟨2⟩ ⟨5⟩ ∧ redeclaredProgram.Reachable ⟨5⟩) ∧
    (redeclaredStart.Holds ⟨10⟩ ⟨6⟩ ∧ redeclaredProgram.Reachable ⟨6⟩) ∧
    redeclaredStart.Holds ⟨12⟩ ⟨9⟩ ∧ redeclaredProgram.Reachable ⟨9⟩ := by
  obtain ⟨_, s, hrun, htree, horderly⟩ := ensureScopes_orderly redeclaredProgram_isProgram {}
  obtain rfl : redeclaredStart = s := after_of_ok hrun
  have hnodes : redeclaredStart.scopes.crawled = true ∧
      redeclaredStart.paths[2]?.bind PathData.node = some ⟨5⟩ ∧
      redeclaredStart.paths[10]?.bind PathData.node = some ⟨6⟩ ∧
      redeclaredStart.paths[12]?.bind PathData.node = some ⟨9⟩ := by decide +kernel
  obtain ⟨hcrawled, h2, h10, h12⟩ := hnodes
  have hchild : ∀ {n c : NodeId} {k : NodeKind}, redeclaredProgram.Reachable n →
      redeclaredProgram.kind? n = some k → c ∈ k.children → redeclaredProgram.Reachable c :=
    fun hn hk hc => .child hn ((Tree.isChild_iff _ _ _).mpr ⟨_, hk, hc⟩)
  have hroot : redeclaredProgram.Reachable ⟨12⟩ := .root rfl
  have hstatement : redeclaredProgram.Reachable ⟨11⟩ := hchild hroot rfl (by decide)
  have hoperator : redeclaredProgram.Reachable ⟨10⟩ := hchild hstatement rfl (by decide)
  have hmember : redeclaredProgram.Reachable ⟨8⟩ := hchild hoperator rfl (by decide)
  exact ⟨open?_of_ensureScopes rfl hrun, horderly.sound, htree, hcrawled,
    ⟨Option.bind_eq_some_iff.mp h2, hchild hroot rfl (by decide)⟩,
    ⟨Option.bind_eq_some_iff.mp h10, hchild hmember rfl (by decide)⟩,
    Option.bind_eq_some_iff.mp h12, hchild hoperator rfl (by decide)⟩

/-! ## What a removal does -/

section Removals

variable {s s' : Session} {K : Set NodeId} {p : PathId} {n : NodeId}

/-- A removal that succeeds takes out of the order of the tree what was below one node: the given
one, or the last one that goes with it. An operator goes too, and an empty block may come in. -/
theorem PathId.remove_cuts (hs : s.Sound K) (hrooted : s.tree.Rooted)
    (hops : s.tree.ExpressesOperands) (hp : s.Holds p n) (hn : s.tree.Reachable n)
    (hrun : p.remove s = .ok () s') : s.tree.Loses n s'.tree := by
  obtain ⟨pos, r, l, below, huproots, hl, hbelow, h⟩ := remove_settles hs hrooted hops hp hn
  rcases h with ⟨cause, -, herror⟩ | ⟨_, s₁, hok, hcut, -⟩
  · rw [hrun] at herror
    cases herror
  · obtain rfl : s' = s₁ := by
      rw [hrun] at hok
      cases hok
      rfl
    obtain ⟨l', hl'⟩ : ∃ l', s'.tree.inOrder? = some l' := by
      cases hcut with
      | gap _ _ h => exact ⟨_, h⟩
      | operand _ _ _ h => exact ⟨_, h⟩
      | block _ _ _ _ h => exact ⟨_, h⟩
    exact ⟨pos, r, l, below, l', huproots, ⟨hl, Tree.mem_inOrder hl⟩,
      ⟨hbelow, fun m => Tree.mem_subtreeWithin hbelow⟩, hcut, hl', Tree.mem_inOrder hl'⟩

/-- An operand is removed, and the other one takes the place of the operator. -/
theorem redeclaredProgram_cuts : redeclaredStart.Sound redeclaredProgram.reachable ∧
    redeclaredStart.tree.Rooted ∧ redeclaredStart.tree.ExpressesOperands ∧
    redeclaredStart.Holds ⟨12⟩ ⟨9⟩ ∧ redeclaredStart.tree.Reachable ⟨9⟩ ∧
    ∃ s', PathId.remove ⟨12⟩ redeclaredStart = .ok () s' ∧
      redeclaredStart.tree.Loses ⟨9⟩ s'.tree := by
  obtain ⟨-, hsound, htree, -, -, -, hp, hn⟩ := redeclaredStart_facts
  have hrooted := htree.symm ▸ redeclaredProgram_isProgram.root
  have hops := htree.symm ▸ redeclaredProgram_expressesOperands
  have hrun : PathId.remove ⟨12⟩ redeclaredStart =
      .ok () (after (PathId.remove ⟨12⟩) redeclaredStart) := eq_ok_of_value? (by decide +kernel)
  exact ⟨hsound, hrooted, hops, hp, htree.symm ▸ hn, _, hrun,
    PathId.remove_cuts hsound hrooted hops hp (htree.symm ▸ hn) hrun⟩

/-- A removal that is refused has changed nothing but the scopes, which have forgotten all that is
below the node that was to be taken out. -/
theorem PathId.remove_refused (hs : s.Sound K) (hrooted : s.tree.Rooted)
    (hops : s.tree.ExpressesOperands) (hp : s.Holds p n) (hn : s.tree.Reachable n) {e : Failure}
    (hrun : p.remove s = .error e s') :
    ∃ pos r below cause, s.tree.Uproots n pos r ∧ s.tree.subtree? r = some below ∧
      s.tree.Insists pos cause ∧ e = .refused cause ∧ s' = s.forget below ∧ s'.tree = s.tree := by
  obtain ⟨pos, r, l, below, huproots, -, hbelow, h⟩ := remove_settles hs hrooted hops hp hn
  rcases h with ⟨cause, hinsists, herror⟩ | ⟨_, s₁, hok, -⟩
  · rw [hrun] at herror
    cases herror
    exact ⟨pos, r, below, cause, huproots, hbelow, hinsists, rfl, rfl, s.tree_forget below⟩
  · rw [hrun] at hok
    cases hok

/-- The object of `x.y` is not removed. -/
theorem redeclaredProgram_refused : redeclaredStart.Sound redeclaredProgram.reachable ∧
    redeclaredStart.tree.Rooted ∧ redeclaredStart.tree.ExpressesOperands ∧
    redeclaredStart.Holds ⟨10⟩ ⟨6⟩ ∧ redeclaredStart.tree.Reachable ⟨6⟩ ∧
    ∃ e s', PathId.remove ⟨10⟩ redeclaredStart = .error e s' ∧
      ∃ pos r below cause, redeclaredStart.tree.Uproots ⟨6⟩ pos r ∧
        redeclaredStart.tree.subtree? r = some below ∧ redeclaredStart.tree.Insists pos cause ∧
        e = .refused cause ∧ s' = redeclaredStart.forget below ∧
        s'.tree = redeclaredStart.tree := by
  obtain ⟨-, hsound, htree, -, -, ⟨hp, hn⟩, -⟩ := redeclaredStart_facts
  have hrooted := htree.symm ▸ redeclaredProgram_isProgram.root
  have hops := htree.symm ▸ redeclaredProgram_expressesOperands
  have hfails : value? (PathId.remove ⟨10⟩) redeclaredStart = none := by decide +kernel
  cases hrun : PathId.remove ⟨10⟩ redeclaredStart with
  | ok a s' => simp [value?, hrun] at hfails
  | error e s' => exact ⟨hsound, hrooted, hops, hp, htree.symm ▸ hn, e, s', rfl,
      PathId.remove_refused hsound hrooted hops hp (htree.symm ▸ hn) hrun⟩

/-- But the scope of the program does not know then that `x` is read there. -/
theorem redeclaredProgram_forgotten :
    Session.open? redeclaredProgram {} = .ok redeclaredStart ∧
    value? (PathId.remove ⟨10⟩) redeclaredStart = none ∧
    (redeclaredStart.scopes.scopes[0]?.bind fun sc =>
      (sc.bindings.get? "x").map Binding.references) = some [⟨10⟩, ⟨12⟩] ∧
    ((after (PathId.remove ⟨10⟩) redeclaredStart).scopes.scopes[0]?.bind fun sc =>
      (sc.bindings.get? "x").map Binding.references) = some [⟨12⟩] := by
  obtain ⟨hopen, -⟩ := redeclaredStart_facts
  exact ⟨hopen, by decide +kernel⟩

/-- What is bound in a scope that has forgotten nodes. -/
theorem Session.binds_forget (hcrawled : s.scopes.crawled = true) (below : List NodeId)
    (i : ScopeId) (x : String) :
    (s.forget below).Binds i x ↔ ∃ (sc : Scope) (v : Binding),
      s.scopes.scopes[i.index]? = some sc ∧ (x, v) ∈ sc.bindings.entries ∧
        v.identifier ∉ below := by
  unfold Binds forget
  rw [if_pos hcrawled]
  simp only [mapScopes, Array.getElem?_map, Option.map_eq_some_iff]
  constructor
  · rintro ⟨_, ⟨sc, hsc, rfl⟩, hx⟩
    obtain ⟨v, hv, hkept⟩ := Scope.contains_without_iff.mp hx
    exact ⟨sc, v, hsc, hv, hkept⟩
  · rintro ⟨sc, v, hsc, hv, hkept⟩
    exact ⟨_, ⟨sc, hsc, rfl⟩, Scope.contains_without_iff.mpr ⟨v, hv, hkept⟩⟩

/-- After a removal a scope binds a name if it did so before, by an identifier that was not below
the node that was taken out. -/
theorem PathId.remove_forgets (hs : s.Sound K) (hrooted : s.tree.Rooted)
    (hops : s.tree.ExpressesOperands) (hcrawled : s.scopes.crawled = true) (hp : s.Holds p n)
    (hn : s.tree.Reachable n) (hrun : p.remove s = .ok () s') :
    ∃ pos r below, s.tree.Uproots n pos r ∧ s.tree.subtree? r = some below ∧
      ∀ i x, s'.Binds i x ↔ ∃ (sc : Scope) (v : Binding), s.scopes.scopes[i.index]? = some sc ∧
        (x, v) ∈ sc.bindings.entries ∧ v.identifier ∉ below := by
  obtain ⟨pos, r, l, below, huproots, -, hbelow, h⟩ := remove_settles hs hrooted hops hp hn
  rcases h with ⟨cause, -, herror⟩ | ⟨_, s₁, hok, -, hspares⟩
  · rw [hrun] at herror
    cases herror
  · obtain rfl : s' = s₁ := by
      rw [hrun] at hok
      cases hok
      rfl
    refine ⟨pos, r, below, huproots, hbelow, fun i x => ?_⟩
    rw [← binds_forget hcrawled, Binds, Binds, hspares.scopes]

/-- The second declaration is removed. -/
theorem redeclaredProgram_forgets : redeclaredStart.Sound redeclaredProgram.reachable ∧
    redeclaredStart.tree.Rooted ∧ redeclaredStart.tree.ExpressesOperands ∧
    redeclaredStart.scopes.crawled = true ∧ redeclaredStart.Holds ⟨2⟩ ⟨5⟩ ∧
    redeclaredStart.tree.Reachable ⟨5⟩ ∧ ∃ s', PathId.remove ⟨2⟩ redeclaredStart = .ok () s' ∧
      ∃ pos r below, redeclaredStart.tree.Uproots ⟨5⟩ pos r ∧
        redeclaredStart.tree.subtree? r = some below ∧
        ∀ i x, s'.Binds i x ↔ ∃ (sc : Scope) (v : Binding),
          redeclaredStart.scopes.scopes[i.index]? = some sc ∧ (x, v) ∈ sc.bindings.entries ∧
            v.identifier ∉ below := by
  obtain ⟨-, hsound, htree, hcrawled, ⟨hp, hn⟩, -⟩ := redeclaredStart_facts
  have hrooted := htree.symm ▸ redeclaredProgram_isProgram.root
  have hops := htree.symm ▸ redeclaredProgram_expressesOperands
  have hrun : PathId.remove ⟨2⟩ redeclaredStart =
      .ok () (after (PathId.remove ⟨2⟩) redeclaredStart) := eq_ok_of_value? (by decide +kernel)
  exact ⟨hsound, hrooted, hops, hcrawled, hp, htree.symm ▸ hn, _, hrun,
    PathId.remove_forgets hsound hrooted hops hcrawled hp (htree.symm ▸ hn) hrun⟩

/-- No scope binds `x` then. If the tree that is left is opened anew, the scope of the program does,
for the first declaration is still there. -/
theorem redeclaredProgram_unbound :
    Session.open? redeclaredProgram {} = .ok redeclaredStart ∧
    value? (PathId.remove ⟨2⟩) redeclaredStart = some () ∧
    ((after (PathId.remove ⟨2⟩) redeclaredStart).scopes.scopes.toList.map fun sc =>
      sc.bindings.keys) = [[]] ∧
    ((after ensureScopes { tree := (after (PathId.remove ⟨2⟩) redeclaredStart).tree :
      Session }).scopes.scopes.toList.map fun sc => sc.bindings.keys) = [["x"]] := by
  obtain ⟨hopen, -⟩ := redeclaredStart_facts
  exact ⟨hopen, by decide +kernel⟩

end Removals

end Espalier
