import Espalier.Proofs.Blocks
import Espalier.Proofs.Replanting

set_option autoImplicit false

/-! # The scope around a path

In a session whose scopes and blocks are in step (`Session.Matched`) the scope of a path is that of
the innermost block around it. Where the block has a scope, nothing happens when it is asked for;
where only the block outside it has one, the block is crawled (`PathId.scope_matched`). In both
cases scopes and blocks stay in step. Of a block inside a block without a scope this cannot be said:
the crawl of the outer one already gives the inner one a scope, and the inner one is crawled
again. -/

namespace Espalier

open SessionM Session

/-! ## Innermost blocks -/

namespace Tree

variable {t : Tree} {n m b b' : NodeId}

/-- The scope of a node is that of one block. -/
theorem IsProgram.scopeAt_unique (h : t.IsProgram) (hb : t.ScopeAt n b) (hb' : t.ScopeAt n b') :
    b = b' := by
  rcases hb with ⟨ho, rfl⟩ | ⟨ho, hb⟩
  · rcases hb' with ⟨-, rfl⟩ | ⟨ho', -⟩
    · rfl
    · exact absurd ho ho'
  · rcases hb' with ⟨ho', -⟩ | ⟨-, hb'⟩
    · exact absurd ho' ho
    · exact h.inScope_unique hb hb'

theorem inScope_of_scopeAt (hm : t.Reachable m) (hc : t.IsChild m n) (hb : t.ScopeAt m b) :
    t.InScope n b := by
  rcases hb with ⟨ho, rfl⟩ | ⟨ho, hb⟩
  · exact .here hm hc ho
  · exact .up hm hc ho hb

/-- The block around a node is the one that its parent is in. -/
theorem IsProgram.scopeAt_parent (h : t.IsProgram) (hm : t.Reachable m) (hc : t.IsChild m n)
    (hb : t.InScope n b) : t.ScopeAt m b := by
  cases hb with
  | here hp hpn ho =>
    obtain rfl := h.forest.parent_unique hm hp hc hpn
    exact .inl ⟨ho, rfl⟩
  | up hp hpn ho hb =>
    obtain rfl := h.forest.parent_unique hm hp hc hpn
    exact .inr ⟨ho, hb⟩

theorem InScope.reachable_block (h : t.InScope n b) : t.Reachable b := by
  induction h with
  | here hp _ _ => exact hp
  | up _ _ _ _ ih => exact ih

theorem InScope.opens (h : t.InScope n b) : t.Opens b := by
  induction h with
  | here _ _ ho => exact ho
  | up _ _ _ _ ih => exact ih

theorem ScopeAt.reachable (h : t.ScopeAt n b) (hn : t.Reachable n) : t.Reachable b := by
  rcases h with ⟨-, rfl⟩ | ⟨-, hb⟩
  · exact hn
  · exact hb.reachable_block

/-- A block that is in no function and no catch clause opens a scope. -/
theorem opens_of_all {k : NodeKind} (hk : t.kind? b = some k)
    (hscopable : k.type.isScopable = true) (hall : ∀ i < t.size, ∀ kp ∈ t.kind? ⟨i⟩,
      b ∈ kp.children → kp.type.isFunction = false ∧ kp.type ≠ .catchClause) : t.Opens b := by
  refine ⟨k, hk, hscopable, fun _ p kp _ hc hkp => ?_⟩
  obtain ⟨kp', hkp', hmem⟩ := (t.isChild_iff p b).mp hc
  obtain rfl := Option.some.inj (hkp.symm.trans hkp')
  exact hall p.index ((t.kind?_isSome_iff p).mp ⟨kp, hkp⟩) kp hkp hmem

/-- What is around a node is not the root. -/
theorem IsProgram.ne_root_of_inScope (h : t.IsProgram) (hn : t.InScope n b) :
    t.root ≠ some n := by
  intro hroot
  obtain ⟨p, hp, pos, hpos, hocc⟩ : ∃ p, t.Reachable p ∧ t.IsChild p n := by
    cases hn with
    | here hp hc _ => exact ⟨_, hp, hc⟩
    | up hp hc _ _ => exact ⟨_, hp, hc⟩
  have hw : pos.Within t.reachable := Position.within_of_parent hpos hp
  obtain rfl := h.single pos .root n hw (Position.within_root _) hocc hroot
  cases hpos

end Tree

/-! ## Innermost blocks of a tree that is changed -/

namespace Tree.Rearranged

variable {t t' : Tree} {K : Set NodeId} {owner : Option NodeId} {P : Set Position}
  {nodes : List NodeId} {n m b : NodeId}

section

variable (h : t.Rearranged owner P nodes t') (hF : t.Forest K) (hloose : t.Loose K nodes)
  (hP : ∀ pos ∈ P, pos.Within K)
  (htype : ∀ n, (t'.kind? n).map NodeKind.type = (t.kind? n).map NodeKind.type)

include h hF hloose hP in
/-- The node around an old node was around it before. -/
theorem parent_old (hm : t'.Reachable m) (hc : t'.IsChild m n) (hn : n ∈ K) :
    t.Reachable m ∧ t.IsChild m n := by
  rcases h.isChild hc with hc | ⟨hnew, -⟩
  · rcases h.reachable_of_reachable hF hloose hP hm with ⟨-, hm⟩ | hb
    · exact ⟨hm, hc⟩
    · exact absurd hn (hloose.apart n (below_child hb hc))
  · exact absurd hn (hloose.not_mem hnew)

include h hF hloose hP in
/-- The node around a node that is still there is still around it. -/
theorem parent_new (hm : t.Reachable m) (hc : t.IsChild m n) (hn : t'.Reachable n) :
    t'.Reachable m ∧ t'.IsChild m n := by
  have hnK := hF.mem_of_reachable (.child hm hc)
  cases hn with
  | root hr =>
    have hr : t'.occupant? .root = some n := hr
    rcases h.occupant_cases hr with ⟨pos, hpos, hocc⟩ | ⟨-, hnew⟩
    · obtain rfl := Position.eq_root_of_parent hpos
      obtain ⟨pos', hpos', hocc'⟩ := hc
      have hw' := Position.within_of_parent hpos' (hF.mem_of_reachable hm)
      obtain rfl := hF.single .root pos' n (Position.within_root K) hw' hocc hocc'
      cases hpos'
    · exact absurd hnK (hloose.not_mem hnew)
  | @child m' _ hm' hc' =>
    obtain ⟨hold, hchild⟩ := h.parent_old hF hloose hP hm' hc' hnK
    obtain rfl := hF.parent_unique (hF.mem_of_reachable hm) (hF.mem_of_reachable hold) hc hchild
    exact ⟨hm', hc'⟩

include h hF hloose hP htype in
/-- What is still there opens a scope if it did. -/
theorem opens_iff (hn : t.Reachable n) (hn' : t'.Reachable n) : t'.Opens n ↔ t.Opens n := by
  have hkind : ∀ {a b : Tree} {x : NodeId} {k : NodeKind},
      (b.kind? x).map NodeKind.type = (a.kind? x).map NodeKind.type → a.kind? x = some k →
        ∃ k', b.kind? x = some k' ∧ k'.type = k.type := by
    intro a b x k hsame hk
    rw [hk, Option.map_some] at hsame
    exact Option.map_eq_some_iff.mp hsame
  constructor
  · rintro ⟨k', hk', hscopable, houter⟩
    obtain ⟨k, hk, hkt⟩ := hkind (htype n).symm hk'
    refine ⟨k, hk, hkt ▸ hscopable, fun hblock p kp hp hc hkp => ?_⟩
    obtain ⟨hp', hc'⟩ := h.parent_new hF hloose hP hp hc hn'
    obtain ⟨kp', hkp', hkpt⟩ := hkind (htype p) hkp
    exact hkpt ▸ houter (hkt ▸ hblock) p kp' hp' hc' hkp'
  · rintro ⟨k, hk, hscopable, houter⟩
    obtain ⟨k', hk', hkt⟩ := hkind (htype n) hk
    refine ⟨k', hk', hkt ▸ hscopable, fun hblock p kp' hp' hc' hkp' => ?_⟩
    obtain ⟨hp, hc⟩ := h.parent_old hF hloose hP hp' hc' (hF.mem_of_reachable hn)
    obtain ⟨kp, hkp, hkpt⟩ := hkind (htype p).symm hkp'
    exact hkpt ▸ houter (hkt ▸ hblock) p kp hp hc hkp

include h hF hloose hP htype in
/-- What is still there is in the same scope as before. -/
theorem inScope (hb : t.InScope n b) (hn' : t'.Reachable n) : t'.InScope n b := by
  induction hb with
  | here hm hc ho =>
    obtain ⟨hm', hc'⟩ := h.parent_new hF hloose hP hm hc hn'
    exact .here hm' hc' ((h.opens_iff hF hloose hP htype hm hm').mpr ho)
  | up hm hc ho _ ih =>
    obtain ⟨hm', hc'⟩ := h.parent_new hF hloose hP hm hc hn'
    exact .up hm' hc' (fun ho' => ho ((h.opens_iff hF hloose hP htype hm hm').mp ho')) (ih hm')

include h hF hloose hP htype in
theorem scopeAt (hn : t.Reachable n) (hb : t.ScopeAt n b) (hn' : t'.Reachable n) :
    t'.ScopeAt n b := by
  have hopens := h.opens_iff hF hloose hP htype hn hn'
  rcases hb with ⟨ho, rfl⟩ | ⟨ho, hb⟩
  · exact .inl ⟨hopens.mpr ho, rfl⟩
  · exact .inr ⟨fun ho' => ho (hopens.mp ho'), h.inScope hF hloose hP htype hb hn'⟩

end

end Tree.Rearranged

/-! ## Finding a scope and crawling a block -/

section Scope

variable {s s' : Session} {K R : Set NodeId} {p : PathId} {n b b' : NodeId} {i j : ScopeId}

/-- The scope of a block with a scope is found. -/
theorem PathId.scope_run_of_found (h : s.Orderly K) (hcrawled : s.scopes.crawled = true)
    (hp : s.Holds p n) (hn : s.tree.Reachable n) (hb : s.tree.ScopeAt n b)
    (hi : s.scopes.byBlock.get? b = some i) : p.scope s = .ok i s := by
  obtain ⟨l, hl⟩ := h.sound.exists_ancestry hn hp
  obtain ⟨q, m, l', hfound, -, -, -, hm⟩ := PathId.scopeBlock?_run h.sound h.program.root hl hp
  obtain rfl := h.program.scopeAt_unique hm hb
  unfold PathId.scope
  rw [bind_of_ok (ensureScopes_run hcrawled), run_get_bind]
  unfold scopeWithin
  rw [bind_of_ok hfound]
  dsimp only
  rw [run_get_bind, hi]
  rfl

/-- A block without a scope inside one that has a scope is crawled. -/
theorem PathId.scope_crawls (h : s.Orderly K) (hcrawled : s.scopes.crawled = true)
    (hp : s.Holds p n) (hn : s.tree.Reachable n) (hb : s.tree.ScopeAt n b)
    (hnone : s.scopes.byBlock.get? b = none) (hb' : s.tree.InScope b b')
    (hj : s.scopes.byBlock.get? b' = some j) :
    Returns p.scope s fun i s' => s.Opened K (s.tree.below [b]) s' ∧ s'.ScopeOf i b ∧
      s'.Around i j := by
  obtain ⟨l, hl⟩ := h.sound.exists_ancestry hn hp
  obtain ⟨q, m, l', hfound, hq, hup, -, hm⟩ := PathId.scopeBlock?_run h.sound h.program.root hl hp
  obtain rfl := h.program.scopeAt_unique hm hb
  unfold PathId.scope
  refine returns_bind_of_ok (ensureScopes_run hcrawled) ?_
  rw [Returns, run_get_bind]
  unfold scopeWithin
  refine returns_bind_of_ok hfound ?_
  dsimp only
  rw [Returns, run_get_bind, hnone]
  cases hup with
  | root hroot hr =>
    obtain rfl := hq.unique_node (hroot.holds hr)
    exact absurd hr (h.program.ne_root_of_inScope hb')
  | @up _ r pos n' m' l'' hlinked hw hocc hpos hr hup' =>
    obtain rfl := hq.unique_node (hlinked.holds hocc)
    obtain ⟨d, hf, -⟩ := id hlinked
    have hparent : q.parent? s = .ok (some r) s := by
      rw [q.parent?_run hf.data, hlinked.parent_eq h.sound hf.data hpos hr]
    refine returns_bind_of_ok hparent ?_
    -- The block outside is found.
    have hm' := hup'.reachable hr
    obtain ⟨q', c, l₃, hfound', -, -, -, hc⟩ :=
      PathId.scopeBlock?_run h.sound h.program.root hup' hr
    obtain rfl := h.program.scopeAt_unique hc (h.program.scopeAt_parent hm' ⟨pos, hpos, hocc⟩ hb')
    obtain ⟨size, hsize⟩ : ∃ size, s.paths.size = size + 1 := by
      have hlt := (Array.getElem?_eq_some_iff.mp hf.data).1
      exact ⟨s.paths.size - 1, by omega⟩
    have houter : scopeWithin s.paths.size r s = .ok j s := by
      rw [hsize]
      unfold scopeWithin
      rw [bind_of_ok hfound']
      dsimp only
      rw [run_get_bind, hj]
      rfl
    refine returns_bind_of_ok houter ?_
    exact crawlScope_opened h.sound h.ordered hq (some j) fun j' hj' =>
      Option.some.inj hj' ▸ h.ordered.byBlock _ j hj

end Scope

/-! ## Scopes and blocks in step -/

namespace Session

/-- The scope of a block is found by the node of the block, and what is found by a node of the tree
is the scope of the node. -/
structure Matched (s : Session) (K : Set NodeId) : Prop extends Orderly s K where
  housed : s.Housed
  found : ∀ i b, s.ScopeOf i b → s.scopes.byBlock.get? b = some i
  known : ∀ b i, s.scopes.byBlock.get? b = some i → b ∈ K ∧ (s.tree.Reachable b → s.ScopeOf i b)

/-- The innermost block around the node has a scope, or else the block outside it has one, and
nothing in the block. -/
def Asks (s : Session) (n : NodeId) : Prop :=
  ∃ b, s.tree.ScopeAt n b ∧ ((∃ i, s.scopes.byBlock.get? b = some i) ∨
    ∃ b' j, s.tree.InScope b b' ∧ s.scopes.byBlock.get? b' = some j ∧
      ∀ m ∈ s.tree.below [b], s.scopes.byBlock.get? m = none)

section Matched

variable {s s' : Session} {K R : Set NodeId} {p : PathId} {n b : NodeId} {i j : ScopeId}

/-- No two scopes have the same block. -/
theorem Matched.single (h : s.Matched K) (hi : s.ScopeOf i b) (hj : s.ScopeOf j b) : i = j :=
  Option.some.inj ((h.found i b hi).symm.trans (h.found j b hj))

/-- Scopes for blocks that had none keep scopes and blocks in step. -/
theorem Matched.opened (h : s.Matched K) (ho : s.Opened K R s')
    (hR : ∀ m ∈ R, s.scopes.byBlock.get? m = none) : s'.Matched K where
  toOrderly := h.toOrderly.surveys ho.toSurveys
  housed := ho.housed h.housed
  found i b hi := by
    rcases ho.single h.housed i b hi with hi | ⟨-, hi⟩
    · have hb := h.found i b hi
      have hnot : b ∉ R := fun hmem => by simp [hR b hmem] at hb
      rw [ho.kept b hnot, hb]
    · exact hi
  known b i hi := by
    rcases ho.found b i hi with hi | hi
    · obtain ⟨hb, hscope⟩ := h.known b i hi
      refine ⟨hb, fun hr => (hscope ?_).later h.sound ho.toSurveys⟩
      rwa [ho.tree] at hr
    · obtain ⟨sc, -, hb⟩ := id hi
      exact ⟨ho.sound.mem_of_holds hb, fun _ => hi⟩

end Matched

end Session

/-- Asking for the scope of a path gives the scope of the innermost block around it. It opens no
scope for a block that has one, and none at all where the innermost block has one. -/
theorem PathId.scope_matched {s : Session} {K : Set NodeId} {p : PathId} {n : NodeId}
    (h : s.Matched K) (hcrawled : s.scopes.crawled = true)
    (hp : s.Holds p n) (hn : s.tree.Reachable n) (hasks : s.Asks n) :
    Returns p.scope s fun i s' => ∃ b R, s.tree.ScopeAt n b ∧ s.Opened K R s' ∧
      (∀ m ∈ R, m ∈ s.tree.below [b] ∧ s.scopes.byBlock.get? m = none ∧
        s.scopes.byBlock.get? b = none) ∧ s'.ScopeOf i b := by
  obtain ⟨b, hb, ⟨i, hi⟩ | ⟨b', j, hb', hj, hfree⟩⟩ := hasks
  · refine ⟨i, s, PathId.scope_run_of_found h.toOrderly hcrawled hp hn hb hi, b, ∅, hb,
      .refl h.sound h.ordered, fun _ hm => hm.elim, ?_⟩
    exact (h.known b i hi).2 (hb.reachable hn)
  · have hnone := hfree b (s.tree.mem_below (by simp))
    refine (PathId.scope_crawls h.toOrderly hcrawled hp hn hb hnone hb' hj).mono ?_
    rintro i s' ⟨ho, hi, -⟩
    exact ⟨b, _, hb, ho, fun m hm => ⟨hm, hfree m hm, hnone⟩, hi⟩

/-! ## A tree that is changed -/

namespace Session

/-- The tree was changed with nodes that were never in it, and no scope was opened. A path holds
what it held, or what it held is in the tree no more: the path was removed, or was given another
node in the place of one that has no scope. -/
structure Reworked (s : Session) (K K' : Set NodeId) (s' : Session) : Prop where
  orderly : s'.Orderly K'
  wider : ∀ n ∈ K, n ∈ K'
  byBlock : s'.scopes.byBlock = s.scopes.byBlock
  crawled : s'.scopes.crawled = s.scopes.crawled
  places : ∀ i : Nat, (s'.scopes.scopes[i]?).map Scope.place = (s.scopes.scopes[i]?).map Scope.place
  old : ∀ n ∈ K, s'.tree.Reachable n → s.tree.Reachable n
  gone : ∀ q, s.Gone q → s'.Gone q
  fate : ∀ q n, s.Holds q n → s'.Holds q n ∨ (¬ s'.tree.Reachable n ∧
    (s'.Gone q ∨ (s.scopes.byBlock.get? n = none ∧ ∃ m, s'.Holds q m)))

section Reworked

variable {s s' : Session} {K K' : Set NodeId} {q : PathId} {n b : NodeId} {i : ScopeId}

/-- A removed path holds nothing. -/
theorem Gone.not_holds (h : s.Gone q) (hs : s.Sound K) : ¬ s.Holds q n := by
  intro hq
  obtain ⟨pos, d, -, hf, -⟩ := hs.files_of_holds hq
  obtain ⟨e, he, hremoved, -⟩ := h
  obtain rfl := Option.some.inj (hf.data.symm.trans he)
  exact Bool.false_ne_true (hf.live.symm.trans hremoved)

/-- Scopes and blocks stay in step when the tree is changed. -/
theorem Reworked.matched (h : s.Reworked K K' s') (hm : s.Matched K) : s'.Matched K' where
  toOrderly := h.orderly
  housed i sc' hsc' := by
    obtain ⟨sc, hsc, hplace⟩ := Option.map_eq_some_iff.mp ((h.places i).symm.trans
      (by rw [hsc', Option.map_some]))
    simp only [Scope.place, Prod.mk.injEq] at hplace
    rw [← hplace.1]
    rcases hm.housed i sc hsc with ⟨b, hb⟩ | hgone
    · rcases h.fate _ b hb with hb | ⟨-, hgone | ⟨-, m, hm⟩⟩
      · exact .inl ⟨b, hb⟩
      · exact .inr hgone
      · exact .inl ⟨m, hm⟩
    · exact .inr (h.gone _ hgone)
  found i b := by
    rintro ⟨sc', hsc', hb⟩
    obtain ⟨sc, hsc, hplace⟩ := Option.map_eq_some_iff.mp ((h.places i.index).symm.trans
      (by rw [hsc', Option.map_some]))
    simp only [Scope.place, Prod.mk.injEq] at hplace
    rw [← hplace.1] at hb
    rw [h.byBlock]
    rcases hm.housed i.index sc hsc with ⟨c, hc⟩ | hgone
    · -- The path of the block was not given another node, because the block had a scope.
      have hfound := hm.found i c ⟨sc, hsc, hc⟩
      rcases h.fate _ c hc with hc | ⟨-, hgone | ⟨hnone, -⟩⟩
      · rwa [hb.unique_node hc]
      · exact absurd hb (hgone.not_holds h.orderly.sound)
      · rw [hfound] at hnone
        cases hnone
    · exact absurd hb ((h.gone _ hgone).not_holds h.orderly.sound)
  known b i hi := by
    rw [h.byBlock] at hi
    obtain ⟨hb, hscope⟩ := hm.known b i hi
    refine ⟨h.wider b hb, fun hr => ?_⟩
    obtain ⟨sc, hsc, hc⟩ := hscope (h.old b hb hr)
    obtain ⟨sc', hsc', hplace⟩ := Option.map_eq_some_iff.mp ((h.places i.index).trans
      (by rw [hsc, Option.map_some]))
    simp only [Scope.place, Prod.mk.injEq] at hplace
    refine ⟨sc', hsc', hplace.1 ▸ ?_⟩
    rcases h.fate _ b hc with hc | ⟨hno, -⟩
    · exact hc
    · exact absurd hr hno

/-- Splicing nodes into a list opens no scope. -/
theorem Spliced.reworked {owner : NodeId} {f : Field} {ids nodes : List NodeId} {j : Nat}
    {ps : List PathId} (h : s.Spliced K owner f ids j nodes ps s') (hs : s.Sound K)
    (howner : owner ∈ K) (hloose : s.tree.Loose K nodes) :
    s.Reworked K (K ∪ s.tree.below nodes) s' where
  orderly := h.edited.orderly
  wider n hn := .inl hn
  byBlock := by rw [h.scopes]
  crawled := by rw [h.scopes]
  places i := by rw [h.scopes]
  old n hn hr := by
    rcases h.tree.reachable_of_reachable hs.forest hloose howner (fun m hm => (mem_splice j).mp hm) hr
      with ⟨-, hr⟩ | hb
    · exact hr
    · exact absurd hn (hloose.apart n hb)
  gone := h.edited.gone
  fate q n hq := .inl (h.edited.keeps q n hq fun hmem => (mem_splice j).mpr (.inl hmem))

/-- Nothing at or below the inserted nodes has a scope. -/
theorem Spliced.unscoped {owner : NodeId} {f : Field} {ids nodes : List NodeId} {j : Nat}
    {ps : List PathId} (h : s.Spliced K owner f ids j nodes ps s') (hm : s.Matched K)
    (howner : owner ∈ K) (hloose : s.tree.Loose K nodes) (hn : n ∈ nodes) :
    ∀ m ∈ s'.tree.below [n], s'.scopes.byBlock.get? m = none := by
  intro m hmem
  have hbelow : m ∈ s.tree.below nodes := by
    rcases Relation.reflTransGen_iff_eq_or_transGen.mp (Tree.mem_below_singleton.mp hmem) with
      rfl | htrans
    · exact s.tree.mem_below hn
    · exact ((h.tree.rearranged fun m hm => (mem_splice j).mp hm).below_of_below hloose
        (Tree.Relisted.within_list howner) (s.tree.mem_below hn) htrans).1
  cases hget : s'.scopes.byBlock.get? m with
  | none => rfl
  | some i =>
    rw [h.scopes] at hget
    exact absurd (hm.known m i hget).1 (hloose.apart m hbelow)

end Reworked

end Session

/-! ## Registering a declaration -/

theorem Lodging.declareIn (p : PathId) (n : NodeId) (i : ScopeId) : Lodging (p.declareIn n i) := by
  unfold PathId.declareIn
  refine (question (.ask _)).bind fun k => ?_
  split
  · exact (registerDeclarators p _ i).bind fun _ => question (.pure _)
  · next id _ _ _ _ _ =>
    extract_lets register
    have hname : ∀ outer, Lodging (register outer) := by
      intro outer
      refine (question (.ask _)).bind fun k => ?_
      split
      · exact registerBinding outer _ .hoisted p id
      · exact question (.pure _)
    refine (question (.scopeData i)).bind fun sc => ?_
    cases sc.parent with
    | none => exact (question (.pure i)).bind hname
    | some parent => exact (question (.functionScope parent)).bind hname
  · exact registerImports p i
  · exact question (.pure _)

section Register

variable {s : Session} {K : Set NodeId} {p : PathId} {n : NodeId} {i : ScopeId}

/-- Declaring the names of a declaration opens no scope. -/
theorem PathId.declareIn_opened (hs : s.Sound K) (ho : s.scopes.Ordered) (hp : s.Holds p n)
    (hn : s.tree.Reachable n) (hi : s.HasScope i) :
    Returns (p.declareIn n i) s fun _ s' => s.Opened K ∅ s' :=
  (PathId.declareIn_returns hs ho hp hn hi).opened hs (.declareIn p n i) fun _ _ h => h

/-- Registering a declaration opens scopes for nothing but the block that its scope is asked of. -/
theorem PathId.registerDeclaration_matched (h : s.Matched K) (hcrawled : s.scopes.crawled = true)
    (hp : s.Holds p n) (hn : s.tree.Reachable n) (hasks : s.Asks n) :
    Returns p.registerDeclaration s fun _ s' => ∃ b R, s.tree.ScopeAt n b ∧ s.Opened K R s' ∧
      ∀ m ∈ R, m ∈ s.tree.below [b] ∧ s.scopes.byBlock.get? m = none ∧
        s.scopes.byBlock.get? b = none := by
  rw [Returns, PathId.registerDeclaration_run hp]
  refine (PathId.scope_matched h hcrawled hp hn hasks).bind fun i s₁ hscope => ?_
  obtain ⟨b, R, hb, h₁, hR, hi⟩ := hscope
  refine (PathId.declareIn_opened h₁.sound h₁.ordered (h₁.grew.holds h.sound hp)
    (by rw [h₁.tree]; exact hn) hi.hasScope).mono fun _ s₂ h₂ => ?_
  exact ⟨b, R, hb, h₁.before_lodging h₂, hR⟩

end Register

end Espalier
