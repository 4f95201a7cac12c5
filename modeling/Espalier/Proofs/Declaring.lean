import Espalier.Edit.Place
import Espalier.Proofs.Resolution

set_option autoImplicit false

/-! # Declaring names after the crawl

A declaration that comes into the tree after the crawl is registered in the scope around it. That
scope is found on the way up from the path of the declaration, which leads through the paths of the
nodes above it to the root (`Session.Ancestry`) and is no longer than the number of paths. A block
without a scope that is met on the way is crawled first. All of this succeeds in a sound session
whose tree has a program at its root (`registerDeclaration_returns`). -/

namespace Espalier

open SessionM Session

/-! ## The way up -/

/-- The list starts with the path and goes on with the paths of the nodes above it, up to the
root. -/
inductive Session.Ancestry (s : Session) (K : Set NodeId) : PathId → List PathId → Prop
  | root {p : PathId} {n : NodeId} : s.Linked p .root → s.tree.root = some n → Ancestry s K p [p]
  | up {p q : PathId} {pos : Position} {n m : NodeId} {l : List PathId} : s.Linked p pos →
      pos.Within K → s.tree.occupant? pos = some n → pos.parent? = some m → s.Holds q m →
      Ancestry s K q l → Ancestry s K p (p :: l)

section WayUp

variable {s : Session} {K : Set NodeId} {p : PathId} {n : NodeId} {l : List PathId}

/-- What can be reached stands at a position that can be reached. -/
theorem Tree.Reachable.position {t : Tree} (h : t.Reachable n) :
    ∃ pos : Position, pos.Within t.reachable ∧ t.occupant? pos = some n := by
  cases h with
  | root hr => exact ⟨.root, Position.within_root _, hr⟩
  | child hp hc =>
    obtain ⟨pos, hpos, hocc⟩ := hc
    exact ⟨pos, Position.within_of_parent hpos hp, hocc⟩

/-- The path of a node that can be reached is linked to the one around it. -/
theorem Session.Sound.linked_of_reachable (hs : s.Sound K) (hp : s.Holds p n)
    (hn : s.tree.Reachable n) :
    ∃ pos, pos.Within s.tree.reachable ∧ s.Linked p pos ∧ s.tree.occupant? pos = some n := by
  obtain ⟨pos, d, hw, hf, hocc⟩ := hs.files_of_holds hp
  obtain ⟨pos', hw', hocc'⟩ := hn.position
  have hwK := Position.within_mono (fun m hm => hs.forest.mem_of_reachable hm) hw'
  obtain rfl := hs.forest.single pos pos' n hw hwK hocc hocc'
  exact ⟨pos, hw', ⟨d, hf, hs.linked p pos d hf hw'⟩, hocc⟩

/-- From the path of a node that can be reached a way leads up to the root. -/
theorem Session.Sound.exists_ancestry (hs : s.Sound K) (hn : s.tree.Reachable n)
    (hp : s.Holds p n) : ∃ l, s.Ancestry K p l := by
  induction hn generalizing p with
  | root hr =>
    obtain ⟨pos, -, hl, hocc⟩ := hs.linked_of_reachable hp (.root hr)
    obtain ⟨pos', d, hw, hf, -⟩ := hs.files_of_holds hp
    obtain ⟨d', hf', -⟩ := id hl
    obtain ⟨rfl, -⟩ := hf.position_unique hf'
    obtain rfl := hs.forest.single pos' .root _ hw (Position.within_root K) hocc hr
    exact ⟨[p], .root hl hr⟩
  | @child m n hm hc ih =>
    obtain ⟨pos, hpos, hocc⟩ := hc
    obtain ⟨pos', hw', hl, hocc'⟩ := hs.linked_of_reachable hp (.child hm ⟨pos, hpos, hocc⟩)
    have hwK := Position.within_mono (fun m hm => hs.forest.mem_of_reachable hm) hw'
    have hw := Position.within_of_parent hpos (hs.forest.mem_of_reachable hm)
    obtain rfl := hs.forest.single pos pos' n hw hwK hocc hocc'
    obtain ⟨d, hf, ha⟩ := id hl
    unfold Adopts at ha
    rw [show pos.container.parent? = some m from hpos] at ha
    obtain ⟨q, -, hq⟩ := ha
    obtain ⟨l, hup⟩ := ih hq
    exact ⟨p :: l, .up hl hw hocc hpos hq hup⟩

theorem Session.Ancestry.ne_nil (h : s.Ancestry K p l) : l ≠ [] := by
  cases h <;> simp

/-- The paths on the way hold nodes above the one it starts from. -/
theorem Session.Ancestry.above (h : s.Ancestry K p l) (hp : s.Holds p n) {q : PathId}
    (hq : q ∈ l) : ∃ m, s.Holds q m ∧ Relation.ReflTransGen s.tree.IsChild m n := by
  induction h generalizing n with
  | root =>
    obtain rfl := List.mem_singleton.mp hq
    exact ⟨n, hp, .refl⟩
  | up hl _ hocc hpos hr _ ih =>
    rcases List.mem_cons.mp hq with rfl | hq
    · exact ⟨n, hp, .refl⟩
    · obtain ⟨m, hm, hmr⟩ := ih hr hq
      obtain rfl := hp.unique_node (hl.holds hocc)
      exact ⟨m, hm, hmr.tail ⟨_, hpos, hocc⟩⟩

/-- No path occurs twice on the way. -/
theorem Session.Ancestry.nodup (h : s.Ancestry K p l) (hs : s.Sound K) : l.Nodup := by
  induction h with
  | root => simp
  | up hl _ hocc hpos hr hup ih =>
    refine List.nodup_cons.mpr ⟨fun hmem => ?_, ih⟩
    obtain ⟨m, hm, hmr⟩ := hup.above hr hmem
    have hp := hl.holds hocc
    obtain rfl := hm.unique_node hp
    exact hs.forest.acyclic _ (hs.mem_of_holds hp) (Relation.TransGen.tail' hmr ⟨_, hpos, hocc⟩)

/-- The way is no longer than the number of paths. -/
theorem Session.Ancestry.length_le (h : s.Ancestry K p l) (hs : s.Sound K) :
    l.length ≤ s.paths.size := by
  have hknown : ∀ q ∈ l, q.index < s.paths.size := by
    have hlinked : ∀ {q : PathId} {pos : Position}, s.Linked q pos → q.index < s.paths.size := by
      rintro q pos ⟨d, hf, -⟩
      exact (Array.getElem?_eq_some_iff.mp hf.data).1
    clear hs
    induction h with
    | root hl => simpa using hlinked hl
    | up hl _ _ _ _ _ ih =>
      intro q hq
      rcases List.mem_cons.mp hq with rfl | hq
      · exact hlinked hl
      · exact ih q hq
  have hmap : (l.map PathId.index).Nodup :=
    (h.nodup hs).map fun ⟨a⟩ ⟨b⟩ hab => by simpa using hab
  have hsub : l.map PathId.index ⊆ List.range s.paths.size := by
    intro i hi
    obtain ⟨q, hq, rfl⟩ := List.mem_map.mp hi
    exact List.mem_range.mpr (hknown q hq)
  simpa using (hmap.subperm hsub).length_le

end WayUp

/-! ## The scope of a path -/

section ScopeOf

variable {s : Session} {K : Set NodeId} {p : PathId} {n : NodeId} {l : List PathId}

theorem Session.Ancestry.holds (h : s.Ancestry K p l) : ∃ n, s.Holds p n := by
  cases h with
  | root hl hr => exact ⟨_, hl.holds hr⟩
  | up hl _ hocc _ _ _ => exact ⟨_, hl.holds hocc⟩

/-- On the way up everything can be reached. -/
theorem Session.Ancestry.reachable (h : s.Ancestry K p l) (hp : s.Holds p n) :
    s.tree.Reachable n := by
  induction h generalizing n with
  | root hl hr =>
    obtain rfl := hp.unique_node (hl.holds hr)
    exact .root hr
  | up hl _ hocc hpos hq _ ih =>
    obtain rfl := hp.unique_node (hl.holds hocc)
    exact .child (ih hq) ⟨_, hpos, hocc⟩

/-- Whether the node of a path opens a scope can be asked for. -/
private theorem scopeAnswer_run (hs : s.Sound K) {pos : Position} (hw : pos.Within K)
    (hreach : pos.Within s.tree.reachable) (hl : s.Linked p pos)
    (hocc : s.tree.occupant? pos = some n) {k : NodeKind} (hk : s.tree.kind? n = some k) :
    ∃ v : Bool, (do
      match ← p.node? with
      | none => pure none
      | some node => do pure (if ← p.isScopeBlock then some (p, node) else none) :
        SessionM (Option (PathId × NodeId))) s = .ok (if v then some (p, n) else none) s ∧
      (k.type = .program → v = true) ∧ (v = true ↔ s.tree.Opens n) := by
  obtain ⟨v, hv, hscopable, hopens⟩ := PathId.isScopeBlock_run hs hw hl hocc hk
  refine ⟨v, ?_, fun hprogram => hscopable (by rw [hprogram]; rfl) (by rw [hprogram]; simp),
    hopens hreach⟩
  rw [bind_of_ok (PathId.node?_run_of_holds (hl.holds hocc))]
  exact bind_of_ok hv

/-- The way up meets a block that opens a scope, at the latest at the root. It is the innermost
one. -/
theorem Session.Ancestry.climb_run (hs : s.Sound K) (hroot : s.tree.Rooted) (h : s.Ancestry K p l)
    (hp : s.Holds p n) (fuel : Nat) (hfuel : l.length ≤ fuel) :
    ∃ q m l', PathId.climbWithin (fun q => do
      match ← q.node? with
      | none => pure none
      | some node => do pure (if ← q.isScopeBlock then some (q, node) else none)) fuel (some p) s =
        .ok (some (q, m)) s ∧ s.Holds q m ∧ s.Ancestry K q l' ∧ l'.length ≤ l.length ∧
          s.tree.ScopeAt n m := by
  induction h generalizing n fuel with
  | @root p r hl hr =>
    obtain rfl := hp.unique_node (hl.holds hr)
    obtain ⟨fuel, rfl⟩ : ∃ i, fuel = i + 1 := ⟨fuel - 1, by simp at hfuel; omega⟩
    obtain ⟨k, hk, htype⟩ := hroot.kind_root hr
    obtain ⟨v, hv, hprogram, hopens⟩ := scopeAnswer_run hs (Position.within_root K)
      (Position.within_root _) hl hr hk
    obtain rfl := hprogram htype
    refine ⟨p, n, [p], ?_, hl.holds hr, .root hl hr, Nat.le_refl _, .inl ⟨hopens.mp rfl, rfl⟩⟩
    unfold PathId.climbWithin
    exact bind_of_ok hv
  | @up p q pos c m l hl hw hocc hpos hq hup ih =>
    obtain rfl := hp.unique_node (hl.holds hocc)
    obtain ⟨fuel, rfl⟩ : ∃ i, fuel = i + 1 := ⟨fuel - 1, by simp at hfuel; omega⟩
    obtain ⟨k, hk⟩ := hs.forest.kind n (hs.forest.closed pos n hw hocc)
    have hm := hup.reachable hq
    obtain ⟨v, hv, -, hopens⟩ := scopeAnswer_run hs hw (Position.within_of_parent hpos hm) hl hocc hk
    unfold PathId.climbWithin
    rw [bind_of_ok hv]
    cases v with
    | true =>
      exact ⟨p, n, p :: l, rfl, hl.holds hocc, .up hl hw hocc hpos hq hup, Nat.le_refl _,
        .inl ⟨hopens.mp rfl, rfl⟩⟩
    | false =>
      obtain ⟨d, hf, -⟩ := id hl
      have hparent : p.parent? s = .ok (some q) s := by
        show (p.data >>= _) s = _
        rw [bind_of_ok (p.data_run hf.data)]
        show EStateM.Result.ok d.parent s = _
        rw [hl.parent_eq hs hf.data hpos hq]
      obtain ⟨r, m', l', hr, hm', hup', hlen, hat⟩ := ih hq fuel (by simp at hfuel; omega)
      have hnot : ¬ s.tree.Opens n := fun ho => by simpa using hopens.mpr ho
      refine ⟨r, m', l', ?_, hm', hup', by simp; omega, .inr ⟨hnot, ?_⟩⟩
      · show (p.parent? >>= _) s = _
        rw [bind_of_ok hparent]
        exact hr
      · rcases hat with ⟨ho, rfl⟩ | ⟨ho, hin⟩
        · exact .here hm ⟨pos, hpos, hocc⟩ ho
        · exact .up hm ⟨pos, hpos, hocc⟩ ho hin

/-- The nearest block that opens a scope is found. -/
theorem PathId.scopeBlock?_run (hs : s.Sound K) (hroot : s.tree.Rooted) (h : s.Ancestry K p l)
    (hp : s.Holds p n) : ∃ q b l', p.scopeBlock? s = .ok (some (q, b)) s ∧ s.Holds q b ∧
      s.Ancestry K q l' ∧ l'.length ≤ l.length ∧ s.tree.ScopeAt n b :=
  h.climb_run hs hroot hp s.paths.size (h.length_le hs)

/-- The innermost scope around a path is found, or built by crawling the block. -/
theorem scopeWithin_returns (hs : s.Sound K) (ho : s.scopes.Ordered)
    (hroot : s.tree.Rooted) (fuel : Nat) (h : s.Ancestry K p l) (hfuel : l.length ≤ fuel) :
    Returns (scopeWithin fuel p) s fun i s' => s.Surveys K s' ∧ s'.HasScope i := by
  induction fuel generalizing p l with
  | zero => exact absurd (List.length_eq_zero_iff.mp (Nat.le_zero.mp hfuel)) h.ne_nil
  | succ fuel ih =>
    obtain ⟨n, hp⟩ := h.holds
    obtain ⟨q, m, l', hfound, hq, hup, hlen, -⟩ := PathId.scopeBlock?_run hs hroot h hp
    unfold scopeWithin
    refine returns_bind_of_ok hfound ?_
    dsimp only
    rw [Returns, run_get_bind]
    cases hget : s.scopes.byBlock.get? m with
    | some i => exact ⟨i, s, rfl, .refl hs ho, ho.byBlock m i hget⟩
    | none =>
      -- The scope around the block is known before the block is crawled.
      have hcrawl : ∀ parent s₁, s.Surveys K s₁ → (∀ j, parent = some j → s₁.HasScope j) →
          Returns (crawlScope q parent) s₁ fun i s' => s.Surveys K s' ∧ s'.HasScope i := by
        intro parent s₁ h₁ hparent
        have hq₁ := h₁.grew.holds hs hq
        refine (crawlScope_settles (G := False) h₁.sound h₁.ordered hq₁ parent hparent
          False.elim False.elim False.elim False.elim).mono fun i s₃ hi => ?_
        obtain ⟨hi, u, s₂, h₂, h₃⟩ := hi
        refine ⟨(h₁.trans h₂.toSurveys).trans (h₃.surveys h₂.sound h₂.ordered), hi.hasScope⟩
      cases hup with
      | root hl hr =>
        obtain ⟨d, hf, ha⟩ := hl
        have hparent : q.parent? s = .ok none s := by
          show (q.data >>= _) s = _
          rw [bind_of_ok (q.data_run hf.data)]
          show EStateM.Result.ok d.parent s = _
          rw [show d.parent = none from ha]
        refine returns_bind_of_ok hparent ?_
        exact hcrawl none s (.refl hs ho) (by simp)
      | @up _ r pos n' m' l'' hl hw hocc hpos hr hup' =>
        obtain ⟨d, hf, -⟩ := id hl
        have hparent : q.parent? s = .ok (some r) s := by
          show (q.data >>= _) s = _
          rw [bind_of_ok (q.data_run hf.data)]
          show EStateM.Result.ok d.parent s = _
          rw [hl.parent_eq hs hf.data hpos hr]
        refine returns_bind_of_ok hparent ?_
        have hrest := ih hup' (by simp only [List.length_cons] at hlen; omega)
        refine hrest.bind fun j s₁ hj => ?_
        exact hcrawl (some j) s₁ hj.1 fun j' hj' => Option.some.inj hj' ▸ hj.2

/-- Scopes that are built already are not built again. -/
theorem ensureScopes_run (hcrawled : s.scopes.crawled = true) : ensureScopes s = .ok () s := by
  have hasked : scopesCrawled s = .ok true s := by
    show EStateM.Result.ok s.scopes.crawled s = _
    rw [hcrawled]
  unfold ensureScopes
  rw [bind_of_ok hasked]
  rfl

/-- Once the scopes are built, the scope of a path that can be reached is found. -/
theorem PathId.scope_returns (hs : s.Sound K) (ho : s.scopes.Ordered)
    (hroot : s.tree.Rooted) (hcrawled : s.scopes.crawled = true) (hp : s.Holds p n)
    (hn : s.tree.Reachable n) :
    Returns p.scope s fun i s' => s.Surveys K s' ∧ s'.HasScope i := by
  obtain ⟨l, hl⟩ := hs.exists_ancestry hn hp
  unfold PathId.scope
  refine returns_bind_of_ok (ensureScopes_run hcrawled) ?_
  rw [Returns, run_get_bind]
  exact scopeWithin_returns hs ho hroot _ hl (Nat.le_succ_of_le (hl.length_le hs))

end ScopeOf

/-! ## Registering a declaration -/

section Register

variable {s : Session} {K : Set NodeId} {p : PathId} {n : NodeId}

/-- Declaring the name of a function that came into the tree. -/
private theorem registerFunction_returns (hs : s.Sound K) (ho : s.scopes.Ordered) {i : ScopeId}
    (hi : s.HasScope i) {id : NodeId} {k : NodeKind} (hk : s.tree.kind? id = some k) :
    Returns (do
      let outer ← match (← i.data).parent with
        | some parent => parent.functionScope
        | none => pure i
      match (← ask fun t => t.kind? id).identifierName? with
      | some name => outer.registerBinding name .hoisted p id
      | none => pure ()) s fun _ s' => s.Surveys K s' := by
  obtain ⟨sc, hsc⟩ := hi.scope
  have houter : ∃ j, s.HasScope j ∧ (match sc.parent with
      | some parent => parent.functionScope
      | none => pure i : SessionM ScopeId) s = .ok j s := by
    cases hparent : sc.parent with
    | none => exact ⟨i, hi, rfl⟩
    | some j =>
      have hj : s.HasScope j := Nat.lt_trans (ho.parent i.index sc j hsc hparent) hi
      obtain ⟨h, hrun, hh⟩ := ScopeId.functionScope_run ho hj
      exact ⟨h, hh.hasScope, hrun⟩
  obtain ⟨j, hj, hrun⟩ := houter
  have htail : Returns (do
      match (← ask fun t => t.kind? id).identifierName? with
      | some name => j.registerBinding name .hoisted p id
      | none => pure ()) s fun _ s' => s.Surveys K s' := by
    refine returns_bind_of_ok (ask_run hk) ?_
    cases k.identifierName? with
    | none => exact .pure (.refl hs ho)
    | some name =>
      exact (registerBinding_walked (G := False) (F := ∅) hs ho hj name .hoisted p id
        ((s.tree.kind?_isSome_iff id).mp ⟨k, hk⟩) False.elim).mono fun _ _ h => h.toSurveys
  refine returns_bind_of_ok (ScopeId.data_run hsc) ?_
  cases hparent : sc.parent with
  | none =>
    rw [hparent] at hrun
    exact returns_bind_of_ok hrun htail
  | some _ =>
    rw [hparent] at hrun
    exact returns_bind_of_ok hrun htail

/-- Declare the names of the declaration at a path once its scope is known. -/
def PathId.declareIn (p : PathId) (node : NodeId) (scope : ScopeId) : SessionM Unit := do
  match ← ask fun t => t.kind? node with
  | .variableDeclaration kind _ =>
    let _ ← registerDeclarators p kind scope fun _ => pure {}
  | .functionDeclaration (some id) _ _ _ _ _ =>
    let outer ← match (← scope.data).parent with
      | some parent => parent.functionScope
      | none => pure scope
    match (← ask fun t => t.kind? id).identifierName? with
    | some name => outer.registerBinding name .hoisted p id
    | none => pure ()
  | .importDeclaration .. => registerImports p scope
  | _ => pure ()

theorem PathId.registerDeclaration_run (hp : s.Holds p n) :
    p.registerDeclaration s = (p.scope >>= p.declareIn n) s := by
  unfold PathId.registerDeclaration
  rw [bind_of_ok (PathId.node?_run_of_holds hp)]
  rfl

/-- The names of a declaration that can be reached are declared. -/
theorem PathId.declareIn_returns (hs : s.Sound K) (ho : s.scopes.Ordered) (hp : s.Holds p n)
    (hn : s.tree.Reachable n) {i : ScopeId} (hi : s.HasScope i) :
    Returns (p.declareIn n i) s fun _ s' => s.Surveys K s' := by
  obtain ⟨pos, hw, hl, hocc⟩ := hs.linked_of_reachable hp hn
  have hwK := Position.within_mono (fun m hm => hs.forest.mem_of_reachable hm) hw
  have hat : s.At K False p n i :=
    ⟨hs, ho, hi, ⟨pos, hwK, hl, hocc⟩, False.elim, False.elim⟩
  obtain ⟨k, hk⟩ := hs.forest.kind n (hs.mem_of_holds hp)
  unfold PathId.declareIn
  refine returns_bind_of_ok (ask_run hk) ?_
  split
  · refine (registerDeclarators_walked hat hk (fun _ => pure {}) (fun _ => ∅) (by simp)
      fun q e pos s₂ _ h₂ _ _ _ => .pure (.refl h₂.sound h₂.ordered)).bind fun _ s₂ h₂ => ?_
    exact .pure h₂.toSurveys
  · next id _ _ _ _ _ =>
    have hid : s.tree.IsChild n id := (s.tree.isChild_iff n id).mpr
      ⟨_, hk, by simp [NodeKind.children, NodeKind.fields, Child.ids]⟩
    obtain ⟨kid, hkid⟩ := hs.forest.kind id (hs.forest.closed_child (hs.mem_of_holds hp) hid)
    exact registerFunction_returns hs ho hi hkid
  · exact (registerImports_walked hat hk).mono fun _ _ h => h.toSurveys
  · exact .pure (.refl hs ho)

/-- A declaration that can be reached is registered. -/
theorem registerDeclaration_returns (hs : s.Sound K) (ho : s.scopes.Ordered)
    (hroot : s.tree.Rooted) (hcrawled : s.scopes.crawled = true) (hp : s.Holds p n)
    (hn : s.tree.Reachable n) :
    Returns p.registerDeclaration s fun _ s' => s.Surveys K s' := by
  rw [Returns, PathId.registerDeclaration_run hp]
  refine (PathId.scope_returns hs ho hroot hcrawled hp hn).bind fun i s₁ h₁ => ?_
  obtain ⟨h₁, hi⟩ := h₁
  refine (PathId.declareIn_returns h₁.sound h₁.ordered (h₁.grew.holds hs hp)
    (by rw [h₁.tree]; exact hn) hi).mono fun _ s₂ h₂ => h₁.trans h₂

end Register

/-! ## Forgetting a subtree -/

/-- The nodes below a node of bounded depth can be listed. -/
theorem Tree.DepthWithin.subtreeWithin {t : Tree} {d : Nat} {n : NodeId} (h : t.DepthWithin d n) :
    ∃ l, t.subtreeWithin d n = some l ∧ ∀ m, m ∈ l ↔ Relation.ReflTransGen t.IsChild n m := by
  induction d generalizing n with
  | zero => exact h.elim
  | succ d ih =>
    obtain ⟨k, hk, hchildren⟩ := h
    have hlists : ∀ ids : List NodeId, (∀ c ∈ ids, t.DepthWithin d c) →
        ∃ ls, ids.mapM (t.subtreeWithin d) = some ls ∧
          ∀ m, m ∈ ls.flatten ↔ ∃ c ∈ ids, Relation.ReflTransGen t.IsChild c m := by
      intro ids hids
      induction ids with
      | nil => exact ⟨[], rfl, by simp⟩
      | cons c ids ihids =>
        obtain ⟨l, hl, hmem⟩ := ih (hids c (by simp))
        obtain ⟨ls, hls, hmems⟩ := ihids fun c' hc' => hids c' (by simp [hc'])
        refine ⟨l :: ls, by rw [List.mapM_cons, hl, hls]; rfl, fun m => ?_⟩
        rw [List.flatten_cons, List.mem_append, hmem, hmems]
        simp
    obtain ⟨ls, hls, hmems⟩ := hlists k.children hchildren
    refine ⟨n :: ls.flatten, ?_, fun m => ?_⟩
    · simp only [Tree.subtreeWithin, Tree.children?_of_kind hk]
      show (k.children.mapM (t.subtreeWithin d) >>= fun lists => some (n :: lists.flatten)) = _
      rw [hls]
      rfl
    · rw [List.mem_cons, hmems, Relation.ReflTransGen.cases_head_iff]
      have hchild : ∀ c, t.IsChild n c ↔ c ∈ k.children := by
        intro c
        rw [t.isChild_iff]
        exact ⟨fun ⟨k', hk', hc⟩ => by rwa [Option.some.inj (hk.symm.trans hk')],
          fun hc => ⟨k, hk, hc⟩⟩
      simp only [hchild, eq_comm (a := n)]

/-- The session with every scope changed in the same way. -/
def Session.mapScopes (s : Session) (f : Scope → Scope) : Session :=
  { s with scopes := { s.scopes with scopes := s.scopes.scopes.map f } }

/-- Does the path hold a node outside the list? -/
def Session.lives (s : Session) (below : List NodeId) (p : PathId) : Bool :=
  match s.paths[p.index]? with
  | some d => d.node.any fun id => decide (id ∉ below)
  | none => false

section Unregister

variable {s : Session} {K : Set NodeId} {n : NodeId}

/-- The second session has other names in its scopes, and differs in nothing else. -/
structure Session.Rescoped (s s' : Session) : Prop where
  rest : s' = { s with scopes := s'.scopes }
  ordered : s.scopes.Ordered → s'.scopes.Ordered
  crawled : s'.scopes.crawled = s.scopes.crawled
  byBlock : s'.scopes.byBlock = s.scopes.byBlock
  places : ∀ i : Nat, (s'.scopes.scopes[i]?).map Scope.place = (s.scopes.scopes[i]?).map Scope.place

theorem Session.Rescoped.refl (s : Session) : s.Rescoped s := ⟨rfl, id, rfl, rfl, fun _ => rfl⟩

theorem Session.Rescoped.alike {s' : Session} (h : s.Rescoped s') : s.Alike s' := by
  rw [h.rest]
  exact s.alike_scopes _

theorem Session.Rescoped.sound {s' : Session} (h : s.Rescoped s') (hs : s.Sound K) :
    s'.Sound K := by
  rw [h.rest]
  exact (s.alike_scopes _).sound_of_paths hs rfl

/-- A change of every scope that moves none of them. -/
theorem Session.rescoped_mapScopes (s : Session) {f : Scope → Scope}
    (hf : ∀ sc, (f sc).place = sc.place) : s.Rescoped (s.mapScopes f) where
  rest := rfl
  ordered h := by
    refine ⟨fun i sc j hsc hj => ?_, fun b i hi => ?_, fun i hi => ?_⟩
    · simp only [mapScopes, Array.getElem?_map] at hsc
      obtain ⟨sc₀, hsc₀, rfl⟩ := Option.map_eq_some_iff.mp hsc
      have hplace := hf sc₀
      simp only [Scope.place, Prod.mk.injEq] at hplace
      exact h.parent i sc₀ j hsc₀ (hplace.2.2 ▸ hj)
    · simpa [mapScopes] using h.byBlock b i hi
    · simpa [mapScopes] using h.root i hi
  crawled := rfl
  byBlock := rfl
  places i := by
    simp only [mapScopes, Array.getElem?_map, Option.map_map]
    exact congrArg (fun g => (s.scopes.scopes[i]?).map g) (funext hf)

/-- Some scopes are changed one after the other, each of them once. -/
private theorem forM_modifyData_returns (l : List ScopeId) (g : Scope → Scope) (hl : l.Nodup)
    (hhas : ∀ i ∈ l, s.HasScope i) :
    Returns (l.forM fun i => i.modifyData g) s fun _ s' =>
      s' = { s with scopes := { s.scopes with scopes := s'.scopes.scopes } } ∧
        ∀ i : ScopeId, s'.scopes.scopes[i.index]? =
          if i ∈ l then (s.scopes.scopes[i.index]?).map g else s.scopes.scopes[i.index]? := by
  induction l generalizing s with
  | nil => exact .pure ⟨rfl, by simp⟩
  | cons i l ih =>
    obtain ⟨hi, hl⟩ := List.nodup_cons.mp hl
    show Returns (i.modifyData g >>= fun _ => l.forM fun i => i.modifyData g) s _
    refine returns_bind_of_ok (ScopeId.modifyData_run (hhas i (by simp)) g) ?_
    refine (ih hl fun j hj => ?_).mono fun _ s' ⟨hrest, hget⟩ => ⟨hrest, fun j => ?_⟩
    · show j.index < (s.mapScope i g).scopes.scopes.size
      rw [size_mapScope]
      exact hhas j (by simp [hj])
    · rw [hget, getElem?_mapScope]
      by_cases hij : i = j
      · subst hij
        simp [hi]
      · have hne : i.index ≠ j.index := fun h => hij (by cases i; cases j; cases h; rfl)
        simp [hne, Ne.symm hij]

/-- Changing one scope after the other changes all of them. -/
theorem forM_modifyData_run (s : Session) (g : Scope → Scope) :
    (((List.range s.scopes.scopes.size).map ScopeId.mk).forM fun i => i.modifyData g) s =
      .ok () (s.mapScopes g) := by
  have hnodup : ((List.range s.scopes.scopes.size).map ScopeId.mk).Nodup :=
    List.nodup_range.map fun a b h => by cases h; rfl
  obtain ⟨_, s', hrun, hrest, hget⟩ := forM_modifyData_returns (s := s) _ g hnodup fun i hi => by
    obtain ⟨j, hj, rfl⟩ := List.mem_map.mp hi
    exact List.mem_range.mp hj
  have hall : s'.scopes.scopes = s.scopes.scopes.map g := by
    refine Array.ext_getElem? fun j => ?_
    rw [hget ⟨j⟩, Array.getElem?_map]
    by_cases hj : j < s.scopes.scopes.size
    · simp [hj]
    · simp [hj]
  rw [hrun, hrest, hall]
  rfl

/-- What the scopes know about a subtree is forgotten in all of them, once they are built. -/
theorem unregister_run_of_subtree {below : List NodeId} (h : s.tree.subtree? n = some below) :
    unregister n s = .ok () (if s.scopes.crawled = true then
      s.mapScopes (Scope.without below (s.lives below)) else s) := by
  unfold unregister
  rw [bind_of_ok (show scopesCrawled s = .ok s.scopes.crawled s from rfl)]
  split
  · rw [bind_of_ok (askBelow_run h), run_get_bind]
    exact (bind_of_ok (show scopeIds s = .ok _ s from rfl)).trans (forM_modifyData_run s _)
  · rfl

theorem unregister_run (hs : s.Sound K) (hn : n ∈ K) : ∃ below : List NodeId,
    (∀ m, m ∈ below ↔ Relation.ReflTransGen s.tree.IsChild n m) ∧
      unregister n s = .ok () (if s.scopes.crawled = true then
        s.mapScopes (Scope.without below (s.lives below)) else s) := by
  obtain ⟨below, hbelow, hmem⟩ := ((hs.forest.depthWithin hn).mono
    (show s.tree.size ≤ s.tree.depthBound by unfold Tree.depthBound; omega)).subtreeWithin
  exact ⟨below, hmem, unregister_run_of_subtree hbelow⟩

/-- Forgetting what the scopes know about a subtree. -/
theorem unregister_returns (hs : s.Sound K) (hn : n ∈ K) :
    Returns (unregister n) s fun _ s' => s.Rescoped s' := by
  obtain ⟨below, -, hrun⟩ := unregister_run hs hn
  refine ⟨(), _, hrun, ?_⟩
  split
  · exact s.rescoped_mapScopes fun _ => rfl
  · exact .refl s

end Unregister

end Espalier
