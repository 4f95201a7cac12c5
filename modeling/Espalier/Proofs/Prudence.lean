import Espalier.Proofs.Insertion
import Espalier.Proofs.Sharing

set_option autoImplicit false

/-! # One scope for each block

A client that asks for the scope of a block only when the block outside it has one finds one scope
for each block, whatever else it does: it may go anywhere, build nodes, insert new ones, take
elements out of lists, declare names, and ask again (`Session.Prudent.one_scope`). The guard is
needed. To ask for a block inside a new block crawls the new block first, and the crawl gives the
inner one a scope; the inner one is then crawled on its own account, and has two
(`nestedProgram_splits`). -/

namespace Espalier

open SessionM Session

/-! ## Building the scopes -/

namespace Session

/-- There are no scopes. -/
def Unscoped (s : Session) : Prop :=
  (∀ i : Nat, s.scopes.scopes[i]? = none) ∧ ∀ b, s.scopes.byBlock.get? b = none

/-- Scopes and blocks are in step, and there are no scopes before they are built. -/
structure Upright (s : Session) (K : Set NodeId) : Prop extends Matched s K where
  unbuilt : s.scopes.crawled = false → s.Unscoped

section Unscoped

variable {s : Session} {K : Set NodeId}

theorem Unscoped.not_scopeOf (h : s.Unscoped) (i : ScopeId) (b : NodeId) : ¬ s.ScopeOf i b := by
  rintro ⟨sc, hsc, -⟩
  rw [h.1] at hsc
  cases hsc

theorem Unscoped.matched (h : s.Unscoped) (ho : s.Orderly K) : s.Matched K where
  toOrderly := ho
  housed i sc hsc := by simp [h.1] at hsc
  found i b hi := absurd hi (h.not_scopeOf i b)
  known b i hi := by simp [h.2] at hi

end Unscoped

end Session

section Build

variable {s : Session} {K : Set NodeId}

/-- The crawl of a program leaves scopes and blocks in step. -/
private theorem crawlRoot_matched (h : s.Orderly K) (hnone : s.Unscoped) :
    Returns (do
      let root ← rootPath
      if (← root.node?).isSome then
        let _ ← crawlScope root none) s fun _ s' => s.Surveys K s' ∧ s'.Matched K := by
  obtain ⟨r, hr, -⟩ := h.program.root
  have hm := hnone.matched h
  refine (pathFor_returns .root h.sound (fun p hp => by simp at hp) rfl).bind fun p s₁ hp => ?_
  obtain ⟨d, hf, -⟩ := hp.files
  have hpr : s₁.Holds p r := hf.holds (by rw [hp.tree]; exact hr)
  have h₁ := hp.toWent.opened h.sound h.ordered
  refine returns_bind_of_ok (PathId.node?_run_of_holds hpr) ?_
  rw [Option.isSome_some, if_pos rfl]
  refine (crawlScope_opened h₁.sound h₁.ordered hpr none (by simp)).bind fun i s₂ h₂ => .pure ?_
  have h₁₂ := h₁.after_lodging h₂.1
  exact ⟨h₁₂.toSurveys, hm.opened h₁₂ fun b _ => hnone.2 b⟩

/-- Building the scopes gives every block its scope. -/
theorem ensureScopes_upright (h : s.Upright K) : Returns ensureScopes s fun _ s' =>
    s'.Upright K ∧ s'.scopes.crawled = true ∧ s'.tree = s.tree ∧
      ∀ p n, s.Holds p n → s'.Holds p n := by
  cases hcrawled : s.scopes.crawled with
  | true =>
    exact ⟨(), s, ensureScopes_run hcrawled, h, hcrawled, rfl, fun _ _ => id⟩
  | false =>
    let s₀ : Session := { s with scopes := { s.scopes with crawled := true } }
    have ha : s.Alike s₀ := s.alike_scopes _
    have h₀ : s₀.Orderly K :=
      h.toOrderly.alike ha rfl ⟨h.ordered.parent, h.ordered.byBlock, h.ordered.root⟩
    have hasked : scopesCrawled s = .ok false s := by
      show EStateM.Result.ok s.scopes.crawled s = _
      rw [hcrawled]
    unfold ensureScopes
    refine returns_bind_of_ok hasked ?_
    rw [if_neg Bool.false_ne_true, Returns, run_modify_bind]
    refine (crawlRoot_matched h₀ (h.unbuilt hcrawled)).mono fun _ s' hcrawl => ?_
    obtain ⟨hs, hm⟩ := hcrawl
    have hbuilt : s'.scopes.crawled = true := hs.widened.crawled
    refine ⟨⟨hm, fun hno => ?_⟩, hbuilt, hs.tree, fun p n hp => hs.grew.holds h₀.sound (ha.holds hp)⟩
    rw [hbuilt] at hno
    cases hno

end Build

/-! ## Asking -/

section Ask

variable {s : Session} {K : Set NodeId} {p : PathId} {n b : NodeId} {i : ScopeId}

theorem Session.Upright.opened {s' : Session} {R : Set NodeId} (h : s.Upright K)
    (hcrawled : s.scopes.crawled = true) (ho : s.Opened K R s')
    (hR : ∀ m ∈ R, s.scopes.byBlock.get? m = none) : s'.Upright K where
  toMatched := h.toMatched.opened ho hR
  unbuilt hno := by
    rw [ho.widened.crawled, hcrawled] at hno
    cases hno

/-- The scope of a path is asked for in the session whose scopes are built. -/
theorem PathId.scope_after_ensureScopes (h : s.Upright K) (p : PathId) :
    p.scope s = p.scope (after ensureScopes s) := by
  obtain ⟨_, s₁, hrun, -, hcrawled, -⟩ := ensureScopes_upright h
  unfold PathId.scope
  rw [bind_of_ok hrun, after_of_ok hrun, bind_of_ok (ensureScopes_run hcrawled)]

theorem after_ensureScopes (h : s.Upright K) : (after ensureScopes s).Upright K ∧
    (after ensureScopes s).scopes.crawled = true ∧ (after ensureScopes s).tree = s.tree ∧
      ∀ p n, s.Holds p n → (after ensureScopes s).Holds p n := by
  obtain ⟨_, s₁, hrun, h₁⟩ := ensureScopes_upright h
  rwa [after_of_ok hrun]

/-- Asking for a scope leaves scopes and blocks in step. -/
theorem PathId.scope_upright (h : s.Upright K) (hp : s.Holds p n) (hn : s.tree.Reachable n)
    (hasks : (after ensureScopes s).Asks n) : Returns p.scope s fun i s' => s'.Upright K ∧
      (after ensureScopes s).Surveys K s' ∧ ∃ b, s.tree.ScopeAt n b ∧ s'.ScopeOf i b := by
  obtain ⟨h₁, hcrawled, htree, hkeeps⟩ := after_ensureScopes h
  rw [Returns, PathId.scope_after_ensureScopes h p]
  refine (PathId.scope_matched h₁.toMatched hcrawled (hkeeps p n hp) (by rwa [htree]) hasks).mono ?_
  rintro i s' ⟨b, R, hb, ho, hR, hi⟩
  exact ⟨h₁.opened hcrawled ho fun m hm => (hR m hm).2.1, ho.toSurveys, b, htree ▸ hb, hi⟩

/-- Declaring the names of a declaration leaves scopes and blocks in step. -/
theorem PathId.registerDeclaration_upright (h : s.Upright K) (hp : s.Holds p n)
    (hn : s.tree.Reachable n) (hasks : (after ensureScopes s).Asks n) :
    Returns p.registerDeclaration s fun _ s' => s'.Upright K := by
  obtain ⟨h₁, hcrawled, htree, hkeeps⟩ := after_ensureScopes h
  rw [Returns, PathId.registerDeclaration_run hp]
  refine (PathId.scope_upright h hp hn hasks).bind fun i s₂ hscope => ?_
  obtain ⟨h₂, hs₂, b, -, hi⟩ := hscope
  have hn₂ : s₂.tree.Reachable n := by
    rw [hs₂.tree, htree]
    exact hn
  refine (PathId.declareIn_opened h₂.sound h₂.ordered (hs₂.grew.holds h₁.sound (hkeeps p n hp)) hn₂
    hi.hasScope).mono fun _ s₃ h₃ => ?_
  exact h₂.opened (hs₂.widened.crawled.trans hcrawled) h₃ fun _ hm => hm.elim

end Ask

/-! ## Editing -/

section Edit

variable {s s' : Session} {K K' : Set NodeId} {p host : PathId} {n owner : NodeId} {f : Field}
  {ids nodes : List NodeId} {j : Nat}

namespace Session

/-- Once the scopes are built, the innermost block around the node has one, if some of the nodes
declare names. -/
def Attends (s : Session) (owner : NodeId) (nodes : List NodeId) : Prop :=
  s.scopes.crawled = true →
    (∃ n ∈ nodes, ∃ k, s.tree.kind? n = some k ∧ k.type.isDeclaration = true) →
      ∃ b i, s.tree.ScopeAt owner b ∧ s.scopes.byBlock.get? b = some i

theorem Reworked.upright (h : s.Reworked K K' s') (hs : s.Upright K) : s'.Upright K' where
  toMatched := h.matched hs.toMatched
  unbuilt hno := by
    obtain ⟨hscopes, hblocks⟩ := hs.unbuilt (h.crawled ▸ hno)
    refine ⟨fun i => ?_, fun b => by rw [h.byBlock, hblocks]⟩
    have hplace := h.places i
    rw [hscopes] at hplace
    exact Option.map_eq_none_iff.mp hplace

end Session

/-- Where nothing declares names, nothing is registered. -/
private theorem registerInserted_run {ps : List PathId} (h : s.Sound K)
    (hps : List.Forall₂ s.Holds ps nodes) (hno : s.scopes.crawled = true → ∀ n ∈ nodes, ∀ k,
      s.tree.kind? n = some k → k.type.isDeclaration = false) :
    registerInserted ps s = .ok () s := by
  unfold registerInserted
  rw [bind_of_ok (show scopesCrawled s = .ok s.scopes.crawled s from rfl)]
  split
  · next hcrawled =>
    replace hno := hno hcrawled
    induction hps with
    | nil => rfl
    | @cons q n ps nodes hq _ ih =>
      obtain ⟨k, hk⟩ := h.forest.kind n (h.mem_of_holds hq)
      have hone : (do if ← q.isAny NodeType.isDeclaration then q.registerDeclaration) s =
          .ok () s := by
        rw [bind_of_ok (PathId.isAny_run_of_holds hq hk _), hno n (by simp) k hk]
        rfl
      exact (bind_of_ok hone).trans (ih fun m hm => hno m (by simp [hm]))
  · rfl

/-- Splicing new nodes into a list leaves scopes and blocks in step. -/
theorem PathId.insertAt_upright (h : s.Upright K) (hhosts : s.Hosts K host owner f ids)
    (hj : j ≤ ids.length) (hloose : s.tree.Loose K nodes) (hattends : s.Attends owner nodes) :
    Returns (host.insertAt f j nodes) s fun _ s' => s'.Upright (K ∪ s.tree.below nodes) := by
  by_cases hdeclares : s.scopes.crawled = true ∧
      ∃ n ∈ nodes, ∃ k, s.tree.kind? n = some k ∧ k.type.isDeclaration = true
  · obtain ⟨b, i, hb, hi⟩ := hattends hdeclares.1 hdeclares.2
    obtain ⟨fn, -, hfn⟩ := ScopeId.functionScope_run h.ordered (h.ordered.byBlock b i hi)
    refine (PathId.insertAt_matched h.toMatched hhosts hj hloose hdeclares.1 hb hi hfn).mono ?_
    rintro _ s' ⟨hm, hbuilt, -⟩
    refine ⟨hm, fun hno => ?_⟩
    rw [hbuilt] at hno
    cases hno
  · obtain ⟨k, hk, hc⟩ := hhosts.child
    obtain ⟨ps, s₁, hs₁, hrun⟩ :=
      PathId.insertAt_run h.toOrderly hhosts.holds hhosts.reachable hk hc hj hloose
    have hsame : registerInserted ps s₁ = .ok () s₁ := by
      refine registerInserted_run hs₁.edited.orderly.sound hs₁.holds fun hcrawled n hn k hk => ?_
      by_contra hdeclaration
      refine hdeclares ⟨by rwa [hs₁.scopes] at hcrawled, n, hn, k, ?_, by simpa using hdeclaration⟩
      have hne : n ≠ owner := fun heq => hloose.not_mem hn (heq ▸ hhosts.mem_forest)
      rwa [hs₁.tree.kind n hne] at hk
    exact ⟨ps, s₁, hrun.trans (bind_of_ok hsame),
      (hs₁.reworked h.sound hhosts.mem_forest hloose).upright h⟩

/-- Inserting beside a node leaves scopes and blocks in step. -/
theorem PathId.insertBeside_upright (h : s.Upright K) (hp : s.Holds p n)
    (hland : s.tree.LandsIn owner f n) (hloose : s.tree.Loose K nodes)
    (hattends : s.Attends owner nodes) (behind : Bool) :
    Returns (p.insertBeside nodes behind) s fun _ s' => s'.Upright (K ∪ s.tree.below nodes) := by
  by_cases hnil : nodes = []
  · subst hnil
    rw [Tree.below_nil, Set.union_empty]
    exact ⟨[], s, PathId.insertBeside_nil_run h.sound hp hland.reachable behind, h⟩
  · obtain ⟨host, ids, i, hhosts, hi, hrun⟩ :=
      PathId.insertBeside_run h.toOrderly hland behind hp hnil
    rw [Returns, hrun]
    exact PathId.insertAt_upright h hhosts hi hloose hattends

private theorem mem_of_mem_withdrawn {c : NodeId} (hc : c ∈ substitute n [] ids) : c ∈ ids := by
  obtain ⟨m, hm, hcm⟩ := List.mem_flatMap.mp hc
  split at hcm
  · simp at hcm
  · rwa [List.mem_singleton.mp hcm]

/-- An element that was taken out of its list. -/
theorem Session.Withdrawn.reworked {s₁ : Session} (h : s₁.Withdrawn K owner f ids n s')
    (h₁ : s.Rescoped s₁) (hhosts : s.Hosts K host owner f ids) (hn : n ∈ ids) :
    s.Reworked K K s' where
  orderly := h.edited.orderly
  wider _ hm := hm
  byBlock := by rw [h.scopes, h₁.byBlock]
  crawled := by rw [h.scopes, h₁.crawled]
  places i := by rw [h.scopes, h₁.places]
  old m hm hr := by
    rcases h.tree.reachable_of_reachable (h₁.sound hhosts.orderly.sound).forest (.nil _ _)
      hhosts.mem_forest (fun c hc => .inl (mem_of_mem_withdrawn hc)) hr with ⟨-, hr⟩ | hb
    · rwa [h₁.rest] at hr
    · simp [Tree.below_nil] at hb
  gone q hq := h.edited.gone q (h₁.alike.gone hq)
  fate q m hq := by
    have hq₁ := h₁.alike.holds hq
    by_cases hstays : m ∈ ids → m ∈ substitute n [] ids
    · exact .inl (h.edited.keeps q m hq₁ hstays)
    · obtain ⟨hm, hout⟩ := Classical.not_imp.mp hstays
      refine .inr ⟨?_, .inl ?_⟩
      · exact h.tree.not_reachable_of_left (h₁.sound hhosts.orderly.sound).forest (.nil _ _)
          hhosts.mem_forest (fun c hc => .inl (mem_of_mem_withdrawn hc)) hm hout
      · rcases h.edited.fate q m hq₁ hm hout with hgone | ⟨i, c, -, hids, -⟩
        · exact hgone
        · -- The list is shorter than before.
          obtain ⟨i', hi'⟩ := List.mem_iff_getElem?.mp hn
          have hlen := congrArg List.length hids
          have hlt := (List.getElem?_eq_some_iff.mp hi').1
          rw [substitute_eq hhosts.nodup hi'] at hlen
          simp only [List.length_set, List.length_append, List.length_take, List.length_drop,
            List.length_nil] at hlen
          omega

/-- Removing an element leaves scopes and blocks in step. -/
theorem PathId.remove_upright (h : s.Upright K) (hhosts : s.Hosts K host owner f ids)
    (hp : s.Holds p n) (hn : n ∈ ids) {k : NodeKind} (hk : s.tree.kind? owner = some k)
    (hspares : k.type.Spares ids) : Returns p.remove s fun _ s' => s'.Upright K := by
  obtain ⟨s₁, -, h₁, hremove⟩ := PathId.remove_withdraws hhosts hp hn hk hspares
  exact hremove.mono fun _ s' h' => (h'.reworked h₁ hhosts hn).upright h

end Edit

/-- To look up the binding of an identifier is to ask for its scope, if anything. -/
theorem PathId.after_binding? (p : PathId) (s : Session) :
    after p.binding? s = s ∨ after p.binding? s = after p.scope s := by
  rcases question_cases (Composed.identifierName? p) s with ⟨e, herror⟩ | ⟨o, hrun⟩
  · exact .inl (after_of_error (bind_of_error herror))
  · rcases o with _ | name
    · exact .inl (after_of_ok (bind_of_ok hrun))
    · have hlook : after p.binding? s = after (p.scope >>= fun i => i.binding? name) s := by
        unfold after PathId.binding?
        rw [bind_of_ok hrun]
      refine .inr (hlook.trans ?_)
      cases hscope : p.scope s with
      | error e s' => rw [after_of_error (bind_of_error hscope), after_of_error hscope]
      | ok i s' =>
        have hcomposed : Composed (fun _ _ => False) (i.binding? name) := .scopeBinding? i name
        have hquestion := hcomposed.question_after s'
        unfold after at hquestion ⊢
        rw [bind_of_ok hscope, hquestion, hscope]

/-! ## Clients -/

namespace Session

section Steps

variable {s s' : Session} {K : Set NodeId}

theorem Upright.went (h : s.Upright K) (hw : s.Went K s') : s'.Upright K where
  toMatched := h.toMatched.opened (hw.opened h.sound h.ordered) fun _ hm => hm.elim
  unbuilt hno := by
    rw [hw.scopes] at hno
    obtain ⟨hscopes, hblocks⟩ := h.unbuilt hno
    exact ⟨fun i => by rw [hw.scopes, hscopes], fun b => by rw [hw.scopes, hblocks]⟩

/-- New nodes are nothing to the scopes. -/
theorem Upright.grown {t : Tree} (h : s.Upright K) (hg : s.tree.Grown t)
    (hsmall : t.size ≤ Tree.maxSize) : Upright { s with tree := t } K where
  toOrderly := (h.rooted.grown hg).orderly hsmall
  housed := h.housed
  found := h.found
  known b i hi := by
    obtain ⟨hb, hscope⟩ := h.known b i hi
    exact ⟨hb, fun hr => hscope ((hg.reachable_iff h.sound.forest).mp hr)⟩
  unbuilt := h.unbuilt

end Steps

/-- The sessions of a client that asks for the scope of a block only when the block outside it has
one, and the nodes that are or were in the tree. What comes into the tree is new, and what declares
names comes into a block that has a scope. -/
inductive Prudent : Set NodeId → Session → Prop
  | opened {t : Tree} {config : Config} {s : Session} (ht : t.IsProgram)
      (hopen : Session.open? t config = .ok s) : Prudent t.reachable s
  | moved {K : Set NodeId} {s : Session} (m : Move) (h : Prudent K s) : Prudent K (after m.run s)
  | built {K : Set NodeId} {s : Session} {t : Tree} (h : Prudent K s) (hgrown : s.tree.Grown t)
      (hsmall : t.size ≤ Tree.maxSize) : Prudent K { s with tree := t }
  | ensured {K : Set NodeId} {s : Session} (h : Prudent K s) : Prudent K (after ensureScopes s)
  | crawled {K : Set NodeId} {s : Session} (h : Prudent K s) : Prudent K (after crawl s)
  | asked {K : Set NodeId} {s : Session} {p : PathId} {n : NodeId} (h : Prudent K s)
      (hp : s.Holds p n) (hn : s.tree.Reachable n) (hasks : (after ensureScopes s).Asks n) :
      Prudent K (after p.scope s)
  | looked {K : Set NodeId} {s : Session} {p : PathId} {n : NodeId} (h : Prudent K s)
      (hp : s.Holds p n) (hn : s.tree.Reachable n) (hasks : (after ensureScopes s).Asks n) :
      Prudent K (after p.binding? s)
  | registered {K : Set NodeId} {s : Session} {p : PathId} {n : NodeId} (h : Prudent K s)
      (hp : s.Holds p n) (hn : s.tree.Reachable n) (hasks : (after ensureScopes s).Asks n) :
      Prudent K (after p.registerDeclaration s)
  | inserted {K : Set NodeId} {s : Session} {p : PathId} {n owner : NodeId} {f : Field}
      {nodes : List NodeId} (behind : Bool) (h : Prudent K s) (hp : s.Holds p n)
      (hland : s.tree.LandsIn owner f n) (hloose : s.tree.Loose K nodes)
      (hattends : s.Attends owner nodes) :
      Prudent (K ∪ s.tree.below nodes) (after (p.insertBeside nodes behind) s)
  | pushed {K : Set NodeId} {s : Session} {host : PathId} {owner : NodeId} {f : Field}
      {ids nodes : List NodeId} (h : Prudent K s) (hhost : s.Holds host owner)
      (howner : s.tree.Reachable owner) (hlist : s.tree.list? owner f = some ids)
      (hloose : s.tree.Loose K nodes) (hattends : s.Attends owner nodes) :
      Prudent (K ∪ s.tree.below nodes) (after (host.pushInto f nodes) s)
  | unshifted {K : Set NodeId} {s : Session} {host : PathId} {owner : NodeId} {f : Field}
      {ids nodes : List NodeId} (h : Prudent K s) (hhost : s.Holds host owner)
      (howner : s.tree.Reachable owner) (hlist : s.tree.list? owner f = some ids)
      (hloose : s.tree.Loose K nodes) (hattends : s.Attends owner nodes) :
      Prudent (K ∪ s.tree.below nodes) (after (host.unshiftInto f nodes) s)
  | removed {K : Set NodeId} {s : Session} {p host : PathId} {n owner : NodeId} {f : Field}
      {ids : List NodeId} {k : NodeKind} (h : Prudent K s) (hp : s.Holds p n)
      (hhost : s.Holds host owner) (howner : s.tree.Reachable owner)
      (hlist : s.tree.list? owner f = some ids) (hn : n ∈ ids)
      (hk : s.tree.kind? owner = some k) (hspares : k.type.Spares ids) :
      Prudent K (after p.remove s)

namespace Prudent

variable {K : Set NodeId} {s : Session}

/-- In every such session scopes and blocks are in step. -/
theorem upright (h : Prudent K s) : s.Upright K := by
  -- What a computation that succeeds leaves is what comes after it.
  have hreturns : ∀ {α : Type} {K' : Set NodeId} {x : SessionM α} {s : Session}
      {post : α → Session → Prop}, Returns x s post → (∀ a s', post a s' → s'.Upright K') →
        (after x s).Upright K' := by
    rintro α K' x s post ⟨a, s', hrun, hpost⟩ hpost'
    rw [after_of_ok hrun]
    exact hpost' a s' hpost
  induction h with
  | @opened t config s ht hopen =>
    have hfresh : Upright { tree := t, config } t.reachable :=
      have hnone : Unscoped { tree := t, config } := ⟨fun i => by simp, fun b => by simp⟩
      ⟨hnone.matched (fresh_orderly ht config), fun _ => hnone⟩
    unfold Session.open? at hopen
    split at hopen
    · exact Except.ok.inj hopen ▸ hfresh
    · obtain ⟨_, s', hrun, h', -⟩ := ensureScopes_upright hfresh
      dsimp only [EStateM.run] at hopen
      rw [hrun] at hopen
      exact Except.ok.inj hopen ▸ h'
  | @moved K s m h ih => exact ih.went (m.roaming s K ih.sound)
  | built h hgrown hsmall ih => exact ih.grown hgrown hsmall
  | ensured h ih => exact (after_ensureScopes ih).1
  | @crawled K s h ih =>
    have hcleared : Upright { s with scopes := {} } K :=
      have hnone : Unscoped { s with scopes := {} } := ⟨fun i => by simp, fun b => by simp⟩
      ⟨hnone.matched (ih.toOrderly.alike (s.alike_scopes {}) rfl (ScopeTable.ordered_empty false)),
        fun _ => hnone⟩
    obtain ⟨_, s', hrun, h', -⟩ := ensureScopes_upright hcleared
    have hcrawl : crawl s = .ok s'.scopes.root s' := by
      unfold crawl
      rw [run_modify_bind, bind_of_ok hrun]
      rfl
    rwa [after_of_ok hcrawl]
  | asked h hp hn hasks ih =>
    exact hreturns (PathId.scope_upright ih hp hn hasks) fun _ _ h => h.1
  | @looked K s p n h hp hn hasks ih =>
    rcases p.after_binding? s with hsame | hsame
    · rwa [hsame]
    · rw [hsame]
      exact hreturns (PathId.scope_upright ih hp hn hasks) fun _ _ h => h.1
  | registered h hp hn hasks ih =>
    exact hreturns (PathId.registerDeclaration_upright ih hp hn hasks) fun _ _ h => h
  | @inserted K s p n owner f nodes behind h hp hland hloose hattends ih =>
    exact hreturns (PathId.insertBeside_upright ih hp hland hloose hattends behind) fun _ _ h => h
  | pushed h hhost howner hlist hloose hattends ih =>
    have hhosts := Hosts.mk ih.toOrderly hhost howner hlist
    refine hreturns ?_ fun _ _ h => h
    rw [Returns, PathId.pushInto_run hhosts]
    exact PathId.insertAt_upright ih hhosts (Nat.le_refl _) hloose hattends
  | unshifted h hhost howner hlist hloose hattends ih =>
    have hhosts := Hosts.mk ih.toOrderly hhost howner hlist
    refine hreturns ?_ fun _ _ h => h
    rw [Returns, PathId.unshiftInto_run hhosts]
    exact PathId.insertAt_upright ih hhosts (Nat.zero_le _) hloose hattends
  | removed h hp hhost howner hlist hn hk hspares ih =>
    exact hreturns (PathId.remove_upright ih ⟨ih.toOrderly, hhost, howner, hlist⟩ hp hn hk hspares)
      fun _ _ h => h

/-- No two scopes have the same block. A path that holds a scope block is given the scope of the
block: the one that the block has, or else, where it is asked for before the blocks inside it, a new
one, which is given from then on. -/
theorem one_scope (h : Prudent K s) :
    (∀ i j b, s.ScopeOf i b → s.ScopeOf j b → i = j) ∧
      ∀ p n, s.Holds p n → s.tree.Reachable n → s.tree.Opens n →
        (∀ i, s.ScopeOf i n → p.scope s = .ok i s) ∧
        ((after ensureScopes s).Asks n → Returns p.scope s fun i s' =>
          s'.ScopeOf i n ∧ ∀ q, s'.Holds q n → q.scope s' = .ok i s') := by
  -- A scope that a block has is found.
  have hfound : ∀ {K : Set NodeId} {s : Session} {p : PathId} {n : NodeId} {i : ScopeId},
      s.Upright K → s.Holds p n → s.tree.Reachable n → s.tree.Opens n → s.ScopeOf i n →
        p.scope s = .ok i s := by
    intro K s p n i h hp hn ho hi
    have hcrawled : s.scopes.crawled = true := by
      by_contra hno
      exact (h.unbuilt (by simpa using hno)).not_scopeOf i n hi
    exact PathId.scope_run_of_found h.toOrderly hcrawled hp hn (.inl ⟨ho, rfl⟩) (h.found i n hi)
  have hup := h.upright
  refine ⟨fun i j b hi hj => hup.single hi hj, fun p n hp hn ho =>
    ⟨fun i hi => hfound hup hp hn ho hi, fun hasks => ?_⟩⟩
  refine (PathId.scope_upright hup hp hn hasks).mono fun i s' ⟨h', hs', b, hb, hi⟩ => ?_
  obtain ⟨-, -, htree, -⟩ := after_ensureScopes hup
  have htree' : s'.tree = s.tree := hs'.tree.trans htree
  obtain rfl := hup.program.scopeAt_unique hb (.inl ⟨ho, rfl⟩)
  refine ⟨hi, fun q hq => hfound h' hq ?_ ?_ hi⟩
  · rwa [htree']
  · rwa [htree']

end Prudent

end Session

/-! ## An example -/

/-- The program `c;`, and beside it the block `{ {} }` and another block `{}`. -/
def nestedProgram : Tree where
  nodes := #[{ kind := .identifier "c" none }, { kind := .expressionStatement ⟨0⟩ },
    { kind := .program [⟨1⟩] [] }, { kind := .blockStatement [] }, { kind := .blockStatement [⟨3⟩] },
    { kind := .blockStatement [] }]
  root := some ⟨2⟩

theorem nestedProgram_isProgram : nestedProgram.IsProgram :=
  .of_bottomUp (by decide) (by decide) (by decide) (by decide)

/-- The program is opened, and its path is 0. -/
def nestedStart : Session := after ensureScopes { tree := nestedProgram }

theorem nestedStart_opened : Session.open? nestedProgram {} = .ok nestedStart := by
  obtain ⟨_, s, hrun, -⟩ := ensureScopes_orderly nestedProgram_isProgram {}
  obtain rfl : nestedStart = s := after_of_ok hrun
  exact open?_of_ensureScopes rfl hrun

/-- The block without content is pushed into the program, and has the path 3. -/
def nestedPushed : Session := after (PathId.pushInto ⟨0⟩ .body [⟨5⟩]) nestedStart

/-- The scope of the new block is asked for. -/
theorem nestedProgram_single : ∃ K, nestedPushed.Prudent K ∧ nestedPushed.Holds ⟨3⟩ ⟨5⟩ ∧
    nestedPushed.tree.Reachable ⟨5⟩ ∧ nestedPushed.tree.Opens ⟨5⟩ ∧
    (after ensureScopes nestedPushed).Asks ⟨5⟩ ∧
    Returns (PathId.scope ⟨3⟩) nestedPushed fun i s => s.ScopeOf i ⟨5⟩ ∧
      ∀ q, s.Holds q ⟨5⟩ → q.scope s = .ok i s := by
  have hstart := Prudent.opened nestedProgram_isProgram nestedStart_opened
  have hroot : nestedStart.tree.root = some ⟨2⟩ ∧ nestedStart.tree.list? ⟨2⟩ .body = some [⟨1⟩] ∧
      nestedStart.tree.kind? ⟨5⟩ = some (.blockStatement []) ∧
      nestedStart.paths[0]?.bind PathData.node = some ⟨2⟩ := by decide +kernel
  obtain ⟨hroot, hlist, hnew, hnode⟩ := hroot
  have hpushed : nestedPushed.Prudent (nestedProgram.reachable ∪ nestedStart.tree.below [⟨5⟩]) := by
    refine .pushed hstart (Option.bind_eq_some_iff.mp hnode) (.root hroot) hlist
      (.leaf hnew rfl (Tree.not_reachable (by decide) (by decide))) fun _ hdeclares => ?_
    obtain ⟨n, hn, k, hk, hdeclares⟩ := hdeclares
    obtain rfl := List.mem_singleton.mp hn
    obtain rfl := Option.some.inj (hnew.symm.trans hk)
    cases hdeclares
  have hfacts : nestedPushed.tree.root = some ⟨2⟩ ∧
      nestedPushed.tree.kind? ⟨2⟩ = some (.program [⟨1⟩, ⟨5⟩] []) ∧
      nestedPushed.tree.kind? ⟨5⟩ = some (.blockStatement []) ∧
      nestedPushed.paths[3]?.bind PathData.node = some ⟨5⟩ ∧
      nestedPushed.scopes.crawled = true ∧
      nestedPushed.scopes.byBlock.get? ⟨2⟩ = some ⟨0⟩ ∧
      nestedPushed.scopes.byBlock.get? ⟨5⟩ = none := by decide +kernel
  obtain ⟨hroot, hprogram, hblock, hnode, hcrawled, hi, hnone⟩ := hfacts
  have hopens : nestedPushed.tree.Opens ⟨5⟩ := Tree.opens_of_all hblock rfl (by decide +kernel)
  have hchild : nestedPushed.tree.IsChild ⟨2⟩ ⟨5⟩ :=
    (Tree.isChild_iff _ _ _).mpr ⟨_, hprogram, by decide⟩
  have hreach : nestedPushed.tree.Reachable ⟨5⟩ := .child (.root hroot) hchild
  have hholds : nestedPushed.Holds ⟨3⟩ ⟨5⟩ := Option.bind_eq_some_iff.mp hnode
  have hin : nestedPushed.tree.InScope ⟨5⟩ ⟨2⟩ :=
    .here (.root hroot) hchild ⟨_, hprogram, rfl, fun hb => by cases hb⟩
  have hasks : (after ensureScopes nestedPushed).Asks ⟨5⟩ := by
    rw [after_of_ok (ensureScopes_run hcrawled)]
    refine ⟨⟨5⟩, .inl ⟨hopens, rfl⟩, .inr ⟨⟨2⟩, ⟨0⟩, hin, hi, fun m hm => ?_⟩⟩
    rw [Tree.eq_of_mem_below_leaf hblock rfl hm, hnone]
  exact ⟨_, hpushed, hholds, hreach, hopens, hasks,
    (hpushed.one_scope.2 ⟨3⟩ ⟨5⟩ hholds hreach hopens).2 hasks⟩

/-- A client pushes the block with a block inside, goes to the inner one, and asks for its scope. -/
def nestedAsked : SessionM ScopeId := do
  let root ← rootPath
  let _ ← root.pushInto .body [⟨4⟩]
  let inner ← (← root.element .body 1).element .body 0
  inner.scope

/-- The inner block has two scopes then. -/
theorem nestedProgram_splits : nestedProgram.IsProgram ∧
    Session.open? nestedProgram {} = .ok nestedStart ∧
    nestedAsked nestedStart = .ok ⟨3⟩ (after nestedAsked nestedStart) ∧
    (after nestedAsked nestedStart).ScopeOf ⟨2⟩ ⟨3⟩ ∧
    (after nestedAsked nestedStart).ScopeOf ⟨3⟩ ⟨3⟩ := by
  have hscopes : ∀ i ∈ [2, 3], ((after nestedAsked nestedStart).scopes.scopes[i]?.bind fun sc =>
      (after nestedAsked nestedStart).paths[sc.block.index]?.bind PathData.node) = some ⟨3⟩ := by
    decide +kernel
  have hscope : ∀ i ∈ [2, 3], (after nestedAsked nestedStart).ScopeOf ⟨i⟩ ⟨3⟩ := by
    intro i hi
    obtain ⟨sc, hsc, hblock⟩ := Option.bind_eq_some_iff.mp (hscopes i hi)
    exact ⟨sc, hsc, Option.bind_eq_some_iff.mp hblock⟩
  exact ⟨nestedProgram_isProgram, nestedStart_opened, eq_ok_of_value? (by decide +kernel),
    hscope 2 (by simp), hscope 3 (by simp)⟩

end Espalier
