import Espalier.Edit.Insert
import Espalier.Proofs.EditUpkeep

set_option autoImplicit false

/-! # Sessions in the hands of clients

A client opens a session on any tree and then calls what the session offers, in any order and with
any arguments. What it does may depend on everything it reads; it may catch failures, and it may
start walks whose handlers are again such programs (`Client`). Whatever it does, the buckets agree
with what is known about the paths (`reached_cache_agrees`). -/

namespace Espalier

open SessionM Session

/-! ## Client programs -/

/-- The calls that a session offers. -/
inductive Call : {α : Type} → SessionM α → Prop
  /-- Navigation, and any question about paths, scopes and the tree. -/
  | navigate {α : Type} {x : SessionM α} : Navigating x → Call x
  | pathFor (parent : Option PathId) (c : Container) (k : Key) : Call (pathFor parent c k)
  /-- What names stand for, the order of execution, and types. -/
  | infer {α : Type} {x : SessionM α} : Inferring x → Call x
  /-- Building scopes, registering declarations and making up names. -/
  | chart {α : Type} {x : SessionM α} : Charting x → Call x
  | resync (p : PathId) : Call p.resync
  | setNote (p : PathId) (name : String) (value : Json) : Call (p.setNote name value)
  | requeue (p : PathId) : Call p.requeue
  | skip (p : PathId) : Call p.skip
  | stop (p : PathId) : Call p.stop
  | replaceWith (p : PathId) (offer : Replacement) : Call (p.replaceWith offer)
  | replaceWithMultiple (p : PathId) (nodes : List NodeId) : Call (p.replaceWithMultiple nodes)
  | replaceInline (p : PathId) (nodes : List NodeId) : Call (p.replaceInline nodes)
  | replaceExpressionWithStatements (p : PathId) (statements : List NodeId) :
      Call (p.replaceExpressionWithStatements statements)
  | replaceWithSource (p : PathId) (text : String) : Call (p.replaceWithSource text)
  | insertBefore (p : PathId) (nodes : List NodeId) : Call (p.insertBefore nodes)
  | insertAfter (p : PathId) (nodes : List NodeId) : Call (p.insertAfter nodes)
  | unshiftInto (p : PathId) (f : Field) (nodes : List NodeId) : Call (p.unshiftInto f nodes)
  | pushInto (p : PathId) (f : Field) (nodes : List NodeId) : Call (p.pushInto f nodes)
  | remove (p : PathId) : Call p.remove
  | pushDeclaration (i : ScopeId) (name : String) (init : Option NodeId) :
      Call (i.pushDeclaration name init)
  | generateDeclaredUid (i : ScopeId) (text : String) : Call (i.generateDeclaredUid text)
  /-- The tree itself is open to clients. -/
  | onTree {α : Type} (build : TreeM α) : Call (onTree build)
  | setParser (parser : Option ExpressionParser) : Call (modify fun s => { s with parser })
  | clear : Call (modify Session.clear)
  | clearPaths : Call (modify Session.clearPaths)
  | clearScopes : Call (modify Session.clearScopes)

/-- Programs that use a session by its calls and by walks. -/
inductive Client : {σ α : Type} → WalkM σ α → Prop
  | pure {σ α : Type} (a : α) : Client (pure a : WalkM σ α)
  | throw {σ α : Type} (e : Failure) : Client (throw e : WalkM σ α)
  | get {σ : Type} : Client (get : WalkM σ (Walk σ))
  /-- The client's own value is changed. -/
  | own {σ : Type} (f : σ → σ) : Client (modify fun w => { w with own := f w.own } : WalkM σ PUnit)
  | call {σ α : Type} {x : SessionM α} : Call x → Client (WalkM.onSession x : WalkM σ α)
  | bind {σ α β : Type} {x : WalkM σ α} {f : α → WalkM σ β} :
      Client x → (∀ a, Client (f a)) → Client (x >>= f)
  | recover {σ α : Type} {x : WalkM σ α} {f : Failure → WalkM σ α} :
      Client x → (∀ e, Client (f e)) → Client (tryCatch x f)
  | traverse {σ : Type} (v : Visitor σ) :
      (∀ phase selector h, (phase, selector, h) ∈ v.entries → ∀ p, Client (h p)) →
      Client (traverse v)
  | traverseNode {σ : Type} (v : Visitor σ) (p : PathId) :
      (∀ phase selector h, (phase, selector, h) ∈ v.entries → ∀ p, Client (h p)) →
      Client (p.traverse v)
  /-- A program with a value of its own, run inside another one. -/
  | inside {σ τ α : Type} {x : WalkM τ α} (own : τ) :
      Client x → Client (WalkM.onSession (x.runOn own) : WalkM σ (α × τ))

/-- The sessions that clients can get hold of: those that were opened, those that a program leaves
behind, whether it succeeds or fails, and those that a handler finds during a walk. A handler finds
what the walk would leave behind if it failed at once, apart from the frames of the running walks
and the wish to stop. -/
inductive Session.Reached : Session → Prop
  | opened {tree : Tree} {config : Config} {s : Session} :
      Session.open? tree config = .ok s → Reached s
  | used {s : Session} {σ α : Type} {x : WalkM σ α} (own : σ) (visited : Nat) :
      Reached s → Client x → Reached (after x { session := s, own, visited }).session
  | amid {s : Session} (frames : List Frame) (nextFrame : Nat) (stopping : Bool) :
      Reached s → Reached { s with frames, nextFrame, stopping }

/-! ## What clients keep -/

theorem Session.Tidy.fresh (tree : Tree) (config : Config) : Tidy { tree, config } where
  filed _ _ hp := by cases hp
  nodup _ := List.nodup_nil
  fit p d hd := by simp at hd
  strays _ _ hp := by cases hp

/-- Forgetting where paths are found again. -/
theorem Session.Tidy.clearPaths {s : Session} (h : s.Tidy) : s.clearPaths.Tidy where
  filed _ _ hp := by cases hp
  nodup _ := List.nodup_nil
  fit := h.fit
  strays _ _ hp := by cases hp

/-- Forgetting scopes and inferred types. -/
theorem Session.Tidy.clearScopes {s : Session} (h : s.Tidy) : s.Upkeep s.clearScopes := by
  have hpaths : ∀ p : PathId, s.clearScopes.paths[p.index]? =
      (s.paths[p.index]?).map fun d => { d with inferred := none } := fun p => Array.getElem?_map
  refine ⟨⟨fun c p hp => ?_, h.nodup, fun p d hd => ?_, fun parent p hp => ?_⟩, ?_⟩
  · obtain ⟨d, hd, hc⟩ := h.filed c p hp
    exact ⟨{ d with inferred := none }, by rw [hpaths, hd, Option.map_some], hc⟩
  · rw [hpaths, Option.map_eq_some_iff] at hd
    obtain ⟨e, he, rfl⟩ := hd
    exact ⟨(h.fit p e he).removed, (h.fit p e he).adrift⟩
  · obtain ⟨d, hd, hc⟩ := h.strays parent p hp
    exact ⟨{ d with inferred := none }, by rw [hpaths, hd, Option.map_some], hc⟩
  · rintro p ⟨d, hd, hc⟩
    exact ⟨{ d with inferred := none }, by rw [hpaths, hd, Option.map_some], hc⟩

theorem Call.tidying {α : Type} {x : SessionM α} (hx : Call x) : Tidying x := by
  have hclear : Tidying (modify Session.clearPaths : SessionM PUnit) := fun s hs =>
    ⟨hs.clearPaths, fun _ hp => hp⟩
  have hscopes : Tidying (modify Session.clearScopes : SessionM PUnit) := fun s hs => hs.clearScopes
  cases hx with
  | navigate hx => exact .of_quiet hx.quiet
  | pathFor parent c k => exact .of_quiet (.pathFor parent c k)
  | infer hx => exact .of_quiet hx.quiet
  | chart hx => exact .of_quiet hx.quiet
  | resync p => exact .resync p
  | setNote p name value => exact .of_quiet (.setNote p name value)
  | requeue p => exact .of_quiet (.requeue p)
  | skip p => exact .of_quiet (.skip p)
  | stop p => exact .of_quiet (.stop p)
  | replaceWith p offer => exact .replaceWith p offer
  | replaceWithMultiple p nodes => exact .replaceWithMultiple p nodes
  | replaceInline p nodes => exact .replaceInline p nodes
  | replaceExpressionWithStatements p nodes => exact .replaceExpressionWithStatements p nodes
  | replaceWithSource p text => exact .replaceWithSource p text
  | insertBefore p nodes => exact .insertBeside p nodes false
  | insertAfter p nodes => exact .insertBeside p nodes true
  | unshiftInto p f nodes => exact .unshiftInto p f nodes
  | pushInto p f nodes => exact .pushInto p f nodes
  | remove p => exact .remove p
  | pushDeclaration i name init => exact .pushDeclaration i name init
  | generateDeclaredUid i text => exact .generateDeclaredUid i text
  | onTree build => exact .onTree build
  | setParser parser => exact .of_quiet (.aside fun _ => ⟨rfl, rfl, rfl⟩)
  | clear =>
    exact fun s hs => (hclear s hs).trans (hscopes s.clearPaths (hclear s hs).tidy)
  | clearPaths => exact hclear
  | clearScopes => exact hscopes

/-- What is left behind when failures are caught. -/
theorem after_tryCatch {σ α : Type} (x : WalkM σ α) (f : Failure → WalkM σ α) (w : Walk σ) :
    after (tryCatch x f) w = match x w with
      | .ok _ w' => w'
      | .error e w' => after (f e) w' := by
  have hrun : (tryCatch x f : WalkM σ α) w = match x w with
      | .ok a w' => .ok a w'
      | .error e w' => f e w' := by
    show EStateM.tryCatch x f w = _
    simp only [EStateM.tryCatch]
    cases x w <;> rfl
  simp only [after, hrun]
  cases x w <;> rfl

/-- Catching a failure. -/
theorem Patrolling.tryCatch {σ α : Type} {x : WalkM σ α} {f : Failure → WalkM σ α}
    (hx : Patrolling x) (hf : ∀ e, Patrolling (f e)) : Patrolling (tryCatch x f) := by
  intro w hw
  have h := hx w hw
  rw [after_tryCatch]
  cases hrun : x w with
  | ok a w' => rwa [after_of_ok hrun] at h
  | error e w' =>
    rw [after_of_error hrun] at h
    exact h.trans (hf e w' h.tidy)

/-- Whatever a client does, a tidy session stays tidy. -/
theorem Client.patrolling {σ α : Type} {x : WalkM σ α} (hx : Client x) : Patrolling x := by
  induction hx with
  | pure a => exact .pure a
  | throw e => exact .throw e
  | get => exact .get
  | own f => exact .modify fun _ => ⟨rfl, rfl, rfl⟩
  | call hx => exact .lift hx.tidying
  | bind _ _ ihx ihf => exact .bind ihx ihf
  | recover _ _ ihx ihf => exact .tryCatch ihx ihf
  | traverse v _ ih => exact .traverse ih
  | traverseNode v p _ ih => exact .traverseNode ih p
  | inside own _ ih => exact .lift (.runOn ih own)

theorem Session.Reached.tidy {s : Session} (h : s.Reached) : s.Tidy := by
  induction h with
  | @opened tree config s h =>
    unfold Session.open? at h
    split at h
    · rw [← Except.ok.inj h]
      exact .fresh tree config
    · dsimp only at h
      cases hrun : ensureScopes.run { tree, config } with
      | error e s' => rw [hrun] at h; cases h
      | ok a s' =>
        rw [hrun] at h
        rw [← Except.ok.inj h, ← after_of_ok hrun]
        exact (Charting.ensureScopes.quiet _ (.fresh tree config)).tidy
  | used own visited _ hx ih => exact (hx.patrolling _ ih).tidy
  | amid frames nextFrame stopping _ ih => exact ih.of_same rfl rfl rfl

/-- In every session that a client can get hold of: a path is in at most one bucket and at most once
in it; a path in the bucket of a container lives in that container and is not removed; a removed
path holds no node, is not descended into and is in no bucket; and a path without a position holds
no node and is not removed. -/
theorem reached_cache_agrees {s : Session} (h : s.Reached) :
    (∀ (p : PathId) c c', p ∈ s.bucket c → p ∈ s.bucket c' → c = c') ∧
    (∀ c, (s.bucket c).Nodup) ∧
    (∀ c (p : PathId), p ∈ s.bucket c →
      ∃ d, s.paths[p.index]? = some d ∧ d.container = c ∧ d.removed = false) ∧
    (∀ (p : PathId) d, s.paths[p.index]? = some d → d.removed = true →
      d.node = none ∧ d.skip = true ∧ ∀ c, p ∉ s.bucket c) ∧
    (∀ (p : PathId) d, s.paths[p.index]? = some d → d.container = .detached →
      d.node = none ∧ d.removed = false) := by
  have ht := h.tidy
  refine ⟨fun p c c' hc hc' => ?_, ht.nodup, ht.filed, fun p d hd hr => ?_, fun p d hd hc => ?_⟩
  · obtain ⟨d, hd, rfl, -⟩ := ht.filed c p hc
    exact (ht.container_eq hd hc').1
  · obtain ⟨hn, hs, -⟩ := (ht.fit p d hd).removed hr
    refine ⟨hn, hs, fun c hc => ?_⟩
    rw [(ht.container_eq hd hc).2] at hr
    cases hr
  · refine ⟨(ht.fit p d hd).adrift hc, ?_⟩
    cases hr : d.removed with
    | false => rfl
    | true => exact absurd hc ((ht.fit p d hd).removed hr).2.2

/-- The program `a; ;`. -/
def spareProgram : Tree where
  nodes := #[{ kind := .identifier "a" none }, { kind := .expressionStatement ⟨0⟩ },
    { kind := .emptyStatement }, { kind := .program [⟨1⟩, ⟨2⟩] [] }]
  root := some ⟨3⟩

/-- Walk the tree and remove every empty statement. -/
def dropEmpty : WalkM Unit Traversal :=
  traverse (Visitor.empty.on .enter (.type .emptyStatement) fun p => p.remove)

theorem dropEmpty_client : Client dropEmpty := by
  refine .traverse _ fun phase selector h hh p => ?_
  simp only [Visitor.on, Visitor.empty, List.nil_append, List.mem_singleton, Prod.mk.injEq] at hh
  obtain ⟨-, -, rfl⟩ := hh
  exact .call (.remove p)

/-- The session after the walk. -/
def spareSession : Session :=
  (after dropEmpty { session := { tree := spareProgram, config := { lazyScopes := true } }
                     own := () }).session

/-- The walk removed the path of `;`, which is in no bucket any more. -/
theorem spareProgram_cache_agrees : spareSession.Reached ∧
    (spareSession.paths[3]?.map fun d => (d.node, d.removed, d.container)) =
      some (none, true, .list ⟨3⟩ .body) ∧
    (⟨1⟩ : PathId) ∈ spareSession.bucket (.list ⟨3⟩ .body) ∧
    ∀ c, (⟨3⟩ : PathId) ∉ spareSession.bucket c := by
  have hopen : Session.open? spareProgram { lazyScopes := true } =
    .ok { tree := spareProgram, config := { lazyScopes := true } } := rfl
  have hreached : spareSession.Reached := .used () 0 (.opened hopen) dropEmpty_client
  have hremoved : (spareSession.paths[3]?.map fun d => (d.node, d.removed, d.container)) =
      some (none, true, .list ⟨3⟩ .body) := by decide +kernel
  refine ⟨hreached, hremoved, by decide +kernel, ?_⟩
  obtain ⟨d, hd, hd'⟩ := Option.map_eq_some_iff.mp hremoved
  simp only [Prod.mk.injEq] at hd'
  exact ((reached_cache_agrees hreached).2.2.2.1 ⟨3⟩ d hd hd'.2.1).2.2

end Espalier
