import Espalier.Proofs.Callers
import Espalier.Proofs.Pursuit

set_option autoImplicit false

/-! # How deep questions about the order nest

To place a path in a function declaration the calls of the function are placed first, and these may
be in functions again. Functions that call each other in a circle do not lead in one: a function
whose calls are being examined is not examined again. So the questions in a row are about different
function declarations of the program, and there is one more of them at most
(`PathId.statusWithin_returns`). What was being examined is the same before and after every question
(`Restores.statusThroughCalls`). -/

namespace Espalier

open SessionM Session

variable {α β : Type}

/-! ## What is under examination -/

/-- Whatever is under examination at first is so in the end. -/
def Restores (x : PathId.OrderM α) : Prop :=
  ∀ underway underway' s s' a, x.run underway s = .ok (a, underway') s' → underway' = underway

/-- A function that is taken out again leaves the list as it was before it was put in. -/
private theorem filter_underway {f : NodeId} {underway : List NodeId} (hf : f ∉ underway) :
    (underway ++ [f]).filter (· != f) = underway := by
  rw [List.filter_append, List.filter_eq_self.mpr]
  · simp
  · intro g hg
    have hne : g ≠ f := fun heq => hf (heq ▸ hg)
    simpa using hne

namespace Restores

theorem pure (a : α) : Restores (pure a) := fun _ _ _ _ _ h => by
  obtain ⟨h, -⟩ := EStateM.Result.ok.inj h
  exact (Prod.mk.inj h).2.symm

theorem throw (e : Failure) : Restores (throw e : PathId.OrderM α) := fun _ _ _ _ _ h => by cases h

theorem bind {x : PathId.OrderM α} {f : α → PathId.OrderM β} (hx : Restores x)
    (hf : ∀ a, Restores (f a)) : Restores (x >>= f) := by
  intro underway underway' s s' b h
  obtain ⟨a, underway₁, s₁, ha, hb⟩ := Memory.bind_eq_ok h
  exact (hf a _ _ _ _ _ hb).trans (hx _ _ _ _ _ ha)

/-- A question to the session has nothing to do with what is examined. -/
theorem ask (x : SessionM α) {f : α → PathId.OrderM β} (hf : ∀ a, Restores (f a)) :
    Restores (liftM x >>= f) := by
  intro underway underway' s s' b h
  obtain ⟨a, s₁, -, hb⟩ := Memory.lift_bind_eq_ok h
  exact hf a _ _ _ _ _ hb

theorem lift (x : SessionM α) : Restores (liftM x) := by
  have h := ask x (f := Pure.pure) pure
  rwa [bind_pure] at h

theorem ite {c : Prop} [Decidable c] {x y : PathId.OrderM α} (hx : Restores x)
    (hy : Restores y) : Restores (if c then x else y) := by
  split
  · exact hx
  · exact hy

section Calls

variable {statusAt : PathId → PathId.OrderM ExecutionStatus} (hstatus : ∀ q, Restores (statusAt q))

include hstatus

theorem agreement (function : NodeId) (agreed : Option ExecutionStatus) (calls : List PathId) :
    Restores (PathId.agreement function statusAt agreed calls) := by
  induction calls generalizing agreed with
  | nil => exact pure _
  | cons call calls ih =>
    refine ask _ fun _ => ite (pure _) (ask _ fun _ => ite (ih agreed) ?_)
    exact (hstatus call).bind fun _ => ite (pure _) (ih _)

/-- A function is examined only if it was not before, and then taken from the list again. -/
theorem statusThroughCalls (function : PathId) :
    Restores (function.statusThroughCalls statusAt) := by
  refine ask _ fun _ => ite (pure _) (ask _ fun _ => ite (pure _) (ask _ fun o => ?_))
  cases o with
  | none => exact pure _
  | some node =>
    intro underway underway' s s' a h
    rw [Memory.run_get_bind] at h
    split at h
    · exact pure _ _ _ _ _ _ h
    · next hnew =>
      obtain ⟨id, s₁, -, h⟩ := Memory.lift_bind_eq_ok h
      obtain ⟨o, s₂, -, h⟩ := Memory.lift_bind_eq_ok h
      cases o with
      | none => exact pure _ _ _ _ _ _ h
      | some binding =>
        dsimp only at h
        split at h
        · exact pure _ _ _ _ _ _ h
        · obtain ⟨underway₁, hexamined, rfl⟩ := PathId.examining_eq_ok h
          rw [agreement hstatus node none _ _ _ _ _ _ hexamined]
          exact filter_underway hnew

end Calls

theorem statusWithin (fuel : Nat) (p q : PathId) : Restores (PathId.statusWithin fuel p q) := by
  induction fuel generalizing p q with
  | zero => exact throw _
  | succ fuel ih =>
    unfold PathId.statusWithin
    refine ask _ fun mine => ask _ fun other => ?_
    extract_lets nodeOf fromMine
    -- What the calls of the function around `p` say counts if those of the other one say nothing.
    have hmine : ∀ fromTarget, Restores (fromMine fromTarget) := by
      intro fromTarget
      cases fromTarget with
      | some status => exact pure _
      | none =>
        cases mine with
        | none => exact pure _
        | some function =>
          refine ask _ fun _ => ite ?_ (pure _)
          exact (statusThroughCalls (fun r => ih r q) function).bind fun _ => pure _
    refine ask _ fun _ => ask _ fun _ => ite (lift _) ?_
    cases other with
    | none => exact (pure _).bind hmine
    | some function => exact (statusThroughCalls (fun r => ih p r) function).bind hmine

end Restores

/-! ## More depth -/

/-- Where the first look-up finds something, the second finds the same. -/
def Refines (x y : PathId.OrderM α) : Prop :=
  ∀ underway s r s', x.run underway s = .ok r s' → y.run underway s = .ok r s'

namespace Refines

theorem refl (x : PathId.OrderM α) : Refines x x := fun _ _ _ _ h => h

theorem bind {x y : PathId.OrderM α} {f g : α → PathId.OrderM β} (hx : Refines x y)
    (hf : ∀ a, Refines (f a) (g a)) : Refines (x >>= f) (y >>= g) := by
  intro underway s r s' h
  obtain ⟨a, underway₁, s₁, ha, hr⟩ := Memory.bind_eq_ok h
  exact (bind_of_ok (f := fun r => (g r.1).run r.2) (hx _ _ _ _ ha)).trans (hf a _ _ _ _ hr)

theorem ite {c : Prop} [Decidable c] {x y x' y' : PathId.OrderM α} (hx : Refines x x')
    (hy : Refines y y') : Refines (if c then x else y) (if c then x' else y') := by
  split
  · exact hx
  · exact hy

section Calls

variable {statusAt statusAt' : PathId → PathId.OrderM ExecutionStatus}
  (hstatus : ∀ q, Refines (statusAt q) (statusAt' q))

include hstatus

theorem agreement (function : NodeId) (agreed : Option ExecutionStatus) (calls : List PathId) :
    Refines (PathId.agreement function statusAt agreed calls)
      (PathId.agreement function statusAt' agreed calls) := by
  induction calls generalizing agreed with
  | nil => exact refl _
  | cons call calls ih =>
    refine (refl _).bind fun _ => ite (refl _) ((refl _).bind fun _ => ite (ih agreed) ?_)
    exact (hstatus call).bind fun _ => ite (refl _) (ih _)

theorem statusThroughCalls (function : PathId) :
    Refines (function.statusThroughCalls statusAt) (function.statusThroughCalls statusAt') := by
  refine (refl _).bind fun _ => ite (refl _) ((refl _).bind fun _ => ite (refl _) ?_)
  refine (refl _).bind fun o => ?_
  cases o with
  | none => exact refl _
  | some node =>
    refine (refl _).bind fun _ => ite (refl _) ((refl _).bind fun id => (refl _).bind fun o => ?_)
    cases o with
    | none => exact refl _
    | some binding =>
      refine ite (refl _) ((refl _).bind fun _ => ?_)
      exact (agreement hstatus node none _).bind fun _ => refl _

end Calls

/-- A question that ends at some depth gives the same answer when it may go deeper. -/
theorem statusWithin {fuel fuel' : Nat} (h : fuel ≤ fuel') (p q : PathId) :
    Refines (PathId.statusWithin fuel p q) (PathId.statusWithin fuel' p q) := by
  induction fuel generalizing fuel' p q with
  | zero => exact fun _ _ _ _ h => by cases h
  | succ fuel ih =>
    obtain ⟨fuel', rfl⟩ : ∃ i, fuel' = i + 1 := ⟨fuel' - 1, by omega⟩
    have hle : fuel ≤ fuel' := by omega
    unfold PathId.statusWithin
    refine (refl _).bind fun mine => (refl _).bind fun other => ?_
    extract_lets nodeOf fromMine fromMine'
    refine (refl _).bind fun _ => (refl _).bind fun _ => ite (refl _) ?_
    have hmine : ∀ fromTarget, Refines (fromMine fromTarget) (fromMine' fromTarget) := by
      intro fromTarget
      cases fromTarget with
      | some status => exact refl _
      | none =>
        cases mine with
        | none => exact refl _
        | some function =>
          refine (refl _).bind fun _ => ite ?_ (refl _)
          exact (statusThroughCalls (fun r => ih hle r q) function).bind fun _ => refl _
    cases other with
    | none => exact (refl _).bind hmine
    | some function => exact (statusThroughCalls (fun r => ih hle p r) function).bind hmine

end Refines

/-! ## Questions that are answered -/

namespace Session.Replies

variable {s : Session} {p q : PathId} (h : s.Walkable) (hp : s.Knows p)

include h hp

theorem executionParent? : s.Replies p.executionParent? := by
  unfold PathId.executionParent?
  extract_lets find
  have hfind : ∀ start, s.Knows start → s.Replies (find start) := by
    intro start hstart
    cases start with
    | none => exact pure knows_none
    | some q => exact find? h (knows_some.mp hstart) fun r hr => isAny h.closed hr _
  refine (isAny h.closed hp _).bind fun v _ => ?_
  cases v with
  | true => exact (parent? h.closed hp).bind hfind
  | false => exact (pure (knows_some.mpr hp)).bind hfind

theorem statusInFunction (hq : s.Knows q) : s.Replies (p.statusInFunction q) := by
  have hnodes : ∀ l : List PathId, s.Knows l →
      s.Replies (l.mapM fun q => do Pure.pure (← q.node?, q)) := fun l hl =>
    mapM hl fun r hr => (node? h.closed hr).bind fun _ hn => pure ⟨hn, hr⟩
  refine (ancestry h hp).bind fun l hl => (hnodes l hl).bind fun mine hmine => ?_
  refine (ancestry h hq).bind fun l hl => (hnodes l hl).bind fun others hothers => ?_
  split
  · exact pure trivial
  · next fork a b hfork =>
    obtain ⟨hpath, ha, hb⟩ := Reads.knows_fork hothers hmine knows_none hfork
    refine (data h.closed (knows_some.mp ha)).bind fun _ _ =>
      (data h.closed (knows_some.mp hb)).bind fun _ _ => ite (pure trivial) ?_
    refine (type? h.closed hpath).bind fun o _ => ?_
    cases o with
    | none => exact pure trivial
    | some type => exact pure trivial
  · exact pure trivial

theorem isCallee : s.Replies p.isCallee :=
  (data h.closed hp).bind fun _ _ => ite ((parentType? h.closed hp).bind fun _ _ => pure trivial)
    (pure trivial)

theorem isInside (n : NodeId) : s.Replies (p.isInside n) :=
  (find? h hp fun _ hq => (node? h.closed hq).bind fun _ _ => pure trivial).bind
    fun _ _ => pure trivial

end Session.Replies

/-! ## What is left of the session -/

namespace Session

/-- From every path one can go on to a field, also where that leads nowhere. -/
theorem Surveyed.child_returns {s : Session} {p : PathId} (h : s.Surveyed) (hp : s.Knows p)
    (f : Field) : ∃ q s', p.child f s = .ok q s' ∧ s.Pursued s' ∧ s'.Knows q := by
  obtain ⟨q, s', hrun⟩ := (Prompt.child p f).exists_ok (.child hp f) h.closed
  exact ⟨q, s', hrun, h.search (Navigating.child p f).searching (.child hp f) hrun⟩

/-- The name at a path is looked up. Where its block has no scope yet, one is made. -/
theorem Surveyed.binding?_returns {s : Session} {p : PathId} (h : s.Surveyed) (hp : s.Knows p) :
    ∃ o s', p.binding? s = .ok o s' ∧ s.Pursued s' ∧ s'.Knows o := by
  obtain ⟨x, hx, -⟩ := Replies.identifierName? h.closed hp
  have hrun : ∃ o s', p.binding? s = .ok o s' := by
    cases x with
    | none => exact ⟨none, s, bind_of_ok hx⟩
    | some x =>
      obtain ⟨o, s', hrun, -⟩ := h.lookup_returns h.crawled hx
      exact ⟨o, s', hrun⟩
  obtain ⟨o, s', hrun⟩ := hrun
  exact ⟨o, s', hrun, h.search (.binding? p) (.binding? hp) hrun⟩

end Session

namespace PathId

/-- A look-up that asks the session and goes on with an end has an end. -/
theorem OrderM.returns_of_ok {s s' : Session} {underway : List NodeId} {x : SessionM α}
    {k : α → OrderM β} {a : α} {post : Session → Prop} (h : x s = .ok a s')
    (hk : ∃ b s'', (k a).run underway s' = .ok (b, underway) s'' ∧ post s'') :
    ∃ b s'', (liftM x >>= k).run underway s = .ok (b, underway) s'' ∧ post s'' := by
  rwa [Memory.run_of_ok h]

/-- What is found while a function is examined is found. -/
theorem examining_run {s s' : Session} {underway : List NodeId} {f : NodeId} {x : OrderM α} {a : α}
    (hf : f ∉ underway) (h : x.run (underway ++ [f]) s = .ok (a, underway ++ [f]) s') :
    (examining f x).run underway s = .ok (a, underway) s' := by
  show (x >>= fun a => do
    modify fun underway => underway.filter (· != f)
    pure a).run (underway ++ [f]) s = _
  rw [Memory.run_of_run h]
  show EStateM.Result.ok (a, (underway ++ [f]).filter (· != f)) s' = _
  rw [filter_underway hf]

section Returns

variable {s : Session} {function : PathId} {statusAt : PathId → OrderM ExecutionStatus}
  {underway : List NodeId}

/-- If the order is found at every call, the calls of a function are looked through. -/
theorem agreement_returns (h : s.Surveyed)
    (hstatus : ∀ call s₁, s.Pursued s₁ → s₁.Knows call → ∃ status s₂,
      (statusAt call).run underway s₁ = .ok (status, underway) s₂ ∧ s₁.Pursued s₂)
    (f : NodeId) (agreed : Option ExecutionStatus) {calls : List PathId} (hcalls : s.Knows calls) :
    ∃ o s', (agreement f statusAt agreed calls).run underway s = .ok (o, underway) s' ∧
      s.Pursued s' := by
  induction calls generalizing s agreed with
  | nil => exact ⟨agreed, s, rfl, .refl h⟩
  | cons call calls ih =>
    obtain ⟨hcall, hrest⟩ := Session.knows_cons.mp hcalls
    obtain ⟨isCall, hisCall, -⟩ := Session.Replies.isCallee h.walkable hcall
    obtain ⟨recursive, hrecursive, -⟩ := Session.Replies.isInside h.walkable hcall f
    rw [agreement, Memory.run_of_ok hisCall]
    cases isCall with
    | false => exact ⟨none, s, rfl, .refl h⟩
    | true =>
      rw [if_neg (by simp), Memory.run_of_ok hrecursive]
      cases recursive with
      | true => exact ih h hstatus agreed hrest
      | false =>
        obtain ⟨status, s₁, hrun, h₁⟩ := hstatus call s (.refl h) hcall
        rw [if_neg (by simp), Memory.run_of_run hrun]
        by_cases hstop : status = .unknown ∨ agreed.any (· != status)
        · exact ⟨none, s₁, by rw [if_pos hstop]; rfl, h₁⟩
        · obtain ⟨o, s₂, hrest', h₂⟩ := ih h₁.surveyed
            (fun call s₂ h₂ => hstatus call s₂ (h₁.trans h₂)) (some status) (h₁.grown.knows hrest)
          exact ⟨o, s₂, by rw [if_neg hstop]; exact hrest', h₁.trans h₂⟩

/-- If the order is found at every call while a function is examined that was not before, then the
function is looked through. -/
theorem statusThroughCalls_returns (h : s.Surveyed) (hf : s.Knows function)
    (hstatus : ∀ f, s.tree.Reachable f → s.tree.type? f = some .functionDeclaration →
      f ∉ underway → ∀ call s₁, s.Pursued s₁ → s₁.Knows call → ∃ status s₂,
        (statusAt call).run (underway ++ [f]) s₁ = .ok (status, underway ++ [f]) s₂ ∧ s₁.Pursued s₂) :
    ∃ o s', (function.statusThroughCalls statusAt).run underway s = .ok (o, underway) s' ∧
      s.Pursued s' := by
  have hnothing : ∃ o s', (Pure.pure none : OrderM (Option ExecutionStatus)).run underway s =
      .ok (o, underway) s' ∧ s.Pursued s' := ⟨none, s, rfl, .refl h⟩
  obtain ⟨v, hv, -⟩ := Session.Replies.is h.closed hf .functionDeclaration
  obtain ⟨parent, hparent, -⟩ := Session.Replies.parentType? h.closed hf
  obtain ⟨node, hnode, -⟩ := Session.Replies.node? h.closed hf
  unfold statusThroughCalls
  rw [Memory.run_of_ok hv]
  cases v with
  | false => exact hnothing
  | true =>
    rw [if_neg (by simp), Memory.run_of_ok hparent]
    split
    · exact hnothing
    rw [Memory.run_of_ok hnode]
    cases node with
    | none => exact hnothing
    | some f =>
      dsimp only
      rw [Memory.run_get_bind]
      split
      · exact hnothing
      next hnew =>
      obtain ⟨-, hheld⟩ := holds_of_node? hnode
      have htype : s.tree.type? f = some .functionDeclaration := by
        obtain ⟨k, hk⟩ := h.sound.forest.kind f (h.sound.mem_of_holds hheld)
        have his : function.is .functionDeclaration s =
          .ok (some k.type == some .functionDeclaration) s := bind_of_ok (type?_run_of_holds hheld hk)
        obtain ⟨heq, -⟩ := EStateM.Result.ok.inj (his.symm.trans hv)
        rw [Tree.type?_of_kind hk]
        exact eq_of_beq heq
      obtain ⟨id, s₁, hid, h₁, hknown⟩ := h.child_returns hf .id
      obtain ⟨o, s₂, hbinding, h₂, ho⟩ := h₁.surveyed.binding?_returns hknown
      have h₁₂ := h₁.trans h₂
      rw [Memory.run_of_ok hid, Memory.run_of_ok hbinding]
      cases o with
      | none => exact ⟨none, s₂, rfl, h₁₂⟩
      | some binding =>
        dsimp only
        split
        · exact ⟨some .before, s₂, rfl, h₁₂⟩
        · obtain ⟨o, s₃, hexamined, h₃⟩ := agreement_returns h₂.surveyed
            (fun call s₃ h₃ => hstatus f (h.sound.mem_of_holds hheld) htype hnew call s₃ (h₁₂.trans h₃))
            f none (Session.knows_some.mp ho).2.2.2.2
          exact ⟨o, s₃, examining_run hnew hexamined, h₁₂.trans h₃⟩

theorem hasReferences_returns (h : s.Surveyed) (hf : s.Knows function) :
    ∃ v s', function.hasReferences s = .ok v s' ∧ s.Pursued s' := by
  obtain ⟨id, s₁, hid, h₁, hknown⟩ := h.child_returns hf .id
  obtain ⟨o, s₂, ho, h₂, -⟩ := h₁.surveyed.binding?_returns hknown
  exact ⟨_, s₂, (bind_of_ok hid).trans (bind_of_ok ho), h₁.trans h₂⟩

end Returns

end PathId

/-! ## How many functions there are to examine -/

namespace Tree

/-- The function declarations of the program. -/
def functionDeclarations (t : Tree) : Set NodeId :=
  {n | t.Reachable n ∧ t.type? n = some .functionDeclaration}

theorem index_lt_of_functionDeclaration {t : Tree} {n : NodeId} (h : n ∈ t.functionDeclarations) :
    n.index < t.size := by
  obtain ⟨k, hk, -⟩ := kind_of_type? h.2
  exact (t.kind?_isSome_iff n).mp ⟨k, hk⟩

theorem finite_functionDeclarations (t : Tree) : t.functionDeclarations.Finite := by
  refine Set.Finite.of_finite_image (f := NodeId.index)
    ((Finset.finite_toSet (Finset.range t.size)).subset ?_) fun ⟨i⟩ _ ⟨j⟩ _ hij => by simpa using hij
  rintro _ ⟨n, hn, rfl⟩
  exact Finset.mem_coe.mpr (Finset.mem_range.mpr (index_lt_of_functionDeclaration hn))

theorem ncard_functionDeclarations_le (t : Tree) : t.functionDeclarations.ncard ≤ t.size := by
  have hle := Set.ncard_le_ncard_of_injOn (t := (Finset.range t.size : Set Nat)) NodeId.index
    (fun n hn => Finset.mem_coe.mpr (Finset.mem_range.mpr (index_lt_of_functionDeclaration hn)))
    (fun ⟨i⟩ _ ⟨j⟩ _ hij => by simpa using hij) (Finset.finite_toSet _)
  rwa [Set.ncard_coe_finset, Finset.card_range] at hle

/-- No more functions than there are can be under examination. -/
theorem length_le_of_functionDeclarations {t : Tree} {l : List NodeId} (hl : l.Nodup)
    (h : ∀ n ∈ l, n ∈ t.functionDeclarations) : l.length ≤ t.functionDeclarations.ncard := by
  classical
  rw [← List.toFinset_card_of_nodup hl, ← Set.ncard_coe_finset]
  exact Set.ncard_le_ncard (fun n hn => h n (List.mem_toFinset.mp (Finset.mem_coe.mp hn)))
    t.finite_functionDeclarations

/-- The functions under examination are distinct declarations of the program, and `fuel` more could
not all be. -/
structure Examines (t : Tree) (underway : List NodeId) (fuel : Nat) : Prop where
  nodup : underway.Nodup
  declared : ∀ f ∈ underway, f ∈ t.functionDeclarations
  enough : t.functionDeclarations.ncard < fuel + underway.length

namespace Examines

variable {t : Tree} {underway : List NodeId} {fuel : Nat} {f : NodeId}

theorem not_zero : ¬ t.Examines underway 0 := by
  rintro ⟨hnodup, hdeclared, henough⟩
  have hle := length_le_of_functionDeclarations hnodup hdeclared
  omega

/-- One more declaration is examined. -/
theorem push (h : t.Examines underway (fuel + 1)) (hf : f ∈ t.functionDeclarations)
    (hnew : f ∉ underway) : t.Examines (underway ++ [f]) fuel := by
  refine ⟨List.nodup_append.mpr ⟨h.nodup, List.nodup_singleton f, fun x hx y hy hxy => ?_⟩,
    fun g hg => ?_, ?_⟩
  · rw [List.mem_singleton.mp hy] at hxy
    exact hnew (hxy ▸ hx)
  · rcases List.mem_append.mp hg with hg | hg
    · exact h.declared g hg
    · exact List.mem_singleton.mp hg ▸ hf
  · have henough := h.enough
    rw [List.length_append, List.length_singleton]
    omega

end Examines

end Tree

namespace PathId

/-- If the order of two paths is found while one more function is examined, a function is looked
through by asking for such orders at its calls. -/
theorem statusThroughCalls_nested {s : Session} {function : PathId} {underway : List NodeId}
    {fuel : Nat} (h : s.Surveyed) (hu : s.tree.Examines underway (fuel + 1))
    (ih : ∀ {s : Session} {p q : PathId} {underway : List NodeId}, s.Surveyed → s.Knows p →
      s.Knows q → s.tree.Examines underway fuel → ∃ status s',
        (statusWithin fuel p q).run underway s = .ok (status, underway) s' ∧ s.Pursued s')
    (hfunction : s.Knows function) (statusAt : PathId → OrderM ExecutionStatus)
    (hcalls : ∀ call s₁, s.Pursued s₁ → s₁.Knows call →
      ∃ p q, statusAt call = statusWithin fuel p q ∧ s₁.Knows p ∧ s₁.Knows q) :
    ∃ o s', (statusThroughCalls function statusAt).run underway s = .ok (o, underway) s' ∧
      s.Pursued s' := by
  refine statusThroughCalls_returns h hfunction fun f hf htype hnew call s₁ h₁ hcall => ?_
  obtain ⟨p, q, hsame, hp, hq⟩ := hcalls call s₁ h₁ hcall
  rw [hsame]
  exact ih h₁.surveyed hp hq (h₁.tree ▸ hu.push ⟨hf, htype⟩ hnew)

/-- The order of two paths is found. Each nested question is asked while one more function
declaration is being examined, and none is examined twice at a time. -/
theorem statusWithin_returns {s : Session} {p q : PathId} {underway : List NodeId} {fuel : Nat}
    (h : s.Surveyed) (hp : s.Knows p) (hq : s.Knows q) (hu : s.tree.Examines underway fuel) :
    ∃ status s', (statusWithin fuel p q).run underway s = .ok (status, underway) s' ∧
      s.Pursued s' := by
  induction fuel generalizing s p q underway with
  | zero => exact absurd hu Tree.Examines.not_zero
  | succ fuel ih =>
    obtain ⟨mine, hmine, hmineKnown⟩ := Session.Replies.executionParent? h.walkable hp
    obtain ⟨other, hother, hotherKnown⟩ := Session.Replies.executionParent? h.walkable hq
    rw [statusWithin, Memory.run_of_ok hmine, Memory.run_of_ok hother]
    extract_lets nodeOf fromMine
    have hnode : ∀ o, s.Knows o → s.Replies (nodeOf o) := by
      intro o ho
      cases o with
      | none => exact .pure Session.knows_none
      | some r => exact .node? h.closed (Session.knows_some.mp ho)
    obtain ⟨n, hn, -⟩ := hnode mine hmineKnown
    obtain ⟨m, hm, -⟩ := hnode other hotherKnown
    -- What the calls of the function around `p` say, if those of the other one say nothing.
    have hrest : ∀ fromTarget s₁, s.Pursued s₁ → ∃ status s₂,
        (fromMine fromTarget).run underway s₁ = .ok (status, underway) s₂ ∧ s.Pursued s₂ := by
      intro fromTarget s₁ h₁
      cases fromTarget with
      | some status => exact ⟨status, s₁, rfl, h₁⟩
      | none =>
        cases mine with
        | none => exact ⟨.unknown, s₁, rfl, h₁⟩
        | some function =>
          have hfunction := h₁.grown.knows (Session.knows_some.mp hmineKnown)
          obtain ⟨v, s₂, hused, h₂⟩ := hasReferences_returns h₁.surveyed hfunction
          have h₁₂ := h₁.trans h₂
          dsimp only [fromMine]
          rw [Memory.run_of_ok hused]
          cases v with
          | false => exact ⟨.unknown, s₂, rfl, h₁₂⟩
          | true =>
            obtain ⟨o, s₃, hrun, h₃⟩ := statusThroughCalls_nested h₂.surveyed (h₁₂.tree ▸ hu) ih
              (h₂.grown.knows hfunction) (fun call => statusWithin fuel call q)
              fun call s₃ h₃ hcall => ⟨call, q, rfl, hcall, (h₁₂.trans h₃).grown.knows hq⟩
            rw [if_pos rfl, Memory.run_of_run hrun]
            exact ⟨o.getD .unknown, s₃, rfl, h₁₂.trans h₃⟩
    refine OrderM.returns_of_ok hn (OrderM.returns_of_ok hm ?_)
    split
    · obtain ⟨status, hstatus, -⟩ := Session.Replies.statusInFunction h.walkable hp hq
      exact ⟨status, s, bind_of_ok hstatus, .refl h⟩
    · cases other with
      | none => exact hrest none s (.refl h)
      | some function =>
        obtain ⟨o, s₁, hrun, h₁⟩ := statusThroughCalls_nested h hu ih
          (Session.knows_some.mp hotherKnown) (fun call => statusWithin fuel p call)
          fun call s₁ h₁ hcall => ⟨p, call, rfl, h₁.grown.knows hp, hcall⟩
        dsimp only
        rw [Memory.run_of_run hrun]
        exact hrest o s₁ h₁

end PathId

/-- In a program whose scopes were built, the question which of two paths is executed first has an
answer, whichever functions call each other. It is found without nesting questions deeper than twice
the number of function declarations and one more: the same is found with any such bound. And looking
through the calls of a function leaves the list of what is under examination as it was, however deep
in the nesting that is done. -/
theorem PathId.executionStatus_ends {t : Tree} {s : Session} (ht : t.IsProgram)
    (hclosed : t.Closed) (hs : s.Consulted t) {p q : PathId} (hp : s.Knows p) (hq : s.Knows q) :
    (∃ status s', p.executionStatus q s = .ok status s' ∧
      ∀ depth, 2 * t.functionDeclarations.ncard + 1 ≤ depth →
        (statusWithin depth p q).run [] s = .ok (status, []) s') ∧
    ∀ (depth : Nat) (function r : PathId) (underway underway' : List NodeId) (s₁ s₂ : Session) o,
      (function.statusThroughCalls fun call => statusWithin depth r call).run underway s₁ =
          .ok (o, underway') s₂ ∨
        (function.statusThroughCalls fun call => statusWithin depth call r).run underway s₁ =
          .ok (o, underway') s₂ → underway' = underway := by
  constructor
  · obtain ⟨hsurveyed, htree⟩ := hs.surveyed ht hclosed
    have hu : s.tree.Examines [] (t.functionDeclarations.ncard + 1) :=
      ⟨List.nodup_nil, by simp, by rw [htree]; simp⟩
    obtain ⟨status, s', hrun, -⟩ := statusWithin_returns hsurveyed hp hq hu
    have hdeeper : ∀ depth, t.functionDeclarations.ncard + 1 ≤ depth →
        (statusWithin depth p q).run [] s = .ok (status, []) s' :=
      fun depth hdepth => Refines.statusWithin hdepth p q _ _ _ _ hrun
    have hsize := t.ncard_functionDeclarations_le
    refine ⟨status, s', ?_, fun depth hdepth => hdeeper depth (by omega)⟩
    unfold executionStatus
    rw [run_get_bind]
    exact bind_of_ok (hdeeper _ (by rw [htree]; omega))
  · rintro depth function r underway underway' s₁ s₂ o (h | h)
    · exact Restores.statusThroughCalls (fun call => .statusWithin depth r call) function _ _ _ _ _ h
    · exact Restores.statusThroughCalls (fun call => .statusWithin depth call r) function _ _ _ _ _ h

/-- The program `function f() { a; g(); } function g() { b; f(); } f();`. -/
def mutualProgram : Tree where
  nodes := #[{ kind := .identifier "f" none }, { kind := .identifier "a" none },
    { kind := .expressionStatement ⟨1⟩ }, { kind := .identifier "g" none },
    { kind := .callExpression ⟨3⟩ [] }, { kind := .expressionStatement ⟨4⟩ },
    { kind := .blockStatement [⟨2⟩, ⟨5⟩] },
    { kind := .functionDeclaration (some ⟨0⟩) [] ⟨6⟩ false false none },
    { kind := .identifier "g" none }, { kind := .identifier "b" none },
    { kind := .expressionStatement ⟨9⟩ }, { kind := .identifier "f" none },
    { kind := .callExpression ⟨11⟩ [] }, { kind := .expressionStatement ⟨12⟩ },
    { kind := .blockStatement [⟨10⟩, ⟨13⟩] },
    { kind := .functionDeclaration (some ⟨8⟩) [] ⟨14⟩ false false none },
    { kind := .identifier "f" none }, { kind := .callExpression ⟨16⟩ [] },
    { kind := .expressionStatement ⟨17⟩ }, { kind := .program [⟨7⟩, ⟨15⟩, ⟨18⟩] [] }]
  root := some ⟨19⟩

theorem mutualProgram_isProgram : mutualProgram.IsProgram :=
  .of_bottomUp (by decide) (by decide) (by decide) (by decide)

/-- The session after the crawl. The statements in the two functions have the paths 6 and 13. -/
def mutualStart : Session :=
  after ensureScopes { tree := mutualProgram, config := { lazyScopes := true } }

/-- The functions call each other, and both statements are placed. -/
theorem mutualProgram_ends : mutualProgram.IsProgram ∧
    mutualProgram.Closed ∧ mutualStart.Consulted mutualProgram ∧
    mutualStart.Holds ⟨6⟩ ⟨2⟩ ∧ mutualStart.Holds ⟨13⟩ ⟨10⟩ ∧
    ∃ status s', PathId.executionStatus ⟨13⟩ ⟨6⟩ mutualStart = .ok status s' ∧
      ∀ depth, 2 * mutualProgram.functionDeclarations.ncard + 1 ≤ depth →
        (PathId.statusWithin depth ⟨13⟩ ⟨6⟩).run [] mutualStart = .ok (status, []) s' := by
  have hclosed : mutualProgram.Closed := .of_nodes (by decide) (by decide)
  have hrun := eq_ok_of_value? (x := ensureScopes) (a := ())
    (s := { tree := mutualProgram, config := { lazyScopes := true } }) (by decide +kernel)
  have hopen : Session.open? mutualProgram { lazyScopes := true } =
    .ok { tree := mutualProgram, config := { lazyScopes := true } } := rfl
  have hconsulted : mutualStart.Consulted mutualProgram := .crawled hopen hrun
  have hf : mutualStart.paths[6]?.bind PathData.node = some ⟨2⟩ := by decide +kernel
  have hg : mutualStart.paths[13]?.bind PathData.node = some ⟨10⟩ := by decide +kernel
  have hf : mutualStart.Holds ⟨6⟩ ⟨2⟩ := Option.bind_eq_some_iff.mp hf
  have hg : mutualStart.Holds ⟨13⟩ ⟨10⟩ := Option.bind_eq_some_iff.mp hg
  obtain ⟨d, hd, -⟩ := id hf
  obtain ⟨e, he, -⟩ := id hg
  exact ⟨mutualProgram_isProgram, hclosed, hconsulted, hf, hg,
    (PathId.executionStatus_ends mutualProgram_isProgram hclosed hconsulted
      (knows_of_data he) (knows_of_data hd)).1⟩

end Espalier
