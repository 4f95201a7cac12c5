import Espalier.Proofs.Answers
import Espalier.Proofs.Circles
import Espalier.Proofs.Dwelling
import Espalier.Proofs.Settling

set_option autoImplicit false

/-! # Warm sessions

A session is warm when nothing is left to be found: each field for one node has its path, each block
its scope and each path its type. Then questions leave it as it is, so the search through a condition
unfolds a part in the same way whenever it comes to it (`Session.Warm.unfolding`), and ends if and
only if no part leads in a circle (`Session.Warm.search_ends_iff`).

While the type of a path is being found, an empty union stands in its place. So where no type but
this one was missing, the conditions around the path are searched in a warm session
(`Session.Warm.answer`). -/

namespace Espalier

open SessionM Session

variable {α β : Type}

/-! ## Questions that leave the session as it is -/

/-- A question whose first part is known. -/
theorem Session.Replies.of_ok {s : Session} [Names β] {x : SessionM α} {f : α → SessionM β} {a : α}
    (hrun : x s = .ok a s) (hf : s.Replies (f a)) : s.Replies (x >>= f) := by
  obtain ⟨b, hb, hknown⟩ := hf
  exact ⟨b, (bind_of_ok hrun).trans hb, hknown⟩

/-- The search leaves the session as it is, and finds what the session has. -/
def Session.Idles [Names α] (s : Session) (x : ResolveM α) : Prop :=
  ∀ seen, after (x.run seen) s = s ∧ ∀ a seen' s', x.run seen s = .ok (a, seen') s' → s.Knows a

namespace Session.Idles

variable {s : Session} [Names α] [Names β]

theorem pure {a : α} (ha : s.Knows a) : s.Idles (pure a : ResolveM α) := by
  refine fun seen => ⟨rfl, fun b seen' s' hrun => ?_⟩
  obtain ⟨hpair, -⟩ := EStateM.Result.ok.inj hrun
  exact (Prod.mk.inj hpair).1 ▸ ha

theorem bind {x : ResolveM α} {f : α → ResolveM β} (hx : s.Idles x)
    (hf : ∀ a, s.Knows a → s.Idles (f a)) : s.Idles (x >>= f) := by
  intro seen
  obtain ⟨hafter, hknown⟩ := hx seen
  cases hrun : x.run seen s with
  | ok r s₁ =>
    obtain ⟨a, seen₁⟩ := r
    rw [after_of_ok hrun] at hafter
    subst hafter
    unfold after
    rw [Memory.run_of_run hrun]
    exact hf a (hknown a seen₁ _ hrun) seen₁
  | error e s₁ =>
    rw [after_of_error hrun] at hafter
    subst hafter
    have hfails : (x >>= f).run seen s₁ = .error e s₁ := bind_of_error hrun
    exact ⟨after_of_error hfails, fun b seen' s' hb => by cases hfails.symm.trans hb⟩

omit [Names α] in
/-- A computation whose first part is known. -/
theorem of_ok {x : SessionM α} {f : α → ResolveM β} {a : α} (hrun : x s = .ok a s)
    (hf : s.Idles (f a)) : s.Idles (liftM x >>= f) := by
  intro seen
  unfold after
  rw [Memory.run_of_ok hrun]
  exact hf seen

theorem ite {c : Prop} [Decidable c] {x y : ResolveM α} (hx : s.Idles x) (hy : s.Idles y) :
    s.Idles (if c then x else y) := by
  split
  · exact hx
  · exact hy

/-- A computation without a memory. -/
theorem lift {x : SessionM α} (hx : after x s = s) (hknown : ∀ a, x s = .ok a s → s.Knows a) :
    s.Idles (liftM x : ResolveM α) := by
  intro seen
  cases hrun : x s with
  | ok a s₁ =>
    rw [after_of_ok hrun] at hx
    subst hx
    have hlift : (liftM x : ResolveM α).run seen s₁ = .ok (a, seen) s₁ := bind_of_ok hrun
    refine ⟨after_of_ok hlift, fun b seen' s' hb => ?_⟩
    obtain ⟨hpair, -⟩ := EStateM.Result.ok.inj (hlift.symm.trans hb)
    exact (Prod.mk.inj hpair).1 ▸ hknown a hrun
  | error e s₁ =>
    rw [after_of_error hrun] at hx
    subst hx
    have hlift : (liftM x : ResolveM α).run seen s₁ = .error e s₁ := bind_of_error hrun
    exact ⟨after_of_error hlift, fun b seen' s' hb => by cases hlift.symm.trans hb⟩

theorem replies {x : SessionM α} (hx : s.Replies x) : s.Idles (liftM x : ResolveM α) := by
  obtain ⟨a, hrun, ha⟩ := hx
  exact lift (after_of_ok hrun) fun b hb =>
    (EStateM.Result.ok.inj (hrun.symm.trans hb)).1 ▸ ha

theorem careful {x : SessionM α} (hs : s.Closed) (hx : after x s = s) (hc : Careful x s) :
    s.Idles (liftM x : ResolveM α) := by
  refine lift hx fun a hrun => ?_
  have hends := hc hs
  rw [hrun] at hends
  exact hends.2.2

end Session.Idles

/-! ## Warm sessions -/

namespace Session

/-- Nothing is left to be found but the types of some paths: each field for one node has its path,
each block its scope, and every other path its type. -/
structure Warm (s : Session) (untyped : Set PathId) : Prop extends Passable s where
  program : s.tree.IsProgram
  slots : ∀ n k f, s.tree.Reachable n → s.tree.kind? n = some k →
    (∃ m, k.child? f = some (.one m)) ∨ (∃ o, k.child? f = some (.opt o)) →
    ∃ q d, s.Files q (.slot n f) d
  typed : ∀ p, s.Knows p → p ∉ untyped → ∃ type, s.Answered p type

namespace Warm

variable {s : Session} {untyped : Set PathId} {p : PathId} {n : NodeId} {k : NodeKind}

theorem surveyed (h : s.Warm untyped) : s.Surveyed :=
  ⟨⟨h.sound, h.ordered, h.program⟩, h.crawled, h.closed, h.shelved⟩

/-- In a session in which nothing was edited it is enough that each field for one node is known. -/
theorem of_consulted {t : Tree} (ht : t.IsProgram) (hgrammar : t.Grammatical) (hclosed : t.Closed)
    (hs : s.Consulted t)
    (hslots : ∀ n k, t.kind? n = some k → ∀ e ∈ k.fields, e.2.list? = none →
      (s.cached? (.slot n) (.field e.1) (t.occupant? (.slot n e.1))).isSome)
    (htyped : ∀ i < s.paths.size, ⟨i⟩ ∉ untyped → (s.paths[i]?.bind PathData.inferred).isSome) :
    s.Warm untyped := by
  obtain ⟨hpassable, rfl⟩ := hs.passable ht hgrammar hclosed
  refine ⟨hpassable, ht, fun n k f hn hk hf => ?_, fun p hp huntyped => ?_⟩
  · obtain ⟨c, hc, hsingle⟩ : ∃ c, k.child? f = some c ∧ c.list? = none := by
      rcases hf with ⟨m, hc⟩ | ⟨o, hc⟩
      · exact ⟨_, hc, rfl⟩
      · exact ⟨_, hc, rfl⟩
    obtain ⟨q, hq⟩ := Option.isSome_iff_exists.mp
      (hslots n k hk (f, c) ((k.child?_eq_some_iff f c).mp hc) hsingle)
    have hw : (Position.slot n f).Within s.tree.reachable := Position.within_of_parent rfl hn
    obtain ⟨d, hd⟩ := hpassable.sound.files_of_cached hw hq
    exact ⟨q, d, hd⟩
  · obtain ⟨type, htype⟩ := Option.isSome_iff_exists.mp (htyped p.index hp huntyped)
    exact ⟨type, Option.bind_eq_some_iff.mp htype⟩

/-- To a field for one node the session has a way. -/
theorem child (h : s.Warm untyped) (hp : s.Holds p n) (hk : s.tree.kind? n = some k) {f : Field}
    (hf : (∃ m, k.child? f = some (.one m)) ∨ ∃ o, k.child? f = some (.opt o)) :
    s.Replies (p.child f) := by
  have hn := h.reachable hp
  have hw : (Position.slot n f).Within s.tree.reachable := Position.within_of_parent rfl hn
  obtain ⟨q, d, hfiles⟩ := h.slots n k f hn hk hf
  -- The way leads to the first path that is filed there, which may be another one.
  cases hfound : s.cached? (Position.slot n f).container (Position.slot n f).key
      (s.tree.occupant? (.slot n f)) with
  | none => exact absurd hfiles (Sound.not_files_of_cached hfound)
  | some q' =>
    obtain ⟨d', hfiles'⟩ := h.sound.files_of_cached hw hfound
    obtain ⟨p', hparent, hp'⟩ := h.sound.linked q' (.slot n f) d' hfiles' hw
    obtain rfl := h.sound.holder_unique hp hp'
    exact ⟨q', PathId.child_run_of_dwells hp hk hf ⟨hfiles', hfound⟩ hparent,
      knows_of_data hfiles'.data⟩

/-- Once an answer is left with a path, its type is not missing any more. -/
theorem answer (h : s.Warm untyped) (hp : s.Knows p) (type : ValueType) :
    (s.answer p type).Warm (untyped \ {p}) := by
  obtain ⟨d, hd⟩ := exists_data hp
  have hrun : p.modifyData (fun d => { d with inferred := some type }) s =
      .ok () (s.answer p type) := p.modifyData_run hd _
  have hends := Careful.answer hp type h.closed
  rw [hrun] at hends
  refine ⟨⟨h.toCharted.answer p type, hends.2.1, ?_⟩, h.program, fun n k f hn hk hf => ?_,
    fun q hq huntyped => ?_⟩
  · exact (Shelves.inferring (.primitive (.answer p type))).of_ok hrun h.shelved
  · obtain ⟨q, e, hfiles⟩ := h.slots n k f hn hk hf
    by_cases hqp : q = p
    · subst hqp
      exact ⟨q, { e with inferred := some type }, getElem?_answer_self hfiles.data type,
        hfiles.bucket, hfiles.container, hfiles.key, hfiles.live, hfiles.node⟩
    · exact ⟨q, e, (getElem?_answer_of_ne s hqp type).trans hfiles.data, hfiles.bucket,
        hfiles.container, hfiles.key, hfiles.live, hfiles.node⟩
  · by_cases hqp : q = p
    · subst hqp
      exact ⟨type, _, getElem?_answer_self hd type, rfl⟩
    · have hknown : s.Knows q := by
        obtain ⟨e, he⟩ := exists_data hq
        exact knows_of_data ((getElem?_answer_of_ne s hqp type).symm.trans he)
      obtain ⟨answered, e, he, hanswered⟩ := h.typed q hknown fun hmem => huntyped ⟨hmem, hqp⟩
      exact ⟨answered, e, (getElem?_answer_of_ne s hqp type).trans he, hanswered⟩

/-! ### What a path stands for -/

section Resolve

variable {inner : PathId → ResolveM (Option PathId)} (hinner : ∀ q, s.Knows q → s.Idles (inner q))

include hinner

theorem resolveOrSelf (hp : s.Knows p) : s.Idles (PathId.resolveOrSelf inner p) := by
  refine (hinner p hp).bind fun o ho => .pure ?_
  cases o with
  | none => exact hp
  | some q => exact knows_some.mp ho

theorem resolveDeclarator (h : s.Warm untyped) (hp : s.Holds p n) {id : NodeId}
    {init : Option NodeId} (hk : s.tree.kind? n = some (.variableDeclarator id init)) :
    s.Idles (PathId.resolveDeclarator inner p) := by
  refine (Idles.replies (h.child hp hk (f := .id) (.inl ⟨id, rfl⟩))).bind fun q hq => ?_
  refine (Idles.replies (Replies.is h.closed hq .identifier)).bind fun _ _ =>
    .ite ?_ (.pure knows_none)
  refine (Idles.replies (h.child hp hk (f := .init) (.inr ⟨init, rfl⟩))).bind fun r hr => ?_
  exact (resolveOrSelf hinner hr).bind fun _ ha => .pure (knows_some.mpr ha)

theorem resolveIdentifier (h : s.Warm untyped) (hp : s.Knows p) :
    s.Idles (PathId.resolveIdentifier inner p) := by
  refine (Idles.careful h.closed (h.after_binding? p) (.binding? hp)).bind fun o ho => ?_
  cases o with
  | none => exact .pure knows_none
  | some binding =>
    have hbinding := knows_some.mp ho
    refine .ite (.pure knows_none) ((resolveOrSelf hinner hbinding.2.2.1).bind fun q hq => ?_)
    refine (Idles.replies (Replies.node? h.closed hq)).bind fun node _ => ?_
    refine (Idles.replies (Replies.find? h.walkable hp fun r hr =>
      (Replies.node? h.closed hr).bind fun _ _ => .pure trivial)).bind fun o _ => .pure ?_
    cases o.isSome with
    | true => exact knows_none
    | false => exact knows_some.mpr hq

theorem resolveAnew (h : s.Warm untyped) (hp : s.Knows p) :
    s.Idles (PathId.resolveAnew inner false p) := by
  obtain ⟨o, hkind, -⟩ := Replies.kind? h.closed hp
  refine Idles.of_ok hkind ?_
  rcases PathId.kind?_eq_ok hkind with ⟨rfl, -⟩ | ⟨n, k, rfl, hheld, hk⟩
  · exact .pure knows_none
  · split
    · next heq =>
      obtain rfl := Option.some.inj heq
      exact resolveDeclarator hinner h hheld hk
    · refine (Idles.careful h.closed ((Composed.isReferencedIdentifier p).question_after s)
        (Reads.isReferencedIdentifier hp).careful).bind fun _ _ => ?_
      exact .ite (resolveIdentifier hinner h hp) (.pure knows_none)
    · next expression _ heq =>
      obtain rfl := Option.some.inj heq
      refine (Idles.replies (h.child hheld hk (f := .expression)
        (.inl ⟨expression, rfl⟩))).bind fun q hq => ?_
      exact (resolveOrSelf hinner hq).bind fun _ ha => .pure (knows_some.mpr ha)
    · exact .pure knows_none
    · exact .pure knows_none

end Resolve

theorem resolveWithin (h : s.Warm untyped) (fuel : Nat) (hp : s.Knows p) :
    s.Idles (PathId.resolveWithin false fuel p) := by
  induction fuel generalizing p with
  | zero => exact fun seen => ⟨rfl, fun _ _ _ hrun => by cases hrun⟩
  | succ fuel ih =>
    intro seen
    by_cases hmem : p ∈ seen
    · have hrun : (PathId.resolveWithin false (fuel + 1) p).run seen s = .ok (none, seen) s :=
        PathId.resolveWithin_run_of_mem hmem
      refine ⟨after_of_ok hrun, fun o seen' s' ho => ?_⟩
      obtain ⟨hpair, -⟩ := EStateM.Result.ok.inj (hrun.symm.trans ho)
      exact (Prod.mk.inj hpair).1 ▸ knows_none
    · unfold after
      rw [PathId.resolveWithin_run_of_not_mem hmem]
      exact resolveAnew (fun q hq => ih hq) h hp (p :: seen)

/-- What a path stands for is found, and nothing changes. -/
theorem resolve (h : s.Warm untyped) (hp : s.Knows p) : s.Replies (p.resolve false) := by
  obtain ⟨q, s', hrun, -, hq⟩ := PathId.resolve_returns h.surveyed hp false
  have hsearch := hrun
  unfold PathId.resolve at hsearch
  rw [run_get_bind] at hsearch
  obtain ⟨r, s₁, hwithin, hfound⟩ := bind_eq_ok hsearch
  obtain ⟨-, rfl⟩ := EStateM.Result.ok.inj hfound
  have hidle := (h.resolveWithin s.pathBound hp []).1
  rw [after_of_ok hwithin] at hidle
  subst hidle
  exact ⟨q, hrun, hq⟩

/-! ### What a comparison says -/

/-- Whether a path is a `typeof` expression is known, and then what it is applied to is found. -/
theorem isTypeof (h : s.Warm untyped) (hp : s.Knows p) :
    ∃ v, p.isTypeof s = .ok v s ∧ (v = true → s.Replies (p.child .argument)) := by
  obtain ⟨o, hkind, -⟩ := Replies.kind? h.closed hp
  unfold PathId.isTypeof
  rw [bind_of_ok hkind]
  split
  · next argument =>
    rcases PathId.kind?_eq_ok hkind with ⟨heq, -⟩ | ⟨n, k, heq, hheld, hk⟩
    · cases heq
    · obtain rfl := Option.some.inj heq
      exact ⟨true, rfl, fun _ => h.child hheld hk (.inl ⟨argument, rfl⟩)⟩
  · exact ⟨false, rfl, fun htrue => by cases htrue⟩

theorem typeFromTypeof? (h : s.Warm untyped) (name : String) {left right : PathId}
    (hleft : s.Knows left) (hright : s.Knows right) :
    s.Replies (PathId.typeFromTypeof? name left right) := by
  obtain ⟨v, hv, hargument⟩ := h.isTypeof hleft
  obtain ⟨w, hw, hargument'⟩ := h.isTypeof hright
  unfold PathId.typeFromTypeof?
  extract_lets rest
  have hrest : ∀ operator other, s.Knows other → s.Replies (operator.child .argument) →
      s.Replies (rest (some (operator, other))) := by
    intro operator other hother hchild
    refine (h.resolve hother).bind fun r hr => (Replies.kind? h.closed hr).bind fun k _ => ?_
    split
    · refine hchild.bind fun a ha => (Replies.identifierName? h.closed ha).bind fun _ _ => ?_
      exact .ite (.pure (knows_typed _)) (.pure (knows_typed _))
    · exact .pure (knows_typed _)
  refine Replies.of_ok hv (Replies.of_ok hw ?_)
  cases v with
  | true => exact hrest left right hright (hargument rfl)
  | false =>
    cases w with
    | true => exact hrest right left hleft (hargument' rfl)
    | false => exact .pure (knows_typed _)

theorem typeFromComparison? (h : s.Warm untyped) {annotate : PathId → SessionM ValueType}
    (hannotate : ∀ q, s.Knows q → s.Replies (annotate q)) (name : String)
    {operator : BinaryOperator} {left right : NodeId} (hp : s.Holds p n)
    (hk : s.tree.kind? n = some (.binaryExpression operator left right)) :
    s.Replies (PathId.typeFromComparison? annotate name p operator) := by
  unfold PathId.typeFromComparison?
  refine (h.child hp hk (.inl ⟨left, rfl⟩)).bind fun a ha => (h.resolve ha).bind fun l hl => ?_
  refine (h.child hp hk (.inl ⟨right, rfl⟩)).bind fun b hb => (h.resolve hb).bind fun r hr => ?_
  extract_lets rest
  have hrest : ∀ q, s.Knows q → s.Replies (rest (some q)) := fun q hq =>
    .ite ((hannotate q hq).bind fun _ _ => .pure (knows_typed _)) (.pure (knows_typed _))
  have hnone : s.Replies (rest none) :=
    .ite (h.typeFromTypeof? name hl hr) (.pure (knows_typed _))
  refine (Replies.identifierName? h.closed hl).bind fun _ _ => ?_
  refine (Replies.identifierName? h.closed hr).bind fun _ _ => ?_
  exact .ite (hrest r hr) (.ite (hrest l hl) hnone)

end Warm

end Session

/-! ## Searches through a condition -/

/-- The operands of what a part of a condition stands for. -/
def PathId.operands (p : PathId) : SessionM (List PathId) := do
  let q ← p.resolve false
  match ← q.kind? with
  | some (.logicalExpression ..) => do pure [← q.child .left, ← q.child .right]
  | _ => pure []

namespace Session

/-- The same, without asking. -/
def operandsOf (s : Session) (p : PathId) : List PathId := (value? p.operands s).getD []

theorem operandsOf_eq {s s' : Session} {p : PathId} {l : List PathId} (h : p.operands s = .ok l s') :
    s.operandsOf p = l := by
  unfold operandsOf value?
  rw [h]
  rfl

namespace Warm

variable {s : Session} {untyped : Set PathId} {p : PathId} {annotate : PathId → SessionM ValueType}

/-- A part of a condition is unfolded into its operands. -/
theorem unfolds (h : s.Warm untyped) (hannotate : ∀ q, s.Knows q → s.Replies (annotate q))
    (name : String) (hp : s.Knows p) :
    s.Unfolds annotate name p (s.operandsOf p) ∧ s.Knows (s.operandsOf p) := by
  suffices hl : ∃ l, p.operands s = .ok l s ∧ s.Unfolds annotate name p l ∧ s.Knows l by
    obtain ⟨l, hrun, hl⟩ := hl
    rwa [operandsOf_eq hrun]
  obtain ⟨q, hresolve, hq⟩ := h.resolve hp
  obtain ⟨o, hkind, -⟩ := Replies.kind? h.closed hq
  have hsilent : (∀ k, o = some k → k.type.isBinary = false) →
      ∃ l, p.operands s = .ok l s ∧ s.Unfolds annotate name p l ∧ s.Knows l := by
    intro hplain
    refine ⟨[], ?_, .silent hresolve hkind hplain, knows_nil⟩
    unfold PathId.operands
    rw [bind_of_ok hresolve, bind_of_ok hkind]
    split
    · cases hplain _ rfl
    · rfl
  rcases PathId.kind?_eq_ok hkind with ⟨rfl, -⟩ | ⟨n, k, rfl, hheld, hk⟩
  · exact hsilent fun k hk => by cases hk
  · cases k with
    | logicalExpression op left right =>
      obtain ⟨a, hleft, ha⟩ := h.child hheld hk (f := .left) (.inl ⟨left, rfl⟩)
      obtain ⟨b, hright, hb⟩ := h.child hheld hk (f := .right) (.inl ⟨right, rfl⟩)
      refine ⟨[a, b], ?_, .operands hresolve hkind hleft hright,
        knows_cons.mpr ⟨ha, knows_cons.mpr ⟨hb, knows_nil⟩⟩⟩
      unfold PathId.operands
      rw [bind_of_ok hresolve, bind_of_ok hkind]
      dsimp only
      rw [bind_of_ok hleft, bind_of_ok hright]
      rfl
    | binaryExpression op left right =>
      obtain ⟨type, htype, -⟩ := h.typeFromComparison? hannotate name hheld hk
      refine ⟨[], ?_, .comparison hresolve hkind htype, knows_nil⟩
      unfold PathId.operands
      rw [bind_of_ok hresolve, bind_of_ok hkind]
      rfl
    | _ => exact hsilent fun k hk => Option.some.inj hk ▸ rfl

/-- In a warm session every part of a condition is unfolded in one way. -/
theorem unfolding (h : s.Warm untyped) (hannotate : ∀ q, s.Knows q → s.Replies (annotate q))
    (name : String) : s.Unfolding annotate name { p | s.Knows p } s.operandsOf where
  unfolds _ hp := (h.unfolds hannotate name hp).1
  closed _ hp q hq := (h.unfolds hannotate name hp).2 q hq

/-- Every type is known. -/
theorem valueTypeWithin (h : s.Warm ∅) (steps fuel : Nat) (hp : s.Knows p) :
    s.Replies (PathId.valueTypeWithin steps (fuel + 1) p) := by
  obtain ⟨type, d, hd, htype⟩ := h.typed p hp (Set.notMem_empty p)
  refine ⟨type, ?_, trivial⟩
  rw [PathId.valueTypeWithin, bind_of_ok (p.data_run hd), htype]
  rfl

/-- In a warm session the search through a condition ends if and only if the condition does not lead
in a circle, and if it does not end, its steps are used up, however many they are. -/
theorem search_ends_iff (h : s.Warm ∅) (name : String) (steps fuel : Nat)
    (hp : s.Knows p) :
    ((∃ n types, PathId.typesFromCondition (PathId.valueTypeWithin steps (fuel + 1)) name n [p] s =
      .ok types s) ↔ Acc (fun q r => q ∈ s.operandsOf r) p) ∧
    ∀ n, (∃ types, PathId.typesFromCondition (PathId.valueTypeWithin steps (fuel + 1)) name n [p] s =
        .ok types s) ∨
      PathId.typesFromCondition (PathId.valueTypeWithin steps (fuel + 1)) name n [p] s =
        .error .exhausted s := by
  have hunfolding := h.unfolding (fun q hq => h.valueTypeWithin steps fuel hq) name
  have hqueue : ∀ q ∈ [p], q ∈ { r | s.Knows r } := fun q hq => List.mem_singleton.mp hq ▸ hp
  refine ⟨⟨?_, fun hacc => ?_⟩, fun n => PathId.typesFromCondition_outcome hunfolding n hqueue⟩
  · rintro ⟨n, types, hrun⟩
    exact PathId.acc_of_typesFromCondition hunfolding hqueue hrun p List.mem_cons_self
  · have hqueued : ∀ q ∈ [p], Acc (fun q r => q ∈ s.operandsOf r) q :=
      fun q hq => List.mem_singleton.mp hq ▸ hacc
    obtain ⟨n, hn⟩ := exists_unfoldingSteps hqueued
    exact ⟨n + 1, PathId.typesFromCondition_ends hunfolding hn hqueue⟩

end Warm

end Session

/-! ## A warm session in which a search does not end -/

/-- The path of the missing branch is asked for, and then all types but that of the last `a`. -/
def circularAsks : SessionM Unit := do
  let alternate ← (⟨3⟩ : PathId).child .alternate
  let _ ← alternate.valueType
  ((List.range 17).map PathId.mk).forM fun p => do
    let _ ← p.valueType

theorem circularAsks_inferring : Inferring circularAsks :=
  (Navigating.child ⟨3⟩ .alternate).inferring.bind fun q => (Inferring.valueType q).bind fun _ =>
    .forM _ fun p => (Inferring.valueType p).bind fun _ => .pure _

theorem circularAsks_consulted {s : Session} {t : Tree} (hs : s.Consulted t)
    (hknown : ∀ i < 18, s.Knows (⟨i⟩ : PathId)) : (after circularAsks s).Consulted t := by
  have hcareful : Careful circularAsks s := by
    refine (Careful.child (hknown 3 (by decide)) .alternate).bind fun q s₁ h₁ hq => ?_
    refine (Careful.valueType hq).bind fun _ s₂ h₂ _ => .forM (fun p hp => ?_) fun p s₃ _ hp => ?_
    · obtain ⟨i, hi, rfl⟩ := List.mem_map.mp hp
      have hi := List.mem_range.mp hi
      exact h₂.knows (h₁.knows (hknown i (by omega)))
    · exact (Careful.valueType hp).bind fun _ _ _ _ => .pure trivial
  exact .asked circularAsks_inferring hcareful hs

/-- The session after that. -/
def circularWarm : Session := after circularAsks circularSession

theorem circularSession_consulted : circularSession.Consulted circularProgram ∧
    ∀ i < 18, circularSession.Knows (⟨i⟩ : PathId) := by
  obtain ⟨_, s, hrun, -, -⟩ := ensureScopes_orderly circularProgram_isProgram {}
  obtain rfl : circularSession = s := after_of_ok hrun
  have hbuilt : circularSession.scopes.crawled = true ∧ circularSession.paths.size = 18 := by
    decide +kernel
  refine ⟨.crawled (open?_of_ensureScopes rfl hrun) (ensureScopes_run hbuilt.1), fun i hi => ?_⟩
  exact Nat.lt_of_lt_of_eq hi hbuilt.2.symm

theorem circularWarm_warm : circularWarm.Warm {⟨17⟩} := by
  obtain ⟨hcrawled, hknown⟩ := circularSession_consulted
  have hconsulted : circularWarm.Consulted circularProgram :=
    circularAsks_consulted hcrawled hknown
  have hslots : ∀ i < 18, ∀ k ∈ circularProgram.kind? ⟨i⟩, ∀ e ∈ k.fields, e.2.list? = none →
      (circularWarm.cached? (.slot ⟨i⟩) (.field e.1)
        (circularProgram.occupant? (.slot ⟨i⟩ e.1))).isSome := by decide +kernel
  have htyped : ∀ i < circularWarm.paths.size, i ≠ 17 →
      (circularWarm.paths[i]?.bind PathData.inferred).isSome := by decide +kernel
  refine .of_consulted circularProgram_isProgram (.of_plain (by decide))
    (.of_nodes (by decide) (by decide)) hconsulted (fun n k hk => ?_) fun i hi hne => ?_
  · exact hslots n.index ((circularProgram.kind?_isSome_iff n).mp ⟨k, hk⟩) k hk
  · exact htyped i hi fun heq => hne (congrArg PathId.mk heq)

/-- While the last type is being found, the session is warm, and the search through the test of the
conditional does not end. -/
theorem circularWarm_exhausted : (circularWarm.answer ⟨17⟩ (.union [])).Warm ∅ ∧
    ∀ steps fuel n, PathId.typesFromCondition (PathId.valueTypeWithin steps (fuel + 1)) "a" n [⟨14⟩]
      (circularWarm.answer ⟨17⟩ (.union [])) =
        .error .exhausted (circularWarm.answer ⟨17⟩ (.union [])) := by
  have hsize : 17 < circularWarm.paths.size ∧
      14 < (circularWarm.answer ⟨17⟩ (.union [])).paths.size := by decide +kernel
  have hcircle : ∀ p ∈ [⟨7⟩, ⟨12⟩, (⟨14⟩ : PathId)],
      ∃ q ∈ (circularWarm.answer ⟨17⟩ (.union [])).operandsOf p,
        q ∈ [⟨7⟩, ⟨12⟩, (⟨14⟩ : PathId)] := by decide +kernel
  have hwarm := circularWarm_warm.answer (p := ⟨17⟩) hsize.1 (.union [])
  rw [Set.sdiff_self] at hwarm
  refine ⟨hwarm, fun steps fuel n => ?_⟩
  obtain ⟨hends, houtcome⟩ := hwarm.search_ends_iff (p := ⟨14⟩) "a" steps fuel hsize.2
  refine (houtcome n).resolve_left ?_
  rintro ⟨types, hrun⟩
  exact not_acc_of_circle hcircle (by decide) (hends.mp ⟨n, types, hrun⟩)

end Espalier
