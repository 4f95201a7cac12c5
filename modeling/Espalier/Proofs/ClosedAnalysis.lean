import Espalier.Analysis.Inference
import Espalier.Proofs.ClosedScopes

set_option autoImplicit false

/-! # Analysis within range

What names stand for, the order of execution and the types of known paths are found without a number
out of range (`Careful.executionStatus`, `Careful.valueType`). Searches keep a memory of paths and
nodes that they came by, all of which are there. -/

namespace Espalier

open SessionM

variable {α β μ : Type} {s : Session}

instance : Names ExecutionStatus := .plain ExecutionStatus

/-! ## Searches with a memory -/

/-- A search that is careful as long as all that it remembers is there. -/
def Mindful [Names α] [Names μ] (x : StateT μ SessionM α) (s : Session) : Prop :=
  ∀ memory, s.Knows memory → Careful (x.run memory) s

namespace Mindful

section Combine

variable [Names α] [Names β] [Names μ]

theorem pure {a : α} (ha : s.Knows a) : Mindful (pure a : StateT μ SessionM α) s :=
  fun _ hm => Careful.pure ⟨ha, hm⟩

theorem exhausted : Mindful (throw .exhausted : StateT μ SessionM α) s :=
  fun _ _ => Careful.exhausted

theorem bind {x : StateT μ SessionM α} {f : α → StateT μ SessionM β} (hx : Mindful x s)
    (hf : ∀ a s', s.Extends s' → s'.Knows a → Mindful (f a) s') : Mindful (x >>= f) s :=
  fun m hm => (hx m hm).bind fun r s' h hr => hf r.1 s' h hr.1 r.2 hr.2

theorem memory : Mindful (get : StateT μ SessionM μ) s := fun _ hm => Careful.pure ⟨hm, hm⟩

theorem remember {f : μ → μ} (hf : ∀ m, s.Knows m → s.Knows (f m)) :
    Mindful (modify f : StateT μ SessionM PUnit) s := fun m hm => Careful.pure ⟨trivial, hf m hm⟩

theorem lift {x : SessionM α} (hx : Careful x s) : Mindful (liftM x : StateT μ SessionM α) s :=
  fun _ hm => hx.bind fun _ _ h ha => Careful.pure ⟨ha, h.knows hm⟩

/-- A question on the way. -/
theorem ask {x : SessionM α} {f : α → StateT μ SessionM β} (hx : Reads x s)
    (hf : ∀ a, s.Knows a → Mindful (f a) s) : Mindful (liftM x >>= f) s :=
  fun m hm => Reads.andThen (β := β × μ)
    (hx.bind (f := fun a => Pure.pure (a, m)) fun _ ha => Reads.pure ⟨ha, hm⟩)
    fun r hr => hf r.1 hr.1 r.2 hr.2

theorem ite {c : Prop} [Decidable c] {x y : StateT μ SessionM α} (hx : c → Mindful x s)
    (hy : ¬c → Mindful y s) : Mindful (if c then x else y) s := by
  split
  · next h => exact hx h
  · next h => exact hy h

end Combine

/-! ### What an expression stands for -/

section Inner

variable {inner : PathId → ResolveM (Option PathId)}
  (hinner : ∀ p s, s.Knows p → Mindful (inner p) s) {p : PathId} (hp : s.Knows p)

include hinner hp

theorem resolveOrSelf : Mindful (PathId.resolveOrSelf inner p) s := by
  refine (hinner p s hp).bind fun o s₁ h₁ ho => pure ?_
  cases o with
  | none => exact h₁.knows hp
  | some q => exact Session.knows_some.mp ho

/-- The same, as an answer that there is. -/
theorem resolveSome : Mindful (do Pure.pure (some (← PathId.resolveOrSelf inner p))) s :=
  (resolveOrSelf hinner hp).bind fun _ _ _ hq => pure (Session.knows_some.mpr hq)

theorem resolveDeclarator : Mindful (PathId.resolveDeclarator inner p) s := by
  refine (lift (.child hp .id)).bind fun id s₁ h₁ hid => ask (.is hid _) fun _ _ => ite (fun _ => ?_)
    fun _ => pure Session.knows_none
  exact (lift (.child (h₁.knows hp) .init)).bind fun init s₂ _ hinit => resolveSome hinner hinit

theorem resolveIdentifier : Mindful (PathId.resolveIdentifier inner p) s := by
  refine (lift (.binding? hp)).bind fun o s₁ h₁ ho => ?_
  cases o with
  | none => exact pure Session.knows_none
  | some binding =>
    have hbinding := Session.knows_some.mp ho
    refine ite (fun _ => pure Session.knows_none) fun _ => ?_
    refine (resolveOrSelf hinner hbinding.2.2.1).bind fun target s₂ h₂ htarget => ?_
    refine ask (.node? htarget) fun node _ => ask (.find? ((h₁.trans h₂).knows hp) fun q hq =>
      (Reads.node? hq).bind fun _ _ => .pure trivial) fun o _ => pure ?_
    cases o.isSome with
    | true => exact Session.knows_none
    | false => exact Session.knows_some.mpr htarget

omit hinner hp in
theorem lastProperty? (key : String) {l : List PathId} (hl : s.Knows l) :
    Reads (PathId.lastProperty? key l) s := by
  induction l with
  | nil => exact .pure Session.knows_none
  | cons q l ih =>
    obtain ⟨hq, hl⟩ := Session.knows_cons.mp hl
    refine (ih hl).bind fun o ho => ?_
    cases o with
    | some found => exact .pure ho
    | none =>
      refine (Reads.kind? hq).bind fun k hk => ?_
      split
      · next id _ computed _ =>
        have hid : s.Knows id := Session.knows_some.mp hk id
          (by simp [NodeKind.children, NodeKind.fields, Child.ids])
        have hname : Reads (SessionM.ask fun t => t.staticKey? id computed) s := by
          refine .ask fun hs => ?_
          obtain ⟨k, hk, -⟩ := hs.exists_kind hid
          exact ⟨_, by simp only [Tree.staticKey?, hk]; rfl, fun _ _ => trivial⟩
        refine hname.bind fun name _ => .pure ?_
        split
        · exact Session.knows_some.mpr hq
        · exact Session.knows_none
      · exact .pure Session.knows_none

theorem resolveAccess (key : String) : Mindful (PathId.resolveAccess inner p key) s := by
  refine ask (.type? hp) fun o _ => ?_
  split
  · refine (lift (.elements hp .properties)).bind fun l s₁ _ hl => ask (lastProperty? key hl) fun o ho => ?_
    cases o with
    | none => exact pure Session.knows_none
    | some q => exact (lift (.child (Session.knows_some.mp ho) .value)).bind fun r s₂ _ hr =>
        resolveSome hinner hr
  · split
    · exact pure Session.knows_none
    · refine (lift (.element hp .elements _)).bind fun q s₁ _ hq => ask (.node? hq) fun o _ => ?_
      cases o with
      | none => exact pure Session.knows_none
      | some _ => exact resolveSome hinner hq
  · exact pure Session.knows_none

theorem resolveMember {property : NodeId} (hproperty : s.Knows property) (computed : Bool) :
    Mindful (PathId.resolveMember inner p property computed) s := by
  have hname : Reads (SessionM.ask fun t => t.staticKey? property computed) s := by
    refine .ask fun hs => ?_
    obtain ⟨k, hk, -⟩ := hs.exists_kind hproperty
    exact ⟨_, by simp only [Tree.staticKey?, hk]; rfl, fun _ _ => trivial⟩
  refine ask (.type hproperty) fun _ _ => ite (fun _ => pure Session.knows_none) fun _ =>
    ask hname fun o _ => ?_
  cases o with
  | none => exact pure Session.knows_none
  | some key =>
    exact (lift (.child hp .object)).bind fun q s₁ _ hq => (resolveOrSelf hinner hq).bind
      fun r s₂ _ hr => resolveAccess hinner hr key

end Inner

theorem resolveWithin (dangerous : Bool) (fuel : Nat) {p : PathId} (hp : s.Knows p) :
    Mindful (PathId.resolveWithin dangerous fuel p) s := by
  induction fuel generalizing p s with
  | zero => exact exhausted
  | succ fuel ih =>
    have hinner : ∀ p s, s.Knows p → Mindful (PathId.resolveWithin dangerous fuel p) s :=
      fun p s hp => ih hp
    refine memory.bind fun seen s₁ h₁ _ => ite (fun _ => pure Session.knows_none) fun _ => ?_
    have hp := h₁.knows hp
    refine (remember fun m hm => Session.knows_cons.mpr ⟨hp, hm⟩).bind fun _ s₂ h₂ _ => ?_
    have hp := h₂.knows hp
    refine ask (.kind? hp) fun k hk => ?_
    split
    · exact resolveDeclarator hinner hp
    · exact ask (.isReferencedIdentifier hp) fun _ _ => ite (fun _ => resolveIdentifier hinner hp)
        fun _ => pure Session.knows_none
    · exact (lift (.child hp .expression)).bind fun q s₃ _ hq => resolveSome hinner hq
    · next property _ =>
      have hproperty : s₂.Knows property := Session.knows_some.mp hk property
        (by simp [NodeKind.children, NodeKind.fields, Child.ids])
      exact ite (fun _ => resolveMember hinner hp hproperty _) fun _ => pure Session.knows_none
    · exact pure Session.knows_none

end Mindful

namespace Careful

variable {p q : PathId} (hp : s.Knows p)

include hp in
theorem resolve (dangerous : Bool) : Careful (p.resolve dangerous) s := by
  refine get_bind fun _ => (Mindful.resolveWithin dangerous _ hp [] Session.knows_nil).bind
    fun r s₁ h₁ hr => pure ?_
  cases ho : r.1 with
  | none => exact h₁.knows hp
  | some q => exact hr.1 q ho

include hp in
theorem importsName (name : String) : Reads (p.importsName name) s := by
  refine (Reads.kind? hp).bind fun o ho => ?_
  split
  · exact .pure trivial
  · exact .pure trivial
  · next imported =>
    have himported : s.Knows imported := Session.knows_some.mp ho imported
      (by simp [NodeKind.children, NodeKind.fields, Child.ids])
    exact (Reads.kind himported).bind fun _ _ => .pure trivial
  · exact .pure trivial

include hp in
theorem referencesImport (source : String) (name : Option String) :
    Careful (p.referencesImport source name) s := by
  refine (Reads.isReferencedIdentifier hp).andThen fun _ _ => ite (fun _ => pure trivial) fun _ => ?_
  refine (binding? hp).bind fun o s₁ _ ho => ?_
  cases o with
  | none => exact pure trivial
  | some binding =>
    have hpath := (Session.knows_some.mp ho).2.2.1
    refine ite (fun _ => pure trivial) fun _ => (Reads.parent? hpath).andThen fun o ho => ?_
    cases o with
    | none => exact pure trivial
    | some declaration =>
      refine (Reads.kind? (Session.knows_some.mp ho)).andThen fun o ho => ?_
      split
      · next node =>
        have hsource : s₁.Knows node := Session.knows_some.mp ho node
          (by simp [NodeKind.children, NodeKind.fields, Child.ids])
        refine (Reads.kind hsource).andThen fun _ _ => ite (fun _ => ?_) fun _ => pure trivial
        cases name with
        | none => exact pure trivial
        | some name => exact (importsName hpath name).careful
      · exact pure trivial

end Careful

/-! ## The order of execution -/

namespace Reads

variable {p q : PathId} (hp : s.Knows p)

include hp in
theorem executionParent? : Reads p.executionParent? s := by
  unfold PathId.executionParent?
  extract_lets find
  have hfind : ∀ start, s.Knows start → Reads (find start) s := by
    intro start hstart
    cases start with
    | none => exact pure Session.knows_none
    | some q => exact find? (Session.knows_some.mp hstart) fun r hr => isAny hr _
  refine (isAny hp _).bind fun v _ => ?_
  cases v with
  | true => exact (parent? hp).bind hfind
  | false => exact (pure (Session.knows_some.mpr hp)).bind hfind

/-- The paths where two ways up meet are on these ways. -/
theorem knows_fork {others mine : List (Option NodeId × PathId)} {below : Option PathId}
    {fork : PathId.Fork} (ho : s.Knows others) (hm : s.Knows mine) (hb : s.Knows below)
    (h : PathId.forkOf others below mine = some fork) :
    s.Knows fork.path ∧ s.Knows fork.below ∧ s.Knows fork.otherBelow := by
  induction mine generalizing below with
  | nil => cases h
  | cons e mine ih =>
    obtain ⟨node, r⟩ := e
    obtain ⟨⟨-, hr⟩, hmine⟩ := Session.knows_cons.mp hm
    unfold PathId.forkOf at h
    split at h
    · next i _ =>
      obtain rfl := Option.some.inj h
      refine ⟨hr, hb, ?_⟩
      cases i with
      | zero => exact Session.knows_none
      | succ j =>
        intro r' hr'
        obtain ⟨e, he, rfl⟩ := Option.map_eq_some_iff.mp hr'
        exact (Session.knows_of_getElem? ho he).2
    · exact ih hmine (Session.knows_some.mpr hr) h

include hp in
theorem statusInFunction (hq : s.Knows q) : Reads (p.statusInFunction q) s := by
  have hnodes : ∀ l : List PathId, s.Knows l →
      Reads (l.mapM fun q => do Pure.pure (← q.node?, q)) s := fun l hl =>
    mapM hl fun r hr => (node? hr).bind fun _ hn => pure ⟨hn, hr⟩
  refine (ancestry hp).bind fun l hl => (hnodes l hl).bind fun mine hmine => ?_
  refine (ancestry hq).bind fun l hl => (hnodes l hl).bind fun others hothers => ?_
  split
  · exact pure trivial
  · next fork a b hfork =>
    obtain ⟨hpath, ha, hb⟩ := knows_fork hothers hmine Session.knows_none hfork
    refine (data (Session.knows_some.mp ha)).bind fun _ _ => (data (Session.knows_some.mp hb)).bind
      fun _ _ => ite (fun _ => pure trivial) fun _ => (type? hpath).bind fun o _ => ?_
    cases o with
    | none => exact pure trivial
    | some type => exact pure trivial
  · exact pure trivial

include hp in
theorem isCallee : Reads p.isCallee s :=
  (data hp).bind fun _ _ => ite (fun _ => (parentType? hp).bind fun _ _ => pure trivial)
    fun _ => pure trivial

include hp in
theorem isInside (n : NodeId) : Reads (p.isInside n) s :=
  (find? hp fun _ hq => (node? hq).bind fun _ _ => pure trivial).bind fun _ _ => pure trivial

end Reads

theorem Careful.hasReferences {p : PathId} (hp : s.Knows p) : Careful p.hasReferences s :=
  (child hp .id).bind fun _ _ _ hq => (binding? hq).bind fun _ _ _ _ => Careful.pure trivial

namespace Mindful

section Calls

variable {statusAt : PathId → PathId.OrderM ExecutionStatus}
  (hstatus : ∀ q s', s.Extends s' → s'.Knows q → Mindful (statusAt q) s')

include hstatus

theorem agreement (function : NodeId) {agreed : Option ExecutionStatus} {calls : List PathId}
    (hcalls : s.Knows calls) : Mindful (PathId.agreement function statusAt agreed calls) s := by
  have hnothing : ∀ (s : Session) (o : Option ExecutionStatus), s.Knows o := fun _ _ _ _ => trivial
  induction calls generalizing agreed s with
  | nil => exact pure (hnothing _ _)
  | cons call calls ih =>
    obtain ⟨hcall, hcalls⟩ := Session.knows_cons.mp hcalls
    refine ask (.isCallee hcall) fun _ _ => ite (fun _ => pure (hnothing _ _)) fun _ => ?_
    refine ask (.isInside hcall function) fun _ _ => ite (fun _ => ih hstatus hcalls) fun _ => ?_
    refine (hstatus call s (.refl s) hcall).bind fun _ s₁ h₁ _ =>
      ite (fun _ => pure (hnothing _ _)) fun _ => ?_
    exact ih (fun q s' h => hstatus q s' (h₁.trans h)) (h₁.knows hcalls)

theorem statusThroughCalls {function : PathId} (hf : s.Knows function) :
    Mindful (function.statusThroughCalls statusAt) s := by
  have hnothing : ∀ (s : Session) (o : Option ExecutionStatus), s.Knows o := fun _ _ _ _ => trivial
  refine ask (.is hf _) fun _ _ => ite (fun _ => pure (hnothing _ _)) fun _ => ?_
  refine ask (.parentType? hf) fun _ _ => ite (fun _ => pure (hnothing _ _)) fun _ => ?_
  refine ask (.node? hf) fun o ho => ?_
  cases o with
  | none => exact pure (hnothing _ _)
  | some node =>
    refine memory.bind fun _ s₁ h₁ _ => ite (fun _ => pure (hnothing _ _)) fun _ => ?_
    refine (lift (.child (h₁.knows hf) .id)).bind fun id s₂ h₂ hid => ?_
    refine (lift (.binding? hid)).bind fun o s₃ h₃ hbinding => ?_
    cases o with
    | none => exact pure (hnothing _ _)
    | some binding =>
      have h := (h₁.trans h₂).trans h₃
      have hnode := h.knows (Session.knows_some.mp ho)
      refine ite (fun _ => pure (hnothing _ _)) fun _ => ?_
      have hpush : ∀ m : List NodeId, s₃.Knows m → s₃.Knows (m ++ [node]) := fun m hm =>
        Session.knows_append.mpr ⟨hm, Session.knows_cons.mpr ⟨hnode, Session.knows_nil⟩⟩
      refine (remember hpush).bind fun _ s₄ h₄ _ => ?_
      have hreferences := h₄.knows (Session.knows_some.mp hbinding).2.2.2.2
      refine (agreement (fun q s' h' => hstatus q s' ((h.trans h₄).trans h')) node hreferences).bind
        fun o s₅ h₅ _ => ?_
      refine (remember fun m hm => Session.knows_of_subset (List.filter_subset_self _) hm).bind
        fun _ s₆ _ _ => pure (hnothing _ _)

end Calls

theorem statusWithin (fuel : Nat) {p q : PathId} (hp : s.Knows p) (hq : s.Knows q) :
    Mindful (PathId.statusWithin fuel p q) s := by
  induction fuel generalizing p q s with
  | zero => exact exhausted
  | succ fuel ih =>
    unfold PathId.statusWithin
    refine ask (.executionParent? hp) fun mine hmineKnown => ?_
    refine ask (.executionParent? hq) fun other hother => ?_
    extract_lets nodeOf fromMine
    have hnode : ∀ o, s.Knows o → Reads (nodeOf o) s := by
      intro o ho
      cases o with
      | none => exact Reads.pure Session.knows_none
      | some q => exact Reads.node? (Session.knows_some.mp ho)
    have hmine : ∀ fromTarget s₁, s.Extends s₁ → Mindful (fromMine fromTarget) s₁ := by
      intro fromTarget s₁ h₁
      have hmine := h₁.knows hmineKnown
      cases fromTarget with
      | some status => exact pure trivial
      | none =>
        cases mine with
        | none => exact pure trivial
        | some function =>
          have hfunction := Session.knows_some.mp hmine
          refine (lift (.hasReferences hfunction)).bind fun _ s₂ h₂ _ => ite (fun _ => ?_)
            fun _ => pure trivial
          refine (statusThroughCalls (fun r s' h' hr => ih hr (((h₁.trans h₂).trans h').knows hq))
            (h₂.knows hfunction)).bind fun _ _ _ _ => pure trivial
    refine ask (hnode mine hmineKnown) fun _ _ => ask (hnode other hother) fun _ _ => ?_
    refine ite (fun _ => lift (Reads.statusInFunction hp hq).careful) fun _ => ?_
    cases other with
    | none => exact hmine none s (.refl s)
    | some function =>
      exact (statusThroughCalls (fun r s' h' hr => ih (h'.knows hp) hr) (Session.knows_some.mp hother)).bind
        fun o s₁ h₁ _ => hmine o s₁ h₁

end Mindful

namespace Careful

section Order

variable {p q : PathId} (hp : s.Knows p) (hq : s.Knows q)

include hp hq

theorem executionStatus : Careful (p.executionStatus q) s :=
  get_bind fun _ => (Mindful.statusWithin _ hp hq [] Session.knows_nil).bind fun _ _ _ _ => pure trivial

theorem executesBefore : Careful (p.executesBefore q) s :=
  (executionStatus hp hq).bind fun _ _ _ _ => pure trivial

theorem mayExecuteBefore : Careful (p.mayExecuteBefore q) s :=
  (executionStatus hp hq).bind fun _ _ _ _ => pure trivial

end Order

end Careful

/-! ## Types -/

/-- Types name nothing. -/
theorem Session.knows_typed (o : Option ValueType) : s.Knows o := fun _ _ => trivial

theorem Session.knows_typeList (l : List ValueType) : s.Knows l := fun _ _ => trivial

namespace Reads

variable {p q : PathId} (hp : s.Knows p)

include hp

theorem typeOfMissing? : Reads p.typeOfMissing? s := by
  have hnothing := Session.knows_typed (s := s)
  unfold PathId.typeOfMissing?
  refine (data hp).bind fun d _ => ite (fun _ => pure (hnothing _)) fun _ => ?_
  refine (parentType? hp).bind fun _ _ => ite (fun _ => pure (hnothing _)) fun _ => ?_
  extract_lets rest
  have hrest : ∀ declaration, s.Knows declaration → Reads (rest declaration) s := by
    intro declaration hdeclaration
    cases declaration with
    | none => exact pure (hnothing _)
    | some q =>
      have hq := Session.knows_some.mp hdeclaration
      refine (data hq).bind fun _ _ => ite (fun _ => (parentType? hq).bind fun o _ => ?_)
        fun _ => pure (hnothing _)
      split
      · exact pure (hnothing _)
      · exact pure (hnothing _)
      · exact pure (hnothing _)
  refine (parent? hp).bind fun o ho => ?_
  cases o with
  | none => exact hrest none Session.knows_none
  | some q => exact (parent? (Session.knows_some.mp ho)).bind hrest

theorem nearestConditional? : Reads p.nearestConditional? s := by
  refine (climb (fun q hq => (parent? hq).bind fun o ho => ?_) (Session.knows_some.mpr hp)).bind
    fun o ho => pure ?_
  · cases o with
    | none => exact pure Session.knows_none
    | some parent =>
      -- The test of a conditional has no conditional; a branch has the one that it is a branch of.
      have hasked : Reads (do Pure.pure (some
          (if (← q.data).key = .field .test then none else some parent))) s := by
        refine (data hq).bind fun _ _ => pure (Session.knows_some.mpr ?_)
        split
        · exact Session.knows_none
        · exact ho
      refine (type? (Session.knows_some.mp ho)).bind fun o _ => ?_
      split
      · exact hasked
      · exact hasked
      · exact pure Session.knows_none
  · cases o with
    | none => exact Session.knows_none
    | some o => exact Session.knows_some.mp ho

theorem isTypeof : Reads p.isTypeof s := by
  refine (kind? hp).bind fun k _ => ?_
  split
  · exact pure trivial
  · exact pure trivial

end Reads

namespace Careful

variable {p q : PathId} (hp : s.Knows p)

section Plain

include hp

theorem typeOfCall? : Careful p.typeOfCall? s :=
  (resolve hp false).bind fun _ _ _ hq => ((Reads.kind? hq).bind fun _ _ =>
    .pure (Session.knows_typed _)).careful

theorem violationsBefore {sites : List PathId} (hsites : s.Knows sites) :
    Careful (p.violationsBefore sites) s := by
  induction sites generalizing s with
  | nil => exact pure ⟨Session.knows_nil, Session.knows_nil⟩
  | cons site sites ih =>
    obtain ⟨hsite, hrest⟩ := Session.knows_cons.mp hsites
    refine (resolve hsite false).bind fun value s₁ h₁ hvalue => ?_
    refine (executionStatus hvalue (h₁.knows hp)).bind fun status s₂ h₂ _ => ?_
    have h₂ := h₁.trans h₂
    refine (ih (h₂.knows hp) (h₂.knows hrest)).bind fun found s₃ h₃ hfound => pure ?_
    have hsite := (h₂.trans h₃).knows hsite
    cases status with
    | before => exact ⟨Session.knows_cons.mpr ⟨hsite, hfound.1⟩, hfound.2⟩
    | after => exact hfound
    | unknown => exact ⟨hfound.1, Session.knows_cons.mpr ⟨hsite, hfound.2⟩⟩

theorem typeFromTypeof? (name : String) (hq : s.Knows q) :
    Careful (PathId.typeFromTypeof? name p q) s := by
  unfold PathId.typeFromTypeof?
  extract_lets rest
  have hrest : ∀ sides, s.Knows sides → Careful (rest sides) s := by
    intro sides hsides
    cases sides with
    | none => exact pure (Session.knows_typed _)
    | some sides =>
      obtain ⟨hoperator, hother⟩ := Session.knows_some.mp hsides
      refine (resolve hother false).bind fun r s₁ h₁ hr => (Reads.kind? hr).andThen fun k _ => ?_
      split
      · refine (child (h₁.knows hoperator) .argument).bind fun a s₂ _ ha => ?_
        exact (Reads.identifierName? ha).andThen fun _ _ =>
          ite (fun _ => pure (Session.knows_typed _)) fun _ => pure (Session.knows_typed _)
      · exact pure (Session.knows_typed _)
  refine (Reads.isTypeof hp).andThen fun v _ => (Reads.isTypeof hq).andThen fun w _ => ?_
  cases v with
  | true => exact hrest (some (p, q)) (Session.knows_some.mpr ⟨hp, hq⟩)
  | false =>
    cases w with
    | true => exact hrest (some (q, p)) (Session.knows_some.mpr ⟨hq, hp⟩)
    | false => exact hrest none Session.knows_none

end Plain

/-! ### From the types of other paths -/

section Step

variable {annotate : PathId → SessionM ValueType}
  (hannotate : ∀ q s', s'.Knows q → Careful (annotate q) s')

include hannotate

theorem annotations {ps : List PathId} (hps : s.Knows ps) : Careful (ps.mapM annotate) s :=
  mapM hps fun q _ _ hq => hannotate q _ hq

include hp

theorem unionOfFields? (fields : List Field) : Careful (PathId.unionOfFields? annotate p fields) s :=
  (mapM (Session.knows_fields fields) fun f _ h _ => (child (h.knows hp) f).bind
    fun q s' _ hq => hannotate q s' hq).bind fun _ _ _ _ => pure (Session.knows_typed _)

theorem typeOfBinary? (operator : BinaryOperator) :
    Careful (PathId.typeOfBinary? annotate p operator) s := by
  have hnothing := fun s => Session.knows_typed (s := s)
  refine ite (fun _ => pure (hnothing _ _)) fun _ => ite (fun _ => pure (hnothing _ _)) fun _ => ?_
  refine (child hp .left).bind fun left s₁ h₁ hleft => ?_
  refine (child (h₁.knows hp) .right).bind fun right s₂ h₂ hright => ?_
  have his : ∀ (q : PathId) (name : String) (s' : Session), s'.Knows q →
      Careful (do Pure.pure ((← annotate q).isBase name)) s' := fun q _ s' hq =>
    (hannotate q s' hq).bind fun _ _ _ _ => pure trivial
  have hleft := h₂.knows hleft
  have hstrings : ∀ (s' : Session) (strings : Bool), Careful (Pure.pure
      (if strings then some .string else ValueType.union? [.string, .number])) s' :=
    fun s' _ => pure (hnothing s' _)
  have hrest : ∀ (s' : Session) (numbers : Bool), s₂.Extends s' → Careful (do
      if numbers then Pure.pure (some .number)
      else
        let strings ← if ← (do Pure.pure ((← annotate left).isBase "string")) then Pure.pure true
          else (do Pure.pure ((← annotate right).isBase "string"))
        Pure.pure (if strings then some .string else ValueType.union? [.string, .number])) s' := by
    intro s' numbers h'
    refine ite (fun _ => pure (hnothing _ _)) fun _ => ?_
    refine (his left _ s' (h'.knows hleft)).bind fun v s'' h'' _ => ?_
    cases v with
    | true => exact hstrings s'' true
    | false => exact (his right _ s'' ((h'.trans h'').knows hright)).bind fun v s _ _ => hstrings s v
  refine (his left _ s₂ hleft).bind fun v s₃ h₃ _ => ?_
  cases v with
  | true => exact (his right _ s₃ (h₃.knows hright)).bind fun v s' h' _ => hrest s' v (h₃.trans h')
  | false => exact hrest s₃ false h₃

theorem typeFromComparison? (name : String) (operator : BinaryOperator) :
    Careful (PathId.typeFromComparison? annotate name p operator) s := by
  unfold PathId.typeFromComparison?
  refine (child hp .left).bind fun a s₁ h₁ ha => (resolve ha false).bind fun left s₂ h₂ hleft => ?_
  refine (child ((h₁.trans h₂).knows hp) .right).bind fun b s₃ h₃ hb =>
    (resolve hb false).bind fun right s₄ h₄ hright => ?_
  have hleft := (h₃.trans h₄).knows hleft
  extract_lets rest
  have hrest : ∀ target, s₄.Knows target → Careful (rest target) s₄ := by
    intro target htarget
    cases target with
    | none =>
      exact ite (fun _ => typeFromTypeof? hleft name hright) fun _ => pure (Session.knows_typed _)
    | some q =>
      exact ite (fun _ => (hannotate q s₄ (Session.knows_some.mp htarget)).bind
        fun _ _ _ _ => pure (Session.knows_typed _)) fun _ => pure (Session.knows_typed _)
  refine (Reads.identifierName? hleft).andThen fun _ _ => ?_
  refine (Reads.identifierName? hright).andThen fun _ _ => ?_
  refine ite (fun _ => hrest (some right) (Session.knows_some.mpr hright)) fun _ => ?_
  exact ite (fun _ => hrest (some left) (Session.knows_some.mpr hleft))
    fun _ => hrest none Session.knows_none

omit hp in
theorem typesFromCondition (name : String) (steps : Nat) {ps : List PathId} (hps : s.Knows ps) :
    Careful (PathId.typesFromCondition annotate name steps ps) s := by
  induction steps generalizing s ps with
  | zero => exact exhausted
  | succ steps ih =>
    cases ps with
    | nil => exact pure (Session.knows_typeList _)
    | cons p ps =>
      obtain ⟨hp, hps⟩ := Session.knows_cons.mp hps
      refine (resolve hp false).bind fun q s₁ h₁ hq => (Reads.kind? hq).andThen fun k _ => ?_
      split
      · refine (child hq .left).bind fun left s₂ h₂ hleft => ?_
        refine (child (h₂.knows hq) .right).bind fun right s₃ h₃ hright => ih ?_
        exact Session.knows_append.mpr ⟨((h₁.trans h₂).trans h₃).knows hps,
          Session.knows_cons.mpr ⟨h₃.knows hleft, Session.knows_cons.mpr ⟨hright, Session.knows_nil⟩⟩⟩
      · refine (typeFromComparison? hq hannotate name _).bind fun _ s₂ h₂ _ => ?_
        exact (ih ((h₁.trans h₂).knows hps)).bind fun _ _ _ _ => pure (Session.knows_typeList _)
      · exact ih (h₁.knows hps)

theorem narrowing? (name : String) (steps fuel : Nat) :
    Careful (PathId.narrowing? annotate name steps fuel p) s := by
  induction fuel generalizing p s with
  | zero => exact exhausted
  | succ fuel ih =>
    refine (Reads.nearestConditional? hp).andThen fun o ho => ?_
    cases o with
    | none => exact pure Session.knows_none
    | some conditional =>
      have hconditional := Session.knows_some.mp ho
      refine (child hconditional .test).bind fun test s₁ h₁ htest => ?_
      refine (typesFromCondition hannotate name steps
        (Session.knows_cons.mpr ⟨htest, Session.knows_nil⟩)).bind fun types s₂ h₂ _ => ?_
      have hconditional := (h₁.trans h₂).knows hconditional
      split
      · exact pure (Session.knows_some.mpr ⟨trivial, hconditional⟩)
      · exact ih hconditional

theorem typeFromAssignments? (steps : Nat) (name : String) {binding : Binding}
    (hbinding : s.Knows binding) :
    Careful (PathId.typeFromAssignments? annotate steps p name binding) s := by
  have hsites : s.Knows (binding.path :: binding.violations) :=
    Session.knows_cons.mpr ⟨hbinding.2.2.1, hbinding.2.2.2.1⟩
  refine (violationsBefore hp hsites).bind fun order s₁ h₁ horder => get_bind fun _ => ?_
  refine (narrowing? (h₁.knows hp) hannotate name steps _).bind fun o s₂ h₂ ho => ?_
  have horder := h₂.knows horder
  have hrest : ∀ (s' : Session) (known : List ValueType × List PathId), s₂.Extends s' →
      s'.Knows known.2 → Careful (do
        let types ← (known.2 ++ order.2).mapM annotate
        Pure.pure (ValueType.union? (known.1 ++ types))) s' := fun s' known h' hknown =>
    (annotations hannotate (Session.knows_append.mpr ⟨hknown, h'.knows horder.2⟩)).bind
      fun _ _ _ _ => pure (Session.knows_typed _)
  cases o with
  | none => exact hrest s₂ ([], order.1) (.refl s₂) horder.1
  | some found =>
    obtain ⟨type, conditional⟩ := found
    refine (violationsBefore (Session.knows_some.mp ho).2 ((h₁.trans h₂).knows hsites)).bind
      fun earlier s₃ h₃ _ => ?_
    exact hrest s₃ ([type], order.1.filter fun q => decide (q ∉ earlier.1)) h₃
      (Session.knows_of_subset (List.filter_subset_self _) (h₃.knows horder.1))

theorem typeOfReference? (steps : Nat) (name : String) :
    Careful (PathId.typeOfReference? annotate steps p name) s := by
  have hnothing := fun s => Session.knows_typed (s := s)
  refine (Reads.isReferenced hp).andThen fun _ _ => ite (fun _ => pure (hnothing _ _)) fun _ => ?_
  refine (binding? hp).bind fun o s₁ h₁ ho => ?_
  cases o with
  | none => exact pure (hnothing _ _)
  | some binding =>
    have hbinding := Session.knows_some.mp ho
    refine (Reads.kind hbinding.1).andThen fun k _ => ?_
    split
    · exact pure (hnothing _ _)
    · exact typeFromAssignments? (h₁.knows hp) hannotate steps name hbinding

theorem typeOf? (steps : Nat) : Careful (PathId.typeOf? annotate steps p) s := by
  have hnothing := fun s => Session.knows_typed (s := s)
  have hof : ∀ (q : PathId) (s' : Session), s'.Knows q →
      Careful (do Pure.pure (some (← annotate q))) s' := fun q s' hq =>
    (hannotate q s' hq).bind fun _ s'' _ _ => pure (hnothing s'' _)
  have hfield : ∀ f : Field, Careful (do Pure.pure (some (← annotate (← p.child f)))) s := fun f =>
    (child hp f).bind fun q s' _ hq => hof q s' hq
  refine (Reads.kind? hp).andThen fun o ho => ?_
  cases o with
  | none => exact (Reads.typeOfMissing? hp).careful
  | some kind =>
    have hkind := Session.knows_some.mp ho
    dsimp only
    split
    · exact pure (hnothing _ _)
    · exact typeOfReference? hp hannotate steps _
    · next id _ =>
      have hid : s.Knows id := hkind id (by simp [NodeKind.children, NodeKind.fields, Child.ids])
      exact (Reads.type hid).andThen fun _ _ => ite (fun _ => hfield .init)
        fun _ => pure (hnothing _ _)
    · exact pure (hnothing _ _)
    · next callee _ =>
      have hcallee : s.Knows callee :=
        hkind callee (by simp [NodeKind.children, NodeKind.fields, Child.ids])
      exact (Reads.kind hcallee).andThen fun _ _ => pure (hnothing _ _)
    · exact pure (hnothing _ _)
    · exact typeOfBinary? hp hannotate _
    · exact unionOfFields? hp hannotate _
    · exact unionOfFields? hp hannotate _
    · exact pure (hnothing _ _)
    · exact (element hp _ _).bind fun q s' _ hq => hof q s' hq
    · exact hfield .right
    · exact pure (hnothing _ _)
    · exact pure (hnothing _ _)
    · exact pure (hnothing _ _)
    · exact pure (hnothing _ _)
    · exact pure (hnothing _ _)
    · exact pure (hnothing _ _)
    · exact pure (hnothing _ _)
    · exact pure (hnothing _ _)
    · exact pure (hnothing _ _)
    · exact pure (hnothing _ _)
    · exact pure (hnothing _ _)
    · exact (child hp .callee).bind fun q s' _ hq => typeOfCall? hq
    · refine (Reads.parentType? hp).andThen fun _ _ => ite (fun _ => ?_) fun _ => pure (hnothing _ _)
      refine (Reads.parent? hp).andThen fun o ho => ?_
      cases o with
      | none => exact pure (hnothing _ _)
      | some parent => exact hof parent s (Session.knows_some.mp ho)

end Step

/-! ### Answers -/

section Answers

include hp

/-- Leaving an answer with the path. -/
theorem answer (type : ValueType) :
    Careful (p.modifyData fun d => { d with inferred := some type }) s :=
  annotate hp fun _ => ⟨rfl, rfl, rfl⟩

theorem valueTypeWithin (steps fuel : Nat) : Careful (PathId.valueTypeWithin steps fuel p) s := by
  induction fuel generalizing p s with
  | zero => exact exhausted
  | succ fuel ih =>
    refine (Reads.data hp).andThen fun d _ => ?_
    split
    · exact pure trivial
    · refine (answer hp _).bind fun _ s₁ h₁ _ => ?_
      have hother : ∀ q s', s'.Knows q → Careful (PathId.valueTypeWithin steps fuel q) s' :=
        fun q s' hq => ih hq
      refine (typeOf? (h₁.knows hp) hother steps).bind fun _ s₂ h₂ _ => ?_
      exact (answer ((h₁.trans h₂).knows hp) _).bind fun _ _ _ _ => pure trivial

theorem valueType : Careful p.valueType s := get_bind fun _ => valueTypeWithin hp _ _

theorem inferType? : Careful p.inferType? s :=
  get_bind fun _ => typeOf? hp (fun _ _ hq => valueTypeWithin hq _ _) _

theorem isBaseType (name : String) (soft : Bool) : Careful (p.isBaseType name soft) s :=
  ite (fun _ => pure trivial) fun _ => (valueType hp).bind fun _ _ _ _ => pure trivial

theorem couldBeBaseType (name : String) : Careful (p.couldBeBaseType name) s := by
  refine (valueType hp).bind fun type _ _ _ => ?_
  split
  · exact pure trivial
  · exact pure trivial
  · exact pure trivial

theorem sameBaseType (hq : s.Knows q) : Careful (p.sameBaseType q) s :=
  (valueType hp).bind fun _ _ h _ => (valueType (h.knows hq)).bind fun _ _ _ _ => pure trivial

theorem isGenericType (name : String) : Careful (p.isGenericType name) s :=
  (valueType hp).bind fun _ _ _ _ => pure trivial

end Answers

end Careful

end Espalier
