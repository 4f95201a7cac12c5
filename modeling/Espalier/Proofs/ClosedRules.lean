import Espalier.Proofs.ClosedReplacement
import Espalier.Rule.Builtin

set_option autoImplicit false

/-! # Rules within range

A transformer is within range when its rules are: each makes a visitor within range, whose handlers
are within range on known paths (`Heedful.transform`). The built-in rules are such, by name
(`Careful.transformByName`). -/

namespace Espalier

open SessionM

variable {σ : Type} {k : Nat} {s : Session}

/-! ## Running rules -/

/-- In every session that is left of this one, the rule makes a visitor with handlers within range,
and is within range itself. -/
def Rule.Heeds (k : Nat) (s : Session) (r : Rule σ) : Prop :=
  ∀ w : Walk σ, s.Preserves k w.session → Heedful k r.visitor w ∧
    ∀ v w', r.visitor w = .ok v w' → Heedful.Handles k w'.session v

namespace Heedful

variable {w : Walk σ}

theorem attempt {r : Rule σ} (hr : r.Heeds k s) (hw : s.Preserves k w.session) :
    Heedful k (Transformer.attempt r.visitor) w := by
  obtain ⟨hvisitor, hhandles⟩ := hr w hw
  have hrun : Heedful k (r.visitor >>= Espalier.traverse) w :=
    hvisitor.bind_run fun v w' hv _ => traverse (hhandles v w' hv) (.refl k _)
  intro hs
  have hends := hrun hs
  unfold Transformer.attempt
  split
  · next done w' hdone =>
    rw [hdone] at hends
    exact hends
  · next cause w' hdone =>
    rw [hdone] at hends
    exact ⟨hends.1, hends.2.1⟩
  · next e w' _ hdone =>
    rw [hdone] at hends
    exact hends

theorem runRules {rules : List (Rule σ)} (hrules : ∀ r ∈ rules, r.Heeds k s)
    (hw : s.Preserves k w.session) (summary : Summary) (stats : Table String RuleStats) :
    Heedful k (Transformer.runRules summary stats rules) w := by
  induction rules generalizing w summary stats with
  | nil => exact pure _
  | cons r rules ih =>
    obtain ⟨hr, hrules⟩ := List.forall_mem_cons.mp hrules
    refine get_bind ((attempt hr hw).bind fun outcome w₁ h₁ => ?_)
    cases outcome with
    | error cause => exact pure _
    | ok done => exact get_bind (ih hrules (hw.trans h₁) _ _)

/-- A run of rules. -/
theorem transform {t : Transformer σ} (hrules : ∀ r ∈ t.rules, r.Heeds k s)
    (hw : s.Preserves k w.session) : Heedful k t.run w :=
  (runRules hrules hw _ _).bind fun _ _ _ => pure _

end Heedful

/-! ## The built-in rules -/

namespace Careful

variable {p : PathId} (hp : s.Knows p)

include hp

theorem addStrictDirective (enabled : Bool) : Careful (Rule.addStrictDirective enabled p) s := by
  refine (skip hp).bind fun _ s₁ h₁ _ => (Reads.node? (h₁.knows hp)).andThen fun o ho => ?_
  cases o with
  | none => exact pure trivial
  | some n =>
    have hn := Session.knows_some.mp ho
    refine ite (fun _ => (Reads.kind hn).andThen fun kind hkind => ?_) fun _ => pure trivial
    split
    · next body directives =>
      refine ite (fun _ => pure trivial) fun _ => ?_
      refine (modifyKind hn fun _ _ _ c hc => ?_).bind fun _ _ _ _ => recordMutation
      exact hkind c (by simpa [NodeKind.children, NodeKind.fields] using hc)
    · exact recordMutation

theorem inlinableLiteral? (binding : Binding) : Careful (Rule.inlinableLiteral? p binding) s := by
  refine ite (fun _ => pure Session.knows_none) fun _ => (resolve hp false).bind fun value s₁ h₁ hv => ?_
  refine ite (fun _ => pure Session.knows_none) fun _ => (Reads.isAny hv _).andThen fun _ _ => ?_
  refine ite (fun _ => pure Session.knows_none) fun _ => ?_
  refine (executesBefore hv (h₁.knows hp)).bind fun _ s₂ h₂ _ => ite (fun _ => ?_) fun _ =>
    pure Session.knows_none
  exact (Reads.node? (h₂.knows hv)).careful

theorem inlineConstant : Careful (Rule.inlineConstant p) s := by
  refine (Reads.isReferencedIdentifier hp).andThen fun _ _ => ite (fun _ => ?_) fun _ => pure trivial
  refine (binding? hp).bind fun o s₁ h₁ ho => ?_
  cases o with
  | none => exact pure trivial
  | some binding =>
    have hb := Session.knows_some.mp ho
    refine (inlinableLiteral? (h₁.knows hp) binding).bind fun o s₂ h₂ ho => ?_
    cases o with
    | none => exact pure trivial
    | some literal =>
      refine (deepClone (Session.knows_some.mp ho)).bind fun copy s₃ h₃ hcopy => ?_
      refine (replaceNode ((h₁.trans (h₂.trans h₃)).knows hp) hcopy).bind fun _ s₄ h₄ _ => ?_
      have hscope := ((h₂.trans h₃).trans h₄).knows hb.2.1
      exact (modifyBinding hscope _ fun b hb' => Session.knows_dereference hb' p).bind
        fun _ _ _ _ => pure trivial

end Careful

theorem Transformer.mem_place {r q : Rule σ} {rules : List (Rule σ)} (h : q ∈ place r rules) :
    q = r ∨ q ∈ rules := by
  induction rules with
  | nil => exact .inl (List.mem_singleton.mp h)
  | cons head rest ih =>
    unfold place at h
    split at h
    · rcases List.mem_cons.mp h with rfl | h
      · exact .inr List.mem_cons_self
      · exact (ih h).imp id (List.mem_cons_of_mem _)
    · exact List.mem_cons.mp h

/-- The rules that names stand for are built-in ones. -/
theorem Transformer.mem_ofNames {names : List String} {t t' : Transformer σ} {r : Rule σ}
    (h : ofNames names t = .ok t') (hr : r ∈ t'.rules) :
    r ∈ t.rules ∨ ∃ name, Rule.builtin? name = some r := by
  induction names generalizing t with
  | nil =>
    obtain rfl := Except.ok.inj h
    exact .inl hr
  | cons name names ih =>
    unfold ofNames at h
    split at h
    · next q hq =>
      rcases ih h with hr | hr
      · rcases mem_place hr with rfl | hr
        · exact .inr ⟨name, hq⟩
        · exact .inl hr
      · exact .inr hr
    · cases h

theorem Rule.builtin?_heeds {name : String} {r : Rule σ} (h : builtin? name = some r) :
    r.Heeds k s := by
  unfold builtin? at h
  intro w _
  split at h
  · obtain rfl := Option.some.inj h
    refine ⟨Heedful.pure _, fun v w' hrun phase selector handler hh w'' p _ hp => ?_⟩
    obtain ⟨rfl, rfl⟩ := EStateM.Result.ok.inj hrun
    obtain ⟨-, -, rfl⟩ : phase = .enter ∧ selector = .type .program ∧ handler = _ := by
      simpa [Visitor.on, Visitor.empty] using hh
    exact Heedful.lift (Careful.addStrictDirective hp _)
  · split at h
    · obtain rfl := Option.some.inj h
      refine ⟨Heedful.pure _, fun v w' hrun phase selector handler hh w'' p _ hp => ?_⟩
      obtain ⟨rfl, rfl⟩ := EStateM.Result.ok.inj hrun
      obtain ⟨-, -, rfl⟩ : phase = .enter ∧ selector = .type .identifier ∧ handler = _ := by
        simpa [Visitor.on, Visitor.empty] using hh
      exact Heedful.lift (Careful.inlineConstant hp)
    · cases h

instance {ε : Type} : Names (Except ε Summary) := .plain _

instance : Names (Transformer σ) := .plain _

/-- Built-in rules by name. -/
theorem Careful.transformByName (names : List String) : Careful (transformByName names) s := by
  refine ite (fun _ => pure trivial) fun _ => ?_
  split
  · exact pure trivial
  · next t ht =>
    have hrules : ∀ r ∈ t.rules, r.Heeds s.scopes.scopes.size s := by
      intro r hr
      rcases Transformer.mem_ofNames ht hr with hr | ⟨name, hname⟩
      · cases hr
      · exact Rule.builtin?_heeds hname
    have hrun : Careful (t.run.runOn ()) s :=
      runOn (Heedful.transform hrules (.refl _ s)) fun _ _ _ => ⟨⟨trivial, trivial⟩, trivial⟩
    exact hrun.bind fun _ _ _ _ => pure trivial

end Espalier
