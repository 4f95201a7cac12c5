import Espalier.Proofs.Arrivals
import Espalier.Proofs.Searches

set_option autoImplicit false

/-! # Answers that last

The type that was found for a path is left with it, and an empty union stands there while it is
being found. A question that comes back to a path in progress gets the empty union, so that what it
finds depends on where the circle was entered, and what it leaves with the paths on the way is kept
for good (`circleProgram_disagrees`).

What holds is that an answer that was given stays: it is given again, whatever is asked in between
(`inference_lasts`). And the empty union is left only with paths whose type is taken over from
another path (`PathData.PassesOn`); it is never what a union of types comes to. -/

namespace Espalier

open SessionM Session

variable {α : Type}

/-! ## Empty unions -/

namespace ValueType

/-- No member that was found so far is a union. -/
def Flat (found : Option (List ValueType)) : Prop :=
  ∀ ts, found = some ts → ∀ members, .union members ∉ ts

theorem Flat.append {found : Option (List ValueType)} {t : ValueType} (h : Flat found)
    (ht : ∀ members, t ≠ .union members) :
    Flat (found.map fun ts => if t ∈ ts then ts else ts ++ [t]) := by
  intro ts hts members hmem
  obtain ⟨ts₀, hts₀, rfl⟩ := Option.map_eq_some_iff.mp hts
  split at hmem
  · exact h ts₀ hts₀ members hmem
  · rcases List.mem_append.mp hmem with hmem | hmem
    · exact h ts₀ hts₀ members hmem
    · exact ht members (List.mem_singleton.mp hmem).symm

mutual

theorem flat_addTo (t : ValueType) {found : Option (List ValueType)} (h : Flat found) :
    Flat (addTo t found) := by
  cases t with
  | union members =>
    rw [addTo]
    exact flat_addAllTo members h
  | any =>
    rw [addTo]
    exact fun ts hts => by cases hts
  | mixed | number | string | boolean | void | null | generic =>
    rw [addTo]
    · exact h.append fun members heq => by cases heq
    all_goals simp

theorem flat_addAllTo (ts : List ValueType) {found : Option (List ValueType)} (h : Flat found) :
    Flat (addAllTo ts found) := by
  cases ts with
  | nil => rwa [addAllTo]
  | cons t ts =>
    rw [addAllTo]
    exact flat_addAllTo ts (flat_addTo t h)

end

/-- Types are never united to the empty union. -/
theorem union?_ne_empty (ts : List ValueType) : union? ts ≠ some (.union []) := by
  have hflat : Flat (addAllTo ts (some [])) := flat_addAllTo ts fun ts hts => by
    obtain rfl := Option.some.inj hts
    simp
  unfold union?
  split
  · simp
  · simp
  · next t hfound =>
    intro h
    obtain rfl := Option.some.inj h
    exact hflat _ hfound [] (List.mem_singleton.mpr rfl)
  · next ts hne _ hfound => simp_all

end ValueType

/-- The types that are written down in a node. -/
def NodeKind.declaredTypes : NodeKind → List ValueType
  | .identifier _ declared => declared.toList
  | .typeCastExpression _ declared => [declared]
  | .functionDeclaration _ _ _ _ _ declared | .functionExpression _ _ _ _ _ declared
  | .arrowFunctionExpression _ _ _ declared => declared.toList
  | _ => []

/-- No empty union is written down in the tree. -/
def Tree.DeclaresTypes (t : Tree) : Prop :=
  ∀ n k, t.kind? n = some k → .union [] ∉ k.declaredTypes

/-- The type of the path is that of another path: it holds a declarator, an assignment or a
sequence, or it is what a type cast is applied to. -/
def PathData.PassesOn (t : Tree) (d : PathData) : Prop :=
  ∃ n k, d.node = some n ∧ t.kind? n = some k ∧
    (k.type = .variableDeclarator ∨ k.type = .assignmentExpression ∨ k.type = .sequenceExpression ∨
      ∃ c, d.container.parent? = some c ∧ t.type? c = some .typeCastExpression)

/-- The type may be the answer for the path: nothing is known where there is no position, and only a
path whose type is that of another one has the empty union. -/
structure PathData.Accounts (t : Tree) (d : PathData) (type : ValueType) : Prop where
  adrift : d.container = .detached → type = .any
  empty : type = .union [] → d.PassesOn t

/-- What the answer may be depends on the place of the path. -/
theorem PathData.Accounts.of_place {t : Tree} {d d' : PathData} {type : ValueType}
    (h : d.Accounts t type) (hnode : d'.node = d.node) (hcontainer : d'.container = d.container) :
    d'.Accounts t type := by
  refine ⟨fun hc => h.adrift (hcontainer ▸ hc), fun hempty => ?_⟩
  have hpasses := h.empty hempty
  unfold PassesOn at hpasses ⊢
  rwa [hnode, hcontainer]

/-! ## Searches add no answer -/

namespace Session

/-- The answer was left with the path. -/
def Answered (s : Session) (p : PathId) (type : ValueType) : Prop :=
  ∃ d, s.paths[p.index]? = some d ∧ d.inferred = some type

/-- No answer was added. -/
def Mute (s s' : Session) : Prop := ∀ p type, s'.Answered p type → s.Answered p type

theorem Mute.refl (s : Session) : s.Mute s := fun _ _ h => h

theorem Mute.trans (s₁ s₂ s₃ : Session) (h₁ : s₁.Mute s₂) (h₂ : s₂.Mute s₃) : s₁.Mute s₃ :=
  fun p type h => h₁ p type (h₂ p type h)

theorem Mute.of_paths {s s' : Session} (h : s'.paths = s.paths) : s.Mute s' := by
  unfold Mute Answered
  rw [h]
  exact fun _ _ h => h

end Session

namespace Mute

open Session

theorem question {x : SessionM α} (hx : Composed (fun _ _ => False) x) : Leads Mute x := fun s => by
  rw [hx.question_after]
  exact .refl s

theorem modifyData (p : PathId) {f : PathData → PathData}
    (hf : ∀ d, (f d).inferred = d.inferred ∨ (f d).inferred = none) :
    Leads Mute (p.modifyData f) := by
  refine Leads.bind Mute.trans (question (.data p)) fun _ s => ?_
  rintro q type ⟨d', hd', htype⟩
  have hd'' : (s.paths.modify p.index f)[q.index]? = some d' := hd'
  rw [getElem?_modify_paths] at hd''
  split at hd''
  · obtain ⟨d, hd, rfl⟩ := Option.map_eq_some_iff.mp hd''
    rcases hf d with hsame | hnone
    · exact ⟨d, hd, hsame.symm.trans htype⟩
    · cases hnone.symm.trans htype
  · exact ⟨d', hd'', htype⟩

theorem allocPath {d : PathData} (hd : d.inferred = none) : Leads Mute (allocPath d) := by
  rintro s q type ⟨d', hd', htype⟩
  have hd'' : (s.paths.push d)[q.index]? = some d' := hd'
  rw [Array.getElem?_push] at hd''
  split at hd''
  · obtain rfl := Option.some.inj hd''
    cases hd.symm.trans htype
  · exact ⟨d', hd'', htype⟩

theorem pathFor (parent : Option PathId) (c : Container) (k : Key) :
    Leads Mute (pathFor parent c k) := by
  have htrans := Mute.trans
  unfold Espalier.pathFor
  split
  · refine Leads.bind htrans (Leads.get Mute.refl) fun s => ?_
    split
    · exact Leads.bind htrans (modifyData _ fun _ => .inr rfl) fun _ => Leads.pure Mute.refl _
    · refine Leads.bind htrans (allocPath rfl) fun p => ?_
      exact Leads.bind htrans (fun _ => .of_paths rfl) fun _ => Leads.pure Mute.refl _
  · refine Leads.bind htrans (question (.nodeAt c k)) fun node => ?_
    refine Leads.bind htrans (Leads.get Mute.refl) fun s => ?_
    split
    · exact Leads.bind htrans (modifyData _ fun _ => .inl rfl) fun _ => Leads.pure Mute.refl _
    · refine Leads.bind htrans (allocPath rfl) fun p => ?_
      exact Leads.bind htrans (fun _ => .of_paths rfl) fun _ => Leads.pure Mute.refl _

theorem chartStep {x : SessionM α} (h : ChartStep α x) : Leads Mute x := by
  cases h with
  | hop h =>
    refine h.landing.leads Mute.refl Mute.trans fun _ _ landing => ?_
    cases landing with
    | root => exact pathFor none .root .root
    | nowhere parent => exact pathFor parent .detached .root
    | slot p n f => exact pathFor (some p) (.slot n) (.field f)
    | item p n f i => exact pathFor (some p) (.list n f) (.index i)
  | create block parent =>
    refine Leads.bind Mute.trans (question (.type? block)) fun type => ?_
    refine Leads.bind Mute.trans (question (.node? block)) fun node => ?_
    exact fun _ => .of_paths rfl
  | write g => exact fun _ => .of_paths rfl

theorem searching {x : SessionM α} (hx : Searching x) : Leads Mute x :=
  hx.charting.leads Mute.refl Mute.trans fun _ _ => chartStep

end Mute

/-! ## What inference leaves behind -/

namespace Session

/-- What becomes of a session while types are found: paths are added, no path moves, no answer is
taken back, and every new answer is one that the path may have. -/
structure Infers (s : Session) (K : Set NodeId) (s' : Session) : Prop where
  charted : s'.Charted K
  tree : s'.tree = s.tree
  kept : ∀ (p : PathId) d, s.paths[p.index]? = some d → d.container ≠ .detached →
    ∃ d', s'.paths[p.index]? = some d' ∧ d'.node = d.node ∧ d'.container = d.container ∧
      ∀ type, d.inferred = some type → d'.inferred = some type
  adrift : ∀ (p : PathId) d, s.paths[p.index]? = some d → d.container = .detached →
    ∃ d', s'.paths[p.index]? = some d' ∧ d'.container = .detached
  answers : ∀ (p : PathId) d' type, s'.paths[p.index]? = some d' → d'.inferred = some type →
    s.Answered p type ∨ d'.Accounts s.tree type

namespace Infers

variable {s s' s'' : Session} {K : Set NodeId}

theorem of_searching {x : SessionM α} (hx : Searching x) (h : s.Charted K) {a : α}
    (hrun : x s = .ok a s') : s.Infers K s' := by
  have hw := h.searching hx hrun
  refine ⟨h.went hw, hw.tree, fun p d hd hc => ?_, fun p d hd hc => ?_,
    fun p d' type hd' htype => ?_⟩
  · obtain ⟨d', hd', hkeeps⟩ := hw.grew.kept p d hd
    obtain ⟨heq, -⟩ := hkeeps.2 hc
    rw [heq] at hd'
    exact ⟨_, hd', rfl, rfl, fun _ htype => htype⟩
  · obtain ⟨d', hd', hkeeps⟩ := hw.grew.kept p d hd
    exact ⟨d', hd', (hkeeps.1 hc).1⟩
  · exact .inl ((Mute.searching hx).of_ok hrun p type ⟨d', hd', htype⟩)

/-- What a path may have as its answer stays the same. -/
theorem accounts (h : s.Infers K s') {p : PathId} {d d' : PathData} {t : Tree} {type : ValueType}
    (hd : s.paths[p.index]? = some d) (hd' : s'.paths[p.index]? = some d')
    (haccounts : d.Accounts t type) : d'.Accounts t type := by
  by_cases hc : d.container = .detached
  · obtain rfl := haccounts.adrift hc
    exact ⟨fun _ => rfl, fun h => by cases h⟩
  · obtain ⟨d₁, hd₁, hnode, hcontainer, -⟩ := h.kept p d hd hc
    obtain rfl := Option.some.inj (hd'.symm.trans hd₁)
    exact haccounts.of_place hnode hcontainer

theorem trans (h : s.Infers K s') (h' : s'.Infers K s'') : s.Infers K s'' where
  charted := h'.charted
  tree := h'.tree.trans h.tree
  kept p d hd hc := by
    obtain ⟨d', hd', hnode, hcontainer, htype⟩ := h.kept p d hd hc
    obtain ⟨d'', hd'', hnode', hcontainer', htype'⟩ := h'.kept p d' hd' (hcontainer ▸ hc)
    exact ⟨d'', hd'', hnode'.trans hnode, hcontainer'.trans hcontainer,
      fun type ht => htype' type (htype type ht)⟩
  adrift p d hd hc := by
    obtain ⟨d', hd', hc'⟩ := h.adrift p d hd hc
    exact h'.adrift p d' hd' hc'
  answers p d'' type hd'' htype := by
    rcases h'.answers p d'' type hd'' htype with ⟨d', hd', htype'⟩ | haccounts
    · exact (h.answers p d' type hd' htype').imp_right (h'.accounts hd' hd'')
    · exact .inr (h.tree ▸ haccounts)

/-- An answer is given again. -/
theorem answered (h : s.Infers K s') {p : PathId} {d : PathData} {type : ValueType}
    (hd : s.paths[p.index]? = some d) (hc : d.container ≠ .detached)
    (htype : d.inferred = some type) : s'.Answered p type := by
  obtain ⟨d', hd', -, -, hkept⟩ := h.kept p d hd hc
  exact ⟨d', hd', hkept type htype⟩

end Infers

/-- The session after an answer was left with a path. -/
def answer (s : Session) (p : PathId) (type : ValueType) : Session :=
  { s with paths := s.paths.modify p.index fun d => { d with inferred := some type } }

theorem getElem?_answer (s : Session) (p q : PathId) (type : ValueType) :
    (s.answer p type).paths[q.index]? =
      if q = p then s.paths[q.index]?.map fun d => { d with inferred := some type }
      else s.paths[q.index]? :=
  getElem?_modify_paths ..

theorem getElem?_answer_self {s : Session} {p : PathId} {d : PathData}
    (hd : s.paths[p.index]? = some d) (type : ValueType) :
    (s.answer p type).paths[p.index]? = some { d with inferred := some type } := by
  rw [getElem?_answer, if_pos rfl, hd, Option.map_some]

theorem getElem?_answer_of_ne (s : Session) {p q : PathId} (hq : q ≠ p) (type : ValueType) :
    (s.answer p type).paths[q.index]? = s.paths[q.index]? := by
  rw [getElem?_answer, if_neg hq]

/-- Leaving an answer with a path moves nothing. -/
theorem Sound.answer {s : Session} {K : Set NodeId} (h : s.Sound K) (p : PathId)
    (type : ValueType) : (s.answer p type).Sound K := by
  have halike : s.Alike (s.answer p type) := s.alike_modify p _ fun _ _ => rfl
  refine halike.sound h fun q d d' hd hd' _ => .inl ?_
  by_cases hq : q = p
  · subst hq
    rw [getElem?_answer_self hd] at hd'
    exact Option.some.inj hd' ▸ rfl
  · rw [getElem?_answer_of_ne s hq, hd] at hd'
    rw [Option.some.inj hd']

theorem Charted.answer {s : Session} {K : Set NodeId} (h : s.Charted K) (p : PathId)
    (type : ValueType) : (s.answer p type).Charted K :=
  ⟨⟨h.sound.answer p type, h.ordered, h.root⟩, h.crawled, h.blocks, h.parents⟩

end Session

/-- What is found with the types of other paths leaves behind what the questions about these do. -/
theorem Inquiring.infers {annotate : PathId → SessionM ValueType} {K : Set NodeId} {x : SessionM α}
    (hx : Inquiring annotate x) (hannotate : ∀ (p : PathId) (s s' : Session) type, s.Charted K →
      s.tree.DeclaresTypes → annotate p s = .ok type s' → s.Infers K s') {s s' : Session} {a : α}
    (h : s.Charted K) (hdeclares : s.tree.DeclaresTypes) (hrun : x s = .ok a s') :
    s.Infers K s' := by
  induction hx generalizing s s' with
  | primitive inquiry =>
    cases inquiry with
    | glance glance => exact .of_searching (.primitive glance) h hrun
    | ask p => exact hannotate p s s' _ h hdeclares hrun
  | pure b => exact .of_searching (.pure b) h hrun
  | throw e => exact .of_searching (.throw e) h hrun
  | get => exact .of_searching .get h hrun
  | bind _ _ ihx ihf =>
    obtain ⟨b, s₁, hb, hrest⟩ := bind_eq_ok hrun
    have h₁ := ihx h hdeclares hb
    exact h₁.trans (ihf b h₁.charted (h₁.tree ▸ hdeclares) hrest)

/-! ## The type of one path -/

section Types

variable {annotate : PathId → SessionM ValueType} {s s' : Session} {K : Set NodeId} {p : PathId}
  {d : PathData} {n : NodeId} {o : Option ValueType}

/-- Where there is no position nothing is known. -/
theorem PathId.typeOfMissing?_run (hd : s.paths[p.index]? = some d)
    (hc : d.container = .detached) : p.typeOfMissing? s = .ok none s := by
  have hnode : p.parentNode? s = .ok none s := by
    unfold PathId.parentNode?
    rw [bind_of_ok (p.data_run hd), hc]
    rfl
  have hparent : p.parentType? s = .ok none s := by
    unfold PathId.parentType?
    rw [bind_of_ok hnode]
    rfl
  unfold PathId.typeOfMissing?
  rw [bind_of_ok (p.data_run hd)]
  split
  · rfl
  · rw [bind_of_ok hparent]
    rfl

/-- The computation never gives the empty union. -/
def Avoids (x : SessionM (Option ValueType)) : Prop :=
  ∀ s s', x s ≠ .ok (some (.union [])) s'

namespace Avoids

theorem pure {o : Option ValueType} (ho : o ≠ some (.union [])) :
    Avoids (pure o : SessionM (Option ValueType)) := fun _ _ h =>
  ho (EStateM.Result.ok.inj h).1

theorem bind (x : SessionM α) {f : α → SessionM (Option ValueType)} (hf : ∀ a, Avoids (f a)) :
    Avoids (x >>= f) := fun s s' h => by
  obtain ⟨a, s₁, -, hrest⟩ := bind_eq_ok h
  exact hf a s₁ s' hrest

theorem ite {c : Prop} [Decidable c] {x y : SessionM (Option ValueType)} (hx : Avoids x)
    (hy : Avoids y) : Avoids (if c then x else y) := by
  split
  · exact hx
  · exact hy

theorem typeOfMissing? (p : PathId) : Avoids p.typeOfMissing? := by
  unfold PathId.typeOfMissing?
  refine bind _ fun d => ite (pure (by simp)) (bind _ fun _ => ite (pure (by simp)) ?_)
  extract_lets rest
  have hrest : ∀ declaration, Avoids (rest declaration) := by
    intro declaration
    cases declaration with
    | none => exact pure (by simp)
    | some q =>
      refine bind _ fun _ => ite (bind _ fun o => ?_) (pure (by simp))
      split
      · exact pure (by simp)
      · exact pure (by simp)
      · exact pure (by simp)
  refine bind _ fun o => ?_
  cases o with
  | none => exact bind _ hrest
  | some q => exact bind _ hrest

theorem unionOfFields? (p : PathId) (fields : List Field) :
    Avoids (PathId.unionOfFields? annotate p fields) :=
  bind _ fun types => pure (ValueType.union?_ne_empty types)

theorem typeOfBinary? (p : PathId) (operator : BinaryOperator) :
    Avoids (PathId.typeOfBinary? annotate p operator) := by
  refine ite (pure (by simp)) (ite (pure (by simp)) ?_)
  refine bind _ fun left => bind _ fun right => ?_
  have hstrings : ∀ strings : Bool, Avoids (Pure.pure
      (if strings then some .string else ValueType.union? [.string, .number])) := by
    intro strings
    cases strings with
    | true => exact pure (by simp)
    | false => exact pure (ValueType.union?_ne_empty [.string, .number])
  have hrest : ∀ (leftIs rightIs : String → SessionM Bool) (numbers : Bool), Avoids (do
      if numbers then Pure.pure (some .number)
      else
        let strings ← if ← leftIs "string" then Pure.pure true else rightIs "string"
        Pure.pure (if strings then some .string else ValueType.union? [.string, .number])) := by
    intro leftIs rightIs numbers
    refine ite (pure (by simp)) (bind _ fun v => ?_)
    cases v with
    | true => exact bind _ hstrings
    | false => exact bind _ hstrings
  let leftIs (name : String) : SessionM Bool := do Pure.pure ((← annotate left).isBase name)
  let rightIs (name : String) : SessionM Bool := do Pure.pure ((← annotate right).isBase name)
  refine bind (leftIs "number") fun v => ?_
  cases v with
  | true => exact bind _ (hrest leftIs rightIs)
  | false => exact bind _ (hrest leftIs rightIs)

theorem typeFromAssignments? (steps : Nat) (p : PathId) (name : String) (binding : Binding) :
    Avoids (PathId.typeFromAssignments? annotate steps p name binding) := by
  refine bind _ fun order => bind _ fun _ => bind _ fun narrowed => ?_
  have hrest : ∀ known : List ValueType × List PathId, Avoids (do
      let types ← (known.2 ++ order.2).mapM annotate
      Pure.pure (ValueType.union? (known.1 ++ types))) := fun known =>
    bind _ fun types => pure (ValueType.union?_ne_empty _)
  cases narrowed with
  | none => exact bind _ hrest
  | some found => exact bind _ fun before => bind _ hrest

end Avoids

/-- What calling a function gives is written down with the function, or is a class. -/
theorem PathId.typeOfResult?_ne {k : NodeKind} (hk : .union [] ∉ k.declaredTypes) :
    typeOfResult? k ≠ some (.union []) := by
  intro h
  unfold typeOfResult? at h
  split at h
  · split at h
    · cases h
    · exact hk (by simp [NodeKind.declaredTypes, h])
  · split at h
    · cases h
    · exact hk (by simp [NodeKind.declaredTypes, h])
  · split at h
    · cases h
    · exact hk (by simp [NodeKind.declaredTypes, h])
  · cases h

/-- The kind of a path is that of a node of the tree. -/
theorem PathId.kind?_eq_some {k : NodeKind} (hrun : p.kind? s = .ok (some k) s') :
    s' = s ∧ ∃ n, s.Holds p n ∧ s.tree.kind? n = some k := by
  obtain ⟨node, s₁, hnode, hask⟩ := bind_eq_ok hrun
  cases node with
  | none => cases hask
  | some n =>
    obtain ⟨rfl, hholds⟩ := PathId.holds_of_node? hnode
    obtain ⟨k', s₂, hk, hdone⟩ := bind_eq_ok hask
    obtain ⟨hkk, rfl⟩ := EStateM.Result.ok.inj hdone
    obtain rfl := Option.some.inj hkk
    exact ⟨question_run (.ask _) hk, n, hholds, (ask_eq_ok hk).2⟩

/-- The type around a path is that of the owner of its container. -/
theorem PathId.parentType?_eq_some {type : NodeType} (hd : s.paths[p.index]? = some d)
    (hrun : p.parentType? s = .ok (some type) s') :
    ∃ c, d.container.parent? = some c ∧ s.tree.type? c = some type := by
  have hnode : p.parentNode? s = .ok d.container.parent? s := bind_of_ok (p.data_run hd)
  unfold PathId.parentType? at hrun
  rw [bind_of_ok hnode] at hrun
  cases hc : d.container.parent? with
  | none =>
    rw [hc] at hrun
    cases hrun
  | some c =>
    rw [hc] at hrun
    obtain ⟨type', s₁, htype, hdone⟩ := bind_eq_ok hrun
    obtain rfl := Option.some.inj (EStateM.Result.ok.inj hdone).1
    exact ⟨c, rfl, (ask_eq_ok htype).2⟩

theorem PathId.typeOfCall?_ne (h : s.Charted K) (hdeclares : s.tree.DeclaresTypes)
    (hrun : p.typeOfCall? s = .ok o s') : o ≠ some (.union []) := by
  obtain ⟨function, s₁, hresolve, hrest⟩ := bind_eq_ok hrun
  have h₁ := h.searching (.resolve p false) hresolve
  obtain ⟨k, s₂, hkind, hdone⟩ := bind_eq_ok hrest
  obtain ⟨rfl, -⟩ := EStateM.Result.ok.inj hdone
  cases k with
  | none => exact nofun
  | some k =>
    obtain ⟨-, n, -, hk⟩ := PathId.kind?_eq_some hkind
    rw [h₁.tree] at hk
    exact PathId.typeOfResult?_ne (hdeclares n k hk)

theorem PathId.typeOfReference?_ne (h : s.Charted K) (hdeclares : s.tree.DeclaresTypes)
    {steps : Nat} {name : String}
    (hrun : PathId.typeOfReference? annotate steps p name s = .ok o s') :
    o ≠ some (.union []) := by
  obtain ⟨v, s₁, hv, hread⟩ := bind_eq_ok hrun
  obtain rfl := question_run (.isReferenced p) hv
  split at hread
  · cases hread
    exact nofun
  obtain ⟨binding, s₂, hbinding, hfound⟩ := bind_eq_ok hread
  have h₂ := h.searching (.binding? p) hbinding
  cases binding with
  | none =>
    obtain ⟨rfl, -⟩ := EStateM.Result.ok.inj hfound
    split <;> exact nofun
  | some binding =>
    obtain ⟨k, s₃, hk, htyped⟩ := bind_eq_ok hfound
    obtain ⟨-, hk⟩ := ask_eq_ok hk
    rw [h₂.tree] at hk
    split at htyped
    · obtain ⟨rfl, -⟩ := EStateM.Result.ok.inj htyped
      intro heq
      obtain rfl := Option.some.inj heq
      exact hdeclares _ _ hk (by simp [NodeKind.declaredTypes])
    · rintro rfl
      exact Avoids.typeFromAssignments? steps p name binding s₃ s' htyped

/-- The type that is found for a path is one that it may have. -/
theorem PathId.typeOf?_accounts (h : s.Charted K) (hdeclares : s.tree.DeclaresTypes)
    (hd : s.paths[p.index]? = some d) {steps : Nat}
    (hrun : PathId.typeOf? annotate steps p s = .ok o s') :
    d.Accounts s.tree (o.getD .any) := by
  obtain ⟨k, s₁, hkind, htyped⟩ := bind_eq_ok hrun
  obtain rfl := question_run (.kind? p) hkind
  cases k with
  | none =>
    refine ⟨fun hc => ?_, fun hempty => ?_⟩
    · cases (PathId.typeOfMissing?_run hd hc).symm.trans htyped
      rfl
    · cases o with
      | none => cases hempty
      | some type =>
        cases hempty
        exact absurd htyped (Avoids.typeOfMissing? p _ _)
  | some k =>
    obtain ⟨-, n, hp, hk⟩ := PathId.kind?_eq_some hkind
    obtain ⟨e, he, hn⟩ := hp
    obtain rfl := Option.some.inj (hd.symm.trans he)
    refine ⟨fun hc => ?_, fun hempty => ?_⟩
    · -- What holds a node stands at a position.
      obtain ⟨pos, e, -, hf, -⟩ := h.sound.files_of_holds ⟨d, hd, hn⟩
      obtain rfl := Option.some.inj (hd.symm.trans hf.data)
      exact absurd (hf.container.symm.trans hc) pos.container_ne_detached
    · obtain rfl : o = some (.union []) := by
        cases o with
        | none => cases hempty
        | some type => exact congrArg some hempty
      have hpasses : k.type = .variableDeclarator ∨ k.type = .assignmentExpression ∨
          k.type = .sequenceExpression → d.PassesOn s₁.tree := fun hk' =>
        ⟨n, k, hn, hk, by tauto⟩
      have hwritten : .union [] ∉ k.declaredTypes := hdeclares n k hk
      dsimp only at htyped
      split at htyped
      · cases htyped
        exact absurd (by simp [NodeKind.declaredTypes]) hwritten
      · exact absurd rfl (PathId.typeOfReference?_ne h hdeclares htyped)
      · exact hpasses (.inl rfl)
      · cases htyped
        exact absurd (by simp [NodeKind.declaredTypes]) hwritten
      · obtain ⟨k, s₂, -, hdone⟩ := bind_eq_ok htyped
        obtain ⟨x, -, hx⟩ := Option.map_eq_some_iff.mp (EStateM.Result.ok.inj hdone).1
        cases hx
      · next operator _ =>
        cases operator <;> cases htyped
      · exact absurd htyped (Avoids.typeOfBinary? p _ _ _)
      · exact absurd htyped (Avoids.unionOfFields? p _ _ _)
      · exact absurd htyped (Avoids.unionOfFields? p _ _ _)
      · cases htyped
      · exact hpasses (.inr (.inr rfl))
      · exact hpasses (.inr (.inl rfl))
      iterate 11 cases htyped
      · obtain ⟨callee, s₂, hcallee, hcall⟩ := bind_eq_ok htyped
        have hwent := h.searching (Navigating.child p .callee).searching hcallee
        exact absurd rfl (PathId.typeOfCall?_ne (h.went hwent) (hwent.tree ▸ hdeclares) hcall)
      · obtain ⟨parent, s₂, hparent, hcast⟩ := bind_eq_ok htyped
        split at hcast
        next hcasts =>
          subst hcasts
          obtain ⟨c, hc, htype⟩ := PathId.parentType?_eq_some hd hparent
          exact ⟨n, k, hn, hk, .inr (.inr (.inr ⟨c, hc, htype⟩))⟩
        next => cases hcast

end Types

/-! ## Questions -/

/-- A type is found while the empty union stands in. -/
theorem Session.Charted.infers_answer {s s' : Session} {K : Set NodeId} {p : PathId} {d : PathData}
    {type : ValueType} (hd : s.paths[p.index]? = some d) (hnone : d.inferred = none)
    (hfound : (s.answer p (.union [])).Infers K s') (haccounts : d.Accounts s.tree type) :
    s.Infers K (s'.answer p type) ∧ (s'.answer p type).Answered p type := by
  have hmarked := getElem?_answer_self hd (.union [])
  -- The path is still known, and stands where it did.
  obtain ⟨d', hd', hplace⟩ : ∃ d', s'.paths[p.index]? = some d' ∧
      ((d.container = .detached ∧ d'.container = .detached) ∨
        d.container ≠ .detached ∧ d'.node = d.node ∧ d'.container = d.container) := by
    by_cases hc : d.container = .detached
    · obtain ⟨d', hd', hc'⟩ := hfound.adrift p _ hmarked hc
      exact ⟨d', hd', .inl ⟨hc, hc'⟩⟩
    · obtain ⟨d', hd', hnode, hcontainer, -⟩ := hfound.kept p _ hmarked hc
      exact ⟨d', hd', .inr ⟨hc, hnode, hcontainer⟩⟩
  have hleft := getElem?_answer_self hd' type
  refine ⟨⟨hfound.charted.answer p type, hfound.tree, fun q e he hc => ?_, fun q e he hc => ?_,
    fun q e' type' he' htype' => ?_⟩, _, hleft, rfl⟩
  · by_cases hq : q = p
    · subst hq
      obtain rfl := Option.some.inj (hd.symm.trans he)
      obtain ⟨hc', -⟩ | ⟨-, hnode, hcontainer⟩ := hplace
      · exact absurd hc' hc
      · exact ⟨_, hleft, hnode, hcontainer, fun type' h => by cases hnone.symm.trans h⟩
    · rw [getElem?_answer_of_ne s' hq]
      exact hfound.kept q e ((getElem?_answer_of_ne s hq _).trans he) hc
  · by_cases hq : q = p
    · subst hq
      obtain rfl := Option.some.inj (hd.symm.trans he)
      obtain ⟨-, hc'⟩ | ⟨hc', -⟩ := hplace
      · exact ⟨_, hleft, hc'⟩
      · exact absurd hc hc'
    · rw [getElem?_answer_of_ne s' hq]
      exact hfound.adrift q e ((getElem?_answer_of_ne s hq _).trans he) hc
  · by_cases hq : q = p
    · subst hq
      obtain rfl := Option.some.inj (hleft.symm.trans he')
      obtain rfl := Option.some.inj htype'
      refine .inr ?_
      obtain ⟨hc, -⟩ | ⟨hc, hnode, hcontainer⟩ := hplace
      · obtain rfl := haccounts.adrift hc
        exact ⟨fun _ => rfl, fun h => by cases h⟩
      · exact haccounts.of_place hnode hcontainer
    · rw [getElem?_answer_of_ne s' hq] at he'
      rcases hfound.answers q e' type' he' htype' with ⟨e, he, hetype⟩ | haccounts'
      · rw [getElem?_answer_of_ne s hq] at he
        exact .inl ⟨e, he, hetype⟩
      · exact .inr haccounts'

section Questions

variable {s s' : Session} {K : Set NodeId} {p : PathId} {type : ValueType}

/-- Whatever is asked on the way, an answer stays with the path, and it is one that the path may
have. -/
theorem PathId.valueTypeWithin_infers {steps fuel : Nat} (h : s.Charted K)
    (hdeclares : s.tree.DeclaresTypes) (hrun : valueTypeWithin steps fuel p s = .ok type s') :
    s.Infers K s' ∧ s'.Answered p type := by
  induction fuel generalizing s s' p type with
  | zero => cases hrun
  | succ fuel ih =>
    rw [valueTypeWithin] at hrun
    obtain ⟨d, s₀, hdata, hasked⟩ := bind_eq_ok hrun
    obtain rfl := question_run (.data p) hdata
    obtain ⟨-, hd⟩ := PathId.data_eq_ok hdata
    cases hnone : d.inferred with
    | some type' =>
      rw [hnone] at hasked
      cases hasked
      exact ⟨.of_searching (.pure type) h rfl, d, hd, hnone⟩
    | none =>
      rw [hnone] at hasked
      -- The empty union stands in while the other paths are asked.
      obtain ⟨_, s₁, hmark, htyping⟩ := bind_eq_ok hasked
      obtain ⟨o, s₂, htyped, hleaving⟩ := bind_eq_ok htyping
      obtain ⟨_, s₃, hleave, hdone⟩ := bind_eq_ok hleaving
      cases hdone
      obtain rfl : s₁ = s₀.answer p (.union []) :=
        (EStateM.Result.ok.inj (hmark.symm.trans (PathId.modifyData_run hd _))).2
      have hmarked := getElem?_answer_self hd (.union [])
      have hinfers := (Inquiring.typeOf? steps p).infers
        (fun q s s' type hs hdeclares hrun => (ih hs hdeclares hrun).1) (h.answer p _) hdeclares
        htyped
      have haccounts := PathId.typeOf?_accounts (h.answer p _) hdeclares hmarked htyped
      obtain ⟨e, s₄, he, hmodify⟩ := bind_eq_ok hleave
      cases hmodify
      obtain rfl := question_run (.data p) he
      exact Charted.infers_answer hd hnone hinfers (haccounts.of_place rfl rfl)

theorem PathId.valueType_infers (h : s.Charted K) (hdeclares : s.tree.DeclaresTypes)
    (hrun : p.valueType s = .ok type s') : s.Infers K s' ∧ s'.Answered p type := by
  unfold valueType at hrun
  rw [run_get_bind] at hrun
  exact valueTypeWithin_infers h hdeclares hrun

/-- An answer is given again. -/
theorem PathId.valueType_run_of_answered (h : s.Answered p type) : p.valueType s = .ok type s := by
  obtain ⟨d, hd, htype⟩ := h
  unfold valueType
  rw [run_get_bind]
  obtain ⟨fuel, hfuel⟩ : ∃ fuel, s.pathBound = fuel + 1 := ⟨_, rfl⟩
  rw [hfuel, valueTypeWithin, bind_of_ok (p.data_run hd), htype]
  rfl

/-- Nothing is ever known about a path without a position. -/
theorem PathId.valueType_run_of_detached (h : s.Charted K) {d : PathData}
    (hd : s.paths[p.index]? = some d) (hc : d.container = .detached) (hnone : d.inferred = none) :
    ∃ s', p.valueType s = .ok .any s' := by
  have hnode : d.node = none := by
    by_contra hne
    obtain ⟨n, hn⟩ := Option.ne_none_iff_exists'.mp hne
    obtain ⟨pos, e, -, hf, -⟩ := h.sound.files_of_holds ⟨d, hd, hn⟩
    obtain rfl := Option.some.inj (hd.symm.trans hf.data)
    exact pos.container_ne_detached (hf.container.symm.trans hc)
  have hmarked := getElem?_answer_self hd (.union [])
  have hkind : p.kind? (s.answer p (.union [])) = .ok none (s.answer p (.union [])) := by
    unfold kind?
    rw [bind_of_ok (p.node?_run hmarked), hnode]
    rfl
  have htyped : ∀ annotate steps, typeOf? annotate steps p (s.answer p (.union [])) =
      .ok none (s.answer p (.union [])) := by
    intro annotate steps
    unfold typeOf?
    rw [bind_of_ok hkind]
    exact typeOfMissing?_run hmarked hc
  unfold valueType
  rw [run_get_bind]
  obtain ⟨fuel, hfuel⟩ : ∃ fuel, s.pathBound = fuel + 1 := ⟨_, rfl⟩
  rw [hfuel, valueTypeWithin, bind_of_ok (p.data_run hd), hnone]
  dsimp only
  rw [bind_of_ok (PathId.modifyData_run hd _)]
  refine ⟨(s.answer p (.union [])).answer p .any, (bind_of_ok (htyped _ _)).trans ?_⟩
  exact bind_of_ok (PathId.modifyData_run hmarked _)

end Questions

/-- Types were asked for, and every answer so far is one that its path may have. -/
structure Session.Polled (s : Session) (K : Set NodeId) : Prop where
  charted : s.Charted K
  declares : s.tree.DeclaresTypes
  answers : ∀ (p : PathId) d type, s.paths[p.index]? = some d → d.inferred = some type →
    d.Accounts s.tree type

namespace Session.Polled

variable {s s' : Session} {K : Set NodeId} {p : PathId} {type : ValueType}

theorem infers (h : s.Polled K) (hi : s.Infers K s') : s'.Polled K where
  charted := hi.charted
  declares := hi.tree ▸ h.declares
  answers p d' type hd' htype := by
    rw [hi.tree]
    rcases hi.answers p d' type hd' htype with ⟨d, hd, htype⟩ | haccounts
    · exact hi.accounts hd hd' (h.answers p d type hd htype)
    · exact haccounts

/-- What was answered once is answered again after any other questions. -/
theorem again (h : s.Polled K) (hanswered : s.Answered p type) (hi : s.Infers K s') :
    ∃ s'', p.valueType s' = .ok type s'' := by
  obtain ⟨d, hd, htype⟩ := hanswered
  by_cases hc : d.container = .detached
  · obtain rfl := (h.answers p d type hd htype).adrift hc
    obtain ⟨d', hd', hc'⟩ := hi.adrift p d hd hc
    cases hnone : d'.inferred with
    | none => exact PathId.valueType_run_of_detached hi.charted hd' hc' hnone
    | some type' =>
      obtain rfl := ((h.infers hi).answers p d' type' hd' hnone).adrift hc'
      exact ⟨s', PathId.valueType_run_of_answered ⟨d', hd', hnone⟩⟩
  · exact ⟨s', PathId.valueType_run_of_answered (hi.answered hd hc htype)⟩

end Session.Polled

/-- A session that was only built and crawled is charted. -/
theorem Session.Fresh.charted {s : Session} {t : Tree} (ht : t.IsProgram)
    (hgrammar : t.Grammatical) (h : s.Fresh t) : s.Charted t.reachable := by
  obtain ⟨hprudent, -, hcrawled, hblocks⟩ := h.settled ht hgrammar
  exact ⟨hprudent.upright.toOrderly.rooted, hcrawled, hblocks,
    fun m n hm _ => (h.reachable_iff ht hgrammar m).mpr hm⟩

/-- All that is answered in a row is answered again afterwards. -/
theorem Session.Polled.poll {s s' : Session} {K : Set NodeId} {questions : List PathId}
    {answers : List ValueType} (h : s.Polled K)
    (hrun : questions.mapM PathId.valueType s = .ok answers s') :
    s.Infers K s' ∧ ∀ p type, (p, type) ∈ questions.zip answers →
      ∃ s'', p.valueType s' = .ok type s'' := by
  induction questions generalizing s answers with
  | nil =>
    cases hrun
    exact ⟨.of_searching (.pure ()) h.charted rfl, by simp⟩
  | cons p questions ih =>
    rw [List.mapM_cons] at hrun
    obtain ⟨type, s₁, hasked, hrun⟩ := bind_eq_ok hrun
    obtain ⟨rest, s₂, hrest, hdone⟩ := bind_eq_ok hrun
    cases hdone
    obtain ⟨h₁, hanswered⟩ := PathId.valueType_infers h.charted h.declares hasked
    obtain ⟨h₂, hagain⟩ := ih (h.infers h₁) hrest
    refine ⟨h₁.trans h₂, fun q type' hmem => ?_⟩
    rcases List.mem_cons.mp hmem with heq | hmem
    · obtain ⟨rfl, rfl⟩ := Prod.mk.inj heq
      exact (h.infers h₁).again hanswered h₂
    · exact hagain q type' hmem

/-- When types are asked for in a session that was only built and crawled, in any order and as often
as one likes, every answer that was given would be given again. The empty union is left only with
paths whose type is that of another path, if it is written down nowhere in the program. -/
theorem inference_lasts {t : Tree} {s s' : Session} {questions : List PathId}
    {answers : List ValueType} (ht : t.IsProgram) (hgrammar : t.Grammatical) (hfresh : s.Fresh t)
    (hempty : ∀ p type, ¬ s.Answered p type) (hdeclares : s.tree.DeclaresTypes)
    (hrun : questions.mapM PathId.valueType s = .ok answers s') :
    (∀ p type, (p, type) ∈ questions.zip answers → ∃ s'', p.valueType s' = .ok type s'') ∧
    ∀ (p : PathId) d, s'.paths[p.index]? = some d → d.inferred = some (.union []) →
      d.PassesOn s'.tree := by
  have hpolled : s.Polled t.reachable :=
    ⟨hfresh.charted ht hgrammar, hdeclares, fun p d type hd htype =>
      absurd ⟨d, hd, htype⟩ (hempty p type)⟩
  obtain ⟨hinfers, hagain⟩ := hpolled.poll hrun
  exact ⟨hagain, fun p d hd htype => ((hpolled.infers hinfers).answers p d _ hd htype).empty rfl⟩

/-! ## A circle -/

/-- The program
`var a = 1; var b = "x"; function f() { a = b; } function g() { b = a; } h(f, g);`. -/
def circleProgram : Tree where
  nodes := #[{ kind := .numericLiteral ⟨0x3ff0000000000000⟩ }, { kind := .identifier "a" none },
    { kind := .variableDeclarator ⟨1⟩ (some ⟨0⟩) }, { kind := .variableDeclaration .var [⟨2⟩] },
    { kind := .stringLiteral "x" }, { kind := .identifier "b" none },
    { kind := .variableDeclarator ⟨5⟩ (some ⟨4⟩) }, { kind := .variableDeclaration .var [⟨6⟩] },
    { kind := .identifier "a" none }, { kind := .identifier "b" none },
    { kind := .assignmentExpression .assign ⟨8⟩ ⟨9⟩ }, { kind := .expressionStatement ⟨10⟩ },
    { kind := .blockStatement [⟨11⟩] }, { kind := .identifier "f" none },
    { kind := .functionDeclaration (some ⟨13⟩) [] ⟨12⟩ false false none },
    { kind := .identifier "b" none }, { kind := .identifier "a" none },
    { kind := .assignmentExpression .assign ⟨15⟩ ⟨16⟩ }, { kind := .expressionStatement ⟨17⟩ },
    { kind := .blockStatement [⟨18⟩] }, { kind := .identifier "g" none },
    { kind := .functionDeclaration (some ⟨20⟩) [] ⟨19⟩ false false none },
    { kind := .identifier "h" none }, { kind := .identifier "f" none },
    { kind := .identifier "g" none }, { kind := .callExpression ⟨22⟩ [⟨23⟩, ⟨24⟩] },
    { kind := .expressionStatement ⟨25⟩ },
    { kind := .program [⟨3⟩, ⟨7⟩, ⟨14⟩, ⟨21⟩, ⟨26⟩] [] }]
  root := some ⟨27⟩

theorem circleProgram_isProgram : circleProgram.IsProgram :=
  .of_bottomUp (by decide) (by decide) (by decide +kernel) (by decide +kernel)

theorem circleProgram_grammatical : circleProgram.Grammatical := .of_plain (by decide)

/-- The session in which the scopes of the program were built. The assignment in the first function
has the path 15, and what is assigned in the two functions has the paths 17 and 23. -/
def circleStart : Session :=
  after ensureScopes { tree := circleProgram, config := { lazyScopes := true } }

theorem circleStart_facts : circleStart.Fresh circleProgram ∧
    (∀ p type, ¬ circleStart.Answered p type) ∧ circleStart.tree.DeclaresTypes := by
  have hopen : Session.open? circleProgram { lazyScopes := true } =
      .ok { tree := circleProgram, config := { lazyScopes := true } } := rfl
  obtain ⟨_, s, hrun, htree, -⟩ :=
    ensureScopes_orderly circleProgram_isProgram { lazyScopes := true }
  obtain rfl : circleStart = s := after_of_ok hrun
  refine ⟨.crawled hopen hrun, ?_, fun n k hk => ?_⟩
  · rintro p type ⟨d, hd, htype⟩
    have hnone : ∀ d ∈ circleStart.paths.toList, d.inferred = none := by decide +kernel
    cases (hnone d (Array.mem_toList_iff.mpr (Array.mem_of_getElem? hd))).symm.trans htype
  · rw [htree] at hk
    have hnodes : ∀ node ∈ circleProgram.nodes.toList, .union [] ∉ node.kind.declaredTypes := by
      decide
    obtain ⟨node, hnode, rfl⟩ := Option.map_eq_some_iff.mp hk
    exact hnodes node (Array.mem_toList_iff.mpr (Array.mem_of_getElem? hnode))

/-- Both questions, and the first one again. -/
theorem circleProgram_lasts : circleProgram.IsProgram ∧ circleProgram.Grammatical ∧
    circleStart.Fresh circleProgram ∧ (∀ p type, ¬ circleStart.Answered p type) ∧
    circleStart.tree.DeclaresTypes ∧
    ∃ s', [⟨17⟩, ⟨23⟩].mapM PathId.valueType circleStart =
        .ok [.union [.string, .number], .number] s' ∧
      (∃ s'', PathId.valueType ⟨17⟩ s' = .ok (.union [.string, .number]) s'') ∧
      ∀ (p : PathId) d, s'.paths[p.index]? = some d → d.inferred = some (.union []) →
        d.PassesOn s'.tree := by
  obtain ⟨hfresh, hempty, hdeclares⟩ := circleStart_facts
  have hrun : [⟨17⟩, ⟨23⟩].mapM PathId.valueType circleStart =
      .ok [.union [.string, .number], .number] (after ([⟨17⟩, ⟨23⟩].mapM PathId.valueType)
        circleStart) := eq_ok_of_value? (by decide +kernel)
  obtain ⟨hagain, hpasses⟩ := inference_lasts circleProgram_isProgram circleProgram_grammatical
    hfresh hempty hdeclares hrun
  exact ⟨circleProgram_isProgram, circleProgram_grammatical, hfresh, hempty, hdeclares, _, hrun,
    hagain ⟨17⟩ _ (by simp), hpasses⟩

/-- The type of the second variable depends on whether that of the first one was asked for before,
and the question about the first one leaves the empty union with the assignment around it. -/
theorem circleProgram_disagrees : circleProgram.IsProgram ∧ circleProgram.Grammatical ∧
    circleStart.Fresh circleProgram ∧ (∀ p type, ¬ circleStart.Answered p type) ∧
    (∃ s₁, PathId.valueType ⟨23⟩ circleStart = .ok (.union [.number, .string]) s₁) ∧
    ∃ s₁ s₂, PathId.valueType ⟨17⟩ circleStart = .ok (.union [.string, .number]) s₁ ∧
      PathId.valueType ⟨23⟩ s₁ = .ok .number s₂ ∧ s₁.Answered ⟨15⟩ (.union []) := by
  obtain ⟨hfresh, hempty, -⟩ := circleStart_facts
  have hfirst : value? (PathId.valueType ⟨23⟩) circleStart = some (.union [.number, .string]) := by
    decide +kernel
  have hother : value? (PathId.valueType ⟨17⟩) circleStart = some (.union [.string, .number]) := by
    decide +kernel
  have hsecond : value? (PathId.valueType ⟨23⟩) (after (PathId.valueType ⟨17⟩) circleStart) =
      some .number := by decide +kernel
  have hleft : (after (PathId.valueType ⟨17⟩) circleStart).paths[15]?.bind PathData.inferred =
      some (.union []) := by decide +kernel
  exact ⟨circleProgram_isProgram, circleProgram_grammatical, hfresh, hempty,
    ⟨_, eq_ok_of_value? hfirst⟩, _, _, eq_ok_of_value? hother, eq_ok_of_value? hsecond,
    Option.bind_eq_some_iff.mp hleft⟩

end Espalier
