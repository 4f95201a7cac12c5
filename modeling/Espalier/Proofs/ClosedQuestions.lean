import Espalier.Proofs.Closure
import Espalier.Scope.Crawl
import Espalier.Scope.Uid

set_option autoImplicit false

/-! # Questions within range

What is asked about a known path, node or scope of a closed session is answered without a number out
of range, unless there is a reason to refuse: the way up is a circle, or the indices have come to
their end. -/

namespace Espalier

open SessionM

variable {α β : Type} {s : Session}

namespace Reads

section Plain

variable [Names α] [Names β]

theorem found {o : Option α} (h : ∃ a, o = some a ∧ s.Knows a) : Reads (found o) s := by
  obtain ⟨a, rfl, ha⟩ := h
  exact pure ha

theorem ask {question : Tree → Option α} (h : s.Closed → ∃ a, question s.tree = some a ∧ s.Knows a) :
    Reads (ask question) s := get_bind fun hs => found (h hs)

theorem nextIndex (i : Nat) : Reads (nextIndex i) s := ite (fun _ => pure trivial) fun _ => throw nofun

end Plain

/-! ## Nodes -/

section Node

variable {n : NodeId} (hn : s.Knows n)

include hn

theorem kind : Reads (SessionM.ask fun t => t.kind? n) s := ask fun hs => hs.exists_kind hn

theorem type : Reads (SessionM.ask fun t => t.type? n) s := by
  refine ask fun hs => ?_
  obtain ⟨k, hk, -⟩ := hs.exists_kind hn
  exact ⟨_, Tree.type?_of_kind hk, trivial⟩

theorem listLength (f : Field) : Reads (listLength n f) s :=
  (kind hn).bind fun _ _ => pure trivial

end Node

theorem nodeAt {c : Container} (hc : s.Knows c) (k : Key) : Reads (nodeAt c k) s := by
  unfold Espalier.nodeAt
  split
  · exact get_bind fun hs => pure hs.tree.root
  · next owner f =>
    refine (kind (Session.knows_some.mp hc)).bind fun k hk => pure ?_
    exact Session.knows_bind (Session.knows_kind_child hk f) fun c hc => Session.knows_child_node hc
  · next owner f i =>
    refine (kind (Session.knows_some.mp hc)).bind fun k hk => pure ?_
    refine Session.knows_bind (Session.knows_bind (Session.knows_kind_child hk f) fun c hc =>
      Session.knows_child_list hc) fun ids hids n hn => Session.knows_of_getElem? hids hn
  · exact pure Session.knows_none

/-! ## Paths -/

section Path

variable {p : PathId} (hp : s.Knows p)

include hp

theorem data : Reads p.data s := by
  refine get_bind fun hs => found ?_
  obtain ⟨d, hd⟩ := Session.exists_data hp
  exact ⟨d, hd, hs.paths.data p d hd⟩

theorem node? : Reads p.node? s := (data hp).bind fun _ hd => pure hd.1

theorem parent? : Reads p.parent? s := (data hp).bind fun _ hd => pure hd.2.1

theorem kind? : Reads p.kind? s := by
  refine (node? hp).bind fun o ho => ?_
  cases o with
  | none => exact pure Session.knows_none
  | some n => exact (kind (Session.knows_some.mp ho)).bind fun _ hk => pure (Session.knows_some.mpr hk)

theorem type? : Reads p.type? s := (kind? hp).bind fun _ _ => pure fun _ _ => trivial

theorem is (type : NodeType) : Reads (p.is type) s := (type? hp).bind fun _ _ => pure trivial

theorem isAny (test : NodeType → Bool) : Reads (p.isAny test) s :=
  (type? hp).bind fun _ _ => pure trivial

theorem identifierName? : Reads p.identifierName? s :=
  (kind? hp).bind fun _ _ => pure fun _ _ => trivial

theorem container : Reads p.container s := (data hp).bind fun _ hd => pure hd.2.2

theorem parentNode? : Reads p.parentNode? s := (data hp).bind fun _ hd => pure hd.2.2

theorem parentType? : Reads p.parentType? s := by
  refine (parentNode? hp).bind fun o ho => ?_
  cases o with
  | none => exact pure Session.knows_none
  | some n => exact (type (Session.knows_some.mp ho)).bind fun _ _ => pure fun _ _ => trivial

theorem index? : Reads p.index? s := (data hp).bind fun _ _ => pure fun _ _ => trivial

theorem inList : Reads p.inList s := (data hp).bind fun _ _ => pure trivial

theorem isRemoved : Reads p.isRemoved s := (data hp).bind fun _ _ => pure trivial

theorem note? (name : String) : Reads (p.note? name) s :=
  (data hp).bind fun _ _ => pure fun _ _ => trivial

/-! ### The way up -/

theorem ancestry : Reads p.ancestry s := by
  refine get_bind fun _ => ?_
  generalize s.paths.size + 1 = fuel
  induction fuel generalizing p with
  | zero => exact exhausted
  | succ fuel ih =>
    refine (parent? hp).bind fun o ho => ?_
    cases o with
    | none => exact pure (Session.knows_cons.mpr ⟨hp, Session.knows_nil⟩)
    | some q =>
      exact (ih (Session.knows_some.mp ho)).bind fun _ hl => pure (Session.knows_cons.mpr ⟨hp, hl⟩)

omit hp in
theorem climb [Names α] {answer : PathId → SessionM (Option α)}
    (h : ∀ q, s.Knows q → Reads (answer q) s) {start : Option PathId} (hstart : s.Knows start) :
    Reads (PathId.climb start answer) s := by
  refine get_bind fun _ => ?_
  generalize s.paths.size = fuel
  induction fuel generalizing start with
  | zero =>
    cases start with
    | none => exact pure Session.knows_none
    | some _ => exact exhausted
  | succ fuel ih =>
    cases start with
    | none => exact pure Session.knows_none
    | some q =>
      have hq := Session.knows_some.mp hstart
      refine (h q hq).bind fun o ho => ?_
      cases o with
      | none => exact (parent? hq).bind fun _ => ih
      | some a => exact pure ho

omit hp in
theorem firstWhere {test : PathId → SessionM Bool} (h : ∀ q, s.Knows q → Reads (test q) s)
    {start : Option PathId} (hstart : s.Knows start) : Reads (PathId.firstWhere start test) s := by
  refine climb (fun q hq => (h q hq).bind fun v _ => pure ?_) hstart
  cases v with
  | true => exact Session.knows_some.mpr hq
  | false => exact Session.knows_none

theorem find? {test : PathId → SessionM Bool} (h : ∀ q, s.Knows q → Reads (test q) s) :
    Reads (p.find? test) s := firstWhere h (Session.knows_some.mpr hp)

theorem findParent? {test : PathId → SessionM Bool} (h : ∀ q, s.Knows q → Reads (test q) s) :
    Reads (p.findParent? test) s := (parent? hp).bind fun _ ho => firstWhere h ho

theorem isDescendant {q : PathId} (hq : s.Knows q) : Reads (p.isDescendant q) s := by
  refine (node? hq).bind fun o _ => ?_
  cases o with
  | none => exact pure trivial
  | some n =>
    exact (findParent? hp fun q hq => (node? hq).bind fun _ _ => pure trivial).bind fun _ _ =>
      pure trivial

theorem statementParent : Reads p.statementParent s := by
  refine (find? hp fun q hq => (inList hq).bind fun _ _ =>
    ite (fun _ => isAny hq _) fun _ => pure trivial).bind fun o ho => ?_
  cases o with
  | none => exact refuse _
  | some q => exact pure (Session.knows_some.mp ho)

/-! ### Positions -/

theorem isReferenced : Reads p.isReferenced s := by
  refine (data hp).bind fun d hd => ?_
  split
  · next owner f howner hf => exact (kind (hd.2.2 owner howner)).bind fun _ _ => pure trivial
  · exact pure trivial

theorem isReferencedIdentifier : Reads p.isReferencedIdentifier s :=
  (is hp _).bind fun _ _ => ite (fun _ => isReferenced hp) fun _ => pure trivial

theorem has (f : Field) : Reads (p.has f) s := by
  refine (kind? hp).bind fun o _ => ?_
  split
  · exact pure trivial
  · exact pure trivial

theorem sourceText : Reads p.sourceText s := by
  refine (node? hp).bind fun o ho => ?_
  cases o with
  | none => exact pure trivial
  | some n =>
    have hsource : Reads (SessionM.ask fun t => t.sourceOf? n) s := by
      refine ask fun hs => ?_
      obtain ⟨k, hk, -⟩ := hs.exists_kind (Session.knows_some.mp ho)
      obtain ⟨node, hnode, -⟩ := Option.map_eq_some_iff.mp hk
      exact ⟨_, by simp only [Tree.sourceOf?, hnode]; rfl, fun _ _ => trivial⟩
    exact hsource.bind fun _ _ => pure trivial

theorem isStatementOrBlock : Reads p.isStatementOrBlock s :=
  (data hp).bind fun _ _ => (parentType? hp).bind fun _ _ =>
    ite (fun _ => pure trivial) fun _ => pure trivial

theorem isForHead : Reads p.isForHead s :=
  (data hp).bind fun _ _ => ite (fun _ => (parentType? hp).bind fun _ _ => pure trivial)
    fun _ => pure trivial

theorem canSwapBody {n : NodeId} (hn : s.Knows n) : Reads (p.canSwapBody n) s := by
  refine (data hp).bind fun _ _ => ite (fun _ => pure trivial) fun _ =>
    (parentType? hp).bind fun _ _ => ite (fun _ => pure trivial) fun _ => ?_
  refine (type hn).bind fun _ _ => (type? hp).bind fun o _ => ?_
  split
  · exact pure trivial
  · exact pure trivial
  · exact pure trivial

theorem isLast : Reads p.isLast s := by
  refine (data hp).bind fun d hd => ?_
  split
  · next owner f i hc _ =>
    refine (nextIndex i).bind fun _ _ => (listLength (hd.2.2 owner ?_) f).bind fun _ _ => pure trivial
    rw [hc]
    rfl
  · exact pure trivial

theorem endsProgram? (insideFunction : Bool) : Reads (p.endsProgram? insideFunction) s := by
  refine (isLast hp).bind fun _ _ => ite (fun _ => (parent? hp).bind fun o ho => ?_)
    fun _ => pure fun _ _ => trivial
  cases o with
  | none => exact pure fun _ _ => trivial
  | some q =>
    have hq := Session.knows_some.mp ho
    exact (is hq _).bind fun _ _ => ite (fun _ => pure fun _ _ => trivial) fun _ =>
      (isAny hq _).bind fun _ _ => ite (fun _ => pure fun _ _ => trivial)
        fun _ => pure fun _ _ => trivial

theorem isCompletionRecord (insideFunction : Bool) :
    Reads (p.isCompletionRecord insideFunction) s :=
  (climb (fun _ hq => endsProgram? hq insideFunction) (Session.knows_some.mpr hp)).bind fun _ _ =>
    pure trivial

theorem isScopeBlock : Reads p.isScopeBlock s := by
  refine (type? hp).bind fun o _ => ?_
  split
  · exact pure trivial
  · exact (parentType? hp).bind fun _ _ => pure trivial
  · exact pure trivial

theorem scopeBlock? : Reads p.scopeBlock? s := by
  refine climb (fun q hq => (node? hq).bind fun o ho => ?_) (Session.knows_some.mpr hp)
  cases o with
  | none => exact pure Session.knows_none
  | some n =>
    refine (isScopeBlock hq).bind fun v _ => pure ?_
    cases v with
    | true => exact Session.knows_some.mpr ⟨hq, Session.knows_some.mp ho⟩
    | false => exact Session.knows_none

end Path

/-! ## Scopes -/

section Scope

variable {i : ScopeId} (hi : s.Knows i) (name : String)

include hi

theorem scopeData : Reads i.data s := by
  refine get_bind fun hs => found ?_
  obtain ⟨sc, hsc⟩ := Session.exists_scope hi
  exact ⟨sc, hsc, hs.scopes.scopes i sc hsc⟩

theorem chain : Reads i.chain s := by
  refine get_bind fun _ => ?_
  generalize s.scopes.scopes.size + 1 = fuel
  induction fuel generalizing i with
  | zero => exact exhausted
  | succ fuel ih =>
    refine (scopeData hi).bind fun sc hsc => ?_
    split
    · exact pure (Session.knows_cons.mpr ⟨hi, Session.knows_nil⟩)
    · next j hj => exact (ih (hsc.2.1 j hj)).bind fun l hl => pure (Session.knows_cons.mpr ⟨hi, hl⟩)

theorem programScope : Reads i.programScope s := by
  refine (chain hi).bind fun l hl => pure ?_
  rw [List.getLastD_eq_getLast?]
  cases hlast : l.getLast? with
  | none => exact hi
  | some j => exact hl j (List.mem_of_getLast? hlast)

theorem functionScope : Reads i.functionScope s := by
  refine (chain hi).bind fun l hl => ?_
  induction l generalizing i with
  | nil => exact pure hi
  | cons j l ih =>
    obtain ⟨hj, hl⟩ := Session.knows_cons.mp hl
    exact (scopeData hj).bind fun _ _ => ite (fun _ => pure hj) fun _ => ih hj hl

theorem ownBinding? : Reads (i.ownBinding? name) s :=
  (scopeData hi).bind fun _ hsc => pure (Session.knows_get? hsc.2.2 name)

theorem bindingScope? : Reads (i.bindingScope? name) s := by
  refine (chain hi).bind fun l hl => ?_
  induction l with
  | nil => exact pure Session.knows_none
  | cons j l ih =>
    obtain ⟨hj, hl⟩ := Session.knows_cons.mp hl
    exact (scopeData hj).bind fun _ _ => ite (fun _ => pure (Session.knows_some.mpr hj)) fun _ => ih hl

theorem scopeBinding? : Reads (i.binding? name) s := by
  refine (bindingScope? hi name).bind fun o ho => ?_
  cases o with
  | none => exact pure Session.knows_none
  | some j => exact ownBinding? (Session.knows_some.mp ho) name

theorem hasBinding : Reads (i.hasBinding name) s :=
  (bindingScope? hi name).bind fun _ _ => pure trivial

theorem hasGlobal : Reads (i.hasGlobal name) s :=
  (programScope hi).bind fun _ hj => (scopeData hj).bind fun _ _ => pure trivial

theorem hasReference : Reads (i.hasReference name) s :=
  (programScope hi).bind fun _ hj => (scopeData hj).bind fun _ _ => pure trivial

/-! ### Generated names -/

theorem isTaken : Reads (i.isTaken name) s :=
  (hasBinding hi name).bind fun _ _ => ite (fun _ => pure trivial) fun _ =>
    (programScope hi).bind fun _ hj => (scopeData hj).bind fun _ _ => pure trivial

theorem freeCandidate (lead base : String) (fuel n : Nat) :
    Reads (i.freeCandidate lead base fuel n) s := by
  induction fuel generalizing n with
  | zero => exact exhausted
  | succ fuel ih =>
    exact (isTaken hi _).bind fun _ _ => ite (fun _ => ih (n + 1)) fun _ => pure trivial

theorem takenCount : Reads i.takenCount s :=
  (programScope hi).bind fun _ hj => (scopeData hj).bind fun _ _ => (chain hi).bind fun _ hl =>
    (mapM (β := Nat) hl fun _ hj => (scopeData hj).bind fun _ _ => pure trivial).bind fun _ _ =>
      pure trivial

end Scope

theorem scopesCrawled : Reads scopesCrawled s := get_bind fun _ => pure trivial

theorem scopeIds : Reads scopeIds s := by
  refine get_bind fun _ => pure fun i hi => ?_
  obtain ⟨j, hj, rfl⟩ := List.mem_map.mp hi
  exact List.mem_range.mp hj

end Reads

end Espalier
