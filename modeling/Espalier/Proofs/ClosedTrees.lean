import Espalier.Proofs.Binders
import Espalier.Proofs.ClosedQuestions
import Espalier.Proofs.Pruning

set_option autoImplicit false

/-! # Whole subtrees within range

A question about everything below a node has no answer only when some way down is longer than the
arena, as all children are there (`Tree.Closed.depthWithin_iff`). So it ends in a circle, and not at
an id without a node. -/

namespace Espalier

open SessionM

variable {α : Type} {s : Session} {t : Tree}

/-! ## How far the ways down go -/

namespace Tree.Closed

theorem exists_kind (h : t.Closed) {n : NodeId} (hn : n.index < t.size) :
    ∃ k, t.kind? n = some k ∧ ∀ c ∈ k.children, c.index < t.size := by
  obtain ⟨node, hnode⟩ : ∃ node, t.nodes[n.index]? = some node := ⟨_, Array.getElem?_eq_getElem hn⟩
  have hk : t.kind? n = some node.kind := Option.map_eq_some_iff.mpr ⟨node, hnode, rfl⟩
  exact ⟨_, hk, h.children n _ hk⟩

/-- Either some way down takes so many steps, or all of them end before. -/
theorem depthWithin_iff (h : t.Closed) {n : NodeId} (hn : n.index < t.size) (d : Nat) :
    t.DepthWithin d n ↔ t.descends d n = false := by
  induction d generalizing n with
  | zero => exact ⟨False.elim, fun h => by cases h⟩
  | succ d ih =>
    obtain ⟨k, hk, hc⟩ := h.exists_kind hn
    have hbelow : t.descends (d + 1) n = k.children.any (t.descends d) := by
      simp only [descends, children?_of_kind hk]
    rw [hbelow, List.any_eq_false]
    simp only [Bool.not_eq_true]
    constructor
    · rintro ⟨k', hk', hall⟩ c hmem
      obtain rfl := Option.some.inj (hk.symm.trans hk')
      exact (ih (hc c hmem)).mp (hall c hmem)
    · exact fun hall => ⟨k, hk, fun c hmem => (ih (hc c hmem)).mpr (hall c hmem)⟩

/-- What is below a node of the arena is in the arena. -/
theorem below (h : t.Closed) {n m : NodeId} (hn : n.index < t.size) (hm : Relation.ReflTransGen t.IsChild n m) : m.index < t.size := by
  induction hm with
  | refl => exact hn
  | tail _ hc ih =>
    obtain ⟨k, hk, hall⟩ := h.exists_kind ih
    obtain ⟨k', hk', hmem⟩ := (t.isChild_iff _ _).mp hc
    obtain rfl := Option.some.inj (hk.symm.trans hk')
    exact hall _ hmem

end Tree.Closed

/-- Why there is no answer about everything below known nodes: some way down is too long. -/
theorem Session.Closed.failureBelow_eq (hs : s.Closed) {ids : List NodeId} (hids : s.Knows ids)
    (h : ¬ ∀ n ∈ ids, s.tree.DepthWithin s.tree.size n) :
    failureBelow s.tree ids = .exhausted := by
  have hany : ids.any (s.tree.descends s.tree.size) = true := by
    by_contra hno
    refine h fun n hn => (hs.tree.depthWithin_iff (hids n hn) _).mpr ?_
    rw [Bool.not_eq_true, List.any_eq_false] at hno
    simpa using hno n hn
  simp [failureBelow, hany]

/-- A question about everything below known nodes, that is answered where the ways down end. -/
theorem Reads.askBelow [Names α] {ids : List NodeId} {question : Tree → Option α}
    (hids : s.Knows ids)
    (h : s.Closed → (∀ n ∈ ids, s.tree.DepthWithin s.tree.size n) → ∃ a, question s.tree = some a)
    (hknown : s.Closed → ∀ a, question s.tree = some a → s.Knows a) :
    Reads (askBelow ids question) s := by
  intro hs
  cases ha : question s.tree with
  | some a => exact .inl ⟨a, askBelow_run ha, hknown hs a ha⟩
  | none =>
    have hfailure := hs.failureBelow_eq hids fun hall => by
      obtain ⟨a, ha'⟩ := h hs hall
      rw [ha] at ha'
      cases ha'
    refine .inr ⟨.exhausted, ?_, nofun⟩
    unfold SessionM.askBelow
    rw [run_get_bind, ha, hfailure]
    rfl

/-! ## Binding identifiers -/

section Binding

variable (keepAll outerOnly : Bool)

/-- Noting one more place of a name. -/
theorem Session.knows_recordSite [Names α] {found : Table String (List α)} (hfound : s.Knows found)
    (name : String) {site : α} (hsite : s.Knows site) :
    s.Knows (recordSite keepAll found name site) := by
  intro e he
  rcases Table.mem_entries_insert he with rfl | he
  · have hone : s.Knows [site] := Session.knows_cons.mpr ⟨hsite, Session.knows_nil⟩
    cases keepAll with
    | false => exact hone
    | true =>
      refine Session.knows_append.mpr ⟨?_, hone⟩
      cases hget : found.get? name with
      | none => exact Session.knows_nil
      | some l => exact Session.knows_get? hfound name l hget
  · exact hfound e he

theorem Session.Closed.knows_bindingLevel (hs : s.Closed) {level : List NodeId}
    {found : Table String (List NodeId)} (hlevel : s.Knows level) (hfound : s.Knows found)
    {r : Table String (List NodeId) × List NodeId}
    (h : s.tree.bindingLevel? keepAll false level found = some r) : s.Knows r := by
  induction level generalizing found r with
  | nil =>
    obtain rfl := Option.some.inj h
    exact ⟨hfound, Session.knows_nil⟩
  | cons n level ih =>
    obtain ⟨hn, hlevel⟩ := Session.knows_cons.mp hlevel
    obtain ⟨k, hk, hkk⟩ := hs.exists_kind hn
    by_cases hid : k.identifierName? = none
    · rw [Tree.bindingLevel?_cons hk hid, Option.bind_eq_bind, Option.bind_eq_some_iff] at h
      obtain ⟨targets, htargets, h⟩ := h
      rw [Option.bind_eq_bind, Option.bind_eq_some_iff] at h
      obtain ⟨r', hr', h⟩ := h
      obtain rfl := Option.some.inj h
      have hr := ih hlevel hfound hr'
      refine ⟨hr.1, Session.knows_append.mpr ⟨fun m hm => hkk m ?_, hr.2⟩⟩
      refine Tree.mem_children_of_mem_nextBinders (t := s.tree) ?_
      rwa [Tree.nextBinders, htargets]
    · obtain ⟨x, hx⟩ := Option.ne_none_iff_exists'.mp hid
      obtain ⟨declared, rfl⟩ := (k.identifierName?_eq_some_iff).mp hx
      rw [Tree.bindingLevel?, hk] at h
      exact ih hlevel (knows_recordSite keepAll hfound x hn) h

/-- The search for binding identifiers finds nodes of the arena. -/
theorem Session.Closed.knows_bindingIdentifiers (hs : s.Closed) {n : NodeId} (hn : s.Knows n)
    {found : Table String (List NodeId)}
    (h : s.tree.bindingIdentifiers? n keepAll false = some found) : s.Knows found := by
  unfold Tree.bindingIdentifiers? at h
  have hlevel : s.Knows [n] := Session.knows_cons.mpr ⟨hn, Session.knows_nil⟩
  have hempty : s.Knows (Table.empty : Table String (List NodeId)) := fun e he => by cases he
  generalize s.tree.depthBound + 1 = fuel, [n] = level, Table.empty = start at h hlevel hempty
  induction fuel generalizing level start with
  | zero => cases h
  | succ fuel ih =>
    unfold Tree.bindingSearch? at h
    split at h
    · obtain rfl := Option.some.inj h
      exact hempty
    · rw [Option.bind_eq_bind, Option.bind_eq_some_iff] at h
      obtain ⟨r, hr, h⟩ := h
      have hknown := hs.knows_bindingLevel keepAll hlevel hempty hr
      exact ih r.2 r.1 h hknown.2 hknown.1

end Binding

namespace Reads

variable {n : NodeId} (hn : s.Knows n)

include hn

theorem bindingIdentifiers? (keepAll : Bool) :
    Reads (SessionM.askBelow [n] fun t => t.bindingIdentifiers? n keepAll false) s := by
  refine askBelow (Session.knows_cons.mpr ⟨hn, Session.knows_nil⟩) (fun _ hd => ?_)
    fun hs _ => hs.knows_bindingIdentifiers keepAll hn
  obtain ⟨found, hfound, -⟩ := Tree.bindingIdentifiers?_eq_some keepAll (hd n (List.mem_singleton_self n))
  exact ⟨found, hfound⟩

theorem subtree? : Reads (SessionM.askBelow [n] fun t => t.subtree? n) s := by
  refine askBelow (Session.knows_cons.mpr ⟨hn, Session.knows_nil⟩) (fun _ hd => ?_)
    fun hs l hl m hm => hs.tree.below hn ((Tree.mem_subtreeWithin hl).mp hm)
  have hdeep := (hd n (List.mem_singleton_self n)).mono
    (show s.tree.size ≤ s.tree.depthBound from Nat.le_add_right _ _)
  obtain ⟨l, hl, -⟩ := hdeep.subtreeWithin
  exact ⟨l, hl⟩

end Reads

theorem Tree.DepthWithin.chainNames? {d fuel : Nat} {n : NodeId} (h : t.DepthWithin d n)
    (hfuel : d ≤ fuel) : ∃ names, t.chainNames? fuel n = some names := by
  induction d generalizing n fuel with
  | zero => exact h.elim
  | succ d ih =>
    obtain ⟨fuel, rfl⟩ : ∃ i, fuel = i + 1 := ⟨fuel - 1, by omega⟩
    obtain ⟨k, hk, hc⟩ := h
    unfold Tree.chainNames?
    rw [hk, Option.bind_eq_bind, Option.bind_some]
    cases k with
    | memberExpression object property computed =>
      obtain ⟨kp, hkp⟩ := (hc property (by simp [NodeKind.children, NodeKind.fields, Child.ids])).kind
      obtain ⟨names, hnames⟩ :=
        ih (hc object (by simp [NodeKind.children, NodeKind.fields, Child.ids])) (by omega : d ≤ fuel)
      simp only [Tree.accessName?, hkp, hnames, Option.bind_eq_bind, Option.bind_some]
      exact ⟨_, rfl⟩
    | _ => exact ⟨_, rfl⟩

namespace Reads

variable {p : PathId} (hp : s.Knows p)

include hp

theorem matchesPattern (pattern : String) (allowPartial : Bool) :
    Reads (p.matchesPattern pattern allowPartial) s := by
  refine (node? hp).bind fun o ho => ?_
  cases o with
  | none => exact pure trivial
  | some n =>
    have hn := Session.knows_some.mp ho
    refine (type hn).bind fun _ _ => ite (fun _ => ?_) fun _ => pure trivial
    have hnames : Reads (SessionM.askBelow [n] fun t => t.chainNames? t.depthBound n) s :=
      askBelow (Session.knows_cons.mpr ⟨hn, Session.knows_nil⟩)
        (fun _ hd => (hd n (List.mem_singleton_self n)).chainNames? (Nat.le_add_right _ _))
        fun _ _ _ _ _ _ _ => trivial
    exact hnames.bind fun _ _ => pure trivial

theorem bindingIdentifiers (keepAll : Bool) : Reads (p.bindingIdentifiers keepAll) s := by
  refine (node? hp).bind fun o ho => ?_
  cases o with
  | none => exact pure fun e he => by cases he
  | some n => exact bindingIdentifiers? (Session.knows_some.mp ho) keepAll

end Reads

end Espalier
