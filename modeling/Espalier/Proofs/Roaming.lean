import Espalier.Proofs.Composition
import Espalier.Proofs.Navigation

set_option autoImplicit false

/-! # Navigation from anywhere

Any path may be asked for its relatives: a path that was removed, one that left the tree, even one
that the session does not know. The call may then lead nowhere or fail. Whatever it does, a sound
session stays sound and no path loses its position (`Move.roaming`): a hop keeps that, and all
navigation is composed of hops. -/

namespace Espalier

open SessionM Session

/-- Whatever is true of the forest, the second session came from the first one by navigation. -/
def Session.Roams (s s' : Session) : Prop := ∀ K, s.Sound K → s.Went K s'

/-- A computation that only navigates, whether it succeeds or fails. -/
def Roaming {α : Type} (x : SessionM α) : Prop := Leads Session.Roams x

namespace Roaming

variable {α : Type} (p : PathId)

theorem roams_refl (s : Session) : s.Roams s := fun _ hs => .refl hs

theorem roams_trans (s₁ s₂ s₃ : Session) (h₁ : s₁.Roams s₂) (h₂ : s₂.Roams s₃) : s₁.Roams s₃ :=
  fun K hs => (h₁ K hs).trans (h₂ K (h₁ K hs).sound)

/-! ## Hops -/

/-- Leaving the tree. -/
theorem detachedPath (parent : Option PathId) : Roaming (detachedPath parent) := by
  intro s K hs
  obtain ⟨q, s', hrun, hq⟩ := detachedPath_returns hs parent
  rw [after_of_ok hrun]
  exact hq.toWent

theorem rootPath : Roaming rootPath := by
  intro s K hs
  have hnone : s.Adopts Position.root.container none := rfl
  obtain ⟨q, s', hrun, hq⟩ := pathFor_returns .root hs (Position.within_root K) hnone
  rw [after_of_ok (show Espalier.rootPath s = .ok q s' from hrun)]
  exact hq.toWent

/-- What is known about a path of a sound session: it is not there, it is empty, or it holds a
node of the forest. -/
theorem of_path {x : SessionM α} (hnone : ∀ s : Session, s.paths[p.index]? = none → after x s = s)
    (hempty : ∀ (s : Session) (K : Set NodeId) (d : PathData), s.Sound K → s.paths[p.index]? = some d → d.node = none →
      s.Went K (after x s))
    (hholds : ∀ (s : Session) (K : Set NodeId) n, s.Sound K → s.Holds p n → s.Went K (after x s)) :
    Roaming x := by
  intro s K hs
  cases hd : s.paths[p.index]? with
  | none =>
    rw [hnone s hd]
    exact .refl hs
  | some d =>
    cases hn : d.node with
    | none => exact hempty s K d hs hd hn
    | some n => exact hholds s K n hs ⟨d, hd, hn⟩

/-- Asking an unknown path for its node fails. -/
theorem node?_unknown {s : Session} (h : s.paths[p.index]? = none) :
    p.node? s = .error .dangling s := by
  show (p.data >>= _) s = _
  rw [bind_of_error (p.data_unknown h)]

theorem child (f : Field) : Roaming (p.child f) := by
  refine of_path p (fun s h => ?_) (fun s K d hs hd hn => ?_) fun s K n hs hp => ?_
  · exact after_of_error (bind_of_error (node?_unknown p h))
  · obtain ⟨q, s', hrun, hq⟩ := detachedPath_returns hs (some p)
    have hchild : p.child f s = .ok q s' := by
      unfold PathId.child
      rw [bind_of_ok (p.node?_run hd), hn]
      exact hrun
    rw [after_of_ok hchild]
    exact hq.toWent
  · obtain ⟨q, s', hrun, hq⟩ := PathId.child_arrives hs hp f
    rw [after_of_ok hrun]
    exact hq.toWent

theorem element (f : Field) (i : Nat) : Roaming (p.element f i) := by
  refine of_path p (fun s h => ?_) (fun s K d hs hd hn => ?_) fun s K n hs hp => ?_
  · exact after_of_error (bind_of_error (node?_unknown p h))
  · obtain ⟨q, s', hrun, hq⟩ := detachedPath_returns hs (some p)
    have helement : p.element f i s = .ok q s' := by
      unfold PathId.element
      rw [bind_of_ok (p.node?_run hd), hn]
      exact hrun
    rw [after_of_ok helement]
    exact hq.toWent
  · by_cases hmany : ∃ ids, s.tree.field? n f = some (.many ids)
    · obtain ⟨ids, hids⟩ := hmany
      obtain ⟨q, s', hrun, hq⟩ := PathId.element_returns hs hp hids i
      rw [after_of_ok hrun]
      exact hq.toWent
    · obtain ⟨k, hk⟩ := hs.forest.kind n (hs.mem_of_holds hp)
      obtain ⟨q, s', hrun, hq⟩ := detachedPath_returns hs (some p)
      have helement : p.element f i s = .ok q s' := by
        unfold PathId.element
        rw [bind_of_ok (PathId.node?_run_of_holds hp)]
        show (SessionM.ask (fun t => t.kind? n) >>= _) s = _
        rw [bind_of_ok (ask_run hk)]
        cases hc : k.child? f with
        | none => exact hrun
        | some c =>
          cases c with
          | one => exact hrun
          | opt => exact hrun
          | many ids => exact absurd ⟨ids, by simp [Tree.field?, hk, hc]⟩ hmany
      rw [after_of_ok helement]
      exact hq.toWent

end Roaming

theorem Navigating.roaming {α : Type} {x : SessionM α} (hx : Navigating x) : Roaming x := by
  refine hx.leads Roaming.roams_refl Roaming.roams_trans fun _ _ hop => ?_
  cases hop with
  | root => exact Roaming.rootPath
  | detached parent => exact Roaming.detachedPath parent
  | child p f => exact Roaming.child p f
  | element p f i => exact Roaming.element p f i

theorem Navigating.went {α : Type} {x : SessionM α} (hx : Navigating x) {s s' : Session}
    {K : Set NodeId} {a : α} (hs : s.Sound K) (hrun : x s = .ok a s') : s.Went K s' :=
  hx.roaming.of_ok hrun K hs

/-! ## Moves -/

/-- A call that navigates. -/
inductive Move where
  | root
  | child (p : PathId) (f : Field)
  | element (p : PathId) (f : Field) (i : Nat)
  | elements (p : PathId) (f : Field)
  | inField (p : PathId) (f : Field)
  | follow (p : PathId) (pattern : String)
  | sibling (p : PathId) (i : Nat)
  | prevSibling (p : PathId)
  | nextSibling (p : PathId)
  | prevSiblings (p : PathId)
  | nextSiblings (p : PathId)
  | opposite (p : PathId)
  | parent (p : PathId)
  | ancestry (p : PathId)
  | functionParent (p : PathId)
  | statementParent (p : PathId)
  | completionRecords (p : PathId)
  | bindingIdentifiers (p : PathId) (keepAll outerOnly : Bool)

/-- The paths that a move leads to. -/
def Move.run : Move → SessionM (List PathId)
  | .root => do pure [← rootPath]
  | .child p f => do pure [← p.child f]
  | .element p f i => do pure [← p.element f i]
  | .elements p f => p.elements f
  | .inField p f => p.inField f
  | .follow p pattern => do pure [← p.follow pattern]
  | .sibling p i => do pure [← p.sibling i]
  | .prevSibling p => do pure [← p.prevSibling]
  | .nextSibling p => do pure [← p.nextSibling]
  | .prevSiblings p => p.prevSiblings
  | .nextSiblings p => p.nextSiblings
  | .opposite p => do pure (← p.opposite?).toList
  | .parent p => do pure (← p.parent?).toList
  | .ancestry p => p.ancestry
  | .functionParent p => do pure (← p.functionParent?).toList
  | .statementParent p => do pure [← p.statementParent]
  | .completionRecords p => p.completionRecords
  | .bindingIdentifiers p keepAll outerOnly => do
    pure (← p.bindingIdentifierPaths keepAll outerOnly).values.flatten

theorem Move.navigating (m : Move) : Navigating m.run := by
  cases m with
  | root => exact Navigating.rootPath.bind fun _ => .pure _
  | child p f => exact (Navigating.child p f).bind fun _ => .pure _
  | element p f i => exact (Navigating.element p f i).bind fun _ => .pure _
  | elements p f => exact .elements p f
  | inField p f => exact .inField p f
  | follow p pattern => exact (Navigating.follow p pattern).bind fun _ => .pure _
  | sibling p i => exact (Navigating.sibling p i).bind fun _ => .pure _
  | prevSibling p => exact (Navigating.prevSibling p).bind fun _ => .pure _
  | nextSibling p => exact (Navigating.nextSibling p).bind fun _ => .pure _
  | prevSiblings p => exact .prevSiblings p
  | nextSiblings p => exact .nextSiblings p
  | opposite p => exact (Navigating.opposite? p).bind fun _ => .pure _
  | parent p => exact (Composed.parent? p).bind fun _ => .pure _
  | ancestry p => exact .ancestry p
  | functionParent p =>
    exact (Composed.findParent? p fun q => .isAny q _).bind fun _ => .pure _
  | statementParent p => exact (Composed.statementParent p).bind fun _ => .pure _
  | completionRecords p => exact .completionRecords p
  | bindingIdentifiers p keepAll outerOnly =>
    exact (Navigating.bindingIdentifierPaths p keepAll outerOnly).bind fun _ => .pure _

/-- Whatever a move does, the session has only navigated. -/
theorem Move.roaming (m : Move) : Roaming m.run := m.navigating.roaming

end Espalier
