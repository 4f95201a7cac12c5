import Espalier.Edit.Replace
import Espalier.Proofs.Tidiness

set_option autoImplicit false

/-! # Edits in tidy sessions

Every edit leaves a tidy session tidy, whether it succeeds or is refused, whichever path it is made
through and whatever tree it meets (`Tidying`). The writes that an edit does to paths need their
path to be live, or to have a position; the checks that an edit makes first, and the node that it
finds at its path, see to that. -/

namespace Espalier

open SessionM Session

variable {α β : Type}

/-! ## Under a condition -/

/-- Where the condition holds, the computation removes no path and leaves a tidy session tidy. -/
def QuietFrom (P : Session → Prop) (x : SessionM α) : Prop :=
  ∀ s, s.Tidy → P s → s.Calm (after x s)

/-- Where the condition holds, the computation leaves a tidy session tidy. -/
def TidyingFrom (P : Session → Prop) (x : SessionM α) : Prop :=
  ∀ s, s.Tidy → P s → s.Upkeep (after x s)

/-- The computation leaves a tidy session tidy. -/
def Tidying (x : SessionM α) : Prop := Leads (fun s s' => s.Tidy → s.Upkeep s') x

/-- The path is not removed, and has a position. -/
def Session.Seated (p : PathId) (s : Session) : Prop := s.Live p ∧ s.Placed p

theorem Session.Calm.seated {s s' : Session} (h : s.Calm s') {p : PathId} (hp : s.Seated p) :
    s'.Seated p := ⟨h.live p hp.1, h.placed p hp.2⟩

namespace QuietFrom

variable {P Q : Session → Prop} {x : SessionM α} {f : α → SessionM β}

theorem of_quiet (hx : Quiet x) : QuietFrom P x := fun s hs _ => hx s hs

/-- A step after a step. The second one may rely on how the first one ended. -/
theorem bind_of (hx : QuietFrom P x) (hf : ∀ a s s', s.Tidy → P s → x s = .ok a s' →
    s.Calm s' → s'.Calm (after (f a) s')) : QuietFrom P (x >>= f) := by
  intro s hs hP
  have h := hx s hs hP
  cases hrun : x s with
  | ok a s' =>
    rw [after_of_ok hrun] at h
    rw [after_bind_of_ok hrun]
    exact h.trans (hf a s s' hs hP hrun h)
  | error e s' =>
    rw [after_of_error hrun] at h
    rw [after_of_error (bind_of_error hrun)]
    exact h

theorem bind (hx : QuietFrom P x) (hf : ∀ a, QuietFrom Q (f a))
    (h : ∀ s s', P s → s.Calm s' → Q s') : QuietFrom P (x >>= f) :=
  hx.bind_of fun a s s' _ hP _ hcalm => hf a s' hcalm.tidy (h s s' hP hcalm)

end QuietFrom

namespace TidyingFrom

variable {P Q : Session → Prop} {x : SessionM α} {f : α → SessionM β}

theorem of_quietFrom (hx : QuietFrom P x) : TidyingFrom P x := fun s hs hP => (hx s hs hP).toUpkeep

theorem of_quiet (hx : Quiet x) : TidyingFrom P x := fun s hs _ => (hx s hs).toUpkeep

theorem of_tidying (hx : Tidying x) : TidyingFrom P x := fun s hs _ => hx s hs

theorem mono (hx : TidyingFrom Q x) (h : ∀ s, P s → Q s) : TidyingFrom P x :=
  fun s hs hP => hx s hs (h s hP)

theorem bind (hx : TidyingFrom P x) (hf : ∀ a, TidyingFrom Q (f a))
    (h : ∀ s s', P s → s.Upkeep s' → Q s') : TidyingFrom P (x >>= f) := by
  intro s hs hP
  have hup := hx s hs hP
  cases hrun : x s with
  | ok a s' =>
    rw [after_of_ok hrun] at hup
    rw [after_bind_of_ok hrun]
    exact hup.trans (hf a s' hup.tidy (h s s' hP hup))
  | error e s' =>
    rw [after_of_error hrun] at hup
    rw [after_of_error (bind_of_error hrun)]
    exact hup

/-- A step that removes no path keeps a condition on paths that are not removed. -/
theorem bind_quiet (hx : Quiet x) (hf : ∀ a, TidyingFrom P (f a))
    (h : ∀ s s', P s → s.Calm s' → P s') : TidyingFrom P (x >>= f) := by
  intro s hs hP
  have hcalm := hx s hs
  cases hrun : x s with
  | ok a s' =>
    rw [after_of_ok hrun] at hcalm
    rw [after_bind_of_ok hrun]
    exact hcalm.toUpkeep.trans (hf a s' hcalm.tidy (h s s' hP hcalm))
  | error e s' =>
    rw [after_of_error hrun] at hcalm
    rw [after_of_error (bind_of_error hrun)]
    exact hcalm.toUpkeep

theorem bind_live {p : PathId} (hx : Quiet x) (hf : ∀ a, TidyingFrom (fun s => s.Live p) (f a)) :
    TidyingFrom (fun s => s.Live p) (x >>= f) := bind_quiet hx hf fun _ _ hp h => h.live p hp

theorem bind_seated {p : PathId} (hx : Quiet x) (hf : ∀ a, TidyingFrom (Seated p) (f a)) :
    TidyingFrom (Seated p) (x >>= f) := bind_quiet hx hf fun _ _ hp h => h.seated hp

/-- Whatever keeps a session tidy keeps a path from losing its position for good. -/
theorem bind_placed {p : PathId} (hx : TidyingFrom (fun s => s.Placed p) x)
    (hf : ∀ a, TidyingFrom (fun s => s.Placed p) (f a)) :
    TidyingFrom (fun s => s.Placed p) (x >>= f) :=
  hx.bind hf fun _ _ hp h => h.placed p hp

theorem ite {c : Prop} [Decidable c] {x y : SessionM α} (hx : TidyingFrom P x)
    (hy : TidyingFrom P y) : TidyingFrom P (if c then x else y) := by
  split
  · exact hx
  · exact hy

end TidyingFrom

namespace Tidying

theorem upkeep_refl (s : Session) (h : s.Tidy) : s.Upkeep s := .refl h

theorem upkeep_trans (s s₁ s₂ : Session) (h₁ : s.Tidy → s.Upkeep s₁)
    (h₂ : s₁.Tidy → s₁.Upkeep s₂) (h : s.Tidy) : s.Upkeep s₂ := (h₁ h).trans (h₂ (h₁ h).tidy)

theorem of_quiet {x : SessionM α} (hx : Quiet x) : Tidying x := fun s hs => (hx s hs).toUpkeep

/-- A question changes nothing. -/
theorem question {x : SessionM α} (hx : Composed (fun _ _ => False) x) : Tidying x :=
  of_quiet (.question hx)

theorem pure (a : α) : Tidying (pure a : SessionM α) := of_quiet (.pure a)

theorem throw (e : Failure) : Tidying (throw e : SessionM α) := of_quiet (.throw e)

theorem refuse (cause : Refusal) : Tidying (refuse cause : SessionM α) := throw _

theorem get : Tidying (get : SessionM Session) := of_quiet .get

theorem onTree (build : TreeM α) : Tidying (onTree build) := of_quiet (.onTree build)

theorem buildBelow (ids : List NodeId) (build : TreeM α) : Tidying (buildBelow ids build) :=
  of_quiet (.buildBelow ids build)

theorem child (p : PathId) (f : Field) : Tidying (p.child f) :=
  of_quiet (Navigating.child p f).quiet

theorem bind {x : SessionM α} {f : α → SessionM β} (hx : Tidying x) (hf : ∀ a, Tidying (f a)) :
    Tidying (x >>= f) := Leads.bind upkeep_trans hx hf

theorem mapM {f : α → SessionM β} (l : List α) (hf : ∀ a, Tidying (f a)) :
    Tidying (l.mapM f) := Leads.mapM upkeep_refl upkeep_trans l fun a _ => hf a

theorem forM {f : α → SessionM PUnit} (l : List α) (hf : ∀ a, Tidying (f a)) :
    Tidying (l.forM f) := Leads.forM upkeep_refl upkeep_trans l fun a _ => hf a

theorem ite {c : Prop} [Decidable c] {x y : SessionM α} (hx : Tidying x) (hy : Tidying y) :
    Tidying (if c then x else y) := by
  split
  · exact hx
  · exact hy

/-! ## What a check tells -/

/-- Behind the check that a path was not removed, the path is live. -/
theorem isRemoved_bind (p : PathId) {f : Bool → SessionM α} (hgone : Tidying (f true))
    (hlive : TidyingFrom (fun s => s.Live p) (f false)) : Tidying (p.isRemoved >>= f) := by
  intro s hs
  cases hd : s.paths[p.index]? with
  | none =>
    have hrun : p.isRemoved s = .error .dangling s := bind_of_error (p.data_unknown hd)
    rw [after_of_error (bind_of_error hrun)]
    exact .refl hs
  | some d =>
    rw [after_bind_of_ok (p.isRemoved_run hd)]
    cases hr : d.removed with
    | true => exact hgone s hs
    | false => exact hlive s hs ⟨d, hd, hr⟩

end Tidying

/-- A path at which a node is found is in its seat. -/
theorem TidyingFrom.node?_bind {P : Session → Prop} (p : PathId) {f : Option NodeId → SessionM α}
    (hnone : Tidying (f none)) (hsome : ∀ n, TidyingFrom (Seated p) (f (some n))) :
    TidyingFrom P (p.node? >>= f) := by
  intro s hs _
  cases hrun : p.node? s with
  | error e s' =>
    rw [after_of_error (bind_of_error hrun)]
    obtain rfl : s' = s := by
      have := Composed.question_after (.node? p) s
      rwa [after_of_error hrun] at this
    exact .refl hs
  | ok o s' =>
    obtain rfl := question_run (.node? p) hrun
    rw [after_bind_of_ok hrun]
    cases o with
    | none => exact hnone s' hs
    | some n => exact hsome n s' hs (hs.live_of_holds (PathId.holds_of_node? hrun).2)

theorem Tidying.node?_bind (p : PathId) {f : Option NodeId → SessionM α}
    (hnone : Tidying (f none)) (hsome : ∀ n, TidyingFrom (Seated p) (f (some n))) :
    Tidying (p.node? >>= f) :=
  fun s hs => TidyingFrom.node?_bind (P := fun _ => True) p hnone hsome s hs trivial

/-! ## Writing to paths -/

namespace PathId

variable (p : PathId)

/-- Only a path in its seat is given a node. -/
theorem setNode_quiet (node : NodeId) : QuietFrom (fun s => s.Live p) (p.setNode node) := by
  intro s hs hlive
  obtain ⟨d, hd, hr⟩ := hlive
  unfold setNode
  rw [after_bind_of_ok (p.data_run hd)]
  have hwrite : ∀ x : SessionM Unit, Quiet x → QuietFrom (Seated p) (do
      x
      p.modifyData fun d => { d with node := some node, inferred := none }) := by
    intro x hx
    refine QuietFrom.bind (Q := Seated p) (.of_quiet hx) (fun _ => ?_) fun _ _ hp h => h.seated hp
    rintro s hs ⟨⟨d, hd, hr⟩, e, he, hc⟩
    obtain rfl : d = e := Option.some.inj (hd.symm.trans he)
    rw [after_of_ok (p.modifyData_run hd _)]
    refine hs.calm_modify _ fun e he => ?_
    obtain rfl : d = e := Option.some.inj (hd.symm.trans he)
    exact ⟨⟨fun h => by simp [hr] at h, fun h => absurd h hc⟩, rfl, rfl⟩
  have hask : ∀ (n : NodeId) (f : NodeKind → SessionM Unit), (∀ k, QuietFrom (Seated p) (f k)) →
      QuietFrom (Seated p) ((ask fun t => t.kind? n) >>= f) := fun n f hf =>
    QuietFrom.bind (.of_quiet (.question (.ask _))) hf fun _ _ hp h => h.seated hp
  have hkind : ∀ (n : NodeId) (g : NodeKind → NodeKind), Quiet (modifyKind n g) := fun n g =>
    .onTree _
  by_cases hc : d.container = .detached
  · rw [hc]
    exact .refl hs
  · refine (?_ : QuietFrom (Seated p) _) s hs ⟨⟨d, hd, hr⟩, d, hd, hc⟩
    split
    · exact hwrite _ (.aside fun _ => ⟨rfl, rfl, rfl⟩)
    · refine hask _ _ fun kind => ?_
      split
      · exact hwrite _ (.throw _)
      · exact hwrite _ (hkind _ _)
      · exact hwrite _ (.throw _)
    · refine hask _ _ fun kind => ?_
      split
      · split
        · exact hwrite _ (hkind _ _)
        · exact hwrite _ (.throw _)
      · exact hwrite _ (.throw _)
    · exact hwrite _ (.throw _)

/-- A path in its seat moves to another one. -/
theorem moveToContainer_quiet {c : Container} (hc : c ≠ .detached) :
    QuietFrom (Seated p) (p.moveToContainer c) := by
  rintro s hs ⟨⟨d, hd, hr⟩, e, he, hpos⟩
  obtain rfl : d = e := Option.some.inj (hd.symm.trans he)
  have hu := hs.unfiled d.container p
  have hd' : (s.unfiled d.container p).paths[p.index]? = some d := by rwa [paths_unfiled]
  -- The path is in no bucket when its container is changed, and is filed after that.
  have hmoved := hu.modify hd' (fun d => { d with container := c })
    ⟨fun h => by simp [hr] at h, fun h => absurd h hc⟩ (fun h => absurd h hpos)
    fun c' hb => absurd hb (hs.not_mem_unfiled hd c')
  have hfiled := hmoved.file (p := p) (d := { d with container := c })
    (by rw [getElem?_modify_paths, if_pos rfl, hd', Option.map_some]) hr (hs.not_mem_unfiled hd c)
  have hkept : ∀ (P : PathData → Prop), (∀ e, P e → P { e with container := c }) →
      ∀ q : PathId, (∃ e, s.paths[q.index]? = some e ∧ P e) →
        ∃ e, ((s.unfiled d.container p).paths.modify p.index
          fun d => { d with container := c })[q.index]? = some e ∧ P e := by
    rintro P hP q ⟨e, he, hPe⟩
    rw [getElem?_modify_paths, paths_unfiled, he]
    split
    · exact ⟨_, rfl, hP e hPe⟩
    · exact ⟨e, rfl, hPe⟩
  rw [after_of_ok (p.moveToContainer_run hd c)]
  exact ⟨⟨hfiled, hkept _ fun _ _ => hc⟩, hkept _ fun _ h => h, hkept _ fun _ h => ⟨h.1, hc⟩⟩

theorem moveTo_quiet (parent : Option PathId) {c : Container} (hc : c ≠ .detached) (k : Key) :
    QuietFrom (Seated p) (p.moveTo parent c k) := by
  refine (moveToContainer_quiet p hc).bind (Q := fun _ => True) (fun _ => .of_quiet ?_)
    fun _ _ _ _ => trivial
  exact .modifyData p fun d hd => ⟨⟨hd.removed, hd.adrift⟩, rfl, rfl⟩

/-- Only a path with a position is marked as removed. -/
theorem markRemoved_tidying : TidyingFrom (fun s => s.Placed p) p.markRemoved := by
  rintro s hs ⟨d, hd, hc⟩
  rw [after_of_ok (markRemoved_run hd)]
  have hu := hs.unfiled d.container p
  refine ⟨?_, ?_⟩
  · have hmarked := hu.modify (p := p) (d := d) (by rwa [paths_unfiled])
      (fun d => { d with removed := true, skip := true, node := none })
      ⟨fun _ => ⟨rfl, rfl, hc⟩, fun h => absurd h hc⟩ (fun h => absurd h hc)
      fun c' hb => absurd hb (hs.not_mem_unfiled hd c')
    rw [paths_unfiled] at hmarked
    exact hmarked
  · rintro q ⟨e, he, hce⟩
    show ∃ d', (s.paths.modify p.index _)[q.index]? = some d' ∧ _
    rw [getElem?_modify_paths, he]
    split
    · exact ⟨_, rfl, hce⟩
    · exact ⟨e, rfl, hce⟩

/-! ## Keeping in step -/

theorem resyncParent_quiet : QuietFrom (fun s => s.Live p) p.resyncParent := by
  intro s hs hlive
  obtain ⟨d, hd, hr⟩ := hlive
  unfold resyncParent
  rw [after_bind_of_ok (p.data_run hd)]
  cases d.parent with
  | none => exact .refl hs
  | some parent =>
    -- A path with a container to follow has a position.
    refine QuietFrom.bind (P := fun s => s.paths[p.index]? = some d)
      (Q := fun s => d.container ≠ .detached → s.Seated p) (.of_quiet (.question (.node? parent)))
      (fun o => ?_) (fun s s' hd hcalm hc => hcalm.seated ⟨⟨d, hd, hr⟩, d, hd, hc⟩) s hs hd
    cases o with
    | none => exact .of_quiet (.pure _)
    | some node =>
      cases hc : d.container with
      | root => exact .of_quiet (.pure _)
      | detached => exact .of_quiet (.pure _)
      | slot old =>
        unfold rehomed?
        dsimp only
        split
        · exact .of_quiet (.pure _)
        · next c heq =>
          have hne : c ≠ .detached := by
            split at heq
            · simp at heq
            · rw [← Option.some.inj heq]; simp
          exact fun s hs hp => moveToContainer_quiet p hne s hs (hp (by simp))
      | list old f =>
        unfold rehomed?
        dsimp only
        split
        · exact .of_quiet (.pure _)
        · next c heq =>
          have hne : c ≠ .detached := by
            split at heq
            · simp at heq
            · rw [← Option.some.inj heq]; simp
          exact fun s hs hp => moveToContainer_quiet p hne s hs (hp (by simp))

theorem resyncKey_tidying : Tidying p.resyncKey := by
  intro s hs
  cases hd : s.paths[p.index]? with
  | none =>
    unfold resyncKey
    rw [after_of_error (bind_of_error (p.data_unknown hd))]
    exact .refl hs
  | some d =>
    unfold resyncKey
    rw [after_bind_of_ok (p.data_run hd)]
    cases d.node with
    | none => exact .refl hs
    | some node =>
      refine TidyingFrom.bind (P := fun s => d.container ≠ .detached → s.Placed p)
        (Q := fun s => d.container ≠ .detached → s.Placed p)
        (.of_quiet (.question (.nodeAt _ _))) (fun o => ?_)
        (fun s s' hp h hc => h.placed p (hp hc)) s hs fun hc => ⟨d, hd, hc⟩
      refine .ite (.of_quiet (.pure _)) ?_
      by_cases hc : d.container = .detached
      · rw [if_pos hc]
        exact .of_quiet (.pure _)
      · rw [if_neg hc]
        refine TidyingFrom.mono (Q := fun s => s.Placed p) ?_ fun s hp => hp hc
        refine TidyingFrom.bind_placed (.of_quiet ?_) fun o => ?_
        · unfold keyOf?
          split
          · exact Quiet.bind (.question (.ask _)) fun _ => .pure _
          · exact Quiet.bind (.question (.ask _)) fun _ => .pure _
          · exact .pure _
          · exact .pure _
        · cases o with
          | none => exact markRemoved_tidying p
          | some k =>
            exact .of_quiet (.modifyData p fun d hd => ⟨⟨hd.removed, hd.adrift⟩, rfl, rfl⟩)

end PathId

namespace Tidying

theorem resync (p : PathId) : Tidying p.resync := by
  refine isRemoved_bind p (pure _) ?_
  exact TidyingFrom.bind (Q := fun _ => True) (.of_quietFrom (PathId.resyncParent_quiet p))
    (fun _ => .of_tidying (PathId.resyncKey_tidying p)) fun _ _ _ _ => trivial

end Tidying

end Espalier
