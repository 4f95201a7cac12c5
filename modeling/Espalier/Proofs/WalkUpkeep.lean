import Espalier.Proofs.Upkeep
import Espalier.Walk.Traverse

set_option autoImplicit false

/-! # Walks in tidy sessions

A walk leaves a tidy session tidy if all its handlers do, and so does a walk that ends early, by a
refusal or by a wish to stop (`Patrolling.traverse`). Beside what handlers do, a walk writes to
paths when it begins a visit; it makes sure before that the path was not removed. -/

namespace Espalier

open SessionM Session

variable {σ α β : Type}

/-- The computation leaves the session of a walk tidy. -/
def Patrolling (x : WalkM σ α) : Prop :=
  Leads (fun w w' => w.session.Tidy → w.session.Upkeep w'.session) x

/-- Where the condition holds, the computation leaves the session of a walk tidy. -/
def PatrollingFrom (P : Session → Prop) (x : WalkM σ α) : Prop :=
  ∀ w : Walk σ, w.session.Tidy → P w.session → w.session.Upkeep (after x w).session

/-- What a computation on the session leaves behind. -/
theorem WalkM.after_onSession (x : SessionM α) (w : Walk σ) :
    after (WalkM.onSession x) w = { w with session := after x w.session } := by
  simp only [after, WalkM.onSession]
  cases x w.session <;> rfl

/-- A computation of the session inside a walk. -/
theorem Walk.lift_run {x : SessionM α} {w : Walk σ} {s : Session} {a : α}
    (h : x w.session = .ok a s) : (liftM x : WalkM σ α) w = .ok a { w with session := s } := by
  show WalkM.onSession x w = _
  simp only [WalkM.onSession, h]

/-- What succeeds inside a walk succeeds in the session. -/
theorem Walk.lift_eq_ok {x : SessionM α} {w w' : Walk σ} {a : α}
    (h : (liftM x : WalkM σ α) w = .ok a w') :
    ∃ s, x w.session = .ok a s ∧ w' = { w with session := s } := by
  have h' : WalkM.onSession x w = .ok a w' := h
  unfold WalkM.onSession at h'
  cases hrun : x w.session with
  | ok b s =>
    rw [hrun] at h'
    obtain ⟨rfl, rfl⟩ := EStateM.Result.ok.inj h'
    exact ⟨s, rfl, rfl⟩
  | error e s =>
    rw [hrun] at h'
    cases h'

/-- A question inside a walk. -/
theorem Walk.lift_run_still {x : SessionM α} {w : Walk σ} {a : α}
    (h : x w.session = .ok a w.session) : (liftM x : WalkM σ α) w = .ok a w := lift_run h

section Known

variable {w : Walk σ} {p : PathId} {d : PathData}

/-- When a visit is broken off. -/
theorem Walk.isInterrupted_of_data (hd : w.session.paths[p.index]? = some d) (n : NodeId) :
    (isInterrupted p n : WalkM σ Bool) w =
      .ok (d.removed || d.node != some n || d.skip || d.stop || w.session.stopping) w := by
  unfold isInterrupted
  rw [bind_of_ok (lift_run_still (p.data_run hd))]
  rfl

/-- When a walk has to stop at a path. -/
theorem Walk.mustStop_of_data (hd : w.session.paths[p.index]? = some d) :
    (mustStop p : WalkM σ Bool) w = .ok (d.stop || w.session.stopping) w := by
  unfold mustStop
  rw [bind_of_ok (lift_run_still (p.data_run hd))]
  rfl

/-- What a visit writes to its path at its beginning. -/
theorem Walk.beginVisit_of_data (hd : w.session.paths[p.index]? = some d) (requeued : Bool) :
    (beginVisit p requeued : WalkM σ Unit) w = .ok ()
      { w with
        session := { w.session with
          paths := w.session.paths.modify p.index fun d =>
            { d with
              frame := w.session.frames.head?.map Frame.id
              skip := false
              stop := false
              requeues := if requeued then d.requeues else 0 } }
        visited := w.visited + 1 } := by
  unfold beginVisit
  rw [run_get_bind]
  exact bind_of_ok (lift_run (p.modifyData_run hd _))

end Known

/-- A walk on its own that ends. -/
theorem Walk.isolated_run {body : WalkM σ Bool} {w w' : Walk σ} {stopped : Bool}
    (h : body { w with visited := 0, session := { w.session with stopping := false } } =
      .ok stopped w') :
    isolated body w = .ok { stopped, visited := w'.visited } (resume w w') := by
  simp only [isolated, h]

/-- A walk on its own that is refused. -/
theorem Walk.isolated_run_error {body : WalkM σ Bool} {w w' : Walk σ} {e : Failure}
    (h : body { w with visited := 0, session := { w.session with stopping := false } } =
      .error e w') : isolated body w = .error e (resume w w') := by
  simp only [isolated, h]

/-- The handlers that are called for a node are handlers of the visitor. -/
theorem Visitor.mem_handlersFor {v : Visitor σ} {phase : Phase} {type : NodeType} {h : Handler σ}
    (hh : h ∈ v.handlersFor phase type) : ∃ selector, (phase, selector, h) ∈ v.entries := by
  have hselect : ∀ test, h ∈ v.select phase test → ∃ selector, (phase, selector, h) ∈ v.entries := by
    intro test ht
    obtain ⟨⟨ph, selector, h'⟩, he, hsome⟩ := List.mem_filterMap.mp ht
    dsimp only at hsome
    split at hsome
    · next hph =>
      obtain rfl := Option.some.inj hsome
      exact ⟨selector, hph.1 ▸ he⟩
    · cases hsome
  simp only [Visitor.handlersFor, List.mem_append] at hh
  rcases hh with (hh | hh) | hh
  · exact hselect _ hh
  · exact hselect _ hh
  · exact hselect _ hh

namespace PatrollingFrom

variable {P Q : Session → Prop} {x : WalkM σ α} {f : α → WalkM σ β}

theorem of_patrolling (hx : Patrolling x) : PatrollingFrom P x := fun w hw _ => hx w hw

theorem lift {x : SessionM α} (hx : TidyingFrom P x) : PatrollingFrom P (WalkM.onSession x : WalkM σ α) := by
  intro w hw hP
  rw [WalkM.after_onSession]
  exact hx w.session hw hP

theorem bind_get {f : Walk σ → WalkM σ α} (hf : ∀ w, PatrollingFrom P (f w)) :
    PatrollingFrom P (get >>= f) := fun w => hf w w

theorem bind_of (hx : PatrollingFrom P x) (hf : ∀ a w w', P w.session → x w = .ok a w' →
    w.session.Upkeep w'.session → w'.session.Upkeep (after (f a) w').session) :
    PatrollingFrom P (x >>= f) := by
  intro w hw hP
  have h := hx w hw hP
  cases hrun : x w with
  | ok a w' =>
    rw [after_of_ok hrun] at h
    rw [after_bind_of_ok hrun]
    exact h.trans (hf a w w' hP hrun h)
  | error e w' =>
    rw [after_of_error hrun] at h
    rw [after_of_error (bind_of_error hrun)]
    exact h

theorem bind (hx : PatrollingFrom P x) (hf : ∀ a, Patrolling (f a)) : PatrollingFrom P (x >>= f) :=
  hx.bind_of fun a _ w' _ _ h => hf a w' h.tidy

/-- A question leaves every condition as it is. -/
theorem bind_question {x : SessionM α} (hx : Composed (fun _ _ => False) x)
    (hf : ∀ a, PatrollingFrom P (f a)) : PatrollingFrom P (WalkM.onSession x >>= f) := by
  refine bind_of (lift (.of_quiet (.question hx))) fun a w w' hP hrun h => ?_
  have hsame : w'.session = w.session := by
    rw [← after_of_ok hrun, WalkM.after_onSession]
    exact hx.question_after w.session
  exact hf a w' h.tidy (hsame ▸ hP)

theorem ite {c : Prop} [Decidable c] {x y : WalkM σ α} (hx : PatrollingFrom P x)
    (hy : PatrollingFrom P y) : PatrollingFrom P (if c then x else y) := by
  split
  · exact hx
  · exact hy

end PatrollingFrom

namespace Patrolling

theorem patrol_refl (w : Walk σ) (h : w.session.Tidy) : w.session.Upkeep w.session := .refl h

theorem patrol_trans (w w₁ w₂ : Walk σ) (h₁ : w.session.Tidy → w.session.Upkeep w₁.session)
    (h₂ : w₁.session.Tidy → w₁.session.Upkeep w₂.session) (h : w.session.Tidy) :
    w.session.Upkeep w₂.session := (h₁ h).trans (h₂ (h₁ h).tidy)

theorem pure (a : α) : Patrolling (pure a : WalkM σ α) := Leads.pure patrol_refl a

theorem throw (e : Failure) : Patrolling (throw e : WalkM σ α) := Leads.throw patrol_refl e

theorem get : Patrolling (get : WalkM σ (Walk σ)) := Leads.get patrol_refl

theorem bind {x : WalkM σ α} {f : α → WalkM σ β} (hx : Patrolling x)
    (hf : ∀ a, Patrolling (f a)) : Patrolling (x >>= f) := Leads.bind patrol_trans hx hf

theorem lift {x : SessionM α} (hx : Tidying x) : Patrolling (WalkM.onSession x : WalkM σ α) := by
  intro w hw
  rw [WalkM.after_onSession]
  exact hx w.session hw

theorem question {x : SessionM α} (hx : Composed (fun _ _ => False) x) :
    Patrolling (WalkM.onSession x : WalkM σ α) := lift (.question hx)

theorem ite {c : Prop} [Decidable c] {x y : WalkM σ α} (hx : Patrolling x) (hy : Patrolling y) :
    Patrolling (if c then x else y) := by
  split
  · exact hx
  · exact hy

/-- A change of anything but the paths and where they are found. -/
theorem modify {f : Walk σ → Walk σ} (h : ∀ w, (f w).session.paths = w.session.paths ∧
    (f w).session.cache = w.session.cache ∧ (f w).session.detached = w.session.detached) :
    Patrolling (modify f : WalkM σ PUnit) :=
  fun w hw => (hw.calm_of_same (h w).1 (h w).2.1 (h w).2.2).toUpkeep

/-- Putting a walk in order, whether it fails or not. -/
theorem ensuring {body : WalkM σ α} (hbody : Patrolling body) {cleanup : Walk σ → Walk σ}
    (h : ∀ w, (cleanup w).session.paths = w.session.paths ∧
      (cleanup w).session.cache = w.session.cache ∧
      (cleanup w).session.detached = w.session.detached) :
    Patrolling (Walk.ensuring body cleanup) := by
  intro w hw
  have hb := hbody w hw
  have hafter : after (Walk.ensuring body cleanup) w = cleanup (after body w) := by
    simp only [after, Walk.ensuring]
    cases body w <;> rfl
  rw [hafter]
  exact hb.trans (hb.tidy.calm_of_same (h _).1 (h _).2.1 (h _).2.2).toUpkeep

theorem withFrame {body : WalkM σ α} (hbody : Patrolling body) :
    Patrolling (Walk.withFrame body) :=
  get.bind fun _ => bind (modify fun _ => ⟨rfl, rfl, rfl⟩) fun _ =>
    hbody.ensuring fun _ => ⟨rfl, rfl, rfl⟩

/-- What is known about a path at the start of a visit. -/
theorem data_bind (p : PathId) {f : PathData → WalkM σ α}
    (hgone : ∀ d : PathData, d.removed = true → Patrolling (f d))
    (hlive : ∀ d : PathData, d.removed = false → PatrollingFrom (fun s => s.Live p) (f d)) :
    Patrolling (WalkM.onSession p.data >>= f) := by
  intro w hw
  cases hd : w.session.paths[p.index]? with
  | none =>
    have hrun : (WalkM.onSession p.data : WalkM σ PathData) w = .error .dangling w := by
      simp only [WalkM.onSession, p.data_unknown hd]
    rw [after_of_error (bind_of_error hrun)]
    exact .refl hw
  | some d =>
    have hrun : (WalkM.onSession p.data : WalkM σ PathData) w = .ok d w := by
      simp only [WalkM.onSession, p.data_run hd]
    rw [after_bind_of_ok hrun]
    cases hr : d.removed with
    | true => exact hgone d hr w hw
    | false => exact hlive d hr w hw ⟨d, hd, hr⟩

/-! ## The steps of a walk -/

theorem isStopping : Patrolling (Walk.isStopping : WalkM σ Bool) := get.bind fun _ => pure _

theorem mustStop (p : PathId) : Patrolling (Walk.mustStop p : WalkM σ Bool) :=
  (question (.data p)).bind fun _ => isStopping.bind fun _ => pure _

theorem isInterrupted (p : PathId) (node : NodeId) :
    Patrolling (Walk.isInterrupted p node : WalkM σ Bool) :=
  (question (.data p)).bind fun _ => isStopping.bind fun _ => pure _

theorem callAll (p : PathId) (node : NodeId) {hs : List (Handler σ)}
    (h : ∀ h ∈ hs, Patrolling (h p)) : Patrolling (Walk.callAll p node hs) := by
  induction hs with
  | nil => exact isInterrupted p node
  | cons handler hs ih =>
    refine (isInterrupted p node).bind fun _ => ite (pure _) ?_
    exact (h handler (by simp)).bind fun _ => ih fun h' hh' => h h' (by simp [hh'])

theorem dequeue : Patrolling (Walk.dequeue : WalkM σ (Option PathId)) := by
  refine get.bind fun w => ?_
  dsimp only
  split
  · exact pure _
  · split
    · exact pure _
    · exact bind (modify fun _ => ⟨rfl, rfl, rfl⟩) fun _ => pure _

/-- A visit begins at a path that was not removed. -/
theorem beginVisit (p : PathId) (requeued : Bool) :
    PatrollingFrom (fun s => s.Live p) (Walk.beginVisit p requeued : WalkM σ Unit) := by
  refine .bind_get fun w => .bind (.lift ?_) fun _ => modify fun _ => ⟨rfl, rfl, rfl⟩
  rintro s hs ⟨d, hd, hr⟩
  show s.Upkeep (after (p.modifyData _) s)
  rw [after_of_ok (p.modifyData_run hd _)]
  refine (hs.calm_modify _ fun e he => ?_).toUpkeep
  obtain rfl : d = e := Option.some.inj (hd.symm.trans he)
  exact ⟨⟨fun h => by simp [hr] at h, (hs.fit p d hd).adrift⟩, rfl, rfl⟩

theorem countRequeue (p : PathId) : Patrolling (Walk.countRequeue p : WalkM σ Unit) := by
  refine get.bind fun w => bind (lift (.of_quiet ?_)) fun _ => (question (.data p)).bind fun _ => ?_
  · exact .modifyData p fun d hd => ⟨⟨hd.removed, hd.adrift⟩, rfl, rfl⟩
  · exact ite ((question (.type? p)).bind fun _ => throw _) (pure _)

/-! ## Walks -/

/-- A walk on its own. -/
theorem isolated {body : WalkM σ Bool} (hbody : Patrolling body) :
    Patrolling (Walk.isolated body) := by
  intro w hw
  let start : Walk σ := { w with visited := 0, session := { w.session with stopping := false } }
  have hstart : w.session.Calm start.session := hw.calm_of_same rfl rfl rfl
  have hb := hbody start hstart.tidy
  have hafter : after (Walk.isolated body) w = Walk.resume w (after body start) := by
    simp only [after, Walk.isolated]
    cases body start <;> rfl
  have hend : (after body start).session.Calm (Walk.resume w (after body start)).session :=
    hb.tidy.calm_of_same rfl rfl rfl
  rw [hafter]
  exact (hstart.toUpkeep.trans hb).trans hend.toUpkeep

section Visitor

variable {v : Visitor σ}

/-- What the steps of a walk keep, at some fuel. -/
structure Rounds (v : Visitor σ) (fuel : Nat) : Prop where
  visit : ∀ depth p requeued, Patrolling (Walk.visit v fuel depth p requeued)
  drain : ∀ depth, Patrolling (Walk.drain v fuel depth)
  visitList : ∀ depth p owner f seen i, Patrolling (Walk.visitList v fuel depth p owner f seen i)
  visitFields : ∀ depth p node fields, Patrolling (Walk.visitFields v fuel depth p node fields)
  visitSingle : ∀ depth p, Patrolling (Walk.visitSingle v fuel depth p)

variable (hv : ∀ phase selector h, (phase, selector, h) ∈ v.entries → ∀ p, Patrolling (h p))

include hv

theorem handlers (p : PathId) (node : NodeId) (phase : Phase) (type : NodeType) :
    Patrolling (Walk.callAll p node (v.handlersFor phase type)) :=
  callAll p node fun h hh =>
    let ⟨selector, he⟩ := Visitor.mem_handlersFor hh
    hv phase selector h he p

/-- One visit, when what comes below it is in order. -/
theorem visit_succ {fuel : Nat} (ih : Rounds v fuel) (depth : Nat) (p : PathId) (requeued : Bool) :
    Patrolling (Walk.visit v (fuel + 1) depth p requeued) := by
  rw [Walk.visit]
  refine isStopping.bind fun _ => ite (pure _) (data_bind p (fun d hd => ?_) fun d hd => ?_)
  · rw [hd]
    split
    · next h => cases h
    · exact pure _
  · rw [hd]
    cases d.node with
    | none => exact .of_patrolling (pure _)
    | some node =>
      refine PatrollingFrom.bind_question (.ask _) fun type => .bind_get fun w => ?_
      refine .ite (.of_patrolling (pure _)) (.ite (.of_patrolling (throw _)) ?_)
      refine (beginVisit p requeued).bind fun _ => (handlers hv p node _ _).bind fun _ => ?_
      refine ite (mustStop p) ((ih.visitFields _ _ _ _).bind fun _ => ite (pure _) ?_)
      refine (question (.data p)).bind fun _ => ite (mustStop p) ((question (.ask _)).bind fun _ => ?_)
      exact (handlers hv p node _ _).bind fun _ => mustStop p

theorem rounds (fuel : Nat) : Rounds v fuel := by
  induction fuel with
  | zero =>
    exact ⟨fun _ _ _ => by rw [Walk.visit]; exact throw _, fun _ => by rw [Walk.drain]; exact throw _,
      fun _ _ _ _ _ _ => by rw [Walk.visitList]; exact throw _,
      fun _ _ _ _ => by rw [Walk.visitFields]; exact throw _,
      fun _ _ => by rw [Walk.visitSingle]; exact throw _⟩
  | succ fuel ih =>
    refine ⟨visit_succ hv ih, fun depth => ?_, fun depth p owner f seen i => ?_,
      fun depth p node fields => ?_, fun depth p => ?_⟩
    · rw [Walk.drain]
      refine dequeue.bind fun o => ?_
      cases o with
      | none => exact pure _
      | some p =>
        refine (lift (.resync p)).bind fun _ => (question (.isRemoved p)).bind fun _ => ?_
        refine ite (ih.drain depth) ((countRequeue p).bind fun _ => (ih.visit _ _ _).bind fun _ => ?_)
        exact ite (pure _) (ih.drain depth)
    · rw [Walk.visitList]
      refine (question (.node? p)).bind fun _ => ite (pure _) ?_
      refine (question (.listLength _ _)).bind fun _ => ite (pure _) ?_
      refine (lift (.of_quiet (Navigating.element p f i).quiet)).bind fun q => ?_
      refine (question (.node? q)).bind fun o => ?_
      cases o with
      | none => exact pure _
      | some node =>
        refine ite (ih.visitList _ _ _ _ _ _) ((ih.visit _ _ _).bind fun _ => ite (pure _) ?_)
        refine (ih.drain depth).bind fun _ => ite (pure _) ((lift (.resync q)).bind fun _ => ?_)
        exact (question (.data q)).bind fun _ => ih.visitList _ _ _ _ _ _
    · cases fields with
      | nil => rw [Walk.visitFields]; exact pure _
      | cons f fields =>
        rw [Walk.visitFields]
        refine (question (.node? p)).bind fun _ => ite (pure _) ((question (.ask _)).bind fun k => ?_)
        have hrest : ∀ stopped : Bool, Patrolling (do
            if stopped then Pure.pure true
            else Walk.visitFields v fuel depth p node fields) := fun _ =>
          ite (pure _) (ih.visitFields _ _ _ _)
        have hchild : Patrolling (do
            let child ← p.child f
            Walk.visitSingle v fuel depth child) :=
          (lift (.child p f)).bind fun q => ih.visitSingle depth q
        split
        · exact (withFrame (ih.visitList _ _ _ _ _ _)).bind hrest
        · exact (lift (.child p f)).bind fun q => (ih.visitSingle depth q).bind hrest
        · exact (lift (.child p f)).bind fun q => (ih.visitSingle depth q).bind hrest
        · exact (pure _).bind hrest
    · rw [Walk.visitSingle]
      refine (question (.node? p)).bind fun o => ?_
      cases o with
      | none => exact pure _
      | some _ => exact withFrame ((ih.visit _ _ _).bind fun _ => ite (pure _) (ih.drain depth))

theorem traverse : Patrolling (traverse v) :=
  isolated ((lift (.of_quiet Navigating.rootPath.quiet)).bind fun root =>
    (rounds hv _).visitSingle 0 root)

theorem traverseNode (p : PathId) : Patrolling (p.traverse v) := by
  refine (question (.node? p)).bind fun o => ?_
  cases o with
  | none => exact pure _
  | some node =>
    exact isolated ((question (.ask _)).bind fun _ => (rounds hv _).visitFields 0 p node _)

end Visitor

end Patrolling

/-- A walk that is run on a session. -/
theorem Tidying.runOn {x : WalkM σ α} (hx : Patrolling x) (own : σ) : Tidying (x.runOn own) := by
  intro s hs
  have hafter : after (x.runOn own) s = (after x { session := s, own }).session := by
    simp only [after, WalkM.runOn]
    cases x { session := s, own } <;> rfl
  rw [hafter]
  exact hx { session := s, own } hs

end Espalier
