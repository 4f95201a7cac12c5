import Espalier.Edit.Insert
import Espalier.Proofs.Clients
import Espalier.Proofs.Edits

set_option autoImplicit false

/-! # Frames and the wish to stop

A walk opens frames and closes them again, and it puts back the wish to stop that it found. So no
call leaves a frame open, and none but `stop` touches the wish to stop, however many walks it starts
and however they end (`Editing.steadying`, `Steadying.traverse`). Programs of clients and the steps
of a walk can only add the wish to stop (`Striding`). All this needs the frames to have numbers below
the next one, as a walk closes its frames by their numbers. -/

namespace Espalier

open SessionM Session

variable {σ α β : Type}

namespace Session

/-- Every frame has a number that was given out. -/
def Numbered (s : Session) : Prop := ∀ f ∈ s.frames, f.id < s.nextFrame

/-- The frames are those of before, but for what is queued in them. No number is taken back, no path
is forgotten, and a wish to stop remains. -/
structure Onward (s s' : Session) : Prop where
  frames : s'.frames.map Frame.id = s.frames.map Frame.id
  later : s.nextFrame ≤ s'.nextFrame
  known : s.paths.size ≤ s'.paths.size
  stopping : s.stopping = true → s'.stopping = true

/-- Nor was it asked to stop. -/
structure Steady (s s' : Session) : Prop extends Onward s s' where
  still : s'.stopping = s.stopping

variable {s s₁ s' : Session}

/-- Nothing happened to the frames, and the wish to stop is as it was. -/
theorem Steady.of_same (hframes : s'.frames = s.frames) (hnext : s'.nextFrame = s.nextFrame)
    (hpaths : s.paths.size ≤ s'.paths.size) (hstop : s'.stopping = s.stopping) : s.Steady s' :=
  ⟨⟨by rw [hframes], hnext.ge, hpaths, fun h => hstop.trans h⟩, hstop⟩

theorem Onward.refl (s : Session) : s.Onward s := ⟨rfl, le_rfl, le_rfl, id⟩

theorem Onward.trans (h₁ : s.Onward s₁) (h₂ : s₁.Onward s') : s.Onward s' :=
  ⟨h₂.frames.trans h₁.frames, h₁.later.trans h₂.later, h₁.known.trans h₂.known,
    fun h => h₂.stopping (h₁.stopping h)⟩

theorem Steady.refl (s : Session) : s.Steady s := ⟨.refl s, rfl⟩

theorem Steady.trans (h₁ : s.Steady s₁) (h₂ : s₁.Steady s') : s.Steady s' :=
  ⟨h₁.toOnward.trans h₂.toOnward, h₂.still.trans h₁.still⟩

/-- The numbers of the frames tell whether they are in order. -/
theorem numbered_iff : s.Numbered ↔ ∀ i ∈ s.frames.map Frame.id, i < s.nextFrame := by
  simp only [Numbered, List.mem_map, forall_exists_index, and_imp, forall_apply_eq_imp_iff₂]

theorem Onward.numbered (h : s.Onward s') (hs : s.Numbered) : s'.Numbered := by
  rw [numbered_iff] at hs ⊢
  rw [h.frames]
  exact fun i hi => (hs i hi).trans_le h.later

end Session

/-! ## Calls -/

/-- The computation leaves no frame open and does not touch the wish to stop. -/
def Steadying (x : SessionM α) : Prop := Leads (fun s s' => s.Numbered → s.Steady s') x

namespace Steadying

theorem steady_refl (s : Session) (_ : s.Numbered) : s.Steady s := .refl s

theorem steady_trans (s s₁ s₂ : Session) (h₁ : s.Numbered → s.Steady s₁)
    (h₂ : s₁.Numbered → s₁.Steady s₂) (h : s.Numbered) : s.Steady s₂ :=
  (h₁ h).trans (h₂ ((h₁ h).numbered h))

theorem pure (a : α) : Steadying (pure a : SessionM α) := Leads.pure steady_refl a

theorem bind {x : SessionM α} {f : α → SessionM β} (hx : Steadying x)
    (hf : ∀ a, Steadying (f a)) : Steadying (x >>= f) := Leads.bind steady_trans hx hf

/-- Computations that are composed of steady ones are steady. -/
theorem composed {Primitive : (α : Type) → SessionM α → Prop} {x : SessionM α}
    (hx : Composed Primitive x) (h : ∀ α (x : SessionM α), Primitive α x → Steadying x) :
    Steadying x := hx.leads steady_refl steady_trans h

theorem question {x : SessionM α} (hx : Composed (fun _ _ => False) x) : Steadying x :=
  composed hx fun _ _ h => h.elim

/-- A change of other things that forgets no path. -/
theorem aside {x : SessionM α} (h : ∀ s, (after x s).frames = s.frames ∧
    (after x s).nextFrame = s.nextFrame ∧ s.paths.size ≤ (after x s).paths.size ∧
    (after x s).stopping = s.stopping) : Steadying x :=
  fun s _ => .of_same (h s).1 (h s).2.1 (h s).2.2.1 (h s).2.2.2

theorem onTree (build : TreeM α) : Steadying (onTree build) := by
  refine aside fun s => ?_
  cases h : build.run s.tree with
  | none =>
    rw [after_of_error (onTree_dangling h)]
    exact ⟨rfl, rfl, le_rfl, rfl⟩
  | some r =>
    rw [after_of_ok (onTree_run h)]
    exact ⟨rfl, rfl, le_rfl, rfl⟩

theorem modifyData (p : PathId) (f : PathData → PathData) : Steadying (p.modifyData f) :=
  bind (question (.data p)) fun _ => aside fun _ => ⟨rfl, rfl, (Array.size_modify ..).ge, rfl⟩

theorem unfile (c : Container) (p : PathId) : Steadying (unfile c p) := by
  refine aside fun s => ?_
  have hafter : after (Espalier.unfile c p) s = s.unfiled c p := rfl
  rw [hafter, unfiled]
  split
  · exact ⟨rfl, rfl, le_rfl, rfl⟩
  · exact ⟨rfl, rfl, le_rfl, rfl⟩

theorem fileUnder (c : Container) (p : PathId) : Steadying (fileUnder c p) :=
  aside fun _ => ⟨rfl, rfl, le_rfl, rfl⟩

theorem cacheStep {x : SessionM α} (h : CacheStep α x) : Steadying x := by
  cases h with
  | alloc d => exact aside fun _ => ⟨rfl, rfl, (Nat.le_succ _).trans (Array.size_push d).ge, rfl⟩
  | fileUnder c p => exact fileUnder c p
  | modifyData p f => exact modifyData p f
  | stray parent p => exact aside fun _ => ⟨rfl, rfl, le_rfl, rfl⟩

theorem pathFor (parent : Option PathId) (c : Container) (k : Key) :
    Steadying (pathFor parent c k) :=
  composed (pathFor_caching parent c k) fun _ _ => cacheStep

theorem hop {x : SessionM α} (h : Hop α x) : Steadying x := composed h.caching fun _ _ => cacheStep

theorem chartStep {x : SessionM α} (h : ChartStep α x) : Steadying x := by
  cases h with
  | hop h => exact hop h
  | create block parent =>
    refine (question (.type? block)).bind fun type => (question (.node? block)).bind fun node => ?_
    exact aside fun _ => ⟨rfl, rfl, le_rfl, rfl⟩
  | write g => exact aside fun _ => ⟨rfl, rfl, le_rfl, rfl⟩

theorem charting {x : SessionM α} (hx : Charting x) : Steadying x :=
  composed hx fun _ _ => chartStep

/-- Queueing a path opens no frame. -/
theorem map_id_enqueue (p : PathId) (frame : Nat) (frames : List Frame) :
    (PathId.requeue.enqueue p frame frames).map Frame.id = frames.map Frame.id := by
  induction frames with
  | nil => rfl
  | cons f frames ih =>
    unfold PathId.requeue.enqueue
    split
    · rw [List.map_cons, List.map_cons]
      split <;> rfl
    · rw [List.map_cons, List.map_cons, ih]

theorem requeue (p : PathId) : Steadying p.requeue := by
  refine (question (.data p)).bind fun d => ?_
  split
  · exact fun s _ => ⟨⟨map_id_enqueue p _ s.frames, le_rfl, le_rfl, id⟩, rfl⟩
  · exact pure _

theorem editStep {x : SessionM α} (h : EditStep α x) : Steadying x := by
  cases h with
  | name h => exact charting (Naming.charting (.primitive h))
  | onTree build => exact onTree build
  | plant node => exact aside fun _ => ⟨rfl, rfl, le_rfl, rfl⟩
  | modifyData p f => exact modifyData p f
  | unfile c p => exact unfile c p
  | fileUnder c p => exact fileUnder c p
  | recordMutation => exact aside fun _ => ⟨rfl, rfl, le_rfl, rfl⟩
  | requeue p => exact requeue p

end Steadying

/-! ## Steps of a walk -/

/-- What every walk keeps, if its handlers keep it: what can be said of a walk before and after, and
survives the steps of edits, the count of visits, a look at the queue and work in a frame of its
own. -/
structure Walk.Kept (R : Walk σ → Walk σ → Prop) : Prop where
  refl : ∀ w, R w w
  trans : ∀ w w₁ w₂, R w w₁ → R w₁ w₂ → R w w₂
  step : ∀ {α : Type} {x : SessionM α}, Stepwise x → Leads R (WalkM.onSession x : WalkM σ α)
  count : Leads R (modify fun w => { w with visited := w.visited + 1 } : WalkM σ PUnit)
  dequeue : Leads R (Walk.dequeue : WalkM σ (Option PathId))
  framed : ∀ {body : WalkM σ Bool}, Leads R body → Leads R (Walk.withFrame body)

namespace Walk.Kept

variable {R : Walk σ → Walk σ → Prop} (hR : Kept R)

include hR

theorem pure (a : α) : Leads R (pure a : WalkM σ α) := .pure hR.refl a

theorem throw (e : Failure) : Leads R (throw e : WalkM σ α) := .throw hR.refl e

theorem get : Leads R (get : WalkM σ (Walk σ)) := .get hR.refl

theorem bind {x : WalkM σ α} {f : α → WalkM σ β} (hx : Leads R x) (hf : ∀ a, Leads R (f a)) :
    Leads R (x >>= f) := .bind hR.trans hx hf

theorem question {x : SessionM α} (hx : Composed (fun _ _ => False) x) :
    Leads R (WalkM.onSession x : WalkM σ α) := hR.step (.question hx)

omit hR in
theorem ite {c : Prop} [Decidable c] {x y : WalkM σ α} (hx : Leads R x) (hy : Leads R y) :
    Leads R (if c then x else y) := by
  split
  · exact hx
  · exact hy

theorem isStopping : Leads R (Walk.isStopping : WalkM σ Bool) := hR.bind hR.get fun _ => hR.pure _

theorem mustStop (p : PathId) : Leads R (Walk.mustStop p : WalkM σ Bool) :=
  hR.bind (hR.question (.data p)) fun _ => hR.bind hR.isStopping fun _ => hR.pure _

theorem isInterrupted (p : PathId) (node : NodeId) :
    Leads R (Walk.isInterrupted p node : WalkM σ Bool) :=
  hR.bind (hR.question (.data p)) fun _ => hR.bind hR.isStopping fun _ => hR.pure _

theorem callAll (p : PathId) (node : NodeId) {hs : List (Handler σ)}
    (h : ∀ h ∈ hs, Leads R (h p)) : Leads R (Walk.callAll p node hs) := by
  induction hs with
  | nil => exact hR.isInterrupted p node
  | cons handler hs ih =>
    refine hR.bind (hR.isInterrupted p node) fun _ => ite (hR.pure _) ?_
    exact hR.bind (h handler (by simp)) fun _ => ih fun h' hh' => h h' (by simp [hh'])

theorem beginVisit (p : PathId) (requeued : Bool) :
    Leads R (Walk.beginVisit p requeued : WalkM σ Unit) :=
  hR.bind hR.get fun _ => hR.bind (hR.step (.modifyData p _)) fun _ => hR.count

theorem countRequeue (p : PathId) : Leads R (Walk.countRequeue p : WalkM σ Unit) := by
  refine hR.bind hR.get fun w => hR.bind (hR.step (.modifyData p _)) fun _ => ?_
  refine hR.bind (hR.question (.data p)) fun _ => ite ?_ (hR.pure _)
  exact hR.bind (hR.question (.type? p)) fun _ => hR.throw _

end Walk.Kept

/-- What the steps of a walk keep, at some fuel. -/
structure Walk.Steps (R : Walk σ → Walk σ → Prop) (v : Visitor σ) (fuel : Nat) : Prop where
  visit : ∀ depth p requeued, Leads R (visit v fuel depth p requeued)
  drain : ∀ depth, Leads R (drain v fuel depth)
  visitList : ∀ depth p owner f seen i, Leads R (visitList v fuel depth p owner f seen i)
  visitFields : ∀ depth p node fields, Leads R (visitFields v fuel depth p node fields)
  visitSingle : ∀ depth p, Leads R (visitSingle v fuel depth p)

namespace Walk.Kept

variable {R : Walk σ → Walk σ → Prop} (hR : Kept R) {v : Visitor σ}
  (hv : ∀ phase selector h, (phase, selector, h) ∈ v.entries → ∀ p, Leads R (h p))

include hR hv

theorem handlers (p : PathId) (node : NodeId) (phase : Phase) (type : NodeType) :
    Leads R (Walk.callAll p node (v.handlersFor phase type)) :=
  hR.callAll p node fun h hh =>
    let ⟨selector, he⟩ := Visitor.mem_handlersFor hh
    hv phase selector h he p

/-- One visit, when what comes below it is in order. -/
theorem visit_succ {fuel : Nat} (ih : Steps R v fuel) (depth : Nat) (p : PathId)
    (requeued : Bool) : Leads R (visit v (fuel + 1) depth p requeued) := by
  rw [visit]
  refine hR.bind hR.isStopping fun _ => ite (hR.pure _) ?_
  refine hR.bind (hR.question (.data p)) fun d => ?_
  split
  · next node _ _ =>
    refine hR.bind (hR.question (.ask _)) fun type => hR.bind hR.get fun w => ?_
    refine ite (hR.pure _) (ite (hR.throw _) ?_)
    refine hR.bind (hR.beginVisit p requeued) fun _ => ?_
    refine hR.bind (hR.handlers hv p node _ _) fun _ => ite (hR.mustStop p) ?_
    refine hR.bind (ih.visitFields _ _ _ _) fun _ => ite (hR.pure _) ?_
    refine hR.bind (hR.question (.data p)) fun _ => ite (hR.mustStop p) ?_
    refine hR.bind (hR.question (.ask _)) fun _ => ?_
    exact hR.bind (hR.handlers hv p node _ _) fun _ => hR.mustStop p
  · exact hR.pure _

/-- Every walk keeps what its steps keep. -/
theorem steps (fuel : Nat) : Steps R v fuel := by
  induction fuel with
  | zero =>
    exact ⟨fun _ _ _ => by rw [visit]; exact hR.throw _, fun _ => by rw [drain]; exact hR.throw _,
      fun _ _ _ _ _ _ => by rw [visitList]; exact hR.throw _,
      fun _ _ _ _ => by rw [visitFields]; exact hR.throw _,
      fun _ _ => by rw [visitSingle]; exact hR.throw _⟩
  | succ fuel ih =>
    refine ⟨hR.visit_succ hv ih, fun depth => ?_, fun depth p owner f seen i => ?_,
      fun depth p node fields => ?_, fun depth p => ?_⟩
    · rw [drain]
      refine hR.bind hR.dequeue fun o => ?_
      cases o with
      | none => exact hR.pure _
      | some p =>
        refine hR.bind (hR.step (.resync p)) fun _ => hR.bind (hR.question (.isRemoved p)) fun _ => ?_
        refine ite (ih.drain depth) (hR.bind (hR.countRequeue p) fun _ => ?_)
        exact hR.bind (ih.visit _ _ _) fun _ => ite (hR.pure _) (ih.drain depth)
    · rw [visitList]
      refine hR.bind (hR.question (.node? p)) fun _ => ite (hR.pure _) ?_
      refine hR.bind (hR.question (.listLength _ _)) fun _ => ite (hR.pure _) ?_
      refine hR.bind (hR.step (.of_navigating (.element p f i))) fun q => hR.bind (hR.question (.node? q)) fun o => ?_
      cases o with
      | none => exact hR.pure _
      | some node =>
        refine ite (ih.visitList _ _ _ _ _ _) (hR.bind (ih.visit _ _ _) fun _ => ?_)
        refine ite (hR.pure _) (hR.bind (ih.drain depth) fun _ => ite (hR.pure _) ?_)
        refine hR.bind (hR.step (.resync q)) fun _ => hR.bind (hR.question (.data q)) fun _ => ?_
        exact ih.visitList _ _ _ _ _ _
    · cases fields with
      | nil => rw [visitFields]; exact hR.pure _
      | cons f fields =>
        rw [visitFields]
        refine hR.bind (hR.question (.node? p)) fun _ => ite (hR.pure _) ?_
        refine hR.bind (hR.question (.ask _)) fun k => ?_
        have hrest : ∀ stopped : Bool, Leads R (do
            if stopped then Pure.pure true else visitFields v fuel depth p node fields) := fun _ =>
          ite (hR.pure _) (ih.visitFields _ _ _ _)
        have hchild : Leads R (do
            let child ← p.child f
            let stopped ← visitSingle v fuel depth child
            if stopped then Pure.pure true else visitFields v fuel depth p node fields) :=
          hR.bind (hR.step (.of_navigating (.child p f))) fun q => hR.bind (ih.visitSingle depth q) hrest
        split
        · exact hR.bind (hR.framed (ih.visitList _ _ _ _ _ _)) hrest
        · exact hchild
        · exact hchild
        · exact hR.bind (hR.pure _) hrest
    · rw [visitSingle]
      refine hR.bind (hR.question (.node? p)) fun o => ?_
      cases o with
      | none => exact hR.pure _
      | some _ =>
        exact hR.framed (hR.bind (ih.visit _ _ _) fun _ => ite (hR.pure _) (ih.drain depth))

end Walk.Kept

/-! ## Walks -/

/-- The computation closes the frames that it opens, and does not take back a wish to stop. -/
def Striding (x : WalkM σ α) : Prop :=
  Leads (fun w w' => w.session.Numbered → w.session.Onward w'.session) x

namespace Striding

theorem onward_refl (w : Walk σ) (_ : w.session.Numbered) : w.session.Onward w.session := .refl _

theorem onward_trans (w w₁ w₂ : Walk σ) (h₁ : w.session.Numbered → w.session.Onward w₁.session)
    (h₂ : w₁.session.Numbered → w₁.session.Onward w₂.session) (h : w.session.Numbered) :
    w.session.Onward w₂.session := (h₁ h).trans (h₂ ((h₁ h).numbered h))

theorem lift {x : SessionM α} (hx : Steadying x) : Striding (WalkM.onSession x : WalkM σ α) := by
  intro w hw
  rw [WalkM.after_onSession]
  exact (hx w.session hw).toOnward

end Striding

/-- What happens in a frame of its own leaves the other frames as they were. -/
theorem Walk.onward_dropFrame {w w' : Walk σ} (hw : w.session.Numbered)
    (h : (pushFrame w).session.Onward w'.session) :
    w.session.Onward (dropFrame w.session.nextFrame w').session := by
  refine ⟨?_, (Nat.le_succ _).trans h.later, h.known, h.stopping⟩
  have hdrop : (dropFrame w.session.nextFrame w').session.frames.map Frame.id =
      (w'.session.frames.map Frame.id).filter fun i => decide (i ≠ w.session.nextFrame) := by
    rw [List.filter_map]
    rfl
  have hkept : (w.session.frames.map Frame.id).filter (fun i => decide (i ≠ w.session.nextFrame)) =
      w.session.frames.map Frame.id :=
    List.filter_eq_self.mpr fun i hi => decide_eq_true (numbered_iff.mp hw i hi).ne
  rw [hdrop, h.frames]
  exact (List.filter_cons_of_neg (by simp)).trans hkept

theorem Walk.numbered_pushFrame {w : Walk σ} (hw : w.session.Numbered) :
    (pushFrame w).session.Numbered := by
  intro f hf
  rcases List.mem_cons.mp hf with rfl | hf
  · exact Nat.lt_succ_self _
  · exact (hw f hf).trans (Nat.lt_succ_self _)

/-- The walk after something was done in a frame of its own. -/
theorem Walk.after_withFrame (body : WalkM σ α) (w : Walk σ) :
    after (withFrame body) w = dropFrame w.session.nextFrame (after body (pushFrame w)) := by
  show after (ensuring body (dropFrame w.session.nextFrame)) (pushFrame w) = _
  simp only [after, ensuring]
  cases body (pushFrame w) <;> rfl

theorem Steadying.stepwise {x : SessionM α} (hx : Stepwise x) : Steadying x :=
  composed hx fun _ _ => editStep

/-- Taking a path off a queue opens and closes no frame. -/
theorem Walk.dequeue_run (w : Walk σ) : ∃ o frames,
    dequeue w = .ok o { w with session := { w.session with frames } } ∧
      frames.map Frame.id = w.session.frames.map Frame.id := by
  have hsame : (pure none : WalkM σ (Option PathId)) w =
      .ok none { w with session := { w.session with frames := w.session.frames } } := rfl
  unfold dequeue
  rw [run_get_bind]
  dsimp only
  cases hframes : w.session.frames with
  | nil => exact ⟨none, _, hsame, by rw [hframes]⟩
  | cons f rest =>
    dsimp only
    cases f.queue with
    | nil => exact ⟨none, _, hsame, by rw [hframes]⟩
    | cons p queue => exact ⟨some p, { f with queue } :: rest, rfl, rfl⟩

theorem Striding.kept : Walk.Kept (σ := σ) fun w w' =>
    w.session.Numbered → w.session.Onward w'.session where
  refl := onward_refl
  trans := onward_trans
  step hx := lift (.stepwise hx)
  count _ _ := .refl _
  dequeue w _ := by
    obtain ⟨o, frames, hrun, hids⟩ := Walk.dequeue_run w
    rw [after_of_ok hrun]
    exact ⟨hids, le_rfl, le_rfl, id⟩
  framed hbody w hw := by
    rw [Walk.after_withFrame]
    exact Walk.onward_dropFrame hw (hbody _ (Walk.numbered_pushFrame hw))

/-- A walk on its own ends with the frames, and the wish to stop, that it found. -/
theorem Walk.isolated_steady {body : WalkM σ Bool} (hbody : Striding body) {w : Walk σ}
    (hw : w.session.Numbered) : w.session.Steady (after (isolated body) w).session := by
  let start : Walk σ := { w with visited := 0, session := { w.session with stopping := false } }
  have hb := hbody start hw
  have hafter : after (isolated body) w = resume w (after body start) := by
    simp only [after, isolated]
    cases body start <;> rfl
  have hlength : (after body start).session.frames.length = w.session.frames.length := by
    rw [← List.length_map Frame.id, hb.frames, List.length_map]
  have hframes : (resume w (after body start)).session.frames = (after body start).session.frames := by
    show List.drop (_ - _) _ = _
    rw [hlength, Nat.sub_self, List.drop_zero]
  rw [hafter]
  exact ⟨⟨by rw [hframes]; exact hb.frames, hb.later, hb.known, id⟩, rfl⟩

/-- What is known before a walk starts on its own. -/
theorem Walk.leads_isolated {body : WalkM σ Bool} (hbody : Striding body) :
    Leads (fun w w' => w.session.Numbered → w.session.Steady w'.session) (isolated body) :=
  fun _ hw => isolated_steady hbody hw

section Visitor

variable {v : Visitor σ}
  (hv : ∀ phase selector h, (phase, selector, h) ∈ v.entries → ∀ p, Striding (h p))

include hv

/-- A walk over the whole tree leaves no frame open and puts back the wish to stop. -/
theorem traverse_steady : Leads (fun w w' : Walk σ =>
    w.session.Numbered → w.session.Steady w'.session) (traverse v) :=
  Walk.leads_isolated (Striding.kept.bind (Striding.kept.step (.of_navigating .rootPath))
    fun root => (Striding.kept.steps hv _).visitSingle 0 root)

/-- So does a walk below a path. -/
theorem traverseNode_steady (p : PathId) : Leads (fun w w' : Walk σ =>
    w.session.Numbered → w.session.Steady w'.session) (p.traverse v) := by
  have htrans : ∀ w w₁ w₂ : Walk σ, (w.session.Numbered → w.session.Steady w₁.session) →
      (w₁.session.Numbered → w₁.session.Steady w₂.session) → w.session.Numbered →
      w.session.Steady w₂.session := fun w w₁ w₂ => Steadying.steady_trans _ _ _
  refine Leads.bind htrans (fun w hw => ?_) fun o => ?_
  · have hafter : after (liftM p.node? : WalkM σ _) w = _ := WalkM.after_onSession p.node? w
    rw [hafter]
    exact Steadying.question (.node? p) w.session hw
  · cases o with
    | none => exact fun w _ => .refl _
    | some node =>
      exact Walk.leads_isolated (Striding.kept.bind (Striding.kept.question (.ask _)) fun _ =>
        (Striding.kept.steps hv _).visitFields 0 p node _)

end Visitor

/-! ## Edits and client programs -/

/-- What a walk that is run on a session leaves behind. -/
theorem WalkM.after_runOn (x : WalkM σ α) (own : σ) (s : Session) :
    after (x.runOn own) s = (after x { session := s, own }).session := by
  simp only [after, WalkM.runOn]
  cases x { session := s, own } <;> rfl

/-- No edit leaves a frame open or touches the wish to stop. -/
theorem Editing.steadying {x : SessionM α} (hx : Editing x) : Steadying x := by
  refine hx.leads Steadying.steady_refl Steadying.steady_trans (fun _ _ => Steadying.editStep) ?_
  intro entries p hentries s hs
  rw [WalkM.after_runOn]
  refine traverseNode_steady (fun phase selector h hh q => ?_) p { session := s, own := () } hs
  obtain ⟨e, he, heq⟩ := List.mem_map.mp hh
  simp only [Prod.mk.injEq] at heq
  obtain ⟨-, -, rfl⟩ := heq
  exact .lift (hentries e he q)

/-- No call leaves a frame open or takes back a wish to stop. -/
theorem Call.onward {x : SessionM α} (hx : Call x) :
    Leads (fun s s' => s.Numbered → s.Onward s') x := by
  have hedit : ∀ {x : SessionM α}, Editing x → Leads (fun s s' => s.Numbered → s.Onward s') x :=
    fun hx s hs => (hx.steadying s hs).toOnward
  have hsame : ∀ s s' : Session, s'.frames = s.frames → s'.nextFrame = s.nextFrame →
      s.paths.size ≤ s'.paths.size → s'.stopping = s.stopping → s.Onward s' :=
    fun s s' h₁ h₂ h₃ h₄ => (Steady.of_same h₁ h₂ h₃ h₄).toOnward
  have hkept : ∀ s : Session, s.paths.size ≤ s.clearScopes.paths.size := fun s =>
    (Array.size_map ..).ge
  cases hx with
  | navigate hx => exact hedit (.of_navigating hx)
  | pathFor parent c k => exact fun s hs => (Steadying.pathFor parent c k s hs).toOnward
  | infer hx =>
    refine fun s hs => (Steadying.composed hx (fun _ _ step => ?_) s hs).toOnward
    cases step with
    | glance glance => exact .charting (Searching.charting (.primitive glance))
    | answer p type => exact .modifyData p _
  | chart hx => exact fun s hs => (Steadying.charting hx s hs).toOnward
  | resync p => exact hedit (.resync p)
  | setNote p name value => exact hedit (.modifyData p _)
  | requeue p => exact hedit (.requeue p)
  | skip p => exact hedit (.modifyData p _)
  | stop p =>
    refine Leads.bind (fun s s₁ s₂ h₁ h₂ hs => (h₁ hs).trans (h₂ ((h₁ hs).numbered hs)))
      (fun s hs => (Steadying.modifyData p _ s hs).toOnward) fun _ s _ => ?_
    exact ⟨rfl, le_rfl, le_rfl, fun _ => rfl⟩
  | replaceWith p offer => exact hedit (.replaceWith p offer)
  | replaceWithMultiple p nodes => exact hedit (.replaceWithMultiple p nodes)
  | replaceInline p nodes => exact hedit (.replaceInline p nodes)
  | replaceExpressionWithStatements p nodes =>
    exact hedit (.replaceExpressionWithStatements p nodes)
  | replaceWithSource p text => exact hedit (.replaceWithSource p text)
  | insertBefore p nodes => exact hedit (.insertBeside p nodes false)
  | insertAfter p nodes => exact hedit (.insertBeside p nodes true)
  | unshiftInto p f nodes => exact hedit (.unshiftInto p f nodes)
  | pushInto p f nodes => exact hedit (.pushInto p f nodes)
  | remove p => exact hedit (.remove p)
  | pushDeclaration i name init => exact hedit (.pushDeclaration i name init)
  | generateDeclaredUid i text => exact hedit (.generateDeclaredUid i text)
  | onTree build => exact hedit (.onTree build)
  | setParser parser => exact fun s _ => hsame s _ rfl rfl le_rfl rfl
  | clear => exact fun s _ => hsame s _ rfl rfl (hkept s.clearPaths) rfl
  | clearPaths => exact fun s _ => hsame s _ rfl rfl le_rfl rfl
  | clearScopes => exact fun s _ => hsame s _ rfl rfl (hkept s) rfl

/-- Whatever a client does, it closes the frames that it opens and takes no wish to stop back. -/
theorem Client.striding {x : WalkM σ α} (hx : Client x) : Striding x := by
  induction hx with
  | pure a => exact Striding.kept.pure a
  | throw e => exact Striding.kept.throw e
  | get => exact Striding.kept.get
  | own f => exact fun w _ => .refl _
  | call hx =>
    intro w hw
    rw [WalkM.after_onSession]
    exact hx.onward w.session hw
  | bind _ _ ihx ihf => exact Striding.kept.bind ihx ihf
  | @recover σ α x f _ _ ihx ihf =>
    intro w hw
    have h := ihx w hw
    rw [after_tryCatch]
    cases hrun : x w with
    | ok a w' => rwa [after_of_ok hrun] at h
    | error e w' =>
      rw [after_of_error hrun] at h
      exact h.trans (ihf e w' (h.numbered hw))
  | traverse v _ ih => exact fun w hw => (traverse_steady ih w hw).toOnward
  | traverseNode v p _ ih => exact fun w hw => (traverseNode_steady ih p w hw).toOnward
  | @inside σ τ α x own _ ih =>
    intro w hw
    rw [WalkM.after_onSession, WalkM.after_runOn]
    exact ih { session := w.session, own } hw

end Espalier
