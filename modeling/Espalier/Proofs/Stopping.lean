import Espalier.Proofs.Recording
import Espalier.Proofs.Steadiness

set_option autoImplicit false

/-! # Stopping a walk

A handler that calls `stop` and succeeds is the last handler that its walk calls: the walk ends at
once and reports that it was stopped. The wish to stop does not leave the walk; neither do the frames
that the walk opened (`stop_is_final`).

The wish to stop is one flag for all walks. A walk asks for it after each handler, and nothing
between two questions can raise it, so at each step of a walk either nobody asked to stop
(`Walk.Going`), or the last handler that was called did and the walk is on its way out
(`Walk.Halted`). -/

namespace Espalier

open SessionM Session WalkM

variable {σ ρ α β : Type}

/-! ## Programs that stop -/

/-- The handlers are programs of clients. -/
def Visitor.Programmed (v : Visitor σ) : Prop :=
  ∀ phase selector h, (phase, selector, h) ∈ v.entries → ∀ p, Client (h p)

/-- The sessions that programs of clients work on: those that were opened, those that a program
leaves behind, whether it succeeds or fails, and those that a handler finds when it is called. -/
inductive Session.Met : Session → Prop
  | opened {tree : Tree} {config : Config} {s : Session} :
      Session.open? tree config = .ok s → Met s
  | used {s : Session} {σ α : Type} {x : WalkM σ α} (own : σ) (visited : Nat) :
      Met s → Client x → Met (after x { session := s, own, visited }).session
  | amid {σ : Type} {v : Visitor σ} {e : Extent} {w : Walk σ} {f : Firing σ} :
      Met w.session → v.Programmed → f ∈ e.firings v w → Met f.found.session

/-- The program of a client calls `stop` when it is run, outside of the walks that it starts. -/
inductive Stops : {σ α : Type} → WalkM σ α → Walk σ → Prop
  | stop {σ : Type} {p : PathId} {w : Walk σ} {d : PathData} :
      w.session.paths[p.index]? = some d → Stops (onSession p.stop : WalkM σ Unit) w
  | first {σ α β : Type} {x : WalkM σ α} {f : α → WalkM σ β} {w : Walk σ} :
      Stops x w → Client x → (∀ a, Client (f a)) → Stops (x >>= f) w
  | next {σ α β : Type} {x : WalkM σ α} {f : α → WalkM σ β} {w w' : Walk σ} {a : α} :
      x w = .ok a w' → Client x → Stops (f a) w' → Stops (x >>= f) w
  | tried {σ α : Type} {x : WalkM σ α} {f : Failure → WalkM σ α} {w : Walk σ} :
      Stops x w → Client x → (∀ e, Client (f e)) → Stops (tryCatch x f) w
  | recovered {σ α : Type} {x : WalkM σ α} {f : Failure → WalkM σ α} {w w' : Walk σ}
      {e : Failure} : x w = .error e w' → Client x → Stops (f e) w' → Stops (tryCatch x f) w
  | inside {σ τ α : Type} {x : WalkM τ α} {w : Walk σ} (own : τ) :
      Stops x { session := w.session, own } → Stops (onSession (x.runOn own) : WalkM σ (α × τ)) w

/-- A program that called `stop` leaves the wish to stop. -/
theorem Stops.stopping {x : WalkM σ α} {w : Walk σ} (h : Stops x w) (hw : w.session.Numbered) :
    (after x w).session.stopping = true := by
  induction h with
  | @stop σ p w d hd =>
    rw [after_onSession]
    show (after p.stop w.session).stopping = true
    unfold PathId.stop
    rw [after_bind_of_ok (p.modifyData_run hd _)]
    rfl
  | @first σ α β x f w _ _ hf ih =>
    have hx := ih hw
    cases hrun : x w with
    | ok a w' =>
      rw [after_of_ok hrun] at hx
      rw [after_bind_of_ok hrun]
      have hnum : w'.session.Numbered := by
        have := ‹Client x›.striding w hw
        rw [after_of_ok hrun] at this
        exact this.numbered hw
      exact ((hf a).striding w' hnum).stopping hx
    | error e w' =>
      rw [after_of_error hrun] at hx
      rwa [after_of_error (bind_of_error hrun)]
  | @next σ α β x f w w' a hrun hx _ ih =>
    rw [after_bind_of_ok hrun]
    have h := hx.striding w hw
    rw [after_of_ok hrun] at h
    exact ih (h.numbered hw)
  | @tried σ α x f w _ hx hf ih =>
    have h := ih hw
    have hstride := hx.striding w hw
    rw [after_tryCatch]
    cases hrun : x w with
    | ok a w' => rwa [after_of_ok hrun] at h
    | error e w' =>
      rw [after_of_error hrun] at h hstride
      exact ((hf e).striding w' (hstride.numbered hw)).stopping h
  | @recovered σ α x f w w' e hrun hx _ ih =>
    have h := hx.striding w hw
    rw [after_of_error hrun] at h
    rw [after_tryCatch, hrun]
    exact ih (h.numbered hw)
  | inside own _ ih =>
    rw [after_onSession, after_runOn]
    exact ih hw

/-! ## What goes on during a walk -/

/-- The handler that was called succeeded and left the wish to stop. -/
def Firing.Ends (v : Visitor σ) (f : Firing σ) : Prop :=
  ∃ phase selector h w', v.entries[f.entry]? = some (phase, selector, h) ∧
    h f.path f.found = .ok () w' ∧ w'.session.stopping = true

namespace Walk

/-- No handler on record ended its walk. -/
def Clean (v : Visitor σ) (w : Walk (σ × List (Firing σ))) : Prop := ∀ f ∈ w.own.2, ¬ f.Ends v

/-- Nobody has asked to stop. -/
structure Going (v : Visitor σ) (w : Walk (σ × List (Firing σ))) : Prop where
  numbered : w.session.Numbered
  still : w.session.stopping = false
  clean : Clean v w

/-- The handler that was called last has asked to stop. -/
structure Halted (v : Visitor σ) (w : Walk (σ × List (Firing σ))) : Prop where
  stopping : w.session.stopping = true
  last : ∃ log f, w.own.2 = log ++ [f] ∧ ∀ g ∈ log, ¬ g.Ends v

variable {v : Visitor σ} {w : Walk (σ × List (Firing σ))}

/-- The computation goes on, or it fails, and nobody asks to stop. -/
def Calm (v : Visitor σ) (x : WalkM (σ × List (Firing σ)) α) : Prop :=
  ∀ w, Going v w → match x w with
    | .ok _ w' => Going v w'
    | .error _ w' => Clean v w'

/-- The computation goes on, or it fails and nobody has asked to stop, or it tells at once that
somebody did. -/
def HeedsAt (v : Visitor σ) (x : WalkM (σ × List (Firing σ)) Bool)
    (w : Walk (σ × List (Firing σ))) : Prop :=
  match x w with
  | .ok b w' => Going v w' ∨ (b = true ∧ Halted v w')
  | .error _ w' => Clean v w'

/-- The computation heeds every wish to stop. -/
def Heeds (v : Visitor σ) (x : WalkM (σ × List (Firing σ)) Bool) : Prop :=
  ∀ w, Going v w → HeedsAt v x w

namespace Heeds

variable {x y : WalkM (σ × List (Firing σ)) Bool}

theorem pure (b : Bool) : Heeds v (pure b) := fun _ hw => .inl hw

theorem throw (e : Failure) : Heeds v (throw e) := fun _ hw => hw.clean

theorem of_calm (hx : Calm v x) : Heeds v x := by
  intro w hw
  have h := hx w hw
  unfold HeedsAt
  cases hrun : x w with
  | ok b w' =>
    rw [hrun] at h
    exact .inl h
  | error e w' =>
    rw [hrun] at h
    exact h

theorem ite {c : Prop} [Decidable c] (hx : Heeds v x) (hy : Heeds v y) :
    Heeds v (if c then x else y) := by
  split
  · exact hx
  · exact hy

end Heeds

theorem HeedsAt.of_bind {x : WalkM (σ × List (Firing σ)) α}
    {f : α → WalkM (σ × List (Firing σ)) Bool} (hok : ∀ a w', x w = .ok a w' → HeedsAt v (f a) w')
    (herror : ∀ e w', x w = .error e w' → Clean v w') : HeedsAt v (x >>= f) w := by
  cases hrun : x w with
  | ok a w' =>
    unfold HeedsAt
    rw [bind_of_ok hrun]
    exact hok a w' hrun
  | error e w' =>
    unfold HeedsAt
    rw [bind_of_error hrun]
    exact herror e w' hrun

theorem Calm.bind {x : WalkM (σ × List (Firing σ)) α}
    {f : α → WalkM (σ × List (Firing σ)) Bool} (hx : Calm v x) (hf : ∀ a, Heeds v (f a)) :
    Heeds v (x >>= f) := by
  intro w hw
  have h := hx w hw
  refine .of_bind (fun a w' hrun => ?_) fun e w' hrun => ?_
  · rw [hrun] at h
    exact hf a w' h
  · rw [hrun] at h
    exact h

/-- A step after one that may have been told to stop. In that case it changes nothing. -/
theorem Heeds.bind {x : WalkM (σ × List (Firing σ)) Bool}
    {f : Bool → WalkM (σ × List (Firing σ)) Bool} (hx : Heeds v x) (hgo : ∀ b, Heeds v (f b))
    (hstop : ∀ w, f true w = .ok true w) : Heeds v (x >>= f) := by
  intro w hw
  have h := hx w hw
  unfold HeedsAt at h
  refine .of_bind (fun b w' hrun => ?_) fun e w' hrun => ?_
  · rw [hrun] at h
    rcases h with h | ⟨rfl, h⟩
    · exact hgo b w' h
    · unfold HeedsAt
      rw [hstop]
      exact .inr ⟨rfl, h⟩
  · rw [hrun] at h
    exact h

/-- A wish to stop ends what follows. -/
theorem Heeds.orElse {x y : WalkM (σ × List (Firing σ)) Bool} (hx : Heeds v x) (hy : Heeds v y) :
    Heeds v (do if ← x then Pure.pure true else y) :=
  hx.bind (fun _ => .ite (.pure _) hy) fun _ => rfl

theorem Calm.lift {x : SessionM α} (hx : Steadying x) :
    Calm v (onSession x : WalkM (σ × List (Firing σ)) α) := by
  intro w hw
  have h := hx w.session hw.numbered
  simp only [onSession]
  cases hrun : x w.session with
  | ok a s =>
    rw [after_of_ok hrun] at h
    exact ⟨h.numbered hw.numbered, h.still.trans hw.still, hw.clean⟩
  | error e s => exact hw.clean

theorem Calm.question {x : SessionM α} (hx : Composed (fun _ _ => False) x) :
    Calm v (onSession x : WalkM (σ × List (Firing σ)) α) := lift (.question hx)

theorem Calm.get : Calm v (get : WalkM (σ × List (Firing σ)) _) := fun _ hw => hw

theorem Calm.then {x : WalkM (σ × List (Firing σ)) α} {f : α → WalkM (σ × List (Firing σ)) β}
    (hx : Calm v x) (hf : ∀ a, Calm v (f a)) : Calm v (x >>= f) := by
  intro w hw
  have h := hx w hw
  cases hrun : x w with
  | ok a w' =>
    rw [hrun] at h
    rw [bind_of_ok hrun]
    exact hf a w' h
  | error e w' =>
    rw [hrun] at h
    rw [bind_of_error hrun]
    exact h

theorem Calm.pure (a : α) : Calm v (Pure.pure a : WalkM (σ × List (Firing σ)) α) := fun _ hw => hw

theorem Calm.isStopping : Calm v (Walk.isStopping : WalkM (σ × List (Firing σ)) Bool) :=
  Calm.get.then fun _ => Calm.pure _

theorem Calm.isInterrupted (p : PathId) (node : NodeId) :
    Calm v (Walk.isInterrupted p node : WalkM (σ × List (Firing σ)) Bool) :=
  (Calm.question (.data p)).then fun _ => Calm.isStopping.then fun _ => Calm.pure _

theorem Calm.mustStop (p : PathId) :
    Calm v (Walk.mustStop p : WalkM (σ × List (Firing σ)) Bool) :=
  (Calm.question (.data p)).then fun _ => Calm.isStopping.then fun _ => Calm.pure _

theorem Calm.dequeue : Calm v (Walk.dequeue : WalkM (σ × List (Firing σ)) (Option PathId)) := by
  intro w hw
  obtain ⟨o, frames, hrun, hids⟩ := dequeue_run w
  rw [hrun]
  refine ⟨?_, hw.still, hw.clean⟩
  rw [numbered_iff]
  show ∀ i ∈ frames.map Frame.id, i < w.session.nextFrame
  rw [hids]
  exact numbered_iff.mp hw.numbered

theorem Calm.beginVisit (p : PathId) (requeued : Bool) :
    Calm v (Walk.beginVisit p requeued : WalkM (σ × List (Firing σ)) Unit) :=
  Calm.get.then fun _ => (Calm.lift (.modifyData p _)).then fun _ _ hw =>
    ⟨hw.numbered, hw.still, hw.clean⟩

theorem Calm.countRequeue (p : PathId) :
    Calm v (Walk.countRequeue p : WalkM (σ × List (Firing σ)) Unit) := by
  refine Calm.get.then fun _ => (Calm.lift (.modifyData p _)).then fun _ => ?_
  refine (Calm.question (.data p)).then fun d => ?_
  split
  · exact (Calm.question (.type? p)).then fun _ _ hw => hw.clean
  · exact Calm.pure _

/-- What is done in a frame of its own. -/
theorem Heeds.withFrame {body : WalkM (σ × List (Firing σ)) Bool} (hbody : Heeds v body) :
    Heeds v (Walk.withFrame body) := by
  intro w hw
  have h := hbody (pushFrame w) ⟨numbered_pushFrame hw.numbered, hw.still, hw.clean⟩
  have hrun : Walk.withFrame body w =
      ensuring body (dropFrame w.session.nextFrame) (pushFrame w) := rfl
  unfold HeedsAt at h ⊢
  rw [hrun, ensuring]
  cases hb : body (pushFrame w) with
  | ok b w' =>
    rw [hb] at h
    rcases h with h | ⟨hb, h⟩
    · exact .inl ⟨fun f hf => h.numbered f (List.mem_of_mem_filter hf), h.still, h.clean⟩
    · exact .inr ⟨hb, h.stopping, h.last⟩
  | error e w' =>
    rw [hb] at h
    exact h

/-! ## Handlers -/

/-- The computation heeds every wish to stop where the path is known. -/
def HeedsBy (v : Visitor σ) (p : PathId) (x : WalkM (σ × List (Firing σ)) Bool) : Prop :=
  ∀ w, Going v w → p.index < w.session.paths.size → HeedsAt v x w

theorem Heeds.by {p : PathId} {x : WalkM (σ × List (Firing σ)) Bool} (hx : Heeds v x) :
    HeedsBy v p x := fun w hw _ => hx w hw

/-- No path is forgotten on the way. -/
theorem Calm.bindBy {p : PathId} {x : WalkM (σ × List (Firing σ)) α}
    {f : α → WalkM (σ × List (Firing σ)) Bool} (hx : Calm v x) (hs : Striding x)
    (hf : ∀ a, HeedsBy v p (f a)) : HeedsBy v p (x >>= f) := by
  intro w hw hp
  have h := hx w hw
  have hstride := hs w hw.numbered
  refine .of_bind (fun a w' hrun => ?_) fun e w' hrun => ?_
  · rw [hrun] at h
    rw [after_of_ok hrun] at hstride
    exact hf a w' h (hp.trans_le hstride.known)
  · rw [hrun] at h
    exact h

theorem HeedsBy.ite {p : PathId} {x y : WalkM (σ × List (Firing σ)) Bool} {c : Prop} [Decidable c]
    (hx : HeedsBy v p x) (hy : HeedsBy v p y) : HeedsBy v p (if c then x else y) := by
  split
  · exact hx
  · exact hy

/-- Once somebody asked to stop, every visit is broken off. -/
theorem isInterrupted_stopping {p : PathId} {node : NodeId} {w : Walk σ}
    (hp : p.index < w.session.paths.size) (hstop : w.session.stopping = true) :
    (isInterrupted p node : WalkM σ Bool) w = .ok true w := by
  have hd : w.session.paths[p.index]? = some w.session.paths[p.index] := Array.getElem?_eq_getElem hp
  unfold isInterrupted
  rw [bind_of_ok (lift_run (p.data_run hd))]
  show EStateM.Result.ok (_ || _ || _ || _ || w.session.stopping) w = _
  rw [hstop, Bool.or_true]

theorem mustStop_stopping {p : PathId} {w : Walk σ} (hp : p.index < w.session.paths.size)
    (hstop : w.session.stopping = true) : (mustStop p : WalkM σ Bool) w = .ok true w := by
  have hd : w.session.paths[p.index]? = some w.session.paths[p.index] := Array.getElem?_eq_getElem hp
  unfold mustStop
  rw [bind_of_ok (lift_run (p.data_run hd))]
  show EStateM.Result.ok (_ || w.session.stopping) w = _
  rw [hstop, Bool.or_true]

/-- Then no handler is called any more. -/
theorem callAll_stopping {p : PathId} {node : NodeId} (hs : List (Handler σ)) {w : Walk σ}
    (hp : p.index < w.session.paths.size) (hstop : w.session.stopping = true) :
    callAll p node hs w = .ok true w := by
  cases hs with
  | nil => exact isInterrupted_stopping hp hstop
  | cons h hs =>
    rw [callAll, bind_of_ok (isInterrupted_stopping hp hstop)]
    rfl

/-- The handlers on record are those of the table. -/
theorem mem_recorded {phase : Phase} {selector : Selector} {h' : Handler (σ × List (Firing σ))}
    (hh : (phase, selector, h') ∈ v.recorded.entries) :
    ∃ i h, v.entries[i]? = some (phase, selector, h) ∧ h' = Handler.recorded i h := by
  obtain ⟨⟨⟨ph, sel, h⟩, i⟩, he, heq⟩ := List.mem_map.mp hh
  simp only [Prod.mk.injEq] at heq
  obtain ⟨rfl, rfl, rfl⟩ := heq
  exact ⟨i, h, List.mem_zipIdx_iff_getElem?.mp he, rfl⟩

/-- On record or not, a handler strides on. -/
theorem recorded_striding (hv : v.Programmed) {phase : Phase} {selector : Selector}
    {h' : Handler (σ × List (Firing σ))} (hh : (phase, selector, h') ∈ v.recorded.entries)
    (p : PathId) : Striding (h' p) := by
  obtain ⟨i, h, hget, rfl⟩ := mem_recorded hh
  intro w hw
  have hs := (hv _ _ h (List.mem_of_getElem? hget) p).striding w.bare hw
  simp only [after, Handler.recorded_apply] at hs ⊢
  cases hrun : h p w.bare <;> rwa [hrun] at hs

/-- One call of a handler: if it succeeds, either nobody has asked to stop or it just did. -/
theorem recorded_run (hv : v.Programmed) {phase : Phase} {selector : Selector}
    {h' : Handler (σ × List (Firing σ))} (hh : (phase, selector, h') ∈ v.recorded.entries)
    (p : PathId) (hw : Going v w) : match h' p w with
      | .ok _ w' => Going v w' ∨ Halted v w'
      | .error _ w' => Clean v w' := by
  have hs := recorded_striding hv hh p w hw.numbered
  obtain ⟨i, h, hget, rfl⟩ := mem_recorded hh
  let f : Firing σ := { entry := i, path := p, found := w.bare }
  -- This call ends the walk only if the handler succeeds and leaves the wish to stop.
  have hends : f.Ends v → ∃ w', h p w.bare = .ok () w' ∧ w'.session.stopping = true := by
    rintro ⟨_, _, _, w', hget', hok, hstop⟩
    rw [hget] at hget'
    cases hget'
    exact ⟨w', hok, hstop⟩
  have hclean : ¬ f.Ends v → ∀ g ∈ w.own.2 ++ [f], ¬ g.Ends v := by
    intro hf g hg
    rcases List.mem_append.mp hg with hg | hg
    · exact hw.clean g hg
    · rwa [List.mem_singleton.mp hg]
  simp only [after, Handler.recorded_apply] at hs ⊢
  cases hok : h p w.bare with
  | ok a w' =>
    rw [hok] at hs
    cases hstop : w'.session.stopping with
    | true => exact .inr ⟨hstop, w.own.2, f, rfl, hw.clean⟩
    | false =>
      refine .inl ⟨hs.numbered hw.numbered, hstop, hclean fun hf => ?_⟩
      obtain ⟨w₁, hok₁, hstop₁⟩ := hends hf
      rw [hok] at hok₁
      cases hok₁
      rw [hstop] at hstop₁
      cases hstop₁
  | error e w' =>
    refine hclean fun hf => ?_
    obtain ⟨w₁, hok₁, -⟩ := hends hf
    rw [hok] at hok₁
    cases hok₁

/-- Calling handlers one after the other, until somebody asks to stop. What is done then, when that
is known, is up to the caller. -/
theorem callAll_heeds (hv : v.Programmed) (p : PathId) (node : NodeId)
    {hs : List (Handler (σ × List (Firing σ)))}
    (hmem : ∀ h ∈ hs, ∃ phase selector, (phase, selector, h) ∈ v.recorded.entries)
    {f : Bool → WalkM (σ × List (Firing σ)) Bool} (hgo : ∀ b, HeedsBy v p (f b))
    (hstop : ∀ w, Halted v w → p.index < w.session.paths.size → HeedsAt v (f true) w) :
    HeedsBy v p (callAll p node hs >>= f) := by
  have hkept := Striding.kept (σ := σ × List (Firing σ))
  induction hs with
  | nil => exact (Calm.isInterrupted p node).bindBy (hkept.isInterrupted p node) hgo
  | cons h' hs ih =>
    rw [callAll, bind_assoc]
    refine (Calm.isInterrupted p node).bindBy (hkept.isInterrupted p node) fun b => ?_
    cases b with
    | true => exact hgo true
    | false =>
      intro w hw hp
      obtain ⟨phase, selector, hh⟩ := hmem h' (by simp)
      have hcall := recorded_run hv hh p hw
      have hon := recorded_striding hv hh p w hw.numbered
      rw [if_neg (by simp), bind_assoc]
      refine .of_bind (fun a w' hrun => ?_) fun e w' hrun => ?_
      · rw [hrun] at hcall
        rw [after_of_ok hrun] at hon
        have hp' := hp.trans_le hon.known
        rcases hcall with hgoing | hhalted
        · exact ih (fun h hh => hmem h (by simp [hh])) w' hgoing hp'
        · unfold HeedsAt
          rw [bind_of_ok (callAll_stopping hs hp' hhalted.stopping)]
          exact hstop w' hhalted hp'
      · rw [hrun] at hcall
        exact hcall

/-- A path is known once something was found out about it. -/
theorem HeedsBy.data_bind {p : PathId} {f : PathData → WalkM (σ × List (Firing σ)) Bool}
    (hf : ∀ d, HeedsBy v p (f d)) : Heeds v (onSession p.data >>= f) := by
  intro w hw
  cases hd : w.session.paths[p.index]? with
  | none =>
    have hrun : (onSession p.data : WalkM (σ × List (Firing σ)) _) w = .error .dangling w := by
      simp only [onSession, p.data_unknown hd]
    unfold HeedsAt
    rw [bind_of_error hrun]
    exact hw.clean
  | some d =>
    have hrun : (onSession p.data : WalkM (σ × List (Firing σ)) _) w = .ok d w :=
      lift_run (p.data_run hd)
    unfold HeedsAt
    rw [bind_of_ok hrun]
    exact hf d w hw (Array.getElem?_eq_some_iff.mp hd).1

/-! ## Visits -/

/-- The parts of a walk heed every wish to stop, at some fuel. -/
structure Heeding (v : Visitor σ) (fuel : Nat) : Prop where
  visit : ∀ depth p requeued, Heeds v (visit v.recorded fuel depth p requeued)
  drain : ∀ depth, Heeds v (drain v.recorded fuel depth)
  visitList : ∀ depth p owner f seen i, Heeds v (visitList v.recorded fuel depth p owner f seen i)
  visitFields : ∀ depth p node fields, Heeds v (visitFields v.recorded fuel depth p node fields)
  visitSingle : ∀ depth p, Heeds v (visitSingle v.recorded fuel depth p)

/-- One visit, when what comes below it heeds every wish to stop. -/
theorem visit_heeds (hv : v.Programmed) {fuel : Nat} (ih : Heeding v fuel) (depth : Nat)
    (p : PathId) (requeued : Bool) : Heeds v (visit v.recorded (fuel + 1) depth p requeued) := by
  have hmem : ∀ phase type, ∀ h ∈ v.recorded.handlersFor phase type,
      ∃ phase selector, (phase, selector, h) ∈ v.recorded.entries := fun phase type h hh =>
    let ⟨selector, he⟩ := Visitor.mem_handlersFor hh
    ⟨phase, selector, he⟩
  have hmust : ∀ w : Walk (σ × List (Firing σ)), Halted v w → p.index < w.session.paths.size →
      HeedsAt v (mustStop p) w := by
    intro w hw hp
    unfold HeedsAt
    rw [mustStop_stopping hp hw.stopping]
    exact .inr ⟨rfl, hw⟩
  have hkept := Striding.kept (σ := σ × List (Firing σ))
  rw [visit]
  refine Calm.isStopping.bind fun _ => .ite (.pure _) (HeedsBy.data_bind fun d => ?_)
  split
  · next node _ _ =>
    refine (Calm.question (.ask _)).bindBy (hkept.question (.ask _)) fun type => ?_
    refine Calm.get.bindBy hkept.get fun w => ?_
    refine .ite (Heeds.pure _).by (.ite (Heeds.throw _).by ?_)
    refine (Calm.beginVisit p requeued).bindBy (hkept.beginVisit p requeued) fun _ => ?_
    refine callAll_heeds hv p node (hmem _ _) (fun b => .ite (Heeds.of_calm (.mustStop p)).by ?_) hmust
    refine Heeds.by ((ih.visitFields _ _ _ _).orElse (HeedsBy.data_bind fun d => ?_))
    refine .ite (Heeds.of_calm (.mustStop p)).by ?_
    refine (Calm.question (.ask _)).bindBy (hkept.question (.ask _)) fun type => ?_
    exact callAll_heeds hv p node (hmem _ _) (fun _ => (Heeds.of_calm (.mustStop p)).by) hmust
  · exact (Heeds.pure _).by

theorem heeding (hv : v.Programmed) (fuel : Nat) : Heeding v fuel := by
  induction fuel with
  | zero =>
    exact ⟨fun _ _ _ => by rw [visit]; exact .throw _, fun _ => by rw [drain]; exact .throw _,
      fun _ _ _ _ _ _ => by rw [visitList]; exact .throw _,
      fun _ _ _ _ => by rw [visitFields]; exact .throw _,
      fun _ _ => by rw [visitSingle]; exact .throw _⟩
  | succ fuel ih =>
    have hresync : ∀ p : PathId, Steadying p.resync := fun p => .stepwise (.resync p)
    refine ⟨visit_heeds hv ih, fun depth => ?_, fun depth p owner f seen i => ?_,
      fun depth p node fields => ?_, fun depth p => ?_⟩
    · rw [drain]
      refine Calm.dequeue.bind fun o => ?_
      cases o with
      | none => exact .pure _
      | some p =>
        refine (Calm.lift (hresync p)).bind fun _ => (Calm.question (.isRemoved p)).bind fun _ => ?_
        refine .ite (ih.drain depth) ((Calm.countRequeue p).bind fun _ => ?_)
        exact (ih.visit _ _ _).orElse (ih.drain depth)
    · rw [visitList]
      refine (Calm.question (.node? p)).bind fun _ => .ite (.pure _) ?_
      refine (Calm.question (.listLength _ _)).bind fun _ => .ite (.pure _) ?_
      refine (Calm.lift (.stepwise (.of_navigating (.element p f i)))).bind fun q => ?_
      refine (Calm.question (.node? q)).bind fun o => ?_
      cases o with
      | none => exact .pure _
      | some node =>
        refine .ite (ih.visitList _ _ _ _ _ _) ((ih.visit _ _ _).orElse ((ih.drain depth).orElse ?_))
        refine (Calm.lift (hresync q)).bind fun _ => (Calm.question (.data q)).bind fun _ => ?_
        exact ih.visitList _ _ _ _ _ _
    · cases fields with
      | nil => rw [visitFields]; exact .pure _
      | cons f fields =>
        rw [visitFields]
        refine (Calm.question (.node? p)).bind fun _ => .ite (.pure _) ?_
        refine (Calm.question (.ask _)).bind fun k => ?_
        have hchild : Heeds v (do
            let child ← p.child f
            let stopped ← visitSingle v.recorded fuel depth child
            if stopped then Pure.pure true
            else visitFields v.recorded fuel depth p node fields) :=
          (Calm.lift (.stepwise (.of_navigating (.child p f)))).bind fun q =>
            (ih.visitSingle depth q).orElse (ih.visitFields _ _ _ _)
        split
        · exact (Heeds.withFrame (ih.visitList _ _ _ _ _ _)).orElse (ih.visitFields _ _ _ _)
        · exact hchild
        · exact hchild
        · exact (Heeds.pure _).orElse (ih.visitFields _ _ _ _)
    · rw [visitSingle]
      refine (Calm.question (.node? p)).bind fun o => ?_
      cases o with
      | none => exact .pure _
      | some _ => exact .withFrame ((ih.visit _ _ _).orElse (ih.drain depth))

/-- What was known of the handlers that were called before is still known, and those that are called
find their frames in order. -/
def Ordered (w w' : Walk (σ × List (Firing σ))) : Prop :=
  w.session.Numbered → (∀ f ∈ w.own.2, f.found.session.Numbered) →
    w.session.Onward w'.session ∧ ∀ f ∈ w'.own.2, f.found.session.Numbered

theorem ordered_kept : Kept (σ := σ × List (Firing σ)) Ordered where
  refl _ _ hlog := ⟨.refl _, hlog⟩
  trans _ _ _ h₁ h₂ hw hlog :=
    have h := h₁ hw hlog
    have h' := h₂ (h.1.numbered hw) h.2
    ⟨h.1.trans h'.1, h'.2⟩
  step hx w hw hlog := by
    rw [after_onSession]
    exact ⟨(Steadying.stepwise hx w.session hw).toOnward, hlog⟩
  count _ _ hlog := ⟨.refl _, hlog⟩
  dequeue w _ hlog := by
    obtain ⟨o, frames, hrun, hids⟩ := dequeue_run w
    rw [after_of_ok hrun]
    exact ⟨⟨hids, le_rfl, le_rfl, id⟩, hlog⟩
  framed hbody w hw hlog := by
    have h := hbody (pushFrame w) (numbered_pushFrame hw) hlog
    rw [after_withFrame]
    exact ⟨onward_dropFrame hw h.1, h.2⟩

theorem recorded_ordered (hv : v.Programmed) {phase : Phase} {selector : Selector}
    {h' : Handler (σ × List (Firing σ))} (hh : (phase, selector, h') ∈ v.recorded.entries)
    (p : PathId) : Leads Ordered (h' p) := by
  intro w hw hlog
  refine ⟨recorded_striding hv hh p w hw, ?_⟩
  obtain ⟨i, h, -, rfl⟩ := mem_recorded hh
  have hlog' : ∀ f ∈ w.own.2 ++ [{ entry := i, path := p, found := w.bare }],
      f.found.session.Numbered := by
    intro f hf
    rcases List.mem_append.mp hf with hf | hf
    · exact hlog f hf
    · rw [List.mem_singleton.mp hf]
      exact hw
  simp only [after, Handler.recorded_apply]
  cases h p w.bare <;> exact hlog'

end Walk

open Walk

/-! ## Whole walks -/

section Whole

variable {v : Visitor σ} {w : Walk σ}

/-- A walk on its own, with nothing on record at its start. -/
theorem Walk.isolated_record {body : WalkM (σ × List (Firing σ)) Bool} (hbody : Heeds v body)
    (hordered : Leads Ordered body) (hw : w.session.Numbered) :
    (match isolated body (w.beside []) with
      | .ok result w' => Clean v w' ∨
          result.stopped = true ∧ ∃ log f, w'.own.2 = log ++ [f] ∧ ∀ g ∈ log, ¬ g.Ends v
      | .error _ w' => Clean v w') ∧
    ∀ f ∈ (after (isolated body) (w.beside [])).own.2, f.found.session.Numbered := by
  let start : Walk (σ × List (Firing σ)) :=
    { w.beside [] with visited := 0, session := { w.session with stopping := false } }
  have hnone : ∀ {P : Firing σ → Prop}, ∀ f ∈ start.own.2, P f := fun f hf => by cases hf
  have hheeds := hbody start ⟨hw, rfl, hnone⟩
  have hfound := (hordered start hw hnone).2
  unfold HeedsAt at hheeds
  cases hb : body start with
  | ok b w' =>
    rw [after_of_ok hb] at hfound
    rw [hb] at hheeds
    rw [after_of_ok (isolated_run hb), isolated_run hb]
    refine ⟨?_, hfound⟩
    rcases hheeds with h | ⟨rfl, h⟩
    · exact .inl h.clean
    · exact .inr ⟨rfl, h.last⟩
  | error e w' =>
    rw [after_of_error hb] at hfound
    rw [hb] at hheeds
    rw [after_of_error (isolated_run_error hb), isolated_run_error hb]
    exact ⟨hheeds, hfound⟩

/-- What is on record after a walk. -/
theorem Extent.walk_record (hv : v.Programmed) (e : Extent) (hw : w.session.Numbered) :
    (match e.walk v.recorded (w.beside []) with
      | .ok result w' => Clean v w' ∨
          result.stopped = true ∧ ∃ log f, w'.own.2 = log ++ [f] ∧ ∀ g ∈ log, ¬ g.Ends v
      | .error _ w' => Clean v w') ∧
    ∀ f ∈ e.firings v w, f.found.session.Numbered := by
  have hordered : ∀ fuel, Steps Ordered v.recorded fuel :=
    ordered_kept.steps fun _ _ _ hh p => recorded_ordered hv hh p
  have hsteps : ∀ {x : SessionM PathId}, Navigating x → Calm v (onSession x : WalkM _ PathId) :=
    fun hx => .lift (.stepwise (.of_navigating hx))
  cases e with
  | tree =>
    exact isolated_record ((hsteps .rootPath).bind fun root => (heeding hv _).visitSingle 0 root)
      (ordered_kept.bind (ordered_kept.step (.of_navigating .rootPath)) fun root =>
        (hordered _).visitSingle 0 root) hw
  | below p =>
    have hnone : ∀ {P : Firing σ → Prop}, ∀ f ∈ ([] : List (Firing σ)), P f := fun f hf => by cases hf
    cases hp : p.node? w.session with
    | error e s =>
      have hrun : (Extent.below p).walk v.recorded (w.beside []) =
          .error e { w.beside [] with session := s } := by
        refine bind_of_error ?_
        show onSession p.node? _ = _
        simp only [onSession, Walk.beside, hp]
      simp only [firings, after, hrun]
      exact ⟨hnone, hnone⟩
    | ok o s =>
      obtain rfl := question_run (.node? p) hp
      have hask : (liftM p.node? : WalkM (σ × List (Firing σ)) _) (w.beside []) =
          .ok o (w.beside []) := lift_run hp
      have hrun : (Extent.below p).walk v.recorded (w.beside []) = _ := bind_of_ok hask
      unfold firings
      simp only [after, hrun]
      cases o with
      | none => exact ⟨.inl hnone, hnone⟩
      | some node =>
        exact isolated_record ((Calm.question (.ask _)).bind fun _ =>
            (heeding hv _).visitFields 0 p node _)
          (ordered_kept.bind (ordered_kept.question (.ask _)) fun _ =>
            (hordered _).visitFields 0 p node _) hw

/-- A walk leaves no frame open and puts back the wish to stop. -/
theorem Extent.walk_steady (hv : v.Programmed) (e : Extent) (hw : w.session.Numbered) :
    w.session.Steady (after (e.walk v) w).session := by
  have hstriding : ∀ phase selector h, (phase, selector, h) ∈ v.entries → ∀ p, Striding (h p) :=
    fun _ _ _ hh p => (hv _ _ _ hh p).striding
  cases e with
  | tree => exact traverse_steady hstriding w hw
  | below p => exact traverseNode_steady hstriding p w hw

end Whole

/-- Programs of clients find the frames in order. -/
theorem Session.Met.numbered {s : Session} (h : s.Met) : s.Numbered := by
  induction h with
  | @opened tree config s h =>
    have hfresh : Numbered { tree, config } := fun f hf => by cases hf
    unfold Session.open? at h
    split at h
    · rw [← Except.ok.inj h]
      exact hfresh
    · dsimp only at h
      cases hrun : ensureScopes.run { tree, config } with
      | error e s' => rw [hrun] at h; cases h
      | ok a s' =>
        rw [hrun] at h
        rw [← Except.ok.inj h, ← after_of_ok hrun]
        exact (Steadying.charting Charting.ensureScopes _ hfresh).numbered hfresh
  | used own visited _ hx ih => exact (hx.striding _ ih).numbered ih
  | amid _ hv hf ih => exact (Extent.walk_record hv _ ih).2 _ hf

/-- In every session that programs of clients work on, and for every table whose handlers are such
programs, a walk ends with the wish to stop and with the frames of before, whether it succeeds or
fails. The walk on record is the walk itself. Of the handlers that it calls, one that calls `stop`
and succeeds is the last one; then the walk succeeds and reports that it was stopped. -/
theorem stop_is_final {v : Visitor σ} (hv : v.Programmed) (e : Extent) {w : Walk σ}
    (hw : w.session.Met) :
    (after (e.walk v) w).session.stopping = w.session.stopping ∧
    (after (e.walk v) w).session.frames.map Frame.id = w.session.frames.map Frame.id ∧
    bareResult (e.walk v.recorded (w.beside [])) = e.walk v w ∧
    ∀ called f later phase selector h w₁, e.firings v w = called ++ f :: later →
      v.entries[f.entry]? = some (phase, selector, h) → Stops (h f.path) f.found →
      h f.path f.found = .ok () w₁ →
      later = [] ∧ ∃ visited w', e.walk v w = .ok { stopped := true, visited } w' := by
  have hsteady := e.walk_steady hv hw.numbered
  have hsame := e.walk_recorded v w
  obtain ⟨hrecord, hnumbered⟩ := e.walk_record hv hw.numbered
  refine ⟨hsteady.still, hsteady.frames, hsame, ?_⟩
  intro called f later phase selector h w₁ hfirings hget hstops hok
  have hmem : f ∈ e.firings v w := by simp [hfirings]
  have hends : f.Ends v := by
    refine ⟨phase, selector, h, w₁, hget, hok, ?_⟩
    rw [← after_of_ok hok]
    exact hstops.stopping (hnumbered f hmem)
  unfold Extent.firings at hmem hfirings
  cases hrun : e.walk v.recorded (w.beside []) with
  | error e' w' =>
    rw [hrun] at hrecord
    rw [after_of_error hrun] at hmem
    exact absurd hends (hrecord f hmem)
  | ok result w' =>
    rw [hrun] at hrecord hsame
    rw [after_of_ok hrun] at hmem hfirings
    rcases hrecord with hclean | ⟨hstopped, log, g, hlog, hbefore⟩
    · exact absurd hends (hclean f hmem)
    · -- Before the last call nobody asked to stop, so the call at hand is the last one.
      rw [hfirings] at hlog
      obtain rfl : later = [] := by
        refine List.eq_nil_of_length_eq_zero (Nat.eq_zero_of_not_pos fun hpos => ?_)
        refine hbefore f ?_ hends
        have hinit := congrArg List.dropLast hlog
        rw [List.dropLast_concat, List.dropLast_append_of_ne_nil (by simp)] at hinit
        rw [← hinit, List.dropLast_cons_of_ne_nil (List.ne_nil_of_length_pos hpos)]
        simp
      refine ⟨rfl, result.visited, w'.bare, ?_⟩
      rw [← hsame, ← hstopped]
      rfl

/-- The program `a; b;`. -/
def pairProgram : Tree where
  nodes := #[{ kind := .identifier "a" none }, { kind := .expressionStatement ⟨0⟩ },
    { kind := .identifier "b" none }, { kind := .expressionStatement ⟨2⟩ },
    { kind := .program [⟨1⟩, ⟨3⟩] [] }]
  root := some ⟨4⟩

/-- Stop at the first node. -/
def stopAnywhere : Visitor Nat := Visitor.empty.on .enter .any fun p => WalkM.onSession p.stop

/-- Stop at the first statement, after a walk that was stopped as well. -/
def stopAtStatement : Visitor Nat :=
  Visitor.empty.on .enter (.type .expressionStatement) fun p => do
    let _ ← traverse stopAnywhere
    WalkM.onSession p.stop

theorem stopAnywhere_programmed : stopAnywhere.Programmed := by
  intro phase selector h hh p
  simp only [stopAnywhere, Visitor.on, Visitor.empty, List.nil_append, List.mem_singleton,
    Prod.mk.injEq] at hh
  obtain ⟨-, -, rfl⟩ := hh
  exact .call (.stop p)

theorem stopAtStatement_programmed : stopAtStatement.Programmed := by
  intro phase selector h hh p
  simp only [stopAtStatement, Visitor.on, Visitor.empty, List.nil_append, List.mem_singleton,
    Prod.mk.injEq] at hh
  obtain ⟨-, -, rfl⟩ := hh
  exact .bind (.traverse _ stopAnywhere_programmed) fun _ => .call (.stop p)

/-- The session with `a; b;` at the start of a walk. -/
def pairWalk : Walk Nat where
  session := { tree := pairProgram, config := { lazyScopes := true } }
  own := 0

/-- The walk over `a; b;` calls one handler, at `a;`. The handler starts a walk that is stopped,
without a wish to stop at its end, and then stops its own walk. -/
theorem pairProgram_stops : pairWalk.session.Met ∧ stopAtStatement.Programmed ∧
    ∃ f, Extent.tree.firings stopAtStatement pairWalk = [f] ∧ f.path = ⟨1⟩ ∧
      (∃ w₁, traverse stopAnywhere f.found = .ok { stopped := true, visited := 1 } w₁ ∧
        w₁.session.stopping = false) ∧
      (∃ visited w', traverse stopAtStatement pairWalk = .ok { stopped := true, visited } w') ∧
      (after (traverse stopAtStatement) pairWalk).session.stopping = false := by
  have hopen : Session.open? pairProgram { lazyScopes := true } = .ok pairWalk.session := rfl
  have hmet : pairWalk.session.Met := .opened hopen
  have hcalls : (Extent.tree.firings stopAtStatement pairWalk).map (fun f => (f.entry, f.path)) =
      [(0, ⟨1⟩)] := by decide +kernel
  have hinner : (Extent.tree.firings stopAtStatement pairWalk).map (fun f =>
      match traverse stopAnywhere f.found with
      | .ok result w => some (result, w.session.stopping, w.session.paths[1]?.isSome)
      | .error _ _ => none) = [some ({ stopped := true, visited := 1 }, false, true)] := by
    decide +kernel
  have hfinal := stop_is_final stopAtStatement_programmed .tree hmet
  obtain ⟨f, hf, hentry⟩ := List.map_eq_singleton_iff.mp hcalls
  simp only [Prod.mk.injEq] at hentry
  rw [hf, List.map_cons, List.map_nil, List.cons_eq_cons] at hinner
  cases hrun : traverse stopAnywhere f.found with
  | error e w₁ => rw [hrun] at hinner; cases hinner.1
  | ok result w₁ =>
    rw [hrun] at hinner
    simp only [Option.some.injEq, Prod.mk.injEq, and_true] at hinner
    obtain ⟨rfl, hstill, hknown⟩ := hinner
    obtain ⟨d, hd⟩ := Option.isSome_iff_exists.mp hknown
    have hd' : w₁.session.paths[f.path.index]? = some d := by rw [hentry.2, hd]
    have hstop := lift_run (bind_of_ok (f := fun _ => modify fun s => { s with stopping := true })
      (f.path.modifyData_run hd' fun d => { d with stop := true, skip := true }))
    have hstops : Stops (do
        let _ ← traverse stopAnywhere
        WalkM.onSession f.path.stop) f.found :=
      .next hrun (.traverse _ stopAnywhere_programmed) (.stop hd')
    refine ⟨hmet, stopAtStatement_programmed, f, hf, hentry.2, ⟨w₁, hrun, hstill⟩, ?_, hfinal.1⟩
    exact (hfinal.2.2.2 [] f [] _ _ _ _ hf (by rw [hentry.1]; rfl) hstops
      ((bind_of_ok hrun).trans hstop)).2

end Espalier
