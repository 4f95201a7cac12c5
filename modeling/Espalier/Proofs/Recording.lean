import Espalier.Proofs.WalkUpkeep

set_option autoImplicit false

/-! # Walks on record

To say which handlers a walk calls, and in which order, the walk is made once more with handlers that
first note that they are called (`Visitor.recorded`). The notes are kept beside the client's value,
where neither the walk nor the handlers look, so the walk on record is the walk itself
(`Extent.walk_recorded`). -/

namespace Espalier

open SessionM

variable {σ ρ α β : Type}

/-! ## Values beside a walk -/

namespace Walk

/-- The walk without what is kept beside it. -/
def bare (w : Walk (σ × ρ)) : Walk σ := { session := w.session, visited := w.visited, own := w.own.1 }

/-- The walk with something kept beside it. -/
def beside (w : Walk σ) (r : ρ) : Walk (σ × ρ) :=
  { session := w.session, visited := w.visited, own := (w.own, r) }

@[simp] theorem bare_beside (w : Walk σ) (r : ρ) : (w.beside r).bare = w := rfl

end Walk

/-- The outcome without what is kept beside the walk. -/
def bareResult : EStateM.Result Failure (Walk (σ × ρ)) α → EStateM.Result Failure (Walk σ) α
  | .ok a w => .ok a w.bare
  | .error e w => .error e w.bare

namespace WalkM

/-- Run a computation that does not see what is kept beside the walk. -/
def beside (x : WalkM σ α) : WalkM (σ × ρ) α := fun w =>
  match x w.bare with
  | .ok a w' => .ok a (w'.beside w.own.2)
  | .error e w' => .error e (w'.beside w.own.2)

/-- But for what is kept beside the walk, the computations do the same. -/
def Mirrors (x' : WalkM (σ × ρ) α) (x : WalkM σ α) : Prop := ∀ w, bareResult (x' w) = x w.bare

end WalkM

namespace WalkM.Mirrors

theorem pure (a : α) : Mirrors (pure a : WalkM (σ × ρ) α) (pure a) := fun _ => rfl

theorem throw (e : Failure) : Mirrors (throw e : WalkM (σ × ρ) α) (throw e) := fun _ => rfl

theorem beside (x : WalkM σ α) : Mirrors (x.beside : WalkM (σ × ρ) α) x := by
  intro w
  simp only [WalkM.beside]
  cases x w.bare <;> rfl

theorem bind {x' : WalkM (σ × ρ) α} {x : WalkM σ α} {f' : α → WalkM (σ × ρ) β} {f : α → WalkM σ β}
    (hx : Mirrors x' x) (hf : ∀ a, Mirrors (f' a) (f a)) : Mirrors (x' >>= f') (x >>= f) := by
  intro w
  have h := hx w
  cases hrun : x' w with
  | ok a w₁ =>
    rw [hrun] at h
    rw [bind_of_ok hrun, bind_of_ok h.symm]
    exact hf a w₁
  | error e w₁ =>
    rw [hrun] at h
    rw [bind_of_error hrun, bind_of_error h.symm]
    rfl

/-- The computations may look at the walk, but not at what is kept beside it. -/
theorem get_bind {f' : Walk (σ × ρ) → WalkM (σ × ρ) β} {f : Walk σ → WalkM σ β}
    (hf : ∀ w, Mirrors (f' w) (f w.bare)) : Mirrors (get >>= f') (get >>= f) := fun w => hf w w

theorem modify {f' : Walk (σ × ρ) → Walk (σ × ρ)} {f : Walk σ → Walk σ}
    (h : ∀ w, (f' w).bare = f w.bare) :
    Mirrors (modify f' : WalkM (σ × ρ) PUnit) (modify f) :=
  fun w => congrArg (EStateM.Result.ok PUnit.unit) (h w)

theorem lift (x : SessionM α) : Mirrors (onSession x : WalkM (σ × ρ) α) (onSession x) := by
  intro w
  simp only [onSession, Walk.bare]
  cases x w.session <;> rfl

theorem ite {c : Prop} [Decidable c] {x' y' : WalkM (σ × ρ) α} {x y : WalkM σ α}
    (hx : Mirrors x' x) (hy : Mirrors y' y) :
    Mirrors (if c then x' else y') (if c then x else y) := by
  split
  · exact hx
  · exact hy

theorem ensuring {body' : WalkM (σ × ρ) α} {body : WalkM σ α} (hbody : Mirrors body' body)
    {cleanup' : Walk (σ × ρ) → Walk (σ × ρ)} {cleanup : Walk σ → Walk σ}
    (h : ∀ w, (cleanup' w).bare = cleanup w.bare) :
    Mirrors (Walk.ensuring body' cleanup') (Walk.ensuring body cleanup) := by
  intro w
  have hb := hbody w
  simp only [Walk.ensuring]
  cases hrun : body' w with
  | ok a w₁ =>
    rw [hrun] at hb
    rw [← hb]
    exact congrArg (EStateM.Result.ok a) (h w₁)
  | error e w₁ =>
    rw [hrun] at hb
    rw [← hb]
    exact congrArg (EStateM.Result.error e) (h w₁)

theorem withFrame {body' : WalkM (σ × ρ) α} {body : WalkM σ α} (hbody : Mirrors body' body) :
    Mirrors (Walk.withFrame body') (Walk.withFrame body) :=
  get_bind fun _ => bind (modify fun _ => rfl) fun _ => hbody.ensuring fun _ => rfl

/-! ## The steps of a walk -/

theorem isStopping : Mirrors (Walk.isStopping : WalkM (σ × ρ) Bool) Walk.isStopping :=
  get_bind fun _ => pure _

theorem mustStop (p : PathId) : Mirrors (Walk.mustStop p : WalkM (σ × ρ) Bool) (Walk.mustStop p) :=
  (lift p.data).bind fun _ => isStopping.bind fun _ => pure _

theorem isInterrupted (p : PathId) (node : NodeId) :
    Mirrors (Walk.isInterrupted p node : WalkM (σ × ρ) Bool) (Walk.isInterrupted p node) :=
  (lift p.data).bind fun _ => isStopping.bind fun _ => pure _

theorem callAll (p : PathId) (node : NodeId) {hs' : List (Handler (σ × ρ))} {hs : List (Handler σ)}
    (h : List.Forall₂ (fun h' h => ∀ p, Mirrors (h' p) (h p)) hs' hs) :
    Mirrors (Walk.callAll p node hs') (Walk.callAll p node hs) := by
  induction h with
  | nil => exact isInterrupted p node
  | cons hh _ ih =>
    exact (isInterrupted p node).bind fun _ => ite (pure _) ((hh p).bind fun _ => ih)

theorem dequeue : Mirrors (Walk.dequeue : WalkM (σ × ρ) (Option PathId)) Walk.dequeue := by
  refine get_bind fun w => ?_
  rw [show w.bare.session = w.session from rfl]
  dsimp only
  cases w.session.frames with
  | nil => exact pure _
  | cons f rest =>
    dsimp only
    cases f.queue with
    | nil => exact pure _
    | cons p queue => exact bind (modify fun _ => rfl) fun _ => pure _

theorem beginVisit (p : PathId) (requeued : Bool) :
    Mirrors (Walk.beginVisit p requeued : WalkM (σ × ρ) Unit) (Walk.beginVisit p requeued) :=
  get_bind fun _ => (lift _).bind fun _ => modify fun _ => rfl

theorem countRequeue (p : PathId) :
    Mirrors (Walk.countRequeue p : WalkM (σ × ρ) Unit) (Walk.countRequeue p) :=
  get_bind fun _ => (lift _).bind fun _ => (lift p.data).bind fun _ =>
    ite ((lift p.type?).bind fun _ => throw _) (pure _)

end WalkM.Mirrors

open WalkM

/-! ## Walks -/

/-- The tables have the same entries, with handlers that do the same but for what is kept beside the
walk. -/
structure Visitor.Mirrors (v' : Visitor (σ × ρ)) (v : Visitor σ) : Prop where
  entries : List.Forall₂ (fun e' e => e'.1 = e.1 ∧ e'.2.1 = e.2.1 ∧
    ∀ p, WalkM.Mirrors (e'.2.2 p) (e.2.2 p)) v'.entries v.entries
  blacklist : v'.blacklist = v.blacklist

theorem Visitor.Mirrors.handlersFor {v' : Visitor (σ × ρ)} {v : Visitor σ} (hv : v'.Mirrors v)
    (phase : Phase) (type : NodeType) :
    List.Forall₂ (fun h' h => ∀ p, WalkM.Mirrors (h' p) (h p)) (v'.handlersFor phase type)
      (v.handlersFor phase type) := by
  have hselect : ∀ test, List.Forall₂ (fun h' h => ∀ p, WalkM.Mirrors (h' p) (h p))
      (v'.select phase test) (v.select phase test) := by
    intro test
    unfold select
    have hentries := hv.entries
    generalize v'.entries = entries' at hentries
    generalize v.entries = entries at hentries
    induction hentries with
    | nil => exact .nil
    | @cons e' e _ _ he _ ih =>
      obtain ⟨ph', selector', h'⟩ := e'
      obtain ⟨ph, selector, h⟩ := e
      obtain ⟨rfl, rfl, hh⟩ := he
      simp only [List.filterMap_cons]
      by_cases hc : ph' = phase ∧ test selector' = true
      · simp only [if_pos hc]
        exact .cons hh ih
      · simp only [if_neg hc]
        exact ih
  exact (List.rel_append (List.rel_append (hselect _) (hselect _))) (hselect _)

/-- The walks with both tables do the same, at some fuel. -/
structure Walk.Mirrored (v' : Visitor (σ × ρ)) (v : Visitor σ) (fuel : Nat) : Prop where
  visit : ∀ depth p requeued, Mirrors (visit v' fuel depth p requeued) (visit v fuel depth p requeued)
  drain : ∀ depth, Mirrors (drain v' fuel depth) (drain v fuel depth)
  visitList : ∀ depth p owner f seen i, Mirrors (visitList v' fuel depth p owner f seen i)
    (visitList v fuel depth p owner f seen i)
  visitFields : ∀ depth p node fields, Mirrors (visitFields v' fuel depth p node fields)
    (visitFields v fuel depth p node fields)
  visitSingle : ∀ depth p, Mirrors (visitSingle v' fuel depth p) (visitSingle v fuel depth p)

namespace Walk

variable {v' : Visitor (σ × ρ)} {v : Visitor σ} (hv : v'.Mirrors v)

include hv

theorem mirrored (fuel : Nat) : Mirrored v' v fuel := by
  induction fuel with
  | zero =>
    refine ⟨fun _ _ _ => ?_, fun _ => ?_, fun _ _ _ _ _ _ => ?_, fun _ _ _ _ => ?_, fun _ _ => ?_⟩
    · rw [visit, visit]; exact .throw _
    · rw [drain, drain]; exact .throw _
    · rw [visitList, visitList]; exact .throw _
    · rw [visitFields, visitFields]; exact .throw _
    · rw [visitSingle, visitSingle]; exact .throw _
  | succ fuel ih =>
    refine ⟨fun depth p requeued => ?_, fun depth => ?_, fun depth p owner f seen i => ?_,
      fun depth p node fields => ?_, fun depth p => ?_⟩
    · rw [visit, visit]
      refine Mirrors.isStopping.bind fun _ => .ite (.pure _) ((Mirrors.lift p.data).bind fun d => ?_)
      split
      · next node _ _ =>
        refine (Mirrors.lift _).bind fun type => .get_bind fun w => ?_
        rw [hv.blacklist]
        refine .ite (.pure _) (.ite (.throw _) ((Mirrors.beginVisit p requeued).bind fun _ => ?_))
        refine (Mirrors.callAll p node (hv.handlersFor _ _)).bind fun _ => ?_
        refine .ite (.mustStop p) ((ih.visitFields _ _ _ _).bind fun _ => .ite (.pure _) ?_)
        refine (Mirrors.lift p.data).bind fun _ => .ite (.mustStop p) ?_
        refine (Mirrors.lift _).bind fun _ => ?_
        exact (Mirrors.callAll p node (hv.handlersFor _ _)).bind fun _ => .mustStop p
      · exact .pure _
    · rw [drain, drain]
      refine Mirrors.dequeue.bind fun o => ?_
      cases o with
      | none => exact .pure _
      | some p =>
        refine (Mirrors.lift p.resync).bind fun _ => (Mirrors.lift p.isRemoved).bind fun _ => ?_
        refine .ite (ih.drain depth) ((Mirrors.countRequeue p).bind fun _ => ?_)
        exact (ih.visit _ _ _).bind fun _ => .ite (.pure _) (ih.drain depth)
    · rw [visitList, visitList]
      refine (Mirrors.lift p.node?).bind fun _ => .ite (.pure _) ?_
      refine (Mirrors.lift _).bind fun _ => .ite (.pure _) ((Mirrors.lift _).bind fun q => ?_)
      refine (Mirrors.lift q.node?).bind fun o => ?_
      cases o with
      | none => exact .pure _
      | some node =>
        refine .ite (ih.visitList _ _ _ _ _ _) ((ih.visit _ _ _).bind fun _ => .ite (.pure _) ?_)
        refine (ih.drain depth).bind fun _ => .ite (.pure _) ((Mirrors.lift q.resync).bind fun _ => ?_)
        exact (Mirrors.lift q.data).bind fun _ => ih.visitList _ _ _ _ _ _
    · cases fields with
      | nil => rw [visitFields, visitFields]; exact .pure _
      | cons f fields =>
        rw [visitFields, visitFields]
        refine (Mirrors.lift p.node?).bind fun _ => .ite (.pure _) ((Mirrors.lift _).bind fun k => ?_)
        have hrest : ∀ stopped : Bool, Mirrors (do
            if stopped then Pure.pure true else visitFields v' fuel depth p node fields) (do
            if stopped then Pure.pure true else visitFields v fuel depth p node fields) := fun _ =>
          .ite (.pure _) (ih.visitFields _ _ _ _)
        split
        · exact (Mirrors.withFrame (ih.visitList _ _ _ _ _ _)).bind hrest
        · exact (Mirrors.lift (p.child f)).bind fun q => (ih.visitSingle depth q).bind hrest
        · exact (Mirrors.lift (p.child f)).bind fun q => (ih.visitSingle depth q).bind hrest
        · exact (Mirrors.pure _).bind hrest
    · rw [visitSingle, visitSingle]
      refine (Mirrors.lift p.node?).bind fun o => ?_
      cases o with
      | none => exact .pure _
      | some _ => exact .withFrame ((ih.visit _ _ _).bind fun _ => .ite (.pure _) (ih.drain depth))

end Walk

theorem WalkM.Mirrors.isolated {body' : WalkM (σ × ρ) Bool} {body : WalkM σ Bool}
    (hbody : Mirrors body' body) : Mirrors (Walk.isolated body') (Walk.isolated body) := by
  intro w
  have hb := hbody { w with visited := 0, session := { w.session with stopping := false } }
  simp only [Walk.isolated]
  rw [← show _ = body { w.bare with visited := 0, session := { w.bare.session with stopping := false } }
    from hb]
  cases body' { w with visited := 0, session := { w.session with stopping := false } } <;> rfl

/-! ## Which part of the tree is walked -/

/-- The part of the tree that is walked. -/
inductive Extent where
  | tree
  /-- The children of a path, but not the path itself. -/
  | below (p : PathId)

/-- The walk over a part of the tree. -/
def Extent.walk (v : Visitor σ) : Extent → WalkM σ Traversal
  | .tree => traverse v
  | .below p => p.traverse v

theorem Extent.walk_mirrors {v' : Visitor (σ × ρ)} {v : Visitor σ} (hv : v'.Mirrors v) (e : Extent) :
    WalkM.Mirrors (e.walk v') (e.walk v) := by
  cases e with
  | tree =>
    exact ((WalkM.Mirrors.lift rootPath).bind fun root => (Walk.mirrored hv _).visitSingle 0 root).isolated
  | below p =>
    refine (WalkM.Mirrors.lift p.node?).bind fun o => ?_
    cases o with
    | none => exact .pure _
    | some node =>
      exact ((WalkM.Mirrors.lift _).bind fun _ => (Walk.mirrored hv _).visitFields 0 p node _).isolated

/-! ## The record -/

/-- A call of a handler: its place in the table, the path it is called at, and the walk it finds. -/
structure Firing (σ : Type) where
  entry : Nat
  path : PathId
  found : Walk σ

/-- The handler at a place in the table, which notes its call before it does anything. -/
def Handler.recorded (entry : Nat) (h : Handler σ) : Handler (σ × List (Firing σ)) := fun p => do
  modify fun w => { w with own := (w.own.1, w.own.2 ++ [{ entry, path := p, found := w.bare }]) }
  (h p).beside

/-- The visitor whose handlers note their calls. -/
def Visitor.recorded (v : Visitor σ) : Visitor (σ × List (Firing σ)) where
  entries := v.entries.zipIdx.map fun (e, i) => (e.1, e.2.1, Handler.recorded i e.2.2)
  blacklist := v.blacklist

/-- The calls of handlers during a walk, in their order. -/
def Extent.firings (v : Visitor σ) (e : Extent) (w : Walk σ) : List (Firing σ) :=
  (after (e.walk v.recorded) (w.beside [])).own.2

theorem Handler.recorded_apply (entry : Nat) (h : Handler σ) (p : PathId)
    (w : Walk (σ × List (Firing σ))) : Handler.recorded entry h p w = match h p w.bare with
      | .ok a w' => .ok a (w'.beside (w.own.2 ++ [{ entry, path := p, found := w.bare }]))
      | .error e w' => .error e (w'.beside (w.own.2 ++ [{ entry, path := p, found := w.bare }])) := by
  show WalkM.beside (h p) _ = _
  simp only [WalkM.beside, Walk.bare]
  cases h p _ <;> rfl

theorem Handler.recorded_mirrors (entry : Nat) (h : Handler σ) (p : PathId) :
    WalkM.Mirrors (Handler.recorded entry h p) (h p) := fun _ => WalkM.Mirrors.beside (h p) _

theorem Visitor.recorded_mirrors (v : Visitor σ) : v.recorded.Mirrors v where
  entries := by
    have hall : ∀ (entries : List (Phase × Selector × Handler σ)) (k : Nat),
        List.Forall₂ (fun e' e => e'.1 = e.1 ∧ e'.2.1 = e.2.1 ∧
          ∀ p, WalkM.Mirrors (e'.2.2 p) (e.2.2 p))
        ((entries.zipIdx k).map fun (e, i) => (e.1, e.2.1, Handler.recorded i e.2.2)) entries := by
      intro entries
      induction entries with
      | nil => exact fun _ => .nil
      | cons e entries ih => exact fun k => .cons ⟨rfl, rfl, Handler.recorded_mirrors k e.2.2⟩ (ih _)
    exact hall v.entries 0
  blacklist := rfl

/-- The walk on record is the walk itself. -/
theorem Extent.walk_recorded (v : Visitor σ) (e : Extent) (w : Walk σ) :
    bareResult (e.walk v.recorded (w.beside [])) = e.walk v w :=
  e.walk_mirrors v.recorded_mirrors _

end Espalier
