import Espalier.Proofs.ClosedEditing
import Espalier.Proofs.WalkUpkeep

set_option autoImplicit false

/-! # Walks within range

A walk goes from known paths to known paths, and comes back to paths that it knew before. Handlers
may forget scopes, but no session forgets a node or a path; so a walk is within range when its
handlers are, on whatever known path they are called (`Heedful.traverse`). Where handlers work on a
scope of their own, that scope has to be kept as well. -/

namespace Espalier

open SessionM

variable {σ α β : Type} {k : Nat}

/-- The second session has all nodes and paths that the first one has, and the first `k` scopes. -/
structure Session.Preserves (k : Nat) (s s' : Session) : Prop where
  nodes : s.tree.size ≤ s'.tree.size
  paths : s.paths.size ≤ s'.paths.size
  scopes : k ≤ s.scopes.scopes.size → k ≤ s'.scopes.scopes.size

namespace Session.Preserves

variable {s s₁ s₂ : Session}

theorem refl (k : Nat) (s : Session) : s.Preserves k s := ⟨Nat.le_refl _, Nat.le_refl _, id⟩

theorem trans (h₁ : s.Preserves k s₁) (h₂ : s₁.Preserves k s₂) : s.Preserves k s₂ :=
  ⟨h₁.nodes.trans h₂.nodes, h₁.paths.trans h₂.paths, fun h => h₂.scopes (h₁.scopes h)⟩

theorem of_extends (h : s.Extends s₁) : s.Preserves k s₁ :=
  ⟨h.nodes, h.paths, fun hk => hk.trans h.scopes⟩

theorem node (h : s.Preserves k s₁) {n : NodeId} (hn : s.Knows n) : s₁.Knows n :=
  Nat.lt_of_lt_of_le hn h.nodes

theorem path (h : s.Preserves k s₁) {p : PathId} (hp : s.Knows p) : s₁.Knows p :=
  Nat.lt_of_lt_of_le hp h.paths

end Session.Preserves

/-- A session that differs only in the frames and in the wish to stop. -/
theorem Session.Closed.of_frames {s s' : Session} (h : s.Closed) (ht : s'.tree = s.tree)
    (hpaths : s'.paths = s.paths) (hcache : s'.cache = s.cache) (hdetached : s'.detached = s.detached)
    (hscopes : s'.scopes = s.scopes) (hparser : s'.parser = s.parser)
    (hframes : ∀ f ∈ s'.frames, s.Knows f.queue) : s.Extends s' ∧ s'.Closed := by
  have hext : s.Extends s' := ⟨by rw [ht], by rw [hpaths], by rw [hscopes]⟩
  exact ⟨hext, { tree := ht ▸ h.tree, paths := h.paths.of_same hext hpaths hcache hdetached
                 scopes := h.scopes.of_same hext hscopes
                 frames := fun f hf => hext.knows (hframes f hf), parser := hparser ▸ h.parser }⟩

/-- What is left of a walk: a closed session with all nodes and paths that were there. -/
def Walk.LeftBy (k : Nat) (w : Walk σ) : EStateM.Result Failure (Walk σ) α → Prop
  | .ok _ w' => w.session.Preserves k w'.session ∧ w'.session.Closed
  | .error e w' => w.session.Preserves k w'.session ∧ w'.session.Closed ∧ e ≠ .dangling

theorem Walk.LeftBy.after {w w₁ : Walk σ} (h : w.session.Preserves k w₁.session)
    {r : EStateM.Result Failure (Walk σ) α} (hr : w₁.LeftBy k r) : w.LeftBy k r := by
  cases r with
  | ok a w₂ => exact ⟨h.trans hr.1, hr.2⟩
  | error e w₂ => exact ⟨h.trans hr.1, hr.2⟩

/-- In this walk, if its session is closed, the computation meets no number out of range. -/
def Heedful (k : Nat) (x : WalkM σ α) (w : Walk σ) : Prop := w.session.Closed → w.LeftBy k (x w)

namespace Heedful

variable {w : Walk σ} {x : WalkM σ α} {f : α → WalkM σ β}

/-! ## Sequences -/

theorem pure (a : α) : Heedful k (pure a : WalkM σ α) w := fun hs => ⟨.refl k _, hs⟩

theorem throw {e : Failure} (he : e ≠ .dangling) : Heedful k (throw e : WalkM σ α) w :=
  fun hs => ⟨.refl k _, hs, he⟩

theorem bind_run (hx : Heedful k x w) (hf : ∀ a w', x w = .ok a w' →
    w.session.Preserves k w'.session → Heedful k (f a) w') : Heedful k (x >>= f) w := by
  intro hs
  have hends := hx hs
  cases hrun : x w with
  | ok a w' =>
    rw [hrun] at hends
    obtain ⟨hret, hs'⟩ := hends
    rw [bind_of_ok hrun]
    exact (hf a w' hrun hret hs').after hret
  | error e w' =>
    rw [hrun] at hends
    rw [bind_of_error hrun]
    exact hends

theorem bind (hx : Heedful k x w)
    (hf : ∀ a w', w.session.Preserves k w'.session → Heedful k (f a) w') : Heedful k (x >>= f) w :=
  hx.bind_run fun a w' _ => hf a w'

theorem get_bind {f : Walk σ → WalkM σ β} (hf : Heedful k (f w) w) : Heedful k (get >>= f) w := hf

theorem ite {c : Prop} [Decidable c] {y : WalkM σ α} (hx : Heedful k x w) (hy : Heedful k y w) :
    Heedful k (if c then x else y) w := by
  split
  · exact hx
  · exact hy

theorem tryCatch {f : Failure → WalkM σ α} (hx : Heedful k x w)
    (hf : ∀ e w', e ≠ .dangling → w.session.Preserves k w'.session → Heedful k (f e) w') :
    Heedful k (tryCatch x f) w := by
  intro hs
  have hends := hx hs
  have hrun : (MonadExcept.tryCatch x f : WalkM σ α) w = match x w with
      | .ok a w' => .ok a w'
      | .error e w' => f e w' := by
    show EStateM.tryCatch x f w = _
    simp only [EStateM.tryCatch]
    cases x w <;> rfl
  rw [hrun]
  cases hx' : x w with
  | ok a w' =>
    rw [hx'] at hends
    exact hends
  | error e w' =>
    rw [hx'] at hends
    exact (hf e w' hends.2.2 hends.1 hends.2.1).after hends.1

/-! ## On the session -/

/-- A careful computation on the session, and what is done with its value. -/
theorem lift_bind [Names α] {x : SessionM α} (hx : Careful x w.session)
    (hf : ∀ a s', w.session.Extends s' → s'.Knows a → Heedful k (f a) { w with session := s' }) :
    Heedful k ((liftM x : WalkM σ α) >>= f) w := by
  intro hs
  have hends := hx hs
  cases hrun : x w.session with
  | ok a s' =>
    rw [hrun] at hends
    obtain ⟨hext, hs', ha⟩ := hends
    rw [bind_of_ok (Walk.lift_run hrun)]
    exact (hf a s' hext ha hs').after (.of_extends hext)
  | error e s' =>
    rw [hrun] at hends
    have hlift : (liftM x : WalkM σ α) w = .error e { w with session := s' } := by
      show WalkM.onSession x w = _
      simp only [WalkM.onSession, hrun]
    rw [bind_of_error hlift]
    exact ⟨.of_extends hends.1, hends.2⟩

theorem lift [Names α] {x : SessionM α} (hx : Careful x w.session) :
    Heedful k (WalkM.onSession x : WalkM σ α) w := by
  have h := lift_bind (k := k) (f := fun a => (Pure.pure a : WalkM σ α)) hx fun a _ _ _ => pure a
  intro hs
  have hends := h hs
  show w.LeftBy k (WalkM.onSession x w)
  simp only [WalkM.onSession]
  cases hrun : x w.session with
  | ok a s' =>
    rw [bind_of_ok (Walk.lift_run hrun)] at hends
    exact hends
  | error e s' =>
    have hlift : (liftM x : WalkM σ α) w = .error e { w with session := s' } := by
      show WalkM.onSession x w = _
      simp only [WalkM.onSession, hrun]
    rw [bind_of_error hlift] at hends
    exact hends

/-- A question about the session, and what is done with the answer. -/
theorem ask_bind [Names α] {x : SessionM α} (hx : Reads x w.session)
    (hf : ∀ a, w.session.Knows a → Heedful k (f a) w) :
    Heedful k ((liftM x : WalkM σ α) >>= f) w := by
  intro hs
  rcases hx hs with ⟨a, hrun, ha⟩ | ⟨e, hrun, he⟩
  · rw [bind_of_ok (Walk.lift_run_still hrun)]
    exact hf a ha hs
  · have hlift : (liftM x : WalkM σ α) w = .error e w := by
      show WalkM.onSession x w = _
      simp only [WalkM.onSession, hrun]
    rw [bind_of_error hlift]
    exact ⟨.refl k _, hs, he⟩

/-- A change of the walk that the tree, the paths and the scopes do not take part in. -/
theorem modify {f : Walk σ → Walk σ} (hf : w.session.Closed →
    w.session.Extends (f w).session ∧ (f w).session.Closed) :
    Heedful k (modify f : WalkM σ PUnit) w := fun hs =>
  ⟨.of_extends (hf hs).1, (hf hs).2⟩

theorem ensuring {body : WalkM σ α} (hbody : Heedful k body w) {cleanup : Walk σ → Walk σ}
    (hclean : ∀ w', w'.session.Closed →
      w'.session.Extends (cleanup w').session ∧ (cleanup w').session.Closed) :
    Heedful k (Walk.ensuring body cleanup) w := by
  intro hs
  have hends := hbody hs
  simp only [Walk.ensuring]
  cases hrun : body w with
  | ok a w' =>
    rw [hrun] at hends
    obtain ⟨hext, hs'⟩ := hclean w' hends.2
    exact ⟨hends.1.trans (.of_extends hext), hs'⟩
  | error e w' =>
    rw [hrun] at hends
    obtain ⟨hext, hs'⟩ := hclean w' hends.2.1
    exact ⟨hends.1.trans (.of_extends hext), hs', hends.2.2⟩

theorem withFrame {body : WalkM σ α}
    (hbody : ∀ w', w.session.Preserves k w'.session → Heedful k body w') :
    Heedful k (Walk.withFrame body) w := by
  refine get_bind ?_
  refine (modify fun hs => ?_).bind fun _ w' h => ensuring (hbody w' h) fun w'' hs => ?_
  · exact hs.of_frames rfl rfl rfl rfl rfl rfl
      (List.forall_mem_cons.mpr ⟨Session.knows_nil, hs.frames⟩)
  · exact hs.of_frames rfl rfl rfl rfl rfl rfl fun f hf => hs.frames f (List.mem_filter.mp hf).1

/-! ## The steps of a walk -/

theorem isStopping : Heedful k (Walk.isStopping : WalkM σ Bool) w := pure _

section Path

variable {p : PathId} (hp : w.session.Knows p)

include hp

theorem mustStop : Heedful k (Walk.mustStop p) w :=
  ask_bind (.data hp) fun _ _ => isStopping.bind fun _ _ _ => pure _

theorem isInterrupted (n : NodeId) : Heedful k (Walk.isInterrupted p n) w :=
  ask_bind (.data hp) fun _ _ => isStopping.bind fun _ _ _ => pure _

theorem callAll (n : NodeId) {hs : List (Handler σ)}
    (hcalls : ∀ h ∈ hs, ∀ w', w.session.Preserves k w'.session → Heedful k (h p) w') :
    Heedful k (Walk.callAll p n hs) w := by
  induction hs generalizing w with
  | nil => exact isInterrupted hp n
  | cons h hs ih =>
    rw [Walk.callAll]
    refine (isInterrupted hp n).bind fun _ w₁ h₁ => ite (pure _) ?_
    refine (hcalls h List.mem_cons_self w₁ h₁).bind fun _ w₂ h₂ => ?_
    exact ih ((h₁.trans h₂).path hp) fun h' hh' w₃ h₃ =>
      hcalls h' (List.mem_cons_of_mem _ hh') w₃ (h₁.trans (h₂.trans h₃))

theorem beginVisit (requeued : Bool) : Heedful k (Walk.beginVisit p requeued) w := by
  refine get_bind (lift_bind (.annotate hp fun _ => ⟨rfl, rfl, rfl⟩) fun _ s' _ _ => ?_)
  exact modify fun hs => ⟨.refl _, hs⟩

theorem countRequeue : Heedful k (Walk.countRequeue p) w := by
  refine get_bind (lift_bind (.annotate hp fun _ => ⟨rfl, rfl, rfl⟩) fun _ s' h _ => ?_)
  refine ask_bind (.data (h.knows hp)) fun _ _ => ite ?_ (pure _)
  exact ask_bind (.type? (h.knows hp)) fun _ _ => throw (by simp)

end Path

theorem dequeue_bind {f : Option PathId → WalkM σ α}
    (hf : ∀ o w', w.session.Preserves k w'.session → w'.session.Knows o → Heedful k (f o) w') :
    Heedful k (Walk.dequeue >>= f) w := by
  intro hs
  have hnone : ∀ w' : Walk σ, Walk.dequeue w = .ok none w → w.LeftBy k ((Walk.dequeue >>= f) w) := by
    intro _ hrun
    rw [bind_of_ok hrun]
    exact hf none w (.refl k _) Session.knows_none hs
  cases hframes : w.session.frames with
  | nil => exact hnone w (by simp only [Walk.dequeue, run_get_bind, hframes]; rfl)
  | cons g rest =>
    cases hqueue : g.queue with
    | nil => exact hnone w (by simp only [Walk.dequeue, run_get_bind, hframes, hqueue]; rfl)
    | cons p queue =>
      have hrun : Walk.dequeue w = .ok (some p)
          { w with session := { w.session with frames := { g with queue } :: rest } } := by
        simp only [Walk.dequeue, run_get_bind, hframes, hqueue]
        rfl
      have hg : w.session.Knows g.queue := hs.frames g (hframes ▸ List.mem_cons_self)
      rw [hqueue] at hg
      obtain ⟨hp, hrest⟩ := Session.knows_cons.mp hg
      let w' : Walk σ := { w with session := { w.session with frames := { g with queue } :: rest } }
      obtain ⟨hext, hs'⟩ : w.session.Extends w'.session ∧ w'.session.Closed :=
        hs.of_frames rfl rfl rfl rfl rfl rfl (List.forall_mem_cons.mpr ⟨hrest, fun f hf =>
          hs.frames f (hframes ▸ List.mem_cons_of_mem _ hf)⟩)
      rw [bind_of_ok hrun]
      exact (hf (some p) w' (.of_extends hext) (hext.knows (Session.knows_some.mpr hp)) hs').after
        (.of_extends hext)

/-! ## Walks -/

theorem isolated {body : WalkM σ Bool}
    (hbody : ∀ w', w.session.Preserves k w'.session → Heedful k body w') :
    Heedful k (Walk.isolated body) w := by
  intro hs
  let start : Walk σ := { w with visited := 0, session := { w.session with stopping := false } }
  obtain ⟨hext, hstart⟩ : w.session.Extends start.session ∧ start.session.Closed :=
    hs.of_frames rfl rfl rfl rfl rfl rfl hs.frames
  have hends := (hbody start (.of_extends hext) hstart).after (.of_extends hext)
  have hresume : ∀ w' : Walk σ, w'.session.Closed →
      w'.session.Extends (Walk.resume w w').session ∧ (Walk.resume w w').session.Closed := fun w' hs' =>
    hs'.of_frames rfl rfl rfl rfl rfl rfl fun f hf => hs'.frames f (List.mem_of_mem_drop hf)
  show w.LeftBy k (Walk.isolated body w)
  unfold Walk.isolated
  cases hrun : body start with
  | ok stopped w' =>
    rw [hrun] at hends
    obtain ⟨hext', hs'⟩ := hresume w' hends.2
    exact ⟨hends.1.trans (.of_extends hext'), hs'⟩
  | error e w' =>
    rw [hrun] at hends
    obtain ⟨hext', hs'⟩ := hresume w' hends.2.1
    exact ⟨hends.1.trans (.of_extends hext'), hs', hends.2.2⟩

section Visitor

variable {v : Visitor σ} {s₀ : Session}

/-- What the steps of a walk keep, at some fuel. -/
structure Rounds (k : Nat) (s₀ : Session) (v : Visitor σ) (fuel : Nat) : Prop where
  visit : ∀ (w : Walk σ) depth p requeued, s₀.Preserves k w.session → w.session.Knows p →
    Heedful k (Walk.visit v fuel depth p requeued) w
  drain : ∀ (w : Walk σ) depth, s₀.Preserves k w.session → Heedful k (Walk.drain v fuel depth) w
  visitList : ∀ (w : Walk σ) depth p owner f seen i, s₀.Preserves k w.session → w.session.Knows p →
    w.session.Knows owner → Heedful k (Walk.visitList v fuel depth p owner f seen i) w
  visitFields : ∀ (w : Walk σ) depth p n fields, s₀.Preserves k w.session → w.session.Knows p →
    w.session.Knows n → Heedful k (Walk.visitFields v fuel depth p n fields) w
  visitSingle : ∀ (w : Walk σ) depth p, s₀.Preserves k w.session → w.session.Knows p →
    Heedful k (Walk.visitSingle v fuel depth p) w

/-- In every session that is left of this one, the handlers of the visitor are within range on known
paths. -/
def Handles (k : Nat) (s₀ : Session) (v : Visitor σ) : Prop :=
  ∀ phase selector h, (phase, selector, h) ∈ v.entries → ∀ (w : Walk σ) p,
    s₀.Preserves k w.session → w.session.Knows p → Heedful k (h p) w

variable (hv : Handles k s₀ v)

include hv

theorem handlers (hw : s₀.Preserves k w.session) {p : PathId} (hp : w.session.Knows p) (n : NodeId)
    (phase : Phase) (type : NodeType) :
    Heedful k (Walk.callAll p n (v.handlersFor phase type)) w :=
  callAll hp n fun h hh w' hw' =>
    let ⟨selector, he⟩ := Visitor.mem_handlersFor hh
    hv phase selector h he w' p (hw.trans hw') (hw'.path hp)

/-- One visit, when what comes below it is within range. -/
theorem visit_succ {fuel : Nat} (ih : Rounds k s₀ v fuel) (w : Walk σ) (depth : Nat) (p : PathId)
    (requeued : Bool) (hw : s₀.Preserves k w.session) (hp : w.session.Knows p) :
    Heedful k (Walk.visit v (fuel + 1) depth p requeued) w := by
  rw [Walk.visit]
  refine isStopping.bind_run fun _ w₁ hrun _ => ?_
  obtain rfl : w = w₁ := (EStateM.Result.ok.inj hrun).2
  refine ite (pure _) (ask_bind (.data hp) fun d hd => ?_)
  split
  · next node hnode _ =>
    have hn : w.session.Knows node := hd.1 node hnode
    refine ask_bind (.type hn) fun type _ => get_bind ?_
    refine ite (pure _) (ite (throw (by simp)) ?_)
    refine (beginVisit hp requeued).bind fun _ w₁ h₁ => ?_
    refine (handlers hv (hw.trans h₁) (h₁.path hp) node _ _).bind fun _ w₂ h₂ => ?_
    have h₁₂ := h₁.trans h₂
    refine ite (mustStop (h₁₂.path hp)) ?_
    refine (ih.visitFields w₂ _ _ _ _ (hw.trans h₁₂) (h₁₂.path hp) (h₁₂.node hn)).bind fun _ w₃ h₃ => ?_
    have h₁₃ := h₁₂.trans h₃
    refine ite (pure _) (ask_bind (.data (h₁₃.path hp)) fun _ _ => ite (mustStop (h₁₃.path hp)) ?_)
    refine ask_bind (.type (h₁₃.node hn)) fun _ _ => ?_
    exact (handlers hv (hw.trans h₁₃) (h₁₃.path hp) node _ _).bind fun _ w₄ h₄ =>
      mustStop ((h₁₃.trans h₄).path hp)
  · exact pure _

theorem rounds (fuel : Nat) : Rounds k s₀ v fuel := by
  induction fuel with
  | zero =>
    exact ⟨fun _ _ _ _ _ _ => by rw [Walk.visit]; exact throw (by simp),
      fun _ _ _ => by rw [Walk.drain]; exact throw (by simp),
      fun _ _ _ _ _ _ _ _ _ _ => by rw [Walk.visitList]; exact throw (by simp),
      fun _ _ _ _ _ _ _ _ => by rw [Walk.visitFields]; exact throw (by simp),
      fun _ _ _ _ _ => by rw [Walk.visitSingle]; exact throw (by simp)⟩
  | succ fuel ih =>
    refine ⟨visit_succ hv ih, fun w depth hw => ?_, fun w depth p owner f seen i hw hp ho => ?_,
      fun w depth p n fields hw hp hn => ?_, fun w depth p hw hp => ?_⟩
    · rw [Walk.drain]
      refine dequeue_bind fun o w₁ h₁ hknown => ?_
      cases o with
      | none => exact pure _
      | some p =>
        have hp := Session.knows_some.mp hknown
        refine lift_bind (.resync hp) fun _ s₂ h₂ _ => ask_bind (.isRemoved (h₂.knows hp)) fun _ _ => ?_
        have h₁₂ : s₀.Preserves k s₂ := hw.trans (h₁.trans (.of_extends h₂))
        refine ite (ih.drain _ depth h₁₂) ((countRequeue (h₂.knows hp)).bind fun _ w₃ h₃ => ?_)
        refine (ih.visit w₃ _ _ _ (h₁₂.trans h₃) (h₃.path (h₂.knows hp))).bind fun _ w₄ h₄ => ?_
        exact ite (pure _) (ih.drain w₄ depth (h₁₂.trans (h₃.trans h₄)))
    · rw [Walk.visitList]
      refine ask_bind (.node? hp) fun _ _ => ite (pure _) ?_
      refine ask_bind (.listLength ho f) fun _ _ => ite (pure _) ?_
      refine lift_bind (.element hp f i) fun q s₁ h₁ hq => ask_bind (.node? hq) fun o _ => ?_
      have hw₁ : s₀.Preserves k s₁ := hw.trans (.of_extends h₁)
      cases o with
      | none => exact pure _
      | some n =>
        refine ite (ih.visitList _ _ _ _ _ _ _ hw₁ (h₁.knows hp) (h₁.knows ho)) ?_
        refine (ih.visit _ _ _ _ hw₁ hq).bind fun _ w₂ h₂ => ite (pure _) ?_
        refine (ih.drain w₂ depth (hw₁.trans h₂)).bind fun _ w₃ h₃ => ite (pure _) ?_
        have h₂₃ := h₂.trans h₃
        refine lift_bind (.resync (h₂₃.path hq)) fun _ s₄ h₄ _ =>
          ask_bind (.data (h₄.knows (h₂₃.path hq))) fun _ _ => ?_
        exact ih.visitList _ _ _ _ _ _ _ (hw₁.trans (h₂₃.trans (.of_extends h₄)))
          (h₄.knows (h₂₃.path (h₁.knows hp))) (h₄.knows (h₂₃.node (h₁.knows ho)))
    · cases fields with
      | nil => rw [Walk.visitFields]; exact pure _
      | cons f fields =>
        rw [Walk.visitFields]
        refine ask_bind (.node? hp) fun _ _ => ite (pure _) (ask_bind (.kind hn) fun c _ => ?_)
        have hrest : ∀ (stopped : Bool) (w' : Walk σ), w.session.Preserves k w'.session →
            Heedful k (do
              if stopped then Pure.pure true
              else Walk.visitFields v fuel depth p n fields) w' := fun _ w' h =>
          ite (pure _) (ih.visitFields w' _ _ _ _ (hw.trans h) (h.path hp) (h.node hn))
        have hchild : Heedful k (do
            let child ← p.child f
            let stopped ← Walk.visitSingle v fuel depth child
            if stopped then Pure.pure true
            else Walk.visitFields v fuel depth p n fields) w :=
          lift_bind (.child hp f) fun q s₁ h₁ hq =>
            (ih.visitSingle _ depth q (hw.trans (.of_extends h₁)) hq).bind fun stopped w₂ h₂ =>
              hrest stopped w₂ ((Session.Preserves.of_extends h₁).trans h₂)
        split
        · exact (withFrame fun w' h => ih.visitList w' _ _ _ _ _ _ (hw.trans h) (h.path hp) (h.node hn)).bind
            hrest
        · exact hchild
        · exact hchild
        · exact (pure _).bind hrest
    · rw [Walk.visitSingle]
      refine ask_bind (.node? hp) fun o _ => ?_
      cases o with
      | none => exact pure _
      | some _ =>
        exact withFrame fun w' h => (ih.visit w' _ _ _ (hw.trans h) (h.path hp)).bind fun _ w'' h' =>
          ite (pure _) (ih.drain w'' depth (hw.trans (h.trans h')))

/-- A walk over the whole tree is within range if its handlers are. -/
theorem traverse (hw : s₀.Preserves k w.session) : Heedful k (Espalier.traverse v) w :=
  isolated fun _ h => lift_bind .rootPath fun root _ h' hroot =>
    (rounds hv _).visitSingle _ 0 root (hw.trans (h.trans (.of_extends h'))) hroot

/-- So is a walk over the children of a known path. -/
theorem traverseNode (hw : s₀.Preserves k w.session) {p : PathId} (hp : w.session.Knows p) :
    Heedful k (p.traverse v) w := by
  refine ask_bind (.node? hp) fun o ho => ?_
  cases o with
  | none => exact pure _
  | some n =>
    have hn := Session.knows_some.mp ho
    exact isolated fun w' h => ask_bind (.type (h.node hn)) fun _ _ =>
      (rounds hv _).visitFields w' 0 p n _ (hw.trans h) (h.path hp) (h.node hn)

end Visitor

end Heedful

instance : Names Traversal := .plain Traversal

/-- A walk that is run on a session. -/
theorem Careful.runOn [Names α] [Names σ] {x : WalkM σ α} {own : σ} {s : Session}
    (hx : Heedful s.scopes.scopes.size x { session := s, own })
    (hknown : ∀ a w', x { session := s, own } = .ok a w' → w'.session.Knows a ∧ w'.session.Knows w'.own) :
    Careful (x.runOn own) s := by
  intro hs
  have hends := hx hs
  have hext : ∀ s' : Session, s.Preserves s.scopes.scopes.size s' → s.Extends s' := fun s' h =>
    ⟨h.nodes, h.paths, h.scopes (Nat.le_refl _)⟩
  unfold WalkM.runOn
  cases hrun : x { session := s, own } with
  | ok a w' =>
    rw [hrun] at hends
    exact ⟨hext _ hends.1, hends.2, hknown a w' hrun⟩
  | error e w' =>
    rw [hrun] at hends
    exact ⟨hext _ hends.1, hends.2⟩

end Espalier
