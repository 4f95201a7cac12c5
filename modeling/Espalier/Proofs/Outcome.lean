import Espalier.Session.Basic

set_option autoImplicit false

/-! # Outcomes of computations

Two ways to speak about a computation that reads and changes a state and may fail. `Returns` says
that it succeeds, with a value and a state about which something holds. `Leads` says how the state
that it leaves behind is related to the state it started from, whether it succeeds or not; for a
relation that is reflexive and transitive it can be checked step by step. -/

namespace Espalier

variable {ε σ α β : Type}

/-! ## Running a sequence -/

theorem bind_of_ok {x : EStateM ε σ α} {f : α → EStateM ε σ β} {s s' : σ} {a : α}
    (h : x s = .ok a s') : (x >>= f) s = f a s' := by
  show EStateM.bind x f s = f a s'
  simp only [EStateM.bind, h]

theorem bind_of_error {x : EStateM ε σ α} {f : α → EStateM ε σ β} {s s' : σ} {e : ε}
    (h : x s = .error e s') : (x >>= f) s = .error e s' := by
  show EStateM.bind x f s = .error e s'
  simp only [EStateM.bind, h]

/-- A sequence that succeeds has succeeded in both parts. -/
theorem bind_eq_ok {x : EStateM ε σ α} {f : α → EStateM ε σ β} {s s' : σ} {b : β}
    (h : (x >>= f) s = .ok b s') : ∃ a s₁, x s = .ok a s₁ ∧ f a s₁ = .ok b s' := by
  cases hx : x s with
  | ok a s₁ => exact ⟨a, s₁, rfl, by rwa [bind_of_ok hx] at h⟩
  | error e s₁ => rw [bind_of_error hx] at h; cases h

@[simp] theorem run_pure (a : α) (s : σ) : (pure a : EStateM ε σ α) s = .ok a s := rfl

@[simp] theorem run_throw (e : ε) (s : σ) : (throw e : EStateM ε σ α) s = .error e s := rfl

@[simp] theorem run_get_bind (f : σ → EStateM ε σ β) (s : σ) : (get >>= f) s = f s s := rfl

@[simp] theorem run_modify (f : σ → σ) (s : σ) :
    (modify f : EStateM ε σ PUnit) s = .ok ⟨⟩ (f s) := rfl

@[simp] theorem run_modify_bind (g : σ → σ) (f : PUnit → EStateM ε σ β) (s : σ) :
    ((modify g : EStateM ε σ PUnit) >>= f) s = f ⟨⟩ (g s) := rfl

@[simp] theorem run_set_bind (s' : σ) (f : PUnit → EStateM ε σ β) (s : σ) :
    ((set s' : EStateM ε σ PUnit) >>= f) s = f ⟨⟩ s' := rfl

@[simp] theorem run_pure_bind (a : α) (f : α → EStateM ε σ β) (s : σ) :
    ((pure a : EStateM ε σ α) >>= f) s = f a s := rfl

/-! ### With a memory -/

namespace Memory

variable {μ : Type} {s s' : σ} {m m' : μ}

theorem run_get_bind (k : μ → StateT μ (EStateM ε σ) β) (m : μ) (s : σ) :
    (get >>= k).run m s = (k m).run m s := rfl

/-- A computation whose first part succeeds. -/
theorem run_of_run {x : StateT μ (EStateM ε σ) α} {k : α → StateT μ (EStateM ε σ) β} {a : α}
    (h : x.run m s = .ok (a, m') s') : (x >>= k).run m s = (k a).run m' s' := by
  show (x.run m >>= fun r => (k r.1).run r.2) s = _
  rw [bind_of_ok h]

/-- What does not look into the memory leaves it as it is. -/
theorem run_of_ok {x : EStateM ε σ α} {k : α → StateT μ (EStateM ε σ) β} {a : α}
    (h : x s = .ok a s') (m : μ) : (liftM x >>= k).run m s = (k a).run m s' := by
  have hlift : (do pure (← x, m) : EStateM ε σ (α × μ)) s = .ok (a, m) s' := bind_of_ok h
  exact bind_of_ok hlift

/-- A sequence that succeeds has succeeded in both parts. -/
theorem bind_eq_ok {x : StateT μ (EStateM ε σ) α} {k : α → StateT μ (EStateM ε σ) β} {b : β}
    (h : (x >>= k).run m s = .ok (b, m') s') : ∃ a m₁ s₁,
      x.run m s = .ok (a, m₁) s₁ ∧ (k a).run m₁ s₁ = .ok (b, m') s' := by
  have h : (x.run m >>= fun r => (k r.1).run r.2) s = .ok (b, m') s' := h
  obtain ⟨⟨a, m₁⟩, s₁, hx, hk⟩ := Espalier.bind_eq_ok h
  exact ⟨a, m₁, s₁, hx, hk⟩

/-- The same where the first part does not look into the memory. -/
theorem lift_bind_eq_ok {x : EStateM ε σ α} {k : α → StateT μ (EStateM ε σ) β} {b : β}
    (h : (liftM x >>= k).run m s = .ok (b, m') s') : ∃ a s₁,
      x s = .ok a s₁ ∧ (k a).run m s₁ = .ok (b, m') s' := by
  obtain ⟨a, m₁, s₁, hlift, hk⟩ := bind_eq_ok h
  have hlift : (do pure (← x, m) : EStateM ε σ (α × μ)) s = .ok (a, m₁) s₁ := hlift
  obtain ⟨a', s₂, hx, hpair⟩ := Espalier.bind_eq_ok hlift
  obtain ⟨hsame, rfl⟩ := EStateM.Result.ok.inj hpair
  obtain ⟨rfl, rfl⟩ := Prod.mk.inj hsame
  exact ⟨a', s₂, hx, hk⟩

end Memory

/-! ## Success -/

/-- The computation succeeds, and `post` holds of its value and of the state it leaves. -/
def Returns (x : EStateM ε σ α) (s : σ) (post : α → σ → Prop) : Prop :=
  ∃ a s', x s = .ok a s' ∧ post a s'

namespace Returns

variable {x : EStateM ε σ α} {f : α → EStateM ε σ β} {s : σ} {post : α → σ → Prop}
  {post' : β → σ → Prop}

theorem pure {a : α} (h : post a s) : Returns (pure a : EStateM ε σ α) s post := ⟨a, s, rfl, h⟩

theorem bind (hx : Returns x s post) (hf : ∀ a s', post a s' → Returns (f a) s' post') :
    Returns (x >>= f) s post' := by
  obtain ⟨a, s', hrun, ha⟩ := hx
  obtain ⟨b, s'', hrun', hb⟩ := hf a s' ha
  exact ⟨b, s'', by rw [bind_of_ok hrun, hrun'], hb⟩

theorem mono {post₁ : α → σ → Prop} (hx : Returns x s post)
    (h : ∀ a s', post a s' → post₁ a s') : Returns x s post₁ := by
  obtain ⟨a, s', hrun, ha⟩ := hx
  exact ⟨a, s', hrun, h a s' ha⟩

/-- What holds of a run that is known holds of every run. -/
theorem of_eq_ok {a : α} {s' : σ} (hx : Returns x s post) (h : x s = .ok a s') : post a s' := by
  obtain ⟨b, s'', hrun, hb⟩ := hx
  rw [h] at hrun
  cases hrun
  exact hb

end Returns

theorem returns_bind_of_ok {x : EStateM ε σ α} {f : α → EStateM ε σ β} {s s' : σ} {a : α}
    {post : β → σ → Prop} (h : x s = .ok a s') (hf : Returns (f a) s' post) :
    Returns (x >>= f) s post := by
  obtain ⟨b, s'', hrun, hb⟩ := hf
  exact ⟨b, s'', by rw [bind_of_ok h, hrun], hb⟩

/-! ## Whatever happens -/

/-- The state a computation leaves behind, whether it succeeds or fails. -/
def after (x : EStateM ε σ α) (s : σ) : σ :=
  match x s with
  | .ok _ s' => s'
  | .error _ s' => s'

theorem after_of_ok {x : EStateM ε σ α} {s s' : σ} {a : α} (h : x s = .ok a s') :
    after x s = s' := by
  simp only [after, h]

theorem after_of_error {x : EStateM ε σ α} {s s' : σ} {e : ε} (h : x s = .error e s') :
    after x s = s' := by
  simp only [after, h]

theorem after_bind_of_ok {x : EStateM ε σ α} {f : α → EStateM ε σ β} {s s' : σ} {a : α}
    (h : x s = .ok a s') : after (x >>= f) s = after (f a) s' := by
  simp only [after, bind_of_ok h]

/-- The value of a computation that succeeds. -/
def value? (x : EStateM ε σ α) (s : σ) : Option α :=
  match x s with
  | .ok a _ => some a
  | .error _ _ => none

theorem eq_ok_of_value? {x : EStateM ε σ α} {s : σ} {a : α} (h : value? x s = some a) :
    x s = .ok a (after x s) := by
  unfold value? at h
  split at h
  · next b s' hrun =>
    rw [after_of_ok hrun, hrun, Option.some.inj h]
  · cases h

/-- Whatever the computation does, the state it leaves is related to the state it found. -/
def Leads (R : σ → σ → Prop) (x : EStateM ε σ α) : Prop := ∀ s, R s (after x s)

namespace Leads

variable {R : σ → σ → Prop}

theorem mono {S : σ → σ → Prop} {x : EStateM ε σ α} (hx : Leads R x)
    (h : ∀ s s', R s s' → S s s') : Leads S x :=
  fun s => h s _ (hx s)

theorem of_ok {x : EStateM ε σ α} {s s' : σ} {a : α} (hx : Leads R x) (h : x s = .ok a s') :
    R s s' := by
  have := hx s
  rwa [after_of_ok h] at this

section Preorder

variable (hrefl : ∀ s, R s s) (htrans : ∀ s₁ s₂ s₃, R s₁ s₂ → R s₂ s₃ → R s₁ s₃)

include hrefl in
theorem pure (a : α) : Leads R (pure a : EStateM ε σ α) := fun s => hrefl s

include hrefl in
theorem throw (e : ε) : Leads R (throw e : EStateM ε σ α) := fun s => hrefl s

include hrefl in
theorem get : Leads R (get : EStateM ε σ σ) := fun s => hrefl s

include htrans in
/-- A step after a step. The second one may rely on how the first one ended. -/
theorem bind_of {x : EStateM ε σ α} {f : α → EStateM ε σ β} (hx : Leads R x)
    (hf : ∀ a s s', x s = .ok a s' → R s' (after (f a) s')) : Leads R (x >>= f) := by
  intro s
  have hs := hx s
  cases h : x s with
  | ok a s' =>
    rw [after_of_ok h] at hs
    have hb : after (x >>= f) s = after (f a) s' := by
      simp only [after, bind_of_ok h]
    rw [hb]
    exact htrans _ _ _ hs (hf a s s' h)
  | error e s' =>
    rw [after_of_error h] at hs
    rw [after_of_error (bind_of_error h)]
    exact hs

include htrans in
theorem bind {x : EStateM ε σ α} {f : α → EStateM ε σ β} (hx : Leads R x)
    (hf : ∀ a, Leads R (f a)) : Leads R (x >>= f) :=
  bind_of htrans hx fun a _ s' _ => hf a s'

include hrefl htrans in
theorem mapM {f : α → EStateM ε σ β} (l : List α) (hf : ∀ a ∈ l, Leads R (f a)) :
    Leads R (l.mapM f) := by
  induction l with
  | nil => exact pure hrefl []
  | cons a l ih =>
    rw [List.mapM_cons]
    refine bind htrans (hf a (by simp)) fun b => ?_
    exact bind htrans (ih fun a' ha' => hf a' (by simp [ha'])) fun bs => pure hrefl _

include hrefl htrans in
theorem forM {f : α → EStateM ε σ PUnit} (l : List α) (hf : ∀ a ∈ l, Leads R (f a)) :
    Leads R (l.forM f) := by
  induction l with
  | nil => exact pure hrefl PUnit.unit
  | cons a l ih =>
    exact bind htrans (hf a (by simp)) fun _ => ih fun a' ha' => hf a' (by simp [ha'])

end Preorder

end Leads

end Espalier
