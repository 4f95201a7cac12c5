import Espalier.Proofs.Placing
import Espalier.Proofs.Questions

set_option autoImplicit false

/-! # Tidy sessions

Where a path lives is written down twice: in the bucket of a container, and with the path itself. A
session is `Tidy` when the two agree, and when the paths that were removed, and those that never had
a position, hold no node. Navigation, scopes and inference keep a session tidy and remove no path
(`Quiet`), whatever tree they meet and whichever path they start from. What else an operation does
to paths rests on a few writes, each with the condition under which it keeps a session tidy. -/

namespace Espalier

open SessionM

variable {α β : Type}

/-! ## The invariant -/

/-- What is known about a path does not contradict itself: a removed path holds no node, is not
descended into and had a position, and a path without a position holds no node. -/
structure PathData.Fit (d : PathData) : Prop where
  removed : d.removed = true → d.node = none ∧ d.skip = true ∧ d.container ≠ .detached
  adrift : d.container = .detached → d.node = none

/-- A change that moves no path, and neither removes it nor brings it back. -/
def PathData.Harmless (f : PathData → PathData) : Prop :=
  ∀ d : PathData, d.Fit → (f d).Fit ∧ (f d).container = d.container ∧ (f d).removed = d.removed

namespace Session

/-- The buckets agree with what is known about the paths. -/
structure Tidy (s : Session) : Prop where
  /-- A path in a bucket lives in that container and is not removed. -/
  filed : ∀ c (p : PathId), p ∈ s.bucket c →
    ∃ d, s.paths[p.index]? = some d ∧ d.container = c ∧ d.removed = false
  nodup : ∀ c, (s.bucket c).Nodup
  fit : ∀ (p : PathId) d, s.paths[p.index]? = some d → d.Fit
  /-- A path that is found again without a position has none. -/
  strays : ∀ parent (p : PathId), s.detached.get? parent = some p →
    ∃ d, s.paths[p.index]? = some d ∧ d.container = .detached

/-- The path is known and not removed. -/
def Live (s : Session) (p : PathId) : Prop :=
  ∃ d, s.paths[p.index]? = some d ∧ d.removed = false

/-- The path is known and has, or had, a position. -/
def Placed (s : Session) (p : PathId) : Prop :=
  ∃ d, s.paths[p.index]? = some d ∧ d.container ≠ .detached

/-- The session is tidy, and no path lost its position for good. -/
structure Upkeep (s s' : Session) : Prop where
  tidy : s'.Tidy
  placed : ∀ p, s.Placed p → s'.Placed p

/-- The session is tidy, no path was removed, and none that was removed was brought back. -/
structure Calm (s s' : Session) : Prop extends Upkeep s s' where
  live : ∀ p, s.Live p → s'.Live p
  gone : ∀ p, s.Gone p → s'.Gone p

theorem Upkeep.refl {s : Session} (h : s.Tidy) : s.Upkeep s := ⟨h, fun _ hp => hp⟩

theorem Upkeep.trans {s s₁ s₂ : Session} (h₁ : s.Upkeep s₁) (h₂ : s₁.Upkeep s₂) : s.Upkeep s₂ :=
  ⟨h₂.tidy, fun p hp => h₂.placed p (h₁.placed p hp)⟩

theorem Calm.refl {s : Session} (h : s.Tidy) : s.Calm s := ⟨.refl h, fun _ hp => hp, fun _ hp => hp⟩

theorem Calm.trans {s s₁ s₂ : Session} (h₁ : s.Calm s₁) (h₂ : s₁.Calm s₂) : s.Calm s₂ :=
  ⟨h₁.toUpkeep.trans h₂.toUpkeep, fun p hp => h₂.live p (h₁.live p hp),
    fun p hp => h₂.gone p (h₁.gone p hp)⟩

namespace Tidy

variable {s s' : Session} {p : PathId} {d : PathData} {c : Container}

/-- A path with a node is not removed and has a position. -/
theorem live_of_holds (h : s.Tidy) {n : NodeId} (hp : s.Holds p n) : s.Live p ∧ s.Placed p := by
  obtain ⟨d, hd, hn⟩ := hp
  have hne : d.node ≠ none := by simp [hn]
  refine ⟨⟨d, hd, ?_⟩, d, hd, fun hc => hne ((h.fit p d hd).adrift hc)⟩
  cases hr : d.removed with
  | false => rfl
  | true => exact absurd ((h.fit p d hd).removed hr).1 hne

/-- A path is in no bucket but that of its container. -/
theorem container_eq (h : s.Tidy) (hd : s.paths[p.index]? = some d) (hb : p ∈ s.bucket c) :
    d.container = c ∧ d.removed = false := by
  obtain ⟨e, he, hc⟩ := h.filed c p hb
  obtain rfl : d = e := Option.some.inj (hd.symm.trans he)
  exact hc

/-- A path that is found again without a position is not removed. -/
theorem live_stray (h : s.Tidy) {parent : Option PathId} (hp : s.detached.get? parent = some p) :
    ∃ d, s.paths[p.index]? = some d ∧ d.container = .detached ∧ d.removed = false := by
  obtain ⟨d, hd, hc⟩ := h.strays parent p hp
  refine ⟨d, hd, hc, ?_⟩
  cases hr : d.removed with
  | false => rfl
  | true => exact absurd hc ((h.fit p d hd).removed hr).2.2

/-! ### Writes that keep a session tidy -/

theorem of_same (h : s.Tidy) (hp : s'.paths = s.paths) (hc : s'.cache = s.cache)
    (hd : s'.detached = s.detached) : s'.Tidy := by
  have hb : ∀ c, s'.bucket c = s.bucket c := fun c => by simp only [bucket, hc]
  refine ⟨fun c p hm => ?_, fun c => ?_, fun p d hm => ?_, fun parent p hm => ?_⟩
  · rw [hb] at hm
    rw [hp]
    exact h.filed c p hm
  · rw [hb]
    exact h.nodup c
  · rw [hp] at hm
    exact h.fit p d hm
  · rw [hd] at hm
    rw [hp]
    exact h.strays parent p hm

theorem calm_of_same (h : s.Tidy) (hp : s'.paths = s.paths) (hc : s'.cache = s.cache)
    (hd : s'.detached = s.detached) : s.Calm s' := by
  refine ⟨⟨h.of_same hp hc hd, fun p => ?_⟩, fun p => ?_, fun p => ?_⟩
  · simp only [Placed, hp, imp_self]
  · simp only [Live, hp, imp_self]
  · simp only [Gone, hp, imp_self]

/-- Writing to one path. What it becomes has to suit the buckets that it is in. -/
theorem modify (h : s.Tidy) (hd : s.paths[p.index]? = some d) (f : PathData → PathData)
    (hfit : (f d).Fit) (hstray : d.container = .detached → (f d).container = .detached)
    (hfiled : ∀ c, p ∈ s.bucket c → (f d).container = c ∧ (f d).removed = false) :
    Tidy { s with paths := s.paths.modify p.index f } := by
  have hpaths : ∀ q : PathId, (s.paths.modify p.index f)[q.index]? =
      if q = p then some (f d) else s.paths[q.index]? := by
    intro q
    rw [getElem?_modify_paths]
    split
    · next hq => rw [hq, hd, Option.map_some]
    · rfl
  refine ⟨fun c q hq => ?_, h.nodup, fun q e he => ?_, fun parent q hq => ?_⟩
  · show ∃ d, (s.paths.modify p.index f)[q.index]? = some d ∧ _
    rw [hpaths]
    split
    · next hqp => exact ⟨f d, rfl, hfiled c (hqp ▸ hq)⟩
    · exact h.filed c q hq
  · change (s.paths.modify p.index f)[q.index]? = some e at he
    rw [hpaths] at he
    split at he
    · rwa [← Option.some.inj he]
    · exact h.fit q e he
  · show ∃ d, (s.paths.modify p.index f)[q.index]? = some d ∧ _
    obtain ⟨e, he, hc⟩ := h.strays parent q hq
    rw [hpaths]
    split
    · next hqp =>
      obtain rfl : d = e := Option.some.inj (hd.symm.trans (hqp ▸ he))
      exact ⟨f d, rfl, hstray hc⟩
    · exact ⟨e, he, hc⟩

/-- Writing to one path what neither moves nor removes it. -/
theorem calm_modify (h : s.Tidy) (f : PathData → PathData)
    (hf : ∀ d, s.paths[p.index]? = some d →
      (f d).Fit ∧ (f d).container = d.container ∧ (f d).removed = d.removed) :
    s.Calm { s with paths := s.paths.modify p.index f } := by
  have hkept : ∀ (P : PathData → Prop), (∀ d, s.paths[p.index]? = some d → P d → P (f d)) →
      ∀ q : PathId, (∃ d, s.paths[q.index]? = some d ∧ P d) →
        ∃ d, (s.paths.modify p.index f)[q.index]? = some d ∧ P d := by
    rintro P hP q ⟨d, hd, hPd⟩
    rw [getElem?_modify_paths]
    split
    · next hq =>
      subst hq
      exact ⟨f d, by rw [hd, Option.map_some], hP d hd hPd⟩
    · exact ⟨d, hd, hPd⟩
  refine ⟨⟨?_, hkept _ fun d hd hc => ?_⟩, hkept _ fun d hd hr => ?_, hkept _ fun d hd hg => ?_⟩
  · cases hd : s.paths[p.index]? with
    | none =>
      have hsame : s.paths.modify p.index f = s.paths := by
        refine Array.ext_getElem? fun i => ?_
        have := getElem?_modify_paths s.paths p ⟨i⟩ f
        rw [this]
        split
        · next hi => rw [← hi] at hd; rw [hd]; rfl
        · rfl
      exact h.of_same hsame rfl rfl
    | some d =>
      obtain ⟨hfit, hc, hr⟩ := hf d hd
      exact h.modify hd f hfit (fun hdet => hc.trans hdet) fun c hb =>
        ⟨hc.trans (h.container_eq hd hb).1, hr.trans (h.container_eq hd hb).2⟩
  · rw [(hf d hd).2.1]
    exact hc
  · rw [(hf d hd).2.2]
    exact hr
  · rw [(hf d hd).2.1, (hf d hd).2.2]
    exact hg

/-- Taking a path out of a bucket. -/
theorem unfiled (h : s.Tidy) (c : Container) (p : PathId) : (s.unfiled c p).Tidy := by
  have hsub : ∀ c', ((s.unfiled c p).bucket c').Sublist (s.bucket c') := by
    intro c'
    rw [bucket_unfiled]
    split
    · next hc => rw [hc]; exact List.filter_sublist
    · exact List.Sublist.refl _
  refine ⟨fun c' q hq => ?_, fun c' => (h.nodup c').sublist (hsub c'), fun q e he => ?_,
    fun parent q hq => ?_⟩
  · rw [paths_unfiled]
    exact h.filed c' q ((hsub c').subset hq)
  · rw [paths_unfiled] at he
    exact h.fit q e he
  · rw [detached_unfiled] at hq
    rw [paths_unfiled]
    exact h.strays parent q hq

/-- A path that was taken out of the bucket of its container is in no bucket. -/
theorem not_mem_unfiled (h : s.Tidy) (hd : s.paths[p.index]? = some d) (c : Container) :
    p ∉ (s.unfiled d.container p).bucket c := by
  intro hb
  rw [bucket_unfiled] at hb
  split at hb
  · simp at hb
  · next hc => exact hc (h.container_eq hd hb).1.symm

/-- Putting a path into the bucket of its container. -/
theorem file (h : s.Tidy) (hd : s.paths[p.index]? = some d) (hr : d.removed = false)
    (hp : p ∉ s.bucket d.container) :
    Tidy { s with cache := s.cache.insert d.container (s.bucket d.container ++ [p]) } := by
  refine ⟨fun c q hq => ?_, fun c => ?_, h.fit, h.strays⟩
  · rw [bucket_insert] at hq
    split at hq
    · next hc =>
      rcases List.mem_append.mp hq with hq | hq
      · exact h.filed c q (hc ▸ hq)
      · rw [List.mem_singleton.mp hq]
        exact ⟨d, hd, hc.symm, hr⟩
    · exact h.filed c q hq
  · rw [bucket_insert]
    split
    · exact (h.nodup _).append (List.nodup_singleton p) (List.disjoint_singleton.mpr hp)
    · exact h.nodup c

/-- A new path. -/
theorem calm_push (h : s.Tidy) (hfit : d.Fit) : s.Calm { s with paths := s.paths.push d } := by
  have hold : ∀ {q : PathId} {e : PathData}, s.paths[q.index]? = some e →
      (s.paths.push d)[q.index]? = some e := by
    intro q e he
    have hlt := (Array.getElem?_eq_some_iff.mp he).1
    rw [Array.getElem?_push, if_neg (by omega), he]
  refine ⟨⟨⟨fun c q hq => ?_, h.nodup, fun q e he => ?_, fun parent q hq => ?_⟩, ?_⟩, ?_, ?_⟩
  · obtain ⟨e, he, hc⟩ := h.filed c q hq
    exact ⟨e, hold he, hc⟩
  · change (s.paths.push d)[q.index]? = some e at he
    rw [Array.getElem?_push] at he
    split at he
    · rwa [← Option.some.inj he]
    · exact h.fit q e he
  · obtain ⟨e, he, hc⟩ := h.strays parent q hq
    exact ⟨e, hold he, hc⟩
  · rintro q ⟨e, he, hc⟩
    exact ⟨e, hold he, hc⟩
  · rintro q ⟨e, he, hr⟩
    exact ⟨e, hold he, hr⟩
  · rintro q ⟨e, he, hg⟩
    exact ⟨e, hold he, hg⟩

end Tidy

/-! ## Going to a position -/

/-- What going to a position gives: a path that is said to live there and to hold what stands there.
No other path changes, and the path is a new one or was in the bucket of the container. -/
structure Lands (s : Session) (parent : Option PathId) (c : Container) (k : Key)
    (node : Option NodeId) (p : PathId) (s' : Session) : Prop where
  calm : s.Calm s'
  rest : s' = { s with paths := s'.paths, cache := s'.cache }
  data : ∃ d, s'.paths[p.index]? = some d ∧ d.place = (node, c, k, false) ∧ d.parent = parent
  others : ∀ q, q ≠ p → s'.paths[q.index]? = s.paths[q.index]?
  known : p ∈ s.bucket c ∨ s.paths[p.index]? = none

end Session

open Session

section PathFor

variable {s : Session} {parent : Option PathId} {c : Container} {k : Key} {node : Option NodeId}

/-- A position whose path is in the bucket already. -/
theorem pathFor_run_of_cached (hc : c ≠ .detached) (hnode : nodeAt c k s = .ok node s) {p : PathId}
    {d : PathData} (hcached : s.cached? c k node = some p) (hd : s.paths[p.index]? = some d) :
    pathFor parent c k s = .ok p
      { s with paths := s.paths.modify p.index fun d => { d with parent, key := k, node } } := by
  unfold pathFor
  rw [if_neg hc, bind_of_ok hnode, run_get_bind, hcached]
  exact bind_of_ok (p.modifyData_run hd _)

/-- A position that gets a new path. -/
theorem pathFor_run_of_new (hc : c ≠ .detached) (hnode : nodeAt c k s = .ok node s)
    (hcached : s.cached? c k node = none) : pathFor parent c k s = .ok ⟨s.paths.size⟩
      { s with
        paths := s.paths.push { node, parent, container := c, key := k }
        cache := s.cache.insert c (s.bucket c ++ [⟨s.paths.size⟩]) } := by
  unfold pathFor
  rw [if_neg hc, bind_of_ok hnode, run_get_bind, hcached]
  rfl

theorem pathFor_lands (hs : s.Tidy) (parent : Option PathId) (hc : c ≠ .detached)
    (hnode : nodeAt c k s = .ok node s) :
    Returns (pathFor parent c k) s (s.Lands parent c k node) := by
  cases hcached : s.cached? c k node with
  | some p =>
    have hb := List.mem_of_find?_eq_some hcached
    obtain ⟨d, hd, hdc, hr⟩ := hs.filed c p hb
    refine ⟨p, _, pathFor_run_of_cached hc hnode hcached hd, ?_, rfl, ?_, fun q hq => ?_, .inl hb⟩
    · refine hs.calm_modify _ fun e he => ?_
      obtain rfl : d = e := Option.some.inj (hd.symm.trans he)
      exact ⟨⟨fun h => by simp [hr] at h, fun h => absurd (hdc.symm.trans h) hc⟩, rfl, rfl⟩
    · refine ⟨{ d with parent, key := k, node }, ?_, ?_, rfl⟩
      · rw [getElem?_modify_paths, if_pos rfl, hd, Option.map_some]
      · simp only [PathData.place, hdc, hr]
    · rw [getElem?_modify_paths, if_neg hq]
  | none =>
    have hpush := hs.calm_push (d := { node, parent, container := c, key := k })
      ⟨fun h => by simp at h, fun h => absurd h hc⟩
    have hnew : (⟨s.paths.size⟩ : PathId) ∉ s.bucket c := by
      intro hb
      obtain ⟨d, hd, -⟩ := hs.filed c _ hb
      exact absurd (Array.getElem?_eq_some_iff.mp hd).1 (Nat.lt_irrefl _)
    have hfile := hpush.tidy.file (p := ⟨s.paths.size⟩) Array.getElem?_push_size rfl hnew
    refine ⟨⟨s.paths.size⟩, _, pathFor_run_of_new hc hnode hcached, ?_, rfl, ?_, fun q hq => ?_, ?_⟩
    · exact hpush.trans ⟨⟨hfile, fun _ hp => hp⟩, fun _ hp => hp, fun _ hp => hp⟩
    · exact ⟨_, Array.getElem?_push_size, rfl, rfl⟩
    · have hne : q.index ≠ s.paths.size := fun h => hq (by cases q; simpa using h)
      show (s.paths.push _)[q.index]? = _
      rw [Array.getElem?_push, if_neg hne]
    · exact .inr (Array.getElem?_eq_none (Nat.le_refl _))

theorem pathFor_live {p : PathId} {s' : Session} (hs : s.Tidy) (hc : c ≠ .detached)
    (hrun : pathFor parent c k s = .ok p s') : s'.Live p := by
  have hopen := hrun
  unfold pathFor at hopen
  rw [if_neg hc] at hopen
  obtain ⟨node, s₁, hnode, -⟩ := bind_eq_ok hopen
  obtain rfl := question_run (.nodeAt c k) hnode
  obtain ⟨d, hd, hpl, -⟩ := ((pathFor_lands hs parent hc hnode).of_eq_ok hrun).data
  simp only [PathData.place, Prod.mk.injEq] at hpl
  exact ⟨d, hd, hpl.2.2.2⟩

/-- A path without a position is not removed. -/
theorem detachedAt_live {p : PathId} {s' : Session} (hs : s.Tidy)
    (hrun : detachedAt parent k s = .ok p s') : s'.Live p := by
  unfold detachedAt at hrun
  rw [run_get_bind] at hrun
  cases hget : s.detached.get? parent with
  | some q =>
    obtain ⟨d, hd, -, -⟩ := hs.live_stray hget
    rw [hget] at hrun
    have hq := bind_of_ok (f := fun _ => (pure q : SessionM PathId)) (q.modifyData_run hd
      fun _ => { node := none, parent, container := .detached, key := k })
    obtain ⟨rfl, rfl⟩ : q = p ∧ _ = s' := by simpa using hq.symm.trans hrun
    exact ⟨_, by rw [getElem?_modify_paths, if_pos rfl, hd, Option.map_some], rfl⟩
  | none =>
    rw [hget] at hrun
    cases hrun
    exact ⟨_, Array.getElem?_push_size, rfl⟩

end PathFor

/-! ## Quiet computations -/

/-- In a tidy session the computation removes no path, and leaves the session tidy. -/
def Quiet (x : SessionM α) : Prop := Leads (fun s s' => s.Tidy → s.Calm s') x

namespace Quiet

theorem calm_refl (s : Session) (h : s.Tidy) : s.Calm s := .refl h

theorem calm_trans (s s₁ s₂ : Session) (h₁ : s.Tidy → s.Calm s₁) (h₂ : s₁.Tidy → s₁.Calm s₂)
    (h : s.Tidy) : s.Calm s₂ := (h₁ h).trans (h₂ (h₁ h).tidy)

theorem bind {x : SessionM α} {f : α → SessionM β} (hx : Quiet x) (hf : ∀ a, Quiet (f a)) :
    Quiet (x >>= f) := Leads.bind calm_trans hx hf

/-- Computations that are composed of quiet ones are quiet. -/
theorem composed {Primitive : (α : Type) → SessionM α → Prop} {x : SessionM α}
    (hx : Composed Primitive x) (h : ∀ α (x : SessionM α), Primitive α x → Quiet x) : Quiet x :=
  hx.leads calm_refl calm_trans h

theorem pure (a : α) : Quiet (pure a : SessionM α) := Leads.pure calm_refl a

theorem throw (e : Failure) : Quiet (throw e : SessionM α) := Leads.throw calm_refl e

theorem get : Quiet (get : SessionM Session) := Leads.get calm_refl

/-- A question changes nothing. -/
theorem question {x : SessionM α} (hx : Composed (fun _ _ => False) x) : Quiet x :=
  composed hx fun _ _ h => h.elim

theorem mapM {f : α → SessionM β} (l : List α) (hf : ∀ a, Quiet (f a)) : Quiet (l.mapM f) :=
  Leads.mapM calm_refl calm_trans l fun a _ => hf a

theorem forM {f : α → SessionM PUnit} (l : List α) (hf : ∀ a, Quiet (f a)) : Quiet (l.forM f) :=
  Leads.forM calm_refl calm_trans l fun a _ => hf a

theorem ite {c : Prop} [Decidable c] {x y : SessionM α} (hx : Quiet x) (hy : Quiet y) :
    Quiet (if c then x else y) := by
  split
  · exact hx
  · exact hy

/-- A change of anything but the paths and where they are found. -/
theorem aside {x : SessionM α} (h : ∀ s, (after x s).paths = s.paths ∧
    (after x s).cache = s.cache ∧ (after x s).detached = s.detached) : Quiet x :=
  fun s hs => hs.calm_of_same (h s).1 (h s).2.1 (h s).2.2

theorem onTree (build : TreeM α) : Quiet (onTree build) := by
  refine aside fun s => ?_
  cases h : build.run s.tree with
  | none =>
    rw [after_of_error (onTree_dangling h)]
    exact ⟨rfl, rfl, rfl⟩
  | some r =>
    rw [after_of_ok (onTree_run h)]
    exact ⟨rfl, rfl, rfl⟩

theorem buildBelow (ids : List NodeId) (build : TreeM α) : Quiet (buildBelow ids build) :=
  fun s => by
    rw [after_buildBelow]
    exact onTree build s

theorem recordMutation : Quiet recordMutation := aside fun _ => ⟨rfl, rfl, rfl⟩

/-- A harmless change of what is known about a path. -/
theorem modifyData (p : PathId) {f : PathData → PathData} (hf : PathData.Harmless f) :
    Quiet (p.modifyData f) := by
  refine bind (question (.data p)) fun _ s hs => ?_
  exact hs.calm_modify f fun d hd => hf d (hs.fit p d hd)

theorem detachedAt (parent : Option PathId) (k : Key) : Quiet (detachedAt parent k) := by
  intro s hs
  cases hget : s.detached.get? parent with
  | some p =>
    obtain ⟨d, hd, hc, hr⟩ := hs.live_stray hget
    have hrun : Espalier.detachedAt parent k s = .ok p { s with
        paths := s.paths.modify p.index fun _ =>
          { node := none, parent, container := .detached, key := k } } := by
      unfold Espalier.detachedAt
      rw [run_get_bind, hget]
      exact bind_of_ok (p.modifyData_run hd _)
    rw [after_of_ok hrun]
    refine hs.calm_modify _ fun e he => ?_
    obtain rfl : d = e := Option.some.inj (hd.symm.trans he)
    exact ⟨⟨fun h => by simp at h, fun _ => rfl⟩, hc.symm, hr.symm⟩
  | none =>
    have hpush := hs.calm_push (d := { node := none, parent, container := .detached, key := k })
      ⟨fun h => by simp at h, fun _ => rfl⟩
    have hrun : Espalier.detachedAt parent k s = .ok ⟨s.paths.size⟩ { s with
        paths := s.paths.push { node := none, parent, container := .detached, key := k }
        detached := s.detached.insert parent ⟨s.paths.size⟩ } := by
      unfold Espalier.detachedAt
      rw [run_get_bind, hget]
      rfl
    rw [after_of_ok hrun]
    refine hpush.trans ⟨⟨⟨hpush.tidy.filed, hpush.tidy.nodup, hpush.tidy.fit, ?_⟩,
      fun _ hp => hp⟩, fun _ hp => hp, fun _ hp => hp⟩
    intro q p hp
    rw [Table.get?_insert] at hp
    split at hp
    · obtain rfl := Option.some.inj hp
      exact ⟨_, Array.getElem?_push_size, rfl⟩
    · exact hpush.tidy.strays q p hp

theorem pathFor (parent : Option PathId) (c : Container) (k : Key) :
    Quiet (pathFor parent c k) := by
  by_cases hc : c = .detached
  · unfold Espalier.pathFor
    rw [if_pos hc]
    exact detachedAt parent k
  · intro s hs
    cases hnode : nodeAt c k s with
    | ok node s₁ =>
      obtain rfl := question_run (.nodeAt c k) hnode
      obtain ⟨p, s', hrun, hp⟩ := pathFor_lands hs parent hc hnode
      rw [after_of_ok hrun]
      exact hp.calm
    | error e s₁ =>
      have hsame : s₁ = s := by
        have := Composed.question_after (.nodeAt c k) s
        rwa [after_of_error hnode] at this
      have hrun : Espalier.pathFor parent c k s = .error e s := by
        unfold Espalier.pathFor
        rw [if_neg hc, bind_of_error hnode, hsame]
      rw [after_of_error hrun]
      exact .refl hs

theorem hop {x : SessionM α} (h : Hop α x) : Quiet x := by
  refine composed h.landing fun _ _ landing => ?_
  cases landing with
  | root => exact pathFor none .root .root
  | nowhere parent => exact pathFor parent .detached .root
  | slot p n f => exact pathFor (some p) (.slot n) (.field f)
  | item p n f i => exact pathFor (some p) (.list n f) (.index i)

end Quiet

/-- A single-node field leads to a path that is not removed. -/
theorem PathId.child_live {s s' : Session} (hs : s.Tidy) {p q : PathId} {f : Field}
    (hrun : p.child f s = .ok q s') : s'.Live q := by
  have hstray : ∀ s : Session, s.Tidy → detachedPath (some p) s = .ok q s' → s'.Live q :=
    fun _ hs hrun => detachedAt_live hs hrun
  obtain ⟨o, s₁, ho, hrest⟩ := bind_eq_ok hrun
  obtain rfl := question_run (.node? p) ho
  cases o with
  | none => exact hstray _ hs hrest
  | some id =>
    obtain ⟨kind, s₂, hkind, hgo⟩ := bind_eq_ok hrest
    obtain rfl := question_run (.ask _) hkind
    rcases hc : kind.child? f with _ | (_ | _ | _) <;> rw [hc] at hgo
    · exact hstray _ hs hgo
    · exact pathFor_live hs (by simp) hgo
    · exact pathFor_live hs (by simp) hgo
    · exact hstray _ hs hgo

section Lands

variable {s : Session} {p : PathId} {n : NodeId} {k : NodeKind} {f : Field}

/-- Going to a single-node field of the node at a path. -/
theorem PathId.child_lands (hs : s.Tidy) (hp : s.Holds p n) (hk : s.tree.kind? n = some k)
    {c : Child} (hc : k.child? f = some c) (hl : c.isList = false) :
    Returns (p.child f) s (s.Lands (some p) (.slot n) (.field f) c.node?) := by
  have hnode : nodeAt (.slot n) (.field f) s = .ok c.node? s := by
    show ((ask fun t => t.kind? n) >>= _) s = _
    rw [bind_of_ok (ask_run hk), hc]
    rfl
  unfold PathId.child
  refine returns_bind_of_ok (node?_run_of_holds hp) (returns_bind_of_ok (ask_run hk) ?_)
  rw [hc]
  cases c with
  | one => exact pathFor_lands hs _ (by simp) hnode
  | opt => exact pathFor_lands hs _ (by simp) hnode
  | many => cases hl

/-- Going to an element of a list of the node at a path. -/
theorem PathId.element_lands (hs : s.Tidy) (hp : s.Holds p n) (hk : s.tree.kind? n = some k)
    {ids : List NodeId} (hc : k.child? f = some (.many ids)) (i : Nat) :
    Returns (p.element f i) s (s.Lands (some p) (.list n f) (.index i) ids[i]?) := by
  have hnode : nodeAt (.list n f) (.index i) s = .ok ids[i]? s := by
    show ((ask fun t => t.kind? n) >>= _) s = _
    rw [bind_of_ok (ask_run hk), hc]
    rfl
  unfold PathId.element
  refine returns_bind_of_ok (node?_run_of_holds hp) (returns_bind_of_ok (ask_run hk) ?_)
  rw [hc]
  exact pathFor_lands hs _ (by simp) hnode

end Lands

theorem Navigating.quiet {x : SessionM α} (hx : Navigating x) : Quiet x :=
  .composed hx fun _ _ => .hop

theorem Charting.quiet {x : SessionM α} (hx : Charting x) : Quiet x := by
  refine .composed hx fun _ _ step => ?_
  cases step with
  | hop hop => exact .hop hop
  | write g => exact .aside fun _ => ⟨rfl, rfl, rfl⟩
  | create block parent =>
    refine Quiet.bind (.question (.type? block)) fun type => ?_
    refine Quiet.bind (.question (.node? block)) fun node => ?_
    exact .aside fun _ => ⟨rfl, rfl, rfl⟩

theorem Searching.quiet {x : SessionM α} (hx : Searching x) : Quiet x := hx.charting.quiet

theorem Inferring.quiet {x : SessionM α} (hx : Inferring x) : Quiet x := by
  refine .composed hx fun _ _ step => ?_
  cases step with
  | glance glance => exact Searching.quiet (.primitive glance)
  | answer p type => exact .modifyData p fun d hd => ⟨⟨hd.removed, hd.adrift⟩, rfl, rfl⟩

end Espalier
