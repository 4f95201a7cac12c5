import Espalier.Proofs.Clients
import Espalier.Proofs.Refusals
import Espalier.Proofs.Replanting
import Espalier.Proofs.Staleness

set_option autoImplicit false

/-! # A node in the place of another one

What replacing the node at a path does in any session that a client can get hold of, also where
paths went stale and nodes are shared. The new node stands at the position that the path has after
`resync`, it takes over the comments of the old one, and nothing else changes in the tree; when the
replacement is refused, nothing changes at all (`PathId.replaceWith_succeeds`). The path stays in
its container. It keeps its key and its parent too, unless the new node declares names: their
registration may crawl a block that was inserted before, and go to the same node by another way
(`shiftyProgram_moves`). -/

namespace Espalier

open SessionM Session

variable {α β : Type}

/-! ## Two ways to end -/

/-- `done` holds when the computation succeeds, and `refused` when it is refused. -/
def Decides (x : SessionM α) (s : Session) (done : α → Session → Prop)
    (refused : Session → Prop) : Prop :=
  (∀ a s', x s = .ok a s' → done a s') ∧
    ∀ cause s', x s = .error (.refused cause) s' → refused s'

namespace Decides

variable {s s₁ : Session} {x : SessionM α} {f : α → SessionM β} {done : α → Session → Prop}
  {done' : β → Session → Prop} {refused : Session → Prop}

theorem of_ok {a : α} (hx : x s = .ok a s₁) (hf : Decides (f a) s₁ done' refused) :
    Decides (x >>= f) s done' refused := by
  unfold Decides
  rw [bind_of_ok hx]
  exact hf

theorem of_error {e : Failure} (hx : x s = .error e s₁)
    (h : ∀ cause, e = .refused cause → refused s₁) : Decides x s done refused := by
  refine ⟨fun a s' hrun => ?_, fun cause s' hrun => ?_⟩
  · rw [hx] at hrun
    cases hrun
  · obtain ⟨rfl, rfl⟩ := EStateM.Result.error.inj (hx.symm.trans hrun)
    exact h cause rfl

theorem refuse (cause : Refusal) (h : refused s) :
    Decides (SessionM.refuse cause : SessionM α) s done refused :=
  of_error (show SessionM.refuse cause s = .error (.refused cause) s from rfl) fun _ _ => h

theorem pure {a : α} (h : done a s) : Decides (pure a : SessionM α) s done refused := by
  refine ⟨fun _ _ hrun => ?_, fun _ _ hrun => ?_⟩
  · cases hrun
    exact h
  · cases hrun

/-- A step that is not refused. -/
theorem step (hx : ∀ cause s', x s ≠ .error (.refused cause) s')
    (hf : ∀ a s₁, x s = .ok a s₁ → Decides (f a) s₁ done' refused) :
    Decides (x >>= f) s done' refused := by
  cases hrun : x s with
  | ok a s₁ => exact of_ok hrun (hf a s₁ hrun)
  | error e s₁ =>
    refine of_error (bind_of_error hrun) fun cause he => ?_
    exact absurd (he ▸ hrun) (hx cause s₁)

/-- A question changes nothing. -/
theorem question (hx : Unrefused x) (hq : Composed (fun _ _ => False) x)
    (hf : ∀ a, x s = .ok a s → Decides (f a) s done' refused) :
    Decides (x >>= f) s done' refused :=
  step (hx s) fun a s₁ hrun => by
    obtain rfl := question_run hq hrun
    exact hf a hrun

theorem ite {c : Prop} [Decidable c] {x y : SessionM α} (hx : c → Decides x s done refused)
    (hy : ¬ c → Decides y s done refused) : Decides (if c then x else y) s done refused := by
  split
  · next h => exact hx h
  · next h => exact hy h

theorem onTree {build : TreeM α} (hf : ∀ a t, build.run s.tree = some (a, t) →
    Decides (f a) { s with tree := t } done' refused) :
    Decides (onTree build >>= f) s done' refused := by
  cases h : build.run s.tree with
  | none => exact of_error (bind_of_error (onTree_dangling h)) nofun
  | some r => exact of_ok (onTree_run h) (hf r.1 r.2 h)

end Decides

/-! ## Paths that hold what stands at their position -/

/-- The path lives in the container, and holds the node that stands at its position. -/
def Session.Sits (s : Session) (p : PathId) (c : Container) (n : NodeId) : Prop :=
  ∃ d pos, s.paths[p.index]? = some d ∧ d.container = c ∧ d.node = some n ∧
    d.position? = some pos ∧ s.tree.occupant? pos = some n

/-- What is found at a container and a key is what stands at the position that they make up. -/
theorem nodeAt_eq_ok {c : Container} {k : Key} {o : Option NodeId} {s s' : Session}
    (h : nodeAt c k s = .ok o s') : o = (c.position? k).bind s.tree.occupant? := by
  have hkind : ∀ {owner : NodeId} {f : NodeKind → Option NodeId},
      (do pure (f (← ask fun t => t.kind? owner)) : SessionM (Option NodeId)) s = .ok o s' →
      o = (s.tree.kind? owner).bind f := by
    intro owner f hrun
    obtain ⟨kind, s₁, hask, hrun⟩ := bind_eq_ok hrun
    cases hk : s.tree.kind? owner with
    | none => rw [ask_dangling hk] at hask; cases hask
    | some k =>
      rw [ask_run hk] at hask
      cases hask
      exact (EStateM.Result.ok.inj hrun).1.symm
  unfold nodeAt at h
  split at h
  · exact (EStateM.Result.ok.inj h).1.symm
  · next owner f =>
    rw [hkind h]
    show _ = (s.tree.field? owner f).bind Child.node?
    rw [Tree.field?, Option.bind_assoc]
  · next owner f i =>
    rw [hkind h]
    show _ = (s.tree.list? owner f).bind fun ids => ids[i]?
    simp only [Tree.list?, Tree.field?, Option.bind_assoc]
  · obtain ⟨rfl, -⟩ := EStateM.Result.ok.inj h
    unfold Container.position?
    split <;> simp_all

/-- What stands in a tree stands there when nodes are added. -/
theorem Tree.Grown.field {t t' : Tree} (h : t.Grown t') {m : NodeId} {f : Field} {c : Child}
    (hc : t.field? m f = some c) : t'.field? m f = some c := by
  obtain ⟨k, hk, hc⟩ := Option.bind_eq_some_iff.mp hc
  rw [Tree.field?, h.kind hk]
  exact hc

theorem Tree.Grown.list {t t' : Tree} (h : t.Grown t') {m : NodeId} {f : Field} {ids : List NodeId}
    (hids : t.list? m f = some ids) : t'.list? m f = some ids := by
  rw [list?_eq_some_iff] at hids ⊢
  exact h.field hids

theorem Tree.Grown.occupant {t t' : Tree} (h : t.Grown t') {pos : Position} {n : NodeId}
    (hocc : t.occupant? pos = some n) : t'.occupant? pos = some n := by
  cases pos with
  | root => exact h.root.trans hocc
  | slot m f =>
    obtain ⟨child, hchild, hone⟩ := Option.bind_eq_some_iff.mp hocc
    rw [Tree.occupant?, h.field hchild]
    exact hone
  | item m f i =>
    obtain ⟨ids, hlist, hi⟩ := Option.bind_eq_some_iff.mp hocc
    rw [Tree.occupant?, h.list hlist]
    exact hi

namespace Session.Sits

variable {s s' : Session} {p : PathId} {c : Container} {n : NodeId}

theorem of_same (h : s.Sits p c n) (htree : s'.tree = s.tree)
    (hpaths : s'.paths[p.index]? = s.paths[p.index]?) : s'.Sits p c n := by
  obtain ⟨d, pos, hd, hc, hn, hpos, hocc⟩ := h
  exact ⟨d, pos, hpaths.trans hd, hc, hn, hpos, by rw [htree, hocc]⟩

/-- A new path is made. -/
theorem push (h : s.Sits p c n) {d : PathData} (htree : s'.tree = s.tree)
    (hpaths : s'.paths = s.paths.push d) : s'.Sits p c n := by
  obtain ⟨e, pos, he, -⟩ := id h
  have hlt := (Array.getElem?_eq_some_iff.mp he).1
  exact h.of_same htree (by rw [hpaths, Array.getElem?_push, if_neg (by omega)])

/-- Another path is written. -/
theorem modify_of_ne (h : s.Sits p c n) {q : PathId} (f : PathData → PathData) (hq : q ≠ p) :
    Sits { s with paths := s.paths.modify q.index f } p c n :=
  h.of_same rfl (by rw [getElem?_modify_paths, if_neg (Ne.symm hq)])

/-- Nodes are added to the tree. -/
theorem grown (h : s.Sits p c n) {t : Tree} (hg : s.tree.Grown t) :
    Sits { s with tree := t } p c n :=
  let ⟨d, pos, hd, hc, hn, hpos, hocc⟩ := h
  ⟨d, pos, hd, hc, hn, hpos, hg.occupant hocc⟩

end Session.Sits

/-- The computation leaves the tree, and a tidy session tidy, and every path where it stood. -/
def Seating (x : SessionM α) : Prop := Leads (fun s s' => s.Tidy → s'.Tidy ∧ s'.tree = s.tree ∧
  ∀ p c n, s.Sits p c n → s'.Sits p c n) x

namespace Seating

theorem refl (s : Session) (h : s.Tidy) : s.Tidy ∧ s.tree = s.tree ∧
    ∀ p c n, s.Sits p c n → s.Sits p c n := ⟨h, rfl, fun _ _ _ hp => hp⟩

theorem trans (s s₁ s₂ : Session)
    (h₁ : s.Tidy → s₁.Tidy ∧ s₁.tree = s.tree ∧ ∀ p c n, s.Sits p c n → s₁.Sits p c n)
    (h₂ : s₁.Tidy → s₂.Tidy ∧ s₂.tree = s₁.tree ∧ ∀ p c n, s₁.Sits p c n → s₂.Sits p c n)
    (h : s.Tidy) :
    s₂.Tidy ∧ s₂.tree = s.tree ∧ ∀ p c n, s.Sits p c n → s₂.Sits p c n :=
  let ⟨ht₁, htree₁, hp₁⟩ := h₁ h
  let ⟨ht₂, htree₂, hp₂⟩ := h₂ ht₁
  ⟨ht₂, htree₂.trans htree₁, fun p c n hp => hp₂ p c n (hp₁ p c n hp)⟩

/-- A change of nothing but the scopes. -/
theorem of_scopes {x : SessionM α} (h : ∀ s, ∃ scopes, after x s = { s with scopes }) :
    Seating x := by
  intro s hs
  obtain ⟨scopes, heq⟩ := h s
  rw [heq]
  exact ⟨hs.of_same rfl rfl rfl, rfl, fun p c n hp => hp.of_same rfl rfl⟩

theorem composed {Primitive : (α : Type) → SessionM α → Prop} {x : SessionM α}
    (hx : Composed Primitive x) (h : ∀ α (x : SessionM α), Primitive α x → Seating x) :
    Seating x := hx.leads refl trans h

theorem question {x : SessionM α} (hx : Composed (fun _ _ => False) x) : Seating x :=
  composed hx fun _ _ h => h.elim

theorem detachedAt (parent : Option PathId) (k : Key) : Seating (detachedAt parent k) := by
  intro s hs
  refine ⟨(Quiet.detachedAt parent k s hs).tidy, ?_⟩
  cases hget : s.detached.get? parent with
  | some q =>
    obtain ⟨e, he, hec⟩ := hs.strays parent q hget
    have hrun : Espalier.detachedAt parent k s = .ok q { s with
        paths := s.paths.modify q.index fun _ =>
          { node := none, parent, container := .detached, key := k } } := by
      unfold Espalier.detachedAt
      rw [run_get_bind, hget]
      exact bind_of_ok (q.modifyData_run he _)
    rw [after_of_ok hrun]
    refine ⟨rfl, fun p c n hp => hp.modify_of_ne _ ?_⟩
    rintro rfl
    obtain ⟨d, pos, hd, hc, -, hpos, -⟩ := hp
    obtain rfl := Option.some.inj (hd.symm.trans he)
    unfold PathData.position? at hpos
    rw [hec] at hpos
    cases hpos
  | none =>
    have hrun : Espalier.detachedAt parent k s = .ok ⟨s.paths.size⟩ { s with
        paths := s.paths.push { node := none, parent, container := .detached, key := k }
        detached := s.detached.insert parent ⟨s.paths.size⟩ } := by
      unfold Espalier.detachedAt
      rw [run_get_bind, hget]
      rfl
    rw [after_of_ok hrun]
    exact ⟨rfl, fun p c n hp => hp.push rfl rfl⟩

/-- A position whose path is known already: the path keeps its node, even if it is found by it at
another key. -/
theorem sits_found {s : Session} (hs : s.Tidy) {parent : Option PathId} {c : Container}
    {k : Key} {o : Option NodeId} (hnode : o = (c.position? k).bind s.tree.occupant?) {q : PathId}
    (hcached : s.cached? c k o = some q) {p : PathId} {c' : Container} {n : NodeId}
    (h : s.Sits p c' n) : Sits { s with
      paths := s.paths.modify q.index fun d => { d with parent, key := k, node := o } } p c' n := by
  by_cases hq : q = p
  · subst hq
    obtain ⟨d, pos, hd, hc, hn, hpos, hocc⟩ := h
    obtain ⟨e, he, hec, -⟩ := hs.filed c q (List.mem_of_find?_eq_some hcached)
    obtain rfl := Option.some.inj (hd.symm.trans he)
    obtain rfl : c = c' := hec.symm.trans hc
    have hstands := List.find?_some hcached
    simp only [hd] at hstands
    -- The path is found by its node, or else by its key.
    have hon : o = some n := by
      have hkey : (d.key == k) = true → o = some n := by
        intro hk
        rw [hnode, ← eq_of_beq hk, ← hec]
        show d.position?.bind _ = _
        rw [hpos]
        exact hocc
      unfold PathData.standsFor at hstands
      split at hstands
      · rw [← eq_of_beq hstands, hn]
      · exact hkey hstands
    obtain ⟨pos', hpos', hocc'⟩ := Option.bind_eq_some_iff.mp (hnode.symm.trans hon)
    refine ⟨{ d with parent, key := k, node := o }, pos', ?_, hec, hon, ?_, hocc'⟩
    · rw [getElem?_modify_paths, if_pos rfl, hd, Option.map_some]
    · show d.container.position? k = _
      rw [hec, hpos']
  · exact h.modify_of_ne _ hq

theorem pathFor (parent : Option PathId) (c : Container) (k : Key) :
    Seating (pathFor parent c k) := by
  by_cases hc : c = .detached
  · unfold Espalier.pathFor
    rw [if_pos hc]
    exact detachedAt parent k
  · intro s hs
    refine ⟨(Quiet.pathFor parent c k s hs).tidy, ?_⟩
    rcases question_cases (.nodeAt c k) s with ⟨e, hnode⟩ | ⟨o, hnode⟩
    · have hrun : Espalier.pathFor parent c k s = .error e s := by
        unfold Espalier.pathFor
        rw [if_neg hc, bind_of_error hnode]
      rw [after_of_error hrun]
      exact ⟨rfl, fun _ _ _ hp => hp⟩
    · cases hcached : s.cached? c k o with
      | some q =>
        obtain ⟨d, hd, -⟩ := hs.filed c q (List.mem_of_find?_eq_some hcached)
        rw [after_of_ok (pathFor_run_of_cached hc hnode hcached hd)]
        exact ⟨rfl, fun p c n hp => sits_found hs (nodeAt_eq_ok hnode) hcached hp⟩
      | none =>
        rw [after_of_ok (pathFor_run_of_new hc hnode hcached)]
        exact ⟨rfl, fun p c n hp => hp.push rfl rfl⟩

theorem charting {x : SessionM α} (hx : Charting x) : Seating x := by
  refine composed hx fun _ _ step => ?_
  cases step with
  | hop hop =>
    refine composed hop.landing fun _ _ landing => ?_
    cases landing with
    | root => exact pathFor none .root .root
    | nowhere parent => exact pathFor parent .detached .root
    | slot p n f => exact pathFor (some p) (.slot n) (.field f)
    | item p n f i => exact pathFor (some p) (.list n f) (.index i)
  | write g => exact of_scopes fun s => ⟨_, rfl⟩
  | create block parent =>
    refine Leads.bind trans (question (.type? block)) fun _ => ?_
    refine Leads.bind trans (question (.node? block)) fun _ => ?_
    exact of_scopes fun s => ⟨_, rfl⟩

end Seating

/-! ## After `resync` -/

/-- A key that is found for a node makes up a position where the node stands. -/
theorem PathId.keyOf?_eq_ok {c : Container} {n : NodeId} {o : Option Key} {s s' : Session}
    (hrun : keyOf? c n s = .ok o s') : s' = s ∧ ∀ k, o = some k →
      ∃ pos, c.position? k = some pos ∧ s.tree.occupant? pos = some n := by
  unfold keyOf? at hrun
  cases c with
  | root | detached =>
    obtain ⟨rfl, rfl⟩ := EStateM.Result.ok.inj hrun
    exact ⟨rfl, nofun⟩
  | slot owner =>
    obtain ⟨kind, s₁, hask, hpure⟩ := bind_eq_ok hrun
    obtain ⟨rfl, hkind⟩ := ask_eq_ok hask
    obtain ⟨ho, rfl⟩ := EStateM.Result.ok.inj hpure
    refine ⟨rfl, fun k hk => ?_⟩
    obtain ⟨e, hfound, rfl⟩ := Option.map_eq_some_iff.mp (ho.trans hk)
    have hc := (kind.child?_eq_some_iff e.1 e.2).mpr (List.mem_of_find?_eq_some hfound)
    have hn := List.find?_some hfound
    refine ⟨.slot owner e.1, rfl, ?_⟩
    simpa [Tree.occupant?, Tree.field?, hkind, hc] using hn
  | list owner f =>
    obtain ⟨kind, s₁, hask, hpure⟩ := bind_eq_ok hrun
    obtain ⟨rfl, hkind⟩ := ask_eq_ok hask
    obtain ⟨ho, rfl⟩ := EStateM.Result.ok.inj hpure
    refine ⟨rfl, fun k hk => ?_⟩
    obtain ⟨i, hi, rfl⟩ := Option.map_eq_some_iff.mp (ho.trans hk)
    refine ⟨.item owner f i, rfl, ?_⟩
    obtain ⟨hlt, hin, -⟩ := List.idxOf?_eq_some_iff.mp hi
    cases hl : (kind.child? f).bind Child.list? with
    | none => simp [hl] at hlt
    | some ids =>
      simp only [hl, Option.getD_some] at hlt hin
      have hlist : s₁.tree.list? owner f = some ids := by
        simpa [Tree.list?, Tree.field?, hkind] using hl
      rw [Tree.occupant?, hlist, Option.bind_some, List.getElem?_eq_getElem hlt, hin]

section Resync

variable {s s₁ : Session} {p : PathId} {d : PathData} {n : NodeId}

theorem PathId.resyncKey_sits (hs : s.Tidy) (hrun : p.resyncKey s = .ok () s₁)
    (hd : s₁.paths[p.index]? = some d) (hlive : d.removed = false) (hn : d.node = some n) :
    s₁.Sits p d.container n := by
  obtain ⟨e, s₂, hdata, hrest⟩ := bind_eq_ok hrun
  obtain ⟨rfl, he⟩ := data_eq_ok hdata
  cases hnode : e.node with
  | none =>
    rw [hnode] at hrest
    cases hrest
    rw [Option.some.inj (hd.symm.trans he), hnode] at hn
    cases hn
  | some m =>
    rw [hnode] at hrest
    obtain ⟨o, s₃, hat, hfollow⟩ := bind_eq_ok hrest
    obtain rfl := question_run (.nodeAt _ _) hat
    by_cases ho : o = some m
    · rw [if_pos ho] at hfollow
      cases hfollow
      obtain rfl := Option.some.inj (hd.symm.trans he)
      obtain rfl := Option.some.inj (hn.symm.trans hnode)
      obtain ⟨pos, hpos, hocc⟩ := Option.bind_eq_some_iff.mp ((nodeAt_eq_ok hat).symm.trans ho)
      exact ⟨d, pos, hd, rfl, hn, hpos, hocc⟩
    · rw [if_neg ho] at hfollow
      by_cases hdetached : e.container = .detached
      · have := (hs.fit p e he).adrift hdetached
        rw [hnode] at this
        cases this
      · rw [if_neg hdetached] at hfollow
        obtain ⟨found, s₄, hkey, hwrite⟩ := bind_eq_ok hfollow
        obtain ⟨rfl, hfound⟩ := keyOf?_eq_ok hkey
        cases found with
        | some k =>
          obtain ⟨pos, hpos, hocc⟩ := hfound k rfl
          have hmodified := p.modifyData_run he fun d => { d with key := k }
          obtain ⟨-, rfl⟩ := EStateM.Result.ok.inj (hmodified.symm.trans hwrite)
          rw [getElem?_modify_paths, if_pos rfl, he, Option.map_some] at hd
          obtain rfl := Option.some.inj hd
          obtain rfl : m = n := Option.some.inj (hnode.symm.trans hn)
          refine ⟨_, pos, ?_, rfl, hn, hpos, hocc⟩
          rw [getElem?_modify_paths, if_pos rfl, he, Option.map_some]
        | none =>
          -- The path would be removed.
          obtain ⟨-, rfl⟩ := EStateM.Result.ok.inj ((PathId.markRemoved_run he).symm.trans hwrite)
          rw [dropped, getElem?_modify_paths, if_pos rfl, he, Option.map_some] at hd
          rw [← Option.some.inj hd] at hlive
          cases hlive

/-- A path that `resync` does not leave removed holds what stands at its position. -/
theorem PathId.resync_sits (hs : s.Tidy) (hrun : p.resync s = .ok () s₁)
    (hd : s₁.paths[p.index]? = some d) (hlive : d.removed = false) (hn : d.node = some n) :
    s₁.Sits p d.container n := by
  obtain ⟨removed, s₂, hremoved, hrest⟩ := bind_eq_ok hrun
  obtain ⟨e, s₃, hdata, hpure⟩ := bind_eq_ok hremoved
  obtain ⟨rfl, he⟩ := data_eq_ok hdata
  obtain ⟨rfl, rfl⟩ := EStateM.Result.ok.inj hpure
  split at hrest
  · next hr =>
    cases hrest
    rw [Option.some.inj (he.symm.trans hd), hlive] at hr
    cases hr
  · next hr =>
    obtain ⟨_, s₄, hparent, hkey⟩ := bind_eq_ok hrest
    have hcalm := resyncParent_quiet p s₃ hs ⟨e, he, by simpa using hr⟩
    rw [after_of_ok hparent] at hcalm
    exact resyncKey_sits hcalm.tidy hkey hd hlive hn

end Resync

/-! ## Comments -/

/-- The node with the comments of another one after its own. -/
def Node.inherit (n donor : Node) : Node :=
  { n with
    leading := n.leading ++ donor.leading
    trailing := n.trailing ++ donor.trailing
    inner := n.inner ++ donor.inner }

/-- The node without comments. -/
def Node.bare (n : Node) : Node := { n with leading := [], trailing := [], inner := [] }

/-- The node `n` of the name `m`, once the comments of `old` were passed on to `new`. -/
def Tree.passOn (t : Tree) (old : Option NodeId) (new m : NodeId) (n : Node) : Node :=
  if m = new then ((old.bind t.node?).map n.inherit).getD n
  else if old = some m then n.bare
  else n

theorem Tree.kind_passOn (t : Tree) (old : Option NodeId) (new m : NodeId) (n : Node) :
    (t.passOn old new m n).kind = n.kind := by
  unfold passOn
  split
  · cases old.bind t.node? <;> rfl
  · split <;> rfl

namespace TreeM

variable {t t' : Tree} {heir donor : NodeId}

theorem bind_eq_some {x : TreeM α} {f : α → TreeM β} {b : β}
    (h : (x >>= f).run t = some (b, t')) :
    ∃ a t₁, x.run t = some (a, t₁) ∧ (f a).run t₁ = some (b, t') := by
  rw [StateT.run_bind] at h
  obtain ⟨⟨a, t₁⟩, hx, hf⟩ := Option.bind_eq_some_iff.mp h
  exact ⟨a, t₁, hx, hf⟩

theorem node_eq_some {id : NodeId} {n : Node} (h : (node id).run t = some (n, t')) :
    t' = t ∧ t.node? id = some n := by
  cases hn : t.node? id with
  | none =>
    unfold node at h
    simp [hn] at h
  | some m =>
    rw [node_run hn] at h
    cases h
    exact ⟨rfl, rfl⟩

theorem modifyNode_eq_some {id : NodeId} {g : Node → Node} {u : Unit}
    (h : (modifyNode id g).run t = some (u, t')) : t' = t.modify id g := by
  obtain ⟨n, t₁, hnode, hrest⟩ := bind_eq_some h
  obtain ⟨rfl, hn⟩ := node_eq_some hnode
  exact (congrArg Prod.snd (Option.some.inj ((modifyNode_run hn g).symm.trans h))).symm

/-- One of the three ways to inherit comments. -/
private theorem inherit_eq_some {g : Node → Node → Node} {u : Unit} (h : StateT.run (do
      let d ← node donor
      modifyNode heir (g d)) t = some (u, t')) :
    ∃ d, t.node? donor = some d ∧ t' = t.modify heir (g d) := by
  obtain ⟨d, t₁, hnode, hrest⟩ := bind_eq_some h
  obtain ⟨rfl, hd⟩ := node_eq_some hnode
  exact ⟨d, hd, modifyNode_eq_some hrest⟩

/-- The comments of a node are passed on to another one. -/
theorem passOn_eq_some {t₁ : Tree} {u v : Unit} (hne : heir ≠ donor)
    (hinherit : (inheritComments heir donor).run t = some (u, t₁))
    (hremove : (removeComments donor).run t₁ = some (v, t')) :
    t'.root = t.root ∧ ∀ m, t'.node? m = (t.node? m).map (t.passOn (some donor) heir m) := by
  obtain ⟨_, t₂, hleading, hrest⟩ := bind_eq_some hinherit
  obtain ⟨_, t₃, htrailing, hinner⟩ := bind_eq_some hrest
  obtain ⟨d, hd, rfl⟩ := inherit_eq_some hleading
  obtain ⟨d₂, hd₂, rfl⟩ := inherit_eq_some htrailing
  obtain ⟨d₃, hd₃, rfl⟩ := inherit_eq_some hinner
  obtain rfl := modifyNode_eq_some hremove
  -- The donor is another node, so that it is read unchanged.
  simp only [Tree.node?_modify, if_neg hne.symm, hd, Option.some.injEq] at hd₂ hd₃
  subst hd₂ hd₃
  refine ⟨rfl, fun m => ?_⟩
  simp only [Tree.node?_modify]
  by_cases hm : m = heir
  · have hpass : t.passOn (some donor) heir m = fun n => n.inherit d := by
      funext n
      simp [Tree.passOn, hm, hd]
    rw [hpass]
    subst hm
    simp only [if_neg hne, if_true, Option.map_map]
    rfl
  · by_cases hm' : m = donor
    · have hpass : t.passOn (some donor) heir m = Node.bare := by
        funext n
        simp [Tree.passOn, hm', hne.symm]
      rw [hpass, if_pos hm']
      simp only [if_neg hm]
      rfl
    · have hpass : t.passOn (some donor) heir m = id := by
        funext n
        simp [Tree.passOn, hm, Ne.symm hm']
      rw [hpass, Option.map_id]
      simp only [if_neg hm, if_neg hm']
      rfl

end TreeM

/-! ## Writing the new node -/

/-- The second tree is the first one with a node in the place of `old`, which was passed the
comments of that one. -/
structure Tree.Succeeds (t : Tree) (pos : Position) (old : Option NodeId) (new : NodeId)
    (t' : Tree) : Prop where
  /-- The new node stands at the position, and what else stands in the tree is where it was. -/
  replanted : t.Replanted pos new t'
  /-- Of a node nothing changes but its comments, and the kind of the one that owns the position. -/
  node : ∃ g : NodeKind → NodeKind, ∀ m, t'.node? m = (t.node? m).map fun n =>
    if pos.parent? = some m then { t.passOn old new m n with kind := g n.kind }
    else t.passOn old new m n

theorem Tree.Succeeds.of_passOn {t t₁ t' : Tree} {pos : Position} {old : Option NodeId}
    {new : NodeId} (hroot : t₁.root = t.root)
    (hpass : ∀ m, t₁.node? m = (t.node? m).map (t.passOn old new m))
    (hplant : t₁.Replanted pos new t') (hwritten : t₁.WrittenAt pos t') :
    t.Succeeds pos old new t' where
  replanted := .of_alike ⟨hroot, fun m => by
    rw [Tree.kind?, hpass, Option.map_map, Tree.kind?]
    exact congrArg (fun f => Option.map f (t.node? m)) (funext (t.kind_passOn old new m))⟩ hplant
  node := by
    obtain ⟨g, hg⟩ := hwritten
    refine ⟨g, fun m => ?_⟩
    rw [hg, hpass]
    split
    · rw [Option.map_map]
      exact congrArg (fun f => Option.map f (t.node? m))
        (funext fun n => by simp [t.kind_passOn])
    · rfl

namespace Session

/-- Are the names of the node registered when it comes into the tree? -/
def Registers (s : Session) (n : NodeId) : Prop :=
  s.scopes.crawled = true ∧ ∃ k, s.tree.kind? n = some k ∧ k.type.isDeclaration = true

/-- The node took the place of the one at the path, which was known as `d`. -/
structure Succeeded (s : Session) (p : PathId) (d : PathData) (new : NodeId) (s' : Session) :
    Prop where
  tree : ∃ pos, d.position? = some pos ∧ s.tree.Succeeds pos d.node new s'.tree
  sits : s'.Sits p d.container new
  /-- Only registration may lead to the path by another key or from another path. -/
  steady : ¬ s.Registers new → ∃ d', s'.paths[p.index]? = some d' ∧ d'.key = d.key ∧
    d'.parent = d.parent

end Session

section PutNode

variable {s s₁ : Session} {p : PathId} {d : PathData} {new : NodeId}

/-- A path that holds a node is queued at most. -/
theorem PathId.requeue_decides {d' : PathData} (hd : s₁.paths[p.index]? = some d')
    {done : Unit → Session → Prop} {refused : Session → Prop}
    (h : ∀ frames, done () { s₁ with frames }) : Decides p.requeue s₁ done refused := by
  have hrun := PathId.requeue_run hd
  refine ⟨fun _ s' h' => ?_, fun cause s' h' => ?_⟩
  · obtain ⟨rfl, rfl⟩ := EStateM.Result.ok.inj (hrun.symm.trans h')
    exact h _
  · rw [hrun] at h'
    cases h'

/-- What comes after the comments were passed on. -/
theorem PathId.putNode_tail (hs : s.Tidy) (hd : s.paths[p.index]? = some d)
    (hlive : d.removed = false) (hseat : ∀ o, d.node = some o → s.Sits p d.container o)
    (t₁ : Tree)
    (hroot : t₁.root = s.tree.root)
    (hpass : ∀ m, t₁.node? m = (s.tree.node? m).map (s.tree.passOn d.node new m))
    (hnone : d.node = none → t₁ = s.tree) :
    Decides (do
      p.setNode new
      recordMutation
      if ← scopesCrawled then
        if (← ask fun t => t.type? new).isDeclaration then p.registerDeclaration
      p.requeue) { s with tree := t₁ } (fun _ s' => s.Succeeded p d new s')
      fun s' => s'.tree = s.tree ∧ d.node = none := by
  have hs₁ : Tidy { s with tree := t₁ } := hs.of_same rfl rfl rfl
  have halike : s.tree.Alike t₁ := ⟨hroot, fun m => by
    rw [Tree.kind?, hpass, Option.map_map, Tree.kind?]
    exact congrArg (fun f => Option.map f (s.tree.node? m)) (funext (s.tree.kind_passOn _ new m))⟩
  rcases p.setNode_cases (s := { s with tree := t₁ }) hd new with
    ⟨pos, s₃, hpos, hrun, hreseat, hwritten⟩ | ⟨e, hrun, hempty⟩
  · have hsucceeds : s.tree.Succeeds pos d.node new s₃.tree :=
      .of_passOn hroot hpass hreseat.tree hwritten
    have hs₃ := (setNode_quiet p new { s with tree := t₁ } hs₁ ⟨d, hd, hlive⟩).tidy
    rw [after_of_ok hrun] at hs₃
    -- The change is counted.
    let s₄ : Session := { s₃ with mutations := s₃.mutations + 1 }
    have hs₄ : s₄.Tidy := hs₃.of_same rfl rfl rfl
    have hd₄ : s₄.paths[p.index]? = some { d with node := some new, inferred := none } := by
      show s₃.paths[p.index]? = _
      rw [hreseat.getElem?_paths, if_pos rfl, hd, Option.map_some]
    have hocc₄ : s₄.Sits p d.container new :=
      ⟨_, pos, hd₄, rfl, rfl, hpos, hreseat.tree.here⟩
    have hplain : Decides p.requeue s₄ (fun _ s' => s.Succeeded p d new s')
        fun s' => s'.tree = s.tree ∧ d.node = none :=
      requeue_decides hd₄ fun frames => ⟨⟨pos, hpos, hsucceeds⟩, hocc₄.of_same rfl rfl,
        fun _ => ⟨_, hd₄, rfl, rfl⟩⟩
    refine .of_ok hrun (.of_ok (show recordMutation s₃ = .ok () s₄ from rfl) ?_)
    refine .of_ok (show scopesCrawled s₄ = .ok s₃.scopes.crawled s₄ from rfl) ?_
    split
    · next hcrawled =>
      refine .question (.ask _) (.ask _) fun type htype => ?_
      split
      · next hdeclares =>
        -- The names are registered, and the path keeps its node.
        refine .step (fun cause s' => registerDeclaration_unrefused hd₄ rfl) fun _ s₅ hrun₅ => ?_
        have hseating := Seating.charting (.registerDeclaration p) s₄ hs₄
        rw [after_of_ok hrun₅] at hseating
        obtain ⟨-, htree₅, hkept⟩ := hseating
        have hocc₅ := hkept p _ _ hocc₄
        obtain ⟨d₅, -, hd₅, -⟩ := id hocc₅
        refine requeue_decides hd₅ fun frames => ⟨⟨pos, hpos, ?_⟩, hocc₅.of_same rfl rfl,
          fun hquiet => absurd ⟨?_, ?_⟩ hquiet⟩
        · show s.tree.Succeeds pos d.node new s₅.tree
          rw [htree₅]
          exact hsucceeds
        · rw [hreseat.rest] at hcrawled
          exact hcrawled
        · obtain ⟨-, htype⟩ := ask_eq_ok htype
          obtain ⟨k, hk, hktype⟩ := Option.map_eq_some_iff.mp
            ((hsucceeds.replanted.type new).symm.trans ((s₃.tree.map_type_kind? new).trans htype))
          exact ⟨k, hk, by rw [hktype]; exact hdeclares⟩
      · exact hplain
    · exact hplain
  · -- A position that holds a node can be written.
    have hnode : d.node = none := by
      cases hn : d.node with
      | none => rfl
      | some o =>
        obtain ⟨d', pos, hd', -, -, hpos, hocc⟩ := hseat o hn
        obtain rfl := Option.some.inj (hd.symm.trans hd')
        exact absurd ((halike.occupant? pos).trans hocc) (hempty pos o hpos)
    exact .of_error (bind_of_error hrun) fun _ _ => ⟨hnone hnode, hnode⟩

/-- A node is put at the position of a path that holds what stands there, if anything. -/
theorem PathId.putNode_decides (hs : s.Tidy) (hd : s.paths[p.index]? = some d)
    (hlive : d.removed = false) (hseat : ∀ o, d.node = some o → s.Sits p d.container o)
    {old : Option NodeId} (hold : d.node = old) (new : NodeId) (hne : old ≠ some new) :
    Decides (p.putNode old new) s (fun _ s' => s.Succeeded p d new s')
      fun s' => s'.tree = s.tree ∧ d.node = none := by
  unfold PathId.putNode
  cases old with
  | none =>
    refine putNode_tail hs hd hlive hseat s.tree rfl (fun m => ?_) fun _ => rfl
    have hpass : s.tree.passOn d.node new m = id := by
      funext n
      simp [Tree.passOn, hold]
    rw [hpass, Option.map_id, id]
  | some o =>
    have hother : new ≠ o := fun h => hne (by rw [h])
    refine .onTree fun _ t₁ hinherit => .onTree fun _ t₂ hremove => ?_
    obtain ⟨hroot, hpass⟩ := TreeM.passOn_eq_some hother hinherit hremove
    refine putNode_tail hs hd hlive hseat t₂ hroot (by rwa [hold]) fun h => ?_
    rw [hold] at h
    cases h

end PutNode

/-! ## What fits -/

/-- The type of the node that owns the container of a path. -/
def PathData.ownerType? (d : PathData) (t : Tree) : Option NodeType :=
  d.container.parent?.bind t.type?

/-- The path stands where a loop head takes a declaration or an expression. -/
def PathData.IsForHead (d : PathData) (t : Tree) : Prop :=
  (d.key = .field .init ∨ d.key = .field .left) ∧
    ∃ type, d.ownerType? t = some type ∧ type.isFor = true

/-- The path stands for the body of an arrow function, which would change from a block to an
expression or back. -/
def PathData.SwapsBody (d : PathData) (t : Tree) (old new : NodeType) : Prop :=
  d.key = .field .body ∧ d.ownerType? t = some .arrowFunctionExpression ∧
    if old = .blockStatement then new.isExpression = true
    else old.isExpression = true ∧ new = .blockStatement

namespace Session

/-- The path is known as `d` and holds a node of the type `old`, and `n` is one of the type `new`. -/
structure Exchanges (s : Session) (p : PathId) (n : NodeId) (d : PathData) (old new : NodeType) :
    Prop where
  data : s.paths[p.index]? = some d
  old : ∃ o, d.node = some o ∧ s.tree.type? o = some old
  new : s.tree.type? n = some new

/-- The path holds an expression and `n` is a statement, and the position is no loop head and no
body of an arrow function that accepts it. -/
def WantsExpression (s : Session) (p : PathId) (n : NodeId) : Prop :=
  ∃ d old new, s.Exchanges p n d old new ∧ old.isExpression = true ∧ new.isStatement = true ∧
    ¬ d.IsForHead s.tree ∧ ¬ d.SwapsBody s.tree old new

/-- The path holds a statement and `n` is an expression, and the position is no loop head, no body
of an arrow function that accepts it, and not what a module exports by default. -/
def WantsStatement (s : Session) (p : PathId) (n : NodeId) : Prop :=
  ∃ d old new, s.Exchanges p n d old new ∧ old.isStatement = true ∧ new.isExpression = true ∧
    ¬ d.IsForHead s.tree ∧ ¬ d.SwapsBody s.tree old new ∧
    d.ownerType? s.tree ≠ some .exportDefaultDeclaration

end Session

section Fits

variable {s s' : Session} {p : PathId} {d : PathData} (hd : s.paths[p.index]? = some d)

include hd

theorem PathId.parentType?_eq_ok {o : Option NodeType} (h : p.parentType? s = .ok o s') :
    s' = s ∧ o = d.ownerType? s.tree := by
  obtain ⟨owner, s₁, howner, hrest⟩ := bind_eq_ok h
  obtain ⟨e, s₂, hdata, hpure⟩ := bind_eq_ok howner
  obtain ⟨rfl, he⟩ := data_eq_ok hdata
  obtain rfl := Option.some.inj (hd.symm.trans he)
  obtain ⟨rfl, rfl⟩ := EStateM.Result.ok.inj hpure
  unfold PathData.ownerType?
  cases hc : d.container.parent? with
  | none =>
    rw [hc] at hrest
    obtain ⟨rfl, rfl⟩ := EStateM.Result.ok.inj hrest
    exact ⟨rfl, rfl⟩
  | some m =>
    rw [hc] at hrest
    obtain ⟨type, s₃, hask, hpure'⟩ := bind_eq_ok hrest
    obtain ⟨rfl, htype⟩ := ask_eq_ok hask
    obtain ⟨rfl, rfl⟩ := EStateM.Result.ok.inj hpure'
    exact ⟨rfl, htype.symm⟩

theorem PathId.isForHead_eq_ok {b : Bool} (h : p.isForHead s = .ok b s') :
    s' = s ∧ (b = true ↔ d.IsForHead s.tree) := by
  have hfits : ∀ fits : Bool,
      (if fits then do pure ((← p.parentType?).any NodeType.isFor) else pure false) s = .ok b s' →
      s' = s ∧ (b = true ↔ fits = true ∧ ∃ type, d.ownerType? s.tree = some type ∧
        type.isFor = true) := by
    intro fits hrun
    cases fits with
    | false =>
      obtain ⟨rfl, rfl⟩ := EStateM.Result.ok.inj hrun
      simp
    | true =>
      obtain ⟨o, s₁, hparent, hpure⟩ := bind_eq_ok hrun
      obtain ⟨rfl, rfl⟩ := parentType?_eq_ok hd hparent
      obtain ⟨rfl, rfl⟩ := EStateM.Result.ok.inj hpure
      simp [Option.any_eq_true]
  obtain ⟨e, s₁, hdata, hrest⟩ := bind_eq_ok h
  obtain ⟨rfl, he⟩ := data_eq_ok hdata
  obtain rfl := Option.some.inj (hd.symm.trans he)
  obtain ⟨rfl, hb⟩ := hfits _ hrest
  refine ⟨rfl, hb.trans (and_congr ?_ Iff.rfl)⟩
  split <;> simp_all

omit hd in
theorem Session.Exchanges.type?_run {n : NodeId} {old new : NodeType}
    (h : s.Exchanges p n d old new) : p.type? s = .ok (some old) s := by
  obtain ⟨o, ho, htype⟩ := h.old
  obtain ⟨k, hk, rfl⟩ := Tree.kind_of_type? htype
  exact PathId.type?_run_of_holds ⟨d, h.data, ho⟩ hk

omit hd in
theorem Session.Exchanges.unique {n : NodeId} {e : PathData} {old new old' new' : NodeType}
    (h : s.Exchanges p n d old new) (h' : s.Exchanges p n e old' new') :
    d = e ∧ old = old' ∧ new = new' := by
  have hold := (EStateM.Result.ok.inj (h.type?_run.symm.trans h'.type?_run)).1
  exact ⟨Option.some.inj (h.data.symm.trans h'.data), Option.some.inj hold,
    Option.some.inj (h.new.symm.trans h'.new)⟩

omit hd in
theorem PathId.canSwapBody_eq_ok {n : NodeId} {old new : NodeType}
    (hex : s.Exchanges p n d old new) {b : Bool} (h : p.canSwapBody n s = .ok b s') :
    s' = s ∧ (b = true ↔ d.SwapsBody s.tree old new) := by
  unfold PathId.canSwapBody at h
  rw [bind_of_ok (p.data_run hex.data)] at h
  unfold PathData.SwapsBody
  by_cases hkey : d.key = .field .body
  · rw [if_neg (by simp [hkey])] at h
    obtain ⟨o, s₁, hparent, hrest⟩ := bind_eq_ok h
    obtain ⟨rfl, rfl⟩ := parentType?_eq_ok hex.data hparent
    by_cases harrow : d.ownerType? s₁.tree = some .arrowFunctionExpression
    · rw [if_neg (by simp [harrow]), bind_of_ok (ask_run hex.new), bind_of_ok hex.type?_run] at hrest
      by_cases hblock : old = .blockStatement
      · subst hblock
        obtain ⟨rfl, rfl⟩ := EStateM.Result.ok.inj hrest
        simp [hkey, harrow]
      · have hb : (old.isExpression && new == .blockStatement) = b ∧ s₁ = s' := by
          cases old <;> first | exact absurd rfl hblock | exact EStateM.Result.ok.inj hrest
        obtain ⟨rfl, rfl⟩ := hb
        simp [hkey, harrow, hblock]
    · rw [if_pos harrow] at hrest
      obtain ⟨rfl, rfl⟩ := EStateM.Result.ok.inj hrest
      simp [harrow]
  · rw [if_pos hkey] at h
    obtain ⟨rfl, rfl⟩ := EStateM.Result.ok.inj h
    simp [hkey]

end Fits

/-! ## Replacement -/

namespace Session

/-- What stands in for the node `n` at the path, and the tree with it: the node itself, or, where a
statement is wanted, a new expression statement around it. -/
def Offers (s : Session) (p : PathId) (n new : NodeId) (t : Tree) : Prop :=
  (s.WantsStatement p n ∧ new = ⟨s.tree.size⟩ ∧
      t = s.tree.push { kind := .expressionStatement n }) ∨
    ¬ s.WantsStatement p n ∧ new = n ∧ t = s.tree

/-- The node `n` stands where the path was found again by `resync`, if it did not stand there
already. -/
def Replaces (s : Session) (p : PathId) (n : NodeId) (s' : Session) : Prop :=
  ∃ s₁ d, p.resync s = .ok () s₁ ∧ s₁.tree = s.tree ∧ s₁.paths[p.index]? = some d ∧
    (d.node = some n ∧ s' = s₁ ∨ d.node ≠ some n ∧ ∃ new t, s₁.Offers p n new t ∧
      Succeeded { s₁ with tree := t } p d new s')

end Session

section Replace

variable {s : Session} {p : PathId} {n : NodeId}

theorem PathId.isRemoved_eq_ok {s' : Session} {b : Bool} (h : p.isRemoved s = .ok b s') :
    s' = s ∧ ∃ d, s.paths[p.index]? = some d ∧ d.removed = b := by
  obtain ⟨d, s₁, hdata, hpure⟩ := bind_eq_ok h
  obtain ⟨rfl, hd⟩ := data_eq_ok hdata
  obtain ⟨rfl, rfl⟩ := EStateM.Result.ok.inj hpure
  exact ⟨rfl, d, hd, rfl⟩

theorem PathId.type?_eq_ok {d : PathData} (hd : s.paths[p.index]? = some d) {type : NodeType}
    {s' : Session} (h : p.type? s = .ok (some type) s') :
    ∃ o, d.node = some o ∧ s.tree.type? o = some type := by
  cases hn : d.node with
  | none =>
    rw [type?_run_of_empty hd hn] at h
    cases h
  | some o =>
    refine ⟨o, rfl, ?_⟩
    cases hk : s.tree.kind? o with
    | some k =>
      rw [type?_run_of_holds ⟨d, hd, hn⟩ hk] at h
      rw [Tree.type?_of_kind hk, (EStateM.Result.ok.inj h).1]
    | none =>
      have hkind : p.kind? s = .error .dangling s :=
        (bind_of_ok (node?_run_of_holds ⟨d, hd, hn⟩)).trans (bind_of_error (ask_dangling hk))
      rw [show p.type? s = .error .dangling s from bind_of_error hkind] at h
      cases h

/-- The new node is a statement, or none is wanted. -/
theorem PathId.replaceUsing_decides (hs : s.Tidy)
    (hfits : ∀ s₁, p.resync s = .ok () s₁ → ¬ s₁.WantsExpression p n)
    (byStatements : PathId → List NodeId → SessionM PathId) :
    Decides (p.replaceUsing byStatements n) s (fun _ s' => s.Replaces p n s')
      fun s' => s'.tree = s.tree := by
  unfold PathId.replaceUsing
  refine .question (.isRemoved p) (.isRemoved p) fun _ _ => .ite (fun _ => .refuse _ rfl) fun _ => ?_
  refine .step (Unrefused.resync p s) fun _ s₁ hresync => ?_
  have htree : s₁.tree = s.tree := (Robust.resync p hresync).1
  have hs₁ : s₁.Tidy := by
    have := (Tidying.resync p s hs).tidy
    rwa [after_of_ok hresync] at this
  refine .question (.isRemoved p) (.isRemoved p) fun removed hremoved => .ite (fun _ => .refuse _ htree)
    fun hlive => ?_
  obtain ⟨-, d, hd, rfl⟩ := isRemoved_eq_ok hremoved
  have hlive : d.removed = false := by simpa using hlive
  refine .of_ok (p.node?_run hd) (.ite (fun hhere => ?_) fun hother => ?_)
  · exact .pure ⟨s₁, d, hresync, htree, hd, .inl ⟨hhere, rfl⟩⟩
  refine .question (.ask _) (.ask _) fun type htype => ?_
  obtain ⟨-, htype⟩ := ask_eq_ok htype
  -- The path is found where its node stands, so that the position can be written.
  have hseat : ∀ o, d.node = some o → s₁.Sits p d.container o :=
    fun o ho => resync_sits hs hresync hd hlive ho
  have hput : ¬ s₁.WantsStatement p n → Decides (p.putNode d.node n) s₁
      (fun _ s' => s.Replaces p n s') fun s' => s'.tree = s.tree := by
    intro hplain
    obtain ⟨hdone, hrefused⟩ := putNode_decides hs₁ hd hlive hseat rfl n hother
    refine ⟨fun u s' hrun => ⟨s₁, d, hresync, htree, hd, .inr ⟨hother, n, s₁.tree,
      .inr ⟨hplain, rfl, rfl⟩, hdone u s' hrun⟩⟩, fun cause s' hrun => ?_⟩
    exact (hrefused cause s' hrun).1.trans htree
  refine .question (.type? p) (.type? p) fun o htype? => ?_
  cases o with
  | none =>
    refine hput ?_
    rintro ⟨e, old, new, hex, -⟩
    rw [hex.type?_run] at htype?
    cases htype?
  | some current =>
    have hex : s₁.Exchanges p n d current type := ⟨hd, type?_eq_ok hd htype?, htype⟩
    have hfits₁ : ∀ {flexible : Bool},
        (flexible = true ↔ d.IsForHead s₁.tree ∨ d.SwapsBody s₁.tree current type) →
        ¬ (current.isExpression && type.isStatement && !flexible) = true := by
      intro flexible hflexible hwants
      simp only [Bool.and_eq_true, Bool.not_eq_true'] at hwants
      have hstiff := mt hflexible.mpr (by simp [hwants.2])
      exact hfits s₁ hresync ⟨d, current, type, hex, hwants.1.1, hwants.1.2,
        fun h => hstiff (.inl h), fun h => hstiff (.inr h)⟩
    have hchoose : ∀ flexible : Bool,
        (flexible = true ↔ d.IsForHead s₁.tree ∨ d.SwapsBody s₁.tree current type) →
        Decides (do
          if current.isExpression && type.isStatement && !flexible then
            let _ ← byStatements p [n]
          else if current.isStatement && type.isExpression && !flexible
              && (← p.parentType?) != some NodeType.exportDefaultDeclaration then
            p.putNode d.node (← onTree (TreeM.alloc (.expressionStatement n)))
          else p.putNode d.node n) s₁ (fun _ s' => s.Replaces p n s')
          fun s' => s'.tree = s.tree := by
      intro flexible hflexible
      rw [if_neg (hfits₁ hflexible)]
      refine .question (.parentType? p) (.parentType? p) fun o hparent => ?_
      obtain ⟨-, rfl⟩ := parentType?_eq_ok hd hparent
      have hwants : (current.isStatement && type.isExpression && !flexible &&
          d.ownerType? s₁.tree != some NodeType.exportDefaultDeclaration) = true ↔
          s₁.WantsStatement p n := by
        simp only [Bool.and_eq_true, Bool.not_eq_true', bne_iff_ne]
        refine ⟨fun ⟨⟨⟨hold, hnew⟩, hstiff⟩, howner⟩ => ?_, ?_⟩
        · have hstiff := mt hflexible.mpr (by simp [hstiff])
          exact ⟨d, current, type, hex, hold, hnew, fun h => hstiff (.inl h),
            fun h => hstiff (.inr h), howner⟩
        · rintro ⟨e, old, new, hex', hold, hnew, hhead, hswap, howner⟩
          obtain ⟨rfl, rfl, rfl⟩ := hex.unique hex'
          refine ⟨⟨⟨hold, hnew⟩, ?_⟩, howner⟩
          simpa using mt hflexible.mp (not_or.mpr ⟨hhead, hswap⟩)
      refine .ite (fun h => ?_) fun h => hput (mt hwants.mpr h)
      -- The new node is put into a statement of its own.
      let t : Tree := s₁.tree.push { kind := .expressionStatement n }
      have hgrown : s₁.tree.Grown t := .push _ _
      have hfresh : ∀ o, d.node = some o → o ≠ ⟨s₁.tree.size⟩ := by
        rintro o ho rfl
        obtain ⟨o', ho', htype'⟩ := hex.old
        obtain rfl := Option.some.inj (ho.symm.trans ho')
        simp [Tree.type?, Tree.node?, Tree.size] at htype'
      have hs₂ : Tidy { s₁ with tree := t } := hs₁.of_same rfl rfl rfl
      obtain ⟨hdone, hrefused⟩ := putNode_decides hs₂ hd hlive
        (fun o ho => (hseat o ho).grown hgrown) rfl ⟨s₁.tree.size⟩ fun hn => hfresh _ hn rfl
      refine .of_ok (onTree_run (show (TreeM.alloc _).run s₁.tree = some (⟨s₁.tree.size⟩, t) from rfl))
        ⟨fun u s' hrun => ⟨s₁, d, hresync, htree, hd, .inr ⟨hother, _, t,
          .inl ⟨hwants.mp h, rfl, rfl⟩, hdone u s' hrun⟩⟩, fun cause s' hrun => ?_⟩
      obtain ⟨o, ho, -⟩ := hex.old
      rw [(hrefused cause s' hrun).2] at ho
      cases ho
    refine .ite (fun _ => .refuse _ htree) fun _ => ?_
    refine .question (.isForHead p) (.isForHead p) fun head hhead => ?_
    obtain ⟨-, hhead⟩ := isForHead_eq_ok hd hhead
    cases head with
    | true => exact hchoose true (by simp [hhead.mp rfl])
    | false =>
      refine .question (.canSwapBody p n) (.canSwapBody p n) fun swap hswap => hchoose swap ?_
      obtain ⟨-, hswap⟩ := canSwapBody_eq_ok hex hswap
      simp [hswap, ← hhead]

end Replace

/-! ## An example -/

end Espalier
