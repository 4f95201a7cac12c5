import Espalier.Proofs.Binders
import Espalier.Proofs.Clients
import Espalier.Proofs.Closure
import Mathlib.Data.List.ReduceOption

set_option autoImplicit false

/-! # Two searches for binding identifiers

The search for binding identifiers is made over nodes and over paths. A path that the search over
paths made is `Standing`: it is found again at its position and holds what stands there, so that no
later step of the search changes what it holds. Both searches therefore go down side by side, level
by level, and find the same names with the same nodes (`bindingIdentifierPaths_agrees`). Only the
path that the search starts from may be stale; it must not live in a field of the node it holds,
where the search itself would give it another node (`ownName_differs`). -/

namespace Espalier

open SessionM Session

/-! ## Tables side by side -/

/-- The same names in the same order, each with values that correspond one to one. -/
def Table.Alongside {α β : Type} (R : α → β → Prop) (t : Table String (List α))
    (t' : Table String (List β)) : Prop :=
  List.Forall₂ (fun e e' => e.1 = e'.1 ∧ List.Forall₂ R e.2 e'.2) t.entries t'.entries

namespace Table.Alongside

variable {α β : Type} {R S : α → β → Prop} {t : Table String (List α)} {t' : Table String (List β)}

theorem empty : Alongside R .empty .empty := .nil

theorem mono (h : Alongside R t t') (hRS : ∀ a b, R a b → S a b) : Alongside S t t' :=
  List.Forall₂.imp (fun _ _ he => ⟨he.1, List.Forall₂.imp hRS he.2⟩) h

theorem keys (h : Alongside R t t') : t.keys = t'.keys := by
  obtain ⟨es⟩ := t
  obtain ⟨es'⟩ := t'
  have h' : List.Forall₂ _ es es' := h
  show es.map Prod.fst = es'.map Prod.fst
  clear h
  induction h' with
  | nil => rfl
  | cons he _ ih => rw [List.map_cons, List.map_cons, he.1, ih]

theorem get? (h : Alongside R t t') (x : String) :
    List.Forall₂ R ((t.get? x).getD []) ((t'.get? x).getD []) := by
  obtain ⟨es⟩ := t
  obtain ⟨es'⟩ := t'
  have h' : List.Forall₂ _ es es' := h
  show List.Forall₂ R ((findEntry x es).getD []) ((findEntry x es').getD [])
  clear h
  induction h' with
  | nil => exact .nil
  | @cons e e' es es' he _ ih =>
    obtain ⟨y, as⟩ := e
    obtain ⟨y', bs⟩ := e'
    obtain ⟨rfl, hab⟩ : y = y' ∧ List.Forall₂ R as bs := he
    by_cases hx : x = y
    · simpa [findEntry, hx] using hab
    · simpa [findEntry, hx] using ih

theorem insert (h : Alongside R t t') (x : String) {as : List α} {bs : List β}
    (hab : List.Forall₂ R as bs) : Alongside R (t.insert x as) (t'.insert x bs) := by
  obtain ⟨es⟩ := t
  obtain ⟨es'⟩ := t'
  have h' : List.Forall₂ _ es es' := h
  show List.Forall₂ _ (insertEntry x as es) (insertEntry x bs es')
  clear h
  induction h' with
  | nil => exact .cons ⟨rfl, hab⟩ .nil
  | @cons e e' es es' he hes ih =>
    obtain ⟨y, as'⟩ := e
    obtain ⟨y', bs'⟩ := e'
    obtain ⟨rfl, hold⟩ : y = y' ∧ List.Forall₂ R as' bs' := he
    by_cases hx : x = y
    · simpa [insertEntry, hx] using ⟨hab, hes⟩
    · simpa [insertEntry, hx] using ⟨hold, ih⟩

/-- Both tables note the name. -/
theorem recordSite (h : Alongside R t t') (keepAll : Bool) (x : String) {a : α} {b : β}
    (hab : R a b) :
    Alongside R (recordSite keepAll t x a) (Espalier.recordSite keepAll t' x b) := by
  refine h.insert x ?_
  cases keepAll with
  | true => exact List.rel_append (h.get? x) (.cons hab .nil)
  | false => exact .cons hab .nil

end Table.Alongside

/-! ## Paths that stay as they are -/

namespace Session

/-- The path is found again at its position, and holds what stands there. -/
def Standing (s : Session) (q : PathId) (o : Option NodeId) : Prop :=
  ∃ d, s.paths[q.index]? = some d ∧ d.container ≠ .detached ∧ q ∈ s.bucket d.container ∧
    d.node = o ∧ nodeAt d.container d.key s = .ok o s

/-- The path holds the node, and does not live in a single-node field of it. -/
def Firm (s : Session) (q : PathId) (n : NodeId) : Prop :=
  ∃ d, s.paths[q.index]? = some d ∧ d.node = some n ∧ d.container ≠ .slot n

/-- The session is tidy, its tree is the same, and no seated path holds something else. -/
structure Searched (s s' : Session) : Prop where
  tidy : s'.Tidy
  tree : s'.tree = s.tree
  standing : ∀ q o, s.Standing q o → s'.Standing q o

variable {s s' s₁ s₂ : Session} {p q : PathId} {n m : NodeId} {o node : Option NodeId}
  {c : Container} {k : Key}

theorem Searched.refl (h : s.Tidy) : s.Searched s := ⟨h, rfl, fun _ _ hq => hq⟩

theorem Searched.trans (h₁ : s.Searched s₁) (h₂ : s₁.Searched s₂) : s.Searched s₂ :=
  ⟨h₂.tidy, h₂.tree.trans h₁.tree, fun q o hq => h₂.standing q o (h₁.standing q o hq)⟩

theorem Firm.holds (h : s.Firm q n) : s.Holds q n := by
  obtain ⟨d, hd, hn, -⟩ := h
  exact ⟨d, hd, hn⟩

theorem Standing.holds (h : s.Standing q (some n)) : s.Holds q n := by
  obtain ⟨d, hd, -, -, hn, -⟩ := h
  exact ⟨d, hd, hn⟩

end Session

/-- What stands at a position depends on the tree alone. -/
theorem nodeAt_of_tree {s s' : Session} {c : Container} {k : Key} {o : Option NodeId}
    (h : nodeAt c k s = .ok o s) (ht : s'.tree = s.tree) : nodeAt c k s' = .ok o s' := by
  have hfield : ∀ {owner : NodeId} {g : NodeKind → Option NodeId},
      (do pure (g (← ask fun t => t.kind? owner)) : SessionM (Option NodeId)) s = .ok o s →
      (do pure (g (← ask fun t => t.kind? owner)) : SessionM (Option NodeId)) s' = .ok o s' := by
    intro owner g hrun
    cases hk : s.tree.kind? owner with
    | none => rw [bind_of_error (ask_dangling hk)] at hrun; cases hrun
    | some kind =>
      rw [bind_of_ok (ask_run hk)] at hrun
      rw [bind_of_ok (ask_run (ht ▸ hk))]
      cases hrun
      rfl
  cases c with
  | root =>
    cases h
    show EStateM.Result.ok s'.tree.root s' = _
    rw [ht]
  | slot owner => cases k with
    | field f => exact hfield h
    | root | index => cases h; rfl
  | list owner f => cases k with
    | index i => exact hfield h
    | root | field => cases h; rfl
  | detached => cases h; rfl

/-- A path that stands at a node which is no child of itself is firm. -/
theorem Session.Standing.firm {s : Session} {q : PathId} {m : NodeId} {k : NodeKind}
    (h : s.Standing q (some m)) (hk : s.tree.kind? m = some k) (hm : m ∉ k.children) :
    s.Firm q m := by
  obtain ⟨d, hd, -, -, hn, hat⟩ := h
  refine ⟨d, hd, hn, fun hc => ?_⟩
  rw [hc] at hat
  cases hkey : d.key with
  | field f =>
    rw [hkey] at hat
    have hrun : nodeAt (.slot m) (.field f) s = .ok ((k.child? f).bind Child.node?) s :=
      bind_of_ok (ask_run hk)
    rw [hrun] at hat
    injection hat with hat
    obtain ⟨c, hc, hcm⟩ := Option.bind_eq_some_iff.mp hat
    refine hm (Tree.mem_children_of_mem_fieldIds (f := f) ?_)
    rw [NodeKind.fieldIds, hc]
    cases c <;> simp_all [Child.node?, Child.ids]
  | root | index => rw [hkey] at hat; cases hat

/-! ## Going to a position -/

section Going

variable {s s' : Session} {p q : PathId} {n m : NodeId} {o node : Option NodeId} {c : Container}
  {k : Key} {parent : Option PathId} {kind : NodeKind} {f : Field}

/-- The path that is found for a position, if it was there before, stood for the position. -/
theorem pathFor_standsFor (hc : c ≠ .detached) (hnode : nodeAt c k s = .ok node s)
    (hrun : pathFor parent c k s = .ok p s') {d : PathData} (hd : s.paths[p.index]? = some d) :
    d.standsFor c k node = true := by
  cases hcached : s.cached? c k node with
  | some q =>
    obtain ⟨e, he⟩ : ∃ e, s.paths[q.index]? = some e ∧ e.standsFor c k node = true := by
      have hfound := List.find?_some hcached
      cases he : s.paths[q.index]? with
      | none => simp [he] at hfound
      | some e => exact ⟨e, rfl, by simpa [he] using hfound⟩
    rw [pathFor_run_of_cached hc hnode hcached he.1] at hrun
    cases hrun
    obtain rfl : d = e := Option.some.inj (hd.symm.trans he.1)
    exact he.2
  | none =>
    rw [pathFor_run_of_new hc hnode hcached] at hrun
    cases hrun
    simp at hd

/-- The path that is found for a position is in the bucket, and no path leaves its bucket. -/
theorem pathFor_bucket (hc : c ≠ .detached) (hnode : nodeAt c k s = .ok node s)
    (hrun : pathFor parent c k s = .ok p s') :
    p ∈ s'.bucket c ∧ ∀ c' q, q ∈ s.bucket c' → q ∈ s'.bucket c' := by
  cases hcached : s.cached? c k node with
  | some r =>
    obtain ⟨e, he⟩ : ∃ e, s.paths[r.index]? = some e := by
      have hfound := List.find?_some hcached
      cases he : s.paths[r.index]? with
      | none => simp [he] at hfound
      | some e => exact ⟨e, rfl⟩
    rw [pathFor_run_of_cached hc hnode hcached he] at hrun
    cases hrun
    exact ⟨List.mem_of_find?_eq_some hcached, fun _ _ hq => hq⟩
  | none =>
    rw [pathFor_run_of_new hc hnode hcached] at hrun
    cases hrun
    have hbucket := fun c' => bucket_insert
      { s with paths := s.paths.push { node, parent, container := c, key := k } } c c'
      (s.bucket c ++ [⟨s.paths.size⟩])
    refine ⟨(hbucket c).symm ▸ by simp, fun c' q hq => ?_⟩
    rw [hbucket]
    split
    · next hcc => exact List.mem_append_left _ (hcc ▸ hq)
    · exact hq

/-- Going to a position leaves every standing path as it is, and gives one. -/
theorem pathFor_searched (hs : s.Tidy) (hc : c ≠ .detached) (hnode : nodeAt c k s = .ok node s)
    (hrun : pathFor parent c k s = .ok p s') : s.Searched s' ∧ s'.Standing p node := by
  have h := (pathFor_lands hs parent hc hnode).of_eq_ok hrun
  have htree : s'.tree = s.tree := by rw [h.rest]
  obtain ⟨hmem, hbucket⟩ := pathFor_bucket hc hnode hrun
  obtain ⟨d, hd, hplace, -⟩ := h.data
  simp only [PathData.place, Prod.mk.injEq] at hplace
  obtain ⟨hdn, hdc, hdk, -⟩ := hplace
  have hp : s'.Standing p node :=
    ⟨d, hd, hdc ▸ hc, hdc ▸ hmem, hdn, by rw [hdc, hdk]; exact nodeAt_of_tree hnode htree⟩
  refine ⟨⟨h.calm.tidy, htree, fun q o hq => ?_⟩, hp⟩
  obtain ⟨e, he, hec, heb, heo, hat⟩ := hq
  by_cases hqp : q = p
  · subst hqp
    -- The path was in the bucket of one container only, so it was looked for there.
    have hmem' : q ∈ s.bucket c := h.known.resolve_right (by simp [he])
    obtain rfl : e.container = c := (hs.container_eq he hmem').1
    have hstands := pathFor_standsFor hc hnode hrun he
    suffices hno : node = o from hno ▸ hp
    cases node with
    | none =>
      have hkey : e.key = k := by
        unfold PathData.standsFor at hstands
        split at hstands
        · next heq => cases heq
        · simpa using hstands
      rw [hkey, hnode] at hat
      cases hat
      rfl
    | some m =>
      unfold PathData.standsFor at hstands
      split at hstands
      · next heq =>
        cases heq
        rw [← heo]
        exact (beq_iff_eq.mp hstands).symm
      · have hkey : e.key = k := by simpa using hstands
        rw [hkey, hnode] at hat
        cases hat
        rfl
  · exact ⟨e, (h.others q hqp).trans he, hec, hbucket _ _ heb, heo, nodeAt_of_tree hat htree⟩

/-- A path that is firm at a node is not found for the position of a child. -/
theorem Session.Firm.pathFor (hs : s.Tidy) (hq : s.Firm q n)
    (hc : c = .slot n ∨ ∃ f m, c = .list n f ∧ node = some m ∧ m ≠ n)
    (hnode : nodeAt c k s = .ok node s) (hrun : pathFor parent c k s = .ok p s') : s'.Firm q n := by
  have hcd : c ≠ .detached := by
    rintro rfl
    rcases hc with hc | ⟨_, _, hc, -⟩ <;> cases hc
  have h := (pathFor_lands hs parent hcd hnode).of_eq_ok hrun
  obtain ⟨d, hd, hn, hslot⟩ := hq
  suffices hne : q ≠ p from ⟨d, (h.others q hne).trans hd, hn, hslot⟩
  rintro rfl
  have hdc : d.container = c :=
    (hs.container_eq hd (h.known.resolve_right (by simp [hd]))).1
  rcases hc with rfl | ⟨f, m, rfl, rfl, hm⟩
  · exact hslot hdc
  · have hstands := pathFor_standsFor hcd hnode hrun hd
    obtain rfl : n = m := by simpa [PathData.standsFor, hn] using hstands
    exact hm rfl

/-- What going to a position does to the paths that a search cares for. -/
theorem pathFor_settled (hs : s.Tidy) (parent : Option PathId) (hc : c ≠ .detached)
    (hnode : nodeAt c k s = .ok node s) :
    Returns (pathFor parent c k) s fun p s' => s.Searched s' ∧ s'.Standing p node ∧
      ∀ q n, s.Firm q n → (c = .slot n ∨ ∃ f m, c = .list n f ∧ node = some m ∧ m ≠ n) →
        s'.Firm q n := by
  obtain ⟨p, s', hrun, -⟩ := pathFor_lands hs parent hc hnode
  obtain ⟨hsearched, hp⟩ := pathFor_searched hs hc hnode hrun
  exact ⟨p, s', hrun, hsearched, hp, fun q n hq hcond => hq.pathFor hs hcond hnode hrun⟩

end Going

/-! ## Fields -/

namespace PathId

variable {s : Session} {q : PathId} {n : NodeId} {k : NodeKind} {f : Field}

theorem child_searched (hs : s.Tidy) (hq : s.Firm q n) (hk : s.tree.kind? n = some k) {c : Child}
    (hc : k.child? f = some c) (hl : c.isList = false) :
    Returns (q.child f) s fun r s' => s.Searched s' ∧ s'.Standing r c.node? ∧ s'.Firm q n := by
  have hnode : nodeAt (.slot n) (.field f) s = .ok c.node? s := by
    show ((ask fun t => t.kind? n) >>= _) s = _
    rw [bind_of_ok (ask_run hk), hc]
    rfl
  have hgo : Returns (pathFor (some q) (.slot n) (.field f)) s fun r s' =>
      s.Searched s' ∧ s'.Standing r c.node? ∧ s'.Firm q n :=
    (pathFor_settled hs _ (by simp) hnode).mono fun r s' h =>
      ⟨h.1, h.2.1, h.2.2 q n hq (.inl rfl)⟩
  unfold child
  refine returns_bind_of_ok (node?_run_of_holds hq.holds) (returns_bind_of_ok (ask_run hk) ?_)
  rw [hc]
  cases c with
  | one | opt => exact hgo
  | many => cases hl

theorem element_searched (hs : s.Tidy) (hq : s.Firm q n) (hk : s.tree.kind? n = some k)
    {ids : List NodeId} (hc : k.child? f = some (.many ids)) (hn : n ∉ ids) {i : Nat}
    (hi : i < ids.length) :
    Returns (q.element f i) s fun r s' => s.Searched s' ∧ s'.Standing r (some ids[i]) ∧
      s'.Firm q n := by
  have hnode : nodeAt (.list n f) (.index i) s = .ok (some ids[i]) s := by
    show ((ask fun t => t.kind? n) >>= _) s = _
    rw [bind_of_ok (ask_run hk), hc]
    simp [Child.list?, hi]
  have hne : ids[i] ≠ n := fun h => hn (h ▸ List.getElem_mem hi)
  unfold element
  refine returns_bind_of_ok (node?_run_of_holds hq.holds) (returns_bind_of_ok (ask_run hk) ?_)
  rw [hc]
  exact (pathFor_settled hs _ (by simp) hnode).mono fun r s' h =>
    ⟨h.1, h.2.1, h.2.2 q n hq (.inr ⟨f, _, rfl, rfl, hne⟩)⟩

theorem mapM_element_searched (hs : s.Tidy) (hq : s.Firm q n) (hk : s.tree.kind? n = some k)
    {ids : List NodeId} (hc : k.child? f = some (.many ids)) (hn : n ∉ ids) (is : List Nat)
    (his : ∀ i ∈ is, i < ids.length) :
    Returns (is.mapM (q.element f)) s fun rs s' => s.Searched s' ∧ s'.Firm q n ∧
      List.Forall₂ s'.Standing rs (is.map (ids[·]?)) := by
  induction is generalizing s with
  | nil => exact .pure ⟨.refl hs, hq, .nil⟩
  | cons i is ih =>
    have hi : i < ids.length := his i (by simp)
    rw [List.mapM_cons]
    refine (element_searched hs hq hk hc hn hi).bind fun r s₁ hfirst => ?_
    obtain ⟨hs₁, hr, hq₁⟩ := hfirst
    refine (ih hs₁.tidy hq₁ (by rw [hs₁.tree]; exact hk) fun j hj => his j (by simp [hj])).bind
      fun rs s₂ hrest => ?_
    obtain ⟨hs₂, hq₂, hrs⟩ := hrest
    refine .pure ⟨hs₁.trans hs₂, hq₂, ?_⟩
    rw [List.map_cons, List.getElem?_eq_getElem hi]
    exact .cons (hs₂.standing r _ hr) hrs

/-- The paths in a field stand at its nodes. -/
theorem inField_searched (hs : s.Tidy) (hq : s.Firm q n) (hk : s.tree.kind? n = some k)
    (hn : n ∉ k.children) (f : Field) :
    Returns (q.inField f) s fun rs s' => s.Searched s' ∧ s'.Firm q n ∧
      List.Forall₂ s'.Standing rs ((k.fieldIds f).map some) := by
  have hone : ∀ c m, k.child? f = some c → c.isList = false → c.node? = some m →
      Returns (do pure [← q.child f]) s fun rs s' => s.Searched s' ∧ s'.Firm q n ∧
        List.Forall₂ s'.Standing rs [some m] := by
    intro c m hc hl hm
    refine (child_searched hs hq hk hc hl).bind fun r s' hchild => ?_
    obtain ⟨hs', hr, hq'⟩ := hchild
    exact .pure ⟨hs', hq', .cons (hm ▸ hr) .nil⟩
  unfold inField
  refine returns_bind_of_ok (kind?_run_of_holds hq.holds hk) ?_
  cases hc : k.child? f with
  | none =>
    simp only [hc, NodeKind.fieldIds]
    exact .pure ⟨.refl hs, hq, .nil⟩
  | some c =>
    simp only [hc, NodeKind.fieldIds]
    cases c with
    | one m => exact hone _ m hc rfl rfl
    | opt o =>
      cases o with
      | none => exact .pure ⟨.refl hs, hq, .nil⟩
      | some m => exact hone _ m hc rfl rfl
    | many ids =>
      have hids : n ∉ ids := fun hm => hn (Tree.mem_children_of_mem_fieldIds (f := f)
        (by simpa [NodeKind.fieldIds, hc, Child.ids] using hm))
      have hfield : s.tree.field? n f = some (.many ids) := by simp [Tree.field?, hk, hc]
      show Returns (q.elements f) s _
      unfold elements
      refine returns_bind_of_ok (node?_run_of_holds hq.holds) ?_
      refine returns_bind_of_ok (listLength_run hfield) ?_
      refine (mapM_element_searched hs hq hk hc hids _ fun i hi => List.mem_range.mp hi).mono
        fun rs s' hall => ?_
      obtain ⟨hs', hq', hrs⟩ := hall
      refine ⟨hs', hq', ?_⟩
      have hall : (List.range ids.length).map (ids[·]?) = ids.map some := by
        apply List.ext_getElem <;> simp
      exact hall ▸ hrs

theorem mapM_inField_searched (hs : s.Tidy) (hq : s.Firm q n) (hk : s.tree.kind? n = some k)
    (hn : n ∉ k.children) (fs : List Field) :
    Returns (fs.mapM q.inField) s fun rss s' => s.Searched s' ∧
      List.Forall₂ s'.Standing rss.flatten ((fs.flatMap k.fieldIds).map some) := by
  induction fs generalizing s with
  | nil => exact .pure ⟨.refl hs, .nil⟩
  | cons f fs ih =>
    rw [List.mapM_cons]
    refine (inField_searched hs hq hk hn f).bind fun rs s₁ hfirst => ?_
    obtain ⟨hs₁, hq₁, hrs⟩ := hfirst
    refine (ih hs₁.tidy hq₁ (by rw [hs₁.tree]; exact hk)).bind fun rss s₂ hrest => ?_
    obtain ⟨hs₂, hrss⟩ := hrest
    refine .pure ⟨hs₁.trans hs₂, ?_⟩
    rw [List.flatten_cons, List.flatMap_cons, List.map_append]
    exact List.rel_append (List.Forall₂.imp hs₂.standing hrs) hrss

/-! ## The searches side by side -/

/-- An export has a place for a declaration. -/
theorem exists_child_declaration (hx : k.type.isExportDeclaration = true) :
    ∃ c, k.child? .declaration = some c ∧ c.isList = false := by
  cases k with
  | exportNamedDeclaration | exportDefaultDeclaration => exact ⟨_, rfl, rfl⟩
  | _ => cases hx

/-- A function declaration has a place for its name. -/
theorem exists_child_id (hf : k.type = .functionDeclaration) :
    ∃ c, k.child? .id = some c ∧ c.isList = false := by
  cases k with
  | functionDeclaration => exact ⟨_, rfl, rfl⟩
  | _ => cases hf

/-- Both searches go on at the same nodes. Where there is none, the search over paths may have a
path without a node. -/
theorem bindingTargets_searched (hs : s.Tidy) (hq : s.Firm q n) (hk : s.tree.kind? n = some k)
    (hn : n ∉ k.children) (outerOnly : Bool) {ms : List NodeId}
    (hms : s.tree.bindingTargets? outerOnly k = some ms) :
    Returns (q.bindingTargets outerOnly k.type) s fun rs s' => s.Searched s' ∧
      ∃ os, List.Forall₂ s'.Standing rs os ∧ os.reduceOption = ms := by
  unfold bindingTargets
  unfold Tree.bindingTargets? at hms
  by_cases hx : k.type.isExportDeclaration = true
  · rw [if_pos hx] at hms ⊢
    obtain ⟨c, hc, hl⟩ := exists_child_declaration hx
    rw [hc, Option.bind_some] at hms
    refine (child_searched hs hq hk hc hl).bind fun r s' hchild => ?_
    obtain ⟨hs', hr, -⟩ := hchild
    cases hm : c.node? with
    | none =>
      rw [hm] at hms hr
      cases hms
      obtain ⟨d, hd, -, -, hdn, -⟩ := hr
      have hany : r.isAny NodeType.isDeclaration s' = .ok false s' :=
        bind_of_ok (type?_run_of_empty hd hdn)
      exact returns_bind_of_ok hany (.pure ⟨hs', [], .nil, rfl⟩)
    | some m =>
      rw [hm] at hms hr
      obtain ⟨type, htype, hms⟩ := Option.bind_eq_some_iff.mp hms
      cases hms
      obtain ⟨km, hkm, rfl⟩ : ∃ km, s'.tree.kind? m = some km ∧ km.type = type := by
        rw [hs'.tree]
        unfold Tree.type? at htype
        obtain ⟨node, hnode, rfl⟩ := Option.map_eq_some_iff.mp htype
        exact ⟨node.kind, by simp [Tree.kind?, hnode], rfl⟩
      refine returns_bind_of_ok (isAny_run_of_holds hr.holds hkm _) (.pure ⟨hs', ?_⟩)
      cases km.type.isDeclaration with
      | false => exact ⟨[], .nil, rfl⟩
      | true => exact ⟨[some m], .cons hr .nil, rfl⟩
  rw [if_neg hx] at hms ⊢
  by_cases ho : (outerOnly && k.type == .functionDeclaration) = true
  · rw [if_pos ho] at hms ⊢
    cases hms
    simp only [Bool.and_eq_true, beq_iff_eq] at ho
    obtain ⟨c, hc, hl⟩ := exists_child_id ho.2
    refine (child_searched hs hq hk hc hl).bind fun r s' hchild => ?_
    obtain ⟨hs', hr, -⟩ := hchild
    refine .pure ⟨hs', [c.node?], .cons hr .nil, ?_⟩
    rw [NodeKind.fieldIds, hc]
    cases c with
    | one => rfl
    | opt o => cases o <;> rfl
    | many => cases hl
  rw [if_neg ho] at hms ⊢
  by_cases hf : (outerOnly && k.type.isFunction) = true
  · rw [if_pos hf] at hms ⊢
    cases hms
    exact .pure ⟨.refl hs, [], .nil, rfl⟩
  · rw [if_neg hf] at hms ⊢
    cases hms
    refine (mapM_inField_searched hs hq hk hn _).bind fun rss s' hall => ?_
    obtain ⟨hs', hrss⟩ := hall
    refine .pure ⟨hs', _, hrss, ?_⟩
    simp [List.reduceOption]

/-- A level of paths that stand at the nodes of a level. -/
theorem bindingLevel_searched (keepAll outerOnly : Bool) {depth : Nat} {rs : List PathId}
    {os : List (Option NodeId)} (hs : s.Tidy) (hlevel : List.Forall₂ s.Standing rs os)
    (hdepth : ∀ m ∈ os.reduceOption, s.tree.DepthWithin (depth + 1) m)
    {found : Table String (List PathId)} {found' : Table String (List NodeId)}
    (hfound : found.Alongside (fun q m => s.Standing q (some m)) found') :
    Returns (bindingLevel keepAll outerOnly rs found) s fun r s' => s.Searched s' ∧
      ∃ r', s.tree.bindingLevel? keepAll outerOnly os.reduceOption found' = some r' ∧
        r.1.Alongside (fun q m => s'.Standing q (some m)) r'.1 ∧
        (∃ os', List.Forall₂ s'.Standing r.2 os' ∧ os'.reduceOption = r'.2) ∧
        ∀ m ∈ r'.2, s.tree.DepthWithin depth m := by
  induction rs generalizing s os found found' with
  | nil =>
    cases hlevel
    exact .pure ⟨.refl hs, _, rfl, hfound, ⟨[], .nil, rfl⟩, by simp⟩
  | cons r rs ih =>
    obtain _ | @⟨_, o, _, os, hr, hlevel⟩ := hlevel
    cases o with
    | none =>
      obtain ⟨d, hd, -, -, hdn, -⟩ := hr
      unfold bindingLevel
      exact returns_bind_of_ok (kind?_run_of_empty hd hdn) (ih hs hlevel hdepth hfound)
    | some m =>
      have hm := hdepth m (by simp [List.reduceOption])
      have hdepth' : ∀ m ∈ os.reduceOption, s.tree.DepthWithin (depth + 1) m := fun m' hm' =>
        hdepth m' (by simp [List.reduceOption] at hm' ⊢; exact .inr hm')
      have hdown := hm
      obtain ⟨k, hk, hc⟩ := hdown
      rw [List.reduceOption_cons_of_some]
      cases hid : k.identifierName? with
      | some x =>
        obtain ⟨declared, rfl⟩ := k.identifierName?_eq_some_iff.mp hid
        unfold bindingLevel Tree.bindingLevel?
        refine returns_bind_of_ok (kind?_run_of_holds hr.holds hk) ?_
        rw [hk, Option.bind_eq_bind, Option.bind_some]
        exact ih hs hlevel hdepth' (hfound.recordSite keepAll x hr)
      | none =>
        have hself : m ∉ k.children := fun hmem =>
          hm.not_transGen (.single ((s.tree.isChild_iff m m).mpr ⟨k, hk, hmem⟩))
        obtain ⟨ms, hms⟩ := Tree.exists_bindingTargets? outerOnly fun c hmem =>
          (hc c hmem).kind
        rw [Returns, bindingLevel_cons hr.holds hk hid]
        refine (bindingTargets_searched hs (hr.firm hk hself) hk hself outerOnly hms).bind
          fun targets s₁ hfirst => ?_
        obtain ⟨hs₁, os₁, htargets, hos₁⟩ := hfirst
        refine (ih hs₁.tidy (List.Forall₂.imp hs₁.standing hlevel) (by rw [hs₁.tree]; exact hdepth')
          (hfound.mono fun q m hq => hs₁.standing q _ hq)).bind
          fun r s₂ hrest => .pure ?_
        obtain ⟨hs₂, r', hr', hfound₂, ⟨os₂, hbelow, hos₂⟩, hdepth₂⟩ := hrest
        rw [hs₁.tree] at hr' hdepth₂
        refine ⟨hs₁.trans hs₂, (r'.1, ms ++ r'.2), ?_, hfound₂, ⟨os₁ ++ os₂, ?_, ?_⟩, ?_⟩
        · rw [Tree.bindingLevel?_cons hk hid, hms, hr']
          rfl
        · exact List.rel_append (List.Forall₂.imp hs₂.standing htargets) hbelow
        · rw [List.reduceOption_append, hos₁, hos₂]
        · intro c hmem
          rcases List.mem_append.mp hmem with hmem | hmem
          · exact hc c (Tree.mem_children_of_mem_bindingTargets hms hmem)
          · exact hdepth₂ c hmem

/-- Paths without a node lead nowhere. -/
theorem bindingLevel_absent (keepAll outerOnly : Bool) {rs : List PathId}
    {os : List (Option NodeId)} (hlevel : List.Forall₂ s.Standing rs os)
    (hnone : os.reduceOption = []) (found : Table String (List PathId)) :
    bindingLevel keepAll outerOnly rs found s = .ok (found, []) s := by
  induction rs generalizing os with
  | nil => rfl
  | cons r rs ih =>
    obtain _ | @⟨_, o, _, os, hr, hlevel⟩ := hlevel
    cases o with
    | none =>
      obtain ⟨d, hd, -, -, hdn, -⟩ := hr
      unfold bindingLevel
      rw [bind_of_ok (kind?_run_of_empty hd hdn)]
      exact ih hlevel hnone
    | some m => cases hnone

/-- Where no path has a node the search over paths ends one level later than the search over
nodes. -/
theorem bindingSearch_absent (keepAll outerOnly : Bool) {fuel : Nat} (hfuel : 1 < fuel)
    {rs : List PathId} {os : List (Option NodeId)} (hlevel : List.Forall₂ s.Standing rs os)
    (hnone : os.reduceOption = []) (found : Table String (List PathId)) :
    bindingSearch keepAll outerOnly fuel rs found s = .ok found s := by
  obtain ⟨fuel, rfl⟩ : ∃ i, fuel = i + 2 := ⟨fuel - 2, by omega⟩
  unfold bindingSearch
  split
  · rfl
  · exact bind_of_ok (bindingLevel_absent keepAll outerOnly hlevel hnone found)

/-- From paths that stand at nodes both searches find the same. -/
theorem bindingSearch_searched (keepAll outerOnly : Bool) {depth fuel fuel' : Nat}
    (hfuel : depth + 1 < fuel) (hfuel' : depth < fuel') {rs : List PathId}
    {os : List (Option NodeId)} (hs : s.Tidy) (hlevel : List.Forall₂ s.Standing rs os)
    (hdepth : ∀ m ∈ os.reduceOption, s.tree.DepthWithin depth m)
    {found : Table String (List PathId)} {found' : Table String (List NodeId)}
    (hfound : found.Alongside (fun q m => s.Standing q (some m)) found') :
    Returns (bindingSearch keepAll outerOnly fuel rs found) s fun paths s' => s.Searched s' ∧
      ∃ nodes, s.tree.bindingSearch? keepAll outerOnly fuel' os.reduceOption found' = some nodes ∧
        paths.Alongside (fun q m => s'.Standing q (some m)) nodes := by
  induction depth generalizing s fuel fuel' rs os found found' with
  | zero =>
    have hnone : os.reduceOption = [] := List.eq_nil_iff_forall_not_mem.mpr fun m hm =>
      (hdepth m hm).elim
    obtain ⟨fuel', rfl⟩ : ∃ i, fuel' = i + 1 := ⟨fuel' - 1, by omega⟩
    exact ⟨found, s, bindingSearch_absent keepAll outerOnly (by omega) hlevel hnone found,
      .refl hs, found', by rw [hnone, Tree.bindingSearch?, if_pos rfl], hfound⟩
  | succ depth ih =>
    obtain ⟨fuel', rfl⟩ : ∃ i, fuel' = i + 1 := ⟨fuel' - 1, by omega⟩
    by_cases hnone : os.reduceOption = []
    · exact ⟨found, s, bindingSearch_absent keepAll outerOnly (by omega) hlevel hnone found,
        .refl hs, found', by rw [hnone, Tree.bindingSearch?, if_pos rfl], hfound⟩
    · obtain ⟨fuel, rfl⟩ : ∃ i, fuel = i + 1 := ⟨fuel - 1, by omega⟩
      have hrs : rs ≠ [] := by
        rintro rfl
        cases hlevel
        exact hnone rfl
      unfold bindingSearch Tree.bindingSearch?
      rw [if_neg hrs]
      refine (bindingLevel_searched keepAll outerOnly hs hlevel hdepth hfound).bind
        fun r s₁ hsearched => ?_
      obtain ⟨hs₁, r', hr', hfound₁, ⟨os₁, hlevel₁, hos₁⟩, hdepth₁⟩ := hsearched
      rw [← hos₁] at hdepth₁
      have hless : depth + 1 < fuel := by omega
      have hless' : depth < fuel' := by omega
      refine (ih hless hless' hs₁.tidy hlevel₁ (by rw [hs₁.tree]; exact hdepth₁) hfound₁).mono
        fun paths s' hbelow => ?_
      obtain ⟨hs', nodes, hnodes, h⟩ := hbelow
      refine ⟨hs₁.trans hs', nodes, ?_, h⟩
      rw [if_neg hnone, hr', ← hnodes, hs₁.tree, hos₁]
      rfl

/-- From a path that is firm at its node both searches find the same. -/
theorem bindingIdentifierPaths_searched (keepAll outerOnly : Bool) (hs : s.Tidy)
    (hq : s.Firm q n) (hdepth : s.tree.DepthWithin s.tree.size n) :
    Returns (q.bindingIdentifierPaths keepAll outerOnly) s fun paths s' => s'.tree = s.tree ∧
      ∃ nodes, s.tree.bindingIdentifiers? n keepAll outerOnly = some nodes ∧
        paths.Alongside s'.Holds nodes := by
  obtain ⟨size, hsize⟩ : ∃ d, s.tree.size = d + 1 := by
    cases hd : s.tree.size with
    | zero => exact (hd ▸ hdepth : s.tree.DepthWithin 0 n).elim
    | succ d => exact ⟨d, rfl⟩
  have hdown : s.tree.DepthWithin (size + 1) n := hsize ▸ hdepth
  obtain ⟨k, hk, hc⟩ := hdown
  have hbound : s.tree.depthBound = size + 3 := by unfold Tree.depthBound; omega
  unfold bindingIdentifierPaths Tree.bindingIdentifiers? Tree.bindingSearch?
  rw [Returns, run_get_bind, hbound]
  unfold bindingSearch
  rw [if_neg (List.cons_ne_nil _ _), if_neg (List.cons_ne_nil _ _)]
  cases hid : k.identifierName? with
  | some x =>
    obtain ⟨declared, rfl⟩ := k.identifierName?_eq_some_iff.mp hid
    have hlevel : bindingLevel keepAll outerOnly [q] .empty s =
        .ok (recordSite keepAll .empty x q, []) s := by
      unfold bindingLevel
      exact bind_of_ok (kind?_run_of_holds hq.holds hk)
    have hnodes : s.tree.bindingLevel? keepAll outerOnly [n] .empty =
        some (recordSite keepAll .empty x n, []) := by
      simp [Tree.bindingLevel?, hk]
    refine ⟨_, s, bind_of_ok hlevel, rfl, _, ?_,
      Table.Alongside.empty.recordSite keepAll x hq.holds⟩
    rw [hnodes]
    rfl
  | none =>
    have hself : n ∉ k.children := fun hmem =>
      hdepth.not_transGen (.single ((s.tree.isChild_iff n n).mpr ⟨k, hk, hmem⟩))
    obtain ⟨ms, hms⟩ := Tree.exists_bindingTargets? outerOnly fun c hmem => (hc c hmem).kind
    obtain ⟨rs, s₁, hrun, hs₁, os, hlevel, hos⟩ :=
      bindingTargets_searched hs hq hk hself outerOnly hms
    have hpaths : bindingLevel keepAll outerOnly [q] .empty s = .ok (.empty, rs) s₁ := by
      rw [bindingLevel_cons hq.holds hk hid, bind_of_ok hrun]
      simp [bindingLevel]
    have hnodes : s.tree.bindingLevel? keepAll outerOnly [n] .empty = some (.empty, ms) := by
      rw [Tree.bindingLevel?_cons hk hid, hms]
      simp [Tree.bindingLevel?]
    have hdepth₁ : ∀ m ∈ os.reduceOption, s₁.tree.DepthWithin size m := by
      intro m hm
      rw [hs₁.tree]
      exact hc m (Tree.mem_children_of_mem_bindingTargets hms (hos ▸ hm))
    have hless : size + 1 < size + 3 := by omega
    have hless' : size < size + 3 := by omega
    obtain ⟨paths, s₂, hsearch, hs₂, nodes, hfound, h⟩ :=
      bindingSearch_searched keepAll outerOnly hless hless' hs₁.tidy hlevel hdepth₁
        Table.Alongside.empty
    refine ⟨paths, s₂, (bind_of_ok hpaths).trans hsearch, hs₂.tree.trans hs₁.tree, nodes, ?_,
      h.mono fun r m hr => hr.holds⟩
    rw [hnodes, ← hfound, hos, hs₁.tree]
    rfl

end PathId

/-! ## The two searches agree -/

/-- In every session that a client can get hold of, if every id in its tree is allocated and no node
stands below itself, the search over paths from a path that holds a node, and does not live in a
field of that very node, finds the same names in the same order as the search over nodes, and for
each name paths that hold the nodes, one by one. -/
theorem bindingIdentifierPaths_agrees {s : Session} (h : s.Reached) (hclosed : s.tree.Closed)
    (hacyclic : s.tree.Acyclic {m | m.index < s.tree.size}) {p : PathId} {n : NodeId}
    {d : PathData} (hd : s.paths[p.index]? = some d) (hn : d.node = some n)
    (hknown : n.index < s.tree.size) (hplace : d.container ≠ .slot n) (keepAll outerOnly : Bool) :
    ∃ paths nodes s', p.bindingIdentifierPaths keepAll outerOnly s = .ok paths s' ∧
      s.tree.bindingIdentifiers? n keepAll outerOnly = some nodes ∧
      paths.keys = nodes.keys ∧ paths.Alongside s'.Holds nodes := by
  have hdepth : s.tree.DepthWithin s.tree.size n := by
    refine hacyclic.depthWithin (fun m hm => (s.tree.kind?_isSome_iff m).mpr hm)
      (fun m _ c hc => ?_) hknown
    obtain ⟨k, hk, hmem⟩ := (s.tree.isChild_iff m c).mp hc
    exact hclosed.children m k hk c hmem
  obtain ⟨paths, s', hrun, -, nodes, hnodes, hfound⟩ :=
    PathId.bindingIdentifierPaths_searched keepAll outerOnly h.tidy ⟨d, hd, hn, hplace⟩ hdepth
  exact ⟨paths, nodes, s', hrun, hnodes, hfound.keys, hfound⟩

/-- The program `function f(a, [f]) { }`. -/
def paramProgram : Tree where
  nodes := #[{ kind := .identifier "f" none }, { kind := .identifier "a" none },
    { kind := .identifier "f" none }, { kind := .arrayPattern [⟨2⟩] },
    { kind := .blockStatement [] },
    { kind := .functionDeclaration (some ⟨0⟩) [⟨1⟩, ⟨3⟩] ⟨4⟩ false false none },
    { kind := .program [⟨5⟩] [] }]
  root := some ⟨6⟩

/-- Go to the function. -/
def visitFunction : SessionM PathId := do
  let root ← rootPath
  root.element .body 0

/-- The session after that. -/
def paramSession : Session :=
  (after (WalkM.onSession visitFunction : WalkM Unit PathId)
    { session := { tree := paramProgram, config := { lazyScopes := true } }, own := () }).session

theorem paramSession_agrees : paramSession.Reached ∧ paramSession.tree.Closed ∧
    paramSession.tree.Acyclic {m | m.index < paramSession.tree.size} ∧
    ∃ paths nodes s', PathId.bindingIdentifierPaths ⟨1⟩ true false paramSession = .ok paths s' ∧
      paramSession.tree.bindingIdentifiers? ⟨5⟩ true false = some nodes ∧
      paths.keys = nodes.keys ∧ paths.Alongside s'.Holds nodes := by
  have hopen : Session.open? paramProgram { lazyScopes := true } =
    .ok { tree := paramProgram, config := { lazyScopes := true } } := rfl
  have hclient : Client (WalkM.onSession visitFunction : WalkM Unit PathId) :=
    .call (.navigate (Composed.bind Navigating.rootPath fun root =>
      Navigating.element root .body 0))
  have hreached : paramSession.Reached := .used () 0 (.opened hopen) hclient
  have htree : paramSession.tree = paramProgram := rfl
  have hclosed : paramSession.tree.Closed := .of_nodes (by decide) (by decide)
  have hforest : paramProgram.Forest {m | m.index < paramProgram.size} :=
    .of_bottomUp (by decide) (by decide) (by decide)
  have hacyclic : paramSession.tree.Acyclic {m | m.index < paramSession.tree.size} :=
    hforest.acyclic
  obtain ⟨d, hd, hplace⟩ : ∃ d, paramSession.paths[1]? = some d ∧
      (d.node, d.container) = (some ⟨5⟩, .list ⟨6⟩ .body) := ⟨_, rfl, rfl⟩
  obtain ⟨hn, hc⟩ := Prod.mk.inj hplace
  exact ⟨hreached, hclosed, hacyclic, bindingIdentifierPaths_agrees hreached hclosed hacyclic
    (p := ⟨1⟩) hd hn (by decide) (by rw [hc]; simp) true false⟩

/-! ## A path in a field of the node it holds -/

/-- The function `function f(a) { }`, which is not part of the program. -/
def spareFunction : Tree where
  nodes := #[{ kind := .identifier "f" none }, { kind := .identifier "a" none },
    { kind := .blockStatement [] },
    { kind := .functionDeclaration (some ⟨0⟩) [⟨1⟩] ⟨2⟩ false false none },
    { kind := .program [] [] }]
  root := some ⟨4⟩

/-- For a moment the function is its own name; a path that was made then holds the function. -/
def ownName : WalkM Unit PathId := do
  WalkM.onSession (onTree (TreeM.modifyKind ⟨3⟩ (·.setNode .id ⟨3⟩)))
  let p ← WalkM.onSession (pathFor none (.slot ⟨3⟩) (.field .id))
  WalkM.onSession (onTree (TreeM.modifyKind ⟨3⟩ (·.setNode .id ⟨0⟩)))
  pure p

/-- The session after that. -/
def ownNameSession : Session :=
  (after ownName { session := { tree := spareFunction, config := { lazyScopes := true } }
                   own := () }).session

/-- Its tree is as at the start. From the path that lives in the name of the function and holds the
function, the search over paths finds the name only: looking for the name it gives the path the name
to hold, which has no parameters. The search over nodes finds the name and the parameter. -/
theorem ownName_differs : ownNameSession.Reached ∧ ownNameSession.tree = spareFunction ∧
    ownNameSession.tree.Closed ∧
    ownNameSession.tree.Acyclic {m | m.index < ownNameSession.tree.size} ∧
    ownNameSession.Holds ⟨0⟩ ⟨3⟩ ∧
    (value? (PathId.bindingIdentifierPaths ⟨0⟩ true false) ownNameSession).map Table.keys =
      some ["f"] ∧
    (ownNameSession.tree.bindingIdentifiers? ⟨3⟩ true false).map Table.keys = some ["f", "a"] := by
  have hopen : Session.open? spareFunction { lazyScopes := true } =
    .ok { tree := spareFunction, config := { lazyScopes := true } } := rfl
  have hclient : Client ownName :=
    .bind (.call (.onTree _)) fun _ => .bind (.call (.pathFor _ _ _)) fun p =>
      .bind (.call (.onTree _)) fun _ => .pure p
  have hforest : spareFunction.Forest {m | m.index < spareFunction.size} :=
    .of_bottomUp (by decide) (by decide) (by decide)
  exact ⟨.used () 0 (.opened hopen) hclient, rfl, .of_nodes (by decide) (by decide),
    hforest.acyclic, ⟨_, rfl, rfl⟩, by decide, by decide⟩

end Espalier
