import Espalier.Proofs.Handles
import Mathlib.Data.List.Forall2

set_option autoImplicit false

/-! # Navigation in sound sessions

From a path that holds a node every field leads to the paths of the positions in that field. Any
other navigation ends at a path without a position. Whatever a navigation does, the session stays
sound and only grows (`Session.Roams`). -/

namespace Espalier

open SessionM

namespace Session

/-! ## Paths without a position -/

/-- The session with a new path without a position. -/
def addAdrift (s : Session) (parent : Option PathId) (d : PathData) : Session :=
  { s with paths := s.paths.push d, detached := s.detached.insert parent ⟨s.paths.size⟩ }

section AddAdrift

variable {s : Session} {K : Set NodeId} {parent : Option PathId} {d : PathData}

theorem getElem?_addAdrift (p : PathId) :
    (s.addAdrift parent d).paths[p.index]? = if p.index = s.paths.size then some d
      else s.paths[p.index]? :=
  Array.getElem?_push

theorem getElem?_addAdrift_of_some {p : PathId} {e : PathData}
    (he : s.paths[p.index]? = some e) : (s.addAdrift parent d).paths[p.index]? = some e := by
  have hlt := (Array.getElem?_eq_some_iff.mp he).1
  rw [getElem?_addAdrift, if_neg (by omega), he]

/-- A filed path is one of before. -/
theorem Files.of_addAdrift (h : s.Sound K) {p : PathId} {pos : Position} {e : PathData}
    (hf : (s.addAdrift parent d).Files p pos e) : s.Files p pos e := by
  have hb : p ∈ s.bucket pos.container := hf.bucket
  obtain ⟨_, e', _, _, hf'⟩ := h.filed _ p hb
  obtain rfl : e' = e :=
    Option.some.inj ((getElem?_addAdrift_of_some hf'.data).symm.trans hf.data)
  exact ⟨hf'.data, hb, hf.container, hf.key, hf.live, hf.node⟩

theorem Sound.grew_addAdrift (h : s.Sound K) : s.Grew (s.addAdrift parent d) where
  rest := rfl
  kept p e he := by
    obtain ⟨e', he', hk⟩ := (Grew.refl h).kept p e he
    obtain rfl : e = e' := Option.some.inj (he.symm.trans he')
    exact ⟨e, getElem?_addAdrift_of_some he, hk.1, fun _ => ⟨rfl, .inl rfl⟩⟩
  bucket _ _ hp := hp
  fresh _ _ _ hp _ := hp

theorem Sound.addAdrift (h : s.Sound K) (hd : d.place = (none, .detached, .root, false)) :
    (s.addAdrift parent d).Sound K where
  forest := h.forest
  filed c p hp := by
    obtain ⟨pos, e, hc, hw, hf⟩ := h.filed c p hp
    exact ⟨pos, e, hc, hw, getElem?_addAdrift_of_some hf.data, hf.bucket, hf.container, hf.key,
      hf.live, hf.node⟩
  nodup := h.nodup
  unique p q pos e e' hp hq hne :=
    h.unique p q pos e e' (hp.of_addAdrift h) (hq.of_addAdrift h) hne
  held p e he hne := by
    rw [getElem?_addAdrift] at he
    split at he
    · obtain rfl := Option.some.inj he
      simp only [PathData.place, Prod.mk.injEq] at hd
      exact absurd hd.1 hne
    · exact h.held p e he hne
  adrift q p hp := by
    have hq : (s.detached.insert parent ⟨s.paths.size⟩).get? q = some p := hp
    rw [Table.get?_insert] at hq
    split at hq
    · obtain rfl := Option.some.inj hq
      exact ⟨d, by rw [getElem?_addAdrift, if_pos rfl], hd⟩
    · obtain ⟨e, he, hpl⟩ := h.adrift q p hq
      exact ⟨e, getElem?_addAdrift_of_some he, hpl⟩
  linked p pos e hf hw :=
    h.grew_addAdrift.adopts h (h.linked p pos e (hf.of_addAdrift h) hw)

end AddAdrift

/-- What leaving the tree gives: a path without a node and a position. -/
structure Strays (s : Session) (K : Set NodeId) (p : PathId) (s' : Session) : Prop
    extends Went s K s' where
  adrift : ∃ d, s'.paths[p.index]? = some d ∧ d.place = (none, .detached, .root, false)

end Session

open Session in
/-- Leaving the tree succeeds. -/
theorem detachedPath_returns {s : Session} {K : Set NodeId} (h : s.Sound K)
    (parent : Option PathId) : Returns (detachedPath parent) s (s.Strays K) := by
  show Returns (pathFor parent .detached .root) s _
  unfold pathFor
  rw [if_pos rfl]
  unfold detachedAt
  rw [Returns, run_get_bind]
  cases hq : s.detached.get? parent with
  | some p =>
    obtain ⟨d, hd, hpl⟩ := h.adrift parent p hq
    refine ⟨p, _, bind_of_ok (p.modifyData_run hd _), ?_⟩
    have halike := s.alike_modify p
      (fun _ => { node := none, parent, container := .detached, key := .root }) fun d' hd' => by
        obtain rfl : d = d' := Option.some.inj (hd.symm.trans hd')
        exact hpl.symm
    have hgrew : s.Grew { s with paths := s.paths.modify p.index fun _ =>
        { node := none, parent, container := .detached, key := .root } } := by
      refine ⟨rfl, fun q e he => ?_, fun _ _ hp => hp, fun _ _ _ hp _ => hp⟩
      obtain ⟨e', he', hk⟩ := (Grew.refl h).kept q e he
      obtain rfl : e = e' := Option.some.inj (he.symm.trans he')
      rw [getElem?_modify_paths]
      split
      · next hqp =>
        subst hqp
        obtain rfl : d = e := Option.some.inj (hd.symm.trans he)
        refine ⟨_, by rw [he]; rfl, fun _ => ⟨rfl, rfl⟩, fun hc => absurd ?_ hc⟩
        simp only [PathData.place, Prod.mk.injEq] at hpl
        exact hpl.2.1
      · exact ⟨e, he, hk.1, fun _ => ⟨rfl, .inl rfl⟩⟩
    exact ⟨⟨halike.sound_of_grew h hgrew, hgrew, rfl⟩, _,
      by rw [getElem?_modify_paths, if_pos rfl, hd]; rfl, rfl⟩
  | none =>
    refine ⟨⟨s.paths.size⟩, s.addAdrift parent
      { node := none, parent, container := .detached, key := .root }, rfl, ?_⟩
    exact ⟨⟨h.addAdrift rfl, h.grew_addAdrift, rfl⟩, _, by rw [getElem?_addAdrift, if_pos rfl], rfl⟩

/-! ## Paths with their parent -/

namespace Session

/-- The path is filed at the position, and its parent is the path that holds the owner. -/
def Linked (s : Session) (p : PathId) (pos : Position) : Prop :=
  ∃ d, s.Files p pos d ∧ s.Adopts pos.container d.parent

section Linked

variable {s s' : Session} {K : Set NodeId} {p : PathId} {pos : Position}

theorem Linked.grew (hl : s.Linked p pos) (h : s.Sound K) (hg : s.Grew s') : s'.Linked p pos := by
  obtain ⟨d, hf, ha⟩ := hl
  obtain ⟨d', hf', -, hp⟩ := hg.files hf
  refine ⟨d', hf', ?_⟩
  rw [hf.container] at hp
  rcases hp with hp | hp
  · rw [hp]
    exact hg.adopts h ha
  · exact hp

theorem Linked.holds (hl : s.Linked p pos) {n : NodeId} (hn : s.tree.occupant? pos = some n) :
    s.Holds p n := by
  obtain ⟨d, hf, -⟩ := hl
  exact hf.holds hn

theorem Reaches.linked {parent : Option PathId} (hr : s.Reaches K pos parent p s')
    (h : s.Sound K) (ha : s.Adopts pos.container parent) : s'.Linked p pos := by
  obtain ⟨d, hf, hp⟩ := hr.files
  exact ⟨d, hf, by rw [hp]; exact hr.grew.adopts h ha⟩

/-- A linked path has the one path that holds its owner as its parent. -/
theorem Linked.parent_eq (hl : s.Linked p pos) (h : s.Sound K) {d : PathData}
    (hd : s.paths[p.index]? = some d) {q : PathId} {n : NodeId} (hn : pos.parent? = some n)
    (hq : s.Holds q n) : d.parent = some q := by
  obtain ⟨e, hf, ha⟩ := hl
  obtain rfl : d = e := Option.some.inj (hd.symm.trans hf.data)
  unfold Adopts at ha
  rw [show pos.container.parent? = some n from hn] at ha
  obtain ⟨r, hr, hrn⟩ := ha
  rw [hr, h.holder_unique hrn hq]

end Linked

/-- What going to a position that may be empty, or be none of the tree, gives: a path that holds
what stands there. -/
structure Arrives (s : Session) (K : Set NodeId) (pos : Position) (p : PathId) (s' : Session) :
    Prop extends Went s K s' where
  known : ∃ d, s'.paths[p.index]? = some d ∧ d.node = s.tree.occupant? pos
  linked : ∀ m, s.tree.occupant? pos = some m → s'.Linked p pos

/-- What a list of paths at a list of positions means. -/
structure Lists (s : Session) (K : Set NodeId) (places : List Position) (ps : List PathId)
    (s' : Session) : Prop extends Went s K s' where
  linked : List.Forall₂ s'.Linked ps places

/-- What is related to a list element by element has a counterpart in it. -/
theorem exists_counterpart {α : Type} {R : PathId → α → Prop} {ps : List PathId} {l : List α}
    (h : List.Forall₂ R ps l) {q : PathId} (hq : q ∈ ps) : ∃ a ∈ l, R q a := by
  induction h with
  | nil => simp at hq
  | cons hp _ ih =>
    rcases List.mem_cons.mp hq with rfl | hq
    · exact ⟨_, by simp, hp⟩
    · obtain ⟨a, ha, hr⟩ := ih hq
      exact ⟨a, by simp [ha], hr⟩

theorem Lists.nil {s : Session} {K : Set NodeId} (h : s.Sound K) : s.Lists K [] [] s :=
  ⟨.refl h, .nil⟩

end Session

/-! ## The positions of a field -/

/-- The positions of a field that hold a node. -/
def Tree.spots (t : Tree) (n : NodeId) (f : Field) : List Position :=
  match t.field? n f with
  | some (.one _) | some (.opt (some _)) => [.slot n f]
  | some (.many ids) => (List.range ids.length).map (.item n f)
  | some (.opt none) | none => []

namespace PathId

variable {s : Session} {K : Set NodeId} {p : PathId} {n : NodeId}

theorem node?_run_of_holds (hp : s.Holds p n) : p.node? s = .ok (some n) s := by
  obtain ⟨d, hd, hn⟩ := hp
  rw [p.node?_run hd, hn]

/-- A node that was found at a path is held by it. -/
theorem holds_of_node? {s' : Session} (hrun : p.node? s = .ok (some n) s') :
    s' = s ∧ s.Holds p n := by
  cases hd : s.paths[p.index]? with
  | none =>
    have hnone : p.node? s = .error .dangling s := bind_of_error (p.data_unknown hd)
    rw [hnone] at hrun
    cases hrun
  | some d =>
    rw [p.node?_run hd] at hrun
    injection hrun with hn hs
    exact ⟨hs.symm, d, hd, hn⟩

theorem kind?_run_of_holds {k : NodeKind} (hp : s.Holds p n) (hk : s.tree.kind? n = some k) :
    p.kind? s = .ok (some k) s := by
  show (p.node? >>= _) s = _
  rw [bind_of_ok (node?_run_of_holds hp)]
  show ((ask fun t => t.kind? n) >>= _) s = _
  rw [bind_of_ok (ask_run hk)]
  rfl

theorem type?_run_of_holds {k : NodeKind} (hp : s.Holds p n) (hk : s.tree.kind? n = some k) :
    p.type? s = .ok (some k.type) s := by
  show (p.kind? >>= _) s = _
  rw [bind_of_ok (kind?_run_of_holds hp hk)]
  rfl

theorem isAny_run_of_holds {k : NodeKind} (hp : s.Holds p n) (hk : s.tree.kind? n = some k)
    (test : NodeType → Bool) : p.isAny test s = .ok (test k.type) s := by
  show (p.type? >>= _) s = _
  rw [bind_of_ok (type?_run_of_holds hp hk)]
  rfl

theorem kind?_run_of_empty {d : PathData} (hd : s.paths[p.index]? = some d) (hn : d.node = none) :
    p.kind? s = .ok none s := by
  show (p.node? >>= _) s = _
  rw [bind_of_ok (p.node?_run hd), hn]
  rfl

theorem type?_run_of_empty {d : PathData} (hd : s.paths[p.index]? = some d) (hn : d.node = none) :
    p.type? s = .ok none s := by
  show (p.kind? >>= _) s = _
  rw [bind_of_ok (kind?_run_of_empty hd hn)]
  rfl

/-- A single-node field leads to its position. -/
theorem child_returns (h : s.Sound K) (hp : s.Holds p n) {f : Field} {c : Child}
    (hc : s.tree.field? n f = some c) (hl : c.isList = false) :
    Returns (p.child f) s (s.Reaches K (.slot n f) (some p)) := by
  obtain ⟨k, hk⟩ := h.forest.kind n (h.mem_of_holds hp)
  have hck : k.child? f = some c := by simpa [Tree.field?, hk] using hc
  unfold child
  refine returns_bind_of_ok (node?_run_of_holds hp) ?_
  refine returns_bind_of_ok (ask_run hk) ?_
  have hgo : Returns (pathFor (some p) (.slot n) (.field f)) s
      (s.Reaches K (.slot n f) (some p)) :=
    pathFor_returns (.slot n f) h
      (Position.within_of_parent rfl (h.mem_of_holds hp)) ⟨p, rfl, hp⟩
  rw [hck]
  cases c with
  | one => exact hgo
  | opt => exact hgo
  | many => simp [Child.isList] at hl

/-- A field that holds no single node leads nowhere. -/
theorem child_strays (h : s.Sound K) (hp : s.Holds p n) {f : Field}
    (hc : ∀ c, s.tree.field? n f = some c → c.isList = true) :
    Returns (p.child f) s (s.Strays K) := by
  obtain ⟨k, hk⟩ := h.forest.kind n (h.mem_of_holds hp)
  have hck : ∀ c, k.child? f = some c → c.isList = true := by simpa [Tree.field?, hk] using hc
  unfold child
  refine returns_bind_of_ok (node?_run_of_holds hp) ?_
  refine returns_bind_of_ok (ask_run hk) ?_
  split
  · next heq => simpa [Child.isList] using hck _ heq
  · next heq => simpa [Child.isList] using hck _ heq
  · exact detachedPath_returns h (some p)

/-- Where a field holds at most one node, the path that it leads to holds that node. -/
theorem child_arrives (h : s.Sound K) (hp : s.Holds p n) (f : Field) :
    Returns (p.child f) s (s.Arrives K (.slot n f)) := by
  have hn : ∀ q, Position.parent? (.slot n f) = some q → q ∈ K := by
    intro q hq
    rw [← Option.some.inj hq]
    exact h.mem_of_holds hp
  by_cases hc : ∃ c, s.tree.field? n f = some c ∧ c.isList = false
  · obtain ⟨c, hc, hl⟩ := hc
    refine (child_returns h hp hc hl).mono fun q s' hq => ?_
    refine ⟨hq.toWent, ?_, fun _ _ => hq.linked h ⟨p, rfl, hp⟩⟩
    obtain ⟨d, hf, -⟩ := hq.files
    exact ⟨d, hf.data, by rw [hf.node, hq.grew.tree]⟩
  · push Not at hc
    have hno : s.tree.occupant? (.slot n f) = none := by
      simp only [Tree.occupant?, Option.bind_eq_none_iff]
      intro c hcf
      have hl := hc c hcf
      cases c <;> simp_all [Child.isList, Child.node?]
    have hlist : ∀ c, s.tree.field? n f = some c → c.isList = true := fun c hcf => by
      simpa using hc c hcf
    refine (child_strays h hp hlist).mono fun q s' hq => ?_
    obtain ⟨d, hd, hpl⟩ := hq.adrift
    simp only [PathData.place, Prod.mk.injEq] at hpl
    refine ⟨hq.toWent, ⟨d, hd, by rw [hno, hpl.1]⟩, fun m hm => ?_⟩
    rw [hno] at hm
    cases hm

/-- An index of a list field leads to its position. -/
theorem element_returns (h : s.Sound K) (hp : s.Holds p n) {f : Field} {ids : List NodeId}
    (hc : s.tree.field? n f = some (.many ids)) (i : Nat) :
    Returns (p.element f i) s (s.Reaches K (.item n f i) (some p)) := by
  obtain ⟨k, hk⟩ := h.forest.kind n (h.mem_of_holds hp)
  have hck : k.child? f = some (.many ids) := by simpa [Tree.field?, hk] using hc
  unfold element
  refine returns_bind_of_ok (node?_run_of_holds hp) ?_
  refine returns_bind_of_ok (ask_run hk) ?_
  rw [hck]
  exact pathFor_returns (.item n f i) h
    (Position.within_of_parent rfl (h.mem_of_holds hp)) ⟨p, rfl, hp⟩

/-- Indices of a list field lead to their positions. -/
theorem mapM_element_returns (h : s.Sound K) (hp : s.Holds p n) {f : Field} {ids : List NodeId}
    (hc : s.tree.field? n f = some (.many ids)) (indices : List Nat) :
    Returns (indices.mapM (p.element f)) s (s.Lists K (indices.map (.item n f))) := by
  induction indices generalizing s with
  | nil => exact .pure (.nil h)
  | cons i indices ih =>
    rw [List.mapM_cons]
    refine (element_returns h hp hc i).bind fun q s₁ hq => ?_
    have hc₁ : s₁.tree.field? n f = some (.many ids) := by rw [hq.grew.tree]; exact hc
    refine (ih hq.sound (hq.grew.holds h hp) hc₁).bind fun qs s₂ hqs => .pure ?_
    refine ⟨hq.toWent.trans hqs.toWent, ?_⟩
    exact .cons ((hq.linked h ⟨p, rfl, hp⟩).grew hq.sound hqs.grew) hqs.linked

theorem listLength_run {ids : List NodeId} {f : Field}
    (hc : s.tree.field? n f = some (.many ids)) : listLength n f s = .ok ids.length s := by
  simp only [Tree.field?, Option.bind_eq_some_iff] at hc
  obtain ⟨k, hk, hc⟩ := hc
  show ((ask fun t => t.kind? n) >>= _) s = _
  rw [bind_of_ok (ask_run hk)]
  simp [hc, Child.list?]

/-- All elements of a list field. -/
theorem elements_returns (h : s.Sound K) (hp : s.Holds p n) {f : Field} {ids : List NodeId}
    (hc : s.tree.field? n f = some (.many ids)) :
    Returns (p.elements f) s (s.Lists K ((List.range ids.length).map (.item n f))) := by
  unfold elements
  refine returns_bind_of_ok (node?_run_of_holds hp) ?_
  refine returns_bind_of_ok (listLength_run hc) ?_
  exact mapM_element_returns h hp hc _

/-- A field that holds no list has no elements. -/
theorem elements_nil (h : s.Sound K) (hp : s.Holds p n) {f : Field}
    (hc : s.tree.list? n f = none) : Returns (p.elements f) s (s.Lists K []) := by
  obtain ⟨k, hk⟩ := h.forest.kind n (h.mem_of_holds hp)
  unfold elements
  refine returns_bind_of_ok (node?_run_of_holds hp) ?_
  have hlen : listLength n f s = .ok 0 s := by
    show ((ask fun t => t.kind? n) >>= _) s = _
    rw [bind_of_ok (ask_run hk)]
    have : (k.child? f).bind Child.list? = none := by simpa [Tree.list?, Tree.field?, hk] using hc
    simp [this]
  refine returns_bind_of_ok hlen ?_
  exact .pure (.nil h)

/-- The positions of a field. -/
theorem inField_returns (h : s.Sound K) (hp : s.Holds p n) (f : Field) :
    Returns (p.inField f) s (s.Lists K (s.tree.spots n f)) := by
  obtain ⟨k, hk⟩ := h.forest.kind n (h.mem_of_holds hp)
  have hfield : s.tree.field? n f = k.child? f := by simp [Tree.field?, hk]
  have hone : ∀ c, k.child? f = some c → c.isList = false →
      Returns (do pure [← p.child f]) s (s.Lists K [.slot n f]) := by
    intro c hc hl
    refine (child_returns h hp (hfield.trans hc) hl).bind fun q s₁ hq => .pure ?_
    exact ⟨hq.toWent, .cons (hq.linked h ⟨p, rfl, hp⟩) .nil⟩
  unfold inField Tree.spots
  refine returns_bind_of_ok (kind?_run_of_holds hp hk) ?_
  rw [hfield]
  cases hc : k.child? f with
  | none =>
    simp only [hc]
    exact .pure (.nil h)
  | some c =>
    cases c with
    | one id =>
      simp only [hc]
      exact hone _ hc rfl
    | opt id? =>
      cases id? with
      | none =>
        simp only [hc]
        exact .pure (.nil h)
      | some id =>
        simp only [hc]
        exact hone _ hc rfl
    | many ids =>
      simp only [hc]
      exact elements_returns h hp (hfield.trans hc)

end PathId

end Espalier
