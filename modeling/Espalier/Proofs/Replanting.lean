import Espalier.Edit.Replace
import Espalier.Proofs.Placing

set_option autoImplicit false

/-! # Another node at one position

A loose node takes the place of the node at a path: in a list, in a single-node field, or at the
root. Where neither of the two is an expression in the place of a statement, the replacement
succeeds (`PathId.replaceWith_replaces`). The session stays in order, and what it knows about other
paths that hold nodes stays as it was, their parents apart (`Session.Replaced`). -/

namespace Espalier

open SessionM Session

/-! ## The tree -/

theorem Position.eq_root_of_parent {pos : Position} (h : pos.parent? = none) : pos = .root := by
  cases pos with
  | root => rfl
  | slot | item => cases h

/-- The kind without its children: its type and its own data. -/
def NodeKind.outline (k : NodeKind) : NodeKind :=
  k.mapFields ⟨fun _ _ => ⟨0⟩, fun _ _ => none, fun _ _ => []⟩

theorem NodeKind.outline_mapFields (k : NodeKind) (g : FieldMap) :
    (k.mapFields g).outline = k.outline := by
  cases k <;> rfl

theorem NodeKind.type_outline (k : NodeKind) : k.outline.type = k.type := k.type_mapFields _

namespace Tree

/-- The second tree has another node at one position, and differs in nothing else but comments. -/
structure Replanted (t : Tree) (pos : Position) (new : NodeId) (t' : Tree) : Prop where
  size : t'.size = t.size
  outline : ∀ n, (t'.kind? n).map NodeKind.outline = (t.kind? n).map NodeKind.outline
  /-- Lists stay lists, and keep their length. -/
  lists : ∀ n f, (t'.list? n f).map List.length = (t.list? n f).map List.length
  here : t'.occupant? pos = some new
  other : ∀ pos', pos' ≠ pos → t'.occupant? pos' = t.occupant? pos'

namespace Replanted

variable {t t' t'' : Tree} {pos : Position} {new n : NodeId} {K : Set NodeId}

theorem type (h : t.Replanted pos new t') (n : NodeId) :
    (t'.kind? n).map NodeKind.type = (t.kind? n).map NodeKind.type := by
  have h := congrArg (Option.map NodeKind.type) (h.outline n)
  simpa only [Option.map_map, Function.comp_def, NodeKind.type_outline] using h

theorem rearranged (h : t.Replanted pos new t') :
    t.Rearranged pos.parent? {pos} [new] t' where
  size := h.size
  owner pos' hpos := by rw [Set.mem_singleton_iff.mp hpos]
  other pos' hpos := h.other pos' fun heq => hpos heq
  inside pos' hpos m hm := by
    obtain rfl := Set.mem_singleton_iff.mp hpos
    exact .inl (List.mem_singleton.mpr (Option.some.inj (h.here.symm.trans hm)).symm)

theorem of_alike (h : t.Alike t') (h' : t'.Replanted pos new t'') : t.Replanted pos new t'' where
  size := h'.size.trans h.size
  outline n := by rw [h'.outline, h.kind]
  lists n f := by rw [h'.lists, h.list?]
  here := h'.here
  other pos' hpos := (h'.other pos' hpos).trans (h.occupant? pos')

/-- An element of a list makes room. -/
theorem list?_set {owner : NodeId} {f : Field} {ids : List NodeId} {i : Nat}
    (h : t.Replanted (.item owner f i) new t') (hids : t.list? owner f = some ids) :
    t'.list? owner f = some (ids.set i new) := by
  have hlength := h.lists owner f
  rw [hids, Option.map_some] at hlength
  obtain ⟨ids', hids', hlength⟩ := Option.map_eq_some_iff.mp hlength
  have hhere : ids'[i]? = some new := by simpa [occupant?, hids'] using h.here
  rw [hids']
  refine congrArg some (List.ext_getElem? fun j => ?_)
  by_cases hij : i = j
  · subst hij
    rw [hhere, List.getElem?_set_self (hlength ▸ (List.getElem?_eq_some_iff.mp hhere).1)]
  · have hother := h.other (.item owner f j) fun hpos => hij (by cases hpos; rfl)
    rw [List.getElem?_set_ne hij]
    simpa [occupant?, hids, hids'] using hother

section Forest

variable (h : t.Replanted pos new t') (hF : t.Forest K) (hloose : t.Loose K [new])
  (hw : pos.Within K)

include hw in
theorem within_singleton : ∀ pos' ∈ ({pos} : Set Position), pos'.Within K := by
  intro pos' hpos
  rwa [Set.mem_singleton_iff.mp hpos]

include h hF hloose hw in
theorem forest : t'.Forest (K ∪ t.below [new]) :=
  h.rearranged.forest hF hloose (within_singleton hw) fun _ h₁ _ h₂ _ _ _ =>
    (Set.mem_singleton_iff.mp h₁).trans (Set.mem_singleton_iff.mp h₂).symm

include h hF hloose hw in
/-- What could be reached before, and can be reached now, was a node of the forest. -/
theorem reachable_of_mem (hn : t'.Reachable n) (hK : n ∈ K) : t.Reachable n := by
  rcases h.rearranged.reachable_of_reachable hF hloose (within_singleton hw) hn with
    ⟨-, hreach⟩ | hb
  · exact hreach
  · exact absurd hK (hloose.apart n hb)

include h hF hloose hw in
/-- The node that gave way can be reached no more. -/
theorem not_reachable (hn : t.occupant? pos = some n) : ¬ t'.Reachable n := by
  refine h.rearranged.not_reachable_of_left hF hloose (within_singleton hw)
    (Set.mem_singleton pos) hn fun pos' hpos hn' => ?_
  obtain rfl := Set.mem_singleton_iff.mp hpos
  obtain rfl := Option.some.inj (h.here.symm.trans hn')
  exact hloose.not_mem (by simp) (hF.closed _ _ hw hn)

include h hF hw in
/-- The owner of the position stays where it is. -/
theorem reachable_owner {m : NodeId} (hm : pos.parent? = some m) (hreach : t.Reachable m) :
    t'.Reachable m := h.rearranged.reachable_owner hF (within_singleton hw) hm hreach

include h in
/-- What could be reached is still there unless it stands below the node that gave way. -/
theorem reachable_or_below (hn : t.Reachable n) :
    t'.Reachable n ∨ ∃ e, t.occupant? pos = some e ∧ Relation.ReflTransGen t.IsChild e n := by
  rcases h.rearranged.reachable_or_below hn with hreach | ⟨e, ⟨pos', hpos, he⟩, -, hbelow⟩
  · exact .inl hreach
  · obtain rfl := Set.mem_singleton_iff.mp hpos
    exact .inr ⟨e, he, hbelow⟩

end Forest

end Replanted

end Tree

/-! ## Writing to a position -/

namespace NodeKind

theorem child?_setNode (k : NodeKind) (f g : Field) (new : NodeId) :
    (k.setNode f new).child? g = (k.child? g).map ((putNode f new).apply g) := by
  rw [setNode, child?_mapFields]

theorem outline_setNode (k : NodeKind) (f : Field) (new : NodeId) :
    (k.setNode f new).outline = k.outline := k.outline_mapFields _

end NodeKind

namespace Tree

variable {t : Tree} {K : Set NodeId} {new : NodeId}

/-- The tree with a node in a single-node field. -/
theorem replanted_setNode {owner : NodeId} {f : Field} {k : NodeKind} {c : Child}
    (hk : t.kind? owner = some k) (hc : k.child? f = some c) (hsingle : c.list? = none) :
    t.Replanted (.slot owner f) new
      (t.modify owner fun node => { node with kind := node.kind.setNode f new }) := by
  have hkind : ∀ m, (t.modify owner fun node =>
      { node with kind := node.kind.setNode f new }).kind? m =
      if m = owner then (t.kind? m).map fun k => k.setNode f new else t.kind? m := by
    intro m
    simp only [kind?, node?_modify]
    by_cases hm : m = owner
    · simp only [hm, if_true, Option.map_map]
      rfl
    · simp only [hm, if_false]
  -- Other fields of the owner keep their content.
  have hfield : ∀ m g, ¬ (m = owner ∧ g = f) → ((t.modify owner fun node =>
      { node with kind := node.kind.setNode f new }).field? m g) = t.field? m g := by
    intro m g hmg
    simp only [field?, hkind]
    by_cases hm : m = owner
    · have hg : g ≠ f := fun hg => hmg ⟨hm, hg⟩
      rw [if_pos hm, hm, hk, Option.map_some, Option.bind_some, Option.bind_some,
        NodeKind.child?_setNode]
      cases k.child? g with
      | none => rfl
      | some c => cases c <;> simp [FieldMap.apply, NodeKind.putNode, hg]
    · rw [if_neg hm]
  -- A single-node field is no list.
  have hlists : ∀ m g, ((t.modify owner fun node =>
      { node with kind := node.kind.setNode f new }).list? m g) = t.list? m g := by
    intro m g
    by_cases hmg : m = owner ∧ g = f
    · obtain ⟨rfl, rfl⟩ := hmg
      simp only [list?, field?, hkind, if_true, hk, Option.map_some, Option.bind_some,
        NodeKind.child?_setNode, hc]
      cases c <;> simp_all [FieldMap.apply, Child.list?]
    · simp only [list?, hfield m g hmg]
  refine ⟨size_modify _ _ _, fun m => ?_, fun m g => by rw [hlists], ?_, fun pos hpos => ?_⟩
  · rw [hkind]
    by_cases hm : m = owner
    · rw [if_pos hm, hm, hk]
      simp [NodeKind.outline_setNode]
    · rw [if_neg hm]
  · simp only [occupant?, field?, hkind, if_true, hk, Option.map_some, Option.bind_some,
      NodeKind.child?_setNode, hc]
    cases c <;> simp_all [FieldMap.apply, NodeKind.putNode, Child.node?, Child.list?]
  · cases pos with
    | root => rfl
    | slot m g =>
      have hmg : ¬ (m = owner ∧ g = f) := fun h => hpos (by rw [h.1, h.2])
      simp only [occupant?, hfield m g hmg]
    | item m g i => simp only [occupant?, hlists m g]

theorem Relisted.replanted {t' : Tree} {owner : NodeId} {f : Field} {ids : List NodeId} {i : Nat}
    (h : t.Relisted owner f ids (ids.set i new) t') (hi : i < ids.length) :
    t.Replanted (.item owner f i) new t' where
  size := h.size
  outline m := by
    by_cases hm : m = owner
    · obtain ⟨k, hk, -, hk'⟩ := h.list
      rw [hm, hk, hk']
      exact congrArg some (k.outline_mapFields _)
    · rw [h.kind m hm]
  lists m g := by
    by_cases hmg : m = owner ∧ g = f
    · rw [hmg.1, hmg.2, h.list?, h.list?']
      simp
    · rw [h.list?_of_ne hmg]
  here := by rw [h.occupant?_item, List.getElem?_set_self hi]
  other pos hpos := by
    rcases Relisted.position_cases owner f pos with ⟨j, rfl⟩ | hne
    · have hij : i ≠ j := fun hij => hpos (by rw [hij])
      rw [h.occupant?_item, List.getElem?_set_ne hij]
      exact (by simp [Tree.occupant?, h.list?] : t.occupant? (.item owner f j) = ids[j]?).symm
    · exact h.occupant? hne

end Tree

/-! ## The paths -/

namespace Session

/-- A path was given another node, which stands at its position now. -/
structure Reseated (s : Session) (p : PathId) (pos : Position) (new : NodeId) (s' : Session) :
    Prop where
  tree : s.tree.Replanted pos new s'.tree
  rest : s' = { s with
    tree := s'.tree
    paths := s.paths.modify p.index fun d => { d with node := some new, inferred := none } }

namespace Reseated

variable {s s' : Session} {K : Set NodeId} {p q : PathId} {pos pos' : Position} {d e : PathData}
  {n new : NodeId}

theorem getElem?_paths (h : s.Reseated p pos new s') (q : PathId) : s'.paths[q.index]? =
    if q = p then s.paths[q.index]?.map fun d => { d with node := some new, inferred := none }
    else s.paths[q.index]? := by
  rw [h.rest]
  exact getElem?_modify_paths s.paths p q _

theorem bucket (h : s.Reseated p pos new s') (c : Container) : s'.bucket c = s.bucket c := by
  rw [h.rest]
  rfl

theorem detached (h : s.Reseated p pos new s') : s'.detached = s.detached := by rw [h.rest]

section Sound

variable (h : s.Reseated p pos new s') (hs : s.Sound K) (hf : s.Files p pos d)
  (hn : s.tree.occupant? pos = some n)

include h hf in
/-- The path is filed where it was, with the new node. -/
theorem files_self : s'.Files p pos { d with node := some new, inferred := none } where
  data := by rw [h.getElem?_paths, if_pos rfl, hf.data, Option.map_some]
  bucket := by rw [h.bucket]; exact hf.bucket
  container := hf.container
  key := hf.key
  live := hf.live
  node := h.tree.here.symm

include h hs hf hn in
theorem files_of_ne (hq : q ≠ p) (hfq : s.Files q pos' e) : s'.Files q pos' e := by
  have hpos : pos' ≠ pos := by
    rintro rfl
    exact hq (hs.unique q p _ e d hfq hf (by rw [hfq.node, hn]; simp))
  refine ⟨?_, ?_, hfq.container, hfq.key, hfq.live, ?_⟩
  · rw [h.getElem?_paths, if_neg hq, hfq.data]
  · rw [h.bucket]
    exact hfq.bucket
  · rw [h.tree.other pos' hpos]
    exact hfq.node

include h hs in
theorem files_before (hq : q ≠ p) (hfq : s'.Files q pos' e) : s.Files q pos' e := by
  have hdata := hfq.data
  rw [h.getElem?_paths, if_neg hq] at hdata
  have hb := hfq.bucket
  rw [h.bucket] at hb
  obtain ⟨pos₀, e₀, -, hw₀, hf₀⟩ := hs.filed _ q hb
  obtain rfl : e = e₀ := Option.some.inj (hdata.symm.trans hf₀.data)
  obtain rfl : pos' = pos₀ := Position.eq_of_container_key
    (hfq.container.symm.trans hf₀.container) (hfq.key.symm.trans hf₀.key)
  exact hf₀

include h in
theorem holds_of_ne (hq : q ≠ p) {m : NodeId} (hm : s.Holds q m) : s'.Holds q m := by
  obtain ⟨e, he, hem⟩ := hm
  exact ⟨e, by rw [h.getElem?_paths, if_neg hq, he], hem⟩

include h hf in
theorem holds_self : s'.Holds p new := ⟨_, (h.files_self hf).data, rfl⟩

include h hs hf hn in
/-- A session stays sound when a path is given a loose node. -/
theorem sound (hw : pos.Within K) (hloose : s.tree.Loose K [new]) :
    s'.Sound (K ∪ s.tree.below [new]) := by
  have hnew : new ∉ K := hloose.not_mem (by simp)
  have hpn : s.Holds p n := hf.holds hn
  refine ⟨h.tree.forest hs.forest hloose hw, fun c q hq => ?_, fun c => ?_,
    fun q r pos' e e' hq hr hne => ?_, fun q e he hne => ?_, fun r q hq => ?_,
    fun q pos' e hfq hw' => ?_⟩
  · rw [h.bucket] at hq
    obtain ⟨pos', e, hc, hw', hfq⟩ := hs.filed c q hq
    have hwide : pos'.Within (K ∪ s.tree.below [new]) :=
      Position.within_mono Set.subset_union_left hw'
    by_cases hqp : q = p
    · subst hqp
      obtain ⟨rfl, rfl⟩ := hfq.position_unique hf
      exact ⟨_, _, hc, hwide, h.files_self hf⟩
    · exact ⟨pos', e, hc, hwide, h.files_of_ne hs hf hn hqp hfq⟩
  · rw [h.bucket]
    exact hs.nodup c
  · -- No other path was filed at the position.
    have hself : ∀ {q e}, s'.Files q pos e → q = p := by
      intro q e hq
      by_contra hqp
      have hq' := h.files_before hs hqp hq
      exact hqp (hs.unique q p pos e d hq' hf (by rw [hq'.node, hn]; simp))
    by_cases hqp : q = p
    · subst hqp
      obtain ⟨rfl, -⟩ := hq.position_unique (h.files_self hf)
      exact (hself hr).symm
    · by_cases hrp : r = p
      · subst hrp
        obtain ⟨rfl, -⟩ := hr.position_unique (h.files_self hf)
        exact hself hq
      · exact hs.unique q r pos' e e' (h.files_before hs hqp hq) (h.files_before hs hrp hr) hne
  · rw [h.bucket]
    by_cases hqp : q = p
    · subst hqp
      obtain rfl := Option.some.inj (he.symm.trans (h.files_self hf).data)
      rw [(h.files_self hf).container]
      exact hf.bucket
    · rw [h.getElem?_paths, if_neg hqp] at he
      exact hs.held q e he hne
  · rw [h.detached] at hq
    obtain ⟨e, he, hpl⟩ := hs.adrift r q hq
    have hqp : q ≠ p := by
      rintro rfl
      obtain rfl := Option.some.inj (he.symm.trans hf.data)
      simp only [PathData.place, Prod.mk.injEq] at hpl
      exact pos.container_ne_detached (hf.container.symm.trans hpl.2.1)
    exact ⟨e, by rw [h.getElem?_paths, if_neg hqp, he], hpl⟩
  · -- The owner of a position that can be reached is not the node that gave way.
    have hadopts : s.Adopts pos'.container e.parent := by
      have hwithin : ∀ pos'' : Position, pos''.Within K → pos''.Within s'.tree.reachable →
          pos''.Within s.tree.reachable := fun _ hK hr m hm =>
        h.tree.reachable_of_mem hs.forest hloose hw (hr m hm) (hK m hm)
      by_cases hqp : q = p
      · subst hqp
        obtain ⟨rfl, rfl⟩ := hfq.position_unique (h.files_self hf)
        exact hs.linked q pos' d hf (hwithin pos' hw hw')
      · have hfq' := h.files_before hs hqp hfq
        obtain ⟨pos₀, e₀, -, hw₀, hf₀⟩ := hs.filed _ q hfq'.bucket
        obtain ⟨rfl, rfl⟩ := hfq'.position_unique hf₀
        exact hs.linked q pos' e hfq' (hwithin pos' hw₀ hw')
    unfold Adopts at hadopts ⊢
    cases hc : pos'.container.parent? with
    | none => simpa [hc] using hadopts
    | some m =>
      rw [hc] at hadopts
      obtain ⟨r, hr, hrm⟩ := hadopts
      refine ⟨r, hr, h.holds_of_ne ?_ hrm⟩
      rintro rfl
      obtain rfl := hpn.unique_node hrm
      exact h.tree.not_reachable hs.forest hloose hw hn (hw' n hc)

include h hs hf hn in
theorem rooted (hordered : s.scopes.Ordered) (hr : s.tree.Rooted) (hw : pos.Within K)
    (hloose : s.tree.Loose K [new])
    (hroot : pos = .root → (s.tree.kind? new).map NodeKind.type = some .program) :
    s'.Rooted (K ∪ s.tree.below [new]) := by
  refine ⟨h.sound hs hf hn hw hloose, by rw [h.rest]; exact hordered, ?_⟩
  by_cases hpos : pos = .root
  · have hhere := h.tree.here
    subst hpos
    exact ⟨new, hhere, by rw [← Tree.map_type_kind?, h.tree.type, hroot rfl]⟩
  · exact hr.of_root (h.tree.other .root (Ne.symm hpos)) fun r _ => h.tree.type r

end Sound

end Reseated

end Session

/-- The position in a container at a key, if they fit. -/
def Container.position? : Container → Key → Option Position
  | .root, _ => some .root
  | .slot owner, .field f => some (.slot owner f)
  | .list owner f, .index i => some (.item owner f i)
  | _, _ => none

/-- The position that a path lives at. -/
def PathData.position? (d : PathData) : Option Position := d.container.position? d.key

theorem Session.Files.position? {s : Session} {p : PathId} {pos : Position} {d : PathData}
    (h : s.Files p pos d) : d.position? = some pos := by
  unfold PathData.position?
  rw [h.container, h.key]
  cases pos <;> rfl

theorem Container.position?_container {c : Container} {k : Key} {pos : Position}
    (h : c.position? k = some pos) : pos.container = c := by
  unfold Container.position? at h
  split at h <;> cases h <;> rfl

/-- Beside the root, only the kind of the node that owns the position may differ. -/
def Tree.WrittenAt (t : Tree) (pos : Position) (t' : Tree) : Prop :=
  ∃ g : NodeKind → NodeKind, ∀ m, t'.node? m =
    if pos.parent? = some m then (t.node? m).map fun node => { node with kind := g node.kind }
    else t.node? m

theorem Tree.writtenAt_modify (t : Tree) {pos : Position} {owner : NodeId}
    (hpos : pos.parent? = some owner) (g : NodeKind → NodeKind) :
    t.WrittenAt pos (t.modify owner fun node => { node with kind := g node.kind }) := by
  refine ⟨g, fun m => ?_⟩
  rw [Tree.node?_modify, hpos]
  by_cases hm : m = owner
  · rw [if_pos hm, if_pos (by rw [hm])]
  · rw [if_neg hm, if_neg fun h => hm (Option.some.inj h).symm]

section SetNode

variable {s : Session} {p : PathId} {d : PathData} (hd : s.paths[p.index]? = some d)

include hd

/-- Writing to the position of a path either writes there, or fails and changes nothing, as the
position is none or empty. -/
theorem PathId.setNode_cases (new : NodeId) :
    (∃ pos s', d.position? = some pos ∧ p.setNode new s = .ok () s' ∧ s.Reseated p pos new s' ∧
      s.tree.WrittenAt pos s'.tree) ∨
    ∃ e, p.setNode new s = .error e s ∧
      ∀ pos n, d.position? = some pos → s.tree.occupant? pos ≠ some n := by
  have hwritten : ∀ {t : Tree}, (p.modifyData fun d => { d with node := some new, inferred := none })
      { s with tree := t } = .ok () { s with
        tree := t
        paths := s.paths.modify p.index fun d => { d with node := some new, inferred := none } } :=
    fun {t} => p.modifyData_run (s := { s with tree := t }) hd _
  unfold PathId.setNode PathData.position?
  rw [bind_of_ok (p.data_run hd)]
  cases hc : d.container with
  | root =>
    refine .inl ⟨.root, _, rfl, hwritten (t := { s.tree with root := some new }),
      ⟨⟨rfl, fun _ => rfl, fun _ _ => rfl, rfl, fun pos' hpos => ?_⟩, rfl⟩, id, fun m => ?_⟩
    · cases pos' with
      | root => exact absurd rfl hpos
      | slot | item => rfl
    · rfl
  | detached => exact .inr ⟨_, rfl, fun _ _ h => by cases h⟩
  | slot owner =>
    cases hkey : d.key with
    | root | index i => exact .inr ⟨_, rfl, fun _ _ h => by cases h⟩
    | field f =>
      show (∃ pos s', _ ∧ ((ask fun t => t.kind? owner) >>= _) s = _ ∧ _) ∨
        ∃ e, ((ask fun t => t.kind? owner) >>= _) s = _ ∧ _
      have hempty : s.tree.field? owner f = none → ∀ pos n, some (.slot owner f) = some pos →
          s.tree.occupant? pos ≠ some n := by
        rintro hnone _ n ⟨⟩
        simp [Tree.occupant?, hnone]
      cases hk : s.tree.kind? owner with
      | none =>
        rw [bind_of_error (ask_dangling hk)]
        exact .inr ⟨_, rfl, hempty (by simp [Tree.field?, hk])⟩
      | some k =>
        rw [bind_of_ok (ask_run hk)]
        have hfield : s.tree.field? owner f = k.child? f := by simp [Tree.field?, hk]
        cases hc : k.child? f with
        | none => exact .inr ⟨_, rfl, hempty (hfield.trans hc)⟩
        | some c =>
          have hwrite : c.list? = none →
              ∃ pos s', some (.slot owner f) = some pos ∧
              (modifyKind owner (fun k => k.setNode f new) >>= fun _ => p.modifyData fun d =>
                { d with node := some new, inferred := none }) s = .ok () s' ∧
              s.Reseated p pos new s' ∧ s.tree.WrittenAt pos s'.tree := by
            intro hsingle
            exact ⟨.slot owner f, _, rfl, (bind_of_ok (modifyKind_run hk _)).trans hwritten,
              ⟨Tree.replanted_setNode hk hc hsingle, rfl⟩, s.tree.writtenAt_modify rfl _⟩
          cases c with
          | many ids =>
            refine .inr ⟨_, rfl, ?_⟩
            rintro _ n ⟨⟩
            simp [Tree.occupant?, hfield, hc, Child.node?]
          | one id => exact .inl (hwrite rfl)
          | opt o => exact .inl (hwrite rfl)
  | list owner f =>
    cases hkey : d.key with
    | root | field g => exact .inr ⟨_, rfl, fun _ _ h => by cases h⟩
    | index i =>
      show (∃ pos s', _ ∧ ((ask fun t => t.kind? owner) >>= _) s = _ ∧ _) ∨
        ∃ e, ((ask fun t => t.kind? owner) >>= _) s = _ ∧ _
      have hempty : (s.tree.list? owner f).bind (fun ids => ids[i]?) = none →
          ∀ pos n, some (.item owner f i) = some pos → s.tree.occupant? pos ≠ some n := by
        rintro hnone _ n ⟨⟩
        simp [Tree.occupant?, hnone]
      cases hk : s.tree.kind? owner with
      | none =>
        rw [bind_of_error (ask_dangling hk)]
        exact .inr ⟨_, rfl, hempty (by simp [Tree.list?, Tree.field?, hk])⟩
      | some k =>
        rw [bind_of_ok (ask_run hk)]
        have hlist : s.tree.list? owner f = (k.child? f).bind Child.list? := by
          simp [Tree.list?, Tree.field?, hk]
        cases hc : k.child? f with
        | none => exact .inr ⟨_, rfl, hempty (by simp [hlist, hc])⟩
        | some c =>
          cases c with
          | one | opt => exact .inr ⟨_, rfl, hempty (by simp [hlist, hc, Child.list?])⟩
          | many ids =>
            dsimp only
            split
            · next hi =>
              exact .inl ⟨.item owner f i, _, rfl, (bind_of_ok (modifyKind_run hk _)).trans hwritten,
                ⟨(relisted_withList hk hc _).replanted hi, rfl⟩, s.tree.writtenAt_modify rfl _⟩
            · next hi =>
              refine .inr ⟨_, rfl, hempty ?_⟩
              simp only [hlist, hc, Option.bind_some, Child.list?]
              exact List.getElem?_eq_none (Nat.le_of_not_lt hi)

end SetNode

namespace Session

/-- Writing a node to the position of a path. -/
theorem Files.setNode_reseats {s : Session} {p : PathId} {pos : Position} {d : PathData}
    {n : NodeId} (hf : s.Files p pos d) (hn : s.tree.occupant? pos = some n) (new : NodeId) :
    ∃ s', p.setNode new s = .ok () s' ∧ s.Reseated p pos new s' := by
  rcases p.setNode_cases hf.data new with ⟨pos', s', hpos, hrun, hseat, -⟩ | ⟨-, -, hnone⟩
  · obtain rfl := Option.some.inj (hpos.symm.trans hf.position?)
    exact ⟨s', hrun, hseat⟩
  · exact absurd hn (hnone pos n hf.position?)

end Session

/-! ## Replacement -/

/-- Can a node of the second type take the place of one of the first as it is? Statements and
expressions are converted into each other, and a program only gives way to a program. -/
def NodeType.Suits (old new : NodeType) : Prop :=
  (old = .program → new = .program) ∧
    ¬ (old.isExpression && new.isStatement) = true ∧ ¬ (old.isStatement && new.isExpression) = true

/-- The frames after the path was put into the queue of the frame that visited it. -/
def PathData.queued (d : PathData) (p : PathId) (frames : List Frame) : List Frame :=
  match d.removed, d.frame with
  | false, some frame => PathId.requeue.enqueue p frame frames
  | _, _ => frames

/-- Visiting a path once more only changes what is queued. -/
theorem PathId.requeue_run {s : Session} {p : PathId} {d : PathData}
    (hd : s.paths[p.index]? = some d) :
    p.requeue s = .ok () { s with frames := d.queued p s.frames } := by
  unfold PathId.requeue PathData.queued
  rw [bind_of_ok (p.data_run hd)]
  rcases d.removed with _ | _
  · rcases d.frame with _ | frame <;> rfl
  · rfl

namespace Session

/-- A loose node took the place of the node at the path, which stands at the given position. -/
structure Replaced (s : Session) (K : Set NodeId) (p : PathId) (pos : Position) (new : NodeId)
    (s' : Session) : Prop where
  rooted : s'.Rooted (K ∪ s.tree.below [new])
  tree : s.tree.Replanted pos new s'.tree
  own : ∀ d, s.paths[p.index]? = some d → ∃ parent,
    s'.paths[p.index]? = some { d with node := some new, inferred := none, parent }
  /-- Of other paths that have a position nothing changes but the parent. -/
  known : ∀ (q : PathId) d, q ≠ p → s.paths[q.index]? = some d → d.container ≠ .detached →
    ∃ parent, s'.paths[q.index]? = some { d with parent }
  frames : ∀ d, s.paths[p.index]? = some d → s'.frames = d.queued p s.frames
  /-- A node that declares nothing leaves the scopes as they are. -/
  scopes : (∀ k, s.tree.kind? new = some k → k.type.isDeclaration = false) → s'.scopes = s.scopes
  rest : s'.config = s.config ∧ s'.nextFrame = s.nextFrame ∧ s'.stopping = s.stopping

namespace Replaced

variable {s s' : Session} {K : Set NodeId} {p q : PathId} {pos : Position} {n new : NodeId}

theorem holds_self (h : s.Replaced K p pos new s') (hp : s.Holds p n) : s'.Holds p new := by
  obtain ⟨d, hd, -⟩ := hp
  obtain ⟨parent, hd'⟩ := h.own d hd
  exact ⟨_, hd', rfl⟩

theorem holds_of_ne (h : s.Replaced K p pos new s') (hs : s.Sound K) (hqp : q ≠ p)
    (hq : s.Holds q n) : s'.Holds q n := by
  obtain ⟨pos', d, -, hf, hocc⟩ := hs.files_of_holds hq
  obtain ⟨parent, hd⟩ :=
    h.known q d hqp hf.data (hf.container ▸ pos'.container_ne_detached)
  exact ⟨_, hd, hf.node.trans hocc⟩

theorem gone (h : s.Replaced K p pos new s') (hs : s.Sound K) (hp : s.Holds p n)
    (hq : s.Gone q) : s'.Gone q := by
  obtain ⟨d, hd, hremoved, hc⟩ := hq
  have hqp : q ≠ p := by
    rintro rfl
    obtain ⟨pos', e, -, hf, -⟩ := hs.files_of_holds hp
    obtain rfl := Option.some.inj (hd.symm.trans hf.data)
    exact absurd hf.live (by simp [hremoved])
  obtain ⟨parent, hd'⟩ := h.known q d hqp hd hc
  exact ⟨_, hd', hremoved, hc⟩

theorem orderly (h : s.Replaced K p pos new s') (hs : s.Orderly K) :
    s'.Orderly (K ∪ s.tree.below [new]) :=
  h.rooted.orderly (by rw [h.tree.size]; exact hs.program.small)

end Replaced

end Session

section Replace

variable {s : Session} {K : Set NodeId} {p : PathId} {n new : NodeId}

/-- A loose node that comes to stand in the place of another one. -/
theorem PathId.putNode_replaces (h : s.Rooted K) (hp : s.Holds p n) (hn : s.tree.Reachable n)
    (hloose : s.tree.Loose K [new]) (hroot : s.tree.root = some n →
      (s.tree.kind? new).map NodeKind.type = some .program) :
    Returns (p.putNode (some n) new) s fun _ s' =>
      ∃ pos, s.tree.occupant? pos = some n ∧ s.Linked p pos ∧ s.Replaced K p pos new s' := by
  obtain ⟨pos, hw, hl, hocc⟩ := h.sound.linked_of_reachable hp hn
  obtain ⟨d, hf, -⟩ := id hl
  have hwK : pos.Within K :=
    Position.within_mono (fun m hm => h.sound.forest.mem_of_reachable hm) hw
  have hkind := h.sound.forest.kind n (h.sound.mem_of_holds hp)
  obtain ⟨knew, hknew⟩ := (s.tree.contains_iff new).mp
    (hloose.allocated new (s.tree.mem_below (by simp)))
  unfold PathId.putNode
  obtain ⟨t₁, hrun₁, ha₁⟩ := onTree_decorates (s := s)
    (TreeM.decorates_inheritComments ⟨knew, hknew⟩ hkind)
  have hkind₁ : ∃ k, t₁.kind? n = some k := by rw [ha₁.kind]; exact hkind
  obtain ⟨t₂, hrun₂, ha₂⟩ := onTree_decorates (s := { s with tree := t₁ })
    (TreeM.decorates_removeComments hkind₁)
  refine returns_bind_of_ok hrun₁ (returns_bind_of_ok hrun₂ ?_)
  have ht := ha₁.trans ha₂
  have ha : s.Alike { s with tree := t₂ } := alike_of_tree ht
  have h₂ : Rooted { s with tree := t₂ } K := h.alike ha rfl h.ordered
  obtain ⟨d₂, hf₂, hpl⟩ := ha.files hf
  obtain rfl : d = d₂ := Option.some.inj (hf.data.symm.trans hf₂.data)
  have hocc₂ : t₂.occupant? pos = some n := (ht.occupant? pos).trans hocc
  have hloose₂ : t₂.Loose K [new] := ht.loose hloose
  obtain ⟨s₃, hrun₃, hseat⟩ := hf₂.setNode_reseats hocc₂ new
  refine returns_bind_of_ok hrun₃ ?_
  have h₃ : s₃.Rooted (K ∪ s.tree.below [new]) := by
    rw [← ht.below]
    refine hseat.rooted h₂.sound hf₂ hocc₂ h₂.ordered h₂.root hwK hloose₂ fun hpos => ?_
    rw [show Tree.kind? _ new = s.tree.kind? new from ht.kind new]
    subst hpos
    exact hroot hocc
  have hself := hseat.files_self hf₂
  -- The rest does not move any path: the change is counted, a declaration is registered, and the
  -- path is queued.
  have hcounted : s₃.Alike { s₃ with mutations := s₃.mutations + 1 } :=
    ⟨.refl _, rfl, rfl, fun _ => rfl⟩
  have hmutated := h₃.alike hcounted rfl h₃.ordered
  refine returns_bind_of_ok (show recordMutation s₃ = .ok () _ from rfl) ?_
  have hrequeue : ∀ s₄, Surveys { s₃ with mutations := s₃.mutations + 1 }
      (K ∪ s.tree.below [new]) s₄ → (knew.type.isDeclaration = false → s₄.scopes = s₃.scopes) →
      Returns p.requeue s₄ fun _ s' =>
        ∃ pos, s.tree.occupant? pos = some n ∧ s.Linked p pos ∧ s.Replaced K p pos new s' := by
    intro s₄ h₄ hscopes
    have hkept : ∀ (q : PathId) e, s₃.paths[q.index]? = some e → e.container ≠ .detached →
        ∃ parent, s₄.paths[q.index]? = some { e with parent } := by
      intro q e he hc
      obtain ⟨e', he', hk⟩ := h₄.grew.kept q e he
      exact ⟨e'.parent, by rw [← (hk.2 hc).1, he']⟩
    obtain ⟨parent, hparent⟩ := hkept p _ hself.data
      (by rw [hself.container]; exact pos.container_ne_detached)
    have htree₄ : s₄.tree = s₃.tree := h₄.tree
    have hrest₄ := h₄.grew.rest
    refine ⟨(), _, PathId.requeue_run hparent, pos, hocc, hl, ?_, ?_, fun e he => ?_,
      fun q e hqp he hc => hkept q e ?_ hc, fun e he => ?_, fun hplain => ?_, ?_⟩
    · exact (hmutated.surveys h₄).alike ⟨.refl _, rfl, rfl, fun _ => rfl⟩ rfl h₄.ordered
    · refine .of_alike ht ?_
      show t₂.Replanted pos new s₄.tree
      rw [htree₄]
      exact hseat.tree
    · obtain rfl := Option.some.inj (hf.data.symm.trans he)
      exact ⟨parent, hparent⟩
    · rw [hseat.getElem?_paths, if_neg hqp]
      exact he
    · obtain rfl := Option.some.inj (hf.data.symm.trans he)
      show PathData.queued { d with node := some new, inferred := none, parent } p s₄.frames = _
      rw [hrest₄, hseat.rest]
      rfl
    · refine (hscopes (hplain knew hknew)).trans ?_
      rw [hseat.rest]
    · rw [hrest₄, hseat.rest]
      exact ⟨rfl, rfl, rfl⟩
  refine returns_bind_of_ok (show scopesCrawled _ = .ok _ _ from rfl) ?_
  have hrefl := Surveys.refl hmutated.sound hmutated.ordered
  split
  · next hcrawled =>
    have htype := hseat.tree.type new
    rw [show Tree.kind? t₂ new = s.tree.kind? new from ht.kind new, hknew] at htype
    obtain ⟨knew', hknew', hsame⟩ := Option.map_eq_some_iff.mp htype
    refine returns_bind_of_ok (ask_run (Tree.type?_of_kind hknew')) ?_
    split
    · next hdeclares =>
      -- The new node stands at a position whose owner stays where it is.
      have hreach : s₃.tree.Reachable new := by
        cases hpos : pos.parent? with
        | none =>
          obtain rfl := Position.eq_root_of_parent hpos
          exact .root hseat.tree.here
        | some m =>
          have hm : t₂.Reachable m := by
            show m ∈ t₂.reachable
            rw [ht.reachable]
            exact hw m hpos
          exact .child (hseat.tree.reachable_owner h₂.sound.forest hwK hpos hm)
            ⟨pos, hpos, hseat.tree.here⟩
      refine (registerDeclaration_returns hmutated.sound hmutated.ordered hmutated.root hcrawled
        (hseat.holds_self hf₂) hreach).bind fun _ s₄ h₄ => hrequeue s₄ h₄ fun hplain => ?_
      rw [hsame, hplain] at hdeclares
      cases hdeclares
    · exact hrequeue _ hrefl fun _ => rfl
  · exact hrequeue _ hrefl fun _ => rfl

/-- A node that suits the place of another one is put there as it is. -/
theorem PathId.replaceWithin_run (hs : s.Sound K) (hp : s.Holds p n) (hn : s.tree.Reachable n)
    (hne : n ≠ new) {k knew : NodeKind} (hk : s.tree.kind? n = some k)
    (hknew : s.tree.kind? new = some knew) (hsuits : k.type.Suits knew.type) (fuel : Nat) :
    PathId.replaceWithin (fuel + 1) p new s = p.putNode (some n) new s := by
  obtain ⟨pos, hw, hl, hocc⟩ := hs.linked_of_reachable hp hn
  obtain ⟨d, hf, -⟩ := id hl
  have hwK : pos.Within K := Position.within_mono (fun m hm => hs.forest.mem_of_reachable hm) hw
  have hremoved : p.isRemoved s = .ok false s := by rw [p.isRemoved_run hf.data, hf.live]
  obtain ⟨hprogram, hstatement, hexpression⟩ := hsuits
  unfold PathId.replaceWithin PathId.replaceUsing
  refine (bind_of_ok hremoved).trans ?_
  refine (bind_of_ok (PathId.resync_run hs hwK hl hocc)).trans ?_
  refine (bind_of_ok hremoved).trans ?_
  refine (bind_of_ok (PathId.node?_run_of_holds hp)).trans ?_
  rw [if_neg (fun heq => hne (Option.some.inj heq))]
  refine (bind_of_ok (ask_run (Tree.type?_of_kind hknew))).trans ?_
  refine (bind_of_ok (PathId.type?_run_of_holds hp hk)).trans ?_
  dsimp only
  rw [if_neg (fun hc => hc.2 (hprogram hc.1))]
  have hparent := PathId.parentType?_run hs hwK hl
  obtain ⟨head, hhead⟩ : ∃ b, p.isForHead s = .ok b s := by
    unfold PathId.isForHead
    rw [bind_of_ok (p.data_run hf.data)]
    split
    · exact ⟨_, bind_of_ok hparent⟩
    · exact ⟨_, bind_of_ok hparent⟩
    · exact ⟨false, rfl⟩
  obtain ⟨swap, hswap⟩ : ∃ b, p.canSwapBody new s = .ok b s := by
    unfold PathId.canSwapBody
    rw [bind_of_ok (p.data_run hf.data)]
    split
    · exact ⟨false, rfl⟩
    · rw [bind_of_ok hparent]
      split
      · exact ⟨false, rfl⟩
      · rw [bind_of_ok (ask_run (Tree.type?_of_kind hknew)),
          bind_of_ok (PathId.type?_run_of_holds hp hk)]
        generalize k.type = type
        cases type <;> exact ⟨_, rfl⟩
  refine (bind_of_ok hhead).trans ?_
  have hput : ∀ flexible : Bool, (do
      if k.type.isExpression && knew.type.isStatement && !flexible then
        let _ ← replaceByStatementsUsing (PathId.replaceWithin fuel) p [new]
      else if k.type.isStatement && knew.type.isExpression && !flexible
          && (← p.parentType?) != some NodeType.exportDefaultDeclaration then
        p.putNode (some n) (← onTree (TreeM.alloc (.expressionStatement new)))
      else p.putNode (some n) new) s = p.putNode (some n) new s := by
    intro flexible
    have hno : ∀ {a b c : Bool}, ¬ (a && b) = true → ¬ (a && b && c) = true := by
      intro a b c hab habc
      exact hab (Bool.and_eq_true_iff.mp habc).1
    rw [if_neg (hno hstatement)]
    refine (bind_of_ok hparent).trans ?_
    rw [if_neg fun hc => hno hexpression (Bool.and_eq_true_iff.mp hc).1]
  cases head with
  | true => exact hput true
  | false => exact (bind_of_ok hswap).trans (hput swap)

/-- Replacing the node at a path by a loose one that suits its place. -/
theorem PathId.replaceWith_replaces (h : s.Rooted K) (hp : s.Holds p n)
    (hn : s.tree.Reachable n) (hloose : s.tree.Loose K [new]) {k knew : NodeKind}
    (hk : s.tree.kind? n = some k) (hknew : s.tree.kind? new = some knew)
    (hsuits : k.type.Suits knew.type) :
    Returns (p.replaceWith (.node new)) s fun _ s' =>
      ∃ pos, s.tree.occupant? pos = some n ∧ s.Linked p pos ∧ s.Replaced K p pos new s' := by
  have hne : n ≠ new := fun heq => hloose.not_mem (by simp) (heq ▸ h.sound.mem_of_holds hp)
  show Returns (p.replaceNode new) s _
  unfold PathId.replaceNode
  refine returns_bind_of_ok (show replaceFuel s = .ok (s.tree.depthBound + 7 + 1) s from rfl) ?_
  rw [Returns, PathId.replaceWithin_run h.sound hp hn hne hk hknew hsuits]
  refine PathId.putNode_replaces h hp hn hloose fun hroot => ?_
  obtain ⟨k', hk', hkt⟩ := h.root.kind_root hroot
  obtain rfl := Option.some.inj (hk.symm.trans hk')
  rw [hknew, Option.map_some, hsuits.1 hkt]

end Replace

end Espalier
