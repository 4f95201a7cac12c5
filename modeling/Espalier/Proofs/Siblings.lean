import Espalier.Proofs.Sequencing

set_option autoImplicit false

/-! # Siblings

The paths of a list are its elements from left to right. From one of them the earlier ones, nearest
first, and the later ones are found; together they are the list, path for path, in whatever order
and how often one asks, and wherever one goes in between (`siblings_partition`). What a question
gives are the paths that are filed at certain indices (`ListQuestion.Tells`), and at an index with a
node there is only one path, which navigation does not move. -/

namespace Espalier

open SessionM Session

/-! ## The longest list -/

section LongestList

private theorem le_foldl_max {α : Type} (g : α → Nat) (l : List α) (start : Nat) :
    start ≤ l.foldl (fun n a => max n (g a)) start ∧
      ∀ a ∈ l, g a ≤ l.foldl (fun n a => max n (g a)) start := by
  induction l generalizing start with
  | nil => exact ⟨Nat.le_refl _, nofun⟩
  | cons b l ih =>
    obtain ⟨hstart, hmem⟩ := ih (max start (g b))
    refine ⟨Nat.le_trans (Nat.le_max_left _ _) hstart, fun a ha => ?_⟩
    rcases List.mem_cons.mp ha with rfl | ha
    · exact Nat.le_trans (Nat.le_max_right _ _) hstart
    · exact hmem a ha

/-- The length of the longest list in a field of a node, or a number if that is larger. -/
private def longestIn (start : Nat) (node : Node) : Nat :=
  node.kind.fields.foldl (fun n e => max n e.2.ids.length) start

private theorem le_foldl_longestIn (nodes : List Node) (start : Nat) :
    start ≤ nodes.foldl longestIn start ∧
      ∀ node ∈ nodes, ∀ e ∈ node.kind.fields, e.2.ids.length ≤ nodes.foldl longestIn start := by
  induction nodes generalizing start with
  | nil => exact ⟨Nat.le_refl _, nofun⟩
  | cons first nodes ih =>
    obtain ⟨hstart, hmem⟩ := ih (longestIn start first)
    obtain ⟨hfirst, hfields⟩ := le_foldl_max (fun e : Field × Child => e.2.ids.length)
      first.kind.fields start
    refine ⟨Nat.le_trans hfirst hstart, fun node hnode e he => ?_⟩
    rcases List.mem_cons.mp hnode with rfl | hnode
    · exact Nat.le_trans (hfields e he) hstart
    · exact hmem node hnode e he

/-- No list of a tree is longer than the longest one. -/
theorem Tree.length_le_longestList {t : Tree} {n : NodeId} {f : Field} {ids : List NodeId}
    (h : t.list? n f = some ids) : ids.length ≤ t.longestList := by
  obtain ⟨k, hk, hc⟩ := Option.bind_eq_some_iff.mp (Tree.list?_eq_some_iff.mp h)
  obtain ⟨node, hnode, rfl⟩ := Option.map_eq_some_iff.mp hk
  have hmem := (node.kind.child?_eq_some_iff f _).mp hc
  have hall := (le_foldl_longestIn t.nodes.toList 0).2 node
    (Array.mem_toList_iff.mpr (Array.mem_of_getElem? hnode)) _ hmem
  unfold Tree.longestList
  rw [← Array.foldl_toList]
  exact hall

end LongestList

/-! ## A path in a list -/

variable {s s' : Session} {K : Set NodeId} {p q : PathId} {n : NodeId} {f : Field}
  {ids : List NodeId} {i : Nat}

namespace Session

/-- In the list of a node, held by the path `q`, the path `p` is linked to an element. -/
structure Member (s : Session) (K : Set NodeId) (q p : PathId) (n : NodeId) (f : Field)
    (ids : List NodeId) (i : Nat) : Prop where
  sound : s.Sound K
  owner : s.Holds q n
  linked : s.Linked p (.item n f i)
  list : s.tree.list? n f = some ids
  lt : i < ids.length
  small : ids.length < Key.maxIndex

variable (h : s.Member K q p n f ids i)

include h

theorem Member.went (hw : s.Went K s') : s'.Member K q p n f ids i where
  sound := hw.sound
  owner := hw.grew.holds h.sound h.owner
  linked := h.linked.grew h.sound hw.grew
  list := by rw [hw.tree]; exact h.list
  lt := h.lt
  small := h.small

theorem Member.occupant (j : Nat) : s.tree.occupant? (.item n f j) = ids[j]? := by
  rw [Tree.occupant?, h.list]
  rfl

/-- An element of the list is held by the one path that is linked to its position. -/
theorem Member.linked_unique {p₁ p₂ : PathId} {j : Nat} (hj : j < ids.length)
    (h₁ : s.Linked p₁ (.item n f j)) (h₂ : s.Linked p₂ (.item n f j)) : p₁ = p₂ := by
  have hocc : s.tree.occupant? (.item n f j) = some ids[j] := by
    rw [h.occupant, List.getElem?_eq_getElem hj]
  exact h.sound.holder_unique (h₁.holds hocc) (h₂.holds hocc)

theorem Member.data : ∃ d, s.Files p (.item n f i) d ∧ d.parent = some q := by
  obtain ⟨d, hf, -⟩ := id h.linked
  exact ⟨d, hf, h.linked.parent_eq h.sound hf.data rfl h.owner⟩

end Session

/-! ## One element -/

namespace PathId

variable (h : s.Member K q p n f ids i)

include h

theorem index?_run_of_member : p.index? s = .ok (some i) s := by
  obtain ⟨d, hf, -⟩ := h.data
  refine (bind_of_ok (p.data_run hf.data)).trans ?_
  rw [PathData.index?, hf.key]
  rfl

/-- An index leads from one element to another. -/
theorem sibling_returns (j : Nat) : Returns (p.sibling j) s (s.Reaches K (.item n f j) (some q)) := by
  obtain ⟨d, hf, hparent⟩ := h.data
  unfold sibling
  refine returns_bind_of_ok (p.data_run hf.data) ?_
  rw [hf.container, hparent]
  exact element_returns h.sound h.owner (Tree.list?_eq_some_iff.mp h.list) j

theorem mapM_sibling_returns (indices : List Nat) :
    Returns (indices.mapM p.sibling) s (s.Lists K (indices.map (.item n f))) := by
  induction indices generalizing s with
  | nil => exact .pure (.nil h.sound)
  | cons j indices ih =>
    rw [List.mapM_cons]
    refine (sibling_returns h j).bind fun r s₁ hr => ?_
    refine (ih (h.went hr.toWent)).bind fun rs s₂ hrs => .pure ?_
    refine ⟨hr.toWent.trans hrs.toWent, .cons ?_ hrs.linked⟩
    exact (hr.linked h.sound ⟨q, rfl, h.owner⟩).grew hr.sound hrs.grew

/-- The path at an index holds the element with this index. -/
theorem node?_run_of_reaches {j : Nat} {r : PathId}
    (hr : s.Reaches K (.item n f j) (some q) r s') : r.node? s' = .ok ids[j]? s' := by
  obtain ⟨d, hf, -⟩ := hr.files
  rw [r.node?_run hf.data, hf.node, hr.tree, h.occupant]

/-- The elements from an index on are found one by one, up to the end of the list. -/
theorem siblingsFrom_returns {fuel j : Nat} (hj : j ≤ ids.length) (hfuel : ids.length < fuel + j) :
    Returns (p.siblingsFrom fuel j) s
      (s.Lists K (((List.range ids.length).drop j).map (.item n f))) := by
  induction fuel generalizing s j with
  | zero => omega
  | succ fuel ih =>
    unfold siblingsFrom
    refine (sibling_returns h j).bind fun r s₁ hr => ?_
    refine returns_bind_of_ok (node?_run_of_reaches h hr) ?_
    cases hm : ids[j]? with
    | none =>
      have hend : ids.length ≤ j := List.getElem?_eq_none_iff.mp hm
      rw [List.drop_eq_nil_of_le (by simpa using hend)]
      exact .pure ⟨hr.toWent, .nil⟩
    | some m =>
      have hlt : j < ids.length := (List.getElem?_eq_some_iff.mp hm).1
      rw [List.drop_eq_getElem_cons (by simpa using hlt), List.getElem_range]
      refine (ih (h.went hr.toWent) (by omega) (by omega)).bind fun rs s₂ hrs => .pure ?_
      refine ⟨hr.toWent.trans hrs.toWent, .cons ?_ hrs.linked⟩
      exact (hr.linked h.sound ⟨q, rfl, h.owner⟩).grew hr.sound hrs.grew

end PathId

/-! ## Questions about a list -/

/-- What can be asked about the list around a path. -/
inductive ListQuestion where
  | elements
  | prevSiblings
  | nextSiblings
  | prevSibling
  | nextSibling

/-- The answer to a question about the path `p` in the list `f` of its parent `q`. -/
def ListQuestion.run (p q : PathId) (f : Field) : ListQuestion → SessionM (List PathId)
  | .elements => q.elements f
  | .prevSiblings => p.prevSiblings
  | .nextSiblings => p.nextSiblings
  | .prevSibling => do pure [← p.prevSibling]
  | .nextSibling => do pure [← p.nextSibling]

namespace Session

/-- The path is there and has no node. -/
def Vacant (s : Session) (p : PathId) : Prop := ∃ d, s.paths[p.index]? = some d ∧ d.node = none

theorem Vacant.grew (hv : s.Vacant p) (hg : s.Grew s') : s'.Vacant p := by
  obtain ⟨d, hd, hn⟩ := hv
  obtain ⟨d', hd', hdetached, hfiled⟩ := hg.kept p d hd
  refine ⟨d', hd', ?_⟩
  by_cases hc : d.container = .detached
  · exact (hdetached hc).2
  · rw [(hfiled hc).1, hn]

/-- The path stands at the position, or it is empty if there is none. -/
def Borders (s : Session) (p : PathId) : Option Position → Prop
  | some pos => s.Linked p pos
  | none => s.Vacant p

theorem Borders.grew {pos : Option Position} (hp : s.Borders p pos) (hs : s.Sound K)
    (hg : s.Grew s') : s'.Borders p pos := by
  cases pos with
  | some pos => exact Linked.grew hp hs hg
  | none => exact Vacant.grew hp hg

end Session

/-- The paths are those that a question is about: the path asked about is at index `i` of a list of
the given length. -/
def ListQuestion.Tells (s : Session) (n : NodeId) (f : Field) (length i : Nat) :
    ListQuestion → List PathId → Prop
  | .elements, ps => List.Forall₂ s.Linked ps ((List.range length).map (.item n f))
  | .prevSiblings, ps => List.Forall₂ s.Linked ps ((List.range i).reverse.map (.item n f))
  | .nextSiblings, ps =>
    List.Forall₂ s.Linked ps (((List.range length).drop (i + 1)).map (.item n f))
  | .prevSibling, ps => ∃ r, ps = [r] ∧ s.Borders r ((List.range i).getLast?.map (.item n f))
  | .nextSibling, ps => ∃ r, ps = [r] ∧ s.Linked r (.item n f (i + 1))

theorem ListQuestion.Tells.grew {question : ListQuestion} {ps : List PathId} {length : Nat}
    (h : question.Tells s n f length i ps) (hs : s.Sound K) (hg : s.Grew s') :
    question.Tells s' n f length i ps := by
  have hlinked : ∀ places, List.Forall₂ s.Linked ps places → List.Forall₂ s'.Linked ps places :=
    fun places hps => hps.imp fun _ _ hl => hl.grew hs hg
  cases question with
  | elements => exact hlinked _ h
  | prevSiblings => exact hlinked _ h
  | nextSiblings => exact hlinked _ h
  | prevSibling =>
    obtain ⟨r, hr, hborders⟩ := h
    exact ⟨r, hr, hborders.grew hs hg⟩
  | nextSibling =>
    obtain ⟨r, hr, hl⟩ := h
    exact ⟨r, hr, hl.grew hs hg⟩

namespace PathId

variable (h : s.Member K q p n f ids i)

include h

theorem nextIndex_run_of_member : nextIndex i s = .ok (i + 1) s := by
  unfold nextIndex
  rw [if_pos (Nat.lt_trans h.lt h.small)]
  rfl

theorem nextSiblings_returns :
    Returns p.nextSiblings s (s.Lists K (((List.range ids.length).drop (i + 1)).map (.item n f))) := by
  have hlongest := Tree.length_le_longestList h.list
  have hlt := h.lt
  unfold nextSiblings
  refine returns_bind_of_ok (index?_run_of_member h) ?_
  refine returns_bind_of_ok rfl ?_
  refine returns_bind_of_ok (nextIndex_run_of_member h) ?_
  exact siblingsFrom_returns h (by omega) (by omega)

theorem prevSiblings_returns :
    Returns p.prevSiblings s (s.Lists K ((List.range i).reverse.map (.item n f))) := by
  unfold prevSiblings
  refine returns_bind_of_ok (index?_run_of_member h) ?_
  exact mapM_sibling_returns h _

theorem nextSibling_returns :
    Returns p.nextSibling s (s.Reaches K (.item n f (i + 1)) (some q)) := by
  unfold nextSibling
  refine returns_bind_of_ok (index?_run_of_member h) ?_
  refine returns_bind_of_ok (nextIndex_run_of_member h) ?_
  exact sibling_returns h (i + 1)

/-- Before the first element there is a path without a node. -/
theorem prevSibling_returns : Returns p.prevSibling s fun r s' =>
    s.Went K s' ∧ s'.Borders r ((List.range i).getLast?.map (.item n f)) := by
  unfold prevSibling
  refine returns_bind_of_ok (index?_run_of_member h) ?_
  cases i with
  | zero =>
    obtain ⟨d, hf, -⟩ := h.data
    refine returns_bind_of_ok (p.parent?_run hf.data) ?_
    refine (detachedPath_returns h.sound d.parent).mono fun r s' hr => ⟨hr.toWent, ?_⟩
    obtain ⟨e, he, hplace⟩ := hr.adrift
    simp only [PathData.place, Prod.mk.injEq] at hplace
    exact ⟨e, he, hplace.1⟩
  | succ i =>
    rw [List.range_succ, List.getLast?_concat]
    exact (sibling_returns h i).mono fun r s' hr =>
      ⟨hr.toWent, hr.linked h.sound ⟨q, rfl, h.owner⟩⟩

end PathId

/-- Every question has an answer, and it is the right one. -/
theorem ListQuestion.run_returns (h : s.Member K q p n f ids i) (question : ListQuestion) :
    Returns (question.run p q f) s fun ps s' =>
      s.Went K s' ∧ question.Tells s' n f ids.length i ps := by
  cases question with
  | elements =>
    exact (PathId.elements_returns h.sound h.owner (Tree.list?_eq_some_iff.mp h.list)).mono
      fun ps s' hps => ⟨hps.toWent, hps.linked⟩
  | prevSiblings => exact (PathId.prevSiblings_returns h).mono fun ps s' hps => ⟨hps.toWent, hps.linked⟩
  | nextSiblings => exact (PathId.nextSiblings_returns h).mono fun ps s' hps => ⟨hps.toWent, hps.linked⟩
  | prevSibling =>
    exact (PathId.prevSibling_returns h).bind fun r s' hr => .pure ⟨hr.1, r, rfl, hr.2⟩
  | nextSibling =>
    exact (PathId.nextSibling_returns h).bind fun r s' hr =>
      .pure ⟨hr.toWent, r, rfl, hr.linked h.sound ⟨q, rfl, h.owner⟩⟩

/-! ## Any number of questions -/

/-- Questions about the path `p` in the list `f` of its parent `q` are asked one after the other,
with navigation from anywhere to anywhere in between. -/
inductive Inquires (p q : PathId) (f : Field) :
    Session → List (ListQuestion × List PathId) → Session → Prop
  | done {s : Session} : Inquires p q f s [] s
  | asked {s s₁ s' : Session} {question : ListQuestion} {ps : List PathId}
    {answers : List (ListQuestion × List PathId)} : question.run p q f s = .ok ps s₁ →
      Inquires p q f s₁ answers s' → Inquires p q f s ((question, ps) :: answers) s'
  | moved {s s' : Session} {answers : List (ListQuestion × List PathId)} (m : Move) :
      Inquires p q f (after m.run s) answers s' → Inquires p q f s answers s'

/-- Whatever was asked before and after, every answer is the right one. -/
theorem Inquires.tells {answers : List (ListQuestion × List PathId)} (hinquires : Inquires p q f s answers s')
    (h : s.Member K q p n f ids i) :
    s.Went K s' ∧ ∀ a ∈ answers, a.1.Tells s' n f ids.length i a.2 := by
  induction hinquires with
  | done => exact ⟨.refl h.sound, nofun⟩
  | @asked s s₁ s' question ps answers hrun _ ih =>
    obtain ⟨hwent, htells⟩ := (question.run_returns h).of_eq_ok hrun
    obtain ⟨hwent', hanswers⟩ := ih (h.went hwent)
    refine ⟨hwent.trans hwent', fun a ha => ?_⟩
    rcases List.mem_cons.mp ha with rfl | ha
    · exact htells.grew hwent.sound hwent'.grew
    · exact hanswers a ha
  | @moved s s' answers m _ ih =>
    have hwent := m.roaming s K h.sound
    obtain ⟨hwent', hanswers⟩ := ih (h.went hwent)
    exact ⟨hwent.trans hwent', hanswers⟩

/-! ## The partition -/

/-- The answer to a question about the path `p` when `before` and `later` are the paths around it:
a neighbour is the nearest of these, and beyond the ends of the list a path without a node. -/
def ListQuestion.Fits (s : Session) (before : List PathId) (p : PathId) (later : List PathId) :
    ListQuestion → List PathId → Prop
  | .elements, ps => ps = before ++ p :: later
  | .prevSiblings, ps => ps.reverse = before
  | .nextSiblings, ps => ps = later
  | .prevSibling, ps => ∃ r, ps = [r] ∧ (before.getLast? = some r ∨ before = [] ∧ s.Vacant r)
  | .nextSibling, ps => ∃ r, ps = [r] ∧ (later.head? = some r ∨ later = [] ∧ s.Vacant r)

section Partition

/-- Paths at different positions are different. -/
private theorem nodup_of_linked {ps : List PathId} {places : List Position}
    (hps : List.Forall₂ s.Linked ps places) (hplaces : places.Nodup) : ps.Nodup := by
  induction hps with
  | nil => exact .nil
  | @cons r pos ps places hr hps ih =>
    obtain ⟨hpos, hplaces⟩ := List.nodup_cons.mp hplaces
    refine List.nodup_cons.mpr ⟨fun hmem => ?_, ih hplaces⟩
    obtain ⟨pos', hmem', hr'⟩ := exists_counterpart hps hmem
    obtain ⟨_, hf, -⟩ := hr
    obtain ⟨_, hf', -⟩ := hr'
    obtain ⟨rfl, -⟩ := hf.position_unique hf'
    exact hpos hmem'

variable (h : s.Member K q p n f ids i)

include h

/-- Two lists of paths at the same elements are the same. -/
private theorem eq_of_linked {ps qs : List PathId} {indices : List Nat}
    (hlt : ∀ j ∈ indices, j < ids.length)
    (hps : List.Forall₂ s.Linked ps (indices.map (.item n f)))
    (hqs : List.Forall₂ s.Linked qs (indices.map (.item n f))) : ps = qs := by
  induction indices generalizing ps qs with
  | nil =>
    cases hps
    cases hqs
    rfl
  | cons j indices ih =>
    cases hps with
    | cons hp hps =>
      cases hqs with
      | cons hq hqs =>
        rw [h.linked_unique (hlt j (by simp)) hp hq, ih (fun k hk => hlt k (by simp [hk])) hps hqs]

/-- The path splits the list around it. -/
theorem Session.Member.split {qs : List PathId}
    (hqs : List.Forall₂ s.Linked qs ((List.range ids.length).map (.item n f))) :
    ∃ before later, qs = before ++ p :: later ∧
      List.Forall₂ s.Linked before ((List.range i).map (.item n f)) ∧
      List.Forall₂ s.Linked later (((List.range ids.length).drop (i + 1)).map (.item n f)) := by
  have hlt := h.lt
  have hlength : qs.length = ids.length := by simpa using hqs.length_eq
  have hi : i < qs.length := by omega
  have hp : s.Linked qs[i] (.item n f i) := by
    have := hqs.get hi (by simpa using hlt)
    simpa using this
  refine ⟨qs.take i, qs.drop (i + 1), ?_, ?_, ?_⟩
  · rw [← h.linked_unique hlt hp h.linked, List.getElem_cons_drop, List.take_append_drop]
  · have hbefore := List.forall₂_take i hqs
    rwa [← List.map_take, List.take_range, Nat.min_eq_left (Nat.le_of_lt hlt)] at hbefore
  · have hlater := List.forall₂_drop (i + 1) hqs
    rwa [← List.map_drop] at hlater

/-- What an answer says of positions, it says of the paths that are found there in the end. -/
theorem ListQuestion.Tells.fits {question : ListQuestion} {ps before later : List PathId}
    (htells : question.Tells s n f ids.length i ps) (hw : s.Went K s')
    (hbefore : List.Forall₂ s'.Linked before ((List.range i).map (.item n f)))
    (hlater : List.Forall₂ s'.Linked later
      (((List.range ids.length).drop (i + 1)).map (.item n f))) :
    question.Fits s before p later ps := by
  have hlt := h.lt
  have h' := h.went hw
  have htells' := htells.grew h.sound hw.grew
  have hrange : List.range ids.length =
      List.range i ++ i :: (List.range ids.length).drop (i + 1) := by
    conv_lhs => rw [← List.take_append_drop i (List.range ids.length)]
    rw [List.drop_eq_getElem_cons (by simpa using hlt), List.take_range, List.getElem_range,
      Nat.min_eq_left (Nat.le_of_lt hlt)]
  cases question with
  | elements =>
    refine eq_of_linked h' (fun j hj => List.mem_range.mp hj) htells' ?_
    rw [hrange, List.map_append, List.map_cons]
    exact List.rel_append hbefore (.cons h'.linked hlater)
  | prevSiblings =>
    have htells' : List.Forall₂ s'.Linked ps ((List.range i).reverse.map (.item n f)) := htells'
    have hreverse := List.forall₂_reverse_iff.mpr htells'
    rw [← List.map_reverse, List.reverse_reverse] at hreverse
    refine eq_of_linked h' (fun j hj => ?_) hreverse hbefore
    exact Nat.lt_trans (List.mem_range.mp hj) hlt
  | nextSiblings =>
    refine eq_of_linked h' (fun j hj => ?_) htells' hlater
    exact List.mem_range.mp (List.mem_of_mem_drop hj)
  | prevSibling =>
    obtain ⟨r, hr, hborders⟩ := htells
    refine ⟨r, hr, ?_⟩
    cases i with
    | zero =>
      obtain rfl : before = [] := by simpa using hbefore
      exact .inr ⟨rfl, hborders⟩
    | succ i =>
      rw [List.range_succ, List.getLast?_concat] at hborders
      have hborders' := Linked.grew hborders h.sound hw.grew
      have hreverse := List.forall₂_reverse_iff.mpr hbefore
      rw [← List.map_reverse, List.range_succ, List.reverse_concat, List.map_cons] at hreverse
      left
      rw [← List.head?_reverse]
      cases hb : before.reverse with
      | nil =>
        rw [hb] at hreverse
        cases hreverse
      | cons r' rest =>
        rw [hb] at hreverse
        rw [List.head?_cons,
          h'.linked_unique (by omega) (List.forall₂_cons.mp hreverse).1 hborders']
  | nextSibling =>
    obtain ⟨r, hr, hl⟩ := htells
    refine ⟨r, hr, ?_⟩
    cases later with
    | nil =>
      have hend : ids.length ≤ i + 1 := by simpa using hlater
      obtain ⟨d, hf, -⟩ := id hl
      refine .inr ⟨rfl, d, hf.data, ?_⟩
      rw [hf.node, h.occupant, List.getElem?_eq_none hend]
    | cons r' later =>
      have hmore : i + 1 < ids.length := by
        have := hlater.length_eq
        simp only [List.length_cons, List.length_map, List.length_drop, List.length_range] at this
        omega
      rw [List.drop_eq_getElem_cons (by simpa using hmore), List.map_cons,
        List.getElem_range] at hlater
      have hl' := hl.grew h.sound hw.grew
      rw [List.head?_cons, h'.linked_unique hmore (List.forall₂_cons.mp hlater).1 hl']
      exact .inl rfl

end Partition

/-- Where nothing was edited, a path with a node and a place in a list is linked to an element. -/
theorem Session.Viewed.member {t : Tree} (hs : s.Viewed t) (ht : t.IsProgram) {d : PathData}
    {m : NodeId} (hd : s.paths[p.index]? = some d) (hc : d.container = .list n f)
    (hm : d.node = some m) : ∃ q ids i, s.Member t.reachable q p n f ids i ∧ d.parent = some q := by
  obtain ⟨hsound, rfl⟩ := hs.sound ht
  have hp : s.Holds p m := ⟨d, hd, hm⟩
  obtain ⟨pos, hw, hl, hocc⟩ := hsound.linked_of_reachable hp (hsound.mem_of_holds hp)
  obtain ⟨e, hf, hadopts⟩ := id hl
  obtain rfl := Option.some.inj (hd.symm.trans hf.data)
  rw [hf.container] at hc
  cases pos with
  | root => cases hc
  | slot owner g => cases hc
  | item owner g i =>
    obtain ⟨rfl, rfl⟩ : owner = n ∧ g = f := by
      injection hc with howner hg
      exact ⟨howner, hg⟩
    obtain ⟨q, hq, howner⟩ := hadopts
    obtain ⟨ids, hids, hi⟩ := Option.bind_eq_some_iff.mp hocc
    have hnodup := hsound.forest.nodup_list (hsound.mem_of_holds howner) hids
    have hsize := hsound.forest.length_le_size
      (fun x hx => hsound.forest.mem_list (hsound.mem_of_holds howner) hids hx) hnodup
    exact ⟨q, ids, i, ⟨hsound, howner, hl, hids, (List.getElem?_eq_some_iff.mp hi).1,
      Nat.lt_of_le_of_lt (Nat.le_trans hsize ht.small) Tree.maxSize_lt⟩, hq⟩

/-- Around the path of an element, the earlier and the later siblings are the rest of the list, path
for path and without duplicates. That is so whenever one asks, in whatever order and whatever
navigation comes before and in between: every question has an answer, all answers fit the one list,
and the neighbours are next to the path in it, or beyond its ends paths without a node. The paths in
the list keep their key and their node. -/
theorem siblings_partition {t : Tree} (ht : t.IsProgram) (hs : s.Viewed t) {d : PathData} {m : NodeId}
    (hd : s.paths[p.index]? = some d) (hc : d.container = .list n f) (hm : d.node = some m) :
    ∃ q, d.parent = some q ∧ s.Holds q n ∧ ∀ answers s', Inquires p q f s answers s' →
      (∀ question : ListQuestion, ∃ ps s'', question.run p q f s' = .ok ps s'') ∧
      (∃ before later s'', q.elements f s' = .ok (before ++ p :: later) s'' ∧
        (before ++ p :: later).Nodup ∧ ∀ a ∈ answers, a.1.Fits s' before p later a.2) ∧
      ∀ (r : PathId) (e : PathData), s.paths[r.index]? = some e → e.container = .list n f →
        ∃ e', s'.paths[r.index]? = some e' ∧ e'.container = .list n f ∧ e'.key = e.key ∧
          e'.node = e.node := by
  obtain ⟨q, ids, i, h, hq⟩ := hs.member ht hd hc hm
  refine ⟨q, hq, h.owner, fun answers s' hinquires => ?_⟩
  obtain ⟨hwent, htells⟩ := hinquires.tells h
  have h' := h.went hwent
  refine ⟨fun question => ?_, ?_, fun r e he hlist => ?_⟩
  · obtain ⟨ps, s'', hrun, -⟩ := question.run_returns h'
    exact ⟨ps, s'', hrun⟩
  · obtain ⟨qs, s'', hrun, hwent', hqs⟩ := ListQuestion.elements.run_returns h'
    have hqs : List.Forall₂ s''.Linked qs ((List.range ids.length).map (.item n f)) := hqs
    obtain ⟨before, later, rfl, hbefore, hlater⟩ := (h'.went hwent').split hqs
    refine ⟨before, later, s'', hrun, nodup_of_linked hqs ?_, fun a ha => ?_⟩
    · refine List.nodup_range.map fun j k hjk => ?_
      injection hjk
    · exact (htells a ha).fits h' hwent' hbefore hlater
  · obtain ⟨e', he', -, hkept⟩ := hwent.grew.kept r e he
    rw [(hkept (by rw [hlist]; nofun)).1] at he'
    exact ⟨_, he', hlist, rfl, rfl⟩

/-- The second statement in `function f() { a; b; }` has the first one before it, and nothing behind
it but a path without a node. -/
theorem seriesProgram_siblings : seriesProgram.IsProgram ∧
    ∃ s s' s'', Session.open? seriesProgram {} = .ok s ∧ s.Viewed seriesProgram ∧
      Inquires ⟨5⟩ ⟨3⟩ .body s
        [(.nextSibling, [⟨8⟩]), (.prevSiblings, [⟨4⟩]), (.nextSiblings, [])] s' ∧
      s'.Vacant ⟨8⟩ ∧ PathId.elements ⟨3⟩ .body s' = .ok [⟨4⟩, ⟨5⟩] s'' := by
  obtain ⟨_, s, hrun, -, -⟩ := ensureScopes_orderly seriesProgram_isProgram {}
  obtain rfl : seriesSession = s := after_of_ok hrun
  have hopen : Session.open? seriesProgram {} = .ok seriesSession := open?_of_ensureScopes rfl hrun
  have hviewed : seriesSession.Viewed seriesProgram := .opened hopen
  have hplace : seriesSession.paths[5]?.map (fun d => (d.container, d.node, d.parent)) =
      some (.list ⟨5⟩ .body, some ⟨4⟩, some ⟨3⟩) := by decide +kernel
  obtain ⟨d, hd, hplace⟩ := Option.map_eq_some_iff.mp hplace
  simp only [Prod.mk.injEq] at hplace
  obtain ⟨hc, hm, hparent⟩ := hplace
  obtain ⟨q, hq, -, hpartition⟩ := siblings_partition seriesProgram_isProgram hviewed (p := ⟨5⟩)
    hd hc hm
  obtain rfl : q = ⟨3⟩ := Option.some.inj (hq.symm.trans hparent)
  -- The questions are asked one after the other.
  have hnext := eq_ok_of_value? (show value? (ListQuestion.run ⟨5⟩ ⟨3⟩ .body .nextSibling)
    seriesSession = some [⟨8⟩] by decide +kernel)
  have hprevs := eq_ok_of_value? (show value? (ListQuestion.run ⟨5⟩ ⟨3⟩ .body .prevSiblings)
    (after (ListQuestion.run ⟨5⟩ ⟨3⟩ .body .nextSibling) seriesSession) = some [⟨4⟩] by
    decide +kernel)
  have hnexts := eq_ok_of_value? (show value? (ListQuestion.run ⟨5⟩ ⟨3⟩ .body .nextSiblings)
    (after (ListQuestion.run ⟨5⟩ ⟨3⟩ .body .prevSiblings)
      (after (ListQuestion.run ⟨5⟩ ⟨3⟩ .body .nextSibling) seriesSession)) = some [] by
    decide +kernel)
  have hinquires := Inquires.asked hnext (.asked hprevs (.asked hnexts .done))
  obtain ⟨-, ⟨before, later, s'', hrun', -, hfits⟩, -⟩ := hpartition _ _ hinquires
  -- The answers say what is before the path and what is behind it.
  have hbefore : [⟨4⟩] = before := hfits (.prevSiblings, [⟨4⟩]) (by simp)
  have hlater : [] = later := hfits (.nextSiblings, []) (by simp)
  subst hbefore hlater
  obtain ⟨r, hr, hends⟩ := hfits (.nextSibling, [⟨8⟩]) (by simp)
  obtain rfl : ⟨8⟩ = r := (List.cons.inj hr).1
  have hvacant := (hends.resolve_left (by simp)).2
  exact ⟨seriesProgram_isProgram, _, _, s'', hopen, hviewed, hinquires, hvacant, hrun'⟩

end Espalier
