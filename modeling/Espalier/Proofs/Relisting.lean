import Espalier.Proofs.Forest

set_option autoImplicit false

/-! # Filling positions of a tree anew

An edit puts other nodes at some positions of one node: at one position, or all over a list. The
nodes that come in are `Loose`: neither they nor anything below them was ever attached. A forest
stays a forest when it is changed in this way (`Tree.Rearranged.forest`), and whatever could be
reached before can still be reached, unless it stands below a node that left its position
(`Tree.Rearranged.reachable_or_below`). A list with other elements is the case that most edits need
(`Tree.Relisted`). -/

namespace Espalier

/-! ## Content of a field after a change -/

/-- The content of a mapped kind is what the map makes of the content. -/
theorem NodeKind.child?_mapFields (k : NodeKind) (g : FieldMap) (f : Field) :
    (k.mapFields g).child? f = (k.child? f).map (g.apply f) := by
  have hsame : ((fun e => decide (e.1 = f)) ∘ fun e : Field × Child => (e.1, g.apply e.1 e.2)) =
      fun e => decide (e.1 = f) := rfl
  simp only [child?, fields_mapFields, List.find?_map, Option.map_map, hsame]
  cases h : k.fields.find? fun e => decide (e.1 = f) with
  | none => rfl
  | some e =>
    have hf : e.1 = f := by simpa using List.find?_some h
    subst hf
    rfl

theorem NodeKind.child?_setList (k : NodeKind) (f : Field) {ids : List NodeId}
    (h : k.child? f = some (.many ids)) (ids' : List NodeId) :
    (k.setList f ids').child? f = some (.many ids') := by
  simp [setList, child?_mapFields, h, FieldMap.apply, putList]

theorem NodeKind.child?_setList_of_ne (k : NodeKind) {f g : Field} (h : g ≠ f)
    (ids' : List NodeId) : (k.setList f ids').child? g = k.child? g := by
  rw [setList, child?_mapFields]
  cases k.child? g with
  | none => rfl
  | some c => cases c <;> simp [FieldMap.apply, putList, h]

theorem NodeKind.type_setList (k : NodeKind) (f : Field) (ids : List NodeId) :
    (k.setList f ids).type = k.type := k.type_mapFields _

/-- A single-node field is not touched by a change of a list. -/
theorem NodeKind.node?_setList (k : NodeKind) (f g : Field) (ids : List NodeId) :
    ((k.setList f ids).child? g).bind Child.node? = (k.child? g).bind Child.node? := by
  rw [setList, child?_mapFields]
  cases k.child? g with
  | none => rfl
  | some c => cases c <;> rfl

namespace Tree

/-! ## Loose nodes -/

/-- The nodes of a list and everything below them. -/
def below (t : Tree) (nodes : List NodeId) : Set NodeId :=
  {m | ∃ n ∈ nodes, Relation.ReflTransGen t.IsChild n m}

/-- Nodes that can be attached: each occurs once, and with everything below them they are a
forest of their own, of which nothing is in the set `K`. -/
structure Loose (t : Tree) (K : Set NodeId) (nodes : List NodeId) : Prop where
  nodup : nodes.Nodup
  allocated : ∀ m ∈ t.below nodes, t.contains m = true
  apart : ∀ m ∈ t.below nodes, m ∉ K
  single : ∀ (pos pos' : Position) p p' m, pos.parent? = some p → pos'.parent? = some p' →
    p ∈ t.below nodes → p' ∈ t.below nodes → t.occupant? pos = some m →
    t.occupant? pos' = some m → pos = pos'
  top : ∀ (pos : Position) p n, pos.parent? = some p → p ∈ t.below nodes → n ∈ nodes →
    t.occupant? pos ≠ some n
  acyclic : t.Acyclic (t.below nodes)

section Loose

variable {t t' : Tree} {K : Set NodeId} {nodes : List NodeId}

theorem mem_below (t : Tree) {n : NodeId} (h : n ∈ nodes) : n ∈ t.below nodes := ⟨n, h, .refl⟩

theorem below_child {p n : NodeId} (hp : p ∈ t.below nodes) (hn : t.IsChild p n) :
    n ∈ t.below nodes := by
  obtain ⟨a, ha, hap⟩ := hp
  exact ⟨a, ha, hap.tail hn⟩

theorem below_nil (t : Tree) : t.below [] = ∅ := by
  ext m
  simp [below]

theorem Loose.nil (t : Tree) (K : Set NodeId) : t.Loose K [] := by
  refine ⟨.nil, ?_, ?_, ?_, ?_, ?_⟩ <;> simp [below_nil, Acyclic]

theorem Loose.not_mem (h : t.Loose K nodes) {n : NodeId} (hn : n ∈ nodes) : n ∉ K :=
  h.apart n (t.mem_below hn)

/-- Nodes of a forest that stand nowhere can be attached. -/
theorem Loose.of_forest {K : Set NodeId} (hF : t.Forest K) (hnodup : nodes.Nodup)
    (hmem : ∀ n ∈ nodes, n ∈ K) (hroot : ∀ n ∈ nodes, t.root ≠ some n)
    (htop : ∀ n ∈ nodes, ∀ p, ¬ t.IsChild p n) : t.Loose t.reachable nodes := by
  have hsub : ∀ m ∈ t.below nodes, m ∈ K := by
    rintro m ⟨n, hn, hm⟩
    induction hm with
    | refl => exact hmem n hn
    | tail _ hc ih => exact hF.closed_child ih hc
  have hwithin : ∀ {pos : Position} {p : NodeId}, pos.parent? = some p → p ∈ t.below nodes →
      pos.Within K := fun hp hb => Position.within_of_parent hp (hsub _ hb)
  refine ⟨hnodup, fun m hm => ?_, ?_, fun pos pos' p p' m hp hp' hb hb' hocc hocc' =>
    hF.single pos pos' m (hwithin hp hb) (hwithin hp' hb') hocc hocc',
    fun pos p n hp _ hn hocc => htop n hn p ⟨pos, hp, hocc⟩,
    fun m hm hcycle => hF.acyclic m (hsub m hm) hcycle⟩
  · exact (t.contains_iff m).mpr (hF.kind m (hsub m hm))
  · -- What is below such a node is not below the root, because there is one way up from it.
    rintro m ⟨n, hn, hm⟩ hreach
    induction hm with
    | refl =>
      cases hreach with
      | root hr => exact hroot n hn hr
      | child _ hc => exact htop n hn _ hc
    | @tail p m hp hc ih =>
      have hpK := hsub p ⟨n, hn, hp⟩
      cases hreach with
      | root hr =>
        obtain ⟨pos, hpos, hocc⟩ := hc
        obtain rfl := hF.single pos .root m (Position.within_of_parent hpos hpK)
          (Position.within_root K) hocc hr
        cases hpos
      | child hq hc' =>
        obtain rfl := hF.parent_unique hpK (hF.mem_of_reachable hq) hc hc'
        exact ih hq

theorem Alike.below (h : t.Alike t') (nodes : List NodeId) : t'.below nodes = t.below nodes := by
  simp only [Tree.below, h.isChild]

/-- No node of one shape is allocated in one tree only. -/
theorem Alike.size (h : t.Alike t') : t'.size = t.size := by
  have hiff : ∀ i : Nat, i < t'.size ↔ i < t.size := by
    intro i
    rw [← t'.kind?_isSome_iff ⟨i⟩, ← t.kind?_isSome_iff ⟨i⟩, h.kind]
  have h₁ := hiff t.size
  have h₂ := hiff t'.size
  omega

theorem Alike.loose (h : t.Alike t') (hl : t.Loose K nodes) : t'.Loose K nodes where
  nodup := hl.nodup
  allocated m hm := by
    rw [h.below] at hm
    simpa [contains, h.size] using hl.allocated m hm
  apart m hm := hl.apart m (h.below nodes ▸ hm)
  single pos pos' p p' m hp hp' hb hb' hm hm' := by
    rw [h.below] at hb hb'
    rw [h.occupant?] at hm hm'
    exact hl.single pos pos' p p' m hp hp' hb hb' hm hm'
  top pos p n hp hb hn := by
    rw [h.below] at hb
    rw [h.occupant?]
    exact hl.top pos p n hp hb hn
  acyclic := by
    rw [h.below]
    intro n hn
    rw [h.isChild]
    exact hl.acyclic n hn

end Loose

/-! ## A tree with some positions filled anew -/

/-- The second tree has other nodes at some positions, which belong to one owner or are the root, and
differs in nothing else but comments. What stands at those positions is one of the nodes, or stood
at one of them before. -/
structure Rearranged (t : Tree) (owner : Option NodeId) (P : Set Position) (nodes : List NodeId)
    (t' : Tree) : Prop where
  size : t'.size = t.size
  owner : ∀ pos ∈ P, pos.parent? = owner
  other : ∀ pos, pos ∉ P → t'.occupant? pos = t.occupant? pos
  inside : ∀ pos ∈ P, ∀ n, t'.occupant? pos = some n →
    n ∈ nodes ∨ ∃ pos' ∈ P, t.occupant? pos' = some n

namespace Rearranged

variable {t t' : Tree} {K : Set NodeId} {owner : Option NodeId} {P : Set Position}
  {nodes : List NodeId}

theorem kind_isSome (h : t.Rearranged owner P nodes t') {n : NodeId}
    (hn : ∃ k, t.kind? n = some k) : ∃ k, t'.kind? n = some k := by
  rw [kind?_isSome_iff] at hn ⊢
  rw [h.size]
  exact hn

/-- What stands at a position was there before, in the same owner, or is new. -/
theorem occupant_cases (h : t.Rearranged owner P nodes t') {pos : Position} {n : NodeId}
    (hn : t'.occupant? pos = some n) :
    (∃ pos', pos'.parent? = pos.parent? ∧ t.occupant? pos' = some n) ∨ pos ∈ P ∧ n ∈ nodes := by
  by_cases hpos : pos ∈ P
  · rcases h.inside pos hpos n hn with hnew | ⟨pos', hpos', hn'⟩
    · exact .inr ⟨hpos, hnew⟩
    · exact .inl ⟨pos', (h.owner pos' hpos').trans (h.owner pos hpos).symm, hn'⟩
  · exact .inl ⟨pos, rfl, (h.other pos hpos).symm.trans hn⟩

/-- What is a child after the change was one before, or is new. -/
theorem isChild (h : t.Rearranged owner P nodes t') {p n : NodeId} (hc : t'.IsChild p n) :
    t.IsChild p n ∨ n ∈ nodes ∧ ∃ pos ∈ P, pos.parent? = some p := by
  obtain ⟨pos, hp, hn⟩ := hc
  rcases h.occupant_cases hn with ⟨pos', hp', hn'⟩ | ⟨hpos, hnew⟩
  · exact .inl ⟨pos', hp'.trans hp, hn'⟩
  · exact .inr ⟨hnew, pos, hpos, hp⟩

/-- What was a child before the change is one after it, unless it left the positions. -/
theorem isChild_or_left (h : t.Rearranged owner P nodes t') {p n : NodeId} (hc : t.IsChild p n) :
    t'.IsChild p n ∨
      (∃ pos ∈ P, t.occupant? pos = some n) ∧ ∀ pos ∈ P, t'.occupant? pos ≠ some n := by
  obtain ⟨pos, hp, hn⟩ := hc
  by_cases hpos : pos ∈ P
  · by_cases hleft : ∀ pos ∈ P, t'.occupant? pos ≠ some n
    · exact .inr ⟨⟨pos, hpos, hn⟩, hleft⟩
    · push Not at hleft
      obtain ⟨pos', hpos', hn'⟩ := hleft
      exact .inl ⟨pos', ((h.owner pos' hpos').trans (h.owner pos hpos).symm).trans hp, hn'⟩
  · exact .inl ⟨pos, hp, (h.other pos hpos).trans hn⟩

section Forest

variable (h : t.Rearranged owner P nodes t') (hF : t.Forest K) (hloose : t.Loose K nodes)
  (hP : ∀ pos ∈ P, pos.Within K)

include h hloose hP in
/-- Below a loose node nothing has changed. -/
theorem below_of_below {n m : NodeId} (hn : n ∈ t.below nodes)
    (hm : Relation.TransGen t'.IsChild n m) :
    m ∈ t.below nodes ∧ Relation.TransGen t.IsChild n m := by
  have hstep : ∀ {p c : NodeId}, p ∈ t.below nodes → t'.IsChild p c → t.IsChild p c := by
    intro p c hp hc
    rcases h.isChild hc with hc | ⟨-, pos, hpos, hparent⟩
    · exact hc
    · exact absurd (hP pos hpos p hparent) (hloose.apart p hp)
  induction hm with
  | single hc =>
    have hc := hstep hn hc
    exact ⟨below_child hn hc, .single hc⟩
  | tail _ hc ih =>
    have hc := hstep ih.1 hc
    exact ⟨below_child ih.1 hc, ih.2.tail hc⟩

include h hF hloose hP in
/-- What stands below a node of the forest did so before, or is loose. -/
theorem below_of_mem {n m : NodeId} (hn : n ∈ K) (hm : Relation.TransGen t'.IsChild n m) :
    (m ∈ K ∧ Relation.TransGen t.IsChild n m) ∨ m ∈ t.below nodes := by
  induction hm with
  | single hc =>
    rcases h.isChild hc with hc | ⟨hmem, -⟩
    · exact .inl ⟨hF.closed_child hn hc, .single hc⟩
    · exact .inr (t.mem_below hmem)
  | tail _ hc ih =>
    rcases ih with ⟨hp, hnp⟩ | hp
    · rcases h.isChild hc with hc | ⟨hmem, -⟩
      · exact .inl ⟨hF.closed_child hp hc, hnp.tail hc⟩
      · exact .inr (t.mem_below hmem)
    · exact .inr (h.below_of_below hloose hP hp (.single hc)).1

include h hF hloose hP in
/-- A forest stays a forest when positions of it are filled with old and with loose nodes, each of
which stands at one of them. -/
theorem forest (hsingle : ∀ pos ∈ P, ∀ pos' ∈ P, ∀ n, t'.occupant? pos = some n →
    t'.occupant? pos' = some n → pos = pos') : t'.Forest (K ∪ t.below nodes) := by
  -- A position of before is one of the old forest or one below the loose nodes.
  have hold : ∀ (pos : Position) n, pos.Within (K ∪ t.below nodes) → t.occupant? pos = some n →
      (pos.Within K ∧ n ∈ K) ∨ ∃ p, pos.parent? = some p ∧ p ∈ t.below nodes ∧
        n ∈ t.below nodes := by
    intro pos n hw hn
    cases hp : pos.parent? with
    | none =>
      have hw' : pos.Within K := fun p hp' => by rw [hp] at hp'; cases hp'
      exact .inl ⟨hw', hF.closed pos n hw' hn⟩
    | some p =>
      rcases hw p hp with hpK | hpb
      · have hw' := Position.within_of_parent hp hpK
        exact .inl ⟨hw', hF.closed pos n hw' hn⟩
      · exact .inr ⟨p, rfl, hpb, below_child hpb ⟨pos, hp, hn⟩⟩
  -- What stands at one of the positions now stands at no other one.
  have hinside : ∀ (pos pos' : Position) n, pos ∈ P → pos' ∉ P →
      pos'.Within (K ∪ t.below nodes) → t'.occupant? pos = some n → t.occupant? pos' ≠ some n := by
    intro pos pos' n hpos hpos' hw hn hn'
    rcases h.inside pos hpos n hn with hmem | ⟨pos₀, hpos₀, hn₀⟩
    · rcases hold pos' n hw hn' with ⟨-, hnK⟩ | ⟨p, hp, hb, -⟩
      · exact hloose.not_mem hmem hnK
      · exact hloose.top pos' p n hp hb hmem hn'
    · rcases hold pos' n hw hn' with ⟨hwK, -⟩ | ⟨-, -, -, hb⟩
      · exact hpos' (hF.single pos₀ pos' n (hP pos₀ hpos₀) hwK hn₀ hn' ▸ hpos₀)
      · exact hloose.apart n hb (hF.closed pos₀ n (hP pos₀ hpos₀) hn₀)
  refine ⟨fun n hn => h.kind_isSome ?_, fun pos n hw hn => ?_, fun pos pos' n hw hw' hn hn' => ?_,
    fun n hn hcycle => ?_⟩
  · rcases hn with hn | hn
    · exact hF.kind n hn
    · exact (t.contains_iff n).mp (hloose.allocated n hn)
  · by_cases hpos : pos ∈ P
    · rcases h.inside pos hpos n hn with hmem | ⟨pos', hpos', hn'⟩
      · exact .inr (t.mem_below hmem)
      · exact .inl (hF.closed pos' n (hP pos' hpos') hn')
    · rw [h.other pos hpos] at hn
      rcases hold pos n hw hn with ⟨-, hnK⟩ | ⟨-, -, -, hb⟩
      · exact .inl hnK
      · exact .inr hb
  · by_cases hpos : pos ∈ P
    · by_cases hpos' : pos' ∈ P
      · exact hsingle pos hpos pos' hpos' n hn hn'
      · rw [h.other pos' hpos'] at hn'
        exact absurd hn' (hinside pos pos' n hpos hpos' hw' hn)
    · rw [h.other pos hpos] at hn
      by_cases hpos' : pos' ∈ P
      · exact absurd hn (hinside pos' pos n hpos' hpos hw hn')
      · rw [h.other pos' hpos'] at hn'
        rcases hold pos n hw hn with ⟨hwK, hnK⟩ | ⟨p, hp, hpb, hnb⟩
        · rcases hold pos' n hw' hn' with ⟨hwK', -⟩ | ⟨-, -, -, hnb⟩
          · exact hF.single pos pos' n hwK hwK' hn hn'
          · exact absurd hnK (hloose.apart n hnb)
        · rcases hold pos' n hw' hn' with ⟨-, hnK⟩ | ⟨p', hp', hpb', -⟩
          · exact absurd hnK (hloose.apart n hnb)
          · exact hloose.single pos pos' p p' n hp hp' hpb hpb' hn hn'
  · rcases hn with hn | hn
    · rcases h.below_of_mem hF hloose hP hn hcycle with ⟨-, hcycle⟩ | hb
      · exact hF.acyclic n hn hcycle
      · exact hloose.apart n hb hn
    · exact hloose.acyclic n hn (h.below_of_below hloose hP hn hcycle).2

/-! ### What can be reached after the change -/

include h hF hloose hP in
/-- What can be reached after the change could be reached before, or is loose. -/
theorem reachable_of_reachable {n : NodeId} (hn : t'.Reachable n) :
    (n ∈ K ∧ t.Reachable n) ∨ n ∈ t.below nodes := by
  induction hn with
  | root hr =>
    have hr : t'.occupant? .root = some _ := hr
    rcases h.occupant_cases hr with ⟨pos, hp, hn⟩ | ⟨-, hmem⟩
    · cases pos with
      | root => exact .inl ⟨hF.closed .root _ (Position.within_root K) hn, .root hn⟩
      | slot | item => cases hp
    · exact .inr (t.mem_below hmem)
  | child _ hc ih =>
    rcases ih with ⟨hp, hreach⟩ | hp
    · rcases h.isChild hc with hc | ⟨hmem, -⟩
      · exact .inl ⟨hF.closed_child hp hc, .child hreach hc⟩
      · exact .inr (t.mem_below hmem)
    · exact .inr (h.below_of_below hloose hP hp (.single hc)).1

include h in
/-- What could be reached before the change can be reached after it, unless it stands below a node
that left the positions. -/
theorem reachable_or_below {n : NodeId} (hn : t.Reachable n) :
    t'.Reachable n ∨ ∃ e, (∃ pos ∈ P, t.occupant? pos = some e) ∧
      (∀ pos ∈ P, t'.occupant? pos ≠ some e) ∧ Relation.ReflTransGen t.IsChild e n := by
  induction hn with
  | @root r hr =>
    by_cases hroot : Position.root ∈ P
    · by_cases hleft : ∀ pos ∈ P, t'.occupant? pos ≠ some r
      · exact .inr ⟨r, ⟨.root, hroot, hr⟩, hleft, .refl⟩
      · push Not at hleft
        obtain ⟨pos, hpos, hn⟩ := hleft
        have hp := (h.owner pos hpos).trans (h.owner _ hroot).symm
        cases pos with
        | root => exact .inl (.root hn)
        | slot | item => cases hp
    · exact .inl (.root ((h.other .root hroot).trans hr))
  | child _ hc ih =>
    rcases ih with hreach | ⟨e, he, hleft, hbelow⟩
    · rcases h.isChild_or_left hc with hc | ⟨he, hleft⟩
      · exact .inl (.child hreach hc)
      · exact .inr ⟨_, he, hleft, .refl⟩
    · exact .inr ⟨e, he, hleft, hbelow.tail hc⟩

include h hF hP in
/-- The owner of the positions stays where it is. -/
theorem reachable_owner {m : NodeId} (hm : owner = some m) (hreach : t.Reachable m) :
    t'.Reachable m := by
  rcases h.reachable_or_below hreach with hreach | ⟨e, ⟨pos, hpos, he⟩, -, hbelow⟩
  · exact hreach
  · have hparent := (h.owner pos hpos).trans hm
    exact absurd (Relation.TransGen.head' ⟨pos, hparent, he⟩ hbelow)
      (hF.acyclic m (hP pos hpos m hparent))

include h hF hloose hP in
/-- A node that left the positions can be reached no more. -/
theorem not_reachable_of_left {pos : Position} {e : NodeId} (hpos : pos ∈ P)
    (he : t.occupant? pos = some e) (hleft : ∀ pos ∈ P, t'.occupant? pos ≠ some e) :
    ¬ t'.Reachable e := by
  have heK := hF.closed pos e (hP pos hpos) he
  -- Wherever it would stand it stood before, which is at the position.
  have hno : ∀ pos' : Position, pos'.Within K → t'.occupant? pos' ≠ some e := by
    intro pos' hw hn
    by_cases hpos' : pos' ∈ P
    · exact hleft pos' hpos' hn
    · rw [h.other pos' hpos'] at hn
      exact hpos' (hF.single pos pos' e (hP pos hpos) hw he hn ▸ hpos)
  intro hreach
  cases hreach with
  | root hr => exact hno .root (Position.within_root K) hr
  | child hp hc =>
    rcases h.reachable_of_reachable hF hloose hP hp with ⟨hpK, -⟩ | hpb
    · obtain ⟨pos', hpos', hn⟩ := hc
      exact hno pos' (Position.within_of_parent hpos' hpK) hn
    · exact hloose.apart e (h.below_of_below hloose hP hpb (.single hc)).1 heK

end Forest

end Rearranged

/-! ## A tree with another list -/

/-- The second tree has other nodes in one list, and differs in nothing else but comments. -/
structure Relisted (t : Tree) (owner : NodeId) (f : Field) (ids ids' : List NodeId) (t' : Tree) :
    Prop where
  root : t'.root = t.root
  size : t'.size = t.size
  kind : ∀ n, n ≠ owner → t'.kind? n = t.kind? n
  list : ∃ k, t.kind? owner = some k ∧ k.child? f = some (.many ids) ∧
    t'.kind? owner = some (k.setList f ids')

namespace Relisted

variable {t t' : Tree} {K : Set NodeId} {owner : NodeId} {f : Field} {ids ids' nodes : List NodeId}

theorem list? (h : t.Relisted owner f ids ids' t') : t.list? owner f = some ids := by
  obtain ⟨k, hk, hc, -⟩ := h.list
  simp [Tree.list?, field?, hk, hc, Child.list?]

theorem list?' (h : t.Relisted owner f ids ids' t') : t'.list? owner f = some ids' := by
  obtain ⟨k, -, hc, hk⟩ := h.list
  simp [Tree.list?, field?, hk, k.child?_setList f hc ids', Child.list?]

/-- Every node keeps its type. -/
theorem type? (h : t.Relisted owner f ids ids' t') (n : NodeId) :
    (t'.kind? n).map NodeKind.type = (t.kind? n).map NodeKind.type := by
  by_cases hn : n = owner
  · subst hn
    obtain ⟨k, hk, -, hk'⟩ := h.list
    simp [hk, hk', NodeKind.type_setList]
  · rw [h.kind n hn]

/-- Other lists stay as they are. -/
theorem list?_of_ne (h : t.Relisted owner f ids ids' t') {p : NodeId} {g : Field}
    (hpg : ¬ (p = owner ∧ g = f)) : t'.list? p g = t.list? p g := by
  obtain ⟨k, hk, -, hk'⟩ := h.list
  simp only [Tree.list?, field?]
  by_cases hp : p = owner
  · subst hp
    rw [hk, hk', Option.bind_some, Option.bind_some,
      k.child?_setList_of_ne fun hg => hpg ⟨rfl, hg⟩]
  · rw [h.kind p hp]

/-- Positions outside the list keep their node. -/
theorem occupant? (h : t.Relisted owner f ids ids' t') {pos : Position}
    (hc : pos.container ≠ .list owner f) : t'.occupant? pos = t.occupant? pos := by
  obtain ⟨k, hk, -, hk'⟩ := h.list
  cases pos with
  | root => exact h.root
  | slot p g =>
    simp only [Tree.occupant?, field?]
    by_cases hp : p = owner
    · subst hp
      rw [hk, hk', Option.bind_some, Option.bind_some, k.node?_setList]
    · rw [h.kind p hp]
  | item p g i =>
    simp only [Tree.occupant?]
    rw [h.list?_of_ne fun hpg => hc (by rw [hpg.1, hpg.2]; rfl)]

/-- The list holds the new nodes. -/
theorem occupant?_item (h : t.Relisted owner f ids ids' t') (i : Nat) :
    t'.occupant? (.item owner f i) = ids'[i]? := by
  simp [Tree.occupant?, h.list?']

/-- A position is in the list or outside of it. -/
theorem position_cases (owner : NodeId) (f : Field) (pos : Position) :
    (∃ i, pos = .item owner f i) ∨ pos.container ≠ .list owner f := by
  cases pos with
  | root => exact .inr (by simp [Position.container])
  | slot => exact .inr (by simp [Position.container])
  | item p g i =>
    by_cases hpg : p = owner ∧ g = f
    · exact .inl ⟨i, by rw [hpg.1, hpg.2]⟩
    · refine .inr fun hc => hpg ?_
      simpa [Position.container] using hc

/-- The positions of the list are filled anew. -/
theorem rearranged (h : t.Relisted owner f ids ids' t') (hsub : ∀ n ∈ ids', n ∈ ids ∨ n ∈ nodes) :
    t.Rearranged (some owner) {pos | pos.container = .list owner f} nodes t' where
  size := h.size
  owner pos hpos := by
    rw [Position.parent?, show pos.container = .list owner f from hpos]
    rfl
  other pos hpos := h.occupant? hpos
  inside pos hpos n hn := by
    rcases position_cases owner f pos with ⟨i, rfl⟩ | hne
    · rw [h.occupant?_item] at hn
      rcases hsub n (List.mem_of_getElem? hn) with hmem | hmem
      · obtain ⟨j, hj⟩ := List.mem_iff_getElem?.mp hmem
        exact .inr ⟨.item owner f j, rfl, by simp [Tree.occupant?, h.list?, hj]⟩
      · exact .inl hmem
    · exact absurd hpos hne

theorem within_list (howner : owner ∈ K) :
    ∀ pos ∈ {pos : Position | pos.container = .list owner f}, pos.Within K := by
  intro pos hpos p hp
  rw [Position.parent?, show pos.container = .list owner f from hpos] at hp
  exact Option.some.inj hp ▸ howner

/-- A forest with another list of old and of loose nodes is a forest. -/
theorem forest (h : t.Relisted owner f ids ids' t') (hF : t.Forest K)
    (hloose : t.Loose K nodes) (howner : owner ∈ K) (hnodup : ids'.Nodup)
    (hsub : ∀ n ∈ ids', n ∈ ids ∨ n ∈ nodes) : t'.Forest (K ∪ t.below nodes) := by
  refine (h.rearranged hsub).forest hF hloose (within_list howner)
    fun pos hpos pos' hpos' n hn hn' => ?_
  rcases position_cases owner f pos with ⟨i, rfl⟩ | hne
  · rcases position_cases owner f pos' with ⟨j, rfl⟩ | hne'
    · rw [h.occupant?_item] at hn hn'
      obtain ⟨hi, hie⟩ := List.getElem?_eq_some_iff.mp hn
      obtain ⟨hj, hje⟩ := List.getElem?_eq_some_iff.mp hn'
      rw [(hnodup.getElem_inj_iff).mp (hie.trans hje.symm)]
    · exact absurd hpos' hne'
  · exact absurd hpos hne

/-- What can be reached after the change could be reached before, or is loose. -/
theorem reachable_of_reachable (h : t.Relisted owner f ids ids' t') (hF : t.Forest K)
    (hloose : t.Loose K nodes) (howner : owner ∈ K) (hsub : ∀ n ∈ ids', n ∈ ids ∨ n ∈ nodes)
    {n : NodeId} (hn : t'.Reachable n) : (n ∈ K ∧ t.Reachable n) ∨ n ∈ t.below nodes :=
  (h.rearranged hsub).reachable_of_reachable hF hloose (within_list howner) hn

/-- The owner of the list stays where it is. -/
theorem reachable_owner (h : t.Relisted owner f ids ids' t') (hF : t.Forest K)
    (howner : owner ∈ K) (hreach : t.Reachable owner) : t'.Reachable owner :=
  (h.rearranged fun _ hn => (.inr hn : _ ∨ _ ∈ ids')).reachable_owner hF (within_list howner) rfl
    hreach

/-- An element that left the list can be reached no more. -/
theorem not_reachable_of_left (h : t.Relisted owner f ids ids' t') (hF : t.Forest K)
    (hloose : t.Loose K nodes) (howner : owner ∈ K) (hsub : ∀ n ∈ ids', n ∈ ids ∨ n ∈ nodes)
    {e : NodeId} (he : e ∈ ids) (hleft : e ∉ ids') : ¬ t'.Reachable e := by
  obtain ⟨i, hi⟩ := List.mem_iff_getElem?.mp he
  have hocc : t.occupant? (.item owner f i) = some e := by simp [Tree.occupant?, h.list?, hi]
  refine (h.rearranged hsub).not_reachable_of_left hF hloose (within_list howner)
    (show _ ∈ {pos : Position | pos.container = .list owner f} from rfl) hocc fun pos hpos hn => ?_
  rcases position_cases owner f pos with ⟨j, rfl⟩ | hne
  · rw [h.occupant?_item] at hn
    exact hleft (List.mem_of_getElem? hn)
  · exact hne hpos

end Relisted

end Tree

end Espalier
