import Espalier.Proofs.Forest
import Espalier.Walk.Visitor
import Mathlib.Data.Set.Card

set_option autoImplicit false

/-! # Tours of a tree

The plain recursive walk over a tree enters a node, walks over its children in the order of the
visitor fields and leaves the node. Nodes of hidden types are passed over, with all that is below
them. The events of the walk are its tour (`Tree.Tours`). In a forest a tour enters and leaves each
node that can be seen from where it starts, and each of them once (`Tree.Tours.mem_iff`,
`Tree.Tours.nodup`). -/

namespace Espalier

namespace Tree

variable {t : Tree} {hidden : List NodeType} {n m : NodeId} {k : NodeKind} {ns ms : List NodeId}
  {tour tour' : List (Phase × NodeId)}

/-! ## What is seen -/

/-- The type of the node is not hidden. -/
def Visible (t : Tree) (hidden : List NodeType) (n : NodeId) : Prop :=
  ∃ type, t.type? n = some type ∧ type ∉ hidden

/-- The nodes that can be seen from the nodes at the top without passing a hidden one, and how many
steps below the top they stand. -/
inductive Sees (t : Tree) (hidden : List NodeType) (top : List NodeId) : NodeId → Nat → Prop
  | here {n : NodeId} : n ∈ top → t.Visible hidden n → Sees t hidden top n 0
  | child {p n : NodeId} {d : Nat} : Sees t hidden top p d → t.IsChild p n → t.Visible hidden n →
      Sees t hidden top n (d + 1)

/-- The nodes that can be seen from the root. -/
def seen (t : Tree) (hidden : List NodeType) : Set NodeId :=
  {n | ∃ d, t.Sees hidden t.root.toList n d}

theorem visible_iff (hk : t.kind? n = some k) : t.Visible hidden n ↔ k.type ∉ hidden := by
  simp [Visible, type?_of_kind hk]

theorem Sees.mono {d : Nat} (h : t.Sees hidden ns n d) (hsub : ns ⊆ ms) : t.Sees hidden ms n d := by
  induction h with
  | here hn hs => exact .here (hsub hn) hs
  | child _ hc hs ih => exact .child ih hc hs

/-- What is seen is at one of the nodes at the top or below it. -/
theorem Sees.reaches {d : Nat} (h : t.Sees hidden ns n d) :
    ∃ m ∈ ns, Relation.ReflTransGen t.IsChild m n := by
  induction h with
  | here hn _ => exact ⟨_, hn, .refl⟩
  | child _ hc _ ih =>
    obtain ⟨m, hm, hr⟩ := ih
    exact ⟨m, hm, hr.tail hc⟩

/-- What is seen is no deeper than what there is. -/
theorem Sees.depth_lt {d D : Nat} (h : t.Sees hidden ns n d) (hD : ∀ m ∈ ns, t.DepthWithin D m) :
    d < D := by
  have hleft : ∃ e, t.DepthWithin e n ∧ d + e ≤ D := by
    induction h with
    | here hn _ => exact ⟨D, hD _ hn, by omega⟩
    | @child p n d _ hc _ ih =>
      obtain ⟨e, he, hle⟩ := ih
      cases e with
      | zero => exact he.elim
      | succ e =>
        obtain ⟨k, hk, hall⟩ := he
        obtain ⟨k', hk', hmem⟩ := (t.isChild_iff p n).mp hc
        obtain rfl : k = k' := Option.some.inj (hk.symm.trans hk')
        exact ⟨e, hall n hmem, by omega⟩
  obtain ⟨e, he, hle⟩ := hleft
  cases e with
  | zero => exact he.elim
  | succ e => omega

theorem not_sees_nil (d : Nat) : ¬ t.Sees hidden [] n d := by
  intro h
  obtain ⟨m, hm, -⟩ := h.reaches
  cases hm

theorem sees_append (d : Nat) :
    t.Sees hidden (ns ++ ms) n d ↔ t.Sees hidden ns n d ∨ t.Sees hidden ms n d := by
  constructor
  · intro h
    induction h with
    | here hn hs => exact (List.mem_append.mp hn).imp (.here · hs) (.here · hs)
    | child _ hc hs ih => exact ih.imp (.child · hc hs) (.child · hc hs)
  · rintro (h | h)
    · exact h.mono (List.subset_append_left _ _)
    · exact h.mono (List.subset_append_right _ _)

/-- Nothing is seen from a hidden node. -/
theorem not_sees_of_hidden (h : ¬ t.Visible hidden n) (d : Nat) : ¬ t.Sees hidden [n] m d := by
  intro hs
  induction hs with
  | here hm hs => exact h (List.mem_singleton.mp hm ▸ hs)
  | child _ _ _ ih => exact ih

/-- From a node that is shown it is seen itself, and what is seen from its children. -/
theorem sees_single (hk : t.kind? n = some k) (hs : t.Visible hidden n) (d : Nat) :
    t.Sees hidden [n] m d ↔ m = n ∧ d = 0 ∨ ∃ e, d = e + 1 ∧ t.Sees hidden k.children m e := by
  constructor
  · intro h
    induction h with
    | here hm _ => exact .inl ⟨List.mem_singleton.mp hm, rfl⟩
    | @child p m d _ hc hm ih =>
      rcases ih with ⟨rfl, rfl⟩ | ⟨e, rfl, he⟩
      · obtain ⟨k', hk', hmem⟩ := (t.isChild_iff p m).mp hc
        obtain rfl : k = k' := Option.some.inj (hk.symm.trans hk')
        exact .inr ⟨0, rfl, .here hmem hm⟩
      · exact .inr ⟨e + 1, rfl, .child he hc hm⟩
  · rintro (⟨rfl, rfl⟩ | ⟨e, rfl, he⟩)
    · exact .here (List.mem_singleton_self m) hs
    · induction he with
      | here hm hshown =>
        exact .child (.here (List.mem_singleton_self n) hs) ((t.isChild_iff n _).mpr ⟨k, hk, hm⟩)
          hshown
      | child _ hc hm ih => exact .child ih hc hm

/-! ## Depth -/

/-- Something is seen from the nodes, which stand at the given depth, that is not above the
limit. -/
def Deep (t : Tree) (hidden : List NodeType) (limit depth : Nat) (ns : List NodeId) : Prop :=
  ∃ n d, t.Sees hidden ns n d ∧ limit ≤ depth + d

section Deep

variable {limit depth : Nat}

theorem not_deep_nil : ¬ t.Deep hidden limit depth [] := by
  rintro ⟨n, d, h, -⟩
  exact not_sees_nil d h

theorem deep_append : t.Deep hidden limit depth (ns ++ ms) ↔
    t.Deep hidden limit depth ns ∨ t.Deep hidden limit depth ms := by
  simp only [Deep, sees_append, or_and_right, exists_or]

theorem deep_cons : t.Deep hidden limit depth (n :: ns) ↔
    t.Deep hidden limit depth [n] ∨ t.Deep hidden limit depth ns := by
  rw [← deep_append, List.singleton_append]

theorem not_deep_of_hidden (h : ¬ t.Visible hidden n) : ¬ t.Deep hidden limit depth [n] := by
  rintro ⟨m, d, hs, -⟩
  exact not_sees_of_hidden h d hs

theorem deep_single (hk : t.kind? n = some k) (hs : t.Visible hidden n) :
    t.Deep hidden limit depth [n] ↔
      limit ≤ depth ∨ t.Deep hidden limit (depth + 1) k.children := by
  constructor
  · rintro ⟨m, d, h, hle⟩
    rcases (sees_single hk hs d).mp h with ⟨-, rfl⟩ | ⟨e, rfl, he⟩
    · exact .inl hle
    · exact .inr ⟨m, e, he, by omega⟩
  · rintro (hle | ⟨m, e, he, hle⟩)
    · exact ⟨n, 0, .here (List.mem_singleton_self n) hs, hle⟩
    · exact ⟨m, e + 1, (sees_single hk hs _).mpr (.inr ⟨e, rfl, he⟩), by omega⟩

end Deep

/-! ## Tours -/

/-- The walk over nodes side by side. A node that is shown is entered, then its children are
walked, then it is left. -/
inductive Tours (t : Tree) (hidden : List NodeType) :
    List NodeId → List (Phase × NodeId) → Prop
  | nil : Tours t hidden [] []
  | pass {n : NodeId} {ns : List NodeId} {tour : List (Phase × NodeId)} :
      ¬ t.Visible hidden n → Tours t hidden ns tour → Tours t hidden (n :: ns) tour
  | visit {n : NodeId} {k : NodeKind} {ns : List NodeId} {inner tour : List (Phase × NodeId)} :
      t.kind? n = some k → t.Visible hidden n → Tours t hidden k.children inner →
      Tours t hidden ns tour →
      Tours t hidden (n :: ns) ((.enter, n) :: inner ++ (.exit, n) :: tour)

/-- The nodes that a tour enters. -/
def entered (tour : List (Phase × NodeId)) : List NodeId :=
  (tour.filter fun e => decide (e.1 = .enter)).map Prod.snd

theorem length_entered_single : (entered ((.enter, n) :: tour ++ [(.exit, n)])).length =
    (entered tour).length + 1 := by
  simp [entered]

theorem entered_append : entered (tour ++ tour') = entered tour ++ entered tour' := by
  simp [entered]

namespace Tours

theorem append (h : t.Tours hidden ns tour) (h' : t.Tours hidden ms tour') :
    t.Tours hidden (ns ++ ms) (tour ++ tour') := by
  induction h with
  | nil => exact h'
  | pass hs _ ih => exact .pass hs ih
  | visit hk hs hin _ _ ih =>
    rw [List.append_assoc, List.cons_append]
    exact .visit hk hs hin ih

/-- The tour of one node. -/
theorem single (hk : t.kind? n = some k) (hs : t.Visible hidden n)
    (h : t.Tours hidden k.children tour) :
    t.Tours hidden [n] ((.enter, n) :: tour ++ [(.exit, n)]) := .visit hk hs h .nil

/-- There is one tour of a list of nodes. -/
theorem unique (h : t.Tours hidden ns tour) (h' : t.Tours hidden ns tour') : tour = tour' := by
  induction h generalizing tour' with
  | nil => cases h'; rfl
  | pass hs _ ih =>
    cases h' with
    | pass _ h' => exact ih h'
    | visit _ hs' => exact absurd hs' hs
  | visit hk hs _ _ ihin ih =>
    cases h' with
    | pass hs' => exact absurd hs hs'
    | visit hk' _ hin' h' =>
      obtain rfl := Option.some.inj (hk.symm.trans hk')
      rw [ihin hin', ih h']

/-- A tour enters and leaves the nodes that are seen. -/
theorem mem_iff (h : t.Tours hidden ns tour) (phase : Phase) (m : NodeId) :
    (phase, m) ∈ tour ↔ ∃ d, t.Sees hidden ns m d := by
  induction h with
  | nil => simp [not_sees_nil]
  | @pass n ns tour hs _ ih =>
    rw [ih, ← List.singleton_append]
    simp only [sees_append, not_sees_of_hidden hs, false_or]
  | @visit n k ns inner tour hk hs _ _ ihin ih =>
    have hnode : (∃ d, t.Sees hidden [n] m d) ↔ m = n ∨ ∃ d, t.Sees hidden k.children m d := by
      simp only [sees_single hk hs, exists_or]
      refine or_congr (by simp) ⟨fun ⟨_, e, _, he⟩ => ⟨e, he⟩, fun ⟨e, he⟩ => ⟨_, e, rfl, he⟩⟩
    rw [show n :: ns = [n] ++ ns from rfl]
    simp only [sees_append, exists_or, hnode, ← ihin, ← ih]
    cases phase <;> simp <;> tauto

end Tours

/-! ## Tours of a forest -/

/-- Nothing is below both nodes. -/
def Apart (t : Tree) (a b : NodeId) : Prop :=
  ∀ m, Relation.ReflTransGen t.IsChild a m → ¬ Relation.ReflTransGen t.IsChild b m

section Forest

variable {K : Set NodeId}

/-- No child is listed twice: it would stand at two positions. -/
theorem Forest.nodup_children (h : t.Forest K) (hn : n ∈ K) (hk : t.kind? n = some k) :
    k.children.Nodup := by
  have hfields : (k.fields.map Prod.fst).Nodup := by
    rw [k.map_fst_fields]
    exact k.type.nodup_visitorFields
  refine List.nodup_flatMap.mpr ⟨fun e he => ?_, ?_⟩
  · obtain ⟨f, c⟩ := e
    have hc : t.field? n f = some c := by simp [field?, hk, (k.child?_eq_some_iff f c).mpr he]
    cases c with
    | one id => exact List.nodup_singleton id
    | opt id? => cases id? <;> simp [Child.ids]
    | many ids => exact h.nodup_list hn (f := f) (by simp [list?, hc, Child.list?, Child.ids])
  · refine (List.pairwise_map.mp hfields).imp_of_mem fun {e e'} he he' hne m hm hm' => hne ?_
    obtain ⟨pos, hpos, hf, hocc⟩ := exists_position hk he hm
    obtain ⟨pos', hpos', hf', hocc'⟩ := exists_position hk he' hm'
    obtain rfl := h.single pos pos' m (Position.within_of_parent hpos hn)
      (Position.within_of_parent hpos' hn) hocc hocc'
    exact Option.some.inj (hf.symm.trans hf')

/-- Nothing is below two children of a node. -/
theorem Forest.apart_children (h : t.Forest K) (hn : n ∈ K) (hk : t.kind? n = some k) :
    k.children.Pairwise t.Apart := by
  refine (h.nodup_children hn hk).imp_of_mem fun {a b} ha hb hne m ham hbm => hne ?_
  obtain ⟨pos, hpos, hocc⟩ := (t.isChild_iff n a).mpr ⟨k, hk, ha⟩
  obtain ⟨pos', hpos', hocc'⟩ := (t.isChild_iff n b).mpr ⟨k, hk, hb⟩
  obtain rfl := h.below_disjoint hn hpos hpos' hocc hocc' ham hbm
  exact Option.some.inj (hocc.symm.trans hocc')

theorem Forest.mem_children (h : t.Forest K) (hn : n ∈ K) (hk : t.kind? n = some k) :
    ∀ c ∈ k.children, c ∈ K :=
  fun c hc => h.closed_child hn ((t.isChild_iff n c).mpr ⟨k, hk, hc⟩)

/-- A tour of nodes that have nothing below them in common has no event twice. -/
theorem Tours.nodup (h : t.Tours hidden ns tour) (hF : t.Forest K) (hns : ∀ n ∈ ns, n ∈ K)
    (hapart : ns.Pairwise t.Apart) : tour.Nodup := by
  have hreaches : ∀ {ns tour} (_ : t.Tours hidden ns tour) (e : Phase × NodeId), e ∈ tour →
      ∃ m ∈ ns, Relation.ReflTransGen t.IsChild m e.2 := by
    intro ns tour h e he
    obtain ⟨d, hd⟩ := (h.mem_iff e.1 e.2).mp he
    exact hd.reaches
  induction h with
  | nil => exact List.nodup_nil
  | pass _ _ ih => exact ih (fun m hm => hns m (by simp [hm])) (List.pairwise_cons.mp hapart).2
  | @visit n k ns inner tour hk hs hin htour ihin ih =>
    have hn := hns n (by simp)
    obtain ⟨hfirst, hrest⟩ := List.pairwise_cons.mp hapart
    -- The events of the children are of nodes strictly below the node.
    have hinner : ∀ e ∈ inner, Relation.TransGen t.IsChild n e.2 := by
      intro e he
      obtain ⟨c, hc, hr⟩ := hreaches hin e he
      exact .head' ((t.isChild_iff n c).mpr ⟨k, hk, hc⟩) hr
    have hself : ∀ phase, (phase, n) ∉ inner := fun phase he => hF.acyclic n hn (hinner _ he)
    -- Those of the other nodes are not below it.
    have hlater : ∀ e ∈ tour, ¬ Relation.ReflTransGen t.IsChild n e.2 := by
      intro e he hne
      obtain ⟨m, hm, hr⟩ := hreaches htour e he
      exact hfirst m hm e.2 hne hr
    have htail : ((.exit, n) :: tour).Nodup := List.nodup_cons.mpr
      ⟨fun he => hlater _ he .refl, ih (fun m hm => hns m (by simp [hm])) hrest⟩
    refine List.nodup_append.mpr ⟨List.nodup_cons.mpr ⟨hself .enter, ?_⟩, htail, ?_⟩
    · exact ihin (hF.mem_children hn hk) (hF.apart_children hn hk)
    · rintro e he e' he' rfl
      rcases List.mem_cons.mp he with rfl | he
      · rcases List.mem_cons.mp he' with he' | he'
        · cases he'
        · exact hlater _ he' .refl
      · rcases List.mem_cons.mp he' with rfl | he'
        · exact hself .exit he
        · exact hlater e he' (hinner e he).to_reflTransGen

end Forest

/-! ## How many nodes are below -/

/-- There are no more than so many nodes at and below a node. -/
def Fits (t : Tree) (N : Nat) (n : NodeId) : Prop :=
  ∀ l : List NodeId, l.Nodup → (∀ m ∈ l, Relation.ReflTransGen t.IsChild n m) → l.length ≤ N

section Fits

variable {K : Set NodeId} {N : Nat}

theorem Fits.pos (h : t.Fits N n) : 0 < N :=
  h [n] (List.nodup_singleton n) fun _ hm => List.mem_singleton.mp hm ▸ .refl

/-- The node itself and the children before a child are not below that child. -/
theorem Fits.child (h : t.Fits N n) (hF : t.Forest K) (hn : n ∈ K) (hk : t.kind? n = some k)
    (front : List NodeId) {rest : List NodeId} {c : NodeId}
    (hsub : (front ++ c :: rest).Sublist k.children) :
    t.Fits (N - 1 - front.length) c := by
  intro l hl hbelow
  have hchild : ∀ a ∈ front ++ c :: rest, t.IsChild n a := fun a ha =>
    (t.isChild_iff n a).mpr ⟨k, hk, hsub.subset ha⟩
  have hcn : ∀ a ∈ front ++ c :: rest, ¬ Relation.ReflTransGen t.IsChild a n := fun a ha han =>
    hF.acyclic n hn (.head' (hchild a ha) han)
  obtain ⟨hfront, -, hapart⟩ := List.pairwise_append.mp ((hF.apart_children hn hk).sublist hsub)
  have hnodup : (n :: (front ++ l)).Nodup := by
    have hfl : (front ++ l).Nodup := by
      refine List.nodup_append.mpr ⟨?_, hl, ?_⟩
      · exact (List.nodup_append.mp ((hF.nodup_children hn hk).sublist hsub)).1
      · rintro a ha b hb rfl
        exact hapart a ha c (by simp) a .refl (hbelow a hb)
    refine List.nodup_cons.mpr ⟨fun hmem => ?_, hfl⟩
    rcases List.mem_append.mp hmem with hmem | hmem
    · exact hcn n (by simp [hmem]) .refl
    · exact hcn c (by simp) (hbelow n hmem)
  have hlen := h _ hnodup fun m hm => by
    rcases List.mem_cons.mp hm with rfl | hm
    · exact .refl
    · rcases List.mem_append.mp hm with hm | hm
      · exact .single (hchild m (by simp [hm]))
      · exact .head (hchild c (by simp)) (hbelow m hm)
  simp only [List.length_cons, List.length_append] at hlen
  omega

/-- A node has fewer children than nodes at and below it. -/
theorem Fits.length_children (h : t.Fits N n) (hF : t.Forest K) (hn : n ∈ K)
    (hk : t.kind? n = some k) : k.children.length < N := by
  have hchild : ∀ a ∈ k.children, t.IsChild n a := fun a ha =>
    (t.isChild_iff n a).mpr ⟨k, hk, ha⟩
  refine h (n :: k.children) (List.nodup_cons.mpr ⟨fun hmem => ?_, hF.nodup_children hn hk⟩)
    fun m hm => ?_
  · exact hF.acyclic n hn (.single (hchild n hmem))
  · rcases List.mem_cons.mp hm with rfl | hm
    · exact .refl
    · exact .single (hchild m hm)

theorem Forest.fits (hF : t.Forest K) (hn : n ∈ K) : t.Fits t.size n := fun _ hl hbelow =>
  hF.length_le_size (fun m hm => hF.closed_below hn (hbelow m hm)) hl

end Fits

/-- Nothing in a program tree is deeper than the number of its nodes. -/
theorem IsProgram.sees_lt_size (h : t.IsProgram) {d : Nat} (hs : t.Sees hidden t.root.toList n d) :
    d < t.size :=
  hs.depth_lt fun _ hm => h.forest.depthWithin (.root (Option.mem_toList.mp hm))

/-- A tour from the root enters as many nodes as are seen. -/
theorem IsProgram.entered_length (h : t.IsProgram) (ht : t.Tours hidden t.root.toList tour) :
    tour.Nodup ∧ (entered tour).length = (t.seen hidden).ncard := by
  have hnodup : tour.Nodup := by
    refine ht.nodup h.forest (fun n hn => ?_) ?_
    · exact .root (Option.mem_toList.mp hn)
    · obtain ⟨r, hr, -⟩ := h.root
      rw [hr]
      exact List.pairwise_singleton _ r
  refine ⟨hnodup, ?_⟩
  have hentered : (entered tour).Nodup := by
    refine (hnodup.filter _).map_on ?_
    rintro ⟨phase, n⟩ he ⟨phase', n'⟩ he' hn
    simp only [List.mem_filter, decide_eq_true_eq] at he he'
    exact Prod.ext (he.2.trans he'.2.symm) hn
  have hseen : t.seen hidden = ((entered tour).toFinset : Set NodeId) := by
    ext n
    simp [seen, entered, ← ht.mem_iff .enter n]
  rw [hseen, Set.ncard_coe_finset, List.toFinset_card_of_nodup hentered]

end Tree

end Espalier
