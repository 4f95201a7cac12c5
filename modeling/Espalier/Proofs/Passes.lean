import Espalier.Proofs.Editing
import Espalier.Proofs.WalkUpkeep
import Mathlib

set_option autoImplicit false

/-! # Walking a list that changes

While an element of a list is visited, handlers may edit the list. A `Pass` is a walk over a list in
which every visit does nothing else to the session than edit this list, navigate and take notes. No
node is visited twice in it, and a node that comes to stand behind the element being visited is not
passed over, as long as no visit removes both its element and an element before it
(`visitList_misses_none`). A visit that does so moves the list under the cursor, and an element is
passed over (`shrinkingProgram_misses`). -/

namespace Espalier

open SessionM Session

/-! ## The order of a list -/

/-- The first node comes before the second one in the list. -/
def Ahead (ids : List NodeId) (x y : NodeId) : Prop := [x, y].Sublist ids

section Ahead

variable {ids : List NodeId} {x y n : NodeId}

theorem ahead_iff : Ahead ids x y ↔ ∃ i j : Nat, i < j ∧ ids[i]? = some x ∧ ids[j]? = some y := by
  constructor
  · intro h
    obtain ⟨front, rest, rfl, hx, hy⟩ := List.cons_sublist_iff.mp h
    obtain ⟨i, hi⟩ := List.mem_iff_getElem?.mp hx
    obtain ⟨j, hj⟩ := List.mem_iff_getElem?.mp (List.singleton_sublist.mp hy)
    have hlt := (List.getElem?_eq_some_iff.mp hi).1
    refine ⟨i, front.length + j, by omega, ?_, ?_⟩
    · rw [List.getElem?_append_left hlt, hi]
    · rw [List.getElem?_append_right (by omega), Nat.add_sub_cancel_left, hj]
  · rintro ⟨i, j, hij, hi, hj⟩
    refine List.cons_sublist_iff.mpr ⟨ids.take (i + 1), ids.drop (i + 1),
      (List.take_append_drop _ _).symm, ?_, List.singleton_sublist.mpr ?_⟩
    · exact List.mem_of_getElem? ((List.getElem?_take_of_lt (Nat.lt_succ_self i)).trans hi)
    · refine List.mem_of_getElem? (i := j - (i + 1)) ?_
      rw [List.getElem?_drop, Nat.add_sub_cancel' hij, hj]

theorem Ahead.mem_left (h : Ahead ids x y) : x ∈ ids := h.subset (by simp)

theorem Ahead.mem_right (h : Ahead ids x y) : y ∈ ids := h.subset (by simp)

theorem Ahead.lt (h : Ahead ids x y) (hnodup : ids.Nodup) {i j : Nat} (hi : ids[i]? = some x)
    (hj : ids[j]? = some y) : i < j := by
  obtain ⟨i', j', hlt, hi', hj'⟩ := ahead_iff.mp h
  rwa [index_unique hnodup hi hi', index_unique hnodup hj hj']

/-- Elements that all come before another one are no more than its index. -/
theorem length_le_of_ahead {front : List NodeId} (hnodup : ids.Nodup) (hfront : front.Nodup)
    {j : Nat} (hj : ids[j]? = some y) (h : ∀ a ∈ front, Ahead ids a y) : front.length ≤ j := by
  have hsub : front ⊆ ids.take j := by
    intro a ha
    obtain ⟨i, hi⟩ := List.mem_iff_getElem?.mp (h a ha).mem_left
    have hlt := (h a ha).lt hnodup hi hj
    exact List.mem_of_getElem? ((List.getElem?_take_of_lt hlt).trans hi)
  exact (hfront.subperm hsub).length_le.trans (List.length_take_le _ _)

/-- What stands for the first element comes before what stands for the second one. -/
theorem Ahead.flatMap (h : Ahead ids x y) {g : NodeId → List NodeId} {a b : NodeId} (ha : a ∈ g x)
    (hb : b ∈ g y) : Ahead (ids.flatMap g) a b := by
  have hpair : ([x, y].flatMap g).Sublist (ids.flatMap g) := List.Sublist.flatMap h g
  refine List.Sublist.trans ?_ hpair
  rw [List.flatMap_cons, List.flatMap_cons, List.flatMap_nil, List.append_nil]
  exact (List.singleton_sublist.mpr ha).append (List.singleton_sublist.mpr hb)

/-- Other nodes in the place of one element leave the order as it is. -/
theorem Ahead.substitute (h : Ahead ids x y) {new : List NodeId} {a b : NodeId}
    (ha : if x = n then a ∈ new else a = x) (hb : if y = n then b ∈ new else b = y) :
    Ahead (substitute n new ids) a b := by
  have hmem : ∀ z c, (if z = n then c ∈ new else c = z) → c ∈ if z = n then new else [z] := by
    intro z c hc
    by_cases hz : z = n
    · rwa [if_pos hz] at hc ⊢
    · rw [if_neg hz] at hc ⊢
      exact List.mem_singleton.mpr hc
  exact h.flatMap (hmem x a ha) (hmem y b hb)

end Ahead

/-- The nodes that stand in the place of the element after an edit. -/
def ElementEdit.image (n : NodeId) : ElementEdit → List NodeId
  | .insertBefore nodes => nodes ++ [n]
  | .insertAfter nodes => n :: nodes
  | .replaceMany nodes => nodes
  | .replace node => [node]
  | .remove => []

theorem ElementEdit.apply_eq (e : ElementEdit) (n : NodeId) (ids : List NodeId) :
    e.apply n ids = substitute n (e.image n) ids := by
  cases e <;> rfl

/-- An edit does not change the order of the elements that stay. -/
theorem ElementEdit.ahead_apply (e : ElementEdit) {ids : List NodeId} {n x y : NodeId}
    (h : Ahead ids x y) (hx : x ∈ e.apply n ids) (hy : y ∈ e.apply n ids) :
    Ahead (e.apply n ids) x y := by
  rw [e.apply_eq] at hx hy ⊢
  -- The element itself is in the list only if it is one of the nodes in its place.
  have hstays : ∀ z, z ∈ substitute n (e.image n) ids → if z = n then z ∈ e.image n else z = z := by
    intro z hz
    split
    · next hzn =>
      obtain ⟨a, -, ha⟩ := List.mem_flatMap.mp hz
      split at ha
      · exact ha
      · next han => exact absurd ((List.mem_singleton.mp ha).symm.trans hzn) han
    · rfl
  exact h.substitute (hstays x hx) (hstays y hy)

/-! ## What happens during a visit -/

/-- The data of a path without what a walk notes there. -/
def PathData.lasting (d : PathData) : PathData :=
  { d with skip := false, stop := false, frame := none, requeues := 0 }

namespace Session

/-- Nothing has changed but what a walk notes: the flags of the paths, and the paths in wait. -/
structure Noted (s s' : Session) : Prop where
  rest : s' = { s with
    paths := s'.paths, frames := s'.frames, nextFrame := s'.nextFrame, stopping := s'.stopping }
  paths : s'.paths.map PathData.lasting = s.paths.map PathData.lasting

section Noted

variable {s s' : Session} {K : Set NodeId} {host : PathId} {owner : NodeId} {f : Field}
  {ids : List NodeId}

theorem Noted.lasting (h : s.Noted s') (p : PathId) :
    (s'.paths[p.index]?).map PathData.lasting = (s.paths[p.index]?).map PathData.lasting := by
  rw [← Array.getElem?_map, h.paths, Array.getElem?_map]

theorem Noted.alike (h : s.Noted s') : s.Alike s' where
  tree := by rw [h.rest]; exact .refl _
  cache := by rw [h.rest]
  detached := by rw [h.rest]
  paths p := by
    have hplace : PathData.place = PathData.place ∘ PathData.lasting := rfl
    rw [hplace, ← Option.map_map, ← Option.map_map, h.lasting p]

theorem Hosts.noted (h : s.Hosts K host owner f ids) (hn : s.Noted s') :
    s'.Hosts K host owner f ids := by
  have htree : s'.tree = s.tree := by rw [hn.rest]
  have hsound : s'.Sound K := by
    refine hn.alike.sound h.orderly.sound fun p d d' hd hd' _ => .inl ?_
    have hlasting := hn.lasting p
    rw [hd, hd'] at hlasting
    rw [Option.map_some, Option.map_some] at hlasting
    have hsame : d'.lasting = d.lasting := Option.some.inj hlasting
    have hparent : d'.lasting.parent = d.lasting.parent := by rw [hsame]
    exact hparent
  refine ⟨⟨hsound, ?_, ?_⟩, hn.alike.holds h.holds, ?_, ?_⟩
  · rw [hn.rest]
    exact h.orderly.ordered
  · rw [htree]
    exact h.orderly.program
  · rw [htree]
    exact h.reachable
  · rw [htree]
    exact h.list

end Noted

end Session

/-- A session with the list that is being walked: the nodes that are or were in the tree, and the
elements of the list. -/
structure Listing where
  session : Session
  used : Set NodeId
  ids : List NodeId

namespace Listing

/-- The list is that of the node at the path. -/
def IsAt (l : Listing) (host : PathId) (owner : NodeId) (f : Field) : Prop :=
  l.session.Hosts l.used host owner f l.ids

/-- What a visit does: it takes notes, it navigates and looks up names, and it edits the list, be it
through the path of an element or through that of the node around the list. Only nodes that were
never in the tree come into it. -/
inductive Act (host : PathId) (owner : NodeId) (f : Field) : Listing → Listing → Prop
  | note {l : Listing} {s : Session} : l.session.Noted s →
      Act host owner f l { l with session := s }
  | survey {l : Listing} {s : Session} : l.session.Surveys l.used s →
      Act host owner f l { l with session := s }
  | edit {l : Listing} {p : PathId} {n : NodeId} {e : ElementEdit} {ps : List PathId}
      {s : Session} : l.session.Holds p n → n ∈ l.ids → l.session.tree.Loose l.used e.nodes →
      e.Fits l.session.tree owner n l.ids → e.run p l.session = .ok ps s →
      Act host owner f l ⟨s, l.used ∪ l.session.tree.below e.nodes, e.apply n l.ids⟩
  | push {l : Listing} {nodes : List NodeId} {ps : List PathId} {s : Session} :
      l.session.tree.Loose l.used nodes → host.pushInto f nodes l.session = .ok ps s →
      Act host owner f l ⟨s, l.used ∪ l.session.tree.below nodes, l.ids ++ nodes⟩
  | unshift {l : Listing} {nodes : List NodeId} {ps : List PathId} {s : Session} :
      l.session.tree.Loose l.used nodes → host.unshiftInto f nodes l.session = .ok ps s →
      Act host owner f l ⟨s, l.used ∪ l.session.tree.below nodes, nodes ++ l.ids⟩

/-- Any number of acts. -/
def Acts (host : PathId) (owner : NodeId) (f : Field) : Listing → Listing → Prop :=
  Relation.ReflTransGen (Act host owner f)

/-- What stays through all acts. A node that left the list does not come back, the elements that
stay keep their order, and a path of an element is removed for good or holds what stands in the
place of the element. -/
structure Keeps (p : PathId) (l l' : Listing) : Prop where
  used : l.used ⊆ l'.used
  old : ∀ x ∈ l'.ids, x ∈ l.used → x ∈ l.ids
  order : ∀ x ∈ l'.ids, ∀ y ∈ l'.ids, Ahead l.ids x y → Ahead l'.ids x y
  gone : l.session.Gone p → l'.session.Gone p
  held : ∀ c, l.session.Holds p c → c ∈ l.ids → l'.session.Gone p ∨
    ∃ c', l'.session.Holds p c' ∧ c' ∈ l'.ids ∧ ∀ x ∈ l'.ids,
      (Ahead l.ids x c → Ahead l'.ids x c') ∧ (Ahead l.ids c x → Ahead l'.ids c' x)

section Keeps

variable {host p : PathId} {owner : NodeId} {f : Field} {l l₁ l' : Listing}

theorem IsAt.mem_used (h : l.IsAt host owner f) {x : NodeId} (hx : x ∈ l.ids) : x ∈ l.used :=
  h.orderly.sound.forest.mem_list h.mem_forest h.list hx

theorem Keeps.quiet {s : Session} (hholds : ∀ n, l.session.Holds p n → s.Holds p n)
    (hgone : l.session.Gone p → s.Gone p) : Keeps p l { l with session := s } where
  used := subset_rfl
  old _ hx _ := hx
  order _ _ _ _ h := h
  gone := hgone
  held c hc hmem := .inr ⟨c, hholds c hc, hmem, fun _ _ => ⟨id, id⟩⟩

theorem Keeps.refl : Keeps p l l := .quiet (fun _ h => h) id

theorem Keeps.trans (h : Keeps p l l₁) (h' : Keeps p l₁ l') (hl : l.IsAt host owner f) :
    Keeps p l l' where
  used := h.used.trans h'.used
  old x hx hu := h.old x (h'.old x hx (h.used hu)) hu
  order x hx y hy hxy :=
    h'.order x hx y hy (h.order x (h'.old x hx (h.used (hl.mem_used hxy.mem_left)))
      y (h'.old y hy (h.used (hl.mem_used hxy.mem_right))) hxy)
  gone hg := h'.gone (h.gone hg)
  held c hc hmem := by
    rcases h.held c hc hmem with hg | ⟨c₁, hc₁, hmem₁, horder⟩
    · exact .inl (h'.gone hg)
    · rcases h'.held c₁ hc₁ hmem₁ with hg | ⟨c', hc', hmem', horder'⟩
      · exact .inl hg
      · refine .inr ⟨c', hc', hmem', fun x hx => ⟨fun hxc => ?_, fun hcx => ?_⟩⟩
        · have hx₁ := h'.old x hx (h.used (hl.mem_used hxc.mem_left))
          exact (horder' x hx).1 ((horder x hx₁).1 hxc)
        · have hx₁ := h'.old x hx (h.used (hl.mem_used hcx.mem_right))
          exact (horder' x hx).2 ((horder x hx₁).2 hcx)

/-- An edit that brings only fresh nodes into the list and leaves the order of the others. -/
theorem Keeps.edited {K : Set NodeId} {ids : List NodeId} {s : Session} (hl : l.IsAt host owner f)
    (he : l.session.Edited (l.used ∪ K) owner f l.ids ids s)
    (hold : ∀ x ∈ ids, x ∈ l.used → x ∈ l.ids)
    (horder : ∀ x ∈ ids, ∀ y ∈ ids, Ahead l.ids x y → Ahead ids x y) :
    Keeps p l ⟨s, l.used ∪ K, ids⟩ where
  used := Set.subset_union_left
  old := hold
  order := horder
  gone := he.gone p
  held c hc hmem := by
    by_cases hin : c ∈ ids
    · exact .inr ⟨c, he.keeps p c hc fun _ => hin, hin, fun x hx =>
        ⟨horder x hx c hin, horder c hin x hx⟩⟩
    · rcases he.fate p c hc hmem hin with hg | ⟨i, m, hi, hids, hm⟩
      · exact .inl hg
      · have hset : ids = substitute c [m] l.ids := by
          rw [hids, substitute_eq hl.nodup hi, List.set_eq_take_append_cons_drop,
            if_pos (List.getElem?_eq_some_iff.mp hi).1, List.append_assoc, List.singleton_append]
        have hmids : m ∈ ids := by
          rw [hset, substitute_eq hl.nodup hi]
          simp
        refine .inr ⟨m, hm, hmids, fun x hx => ?_⟩
        have hxc : x ≠ c := fun h => hin (h ▸ hx)
        dsimp only
        rw [hset]
        exact ⟨fun h => h.substitute (by simp [hxc]) (by simp),
          fun h => h.substitute (by simp) (by simp [hxc])⟩

/-- One act. -/
theorem Act.keeps (h : Act host owner f l l') (hl : l.IsAt host owner f) :
    l'.IsAt host owner f ∧ ∀ p, Keeps p l l' := by
  cases h with
  | note hn => exact ⟨Hosts.noted hl hn, fun p => .quiet (fun _ => hn.alike.holds) hn.alike.gone⟩
  | survey hs =>
    exact ⟨Hosts.surveys hl hs,
      fun p => .quiet (fun _ => hs.grew.holds hl.orderly.sound) hs.grew.gone⟩
  | @edit q n e ps s hq hn hloose hfits hrun =>
    have he := ((e.run_edited hl hq hn hloose hfits).of_eq_ok hrun).1
    refine ⟨Hosts.edited hl he, fun p => .edited hl he (fun x hx hu => ?_) fun x hx y hy h => ?_⟩
    · exact (e.mem_apply hn hx).resolve_right fun hnew => hloose.not_mem hnew hu
    · exact e.ahead_apply h hx hy
  | @push nodes ps s hloose hrun =>
    have he := ((PathId.pushInto_returns hl hloose).of_eq_ok hrun).1
    refine ⟨Hosts.edited hl he, fun p => .edited hl he (fun x hx hu => ?_) fun x _ y _ h => ?_⟩
    · exact (List.mem_append.mp hx).resolve_right fun hnew => hloose.not_mem hnew hu
    · exact List.Sublist.trans h (List.sublist_append_left _ _)
  | @unshift nodes ps s hloose hrun =>
    have he := ((PathId.unshiftInto_returns hl hloose).of_eq_ok hrun).1
    refine ⟨Hosts.edited hl he, fun p => .edited hl he (fun x hx hu => ?_) fun x _ y _ h => ?_⟩
    · exact (List.mem_append.mp hx).resolve_left fun hnew => hloose.not_mem hnew hu
    · exact List.Sublist.trans h (List.sublist_append_right _ _)

/-- Any number of acts. -/
theorem Acts.keeps (h : Acts host owner f l l') (hl : l.IsAt host owner f) :
    l'.IsAt host owner f ∧ ∀ p, Keeps p l l' := by
  induction h with
  | refl => exact ⟨hl, fun p => .refl⟩
  | tail _ hact ih =>
    obtain ⟨hl', hkeeps⟩ := hact.keeps ih.1
    exact ⟨hl', fun p => (ih.2 p).trans (hkeeps p) hl⟩

end Keeps

end Listing

open Listing

/-! ## One visit -/

/-- Where the walk goes on after the visit of a path that had the index `i`. -/
def PathData.cursor (d : PathData) (i : Nat) : Nat :=
  match d.removed, d.key with
  | false, .index j => j + 1
  | _, _ => i

/-- The visit of an element: its path, the node and the index it had, and the list before and after
the visit. -/
structure Visit where
  path : PathId
  node : NodeId
  index : Nat
  before : Listing
  after : Listing

namespace Visit

/-- If the visit removed its own element, it removed none of those before it. -/
def SparesFront (x : Visit) : Prop :=
  x.after.session.Gone x.path → ∀ m ∈ x.before.ids.take x.index, m ∈ x.after.ids

/-- The node stood behind the element being visited at some moment of the visit. -/
def HadBehind (host : PathId) (owner : NodeId) (f : Field) (x : Visit) (m : NodeId) : Prop :=
  ∃ l : Listing, Acts host owner f x.before l ∧ Acts host owner f l x.after ∧
    ∃ c, l.session.Holds x.path c ∧ Ahead l.ids c m

variable {x : Visit} {host : PathId} {owner m : NodeId} {f : Field} {d : PathData}

/-- What stood behind the element being visited and is still in the list is not before the
cursor after the visit. -/
theorem cursor_le (hl : x.before.IsAt host owner f) (hi : x.before.ids[x.index]? = some x.node)
    (hp : x.before.session.Holds x.path x.node)
    (hd : x.after.session.paths[x.path.index]? = some d) (hspares : x.SparesFront)
    (hm : x.HadBehind host owner f m) (hmem : m ∈ x.after.ids) :
    ∃ j, d.cursor x.index ≤ j ∧ x.after.ids[j]? = some m := by
  obtain ⟨l, hbefore, hafter, c, hc, hcm⟩ := hm
  obtain ⟨hl₁, hkeeps⟩ := hbefore.keeps hl
  obtain ⟨hl', hkeeps'⟩ := hafter.keeps hl₁
  obtain ⟨j, hj⟩ := List.mem_iff_getElem?.mp hmem
  refine ⟨j, ?_, hj⟩
  rcases (hkeeps' x.path).held c hc hcm.mem_left with hgone | ⟨c', hc', hmem', horder⟩
  · -- The cursor stays, and all elements that were before it come before the node.
    obtain ⟨e, he, hremoved, -⟩ := id hgone
    obtain rfl : e = d := Option.some.inj (he.symm.trans hd)
    have hlt := (List.getElem?_eq_some_iff.mp hi).1
    have hcursor : e.cursor x.index = (x.before.ids.take x.index).length := by
      rw [List.length_take_of_le (Nat.le_of_lt hlt)]
      simp [PathData.cursor, hremoved]
    rw [hcursor]
    refine length_le_of_ahead hl'.nodup (hl.nodup.sublist (List.take_sublist _ _)) hj fun a ha => ?_
    have hkept : a ∈ x.after.ids := hspares hgone a ha
    have hab : a ∈ x.before.ids := List.mem_of_mem_take ha
    have hal : a ∈ l.ids :=
      (hkeeps' x.path).old a hkept ((hkeeps x.path).used (hl.mem_used hab))
    have hahead : Ahead x.before.ids a x.node := by
      obtain ⟨i, hi'⟩ := List.mem_iff_getElem?.mp ha
      obtain ⟨hil, -⟩ := List.getElem?_eq_some_iff.mp hi'
      rw [List.length_take] at hil
      rw [List.getElem?_take_of_lt (by omega)] at hi'
      exact ahead_iff.mpr ⟨i, x.index, by omega, hi', hi⟩
    -- At the moment in question they come before the element being visited.
    have hac : Ahead l.ids a c := by
      rcases (hkeeps x.path).held x.node hp hahead.mem_right with hg | ⟨c₁, hc₁, -, horder₁⟩
      · obtain ⟨e₁, he₁, hremoved₁, -⟩ := hg
        obtain ⟨_, e₂, -, hf, -⟩ := hl₁.orderly.sound.files_of_holds hc
        obtain rfl := Option.some.inj (he₁.symm.trans hf.data)
        exact absurd (hf.live.symm.trans hremoved₁) Bool.false_ne_true
      · obtain rfl := hc₁.unique_node hc
        exact (horder₁ a hal).1 hahead
    obtain ⟨ia, hia⟩ := List.mem_iff_getElem?.mp hal
    obtain ⟨ic, hic⟩ := List.mem_iff_getElem?.mp hac.mem_right
    obtain ⟨im, him⟩ := List.mem_iff_getElem?.mp hcm.mem_right
    have h₁ := hac.lt hl₁.nodup hia hic
    have h₂ := hcm.lt hl₁.nodup hic him
    exact (hkeeps' x.path).order a hkept m hmem (ahead_iff.mpr ⟨ia, im, by omega, hia, him⟩)
  · -- The cursor is behind what stands in the place of the element.
    obtain ⟨i', e, hst⟩ := Hosts.stands hl' hc' hmem'
    obtain rfl := Option.some.inj (hst.files.data.symm.trans hd)
    have hcursor : e.cursor x.index = i' + 1 := by
      have hkey : e.key = .index i' := hst.files.key
      simp [PathData.cursor, hst.files.live, hkey]
    rw [hcursor]
    exact ((horder m hmem).2 hcm).lt hl'.nodup hst.index hj

end Visit

/-! ## The whole walk -/

namespace Walk

variable {σ : Type}

/-- A walk over a list from index `i` on that ends at the end of the list, and in which each visit
does nothing but what it may do. It is given by its visits. -/
inductive Pass (v : Visitor σ) (depth : Nat) (host : PathId) (owner : NodeId) (f : Field) :
    Nat → List NodeId → Nat → Walk σ → Set NodeId → List NodeId → List Visit → Walk σ →
      List NodeId → Prop
  | done {fuel i : Nat} {seen ids : List NodeId} {w : Walk σ} {used : Set NodeId} :
      ids.length ≤ i → Pass v depth host owner f (fuel + 1) seen i w used ids [] w ids
  | skip {fuel i : Nat} {seen ids ids' : List NodeId} {w w' : Walk σ} {used : Set NodeId}
      {visits : List Visit} {p : PathId} {node : NodeId} {s : Session} :
      ids[i]? = some node → host.element f i w.session = .ok p s → node ∈ seen →
      Pass v depth host owner f fuel seen (i + 1) { w with session := s } used ids visits w' ids' →
      Pass v depth host owner f (fuel + 1) seen i w used ids visits w' ids'
  | visit {fuel i : Nat} {seen ids ids₂ ids' : List NodeId} {w w₁ w₂ w' : Walk σ}
      {used used₂ : Set NodeId} {visits : List Visit} {p : PathId} {node : NodeId} {s : Session}
      {d : PathData} :
      ids[i]? = some node → host.element f i w.session = .ok p s → node ∉ seen →
      visit v fuel depth p false { w with session := s } = .ok false w₁ →
      drain v fuel depth w₁ = .ok false w₂ →
      Acts host owner f ⟨s, used, ids⟩ ⟨w₂.session, used₂, ids₂⟩ →
      w₂.session.paths[p.index]? = some d →
      Pass v depth host owner f fuel (node :: seen) (d.cursor i) w₂ used₂ ids₂ visits w' ids' →
      Pass v depth host owner f (fuel + 1) seen i w used ids
        (⟨p, node, i, ⟨s, used, ids⟩, ⟨w₂.session, used₂, ids₂⟩⟩ :: visits) w' ids'

section Pass

variable {v : Visitor σ} {depth fuel i : Nat} {host : PathId} {owner : NodeId} {f : Field}
  {seen ids ids' : List NodeId} {w w' : Walk σ} {used : Set NodeId} {visits : List Visit}

/-- Going to an element of the list. -/
theorem hosts_of_element {p : PathId} {s : Session} {node : NodeId}
    (hw : w.session.Hosts used host owner f ids) (hi : ids[i]? = some node)
    (hrun : host.element f i w.session = .ok p s) :
    s.Hosts used host owner f ids ∧ s.Holds p node := by
  obtain ⟨k, hk, hc⟩ := hw.child
  have hfield : w.session.tree.field? owner f = some (.many ids) := by simp [Tree.field?, hk, hc]
  have hreaches := (PathId.element_returns hw.orderly.sound hw.holds hfield i).of_eq_ok hrun
  have hs := hw.surveys (hreaches.toWent.surveys hw.orderly.ordered)
  obtain ⟨d, hf, -⟩ := hreaches.files
  exact ⟨hs, hf.holds (by simp [Tree.occupant?, hs.list, hi])⟩

/-- No node is visited twice. -/
theorem Pass.nodup (h : Pass v depth host owner f fuel seen i w used ids visits w' ids') :
    (visits.map Visit.node).Nodup ∧ ∀ n ∈ visits.map Visit.node, n ∉ seen := by
  induction h with
  | done => simp
  | skip _ _ _ _ ih => exact ih
  | visit _ _ hnew _ _ _ _ _ ih =>
    rw [List.map_cons, List.nodup_cons]
    refine ⟨⟨fun hmem => ih.2 _ hmem List.mem_cons_self, ih.1⟩, fun n hn => ?_⟩
    rcases List.mem_cons.mp hn with rfl | hn
    · exact hnew
    · exact fun hseen => ih.2 n hn (List.mem_cons_of_mem _ hseen)

/-- The list at the end is that of the session, and holds no node again that left it. -/
theorem Pass.old (h : Pass v depth host owner f fuel seen i w used ids visits w' ids')
    (hw : w.session.Hosts used host owner f ids) :
    w'.session.tree.list? owner f = some ids' ∧ ∀ x ∈ ids', x ∈ used → x ∈ ids := by
  induction h with
  | done => exact ⟨hw.list, fun x hx _ => hx⟩
  | skip hi hrun _ _ ih => exact ih (hosts_of_element hw hi hrun).1
  | @visit _ _ _ _ _ _ _ _ _ _ _ _ _ p _ _ _ hi hrun _ _ _ hacts _ _ ih =>
    obtain ⟨hl, hkeeps⟩ := hacts.keeps (hosts_of_element hw hi hrun).1
    obtain ⟨hlist, hold⟩ := ih hl
    exact ⟨hlist, fun x hx hu => (hkeeps p).old x (hold x hx ((hkeeps p).used hu)) hu⟩

/-- An element at the cursor or behind it is visited, if it is still in the list at the end. -/
theorem Pass.reaches (h : Pass v depth host owner f fuel seen i w used ids visits w' ids')
    (hw : w.session.Hosts used host owner f ids) (hspares : ∀ x ∈ visits, x.SparesFront) {j : Nat}
    {m : NodeId} (hij : i ≤ j) (hj : ids[j]? = some m) (hm : m ∈ ids') :
    m ∈ seen ∨ m ∈ visits.map Visit.node := by
  induction h generalizing j with
  | done hle =>
    have hlt := (List.getElem?_eq_some_iff.mp hj).1
    omega
  | skip hi hrun hseen _ ih =>
    rcases Nat.eq_or_lt_of_le hij with rfl | hlt
    · rw [Option.some.inj (hj.symm.trans hi)]
      exact .inl hseen
    · exact ih (hosts_of_element hw hi hrun).1 hspares hlt hj hm
  | @visit _ _ _ _ _ _ _ _ _ _ _ _ visits p node s d hi hrun _ _ _ hacts hd hpass ih =>
    rw [List.map_cons, List.mem_cons]
    rcases Nat.eq_or_lt_of_le hij with rfl | hlt
    · exact .inr (.inl (Option.some.inj (hj.symm.trans hi)))
    · -- Behind the cursor before the visit means behind the element being visited.
      obtain ⟨hl, hp⟩ := hosts_of_element hw hi hrun
      obtain ⟨hl', hkeeps⟩ := hacts.keeps hl
      have hstays := (hpass.old hl').2 m hm
        ((hkeeps p).used (Listing.IsAt.mem_used (l := ⟨s, _, _⟩) hl (List.mem_of_getElem? hj)))
      obtain ⟨j', hle, hj'⟩ := Visit.cursor_le (x := ⟨p, node, _, ⟨s, _, _⟩, ⟨_, _, _⟩⟩) hl hi hp hd
        (hspares _ List.mem_cons_self)
        ⟨_, .refl, hacts, node, hp, ahead_iff.mpr ⟨_, _, hlt, hi, hj⟩⟩ hstays
      rcases ih hl' (fun x hx => hspares x (List.mem_cons_of_mem _ hx)) hle hj' hm with hin | hin
      · rcases List.mem_cons.mp hin with hin | hin
        · exact .inr (.inl hin)
        · exact .inl hin
      · exact .inr (.inr hin)

/-- A node that stands behind the element being visited is visited later on, or was before, if it
is in the list at the end. -/
theorem Pass.reaches_behind (h : Pass v depth host owner f fuel seen i w used ids visits w' ids')
    (hw : w.session.Hosts used host owner f ids) (hspares : ∀ x ∈ visits, x.SparesFront)
    {x : Visit} (hx : x ∈ visits) {m : NodeId} (hbehind : x.HadBehind host owner f m)
    (hm : m ∈ ids') : m ∈ seen ∨ m ∈ visits.map Visit.node := by
  induction h with
  | done => cases hx
  | skip hi hrun _ _ ih => exact ih (hosts_of_element hw hi hrun).1 hspares hx hm
  | @visit _ _ seen _ _ _ _ _ _ _ _ _ visits p node s d hi hrun _ _ _ hacts hd hpass ih =>
    obtain ⟨hl, hp⟩ := hosts_of_element hw hi hrun
    obtain ⟨hl', -⟩ := hacts.keeps hl
    have hrest : ∀ x ∈ visits, x.SparesFront := fun x hx => hspares x (List.mem_cons_of_mem _ hx)
    have hlater : m ∈ node :: seen ∨ m ∈ visits.map Visit.node := by
      rcases List.mem_cons.mp hx with rfl | hx
      · -- What is in the list at the end was there all the time since it came in.
        obtain ⟨l, hbefore, hafter, c, hc, hcm⟩ := id hbehind
        obtain ⟨hl₁, -⟩ := hbefore.keeps hl
        obtain ⟨-, hkeeps⟩ := hafter.keeps hl₁
        have hstays := (hpass.old hl').2 m hm
          ((hkeeps p).used (Listing.IsAt.mem_used hl₁ hcm.mem_right))
        obtain ⟨j, hle, hj⟩ := Visit.cursor_le (x := ⟨p, node, _, ⟨s, _, _⟩, ⟨_, _, _⟩⟩) hl hi hp hd
          (hspares _ List.mem_cons_self) hbehind hstays
        exact hpass.reaches hl' hrest hle hj hm
      · exact ih hl' hrest hx hm
    rw [List.map_cons, List.mem_cons]
    rcases hlater with hin | hin
    · rcases List.mem_cons.mp hin with hin | hin
      · exact .inr (.inl hin)
      · exact .inl hin
    · exact .inr (.inr hin)

/-- Nothing is requeued where no frame is open. -/
theorem dequeue_empty (h : w.session.frames = []) : dequeue w = .ok none w := by
  unfold dequeue
  rw [run_get_bind]
  dsimp only
  rw [h]
  rfl

/-- After a visit the path of the element is in step. -/
theorem resync_visited {l l' : Listing} {p : PathId} {node : NodeId} (hl' : l'.IsAt host owner f)
    (hkeeps : l.Keeps p l') (hp : l.session.Holds p node) (hnode : node ∈ l.ids) :
    p.resync l'.session = .ok () l'.session := by
  rcases hkeeps.held node hp hnode with ⟨d, hd, hremoved, -⟩ | ⟨c, hc, hmem, -⟩
  · unfold PathId.resync
    rw [bind_of_ok (p.isRemoved_run hd), hremoved]
    rfl
  · obtain ⟨i, d, hst⟩ := Hosts.stands hl' hc hmem
    exact hst.resync_run hl'.orderly.sound

/-- A pass is what the walk over the list does. -/
theorem Pass.run (h : Pass v depth host owner f fuel seen i w used ids visits w' ids')
    (hw : w.session.Hosts used host owner f ids) :
    visitList v fuel depth host owner f seen i w = .ok false w' := by
  -- The host still holds the node around the list.
  have hhost : ∀ {w : Walk σ} {used ids}, w.session.Hosts used host owner f ids →
      (liftM host.node? : WalkM σ _) w = .ok (some owner) w ∧
        (liftM (listLength owner f) : WalkM σ _) w = .ok ids.length w := by
    intro w used ids hw
    obtain ⟨k, hk, hc⟩ := hw.child
    have hfield : w.session.tree.field? owner f = some (.many ids) := by simp [Tree.field?, hk, hc]
    exact ⟨lift_run (PathId.node?_run_of_holds hw.holds), lift_run (PathId.listLength_run hfield)⟩
  induction h with
  | done hle =>
    obtain ⟨hnode, hlength⟩ := hhost hw
    rw [visitList, bind_of_ok hnode, if_neg (by simp), bind_of_ok hlength, if_pos hle]
    rfl
  | @skip fuel i seen ids ids' w w' used visits p node s hi hrun hseen _ ih =>
    obtain ⟨hnode, hlength⟩ := hhost hw
    obtain ⟨hs, hp⟩ := hosts_of_element hw hi hrun
    have hlt := (List.getElem?_eq_some_iff.mp hi).1
    rw [visitList, bind_of_ok hnode, if_neg (by simp), bind_of_ok hlength, if_neg (by omega),
      bind_of_ok (lift_run hrun),
      bind_of_ok (lift_run (w := { w with session := s }) (PathId.node?_run_of_holds hp))]
    dsimp only
    rw [if_pos hseen]
    exact ih hs
  | @visit fuel i seen ids ids₂ ids' w w₁ w₂ w' used used₂ visits p node s d hi hrun hnew hvisit
      hdrain hacts hd _ ih =>
    obtain ⟨hnode, hlength⟩ := hhost hw
    obtain ⟨hs, hp⟩ := hosts_of_element hw hi hrun
    have hlt := (List.getElem?_eq_some_iff.mp hi).1
    obtain ⟨hl', hkeeps⟩ := hacts.keeps hs
    have hresync := resync_visited hl' (hkeeps p) hp (List.mem_of_getElem? hi)
    rw [visitList, bind_of_ok hnode, if_neg (by simp), bind_of_ok hlength, if_neg (by omega),
      bind_of_ok (lift_run hrun),
      bind_of_ok (lift_run (w := { w with session := s }) (PathId.node?_run_of_holds hp))]
    dsimp only
    rw [if_neg hnew, bind_of_ok hvisit, if_neg (by simp), bind_of_ok hdrain, if_neg (by simp),
      bind_of_ok (lift_run hresync), bind_of_ok (lift_run (w := w₂) (p.data_run hd))]
    exact ih hl'

end Pass

/-- A walk over a list ends at the end of the list and visits no node twice. Unless a visit removes
both its element and an element before it, it misses no element that was there from the start or
came to stand behind the element being visited, if it stays in the list. -/
theorem visitList_misses_none {v : Visitor σ} {depth fuel : Nat} {host : PathId} {owner : NodeId}
    {f : Field} {ids ids' : List NodeId} {w w' : Walk σ} {used : Set NodeId} {visits : List Visit}
    (hw : w.session.Hosts used host owner f ids)
    (h : Pass v depth host owner f fuel [] 0 w used ids visits w' ids') :
    visitList v fuel depth host owner f [] 0 w = .ok false w' ∧
      w'.session.tree.list? owner f = some ids' ∧ (visits.map Visit.node).Nodup ∧
      ((∀ x ∈ visits, x.SparesFront) → ∀ m ∈ ids',
        (m ∈ ids ∨ ∃ x ∈ visits, x.HadBehind host owner f m) → m ∈ visits.map Visit.node) := by
  refine ⟨h.run hw, (h.old hw).1, h.nodup.1, fun hspares m hm hbehind => ?_⟩
  have hvisited : m ∈ [] ∨ m ∈ visits.map Visit.node := by
    rcases hbehind with hmem | ⟨x, hx, hbehind⟩
    · obtain ⟨j, hj⟩ := List.mem_iff_getElem?.mp hmem
      exact h.reaches hw hspares (Nat.zero_le j) hj hm
    · exact h.reaches_behind hw hspares hx hbehind hm
  exact hvisited.resolve_left List.not_mem_nil

end Walk

/-! ## Examples -/

/-- The program `;`, and beside it another statement `;`. -/
def growingProgram : Tree where
  nodes := #[{ kind := .emptyStatement }, { kind := .program [⟨0⟩] [] },
    { kind := .emptyStatement }]
  root := some ⟨1⟩

theorem growingProgram_isProgram : growingProgram.IsProgram :=
  .of_bottomUp (by decide) (by decide) (by decide) (by decide)

theorem growingProgram_loose : growingProgram.Loose growingProgram.reachable [⟨2⟩] :=
  .leaf (t := growingProgram) rfl rfl (Tree.not_reachable (by decide) (by decide))

/-- On the first visit of a statement, the statement beside the program is put at its end. -/
def growing : Visitor Bool where
  entries := [(.enter, .type .emptyStatement, fun _ => do
    if !(← get).own then
      modify fun w => { w with own := true }
      let _ ← (⟨0⟩ : PathId).pushInto .body [⟨2⟩])]

/-- The program has the path 0, and its statement the path 1. -/
def growingStart : Session :=
  Session.roam { tree := growingProgram, config := { lazyScopes := true } }
    [.root, .elements ⟨0⟩ .body]

/-- The session with the other statement, which has the path 2. -/
def growingEnd : Session := after ((⟨0⟩ : PathId).pushInto .body [⟨2⟩]) growingStart

theorem growing_runs :
    PathId.element ⟨0⟩ .body 0 growingStart = .ok ⟨1⟩ growingStart ∧
    PathId.pushInto ⟨0⟩ .body [⟨2⟩] growingStart = .ok [⟨2⟩] growingEnd ∧
    Walk.visit growing 4 0 ⟨1⟩ false { session := growingStart, own := false } =
      .ok false { session := growingEnd, visited := 1, own := true } ∧
    PathId.element ⟨0⟩ .body 1 growingEnd = .ok ⟨2⟩ growingEnd ∧
    Walk.visit growing 3 0 ⟨2⟩ false { session := growingEnd, visited := 1, own := true } =
      .ok false { session := growingEnd, visited := 2, own := true } ∧
    growingEnd.frames = [] := by cbv

theorem growing_cursors :
    growingEnd.paths[1]?.map (fun d => (d.node, d.cursor 0)) = some (some ⟨0⟩, 1) ∧
    growingEnd.paths[2]?.map (fun d => (d.node, d.cursor 1)) = some (some ⟨2⟩, 2) := by
  decide +kernel

theorem growingStart_hosts :
    growingStart.Hosts growingProgram.reachable ⟨0⟩ ⟨1⟩ .body [⟨0⟩] := by
  obtain ⟨s₀, hopen, -, horderly⟩ :=
    open?_orderly growingProgram_isProgram { lazyScopes := true }
  obtain rfl : { tree := growingProgram, config := { lazyScopes := true } } = s₀ :=
    Except.ok.inj hopen
  have hwent := roam_went horderly.sound [.root, .elements ⟨0⟩ .body]
  exact ⟨horderly.surveys (hwent.surveys horderly.ordered), ⟨_, rfl, rfl⟩, .root rfl, rfl⟩

/-- The statement that was put behind the first one is visited as well. -/
theorem growingProgram_misses_none : growingProgram.IsProgram ∧
    growingStart.Hosts growingProgram.reachable ⟨0⟩ ⟨1⟩ .body [⟨0⟩] ∧
    ∃ w visits, Walk.Pass growing 0 ⟨0⟩ ⟨1⟩ .body 5 [] 0 { session := growingStart, own := false }
        growingProgram.reachable [⟨0⟩] visits w [⟨0⟩, ⟨2⟩] ∧
      Walk.visitList growing 5 0 ⟨0⟩ ⟨1⟩ .body [] 0 { session := growingStart, own := false } =
        .ok false w ∧ ⟨2⟩ ∈ visits.map Visit.node := by
  obtain ⟨hfirst, hpush, hvisit, hsecond, hvisit', hframes⟩ := growing_runs
  obtain ⟨⟨d, hd, hcursor⟩, ⟨d', hd', hcursor'⟩⟩ := growing_cursors.imp
    Option.map_eq_some_iff.mp Option.map_eq_some_iff.mp
  simp only [Prod.mk.injEq] at hcursor hcursor'
  have hdrain : ∀ fuel (w : Walk Bool), w.session.frames = [] →
      Walk.drain growing (fuel + 1) 0 w = .ok false w := by
    intro fuel w hw
    rw [Walk.drain, bind_of_ok (Walk.dequeue_empty hw)]
    rfl
  have hacts : Acts ⟨0⟩ ⟨1⟩ .body ⟨growingStart, growingProgram.reachable, [⟨0⟩]⟩
      ⟨growingEnd, growingProgram.reachable ∪ growingProgram.below [⟨2⟩], [⟨0⟩, ⟨2⟩]⟩ :=
    .single (.push growingProgram_loose hpush)
  have hpass' : Walk.Pass growing 0 ⟨0⟩ ⟨1⟩ .body 4 [⟨0⟩] 1
      { session := growingEnd, visited := 1, own := true }
      (growingProgram.reachable ∪ growingProgram.below [⟨2⟩]) [⟨0⟩, ⟨2⟩] _ _ [⟨0⟩, ⟨2⟩] :=
    .visit (d := d') rfl hsecond (by decide) hvisit' (hdrain _ _ hframes) .refl hd' (by
      rw [hcursor'.2]
      exact .done (by decide))
  have hpass : Walk.Pass growing 0 ⟨0⟩ ⟨1⟩ .body 5 [] 0 { session := growingStart, own := false }
      growingProgram.reachable [⟨0⟩] _ _ [⟨0⟩, ⟨2⟩] :=
    .visit (d := d) rfl hfirst (by decide) hvisit (hdrain _ _ hframes) hacts hd (by
      rw [hcursor.2]
      exact hpass')
  obtain ⟨hrun, -, -, hmisses⟩ := Walk.visitList_misses_none growingStart_hosts hpass
  refine ⟨growingProgram_isProgram, growingStart_hosts, _, _, hpass, hrun, ?_⟩
  refine hmisses (fun x hx _ m hm => ?_) ⟨2⟩ (by simp) (.inr ⟨_, List.mem_cons_self, _, hacts,
    .refl, ⟨0⟩, ⟨d, hd, hcursor.1⟩, ahead_iff.mpr ⟨0, 1, by decide, rfl, rfl⟩⟩)
  -- No visit removes an element.
  simp only [List.mem_cons, List.not_mem_nil, or_false] at hx
  rcases hx with rfl | rfl
  · cases hm
  · exact List.mem_of_mem_take hm

/-- The program `a; b; c; d;`, built bottom up. -/
def shrinkingProgram : Tree where
  nodes := #[{ kind := .identifier "a" none }, { kind := .expressionStatement ⟨0⟩ },
    { kind := .identifier "b" none }, { kind := .expressionStatement ⟨2⟩ },
    { kind := .identifier "c" none }, { kind := .expressionStatement ⟨4⟩ },
    { kind := .identifier "d" none }, { kind := .expressionStatement ⟨6⟩ },
    { kind := .program [⟨1⟩, ⟨3⟩, ⟨5⟩, ⟨7⟩] [] }]
  root := some ⟨8⟩

theorem shrinkingProgram_isProgram : shrinkingProgram.IsProgram :=
  .of_bottomUp (by decide) (by decide) (by decide) (by decide)

/-- Every statement that is visited is noted. At the second one, the first statement is removed and
then the second one itself. -/
def shrinking : Visitor (List NodeId) where
  entries := [(.enter, .type .expressionStatement, fun p => do
    let node ← p.node?
    modify fun w => { w with own := w.own ++ node.toList }
    if node = some ⟨3⟩ then
      let root ← rootPath
      (← root.element .body 0).remove
      p.remove)]

/-- The third statement is not visited, although it stands behind the second one all the time. -/
theorem shrinkingProgram_misses : shrinkingProgram.IsProgram ∧
    ∃ s result s', Session.open? shrinkingProgram { lazyScopes := true } = .ok s ∧
      WalkM.runOn (traverse shrinking) [] s = .ok (result, [⟨1⟩, ⟨3⟩, ⟨7⟩]) s' ∧
        result.stopped = false ∧ s'.tree.list? ⟨8⟩ .body = some [⟨5⟩, ⟨7⟩] := by
  have hrun : (match WalkM.runOn (traverse shrinking) []
      { tree := shrinkingProgram, config := { lazyScopes := true } } with
    | .ok (result, noted) s => some (result.stopped, noted, s.tree.list? ⟨8⟩ .body)
    | .error _ _ => none) = some (false, [⟨1⟩, ⟨3⟩, ⟨7⟩], some [⟨5⟩, ⟨7⟩]) := by decide +kernel
  refine ⟨shrinkingProgram_isProgram,
    { tree := shrinkingProgram, config := { lazyScopes := true } }, ?_⟩
  split at hrun
  · next result noted s' h =>
    simp only [Option.some.injEq, Prod.mk.injEq] at hrun
    obtain ⟨hstopped, rfl, hlist⟩ := hrun
    exact ⟨result, s', rfl, h, hstopped, hlist⟩
  · cases hrun

end Espalier
