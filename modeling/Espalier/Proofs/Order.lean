import Espalier.Analysis.Execution
import Espalier.Proofs.Declaring
import Espalier.Proofs.Precedence

set_option autoImplicit false

/-! # The order of execution

Inside one function, what is executed before something else comes before it in a depth-first walk:
where the ways up from the two part, the one is in an earlier field or an earlier element of a
list. -/

namespace Espalier

open SessionM Session

/-! ## The way up, with its nodes -/

/-- The paths from the one of a node up to the root, each with its node. -/
inductive Session.Climbs (s : Session) : NodeId → List (Option NodeId × PathId) → Prop
  | root {p : PathId} {n : NodeId} : s.Holds p n → s.tree.root = some n → Climbs s n [(some n, p)]
  | up {p : PathId} {pos : Position} {n m : NodeId} {l : List (Option NodeId × PathId)} :
      s.Linked p pos → s.tree.occupant? pos = some n → pos.parent? = some m → Climbs s m l →
      Climbs s n ((some n, p) :: l)

section Climbs

variable {s : Session} {K : Set NodeId} {p q : PathId} {n m : NodeId} {l : List PathId}

/-- A path below a node, on the way up from another one. -/
def Session.Branches (s : Session) (a : PathId) (c n : NodeId) : Prop :=
  ∃ pos x, s.Linked a pos ∧ pos.parent? = some c ∧ s.tree.occupant? pos = some x ∧
    Relation.ReflTransGen s.tree.IsChild x n

theorem PathId.parent?_root_run (hl : s.Linked p .root) : p.parent? s = .ok none s := by
  obtain ⟨d, hf, ha⟩ := hl
  rw [p.parent?_run hf.data, show d.parent = none from ha]

theorem PathId.parent?_linked_run {pos : Position} (hs : s.Sound K) (hl : s.Linked p pos)
    (hpos : pos.parent? = some m) (hq : s.Holds q m) : p.parent? s = .ok (some q) s := by
  obtain ⟨d, hf, -⟩ := id hl
  rw [p.parent?_run hf.data, hl.parent_eq hs hf.data hpos hq]

theorem PathId.ancestryWithin_run (hs : s.Sound K) (h : s.Ancestry K p l) (fuel : Nat)
    (hfuel : l.length ≤ fuel) : PathId.ancestryWithin fuel p s = .ok l s := by
  induction h generalizing fuel with
  | root hl _ =>
    obtain ⟨fuel, rfl⟩ : ∃ i, fuel = i + 1 := ⟨fuel - 1, by simp at hfuel; omega⟩
    rw [PathId.ancestryWithin, bind_of_ok (parent?_root_run hl)]
    rfl
  | up hl _ _ hpos hq _ ih =>
    obtain ⟨fuel, rfl⟩ : ∃ i, fuel = i + 1 := ⟨fuel - 1, by simp at hfuel; omega⟩
    rw [PathId.ancestryWithin, bind_of_ok (parent?_linked_run hs hl hpos hq)]
    dsimp only
    rw [bind_of_ok (ih fuel (by simp only [List.length_cons] at hfuel; omega))]
    rfl

/-- A path with its node. -/
private theorem node_pair_run (hp : s.Holds p n) :
    (do pure (← p.node?, p) : SessionM (Option NodeId × PathId)) s = .ok (some n, p) s := by
  rw [bind_of_ok (PathId.node?_run_of_holds hp)]
  rfl

/-- Asking the paths on the way up for their nodes. -/
theorem mapM_node_run (h : s.Ancestry K p l) (hp : s.Holds p n) :
    ∃ es, l.mapM (fun q => do pure (← q.node?, q) : PathId → SessionM (Option NodeId × PathId)) s =
      .ok es s ∧ s.Climbs n es := by
  induction h generalizing n with
  | @root p r hl hr =>
    refine ⟨[(some n, p)], ?_, .root hp (hp.unique_node (hl.holds hr) ▸ hr)⟩
    rw [List.mapM_cons, bind_of_ok (node_pair_run hp)]
    rfl
  | @up p q pos n' m l hl _ hocc hpos hq _ ih =>
    obtain ⟨es, hes, hclimbs⟩ := ih hq
    obtain rfl := hp.unique_node (hl.holds hocc)
    refine ⟨(some n, p) :: es, ?_, .up hl hocc hpos hclimbs⟩
    rw [List.mapM_cons, bind_of_ok (node_pair_run hp), bind_of_ok hes]
    rfl

theorem Session.Climbs.head {es : List (Option NodeId × PathId)} (h : s.Climbs n es) :
    ∃ p l, es = (some n, p) :: l := by
  cases h with
  | root => exact ⟨_, _, rfl⟩
  | up => exact ⟨_, _, rfl⟩

/-- The path just before a node on the way up. -/
theorem Session.Climbs.branches {es : List (Option NodeId × PathId)} (h : s.Climbs n es) {j : Nat}
    {c : NodeId} {q b : PathId} {e : Option NodeId} (hc : es[j + 1]? = some (some c, q))
    (hb : es[j]? = some (e, b)) : s.Branches b c n := by
  induction h generalizing j with
  | root => simp at hc
  | @up p pos n m l hl hocc hpos hup ih =>
    cases j with
    | zero =>
      obtain ⟨p', l', rfl⟩ := hup.head
      simp only [List.getElem?_cons_succ, List.getElem?_cons_zero, Option.some.injEq,
        Prod.mk.injEq] at hc hb
      obtain ⟨rfl, -⟩ := hc
      obtain ⟨-, rfl⟩ := hb
      exact ⟨pos, n, hl, hpos, hocc, .refl⟩
    | succ j =>
      obtain ⟨pos', x, hl', hpos', hocc', hdown⟩ := ih (by simpa using hc) (by simpa using hb)
      exact ⟨pos', x, hl', hpos', hocc', hdown.tail ⟨pos, hpos, hocc⟩⟩

/-- Each entry is a path with the node it holds. -/
theorem Session.Climbs.holds {es : List (Option NodeId × PathId)} (h : s.Climbs n es)
    {e : Option NodeId × PathId} (he : e ∈ es) : ∃ x, e.1 = some x ∧ s.Holds e.2 x := by
  induction h with
  | @root p n hp _ => exact ⟨n, by rw [List.mem_singleton.mp he], by rwa [List.mem_singleton.mp he]⟩
  | @up p pos n m l hl hocc hpos hup ih =>
    rcases List.mem_cons.mp he with rfl | he
    · exact ⟨n, rfl, hl.holds hocc⟩
    · exact ih he

/-- Every way leads up to the root. -/
theorem Session.Climbs.mem_root {es : List (Option NodeId × PathId)} (h : s.Climbs n es)
    {r : NodeId} (hr : s.tree.root = some r) : ∃ p, (some r, p) ∈ es := by
  induction h with
  | @root p n _ hn =>
    obtain rfl := Option.some.inj (hr.symm.trans hn)
    exact ⟨p, List.mem_singleton_self _⟩
  | up _ _ _ _ ih =>
    obtain ⟨p, hp⟩ := ih
    exact ⟨p, List.mem_cons_of_mem _ hp⟩

/-- What is just below a node on the way up from another one: nothing, if it is that one. -/
def Session.Parts (s : Session) (below : Option PathId) (c n : NodeId) : Prop :=
  match below with
  | none => c = n
  | some a => s.Branches a c n

/-- Two ways up meet: at a node that is on both, below which they have no node in common. -/
structure Session.Meets (s : Session) (fork : PathId.Fork) (c n m : NodeId) : Prop where
  holds : s.Holds fork.path c
  mine : s.Parts fork.below c n
  other : s.Parts fork.otherBelow c m
  apart : ∀ a b x, fork.below = some a → fork.otherBelow = some b → s.Holds a x → ¬ s.Holds b x

/-- Where the way up from a node meets another one. -/
theorem forkOf_meets {es others : List (Option NodeId × PathId)} {top r : NodeId}
    {below : Option PathId} (h : s.Climbs top es) (hparts : s.Parts below top n)
    (hfree : ∀ a x, below = some a → s.Holds a x → ∀ e ∈ others, e.1 ≠ some x)
    (ho : s.Climbs m others) (hr : s.tree.root = some r) :
    ∃ fork c, PathId.forkOf others below es = some fork ∧ s.Meets fork c n m := by
  -- What is known of the meeting point when it is found on the other way.
  have hother : ∀ (c : NodeId) (i : Nat) (p : PathId) (a : Option PathId)
      (l : List (Option NodeId × PathId)),
      others.findIdx? (fun e => e.1 == some c) = some i → s.Holds p c → s.Parts a c n →
      (∀ b x, a = some b → s.Holds b x → ∀ e ∈ others, e.1 ≠ some x) →
      ∃ fork c', PathId.forkOf others a ((some c, p) :: l) = some fork ∧ s.Meets fork c' n m := by
    intro c i p a l hi hp ha hfree
    simp only [PathId.forkOf, hi]
    refine ⟨_, c, rfl, ?_⟩
    obtain ⟨hlt, hfound, -⟩ := List.findIdx?_eq_some_iff_getElem.mp hi
    have hfound : others[i].1 = some c := by simpa using hfound
    cases i with
    | zero =>
      refine ⟨hp, ha, ?_, fun _ _ _ _ hb => by cases hb⟩
      obtain ⟨q, l, rfl⟩ := ho.head
      exact (Option.some.inj hfound).symm
    | succ j =>
      obtain ⟨⟨e, b⟩, hj⟩ : ∃ e, others[j]? = some e := ⟨_, List.getElem?_eq_getElem (by omega)⟩
      refine ⟨hp, ha, ?_, fun a' b' x ha' hb' hx hbx => ?_⟩
      · have hc : others[j + 1]? = some (some c, others[j + 1].2) := by
          rw [List.getElem?_eq_getElem hlt, ← hfound]
        simpa [hj, Session.Parts] using ho.branches hc hj
      · obtain rfl : b = b' := by simpa [hj] using hb'
        obtain ⟨y, hy, hby⟩ := ho.holds (List.mem_of_getElem? hj)
        obtain rfl := hbx.unique_node hby
        exact hfree a' x ha' hx _ (List.mem_of_getElem? hj) hy
  induction h generalizing below with
  | @root p top hp htop =>
    obtain rfl := Option.some.inj (htop.symm.trans hr)
    -- The other way ends at the root as well.
    obtain ⟨q, hq⟩ := ho.mem_root hr
    obtain ⟨i, hi⟩ : ∃ i, others.findIdx? (fun e => e.1 == some top) = some i := by
      rw [← Option.isSome_iff_exists, List.findIdx?_isSome]
      exact List.any_eq_true.mpr ⟨_, hq, by simp⟩
    exact hother top i p below [] hi hp hparts hfree
  | @up p pos top c l hl hocc hpos hup ih =>
    cases hi : others.findIdx? (fun e => e.1 == some top) with
    | none =>
      simp only [PathId.forkOf, hi]
      refine ih ?_ (fun a x ha hx e he hex => ?_)
      · refine ⟨pos, top, hl, hpos, hocc, ?_⟩
        cases below with
        | none => exact hparts ▸ .refl
        | some b =>
          obtain ⟨pos', y, -, hpos', hocc', hdown⟩ := hparts
          exact .head ⟨pos', hpos', hocc'⟩ hdown
      · obtain rfl := Option.some.inj ha
        obtain rfl := hx.unique_node (hl.holds hocc)
        have hnone := List.findIdx?_eq_none_iff.mp hi e he
        simp [hex] at hnone
    | some i => exact hother top i p below l hi (hl.holds hocc) hparts hfree

/-! ## The order inside one function -/

/-- What the order of execution says of two nodes in one function. -/
inductive Tree.Ranks (t : Tree) (n m : NodeId) : ExecutionStatus → Prop
  | ahead : t.Precedes n m → Ranks t n m .before
  | around : t.Contains n m ∨ t.Contains m n → Ranks t n m .after
  | behind : t.Precedes m n → Ranks t n m .after

theorem ExecutionStatus.ofPlaces_of_ne {i j : Nat} (hne : i ≠ j) :
    ExecutionStatus.ofPlaces (some i) (some j) = .before ∧ i < j ∨
      ExecutionStatus.ofPlaces (some i) (some j) = .after ∧ j < i := by
  rcases Nat.lt_or_gt_of_ne hne with hlt | hgt
  · exact .inl ⟨if_pos hlt, hlt⟩
  · exact .inr ⟨if_neg (by omega), hgt⟩

/-- Different positions in one field of a node are in one list. -/
theorem Tree.same_list_of_field {t : Tree} {c a b : NodeId} {k : NodeKind} {pos pos' : Position}
    {d e : PathData} (hk : t.kind? c = some k) (hpos : pos.parent? = some c)
    (hpos' : pos'.parent? = some c) (ha : t.occupant? pos = some a) (hb : t.occupant? pos' = some b)
    (hne : pos ≠ pos') (hfield : pos.field? = pos'.field?) (hd : d.container = pos.container)
    (he : e.container = pos'.container) :
    d.listField?.isSome = true ∧ d.container = e.container := by
  obtain ⟨f, child, hf, -, hshape⟩ := Tree.mem_fields_of_occupant hpos hk ha
  obtain ⟨g, child', hg, -, hshape'⟩ := Tree.mem_fields_of_occupant hpos' hk hb
  have hchild : f = g → child = child' := by
    rintro rfl
    have hf := (k.child?_eq_some_iff _ _).mpr hf
    have hg := (k.child?_eq_some_iff _ _).mpr hg
    exact Option.some.inj (hf.symm.trans hg)
  rcases hshape with ⟨rfl, hnode⟩ | ⟨ids, i, rfl, rfl, -⟩
  · rcases hshape' with ⟨rfl, -⟩ | ⟨ids', j, rfl, rfl, -⟩
    · exact absurd (congrArg (Position.slot c) (Option.some.inj hfield)) hne
    · rw [hchild (Option.some.inj hfield)] at hnode
      cases hnode
  · rcases hshape' with ⟨rfl, hnode⟩ | ⟨ids', j, rfl, rfl, -⟩
    · rw [← hchild (Option.some.inj hfield)] at hnode
      cases hnode
    · obtain rfl : f = g := Option.some.inj hfield
      exact ⟨by simp [PathData.listField?, hd, Position.container], hd.trans he.symm⟩

/-- Two nodes in different positions of a node, or below them, are ranked by these positions: in one
list by the indices, else by the fields. -/
theorem Tree.ranks_of_positions {t : Tree} {c a b : NodeId} {k : NodeKind} {pos pos' : Position}
    {d e : PathData} (hc : t.Reachable c) (hk : t.kind? c = some k) (hpos : pos.parent? = some c)
    (hpos' : pos'.parent? = some c) (ha : t.occupant? pos = some a) (hb : t.occupant? pos' = some b)
    (hne : pos ≠ pos') (hn : t.Contains a n) (hm : t.Contains b m)
    (hd : d.container = pos.container) (hdk : d.key = pos.key)
    (he : e.container = pos'.container) (hek : e.key = pos'.key) :
    t.Ranks n m (if d.listField?.isSome ∧ d.container = e.container then
      .ofPlaces d.index? e.index?
    else .ofPlaces (d.field?.bind fun f => k.type.visitorFields.idxOf? f)
      (e.field?.bind fun f => k.type.visitorFields.idxOf? f)) := by
  have htype := Tree.type?_of_kind hk
  -- The rank is that of two places that are the order of the positions.
  have hplaces : ∀ i j : Nat, i ≠ j → (i < j → pos.Earlier k.type pos') →
      (j < i → pos'.Earlier k.type pos) → t.Ranks n m (.ofPlaces (some i) (some j)) := by
    intro i j hij hbefore hafter
    rcases ExecutionStatus.ofPlaces_of_ne hij with ⟨hstatus, hlt⟩ | ⟨hstatus, hlt⟩
    · rw [hstatus]
      exact .ahead (.fork hc htype hpos hpos' (hbefore hlt) ha hb hn hm)
    · rw [hstatus]
      exact .behind (.fork hc htype hpos' hpos (hafter hlt) hb ha hm hn)
  split
  · next hsame =>
    obtain ⟨hlist, hcontainer⟩ := hsame
    rw [hd, he] at hcontainer
    cases pos with
    | root | slot => simp [PathData.listField?, hd, Position.container] at hlist
    | item owner f i =>
      cases pos' with
      | root | slot => cases hcontainer
      | item owner' g j =>
        injection hcontainer with howner hfield
        subst howner hfield
        have hindex : d.index? = some i := by simp [PathData.index?, hdk, Position.key]
        have hindex' : e.index? = some j := by simp [PathData.index?, hek, Position.key]
        rw [hindex, hindex']
        exact hplaces i j (fun hij => hne (by rw [hij])) .element .element
  · next hother =>
    obtain ⟨f, i, hf, hi⟩ := Tree.exists_place hpos hk ha
    obtain ⟨g, j, hg, hj⟩ := Tree.exists_place hpos' hk hb
    rw [PathData.field?_of_position hd hdk, PathData.field?_of_position he hek, hf, hg, Option.bind_some,
      Option.bind_some, hi, hj]
    refine hplaces i j (fun hij => ?_) (.field hf hg hi hj) (.field hg hf hj hi)
    -- Different positions that are not in one list are in different fields.
    subst hij
    obtain rfl : f = g := by
      obtain ⟨_, hfi, -⟩ := List.idxOf?_eq_some_iff.mp hi
      obtain ⟨_, hgi, -⟩ := List.idxOf?_eq_some_iff.mp hj
      exact hfi.symm.trans hgi
    exact hother (Tree.same_list_of_field hk hpos hpos' ha hb hne (hf.trans hg.symm) hd he)

/-- The order of two paths inside one function is that of their nodes. -/
theorem PathId.statusInFunction_run (hs : s.Sound K) (hp : s.Holds p n)
    (hn : s.tree.Reachable n) (hq : s.Holds q m) (hm : s.tree.Reachable m) :
    ∃ status, p.statusInFunction q s = .ok status s ∧ s.tree.Ranks n m status := by
  -- Both ways up are known, each with its nodes.
  obtain ⟨l, hl⟩ := hs.exists_ancestry hn hp
  obtain ⟨l', hl'⟩ := hs.exists_ancestry hm hq
  obtain ⟨mine, hmine, hclimbs⟩ := mapM_node_run hl hp
  obtain ⟨others, hothers, hclimbs'⟩ := mapM_node_run hl' hq
  have hup : p.ancestry s = .ok l s :=
    ancestryWithin_run hs hl _ (Nat.le_succ_of_le (hl.length_le hs))
  have hup' : q.ancestry s = .ok l' s :=
    ancestryWithin_run hs hl' _ (Nat.le_succ_of_le (hl'.length_le hs))
  obtain ⟨r, hr⟩ := hn.exists_root
  obtain ⟨⟨path, below, otherBelow⟩, c, hfork, hmeets⟩ :=
    forkOf_meets hclimbs (show s.Parts none n n from rfl) (by simp) hclimbs' hr
  unfold PathId.statusInFunction
  dsimp only
  rw [bind_of_ok hup, bind_of_ok hmine, bind_of_ok hup', bind_of_ok hothers, hfork]
  have habove : ∀ {b x}, s.Parts b c x → s.tree.Contains c x := by
    intro b x hparts
    cases b with
    | none => exact hparts ▸ .refl
    | some b =>
      obtain ⟨pos, y, -, hpos, hocc, hdown⟩ := hparts
      exact .head ⟨pos, hpos, hocc⟩ hdown
  cases below with
  | none =>
    obtain rfl : c = n := hmeets.mine
    exact ⟨.after, rfl, .around (.inl (habove hmeets.other))⟩
  | some a =>
    cases otherBelow with
    | none =>
      obtain rfl : c = m := hmeets.other
      exact ⟨.after, rfl, .around (.inr (habove hmeets.mine))⟩
    | some b =>
      -- They part at `c`: one goes through `pos`, the other through `pos'`.
      obtain ⟨pos, x, hla, hpos, hocc, hdown⟩ := hmeets.mine
      obtain ⟨pos', y, hlb, hpos', hocc', hdown'⟩ := hmeets.other
      have hne : pos ≠ pos' := by
        rintro rfl
        obtain rfl := Option.some.inj (hocc.symm.trans hocc')
        exact hmeets.apart a b x rfl rfl (hla.holds hocc) (hlb.holds hocc)
      obtain ⟨da, hfa, -⟩ := hla
      obtain ⟨db, hfb, -⟩ := hlb
      have hcK := hs.mem_of_holds hmeets.holds
      obtain ⟨k, hk⟩ := hs.forest.kind c hcK
      have hreach : s.tree.Reachable c := hs.forest.reachable_above hcK (habove hmeets.mine) hn
      refine ⟨_, ?_, Tree.ranks_of_positions hreach hk hpos hpos' hocc hocc' hne hdown hdown'
        hfa.container hfa.key hfb.container hfb.key⟩
      dsimp only
      rw [bind_of_ok (a.data_run hfa.data), bind_of_ok (b.data_run hfb.data)]
      split
      · rfl
      · rw [bind_of_ok (PathId.type?_run_of_holds hmeets.holds hk)]
        rfl

/-- What is executed before something else in the same function comes before it. -/
theorem PathId.precedes_of_statusInFunction {s' : Session} (hs : s.Sound K) (hp : s.Holds p n)
    (hn : s.tree.Reachable n) (hq : s.Holds q m) (hm : s.tree.Reachable m)
    (hrun : p.statusInFunction q s = .ok .before s') : s.tree.Precedes n m := by
  obtain ⟨status, hstatus, hranks⟩ := PathId.statusInFunction_run hs hp hn hq hm
  obtain ⟨rfl, -⟩ := EStateM.Result.ok.inj (hstatus.symm.trans hrun)
  cases hranks with
  | ahead h => exact h

end Climbs

/-! ## The function around a path -/

/-- The innermost function or program that a node is in. A function is in itself here; what counts
for its own execution is what is around it. -/
inductive Tree.RunsIn (t : Tree) : NodeId → NodeId → Prop
  | here {n : NodeId} {type : NodeType} : t.type? n = some type →
      (type.isFunction || type == .program) = true → RunsIn t n n
  | up {n m b : NodeId} {type : NodeType} : t.type? n = some type →
      (type.isFunction || type == .program) = false → t.Reachable m → t.IsChild m n →
      RunsIn t m b → RunsIn t n b

section RunsIn

variable {s : Session} {K : Set NodeId} {p q : PathId} {n m b : NodeId} {l : List PathId}

/-- Whether a path is a function or the program can be asked for. -/
private theorem functionAnswer_run {type : NodeType} {v : Bool} (hs : s.Sound K) (hp : s.Holds p n)
    (htype : s.tree.type? n = some type) (hv : (type.isFunction || type == .program) = v) :
    (do pure (if ← p.isAny fun type => type.isFunction || type == .program then some p else none) :
      SessionM (Option PathId)) s = .ok (if v then some p else none) s := by
  obtain ⟨k, hk⟩ := hs.forest.kind n (hs.mem_of_holds hp)
  obtain rfl := Option.some.inj (htype.symm.trans (Tree.type?_of_kind hk))
  rw [bind_of_ok (PathId.isAny_run_of_holds hp hk _), hv]
  rfl

/-- The way up meets the function around a path, at the latest the program. -/
theorem PathId.climbWithin_function_run (hs : s.Sound K) (h : s.Ancestry K p l) (hp : s.Holds p n)
    (hb : s.tree.RunsIn n b) (fuel : Nat) (hfuel : l.length ≤ fuel) :
    ∃ q, PathId.climbWithin (fun q => do
      pure (if ← q.isAny fun type => type.isFunction || type == .program then some q else none))
        fuel (some p) s = .ok (some q) s ∧ s.Holds q b := by
  induction h generalizing n fuel with
  | @root p r hl hr =>
    obtain ⟨fuel, rfl⟩ : ∃ i, fuel = i + 1 := ⟨fuel - 1, by simp at hfuel; omega⟩
    cases hb with
    | here htype hfunction =>
      refine ⟨p, ?_, hp⟩
      rw [PathId.climbWithin, bind_of_ok (functionAnswer_run hs hp htype hfunction)]
      rfl
    | @up _ m _ type _ _ hm hc _ =>
      -- Nothing is around the root.
      obtain ⟨pos, hpos, hocc⟩ := hc
      obtain rfl := hp.unique_node (hl.holds hr)
      have hw := Position.within_of_parent hpos (hs.forest.mem_of_reachable hm)
      obtain rfl := hs.forest.single pos .root n hw (Position.within_root K) hocc hr
      cases hpos
  | @up p q pos n' m' l hl hw hocc hpos hq hup ih =>
    obtain ⟨fuel, rfl⟩ : ∃ i, fuel = i + 1 := ⟨fuel - 1, by simp at hfuel; omega⟩
    obtain rfl := hp.unique_node (hl.holds hocc)
    cases hb with
    | here htype hfunction =>
      refine ⟨p, ?_, hp⟩
      rw [PathId.climbWithin, bind_of_ok (functionAnswer_run hs hp htype hfunction)]
      rfl
    | @up _ m _ type htype hplain hm hc hb =>
      obtain ⟨pos', hpos', hocc'⟩ := hc
      have hw' := Position.within_of_parent hpos' (hs.forest.mem_of_reachable hm)
      obtain rfl := hs.forest.single pos pos' n hw hw' hocc hocc'
      obtain rfl := Option.some.inj (hpos.symm.trans hpos')
      obtain ⟨r, hr, hrb⟩ := ih hq hb fuel (by simp only [List.length_cons] at hfuel; omega)
      refine ⟨r, ?_, hrb⟩
      rw [PathId.climbWithin, bind_of_ok (functionAnswer_run hs hp htype hplain)]
      show (p.parent? >>= _) s = _
      rw [bind_of_ok (PathId.parent?_linked_run hs hl hpos hq)]
      exact hr

/-- The function in which what is no function is executed. -/
theorem PathId.executionParent?_run (hs : s.Sound K) (hp : s.Holds p n) (hn : s.tree.Reachable n)
    {type : NodeType} (htype : s.tree.type? n = some type) (hplain : type.isFunction = false)
    (hb : s.tree.RunsIn n b) :
    ∃ q, p.executionParent? s = .ok (some q) s ∧ s.Holds q b := by
  obtain ⟨l, hl⟩ := hs.exists_ancestry hn hp
  obtain ⟨k, hk⟩ := hs.forest.kind n (hs.mem_of_holds hp)
  obtain rfl := Option.some.inj (htype.symm.trans (Tree.type?_of_kind hk))
  obtain ⟨q, hq, hqb⟩ := PathId.climbWithin_function_run hs hl hp hb _ (hl.length_le hs)
  refine ⟨q, ?_, hqb⟩
  unfold PathId.executionParent?
  rw [bind_of_ok (PathId.isAny_run_of_holds hp hk _), hplain]
  exact hq

/-- No calls are looked at for two paths in one function. -/
theorem PathId.statusWithin_same_run {f g : PathId} (hf : p.executionParent? s = .ok (some f) s)
    (hfb : s.Holds f b) (hg : q.executionParent? s = .ok (some g) s) (hgb : s.Holds g b)
    (fuel : Nat) (underway : List NodeId) :
    (PathId.statusWithin (fuel + 1) p q).run underway s =
      (do pure (← p.statusInFunction q, underway) : SessionM (ExecutionStatus × List NodeId)) s := by
  rw [PathId.statusWithin]
  rw [Memory.run_of_ok hf, Memory.run_of_ok hg]
  dsimp only
  rw [Memory.run_of_ok (PathId.node?_run_of_holds hfb),
    Memory.run_of_ok (PathId.node?_run_of_holds hgb), if_pos rfl]
  rfl

/-- The status of two paths in one function. -/
theorem PathId.executionStatus_same_run {f g : PathId} (hf : p.executionParent? s = .ok (some f) s)
    (hfb : s.Holds f b) (hg : q.executionParent? s = .ok (some g) s) (hgb : s.Holds g b) :
    p.executionStatus q s = p.statusInFunction q s := by
  unfold PathId.executionStatus
  rw [run_get_bind]
  dsimp only
  show ((PathId.statusWithin (s.tree.size + 2) p q).run [] >>= fun r => pure r.1) s = _
  cases h : p.statusInFunction q s with
  | ok status s' =>
    rw [bind_of_ok ((PathId.statusWithin_same_run hf hfb hg hgb _ _).trans (bind_of_ok h))]
    rfl
  | error e s' =>
    rw [bind_of_error ((PathId.statusWithin_same_run hf hfb hg hgb _ _).trans (bind_of_error h))]

/-- Inside one function, what is executed before something else comes before it in a depth-first
walk. -/
theorem PathId.precedes_of_executesBefore {s' : Session} (hs : s.Sound K) (hp : s.Holds p n)
    (hn : s.tree.Reachable n) (hq : s.Holds q m) (hm : s.tree.Reachable m) {type type' : NodeType}
    (htype : s.tree.type? n = some type) (hplain : type.isFunction = false)
    (htype' : s.tree.type? m = some type') (hplain' : type'.isFunction = false)
    (hb : s.tree.RunsIn n b) (hb' : s.tree.RunsIn m b)
    (hrun : p.executesBefore q s = .ok true s') : s.tree.Precedes n m := by
  obtain ⟨f, hf, hfb⟩ := PathId.executionParent?_run hs hp hn htype hplain hb
  obtain ⟨g, hg, hgb⟩ := PathId.executionParent?_run hs hq hm htype' hplain' hb'
  -- Both are in the same function, so no calls are looked at.
  rw [PathId.executesBefore] at hrun
  obtain ⟨status, s₁, hstatus, htrue⟩ := bind_eq_ok hrun
  injection htrue with hbefore
  have hbefore : status = .before := by simpa using hbefore
  subst hbefore
  rw [PathId.executionStatus_same_run hf hfb hg hgb] at hstatus
  exact PathId.precedes_of_statusInFunction hs hp hn hq hm hstatus

end RunsIn

end Espalier
