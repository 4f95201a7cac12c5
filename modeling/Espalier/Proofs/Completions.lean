import Espalier.Proofs.Sequencing

set_option autoImplicit false

/-! # Completion records

The records of a construct are found from above, by descending through its last statements and its
branches; whether a path is one is found out from below, by climbing from list to list up to a
function or the program. The two agree (`completionRecords_tested`): what is found from above is
last in every list on its way up. A function on the way is passed from above, and counts from below
only where the question says so. -/

namespace Espalier

open SessionM Session

/-! ## What stands last -/

/-- Nothing comes after the position in its list. -/
def Tree.Trails (t : Tree) : Position → Prop
  | .item owner f i => ∃ ids, t.list? owner f = some ids ∧ i + 1 = ids.length
  | .slot _ _ | .root => True

/-- The node `n` is at the end of the function or program `b`: nothing comes after it, and nothing
comes after anything that is around it there. -/
inductive Tree.EndsIn (t : Tree) : NodeId → NodeId → Prop
  | outermost {n b : NodeId} {pos : Position} {type : NodeType} : t.occupant? pos = some n →
      t.Trails pos → pos.parent? = some b → t.Reachable b → t.type? b = some type →
      (type.isFunction || type == .program) = true → EndsIn t n b
  | inside {n m b : NodeId} {pos : Position} {type : NodeType} : t.occupant? pos = some n →
      t.Trails pos → pos.parent? = some m → t.Reachable m → t.type? m = some type →
      (type.isFunction || type == .program) = false → EndsIn t m b → EndsIn t n b

namespace Tree.EndsIn

variable {t : Tree} {n m b : NodeId}

/-- What is at the end of a function or program is in it. -/
theorem runsIn (h : t.EndsIn n b) {type : NodeType} (htype : t.type? n = some type)
    (hplain : (type.isFunction || type == .program) = false) : t.RunsIn n b := by
  induction h generalizing type with
  | outermost hocc _ hpos hb hbt houter =>
    exact .up htype hplain hb ⟨_, hpos, hocc⟩ (.here hbt houter)
  | inside hocc _ hpos hm hmt hin _ ih => exact .up htype hplain hm ⟨_, hpos, hocc⟩ (ih hmt hin)

theorem reachable (h : t.EndsIn n b) : t.Reachable n := by
  cases h with
  | outermost hocc _ hpos hb _ _ => exact .child hb ⟨_, hpos, hocc⟩
  | inside hocc _ hpos hm _ _ _ => exact .child hm ⟨_, hpos, hocc⟩

theorem exists_type (h : t.EndsIn n b) : ∃ type, t.type? b = some type := by
  induction h with
  | outermost _ _ _ _ htype _ => exact ⟨_, htype⟩
  | inside _ _ _ _ _ _ _ ih => exact ih

end Tree.EndsIn

/-- A function or program, or something at the end of one. -/
def Tree.Closing (t : Tree) (n : NodeId) : Prop :=
  (∃ type, t.type? n = some type ∧ (type.isFunction || type == .program) = true) ∨ ∃ b, t.EndsIn n b

/-- What stands last in a closing node is at the end of a function or program. -/
theorem Tree.Closing.below {t : Tree} {n c : NodeId} {pos : Position} (h : t.Closing n)
    (hn : t.Reachable n) (hkind : ∃ k, t.kind? n = some k) (hpos : pos.parent? = some n)
    (hocc : t.occupant? pos = some c) (hlast : t.Trails pos) : ∃ b, t.EndsIn c b := by
  obtain ⟨k, hk⟩ := hkind
  have htype := Tree.type?_of_kind hk
  cases houter : k.type.isFunction || k.type == .program with
  | true => exact ⟨n, .outermost hocc hlast hpos hn htype houter⟩
  | false =>
    rcases h with ⟨type, htype', h⟩ | ⟨b, hb⟩
    · rw [Option.some.inj (htype'.symm.trans htype), houter] at h
      cases h
    · exact ⟨b, .inside hocc hlast hpos hn htype houter hb⟩

section Climb

variable {s : Session} {K : Set NodeId} {p q : PathId} {n m b : NodeId} {pos : Position}
  {l : List PathId} {insideFunction : Bool}

/-! ## The question from below -/

theorem PathId.isLast_run (ht : s.tree.IsProgram) (hs : s.Sound K) (hl : s.Linked p pos)
    (hpos : pos.parent? = some m) (hm : s.tree.Reachable m) (hlast : s.tree.Trails pos) :
    p.isLast s = .ok true s := by
  obtain ⟨d, hf, -⟩ := hl
  unfold PathId.isLast
  rw [bind_of_ok (p.data_run hf.data), hf.container, hf.key]
  cases pos with
  | root => rfl
  | slot owner f => rfl
  | item owner f i =>
    obtain rfl := Option.some.inj hpos
    obtain ⟨ids, hids, hi⟩ := hlast
    -- A list of a program tree is too short for the index after its last one to overflow.
    have hbound : i < Key.maxIndex := by
      have howner := hs.forest.mem_of_reachable hm
      have hle := hs.forest.length_le_size (fun x hx => hs.forest.mem_list howner hids hx)
        (hs.forest.nodup_list howner hids)
      have hsmall := ht.small
      have hmax := Tree.maxSize_lt
      omega
    have hnext : nextIndex i s = .ok (i + 1) s := by
      unfold nextIndex
      rw [if_pos hbound]
      rfl
    show (nextIndex i >>= fun j => _) s = _
    rw [bind_of_ok hnext, bind_of_ok (PathId.listLength_run (Tree.list?_eq_some_iff.mp hids)), hi]
    simp

/-- What is said at a path that is last in its list, by what is around it. -/
theorem PathId.endsProgram?_run (ht : s.tree.IsProgram) (hs : s.Sound K) (hl : s.Linked p pos)
    (hpos : pos.parent? = some m) (hm : s.tree.Reachable m) (hlast : s.tree.Trails pos)
    (hq : s.Holds q m) {type : NodeType} (htype : s.tree.type? m = some type) :
    p.endsProgram? insideFunction s = .ok (if type == .program then some true
      else if type.isFunction then some insideFunction else none) s := by
  obtain ⟨k, hk⟩ := hs.forest.kind m (hs.mem_of_holds hq)
  obtain rfl := Option.some.inj (htype.symm.trans (Tree.type?_of_kind hk))
  unfold PathId.endsProgram?
  rw [bind_of_ok (PathId.isLast_run ht hs hl hpos hm hlast), if_pos rfl,
    bind_of_ok (PathId.parent?_linked_run hs hl hpos hq)]
  have his : q.is .program s = .ok (k.type == .program) s := by
    show (q.type? >>= fun o => pure (o == some NodeType.program)) s = _
    rw [bind_of_ok (PathId.type?_run_of_holds hq hk)]
    simp
  show (q.is .program >>= fun v => _) s = _
  rw [bind_of_ok his]
  cases k.type == .program with
  | true => rfl
  | false =>
    show (q.isAny NodeType.isFunction >>= fun v => _) s = _
    rw [bind_of_ok (PathId.isAny_run_of_holds hq hk _)]
    cases k.type.isFunction <;> rfl

/-- The way up from the end of a function or program finds that function or program. -/
theorem PathId.climbWithin_endsProgram_run (ht : s.tree.IsProgram) (hs : s.Sound K)
    (h : s.Ancestry K p l) (hp : s.Holds p n) (hb : s.tree.EndsIn n b) {type : NodeType}
    (htype : s.tree.type? b = some type) (fuel : Nat) (hfuel : l.length ≤ fuel) :
    PathId.climbWithin (PathId.endsProgram? insideFunction) fuel (some p) s =
      .ok (some (type == .program || insideFunction)) s := by
  induction h generalizing n fuel with
  | @root p r hl hr =>
    -- Nothing is around the root.
    obtain rfl := hp.unique_node (hl.holds hr)
    obtain ⟨pos, m, hocc, hpos, hm⟩ : ∃ pos m, s.tree.occupant? pos = some n ∧
        pos.parent? = some m ∧ s.tree.Reachable m := by
      cases hb with
      | outermost hocc _ hpos hm => exact ⟨_, _, hocc, hpos, hm⟩
      | inside hocc _ hpos hm => exact ⟨_, _, hocc, hpos, hm⟩
    have hw := Position.within_of_parent hpos (hs.forest.mem_of_reachable hm)
    obtain rfl := hs.forest.single pos .root n hw (Position.within_root K) hocc hr
    cases hpos
  | @up p q pos n' m' l hl hw hocc hpos hq hup ih =>
    obtain ⟨fuel, rfl⟩ : ∃ i, fuel = i + 1 := ⟨fuel - 1, by simp at hfuel; omega⟩
    obtain rfl := hp.unique_node (hl.holds hocc)
    cases hb with
    | @outermost _ _ pos' type' hocc' hlast hpos' hm hmt houter =>
      obtain rfl := hs.forest.single pos' pos n
        (Position.within_of_parent hpos' (hs.forest.mem_of_reachable hm)) hw hocc' hocc
      obtain rfl := Option.some.inj (hpos.symm.trans hpos')
      obtain rfl := Option.some.inj (hmt.symm.trans htype)
      rw [PathId.climbWithin,
        bind_of_ok (PathId.endsProgram?_run ht hs hl hpos' hm hlast hq hmt)]
      cases hprogram : type' == .program with
      | true => rfl
      | false =>
        have hfunction : type'.isFunction = true := by simpa [hprogram] using houter
        rw [hfunction]
        rfl
    | @inside _ m _ pos' type' hocc' hlast hpos' hm hmt hin hb =>
      obtain rfl := hs.forest.single pos' pos n
        (Position.within_of_parent hpos' (hs.forest.mem_of_reachable hm)) hw hocc' hocc
      obtain rfl := Option.some.inj (hpos.symm.trans hpos')
      obtain ⟨hplain, hno⟩ := Bool.or_eq_false_iff.mp hin
      rw [PathId.climbWithin,
        bind_of_ok (PathId.endsProgram?_run ht hs hl hpos' hm hlast hq hmt), hno, hplain]
      show (p.parent? >>= _) s = _
      rw [bind_of_ok (PathId.parent?_linked_run hs hl hpos' hq)]
      exact ih hq hb fuel (by simp only [List.length_cons] at hfuel; omega)

/-- What is at the end of a function is a completion record there if the question includes
functions, and what is at the end of the program always is one. -/
theorem PathId.isCompletionRecord_run (ht : s.tree.IsProgram) (hs : s.Sound K) (hp : s.Holds p n)
    (hb : s.tree.EndsIn n b) {type : NodeType} (htype : s.tree.type? b = some type) :
    p.isCompletionRecord insideFunction s = .ok (type == .program || insideFunction) s := by
  obtain ⟨l, hl⟩ := hs.exists_ancestry hb.reachable hp
  have hclimb : climb (some p) (endsProgram? insideFunction) s =
      .ok (some (type == .program || insideFunction)) s := by
    unfold climb
    rw [run_get_bind]
    exact PathId.climbWithin_endsProgram_run ht hs hl hp hb htype _ (hl.length_le hs)
  unfold PathId.isCompletionRecord
  rw [bind_of_ok hclimb]
  rfl

end Climb

/-! ## The search from above -/

/-- The path holds a node at the end of a function or program, which is none itself. -/
def Session.Records (s : Session) (r : PathId) : Prop :=
  ∃ n b type, s.Holds r n ∧ s.tree.EndsIn n b ∧ s.tree.type? n = some type ∧
    (type.isFunction || type == .program) = false

theorem Session.Records.went {s s' : Session} {K : Set NodeId} {r : PathId} (h : s.Records r)
    (hs : s.Sound K) (hwent : s.Went K s') : s'.Records r := by
  obtain ⟨n, b, type, hr, hb, htype, hplain⟩ := h
  refine ⟨n, b, type, hwent.grew.holds hs hr, ?_, ?_, hplain⟩
  · rwa [hwent.tree]
  · rwa [hwent.tree]

/-- The path holds nothing, or a closing node from which no way down is longer than the bound. -/
def Session.Descends (s : Session) (d : Nat) (p : PathId) : Prop :=
  ∃ e, s.paths[p.index]? = some e ∧ ∀ n, e.node = some n →
    s.tree.Reachable n ∧ s.tree.Closing n ∧ s.tree.DepthWithin d n

section Descent

variable {s : Session} {K : Set NodeId} {p : PathId} {n : NodeId} {d : Nat}

/-- A position that is last in a closing node holds nothing or closes, too. -/
theorem Session.Arrives.descends {s' : Session} {pos : Position} {q : PathId}
    (h : s.Arrives K pos q s') (hs : s.Sound K) (hpos : pos.parent? = some n)
    (hn : s.tree.Reachable n) (hclosing : s.tree.Closing n) (hd : s.tree.DepthWithin (d + 1) n)
    (hlast : s.tree.Trails pos) : s'.Descends d q := by
  obtain ⟨e, he, hnode⟩ := h.known
  refine ⟨e, he, fun c hc => ?_⟩
  have hocc : s.tree.occupant? pos = some c := hnode.symm.trans hc
  have hkind := hs.forest.kind n (hs.forest.mem_of_reachable hn)
  rw [h.tree]
  refine ⟨.child hn ⟨pos, hpos, hocc⟩, .inr (hclosing.below hn hkind hpos hocc hlast), ?_⟩
  obtain ⟨k, hk, hall⟩ := hd
  obtain ⟨k', hk', hmem⟩ := (s.tree.isChild_iff n c).mp ⟨pos, hpos, hocc⟩
  obtain rfl := Option.some.inj (hk.symm.trans hk')
  exact hall c hmem

/-- The search below the fields of a closing node, if the searches below their nodes are right. -/
theorem completionsOfFields_returns {search : PathId → SessionM (List PathId)}
    (hsearch : ∀ s p, s.Sound K → s.Descends d p →
      Returns (search p) s fun l s' => s.Went K s' ∧ ∀ r ∈ l, s'.Records r)
    (hs : s.Sound K) (hp : s.Holds p n) (hn : s.tree.Reachable n) (hclosing : s.tree.Closing n)
    (hd : s.tree.DepthWithin (d + 1) n) (fields : List Field) :
    Returns (fields.mapM fun f => do search (← p.child f)) s fun ls s' =>
      s.Went K s' ∧ ∀ r ∈ ls.flatten, s'.Records r := by
  induction fields generalizing s with
  | nil => exact .pure ⟨.refl hs, by simp⟩
  | cons f fields ih =>
    rw [List.mapM_cons, bind_assoc]
    refine (PathId.child_arrives hs hp f).bind fun q s₁ hq => ?_
    have hdown := hq.descends hs rfl hn hclosing hd trivial
    refine (hsearch s₁ q hq.sound hdown).bind fun l s₂ hl => ?_
    have hwent := hq.toWent.trans hl.1
    refine (ih hl.1.sound (hwent.grew.holds hs hp) (by rwa [hwent.tree]) (by rwa [hwent.tree])
      (by rwa [hwent.tree])).bind fun ls s₃ hls => .pure ⟨hwent.trans hls.1, ?_⟩
    intro r hr
    rcases List.mem_append.mp (List.flatten_cons ▸ hr) with hr | hr
    · exact (hl.2 r hr).went hl.1.sound hls.1
    · exact hls.2 r hr

/-- The last of the paths of a list holds what stands last in it. -/
theorem Session.Lists.getLast {s' : Session} {f : Field} {ids : List NodeId} {ps : List PathId}
    {q : PathId} (h : s.Lists K ((List.range ids.length).map (.item n f)) ps s')
    (hlast : ps.getLast? = some q) : s'.Linked q (.item n f (ids.length - 1)) := by
  have hlen : ps.length = ids.length := by simpa using h.linked.length_eq
  rw [List.getLast?_eq_getElem?] at hlast
  obtain ⟨hlt, rfl⟩ := List.getElem?_eq_some_iff.mp hlast
  have hget := h.linked.get hlt (by simpa using hlen ▸ hlt)
  simpa [hlen] using hget

/-- The last element of a list of a closing node. -/
theorem lastElement_returns (hs : s.Sound K) (hp : s.Holds p n) (hn : s.tree.Reachable n)
    (hclosing : s.tree.Closing n) (hd : s.tree.DepthWithin (d + 1) n) (f : Field) :
    Returns (p.elements f) s fun ps s' => s.Went K s' ∧
      ∀ q, ps.getLast? = some q → s'.Descends d q := by
  cases hids : s.tree.list? n f with
  | none =>
    refine (PathId.elements_nil hs hp hids).mono fun ps s₁ hps => ⟨hps.toWent, fun q hq => ?_⟩
    obtain rfl := List.forall₂_nil_right_iff.mp hps.linked
    cases hq
  | some ids =>
    have hfield := Tree.list?_eq_some_iff.mp hids
    refine (PathId.elements_returns hs hp hfield).mono fun ps s₁ hps => ⟨hps.toWent, fun q hq => ?_⟩
    have hlinked := hps.getLast hq
    have hlt : ids.length - 1 < ids.length := by
      have hlen : ps.length = ids.length := by simpa using hps.linked.length_eq
      have hne : ps ≠ [] := by
        rintro rfl
        cases hq
      have := List.length_pos_of_ne_nil hne
      omega
    obtain ⟨e, hf, -⟩ := id hlinked
    have harrives : s.Arrives K (.item n f (ids.length - 1)) q s₁ :=
      ⟨hps.toWent, ⟨e, hf.data, by rw [hf.node, hps.tree]⟩, fun _ _ => hlinked⟩
    exact harrives.descends hs rfl hn hclosing hd ⟨ids, hids, by omega⟩

/-- A path without a node has no records. -/
theorem completionsWithin_empty {e : PathData} (he : s.paths[p.index]? = some e)
    (hnode : e.node = none) (fuel : Nat) : PathId.completionsWithin (fuel + 1) p s = .ok [] s := by
  rw [PathId.completionsWithin]
  show (p.type? >>= _) s = _
  rw [bind_of_ok (PathId.type?_run_of_empty he hnode)]
  rfl

/-- The search from above ends, and what it finds is at the end of a function or program. -/
theorem completionsWithin_returns (hs : s.Sound K) (hp : s.Descends d p) :
    Returns (PathId.completionsWithin (d + 1) p) s fun l s' =>
      s.Went K s' ∧ ∀ r ∈ l, s'.Records r := by
  induction d generalizing s p with
  | zero =>
    obtain ⟨e, he, hnode⟩ := hp
    cases hn : e.node with
    | none => exact ⟨[], s, completionsWithin_empty he hn 0, .refl hs, by simp⟩
    | some n => exact (hnode n hn).2.2.elim
  | succ d ih =>
    obtain ⟨e, he, hnode⟩ := hp
    cases hn : e.node with
    | none => exact ⟨[], s, completionsWithin_empty he hn (d + 1), .refl hs, by simp⟩
    | some n =>
      obtain ⟨hreach, hclosing, hd⟩ := hnode n hn
      have hp : s.Holds p n := ⟨e, he, hn⟩
      obtain ⟨k, hk⟩ := hs.forest.kind n (hs.mem_of_holds hp)
      have hthrough : ∀ fields : List Field, Returns (do
          let lists ← fields.mapM fun f => do PathId.completionsWithin (d + 1) (← p.child f)
          pure lists.flatten) s fun l s' => s.Went K s' ∧ ∀ r ∈ l, s'.Records r := fun fields =>
        (completionsOfFields_returns (fun _ _ => ih) hs hp hreach hclosing hd fields).bind
          fun _ _ hls => .pure hls
      rw [PathId.completionsWithin]
      refine returns_bind_of_ok (PathId.type?_run_of_holds hp hk) ?_
      split
      · exact .pure ⟨.refl hs, by simp⟩
      · exact hthrough _
      · exact hthrough _
      -- A program and a block: the search goes on in the last statement.
      iterate 2
        · refine (lastElement_returns hs hp hreach hclosing hd .body).bind fun ps s₁ hps => ?_
          split
          · next last heq =>
            refine (ih hps.1.sound (hps.2 last heq)).mono fun l s₂ hl => ⟨hps.1.trans hl.1, hl.2⟩
          · exact .pure ⟨hps.1, by simp⟩
      · next type _ _ hprogram _ heq =>
        obtain rfl := Option.some.inj heq
        split
        · exact hthrough _
        · next hthrough =>
          refine .pure ⟨.refl hs, fun r hr => ?_⟩
          obtain rfl := List.mem_singleton.mp hr
          have hplain : (k.type.isFunction || k.type == .program) = false := by
            simp_all
          rcases hclosing with ⟨type, htype, houter⟩ | ⟨b, hb⟩
          · rw [Option.some.inj (htype.symm.trans (Tree.type?_of_kind hk)), hplain] at houter
            cases houter
          · exact ⟨n, b, k.type, hp, hb, Tree.type?_of_kind hk, hplain⟩

end Descent

/-- The search from the root. -/
def rootRecords : SessionM (List PathId) := do (← rootPath).completionRecords

/-- What the search from the root finds is a completion record to the question that includes
functions. To the question that does not, it is one if what is around it is the program and no
function. This holds wherever the paths are in step with the tree, so in every session in which
nothing was edited (`Session.Viewed.sound`). -/
theorem completionRecords_tested {s : Session} {K : Set NodeId} (ht : s.tree.IsProgram)
    (hs : s.Sound K) : ∃ records s', rootRecords s = .ok records s' ∧ s'.tree = s.tree ∧
      ∀ r ∈ records, r.isCompletionRecord true s' = .ok true s' ∧
        ∃ n b type, s'.Holds r n ∧ s.tree.RunsIn n b ∧ s.tree.type? b = some type ∧
          r.isCompletionRecord false s' = .ok (type == .program) s' := by
  obtain ⟨root, hroot, hprogram⟩ := ht.root
  have hsearch : Returns rootRecords s fun l s' => s.Went K s' ∧ ∀ r ∈ l, s'.Records r := by
    refine (pathFor_returns .root hs (Position.within_root K) rfl).bind fun p s₁ hp => ?_
    obtain ⟨e, hf, -⟩ := hp.files
    have hdescends : s₁.Descends s₁.tree.depthBound p := by
      refine ⟨e, hf.data, fun n hn => ?_⟩
      have hocc : s₁.tree.root = some n := hf.node.symm.trans hn
      rw [hp.tree] at hocc ⊢
      obtain rfl := Option.some.inj (hroot.symm.trans hocc)
      refine ⟨.root hroot, .inl ⟨_, hprogram, rfl⟩, (hs.forest.depthWithin ?_).mono ?_⟩
      · exact hs.forest.mem_of_reachable (.root hroot)
      · exact Nat.le_add_right _ 2
    unfold PathId.completionRecords
    rw [Returns, run_get_bind]
    exact (completionsWithin_returns hp.sound hdescends).mono fun l s₂ hl =>
      ⟨hp.toWent.trans hl.1, hl.2⟩
  obtain ⟨records, s', hrun, hwent, hrecords⟩ := hsearch
  refine ⟨records, s', hrun, hwent.tree, fun r hr => ?_⟩
  obtain ⟨n, b, type, hrn, hb, htype, hplain⟩ := hrecords r hr
  have hin := hb.runsIn htype hplain
  have ht' : s'.tree.IsProgram := by rwa [hwent.tree]
  obtain ⟨type', htype'⟩ := hb.exists_type
  refine ⟨?_, n, b, type', hrn, ?_, ?_, ?_⟩
  · rw [PathId.isCompletionRecord_run ht' hwent.sound hrn hb htype', Bool.or_true]
  · rwa [← hwent.tree]
  · rwa [← hwent.tree]
  · rw [PathId.isCompletionRecord_run ht' hwent.sound hrn hb htype', Bool.or_false]

/-- The program `if (c) { a; } else { function f() { b; } }`. -/
def tailsProgram : Tree where
  nodes := #[{ kind := .identifier "c" none }, { kind := .identifier "a" none },
    { kind := .expressionStatement ⟨1⟩ }, { kind := .blockStatement [⟨2⟩] },
    { kind := .identifier "f" none }, { kind := .identifier "b" none },
    { kind := .expressionStatement ⟨5⟩ }, { kind := .blockStatement [⟨6⟩] },
    { kind := .functionDeclaration (some ⟨4⟩) [] ⟨7⟩ false false none },
    { kind := .blockStatement [⟨8⟩] }, { kind := .ifStatement ⟨0⟩ ⟨3⟩ (some ⟨9⟩) },
    { kind := .program [⟨10⟩] [] }]
  root := some ⟨11⟩

theorem tailsProgram_isProgram : tailsProgram.IsProgram :=
  .of_bottomUp (by decide) (by decide) (by decide) (by decide)

/-- The session after the search, which found the statements in the two branches. -/
def tailsSession : Session := after rootRecords { tree := tailsProgram }

theorem tailsProgram_found :
    rootRecords { tree := tailsProgram } = .ok [⟨3⟩, ⟨7⟩] tailsSession :=
  eq_ok_of_value? (by decide +kernel)

/-- In both branches there is a record, the one in the program and the other one in a function. -/
theorem tailsProgram_tested : tailsProgram.IsProgram ∧
    Session.Sound { tree := tailsProgram } tailsProgram.reachable ∧
    ∃ r q s', rootRecords { tree := tailsProgram } = .ok [r, q] s' ∧
      (s'.Holds r ⟨2⟩ ∧ r.isCompletionRecord true s' = .ok true s' ∧
        r.isCompletionRecord false s' = .ok true s') ∧
      s'.Holds q ⟨6⟩ ∧ q.isCompletionRecord true s' = .ok true s' ∧
        q.isCompletionRecord false s' = .ok false s' := by
  have hsound := (fresh_orderly tailsProgram_isProgram {}).sound
  obtain ⟨records, s', hrun, -, hrecords⟩ :=
    completionRecords_tested tailsProgram_isProgram hsound
  obtain ⟨rfl, rfl⟩ := EStateM.Result.ok.inj (tailsProgram_found.symm.trans hrun)
  have hanswers : ∀ r ∈ [(⟨3⟩, true), (⟨7⟩, false)],
      value? (PathId.isCompletionRecord r.1 false) tailsSession = some r.2 := by decide +kernel
  have hholds : (tailsSession.paths[3]?.bind PathData.node) = some ⟨2⟩ ∧
      (tailsSession.paths[7]?.bind PathData.node) = some ⟨6⟩ := by decide +kernel
  -- The question leaves the session as it is, whatever the answer is.
  have hanswer : ∀ r ∈ [(⟨3⟩, true), (⟨7⟩, false)],
      PathId.isCompletionRecord r.1 false tailsSession = .ok r.2 tailsSession := by
    intro r hr
    have hmem : r.1 ∈ [(⟨3⟩ : PathId), ⟨7⟩] := List.mem_map_of_mem (f := Prod.fst) hr
    obtain ⟨-, n, b, type, -, -, -, hfalse⟩ := hrecords r.1 hmem
    have hvalue := hanswers r hr
    unfold value? at hvalue
    rw [hfalse] at hvalue
    rw [hfalse, Option.some.inj hvalue]
  exact ⟨tailsProgram_isProgram, hsound, ⟨3⟩, ⟨7⟩, _, hrun,
    ⟨Option.bind_eq_some_iff.mp hholds.1, (hrecords ⟨3⟩ (by simp)).1, hanswer (⟨3⟩, true) (by simp)⟩,
    Option.bind_eq_some_iff.mp hholds.2, (hrecords ⟨7⟩ (by simp)).1, hanswer (⟨7⟩, false) (by simp)⟩

/-- To the question that leaves out functions, not everything that is found is a record: the last
statement of a function that stands last in the program is none. -/
theorem tailsProgram_untested : ¬ ∀ t : Tree, t.IsProgram → ∀ records s',
    rootRecords { tree := t } = .ok records s' → ∀ r ∈ records,
      r.isCompletionRecord false s' = .ok true s' := by
  intro h
  have htrue := h tailsProgram tailsProgram_isProgram _ _ tailsProgram_found ⟨7⟩ (by simp)
  have hfalse : value? (PathId.isCompletionRecord ⟨7⟩ false) tailsSession = some false := by
    decide +kernel
  unfold value? at hfalse
  rw [htrue] at hfalse
  cases hfalse

end Espalier
