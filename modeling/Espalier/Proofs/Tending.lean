import Espalier.Proofs.Arrows
import Espalier.Proofs.Wrapping

set_option autoImplicit false

/-! # Edits around the function

Each edit leaves the calls of a ledger standing as long as the nodes it moves are none of theirs.
New nodes, insertions into lists and declarations bring no path nearer to a call (`Session.Tends`);
the edits that put another node at a position, or take one away, are only known to leave the calls
alone (`Session.Heeds`). That a node is none of a wrapper's follows from its type, or from where
it stands: nothing else has one of them below it. -/

namespace Espalier

open SessionM

/-- A question is answered, and the rest runs on the same session. -/
theorem question_bind_eq_ok {α β : Type} {x : SessionM α} {f : α → SessionM β} {s s' : Session}
    {b : β} (hx : Composed (fun _ _ => False) x) (hrun : (x >>= f) s = .ok b s') :
    ∃ a, x s = .ok a s ∧ f a s = .ok b s' := by
  obtain ⟨a, s₁, ha, hrest⟩ := bind_eq_ok hrun
  obtain rfl := question_run hx ha
  exact ⟨a, ha, hrest⟩

/-- A path at an element lives in the list, under the index. -/
theorem PathData.position?_eq_item {d : PathData} {owner : NodeId} {f : Field} {i : Nat} :
    d.position? = some (.item owner f i) ↔ d.container = .list owner f ∧ d.key = .index i := by
  constructor
  · intro h
    obtain hc := Container.position?_container h
    refine ⟨hc.symm, ?_⟩
    unfold PathData.position? at h
    rw [← hc] at h
    unfold Container.position? at h
    split at h <;> simp_all [Position.container]
  · rintro ⟨hc, hk⟩
    rw [PathData.position?, hc, hk]
    rfl

theorem PathData.notes_shifted (d : PathData) (start : Nat) (delta : Int) :
    (d.shifted start delta).notes = d.notes := by
  unfold PathData.shifted
  split
  · split <;> rfl
  · rfl

theorem Seating.of_charting {α : Type} {x : SessionM α} (hx : Charting x) {s s' : Session} {a : α}
    (hs : s.Tidy) (hrun : x s = .ok a s') :
    s'.tree = s.tree ∧ ∀ p c n, s.Sits p c n → s'.Sits p c n := by
  have h := Seating.charting hx s hs
  rw [after_of_ok hrun] at h
  exact h.2

namespace Session

variable {s s' : Session} {K : Set Wrapping} {s₀ : Session} {W : Wrapping}
  {p q : PathId} {n new : NodeId} {α : Type}

theorem noted_of_data (h : ∀ (p : PathId) d', s'.paths[p.index]? = some d' →
    ∃ d, s.paths[p.index]? = some d ∧ d'.notes = d.notes) (p : PathId) (x : String)
    (hx : s'.NotesResult p x) : s.NotesResult p x := by
  obtain ⟨d', hd', hnote⟩ := hx
  obtain ⟨d, hd, hnotes⟩ := h p d' hd'
  exact ⟨d, hd, hnotes ▸ hnote⟩

theorem Holds.knows (h : s.Holds p n) : s.Knows p :=
  let ⟨_, hd, _⟩ := h
  knows_of_data hd

theorem Closed.knows_held (h : s.Closed) (hp : s.Holds p n) : s.Knows n :=
  let ⟨d, hd, hn⟩ := hp
  (h.paths.data p d hd).1 n hn

/-- The node is in the tree, and no wrapper's. -/
def Spare (s : Session) (K : Set Wrapping) (n : NodeId) : Prop := s.Knows n ∧ ∀ W ∈ K, n ∉ W.nodes

theorem Spare.mono (h : s.Spare K n) (hmore : s.Extends s') : s'.Spare K n :=
  ⟨hmore.knows h.1, h.2⟩

namespace Ledger

/-- What every edit keeps in order. -/
theorem keptFrom [Names α] (h : s.Ledger K s₀) {P : Session → Prop} {x : SessionM α}
    (htidy : TidyingFrom P x) (hP : P s) (hcareful : Careful x s) {a : α} (hrun : x s = .ok a s') :
    s'.Tidy ∧ s'.Closed ∧ s.Extends s' ∧ s'.Knows a := by
  have htidy := htidy s h.tidy hP
  have hends := hcareful h.closed
  rw [after_of_ok hrun] at htidy
  rw [hrun] at hends
  exact ⟨htidy.tidy, hends.2.1, hends.1, hends.2.2⟩

theorem kept [Names α] (h : s.Ledger K s₀) {x : SessionM α} (htidy : Tidying x)
    (hcareful : Careful x s) {a : α} (hrun : x s = .ok a s') :
    s'.Tidy ∧ s'.Closed ∧ s.Extends s' ∧ s'.Knows a :=
  h.keptFrom (P := fun _ => True) (.of_tidying htidy) trivial hcareful hrun

theorem answer [Names α] (h : s.Ledger K s₀) {x : SessionM α} (hx : Reads x s) {a : α}
    (hrun : x s = .ok a s') : s.Knows a := by
  rcases hx h.closed with ⟨b, hb, hknown⟩ | ⟨e, he, -⟩
  · cases hb.symm.trans hrun
    exact hknown
  · cases he.symm.trans hrun

/-- A step that leaves the paths of the functions alone, and notes nothing. -/
theorem step (h : s.Ledger K s₀) (htidy : s'.Tidy) (hclosed : s'.Closed) (hmore : s.Extends s')
    (htree : ∀ W ∈ K, s.tree.Upholds W s'.tree)
    (hpath : ∀ W ∈ K, ∀ d, s.paths[W.callee.index]? = some d →
      ∃ d', s'.paths[W.callee.index]? = some d' ∧ d'.container = d.container ∧
        d'.position? = d.position? ∧ d'.node = d.node)
    (hqueue : ∀ W ∈ K, s'.Queued W.callee → s.Queued W.callee)
    (hnoted : ∀ p x, s'.NotesResult p x → s.NotesResult p x) : s.Heeds K s₀ s' where
  ledger :=
    { tidy := htidy
      closed := hclosed
      grown := h.grown.trans hmore.nodes
      wraps := fun W hW => (h.wraps W hW).step (htree W hW) (hpath W hW) (hqueue W hW)
      made := h.made
      apart := h.apart
      noted := fun p x hx => h.noted p x (hnoted p x hx) }
  more := hmore

/-- A change of nothing but the tree. -/
theorem ofTree (h : s.Ledger K s₀) {t : Tree} (hclosed : Closed { s with tree := t })
    (hmore : s.tree.size ≤ t.size) (htree : ∀ W ∈ K, s.tree.Upholds W t) :
    s.Heeds K s₀ { s with tree := t } :=
  h.step (h.tidy.of_same rfl rfl rfl) hclosed (extends_tree hmore) htree
    (fun _ _ d hd => ⟨d, hd, rfl, rfl, rfl⟩) (fun _ _ hq => hq) fun _ _ hx => hx

/-- More nodes, while the calls stand. -/
theorem grow (h : s.Ledger K s₀) {t : Tree} (hg : s.tree.Grown t)
    (hclosed : Closed { s with tree := t }) (hwraps : ∀ W ∈ K, t.Wraps W) :
    s.Tends K s₀ { s with tree := t } := by
  refine ⟨h.ofTree hclosed hg.size fun W hW => ⟨hwraps W hW, fun _ _ _ _ => hg.occupant⟩,
    fun p hp => ?_⟩
  obtain ⟨d, pos, n, m, hd, hpos, hn, hmem, hocc, hm⟩ := hp
  exact ⟨d, pos, n, m, hd, hpos, hn, hmem, hg.occupant hocc, hm⟩

/-- A new node is no wrapper's. -/
theorem make (h : s.Ledger K s₀) {k : NodeKind} (hk : ∀ c ∈ k.children, s.Spare K c)
    (hrun : onTree (TreeM.alloc k) s = .ok n s') :
    s.Tends K s₀ s' ∧ s' = s.allocated k ∧ n = ⟨s.tree.size⟩ ∧ s'.Spare K n := by
  cases (alloc_run k).symm.trans hrun
  obtain ⟨-, hclosed, -⟩ := h.kept (.onTree _) (.alloc fun c hc => (hk c hc).1) (alloc_run k)
  refine ⟨h.grow (.push s.tree _) hclosed fun W hW =>
    ((h.wraps W hW).tree.push fun c hc => (hk c hc).2 W hW).wraps, rfl, rfl, ?_,
    h.not_mem_of_size (Nat.le_refl _)⟩
  show s.tree.size < (s.allocated k).tree.size
  simp

/-- A change of nothing but the scopes. -/
theorem ofScopes (h : s.Ledger K s₀) {scopes : ScopeTable} (hclosed : Closed { s with scopes })
    (hmore : s.Extends { s with scopes }) : s.Tends K s₀ { s with scopes } :=
  ⟨h.step (h.tidy.of_same rfl rfl rfl) hclosed hmore (fun W hW => (h.wraps W hW).tree.alike (.refl _))
    (fun _ _ d hd => ⟨d, hd, rfl, rfl, rfl⟩) (fun _ _ hq => hq) fun _ _ hx => hx,
    fun _ hp => hp.of_same rfl rfl⟩

/-- A change of nothing but comments. -/
theorem decorate (h : s.Ledger K s₀) {x : TreeM Unit} (hx : x.Decorates s.tree) {u : Unit}
    (hrun : onTree x s = .ok u s') :
    s.Tends K s₀ s' ∧ ∃ t, s' = { s with tree := t } ∧ s.tree.Alike t := by
  obtain ⟨-, hclosed, hmore, -⟩ := h.kept (.onTree _) (.decorate fun _ => hx) hrun
  obtain ⟨t, ht, halike⟩ := onTree_decorates hx
  cases ht.symm.trans hrun
  refine ⟨⟨h.ofTree hclosed hmore.nodes fun W hW => (h.wraps W hW).tree.alike halike, fun p hp => ?_⟩,
    t, rfl, halike⟩
  obtain ⟨d, pos, n, m, hd, hpos, hn, hmem, hocc, hm⟩ := hp
  exact ⟨d, pos, n, m, hd, hpos, hn, hmem, (halike.occupant? pos).trans hocc, hm⟩

theorem recordMutation (h : s.Ledger K s₀) {u : Unit} (hrun : recordMutation s = .ok u s') :
    s.Tends K s₀ s' := by
  obtain ⟨htidy, hclosed, hmore, -⟩ := h.kept (.of_quiet .recordMutation) .recordMutation hrun
  cases hrun
  exact ⟨h.step htidy hclosed hmore (fun W hW => (h.wraps W hW).tree.alike (.refl _))
    (fun _ _ d hd => ⟨d, hd, rfl, rfl, rfl⟩) (fun _ _ hq => hq) fun _ _ hx => hx,
    fun p hp => hp.of_same rfl rfl⟩

end Ledger

/-! ## Insertion -/

/-- Nodes come into a list, and the paths behind them move. -/
theorem Skirts.splice (h : s.Skirts K p) (hs : s.Tidy) {owner : NodeId} {f : Field}
    {ids nodes : List NodeId} {i : Nat} {k : NodeKind} (hk : s.tree.kind? owner = some k)
    (hc : k.child? f = some (.many ids)) (hi : i ≤ ids.length) :
    (s.spliced owner f ids i nodes).Skirts K p := by
  obtain ⟨d, pos, n, m, hd, hpos, hn, hmem, hocc, hm⟩ := h
  have hlist := relisted_withList hk hc (ids.take i ++ nodes ++ ids.drop i)
  have hlength : (ids.take i ++ nodes ++ ids.drop i).length = ids.length + nodes.length := by
    simp only [List.length_append, List.length_take, List.length_drop]
    omega
  have hdata : (s.spliced owner f ids i nodes).paths[p.index]? =
      if p ∈ s.bucket (.list owner f) then some (d.shifted i nodes.length) else some d := by
    rw [spliced, getElem?_mapPaths (hs.nodup _)]
    show (if _ then Option.map _ s.paths[p.index]? else s.paths[p.index]?) = _
    rw [hd, Option.map_some]
  -- An element stays within the list, whether its index was moved or not.
  have hitem : ∀ {d' : PathData} {j : Nat}, (s.spliced owner f ids i nodes).paths[p.index]? = some d' →
      d'.position? = some (.item owner f j) → d'.node = some n → j < ids.length + nodes.length →
      (s.spliced owner f ids i nodes).Skirts K p := by
    intro d' j hd' hpos' hn' hj
    rw [← hlength] at hj
    exact ⟨d', _, n, _, hd', hpos', hn', hmem,
      (hlist.occupant?_item j).trans (List.getElem?_eq_getElem hj), .inl ⟨owner, f, j, rfl⟩⟩
  rcases Tree.Relisted.position_cases owner f pos with ⟨j, rfl⟩ | hcontainer
  · have hj : j < ids.length := by
      simp only [Tree.occupant?, hlist.list?, Option.bind_some] at hocc
      exact (List.getElem?_eq_some_iff.mp hocc).1
    split at hdata
    · obtain ⟨hcontainer, hkey⟩ := PathData.position?_eq_item.mp hpos
      have hshift := d.shifted_of_index i nodes.length hkey
      refine hitem hdata (PathData.position?_eq_item.mpr ⟨?_, ?_⟩) ?_
        (j := shiftedIn i nodes.length j) ?_
      · rw [hshift]
        exact hcontainer
      · rw [hshift, shiftedIn]
      · rw [hshift]
        exact hn
      · simp only [shiftedIn, Key.shiftIndex]
        split <;> omega
    · exact hitem hdata hpos hn (by omega)
  · -- A path of another container stays where it is.
    rw [if_neg fun hb => hcontainer ?_] at hdata
    · refine ⟨d, pos, n, m, hdata, hpos, hn, hmem, ?_, hm⟩
      exact (hlist.occupant? hcontainer).trans hocc
    · obtain ⟨e, he, hec, -⟩ := hs.filed _ p hb
      obtain rfl := Option.some.inj (hd.symm.trans he)
      rw [← hec]
      exact Container.position?_container hpos

end Session

/-- To put nodes into a list is to splice them in, to find their paths, and to register what they
declare. -/
theorem PathId.insertAt_eq_ok {s s' : Session} {p : PathId} {f : Field} {i : Nat}
    {nodes : List NodeId} {ps : List PathId} (hs : s.Tidy)
    (hrun : p.insertAt f i nodes s = .ok ps s') :
    ∃ owner k ids s₁, s.Holds p owner ∧ s.tree.kind? owner = some k ∧
      k.child? f = some (.many ids) ∧ i ≤ ids.length ∧
      ((List.range nodes.length).mapM fun j => p.element f (i + j))
        (s.spliced owner f ids i nodes) = .ok ps s₁ ∧
      registerInserted ps { s₁ with mutations := s₁.mutations + 1 } = .ok () s' := by
  obtain ⟨o, ho, hrun⟩ := question_bind_eq_ok (.node? p) hrun
  cases o with
  | none => cases hrun
  | some owner =>
    have hp := (PathId.holds_of_node? ho).2
    obtain ⟨k, hk, hrun⟩ := question_bind_eq_ok (.ask _) hrun
    have hk := (ask_eq_ok hk).2
    cases hc : k.child? f with
    | none =>
      rw [hc] at hrun
      cases hrun
    | some c =>
      rw [hc] at hrun
      cases c with
      | one | opt => cases hrun
      | many ids =>
        dsimp only at hrun
        split at hrun
        · cases hrun
        · next hi =>
          rw [bind_of_ok (modifyKind_run hk _)] at hrun
          have hshift := shiftKeys_run
            (s := s.withList owner f (ids.take i ++ nodes ++ ids.drop i)) (.list owner f) i
            nodes.length fun q hq => (hs.filed _ q hq).imp fun _ hd => hd.1
          obtain ⟨u, s₁, hu, hrun⟩ := bind_eq_ok hrun
          cases hshift.symm.trans hu
          obtain ⟨ps', s₂, hps, hrun⟩ := bind_eq_ok hrun
          obtain ⟨u, s₃, hcount, hrun⟩ := bind_eq_ok hrun
          cases hcount
          obtain ⟨crawled, hcrawled, hrun⟩ := question_bind_eq_ok .scopesCrawled hrun
          have hregister : registerInserted ps' { s₂ with mutations := s₂.mutations + 1 } =
              .ok () s' ∧ ps' = ps := by
            unfold registerInserted
            rw [bind_of_ok hcrawled]
            cases crawled with
            | true =>
              obtain ⟨u, s₄, hu, hrun⟩ := bind_eq_ok hrun
              cases hrun
              exact ⟨hu, rfl⟩
            | false =>
              cases hrun
              exact ⟨rfl, rfl⟩
          exact ⟨owner, k, ids, s₂, hp, hk, hc, by omega, hregister.2 ▸ hps,
            hregister.2 ▸ hregister.1⟩

theorem Charting.registerInserted (ps : List PathId) : Charting (registerInserted ps) := by
  refine Composed.scopesCrawled.bind fun crawled => ?_
  refine Composed.ite (.forM ps fun q => (Composed.isAny q _).bind fun declares => ?_) (.pure _)
  exact .ite (Charting.registerDeclaration q) (.pure _)

theorem Careful.registerInserted {s : Session} {ps : List PathId} (hps : s.Knows ps) :
    Careful (registerInserted ps) s := by
  refine Reads.scopesCrawled.andThen fun crawled _ => .ite (fun _ => ?_) fun _ => .pure trivial
  exact .forM hps fun q s₁ _ hq => (Reads.isAny hq _).andThen fun _ _ =>
    .ite (fun _ => .registerDeclaration hq) fun _ => .pure trivial

namespace Session.Ledger

variable {s s₁ s' : Session} {K : Set Wrapping} {s₀ : Session} {W : Wrapping}
  {p q : PathId} {n new owner : NodeId} {k : NodeKind} {f : Field} {ids nodes : List NodeId} {i : Nat}
  {ps : List PathId}

/-- A list gets other elements, and the paths of some elements other keys; at the end of a body the
results stand again. -/
theorem relist (h : s.Ledger K s₀) (hk : s.tree.kind? owner = some k)
    (hc : k.child? f = some (.many ids)) {ids' : List NodeId} (start : Nat) (delta : Int)
    (hids' : ∀ n ∈ ids', n ∈ ids ∨ s.Spare K n)
    (hresults : ∀ W ∈ K, owner = W.body → f = .body → ∃ front, ids' = front ++ W.returns) :
    s.Heeds K s₀ ((s.withList owner f ids').mapPaths (s.bucket (.list owner f))
      (PathData.shifted start delta)) := by
  have hlist := relisted_withList hk hc ids'
  have hrun : (do
      modifyKind owner fun k => k.setList f ids'
      shiftKeys (.list owner f) start delta) s = .ok () ((s.withList owner f ids').mapPaths
        (s.bucket (.list owner f)) (PathData.shifted start delta)) := by
    rw [bind_of_ok (modifyKind_run hk _)]
    exact shiftKeys_run (s := s.withList owner f _) _ _ _
      fun q hq => (h.tidy.filed _ q hq).imp fun _ hd => hd.1
  have hids : s.Knows ids :=
    knows_child_list (knows_kind_child (fun n => h.closed.tree.children owner k hk n) f _ hc) ids rfl
  have hdata : ∀ q : PathId, ((s.withList owner f ids').mapPaths (s.bucket (.list owner f))
      (PathData.shifted start delta)).paths[q.index]? =
      if q ∈ s.bucket (.list owner f) then s.paths[q.index]?.map (PathData.shifted start delta)
      else s.paths[q.index]? := fun q => getElem?_mapPaths (h.tidy.nodup _) _ q
  obtain ⟨htidy, hclosed, hmore, -⟩ := h.kept
    ((Tidying.onTree _).bind fun _ => .of_quiet (.shiftKeys _ _ _))
    ((Careful.modifyKind ((s.tree.kind?_isSome_iff owner).mp ⟨k, hk⟩) fun _ _ hk' =>
      knows_setList hk' fun n hn => (hids' n hn).elim (hids n) And.left).bind fun _ _ _ _ =>
        .shiftKeys _ _) hrun
  refine h.step htidy hclosed hmore (fun W hW => (h.wraps W hW).tree.relisted hlist ?_ ?_) ?_ ?_ ?_
  · exact fun n hn => (hids' n hn).imp_right fun hn => hn.2 W hW
  · exact hresults W hW
  · intro W hW d hd
    refine ⟨d, ?_, rfl, rfl, rfl⟩
    rw [hdata, if_neg fun hb => ?_, hd]
    obtain ⟨e, he, hec, -⟩ := h.tidy.filed _ _ hb
    exact (h.wraps W hW).callee_ne_of_container he (by simp [hec]) rfl
  · exact fun _ _ hq => hq
  · refine noted_of_data fun q d' hd' => ?_
    rw [hdata] at hd'
    split at hd'
    · obtain ⟨d, hd, rfl⟩ := Option.map_eq_some_iff.mp hd'
      exact ⟨d, hd, d.notes_shifted _ _⟩
    · exact ⟨d', hd', rfl⟩

/-- Nodes come into a list before the results. -/
theorem splice (h : s.Ledger K s₀) (hk : s.tree.kind? owner = some k)
    (hc : k.child? f = some (.many ids)) (hi : i ≤ ids.length)
    (hnodes : ∀ n ∈ nodes, s.Spare K n)
    (hroom : ∀ W ∈ K, owner = W.body → f = .body → i + W.results.length ≤ ids.length) :
    s.Tends K s₀ (s.spliced owner f ids i nodes) := by
  refine ⟨h.relist hk hc i nodes.length (fun n hn => ((mem_splice i).mp hn).imp_right (hnodes n)) ?_,
    fun p hp => hp.splice h.tidy hk hc hi⟩
  rintro W hW hbody rfl
  obtain ⟨front, hfront⟩ := (h.wraps W hW).tree.statements
  rw [← hbody, (relisted_withList hk hc ids).list?] at hfront
  obtain rfl := Option.some.inj hfront
  have hroom := hroom W hW hbody rfl
  simp only [List.length_append, Wrapping.returns, List.length_map] at hroom
  refine ⟨front.take i ++ nodes ++ front.drop i, ?_⟩
  rw [List.take_append_of_le_length (by omega), List.drop_append_of_le_length (by omega)]
  simp only [List.append_assoc]

/-- The paths of the new elements are found, and what they declare is registered. -/
theorem arrive (h : s.Ledger K s₀) (hp : s.Knows p) {is : List Nat} {g : Nat → Nat}
    (hps : (is.mapM fun j => p.element f (g j)) s = .ok ps s₁) {u : Unit}
    (hrun : registerInserted ps { s₁ with mutations := s₁.mutations + 1 } = .ok u s') :
    s.Tends K s₀ s' ∧ s'.Knows ps ∧ s'.tree = s.tree ∧ ∀ q c n, s.Sits q c n → s'.Sits q c n := by
  have hfind : Charting (is.mapM fun j => p.element f (g j)) :=
    Composed.mapM _ fun j => (Navigating.element p f _).charting
  obtain ⟨h₁, hknown⟩ := h.charting hfind
    (.mapM (knows_numbers _) fun j s₂ h₂ _ => .element (h₂.knows hp) f _) hps
  have h₂ := h₁.ledger.recordMutation (u := ()) rfl
  obtain ⟨h₃, -⟩ := h₂.ledger.charting (.registerInserted ps) (.registerInserted (h₂.more.knows hknown)) hrun
  obtain ⟨htree₁, hkept₁⟩ := Seating.of_charting hfind h.tidy hps
  obtain ⟨htree₃, hkept₃⟩ := Seating.of_charting (.registerInserted ps) h₂.ledger.tidy hrun
  exact ⟨h₁.trans (h₂.trans h₃), (h₂.more.trans h₃.more).knows hknown, htree₃.trans htree₁,
    fun q c n hq => hkept₃ q c n ((hkept₁ q c n hq).of_same rfl rfl)⟩

/-- Nodes are put into a list before the results. -/
theorem insertAt (h : s.Ledger K s₀) (hnodes : ∀ n ∈ nodes, s.Spare K n)
    (hroom : ∀ owner ids, s.Holds p owner → s.tree.list? owner f = some ids → ∀ W ∈ K,
      owner = W.body → f = .body → i + W.results.length ≤ ids.length)
    (hrun : p.insertAt f i nodes s = .ok ps s') : s.Tends K s₀ s' ∧ s'.Knows ps ∧
      ∃ owner k ids, s.Holds p owner ∧ s.tree.kind? owner = some k ∧ k.child? f = some (.many ids) ∧
        i ≤ ids.length ∧ s'.tree = (s.spliced owner f ids i nodes).tree ∧
        ∀ q c n, (s.spliced owner f ids i nodes).Sits q c n → s'.Sits q c n := by
  obtain ⟨owner, k, ids, s₁, hp, hk, hc, hi, hps, hregister⟩ := PathId.insertAt_eq_ok h.tidy hrun
  have hlist := (relisted_withList hk hc ids).list?
  have h₁ := h.splice hk hc hi hnodes (hroom owner ids hp hlist)
  obtain ⟨h₂, hpaths, htree, hkept⟩ := h₁.ledger.arrive (h₁.more.knows hp.knows) hps hregister
  exact ⟨h₁.trans h₂, hpaths, owner, k, ids, hp, hk, hc, hi, htree, hkept⟩

theorem unshiftInto (h : s.Ledger K s₀) (hnodes : ∀ n ∈ nodes, s.Spare K n)
    (hrun : p.unshiftInto f nodes s = .ok ps s') : s.Tends K s₀ s' ∧ s'.Knows ps := by
  obtain ⟨removed, -, hrun⟩ := question_bind_eq_ok (.isRemoved p) hrun
  cases removed with
  | true => cases hrun
  | false =>
    have hroom : ∀ owner ids, s.Holds p owner → s.tree.list? owner f = some ids → ∀ W ∈ K,
        owner = W.body → f = .body → 0 + W.results.length ≤ ids.length := by
      intro owner ids _ hids W hW hbody hf
      obtain ⟨front, hfront⟩ := (h.wraps W hW).tree.statements
      rw [← hbody, ← hf, hids] at hfront
      obtain rfl := Option.some.inj hfront
      simp [Wrapping.returns]
    obtain ⟨h', hps, -⟩ := h.insertAt hnodes hroom hrun
    exact ⟨h', hps⟩

/-- Nodes are put at the end of a list that is no body. -/
theorem pushInto (h : s.Ledger K s₀) (hf : f ≠ .body) (hnodes : ∀ n ∈ nodes, s.Spare K n)
    (hrun : p.pushInto f nodes s = .ok ps s') :
    s.Tends K s₀ s' ∧ s'.Knows ps := by
  obtain ⟨removed, -, hrun⟩ := question_bind_eq_ok (.isRemoved p) hrun
  cases removed with
  | true => cases hrun
  | false =>
    obtain ⟨o, -, hrun⟩ := question_bind_eq_ok (.node? p) hrun
    cases o with
    | none => cases hrun
    | some owner =>
      obtain ⟨length, -, hrun⟩ := question_bind_eq_ok (.listLength owner f) hrun
      obtain ⟨h', hps, -⟩ := h.insertAt hnodes (fun _ _ _ _ _ _ _ hbody => absurd hbody hf) hrun
      exact ⟨h', hps⟩

/-- A node is put to a position where none of a wrapper's stands. -/
theorem setNode (h : s.Ledger K s₀) {d : PathData} (hd : s.paths[p.index]? = some d)
    (hlive : d.removed = false)
    (hfree : ∀ pos, d.position? = some pos → ∀ W ∈ K, ∀ n ∈ W.nodes, s.tree.occupant? pos ≠ some n)
    (hnew : s.Spare K new) {u : Unit} (hrun : p.setNode new s = .ok u s') : s.Tends K s₀ s' ∧
      ∃ pos, d.position? = some pos ∧ s.Reseated p pos new s' := by
  obtain ⟨htidy, hclosed, hmore, -⟩ := h.keptFrom (.of_quietFrom (p.setNode_quiet new))
    ⟨d, hd, hlive⟩ (.setNode (knows_of_data hd) hnew.1) hrun
  rcases PathId.setNode_cases hd new with ⟨pos, s₁, hpos, hset, hseated, -⟩ | ⟨e, he, -⟩
  · cases hset.symm.trans hrun
    have hcallee : ∀ W ∈ K, W.callee ≠ p := by
      rintro W hW rfl
      obtain ⟨e, pos', he, -, -, hpos', hocc⟩ := (h.wraps W hW).sits
      obtain rfl := Option.some.inj (hd.symm.trans he)
      exact hfree pos' hpos' W hW _ W.function_mem hocc
    refine ⟨⟨h.step htidy hclosed hmore (fun W hW => ?_) (fun W hW e he => ?_) (fun W hW hq => ?_) ?_,
      fun q hq => ?_⟩, pos, hpos, hseated⟩
    · exact (h.wraps W hW).tree.replanted hseated.tree (hfree pos hpos W hW) (hnew.2 W hW)
    · exact ⟨e, by rw [hseated.getElem?_paths, if_neg (hcallee W hW), he], rfl, rfl, rfl⟩
    · rw [hseated.rest] at hq
      exact hq
    · refine noted_of_data fun q d' hd' => ?_
      rw [hseated.getElem?_paths] at hd'
      split at hd'
      · obtain ⟨e, he, rfl⟩ := Option.map_eq_some_iff.mp hd'
        exact ⟨e, he, rfl⟩
      · exact ⟨d', hd', rfl⟩
    · obtain ⟨e, pos', m, m', he, hpos', hm, hmem, hocc, hm'⟩ := hq
      have hocc' : ∃ m', s'.tree.occupant? pos' = some m' ∧
          ((∃ o f i, pos' = .item o f i) ∨ ∀ W ∈ K, m' ∉ W.nodes) := by
        by_cases heq : pos' = pos
        · exact ⟨new, heq ▸ hseated.tree.here, .inr hnew.2⟩
        · exact ⟨m', (hseated.tree.other pos' heq).trans hocc, hm'⟩
      obtain ⟨m', hocc', hm'⟩ := hocc'
      by_cases hq : q = p
      · refine ⟨{ e with node := some new, inferred := none }, pos', new, m', ?_, hpos', rfl, hnew.2,
          hocc', hm'⟩
        rw [hseated.getElem?_paths, if_pos hq, he, Option.map_some]
      · exact ⟨e, pos', m, m', by rw [hseated.getElem?_paths, if_neg hq, he], hpos', hm, hmem, hocc', hm'⟩
  · cases he.symm.trans hrun

/-- A path that holds none of the nodes is led to another place of its node. -/
theorem moveTo (h : s.Ledger K s₀) (hp : s.Holds p n) (hn : ∀ W ∈ K, n ∉ W.nodes) {m : NodeId}
    (hocc : s.tree.occupant? (.slot m f) = some n) {parent : Option PathId}
    (hparent : s.Knows parent) (hm : s.Knows m) {u : Unit}
    (hrun : p.moveTo parent (.slot m) (.field f) s = .ok u s') :
    s.Tends K s₀ s' ∧ s'.tree = s.tree ∧ s'.Sits p (.slot m) n ∧
      ∀ q, q ≠ p → s'.paths[q.index]? = s.paths[q.index]? := by
  obtain ⟨hlive, hplaced⟩ := h.tidy.live_of_holds hp
  obtain ⟨d, hd, hnode⟩ := hp
  obtain ⟨htidy, hclosed, hmore, -⟩ := h.keptFrom (P := Seated p)
    (.of_quietFrom (p.moveTo_quiet parent (by simp) (.field f))) ⟨hlive, hplaced⟩
    (.moveTo hplaced hparent (knows_some.mpr hm) (by simp) _) hrun
  cases (PathId.moveTo_run hd parent (.slot m) (.field f)).symm.trans hrun
  have hself : (s.relocated p d.container parent (.slot m) (.field f)).paths[p.index]? =
      some { d with parent, key := .field f, container := .slot m } := getElem?_relocated_self hd
  have hcallee : ∀ W ∈ K, W.callee ≠ p := fun W hW =>
    (h.wraps W hW).callee_ne ⟨d, hd, hnode⟩ (hn W hW)
  have htree : (s.relocated p d.container parent (.slot m) (.field f)).tree = s.tree := by
    simp only [relocated, rehomed, unfiled]
    split <;> rfl
  have hframes : (s.relocated p d.container parent (.slot m) (.field f)).frames = s.frames := by
    simp only [relocated, rehomed, unfiled]
    split <;> rfl
  refine ⟨⟨h.step htidy hclosed hmore (fun W hW => ?_) (fun W hW e he => ?_) (fun W hW hq => ?_) ?_,
    fun q hq => ?_⟩, htree, ⟨_, _, hself, rfl, hnode, rfl, htree ▸ hocc⟩,
    fun q hq => getElem?_relocated hq⟩
  · exact (h.wraps W hW).tree.alike (htree ▸ .refl _)
  · exact ⟨e, (getElem?_relocated (hcallee W hW)).trans he, rfl, rfl, rfl⟩
  · simpa only [Queued, hframes] using hq
  · refine noted_of_data fun q d' hd' => ?_
    by_cases hq : q = p
    · rw [hq, hself] at hd'
      obtain rfl := Option.some.inj hd'
      exact ⟨d, hq ▸ hd, rfl⟩
    · exact ⟨d', (getElem?_relocated hq).symm.trans hd', rfl⟩
  · by_cases heq : q = p
    · rw [heq]
      exact ⟨_, _, n, n, hself, rfl, hnode, hn, htree ▸ hocc, .inr hn⟩
    · exact hq.of_same htree (getElem?_relocated heq)

end Session.Ledger

/-- What leads nowhere has no position and no node. -/
theorem detachedPath_eq_ok {s s' : Session} {parent : Option PathId} {q : PathId} (hs : s.Tidy)
    (hrun : detachedPath parent s = .ok q s') :
    ∃ d, s'.paths[q.index]? = some d ∧ d.node = none ∧ d.container = .detached := by
  rcases detachedAt_cases hs parent .root with ⟨r, e, he, -, hrun'⟩ | hrun'
  · cases hrun'.symm.trans hrun
    exact ⟨_, by rw [getElem?_modify_paths, if_pos rfl, he, Option.map_some], rfl, rfl⟩
  · cases hrun'.symm.trans hrun
    exact ⟨_, Array.getElem?_push_size, rfl, rfl⟩

theorem Session.not_holds_of_empty {s : Session} {p : PathId} {d : PathData}
    (hd : s.paths[p.index]? = some d) (hnone : d.node = none) (n : NodeId) : ¬ s.Holds p n := by
  rintro ⟨e, he, hn⟩
  obtain rfl := Option.some.inj (hd.symm.trans he)
  rw [hnone] at hn
  cases hn

/-- A path that was found at a position sits there. -/
theorem Session.Lands.sits {s s' : Session} {parent : Option PathId} (pos : Position) {q : PathId}
    {n : NodeId} (h : s.Lands parent pos.container pos.key (s.tree.occupant? pos) q s')
    (hq : s'.Holds q n) : s'.tree.occupant? pos = some n ∧ s'.Sits q pos.container n := by
  obtain ⟨e, he, hn⟩ := hq
  obtain ⟨d, hd, hplace, -⟩ := h.data
  obtain rfl := Option.some.inj (hd.symm.trans he)
  simp only [PathData.place, Prod.mk.injEq] at hplace
  obtain ⟨hnode, hc, hkey, -⟩ := hplace
  have hocc : s'.tree.occupant? pos = some n := by
    rw [h.rest]
    exact hnode.symm.trans hn
  refine ⟨hocc, d, pos, hd, hc, hn, ?_, hocc⟩
  rw [PathData.position?, hc, hkey]
  cases pos <;> rfl

namespace PathId

variable {s s' : Session} {p q : PathId} {n : NodeId} {f : Field}

/-- Going to a field leads nowhere, or to what stands there. -/
theorem child_eq_ok (hs : s.Tidy) (hrun : p.child f s = .ok q s') :
    (∃ d, s'.paths[q.index]? = some d ∧ d.node = none ∧ d.container = .detached) ∨
    ∃ m k c, s.Holds p m ∧ s.tree.kind? m = some k ∧ k.child? f = some c ∧
      s.Lands (some p) (.slot m) (.field f) (s.tree.occupant? (.slot m f)) q s' := by
  obtain ⟨o, ho, hrest⟩ := question_bind_eq_ok (.node? p) hrun
  cases o with
  | none => exact .inl (detachedPath_eq_ok hs hrest)
  | some m =>
    have hp := (holds_of_node? ho).2
    obtain ⟨k, hk, hrest⟩ := question_bind_eq_ok (.ask _) hrest
    have hk := (ask_eq_ok hk).2
    cases hc : k.child? f with
    | none =>
      rw [hc] at hrest
      exact .inl (detachedPath_eq_ok hs hrest)
    | some c =>
      have hocc : s.tree.occupant? (.slot m f) = c.node? := by
        simp [Tree.occupant?, Tree.field?, hk, hc]
      rw [hc] at hrest
      cases c with
      | one => exact .inr ⟨m, k, _, hp, hk, hc, hocc ▸ (child_lands hs hp hk hc rfl).of_eq_ok hrun⟩
      | opt => exact .inr ⟨m, k, _, hp, hk, hc, hocc ▸ (child_lands hs hp hk hc rfl).of_eq_ok hrun⟩
      | many => exact .inl (detachedPath_eq_ok hs hrest)

/-- Going to an element leads nowhere, or to what stands there. -/
theorem element_eq_ok (hs : s.Tidy) {i : Nat} (hrun : p.element f i s = .ok q s') :
    (∃ d, s'.paths[q.index]? = some d ∧ d.node = none ∧ d.container = .detached) ∨
    ∃ m, s.Holds p m ∧
      s.Lands (some p) (.list m f) (.index i) (s.tree.occupant? (.item m f i)) q s' := by
  obtain ⟨o, ho, hrest⟩ := question_bind_eq_ok (.node? p) hrun
  cases o with
  | none => exact .inl (detachedPath_eq_ok hs hrest)
  | some m =>
    have hp := (holds_of_node? ho).2
    obtain ⟨k, hk, hrest⟩ := question_bind_eq_ok (.ask _) hrest
    have hk := (ask_eq_ok hk).2
    cases hc : k.child? f with
    | none =>
      rw [hc] at hrest
      exact .inl (detachedPath_eq_ok hs hrest)
    | some c =>
      rw [hc] at hrest
      cases c with
      | one => exact .inl (detachedPath_eq_ok hs hrest)
      | opt => exact .inl (detachedPath_eq_ok hs hrest)
      | many ids =>
        have hocc : s.tree.occupant? (.item m f i) = ids[i]? := by
          simp [Tree.occupant?, Tree.list?, Tree.field?, hk, hc, Child.list?]
        exact .inr ⟨m, hp, hocc ▸ (element_lands hs hp hk hc i).of_eq_ok hrun⟩

/-- A path that shows a node was found where the node stands. -/
theorem child_sits (hs : s.Tidy) (hrun : p.child f s = .ok q s') (hq : s'.Holds q n) :
    ∃ m, s.Holds p m ∧ s'.tree.occupant? (.slot m f) = some n ∧ s'.Sits q (.slot m) n ∧
      ∀ r, r ≠ q → s'.paths[r.index]? = s.paths[r.index]? := by
  rcases child_eq_ok hs hrun with ⟨d, hd, hnone, -⟩ | ⟨m, -, -, hp, -, -, hlands⟩
  · exact absurd hq (Session.not_holds_of_empty hd hnone n)
  · obtain ⟨hocc, hsits⟩ := hlands.sits (.slot m f) hq
    exact ⟨m, hp, hocc, hsits, hlands.others⟩

theorem element_sits (hs : s.Tidy) {i : Nat} (hrun : p.element f i s = .ok q s')
    (hq : s'.Holds q n) :
    ∃ m, s.Holds p m ∧ s'.tree.occupant? (.item m f i) = some n ∧ s'.Sits q (.list m f) n ∧
      ∀ r, r ≠ q → s'.paths[r.index]? = s.paths[r.index]? := by
  rcases element_eq_ok hs hrun with ⟨d, hd, hnone, -⟩ | ⟨m, hp, hlands⟩
  · exact absurd hq (Session.not_holds_of_empty hd hnone n)
  · obtain ⟨hocc, hsits⟩ := hlands.sits (.item m f i) hq
    exact ⟨m, hp, hocc, hsits, hlands.others⟩

/-- The position of a path that was found is that of the field. -/
theorem child_position (hs : s.Tidy) (hrun : p.child f s = .ok q s') {d : PathData} {pos : Position}
    (hd : s'.paths[q.index]? = some d) (hpos : d.position? = some pos) :
    ∃ m, s.Holds p m ∧ pos = .slot m f := by
  rcases child_eq_ok hs hrun with ⟨e, he, -, hc⟩ | ⟨m, -, -, hp, -, -, hlands⟩
  · obtain rfl := Option.some.inj (hd.symm.trans he)
    rw [PathData.position?, hc] at hpos
    cases hpos
  · obtain ⟨e, he, hplace, -⟩ := hlands.data
    obtain rfl := Option.some.inj (hd.symm.trans he)
    simp only [PathData.place, Prod.mk.injEq] at hplace
    obtain ⟨-, hc, hkey, -⟩ := hplace
    rw [PathData.position?, hc, hkey] at hpos
    exact ⟨m, hp, (Option.some.inj hpos).symm⟩

end PathId

/-! ## Declarations -/

namespace Session.Ledger

variable {s s₁ s' : Session} {K : Set Wrapping} {s₀ : Session} {W : Wrapping}
  {p q function : PathId} {n owner : NodeId} {f : Field} {i : ScopeId} {u : Unit}

/-- A node that is no block gets a block around it, and none of a wrapper's is moved. -/
theorem ensureBlock (h : s.Ledger K s₀) (hf : s.Knows function)
    (hrun : ensureBlock function s = .ok u s') : s.Tends K s₀ s' := by
  unfold Espalier.ensureBlock at hrun
  obtain ⟨body, s₁, hchild, hrun⟩ := bind_eq_ok hrun
  obtain ⟨h₁, hbody⟩ := h.charting (Navigating.child function .body).charting (.child hf .body) hchild
  obtain ⟨o, ho, hrun⟩ := question_bind_eq_ok (.node? body) hrun
  cases o with
  | none => cases hrun
  | some e =>
    have hholds := (PathId.holds_of_node? ho).2
    obtain ⟨m, hm, hocc, -, hothers⟩ := PathId.child_sits h.tidy hchild hholds
    obtain ⟨type, htype, hrun⟩ := question_bind_eq_ok (.ask _) hrun
    have htype := (ask_eq_ok htype).2
    split at hrun
    · cases hrun
      exact h₁
    · next hblock =>
      have he : s₁.Spare K e := by
        refine ⟨h₁.ledger.closed.knows_held hholds, fun W hW => ?_⟩
        · refine (h₁.ledger.wraps W hW).tree.not_mem_body_of_type hocc ?_
          rw [htype]
          simpa using hblock
      obtain ⟨ret, s₂, hret, hrun⟩ := bind_eq_ok hrun
      obtain ⟨h₂, rfl, rfl, hret⟩ := h₁.ledger.make (k := .returnStatement (some e))
        (List.forall_mem_singleton.mpr he) hret
      obtain ⟨block, s₃, hblock, hrun⟩ := bind_eq_ok hrun
      obtain ⟨h₃, rfl, rfl, hblock⟩ := h₂.ledger.make (k := .blockStatement [⟨s₁.tree.size⟩])
        (List.forall_mem_singleton.mpr hret) hblock
      let ret : NodeId := ⟨s₁.tree.size⟩
      have hgrown : s₁.tree.Grown ((s₁.allocated (.returnStatement (some e))).allocated
          (.blockStatement [ret])).tree := (Tree.Grown.push _ _).trans (.push _ _)
      have hslot : ((s₁.allocated (.returnStatement (some e))).allocated
          (.blockStatement [ret])).tree.occupant? (.slot ret .argument) = some e := by
        refine (Tree.Grown.push _ _).occupant ?_
        simp [Tree.occupant?, Tree.field?, kind?_allocated, ret, NodeKind.child?, NodeKind.fields,
          Child.node?]
      obtain ⟨u₁, s₄, hmove, hrun⟩ := bind_eq_ok hrun
      have h₁₃ := h₁.trans (h₂.trans h₃)
      obtain ⟨h₄, htree₄, hsits₄, hothers₄⟩ := h₃.ledger.moveTo hholds he.2 hslot knows_none
        (h₃.more.knows hret.1) hmove
      -- The function holds what it held, unless it is the path that was moved.
      have hfunction : ∀ m', s₄.Holds function m' → m' = m ∨ m' = e := by
        intro m' hm'
        by_cases hself : function = body
        · obtain ⟨d, -, hd, -, hn, -⟩ := hsits₄
          exact .inr (hm'.unique_node (hself ▸ ⟨d, hd, hn⟩))
        · obtain ⟨d, hd, hn⟩ := hm'
          rw [hothers₄ _ hself] at hd
          exact .inl (Session.Holds.unique_node ⟨d, (hothers _ hself).symm.trans hd, hn⟩ hm)
      obtain ⟨place, s₅, hplace, hrun⟩ := bind_eq_ok hrun
      obtain ⟨h₅, hplaceKnown⟩ := h₄.ledger.charting (Navigating.child function .body).charting
        (.child ((h₁₃.trans h₄).more.knows hf) .body) hplace
      obtain ⟨htree₅, hkept₅⟩ := Seating.of_charting (Navigating.child function .body).charting
        h₄.ledger.tidy hplace
      obtain ⟨u₂, s₆, hset, hrun⟩ := bind_eq_ok hrun
      obtain ⟨d, hd, hlive⟩ := PathId.child_live h₄.ledger.tidy hplace
      have hpos : ∀ pos, d.position? = some pos → ∃ m', (m' = m ∨ m' = e) ∧ pos = .slot m' .body := by
        intro pos hpos
        obtain ⟨m', hm', rfl⟩ := PathId.child_position h₄.ledger.tidy hplace hd hpos
        exact ⟨m', hfunction m' hm', rfl⟩
      have hmknown := h₁.more.knows (h.closed.knows_held hm)

      have hfree : ∀ pos, d.position? = some pos → ∀ W ∈ K, ∀ n ∈ W.nodes,
          s₅.tree.occupant? pos ≠ some n := by
        intro pos hd W hW n hn hocc'
        obtain ⟨m', rfl | rfl, rfl⟩ := hpos pos hd
        · rw [htree₅, htree₄, hgrown.occupant hocc] at hocc'
          exact he.2 W hW (Option.some.inj hocc' ▸ hn)
        · exact (h₅.ledger.wraps W hW).tree.not_mem_body hocc' (fun heq => he.2 W hW (heq ▸ W.function_mem)) hn
      obtain ⟨h₆, pos, hpos', hseated⟩ := h₅.ledger.setNode hd hlive hfree
        (hblock.mono (h₄.more.trans h₅.more)) hset
      obtain ⟨path, s₇, hpath, hrun⟩ := bind_eq_ok hrun
      obtain ⟨h₇, hpathKnown⟩ := h₆.ledger.charting (Navigating.element place .body 0).charting
        (.element (h₆.more.knows hplaceKnown) .body 0) hpath
      obtain ⟨htree₇, hkept₇⟩ := Seating.of_charting (Navigating.element place .body 0).charting
        h₆.ledger.tidy hpath
      -- The block came to another place than the node that it is put around.
      have hne : ∀ g, .slot ret g ≠ pos := by
        obtain ⟨m', hm', rfl⟩ := hpos pos hpos'
        rintro g heq
        obtain rfl := (Position.slot.inj heq).1
        rcases hm' with heq | heq
        · exact absurd (heq ▸ hmknown) (Nat.lt_irrefl _)
        · exact absurd (heq ▸ he.1) (Nat.lt_irrefl _)
      have hslot₇ : s₇.tree.occupant? (.slot ret .argument) = some e := by
        rw [htree₇, hseated.tree.other _ (hne _), htree₅, htree₄]
        exact hslot
      have hholds₇ : s₇.Holds body e := by
        obtain ⟨c, place', hc, hcontainer, hn, hplace', hocc'⟩ := hkept₅ _ _ _ hsits₄
        have hother : place' ≠ pos := by
          rintro rfl
          have howner := (Container.position?_container hplace').trans hcontainer
          cases place' with
          | slot m' g =>
            obtain rfl := Container.slot.inj howner
            exact hne g rfl
          | root | item => cases howner
        have hsame : body ≠ place := by
          rintro rfl
          obtain rfl := Option.some.inj (hc.symm.trans hd)
          exact hother (Option.some.inj (hplace'.symm.trans hpos'))
        have hsits₆ : s₆.Sits body (.slot ret) e :=
          ⟨c, place', by rw [hseated.getElem?_paths, if_neg hsame, hc], hcontainer, hn, hplace',
            (hseated.tree.other _ hother).trans hocc'⟩
        obtain ⟨d', -, hd', -, hn', -⟩ := hkept₇ _ _ _ hsits₆
        exact ⟨d', hd', hn'⟩
      obtain ⟨h₈, -⟩ := h₇.ledger.moveTo hholds₇ he.2 hslot₇ (knows_some.mpr hpathKnown)
        ((h₃.more.trans (h₄.more.trans (h₅.more.trans (h₆.more.trans h₇.more)))).knows hret.1) hrun
      exact h₁₃.trans (h₄.trans (h₅.trans (h₆.trans (h₇.trans h₈))))

/-- The place for the declarations of a scope is found, or made. -/
theorem declarationHost (h : s.Ledger K s₀) (hp : s.Knows p)
    (hrun : declarationHost p s = .ok q s') : s.Tends K s₀ s' ∧ s'.Knows q := by
  obtain ⟨program, -, hrun⟩ := question_bind_eq_ok (.is p _) hrun
  cases program with
  | true =>
    cases hrun
    exact ⟨.refl h, hp⟩
  | false =>
    obtain ⟨u, s₁, hensure, hrun⟩ := bind_eq_ok hrun
    have h₁ := h.ensureBlock hp hensure
    obtain ⟨h₂, hq⟩ := h₁.ledger.charting (Navigating.child p .body).charting
      (.child (h₁.more.knows hp) .body) hrun
    exact ⟨h₁.trans h₂, hq⟩

/-- The shared declaration of a body is found, or comes to stand first. -/
theorem sharedDeclaration (h : s.Ledger K s₀) (hp : s.Knows p) {body : NodeId}
    (hrun : sharedDeclaration p body s = .ok q s') : s.Tends K s₀ s' ∧ s'.Knows q := by
  obtain ⟨k, -, hrun⟩ := question_bind_eq_ok (.ask _) hrun
  rw [run_get_bind] at hrun
  rcases hplace : (s.scopes.generated.get? body).bind fun declaration =>
    (((k.child? .body).bind Child.list?).getD []).idxOf? declaration with _ | i
  all_goals
    dsimp only at hrun
    rw [hplace] at hrun
  · obtain ⟨declaration, s₁, hmake, hrun⟩ := bind_eq_ok hrun
    obtain ⟨h₁, -, -, hnew⟩ := h.make (k := .variableDeclaration .var []) nofun hmake
    obtain ⟨inserted, s₂, hinsert, hrun⟩ := bind_eq_ok hrun
    obtain ⟨h₂, hinserted⟩ := h₁.ledger.unshiftInto (List.forall_mem_singleton.mpr hnew) hinsert
    obtain ⟨u, s₃, hnote, hrun⟩ := bind_eq_ok hrun
    cases hnote
    obtain rfl := question_run (.found _) hrun
    have hmore : s₂.Extends { s₂ with
        scopes := { s₂.scopes with generated := s₂.scopes.generated.insert body declaration } } :=
      ⟨Nat.le_refl _, Nat.le_refl _, Nat.le_refl _⟩
    have hscopes := h₂.ledger.closed.scopes
    have h₃ := h₂.ledger.ofScopes (h₂.ledger.closed.of_scopes hmore
      ⟨hscopes.scopes, hscopes.byBlock, hscopes.root⟩) hmore
    exact ⟨h₁.trans (h₂.trans h₃), h₃.ledger.answer
      (Careful.foundHead hinserted (PathId.unshiftInto_length hinsert)) hrun⟩
  · exact h.charting (Navigating.element p .body _).charting (.element hp .body _) hrun

/-- A name is declared at the top of a function or of the program. -/
theorem pushDeclaration (h : s.Ledger K s₀) (hi : s.Knows i) {name : String} {init : Option NodeId}
    (hinit : ∀ n, init = some n → s.Spare K n) (hrun : i.pushDeclaration name init s = .ok q s') :
    s.Tends K s₀ s' ∧ s'.Knows q := by
  unfold ScopeId.pushDeclaration at hrun
  obtain ⟨target, htarget, hrun⟩ := question_bind_eq_ok (.functionScope i) hrun
  obtain ⟨sc, hsc, hrun⟩ := question_bind_eq_ok (.scopeData target) hrun
  have htarget := h.answer (.functionScope hi) htarget
  have hblock := (h.answer (.scopeData htarget) hsc).1
  obtain ⟨host, s₁, hhost, hrun⟩ := bind_eq_ok hrun
  obtain ⟨h₁, hhost⟩ := h.declarationHost hblock hhost
  obtain ⟨o, ho, hrun⟩ := question_bind_eq_ok (.node? host) hrun
  cases o with
  | none => cases hrun
  | some body =>
    obtain ⟨declaration, s₂, hshared, hrun⟩ := bind_eq_ok hrun
    obtain ⟨h₂, hdeclaration⟩ := h₁.ledger.sharedDeclaration hhost hshared
    obtain ⟨id, s₃, hid, hrun⟩ := bind_eq_ok hrun
    obtain ⟨h₃, -, -, hid⟩ := h₂.ledger.make (k := .identifier name none) nofun hid
    obtain ⟨declarator, s₄, hdeclarator, hrun⟩ := bind_eq_ok hrun
    obtain ⟨h₄, -, -, hdeclarator⟩ := h₃.ledger.make (k := .variableDeclarator id init) (fun c hc => by
      have hc : c = id ∨ init = some c := by
        simpa [NodeKind.children, NodeKind.fields, Child.ids] using hc
      rcases hc with rfl | hc
      · exact hid
      · exact (hinit c hc).mono (h₁.more.trans (h₂.more.trans h₃.more))) hdeclarator
    obtain ⟨inserted, s₅, hinsert, hrun⟩ := bind_eq_ok hrun
    obtain ⟨h₅, hinserted⟩ := h₄.ledger.pushInto (by simp)
      (List.forall_mem_singleton.mpr hdeclarator) hinsert
    obtain ⟨path, hpath, hrun⟩ := question_bind_eq_ok (.found _) hrun
    have hpath := h₅.ledger.answer (Careful.foundHead hinserted (PathId.pushInto_length hinsert)) hpath
    have h₁₅ := h₁.trans (h₂.trans (h₃.trans (h₄.trans h₅)))
    obtain ⟨u, s₆, hregister, hrun⟩ := bind_eq_ok hrun
    obtain ⟨rfl, rfl⟩ := EStateM.Result.ok.inj hrun
    obtain ⟨h₆, -⟩ := h₅.ledger.charting (.registerBinding target name .var _ id)
      (.registerBinding (h₁₅.more.knows htarget) name .var hpath
        ((h₄.more.trans h₅.more).knows hid.1)) hregister
    exact ⟨h₁₅.trans h₆, h₆.more.knows hpath⟩

/-- A new name is declared. -/
theorem generateDeclaredUid (h : s.Ledger K s₀) (hi : s.Knows i) {text uid : String}
    (hrun : i.generateDeclaredUid text s = .ok uid s') : s.Tends K s₀ s' := by
  obtain ⟨name, s₁, hname, hrun⟩ := bind_eq_ok hrun
  obtain ⟨h₁, -⟩ := h.charting (.generateUid i text) (.generateUid hi text) hname
  obtain ⟨path, s₂, hpush, hrun⟩ := bind_eq_ok hrun
  cases hrun
  exact h₁.trans (h₁.ledger.pushDeclaration (h₁.more.knows hi) (by simp) hpush).1

end Session.Ledger

end Espalier
