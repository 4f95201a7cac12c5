import Espalier.Proofs.Clients
import Espalier.Proofs.Passes
import Espalier.Proofs.Tours

set_option autoImplicit false

/-! # Walks with observers

A visitor whose handlers succeed and leave the session as it is only observes. Whatever happened to
the session before, a walk with such a visitor is the plain recursive walk over the tree: it makes
the tour of the nodes that can be seen from the root, with the handlers called at each event of it,
or is refused where a node is too deep (`traverse_tours`). The walk adds paths and refreshes those
that are found again, but while it is below a node it touches no path whose place is not below that
node (`Session.Passed`); so it finds each path as it left it, whatever stale paths there are
elsewhere. -/

namespace Espalier

open SessionM Session

variable {σ : Type}

/-! ## Observers -/

/-- Whenever a handler is called at a path that holds a node of the tree, it succeeds and leaves the
session as it is. What it notes is its own. -/
def Visitor.Observes (v : Visitor σ) (t : Tree) : Prop :=
  ∀ phase selector h, (phase, selector, h) ∈ v.entries → ∀ (p : PathId) (n : NodeId) (w : Walk σ),
    w.session.tree = t → w.session.Holds p n → t.Reachable n → ∃ own, h p w = .ok () { w with own }

/-- The handlers for every node come first, then those for a type, then those for a category. -/
def Selector.rank : Selector → Nat
  | .any => 0
  | .type _ => 1
  | .category _ => 2

/-- Is a handler with this selector registered for nodes of the type? -/
def Selector.covers (type : NodeType) : Selector → Bool
  | .any => true
  | .type t => t == type
  | .category c => type.belongsTo c

/-- The entries of one rank for nodes of a type, as they were registered. -/
def Visitor.ranked (v : Visitor σ) (phase : Phase) (type : NodeType) (rank : Nat) :
    List (Phase × Selector × Handler σ) :=
  v.entries.filter fun e =>
    decide (e.1 = phase) && (e.2.1.covers type && decide (e.2.1.rank = rank))

/-- The entries for nodes of a type in the order in which they are called: they are sorted by their
rank, and those of one rank are as they were registered. -/
structure Visitor.Lines (v : Visitor σ) (phase : Phase) (type : NodeType)
    (lined : List (Phase × Selector × Handler σ)) : Prop where
  sorted : lined.Pairwise fun a b => a.2.1.rank ≤ b.2.1.rank
  registered : ∀ rank, lined.filter (fun e => decide (e.2.1.rank = rank)) = v.ranked phase type rank

/-- The handlers are called one after the other. -/
inductive Calls (p : PathId) : List (Handler σ) → Walk σ → Walk σ → Prop
  | nil (w : Walk σ) : Calls p [] w w
  | cons {h : Handler σ} {hs : List (Handler σ)} {w w₁ w' : Walk σ} :
      h p w = .ok () w₁ → Calls p hs w₁ w' → Calls p (h :: hs) w w'

/-- What the handlers note when they are called at the events of a tour: at each event the handlers
for the node, in their order, at a path that holds the node. -/
inductive Recounts (v : Visitor σ) (t : Tree) : List (Phase × NodeId) → σ → σ → Prop
  | nil (own : σ) : Recounts v t [] own own
  | cons {phase : Phase} {n : NodeId} {type : NodeType} {p : PathId}
      {lined : List (Phase × Selector × Handler σ)} {tour : List (Phase × NodeId)}
      {w w₁ : Walk σ} {own' : σ} :
      w.session.tree = t → w.session.Holds p n → t.type? n = some type →
      v.Lines phase type lined → Calls p (lined.map fun e => e.2.2) w w₁ →
      Recounts v t tour w₁.own own' → Recounts v t ((phase, n) :: tour) w.own own'

theorem Recounts.append {v : Visitor σ} {t : Tree} {tour tour' : List (Phase × NodeId)}
    {own own₁ own' : σ} (h : Recounts v t tour own own₁) (h' : Recounts v t tour' own₁ own') :
    Recounts v t (tour ++ tour') own own' := by
  induction h with
  | nil => exact h'
  | cons htree hp htype hlines hcalls _ ih => exact .cons htree hp htype hlines hcalls (ih h')

theorem Visitor.rank_of_mem_ranked {v : Visitor σ} {phase : Phase} {type : NodeType} {rank : Nat}
    {e : Phase × Selector × Handler σ} (he : e ∈ v.ranked phase type rank) : e.2.1.rank = rank := by
  simp only [ranked, List.mem_filter, Bool.and_eq_true, decide_eq_true_eq] at he
  exact he.2.2.2

theorem Visitor.filter_ranked (v : Visitor σ) (phase : Phase) (type : NodeType) (rank rank' : Nat) :
    (v.ranked phase type rank).filter (fun e => decide (e.2.1.rank = rank')) =
      if rank = rank' then v.ranked phase type rank' else [] := by
  split
  · next h =>
    subst h
    exact List.filter_eq_self.mpr fun e he => decide_eq_true (rank_of_mem_ranked he)
  · next h =>
    refine List.filter_eq_nil_iff.mpr fun e he => ?_
    rw [rank_of_mem_ranked he, decide_eq_true_eq]
    exact h

/-- The handlers whose selector passes a test that picks one rank. -/
theorem Visitor.select_eq (v : Visitor σ) (phase : Phase) (type : NodeType) {rank : Nat}
    {test : Selector → Bool}
    (h : ∀ selector, test selector = (selector.covers type && decide (selector.rank = rank))) :
    v.select phase test = (v.ranked phase type rank).map fun e => e.2.2 := by
  unfold select ranked
  induction v.entries with
  | nil => rfl
  | cons e entries ih =>
    obtain ⟨ph, selector, handler⟩ := e
    rw [List.filterMap_cons, List.filter_cons]
    dsimp only
    rw [← h selector]
    by_cases hph : ph = phase
    · cases test selector <;> simp [hph, ih]
    · simp [hph, ih]

/-- The handlers that are called for a node are those of the entries for it, in their order. -/
theorem Visitor.exists_lines (v : Visitor σ) (phase : Phase) (type : NodeType) :
    ∃ lined, v.Lines phase type lined ∧ v.handlersFor phase type = lined.map fun e => e.2.2 := by
  refine ⟨v.ranked phase type 0 ++ v.ranked phase type 1 ++ v.ranked phase type 2,
    ⟨?_, fun rank => ?_⟩, ?_⟩
  · have hle : ∀ r r', r ≤ r' → ∀ a ∈ v.ranked phase type r, ∀ b ∈ v.ranked phase type r',
        a.2.1.rank ≤ b.2.1.rank := by
      intro r r' hr a ha b hb
      rwa [rank_of_mem_ranked ha, rank_of_mem_ranked hb]
    have hsame : ∀ r, (v.ranked phase type r).Pairwise fun a b => a.2.1.rank ≤ b.2.1.rank :=
      fun r => List.pairwise_of_forall_mem_list (hle r r le_rfl)
    refine List.pairwise_append.mpr ⟨List.pairwise_append.mpr ⟨hsame 0, hsame 1, hle 0 1 (by simp)⟩,
      hsame 2, fun a ha => ?_⟩
    exact (List.mem_append.mp ha).elim (hle 0 2 (by simp) a) (hle 1 2 (by simp) a)
  · simp only [List.filter_append, filter_ranked]
    rcases rank with _ | _ | _ | rank
    · simp
    · simp
    · simp
    · -- There is no other rank.
      have hnone : v.ranked phase type (rank + 3) = [] := by
        refine List.eq_nil_iff_forall_not_mem.mpr fun e he => ?_
        have hrank := rank_of_mem_ranked he
        cases hsel : e.2.1 <;> simp [hsel, Selector.rank] at hrank
      simp [hnone]
  · have hany : ∀ selector : Selector, (selector == .any) =
        (selector.covers type && decide (selector.rank = 0)) := by
      rintro (_ | _ | _) <;> simp [Selector.covers, Selector.rank]
    have htype : ∀ selector : Selector, (selector == .type type) =
        (selector.covers type && decide (selector.rank = 1)) := by
      rintro (_ | _ | _) <;> simp [Selector.covers, Selector.rank]
    rw [List.map_append, List.map_append, ← select_eq v phase type hany,
      ← select_eq v phase type htype]
    refine congrArg _ (select_eq v phase type ?_)
    rintro (_ | _ | _) <;> simp [Selector.covers, Selector.rank]

/-! ## What a walk leaves alone -/

/-- The containers of the nodes at and below a node. -/
def Tree.inside (t : Tree) (n : NodeId) : Set Container :=
  {c | ∃ m, Relation.ReflTransGen t.IsChild n m ∧ c.parent? = some m}

theorem NodeType.length_visitorFields (type : NodeType) : type.visitorFields.length ≤ 4 := by
  cases type <;> decide

/-- The nodes in a field are among the children, in their order. -/
theorem NodeKind.sublist_children (k : NodeKind) {e : Field × Child} (he : e ∈ k.fields) :
    e.2.ids.Sublist k.children := by
  have hids := (List.singleton_sublist.mpr he).flatMap fun e => e.2.ids
  rwa [List.flatMap_singleton] at hids

theorem Tree.inside_child {t : Tree} {n m : NodeId} (h : t.IsChild n m) :
    t.inside m ⊆ t.inside n := by
  rintro c ⟨a, ha, hc⟩
  exact ⟨a, .head h ha, hc⟩

/-- In a forest, the container of a node is not inside it. -/
theorem Tree.Forest.not_mem_inside {t : Tree} {K : Set NodeId} (hF : t.Forest K) {n m : NodeId}
    (hn : n ∈ K) (h : t.IsChild n m) {c : Container} (hc : c.parent? = some n) :
    c ∉ t.inside m := by
  rintro ⟨a, ha, hca⟩
  obtain rfl := Option.some.inj (hc.symm.trans hca)
  exact hF.acyclic n hn (.head' h ha)

/-- What is known about a path at the beginning of a visit. -/
def PathData.begun (frame : Option Nat) (d : PathData) : PathData :=
  { d with frame, skip := false, stop := false, requeues := 0 }

namespace Session

/-- A walk has passed through these containers. Paths that live elsewhere are as they were, frames
that were open are still open, and nothing else has changed but the paths and where they are
found. -/
structure Passed (C : Set Container) (s s' : Session) : Prop where
  tidy : s'.Tidy
  rest : s' = { s with
    paths := s'.paths, cache := s'.cache, frames := s'.frames, nextFrame := s'.nextFrame }
  kept : ∀ (p : PathId) d, s.paths[p.index]? = some d → d.container ∉ C →
    s'.paths[p.index]? = some d
  frames : ∃ P : Frame → Bool, (∀ f, f.id < s.nextFrame → P f = true) ∧
    s'.frames = s.frames.filter P
  later : s.nextFrame ≤ s'.nextFrame

section Passed

variable {s s₁ s' : Session} {C D : Set Container}

/-- No frame was opened or closed. -/
theorem Passed.of_frames (h : s'.Tidy)
    (rest : s' = { s with paths := s'.paths, cache := s'.cache })
    (kept : ∀ (p : PathId) d, s.paths[p.index]? = some d → d.container ∉ C →
      s'.paths[p.index]? = some d) : s.Passed C s' where
  tidy := h
  rest := by rw [rest]
  kept := kept
  frames := ⟨fun _ => true, fun _ _ => rfl, by rw [rest, List.filter_true]⟩
  later := by rw [rest]

theorem Passed.refl (h : s.Tidy) : s.Passed C s := .of_frames h rfl fun _ _ hd _ => hd

theorem Passed.mono (h : s.Passed C s') (hsub : C ⊆ D) : s.Passed D s' :=
  ⟨h.tidy, h.rest, fun p d hd hc => h.kept p d hd fun hC => hc (hsub hC), h.frames, h.later⟩

theorem Passed.trans (h₁ : s.Passed C s₁) (h₂ : s₁.Passed C s') : s.Passed C s' where
  tidy := h₂.tidy
  rest := by rw [h₂.rest, h₁.rest]
  kept p d hd hc := h₂.kept p d (h₁.kept p d hd hc) hc
  frames := by
    obtain ⟨P, hP, hframes⟩ := h₁.frames
    obtain ⟨Q, hQ, hframes'⟩ := h₂.frames
    refine ⟨fun f => P f && Q f, fun f hf => ?_, ?_⟩
    · exact Bool.and_eq_true_iff.mpr ⟨hP f hf, hQ f (Nat.lt_of_lt_of_le hf h₁.later)⟩
    · rw [hframes', hframes, List.filter_filter]
      exact List.filter_congr fun f _ => Bool.and_comm _ _
  later := h₁.later.trans h₂.later

theorem Passed.tree (h : s.Passed C s') : s'.tree = s.tree := by rw [h.rest]

theorem Passed.config (h : s.Passed C s') : s'.config = s.config := by rw [h.rest]

theorem Passed.stopping (h : s.Passed C s') : s'.stopping = s.stopping := by rw [h.rest]

/-- Going to a position touches no path that lives elsewhere. -/
theorem Lands.passed {parent : Option PathId} {c : Container} {k : Key} {node : Option NodeId}
    {p : PathId} (h : s.Lands parent c k node p s') (hs : s.Tidy) (hc : c ∈ C) :
    s.Passed C s' := by
  refine .of_frames h.calm.tidy h.rest fun q d hd hout => ?_
  rw [h.others q ?_, hd]
  rintro rfl
  rcases h.known with hb | hnew
  · exact hout ((hs.container_eq hd hb).1 ▸ hc)
  · rw [hd] at hnew
    cases hnew

/-- The session after the beginning of a visit. -/
def begun (s : Session) (p : PathId) : Session :=
  { s with paths := s.paths.modify p.index (PathData.begun (s.frames.head?.map Frame.id)) }

theorem getElem?_begun {p : PathId} {d : PathData} (hd : s.paths[p.index]? = some d) :
    (s.begun p).paths[p.index]? = some (d.begun (s.frames.head?.map Frame.id)) := by
  show (s.paths.modify p.index _)[p.index]? = _
  rw [getElem?_modify_paths, if_pos rfl, hd, Option.map_some]

theorem begun_passed (hs : s.Tidy) {p : PathId} {d : PathData} (hd : s.paths[p.index]? = some d)
    (hr : d.removed = false) (hc : d.container ∈ C) : s.Passed C (s.begun p) := by
  refine .of_frames ?_ rfl fun q e he hout => ?_
  · refine (hs.calm_modify _ fun e he => ?_).tidy
    obtain rfl : d = e := Option.some.inj (hd.symm.trans he)
    exact ⟨⟨fun h => Bool.noConfusion (hr.symm.trans h), (hs.fit p d hd).adrift⟩, rfl, rfl⟩
  · show (s.paths.modify p.index _)[q.index]? = some e
    rw [getElem?_modify_paths, if_neg, he]
    rintro rfl
    obtain rfl : d = e := Option.some.inj (hd.symm.trans he)
    exact hout hc

end Passed

end Session

namespace Walk

variable {w w₁ w' : Walk σ} {C : Set Container}

/-- What was done in a frame of its own. -/
theorem passed_of_framed (h : (pushFrame w).session.Passed C w'.session) :
    w.session.Passed C (dropFrame w.session.nextFrame w').session where
  tidy := h.tidy.of_same rfl rfl rfl
  rest := by
    unfold dropFrame
    rw [h.rest]
    rfl
  kept := h.kept
  frames := by
    obtain ⟨P, hP, hframes⟩ := h.frames
    refine ⟨fun f => decide (f.id ≠ w.session.nextFrame) && P f, fun f hf => ?_, ?_⟩
    · exact Bool.and_eq_true_iff.mpr
        ⟨decide_eq_true (Nat.ne_of_lt hf), hP f (Nat.lt_succ_of_lt hf)⟩
    · show w'.session.frames.filter _ = _
      rw [hframes, List.filter_filter]
      exact List.filter_cons_of_neg (by simp)
  later := (Nat.le_succ _).trans h.later

/-- The frame that was opened last is still open, with nothing in wait. -/
theorem drain_run (v : Visitor σ) {fuel : Nat} (hfuel : 0 < fuel) (depth : Nat)
    (h : (pushFrame w).session.Passed C w'.session) : drain v fuel depth w' = .ok false w' := by
  obtain ⟨fuel, rfl⟩ : ∃ fuel', fuel = fuel' + 1 := ⟨fuel - 1, by omega⟩
  obtain ⟨P, hP, hframes⟩ := h.frames
  have hhead : w'.session.frames = { id := w.session.nextFrame } ::
      w.session.frames.filter P := by
    rw [hframes]
    exact List.filter_cons_of_pos (hP _ (Nat.lt_succ_self _))
  have hempty : (dequeue : WalkM σ _) w' = .ok none w' := by
    unfold dequeue
    rw [run_get_bind]
    dsimp only
    rw [hhead]
    rfl
  rw [drain, bind_of_ok hempty]
  rfl

/-! ## Where a walk ends -/

/-- The walk goes on unless something is too deep; then it is refused. -/
def Ends (deep : Prop) (limit : Nat) (x : WalkM σ Bool) (w : Walk σ) (post : Walk σ → Prop) :
    Prop :=
  (¬ deep ∧ ∃ w', x w = .ok false w' ∧ post w') ∨
    (deep ∧ ∃ w', x w = .error (.refused (.depthLimit limit)) w')

namespace Ends

variable {deep deep' : Prop} {limit : Nat} {x : WalkM σ Bool} {post post' : Walk σ → Prop}

theorem of_ok (hdeep : ¬ deep) (h : x w = .ok false w') (hpost : post w') :
    Ends deep limit x w post := .inl ⟨hdeep, w', h, hpost⟩

theorem congr (h : Ends deep limit x w post) (hdeep : deep ↔ deep') :
    Ends deep' limit x w post := by
  rwa [← propext hdeep]

theorem mono (h : Ends deep limit x w post) (hpost : ∀ w', post w' → post' w') :
    Ends deep limit x w post' :=
  h.imp (fun ⟨hdeep, w', hrun, hw'⟩ => ⟨hdeep, w', hrun, hpost w' hw'⟩) id

theorem bind {f : Bool → WalkM σ Bool} (hx : Ends deep limit x w post)
    (hf : ∀ w₁, post w₁ → Ends deep' limit (f false) w₁ post') :
    Ends (deep ∨ deep') limit (x >>= f) w post' := by
  rcases hx with ⟨hdeep, w₁, hrun, hw₁⟩ | ⟨hdeep, w₁, hrun⟩
  · rcases hf w₁ hw₁ with ⟨hdeep', w', hrun', hw'⟩ | ⟨hdeep', w', hrun'⟩
    · exact .inl ⟨by tauto, w', by rw [bind_of_ok hrun, hrun'], hw'⟩
    · exact .inr ⟨.inr hdeep', w', by rw [bind_of_ok hrun, hrun']⟩
  · exact .inr ⟨.inl hdeep, w₁, bind_of_error hrun⟩

/-- Before a step that cannot be refused. -/
theorem bind_still {f : Bool → WalkM σ Bool} (hx : Ends deep limit x w post)
    (hf : ∀ w₁, post w₁ → ∃ w', f false w₁ = .ok false w' ∧ post' w') :
    Ends deep limit (x >>= f) w post' := by
  rcases hx with ⟨hdeep, w₁, hrun, hw₁⟩ | ⟨hdeep, w₁, hrun⟩
  · obtain ⟨w', hrun', hw'⟩ := hf w₁ hw₁
    exact .inl ⟨hdeep, w', by rw [bind_of_ok hrun, hrun'], hw'⟩
  · exact .inr ⟨hdeep, w₁, bind_of_error hrun⟩

/-- After a step that cannot be refused. -/
theorem bind_ok {α : Type} {x : WalkM σ α} {f : α → WalkM σ Bool} {a : α} (hx : x w = .ok a w₁)
    (hf : Ends deep limit (f a) w₁ post) : Ends deep limit (x >>= f) w post := by
  unfold Ends
  rwa [bind_of_ok hx]

/-- In a frame of its own. -/
theorem withFrame (hx : Ends deep limit x (pushFrame w) post) :
    Ends deep limit (withFrame x) w fun w' => ∃ w₁, post w₁ ∧
      w' = dropFrame w.session.nextFrame w₁ := by
  have hrun : Walk.withFrame x w = ensuring x (dropFrame w.session.nextFrame) (pushFrame w) := rfl
  rcases hx with ⟨hdeep, w₁, hok, hw₁⟩ | ⟨hdeep, w₁, herr⟩
  · exact .inl ⟨hdeep, _, by rw [hrun]; simp only [ensuring, hok], w₁, hw₁, rfl⟩
  · exact .inr ⟨hdeep, dropFrame w.session.nextFrame w₁, by rw [hrun]; simp only [ensuring, herr]⟩

end Ends

/-! ## What a walk has done -/

variable {v : Visitor σ} {t : Tree} {limit : Nat}

/-- The walk is in a tidy session with this tree and this limit, and is not told to stop. -/
structure Ready (t : Tree) (limit : Nat) (w : Walk σ) : Prop where
  tidy : w.session.Tidy
  tree : w.session.tree = t
  limit : w.session.config.maxDepth = limit
  going : w.session.stopping = false

theorem Ready.passed (h : Ready t limit w) (hp : w.session.Passed C w'.session) :
    Ready t limit w' :=
  ⟨hp.tidy, hp.tree.trans h.tree, by rw [hp.config, h.limit], hp.stopping.trans h.going⟩

theorem Ready.pushFrame (h : Ready t limit w) : Ready t limit (pushFrame w) :=
  ⟨h.tidy.of_same rfl rfl rfl, h.tree, h.limit, h.going⟩

/-- The walk has made a tour of the nodes within these containers, and counted its visits. -/
structure Toured (v : Visitor σ) (t : Tree) (ns : List NodeId) (C : Set Container)
    (w w' : Walk σ) : Prop where
  passed : w.session.Passed C w'.session
  tour : ∃ tour, t.Tours v.blacklist ns tour ∧ Recounts v t tour w.own w'.own ∧
    w'.visited = w.visited + (Tree.entered tour).length

namespace Toured

variable {ns ms : List NodeId} {D : Set Container}

/-- Nothing was visited. -/
theorem of_passed (h : w.session.Passed C w'.session) (hown : w'.own = w.own)
    (hvisited : w'.visited = w.visited) : Toured v t [] C w w' :=
  ⟨h, [], .nil, by rw [hown]; exact .nil _, hvisited⟩

theorem trans (h : Toured v t ns C w w₁) (h' : Toured v t ms C w₁ w') :
    Toured v t (ns ++ ms) C w w' := by
  obtain ⟨tour, ht, hr, hc⟩ := h.tour
  obtain ⟨tour', ht', hr', hc'⟩ := h'.tour
  refine ⟨h.passed.trans h'.passed, tour ++ tour', ht.append ht', hr.append hr', ?_⟩
  rw [hc', hc, Tree.entered_append, List.length_append, Nat.add_assoc]

theorem mono (h : Toured v t ns C w w') (hsub : C ⊆ D) : Toured v t ns D w w' :=
  ⟨h.passed.mono hsub, h.tour⟩

/-- In a frame of its own. -/
theorem of_framed (h : Toured v t ns C (pushFrame w) w') :
    Toured v t ns C w (dropFrame w.session.nextFrame w') :=
  ⟨passed_of_framed h.passed, h.tour⟩

end Toured

end Walk

/-! ## One visit -/

/-- Nothing stands against going on with the visit of a node at the path. -/
structure PathData.Open (d : PathData) (n : NodeId) : Prop where
  node : d.node = some n
  live : d.removed = false
  skip : d.skip = false
  stop : d.stop = false

namespace Walk

variable {w : Walk σ} {v : Visitor σ} {t : Tree} {limit : Nat} {p : PathId} {n : NodeId}
  {d : PathData}

theorem isInterrupted_run (hd : w.session.paths[p.index]? = some d) (hopen : d.Open n)
    (hgoing : w.session.stopping = false) :
    (isInterrupted p n : WalkM σ Bool) w = .ok false w := by
  rw [isInterrupted_of_data hd, hopen.node, hopen.live, hopen.skip, hopen.stop, hgoing]
  simp

theorem mustStop_run (hd : w.session.paths[p.index]? = some d) (hopen : d.Open n)
    (hgoing : w.session.stopping = false) : (mustStop p : WalkM σ Bool) w = .ok false w := by
  rw [mustStop_of_data hd, hopen.stop, hgoing]
  rfl

/-- Handlers that observe are all called. -/
theorem callAll_run (hv : v.Observes t) (hs : List (Handler σ))
    (hmem : ∀ h ∈ hs, ∃ phase selector, (phase, selector, h) ∈ v.entries)
    (hready : Ready t limit w) (hn : t.Reachable n) (hd : w.session.paths[p.index]? = some d)
    (hopen : d.Open n) : ∃ own, Calls p hs w { w with own } ∧
      callAll p n hs w = .ok false { w with own } := by
  induction hs generalizing w with
  | nil => exact ⟨w.own, .nil w, isInterrupted_run hd hopen hready.going⟩
  | cons h hs ih =>
    obtain ⟨phase, selector, he⟩ := hmem h (by simp)
    obtain ⟨own₁, hrun⟩ := hv phase selector h he p n w hready.tree ⟨d, hd, hopen.node⟩ hn
    obtain ⟨own, hcalls, hrest⟩ := ih (w := { w with own := own₁ })
      (fun h' hh' => hmem h' (by simp [hh']))
      ⟨hready.tidy, hready.tree, hready.limit, hready.going⟩ hd
    refine ⟨own, .cons hrun hcalls, ?_⟩
    rw [callAll, bind_of_ok (isInterrupted_run hd hopen hready.going), if_neg (by simp),
      bind_of_ok hrun]
    exact hrest

/-- What is said of the visit of a node, wherever it stands: it makes the tour of the node, and the
path stays at its place. -/
def Visits (v : Visitor σ) (t : Tree) (limit : Nat) (n : NodeId) : Prop :=
  ∀ (N fuel depth : Nat) (p : PathId) (w : Walk σ) (d : PathData), t.Fits N n → 8 * N ≤ fuel →
    Ready t limit w → w.session.paths[p.index]? = some d → d.node = some n →
    d.container ∉ t.inside n →
    Ends (t.Deep v.blacklist limit depth [n]) limit (visit v fuel depth p false) w fun w' =>
      Toured v t [n] (insert d.container (t.inside n)) w w' ∧
        ∃ d', w'.session.paths[p.index]? = some d' ∧ d'.place = d.place ∧ d'.parent = d.parent

/-- The path holds the node, and lives outside the containers within which a walk goes on. -/
def Outside (C : Set Container) (w : Walk σ) (p : PathId) (n : NodeId) : Prop :=
  ∃ d, w.session.paths[p.index]? = some d ∧ d.node = some n ∧ d.container ∉ C

theorem Outside.holds {C : Set Container} (h : Outside C w p n) : w.session.Holds p n := by
  obtain ⟨d, hd, hn, -⟩ := h
  exact ⟨d, hd, hn⟩

theorem Outside.passed {C : Set Container} {w' : Walk σ} (h : Outside C w p n)
    (hp : w.session.Passed C w'.session) : Outside C w' p n := by
  obtain ⟨d, hd, hn, hc⟩ := h
  exact ⟨d, hp.kept p d hd hc, hn, hc⟩

section Children

variable {K : Set NodeId} {k : NodeKind} {N : Nat} (depth : Nat)

/-- Walking a list of children from some element on. -/
theorem visitList_tours (hF : t.Forest K) (hn : n ∈ K) (hk : t.kind? n = some k)
    (hall : ∀ c ∈ k.children, Visits v t limit c) (hfits : t.Fits N n) {f : Field}
    {ids : List NodeId} (hc : k.child? f = some (.many ids)) {w₀ : Walk σ}
    (rest front : List NodeId) (hids : ids = front ++ rest) (fuel : Nat) (seen : List NodeId)
    (w : Walk σ) (hseen : ∀ m ∈ seen, m ∈ front) (hfuel : 8 * (N - 1) + 3 ≤ fuel + front.length)
    (hready : Ready t limit w) (hopened : (pushFrame w₀).session.Passed (t.inside n) w.session)
    (hhost : Outside (t.inside n) w p n) :
    Ends (t.Deep v.blacklist limit depth rest) limit
      (visitList v fuel depth p n f seen front.length) w (Toured v t rest (t.inside n) w) := by
  have hsub : ids.Sublist k.children := k.sublist_children ((k.child?_eq_some_iff f _).mp hc)
  have hnodup := (hF.nodup_children hn hk).sublist hsub
  have hlen : ids.length < N := hsub.length_le.trans_lt (hfits.length_children hF hn hk)
  -- The host still holds the node around the list.
  have hask : ∀ {w : Walk σ}, Ready t limit w → Outside (t.inside n) w p n →
      (liftM p.node? : WalkM σ _) w = .ok (some n) w ∧
        (liftM (listLength n f) : WalkM σ _) w = .ok ids.length w := by
    intro w hready hhost
    have hfield : w.session.tree.field? n f = some (.many ids) := by
      simp [Tree.field?, hready.tree, hk, hc]
    exact ⟨lift_run (PathId.node?_run_of_holds hhost.holds),
      lift_run (PathId.listLength_run hfield)⟩
  induction rest generalizing front fuel seen w with
  | nil =>
    have hfront : front.length = ids.length := by simp [hids]
    obtain ⟨fuel, rfl⟩ : ∃ fuel', fuel = fuel' + 1 := ⟨fuel - 1, by omega⟩
    obtain ⟨hnode, hlength⟩ := hask hready hhost
    refine .of_ok Tree.not_deep_nil ?_ (.of_passed (.refl hready.tidy) rfl rfl)
    rw [visitList, bind_of_ok hnode, if_neg (by simp), bind_of_ok hlength, if_pos hfront.ge]
    rfl
  | cons c rest ih =>
    have hfront : front.length < ids.length := by simp [hids]
    obtain ⟨fuel, rfl⟩ : ∃ fuel', fuel = fuel' + 1 := ⟨fuel - 1, by omega⟩
    obtain ⟨hnode, hlength⟩ := hask hready hhost
    have hfresh : c ∉ seen := by
      rw [hids] at hnodup
      exact fun hmem => (List.nodup_append.mp hnodup).2.2 c (hseen c hmem) c (by simp) rfl
    -- Going to the element.
    obtain ⟨q, s, hgo, hlands⟩ := PathId.element_lands hready.tidy hhost.holds
      (by rw [hready.tree, hk]) hc front.length
    have hat : ids[front.length]? = some c := by simp [hids]
    rw [hat] at hlands
    obtain ⟨e, he, hplace, hparent⟩ := hlands.data
    simp only [PathData.place, Prod.mk.injEq] at hplace
    have hpassed := hlands.passed (C := t.inside n) hready.tidy ⟨n, .refl, rfl⟩
    let w₁ : Walk σ := { w with session := s }
    have hready₁ : Ready t limit w₁ := hready.passed hpassed
    have hhost₁ : Outside (t.inside n) w₁ p n := hhost.passed hpassed
    -- The visit of the element.
    have hmem : c ∈ ids := List.mem_of_getElem? hat
    have hcn : t.IsChild n c := (t.isChild_iff n c).mpr ⟨k, hk, hsub.subset hmem⟩
    have hinside : insert e.container (t.inside c) ⊆ t.inside n := by
      rw [hplace.2.1]
      exact Set.insert_subset ⟨n, .refl, rfl⟩ (t.inside_child hcn)
    have hvisit := hall c (hsub.subset hmem) (N - 1 - front.length) fuel depth q w₁ e
      (hfits.child hF hn hk front (hids ▸ hsub)) (by omega) hready₁ he hplace.1
      (hF.not_mem_inside hn hcn (by rw [hplace.2.1]; rfl))
    rw [visitList]
    refine .bind_ok hnode ?_
    rw [if_neg (by simp)]
    refine .bind_ok hlength ?_
    rw [if_neg (by omega)]
    refine .bind_ok (lift_run hgo) (.bind_ok (lift_run (w := w₁) (q.node?_run he)) ?_)
    rw [hplace.1]
    dsimp only
    rw [if_neg hfresh]
    refine (hvisit.bind fun w₂ hw₂ => ?_).congr Tree.deep_cons.symm
    obtain ⟨hvisited, e', he', hplace', hparent'⟩ := hw₂
    have hpassed₂ := hpassed.trans (hvisited.mono hinside).passed
    have hready₂ := hready.passed hpassed₂
    have hhost₂ := hhost.passed hpassed₂
    have hopened₂ := hopened.trans hpassed₂
    simp only [PathData.place, hplace, Prod.mk.injEq] at hplace'
    rw [if_neg (by simp)]
    refine .bind_ok (drain_run v (by omega) depth hopened₂) ?_
    rw [if_neg (by simp)]
    -- The path of the element is where it was.
    have hresync : q.resync w₂.session = .ok () w₂.session := by
      refine PathId.resync_run_of_adopted he' hplace'.2.2.2 ?_ hplace'.1 ?_
      · rw [hplace'.2.1]
        exact ⟨p, hparent'.trans hparent, hhost₂.holds⟩
      · rw [hplace'.2.1, hplace'.2.2.1]
        show ((ask fun t => t.kind? n) >>= _) w₂.session = _
        rw [bind_of_ok (ask_run (by rw [hready₂.tree, hk])), hc]
        exact congrArg (EStateM.Result.ok · _) hat
    refine .bind_ok (lift_run hresync) (.bind_ok (lift_run (w := w₂) (q.data_run he')) ?_)
    rw [hplace'.2.2.1, hplace'.2.2.2]
    have hstart : Toured v t [] (t.inside n) w w₁ := .of_passed hpassed rfl rfl
    have hrest := ih (front ++ [c]) (by simp [hids]) fuel (c :: seen) w₂
      (fun m hm => by rcases List.mem_cons.mp hm with rfl | hm <;> simp_all) (by simp; omega)
      hready₂ hopened₂ hhost₂
    rw [List.length_append, List.length_singleton] at hrest
    exact hrest.mono fun w' hw' => (hstart.trans (hvisited.mono hinside)).trans hw'

/-- Visiting a node in a frame of its own. -/
theorem visitSingle_tours (hvisits : Visits v t limit n) (hfits : t.Fits N n) {fuel : Nat}
    (hfuel : 8 * N < fuel) (hready : Ready t limit w) (hd : w.session.paths[p.index]? = some d)
    (hnode : d.node = some n) (hout : d.container ∉ t.inside n) :
    Ends (t.Deep v.blacklist limit depth [n]) limit (visitSingle v fuel depth p) w
      (Toured v t [n] (insert d.container (t.inside n)) w) := by
  obtain ⟨fuel, rfl⟩ : ∃ fuel', fuel = fuel' + 1 := ⟨fuel - 1, by omega⟩
  have hpos := hfits.pos
  rw [visitSingle]
  refine .bind_ok (lift_run (p.node?_run hd)) ?_
  rw [hnode]
  have hvisit := hvisits N fuel depth p (pushFrame w) d hfits (by omega)
    (hready.pushFrame) hd hnode hout
  refine (Ends.withFrame (hvisit.bind_still fun w₁ hw₁ => ⟨w₁, ?_, hw₁.1⟩)).mono ?_
  · rw [if_neg (by simp)]
    exact drain_run v (by omega) depth hw₁.1.passed
  · rintro w' ⟨w₁, hw₁, rfl⟩
    exact hw₁.of_framed

/-- Walking the child fields of a node from some field on. -/
theorem visitFields_tours (hF : t.Forest K) (hn : n ∈ K) (hk : t.kind? n = some k)
    (hall : ∀ c ∈ k.children, Visits v t limit c) (hfits : t.Fits N n)
    (rest : List (Field × Child)) (hrest : ∀ e ∈ rest, e ∈ k.fields) (fuel : Nat) (w : Walk σ)
    (hfuel : 8 * (N - 1) + 3 + rest.length ≤ fuel) (hready : Ready t limit w)
    (hhost : Outside (t.inside n) w p n) :
    Ends (t.Deep v.blacklist limit depth (rest.flatMap fun e => e.2.ids)) limit
      (visitFields v fuel depth p n (rest.map Prod.fst)) w
      (Toured v t (rest.flatMap fun e => e.2.ids) (t.inside n) w) := by
  induction rest generalizing fuel w with
  | nil =>
    obtain ⟨fuel, rfl⟩ : ∃ fuel', fuel = fuel' + 1 := ⟨fuel - 1, by omega⟩
    refine .of_ok Tree.not_deep_nil ?_ (.of_passed (.refl hready.tidy) rfl rfl)
    rw [List.map_nil, visitFields]
    rfl
  | cons e rest ih =>
    obtain ⟨fuel, rfl⟩ : ∃ fuel', fuel = fuel' + 1 := ⟨fuel - 1, by omega⟩
    obtain ⟨f, child⟩ := e
    rw [List.length_cons] at hfuel
    have hmem := hrest (f, child) (by simp)
    have hc := (k.child?_eq_some_iff f child).mpr hmem
    have hkw : w.session.tree.kind? n = some k := by rw [hready.tree, hk]
    rw [List.map_cons, visitFields, List.flatMap_cons]
    refine .bind_ok (lift_run (PathId.node?_run_of_holds hhost.holds)) ?_
    rw [if_neg (by simp)]
    refine .bind_ok (lift_run (ask_run hkw)) ?_
    rw [hc]
    -- What is left of the fields once this one is done.
    have hlater : ∀ (ns : List NodeId) (w₁ : Walk σ), Toured v t ns (t.inside n) w w₁ →
        Ends (t.Deep v.blacklist limit depth (rest.flatMap fun e => e.2.ids)) limit
          (if false = true then pure true else visitFields v fuel depth p n (rest.map Prod.fst)) w₁
          (Toured v t (ns ++ rest.flatMap fun e => e.2.ids) (t.inside n) w) := by
      intro ns w₁ hw₁
      rw [if_neg (by simp)]
      exact (ih (fun e he => hrest e (by simp [he])) fuel w₁ (by omega)
        (hready.passed hw₁.passed) (hhost.passed hw₁.passed)).mono fun w' hw' => hw₁.trans hw'
    -- A field with one node.
    have hone : ∀ c, child.ids = [c] → child.node? = some c → child.isList = false →
        Ends (t.Deep v.blacklist limit depth [c] ∨
            t.Deep v.blacklist limit depth (rest.flatMap fun e => e.2.ids)) limit
          (do
            let q ← p.child f
            let stopped ← visitSingle v fuel depth q
            if stopped then pure true else visitFields v fuel depth p n (rest.map Prod.fst)) w
          (Toured v t ([c] ++ rest.flatMap fun e => e.2.ids) (t.inside n) w) := by
      intro c hids hnode hlist
      obtain ⟨q, s, hgo, hlands⟩ := PathId.child_lands hready.tidy hhost.holds hkw hc hlist
      obtain ⟨e, he, hplace, -⟩ := hlands.data
      simp only [PathData.place, Prod.mk.injEq] at hplace
      have hpassed := hlands.passed (C := t.inside n) hready.tidy ⟨n, .refl, rfl⟩
      let w₁ : Walk σ := { w with session := s }
      have hstart : Toured v t [] (t.inside n) w w₁ := .of_passed hpassed rfl rfl
      have hsub : [c].Sublist k.children := hids ▸ k.sublist_children hmem
      have hcn : t.IsChild n c := (t.isChild_iff n c).mpr ⟨k, hk, hsub.subset (by simp)⟩
      have hinside : insert e.container (t.inside c) ⊆ t.inside n := by
        rw [hplace.2.1]
        exact Set.insert_subset ⟨n, .refl, rfl⟩ (t.inside_child hcn)
      have hsmall : t.Fits (N - 1) c :=
        hfits.child hF hn hk [] hsub
      have hvisit := visitSingle_tours depth (hall c (hsub.subset (by simp))) hsmall
        (show 8 * (N - 1) < fuel by omega) (hready.passed hpassed) (w := w₁) he
        (hplace.1.trans hnode) (hF.not_mem_inside hn hcn (by rw [hplace.2.1]; rfl))
      refine .bind_ok (lift_run hgo) (hvisit.bind fun w₂ hw₂ => ?_)
      exact hlater [c] w₂ (hstart.trans (hw₂.mono hinside))
    cases child with
    | one c => exact (hone c rfl rfl rfl).congr Tree.deep_append.symm
    | opt c? =>
      cases c? with
      | none => exact hlater [] w (.of_passed (.refl hready.tidy) rfl rfl)
      | some c => exact (hone c rfl rfl rfl).congr Tree.deep_append.symm
    | many ids =>
      have hlist := (visitList_tours depth hF hn hk hall hfits hc ids [] rfl fuel []
        (pushFrame w) (by simp) (by simp; omega) hready.pushFrame (.refl hready.pushFrame.tidy)
        hhost).withFrame
      refine (hlist.bind fun w₁ hw₁ => ?_).congr Tree.deep_append.symm
      obtain ⟨w₂, hw₂, rfl⟩ := hw₁
      exact hlater ids _ hw₂.of_framed

theorem beginVisit_run (hd : w.session.paths[p.index]? = some d) :
    (beginVisit p false : WalkM σ Unit) w =
      .ok () { w with session := w.session.begun p, visited := w.visited + 1 } :=
  beginVisit_of_data hd false

/-- The handlers for a node are called in their order. -/
theorem callAll_lines (hv : v.Observes t) (phase : Phase) (hn : t.Reachable n)
    (hk : t.kind? n = some k) (hready : Ready t limit w)
    (hd : w.session.paths[p.index]? = some d) (hopen : d.Open n) :
    ∃ own, callAll p n (v.handlersFor phase k.type) w = .ok false { w with own } ∧
      ∀ tour own', Recounts v t tour own own' → Recounts v t ((phase, n) :: tour) w.own own' := by
  obtain ⟨own, hcalls, hrun⟩ := callAll_run hv (v.handlersFor phase k.type)
    (fun h hh => ⟨phase, Visitor.mem_handlersFor hh⟩) hready hn hd hopen
  obtain ⟨lined, hlines, hhandlers⟩ := v.exists_lines phase k.type
  refine ⟨own, hrun, fun tour own' hrest => ?_⟩
  rw [hhandlers] at hcalls
  exact .cons hready.tree ⟨d, hd, hopen.node⟩ (Tree.type?_of_kind hk) hlines hcalls hrest

/-- The visit of a node makes its tour, if those of its children make theirs. -/
theorem visits_of_children (hv : v.Observes t) (hF : t.Forest t.reachable) (hn : t.Reachable n)
    (hk : t.kind? n = some k) (hall : ∀ c ∈ k.children, Visits v t limit c) :
    Visits v t limit n := by
  intro N fuel depth p w d hfits hfuel hready hd hnode hout
  have hpos := hfits.pos
  obtain ⟨fuel, rfl⟩ : ∃ fuel', fuel = fuel' + 1 := ⟨fuel - 1, by omega⟩
  obtain ⟨e, he, hlive⟩ := (hready.tidy.live_of_holds ⟨d, hd, hnode⟩).1
  obtain rfl : d = e := Option.some.inj (hd.symm.trans he)
  have htype : t.type? n = some k.type := Tree.type?_of_kind hk
  have hvisible : t.Visible v.blacklist n ↔ k.type ∉ v.blacklist := Tree.visible_iff hk
  rw [visit]
  refine .bind_ok (show (isStopping : WalkM σ Bool) w = .ok false w by
    rw [← hready.going]; rfl) ?_
  rw [if_neg (by simp)]
  refine .bind_ok (lift_run (p.data_run hd)) ?_
  rw [hnode, hlive]
  refine .bind_ok (lift_run (ask_run (by rw [hready.tree, htype]))) ?_
  refine .bind_ok (show (get : WalkM σ (Walk σ)) w = .ok w w from rfl) ?_
  dsimp only
  rw [hready.limit]
  by_cases hhidden : k.type ∈ v.blacklist
  · have hno : ¬ t.Visible v.blacklist n := fun h => hvisible.mp h hhidden
    rw [if_pos hhidden]
    refine .of_ok (Tree.not_deep_of_hidden hno) rfl ⟨?_, d, hd, rfl, rfl⟩
    exact ⟨.refl hready.tidy, [], .pass hno .nil, .nil _, rfl⟩
  · have hyes : t.Visible v.blacklist n := hvisible.mpr hhidden
    rw [if_neg hhidden]
    by_cases hdeep : limit ≤ depth
    · rw [if_pos hdeep]
      exact .inr ⟨(Tree.deep_single hk hyes).mpr (.inl hdeep), w, rfl⟩
    · rw [if_neg hdeep]
      refine .bind_ok (beginVisit_run hd) ?_
      -- The beginning of the visit: the path is open, and the handlers are called.
      have hd' := getElem?_begun hd
      have hopen : (d.begun (w.session.frames.head?.map Frame.id)).Open n :=
        ⟨hnode, hlive, rfl, rfl⟩
      have hbegun := begun_passed (C := insert d.container (t.inside n)) hready.tidy hd hlive
        (Set.mem_insert _ _)
      have hready₁ : Ready t limit { w with
          session := w.session.begun p, visited := w.visited + 1 } := hready.passed hbegun
      obtain ⟨own₁, hrun₁, hcount₁⟩ := callAll_lines hv .enter hn hk hready₁ hd' hopen
      refine .bind_ok hrun₁ ?_
      rw [if_neg (by simp), ← k.map_fst_fields]
      have hwidth : k.fields.length ≤ 4 := by
        rw [← List.length_map Prod.fst, k.map_fst_fields]
        exact k.type.length_visitorFields
      -- The children.
      have hfields := visitFields_tours (p := p) (depth + 1) hF hn hk hall hfits k.fields
        (fun _ he => he) fuel
        { w with session := w.session.begun p, visited := w.visited + 1, own := own₁ } (by omega)
        ⟨hready₁.tidy, hready₁.tree, hready₁.limit, hready₁.going⟩ ⟨_, hd', hnode, hout⟩
      refine (hfields.bind_still fun w₂ hw₂ => ?_).congr ?_
      · -- The end of the visit: the path is where it was, and the handlers are called again.
        have hd₂ := hw₂.passed.kept p _ hd' hout
        have hready₂ := hready₁.passed hw₂.passed
        obtain ⟨own', hrun', hcount'⟩ := callAll_lines hv .exit hn hk hready₂ hd₂ hopen
        refine ⟨{ w₂ with own := own' }, ?_, ⟨?_, ?_⟩, _, hd₂, rfl, rfl⟩
        · rw [if_neg (by simp), bind_of_ok (lift_run (p.data_run hd₂)), hopen.node, hopen.live,
            if_neg (by simp), bind_of_ok (lift_run (ask_run (by rw [hready₂.tree, htype]))),
            bind_of_ok hrun']
          exact mustStop_run hd₂ hopen hready₂.going
        · exact hbegun.trans (hw₂.passed.mono (Set.subset_insert _ _))
        · obtain ⟨inner, htour, hrecounts, hvisited⟩ := hw₂.tour
          refine ⟨_, .single hk hyes htour, ?_, ?_⟩
          · exact hcount₁ _ _ (hrecounts.append (hcount' [] own' (.nil own')))
          · show w₂.visited = _
            rw [hvisited, Tree.length_entered_single]
            exact (Nat.add_right_comm _ _ _).trans (Nat.add_assoc _ _ _)
      · rw [Tree.deep_single hk hyes]
        exact (or_iff_right hdeep).symm

end Children

/-- The visit of any node of a program tree makes its tour. -/
theorem visits_of_reachable (ht : t.IsProgram) (hv : v.Observes t) (hn : t.Reachable n) :
    Visits v t limit n := by
  have hdepth : ∀ (d : Nat) (n : NodeId), t.DepthWithin d n → t.Reachable n →
      Visits v t limit n := by
    intro d
    induction d with
    | zero => exact fun n hd => hd.elim
    | succ d ih =>
      rintro n ⟨k, hk, hc⟩ hn
      exact visits_of_children hv ht.forest hn hk fun c hmem =>
        ih c (hc c hmem) (.child hn ((t.isChild_iff n c).mpr ⟨k, hk, hmem⟩))
  exact hdepth t.size n (ht.forest.depthWithin hn) hn

end Walk

/-! ## The whole walk -/

/-- A walk with a visitor that only observes makes the tour of what is seen, or is refused where
something is too deep. -/
theorem Visitor.Observes.traverse_ends {v : Visitor σ} {t : Tree} {w : Walk σ} (hv : v.Observes t)
    (hw : w.session.Reached) (hwt : w.session.tree = t) (ht : t.IsProgram) :
    (¬ t.Deep v.blacklist w.session.config.maxDepth 0 t.root.toList ∧ ∃ tour w',
      traverse v w = .ok { stopped := false, visited := (t.seen v.blacklist).ncard } w' ∧
      t.Tours v.blacklist t.root.toList tour ∧ Recounts v t tour w.own w'.own) ∨
    (t.Deep v.blacklist w.session.config.maxDepth 0 t.root.toList ∧ ∃ w',
      traverse v w = .error (.refused (.depthLimit w.session.config.maxDepth)) w') := by
  obtain ⟨r, hr, -⟩ := ht.root
  have hreach : t.Reachable r := .root hr
  -- The walk starts with no visits and no wish to stop.
  let w₀ : Walk σ := { w with visited := 0, session := { w.session with stopping := false } }
  have hready : Walk.Ready t w.session.config.maxDepth w₀ :=
    ⟨hw.tidy.of_same rfl rfl rfl, hwt, rfl, rfl⟩
  have hnode : nodeAt .root .root w₀.session = .ok (some r) w₀.session :=
    congrArg (EStateM.Result.ok · _) ((congrArg Tree.root hwt).trans hr)
  obtain ⟨p, s, hgo, hlands⟩ := pathFor_lands hready.tidy none (by simp) hnode
  obtain ⟨d, hd, hplace, -⟩ := hlands.data
  simp only [PathData.place, Prod.mk.injEq] at hplace
  have hready₁ : Walk.Ready t w.session.config.maxDepth { w₀ with session := s } :=
    hready.passed (hlands.passed (C := {.root}) hready.tidy rfl)
  have hfuel : 8 * t.size < Walk.defaultFuel :=
    (Nat.mul_le_mul_left 8 ht.small).trans_lt (by decide)
  have hout : d.container ∉ t.inside r := by
    rw [hplace.2.1]
    rintro ⟨m, -, hm⟩
    cases hm
  have hvisit := Walk.visitSingle_tours 0
    (Walk.visits_of_reachable ht hv hreach) (ht.forest.fits hreach) hfuel
    hready₁ hd hplace.1 hout
  have hrun : traverse v w = Walk.isolated (do
      let root ← rootPath
      Walk.visitSingle v Walk.defaultFuel 0 root) w := rfl
  have hends : Walk.Ends (t.Deep v.blacklist w.session.config.maxDepth 0 [r])
      w.session.config.maxDepth (do
        let root ← rootPath
        Walk.visitSingle v Walk.defaultFuel 0 root) w₀ _ :=
    .bind_ok (Walk.lift_run hgo) hvisit
  rw [hr, Option.toList_some, hrun]
  rcases hends with ⟨hshallow, w', hok, hw'⟩ | ⟨hdeep, w', herr⟩
  · obtain ⟨tour, htour, hrecounts, hvisited⟩ := hw'.tour
    refine .inl ⟨hshallow, tour, Walk.resume w w', ?_, htour, hrecounts⟩
    have hroot : t.Tours v.blacklist t.root.toList tour := by rwa [hr]
    have hcount : w'.visited = (t.seen v.blacklist).ncard := by
      rw [hvisited, (ht.entered_length hroot).2]
      exact Nat.zero_add _
    rw [← hcount]
    exact Walk.isolated_run hok
  · exact .inr ⟨hdeep, Walk.resume w w', Walk.isolated_run_error herr⟩

/-- In any session that a client can get hold of and whose tree is a program, a walk with a visitor
that only observes is the plain walk over the nodes that can be seen from the root. If they are all
above the depth limit, it ends unstopped after as many visits as there are such nodes; it enters
each of them once and leaves each of them once, in the order of the tour, and at each event it calls
the handlers for the node in their order. Otherwise it is refused. -/
theorem traverse_tours {v : Visitor σ} {t : Tree} {w : Walk σ} (hw : w.session.Reached)
    (hwt : w.session.tree = t) (ht : t.IsProgram) (hv : v.Observes t) :
    ((∀ n d, t.Sees v.blacklist t.root.toList n d → d < w.session.config.maxDepth) →
      ∃ tour w', traverse v w =
          .ok { stopped := false, visited := (t.seen v.blacklist).ncard } w' ∧
        t.Tours v.blacklist t.root.toList tour ∧ Recounts v t tour w.own w'.own ∧
        tour.Nodup ∧ ∀ phase n, (phase, n) ∈ tour ↔ n ∈ t.seen v.blacklist) ∧
    ((∃ n d, t.Sees v.blacklist t.root.toList n d ∧ w.session.config.maxDepth ≤ d) →
      ∃ w', traverse v w = .error (.refused (.depthLimit w.session.config.maxDepth)) w') := by
  constructor
  · intro hshallow
    rcases hv.traverse_ends hw hwt ht with ⟨-, tour, w', hok, htour, hrecounts⟩ |
      ⟨⟨n, d, hsees, hle⟩, -⟩
    · exact ⟨tour, w', hok, htour, hrecounts, (ht.entered_length htour).1, fun phase n =>
        htour.mem_iff phase n⟩
    · have := hshallow n d hsees
      omega
  · rintro ⟨n, d, hsees, hle⟩
    rcases hv.traverse_ends hw hwt ht with ⟨hno, -⟩ | ⟨-, herr⟩
    · exact absurd ⟨n, d, hsees, by omega⟩ hno
    · exact herr

/-- The program `if (a) b;` after an empty statement before it was removed. -/
def guardedProgram : Tree where
  nodes := #[{ kind := .emptyStatement }, { kind := .identifier "a" none },
    { kind := .identifier "b" none }, { kind := .expressionStatement ⟨2⟩ },
    { kind := .ifStatement ⟨1⟩ ⟨3⟩ none }, { kind := .program [⟨4⟩] [] }]
  root := some ⟨5⟩

/-- Find the two statements of `; if (a) b;` and remove the first one. -/
def trimming : WalkM (List (Nat × NodeId)) Unit := do
  let root ← WalkM.onSession rootPath
  let _ ← WalkM.onSession (root.element .body 1)
  let first ← WalkM.onSession (root.element .body 0)
  WalkM.onSession first.remove

theorem trimming_client : Client trimming :=
  .bind (.call (.navigate .rootPath)) fun root =>
    .bind (.call (.navigate (.element root .body 1))) fun _ =>
      .bind (.call (.navigate (.element root .body 0))) fun first => .call (.remove first)

/-- The session in which the empty statement was removed. -/
def guardedSession : Session :=
  (after trimming
    { session :=
        { tree := guardedProgram.modify ⟨5⟩ fun n => { n with kind := .program [⟨0⟩, ⟨4⟩] [] }
          config := { lazyScopes := true } }
      own := [] }).session

/-- Note the node at the path under a number. -/
def noting (number : Nat) : Handler (List (Nat × NodeId)) := fun p => do
  let node ← p.node?
  modify fun w => { w with own := w.own ++ node.toList.map fun n => (number, n) }

/-- Handlers of each kind, registered in another order than that in which they are called. -/
def numbering : Visitor (List (Nat × NodeId)) where
  entries := [(.exit, .any, noting 4), (.enter, .category .statement, noting 3),
    (.enter, .type .ifStatement, noting 2), (.enter, .any, noting 1)]
  blacklist := [.expressionStatement]

theorem numbering_observes (t : Tree) : numbering.Observes t := by
  have hnoting : ∀ (number : Nat) (p : PathId) (n : NodeId) (w : Walk (List (Nat × NodeId))),
      w.session.Holds p n → ∃ own, noting number p w = .ok () { w with own } := by
    intro number p n w hp
    refine ⟨w.own ++ [(number, n)], ?_⟩
    unfold noting
    rw [bind_of_ok (Walk.lift_run (PathId.node?_run_of_holds hp))]
    rfl
  intro phase selector h hh p n w _ hp _
  simp only [numbering, List.mem_cons, List.not_mem_nil, or_false, Prod.mk.injEq] at hh
  rcases hh with ⟨-, -, rfl⟩ | ⟨-, -, rfl⟩ | ⟨-, -, rfl⟩ | ⟨-, -, rfl⟩
  · exact hnoting 4 p n w hp
  · exact hnoting 3 p n w hp
  · exact hnoting 2 p n w hp
  · exact hnoting 1 p n w hp

/-- The walk enters and leaves the program, the `if` and its test, and passes over the statement
that is hidden; on entering, it calls the handlers in the order of their numbers. -/
theorem guardedProgram_tours : guardedSession.Reached ∧ guardedSession.tree = guardedProgram ∧
    guardedProgram.IsProgram ∧ numbering.Observes guardedProgram ∧
    (guardedProgram.seen numbering.blacklist).ncard = 3 ∧
    ∃ w', traverse numbering { session := guardedSession, own := [] } =
        .ok { stopped := false, visited := 3 } w' ∧
      w'.own = [(1, ⟨5⟩), (1, ⟨4⟩), (2, ⟨4⟩), (3, ⟨4⟩), (1, ⟨1⟩), (4, ⟨1⟩), (4, ⟨4⟩),
        (4, ⟨5⟩)] := by
  have hopen : Session.open? (guardedProgram.modify ⟨5⟩ fun n =>
      { n with kind := .program [⟨0⟩, ⟨4⟩] [] }) { lazyScopes := true } = .ok _ := rfl
  have hreached : guardedSession.Reached := .used [] 0 (.opened hopen) trimming_client
  have htree : guardedSession.tree = guardedProgram := by decide +kernel
  have hprogram : guardedProgram.IsProgram :=
    .of_bottomUp (by decide) (by decide) (by decide) (by decide)
  have hrun : (match traverse numbering { session := guardedSession, own := [] } with
    | .ok result w => some (result.visited, w.own)
    | .error _ _ => none) = some (3, [(1, ⟨5⟩), (1, ⟨4⟩), (2, ⟨4⟩), (3, ⟨4⟩), (1, ⟨1⟩), (4, ⟨1⟩),
      (4, ⟨4⟩), (4, ⟨5⟩)]) := by decide +kernel
  have hshallow : ∀ n d, guardedProgram.Sees numbering.blacklist guardedProgram.root.toList n d →
      d < guardedSession.config.maxDepth := fun n d h =>
    (hprogram.sees_lt_size h).trans_le (by decide +kernel)
  obtain ⟨tour, w', hok, -⟩ := (traverse_tours
    (w := { session := guardedSession, own := [] }) hreached htree hprogram
    (numbering_observes guardedProgram)).1 hshallow
  rw [hok] at hrun
  simp only [Option.some.injEq, Prod.mk.injEq] at hrun
  exact ⟨hreached, htree, hprogram, numbering_observes guardedProgram, hrun.1, w', hrun.1 ▸ hok,
    hrun.2⟩

end Espalier
