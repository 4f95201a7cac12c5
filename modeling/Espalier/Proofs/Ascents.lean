import Espalier.Proofs.Accounts
import Espalier.Proofs.Answers
import Espalier.Proofs.ClosedAnalysis

set_option autoImplicit false

/-! # The way up from any path

Some paths hold no node: an empty field has a path, and so has a place outside the tree. Where
nothing is edited, from these too a finite way leads up (`Session.Walkable.exists_rise`). A path
with a position is filed there and its parent holds a node of the program; one without a position is
younger than its parent. So whatever is asked on the way up from a known path is answered. -/

namespace Espalier

open SessionM Session

variable {α β : Type}

/-! ## Paths with a position are filed -/

namespace Session

/-- Every path with a position is in the bucket of its container. -/
def Shelved (s : Session) : Prop :=
  ∀ (p : PathId) d, s.paths[p.index]? = some d → d.container ≠ .detached → p ∈ s.bucket d.container

/-- The paths are filed as they were, or anew. -/
def Shelves (s s' : Session) : Prop := s.Shelved → s'.Shelved

theorem Shelves.trans (s₁ s₂ s₃ : Session) (h : s₁.Shelves s₂) (h' : s₂.Shelves s₃) : s₁.Shelves s₃ :=
  fun hs => h' (h hs)

end Session

namespace Shelves

theorem of_same {s s' : Session} (hp : s'.paths = s.paths) (hc : s'.cache = s.cache) :
    s.Shelves s' := by
  intro hs p d hd hpos
  have hbucket := hs p d (hp ▸ hd) hpos
  simpa only [bucket, hc] using hbucket

/-- A path that is written to keeps its container, or has no position any more. -/
theorem modifyData (p : PathId) {f : PathData → PathData}
    (hf : ∀ d, (f d).container = d.container ∨ (f d).container = .detached) :
    Leads Shelves (p.modifyData f) := by
  refine Leads.bind Shelves.trans (fun s => ?_) fun _ s hs q d' hd' hpos => ?_
  · rw [(Composed.data p).question_after]
    exact id
  · have hd' : (s.paths.modify p.index f)[q.index]? = some d' := hd'
    rw [getElem?_modify_paths] at hd'
    split at hd'
    · obtain ⟨d, hd, rfl⟩ := Option.map_eq_some_iff.mp hd'
      rcases hf d with hsame | hdetached
      · rw [hsame] at hpos ⊢
        exact hs q d hd hpos
      · exact absurd hdetached hpos
    · exact hs q d' hd' hpos

/-- A new path needs no bucket if it has no position. -/
theorem of_push {s : Session} {d : PathData} (hs : s.Shelved) (cache : Table Container (List PathId))
    (hkept : ∀ c, s.bucket c ⊆ (cache.get? c).getD [])
    (hnew : d.container ≠ .detached → ⟨s.paths.size⟩ ∈ (cache.get? d.container).getD [])
    {p : PathId} {e : PathData} (he : (s.paths.push d)[p.index]? = some e)
    (hpos : e.container ≠ .detached) : p ∈ (cache.get? e.container).getD [] := by
  rw [Array.getElem?_push] at he
  split at he
  · next hp =>
    obtain rfl := Option.some.inj he
    obtain rfl : p = ⟨s.paths.size⟩ := congrArg PathId.mk hp
    exact hnew hpos
  · exact hkept _ (hs p e he hpos)

theorem pathFor (parent : Option PathId) (c : Container) (k : Key) :
    Leads Shelves (pathFor parent c k) := by
  have hrefl : ∀ s : Session, s.Shelves s := fun _ => id
  unfold Espalier.pathFor
  split
  · refine Leads.bind Shelves.trans (Leads.get hrefl) fun s => ?_
    split
    · exact Leads.bind Shelves.trans (modifyData _ fun _ => .inr rfl) fun _ => Leads.pure hrefl _
    · exact fun s hs p d hd hpos => of_push hs s.cache (fun _ => List.Subset.refl _)
        (fun h => absurd rfl h) hd hpos
  · refine Leads.bind Shelves.trans (fun s => ?_) fun node => ?_
    · rw [(Composed.nodeAt c k).question_after]
      exact id
    refine Leads.bind Shelves.trans (Leads.get hrefl) fun s => ?_
    split
    · exact Leads.bind Shelves.trans (modifyData _ fun _ => .inl rfl) fun _ => Leads.pure hrefl _
    · intro s hs p d hd hpos
      have hbucket := fun c' => bucket_insert s c c' (s.bucket c ++ [⟨s.paths.size⟩])
      refine of_push (d := { node, parent, container := c, key := k }) hs
        (s.cache.insert c (s.bucket c ++ [⟨s.paths.size⟩])) (fun c' q hq => ?_) (fun _ => ?_) hd hpos
      · rw [show ((s.cache.insert c _).get? c').getD [] = _ from hbucket c']
        split
        · next hc => exact List.mem_append_left _ (hc ▸ hq)
        · exact hq
      · rw [show ((s.cache.insert c _).get? c).getD [] = _ from hbucket c, if_pos rfl]
        exact List.mem_append_right _ (List.mem_singleton_self _)

theorem hop {x : SessionM α} (hx : Hop α x) : Leads Shelves x := by
  refine hx.landing.leads (fun _ => id) Shelves.trans fun _ _ landing => ?_
  cases landing with
  | root => exact pathFor none .root .root
  | nowhere parent => exact pathFor parent .detached .root
  | slot p n f => exact pathFor (some p) (.slot n) (.field f)
  | item p n f i => exact pathFor (some p) (.list n f) (.index i)

theorem charting {x : SessionM α} (hx : Charting x) : Leads Shelves x := by
  refine hx.leads (fun _ => id) Shelves.trans fun _ _ step => ?_
  cases step with
  | hop h => exact hop h
  | create block parent =>
    intro s
    rcases createScope_cases block parent s with ⟨e, he⟩ | ⟨T, type, hrun, -⟩
    · rw [after_of_error he]
      exact id
    · rw [after_of_ok hrun]
      exact of_same rfl rfl
  | write g => exact fun _ => of_same rfl rfl

theorem inferring {x : SessionM α} (hx : Inferring x) : Leads Shelves x := by
  refine hx.leads (fun _ => id) Shelves.trans fun _ _ step => ?_
  cases step with
  | answer p type => exact modifyData p fun _ => .inl rfl
  | glance glance =>
    cases glance with
    | hop h => exact hop h
    | lookup p => exact charting (Searching.binding? p).charting

end Shelves

/-! ## Sessions in which nothing was edited -/

namespace Session

/-- Where every block has its scope, questions leave the tree as it is, and every block keeps its
scope. -/
def Consults (s s' : Session) : Prop :=
  ∀ K, s.Charted K → s'.Charted K ∧ s'.tree = s.tree

theorem Consults.trans (s₁ s₂ s₃ : Session) (h : s₁.Consults s₂) (h' : s₂.Consults s₃) : s₁.Consults s₃ :=
  fun K hs => ⟨(h' K (h K hs).1).1, (h' K (h K hs).1).2.trans (h K hs).2⟩

end Session

/-- Looking a name up leaves every session as it is in which every block has its scope. -/
theorem Session.Charted.after_binding? {s : Session} {K : Set NodeId} (h : s.Charted K)
    (p : PathId) : after p.binding? s = s := by
  rcases question_cases (Composed.identifierName? p) s with ⟨e, he⟩ | ⟨o, ho⟩
  · exact after_of_error (show p.binding? s = _ from bind_of_error he)
  · cases o with
    | none => exact after_of_ok (show p.binding? s = .ok none s from bind_of_ok ho)
    | some x =>
      obtain ⟨i, -, hlookup⟩ := h.exists_scope_of_name ho
      unfold after
      rw [hlookup]
      exact Composed.question_after (.scopeBinding? i x) s

theorem Inferring.consults {x : SessionM α} (hx : Inferring x) : Leads Session.Consults x := by
  refine hx.leads (fun s _ hs => ⟨hs, rfl⟩) Consults.trans fun _ _ step => ?_
  cases step with
  | answer p type =>
    intro s K hs
    cases hd : s.paths[p.index]? with
    | none =>
      rw [after_of_error (show p.modifyData _ s = _ from bind_of_error (p.data_unknown hd))]
      exact ⟨hs, rfl⟩
    | some d =>
      rw [after_of_ok (p.modifyData_run hd _)]
      exact ⟨hs.answer p type, rfl⟩
  | glance glance =>
    cases glance with
    | hop hop =>
      intro s K hs
      have hwent := Navigating.roaming (.primitive hop) s K hs.sound
      exact ⟨hs.went hwent, hwent.tree⟩
    | lookup p =>
      intro s K hs
      rw [hs.after_binding? p]
      exact ⟨hs, rfl⟩

/-! ## Ways up -/

namespace Session

/-- The list starts with the path and goes on with its parent and the parents above, up to a path
that has none. -/
inductive Rises (s : Session) : PathId → List PathId → Prop
  | top {p : PathId} {d : PathData} : s.paths[p.index]? = some d → d.parent = none → Rises s p [p]
  | up {p q : PathId} {d : PathData} {l : List PathId} : s.paths[p.index]? = some d →
      d.parent = some q → Rises s q l → Rises s p (p :: l)

section Rises

variable {s : Session} {K : Set NodeId} {p q : PathId} {l l' : List PathId}

theorem Rises.knows (h : s.Rises p l) : s.Knows l := by
  induction h with
  | top hd => exact knows_cons.mpr ⟨knows_of_data hd, knows_nil⟩
  | up hd _ _ ih => exact knows_cons.mpr ⟨knows_of_data hd, ih⟩

/-- From a path there is one way up. -/
theorem Rises.unique (h : s.Rises p l) (h' : s.Rises p l') : l = l' := by
  induction h generalizing l' with
  | top hd hparent =>
    cases h' with
    | top => rfl
    | up hd' hparent' =>
      obtain rfl := Option.some.inj (hd.symm.trans hd')
      cases hparent.symm.trans hparent'
  | up hd hparent _ ih =>
    cases h' with
    | top hd' hparent' =>
      obtain rfl := Option.some.inj (hd.symm.trans hd')
      cases hparent.symm.trans hparent'
    | up hd' hparent' h' =>
      obtain rfl := Option.some.inj (hd.symm.trans hd')
      obtain rfl := Option.some.inj (hparent.symm.trans hparent')
      rw [ih h']

/-- The way up from a path on the way is no longer. -/
theorem Rises.from_mem (h : s.Rises p l) (hq : q ∈ l) : ∃ l', s.Rises q l' ∧ l'.length ≤ l.length := by
  induction h with
  | top hd hparent =>
    obtain rfl := List.mem_singleton.mp hq
    exact ⟨_, .top hd hparent, Nat.le_refl _⟩
  | up hd hparent h ih =>
    rcases List.mem_cons.mp hq with rfl | hq
    · exact ⟨_, .up hd hparent h, Nat.le_refl _⟩
    · obtain ⟨l', hl', hle⟩ := ih hq
      exact ⟨l', hl', Nat.le_succ_of_le hle⟩

/-- No path occurs twice on the way: the way up from there would be longer than itself. -/
theorem Rises.nodup (h : s.Rises p l) : l.Nodup := by
  induction h with
  | top => simp
  | up hd hparent h ih =>
    refine List.nodup_cons.mpr ⟨fun hmem => ?_, ih⟩
    obtain ⟨l', hl', hle⟩ := h.from_mem hmem
    rw [hl'.unique (.up hd hparent h), List.length_cons] at hle
    omega

theorem Rises.length_le (h : s.Rises p l) : l.length ≤ s.paths.size := by
  have hmap : (l.map PathId.index).Nodup := h.nodup.map fun ⟨a⟩ ⟨b⟩ hab => by simpa using hab
  have hsub : l.map PathId.index ⊆ List.range s.paths.size := by
    intro i hi
    obtain ⟨q, hq, rfl⟩ := List.mem_map.mp hi
    exact List.mem_range.mpr (h.knows q hq)
  simpa using (hmap.subperm hsub).length_le

/-- The way up through nodes of the tree. -/
theorem Ancestry.rises (h : s.Ancestry K p l) (hs : s.Sound K) : s.Rises p l := by
  induction h with
  | root hl _ =>
    obtain ⟨d, hf, ha⟩ := hl
    exact .top hf.data ha
  | up hl _ _ hpos hq _ ih =>
    obtain ⟨d, hf, -⟩ := id hl
    exact .up hf.data (hl.parent_eq hs hf.data hpos hq) ih

end Rises

/-- The paths are in step with the tree, no number is out of range, and paths with a position are
filed. -/
structure Walkable (s : Session) : Prop where
  sound : s.Sound s.tree.reachable
  closed : s.Closed
  shelved : s.Shelved

/-- Every block has its scope, no number is out of range, and paths with a position are filed. -/
structure Passable (s : Session) : Prop extends Charted s s.tree.reachable where
  closed : s.Closed
  shelved : s.Shelved

theorem Passable.walkable {s : Session} (h : s.Passable) : s.Walkable := ⟨h.sound, h.closed, h.shelved⟩

section Walkable

variable {s : Session} {p : PathId}

/-- From every path of the session a finite way leads up. -/
theorem Walkable.exists_rise (h : s.Walkable) (hp : s.Knows p) : ∃ l, s.Rises p l := by
  -- A path without a position is younger than its parent, so the induction is on its number.
  obtain ⟨i⟩ := p
  induction i using Nat.strong_induction_on with
  | _ i ih =>
    obtain ⟨d, hd⟩ := exists_data hp
    by_cases hpos : d.container = .detached
    · cases hparent : d.parent with
      | none => exact ⟨_, .top hd hparent⟩
      | some q =>
        have hlt := (h.closed.paths.sinks _ d hd hpos).2 q hparent
        obtain ⟨l, hl⟩ := ih q.index hlt ((h.closed.paths.data _ d hd).2.1 q hparent)
        exact ⟨_, .up hd hparent hl⟩
    · obtain ⟨pos, e, hcontainer, hw, hf⟩ := h.sound.filed _ _ (h.shelved _ d hd hpos)
      obtain rfl := Option.some.inj (hd.symm.trans hf.data)
      have hadopts := h.sound.linked _ pos d hf hw
      unfold Adopts at hadopts
      cases hparent : pos.container.parent? with
      | none =>
        rw [hparent] at hadopts
        exact ⟨_, .top hd hadopts⟩
      | some m =>
        rw [hparent] at hadopts
        obtain ⟨q, hq, hheld⟩ := hadopts
        obtain ⟨l, hl⟩ := h.sound.exists_ancestry (h.sound.mem_of_holds hheld) hheld
        exact ⟨_, .up hd hq (hl.rises h.sound)⟩

end Walkable

/-- Whatever becomes of a careful computation, it leaves a closed session with all that was there. -/
theorem Closed.after [Names α] {x : SessionM α} {s : Session} (h : s.Closed) (hc : Careful x s) :
    s.Extends (after x s) ∧ (after x s).Closed := by
  have hends := hc h
  cases hrun : x s with
  | ok a s' =>
    rw [hrun] at hends
    rw [after_of_ok hrun]
    exact ⟨hends.1, hends.2.1⟩
  | error e s' =>
    rw [hrun] at hends
    rw [after_of_error hrun]
    exact ⟨hends.1, hends.2.1⟩

/-- Whatever becomes of a question, it leaves such a session as one of its kind. -/
theorem Passable.after [Names α] {x : SessionM α} {s : Session} (h : s.Passable)
    (hx : Inferring x) (hc : Careful x s) :
    (after x s).Passable ∧ (after x s).tree = s.tree ∧ s.Extends (after x s) := by
  obtain ⟨hcharted, htree⟩ := hx.consults s _ h.toCharted
  obtain ⟨hextends, hclosed⟩ := h.closed.after hc
  refine ⟨⟨?_, hclosed, Shelves.inferring hx s h.shelved⟩, htree, hextends⟩
  rw [htree]
  exact hcharted

/-- The sessions of a program whose scopes were built, in which known paths were gone on from and
asked about, and nothing was edited. -/
inductive Consulted (t : Tree) : Session → Prop
  | crawled {config : Config} {s₀ s : Session} (hopen : Session.open? t config = .ok s₀)
      (hrun : ensureScopes s₀ = .ok () s) : Consulted t s
  | asked {s : Session} {α : Type} [Names α] {x : SessionM α} (hx : Inferring x)
      (hc : Careful x s) (h : Consulted t s) : Consulted t (Espalier.after x s)

/-- In such a session no number is out of range, and paths with a position are filed. -/
theorem Consulted.filed {t : Tree} {s : Session} (h : s.Consulted t) (hclosed : t.Closed) :
    s.Closed ∧ s.Shelved := by
  induction h with
  | @crawled config s₀ s hopen hrun =>
    have hends := Careful.ensureScopes (Closed.opened hclosed hopen)
    rw [hrun] at hends
    have hshelved₀ : s₀.Shelved := by
      have hfresh : Shelved { tree := t, config } := fun p d hd => by simp at hd
      unfold Session.open? at hopen
      dsimp only [EStateM.run] at hopen
      split at hopen
      · exact Except.ok.inj hopen ▸ hfresh
      · split at hopen
        · next s' hrun =>
          exact Except.ok.inj hopen ▸ (Shelves.charting .ensureScopes).of_ok hrun hfresh
        · cases hopen
    exact ⟨hends.2.1, (Shelves.charting .ensureScopes).of_ok hrun hshelved₀⟩
  | asked hx hc _ ih => exact ⟨(ih.1.after hc).2, Shelves.inferring hx _ ih.2⟩

theorem Consulted.passable {t : Tree} {s : Session} (h : s.Consulted t) (ht : t.IsProgram)
    (hgrammar : t.Grammatical) (hclosed : t.Closed) : s.Passable ∧ s.tree = t := by
  induction h with
  | @crawled config s₀ s hopen hrun =>
    have hcharted := (Fresh.crawled hopen hrun).charted ht hgrammar
    obtain ⟨s₀', s', hopen', hrun', htree, -⟩ := open?_crawled ht hgrammar config
    obtain rfl := Except.ok.inj (hopen.symm.trans hopen')
    obtain rfl : s = s' := by
      rw [hrun] at hrun'
      cases hrun'
      rfl
    obtain ⟨hclosed', hshelved⟩ := (Consulted.crawled hopen hrun).filed hclosed
    refine ⟨⟨?_, hclosed', hshelved⟩, htree⟩
    rw [htree]
    exact hcharted
  | asked hx hc h ih =>
    obtain ⟨hpassable, htree, -⟩ := ih.1.after hx hc
    exact ⟨hpassable, htree.trans ih.2⟩

end Session

/-! ## Questions on the way up -/

/-- The question is answered, with what the session has. -/
def Session.Replies [Names α] (s : Session) (x : SessionM α) : Prop := ∃ a, x s = .ok a s ∧ s.Knows a

namespace Session.Replies

variable {s : Session} [Names α] [Names β] {x : SessionM α} {f : α → SessionM β}

theorem pure {a : α} (ha : s.Knows a) : s.Replies (pure a : SessionM α) := ⟨a, rfl, ha⟩

theorem bind (hx : s.Replies x) (hf : ∀ a, s.Knows a → s.Replies (f a)) : s.Replies (x >>= f) := by
  obtain ⟨a, hrun, ha⟩ := hx
  obtain ⟨b, hrun', hb⟩ := hf a ha
  exact ⟨b, (bind_of_ok hrun).trans hrun', hb⟩

theorem ite {c : Prop} [Decidable c] {y : SessionM α} (hx : s.Replies x) (hy : s.Replies y) :
    s.Replies (if c then x else y) := by
  split
  · exact hx
  · exact hy

theorem mapM {f : α → SessionM β} {l : List α} (hl : s.Knows l)
    (hf : ∀ a, s.Knows a → s.Replies (f a)) : s.Replies (l.mapM f) := by
  induction l with
  | nil => exact pure knows_nil
  | cons a l ih =>
    obtain ⟨ha, hl⟩ := knows_cons.mp hl
    rw [List.mapM_cons]
    exact (hf a ha).bind fun b hb => (ih hl).bind fun bs hbs => pure (knows_cons.mpr ⟨hb, hbs⟩)

section Path

variable {p : PathId} (hs : s.Closed) (hp : s.Knows p)

include hs hp

theorem data : s.Replies p.data := by
  obtain ⟨d, hd⟩ := exists_data hp
  exact ⟨d, p.data_run hd, hs.paths.data p d hd⟩

theorem node? : s.Replies p.node? := (data hs hp).bind fun _ hd => pure hd.1

theorem parent? : s.Replies p.parent? := (data hs hp).bind fun _ hd => pure hd.2.1

theorem kind? : s.Replies p.kind? := by
  refine (node? hs hp).bind fun o ho => ?_
  cases o with
  | none => exact pure knows_none
  | some n =>
    obtain ⟨k, hk, hknown⟩ := hs.exists_kind (knows_some.mp ho)
    exact ⟨some k, bind_of_ok (ask_run hk), knows_some.mpr hknown⟩

theorem type? : s.Replies p.type? := (kind? hs hp).bind fun _ _ => pure fun _ _ => trivial

theorem is (type : NodeType) : s.Replies (p.is type) := (type? hs hp).bind fun _ _ => pure trivial

theorem isAny (test : NodeType → Bool) : s.Replies (p.isAny test) :=
  (type? hs hp).bind fun _ _ => pure trivial

theorem identifierName? : s.Replies p.identifierName? :=
  (kind? hs hp).bind fun _ _ => pure fun _ _ => trivial

theorem parentType? : s.Replies p.parentType? := by
  refine Replies.bind (α := Option NodeId) ((data hs hp).bind fun _ hd => pure hd.2.2) fun o ho => ?_
  cases o with
  | none => exact pure knows_none
  | some n =>
    obtain ⟨k, hk, -⟩ := hs.exists_kind (knows_some.mp ho)
    exact ⟨some k.type, bind_of_ok (ask_run (Tree.type?_of_kind hk)), fun _ _ => trivial⟩

end Path

section WayUp

variable {p : PathId} (h : s.Walkable) (hp : s.Knows p)

include h hp

theorem ancestry : s.Replies p.ancestry := by
  obtain ⟨l, hl⟩ := h.exists_rise hp
  have hwithin : ∀ fuel, l.length ≤ fuel → PathId.ancestryWithin fuel p s = .ok l s := by
    clear hp
    induction hl with
    | @top p d hd hparent =>
      intro fuel hfuel
      obtain ⟨fuel, rfl⟩ : ∃ i, fuel = i + 1 := ⟨fuel - 1, by simp at hfuel; omega⟩
      rw [PathId.ancestryWithin, bind_of_ok ((p.parent?_run hd).trans (by rw [hparent]))]
      rfl
    | @up p q d l hd hparent _ ih =>
      intro fuel hfuel
      rw [List.length_cons] at hfuel
      obtain ⟨fuel, rfl⟩ : ∃ i, fuel = i + 1 := ⟨fuel - 1, by omega⟩
      rw [PathId.ancestryWithin, bind_of_ok ((p.parent?_run hd).trans (by rw [hparent]))]
      dsimp only
      rw [bind_of_ok (ih fuel (by omega))]
      rfl
  exact ⟨l, hwithin _ (Nat.le_succ_of_le hl.length_le), hl.knows⟩

/-- A question that is answered by every path is answered by the first path on the way up that has
an answer, if there is one. -/
theorem climb {answer : PathId → SessionM (Option α)} (ha : ∀ q, s.Knows q → s.Replies (answer q)) :
    s.Replies (PathId.climb (some p) answer) := by
  obtain ⟨l, hl⟩ := h.exists_rise hp
  have hwithin : ∀ fuel, l.length ≤ fuel → s.Replies (PathId.climbWithin answer fuel (some p)) := by
    clear hp
    induction hl with
    | @top p d hd hparent =>
      intro fuel hfuel
      obtain ⟨fuel, rfl⟩ : ∃ i, fuel = i + 1 := ⟨fuel - 1, by simp at hfuel; omega⟩
      rw [PathId.climbWithin]
      refine (ha p (knows_of_data hd)).bind fun o ho => ?_
      cases o with
      | some a => exact pure ho
      | none =>
        refine ⟨none, ?_, knows_none⟩
        show (p.parent? >>= _) s = _
        rw [bind_of_ok ((p.parent?_run hd).trans (by rw [hparent]))]
        cases fuel <;> rfl
    | @up p q d l hd hparent _ ih =>
      intro fuel hfuel
      rw [List.length_cons] at hfuel
      obtain ⟨fuel, rfl⟩ : ∃ i, fuel = i + 1 := ⟨fuel - 1, by omega⟩
      rw [PathId.climbWithin]
      refine (ha p (knows_of_data hd)).bind fun o ho => ?_
      cases o with
      | some a => exact pure ho
      | none =>
        obtain ⟨b, hb, hknown⟩ := ih fuel (by omega)
        refine ⟨b, ?_, hknown⟩
        show (p.parent? >>= _) s = _
        rw [bind_of_ok ((p.parent?_run hd).trans (by rw [hparent]))]
        exact hb
  exact hwithin _ hl.length_le

theorem find? {test : PathId → SessionM Bool} (ht : ∀ q, s.Knows q → s.Replies (test q)) :
    s.Replies (p.find? test) := by
  refine climb h hp fun q hq => (ht q hq).bind fun v _ => pure ?_
  cases v with
  | true => exact knows_some.mpr hq
  | false => exact knows_none

end WayUp

end Session.Replies

end Espalier
