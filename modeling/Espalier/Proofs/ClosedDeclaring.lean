import Espalier.Proofs.ClosedEditing
import Espalier.Scope.Declare

set_option autoImplicit false

/-! # Declarations within range

Declaring names in a known scope leaves a closed session (`Careful.pushDeclaration`). Two things are
needed on the way that are not questions of range. The path of an expression body is moved twice,
and may be moved as long as it has a position, which nothing in between takes away (`Mooring`).
Insertions give the paths of all that was inserted, so that the first of them is there when one node
was (`PathId.insertAt_length`). -/

namespace Espalier

open SessionM

variable {s : Session}

/-! ## Paths that keep a position -/

/-- The paths that are found again without a position have none. -/
def Session.Adrift (s : Session) : Prop := ∀ parent (p : PathId), s.detached.get? parent = some p →
  ∃ d, s.paths[p.index]? = some d ∧ d.container = .detached

theorem Session.Closed.adrift (h : s.Closed) : s.Adrift := fun parent p hp =>
  (h.paths.strays parent p hp).1

/-- The computation takes no path its position. -/
def Mooring {α : Type} (x : SessionM α) : Prop :=
  Leads (fun s s' => s.Adrift → s'.Adrift ∧ ∀ p, s.Placed p → s'.Placed p) x

namespace Mooring

variable {α β : Type}

theorem refl (s : Session) (h : s.Adrift) : s.Adrift ∧ ∀ p, s.Placed p → s.Placed p :=
  ⟨h, fun _ hp => hp⟩

theorem trans (s s₁ s₂ : Session) (h₁ : s.Adrift → s₁.Adrift ∧ ∀ p, s.Placed p → s₁.Placed p)
    (h₂ : s₁.Adrift → s₂.Adrift ∧ ∀ p, s₁.Placed p → s₂.Placed p) (h : s.Adrift) :
    s₂.Adrift ∧ ∀ p, s.Placed p → s₂.Placed p :=
  ⟨(h₂ (h₁ h).1).1, fun p hp => (h₂ (h₁ h).1).2 p ((h₁ h).2 p hp)⟩

theorem bind {x : SessionM α} {f : α → SessionM β} (hx : Mooring x) (hf : ∀ a, Mooring (f a)) :
    Mooring (x >>= f) := Leads.bind trans hx hf

theorem composed {Primitive : (α : Type) → SessionM α → Prop} {x : SessionM α}
    (hx : Composed Primitive x) (h : ∀ α (x : SessionM α), Primitive α x → Mooring x) : Mooring x :=
  hx.leads refl trans h

theorem question {x : SessionM α} (hx : Composed (fun _ _ => False) x) : Mooring x :=
  composed hx fun _ _ h => h.elim

/-- What leaves the paths alone. -/
theorem aside {x : SessionM α} (h : ∀ s, (after x s).paths = s.paths ∧
    (after x s).detached = s.detached) : Mooring x := by
  intro s hs
  obtain ⟨hpaths, hdetached⟩ := h s
  unfold Session.Adrift Session.Placed
  rw [hpaths, hdetached]
  exact ⟨hs, fun _ hp => hp⟩

theorem modifyData (p : PathId) {f : PathData → PathData}
    (hf : ∀ d, (f d).container = d.container) : Mooring (p.modifyData f) := by
  intro s hs
  cases hd : s.paths[p.index]? with
  | none =>
    have hrun : p.modifyData f s = .error .dangling s := bind_of_error (p.data_unknown hd)
    rw [after_of_error hrun]
    exact refl s hs
  | some d =>
    rw [after_of_ok (p.modifyData_run hd f)]
    have hread : ∀ {q : PathId} {e : PathData}, s.paths[q.index]? = some e →
        ∃ e', (s.paths.modify p.index f)[q.index]? = some e' ∧ e'.container = e.container := by
      intro q e he
      rw [getElem?_modify_paths, he]
      split
      · exact ⟨f e, rfl, hf e⟩
      · exact ⟨e, rfl, rfl⟩
    refine ⟨fun parent q hq => ?_, fun q hq => ?_⟩
    · obtain ⟨e, he, hc⟩ := hs parent q hq
      obtain ⟨e', he', hc'⟩ := hread he
      exact ⟨e', he', hc'.trans hc⟩
    · obtain ⟨e, he, hc⟩ := hq
      obtain ⟨e', he', hc'⟩ := hread he
      exact ⟨e', he', hc' ▸ hc⟩

theorem allocPath (d : PathData) : Mooring (allocPath d) := by
  intro s hs
  have hread : ∀ {q : PathId} {e : PathData}, s.paths[q.index]? = some e →
      (s.paths.push d)[q.index]? = some e := by
    intro q e he
    have hlt := (Array.getElem?_eq_some_iff.mp he).1
    rw [Array.getElem?_push, if_neg (by omega), he]
  exact ⟨fun parent q hq => let ⟨e, he, hc⟩ := hs parent q hq; ⟨e, hread he, hc⟩,
    fun q hq => let ⟨e, he, hc⟩ := hq; ⟨e, hread he, hc⟩⟩

theorem detachedAt (parent : Option PathId) (k : Key) : Mooring (detachedAt parent k) := by
  intro s hs
  cases hstray : s.detached.get? parent with
  | some p =>
    -- The path had no position before.
    obtain ⟨d, hd, hc⟩ := hs parent p hstray
    have hrun : Espalier.detachedAt parent k s = .ok p { s with
        paths := s.paths.modify p.index fun _ =>
          { node := none, parent, container := .detached, key := k } } := by
      unfold Espalier.detachedAt
      rw [run_get_bind, hstray]
      exact bind_of_ok (p.modifyData_run hd _)
    rw [after_of_ok hrun]
    refine ⟨fun parent' q hq => ?_, fun q ⟨e, he, hce⟩ => ?_⟩
    · obtain ⟨e, he, hce⟩ := hs parent' q hq
      show ∃ d, (s.paths.modify p.index _)[q.index]? = some d ∧ _
      rw [getElem?_modify_paths, he]
      split
      · exact ⟨_, rfl, rfl⟩
      · exact ⟨e, rfl, hce⟩
    · show ∃ d, (s.paths.modify p.index _)[q.index]? = some d ∧ _
      rw [getElem?_modify_paths, he]
      split
      · next hq =>
        subst hq
        exact absurd (Option.some.inj (hd.symm.trans he) ▸ hc) hce
      · exact ⟨e, rfl, hce⟩
  | none =>
    have hrun : Espalier.detachedAt parent k s = .ok ⟨s.paths.size⟩ { s with
        paths := s.paths.push { node := none, parent, container := .detached, key := k }
        detached := s.detached.insert parent ⟨s.paths.size⟩ } := by
      unfold Espalier.detachedAt
      rw [run_get_bind, hstray]
      rfl
    rw [after_of_ok hrun]
    have hread : ∀ {q : PathId} {e : PathData}, s.paths[q.index]? = some e →
        (s.paths.push { node := none, parent, container := .detached, key := k })[q.index]? =
          some e := by
      intro q e he
      have hlt := (Array.getElem?_eq_some_iff.mp he).1
      rw [Array.getElem?_push, if_neg (by omega), he]
    refine ⟨fun parent' q hq => ?_, fun q ⟨e, he, hce⟩ => ⟨e, hread he, hce⟩⟩
    have hq : (s.detached.insert parent ⟨s.paths.size⟩).get? parent' = some q := hq
    rw [Table.get?_insert] at hq
    split at hq
    · obtain rfl := Option.some.inj hq
      exact ⟨_, Array.getElem?_push_size, rfl⟩
    · obtain ⟨e, he, hce⟩ := hs parent' q hq
      exact ⟨e, hread he, hce⟩

theorem pathFor (parent : Option PathId) (c : Container) (k : Key) :
    Mooring (pathFor parent c k) := by
  unfold Espalier.pathFor
  split
  · exact detachedAt parent k
  · refine bind (question (.nodeAt c k)) fun node => bind (question .get) fun s => ?_
    split
    · exact bind (modifyData _ fun _ => rfl) fun _ => question (.pure _)
    · exact bind (allocPath _) fun p => bind (aside fun _ => ⟨rfl, rfl⟩) fun _ => question (.pure _)

theorem navigating {x : SessionM α} (hx : Navigating x) : Mooring x :=
  composed hx fun _ _ hop => composed hop.landing fun _ _ landing => by
    cases landing with
    | root => exact pathFor none .root .root
    | nowhere parent => exact pathFor parent .detached .root
    | slot p n f => exact pathFor (some p) (.slot n) (.field f)
    | item p n f i => exact pathFor (some p) (.list n f) (.index i)

theorem modifyKind (n : NodeId) (f : NodeKind → NodeKind) : Mooring (modifyKind n f) := aside fun s => by
  unfold Espalier.modifyKind
  cases hrun : (TreeM.modifyKind n f).run s.tree with
  | none => rw [after_of_error (onTree_dangling hrun)]; exact ⟨rfl, rfl⟩
  | some r => rw [after_of_ok (onTree_run hrun)]; exact ⟨rfl, rfl⟩

theorem setNode (p : PathId) (n : NodeId) : Mooring (p.setNode n) := by
  have hset : Mooring (p.modifyData fun d => { d with node := some n, inferred := none }) :=
    modifyData p fun _ => rfl
  have hrefused : ∀ cause : Refusal, Mooring (do
      let _ : PUnit ← SessionM.refuse cause
      p.modifyData fun d => { d with node := some n, inferred := none }) :=
    fun cause => bind (question (.throw _)) fun _ => hset
  refine bind (question (.data p)) fun d => ?_
  split
  · exact bind (aside fun _ => ⟨rfl, rfl⟩) fun _ => hset
  · refine bind (question (.ask _)) fun kind => ?_
    split
    · exact hrefused _
    · exact bind (modifyKind _ _) fun _ => hset
    · exact hrefused _
  · refine bind (question (.ask _)) fun kind => ?_
    split
    · split
      · exact bind (modifyKind _ _) fun _ => hset
      · exact hrefused _
    · exact hrefused _
  · exact hrefused _

/-- A path that has a position keeps it. -/
theorem placed {x : SessionM α} (hx : Mooring x) {s' : Session} {a : α} {p : PathId}
    (hrun : x s = .ok a s') (hs : s.Adrift) (hp : s.Placed p) : s'.Adrift ∧ s'.Placed p := by
  have h := hx s hs
  rw [after_of_ok hrun] at h
  exact ⟨h.1, h.2 p hp⟩

end Mooring

/-! ## Declaring names -/

theorem mapM_length {α β : Type} {f : α → SessionM β} {l : List α} {bs : List β} {s' : Session}
    (hrun : l.mapM f s = .ok bs s') : bs.length = l.length := by
  induction l generalizing s bs s' with
  | nil =>
    obtain ⟨rfl, -⟩ := EStateM.Result.ok.inj hrun
    rfl
  | cons a l ih =>
    rw [List.mapM_cons] at hrun
    obtain ⟨b, s₁, -, hrun⟩ := bind_eq_ok hrun
    obtain ⟨bs', s₂, htail, hrun⟩ := bind_eq_ok hrun
    rw [← (EStateM.Result.ok.inj hrun).1, List.length_cons, List.length_cons, ih htail]

namespace PathId

variable {p : PathId} {f : Field} {nodes : List NodeId} {paths : List PathId} {s' : Session}

/-- An insertion gives one path for each node. -/
theorem insertAt_length {i : Nat} (hrun : p.insertAt f i nodes s = .ok paths s') :
    paths.length = nodes.length := by
  obtain ⟨o, s₁, -, hrun⟩ := bind_eq_ok hrun
  cases o with
  | none => cases hrun
  | some owner =>
    -- What follows the check gives the paths.
    have hrest : ∀ s₁, (do
        Espalier.shiftKeys (.list owner f) i nodes.length
        let paths ← (List.range nodes.length).mapM fun j => p.element f (i + j)
        SessionM.recordMutation
        if ← scopesCrawled then
          paths.forM fun q => do
            if ← q.isAny NodeType.isDeclaration then q.registerDeclaration
        Pure.pure paths) s₁ = .ok paths s' → paths.length = nodes.length := by
      intro s₁ hrun
      obtain ⟨_, s₂, -, hrun⟩ := bind_eq_ok hrun
      obtain ⟨ps, s₃, hps, hrun⟩ := bind_eq_ok hrun
      obtain ⟨_, s₄, -, hrun⟩ := bind_eq_ok hrun
      obtain ⟨crawled, s₅, -, hrun⟩ := bind_eq_ok hrun
      have hlength : ps.length = nodes.length := by rw [mapM_length hps, List.length_range]
      cases crawled with
      | true =>
        obtain ⟨_, s₆, -, hrun⟩ := bind_eq_ok hrun
        rw [← (EStateM.Result.ok.inj hrun).1, hlength]
      | false => rw [← (EStateM.Result.ok.inj hrun).1, hlength]
    obtain ⟨kind, s₂, -, hrun⟩ := bind_eq_ok hrun
    split at hrun
    · split at hrun
      · cases hrun
      · obtain ⟨_, s₃, -, hrun⟩ := bind_eq_ok hrun
        exact hrest s₃ hrun
    · cases hrun
    · cases hrun

theorem unshiftInto_length (hrun : p.unshiftInto f nodes s = .ok paths s') :
    paths.length = nodes.length := by
  obtain ⟨removed, s₁, -, hrun⟩ := bind_eq_ok hrun
  split at hrun
  · cases hrun
  · exact insertAt_length hrun

theorem pushInto_length (hrun : p.pushInto f nodes s = .ok paths s') :
    paths.length = nodes.length := by
  obtain ⟨removed, s₁, -, hrun⟩ := bind_eq_ok hrun
  split at hrun
  · cases hrun
  · obtain ⟨o, s₂, -, hrun⟩ := bind_eq_ok hrun
    cases o with
    | none => cases hrun
    | some n =>
      obtain ⟨_, s₃, -, hrun⟩ := bind_eq_ok hrun
      exact insertAt_length hrun

end PathId

namespace Careful

theorem ensureBlock {function : PathId} (hf : s.Knows function) :
    Careful (ensureBlock function) s := by
  refine (child hf .body).bind fun body s₁ h₁ hbody => of_closed fun hs₁ => ?_
  obtain ⟨d, hd⟩ := Session.exists_data hbody
  have hnode : body.node? s₁ = .ok d.node s₁ := body.node?_run hd
  refine (Reads.node? hbody).careful.bind_run fun o s' hrun _ ho => ?_
  obtain ⟨rfl, rfl⟩ := EStateM.Result.ok.inj (hnode.symm.trans hrun)
  split
  · exact refuse _
  · next e he =>
    -- A path that holds a node has a position, and keeps it until it moves again.
    have hplaced : s₁.Placed body := ⟨d, hd, fun hc => by
      rw [(hs₁.paths.sinks body d hd hc).1] at he
      cases he⟩
    have hknown := ho e he
    refine (Reads.type hknown).andThen fun _ _ => ite (fun _ => pure trivial) fun _ => ?_
    refine (alloc (k := .returnStatement (some e)) ?_).bind_run fun ret s₂ hret h₂ hretk => ?_
    · intro c hc
      have hc : c = e := by simpa [NodeKind.children, NodeKind.fields, Child.ids] using hc
      exact hc ▸ hknown
    have hplaced₂ : s₂.Placed body := by
      rw [onTree_run (show (TreeM.alloc _).run s₁.tree = some _ from rfl)] at hret
      rw [← (EStateM.Result.ok.inj hret).2]
      exact hplaced
    refine (block (Session.knows_cons.mpr ⟨hretk, Session.knows_nil⟩)).bind_run
      fun b s₃ hb h₃ hbk => ?_
    have hplaced₃ : s₃.Placed body := by
      rw [onTree_run (show (TreeM.block _).run s₂.tree = some _ from rfl)] at hb
      rw [← (EStateM.Result.ok.inj hb).2]
      exact hplaced₂
    have hbody₃ := (h₂.trans h₃).knows hbody
    have hslot : ∀ s', s₃.Extends s' → s'.Knows (Container.slot ret) := fun s' h =>
      Session.knows_some.mpr ((h₃.trans h).knows hretk)
    refine (moveTo hplaced₃ Session.knows_none (hslot s₃ (.refl s₃)) (by simp) _).bind_run
      fun _ s₄ hmove h₄ _ => of_closed fun hs₄ => ?_
    have hplaced₄ : s₄.Placed body := placed_moveTo hbody₃ (Container.noConfusion) hmove
    have h₁₄ := (h₂.trans h₃).trans h₄
    refine (child (h₁₄.knows (h₁.knows hf)) .body).bind_run fun bp s₅ hbp h₅ hbpk => ?_
    obtain ⟨hadrift₅, hplaced₅⟩ := (Mooring.navigating (.child function .body)).placed hbp hs₄.adrift hplaced₄
    refine (setNode hbpk ((h₄.trans h₅).knows hbk)).bind_run fun _ s₆ hset h₆ _ => ?_
    obtain ⟨hadrift₆, hplaced₆⟩ := (Mooring.setNode bp b).placed hset hadrift₅ hplaced₅
    refine (element (h₆.knows hbpk) .body 0).bind_run fun rp s₇ hrp h₇ hrpk => ?_
    obtain ⟨-, hplaced₇⟩ := (Mooring.navigating (.element bp .body 0)).placed hrp hadrift₆ hplaced₆
    exact moveTo hplaced₇ (Session.knows_some.mpr hrpk)
      (hslot s₇ (h₄.trans (h₅.trans (h₆.trans h₇)))) (by simp) _

theorem declarationHost {block : PathId} (hb : s.Knows block) :
    Careful (declarationHost block) s :=
  (Reads.is hb _).andThen fun _ _ => ite (fun _ => pure hb) fun _ =>
    (ensureBlock hb).bind fun _ _ h₁ _ => child (h₁.knows hb) .body

/-- Of one node that was inserted the path is there. -/
theorem foundHead {paths : List PathId} (hpaths : s.Knows paths) (hone : paths.length = 1) :
    Reads (found paths.head?) s := by
  cases paths with
  | nil => cases hone
  | cons p rest => exact .pure (Session.knows_cons.mp hpaths).1

theorem sharedDeclaration {host : PathId} (hh : s.Knows host) {body : NodeId} (hb : s.Knows body) :
    Careful (sharedDeclaration host body) s := by
  refine (Reads.kind hb).andThen fun k _ => get_bind fun _ => ?_
  dsimp only
  split
  · exact element hh .body _
  · refine (alloc (k := .variableDeclaration .var []) ?_).bind fun declaration s₁ h₁ hd => ?_
    · intro c hc
      simp [NodeKind.children, NodeKind.fields, Child.ids] at hc
    have hone : s₁.Knows [declaration] := Session.knows_cons.mpr ⟨hd, Session.knows_nil⟩
    refine (unshiftInto (h₁.knows hh) .body hone).bind_run fun paths s₂ hrun h₂ hpaths => ?_
    refine bind (f := fun _ => found paths.head?) (fun hs => ?_) fun _ s₃ h₃ _ =>
      (foundHead (h₃.knows hpaths) (PathId.unshiftInto_length hrun)).careful
    have hext : s₂.Extends { s₂ with
        scopes := { s₂.scopes with generated := s₂.scopes.generated.insert body declaration } } :=
      ⟨Nat.le_refl _, Nat.le_refl _, Nat.le_refl _⟩
    exact ⟨hext, hs.of_scopes hext
      ⟨fun i sc hsc => hs.scopes.scopes i sc hsc, fun n i hi => hs.scopes.byBlock n i hi,
        hs.scopes.root⟩, trivial⟩

section Scope

variable {i : ScopeId} (hi : s.Knows i)

include hi

theorem pushDeclaration (name : String) {init : Option NodeId} (hinit : s.Knows init) :
    Careful (i.pushDeclaration name init) s := by
  refine (Reads.functionScope hi).andThen fun target htarget => (Reads.scopeData htarget).andThen
    fun sc hsc => (declarationHost hsc.1).bind fun host s₁ h₁ hhost => ?_
  refine (Reads.node? hhost).andThen fun o ho => ?_
  split
  · exact refuse _
  · next body =>
    refine (sharedDeclaration hhost (Session.knows_some.mp ho)).bind fun declaration s₂ h₂ hd => ?_
    refine (identifier name).bind fun id s₃ h₃ hid => ?_
    refine (alloc (k := .variableDeclarator id init) ?_).bind fun declarator s₄ h₄ hdeclarator => ?_
    · intro c hc
      have hc : c = id ∨ init = some c := by
        simpa [NodeKind.children, NodeKind.fields, Child.ids] using hc
      rcases hc with rfl | hc
      · exact hid
      · exact (h₁.trans (h₂.trans h₃)).knows (hinit c hc)
    have hone : s₄.Knows [declarator] := Session.knows_cons.mpr ⟨hdeclarator, Session.knows_nil⟩
    refine (pushInto ((h₃.trans h₄).knows hd) .declarations hone).bind_run fun paths s₅ hrun h₅ hpaths => ?_
    refine (foundHead hpaths (PathId.pushInto_length hrun)).andThen fun path hpath => ?_
    refine (registerBinding ((h₁.trans (h₂.trans (h₃.trans (h₄.trans h₅)))).knows htarget) name .var hpath
      ((h₄.trans h₅).knows hid)).bind fun _ s₆ h₆ _ => pure (h₆.knows hpath)

theorem generateDeclaredUid (text : String) : Careful (i.generateDeclaredUid text) s :=
  (generateUid hi text).bind fun _ _ h₁ _ => (pushDeclaration (h₁.knows hi) _ Session.knows_none).bind
    fun _ _ _ _ => pure trivial

end Scope

end Careful

end Espalier
