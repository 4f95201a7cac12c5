import Espalier.Proofs.ListEdits
import Espalier.Proofs.Roaming
import Espalier.Proofs.Scoping

set_option autoImplicit false

/-! # Handles through many edits

A client opens a session, goes to a program or a block, and then edits the list of its statements
through the paths of the elements and through the path of the program or block, with any navigation
in between. A `Ledger` says what the client knows: the list as it should be, and the paths it was
given for nodes. After every step the session agrees with the ledger (`edits_followed`). -/

namespace Espalier

open SessionM Session

/-! ## Steps -/

/-- An edit that is made through the path of an element. -/
inductive ElementEdit where
  | insertBefore (nodes : List NodeId)
  | insertAfter (nodes : List NodeId)
  | replaceMany (nodes : List NodeId)
  | replace (node : NodeId)
  | remove

namespace ElementEdit

/-- The nodes that come into the list. -/
def nodes : ElementEdit → List NodeId
  | .insertBefore nodes | .insertAfter nodes | .replaceMany nodes => nodes
  | .replace node => [node]
  | .remove => []

/-- What the edit makes of a list with the element `n`. -/
def apply (n : NodeId) (ids : List NodeId) : ElementEdit → List NodeId
  | .insertBefore nodes => substitute n (nodes ++ [n]) ids
  | .insertAfter nodes => substitute n (n :: nodes) ids
  | .replaceMany nodes => substitute n nodes ids
  | .replace node => substitute n [node] ids
  | .remove => substitute n [] ids

/-- The call that makes the edit, and the paths that it gives. -/
def run (p : PathId) : ElementEdit → SessionM (List PathId)
  | .insertBefore nodes => p.insertBefore nodes
  | .insertAfter nodes => p.insertAfter nodes
  | .replaceMany nodes => p.replaceWithMultiple nodes
  | .replace node => do
    p.replaceWith (.node node)
    pure [p]
  | .remove => do
    p.remove
    pure []

/-- Can the edit be made at the element `n`? Nothing is replaced by no nodes at all, and only what
is neither an expression nor a program is replaced by a statement as it is. -/
def Applies (e : ElementEdit) (t : Tree) (n : NodeId) : Prop :=
  match e with
  | .replaceMany nodes => nodes ≠ []
  | .replace node => ∃ old new, t.type? n = some old ∧ t.type? node = some new ∧
      old.isExpression = false ∧ old ≠ .program ∧ new.isStatement = true
  | _ => True

/-- Can the edit be made at the element `n` of any list, so that it changes this list and nothing
else? A declaration that is exported has its neighbours outside the export, and some lists do not
spare an element. -/
def Fits (e : ElementEdit) (t : Tree) (owner n : NodeId) (ids : List NodeId) : Prop :=
  match e with
  | .insertBefore _ | .insertAfter _ => t.type? owner ≠ some .exportNamedDeclaration
  | .replaceMany nodes => nodes ≠ []
  | .replace node => ∃ old new, t.kind? n = some old ∧ t.kind? node = some new ∧
      old.type.Suits new.type
  | .remove => ∃ k, t.kind? owner = some k ∧ k.type.Spares ids

end ElementEdit

/-- A step of a client: a navigation, an edit through the path of an element, or an edit through the
path of the program or block. -/
inductive Step where
  | move (m : Move)
  | edit (p : PathId) (e : ElementEdit)
  | push (nodes : List NodeId)
  | unshift (nodes : List NodeId)

/-- What a client knows: the list as it should be, the nodes that are or were in the tree, and which
paths it was given for which nodes. -/
structure Ledger where
  ids : List NodeId
  used : Set NodeId
  handles : PathId → NodeId → Prop

/-- The ledger after a call that gave some paths. -/
def Ledger.note (v : Ledger) (s : Session) (ps : List PathId) : Ledger :=
  { v with handles := fun p n => v.handles p n ∨ (p ∈ ps ∧ s.Holds p n) }

/-- The ledger after nodes came into the list. -/
def Ledger.edited (v : Ledger) (t : Tree) (nodes ids : List NodeId) : Ledger :=
  { v with ids, used := v.used ∪ t.below nodes }

namespace Session

/-- The session agrees with the ledger. The list in the tree is the list of the ledger; a path that
was given for a node which is still in the list is not removed, and its key is the index of the
node; different elements have different paths; and going to an index again gives the path that was
given before. -/
structure Agrees (s : Session) (host : PathId) (owner : NodeId) (v : Ledger) : Prop where
  list : s.tree.list? owner .body = some v.ids
  live : ∀ (p : PathId) n, v.handles p n → n ∈ v.ids → ∃ d i, s.paths[p.index]? = some d ∧
    d.removed = false ∧ d.node = some n ∧ d.key = .index i ∧ v.ids[i]? = some n
  distinct : ∀ p q n m, v.handles p n → v.handles q m → n ∈ v.ids → m ∈ v.ids → (p = q ↔ n = m)
  again : ∀ (i : Nat) n, v.ids[i]? = some n → Returns (host.element .body i) s fun q s' =>
    s'.Holds q n ∧ ∀ p, v.handles p n → p = q

/-- The session agrees with the ledger now and after every further step: a navigation may fail, and
an edit of nodes that were never in the tree succeeds. -/
def Follows (host : PathId) (owner : NodeId) : List Step → Session → Ledger → Prop
  | [], s, v => s.Agrees host owner v
  | .move m :: steps, s, v => s.Agrees host owner v ∧
    match m.run s with
    | .ok ps s' => Follows host owner steps s' (v.note s' ps)
    | .error _ s' => Follows host owner steps s' v
  | .edit p e :: steps, s, v => s.Agrees host owner v ∧
    ∀ n, v.handles p n → n ∈ v.ids → s.tree.Loose v.used e.nodes → e.Applies s.tree n →
      Returns (e.run p) s fun ps s' => List.Forall₂ s'.Holds ps e.nodes ∧
        Follows host owner steps s' ((v.edited s.tree e.nodes (e.apply n v.ids)).note s' ps)
  | .push nodes :: steps, s, v => s.Agrees host owner v ∧ (s.tree.Loose v.used nodes →
      Returns (host.pushInto .body nodes) s fun ps s' => List.Forall₂ s'.Holds ps nodes ∧
        Follows host owner steps s' ((v.edited s.tree nodes (v.ids ++ nodes)).note s' ps))
  | .unshift nodes :: steps, s, v => s.Agrees host owner v ∧ (s.tree.Loose v.used nodes →
      Returns (host.unshiftInto .body nodes) s fun ps s' => List.Forall₂ s'.Holds ps nodes ∧
        Follows host owner steps s' ((v.edited s.tree nodes (nodes ++ v.ids)).note s' ps))

/-! ## What every step keeps -/

/-- The invariant of the steps: the path holds the program or block with the list of the ledger, and
a path that was given for a node holds it as long as the node is in the list. -/
structure Tracks (s : Session) (host : PathId) (owner : NodeId) (v : Ledger) : Prop where
  hosts : s.Hosts v.used host owner .body v.ids
  type : ∃ k, s.tree.kind? owner = some k ∧ (k.type = .program ∨ k.type = .blockStatement)
  used : ∀ p n, v.handles p n → n ∈ v.used
  holds : ∀ p n, v.handles p n → n ∈ v.ids → s.Holds p n

section Tracks

variable {s s' : Session} {host : PathId} {owner : NodeId} {v : Ledger}

/-- The invariant is as much as the client is told. -/
theorem Tracks.agrees (h : s.Tracks host owner v) : s.Agrees host owner v where
  list := h.hosts.list
  live p n hp hn := by
    obtain ⟨i, d, hst⟩ := h.hosts.stands (h.holds p n hp hn) hn
    exact ⟨d, i, hst.files.data, hst.files.live, hst.node, hst.files.key, hst.index⟩
  distinct p q n m hp hq hn hm := by
    have hpn := h.holds p n hp hn
    have hqm := h.holds q m hq hm
    constructor
    · rintro rfl
      exact hpn.unique_node hqm
    · rintro rfl
      exact h.hosts.orderly.sound.holder_unique hpn hqm
  again i n hi := by
    obtain ⟨k, hk, hc⟩ := h.hosts.child
    have hfield : s.tree.field? owner .body = some (.many v.ids) := by simp [Tree.field?, hk, hc]
    refine (PathId.element_returns h.hosts.orderly.sound h.hosts.holds hfield i).mono
      fun q s₁ hq => ?_
    obtain ⟨d, hf, -⟩ := hq.files
    have hholds : s₁.Holds q n := by
      refine hf.holds ?_
      rw [hq.tree]
      simp [Tree.occupant?, h.hosts.list, hi]
    refine ⟨hholds, fun p hp => ?_⟩
    have hpn := h.holds p n hp (List.mem_of_getElem? hi)
    exact hq.sound.holder_unique (hq.grew.holds h.hosts.orderly.sound hpn) hholds

/-- A path that was just given holds what it was given for. -/
theorem Tracks.note (h : s.Tracks host owner v) (ps : List PathId) :
    s.Tracks host owner (v.note s ps) where
  hosts := h.hosts
  type := h.type
  used p n hp := by
    rcases hp with hp | ⟨-, hp⟩
    · exact h.used p n hp
    · exact h.hosts.orderly.sound.mem_of_holds hp
  holds p n hp hn := by
    rcases hp with hp | ⟨-, hp⟩
    · exact h.holds p n hp hn
    · exact hp

theorem Tracks.went (h : s.Tracks host owner v) (hw : s.Went v.used s') :
    s'.Tracks host owner v where
  hosts := h.hosts.surveys (hw.surveys h.hosts.orderly.ordered)
  type := by rw [hw.tree]; exact h.type
  used := h.used
  holds p n hp hn := hw.grew.holds h.hosts.orderly.sound (h.holds p n hp hn)

theorem Tracks.edited (h : s.Tracks host owner v) {nodes ids : List NodeId}
    (hloose : s.tree.Loose v.used nodes)
    (he : s.Edited (v.used ∪ s.tree.below nodes) owner .body v.ids ids s')
    (hsub : ∀ n ∈ ids, n ∈ v.ids ∨ n ∈ nodes) :
    s'.Tracks host owner (v.edited s.tree nodes ids) where
  hosts := h.hosts.edited he
  type := by
    obtain ⟨k, hk, htype⟩ := h.type
    have hsame := he.type owner
    rw [hk] at hsame
    obtain ⟨k', hk', hkt⟩ := Option.map_eq_some_iff.mp hsame
    exact ⟨k', hk', by rwa [hkt]⟩
  used p n hp := .inl (h.used p n hp)
  holds p n hp hn := by
    -- A node that was in the tree before is not one of the new ones.
    have hold : n ∈ v.ids := (hsub n hn).resolve_right fun hnew =>
      hloose.not_mem hnew (h.used p n hp)
    exact he.keeps p n (h.holds p n hp hold) fun _ => hn

/-- A block does not export, and it stays when it loses an element. -/
theorem Tracks.plain (h : s.Tracks host owner v) :
    s.tree.type? owner ≠ some .exportNamedDeclaration ∧
      ∃ k, s.tree.kind? owner = some k ∧ k.type.Spares v.ids := by
  obtain ⟨k, hk, htype⟩ := h.type
  rw [Tree.type?_of_kind hk]
  constructor
  · rcases htype with htype | htype <;> simp [htype]
  · refine ⟨k, hk, ?_⟩
    rcases htype with htype | htype <;> simp [NodeType.Spares, htype]

end Tracks

end Session

/-! ## One edit -/

section Edits

variable {s : Session} {host p : PathId} {owner n : NodeId} {v : Ledger}

/-- An edit brings nothing into the list but its own nodes. -/
theorem ElementEdit.mem_apply (e : ElementEdit) {ids : List NodeId} (hn : n ∈ ids) {m : NodeId}
    (hm : m ∈ e.apply n ids) : m ∈ ids ∨ m ∈ e.nodes := by
  have hsub : ∀ new, m ∈ substitute n new ids → m ∈ ids ∨ m ∈ new := by
    intro new hmem
    obtain ⟨a, ha, hin⟩ := List.mem_flatMap.mp hmem
    split at hin
    · exact .inr hin
    · exact .inl (List.mem_singleton.mp hin ▸ ha)
  cases e with
  | insertBefore nodes =>
    rcases hsub _ hm with h | h
    · exact .inl h
    · rcases List.mem_append.mp h with h | h
      · exact .inr h
      · exact .inl (List.mem_singleton.mp h ▸ hn)
  | insertAfter nodes =>
    rcases hsub _ hm with h | h
    · exact .inl h
    · rcases List.mem_cons.mp h with rfl | h
      · exact .inl hn
      · exact .inr h
  | replaceMany nodes => exact hsub _ hm
  | replace node => exact hsub _ hm
  | remove => exact hsub _ hm

/-- A statement takes the place of what is neither an expression nor a program. -/
theorem NodeType.suits_statement {old new : NodeType} (hold : old.isExpression = false)
    (hprogram : old ≠ .program) (hnew : new.isStatement = true) : old.Suits new := by
  have hnot : new.isExpression = false := by
    cases new <;> simp_all [NodeType.isStatement, NodeType.isExpression]
  exact ⟨fun h => absurd h hprogram, by simp [hold], by simp [hnot]⟩

/-- An edit through the path of an element succeeds and changes the list as it should. -/
theorem ElementEdit.run_edited {K : Set NodeId} {f : Field} {ids : List NodeId} (e : ElementEdit)
    (h : s.Hosts K host owner f ids) (hp : s.Holds p n) (hn : n ∈ ids)
    (hloose : s.tree.Loose K e.nodes) (hfits : e.Fits s.tree owner n ids) :
    Returns (e.run p) s fun ps s' =>
      s.Edited (K ∪ s.tree.below e.nodes) owner f ids (e.apply n ids) s' ∧
        List.Forall₂ s'.Holds ps e.nodes := by
  cases e with
  | insertBefore nodes => exact PathId.insertBeside_returns h hp hn hfits hloose false
  | insertAfter nodes => exact PathId.insertBeside_returns h hp hn hfits hloose true
  | replaceMany nodes => exact PathId.replaceWithMultiple_returns h hp hn hloose hfits
  | replace node =>
    obtain ⟨old, new, hold, hnew, hsuits⟩ := hfits
    exact (PathId.replaceWith_returns h hp hn hloose hold hnew hsuits).bind
      fun _ _ h' => .pure ⟨h'.1, .cons h'.2 .nil⟩
  | remove =>
    obtain ⟨k, hk, hspares⟩ := hfits
    -- Nothing comes into the tree.
    show Returns _ s fun ps s' =>
      s.Edited (K ∪ s.tree.below []) owner f ids _ s' ∧ List.Forall₂ s'.Holds ps []
    rw [Tree.below_nil, Set.union_empty]
    exact (PathId.remove_returns h hp hn hk hspares).bind fun _ _ h' => .pure ⟨h', .nil⟩

/-- In a program or a block the edits fit that can be made at the element. -/
theorem ElementEdit.Applies.fits {e : ElementEdit} (happlies : e.Applies s.tree n)
    (h : s.Tracks host owner v) : e.Fits s.tree owner n v.ids := by
  obtain ⟨hinner, hspares⟩ := h.plain
  cases e with
  | insertBefore nodes => exact hinner
  | insertAfter nodes => exact hinner
  | replaceMany nodes => exact happlies
  | replace node =>
    obtain ⟨old, new, hold, hnew, hexpression, hprogram, hstatement⟩ := happlies
    obtain ⟨kold, hkold, rfl⟩ := Tree.kind_of_type? hold
    obtain ⟨knew, hknew, rfl⟩ := Tree.kind_of_type? hnew
    exact ⟨kold, knew, hkold, hknew, NodeType.suits_statement hexpression hprogram hstatement⟩
  | remove => exact hspares

end Edits

/-! ## Every run -/

namespace Session

variable {s : Session} {host : PathId} {owner : NodeId} {v : Ledger}

/-- The invariant holds after every step, whatever the steps are. -/
theorem Tracks.follows (h : s.Tracks host owner v) (steps : List Step) :
    Follows host owner steps s v := by
  induction steps generalizing s v with
  | nil => exact h.agrees
  | cons step steps ih =>
    -- What an edit leaves is tracked with the paths that it gave.
    have hedit : ∀ {nodes ids : List NodeId} (x : SessionM (List PathId)),
        s.tree.Loose v.used nodes → (∀ m ∈ ids, m ∈ v.ids ∨ m ∈ nodes) →
        (Returns x s fun ps s' => s.Edited (v.used ∪ s.tree.below nodes) owner .body v.ids ids s' ∧
          List.Forall₂ s'.Holds ps nodes) →
        Returns x s fun ps s' => List.Forall₂ s'.Holds ps nodes ∧
          Follows host owner steps s' ((v.edited s.tree nodes ids).note s' ps) := by
      intro nodes ids x hloose hsub hx
      exact hx.mono fun ps s' he => ⟨he.2, ih ((h.edited hloose he.1 hsub).note ps)⟩
    cases step with
    | move m =>
      refine ⟨h.agrees, ?_⟩
      have hroams : s.Went v.used (after m.run s) := m.roaming s v.used h.hosts.orderly.sound
      cases hm : m.run s with
      | ok ps s' =>
        rw [after_of_ok hm] at hroams
        exact ih ((h.went hroams).note ps)
      | error e s' =>
        rw [after_of_error hm] at hroams
        exact ih (h.went hroams)
    | edit p e =>
      refine ⟨h.agrees, fun n hp hn hloose happlies => ?_⟩
      exact hedit _ hloose (fun m hm => e.mem_apply hn hm)
        (e.run_edited h.hosts (h.holds p n hp hn) hn hloose (happlies.fits h))
    | push nodes =>
      refine ⟨h.agrees, fun hloose => hedit _ hloose (fun m hm => List.mem_append.mp hm) ?_⟩
      exact PathId.pushInto_returns h.hosts hloose
    | unshift nodes =>
      refine ⟨h.agrees, fun hloose => hedit _ hloose
        (fun m hm => (List.mem_append.mp hm).symm) ?_⟩
      exact PathId.unshiftInto_returns h.hosts hloose

/-- The session after some navigation, whether or not it succeeded. -/
def roam (s : Session) (moves : List Move) : Session :=
  moves.foldl (fun s m => after m.run s) s

theorem roam_went {K : Set NodeId} (hs : s.Sound K) (moves : List Move) :
    s.Went K (s.roam moves) := by
  induction moves generalizing s with
  | nil => exact .refl hs
  | cons m moves ih =>
    have hstep : s.Went K (after m.run s) := m.roaming s K hs
    exact hstep.trans (ih hstep.sound)

end Session

/-- A table without scopes is in order. -/
theorem ScopeTable.ordered_empty (crawled : Bool) : ({ crawled } : ScopeTable).Ordered := by
  refine ⟨fun i sc j hsc => ?_, fun n i hi => ?_, fun i hi => ?_⟩
  · simp at hsc
  · simp at hi
  · simp at hi

/-- Building the scopes of an orderly session that has none changes nothing else. -/
theorem ensureScopes_surveys {s : Session} {K : Set NodeId} (h : s.Orderly K)
    (hscopes : s.scopes = {}) :
    Returns ensureScopes s fun _ s' => s'.tree = s.tree ∧ s'.Orderly K := by
  obtain ⟨r, hr, -⟩ := h.program.root
  let s₀ : Session := { s with scopes := { crawled := true } }
  have ha : s.Alike s₀ := ⟨.refl _, rfl, rfl, fun _ => rfl⟩
  have h₀ : s₀.Orderly K := h.alike ha rfl (ScopeTable.ordered_empty true)
  suffices hcrawl : Returns (do
      let root ← rootPath
      if (← root.node?).isSome then
        let _ ← crawlScope root none) s₀ fun _ s' => s₀.Surveys K s' by
    have hnot : scopesCrawled s = .ok false s := by
      show EStateM.Result.ok s.scopes.crawled s = _
      rw [hscopes]
    unfold ensureScopes
    refine returns_bind_of_ok hnot ?_
    rw [if_neg Bool.false_ne_true, Returns, run_modify_bind, hscopes]
    exact hcrawl.mono fun _ s' hs => ⟨hs.tree, h₀.surveys hs⟩
  refine (pathFor_returns .root h₀.sound (fun p hp => by simp at hp) rfl).bind fun p s₁ hp => ?_
  obtain ⟨d, hf, -⟩ := hp.files
  have hpr : s₁.Holds p r := hf.holds (by rw [hp.tree]; exact hr)
  have h₁ := hp.toWent.surveys h₀.ordered
  refine returns_bind_of_ok (PathId.node?_run_of_holds hpr) ?_
  rw [Option.isSome_some, if_pos rfl]
  refine (crawlScope_settles (G := False) h₁.sound h₁.ordered hpr none (by simp)
    False.elim False.elim False.elim False.elim).bind fun i s₃ h₃ => .pure ?_
  obtain ⟨-, u, s₂, h₂, hset⟩ := h₃
  exact (h₁.trans h₂.toSurveys).trans (hset.surveys h₂.sound h₂.ordered)

theorem fresh_orderly {t : Tree} (h : t.IsProgram) (config : Config) :
    Orderly { tree := t, config } t.reachable :=
  ⟨sound_fresh h.forest config _, ScopeTable.ordered_empty false, h⟩

/-- Building the scopes of a fresh session keeps it in order. -/
theorem ensureScopes_orderly {t : Tree} (h : t.IsProgram) (config : Config) :
    Returns ensureScopes { tree := t, config } fun _ s => s.tree = t ∧ s.Orderly t.reachable :=
  ensureScopes_surveys (fresh_orderly h config) rfl

theorem open?_of_ensureScopes {t : Tree} {config : Config} {s : Session}
    (hlazy : config.lazyScopes = false) (h : ensureScopes { tree := t, config } = .ok () s) :
    Session.open? t config = .ok s := by
  unfold Session.open?
  simp only [hlazy, Bool.false_eq_true, if_false, EStateM.run, h]

/-- A program can be opened, and the session is in order whether its scopes are built at once or on
demand. -/
theorem open?_orderly {t : Tree} (h : t.IsProgram) (config : Config) :
    ∃ s, Session.open? t config = .ok s ∧ s.tree = t ∧ s.Orderly t.reachable := by
  cases hlazy : config.lazyScopes with
  | true =>
    refine ⟨{ tree := t, config }, ?_, rfl, fresh_orderly h config⟩
    unfold Session.open?
    rw [if_pos hlazy]
  | false =>
    obtain ⟨_, s, hrun, hs⟩ := ensureScopes_orderly h config
    exact ⟨s, open?_of_ensureScopes hlazy hrun, hs⟩

/-- However a client edits the statements of a program or a block it has gone to, and wherever it
goes in between, the list in the tree is what the edits make of it, and the paths that the client
was given follow their nodes. -/
theorem edits_followed {t : Tree} (h : t.IsProgram) (config : Config) :
    ∃ s₀, Session.open? t config = .ok s₀ ∧ ∀ (moves : List Move) (host : PathId) (owner : NodeId)
      (ids : List NodeId), (s₀.roam moves).Holds host owner →
        t.type? owner = some .program ∨ t.type? owner = some .blockStatement →
        t.list? owner .body = some ids → ∀ steps, Follows host owner steps (s₀.roam moves)
          ⟨ids, t.reachable, (s₀.roam moves).Holds⟩ := by
  obtain ⟨s₀, hopen, rfl, horderly⟩ := open?_orderly h config
  refine ⟨s₀, hopen, fun moves host owner ids hholds htype hlist steps => ?_⟩
  have hwent := roam_went horderly.sound moves
  have horderly' := horderly.surveys (hwent.surveys horderly.ordered)
  have hreach : s₀.tree.Reachable owner := horderly'.sound.mem_of_holds hholds
  refine Tracks.follows ⟨⟨horderly', hholds, ?_, ?_⟩, ?_, ?_, fun _ _ hp _ => hp⟩ steps
  · rw [hwent.tree]
    exact hreach
  · rw [hwent.tree]
    exact hlist
  · rw [hwent.tree]
    rcases htype with htype | htype
    · obtain ⟨k, hk, hkt⟩ := Tree.kind_of_type? htype
      exact ⟨k, hk, .inl hkt⟩
    · obtain ⟨k, hk, hkt⟩ := Tree.kind_of_type? htype
      exact ⟨k, hk, .inr hkt⟩
  · exact fun _ _ hp => horderly'.sound.mem_of_holds hp

/-! ## An example -/

section Leaf

variable {t : Tree} {n : NodeId} {k : NodeKind} (hk : t.kind? n = some k) (hleaf : k.children = [])

include hk hleaf

theorem Tree.not_isChild_leaf (m : NodeId) : ¬ t.IsChild n m := by
  intro hm
  obtain ⟨k', hk', hmem⟩ := (t.isChild_iff n m).mp hm
  obtain rfl := Option.some.inj (hk.symm.trans hk')
  rw [hleaf] at hmem
  cases hmem

/-- Nothing is below a node without children but the node itself. -/
theorem Tree.eq_of_mem_below_leaf {m : NodeId} (hm : m ∈ t.below [n]) : m = n := by
  obtain ⟨a, ha, hr⟩ := hm
  obtain rfl := List.mem_singleton.mp ha
  rcases hr.cases_head with hr | ⟨c, hc, -⟩
  · exact hr.symm
  · exact absurd hc (Tree.not_isChild_leaf hk hleaf c)

/-- A node without children that is not in the set can be attached. -/
theorem Tree.Loose.leaf {K : Set NodeId} (hn : n ∉ K) : t.Loose K [n] := by
  have hbelow : ∀ m ∈ t.below [n], m = n := fun m hm => eq_of_mem_below_leaf hk hleaf hm
  have hnone := Tree.not_isChild_leaf hk hleaf
  refine ⟨List.nodup_singleton n, fun m hm => ?_, fun m hm => ?_,
    fun pos pos' p p' m hp _ hb _ hocc _ => ?_, fun pos p m hp hb _ hocc => ?_, fun m hm hcycle => ?_⟩
  · rw [hbelow m hm]
    exact decide_eq_true ((t.kind?_isSome_iff n).mp ⟨k, hk⟩)
  · rw [hbelow m hm]
    exact hn
  · obtain rfl := hbelow p hb
    exact absurd ⟨pos, hp, hocc⟩ (hnone m)
  · obtain rfl := hbelow p hb
    exact hnone m ⟨pos, hp, hocc⟩
  · obtain rfl := hbelow m hm
    obtain ⟨c, hc, -⟩ := Relation.TransGen.head'_iff.mp hcycle
    exact hnone c hc

end Leaf

/-- A node that stands nowhere cannot be reached. -/
theorem Tree.not_reachable {t : Tree} {n : NodeId} (hroot : t.root ≠ some n)
    (hchild : ∀ i < t.size, n ∉ (t.children? ⟨i⟩).getD []) : n ∉ t.reachable := by
  intro hn
  cases hn with
  | root hr => exact hroot hr
  | @child p _ _ hc =>
    obtain ⟨k, hk, hmem⟩ := (t.isChild_iff p n).mp hc
    exact hchild p.index ((t.kind?_isSome_iff p).mp ⟨k, hk⟩)
      (by rw [children?_of_kind hk]; exact hmem)

/-- A node that stands nowhere in a tree that was built bottom up can be attached. -/
theorem Tree.Loose.of_bottomUp {t : Tree} {n : NodeId} (hroot : ∀ r ∈ t.root, r.index < t.size)
    (hbefore : ∀ i < t.size, ∀ c ∈ (t.children? ⟨i⟩).getD [], c.index < i)
    (hnodup : t.occupants.Nodup) (hn : n.index < t.size) (htop : n ∉ t.occupants) :
    t.Loose t.reachable [n] := by
  refine .of_forest (.of_bottomUp hroot hbefore hnodup) (List.nodup_singleton n)
    (fun m hm => by rwa [List.mem_singleton.mp hm]) (fun m hm hr => ?_) fun m hm p hc => ?_
  · obtain rfl := List.mem_singleton.mp hm
    exact htop (by simp [occupants, hr])
  · obtain rfl := List.mem_singleton.mp hm
    obtain ⟨k, hk, hmem⟩ := (t.isChild_iff p m).mp hc
    refine htop (List.mem_append_right _ (List.mem_flatMap.mpr ⟨p.index, ?_, ?_⟩))
    · exact List.mem_range.mpr ((t.kind?_isSome_iff p).mp ⟨k, hk⟩)
    · rw [children?_of_kind hk]
      exact hmem

/-- A program with the body `a`, a program, `;`, and beside it another statement `;`. -/
def oddProgram : Tree where
  nodes := #[{ kind := .identifier "a" none }, { kind := .program [] [] },
    { kind := .emptyStatement }, { kind := .program [⟨0⟩, ⟨1⟩, ⟨2⟩] [] },
    { kind := .emptyStatement }]
  root := some ⟨3⟩

theorem oddProgram_isProgram : oddProgram.IsProgram :=
  .of_bottomUp (by decide) (by decide) (by decide) (by decide)

theorem oddProgram_loose : oddProgram.Loose oddProgram.reachable [⟨4⟩] :=
  .leaf (t := oddProgram) rfl rfl (Tree.not_reachable (by decide) (by decide))

/-- The program is open, and its elements have the paths 1, 2 and 3. -/
def oddSession : Session :=
  Session.roam { tree := oddProgram, config := { lazyScopes := true } } [.root, .elements ⟨0⟩ .body]

/-- A statement is inserted before the last element. -/
theorem oddProgram_edits_followed : oddProgram.IsProgram ∧
    oddProgram.Loose oddProgram.reachable [⟨4⟩] ∧ oddSession.Holds ⟨3⟩ ⟨2⟩ ∧
      Returns ((⟨3⟩ : PathId).insertBefore [⟨4⟩]) oddSession fun ps s =>
        List.Forall₂ s.Holds ps [⟨4⟩] ∧
          s.tree.list? ⟨3⟩ .body = some [⟨0⟩, ⟨1⟩, ⟨4⟩, ⟨2⟩] := by
  obtain ⟨s₀, hopen, hfollows⟩ := edits_followed oddProgram_isProgram { lazyScopes := true }
  obtain rfl : { tree := oddProgram, config := { lazyScopes := true } } = s₀ :=
    Except.ok.inj hopen
  have hp : oddSession.Holds ⟨3⟩ ⟨2⟩ := ⟨_, rfl, rfl⟩
  have hsteps := hfollows [.root, .elements ⟨0⟩ .body] ⟨0⟩ ⟨3⟩ [⟨0⟩, ⟨1⟩, ⟨2⟩] ⟨_, rfl, rfl⟩
    (.inl rfl) rfl [.edit ⟨3⟩ (.insertBefore [⟨4⟩])]
  refine ⟨oddProgram_isProgram, oddProgram_loose, hp, ?_⟩
  refine (hsteps.2 ⟨2⟩ hp (by decide) oddProgram_loose trivial).mono fun ps s hs => ?_
  exact ⟨hs.1, hs.2.list⟩

/-- Nothing in the place of an element is refused, and so is a statement in the place of a program;
in the place of an expression it becomes an expression. -/
theorem oddProgram_not_followed : oddProgram.IsProgram ∧
    oddProgram.Loose oddProgram.reachable [⟨4⟩] ∧
    Session.open? oddProgram { lazyScopes := true } =
      .ok { tree := oddProgram, config := { lazyScopes := true } } ∧
    (oddSession.Holds ⟨1⟩ ⟨0⟩ ∧ oddSession.Holds ⟨2⟩ ⟨1⟩ ∧ oddSession.Holds ⟨3⟩ ⟨2⟩) ∧
    (after ((ElementEdit.replaceMany []).run ⟨3⟩) oddSession).tree.list? ⟨3⟩ .body ≠
      some ((ElementEdit.replaceMany []).apply ⟨2⟩ [⟨0⟩, ⟨1⟩, ⟨2⟩]) ∧
    (after ((ElementEdit.replace ⟨4⟩).run ⟨2⟩) oddSession).tree.list? ⟨3⟩ .body ≠
      some ((ElementEdit.replace ⟨4⟩).apply ⟨1⟩ [⟨0⟩, ⟨1⟩, ⟨2⟩]) ∧
    (after ((ElementEdit.replace ⟨4⟩).run ⟨1⟩) oddSession).tree.list? ⟨3⟩ .body ≠
      some ((ElementEdit.replace ⟨4⟩).apply ⟨0⟩ [⟨0⟩, ⟨1⟩, ⟨2⟩]) := by
  refine ⟨oddProgram_isProgram, oddProgram_loose, rfl,
    ⟨⟨_, rfl, rfl⟩, ⟨_, rfl, rfl⟩, ⟨_, rfl, rfl⟩⟩, ?_⟩
  decide +kernel

end Espalier
