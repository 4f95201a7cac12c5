import Espalier.Path.Facts
import Espalier.Proofs.Composition
import Espalier.Proofs.Handles

set_option autoImplicit false

/-! # Nothing out of range

Nodes, paths and scopes refer to each other by number. A session is `Closed` when it has everything
that its tree, its paths and its scopes name. A computation is `Careful` in a session when, if the
session is closed, it meets no number without a node, path or scope, leaves a closed session that
has all that was there, and gives a value that names only what is there. Sequences of careful
computations are careful (`Careful.bind`), so one lemma for each function is enough. -/

namespace Espalier

open SessionM

variable {α β : Type}

/-! ## What values name -/

/-- The second session has every number of a node, path or scope that the first one has. -/
structure Session.Extends (s s' : Session) : Prop where
  nodes : s.tree.size ≤ s'.tree.size
  paths : s.paths.size ≤ s'.paths.size
  scopes : s.scopes.scopes.size ≤ s'.scopes.scopes.size

namespace Session.Extends

variable {s s₁ s₂ : Session}

theorem refl (s : Session) : s.Extends s := ⟨Nat.le_refl _, Nat.le_refl _, Nat.le_refl _⟩

theorem trans (h₁ : s.Extends s₁) (h₂ : s₁.Extends s₂) : s.Extends s₂ :=
  ⟨h₁.nodes.trans h₂.nodes, h₁.paths.trans h₂.paths, h₁.scopes.trans h₂.scopes⟩

end Session.Extends

/-- Values that may name nodes, paths and scopes of a session. What a session once has it keeps. -/
class Names (α : Type) where
  known : Session → α → Prop
  mono {s s' : Session} {a : α} : s.Extends s' → known s a → known s' a

/-- The session has all that the value names. -/
def Session.Knows [Names α] (s : Session) (a : α) : Prop := Names.known s a

theorem Session.Extends.knows [Names α] {s s' : Session} {a : α} (h : s.Extends s')
    (ha : s.Knows a) : s'.Knows a := Names.mono h ha

/-- Values that name nothing. -/
abbrev Names.plain (α : Type) : Names α := ⟨fun _ _ => True, fun _ _ => trivial⟩

instance : Names Unit := .plain Unit
instance : Names PUnit := .plain PUnit
instance : Names Bool := .plain Bool
instance : Names Nat := .plain Nat
instance : Names String := .plain String
instance : Names Field := .plain Field
instance : Names Key := .plain Key
instance : Names NodeType := .plain NodeType
instance : Names ValueType := .plain ValueType
instance : Names Json := .plain Json

instance : Names NodeId := ⟨fun s n => n.index < s.tree.size, fun h hn => Nat.lt_of_lt_of_le hn h.nodes⟩

instance : Names PathId :=
  ⟨fun s p => p.index < s.paths.size, fun h hp => Nat.lt_of_lt_of_le hp h.paths⟩

instance : Names ScopeId :=
  ⟨fun s i => i.index < s.scopes.scopes.size, fun h hi => Nat.lt_of_lt_of_le hi h.scopes⟩

instance [Names α] : Names (Option α) :=
  ⟨fun s o => ∀ a, o = some a → s.Knows a, fun h ho a ha => h.knows (ho a ha)⟩

instance [Names α] : Names (List α) :=
  ⟨fun s l => ∀ a ∈ l, s.Knows a, fun h hl a ha => h.knows (hl a ha)⟩

instance [Names α] [Names β] : Names (α × β) :=
  ⟨fun s e => s.Knows e.1 ∧ s.Knows e.2, fun h he => ⟨h.knows he.1, h.knows he.2⟩⟩

instance [Names α] : Names (Table String α) :=
  ⟨fun s t => ∀ e ∈ t.entries, s.Knows e.2, fun h ht e he => h.knows (ht e he)⟩

instance : Names Child := ⟨fun s c => s.Knows c.ids, fun h hc => h.knows hc⟩

instance : Names NodeKind := ⟨fun s k => s.Knows k.children, fun h hk => h.knows hk⟩

instance : Names Container := ⟨fun s c => s.Knows c.parent?, fun h hc => h.knows hc⟩

instance : Names PathData :=
  ⟨fun s d => s.Knows d.node ∧ s.Knows d.parent ∧ s.Knows d.container,
    fun h hd => ⟨h.knows hd.1, h.knows hd.2.1, h.knows hd.2.2⟩⟩

instance : Names Binding :=
  ⟨fun s b => s.Knows b.identifier ∧ s.Knows b.scope ∧ s.Knows b.path ∧ s.Knows b.violations ∧
      s.Knows b.references,
    fun h hb => ⟨h.knows hb.1, h.knows hb.2.1, h.knows hb.2.2.1, h.knows hb.2.2.2.1,
      h.knows hb.2.2.2.2⟩⟩

instance : Names Scope :=
  ⟨fun s sc => s.Knows sc.block ∧ s.Knows sc.parent ∧ s.Knows sc.bindings,
    fun h hsc => ⟨h.knows hsc.1, h.knows hsc.2.1, h.knows hsc.2.2⟩⟩

namespace Session

section Knows

variable {s : Session}

@[simp] theorem knows_none [Names α] : s.Knows (none : Option α) := nofun

@[simp] theorem knows_some [Names α] {a : α} : s.Knows (some a) ↔ s.Knows a :=
  ⟨fun h => h a rfl, fun h _ hb => Option.some.inj hb ▸ h⟩

@[simp] theorem knows_nil [Names α] : s.Knows ([] : List α) := nofun

@[simp] theorem knows_cons [Names α] {a : α} {l : List α} :
    s.Knows (a :: l) ↔ s.Knows a ∧ s.Knows l := List.forall_mem_cons

@[simp] theorem knows_append [Names α] {l l' : List α} :
    s.Knows (l ++ l') ↔ s.Knows l ∧ s.Knows l' := List.forall_mem_append

theorem knows_fields (l : List Field) : s.Knows l := fun _ _ => trivial

theorem knows_numbers (l : List Nat) : s.Knows l := fun _ _ => trivial

theorem knows_texts (l : List String) : s.Knows l := fun _ _ => trivial

theorem knows_of_subset [Names α] {l l' : List α} (h : l ⊆ l') (hl : s.Knows l') : s.Knows l :=
  fun a ha => hl a (h ha)

theorem knows_flatten [Names α] {l : List (List α)} (h : s.Knows l) : s.Knows l.flatten := by
  intro a ha
  obtain ⟨l', hl', ha⟩ := List.mem_flatten.mp ha
  exact h l' hl' a ha

theorem knows_of_getElem? [Names α] {l : List α} {i : Nat} {a : α} (hl : s.Knows l)
    (ha : l[i]? = some a) : s.Knows a := hl a (List.mem_of_getElem? ha)

theorem knows_toList [Names α] {o : Option α} (h : s.Knows o) : s.Knows o.toList :=
  fun a ha => h a (by simpa using ha)

theorem knows_bind [Names α] [Names β] {o : Option α} {f : α → Option β} (ho : s.Knows o)
    (hf : ∀ a, s.Knows a → s.Knows (f a)) : s.Knows (o.bind f) := by
  intro b hb
  obtain ⟨a, ha, hb⟩ := Option.bind_eq_some_iff.mp hb
  exact hf a (ho a ha) b hb

theorem knows_get? [Names α] {t : Table String α} (ht : s.Knows t) (x : String) :
    s.Knows (t.get? x) := fun a ha =>
  ht (x, a) (Table.mem_entries_of_get? ha)

theorem knows_kind_child {k : NodeKind} (h : s.Knows k) (f : Field) : s.Knows (k.child? f) := by
  intro c hc n hn
  exact h n (List.mem_flatMap.mpr ⟨(f, c), (k.child?_eq_some_iff f c).mp hc, hn⟩)

theorem knows_child_node {c : Child} (h : s.Knows c) : s.Knows c.node? := by
  intro n hn
  cases c with
  | one id => exact h n (List.mem_singleton.mpr (Option.some.inj hn).symm)
  | opt o => exact h n (Option.mem_toList.mpr hn)
  | many ids => cases hn

theorem knows_child_list {c : Child} (h : s.Knows c) : s.Knows c.list? := by
  intro l hl
  cases c with
  | one | opt => cases hl
  | many ids => exact Option.some.inj hl ▸ h

end Knows

end Session

/-! ## Closed sessions -/

/-- Every node that is named by the tree is in the arena. -/
structure Tree.Closed (t : Tree) : Prop where
  root : ∀ n, t.root = some n → n.index < t.size
  children : ∀ n k, t.kind? n = some k → ∀ c ∈ k.children, c.index < t.size

/-- It is enough to look through the arena. -/
theorem Tree.Closed.of_nodes {t : Tree} (hroot : ∀ n ∈ t.root, n.index < t.size)
    (hnodes : ∀ node ∈ t.nodes.toList, ∀ c ∈ node.kind.children, c.index < t.size) : t.Closed := by
  refine ⟨fun n hn => hroot n hn, fun n k hk c hc => ?_⟩
  obtain ⟨node, hnode, rfl⟩ := Option.map_eq_some_iff.mp hk
  exact hnodes node (Array.mem_toList_iff.mpr (Array.mem_of_getElem? hnode)) c hc

/-- What stands in a closed tree is a node of it. -/
theorem Tree.Closed.index_lt_of_occupant {t : Tree} {pos : Position} {n : NodeId} (h : t.Closed)
    (hocc : t.occupant? pos = some n) : n.index < t.size := by
  cases hp : pos.parent? with
  | none =>
    cases pos with
    | root => exact h.root n hocc
    | slot | item => cases hp
  | some m =>
    obtain ⟨k, hk, hmem⟩ := (t.isChild_iff m n).mp ⟨pos, hp, hocc⟩
    exact h.children m k hk n hmem

/-- The parser can be run on any tree without an id out of range, and builds none. -/
def ExpressionParser.Closed (parser : ExpressionParser) : Prop := ∀ text t, t.Closed →
  ∃ r t', (parser text).run t = some (r, t') ∧ t.size ≤ t'.size ∧ t'.Closed ∧
    ∀ n, r = .ok n → n.index < t'.size

/-- A path without a position holds no node, and the path around it is an older one. -/
def PathData.Sinks (d : PathData) (p : PathId) : Prop :=
  d.container = .detached → d.node = none ∧ ∀ q, d.parent = some q → q.index < p.index

namespace Session

/-- The paths name what is there. A path in a bucket has a position; a path that is found again
without one has none. -/
structure PathsClosed (s : Session) : Prop where
  data : ∀ (p : PathId) d, s.paths[p.index]? = some d → s.Knows d
  sinks : ∀ (p : PathId) d, s.paths[p.index]? = some d → d.Sinks p
  filed : ∀ c (p : PathId), p ∈ s.bucket c →
    ∃ d, s.paths[p.index]? = some d ∧ d.container ≠ .detached
  strays : ∀ parent (p : PathId), s.detached.get? parent = some p →
    (∃ d, s.paths[p.index]? = some d ∧ d.container = .detached) ∧
      ∀ q, parent = some q → q.index < p.index

/-- The scopes name what is there. -/
structure ScopesClosed (s : Session) : Prop where
  scopes : ∀ (i : ScopeId) sc, s.scopes.scopes[i.index]? = some sc → s.Knows sc
  byBlock : ∀ n i, s.scopes.byBlock.get? n = some i → s.Knows i
  root : s.Knows s.scopes.root

/-- The session has all that its tree, its paths, its scopes and its running walks name. -/
structure Closed (s : Session) : Prop where
  tree : s.tree.Closed
  paths : s.PathsClosed
  scopes : s.ScopesClosed
  frames : ∀ f ∈ s.frames, s.Knows f.queue
  parser : ∀ parser, s.parser = some parser → ExpressionParser.Closed parser

section Closed

variable {s s' : Session}

theorem Closed.exists_kind {n : NodeId} (h : s.Closed) (hn : s.Knows n) :
    ∃ k, s.tree.kind? n = some k ∧ s.Knows k := by
  obtain ⟨node, hnode⟩ : ∃ node, s.tree.nodes[n.index]? = some node :=
    ⟨_, Array.getElem?_eq_getElem hn⟩
  have hk : s.tree.kind? n = some node.kind := Option.map_eq_some_iff.mpr ⟨node, hnode, rfl⟩
  exact ⟨_, hk, h.tree.children n _ hk⟩

theorem exists_data {p : PathId} (hp : s.Knows p) : ∃ d, s.paths[p.index]? = some d :=
  ⟨_, Array.getElem?_eq_getElem hp⟩

theorem exists_scope {i : ScopeId} (hi : s.Knows i) : ∃ sc, s.scopes.scopes[i.index]? = some sc :=
  ⟨_, Array.getElem?_eq_getElem hi⟩

theorem knows_of_data {p : PathId} {d : PathData} (h : s.paths[p.index]? = some d) : s.Knows p :=
  (Array.getElem?_eq_some_iff.mp h).1

/-- Paths that stay as they are name what is there also in a session that has more. -/
theorem PathsClosed.of_same (h : s.PathsClosed) (hs : s.Extends s') (hp : s'.paths = s.paths)
    (hc : s'.cache = s.cache) (hd : s'.detached = s.detached) : s'.PathsClosed where
  data p d hpd := hs.knows (h.data p d (hp ▸ hpd))
  sinks p d hpd := h.sinks p d (hp ▸ hpd)
  filed c p hb := by
    rw [hp]
    refine h.filed c p ?_
    simpa only [bucket, hc] using hb
  strays parent p hq := by
    rw [hp]
    exact h.strays parent p (hd ▸ hq)

theorem ScopesClosed.of_same (h : s.ScopesClosed) (hs : s.Extends s') (he : s'.scopes = s.scopes) :
    s'.ScopesClosed where
  scopes i sc hsc := hs.knows (h.scopes i sc (he ▸ hsc))
  byBlock n i hi := hs.knows (h.byBlock n i (he ▸ hi))
  root := by
    have hroot := hs.knows h.root
    rwa [← he] at hroot

end Closed

end Session

/-! ## Careful computations -/

/-- What is left of a session: a closed one with all that was there. No number was out of range, and
the value names only what is there. -/
def Session.Ends [Names α] (s : Session) : EStateM.Result Failure Session α → Prop
  | .ok a s' => s.Extends s' ∧ s'.Closed ∧ s'.Knows a
  | .error e s' => s.Extends s' ∧ s'.Closed ∧ e ≠ .dangling

/-- In this session, if it is closed, the computation meets no number out of range. -/
def Careful [Names α] (x : SessionM α) (s : Session) : Prop := s.Closed → s.Ends (x s)

/-- The computation is careful, and changes nothing. -/
def Reads [Names α] (x : SessionM α) (s : Session) : Prop := s.Closed →
  (∃ a, x s = .ok a s ∧ s.Knows a) ∨ ∃ e, x s = .error e s ∧ e ≠ .dangling

section Combine

variable [Names α] [Names β] {s : Session} {x : SessionM α} {f : α → SessionM β}

namespace Reads

theorem pure {a : α} (ha : s.Knows a) : Reads (pure a : SessionM α) s := fun _ => .inl ⟨a, rfl, ha⟩

theorem throw {e : Failure} (he : e ≠ .dangling) : Reads (throw e : SessionM α) s :=
  fun _ => .inr ⟨e, rfl, he⟩

theorem exhausted : Reads (MonadExcept.throw .exhausted : SessionM α) s := throw nofun

theorem refuse (cause : Refusal) : Reads (refuse cause : SessionM α) s := throw nofun

theorem bind (hx : Reads x s) (hf : ∀ a, s.Knows a → Reads (f a) s) : Reads (x >>= f) s := by
  intro hs
  rcases hx hs with ⟨a, hrun, ha⟩ | ⟨e, hrun, he⟩
  · rw [bind_of_ok hrun]
    exact hf a ha hs
  · exact .inr ⟨e, bind_of_error hrun, he⟩

theorem get_bind {f : Session → SessionM β} (hf : s.Closed → Reads (f s) s) :
    Reads (get >>= f) s := fun hs => hf hs hs

theorem ite {c : Prop} [Decidable c] {y : SessionM α} (hx : c → Reads x s) (hy : ¬c → Reads y s) :
    Reads (if c then x else y) s := by
  split
  · next h => exact hx h
  · next h => exact hy h

theorem mapM {f : α → SessionM β} {l : List α} (hl : s.Knows l)
    (hf : ∀ a, s.Knows a → Reads (f a) s) : Reads (l.mapM f) s := by
  induction l with
  | nil => exact pure Session.knows_nil
  | cons a l ih =>
    obtain ⟨ha, hl⟩ := Session.knows_cons.mp hl
    rw [List.mapM_cons]
    exact (hf a ha).bind fun b hb => (ih hl).bind fun bs hbs => pure (Session.knows_cons.mpr ⟨hb, hbs⟩)

theorem careful (hx : Reads x s) : Careful x s := by
  intro hs
  rcases hx hs with ⟨a, hrun, ha⟩ | ⟨e, hrun, he⟩
  · rw [hrun]
    exact ⟨.refl s, hs, ha⟩
  · rw [hrun]
    exact ⟨.refl s, hs, he⟩

/-- A careful computation after a question. -/
theorem andThen (hx : Reads x s) (hf : ∀ a, s.Knows a → Careful (f a) s) : Careful (x >>= f) s := by
  intro hs
  rcases hx hs with ⟨a, hrun, ha⟩ | ⟨e, hrun, he⟩
  · rw [bind_of_ok hrun]
    exact hf a ha hs
  · rw [bind_of_error hrun]
    exact ⟨.refl s, hs, he⟩

end Reads

namespace Careful

theorem of_closed (h : s.Closed → Careful x s) : Careful x s := fun hs => h hs hs

theorem pure {a : α} (ha : s.Knows a) : Careful (pure a : SessionM α) s := (Reads.pure ha).careful

theorem exhausted : Careful (MonadExcept.throw .exhausted : SessionM α) s := Reads.exhausted.careful

theorem refuse (cause : Refusal) : Careful (refuse cause : SessionM α) s :=
  (Reads.refuse cause).careful

/-- A computation that is careful, and what is done with its value. -/
theorem bind_run (hx : Careful x s) (hf : ∀ a s', x s = .ok a s' → s.Extends s' → s'.Knows a →
    Careful (f a) s') : Careful (x >>= f) s := by
  intro hs
  have hends := hx hs
  cases hrun : x s with
  | ok a s' =>
    rw [hrun] at hends
    obtain ⟨hext, hs', ha⟩ := hends
    rw [bind_of_ok hrun]
    have hends' := hf a s' hrun hext ha hs'
    cases hrun' : f a s' with
    | ok b s'' =>
      rw [hrun'] at hends'
      exact ⟨hext.trans hends'.1, hends'.2⟩
    | error e s'' =>
      rw [hrun'] at hends'
      exact ⟨hext.trans hends'.1, hends'.2⟩
  | error e s' =>
    rw [hrun] at hends
    rw [bind_of_error hrun]
    exact hends

theorem bind (hx : Careful x s) (hf : ∀ a s', s.Extends s' → s'.Knows a → Careful (f a) s') :
    Careful (x >>= f) s := bind_run hx fun a s' _ => hf a s'

theorem get_bind {f : Session → SessionM β} (hf : s.Closed → Careful (f s) s) :
    Careful (get >>= f) s := fun hs => hf hs hs

theorem ite {c : Prop} [Decidable c] {y : SessionM α} (hx : c → Careful x s)
    (hy : ¬c → Careful y s) : Careful (if c then x else y) s := by
  split
  · next h => exact hx h
  · next h => exact hy h

theorem mapM {f : α → SessionM β} {l : List α} (hl : s.Knows l)
    (hf : ∀ a s', s.Extends s' → s'.Knows a → Careful (f a) s') : Careful (l.mapM f) s := by
  induction l generalizing s with
  | nil => exact pure Session.knows_nil
  | cons a l ih =>
    obtain ⟨ha, hl⟩ := Session.knows_cons.mp hl
    rw [List.mapM_cons]
    refine (hf a s (.refl s) ha).bind fun b s₁ h₁ hb => ?_
    refine (ih (h₁.knows hl) fun a s' h => hf a s' (h₁.trans h)).bind fun bs s₂ h₂ hbs => ?_
    exact pure (Session.knows_cons.mpr ⟨h₂.knows hb, hbs⟩)

theorem forM {f : α → SessionM PUnit} {l : List α} (hl : s.Knows l)
    (hf : ∀ a s', s.Extends s' → s'.Knows a → Careful (f a) s') : Careful (l.forM f) s := by
  induction l generalizing s with
  | nil => exact pure trivial
  | cons a l ih =>
    obtain ⟨ha, hl⟩ := Session.knows_cons.mp hl
    exact (hf a s (.refl s) ha).bind fun _ s₁ h₁ _ =>
      ih (h₁.knows hl) fun a s' h => hf a s' (h₁.trans h)

theorem foldlM {f : β → α → SessionM β} {l : List α} {b : β} (hl : s.Knows l) (hb : s.Knows b)
    (hf : ∀ b a s', s.Extends s' → s'.Knows b → s'.Knows a → Careful (f b a) s') :
    Careful (l.foldlM f b) s := by
  induction l generalizing s b with
  | nil => exact pure hb
  | cons a l ih =>
    obtain ⟨ha, hl⟩ := Session.knows_cons.mp hl
    rw [List.foldlM_cons]
    exact (hf b a s (.refl s) hb ha).bind fun b' s₁ h₁ hb' =>
      ih (h₁.knows hl) hb' fun b a s' h => hf b a s' (h₁.trans h)

end Careful

end Combine

end Espalier
