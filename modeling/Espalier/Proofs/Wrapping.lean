import Espalier.Proofs.ClosedReplacement
import Espalier.Proofs.EditUpkeep
import Espalier.Proofs.Pruning
import Espalier.Proofs.Succession

set_option autoImplicit false

/-! # The function around statements

Statements that come to stand in the place of an expression become the body of a function that is
called where it stands (`Wrapping`). What is below that function is rewritten after that, and so is
the program around it: declarations move out, values are returned, and the results of loops get
variables of their own. A tree `Wraps` the call when the function, its body and the `return`
statements of its result variables are where they were put, these at the end of the body in the
order in which they came. A write that reaches none of them leaves that as it is (`Tree.Upholds`);
a session in which it is so keeps, beside the tree, the path of the function out of the reach of
traversals (`Session.Wraps`). -/

namespace Espalier

open SessionM

/-- A result variable: its name, and the `return` statement that gives its value. -/
structure Wrapping.Result where
  name : String
  statement : NodeId
  argument : NodeId

/-- A call of a function that was put around statements, the path of the function, and its result
variables so far. -/
structure Wrapping where
  call : NodeId
  function : NodeId
  body : NodeId
  callee : PathId
  results : List Wrapping.Result

namespace Wrapping

/-- The nodes that have to stay where they are: all but the call. -/
def nodes (W : Wrapping) : Set NodeId :=
  {n | n = W.function ∨ n = W.body ∨ ∃ r ∈ W.results, n = r.statement ∨ n = r.argument}

/-- The `return` statements of the result variables. -/
def returns (W : Wrapping) : List NodeId := W.results.map Result.statement

/-- The wrapper with one more result variable. -/
def extend (W : Wrapping) (r : Result) : Wrapping := { W with results := W.results ++ [r] }

variable {W : Wrapping} {n : NodeId} {r : Result}

theorem function_mem (W : Wrapping) : W.function ∈ W.nodes := .inl rfl

theorem body_mem (W : Wrapping) : W.body ∈ W.nodes := .inr (.inl rfl)

theorem statement_mem (h : r ∈ W.results) : r.statement ∈ W.nodes := .inr (.inr ⟨r, h, .inl rfl⟩)

theorem argument_mem (h : r ∈ W.results) : r.argument ∈ W.nodes := .inr (.inr ⟨r, h, .inr rfl⟩)

theorem mem_of_mem_returns (h : n ∈ W.returns) : n ∈ W.nodes := by
  obtain ⟨r, hr, rfl⟩ := List.mem_map.mp h
  exact statement_mem hr

/-- What is among the first statements is not among the results. -/
theorem index_lt_front (W : Wrapping) {front : List NodeId} {i : Nat}
    (hn : (front ++ W.returns)[i]? = some n) (hmem : n ∉ W.nodes) : i < front.length := by
  by_contra hle
  rw [List.getElem?_append_right (Nat.le_of_not_lt hle)] at hn
  exact hmem (mem_of_mem_returns (List.mem_of_getElem? hn))

end Wrapping

/-- The types of the nodes that have to stay where they are. -/
def NodeType.isWrapping : NodeType → Bool
  | .functionExpression | .blockStatement | .returnStatement | .identifier => true
  | _ => false

namespace Tree

/-- The call is made around its statements, and ends with the results. -/
structure Wraps (t : Tree) (W : Wrapping) : Prop where
  call : t.type? W.call = some .callExpression
  function : t.type? W.function = some .functionExpression
  body : t.type? W.body = some .blockStatement
  callee : t.occupant? (.slot W.call .callee) = some W.function
  block : t.occupant? (.slot W.function .body) = some W.body
  statements : ∃ front, t.list? W.body .body = some (front ++ W.returns)
  result : ∀ r ∈ W.results, t.type? r.statement = some .returnStatement ∧
    t.occupant? (.slot r.statement .argument) = some r.argument ∧
    t.kind? r.argument = some (.identifier r.name none)
  /-- No other node has one of these below it. -/
  sealed : ∀ pos n, n ∈ W.nodes → t.occupant? pos = some n →
    ∃ m, pos.parent? = some m ∧ (m = W.call ∨ m ∈ W.nodes)

namespace Wraps

variable {t t' : Tree} {W : Wrapping} {n m : NodeId} {type : NodeType} {pos : Position}

theorem type_of_mem (h : t.Wraps W) (hn : n ∈ W.nodes) :
    ∃ type, t.type? n = some type ∧ type.isWrapping = true := by
  rcases hn with rfl | rfl | ⟨r, hr, rfl | rfl⟩
  · exact ⟨_, h.function, rfl⟩
  · exact ⟨_, h.body, rfl⟩
  · exact ⟨_, (h.result r hr).1, rfl⟩
  · exact ⟨_, type?_of_kind (h.result r hr).2.2, rfl⟩

theorem not_mem (h : t.Wraps W) (hn : t.type? n = some type) (htype : type.isWrapping = false) :
    n ∉ W.nodes := by
  intro hmem
  obtain ⟨type', hn', htype'⟩ := h.type_of_mem hmem
  obtain rfl := Option.some.inj (hn.symm.trans hn')
  rw [htype] at htype'
  cases htype'

theorem index_lt (h : t.Wraps W) (hn : n ∈ W.nodes) : n.index < t.size := by
  obtain ⟨type, htype, -⟩ := h.type_of_mem hn
  obtain ⟨k, hk, -⟩ := kind_of_type? htype
  exact (t.kind?_isSome_iff n).mp ⟨k, hk⟩

/-- What stands below another node is none of the wrapper's. -/
theorem not_mem_below (h : t.Wraps W) (hn : t.occupant? pos = some n) (hp : pos.parent? = some m)
    (hm : t.type? m = some type) (htype : type.isWrapping = false) (hcall : type ≠ .callExpression) :
    n ∉ W.nodes := by
  intro hmem
  obtain ⟨m', hp', hm'⟩ := h.sealed pos n hmem hn
  obtain rfl := Option.some.inj (hp.symm.trans hp')
  rcases hm' with rfl | hm'
  · exact hcall (Option.some.inj (hm.symm.trans h.call))
  · exact h.not_mem hm htype hm'

/-- Of all bodies that are single nodes the wrapper has only that of its function. -/
theorem not_mem_body (h : t.Wraps W) (hn : t.occupant? (.slot m .body) = some n)
    (hbody : m ≠ W.function) : n ∉ W.nodes := by
  intro hmem
  obtain ⟨m', hp, hm⟩ := h.sealed _ n hmem hn
  obtain rfl := Option.some.inj hp
  -- Of the types that the owner can have, only a function has a body of one node.
  obtain ⟨c, hc, hnode⟩ := Option.bind_eq_some_iff.mp hn
  obtain ⟨k, hk, hfield⟩ := Option.bind_eq_some_iff.mp hc
  have hkind : ∀ {type : NodeType}, t.type? m = some type → k.type = type := fun hm =>
    Option.some.inj ((type?_of_kind hk).symm.trans hm)
  have hnone : ∀ {type : NodeType}, t.type? m = some type → type = .callExpression ∨
      type = .blockStatement ∨ type = .returnStatement ∨ type = .identifier → False := by
    intro type hm hcases
    obtain rfl := hkind hm
    cases k <;> simp_all [NodeKind.type, NodeKind.child?, NodeKind.fields]
    subst hfield
    cases hnode
  rcases hm with rfl | rfl | rfl | ⟨r, hr, rfl | rfl⟩
  · exact hnone h.call (.inl rfl)
  · exact hbody rfl
  · exact hnone h.body (.inr (.inl rfl))
  · exact hnone (h.result r hr).1 (.inr (.inr (.inl rfl)))
  · exact hnone (type?_of_kind (h.result r hr).2.2) (.inr (.inr (.inr rfl)))

/-- The body of a function is none of the wrapper's unless it is a block. -/
theorem not_mem_body_of_type (h : t.Wraps W) (hn : t.occupant? (.slot m .body) = some n)
    (htype : t.type? n ≠ some .blockStatement) : n ∉ W.nodes := by
  refine h.not_mem_body hn ?_
  rintro rfl
  rw [h.block] at hn
  obtain rfl := Option.some.inj hn
  exact htype h.body

end Wraps

/-- The second tree is the first one without the node of an optional field. -/
structure Vacated (t : Tree) (owner : NodeId) (f : Field) (old : NodeId) (t' : Tree) : Prop where
  root : t'.root = t.root
  outline : ∀ n, (t'.kind? n).map NodeKind.outline = (t.kind? n).map NodeKind.outline
  before : t.field? owner f = some (.opt (some old))
  now : t'.field? owner f = some (.opt none)
  field : ∀ m g, ¬ (m = owner ∧ g = f) → t'.field? m g = t.field? m g

theorem vacated_clearNode {t : Tree} {owner old : NodeId} {f : Field} {k : NodeKind}
    (hk : t.kind? owner = some k) (hc : k.child? f = some (.opt (some old))) :
    t.Vacated owner f old
      (t.modify owner fun node => { node with kind := node.kind.clearNode f }) := by
  have hkind : ∀ n, (t.modify owner fun node =>
      { node with kind := node.kind.clearNode f }).kind? n =
      if n = owner then (t.kind? n).map fun k => k.clearNode f else t.kind? n := by
    intro n
    simp only [kind?, node?_modify]
    by_cases hn : n = owner
    · simp only [hn, if_true, Option.map_map]
      rfl
    · simp only [hn, if_false]
  refine ⟨rfl, fun n => ?_, by simp [field?, hk, hc], ?_, fun m g hmg => ?_⟩
  · rw [hkind]
    split
    · rw [Option.map_map]
      exact congrArg (fun g => Option.map g (t.kind? n)) (funext fun k => k.outline_mapFields _)
    · rfl
  · rw [field?, hkind, if_pos rfl, hk, Option.map_some, Option.bind_some,
      NodeKind.child?_clearNode, hc]
    simp [FieldMap.apply, NodeKind.dropNode]
  · rw [field?, field?, hkind]
    by_cases hm : m = owner
    · have hg : g ≠ f := fun hg => hmg ⟨hm, hg⟩
      rw [if_pos hm, hm, hk, Option.map_some, Option.bind_some, Option.bind_some,
        NodeKind.child?_clearNode]
      cases k.child? g with
      | none => rfl
      | some c => cases c <;> simp [FieldMap.apply, NodeKind.dropNode, hg]
    · rw [if_neg hm]

/-- What stands in a tree with a new node stands below that one, or stood there before. -/
theorem occupant?_push_cases {t : Tree} {k : NodeKind} {pos : Position} {n : NodeId}
    (hocc : (t.push { kind := k }).occupant? pos = some n) :
    (pos.parent? = some ⟨t.size⟩ ∧ n ∈ k.children) ∨ t.occupant? pos = some n := by
  by_cases hnew : pos.parent? = some ⟨t.size⟩
  · obtain ⟨k', hk', hmem⟩ := (isChild_iff _ _ n).mp ⟨pos, hnew, hocc⟩
    have hkind : (t.push { kind := k }).kind? ⟨t.size⟩ = some k := by simp [kind?, node?_push]
    obtain rfl := Option.some.inj (hkind.symm.trans hk')
    exact .inl ⟨hnew, hmem⟩
  · have hsame : ∀ m, pos.parent? = some m → (t.push { kind := k }).kind? m = t.kind? m := by
      intro m hm
      have hne : m.index ≠ t.size := fun hi => hnew (hm.trans (congrArg (some ∘ NodeId.mk) hi))
      simp [kind?, node?_push, hne]
    refine .inr ?_
    cases pos with
    | root => exact hocc
    | slot m f => simpa only [occupant?, field?, hsame m rfl] using hocc
    | item m f i => simpa only [occupant?, list?, field?, hsame m rfl] using hocc

/-! ## Writes that reach nothing of a wrapper -/

/-- The wrapper stands in the second tree, and what it has in single-node fields stayed there. -/
structure Upholds (t : Tree) (W : Wrapping) (t' : Tree) : Prop where
  wraps : t'.Wraps W
  slots : ∀ m f n, n ∈ W.nodes → t.occupant? (.slot m f) = some n →
    t'.occupant? (.slot m f) = some n

namespace Wraps

variable {t t' : Tree} {W : Wrapping} {pos : Position} {old new owner : NodeId} {f : Field}
  {ids ids' : List NodeId}

theorem of_edit (h : t.Wraps W)
    (htype : ∀ n type, t.type? n = some type → t'.type? n = some type)
    (hname : ∀ n x, t.kind? n = some (.identifier x none) → t'.kind? n = some (.identifier x none))
    (hslots : ∀ m f n, n ∈ W.nodes → t.occupant? (.slot m f) = some n →
      t'.occupant? (.slot m f) = some n)
    (hlist : ∃ front, t'.list? W.body .body = some (front ++ W.returns))
    (hplace : ∀ pos n, n ∈ W.nodes → t'.occupant? pos = some n →
      ∃ pos', pos'.parent? = pos.parent? ∧ t.occupant? pos' = some n) : t.Upholds W t' where
  slots := hslots
  wraps :=
    { call := htype _ _ h.call
      function := htype _ _ h.function
      body := htype _ _ h.body
      callee := hslots _ _ _ W.function_mem h.callee
      block := hslots _ _ _ W.body_mem h.block
      statements := hlist
      result := fun r hr => ⟨htype _ _ (h.result r hr).1,
        hslots _ _ _ (Wrapping.argument_mem hr) (h.result r hr).2.1, hname _ _ (h.result r hr).2.2⟩
      sealed := fun pos n hn hocc => by
        obtain ⟨pos', hp, hocc'⟩ := hplace pos n hn hocc
        rw [← hp]
        exact h.sealed pos' n hn hocc' }

/-- A write that keeps the outlines of all nodes. -/
theorem of_outline (h : t.Wraps W)
    (houtline : ∀ n, (t'.kind? n).map NodeKind.outline = (t.kind? n).map NodeKind.outline)
    (hslots : ∀ m f n, n ∈ W.nodes → t.occupant? (.slot m f) = some n →
      t'.occupant? (.slot m f) = some n)
    (hlist : ∃ front, t'.list? W.body .body = some (front ++ W.returns))
    (hplace : ∀ pos n, n ∈ W.nodes → t'.occupant? pos = some n →
      ∃ pos', pos'.parent? = pos.parent? ∧ t.occupant? pos' = some n) : t.Upholds W t' := by
  refine h.of_edit (fun n type hn => ?_) (fun n x hn => ?_) hslots hlist hplace
  · have := congrArg (Option.map NodeKind.type) (houtline n)
    simp only [Option.map_map, Function.comp_def, NodeKind.type_outline] at this
    rw [← map_type_kind?, this, map_type_kind?, hn]
  · have := houtline n
    rw [hn, Option.map_some] at this
    obtain ⟨k, hk, hout⟩ := Option.map_eq_some_iff.mp this
    rw [hk]
    cases k <;> simp_all [NodeKind.outline, NodeKind.mapFields]

theorem alike (h : t.Wraps W) (ha : t.Alike t') : t.Upholds W t' :=
  h.of_outline (fun n => by rw [ha.kind]) (fun _ _ _ _ hocc => (ha.occupant? _).trans hocc)
    (by simpa only [ha.list?] using h.statements)
    fun pos _ _ hocc => ⟨pos, rfl, (ha.occupant? pos).symm.trans hocc⟩

/-- A node comes to a position where none of the wrapper's stands. -/
theorem replanted (h : t.Wraps W) (hplant : t.Replanted pos new t')
    (hfree : ∀ n ∈ W.nodes, t.occupant? pos ≠ some n) (hnew : new ∉ W.nodes) :
    t.Upholds W t' := by
  have hkept : ∀ pos' n, n ∈ W.nodes → t.occupant? pos' = some n → t'.occupant? pos' = some n := by
    intro pos' n hmem hocc
    rw [hplant.other pos', hocc]
    rintro rfl
    exact hfree n hmem hocc
  refine h.of_outline hplant.outline (fun m f n => hkept _ n) ?_ fun pos' n hmem hocc => ⟨pos', rfl, ?_⟩
  · obtain ⟨front, hfront⟩ := h.statements
    by_cases hpos : ∃ i, pos = .item W.body .body i
    · obtain ⟨i, rfl⟩ := hpos
      have hset := hplant.list?_set hfront
      have hi : i < (front ++ W.returns).length := by
        have hhere := hplant.here
        rw [occupant?, hset] at hhere
        simpa using (List.getElem?_eq_some_iff.mp hhere).1
      have hlt := W.index_lt_front (List.getElem?_eq_getElem hi) fun hmem =>
        hfree _ hmem (by rw [occupant?, hfront]; exact List.getElem?_eq_getElem hi)
      exact ⟨front.set i new, by rw [hset, List.set_append_left _ _ hlt]⟩
    · exact ⟨front, (hplant.list?_of_ne fun i hi => hpos ⟨i, hi⟩).trans hfront⟩
  · rw [← hplant.other pos', hocc]
    rintro rfl
    obtain rfl := Option.some.inj (hplant.here.symm.trans hocc)
    exact hnew hmem

/-- The elements of a list become other ones; at the end of the body stand the results again. -/
theorem relisted (h : t.Wraps W) (hlist : t.Relisted owner f ids ids' t')
    (hmem : ∀ n ∈ ids', n ∈ ids ∨ n ∉ W.nodes)
    (hresults : owner = W.body → f = .body → ∃ front, ids' = front ++ W.returns) :
    t.Upholds W t' := by
  obtain ⟨k, hk, -, hk'⟩ := hlist.list
  refine h.of_outline (fun n => ?_) (fun m g n _ hocc => ?_) ?_ fun pos n hn hocc => ?_
  · by_cases hn : n = owner
    · rw [hn, hk, hk']
      exact congrArg some (k.outline_mapFields _)
    · rw [hlist.kind n hn]
  · rw [hlist.occupant? (by simp [Position.container]), hocc]
  · by_cases hbody : W.body = owner ∧ Field.body = f
    · obtain ⟨front, hfront⟩ := hresults hbody.1.symm hbody.2.symm
      exact ⟨front, by rw [hbody.1, hbody.2, hlist.list?', hfront]⟩
    · rw [hlist.list?_of_ne hbody]
      exact h.statements
  · rcases Relisted.position_cases owner f pos with ⟨i, rfl⟩ | hc
    · rw [hlist.occupant?_item] at hocc
      rcases hmem n (List.mem_of_getElem? hocc) with hin | hnot
      · obtain ⟨j, hj⟩ := List.mem_iff_getElem?.mp hin
        exact ⟨.item owner f j, rfl, by simpa [occupant?, hlist.list?] using hj⟩
      · exact absurd hn hnot
    · exact ⟨pos, rfl, (hlist.occupant? hc).symm.trans hocc⟩

/-- An optional field that holds none of the wrapper's nodes is emptied. -/
theorem vacated (h : t.Wraps W) (hv : t.Vacated owner f old t') (hn : old ∉ W.nodes) :
    t.Upholds W t' := by
  refine h.of_outline hv.outline (fun m g n hmem hocc => ?_) ?_ fun pos n hmem hocc => ⟨pos, rfl, ?_⟩
  · by_cases hmg : m = owner ∧ g = f
    · obtain ⟨rfl, rfl⟩ := hmg
      simp only [occupant?, hv.before, Option.bind_some, Child.node?, Option.some.injEq] at hocc
      exact absurd (hocc ▸ hmem) hn
    · simpa only [occupant?, hv.field m g hmg] using hocc
  · obtain ⟨front, hfront⟩ := h.statements
    refine ⟨front, ?_⟩
    rw [list?, hv.field, ← list?, hfront]
    rintro ⟨hm, hg⟩
    rw [hm, hg, list?, hv.before] at hfront
    cases hfront
  · cases pos with
    | root => exact hv.root.symm.trans hocc
    | slot m g =>
      by_cases hmg : m = owner ∧ g = f
      · obtain ⟨rfl, rfl⟩ := hmg
        simp [occupant?, hv.now, Child.node?] at hocc
      · simpa only [occupant?, hv.field m g hmg] using hocc
    | item m g i =>
      by_cases hmg : m = owner ∧ g = f
      · obtain ⟨rfl, rfl⟩ := hmg
        simp [occupant?, list?, hv.now, Child.list?] at hocc
      · simpa only [occupant?, list?, hv.field m g hmg] using hocc

/-- A new node that has none of the wrapper's below it. -/
theorem push (h : t.Wraps W) {k : NodeKind} (hk : ∀ c ∈ k.children, c ∉ W.nodes) :
    t.Upholds W (t.push { kind := k }) := by
  have hg : t.Grown (t.push { kind := k }) := .push _ _
  obtain ⟨front, hfront⟩ := h.statements
  refine h.of_edit (fun n type => hg.type) (fun n x => hg.kind) (fun m f n _ => hg.occupant)
    ⟨front, hg.list hfront⟩ fun pos n hn hocc => ⟨pos, rfl, ?_⟩
  rcases occupant?_push_cases hocc with ⟨-, hmem⟩ | hocc
  · exact absurd hn (hk n hmem)
  · exact hocc

end Wraps

end Tree

/-! ## Sessions with such calls -/

namespace Session

/-- The path waits to be visited again. -/
def Queued (s : Session) (p : PathId) : Prop := ∃ f ∈ s.frames, p ∈ f.queue

/-- The path notes a result variable of this name. -/
def NotesResult (s : Session) (p : PathId) (x : String) : Prop :=
  ∃ d, s.paths[p.index]? = some d ∧ d.notes.get? PathId.resultNote = some (.str x)

/-- The tree wraps the call, and the path of its function is there where it was and waits for no
visit: `resync` and the edits through other paths do not come to it. -/
structure Wraps (s : Session) (W : Wrapping) : Prop where
  tree : s.tree.Wraps W
  sits : s.Sits W.callee (.slot W.call) W.function
  idle : ¬ s.Queued W.callee

/-- The calls of `K` stand, all of them made since `s₀`, and every result variable that is noted at a
path was noted then, or is a result of one of them. -/
structure Ledger (s : Session) (K : Set Wrapping) (s₀ : Session) : Prop where
  tidy : s.Tidy
  closed : s.Closed
  grown : s₀.tree.size ≤ s.tree.size
  wraps : ∀ W ∈ K, s.Wraps W
  made : ∀ W ∈ K, ∀ n ∈ W.nodes, s₀.tree.size ≤ n.index
  apart : ∀ W ∈ K, ∀ V ∈ K, W.body = V.body → W = V
  noted : ∀ p x, s.NotesResult p x → s₀.NotesResult p x ∨ ∃ W ∈ K, ∃ r ∈ W.results, r.name = x

/-- The path holds no node of a wrapper, and none stands where it would find one by its key. -/
def Skirts (s : Session) (K : Set Wrapping) (p : PathId) : Prop :=
  ∃ d pos n m, s.paths[p.index]? = some d ∧ d.position? = some pos ∧ d.node = some n ∧
    (∀ W ∈ K, n ∉ W.nodes) ∧ s.tree.occupant? pos = some m ∧
    ((∃ o f i, pos = .item o f i) ∨ ∀ W ∈ K, m ∉ W.nodes)

/-- The same calls stand. -/
structure Heeds (s : Session) (K : Set Wrapping) (s₀ s' : Session) :
    Prop where
  ledger : s'.Ledger K s₀
  more : s.Extends s'

/-- The same calls stand, and no path comes nearer to them. -/
structure Tends (s : Session) (K : Set Wrapping) (s₀ s' : Session) :
    Prop extends Heeds s K s₀ s' where
  skirts : ∀ p, s.Skirts K p → s'.Skirts K p

section Ledger

variable {s s₁ s' : Session} {K : Set Wrapping} {s₀ : Session} {W : Wrapping}
  {p : PathId} {n : NodeId}

theorem Heeds.trans (h₁ : s.Heeds K s₀ s₁) (h₂ : s₁.Heeds K s₀ s') : s.Heeds K s₀ s' :=
  ⟨h₂.ledger, h₁.more.trans h₂.more⟩

theorem Tends.refl (h : s.Ledger K s₀) : s.Tends K s₀ s := ⟨⟨h, .refl s⟩, fun _ hp => hp⟩

theorem Tends.trans (h₁ : s.Tends K s₀ s₁) (h₂ : s₁.Tends K s₀ s') : s.Tends K s₀ s' :=
  ⟨h₁.toHeeds.trans h₂.toHeeds, fun p hp => h₂.skirts p (h₁.skirts p hp)⟩

theorem Wraps.holds (h : s.Wraps W) : s.Holds W.callee W.function := by
  obtain ⟨d, -, hd, -, hn, -⟩ := h.sits
  exact ⟨d, hd, hn⟩

/-- A path that holds another node is not the path of the function. -/
theorem Wraps.callee_ne (h : s.Wraps W) (hp : s.Holds p n) (hn : n ∉ W.nodes) : W.callee ≠ p := by
  rintro rfl
  exact hn (hp.unique_node h.holds ▸ W.function_mem)

/-- A path that lives in another container is not the path of the function. -/
theorem Wraps.callee_ne_of_container (h : s.Wraps W) {d : PathData}
    (hd : s.paths[p.index]? = some d) (hc : ∀ o, d.container ≠ .slot o) : W.callee ≠ p := by
  rintro rfl
  obtain ⟨e, -, he, hec, -⟩ := h.sits
  obtain rfl := Option.some.inj (hd.symm.trans he)
  exact hc _ hec

theorem Wraps.lt_size (h : s.Wraps W) : W.callee.index < s.paths.size := by
  obtain ⟨d, -, hd, -⟩ := h.sits
  exact (Array.getElem?_eq_some_iff.mp hd).1

/-- A step that reaches nothing of the wrapper in the tree, and leaves the path of the function with
its position and its node. -/
theorem Wraps.step (h : s.Wraps W) (htree : s.tree.Upholds W s'.tree)
    (hpath : ∀ d, s.paths[W.callee.index]? = some d → ∃ d', s'.paths[W.callee.index]? = some d' ∧
      d'.container = d.container ∧ d'.position? = d.position? ∧ d'.node = d.node)
    (hqueue : s'.Queued W.callee → s.Queued W.callee) : s'.Wraps W := by
  refine ⟨htree.wraps, ?_, fun hq => h.idle (hqueue hq)⟩
  obtain ⟨d, pos, hd, hc, hn, hpos, hocc⟩ := h.sits
  obtain ⟨d', hd', hc', hpos', hn'⟩ := hpath d hd
  refine ⟨d', pos, hd', hc'.trans hc, hn'.trans hn, hpos'.trans hpos, ?_⟩
  -- The function stands in a single-node field.
  have hcontainer := Container.position?_container hpos
  rw [hc] at hcontainer
  cases pos with
  | slot m f => exact htree.slots m f _ W.function_mem hocc
  | root | item => cases hcontainer

theorem Ledger.not_mem (h : s.Ledger K s₀) {type : NodeType} (hn : s.tree.type? n = some type)
    (htype : type.isWrapping = false) : ∀ W ∈ K, n ∉ W.nodes :=
  fun W hW => (h.wraps W hW).tree.not_mem hn htype

theorem Ledger.not_mem_below (h : s.Ledger K s₀) {pos : Position} {m : NodeId} {type : NodeType}
    (hn : s.tree.occupant? pos = some n) (hp : pos.parent? = some m)
    (hm : s.tree.type? m = some type) (htype : type.isWrapping = false)
    (hcall : type ≠ .callExpression) : ∀ W ∈ K, n ∉ W.nodes :=
  fun W hW => (h.wraps W hW).tree.not_mem_below hn hp hm htype hcall

theorem Ledger.not_mem_of_size (h : s.Ledger K s₀) (hn : s.tree.size ≤ n.index) :
    ∀ W ∈ K, n ∉ W.nodes := fun W hW hmem =>
  Nat.not_lt_of_le hn ((h.wraps W hW).tree.index_lt hmem)

/-- A path that sits on a node of no wrapper skirts them all. -/
theorem Sits.skirts {c : Container} (h : s.Sits p c n) (hn : ∀ W ∈ K, n ∉ W.nodes) :
    s.Skirts K p := by
  obtain ⟨d, pos, hd, -, hnode, hpos, hocc⟩ := h
  exact ⟨d, pos, n, n, hd, hpos, hnode, hn, hocc, .inr hn⟩

theorem Skirts.holds (h : s.Skirts K p) : ∃ n, s.Holds p n ∧ ∀ W ∈ K, n ∉ W.nodes := by
  obtain ⟨d, -, n, -, hd, -, hn, hmem, -⟩ := h
  exact ⟨n, ⟨d, hd, hn⟩, hmem⟩

theorem Skirts.of_same (h : s.Skirts K p) (htree : s'.tree = s.tree)
    (hpaths : s'.paths[p.index]? = s.paths[p.index]?) : s'.Skirts K p := by
  obtain ⟨d, pos, n, m, hd, hpos, hn, hmem, hocc, hm⟩ := h
  exact ⟨d, pos, n, m, hpaths.trans hd, hpos, hn, hmem, by rw [htree, hocc], hm⟩

/-- A new path is made. -/
theorem Skirts.push (h : s.Skirts K p) {d : PathData} (htree : s'.tree = s.tree)
    (hpaths : s'.paths = s.paths.push d) : s'.Skirts K p := by
  obtain ⟨e, -, -, -, he, -⟩ := id h
  have hlt := (Array.getElem?_eq_some_iff.mp he).1
  exact h.of_same htree (by rw [hpaths, Array.getElem?_push, if_neg (by omega)])

theorem Skirts.modify_of_ne (h : s.Skirts K p) {q : PathId} (f : PathData → PathData) (hq : q ≠ p) :
    Skirts { s with paths := s.paths.modify q.index f } K p :=
  h.of_same rfl (by rw [getElem?_modify_paths, if_neg (Ne.symm hq)])

theorem noted_of_push {d : PathData} (hpaths : s'.paths = s.paths.push d)
    (hd : d.notes = .empty) : ∀ p x, s'.NotesResult p x → s.NotesResult p x := by
  intro p x h
  obtain ⟨e, he, hx⟩ := h
  rw [hpaths, Array.getElem?_push] at he
  split at he
  · obtain rfl := Option.some.inj he
    simp [hd] at hx
  · exact ⟨e, he, hx⟩

/-- Writing to a path adds no result variable to its notes. -/
theorem noted_of_modify {q : PathId} {f : PathData → PathData}
    (hf : ∀ d, (f d).notes = d.notes ∨ (f d).notes = .empty) :
    ∀ p x, NotesResult { s with paths := s.paths.modify q.index f } p x → s.NotesResult p x := by
  intro p x h
  obtain ⟨e, he, hx⟩ := h
  rw [getElem?_modify_paths] at he
  split at he
  · obtain ⟨d, hd, rfl⟩ := Option.map_eq_some_iff.mp he
    rcases hf d with hsame | hnone
    · exact ⟨d, hd, by rwa [hsame] at hx⟩
    · simp [hnone] at hx
  · exact ⟨e, he, hx⟩

end Ledger

end Session

/-! ## Navigation and scopes -/

/-- The path that leads nowhere starts afresh, or is made. -/
theorem detachedAt_cases {s : Session} (hs : s.Tidy) (parent : Option PathId) (k : Key) :
    (∃ (q : PathId) (e : PathData), s.paths[q.index]? = some e ∧ e.container = .detached ∧
      detachedAt parent k s = .ok q
        { s with
          paths := s.paths.modify q.index fun _ =>
            { node := none, parent, container := .detached, key := k } }) ∨
    detachedAt parent k s = .ok ⟨s.paths.size⟩
      { s with
        paths := s.paths.push { node := none, parent, container := .detached, key := k }
        detached := s.detached.insert parent ⟨s.paths.size⟩ } := by
  unfold detachedAt
  rw [run_get_bind]
  cases hget : s.detached.get? parent with
  | some q =>
    obtain ⟨e, he, hec⟩ := hs.strays parent q hget
    exact .inl ⟨q, e, he, hec, bind_of_ok (q.modifyData_run he _)⟩
  | none => exact .inr rfl

/-- The computation leaves frames and result variables as they are, and brings no path nearer to a
wrapper. -/
def Drifting {α : Type} (x : SessionM α) : Prop := Leads (fun s s' => s.Tidy → s'.Tidy ∧
  s'.frames = s.frames ∧ (∀ p x, s'.NotesResult p x → s.NotesResult p x) ∧
  ∀ K p, s.Skirts K p → s'.Skirts K p) x

namespace Drifting

open Session

variable {α : Type}

theorem refl (s : Session) (h : s.Tidy) : s.Tidy ∧ s.frames = s.frames ∧
    (∀ p x, s.NotesResult p x → s.NotesResult p x) ∧ ∀ K p, s.Skirts K p → s.Skirts K p :=
  ⟨h, rfl, fun _ _ hp => hp, fun _ _ hp => hp⟩

theorem trans (s s₁ s₂ : Session)
    (h₁ : s.Tidy → s₁.Tidy ∧ s₁.frames = s.frames ∧ (∀ p x, s₁.NotesResult p x → s.NotesResult p x) ∧
      ∀ K p, s.Skirts K p → s₁.Skirts K p)
    (h₂ : s₁.Tidy → s₂.Tidy ∧ s₂.frames = s₁.frames ∧ (∀ p x, s₂.NotesResult p x → s₁.NotesResult p x) ∧
      ∀ K p, s₁.Skirts K p → s₂.Skirts K p) (h : s.Tidy) :
    s₂.Tidy ∧ s₂.frames = s.frames ∧ (∀ p x, s₂.NotesResult p x → s.NotesResult p x) ∧
      ∀ K p, s.Skirts K p → s₂.Skirts K p :=
  let ⟨ht₁, hf₁, hn₁, hp₁⟩ := h₁ h
  let ⟨ht₂, hf₂, hn₂, hp₂⟩ := h₂ ht₁
  ⟨ht₂, hf₂.trans hf₁, fun p x hx => hn₁ p x (hn₂ p x hx), fun K p hp => hp₂ K p (hp₁ K p hp)⟩

/-- A change of nothing but the scopes. -/
theorem of_scopes {x : SessionM α} (h : ∀ s, ∃ scopes, after x s = { s with scopes }) :
    Drifting x := by
  intro s hs
  obtain ⟨scopes, heq⟩ := h s
  rw [heq]
  exact ⟨hs.of_same rfl rfl rfl, rfl, fun p x hx => hx, fun K p hp => hp.of_same rfl rfl⟩

theorem composed {Primitive : (α : Type) → SessionM α → Prop} {x : SessionM α}
    (hx : Composed Primitive x) (h : ∀ α (x : SessionM α), Primitive α x → Drifting x) :
    Drifting x := hx.leads refl trans h

theorem question {x : SessionM α} (hx : Composed (fun _ _ => False) x) : Drifting x :=
  composed hx fun _ _ h => h.elim

theorem detachedAt (parent : Option PathId) (k : Key) : Drifting (detachedAt parent k) := by
  intro s hs
  refine ⟨(Quiet.detachedAt parent k s hs).tidy, ?_⟩
  rcases detachedAt_cases hs parent k with ⟨q, e, he, hec, hrun⟩ | hrun
  · rw [after_of_ok hrun]
    refine ⟨rfl, noted_of_modify ?_, fun K p hp => hp.modify_of_ne _ ?_⟩
    · exact fun _ => .inr rfl
    rintro rfl
    obtain ⟨d, pos, -, -, hd, hpos, -⟩ := hp
    obtain rfl := Option.some.inj (hd.symm.trans he)
    unfold PathData.position? at hpos
    rw [hec] at hpos
    cases hpos
  · rw [after_of_ok hrun]
    exact ⟨rfl, noted_of_push rfl rfl, fun K p hp => hp.push rfl rfl⟩

/-- A position whose path is known already: the path finds its own node again, or what stands at its
own position. -/
theorem skirts_found {s : Session} (hs : s.Tidy) {parent : Option PathId} {c : Container}
    {k : Key} {o : Option NodeId} (hnode : o = (c.position? k).bind s.tree.occupant?) {q : PathId}
    (hcached : s.cached? c k o = some q) {K : Set Wrapping} {p : PathId} (h : s.Skirts K p) :
    Skirts { s with
      paths := s.paths.modify q.index fun d => { d with parent, key := k, node := o } } K p := by
  by_cases hq : q = p
  · subst hq
    obtain ⟨d, pos, n, m, hd, hpos, hn, hmem, hocc, hm⟩ := h
    obtain ⟨e, he, hec, -⟩ := hs.filed c q (List.mem_of_find?_eq_some hcached)
    obtain rfl := Option.some.inj (hd.symm.trans he)
    have hstands := List.find?_some hcached
    simp only [hd] at hstands
    have hfound : ∀ pos' n', c.position? k = some pos' → o = some n' →
        (∀ W ∈ K, n' ∉ W.nodes) → s.tree.occupant? pos' = some n' →
        Skirts { s with
          paths := s.paths.modify q.index fun d => { d with parent, key := k, node := o } } K q := by
      intro pos' n' hpos' ho hn' hocc'
      refine ⟨{ d with parent, key := k, node := o }, pos', n', n', ?_, ?_, ho, hn', hocc', .inr hn'⟩
      · rw [getElem?_modify_paths, if_pos rfl, hd, Option.map_some]
      · show d.container.position? k = _
        rw [hec, hpos']
    have hkey : (d.key == k) = true → c.position? k = some pos ∧ o = some m := by
      intro hk
      have hpos' : c.position? k = some pos := by
        rw [← eq_of_beq hk, ← hec]
        exact hpos
      exact ⟨hpos', by rw [hnode, hpos', Option.bind_some, hocc]⟩
    unfold PathData.standsFor at hstands
    split at hstands
    · next owner f id =>
      -- An element of a list, which is found by its node.
      obtain rfl := Option.some.inj (hn.symm.trans (eq_of_beq hstands))
      obtain ⟨pos', hpos', hocc'⟩ := Option.bind_eq_some_iff.mp hnode.symm
      exact hfound pos' _ hpos' rfl hmem hocc'
    · next hother =>
      obtain ⟨hpos', ho⟩ := hkey hstands
      refine hfound pos m hpos' ho ?_ hocc
      rcases hm with ⟨owner, f, i, rfl⟩ | hm
      · refine absurd ho fun ho => hother owner f m ?_ ho
        exact (Container.position?_container hpos').symm
      · exact hm
  · exact h.modify_of_ne _ hq

theorem pathFor (parent : Option PathId) (c : Container) (k : Key) :
    Drifting (pathFor parent c k) := by
  by_cases hc : c = .detached
  · unfold Espalier.pathFor
    rw [if_pos hc]
    exact detachedAt parent k
  · intro s hs
    refine ⟨(Quiet.pathFor parent c k s hs).tidy, ?_⟩
    rcases question_cases (.nodeAt c k) s with ⟨e, hnode⟩ | ⟨o, hnode⟩
    · have hrun : Espalier.pathFor parent c k s = .error e s := by
        unfold Espalier.pathFor
        rw [if_neg hc, bind_of_error hnode]
      rw [after_of_error hrun]
      exact ⟨rfl, fun _ _ hx => hx, fun _ _ hp => hp⟩
    · cases hcached : s.cached? c k o with
      | some q =>
        obtain ⟨d, hd, -⟩ := hs.filed c q (List.mem_of_find?_eq_some hcached)
        rw [after_of_ok (pathFor_run_of_cached hc hnode hcached hd)]
        refine ⟨rfl, noted_of_modify ?_, fun K p hp =>
          skirts_found hs (nodeAt_eq_ok hnode) hcached hp⟩
        exact fun _ => .inl rfl
      | none =>
        rw [after_of_ok (pathFor_run_of_new hc hnode hcached)]
        exact ⟨rfl, noted_of_push rfl rfl, fun K p hp => hp.push rfl rfl⟩

theorem charting {x : SessionM α} (hx : Charting x) : Drifting x := by
  refine composed hx fun _ _ step => ?_
  cases step with
  | hop hop =>
    refine composed hop.landing fun _ _ landing => ?_
    cases landing with
    | root => exact pathFor none .root .root
    | nowhere parent => exact pathFor parent .detached .root
    | slot p n f => exact pathFor (some p) (.slot n) (.field f)
    | item p n f i => exact pathFor (some p) (.list n f) (.index i)
  | write g => exact of_scopes fun s => ⟨_, rfl⟩
  | create block parent =>
    refine Leads.bind trans (question (.type? block)) fun _ => ?_
    refine Leads.bind trans (question (.node? block)) fun _ => ?_
    exact of_scopes fun s => ⟨_, rfl⟩

end Drifting

namespace Session.Ledger

variable {s s' : Session} {K : Set Wrapping} {s₀ : Session} {α : Type}

/-- Going through the tree and asking about scopes. -/
theorem charting [Names α] (h : s.Ledger K s₀) {x : SessionM α} (hx : Charting x)
    (hcareful : Careful x s) {a : α} (hrun : x s = .ok a s') : s.Tends K s₀ s' ∧ s'.Knows a := by
  have hseating := Seating.charting hx s h.tidy
  have hdrifting := Drifting.charting hx s h.tidy
  have hends := hcareful h.closed
  rw [after_of_ok hrun] at hseating hdrifting
  rw [hrun] at hends
  obtain ⟨-, htree, hsits⟩ := hseating
  obtain ⟨htidy, hframes, hnoted, hskirts⟩ := hdrifting
  obtain ⟨hmore, hclosed, ha⟩ := hends
  refine ⟨⟨⟨⟨htidy, hclosed, h.grown.trans hmore.nodes, fun W hW => ?_, h.made, h.apart,
    fun p x hx => h.noted p x (hnoted p x hx)⟩, hmore⟩, hskirts K⟩, ha⟩
  obtain ⟨hw, hsit, hidle⟩ := h.wraps W hW
  refine ⟨by rwa [htree], hsits _ _ _ hsit, ?_⟩
  simpa only [Queued, hframes] using hidle

end Session.Ledger

end Espalier
