import Espalier.Proofs.Reduction
import Espalier.Proofs.Relisting

set_option autoImplicit false

/-! # What an expression form is made of

To find the expression form of some statements only adds nodes to the tree, and every node that is
made on the way has children that were made before or stand at or below the statements. Whatever is
kept by such a step, and passes to the new node, holds in the end (`Tree.Stock`). So the form is a
new node, or stands at or below the statements (`reduceStatements_assembles`). -/

namespace Espalier

variable {α β : Type}

namespace Tree

/-- What can become part of an expression form of the nodes: new nodes, and what is at or below the
nodes. -/
def material (t : Tree) (nodes : List NodeId) : Set NodeId :=
  {n | t.contains n = false ∨ n ∈ t.below nodes}

/-- The second tree adds nodes made of the material to the first one. -/
structure Adds (t : Tree) (nodes : List NodeId) (t' : Tree) : Prop where
  grown : t.Grown t'
  closed : ∀ n ∈ t.material nodes, ∀ k, t'.kind? n = some k → ∀ c ∈ k.children, c ∈ t.material nodes

theorem Adds.refl (t : Tree) (nodes : List NodeId) : t.Adds nodes t where
  grown := .refl t
  closed n hn k hk c hc := by
    rcases hn with hnew | hbelow
    · rw [(t.contains_iff n).mpr ⟨k, hk⟩] at hnew
      cases hnew
    · exact .inr (below_child hbelow ((t.isChild_iff n c).mpr ⟨k, hk, hc⟩))

theorem Adds.push {t t' : Tree} {nodes : List NodeId} (h : t.Adds nodes t') {k : NodeKind}
    (hk : ∀ c ∈ k.children, c ∈ t.material nodes) : t.Adds nodes (t'.push { kind := k }) where
  grown := h.grown.trans (.push t' _)
  closed n hn k' hk' := by
    rw [kind?, node?_push] at hk'
    split at hk'
    · rw [← Option.some.inj hk']
      exact hk
    · exact h.closed n hn k' hk'

end Tree

/-- What new nodes are made of: the nodes that may become their children, and a condition on the
tree under which such nodes have only such children. Making a node keeps both. -/
structure Tree.Stock where
  Good : Tree → Prop
  Has : Tree → NodeId → Prop
  grown : ∀ {t t' : Tree} {n : NodeId}, t.Grown t' → Has t n → Has t' n
  /-- Expressions are used as they are. -/
  child : ∀ {t : Tree} {n : NodeId} {k : NodeKind}, Good t → Has t n → t.kind? n = some k →
    k.type.isExpression = false → ∀ c ∈ k.children, Has t c
  push : ∀ {t : Tree} {k : NodeKind}, Good t → (∀ c ∈ k.children, Has t c) →
    Good (t.push { kind := k }) ∧ Has (t.push { kind := k }) ⟨t.size⟩

/-- The material of some nodes is a stock. -/
def Tree.materialStock (t : Tree) (nodes : List NodeId) : Tree.Stock where
  Good := t.Adds nodes
  Has _ n := n ∈ t.material nodes
  grown _ h := h
  child h hn hk _ := h.closed _ hn _ hk
  push h hk := by
    refine ⟨h.push hk, .inl ?_⟩
    have := h.grown.size
    simp only [Tree.contains, decide_eq_false_iff_not]
    omega

/-- In every tree that has grown from `t`, the computation makes nodes from the stock only, and the
condition holds of its value. -/
def TreeM.Assembles (S : Tree.Stock) (t : Tree) (x : TreeM α) (post : α → Tree → Prop) : Prop :=
  ∀ t₁ a t₂, t.Grown t₁ → S.Good t₁ → x.run t₁ = some (a, t₂) →
    t₁.Grown t₂ ∧ S.Good t₂ ∧ post a t₂

/-- The same for a computation that may find that there is no expression form. -/
def ReduceM.Assembles (S : Tree.Stock) (t : Tree) (x : ReduceM α) (post : α → Tree → Prop) : Prop :=
  TreeM.Assembles S t x.run fun o t' => ∀ a, o = some a → post a t'

section Assembles

variable {S : Tree.Stock} {t : Tree}

/-- The nodes are in stock. -/
def Tree.Stock.HasAll (S : Tree.Stock) (t : Tree) (nodes : List NodeId) : Prop :=
  ∀ n ∈ nodes, S.Has t n

theorem Tree.Stock.HasAll.grown {t' : Tree} {nodes : List NodeId} (h : S.HasAll t nodes)
    (hg : t.Grown t') : S.HasAll t' nodes := fun n hn => S.grown hg (h n hn)

namespace TreeM.Assembles

variable {x : TreeM α} {post : α → Tree → Prop} {post' : β → Tree → Prop}

theorem pure {a : α} (h : ∀ t', t.Grown t' → post a t') :
    TreeM.Assembles S t (pure a) post := by
  intro t₁ b t₂ hg ht hrun
  obtain ⟨rfl, rfl⟩ : a = b ∧ t₁ = t₂ := by simpa using hrun
  exact ⟨.refl _, ht, h _ hg⟩

theorem bind {f : α → TreeM β} (hx : TreeM.Assembles S t x post)
    (hf : ∀ a t', t.Grown t' → post a t' → TreeM.Assembles S t' (f a) post') :
    TreeM.Assembles S t (x >>= f) post' := by
  intro t₁ b t₃ hg ht hrun
  rw [StateT.run_bind] at hrun
  obtain ⟨⟨a, t₂⟩, hrun₁, hrun₂⟩ := Option.bind_eq_some_iff.mp hrun
  obtain ⟨hg₁, ht₂, ha⟩ := hx t₁ a t₂ hg ht hrun₁
  obtain ⟨hg₂, ht₃, hb⟩ := hf a t₂ (hg.trans hg₁) ha t₂ b t₃ (.refl _) ht₂ hrun₂
  exact ⟨hg₁.trans hg₂, ht₃, hb⟩

theorem kind {n : NodeId} (hn : S.Has t n) :
    TreeM.Assembles S t (TreeM.kind n) fun k t' =>
      k.type.isExpression = false → S.HasAll t' k.children := by
  intro t₁ k t₂ hg ht hrun
  obtain ⟨hk, rfl⟩ : t₁.kind? n = some k ∧ t₁ = t₂ := by
    simpa [TreeM.kind, Option.bind_eq_some_iff] using hrun
  exact ⟨.refl _, ht, S.child ht (S.grown hg hn) hk⟩

theorem alloc {k : NodeKind} (hk : S.HasAll t k.children) :
    TreeM.Assembles S t (TreeM.alloc k) fun n t' => S.Has t' n := by
  intro t₁ n t₂ hg ht hrun
  obtain ⟨rfl, rfl⟩ : (⟨t₁.size⟩ : NodeId) = n ∧ t₁.push { kind := k } = t₂ := by
    simpa [TreeM.alloc, TreeM.allocNode] using hrun
  obtain ⟨hgood, hhas⟩ := S.push ht (hk.grown hg)
  exact ⟨.push t₁ _, hgood, hhas⟩

theorem undefined : TreeM.Assembles S t TreeM.undefined fun n t' => S.Has t' n :=
  (alloc (by simp [Tree.Stock.HasAll, NodeKind.children, NodeKind.fields])).bind
    fun zero t' _ hzero =>
      alloc (by simpa [Tree.Stock.HasAll, NodeKind.children, NodeKind.fields, Child.ids] using hzero)

end TreeM.Assembles

namespace ReduceM.Assembles

variable {x : ReduceM α} {post : α → Tree → Prop} {post' : β → Tree → Prop}

theorem pure {a : α} (h : ∀ t', t.Grown t' → post a t') : ReduceM.Assembles S t (pure a) post :=
  TreeM.Assembles.pure fun t' hg _ hb => Option.some.inj hb ▸ h t' hg

theorem failure : ReduceM.Assembles S t (failure : ReduceM α) post :=
  TreeM.Assembles.pure (a := none) fun _ _ _ h => by cases h

theorem bind {f : α → ReduceM β} (hx : ReduceM.Assembles S t x post)
    (hf : ∀ a t', t.Grown t' → post a t' → ReduceM.Assembles S t' (f a) post') :
    ReduceM.Assembles S t (x >>= f) post' := by
  unfold ReduceM.Assembles
  rw [OptionT.run_bind, Option.elimM]
  refine TreeM.Assembles.bind hx fun o t' hg ho => ?_
  cases o with
  | none => exact .pure fun _ _ _ h => by cases h
  | some a => exact hf a t' hg (ho a rfl)

theorem lift {x : TreeM α} (hx : TreeM.Assembles S t x post) :
    ReduceM.Assembles S t (liftM x) post := by
  intro t₁ o t₂ hg ht hrun
  simp only [OptionT.run_monadLift, StateT.run_map, monadLift_self] at hrun
  obtain ⟨⟨a, t₃⟩, hx', heq⟩ := Option.map_eq_some_iff.mp hrun
  obtain ⟨rfl, rfl⟩ : some a = o ∧ t₃ = t₂ := by simpa using heq
  obtain ⟨hg₂, ht₂, ha⟩ := hx t₁ a t₃ hg ht hx'
  exact ⟨hg₂, ht₂, fun b hb => Option.some.inj hb ▸ ha⟩

end ReduceM.Assembles

/-! ### The form -/

theorem assembles_addDeclarator {r : Reduction} (hr : S.HasAll t r.expressions) {n : NodeId}
    (hn : S.Has t n) :
    TreeM.Assembles S t (r.addDeclarator n) fun r t' => S.HasAll t' r.expressions := by
  refine (TreeM.Assembles.kind hn).bind fun k t₁ hg₁ hk => ?_
  have hr₁ := hr.grown hg₁
  split
  · next id init =>
    have hid : S.Has t₁ id := hk rfl id (by simp [NodeKind.children, NodeKind.fields, Child.ids])
    have hsearch : TreeM.Assembles S t₁ (do
        let t ← get
        liftM (t.bindingIdentifiers? id false false)) fun _ _ => True := by
      intro t₂ names t₃ hg ht hrun
      obtain ⟨-, rfl⟩ : t₂.bindingIdentifiers? id false false = some names ∧ t₂ = t₃ := by
        simpa [Option.bind_eq_some_iff] using hrun
      exact ⟨.refl _, ht, trivial⟩
    rw [← bind_assoc]
    refine hsearch.bind fun names t₂ hg₂ _ => ?_
    cases init with
    | none => exact .pure fun t' hg => by simpa using (hr₁.grown hg₂).grown hg
    | some value =>
      have hvalue : S.Has t₁ value :=
        hk rfl value (by simp [NodeKind.children, NodeKind.fields, Child.ids])
      have hassign : TreeM.Assembles S t₂
          (Option.mapM (fun init => TreeM.assign id init) (some value))
          fun o t' => ∀ e, o = some e → S.Has t' e := by
        refine (TreeM.Assembles.alloc ?_).bind fun e t₃ _ he =>
          .pure fun t' hg e' h => Option.some.inj h ▸ S.grown hg he
        intro c hc
        obtain rfl | rfl : c = id ∨ c = value := by
          simpa [NodeKind.children, NodeKind.fields, Child.ids] using hc
        · exact S.grown hg₂ hid
        · exact S.grown hg₂ hvalue
      refine hassign.bind fun o t₃ hg₃ ho => .pure fun t' hg e he => ?_
      rcases List.mem_append.mp he with he | he
      · exact S.grown hg (S.grown hg₃ (S.grown hg₂ (hr₁ e he)))
      · exact S.grown hg (ho e (by simpa using he))
  · exact .pure fun t' hg => hr₁.grown hg

theorem assembles_addDeclarators (l : List NodeId) {r : Reduction} (hl : S.HasAll t l)
    (hr : S.HasAll t r.expressions) :
    TreeM.Assembles S t (l.foldlM Reduction.addDeclarator r)
      fun r t' => S.HasAll t' r.expressions := by
  induction l generalizing t r with
  | nil => exact .pure fun t' hg => hr.grown hg
  | cons d l ih =>
    rw [List.foldlM_cons]
    exact (assembles_addDeclarator hr (hl d (by simp))).bind fun r' t₁ hg₁ hr' =>
      ih (fun d hd => S.grown hg₁ (hl d (by simp [hd]))) hr'

theorem assembles_finish {r : Reduction} (hr : S.HasAll t r.expressions) :
    TreeM.Assembles S t r.finish fun r t' => S.Has t' r.expression := by
  unfold Reduction.finish
  extract_lets join
  have hjoin : ∀ es t₁, S.HasAll t₁ es →
      TreeM.Assembles S t₁ (join es) fun r' t' => S.Has t' r'.expression := by
    intro es t₁ hes
    dsimp only [join]
    split
    · exact .pure fun t' hg => S.grown hg (hes _ (by simp))
    · refine (TreeM.Assembles.alloc ?_).bind fun e t₂ _ he => .pure fun t' hg => S.grown hg he
      simpa [NodeKind.children, NodeKind.fields, Child.ids] using hes
  split
  · refine TreeM.Assembles.undefined.bind fun e t₁ hg₁ he => hjoin _ t₁ fun e' he' => ?_
    rcases List.mem_append.mp he' with he' | he'
    · exact S.grown hg₁ (hr e' he')
    · exact List.mem_singleton.mp he' ▸ he
  · exact hjoin _ t hr

theorem Tree.Stock.HasAll.add {r : Reduction} (hr : S.HasAll t r.expressions) {e : NodeId}
    (he : S.Has t e) (names : List String) : S.HasAll t (r.add e names).expressions := by
  intro e' he'
  rcases List.mem_append.mp he' with he' | he'
  · exact hr e' he'
  · exact List.mem_singleton.mp he' ▸ he

section Statement

variable {reduce : List NodeId → ReduceM Reduced}
  (hreduce : ∀ t l, S.HasAll t l →
    ReduceM.Assembles S t (reduce l) fun r t' => S.Has t' r.expression)

include hreduce

theorem assembles_reduceStatement {r : Reduction} (hr : S.HasAll t r.expressions) {n : NodeId}
    (hn : S.Has t n) :
    ReduceM.Assembles S t (reduceStatement reduce r n)
      fun r t' => S.HasAll t' r.expressions := by
  refine (ReduceM.Assembles.lift (TreeM.Assembles.kind hn)).bind fun k t₁ hg₁ hk => ?_
  have hr₁ := hr.grown hg₁
  split
  · exact .pure fun t' hg => (hr₁.grown hg).add (S.grown hg (S.grown hg₁ hn)) []
  · split
    · next expression _ =>
      have he : S.Has t₁ expression :=
        hk rfl _ (by simp [NodeKind.children, NodeKind.fields, Child.ids])
      exact .pure fun t' hg => (hr₁.grown hg).add (S.grown hg he) []
    · next declarations _ =>
      have hdeclarations : S.HasAll t₁ declarations := by
        simpa [Tree.Stock.HasAll, NodeKind.children, NodeKind.fields, Child.ids] using hk rfl
      exact (ReduceM.Assembles.lift (assembles_addDeclarators declarations hdeclarations hr₁)).bind
        fun r' t₂ _ hr' => .pure fun t' hg => hr'.grown hg
    · next test consequent alternate _ =>
      have htest : S.Has t₁ test :=
        hk rfl test (by simp [NodeKind.children, NodeKind.fields, Child.ids])
      have hyes : S.Has t₁ consequent :=
        hk rfl consequent (by simp [NodeKind.children, NodeKind.fields, Child.ids])
      refine (hreduce t₁ [consequent] fun n hn => List.mem_singleton.mp hn ▸ hyes).bind
        fun yes t₂ hg₂ hyes => ?_
      have hchoice : ∀ (no : Reduced) (t₃ : Tree), t₂.Grown t₃ → S.Has t₃ no.expression →
          ReduceM.Assembles S t₃ (do
            let choice ← TreeM.alloc (.conditionalExpression test yes.expression no.expression)
            pure (r.add choice (yes.declared ++ no.declared)) : ReduceM Reduction)
            fun r t' => S.HasAll t' r.expressions := by
        intro no t₃ hg₃ hno
        refine (ReduceM.Assembles.lift (TreeM.Assembles.alloc ?_)).bind fun e t₄ hg₄ he =>
          .pure fun t' hg => ((((hr₁.grown hg₂).grown hg₃).grown hg₄).grown hg).add
            (S.grown hg he) _
        intro c hc
        obtain rfl | rfl | rfl : c = test ∨ c = yes.expression ∨ c = no.expression := by
          simpa [NodeKind.children, NodeKind.fields, Child.ids] using hc
        · exact S.grown hg₃ (S.grown hg₂ htest)
        · exact S.grown hg₃ hyes
        · exact hno
      cases alternate with
      | some alternate =>
        have hno : S.Has t₁ alternate :=
          hk rfl alternate (by simp [NodeKind.children, NodeKind.fields, Child.ids])
        exact (hreduce t₂ [alternate] fun n hn => List.mem_singleton.mp hn ▸ S.grown hg₂ hno).bind
          fun no t₃ hg₃ hno => hchoice no t₃ hg₃ hno
      | none =>
        refine (ReduceM.Assembles.lift TreeM.Assembles.undefined).bind fun e t₃ hg₃ he => ?_
        have hmissing : ReduceM.Assembles S t₃ (pure ⟨e, []⟩ : ReduceM Reduced)
            fun no t' => S.Has t' no.expression := .pure fun t' hg => S.grown hg he
        exact hmissing.bind fun no t₄ hg₄ hno => hchoice no t₄ (hg₃.trans hg₄) hno
    · next body _ =>
      have hbody : S.HasAll t₁ body := by
        simpa [Tree.Stock.HasAll, NodeKind.children, NodeKind.fields, Child.ids] using hk rfl
      exact (hreduce t₁ body hbody).bind fun inner t₂ hg₂ hinner =>
        .pure fun t' hg => ((hr₁.grown hg₂).grown hg).add (S.grown hg hinner) _
    · exact .pure fun t' hg => hr₁.grown hg
    · exact .failure

theorem assembles_reduceStatements (l : List NodeId) {r : Reduction} (hl : S.HasAll t l)
    (hr : S.HasAll t r.expressions) :
    ReduceM.Assembles S t (l.foldlM (reduceStatement reduce) r)
      fun r t' => S.HasAll t' r.expressions := by
  induction l generalizing t r with
  | nil => exact .pure fun t' hg => hr.grown hg
  | cons n l ih =>
    rw [List.foldlM_cons]
    exact (assembles_reduceStatement hreduce hr (hl n (by simp))).bind fun r' t₁ hg₁ hr' =>
      ih (fun m hm => S.grown hg₁ (hl m (by simp [hm]))) hr'

end Statement

theorem assembles_reduceWithin (fuel : Nat) {l : List NodeId} (hl : S.HasAll t l) :
    ReduceM.Assembles S t (reduceWithin fuel l) fun r t' => S.Has t' r.expression := by
  induction fuel generalizing t l with
  | zero =>
    intro t₁ o t₂ _ _ hrun
    cases hrun
  | succ fuel ih =>
    refine (assembles_reduceStatements (fun t l hl => ih hl) l hl ?_).bind fun r t₁ _ hr =>
      .lift (assembles_finish hr)
    intro e he
    cases he

/-- A search for an expression form that ends makes nodes from the stock only. -/
theorem Tree.Stock.reduceStatements (S : Tree.Stock) {nodes : List NodeId} (hgood : S.Good t)
    (hnodes : S.HasAll t nodes) {o : Option Reduced} {t' : Tree}
    (hrun : (reduceStatements nodes).run t = some (o, t')) :
    t.Grown t' ∧ S.Good t' ∧ ∀ r, o = some r → S.Has t' r.expression :=
  assembles_reduceWithin t.depthBound hnodes t o t' (.refl t) hgood hrun

/-- Looking for an expression form adds to the tree only. The form is a new node, or stands at or
below the statements. -/
theorem reduceStatements_assembles {nodes : List NodeId} {o : Option Reduced} {t' : Tree}
    (hrun : (reduceStatements nodes).run t = some (o, t')) :
    t.Grown t' ∧ ∀ r, o = some r → r.expression ∈ t.material nodes := by
  obtain ⟨hg, -, hform⟩ := (t.materialStock nodes).reduceStatements (.refl t nodes)
    (fun n hn => .inr (t.mem_below hn)) hrun
  exact ⟨hg, hform⟩

end Assembles

end Espalier
