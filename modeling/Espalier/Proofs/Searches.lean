import Espalier.Proofs.Placing
import Espalier.Proofs.Questions
import Espalier.Proofs.Roaming

set_option autoImplicit false

/-! # Searches through a session

To find what a name stands for, and which of two paths is executed first, a session looks into its
scopes. Where a path is in a block without a scope, the scope is built. Apart from that and from the
paths that are made on the way, a search leaves the session as it is, whichever path it starts from
(`Surveying`). -/

namespace Espalier

open SessionM Session

variable {α β : Type}

/-! ## The scope of any path -/

section Scope

variable {s s' : Session} {K : Set NodeId} {p : PathId}

/-- An answer on the way up is the answer of some path. -/
theorem PathId.climbWithin_eq_some {answer : PathId → SessionM (Option α)}
    (ha : ∀ q, Navigating (answer q)) {fuel : Nat} {start : Option PathId} {a : α} (hs : s.Sound K)
    (hrun : PathId.climbWithin answer fuel start s = .ok (some a) s') :
    ∃ q s₀, s.Went K s₀ ∧ answer q s₀ = .ok (some a) s' := by
  induction fuel generalizing s start with
  | zero => cases start <;> cases hrun
  | succ fuel ih =>
    cases start with
    | none => cases hrun
    | some p =>
      rw [PathId.climbWithin] at hrun
      obtain ⟨o, s₁, ho, hrest⟩ := bind_eq_ok hrun
      have h₁ : s.Went K s₁ := (ha p).went hs ho
      cases o with
      | some b =>
        obtain ⟨rfl, rfl⟩ : b = a ∧ s₁ = s' := by simpa using hrest
        exact ⟨p, s, .refl hs, ho⟩
      | none =>
        obtain ⟨parent, s₂, hparent, hup⟩ := bind_eq_ok hrest
        have h₂ : s₁.Went K s₂ := Navigating.went (.parent? p) h₁.sound hparent
        obtain ⟨q, s₀, h₀, hq⟩ := ih h₂.sound hup
        exact ⟨q, s₀, (h₁.trans h₂).trans h₀, hq⟩

/-- The block around a path is held by the path that was found with it, and opens a scope. -/
theorem PathId.scopeBlock?_went {o : Option (PathId × NodeId)} (hs : s.Sound K)
    (hrun : p.scopeBlock? s = .ok o s') : s.Went K s' ∧ ∀ q n, o = some (q, n) →
      s'.Holds q n ∧ (s.tree.Reachable n → s.tree.Opens n) := by
  refine ⟨(Charting.scopeBlock? p).went hs hrun, ?_⟩
  -- The answer comes from one of the paths on the way up, after some navigation.
  intro q n ho
  subst ho
  obtain ⟨r, s₀, h₀, hr⟩ := PathId.climbWithin_eq_some Charting.blockAt? hs hrun
  obtain ⟨node, s₁, hnode, hrest⟩ := bind_eq_ok hr
  cases node with
  | none => cases hrest
  | some node =>
    obtain ⟨rfl, hholds⟩ := PathId.holds_of_node? hnode
    obtain ⟨v, s₂, hv, hanswer⟩ := bind_eq_ok hrest
    have h₂ : s₁.Went K s₂ := Navigating.went (.isScopeBlock r) h₀.sound hv
    injection hanswer with hfound hs₂
    subst hs₂
    cases v with
    | false => cases hfound
    | true =>
      obtain ⟨rfl, rfl⟩ := Prod.mk.inj (Option.some.inj hfound)
      refine ⟨h₂.grew.holds h₀.sound hholds, fun hreach => ?_⟩
      rw [← h₀.tree] at hreach ⊢
      obtain ⟨pos, hw, hl, hocc⟩ := h₀.sound.linked_of_reachable hholds hreach
      obtain ⟨k, hk⟩ := h₀.sound.forest.kind node (h₀.sound.mem_of_holds hholds)
      obtain ⟨v, hrun, -, hopens⟩ := PathId.isScopeBlock_run h₀.sound
        (Position.within_mono (fun m hm => h₀.sound.forest.mem_of_reachable hm) hw) hl hocc hk
      obtain ⟨rfl, -⟩ := EStateM.Result.ok.inj (hrun.symm.trans hv)
      exact (hopens hw).mp rfl

/-- The scope around everything else is there, or made for the root. -/
theorem outermostScope_returns (h : s.Orderly K) :
    Returns outermostScope s fun i s' => s.Surveys K s' ∧ s'.HasScope i := by
  unfold outermostScope
  rw [Returns, run_get_bind]
  cases hroot : s.scopes.root with
  | some i => exact ⟨i, s, rfl, .refl h.sound h.ordered, h.ordered.root i hroot⟩
  | none =>
    obtain ⟨r, hr, -⟩ := h.program.root
    refine Returns.bind (pathFor_returns .root h.sound (fun p hp => by simp at hp) rfl)
      fun p s₁ hp => ?_
    obtain ⟨d, hf, -⟩ := hp.files
    have hpr : s₁.Holds p r := hf.holds (by rw [hp.tree]; exact hr)
    have h₁ := hp.toWent.surveys h.ordered
    refine (createScope_walked (G := False) h₁.sound h₁.ordered hpr none (by simp) False.elim
      False.elim).mono fun i s₂ hi => ?_
    exact ⟨h₁.trans hi.1.toSurveys, hi.2.hasScope⟩

/-- Whatever path its scope is asked for, the session only adds paths and scopes. -/
theorem scopeWithin_surveys {fuel : Nat} {i : ScopeId} (h : s.Orderly K)
    (hrun : scopeWithin fuel p s = .ok i s') : s.Surveys K s' ∧ s'.HasScope i := by
  induction fuel generalizing s p i s' with
  | zero => cases hrun
  | succ fuel ih =>
    rw [scopeWithin] at hrun
    obtain ⟨o, s₁, hblock, hrest⟩ := bind_eq_ok hrun
    obtain ⟨hwent, hholds⟩ := PathId.scopeBlock?_went h.sound hblock
    have h₁ := hwent.surveys h.ordered
    have horderly := h.surveys h₁
    cases o with
    | none =>
      -- The scope around everything else is there, or made for the root.
      obtain ⟨h₂, hi⟩ := (outermostScope_returns horderly).of_eq_ok hrest
      exact ⟨h₁.trans h₂, hi⟩
    | some block =>
      obtain ⟨q, m⟩ := block
      obtain ⟨hq, -⟩ := hholds q m rfl
      dsimp only at hrest
      rw [run_get_bind] at hrest
      cases hget : s₁.scopes.byBlock.get? m with
      | some j =>
        rw [hget] at hrest
        injection hrest with hij hs₁
        subst hij hs₁
        exact ⟨h₁, h₁.ordered.byBlock m j hget⟩
      | none =>
        rw [hget] at hrest
        obtain ⟨up, s₃, hup, hparent⟩ := bind_eq_ok hrest
        have h₃ := (Navigating.went (.parent? q) h₁.sound hup).surveys h₁.ordered
        -- The scope around the block is known before the block is crawled.
        have hcrawl : ∀ parent s₂, s₁.Surveys K s₂ → (∀ j, parent = some j → s₂.HasScope j) →
            crawlScope q parent s₂ = .ok i s' → s.Surveys K s' ∧ s'.HasScope i := by
          intro parent s₂ h₂ hscope hcrawl
          obtain ⟨hi, u, s₃, h₃, hset⟩ := (crawlScope_settles (G := False) h₂.sound h₂.ordered
            (h₂.grew.holds h₁.sound hq) parent hscope False.elim False.elim False.elim
            False.elim).of_eq_ok hcrawl
          exact ⟨(h₁.trans (h₂.trans h₃.toSurveys)).trans (hset.surveys h₃.sound h₃.ordered),
            hi.hasScope⟩
        cases up with
        | none => exact hcrawl none s₃ h₃ (by simp) hparent
        | some r =>
          obtain ⟨j, s₄, hj, hrest⟩ := bind_eq_ok hparent
          obtain ⟨h₄, hscope⟩ := ih (horderly.surveys h₃) hj
          refine hcrawl (some j) s₄ (h₃.trans h₄) (fun j' hj' => ?_) hrest
          rw [← Option.some.inj hj']
          exact hscope

end Scope

/-! ## Looking for names -/

/-- Only a path that holds a node has a name. -/
theorem PathId.holds_of_name {s s' : Session} {p : PathId} {x : String}
    (hname : p.identifierName? s = .ok (some x) s') : ∃ n, s.Holds p n := by
  obtain ⟨k, s₁, hkind, hx⟩ := bind_eq_ok hname
  obtain ⟨node, s₂, hnode, hask⟩ := bind_eq_ok hkind
  cases node with
  | none =>
    cases hask
    cases hx
  | some n => exact ⟨n, (PathId.holds_of_node? hnode).2⟩

/-- In an orderly session whose scopes are built, the computation only adds paths and scopes. -/
def Surveying (x : SessionM α) : Prop :=
  ∀ (s s' : Session) (K : Set NodeId) (a : α), s.Orderly K → s.scopes.crawled = true →
    x s = .ok a s' → s.Surveys K s'

namespace Surveying

theorem of_navigating {x : SessionM α} (hx : Navigating x) : Surveying x :=
  fun _ _ _ _ h _ hrun => (hx.went h.sound hrun).surveys h.ordered

theorem bind {x : SessionM α} {f : α → SessionM β} (hx : Surveying x)
    (hf : ∀ a, Surveying (f a)) : Surveying (x >>= f) := by
  intro s s' K b h hcrawled hrun
  obtain ⟨a, s₁, ha, hb⟩ := bind_eq_ok hrun
  have h₁ := hx s s₁ K a h hcrawled ha
  exact h₁.trans (hf a s₁ s' K b (h.surveys h₁) (h₁.widened.crawled.trans hcrawled) hb)

end Surveying

theorem Surveying.scope (p : PathId) : Surveying p.scope := by
  intro s s' K i h hcrawled hrun
  unfold PathId.scope at hrun
  rw [bind_of_ok (ensureScopes_run hcrawled), run_get_bind] at hrun
  exact (scopeWithin_surveys h hrun).1

theorem Surveying.binding? (p : PathId) : Surveying p.binding? := by
  refine .bind (.of_navigating (Composed.identifierName? p)) fun o => ?_
  cases o with
  | none => exact .of_navigating (.pure _)
  | some name => exact .bind (.scope p) fun i => .of_navigating (.scopeBinding? i name)

/-- Whatever a search does, it only adds paths and scopes. -/
theorem Searching.surveying {x : SessionM α} (hx : Searching x) : Surveying x := by
  induction hx with
  | primitive glance =>
    cases glance with
    | hop hop => exact .of_navigating (.primitive hop)
    | lookup p => exact .binding? p
  | pure a => exact .of_navigating (.pure a)
  | throw e => exact .of_navigating (.throw e)
  | get => exact .of_navigating .get
  | bind _ _ ihx ihf => exact .bind ihx ihf

theorem Surveying.resolve (p : PathId) : Surveying (p.resolve false) :=
  (Searching.resolve p false).surveying

theorem Surveying.executesBefore (p q : PathId) : Surveying (p.executesBefore q) :=
  (Searching.executesBefore p q).surveying

/-! ## Where every block has its scope -/

namespace Session

/-- The scopes of the tree are built, and every block has its own. Only what can be reached has
children: of what left the tree there are single nodes at most. -/
structure Charted (s : Session) (K : Set NodeId) : Prop extends Rooted s K where
  crawled : s.scopes.crawled = true
  blocks : ∀ b, s.tree.Reachable b → s.tree.Opens b → ∃ i, s.scopes.byBlock.get? b = some i
  parents : ∀ m n, m ∈ K → s.tree.IsChild m n → s.tree.Reachable m

section Charted

variable {s s' : Session} {K : Set NodeId} {p : PathId} {n : NodeId} {i : ScopeId} {x : String}

/-- What a path holds is in the tree. -/
theorem Charted.reachable (h : s.Charted K) (hp : s.Holds p n) : s.tree.Reachable n := by
  obtain ⟨pos, d, hw, hf, hocc⟩ := h.sound.files_of_holds hp
  cases hpos : pos.parent? with
  | none =>
    cases pos with
    | root => exact .root hocc
    | slot | item => cases hpos
  | some m =>
    have hc : s.tree.IsChild m n := ⟨pos, hpos, hocc⟩
    exact .child (h.parents m n (hw m hpos) hc) hc

theorem Charted.went (h : s.Charted K) (hw : s.Went K s') : s'.Charted K where
  toRooted := h.toRooted.surveys (hw.surveys h.ordered)
  crawled := by rw [hw.scopes, h.crawled]
  blocks := by rw [hw.tree, hw.scopes]; exact h.blocks
  parents := by rw [hw.tree]; exact h.parents

/-- The scope of a path is that of the block around it. -/
theorem Charted.scope_run (h : s.Charted K) (hp : s.Holds p n) :
    ∃ b i, s.tree.ScopeAt n b ∧ s.scopes.byBlock.get? b = some i ∧ p.scope s = .ok i s := by
  have hn := h.reachable hp
  obtain ⟨l, hl⟩ := h.sound.exists_ancestry hn hp
  obtain ⟨q, b, -, hfound, hq, -, -, hb⟩ := PathId.scopeBlock?_run h.sound h.root hl hp
  obtain ⟨-, hopens⟩ := (PathId.scopeBlock?_went h.sound hfound).2 q b rfl
  have hreach := h.reachable hq
  obtain ⟨i, hi⟩ := h.blocks b hreach (hopens hreach)
  refine ⟨b, i, hb, hi, ?_⟩
  unfold PathId.scope
  rw [bind_of_ok (ensureScopes_run h.crawled), run_get_bind]
  unfold scopeWithin
  rw [bind_of_ok hfound]
  dsimp only
  rw [run_get_bind, hi]
  rfl

/-- What the name at a path refers to is looked up in the scope of the block around it. -/
theorem Charted.binding?_run (h : s.Charted K) (hp : s.Holds p n) {declared : Option ValueType}
    (hk : s.tree.kind? n = some (.identifier x declared)) :
    ∃ b i, s.tree.ScopeAt n b ∧ s.scopes.byBlock.get? b = some i ∧
      p.binding? s = i.binding? x s := by
  obtain ⟨b, i, hb, hi, hscope⟩ := h.scope_run hp
  refine ⟨b, i, hb, hi, ?_⟩
  have hname : p.identifierName? s = .ok (some x) s := by
    unfold PathId.identifierName?
    rw [bind_of_ok (PathId.kind?_run_of_holds hp hk)]
    rfl
  unfold PathId.binding?
  rw [bind_of_ok hname]
  exact bind_of_ok hscope

/-- What has a name is looked up by it in a scope that is there. -/
theorem Charted.exists_scope_of_name (h : s.Charted K)
    (hname : p.identifierName? s = .ok (some x) s') :
    ∃ i, s.HasScope i ∧ p.binding? s = i.binding? x s := by
  obtain rfl : s' = s := question_run (.identifierName? p) hname
  obtain ⟨n, hp⟩ := PathId.holds_of_name hname
  obtain ⟨b, i, -, hi, hscope⟩ := h.scope_run hp
  exact ⟨i, h.ordered.byBlock b i hi, (bind_of_ok hname).trans (bind_of_ok hscope)⟩

/-- No scope is built when a name is looked up. -/
theorem Charted.binding? (h : s.Charted K) {o : Option Binding} (hrun : p.binding? s = .ok o s') :
    s.Went K s' := by
  have hasked := hrun
  unfold PathId.binding? at hasked
  obtain ⟨name, s₁, hname, hrest⟩ := bind_eq_ok hasked
  obtain rfl : s₁ = s := question_run (.identifierName? p) hname
  cases name with
  | none =>
    cases hrest
    exact .refl h.sound
  | some x =>
    obtain ⟨i, -, hlookup⟩ := h.exists_scope_of_name hname
    obtain rfl := question_run (.scopeBinding? i x) (hlookup.symm.trans hrun)
    exact .refl h.sound

/-- A search is no more than navigation. -/
theorem Charted.searching {x : SessionM α} (hx : Searching x) {a : α} (h : s.Charted K)
    (hrun : x s = .ok a s') : s.Went K s' := by
  induction hx generalizing s s' with
  | primitive glance =>
    cases glance with
    | hop hop => exact Navigating.went (.primitive hop) h.sound hrun
    | lookup p => exact h.binding? hrun
  | pure b => exact Navigating.went (.pure b) h.sound hrun
  | throw e => exact Navigating.went (.throw e) h.sound hrun
  | get => exact Navigating.went .get h.sound hrun
  | bind _ _ ihx ihf =>
    obtain ⟨b, s₁, hb, hrest⟩ := bind_eq_ok hrun
    have h₁ := ihx h hb
    exact h₁.trans (ihf b (h.went h₁) hrest)

end Charted

end Session

end Espalier
