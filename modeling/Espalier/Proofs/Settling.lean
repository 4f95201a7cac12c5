import Espalier.Proofs.Callers
import Espalier.Proofs.Pursuit
import Espalier.Proofs.Trails

set_option autoImplicit false

/-! # What stands for itself

A search for what an expression stands for makes a trail of paths (`PathId.resolveWithin_ended`). It
goes on from a declarator to its value, from a name to the declaration, and from a cast to what is
cast. What is found at the end is handed back, unless an identifier is inside of it: then that is the
result. In a program that can be written down no scope is built on the way, so a search from the
result follows the same trail and has the same result (`PathId.resolve_settles`). Where a function
stands for the body of a `catch` clause, a search does build its scope, and the next one finds other
variables (`caughtProgram_drifts`). -/

namespace Espalier

open SessionM Session

/-! ## What is gone on to -/

/-- Where a search goes on: to a known path, or to the path of a field, which holds a node unless the
field is empty. -/
inductive Aim
  | path (q : PathId)
  | field (o : Option NodeId)

/-- Where the search for what a path stands for goes on, unless it ends there. -/
def PathId.aim? (p : PathId) : SessionM (Option Aim) := do
  match ← p.kind? with
  | some (.variableDeclarator id init) => do
    pure (if (← ask fun t => t.type? id) == .identifier then some (.field init) else none)
  | some (.identifier ..) =>
    if ← p.isReferencedIdentifier then
      match ← p.binding? with
      | none => pure none
      | some binding =>
        if !binding.isConstant || binding.kind == .module || binding.path == p then pure none
        else pure (some (.path binding.path))
    else pure none
  | some (.typeCastExpression expression _) => pure (some (.field (some expression)))
  | _ => pure none

namespace Session

/-- The path is known, and holds the node if there is one. -/
def Shows (s : Session) (p : PathId) (o : Option NodeId) : Prop :=
  ∃ d, s.paths[p.index]? = some d ∧ d.node = o

/-- The path holds a node. -/
def HoldsSome (s : Session) (p : PathId) : Prop := ∃ n, s.Holds p n

/-- The path is where a search goes on. -/
def Attains (s : Session) : Aim → PathId → Prop
  | .path r, q => q = r
  | .field o, q => s.Shows q o

/-- The search goes on from the one path to the other. -/
def GoesOn (s : Session) (p q : PathId) : Prop :=
  ∃ a, p.aim? s = .ok (some a) s ∧ s.Attains a q

/-- The search ends at the path. -/
def Rests (s : Session) (p : PathId) : Prop := p.aim? s = .ok none s

/-- The one path holds an identifier, and the other holds that or something around it. -/
def Bars (s : Session) (p q : PathId) : Prop :=
  ∃ n m x declared, s.Holds p n ∧ s.tree.kind? n = some (.identifier x declared) ∧ s.Holds q m ∧
    s.tree.Contains m n

section Aim

variable {s s' : Session} {K : Set NodeId} {p q r : PathId} {n : NodeId} {o : Option NodeId}

theorem Shows.unique {o' : Option NodeId} (h : s.Shows p o) (h' : s.Shows p o') : o = o' := by
  obtain ⟨d, hd, rfl⟩ := h
  obtain ⟨d', hd', rfl⟩ := h'
  rw [Option.some.inj (hd.symm.trans hd')]

/-- What a path shows it shows also after navigation. -/
theorem Shows.went (h : s.Shows p o) (hs : s.Sound K) (hw : s.Went K s') : s'.Shows p o := by
  obtain ⟨d, hd, rfl⟩ := h
  obtain ⟨d', hd', -⟩ := hw.grew.kept p d hd
  refine ⟨d', hd', Option.ext fun n => ?_⟩
  have hiff := hw.grew.holds_iff hs hd n
  constructor
  · intro hn
    obtain ⟨e, he, hen⟩ := hiff.mp ⟨d', hd', hn⟩
    rwa [Option.some.inj (hd.symm.trans he)]
  · intro hn
    obtain ⟨e, he, hen⟩ := hiff.mpr ⟨d, hd, hn⟩
    rwa [Option.some.inj (hd'.symm.trans he)]

theorem Attains.went {a : Aim} (h : s.Attains a q) (hs : s.Sound K) (hw : s.Went K s') :
    s'.Attains a q := by
  cases a with
  | path r => exact h
  | field o => exact Shows.went h hs hw

/-- What is around an identifier is so before and after navigation. -/
theorem bars_iff_of_went (hs : s.Sound K) (hw : s.Went K s') (hp : s.Shows p (some n))
    (hq : s.Shows q o) : s'.Bars p q ↔ s.Bars p q := by
  obtain ⟨d, hd, -⟩ := hp
  obtain ⟨e, he, -⟩ := hq
  unfold Bars
  simp only [hw.tree, hw.grew.holds_iff hs hd, hw.grew.holds_iff hs he]

/-- What is barred at an identifier in place of something that was barred is the identifier. -/
theorem Bars.eq (hs : s.Sound K) (h : s.Bars q r) (h' : s.Bars p q) : p = q := by
  obtain ⟨m, -, x, declared, hq, hk, -, -⟩ := h
  obtain ⟨n, m', -, -, hp, -, hq', hcontains⟩ := h'
  obtain rfl := hq.unique_node hq'
  -- Nothing is below an identifier.
  rcases hcontains.cases_head with rfl | ⟨c, hc, -⟩
  · exact hs.holder_unique hp hq
  · obtain ⟨k, hk', hmem⟩ := (s.tree.isChild_iff m c).mp hc
    obtain rfl := Option.some.inj (hk.symm.trans hk')
    simp [NodeKind.children, NodeKind.fields] at hmem

end Aim

end Session

namespace PathId

section Aim

variable {s s' : Session} {K : Set NodeId} {p : PathId} {n : NodeId}

/-- What is asked for its kind holds a node of that kind, or none. -/
theorem kind?_eq_ok {o : Option NodeKind} (hrun : p.kind? s = .ok o s') :
    (o = none ∧ s.Shows p none) ∨ ∃ n k, o = some k ∧ s.Holds p n ∧ s.tree.kind? n = some k := by
  obtain ⟨node, s₁, hnode, hask⟩ := bind_eq_ok hrun
  obtain ⟨d, s₂, hdata, hpure⟩ := bind_eq_ok hnode
  obtain ⟨rfl, hd⟩ := data_eq_ok hdata
  obtain ⟨rfl, rfl⟩ := EStateM.Result.ok.inj hpure
  cases hdn : d.node with
  | none =>
    rw [hdn] at hask
    exact .inl ⟨(EStateM.Result.ok.inj hask).1.symm, d, hd, hdn⟩
  | some n =>
    rw [hdn] at hask
    obtain ⟨k, s₃, hk, hpure⟩ := bind_eq_ok hask
    obtain ⟨-, hk⟩ := ask_eq_ok hk
    exact .inr ⟨n, k, (EStateM.Result.ok.inj hpure).1.symm, ⟨d, hd, hdn⟩, hk⟩

/-- A path that is gone on from holds a node. -/
theorem holds_of_aim? {a : Aim} (hrun : p.aim? s = .ok (some a) s') : ∃ n, s.Holds p n := by
  obtain ⟨k, s₁, hkind, hrest⟩ := bind_eq_ok (f := fun _ => _) hrun
  rcases kind?_eq_ok hkind with ⟨rfl, -⟩ | ⟨n, -, -, hp, -⟩
  · cases hrest
  · exact ⟨n, hp⟩

theorem kind?_went {o : Option NodeKind} (hs : s.Sound K) (hw : s.Went K s')
    (hrun : p.kind? s = .ok o s) : p.kind? s' = .ok o s' := by
  rcases kind?_eq_ok hrun with ⟨rfl, hp⟩ | ⟨n, k, rfl, hp, hk⟩
  · obtain ⟨d, hd, hdn⟩ := hp.went hs hw
    exact kind?_run_of_empty hd hdn
  · exact kind?_run_of_holds (hw.grew.holds hs hp) (by rw [hw.tree]; exact hk)

/-- Whether an identifier is read does not change while navigating. -/
theorem isReferencedIdentifier_went {v : Bool} {x : String} {declared : Option ValueType}
    (hs : s.Sound K) (hw : s.Went K s') (hp : s.Holds p n)
    (hk : s.tree.kind? n = some (.identifier x declared))
    (hrun : p.isReferencedIdentifier s = .ok v s) : p.isReferencedIdentifier s' = .ok v s' := by
  obtain ⟨pos, d, hpos, hf, hocc⟩ := hs.files_of_holds hp
  obtain ⟨d', hf', -⟩ := hw.grew.files hf
  obtain ⟨v₁, hrun₁, hv₁⟩ := isReferencedIdentifier_run_of_files hs hf hpos hocc hk
  rw [← hw.tree] at hocc hk hv₁
  obtain ⟨v₂, hrun₂, hv₂⟩ := isReferencedIdentifier_run_of_files hw.sound hf' hpos hocc hk
  obtain ⟨rfl, -⟩ := EStateM.Result.ok.inj (hrun₁.symm.trans hrun)
  rw [hrun₂, show v₂ = v₁ from Bool.eq_iff_iff.mpr (hv₂.trans hv₁.symm)]

/-- What a name refers to does not change while navigating. -/
theorem binding?_went {o : Option Binding} {x : String} {declared : Option ValueType}
    (h : s.Charted K) (hprogram : s.tree.IsProgram) (hw : s.Went K s') (hp : s.Holds p n)
    (hk : s.tree.kind? n = some (.identifier x declared)) (hrun : p.binding? s = .ok o s) :
    p.binding? s' = .ok o s' := by
  have h' := h.went hw
  obtain ⟨b, i, hb, hi, hlookup⟩ := h.binding?_run hp hk
  obtain ⟨b', i', hb', hi', hlookup'⟩ :=
    h'.binding?_run (hw.grew.holds h.sound hp) (by rw [hw.tree]; exact hk)
  rw [hw.tree] at hb'
  obtain rfl := hprogram.scopeAt_unique hb hb'
  rw [hw.scopes, hi] at hi'
  obtain rfl := Option.some.inj hi'
  obtain ⟨o₁, hrun₁, ho₁⟩ := ScopeId.binding?_run h.ordered (h.ordered.byBlock b i hi) x
  obtain ⟨o₂, hrun₂, ho₂⟩ := ScopeId.binding?_run h'.ordered
    (h'.ordered.byBlock b i (by rw [hw.scopes]; exact hi)) x
  obtain ⟨rfl, -⟩ := EStateM.Result.ok.inj ((hlookup.symm.trans hrun).symm.trans hrun₁)
  rw [hlookup', hrun₂]
  congr 1
  refine Option.ext fun v => (ho₂ v).trans (Iff.trans ?_ (ho₁ v).symm)
  have hfinds : ∀ j, s'.Finds x i (some j) ↔ s.Finds x i (some j) := fun j =>
    ⟨fun hj => hj.of_scopes hw.scopes.symm, fun hj => hj.of_scopes hw.scopes⟩
  simp only [hfinds, hw.scopes]

/-- Where the search goes on does not change while navigating. -/
theorem aim?_went {o : Option Aim} (h : s.Charted K) (hprogram : s.tree.IsProgram)
    (hw : s.Went K s') (hrun : p.aim? s = .ok o s) : p.aim? s' = .ok o s' := by
  obtain ⟨k, s₁, hkind, hrest⟩ := bind_eq_ok hrun
  obtain rfl := question_run (.kind? p) hkind
  have hkind' := kind?_went h.sound hw hkind
  refine (bind_of_ok hkind').trans ?_
  split at hrest
  · obtain ⟨type, s₂, htype, hpure⟩ := bind_eq_ok hrest
    obtain ⟨rfl, htype⟩ := ask_eq_ok htype
    cases hpure
    exact bind_of_ok (ask_run (by rw [hw.tree]; exact htype))
  · rcases kind?_eq_ok hkind with ⟨hnone, -⟩ | ⟨n, k, hsome, hp, hk⟩
    · cases hnone
    cases hsome
    obtain ⟨v, s₂, hread, hrest⟩ := bind_eq_ok hrest
    obtain rfl := question_run (.isReferencedIdentifier p) hread
    refine (bind_of_ok (isReferencedIdentifier_went h.sound hw hp hk hread)).trans ?_
    cases v with
    | false =>
      cases hrest
      rfl
    | true =>
      obtain ⟨b, s₃, hbinding, hrest⟩ := bind_eq_ok hrest
      have hsame : s₃ = s₂ := (after_of_ok hbinding).symm.trans (h.after_binding? p)
      rw [hsame] at hbinding hrest
      refine (bind_of_ok (binding?_went h hprogram hw hp hk hbinding)).trans ?_
      cases b with
      | none =>
        cases hrest
        rfl
      | some binding =>
        dsimp only at hrest ⊢
        split at hrest <;> cases hrest <;> simp_all
  · cases hrest
    rfl
  · cases hrest
    rfl

end Aim

/-! ## The trail of a search -/

section Trail

variable {s s' : Session} {K : Set NodeId} {p : PathId} {n : NodeId} {o : Option PathId}
  {seen seen' : List PathId} {inner : PathId → ResolveM (Option PathId)}

/-- On the way up from a path a node is found if it is around the node of the path. -/
theorem find?_holding_run (h : s.Charted K) (hp : s.Holds p n) {b : Option NodeId}
    (hb : ∀ m, b = some m → m ∈ K) : ∃ r, (p.find? fun q => do pure ((← q.node?) == b)) s = .ok r s ∧
      (r.isSome = true ↔ ∃ m, b = some m ∧ s.tree.Contains m n) := by
  obtain ⟨l, hl⟩ := h.sound.exists_ancestry (h.reachable hp) hp
  obtain ⟨r, hrun, hr⟩ := climbWithin_holding_run h.sound hl b s.paths.size (hl.length_le h.sound)
  refine ⟨r, hrun, hr.trans ⟨?_, ?_⟩⟩
  · rintro ⟨q, hq, m, hm, rfl⟩
    obtain ⟨m', hm', hcontains⟩ := hl.above hp hq
    exact ⟨m, rfl, hm.unique_node hm' ▸ hcontains⟩
  · rintro ⟨m, rfl, hcontains⟩
    obtain ⟨q, hq, hm⟩ := exists_holder h.sound hl hp (hb m rfl) hcontains
    exact ⟨q, hq, m, hm, rfl⟩

/-- What was found further on is handed back, unless it is around an identifier. -/
def HandsOn (K : Set NodeId) (s : Session) (p target : PathId) (o : Option PathId) : Prop :=
  ∀ s', s.Went K s' → o = some target ∧ ¬ s'.Bars p target ∨ o = none ∧ s'.Bars p target

/-- A path that holds no identifier hands on what was found. -/
theorem handsOn_of_kind {k : NodeKind} (hs : s.Sound K) (hp : s.Holds p n)
    (hk : s.tree.kind? n = some k) (hkind : k.identifierName? = none) (target : PathId) :
    HandsOn K s p target (some target) := by
  intro s' hw
  refine .inl ⟨rfl, ?_⟩
  rintro ⟨n', -, x, declared, hp', hk', -, -⟩
  obtain rfl := (hw.grew.holds hs hp).unique_node hp'
  rw [hw.tree, hk] at hk'
  obtain rfl := Option.some.inj hk'
  cases hkind

theorem resolveOrSelf_eq_ok {target : PathId}
    (hrun : (resolveOrSelf inner p).run seen s = .ok (target, seen') s') :
    ∃ o, (inner p).run seen s = .ok (o, seen') s' ∧ target = o.getD p := by
  obtain ⟨o, seen₁, s₁, hinner, hpure⟩ := Memory.bind_eq_ok hrun
  obtain ⟨hpair, rfl⟩ := EStateM.Result.ok.inj hpure
  obtain ⟨rfl, rfl⟩ := Prod.mk.inj hpair
  exact ⟨o, hinner, rfl⟩

/-- The result of a search that went on is an answer. -/
theorem resolveSome_eq_ok
    (hrun : (do pure (some (← resolveOrSelf inner p)) : ResolveM (Option PathId)).run seen s =
      .ok (o, seen') s') :
    ∃ o', (inner p).run seen s = .ok (o', seen') s' ∧ o = some (o'.getD p) := by
  obtain ⟨target, seen₁, s₁, hself, hpure⟩ := Memory.bind_eq_ok hrun
  obtain ⟨o', hinner, rfl⟩ := resolveOrSelf_eq_ok hself
  obtain ⟨hpair, rfl⟩ := EStateM.Result.ok.inj hpure
  obtain ⟨rfl, rfl⟩ := Prod.mk.inj hpair
  exact ⟨o', hinner, rfl⟩

/-- The path of a single-node field shows what is in the field. -/
theorem child_shows {f : Field} {q : PathId} (hs : s.Sound K) (hp : s.Holds p n)
    (hrun : p.child f s = .ok q s') :
    s.Went K s' ∧ s'.Shows q (s.tree.occupant? (.slot n f)) := by
  obtain ⟨hwent, hknown, -⟩ := (child_arrives hs hp f).of_eq_ok hrun
  exact ⟨hwent, hknown⟩

/-- A search from a path ended there, or went on with `inner` and handed on what that found. -/
def Proceeded (K : Set NodeId) (inner : PathId → ResolveM (Option PathId)) (p : PathId)
    (seen : List PathId) (s : Session) (o : Option PathId) (seen' : List PathId) (s' : Session) :
    Prop :=
  p.aim? s = .ok none s ∧ o = none ∨ ∃ a q s₁ o', p.aim? s = .ok (some a) s ∧ s.Went K s₁ ∧
    s₁.Attains a q ∧ (inner q).run seen s₁ = .ok (o', seen') s' ∧ HandsOn K s' p (o'.getD q) o

section Step

variable (h : s.Charted K) (hp : s.Holds p n)
  (hinner : ∀ q s s' seen seen' o, s.Charted K → (inner q).run seen s = .ok (o, seen') s' →
    s.Went K s')

include h hp hinner

theorem resolveDeclarator_proceeded {id : NodeId} {init : Option NodeId}
    (hk : s.tree.kind? n = some (.variableDeclarator id init))
    (hrun : (resolveDeclarator inner p).run seen s = .ok (o, seen') s') :
    Proceeded K inner p seen s o seen' s' := by
  obtain ⟨idPath, s₁, hid, hrest⟩ := Memory.lift_bind_eq_ok hrun
  obtain ⟨h₁, hidPath⟩ := child_shows h.sound hp hid
  have hshown : s₁.Holds idPath id := by
    rwa [show s.tree.occupant? (.slot n .id) = some id by
      simp [Tree.occupant?, Tree.field?, hk, NodeKind.child?, NodeKind.fields, Child.node?]]
      at hidPath
  obtain ⟨kid, hkid⟩ := h₁.sound.forest.kind id (h₁.sound.mem_of_holds hshown)
  have hkid₀ : s.tree.type? id = some kid.type := Tree.type?_of_kind (by rw [← h₁.tree]; exact hkid)
  have haim : p.aim? s =
      .ok (if kid.type == .identifier then some (.field init) else none) s :=
    (bind_of_ok (kind?_run_of_holds hp hk)).trans (bind_of_ok (ask_run hkid₀))
  obtain ⟨v, s₂, his, hrest⟩ := Memory.lift_bind_eq_ok hrest
  have his' : idPath.is .identifier s₁ = .ok (some kid.type == some .identifier) s₁ :=
    bind_of_ok (type?_run_of_holds hshown hkid)
  obtain ⟨rfl, rfl⟩ := EStateM.Result.ok.inj (his'.symm.trans his)
  by_cases hplain : kid.type = .identifier
  · rw [if_pos (by simpa using hplain)] at hrest haim
    obtain ⟨initPath, s₂, hinit, hrest⟩ := Memory.lift_bind_eq_ok hrest
    have hp₁ := h₁.grew.holds h.sound hp
    obtain ⟨h₂, hinitPath⟩ := child_shows h₁.sound hp₁ hinit
    have hshows : s₂.Shows initPath init := by
      rwa [show s₁.tree.occupant? (.slot n .init) = init by
        simp [Tree.occupant?, Tree.field?, hk, h₁.tree, NodeKind.child?, NodeKind.fields,
          Child.node?]] at hinitPath
    obtain ⟨o', hfound, rfl⟩ := resolveSome_eq_ok hrest
    have h₂ := h₁.trans h₂
    have hw := h₂.trans (hinner _ _ _ _ _ _ (h.went h₂) hfound)
    exact .inr ⟨_, initPath, s₂, o', haim, h₂, hshows, hfound, handsOn_of_kind hw.sound
      (hw.grew.holds h.sound hp) (by rw [hw.tree]; exact hk) rfl _⟩
  · rw [if_neg (by simpa using hplain)] at hrest haim
    cases hrest
    exact .inl ⟨haim, rfl⟩

theorem resolveCast_proceeded {expression : NodeId} {declared : ValueType}
    (hk : s.tree.kind? n = some (.typeCastExpression expression declared))
    (hrun : (do
      let expression ← p.child .expression
      pure (some (← resolveOrSelf inner expression)) : ResolveM (Option PathId)).run seen s =
        .ok (o, seen') s') : Proceeded K inner p seen s o seen' s' := by
  obtain ⟨q, s₁, hchild, hrest⟩ := Memory.lift_bind_eq_ok hrun
  obtain ⟨h₁, hq⟩ := child_shows h.sound hp hchild
  have hshows : s₁.Shows q (some expression) := by
    rwa [show s.tree.occupant? (.slot n .expression) = some expression by
      simp [Tree.occupant?, Tree.field?, hk, NodeKind.child?, NodeKind.fields, Child.node?]] at hq
  obtain ⟨o', hfound, rfl⟩ := resolveSome_eq_ok hrest
  have hw := h₁.trans (hinner _ _ _ _ _ _ (h.went h₁) hfound)
  exact .inr ⟨_, q, s₁, o', bind_of_ok (kind?_run_of_holds hp hk), h₁, hshows, hfound,
    handsOn_of_kind hw.sound (hw.grew.holds h.sound hp) (by rw [hw.tree]; exact hk) rfl _⟩

theorem resolveIdentifier_proceeded {x : String} {declared : Option ValueType}
    (hk : s.tree.kind? n = some (.identifier x declared))
    (hread : p.isReferencedIdentifier s = .ok true s)
    (hrun : (resolveIdentifier inner p).run seen s = .ok (o, seen') s') :
    Proceeded K inner p seen s o seen' s' := by
  obtain ⟨b, s₁, hbinding, hrest⟩ := Memory.lift_bind_eq_ok hrun
  obtain rfl : s₁ = s := (after_of_ok hbinding).symm.trans (h.after_binding? p)
  cases b with
  | none =>
    cases hrest
    refine .inl ⟨(bind_of_ok (kind?_run_of_holds hp hk)).trans ?_, rfl⟩
    exact (bind_of_ok hread).trans (bind_of_ok hbinding)
  | some binding =>
    have haim : p.aim? s₁ =
        (if !binding.isConstant || binding.kind == .module || binding.path == p then pure none
          else pure (some (.path binding.path)) : SessionM (Option Aim)) s₁ := by
      refine (bind_of_ok (kind?_run_of_holds hp hk)).trans ?_
      refine (bind_of_ok hread).trans ?_
      exact bind_of_ok hbinding
    dsimp only at hrest
    split at hrest
    · next hstop =>
      rw [if_pos hstop] at haim
      cases hrest
      exact .inl ⟨haim, rfl⟩
    · next hgo =>
      rw [if_neg hgo] at haim
      obtain ⟨target, seen₁, s₂, hself, hasked⟩ := Memory.bind_eq_ok hrest
      obtain ⟨o', hfound, rfl⟩ := resolveOrSelf_eq_ok hself
      have hw := hinner _ _ _ _ _ _ h hfound
      have hp₂ := hw.grew.holds h.sound hp
      have h₂ := h.went hw
      obtain ⟨node, s₃, hnode, hsought⟩ := Memory.lift_bind_eq_ok hasked
      obtain rfl := question_run (.node? _) hnode
      have hshown : s₃.Shows (o'.getD binding.path) node := by
        obtain ⟨d, s₄, hdata, hpure⟩ := bind_eq_ok hnode
        obtain ⟨rfl, hd⟩ := data_eq_ok hdata
        exact ⟨d, hd, (EStateM.Result.ok.inj hpure).1⟩
      obtain ⟨r, hr, hfinds⟩ := find?_holding_run h₂ hp₂ (b := node)
        fun m hm => h₂.sound.mem_of_holds (hm ▸ hshown)
      obtain ⟨enclosing, s₄, hfind, hpure⟩ := Memory.lift_bind_eq_ok hsought
      obtain ⟨rfl, rfl⟩ := EStateM.Result.ok.inj (hr.symm.trans hfind)
      obtain ⟨hpair, rfl⟩ := EStateM.Result.ok.inj hpure
      obtain ⟨rfl, rfl⟩ := Prod.mk.inj hpair
      refine .inr ⟨_, binding.path, s₁, o', haim, .refl h.sound, rfl, hfound, fun s' hw' => ?_⟩
      have hbars : r.isSome = true ↔ s'.Bars p (o'.getD binding.path) := by
        rw [bars_iff_of_went h₂.sound hw' hp₂ hshown, hfinds]
        constructor
        · rintro ⟨m, rfl, hcontains⟩
          exact ⟨n, m, x, declared, hp₂, by rw [hw.tree]; exact hk, hshown, hcontains⟩
        · rintro ⟨n', m, -, -, hp', -, hm, hcontains⟩
          obtain rfl := hp₂.unique_node hp'
          exact ⟨m, hshown.unique hm, hcontains⟩
      cases hsome : r.isSome with
      | true => exact .inr ⟨rfl, hbars.mp hsome⟩
      | false => exact .inl ⟨rfl, fun hbar => by simp [hbars.mpr hbar] at hsome⟩

end Step

/-- A search from a path ends there, or goes on, and hands on what is found. -/
theorem resolveAnew_proceeded (h : s.Charted K)
    (hinner : ∀ q s s' seen seen' o, s.Charted K → (inner q).run seen s = .ok (o, seen') s' →
      s.Went K s')
    (hrun : (resolveAnew inner false p).run seen s = .ok (o, seen') s') :
    Proceeded K inner p seen s o seen' s' := by
  obtain ⟨k, s₁, hkind, hrest⟩ := Memory.lift_bind_eq_ok hrun
  obtain rfl := question_run (.kind? p) hkind
  rcases kind?_eq_ok hkind with ⟨rfl, -⟩ | ⟨n, k, rfl, hp, hk⟩
  · cases hrest
    exact .inl ⟨bind_of_ok hkind, rfl⟩
  split at hrest
  · next hsome =>
    cases hsome
    exact resolveDeclarator_proceeded h hp hinner hk hrest
  · next x declared hsome =>
    cases hsome
    obtain ⟨v, s₂, hread, hrest⟩ := Memory.lift_bind_eq_ok hrest
    obtain rfl := question_run (.isReferencedIdentifier p) hread
    cases v with
    | true => exact resolveIdentifier_proceeded h hp hinner hk hread hrest
    | false =>
      cases hrest
      exact .inl ⟨(bind_of_ok hkind).trans (bind_of_ok hread), rfl⟩
  · next hsome =>
    cases hsome
    exact resolveCast_proceeded h hp hinner hk hrest
  · next hsome =>
    cases hsome
    cases hrest
    exact .inl ⟨bind_of_ok hkind, rfl⟩
  · next hnot₁ hnot₂ hnot₃ _ =>
    cases hrest
    refine .inl ⟨(bind_of_ok hkind).trans ?_, rfl⟩
    cases k with
    | variableDeclarator => exact (hnot₁ _ _ rfl).elim
    | identifier => exact (hnot₂ _ _ rfl).elim
    | typeCastExpression => exact (hnot₃ _ _ rfl).elim
    | _ => rfl

/-- A whole search makes a trail, along which the result is handed back. -/
theorem resolveWithin_ended {fuel : Nat} (h : s.Charted K) (hprogram : s.tree.IsProgram)
    (hrun : (resolveWithin false fuel p).run seen s = .ok (o, seen') s') :
    s.Went K s' ∧ ∀ s₁, s'.Went K s₁ → ∃ l e, Ended s₁.GoesOn s₁.Rests seen p l e ∧
      HandsBack s₁.Bars e l (o.getD p) := by
  refine ⟨h.searching (Following.resolveWithin false fuel p seen) hrun, ?_⟩
  induction fuel generalizing p seen s o seen' s' with
  | zero => cases hrun
  | succ fuel ih =>
    intro s₁ hs₁
    by_cases hmem : p ∈ seen
    · rw [resolveWithin_run_of_mem hmem] at hrun
      cases hrun
      exact ⟨[], p, ⟨.here p, List.nodup_nil, by simp, .inl hmem⟩, .last⟩
    rw [resolveWithin_run_of_not_mem hmem] at hrun
    have hinner : ∀ q s s' seen seen' o, s.Charted K →
        (resolveWithin false fuel q).run seen s = .ok (o, seen') s' → s.Went K s' :=
      fun q s s' seen seen' o h hrun => h.searching (Following.resolveWithin false fuel q seen) hrun
    rcases resolveAnew_proceeded h hinner hrun with ⟨haim, rfl⟩ |
      ⟨a, q, s₂, o', haim, h₂, hq, hfound, hhands⟩
    · have hw := h.searching (Following.resolveWithin false (fuel + 1) p seen)
        ((resolveWithin_run_of_not_mem hmem).trans hrun)
      have hrests : s₁.Rests p := aim?_went h hprogram (hw.trans hs₁) haim
      exact ⟨[], p, ⟨.here p, List.nodup_nil, by simp, .inr (.inr hrests)⟩, .last⟩
    · have hw := h₂.trans (hinner _ _ _ _ _ _ (h.went h₂) hfound)
      obtain ⟨l, e, hended, hback⟩ := ih (h.went h₂) (by rw [h₂.tree]; exact hprogram) hfound s₁ hs₁
      have hgoes : s₁.GoesOn p q := ⟨a, aim?_went h hprogram (hw.trans hs₁) haim,
        hq.went h₂.sound ((hinner _ _ _ _ _ _ (h.went h₂) hfound).trans hs₁)⟩
      have hp : p ∉ l := fun hp => hended.fresh p hp List.mem_cons_self
      refine ⟨p :: l, e, ⟨.on hgoes hended.trail, List.nodup_cons.mpr ⟨hp, hended.nodup⟩, ?_, ?_⟩, ?_⟩
      · intro y hy
        rcases List.mem_cons.mp hy with rfl | hy
        · exact hmem
        · exact fun hseen => hended.fresh y hy (List.mem_cons_of_mem p hseen)
      · have hstop := hended.stop
        rw [List.mem_cons] at hstop ⊢
        tauto
      · rcases hhands s₁ hs₁ with ⟨rfl, hbars⟩ | ⟨rfl, hbars⟩
        · exact .kept hback hbars
        · exact .barred hback hbars

end Trail

/-- In a session of a program that can be written down, what a path stands for stands for itself. -/
theorem resolve_again {s s₁ s₂ : Session} {K : Set NodeId} {p q r : PathId} (h : s.Charted K)
    (hprogram : s.tree.IsProgram) (hp : p.resolve false s = .ok q s₁)
    (hq : q.resolve false s₁ = .ok r s₂) : r = q := by
  have hended : ∀ {s s' : Session} {p q : PathId}, s.Charted K → s.tree.IsProgram →
      p.resolve false s = .ok q s' → s.Went K s' ∧ ∀ s₁, s'.Went K s₁ → ∃ l e,
        Ended s₁.GoesOn s₁.Rests [] p l e ∧ HandsBack s₁.Bars e l q := by
    intro s s' p q h hprogram hrun
    unfold resolve at hrun
    rw [run_get_bind] at hrun
    obtain ⟨⟨o, seen⟩, s₁, hwithin, hpure⟩ := bind_eq_ok hrun
    obtain ⟨rfl, rfl⟩ := EStateM.Result.ok.inj hpure
    exact resolveWithin_ended h hprogram hwithin
  obtain ⟨hw₁, hfirst⟩ := hended h hprogram hp
  obtain ⟨hw₂, hsecond⟩ := hended (h.went hw₁) (by rw [hw₁.tree]; exact hprogram) hq
  obtain ⟨l, e, htrail, hback⟩ := hfirst s₂ hw₂
  obtain ⟨l', e', htrail', hback'⟩ := hsecond s₂ (.refl hw₂.sound)
  have hs := hw₂.sound
  have hstops : ∀ x y, s₂.Rests x → ¬ s₂.GoesOn x y := by
    rintro x y hrests ⟨a, haim, -⟩
    cases hrests.symm.trans haim
  have hfirm : ∀ x y, s₂.GoesOn x y → s₂.HoldsSome x := by
    rintro x y ⟨a, haim, -⟩
    exact holds_of_aim? haim
  have hnext : ∀ x y y', s₂.GoesOn x y → s₂.GoesOn x y' → s₂.HoldsSome y → y = y' := by
    rintro x y y' ⟨a, haim, hy⟩ ⟨a', haim', hy'⟩ ⟨n, hn⟩
    obtain ⟨hsame, -⟩ := EStateM.Result.ok.inj (haim.symm.trans haim')
    obtain rfl := Option.some.inj hsame
    cases a with
    | path z => exact hy.trans hy'.symm
    | field o =>
      obtain rfl := Shows.unique hy hn
      exact hs.holder_unique hn hy'
  have hbars : ∀ v w x, s₂.Bars v w → s₂.Bars x v → x = v := fun v w x hv hx => hv.eq hs hx
  have hbarred : ∀ v w, s₂.Bars v w → s₂.HoldsSome w := by
    rintro v w ⟨-, m, -, -, -, -, hw, -⟩
    exact ⟨m, hw⟩
  exact Ended.handsBack_again hstops hfirm hnext hbars hbarred htrail hback htrail' hback'

/-- In a program whose scopes were built and whose tree was not edited, what a path stands for is
found, whichever variables are defined by each other, and with or without looking into literal
objects. If the program can be written down, then what it stands for stands for itself. -/
theorem resolve_settles {t : Tree} {s : Session} (ht : t.IsProgram) (hclosed : t.Closed)
    (hs : s.Consulted t) {p : PathId} (hp : s.Knows p) :
    (∀ dangerous, ∃ q s', p.resolve dangerous s = .ok q s') ∧
      (t.Grammatical → ∀ q s', p.resolve false s = .ok q s' → ∃ s'', q.resolve false s' = .ok q s'') := by
  obtain ⟨hsurveyed, htree⟩ := hs.surveyed ht hclosed
  constructor
  · intro dangerous
    obtain ⟨q, s', hrun, -⟩ := resolve_returns hsurveyed hp dangerous
    exact ⟨q, s', hrun⟩
  · intro hgrammar q s' hrun
    obtain ⟨q', s₁, hrun', h₁, hq⟩ := resolve_returns hsurveyed hp false
    obtain ⟨rfl, rfl⟩ := EStateM.Result.ok.inj (hrun'.symm.trans hrun)
    obtain ⟨r, s₂, hagain, -⟩ := resolve_returns h₁.surveyed hq false
    obtain ⟨hpassable, -⟩ := hs.passable ht hgrammar hclosed
    obtain rfl := resolve_again hpassable.toCharted (by rw [htree]; exact ht) hrun hagain
    exact ⟨s₂, hagain⟩

end PathId

/-! ## Examples -/

/-- The program `var a = b, b = a; a;`. -/
def roundProgram : Tree where
  nodes := #[{ kind := .identifier "b" none }, { kind := .identifier "a" none },
    { kind := .variableDeclarator ⟨1⟩ (some ⟨0⟩) }, { kind := .identifier "a" none },
    { kind := .identifier "b" none }, { kind := .variableDeclarator ⟨4⟩ (some ⟨3⟩) },
    { kind := .variableDeclaration .var [⟨2⟩, ⟨5⟩] }, { kind := .identifier "a" none },
    { kind := .expressionStatement ⟨7⟩ }, { kind := .program [⟨6⟩, ⟨8⟩] [] }]
  root := some ⟨9⟩

theorem roundProgram_isProgram : roundProgram.IsProgram :=
  .of_bottomUp (by decide) (by decide) (by decide) (by decide)

/-- The session after the crawl. The last statement reads `a` at path 9, the first declarator reads
`b` at path 6. -/
def roundStart : Session :=
  after ensureScopes { tree := roundProgram, config := { lazyScopes := true } }

/-- The variables are defined by each other, and `a` stands for the `b` it is defined by. -/
theorem roundProgram_settles : roundProgram.IsProgram ∧ roundProgram.Closed ∧
    roundProgram.Grammatical ∧ roundStart.Consulted roundProgram ∧ roundStart.Holds ⟨9⟩ ⟨7⟩ ∧
    (∃ q s', PathId.resolve ⟨9⟩ true roundStart = .ok q s') ∧
    ∃ s' s'', PathId.resolve ⟨9⟩ false roundStart = .ok ⟨6⟩ s' ∧
      PathId.resolve ⟨6⟩ false s' = .ok ⟨6⟩ s'' := by
  have hgrammar : roundProgram.Grammatical := .of_plain (by decide)
  have hclosed : roundProgram.Closed := .of_nodes (by decide) (by decide)
  have hopen : Session.open? roundProgram { lazyScopes := true } =
    .ok { tree := roundProgram, config := { lazyScopes := true } } := rfl
  have hconsulted : roundStart.Consulted roundProgram :=
    .crawled hopen (eq_ok_of_value? (x := ensureScopes) (a := ()) (by decide +kernel))
  have hnode : roundStart.paths[9]?.bind PathData.node = some ⟨7⟩ := by decide +kernel
  have hheld : roundStart.Holds ⟨9⟩ ⟨7⟩ := Option.bind_eq_some_iff.mp hnode
  obtain ⟨d, hd, -⟩ := id hheld
  obtain ⟨hends, hsettles⟩ :=
    PathId.resolve_settles roundProgram_isProgram hclosed hconsulted (knows_of_data hd)
  have hrun := eq_ok_of_value? (x := PathId.resolve ⟨9⟩ false) (a := ⟨6⟩) (s := roundStart)
    (by decide +kernel)
  obtain ⟨s'', hagain⟩ := hsettles hgrammar ⟨6⟩ _ hrun
  exact ⟨roundProgram_isProgram, hclosed, hgrammar, hconsulted, hheld, hends true, _, s'', hrun,
    hagain⟩

/-- The tree `try {} catch function (x) { var k = function () { x; }, m = k; } var x = m;`, in which a
function stands for the body of the `catch` clause. -/
def caughtProgram : Tree where
  nodes := #[{ kind := .identifier "x" none }, { kind := .expressionStatement ⟨0⟩ },
    { kind := .blockStatement [⟨1⟩] }, { kind := .functionExpression none [] ⟨2⟩ false false none },
    { kind := .identifier "k" none }, { kind := .variableDeclarator ⟨4⟩ (some ⟨3⟩) },
    { kind := .identifier "k" none }, { kind := .identifier "m" none },
    { kind := .variableDeclarator ⟨7⟩ (some ⟨6⟩) },
    { kind := .variableDeclaration .var [⟨5⟩, ⟨8⟩] }, { kind := .identifier "x" none },
    { kind := .blockStatement [⟨9⟩] },
    { kind := .functionExpression none [⟨10⟩] ⟨11⟩ false false none },
    { kind := .catchClause none ⟨12⟩ }, { kind := .blockStatement [] },
    { kind := .tryStatement ⟨14⟩ (some ⟨13⟩) none }, { kind := .identifier "m" none },
    { kind := .identifier "x" none }, { kind := .variableDeclarator ⟨17⟩ (some ⟨16⟩) },
    { kind := .variableDeclaration .var [⟨18⟩] }, { kind := .program [⟨15⟩, ⟨19⟩] [] }]
  root := some ⟨20⟩

/-- The session after the crawl. The inner function reads `x` at path 17, and the parameter of the
outer one has the path 7. -/
def caughtStart : Session :=
  after ensureScopes { tree := caughtProgram, config := { lazyScopes := true } }

/-- The first search comes to the variable `x` of the program and goes on to the inner function, which
encloses the read. On the way it builds the scope of the outer function, and the next search finds
the parameter. -/
theorem caughtProgram_drifts : caughtProgram.IsProgram ∧ caughtProgram.Closed ∧
    caughtStart.Consulted caughtProgram ∧ caughtStart.Holds ⟨17⟩ ⟨0⟩ ∧
    ∃ s' s'', PathId.resolve ⟨17⟩ false caughtStart = .ok ⟨17⟩ s' ∧
      PathId.resolve ⟨17⟩ false s' = .ok ⟨7⟩ s'' := by
  have hopen : Session.open? caughtProgram { lazyScopes := true } =
    .ok { tree := caughtProgram, config := { lazyScopes := true } } := rfl
  have hconsulted : caughtStart.Consulted caughtProgram :=
    .crawled hopen (eq_ok_of_value? (x := ensureScopes) (a := ()) (by decide +kernel))
  have hnode : caughtStart.paths[17]?.bind PathData.node = some ⟨0⟩ := by decide +kernel
  have hfirst := eq_ok_of_value? (x := PathId.resolve ⟨17⟩ false) (a := ⟨17⟩) (s := caughtStart)
    (by decide +kernel)
  have hsecond := eq_ok_of_value? (x := PathId.resolve ⟨17⟩ false) (a := ⟨7⟩)
    (s := after (PathId.resolve ⟨17⟩ false) caughtStart) (by decide +kernel)
  exact ⟨.of_bottomUp (by decide) (by decide) (by decide) (by decide),
    .of_nodes (by decide) (by decide), hconsulted, Option.bind_eq_some_iff.mp hnode, _, _, hfirst,
    hsecond⟩

end Espalier
