import Espalier.Proofs.Answers
import Espalier.Proofs.Constants
import Espalier.Proofs.Sequencing

set_option autoImplicit false

/-! # Order across functions

What is executed inside a function declaration of the program is placed by the calls of the
function: something outside is executed before it only if it is executed before all calls. The calls
are those that the binding of the name lists, looked up from inside the function. Where the function
does not declare its own name once more, that is the binding of the program, and the answer never
overlooks a call (`PathId.precedes_calls`). Where it does, another binding is asked, and a call may
come first (`shadowingProgram_overlooks`). -/

namespace Espalier

open SessionM Session

/-! ## Runs that were examined -/

namespace PathId

section Agreement

variable {s s' : Session} {K : Set NodeId} {underway underway' : List NodeId} {f : NodeId}
  {statusAt : PathId → OrderM ExecutionStatus} {status : ExecutionStatus}

/-- Calls agree on a status only if each one that is not inside the function has it. -/
theorem agreement_eq_some (hstatus : ∀ q, Following (statusAt q)) {agreed : Option ExecutionStatus}
    {calls : List PathId} (h : s.Charted K)
    (hrun : (agreement f statusAt agreed calls).run underway s = .ok (some status, underway') s') :
    (agreed = none ∨ agreed = some status) ∧ ∀ call ∈ calls, ∃ s₁, s.Went K s₁ ∧
      ((∃ s₂, call.isInside f s₁ = .ok true s₂) ∨
        ∃ l l' s₂, (statusAt call).run l s₁ = .ok (status, l') s₂) := by
  induction calls generalizing agreed s underway with
  | nil =>
    obtain ⟨hpair, -⟩ := EStateM.Result.ok.inj hrun
    exact ⟨.inr (Prod.mk.inj hpair).1, by simp⟩
  | cons call calls ih =>
    rw [agreement] at hrun
    obtain ⟨isCall, s₁, hcall, hrun⟩ := Memory.lift_bind_eq_ok hrun
    have h₁ := h.searching (.isCallee call) hcall
    cases isCall with
    | false => cases hrun
    | true =>
      obtain ⟨recursive, s₂, hinside, hrun⟩ := Memory.lift_bind_eq_ok hrun
      have h₂ := h₁.trans ((h.went h₁).searching (.isInside call f) hinside)
      cases recursive with
      | true =>
        obtain ⟨hagreed, hcalls⟩ := ih (h.went h₂) hrun
        refine ⟨hagreed, fun q hq => ?_⟩
        rcases List.mem_cons.mp hq with rfl | hq
        · exact ⟨s₁, h₁, .inl ⟨s₂, hinside⟩⟩
        · obtain ⟨s₃, h₃, hq⟩ := hcalls q hq
          exact ⟨s₃, h₂.trans h₃, hq⟩
      | false =>
        obtain ⟨found, l, s₃, hfound, hrun⟩ := Memory.bind_eq_ok hrun
        have h₃ := h₂.trans ((h.went h₂).searching (hstatus call underway) hfound)
        split at hrun
        · cases hrun
        · next hplain =>
          obtain ⟨hagreed, hcalls⟩ := ih (h.went h₃) hrun
          obtain rfl : found = status := by simpa using hagreed
          refine ⟨?_, fun q hq => ?_⟩
          · -- What was agreed on before is the same.
            cases agreed with
            | none => exact .inl rfl
            | some earlier =>
              have hsame : earlier = found := by
                by_contra hne
                exact hplain (.inr (by simpa using hne))
              exact .inr (congrArg some hsame)
          · rcases List.mem_cons.mp hq with rfl | hq
            · exact ⟨s₂, h₂, .inr ⟨underway, l, s₃, hfound⟩⟩
            · obtain ⟨s₄, h₄, hq⟩ := hcalls q hq
              exact ⟨s₄, h₃.trans h₄, hq⟩

end Agreement

/-- What is found while a function is examined. -/
theorem examining_eq_ok {α : Type} {s s' : Session} {underway underway' : List NodeId} {f : NodeId}
    {x : OrderM α} {a : α} (hrun : (examining f x).run underway s = .ok (a, underway') s') :
    ∃ underway₁, x.run (underway ++ [f]) s = .ok (a, underway₁) s' ∧
      underway' = underway₁.filter (· != f) := by
  obtain ⟨_, underway₁, s₁, hpush, hexamined⟩ := Memory.bind_eq_ok hrun
  obtain ⟨b, underway₂, s₂, hx, hdone⟩ := Memory.bind_eq_ok hexamined
  obtain ⟨hpushed, rfl⟩ := EStateM.Result.ok.inj hpush
  obtain ⟨hpair, rfl⟩ := EStateM.Result.ok.inj hdone
  obtain ⟨-, rfl⟩ := Prod.mk.inj hpushed
  obtain ⟨rfl, rfl⟩ := Prod.mk.inj hpair
  exact ⟨_, hx, rfl⟩

section Inside

variable {s : Session} {K : Set NodeId} {p q : PathId} {n b : NodeId} {l : List PathId}

/-- What is around the node of a path is held on the way up from it. -/
theorem exists_holder (hs : s.Sound K) (h : s.Ancestry K p l) (hp : s.Holds p n) (hb : b ∈ K)
    (hcontains : s.tree.Contains b n) : ∃ q ∈ l, s.Holds q b := by
  induction h generalizing n with
  | root hl hr =>
    rcases hcontains.cases_tail with rfl | ⟨m, hbm, hm⟩
    · exact ⟨_, List.mem_cons_self, hp⟩
    · obtain rfl := hp.unique_node (hl.holds hr)
      exact absurd hm (hs.forest.not_isChild_root (hs.forest.closed_below hb hbm) hr)
  | @up p q pos n' m' l hl hw hocc hpos hq hup ih =>
    obtain rfl := hp.unique_node (hl.holds hocc)
    rcases hcontains.cases_tail with rfl | ⟨m, hbm, hm⟩
    · exact ⟨_, List.mem_cons_self, hp⟩
    · obtain rfl := hs.forest.parent_unique (hs.forest.closed_below hb hbm) (hw m' hpos) hm
        ⟨pos, hpos, hocc⟩
      obtain ⟨r, hr, hrb⟩ := ih hq hbm
      exact ⟨r, List.mem_cons_of_mem p hr, hrb⟩

/-- The way up from a path comes to a path that holds what is looked for if there is one. -/
theorem climbWithin_holding_run (hs : s.Sound K) (h : s.Ancestry K p l) (b : Option NodeId)
    (fuel : Nat) (hfuel : l.length ≤ fuel) :
    ∃ o, PathId.climbWithin (fun q => do
      pure (if ← (do pure ((← q.node?) == b)) then some q else none)) fuel (some p) s =
        .ok o s ∧ (o.isSome = true ↔ ∃ q ∈ l, ∃ m, s.Holds q m ∧ some m = b) := by
  have hanswer : ∀ {p : PathId} {n : NodeId}, s.Holds p n → (do
      pure (if ← (do pure ((← p.node?) == b)) then some p else none) :
        SessionM (Option PathId)) s = .ok (if some n == b then some p else none) s := by
    intro p n hp
    have hasked : (do pure ((← p.node?) == b) : SessionM Bool) s =
        .ok (some n == b) s := bind_of_ok (PathId.node?_run_of_holds hp)
    exact bind_of_ok hasked
  induction h generalizing fuel with
  | @root p r hl hr =>
    have hp := hl.holds hr
    obtain ⟨fuel, rfl⟩ : ∃ i, fuel = i + 1 := ⟨fuel - 1, by simp at hfuel; omega⟩
    rw [PathId.climbWithin, bind_of_ok (hanswer hp)]
    by_cases hsame : some r = b
    · subst hsame
      exact ⟨some p, by simp, fun _ => ⟨p, List.mem_cons_self, r, hp, rfl⟩, fun _ => rfl⟩
    · refine ⟨none, ?_, by simp, ?_⟩
      · rw [if_neg (by simpa using hsame)]
        show (p.parent? >>= _) s = _
        rw [bind_of_ok (parent?_root_run hl)]
        cases fuel <;> rfl
      · rintro ⟨q, hq, m, hm, rfl⟩
        obtain rfl := List.mem_singleton.mp hq
        exact absurd (congrArg some (hp.unique_node hm)) hsame
  | @up p q pos n m' l hl hw hocc hpos hq hup ih =>
    have hp := hl.holds hocc
    obtain ⟨fuel, rfl⟩ : ∃ i, fuel = i + 1 := ⟨fuel - 1, by simp at hfuel; omega⟩
    rw [PathId.climbWithin, bind_of_ok (hanswer hp)]
    by_cases hsame : some n = b
    · subst hsame
      exact ⟨some p, by simp, fun _ => ⟨p, List.mem_cons_self, n, hp, rfl⟩, fun _ => rfl⟩
    · obtain ⟨o, ho, hfound⟩ := ih fuel (by simp only [List.length_cons] at hfuel; omega)
      refine ⟨o, ?_, hfound.trans ⟨?_, ?_⟩⟩
      · rw [if_neg (by simpa using hsame)]
        show (p.parent? >>= _) s = _
        rw [bind_of_ok (PathId.parent?_linked_run hs hl hpos hq)]
        exact ho
      · rintro ⟨r, hr, hheld⟩
        exact ⟨r, List.mem_cons_of_mem p hr, hheld⟩
      · rintro ⟨r, hr, m, hm, rfl⟩
        rcases List.mem_cons.mp hr with rfl | hr
        · exact absurd (congrArg some (hp.unique_node hm)) hsame
        · exact ⟨r, hr, m, hm, rfl⟩

/-- A path is inside a node only if its own node is. -/
theorem isInside_run (hs : s.Sound K) (hp : s.Holds p n) (hn : s.tree.Reachable n) (b : NodeId) :
    ∃ v, p.isInside b s = .ok v s ∧ (v = true → s.tree.Contains b n) := by
  obtain ⟨l, hl⟩ := hs.exists_ancestry hn hp
  obtain ⟨o, hrun, ho⟩ := climbWithin_holding_run hs hl (some b) s.paths.size (hl.length_le hs)
  refine ⟨o.isSome, bind_of_ok hrun, fun hsome => ?_⟩
  obtain ⟨q, hq, m, hm, hb⟩ := ho.mp hsome
  obtain rfl := Option.some.inj hb
  obtain ⟨m', hm', hcontains⟩ := hl.above hp hq
  exact hm.unique_node hm' ▸ hcontains

end Inside

end PathId

/-- Where what is no function and no program is executed. -/
theorem Tree.ExecutesIn.runsIn {t : Tree} {n b : NodeId} {type : NodeType} (h : t.ExecutesIn n b)
    (htype : t.type? n = some type) (hplain : (type.isFunction || type == .program) = false) :
    t.Reachable n ∧ t.RunsIn n b := by
  cases h with
  | inside _ _ hin =>
    cases hin with
    | here htype' hfunction =>
      obtain rfl := Option.some.inj (htype.symm.trans htype')
      rw [hplain] at hfunction
      cases hfunction
    | up htype' hplain' hm hc hb => exact ⟨.child hm hc, .up htype' hplain' hm hc hb⟩
  | function htype' hfunction _ _ _ =>
    obtain rfl := Option.some.inj (htype.symm.trans htype')
    rw [hfunction] at hplain
    cases hplain

/-- Nothing that is executed in the program itself is below a function. -/
theorem Tree.IsProgram.not_below_function {t : Tree} {n r f : NodeId} {type : NodeType}
    (ht : t.IsProgram) (hr : t.root = some r) (hn : t.RunsIn n r) (htype : t.type? f = some type)
    (hfunction : type.isFunction = true) (hf : t.Reachable f) : ¬ t.Contains f n := by
  have hF := ht.forest
  induction hn with
  | here =>
    intro hbelow
    rcases hbelow.cases_tail with rfl | ⟨p, hfp, hp⟩
    · -- At the root there is a program.
      obtain ⟨r', hr', hprogram⟩ := ht.root
      obtain rfl := Option.some.inj (hr.symm.trans hr')
      rw [Option.some.inj (htype.symm.trans hprogram)] at hfunction
      cases hfunction
    · exact hF.not_isChild_root (hF.closed_below hf hfp) hr hp
  | @up n m b type' htype' hplain hm hc _ ih =>
    intro hbelow
    rcases hbelow.cases_tail with rfl | ⟨p, hfp, hp⟩
    · rw [Option.some.inj (htype'.symm.trans htype), hfunction] at hplain
      cases hplain
    · obtain rfl := hF.parent_unique (hF.closed_below hf hfp) hm hp hc
      exact ih hr hfp

/-! ## The calls of a function of the program -/

section Calls

variable {s s' : Session} {K : Set NodeId} {p q : PathId} {r f id : NodeId} {x : String}
  {v : Binding} {i : ScopeId} {params : List NodeId} {body : NodeId} {isAsync isGenerator : Bool}
  {returned declared : Option ValueType}

/-- Where a function of the program does not bind a name, the name leads to the program. -/
theorem Session.Faithful.finds_outside (hf : s.Faithful) (ht : s.tree.IsProgram)
    (hr : s.tree.root = some r) (hc : s.tree.IsChild r f) (hown : ¬ s.Bound f x)
    (hi : s.ScopeOf i f) (hv : s.BindingOf r x v) : ∃ (j : ScopeId) (sc : Scope),
      s.Finds x i (some j) ∧ s.scopes.scopes[j.index]? = some sc ∧ sc.bindings.get? x = some v := by
  obtain ⟨sc, hsc, -⟩ := id hi
  cases hparent : sc.parent with
  | none =>
    -- Only the scope of the program has nothing around it.
    have hroot := hf.root i f ⟨sc, hsc, hparent⟩ hi
    exact absurd hc (ht.forest.not_isChild_root (.root hr) hroot)
  | some j =>
    have haround : s.Around i j := ⟨sc, hsc, hparent⟩
    obtain ⟨b, hb, hj⟩ := hf.outer i j f haround hi
    obtain rfl := ht.inScope_unique hb (.here (.root hr) hc (ht.opens_root hr))
    obtain ⟨j', sc', hsc', hheld, hget⟩ := hv
    obtain rfl := hf.single j j' b hj ⟨sc', hsc', hheld⟩
    have hbinds : s.Binds j x := ⟨sc', hsc', Option.isSome_iff_exists.mpr ⟨v, hget⟩⟩
    exact ⟨j, sc', .outer (fun hx => hown ⟨i, hi, hx⟩) haround (.here hbinds), hsc', hget⟩

/-- The name of a function of the program, looked up at the function, is that of the program. -/
theorem PathId.binding?_name_run (h : s.Charted K) (hf : s.Faithful) (ht : s.tree.IsProgram)
    (hblocks : ∀ b i, s.tree.Reachable b → s.scopes.byBlock.get? b = some i → s.ScopeOf i b)
    (hr : s.tree.root = some r) (hc : s.tree.IsChild r f) (hq : s.Holds q f)
    (hk : s.tree.kind? f = some (.functionDeclaration (some id) params body isAsync isGenerator
      returned)) (hid : s.tree.kind? id = some (.identifier x declared)) (hown : ¬ s.Bound f x)
    (hv : s.BindingOf r x v) : ∃ a s₁, q.child .id s = .ok a s₁ ∧ s.Went K s₁ ∧
      a.binding? s₁ = .ok (some v) s₁ := by
  have hreach : s.tree.Reachable f := .child (.root hr) hc
  have hocc : s.tree.occupant? (.slot f .id) = some id := by
    simp [Tree.occupant?, Tree.field?, hk, NodeKind.child?, NodeKind.fields, Child.node?]
  obtain ⟨a, s₁, hrun, harrives⟩ := PathId.child_arrives h.sound hq .id
  have hwent := harrives.toWent
  have h₁ := h.went hwent
  have ha := (harrives.linked id hocc).holds (by rw [hwent.tree]; exact hocc)
  obtain ⟨b, i, hb, hi, hlookup⟩ := h₁.binding?_run ha (by rw [hwent.tree]; exact hid)
  rw [hwent.tree] at hb
  rw [hwent.scopes] at hi
  -- The name is in the scope that the function opens.
  have hopens : s.tree.Opens f := ⟨_, hk, rfl, by simp [NodeKind.type]⟩
  obtain rfl : b = f := by
    rcases hb with ⟨ho, -⟩ | ⟨-, hb⟩
    · exact absurd ho (Tree.not_opens_of_not_scopable hid rfl)
    · exact ht.inScope_unique hb (.here hreach ⟨_, rfl, hocc⟩ hopens)
  obtain ⟨j, sc, hfinds, hsc, hget⟩ :=
    hf.finds_outside ht hr hc hown (hblocks b i hreach hi) hv
  obtain ⟨o, hfound, ho⟩ := ScopeId.binding?_run h₁.ordered
    (h₁.ordered.byBlock b i (by rw [hwent.scopes]; exact hi)) x
  obtain rfl := (ho v).mpr ⟨j, sc, hfinds.of_scopes hwent.scopes, hwent.scopes ▸ hsc, hget⟩
  exact ⟨a, s₁, hrun, hwent, hlookup.trans hfound⟩

/-- The calls of a function of the program are those that the binding of its name knows. -/
theorem PathId.statusThroughCalls_run (h : s.Charted K) (hf : s.Faithful) (ht : s.tree.IsProgram)
    (hblocks : ∀ b i, s.tree.Reachable b → s.scopes.byBlock.get? b = some i → s.ScopeOf i b)
    (hr : s.tree.root = some r) (hc : s.tree.IsChild r f) (hq : s.Holds q f)
    (hk : s.tree.kind? f = some (.functionDeclaration (some id) params body isAsync isGenerator
      returned)) (hid : s.tree.kind? id = some (.identifier x declared)) (hown : ¬ s.Bound f x)
    (hv : s.BindingOf r x v) (hused : v.isReferenced = true) (statusAt : PathId → PathId.OrderM ExecutionStatus) :
    ∃ s₁, s.Went K s₁ ∧ (q.statusThroughCalls statusAt).run [] s =
      (PathId.examining f (PathId.agreement f statusAt none v.references)).run [] s₁ := by
  have his : q.is .functionDeclaration s = .ok true s := by
    show (q.type? >>= _) s = _
    rw [bind_of_ok (PathId.type?_run_of_holds hq hk)]
    rfl
  have hparent : q.parentType? s = .ok (some .program) s := by
    obtain ⟨r', hr', hprogram⟩ := ht.root
    obtain rfl := Option.some.inj (hr.symm.trans hr')
    obtain ⟨pos', hw, hl, hocc'⟩ := h.sound.linked_of_reachable hq (.child (.root hr) hc)
    obtain ⟨pos, hpos, hocc⟩ := hc
    obtain rfl := ht.forest.single pos pos' f (Position.within_of_parent hpos (.root hr)) hw hocc hocc'
    rw [PathId.parentType?_run h.sound
      (Position.within_mono (fun n hn => h.sound.forest.mem_of_reachable hn) hw) hl, hpos,
      Option.bind_some, hprogram]
  obtain ⟨a, s₁, hchild, hwent, hname⟩ :=
    PathId.binding?_name_run h hf ht hblocks hr hc hq hk hid hown hv
  refine ⟨s₁, hwent, ?_⟩
  unfold PathId.statusThroughCalls
  rw [Memory.run_of_ok his, if_neg (by simp), Memory.run_of_ok hparent,
    if_neg (by simp [NodeType.isExportDeclaration]),
    Memory.run_of_ok (PathId.node?_run_of_holds hq)]
  dsimp only
  rw [Memory.run_get_bind, if_neg (by simp), Memory.run_of_ok hchild,
    Memory.run_of_ok hname]
  dsimp only
  rw [hused]
  rfl

/-- What is outside the function declarations is executed before something in a function only if the
calls of that function say so. -/
theorem PathId.statusThroughCalls_of_before {g e : PathId} {n : NodeId} {type : NodeType} {fuel : Nat}
    {underway underway' : List NodeId} (h : s.Charted K) (hg : p.executionParent? s = .ok (some g) s)
    (hgn : s.Holds g n) (htype : s.tree.type? n = some type) (hplain : type ≠ .functionDeclaration)
    (he : q.executionParent? s = .ok (some e) s) (hef : s.Holds e f) (hne : n ≠ f)
    (hrun : (PathId.statusWithin (fuel + 1) p q).run underway s = .ok (.before, underway') s') :
    ∃ underway₁ s₁, (e.statusThroughCalls fun call => PathId.statusWithin fuel p call).run underway s =
      .ok (some .before, underway₁) s₁ := by
  rw [PathId.statusWithin, Memory.run_of_ok hg, Memory.run_of_ok he] at hrun
  dsimp only at hrun
  rw [Memory.run_of_ok (PathId.node?_run_of_holds hgn),
    Memory.run_of_ok (PathId.node?_run_of_holds hef), if_neg (by simpa using hne)] at hrun
  obtain ⟨fromTarget, underway₁, s₁, hthrough, hrest⟩ := Memory.bind_eq_ok hrun
  have h₁ := h.searching (Following.statusThroughCalls (Following.statusWithin fuel p) e underway)
    hthrough
  cases fromTarget with
  | some status =>
    obtain ⟨hsame, -⟩ := EStateM.Result.ok.inj hrest
    obtain rfl : status = .before := (Prod.mk.inj hsame).1
    exact ⟨underway₁, s₁, hthrough⟩
  | none =>
    -- The calls of what is no function declaration say nothing.
    exfalso
    obtain ⟨used, s₂, hused, hrest⟩ := Memory.lift_bind_eq_ok hrest
    have h₂ := (h.went h₁).searching (.hasReferences g) hused
    cases used with
    | false => cases hrest
    | true =>
      obtain ⟨fromMine, underway₂, s₃, hmine, hrest⟩ := Memory.bind_eq_ok hrest
      obtain ⟨isDeclaration, s₄, his, hmine⟩ := Memory.lift_bind_eq_ok hmine
      obtain ⟨k, hk, rfl⟩ := Tree.kind_of_type? htype
      have hg₂ := h₂.grew.holds h₁.sound (h₁.grew.holds h.sound hgn)
      have hfalse : g.is .functionDeclaration s₂ = .ok false s₂ := by
        show (g.type? >>= _) s₂ = _
        rw [bind_of_ok (PathId.type?_run_of_holds hg₂ (by rwa [h₂.tree, h₁.tree]))]
        show EStateM.Result.ok (some k.type == some .functionDeclaration) s₂ = _
        simp [hplain]
      obtain ⟨rfl, rfl⟩ := EStateM.Result.ok.inj (hfalse.symm.trans his)
      obtain ⟨hnone, -⟩ := EStateM.Result.ok.inj hmine
      obtain rfl := (Prod.mk.inj hnone).1
      cases hrest

end Calls

/-! ## What comes before the calls -/

namespace Session.Fresh

variable {s : Session} {t : Tree} {b : NodeId} {x : String}

/-- What a block binds is what it declares. -/
theorem bound_iff (ht : t.IsProgram) (hgrammar : t.Grammatical) (h : s.Fresh t) :
    s.Bound b x ↔ t.Declares b x := by
  induction h with
  | @crawled config s₀ s hopen hrun =>
    obtain ⟨s₀', s', hopen', hrun', htree, s₁, u, hcrawled⟩ := open?_crawled ht hgrammar config
    obtain rfl := Except.ok.inj (hopen.symm.trans hopen')
    obtain ⟨-, rfl⟩ := EStateM.Result.ok.inj (hrun.symm.trans hrun')
    rw [← htree]
    exact hcrawled.bound_iff
  | @moved s m h ih =>
    obtain ⟨hprudent, hf, -⟩ := h.settled ht hgrammar
    have hsound := hprudent.upright.sound
    have hwent : s.Went t.reachable (after m.run s) := m.roaming s _ hsound
    rw [← ih]
    unfold Bound Binds
    simp only [hf.scopeOf_went hsound hwent, hwent.scopes]
  | built _ _ _ ih => exact ih

/-- The crawl of a program leaves such a session. -/
theorem of_ensureScopes (ht : t.IsProgram) (s : Session)
    (hs : s = after ensureScopes { tree := t, config := { lazyScopes := true } }) :
    s.Fresh t ∧ s.tree = t := by
  obtain ⟨_, s', hrun, htree, -⟩ := ensureScopes_orderly ht { lazyScopes := true }
  obtain rfl : s = s' := hs.trans (after_of_ok hrun)
  have hopen : Session.open? t { lazyScopes := true } =
      .ok { tree := t, config := { lazyScopes := true } } := rfl
  exact ⟨.crawled hopen hrun, htree⟩

end Session.Fresh

/-- What precedes the callee of a call precedes the call. -/
theorem Tree.Forest.precedes_call {t : Tree} {K : Set NodeId} {n call callee : NodeId}
    {args : List NodeId} (hF : t.Forest K) (hcall : call ∈ K)
    (hk : t.kind? call = some (.callExpression callee args)) (h : t.Precedes n callee) :
    t.Precedes n call := by
  have hocc : t.occupant? (.slot call .callee) = some callee := by
    simp [Tree.occupant?, Tree.field?, hk, NodeKind.child?, NodeKind.fields, Child.node?]
  have hchild : t.IsChild call callee := ⟨_, rfl, hocc⟩
  obtain ⟨hc, htype, hpos, hpos', hearlier, ha, hb, hdown, hdown'⟩ := h
  have hcK := hF.mem_of_reachable hc
  rcases hdown'.cases_tail with rfl | ⟨m, hbm, hm⟩
  · -- Nothing in the call is before the callee.
    obtain rfl := hF.parent_unique hcall hcK hchild ⟨_, hpos', hb⟩
    obtain rfl := hF.single _ _ _ (Position.within_of_parent hpos' hcK)
      (Position.within_of_parent rfl hcall) hb hocc
    obtain rfl := Option.some.inj ((Tree.type?_of_kind hk).symm.trans htype)
    cases hearlier with
    | field hf hg hi hj hlt =>
      obtain rfl := Option.some.inj hg
      have hfirst : NodeType.callExpression.visitorFields.idxOf? .callee = some 0 := by decide
      obtain rfl := Option.some.inj (hfirst.symm.trans hj)
      exact absurd hlt (Nat.not_lt_zero _)
  · obtain rfl := hF.parent_unique hcall (hF.closed_below
      (hF.closed_child hcK ⟨_, hpos', hb⟩) hbm) hchild hm
    exact .fork hc htype hpos hpos' hearlier ha hb hdown hbm

/-- Where a function of the program does not declare its own name once more, what is outside all
functions is executed before something in the function only if it precedes every call of the
function that is outside all functions. -/
theorem PathId.precedes_calls {t : Tree} {s s' : Session} {p q : PathId} {n m r f id : NodeId}
    {x : String} {v : Binding} {params : List NodeId} {body : NodeId} {isAsync isGenerator : Bool}
    {returned declared : Option ValueType} (ht : t.IsProgram) (hgrammar : t.Grammatical)
    (hs : s.Fresh t) (htree : s.tree = t) (hr : t.root = some r) (hc : t.IsChild r f)
    (hk : t.kind? f = some (.functionDeclaration (some id) params body isAsync isGenerator returned))
    (hid : t.kind? id = some (.identifier x declared)) (hown : ¬ t.Declares f x)
    (hv : s.BindingOf r x v) (hp : s.Holds p n) (hn : t.ExecutesIn n r) (hq : s.Holds q m)
    (hm : t.ExecutesIn m f) (hrun : p.executionStatus q s = .ok .before s') :
    ∀ call callee args called site, t.kind? call = some (.callExpression callee args) →
      t.kind? callee = some (.identifier x called) → t.ExecutesIn call r → s.Holds site callee →
      site ∈ v.references → t.Precedes n call := by
  intro call callee args called site hcall hcallee hcallIn hsite hmem
  have h := hs.charted ht hgrammar
  obtain ⟨hprudent, hf, -⟩ := hs.settled ht hgrammar
  have hunbound := (hs.bound_iff ht hgrammar).not.mpr hown
  subst htree
  have hnp := h.reachable hp
  have hblocks : ∀ b i, s.tree.Reachable b → s.scopes.byBlock.get? b = some i → s.ScopeOf i b :=
    fun b i hb hi => (hprudent.upright.known b i hi).2 hb
  -- The answer is that of the calls.
  obtain ⟨g, hg, hgr⟩ := PathId.executionParent?_holds h.sound hp hnp hn
  obtain ⟨e, he, hef⟩ := PathId.executionParent?_holds h.sound hq (h.reachable hq) hm
  have hne : r ≠ f := by
    rintro rfl
    exact ht.forest.not_isChild_root (.root hr) hr hc
  obtain ⟨kr, hkr, hprogram⟩ := ht.kind_root hr
  unfold PathId.executionStatus at hrun
  rw [run_get_bind] at hrun
  obtain ⟨⟨status, underway⟩, s₁, hwithin, hdone⟩ := bind_eq_ok hrun
  obtain ⟨rfl, -⟩ := EStateM.Result.ok.inj hdone
  obtain ⟨underway₁, s₂, hthrough⟩ := PathId.statusThroughCalls_of_before h hg hgr
    (Tree.type?_of_kind hkr) (by simp [hprogram]) he hef hne hwithin
  have hused : v.isReferenced = true := by
    unfold Binding.isReferenced
    cases hrefs : v.references with
    | nil => simp [hrefs] at hmem
    | cons => rfl
  obtain ⟨s₃, h₃, hexamined⟩ := PathId.statusThroughCalls_run h hf ht hblocks hr hc hef hk hid
    hunbound hv hused fun call => PathId.statusWithin (s.tree.size + 1) p call
  rw [hexamined] at hthrough
  obtain ⟨underway₂, hagree, -⟩ := PathId.examining_eq_ok hthrough
  obtain ⟨-, hall⟩ := PathId.agreement_eq_some (Following.statusWithin _ p) (h.went h₃) hagree
  -- The callee is executed in the program, as its call is.
  have hcalleeType := Tree.type?_of_kind hcallee
  have hchild : s.tree.IsChild call callee := ⟨.slot call .callee, rfl, by
    simp [Tree.occupant?, Tree.field?, hcall, NodeKind.child?, NodeKind.fields, Child.node?]⟩
  obtain ⟨hreach, hcallIn⟩ := hcallIn.runsIn (Tree.type?_of_kind hcall) rfl
  have hin : s.tree.RunsIn callee r := .up hcalleeType rfl hreach hchild hcallIn
  have houtside := ht.not_below_function hr hin (Tree.type?_of_kind hk) rfl (.child (.root hr) hc)
  -- Its own answer was found in a session with the same tree.
  obtain ⟨s₄, h₄, hsaid⟩ := hall site hmem
  have h₄ := h₃.trans h₄
  have hs₄ := (h.went h₄).sound
  have hp₄ := h₄.grew.holds h.sound hp
  have hsite₄ := h₄.grew.holds h.sound hsite
  have hreach₄ := (h.went h₄).reachable hsite₄
  rw [← h₄.tree] at hn hnp hin hcalleeType houtside hcall ⊢
  refine hs₄.forest.precedes_call (h₄.tree ▸ hreach) hcall ?_
  rcases hsaid with ⟨s₅, hinside⟩ | ⟨l, l', s₅, hstatus⟩
  · obtain ⟨v, hasked, hv⟩ := PathId.isInside_run hs₄ hsite₄ hreach₄ f
    obtain ⟨rfl, -⟩ := EStateM.Result.ok.inj (hasked.symm.trans hinside)
    exact absurd (hv rfl) houtside
  · obtain ⟨g', hg', hgr'⟩ := PathId.executionParent?_holds hs₄ hp₄ hnp hn
    obtain ⟨e', he', her'⟩ := PathId.executionParent?_holds hs₄ hsite₄ hreach₄
      (.inside hcalleeType rfl hin)
    rw [PathId.statusWithin_same_run hg' hgr' he' her'] at hstatus
    obtain ⟨status, s₆, hfound, hpair⟩ := bind_eq_ok hstatus
    obtain ⟨hsame, rfl⟩ := EStateM.Result.ok.inj hpair
    obtain ⟨rfl, -⟩ := Prod.mk.inj hsame
    exact PathId.precedes_of_statusInFunction hs₄ hp₄ hnp hsite₄ hreach₄ hfound

/-- The program `a; function f() { b; } f();`. -/
def calledProgram : Tree where
  nodes := #[{ kind := .identifier "a" none }, { kind := .expressionStatement ⟨0⟩ },
    { kind := .identifier "f" none }, { kind := .identifier "b" none },
    { kind := .expressionStatement ⟨3⟩ }, { kind := .blockStatement [⟨4⟩] },
    { kind := .functionDeclaration (some ⟨2⟩) [] ⟨5⟩ false false none },
    { kind := .identifier "f" none }, { kind := .callExpression ⟨7⟩ [] },
    { kind := .expressionStatement ⟨8⟩ }, { kind := .program [⟨1⟩, ⟨6⟩, ⟨9⟩] [] }]
  root := some ⟨10⟩

theorem calledProgram_isProgram : calledProgram.IsProgram :=
  .of_bottomUp (by decide) (by decide) (by decide) (by decide)

theorem calledProgram_grammatical : calledProgram.Grammatical := .of_plain (by decide)

/-- Where the statements and the call are executed. -/
theorem calledProgram_executesIn : calledProgram.ExecutesIn ⟨1⟩ ⟨10⟩ ∧
    calledProgram.ExecutesIn ⟨4⟩ ⟨6⟩ ∧ calledProgram.ExecutesIn ⟨8⟩ ⟨10⟩ := by
  have hroot : calledProgram.Reachable ⟨10⟩ := .root rfl
  have hprogram : calledProgram.RunsIn ⟨10⟩ ⟨10⟩ := .here (t := calledProgram) rfl rfl
  have hfunction : calledProgram.Reachable ⟨6⟩ := .child hroot ⟨.item ⟨10⟩ .body 1, rfl, rfl⟩
  have hbody : calledProgram.IsChild ⟨6⟩ ⟨5⟩ := ⟨.slot ⟨6⟩ .body, rfl, rfl⟩
  have hlast : calledProgram.IsChild ⟨10⟩ ⟨9⟩ := ⟨.item ⟨10⟩ .body 2, rfl, rfl⟩
  refine ⟨.inside (t := calledProgram) rfl rfl ?_, .inside (t := calledProgram) rfl rfl ?_,
    .inside (t := calledProgram) rfl rfl ?_⟩
  · exact .up (t := calledProgram) rfl rfl hroot ⟨.item ⟨10⟩ .body 0, rfl, rfl⟩ hprogram
  · exact .up (t := calledProgram) rfl rfl (.child hfunction hbody) ⟨.item ⟨5⟩ .body 0, rfl, rfl⟩
      (.up (t := calledProgram) rfl rfl hfunction hbody (.here (t := calledProgram) rfl rfl))
  · exact .up (t := calledProgram) rfl rfl (.child hroot hlast)
      ⟨.slot ⟨9⟩ .expression, rfl, rfl⟩ (.up (t := calledProgram) rfl rfl hroot hlast hprogram)

/-- The session after the crawl. The two statements have the paths 1 and 7, and the callee has the
path 10. -/
def calledStart : Session :=
  after ensureScopes { tree := calledProgram, config := { lazyScopes := true } }

theorem calledStart_fresh : calledStart.Fresh calledProgram ∧ calledStart.tree = calledProgram :=
  Session.Fresh.of_ensureScopes calledProgram_isProgram _ rfl

/-- The function does not bind its own name. -/
theorem calledStart_unbound : ¬ calledProgram.Declares ⟨6⟩ "f" := by
  rw [← calledStart_fresh.1.bound_iff calledProgram_isProgram calledProgram_grammatical]
  rintro ⟨i, ⟨sc, hsc, d, hd, hnode⟩, sc', hsc', hx⟩
  obtain rfl := Option.some.inj (hsc.symm.trans hsc')
  have hnone : ∀ sc ∈ calledStart.scopes.scopes.toList, sc.bindings.contains "f" = true →
      calledStart.paths[sc.block.index]?.bind PathData.node ≠ some ⟨6⟩ := by decide +kernel
  refine hnone sc (Array.mem_toList_iff.mpr (Array.mem_of_getElem? hsc)) hx ?_
  rw [hd, Option.bind_some, hnode]

/-- The first statement is executed before the one in the function, and precedes the call. -/
theorem calledProgram_precedes : ∃ v s', calledProgram.IsProgram ∧ calledProgram.Grammatical ∧
    calledStart.Fresh calledProgram ∧ calledStart.tree = calledProgram ∧
    ¬ calledProgram.Declares ⟨6⟩ "f" ∧ calledStart.BindingOf ⟨10⟩ "f" v ∧
    calledStart.Holds ⟨1⟩ ⟨1⟩ ∧ calledStart.Holds ⟨7⟩ ⟨4⟩ ∧ calledStart.Holds ⟨10⟩ ⟨7⟩ ∧
    ⟨10⟩ ∈ v.references ∧ PathId.executionStatus ⟨1⟩ ⟨7⟩ calledStart = .ok .before s' ∧
    calledProgram.Precedes ⟨1⟩ ⟨8⟩ := by
  obtain ⟨hfresh, htree⟩ := calledStart_fresh
  have hbefore : value? (PathId.executionStatus ⟨1⟩ ⟨7⟩) calledStart = some .before := by
    decide +kernel
  have hheld : ∀ i n, calledStart.paths[i]?.bind PathData.node = some n →
      calledStart.Holds ⟨i⟩ n := fun _ _ h => Option.bind_eq_some_iff.mp h
  have hblock := hheld 0 ⟨10⟩ (by decide +kernel)
  have hp := hheld 1 ⟨1⟩ (by decide +kernel)
  have hq := hheld 7 ⟨4⟩ (by decide +kernel)
  have hsite := hheld 10 ⟨7⟩ (by decide +kernel)
  have hscope : calledStart.scopes.scopes[0]?.map (fun sc =>
      (sc.block, (sc.bindings.get? "f").map Binding.references)) = some (⟨0⟩, some [⟨10⟩]) := by
    decide +kernel
  obtain ⟨sc, hsc, hpair⟩ := Option.map_eq_some_iff.mp hscope
  obtain ⟨hb, hreferences⟩ := Prod.mk.inj hpair
  obtain ⟨v, hv, hsites⟩ := Option.map_eq_some_iff.mp hreferences
  have hbindingOf : calledStart.BindingOf ⟨10⟩ "f" v := ⟨⟨0⟩, sc, hsc, hb ▸ hblock, hv⟩
  have hmem : ⟨10⟩ ∈ v.references := hsites ▸ List.mem_singleton_self _
  obtain ⟨hn, hm, hcall⟩ := calledProgram_executesIn
  have hrun := eq_ok_of_value? hbefore
  exact ⟨v, _, calledProgram_isProgram, calledProgram_grammatical, hfresh, htree,
    calledStart_unbound, hbindingOf, hp, hq, hsite, hmem, hrun,
    PathId.precedes_calls calledProgram_isProgram calledProgram_grammatical hfresh htree rfl
      ⟨.item ⟨10⟩ .body 1, rfl, rfl⟩ rfl rfl calledStart_unbound hbindingOf hp hn hq hm hrun
      ⟨8⟩ ⟨7⟩ [] none ⟨10⟩ rfl rfl hcall hsite hmem⟩

/-- The program `function f(f) { t; } f(); p;`. -/
def shadowingProgram : Tree where
  nodes := #[{ kind := .identifier "f" none }, { kind := .identifier "f" none },
    { kind := .identifier "t" none }, { kind := .expressionStatement ⟨2⟩ },
    { kind := .blockStatement [⟨3⟩] },
    { kind := .functionDeclaration (some ⟨0⟩) [⟨1⟩] ⟨4⟩ false false none },
    { kind := .identifier "f" none }, { kind := .callExpression ⟨6⟩ [] },
    { kind := .expressionStatement ⟨7⟩ }, { kind := .identifier "p" none },
    { kind := .expressionStatement ⟨9⟩ }, { kind := .program [⟨5⟩, ⟨8⟩, ⟨10⟩] [] }]
  root := some ⟨11⟩

theorem shadowingProgram_isProgram : shadowingProgram.IsProgram :=
  .of_bottomUp (by decide) (by decide) (by decide) (by decide)

/-- Where the call and the statements are executed, and that the call comes first. -/
theorem shadowingProgram_executesIn : shadowingProgram.ExecutesIn ⟨7⟩ ⟨11⟩ ∧
    shadowingProgram.ExecutesIn ⟨10⟩ ⟨11⟩ ∧ shadowingProgram.ExecutesIn ⟨3⟩ ⟨5⟩ ∧
    shadowingProgram.Precedes ⟨7⟩ ⟨10⟩ := by
  have hroot : shadowingProgram.Reachable ⟨11⟩ := .root rfl
  have hprogram : shadowingProgram.RunsIn ⟨11⟩ ⟨11⟩ := .here (t := shadowingProgram) rfl rfl
  have hfunction : shadowingProgram.Reachable ⟨5⟩ := .child hroot ⟨.item ⟨11⟩ .body 0, rfl, rfl⟩
  have hbody : shadowingProgram.IsChild ⟨5⟩ ⟨4⟩ := ⟨.slot ⟨5⟩ .body, rfl, rfl⟩
  have hfirst : shadowingProgram.IsChild ⟨11⟩ ⟨8⟩ := ⟨.item ⟨11⟩ .body 1, rfl, rfl⟩
  have hcall : shadowingProgram.IsChild ⟨8⟩ ⟨7⟩ := ⟨.slot ⟨8⟩ .expression, rfl, rfl⟩
  refine ⟨.inside (t := shadowingProgram) rfl rfl ?_, .inside (t := shadowingProgram) rfl rfl ?_,
    .inside (t := shadowingProgram) rfl rfl ?_, ?_⟩
  · exact .up (t := shadowingProgram) rfl rfl (.child hroot hfirst) hcall
      (.up (t := shadowingProgram) rfl rfl hroot hfirst hprogram)
  · exact .up (t := shadowingProgram) rfl rfl hroot ⟨.item ⟨11⟩ .body 2, rfl, rfl⟩ hprogram
  · exact .up (t := shadowingProgram) rfl rfl (.child hfunction hbody)
      ⟨.item ⟨4⟩ .body 0, rfl, rfl⟩ (.up (t := shadowingProgram) rfl rfl hfunction hbody
        (.here (t := shadowingProgram) rfl rfl))
  · have hearlier : (Position.item ⟨11⟩ .body 1).Earlier .program (.item ⟨11⟩ .body 2) :=
      .element (by decide)
    exact .fork (t := shadowingProgram) hroot rfl rfl rfl hearlier rfl rfl (.single hcall) .refl

/-- The session after the crawl. The last statement and the one in the function have the paths 3
and 7, and the callee has the path 10. -/
def shadowingStart : Session :=
  after ensureScopes { tree := shadowingProgram, config := { lazyScopes := true } }

/-- The name of the function is looked up in the function, where the parameter takes it over. Nothing
reads the parameter, so the function counts as not called at all, and the statement behind the call
as executed before the function. -/
theorem shadowingProgram_overlooks : ∃ v s', shadowingProgram.IsProgram ∧
    shadowingProgram.Grammatical ∧ shadowingStart.Fresh shadowingProgram ∧
    shadowingStart.tree = shadowingProgram ∧ shadowingProgram.IsChild ⟨11⟩ ⟨5⟩ ∧
    shadowingStart.BindingOf ⟨11⟩ "f" v ∧ shadowingStart.Holds ⟨3⟩ ⟨10⟩ ∧
    shadowingProgram.ExecutesIn ⟨10⟩ ⟨11⟩ ∧ shadowingStart.Holds ⟨7⟩ ⟨3⟩ ∧
    shadowingProgram.ExecutesIn ⟨3⟩ ⟨5⟩ ∧
    PathId.executionStatus ⟨3⟩ ⟨7⟩ shadowingStart = .ok .before s' ∧
    shadowingProgram.kind? ⟨7⟩ = some (.callExpression ⟨6⟩ []) ∧
    shadowingProgram.ExecutesIn ⟨7⟩ ⟨11⟩ ∧ shadowingStart.Holds ⟨10⟩ ⟨6⟩ ∧
    ⟨10⟩ ∈ v.references ∧ shadowingProgram.Precedes ⟨7⟩ ⟨10⟩ := by
  obtain ⟨hfresh, htree⟩ :=
    Session.Fresh.of_ensureScopes shadowingProgram_isProgram shadowingStart rfl
  have hbefore : value? (PathId.executionStatus ⟨3⟩ ⟨7⟩) shadowingStart = some .before := by
    decide +kernel
  have hheld : ∀ i n, shadowingStart.paths[i]?.bind PathData.node = some n →
      shadowingStart.Holds ⟨i⟩ n := fun _ _ h => Option.bind_eq_some_iff.mp h
  have hscope : shadowingStart.scopes.scopes[0]?.map (fun sc =>
      (sc.block, (sc.bindings.get? "f").map Binding.references)) = some (⟨0⟩, some [⟨10⟩]) := by
    decide +kernel
  obtain ⟨sc, hsc, hpair⟩ := Option.map_eq_some_iff.mp hscope
  obtain ⟨hb, hreferences⟩ := Prod.mk.inj hpair
  obtain ⟨v, hv, hsites⟩ := Option.map_eq_some_iff.mp hreferences
  obtain ⟨hcall, hp, hq, hfirst⟩ := shadowingProgram_executesIn
  exact ⟨v, _, shadowingProgram_isProgram, .of_plain (by decide), hfresh, htree,
    ⟨.item ⟨11⟩ .body 0, rfl, rfl⟩, ⟨⟨0⟩, sc, hsc, hb ▸ hheld 0 ⟨11⟩ (by decide +kernel), hv⟩,
    hheld 3 ⟨10⟩ (by decide +kernel), hp, hheld 7 ⟨3⟩ (by decide +kernel), hq,
    eq_ok_of_value? hbefore, rfl, hcall, hheld 10 ⟨6⟩ (by decide +kernel),
    hsites ▸ List.mem_singleton_self _, hfirst⟩

end Espalier
