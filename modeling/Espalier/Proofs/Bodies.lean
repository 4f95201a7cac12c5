import Espalier.Proofs.Dwelling

set_option autoImplicit false

/-! # Bodies that take declarations

Names are declared in the body of a function or of the program. A path `Houses` such a body when it
is the program itself or dwells in the `body` slot of the function (`Session.Houses`); asking for
the body then changes nothing (`Houses.declarationHost_run`), and the scope of what stands in the
body is the scope of the function (`Houses.scope_run`). -/

namespace Espalier

open SessionM Session

variable {s s' : Session} {p q block host : PathId} {d e : PathData} {fn body n : NodeId}
  {k : NodeKind} {i : ScopeId}

/-! ## The path of the body -/

namespace Session

/-- The path of a body with statements: that of the program itself, or the one that dwells in the
`body` slot of a function. -/
inductive Houses (s : Session) (block : PathId) (fn : NodeId) : PathId → NodeId → Prop
  | program {d : PathData} : s.paths[block.index]? = some d → d.node = some fn →
    d.removed = false → s.tree.type? fn = some .program → Houses s block fn block fn
  | function {d : PathData} {k : NodeKind} {host : PathId} {body : NodeId} :
    s.Holds block fn → s.tree.kind? fn = some k → k.type.isFunction = true →
    k.child? .body = some (.one body) → s.tree.type? body = some .blockStatement →
    s.Dwells host (.slot fn .body) d → d.parent = some block → Houses s block fn host body

theorem Houses.holds (h : s.Houses block fn host body) : s.Holds host body := by
  cases h with
  | program hd hn => exact ⟨_, hd, hn⟩
  | function _ hk _ hc _ hhost =>
    refine ⟨_, hhost.data, hhost.node.trans ?_⟩
    simp [Tree.occupant?, Tree.field?, hk, hc, Child.node?]

theorem Houses.block_holds (h : s.Houses block fn host body) : s.Holds block fn := by
  cases h with
  | program hd hn => exact ⟨_, hd, hn⟩
  | function hblock => exact hblock

theorem Houses.isRemoved_run (h : s.Houses block fn host body) :
    host.isRemoved s = .ok false s := by
  cases h with
  | program hd _ hlive => rw [PathId.isRemoved_run hd, hlive]
  | function _ _ _ _ _ hhost => rw [PathId.isRemoved_run hhost.data, hhost.live]

/-- The body has a list of statements. -/
theorem Houses.list (h : s.Houses block fn host body) : ∃ k ids, s.tree.kind? body = some k ∧
    k.child? .body = some (.many ids) ∧ (k.type = .program ∨ k.type = .blockStatement) := by
  have hstatements : ∀ {k : NodeKind}, k.type = .program ∨ k.type = .blockStatement →
      ∃ ids, k.child? .body = some (.many ids) := by
    intro k hk
    cases k <;> simp [NodeKind.type] at hk <;> exact ⟨_, rfl⟩
  cases h with
  | program _ _ _ hprogram =>
    obtain ⟨k, hk, htype⟩ := Tree.kind_of_type? hprogram
    obtain ⟨ids, hc⟩ := hstatements (.inl htype)
    exact ⟨k, ids, hk, hc, .inl htype⟩
  | function _ _ _ _ hbody _ =>
    obtain ⟨k, hk, htype⟩ := Tree.kind_of_type? hbody
    obtain ⟨ids, hc⟩ := hstatements (.inr htype)
    exact ⟨k, ids, hk, hc, .inr htype⟩

/-- Where the function, the type of its body and their paths stay, the body is housed as before. -/
theorem Houses.of_same (h : s.Houses block fn host body)
    (hblock : ∀ d, s.paths[block.index]? = some d → ∃ d', s'.paths[block.index]? = some d' ∧
      d'.node = d.node ∧ d'.removed = d.removed) (hslot : s.SameIn s' (.slot fn))
    (hfn : fn ≠ body → s'.tree.kind? fn = s.tree.kind? fn)
    (hbody : s'.tree.type? body = s.tree.type? body) : s'.Houses block fn host body := by
  cases h with
  | program hd hn hlive hprogram =>
    obtain ⟨d', hd', hn', hlive'⟩ := hblock _ hd
    exact .program hd' (hn'.trans hn) (hlive'.trans hlive) (hbody.trans hprogram)
  | @function d k _ _ hholds hk htype hc hblocked hhost hparent =>
    have hne : fn ≠ body := by
      rintro rfl
      have hfunction : k.type = .blockStatement :=
        Option.some.inj ((Tree.type?_of_kind hk).symm.trans hblocked)
      rw [hfunction] at htype
      cases htype
    obtain ⟨e, he, hn⟩ := hholds
    obtain ⟨e', he', hn', -⟩ := hblock e he
    refine .function ⟨e', he', hn'.trans hn⟩ ((hfn hne).trans hk) htype hc (hbody.trans hblocked)
      (hhost.of_same hslot ?_) hparent
    simp [Tree.occupant?, Tree.field?, hfn hne]

end Session

theorem PathId.is_run (hp : s.Holds p n) (hk : s.tree.kind? n = some k) (type : NodeType) :
    p.is type s = .ok (some k.type == some type) s :=
  bind_of_ok (PathId.type?_run_of_holds hp hk)

/-- Asking for the body of a function that has one changes nothing. -/
theorem ensureBlock_run (hblock : s.Holds block fn) (hk : s.tree.kind? fn = some k)
    (hc : k.child? .body = some (.one body)) (hbody : s.tree.type? body = some .blockStatement)
    (hhost : s.Dwells host (.slot fn .body) d) (hparent : d.parent = some block) :
    ensureBlock block s = .ok () s := by
  have hnode : d.node = some body := by
    rw [hhost.node]
    simp [Tree.occupant?, Tree.field?, hk, hc, Child.node?]
  unfold ensureBlock
  rw [bind_of_ok (PathId.child_run_of_dwells hblock hk (.inl ⟨body, hc⟩) hhost hparent),
    bind_of_ok (PathId.node?_run hhost.data), hnode]
  show ((ask fun t => t.type? body) >>= _) s = _
  rw [bind_of_ok (ask_run hbody)]
  rfl

/-- The path of a housed body is found, and nothing changes. -/
theorem Session.Houses.declarationHost_run (h : s.Houses block fn host body) :
    declarationHost block s = .ok host s := by
  unfold declarationHost
  cases h with
  | program hd hn _ hprogram =>
    obtain ⟨k, hk, htype⟩ := Tree.kind_of_type? hprogram
    rw [bind_of_ok (PathId.is_run ⟨_, hd, hn⟩ hk .program), htype]
    rfl
  | @function d k _ _ hblock hk htype hc hbody hhost hparent =>
    have hnot : (some k.type == some NodeType.program) = false := by
      cases k <;> first | rfl | cases htype
    rw [bind_of_ok (PathId.is_run hblock hk .program), hnot]
    show (ensureBlock block >>= fun _ => block.child .body) s = _
    rw [bind_of_ok (ensureBlock_run hblock hk hc hbody hhost hparent)]
    exact PathId.child_run_of_dwells hblock hk (.inl ⟨_, hc⟩) hhost hparent

/-! ## The scope of the body -/

theorem PathId.isScopeBlock_run_of_plain (hp : s.Holds p n) (hk : s.tree.kind? n = some k)
    (hplain : k.type.isScopable = false) : p.isScopeBlock s = .ok false s := by
  unfold PathId.isScopeBlock
  rw [bind_of_ok (PathId.type?_run_of_holds hp hk)]
  generalize k.type = type at hplain
  cases type <;> first | rfl | cases hplain

/-- A program or a function opens a scope wherever it stands. -/
theorem PathId.isScopeBlock_run_of_owner (hp : s.Holds p n) (hk : s.tree.kind? n = some k)
    (howner : k.type = .program ∨ k.type.isFunction = true) : p.isScopeBlock s = .ok true s := by
  unfold PathId.isScopeBlock
  rw [bind_of_ok (PathId.type?_run_of_holds hp hk)]
  generalize k.type = type at howner
  cases type <;> first | rfl | simp [NodeType.isFunction] at howner

/-- The body of a function opens no scope of its own. -/
theorem PathId.isScopeBlock_run_of_body (hd : s.paths[p.index]? = some d) (hn : d.node = some n)
    (htype : s.tree.type? n = some .blockStatement) (hc : d.container = .slot fn)
    (hk : s.tree.kind? fn = some k) (hfunction : k.type.isFunction = true) :
    p.isScopeBlock s = .ok false s := by
  obtain ⟨kn, hkn, htn⟩ := Tree.kind_of_type? htype
  have hparent : p.parentType? s = .ok (some k.type) s := by
    unfold PathId.parentType?
    have hnode : p.parentNode? s = .ok (some fn) s := by
      unfold PathId.parentNode?
      rw [bind_of_ok (p.data_run hd), hc]
      rfl
    rw [bind_of_ok hnode]
    show ((ask fun t => t.type? fn) >>= _) s = _
    rw [bind_of_ok (ask_run (Tree.type?_of_kind hk))]
    rfl
  unfold PathId.isScopeBlock
  rw [bind_of_ok (PathId.type?_run_of_holds ⟨d, hd, hn⟩ hkn), htn]
  dsimp only
  rw [bind_of_ok hparent]
  simp [hfunction]

/-- What the search for the block of a scope asks of a path. -/
def PathId.asScopeBlock? (q : PathId) : SessionM (Option (PathId × NodeId)) := do
  match ← q.node? with
  | none => pure none
  | some node => do pure (if ← q.isScopeBlock then some (q, node) else none)

theorem PathId.asScopeBlock?_run (hp : s.Holds p n) {opens : Bool}
    (hopens : p.isScopeBlock s = .ok opens s) :
    p.asScopeBlock? s = .ok (if opens then some (p, n) else none) s := by
  unfold PathId.asScopeBlock?
  rw [bind_of_ok (PathId.node?_run_of_holds hp)]
  show (p.isScopeBlock >>= _) s = _
  rw [bind_of_ok hopens]
  cases opens <;> rfl

/-- The search ends at a path that opens a scope. -/
theorem PathId.climbWithin_run_here (hp : s.Holds p n) (hopens : p.isScopeBlock s = .ok true s)
    (fuel : Nat) : climbWithin asScopeBlock? (fuel + 1) (some p) s = .ok (some (p, n)) s := by
  unfold climbWithin
  rw [bind_of_ok (PathId.asScopeBlock?_run hp hopens)]
  rfl

/-- The search goes on past a path that opens none. -/
theorem PathId.climbWithin_run_past (hd : s.paths[p.index]? = some d) (hn : d.node = some n)
    (hopens : p.isScopeBlock s = .ok false s) (fuel : Nat) :
    climbWithin asScopeBlock? (fuel + 1) (some p) s = climbWithin asScopeBlock? fuel d.parent s := by
  conv_lhs => unfold climbWithin
  rw [bind_of_ok (PathId.asScopeBlock?_run ⟨d, hd, hn⟩ hopens)]
  exact bind_of_ok (p.parent?_run hd)

/-- A statement of a housed body is in the block of the function. -/
theorem Session.Houses.scopeBlock?_run (h : s.Houses block fn host body)
    (hq : s.paths[q.index]? = some d) (hn : d.node = some n) (hparent : d.parent = some host)
    (hk : s.tree.kind? n = some k) (hplain : k.type.isScopable = false) :
    q.scopeBlock? s = .ok (some (block, fn)) s := by
  have hno := PathId.isScopeBlock_run_of_plain ⟨d, hq, hn⟩ hk hplain
  have hlt := (Array.getElem?_eq_some_iff.mp hq).1
  have hdiffers : ∀ {p : PathId} {m : NodeId}, s.Holds p m → m ≠ n → p.index ≠ q.index := by
    intro p m hp hne hindex
    obtain ⟨e, he, hem⟩ := hp
    rw [hindex, hq, Option.some.injEq] at he
    rw [← he, hn, Option.some.injEq] at hem
    exact hne hem.symm
  show PathId.climbWithin PathId.asScopeBlock? s.paths.size (some q) s = _
  cases h with
  | program hd hdn _ hprogram =>
    obtain ⟨kfn, hkfn, htype⟩ := Tree.kind_of_type? hprogram
    have hne : fn ≠ n := by
      rintro rfl
      obtain rfl := Option.some.inj (hk.symm.trans hkfn)
      rw [htype] at hplain
      cases hplain
    have hblock := hdiffers ⟨_, hd, hdn⟩ hne
    have hlt' := (Array.getElem?_eq_some_iff.mp hd).1
    obtain ⟨fuel, hfuel⟩ : ∃ fuel, s.paths.size = fuel + 1 + 1 := ⟨s.paths.size - 2, by omega⟩
    rw [hfuel, PathId.climbWithin_run_past hq hn hno, hparent]
    exact PathId.climbWithin_run_here ⟨_, hd, hdn⟩
      (PathId.isScopeBlock_run_of_owner ⟨_, hd, hdn⟩ hkfn (.inl htype)) fuel
  | @function e kfn _ _ hblock hkfn hfunction hc hbody hhost hup =>
    have hnode : e.node = some body := by
      rw [hhost.node]
      simp [Tree.occupant?, Tree.field?, hkfn, hc, Child.node?]
    obtain ⟨kb, hkb, htb⟩ := Tree.kind_of_type? hbody
    have hnefn : fn ≠ n := by
      rintro rfl
      obtain rfl := Option.some.inj (hk.symm.trans hkfn)
      simp [NodeType.isScopable, hfunction] at hplain
    have hnebody : body ≠ n := by
      rintro rfl
      obtain rfl := Option.some.inj (hk.symm.trans hkb)
      rw [htb] at hplain
      cases hplain
    have hnefb : fn ≠ body := by
      rintro rfl
      obtain rfl := Option.some.inj (hkfn.symm.trans hkb)
      rw [htb] at hfunction
      cases hfunction
    -- The three paths hold three nodes, so there are as many paths.
    have hdistinct : block.index ≠ host.index := by
      intro hindex
      obtain ⟨e', he', hen'⟩ := hblock
      rw [hindex, hhost.data, Option.some.injEq] at he'
      rw [← he', hnode, Option.some.injEq] at hen'
      exact hnefb hen'.symm
    have h₁ := hdiffers hblock hnefn
    have h₂ := hdiffers ⟨e, hhost.data, hnode⟩ hnebody
    have hlt₁ : block.index < s.paths.size := by
      obtain ⟨e', he', -⟩ := hblock
      exact (Array.getElem?_eq_some_iff.mp he').1
    have hlt₂ := (Array.getElem?_eq_some_iff.mp hhost.data).1
    obtain ⟨fuel, hfuel⟩ : ∃ fuel, s.paths.size = fuel + 1 + 1 + 1 :=
      ⟨s.paths.size - 3, by omega⟩
    rw [hfuel, PathId.climbWithin_run_past hq hn hno, hparent,
      PathId.climbWithin_run_past hhost.data hnode (PathId.isScopeBlock_run_of_body hhost.data hnode
        hbody hhost.container hkfn hfunction), hup]
    exact PathId.climbWithin_run_here hblock
      (PathId.isScopeBlock_run_of_owner hblock hkfn (.inr hfunction)) fuel

/-- The scope of a statement of a housed body is the scope of the function. -/
theorem Session.Houses.scope_run (h : s.Houses block fn host body)
    (hcrawled : s.scopes.crawled = true) (hi : s.scopes.byBlock.get? fn = some i)
    (hq : s.paths[q.index]? = some d) (hn : d.node = some n) (hparent : d.parent = some host)
    (hk : s.tree.kind? n = some k) (hplain : k.type.isScopable = false) :
    q.scope s = .ok i s := by
  unfold PathId.scope
  rw [bind_of_ok (ensureScopes_run hcrawled), run_get_bind]
  unfold scopeWithin
  rw [bind_of_ok (h.scopeBlock?_run hq hn hparent hk hplain)]
  dsimp only
  rw [run_get_bind, hi]
  rfl

end Espalier
