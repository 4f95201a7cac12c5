import Espalier.Proofs.Bodies
import Espalier.Proofs.Uids

set_option autoImplicit false

/-! # One declaration for all names

The names that are declared in a body share one `var`. When the first one is declared the `var` is
put in front of the statements (`Welcomes.sharedDeclaration_run`); from then on the session `Pools`
names in it: it is found again by its node, and each name becomes its last declarator
(`Pools.declareIn_run`). Initialisers are not looked into, so any node may serve as one, even
one that stands elsewhere in the tree. -/

namespace Espalier

open SessionM Session

variable {s s' : Session} {p q block host : PathId} {d : PathData} {fn body decl n : NodeId}
  {k : NodeKind} {i target : ScopeId} {ids rest ds : List NodeId}

/-! ## Bodies in changing trees -/

namespace Session

/-- New nodes do not move a body. -/
theorem Houses.allocated (h : s.Houses block fn host body) (k : NodeKind) :
    (s.allocated k).Houses block fn host body := by
  obtain ⟨kb, ids, hkb, -⟩ := h.list
  have hsame : s.SameIn (s.allocated k) (.slot fn) := sameIn_of_paths rfl rfl
  refine h.of_same (fun d hd => ⟨d, hd, rfl, rfl⟩) hsame (fun _ => ?_) ?_
  · cases h with
    | program _ _ _ hprogram =>
      obtain ⟨kf, hkf, -⟩ := Tree.kind_of_type? hprogram
      rw [kind?_allocated_of_some hkf, hkf]
    | function _ hkf => rw [kind?_allocated_of_some hkf, hkf]
  · rw [Tree.type?_of_kind (kind?_allocated_of_some hkb), Tree.type?_of_kind hkb]

/-- Nor does a change of a list. -/
theorem Houses.joined {owner : NodeId} {f : Field} {l : List NodeId} {j : Nat}
    (h : s.Houses block fn host body) (hs : s.Catalogued) (hk : s.tree.kind? owner = some k)
    (hc : k.child? f = some (.many l)) (hfn : owner = fn → fn = body) :
    (s.joined p owner f l j n).Houses block fn host body := by
  have htree := tree_joined p (n := n) (i := j) hk hc
  refine h.of_same (fun d hd => ⟨_, getElem?_joined hs hd, ?_, ?_⟩) (same_joined hs (by simp))
    (fun hne => htree.kind fn fun heq => ?_) ?_
  · split <;> simp
  · split <;> simp
  · exact hne (hfn heq.symm)
  · rw [← Tree.map_type_kind?, ← Tree.map_type_kind?, htree.type?]

end Session

/-! ## Registering a declaration without names -/

/-- What is no declaration is not registered. -/
theorem registerInserted_run_plain (hq : s.Holds q n) (hk : s.tree.kind? n = some k)
    (hplain : k.type.isDeclaration = false) : registerInserted [q] s = .ok () s := by
  have hasked : scopesCrawled s = .ok s.scopes.crawled s := rfl
  unfold registerInserted
  rw [bind_of_ok hasked]
  cases s.scopes.crawled with
  | false => rfl
  | true =>
    have hisAny := PathId.isAny_run_of_holds hq hk NodeType.isDeclaration
    rw [hplain] at hisAny
    exact bind_of_ok ((bind_of_ok hisAny).trans rfl)

/-- A `var` without declarators declares nothing. -/
theorem registerDeclarators_run_empty (ho : s.scopes.Ordered) (hi : s.HasScope i)
    (hq : s.Holds q decl) (hk : s.tree.kind? decl = some (.variableDeclaration .var [])) :
    registerDeclarators q .var i (fun _ => pure {}) s = .ok {} s := by
  obtain ⟨j, hfunction, -⟩ := ScopeId.functionScope_run ho hi
  have hfield : s.tree.field? decl .declarations = some (.many []) := by
    simp [Tree.field?, hk, NodeKind.child?, NodeKind.fields]
  have helements : q.elements .declarations s = .ok [] s := by
    unfold PathId.elements
    rw [bind_of_ok (PathId.node?_run_of_holds hq)]
    show (listLength decl .declarations >>= _) s = _
    rw [bind_of_ok (PathId.listLength_run hfield)]
    rfl
  unfold registerDeclarators
  rw [if_pos rfl, bind_of_ok hfunction]
  refine (bind_of_ok helements).trans ?_
  rfl

/-- Registering it changes nothing. -/
theorem registerInserted_run_empty (h : s.Houses block fn host body)
    (hcrawled : s.scopes.crawled = true) (ho : s.scopes.Ordered)
    (hi : s.scopes.byBlock.get? fn = some i) (hq : s.paths[q.index]? = some d)
    (hn : d.node = some decl) (hparent : d.parent = some host)
    (hk : s.tree.kind? decl = some (.variableDeclaration .var [])) :
    registerInserted [q] s = .ok () s := by
  have hholds : s.Holds q decl := ⟨d, hq, hn⟩
  have hregister : q.registerDeclaration s = .ok () s := by
    rw [PathId.registerDeclaration_run hholds,
      bind_of_ok (h.scope_run hcrawled hi hq hn hparent hk rfl)]
    unfold PathId.declareIn
    refine (bind_of_ok (ask_run hk)).trans ?_
    exact bind_of_ok (registerDeclarators_run_empty ho (ho.byBlock fn i hi) hholds hk)
  have hasked : scopesCrawled s = .ok true s := by rw [← hcrawled]; rfl
  unfold registerInserted
  rw [bind_of_ok hasked]
  have hisAny : q.isAny NodeType.isDeclaration s = .ok true s :=
    PathId.isAny_run_of_holds hholds hk _
  exact bind_of_ok ((bind_of_ok hisAny).trans hregister)

/-! ## The shared declaration -/

theorem NodeKind.child?_declarations (v : VariableKind) (ds : List NodeId) :
    (NodeKind.variableDeclaration v ds).child? .declarations = some (.many ds) := rfl

namespace Session

/-- The session with a `var` without names in front of the statements of a body. -/
def pooled (s : Session) (host : PathId) (body : NodeId) (ids : List NodeId) : Session :=
  let s₁ := (s.allocated (.variableDeclaration .var [])).joined host body .body ids 0 ⟨s.tree.size⟩
  { s₁ with scopes := { s.scopes with
      generated := s.scopes.generated.insert body ⟨s.tree.size⟩ } }

/-- Names that are declared in the body go into the `var` in front of its statements. -/
structure Pools (s : Session) (block : PathId) (fn : NodeId) (host : PathId) (body : NodeId)
    (q : PathId) (decl : NodeId) (rest ds : List NodeId) : Prop where
  catalogued : s.Catalogued
  houses : s.Houses block fn host body
  list : s.tree.list? body .body = some (decl :: rest)
  generated : s.scopes.generated.get? body = some decl
  dwells : s.Dwells q (.item body .body 0) (.element host body .body 0 decl)
  kind : s.tree.kind? decl = some (.variableDeclaration .var ds)
  known : ∀ n ∈ ds, n.index < s.tree.size
  sites : ∀ p ∈ s.bucket (.list decl .declarations), ∃ j n, ds[j]? = some n ∧
    s.paths[p.index]? = some (.element q decl .declarations j n)

variable (h : s.Pools block fn host body q decl rest ds)

include h

theorem Pools.ne_owner (hk : s.tree.kind? n = some k)
    (htype : k.type ≠ .variableDeclaration) : n ≠ decl := by
  rintro rfl
  obtain rfl := Option.some.inj (hk.symm.trans h.kind)
  exact htype rfl

theorem Pools.body_ne : body ≠ decl := by
  obtain ⟨kb, -, hkb, -, htype⟩ := h.houses.list
  exact h.ne_owner hkb (by rcases htype with htype | htype <;> simp [htype])

theorem Pools.fn_ne : fn ≠ decl := by
  cases h.houses with
  | program _ _ _ hprogram =>
    obtain ⟨kf, hkf, htype⟩ := Tree.kind_of_type? hprogram
    exact h.ne_owner hkf (by rw [htype]; simp)
  | @function _ kf _ _ _ hkf hfunction =>
    exact h.ne_owner hkf fun htype => by rw [htype] at hfunction; cases hfunction

theorem Pools.holds : s.Holds q decl := ⟨_, h.dwells.data, rfl⟩

/-- The shared declaration is found again, and nothing changes. -/
theorem Pools.sharedDeclaration_run : sharedDeclaration host body s = .ok q s := by
  obtain ⟨kb, hkb, hc⟩ := Option.bind_eq_some_iff.mp (Tree.list?_eq_some_iff.mp h.list)
  unfold sharedDeclaration
  rw [bind_of_ok (ask_run hkb), run_get_bind, h.generated, hc]
  have hfirst : (decl :: rest).idxOf? decl = some 0 := by simp [List.idxOf?_cons]
  simp only [Option.bind_some, Child.list?, Option.getD_some, hfirst]
  exact PathId.element_run_of_dwells h.houses.holds hkb hc h.dwells rfl

/-- Another scope table that knows the same shared declarations. -/
theorem Pools.of_scopes {T : ScopeTable} (hT : T.generated = s.scopes.generated) :
    Pools { s with scopes := T } block fn host body q decl rest ds where
  catalogued := h.catalogued.of_paths rfl rfl
  houses := h.houses.of_same (fun d hd => ⟨d, hd, rfl, rfl⟩) (sameIn_of_paths rfl rfl)
    (fun _ => rfl) rfl
  list := h.list
  generated := hT ▸ h.generated
  dwells := h.dwells.of_same (sameIn_of_paths rfl rfl) rfl
  kind := h.kind
  known := h.known
  sites := h.sites

/-- A new node that belongs to nothing. -/
theorem Pools.allocated (k : NodeKind) :
    (s.allocated k).Pools block fn host body q decl rest ds where
  catalogued := h.catalogued.of_paths rfl rfl
  houses := h.houses.allocated k
  list := by
    obtain ⟨kb, hkb, hc⟩ := Option.bind_eq_some_iff.mp (Tree.list?_eq_some_iff.mp h.list)
    rw [Tree.list?_eq_some_iff, Tree.field?, kind?_allocated_of_some hkb]
    exact hc
  generated := h.generated
  dwells := by
    obtain ⟨kb, hkb, -⟩ := Option.bind_eq_some_iff.mp (Tree.list?_eq_some_iff.mp h.list)
    refine h.dwells.of_same (sameIn_of_paths rfl rfl) ?_
    simp only [Tree.occupant?, Tree.list?, Tree.field?, kind?_allocated_of_some hkb, hkb]
  kind := kind?_allocated_of_some h.kind
  known n hn := by
    rw [size_allocated]
    exact Nat.lt_succ_of_lt (h.known n hn)
  sites := h.sites

/-- No path of the list holds another node. -/
theorem Pools.unheld (hn : n ∉ ds) : ∀ p ∈ s.bucket (.list decl .declarations),
    ∀ d, s.paths[p.index]? = some d → d.node ≠ some n := by
  intro p hp d hd hdn
  obtain ⟨j, m, hm, hdata⟩ := h.sites p hp
  obtain rfl := Option.some.inj (hd.symm.trans hdata)
  obtain rfl : m = n := Option.some.inj hdn
  exact hn (List.mem_of_getElem? hm)

/-- One more declarator. -/
theorem Pools.joined (hn : n.index < s.tree.size) :
    (s.joined q decl .declarations ds ds.length n).Pools block fn host body q decl rest
      (ds ++ [n]) := by
  have hc := NodeKind.child?_declarations .var ds
  have htree := tree_joined q (n := n) (i := ds.length) h.kind hc
  have hlists : ds.take ds.length ++ [n] ++ ds.drop ds.length = ds ++ [n] := by simp
  rw [hlists] at htree
  have hbody := htree.kind body h.body_ne
  refine ⟨h.catalogued.joined, h.houses.joined h.catalogued h.kind hc fun heq => absurd heq.symm h.fn_ne,
    ?_, h.generated, h.dwells.of_same (same_joined h.catalogued (by simp [Position.container])) ?_,
    ?_, ?_, ?_⟩
  · rw [Tree.list?, Tree.field?, hbody]
    exact h.list
  · simp only [Tree.occupant?, Tree.list?, Tree.field?, hbody]
  · obtain ⟨k, hk, -, hkind⟩ := htree.list
    obtain rfl := Option.some.inj (h.kind.symm.trans hk)
    exact hkind
  · intro m hm
    rw [htree.size]
    rcases List.mem_append.mp hm with hm | hm
    · exact h.known m hm
    · rwa [List.mem_singleton.mp hm]
  · intro p hp
    rw [bucket_joined, if_pos rfl] at hp
    rcases List.mem_append.mp hp with hp | hp
    · obtain ⟨j, m, hm, hdata⟩ := h.sites p hp
      have hlt := (List.getElem?_eq_some_iff.mp hm).1
      refine ⟨j, m, by rw [List.getElem?_append_left hlt, hm], ?_⟩
      rw [getElem?_joined h.catalogued hdata, if_pos hp, PathData.shifted_of_index _ _ rfl,
        if_neg (by omega)]
      rfl
    · obtain rfl := List.mem_singleton.mp hp
      exact ⟨ds.length, n, by simp, getElem?_joined_new⟩

/-- A declarator is put behind the others, and gets a path. -/
theorem Pools.pushInto_run (hn : n ∉ ds) (hk : s.tree.kind? n = some k)
    (hplain : k.type.isDeclaration = false) : q.pushInto .declarations [n] s =
      .ok [⟨s.paths.size⟩] (s.joined q decl .declarations ds ds.length n) := by
  have hfield : s.tree.field? decl .declarations = some (.many ds) := by
    rw [Tree.field?, h.kind]
    rfl
  have hinsert := PathId.insertAt_run_of_new (i := ds.length) h.catalogued h.holds h.kind
    (NodeKind.child?_declarations .var ds) (Nat.le_refl _) (h.unheld hn)
  have hregister : registerInserted [⟨s.paths.size⟩]
      (s.joined q decl .declarations ds ds.length n) =
        .ok () (s.joined q decl .declarations ds ds.length n) := by
    have htree := tree_joined q (n := n) (i := ds.length) h.kind
      (NodeKind.child?_declarations .var ds)
    refine registerInserted_run_plain (n := n) (k := k) ⟨_, getElem?_joined_new, rfl⟩ ?_ hplain
    rw [htree.kind n (h.ne_owner hk fun htype => by rw [htype] at hplain; cases hplain), hk]
  rw [bind_of_ok hregister] at hinsert
  unfold PathId.pushInto
  rw [bind_of_ok (PathId.isRemoved_run h.dwells.data)]
  show (q.node? >>= _) s = _
  rw [bind_of_ok (PathId.node?_run_of_holds h.holds)]
  show (listLength decl .declarations >>= _) s = _
  rw [bind_of_ok (PathId.listLength_run hfield)]
  exact hinsert

end Session

/-! ## The first name -/

namespace Session

/-- A body that takes its first name: it is housed, its scope was built, no declaration is known to
be shared in it, and its paths hold nodes of the tree. -/
structure Welcomes (s : Session) (i : ScopeId) (block : PathId) (fn : NodeId) (host : PathId)
    (body : NodeId) (ids : List NodeId) : Prop where
  catalogued : s.Catalogued
  houses : s.Houses block fn host body
  list : s.tree.list? body .body = some ids
  crawled : s.scopes.crawled = true
  ordered : s.scopes.Ordered
  found : s.scopes.byBlock.get? fn = some i
  generated : s.scopes.generated.get? body = none
  known : ∀ q ∈ s.bucket (.list body .body), ∀ d, s.paths[q.index]? = some d →
    ∀ n, d.node = some n → n.index < s.tree.size
  unused : s.bucket (.list ⟨s.tree.size⟩ .declarations) = []

variable (h : s.Welcomes i block fn host body ids)

include h

/-- Once there is the new node, it can be put into the body. -/
theorem Welcomes.unheld : ∀ q ∈ s.bucket (.list body .body), ∀ d, s.paths[q.index]? = some d →
    d.node ≠ some ⟨s.tree.size⟩ :=
  fun q hq d hd hn => Nat.lt_irrefl _ (h.known q hq d hd _ hn)

/-- The new `var` is pooled in. -/
theorem Welcomes.pools : (s.pooled host body ids).Pools block fn host body ⟨s.paths.size⟩
    ⟨s.tree.size⟩ ids [] := by
  let s₁ := s.allocated (.variableDeclaration .var [])
  have hs₁ : s₁.Catalogued := h.catalogued.of_paths rfl rfl
  obtain ⟨kb, hkb, hc⟩ := Option.bind_eq_some_iff.mp (Tree.list?_eq_some_iff.mp h.list)
  have hkb₁ : s₁.tree.kind? body = some kb := kind?_allocated_of_some hkb
  have htree := tree_joined host (s := s₁) (n := ⟨s.tree.size⟩) (i := 0) hkb₁ hc
  have hbody : (⟨s.tree.size⟩ : NodeId) ≠ body := by
    have hlt := (s.tree.kind?_isSome_iff body).mp ⟨kb, hkb⟩
    intro heq
    rw [← heq] at hlt
    exact Nat.lt_irrefl _ hlt
  have hjoined : Pools { s₁.joined host body .body ids 0 ⟨s.tree.size⟩ with
      scopes := (s.pooled host body ids).scopes } block fn host body ⟨s.paths.size⟩
      ⟨s.tree.size⟩ ids [] := by
    have hhouses := (h.houses.allocated (.variableDeclaration .var [])).joined
      (p := host) (n := ⟨s.tree.size⟩) (j := 0) hs₁ hkb₁ hc fun heq => heq.symm
    have hdwells := dwells_joined host (n := ⟨s.tree.size⟩) hs₁ hkb₁ hc
      (Nat.zero_le _) h.unheld
    refine ⟨hs₁.joined.of_paths rfl rfl, ?_, ?_, ?_, ?_, ?_, by simp, ?_⟩
    · exact hhouses.of_same (fun d hd => ⟨d, hd, rfl, rfl⟩) (sameIn_of_paths rfl rfl)
        (fun _ => rfl) rfl
    · exact htree.list?'.trans (by simp)
    · exact (Table.get?_insert _ _ _ _).trans (if_pos rfl)
    · exact hdwells.of_same (sameIn_of_paths rfl rfl) rfl
    · refine (htree.kind _ hbody).trans ?_
      rw [kind?_allocated, if_pos rfl]
    · intro p hp
      have hp : p ∈ (s₁.joined host body .body ids 0 ⟨s.tree.size⟩).bucket
        (.list ⟨s.tree.size⟩ .declarations) := hp
      rw [bucket_joined, if_neg (by simp)] at hp
      have hp : p ∈ s.bucket (.list ⟨s.tree.size⟩ .declarations) := hp
      rw [h.unused] at hp
      cases hp
  exact hjoined

/-- When the first name is declared, the declaration is made. -/
theorem Welcomes.sharedDeclaration_run : sharedDeclaration host body s =
    .ok ⟨s.paths.size⟩ (s.pooled host body ids) := by
  let s₁ := s.allocated (.variableDeclaration .var [])
  have hs₁ : s₁.Catalogued := h.catalogued.of_paths rfl rfl
  have hhouses : s₁.Houses block fn host body := h.houses.allocated _
  obtain ⟨kb, hkb, hc⟩ := Option.bind_eq_some_iff.mp (Tree.list?_eq_some_iff.mp h.list)
  have hkb₁ : s₁.tree.kind? body = some kb := kind?_allocated_of_some hkb
  have hpools := h.pools
  have hjoined : (s₁.joined host body .body ids 0 ⟨s.tree.size⟩).Houses block fn host body :=
    hhouses.joined hs₁ hkb₁ hc fun heq => heq.symm
  have hregister := registerInserted_run_empty (q := ⟨s.paths.size⟩) hjoined h.crawled h.ordered
    h.found getElem?_joined_new rfl rfl hpools.kind
  have hinsert := PathId.insertAt_run_of_new (i := 0) hs₁ hhouses.holds hkb₁ hc (Nat.zero_le _)
    h.unheld
  rw [show (⟨s₁.paths.size⟩ : PathId) = ⟨s.paths.size⟩ from rfl, bind_of_ok hregister] at hinsert
  have hunshift : host.unshiftInto .body [⟨s.tree.size⟩] s₁ =
      .ok [⟨s.paths.size⟩] (s₁.joined host body .body ids 0 ⟨s.tree.size⟩) := by
    unfold PathId.unshiftInto
    rw [bind_of_ok hhouses.isRemoved_run]
    exact hinsert
  unfold sharedDeclaration
  rw [bind_of_ok (ask_run hkb), run_get_bind, h.generated]
  show (onTree (TreeM.alloc (.variableDeclaration .var [])) >>= _) s = _
  rw [bind_of_ok (alloc_run _)]
  exact (bind_of_ok hunshift).trans rfl

end Session

/-! ## Declaring a name -/

namespace Session

/-- The session once a name is declared in the shared declaration. -/
def poured (s : Session) (q : PathId) (decl : NodeId) (ds : List NodeId) (name : String)
    (init : Option NodeId) : Session :=
  ((s.allocated (.identifier name none)).allocated
    (.variableDeclarator ⟨s.tree.size⟩ init)).joined q decl .declarations ds ds.length
      ⟨s.tree.size + 1⟩

/-- The binding of a name that is declared next. -/
def nextBinding (s : Session) (target : ScopeId) (name : String) : Binding :=
  { name, identifier := ⟨s.tree.size⟩, scope := target, path := ⟨s.paths.size⟩, kind := .var }

end Session

/-- The end of a declaration: the declarator and its binding. -/
def ScopeId.declareIn (target : ScopeId) (declaration : PathId) (name : String)
    (init : Option NodeId) : SessionM PathId := do
  let id ← onTree (TreeM.identifier name)
  let declarator ← onTree (TreeM.alloc (.variableDeclarator id init))
  let inserted ← declaration.pushInto .declarations [declarator]
  let path ← found inserted.head?
  target.registerBinding name .var path id
  pure path

theorem Session.Pools.poured (h : s.Pools block fn host body q decl rest ds) (name : String)
    (init : Option NodeId) : (s.poured q decl ds name init).Pools block fn host body q decl rest
      (ds ++ [⟨s.tree.size + 1⟩]) :=
  ((h.allocated _).allocated _).joined (by simp)

theorem Session.Pools.declareIn_run (h : s.Pools block fn host body q decl rest ds)
    (ho : s.scopes.Ordered) (ht : s.HasScope target) (name : String) (init : Option NodeId) :
    ∃ j, target.declareIn q name init s = .ok ⟨s.paths.size⟩
      (((s.poured q decl ds name init).mapScope j fun sc => sc.noteName name).mapScope target
        fun sc => sc.declare (s.nextBinding target name)) := by
  let s₁ := s.allocated (.identifier name none)
  let s₂ := s₁.allocated (.variableDeclarator ⟨s.tree.size⟩ init)
  have h₂ : s₂.Pools block fn host body q decl rest ds := (h.allocated _).allocated _
  have hsize : s₁.tree.size = s.tree.size + 1 := size_allocated _
  have hidentifier : onTree (TreeM.identifier name) s = .ok ⟨s.tree.size⟩ s₁ := alloc_run _
  have hdeclarator : onTree (TreeM.alloc (.variableDeclarator ⟨s.tree.size⟩ init)) s₁ =
      .ok ⟨s.tree.size + 1⟩ s₂ := by rw [alloc_run, hsize]
  have hpush : q.pushInto .declarations [⟨s.tree.size + 1⟩] s₂ =
      .ok [⟨s.paths.size⟩] (s.poured q decl ds name init) := by
    refine h₂.pushInto_run (k := .variableDeclarator ⟨s.tree.size⟩ init) (fun hmem => ?_) ?_ rfl
    · have hlt : s.tree.size + 1 < s.tree.size := h.known _ hmem
      omega
    · rw [kind?_allocated, hsize, if_pos rfl]
  obtain ⟨j, -, hregister⟩ := ScopeId.registerBinding_run (s := s.poured q decl ds name init)
    ho ht name .var ⟨s.paths.size⟩ ⟨s.tree.size⟩
  refine ⟨j, ?_⟩
  unfold ScopeId.declareIn
  rw [bind_of_ok hidentifier, bind_of_ok hdeclarator, bind_of_ok hpush]
  exact bind_of_ok hregister

/-- A name is declared in the function scope, once the body and the shared declaration are at
hand. -/
theorem ScopeId.pushDeclaration_run {s₁ : Session} {sc : Scope}
    (hfunction : i.functionScope s = .ok target s)
    (hsc : s.scopes.scopes[target.index]? = some sc) (hblock : sc.block = block)
    (hhost : declarationHost block s = .ok host s₁) (hbody : s₁.Holds host body)
    (hshared : sharedDeclaration host body s₁ = .ok q s') (name : String) (init : Option NodeId) :
    i.pushDeclaration name init s = target.declareIn q name init s' := by
  unfold ScopeId.pushDeclaration
  rw [bind_of_ok hfunction, bind_of_ok (ScopeId.data_run hsc), hblock, bind_of_ok hhost,
    bind_of_ok (PathId.node?_run_of_holds hbody)]
  exact bind_of_ok hshared

/-! ## What the declaration says -/

namespace Session

/-- The scope has this binding of the name. -/
def Assigns (s : Session) (target : ScopeId) (x : String) (v : Binding) : Prop :=
  ∃ sc : Scope, s.scopes.scopes[target.index]? = some sc ∧ sc.bindings.get? x = some v

/-- The declarators of the shared declaration are for these names with these initialisers, in
order. The binding of a name is that of its last declarator. -/
structure Pledges (s : Session) (target : ScopeId) (q : PathId) (decl : NodeId) (ds : List NodeId)
    (items : List (String × Option NodeId)) : Prop where
  declarators : List.Forall₂ (fun n item => ∃ id,
    s.tree.kind? n = some (.variableDeclarator id item.2) ∧
      s.tree.kind? id = some (.identifier item.1 none)) ds items
  bindings : ∀ j x init, items[j]? = some (x, init) → (∀ j' init', j < j' →
    items[j']? ≠ some (x, init')) → ∃ v n, s.Assigns target x v ∧ v.kind = .var ∧
      ds[j]? = some n ∧ s.tree.kind? n = some (.variableDeclarator v.identifier init) ∧
        s.paths[v.path.index]? = some (.element q decl .declarations j n)

/-- The bindings of the scope are for identifiers in the tree. -/
def Identifies (s : Session) (target : ScopeId) : Prop :=
  ∀ x v, s.Assigns target x v → v.identifier.index < s.tree.size

/-- The session once a name is declared in the shared declaration and bound in a scope; `outer` is
the scope that notes that the name occurs. -/
def declared (s : Session) (outer target : ScopeId) (q : PathId) (decl : NodeId)
    (ds : List NodeId) (name : String) (init : Option NodeId) : Session :=
  ((s.poured q decl ds name init).mapScope outer fun sc => sc.noteName name).mapScope target
    fun sc => sc.declare (s.nextBinding target name)

section Declared

variable {outer : ScopeId} {name : String} {init : Option NodeId}
  {items : List (String × Option NodeId)}

/-- Other names are bound as before, and the name is bound by its new declarator. -/
theorem assigns_declared (outer : ScopeId) (q : PathId) (decl : NodeId) (ds : List NodeId)
    (name : String) (init : Option NodeId) (ht : s.HasScope target) (hids : s.Identifies target) :
    ∃ v, (∀ y w, (s.declared outer target q decl ds name init).Assigns target y w ↔
      if y = name then w = v else s.Assigns target y w) ∧ v.kind = .var ∧
        v.identifier = ⟨s.tree.size⟩ ∧ v.path = ⟨s.paths.size⟩ := by
  obtain ⟨sc, hsc⟩ := ht.scope
  have hscope : ∃ note : Scope, note.bindings = sc.bindings ∧
      (s.declared outer target q decl ds name init).scopes.scopes[target.index]? =
        some (note.declare (s.nextBinding target name)) := by
    have hsc' : (s.poured q decl ds name init).scopes.scopes[target.index]? = some sc := hsc
    unfold Session.declared
    rw [getElem?_mapScope, if_pos rfl, getElem?_mapScope, hsc']
    split
    · exact ⟨sc.noteName name, rfl, rfl⟩
    · exact ⟨sc, rfl, rfl⟩
  obtain ⟨note, hnote, hscope⟩ := hscope
  have hassigns : ∀ y w, (s.declared outer target q decl ds name init).Assigns target y w ↔
      (note.declare (s.nextBinding target name)).bindings.get? y = some w := by
    intro y w
    unfold Assigns
    rw [hscope]
    simp
  have hold : ∀ y w, s.Assigns target y w ↔ sc.bindings.get? y = some w := by
    intro y w
    unfold Assigns
    rw [hsc]
    simp
  refine ⟨(s.nextBinding target name).over (sc.bindings.get? name), fun y w => ?_, ?_⟩
  · rw [hassigns, Scope.get?_declare, hnote, hold]
    show (if y = name then some _ else _) = some w ↔ _
    split
    · exact ⟨fun heq => (Option.some.inj heq).symm, fun heq => heq ▸ rfl⟩
    · exact Iff.rfl
  · -- An earlier binding of the name is for another identifier.
    cases hget : sc.bindings.get? name with
    | none => exact ⟨rfl, rfl, rfl⟩
    | some old =>
      have hlt := hids name old ((hold name old).mpr hget)
      have hne : old.identifier ≠ (s.nextBinding target name).identifier := by
        intro heq
        rw [heq] at hlt
        exact Nat.lt_irrefl _ hlt
      simp only [Binding.over, hne, if_false]
      exact ⟨rfl, rfl, rfl⟩

variable (h : s.Pools block fn host body q decl rest ds)

include h

theorem Pools.declared : (s.declared outer target q decl ds name init).Pools block fn host body q
    decl rest (ds ++ [⟨s.tree.size + 1⟩]) :=
  ((h.poured name init).of_scopes rfl).of_scopes rfl

/-- The tree has two new nodes, and changes in the list of the shared declaration. -/
theorem Pools.tree_declared : ((s.allocated (.identifier name none)).allocated
    (.variableDeclarator ⟨s.tree.size⟩ init)).tree.Relisted decl .declarations ds
      (ds.take ds.length ++ [⟨s.tree.size + 1⟩] ++ ds.drop ds.length)
      (s.declared outer target q decl ds name init).tree :=
  tree_joined q ((h.allocated _).allocated _).kind (NodeKind.child?_declarations .var ds)

theorem Pools.kind?_declared_of_some (hk : s.tree.kind? n = some k) (hn : n ≠ decl) :
    (s.declared outer target q decl ds name init).tree.kind? n = some k := by
  rw [h.tree_declared.kind n hn]
  exact kind?_allocated_of_some (kind?_allocated_of_some hk)

/-- The new identifier and the new declarator. -/
theorem Pools.kind?_declared_new (outer target : ScopeId) (name : String) (init : Option NodeId) :
    (s.declared outer target q decl ds name init).tree.kind? ⟨s.tree.size⟩ =
        some (.identifier name none) ∧
      (s.declared outer target q decl ds name init).tree.kind? ⟨s.tree.size + 1⟩ =
        some (.variableDeclarator ⟨s.tree.size⟩ init) := by
  have hlt := (s.tree.kind?_isSome_iff decl).mp ⟨_, h.kind⟩
  have hne : ∀ {j : Nat}, s.tree.size ≤ j → (⟨j⟩ : NodeId) ≠ decl := by
    rintro j hj rfl
    exact absurd hlt (by simpa using hj)
  rw [h.tree_declared.kind _ (hne (Nat.le_refl _)), h.tree_declared.kind _ (hne (Nat.le_succ _))]
  constructor
  · refine kind?_allocated_of_some ?_
    rw [kind?_allocated, if_pos rfl]
  · rw [kind?_allocated, size_allocated, if_pos rfl]

theorem Pools.size_declared :
    (s.declared outer target q decl ds name init).tree.size = s.tree.size + 2 := by
  rw [h.tree_declared.size]
  simp

/-- A path keeps what it is about; a place in the list of declarators stays where it is. -/
theorem Pools.getElem?_declared (hd : s.paths[p.index]? = some d) :
    (s.declared outer target q decl ds name init).paths[p.index]? =
      some (if p ∈ s.bucket (.list decl .declarations) then d.shifted ds.length 1 else d) :=
  getElem?_joined ((h.allocated _).allocated _).catalogued hd

/-- What the declaration says of earlier names it says again, and it says it of the new name. -/
theorem Pools.pledges_declared (ht : s.HasScope target) (hids : s.Identifies target)
    (hpledges : s.Pledges target q decl ds items) :
    (s.declared outer target q decl ds name init).Pledges target q decl
      (ds ++ [⟨s.tree.size + 1⟩]) (items ++ [(name, init)]) := by
  have hlength := hpledges.declarators.length_eq
  have hne : ∀ {n k}, s.tree.kind? n = some k → k.type ≠ .variableDeclaration → n ≠ decl :=
    fun hk htype => h.ne_owner hk htype
  obtain ⟨hidentifier, hdeclarator⟩ := h.kind?_declared_new outer target name init
  obtain ⟨v, hassigns, hkind, hid, hpath⟩ := assigns_declared outer q decl ds name init ht hids
  constructor
  · refine List.rel_append (hpledges.declarators.imp fun n item => ?_)
      (.cons ⟨_, hdeclarator, hidentifier⟩ .nil)
    rintro ⟨id, hn, hid⟩
    exact ⟨id, h.kind?_declared_of_some hn (hne hn (by simp [NodeKind.type])),
      h.kind?_declared_of_some hid (hne hid (by simp [NodeKind.type]))⟩
  · intro j x init' hitem hlast
    rcases Nat.lt_trichotomy j items.length with hj | rfl | hj
    · rw [List.getElem?_append_left hj] at hitem
      have hx : x ≠ name := by
        rintro rfl
        exact hlast items.length init hj (by simp)
      obtain ⟨w, n, hw, hwkind, hn, hnk, hwpath⟩ := hpledges.bindings j x init' hitem
        fun j' init'' hlt heq => hlast j' init'' hlt (by
          rw [List.getElem?_append_left (List.getElem?_eq_some_iff.mp heq).1, heq])
      refine ⟨w, n, (hassigns x w).mpr (by rwa [if_neg hx]), hwkind, ?_, ?_, ?_⟩
      · rw [List.getElem?_append_left (by omega), hn]
      · exact h.kind?_declared_of_some hnk (hne hnk (by simp [NodeKind.type]))
      · rw [h.getElem?_declared hwpath]
        split
        · rw [PathData.shifted_of_index _ _ rfl, if_neg (by omega)]
          rfl
        · rfl
    · obtain ⟨rfl, rfl⟩ : name = x ∧ init = init' := by simpa using hitem
      refine ⟨v, ⟨s.tree.size + 1⟩, (hassigns _ v).mpr (by simp), hkind, ?_, ?_, ?_⟩
      · rw [← hlength]
        simp
      · rw [hid, hdeclarator]
      · rw [hpath, ← hlength]
        exact getElem?_joined_new
    · rw [List.getElem?_eq_none (by simp; omega)] at hitem
      cases hitem

theorem Pools.identifies_declared (ht : s.HasScope target) (hids : s.Identifies target) :
    (s.declared outer target q decl ds name init).Identifies target := by
  obtain ⟨v, hassigns, -, hid, -⟩ := assigns_declared outer q decl ds name init ht hids
  intro x w hw
  rw [h.size_declared]
  have hw := (hassigns x w).mp hw
  split at hw
  · rw [hw, hid]
    show s.tree.size < s.tree.size + 2
    omega
  · have hlt := hids x w hw
    omega

end Declared

end Session

end Espalier
