import Espalier.Proofs.Arrivals
import Espalier.Proofs.Arrows
import Espalier.Proofs.Pooling

set_option autoImplicit false

/-! # Names declared on request

Several calls may ask for names in one function or program, from any scope inside it. The first call
finds the body, or makes a block of it, and puts the shared declaration in front
(`Targets.requests_return`); after it the declaration `Serves` every further call
(`Serves.requests_return`). What an earlier call made is kept by the later ones, since they change
nothing but the body and the declaration (`LeavesAlone`). -/

namespace Espalier

open SessionM Session

variable {s s' : Session} {t : Tree} {config : Config} {i target : ScopeId} {fn : NodeId}

/-! ## Opened sessions -/

/-- After the crawl all bindings are for identifiers of the tree, and no declaration is shared. -/
theorem ensureScopes_books (h : t.IsProgram) (config : Config) :
    Returns ensureScopes { tree := t, config } fun _ s =>
      s.Identified ∧ s.scopes.generated = .empty := by
  obtain ⟨r, hr, -⟩ := h.root
  let s₀ : Session := { tree := t, config, scopes := { crawled := true } }
  have hsound : s₀.Sound t.reachable := sound_fresh h.forest config _
  have hordered : s₀.scopes.Ordered := ScopeTable.ordered_empty true
  have hidentified : s₀.Identified := fun i sc x b hsc => by simp [s₀] at hsc
  suffices hcrawl : Returns (do
      let root ← rootPath
      if (← root.node?).isSome then
        let _ ← crawlScope root none) s₀ fun _ s =>
          s.Identified ∧ s.scopes.generated = .empty from hcrawl
  refine (pathFor_returns .root hsound (fun p hp => by simp at hp) rfl).bind fun p s₁ hp => ?_
  obtain ⟨d, hf, -⟩ := hp.files
  have hpr : s₁.Holds p r := hf.holds (by rw [hp.tree]; exact hr)
  have hsur := hp.toWent.surveys hordered
  refine returns_bind_of_ok (PathId.node?_run_of_holds hpr) ?_
  rw [Option.isSome_some, if_pos rfl]
  refine (crawlScope_settles (G := False) hsur.sound hsur.ordered hpr none (by simp) False.elim
    False.elim False.elim False.elim).bind fun i s₃ h₃ => .pure ?_
  obtain ⟨-, u, s₂, h₂, hset⟩ := h₃
  have hbooks := (hp.toWent.books.trans h₂.books).trans hset.books
  exact ⟨hbooks.identified hidentified, hbooks.generated⟩

namespace Session

/-- Whether its scopes were built at once or are built now, a program is crawled as a fresh one. -/
theorem ensureScopes_of_open? {s₀ : Session} (ht : t.IsProgram) (hgrammar : t.Grammatical)
    (hopen : Session.open? t config = .ok s₀) (hrun : ensureScopes s₀ = .ok () s) :
    ensureScopes { tree := t, config } = .ok () s := by
  by_cases hlazy : config.lazyScopes = true
  · unfold Session.open? at hopen
    rw [if_pos hlazy] at hopen
    cases hopen
    exact hrun
  · obtain ⟨_, s₁, hcrawl, -, hcrawled, -⟩ := ensureScopes_crawled ht hgrammar config
    have hopen' := open?_of_ensureScopes (by simpa using hlazy) hcrawl
    obtain rfl := Except.ok.inj (hopen.symm.trans hopen')
    rw [ensureScopes_run hcrawled] at hrun
    cases hrun
    exact hcrawl

/-- What is known about the bindings of a session in which nothing was edited. -/
theorem Fresh.booked (ht : t.IsProgram) (hgrammar : t.Grammatical) (h : Fresh t s) :
    s.Identified ∧ s.scopes.generated = .empty ∧ s.Accounted := by
  induction h with
  | @crawled config s₀ s hopen hrun =>
    have hensure := ensureScopes_of_open? ht hgrammar hopen hrun
    obtain ⟨hids, hgenerated⟩ := (ensureScopes_books ht config).of_eq_ok hensure
    have hempty : Session.Accounted { tree := t, config } :=
      ⟨ScopeTable.ordered_empty false, by rintro i x ⟨sc, hsc, -⟩; simp at hsc⟩
    have haccounted := (Upholding.ensureScopes _ hempty).accounted
    rw [after_of_ok hensure] at haccounted
    exact ⟨hids, hgenerated, haccounted⟩
  | @moved s m h ih =>
    obtain ⟨hids, hgenerated, haccounted⟩ := ih
    have hwent := m.roaming s _ (h.settled ht hgrammar).1.upright.sound
    exact ⟨hwent.books.identified hids, hwent.books.generated.trans hgenerated,
      (haccounted.of_table hwent.scopes).accounted⟩
  | @built s t' h hgrown hsmall ih =>
    obtain ⟨hids, hgenerated, haccounted⟩ := ih
    have hbuilt : s.Upholds { s with tree := t' } := haccounted.of_table rfl
    exact ⟨fun i sc x b hsc hx => Nat.lt_of_lt_of_le (hids i sc x b hsc hx) hgrown.size,
      hgenerated, hbuilt.accounted⟩

end Session

/-! ## Scopes that take declarations -/

namespace Session

variable {s s' : Session} {K : Set NodeId} {i j target : ScopeId} {block : PathId} {fn : NodeId}

/-- The way outward is a matter of the places of the scopes. -/
theorem Retains.hoists (h : s.Retains s') (hi : s.Hoists i j) : s'.Hoists i j := by
  have hfunction : ∀ {i sc}, s.scopes.scopes[i]? = some sc →
      (s'.IsFunctionScope ⟨i⟩ ↔ s.IsFunctionScope ⟨i⟩) := by
    intro i sc hsc
    obtain ⟨sc', hsc', hplace, -⟩ := h i sc hsc
    simp only [Scope.place, Prod.mk.injEq] at hplace
    simp [IsFunctionScope, hsc, hsc', Scope.isFunctionScope, hplace.2.1]
  induction hi with
  | here hi =>
    obtain ⟨sc, hsc, -⟩ := id hi
    exact .here ((hfunction hsc).mpr hi)
  | last hno hout =>
    obtain ⟨sc, hsc, hnone⟩ := id hout
    obtain ⟨sc', hsc', hp⟩ := h.parent hsc
    exact .last (fun hi => hno ((hfunction hsc).mp hi)) ⟨sc', hsc', hp.trans hnone⟩
  | outer hno ha _ ih =>
    obtain ⟨sc, hsc, hj⟩ := id ha
    obtain ⟨sc', hsc', hp⟩ := h.parent hsc
    exact .outer (fun hi => hno ((hfunction hsc).mp hi)) ⟨sc', hsc', hp.trans hj⟩ ih

end Session

/-- Only from a scope of the table a function scope is found: the first one on the way outward. -/
theorem ScopeId.hoists_of_functionScope (ho : s.scopes.Ordered)
    (hrun : i.functionScope s = .ok target s') : s.HasScope i ∧ s.Hoists i target := by
  by_cases hi : s.HasScope i
  · obtain ⟨j, hj, hhoists⟩ := functionScope_run ho hi
    rw [hj] at hrun
    cases hrun
    exact ⟨hi, hhoists⟩
  · -- Without a scope there is no way outward, and then no outermost scope either.
    obtain ⟨l, s₁, hchain, -⟩ := bind_eq_ok hrun
    have hprogram : i.programScope s = .ok (l.getLastD i) s₁ := bind_of_ok hchain
    rw [programScope_unknown hi] at hprogram
    cases hprogram

namespace Session

/-- A function or program in a session in which no name was declared yet, with its scope. -/
structure Targets (s : Session) (K : Set NodeId) (target : ScopeId) (block : PathId) (fn : NodeId) :
    Prop where
  sound : s.Sound K
  crawled : s.scopes.crawled = true
  scope : ∃ sc : Scope, s.scopes.scopes[target.index]? = some sc ∧ sc.block = block
  holds : s.Holds block fn
  owns : s.tree.OwnsVariables fn
  found : s.scopes.byBlock.get? fn = some target
  generated : s.scopes.generated = .empty
  identified : s.Identified
  accounted : s.Accounted

end Session

theorem Tree.HoistsTo.ownsVariables {t : Tree} {b c : NodeId} (h : t.HoistsTo b c) :
    t.OwnsVariables c := by
  induction h with
  | here hb => exact hb
  | outer _ _ _ ih => exact ih

/-- Where nothing was edited, every scope leads to the scope of a function or a program. -/
theorem Session.Fresh.targets (ht : t.IsProgram) (hgrammar : t.Grammatical) (h : Fresh t s)
    (hrun : i.functionScope s = .ok target s) :
    ∃ block fn, s.Targets t.reachable target block fn := by
  obtain ⟨hprudent, hf, hcrawled, -⟩ := h.settled ht hgrammar
  obtain ⟨hidentified, hgenerated, haccounted⟩ := h.booked ht hgrammar
  have hup := hprudent.upright
  obtain ⟨hi, hhoists⟩ := ScopeId.hoists_of_functionScope hup.ordered hrun
  obtain ⟨sc, hsc⟩ := hi.scope
  obtain ⟨b, -, hb, -⟩ := hf.block _ sc hsc
  obtain ⟨c, hc, hscope⟩ := hhoists.scopeOf hf hup.program ⟨sc, hsc, hb⟩
  obtain ⟨sc', hsc', hholds⟩ := id hscope
  exact ⟨sc'.block, c, hup.sound, hcrawled, ⟨sc', hsc', rfl⟩, hholds, hc.ownsVariables,
    hup.found _ _ hscope, hgenerated, hidentified, haccounted⟩

/-! ## The body -/

/-- The statements in the body of a function or a program. -/
inductive Tree.BodyOf (t : Tree) (fn : NodeId) : NodeId → List NodeId → Prop
  | program {ids : List NodeId} : t.type? fn = some .program → t.list? fn .body = some ids →
      BodyOf t fn fn ids
  | function {body : NodeId} {ids : List NodeId} : t.field? fn .body = some (.one body) →
      t.type? body = some .blockStatement → t.list? body .body = some ids → BodyOf t fn body ids

/-- Where the places in a list are renumbered, a path hangs as it hung. -/
theorem PathData.shifted_keeps (d : PathData) (start : Nat) (delta : Int) :
    (d.shifted start delta).node = d.node ∧ (d.shifted start delta).container = d.container ∧
      (d.shifted start delta).parent = d.parent ∧
        ∀ f, d.key = .field f → (d.shifted start delta).key = .field f := by
  refine ⟨node_shifted .., container_shifted .., ?_, fun f hf => ?_⟩
  · unfold shifted
    split
    · split <;> rfl
    · rfl
  · unfold shifted
    simp [hf]

namespace Session

variable {s s₁ s' : Session} {K : Set NodeId} {i target : ScopeId} {p q r x block host : PathId}
  {fn body decl expr ret n : NodeId} {k : NodeKind} {ids rest ds : List NodeId} {d : PathData}
  {f : Field}

/-- The path holds the node, in the container, with this path as its parent. -/
def Hangs (s : Session) (p : PathId) (n : NodeId) (c : Container) (q : PathId) : Prop :=
  ∃ d, s.paths[p.index]? = some d ∧ d.node = some n ∧ d.container = c ∧ d.parent = some q

/-- In the first session the function has an expression as its body. In the second one it has a
block with a `return` of the expression; the path of the expression hangs below the `return`, this
one below the block, and the block below the function. -/
structure Braces (s s' : Session) (block : PathId) (fn : NodeId) (host : PathId) (body : NodeId)
    (expr ret : NodeId) : Prop where
  field : s.tree.field? fn .body = some (.one expr)
  plain : s.tree.type? expr ≠ some .blockStatement
  fresh : s.tree.size ≤ ret.index
  kind : s'.tree.kind? ret = some (.returnStatement (some expr))
  path : ∀ x, s.Holds x expr → (∃ d, s'.paths[x.index]? = some d ∧ d.key = .field .argument) ∧
    ∃ r, s'.Hangs x expr (.slot ret) r ∧ s'.Hangs r ret (.list body .body) host ∧
      s'.Hangs host body (.slot fn) block

/-- What declarations leave alone: what a path holds and where it hangs, and nodes that are neither
the body nor a declaration. -/
structure LeavesAlone (s s' : Session) (body : NodeId) : Prop where
  paths : ∀ (p : PathId) d, s.paths[p.index]? = some d → ∃ d', s'.paths[p.index]? = some d' ∧
    d'.node = d.node ∧ d'.container = d.container ∧ d'.parent = d.parent ∧
      ∀ f, d.key = .field f → d'.key = .field f
  kinds : ∀ n k, s.tree.kind? n = some k → n ≠ body → k.type ≠ .variableDeclaration →
    s'.tree.kind? n = some k

theorem LeavesAlone.refl (s : Session) (body : NodeId) : s.LeavesAlone s body :=
  ⟨fun _ d hd => ⟨d, hd, rfl, rfl, rfl, fun _ hf => hf⟩, fun _ _ hk _ _ => hk⟩

theorem LeavesAlone.trans (h₁ : s.LeavesAlone s₁ body) (h₂ : s₁.LeavesAlone s' body) :
    s.LeavesAlone s' body where
  paths p d hd := by
    obtain ⟨d₁, hd₁, hn₁, hc₁, hp₁, hk₁⟩ := h₁.paths p d hd
    obtain ⟨d₂, hd₂, hn₂, hc₂, hp₂, hk₂⟩ := h₂.paths p d₁ hd₁
    exact ⟨d₂, hd₂, hn₂.trans hn₁, hc₂.trans hc₁, hp₂.trans hp₁, fun f hf => hk₂ f (hk₁ f hf)⟩
  kinds n k hk hn htype := h₂.kinds n k (h₁.kinds n k hk hn htype) hn htype

theorem LeavesAlone.mapScope (s : Session) (j : ScopeId) (f : Scope → Scope) (body : NodeId) :
    s.LeavesAlone (s.mapScope j f) body :=
  ⟨fun _ d hd => ⟨d, hd, rfl, rfl, rfl, fun _ hf => hf⟩, fun _ _ hk _ _ => hk⟩

theorem LeavesAlone.allocated (s : Session) (k : NodeKind) (body : NodeId) :
    s.LeavesAlone (s.allocated k) body :=
  ⟨fun _ d hd => ⟨d, hd, rfl, rfl, rfl, fun _ hf => hf⟩,
    fun _ _ hk _ _ => kind?_allocated_of_some hk⟩

/-- A node goes into the list of the body. -/
theorem LeavesAlone.joined {j : Nat} (h : s.Catalogued) (hk : s.tree.kind? body = some k)
    (hc : k.child? f = some (.many ids)) : s.LeavesAlone (s.joined q body f ids j n) body where
  paths p d hd := by
    refine ⟨_, getElem?_joined h hd, ?_⟩
    split
    · exact d.shifted_keeps j 1
    · exact ⟨rfl, rfl, rfl, fun _ hf => hf⟩
  kinds m km hm hne _ := ((tree_joined q hk hc).kind m hne).trans hm

/-- A name is declared in the shared declaration. -/
theorem Pools.leavesAlone_declared (h : s.Pools block fn host body q decl rest ds) (outer : ScopeId)
    (name : String) (init : Option NodeId) :
    s.LeavesAlone (s.declared outer target q decl ds name init) body where
  paths p d hd := by
    refine ⟨_, h.getElem?_declared hd, ?_⟩
    split
    · exact d.shifted_keeps ds.length 1
    · exact ⟨rfl, rfl, rfl, fun _ hf => hf⟩
  kinds m km hm _ htype := h.kind?_declared_of_some hm (h.ne_owner hm htype)

theorem Hangs.leftAlone {c : Container} (h : s.Hangs p n c q) (hs : s.LeavesAlone s' body) :
    s'.Hangs p n c q := by
  obtain ⟨d, hd, hn, hc, hp⟩ := h
  obtain ⟨d', hd', hn', hc', hp', -⟩ := hs.paths p d hd
  exact ⟨d', hd', hn'.trans hn, hc'.trans hc, hp'.trans hp⟩

theorem Braces.leftAlone (h : s.Braces s₁ block fn host body expr ret) (hs : s₁.LeavesAlone s' body)
    (hret : ret ≠ body) : s.Braces s' block fn host body expr ret where
  field := h.field
  plain := h.plain
  fresh := h.fresh
  kind := hs.kinds _ _ h.kind hret (by simp [NodeKind.type])
  path x hx := by
    obtain ⟨⟨d, hd, hkey⟩, r, hxr, hrh, hhb⟩ := h.path x hx
    obtain ⟨d', hd', -, -, -, hkey'⟩ := hs.paths x d hd
    exact ⟨⟨d', hd', hkey' _ hkey⟩, r, hxr.leftAlone hs, hrh.leftAlone hs, hhb.leftAlone hs⟩

/-- Where the paths are in step, a housed body can take its first name. -/
theorem Targets.welcomes (h : s.Targets K target block fn) (hhouses : s.Houses block fn host body)
    (hlist : s.tree.list? body .body = some ids) : s.Welcomes target block fn host body ids where
  catalogued := h.sound.catalogued
  houses := hhouses
  list := hlist
  crawled := h.crawled
  ordered := h.accounted.ordered
  found := h.found
  generated := by rw [h.generated]; rfl
  known q hq d hd n hn := by
    obtain ⟨pos, e, hc, hw, hf⟩ := h.sound.filed _ q hq
    obtain rfl := Option.some.inj (hd.symm.trans hf.data)
    exact h.sound.forest.index_lt_size (h.sound.mem_of_holds ⟨d, hd, hn⟩)
  unused := h.sound.bucket_list_eq_nil (h.sound.not_mem_of_size_le (Nat.le_refl _))

theorem Targets.went (h : s.Targets K target block fn) (hw : s.Went K s') :
    s'.Targets K target block fn where
  sound := hw.sound
  crawled := by rw [hw.scopes, h.crawled]
  scope := by rw [hw.scopes]; exact h.scope
  holds := hw.grew.holds h.sound h.holds
  owns := by rw [hw.tree]; exact h.owns
  found := by rw [hw.scopes, h.found]
  generated := by rw [hw.scopes, h.generated]
  identified := hw.books.identified h.identified
  accounted := (h.accounted.of_table hw.scopes).accounted

/-- A housed body has statements. -/
theorem Houses.bodyOf (h : s.Houses block fn host body) (hlist : s.tree.list? body .body = some ids) :
    s.tree.BodyOf fn body ids := by
  cases h with
  | program _ _ _ hprogram => exact .program hprogram hlist
  | function _ hk _ hc hbody _ _ =>
    exact .function (by rw [Tree.field?, hk]; exact hc) hbody hlist

section Arrival

variable (h : s.Targets K target block fn)

include h

/-- A program is the body of itself. -/
theorem Targets.houses_of_program (hprogram : s.tree.type? fn = some .program) :
    s.Houses block fn block fn := by
  obtain ⟨pos, d, -, hf, hocc⟩ := h.sound.files_of_holds h.holds
  exact .program hf.data (hf.node.trans hocc) hf.live hprogram

/-- What is in the body slot of a function has a path. -/
theorem Targets.child_run (hk : s.tree.kind? fn = some k)
    (hc : k.child? .body = some (.one body)) : ∃ x d s₁, block.child .body s = .ok x s₁ ∧
      s.Went K s₁ ∧ s₁.Dwells x (.slot fn .body) d ∧ d.parent = some block := by
  have hfield : s.tree.field? fn .body = some (.one body) := by
    rw [Tree.field?, hk]
    exact hc
  obtain ⟨x, s₁, hrun, hx⟩ := PathId.child_returns h.sound h.holds hfield rfl
  obtain ⟨d, hf, hparent⟩ := hx.files
  refine ⟨x, d, s₁, hrun, hx.toWent, hx.sound.dwells ?_ hf ?_, hparent⟩
  · exact Position.within_of_parent rfl (h.sound.mem_of_holds h.holds)
  · rw [hf.node, hx.tree, Tree.occupant?, hfield]
    simp [Child.node?]

/-- A function whose body is an expression takes names in a new block. -/
theorem Targets.welcomes_enclosed (hk : s.tree.kind? fn = some k)
    (hfunction : k.type.isFunction = true) (hbares : s.Bares K block fn k x expr d) :
    (s.enclosed x block fn expr).Welcomes target block fn ⟨s.paths.size⟩ ⟨s.tree.size + 1⟩
      [⟨s.tree.size⟩] where
  catalogued := h.sound.catalogued.enclosed hbares.files.data hbares.files.container
  houses := hbares.houses_enclosed hfunction
  list := by
    rw [Tree.list?_eq_some_iff, Tree.field?, tree_enclosed, kind?_walled hk,
      if_neg (Ne.symm (hbares.fn_ne (Nat.le_succ _))), kind?_cleared, if_pos rfl]
    rfl
  crawled := by rw [scopes_enclosed, h.crawled]
  ordered := by rw [scopes_enclosed]; exact h.accounted.ordered
  found := by rw [scopes_enclosed, h.found]
  generated := by rw [scopes_enclosed, h.generated]; rfl
  known q hq e he n hn := by
    have hunused := h.sound.bucket_list_eq_nil (f := .body)
      (h.sound.not_mem_of_size_le (Nat.le_succ s.tree.size))
    rw [bucket_enclosed_list hunused] at hq
    obtain rfl := List.mem_singleton.mp hq
    rw [getElem?_enclosed_return hbares.lt_size] at he
    obtain rfl := Option.some.inj he
    obtain rfl := Option.some.inj hn
    rw [size_tree_enclosed]
    show s.tree.size < s.tree.size + 2
    omega
  unused := by
    rw [size_tree_enclosed, bucket_enclosed (by simp)]
    exact h.sound.bucket_list_eq_nil (h.sound.not_mem_of_size_le (Nat.le_add_right _ 2))

/-- The path of the expression is below the `return`, and so on up to the function. -/
theorem Targets.braces (hbares : s.Bares K block fn k x expr d)
    (hplain : s.tree.type? expr ≠ some .blockStatement) :
    s.Braces (s.enclosed x block fn expr) block fn ⟨s.paths.size⟩ ⟨s.tree.size + 1⟩ expr
      ⟨s.tree.size⟩ where
  field := by
    rw [Tree.field?, hbares.kind]
    exact hbares.child
  plain := hplain
  fresh := Nat.le_refl _
  kind := by
    rw [tree_enclosed, kind?_walled hbares.kind,
      if_neg (Ne.symm (hbares.fn_ne (Nat.le_refl _))), kind?_cleared, if_neg (by simp), if_pos rfl]
  path y hy := by
    obtain rfl := h.sound.holder_unique (hbares.files.holds hbares.occupant) hy
    have hself : (s.enclosed x block fn expr).paths[x.index]? = some { d with
        container := .slot ⟨s.tree.size⟩, parent := some ⟨s.paths.size + 1⟩,
        key := .field .argument } := getElem?_enclosed_self hbares.files.data
    refine ⟨⟨_, hself, rfl⟩, ⟨s.paths.size + 1⟩, ⟨_, hself, hbares.node, rfl, rfl⟩,
      ⟨_, getElem?_enclosed_return hbares.lt_size, rfl, rfl, rfl⟩,
      ⟨_, getElem?_enclosed_block hbares.lt_size, rfl, rfl, rfl⟩⟩

/-- The body is found, or made if there was only an expression. -/
theorem Targets.declarationHost_run : ∃ host body ids s₁, declarationHost block s = .ok host s₁ ∧
    s₁.Welcomes target block fn host body ids ∧ s₁.scopes = s.scopes ∧
      s.tree.size ≤ s₁.tree.size ∧ (s.tree.BodyOf fn body ids ∨
        ∃ expr ret, ids = [ret] ∧ ret ≠ body ∧ s.Braces s₁ block fn host body expr ret) := by
  obtain ⟨k, hk, howns⟩ := h.owns
  have hasked := PathId.is_run h.holds hk .program
  rcases howns with htype | hfunction
  · -- The statements of a program are its own.
    have hprogram := Tree.type?_of_kind hk
    rw [htype] at hprogram
    have hhouses := h.houses_of_program hprogram
    obtain ⟨kb, ids, hkb, hc, -⟩ := hhouses.list
    have hlist : s.tree.list? fn .body = some ids := by
      rw [Tree.list?_eq_some_iff, Tree.field?, hkb]
      exact hc
    exact ⟨block, fn, ids, s, hhouses.declarationHost_run, h.welcomes hhouses hlist, rfl,
      Nat.le_refl _, .inl (.program hprogram hlist)⟩
  · obtain ⟨-, body, -, hc, -⟩ := NodeKind.function_fields hfunction
    obtain ⟨x, d, s₁, hchild, hwent, hdwells, hparent⟩ := h.child_run hk hc
    have h₁ := h.went hwent
    have hk₁ : s₁.tree.kind? fn = some k := by rw [hwent.tree, hk]
    have hnode : d.node = some body := by
      rw [hdwells.node]
      simp [Tree.occupant?, Tree.field?, hk₁, hc, Child.node?]
    have hnot : (some k.type == some NodeType.program) = false := by
      cases k <;> first | rfl | cases hfunction
    rw [hnot] at hasked
    have hmem : body ∈ K := h₁.sound.mem_of_holds ⟨d, hdwells.data, hnode⟩
    obtain ⟨kb, hkb⟩ := h₁.sound.forest.kind body hmem
    -- The body is asked for a second time once it is a block.
    have hthen : ∀ {s₂ host}, ensureBlock block s = .ok () s₂ → block.child .body s₂ = .ok host s₂ →
        declarationHost block s = .ok host s₂ := by
      intro s₂ host hensure hagain
      unfold declarationHost
      rw [bind_of_ok hasked]
      exact (bind_of_ok hensure).trans hagain
    by_cases hblocked : kb.type = .blockStatement
    · have hbody := Tree.type?_of_kind hkb
      rw [hblocked] at hbody
      have hhouses : s₁.Houses block fn x body :=
        .function h₁.holds hk₁ hfunction hc hbody hdwells hparent
      obtain ⟨_, ids, hkb', hcb, -⟩ := hhouses.list
      have hlist : s₁.tree.list? body .body = some ids := by
        rw [Tree.list?_eq_some_iff, Tree.field?, hkb']
        exact hcb
      have hensure : ensureBlock block s = .ok () s₁ := by
        unfold ensureBlock
        rw [bind_of_ok hchild, bind_of_ok (PathId.node?_run hdwells.data), hnode]
        show ((ask fun t => t.type? body) >>= _) s₁ = _
        rw [bind_of_ok (ask_run hbody)]
        rfl
      refine ⟨x, body, ids, s₁, hthen hensure ?_, h₁.welcomes hhouses hlist, hwent.scopes,
        by rw [hwent.tree], .inl ?_⟩
      · exact PathId.child_run_of_dwells h₁.holds hk₁ (.inl ⟨_, hc⟩) hdwells hparent
      · rw [← hwent.tree]
        exact hhouses.bodyOf hlist
    · have hbares : s₁.Bares K block fn k x body d :=
        ⟨h₁.sound, h₁.holds, hk₁, hc, hdwells.toFiles⟩
      have hplain : s₁.tree.type? body ≠ some .blockStatement := by
        rw [Tree.type?_of_kind hkb]
        simpa using hblocked
      have hwelcomes := h₁.welcomes_enclosed hk₁ hfunction hbares
      have hbraces := h₁.braces hbares hplain
      refine ⟨⟨s₁.paths.size⟩, ⟨s₁.tree.size + 1⟩, _, _, hthen
        (hbares.ensureBlock_run hchild hkb hblocked) ?_, hwelcomes, scopes_enclosed.trans hwent.scopes,
        ?_, .inr ⟨body, _, rfl, by simp, ?_⟩⟩
      · cases hwelcomes.houses with
        | program => exact absurd rfl (hbares.fn_ne (Nat.le_succ _))
        | function hholds hkf hf hcf _ hhost hup =>
          exact PathId.child_run_of_dwells hholds hkf (.inl ⟨_, hcf⟩) hhost hup
      · rw [size_tree_enclosed, ← hwent.tree]
        exact Nat.le_add_right _ _
      · rw [hwent.tree] at hplain
        refine ⟨?_, hplain, ?_, hbraces.kind, fun y hy =>
          hbraces.path y (hwent.grew.holds h.sound hy)⟩
        · rw [← hwent.tree]
          exact hbraces.field
        · rw [← hwent.tree]

end Arrival

/-! ## A name at a time -/

/-- The names asked for so far are declared in the shared declaration of the body. -/
structure Serves (s : Session) (target : ScopeId) (block : PathId) (fn : NodeId) (host : PathId)
    (body : NodeId) (q : PathId) (decl : NodeId) (rest ds : List NodeId)
    (items : List (String × Option NodeId)) : Prop
    extends Pools s block fn host body q decl rest ds where
  scope : ∃ sc : Scope, s.scopes.scopes[target.index]? = some sc ∧ sc.block = block
  identifies : s.Identifies target
  pledges : s.Pledges target q decl ds items

section Steps

variable {outer : ScopeId} {name : String} {init : Option NodeId}
  {items : List (String × Option NodeId)}

/-- Noting a generated name binds nothing. -/
theorem assigns_noteUid (j : ScopeId) (x y : String) (v : Binding) :
    (s.mapScope j fun sc => sc.noteUid x).Assigns target y v ↔ s.Assigns target y v := by
  unfold Assigns
  rw [getElem?_mapScope]
  split
  · simp [Scope.noteUid]
  · exact Iff.rfl

variable (h : s.Serves target block fn host body q decl rest ds items)

include h

theorem Serves.hasScope : s.HasScope target := by
  obtain ⟨sc, hsc, -⟩ := h.scope
  exact hasScope_of_scope hsc

theorem Serves.noteUid (j : ScopeId) (x : String) :
    (s.mapScope j fun sc => sc.noteUid x).Serves target block fn host body q decl rest ds items where
  toPools := h.toPools.of_scopes rfl
  scope := by
    obtain ⟨sc, hsc, hblock⟩ := h.scope
    rw [getElem?_mapScope, hsc]
    split
    · exact ⟨_, rfl, hblock⟩
    · exact ⟨_, rfl, hblock⟩
  identifies y v hv := h.identifies y v ((assigns_noteUid j x y v).mp hv)
  pledges := by
    refine ⟨h.pledges.declarators, fun m y init' hitem hlast => ?_⟩
    obtain ⟨v, n, hv, hrest⟩ := h.pledges.bindings m y init' hitem hlast
    exact ⟨v, n, (assigns_noteUid j x y v).mpr hv, hrest⟩

/-- One more name is declared. -/
theorem Serves.declareIn_returns (ho : s.scopes.Ordered) (name : String) (init : Option NodeId) :
    Returns (target.declareIn q name init) s fun _ s' => s.LeavesAlone s' body ∧
      ∃ n, s'.Serves target block fn host body q decl rest (ds ++ [n]) (items ++ [(name, init)]) := by
  obtain ⟨j, hrun⟩ := h.toPools.declareIn_run ho h.hasScope name init
  have hscope : ∃ sc : Scope,
      (s.declared j target q decl ds name init).scopes.scopes[target.index]? = some sc ∧
        sc.block = block := by
    obtain ⟨sc, hsc, hblock⟩ := h.scope
    have hpoured : (s.poured q decl ds name init).scopes.scopes[target.index]? = some sc := hsc
    unfold Session.declared
    rw [getElem?_mapScope, if_pos rfl, getElem?_mapScope, hpoured]
    split
    · exact ⟨_, rfl, hblock⟩
    · exact ⟨_, rfl, hblock⟩
  exact ⟨_, s.declared j target q decl ds name init, hrun, h.toPools.leavesAlone_declared j name init,
    ⟨s.tree.size + 1⟩, h.toPools.declared, hscope,
    h.toPools.identifies_declared h.hasScope h.identifies,
    h.toPools.pledges_declared h.hasScope h.identifies h.pledges⟩

/-- A name is declared through any scope from which the function is the next one outward. -/
theorem Serves.pushDeclaration_returns (ha : s.Accounted) (hi : i.functionScope s = .ok target s)
    (name : String) (init : Option NodeId) :
    Returns (i.pushDeclaration name init) s fun _ s' => s.Upholds s' ∧ s.LeavesAlone s' body ∧
      ∃ n, s'.Serves target block fn host body q decl rest (ds ++ [n]) (items ++ [(name, init)]) := by
  obtain ⟨sc, hsc, hblock⟩ := h.scope
  have hrun := ScopeId.pushDeclaration_run hi hsc hblock h.houses.declarationHost_run h.houses.holds
    h.toPools.sharedDeclaration_run name init
  obtain ⟨p, s', hdeclare, halone, n, hserves⟩ := h.declareIn_returns ha.ordered name init
  rw [hdeclare] at hrun
  exact ⟨p, s', hrun, (Editing.pushDeclaration i name init).upholding.of_ok hrun ha, halone, n,
    hserves⟩

end Steps

section First

variable {items : List (String × Option NodeId)}

/-- Putting in the shared declaration changes nothing but the body. -/
theorem Welcomes.leavesAlone (h : s.Welcomes target block fn host body ids) :
    s.LeavesAlone (s.pooled host body ids) body := by
  obtain ⟨kb, hkb, hc⟩ := Option.bind_eq_some_iff.mp (Tree.list?_eq_some_iff.mp h.list)
  have hjoined := (LeavesAlone.allocated s (.variableDeclaration .var []) body).trans
    (.joined (q := host) (n := ⟨s.tree.size⟩) (j := 0) (h.catalogued.of_paths rfl rfl)
      (kind?_allocated_of_some hkb) hc)
  exact ⟨hjoined.paths, hjoined.kinds⟩

/-- The shared declaration serves as soon as it is there. -/
theorem Welcomes.serves (h : s.Welcomes target block fn host body ids) (hids : s.Identifies target)
    (hscope : ∃ sc : Scope, s.scopes.scopes[target.index]? = some sc ∧ sc.block = block) :
    (s.pooled host body ids).Serves target block fn host body ⟨s.paths.size⟩ ⟨s.tree.size⟩ ids []
      [] := by
  obtain ⟨kb, hkb, hc⟩ := Option.bind_eq_some_iff.mp (Tree.list?_eq_some_iff.mp h.list)
  have htree := tree_joined host (s := s.allocated (.variableDeclaration .var []))
    (n := ⟨s.tree.size⟩) (i := 0) (kind?_allocated_of_some hkb) hc
  refine ⟨h.pools, hscope, fun x v hv => ?_, .nil, fun j x init hitem => by simp at hitem⟩
  have hlt := hids x v hv
  show _ < ((s.allocated _).joined host body .body ids 0 ⟨s.tree.size⟩).tree.size
  rw [htree.size, size_allocated]
  omega

/-- The names are declared in a new declaration in front of the statements of a body that was there
before, or of a block that was made for an expression. -/
def Prefaces (s s' : Session) (block : PathId) (fn : NodeId) (host : PathId) (body decl : NodeId)
    (rest : List NodeId) : Prop :=
  s.tree.size ≤ decl.index ∧ (s.tree.BodyOf fn body rest ∨
    ∃ expr ret, rest = [ret] ∧ ret ≠ body ∧ s.Braces s' block fn host body expr ret)

theorem Prefaces.leftAlone (h : s.Prefaces s₁ block fn host body decl rest)
    (hs : s₁.LeavesAlone s' body) : s.Prefaces s' block fn host body decl rest := by
  obtain ⟨hsize, hbody | ⟨expr, ret, hrest, hne, hbraces⟩⟩ := h
  · exact ⟨hsize, .inl hbody⟩
  · exact ⟨hsize, .inr ⟨expr, ret, hrest, hne, hbraces.leftAlone hs hne⟩⟩

/-- Another scope table before the requests makes no difference. -/
theorem Prefaces.of_same (h : s₁.Prefaces s' block fn host body decl rest)
    (htree : s₁.tree = s.tree) (hpaths : s₁.paths = s.paths) :
    s.Prefaces s' block fn host body decl rest := by
  obtain ⟨hsize, hbody | ⟨expr, ret, hrest, hne, hbraces⟩⟩ := h
  · exact ⟨htree ▸ hsize, .inl (htree ▸ hbody)⟩
  · refine ⟨htree ▸ hsize, .inr ⟨expr, ret, hrest, hne, htree ▸ hbraces.field,
      htree ▸ hbraces.plain, htree ▸ hbraces.fresh, hbraces.kind, fun x hx => hbraces.path x ?_⟩⟩
    unfold Holds
    rw [hpaths]
    exact hx

/-- The first name is declared. -/
theorem Targets.pushDeclaration_returns (h : s.Targets K target block fn)
    (hi : i.functionScope s = .ok target s) (name : String) (init : Option NodeId) :
    Returns (i.pushDeclaration name init) s fun _ s' => s.Upholds s' ∧
      ∃ host body q decl rest ds, s.Prefaces s' block fn host body decl rest ∧
        s'.Serves target block fn host body q decl rest ds [(name, init)] := by
  obtain ⟨sc, hsc, hblock⟩ := h.scope
  obtain ⟨host, body, ids, s₁, hhost, hwelcomes, hscopes, hsize, hbody⟩ := h.declarationHost_run
  have hids : s₁.Identifies target := by
    rintro x v ⟨sc', hsc', hv⟩
    rw [hscopes] at hsc'
    exact Nat.lt_of_lt_of_le (h.identified _ sc' x v hsc' hv) hsize
  have hserves := hwelcomes.serves hids ⟨sc, by rw [hscopes, hsc], hblock⟩
  have hordered : (s₁.pooled host body ids).scopes.Ordered :=
    ⟨hwelcomes.ordered.parent, hwelcomes.ordered.byBlock, hwelcomes.ordered.root⟩
  have hrun := ScopeId.pushDeclaration_run hi hsc hblock hhost hwelcomes.houses.holds
    hwelcomes.sharedDeclaration_run name init
  obtain ⟨p, s', hdeclare, halone, n, hserves'⟩ := hserves.declareIn_returns hordered name init
  rw [hdeclare] at hrun
  have hprefaces : s.Prefaces s₁ block fn host body ⟨s₁.tree.size⟩ ids := ⟨hsize, hbody⟩
  exact ⟨p, s', hrun, (Editing.pushDeclaration i name init).upholding.of_ok hrun h.accounted, host,
    body, _, _, ids, _, (hprefaces.leftAlone hwelcomes.leavesAlone).leftAlone halone, hserves'⟩

/-- A function takes names as before if a generated name was noted. -/
theorem Targets.noteUid (h : s.Targets K target block fn) (j : ScopeId) (x : String)
    (haccounted : (s.mapScope j fun sc => sc.noteUid x).Accounted) :
    (s.mapScope j fun sc => sc.noteUid x).Targets K target block fn where
  sound := (s.alike_scopes _).sound_of_paths h.sound rfl
  crawled := h.crawled
  scope := by
    obtain ⟨sc, hsc, hblock⟩ := h.scope
    rw [getElem?_mapScope, hsc]
    split
    · exact ⟨_, rfl, hblock⟩
    · exact ⟨_, rfl, hblock⟩
  holds := h.holds
  owns := h.owns
  found := h.found
  generated := h.generated
  identified := by
    intro l sc y b hsc hb
    rw [getElem?_mapScope] at hsc
    split at hsc
    · obtain ⟨sc₀, hsc₀, rfl⟩ := Option.map_eq_some_iff.mp hsc
      exact h.identified l sc₀ y b hsc₀ hb
    · exact h.identified l sc y b hsc hb
  accounted := haccounted

end First

end Session

/-! ## Requests -/

/-- A call that declares a name in the next function or program outward. -/
inductive NameRequest
  | declare (name : String) (init : Option NodeId)
  | generate (text : String)

namespace NameRequest

/-- The call, with the name and the initialiser of its declarator. -/
def run (i : ScopeId) : NameRequest → SessionM (String × Option NodeId)
  | declare name init => do
    let _ ← i.pushDeclaration name init
    pure (name, init)
  | generate text => do
    let name ← i.generateDeclaredUid text
    pure (name, none)

/-- What is to be declared: generated names have no initialiser. -/
def Asks : NameRequest → String × Option NodeId → Prop
  | declare name init, item => item = (name, init)
  | generate _, item => item.2 = none

end NameRequest

namespace Session

variable {s s₁ s' : Session} {K : Set NodeId} {i target : ScopeId} {q block host : PathId}
  {fn body decl : NodeId} {rest ds : List NodeId} {items : List (String × Option NodeId)}

/-- The function scope stays the same. -/
theorem Upholds.functionScope_run (h : s.Upholds s') (ho : s.scopes.Ordered)
    (hi : i.functionScope s = .ok target s) : i.functionScope s' = .ok target s' := by
  obtain ⟨hscope, hhoists⟩ := ScopeId.hoists_of_functionScope ho hi
  obtain ⟨j, hj, hhoists'⟩ :=
    ScopeId.functionScope_run h.accounted.ordered (h.retains.hasScope hscope)
  rw [hj, (h.retains.hoists hhoists).unique hhoists']

/-- A request is a declaration, in the session as it is or with a name noted as generated. -/
theorem request_returns {P : Session → Prop} {Q : String × Option NodeId → Session → Prop}
    (ha : s.Accounted) (hi : i.functionScope s = .ok target s) (hP : P s)
    (hnote : ∀ j x, (s.mapScope j fun sc => sc.noteUid x).Accounted →
      P (s.mapScope j fun sc => sc.noteUid x))
    (hpush : ∀ s₁, P s₁ → s.Upholds s₁ → i.functionScope s₁ = .ok target s₁ → ∀ name init,
      Returns (i.pushDeclaration name init) s₁ fun _ => Q (name, init)) (r : NameRequest) :
    Returns (r.run i) s fun item s' => r.Asks item ∧ Q item s' := by
  cases r with
  | declare name init =>
    exact (hpush s hP ha.refl hi name init).bind fun _ s' hq => .pure ⟨rfl, hq⟩
  | generate text =>
    obtain ⟨hscope, -⟩ := ScopeId.hoists_of_functionScope ha.ordered hi
    obtain ⟨k, -, hk⟩ := ScopeId.programScope_run ha.ordered hscope
    obtain ⟨sc, hsc⟩ := hk.hasScope.scope
    obtain ⟨name, huid, -⟩ := generateUid_run ha hscope hk hsc text
    have hupholds := (Upholding.generateUid i text).of_ok huid ha
    obtain ⟨_, s', hpushed, hq⟩ := hpush _ (hnote k name hupholds.accounted) hupholds
      (hupholds.functionScope_run ha.ordered hi) name none
    have hrun : i.generateDeclaredUid text s = .ok name s' :=
      (bind_of_ok huid).trans (bind_of_ok hpushed)
    exact ⟨_, s', bind_of_ok hrun, rfl, hq⟩

/-- After the first request all go to the same declaration. -/
theorem Serves.requests_return (h : s.Serves target block fn host body q decl rest ds items)
    (ha : s.Accounted) (requests : List (ScopeId × NameRequest))
    (hscopes : ∀ r ∈ requests, r.1.functionScope s = .ok target s) :
    Returns (requests.mapM fun r => r.2.run r.1) s fun l s' => s.LeavesAlone s' body ∧
      List.Forall₂ (fun r item => r.2.Asks item) requests l ∧
        ∃ ds', s'.Serves target block fn host body q decl rest ds' (items ++ l) := by
  induction requests generalizing s ds items with
  | nil => exact .pure ⟨.refl s body, .nil, ds, by simpa using h⟩
  | cons r requests ih =>
    rw [List.mapM_cons]
    have hfirst := request_returns (P := fun s₁ => s.LeavesAlone s₁ body ∧
        s₁.Serves target block fn host body q decl rest ds items)
      (Q := fun item s' => s.Upholds s' ∧ s.LeavesAlone s' body ∧
        ∃ n, s'.Serves target block fn host body q decl rest (ds ++ [n]) (items ++ [item]))
      ha (hscopes r (by simp)) ⟨.refl s body, h⟩
      (fun j x _ => ⟨.mapScope s j _ body, h.noteUid j x⟩)
      (fun s₁ ⟨halone, hserves⟩ hupholds hi name init =>
        (hserves.pushDeclaration_returns hupholds.accounted hi name init).mono
          fun _ s' ⟨hup, halone', hserves'⟩ => ⟨hupholds.trans hup, halone.trans halone', hserves'⟩)
      r.2
    refine hfirst.bind fun item s₁ ⟨hasks, hup, halone, n, hserves⟩ => ?_
    have hrest := ih hserves hup.accounted fun r' hr' =>
      hup.functionScope_run ha.ordered (hscopes r' (by simp [hr']))
    refine hrest.bind fun l s' ⟨halone', hall, ds', hserves'⟩ => .pure ?_
    exact ⟨halone.trans halone', .cons hasks hall, ds', by simpa using hserves'⟩

/-- The first request makes the declaration. -/
theorem Targets.requests_return (h : s.Targets K target block fn)
    {requests : List (ScopeId × NameRequest)} (hne : requests ≠ [])
    (hscopes : ∀ r ∈ requests, r.1.functionScope s = .ok target s) :
    Returns (requests.mapM fun r => r.2.run r.1) s fun items s' =>
      List.Forall₂ (fun r item => r.2.Asks item) requests items ∧
        ∃ host body q decl rest ds, s.Prefaces s' block fn host body decl rest ∧
          s'.Serves target block fn host body q decl rest ds items := by
  obtain ⟨r, requests, rfl⟩ := List.exists_cons_of_ne_nil hne
  rw [List.mapM_cons]
  have hfirst := request_returns
    (P := fun s₁ => s₁.Targets K target block fn ∧ s₁.tree = s.tree ∧ s₁.paths = s.paths)
    (Q := fun item s' => s.Upholds s' ∧ ∃ host body q decl rest ds,
      s.Prefaces s' block fn host body decl rest ∧
        s'.Serves target block fn host body q decl rest ds [item])
    h.accounted (hscopes r (by simp)) ⟨h, rfl, rfl⟩
    (fun j x ha => ⟨h.noteUid j x ha, rfl, rfl⟩)
    (fun s₁ ⟨htargets, htree, hpaths⟩ hupholds hi name init =>
      (htargets.pushDeclaration_returns hi name init).mono
        fun _ s' ⟨hup, host, body, q, decl, rest, ds, hprefaces, hserves⟩ =>
          ⟨hupholds.trans hup, host, body, q, decl, rest, ds, hprefaces.of_same htree hpaths, hserves⟩)
    r.2
  refine hfirst.bind fun item s₁ ⟨hasks, hup, host, body, q, decl, rest, ds, hprefaces, hserves⟩ => ?_
  have hrest := hserves.requests_return hup.accounted requests fun r' hr' =>
    hup.functionScope_run h.accounted.ordered (hscopes r' (by simp [hr']))
  refine hrest.bind fun l s' ⟨halone, hall, ds', hserves'⟩ => .pure ?_
  exact ⟨.cons hasks hall, host, body, q, decl, rest, ds', hprefaces.leftAlone halone, hserves'⟩

end Session

/-- All names that are requested in a function or a program share one `var`. It is put in front of
the statements, and its declarators are the names in the order of the calls, each bound by its last
declarator. If the body was an expression, it becomes a block that returns the expression, whose
paths are now below the `return`. -/
theorem requests_share_declaration (ht : t.IsProgram) (hgrammar : t.Grammatical) (h : s.Fresh t)
    {requests : List (ScopeId × NameRequest)} (hne : requests ≠ [])
    (hscopes : ∀ r ∈ requests, r.1.functionScope s = .ok target s) :
    ∃ sc : Scope, ∃ fn, s.scopes.scopes[target.index]? = some sc ∧ s.Holds sc.block fn ∧
      s.tree.OwnsVariables fn ∧
      Returns (requests.mapM fun r => r.2.run r.1) s fun items s' =>
        List.Forall₂ (fun r item => r.2.Asks item) requests items ∧ s'.Holds sc.block fn ∧
          ∃ host body q decl rest ds, s'.tree.BodyOf fn body (decl :: rest) ∧
            s.Prefaces s' sc.block fn host body decl rest ∧
            s'.tree.kind? decl = some (.variableDeclaration .var ds) ∧
            s'.Dwells q (.item body .body 0) (.element host body .body 0 decl) ∧
            s'.Pledges target q decl ds items := by
  obtain ⟨r, hr⟩ := List.exists_mem_of_ne_nil requests hne
  obtain ⟨block, fn, htargets⟩ := h.targets ht hgrammar (hscopes r hr)
  obtain ⟨sc, hsc, rfl⟩ := htargets.scope
  refine ⟨sc, fn, hsc, htargets.holds, htargets.owns, ?_⟩
  refine (htargets.requests_return hne hscopes).mono ?_
  rintro items s' ⟨hall, host, body, q, decl, rest, ds, hprefaces, hserves⟩
  exact ⟨hall, hserves.houses.block_holds, host, body, q, decl, rest, ds,
    hserves.houses.bodyOf hserves.list, hprefaces,
    hserves.kind, hserves.dwells, hserves.pledges⟩

/-- The program `() => e;`, and beside it the expression `v`. -/
def requestProgram : Tree where
  nodes := #[{ kind := .identifier "e" none }, { kind := .arrowFunctionExpression [] ⟨0⟩ false none },
    { kind := .expressionStatement ⟨1⟩ }, { kind := .program [⟨2⟩] [] },
    { kind := .identifier "v" none }]
  root := some ⟨3⟩

/-- The program is opened; the scope 1 is that of the arrow function. -/
def requestStart : Session := after ensureScopes { tree := requestProgram }

/-- In the arrow function `a` is declared, then a generated name, and then `a` again, with an
initialiser. -/
def requestCalls : List (ScopeId × NameRequest) :=
  [(⟨1⟩, .declare "a" none), (⟨1⟩, .generate "e"), (⟨1⟩, .declare "a" (some ⟨4⟩))]

/-- The arrow function gets a block with one declaration for the three. -/
theorem requestProgram_shares : requestProgram.IsProgram ∧ requestProgram.Grammatical ∧
    requestStart.Fresh requestProgram ∧ requestCalls ≠ [] ∧
    (∀ r ∈ requestCalls, r.1.functionScope requestStart = .ok ⟨1⟩ requestStart) ∧
    ∃ sc : Scope, ∃ fn, requestStart.scopes.scopes[1]? = some sc ∧
      requestStart.Holds sc.block fn ∧ requestStart.tree.OwnsVariables fn ∧
      Returns (requestCalls.mapM fun r => r.2.run r.1) requestStart fun items s' =>
        List.Forall₂ (fun r item => r.2.Asks item) requestCalls items ∧ s'.Holds sc.block fn ∧
          ∃ host body q decl rest ds, s'.tree.BodyOf fn body (decl :: rest) ∧
            requestStart.Prefaces s' sc.block fn host body decl rest ∧
            s'.tree.kind? decl = some (.variableDeclaration .var ds) ∧
            s'.Dwells q (.item body .body 0) (.element host body .body 0 decl) ∧
            s'.Pledges ⟨1⟩ q decl ds items := by
  have hprogram : requestProgram.IsProgram :=
    .of_bottomUp (by decide) (by decide) (by decide) (by decide)
  have hgrammar : requestProgram.Grammatical := .of_plain (by decide)
  obtain ⟨_, s, hrun, hs, hcrawled, -⟩ := ensureScopes_crawled hprogram hgrammar {}
  obtain rfl : requestStart = s := after_of_ok hrun
  have hfresh : requestStart.Fresh requestProgram :=
    .crawled (open?_of_ensureScopes rfl hrun) (ensureScopes_run hcrawled)
  have hordered : requestStart.scopes.Ordered := (hfresh.settled hprogram hgrammar).1.upright.ordered
  have hscope : requestStart.HasScope ⟨1⟩ := by
    show 1 < requestStart.scopes.scopes.size
    decide +kernel
  have hfunction : ScopeId.functionScope ⟨1⟩ requestStart = .ok ⟨1⟩ requestStart := by
    obtain ⟨j, hj, -⟩ := ScopeId.functionScope_run hordered hscope
    have hvalue : value? (ScopeId.functionScope ⟨1⟩) requestStart = some ⟨1⟩ := by decide +kernel
    unfold value? at hvalue
    rw [hj] at hvalue
    rw [hj, Option.some.inj hvalue]
  have hscopes : ∀ r ∈ requestCalls, r.1.functionScope requestStart = .ok ⟨1⟩ requestStart := by
    intro r hr
    have hone : r.1 = ⟨1⟩ := by
      revert r
      decide
    rw [hone, hfunction]
  exact ⟨hprogram, hgrammar, hfresh, by simp [requestCalls], hscopes,
    requests_share_declaration hprogram hgrammar hfresh (by simp [requestCalls]) hscopes⟩

end Espalier
