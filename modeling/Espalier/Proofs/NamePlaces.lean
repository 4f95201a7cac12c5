import Espalier.Proofs.Constants

set_option autoImplicit false

/-! # Places for names

An export, the head of a loop over keys or values and a shorthand property ask for a name where
other constructs take any expression (`NodeKind.barsLiteral`). The rule that inlines constants does
not know these places: the name there counts as read. When none of the names there leads to a
constant, a run of the rule leaves all of them as they are (`constantInliner_names`); when one
does, a literal comes to stand there, and what is printed is no program any more
(`namesProgram_breaks`). -/

namespace Espalier

open SessionM Session

variable {σ : Type}

/-- No literal may stand in the field, though expressions do: it names what is exported, it is the
target of a loop, or it belongs to a shorthand property. -/
def NodeKind.barsLiteral (k : NodeKind) (f : Field) : Bool :=
  match k with
  | .exportSpecifier .. => f == .localName
  | .forInStatement .. | .forOfStatement .. => f == .left
  | .objectProperty _ _ _ shorthand => shorthand && (f == .key || f == .value)
  | _ => false

theorem NodeKind.barsLiteral_outline (k : NodeKind) (f : Field) :
    k.outline.barsLiteral f = k.barsLiteral f := by
  cases k <;> rfl

theorem NodeKind.barsLiteral_mem {k : NodeKind} {f : Field} (h : k.barsLiteral f = true) :
    f ∈ [Field.localName, .left, .key, .value] := by
  cases k <;> simp_all [barsLiteral]

namespace Tree

/-- The node stands where no literal may. -/
def BarsLiteral (t : Tree) (n : NodeId) : Prop :=
  ∃ q k f, t.Reachable q ∧ t.kind? q = some k ∧ k.barsLiteral f = true ∧
    t.occupant? (.slot q f) = some n

/-- Names stand where the grammar asks for them: what is exported is an identifier, the target of a
loop is no literal, and the value of a shorthand property is an identifier named like its key. -/
structure NamesStand (t : Tree) : Prop where
  exported : ∀ q localName name, t.Reachable q →
    t.kind? q = some (.exportSpecifier localName name) → t.IsIdentifier localName
  looped : ∀ q k left, t.Reachable q → t.kind? q = some k →
    k.type = .forInStatement ∨ k.type = .forOfStatement →
    t.occupant? (.slot q .left) = some left → ¬ t.IsLiteral left
  shorthand : ∀ q key value computed, t.Reachable q →
    t.kind? q = some (.objectProperty key value computed true) →
    ∃ x d d', t.kind? key = some (.identifier x d) ∧ t.kind? value = some (.identifier x d')

variable {t t' : Tree} {C : NodeId → Prop} {q n : NodeId} {k : NodeKind} {f : Field}

theorem occupant?_slot (hk : t.kind? q = some k) :
    t.occupant? (.slot q f) = (k.child? f).bind Child.node? := by
  simp only [occupant?, field?, hk, Option.bind_some]

namespace Inlined

/-- The kind of a node without its children is as before, unless the node is a literal. -/
theorem of_kind (h : t.Inlined C t') (hq : t'.Reachable q) (hk : t'.kind? q = some k)
    (hplain : k.type.isLiteral = false) :
    t.Reachable q ∧ ∃ k₀, t.kind? q = some k₀ ∧ k₀.outline = k.outline := by
  have hq' : t.Reachable q := by
    refine (h.reachable hq).resolve_right ?_
    rintro ⟨k', hk', hliteral⟩
    obtain rfl := Option.some.inj (hk.symm.trans hk')
    exact Bool.false_ne_true (hplain.symm.trans hliteral)
  have houtline := h.outline q hq'
  rw [hk, Option.map_some] at houtline
  obtain ⟨k₀, hk₀, heq⟩ := Option.map_eq_some_iff.mp houtline.symm
  exact ⟨hq', k₀, hk₀, heq⟩

/-- Where no literal may stand, and no node there gave way, the same node stands as before. -/
theorem stays (h : t.Inlined C t') (hclear : ∀ n, t.BarsLiteral n → ¬ C n)
    (hq : t'.Reachable q) (hk : t'.kind? q = some k) (hbars : k.barsLiteral f = true)
    (hn : t'.occupant? (.slot q f) = some n) :
    t.occupant? (.slot q f) = some n ∧ t.Reachable n := by
  have hplain : k.type.isLiteral = false := by
    cases k <;> first | rfl | cases hbars
  obtain ⟨hq', k₀, hk₀, heq⟩ := h.of_kind hq hk hplain
  have hsame : t.occupant? (.slot q f) = some n := by
    rcases h.place (.slot q f) (Position.within_of_parent rfl hq') with hsame | ⟨a, -, ha, hC, -⟩
    · exact hsame.symm.trans hn
    · refine absurd hC (hclear a ⟨q, k₀, f, hq', hk₀, ?_, ha⟩)
      rw [← k₀.barsLiteral_outline, heq, k.barsLiteral_outline, hbars]
  exact ⟨hsame, .child hq' ⟨.slot q f, rfl, hsame⟩⟩

/-- Names stand where they are asked for as long as none of these names gives way. -/
theorem namesStand (h : t.Inlined C t') (hclear : ∀ n, t.BarsLiteral n → ¬ C n)
    (hnames : t.NamesStand) : t'.NamesStand where
  exported q localName name hq hk := by
    obtain ⟨hq', k₀, hk₀, heq⟩ := h.of_kind hq hk rfl
    obtain ⟨l, e, rfl⟩ : ∃ l e, k₀ = .exportSpecifier l e := by
      cases k₀ <;> first | exact ⟨_, _, rfl⟩ | cases heq
    obtain ⟨hsame, hreach⟩ := h.stays (f := .localName) hclear hq hk rfl (occupant?_slot hk)
    obtain rfl : l = localName := Option.some.inj ((occupant?_slot hk₀).symm.trans hsame)
    obtain ⟨x, declared, hx⟩ := hnames.exported q l e hq' hk₀
    exact ⟨x, declared, (kind?_identifier_iff (h.outline l hreach)).mpr hx⟩
  looped q k left hq hk htype hleft := by
    have hplain : k.type.isLiteral = false := by
      rcases htype with htype | htype <;> rw [htype] <;> rfl
    have hbars : k.barsLiteral .left = true := by
      cases k <;> first | rfl | (rcases htype with htype | htype <;> cases htype)
    obtain ⟨hq', k₀, hk₀, heq⟩ := h.of_kind hq hk hplain
    have htype₀ : k₀.type = k.type := by
      rw [← k₀.type_outline, heq, k.type_outline]
    obtain ⟨hsame, hreach⟩ := h.stays hclear hq hk hbars hleft
    refine fun hliteral => hnames.looped q k₀ left hq' hk₀ (htype₀ ▸ htype) hsame
      (hliteral.of_type ?_)
    have htypes := congrArg (Option.map NodeKind.type) (h.outline left hreach)
    simpa only [Option.map_map, Function.comp_def, NodeKind.type_outline] using htypes.symm
  shorthand q key value computed hq hk := by
    obtain ⟨hq', k₀, hk₀, heq⟩ := h.of_kind hq hk rfl
    obtain ⟨key₀, value₀, rfl⟩ : ∃ key value, k₀ = .objectProperty key value computed true := by
      cases k₀ <;> first | cases heq; exact ⟨_, _, rfl⟩ | cases heq
    obtain ⟨hkey, hkeyed⟩ := h.stays (f := .key) hclear hq hk rfl (occupant?_slot hk)
    obtain ⟨hvalue, hvalued⟩ := h.stays (f := .value) hclear hq hk rfl (occupant?_slot hk)
    obtain rfl : key₀ = key := Option.some.inj ((occupant?_slot hk₀).symm.trans hkey)
    obtain rfl : value₀ = value := Option.some.inj ((occupant?_slot hk₀).symm.trans hvalue)
    obtain ⟨x, d, d', hx, hx'⟩ := hnames.shorthand q key₀ value₀ computed hq' hk₀
    exact ⟨x, d, d', (kind?_identifier_iff (h.outline key₀ hkeyed)).mpr hx,
      (kind?_identifier_iff (h.outline value₀ hvalued)).mpr hx'⟩

end Inlined

end Tree

/-! ## A run of the rule -/

/-- A run of the rule over a program whose scopes were built puts literals in the place of names
that are read and lead to a constant, and changes nothing else. Where none of these is exported, the
target of a loop or in a shorthand property, names stand where the grammar asks for them, if they
did so before. -/
theorem constantInliner_names {t : Tree} {w w' : Walk σ} {priority : Nat} {done : Traversal}
    (ht : t.IsProgram) (hgrammar : t.Grammatical) (hfresh : w.session.Fresh t)
    (hrun : Transformer.attempt (Rule.constantInliner priority).visitor w = .ok (.ok done) w') :
    w.session.tree.Inlined w.session.ReadsConstant w'.session.tree ∧
    ((∀ n, w.session.tree.BarsLiteral n → ¬ w.session.ReadsConstant n) →
      w.session.tree.NamesStand → w'.session.tree.NamesStand) := by
  have hinlined := (constantInliner_inlines ht hgrammar hfresh hrun).mono fun n hn => hn.1
  exact ⟨hinlined, fun hclear hnames => hinlined.namesStand hclear hnames⟩

/-! ## A program -/

namespace Tree

variable {t : Tree}

/-- The names in a kind stand where the grammar asks for them. -/
def placesNames (t : Tree) : NodeKind → Bool
  | .exportSpecifier localName _ => t.type? localName == some .identifier
  | .forInStatement left _ _ | .forOfStatement left _ _ =>
    ((t.type? left).map NodeType.isLiteral) == some false
  | .objectProperty key value _ true => match t.kind? key, t.kind? value with
    | some (.identifier x _), some (.identifier y _) => x == y
    | _, _ => false
  | _ => true

theorem NamesStand.of_all (h : t.nodes.toList.all fun node => t.placesNames node.kind) :
    t.NamesStand := by
  have hplaces : ∀ {n k}, t.kind? n = some k → t.placesNames k = true := by
    intro n k hk
    obtain ⟨node, hnode, rfl⟩ := Option.map_eq_some_iff.mp hk
    exact List.all_eq_true.mp h node (Array.mem_toList_iff.mpr (Array.mem_of_getElem? hnode))
  have hleft : ∀ {q left right body n}, t.kind? q = some (.forInStatement left right body) ∨
      t.kind? q = some (.forOfStatement left right body) →
      t.occupant? (.slot q .left) = some n → ¬ t.IsLiteral n := by
    rintro q left right body n hk hn ⟨k, hkn, hliteral⟩
    have hplaced : ((t.type? left).map NodeType.isLiteral == some false) = true :=
      hk.elim hplaces hplaces
    obtain rfl : left = n := by
      rcases hk with hk | hk <;> exact Option.some.inj ((occupant?_slot hk).symm.trans hn)
    rw [type?_of_kind hkn, Option.map_some, hliteral] at hplaced
    cases hplaced
  refine ⟨fun q localName name _ hk => ?_, fun q k left _ hk htype hn => ?_,
    fun q key value computed _ hk => ?_⟩
  · exact isIdentifier_of_type (beq_iff_eq.mp (hplaces hk))
  · cases k with
    | forInStatement left right body => exact hleft (.inl hk) hn
    | forOfStatement left right body => exact hleft (.inr hk) hn
    | _ => rcases htype with htype | htype <;> cases htype
  · have hplaced := hplaces hk
    unfold placesNames at hplaced
    dsimp only at hplaced
    split at hplaced
    next x d y d' hkey hvalue =>
      obtain rfl := beq_iff_eq.mp hplaced
      exact ⟨x, d, d', hkey, hvalue⟩
    next => cases hplaced

end Tree

/-- The program `for (x of xs) ; export { x }; f({ x });` behind the declaration of a variable with
the value `1`. -/
def namesProgram (declared : String) : Tree where
  nodes := #[{ kind := .numericLiteral ⟨0x3ff0000000000000⟩ },
    { kind := .identifier declared none }, { kind := .variableDeclarator ⟨1⟩ (some ⟨0⟩) },
    { kind := .variableDeclaration .var [⟨2⟩] }, { kind := .identifier "x" none },
    { kind := .identifier "xs" none }, { kind := .emptyStatement },
    { kind := .forOfStatement ⟨4⟩ ⟨5⟩ ⟨6⟩ }, { kind := .identifier "x" none },
    { kind := .identifier "x" none }, { kind := .exportSpecifier ⟨8⟩ ⟨9⟩ },
    { kind := .exportNamedDeclaration none [⟨10⟩] none }, { kind := .identifier "x" none },
    { kind := .identifier "x" none }, { kind := .objectProperty ⟨12⟩ ⟨13⟩ false true },
    { kind := .objectExpression [⟨14⟩] }, { kind := .identifier "f" none },
    { kind := .callExpression ⟨16⟩ [⟨15⟩] }, { kind := .expressionStatement ⟨17⟩ },
    { kind := .program [⟨3⟩, ⟨7⟩, ⟨11⟩, ⟨18⟩] [] }]
  root := some ⟨19⟩

theorem namesProgram_isProgram :
    (namesProgram "x").IsProgram ∧ (namesProgram "xs").IsProgram :=
  ⟨.of_bottomUp (by decide) (by decide) (by decide +kernel) (by decide +kernel),
    .of_bottomUp (by decide) (by decide) (by decide +kernel) (by decide +kernel)⟩

theorem namesProgram_grammatical (declared : String) : (namesProgram declared).Grammatical :=
  .of_plain rfl

theorem namesProgram_namesStand (declared : String) : (namesProgram declared).NamesStand :=
  .of_all rfl

/-- The walk that begins when the scopes of the program were built. -/
def namesWalk (declared : String) : Walk Unit where
  session := after ensureScopes { tree := namesProgram declared, config := { lazyScopes := true } }
  own := ()

theorem namesWalk_fresh {declared : String} (ht : (namesProgram declared).IsProgram) :
    (namesWalk declared).session.Fresh (namesProgram declared) ∧
      (namesWalk declared).session.tree = namesProgram declared := by
  have hopen : Session.open? (namesProgram declared) { lazyScopes := true } =
      .ok { tree := namesProgram declared, config := { lazyScopes := true } } := rfl
  obtain ⟨_, s, hrun, htree, -⟩ := ensureScopes_orderly ht { lazyScopes := true }
  unfold namesWalk
  dsimp only
  rw [after_of_ok hrun]
  exact ⟨.crawled hopen hrun, htree⟩

/-- With the declaration `var xs = 1;` the literal comes into the loop, and all names stay. -/
theorem namesProgram_keeps : (namesProgram "xs").IsProgram ∧ (namesProgram "xs").Grammatical ∧
    (namesWalk "xs").session.Fresh (namesProgram "xs") ∧
    ∃ done w', Transformer.attempt (Rule.constantInliner 100).visitor (namesWalk "xs") =
        .ok (.ok done) w' ∧
      (namesWalk "xs").session.tree.Inlined (namesWalk "xs").session.ReadsConstant w'.session.tree ∧
      (∀ n, (namesWalk "xs").session.tree.BarsLiteral n →
        ¬ (namesWalk "xs").session.ReadsConstant n) ∧
      (namesWalk "xs").session.tree.NamesStand ∧ w'.session.tree.NamesStand := by
  have ht := namesProgram_isProgram.2
  obtain ⟨hfresh, htree⟩ := namesWalk_fresh ht
  have hgrammar := namesProgram_grammatical "xs"
  have hrun := eq_ok_of_value? (x := Transformer.attempt (Rule.constantInliner 100).visitor)
    (s := namesWalk "xs") (a := .ok { stopped := false, visited := 21 }) (by decide +kernel)
  obtain ⟨hinlined, hkeeps⟩ := constantInliner_names ht hgrammar hfresh hrun
  have hnames : (namesWalk "xs").session.tree.NamesStand := by
    rw [htree]
    exact namesProgram_namesStand "xs"
  -- Where no literal may stand there are only the names `x`, and no scope binds this name.
  have hclear : ∀ n, (namesWalk "xs").session.tree.BarsLiteral n →
      ¬ (namesWalk "xs").session.ReadsConstant n := by
    have hunbound : ∀ sc ∈ (namesWalk "xs").session.scopes.scopes.toList,
        sc.bindings.get? "x" = none := by decide +kernel
    rintro n ⟨q, k, f, -, hk, hbars, hn⟩ ⟨x, ⟨⟨declared, hx⟩, -⟩, hleads⟩
    have hmem : f ∈ [Field.localName, .left, .key, .value] := NodeKind.barsLiteral_mem hbars
    rw [htree] at hk hn hx
    have hnamed : ∀ q < 20, ∀ f ∈ [Field.localName, .left, .key, .value],
        ∀ k ∈ (namesProgram "xs").kind? ⟨q⟩, k.barsLiteral f = true →
        ∀ n ∈ (namesProgram "xs").occupant? (.slot ⟨q⟩ f),
          (namesProgram "xs").kind? n = some (.identifier "x" none) := by decide
    have hnx := hnamed q.index (((namesProgram "xs").kind?_isSome_iff q).mp ⟨k, hk⟩) f hmem k hk
      hbars n hn
    obtain ⟨rfl, rfl⟩ := NodeKind.identifier.inj (Option.some.inj (hx.symm.trans hnx))
    obtain ⟨b, i, j, sc, v, -, -, -, hsc, hv, -⟩ :=
      (leadsToFixed_iff (hfresh.settled ht hgrammar).1.upright.ordered).mp hleads
    have hnone := hunbound sc (Array.mem_toList_iff.mpr (Array.mem_of_getElem? hsc))
    cases hnone.symm.trans hv
  exact ⟨ht, hgrammar, hfresh, _, _, hrun, hinlined, hclear, hnames, hkeeps hclear hnames⟩

/-- With the declaration `var x = 1;` literals come to stand where the grammar asks for names: the
program is `for (1 of xs) ; export { 1 as x }; f({ 1 });` behind the declaration. -/
theorem namesProgram_breaks : (namesProgram "x").IsProgram ∧ (namesProgram "x").Grammatical ∧
    (namesWalk "x").session.Fresh (namesProgram "x") ∧
    (namesWalk "x").session.tree.NamesStand ∧
    ∃ done w', Transformer.attempt (Rule.constantInliner 100).visitor (namesWalk "x") =
        .ok (.ok done) w' ∧
      (w'.session.tree.kind? ⟨7⟩ = some (.forOfStatement ⟨20⟩ ⟨5⟩ ⟨6⟩) ∧
        w'.session.tree.IsLiteral ⟨20⟩) ∧
      (w'.session.tree.kind? ⟨10⟩ = some (.exportSpecifier ⟨21⟩ ⟨9⟩) ∧
        w'.session.tree.IsLiteral ⟨21⟩) ∧
      (w'.session.tree.kind? ⟨14⟩ = some (.objectProperty ⟨12⟩ ⟨22⟩ false true) ∧
        w'.session.tree.IsLiteral ⟨22⟩) ∧
      ¬ w'.session.tree.NamesStand := by
  have ht := namesProgram_isProgram.1
  obtain ⟨hfresh, htree⟩ := namesWalk_fresh ht
  have hrun := eq_ok_of_value? (x := Transformer.attempt (Rule.constantInliner 100).visitor)
    (s := namesWalk "x") (a := .ok { stopped := false, visited := 23 }) (by decide +kernel)
  refine ⟨ht, namesProgram_grammatical "x", hfresh,
    htree ▸ namesProgram_namesStand "x", _, _, hrun, ?_⟩
  generalize hw' : after (Transformer.attempt (Rule.constantInliner 100).visitor) (namesWalk "x") =
    w'
  have hkinds : w'.session.tree.kind? ⟨7⟩ = some (.forOfStatement ⟨20⟩ ⟨5⟩ ⟨6⟩) ∧
      w'.session.tree.kind? ⟨10⟩ = some (.exportSpecifier ⟨21⟩ ⟨9⟩) ∧
      w'.session.tree.kind? ⟨14⟩ = some (.objectProperty ⟨12⟩ ⟨22⟩ false true) ∧
      w'.session.tree.kind? ⟨20⟩ = some (.numericLiteral ⟨0x3ff0000000000000⟩) ∧
      w'.session.tree.kind? ⟨21⟩ = some (.numericLiteral ⟨0x3ff0000000000000⟩) ∧
      w'.session.tree.kind? ⟨22⟩ = some (.numericLiteral ⟨0x3ff0000000000000⟩) ∧
      w'.session.tree.kind? ⟨19⟩ = some (.program [⟨3⟩, ⟨7⟩, ⟨11⟩, ⟨18⟩] []) ∧
      w'.session.tree.root = some ⟨19⟩ := by
    rw [← hw']
    decide +kernel
  obtain ⟨h7, h10, h14, h20, h21, h22, h19, hroot⟩ := hkinds
  refine ⟨⟨h7, _, h20, rfl⟩, ⟨h10, _, h21, rfl⟩, ⟨h14, _, h22, rfl⟩, fun hnames => ?_⟩
  have hloop : w'.session.tree.Reachable ⟨7⟩ :=
    .child (.root hroot) ((Tree.isChild_iff _ _ _).mpr ⟨_, h19, by decide⟩)
  exact hnames.looped ⟨7⟩ _ ⟨20⟩ hloop h7 (.inr rfl) (Tree.occupant?_slot h7) ⟨_, h20, rfl⟩

end Espalier
