import Espalier.Path.Facts
import Espalier.Proofs.Navigation
import Espalier.Proofs.Reduction
import Espalier.Syntax.Build

set_option autoImplicit false

/-! # Chains of accesses and dotted patterns

A chain of property accesses has a name for each of its steps (`Tree.Chain`), and it is matched by
these names alone: whether a property is an identifier, or a string literal in brackets, makes no
difference. The chain that is built from a dotted text has the parts of the text as its names, so it
is matched by comparing the parts of the text with those of the pattern
(`matchesPattern_memberChain`). -/

namespace Espalier

open SessionM Session

/-! ## Parts of a dotted text -/

namespace Dotted

theorem split_ne_nil (cs : List Char) : split cs ≠ [] := by
  cases cs with
  | nil => simp [split]
  | cons c cs =>
    rw [split]
    split
    · simp
    · cases split cs <;> simp

/-- There is one part more than there are dots. -/
theorem length_split (cs : List Char) : (split cs).length = cs.count '.' + 1 := by
  induction cs with
  | nil => rfl
  | cons c cs ih =>
    rw [split, List.count_cons]
    by_cases hc : c = '.'
    · rw [if_pos hc, List.length_cons, ih, if_pos (by simpa using hc)]
    · rw [if_neg hc, if_neg (by simpa using hc), ← ih]
      cases h : split cs with
      | nil => exact absurd h (split_ne_nil cs)
      | cons => rfl

theorem length_parts (s : String) : (parts s).length = s.toList.count '.' + 1 := by
  rw [parts, List.length_map, length_split]

end Dotted

/-! ## Chains -/

namespace Tree

variable {t t' : Tree} {n m : NodeId} {xs : List String}

/-- The node is a chain of accesses with these names, from its start on. It starts with a name or
with `this`; a property is an identifier, or a string literal in brackets. -/
inductive Chain (t : Tree) : NodeId → List String → Prop
  | name {n : NodeId} {x : String} {declared : Option ValueType} :
      t.kind? n = some (.identifier x declared) → Chain t n [x]
  | this {n : NodeId} : t.kind? n = some .thisExpression → Chain t n ["this"]
  | plain {n object property : NodeId} {xs : List String} {x : String} {declared : Option ValueType} :
      Chain t object xs → t.kind? n = some (.memberExpression object property false) →
      t.kind? property = some (.identifier x declared) → Chain t n (xs ++ [x])
  | quoted {n object property : NodeId} {xs : List String} {x : String} :
      Chain t object xs → t.kind? n = some (.memberExpression object property true) →
      t.kind? property = some (.stringLiteral x) → Chain t n (xs ++ [x])

theorem Chain.kind (h : t.Chain n xs) : ∃ k, t.kind? n = some k := by
  cases h with
  | name hk | this hk | plain _ hk | quoted _ hk => exact ⟨_, hk⟩

/-- The names of a chain are found, given a step for each. -/
theorem Chain.chainNames? (h : t.Chain n xs) {fuel : Nat} (hfuel : xs.length ≤ fuel) :
    t.chainNames? fuel n = some (xs.map some) := by
  have hpos : fuel ≠ 0 := by
    cases h <;> simp at hfuel <;> omega
  induction h generalizing fuel with
  | name hk | this hk =>
    obtain ⟨fuel, rfl⟩ := Nat.exists_eq_succ_of_ne_zero hpos
    rw [Tree.chainNames?, hk]
    rfl
  | @plain n object property xs x declared hobject hk hproperty ih
  | @quoted n object property xs x hobject hk hproperty ih =>
    obtain ⟨fuel, rfl⟩ := Nat.exists_eq_succ_of_ne_zero hpos
    rw [List.length_append, List.length_singleton, Nat.succ_le_succ_iff] at hfuel
    have hne : xs.length ≠ 0 := by cases hobject <;> simp
    rw [Tree.chainNames?, hk]
    simp [accessName?, hproperty, ih hfuel (by omega)]

/-- The second tree has the chain at `n` that the first one has, except that any number of its
properties are written in brackets there, as string literals of the same text. -/
def Requotes (t t' : Tree) (n : NodeId) : Prop :=
  ∀ m k, Relation.ReflTransGen t.IsChild n m → t.kind? m = some k → t'.kind? m = some k ∨
    ∃ object property x declared literal, k = .memberExpression object property false ∧
      t.kind? property = some (.identifier x declared) ∧
        t'.kind? m = some (.memberExpression object literal true) ∧
          t'.kind? literal = some (.stringLiteral x)

theorem Requotes.below (h : t.Requotes t' n) (hm : t.IsChild n m) : t.Requotes t' m :=
  fun m' k hm' hk => h m' k (.head hm hm') hk

/-- What is no access stays as it is. -/
theorem Requotes.kind_of_not_access (h : t.Requotes t' n) {k : NodeKind} (hk : t.kind? n = some k)
    (htype : k.type ≠ .memberExpression) : t'.kind? n = some k := by
  rcases h n k .refl hk with hk' | ⟨object, property, x, declared, literal, rfl, -⟩
  · exact hk'
  · exact absurd rfl htype

/-- Properties may be put in brackets; the chain keeps its names. -/
theorem Chain.requoted (h : t.Chain n xs) (hq : t.Requotes t' n) : t'.Chain n xs := by
  induction h with
  | name hk => exact .name (hq.kind_of_not_access hk (by simp [NodeKind.type]))
  | this hk => exact .this (hq.kind_of_not_access hk (by simp [NodeKind.type]))
  | @plain n object property xs x declared _ hk hproperty ih =>
    have hobject : t.IsChild n object := (t.isChild_iff n object).mpr
      ⟨_, hk, by simp [NodeKind.children, NodeKind.fields, Child.ids]⟩
    have hbelow : t.IsChild n property := (t.isChild_iff n property).mpr
      ⟨_, hk, by simp [NodeKind.children, NodeKind.fields, Child.ids]⟩
    have ih := ih (hq.below hobject)
    rcases hq n _ .refl hk with hk' | ⟨object', property', x', declared', literal, heq, hx, hk', hl⟩
    · exact .plain ih hk' ((hq.below hbelow).kind_of_not_access hproperty (by simp [NodeKind.type]))
    · cases heq
      obtain ⟨rfl, -⟩ : x = x' ∧ _ := by simpa [hproperty] using hx
      exact .quoted ih hk' hl
  | @quoted n object property xs x _ hk hproperty ih =>
    have hobject : t.IsChild n object := (t.isChild_iff n object).mpr
      ⟨_, hk, by simp [NodeKind.children, NodeKind.fields, Child.ids]⟩
    have hbelow : t.IsChild n property := (t.isChild_iff n property).mpr
      ⟨_, hk, by simp [NodeKind.children, NodeKind.fields, Child.ids]⟩
    rcases hq n _ .refl hk with hk' | ⟨_, _, _, _, _, heq, -⟩
    · exact .quoted (ih (hq.below hobject)) hk'
        ((hq.below hbelow).kind_of_not_access hproperty (by simp [NodeKind.type]))
    · cases heq

theorem Chain.grown (h : t.Chain n xs) (hg : t.Grown t') : t'.Chain n xs := by
  induction h with
  | name hk => exact .name (hg.kind hk)
  | this hk => exact .this (hg.kind hk)
  | plain _ hk hproperty ih => exact .plain ih (hg.kind hk) (hg.kind hproperty)
  | quoted _ hk hproperty ih => exact .quoted ih (hg.kind hk) (hg.kind hproperty)

end Tree

/-! ## Building chains -/

namespace TreeM

variable {t : Tree} {object : NodeId} {xs : List String}

/-- The node is a chain with these names, and there are nodes before it for all but one of them. If
there is more than one name, the node is an access. -/
structure IsChainOf (xs : List String) (n : NodeId) (t : Tree) : Prop where
  chain : t.Chain n xs
  room : xs.length ≤ n.index + 1
  access : 1 < xs.length → ∃ k, t.kind? n = some k ∧ k.type = .memberExpression

/-- Accesses make a chain longer. -/
theorem memberOf_builds (h : IsChainOf xs object t) (names : List String) :
    (memberOf object names).Builds t (IsChainOf (xs ++ names)) := by
  induction names generalizing t object xs with
  | nil =>
    rw [List.append_nil]
    exact .pure h
  | cons x names ih =>
    obtain ⟨k, hk⟩ := h.chain.kind
    unfold memberOf
    refine (builds_alloc (.refl t) _).bind fun property t₁ hg₁ hproperty => ?_
    refine (builds_alloc hg₁ (.memberExpression object property false)).bind
      fun access t₂ hg₂ haccess => ?_
    have hlonger : IsChainOf (xs ++ [x]) access t₂ := by
      have hbefore : object.index < t.size := (t.kind?_isSome_iff object).mp ⟨k, hk⟩
      have hnew : t.size ≤ access.index := by simpa [Tree.contains] using haccess.1
      have hroom := h.room
      refine ⟨.plain (h.chain.grown (hg₁.trans hg₂)) haccess.2 (hg₂.kind hproperty.2), ?_,
        fun _ => ⟨_, haccess.2, rfl⟩⟩
      rw [List.length_append, List.length_singleton]
      omega
    rw [List.append_cons]
    exact ih hlonger

/-- The chain that is built from a dotted text has the parts of the text as its names. -/
theorem memberChain_builds (dotted : String) (t : Tree) :
    (memberChain dotted).Builds t (IsChainOf (Dotted.parts dotted)) := by
  have hparts := Dotted.length_parts dotted
  unfold memberChain
  cases h : Dotted.parts dotted with
  | nil => simp [h] at hparts
  | cons first rest =>
    have hrest : ∀ {n : NodeId} {t' : Tree}, t'.Chain n [first] →
        (memberOf n rest).Builds t' (IsChainOf (first :: rest)) := fun hchain =>
      memberOf_builds ⟨hchain, by simp, fun hlong => by simp at hlong⟩ rest
    dsimp only
    split
    · next hthis =>
      subst hthis
      exact (builds_alloc (.refl t) _).bind fun object t₁ _ hobject => hrest (.this hobject.2)
    · exact (builds_alloc (.refl t) _).bind fun object t₁ _ hobject => hrest (.name hobject.2)

end TreeM

/-! ## Matching -/

theorem matchesParts_iff (names parts : List String) (allowPartial : Bool) :
    matchesParts (names.map some) parts allowPartial = true ↔
      (if allowPartial then parts.length ≤ names.length else parts.length = names.length) ∧
        ∀ (i : Nat) part name, parts[i]? = some part → names[i]? = some name →
          part = "*" ∨ part = name := by
  have hlength : ((names.map some).length < parts.length ||
      (!allowPartial && parts.length < (names.map some).length)) = false ↔
        (if allowPartial then parts.length ≤ names.length else parts.length = names.length) := by
    cases allowPartial with
    | true => simp
    | false => simp; omega
  rw [← hlength]
  unfold matchesParts
  split
  · next hwrong => rw [hwrong]; simp
  · next hright =>
    rw [Bool.not_eq_true] at hright
    rw [hright, List.all_eq_true]
    constructor
    · refine fun h => ⟨rfl, fun i part name hpart hname => ?_⟩
      have hmem : (part, some name) ∈ parts.zip (names.map some) :=
        List.mem_of_getElem? (i := i) (by rw [List.getElem?_zip_eq_some]; simp [hpart, hname])
      simpa using h _ hmem
    · rintro ⟨-, h⟩ ⟨part, name?⟩ hmem
      obtain ⟨i, hi⟩ := List.mem_iff_getElem?.mp hmem
      obtain ⟨hpart, hname⟩ := List.getElem?_zip_eq_some.mp hi
      rw [List.getElem?_map, Option.map_eq_some_iff] at hname
      obtain ⟨name, hname, rfl⟩ := hname
      simpa using h i part name hpart hname

/-- Where a chain with more than one name stands, its names are compared with the parts of the
pattern. -/
theorem PathId.matchesPattern_run {s : Session} {p : PathId} {n : NodeId} {k : NodeKind}
    {names : List String} (hp : s.Holds p n) (hk : s.tree.kind? n = some k)
    (htype : k.type = .memberExpression) (hchain : s.tree.Chain n names)
    (hroom : names.length ≤ s.tree.size) (pattern : String) (allowPartial : Bool) :
    p.matchesPattern pattern allowPartial s =
      .ok (matchesParts (names.map some) (Dotted.parts pattern) allowPartial) s := by
  have htype? : s.tree.type? n = some .memberExpression := by rw [Tree.type?_of_kind hk, htype]
  have hnames : s.tree.chainNames? s.tree.depthBound n = some (names.map some) :=
    hchain.chainNames? (by unfold Tree.depthBound; omega)
  unfold PathId.matchesPattern
  refine (bind_of_ok (PathId.node?_run_of_holds hp)).trans ?_
  refine (bind_of_ok (ask_run htype?)).trans ?_
  rw [if_pos rfl]
  exact bind_of_ok (askBelow_run hnames)

/-- A path that holds the chain built from a text with a dot matches a pattern exactly if the pattern
has as many parts as the text, and each of them is a star or the part of the text in its place. If
the chain may go on, the pattern may have fewer parts. Any number of the properties may have been put
in brackets since, as string literals of the same text; that changes neither answer. -/
theorem matchesPattern_memberChain {text : String} (hdot : '.' ∈ text.toList) {t t₁ : Tree}
    {n : NodeId} (hbuilt : (TreeM.memberChain text).run t = some (n, t₁)) {s : Session} {p : PathId}
    (hp : s.Holds p n) (hquoted : t₁.Requotes s.tree n) (pattern : String) :
    ∃ whole start, p.matchesPattern pattern false s = .ok whole s ∧
      p.matchesPattern pattern true s = .ok start s ∧
      (whole = true ↔ (Dotted.parts pattern).length = (Dotted.parts text).length ∧
        ∀ (i : Nat) part name, (Dotted.parts pattern)[i]? = some part →
          (Dotted.parts text)[i]? = some name → part = "*" ∨ part = name) ∧
      (start = true ↔ (Dotted.parts pattern).length ≤ (Dotted.parts text).length ∧
        ∀ (i : Nat) part name, (Dotted.parts pattern)[i]? = some part →
          (Dotted.parts text)[i]? = some name → part = "*" ∨ part = name) := by
  obtain ⟨n', t', hrun, -, hchain⟩ := TreeM.memberChain_builds text t
  obtain ⟨rfl, rfl⟩ : n' = n ∧ t' = t₁ := by simpa using hrun.symm.trans hbuilt
  obtain ⟨k, hk, htype⟩ := hchain.access (by
    rw [Dotted.length_parts]
    have := List.count_pos_iff.mpr hdot
    omega)
  have hkind : ∃ k', s.tree.kind? n' = some k' ∧ k'.type = .memberExpression := by
    rcases hquoted n' k .refl hk with hk' | ⟨_, _, _, _, _, -, -, hk', -⟩
    · exact ⟨k, hk', htype⟩
    · exact ⟨_, hk', rfl⟩
  obtain ⟨k', hk', htype'⟩ := hkind
  have hroom : (Dotted.parts text).length ≤ s.tree.size :=
    hchain.room.trans ((s.tree.kind?_isSome_iff n').mp ⟨k', hk'⟩)
  have hmatch := PathId.matchesPattern_run hp hk' htype' (hchain.chain.requoted hquoted) hroom pattern
  exact ⟨_, _, hmatch false, hmatch true, matchesParts_iff _ _ false, matchesParts_iff _ _ true⟩

/-- The chain `this.a.b` as it is built. -/
def plainChain : Tree where
  nodes := #[{ kind := .thisExpression }, { kind := .identifier "a" none },
    { kind := .memberExpression ⟨0⟩ ⟨1⟩ false }, { kind := .identifier "b" none },
    { kind := .memberExpression ⟨2⟩ ⟨3⟩ false }]

/-- The same chain, written `this.a["b"]`. -/
def bracketChain : Tree where
  nodes := #[{ kind := .thisExpression }, { kind := .identifier "a" none },
    { kind := .memberExpression ⟨0⟩ ⟨1⟩ false }, { kind := .identifier "b" none },
    { kind := .memberExpression ⟨2⟩ ⟨5⟩ true }, { kind := .stringLiteral "b" }]
  root := some ⟨4⟩

theorem bracketChain_requotes : plainChain.Requotes bracketChain ⟨4⟩ := by
  intro m k _ hk
  have hkinds : ∀ i < 4, bracketChain.kind? ⟨i⟩ = plainChain.kind? ⟨i⟩ := by decide
  have hm := (plainChain.kind?_isSome_iff m).mp ⟨k, hk⟩
  by_cases hlast : m.index = 4
  · obtain rfl : m = ⟨4⟩ := by rw [← hlast]
    obtain rfl := Option.some.inj hk
    exact .inr ⟨⟨2⟩, ⟨3⟩, "b", none, ⟨5⟩, rfl, rfl, rfl, rfl⟩
  · have hbefore : m.index < 5 := hm
    exact .inl ((hkinds m.index (by omega)).trans hk)

/-- A session with the path of the chain that has a property in brackets. -/
def bracketSession : Session where
  tree := bracketChain
  paths := #[{ node := some ⟨4⟩, parent := none, container := .root, key := .root }]

/-- The chain is matched by `*.a.b`, and its start by `this.*`. -/
theorem bracketSession_matches : '.' ∈ "this.a.b".toList ∧
    (TreeM.memberChain "this.a.b").run {} = some (⟨4⟩, plainChain) ∧
    bracketSession.Holds ⟨0⟩ ⟨4⟩ ∧ plainChain.Requotes bracketSession.tree ⟨4⟩ ∧
    PathId.matchesPattern ⟨0⟩ "*.a.b" false bracketSession = .ok true bracketSession ∧
    PathId.matchesPattern ⟨0⟩ "this.*" true bracketSession = .ok true bracketSession := by
  have hdot : '.' ∈ "this.a.b".toList := by decide
  have hbuilt : (TreeM.memberChain "this.a.b").run {} = some (⟨4⟩, plainChain) := by
    decide +kernel
  have hholds : bracketSession.Holds ⟨0⟩ ⟨4⟩ := ⟨_, rfl, rfl⟩
  have hstart : Dotted.parts "this.*" = ["this", "*"] := by decide
  have hwhole : Dotted.parts "*.a.b" = ["*", "a", "b"] := by decide
  have htext : Dotted.parts "this.a.b" = ["this", "a", "b"] := by decide
  obtain ⟨whole, -, hrun, -, hiff, -⟩ :=
    matchesPattern_memberChain hdot hbuilt hholds bracketChain_requotes "*.a.b"
  obtain ⟨-, start, -, hrun', -, hiff'⟩ :=
    matchesPattern_memberChain hdot hbuilt hholds bracketChain_requotes "this.*"
  refine ⟨hdot, hbuilt, hholds, bracketChain_requotes, ?_, ?_⟩
  · rw [hrun, hiff.mpr]
    rw [hwhole, htext]
    refine ⟨rfl, fun i part name hpart hname => ?_⟩
    match i with
    | 0 | 1 | 2 => simp_all
    | i + 3 => simp at hpart
  · rw [hrun', hiff'.mpr]
    rw [hstart, htext]
    refine ⟨by decide, fun i part name hpart hname => ?_⟩
    match i with
    | 0 | 1 => simp_all
    | i + 2 => simp at hpart

end Espalier
