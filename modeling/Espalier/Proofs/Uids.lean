import Espalier.Proofs.Accounts

set_option autoImplicit false

/-! # Generated names are new

The search for a new name asks only the scopes around, but a name that is bound anywhere below the
same outermost scope is on that scope's list (`Session.Accounted`), which is asked as well. So a
candidate is refused exactly if the outermost scope has it on one of its lists (`isTaken_run`). The
candidates from number one on are pairwise different, hence one of the first `n + 1` is not among `n`
names (`exists_free_candidate`), and the search ends in time. A generated name goes on the list, from
which no later call strikes it off (`Session.Generates.mentioned`); the main statement is
`generated_names_differ`. -/

namespace Espalier

open SessionM Session

/-! ## Candidates -/

/-- The candidates from number one on are different. -/
theorem uidCandidate_injective (lead base : String) {m n : Nat} (hm : 1 ≤ m) (hn : 1 ≤ n)
    (h : uidCandidate lead base m = uidCandidate lead base n) : m = n := by
  -- A candidate is the stem, followed by the digits of its number from two on.
  have hdigits : ∀ i, (uidCandidate lead base i).toList =
      (lead ++ base).toList ++ if 1 < i then Nat.toDigits 10 i else [] := by
    intro i
    unfold uidCandidate numberText
    split <;> simp
  have hread : ∀ i, Nat.ofDigitChars 10 (if 1 < i then Nat.toDigits 10 i else []) 0 =
      if 1 < i then i else 0 := by
    intro i
    split <;> simp
  have hlist := congrArg String.toList h
  rw [hdigits, hdigits] at hlist
  have hnumber := congrArg (fun ds => Nat.ofDigitChars 10 ds 0) (List.append_cancel_left hlist)
  simp only [hread] at hnumber
  split at hnumber <;> split at hnumber <;> omega

/-- Among one candidate more than there are names, one is not a name. -/
theorem exists_free_candidate (lead base : String) (taken : List String) :
    ∃ n, 1 ≤ n ∧ n ≤ taken.length + 1 ∧ uidCandidate lead base n ∉ taken := by
  by_contra hall
  push Not at hall
  let candidates := (List.range' 1 (taken.length + 1)).map (uidCandidate lead base)
  have hnodup : candidates.Nodup := by
    refine List.Nodup.map_on (fun m hm n hn h => ?_) List.nodup_range'
    rw [List.mem_range'_1] at hm hn
    exact uidCandidate_injective lead base hm.1 hn.1 h
  have hsub : candidates ⊆ taken := by
    intro x hx
    obtain ⟨n, hn, rfl⟩ := List.mem_map.mp hx
    rw [List.mem_range'_1] at hn
    exact hall n hn.1 (by omega)
  have hlength := (List.subperm_of_subset hnodup hsub).length_le
  simp only [candidates, List.length_map, List.length_range'] at hlength
  omega

/-! ## The search -/

section Search

variable {s : Session} {i k : ScopeId} {sc : Scope}

theorem Session.Finds.outermost {x : String} {o : Option ScopeId} {j : ScopeId}
    (h : s.Finds x i o) (ho : o = some j) (hi : s.Outermost i k) : s.Outermost j k := by
  induction h with
  | here _ =>
    obtain rfl := Option.some.inj ho
    exact hi
  | nowhere _ _ => cases ho
  | outer _ ha _ ih =>
    cases hi with
    | here hout => exact absurd hout ha.not_isOutermost
    | outer ha' hj =>
      obtain rfl := ha.unique ha'
      exact ih ho hj

/-- The names that a program scope has on its lists. -/
def Scope.names (sc : Scope) : List String := sc.globals ++ sc.references ++ sc.uids

/-- A name is taken if the outermost scope has it on a list. -/
theorem isTaken_run (hs : s.Accounted) (hi : s.Outermost i k)
    (hk : s.scopes.scopes[k.index]? = some sc) (hscope : s.HasScope i) (x : String) :
    i.isTaken x s = .ok (decide (x ∈ sc.names)) s := by
  obtain ⟨o, hrun, hfinds⟩ := ScopeId.bindingScope?_run hs.ordered hscope x
  have hbinding : i.hasBinding x s = .ok o.isSome s := bind_of_ok hrun
  unfold ScopeId.isTaken
  rw [bind_of_ok hbinding]
  cases o with
  | some j =>
    -- The name is bound around, so it is on the list.
    obtain ⟨k', hk', sc', hsc', hx⟩ := hs.mentioned j x hfinds.binds
    obtain rfl := hk'.unique (hfinds.outermost rfl hi)
    obtain rfl := Option.some.inj (hk.symm.trans hsc')
    have hmem : x ∈ sc.names := by simp [Scope.names, hx]
    simp [hmem]
  | none =>
    obtain ⟨k', hprogram, hk'⟩ := ScopeId.programScope_run hs.ordered hscope
    obtain rfl := hk'.unique hi
    rw [if_neg (by simp), bind_of_ok hprogram, bind_of_ok (ScopeId.data_run hk)]
    simp [Scope.names, Bool.decide_or, Bool.or_assoc]

theorem hasScope_of_chain {l : List ScopeId} (h : s.Chain i l) :
    ∀ j ∈ l, s.HasScope j := by
  induction h with
  | last hout =>
    intro j hj
    obtain rfl := List.mem_singleton.mp hj
    obtain ⟨sc, hsc, -⟩ := hout
    exact hasScope_of_scope hsc
  | step ha _ ih =>
    intro j hj
    rcases List.mem_cons.mp hj with rfl | hj
    · obtain ⟨sc, hsc, -⟩ := ha
      exact hasScope_of_scope hsc
    · exact ih j hj

/-- The numbers of bindings of some scopes. -/
theorem sizes_run (l : List ScopeId) (h : ∀ j ∈ l, s.HasScope j) :
    ∃ sizes, (l.mapM fun t => do pure (← t.data).bindings.entries.length : SessionM (List Nat)) s =
      .ok sizes s := by
  induction l with
  | nil => exact ⟨[], rfl⟩
  | cons j l ih =>
    obtain ⟨scj, hscj⟩ := (h j (by simp)).scope
    obtain ⟨sizes, hsizes⟩ := ih fun j' hj' => h j' (by simp [hj'])
    have hj : (do pure (← j.data).bindings.entries.length : SessionM Nat) s =
        .ok scj.bindings.entries.length s := bind_of_ok (ScopeId.data_run hscj)
    refine ⟨scj.bindings.entries.length :: sizes, ?_⟩
    rw [List.mapM_cons, bind_of_ok hj, bind_of_ok hsizes]
    rfl

/-- The count of taken names is not less than the names on the lists. -/
theorem takenCount_run (hs : s.Accounted) (hi : s.Outermost i k)
    (hk : s.scopes.scopes[k.index]? = some sc) (hscope : s.HasScope i) :
    ∃ n, i.takenCount s = .ok n s ∧ sc.names.length ≤ n := by
  obtain ⟨k', hprogram, hk'⟩ := ScopeId.programScope_run hs.ordered hscope
  obtain rfl := hk'.unique hi
  obtain ⟨l, hchain, hl⟩ := ScopeId.chain_run hs.ordered hscope
  obtain ⟨sizes, hsizes⟩ := sizes_run l (hasScope_of_chain hl)
  refine ⟨sizes.foldl (· + ·) 0 + sc.globals.length + sc.references.length + sc.uids.length, ?_, ?_⟩
  · unfold ScopeId.takenCount
    rw [bind_of_ok hprogram, bind_of_ok (ScopeId.data_run hk), bind_of_ok hchain,
      bind_of_ok hsizes]
    rfl
  · simp only [Scope.names, List.length_append]
    omega

/-- The search gives a candidate that is not taken, if there is one within reach. -/
theorem freeCandidate_run (lead base : String) {taken : List String}
    (htaken : ∀ x, i.isTaken x s = .ok (decide (x ∈ taken)) s) (fuel m : Nat)
    (hfree : ∃ n, m ≤ n ∧ n < m + fuel ∧ uidCandidate lead base n ∉ taken) :
    ∃ name, i.freeCandidate lead base fuel m s = .ok name s ∧ name ∉ taken := by
  induction fuel generalizing m with
  | zero =>
    obtain ⟨n, _, _, -⟩ := hfree
    omega
  | succ fuel ih =>
    unfold ScopeId.freeCandidate
    rw [bind_of_ok (htaken _)]
    by_cases hm : uidCandidate lead base m ∈ taken
    · rw [if_pos (by simpa using hm)]
      refine ih (m + 1) ?_
      obtain ⟨n, hle, hlt, hn⟩ := hfree
      have hne : m ≠ n := by
        rintro rfl
        exact hn hm
      exact ⟨n, by omega, by omega, hn⟩
    · rw [if_neg (by simpa using hm)]
      exact ⟨_, rfl, hm⟩

/-- The scope once a name is noted that was generated below. -/
def Scope.noteUid (sc : Scope) (x : String) : Scope :=
  { sc with references := ScopeId.addName sc.references x, uids := ScopeId.addName sc.uids x }

/-- A generated name is on no list, and goes on the lists of the outermost scope. -/
theorem generateUid_run (hs : s.Accounted) (hscope : s.HasScope i) (hi : s.Outermost i k)
    (hk : s.scopes.scopes[k.index]? = some sc) (text : String) :
    ∃ name, i.generateUid text s = .ok name (s.mapScope k fun sc => sc.noteUid name) ∧
      name ∉ sc.names := by
  obtain ⟨n, hcount, hle⟩ := takenCount_run hs hi hk hscope
  obtain ⟨m, -, hm, hfree⟩ := exists_free_candidate s.config.uidLead (uidBase text) sc.names
  obtain ⟨name, hname, hnew⟩ := freeCandidate_run s.config.uidLead (uidBase text)
    (isTaken_run hs hi hk hscope) (n + 3) 0 ⟨m, by omega, by omega, hfree⟩
  obtain ⟨k', hprogram, hk'⟩ := ScopeId.programScope_run hs.ordered hscope
  obtain rfl := hk'.unique hi
  refine ⟨name, ?_, hnew⟩
  unfold ScopeId.generateUid
  rw [run_get_bind, bind_of_ok hcount, bind_of_ok hname, bind_of_ok hprogram]
  exact bind_of_ok (ScopeId.modifyData_run hi.hasScope fun sc => sc.noteUid name)

/-- Afterwards the name is on the list of names that occur. -/
theorem generateUid_returns (hs : s.Accounted) (hscope : s.HasScope i) (hi : s.Outermost i k)
    (hk : s.scopes.scopes[k.index]? = some sc) (text : String) :
    Returns (i.generateUid text) s fun name s' => name ∉ sc.names ∧ s'.Mentions k name := by
  obtain ⟨name, hrun, hnew⟩ := generateUid_run hs hscope hi hk text
  refine ⟨name, _, hrun, hnew, sc.noteUid name, ?_, ?_⟩
  · rw [getElem?_mapScope, if_pos rfl, hk, Option.map_some]
  · exact (Scope.mem_addName sc.references name name).mpr (.inr rfl)

end Search

/-! ## Sequences of calls -/

/-- A session after calls that generate names, declare and forget names, and edit the tree, in any
order, with any arguments and however they end. The list holds the generated names, each with the
scope that was asked for it. -/
inductive Session.Generates (s : Session) : List (ScopeId × String) → Session → Prop
  | start : Generates s [] s
  | uid {l : List (ScopeId × String)} {s₁ s₂ : Session} {i : ScopeId} {text name : String} :
      Generates s l s₁ → i.generateUid text s₁ = .ok name s₂ → Generates s ((i, name) :: l) s₂
  | declaredUid {l : List (ScopeId × String)} {s₁ s₂ : Session} {i : ScopeId}
      {text name : String} : Generates s l s₁ → i.generateDeclaredUid text s₁ = .ok name s₂ →
      Generates s ((i, name) :: l) s₂
  | pushDeclaration {l : List (ScopeId × String)} {s₁ : Session} (i : ScopeId) (name : String)
      (init : Option NodeId) : Generates s l s₁ →
      Generates s l (after (i.pushDeclaration name init) s₁)
  | registerDeclaration {l : List (ScopeId × String)} {s₁ : Session} (p : PathId) :
      Generates s l s₁ → Generates s l (after p.registerDeclaration s₁)
  | removeBinding {l : List (ScopeId × String)} {s₁ : Session} (i : ScopeId) (name : String) :
      Generates s l s₁ → Generates s l (after (i.removeBinding name) s₁)
  | remove {l : List (ScopeId × String)} {s₁ : Session} (p : PathId) :
      Generates s l s₁ → Generates s l (after p.remove s₁)
  /-- Any other edit, or a call that fails to generate a name. -/
  | edit {l : List (ScopeId × String)} {s₁ : Session} {α : Type} {x : SessionM α} :
      Editing x → Generates s l s₁ → Generates s l (after x s₁)

/-- What is known after such calls: bound names are accounted for, and generated names are on the
list of the scope that is outermost around the scope asked. -/
structure Session.Remembers (s : Session) (l : List (ScopeId × String)) : Prop where
  accounted : s.Accounted
  listed : ∀ e ∈ l, ∃ k, s.Outermost e.1 k ∧ s.Mentions k e.2

namespace Session.Remembers

variable {s s' : Session} {l : List (ScopeId × String)}

theorem upholds (h : s.Remembers l) (hs : s.Upholds s') : s'.Remembers l :=
  ⟨hs.accounted, fun e he => hs.retains.mentioned (h.listed e he)⟩

/-- A call that upholds what it should forgets no generated name. -/
theorem after (h : s.Remembers l) {α : Type} {x : SessionM α} (hx : Upholding x) :
    (after x s).Remembers l := h.upholds (hx s h.accounted)

/-- A generated name is remembered. -/
theorem uid (h : s.Remembers l) {i : ScopeId} {text name : String}
    (hrun : i.generateUid text s = .ok name s') : s'.Remembers ((i, name) :: l) := by
  have hupholds := (Upholding.generateUid i text).of_ok hrun h.accounted
  have hscope : s.HasScope i := by
    by_contra hi
    have hcount : i.takenCount s = .error .dangling s :=
      bind_of_error (ScopeId.programScope_unknown hi)
    unfold ScopeId.generateUid at hrun
    rw [run_get_bind, bind_of_error hcount] at hrun
    cases hrun
  obtain ⟨k, -, hk⟩ := ScopeId.programScope_run h.accounted.ordered hscope
  obtain ⟨sc, hsc⟩ := hk.hasScope.scope
  have hmentions := (generateUid_returns h.accounted hscope hk hsc text).of_eq_ok hrun
  refine ⟨hupholds.accounted, fun e he => ?_⟩
  rcases List.mem_cons.mp he with rfl | he
  · exact ⟨k, hupholds.retains.outermost hk, hmentions.2⟩
  · exact hupholds.retains.mentioned (h.listed e he)

theorem declaredUid (h : s.Remembers l) {i : ScopeId} {text name : String}
    (hrun : i.generateDeclaredUid text s = .ok name s') : s'.Remembers ((i, name) :: l) := by
  obtain ⟨uid, s₁, hgenerate, hdeclare⟩ := bind_eq_ok hrun
  obtain ⟨p, s₂, hpush, hpure⟩ := bind_eq_ok hdeclare
  cases hpure
  have hknown := h.uid hgenerate
  exact hknown.upholds ((Editing.pushDeclaration i name none).upholding.of_ok hpush hknown.accounted)

end Session.Remembers

/-- Whatever is called after a crawl, generated names are remembered. -/
theorem Session.Generates.remembers {s s' : Session} {l : List (ScopeId × String)}
    (h : s.Generates l s') (hs : s.Accounted) : s'.Remembers l := by
  induction h with
  | start => exact ⟨hs, by simp⟩
  | uid _ hrun ih => exact ih.uid hrun
  | declaredUid _ hrun ih => exact ih.declaredUid hrun
  | pushDeclaration i name init _ ih => exact ih.after (Editing.pushDeclaration i name init).upholding
  | registerDeclaration p _ ih => exact ih.after (.naming (.registerDeclaration p))
  | removeBinding i name _ ih => exact ih.after (.removeBinding i name)
  | remove p _ ih => exact ih.after (Editing.remove p).upholding
  | edit hx _ ih => exact ih.after hx.upholding

/-- After a crawl and any calls that generate names, declare and forget names and edit the tree, the
search for a new name ends in every scope of the table. The name differs from all names that were
generated below the same outermost scope, from all names bound in any scope below it, and from all
references and globals recorded there. -/
theorem generated_names_differ {s₀ s s' : Session} {root : Option ScopeId}
    {l : List (ScopeId × String)} (hcrawl : crawl s₀ = .ok root s) (hrun : s.Generates l s')
    {i : ScopeId} (hi : s'.HasScope i) (text : String) :
    ∃ (name : String) (s'' : Session) (k : ScopeId) (sc : Scope),
      i.generateUid text s' = .ok name s'' ∧
      s'.Outermost i k ∧ s'.scopes.scopes[k.index]? = some sc ∧
      (∀ j earlier, (j, earlier) ∈ l → s'.Outermost j k → name ≠ earlier) ∧
      (∀ j, s'.Outermost j k → ¬ s'.Binds j name) ∧
      name ∉ sc.references ∧ name ∉ sc.globals := by
  have hknown := hrun.remembers (crawl_accounted hcrawl)
  obtain ⟨k, -, hk⟩ := ScopeId.programScope_run hknown.accounted.ordered hi
  obtain ⟨sc, hsc⟩ := hk.hasScope.scope
  obtain ⟨name, s'', hgenerate, hnew, -⟩ := generateUid_returns hknown.accounted hi hk hsc text
  simp only [Scope.names, List.mem_append, not_or] at hnew
  -- Whatever is on the list of this outermost scope is another name.
  have hlisted : ∀ j x, s'.Outermost j k → (∃ k', s'.Outermost j k' ∧ s'.Mentions k' x) →
      name ≠ x := by
    rintro j x hj ⟨k', hk', sc', hsc', hx⟩ rfl
    obtain rfl := hj.unique hk'
    obtain rfl := Option.some.inj (hsc.symm.trans hsc')
    exact hnew.1.2 hx
  refine ⟨name, s'', k, sc, hgenerate, hk, hsc, ?_, ?_, hnew.1.2, hnew.1.1⟩
  · intro j earlier he hj
    exact hlisted j earlier hj (hknown.listed _ he)
  · intro j hj hbinds
    exact hlisted j name hj (hknown.accounted.mentioned j name hbinds) rfl

/-- The program `var _x; { let _x2; }`, built bottom up. -/
def shelteredProgram : Tree where
  nodes := #[{ kind := .identifier "_x" none }, { kind := .variableDeclarator ⟨0⟩ none },
    { kind := .variableDeclaration .var [⟨1⟩] }, { kind := .identifier "_x2" none },
    { kind := .variableDeclarator ⟨3⟩ none }, { kind := .variableDeclaration .letVar [⟨4⟩] },
    { kind := .blockStatement [⟨5⟩] }, { kind := .program [⟨2⟩, ⟨6⟩] [] }]
  root := some ⟨7⟩

/-- The session after the crawl. -/
def shelteredSession : Session := after crawl { tree := shelteredProgram, config := {} }

/-- The session after a name was generated for the program. -/
def shelteredLater : Session := after (ScopeId.generateUid ⟨0⟩ "x") shelteredSession

/-- The first name keeps clear of the one that is bound in the block, and the second one of the
first. -/
theorem shelteredProgram_names_differ :
    crawl { tree := shelteredProgram, config := {} } = .ok (some ⟨0⟩) shelteredSession ∧
    shelteredSession.Generates [(⟨0⟩, "_x3")] shelteredLater ∧ shelteredLater.HasScope ⟨1⟩ ∧
    ∃ (name : String) (s'' : Session) (k : ScopeId) (sc : Scope),
      ScopeId.generateUid ⟨1⟩ "x" shelteredLater = .ok name s'' ∧
      shelteredLater.Outermost ⟨1⟩ k ∧ shelteredLater.scopes.scopes[k.index]? = some sc ∧
      (∀ j earlier, (j, earlier) ∈ [((⟨0⟩ : ScopeId), "_x3")] → shelteredLater.Outermost j k →
        name ≠ earlier) ∧
      (∀ j, shelteredLater.Outermost j k → ¬ shelteredLater.Binds j name) ∧
      name ∉ sc.references ∧ name ∉ sc.globals := by
  have hcrawl : crawl { tree := shelteredProgram, config := {} } = .ok (some ⟨0⟩) shelteredSession :=
    eq_ok_of_value? (by decide +kernel)
  have huid : ScopeId.generateUid ⟨0⟩ "x" shelteredSession = .ok "_x3" shelteredLater :=
    eq_ok_of_value? (by decide +kernel)
  have hrun : shelteredSession.Generates [(⟨0⟩, "_x3")] shelteredLater := .uid .start huid
  have hscope : shelteredLater.HasScope ⟨1⟩ := by
    show 1 < shelteredLater.scopes.scopes.size
    decide +kernel
  exact ⟨hcrawl, hrun, hscope, generated_names_differ hcrawl hrun hscope "x"⟩

end Espalier
