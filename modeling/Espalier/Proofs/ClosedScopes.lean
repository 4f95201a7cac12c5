import Espalier.Proofs.ClosedNavigation
import Espalier.Proofs.Scopes

set_option autoImplicit false

/-! # Scopes within range

Building scopes, declaring names and looking them up from known paths and scopes names only what is
there (`Careful.scope`, `Careful.registerDeclaration`). What a crawl collects on its way are scopes
and paths that it was at. -/

namespace Espalier

open SessionM

variable {s s' : Session}

/-! ## Writing to scopes -/

namespace Session

/-- A closed session whose scopes were changed so that they name what is there. -/
theorem Closed.of_scopes (h : s.Closed) {T : ScopeTable} (hs : s.Extends { s with scopes := T })
    (hscopes : ScopesClosed { s with scopes := T }) : Closed { s with scopes := T } where
  tree := h.tree
  paths := h.paths.of_same hs rfl rfl rfl
  scopes := hscopes
  frames f hf := hs.knows (h.frames f hf)
  parser := h.parser

section Bindings

variable {t : Table String Binding} (ht : s.Knows t)

include ht

theorem knows_insert (x : String) {b : Binding} (hb : s.Knows b) : s.Knows (t.insert x b) :=
  fun _ he => (Table.mem_entries_insert he).elim (fun h => h ▸ hb) (ht _)

theorem knows_erase (x : String) : s.Knows (t.erase x) :=
  fun e he => ht e (List.mem_filter.mp he).1

theorem knows_modify (x : String) {f : Binding → Binding} (hf : ∀ b, s.Knows b → s.Knows (f b)) :
    s.Knows (t.modify x f) := by
  intro e he
  obtain ⟨e', he', rfl⟩ := List.mem_map.mp he
  split
  · exact hf _ (ht e' he')
  · exact ht e' he'

end Bindings

theorem knows_reassign {b : Binding} (hb : s.Knows b) {p : PathId} (hp : s.Knows p) :
    s.Knows (b.reassign p) := by
  unfold Binding.reassign
  split
  · exact hb
  · exact ⟨hb.1, hb.2.1, hb.2.2.1,
      knows_append.mpr ⟨hb.2.2.2.1, knows_cons.mpr ⟨hp, knows_nil⟩⟩, hb.2.2.2.2⟩

theorem knows_reference {b : Binding} (hb : s.Knows b) {p : PathId} (hp : s.Knows p) :
    s.Knows (b.reference p) := by
  unfold Binding.reference
  split
  · exact hb
  · exact ⟨hb.1, hb.2.1, hb.2.2.1, hb.2.2.2.1,
      knows_append.mpr ⟨hb.2.2.2.2, knows_cons.mpr ⟨hp, knows_nil⟩⟩⟩

theorem knows_dereference {b : Binding} (hb : s.Knows b) (p : PathId) :
    s.Knows (b.dereference p) :=
  ⟨hb.1, hb.2.1, hb.2.2.1, hb.2.2.2.1, knows_of_subset (List.filter_subset_self _) hb.2.2.2.2⟩

end Session

namespace Careful

section Scope

variable {i : ScopeId} (hi : s.Knows i)

include hi

/-- Writing to a scope. -/
theorem modifyScope {f : Scope → Scope} (hf : ∀ sc, s.Knows sc → s.Knows (f sc)) :
    Careful (i.modifyData f) s := by
  intro hs
  rw [ScopeId.modifyData_run hi]
  have hext : s.Extends (s.mapScope i f) :=
    ⟨Nat.le_refl _, Nat.le_refl _, Nat.le_of_eq (s.size_mapScope i f).symm⟩
  refine ⟨hext, hs.of_scopes hext ⟨fun j sc hsc => ?_, fun n j hj => hext.knows (hs.scopes.byBlock n j hj),
    hext.knows hs.scopes.root⟩, trivial⟩
  have hsc : (s.mapScope i f).scopes.scopes[j.index]? = some sc := hsc
  rw [s.getElem?_mapScope] at hsc
  split at hsc
  · obtain ⟨sc, hold, rfl⟩ := Option.map_eq_some_iff.mp hsc
    exact hext.knows (hf sc (hs.scopes.scopes j sc hold))
  · exact hext.knows (hs.scopes.scopes j sc hsc)

theorem noteReference (name : String) : Careful (i.noteReference name) s :=
  (Reads.programScope hi).andThen fun _ hj => modifyScope hj fun _ hsc => hsc

theorem noteGlobal (name : String) : Careful (i.noteGlobal name) s :=
  (Reads.programScope hi).andThen fun _ hj => modifyScope hj fun _ hsc => hsc

theorem modifyBinding (name : String) {f : Binding → Binding}
    (hf : ∀ b, s.Knows b → s.Knows (f b)) : Careful (i.modifyBinding name f) s := by
  refine (Reads.bindingScope? hi name).andThen fun o ho => ?_
  cases o with
  | none => exact pure trivial
  | some j =>
    have hwrite : ∀ sc : Scope, s.Knows sc →
        s.Knows { sc with bindings := sc.bindings.modify name f } := fun _ hsc =>
      ⟨hsc.1, hsc.2.1, Session.knows_modify hsc.2.2 name hf⟩
    exact (modifyScope (Session.knows_some.mp ho) hwrite).bind fun _ _ _ _ => Careful.pure trivial

theorem registerBinding (name : String) (kind : BindingKind) {path : PathId} {identifier : NodeId}
    (hpath : s.Knows path) (hid : s.Knows identifier) :
    Careful (i.registerBinding name kind path identifier) s := by
  refine (noteReference hi name).bind fun _ s₁ h₁ _ => ?_
  have hstore : ∀ b : Binding, s₁.Knows b → Careful
      (i.modifyData fun d => { d with bindings := d.bindings.insert name b }) s₁ := fun b hb =>
    modifyScope (h₁.knows hi) fun _ hsc => ⟨hsc.1, hsc.2.1, Session.knows_insert hsc.2.2 name hb⟩
  refine (Reads.ownBinding? (h₁.knows hi) name).andThen fun o ho => ?_
  cases o with
  | none => exact hstore _ ⟨h₁.knows hid, h₁.knows hi, h₁.knows hpath, Session.knows_nil, Session.knows_nil⟩
  | some old =>
    have hold := Session.knows_some.mp ho
    exact ite (fun _ => pure trivial) fun _ => hstore _ ⟨h₁.knows hid, h₁.knows hi, h₁.knows hpath,
      Session.knows_cons.mpr ⟨hold.2.2.1, hold.2.2.2.1⟩, hold.2.2.2.2⟩

theorem removeBinding (name : String) : Careful (i.removeBinding name) s := by
  refine (Reads.bindingScope? hi name).andThen fun o ho => ?_
  cases o with
  | none => exact pure trivial
  | some j => exact modifyScope (Session.knows_some.mp ho) fun _ hsc =>
      ⟨hsc.1, hsc.2.1, Session.knows_erase hsc.2.2 name⟩

theorem generateUid (text : String) : Careful (i.generateUid text) s := by
  refine get_bind fun _ => (Reads.takenCount hi).andThen fun _ _ =>
    (Reads.freeCandidate hi _ _ _ _).andThen fun name _ => (Reads.programScope hi).andThen fun _ hj => ?_
  refine bind ?_ fun _ s₁ _ _ => pure (show s₁.Knows name from trivial)
  exact modifyScope hj fun _ hsc => hsc

end Scope

theorem createScope {block : PathId} {parent : Option ScopeId} (hblock : s.Knows block)
    (hparent : s.Knows parent) : Careful (createScope block parent) s := by
  refine (Reads.type? hblock).andThen fun type _ => (Reads.node? hblock).andThen fun node _ => ?_
  refine get_bind fun hs _ => ?_
  let i : ScopeId := ⟨s.scopes.scopes.size⟩
  have hadded : ∀ T : ScopeTable,
      T.scopes = s.scopes.scopes.push { block, blockType := type.getD .program, parent } →
      (∀ n j, T.byBlock.get? n = some j → s.scopes.byBlock.get? n = some j ∨ j = i) →
      (∀ j, T.root = some j → s.scopes.root = some j ∨ j = i) →
      s.Ends (.ok i { s with scopes := T }) := by
    intro T hpush hblocks hroots
    have hext : s.Extends { s with scopes := T } := ⟨Nat.le_refl _, Nat.le_refl _, by simp [hpush]⟩
    have hi : Session.Knows { s with scopes := T } i := by
      show i.index < T.scopes.size
      simp [i, hpush]
    refine ⟨hext, hs.of_scopes hext ⟨fun j sc hsc => ?_, fun n j hj => ?_, fun j hj => ?_⟩, hi⟩
    · have hsc : T.scopes[j.index]? = some sc := hsc
      rw [hpush, Array.getElem?_push] at hsc
      split at hsc
      · obtain rfl := Option.some.inj hsc
        exact hext.knows ⟨hblock, hparent, fun e he => by cases he⟩
      · exact hext.knows (hs.scopes.scopes j sc hsc)
    · rcases hblocks n j hj with hold | rfl
      · exact hext.knows (hs.scopes.byBlock n j hold)
      · exact hi
    · rcases hroots j hj with hold | rfl
      · exact hext.knows (hs.scopes.root j hold)
      · exact hi
  have hroots : ∀ j, (if parent.isNone && s.scopes.root.isNone then some i else s.scopes.root) = some j →
      s.scopes.root = some j ∨ j = i := by
    intro j hj
    split at hj
    · exact .inr (Option.some.inj hj).symm
    · exact .inl hj
  cases node with
  | none => exact hadded _ rfl (fun _ _ hj => .inl hj) hroots
  | some m =>
    refine hadded _ rfl (fun n j hj => ?_) hroots
    have hj : (s.scopes.byBlock.insert m i).get? n = some j := hj
    rw [Table.get?_insert] at hj
    split at hj
    · exact .inr (Option.some.inj hj).symm
    · exact .inl hj

/-! ## Declaring names -/

instance : Names Uses :=
  ⟨fun s us => s.Knows us.reads ∧ ∀ e ∈ us.writes, s.Knows e.1 ∧ s.Knows e.2.1,
    fun h hus => ⟨h.knows hus.1, fun e he => ⟨h.knows (hus.2 e he).1, h.knows (hus.2 e he).2⟩⟩⟩

theorem knows_noUses : s.Knows ({} : Uses) := ⟨Session.knows_nil, nofun⟩

theorem knows_bothUses {us us' : Uses} (h : s.Knows us) (h' : s.Knows us') : s.Knows (us ++ us') :=
  ⟨Session.knows_append.mpr ⟨h.1, h'.1⟩, List.forall_mem_append.mpr ⟨h.2, h'.2⟩⟩

theorem knows_allUses {l : List Uses} (h : s.Knows l) : s.Knows (Uses.concat l) := by
  suffices ∀ us : Uses, s.Knows us → s.Knows (l.foldl Uses.append us) from this {} knows_noUses
  induction l with
  | nil => exact fun _ hus => hus
  | cons us' l ih =>
    obtain ⟨hus', hl⟩ := Session.knows_cons.mp h
    exact fun us hus => ih hl _ (knows_bothUses hus hus')

theorem registerPattern {pattern declaration : PathId} {i : ScopeId} (kind : BindingKind)
    (hp : s.Knows pattern) (hi : s.Knows i) (hd : s.Knows declaration) :
    Careful (registerPattern pattern kind i declaration) s := by
  refine (bindingIdentifierPaths true false hp).bind fun found s₁ h₁ hfound => ?_
  have hentries : s₁.Knows found.entries := fun e he => ⟨trivial, hfound e he⟩
  refine forM hentries fun e s₂ h₂ he => forM he.2 fun site s₃ h₃ hsite => ?_
  have h := (h₁.trans h₂).trans h₃
  refine (Reads.node? hsite).andThen fun o ho => ?_
  cases o with
  | none => exact pure trivial
  | some n => exact registerBinding (h.knows hi) _ kind (h.knows hd) (Session.knows_some.mp ho)

theorem registerDeclarators {p : PathId} {i : ScopeId} (kind : VariableKind) (hp : s.Knows p)
    (hi : s.Knows i) {andThen : PathId → SessionM Uses}
    (h : ∀ q s', s.Extends s' → s'.Knows q → Careful (andThen q) s') :
    Careful (registerDeclarators p kind i andThen) s := by
  have hrest : ∀ target : ScopeId, s.Knows target → Careful (do
      let uses ← (← p.elements .declarations).mapM fun declarator => do
        Espalier.registerPattern (← declarator.child .id) (.ofVariableKind kind) target declarator
        andThen declarator
      Pure.pure (Uses.concat uses)) s := by
    intro target htarget
    refine (elements hp .declarations).bind fun l s₁ h₁ hl => (mapM hl fun q s₂ h₂ hq => ?_).bind
      fun us s₂ _ hus => pure (knows_allUses hus)
    refine (child hq .id).bind fun r s₃ h₃ hr => ?_
    have h₁₃ := (h₁.trans h₂).trans h₃
    exact (registerPattern _ hr (h₁₃.knows htarget) (h₃.knows hq)).bind fun _ s₄ h₄ _ =>
      h q s₄ (h₁₃.trans h₄) ((h₃.trans h₄).knows hq)
  unfold Espalier.registerDeclarators
  split
  · exact (Reads.functionScope hi).andThen hrest
  · exact (Reads.pure hi).andThen hrest

theorem registerImports {p : PathId} {i : ScopeId} (hp : s.Knows p) (hi : s.Knows i) :
    Careful (registerImports p i) s :=
  (elements hp .specifiers).bind fun _ _ h₁ hl => forM hl fun _ _ h₂ hq =>
    (child hq .localName).bind fun _ _ h₃ hr =>
      registerPattern _ hr (((h₁.trans h₂).trans h₃).knows hi) (h₃.knows hq)

theorem registerFunctionName {function : PathId} {i : ScopeId} (kind : BindingKind)
    (hf : s.Knows function) (hi : s.Knows i) : Careful (registerFunctionName function kind i) s := by
  refine (child hf .id).bind fun q s₁ h₁ hq => (Reads.node? hq).andThen fun o ho =>
    (Reads.identifierName? hq).andThen fun _ _ => ?_
  split
  · exact registerBinding (h₁.knows hi) _ kind (h₁.knows hf) (Session.knows_some.mp ho)
  · exact pure trivial

/-! ## The crawl -/

section Walk

variable {walk : PathId → ScopeId → SessionM Uses}
  (hwalk : ∀ p i s, s.Knows p → s.Knows i → Careful (walk p i) s)

include hwalk

theorem walkChildren {p : PathId} {i : ScopeId} (hp : s.Knows p) (hi : s.Knows i) :
    Careful (walkChildren walk p i) s := by
  refine (Reads.type? hp).andThen fun o _ => ?_
  cases o with
  | none => exact pure knows_noUses
  | some type =>
    refine (mapM (Session.knows_fields type.visitorFields) fun f s₁ h₁ _ => ?_).bind
      fun us _ _ hus => pure (knows_allUses hus)
    exact (inField (h₁.knows hp) f).bind fun l s₂ h₂ hl => (mapM hl fun q s₃ h₃ hq =>
      hwalk q i s₃ hq (((h₁.trans h₂).trans h₃).knows hi)).bind fun us _ _ hus =>
        pure (knows_allUses hus)

theorem walkBlock {block : PathId} {i : ScopeId} (hb : s.Knows block) (hi : s.Knows i) :
    Careful (walkBlock walk block i) s := by
  refine (Reads.type? hb).andThen fun o _ => ?_
  split
  · exact pure knows_noUses
  · refine (child hb .param).bind fun param s₁ h₁ hparam => ?_
    have hrest : ∀ (head : Uses) (s₂ : Session), s.Extends s₂ → s₂.Knows head → Careful (do
        Pure.pure (head ++ (← Espalier.walkChildren walk (← block.child .body) i))) s₂ := by
      intro head s₂ h₂ hhead
      refine (child (h₂.knows hb) .body).bind fun body s₃ h₃ hbody => ?_
      exact (walkChildren hwalk hbody ((h₂.trans h₃).knows hi)).bind fun us s₄ h₄ hus =>
        pure (knows_bothUses ((h₃.trans h₄).knows hhead) hus)
    refine (Reads.node? hparam).andThen fun o _ => ?_
    cases o with
    | none => exact (pure knows_noUses).bind fun head s₂ h₂ hhead => hrest head s₂ (h₁.trans h₂) hhead
    | some _ =>
      refine (registerPattern _ hparam (h₁.knows hi) hparam).bind fun _ s₂ h₂ _ => ?_
      exact (hwalk param i s₂ (h₂.knows hparam) ((h₁.trans h₂).knows hi)).bind fun head s₃ h₃ hhead =>
        hrest head s₃ ((h₁.trans h₂).trans h₃) hhead
  · next type _ _ =>
    refine ite (fun _ => ?_) fun _ => walkChildren hwalk hb hi
    have hrest : ∀ s₁ : Session, s.Extends s₁ → Careful (do
        let heads ← (← block.elements .params).mapM fun param => do
          Espalier.registerPattern param .param i param
          walk param i
        let body ← block.child .body
        let inner ← if ← body.is .blockStatement then Espalier.walkChildren walk body i
          else walk body i
        Pure.pure (Uses.concat heads ++ inner)) s₁ := by
      intro s₁ h₁
      refine (elements (h₁.knows hb) .params).bind fun params s₂ h₂ hparams => ?_
      have h₁₂ := h₁.trans h₂
      refine (mapM hparams fun param s₃ h₃ hparam => ?_).bind fun heads s₃ h₃ hheads => ?_
      · have hi₃ := (h₁₂.trans h₃).knows hi
        exact (registerPattern _ hparam hi₃ hparam).bind fun _ s₄ h₄ _ =>
          hwalk param i s₄ (h₄.knows hparam) (h₄.knows hi₃)
      · refine (child ((h₁₂.trans h₃).knows hb) .body).bind fun body s₄ h₄ hbody => ?_
        have hi₄ := ((h₁₂.trans h₃).trans h₄).knows hi
        have hdone : ∀ (inner : Uses) (s₅ : Session), s₄.Extends s₅ → s₅.Knows inner →
            Careful (Pure.pure (Uses.concat heads ++ inner)) s₅ := fun inner s₅ h₅ hinner =>
          pure (knows_bothUses (knows_allUses ((h₄.trans h₅).knows hheads)) hinner)
        refine (Reads.is hbody _).andThen fun _ _ => ?_
        split
        · exact (walkChildren hwalk hbody hi₄).bind hdone
        · exact (hwalk body i s₄ hbody hi₄).bind hdone
    split
    · exact (registerFunctionName _ hb hi).bind fun _ s₁ h₁ _ => hrest s₁ h₁
    · exact hrest s (.refl s)

end Walk

theorem walkWithin (fuel : Nat) {p : PathId} {i : ScopeId} (hp : s.Knows p) (hi : s.Knows i) :
    Careful (walkWithin fuel p i) s := by
  induction fuel generalizing p i s with
  | zero => exact exhausted
  | succ fuel ih =>
    have hwalk : ∀ p i s, s.Knows p → s.Knows i → Careful (Espalier.walkWithin fuel p i) s :=
      fun p i s hp hi => ih hp hi
    have hchildren : ∀ {us : Uses}, s.Knows us → Careful (do
        let below ← Espalier.walkChildren (Espalier.walkWithin fuel) p i
        Pure.pure (us ++ below)) s := fun hus =>
      (walkChildren hwalk hp hi).bind fun below s₁ h₁ hbelow =>
        pure (knows_bothUses (h₁.knows hus) hbelow)
    refine (Reads.kind? hp).andThen fun o ho => ?_
    cases o with
    | none => exact pure knows_noUses
    | some k =>
      have hk := Session.knows_some.mp ho
      refine (Reads.isScopeBlock hp).andThen fun _ _ => ite (fun _ => ?_) fun _ => ?_
      · have hrest : ∀ s₁ : Session, s.Extends s₁ → Careful (do
            let inner ← Espalier.createScope p (some i)
            Espalier.walkBlock (Espalier.walkWithin fuel) p inner) s₁ := fun s₁ h₁ =>
          (createScope (h₁.knows hp) (Session.knows_some.mpr (h₁.knows hi))).bind
            fun j s₂ h₂ hj => walkBlock hwalk ((h₁.trans h₂).knows hp) hj
        dsimp only
        split
        · exact (Reads.functionScope hi).andThen fun _ hj =>
            (registerFunctionName _ hp hj).bind fun _ s₁ h₁ _ => hrest s₁ h₁
        · exact hrest s (.refl s)
      · split
        · exact registerDeclarators _ hp hi fun q s₁ h₁ hq => walkChildren hwalk hq (h₁.knows hi)
        · exact (registerImports hp hi).bind fun _ _ _ _ => pure knows_noUses
        · next left _ =>
          have hleft : s.Knows left := hk left (by simp [NodeKind.children, NodeKind.fields, Child.ids])
          refine (Reads.bindingIdentifiers? hleft false).andThen fun names _ => ?_
          exact hchildren ⟨Session.knows_nil, by simpa using ⟨hi, hp⟩⟩
        · next argument _ =>
          have hargument : s.Knows argument :=
            hk argument (by simp [NodeKind.children, NodeKind.fields, Child.ids])
          refine (Reads.kind hargument).andThen fun target _ => hchildren ⟨Session.knows_nil, ?_⟩
          intro e he
          obtain ⟨name, -, rfl⟩ := List.mem_map.mp he
          exact ⟨hi, hp⟩
        · refine (Reads.isReferencedIdentifier hp).andThen fun v _ => pure ?_
          cases v with
          | true =>
            exact ⟨Session.knows_cons.mpr ⟨⟨hi, hp⟩, Session.knows_nil⟩, List.forall_mem_nil _⟩
          | false => exact knows_noUses
        · exact walkChildren hwalk hp hi

theorem resolveWrite {e : ScopeId × PathId × List String} (he : s.Knows e.1 ∧ s.Knows e.2.1) :
    Careful (resolveWrite e) s := by
  obtain ⟨i, p, names⟩ := e
  exact forM (Session.knows_texts names) fun name s₁ h₁ _ =>
    (modifyBinding (h₁.knows he.1) name fun b hb => Session.knows_reassign hb (h₁.knows he.2)).bind
      fun _ _ _ _ => Careful.pure trivial

theorem resolveRead {e : ScopeId × PathId} (he : s.Knows e) : Careful (resolveRead e) s := by
  obtain ⟨i, p⟩ := e
  obtain ⟨hi, hp⟩ := he
  refine (Reads.identifierName? hp).andThen fun o _ => ?_
  cases o with
  | none => exact pure trivial
  | some name =>
    refine (noteReference hi name).bind fun _ s₁ h₁ _ => ?_
    refine (modifyBinding (h₁.knows hi) name fun b hb => Session.knows_reference hb (h₁.knows hp)).bind
      fun _ s₂ h₂ _ => ite (fun _ => pure trivial) fun _ => noteGlobal ((h₁.trans h₂).knows hi) name

theorem crawlScope {block : PathId} {parent : Option ScopeId} (hb : s.Knows block)
    (hparent : s.Knows parent) : Careful (crawlScope block parent) s := by
  refine (createScope hb hparent).bind fun i s₁ h₁ hi => get_bind fun _ => ?_
  refine (walkBlock (fun p j s' => walkWithin (s := s') _) (h₁.knows hb) hi).bind
    fun us s₂ h₂ hus => ?_
  have hwrites : Careful (us.writes.forM Espalier.resolveWrite) s₂ := by
    have hall := hus.2
    clear hus
    generalize us.writes = writes at hall
    induction writes generalizing s₂ with
    | nil => exact pure trivial
    | cons e writes ih =>
      obtain ⟨he, hall⟩ := List.forall_mem_cons.mp hall
      exact (resolveWrite he).bind fun _ s₃ h₃ _ => ih s₃ (h₂.trans h₃) fun e' he' =>
        ⟨h₃.knows (hall e' he').1, h₃.knows (hall e' he').2⟩
  refine hwrites.bind fun _ s₃ h₃ _ => ?_
  refine (forM (h₃.knows hus.1) fun e s₄ h₄ he => resolveRead he).bind fun _ s₄ h₄ _ => ?_
  exact pure (((h₂.trans h₃).trans h₄).knows hi)

theorem ensureScopes : Careful ensureScopes s := by
  refine Reads.scopesCrawled.andThen fun _ _ => ite (fun _ => pure trivial) fun _ => ?_
  have hmark : Careful (modify fun s => { s with scopes := { s.scopes with crawled := true } } :
      SessionM PUnit) s := fun hs =>
    have hext : s.Extends { s with scopes := { s.scopes with crawled := true } } :=
      ⟨Nat.le_refl _, Nat.le_refl _, Nat.le_refl _⟩
    ⟨hext, hs.of_scopes hext ⟨fun i sc hsc => hext.knows (hs.scopes.scopes i sc hsc),
      fun n i hi => hext.knows (hs.scopes.byBlock n i hi), hext.knows hs.scopes.root⟩, trivial⟩
  refine hmark.bind fun _ s₁ _ _ => rootPath.bind fun root s₂ _ hroot =>
    (Reads.node? hroot).andThen fun _ _ => ite (fun _ => ?_) fun _ => pure trivial
  exact (crawlScope hroot Session.knows_none).bind fun _ _ _ _ => Careful.pure trivial

/-! ## The scope of a path -/

theorem outermostScope : Careful outermostScope s := by
  refine get_bind fun hs => ?_
  split
  · next root hroot => exact pure (hs.scopes.root root hroot)
  · exact rootPath.bind fun root s₁ _ hroot => createScope hroot Session.knows_none

theorem scopeWithin (fuel : Nat) {p : PathId} (hp : s.Knows p) : Careful (scopeWithin fuel p) s := by
  induction fuel generalizing p s with
  | zero => exact exhausted
  | succ fuel ih =>
    refine (Reads.scopeBlock? hp).andThen fun o ho => ?_
    cases o with
    | none => exact outermostScope
    | some e =>
      obtain ⟨hblock, -⟩ := Session.knows_some.mp ho
      refine get_bind fun hs => ?_
      dsimp only
      split
      · next i hi => exact pure (hs.scopes.byBlock _ i hi)
      · refine (Reads.parent? hblock).andThen fun o ho => ?_
        cases o with
        | none => exact crawlScope hblock Session.knows_none
        | some q =>
          exact (ih (Session.knows_some.mp ho)).bind fun i s₁ h₁ hi =>
            crawlScope (h₁.knows hblock) (Session.knows_some.mpr hi)

section Path

variable {p : PathId} (hp : s.Knows p)

include hp

theorem scope : Careful p.scope s :=
  ensureScopes.bind fun _ _ h₁ _ => get_bind fun _ => scopeWithin _ (h₁.knows hp)

theorem binding? : Careful p.binding? s := by
  refine (Reads.identifierName? hp).andThen fun o _ => ?_
  cases o with
  | none => exact pure Session.knows_none
  | some name => exact (scope hp).bind fun i s₁ _ hi => (Reads.scopeBinding? hi name).careful

theorem registerDeclaration : Careful p.registerDeclaration s := by
  unfold PathId.registerDeclaration
  refine (Reads.node? hp).andThen fun o ho => ?_
  cases o with
  | none => exact refuse _
  | some node =>
    refine (scope hp).bind fun i s₁ h₁ hi => ?_
    have hp₁ := h₁.knows hp
    refine (Reads.kind (h₁.knows (Session.knows_some.mp ho))).andThen fun k hk => ?_
    split
    · exact (registerDeclarators _ hp₁ hi fun _ _ _ _ => pure knows_noUses).bind fun _ _ _ _ =>
        pure trivial
    · next id _ _ _ _ _ =>
      have hid : s₁.Knows id := hk id (by simp [NodeKind.children, NodeKind.fields, Child.ids])
      extract_lets register
      have hname : ∀ outer, s₁.Knows outer → Careful (register outer) s₁ := by
        intro outer houter
        refine (Reads.kind hid).andThen fun _ _ => ?_
        split
        · exact registerBinding houter _ _ hp₁ hid
        · exact pure trivial
      refine (Reads.scopeData hi).andThen fun d hd => ?_
      split
      · next parent hparent => exact (Reads.functionScope (hd.2.1 parent hparent)).andThen hname
      · exact (Reads.pure hi).andThen hname
    · exact registerImports hp₁ hi
    · exact pure trivial

end Path

end Careful

/-! ## Opening -/

namespace Session

variable {t : Tree} {config : Config}

/-- A session that knows no path and no scope yet. -/
theorem closed_fresh (ht : t.Closed) (config : Config) : Closed { tree := t, config } where
  tree := ht
  paths := ⟨fun p d hd => by simp at hd, fun p d hd => by simp at hd,
    fun c p hp => by simp [bucket, Table.get?_empty] at hp, fun parent p hp => by simp [Table.get?_empty] at hp⟩
  scopes := ⟨fun i sc hsc => by simp at hsc, fun n i hi => by simp [Table.get?_empty] at hi, knows_none⟩
  frames := by simp
  parser := by simp

/-- A session is opened without a number out of range. -/
theorem Closed.opened (ht : t.Closed) (hopen : Session.open? t config = .ok s) : s.Closed := by
  have hends := Careful.ensureScopes (closed_fresh ht config)
  unfold Session.open? at hopen
  dsimp only [EStateM.run] at hopen
  split at hopen
  · exact Except.ok.inj hopen ▸ closed_fresh ht config
  · split at hopen
    · next s' hrun =>
      rw [hrun] at hends
      exact Except.ok.inj hopen ▸ hends.2.1
    · cases hopen

end Session

end Espalier
