import Espalier.Proofs.ClosedTrees
import Espalier.Proofs.Roaming

set_option autoImplicit false

/-! # Navigation within range

Going from a known path leads to known paths, in a closed session, and leaves a closed one
(`Careful.move`). All that navigation writes is the data of a path that it found or made
(`Careful.pathFor`). -/

namespace Espalier

open SessionM

variable {α β : Type} {s s' : Session}

/-! ## Writing to paths -/

namespace Session

/-- A closed session whose paths were changed so that they name what is there. -/
theorem Closed.of_paths (h : s.Closed) (hs : s.Extends s') (ht : s'.tree = s.tree)
    (hscopes : s'.scopes = s.scopes) (hframes : s'.frames = s.frames)
    (hparser : s'.parser = s.parser) (hpaths : s'.PathsClosed) : s'.Closed where
  tree := ht ▸ h.tree
  paths := hpaths
  scopes := h.scopes.of_same hs hscopes
  frames f hf := hs.knows (h.frames f (hframes ▸ hf))
  parser := hparser ▸ h.parser

theorem extends_modify (s : Session) (p : PathId) (f : PathData → PathData) :
    s.Extends { s with paths := s.paths.modify p.index f } :=
  ⟨Nat.le_refl _, by simp, Nat.le_refl _⟩

/-- Writing to a path so that it names what is there, and has a position if it had one. -/
theorem PathsClosed.modify (h : s.PathsClosed) {p : PathId} {d : PathData} {f : PathData → PathData}
    (hd : s.paths[p.index]? = some d) (hk : s.Knows (f d)) (hsinks : (f d).Sinks p)
    (hsame : (f d).container = .detached ↔ d.container = .detached) :
    PathsClosed { s with paths := s.paths.modify p.index f } := by
  have hext := s.extends_modify p f
  -- What stands at a number is what stood there, or what was written.
  have hread : ∀ {q : PathId} {e : PathData}, s.paths[q.index]? = some e →
      ∃ e', (s.paths.modify p.index f)[q.index]? = some e' ∧
        (e'.container = .detached ↔ e.container = .detached) := by
    intro q e he
    rw [getElem?_modify_paths]
    split
    · next hq =>
      subst hq
      obtain rfl := Option.some.inj (hd.symm.trans he)
      exact ⟨f d, by rw [hd]; rfl, hsame⟩
    · exact ⟨e, he, Iff.rfl⟩
  have hwrote : ∀ {q : PathId} {e : PathData}, (s.paths.modify p.index f)[q.index]? = some e →
      q = p ∧ e = f d ∨ s.paths[q.index]? = some e := by
    intro q e he
    rw [getElem?_modify_paths] at he
    split at he
    · next hq =>
      subst hq
      rw [hd] at he
      exact .inl ⟨rfl, (Option.some.inj he).symm⟩
    · exact .inr he
  refine ⟨fun q e he => ?_, fun q e he => ?_, fun c q hq => ?_, fun parent q hq => ?_⟩
  · rcases hwrote he with ⟨rfl, rfl⟩ | he
    · exact hext.knows hk
    · exact hext.knows (h.data q e he)
  · rcases hwrote he with ⟨rfl, rfl⟩ | he
    · exact hsinks
    · exact h.sinks q e he
  · obtain ⟨e, he, hc⟩ := h.filed c q hq
    obtain ⟨e', he', hiff⟩ := hread he
    exact ⟨e', he', fun hc' => hc (hiff.mp hc')⟩
  · obtain ⟨⟨e, he, hc⟩, hlt⟩ := h.strays parent q hq
    obtain ⟨e', he', hiff⟩ := hread he
    exact ⟨⟨e', he', hiff.mpr hc⟩, hlt⟩

end Session

namespace Careful

/-- Writing to a path. -/
theorem modifyData {p : PathId} {f : PathData → PathData} (hp : s.Knows p)
    (hf : ∀ d, s.paths[p.index]? = some d → s.Knows d → d.Sinks p → s.Knows (f d) ∧ (f d).Sinks p ∧
      ((f d).container = .detached ↔ d.container = .detached)) : Careful (p.modifyData f) s := by
  intro hs
  obtain ⟨d, hd⟩ := Session.exists_data hp
  obtain ⟨hk, hsinks, hsame⟩ := hf d hd (hs.paths.data p d hd) (hs.paths.sinks p d hd)
  rw [PathId.modifyData_run hd]
  exact ⟨s.extends_modify p f, hs.of_paths (s.extends_modify p f) rfl rfl rfl rfl
    (hs.paths.modify hd hk hsinks hsame), trivial⟩

/-- Writing to a path nothing that names a node or a path. -/
theorem annotate {p : PathId} {f : PathData → PathData} (hp : s.Knows p)
    (hf : ∀ d, (f d).node = d.node ∧ (f d).parent = d.parent ∧ (f d).container = d.container) :
    Careful (p.modifyData f) s := by
  refine modifyData hp fun d _ hd hsinks => ?_
  obtain ⟨hnode, hparent, hcontainer⟩ := hf d
  refine ⟨⟨hnode ▸ hd.1, hparent ▸ hd.2.1, hcontainer ▸ hd.2.2⟩, fun hc => ?_, by rw [hcontainer]⟩
  rw [hnode, hparent]
  exact hsinks (hcontainer ▸ hc)

/-! ## Going to a position -/

theorem detachedAt {parent : Option PathId} (hparent : s.Knows parent) (k : Key) :
    Careful (detachedAt parent k) s := by
  refine get_bind fun hs => ?_
  split
  · next p hp =>
    obtain ⟨⟨d, hd, hc⟩, hlt⟩ := hs.paths.strays parent p hp
    have hknown := Session.knows_of_data hd
    refine (modifyData hknown fun e he _ _ => ?_).bind fun _ s₁ h₁ _ => pure (h₁.knows hknown)
    obtain rfl := Option.some.inj (hd.symm.trans he)
    exact ⟨⟨Session.knows_none, hparent, Session.knows_none⟩, fun _ => ⟨rfl, hlt⟩, by simp [hc]⟩
  · -- The new path is younger than all that were there.
    intro _
    let s' : Session := { s with
      paths := s.paths.push { node := none, parent, container := .detached, key := k }
      detached := s.detached.insert parent ⟨s.paths.size⟩ }
    have hext : s.Extends s' := ⟨Nat.le_refl _, by simp [s'], Nat.le_refl _⟩
    have hlt : ∀ q, parent = some q → q.index < s.paths.size := fun q hq => hparent q hq
    have hread : ∀ {q : PathId} {e : PathData}, s.paths[q.index]? = some e →
        s'.paths[q.index]? = some e := fun {q e} he => by
      show (s.paths.push _)[q.index]? = some e
      rw [Array.getElem?_push, if_neg (Nat.ne_of_lt (Session.knows_of_data he)), he]
    have hwrote : ∀ {q : PathId} {e : PathData}, s'.paths[q.index]? = some e →
        q.index = s.paths.size ∧ e = { node := none, parent, container := .detached, key := k } ∨
          s.paths[q.index]? = some e := by
      intro q e he
      have he : (s.paths.push _)[q.index]? = some e := he
      rw [Array.getElem?_push] at he
      split at he
      · next hq => exact .inl ⟨hq, (Option.some.inj he).symm⟩
      · exact .inr he
    refine ⟨hext, hs.of_paths hext rfl rfl rfl rfl
      ⟨fun q e he => ?_, fun q e he => ?_, fun c q hq => ?_, fun parent' q hq => ?_⟩, ?_⟩
    · rcases hwrote he with ⟨-, rfl⟩ | he
      · exact hext.knows ⟨Session.knows_none, hparent, Session.knows_none⟩
      · exact hext.knows (hs.paths.data q e he)
    · rcases hwrote he with ⟨hq, rfl⟩ | he
      · exact fun _ => ⟨rfl, fun r hr => hq ▸ hlt r hr⟩
      · exact hs.paths.sinks q e he
    · obtain ⟨e, he, hc⟩ := hs.paths.filed c q hq
      exact ⟨e, hread he, hc⟩
    · have hq : (s.detached.insert parent ⟨s.paths.size⟩).get? parent' = some q := hq
      rw [Table.get?_insert] at hq
      split at hq
      · next hparent' =>
        obtain rfl := Option.some.inj hq
        exact ⟨⟨_, Array.getElem?_push_size, rfl⟩, fun r hr => hlt r (hparent' ▸ hr)⟩
      · obtain ⟨⟨e, he, hc⟩, hlt'⟩ := hs.paths.strays parent' q hq
        exact ⟨⟨e, hread he, hc⟩, hlt'⟩
    · show s.paths.size < (s.paths.push _).size
      simp

theorem pathFor {parent : Option PathId} {c : Container} (hparent : s.Knows parent)
    (hc : s.Knows c) (k : Key) : Careful (pathFor parent c k) s := by
  refine ite (fun _ => detachedAt hparent k) fun hne => (Reads.nodeAt hc k).andThen fun node hnode => ?_
  refine get_bind fun hs => ?_
  split
  · next p hp =>
    obtain ⟨d, hd, hplaced⟩ := hs.paths.filed c p (List.mem_of_find?_eq_some hp)
    have hknown := Session.knows_of_data hd
    refine (modifyData hknown fun e he hk _ => ?_).bind fun _ s₁ h₁ _ => pure (h₁.knows hknown)
    obtain rfl := Option.some.inj (hd.symm.trans he)
    exact ⟨⟨hnode, hparent, hk.2.2⟩, fun hc' => absurd hc' hplaced, Iff.rfl⟩
  · intro _
    let s' : Session := { s with
      paths := s.paths.push { node, parent, container := c, key := k }
      cache := s.cache.insert c (s.bucket c ++ [⟨s.paths.size⟩]) }
    have hext : s.Extends s' := ⟨Nat.le_refl _, by simp [s'], Nat.le_refl _⟩
    have hread : ∀ {q : PathId} {e : PathData}, s.paths[q.index]? = some e →
        s'.paths[q.index]? = some e := fun {q e} he => by
      show (s.paths.push _)[q.index]? = some e
      rw [Array.getElem?_push, if_neg (Nat.ne_of_lt (Session.knows_of_data he)), he]
    have hwrote : ∀ {q : PathId} {e : PathData}, s'.paths[q.index]? = some e →
        e = { node, parent, container := c, key := k } ∨ s.paths[q.index]? = some e := by
      intro q e he
      have he : (s.paths.push _)[q.index]? = some e := he
      rw [Array.getElem?_push] at he
      split at he
      · exact .inl (Option.some.inj he).symm
      · exact .inr he
    refine ⟨hext, hs.of_paths hext rfl rfl rfl rfl
      ⟨fun q e he => ?_, fun q e he => ?_, fun c' q hq => ?_, fun parent' q hq => ?_⟩, ?_⟩
    · rcases hwrote he with rfl | he
      · exact hext.knows ⟨hnode, hparent, hc⟩
      · exact hext.knows (hs.paths.data q e he)
    · rcases hwrote he with rfl | he
      · exact fun hc' => absurd hc' hne
      · exact hs.paths.sinks q e he
    · have hq : q ∈ Session.bucket { s with
        cache := s.cache.insert c (s.bucket c ++ [⟨s.paths.size⟩]) } c' := hq
      rw [Session.bucket_insert] at hq
      have hold : q ∈ s.bucket c' → ∃ d, s'.paths[q.index]? = some d ∧ d.container ≠ .detached := by
        intro hq
        obtain ⟨e, he, hc'⟩ := hs.paths.filed c' q hq
        exact ⟨e, hread he, hc'⟩
      split at hq
      · next hc' =>
        subst hc'
        rcases List.mem_append.mp hq with hq | hq
        · exact hold hq
        · rw [List.mem_singleton.mp hq]
          exact ⟨_, Array.getElem?_push_size, hne⟩
      · exact hold hq
    · obtain ⟨⟨e, he, hc'⟩, hlt⟩ := hs.paths.strays parent' q hq
      exact ⟨⟨e, hread he, hc'⟩, hlt⟩
    · show s.paths.size < (s.paths.push _).size
      simp

theorem rootPath : Careful rootPath s := pathFor Session.knows_none Session.knows_none .root

/-! ## Along the fields -/

section Path

variable {p : PathId} (hp : s.Knows p)

include hp

theorem child (f : Field) : Careful (p.child f) s := by
  have hself := Session.knows_some.mpr hp
  refine (Reads.node? hp).andThen fun o ho => ?_
  cases o with
  | none => exact detachedAt hself .root
  | some n =>
    have hn := Session.knows_some.mp ho
    refine (Reads.kind hn).andThen fun k _ => ?_
    split
    · exact pathFor hself (Session.knows_some.mpr hn) _
    · exact pathFor hself (Session.knows_some.mpr hn) _
    · exact detachedAt hself .root

theorem element (f : Field) (i : Nat) : Careful (p.element f i) s := by
  have hself := Session.knows_some.mpr hp
  refine (Reads.node? hp).andThen fun o ho => ?_
  cases o with
  | none => exact detachedAt hself .root
  | some n =>
    have hn := Session.knows_some.mp ho
    refine (Reads.kind hn).andThen fun k _ => ?_
    split
    · exact pathFor hself (Session.knows_some.mpr hn) _
    · exact detachedAt hself .root

/-- Going to several elements of a list. -/
theorem elementsAt (f : Field) (is : List Nat) : Careful (is.mapM (p.element f)) s :=
  mapM (fun _ _ => trivial) fun i _ h _ => element (h.knows hp) f i

theorem elements (f : Field) : Careful (p.elements f) s := by
  refine (Reads.node? hp).andThen fun o ho => ?_
  cases o with
  | none => exact pure Session.knows_nil
  | some n =>
    exact (Reads.listLength (Session.knows_some.mp ho) f).andThen fun _ _ => elementsAt hp f _

theorem inField (f : Field) : Careful (p.inField f) s := by
  refine (Reads.kind? hp).andThen fun o _ => ?_
  cases o with
  | none => exact pure Session.knows_nil
  | some k =>
    have hone : Careful (do Pure.pure [← p.child f]) s := (child hp f).bind fun q s₁ _ hq =>
      pure (Session.knows_cons.mpr ⟨hq, Session.knows_nil⟩)
    dsimp only
    split
    · exact elements hp f
    · exact hone
    · exact hone
    · exact pure Session.knows_nil

/-! ## Relatives -/

theorem sibling (i : Nat) : Careful (p.sibling i) s := by
  refine (Reads.data hp).andThen fun d hd => ?_
  split
  · next hparent => exact element (hd.2.1 _ hparent) _ i
  · exact detachedAt hd.2.1 .root

theorem prevSibling : Careful p.prevSibling s := by
  refine (Reads.index? hp).andThen fun o _ => ?_
  split
  · exact sibling hp _
  · exact (Reads.parent? hp).andThen fun _ ho => detachedAt ho .root

theorem nextSibling : Careful p.nextSibling s := by
  refine (Reads.index? hp).andThen fun o _ => ?_
  split
  · exact (Reads.nextIndex _).andThen fun _ _ => sibling hp _
  · exact (Reads.parent? hp).andThen fun _ ho => detachedAt ho .root

theorem siblingsFrom (fuel i : Nat) : Careful (p.siblingsFrom fuel i) s := by
  induction fuel generalizing i s with
  | zero => exact exhausted
  | succ fuel ih =>
    refine (sibling hp i).bind fun q s₁ h₁ hq => (Reads.node? hq).andThen fun o _ => ?_
    cases o with
    | none => exact pure Session.knows_nil
    | some _ =>
      exact (ih (h₁.knows hp) (i + 1)).bind fun _ s₂ h₂ hl =>
        pure (Session.knows_cons.mpr ⟨h₂.knows hq, hl⟩)

theorem nextSiblings : Careful p.nextSiblings s := by
  refine (Reads.index? hp).andThen fun o _ => ?_
  cases o with
  | none => exact pure Session.knows_nil
  | some i => exact get_bind fun _ => (Reads.nextIndex i).andThen fun _ _ => siblingsFrom hp _ _

theorem prevSiblings : Careful p.prevSiblings s := by
  refine (Reads.index? hp).andThen fun o _ => ?_
  cases o with
  | none => exact pure Session.knows_nil
  | some i => exact mapM (fun _ _ => trivial) fun i _ h _ => sibling (h.knows hp) i

theorem opposite? : Careful p.opposite? s := by
  refine (Reads.data hp).andThen fun d hd => ?_
  dsimp only
  split
  · next hparent =>
    exact (child (hd.2.1 _ hparent) _).bind fun q _ _ hq => pure (Session.knows_some.mpr hq)
  · exact pure Session.knows_none

theorem completionRecords : Careful p.completionRecords s := by
  refine get_bind fun hs => ?_
  clear hs
  generalize s.tree.depthBound + 1 = fuel
  induction fuel generalizing p s with
  | zero => exact exhausted
  | succ fuel ih =>
    have hthrough : ∀ fields : List Field, Careful (do
        let lists ← fields.mapM fun f => do PathId.completionsWithin fuel (← p.child f)
        Pure.pure lists.flatten) s := fun fields =>
      (mapM (Session.knows_fields fields) fun f s₁ h₁ _ => (child (h₁.knows hp) f).bind fun q s₂ _ hq =>
        ih hq).bind fun ls s₂ _ hls => pure (Session.knows_flatten hls)
    refine (Reads.type? hp).andThen fun o _ => ?_
    split
    · exact pure Session.knows_nil
    · exact hthrough _
    · exact hthrough _
    iterate 2
      · refine (elements hp .body).bind fun ps s₁ _ hps => ?_
        split
        · next last hlast => exact ih (hps last (List.mem_of_getLast? hlast))
        · exact pure Session.knows_nil
    · exact ite (fun _ => hthrough _) fun _ =>
        pure (Session.knows_cons.mpr ⟨hp, Session.knows_nil⟩)

end Path

/-! ## Dotted patterns -/

instance : Names PathId.Cursor := ⟨fun s c => s.Knows c.path, fun h hc => h.knows hc⟩

theorem step {c : PathId.Cursor} (hc : s.Knows c) (part : String) : Careful (c.step part) s := by
  have hc : s.Knows c.path := hc
  unfold PathId.Cursor.step
  cases c.list with
  | some f =>
    refine (Reads.type? hc).andThen fun o _ => ?_
    cases o with
    | none => exact refuse _
    | some type =>
      dsimp only
      split
      · exact refuse _
      · exact (element hc f _).bind fun q _ _ hq => pure hq
  | none =>
    refine ite (fun _ => (Reads.parent? hc).andThen fun o ho => ?_)
      fun _ => (Reads.kind? hc).andThen fun o _ => ?_
    · cases o with
      | none => exact (detachedAt Session.knows_none .root).bind fun q _ _ hq => pure hq
      | some q =>
        have hq := Session.knows_some.mp ho
        exact pure hq
    · cases o with
      | none => exact refuse _
      | some k =>
        dsimp only
        split
        · exact refuse _
        · split
          · exact pure hc
          · exact (child hc _).bind fun q _ _ hq => pure hq
          · exact refuse _

theorem follow {p : PathId} (hp : s.Knows p) (pattern : String) : Careful (p.follow pattern) s := by
  have hstart : s.Knows ({ path := p } : PathId.Cursor) := hp
  refine (foldlM (Session.knows_texts _) hstart fun c part s₁ _ hc _ => step hc part).bind fun c s₁ _ hc => ?_
  have hc : s₁.Knows c.path := hc
  split
  · exact pure hc
  · refine (Reads.type? hc).andThen fun o _ => ?_
    cases o with
    | none => exact refuse _
    | some _ => exact refuse _

/-! ## Binding identifiers -/

section Binding

variable (keepAll outerOnly : Bool)

theorem bindingTargets {p : PathId} (hp : s.Knows p) (type : NodeType) :
    Careful (p.bindingTargets outerOnly type) s := by
  refine ite (fun _ => (child hp .declaration).bind fun q s₁ _ hq =>
    (Reads.isAny hq _).andThen fun v _ => pure ?_) fun _ => ?_
  · cases v with
    | true => exact Session.knows_cons.mpr ⟨hq, Session.knows_nil⟩
    | false => exact Session.knows_nil
  · refine ite (fun _ => (child hp .id).bind fun q s₁ _ hq =>
      pure (Session.knows_cons.mpr ⟨hq, Session.knows_nil⟩)) fun _ =>
      ite (fun _ => pure Session.knows_nil) fun _ => ?_
    exact (mapM (Session.knows_fields _) fun f s₁ h₁ _ => inField (h₁.knows hp) f).bind fun ls _ _ hls =>
      pure (Session.knows_flatten hls)

theorem bindingLevel {ps : List PathId} {found : Table String (List PathId)} (hps : s.Knows ps)
    (hfound : s.Knows found) : Careful (PathId.bindingLevel keepAll outerOnly ps found) s := by
  induction ps generalizing s found with
  | nil => exact pure ⟨hfound, Session.knows_nil⟩
  | cons p ps ih =>
    obtain ⟨hp, hps⟩ := Session.knows_cons.mp hps
    refine (Reads.kind? hp).andThen fun o _ => ?_
    split
    · exact ih hps hfound
    · exact ih hps (Session.knows_recordSite keepAll hfound _ hp)
    · exact (bindingTargets outerOnly hp _).bind fun targets s₁ h₁ htargets =>
        (ih (h₁.knows hps) (h₁.knows hfound)).bind fun r s₂ h₂ hr =>
          pure ⟨hr.1, Session.knows_append.mpr ⟨h₂.knows htargets, hr.2⟩⟩

theorem bindingIdentifierPaths {p : PathId} (hp : s.Knows p) :
    Careful (p.bindingIdentifierPaths keepAll outerOnly) s := by
  refine get_bind fun hs => ?_
  have hps : s.Knows [p] := Session.knows_cons.mpr ⟨hp, Session.knows_nil⟩
  clear hs hp
  have hfound : s.Knows (Table.empty : Table String (List PathId)) := fun e he => by cases he
  generalize s.tree.depthBound + 1 = fuel, [p] = ps, Table.empty = found at hps hfound
  induction fuel generalizing ps found s with
  | zero => exact exhausted
  | succ fuel ih =>
    exact ite (fun _ => pure hfound) fun _ =>
      (bindingLevel keepAll outerOnly hps hfound).bind fun r s₁ _ hr => ih _ _ hr.2 hr.1

end Binding

end Careful

/-! ## Moves -/

/-- The session knows the path that a move starts from. -/
def Move.Known (m : Move) (s : Session) : Prop :=
  match m with
  | .root => True
  | .child p _ | .element p _ _ | .elements p _ | .inField p _ | .follow p _ | .sibling p _
  | .prevSibling p | .nextSibling p | .prevSiblings p | .nextSiblings p | .opposite p | .parent p
  | .ancestry p | .functionParent p | .statementParent p | .completionRecords p
  | .bindingIdentifiers p _ _ => s.Knows p

/-- A move from a known path leads to known paths. -/
theorem Careful.move {m : Move} (hm : m.Known s) : Careful m.run s := by
  have hone : ∀ {x : SessionM PathId}, Careful x s → Careful (do Pure.pure [← x]) s := fun hx =>
    hx.bind fun q _ _ hq => pure (Session.knows_cons.mpr ⟨hq, Session.knows_nil⟩)
  have hopt : ∀ {x : SessionM (Option PathId)}, Careful x s →
      Careful (do Pure.pure (← x).toList) s := fun hx =>
    hx.bind fun o _ _ ho => pure (Session.knows_toList ho)
  cases m with
  | root => exact hone rootPath
  | child p f => exact hone (child hm f)
  | element p f i => exact hone (element hm f i)
  | elements p f => exact elements hm f
  | inField p f => exact inField hm f
  | follow p pattern => exact hone (follow hm pattern)
  | sibling p i => exact hone (sibling hm i)
  | prevSibling p => exact hone (prevSibling hm)
  | nextSibling p => exact hone (nextSibling hm)
  | prevSiblings p => exact prevSiblings hm
  | nextSiblings p => exact nextSiblings hm
  | opposite p => exact hopt (opposite? hm)
  | parent p => exact hopt (Reads.parent? hm).careful
  | ancestry p => exact (Reads.ancestry hm).careful
  | functionParent p => exact hopt (Reads.findParent? hm fun _ hq => Reads.isAny hq _).careful
  | statementParent p => exact hone (Reads.statementParent hm).careful
  | completionRecords p => exact completionRecords hm
  | bindingIdentifiers p keepAll outerOnly =>
    refine (bindingIdentifierPaths keepAll outerOnly hm).bind fun found _ _ hfound => pure ?_
    refine Session.knows_flatten fun l hl => ?_
    obtain ⟨e, he, rfl⟩ := List.mem_map.mp hl
    exact hfound e he

end Espalier
