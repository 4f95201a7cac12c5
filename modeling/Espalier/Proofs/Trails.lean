import Mathlib.Data.List.Nodup
import Mathlib.Tactic.Common

set_option autoImplicit false

/-! # Trails that may run into themselves

A search goes on from one thing to the next until there is no next one, or until it comes to a thing
it went on from already. Its result is then handed back along the trail: each thing hands back what
it was handed, unless that is barred there; then it hands back itself. Where only the thing itself can
be barred by something that was handed back in place of what was barred, a search from the result
hands back the result (`Ended.settles`). -/

namespace Espalier

variable {α : Type}

/-- The list holds the things that are gone on from, from `x` up to where `e` comes next. -/
inductive Trail (next : α → α → Prop) : α → List α → α → Prop
  | here (x : α) : Trail next x [] x
  | on {x y e : α} {l : List α} : next x y → Trail next y l e → Trail next x (x :: l) e

/-- What is handed back along a trail that comes to `e`. -/
inductive HandsBack (bars : α → α → Prop) (e : α) : List α → α → Prop
  | last : HandsBack bars e [] e
  | kept {x v : α} {l : List α} : HandsBack bars e l v → ¬ bars x v → HandsBack bars e (x :: l) v
  | barred {x v : α} {l : List α} : HandsBack bars e l v → bars x v → HandsBack bars e (x :: l) x

/-- A whole search from `x`, when the things in `seen` were gone on from already: it goes on from no
thing twice, and stops at `e`. -/
structure Ended (next : α → α → Prop) (stops : α → Prop) (seen : List α) (x : α) (l : List α)
    (e : α) : Prop where
  trail : Trail next x l e
  nodup : l.Nodup
  fresh : ∀ y ∈ l, y ∉ seen
  stop : e ∈ seen ∨ e ∈ l ∨ stops e

section Trail

variable {next : α → α → Prop} {x y e : α} {l l₁ l₂ : List α}

theorem Trail.append (h₁ : Trail next x l₁ y) (h₂ : Trail next y l₂ e) :
    Trail next x (l₁ ++ l₂) e := by
  induction h₁ with
  | here => exact h₂
  | on hnext _ ih => exact .on hnext (ih h₂)

/-- A trail can be parted at each thing on it. -/
theorem Trail.part (h : Trail next x (l₁ ++ y :: l₂) e) :
    Trail next x l₁ y ∧ Trail next y (y :: l₂) e := by
  induction l₁ generalizing x with
  | nil =>
    cases h with
    | on hnext h => exact ⟨.here _, .on hnext h⟩
  | cons z l₁ ih =>
    cases h with
    | on hnext h =>
      obtain ⟨hbefore, hafter⟩ := ih h
      exact ⟨.on hnext hbefore, hafter⟩

end Trail

namespace HandsBack

variable {bars : α → α → Prop} {e v w : α} {l l₁ l₂ : List α}

theorem exists_value (bars : α → α → Prop) (e : α) (l : List α) : ∃ v, HandsBack bars e l v := by
  induction l with
  | nil => exact ⟨e, .last⟩
  | cons x l ih =>
    obtain ⟨v, hv⟩ := ih
    by_cases hbars : bars x v
    · exact ⟨x, .barred hv hbars⟩
    · exact ⟨v, .kept hv hbars⟩

theorem unique (h : HandsBack bars e l v) (h' : HandsBack bars e l w) : v = w := by
  induction h generalizing w with
  | last =>
    cases h'
    rfl
  | kept _ hkept ih =>
    cases h' with
    | kept h' _ => exact ih h'
    | barred h' hbars => exact absurd (ih h' ▸ hbars) hkept
  | barred _ hbars ih =>
    cases h' with
    | kept h' hkept => exact absurd (ih h' ▸ hbars) hkept
    | barred h' _ => rfl

/-- What is barred at no thing but itself is handed back along a trail that it is not on. -/
theorem stays (hv : ∀ x, bars x v → x = v) (h : HandsBack bars e l₂ v) (hl : v ∉ l₁) :
    HandsBack bars e (l₁ ++ l₂) v := by
  induction l₁ with
  | nil => exact h
  | cons x l₁ ih =>
    refine .kept (ih fun hmem => hl (List.mem_cons_of_mem x hmem)) fun hbars => hl ?_
    rw [hv x hbars]
    exact List.mem_cons_self

/-- Either the end is handed back, or the thing at which it was barred. -/
theorem eq_or_barred (hbars : ∀ v w x, bars v w → bars x v → x = v) (h : HandsBack bars e l v)
    (hl : l.Nodup) :
    v = e ∨ ∃ l₁ l₂, l = l₁ ++ v :: l₂ ∧ bars v e ∧ HandsBack bars e l₂ e := by
  induction h with
  | last => exact .inl rfl
  | @kept x v l _ _ ih =>
    refine (ih hl.of_cons).imp_right ?_
    rintro ⟨l₁, l₂, rfl, hrest⟩
    exact ⟨x :: l₁, l₂, rfl, hrest⟩
  | @barred x v l hback hx ih =>
    right
    rcases ih hl.of_cons with rfl | ⟨l₁, l₂, rfl, hv, -⟩
    · exact ⟨[], l, rfl, hx, hback⟩
    · -- What was barred before is barred at itself only, and that is not met again.
      obtain rfl := hbars v _ x hv hx
      exact absurd (List.mem_append_right l₁ List.mem_cons_self) (List.nodup_cons.mp hl).1

end HandsBack

namespace Ended

variable {next bars : α → α → Prop} {stops : α → Prop} {seen l l' : List α} {x v e e' : α}

/-- If what was handed back in place of something barred is itself barred at no other thing, then a
search from the result hands back the result. -/
theorem settles (hbars : ∀ v w x, bars v w → bars x v → x = v) (h : Ended next stops [] x l e)
    (hv : HandsBack bars e l v) :
    ∃ l' e', Ended next stops [] v l' e' ∧ HandsBack bars e' l' v := by
  have hfresh : ∀ l' : List α, ∀ y ∈ l', y ∉ ([] : List α) := fun _ _ _ => List.not_mem_nil
  have hstop : e ∈ l ∨ stops e := h.stop.resolve_left List.not_mem_nil
  rcases hv.eq_or_barred hbars h.nodup with rfl | ⟨l₁, l₂, rfl, hbar, hback⟩
  · rcases hstop with hmem | hstops
    · -- The end is on the trail, which goes round from there.
      obtain ⟨a, b, rfl⟩ := List.append_of_mem hmem
      have hround : (v :: b).Nodup := (List.nodup_append.mp h.nodup).2.1
      refine ⟨v :: b, v, ⟨h.trail.part.2, hround, hfresh _, .inr (.inl List.mem_cons_self)⟩, ?_⟩
      obtain ⟨u, hu⟩ := HandsBack.exists_value bars v (v :: b)
      rcases hu.eq_or_barred hbars hround with rfl | ⟨b₁, b₂, hb, hbar, -⟩
      · exact hu
      · -- Otherwise it would have been barred on the way to the result, too.
        have humem : u ∈ v :: b := hb ▸ List.mem_append_right b₁ List.mem_cons_self
        have hua : u ∉ a := fun hua => (List.nodup_append.mp h.nodup).2.2 u hua u humem rfl
        have hstays := hu.stays (fun x => hbars u v x hbar) hua
        exact hstays.unique hv ▸ hu
    · exact ⟨[], v, ⟨.here v, List.nodup_nil, hfresh _, .inr (.inr hstops)⟩, .last⟩
  · have hsolid : ∀ x, bars x v → x = v := fun x => hbars v e x hbar
    obtain ⟨hbefore, hafter⟩ := h.trail.part
    obtain ⟨hnodup₁, hnodup₂, hdisjoint⟩ := List.nodup_append.mp h.nodup
    by_cases hahead : e ∈ v :: l₂ ∨ stops e
    · exact ⟨v :: l₂, e, ⟨hafter, hnodup₂, hfresh _, .inr hahead⟩, .barred hback hbar⟩
    · -- The trail goes round from before the result, so it comes to the result again.
      have hbehind : e ∈ l₁ := by
        rcases hstop with hmem | hstops
        · exact (List.mem_append.mp hmem).resolve_right fun hmem => hahead (.inl hmem)
        · exact absurd (.inr hstops) hahead
      obtain ⟨a, c, rfl⟩ := List.append_of_mem hbehind
      have hround : (v :: l₂ ++ e :: c).Nodup := by
        refine List.nodup_append.mpr ⟨hnodup₂, (List.nodup_append.mp hnodup₁).2.1, ?_⟩
        intro y hy z hz hyz
        exact hdisjoint z (List.mem_append_right a hz) y hy hyz.symm
      have hv' : v ∉ l₂ ++ e :: c := (List.nodup_cons.mp hround).1
      have hrest : HandsBack bars v (l₂ ++ e :: c) v := by
        simpa using HandsBack.stays hsolid .last hv'
      refine ⟨v :: l₂ ++ e :: c, v, ⟨hafter.append hbefore.part.2, hround, hfresh _,
        .inr (.inl List.mem_cons_self)⟩, ?_⟩
      by_cases hself : bars v v
      · exact .barred hrest hself
      · exact .kept hrest hself

section Unique

variable {firm : α → Prop} (hstops : ∀ x y, stops x → ¬ next x y)
  (hfirm : ∀ x y, next x y → firm x)
  (hnext : ∀ x y y', next x y → next x y' → firm y → y = y')

include hstops hfirm hnext

/-- Where the next thing is determined if it is firm, there is one search that comes to something
firm. -/
theorem unique (h : Ended next stops seen x l e) (h' : Ended next stops seen x l' e')
    (he : firm e) : l = l' ∧ e = e' := by
  obtain ⟨htrail, hnodup, hfresh, hstop⟩ := h
  induction htrail generalizing seen l' with
  | here x =>
    obtain ⟨htrail', -, hfresh', -⟩ := h'
    cases htrail' with
    | here => exact ⟨rfl, rfl⟩
    | on hon _ =>
      rcases hstop with hmem | hmem | hstop
      · exact absurd hmem (hfresh' _ List.mem_cons_self)
      · cases hmem
      · exact absurd hon (hstops _ _ hstop)
  | @on x y e l hon htrail ih =>
    have hy : firm y := by
      cases htrail with
      | here => exact he
      | on hon' _ => exact hfirm _ _ hon'
    obtain ⟨htrail', hnodup', hfresh', hstop'⟩ := h'
    cases htrail' with
    | here =>
      rcases hstop' with hmem | hmem | hstop'
      · exact absurd hmem (hfresh _ List.mem_cons_self)
      · cases hmem
      · exact absurd hon (hstops _ _ hstop')
    | @on _ y' _ l' hon' htrail' =>
      obtain rfl := hnext x y y' hon hon' hy
      -- From the next thing on, the first one counts as gone on from.
      have hafter : ∀ {l : List α} {e : α}, (x :: l).Nodup → (∀ z ∈ x :: l, z ∉ seen) →
          e ∈ seen ∨ e ∈ x :: l ∨ stops e → l.Nodup ∧ (∀ z ∈ l, z ∉ x :: seen) ∧
            (e ∈ x :: seen ∨ e ∈ l ∨ stops e) := by
        intro l e hnodup hfresh hstop
        refine ⟨hnodup.of_cons, fun z hz hmem => ?_, ?_⟩
        · rcases List.mem_cons.mp hmem with rfl | hmem
          · exact (List.nodup_cons.mp hnodup).1 hz
          · exact hfresh z (List.mem_cons_of_mem x hz) hmem
        · rw [List.mem_cons] at hstop ⊢
          tauto
      obtain ⟨h₁, h₂, h₃⟩ := hafter hnodup hfresh hstop
      obtain ⟨h₁', h₂', h₃'⟩ := hafter hnodup' hfresh' hstop'
      obtain ⟨rfl, rfl⟩ := ih ⟨htrail', h₁', h₂', h₃'⟩ he h₁ h₂ h₃
      exact ⟨rfl, rfl⟩

/-- What a search hands back is handed back again by a search from there. -/
theorem handsBack_again {w : α} (hbars : ∀ v w x, bars v w → bars x v → x = v)
    (hbarred : ∀ v w, bars v w → firm w) (h : Ended next stops [] x l e)
    (hv : HandsBack bars e l v) (h' : Ended next stops [] v l' e') (hw : HandsBack bars e' l' w) :
    w = v := by
  obtain ⟨l₁, e₁, h₁, hv₁⟩ := h.settles hbars hv
  by_cases he₁ : firm e₁
  · obtain ⟨rfl, rfl⟩ := unique hstops hfirm hnext h₁ h' he₁
    exact hw.unique hv₁
  · rcases hv₁.eq_or_barred hbars h₁.nodup with rfl | ⟨-, -, -, hbar, -⟩
    · -- Nothing comes next to something that is not firm.
      obtain ⟨htrail, -⟩ := h'
      cases htrail with
      | here =>
        cases hw
        rfl
      | on hon _ => exact absurd (hfirm _ _ hon) he₁
    · exact absurd (hbarred v e₁ hbar) he₁

end Unique

end Ended

end Espalier
