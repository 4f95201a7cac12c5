import Espalier.Syntax.ValueType
import Mathlib.Data.List.Induction

set_option autoImplicit false

/-! # Unions in normal form

A union of types is known by its leaves: its members that are no unions themselves, with nested
unions opened. `ValueType.union?` gives the distinct leaves in the order in which they come first,
and nothing of how they were nested (`ValueType.union?_normal`). So it does not matter whether some
of the types were united before, nor whether the leaves are collected by recursion on the types or
with a stack of the types that are left (`ValueType.union?_eq_collect`). -/

namespace Espalier.ValueType

/-! ## Distinct elements -/

section Distinct

variable {α : Type} [DecidableEq α]

private theorem eraseDups_concat (l : List α) (a : α) :
    (l ++ [a]).eraseDups = if a ∈ l then l.eraseDups else l.eraseDups ++ [a] := by
  rw [List.eraseDups_append]
  by_cases ha : a ∈ l <;> simp [List.removeAll, List.eraseDups_cons, ha]

private theorem nodup_eraseDups (l : List α) : l.eraseDups.Nodup := by
  induction l using List.reverseRecOn with
  | nil => simp
  | append_singleton l a ih =>
    rw [eraseDups_concat]
    split
    · exact ih
    · next ha =>
      have hdisjoint : ∀ b ∈ l.eraseDups, b ≠ a := by
        rintro b hb rfl
        exact ha (List.mem_eraseDups.mp hb)
      simpa [List.nodup_append, ih] using hdisjoint

private theorem eraseDups_of_nodup {l : List α} (h : l.Nodup) : l.eraseDups = l := by
  induction l with
  | nil => rfl
  | cons a l ih =>
    obtain ⟨ha, hl⟩ := List.nodup_cons.mp h
    have hkeep : l.filter (fun b => !b == a) = l := by
      refine List.filter_eq_self.mpr fun b hb => ?_
      have hne : b ≠ a := by
        rintro rfl
        exact ha hb
      simpa using hne
    rw [List.eraseDups_cons, hkeep, ih hl]

/-- Elements that were made distinct before are made distinct with what comes behind them. -/
private theorem eraseDups_eraseDups_append (l l' : List α) :
    (l.eraseDups ++ l').eraseDups = (l ++ l').eraseDups := by
  have hrest : l'.removeAll l.eraseDups = l'.removeAll l := by
    simp [List.removeAll, List.mem_eraseDups]
  rw [List.eraseDups_append, List.eraseDups_append, hrest, eraseDups_of_nodup (nodup_eraseDups l)]

end Distinct

/-! ## Leaves -/

/-- Is this a union? -/
def isUnion : ValueType → Bool
  | .union _ => true
  | _ => false

mutual

/-- The leaves of a type, left to right: the type itself, or the leaves of the members of a union. -/
def leaves : ValueType → List ValueType
  | .union members => leavesOf members
  | t => [t]

/-- The leaves of several types, left to right. -/
def leavesOf : List ValueType → List ValueType
  | [] => []
  | t :: rest => leaves t ++ leavesOf rest

end

theorem leaves_of_not_isUnion {t : ValueType} (h : t.isUnion = false) : leaves t = [t] := by
  cases t <;> simp_all [leaves, isUnion]

theorem leavesOf_append (ts us : List ValueType) : leavesOf (ts ++ us) = leavesOf ts ++ leavesOf us := by
  induction ts with
  | nil => rw [leavesOf, List.nil_append, List.nil_append]
  | cons t ts ih => rw [List.cons_append, leavesOf, leavesOf, ih, List.append_assoc]

theorem leavesOf_singleton (t : ValueType) : leavesOf [t] = leaves t := by
  rw [leavesOf, leavesOf, List.append_nil]

/-- Types that are no unions are their own leaves. -/
theorem leavesOf_of_not_isUnion {ts : List ValueType} (h : ∀ t ∈ ts, t.isUnion = false) :
    leavesOf ts = ts := by
  induction ts with
  | nil => rw [leavesOf]
  | cons t ts ih =>
    rw [leavesOf, leaves_of_not_isUnion (h t (by simp)), ih fun u hu => h u (by simp [hu])]
    rfl

mutual

theorem not_isUnion_of_mem_leaves : ∀ {t u : ValueType}, u ∈ leaves t → u.isUnion = false
  | .union members, u, h => not_isUnion_of_mem_leavesOf (by rwa [leaves] at h)
  | .any, u, h | .mixed, u, h | .number, u, h | .string, u, h | .boolean, u, h | .void, u, h
  | .null, u, h | .generic _, u, h => by
    rw [leaves_of_not_isUnion rfl, List.mem_singleton] at h
    rw [h]
    rfl

/-- No leaf is a union. -/
theorem not_isUnion_of_mem_leavesOf : ∀ {ts : List ValueType} {u : ValueType},
    u ∈ leavesOf ts → u.isUnion = false
  | [], u, h => by simp [leavesOf] at h
  | t :: rest, u, h => by
    rw [leavesOf, List.mem_append] at h
    rcases h with h | h
    · exact not_isUnion_of_mem_leaves h
    · exact not_isUnion_of_mem_leavesOf h

end

/-! ## Collecting leaves -/

theorem addAllTo_append (ts us : List ValueType) (found : Option (List ValueType)) :
    addAllTo (ts ++ us) found = addAllTo us (addAllTo ts found) := by
  induction ts generalizing found with
  | nil => rw [List.nil_append, addAllTo]
  | cons t ts ih => rw [List.cons_append, addAllTo, addAllTo, ih]

mutual

/-- To add a type is to add its leaves. -/
theorem addTo_eq_leaves : ∀ (t : ValueType) (found : Option (List ValueType)),
    addTo t found = addAllTo (leaves t) found
  | .union members, found => by rw [addTo, leaves, addAllTo_eq_leaves]
  | .any, found | .mixed, found | .number, found | .string, found | .boolean, found
  | .void, found | .null, found | .generic _, found => by
    rw [leaves_of_not_isUnion rfl, addAllTo, addAllTo]

theorem addAllTo_eq_leaves : ∀ (ts : List ValueType) (found : Option (List ValueType)),
    addAllTo ts found = addAllTo (leavesOf ts) found
  | [], found => by rw [leavesOf]
  | t :: rest, found => by
    rw [addAllTo, leavesOf, addAllTo_append, addTo_eq_leaves t, addAllTo_eq_leaves rest]

end

/-- Types that are no unions are collected in the order in which they come first, up to an `any`. -/
theorem addAllTo_of_not_isUnion {ts : List ValueType} (h : ∀ t ∈ ts, t.isUnion = false) :
    addAllTo ts (some []) = if .any ∈ ts then none else some ts.eraseDups := by
  induction ts using List.reverseRecOn with
  | nil => rw [addAllTo]; rfl
  | append_singleton ts t ih =>
    have hts : ∀ u ∈ ts, u.isUnion = false := fun u hu => h u (by simp [hu])
    have ht : t.isUnion = false := h t (by simp)
    rw [addAllTo_append, ih hts, addAllTo, addAllTo, eraseDups_concat]
    by_cases hany : .any ∈ ts
    · cases t <;> simp_all [addTo, isUnion]
    · cases t <;> simp_all [addTo, isUnion]

/-- What is collected from types: their distinct leaves, unless `any` is one of them. -/
theorem addAllTo_eq (ts : List ValueType) :
    addAllTo ts (some []) = if .any ∈ leavesOf ts then none else some (leavesOf ts).eraseDups := by
  rw [addAllTo_eq_leaves, addAllTo_of_not_isUnion fun _ => not_isUnion_of_mem_leavesOf]

/-! ## A stack of types

The members can be collected without recursion on types: what is left to be looked at is kept on a
stack, and a union on top gives way to its members. -/

theorem sizeOf_append_le (members stack : List ValueType) :
    sizeOf (members ++ stack) ≤ sizeOf members + sizeOf stack := by
  induction members with
  | nil => exact Nat.le_add_left _ _
  | cons t members ih =>
    rw [List.cons_append, List.cons.sizeOf_spec, List.cons.sizeOf_spec]
    omega

/-- The members found, with the types on the stack still to be looked at. They are kept in the order
in which they are found; `any` ends the search, with nothing. -/
def collect : List ValueType → List ValueType → Option (List ValueType)
  | [], found => some found
  | .any :: _, _ => none
  | .union members :: stack, found => collect (members ++ stack) found
  | t :: stack, found => collect stack (if t ∈ found then found else found ++ [t])
termination_by stack => sizeOf stack
decreasing_by
  · have happend := sizeOf_append_le members stack
    simp only [List.cons.sizeOf_spec, union.sizeOf_spec]
    omega
  · simp only [List.cons.sizeOf_spec]
    omega

mutual

/-- Nothing is found beside `any`. -/
theorem addTo_none : ∀ t : ValueType, addTo t none = none
  | .union members => by rw [addTo, addAllTo_none members]
  | .any | .mixed | .number | .string | .boolean | .void | .null | .generic _ => by simp [addTo]

theorem addAllTo_none : ∀ ts : List ValueType, addAllTo ts none = none
  | [] => by rw [addAllTo]
  | t :: rest => by rw [addAllTo, addTo_none t, addAllTo_none rest]

end

/-- What is on the stack is added to what was found. -/
theorem collect_eq (stack found : List ValueType) :
    collect stack found = addAllTo stack (some found) := by
  fun_induction collect stack found with
  | case1 found => rw [addAllTo]
  | case2 stack found => rw [addAllTo, addTo, addAllTo_none]
  | case3 members stack found ih => rw [ih, addAllTo_append, addAllTo, addTo]
  | case4 t stack found hany hunion ih =>
    have hadd : addTo t (some found) = some (if t ∈ found then found else found ++ [t]) := by
      cases t <;> simp_all [addTo]
    rw [addAllTo, hadd]
    exact ih

/-- The union of types, with a stack. -/
theorem union?_eq_collect (ts : List ValueType) :
    union? ts = match collect ts [] with
      | none => some .any
      | some [] => none
      | some [t] => some t
      | some ms => some (.union ms) := by
  rw [collect_eq]
  rfl

/-! ## The normal form -/

/-- The union of types, said by their leaves. -/
theorem union?_eq (ts : List ValueType) :
    union? ts = if .any ∈ leavesOf ts then some .any else
      match (leavesOf ts).eraseDups with
      | [] => none
      | [t] => some t
      | ms => some (.union ms) := by
  unfold union?
  rw [addAllTo_eq]
  split_ifs with hany
  · rfl
  · match (leavesOf ts).eraseDups with
    | [] | [_] | _ :: _ :: _ => rfl

/-- Only the leaves count, and of these only the first ones. -/
theorem union?_congr {ts us : List ValueType} (hany : .any ∈ leavesOf ts ↔ .any ∈ leavesOf us)
    (h : (leavesOf ts).eraseDups = (leavesOf us).eraseDups) : union? ts = union? us := by
  rw [union?_eq, union?_eq, h, if_congr hany rfl rfl]

/-- The leaves of a union without `any` are the distinct leaves of what was united. -/
theorem leavesOf_union? {ts : List ValueType} (hany : .any ∉ leavesOf ts) :
    leavesOf (union? ts).toList = (leavesOf ts).eraseDups := by
  have hplain : ∀ t ∈ (leavesOf ts).eraseDups, t.isUnion = false := fun t ht =>
    not_isUnion_of_mem_leavesOf (List.mem_eraseDups.mp ht)
  rw [union?_eq, if_neg hany]
  match hdistinct : (leavesOf ts).eraseDups with
  | [] => rw [Option.toList_none, leavesOf]
  | [t] =>
    rw [hdistinct] at hplain
    exact leavesOf_of_not_isUnion hplain
  | t :: u :: rest =>
    rw [hdistinct] at hplain
    show leavesOf [.union (t :: u :: rest)] = _
    rw [leavesOf_singleton, leaves, leavesOf_of_not_isUnion hplain]

/-- Types may be united in parts. -/
theorem union?_union?_append (ts us : List ValueType) :
    union? ((union? ts).toList ++ us) = union? (ts ++ us) := by
  by_cases hany : .any ∈ leavesOf ts
  · have hunion : union? ts = some .any := by rw [union?_eq, if_pos hany]
    rw [hunion, union?_eq, union?_eq, leavesOf_append, leavesOf_append,
      if_pos (List.mem_append_left _ hany), if_pos]
    simp [leavesOf, leaves]
  · have hleaves := leavesOf_union? hany
    refine union?_congr ?_ ?_
    · rw [leavesOf_append, leavesOf_append, hleaves, List.mem_append, List.mem_append,
        List.mem_eraseDups]
    · rw [leavesOf_append, leavesOf_append, hleaves, eraseDups_eraseDups_append]

/-- What a union is made of. -/
theorem members_of_union? {ts ms : List ValueType} (h : union? ts = some (.union ms)) :
    .any ∉ leavesOf ts ∧ ms = (leavesOf ts).eraseDups := by
  have hany : .any ∉ leavesOf ts := by
    intro hany
    rw [union?_eq, if_pos hany] at h
    cases h
  have hleaves := leavesOf_union? hany
  rw [h] at hleaves
  have hopened : leavesOf ms = (leavesOf ts).eraseDups := by
    rw [← hleaves, Option.toList_some, leavesOf_singleton, leaves]
  rw [union?_eq, if_neg hany] at h
  match hdistinct : (leavesOf ts).eraseDups with
  | [] => rw [hdistinct] at h; cases h
  | [t] =>
    rw [hdistinct] at h
    have ht : t.isUnion = false := by
      have hmem : t ∈ leavesOf ts := List.mem_eraseDups.mp (by rw [hdistinct]; simp)
      exact not_isUnion_of_mem_leavesOf hmem
    obtain rfl := Option.some.inj h
    cases ht
  | t :: u :: rest =>
    rw [hdistinct] at h
    cases h
    exact ⟨hany, rfl⟩

/-- The union of types is `any` if `any` is among their leaves, nothing if there are no leaves, the
leaf itself if all leaves are the same, and else the union of the distinct leaves in the order in
which they come first. So no union has `any`, another union or a repetition among its members, and
it makes no difference whether types are united in parts. -/
theorem union?_normal (ts us : List ValueType) :
    (.any ∈ leavesOf ts → union? ts = some .any) ∧
    (leavesOf ts = [] → union? ts = none) ∧
    (∀ t ∈ leavesOf ts, (∀ u ∈ leavesOf ts, u = t) → union? ts = some t) ∧
    (.any ∉ leavesOf ts → (∃ t ∈ leavesOf ts, ∃ u ∈ leavesOf ts, t ≠ u) →
      union? ts = some (.union (leavesOf ts).eraseDups)) ∧
    (∀ ms, union? ts = some (.union ms) →
      .any ∉ ms ∧ (∀ m ∈ ms, m.isUnion = false) ∧ ms.Nodup) ∧
    union? ((union? ts).toList ++ us) = union? (ts ++ us) := by
  refine ⟨fun hany => ?_, fun hnone => ?_, fun t ht hall => ?_, fun hany hdiffer => ?_,
    fun ms hms => ?_, union?_union?_append ts us⟩
  · rw [union?_eq, if_pos hany]
  · rw [union?_eq, hnone]
    rfl
  · have hmem : ∀ u ∈ (leavesOf ts).eraseDups, u = t := fun u hu => hall u (List.mem_eraseDups.mp hu)
    have hnodup := nodup_eraseDups (leavesOf ts)
    rw [← List.mem_eraseDups] at ht
    rw [union?_eq]
    split_ifs with hany
    · rw [hall _ hany]
    · match hdistinct : (leavesOf ts).eraseDups with
      | [] => rw [hdistinct] at ht; cases ht
      | [u] => rw [hmem u (by rw [hdistinct]; simp)]
      | u :: v :: rest =>
        have huv : u = v :=
          (hmem u (by rw [hdistinct]; simp)).trans (hmem v (by rw [hdistinct]; simp)).symm
        rw [hdistinct, huv] at hnodup
        simp at hnodup
  · obtain ⟨t, ht, u, hu, hne⟩ := hdiffer
    rw [← List.mem_eraseDups] at ht hu
    rw [union?_eq, if_neg hany]
    match hdistinct : (leavesOf ts).eraseDups with
    | [] => rw [hdistinct] at ht; cases ht
    | [v] =>
      rw [hdistinct, List.mem_singleton] at ht hu
      exact absurd (ht.trans hu.symm) hne
    | _ :: _ :: _ => rfl
  · obtain ⟨hany, rfl⟩ := members_of_union? hms
    refine ⟨fun hmem => hany (List.mem_eraseDups.mp hmem), fun m hm => ?_, nodup_eraseDups _⟩
    exact not_isUnion_of_mem_leavesOf (List.mem_eraseDups.mp hm)

/-- Types nested two deep: with a repetition, with one leaf only, with no leaf, and with `any`. -/
theorem union?_normal_nested :
    union? [.string, .union [.number, .union [.string, .null]]] =
      some (.union [.string, .number, .null]) ∧
    (.any ∉ ([.string, .number, .null] : List ValueType) ∧
      (∀ m ∈ ([.string, .number, .null] : List ValueType), m.isUnion = false) ∧
      ([.string, .number, .null] : List ValueType).Nodup) ∧
    union? [.union [.void, .union [.void]], .void] = some .void ∧
    union? [.union [], .union [.union []]] = none ∧
    union? [.null, .union [.number, .union [.any]]] = some .any := by
  have hnested : union? [.string, .union [.number, .union [.string, .null]]] =
      some (.union [.string, .number, .null]) :=
    ((union?_normal _ []).2.2.2.1 (by decide)
      ⟨.string, by decide, .number, by decide, by decide⟩).trans (by decide)
  exact ⟨hnested, (union?_normal _ []).2.2.2.2.1 _ hnested,
    (union?_normal _ []).2.2.1 .void (by decide) (by decide),
    (union?_normal _ []).2.1 (by decide), (union?_normal _ []).1 (by decide)⟩

end Espalier.ValueType
