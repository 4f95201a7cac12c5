set_option autoImplicit false

/-! # Insertion-ordered tables

A `Table` is a finite map that remembers the order in which its keys first appeared. Writing to a
key that is already present keeps its place; erasing a key closes the gap. Scope bindings, rule
statistics and handle buckets are tables, because their order shows in every listing. -/

namespace Espalier

/-- A finite map whose entries stand in the order in which their keys were first inserted. -/
structure Table (κ ν : Type) where
  entries : List (κ × ν) := []

namespace Table

variable {κ ν : Type}

/-- The table without entries. -/
def empty : Table κ ν := ⟨[]⟩

/-- The keys, in order of first insertion. -/
def keys (t : Table κ ν) : List κ := t.entries.map Prod.fst

/-- The values, in the order of their keys. -/
def values (t : Table κ ν) : List ν := t.entries.map Prod.snd

variable [DecidableEq κ]

/-- The value of the first entry for `k`. -/
def findEntry (k : κ) : List (κ × ν) → Option ν
  | [] => none
  | (k', v) :: rest => if k = k' then some v else findEntry k rest

/-- The value stored under `k`. -/
def get? (t : Table κ ν) (k : κ) : Option ν := findEntry k t.entries

/-- Is there an entry for `k`? -/
def contains (t : Table κ ν) (k : κ) : Bool := (t.get? k).isSome

/-- Write one entry into a list of entries: in place when the key is there, else at the end. -/
def insertEntry (k : κ) (v : ν) : List (κ × ν) → List (κ × ν)
  | [] => [(k, v)]
  | (k', v') :: rest => if k = k' then (k, v) :: rest else (k', v') :: insertEntry k v rest

/-- Store `v` under `k`. A key that is already present keeps its place. -/
def insert (t : Table κ ν) (k : κ) (v : ν) : Table κ ν := ⟨insertEntry k v t.entries⟩

/-- Drop the entry for `k`; the other entries keep their order. -/
def erase (t : Table κ ν) (k : κ) : Table κ ν := ⟨t.entries.filter fun e => decide (e.1 ≠ k)⟩

/-- Apply `f` to the value stored under `k`, if there is one. -/
def modify (t : Table κ ν) (k : κ) (f : ν → ν) : Table κ ν :=
  ⟨t.entries.map fun e => if e.1 = k then (e.1, f e.2) else e⟩

/-! ## What the operations do to a lookup -/

@[simp] theorem get?_empty (k : κ) : (empty : Table κ ν).get? k = none := rfl

theorem findEntry_insertEntry (k k' : κ) (v : ν) (es : List (κ × ν)) :
    findEntry k' (insertEntry k v es) = if k' = k then some v else findEntry k' es := by
  induction es with
  | nil => simp [insertEntry, findEntry]
  | cons e rest ih =>
    obtain ⟨a, b⟩ := e
    by_cases hk : k = a
    · subst hk
      by_cases h : k' = k <;> simp [insertEntry, findEntry, h]
    · by_cases h : k' = a
      · subst h
        simp [insertEntry, findEntry, hk, Ne.symm hk]
      · simp [insertEntry, findEntry, hk, h, ih]

/-- Reading after a write gives the written value at its key and the old value elsewhere. -/
theorem get?_insert (t : Table κ ν) (k k' : κ) (v : ν) :
    (t.insert k v).get? k' = if k' = k then some v else t.get? k' :=
  findEntry_insertEntry k k' v t.entries

/-- Reading after an erasure finds nothing at the erased key and the old value elsewhere. -/
theorem get?_erase (t : Table κ ν) (k k' : κ) :
    (t.erase k).get? k' = if k' = k then none else t.get? k' := by
  obtain ⟨es⟩ := t
  show findEntry k' (es.filter _) = if k' = k then none else findEntry k' es
  induction es with
  | nil => simp [findEntry]
  | cons e rest ih =>
    obtain ⟨a, b⟩ := e
    by_cases ha : a = k
    · subst ha
      by_cases h : k' = a <;> simp_all [findEntry]
    · by_cases h : k' = a
      · subst h
        simp [findEntry, ha]
      · simp_all [findEntry]

/-- Reading after a change gives the changed value at its key and the old value elsewhere. -/
theorem get?_modify (t : Table κ ν) (k k' : κ) (f : ν → ν) :
    (t.modify k f).get? k' = if k' = k then (t.get? k').map f else t.get? k' := by
  obtain ⟨es⟩ := t
  show findEntry k' (es.map _) = if k' = k then (findEntry k' es).map f else findEntry k' es
  induction es with
  | nil => simp [findEntry]
  | cons e rest ih =>
    obtain ⟨a, b⟩ := e
    by_cases ha : a = k
    · subst ha
      by_cases h : k' = a <;> simp_all [findEntry]
    · by_cases h : k' = a
      · subst h
        simp [findEntry, ha]
      · simp_all [findEntry]

/-! ## What the operations do to the order of keys -/

/-- A written key keeps its place, or comes last when it is new. -/
theorem keys_insert (t : Table κ ν) (k : κ) (v : ν) :
    (t.insert k v).keys = if k ∈ t.keys then t.keys else t.keys ++ [k] := by
  obtain ⟨es⟩ := t
  show (insertEntry k v es).map Prod.fst =
    if k ∈ es.map Prod.fst then es.map Prod.fst else es.map Prod.fst ++ [k]
  induction es with
  | nil => simp [insertEntry]
  | cons e rest ih =>
    obtain ⟨a, b⟩ := e
    by_cases h : k = a
    · simp [insertEntry, h]
    · by_cases hk : k ∈ rest.map Prod.fst <;>
        simp only [insertEntry, List.map_cons, ih, List.mem_cons, h, hk, false_or, if_true,
          if_false, List.cons_append]

/-- A written entry is the new one or one of before. -/
theorem mem_entries_insert {t : Table κ ν} {k : κ} {v : ν} {e : κ × ν}
    (h : e ∈ (t.insert k v).entries) : e = (k, v) ∨ e ∈ t.entries := by
  obtain ⟨es⟩ := t
  have h' : e ∈ insertEntry k v es := h
  show e = (k, v) ∨ e ∈ es
  clear h
  induction es with
  | nil => exact .inl (by simpa [insertEntry] using h')
  | cons e' rest ih =>
    obtain ⟨a, b⟩ := e'
    by_cases hk : k = a
    · simp only [insertEntry, hk, if_true, List.mem_cons] at h'
      rcases h' with rfl | h'
      · exact .inl (by rw [hk])
      · exact .inr (List.mem_cons_of_mem _ h')
    · simp only [insertEntry, hk, if_false, List.mem_cons] at h'
      rcases h' with rfl | h'
      · exact .inr (List.mem_cons_self ..)
      · exact (ih h').imp id (List.mem_cons_of_mem _)

/-- What is read stands among the entries. -/
theorem mem_entries_of_get? {t : Table κ ν} {k : κ} {v : ν} (h : t.get? k = some v) :
    (k, v) ∈ t.entries := by
  obtain ⟨es⟩ := t
  have h' : findEntry k es = some v := h
  show (k, v) ∈ es
  clear h
  induction es with
  | nil => simp [findEntry] at h'
  | cons e rest ih =>
    obtain ⟨a, b⟩ := e
    by_cases hk : k = a
    · simp only [findEntry, hk, if_true, Option.some.injEq] at h'
      rw [hk, h']
      exact List.mem_cons_self ..
    · simp only [findEntry, hk, if_false] at h'
      exact List.mem_cons_of_mem _ (ih h')

/-- The keys are what is found. -/
theorem contains_iff_mem_keys (t : Table κ ν) (k : κ) : t.contains k = true ↔ k ∈ t.keys := by
  obtain ⟨es⟩ := t
  show (findEntry k es).isSome = true ↔ k ∈ es.map Prod.fst
  induction es with
  | nil => simp [findEntry]
  | cons e rest ih =>
    obtain ⟨a, b⟩ := e
    by_cases hk : k = a
    · simp [findEntry, hk]
    · simp only [findEntry, hk, if_false, List.map_cons, List.mem_cons, false_or, ih]

end Table

end Espalier
