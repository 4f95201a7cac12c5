set_option autoImplicit false

/-! # Types of values

The types that are declared on identifiers, functions and casts, and produced by inference. The main
operation is `union`, which flattens nested unions, drops repetitions and lets `any` absorb
everything. -/

namespace Espalier

/-- A type: a base type, a named type such as `Array` or a class name, or a union. -/
inductive ValueType where
  | any
  | mixed
  | number
  | string
  | boolean
  | void
  | null
  | generic (name : String)
  | union (members : List ValueType)
deriving Repr

namespace ValueType

/-! ## Equality -/

mutual

/-- Structural equality. -/
def beq : ValueType → ValueType → Bool
  | .any, .any => true
  | .mixed, .mixed => true
  | .number, .number => true
  | .string, .string => true
  | .boolean, .boolean => true
  | .void, .void => true
  | .null, .null => true
  | .generic a, .generic b => a == b
  | .union a, .union b => beqList a b
  | _, _ => false

/-- Structural equality of lists of types. -/
def beqList : List ValueType → List ValueType → Bool
  | [], [] => true
  | a :: as, b :: bs => beq a b && beqList as bs
  | _, _ => false

end

mutual

theorem eq_of_beq : ∀ {a b : ValueType}, beq a b = true → a = b
  | .any, b, h => by cases b <;> simp_all [beq]
  | .mixed, b, h => by cases b <;> simp_all [beq]
  | .number, b, h => by cases b <;> simp_all [beq]
  | .string, b, h => by cases b <;> simp_all [beq]
  | .boolean, b, h => by cases b <;> simp_all [beq]
  | .void, b, h => by cases b <;> simp_all [beq]
  | .null, b, h => by cases b <;> simp_all [beq]
  | .generic a, b, h => by cases b <;> simp_all [beq]
  | .union as, b, h => by
    cases b with
    | union bs => rw [beq] at h; rw [eq_of_beqList h]
    | _ => simp [beq] at h

theorem eq_of_beqList : ∀ {as bs : List ValueType}, beqList as bs = true → as = bs
  | [], bs, h => by cases bs <;> simp_all [beqList]
  | a :: as, [], h => by simp [beqList] at h
  | a :: as, b :: bs, h => by
    simp only [beqList, Bool.and_eq_true] at h
    rw [eq_of_beq h.1, eq_of_beqList h.2]

end

mutual

theorem beq_refl : ∀ a : ValueType, beq a a = true
  | .any | .mixed | .number | .string | .boolean | .void | .null => by simp [beq]
  | .generic a => by simp [beq]
  | .union as => by rw [beq]; exact beqList_refl as

theorem beqList_refl : ∀ as : List ValueType, beqList as as = true
  | [] => by simp [beqList]
  | a :: as => by simp [beqList, beq_refl a, beqList_refl as]

end

instance : DecidableEq ValueType := fun a b =>
  if h : beq a b then .isTrue (eq_of_beq h)
  else .isFalse fun e => h (e ▸ beq_refl a)

/-! ## Unions -/

mutual

/-- Add a type to the members found so far. `none` stands for the absorbing `any`. -/
def addTo (t : ValueType) (found : Option (List ValueType)) :
    Option (List ValueType) :=
  match t with
  | .union members => addAllTo members found
  | .any => none
  | t => found.map fun ts => if t ∈ ts then ts else ts ++ [t]

/-- Add several types, left to right. -/
def addAllTo (ts : List ValueType) (found : Option (List ValueType)) :
    Option (List ValueType) :=
  match ts with
  | [] => found
  | t :: rest => addAllTo rest (addTo t found)

end

/-- The union of some types, without nesting and repetition. A single member is itself, and
no member at all gives `none`. -/
def union? (ts : List ValueType) : Option ValueType :=
  match addAllTo ts (some []) with
  | none => some .any
  | some [] => none
  | some [t] => some t
  | some ts => some (.union ts)

/-! ## Names -/

/-- The type implied by comparing `typeof` with the given text. -/
def ofTypeof? : String → Option ValueType
  | "string" => some .string
  | "number" => some .number
  | "undefined" => some .void
  | "boolean" => some .boolean
  | "function" => some (.generic "Function")
  | "object" => some (.generic "Object")
  | "symbol" => some (.generic "Symbol")
  | _ => none

/-- The name of a base type. -/
def baseName? : ValueType → Option String
  | .any => some "any"
  | .mixed => some "mixed"
  | .number => some "number"
  | .string => some "string"
  | .boolean => some "boolean"
  | .void => some "void"
  | .null => some "null"
  | .generic _ | .union _ => none

/-- Is this the base type of the given name? -/
def isBase (t : ValueType) (name : String) : Bool := t.baseName? == some name

/-- The names of the base types. -/
def baseNames : List String := ["string", "number", "boolean", "any", "mixed", "void", "null"]

mutual

/-- The text of a type. -/
def text : ValueType → String
  | .any => "any"
  | .mixed => "mixed"
  | .number => "number"
  | .string => "string"
  | .boolean => "boolean"
  | .void => "void"
  | .null => "null"
  | .generic name => name
  | .union members => " | ".intercalate (texts members)

/-- The texts of several types. -/
def texts : List ValueType → List String
  | [] => []
  | t :: rest => text t :: texts rest

end

end ValueType

end Espalier
