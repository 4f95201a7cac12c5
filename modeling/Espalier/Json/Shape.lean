set_option autoImplicit false

/-! # Shapes

What a reader of JSON text asks for. Parts that nobody asks for are skipped while the text is read,
and leave no trace in the value. -/

namespace Espalier.Json

/-- What is asked of a value: nothing, all of it, something of each item of an array, or something
of each member of an object. A record may also be written as an array of its known members. -/
inductive Shape where
  | ignored
  | any
  | list (item : Shape)
  | record (known : List (String × Shape)) (other : Shape)
deriving Repr

namespace Shape

/-- What is asked of the item at an index of an array. -/
def item (index : Nat) : Shape → Shape
  | .ignored => .ignored
  | .any => .any
  | .list s => s
  | .record known other => (known[index]?.map Prod.snd).getD other

/-- What is asked of the member of a name. -/
def member (name : String) : Shape → Shape
  | .ignored => .ignored
  | .any => .any
  | .list _ => .any
  | .record known other => (known.lookup name).getD other

/-- Is nothing asked for? -/
def isIgnored : Shape → Bool
  | .ignored => true
  | _ => false

/-- Keep a part that is asked for, and leave out one that is not. -/
def keep {α : Type} (s : Shape) (part : α) (rest : List α) : List α :=
  if s.isIgnored then rest else part :: rest

end Shape

end Espalier.Json
