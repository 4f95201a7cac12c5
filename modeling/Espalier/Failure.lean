import Espalier.Syntax.Field

set_option autoImplicit false

/-! # Failures

An edit is refused for one of the causes below, each with its message. More outcomes are kept
apart from refusals: an id that names nothing, an index past the largest one, and a computation
that used up its steps. -/

namespace Espalier

/-- Why an operation on a tree was refused. -/
inductive Refusal where
  | falsyReplacement
  | arrayReplacement
  | sourceReplacement
  | rootReplacement (found : NodeType)
  | removedPath
  | emptyNodeList
  | noStatementParent
  | notAList (operation : String)
  | notASlot (parent : NodeType) (field : Field)
  | rootRemoval
  | requiredSlot (parent : NodeType) (field : Field)
  | outOfBounds (field : Field) (index length : Nat)
  | unknownField (type : NodeType) (field : String)
  | emptyPath
  | noParser
  | parse (message : String) (offset : Option Nat)
  | depthLimit (limit : Nat)
  | requeueLimit (type : NodeType) (limit : Nat)
  | rule (message : String)
deriving DecidableEq, Repr

/-- A number in a message. -/
def numberText (n : Nat) : String := String.ofList (Nat.toDigits 10 n)

/-- A text between backticks. -/
def ticked (s : String) : String := "`" ++ s ++ "`"

/-- The message of a refusal. -/
def Refusal.message : Refusal → String
  | .falsyReplacement =>
    "You passed `path.replace_with()` a falsy node, use `path.remove()` instead"
  | .arrayReplacement =>
    "Don't use `path.replace_with()` with an array of nodes, use `path.replace_with_multiple()`"
  | .sourceReplacement =>
    "Don't use `path.replace_with()` with a source string, use `path.replace_with_source_string()`"
  | .rootReplacement found =>
    "You can only replace a Program root node with another Program node, got " ++ found.name
  | .removedPath => "NodePath has been removed so is read-only"
  | .emptyNodeList => "Expected a non-empty list of nodes"
  | .noStatementParent => "File/Program node, we can't possibly find a statement parent to this"
  | .notAList operation =>
    "Operation " ++ ticked operation
      ++ " needs a list container, but the path sits in a single-node slot"
  | .notASlot parent field =>
    "Field " ++ ticked field.name ++ " of " ++ parent.name ++ " is a list; use a list operation"
  | .rootRemoval => "Cannot remove the Program root"
  | .requiredSlot parent field =>
    "Cannot remove required field " ++ ticked field.name ++ " of " ++ parent.name
  | .outOfBounds field index length =>
    "Index " ++ numberText index ++ " is outside " ++ ticked field.name ++ " (length "
      ++ numberText length ++ ")"
  | .unknownField type field =>
    "Node type " ++ type.name ++ " has no field " ++ ticked field
  | .emptyPath => "Path has no node to operate on"
  | .noParser => "No expression parser is installed for source-string replacement"
  | .parse message _ => message ++ " - make sure this is an expression."
  | .depthLimit limit => "Traversal exceeded the maximum depth of " ++ numberText limit
  | .requeueLimit type limit =>
    "Node " ++ type.name ++ " was requeued more than " ++ numberText limit ++ " times"
  | .rule message => message

/-- How a computation on a session can fail. -/
inductive Failure where
  /-- The operation was refused. -/
  | refused (cause : Refusal)
  /-- An id names no node, handle or scope. -/
  | dangling
  /-- An index past the largest one was needed. -/
  | overflow
  /-- The step bound of a search was used up. -/
  | exhausted
deriving DecidableEq, Repr

end Espalier
