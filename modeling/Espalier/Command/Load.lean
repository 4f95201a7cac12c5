import Espalier.Syntax.Decode

set_option autoImplicit false

/-! # Loading programs

A program file holds a tree as JSON text. Only trees whose root is a program are accepted. -/

namespace Espalier

/-- Why a file holds no program. -/
inductive LoadError where
  | unreadable
  | invalid
  | rootIsNoProgram
  | noRoot
deriving DecidableEq, Repr

/-- What is said about the file of the given name. -/
def LoadError.message (file : String) : LoadError → String
  | .unreadable => "failed to read " ++ file
  | .invalid => file ++ " is not a valid AST"
  | .rootIsNoProgram => file ++ ": root must be a Program node"
  | .noRoot => file ++ ": AST has no root"

/-- Does the tree have a program at its root? -/
def Tree.checkRoot (t : Tree) : Except LoadError Tree :=
  match t.root with
  | none => .error .noRoot
  | some root => if t.type? root = some .program then .ok t else .error .rootIsNoProgram

/-- The program in a file of the given content; a file that cannot be read has none. -/
def Tree.load (content : Option String) : Except LoadError Tree :=
  match content with
  | none => .error .unreadable
  | some text =>
    match Tree.ofText? text with
    | none => .error .invalid
    | some t => t.checkRoot

end Espalier
