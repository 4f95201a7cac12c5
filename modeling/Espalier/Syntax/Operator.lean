set_option autoImplicit false

/-! # Operators and declaration keywords

The operators of the expression grammar with their texts, the precedence of the binary ones (a
larger number binds tighter), and what the result of an operator is known to be. -/

namespace Espalier

/-- An operator between two operands that are both evaluated. -/
inductive BinaryOperator where
  | add
  | subtract
  | multiply
  | divide
  | modulo
  | power
  | equal
  | notEqual
  | strictEqual
  | strictNotEqual
  | lessThan
  | lessEqual
  | greaterThan
  | greaterEqual
  | shiftLeft
  | shiftRight
  | unsignedShiftRight
  | bitAnd
  | bitOr
  | bitXor
  | isIn
  | instanceOf
deriving DecidableEq, Repr

namespace BinaryOperator

/-- Every member, in declaration order. -/
def all : List BinaryOperator := [
  .add, .subtract, .multiply, .divide, .modulo, .power, .equal, .notEqual, .strictEqual,
  .strictNotEqual, .lessThan, .lessEqual, .greaterThan, .greaterEqual, .shiftLeft, .shiftRight,
  .unsignedShiftRight, .bitAnd, .bitOr, .bitXor, .isIn, .instanceOf]

/-- The text of an operator. -/
def symbol : BinaryOperator → String
  | .add => "+"
  | .subtract => "-"
  | .multiply => "*"
  | .divide => "/"
  | .modulo => "%"
  | .power => "**"
  | .equal => "=="
  | .notEqual => "!="
  | .strictEqual => "==="
  | .strictNotEqual => "!=="
  | .lessThan => "<"
  | .lessEqual => "<="
  | .greaterThan => ">"
  | .greaterEqual => ">="
  | .shiftLeft => "<<"
  | .shiftRight => ">>"
  | .unsignedShiftRight => ">>>"
  | .bitAnd => "&"
  | .bitOr => "|"
  | .bitXor => "^"
  | .isIn => "in"
  | .instanceOf => "instanceof"

/-- The member with the given text. -/
def ofSymbol? (s : String) : Option BinaryOperator := all.find? fun o => o.symbol == s

/-- Operators that always produce a number. -/
def isNumeric : BinaryOperator → Bool
  | .subtract | .divide | .modulo | .multiply | .power | .bitAnd | .bitOr | .shiftRight
  | .unsignedShiftRight | .shiftLeft | .bitXor => true
  | _ => false

/-- Relational operators that turn both operands into numbers. -/
def isNumericComparison : BinaryOperator → Bool
  | .greaterThan | .lessThan | .greaterEqual | .lessEqual => true
  | _ => false

/-- Operators that always produce a boolean. -/
def isBoolean (o : BinaryOperator) : Bool :=
  match o with
  | .equal | .strictEqual | .notEqual | .strictNotEqual | .isIn | .instanceOf => true
  | _ => o.isNumericComparison

/-- How tightly an operator binds. -/
def precedence : BinaryOperator → Nat
  | .bitOr => 3
  | .bitXor => 4
  | .bitAnd => 5
  | .equal | .notEqual | .strictEqual | .strictNotEqual => 6
  | .lessThan | .lessEqual | .greaterThan | .greaterEqual | .isIn | .instanceOf => 7
  | .shiftLeft | .shiftRight | .unsignedShiftRight => 8
  | .add | .subtract => 9
  | .multiply | .divide | .modulo => 10
  | .power => 11

end BinaryOperator

/-- An operator whose right operand is evaluated only if needed. -/
inductive LogicalOperator where
  | and
  | or
deriving DecidableEq, Repr

namespace LogicalOperator

/-- Every member, in declaration order. -/
def all : List LogicalOperator := [
  .and, .or]

/-- The text of an operator. -/
def symbol : LogicalOperator → String
  | .and => "&&"
  | .or => "||"

/-- The member with the given text. -/
def ofSymbol? (s : String) : Option LogicalOperator := all.find? fun o => o.symbol == s

/-- How tightly an operator binds: looser than every binary operator. -/
def precedence : LogicalOperator → Nat
  | .or => 1
  | .and => 2

end LogicalOperator

/-- An operator in front of one operand. -/
inductive UnaryOperator where
  | minus
  | plus
  | not
  | bitNot
  | typeof
  | void
  | delete
deriving DecidableEq, Repr

namespace UnaryOperator

/-- Every member, in declaration order. -/
def all : List UnaryOperator := [
  .minus, .plus, .not, .bitNot, .typeof, .void, .delete]

/-- The text of an operator. -/
def symbol : UnaryOperator → String
  | .minus => "-"
  | .plus => "+"
  | .not => "!"
  | .bitNot => "~"
  | .typeof => "typeof"
  | .void => "void"
  | .delete => "delete"

/-- The member with the given text. -/
def ofSymbol? (s : String) : Option UnaryOperator := all.find? fun o => o.symbol == s

/-- Operators that are words and need a blank before their operand. -/
def isKeyword : UnaryOperator → Bool
  | .typeof | .void | .delete => true
  | _ => false

end UnaryOperator

/-- An operator that changes its operand by one. -/
inductive UpdateOperator where
  | increment
  | decrement
deriving DecidableEq, Repr

namespace UpdateOperator

/-- Every member, in declaration order. -/
def all : List UpdateOperator := [
  .increment, .decrement]

/-- The text of an operator. -/
def symbol : UpdateOperator → String
  | .increment => "++"
  | .decrement => "--"

/-- The member with the given text. -/
def ofSymbol? (s : String) : Option UpdateOperator := all.find? fun o => o.symbol == s

end UpdateOperator

/-- An operator that stores into its left operand. -/
inductive AssignmentOperator where
  | assign
  | addAssign
  | subtractAssign
  | multiplyAssign
  | divideAssign
  | moduloAssign
deriving DecidableEq, Repr

namespace AssignmentOperator

/-- Every member, in declaration order. -/
def all : List AssignmentOperator := [
  .assign, .addAssign, .subtractAssign, .multiplyAssign, .divideAssign, .moduloAssign]

/-- The text of an operator. -/
def symbol : AssignmentOperator → String
  | .assign => "="
  | .addAssign => "+="
  | .subtractAssign => "-="
  | .multiplyAssign => "*="
  | .divideAssign => "/="
  | .moduloAssign => "%="

/-- The member with the given text. -/
def ofSymbol? (s : String) : Option AssignmentOperator := all.find? fun o => o.symbol == s

end AssignmentOperator

/-- The keyword of a variable declaration. -/
inductive VariableKind where
  | var
  | letVar
  | const
deriving DecidableEq, Repr

namespace VariableKind

/-- Every member, in declaration order. -/
def all : List VariableKind := [
  .var, .letVar, .const]

/-- The text of a keyword. -/
def keyword : VariableKind → String
  | .var => "var"
  | .letVar => "let"
  | .const => "const"

/-- The member with the given text. -/
def ofKeyword? (s : String) : Option VariableKind := all.find? fun o => o.keyword == s

end VariableKind

end Espalier
