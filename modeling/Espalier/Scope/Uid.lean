import Espalier.Scope.Basic

set_option autoImplicit false

/-! # Generated names

Arbitrary text is turned into an identifier, and an identifier into a name that nobody uses yet by
counting upwards. Every refused candidate is a name that is already taken, so the search ends
before the taken names are used up. -/

namespace Espalier

open SessionM

/-- Characters that may stand in an identifier. -/
def isIdentifierChar (c : Char) : Bool := c.isAlphanum || c == '$' || c == '_'

/-- Drop the dashes and write the character after a run of them in upper case. -/
def camelCase (afterBreak : Bool) : List Char → List Char
  | [] => []
  | c :: cs =>
    if c = '-' then camelCase true cs
    else (if afterBreak then c.toUpper else c) :: camelCase false cs

/-- Turn a text into an identifier: other characters become word breaks, leading breaks and digits
go, and the words are joined in camel case. Nothing becomes an underscore. -/
def toIdentifier (text : String) : String :=
  let dashed := text.toList.map fun c => if isIdentifierChar c then c else '-'
  match camelCase false (dashed.dropWhile fun c => c == '-' || c.isDigit) with
  | [] => "_"
  | cs => String.ofList cs

/-- The stem of a generated name: no leading underscores, no trailing digits. -/
def uidBase (text : String) : String :=
  let trimmed := (toIdentifier text).toList.dropWhile (· == '_')
  match (trimmed.reverse.dropWhile Char.isDigit).reverse with
  | [] => "temp"
  | cs => String.ofList cs

/-- The candidate number `i`: the stem itself twice, then the stem with a number from two on. -/
def uidCandidate (lead base : String) (i : Nat) : String :=
  if 1 < i then lead ++ base ++ numberText i else lead ++ base

namespace ScopeId

/-- Is a name in use in this scope, anywhere in the program, or among the generated names? -/
def isTaken (s : ScopeId) (name : String) : SessionM Bool := do
  if ← s.hasBinding name then pure true
  else
    let program ← (← s.programScope).data
    pure (decide (name ∈ program.globals) || decide (name ∈ program.references)
      || decide (name ∈ program.uids))

/-- The first candidate from number `i` on that is not taken. -/
def freeCandidate (s : ScopeId) (lead base : String) : Nat → Nat → SessionM String
  | 0, _ => throw .exhausted
  | fuel + 1, i => do
    let name := uidCandidate lead base i
    if ← s.isTaken name then freeCandidate s lead base fuel (i + 1) else pure name

/-- How many names there are in a scope and its program. -/
def takenCount (s : ScopeId) : SessionM Nat := do
  let program ← (← s.programScope).data
  let sizes ← (← s.chain).mapM fun t => do pure (← t.data).bindings.entries.length
  pure (sizes.foldl (· + ·) 0 + program.globals.length + program.references.length
    + program.uids.length)

/-- A new name like `text`. -/
def generateUid (s : ScopeId) (text : String) : SessionM String := do
  let lead := (← get).config.uidLead
  let name ← s.freeCandidate lead (uidBase text) ((← s.takenCount) + 3) 0
  (← s.programScope).modifyData fun d =>
    { d with references := addName d.references name, uids := addName d.uids name }
  pure name

end ScopeId

end Espalier
