import Espalier.Analysis.Inference
import Espalier.Json.Basic
import Espalier.Syntax.Printer
import Espalier.Walk.Traverse

set_option autoImplicit false

/-! # Reports

A report lists the scopes of a program with their bindings, the names that are not declared, the
texts whose value is the value of the program, and the type of every variable that is read. -/

namespace Espalier

open SessionM

/-- A binding in a report. -/
structure BindingReport where
  name : String
  kind : BindingKind
  constant : Bool
  references : Nat
deriving DecidableEq, Repr

/-- A scope in a report. -/
structure ScopeReport where
  id : ScopeId
  block : NodeType
  parent : Option ScopeId
  bindings : List BindingReport
deriving DecidableEq, Repr

/-- A variable that is read, and the text of its type. -/
structure IdentifierType where
  name : String
  type : String
deriving DecidableEq, Repr

/-- Everything that is reported about a program. -/
structure Report where
  scopes : List ScopeReport
  globals : List String
  completionRecords : List String
  identifierTypes : List IdentifierType
deriving DecidableEq, Repr

/-- Names in alphabetical order. -/
def sortNames (names : List String) : List String := names.mergeSort fun a b => decide (a ≤ b)

/-- The report of a binding. -/
def Binding.report (b : Binding) : BindingReport where
  name := b.name
  kind := b.kind
  constant := b.isConstant
  references := b.references.length

/-- The report of a scope. -/
def ScopeId.report (s : ScopeId) : SessionM ScopeReport := do
  let d ← s.data
  pure
    { id := s, block := d.blockType, parent := d.parent
      bindings := d.bindings.values.map Binding.report }

/-- Note the type of the variable that is read at a path. -/
def noteType (p : PathId) : WalkM (List IdentifierType) Unit := do
  if ← p.isReferencedIdentifier then
    let name := (← p.identifierName?).getD ""
    let type ← p.valueType
    modify fun w => { w with own := w.own ++ [{ name, type := type.text }] }

/-- Report on a program. Only the walk over its identifiers can be refused. -/
def inspect : SessionM Report := do
  let root ← rootPath
  let program ← root.scope
  let scopes ← (← scopeIds).mapM ScopeId.report
  let globals := sortNames (← program.data).globals
  let records ← (← root.completionRecords).filterMapM fun p => do
    match ← p.node? with
    | some id => do pure (some (← ask fun t => t.nodeText? id))
    | none => pure none
  let visitor := Visitor.empty.on .enter (.type .identifier) noteType
  let (_, types) ← WalkM.runOn (traverse visitor) []
  pure { scopes, globals, completionRecords := records, identifierTypes := types }

/-- What is said when the walk of a report is refused. -/
def inspectHeadline : String := "failed to walk the program"

/-- The text of a scope name. -/
def ScopeId.text (s : ScopeId) : String := "#" ++ numberText s.index

namespace Report

/-! ## Text -/

/-- Lines, each with its end. -/
def lines (ls : List String) : String := String.join (ls.map fun l => l ++ "\n")

/-- The line of a binding. -/
def bindingLine (b : BindingReport) : String :=
  "    " ++ b.name ++ ": " ++ b.kind.name ++ ", "
    ++ (if b.constant then "constant" else "reassigned")
    ++ ", references: " ++ numberText b.references

/-- The lines of a scope. -/
def scopeLines (s : ScopeReport) : List String :=
  let parent := match s.parent with
    | some parent => " (parent " ++ parent.text ++ ")"
    | none => ""
  ("  " ++ s.id.text ++ " " ++ s.block.name ++ parent) :: s.bindings.map bindingLine

/-- A report as text. -/
def text (r : Report) : String :=
  lines <| ["scopes:"] ++ r.scopes.flatMap scopeLines
    ++ (if r.globals = [] then [] else ["globals: " ++ ", ".intercalate r.globals])
    ++ ["completion records:"] ++ r.completionRecords.map (fun t => "  " ++ t)
    ++ ["identifier types:"] ++ r.identifierTypes.map (fun t => "  " ++ t.name ++ ": " ++ t.type)

/-! ## JSON -/

/-- A binding as an object. -/
def bindingJson (b : BindingReport) : Json :=
  .obj [("name", .str b.name), ("kind", .str b.kind.name), ("constant", .bool b.constant),
    ("references", .ofNat b.references)]

/-- A scope as an object. -/
def scopeJson (s : ScopeReport) : Json :=
  .obj [("id", .ofNat s.id.index), ("block", .str s.block.name),
    ("parent", .ofOption (fun p => .ofNat p.index) s.parent),
    ("bindings", .arr (s.bindings.map bindingJson))]

/-- A report as an object. -/
def toJson (r : Report) : Json :=
  .obj [("scopes", .arr (r.scopes.map scopeJson)), ("globals", .arr (r.globals.map .str)),
    ("completion_records", .arr (r.completionRecords.map .str)),
    ("identifier_types", .arr (r.identifierTypes.map fun t =>
      .obj [("name", .str t.name), ("type", .str t.type)]))]

end Report

end Espalier
