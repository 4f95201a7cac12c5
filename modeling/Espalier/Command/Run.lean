import Espalier.Command.Arguments
import Espalier.Command.Load
import Espalier.Report
import Espalier.Rule.Builtin
import Espalier.Syntax.Encode

set_option autoImplicit false

/-! # Running commands

A request is answered from the content of its file alone: the answer is the exit code and the two
texts that are written. -/

namespace Espalier

/-- What a run of the program writes, and its exit code. -/
structure Outcome where
  code : Nat
  output : String := ""
  errors : String := ""
deriving DecidableEq, Repr

namespace Outcome

/-- A run that was refused, with the reason. -/
def refused (reason : String) : Outcome := { code := 1, errors := "Error: " ++ reason ++ "\n" }

/-- A run that broke off, because the tree names nodes that it does not hold. -/
def brokenOff : Outcome := { code := 101, errors := "the tree names a node that is not there\n" }

/-- The name and version of the program. -/
def versionText : String := "sapling 0.1.0\n"

/-- How the program is called. -/
def usageText : String := Report.lines [
  "Usage: sapling [OPTIONS] <COMMAND>",
  "",
  "Commands:",
  "  print FILE                       Render the program as source text",
  "  inspect FILE [--json]            Report scopes, completion records and inferred types",
  "  transform FILE -r NAME [--json]  Run built-in rules",
  "",
  "Options:",
  "  -v, --verbose            Enable debug logging",
  "      --max-depth <DEPTH>  Maximum nesting depth a traversal may reach",
  "      --noscope            Defer scope crawling until a scope is queried",
  "  -h, --help               Print help",
  "  -V, --version            Print version"]

/-- The answer to a command line without a request. -/
def ofEnding : Ending → Outcome
  | .help => { code := 0, output := usageText }
  | .version => { code := 0, output := versionText }
  | .misuse => { code := 2, errors := usageText }

end Outcome

namespace Request

/-- The choices for the session of a request. -/
def config (r : Request) : Config :=
  let usual : Config := {}
  { usual with lazyScopes := r.lazyScopes, maxDepth := r.maxDepth.getD usual.maxDepth }

/-- The text of the program, as a line of its own. -/
def sourceLine : SessionM String := do
  pure ((← SessionM.ask Tree.programText?) ++ "\n")

/-- Report on the program. -/
def answerInspect (r : Request) : SessionM Outcome := do
  let report ← inspect
  pure { code := 0, output := if r.json then report.toJson.pretty ++ "\n" else report.text }

/-- What was done, in a line. -/
def summaryLine (s : Summary) : String :=
  numberText s.mutations ++ " mutations from " ++ numberText s.rulesRun ++ " rules\n"

/-- Run rules on the program and write it. -/
def answerTransform (r : Request) : SessionM Outcome := do
  match ← transformByName r.rules with
  | .error e => pure (.refused e.headline)
  | .ok summary =>
    let output ← if r.json then do pure ((← get).tree.jsonText ++ "\n") else sourceLine
    pure { code := 0, output, errors := if r.verbose then summaryLine summary else "" }

/-- Carry out a request on a session. -/
def answer (r : Request) : SessionM Outcome :=
  match r.command with
  | .print => do pure { code := 0, output := ← sourceLine }
  | .inspect => r.answerInspect
  | .transform => r.answerTransform

/-- The outcome of a request on a tree. The walk of a report is all that can still be refused. -/
def runOn (r : Request) (t : Tree) : Outcome :=
  match Session.open? t r.config with
  | .error _ => .brokenOff
  | .ok session =>
    match r.answer session with
    | .ok outcome _ => outcome
    | .error (.refused _) _ => .refused inspectHeadline
    | .error _ _ => .brokenOff

/-- The outcome of a request, given the content of its file. -/
def run (r : Request) (content : Option String) : Outcome :=
  match Tree.load content with
  | .error e => .refused (e.message r.file)
  | .ok t => r.runOn t

end Request

end Espalier
