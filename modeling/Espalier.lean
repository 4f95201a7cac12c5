import Espalier.Analysis.Execution
import Espalier.Analysis.Inference
import Espalier.Analysis.Resolve
import Espalier.Command.Arguments
import Espalier.Command.Load
import Espalier.Command.Run
import Espalier.Decimal.Double
import Espalier.Decimal.Notation
import Espalier.Decimal.Shortest
import Espalier.Dotted
import Espalier.Edit.Insert
import Espalier.Edit.Place
import Espalier.Edit.Reduce
import Espalier.Edit.Remove
import Espalier.Edit.Replace
import Espalier.Failure
import Espalier.Json.Basic
import Espalier.Json.Parser
import Espalier.Json.Printer
import Espalier.Json.Shape
import Espalier.Json.Skip
import Espalier.Json.Token
import Espalier.Main
import Espalier.Path.Facts
import Espalier.Path.Family
import Espalier.Path.Navigate
import Espalier.Path.Resync
import Espalier.Proofs.Accounts
import Espalier.Proofs.Answers
import Espalier.Proofs.Arrivals
import Espalier.Proofs.Binders
import Espalier.Proofs.Blocks
import Espalier.Proofs.Callers
import Espalier.Proofs.Charting
import Espalier.Proofs.Circles
import Espalier.Proofs.Clients
import Espalier.Proofs.ClosedNavigation
import Espalier.Proofs.ClosedQuestions
import Espalier.Proofs.Closure
import Espalier.Proofs.Commands
import Espalier.Proofs.Composition
import Espalier.Proofs.Constants
import Espalier.Proofs.Crawl
import Espalier.Proofs.Cutoff
import Espalier.Proofs.Declaring
import Espalier.Proofs.EditUpkeep
import Espalier.Proofs.Editing
import Espalier.Proofs.Edits
import Espalier.Proofs.Enclosing
import Espalier.Proofs.Forest
import Espalier.Proofs.Grammar
import Espalier.Proofs.Handles
import Espalier.Proofs.Inlining
import Espalier.Proofs.Insertion
import Espalier.Proofs.Interchange
import Espalier.Proofs.Lexical
import Espalier.Proofs.ListEdits
import Espalier.Proofs.Material
import Espalier.Proofs.Members
import Espalier.Proofs.NamePlaces
import Espalier.Proofs.Naming
import Espalier.Proofs.Navigation
import Espalier.Proofs.Numerals
import Espalier.Proofs.Observing
import Espalier.Proofs.Order
import Espalier.Proofs.Passes
import Espalier.Proofs.Placing
import Espalier.Proofs.Precedence
import Espalier.Proofs.Printing
import Espalier.Proofs.Prudence
import Espalier.Proofs.Pruning
import Espalier.Proofs.Questions
import Espalier.Proofs.Recording
import Espalier.Proofs.Reduction
import Espalier.Proofs.Refusals
import Espalier.Proofs.Rekeying
import Espalier.Proofs.Relisting
import Espalier.Proofs.Removal
import Espalier.Proofs.Replanting
import Espalier.Proofs.Rereading
import Espalier.Proofs.Resolution
import Espalier.Proofs.Roaming
import Espalier.Proofs.Scopes
import Espalier.Proofs.Scoping
import Espalier.Proofs.Searches
import Espalier.Proofs.Sequencing
import Espalier.Proofs.Sharing
import Espalier.Proofs.Staleness
import Espalier.Proofs.Steadiness
import Espalier.Proofs.Steering
import Espalier.Proofs.Stopping
import Espalier.Proofs.Subtrees
import Espalier.Proofs.Succession
import Espalier.Proofs.Survey
import Espalier.Proofs.Tidiness
import Espalier.Proofs.Tours
import Espalier.Proofs.Uids
import Espalier.Proofs.Upkeep
import Espalier.Proofs.Uprooting
import Espalier.Proofs.Walk
import Espalier.Proofs.WalkUpkeep
import Espalier.Report
import Espalier.Rule.Basic
import Espalier.Rule.Builtin
import Espalier.Scope.Basic
import Espalier.Scope.Crawl
import Espalier.Scope.Declare
import Espalier.Scope.Uid
import Espalier.Session.Basic
import Espalier.Syntax.Build
import Espalier.Syntax.Decode
import Espalier.Syntax.Encode
import Espalier.Syntax.Field
import Espalier.Syntax.Node
import Espalier.Syntax.NodeType
import Espalier.Syntax.Operator
import Espalier.Syntax.Parens
import Espalier.Syntax.Printer
import Espalier.Syntax.Query
import Espalier.Syntax.Tree
import Espalier.Syntax.ValueType
import Espalier.Table
import Espalier.Walk.Traverse
import Espalier.Walk.Visitor
import Espalier.Proofs.ClosedScopes
import Espalier.Proofs.ClosedTrees
import Espalier.Proofs.ClosedAnalysis
import Espalier.Proofs.Ascents
import Espalier.Proofs.Nesting
import Espalier.Proofs.Completions
import Espalier.Proofs.ClosedBuilding
import Espalier.Proofs.Copies
import Espalier.Proofs.Renaming
import Espalier.Proofs.Statements
import Espalier.Proofs.Agreement
import Espalier.Proofs.Trails
import Espalier.Proofs.Pursuit
import Espalier.Proofs.Settling
import Espalier.Proofs.ClosedEditing
import Espalier.Proofs.ClosedDeclaring
import Espalier.Proofs.ClosedWalks
import Espalier.Proofs.ClosedReplacement
import Espalier.Proofs.ClosedRules
import Espalier.Proofs.ClosedPrograms
import Espalier.Proofs.Arrows
import Espalier.Proofs.Pooling
import Espalier.Proofs.Chains
import Espalier.Proofs.Resyncing
import Espalier.Proofs.Siblings
import Espalier.Proofs.Unions
import Espalier.Proofs.Requests
import Espalier.Proofs.Results
import Espalier.Proofs.Warmth
