import Monomorph.Annots
import Monomorph.Arena
import Monomorph.CallGraph
import Monomorph.Catalogue
import Monomorph.Check
import Monomorph.CommandLine
import Monomorph.Compilation
import Monomorph.Diagnostic
import Monomorph.Digest
import Monomorph.Expansion
import Monomorph.Instance
import Monomorph.Json.Basic
import Monomorph.Json.Definition
import Monomorph.Json.Printer
import Monomorph.Json.Result
import Monomorph.Main
import Monomorph.Options
import Monomorph.Proofs.Association
import Monomorph.Proofs.Check.Accepted
import Monomorph.Proofs.Check.Completeness
import Monomorph.Proofs.Check.Growth
import Monomorph.Proofs.Check.Order
import Monomorph.Proofs.Check.Reachability
import Monomorph.Proofs.Check.WellFormed
import Monomorph.Proofs.Compilation.Diagnostics
import Monomorph.Proofs.Compilation.Run
import Monomorph.Proofs.Compilation.Text
import Monomorph.Proofs.Expansion.Body
import Monomorph.Proofs.Expansion.Cycles
import Monomorph.Proofs.Expansion.Demand
import Monomorph.Proofs.Expansion.Erasure
import Monomorph.Proofs.Expansion.Faultless
import Monomorph.Proofs.Expansion.Finiteness
import Monomorph.Proofs.Expansion.Flat
import Monomorph.Proofs.Expansion.Growth
import Monomorph.Proofs.Expansion.Heads
import Monomorph.Proofs.Expansion.Library
import Monomorph.Proofs.Expansion.Meaning
import Monomorph.Proofs.Expansion.Monotone
import Monomorph.Proofs.Expansion.NormalForm
import Monomorph.Proofs.Expansion.Order
import Monomorph.Proofs.Expansion.Outcome
import Monomorph.Proofs.Expansion.Parts
import Monomorph.Proofs.Expansion.Preservation
import Monomorph.Proofs.Expansion.Proper
import Monomorph.Proofs.Expansion.Reaches
import Monomorph.Proofs.Expansion.Reading
import Monomorph.Proofs.Expansion.Result
import Monomorph.Proofs.Expansion.Run
import Monomorph.Proofs.Expansion.Shape
import Monomorph.Proofs.Expansion.Step
import Monomorph.Proofs.Expansion.Table
import Monomorph.Proofs.Expansion.Termination
import Monomorph.Proofs.Expansion.Tidy
import Monomorph.Proofs.Expansion.Use
import Monomorph.Proofs.Expansion.Visits
import Monomorph.Proofs.Expansion.WellFormed
import Monomorph.Proofs.Hygiene.Canonical
import Monomorph.Proofs.Hygiene.Expansion
import Monomorph.Proofs.Hygiene.Parameters
import Monomorph.Proofs.Hygiene.Substitution
import Monomorph.Proofs.Json.Edits
import Monomorph.Proofs.Json.Reading
import Monomorph.Proofs.Json.Roles
import Monomorph.Proofs.Json.RoundTrip
import Monomorph.Proofs.Lexing.Partition
import Monomorph.Proofs.Lexing.Places
import Monomorph.Proofs.Lexing.Seams
import Monomorph.Proofs.Lexing.Spacing
import Monomorph.Proofs.Lexing.Stretches
import Monomorph.Proofs.Lexing.Within
import Monomorph.Proofs.Printing.Legality
import Monomorph.Proofs.Printing.RoundTrip
import Monomorph.Proofs.Printing.Scanner
import Monomorph.Proofs.Printing.Words
import Monomorph.Proofs.Signature.Balanced
import Monomorph.Proofs.Signature.Identity
import Monomorph.Proofs.Signature.Nesting
import Monomorph.Proofs.Signature.Readback
import Monomorph.Proofs.StandardName.Numbering
import Monomorph.Proofs.StandardName.OnDemand
import Monomorph.Proofs.StandardName.Origins
import Monomorph.Proofs.StandardName.Renaming
import Monomorph.Proofs.StandardName.Standardized
import Monomorph.Proofs.StandardName.Writable
import Monomorph.Proofs.Substitution.Calls
import Monomorph.Proofs.Substitution.Replacement
import Monomorph.Proofs.Surface.Agreement
import Monomorph.Proofs.Surface.Backtracking
import Monomorph.Proofs.Surface.Combinators
import Monomorph.Proofs.Surface.Derivable
import Monomorph.Proofs.Surface.Derivation
import Monomorph.Proofs.Surface.Descent
import Monomorph.Proofs.Surface.Expected
import Monomorph.Proofs.Surface.Foresight
import Monomorph.Proofs.Surface.Grammar
import Monomorph.Proofs.Surface.Items
import Monomorph.Proofs.Surface.Phrases
import Monomorph.Proofs.Surface.Reading
import Monomorph.Proofs.Surface.Soundness
import Monomorph.Proofs.Table.Arena
import Monomorph.Proofs.Table.History
import Monomorph.Proofs.Text.Lines
import Monomorph.Proofs.TypeExpr.Finite
import Monomorph.Proofs.TypeExpr.InTurn
import Monomorph.Proofs.TypeExpr.Spelling
import Monomorph.Proofs.TypeExpr.Variables
import Monomorph.Proofs.TypeExpr.Vocabulary
import Monomorph.Provenance
import Monomorph.Source
import Monomorph.StandardName
import Monomorph.Surface.Basic
import Monomorph.Surface.Descent
import Monomorph.Surface.Matcher
import Monomorph.Surface.Parser
import Monomorph.Table
import Monomorph.Text.Position
import Monomorph.Text.Printable
import Monomorph.Text.Quoted
import Monomorph.Text.Visible
import Monomorph.Token
import Monomorph.Token.Lexer
import Monomorph.TypeExpr.Basic
import Monomorph.TypeExpr.Normal
import Monomorph.TypeExpr.Printer
import Monomorph.TypeExpr.Renaming
import Monomorph.TypeExpr.Substitution
import Monomorph.TypeExpr.Traversal
