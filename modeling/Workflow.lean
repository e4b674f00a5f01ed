import Workflow.Execution
import Workflow.File.Store
import Workflow.Main
import Workflow.Proofs.Scope.Soundness
import Workflow.Proofs.Reference.Atoms
import Workflow.Proofs.Condition.Words
import Workflow.Proofs.Program.Lookup
import Workflow.Proofs.Condition.LookupReading
import Workflow.Proofs.Condition.Exposure
import Workflow.Proofs.Document.Fields
import Workflow.Proofs.Document.Schema
import Workflow.Proofs.Document.Reading
import Workflow.Proofs.Document.Lawful
import Workflow.Proofs.Document.SpecReading
import Workflow.Proofs.Document.Acceptance
import Workflow.Proofs.Value.RoundTrip
import Workflow.Proofs.Document.Canonical
import Workflow.Proofs.Program.Lexing
import Workflow.Proofs.Program.Conditions
import Workflow.Proofs.Program.Layout
import Workflow.Proofs.Program.Lines
import Workflow.Proofs.Program.TreeCode
import Workflow.Proofs.Program.Parts
import Workflow.Proofs.Program.Functions
import Workflow.Proofs.Program.Generation
import Workflow.Proofs.CommandLine.Agreement
import Workflow.Proofs.Document.Grammar
import Workflow.Proofs.Limits.Visits
import Workflow.Proofs.Scope.Occurrences
import Workflow.Proofs.Document.Conformance
import Workflow.Proofs.Secret.Redaction
import Workflow.Proofs.Secret.Independence
import Workflow.Proofs.Program.Indentation
import Workflow.Proofs.Program.Outline
import Workflow.Proofs.Program.ReadBack
import Workflow.Proofs.Program.Structure
import Workflow.Proofs.Program.ConditionLines
import Workflow.Proofs.Scope.ClosedForm
import Workflow.Proofs.Document.Presentation
import Workflow.Proofs.Document.IssuePaths
import Workflow.Proofs.Scope.Overlooked
import Workflow.Proofs.Program.CallSyntax
import Workflow.Proofs.Program.CallReading
import Workflow.Proofs.Program.CallMeaning
import Workflow.Proofs.Program.Fragments
import Workflow.Proofs.Program.Insertions
import Workflow.Proofs.Scope.Detours
import Workflow.Proofs.Scope.SitePaths
import Workflow.Proofs.Scope.Retracing
import Workflow.Proofs.Scope.Settled
import Workflow.Proofs.Scope.Precision
import Workflow.Proofs.Reference.Segments
import Workflow.Proofs.Text.Words
import Workflow.Proofs.Condition.Denial
import Workflow.Proofs.Condition.Formula
import Workflow.Proofs.Program.LocalFunctions
import Workflow.Proofs.Program.Scoping
import Workflow.Proofs.Program.Naming
import Workflow.Proofs.Program.NameResolution
import Workflow.Proofs.Document.Shape
import Workflow.Proofs.Limits.Exactness
import Workflow.Proofs.Program.Announcements
import Workflow.Proofs.Program.EnvironmentExpressions
import Workflow.Proofs.Program.EnvironmentReads
import Workflow.Proofs.Secret.Environment
import Workflow.Proofs.Limits.Walk
