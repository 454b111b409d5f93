import ThreeAddress.Binary64.Basic
import ThreeAddress.Binary64.Numeral
import ThreeAddress.Binary64.Shortest
import ThreeAddress.CommandLine.Arguments
import ThreeAddress.CommandLine.Diagnostic
import ThreeAddress.CommandLine.Report
import ThreeAddress.Event
import ThreeAddress.Listing.Basic
import ThreeAddress.Listing.Edit
import ThreeAddress.Listing.WellFormed
import ThreeAddress.Main
import ThreeAddress.NumberSet
import ThreeAddress.Numbering
import ThreeAddress.Operand
import ThreeAddress.Operator
import ThreeAddress.Proofs.Acceptance
import ThreeAddress.Proofs.Acyclicity
import ThreeAddress.Proofs.AllOrNothing
import ThreeAddress.Proofs.Editing
import ThreeAddress.Proofs.Execution
import ThreeAddress.Proofs.ExprTree
import ThreeAddress.Proofs.Faithfulness
import ThreeAddress.Proofs.Grammar
import ThreeAddress.Proofs.LinearUse
import ThreeAddress.Proofs.Occurrences
import ThreeAddress.Proofs.Outline
import ThreeAddress.Proofs.ReadSteps
import ThreeAddress.Proofs.Reconstruction
import ThreeAddress.Proofs.Syntax
import ThreeAddress.Proofs.Unfolding
import ThreeAddress.Proofs.Words
import ThreeAddress.Statement.Failure
import ThreeAddress.Statement.Parse
import ThreeAddress.Statement.Reader
import ThreeAddress.Statement.Reading
import ThreeAddress.Text.Alphabetic
import ThreeAddress.Text.Blank
import ThreeAddress.Text.CharClass
import ThreeAddress.Text.Cursor
import ThreeAddress.Text.Numeric
import ThreeAddress.Text.Ranges
import ThreeAddress.Text.Utf8
import ThreeAddress.Tree.Basic
import ThreeAddress.Tree.Expansion
import ThreeAddress.Tree.Identity
import ThreeAddress.Tree.Node
import ThreeAddress.Tree.OfListings
import ThreeAddress.Tree.Walk
import ThreeAddress.Triad
import ThreeAddress.Proofs.Checking
import ThreeAddress.Proofs.EditedChecking
import ThreeAddress.Proofs.Merging
import ThreeAddress.Proofs.CheckedTrees
import ThreeAddress.Proofs.Breaks
import ThreeAddress.Proofs.Places
import ThreeAddress.Proofs.Rejection
import ThreeAddress.Proofs.Failures
import ThreeAddress.Proofs.InputAgreement
import ThreeAddress.Proofs.Recursion
import ThreeAddress.Proofs.Defects
import ThreeAddress.Proofs.LeafCache
import ThreeAddress.Proofs.RootByRoot
import ThreeAddress.Proofs.Rounding
import ThreeAddress.Proofs.Underlining
import ThreeAddress.Proofs.Sharing
import ThreeAddress.Proofs.Drawing
import ThreeAddress.Proofs.EditLaws
import ThreeAddress.Proofs.LookUp
import ThreeAddress.Proofs.OutlineReading
import ThreeAddress.Proofs.ReadOperands
import ThreeAddress.Proofs.ListingReading
import ThreeAddress.Proofs.EmissionLog
import ThreeAddress.Proofs.Scanning
import ThreeAddress.Proofs.StackBound
import ThreeAddress.Proofs.Points
import ThreeAddress.Proofs.Counters
