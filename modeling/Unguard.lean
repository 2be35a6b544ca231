import Unguard.Attribute
import Unguard.Body
import Unguard.Check
import Unguard.Command.Folder
import Unguard.Command.Request
import Unguard.Command.Run
import Unguard.Fault
import Unguard.Graph.Basic
import Unguard.Graph.Copy
import Unguard.Graph.Edit
import Unguard.Graph.Erase
import Unguard.Graph.Tree
import Unguard.Graph.Uses
import Unguard.Graph.Visit
import Unguard.Id
import Unguard.Lower.Conditional
import Unguard.Lower.DeadCode
import Unguard.Lower.Describe
import Unguard.Lower.Failure
import Unguard.Lower.Guard
import Unguard.Lower.Hoist
import Unguard.Lower.Record
import Unguard.Lower.Rounds
import Unguard.Lower.Stages
import Unguard.Main
import Unguard.Name
import Unguard.Number.Binary64
import Unguard.Number.Decimal
import Unguard.Number.Shortest
import Unguard.OpSet
import Unguard.Operator
import Unguard.Proofs.Assignments
import Unguard.Proofs.BasicEdits
import Unguard.Proofs.Building
import Unguard.Proofs.Canonical
import Unguard.Proofs.Checking
import Unguard.Proofs.Conditionals
import Unguard.Proofs.Constants
import Unguard.Proofs.Converging
import Unguard.Proofs.Copying
import Unguard.Proofs.Decimals
import Unguard.Proofs.Definitions
import Unguard.Proofs.Drafting
import Unguard.Proofs.Edits
import Unguard.Proofs.Erasing
import Unguard.Proofs.FaithfulCopies
import Unguard.Proofs.Growing
import Unguard.Proofs.Guards
import Unguard.Proofs.HashConsing
import Unguard.Proofs.Hoisting
import Unguard.Proofs.Idle
import Unguard.Proofs.Inserting
import Unguard.Proofs.Integers
import Unguard.Proofs.Interning
import Unguard.Proofs.LastingSites
import Unguard.Proofs.Layout
import Unguard.Proofs.LayoutFree
import Unguard.Proofs.Lexemes
import Unguard.Proofs.Lines
import Unguard.Proofs.Links
import Unguard.Proofs.Lowering
import Unguard.Proofs.Marks
import Unguard.Proofs.Mismatches
import Unguard.Proofs.NameErrors
import Unguard.Proofs.Needed
import Unguard.Proofs.Numbering
import Unguard.Proofs.Observing
import Unguard.Proofs.Passes
import Unguard.Proofs.Positions
import Unguard.Proofs.Printable
import Unguard.Proofs.Printing
import Unguard.Proofs.Reachability
import Unguard.Proofs.ReadMarks
import Unguard.Proofs.Reading
import Unguard.Proofs.ReadingBack
import Unguard.Proofs.Rebuilding
import Unguard.Proofs.RecodedRuns
import Unguard.Proofs.RecodedText
import Unguard.Proofs.Recoding
import Unguard.Proofs.Refinement
import Unguard.Proofs.Refusing
import Unguard.Proofs.Relabeling
import Unguard.Proofs.Repeating
import Unguard.Proofs.Represents
import Unguard.Proofs.Resuming
import Unguard.Proofs.Rewriting
import Unguard.Proofs.RoundTrip
import Unguard.Proofs.Rounds
import Unguard.Proofs.Running
import Unguard.Proofs.Safety
import Unguard.Proofs.SameText
import Unguard.Proofs.Scopes
import Unguard.Proofs.SlotChains
import Unguard.Proofs.Splicing
import Unguard.Proofs.Standing
import Unguard.Proofs.Subtrees
import Unguard.Proofs.Sweeping
import Unguard.Proofs.Tables
import Unguard.Proofs.TextLines
import Unguard.Proofs.Trails
import Unguard.Proofs.Trees
import Unguard.Proofs.TypeConstants
import Unguard.Proofs.Typing
import Unguard.Proofs.Unambiguous
import Unguard.Proofs.Unfolding
import Unguard.Proofs.Visibility
import Unguard.Proofs.Walking
import Unguard.Proofs.Writable
import Unguard.Text.Draft
import Unguard.Text.Formless
import Unguard.Text.Grammar
import Unguard.Text.Lexeme
import Unguard.Text.Outline
import Unguard.Text.Reader
import Unguard.Text.Resolve
import Unguard.Text.Writer
import Unguard.Traverse
import Unguard.TypeTable
