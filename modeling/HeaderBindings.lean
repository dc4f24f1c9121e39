import HeaderBindings.Files.Tree
import HeaderBindings.Main
import HeaderBindings.Tree.Declarations
import HeaderBindings.Proofs.Script.Coverage
import HeaderBindings.Proofs.Script.Hiding
import HeaderBindings.Proofs.Declaration.Method
import HeaderBindings.Proofs.Declaration.Property
import HeaderBindings.Proofs.Declaration.ClassHeader
import HeaderBindings.Proofs.Declaration.Comment
import HeaderBindings.Proofs.Model.Merging
import HeaderBindings.Proofs.Run.Independence
import HeaderBindings.Proofs.Arrangement.Keys
import HeaderBindings.Proofs.Arrangement.Blanks
import HeaderBindings.Proofs.Arrangement.Passages
import HeaderBindings.Proofs.Arrangement.Order
import HeaderBindings.Proofs.Arrangement.Rereading
import HeaderBindings.Proofs.Arrangement.Settling
import HeaderBindings.Proofs.Script.Layout
import HeaderBindings.Proofs.Arrangement.Emission
import HeaderBindings.Proofs.Arrangement.Agreement
import HeaderBindings.Proofs.Plan.Slots
import HeaderBindings.Proofs.Script.Uniqueness
import HeaderBindings.Proofs.Header.Comments
import HeaderBindings.Proofs.Header.Declarations
import HeaderBindings.Proofs.Script.Hygiene
import HeaderBindings.Proofs.Header.Skipping
import HeaderBindings.Proofs.Header.Forward
import HeaderBindings.Proofs.Header.Documentation
import HeaderBindings.Proofs.Header.Ledger
import HeaderBindings.Proofs.Plan.Shape
import HeaderBindings.Proofs.Run.Failing
import HeaderBindings.Proofs.Run.Closure
import HeaderBindings.Proofs.Tree.Agreement
import HeaderBindings.Proofs.Run.History
import HeaderBindings.Proofs.Declaration.Labels
import HeaderBindings.Proofs.Plan.Setters
import HeaderBindings.Proofs.Declaration.Blocks
import HeaderBindings.Proofs.Declaration.Canonical
import HeaderBindings.Proofs.Declaration.InnerWords
import HeaderBindings.Proofs.Declaration.Availability
import HeaderBindings.Proofs.Script.Unions
import HeaderBindings.Proofs.Script.Arguments
import HeaderBindings.Proofs.Script.Parameters
import HeaderBindings.Proofs.Header.Containment
import HeaderBindings.Proofs.Header.Transparency
import HeaderBindings.Proofs.Header.Locations
import HeaderBindings.Proofs.Tree.Accounting
import HeaderBindings.Proofs.Run.Single
import HeaderBindings.Proofs.Header.Methods
import HeaderBindings.Proofs.Run.Collecting
import HeaderBindings.Proofs.Checked.Lines
