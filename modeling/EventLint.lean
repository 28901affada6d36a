import EventLint.Text.Basic
import EventLint.Text.Blank
import EventLint.Text.Numeric
import EventLint.Text.Word
import EventLint.Token.Kind
import EventLint.Token.Scan
import EventLint.Tree.Basic
import EventLint.Tree.TypeName
import EventLint.Tree.Member
import EventLint.Tree.Declaration
import EventLint.Document
import EventLint.Event.Backing
import EventLint.Diagnostic
import EventLint.Edit
import EventLint.Session
import EventLint.Discovery
import EventLint.Config
import EventLint.Main
import EventLint.Proofs.Lossless
import EventLint.Proofs.Layout
import EventLint.Proofs.ProgramReading
import EventLint.Proofs.RemoveModifier
import EventLint.Proofs.Extraction
import EventLint.Proofs.Convergence
import EventLint.Proofs.Literals
import EventLint.Proofs.DryRun
import EventLint.Proofs.GlobalAttribute
import EventLint.Proofs.TokenExact
import EventLint.Proofs.FixSafety
import EventLint.Proofs.SiblingMethod
import EventLint.Proofs.Lookup
import EventLint.Proofs.BackingField
import EventLint.Proofs.LineSuppression
import EventLint.Proofs.Collected
import EventLint.Proofs.ByteOrderMark
import EventLint.Proofs.ListedIds
import EventLint.Proofs.QueueOrder
import EventLint.Proofs.Pruning
import EventLint.Proofs.Loops
import EventLint.Proofs.Assignments
import EventLint.Proofs.EventNames
