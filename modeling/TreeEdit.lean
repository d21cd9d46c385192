import TreeEdit.Main
import TreeEdit.Proofs.NodeRef
import TreeEdit.Proofs.Engine.Basic
import TreeEdit.Proofs.Engine.Deletion
import TreeEdit.Proofs.Engine.Paste
import TreeEdit.Proofs.Tree.Siblings
import TreeEdit.Proofs.Tree.Steps
import TreeEdit.Proofs.Engine.Coherence
import TreeEdit.Proofs.Session
import TreeEdit.Proofs.Tree.Visible
import TreeEdit.Proofs.Tree.Travel
import TreeEdit.Proofs.Engine.Navigation
import TreeEdit.Proofs.Tree.Place
import TreeEdit.Proofs.Reachable
import TreeEdit.Proofs.Tree.Count
import TreeEdit.Proofs.Totality
import TreeEdit.Proofs.KillRing
import TreeEdit.Proofs.Buffer.Apply
import TreeEdit.Proofs.Buffer.Revision
import TreeEdit.Proofs.Engine.Highlight
import TreeEdit.Proofs.Looking
import TreeEdit.Proofs.Command
import TreeEdit.Proofs.Engine.Sequence
import TreeEdit.Proofs.Modes
import TreeEdit.Proofs.Cli.Diff
import TreeEdit.Proofs.Cli.Run
import TreeEdit.Proofs.Engine.Settle
import TreeEdit.Proofs.Engine.Neighbour
import TreeEdit.Proofs.Engine.Pasted
import TreeEdit.Proofs.Text.Crlf
import TreeEdit.Proofs.Engine.Terminators
import TreeEdit.Proofs.Text.Rebase
import TreeEdit.Proofs.Buffer.Lines
import TreeEdit.Proofs.Tree.Way
import TreeEdit.Proofs.Engine.Saturation
import TreeEdit.Proofs.Engine.Effective
import TreeEdit.Proofs.Tree.Topmost
import TreeEdit.Proofs.Buffer.Undo
import TreeEdit.Proofs.Buffer.Disjoint
import TreeEdit.Proofs.Engine.Predicates
import TreeEdit.Proofs.Engine.Copying
import TreeEdit.Proofs.Config
import TreeEdit.Proofs.Text.Block
import TreeEdit.Proofs.Buffer.Rejection
import TreeEdit.Proofs.Tree.Named
import TreeEdit.Proofs.Buffer.Change
import TreeEdit.Proofs.Buffer.Indentation
