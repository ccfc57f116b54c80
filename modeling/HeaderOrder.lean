import HeaderOrder.Main
import HeaderOrder.Workspace.Memory
import HeaderOrder.Disk.FileTree
import HeaderOrder.Proofs.Idempotence
import HeaderOrder.Proofs.Copies
import HeaderOrder.Proofs.LineEnding
import HeaderOrder.Proofs.Path
import HeaderOrder.Proofs.Steady
import HeaderOrder.Proofs.Undo
import HeaderOrder.Proofs.Operation
import HeaderOrder.Proofs.History
import HeaderOrder.Proofs.Target
import HeaderOrder.Proofs.FileTree
import HeaderOrder.Proofs.Replacement
import HeaderOrder.Proofs.Message
import HeaderOrder.Proofs.Reply
import HeaderOrder.Proofs.Script
import HeaderOrder.Proofs.Arguments
import HeaderOrder.Proofs.Run
import HeaderOrder.Proofs.ScanThenSync
import HeaderOrder.Proofs.SyncCall
import HeaderOrder.Proofs.Writes
import HeaderOrder.Proofs.Prototype
import HeaderOrder.Proofs.Alias
import HeaderOrder.Proofs.Manifest
import HeaderOrder.Proofs.Location
import HeaderOrder.Proofs.BlockEnd
import HeaderOrder.Proofs.Pieces
import HeaderOrder.Proofs.Braces
import HeaderOrder.Proofs.Glob
import HeaderOrder.Proofs.Candidates
import HeaderOrder.Proofs.Locality
import HeaderOrder.Proofs.NormalForm
import HeaderOrder.Proofs.RootRelative
import HeaderOrder.Proofs.Grammar
import HeaderOrder.Proofs.BlankLines
import HeaderOrder.Proofs.FileRegister
import HeaderOrder.Proofs.Unreadable
import HeaderOrder.Proofs.SyncLog
import HeaderOrder.Proofs.ArgumentGrammar
