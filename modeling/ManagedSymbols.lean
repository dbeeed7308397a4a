import ManagedSymbols.Layout.Module
import ManagedSymbols.ModuleSymbols
import ManagedSymbols.Session
import ManagedSymbols.Proofs.Reader.Held
import ManagedSymbols.Proofs.Reader.Texts
import ManagedSymbols.Proofs.Layout.Locals
import ManagedSymbols.Proofs.Layout.Metadata
import ManagedSymbols.Proofs.Record.Scan
import ManagedSymbols.Proofs.Layout.Body
import ManagedSymbols.Proofs.Method.Gather
import ManagedSymbols.Proofs.Layout.Method
import ManagedSymbols.Proofs.Layout.Module
import ManagedSymbols.Proofs.Reader.Success
import ManagedSymbols.Proofs.Record.Walks
import ManagedSymbols.Proofs.Record.Tiling
import ManagedSymbols.Proofs.Scope.Nesting
import ManagedSymbols.Proofs.Body.Steps
import ManagedSymbols.Proofs.Module.Reached
import ManagedSymbols.Proofs.Module.Counts
import ManagedSymbols.Proofs.Reader.Extents
import ManagedSymbols.Proofs.Module.Confinement
import ManagedSymbols.Proofs.Record.Protocol
import ManagedSymbols.Proofs.Module.Adjoining
import ManagedSymbols.Proofs.Reader.Safe
import ManagedSymbols.Proofs.Record.Safe
import ManagedSymbols.Proofs.Module.Safe
import ManagedSymbols.Proofs.Module.Landing
import ManagedSymbols.Proofs.Module.Charges
import ManagedSymbols.Proofs.Module.Vendors
import ManagedSymbols.Proofs.Reader.Agreement
import ManagedSymbols.Proofs.Record.Agreement
import ManagedSymbols.Proofs.Module.DepthLimit
import ManagedSymbols.Proofs.Module.Options
import ManagedSymbols.Layout.MetadataForm
import ManagedSymbols.Proofs.Buffer.Agreement
import ManagedSymbols.Proofs.Reader.Forward
import ManagedSymbols.Proofs.Reader.Settled
import ManagedSymbols.Proofs.Record.Transfer
import ManagedSymbols.Proofs.Record.Forward
import ManagedSymbols.Proofs.Record.Payload
import ManagedSymbols.Proofs.Record.Limit
import ManagedSymbols.Proofs.Body.Limit
import ManagedSymbols.Proofs.Module.Forward
import ManagedSymbols.Proofs.Reader.Alignment
import ManagedSymbols.Proofs.Metadata.Places
import ManagedSymbols.Proofs.Reader.Moved
import ManagedSymbols.Proofs.Metadata.Standalone
import ManagedSymbols.Proofs.Reader.Alike
import ManagedSymbols.Proofs.Record.Larger
import ManagedSymbols.Proofs.Body.Measure
import ManagedSymbols.Proofs.Scope.Innermost
import ManagedSymbols.Proofs.Method.VisualBasic
import ManagedSymbols.Proofs.Method.Metadata
import ManagedSymbols.Proofs.Reader.Sized
import ManagedSymbols.Proofs.Metadata.Synchronization
import ManagedSymbols.Proofs.Reader.Sound
import ManagedSymbols.Proofs.Layout.Leaves
import ManagedSymbols.Proofs.Scope.Preorder
import ManagedSymbols.Proofs.Session.Cursor
import ManagedSymbols.Proofs.Reader.Utf16
import ManagedSymbols.Proofs.Text.WellFormed
import ManagedSymbols.Proofs.Reader.Utf8
import ManagedSymbols.Proofs.Method.Order
