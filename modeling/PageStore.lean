import PageStore.Locking.Waking
import PageStore.Session.Basic
import PageStore.Proofs.Locking.Safety
import PageStore.Proofs.Row.RoundTrip
import PageStore.Proofs.Page.Bitmap
import PageStore.Proofs.Page.Sound
import PageStore.Proofs.Page.RoundTrip
import PageStore.Proofs.Disk.Pages
import PageStore.Proofs.Locking.Ownership
import PageStore.Proofs.Pool.Coherent
import PageStore.Proofs.Pool.Writeback
import PageStore.Proofs.Pool.Serving
import PageStore.Proofs.Interleaving.World
import PageStore.Proofs.Interleaving.Coherence
import PageStore.Proofs.Interleaving.Edits
import PageStore.Proofs.Pool.Calm
import PageStore.Proofs.Interleaving.Account
import PageStore.Proofs.Interleaving.Undo
import PageStore.Proofs.Serial.Committed
import PageStore.Proofs.Serial.Alone
import PageStore.Proofs.Serial.Replay
import PageStore.Proofs.Locking.Components
import PageStore.Proofs.Locking.WaitGraph
import PageStore.Proofs.Locking.Dispatch
import PageStore.Proofs.Locking.Deadlock
import PageStore.Proofs.Serial.Durable
import PageStore.Proofs.Interleaving.Reading
import PageStore.Proofs.Locking.Rest
import PageStore.Proofs.Page.Calls
import PageStore.Proofs.Pool.Reached
import PageStore.Proofs.Pool.WriteOrder
import PageStore.Proofs.Serial.BrokenCommit
import PageStore.Proofs.Row.Reading
import PageStore.Proofs.Page.Guarded
import PageStore.Proofs.Page.Reading
import PageStore.Proofs.Bytes.Checksum
import PageStore.Proofs.Page.Corruption
import PageStore.Proofs.Pool.Orderly
import PageStore.Proofs.Pool.InStep
import PageStore.Proofs.Pool.InsertTurns
import PageStore.Proofs.Pool.FailedInsert
import PageStore.Proofs.Locking.Stable
import PageStore.Proofs.Pool.Completion
import PageStore.Proofs.Interleaving.Appending
import PageStore.Proofs.Interleaving.Scanning
import PageStore.Proofs.Pool.Alike
import PageStore.Proofs.Pool.Transparent
import PageStore.Proofs.Disk.PageArray
import PageStore.Proofs.Page.Canonical
import PageStore.Proofs.Locking.Numbering
import PageStore.Proofs.Locking.Exact
import PageStore.Proofs.Locking.Refusal
import PageStore.Proofs.Pool.LastUse
import PageStore.Proofs.Pool.Eviction
import PageStore.Proofs.Pool.Collecting
import PageStore.Proofs.Interleaving.Placing
import PageStore.Proofs.Text.Truncation
import PageStore.Proofs.Pool.LastPage
import PageStore.Proofs.Pool.Flushing
import PageStore.Proofs.Pool.Deleting
import PageStore.Proofs.Page.Capacity
import PageStore.Proofs.Page.Occupancy
import PageStore.Proofs.Page.Slots
import PageStore.Proofs.Settings.Overrides
import PageStore.Proofs.Pool.CallOrder
import PageStore.Proofs.Locking.EdgeSet
