import BlockFeed.Batch.Decode
import BlockFeed.Batch.Encode
import BlockFeed.Batch.Size
import BlockFeed.Bitcoin.Summary
import BlockFeed.Indexer.Deposit
import BlockFeed.Indexer.Endpoint
import BlockFeed.Indexer.Network
import BlockFeed.Indexer.Settings
import BlockFeed.Proofs.MessagePack.Grammar
import BlockFeed.Proofs.MessagePack.Headers
import BlockFeed.Proofs.MessagePack.Integers
import BlockFeed.Proofs.MessagePack.Values
import BlockFeed.Proofs.Batch.Acceptance
import BlockFeed.Proofs.Batch.RoundTrip
import BlockFeed.Proofs.MessagePack.Stability
import BlockFeed.Proofs.Batch.Stability
import BlockFeed.Proofs.Batch.Arrival
import BlockFeed.Proofs.Batch.Concatenation
import BlockFeed.Proofs.Batch.Limits
import BlockFeed.Proofs.Batch.Canonical
import BlockFeed.Proofs.Batch.LookAhead
import BlockFeed.Proofs.Batch.Views
import BlockFeed.Proofs.Batch.Size
import BlockFeed.Proofs.Batch.Buffer
import BlockFeed.Proofs.Batch.Skipping
import BlockFeed.Proofs.Batch.Truncation
import BlockFeed.Proofs.Batch.Failures
import BlockFeed.Proofs.Batch.Errors
import BlockFeed.Proofs.Batch.Minimal
import BlockFeed.Proofs.Batch.Heights
import BlockFeed.Proofs.Hex
import BlockFeed.Proofs.Bitcoin.CompactSize
import BlockFeed.Proofs.Bitcoin.Header
import BlockFeed.Proofs.Bitcoin.Summary
import BlockFeed.Proofs.Cursor
import BlockFeed.Proofs.MessagePack.Arithmetic
import BlockFeed.Proofs.Batch.Arithmetic
import BlockFeed.Proofs.Json.Quoted
import BlockFeed.Proofs.Json.Token
import BlockFeed.Proofs.Json.Value
import BlockFeed.Proofs.Json.Members
import BlockFeed.Proofs.Json.Reordering
import BlockFeed.Proofs.Indexer.Settings
import BlockFeed.Proofs.Indexer.RoundTrip
