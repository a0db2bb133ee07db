import ChunkStore.Archive
import ChunkStore.Bytes.Lemmas
import ChunkStore.Element.Kernel
import ChunkStore.Proofs.Grid.RowMajor
import ChunkStore.Proofs.Index.Handle
import ChunkStore.Proofs.Index.Numbering
import ChunkStore.Proofs.Bitmap
import ChunkStore.Proofs.Cache
import ChunkStore.Proofs.Dataset.Assembly
import ChunkStore.Proofs.Dataset.Pointwise
import ChunkStore.Proofs.FixedArray.Lookup
import ChunkStore.Proofs.Archive.Recording
import ChunkStore.Proofs.Archive.RoundTrip
import ChunkStore.Proofs.Grid.Enumeration
import ChunkStore.Proofs.Grid.Spans
import ChunkStore.Proofs.ExtensibleArray.Growth
import ChunkStore.Proofs.TreeTwo.Search
import ChunkStore.Proofs.TreeTwo.Lookup
import ChunkStore.Proofs.TreeOne.Lookup
import ChunkStore.Proofs.ExtensibleArray.Groups
import ChunkStore.Proofs.ExtensibleArray.Lookup
import ChunkStore.Proofs.ExtensibleArray.Blocks
import ChunkStore.Proofs.Filter.Mask
import ChunkStore.Proofs.Index.Settled
import ChunkStore.Proofs.Dataset.Uncached
import ChunkStore.Proofs.ScaleOffset.Elements
import ChunkStore.Proofs.ScaleOffset.Codes
import ChunkStore.Proofs.ScaleOffset.RoundTrip
import ChunkStore.Proofs.Filter.Packed
import ChunkStore.Proofs.Cache.History
import ChunkStore.Proofs.Index.History
import ChunkStore.Proofs.Index.InRange
import ChunkStore.Proofs.Dataset.Overrun
import ChunkStore.Proofs.Dataset.Slices
import ChunkStore.Proofs.Message.Truncation
import ChunkStore.Proofs.Message.Rewritten
import ChunkStore.Proofs.Index.Verified
import ChunkStore.Proofs.Element.Blocks
import ChunkStore.Proofs.Seeking
import ChunkStore.Proofs.Archive.Appending
import ChunkStore.Proofs.FixedArray.Fields
import ChunkStore.Proofs.Index.Unallocated
import ChunkStore.Proofs.Filter.Corruption
import ChunkStore.Proofs.FixedArray.Slots
import ChunkStore.Proofs.Index.Visits
import ChunkStore.Proofs.Zlib.Pieces
import ChunkStore.Proofs.ScaleOffset.ClientData
import ChunkStore.Proofs.FixedArray.StoredSizes
import ChunkStore.Proofs.TreeTwo.NodeBytes
