import BlockFeed.Batch.Record
import BlockFeed.MessagePack.Integer

/-! The canonical encoding of a batch: every count and length in its shortest header, every height
in full width, and every record a map of its height and its block in this order. Equal batches have
equal encodings. -/

namespace BlockFeed.Batch

open MessagePack

/-- A block under the shortest header for its length. -/
def blockBytes (block : Bytes) : Bytes :=
  binaryHeaderBytes block.length ++ block

/-- A record as a map of its two fields. -/
def recordBytes (record : Record) : Bytes :=
  Record.mapMarker.byte ::
    (Record.heightToken ++ int64Bytes record.height ++ Record.blockToken ++ blockBytes record.block)

/-- The encoding of a batch. Of a batch that is not representable, the counts and lengths that no
header is able to give lose their highest digits. -/
def encode (records : List Record) : Bytes :=
  arrayHeaderBytes records.length ++ records.flatMap recordBytes

/-- The encoding of a batch, if it is representable. -/
def encode? (records : List Record) : Option Bytes :=
  if Representable records then some (encode records) else none

/-- The buffer with the encoding of a batch at its end, if the batch is representable. -/
def append? (buffer : Bytes) (records : List Record) : Option Bytes :=
  (encode? records).map (buffer ++ ·)

end BlockFeed.Batch
