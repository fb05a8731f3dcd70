import BlockFeed.Batch.Record

/-! The size of an encoding before it is made. Sizes are 64-bit numbers, and a batch too large for
them has the largest one. -/

namespace BlockFeed.Batch

open MessagePack

/-- The largest size. -/
def maxSize : Nat := UInt64.size - 1

/-- The size of the header of a batch of this many records. -/
def headerSize (count : Nat) : Nat := 1 + (Marker.arrayField count).size

/-- The size of the header of a block of this many bytes. -/
def blockHeaderSize (length : Nat) : Nat := 1 + (Marker.binaryField length).size

/-- The size of a record whose block has this many bytes. -/
def recordSize (length : Nat) : Nat := Record.fixedSize + blockHeaderSize length + length

/-- The size of a batch whose blocks have these many bytes. -/
def sizeOfBlocks (lengths : List Nat) : Nat :=
  lengths.foldl (fun size length => min maxSize (size + recordSize length))
    (headerSize lengths.length)

/-- The size of the encoding of a batch. -/
def encodedSize (records : List Record) : Nat :=
  sizeOfBlocks (records.map fun record => record.block.length)

end BlockFeed.Batch
