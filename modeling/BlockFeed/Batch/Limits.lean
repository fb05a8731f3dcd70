/-! What a reader of batches puts up with, on top of what the format demands. -/

namespace BlockFeed

/-- Limits on an untrusted batch. The standard limits are the largest count and the largest length
that a header is able to give, and nothing after the batch. -/
@[ext]
structure Limits where
  maxRecords : UInt64 := 0xffffffff
  maxBlockSize : UInt64 := 0xffffffff
  allowTrailing : Bool := false
  deriving DecidableEq, Repr

namespace Limits

/-- The limits that the format itself sets. -/
def standard : Limits := {}

end Limits

end BlockFeed
