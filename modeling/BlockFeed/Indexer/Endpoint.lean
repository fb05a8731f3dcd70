/-! Where an indexer is asked, and how a request shows that it may ask. -/

namespace BlockFeed.Indexer.Endpoint

/-- The path that takes an encoded batch. -/
def blocksPath : String := "/bitcoin/blocks"

/-- The path that answers the latest height. -/
def latestHeightPath : String := "/bitcoin/height"

/-- The path that answers the deposits of a sender. -/
def depositsBySenderPath : String := "/bitcoin/deposits/"

/-- The content type of an encoded batch. -/
def batchContentType : String := "application/msgpack"

/-- The authorization header for a token. An empty token is none. -/
def authorization? (token : String) : Option String :=
  if token.isEmpty then none else some ("Bearer " ++ token)

end BlockFeed.Indexer.Endpoint
