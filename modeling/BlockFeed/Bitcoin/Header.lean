import BlockFeed.Bitcoin.Error
import BlockFeed.Bitcoin.Sha256
import BlockFeed.Bytes.Hex

/-! Block headers. A header is written in 80 bytes, is read from the first 80 bytes of a block, and
is known by the double hash of its bytes. -/

namespace BlockFeed.Bitcoin

/-- A hash of 256 bits, in the byte order in which it is computed. -/
@[ext]
structure Hash where
  bytes : Bytes
  bytes_length : bytes.length = 32
  deriving DecidableEq

namespace Hash

/-- The hash of the hash of a message. -/
def double (message : Bytes) : Hash :=
  ⟨Sha256.digest (Sha256.digest message), Sha256.digest_length _⟩

/-- The hash as it is displayed, which is with its last byte first. -/
def display (hash : Hash) : String := Bytes.hex hash.bytes.reverse

end Hash

/-- The header of a block. -/
@[ext]
structure Header where
  version : Int32
  previous : Hash
  merkleRoot : Hash
  timestamp : UInt32
  bits : UInt32
  nonce : UInt32
  deriving DecidableEq

namespace Header

/-- The number of bytes of a header. -/
def size : Nat := 80

/-- The largest number of bytes of a serialized block. -/
def maxBlockSize : Nat := 4000000

/-- The bytes of a header: its fields in order, numbers with their lowest byte first. -/
def bytes (header : Header) : Bytes :=
  Bytes.littleEndian 4 header.version.toUInt32.toNat ++ header.previous.bytes ++
    header.merkleRoot.bytes ++ Bytes.littleEndian 4 header.timestamp.toNat ++
    Bytes.littleEndian 4 header.bits.toNat ++ Bytes.littleEndian 4 header.nonce.toNat

@[simp] theorem bytes_length (header : Header) : header.bytes.length = size := by
  simp [bytes, size, header.previous.bytes_length, header.merkleRoot.bytes_length]

/-- The number in four bytes at an offset. -/
def wordAt (data : Bytes) (offset : Nat) : UInt32 :=
  UInt32.ofNat (Bytes.ofLittleEndian ((data.drop offset).take 4))

/-- The hash in 32 bytes at an offset. -/
def hashAt (data : Bytes) (offset : Nat) (hEnough : offset + 32 ≤ data.length) : Hash :=
  ⟨(data.drop offset).take 32, by simp; omega⟩

/-- The header in the first 80 bytes of a byte string. -/
def ofBytes (data : Bytes) : Except BlockError Header :=
  if hEnough : size ≤ data.length then
    have hEnough : 80 ≤ data.length := hEnough
    .ok {
      version := (wordAt data 0).toInt32
      previous := hashAt data 4 (by omega)
      merkleRoot := hashAt data 36 (by omega)
      timestamp := wordAt data 68
      bits := wordAt data 72
      nonce := wordAt data 76 }
  else
    .error (.insufficientBytes .header)

/-- The hash of a header. -/
def hash (header : Header) : Hash := Hash.double header.bytes

/-- The name under which a block is displayed. -/
def blockId (header : Header) : String := header.hash.display

end Header

end BlockFeed.Bitcoin
