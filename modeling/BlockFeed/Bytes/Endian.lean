/-! Byte strings and the numbers that they spell. A number has one spelling of each width in either
byte order, and each spelling is read back to its number. -/

namespace BlockFeed

/-- A byte string. -/
abbrev Bytes := List UInt8

namespace Bytes

/-- The lowest `width` base-256 digits of a number, least significant first. -/
def littleEndian : Nat → Nat → Bytes
  | 0, _ => []
  | width + 1, value => UInt8.ofNat value :: littleEndian width (value / 256)

/-- The number whose base-256 digits are given, least significant first. -/
def ofLittleEndian : Bytes → Nat
  | [] => 0
  | byte :: rest => byte.toNat + 256 * ofLittleEndian rest

/-- The lowest `width` base-256 digits of a number, most significant first. -/
def bigEndian (width value : Nat) : Bytes :=
  (littleEndian width value).reverse

/-- The number whose base-256 digits are given, most significant first. -/
def ofBigEndian (bytes : Bytes) : Nat :=
  ofLittleEndian bytes.reverse

/-- How many numbers have a spelling of this width. -/
def capacity (width : Nat) : Nat := Nat.pow 256 width

/-- The two's complement reading of big-endian digits. -/
def signedOfBigEndian (bytes : Bytes) : Int :=
  (ofBigEndian bytes : Int).bmod (capacity bytes.length)

@[simp] theorem capacity_zero : capacity 0 = 1 := rfl

theorem capacity_succ (width : Nat) : capacity (width + 1) = 256 * capacity width :=
  Nat.mul_comm _ _

@[simp] theorem littleEndian_length (width value : Nat) :
    (littleEndian width value).length = width := by
  induction width generalizing value with
  | zero => rfl
  | succ width ih => simp [littleEndian, ih]

@[simp] theorem bigEndian_length (width value : Nat) : (bigEndian width value).length = width := by
  simp [bigEndian]

/-- Digits beyond the width are lost, and nothing else is. -/
theorem ofLittleEndian_littleEndian (width value : Nat) :
    ofLittleEndian (littleEndian width value) = value % capacity width := by
  induction width generalizing value with
  | zero => simp [littleEndian, ofLittleEndian, Nat.mod_one]
  | succ width ih =>
      have hDigit : (UInt8.ofNat value).toNat = value % 256 := UInt8.toNat_ofNat'
      rw [littleEndian, ofLittleEndian, ih, hDigit, capacity_succ, Nat.mod_mul]

theorem ofBigEndian_bigEndian (width value : Nat) :
    ofBigEndian (bigEndian width value) = value % capacity width := by
  simp [ofBigEndian, bigEndian, ofLittleEndian_littleEndian]

theorem ofLittleEndian_lt (bytes : Bytes) : ofLittleEndian bytes < capacity bytes.length := by
  induction bytes with
  | nil => simp [ofLittleEndian]
  | cons byte rest ih =>
      have hBound : byte.toNat < 256 := byte.toNat_lt
      simp only [ofLittleEndian, List.length_cons, capacity_succ]
      omega

theorem ofBigEndian_lt (bytes : Bytes) : ofBigEndian bytes < capacity bytes.length := by
  simpa [ofBigEndian] using ofLittleEndian_lt bytes.reverse

/-- Digits behind others count as many times more as there are numbers of those before them. -/
theorem ofLittleEndian_append (low high : Bytes) : ofLittleEndian (low ++ high) =
    ofLittleEndian low + capacity low.length * ofLittleEndian high := by
  induction low with
  | nil => simp [ofLittleEndian]
  | cons byte rest ih =>
      rw [List.cons_append, ofLittleEndian, ih, ofLittleEndian, List.length_cons, capacity_succ,
        Nat.mul_add, Nat.mul_assoc, Nat.add_assoc]

/-- Every byte string is the spelling of its own number. -/
@[simp] theorem littleEndian_ofLittleEndian (bytes : Bytes) :
    littleEndian bytes.length (ofLittleEndian bytes) = bytes := by
  induction bytes with
  | nil => rfl
  | cons byte rest ih =>
      have hBound : byte.toNat < 256 := byte.toNat_lt
      have hLow : UInt8.ofNat (byte.toNat + 256 * ofLittleEndian rest) = byte := by
        apply UInt8.toNat_inj.mp
        simp only [UInt8.toNat_ofNat']
        omega
      have hHigh : (byte.toNat + 256 * ofLittleEndian rest) / 256 = ofLittleEndian rest := by omega
      simp only [List.length_cons, ofLittleEndian, littleEndian, hLow, hHigh, ih]

@[simp] theorem bigEndian_ofBigEndian (bytes : Bytes) :
    bigEndian bytes.length (ofBigEndian bytes) = bytes := by
  have hSpelled := littleEndian_ofLittleEndian bytes.reverse
  rw [List.length_reverse] at hSpelled
  simp [bigEndian, ofBigEndian, hSpelled]

end Bytes

end BlockFeed
