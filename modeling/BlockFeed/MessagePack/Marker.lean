import BlockFeed.Bytes.Endian

/-! The first bytes of MessagePack values. Every byte is exactly one marker, and `ofByte` and `byte`
are inverse to each other. -/

namespace BlockFeed.MessagePack

/-- The meaning of the first byte of a value. Small values, counts and lengths are kept in the
marker itself. A family of markers that differ in width is indexed from its narrowest member, and
each next member is twice as wide: `uint 0` to `uint 3` are the integers of one to eight bytes,
`str 0` to `str 2` the strings whose length takes one to four bytes, and `array 0` and `array 1`
the arrays whose count takes two and four. -/
inductive Marker
  | positiveFixint (value : Fin 128)
  | fixmap (entries : Fin 16)
  | fixarray (elements : Fin 16)
  | fixstr (length : Fin 32)
  | nil
  | reserved
  | bool (value : Bool)
  | bin (width : Fin 3)
  | ext (width : Fin 3)
  | float (width : Fin 2)
  | uint (width : Fin 4)
  | int (width : Fin 4)
  | fixext (width : Fin 5)
  | str (width : Fin 3)
  | array (width : Fin 2)
  | map (width : Fin 2)
  | negativeFixint (value : Fin 32)
  deriving DecidableEq, Repr

namespace Marker

/-- The width in bytes at a place of a family that starts with one byte. -/
def widthAt (place : Nat) : Nat := 1 <<< place

/-- The number of a marker among the 256 bytes. -/
def code : Marker → Nat
  | positiveFixint value => value
  | fixmap entries => 0x80 + entries
  | fixarray elements => 0x90 + elements
  | fixstr length => 0xa0 + length
  | nil => 0xc0
  | reserved => 0xc1
  | bool value => 0xc2 + value.toNat
  | bin width => 0xc4 + width
  | ext width => 0xc7 + width
  | float width => 0xca + width
  | uint width => 0xcc + width
  | int width => 0xd0 + width
  | fixext width => 0xd4 + width
  | str width => 0xd9 + width
  | array width => 0xdc + width
  | map width => 0xde + width
  | negativeFixint value => 0xe0 + value

/-- The byte that stands for a marker. -/
def byte (marker : Marker) : UInt8 := UInt8.ofNat marker.code

/-- The marker that a byte stands for. -/
def ofByte (byte : UInt8) : Marker :=
  let code := byte.toNat
  if h : code < 0x80 then positiveFixint ⟨code, h⟩
  else if h : code < 0x90 then fixmap ⟨code - 0x80, by omega⟩
  else if h : code < 0xa0 then fixarray ⟨code - 0x90, by omega⟩
  else if h : code < 0xc0 then fixstr ⟨code - 0xa0, by omega⟩
  else if code = 0xc0 then nil
  else if code = 0xc1 then reserved
  else if code = 0xc2 then bool false
  else if code = 0xc3 then bool true
  else if h : code < 0xc7 then bin ⟨code - 0xc4, by omega⟩
  else if h : code < 0xca then ext ⟨code - 0xc7, by omega⟩
  else if h : code < 0xcc then float ⟨code - 0xca, by omega⟩
  else if h : code < 0xd0 then uint ⟨code - 0xcc, by omega⟩
  else if h : code < 0xd4 then int ⟨code - 0xd0, by omega⟩
  else if h : code < 0xd9 then fixext ⟨code - 0xd4, by omega⟩
  else if h : code < 0xdc then str ⟨code - 0xd9, by omega⟩
  else if h : code < 0xde then array ⟨code - 0xdc, by omega⟩
  else if h : code < 0xe0 then map ⟨code - 0xde, by omega⟩
  else negativeFixint ⟨code - 0xe0, by have hBound := byte.toNat_lt; omega⟩

theorem code_lt (marker : Marker) : marker.code < 256 := by
  cases marker with
  | bool value => cases value <;> decide
  | _ => simp only [code]; omega

theorem byte_toNat (marker : Marker) : marker.byte.toNat = marker.code :=
  UInt8.toNat_ofNat_of_lt marker.code_lt

/-- The family of a byte covers the byte itself. -/
theorem ofByte_code (byte : UInt8) : (ofByte byte).code = byte.toNat := by
  have hEach : ∀ code : Fin 256, (ofByte (UInt8.ofFin code)).code = code := by decide +kernel
  exact hEach byte.toFin

@[simp] theorem byte_ofByte (byte : UInt8) : (ofByte byte).byte = byte := by
  simp [Marker.byte, ofByte_code]

@[simp] theorem ofByte_byte (marker : Marker) : ofByte marker.byte = marker := by
  cases marker with
  | positiveFixint value => revert value; decide
  | fixmap entries => revert entries; decide
  | fixarray elements => revert elements; decide
  | fixstr length => revert length; decide
  | nil => decide
  | reserved => decide
  | bool value => revert value; decide
  | bin width => revert width; decide
  | ext width => revert width; decide
  | float width => revert width; decide
  | uint width => revert width; decide
  | int width => revert width; decide
  | fixext width => revert width; decide
  | str width => revert width; decide
  | array width => revert width; decide
  | map width => revert width; decide
  | negativeFixint value => revert value; decide

/-- Different markers have different bytes. -/
theorem byte_inj {first second : Marker} : first.byte = second.byte ↔ first = second := by
  constructor
  · intro hSame
    simpa using congrArg ofByte hSame
  · intro hSame
    rw [hSame]

end Marker

end BlockFeed.MessagePack
