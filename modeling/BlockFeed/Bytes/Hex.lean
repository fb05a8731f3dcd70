import BlockFeed.Bytes.Endian

/-! Lower-case hexadecimal text of byte strings, two digits a byte. -/

namespace BlockFeed.Bytes

/-- The two digits of a byte, the high half first. -/
def hexDigits (byte : UInt8) : List Char :=
  [Nat.digitChar (byte.toNat / 16), Nat.digitChar (byte.toNat % 16)]

/-- The hexadecimal text of a byte string. -/
def hex (bytes : Bytes) : String :=
  String.ofList (bytes.flatMap hexDigits)

@[simp] theorem hex_length (bytes : Bytes) : (hex bytes).length = 2 * bytes.length := by
  induction bytes with
  | nil => rfl
  | cons byte rest ih =>
      simp only [hex, String.length_ofList] at ih
      simp only [hex, String.length_ofList, List.flatMap_cons, List.length_append, ih, hexDigits,
        List.length_cons, List.length_nil]
      omega

end BlockFeed.Bytes
