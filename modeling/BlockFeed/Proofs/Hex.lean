import BlockFeed.Bytes.Hex

/-! Hexadecimal text digit by digit. The two digits of each byte stand at twice its place in the byte
string, and there are no others. -/

namespace BlockFeed.Bytes

/-- The sixteen digits in order, those above nine as small letters. -/
def smallDigits : List Char :=
  ['0', '1', '2', '3', '4', '5', '6', '7', '8', '9', 'a', 'b', 'c', 'd', 'e', 'f']

theorem smallDigits_getElem? {value : Nat} (h : value < 16) :
    smallDigits[value]? = some (Nat.digitChar value) := by
  have hEach : ∀ value : Fin 16, smallDigits[value.val]? = some (Nat.digitChar value) := by decide
  exact hEach ⟨value, h⟩

/-- The text has two digits for each byte, first the one for its sixteens and then the one for what is
left. -/
structure IsHex (text : String) (bytes : Bytes) : Prop where
  length : text.length = 2 * bytes.length
  high : ∀ (i : Nat) (hIndex : i < bytes.length),
    text.toList[2 * i]? = smallDigits[bytes[i].toNat / 16]?
  low : ∀ (i : Nat) (hIndex : i < bytes.length),
    text.toList[2 * i + 1]? = smallDigits[bytes[i].toNat % 16]?

/-- The digits of a byte are found behind two for each byte in front of it. -/
theorem hex_getElem? (bytes : Bytes) (i : Nat) (hIndex : i < bytes.length) :
    (hex bytes).toList[2 * i]? = some (Nat.digitChar (bytes[i].toNat / 16)) ∧
      (hex bytes).toList[2 * i + 1]? = some (Nat.digitChar (bytes[i].toNat % 16)) := by
  rw [hex, String.toList_ofList]
  induction bytes generalizing i with
  | nil => exact absurd hIndex (Nat.not_lt_zero i)
  | cons byte rest ih =>
      cases i with
      | zero => exact ⟨rfl, rfl⟩
      | succ i => exact ih i (Nat.lt_of_succ_lt_succ hIndex)

theorem isHex_hex (bytes : Bytes) : IsHex (hex bytes) bytes where
  length := hex_length bytes
  high i hIndex := by
    have hByte := bytes[i].toNat_lt
    rw [(hex_getElem? bytes i hIndex).1, smallDigits_getElem? (by omega)]
  low i hIndex := by
    rw [(hex_getElem? bytes i hIndex).2, smallDigits_getElem? (Nat.mod_lt _ (by decide))]

example : hex [0x0f, 0xa0] = "0fa0" := by decide

end BlockFeed.Bytes
