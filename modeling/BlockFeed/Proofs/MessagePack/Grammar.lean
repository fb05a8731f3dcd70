import BlockFeed.Proofs.Reading

/-! The MessagePack format as a grammar over byte strings, apart from every reader. A count may be
given by any header that has room for it, not only by the shortest. -/

namespace BlockFeed.MessagePack

/-- A header that gives a count: in its only byte, from `base` on and for counts below `limit`, or
in a big-endian number behind one of the `wide` markers, each with the width of its number. -/
inductive CountWord (base limit : Nat) (wide : List (UInt8 × Nat)) (count : Nat) : Bytes → Prop where
  | short (hCount : count < limit) : CountWord base limit wide count [UInt8.ofNat (base + count)]
  | wide {marker : UInt8} {width : Nat} (hMarker : (marker, width) ∈ wide)
      (hCount : count < Bytes.capacity width) :
      CountWord base limit wide count (marker :: Bytes.bigEndian width count)

/-- `fixarray`, `array16` and `array32`. -/
def ArrayHeader : Nat → Bytes → Prop := CountWord 0x90 16 [(0xdc, 2), (0xdd, 4)]

/-- `fixmap`, `map16` and `map32`. -/
def MapHeader : Nat → Bytes → Prop := CountWord 0x80 16 [(0xde, 2), (0xdf, 4)]

/-- `fixstr`, `str8`, `str16` and `str32`. -/
def StringHeader : Nat → Bytes → Prop := CountWord 0xa0 32 [(0xd9, 1), (0xda, 2), (0xdb, 4)]

/-- `bin8`, `bin16` and `bin32`, none of which is short. -/
def BinaryHeader : Nat → Bytes → Prop := CountWord 0 0 [(0xc4, 1), (0xc5, 2), (0xc6, 4)]

/-- `ext8`, `ext16` and `ext32`, and the headers `fixext` of five lengths. -/
inductive ExtensionHeader : Nat → Bytes → Prop where
  | fixed {marker : UInt8} {length : Nat}
      (hMarker : (marker, length) ∈ [(0xd4, 1), (0xd5, 2), (0xd6, 4), (0xd7, 8), (0xd8, 16)]) :
      ExtensionHeader length [marker]
  | counted {length : Nat} {word : Bytes}
      (hHeader : CountWord 0 0 [(0xc7, 1), (0xc8, 2), (0xc9, 4)] length word) :
      ExtensionHeader length word

/-- The integers: the small ones in a single byte, the unsigned ones of one to eight bytes, and the
signed ones of one to eight bytes as two's complement. -/
inductive IntegerWord (value : Int) : Bytes → Prop where
  | positive (hLower : 0 ≤ value) (hUpper : value < 128) :
      IntegerWord value [UInt8.ofNat value.toNat]
  | negative (hLower : -32 ≤ value) (hUpper : value < 0) :
      IntegerWord value [UInt8.ofNat (256 + value).toNat]
  | unsigned {marker : UInt8} {width : Nat}
      (hMarker : (marker, width) ∈ [(0xcc, 1), (0xcd, 2), (0xce, 4), (0xcf, 8)])
      (hLower : 0 ≤ value) (hUpper : value < Bytes.capacity width) :
      IntegerWord value (marker :: Bytes.bigEndian width value.toNat)
  | signed {marker : UInt8} {width : Nat}
      (hMarker : (marker, width) ∈ [(0xd0, 1), (0xd1, 2), (0xd2, 4), (0xd3, 8)])
      (hLower : -Bytes.capacity width ≤ 2 * value) (hUpper : 2 * value < Bytes.capacity width) :
      IntegerWord value (marker :: Bytes.bigEndian width (value % Bytes.capacity width).toNat)

/-- One complete value of any kind. An array of `n` elements is followed by `n` values and a map of
`n` entries by `2 * n`, a name before each value and of any kind itself. No constructor starts with
the reserved byte `0xc1`. -/
inductive ValueWord : Bytes → Prop where
  | integer {value : Int} {word : Bytes} (h : IntegerWord value word) : ValueWord word
  | nil : ValueWord [0xc0]
  | bool {marker : UInt8} (hMarker : marker ∈ [0xc2, 0xc3]) : ValueWord [marker]
  | float {marker : UInt8} {bits : Bytes} (hMarker : (marker, bits.length) ∈ [(0xca, 4), (0xcb, 8)]) :
      ValueWord (marker :: bits)
  | string {header payload : Bytes} (hHeader : StringHeader payload.length header) :
      ValueWord (header ++ payload)
  | binary {header payload : Bytes} (hHeader : BinaryHeader payload.length header) :
      ValueWord (header ++ payload)
  | extension {header payload : Bytes} {type : UInt8} (hHeader : ExtensionHeader payload.length header) :
      ValueWord (header ++ type :: payload)
  | array {header : Bytes} {items : List Bytes} (hHeader : ArrayHeader items.length header)
      (hItems : ∀ item ∈ items, ValueWord item) : ValueWord (header ++ items.flatten)
  | map {header : Bytes} {count : Nat} {items : List Bytes} (hHeader : MapHeader count header)
      (hCount : items.length = 2 * count) (hItems : ∀ item ∈ items, ValueWord item) :
      ValueWord (header ++ items.flatten)

/-- A name of the given bytes, as a string or as a binary payload. -/
inductive KeyWord (key : Bytes) : Bytes → Prop where
  | string {header : Bytes} (hHeader : StringHeader key.length header) : KeyWord key (header ++ key)
  | binary {header : Bytes} (hHeader : BinaryHeader key.length header) : KeyWord key (header ++ key)

/-- A binary payload. -/
inductive BinaryWord (payload : Bytes) : Bytes → Prop where
  | mk {header : Bytes} (hHeader : BinaryHeader payload.length header) :
      BinaryWord payload (header ++ payload)

theorem CountWord.length_pos {base limit count : Nat} {wide : List (UInt8 × Nat)} {word : Bytes}
    (h : CountWord base limit wide count word) : 0 < word.length := by
  cases h <;> simp

theorem IntegerWord.length_pos {value : Int} {word : Bytes} (h : IntegerWord value word) :
    0 < word.length := by
  cases h <;> simp

theorem ExtensionHeader.length_pos {length : Nat} {word : Bytes} (h : ExtensionHeader length word) :
    0 < word.length := by
  cases h with
  | fixed => simp
  | counted hHeader => exact hHeader.length_pos

theorem ValueWord.length_pos {word : Bytes} (h : ValueWord word) : 0 < word.length := by
  cases h with
  | integer h => exact h.length_pos
  | nil | bool | float => simp
  | string hHeader | binary hHeader | extension hHeader | array hHeader | map hHeader =>
      have hPos := hHeader.length_pos
      rw [List.length_append]
      omega

theorem KeyWord.length_pos {key word : Bytes} (h : KeyWord key word) : 0 < word.length := by
  cases h with
  | string hHeader | binary hHeader =>
      have hPos := hHeader.length_pos
      rw [List.length_append]
      omega

theorem BinaryWord.length_pos {payload word : Bytes} (h : BinaryWord payload word) :
    0 < word.length := by
  obtain ⟨hHeader⟩ := h
  have hPos := hHeader.length_pos
  rw [List.length_append]
  omega

end BlockFeed.MessagePack
