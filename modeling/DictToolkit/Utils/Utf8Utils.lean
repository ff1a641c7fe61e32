/-!
# `Utf8Utils`

`utils/utf8_utils.cpp` as the code computes it: the decoder `getCodePoints` from a byte string
to code points, the encoder `getUtf8String` back, and their tables and helpers.

A `std::string` is a list of `UInt8`: the decoder reads each `char` as the `uint8_t` its helpers
take, and the encoder's `static_cast<char>` keeps the low eight bits (`UInt8.ofNat`). Code points
are `int`s. Both functions return the empty value on an error, from inside their loops; the
recursions below return `[]` at the same places. The tables are indexed by sequence size; only
the indices the code reads are in range.
-/

namespace DictToolkit

namespace Utf8Utils

/-- `MAX_SEQUENCE_SIZE_FOR_A_CODE_POINT`. -/
def MAX_SEQUENCE_SIZE_FOR_A_CODE_POINT : Nat := 4

/-- `FIRST_BYTE_MARKER_MASKS[i]`. -/
def FIRST_BYTE_MARKER_MASKS (i : Nat) : Nat := [0, 0x80, 0xE0, 0xF0, 0xF8].getD i 0

/-- `FIRST_BYTE_MARKERS[i]`. -/
def FIRST_BYTE_MARKERS (i : Nat) : Nat := [0, 0x00, 0xC0, 0xE0, 0xF0].getD i 0

/-- `FIRST_BYTE_CODE_POINT_BITS_MASKS[i]`. -/
def FIRST_BYTE_CODE_POINT_BITS_MASKS (i : Nat) : Nat := [0, 0x7F, 0x1F, 0x0F, 0x03].getD i 0

/-- `MAX_ENCODED_CODE_POINT_VALUES[i]`. -/
def MAX_ENCODED_CODE_POINT_VALUES (i : Nat) : Int := [-1, 0x7F, 0x7FF, 0xFFFF, 0x10FFFF].getD i 0

/-- `TRAILING_BYTE_CODE_POINT_BITS_MASK`. -/
def TRAILING_BYTE_CODE_POINT_BITS_MASK : Nat := 0x3F

/-- `TRAILING_BYTE_MARKER`. -/
def TRAILING_BYTE_MARKER : Nat := 0x80

/-- `CODE_POINT_BIT_COUNT_IN_TRAILING_BYTE`. -/
def CODE_POINT_BIT_COUNT_IN_TRAILING_BYTE : Nat := 6

/-! ## Decoding -/

/-- `getSequenceSizeByCheckingFirstByte` (lines 65-73): the first size whose marker the byte
carries, or `-1`. -/
def getSequenceSizeByCheckingFirstByte (firstByte : UInt8) : Int :=
  match (List.range' 1 MAX_SEQUENCE_SIZE_FOR_A_CODE_POINT).find? fun i =>
      firstByte.toNat &&& FIRST_BYTE_MARKER_MASKS i == FIRST_BYTE_MARKERS i with
  | some i => i
  | none => -1

/-- `maskFirstByte` (lines 75-78). -/
def maskFirstByte (firstByte : UInt8) (sequenceSize : Int) : Int :=
  (firstByte.toNat &&& FIRST_BYTE_CODE_POINT_BITS_MASKS sequenceSize.toNat : Nat)

/-- `maskTrailingByte` (lines 80-82). -/
def maskTrailingByte (secondOrLaterByte : UInt8) : Int :=
  (secondOrLaterByte.toNat &&& TRAILING_BYTE_CODE_POINT_BITS_MASK : Nat)

/-- The loop of `getCodePoints` (lines 39-61) from its state: the bytes still owed to the current
code point, the current sequence size, the code point so far and the code points pushed. A first
byte without a marker and a redundant sequence return the empty vector; bytes still owed when the
string ends are dropped. `codePoint <<= CODE_POINT_BIT_COUNT_IN_TRAILING_BYTE` is a product: at
most 25 bits are ever in use. -/
def getCodePointsFrom (remainingByteCountForCurrentCodePoint currentCodePointSequenceSize
    codePoint : Int) (codePoints : List Int) : List UInt8 → List Int
  | [] => codePoints
  | c :: rest =>
    let state : Option (Int × Int × Int) :=
      if remainingByteCountForCurrentCodePoint = 0 then
        let size := getSequenceSizeByCheckingFirstByte c
        if size ≤ 0 then none else some (size, size, maskFirstByte c size)
      else
        some (remainingByteCountForCurrentCodePoint, currentCodePointSequenceSize,
          codePoint * (1 <<< CODE_POINT_BIT_COUNT_IN_TRAILING_BYTE : Nat) + maskTrailingByte c)
    match state with
    | none => []
    | some (remaining, size, codePoint) =>
      if remaining - 1 = 0 then
        if codePoint ≤ MAX_ENCODED_CODE_POINT_VALUES (size - 1).toNat then []
        else getCodePointsFrom 0 size codePoint (codePoints ++ [codePoint]) rest
      else getCodePointsFrom (remaining - 1) size codePoint codePoints rest

/-- `Utf8Utils::getCodePoints` (line 34). -/
def getCodePoints (utf8Str : List UInt8) : List Int :=
  getCodePointsFrom 0 0 0 [] utf8Str

/-! ## Encoding -/

/-- `getSequenceSizeToEncodeCodePoint` (lines 106-116): the first size whose largest value
reaches the code point, or `-1`. -/
def getSequenceSizeToEncodeCodePoint (codePoint : Int) : Int :=
  if codePoint < 0 then -1
  else match (List.range' 1 MAX_SEQUENCE_SIZE_FOR_A_CODE_POINT).find? fun i =>
      codePoint ≤ MAX_ENCODED_CODE_POINT_VALUES i with
    | some i => i
    | none => -1

/-- The bytes lines 92-101 push for one code point of `sequenceSize` bytes. The code point is
non-negative there, so its shifts are those of its `Nat` value. -/
def encodeCodePoint (codePoint : Nat) (sequenceSize : Nat) : List UInt8 :=
  let trailingByteCount := sequenceSize - 1
  let value := codePoint >>> (trailingByteCount * CODE_POINT_BIT_COUNT_IN_TRAILING_BYTE)
  UInt8.ofNat (value ||| FIRST_BYTE_MARKERS sequenceSize) ::
    (List.range' 1 trailingByteCount).map fun i =>
      let shiftAmount := (trailingByteCount - i) * CODE_POINT_BIT_COUNT_IN_TRAILING_BYTE
      let value := (codePoint >>> shiftAmount) &&& TRAILING_BYTE_CODE_POINT_BITS_MASK
      UInt8.ofNat (value ||| TRAILING_BYTE_MARKER)

/-- The loop of `getUtf8String` (lines 86-102): a code point that cannot be encoded returns the
empty string. -/
def getUtf8StringFrom (utf8String : List UInt8) : List Int → List UInt8
  | [] => utf8String
  | codePoint :: rest =>
    let sequenceSize := getSequenceSizeToEncodeCodePoint codePoint
    if sequenceSize ≤ 0 then []
    else getUtf8StringFrom (utf8String ++ encodeCodePoint codePoint.toNat sequenceSize.toNat) rest

/-- `Utf8Utils::getUtf8String` (line 84). -/
def getUtf8String (codePoints : List Int) : List UInt8 :=
  getUtf8StringFrom [] codePoints

end Utf8Utils

end DictToolkit
