import DictToolkit.Utils.Utf8Utils

/-!
# The UTF-8 round trips

What `getCodePoints` and `getUtf8String` compute, by ranges of bytes and of code points, and the
two round trips between them.

* `getCodePoints_getUtf8String`: on code points of `0..0x10FFFF`, decoding the encoding gives
  the list back exactly when no code point is in plane 16 (`0x100000..0x10FFFF`), and the empty
  vector otherwise: `FIRST_BYTE_CODE_POINT_BITS_MASKS[4]` is `0x03`, so a four-byte first byte
  keeps two of its three bits (`getCodePoints_getUtf8String_plane16`).
* `getCodePoints_flatten`: on a string cut into framed sequences (a first byte, then as many
  `10xxxxxx` bytes as it announces) the decoder returns their code points, unless one is an
  overlong form; a sequence cut short at the end is dropped (`getCodePoints_flatten_truncated`).
* `getUtf8String_getCodePoints`: on such a string with four-byte first bytes below `F4`, encoding
  undoes decoding. Without the marks it does not: the decoder never checks the `10xxxxxx` marker of
  trailing bytes nor a sequence cut short at the end (`getCodePoints_unmarked_trailing_byte`).
-/

namespace DictToolkit

namespace Utf8Utils

/-! ## The tables -/

/-- The size `getSequenceSizeByCheckingFirstByte` announces, by ranges of the byte. -/
def leadSize (b : Nat) : Int :=
  if b < 0x80 then 1 else if b < 0xC0 then -1 else if b < 0xE0 then 2 else if b < 0xF0 then 3
  else if b < 0xF8 then 4 else -1

set_option maxRecDepth 4000 in
theorem getSequenceSizeByCheckingFirstByte_eq (c : UInt8) :
    getSequenceSizeByCheckingFirstByte c = leadSize c.toNat := by
  have h := c.toNat_lt_size
  unfold getSequenceSizeByCheckingFirstByte
  generalize c.toNat = n at h ⊢
  revert n
  decide

/-- The ranges of first bytes, read back from the size they announce. -/
theorem leadSize_eq {b n : Nat} (h : leadSize b = n + 1) :
    (n = 0 ∧ b < 0x80) ∨ (n = 1 ∧ 0xC0 ≤ b ∧ b < 0xE0) ∨ (n = 2 ∧ 0xE0 ≤ b ∧ b < 0xF0) ∨
      (n = 3 ∧ 0xF0 ≤ b ∧ b < 0xF8) := by
  unfold leadSize at h
  repeat' split at h
  all_goals omega

/-- `getSequenceSizeToEncodeCodePoint` by ranges of the code point. -/
theorem getSequenceSizeToEncodeCodePoint_eq (cp : Int) :
    getSequenceSizeToEncodeCodePoint cp =
      if cp < 0 then -1 else if cp ≤ 0x7F then 1 else if cp ≤ 0x7FF then 2 else if cp ≤ 0xFFFF then 3
      else if cp ≤ 0x10FFFF then 4 else -1 := by
  unfold getSequenceSizeToEncodeCodePoint
  simp only [MAX_SEQUENCE_SIZE_FOR_A_CODE_POINT, MAX_ENCODED_CODE_POINT_VALUES, List.range', List.find?]
  by_cases h0 : cp < 0 <;> simp [h0]
  by_cases h1 : cp ≤ 0x7F <;> simp [h1]
  by_cases h2 : cp ≤ 0x7FF <;> simp [h2]
  by_cases h3 : cp ≤ 0xFFFF <;> simp [h3]
  by_cases h4 : cp ≤ 0x10FFFF <;> simp [h4]

/-- Every code point of `0..0x10FFFF` can be encoded. -/
theorem getSequenceSizeToEncodeCodePoint_pos {cp : Int} (h0 : 0 ≤ cp) (h : cp ≤ 0x10FFFF) :
    0 < getSequenceSizeToEncodeCodePoint cp := by
  rw [getSequenceSizeToEncodeCodePoint_eq, if_neg (by omega)]
  repeat' split
  all_goals omega

/-- The masks of the tables keep the low bits: each is a power of two less one. -/
theorem land_masks : (∀ x : Nat, x &&& 0x7F = x % 128) ∧ (∀ x : Nat, x &&& 0x1F = x % 32) ∧
    (∀ x : Nat, x &&& 0x0F = x % 16) ∧ (∀ x : Nat, x &&& 0x03 = x % 4) ∧
    (∀ x : Nat, x &&& 0x3F = x % 64) :=
  ⟨(Nat.and_pow_two_sub_one_eq_mod · 7), (Nat.and_pow_two_sub_one_eq_mod · 5),
    (Nat.and_pow_two_sub_one_eq_mod · 4), (Nat.and_pow_two_sub_one_eq_mod · 2),
    (Nat.and_pow_two_sub_one_eq_mod · 6)⟩

/-- Or-ing a marker into a value below the marker's bits adds it. -/
theorem lor_markers : (∀ v < 64, v ||| 0x80 = 0x80 + v) ∧ (∀ v < 32, v ||| 0xC0 = 0xC0 + v) ∧
    (∀ v < 16, v ||| 0xE0 = 0xE0 + v) ∧ (∀ v < 8, v ||| 0xF0 = 0xF0 + v) := by
  decide

/-- `static_cast<char>` keeps a value below 256. -/
theorem toNat_ofNat {n : Nat} (h : n < 256) : (UInt8.ofNat n).toNat = n :=
  UInt8.toNat_ofNat_of_lt h

/-- A byte written from its value is that byte. -/
theorem ofNat_eq {n : Nat} {c : UInt8} (h : n = c.toNat) : UInt8.ofNat n = c :=
  UInt8.toNat.inj (by rw [toNat_ofNat (h ▸ c.toNat_lt_size)]; exact h)

/-- Bytes written from their values are those bytes. -/
theorem map_ofNat_toNat (l : List UInt8) : (l.map UInt8.toNat).map UInt8.ofNat = l := by
  rw [List.map_map]
  exact (List.map_congr_left fun c _ => ofNat_eq rfl).trans (List.map_id _)

/-! ## The decoder, byte by byte -/

/-- A first byte without a marker ends the decoder with the empty vector. -/
theorem getCodePointsFrom_invalid {s cp : Int} {acc : List Int} {c : UInt8} {rest : List UInt8}
    (hc : getSequenceSizeByCheckingFirstByte c ≤ 0) : getCodePointsFrom 0 s cp acc (c :: rest) = [] := by
  simp [getCodePointsFrom, hc]

/-- A first byte of a longer sequence sets the state for its trailing bytes. -/
theorem getCodePointsFrom_lead {s cp : Int} {acc : List Int} {c : UInt8} {rest : List UInt8}
    {n : Nat} (hc : getSequenceSizeByCheckingFirstByte c = n + 1) (hn : 0 < n) :
    getCodePointsFrom 0 s cp acc (c :: rest) = getCodePointsFrom n (n + 1) (maskFirstByte c (n + 1)) acc rest := by
  have : ¬ ((n : Int) + 1 ≤ 0) := by omega
  simp [getCodePointsFrom, hc, this]
  omega

/-- The last byte of a sequence checks the code point for redundancy and pushes it. -/
theorem getCodePointsFrom_last {r s cp : Int} {acc : List Int} {c : UInt8} {rest : List UInt8}
    (hr : r = 1) :
    getCodePointsFrom r s cp acc (c :: rest) =
      let cp := cp * (1 <<< CODE_POINT_BIT_COUNT_IN_TRAILING_BYTE : Nat) + maskTrailingByte c
      if cp ≤ MAX_ENCODED_CODE_POINT_VALUES (s - 1).toNat then []
      else getCodePointsFrom 0 s cp (acc ++ [cp]) rest := by
  subst hr
  simp [getCodePointsFrom]

/-- A trailing byte that is not the last one of its sequence only extends the code point. -/
theorem getCodePointsFrom_middle {r s cp : Int} {acc : List Int} {c : UInt8} {rest : List UInt8}
    (hr : r ≠ 0) (hr1 : r - 1 ≠ 0) :
    getCodePointsFrom r s cp acc (c :: rest) =
      getCodePointsFrom (r - 1) s (cp * (1 <<< CODE_POINT_BIT_COUNT_IN_TRAILING_BYTE : Nat) + maskTrailingByte c)
        acc rest := by
  simp [getCodePointsFrom, hr, hr1]

/-- The code point a first byte and its trailing bytes spell, as the loop accumulates it. -/
def decodeSequence : List UInt8 → Int
  | [] => 0
  | c :: ts => ts.foldl (fun cp t => cp * (1 <<< CODE_POINT_BIT_COUNT_IN_TRAILING_BYTE : Nat) + maskTrailingByte t)
      (maskFirstByte c (ts.length + 1))

/-- One byte spells its seven low bits. -/
theorem decodeSequence_one (c : UInt8) : decodeSequence [c] = (c.toNat % 128 : Nat) := by
  simp [decodeSequence, maskFirstByte, FIRST_BYTE_CODE_POINT_BITS_MASKS, land_masks.1]

/-- Two bytes spell the five low bits of the first, then the six low bits of the second. -/
theorem decodeSequence_two (c t : UInt8) :
    decodeSequence [c, t] = (c.toNat % 32 * 64 + t.toNat % 64 : Nat) := by
  simp [decodeSequence, maskFirstByte, maskTrailingByte, FIRST_BYTE_CODE_POINT_BITS_MASKS,
    TRAILING_BYTE_CODE_POINT_BITS_MASK, CODE_POINT_BIT_COUNT_IN_TRAILING_BYTE, land_masks.2.1,
    land_masks.2.2.2.2]

/-- Three bytes spell the four low bits of the first, then six low bits of each other one. -/
theorem decodeSequence_three (c t₁ t₂ : UInt8) :
    decodeSequence [c, t₁, t₂] = (c.toNat % 16 * 4096 + t₁.toNat % 64 * 64 + t₂.toNat % 64 : Nat) := by
  simp [decodeSequence, maskFirstByte, maskTrailingByte, FIRST_BYTE_CODE_POINT_BITS_MASKS,
    TRAILING_BYTE_CODE_POINT_BITS_MASK, CODE_POINT_BIT_COUNT_IN_TRAILING_BYTE, land_masks.2.2.1,
    land_masks.2.2.2.2]
  omega

/-- Four bytes spell only the two low bits of the first, `FIRST_BYTE_CODE_POINT_BITS_MASKS[4]`
being `0x03`, then six low bits of each other one. -/
theorem decodeSequence_four (c t₁ t₂ t₃ : UInt8) :
    decodeSequence [c, t₁, t₂, t₃] =
      (c.toNat % 4 * 262144 + t₁.toNat % 64 * 4096 + t₂.toNat % 64 * 64 + t₃.toNat % 64 : Nat) := by
  simp [decodeSequence, maskFirstByte, maskTrailingByte, FIRST_BYTE_CODE_POINT_BITS_MASKS,
    TRAILING_BYTE_CODE_POINT_BITS_MASK, CODE_POINT_BIT_COUNT_IN_TRAILING_BYTE, land_masks.2.2.2.1,
    land_masks.2.2.2.2]
  omega

/-- The trailing bytes of a sequence, read from their state. -/
theorem getCodePointsFrom_trailing {s : Int} {acc : List Int} {rest : List UInt8}
    (ts : List UInt8) (hts : ts ≠ []) (cp : Int) :
    getCodePointsFrom ts.length s cp acc (ts ++ rest) =
      let v := ts.foldl (fun cp t => cp * (1 <<< CODE_POINT_BIT_COUNT_IN_TRAILING_BYTE : Nat) +
        maskTrailingByte t) cp
      if v ≤ MAX_ENCODED_CODE_POINT_VALUES (s - 1).toNat then []
      else getCodePointsFrom 0 s v (acc ++ [v]) rest := by
  induction ts generalizing cp with
  | nil => exact absurd rfl hts
  | cons t ts ih =>
    cases ts with
    | nil => exact getCodePointsFrom_last (by simp)
    | cons t' ts =>
      have e : (((t :: t' :: ts).length : Nat) : Int) - 1 = ((t' :: ts).length : Nat) := by simp
      rw [List.cons_append, getCodePointsFrom_middle (by simp; omega) (by simp; omega), e,
        List.foldl_cons]
      exact ih (List.cons_ne_nil _ _) _

/-- **A whole sequence**: from a sequence boundary, a first byte and as many trailing bytes as it
announces push the code point they spell, or end the decoder when it is redundant. -/
theorem getCodePointsFrom_sequence {s cp : Int} {acc : List Int} {c : UInt8} {ts rest : List UInt8}
    (hc : getSequenceSizeByCheckingFirstByte c = ts.length + 1) :
    getCodePointsFrom 0 s cp acc (c :: ts ++ rest) =
      if decodeSequence (c :: ts) ≤ MAX_ENCODED_CODE_POINT_VALUES ts.length then []
      else getCodePointsFrom 0 (ts.length + 1) (decodeSequence (c :: ts))
        (acc ++ [decodeSequence (c :: ts)]) rest := by
  cases ts with
  | nil => simp [getCodePointsFrom, hc, decodeSequence]
  | cons t ts =>
    rw [List.cons_append, getCodePointsFrom_lead hc (by simp),
      getCodePointsFrom_trailing (t :: ts) (List.cons_ne_nil _ _)]
    simp [decodeSequence]

@[simp] theorem getCodePointsFrom_nil {r s cp : Int} {acc : List Int} :
    getCodePointsFrom r s cp acc [] = acc := rfl

/-- Between two sequences the state of the decoder is only the code points pushed. -/
theorem getCodePointsFrom_zero_state (s cp : Int) (acc : List Int) (rest : List UInt8) :
    getCodePointsFrom 0 s cp acc rest = getCodePointsFrom 0 0 0 acc rest := by
  cases rest <;> simp [getCodePointsFrom]

/-- Bytes still owed when the string ends are dropped: the code points pushed are the result. -/
theorem getCodePointsFrom_owed {s : Int} :
    ∀ {r cp : Int} {acc : List Int} (ts : List UInt8), (ts.length : Int) < r → getCodePointsFrom r s cp acc ts = acc
  | _, _, _, [], _ => rfl
  | r, _, _, _ :: ts, h => by
    have : ((ts.length + 1 : Nat) : Int) < r := h
    rw [getCodePointsFrom_middle (by omega) (by omega)]
    exact getCodePointsFrom_owed ts (by omega)

/-- A first byte followed by fewer bytes than it announces, at the end of the string, is dropped. -/
theorem getCodePointsFrom_truncated {s cp : Int} {acc : List Int} {c : UInt8} {ts : List UInt8}
    (hc : (ts.length : Int) + 1 < getSequenceSizeByCheckingFirstByte c) :
    getCodePointsFrom 0 s cp acc (c :: ts) = acc := by
  obtain ⟨n, hn⟩ : ∃ n : Nat, getSequenceSizeByCheckingFirstByte c = n + 1 :=
    ⟨(getSequenceSizeByCheckingFirstByte c - 1).toNat, by omega⟩
  rw [getCodePointsFrom_lead hn (by omega)]
  exact getCodePointsFrom_owed ts (by omega)

/-! ## The encoder -/

/-- The UTF-8 bytes of a code point, as numbers: the shortest form. -/
def utf8Bytes (cp : Nat) : List Nat :=
  if cp ≤ 0x7F then [cp]
  else if cp ≤ 0x7FF then [0xC0 + cp / 64, 0x80 + cp % 64]
  else if cp ≤ 0xFFFF then [0xE0 + cp / 4096, 0x80 + cp / 64 % 64, 0x80 + cp % 64]
  else [0xF0 + cp / 262144, 0x80 + cp / 4096 % 64, 0x80 + cp / 64 % 64, 0x80 + cp % 64]

/-- The bytes `getUtf8String` pushes for an encodable code point are its shortest form. -/
theorem encodeCodePoint_eq {cp : Nat} (h : cp ≤ 0x10FFFF) :
    encodeCodePoint cp (getSequenceSizeToEncodeCodePoint cp).toNat = (utf8Bytes cp).map UInt8.ofNat := by
  obtain ⟨l80, lC0, lE0, lF0⟩ := lor_markers
  obtain ⟨-, -, -, -, m6⟩ := land_masks
  rw [getSequenceSizeToEncodeCodePoint_eq, if_neg (show ¬ (cp : Int) < 0 by omega)]
  simp only [utf8Bytes, encodeCodePoint, CODE_POINT_BIT_COUNT_IN_TRAILING_BYTE,
    TRAILING_BYTE_CODE_POINT_BITS_MASK, m6, Nat.shiftRight_eq_div_pow, TRAILING_BYTE_MARKER]
  by_cases h1 : cp ≤ 0x7F
  · rw [if_pos (show (cp : Int) ≤ 0x7F by omega)]
    simp [h1, FIRST_BYTE_MARKERS]
  rw [if_neg (show ¬ (cp : Int) ≤ 0x7F by omega)]
  by_cases h2 : cp ≤ 0x7FF
  · rw [if_pos (show (cp : Int) ≤ 0x7FF by omega)]
    simp [h1, h2, FIRST_BYTE_MARKERS, List.range', lC0 (cp / 64) (by omega), l80 (cp % 64) (by omega)]
  rw [if_neg (show ¬ (cp : Int) ≤ 0x7FF by omega)]
  by_cases h3 : cp ≤ 0xFFFF
  · rw [if_pos (show (cp : Int) ≤ 0xFFFF by omega)]
    simp [h1, h2, h3, FIRST_BYTE_MARKERS, List.range', lE0 (cp / 4096) (by omega), l80 (cp / 64 % 64) (by omega),
      l80 (cp % 64) (by omega)]
  rw [if_neg (show ¬ (cp : Int) ≤ 0xFFFF by omega), if_pos (show (cp : Int) ≤ 0x10FFFF by omega)]
  simp [h1, h2, h3, FIRST_BYTE_MARKERS, List.range', lF0 (cp / 262144) (by omega), l80 (cp / 4096 % 64) (by omega),
    l80 (cp / 64 % 64) (by omega), l80 (cp % 64) (by omega)]

/-- The encoder on a list of encodable code points: their shortest forms, one after another. -/
theorem getUtf8StringFrom_eq {acc : List UInt8} :
    ∀ {cps : List Int}, (∀ cp ∈ cps, 0 ≤ cp ∧ cp ≤ 0x10FFFF) →
      getUtf8StringFrom acc cps = acc ++ cps.flatMap fun cp => (utf8Bytes cp.toNat).map UInt8.ofNat
  | [], _ => by simp [getUtf8StringFrom]
  | cp :: rest, h => by
    obtain ⟨n, rfl⟩ := Int.eq_ofNat_of_zero_le (h cp (.head _)).1
    have hn : n ≤ 0x10FFFF := by have := (h _ (.head _)).2; omega
    rw [getUtf8StringFrom,
      if_neg (Int.not_le.mpr (getSequenceSizeToEncodeCodePoint_pos (Int.ofNat_nonneg n) (by omega))), Int.toNat_ofNat, encodeCodePoint_eq hn,
      getUtf8StringFrom_eq fun cp hcp => h cp (.tail _ hcp)]
    simp

/-! ## Encoding, then decoding -/

/-- The shortest form of an encodable code point starts with a first byte announcing its length. -/
theorem utf8Bytes_lead {cp : Nat} (h : cp ≤ 0x10FFFF) : ∃ c ts, (utf8Bytes cp).map UInt8.ofNat = c :: ts ∧
    getSequenceSizeByCheckingFirstByte c = ts.length + 1 := by
  unfold utf8Bytes
  repeat' split
  all_goals
    refine ⟨_, _, rfl, ?_⟩
    rw [getSequenceSizeByCheckingFirstByte_eq, toNat_ofNat (by omega)]
    simp [leadSize]
    omega

/-- The shortest form is not redundant: no shorter sequence reaches its code point. -/
theorem max_lt_utf8Bytes (cp : Nat) : MAX_ENCODED_CODE_POINT_VALUES ((utf8Bytes cp).length - 1) < cp := by
  unfold utf8Bytes
  repeat' split
  all_goals simp [MAX_ENCODED_CODE_POINT_VALUES]; omega

/-- Decoding the shortest form of an encodable code point loses its bit `0x100000` only: the
mask `0x03` of four-byte first bytes keeps two of their three bits. -/
theorem decodeSequence_utf8Bytes {cp : Nat} (h : cp ≤ 0x10FFFF) :
    decodeSequence ((utf8Bytes cp).map UInt8.ofNat) = (cp % 0x100000 : Nat) := by
  unfold utf8Bytes
  repeat' split
  · rw [List.map_cons, List.map_nil, decodeSequence_one, toNat_ofNat (by omega)]
    omega
  · rw [List.map_cons, List.map_cons, List.map_nil, decodeSequence_two, toNat_ofNat (by omega),
      toNat_ofNat (by omega)]
    omega
  · rw [List.map_cons, List.map_cons, List.map_cons, List.map_nil, decodeSequence_three,
      toNat_ofNat (by omega), toNat_ofNat (by omega), toNat_ofNat (by omega)]
    omega
  · rw [List.map_cons, List.map_cons, List.map_cons, List.map_cons, List.map_nil, decodeSequence_four,
      toNat_ofNat (by omega), toNat_ofNat (by omega), toNat_ofNat (by omega), toNat_ofNat (by omega)]
    omega

/-- Decoding the shortest form of a code point: the code point, except in plane 16, where the
value left is redundant. -/
theorem getCodePointsFrom_utf8Bytes {s c : Int} {acc : List Int} {rest : List UInt8} {cp : Nat}
    (h : cp ≤ 0x10FFFF) :
    getCodePointsFrom 0 s c acc ((utf8Bytes cp).map UInt8.ofNat ++ rest) =
      if cp ≤ 0xFFFFF then getCodePointsFrom 0 (utf8Bytes cp).length cp (acc ++ [(cp : Int)]) rest
      else [] := by
  obtain ⟨b, bs, hbs, hsize⟩ := utf8Bytes_lead h
  have hlen : (utf8Bytes cp).length = bs.length + 1 := by simpa using congrArg List.length hbs
  have hmax := max_lt_utf8Bytes cp
  rw [hlen, Nat.add_sub_cancel] at hmax
  rw [hbs, getCodePointsFrom_sequence hsize, ← hbs, decodeSequence_utf8Bytes h, hlen]
  by_cases h4 : cp ≤ 0xFFFFF
  · rw [Nat.mod_eq_of_lt (show cp < 0x100000 by omega), if_neg (by omega), if_pos h4]
    rfl
  · have h3 : bs.length = 3 := by
      rw [utf8Bytes, if_neg (by omega), if_neg (by omega), if_neg (by omega)] at hlen
      simpa using hlen.symm
    rw [if_pos (by rw [h3]; simp [MAX_ENCODED_CODE_POINT_VALUES]; omega), if_neg h4]

/-- The decoder on the shortest forms of a list of encodable code points: the list back when no
code point is in plane 16, and the empty vector otherwise. -/
theorem getCodePointsFrom_flatMap {s c : Int} {acc : List Int} :
    ∀ {cps : List Int}, (∀ cp ∈ cps, 0 ≤ cp ∧ cp ≤ 0x10FFFF) →
      getCodePointsFrom 0 s c acc (cps.flatMap fun cp => (utf8Bytes cp.toNat).map UInt8.ofNat) =
        if ∀ cp ∈ cps, cp ≤ 0xFFFFF then acc ++ cps else []
  | [], _ => by simp [getCodePointsFrom]
  | cp :: rest, h => by
    obtain ⟨n, rfl⟩ := Int.eq_ofNat_of_zero_le (h cp (.head _)).1
    have hn : n ≤ 0x10FFFF := by have := (h _ (.head _)).2; omega
    rw [List.flatMap_cons, Int.toNat_ofNat, getCodePointsFrom_utf8Bytes hn]
    by_cases h4 : n ≤ 0xFFFFF
    · rw [if_pos h4, getCodePointsFrom_flatMap fun cp hcp => h cp (.tail _ hcp)]
      simp [show (n : Int) ≤ 0xFFFFF by omega]
    · rw [if_neg h4, if_neg]
      exact fun hall => h4 (by have := hall _ (.head _); omega)

/-- **Encoding then decoding gives the code points back, outside plane 16.** For code points in
`0..0x10FFFF`, decoding `getUtf8String cps` returns `cps` when none is above `0xFFFFF`, and the
empty vector otherwise. -/
theorem getCodePoints_getUtf8String {cps : List Int} (h : ∀ cp ∈ cps, 0 ≤ cp ∧ cp ≤ 0x10FFFF) :
    getCodePoints (getUtf8String cps) = if ∀ cp ∈ cps, cp ≤ 0xFFFFF then cps else [] := by
  rw [getUtf8String, getUtf8StringFrom_eq h, List.nil_append, getCodePoints,
    getCodePointsFrom_flatMap h, List.nil_append]

/-- Two code points of the tests, one of four bytes. -/
theorem getCodePoints_getUtf8String_cookie :
    (∀ cp ∈ ([0x1F36A, 0x3F] : List Int), 0 ≤ cp ∧ cp ≤ 0x10FFFF) ∧
      getCodePoints (getUtf8String [0x1F36A, 0x3F]) =
        if ∀ cp ∈ ([0x1F36A, 0x3F] : List Int), cp ≤ 0xFFFFF then [0x1F36A, 0x3F] else [] :=
  ⟨by decide, getCodePoints_getUtf8String (by decide)⟩

/-- **Plane 16 does not survive the round trip**: a code point of `0x100000..0x10FFFF` encodes with
the first byte `F4`, which loses its bit `0x04` to the mask `0x03`; the value left is redundant, and
decoding returns the empty vector for the whole list. -/
theorem getCodePoints_getUtf8String_plane16 {cps : List Int} (h : ∀ cp ∈ cps, 0 ≤ cp ∧ cp ≤ 0x10FFFF)
    (h16 : ∃ cp ∈ cps, 0xFFFFF < cp) : getCodePoints (getUtf8String cps) = [] := by
  obtain ⟨cp, hcp, hlt⟩ := h16
  rw [getUtf8String, getUtf8StringFrom_eq h, List.nil_append, getCodePoints, getCodePointsFrom_flatMap h,
    if_neg fun hall => absurd (hall cp hcp) (by omega)]

/-- `U+100000`, the first code point of plane 16, written `F4 80 80 80`. -/
theorem getCodePoints_getUtf8String_U100000 :
    (∀ cp ∈ ([0x100000] : List Int), 0 ≤ cp ∧ cp ≤ 0x10FFFF) ∧
      (∃ cp ∈ ([0x100000] : List Int), 0xFFFFF < cp) ∧ getCodePoints (getUtf8String [0x100000]) = [] :=
  ⟨by decide, ⟨_, .head _, by decide⟩,
    getCodePoints_getUtf8String_plane16 (by decide) ⟨_, .head _, by decide⟩⟩

/-! ## Decoding, then encoding -/

/-- A sequence as the decoder segments a string: a first byte, then exactly as many `10xxxxxx`
bytes as it announces. The four-byte first bytes are `F0` to `F7`. -/
def SequenceFramed : List UInt8 → Prop
  | [] => False
  | c :: ts => getSequenceSizeByCheckingFirstByte c = ts.length + 1 ∧
      ∀ t ∈ ts, 0x80 ≤ t.toNat ∧ t.toNat < 0xC0

instance : DecidablePred SequenceFramed
  | [] => isFalse id
  | _ :: _ => inferInstanceAs (Decidable (_ ∧ _))

/-- A sequence as the decoder segments a string: a first byte, then exactly as many `10xxxxxx`
bytes as it announces, and a four-byte first byte below `F4`. -/
def SequenceMarked : List UInt8 → Prop
  | [] => False
  | c :: ts => getSequenceSizeByCheckingFirstByte c = ts.length + 1 ∧
      (∀ t ∈ ts, 0x80 ≤ t.toNat ∧ t.toNat < 0xC0) ∧ (ts.length = 3 → c.toNat < 0xF4)

instance : DecidablePred SequenceMarked
  | [] => isFalse id
  | _ :: _ => inferInstanceAs (Decidable (_ ∧ _ ∧ _))

theorem SequenceMarked.framed : ∀ {seq : List UInt8}, SequenceMarked seq → SequenceFramed seq
  | _ :: _, ⟨hs, ht, _⟩ => ⟨hs, ht⟩

/-- Whether the decoder rejects a sequence as redundant: its code point fits a shorter one. -/
def Redundant (seq : List UInt8) : Prop :=
  decodeSequence seq ≤ MAX_ENCODED_CODE_POINT_VALUES (seq.length - 1)

instance : DecidablePred Redundant := fun _ => inferInstanceAs (Decidable (_ ≤ _))

/-- A marked sequence that is not redundant spells an encodable code point whose shortest form is
the sequence itself. -/
theorem utf8Bytes_decodeSequence {c : UInt8} {ts : List UInt8} (hm : SequenceMarked (c :: ts))
    (hr : ¬ Redundant (c :: ts)) :
    0 ≤ decodeSequence (c :: ts) ∧ decodeSequence (c :: ts) ≤ 0x10FFFF ∧
      (utf8Bytes (decodeSequence (c :: ts)).toNat).map UInt8.ofNat = c :: ts := by
  obtain ⟨hs, ht, h4⟩ := hm
  rw [Redundant, List.length_cons, Nat.add_sub_cancel] at hr
  rw [getSequenceSizeByCheckingFirstByte_eq] at hs
  suffices ∃ v : Nat, decodeSequence (c :: ts) = v ∧ v ≤ 0x10FFFF ∧
      utf8Bytes v = (c :: ts).map UInt8.toNat by
    obtain ⟨v, hv, hle, henc⟩ := this
    rw [hv, Int.toNat_ofNat, henc]
    exact ⟨by omega, by omega, map_ofNat_toNat _⟩
  have hc := c.toNat_lt_size
  rcases leadSize_eq hs with ⟨hn, hc1⟩ | ⟨hn, hc1, hc2⟩ | ⟨hn, hc1, hc2⟩ | ⟨hn, hc1, hc2⟩ <;>
    obtain _ | ⟨t₁, _ | ⟨t₂, _ | ⟨t₃, _ | ⟨_, _⟩⟩⟩⟩ := ts <;>
    simp at hn
  · refine ⟨_, decodeSequence_one c, by omega, ?_⟩
    rw [utf8Bytes, if_pos (by omega)]
    simp only [List.map_cons, List.map_nil, List.cons.injEq, and_true]
    omega
  · have ht₁ := ht t₁ (.head _)
    rw [decodeSequence_two, show MAX_ENCODED_CODE_POINT_VALUES [t₁].length = 0x7F from rfl] at hr
    refine ⟨_, decodeSequence_two c t₁, by omega, ?_⟩
    rw [utf8Bytes, if_neg (by omega), if_pos (by omega)]
    simp only [List.map_cons, List.map_nil, List.cons.injEq, and_true]
    omega
  · have ht₁ := ht t₁ (.head _)
    have ht₂ := ht t₂ (.tail _ (.head _))
    rw [decodeSequence_three, show MAX_ENCODED_CODE_POINT_VALUES [t₁, t₂].length = 0x7FF from rfl] at hr
    refine ⟨_, decodeSequence_three c t₁ t₂, by omega, ?_⟩
    rw [utf8Bytes, if_neg (by omega), if_neg (by omega), if_pos (by omega)]
    simp only [List.map_cons, List.map_nil, List.cons.injEq, and_true]
    omega
  · have hF4 := h4 rfl
    have ht₁ := ht t₁ (.head _)
    have ht₂ := ht t₂ (.tail _ (.head _))
    have ht₃ := ht t₃ (.tail _ (.tail _ (.head _)))
    rw [decodeSequence_four, show MAX_ENCODED_CODE_POINT_VALUES [t₁, t₂, t₃].length = 0xFFFF from rfl] at hr
    refine ⟨_, decodeSequence_four c t₁ t₂ t₃, by omega, ?_⟩
    rw [utf8Bytes, if_neg (by omega), if_neg (by omega), if_neg (by omega)]
    simp only [List.map_cons, List.map_nil, List.cons.injEq, and_true]
    omega

/-- The decoder on a string cut into framed sequences, then any bytes: it goes on after the
code points of the sequences when none is redundant, and returns the empty vector otherwise. -/
theorem getCodePointsFrom_flatten {s c : Int} {acc : List Int} {rest : List UInt8} :
    ∀ {segs : List (List UInt8)}, (∀ seg ∈ segs, SequenceFramed seg) →
      getCodePointsFrom 0 s c acc (segs.flatten ++ rest) =
        if ∀ seg ∈ segs, ¬ Redundant seg then getCodePointsFrom 0 0 0 (acc ++ segs.map decodeSequence) rest
        else []
  | [], _ => by simp [getCodePointsFrom_zero_state s c]
  | [] :: _, h => (h [] (.head _)).elim
  | (c :: ts) :: segs, h => by
    rw [List.flatten_cons, List.append_assoc, getCodePointsFrom_sequence (h _ (.head _)).1]
    by_cases hr : Redundant (c :: ts)
    · rw [if_pos (by simpa [Redundant] using hr), if_neg fun hall => hall _ (.head _) hr]
    · rw [if_neg (by simpa [Redundant] using hr), getCodePointsFrom_flatten fun seg hs => h seg (.tail _ hs)]
      by_cases hall : ∀ seg ∈ segs, ¬ Redundant seg
      · rw [if_pos hall, if_pos fun seg hs => (List.mem_cons.mp hs).elim (· ▸ hr) (hall seg)]
        simp
      · rw [if_neg hall, if_neg fun h' => hall (List.forall_mem_cons.mp h').2]

/-- **The decoder on a well-framed string** returns the code points of its sequences when none
is an overlong form, and the empty vector as soon as one is. The four-byte first bytes `F4` to
`F7` are read like the others, through the `0x03` mask. -/
theorem getCodePoints_flatten {segs : List (List UInt8)} (hm : ∀ seg ∈ segs, SequenceFramed seg) :
    getCodePoints segs.flatten =
      if ∀ seg ∈ segs, ¬ Redundant seg then segs.map decodeSequence else [] := by
  rw [getCodePoints, ← List.append_nil segs.flatten, getCodePointsFrom_flatten hm, getCodePointsFrom_nil,
    List.nil_append]

/-- The test's overlong `C0 AF` next to `A`. -/
theorem getCodePoints_flatten_overlong :
    (∀ seg ∈ ([[0x41], [0xC0, 0xAF]] : List (List UInt8)), SequenceFramed seg) ∧
      getCodePoints [[0x41], [0xC0, 0xAF]].flatten =
        if ∀ seg ∈ ([[0x41], [0xC0, 0xAF]] : List (List UInt8)), ¬ Redundant seg then
          [[0x41], [0xC0, 0xAF]].map decodeSequence else [] :=
  ⟨by decide, getCodePoints_flatten (by decide)⟩

/-- **A sequence cut short at the end is dropped.** After a string cut into framed sequences, a
first byte followed by fewer bytes than it announces changes nothing: the decoder returns what it
returns without them. -/
theorem getCodePoints_flatten_truncated {segs : List (List UInt8)}
    (hm : ∀ seg ∈ segs, SequenceFramed seg) {c : UInt8} {ts : List UInt8}
    (hc : (ts.length : Int) + 1 < getSequenceSizeByCheckingFirstByte c) :
    getCodePoints (segs.flatten ++ c :: ts) = getCodePoints segs.flatten := by
  rw [getCodePoints, getCodePoints, getCodePointsFrom_flatten hm, ← List.append_nil segs.flatten,
    getCodePointsFrom_flatten hm, getCodePointsFrom_truncated hc, getCodePointsFrom_nil]

/-- `A` then the first two bytes `E2 82` of `€`. -/
theorem getCodePoints_flatten_truncated_euro :
    (∀ seg ∈ ([[0x41]] : List (List UInt8)), SequenceFramed seg) ∧
      (([0x82] : List UInt8).length : Int) + 1 < getSequenceSizeByCheckingFirstByte 0xE2 ∧
      getCodePoints (([[0x41]] : List (List UInt8)).flatten ++ [0xE2, 0x82]) =
        getCodePoints ([[0x41]] : List (List UInt8)).flatten :=
  ⟨by decide, by decide, getCodePoints_flatten_truncated (by decide) (by decide)⟩

/-- **On a well-marked string, encoding undoes decoding.** If a byte string is a sequence of first
bytes each followed by exactly as many `10xxxxxx` bytes as it announces, with four-byte first
bytes below `F4`, and the decoder returns a non-empty vector, then encoding that vector gives the
string back. -/
theorem getUtf8String_getCodePoints {s : List UInt8} {segs : List (List UInt8)}
    (hs : s = segs.flatten) (hm : ∀ seg ∈ segs, SequenceMarked seg) (hne : getCodePoints s ≠ []) :
    getUtf8String (getCodePoints s) = s := by
  subst hs
  rw [getCodePoints, ← List.append_nil segs.flatten, getCodePointsFrom_flatten fun seg h => (hm seg h).framed,
    getCodePointsFrom_nil] at hne ⊢
  by_cases hall : ∀ seg ∈ segs, ¬ Redundant seg
  · have hseg : ∀ seg ∈ segs, 0 ≤ decodeSequence seg ∧ decodeSequence seg ≤ 0x10FFFF ∧
        (utf8Bytes (decodeSequence seg).toNat).map UInt8.ofNat = seg := fun seg hseg =>
      match seg, hm seg hseg, hall seg hseg with
      | _ :: _, hm, hr => utf8Bytes_decodeSequence hm hr
    rw [if_pos hall, List.nil_append, getUtf8String,
      getUtf8StringFrom_eq fun cp hcp => by
        obtain ⟨seg, hseg', rfl⟩ := List.mem_map.mp hcp
        exact ⟨(hseg seg hseg').1, (hseg seg hseg').2.1⟩,
      List.nil_append, List.flatMap_map, List.flatMap_def, List.map_congr_left fun seg hseg' => (hseg seg hseg').2.2,
      List.map_id', List.append_nil]
  · rw [if_neg hall] at hne
    exact absurd rfl hne

/-- `à` and `A`, as the encoder writes them. -/
theorem getUtf8String_getCodePoints_a_grave :
    [0xC3, 0xA0, 0x41] = ([[0xC3, 0xA0], [0x41]] : List (List UInt8)).flatten ∧
      (∀ seg ∈ ([[0xC3, 0xA0], [0x41]] : List (List UInt8)), SequenceMarked seg) ∧
      getCodePoints [0xC3, 0xA0, 0x41] ≠ [] ∧
      getUtf8String (getCodePoints [0xC3, 0xA0, 0x41]) = [0xC3, 0xA0, 0x41] := by
  have hm : ∀ seg ∈ ([[0xC3, 0xA0], [0x41]] : List (List UInt8)), SequenceMarked seg := by decide
  exact ⟨rfl, hm, by decide, getUtf8String_getCodePoints
    (show [0xC3, 0xA0, 0x41] = ([[0xC3, 0xA0], [0x41]] : List (List UInt8)).flatten from rfl) hm
    (by decide)⟩

/-- `C2 41` decodes to `U+0081`: the second byte's marker is never checked. -/
theorem getCodePoints_unmarked_trailing_byte :
    getCodePoints [0xC2, 0x41] ≠ [] ∧ getUtf8String (getCodePoints [0xC2, 0x41]) ≠ [0xC2, 0x41] := by
  decide

end Utf8Utils

end DictToolkit
