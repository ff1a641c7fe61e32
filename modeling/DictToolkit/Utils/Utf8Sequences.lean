import DictToolkit.Utils.Utf8UtilsCorrect

/-!
# `getCodePoints` read in two passes

`getCodePoints` decodes in one pass, carrying the state of the sequence it is in. Read in two
passes, it cuts the bytes into sequences by the size each first byte announces
(`splitSequences`), then decodes each sequence on its own (`decodeSequence`). Neither reading
checks the trailing bytes: the code does not check them.

* `getCodePoints_eq_splitSequences`: on every byte string, the one-pass loop returns what the
  two-pass reading gives: the code points of the sequences when none is redundant and the cut
  does not stop at a first byte without a marker, and the empty vector otherwise; a sequence cut
  short by the end of the string is dropped.
* `getCodePoints_append`: decoding composes where a byte string ends between two sequences.
* `getCodePoints_range`: every code point the decoder returns is in `0..0xFFFFF`, so plane 16 is
  never decoded.
* `getCodePoints_getUtf8String_getCodePoints`: encoding what the decoder returns and decoding it
  again gives it back.
* `getUtf8String_getCodePoints_eq_self_iff`: decoding, then encoding, gives back exactly the byte
  strings the cut uses up into marked, non-redundant sequences.
* `getUtf8String_eq`: the encoder writes the shortest forms of the code points when all are in
  `0..0x10FFFF`, and the empty string as soon as one is not.
-/

namespace DictToolkit

namespace Utf8Utils

/-! ## The cut into sequences -/

/-- The bytes cut into sequences by the size each first byte announces, and the bytes from where
the cut stops: a first byte without a marker, or one followed by fewer bytes than it announces. -/
def splitSequences (bytes : List UInt8) : List (List UInt8) × List UInt8 :=
  match bytes with
  | [] => ([], [])
  | c :: rest =>
    let size := getSequenceSizeByCheckingFirstByte c
    if 0 < size ∧ size ≤ rest.length + 1 then
      let next := splitSequences (rest.drop (size.toNat - 1))
      ((c :: rest.take (size.toNat - 1)) :: next.1, next.2)
    else ([], c :: rest)
termination_by bytes.length
decreasing_by simp_wf; omega

@[simp] theorem splitSequences_nil : splitSequences [] = ([], []) := by
  rw [splitSequences]

/-- A first byte with room for the size it announces starts a sequence of that size. -/
theorem splitSequences_of_sized {c : UInt8} {rest : List UInt8}
    (hc : 0 < getSequenceSizeByCheckingFirstByte c ∧
      getSequenceSizeByCheckingFirstByte c ≤ rest.length + 1) :
    let n := (getSequenceSizeByCheckingFirstByte c).toNat - 1
    splitSequences (c :: rest) =
      ((c :: rest.take n) :: (splitSequences (rest.drop n)).1, (splitSequences (rest.drop n)).2) := by
  rw [splitSequences, if_pos hc]

/-- Any other first byte stops the cut. -/
theorem splitSequences_of_stop {c : UInt8} {rest : List UInt8}
    (hc : ¬ (0 < getSequenceSizeByCheckingFirstByte c ∧
      getSequenceSizeByCheckingFirstByte c ≤ rest.length + 1)) :
    splitSequences (c :: rest) = ([], c :: rest) := by
  rw [splitSequences, if_neg hc]

/-- The size announced, as the length of the sequence the cut takes. -/
theorem size_eq_length_take {c : UInt8} {rest : List UInt8}
    (hc : 0 < getSequenceSizeByCheckingFirstByte c ∧
      getSequenceSizeByCheckingFirstByte c ≤ rest.length + 1) :
    getSequenceSizeByCheckingFirstByte c =
      (rest.take ((getSequenceSizeByCheckingFirstByte c).toNat - 1)).length + 1 := by
  rw [List.length_take]
  omega

/-- The cut loses no byte: the sequences, then where it stops, are the bytes. -/
theorem flatten_splitSequences (bytes : List UInt8) :
    (splitSequences bytes).1.flatten ++ (splitSequences bytes).2 = bytes := by
  induction bytes using splitSequences.induct with
  | case1 => simp
  | case2 c rest _ hc ih =>
    rw [splitSequences_of_sized hc, List.flatten_cons, List.append_assoc, ih, List.cons_append,
      List.take_append_drop]
  | case3 c rest _ hc => rw [splitSequences_of_stop hc]; rfl

/-- Every sequence of the cut has the size its first byte announces. -/
theorem splitSequences_sized (bytes : List UInt8) :
    ∀ seg ∈ (splitSequences bytes).1, ∃ c ts, seg = c :: ts ∧
      getSequenceSizeByCheckingFirstByte c = ts.length + 1 := by
  induction bytes using splitSequences.induct with
  | case1 => simp
  | case2 c rest _ hc ih =>
    rw [splitSequences_of_sized hc]
    rintro seg (_ | ⟨_, hseg⟩)
    · exact ⟨c, _, rfl, size_eq_length_take hc⟩
    · exact ih seg hseg
  | case3 c rest _ hc => rw [splitSequences_of_stop hc]; nofun

/-! ## The decoder against the cut -/

/-- Whether the two-pass reading goes through: no sequence of the cut is redundant, and the cut
does not stop at a first byte without a marker. -/
def DecodesCleanly (bytes : List UInt8) : Prop :=
  (∀ seg ∈ (splitSequences bytes).1, ¬ Redundant seg) ∧
    ∀ c ∈ (splitSequences bytes).2.head?, 0 < getSequenceSizeByCheckingFirstByte c

instance : DecidablePred DecodesCleanly := fun bytes =>
  @instDecidableAnd _ _ (List.decidableBAll _ _)
    (Option.instDecidableForallForallMemOfDecidablePred (splitSequences bytes).2.head?)

/-- The loop from a sequence boundary, after the code points `acc`, against the cut. -/
theorem getCodePointsFrom_splitSequences (s cp : Int) (acc : List Int) (bytes : List UInt8) :
    getCodePointsFrom 0 s cp acc bytes =
      if DecodesCleanly bytes then acc ++ (splitSequences bytes).1.map decodeSequence else [] := by
  induction bytes using splitSequences.induct generalizing s cp acc with
  | case1 => simp [DecodesCleanly]
  | case2 c rest size hc ih =>
    simp only [size] at hc ih
    have hsplit := splitSequences_of_sized hc
    have hsize := size_eq_length_take hc
    generalize (getSequenceSizeByCheckingFirstByte c).toNat - 1 = n at hsplit hsize ih
    have hstep : getCodePointsFrom 0 s cp acc (c :: rest) =
        if Redundant (c :: rest.take n) then []
        else getCodePointsFrom 0 ((rest.take n).length + 1) (decodeSequence (c :: rest.take n))
          (acc ++ [decodeSequence (c :: rest.take n)]) (rest.drop n) := by
      conv => lhs; rw [← List.take_append_drop n rest]
      exact getCodePointsFrom_sequence hsize
    rw [hstep]
    by_cases hr : Redundant (c :: rest.take n)
    · rw [if_pos hr, if_neg fun h => h.1 _ (by rw [hsplit]; exact .head _) hr]
    · have hcl : DecodesCleanly (c :: rest) ↔ DecodesCleanly (rest.drop n) := by
        simp only [DecodesCleanly, hsplit, List.forall_mem_cons, hr, not_false_eq_true, true_and]
      rw [if_neg hr, ih]
      by_cases hd : DecodesCleanly (rest.drop n)
      · rw [if_pos hd, if_pos (hcl.mpr hd), hsplit, List.map_cons, List.append_assoc,
          List.singleton_append]
      · rw [if_neg hd, if_neg (mt hcl.mp hd)]
  | case3 c rest _ hc =>
    simp only [DecodesCleanly, splitSequences_of_stop hc]
    by_cases h0 : getSequenceSizeByCheckingFirstByte c ≤ 0
    · rw [getCodePointsFrom_invalid h0, if_neg fun h => absurd (h.2 c rfl) (by omega)]
    · rw [getCodePointsFrom_truncated (by omega), if_pos ⟨nofun, fun _ h => by cases h; omega⟩,
        List.map_nil, List.append_nil]

/-- **The decoder reads the bytes in two passes.** On every byte string, `getCodePoints` returns
the code points of the sequences the cut finds when none is redundant and the cut does not stop
at a first byte without a marker, and the empty vector otherwise; the trailing bytes are not
checked, and a sequence cut short by the end of the string is dropped. -/
theorem getCodePoints_eq_splitSequences (bytes : List UInt8) :
    getCodePoints bytes =
      if DecodesCleanly bytes then (splitSequences bytes).1.map decodeSequence else [] := by
  rw [getCodePoints, getCodePointsFrom_splitSequences, List.nil_append]

/-! ## Decoding a concatenation -/

/-- A cut that uses up `s` goes on into `t`: the cut of `s ++ t` is that of `s`, then that of
`t`. -/
theorem splitSequences_append {s : List UInt8} (t : List UInt8) (hs : (splitSequences s).2 = []) :
    splitSequences (s ++ t) =
      ((splitSequences s).1 ++ (splitSequences t).1, (splitSequences t).2) := by
  induction s using splitSequences.induct with
  | case1 => simp
  | case2 c rest _ hc ih =>
    have hc' : 0 < getSequenceSizeByCheckingFirstByte c ∧
        getSequenceSizeByCheckingFirstByte c ≤ (rest ++ t).length + 1 :=
      ⟨hc.1, by rw [List.length_append]; omega⟩
    rw [splitSequences_of_sized hc] at hs ⊢
    rw [List.cons_append, splitSequences_of_sized hc', List.take_append_of_le_length (by omega),
      List.drop_append_of_le_length (by omega), ih hs]
    rfl
  | case3 c rest _ hc =>
    rw [splitSequences_of_stop hc] at hs
    cases hs

/-- **Decoding composes at sequence boundaries.** When the cut of `s` uses up all of `s`, so
that `s` ends between two sequences, `getCodePoints (s ++ t)` is the code points of `s` followed
by those of `t` when both decode cleanly, and the empty vector otherwise. -/
theorem getCodePoints_append {s : List UInt8} (t : List UInt8) (hs : (splitSequences s).2 = []) :
    getCodePoints (s ++ t) =
      if DecodesCleanly s ∧ DecodesCleanly t then getCodePoints s ++ getCodePoints t else [] := by
  have hcl : DecodesCleanly (s ++ t) ↔ DecodesCleanly s ∧ DecodesCleanly t := by
    simp only [DecodesCleanly, splitSequences_append t hs, hs, List.forall_mem_append,
      List.head?_nil]
    exact ⟨fun ⟨⟨h₁, h₂⟩, h₃⟩ => ⟨⟨h₁, nofun⟩, h₂, h₃⟩, fun ⟨⟨h₁, _⟩, h₂, h₃⟩ => ⟨⟨h₁, h₂⟩, h₃⟩⟩
  simp only [getCodePoints, getCodePointsFrom_splitSequences, List.nil_append,
    splitSequences_append t hs, List.map_append]
  by_cases h : DecodesCleanly s ∧ DecodesCleanly t
  · rw [if_pos (hcl.mpr h), if_pos h, if_pos h.1, if_pos h.2]
  · rw [if_neg (mt hcl.mp h), if_neg h]

/-- `A` followed by `C3 A0`: the cut of `A` uses it up. -/
theorem getCodePoints_append_A :
    (splitSequences [0x41]).2 = [] ∧
      getCodePoints ([0x41] ++ [0xC3, 0xA0]) =
        if DecodesCleanly [0x41] ∧ DecodesCleanly [0xC3, 0xA0] then
          getCodePoints [0x41] ++ getCodePoints [0xC3, 0xA0]
        else [] := by
  have hs : (splitSequences [0x41]).2 = [] := by
    rw [splitSequences_of_sized (show 0 < getSequenceSizeByCheckingFirstByte 0x41 ∧
      getSequenceSizeByCheckingFirstByte 0x41 ≤ ([] : List UInt8).length + 1 by decide),
      List.drop_nil, splitSequences_nil]
  exact ⟨hs, getCodePoints_append [0xC3, 0xA0] hs⟩

/-! ## What the decoder returns -/

/-- A sequence of the size its first byte announces has at most four bytes, and spells a value of
`0..0xFFFFF`: the mask `0x03` of four-byte first bytes keeps two bits of the three. -/
theorem decodeSequence_range {c : UInt8} {ts : List UInt8}
    (hc : getSequenceSizeByCheckingFirstByte c = ts.length + 1) :
    0 ≤ decodeSequence (c :: ts) ∧ decodeSequence (c :: ts) ≤ 0xFFFFF := by
  rw [getSequenceSizeByCheckingFirstByte_eq] at hc
  have hlen : ts.length ≤ 3 := by rcases leadSize_eq hc with h | h | h | h <;> omega
  rcases ts with _ | ⟨t₁, _ | ⟨t₂, _ | ⟨t₃, _ | ⟨t₄, ts⟩⟩⟩⟩
  · rw [decodeSequence_one]; omega
  · rw [decodeSequence_two]; omega
  · rw [decodeSequence_three]; omega
  · rw [decodeSequence_four]; omega
  · simp at hlen

/-- A code point the decoder returns is spelled by one sequence of the cut, so it lies in
`0..0xFFFFF`. -/
theorem bounds_of_mem_getCodePoints {bytes : List UInt8} {cp : Int} (hcp : cp ∈ getCodePoints bytes) :
    0 ≤ cp ∧ cp ≤ 0xFFFFF := by
  rw [getCodePoints, getCodePointsFrom_splitSequences, List.nil_append] at hcp
  split at hcp
  · obtain ⟨seg, hseg, rfl⟩ := List.mem_map.mp hcp
    obtain ⟨c, ts, rfl, hc⟩ := splitSequences_sized bytes seg hseg
    exact decodeSequence_range hc
  · cases hcp

/-- **The decoder never returns a code point outside `0..0xFFFFF`**: on every byte string, every
code point `getCodePoints` returns is at least 0 and at most `0xFFFFF`, so none of plane 16. -/
theorem getCodePoints_range (bytes : List UInt8) :
    ∀ cp ∈ getCodePoints bytes, 0 ≤ cp ∧ cp ≤ 0xFFFFF :=
  fun _ => bounds_of_mem_getCodePoints

/-- `F3 BF BF BF`, the largest value a four-byte sequence spells: `0xFFFFF`. -/
theorem getCodePoints_range_F3 :
    0xFFFFF ∈ getCodePoints [0xF3, 0xBF, 0xBF, 0xBF] ∧ 0 ≤ (0xFFFFF : Int) ∧ (0xFFFFF : Int) ≤ 0xFFFFF :=
  ⟨by decide, getCodePoints_range [0xF3, 0xBF, 0xBF, 0xBF] _ (by decide)⟩

/-- **Decoding is stable under re-encoding**: on every byte string, encoding the code points
`getCodePoints` returns and decoding the result gives the same code points. -/
theorem getCodePoints_getUtf8String_getCodePoints (bytes : List UInt8) :
    getCodePoints (getUtf8String (getCodePoints bytes)) = getCodePoints bytes := by
  have h : ∀ cp ∈ getCodePoints bytes, 0 ≤ cp ∧ cp ≤ 0xFFFFF := fun _ => bounds_of_mem_getCodePoints
  generalize getCodePoints bytes = cps at h ⊢
  have henc : ∀ cp ∈ cps, 0 ≤ cp ∧ cp ≤ 0x10FFFF := fun cp hcp => ⟨(h cp hcp).1, by
    have := (h cp hcp).2; omega⟩
  rw [getUtf8String, getUtf8StringFrom_eq henc, List.nil_append, getCodePoints,
    getCodePointsFrom_flatMap henc, if_pos fun cp hcp => (h cp hcp).2, List.nil_append]

/-! ## The encoder on every input -/

/-- A code point outside `0..0x10FFFF` has no sequence size. -/
theorem getSequenceSizeToEncodeCodePoint_nonpos {cp : Int} (h : ¬ (0 ≤ cp ∧ cp ≤ 0x10FFFF)) :
    getSequenceSizeToEncodeCodePoint cp ≤ 0 := by
  rw [getSequenceSizeToEncodeCodePoint_eq]
  by_cases h0 : cp < 0
  · rw [if_pos h0]; decide
  · rw [if_neg h0, if_neg (show ¬ cp ≤ 0x7F by omega), if_neg (show ¬ cp ≤ 0x7FF by omega),
      if_neg (show ¬ cp ≤ 0xFFFF by omega), if_neg (show ¬ cp ≤ 0x10FFFF by omega)]
    decide

/-- The encoder loop after the bytes `acc`: the shortest forms after `acc` when every code point
can be encoded, and the empty string otherwise. -/
theorem getUtf8StringFrom_eq_ite (acc : List UInt8) (cps : List Int) :
    getUtf8StringFrom acc cps =
      if ∀ cp ∈ cps, 0 ≤ cp ∧ cp ≤ 0x10FFFF then
        acc ++ cps.flatMap fun cp => (utf8Bytes cp.toNat).map UInt8.ofNat
      else [] := by
  induction cps generalizing acc with
  | nil => simp [getUtf8StringFrom]
  | cons cp rest ih =>
    by_cases hcp : 0 ≤ cp ∧ cp ≤ 0x10FFFF
    · obtain ⟨n, rfl⟩ := Int.eq_ofNat_of_zero_le hcp.1
      rw [getUtf8StringFrom,
        if_neg (Int.not_le.mpr (getSequenceSizeToEncodeCodePoint_pos hcp.1 hcp.2)), Int.toNat_ofNat,
        encodeCodePoint_eq (by omega), ih]
      simp [List.forall_mem_cons, hcp]
    · rw [getUtf8StringFrom, if_pos (getSequenceSizeToEncodeCodePoint_nonpos hcp),
        if_neg fun hall => hcp (hall cp (.head _))]

/-- **The encoder on every input.** `getUtf8String` writes the shortest UTF-8 forms of the code
points, one after another, when every code point is in `0..0x10FFFF`; as soon as one is
negative or above `0x10FFFF`, it returns the empty string, whatever it wrote before. -/
theorem getUtf8String_eq (cps : List Int) :
    getUtf8String cps =
      if ∀ cp ∈ cps, 0 ≤ cp ∧ cp ≤ 0x10FFFF then
        cps.flatMap fun cp => (utf8Bytes cp.toNat).map UInt8.ofNat
      else [] := by
  rw [getUtf8String, getUtf8StringFrom_eq_ite, List.nil_append]

example : getUtf8String [0x41, 0x110000] = [] := by decide

/-! ## Decoding, then encoding -/

/-- The shortest form of a code point of `0..0xFFFFF` is a marked sequence. -/
theorem sequenceMarked_utf8Bytes {cp : Nat} (h : cp ≤ 0xFFFFF) :
    SequenceMarked ((utf8Bytes cp).map UInt8.ofNat) := by
  obtain ⟨c, ts, hct, hs⟩ := utf8Bytes_lead (show cp ≤ 0x10FFFF by omega)
  rw [hct]
  unfold utf8Bytes at hct
  repeat' split at hct
  all_goals
    obtain ⟨rfl, rfl⟩ := List.cons.inj hct
    refine ⟨hs, ?_, ?_⟩ <;>
    simp (disch := omega) only [List.map_cons, List.map_nil, List.length_cons, List.length_nil,
      List.forall_mem_cons, List.mem_nil_iff, false_implies, implies_true, and_true, toNat_ofNat]
      <;> omega

/-- The shortest form of a code point of `0..0xFFFFF` is not redundant. -/
theorem not_redundant_utf8Bytes {cp : Nat} (h : cp ≤ 0xFFFFF) :
    ¬ Redundant ((utf8Bytes cp).map UInt8.ofNat) := by
  rw [Redundant, decodeSequence_utf8Bytes (by omega), List.length_map]
  have := max_lt_utf8Bytes cp
  omega

/-- The cut takes the shortest form of an encodable code point as one sequence. -/
theorem splitSequences_utf8Bytes {cp : Nat} (h : cp ≤ 0x10FFFF) :
    splitSequences ((utf8Bytes cp).map UInt8.ofNat) = ([(utf8Bytes cp).map UInt8.ofNat], []) := by
  obtain ⟨c, ts, hct, hs⟩ := utf8Bytes_lead h
  have hn : (getSequenceSizeByCheckingFirstByte c).toNat - 1 = ts.length := by omega
  rw [hct, splitSequences_of_sized ⟨by omega, by omega⟩]
  simp only [hn, List.take_length, List.drop_length, splitSequences_nil]

/-- The cut of what the encoder writes is the shortest forms it wrote, and nothing is left. -/
theorem splitSequences_flatMap_utf8Bytes {cps : List Int}
    (h : ∀ cp ∈ cps, 0 ≤ cp ∧ cp ≤ 0x10FFFF) :
    splitSequences (cps.flatMap fun cp => (utf8Bytes cp.toNat).map UInt8.ofNat) =
      (cps.map fun cp => (utf8Bytes cp.toNat).map UInt8.ofNat, []) := by
  induction cps with
  | nil => simp
  | cons cp rest ih =>
    have h₁ := splitSequences_utf8Bytes (show cp.toNat ≤ 0x10FFFF by have := h cp (.head _); omega)
    rw [List.flatMap_cons, splitSequences_append _ (by rw [h₁]), h₁,
      ih fun c hc => h c (.tail _ hc)]
    rfl

/-- **Exactly the byte strings that decoding, then encoding, gives back.** On every byte string,
`getUtf8String` of what `getCodePoints` returns is the string itself exactly when the cut uses up
the whole string and every sequence of the cut is marked (its trailing bytes are `10xxxxxx`, and a
four-byte one starts below `F4`) and not redundant. -/
theorem getUtf8String_getCodePoints_eq_self_iff (s : List UInt8) :
    getUtf8String (getCodePoints s) = s ↔
      (splitSequences s).2 = [] ∧
        ∀ seg ∈ (splitSequences s).1, SequenceMarked seg ∧ ¬ Redundant seg := by
  constructor
  · intro h
    have hb : ∀ cp ∈ getCodePoints s, 0 ≤ cp ∧ cp ≤ 0x10FFFF := fun cp hcp => by
      have := bounds_of_mem_getCodePoints hcp; omega
    rw [getUtf8String, getUtf8StringFrom_eq hb, List.nil_append] at h
    rw [← h, splitSequences_flatMap_utf8Bytes hb]
    refine ⟨rfl, fun seg hseg => ?_⟩
    obtain ⟨cp, hcp, rfl⟩ := List.mem_map.mp hseg
    have := bounds_of_mem_getCodePoints hcp
    exact ⟨sequenceMarked_utf8Bytes (by omega), not_redundant_utf8Bytes (by omega)⟩
  · rintro ⟨hs, hseg⟩
    have henc : ∀ seg ∈ (splitSequences s).1, 0 ≤ decodeSequence seg ∧
        decodeSequence seg ≤ 0x10FFFF ∧ (utf8Bytes (decodeSequence seg).toNat).map UInt8.ofNat = seg :=
      fun seg h => match seg, hseg seg h with
        | _ :: _, ⟨hm, hr⟩ => utf8Bytes_decodeSequence hm hr
    have hclean : DecodesCleanly s := ⟨fun seg h => (hseg seg h).2, by rw [hs]; nofun⟩
    conv => rhs; rw [← flatten_splitSequences s, hs, List.append_nil]
    rw [getCodePoints, getCodePointsFrom_splitSequences, if_pos hclean, List.nil_append,
      getUtf8String, getUtf8StringFrom_eq fun cp hcp => by
        obtain ⟨seg, hseg', rfl⟩ := List.mem_map.mp hcp
        exact ⟨(henc seg hseg').1, (henc seg hseg').2.1⟩,
      List.nil_append, List.flatMap_map, List.flatMap_def,
      List.map_congr_left fun seg hseg' => (henc seg hseg').2.2, List.map_id']

end Utf8Utils

end DictToolkit
