import DictToolkit.OffdeviceIntermediateDict.AddWordCorrect

/-!
# The dictionary over runs of `addWord`

`addWord_spec` lifts the contract of `addWordInner` to `addWord`, and `Reachable` collects the
dictionaries that completed `addWord` calls build from an empty one. Every reachable dictionary
keeps the representation invariant (`reachable_arrayValid`), and on one `addWord` returns false
exactly for an invalid length or a stored word, leaving the dictionary as it was
(`addWord_false_iff_rejected`).

Reachable dictionaries do hold nodes without a payload, and splitting one faults
(`addWord_dereferences_null_payload`).
-/

namespace DictToolkit

namespace OffdeviceIntermediateDict

variable {α : Type}

/-- The map a dictionary stores: its root array's. -/
def lookup (d : OffdeviceIntermediateDict α) (q : List Int) : Option (WordProperty α) :=
  lookupIn d.rootPtNodeArray q

section
variable (maxWordLength : Nat)

/-- The contract of `addWord` by outcome: true with the word inserted and the invariant kept,
false with the dictionary untouched because the word's length is invalid or the word is stored,
or the null dereference, for an absent word of valid length. -/
def AddWordSpec (d : OffdeviceIntermediateDict α) (wordProperty : WordProperty α) :
    Except Fault (Bool × OffdeviceIntermediateDict α) → Prop
  | .ok (true, d') =>
    wordProperty.codePoints ≠ [] ∧ wordProperty.codePoints.length ≤ maxWordLength ∧
      d'.header = d.header ∧ ArrayValid [] d'.rootPtNodeArray ∧
      d.lookup wordProperty.codePoints = none ∧
      ∀ q, d'.lookup q = if q = wordProperty.codePoints then some wordProperty else d.lookup q
  | .ok (false, d') =>
    d' = d ∧ (wordProperty.codePoints = [] ∨ wordProperty.codePoints.length > maxWordLength ∨
      (d.lookup wordProperty.codePoints).isSome)
  | .error e =>
    e = .nullWordProperty ∧ wordProperty.codePoints ≠ [] ∧
      wordProperty.codePoints.length ≤ maxWordLength ∧ d.lookup wordProperty.codePoints = none

/-- `addWord` meets its contract on every dictionary that keeps the invariant. -/
theorem addWord_spec {d : OffdeviceIntermediateDict α} (hv : ArrayValid [] d.rootPtNodeArray)
    (wordProperty : WordProperty α) :
    AddWordSpec maxWordLength d wordProperty (addWord maxWordLength d wordProperty) := by
  by_cases h : wordProperty.codePoints = [] ∨ wordProperty.codePoints.length > maxWordLength
  · rw [addWord, if_pos h]
    exact ⟨rfl, h.elim .inl (.inr ∘ .inl)⟩
  · have hne : wordProperty.codePoints ≠ [] := fun h' => h (.inl h')
    have hle : wordProperty.codePoints.length ≤ maxWordLength := Nat.le_of_not_lt fun h' => h (.inr h')
    rw [addWord_of_valid_length d hne hle]
    have spec := addWordInner_spec wordProperty.codePoints wordProperty d.rootPtNodeArray [] hv hne rfl
    generalize addWordInner wordProperty.codePoints wordProperty d.rootPtNodeArray = r at spec ⊢
    match r, spec with
    | .error e, ⟨he, ha⟩ => exact ⟨he, hne, hle, ha⟩
    | .ok (false, root), ⟨hr, hs⟩ => exact ⟨by rw [hr], .inr (.inr hs)⟩
    | .ok (true, root), ins => exact ⟨hne, hle, rfl, ins.valid, ins.absent, ins.lookup⟩

/-- The dictionaries that `addWord` calls which complete build from an empty one. -/
inductive Reachable : OffdeviceIntermediateDict α → Prop
  /-- `OffdeviceIntermediateDict(header)`. -/
  | empty (header : AttributeMap) : Reachable (.empty header)
  /-- One more completed `addWord`, whatever it returned. -/
  | addWord {d d' : OffdeviceIntermediateDict α} {wordProperty : WordProperty α} {added : Bool} :
    Reachable d → addWord maxWordLength d wordProperty = .ok (added, d') → Reachable d'

end

/-- The dictionary that holds `ab` alone is reachable. -/
theorem reachable_ab :
    Reachable 48 (⟨[], [.terminal [97, 98] ⟨[97, 98], ()⟩]⟩ : OffdeviceIntermediateDict Unit) :=
  have h : addWord 48 (.empty []) (⟨[97, 98], ()⟩ : WordProperty Unit) =
      .ok (true, ⟨[], [.terminal [97, 98] ⟨[97, 98], ()⟩]⟩) := by
    rw [addWord_of_valid_length _ (by simp) (by simp), empty_rootPtNodeArray, addWordInner_nil]; rfl
  .addWord (.empty []) h

unseal addWordInner in
/-- After `abc` and `abd` the root holds the payload-less node `ab` over its children `d` and `c`,
in decreasing order. -/
theorem reachable_abc_abd {maxWordLength : Nat} (h : 3 ≤ maxWordLength) :
    Reachable maxWordLength (⟨[], [⟨[97, 98], [.terminal [100] ⟨[97, 98, 100], ()⟩,
      .terminal [99] ⟨[97, 98, 99], ()⟩], none⟩]⟩ : OffdeviceIntermediateDict Unit) := by
  have h₁ : addWord maxWordLength (.empty []) ⟨[97, 98, 99], ()⟩ =
      .ok (true, ⟨[], [.terminal [97, 98, 99] ⟨[97, 98, 99], ()⟩]⟩) := by
    rw [addWord_of_valid_length _ (by simp) (by simp; omega)]; rfl
  have h₂ : addWord maxWordLength ⟨[], [.terminal [97, 98, 99] ⟨[97, 98, 99], ()⟩]⟩
      ⟨[97, 98, 100], ()⟩ = .ok (true, ⟨[], [⟨[97, 98], [.terminal [100] ⟨[97, 98, 100], ()⟩,
        .terminal [99] ⟨[97, 98, 99], ()⟩], none⟩]⟩) := by
    rw [addWord_of_valid_length _ (by simp) (by simp; omega)]; rfl
  exact .addWord (.addWord (.empty []) h₁) h₂

section
variable (maxWordLength : Nat)

/-- Every reachable dictionary keeps the invariant: `addWord_spec`, run by run. -/
theorem Reachable.arrayValid {d : OffdeviceIntermediateDict α} (h : Reachable maxWordLength d) :
    ArrayValid [] d.rootPtNodeArray := by
  induction h with
  | empty => trivial
  | @addWord d d' wordProperty added _ hadd ih =>
    have spec := addWord_spec maxWordLength ih wordProperty
    rw [hadd] at spec
    cases added with
    | true => exact spec.2.2.2.1
    | false => exact spec.1 ▸ ih

/-- **The representation invariant holds in every reachable dictionary**: in every node array,
the root included, labels are non-empty, first code points strictly decrease along the siblings,
a node without a payload has at least two children, and a payload's code points spell the path
to its node. -/
theorem reachable_arrayValid {d : OffdeviceIntermediateDict α} (h : Reachable maxWordLength d) :
    ArrayValid [] d.rootPtNodeArray :=
  h.arrayValid

end

/-- The invariant after `abc` and `abd`: a split, a node without a payload, and two siblings. -/
theorem reachable_arrayValid_abc_abd :
    let d : OffdeviceIntermediateDict Unit := ⟨[], [⟨[97, 98], [.terminal [100] ⟨[97, 98, 100], ()⟩,
      .terminal [99] ⟨[97, 98, 99], ()⟩], none⟩]⟩
    Reachable 48 d ∧ ArrayValid [] d.rootPtNodeArray :=
  ⟨reachable_abc_abd (by decide), reachable_arrayValid 48 (reachable_abc_abd (by decide))⟩

section
variable (maxWordLength : Nat)

/-- `addWord` on a dictionary that keeps the invariant returns false exactly on a rejected word,
and then changes nothing. -/
theorem addWord_false_iff_of_arrayValid {d : OffdeviceIntermediateDict α}
    (hv : ArrayValid [] d.rootPtNodeArray) (wordProperty : WordProperty α) :
    ((∃ d', addWord maxWordLength d wordProperty = .ok (false, d')) ↔
      (wordProperty.codePoints = [] ∨ wordProperty.codePoints.length > maxWordLength ∨
        (d.lookup wordProperty.codePoints).isSome)) ∧
    ∀ d', addWord maxWordLength d wordProperty = .ok (false, d') → d' = d := by
  have admissible : wordProperty.codePoints ≠ [] → wordProperty.codePoints.length ≤ maxWordLength →
      d.lookup wordProperty.codePoints = none → ¬ (wordProperty.codePoints = [] ∨
        wordProperty.codePoints.length > maxWordLength ∨ (d.lookup wordProperty.codePoints).isSome) := by
    rintro hne hle ha (h' | h' | h')
    · exact hne h'
    · omega
    · simp [ha] at h'
  have spec := addWord_spec maxWordLength hv wordProperty
  generalize addWord maxWordLength d wordProperty = r at spec ⊢
  match r, spec with
  | .error e, ⟨_, hne, hle, ha⟩ =>
    exact ⟨⟨(fun ⟨_, h⟩ => nomatch h), (absurd · (admissible hne hle ha))⟩, fun _ h => nomatch h⟩
  | .ok (false, d'), ⟨hd, hs⟩ =>
    exact ⟨⟨fun _ => hs, fun _ => ⟨d', rfl⟩⟩, fun d'' h => by cases h; exact hd⟩
  | .ok (true, d'), ⟨hne, hle, _, _, ha, _⟩ =>
    exact ⟨⟨(fun ⟨_, h⟩ => by cases h), (absurd · (admissible hne hle ha))⟩, fun _ h => by cases h⟩

/-- **`addWord` returns false exactly on a rejected word, and then changes nothing.** On a
reachable dictionary it returns false iff the word is empty, longer than `MAX_WORD_LENGTH`, or
already stored, and the dictionary it leaves is the one it was given. -/
theorem addWord_false_iff_rejected {d : OffdeviceIntermediateDict α}
    (h : Reachable maxWordLength d) (wordProperty : WordProperty α) :
    ((∃ d', addWord maxWordLength d wordProperty = .ok (false, d')) ↔
      (wordProperty.codePoints = [] ∨ wordProperty.codePoints.length > maxWordLength ∨
        (d.lookup wordProperty.codePoints).isSome)) ∧
    ∀ d', addWord maxWordLength d wordProperty = .ok (false, d') → d' = d :=
  addWord_false_iff_of_arrayValid maxWordLength h.arrayValid wordProperty

end

/-- Adding `abc` again after `abc` and `abd` returns false and changes nothing. -/
theorem addWord_false_iff_rejected_abc :
    let d : OffdeviceIntermediateDict Unit := ⟨[], [⟨[97, 98], [.terminal [100] ⟨[97, 98, 100], ()⟩,
      .terminal [99] ⟨[97, 98, 99], ()⟩], none⟩]⟩
    let wordProperty : WordProperty Unit := ⟨[97, 98, 99], ()⟩
    Reachable 48 d ∧
    ((∃ d', addWord 48 d wordProperty = .ok (false, d')) ↔
      (wordProperty.codePoints = [] ∨ wordProperty.codePoints.length > 48 ∨
        (d.lookup wordProperty.codePoints).isSome)) ∧
    ∀ d', addWord 48 d wordProperty = .ok (false, d') → d' = d :=
  ⟨reachable_abc_abd (by decide),
    addWord_false_iff_rejected 48 (reachable_abc_abd (by decide)) ⟨[97, 98, 99], ()⟩⟩

section
variable (maxWordLength : Nat)

unseal addWordInner in
/-- **Splitting a node without a payload faults.** After `abc` and `abd` the root holds the
payload-less node `ab`; adding `a` splits it, and the label-replacement constructor
(`offdevice_intermediate_dict_pt_node.h:43-48`) dereferences its null `mWortProperty`. -/
theorem addWord_dereferences_null_payload (h : 3 ≤ maxWordLength) :
    ∃ d : OffdeviceIntermediateDict Unit, Reachable maxWordLength d ∧
      addWord maxWordLength d ⟨[97], ()⟩ = .error .nullWordProperty :=
  ⟨_, reachable_abc_abd h, by rw [addWord_of_valid_length _ (by simp) (by simp; omega)]; rfl⟩

end

/-- The fault at `MAX_WORD_LENGTH = 48`. -/
theorem addWord_dereferences_null_payload_at_48 :
    3 ≤ 48 ∧ ∃ d : OffdeviceIntermediateDict Unit, Reachable 48 d ∧
      addWord 48 d ⟨[97], ()⟩ = .error .nullWordProperty :=
  ⟨by decide, addWord_dereferences_null_payload 48 (by decide)⟩

end OffdeviceIntermediateDict

end DictToolkit
