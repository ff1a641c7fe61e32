import DictToolkit.OffdeviceIntermediateDict.PtNode

/-!
# `addWord`

`OffdeviceIntermediateDict::addWord` and `addWordInner` (`offdevice_intermediate_dict.cpp:24-89`)
as the code computes them. `addWordInner` scans a node array for the sibling whose first code
point equals the word's, descends, replaces a payload, splits a label, or inserts a fresh terminal;
the label comparison loop of lines 45-55 is `labelLoop`. The recursion descends into a child array
or, after a split, into the new node's one-element child array, so it is well founded on the word's
length, and on the number of siblings left while the scan moves along one array.

The split reads `*ptNode.mWortProperty` of the node it splits (`PtNode.replacePtNodeCodePoints`):
on a node without a payload the run ends in `Fault.nullWordProperty`.
-/

namespace DictToolkit

/-- How the label loop of `addWordInner` ends. -/
inductive LabelLoopExit
  /-- The label is used up at `i` but the word is not (line 47, "Add new child."). -/
  | addNewChild (i : Nat)
  /-- The code points differ at `i` (line 53), or the word is used up at `i`. -/
  | stop (i : Nat)
deriving DecidableEq, Repr

/-- The index a `LabelLoopExit` carries. -/
def LabelLoopExit.index : LabelLoopExit → Nat
  | .addNewChild i => i
  | .stop i => i

/-- The loop `for (; i < codePoints.size(); ++i)` of `addWordInner` (lines 45-55), run on the
views `codePoints.skip(i)` and `ptNodeCodePoints.skip(i)`. -/
def labelLoop : List Int → List Int → Nat → LabelLoopExit
  | [], _, i => .stop i
  | _ :: _, [], i => .addNewChild i
  | c :: cs, p :: ps, i => if c ≠ p then .stop i else labelLoop cs ps (i + 1)

/-- The loop never moves its index backwards. -/
theorem le_labelLoop_index : ∀ (cs ps : List Int) (i : Nat), i ≤ (labelLoop cs ps i).index
  | [], _, _ | _ :: _, [], _ => Nat.le_refl _
  | c :: cs, p :: ps, i => by
    have := le_labelLoop_index cs ps (i + 1)
    by_cases h : c = p
    · simpa [labelLoop, h] using Nat.le_of_succ_le this
    · simp [labelLoop, h, LabelLoopExit.index]

/-- When the label loop asks for a new child, the label is a proper prefix of the word. -/
theorem labelLoop_addNewChild : ∀ {cs ps : List Int} {k j : Nat},
    labelLoop cs ps k = .addNewChild j → ∃ r, r ≠ [] ∧ cs = ps ++ r ∧ j = k + ps.length
  | [], _, _, _, h => by simp [labelLoop] at h
  | _ :: _, [], _, _, h => by cases h; exact ⟨_, List.cons_ne_nil _ _, rfl, rfl⟩
  | c :: cs, p :: ps, k, j, h => by
    by_cases hcp : c = p
    · simp only [labelLoop, hcp, ne_eq, not_true_eq_false, if_false] at h
      obtain ⟨r, hr, rfl, rfl⟩ := labelLoop_addNewChild h
      exact ⟨r, hr, by simp [hcp], by simp; omega⟩
    · simp [labelLoop, hcp] at h

/-- When the label loop stops at `k + m`, word and label agree on their first `m` code points,
and there the word ends or the two differ. -/
theorem labelLoop_stop : ∀ {cs ps : List Int} {k j : Nat}, labelLoop cs ps k = .stop j →
    ∃ m, j = k + m ∧ m ≤ cs.length ∧ m ≤ ps.length ∧ cs.take m = ps.take m ∧
      (m = cs.length ∨ (m < ps.length ∧ cs[m]? ≠ ps[m]?))
  | [], _, _, _, h => by cases h; exact ⟨0, rfl, Nat.zero_le _, Nat.zero_le _, rfl, .inl rfl⟩
  | _ :: _, [], _, _, h => by simp [labelLoop] at h
  | c :: cs, p :: ps, k, j, h => by
    by_cases hcp : c = p
    · simp only [labelLoop, hcp, ne_eq, not_true_eq_false, if_false] at h
      obtain ⟨m, rfl, hm, hm', ht, hd⟩ := labelLoop_stop h
      refine ⟨m + 1, by omega, by simpa using hm, by simpa using hm', by simp [hcp, ht], ?_⟩
      simpa using hd
    · simp only [labelLoop, hcp, ne_eq, not_false_eq_true, if_true] at h
      cases h
      exact ⟨0, rfl, Nat.zero_le _, Nat.zero_le _, rfl, .inr ⟨by simp, by simpa using hcp⟩⟩

namespace OffdeviceIntermediateDict

variable {α : Type}

/-- Lines 69-78 of `addWordInner`: the new parent for the first `i` code points, terminal when
the word ends there, holding `ptNode` relabelled with the rest of its label as its one child. -/
def newParentPtNode (codePoints : List Int) (wordProperty : WordProperty α) (ptNode : PtNode α)
    (i : Nat) : Except Fault (PtNode α) := do
  let newPtNode : PtNode α :=
    if codePoints.length = i then .terminal codePoints wordProperty
    else .nonTerminal (codePoints.take i)
  let suffix ← ptNode.replacePtNodeCodePoints (ptNode.ptNodeCodePoints.drop i)
  return { newPtNode with childrenPtNodeArray := [suffix] }

/-- The new parent when the split node has a payload. -/
theorem newParentPtNode_some (codePoints : List Int) (wordProperty : WordProperty α)
    (l : List Int) (ch : PtNodeArray α) (x : WordProperty α) (i : Nat) :
    newParentPtNode codePoints wordProperty ⟨l, ch, some x⟩ i =
      .ok ⟨if codePoints.length = i then codePoints else codePoints.take i, [⟨l.drop i, ch, some x⟩],
        if codePoints.length = i then some wordProperty else none⟩ := by
  unfold newParentPtNode; split <;> rfl

/-- Without a payload, building the new parent dereferences null. -/
theorem newParentPtNode_none (codePoints : List Int) (wordProperty : WordProperty α)
    (l : List Int) (ch : PtNodeArray α) (i : Nat) :
    newParentPtNode codePoints wordProperty ⟨l, ch, none⟩ i = .error .nullWordProperty := rfl

/-- `OffdeviceIntermediateDict::addWordInner` (`offdevice_intermediate_dict.cpp:32`): insert
`wordProperty` under the remaining `codePoints` into `ptNodeArray`. The result is the return value
and the array as the call leaves it. -/
def addWordInner (codePoints : List Int) (wordProperty : WordProperty α) :
    PtNodeArray α → Except Fault (Bool × PtNodeArray α)
  | [] => .ok (true, [.terminal codePoints wordProperty])
  | ptNode :: rest =>
    match hc : readAt codePoints 0, readAt ptNode.ptNodeCodePoints 0 with
    | .error e, _ => .error e
    | .ok _, .error e => .error e
    | .ok c, .ok p =>
      if c < p then do
        let (added, rest) ← addWordInner codePoints wordProperty rest
        return (added, ptNode :: rest)
      else if c > p then
        .ok (true, .terminal codePoints wordProperty :: ptNode :: rest)
      else
        match hl : labelLoop (codePoints.drop 1) (ptNode.ptNodeCodePoints.drop 1) 1 with
        | .addNewChild i => do
          let (added, children) ← addWordInner (codePoints.drop i) wordProperty
            ptNode.childrenPtNodeArray
          return (added, { ptNode with childrenPtNodeArray := children } :: rest)
        | .stop i =>
          if codePoints.length = i ∧ codePoints.length = ptNode.ptNodeCodePoints.length then
            if ptNode.wordProperty.isSome then .ok (false, ptNode :: rest)
            else .ok (true, ptNode.replaceWordProperty wordProperty :: rest)
          else do
            let newPtNode ← newParentPtNode codePoints wordProperty ptNode i
            if codePoints.length ≠ i then
              let (added, children) ← addWordInner (codePoints.drop i) wordProperty
                newPtNode.childrenPtNodeArray
              return (added, { newPtNode with childrenPtNodeArray := children } :: rest)
            else return (true, newPtNode :: rest)
termination_by ptNodeArray => (codePoints.length, ptNodeArray.length)
decreasing_by
  · exact Prod.Lex.right _ (Nat.lt_succ_self _)
  all_goals
    have h0 : 0 < codePoints.length := (List.getElem?_eq_some_iff.mp (readAt_eq_ok.mp hc)).1
    have h1 := le_labelLoop_index (codePoints.drop 1) (ptNode.ptNodeCodePoints.drop 1) 1
    rw [hl] at h1
    apply Prod.Lex.left
    simp only [LabelLoopExit.index, List.length_drop] at h1 ⊢
    omega

/-! ## One equation per branch of `addWordInner` -/

section
variable {codePoints : List Int} {wordProperty : WordProperty α} {ptNode : PtNode α}
  {rest : PtNodeArray α} {c p : Int} {i : Nat}

theorem addWordInner_nil (codePoints : List Int) (wordProperty : WordProperty α) :
    addWordInner codePoints wordProperty [] = .ok (true, [.terminal codePoints wordProperty]) := by
  rw [addWordInner]

private theorem readAt_ok_inj {cs : List Int} {c c' : Int} (h : readAt cs 0 = .ok c)
    (h' : readAt cs 0 = .ok c') : c' = c := by
  rw [h] at h'; cases h'; rfl

/-- Line 39: a sibling with a larger first code point is skipped. -/
theorem addWordInner_of_lt (hc : readAt codePoints 0 = .ok c)
    (hp : readAt ptNode.ptNodeCodePoints 0 = .ok p) (h : c < p) :
    addWordInner codePoints wordProperty (ptNode :: rest) = (do
      let (added, rest) ← addWordInner codePoints wordProperty rest
      return (added, ptNode :: rest)) := by
  rw [addWordInner]
  split
  · simp_all
  · simp_all
  · next c' p' hc' hp' =>
    obtain rfl := readAt_ok_inj hc hc'
    obtain rfl := readAt_ok_inj hp hp'
    rw [if_pos h]

/-- Lines 42 and 86: before a sibling with a smaller first code point, a new terminal. -/
theorem addWordInner_of_gt (hc : readAt codePoints 0 = .ok c)
    (hp : readAt ptNode.ptNodeCodePoints 0 = .ok p) (h : p < c) :
    addWordInner codePoints wordProperty (ptNode :: rest) =
      .ok (true, .terminal codePoints wordProperty :: ptNode :: rest) := by
  rw [addWordInner]
  split
  · simp_all
  · simp_all
  · next c' p' hc' hp' =>
    obtain rfl := readAt_ok_inj hc hc'
    obtain rfl := readAt_ok_inj hp hp'
    rw [if_neg (Int.not_lt.mpr (Int.le_of_lt h)), if_pos h]

/-- Lines 47-50: past the whole label, the word goes on into the children. -/
theorem addWordInner_of_addNewChild (hc : readAt codePoints 0 = .ok c)
    (hp : readAt ptNode.ptNodeCodePoints 0 = .ok c)
    (hl : labelLoop (codePoints.drop 1) (ptNode.ptNodeCodePoints.drop 1) 1 = .addNewChild i) :
    addWordInner codePoints wordProperty (ptNode :: rest) = (do
      let (added, children) ← addWordInner (codePoints.drop i) wordProperty
        ptNode.childrenPtNodeArray
      return (added, { ptNode with childrenPtNodeArray := children } :: rest)) := by
  rw [addWordInner]
  split
  · simp_all
  · simp_all
  · next c' p' hc' hp' =>
    obtain rfl := readAt_ok_inj hc hc'
    obtain rfl := readAt_ok_inj hp hp'
    simp only [Int.lt_irrefl, if_false, gt_iff_lt]
    split
    · next i' hl' => rw [hl] at hl'; cases hl'; rfl
    · next i' hl' => rw [hl] at hl'; cases hl'

/-- Lines 56-84: the word ends on the label, or the two differ inside it. -/
theorem addWordInner_of_stop (hc : readAt codePoints 0 = .ok c)
    (hp : readAt ptNode.ptNodeCodePoints 0 = .ok c)
    (hl : labelLoop (codePoints.drop 1) (ptNode.ptNodeCodePoints.drop 1) 1 = .stop i) :
    addWordInner codePoints wordProperty (ptNode :: rest) =
      if codePoints.length = i ∧ codePoints.length = ptNode.ptNodeCodePoints.length then
        if ptNode.wordProperty.isSome then .ok (false, ptNode :: rest)
        else .ok (true, ptNode.replaceWordProperty wordProperty :: rest)
      else do
        let newPtNode ← newParentPtNode codePoints wordProperty ptNode i
        if codePoints.length ≠ i then
          let (added, children) ← addWordInner (codePoints.drop i) wordProperty
            newPtNode.childrenPtNodeArray
          return (added, { newPtNode with childrenPtNodeArray := children } :: rest)
        else return (true, newPtNode :: rest) := by
  rw [addWordInner]
  split
  · simp_all
  · simp_all
  · next c' p' hc' hp' =>
    obtain rfl := readAt_ok_inj hc hc'
    obtain rfl := readAt_ok_inj hp hp'
    simp only [Int.lt_irrefl, if_false, gt_iff_lt]
    split
    · next i' hl' => rw [hl] at hl'; cases hl'
    · next i' hl' => rw [hl] at hl'; cases hl'; rfl

end

/-- `OffdeviceIntermediateDict::addWord` (`offdevice_intermediate_dict.cpp:24`). `MAX_WORD_LENGTH`
comes from `defines.h`, outside this tree, and is the parameter `maxWordLength`. -/
def addWord (maxWordLength : Nat) (d : OffdeviceIntermediateDict α)
    (wordProperty : WordProperty α) : Except Fault (Bool × OffdeviceIntermediateDict α) :=
  let codePoints := wordProperty.codePoints
  if codePoints = [] ∨ codePoints.length > maxWordLength then .ok (false, d)
  else do
    let (added, root) ← addWordInner codePoints wordProperty d.rootPtNodeArray
    return (added, { d with rootPtNodeArray := root })

/-- On a word of valid length, `addWord` is `addWordInner` on the root array. -/
theorem addWord_of_valid_length {maxWordLength : Nat} (d : OffdeviceIntermediateDict α)
    {wordProperty : WordProperty α} (hne : wordProperty.codePoints ≠ [])
    (hle : wordProperty.codePoints.length ≤ maxWordLength) :
    addWord maxWordLength d wordProperty = (do
      let (added, root) ← addWordInner wordProperty.codePoints wordProperty d.rootPtNodeArray
      return (added, { d with rootPtNodeArray := root })) := by
  rw [addWord, if_neg (not_or.mpr ⟨hne, by omega⟩)]

end OffdeviceIntermediateDict

end DictToolkit
