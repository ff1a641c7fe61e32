import DictToolkit.OffdeviceIntermediateDict.GetWordProperty
import DictToolkit.OffdeviceIntermediateDict.Dictionary

/-!
# `getWordProperty` against the stored map

On a trie that keeps the representation invariant, `getWordProperty` either returns what the
trie stores under the query, or reads `codePoints[codePoints.size()]`.

* `compareLabel_eq` says what the label comparison computes, fault included.
* `scanPtNodes_spec` and `visitPtNode_spec` follow the two mutual loops down the trie against
  `lookupIn` and `PtNode.lookup`; `GetSpec` is what both promise.
* `getWordProperty_refines_lookup` is the result for every reachable dictionary: the answer is
  `lookup`, or the fault, and the fault comes only on an absent query that is a proper prefix
  of a stored word, so that it ends inside a label.
* `getWordProperty_codePoints`: a payload `getWordProperty` returns spells the query.
* `getWordProperty_reads_past_end` shows the fault on a reachable dictionary: the guard of
  line 102 compares a child's label with the whole query, not with what is left of it.
-/

namespace DictToolkit

namespace OffdeviceIntermediateDict

variable {α : Type}

open PtNode

/-! ## The label comparison -/

/-- The comparison loop of lines 105-109 answers whether the label is a prefix of what is left
of the query, and faults exactly when what is left is a proper prefix of the label: the read
`codePoints[i + j]` then reaches `codePoints.size()`. -/
theorem compareLabel_eq {q : List Int} {i : Nat} (ps : List Int) {j : Nat} (h : i + j ≤ q.length) :
    compareLabel q i ps j = if ps <+: q.drop (i + j) then .ok true
      else if q.drop (i + j) <+: ps then .error (.outOfRange q.length q.length) else .ok false := by
  induction ps generalizing j with
  | nil => simp [compareLabel]
  | cons p ps ih =>
    rcases Nat.lt_or_eq_of_le h with h | h
    · have ih := ih (j := j + 1) (by omega)
      rw [← Nat.add_assoc] at ih
      rw [compareLabel, readAt, dif_pos h, List.drop_eq_getElem_cons h]
      generalize q[i + j] = c
      by_cases hc : c = p
      · simp [hc, ih, bind, Except.bind]
      · simp [hc, Ne.symm hc, bind, Except.bind, pure, Except.pure]
    · simp [compareLabel, readAt, h, bind, Except.bind]

/-! ## The scans against the stored map -/

/-- What a scan from index `i` may return against the map `f` it reads: `f` at the rest of the
query, or the fault at `codePoints[codePoints.size()]`, where the rest is absent from `f` but
a proper prefix of a word `f` stores. -/
def GetSpec (q : List Int) (f : List Int → Option (WordProperty α)) (i : Nat) :
    Except Fault (Option (WordProperty α)) → Prop := fun r =>
  r = .ok (f (q.drop i)) ∨ (r = .error (.outOfRange q.length q.length) ∧ f (q.drop i) = none ∧
    ∃ s, s ≠ [] ∧ (f (q.drop i ++ s)).isSome)

/-- Two maps that agree past two positions of the query have the same scan results. -/
theorem GetSpec.transport {q : List Int} {f g : List Int → Option (WordProperty α)} {i i' : Nat}
    {r : Except Fault (Option (WordProperty α))}
    (hfg : ∀ s, g (q.drop i' ++ s) = f (q.drop i ++ s)) (h : GetSpec q g i' r) : GetSpec q f i r := by
  have h0 := hfg []
  rw [List.append_nil, List.append_nil] at h0
  rcases h with h | ⟨h, h1, s, hs, h2⟩
  · exact .inl (h0 ▸ h)
  · exact .inr ⟨h, h0 ▸ h1, s, hs, hfg s ▸ h2⟩

mutual

/-- The scan of one valid node array at index `i` reads the array's map at the rest of the
query. -/
theorem scanPtNodes_spec (q : List Int) : ∀ (arr : PtNodeArray α) {path : List Int} {i : Nat},
    ArrayValid path arr → i < q.length → GetSpec q (lookupIn arr) i (scanPtNodes q i arr)
  | [], _, _, _, _ => .inl rfl
  | ⟨[], ch, w⟩ :: rest, _, _, hv, _ => absurd rfl (valid_mk.mp hv.1).1
  | ⟨p :: t, ch, w⟩ :: rest, path, i, ⟨hn, hsort, hrest⟩, hi => by
    have hq := List.drop_eq_getElem_cons hi
    have hnone : ∀ x, p ≤ q[i] → lookupIn rest (q[i] :: x) = none := fun x hle =>
      lookupIn_eq_none_of_ne hrest (fun m hm => Int.ne_of_lt (Int.lt_of_lt_of_le (hsort m hm) hle)) x
    rw [scanPtNodes, readAt_of_lt hi, readAt_cons_zero]
    simp only [bind, Except.bind]
    by_cases hlt : q[i] < p
    · rw [if_pos hlt]
      refine (scanPtNodes_spec q rest hrest hi).transport fun s => ?_
      rw [hq, List.cons_append, lookupIn_cons, hn.lookup_eq_none (Int.ne_of_gt hlt), Option.none_orElse]
    rw [if_neg hlt]
    have hle : p ≤ q[i] := Int.not_lt.mp hlt
    by_cases hgt : q[i] > p ∨ q.length < (p :: t).length
    · rw [if_pos hgt]
      refine .inl (congrArg _ ?_)
      rw [hq, lookupIn_cons, hnone _ hle, Option.orElse_none]
      rcases hgt with hgt | hgt
      · exact (hn.lookup_eq_none (Int.ne_of_lt hgt) _).symm
      · refine (lookup_of_not_isPrefixOf _ _ fun h' => ?_).symm
        have := h'.length_le
        simp only [List.length_cons, List.length_drop] at this hgt
        omega
    · rw [if_neg hgt]
      have hc : q[i] = p := Int.le_antisymm (Int.not_lt.mp (fun h' => hgt (.inl h'))) hle
      refine (visitPtNode_spec q ⟨p :: t, ch, w⟩ hn hi hc
        (Nat.le_of_not_lt fun h' => hgt (.inr h'))).transport fun s => ?_
      rw [lookupIn_cons, hq, List.cons_append, hnone _ hle, Option.orElse_none]

/-- The body run on the sibling whose first code point matches, with the guard of line 102
passed, reads the node's map at the rest of the query. -/
theorem visitPtNode_spec (q : List Int) : ∀ (n : PtNode α) {path : List Int} {i : Nat},
    n.Valid path → (hi : i < q.length) → q[i] = n.firstCodePoint →
      n.ptNodeCodePoints.length ≤ q.length → GetSpec q n.lookup i (visitPtNode q i n)
  | ⟨[], ch, w⟩, _, _, hv, _, _, _ => absurd rfl (valid_mk.mp hv).1
  | ⟨p :: t, ch, w⟩, path, i, hv, hi, hc, hl => by
    have hq : q.drop i = p :: q.drop (i + 1) := (List.drop_eq_getElem_cons hi).trans (by rw [hc]; rfl)
    simp only [List.length_cons] at hl
    have hnp : ¬ t <+: q.drop (i + 1) → (PtNode.mk (p :: t) ch w).lookup (q.drop i) = none :=
      fun h1 => lookup_of_not_isPrefixOf _ _ fun h' => h1 ((List.prefix_cons_inj _).mp (hq ▸ h'))
    rw [visitPtNode, List.drop_one, List.tail_cons, compareLabel_eq t (by omega)]
    by_cases h1 : t <+: q.drop (i + 1)
    · simp only [if_pos h1, Except.ok_bind, Except.pure_eq_ok, Bool.not_true, List.length_cons]
      obtain ⟨r, hr⟩ := h1
      have hqi : q.drop i = (p :: t) ++ r := by rw [hq, ← hr]; rfl
      have hlen : q.length = i + (t.length + 1) + r.length := by
        have := congrArg List.length hqi
        simp only [List.length_drop, List.length_append, List.length_cons] at this
        omega
      by_cases hr0 : r = []
      · subst hr0
        rw [if_pos (show i + (t.length + 1) = q.length by simp at hlen; omega)]
        exact .inl (by rw [hqi, List.append_nil, lookup_self]; rfl)
      · have hpos : 0 < r.length := List.length_pos.mpr hr0
        rw [if_neg (show ¬ i + (t.length + 1) = q.length by omega),
          if_pos (show i + (t.length + 1) < q.length by omega)]
        refine (scanPtNodes_spec q ch (valid_mk.mp hv).2.2.2 (by omega)).transport fun s => ?_
        have hdr : q.drop (i + (t.length + 1)) = r := by
          rw [← List.drop_drop, hqi, List.drop_left' (by simp)]
        rw [hdr, hqi, List.append_assoc, lookup_append _ _ _ _ (by simp [hr0])]
    · by_cases h2 : q.drop (i + 1) <+: t
      · simp only [if_neg h1, if_pos h2, Except.error_bind]
        obtain ⟨v, hv'⟩ := h2
        have hv0 : v ≠ [] := by
          rintro rfl
          rw [List.append_nil] at hv'
          exact h1 (hv' ▸ List.prefix_refl _)
        obtain ⟨u, hu⟩ := hv.exists_lookup
        refine .inr ⟨rfl, hnp h1, v ++ u, by simp [hv0], ?_⟩
        rw [hq, ← List.append_assoc, List.cons_append, hv']
        exact hu
      · simp only [if_neg h1, if_neg h2, Except.ok_bind, Except.pure_eq_ok, Bool.not_false, if_true]
        exact .inl (congrArg _ (hnp h1).symm)

end

/-! ## `getWordProperty` -/

/-- `getWordProperty` on a trie that keeps the invariant meets `GetSpec` from the root. -/
theorem getWordProperty_spec {d : OffdeviceIntermediateDict α} (hv : ArrayValid [] d.rootPtNodeArray)
    (q : List Int) : GetSpec q d.lookup 0 (getWordProperty d q) := by
  rw [getWordProperty]
  split
  · exact scanPtNodes_spec q d.rootPtNodeArray hv ‹_›
  · have hq : q = [] := List.eq_nil_of_length_eq_zero (Nat.eq_zero_of_not_pos ‹_›)
    subst hq
    exact .inl (congrArg _ (lookupIn_nil_of_valid hv).symm)

/-- **`getWordProperty` reads the stored map, or reads past the query's end.** On every reachable
dictionary it returns what the dictionary stores under `q`, or faults reading
`codePoints[codePoints.size()]`; the fault comes only when nothing is stored under `q` and `q` is
a proper prefix of a stored word. -/
theorem getWordProperty_refines_lookup {maxWordLength : Nat} {d : OffdeviceIntermediateDict α}
    (h : Reachable maxWordLength d) (q : List Int) :
    getWordProperty d q = .ok (d.lookup q) ∨
      (getWordProperty d q = .error (.outOfRange q.length q.length) ∧ d.lookup q = none ∧
        ∃ s, s ≠ [] ∧ (d.lookup (q ++ s)).isSome) := by
  simpa [GetSpec] using getWordProperty_spec h.arrayValid q

/-- The query `a` on the dictionary that holds `ab`: nothing is stored, and no read faults. -/
theorem getWordProperty_refines_lookup_ab :
    let d : OffdeviceIntermediateDict Unit := ⟨[], [.terminal [97, 98] ⟨[97, 98], ()⟩]⟩
    getWordProperty d [97] = .ok (d.lookup [97]) ∨
      (getWordProperty d [97] = .error (.outOfRange [97].length [97].length) ∧
        d.lookup [97] = none ∧ ∃ s, s ≠ [] ∧ (d.lookup ([97] ++ s)).isSome) :=
  getWordProperty_refines_lookup reachable_ab [97]

section
variable (maxWordLength : Nat)

unseal addWordInner in
/-- **A query that ends inside a child's label reads past its end.** After `a` and `abc` the root
node `a` has the child `bc`; on the query `ab` the guard of line 102 passes (the label `bc` is
not longer than the query) and the comparison reads `codePoints[2]` of a view of size 2. -/
theorem getWordProperty_reads_past_end (h : 3 ≤ maxWordLength) :
    ∃ d : OffdeviceIntermediateDict Unit, Reachable maxWordLength d ∧
      getWordProperty d [97, 98] = .error (.outOfRange 2 2) := by
  have h₁ : addWord maxWordLength (.empty []) ⟨[97], ()⟩ =
      .ok (true, ⟨[], [.terminal [97] ⟨[97], ()⟩]⟩) := by
    rw [addWord_of_valid_length _ (by simp) (by simp; omega), empty_rootPtNodeArray,
      addWordInner_nil]
    rfl
  have h₂ : addWord maxWordLength ⟨[], [.terminal [97] ⟨[97], ()⟩]⟩ ⟨[97, 98, 99], ()⟩ =
      .ok (true, ⟨[], [⟨[97], [.terminal [98, 99] ⟨[97, 98, 99], ()⟩], some ⟨[97], ()⟩⟩]⟩) := by
    rw [addWord_of_valid_length _ (by simp) (by simp; omega)]; rfl
  exact ⟨_, .addWord (.addWord (.empty []) h₁) h₂, rfl⟩

end

/-- The fault at `MAX_WORD_LENGTH = 48`. -/
theorem getWordProperty_reads_past_end_at_48 :
    3 ≤ 48 ∧ ∃ d : OffdeviceIntermediateDict Unit, Reachable 48 d ∧
      getWordProperty d [97, 98] = .error (.outOfRange 2 2) :=
  ⟨by decide, getWordProperty_reads_past_end 48 (by decide)⟩

/-- **`getWordProperty` returns only the word asked for.** On every reachable dictionary, a
payload that `getWordProperty` returns has the query as its code points. -/
theorem getWordProperty_codePoints {maxWordLength : Nat} {d : OffdeviceIntermediateDict α}
    (h : Reachable maxWordLength d) {q : List Int} {w : WordProperty α}
    (hq : getWordProperty d q = .ok (some w)) : w.codePoints = q := by
  have hv := h.arrayValid
  rcases getWordProperty_spec hv q with h' | ⟨h', -⟩ <;> rw [hq] at h'
  · exact hv.codePoints_of_lookupIn (Except.ok.inj h').symm
  · cases h'

/-- The query `ab` on the dictionary that holds `ab`. -/
theorem getWordProperty_codePoints_ab :
    getWordProperty (⟨[], [.terminal [97, 98] ⟨[97, 98], ()⟩]⟩ : OffdeviceIntermediateDict Unit)
      [97, 98] = .ok (some ⟨[97, 98], ()⟩) ∧
    (⟨[97, 98], ()⟩ : WordProperty Unit).codePoints = [97, 98] :=
  ⟨rfl, getWordProperty_codePoints reachable_ab rfl⟩

end OffdeviceIntermediateDict

end DictToolkit
