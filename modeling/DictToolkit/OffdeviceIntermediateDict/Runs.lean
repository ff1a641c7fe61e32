import DictToolkit.OffdeviceIntermediateDict.GetWordPropertyCorrect

/-!
# Runs of `addWord`

A client that builds a dictionary calls `addWord` once per word; `addWords` is that loop, with
the flags the calls return, ended by the first fault.

* `addWords_spec` is the run lemma: a completed run keeps the invariant and stores, for every
  query, the payload of the first call on it that returned true (`firstAdded`).
* `addWords_getWordProperty` reads a completed run from an empty dictionary back through
  `getWordProperty`, and `addWords_addWord_false_iff` says when one more call returns false: for
  a word of the run that a call added.
* `addWords_perm_rootPtNodeArray_eq`: completed runs over permutations of one list of distinct
  words build the same trie, by the canonicity of valid tries (`eq_of_lookupIn_eq`).
* `rootPtNodeArray_eq_of_lookup_eq`: any two reachable dictionaries that store the same map have
  the same trie, whatever built them.
* `addWords_faults_on_split` and `addWords_depends_on_order` show runs that do not complete:
  whether a run reaches a split of a payload-less node depends on the order of its words.
-/

namespace DictToolkit
namespace OffdeviceIntermediateDict
variable {α : Type}

section
variable (maxWordLength : Nat)

/-! ## The run and its first-success map -/

/-- A client's sequence of `addWord` calls on one dictionary, with the flags the calls return;
the first fault ends the run. -/
def addWords (d : OffdeviceIntermediateDict α) :
    List (WordProperty α) → Except Fault (List Bool × OffdeviceIntermediateDict α)
  | [] => .ok ([], d)
  | wordProperty :: rest => do
    let (added, d) ← addWord maxWordLength d wordProperty
    let (flags, d) ← addWords d rest
    return (added :: flags, d)

/-- A completed run is a completed first call followed by a completed rest. -/
theorem addWords_cons_eq_ok {d d' : OffdeviceIntermediateDict α} {wordProperty : WordProperty α}
    {rest : List (WordProperty α)} {flags : List Bool}
    (h : addWords maxWordLength d (wordProperty :: rest) = .ok (flags, d')) :
    ∃ added d₁ flags₁, addWord maxWordLength d wordProperty = .ok (added, d₁) ∧
      addWords maxWordLength d₁ rest = .ok (flags₁, d') ∧ flags = added :: flags₁ := by
  rw [addWords] at h
  cases h₁ : addWord maxWordLength d wordProperty with
  | error e => rw [h₁] at h; cases h
  | ok r =>
    obtain ⟨added, d₁⟩ := r
    rw [h₁, Except.ok_bind] at h
    dsimp only at h
    cases h₂ : addWords maxWordLength d₁ rest with
    | error e => rw [h₂] at h; cases h
    | ok s =>
      obtain ⟨flags₁, d₂⟩ := s
      rw [h₂, Except.ok_bind] at h
      cases h
      exact ⟨added, d₁, flags₁, rfl, h₂, rfl⟩

end

/-- The payload of the first call of a run on the code points `q` that returned true. -/
def firstAdded : List (WordProperty α) → List Bool → List Int → Option (WordProperty α)
  | wordProperty :: rest, added :: flags, q =>
    if added ∧ wordProperty.codePoints = q then some wordProperty else firstAdded rest flags q
  | _, _, _ => none

/-- Some call of a run on `q` returned true. -/
theorem firstAdded_isSome_iff (q : List Int) : ∀ (wps : List (WordProperty α)) (flags : List Bool),
    (firstAdded wps flags q).isSome ↔ ∃ wp, (wp, true) ∈ wps.zip flags ∧ wp.codePoints = q
  | [], _ => by simp [firstAdded]
  | _ :: _, [] => by simp [firstAdded]
  | wp :: rest, added :: flags => by
    rw [firstAdded, List.zip_cons_cons]
    by_cases h : added = true ∧ wp.codePoints = q
    · obtain ⟨rfl, hq⟩ := h
      simp [hq]
    · rw [if_neg h, firstAdded_isSome_iff q rest flags]
      simp only [List.mem_cons, Prod.mk.injEq]
      exact ⟨fun ⟨x, hx, hq⟩ => ⟨x, .inr hx, hq⟩,
        fun ⟨x, hx, hq⟩ => hx.elim (fun ⟨hx, hb⟩ => absurd ⟨hb.symm, hx ▸ hq⟩ h) (⟨x, ·, hq⟩)⟩

section
variable (maxWordLength : Nat)

/-! ## Completed runs -/

/-- **A completed run adds the first successful call of each word.** The invariant is kept, the
header is untouched, and the stored map gains, for each `q` it did not hold, the payload of the
first call on `q` that returned true. -/
theorem addWords_spec {d : OffdeviceIntermediateDict α} (hv : ArrayValid [] d.rootPtNodeArray)
    {wps : List (WordProperty α)} {flags : List Bool} {d' : OffdeviceIntermediateDict α}
    (h : addWords maxWordLength d wps = .ok (flags, d')) :
    ArrayValid [] d'.rootPtNodeArray ∧ d'.header = d.header ∧
      ∀ q, d'.lookup q = (d.lookup q <|> firstAdded wps flags q) := by
  induction wps generalizing d flags with
  | nil =>
    cases h
    exact ⟨hv, rfl, fun q => by simp [firstAdded]⟩
  | cons wp rest ih =>
    obtain ⟨added, d₁, flags₁, h₁, h₂, rfl⟩ := addWords_cons_eq_ok maxWordLength h
    have spec := addWord_spec maxWordLength hv wp
    rw [h₁] at spec
    cases added with
    | false =>
      obtain ⟨rfl, -⟩ := spec
      simpa [firstAdded] using ih hv h₂
    | true =>
      obtain ⟨-, -, hhd, hv₁, habs, hlk⟩ := spec
      obtain ⟨hv', hhd', hlk'⟩ := ih hv₁ h₂
      refine ⟨hv', hhd'.trans hhd, fun q => ?_⟩
      rw [hlk', hlk]
      by_cases hq : q = wp.codePoints
      · subst hq
        simp [firstAdded, habs]
      · simp [firstAdded, hq, Ne.symm hq]

/-- A completed run from an empty dictionary keeps the invariant and stores, for every query, the
payload of the first call on it that returned true. -/
theorem addWords_empty {header : AttributeMap} {wps : List (WordProperty α)} {flags : List Bool}
    {d : OffdeviceIntermediateDict α} (h : addWords maxWordLength (.empty header) wps = .ok (flags, d)) :
    ArrayValid [] d.rootPtNodeArray ∧ d.lookup = firstAdded wps flags := by
  obtain ⟨hv, -, hlk⟩ := addWords_spec maxWordLength (d := .empty header) trivial h
  exact ⟨hv, funext fun q => by rw [hlk]; rfl⟩

/-- Every dictionary a completed run builds from a reachable one is reachable. -/
theorem Reachable.addWords {d : OffdeviceIntermediateDict α} (hd : Reachable maxWordLength d)
    {wps : List (WordProperty α)} {flags : List Bool} {d' : OffdeviceIntermediateDict α}
    (h : addWords maxWordLength d wps = .ok (flags, d')) : Reachable maxWordLength d' := by
  induction wps generalizing d flags with
  | nil => cases h; exact hd
  | cons wp rest ih =>
    obtain ⟨added, d₁, flags₁, h₁, h₂, -⟩ := addWords_cons_eq_ok maxWordLength h
    exact ih (.addWord hd h₁) h₂

/-- **`getWordProperty` after a completed run answers with the first successful call.** From an
empty dictionary, the query `q` returns the payload of the first call on `q` that returned
true, or faults reading past the query's end; the fault comes only when no call on `q` returned
true and `q` is a proper prefix of a word that a call added. -/
theorem addWords_getWordProperty {header : AttributeMap} {wps : List (WordProperty α)}
    {flags : List Bool} {d : OffdeviceIntermediateDict α}
    (h : addWords maxWordLength (.empty header) wps = .ok (flags, d)) (q : List Int) :
    getWordProperty d q = .ok (firstAdded wps flags q) ∨
      (getWordProperty d q = .error (.outOfRange q.length q.length) ∧
        firstAdded wps flags q = none ∧ ∃ s, s ≠ [] ∧ (firstAdded wps flags (q ++ s)).isSome) := by
  obtain ⟨hv', hl⟩ := addWords_empty maxWordLength h
  have := getWordProperty_spec hv' q
  rw [hl] at this
  simpa only [GetSpec, List.drop_zero] using this

/-- The run that adds `ab` alone, queried at `ab`. -/
theorem addWords_getWordProperty_ab :
    let wps : List (WordProperty Unit) := [⟨[97, 98], ()⟩]
    let d : OffdeviceIntermediateDict Unit := ⟨[], [.terminal [97, 98] ⟨[97, 98], ()⟩]⟩
    getWordProperty d [97, 98] = .ok (firstAdded wps [true] [97, 98]) ∨
      (getWordProperty d [97, 98] = .error (.outOfRange [97, 98].length [97, 98].length) ∧
        firstAdded wps [true] [97, 98] = none ∧
        ∃ s, s ≠ [] ∧ (firstAdded wps [true] ([97, 98] ++ s)).isSome) :=
  addWords_getWordProperty 48
    (by rw [addWords, addWord_of_valid_length _ (by simp) (by simp), empty_rootPtNodeArray,
      addWordInner_nil]; rfl) [97, 98]

/-- **After a run, `addWord` returns false exactly on a rejected word.** On the dictionary a
completed run builds from an empty one, one more call returns false iff its word is empty, longer
than `MAX_WORD_LENGTH`, or the code points of a call of the run that returned true; and it leaves
the dictionary as it was. -/
theorem addWords_addWord_false_iff {header : AttributeMap} {wps : List (WordProperty α)}
    {flags : List Bool} {d : OffdeviceIntermediateDict α}
    (h : addWords maxWordLength (.empty header) wps = .ok (flags, d)) (wordProperty : WordProperty α) :
    ((∃ d', addWord maxWordLength d wordProperty = .ok (false, d')) ↔
      (wordProperty.codePoints = [] ∨ wordProperty.codePoints.length > maxWordLength ∨
        ∃ wp, (wp, true) ∈ wps.zip flags ∧ wp.codePoints = wordProperty.codePoints)) ∧
    ∀ d', addWord maxWordLength d wordProperty = .ok (false, d') → d' = d := by
  obtain ⟨hv, hl⟩ := addWords_empty maxWordLength h
  rw [← firstAdded_isSome_iff, ← hl]
  exact addWord_false_iff_of_arrayValid maxWordLength hv wordProperty

unseal addWordInner in
/-- The run `abc`, `abd`, then `abc` once more. -/
theorem addWords_addWord_false_iff_abc :
    let wps : List (WordProperty Unit) := [⟨[97, 98, 99], ()⟩, ⟨[97, 98, 100], ()⟩]
    let d : OffdeviceIntermediateDict Unit := ⟨[], [⟨[97, 98], [.terminal [100] ⟨[97, 98, 100], ()⟩,
      .terminal [99] ⟨[97, 98, 99], ()⟩], none⟩]⟩
    let wordProperty : WordProperty Unit := ⟨[97, 98, 99], ()⟩
    addWords 48 (.empty []) wps = .ok ([true, true], d) ∧
    ((∃ d', addWord 48 d wordProperty = .ok (false, d')) ↔
      (wordProperty.codePoints = [] ∨ wordProperty.codePoints.length > 48 ∨
        ∃ wp, (wp, true) ∈ wps.zip [true, true] ∧ wp.codePoints = wordProperty.codePoints)) ∧
    ∀ d', addWord 48 d wordProperty = .ok (false, d') → d' = d :=
  have h : addWords 48 (.empty []) [(⟨[97, 98, 99], ()⟩ : WordProperty Unit), ⟨[97, 98, 100], ()⟩] =
      .ok ([true, true], ⟨[], [⟨[97, 98], [.terminal [100] ⟨[97, 98, 100], ()⟩,
        .terminal [99] ⟨[97, 98, 99], ()⟩], none⟩]⟩) := rfl
  ⟨h, addWords_addWord_false_iff 48 h ⟨[97, 98, 99], ()⟩⟩

/-- A run of fresh words with distinct code points, all of valid length, stores each of them
under its own code points. -/
theorem addWords_lookup_of_fresh {d : OffdeviceIntermediateDict α}
    (hv : ArrayValid [] d.rootPtNodeArray) {wps : List (WordProperty α)}
    (hdist : wps.Pairwise fun a b => a.codePoints ≠ b.codePoints)
    (hfresh : ∀ wp ∈ wps, wp.codePoints ≠ [] ∧ wp.codePoints.length ≤ maxWordLength ∧
      d.lookup wp.codePoints = none)
    {flags : List Bool} {d' : OffdeviceIntermediateDict α}
    (h : addWords maxWordLength d wps = .ok (flags, d')) (q : List Int) (w : WordProperty α) :
    d'.lookup q = some w ↔ d.lookup q = some w ∨ (w ∈ wps ∧ w.codePoints = q) := by
  induction wps generalizing d flags with
  | nil => cases h; simp
  | cons wp rest ih =>
    obtain ⟨added, d₁, flags₁, h₁, h₂, -⟩ := addWords_cons_eq_ok maxWordLength h
    obtain ⟨hne, hle, habs⟩ := hfresh wp (.head _)
    have spec := addWord_spec maxWordLength hv wp
    rw [h₁] at spec
    cases added with
    | false =>
      obtain ⟨-, hrej | hrej | hrej⟩ := spec
      · exact absurd hrej hne
      · omega
      · simp [habs] at hrej
    | true =>
      obtain ⟨-, -, -, hv₁, -, hlk⟩ := spec
      have hdist' := List.pairwise_cons.mp hdist
      have hfresh₁ : ∀ b ∈ rest, b.codePoints ≠ [] ∧ b.codePoints.length ≤ maxWordLength ∧
          d₁.lookup b.codePoints = none := fun b hb => by
        obtain ⟨hb₁, hb₂, hb₃⟩ := hfresh b (.tail _ hb)
        exact ⟨hb₁, hb₂, by rw [hlk, if_neg (Ne.symm (hdist'.1 b hb)), hb₃]⟩
      rw [ih hv₁ hdist'.2 hfresh₁ h₂, hlk, List.mem_cons, or_and_right]
      by_cases hq : q = wp.codePoints
      · subst hq
        simp only [if_true, habs, Option.some.injEq, reduceCtorEq, false_or]
        exact ⟨(·.elim (fun h => .inl ⟨h.symm, h ▸ rfl⟩) .inr), (·.elim (fun h => .inl h.1.symm) .inr)⟩
      · have hwp : ¬ (w = wp ∧ w.codePoints = q) := fun ⟨h₁, h₂⟩ => hq (h₁ ▸ h₂.symm)
        simp only [if_neg hq, hwp, false_or]

/-- **Insertion order does not shape the trie.** Two runs over permutations of one list of words
with distinct code points of valid length, from empty dictionaries, that both complete, build
the same root array. -/
theorem addWords_perm_rootPtNodeArray_eq {wps wps' : List (WordProperty α)} (hperm : wps.Perm wps')
    (hdist : wps.Pairwise fun a b => a.codePoints ≠ b.codePoints)
    (hlen : ∀ wp ∈ wps, wp.codePoints ≠ [] ∧ wp.codePoints.length ≤ maxWordLength)
    {header header' : AttributeMap} {flags flags' : List Bool} {d d' : OffdeviceIntermediateDict α}
    (h : addWords maxWordLength (.empty header) wps = .ok (flags, d))
    (h' : addWords maxWordLength (.empty header') wps' = .ok (flags', d')) :
    d.rootPtNodeArray = d'.rootPtNodeArray := by
  have fresh : ∀ {l : List (WordProperty α)} {hd : AttributeMap}, (∀ wp ∈ l, wp.codePoints ≠ [] ∧
      wp.codePoints.length ≤ maxWordLength) → ∀ wp ∈ l, wp.codePoints ≠ [] ∧
      wp.codePoints.length ≤ maxWordLength ∧ (empty hd : OffdeviceIntermediateDict α).lookup wp.codePoints = none :=
    fun hl wp hw => ⟨(hl wp hw).1, (hl wp hw).2, rfl⟩
  have hv : ∀ hd : AttributeMap, ArrayValid [] (empty hd : OffdeviceIntermediateDict α).rootPtNodeArray :=
    fun _ => trivial
  have hs := addWords_lookup_of_fresh maxWordLength (hv header) hdist (fresh hlen) h
  have hs' := addWords_lookup_of_fresh maxWordLength (hv header')
    (hperm.pairwise hdist Ne.symm) (fresh fun wp hw => hlen wp (hperm.mem_iff.mpr hw)) h'
  refine eq_of_lookupIn_eq _ _ (addWords_spec maxWordLength (hv header) h).1
    (addWords_spec maxWordLength (hv header') h').1 fun q => Option.ext fun w => ?_
  show w ∈ d.lookup q ↔ w ∈ d'.lookup q
  rw [Option.mem_def, Option.mem_def, hs, hs', hperm.mem_iff]
  rfl

unseal addWordInner in
/-- `a`, `b` from an empty header and `b`, `a` from a header with one attribute: two completed
runs, two dictionaries, one trie. -/
theorem addWords_perm_rootPtNodeArray_eq_ab :
    ∃ (flags flags' : List Bool) (d d' : OffdeviceIntermediateDict Unit),
      addWords 48 (.empty []) [⟨[97], ()⟩, ⟨[98], ()⟩] = .ok (flags, d) ∧
      addWords 48 (.empty [([118], [50])]) [⟨[98], ()⟩, ⟨[97], ()⟩] = .ok (flags', d') ∧
      d.header ≠ d'.header ∧ d.rootPtNodeArray = d'.rootPtNodeArray := by
  have h : addWords 48 (.empty []) [(⟨[97], ()⟩ : WordProperty Unit), ⟨[98], ()⟩] =
      .ok ([true, true], ⟨[], [.terminal [98] ⟨[98], ()⟩, .terminal [97] ⟨[97], ()⟩]⟩) := rfl
  have h' : addWords 48 (.empty [([118], [50])]) [(⟨[98], ()⟩ : WordProperty Unit), ⟨[97], ()⟩] =
      .ok ([true, true], ⟨[([118], [50])], [.terminal [98] ⟨[98], ()⟩, .terminal [97] ⟨[97], ()⟩]⟩) := rfl
  exact ⟨_, _, _, _, h, h', by decide,
    addWords_perm_rootPtNodeArray_eq 48 (List.Perm.swap _ _ _) (by simp) (by simp) h h'⟩

/-- **A reachable trie depends only on what it stores.** Two reachable dictionaries that store the
same payload under every query have the same root array, whatever the runs of `addWord` that
built them, the order of their calls, or the `MAX_WORD_LENGTH` they ran under. -/
theorem rootPtNodeArray_eq_of_lookup_eq {maxWordLength₁ maxWordLength₂ : Nat}
    {d₁ d₂ : OffdeviceIntermediateDict α} (h₁ : Reachable maxWordLength₁ d₁)
    (h₂ : Reachable maxWordLength₂ d₂) (heq : ∀ q, d₁.lookup q = d₂.lookup q) :
    d₁.rootPtNodeArray = d₂.rootPtNodeArray :=
  eq_of_lookupIn_eq _ _ (Reachable.arrayValid _ h₁) (Reachable.arrayValid _ h₂) heq

unseal addWordInner in
/-- `a`, `b` under `MAX_WORD_LENGTH = 48`, against `b`, `a` and a rejected `ab` under
`MAX_WORD_LENGTH = 1`, from another header: two histories that store one map. -/
theorem rootPtNodeArray_eq_of_lookup_eq_ab :
    ∃ d₁ d₂ : OffdeviceIntermediateDict Unit,
      addWords 48 (.empty []) [⟨[97], ()⟩, ⟨[98], ()⟩] = .ok ([true, true], d₁) ∧
      addWords 1 (.empty [([118], [50])]) [⟨[98], ()⟩, ⟨[97], ()⟩, ⟨[97, 98], ()⟩] =
        .ok ([true, true, false], d₂) ∧
      d₁.header ≠ d₂.header ∧ (∀ q, d₁.lookup q = d₂.lookup q) ∧
      d₁.rootPtNodeArray = d₂.rootPtNodeArray := by
  have h₁ : addWords 48 (.empty []) [(⟨[97], ()⟩ : WordProperty Unit), ⟨[98], ()⟩] =
      .ok ([true, true], ⟨[], [.terminal [98] ⟨[98], ()⟩, .terminal [97] ⟨[97], ()⟩]⟩) := rfl
  have h₂ : addWords 1 (.empty [([118], [50])])
      [(⟨[98], ()⟩ : WordProperty Unit), ⟨[97], ()⟩, ⟨[97, 98], ()⟩] =
      .ok ([true, true, false],
        ⟨[([118], [50])], [.terminal [98] ⟨[98], ()⟩, .terminal [97] ⟨[97], ()⟩]⟩) := rfl
  exact ⟨_, _, h₁, h₂, by decide, fun _ => rfl, rootPtNodeArray_eq_of_lookup_eq
    (Reachable.addWords 48 (.empty []) h₁) (Reachable.addWords 1 (.empty _) h₂) fun _ => rfl⟩

/-! ## Runs that fault -/

unseal addWordInner in
/-- **Adding `abc`, `abd` and `a` faults**: the third call splits the payload-less node `ab`. -/
theorem addWords_faults_on_split (h : 3 ≤ maxWordLength) :
    addWords maxWordLength (.empty [])
      [⟨[97, 98, 99], ()⟩, ⟨[97, 98, 100], ()⟩, ⟨[97], ()⟩] = .error .nullWordProperty := by
  simp (disch := simp <;> omega) only [addWords, addWord_of_valid_length]
  rfl

/-- The faulting run at `MAX_WORD_LENGTH = 48`. -/
theorem addWords_faults_on_split_at_48 :
    3 ≤ 48 ∧ addWords 48 (.empty [])
      [(⟨[97, 98, 99], ()⟩ : WordProperty Unit), ⟨[97, 98, 100], ()⟩, ⟨[97], ()⟩] =
        .error .nullWordProperty :=
  ⟨by decide, addWords_faults_on_split 48 (by decide)⟩

unseal addWordInner in
/-- **The order of insertion decides whether a run completes**: `a`, `abc`, `abd` completes, and
its permutation `abc`, `abd`, `a` faults. -/
theorem addWords_depends_on_order (h : 3 ≤ maxWordLength) :
    (∃ r, addWords maxWordLength (.empty [])
      [⟨[97], ()⟩, ⟨[97, 98, 99], ()⟩, ⟨[97, 98, 100], ()⟩] = .ok r) ∧
    addWords maxWordLength (.empty [])
      [⟨[97, 98, 99], ()⟩, ⟨[97, 98, 100], ()⟩, ⟨[97], ()⟩] = .error .nullWordProperty := by
  constructor
  · apply Exists.intro
    simp (disch := simp <;> omega) only [addWords, addWord_of_valid_length]
    rfl
  · simp (disch := simp <;> omega) only [addWords, addWord_of_valid_length]
    rfl

/-- The two orders at `MAX_WORD_LENGTH = 48`. -/
theorem addWords_depends_on_order_at_48 :
    3 ≤ 48 ∧ (∃ r, addWords 48 (.empty [])
      [(⟨[97], ()⟩ : WordProperty Unit), ⟨[97, 98, 99], ()⟩, ⟨[97, 98, 100], ()⟩] = .ok r) ∧
    addWords 48 (.empty [])
      [(⟨[97, 98, 99], ()⟩ : WordProperty Unit), ⟨[97, 98, 100], ()⟩, ⟨[97], ()⟩] =
        .error .nullWordProperty :=
  ⟨by decide, addWords_depends_on_order 48 (by decide)⟩

end

end OffdeviceIntermediateDict

end DictToolkit
