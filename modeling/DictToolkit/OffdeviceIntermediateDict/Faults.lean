import DictToolkit.OffdeviceIntermediateDict.GetWordPropertyCorrect

/-!
# Where the intermediate dictionary faults

The two undefined behaviours of `offdevice_intermediate_dict.cpp`, each located exactly on every
reachable dictionary by the node of the trie where the word or the query stops. `NodeAt` names a
node of the trie together with the labels above it, and `ReachesWith Q arr x` says that reading
`x` down the trie below `arr` reaches a node where what is left of `x` meets `Q`.

- `getWordProperty_faults_iff`: `getWordProperty` faults exactly when the query stops strictly
  inside the label of a node, and that label is no longer than the whole query: the guard of
  line 102 measures the label against `codePoints.size()`, not against what is left of the query.
- `addWord_faults_iff`: `addWord` faults exactly when the word, of valid length, reaches a node
  without a payload, starts like its label, and does not run through all of it: `addWordInner`
  splits that node, and the label-replacement constructor copies its null payload.

Both scans stop at the sibling whose first code point the word's selects, so the proofs only
follow the one node the word reaches on each level (`ReachesWith.head?`).
-/

namespace DictToolkit

namespace OffdeviceIntermediateDict

variable {α : Type}

open PtNode

/-- `NodeAt arr path n`: the node `n` is in the trie below the node array `arr`, and `path` is
what the labels of the nodes above it spell. -/
inductive NodeAt : PtNodeArray α → List Int → PtNode α → Prop
  /-- A node of the array itself. -/
  | here {arr : PtNodeArray α} {n : PtNode α} : n ∈ arr → NodeAt arr [] n
  /-- A node below the children of a node of the array, under that node's label. -/
  | under {arr : PtNodeArray α} {n m : PtNode α} {path : List Int} :
    n ∈ arr → NodeAt n.childrenPtNodeArray path m → NodeAt arr (n.ptNodeCodePoints ++ path) m

/-- Reading `x` down the trie below `arr` reaches a node `m` under the labels `path`, and what is
left of `x` there, `r`, meets `Q m r`. -/
def ReachesWith (Q : PtNode α → List Int → Prop) (arr : PtNodeArray α) (x : List Int) : Prop :=
  ∃ path m r, NodeAt arr path m ∧ x = path ++ r ∧ Q m r

/-! ## Nodes of the trie -/

theorem NodeAt.subset {arr arr' : PtNodeArray α} {path : List Int} {m : PtNode α}
    (h : NodeAt arr path m) (hsub : arr ⊆ arr') : NodeAt arr' path m := by
  cases h with
  | here hn => exact .here (hsub hn)
  | under hn h => exact .under (hsub hn) h

/-- A node below an array is below one of its nodes. -/
theorem NodeAt.exists_mem {arr : PtNodeArray α} {path : List Int} {m : PtNode α}
    (h : NodeAt arr path m) : ∃ n ∈ arr, NodeAt [n] path m := by
  cases h with
  | here hn => exact ⟨m, hn, .here (.head _)⟩
  | under hn h => exact ⟨_, hn, .under (.head _) h⟩

section
variable {Q : PtNode α → List Int → Prop}

theorem not_reachesWith_nil (x : List Int) : ¬ ReachesWith Q [] x := by
  rintro ⟨_, _, _, h, -⟩
  obtain ⟨_, hn, -⟩ := h.exists_mem
  cases hn

theorem reachesWith_cons {n : PtNode α} {rest : PtNodeArray α} {x : List Int} :
    ReachesWith Q (n :: rest) x ↔ ReachesWith Q [n] x ∨ ReachesWith Q rest x := by
  constructor
  · rintro ⟨path, m, r, h, hx, hq⟩
    obtain ⟨n', hn', h'⟩ := h.exists_mem
    rcases List.mem_cons.mp hn' with rfl | hn'
    · exact .inl ⟨path, m, r, h', hx, hq⟩
    · exact .inr ⟨path, m, r, h'.subset fun _ h => List.mem_singleton.mp h ▸ hn', hx, hq⟩
  · rintro (⟨path, m, r, h, hx, hq⟩ | ⟨path, m, r, h, hx, hq⟩)
    · exact ⟨path, m, r, h.subset fun _ h => List.mem_singleton.mp h ▸ .head _, hx, hq⟩
    · exact ⟨path, m, r, h.subset (List.subset_cons_self _ _), hx, hq⟩

/-- A word reaches below a single node at the node itself, or past its whole label. -/
theorem reachesWith_singleton {n : PtNode α} {x : List Int} :
    ReachesWith Q [n] x ↔
      Q n x ∨ ∃ y, x = n.ptNodeCodePoints ++ y ∧ ReachesWith Q n.childrenPtNodeArray y := by
  constructor
  · rintro ⟨_, m, r, ⟨hn⟩ | ⟨hn, h⟩, rfl, hq⟩ <;> obtain rfl := List.mem_singleton.mp hn
    · exact .inl hq
    · exact .inr ⟨_, List.append_assoc _ _ _, _, _, _, h, rfl, hq⟩
  · rintro (hq | ⟨y, rfl, path, m, r, h, rfl, hq⟩)
    · exact ⟨[], n, x, .here (.head _), rfl, hq⟩
    · exact ⟨_, m, r, .under (.head _) h, (List.append_assoc _ _ _).symm, hq⟩

/-- When `Q` only holds where what is left starts like the label, a word that reaches a node of
a valid array starts with the first code point of one of the array's nodes. -/
theorem ReachesWith.head? (hQ : ∀ m r, Q m r → r.head? = m.ptNodeCodePoints.head?)
    {path : List Int} {arr : PtNodeArray α} (hv : ArrayValid path arr) {x : List Int}
    (h : ReachesWith Q arr x) : ∃ n ∈ arr, x.head? = some n.firstCodePoint := by
  obtain ⟨_, m, r, hm, rfl, hq⟩ := h
  obtain ⟨n, hn, hm⟩ := hm.exists_mem
  obtain ⟨t, ht⟩ := (((ArrayValid_iff _ _).mp hv).1 n hn).eq_cons
  refine ⟨n, hn, ?_⟩
  cases hm with
  | here hn' =>
    obtain rfl := List.mem_singleton.mp hn'
    rw [List.nil_append, hQ _ _ hq, ht]
    rfl
  | under hn' _ =>
    obtain rfl := List.mem_singleton.mp hn'
    rw [ht]
    rfl

/-- No word starting with `c` reaches below a valid array none of whose nodes starts with `c`. -/
theorem not_reachesWith_of_ne (hQ : ∀ m r, Q m r → r.head? = m.ptNodeCodePoints.head?)
    {path : List Int} {arr : PtNodeArray α} (hv : ArrayValid path arr) {x : List Int} {c : Int}
    (hx : x.head? = some c) (hc : ∀ n ∈ arr, n.firstCodePoint ≠ c) : ¬ ReachesWith Q arr x :=
  fun h => by
    obtain ⟨n, hn, hn'⟩ := h.head? hQ hv
    exact hc n hn (Option.some.inj (hn'.symm.trans hx))

end

/-! ## `getWordProperty` -/

/-- What is left of a query at a node it reaches ends strictly inside the node's label, and the
label is no longer than the whole query, of length `bound`. -/
def EndsInLabel (bound : Nat) (m : PtNode α) (r : List Int) : Prop :=
  r ≠ [] ∧ (∃ s, s ≠ [] ∧ m.ptNodeCodePoints = r ++ s) ∧ m.ptNodeCodePoints.length ≤ bound

theorem endsInLabel_head? {bound : Nat} (m : PtNode α) (r : List Int) (h : EndsInLabel bound m r) :
    r.head? = m.ptNodeCodePoints.head? := by
  obtain ⟨hr, ⟨s, -, hs⟩, -⟩ := h
  obtain ⟨c, r, rfl⟩ := List.exists_cons_of_ne_nil hr
  rw [hs]
  rfl

/-- A query that runs through a node's whole label does not end inside it. -/
theorem not_endsInLabel_of_runs_through {bound : Nat} {m : PtNode α} {r : List Int}
    (h : m.ptNodeCodePoints <+: r) : ¬ EndsInLabel bound m r := by
  rintro ⟨-, ⟨s, hs, he⟩, -⟩
  have := congrArg List.length he
  have := h.length_le
  simp only [List.length_append] at *
  have := List.length_pos.mpr hs
  omega

/-- The empty rest of a query reaches no label. -/
theorem not_reachesWith_endsInLabel_nil {bound : Nat} (arr : PtNodeArray α) :
    ¬ ReachesWith (EndsInLabel bound) arr [] := by
  rintro ⟨_, _, r, -, hx, hr, -⟩
  exact hr (List.append_eq_nil.mp hx.symm).2

/-- A query reaches only nodes whose labels are no longer than the query. -/
theorem ReachesWith.length_le {bound : Nat} {n : PtNode α} {x : List Int}
    (h : ReachesWith (EndsInLabel bound) [n] x) (hx : x.length ≤ bound) :
    n.ptNodeCodePoints.length ≤ bound := by
  rcases reachesWith_singleton.mp h with ⟨-, -, hl⟩ | ⟨y, rfl, -⟩
  · exact hl
  · simp only [List.length_append] at hx
    omega

mutual

/-- The scan of one valid node array at index `i` faults exactly when what is left of the query
ends inside a label below the array that is no longer than the query. -/
theorem scanPtNodes_faults_iff (q : List Int) : ∀ (arr : PtNodeArray α) {path : List Int} {i : Nat},
    ArrayValid path arr → i < q.length →
      (scanPtNodes q i arr = .error (.outOfRange q.length q.length) ↔
        ReachesWith (EndsInLabel q.length) arr (q.drop i))
  | [], _, _, _, _ => iff_of_false nofun (not_reachesWith_nil _)
  | ⟨[], ch, w⟩ :: rest, _, _, hv, _ => absurd rfl (valid_mk.mp hv.1).1
  | ⟨p :: t, ch, w⟩ :: rest, path, i, ⟨hn, hsort, hrest⟩, hi => by
    have hx : (q.drop i).head? = some q[i] := by rw [List.drop_eq_getElem_cons hi]; rfl
    have hnot : ∀ {arr : PtNodeArray α}, ArrayValid path arr → (∀ m ∈ arr, m.firstCodePoint ≠ q[i]) →
        ¬ ReachesWith (EndsInLabel q.length) arr (q.drop i) :=
      fun hv hc => not_reachesWith_of_ne endsInLabel_head? hv hx hc
    have hone : ArrayValid path [⟨p :: t, ch, w⟩] := ⟨hn, nofun, trivial⟩
    have hfirst : ∀ m ∈ [(⟨p :: t, ch, w⟩ : PtNode α)], m.firstCodePoint = p := by simp [firstCodePoint]
    rw [scanPtNodes, readAt_of_lt hi, readAt_cons_zero, reachesWith_cons]
    simp only [bind, Except.bind]
    by_cases hlt : q[i] < p
    · rw [if_pos hlt, scanPtNodes_faults_iff q rest hrest hi,
        or_iff_right (hnot hone fun m hm => by rw [hfirst m hm]; omega)]
    rw [if_neg hlt]
    have hle : p ≤ q[i] := Int.not_lt.mp hlt
    have hrest' : ¬ ReachesWith (EndsInLabel q.length) rest (q.drop i) :=
      hnot hrest fun m hm => Int.ne_of_lt (Int.lt_of_lt_of_le (hsort m hm) hle)
    by_cases hgt : q[i] > p ∨ q.length < (p :: t).length
    · rw [if_pos hgt]
      refine iff_of_false nofun (not_or.mpr ⟨fun h => ?_, hrest'⟩)
      rcases hgt with hgt | hgt
      · exact hnot hone (fun m hm => by rw [hfirst m hm]; omega) h
      · exact absurd (h.length_le (by simp)) (Nat.not_le.mpr hgt)
    · rw [if_neg hgt, or_iff_left hrest']
      exact visitPtNode_faults_iff q ⟨p :: t, ch, w⟩ hn hi
        (Int.le_antisymm (Int.not_lt.mp fun h' => hgt (.inl h')) hle)
        (Nat.le_of_not_lt fun h' => hgt (.inr h'))

/-- The body run on the sibling whose first code point matches, with the guard of line 102
passed, faults exactly when what is left of the query ends inside a label at or below the node. -/
theorem visitPtNode_faults_iff (q : List Int) : ∀ (n : PtNode α) {path : List Int} {i : Nat},
    n.Valid path → (hi : i < q.length) → q[i] = n.firstCodePoint →
      n.ptNodeCodePoints.length ≤ q.length →
      (visitPtNode q i n = .error (.outOfRange q.length q.length) ↔
        ReachesWith (EndsInLabel q.length) [n] (q.drop i))
  | ⟨[], ch, w⟩, _, _, hv, _, _, _ => absurd rfl (valid_mk.mp hv).1
  | ⟨p :: t, ch, w⟩, path, i, hv, hi, hc, hl => by
    have hq : q.drop i = p :: q.drop (i + 1) :=
      (List.drop_eq_getElem_cons hi).trans (by rw [hc]; rfl)
    simp only [List.length_cons] at hl
    rw [visitPtNode, List.drop_one, List.tail_cons, compareLabel_eq t (by omega),
      reachesWith_singleton]
    by_cases h1 : t <+: q.drop (i + 1)
    · obtain ⟨r, hr⟩ := id h1
      have hlen : q.length = i + (t.length + 1) + r.length := by
        have := congrArg List.length hr
        simp only [List.length_drop, List.length_append] at this
        omega
      have hdr : q.drop (i + (t.length + 1)) = r := by
        rw [← List.drop_drop, hq, ← hr, List.drop_succ_cons, List.drop_left]
      have hbelow : (∃ y, q.drop i = (p :: t) ++ y ∧
          ReachesWith (EndsInLabel q.length) ch y) ↔ ReachesWith (EndsInLabel q.length) ch r := by
        rw [hq, ← hr]
        simp
      rw [if_pos h1, or_iff_right (not_endsInLabel_of_runs_through ⟨r, by rw [hq, ← hr]; rfl⟩),
        hbelow]
      simp only [Except.ok_bind, Except.pure_eq_ok, Bool.not_true, List.length_cons]
      by_cases hr0 : r = []
      · subst hr0
        rw [if_pos (show i + (t.length + 1) = q.length by simp at hlen; omega)]
        exact iff_of_false nofun (not_reachesWith_endsInLabel_nil ch)
      · have hpos : 0 < r.length := List.length_pos.mpr hr0
        rw [if_neg (show ¬ i + (t.length + 1) = q.length by omega),
          if_pos (show i + (t.length + 1) < q.length by omega), ← hdr]
        exact scanPtNodes_faults_iff q ch (valid_mk.mp hv).2.2.2
          (show i + (t.length + 1) < q.length by omega)
    · have hbelow : ¬ ∃ y, q.drop i = (p :: t) ++ y ∧ ReachesWith (EndsInLabel q.length) ch y :=
        fun ⟨y, hy, _⟩ => h1 ⟨y, by rw [hq] at hy; exact (List.cons.inj hy).2.symm⟩
      rw [if_neg h1, or_iff_left hbelow]
      by_cases h2 : q.drop (i + 1) <+: t
      · obtain ⟨v, hv'⟩ := id h2
        have hv0 : v ≠ [] := by
          rintro rfl
          rw [List.append_nil] at hv'
          exact h1 (hv' ▸ List.prefix_refl _)
        simp only [if_pos h2, Except.error_bind, true_iff]
        exact ⟨by simp [hq], ⟨v, hv0, by rw [hq, ← hv']; rfl⟩, hl⟩
      · simp only [if_neg h2, Except.ok_bind, Except.pure_eq_ok, Bool.not_false, if_true]
        refine iff_of_false nofun fun ⟨_, ⟨s, _, hs⟩, _⟩ => h2 ⟨s, ?_⟩
        rw [hq] at hs
        exact (List.cons.inj hs).2.symm

end

/-- **Exactly where `getWordProperty` reads past the query's end.** On every reachable dictionary
`getWordProperty` faults exactly when the query reaches a node under the labels `path` and stops
strictly inside that node's label, and the label is no longer than the whole query: the guard of
line 102 measures the label against `codePoints.size()`, not against what is left of it. -/
theorem getWordProperty_faults_iff {maxWordLength : Nat} {d : OffdeviceIntermediateDict α}
    (h : Reachable maxWordLength d) (q : List Int) :
    (∃ e, getWordProperty d q = .error e) ↔
      ∃ path n r, NodeAt d.rootPtNodeArray path n ∧ q = path ++ r ∧ r ≠ [] ∧
        (∃ s, s ≠ [] ∧ n.ptNodeCodePoints = r ++ s) ∧ n.ptNodeCodePoints.length ≤ q.length := by
  have hv := h.arrayValid
  have hfault : (∃ e, getWordProperty d q = .error e) ↔
      getWordProperty d q = .error (.outOfRange q.length q.length) := by
    refine ⟨fun ⟨e, he⟩ => ?_, fun h => ⟨_, h⟩⟩
    rcases getWordProperty_spec hv q with h' | ⟨h', -⟩
    · rw [he] at h'; cases h'
    · exact he ▸ h'
  rw [hfault, getWordProperty]
  split
  · exact scanPtNodes_faults_iff q d.rootPtNodeArray hv ‹_›
  · obtain rfl : q = [] := List.eq_nil_of_length_eq_zero (Nat.eq_zero_of_not_pos ‹_›)
    exact iff_of_false nofun (not_reachesWith_endsInLabel_nil _)

/-- The query `a` on the dictionary that holds `ab` stops inside the root's label `ab`, which is
longer than the query: no fault. -/
theorem getWordProperty_faults_iff_ab :
    let d : OffdeviceIntermediateDict Unit := ⟨[], [.terminal [97, 98] ⟨[97, 98], ()⟩]⟩
    (∃ e, getWordProperty d [97] = .error e) ↔
      ∃ path n r, NodeAt d.rootPtNodeArray path n ∧ [97] = path ++ r ∧ r ≠ [] ∧
        (∃ s, s ≠ [] ∧ n.ptNodeCodePoints = r ++ s) ∧ n.ptNodeCodePoints.length ≤ [97].length :=
  getWordProperty_faults_iff reachable_ab [97]

/-! ## `addWord` -/

/-- What is left of the word at a node it reaches starts like the node's label but does not run
through all of it, and the node has no payload: `addWordInner` splits the node there. -/
def SplitsNullPayload (m : PtNode α) (r : List Int) : Prop :=
  m.wordProperty = none ∧ r.head? = m.ptNodeCodePoints.head? ∧ ¬ m.ptNodeCodePoints <+: r

theorem splitsNullPayload_head? (m : PtNode α) (r : List Int) (h : SplitsNullPayload m r) :
    r.head? = m.ptNodeCodePoints.head? :=
  h.2.1

/-- A `do` block that only wraps what `x` returns faults exactly when `x` does. -/
theorem faults_bind_ok {ε β γ : Type} {x : Except ε β} {f : β → Except ε γ}
    (hf : ∀ b, ∃ c, f b = .ok c) : (∃ e, (x >>= f) = .error e) ↔ ∃ e, x = .error e := by
  cases x with
  | error e => exact ⟨fun _ => ⟨e, rfl⟩, fun _ => ⟨e, rfl⟩⟩
  | ok b =>
    obtain ⟨c, hc⟩ := hf b
    exact iff_of_false (fun ⟨_, h⟩ => by rw [Except.ok_bind, hc] at h; cases h) fun ⟨_, h⟩ => nomatch h

/-- Beside a single node that starts with another code point, `addWordInner` returns. -/
theorem addWordInner_singleton_ok (wordProperty : WordProperty α) (n : PtNode α)
    {codePoints : List Int} {c y : Int} (hc : readAt codePoints 0 = .ok c)
    (hp : readAt n.ptNodeCodePoints 0 = .ok y) (hne : y ≠ c) :
    ∃ v, addWordInner codePoints wordProperty [n] = .ok v := by
  rcases Int.lt_or_gt_of_ne hne with h | h
  · exact ⟨_, addWordInner_of_gt hc hp h⟩
  · rw [addWordInner_of_lt hc hp h, addWordInner_nil]
    exact ⟨_, rfl⟩

/-- The siblings after the one the word's first code point selects reach nothing. -/
theorem not_reachesWith_rest {Q : PtNode α → List Int → Prop}
    (hQ : ∀ m r, Q m r → r.head? = m.ptNodeCodePoints.head?) {path codePoints : List Int}
    {ptNode : PtNode α} {rest : PtNodeArray α} {c : Int} (hv : ArrayValid path (ptNode :: rest))
    (hc : readAt codePoints 0 = .ok c) (hp : readAt ptNode.ptNodeCodePoints 0 = .ok c) :
    ¬ ReachesWith Q rest codePoints :=
  not_reachesWith_of_ne hQ hv.2.2 (head?_of_readAt hc) fun m hm =>
    Int.ne_of_lt (firstCodePoint_of_readAt hp ▸ hv.2.1 m hm)

/-- `addWordInner` on a valid array faults exactly when the word reaches a node without a
payload, starts like its label and does not run through all of it. -/
theorem addWordInner_faults_iff (codePoints : List Int) (wordProperty : WordProperty α)
    (arr : PtNodeArray α) : ∀ path, ArrayValid path arr → codePoints ≠ [] →
      ((∃ e, addWordInner codePoints wordProperty arr = .error e) ↔
        ReachesWith SplitsNullPayload arr codePoints) := by
  induction codePoints, wordProperty, arr using addWordInner.induct with
  | case1 cps wp =>
    intro _ _ _
    rw [addWordInner_nil]
    exact iff_of_false (fun ⟨_, h⟩ => nomatch h) (not_reachesWith_nil _)
  | case2 cps wp n rest e hc =>
    intro _ _ hne
    obtain ⟨c, t, rfl⟩ := List.exists_cons_of_ne_nil hne
    simp at hc
  | case3 cps wp n rest c e _ hp =>
    intro path hv
    obtain ⟨t, ht⟩ := hv.1.eq_cons
    rw [ht] at hp
    simp at hp
  | case4 cps wp n rest c p hc hp h ih =>
    intro path hv hne
    have hn : ¬ ReachesWith SplitsNullPayload [n] cps :=
      not_reachesWith_of_ne splitsNullPayload_head? (show ArrayValid path [n] from ⟨hv.1, nofun, trivial⟩)
        (head?_of_readAt hc)
        (by simp only [List.mem_singleton, forall_eq, firstCodePoint_of_readAt hp]; omega)
    rw [addWordInner_of_lt hc hp h, faults_bind_ok, ih path hv.2.2 hne, reachesWith_cons,
      or_iff_right hn]
    exact fun ⟨_, _⟩ => ⟨_, rfl⟩
  | case5 cps wp n rest c p hc hp _ h =>
    intro path hv _
    rw [addWordInner_of_gt hc hp h]
    refine iff_of_false (fun ⟨_, h⟩ => nomatch h) (not_reachesWith_of_ne splitsNullPayload_head?
      hv (head?_of_readAt hc) fun m hm => ?_)
    rcases List.mem_cons.mp hm with rfl | hm
    · rw [firstCodePoint_of_readAt hp]; omega
    · have := hv.2.1 m hm
      rw [firstCodePoint_of_readAt hp] at this
      omega
  | case6 cps wp n rest c p hc hp h1 h2 i hl ih =>
    intro path hv _
    obtain rfl : c = p := by omega
    have hrest := not_reachesWith_rest splitsNullPayload_head? hv hc hp
    obtain ⟨l, ch, w⟩ := n
    have hvn := valid_mk.mp hv.1
    obtain ⟨t, rfl⟩ := readAt_zero_eq_ok.mp hc
    obtain ⟨u, rfl⟩ := readAt_zero_eq_ok.mp hp
    simp only [List.drop_succ_cons, List.drop_zero] at hl
    obtain ⟨r, hr, rfl, rfl⟩ := labelLoop_addNewChild hl
    have hdrop : (c :: (u ++ r)).drop (1 + u.length) = r := by
      rw [Nat.add_comm]; simp
    simp only [hdrop] at ih
    rw [addWordInner_of_addNewChild hc hp hl, faults_bind_ok, hdrop,
      ih (path ++ c :: u) hvn.2.2.2 hr, reachesWith_cons, or_iff_left hrest, reachesWith_singleton,
      or_iff_right fun h => h.2.2 ⟨r, rfl⟩]
    · simp
    · exact fun ⟨_, _⟩ => ⟨_, rfl⟩
  | case7 cps wp n rest c p hc hp h1 h2 i hl he | case8 cps wp n rest c p hc hp h1 h2 i hl he =>
    intro path hv _
    obtain rfl : c = p := by omega
    have hrest := not_reachesWith_rest splitsNullPayload_head? hv hc hp
    rw [addWordInner_of_stop hc hp hl, if_pos he, reachesWith_cons, or_iff_left hrest,
      reachesWith_singleton]
    obtain ⟨l, ch, w⟩ := n
    have hvn := valid_mk.mp hv.1
    obtain ⟨t, rfl⟩ := readAt_zero_eq_ok.mp hc
    obtain ⟨u, rfl⟩ := readAt_zero_eq_ok.mp hp
    simp only [List.drop_succ_cons, List.drop_zero] at hl he
    obtain ⟨-, -, -, ht, -⟩ := labelLoop_stop_cons c hl
    rw [List.take_of_length_le (by omega), List.take_of_length_le (by omega)] at ht
    obtain ⟨-, rfl⟩ := List.cons.inj ht
    refine iff_of_false (fun ⟨_, h⟩ => by split at h <;> cases h) ?_
    rintro (⟨-, -, h⟩ | ⟨y, hy, hR⟩)
    · exact h (List.prefix_refl _)
    · obtain ⟨m, -, hm⟩ := hR.head? splitsNullPayload_head? hvn.2.2.2
      rw [List.append_right_eq_self.mp hy.symm] at hm
      cases hm
  | case9 cps wp n rest c p hc hp h1 h2 i hl he =>
    intro path hv _
    obtain rfl : c = p := by omega
    have hrest := not_reachesWith_rest splitsNullPayload_head? hv hc hp
    rw [addWordInner_of_stop hc hp hl, if_neg he, reachesWith_cons, or_iff_left hrest,
      reachesWith_singleton]
    obtain ⟨l, ch, w⟩ := n
    obtain ⟨t, rfl⟩ := readAt_zero_eq_ok.mp hc
    obtain ⟨u, rfl⟩ := readAt_zero_eq_ok.mp hp
    simp only [List.drop_succ_cons, List.drop_zero] at hl he
    obtain ⟨-, h2', h3, -, hd⟩ := labelLoop_stop_cons c hl
    have hi : i < (c :: u).length := hd.elim (fun _ => by omega) (·.1)
    have hnp : ¬ (c :: u) <+: (c :: t) := not_prefix_of_leaves hi (hd.imp_right And.right)
    rw [or_iff_left fun ⟨y, hy, _⟩ => hnp ⟨y, hy.symm⟩]
    cases w with
    | none =>
      rw [newParentPtNode_none]
      exact iff_of_true ⟨_, rfl⟩ ⟨rfl, rfl, hnp⟩
    | some x =>
      refine iff_of_false ?_ fun h => nomatch h.1
      rw [newParentPtNode_some, Except.ok_bind]
      by_cases hend : (c :: t).length = i
      · simp only [hend, ne_eq, not_true_eq_false, if_false]
        exact fun ⟨_, h⟩ => nomatch h
      · have hd' : (c :: t)[i]? ≠ (c :: u)[i]? := hd.elim (fun hd => absurd hd.symm hend) (·.2)
        obtain ⟨c', t', hct⟩ := List.exists_cons_of_ne_nil
          (show (c :: t).drop i ≠ [] by rw [Ne, List.drop_eq_nil_iff]; omega)
        obtain ⟨y, u', hcu⟩ := List.exists_cons_of_ne_nil
          (show (c :: u).drop i ≠ [] by rw [Ne, List.drop_eq_nil_iff]; omega)
        have hy : y ≠ c' := fun hyc =>
          hd' (by rw [← List.head?_drop, ← List.head?_drop, hct, hcu, hyc]; rfl)
        obtain ⟨v, hv'⟩ := addWordInner_singleton_ok wp ⟨(c :: u).drop i, ch, some x⟩
          (show readAt ((c :: t).drop i) 0 = .ok c' by rw [hct, readAt_cons_zero])
          (show readAt ((c :: u).drop i) 0 = .ok y by rw [hcu, readAt_cons_zero]) hy
        simp only [hend, ne_eq, not_false_eq_true, if_true]
        rw [hv']
        exact fun ⟨_, h⟩ => nomatch h

/-- **Exactly where `addWord` dereferences a null payload.** On every reachable dictionary
`addWord` faults exactly when the word has a valid length and reaches a node without a payload
under the labels `path`, and what is left of it starts like that node's label but does not run
through all of it: `addWordInner` splits the node, and the label-replacement constructor
(`offdevice_intermediate_dict_pt_node.h:43-48`) copies its null `mWortProperty`. -/
theorem addWord_faults_iff {maxWordLength : Nat} {d : OffdeviceIntermediateDict α}
    (h : Reachable maxWordLength d) (wordProperty : WordProperty α) :
    (∃ e, addWord maxWordLength d wordProperty = .error e) ↔
      wordProperty.codePoints.length ≤ maxWordLength ∧
        ∃ path n r, NodeAt d.rootPtNodeArray path n ∧ wordProperty.codePoints = path ++ r ∧
          n.wordProperty = none ∧ r.head? = n.ptNodeCodePoints.head? ∧
          ¬ n.ptNodeCodePoints <+: r := by
  by_cases hrej : wordProperty.codePoints = [] ∨ wordProperty.codePoints.length > maxWordLength
  · rw [addWord, if_pos hrej]
    refine iff_of_false (fun ⟨_, h⟩ => nomatch h) fun ⟨hle, hR⟩ => ?_
    rcases hrej with h0 | hgt
    · obtain ⟨_, -, hn⟩ := ReachesWith.head? splitsNullPayload_head? h.arrayValid hR
      rw [h0] at hn
      cases hn
    · omega
  · have hne : wordProperty.codePoints ≠ [] := fun h' => hrej (.inl h')
    have hle : wordProperty.codePoints.length ≤ maxWordLength :=
      Nat.le_of_not_lt fun h' => hrej (.inr h')
    rw [addWord_of_valid_length d hne hle, faults_bind_ok,
      addWordInner_faults_iff _ _ _ [] h.arrayValid hne]
    · exact ⟨fun h => ⟨hle, h⟩, And.right⟩
    · exact fun ⟨_, _⟩ => ⟨_, rfl⟩

/-- Adding `a` to the dictionary that holds `ab` splits the terminal node `ab`, which has a
payload: no fault. -/
theorem addWord_faults_iff_ab :
    let d : OffdeviceIntermediateDict Unit := ⟨[], [.terminal [97, 98] ⟨[97, 98], ()⟩]⟩
    let wordProperty : WordProperty Unit := ⟨[97], ()⟩
    (∃ e, addWord 48 d wordProperty = .error e) ↔
      wordProperty.codePoints.length ≤ 48 ∧
        ∃ path n r, NodeAt d.rootPtNodeArray path n ∧ wordProperty.codePoints = path ++ r ∧
          n.wordProperty = none ∧ r.head? = n.ptNodeCodePoints.head? ∧
          ¬ n.ptNodeCodePoints <+: r :=
  addWord_faults_iff reachable_ab ⟨[97], ()⟩

end OffdeviceIntermediateDict

end DictToolkit
