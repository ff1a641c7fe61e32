import DictToolkit.OffdeviceIntermediateDict.AddWord
import DictToolkit.OffdeviceIntermediateDict.Trie

/-!
# `addWordInner` against the stored map

The contract of `addWordInner` on a valid array (`addWordInner_spec`), by outcome (`InsertSpec`):
it returns true having inserted the word into the stored map and kept the representation
invariant (`Inserted`), returns false leaving the array untouched because the word is stored, or
faults on the null payload of a node it splits, and then the word is absent. One theorem per
branch of the C++ proves the contract of that branch from the contract of the recursive call it
makes, and the main theorem follows the recursion of `addWordInner` itself.
-/

namespace DictToolkit

namespace OffdeviceIntermediateDict

variable {α : Type}

/-- What a successful `addWordInner` of `wordProperty` under `codePoints`, into the array `arr`
reached by `path`, guarantees of the array `arr'` it leaves. -/
structure Inserted (path codePoints : List Int) (wordProperty : WordProperty α)
    (arr arr' : PtNodeArray α) : Prop where
  valid : ArrayValid path arr'
  absent : lookupIn arr codePoints = none
  lookup : ∀ q, lookupIn arr' q = if q = codePoints then some wordProperty else lookupIn arr q
  firsts : ∀ x, x ∈ arr'.map PtNode.firstCodePoint ↔
    x ∈ arr.map PtNode.firstCodePoint ∨ some x = codePoints.head?
  length_le : arr.length ≤ arr'.length
  length_eq : (∀ n ∈ arr, some n.firstCodePoint ≠ codePoints.head?) →
    arr'.length = arr.length + 1

/-- The contract of `addWordInner` by outcome: `true` with the word inserted, `false` with the
array untouched because the word is there, or the null dereference, only for an absent word. -/
def InsertSpec (path codePoints : List Int) (wordProperty : WordProperty α) (arr : PtNodeArray α) :
    Except Fault (Bool × PtNodeArray α) → Prop
  | .ok (true, arr') => Inserted path codePoints wordProperty arr arr'
  | .ok (false, arr') => arr' = arr ∧ (lookupIn arr codePoints).isSome
  | .error e => e = .nullWordProperty ∧ lookupIn arr codePoints = none

section
variable {path codePoints : List Int} {wordProperty : WordProperty α} {ptNode : PtNode α}
  {rest : PtNodeArray α} {c p : Int}

theorem terminal_valid (hne : codePoints ≠ []) (hw : wordProperty.codePoints = path ++ codePoints) :
    (PtNode.terminal codePoints wordProperty).Valid path :=
  PtNode.valid_mk.mpr ⟨hne, nofun, fun _ h => Option.some.inj h ▸ hw, trivial⟩

theorem firstCodePoint_terminal (wordProperty : WordProperty α) (hc : readAt codePoints 0 = .ok c) :
    (PtNode.terminal codePoints wordProperty).firstCodePoint = c :=
  PtNode.firstCodePoint_of_readAt hc

theorem head?_of_readAt (hc : readAt codePoints 0 = .ok c) : codePoints.head? = some c := by
  obtain ⟨t, rfl⟩ := readAt_zero_eq_ok.mp hc; rfl

/-- Line 86 at the end of the array: a fresh terminal. -/
theorem insertSpec_nil (hne : codePoints ≠ []) (hw : wordProperty.codePoints = path ++ codePoints) :
    Inserted path codePoints wordProperty [] [.terminal codePoints wordProperty] where
  valid := ⟨terminal_valid hne hw, nofun, trivial⟩
  absent := rfl
  lookup q := by simp [PtNode.lookup_terminal]
  firsts x := by
    obtain ⟨c, t, rfl⟩ := List.exists_cons_of_ne_nil hne
    simp [PtNode.terminal, PtNode.firstCodePoint, eq_comm]
  length_le := Nat.zero_le _
  length_eq _ := rfl

/-- Line 39: skipping a sibling with a larger first code point. -/
theorem insertSpec_lt (hv : ArrayValid path (ptNode :: rest)) (hc : readAt codePoints 0 = .ok c)
    (hp : readAt ptNode.ptNodeCodePoints 0 = .ok p) (h : c < p)
    {res : Except Fault (Bool × PtNodeArray α)} (ih : InsertSpec path codePoints wordProperty rest res) :
    InsertSpec path codePoints wordProperty (ptNode :: rest) (do
      let (added, rest) ← res
      return (added, ptNode :: rest)) := by
  obtain ⟨t, rfl⟩ := readAt_zero_eq_ok.mp hc
  have hp' := PtNode.firstCodePoint_of_readAt hp
  have hnode : ptNode.lookup (c :: t) = none := hv.1.lookup_eq_none (by omega) t
  match res, ih with
  | .error e, ⟨he, ha⟩ => exact ⟨he, by simp [hnode, ha]⟩
  | .ok (false, rest'), ⟨h', hs⟩ => exact ⟨by rw [h'], by simpa [hnode] using hs⟩
  | .ok (true, rest'), ih =>
    refine ⟨⟨hv.1, fun m hm => ?_, ih.valid⟩, by simp [hnode, ih.absent], fun q => ?_,
      fun x => ?_, by simpa using ih.length_le, fun hx => ?_⟩
    · rcases (ih.firsts m.firstCodePoint).mp (List.mem_map_of_mem _ hm) with h' | h'
      · obtain ⟨m', hm', he⟩ := List.mem_map.mp h'
        exact he ▸ hv.2.1 m' hm'
      · simp only [List.head?_cons, Option.some.injEq] at h'; omega
    · by_cases hq : q = c :: t
      · subst hq; simp [ih.lookup, hnode]
      · simp [ih.lookup, hq]
    · simp only [List.map_cons, List.mem_cons, ih.firsts, or_assoc]
    · simp only [List.length_cons, ih.length_eq fun n hn => hx n (.tail _ hn)]

/-- Lines 42 and 86: a fresh terminal before the first sibling with a smaller first code point. -/
theorem insertSpec_gt (hv : ArrayValid path (ptNode :: rest)) (hne : codePoints ≠ [])
    (hw : wordProperty.codePoints = path ++ codePoints) (hc : readAt codePoints 0 = .ok c)
    (hp : readAt ptNode.ptNodeCodePoints 0 = .ok p) (h : p < c) :
    Inserted path codePoints wordProperty (ptNode :: rest)
      (.terminal codePoints wordProperty :: ptNode :: rest) := by
  have hp' := PtNode.firstCodePoint_of_readAt hp
  have hlt : ∀ n ∈ ptNode :: rest, n.firstCodePoint < c := by
    intro n hn
    rcases List.mem_cons.mp hn with rfl | hn
    · omega
    · exact Int.lt_trans (hv.2.1 n hn) (hp' ▸ h)
  have ht := firstCodePoint_terminal wordProperty hc
  obtain ⟨t, rfl⟩ := readAt_zero_eq_ok.mp hc
  have habs : lookupIn (ptNode :: rest) (c :: t) = none :=
    lookupIn_eq_none_of_ne hv (fun n hn => Int.ne_of_lt (hlt n hn)) t
  refine ⟨⟨terminal_valid hne hw, ht ▸ hlt, hv⟩, habs, fun q => ?_, fun x => ?_,
    by simp, fun _ => rfl⟩
  · rw [lookupIn_cons, PtNode.lookup_terminal]; split <;> simp
  · simp only [List.map_cons, List.mem_cons, ht, List.head?_cons, Option.some.injEq]
    exact ⟨fun h => h.elim .inr .inl, fun h => h.elim .inr .inl⟩

/-- The label loop as `addWordInner` calls it, on a word and a label with the same first code
point: stopping at `i` means they agree on their first `i` code points, and there the word ends
or the two differ. -/
theorem labelLoop_stop_cons {t u : List Int} (c : Int) {i : Nat} (h : labelLoop t u 1 = .stop i) :
    1 ≤ i ∧ i ≤ (c :: t).length ∧ i ≤ (c :: u).length ∧ (c :: t).take i = (c :: u).take i ∧
      (i = (c :: t).length ∨ (i < (c :: u).length ∧ (c :: t)[i]? ≠ (c :: u)[i]?)) := by
  obtain ⟨m, rfl, h1, h2, h3, h4⟩ := labelLoop_stop h
  rw [Nat.add_comm]
  refine ⟨by omega, by simpa using h1, by simpa using h2, by simp [h3], ?_⟩
  simpa using h4

/-- Lines 47-50: the word goes on into the children of the sibling whose label it extends. -/
theorem insertSpec_addNewChild (hv : ArrayValid path (ptNode :: rest))
    (hc : readAt codePoints 0 = .ok c) (hp : readAt ptNode.ptNodeCodePoints 0 = .ok c) {i : Nat}
    (hl : labelLoop (codePoints.drop 1) (ptNode.ptNodeCodePoints.drop 1) 1 = .addNewChild i)
    (hw : wordProperty.codePoints = path ++ codePoints) {res : Except Fault (Bool × PtNodeArray α)}
    (ih : ∀ path', ArrayValid path' ptNode.childrenPtNodeArray → codePoints.drop i ≠ [] →
      wordProperty.codePoints = path' ++ codePoints.drop i →
      InsertSpec path' (codePoints.drop i) wordProperty ptNode.childrenPtNodeArray res) :
    InsertSpec path codePoints wordProperty (ptNode :: rest) (do
      let (added, children) ← res
      return (added, { ptNode with childrenPtNodeArray := children } :: rest)) := by
  obtain ⟨l, ch, w⟩ := ptNode
  obtain ⟨t, rfl⟩ := readAt_zero_eq_ok.mp hc
  obtain ⟨u, rfl⟩ := readAt_zero_eq_ok.mp hp
  simp only [List.drop_succ_cons, List.drop_zero] at hl
  obtain ⟨r, hr, rfl, rfl⟩ := labelLoop_addNewChild hl
  have hdrop : (c :: (u ++ r)).drop (1 + u.length) = r := by
    rw [Nat.add_comm]; simp
  simp only [hdrop] at ih
  have hvn := PtNode.valid_mk.mp hv.1
  have ih := ih (path ++ c :: u) hvn.2.2.2 hr (by simp [hw])
  have hnode : (PtNode.mk (c :: u) ch w).lookup (c :: (u ++ r)) = lookupIn ch r :=
    PtNode.lookup_append (c :: u) r ch w hr
  have hrest : lookupIn rest (c :: (u ++ r)) = none :=
    lookupIn_eq_none_of_ne hv.2.2 (fun m hm => Int.ne_of_lt (hv.2.1 m hm)) _
  match res, ih with
  | .error e, ⟨he, ha⟩ => exact ⟨he, by simp [hnode, ha, hrest]⟩
  | .ok (false, ch'), ⟨h', hs⟩ =>
    refine ⟨by rw [h'], ?_⟩
    obtain ⟨x, hx⟩ := Option.isSome_iff_exists.mp hs
    simp [hnode, hx]
  | .ok (true, ch'), ih =>
    refine ⟨⟨PtNode.valid_mk.mpr ⟨hvn.1, fun hn => Nat.le_trans (hvn.2.1 hn) ih.length_le,
      hvn.2.2.1, ih.valid⟩, hv.2.1, hv.2.2⟩, by simp [hnode, ih.absent, hrest], fun q => ?_,
      fun x => ?_, by simp, fun hx => absurd rfl (hx _ (.head _))⟩
    · simp only [lookupIn_cons, PtNode.lookup_children_update hr ih.lookup]
      by_cases hq : q = c :: (u ++ r) <;> simp [hq]
    · simp only [List.map_cons, List.mem_cons, List.head?_cons, Option.some.injEq]
      exact ⟨.inl, fun h => h.elim id (fun h => .inl (h ▸ rfl))⟩

/-- Lines 56-65: the word ends exactly on a sibling's label. A payload there rejects the word;
otherwise a payload-replacement node takes the sibling's place. -/
theorem insertSpec_stop_same (hv : ArrayValid path (ptNode :: rest))
    (hc : readAt codePoints 0 = .ok c) (hp : readAt ptNode.ptNodeCodePoints 0 = .ok c) {i : Nat}
    (hl : labelLoop (codePoints.drop 1) (ptNode.ptNodeCodePoints.drop 1) 1 = .stop i)
    (hw : wordProperty.codePoints = path ++ codePoints)
    (he : codePoints.length = i ∧ codePoints.length = ptNode.ptNodeCodePoints.length) :
    InsertSpec path codePoints wordProperty (ptNode :: rest)
      (if ptNode.wordProperty.isSome then .ok (false, ptNode :: rest)
        else .ok (true, ptNode.replaceWordProperty wordProperty :: rest)) := by
  obtain ⟨l, ch, w⟩ := ptNode
  obtain ⟨t, rfl⟩ := readAt_zero_eq_ok.mp hc
  obtain ⟨u, rfl⟩ := readAt_zero_eq_ok.mp hp
  simp only [List.drop_succ_cons, List.drop_zero] at hl he
  obtain ⟨-, -, -, ht, -⟩ := labelLoop_stop_cons c hl
  rw [List.take_of_length_le (by omega), List.take_of_length_le (by omega)] at ht
  obtain ⟨-, rfl⟩ := List.cons.inj ht
  have hvn := PtNode.valid_mk.mp hv.1
  have hrest : lookupIn rest (c :: t) = none :=
    lookupIn_eq_none_of_ne hv.2.2 (fun m hm => Int.ne_of_lt (hv.2.1 m hm)) _
  cases w with
  | some x => exact ⟨rfl, by simp⟩
  | none =>
    refine ⟨⟨PtNode.valid_mk.mpr ⟨hvn.1, nofun, fun _ h => Option.some.inj h ▸ hw, hvn.2.2.2⟩,
      hv.2.1, hv.2.2⟩, by simp [hrest], fun q => ?_, fun x => ?_, by simp,
      fun hx => absurd rfl (hx _ (.head _))⟩
    · rw [lookupIn_cons, lookupIn_cons, PtNode.lookup_replaceWordProperty]
      split <;> simp_all
    · simp only [List.map_cons, List.mem_cons, List.head?_cons, Option.some.injEq]
      exact ⟨.inl, fun h => h.elim id (fun h => .inl (h ▸ rfl))⟩

/-- A label is no prefix of a word it leaves at `i`, inside the label. -/
theorem not_prefix_of_leaves {cs l : List Int} {i : Nat} (hi : i < l.length)
    (hd : i = cs.length ∨ cs[i]? ≠ l[i]?) : ¬ l <+: cs := by
  rintro ⟨s, rfl⟩
  rcases hd with hd | hd
  · simp at hd; omega
  · exact hd (List.getElem?_append_left hi)

/-- Line 82: the recursion into the new parent's one child never descends. The word's rest
starts with another code point than the relabelled sibling, so it lands beside it, and the call
returns true. -/
theorem addWordInner_pair {suffix : PtNode α} (hs : suffix.Valid path) (hne : codePoints ≠ [])
    (hw : wordProperty.codePoints = path ++ codePoints) (hc : readAt codePoints 0 = .ok c)
    (hx : suffix.firstCodePoint ≠ c) :
    ∃ arr', addWordInner codePoints wordProperty [suffix] = .ok (true, arr') ∧
      Inserted path codePoints wordProperty [suffix] arr' := by
  obtain ⟨u, hu⟩ := hs.eq_cons
  have hp : readAt suffix.ptNodeCodePoints 0 = .ok suffix.firstCodePoint := by simp [hu]
  have hv : ArrayValid path [suffix] := ⟨hs, nofun, trivial⟩
  rcases Int.lt_or_gt_of_ne hx with h | h
  · rw [addWordInner_of_gt hc hp h]
    exact ⟨_, rfl, insertSpec_gt hv hne hw hc hp h⟩
  · rw [addWordInner_of_lt hc hp h, addWordInner_nil]
    exact ⟨_, rfl, insertSpec_lt hv hc hp h (show InsertSpec path codePoints wordProperty []
      (.ok (true, [.terminal codePoints wordProperty])) from insertSpec_nil hne hw)⟩

/-- Lines 67-84: the word leaves a sibling's label inside it. A new parent for the common part
takes the sibling's place, over the sibling relabelled with the rest of its label; the parent is
terminal when the word ends there, and otherwise the word's rest is added beside the relabelled
sibling. Relabelling dereferences the sibling's payload: without one the run faults, on a word
that is absent. -/
theorem insertSpec_split (hv : ArrayValid path (ptNode :: rest))
    (hw : wordProperty.codePoints = path ++ codePoints)
    (hc : readAt codePoints 0 = .ok c) (hp : readAt ptNode.ptNodeCodePoints 0 = .ok c) {i : Nat}
    (hl : labelLoop (codePoints.drop 1) (ptNode.ptNodeCodePoints.drop 1) 1 = .stop i)
    (hsplit : ¬(codePoints.length = i ∧ codePoints.length = ptNode.ptNodeCodePoints.length)) :
    InsertSpec path codePoints wordProperty (ptNode :: rest) (do
      let newPtNode ← newParentPtNode codePoints wordProperty ptNode i
      if codePoints.length ≠ i then
        let (added, children) ← addWordInner (codePoints.drop i) wordProperty
          newPtNode.childrenPtNodeArray
        return (added, { newPtNode with childrenPtNodeArray := children } :: rest)
      else return (true, newPtNode :: rest)) := by
  obtain ⟨l, ch, w⟩ := ptNode
  obtain ⟨t, rfl⟩ := readAt_zero_eq_ok.mp hc
  obtain ⟨u, rfl⟩ := readAt_zero_eq_ok.mp hp
  simp only [List.drop_succ_cons, List.drop_zero] at hl hsplit
  obtain ⟨h1, h2, h3, ht, hd⟩ := labelLoop_stop_cons c hl
  have hi : i < (c :: u).length := hd.elim (fun _ => by omega) (·.1)
  have hnode : (PtNode.mk (c :: u) ch w).lookup (c :: t) = none :=
    PtNode.lookup_of_not_isPrefixOf _ _ (not_prefix_of_leaves hi (hd.imp_right And.right))
  have hrest : lookupIn rest (c :: t) = none :=
    lookupIn_eq_none_of_ne hv.2.2 (fun m hm => Int.ne_of_lt (hv.2.1 m hm)) _
  have hvn := PtNode.valid_mk.mp hv.1
  have hl₂ : (c :: u).drop i ≠ [] := by rw [Ne, List.drop_eq_nil_iff]; omega
  have hcu : (c :: t).take i ++ (c :: u).drop i = c :: u := by rw [ht, List.take_append_drop]
  have hfirsts : ∀ (n : PtNode α), n.firstCodePoint = c →
      ∀ x, x ∈ (n :: rest).map PtNode.firstCodePoint ↔
        x ∈ ((PtNode.mk (c :: u) ch w) :: rest).map PtNode.firstCodePoint ∨
          some x = (c :: t).head? := by
    intro n hn x
    simp only [List.map_cons, List.mem_cons, List.head?_cons, Option.some.injEq, hn]
    exact ⟨.inl, fun h => h.elim id (fun h => .inl (h ▸ rfl))⟩
  cases w with
  | none => exact ⟨rfl, by simp [hnode, hrest]⟩
  | some x =>
    rw [newParentPtNode_some]
    have hs : (PtNode.mk ((c :: u).drop i) ch (some x)).Valid (path ++ (c :: t).take i) :=
      PtNode.valid_mk.mpr ⟨hl₂, nofun,
        fun _ h => by rw [← Option.some.inj h, hvn.2.2.1 x rfl, List.append_assoc, hcu],
        by rw [List.append_assoc, hcu]; exact hvn.2.2.2⟩
    by_cases hend : (c :: t).length = i
    · have hct : (c :: t).take i = c :: t := List.take_of_length_le (by omega)
      rw [hct] at hcu hs
      simp only [hend, if_true, ne_eq, not_true_eq_false, if_false]
      refine ⟨⟨PtNode.valid_mk.mpr ⟨List.cons_ne_nil _ _, nofun,
        fun _ h => Option.some.inj h ▸ hw, ⟨hs, nofun, trivial⟩⟩, hv.2.1, hv.2.2⟩,
        by simp [hnode, hrest], fun q => ?_, hfirsts _ rfl, by simp, fun hx => absurd rfl (hx _ (.head _))⟩
      rw [lookupIn_cons, lookupIn_cons, PtNode.lookup_split _ _ _, hcu]
      split <;> simp
    · have hti : i < (c :: t).length := by omega
      have hd' : (c :: t)[i]? ≠ (c :: u)[i]? := hd.elim (fun hd => absurd hd.symm hend) (·.2)
      have hne' : (c :: t).drop i ≠ [] := by rw [Ne, List.drop_eq_nil_iff]; omega
      obtain ⟨c', t', hct⟩ := List.exists_cons_of_ne_nil hne'
      obtain ⟨y, u', hcu'⟩ := List.exists_cons_of_ne_nil hl₂
      have hy : y ≠ c' := fun hyc =>
        hd' (by rw [← List.head?_drop, ← List.head?_drop, hct, hcu', hyc]; rfl)
      have hw' : wordProperty.codePoints = (path ++ (c :: t).take i) ++ (c :: t).drop i := by
        rw [List.append_assoc, List.take_append_drop, hw]
      obtain ⟨children, hres, hins⟩ := addWordInner_pair hs hne' hw'
        (by rw [hct, readAt_cons_zero] : readAt ((c :: t).drop i) 0 = .ok c') (by simp [PtNode.firstCodePoint, hcu', hy])
      simp only [hend, if_false, ne_eq, not_false_eq_true, if_true, bind, Except.bind]
      rw [hres]
      have hlen : children.length = 2 :=
        hins.length_eq (by simp [PtNode.firstCodePoint, hcu', hct, hy])
      have htake : ((c :: t).take i).headD 0 = c := by
        obtain ⟨j, rfl⟩ : ∃ j, i = j + 1 := ⟨i - 1, by omega⟩
        rfl
      have hshort : (PtNode.mk (c :: u) ch (some x)).lookup ((c :: t).take i) = none :=
        PtNode.lookup_of_not_isPrefixOf _ _ fun h => by
          have := h.length_le
          simp only [List.length_take] at this
          omega
      have htne : (c :: t).take i ≠ [] := by rw [Ne, List.take_eq_nil_iff]; simp; omega
      refine ⟨⟨PtNode.valid_mk.mpr ⟨htne, fun _ => Nat.le_of_eq hlen.symm, nofun, hins.valid⟩,
        fun m hm => by simpa only [PtNode.firstCodePoint, htake] using hv.2.1 m hm, hv.2.2⟩,
        by simp [hnode, hrest], fun q => ?_,
        hfirsts _ htake, by simp, fun hx => absurd rfl (hx _ (.head _))⟩
      rw [lookupIn_cons, lookupIn_cons, PtNode.lookup_children_update hne' hins.lookup,
        PtNode.lookup_split _ _ _, hcu, List.take_append_drop]
      by_cases hq : q = c :: t
      · simp [hq]
      · by_cases hq' : q = (c :: t).take i
        · subst hq'; simp [hq, hshort]
        · simp [hq, hq']

/-- **`addWordInner` meets its contract** on every valid array, for every non-empty word whose
payload's code points are the path followed by the word. -/
theorem addWordInner_spec (codePoints : List Int) (wordProperty : WordProperty α)
    (arr : PtNodeArray α) :
    ∀ path, ArrayValid path arr → codePoints ≠ [] → wordProperty.codePoints = path ++ codePoints →
      InsertSpec path codePoints wordProperty arr (addWordInner codePoints wordProperty arr) := by
  induction codePoints, wordProperty, arr using addWordInner.induct with
  | case1 cps wp =>
    intro path _ hne hw
    rw [addWordInner_nil]
    exact insertSpec_nil hne hw
  | case2 cps wp n rest e hc =>
    intro _ _ hne _
    obtain ⟨c, t, rfl⟩ := List.exists_cons_of_ne_nil hne
    simp at hc
  | case3 cps wp n rest c e _ hp =>
    intro path hv
    obtain ⟨t, ht⟩ := hv.1.eq_cons
    rw [ht] at hp
    simp at hp
  | case4 cps wp n rest c p hc hp h ih =>
    intro path hv hne hw
    rw [addWordInner_of_lt hc hp h]
    exact insertSpec_lt hv hc hp h (ih path hv.2.2 hne hw)
  | case5 cps wp n rest c p hc hp _ h =>
    intro path hv hne hw
    rw [addWordInner_of_gt hc hp h]
    exact insertSpec_gt hv hne hw hc hp h
  | case6 cps wp n rest c p hc hp h1 h2 i hl ih =>
    intro path hv _ hw
    obtain rfl : c = p := by omega
    rw [addWordInner_of_addNewChild hc hp hl]
    exact insertSpec_addNewChild hv hc hp hl hw ih
  | case7 cps wp n rest c p hc hp h1 h2 i hl he | case8 cps wp n rest c p hc hp h1 h2 i hl he =>
    intro path hv _ hw
    obtain rfl : c = p := by omega
    rw [addWordInner_of_stop hc hp hl, if_pos he]
    exact insertSpec_stop_same hv hc hp hl hw he
  | case9 cps wp n rest c p hc hp h1 h2 i hl he =>
    intro path hv _ hw
    obtain rfl : c = p := by omega
    rw [addWordInner_of_stop hc hp hl, if_neg he]
    exact insertSpec_split hv hw hc hp hl he

end

end OffdeviceIntermediateDict

end DictToolkit
