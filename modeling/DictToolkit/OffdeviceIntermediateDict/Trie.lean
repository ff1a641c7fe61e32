import DictToolkit.OffdeviceIntermediateDict.PtNode

/-!
# What a trie stores, and its representation invariant

The abstract side of the intermediate dictionary: `PtNode.lookup` and `lookupIn` read the partial
map from code-point sequences to payloads that a node array denotes, by stripping one label per
level. `ArrayValid path` is the representation invariant of an array reached by `path`: labels are
non-empty, siblings are strictly decreasing in their first code point (the order both scans of the
C++ rely on), a node without a payload has at least two children, and a payload's code points
spell the path down to its node. Under the invariant a trie is determined by its map
(`eq_of_lookupIn_eq`).
-/

namespace DictToolkit

variable {α : Type}

/-- The first code point of a node's label, the key siblings are ordered by. -/
def PtNode.firstCodePoint (ptNode : PtNode α) : Int :=
  ptNode.ptNodeCodePoints.headD 0

/-- A label read as starting with `p` gives the node's first code point. -/
theorem PtNode.firstCodePoint_of_readAt {ptNode : PtNode α} {p : Int}
    (h : readAt ptNode.ptNodeCodePoints 0 = .ok p) : ptNode.firstCodePoint = p := by
  obtain ⟨t, ht⟩ := readAt_zero_eq_ok.mp h
  simp [PtNode.firstCodePoint, ht]

mutual

/-- The payload a node stores under `q`, the query past the node's parent: its own payload when
its label is all of `q`, its children's answer for the rest of `q` when the label is a proper
prefix of `q`, and nothing otherwise. -/
def PtNode.lookup : PtNode α → List Int → Option (WordProperty α)
  | ⟨l, ch, w⟩, q =>
    if l.isPrefixOf q then (if q.length = l.length then w else lookupIn ch (q.drop l.length))
    else none

/-- The payload a node array stores under `q`: the first sibling's answer, else the others'. -/
def lookupIn : PtNodeArray α → List Int → Option (WordProperty α)
  | [], _ => none
  | ptNode :: rest, q => ptNode.lookup q <|> lookupIn rest q

end

mutual

/-- The representation invariant of a node reached by `path`. -/
def PtNode.Valid : List Int → PtNode α → Prop
  | path, ⟨l, ch, w⟩ =>
    l ≠ [] ∧ (w = none → 2 ≤ ch.length) ∧ (∀ x, w = some x → x.codePoints = path ++ l) ∧
      ArrayValid (path ++ l) ch

/-- The representation invariant of a node array reached by `path`: every node is valid, and
the first code points strictly decrease along the list. -/
def ArrayValid : List Int → PtNodeArray α → Prop
  | _, [] => True
  | path, ptNode :: rest =>
    ptNode.Valid path ∧ (∀ m ∈ rest, m.firstCodePoint < ptNode.firstCodePoint) ∧
      ArrayValid path rest

end

@[simp] theorem lookupIn_nil (q : List Int) : lookupIn ([] : PtNodeArray α) q = none := rfl

@[simp] theorem lookupIn_cons (ptNode : PtNode α) (rest : PtNodeArray α) (q : List Int) :
    lookupIn (ptNode :: rest) q = (ptNode.lookup q <|> lookupIn rest q) := rfl

@[simp] theorem ArrayValid_nil (path : List Int) : ArrayValid path ([] : PtNodeArray α) := trivial

@[simp] theorem ArrayValid_cons (path : List Int) (ptNode : PtNode α) (rest : PtNodeArray α) :
    ArrayValid path (ptNode :: rest) ↔ ptNode.Valid path ∧
      (∀ m ∈ rest, m.firstCodePoint < ptNode.firstCodePoint) ∧ ArrayValid path rest := Iff.rfl

/-- `ArrayValid` in the per-element form. -/
theorem ArrayValid_iff (path : List Int) (arr : PtNodeArray α) :
    ArrayValid path arr ↔ (∀ n ∈ arr, n.Valid path) ∧
      arr.Pairwise (fun a b => b.firstCodePoint < a.firstCodePoint) := by
  induction arr with
  | nil => simp
  | cons n rest ih =>
    simp only [ArrayValid_cons, ih, List.mem_cons, List.pairwise_cons, forall_eq_or_imp]
    exact ⟨fun ⟨a, b, c, d⟩ => ⟨⟨a, c⟩, b, d⟩, fun ⟨⟨a, c⟩, b, d⟩ => ⟨a, b, c, d⟩⟩

namespace PtNode

theorem lookup_mk (l : List Int) (ch : PtNodeArray α) (w : Option (WordProperty α))
    (q : List Int) : (PtNode.mk l ch w).lookup q =
      if l.isPrefixOf q then (if q.length = l.length then w else lookupIn ch (q.drop l.length))
      else none := by
  simp only [PtNode.lookup]

theorem valid_mk {path l : List Int} {ch : PtNodeArray α} {w : Option (WordProperty α)} :
    (PtNode.mk l ch w).Valid path ↔ l ≠ [] ∧ (w = none → 2 ≤ ch.length) ∧
      (∀ x, w = some x → x.codePoints = path ++ l) ∧ ArrayValid (path ++ l) ch := by
  simp only [PtNode.Valid]

/-- A node stores nothing under a query its label is not a prefix of. -/
theorem lookup_of_not_isPrefixOf {l q : List Int} (ch : PtNodeArray α) (w : Option (WordProperty α))
    (h : ¬ l <+: q) : (PtNode.mk l ch w).lookup q = none := by
  rw [lookup_mk, if_neg (by simpa using h)]

/-- A node stores its payload under its label. -/
@[simp] theorem lookup_self (l : List Int) (ch : PtNodeArray α) (w : Option (WordProperty α)) :
    (PtNode.mk l ch w).lookup l = w := by
  simp [lookup_mk]

/-- Past its label, a node answers with its children. -/
theorem lookup_append (l r : List Int) (ch : PtNodeArray α) (w : Option (WordProperty α))
    (hr : r ≠ []) : (PtNode.mk l ch w).lookup (l ++ r) = lookupIn ch r := by
  have : r.length ≠ 0 := by simpa using hr
  simp [lookup_mk, List.drop_left', this]

/-- A common prefix of the label and the query can be cut from both. -/
theorem lookup_append_left (a l q : List Int) (ch : PtNodeArray α) (w : Option (WordProperty α)) :
    (PtNode.mk (a ++ l) ch w).lookup (a ++ q) = (PtNode.mk l ch w).lookup q := by
  have hp : (a ++ l).isPrefixOf (a ++ q) = l.isPrefixOf q := by
    rw [Bool.eq_iff_iff]; simp
  simp only [lookup_mk, hp, List.length_append, Nat.add_left_cancel_iff, List.drop_append]

/-- Every query is the label followed by a rest, or does not start with the label. -/
theorem prefix_or_not (l q : List Int) : (∃ r, q = l ++ r) ∨ ¬ l <+: q := by
  by_cases h : l <+: q
  · exact .inl (h.elim fun r hr => ⟨r, hr.symm⟩)
  · exact .inr h

/-- A terminal node stores its payload under its label and nothing else. -/
theorem lookup_terminal (l : List Int) (w : WordProperty α) (q : List Int) :
    (terminal l w).lookup q = if q = l then some w else none := by
  rcases prefix_or_not l q with ⟨_ | ⟨x, r⟩, rfl⟩ | h
  · simp [terminal]
  · rw [terminal, lookup_append _ _ _ _ (List.cons_ne_nil x r)]; simp
  · rw [terminal, lookup_of_not_isPrefixOf _ _ h, if_neg (by rintro rfl; exact h (List.prefix_refl _))]

/-- **Splitting a label keeps what a node stores.** Cutting the label `l₁ ++ l₂` after `l₁`
into a parent with label `l₁` and payload `w₀` over the old node relabelled `l₂` changes the
stored map only at `l₁`, where the parent's payload now answers. -/
theorem lookup_split {l₁ l₂ : List Int} (ch : PtNodeArray α) (w w₀ : Option (WordProperty α))
    (q : List Int) :
    (PtNode.mk l₁ [PtNode.mk l₂ ch w] w₀).lookup q =
      if q = l₁ then w₀ else (PtNode.mk (l₁ ++ l₂) ch w).lookup q := by
  rcases prefix_or_not l₁ q with ⟨_ | ⟨x, r⟩, rfl⟩ | h
  · simp
  · rw [lookup_append _ _ _ _ (List.cons_ne_nil x r), lookup_append_left, if_neg (by simp)]
    simp
  · rw [lookup_of_not_isPrefixOf _ _ h, if_neg (by rintro rfl; exact h (List.prefix_refl _)),
      lookup_of_not_isPrefixOf _ _ (fun h' => h ((List.prefix_append l₁ l₂).trans h'))]

/-- Inserting `r ↦ wp` into a node's children inserts `l ++ r ↦ wp` into the node. -/
theorem lookup_children_update {l r : List Int} {ch ch' : PtNodeArray α}
    {w : Option (WordProperty α)} {wp : WordProperty α} (hr : r ≠ [])
    (hch : ∀ q, lookupIn ch' q = if q = r then some wp else lookupIn ch q) (q : List Int) :
    (PtNode.mk l ch' w).lookup q =
      if q = l ++ r then some wp else (PtNode.mk l ch w).lookup q := by
  rcases prefix_or_not l q with ⟨_ | ⟨x, s⟩, rfl⟩ | h
  · simp [hr]
  · simp only [lookup_append _ _ _ _ (List.cons_ne_nil x s), hch, List.append_cancel_left_eq]
  · rw [lookup_of_not_isPrefixOf _ _ h, lookup_of_not_isPrefixOf _ _ h,
      if_neg (by rintro rfl; exact h (List.prefix_append _ _))]

/-- Setting a node's payload changes the stored map at its label only. -/
theorem lookup_replaceWordProperty (l : List Int) (ch : PtNodeArray α)
    (w : Option (WordProperty α)) (wp : WordProperty α) (q : List Int) :
    (replaceWordProperty wp (PtNode.mk l ch w)).lookup q =
      if q = l then some wp else (PtNode.mk l ch w).lookup q := by
  rcases prefix_or_not l q with ⟨_ | ⟨x, s⟩, rfl⟩ | h
  · simp [replaceWordProperty]
  · simp [replaceWordProperty, lookup_append _ _ _ _ (List.cons_ne_nil x s)]
  · rw [replaceWordProperty, lookup_of_not_isPrefixOf _ _ h, lookup_of_not_isPrefixOf _ _ h,
      if_neg (by rintro rfl; exact h (List.prefix_refl _))]

/-- A valid node's label starts with its first code point. -/
theorem Valid.eq_cons {path : List Int} {n : PtNode α} (h : n.Valid path) :
    ∃ t, n.ptNodeCodePoints = n.firstCodePoint :: t := by
  obtain ⟨l, ch, w⟩ := n
  obtain ⟨x, t, rfl⟩ := List.exists_cons_of_ne_nil (valid_mk.mp h).1
  exact ⟨t, rfl⟩

/-- A valid node stores nothing under a query that starts with another code point. -/
theorem Valid.lookup_eq_none {path : List Int} {n : PtNode α} (h : n.Valid path) {x : Int}
    (hx : n.firstCodePoint ≠ x) (q : List Int) : n.lookup (x :: q) = none := by
  obtain ⟨l, ch, w⟩ := n
  obtain ⟨y, t, rfl⟩ := List.exists_cons_of_ne_nil (valid_mk.mp h).1
  exact lookup_of_not_isPrefixOf _ _ (by simpa using fun e _ => hx e)

/-- A valid node stores a word at or below itself: a node without a payload has children. -/
theorem Valid.exists_lookup : ∀ {path : List Int} {n : PtNode α}, n.Valid path →
    ∃ t, (n.lookup (n.ptNodeCodePoints ++ t)).isSome
  | _, ⟨l, ch, some x⟩, _ => ⟨[], by simp⟩
  | _, ⟨l, [], none⟩, h => absurd ((valid_mk.mp h).2.1 rfl) (by simp)
  | _, ⟨l, c :: rest, none⟩, h => by
    have hc : c.Valid (_ ++ l) := ((valid_mk.mp h).2.2.2).1
    obtain ⟨t, ht⟩ := hc.exists_lookup
    obtain ⟨u, hu⟩ := hc.eq_cons
    obtain ⟨x, hx⟩ := Option.isSome_iff_exists.mp ht
    refine ⟨c.ptNodeCodePoints ++ t, ?_⟩
    rw [lookup_append _ _ _ _ (by simp [hu]), lookupIn_cons, hx]
    rfl

end PtNode

/-- A valid array stores nothing under a query whose first code point no sibling starts with. -/
theorem lookupIn_eq_none_of_ne {path : List Int} {arr : PtNodeArray α} (h : ArrayValid path arr)
    {x : Int} (hx : ∀ n ∈ arr, n.firstCodePoint ≠ x) (q : List Int) :
    lookupIn arr (x :: q) = none := by
  induction arr with
  | nil => rfl
  | cons n rest ih =>
    simp only [lookupIn_cons, h.1.lookup_eq_none (hx n (.head _)), Option.none_orElse]
    exact ih h.2.2 fun m hm => hx m (.tail _ hm)

/-- A valid array stores nothing under the empty query. -/
theorem lookupIn_nil_of_valid {path : List Int} {arr : PtNodeArray α} (h : ArrayValid path arr) :
    lookupIn arr [] = none := by
  induction arr with
  | nil => rfl
  | cons n rest ih =>
    obtain ⟨l, ch, w⟩ := n
    have hl := (PtNode.valid_mk.mp h.1).1
    rw [lookupIn_cons, PtNode.lookup_of_not_isPrefixOf _ _ (by simpa [List.prefix_nil] using hl),
      ih h.2.2]
    rfl

/-! ## What a stored payload spells -/

mutual

/-- A payload a valid node stores under `q` spells the path to the node followed by `q`. -/
theorem PtNode.Valid.codePoints_of_lookup : ∀ {path q : List Int} {n : PtNode α} {w : WordProperty α},
    n.Valid path → n.lookup q = some w → w.codePoints = path ++ q
  | path, q, ⟨l, ch, w₀⟩, w, hv, h => by
    obtain ⟨-, -, hw, hch⟩ := PtNode.valid_mk.mp hv
    rcases PtNode.prefix_or_not l q with ⟨r, rfl⟩ | hnp
    · by_cases hr : r = []
      · subst hr
        rw [List.append_nil] at h ⊢
        rw [PtNode.lookup_self] at h
        exact hw w h
      · rw [PtNode.lookup_append l r ch w₀ hr] at h
        rw [← List.append_assoc]
        exact ArrayValid.codePoints_of_lookupIn hch h
    · rw [PtNode.lookup_of_not_isPrefixOf ch w₀ hnp] at h
      cases h

/-- A payload a valid array stores under `q` spells the path to the array followed by `q`. -/
theorem ArrayValid.codePoints_of_lookupIn : ∀ {path q : List Int} {arr : PtNodeArray α}
    {w : WordProperty α}, ArrayValid path arr → lookupIn arr q = some w → w.codePoints = path ++ q
  | _, _, [], _, _, h => nomatch h
  | _, q, n :: rest, w, hv, h => by
    rw [lookupIn_cons] at h
    cases hn : n.lookup q with
    | some x =>
      rw [hn, Option.some_orElse, Option.some.injEq] at h
      exact h ▸ hv.1.codePoints_of_lookup hn
    | none =>
      rw [hn, Option.none_orElse] at h
      exact ArrayValid.codePoints_of_lookupIn hv.2.2 h

end

/-! ## Canonicity

A valid array is determined by the map it stores: the sibling order is forced by the first code
points, a label is the longest prefix shared by everything its node stores, and a node without a
payload must branch right after its label.
-/

section Canonicity

open PtNode

/-- A node stores only queries its label is a prefix of. -/
theorem PtNode.prefix_of_lookup_isSome {n : PtNode α} {q : List Int} (h : (n.lookup q).isSome) :
    n.ptNodeCodePoints <+: q := by
  obtain ⟨l, ch, w⟩ := n
  refine Classical.byContradiction fun hp => ?_
  rw [lookup_of_not_isPrefixOf _ _ hp] at h
  exact Bool.false_ne_true h

/-- A valid node stores nothing under a query that does not start with its first code point. -/
theorem PtNode.Valid.lookup_eq_none_of_head? {path q : List Int} {n : PtNode α} (hv : n.Valid path)
    (hq : q.head? ≠ some n.firstCodePoint) : n.lookup q = none := by
  obtain ⟨l, ch, w⟩ := n
  obtain ⟨x, t, rfl⟩ := List.exists_cons_of_ne_nil (valid_mk.mp hv).1
  exact lookup_of_not_isPrefixOf _ _ fun ⟨r, hr⟩ => hq (by rw [← hr]; rfl)

/-- In a valid array, the siblings after a node store nothing under its first code point. -/
theorem lookupIn_rest_eq_none {path q : List Int} {n : PtNode α} {rest : PtNodeArray α}
    (hv : ArrayValid path (n :: rest)) (hq : q.head? = some n.firstCodePoint) :
    lookupIn rest q = none := by
  cases q with
  | nil => exact absurd hq (by simp)
  | cons x q =>
    obtain rfl : x = n.firstCodePoint := Option.some.inj hq
    exact lookupIn_eq_none_of_ne hv.2.2 (fun m hm => Int.ne_of_lt (hv.2.1 m hm)) q

/-- A valid array answers a query with the one sibling its first code point selects. -/
theorem lookupIn_cons_of_valid {path : List Int} {n : PtNode α} {rest : PtNodeArray α}
    (hv : ArrayValid path (n :: rest)) (q : List Int) :
    lookupIn (n :: rest) q = if q.head? = some n.firstCodePoint then n.lookup q else lookupIn rest q := by
  by_cases hq : q.head? = some n.firstCodePoint
  · rw [if_pos hq, lookupIn_cons, lookupIn_rest_eq_none hv hq, Option.orElse_none]
  · rw [if_neg hq, lookupIn_cons, hv.1.lookup_eq_none_of_head? hq, Option.none_orElse]

/-- A valid non-empty array stores a word under its first node's first code point. -/
theorem ArrayValid.exists_lookupIn_first {path : List Int} {n : PtNode α} {rest : PtNodeArray α}
    (hv : ArrayValid path (n :: rest)) : ∃ x, (lookupIn (n :: rest) (n.firstCodePoint :: x)).isSome := by
  obtain ⟨t, ht⟩ := hv.1.exists_lookup
  obtain ⟨u, hu⟩ := hv.1.eq_cons
  refine ⟨u ++ t, ?_⟩
  rw [lookupIn_cons_of_valid hv, List.head?_cons, if_pos rfl, ← List.cons_append, ← hu]
  exact ht

/-- A valid array that stores a query starting with `g` has a node whose label starts with
`g`. -/
theorem exists_first_of_lookupIn_isSome {path x : List Int} {arr : PtNodeArray α} {g : Int}
    (hv : ArrayValid path arr) (h : (lookupIn arr (g :: x)).isSome) :
    ∃ m ∈ arr, m.firstCodePoint = g :=
  Classical.byContradiction fun hne => by
    rw [lookupIn_eq_none_of_ne hv (fun m hm he => hne ⟨m, hm, he⟩)] at h
    exact Bool.false_ne_true h

/-- Of two valid arrays with one map, the first node of either starts no later than the other's:
its word must be stored by a sibling of the other, and siblings decrease. -/
theorem firstCodePoint_lt_of_ne {path : List Int} {n₁ n₂ : PtNode α} {r₁ r₂ : PtNodeArray α}
    (h₁ : ArrayValid path (n₁ :: r₁)) (h₂ : ArrayValid path (n₂ :: r₂))
    (heq : ∀ q, lookupIn (n₁ :: r₁) q = lookupIn (n₂ :: r₂) q)
    (hne : n₁.firstCodePoint ≠ n₂.firstCodePoint) : n₁.firstCodePoint < n₂.firstCodePoint := by
  obtain ⟨x, hx⟩ := h₁.exists_lookupIn_first
  rw [heq, lookupIn_cons_of_valid h₂, if_neg (by simpa using hne)] at hx
  obtain ⟨m, hm, hmf⟩ := exists_first_of_lookupIn_isSome h₂.2.2 hx
  exact hmf ▸ h₂.2.1 m hm

/-- A valid node stores its label, or two words that part right after it. -/
theorem PtNode.Valid.branching {path : List Int} {n : PtNode α} (hv : n.Valid path) :
    (n.lookup n.ptNodeCodePoints).isSome ∨ ∃ a b x y, a ≠ b ∧
      (n.lookup (n.ptNodeCodePoints ++ a :: x)).isSome ∧
      (n.lookup (n.ptNodeCodePoints ++ b :: y)).isSome := by
  obtain ⟨l, ch, w⟩ := n
  obtain ⟨-, hch, -, hvch⟩ := valid_mk.mp hv
  cases w with
  | some x => exact .inl (by simp)
  | none =>
    match ch, hch rfl, hvch with
    | c₁ :: c₂ :: r, _, hvch =>
      have hr : ArrayValid _ (c₂ :: r) := hvch.2.2
      obtain ⟨t₁, h₁⟩ := hvch.1.exists_lookup
      obtain ⟨u₁, e₁⟩ := hvch.1.eq_cons
      obtain ⟨t₂, h₂⟩ := hr.1.exists_lookup
      obtain ⟨u₂, e₂⟩ := hr.1.eq_cons
      have hlt : c₂.firstCodePoint < c₁.firstCodePoint := hvch.2.1 c₂ (.head _)
      refine .inr ⟨_, _, u₁ ++ t₁, u₂ ++ t₂, Int.ne_of_gt hlt, ?_, ?_⟩
      · rw [lookup_append _ _ _ _ (List.cons_ne_nil _ _), lookupIn_cons_of_valid hvch, List.head?_cons, if_pos rfl,
          ← List.cons_append, ← e₁]
        exact h₁
      · rw [lookup_append _ _ _ _ (List.cons_ne_nil _ _), lookupIn_cons_of_valid hvch,
          if_neg (by simpa using Int.ne_of_lt hlt), lookupIn_cons_of_valid hr, List.head?_cons, if_pos rfl,
          ← List.cons_append, ← e₂]
        exact h₂

/-- Of two valid nodes with one map, each label is a prefix of the other's. -/
theorem PtNode.label_prefix_of_lookup_eq {p : List Int} {n₁ n₂ : PtNode α} (h₁ : n₁.Valid p)
    (heq : ∀ q, n₁.lookup q = n₂.lookup q) : n₂.ptNodeCodePoints <+: n₁.ptNodeCodePoints := by
  rcases h₁.branching with hs | ⟨a, b, x, y, hab, ha, hb⟩
  · rw [heq] at hs
    exact prefix_of_lookup_isSome hs
  · rw [heq] at ha hb
    have pa := prefix_of_lookup_isSome ha
    have pb := prefix_of_lookup_isSome hb
    by_cases hlen : n₂.ptNodeCodePoints.length ≤ n₁.ptNodeCodePoints.length
    · exact List.prefix_of_prefix_length_le pa (List.prefix_append _ _) hlen
    · have qa : n₁.ptNodeCodePoints ++ [a] <+: n₂.ptNodeCodePoints :=
        List.prefix_of_prefix_length_le ((List.prefix_append_right_inj _).mpr ⟨x, rfl⟩) pa
          (by simp only [List.length_append, List.length_singleton]; omega)
      have qb : n₁.ptNodeCodePoints ++ [b] <+: n₂.ptNodeCodePoints :=
        List.prefix_of_prefix_length_le ((List.prefix_append_right_inj _).mpr ⟨y, rfl⟩) pb
          (by simp only [List.length_append, List.length_singleton]; omega)
      have := (List.prefix_of_prefix_length_le qa qb (by simp)).eq_of_length (by simp)
      exact absurd (by simpa using this) hab

mutual

/-- **A valid node is determined by the map it stores.** -/
theorem PtNode.eq_of_lookup_eq : ∀ {path : List Int} (n₁ n₂ : PtNode α), n₁.Valid path →
    n₂.Valid path → (∀ q, n₁.lookup q = n₂.lookup q) → n₁ = n₂
  | _, ⟨l₁, ch₁, w₁⟩, ⟨l₂, ch₂, w₂⟩, h₁, h₂, heq => by
    have p₁ := label_prefix_of_lookup_eq h₁ heq
    have p₂ := label_prefix_of_lookup_eq h₂ fun q => (heq q).symm
    obtain rfl : l₁ = l₂ := p₂.eq_of_length (Nat.le_antisymm p₂.length_le p₁.length_le)
    obtain rfl : w₁ = w₂ := by simpa using heq l₁
    obtain ⟨-, -, -, hv₁⟩ := valid_mk.mp h₁
    obtain ⟨-, -, -, hv₂⟩ := valid_mk.mp h₂
    have hch : ∀ r, lookupIn ch₁ r = lookupIn ch₂ r := fun r => by
      by_cases hr : r = []
      · rw [hr, lookupIn_nil_of_valid hv₁, lookupIn_nil_of_valid hv₂]
      · rw [← lookup_append l₁ r ch₁ w₁ hr, heq, lookup_append _ _ _ _ hr]
    rw [eq_of_lookupIn_eq ch₁ ch₂ hv₁ hv₂ hch]

/-- **A valid node array is determined by the map it stores.** -/
theorem eq_of_lookupIn_eq : ∀ {path : List Int} (a₁ a₂ : PtNodeArray α), ArrayValid path a₁ →
    ArrayValid path a₂ → (∀ q, lookupIn a₁ q = lookupIn a₂ q) → a₁ = a₂
  | _, [], [], _, _, _ => rfl
  | _, [], _ :: _, _, h₂, heq => by
    obtain ⟨x, hx⟩ := h₂.exists_lookupIn_first
    rw [← heq] at hx
    exact absurd hx (by simp)
  | _, _ :: _, [], h₁, _, heq => by
    obtain ⟨x, hx⟩ := h₁.exists_lookupIn_first
    rw [heq] at hx
    exact absurd hx (by simp)
  | _, n₁ :: r₁, n₂ :: r₂, h₁, h₂, heq => by
    have hf : n₁.firstCodePoint = n₂.firstCodePoint := Classical.byContradiction fun hne =>
      Int.lt_irrefl _ (Int.lt_trans (firstCodePoint_lt_of_ne h₁ h₂ heq hne)
        (firstCodePoint_lt_of_ne h₂ h₁ (fun q => (heq q).symm) (Ne.symm hne)))
    have hn : n₁ = n₂ := PtNode.eq_of_lookup_eq n₁ n₂ h₁.1 h₂.1 fun q => by
      by_cases hq : q.head? = some n₁.firstCodePoint
      · have := heq q
        rwa [lookupIn_cons_of_valid h₁, lookupIn_cons_of_valid h₂, if_pos hq, if_pos (hf ▸ hq)] at this
      · rw [h₁.1.lookup_eq_none_of_head? hq, h₂.1.lookup_eq_none_of_head? (hf ▸ hq)]
    have hr : r₁ = r₂ := eq_of_lookupIn_eq r₁ r₂ h₁.2.2 h₂.2.2 fun q => by
      by_cases hq : q.head? = some n₁.firstCodePoint
      · rw [lookupIn_rest_eq_none h₁ hq, lookupIn_rest_eq_none h₂ (hf ▸ hq)]
      · have := heq q
        rwa [lookupIn_cons_of_valid h₁, lookupIn_cons_of_valid h₂, if_neg hq, if_neg (hf ▸ hq)] at this
    rw [hn, hr]

end

end Canonicity

end DictToolkit
