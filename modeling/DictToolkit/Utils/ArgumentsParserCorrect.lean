import DictToolkit.Utils.ArgumentsParser

/-!
# What `parseArguments` accepts

The loop of `parseArguments` reads options and arguments in one pass, but the options never change
where an argument goes: the argument half sees only the positional tokens (`positionals`), pushed
one after another (`pushArguments`, `parseLoop_ok_iff`). A run of pushes fills the argument specs
in order, each up to its `maxCount` (`Filled`, `pushArguments_ok`), and the check after the loop
looks only at the spec being filled.

* `validateSpecs_iff`: `validateSpecs` accepts exactly the spec lists whose specs do not have
  `minCount = maxCount = 0`, whose specs but the last have `minCount = maxCount`, and whose names
  are distinct.
* `parseArguments_spec`: on such a spec list whose specs have `minCount ≤ maxCount`, the result is
  valid exactly when every option token names an option, every option that needs a value has one,
  and the number of positional tokens is between the totals of `minCount` and `maxCount`; then the
  specs hold the positional tokens in order, each between its `minCount` and `maxCount` of them.
* `parseArguments_accepts_too_few`: `validateSpecs` never compares `minCount` with `maxCount`, and
  the last spec is left as soon as it holds `maxCount` tokens, so a last spec with
  `minCount > maxCount` is accepted with fewer than `minCount` tokens.
* `parseArguments_getOptionValue`: in a valid result each option holds the value of its last
  occurrence, or else its non-empty default when it needs a value; `hasOption` is false exactly
  for the others.
* `parseArguments_error_names`: what an invalid result prints names what was checked: an option
  token of the command line, the last token, or an argument spec.
-/

namespace DictToolkit

namespace UnorderedMap

variable {V : Type}

@[simp] theorem find_assign (m : List (String × V)) (k key : String) (v : V) :
    find (assign m k v) key = if k = key then some v else find m key := by
  induction m with
  | nil => rfl
  | cons e m ih =>
    obtain ⟨k', v'⟩ := e
    by_cases h : k' = k
    · subst h
      by_cases h' : k' = key <;> simp [assign, find, h']
    · by_cases h' : k' = key
      · subst h'
        simp [assign, find, h, Ne.symm h]
      · simp [assign, find, h, h', ih]

theorem find_eq_none {m : List (String × V)} {key : String} (h : key ∉ m.map Prod.fst) :
    find m key = none := by
  induction m with
  | nil => rfl
  | cons e m ih =>
    rw [List.map_cons, List.mem_cons, not_or] at h
    rw [find, if_neg (Ne.symm h.1), ih h.2]

/-- A name found in a map is one of its keys. -/
theorem mem_keys_of_find_isSome {m : List (String × V)} {key : String} (h : (find m key).isSome) :
    key ∈ m.map Prod.fst := by
  induction m with
  | nil => cases h
  | cons e m ih =>
    rw [find] at h
    rw [List.map_cons, List.mem_cons]
    split at h
    · exact .inl (by simp_all)
    · exact .inr (ih h)

/-- The arguments stored under a name: an absent entry reads as the empty vector. -/
def stored (arguments : List (String × List String)) (name : String) : List String :=
  (find arguments name).getD []

theorem stored_pushBack (m : List (String × List String)) (k key a : String) :
    stored (pushBack m k a) key = if k = key then stored m k ++ [a] else stored m key := by
  unfold stored pushBack
  rw [find_assign]
  split <;> simp_all

end UnorderedMap

open UnorderedMap

namespace ArgumentsParser

/-! ## The argument half of the loop -/

/-- One argument goes to the spec `argumentSpecIt` points to, and the spec is left once full. -/
theorem pushArgument_cons (arguments : List (String × List String)) (spec : ArgumentSpec)
    (specs : List ArgumentSpec) (arg : String) :
    pushArgument arguments (spec :: specs) arg =
      .ok (pushBack arguments spec.name arg,
        if spec.maxCount ≤ (stored arguments spec.name).length + 1 then specs else spec :: specs) := by
  have h : ((find (pushBack arguments spec.name arg) spec.name).getD []).length =
      (stored arguments spec.name).length + 1 := by
    rw [← stored, stored_pushBack, if_pos rfl, List.length_append, List.length_singleton]
  simp only [pushArgument, h, ge_iff_le]
  split <;> rfl

/-- A run of the argument half over positional tokens, one `pushArgument` after another. -/
def pushArguments : List String → List (String × List String) → List ArgumentSpec →
    Except ParseError (List (String × List String) × List ArgumentSpec)
  | [], arguments, argumentSpecIt => .ok (arguments, argumentSpecIt)
  | arg :: rest, arguments, argumentSpecIt =>
    match pushArgument arguments argumentSpecIt arg with
    | .error e => .error e
    | .ok (arguments, argumentSpecIt) => pushArguments rest arguments argumentSpecIt

/-- The tokens the loop reads as arguments: neither an option nor the value of one. `none` when an
option token names no option, or an option that needs a value is the last token. -/
def positionals (optionSpecs : List (String × OptionSpec)) : List String → Option (List String)
  | [] => some []
  | arg :: rest =>
    if isOption arg then
      match find optionSpecs (arg.drop 1) with
      | none => none
      | some spec =>
        if spec.needsValue then
          match rest with
          | [] => none
          | _ :: rest => positionals optionSpecs rest
        else positionals optionSpecs rest
    else (positionals optionSpecs rest).map (arg :: ·)

/-- `positionals` on a token and what follows it, whatever follows (the equations Lean derives
split on the next token). -/
theorem positionals_cons (optionSpecs : List (String × OptionSpec)) (arg : String)
    (rest : List String) :
    positionals optionSpecs (arg :: rest) =
      if isOption arg then
        match find optionSpecs (arg.drop 1) with
        | none => none
        | some spec =>
          if spec.needsValue then
            match rest with
            | [] => none
            | _ :: rest => positionals optionSpecs rest
          else positionals optionSpecs rest
      else (positionals optionSpecs rest).map (arg :: ·) := by
  cases rest <;> simp only [positionals]

/-- **The options do not change where the arguments go**: the loop completes exactly when the
tokens are well formed and the argument half completes on the positional tokens, with the same
arguments and the same spec left. -/
theorem parseLoop_ok_iff {optionSpecs : List (String × OptionSpec)} :
    ∀ {args : List String} {options : List (String × String)}
      {arguments a : List (String × List String)} {argumentSpecIt s : List ArgumentSpec},
      (∃ o, parseLoop optionSpecs args options arguments argumentSpecIt = .ok (o, a, s)) ↔
        ∃ pos, positionals optionSpecs args = some pos ∧ pushArguments pos arguments argumentSpecIt = .ok (a, s)
  | [], _, _, _, _, _ => by simp [parseLoop, positionals, pushArguments]
  | arg :: rest, options, arguments, a, argumentSpecIt, s => by
    by_cases ho : isOption arg
    · cases hf : find optionSpecs (arg.drop 1) with
      | none => simp [parseLoop, positionals_cons, ho, hf]
      | some spec =>
        by_cases hv : spec.needsValue
        · cases rest with
          | nil => simp [parseLoop, positionals_cons, ho, hf, hv]
          | cons v rest =>
            simp only [parseLoop, positionals_cons, ho, hf, hv, if_true]
            exact parseLoop_ok_iff
        · simp only [parseLoop, positionals_cons, ho, hf, hv, if_true, if_false, Bool.false_eq_true]
          exact parseLoop_ok_iff
    · cases hp : pushArgument arguments argumentSpecIt arg with
      | error e => simp [parseLoop, positionals_cons, ho, hp, pushArguments]
      | ok st =>
        obtain ⟨a', s'⟩ := st
        simp only [parseLoop, ho, hp, if_false, Bool.false_eq_true]
        have hpush : ∀ pos, pushArguments (arg :: pos) arguments argumentSpecIt = pushArguments pos a' s' :=
          fun pos => by simp only [pushArguments, hp]
        rw [parseLoop_ok_iff, positionals_cons, if_neg ho]
        constructor
        · rintro ⟨pos, hpos, h⟩
          exact ⟨arg :: pos, by rw [hpos]; rfl, by rw [hpush, h]⟩
        · rintro ⟨_, hmap, h⟩
          obtain ⟨pos, hpos, rfl⟩ := Option.map_eq_some'.mp hmap
          exact ⟨pos, hpos, by rw [← hpush, h]⟩

/-! ## `validateSpecs` -/

/-- What the loop of `validateSpecs` accepts, from the names already seen. -/
theorem validateSpecsFrom_iff : ∀ (seen : List String) (specs : List ArgumentSpec),
    validateSpecsFrom seen specs = true ↔
      (∀ s ∈ specs, s.minCount ≠ 0 ∨ s.maxCount ≠ 0) ∧
        (∀ s ∈ specs.dropLast, s.minCount = s.maxCount) ∧ (∀ s ∈ specs, s.name ∉ seen) ∧
          (specs.map ArgumentSpec.name).Nodup
  | _, [] => by simp [validateSpecsFrom]
  | seen, spec :: rest => by
    have hdrop : (∀ s ∈ (spec :: rest).dropLast, s.minCount = s.maxCount) ↔
        (rest ≠ [] → spec.minCount = spec.maxCount) ∧ ∀ s ∈ rest.dropLast, s.minCount = s.maxCount := by
      cases rest with
      | nil => simp
      | cons r rest => simp [List.dropLast_cons₂]
    rw [validateSpecsFrom]
    simp only [List.forall_mem_cons, List.map_cons, List.nodup_cons, List.mem_map, hdrop]
    by_cases h0 : spec.minCount = 0 ∧ spec.maxCount = 0
    · simp only [if_pos h0, Bool.false_eq_true, false_iff]
      rintro ⟨⟨h, -⟩, -⟩
      omega
    by_cases hl : spec.minCount ≠ spec.maxCount ∧ rest ≠ []
    · simp only [if_neg h0, if_pos hl, Bool.false_eq_true, false_iff]
      exact fun h => hl.1 (h.2.1.1 hl.2)
    by_cases hn : spec.name ∈ seen
    · simp only [if_neg h0, if_neg hl, if_pos hn, Bool.false_eq_true, false_iff]
      exact fun h => h.2.2.1.1 hn
    rw [if_neg h0, if_neg hl, if_neg hn, validateSpecsFrom_iff (spec.name :: seen) rest]
    simp only [List.mem_cons, not_or]
    constructor
    · rintro ⟨hz, hd, hs, hnd⟩
      exact ⟨⟨by omega, hz⟩, ⟨fun hne => Decidable.byContradiction fun h => hl ⟨h, hne⟩, hd⟩,
        ⟨hn, fun s hs' => (hs s hs').2⟩, fun ⟨s, hs', he⟩ => (hs s hs').1 he, hnd⟩
    · rintro ⟨⟨-, hz⟩, ⟨-, hd⟩, ⟨-, hs⟩, hne, hnd⟩
      exact ⟨hz, hd, fun s hs' => ⟨fun he => hne ⟨s, hs', he⟩, hs s hs'⟩, hnd⟩

/-- **What `validateSpecs` accepts**: no spec with `minCount = maxCount = 0`, every spec but the
last of a fixed length, and distinct names. It never compares `minCount` with `maxCount`. -/
theorem validateSpecs_iff (p : ArgumentsParser) :
    p.validateSpecs = true ↔ (∀ s ∈ p.argumentSpecs, s.minCount ≠ 0 ∨ s.maxCount ≠ 0) ∧
      (∀ s ∈ p.argumentSpecs.dropLast, s.minCount = s.maxCount) ∧
        (p.argumentSpecs.map ArgumentSpec.name).Nodup := by
  rw [validateSpecs, validateSpecsFrom_iff]
  simp only [List.not_mem_nil, not_false_eq_true, implies_true, true_and]

/-! ## Totals of counts -/

/-- The total of a count over specs: `sum(minCount)` and `sum(maxCount)`. -/
def totalCount (count : ArgumentSpec → Nat) : List ArgumentSpec → Nat
  | [] => 0
  | spec :: specs => count spec + totalCount count specs

theorem totalCount_append (count : ArgumentSpec → Nat) (l₁ l₂ : List ArgumentSpec) :
    totalCount count (l₁ ++ l₂) = totalCount count l₁ + totalCount count l₂ := by
  induction l₁ with
  | nil => simp [totalCount]
  | cons s l ih => simp [totalCount, ih, Nat.add_assoc]

theorem totalCount_le {f g : ArgumentSpec → Nat} :
    ∀ {l : List ArgumentSpec}, (∀ s ∈ l, f s ≤ g s) → totalCount f l ≤ totalCount g l
  | [], _ => Nat.le_refl 0
  | s :: _, h => Nat.add_le_add (h s (.head _)) (totalCount_le fun t ht => h t (.tail _ ht))

theorem totalCount_congr {f g : ArgumentSpec → Nat} {l : List ArgumentSpec}
    (h : ∀ s ∈ l, f s = g s) : totalCount f l = totalCount g l :=
  Nat.le_antisymm (totalCount_le fun s hs => Nat.le_of_eq (h s hs))
    (totalCount_le fun s hs => Nat.le_of_eq (h s hs).symm)

/-! ## Filling the specs -/

/-- The arguments stored under each spec, one after another. -/
def storedInOrder (specs : List ArgumentSpec) (arguments : List (String × List String)) :
    List String :=
  specs.flatMap fun s => stored arguments s.name

@[simp] theorem storedInOrder_append (l₁ l₂ : List ArgumentSpec) (a : List (String × List String)) :
    storedInOrder (l₁ ++ l₂) a = storedInOrder l₁ a ++ storedInOrder l₂ a :=
  List.flatMap_append _ _ _

@[simp] theorem storedInOrder_cons (t : ArgumentSpec) (l : List ArgumentSpec)
    (a : List (String × List String)) :
    storedInOrder (t :: l) a = stored a t.name ++ storedInOrder l a :=
  List.flatMap_cons _ _ _

@[simp] theorem storedInOrder_empty (l : List ArgumentSpec) : storedInOrder l [] = [] := by
  induction l with
  | nil => rfl
  | cons t l ih => rw [storedInOrder_cons, ih]; rfl

theorem storedInOrder_congr {l : List ArgumentSpec} {a a' : List (String × List String)}
    (h : ∀ t ∈ l, stored a' t.name = stored a t.name) : storedInOrder l a' = storedInOrder l a := by
  induction l with
  | nil => rfl
  | cons t l ih => rw [storedInOrder_cons, storedInOrder_cons, h t (.head _), ih fun t' ht' => h t' (.tail _ ht')]

theorem storedInOrder_eq_nil {l : List ArgumentSpec} {a : List (String × List String)}
    (h : ∀ t ∈ l, stored a t.name = []) : storedInOrder l a = [] := by
  induction l with
  | nil => rfl
  | cons t l ih => rw [storedInOrder_cons, h t (.head _), ih fun t' ht' => h t' (.tail _ ht'), List.append_nil]

theorem length_storedInOrder {l : List ArgumentSpec} {a : List (String × List String)}
    (h : ∀ t ∈ l, (stored a t.name).length = t.maxCount) :
    (storedInOrder l a).length = totalCount ArgumentSpec.maxCount l := by
  induction l with
  | nil => rfl
  | cons t l ih =>
    rw [storedInOrder_cons, List.length_append, h t (.head _), ih fun t' ht' => h t' (.tail _ ht')]
    rfl

/-- The state of the argument half between two tokens: the specs before `argumentSpecIt` are full,
the one it points to is not, and the ones after it hold nothing. -/
structure Filled (specs : List ArgumentSpec) (arguments : List (String × List String))
    (done argumentSpecIt : List ArgumentSpec) : Prop where
  eq : specs = done ++ argumentSpecIt
  full : ∀ s ∈ done, (stored arguments s.name).length = s.maxCount
  current : ∀ {s rest}, argumentSpecIt = s :: rest →
    (stored arguments s.name).length < s.maxCount ∧ ∀ t ∈ rest, stored arguments t.name = []

/-- Before the first argument, no spec holds anything. -/
theorem filled_nil {specs : List ArgumentSpec} (hpos : ∀ s ∈ specs, 0 < s.maxCount) :
    Filled specs [] [] specs where
  eq := rfl
  full _ h := nomatch h
  current h := ⟨hpos _ (h ▸ .head _), fun _ _ => rfl⟩

/-- Distinct names: the spec being filled has a name of its own. -/
theorem name_ne_of_nodup {done rest : List ArgumentSpec} {spec : ArgumentSpec}
    (hnd : ((done ++ spec :: rest).map ArgumentSpec.name).Nodup) :
    (∀ t ∈ done, t.name ≠ spec.name) ∧ ∀ t ∈ rest, t.name ≠ spec.name := by
  simp only [List.Nodup, List.map_append, List.map_cons, List.pairwise_append, List.pairwise_cons,
    List.mem_map, List.mem_cons] at hnd
  exact ⟨fun t ht => hnd.2.2 _ ⟨t, ht, rfl⟩ _ (.inl rfl), fun t ht he => hnd.2.1.1 _ ⟨t, ht, rfl⟩ he.symm⟩

section Push

variable {specs : List ArgumentSpec} (hnd : (specs.map ArgumentSpec.name).Nodup)
  (hpos : ∀ s ∈ specs, 0 < s.maxCount)

include hnd in
/-- One argument is stored after all those before it. -/
theorem Filled.storedInOrder_pushBack {arguments : List (String × List String)}
    {done rest : List ArgumentSpec} {spec : ArgumentSpec} (hf : Filled specs arguments done (spec :: rest))
    (arg : String) :
    storedInOrder specs (pushBack arguments spec.name arg) = storedInOrder specs arguments ++ [arg] := by
  rw [hf.eq] at hnd ⊢
  obtain ⟨hdone, hrest⟩ := name_ne_of_nodup hnd
  have hnil := (hf.current rfl).2
  have h₁ : storedInOrder done (pushBack arguments spec.name arg) = storedInOrder done arguments :=
    storedInOrder_congr fun t ht => by rw [stored_pushBack, if_neg (hdone t ht).symm]
  have h₂ : storedInOrder rest (pushBack arguments spec.name arg) = [] :=
    storedInOrder_eq_nil fun t ht => by rw [stored_pushBack, if_neg (hrest t ht).symm, hnil t ht]
  rw [storedInOrder_append, storedInOrder_append, storedInOrder_cons, storedInOrder_cons, h₁, h₂,
    storedInOrder_eq_nil hnil, stored_pushBack, if_pos rfl]
  simp

include hnd hpos in
/-- One argument keeps the specs filled in order. -/
theorem Filled.pushArgument {arguments : List (String × List String)} {done rest : List ArgumentSpec}
    {spec : ArgumentSpec} (hf : Filled specs arguments done (spec :: rest)) (arg : String) :
    if spec.maxCount ≤ (stored arguments spec.name).length + 1 then
      Filled specs (pushBack arguments spec.name arg) (done ++ [spec]) rest
    else Filled specs (pushBack arguments spec.name arg) done (spec :: rest) := by
  have hnd' := hnd
  rw [hf.eq] at hnd'
  obtain ⟨hdone, hrest⟩ := name_ne_of_nodup hnd'
  obtain ⟨hlt, hnil⟩ := hf.current rfl
  have hs : stored (pushBack arguments spec.name arg) spec.name = stored arguments spec.name ++ [arg] := by
    rw [stored_pushBack, if_pos rfl]
  have hother : ∀ t : ArgumentSpec, t.name ≠ spec.name →
      stored (pushBack arguments spec.name arg) t.name = stored arguments t.name :=
    fun t ht => by rw [stored_pushBack, if_neg (Ne.symm ht)]
  split
  · refine ⟨by rw [hf.eq, List.append_assoc]; rfl, fun t ht => ?_, fun {s r} h => ?_⟩
    · rcases List.mem_append.mp ht with ht | ht
      · rw [hother t (hdone t ht), hf.full t ht]
      · rw [List.mem_singleton.mp ht, hs, List.length_append, List.length_singleton]
        omega
    · subst h
      rw [hother s (hrest s (.head _)), hnil s (.head _)]
      exact ⟨hpos s (by rw [hf.eq]; simp), fun t ht => by
        rw [hother t (hrest t (.tail _ ht)), hnil t (.tail _ ht)]⟩
  · refine ⟨hf.eq, fun t ht => by rw [hother t (hdone t ht), hf.full t ht], fun {s r} h => ?_⟩
    obtain ⟨rfl, rfl⟩ := List.cons.inj h
    rw [hs, List.length_append, List.length_singleton]
    exact ⟨by omega, fun t ht => by rw [hother t (hrest t ht), hnil t ht]⟩

include hnd hpos in
/-- **A run of the argument half** keeps the specs filled in order and stores the tokens after
those stored before. -/
theorem pushArguments_ok : ∀ {pos : List String} {arguments a : List (String × List String)}
    {done argumentSpecIt s : List ArgumentSpec}, Filled specs arguments done argumentSpecIt →
      pushArguments pos arguments argumentSpecIt = .ok (a, s) →
        ∃ done', Filled specs a done' s ∧ storedInOrder specs a = storedInOrder specs arguments ++ pos
  | [], _, _, done, _, _, hf, h => by
    cases h
    exact ⟨done, hf, by simp⟩
  | _ :: _, _, _, _, [], _, _, h => nomatch h
  | arg :: pos, arguments, a, done, spec :: rest, s, hf, h => by
    simp only [pushArguments, pushArgument_cons] at h
    have hstep := hf.pushArgument hnd hpos arg
    have horder := hf.storedInOrder_pushBack hnd arg
    by_cases hfull : spec.maxCount ≤ (stored arguments spec.name).length + 1
    · rw [if_pos hfull] at h hstep
      obtain ⟨done', hf', ho⟩ := pushArguments_ok hstep h
      exact ⟨done', hf', by rw [ho, horder, List.append_assoc]; rfl⟩
    · rw [if_neg hfull] at h hstep
      obtain ⟨done', hf', ho⟩ := pushArguments_ok hstep h
      exact ⟨done', hf', by rw [ho, horder, List.append_assoc]; rfl⟩

include hnd hpos in
/-- A run of the argument half fails only on a token that comes when every spec is full, so past
the total of `maxCount`. -/
theorem pushArguments_error : ∀ {pos : List String} {arguments : List (String × List String)}
    {done argumentSpecIt : List ArgumentSpec} {e : ParseError}, Filled specs arguments done argumentSpecIt →
      pushArguments pos arguments argumentSpecIt = .error e →
        totalCount ArgumentSpec.maxCount specs < (storedInOrder specs arguments).length + pos.length
  | [], _, _, _, _, _, h => nomatch h
  | _ :: pos, arguments, done, [], _, hf, _ => by
    have h := length_storedInOrder (l := specs) (a := arguments) fun t ht =>
      hf.full t (by rwa [hf.eq, List.append_nil] at ht)
    rw [List.length_cons]
    omega
  | arg :: pos, arguments, done, spec :: rest, e, hf, h => by
    simp only [pushArguments, pushArgument_cons] at h
    have hstep := hf.pushArgument hnd hpos arg
    have hlen := congrArg List.length (hf.storedInOrder_pushBack hnd arg)
    rw [List.length_append, List.length_singleton] at hlen
    rw [List.length_cons]
    by_cases hfull : spec.maxCount ≤ (stored arguments spec.name).length + 1
    · rw [if_pos hfull] at h hstep
      have := pushArguments_error hstep h
      omega
    · rw [if_neg hfull] at h hstep
      have := pushArguments_error hstep h
      omega

end Push

/-- While a spec is being filled, the tokens stored are those of the full specs and its own. -/
theorem Filled.length_stored {specs : List ArgumentSpec} {arguments : List (String × List String)}
    {done rest : List ArgumentSpec} {spec : ArgumentSpec} (hf : Filled specs arguments done (spec :: rest)) :
    (storedInOrder specs arguments).length =
      totalCount ArgumentSpec.maxCount done + (stored arguments spec.name).length := by
  rw [hf.eq, storedInOrder_append, storedInOrder_cons, storedInOrder_eq_nil (hf.current rfl).2,
    List.append_nil, List.length_append, length_storedInOrder hf.full]

/-- The specs never hold more than the total of `maxCount`. -/
theorem Filled.length_le {specs : List ArgumentSpec} {arguments : List (String × List String)}
    {done argumentSpecIt : List ArgumentSpec} (hf : Filled specs arguments done argumentSpecIt) :
    (storedInOrder specs arguments).length ≤ totalCount ArgumentSpec.maxCount specs := by
  cases argumentSpecIt with
  | nil => exact Nat.le_of_eq (length_storedInOrder fun t ht => hf.full t (by rwa [hf.eq, List.append_nil] at ht))
  | cons spec rest =>
    rw [hf.length_stored, hf.eq, totalCount_append, totalCount]
    have := (hf.current rfl).1
    omega

/-- The check after the loop passes when the spec being filled, if any, has its `minCount`. -/
theorem checkMinCount_cons (arguments : List (String × List String)) (spec : ArgumentSpec)
    (rest : List ArgumentSpec) :
    checkMinCount arguments (spec :: rest) = .ok () ↔ spec.minCount ≤ (stored arguments spec.name).length := by
  have h : ((find arguments spec.name).map List.length).getD 0 = (stored arguments spec.name).length := by
    unfold stored
    cases find arguments spec.name <;> rfl
  simp only [checkMinCount, h]
  split <;> simp_all

/-- **The end of a run.** On specs whose `minCount` and `maxCount` agree but for the last one, and
whose `minCount` is at most their `maxCount`, the check after the loop passes exactly when the total
of `minCount` was stored, and then every spec holds between its `minCount` and `maxCount`. -/
theorem Filled.checkMinCount_ok_iff {specs : List ArgumentSpec} {arguments : List (String × List String)}
    {done argumentSpecIt : List ArgumentSpec} (hf : Filled specs arguments done argumentSpecIt)
    (hfix : ∀ s ∈ specs.dropLast, s.minCount = s.maxCount)
    (hle : ∀ s ∈ specs, s.minCount ≤ s.maxCount) :
    (checkMinCount arguments argumentSpecIt = .ok () ↔
      totalCount ArgumentSpec.minCount specs ≤ (storedInOrder specs arguments).length) ∧
    (checkMinCount arguments argumentSpecIt = .ok () → ∀ t ∈ specs,
      t.minCount ≤ (stored arguments t.name).length ∧ (stored arguments t.name).length ≤ t.maxCount) := by
  have hdone : ∀ t ∈ done, t.minCount ≤ (stored arguments t.name).length ∧
      (stored arguments t.name).length ≤ t.maxCount := fun t ht => by
    rw [hf.full t ht]
    exact ⟨hle t (by rw [hf.eq]; exact List.mem_append_left _ ht), Nat.le_refl _⟩
  cases argumentSpecIt with
  | nil =>
    have hall : ∀ t ∈ specs, t ∈ done := fun t ht => by rwa [hf.eq, List.append_nil] at ht
    rw [length_storedInOrder fun t ht => hf.full t (hall t ht)]
    exact ⟨iff_of_true rfl (totalCount_le hle), fun _ t ht => hdone t (hall t ht)⟩
  | cons spec rest =>
    have hlt := (hf.current rfl).1
    have hfixed : totalCount ArgumentSpec.minCount done = totalCount ArgumentSpec.maxCount done :=
      totalCount_congr fun t ht => hfix t (by
        rw [hf.eq, List.dropLast_append_cons]
        exact List.mem_append_left _ ht)
    rw [checkMinCount_cons, hf.length_stored, hf.eq, totalCount_append, totalCount, hfixed]
    cases rest with
    | nil =>
      refine ⟨by simp only [totalCount]; omega, fun hmin t ht => ?_⟩
      rcases List.mem_append.mp ht with ht | ht
      · exact hdone t ht
      · rw [List.mem_singleton.mp ht]
        exact ⟨hmin, Nat.le_of_lt hlt⟩
    | cons r rest =>
      have hspec : spec.minCount = spec.maxCount := hfix spec (by
        rw [hf.eq, List.dropLast_append_cons, List.dropLast_cons₂]
        exact List.mem_append_right _ (.head _))
      exact ⟨by omega, fun h => absurd h (by omega)⟩

/-! ## `parseArguments` -/

/-- The result of `parseArguments` is valid exactly when `parse` completes. -/
theorem isValid_parseArguments {p : ArgumentsParser} {argv : List String} {printErrorMessage : Bool} :
    (p.parseArguments argv printErrorMessage).1.isValid = true ↔ ∃ o a, p.parse argv = .ok (o, a) := by
  unfold parseArguments
  split <;> simp_all [ArgumentsAndOptions.invalid]

/-- A valid result holds what `parse` computed. -/
theorem parseArguments_of_parse {p : ArgumentsParser} {argv : List String} {printErrorMessage : Bool}
    {o : List (String × String)} {a : List (String × List String)} (h : p.parse argv = .ok (o, a)) :
    (p.parseArguments argv printErrorMessage).1 = ⟨true, o, a⟩ := by
  simp only [parseArguments, h]

/-- `parse` on a command line: the loop, then the check of the spec being filled. -/
theorem parse_cons_ok_iff {p : ArgumentsParser} {command : String} {args : List String}
    {o : List (String × String)} {a : List (String × List String)} :
    p.parse (command :: args) = .ok (o, a) ↔
      ∃ s, parseLoop p.optionSpecs args (defaultOptions p.optionSpecs) [] p.argumentSpecs = .ok (o, a, s) ∧
        checkMinCount a s = .ok () := by
  simp only [parse]
  constructor
  · intro h
    split at h
    · cases h
    · rename_i o' a' s' hl
      split at h
      · cases h
      · cases h
        exact ⟨s', hl, by assumption⟩
  · rintro ⟨s, hl, hc⟩
    simp only [hl, hc]

/-- A command line that `parse` completes: its positional tokens are stored in spec order, and the
specs are filled in order. -/
theorem parse_ok_filled {p : ArgumentsParser} (hnd : (p.argumentSpecs.map ArgumentSpec.name).Nodup)
    (hpos : ∀ s ∈ p.argumentSpecs, 0 < s.maxCount) {command : String} {args : List String}
    {o : List (String × String)} {a : List (String × List String)} (h : p.parse (command :: args) = .ok (o, a)) :
    ∃ pos, positionals p.optionSpecs args = some pos ∧ ∃ done s, Filled p.argumentSpecs a done s ∧
      storedInOrder p.argumentSpecs a = pos ∧ checkMinCount a s = .ok () := by
  obtain ⟨s, hloop, hcheck⟩ := parse_cons_ok_iff.mp h
  obtain ⟨pos, hpos', hpush⟩ := parseLoop_ok_iff.mp ⟨o, hloop⟩
  obtain ⟨done, hf, hstored⟩ := pushArguments_ok hnd hpos (filled_nil hpos) hpush
  rw [storedInOrder_empty, List.nil_append] at hstored
  exact ⟨pos, hpos', done, s, hf, hstored, hcheck⟩

/-- What the run lemmas need of specs that `validateSpecs` accepts with `minCount ≤ maxCount`: fixed
lengths but for the last spec, distinct names, and room for at least one argument in every spec. -/
theorem specs_of_validateSpecs {p : ArgumentsParser} (hv : p.validateSpecs = true)
    (hle : ∀ s ∈ p.argumentSpecs, s.minCount ≤ s.maxCount) :
    (∀ s ∈ p.argumentSpecs.dropLast, s.minCount = s.maxCount) ∧
      (p.argumentSpecs.map ArgumentSpec.name).Nodup ∧ ∀ s ∈ p.argumentSpecs, 0 < s.maxCount := by
  obtain ⟨hz, hfix, -, hnd⟩ := (validateSpecsFrom_iff [] p.argumentSpecs).mp hv
  refine ⟨hfix, hnd, fun s hs => ?_⟩
  have := hz s hs
  have := hle s hs
  omega

/-- On such specs, the result is valid exactly when the option tokens are well formed and the
number of positional tokens is between the totals of `minCount` and `maxCount`. -/
theorem isValid_parseArguments_iff {p : ArgumentsParser} (hv : p.validateSpecs = true)
    (hle : ∀ s ∈ p.argumentSpecs, s.minCount ≤ s.maxCount) (command : String) (args : List String)
    (printErrorMessage : Bool) :
    (p.parseArguments (command :: args) printErrorMessage).1.isValid = true ↔
      ∃ pos, positionals p.optionSpecs args = some pos ∧
        totalCount ArgumentSpec.minCount p.argumentSpecs ≤ pos.length ∧
          pos.length ≤ totalCount ArgumentSpec.maxCount p.argumentSpecs := by
  obtain ⟨hfix, hnd, hpos⟩ := specs_of_validateSpecs hv hle
  refine ⟨fun hvalid => ?_, fun ⟨pos, hpos', hmin, hmax⟩ => ?_⟩
  · obtain ⟨o, a, h⟩ := isValid_parseArguments.mp hvalid
    obtain ⟨pos, hpos', done, s, hf, rfl, hcheck⟩ := parse_ok_filled hnd hpos h
    exact ⟨_, hpos', ((hf.checkMinCount_ok_iff hfix hle).1.mp hcheck), hf.length_le⟩
  · cases hpush : pushArguments pos [] p.argumentSpecs with
    | error e =>
      have := pushArguments_error hnd hpos (filled_nil hpos) hpush
      rw [storedInOrder_empty, List.length_nil] at this
      omega
    | ok st =>
      obtain ⟨a, s⟩ := st
      obtain ⟨done, hf, hstored⟩ := pushArguments_ok hnd hpos (filled_nil hpos) hpush
      rw [storedInOrder_empty, List.nil_append] at hstored
      obtain ⟨o, hloop⟩ := parseLoop_ok_iff.mpr ⟨pos, hpos', hpush⟩
      have hcheck := (hf.checkMinCount_ok_iff hfix hle).1.mpr (by rw [hstored]; exact hmin)
      exact isValid_parseArguments.mpr ⟨o, a, parse_cons_ok_iff.mpr ⟨s, hloop, hcheck⟩⟩

/-- On such specs, a valid result holds the positional tokens in order, spec after spec, each spec
between its `minCount` and `maxCount` of them. -/
theorem parseArguments_stored {p : ArgumentsParser} (hv : p.validateSpecs = true)
    (hle : ∀ s ∈ p.argumentSpecs, s.minCount ≤ s.maxCount) {command : String} {args : List String}
    {printErrorMessage : Bool} (hvalid : (p.parseArguments (command :: args) printErrorMessage).1.isValid = true) :
    let r := (p.parseArguments (command :: args) printErrorMessage).1
    ∃ pos, positionals p.optionSpecs args = some pos ∧
      (p.argumentSpecs.flatMap fun s => (r.getVariableLengthArguments s.name).getD []) = pos ∧
      ∀ s ∈ p.argumentSpecs, s.minCount ≤ ((r.getVariableLengthArguments s.name).getD []).length ∧
        ((r.getVariableLengthArguments s.name).getD []).length ≤ s.maxCount := by
  obtain ⟨hfix, hnd, hpos⟩ := specs_of_validateSpecs hv hle
  obtain ⟨o, a, h⟩ := isValid_parseArguments.mp hvalid
  obtain ⟨pos, hpos', done, s, hf, rfl, hcheck⟩ := parse_ok_filled hnd hpos h
  rw [parseArguments_of_parse h]
  exact ⟨_, hpos', rfl, (hf.checkMinCount_ok_iff hfix hle).2 hcheck⟩

/-- **What `parseArguments` accepts.** For specs that `validateSpecs` accepts and whose `minCount` is
at most their `maxCount`, and a command line of at least one token: the result is valid exactly
when the option tokens are well formed and the number of positional tokens is between the totals
of `minCount` and `maxCount`; a valid result holds the positional tokens in order, spec after spec,
each spec between its `minCount` and `maxCount` of them. -/
theorem parseArguments_spec {p : ArgumentsParser} (hv : p.validateSpecs = true)
    (hle : ∀ s ∈ p.argumentSpecs, s.minCount ≤ s.maxCount) (command : String) (args : List String)
    (printErrorMessage : Bool) :
    let r := (p.parseArguments (command :: args) printErrorMessage).1
    (r.isValid = true ↔ ∃ pos, positionals p.optionSpecs args = some pos ∧
      totalCount ArgumentSpec.minCount p.argumentSpecs ≤ pos.length ∧
        pos.length ≤ totalCount ArgumentSpec.maxCount p.argumentSpecs) ∧
    (r.isValid = true → ∃ pos, positionals p.optionSpecs args = some pos ∧
      (p.argumentSpecs.flatMap fun s => (r.getVariableLengthArguments s.name).getD []) = pos ∧
      ∀ s ∈ p.argumentSpecs, s.minCount ≤ ((r.getVariableLengthArguments s.name).getD []).length ∧
        ((r.getVariableLengthArguments s.name).getD []).length ≤ s.maxCount) :=
  ⟨isValid_parseArguments_iff hv hle command args printErrorMessage, parseArguments_stored hv hle⟩

/-- The command line `command -b value arg arg1 arg2` of the tests, with a switch `a`, an option `b`
with a default, one argument and then up to two. -/
theorem parseArguments_spec_test :
    let p : ArgumentsParser := ⟨[("a", .switchOption "description"),
      ("b", .keyValueOption "valueName" "default" "description")],
      [.singleArgument "arg0" "description", .variableLengthArguments "arg1" 0 2 "description"]⟩
    p.validateSpecs = true ∧ (∀ s ∈ p.argumentSpecs, s.minCount ≤ s.maxCount) ∧
      let r := (p.parseArguments ["command", "-b", "value", "arg", "arg1", "arg2"] false).1
      (r.isValid = true ↔ ∃ pos, positionals p.optionSpecs ["-b", "value", "arg", "arg1", "arg2"] = some pos ∧
        totalCount ArgumentSpec.minCount p.argumentSpecs ≤ pos.length ∧
          pos.length ≤ totalCount ArgumentSpec.maxCount p.argumentSpecs) ∧
      (r.isValid = true → ∃ pos, positionals p.optionSpecs ["-b", "value", "arg", "arg1", "arg2"] = some pos ∧
        (p.argumentSpecs.flatMap fun s => (r.getVariableLengthArguments s.name).getD []) = pos ∧
        ∀ s ∈ p.argumentSpecs, s.minCount ≤ ((r.getVariableLengthArguments s.name).getD []).length ∧
          ((r.getVariableLengthArguments s.name).getD []).length ≤ s.maxCount) :=
  ⟨by decide, by decide, parseArguments_spec (by decide) (by decide) _ _ _⟩

/-- **A last spec with `minCount > maxCount`**: `validateSpecs` accepts a spec asking for two tokens
and holding at most one, and `parseArguments` returns a valid result for one token, although the
total of `minCount` is two. -/
theorem parseArguments_accepts_too_few :
    let p : ArgumentsParser := ⟨[], [.variableLengthArguments "words" 2 1 "words"]⟩
    let r := (p.parseArguments ["command", "a"] false).1
    p.validateSpecs = true ∧ r.isValid = true ∧ positionals p.optionSpecs ["a"] = some ["a"] ∧
      totalCount ArgumentSpec.minCount p.argumentSpecs = 2 ∧ r.getVariableLengthArguments "words" = some ["a"] := by
  decide

/-! ## The options -/

/-- The options a command line sets, in order: the name of each option token, with the token after
it when the option needs a value and the empty string otherwise. -/
def optionAssignments (optionSpecs : List (String × OptionSpec)) : List String → List (String × String)
  | [] => []
  | arg :: rest =>
    if isOption arg then
      match find optionSpecs (arg.drop 1) with
      | none => []
      | some spec =>
        if spec.needsValue then
          match rest with
          | [] => []
          | optionValue :: rest => (arg.drop 1, optionValue) :: optionAssignments optionSpecs rest
        else (arg.drop 1, "") :: optionAssignments optionSpecs rest
    else optionAssignments optionSpecs rest

/-- `optionAssignments` on a token and what follows it, whatever follows. -/
theorem optionAssignments_cons (optionSpecs : List (String × OptionSpec)) (arg : String)
    (rest : List String) :
    optionAssignments optionSpecs (arg :: rest) =
      if isOption arg then
        match find optionSpecs (arg.drop 1) with
        | none => []
        | some spec =>
          if spec.needsValue then
            match rest with
            | [] => []
            | optionValue :: rest => (arg.drop 1, optionValue) :: optionAssignments optionSpecs rest
          else (arg.drop 1, "") :: optionAssignments optionSpecs rest
      else optionAssignments optionSpecs rest := by
  cases rest <;> simp only [optionAssignments]

/-- The value the last of a list of assignments gives a name, if any does. -/
def lastValue : List (String × String) → String → Option String
  | [], _ => none
  | (k, v) :: l, name => (lastValue l name).or (if k = name then some v else none)

/-- Assignments one after another: the last one to a name wins. -/
theorem find_foldl_assign (name : String) : ∀ (l m : List (String × String)),
    find (l.foldl (fun m kv => assign m kv.1 kv.2) m) name = (lastValue l name).or (find m name)
  | [], _ => rfl
  | (k, v) :: l, m => by
    rw [List.foldl_cons, find_foldl_assign name l, find_assign, lastValue, Option.or_assoc]
    by_cases h : k = name <;> simp [h]

/-- The loop sets the options of the command line one after another. -/
theorem parseLoop_options {optionSpecs : List (String × OptionSpec)} :
    ∀ {args : List String} {options o : List (String × String)}
      {arguments a : List (String × List String)} {argumentSpecIt s : List ArgumentSpec},
      parseLoop optionSpecs args options arguments argumentSpecIt = .ok (o, a, s) →
        o = (optionAssignments optionSpecs args).foldl (fun m kv => assign m kv.1 kv.2) options
  | [], _, _, _, _, _, _, h => by cases h; rfl
  | arg :: rest, options, o, arguments, a, argumentSpecIt, s, h => by
    rw [optionAssignments_cons]
    by_cases ho : isOption arg
    · cases hf : find optionSpecs (arg.drop 1) with
      | none => simp [parseLoop, ho, hf] at h
      | some spec =>
        by_cases hv : spec.needsValue
        · cases rest with
          | nil => simp [parseLoop, ho, hf, hv] at h
          | cons v rest =>
            simp only [parseLoop, ho, hf, hv, if_true] at h ⊢
            exact parseLoop_options h
        · simp only [parseLoop, ho, hf, hv, if_true, if_false, Bool.false_eq_true] at h ⊢
          exact parseLoop_options h
    · simp only [parseLoop, ho, if_false, Bool.false_eq_true] at h ⊢
      split at h
      · cases h
      · exact parseLoop_options h

/-- The default values set before the loop, for option specs with distinct names: those of the
options that need a value and have a non-empty default. -/
theorem find_defaultOptions {optionSpecs : List (String × OptionSpec)}
    (hkeys : (optionSpecs.map Prod.fst).Nodup) (name : String) :
    find (defaultOptions optionSpecs) name = (find optionSpecs name).bind fun spec =>
      if spec.needsValue ∧ spec.defaultValue ≠ "" then some spec.defaultValue else none := by
  suffices ∀ (l : List (String × OptionSpec)) (m : List (String × String)), (l.map Prod.fst).Nodup →
      find (l.foldl (fun options entry =>
        if entry.2.needsValue ∧ entry.2.defaultValue ≠ "" then assign options entry.1 entry.2.defaultValue
        else options) m) name =
      match find l name with
      | some spec => if spec.needsValue ∧ spec.defaultValue ≠ "" then some spec.defaultValue else find m name
      | none => find m name by
    rw [defaultOptions, this optionSpecs [] hkeys]
    cases find optionSpecs name <;> rfl
  intro l
  induction l with
  | nil => intro m _; rfl
  | cons e l ih =>
    intro m hnd
    obtain ⟨k, spec⟩ := e
    rw [List.map_cons, List.nodup_cons] at hnd
    rw [List.foldl_cons, ih _ hnd.2]
    have hm : find (if spec.needsValue ∧ spec.defaultValue ≠ "" then assign m k spec.defaultValue
        else m) name =
        if k = name ∧ spec.needsValue ∧ spec.defaultValue ≠ "" then some spec.defaultValue
        else find m name := by
      by_cases hk : k = name <;> by_cases hc : spec.needsValue ∧ spec.defaultValue ≠ "" <;> simp [hk, hc]
    rw [hm]
    by_cases hk : k = name
    · subst hk
      simp only [find, if_true, find_eq_none hnd.1, true_and]
    · simp only [find, if_neg hk]
      cases find l name <;> simp [hk]

/-- **The options of a valid result.** For option specs with distinct names, each option of a
valid result holds the value of its last occurrence on the command line (the empty string for a
switch), or else its default when it needs a value and the default is not empty; it is absent
otherwise, and `hasOption` says which. -/
theorem parseArguments_getOptionValue {p : ArgumentsParser} (hkeys : (p.optionSpecs.map Prod.fst).Nodup)
    {command : String} {args : List String} {printErrorMessage : Bool}
    (hvalid : (p.parseArguments (command :: args) printErrorMessage).1.isValid = true)
    (optionName : String) :
    let r := (p.parseArguments (command :: args) printErrorMessage).1
    let value := (lastValue (optionAssignments p.optionSpecs args) optionName).or
      ((find p.optionSpecs optionName).bind fun spec =>
        if spec.needsValue ∧ spec.defaultValue ≠ "" then some spec.defaultValue else none)
    r.getOptionValue optionName = value ∧ r.hasOption optionName = value.isSome := by
  intro r value
  obtain ⟨o, a, h⟩ := isValid_parseArguments.mp hvalid
  obtain ⟨s, hloop, -⟩ := parse_cons_ok_iff.mp h
  have hvalue : r.getOptionValue optionName = value := by
    simp only [r, value, parseArguments_of_parse h, ArgumentsAndOptions.getOptionValue,
      parseLoop_options hloop, find_foldl_assign, find_defaultOptions hkeys]
  exact ⟨hvalue, by rw [ArgumentsAndOptions.hasOption_eq_isSome, hvalue]⟩

/-- The command line `command -a arg arg` of the tests: the switch `a` holds the empty string, and
`b`, not given, its default. -/
theorem parseArguments_getOptionValue_test :
    let p : ArgumentsParser := ⟨[("a", .switchOption "description"),
      ("b", .keyValueOption "valueName" "default" "description")],
      [.singleArgument "arg0" "description", .variableLengthArguments "arg1" 0 2 "description"]⟩
    (p.optionSpecs.map Prod.fst).Nodup ∧
      (p.parseArguments ["command", "-a", "arg", "arg"] false).1.isValid = true ∧
      let r := (p.parseArguments ["command", "-a", "arg", "arg"] false).1
      let value := (lastValue (optionAssignments p.optionSpecs ["-a", "arg", "arg"]) "b").or
        ((find p.optionSpecs "b").bind fun spec =>
          if spec.needsValue ∧ spec.defaultValue ≠ "" then some spec.defaultValue else none)
      r.getOptionValue "b" = value ∧ r.hasOption "b" = value.isSome :=
  ⟨by decide, by decide, parseArguments_getOptionValue (by decide) (by decide) "b"⟩

/-! ## The errors -/

/-- What stops the loop: an option token that names no option, an option that needs a value as the
last token, or an argument past the last spec. -/
def LoopError (optionSpecs : List (String × OptionSpec)) (args : List String) (e : ParseError) : Prop :=
  (∃ arg ∈ args, isOption arg ∧ find optionSpecs (arg.drop 1) = none ∧ e = .unknownOption (arg.drop 1)) ∨
    (∃ pre arg spec, args = pre ++ [arg] ∧ isOption arg ∧ find optionSpecs (arg.drop 1) = some spec ∧
      spec.needsValue ∧ e = .missingArgument (arg.drop 1)) ∨
    e = .tooManyArguments

/-- A token in front does not change what stops the loop on the tokens after it. -/
theorem LoopError.cons {optionSpecs : List (String × OptionSpec)} {args : List String} {e : ParseError}
    (x : String) (h : LoopError optionSpecs args e) : LoopError optionSpecs (x :: args) e := by
  rcases h with ⟨arg, harg, h⟩ | ⟨pre, arg, spec, rfl, h⟩ | h
  · exact .inl ⟨arg, .tail _ harg, h⟩
  · exact .inr (.inl ⟨x :: pre, arg, spec, rfl, h⟩)
  · exact .inr (.inr h)

/-- An argument is refused only past the last spec. -/
theorem pushArgument_error {arguments : List (String × List String)} {argumentSpecIt : List ArgumentSpec}
    {arg : String} {e : ParseError} (h : pushArgument arguments argumentSpecIt arg = .error e) :
    e = .tooManyArguments := by
  cases argumentSpecIt with
  | nil => cases h; rfl
  | cons spec specs => rw [pushArgument_cons] at h; cases h

/-- The loop stops only for one of the reasons of `LoopError`. -/
theorem parseLoop_error {optionSpecs : List (String × OptionSpec)} :
    ∀ {args : List String} {options : List (String × String)}
      {arguments : List (String × List String)} {argumentSpecIt : List ArgumentSpec} {e : ParseError},
      parseLoop optionSpecs args options arguments argumentSpecIt = .error e → LoopError optionSpecs args e
  | [], _, _, _, _, h => nomatch h
  | arg :: rest, options, arguments, argumentSpecIt, e, h => by
    by_cases ho : isOption arg
    · cases hf : find optionSpecs (arg.drop 1) with
      | none =>
        simp only [parseLoop, ho, hf, if_true, Except.error.injEq] at h
        exact .inl ⟨arg, .head _, ho, hf, h.symm⟩
      | some spec =>
        by_cases hv : spec.needsValue
        · cases rest with
          | nil =>
            simp only [parseLoop, ho, hf, hv, if_true, Except.error.injEq] at h
            exact .inr (.inl ⟨[], arg, spec, rfl, ho, hf, hv, h.symm⟩)
          | cons v rest =>
            simp only [parseLoop, ho, hf, hv, if_true] at h
            exact ((parseLoop_error h).cons v).cons arg
        · simp only [parseLoop, ho, hf, hv, if_true, if_false, Bool.false_eq_true] at h
          exact (parseLoop_error h).cons arg
    · simp only [parseLoop, ho, if_false, Bool.false_eq_true] at h
      split at h
      · cases h
        exact .inr (.inr (pushArgument_error ‹_›))
      · exact (parseLoop_error h).cons arg

/-- The specs left after an argument are a suffix of those before it. -/
theorem pushArgument_suffix {arguments a : List (String × List String)}
    {argumentSpecIt s : List ArgumentSpec} {arg : String}
    (h : pushArgument arguments argumentSpecIt arg = .ok (a, s)) : s <:+ argumentSpecIt := by
  cases argumentSpecIt with
  | nil => cases h
  | cons spec specs =>
    rw [pushArgument_cons, Except.ok.injEq, Prod.mk.injEq] at h
    rw [← h.2]
    split
    · exact List.suffix_cons _ _
    · exact List.suffix_refl _

/-- The specs left after a run of pushes are a suffix of those before it. -/
theorem pushArguments_suffix : ∀ {pos : List String} {arguments a : List (String × List String)}
    {argumentSpecIt s : List ArgumentSpec},
    pushArguments pos arguments argumentSpecIt = .ok (a, s) → s <:+ argumentSpecIt
  | [], _, _, _, _, h => by cases h; exact List.suffix_refl _
  | arg :: rest, arguments, a, argumentSpecIt, s, h => by
    simp only [pushArguments] at h
    split at h
    · cases h
    · exact (pushArguments_suffix h).trans (pushArgument_suffix ‹_›)

/-- The check after the loop refuses only the spec being filled. -/
theorem checkMinCount_error {arguments : List (String × List String)} {specs : List ArgumentSpec}
    {e : ParseError} (h : checkMinCount arguments specs = .error e) :
    ∃ spec ∈ specs, e = .notEnoughArguments spec.minCount spec.name := by
  cases specs with
  | nil => cases h
  | cons spec rest =>
    simp only [checkMinCount] at h
    split at h
    · cases h
      exact ⟨spec, .head _, rfl⟩
    · cases h

/-- Why `parse` gives up on a command line: the loop stops, or the spec being filled when the
tokens run out holds fewer than its `minCount`. -/
theorem parse_error {p : ArgumentsParser} {command : String} {args : List String} {e : ParseError}
    (h : p.parse (command :: args) = .error e) :
    LoopError p.optionSpecs args e ∨ ∃ s ∈ p.argumentSpecs, e = .notEnoughArguments s.minCount s.name := by
  simp only [parse] at h
  split at h
  · cases h
    exact .inl (parseLoop_error ‹_›)
  · rename_i o a rest hloop
    split at h
    · cases h
      obtain ⟨spec, hspec, rfl⟩ := checkMinCount_error ‹_›
      obtain ⟨pos, -, hpush⟩ := parseLoop_ok_iff.mp ⟨o, hloop⟩
      exact .inr ⟨spec, (pushArguments_suffix hpush).subset hspec, rfl⟩
    · cases h

/-- **Every error names what it checked.** When `parseArguments` refuses a command line, what it
prints is the message of an error that names an option token of the command line that names no
option, an option token at the end that needs a value, too many arguments, or an argument spec
that holds fewer than its `minCount`. -/
theorem parseArguments_error_names {p : ArgumentsParser} {command : String} {args : List String}
    {printErrorMessage : Bool} (h : (p.parseArguments (command :: args) printErrorMessage).1.isValid = false) :
    ∃ e, (p.parseArguments (command :: args) printErrorMessage).2 =
        (if printErrorMessage then e.message else "") ∧
      (LoopError p.optionSpecs args e ∨ ∃ s ∈ p.argumentSpecs, e = .notEnoughArguments s.minCount s.name) := by
  unfold parseArguments at h ⊢
  split at h
  · cases h
  · exact ⟨_, rfl, parse_error ‹_›⟩

/-! ## Options and arguments apart -/

/-- **Options and arguments do not mix.** Of two command lines that `parseArguments` accepts, the
arguments agree when the positional tokens do, wherever the options stand among them; and the
options agree when the option tokens set the same options in the same order, whatever the
positional tokens are. -/
theorem parseArguments_separates {p : ArgumentsParser} {command command' : String}
    {args args' : List String} {printErrorMessage printErrorMessage' : Bool}
    (hvalid : (p.parseArguments (command :: args) printErrorMessage).1.isValid = true)
    (hvalid' : (p.parseArguments (command' :: args') printErrorMessage').1.isValid = true) :
    (positionals p.optionSpecs args = positionals p.optionSpecs args' →
      (p.parseArguments (command :: args) printErrorMessage).1.arguments =
        (p.parseArguments (command' :: args') printErrorMessage').1.arguments) ∧
    (optionAssignments p.optionSpecs args = optionAssignments p.optionSpecs args' →
      (p.parseArguments (command :: args) printErrorMessage).1.options =
        (p.parseArguments (command' :: args') printErrorMessage').1.options) := by
  obtain ⟨o, a, h⟩ := isValid_parseArguments.mp hvalid
  obtain ⟨o', a', h'⟩ := isValid_parseArguments.mp hvalid'
  obtain ⟨s, hloop, -⟩ := parse_cons_ok_iff.mp h
  obtain ⟨s', hloop', -⟩ := parse_cons_ok_iff.mp h'
  rw [parseArguments_of_parse h, parseArguments_of_parse h']
  refine ⟨fun hpos => ?_, fun hopt => ?_⟩
  · obtain ⟨pos, hp, hpush⟩ := parseLoop_ok_iff.mp ⟨o, hloop⟩
    obtain ⟨pos', hp', hpush'⟩ := parseLoop_ok_iff.mp ⟨o', hloop'⟩
    obtain rfl : pos = pos' := Option.some.inj (hp.symm.trans (hpos.trans hp'))
    rw [hpush] at hpush'
    cases hpush'
    rfl
  · rw [parseLoop_options hloop, parseLoop_options hloop', hopt]

/-- The command lines `command -b value arg0 arg1` and `command arg0 -b value arg1` of the test
parser: the same positional tokens and the same option tokens, in other places, so the same
arguments and the same options. -/
theorem parseArguments_separates_test :
    let p : ArgumentsParser := ⟨[("a", .switchOption "description"),
      ("b", .keyValueOption "valueName" "default" "description")],
      [.singleArgument "arg0" "description", .variableLengthArguments "arg1" 0 2 "description"]⟩
    (p.parseArguments ["command", "-b", "value", "arg0", "arg1"] true).1.isValid = true ∧
    (p.parseArguments ["command", "arg0", "-b", "value", "arg1"] true).1.isValid = true ∧
    positionals p.optionSpecs ["-b", "value", "arg0", "arg1"] =
      positionals p.optionSpecs ["arg0", "-b", "value", "arg1"] ∧
    optionAssignments p.optionSpecs ["-b", "value", "arg0", "arg1"] =
      optionAssignments p.optionSpecs ["arg0", "-b", "value", "arg1"] ∧
    (p.parseArguments ["command", "-b", "value", "arg0", "arg1"] true).1.arguments =
      (p.parseArguments ["command", "arg0", "-b", "value", "arg1"] true).1.arguments ∧
    (p.parseArguments ["command", "-b", "value", "arg0", "arg1"] true).1.options =
      (p.parseArguments ["command", "arg0", "-b", "value", "arg1"] true).1.options :=
  ⟨by decide, by decide, by decide, by decide,
    (parseArguments_separates (by decide) (by decide)).1 (by decide),
    (parseArguments_separates (by decide) (by decide)).2 (by decide)⟩

/-! ## Declared names only -/

/-- Every option `optionAssignments` sets has a spec. -/
theorem mem_keys_of_mem_optionAssignments {optionSpecs : List (String × OptionSpec)} :
    ∀ {args : List String} {kv : String × String}, kv ∈ optionAssignments optionSpecs args →
      kv.1 ∈ optionSpecs.map Prod.fst
  | [], _, h => nomatch h
  | arg :: rest, kv, h => by
    rw [optionAssignments_cons] at h
    by_cases ho : isOption arg
    · cases hf : find optionSpecs (arg.drop 1) with
      | none => simp [ho, hf] at h
      | some spec =>
        have hkey := mem_keys_of_find_isSome (by rw [hf]; rfl : (find optionSpecs (arg.drop 1)).isSome)
        by_cases hv : spec.needsValue
        · cases rest with
          | nil => simp [ho, hf, hv] at h
          | cons v rest =>
            simp only [ho, hf, hv, if_true, List.mem_cons] at h
            exact h.elim (· ▸ hkey) mem_keys_of_mem_optionAssignments
        · simp only [ho, hf, hv, if_true, if_false, Bool.false_eq_true, List.mem_cons] at h
          exact h.elim (· ▸ hkey) mem_keys_of_mem_optionAssignments
    · simp only [ho, if_false, Bool.false_eq_true] at h
      exact mem_keys_of_mem_optionAssignments h

/-- A name the last of some assignments gives a value is assigned by one of them. -/
theorem mem_keys_of_lastValue_isSome {name : String} :
    ∀ {l : List (String × String)}, (lastValue l name).isSome → name ∈ l.map Prod.fst
  | [], h => nomatch h
  | (k, v) :: l, h => by
    rw [lastValue] at h
    rw [List.map_cons, List.mem_cons]
    cases hl : lastValue l name with
    | some _ => exact .inr (mem_keys_of_lastValue_isSome (by rw [hl]; rfl))
    | none =>
      rw [hl, Option.none_or] at h
      split at h
      · next hk => exact .inl hk.symm
      · cases h

/-- The default values are set only for options that have a spec. -/
theorem mem_keys_of_defaultOptions {optionSpecs : List (String × OptionSpec)} {name : String}
    (h : (find (defaultOptions optionSpecs) name).isSome) : name ∈ optionSpecs.map Prod.fst := by
  suffices ∀ (l : List (String × OptionSpec)) (m : List (String × String)),
      (find (l.foldl (fun options entry =>
        if entry.2.needsValue ∧ entry.2.defaultValue ≠ "" then assign options entry.1 entry.2.defaultValue
        else options) m) name).isSome → (find m name).isSome ∨ name ∈ l.map Prod.fst from
    (this optionSpecs [] h).resolve_left nofun
  intro l
  induction l with
  | nil => exact fun _ h => .inl h
  | cons e l ih =>
    intro m h
    rw [List.foldl_cons] at h
    rw [List.map_cons, List.mem_cons]
    rcases ih _ h with h | h
    · split at h
      · rw [find_assign] at h
        split at h
        · next hk => exact .inr (.inl hk.symm)
        · exact .inl h
      · exact .inl h
    · exact .inr (.inr h)

/-- A run of pushes stores arguments only under the names of the specs it fills. -/
theorem mem_keys_of_pushArguments {name : String} : ∀ {pos : List String}
    {arguments a : List (String × List String)} {argumentSpecIt s : List ArgumentSpec},
    pushArguments pos arguments argumentSpecIt = .ok (a, s) → (find a name).isSome →
      (find arguments name).isSome ∨ name ∈ argumentSpecIt.map ArgumentSpec.name
  | [], _, _, _, _, h, hf => by cases h; exact .inl hf
  | arg :: rest, arguments, a, [], s, h, _ => by simp [pushArguments, pushArgument] at h
  | arg :: rest, arguments, a, spec :: specs, s, h, hf => by
    simp only [pushArguments, pushArgument_cons] at h
    rw [List.map_cons, List.mem_cons]
    rcases mem_keys_of_pushArguments h hf with h' | h'
    · rw [pushBack, find_assign] at h'
      split at h'
      · next hk => exact .inr (.inl hk.symm)
      · exact .inl h'
    · split at h'
      · exact .inr (.inr h')
      · rw [List.map_cons, List.mem_cons] at h'
        exact .inr h'

/-- **`parseArguments` stores only declared names.** On every command line, `hasOption` is true
only for a name that an option spec declares, and `getVariableLengthArguments` finds arguments
only under the name of an argument spec. -/
theorem parseArguments_declared (p : ArgumentsParser) (argv : List String) (printErrorMessage : Bool)
    (name : String) :
    ((p.parseArguments argv printErrorMessage).1.hasOption name = true →
      name ∈ p.optionSpecs.map Prod.fst) ∧
    (((p.parseArguments argv printErrorMessage).1.getVariableLengthArguments name).isSome →
      name ∈ p.argumentSpecs.map ArgumentSpec.name) := by
  unfold parseArguments
  split
  · rename_i o a h
    cases argv with
    | nil => cases h
    | cons command args =>
      obtain ⟨s, hloop, -⟩ := parse_cons_ok_iff.mp h
      refine ⟨fun ho => ?_, fun ha => ?_⟩
      · rw [ArgumentsAndOptions.hasOption, parseLoop_options hloop, find_foldl_assign] at ho
        cases hl : lastValue (optionAssignments p.optionSpecs args) name with
        | some _ =>
          obtain ⟨kv, hkv, rfl⟩ := List.mem_map.mp (mem_keys_of_lastValue_isSome (by rw [hl]; rfl))
          exact mem_keys_of_mem_optionAssignments hkv
        | none =>
          rw [hl, Option.none_or] at ho
          exact mem_keys_of_defaultOptions ho
      · obtain ⟨pos, -, hpush⟩ := parseLoop_ok_iff.mp ⟨o, hloop⟩
        exact (mem_keys_of_pushArguments hpush ha).resolve_left nofun
  · exact ⟨nofun, nofun⟩

end ArgumentsParser

end DictToolkit
