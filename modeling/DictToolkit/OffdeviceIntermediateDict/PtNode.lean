/-!
# The intermediate dictionary's nodes

The data model of `offdevice_intermediate_dict/`: a `WordProperty` payload, the patricia-trie
node `OffdeviceIntermediateDictPtNode` with its four constructors, the node array, and the
dictionary that owns the root array. C++ reaches undefined behaviour in two ways here, and the
model returns a `Fault` for each instead of a value: dereferencing a node's null payload, and
reading a `CodePointArrayView` past its end (`readAt`).

Nodes are values. The C++ shares child lists between a node and its replacement through
`shared_ptr`, but the replaced node is always erased at once, so no node is reachable twice and
value semantics is faithful.
-/

namespace DictToolkit

/-- `WordProperty` (`dictionary/property/word_property.h`, outside this tree). The trie reads
only its code points; the unigram and n-gram data it carries are `properties`, copied unread. -/
structure WordProperty (α : Type) where
  codePoints : List Int
  properties : α
deriving DecidableEq, Repr

/-- `OffdeviceIntermediateDictPtNode`: a label (`mPtNodeCodePoints`), the children array, and
the payload `mWortProperty`, null for a non-terminal node. -/
structure PtNode (α : Type) where
  ptNodeCodePoints : List Int
  childrenPtNodeArray : List (PtNode α)
  wordProperty : Option (WordProperty α)
deriving Repr

/-- `OffdeviceIntermediateDictPtNodeArray`: the `std::list` of a node's children. -/
abbrev PtNodeArray (α : Type) := List (PtNode α)

/-- The undefined behaviour a run of the C++ can reach. -/
inductive Fault
  /-- `*ptNode.mWortProperty` on a node whose payload is null. -/
  | nullWordProperty
  /-- `CodePointArrayView::operator[]` at `index` on a view of `size` elements. -/
  | outOfRange (index size : Nat)
deriving DecidableEq, Repr

@[simp] theorem Except.ok_bind {ε α β : Type} (a : α) (f : α → Except ε β) :
    (Except.ok a >>= f) = f a := rfl

@[simp] theorem Except.error_bind {ε α β : Type} (e : ε) (f : α → Except ε β) :
    (Except.error e >>= f) = Except.error e := rfl

@[simp] theorem Except.pure_eq_ok {ε α : Type} (a : α) : (pure a : Except ε α) = .ok a := rfl

/-- `codePoints[i]` where no check guards the read: the element, or a `Fault`. -/
def readAt (codePoints : List Int) (i : Nat) : Except Fault Int :=
  if h : i < codePoints.length then .ok codePoints[i] else .error (.outOfRange i codePoints.length)

theorem readAt_eq_ok {codePoints : List Int} {i : Nat} {c : Int} :
    readAt codePoints i = .ok c ↔ codePoints[i]? = some c := by
  unfold readAt
  split
  · simp [List.getElem?_eq_getElem ‹_›, eq_comm]
  · simp [List.getElem?_eq_none (Nat.le_of_not_lt ‹_›)]

theorem readAt_of_lt {codePoints : List Int} {i : Nat} (h : i < codePoints.length) :
    readAt codePoints i = .ok codePoints[i] := dif_pos h

@[simp] theorem readAt_cons_zero (c : Int) (cs : List Int) : readAt (c :: cs) 0 = .ok c := by
  simp [readAt]

/-- A view's first element reads as `c` exactly when the view starts with `c`. -/
theorem readAt_zero_eq_ok {codePoints : List Int} {c : Int} :
    readAt codePoints 0 = .ok c ↔ ∃ t, codePoints = c :: t := by
  cases codePoints <;> simp [readAt, eq_comm]

@[simp] theorem readAt_nil (i : Nat) : readAt [] i = .error (.outOfRange i 0) := rfl

namespace PtNode

variable {α : Type}

/-- Non-terminal constructor (`offdevice_intermediate_dict_pt_node.h:32`). -/
def nonTerminal (ptNodeCodePoints : List Int) : PtNode α :=
  ⟨ptNodeCodePoints, [], none⟩

/-- Terminal constructor (`offdevice_intermediate_dict_pt_node.h:37`). -/
def terminal (ptNodeCodePoints : List Int) (wordProperty : WordProperty α) : PtNode α :=
  ⟨ptNodeCodePoints, [], some wordProperty⟩

/-- The label-replacement constructor (`offdevice_intermediate_dict_pt_node.h:43`). It copies
`ptNode`'s children and builds `new WordProperty(*ptNode.mWortProperty)`: on a node without a
payload that dereferences null. -/
def replacePtNodeCodePoints (ptNodeCodePoints : List Int) (ptNode : PtNode α) :
    Except Fault (PtNode α) :=
  match ptNode.wordProperty with
  | some wordProperty => .ok ⟨ptNodeCodePoints, ptNode.childrenPtNodeArray, some wordProperty⟩
  | none => .error .nullWordProperty

/-- The payload-replacement constructor (`offdevice_intermediate_dict_pt_node.h:50`). -/
def replaceWordProperty (wordProperty : WordProperty α) (ptNode : PtNode α) : PtNode α :=
  ⟨ptNode.ptNodeCodePoints, ptNode.childrenPtNodeArray, some wordProperty⟩

@[simp] theorem replacePtNodeCodePoints_some {l : List Int} {ch : PtNodeArray α}
    {w : WordProperty α} (l' : List Int) :
    replacePtNodeCodePoints l' ⟨l, ch, some w⟩ = .ok ⟨l', ch, some w⟩ := rfl

@[simp] theorem replacePtNodeCodePoints_none {l : List Int} {ch : PtNodeArray α} (l' : List Int) :
    replacePtNodeCodePoints l' (⟨l, ch, none⟩ : PtNode α) = .error .nullWordProperty := rfl

end PtNode

/-- `OffdeviceIntermediateDictHeader::AttributeMap`, carried through unread. -/
abbrev AttributeMap := List (List Int × List Int)

/-- `OffdeviceIntermediateDict`: the header and the root node array. -/
structure OffdeviceIntermediateDict (α : Type) where
  header : AttributeMap
  rootPtNodeArray : PtNodeArray α
deriving Repr

/-- The constructor `OffdeviceIntermediateDict(header)`: an empty trie. -/
def OffdeviceIntermediateDict.empty {α : Type} (header : AttributeMap) :
    OffdeviceIntermediateDict α :=
  ⟨header, []⟩

@[simp] theorem OffdeviceIntermediateDict.empty_rootPtNodeArray {α : Type} (header : AttributeMap) :
    (OffdeviceIntermediateDict.empty header : OffdeviceIntermediateDict α).rootPtNodeArray = [] :=
  rfl

end DictToolkit
