import DictToolkit.OffdeviceIntermediateDict.PtNode

/-!
# `getWordProperty`

`OffdeviceIntermediateDict::getWordProperty` (`offdevice_intermediate_dict.cpp:91-123`) as the code
computes it. The outer loop walks down the trie while `i < codePoints.size()`; the inner loop scans
one node array (`scanPtNodes`), and the body run on the sibling whose first code point matches is
`visitPtNode`. Both recurse on the trie itself, so the definitions are structural.

The guard of line 102 compares the label with the whole query, `codePoints.size()`, where the
comparison of lines 105-109 reads up to `codePoints[i + ptNodeCodePoints.size() - 1]`: on a query
that ends inside a label below the root, the read `codePoints[i + j]` runs past the end, and
`compareLabel` returns `Fault.outOfRange` there.
-/

namespace DictToolkit

namespace OffdeviceIntermediateDict

variable {α : Type}

/-- The loop `for (size_t j = 1; j < ptNodeCodePoints.size(); ++j)` of `getWordProperty`
(lines 105-109), run on the view `ptNodeCodePoints.skip(j)`: `false` at the first difference.
Nothing checks the read `codePoints[i + j]`. -/
def compareLabel (codePoints : List Int) (i : Nat) : List Int → Nat → Except Fault Bool
  | [], _ => .ok true
  | p :: ps, j => do
    let c ← readAt codePoints (i + j)
    if c ≠ p then return false else compareLabel codePoints i ps (j + 1)

mutual

/-- The inner loop of `getWordProperty` over one node array at index `i` (lines 96-117). Running
off the end leaves `foundNext` false, and the outer loop breaks. -/
def scanPtNodes (codePoints : List Int) (i : Nat) :
    PtNodeArray α → Except Fault (Option (WordProperty α))
  | [] => .ok none
  | ptNode :: rest => do
    let c ← readAt codePoints i
    let p ← readAt ptNode.ptNodeCodePoints 0
    if c < p then scanPtNodes codePoints i rest
    else if c > p ∨ codePoints.length < ptNode.ptNodeCodePoints.length then return none
    else visitPtNode codePoints i ptNode

/-- The body run on the sibling whose first code point is `codePoints[i]` (lines 105-116): compare
the rest of the label, step `i` past it, then return the payload or go on into the children while
`i < codePoints.size()`. -/
def visitPtNode (codePoints : List Int) (i : Nat) :
    PtNode α → Except Fault (Option (WordProperty α))
  | ⟨ptNodeCodePoints, childrenPtNodeArray, wordProperty⟩ => do
    if !(← compareLabel codePoints i (ptNodeCodePoints.drop 1) 1) then return none
    let i := i + ptNodeCodePoints.length
    if i = codePoints.length then return wordProperty
    else if i < codePoints.length then scanPtNodes codePoints i childrenPtNodeArray
    else return none

end

/-- `OffdeviceIntermediateDict::getWordProperty` (`offdevice_intermediate_dict.cpp:91`). The
result is the returned pointer: `none` for `nullptr`. -/
def getWordProperty (d : OffdeviceIntermediateDict α) (codePoints : List Int) :
    Except Fault (Option (WordProperty α)) :=
  if 0 < codePoints.length then scanPtNodes codePoints 0 d.rootPtNodeArray else .ok none

end OffdeviceIntermediateDict

end DictToolkit
