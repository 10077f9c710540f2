import BitValidity.Predicate.Basic

/-!
# Valid sets

What a leaf accepts, described by ranges of bit patterns for a diagnostic. A predicate that is not
described so has the empty set of ranges.
-/

namespace BitValidity

variable {κ : Type}

namespace Predicate

/-- The values that a leaf accepts. -/
def validSet : Predicate κ → BitRanges
  | allValid size _ => ⟨[⟨.zeros size.toNat, .ones size.toNat⟩]⟩
  | nonZero size _ _ =>
    if size = 0 then .empty else ⟨[⟨.ofUnsigned 1 size.toNat, .ones size.toNat⟩]⟩
  | intRanges width _ ranges _ => .ofUnsigned (ranges.map fun r => (r.first, r.last)) width.bytes
  | noneValid .. | custom .. | allOf .. | oneOf .. | passthrough .. => .empty

end Predicate

end BitValidity
