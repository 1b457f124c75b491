/-!
# Classes of characters by ranges

A class of characters beyond ASCII is a table of ranges of code points, each with its first and its
last member.

    inRanges ranges c ↔ some range of the table reaches from below c to above it     (inRanges_iff)
-/

namespace PackageCatalog.Text

def inRanges (ranges : List (Nat × Nat)) (c : Char) : Bool :=
  ranges.any fun (first, last) => first ≤ c.toNat && c.toNat ≤ last

theorem inRanges_iff {ranges : List (Nat × Nat)} {c : Char} :
    inRanges ranges c = true ↔ ∃ r ∈ ranges, r.1 ≤ c.toNat ∧ c.toNat ≤ r.2 := by
  simp [inRanges]

end PackageCatalog.Text
