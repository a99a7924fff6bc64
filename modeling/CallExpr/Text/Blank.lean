/-!
# Blank characters

* `isBlank`: the characters with the Unicode property `White_Space`.
* `collapse`: every run of blank characters becomes one space.
-/

namespace CallExpr.Text

/-- The characters with the Unicode property `White_Space`, as ranges of code points. -/
def blankRanges : List (Nat × Nat) :=
  [(0x9, 0xD), (0x20, 0x20), (0x85, 0x85), (0xA0, 0xA0), (0x1680, 0x1680), (0x2000, 0x200A), (0x2028, 0x2029),
    (0x202F, 0x202F), (0x205F, 0x205F), (0x3000, 0x3000)]

/-- Is the code point of `c` in one of the ranges? -/
def inRanges (ranges : List (Nat × Nat)) (c : Char) : Bool :=
  ranges.any fun (low, high) => low ≤ c.toNat && c.toNat ≤ high

def isBlank (c : Char) : Bool :=
  inRanges blankRanges c

/-- Writes one space for each run of blank characters; `inRun` says that a blank character stands before the list. -/
def collapseFrom : (inRun : Bool) → List Char → List Char
  | _, [] => []
  | inRun, c :: cs =>
    if isBlank c then (if inRun then collapseFrom true cs else ' ' :: collapseFrom true cs)
    else c :: collapseFrom false cs

/-- Every run of blank characters becomes one space; the other characters stay. -/
def collapse (s : String) : String :=
  .ofList (collapseFrom false s.toList)

/-- The plain space is blank. -/
theorem isBlank_space : isBlank ' ' = true := by decide

end CallExpr.Text
