/-! # White space

The characters that count as white space in every script, and texts that hold nothing else. -/

namespace RuleFlow.Text

/-- First and last characters of the ranges of white space. -/
def blankRanges : List (Nat × Nat) :=
  [(0x9, 0xd), (0x20, 0x20), (0x85, 0x85), (0xa0, 0xa0), (0x1680, 0x1680), (0x2000, 0x200a),
   (0x2028, 0x2029), (0x202f, 0x202f), (0x205f, 0x205f), (0x3000, 0x3000)]

def isBlankChar (c : Char) : Bool :=
  blankRanges.any fun (first, last) => first ≤ c.toNat && c.toNat ≤ last

/-- A text without any character to see. -/
def isBlank (s : String) : Bool := s.toList.all isBlankChar

end RuleFlow.Text
