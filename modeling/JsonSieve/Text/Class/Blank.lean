import JsonSieve.Text.Class.Basic

/-!
# White space

The characters with the white-space property (Unicode 16).
-/

namespace JsonSieve.Text

def blankRanges : CharRanges := [
  (0x9, 0xd), (0x20, 0x20), (0x85, 0x85), (0xa0, 0xa0), (0x1680, 0x1680), (0x2000, 0x200a),
  (0x2028, 0x2029), (0x202f, 0x202f), (0x205f, 0x205f), (0x3000, 0x3000)]

def blankTree : CharTree := .ofRanges blankRanges

def isBlank (c : Char) : Bool :=
  blankTree.contains c

end JsonSieve.Text
