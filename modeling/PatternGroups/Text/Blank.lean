/-!
Blank characters: those with the Unicode property White_Space, as they are encoded in UTF-8.
Texts are lists of bytes here. The first byte of a character occurs nowhere inside another one, so
a character may be stripped from either end of a text by its bytes.
-/

namespace PatternGroups.Text

/-- The encodings of the 25 characters that are white space. -/
def blanks : List (List UInt8) :=
  [[0x09], [0x0a], [0x0b], [0x0c], [0x0d], [0x20],
   [0xc2, 0x85],  -- next line
   [0xc2, 0xa0],  -- no-break space
   [0xe1, 0x9a, 0x80],  -- ogham space mark
   [0xe2, 0x80, 0x80], [0xe2, 0x80, 0x81], [0xe2, 0x80, 0x82], [0xe2, 0x80, 0x83],
   [0xe2, 0x80, 0x84], [0xe2, 0x80, 0x85], [0xe2, 0x80, 0x86], [0xe2, 0x80, 0x87],
   [0xe2, 0x80, 0x88], [0xe2, 0x80, 0x89], [0xe2, 0x80, 0x8a],
   [0xe2, 0x80, 0xa8],  -- line separator
   [0xe2, 0x80, 0xa9],  -- paragraph separator
   [0xe2, 0x80, 0xaf],  -- narrow no-break space
   [0xe2, 0x81, 0x9f],  -- medium mathematical space
   [0xe3, 0x80, 0x80]]  -- ideographic space

/-- What follows a given beginning, if a text begins so. -/
def rest? : (beginning text : List UInt8) → Option (List UInt8)
  | [], text => some text
  | _ :: _, [] => none
  | b :: beginning, c :: text => if b = c then rest? beginning text else none

/-- Strips words from the front of a text while it begins with one, at most `n` of them. -/
def stripWords (words : List (List UInt8)) : (n : Nat) → List UInt8 → List UInt8
  | 0, text => text
  | n + 1, text =>
    match words.findSome? (rest? · text) with
    | some rest => stripWords words n rest
    | none => text

/-- Each blank has at least one byte, so no text begins with more of them than it has bytes. -/
def trimStart (text : List UInt8) : List UInt8 :=
  stripWords blanks text.length text

def trimEnd (text : List UInt8) : List UInt8 :=
  (stripWords (blanks.map List.reverse) text.length text.reverse).reverse

def trim (text : List UInt8) : List UInt8 :=
  trimEnd (trimStart text)

end PatternGroups.Text
