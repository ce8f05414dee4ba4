import PatternGroups.SymbolSet

/-!
Labels of symbol sets, as shown on the edges of a graph: `^` for the border, then `.` for all bytes,
`[abc]` for a few bytes, `[^abc]` for all but a few, and `[abcde]#10` once more than five bytes
would have to be listed.
-/

namespace PatternGroups.SymbolSet

/-- As many bytes are listed in a label, at most. -/
def labelLimit : Nat := 5

/-- Printable ASCII stands for itself, a backslash is doubled, and any other byte is escaped. -/
def byteLabel (code : Nat) : List Char :=
  if code = 0x5c then ['\\', '\\']
  else if code = 0x09 then ['\\', 't']
  else if code = 0x0a then ['\\', 'n']
  else if code = 0x0d then ['\\', 'r']
  else if 0x20 ≤ code ∧ code ≤ 0x7e then [Char.ofNat code]
  else ['\\', 'x', Nat.digitChar (code / 16), Nat.digitChar (code % 16)]

/-- The bytes of a list up to the limit; past it, the number of members in full. -/
def listLabel (listed : SymbolSet) (size : Nat) : List Char :=
  (listed.members.take labelLimit).flatMap (fun symbol => byteLabel symbol.val) ++ [']'] ++
    if listed.count > labelLimit then '#' :: (Nat.repr size).toList else []

def bytesLabel (bytes : SymbolSet) : List Char :=
  if bytes.count = 0 then []
  else if bytes.count = 256 then ['.']
  else if bytes.count ≥ 256 - labelLimit then '[' :: '^' :: listLabel (anyByte \ bytes) bytes.count
  else '[' :: listLabel bytes bytes.count

def labelChars (s : SymbolSet) : List Char :=
  (if s.contains Symbol.border then ['^'] else []) ++ bytesLabel (s ∩ anyByte)

def label (s : SymbolSet) : String :=
  String.ofList s.labelChars

/-- The label, and what it is a label of. -/
def description (s : SymbolSet) : String := s!"CharSet({s.label})"

end PatternGroups.SymbolSet
