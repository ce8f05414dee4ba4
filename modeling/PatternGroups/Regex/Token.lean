import PatternGroups.SymbolSet
import PatternGroups.Regex.Counted

/-!
Tokens of a regex. Every text has tokens: what is not a well-formed construct is literal, byte by
byte.

Main statement: `Lexeme.scan_flatMap_text`, the texts of the tokens, one after the other, are the
regex.
-/

namespace PatternGroups

/-- A value found at a byte of a regex. -/
structure Located (α : Type) where
  offset : Nat
  value : α
deriving DecidableEq

inductive Token where
  | literal (byte : UInt8)
  /-- One of the classes with a letter of their own, such as `\d`. -/
  | shorthand (set : SymbolSet)
  | openGroup
  | closeGroup
  | alternate
  | dot
  /-- The anchor `^`. -/
  | start
  /-- The anchor `$`. -/
  | stop
  | openClass (negated : Bool)
  | closeClass
  /-- A dash between two members of a class. -/
  | rangeDash
  | times (bounds : Bounds)
deriving DecidableEq

/-- A token together with the bytes that it covers. -/
structure Lexeme where
  token : Token
  text : List UInt8

namespace Lexeme

/-- Where the next byte stands: outside of classes, or in one, where it may follow a byte that
could begin a range. -/
inductive Mode where
  | outside
  | inside (rangeable : Bool)
deriving DecidableEq

/-- A literal byte in a class may begin a range. -/
def Mode.afterLiteral : Mode → Mode
  | outside => outside
  | inside _ => inside true

/-- Nothing else may begin one. -/
def Mode.afterShorthand : Mode → Mode
  | outside => outside
  | inside _ => inside false

/-- What a byte begins: the token, the number of bytes it takes beyond that one, and the mode of
the byte that comes next. -/
structure Step where
  token : Token
  extra : Nat
  mode : Mode

def Step.literal (mode : Mode) (byte : UInt8) (extra : Nat) : Step :=
  ⟨.literal byte, extra, mode.afterLiteral⟩

/-- Letters and digits that stand for a control byte after a backslash, and the backslash. -/
def control? : UInt8 → Option UInt8
  | 0x5c => some 0x5c  -- backslash
  | 0x30 => some 0x00  -- 0
  | 0x61 => some 0x07  -- a
  | 0x62 => some 0x08  -- b
  | 0x65 => some 0x1b  -- e
  | 0x66 => some 0x0c  -- f
  | 0x6e => some 0x0a  -- n
  | 0x72 => some 0x0d  -- r
  | 0x74 => some 0x09  -- t
  | 0x76 => some 0x0b  -- v
  | _ => none

/-- Letters that stand for a class of bytes after a backslash. -/
def shorthand? : UInt8 → Option SymbolSet
  | 0x77 => some .wordBytes  -- w
  | 0x64 => some .digitBytes  -- d
  | 0x73 => some .blankBytes  -- s
  | 0x57 => some (.anyByte \ .wordBytes)  -- W
  | 0x44 => some (.anyByte \ .digitBytes)  -- D
  | 0x53 => some (.anyByte \ .blankBytes)  -- S
  | _ => none

/-- The byte written as two hexadecimal digits. -/
def hexByte? : List UInt8 → Option UInt8
  | high :: low :: _ => do return 16 * (← Text.hexDigit? high) + (← Text.hexDigit? low)
  | _ => none

/-- After a backslash. One that ends the regex is literal, and so is one before an `x` without two
hexadecimal digits; a byte without a meaning of its own stands for itself. -/
def escape (mode : Mode) : List UInt8 → Step
  | [] => .literal mode 0x5c 0
  | byte :: rest =>
    match control? byte with
    | some control => .literal mode control 1
    | none =>
      if byte = 0x78 then
        match hexByte? rest with
        | some value => .literal mode value 3
        | none => .literal mode 0x5c 0
      else
        match shorthand? byte with
        | some set => ⟨.shorthand set, 1, mode.afterShorthand⟩
        | none => .literal mode byte 1

/-- In a class, a dash that follows a byte which may begin a range, and does not end the class,
is a range. -/
def inClass (rangeable : Bool) (byte : UInt8) (rest : List UInt8) : Step :=
  if byte = 0x5d then ⟨.closeClass, 0, .outside⟩
  else if byte = 0x2d ∧ rangeable ∧ rest.head?.any (· != 0x5d) then ⟨.rangeDash, 0, .inside false⟩
  else .literal (.inside rangeable) byte 0

/-- After an opening brace: bounds up to the first closing brace, or else the brace is literal. -/
def braces (rest : List UInt8) : Step :=
  let body := rest.takeWhile (· != 0x7d)
  match if body.length < rest.length then Bounds.ofText? body else none with
  | some bounds => ⟨.times bounds, body.length + 1, .outside⟩
  | none => .literal .outside 0x7b 0

/-- After an opening bracket. One that is closed at once is literal. -/
def bracket : List UInt8 → Step
  | 0x5d :: _ => .literal .outside 0x5b 0
  | 0x5e :: _ => ⟨.openClass true, 1, .inside false⟩
  | _ => ⟨.openClass false, 0, .inside false⟩

/-- Outside of classes. -/
def plain (byte : UInt8) (rest : List UInt8) : Step :=
  match byte with
  | 0x5b => bracket rest  -- [
  | 0x7b => braces rest
  | 0x3f => ⟨.times .optional, 0, .outside⟩  -- ?
  | 0x2b => ⟨.times .plus, 0, .outside⟩  -- +
  | 0x2a => ⟨.times .star, 0, .outside⟩  -- *
  | 0x28 => ⟨.openGroup, 0, .outside⟩  -- (
  | 0x29 => ⟨.closeGroup, 0, .outside⟩  -- )
  | 0x7c => ⟨.alternate, 0, .outside⟩  -- |
  | 0x2e => ⟨.dot, 0, .outside⟩  -- .
  | 0x5e => ⟨.start, 0, .outside⟩  -- ^
  | 0x24 => ⟨.stop, 0, .outside⟩  -- $
  | _ => .literal .outside byte 0

def step (mode : Mode) (byte : UInt8) (rest : List UInt8) : Step :=
  if byte = 0x5c then escape mode rest
  else
    match mode with
    | .inside rangeable => inClass rangeable byte rest
    | .outside => plain byte rest

/-- The lexemes of a text, of which the first `covered` bytes belong to the token before. -/
def scanFrom (mode : Mode) : (covered : Nat) → List UInt8 → List Lexeme
  | _, [] => []
  | covered + 1, _ :: rest => scanFrom mode covered rest
  | 0, byte :: rest =>
    let next := step mode byte rest
    ⟨next.token, byte :: rest.take next.extra⟩ :: scanFrom next.mode next.extra rest

def scan (regex : List UInt8) : List Lexeme :=
  scanFrom .outside 0 regex

/-- Lexemes that start at a given byte, each with its offset. -/
def locate : (offset : Nat) → List Lexeme → List (Located Token)
  | _, [] => []
  | offset, l :: rest => ⟨offset, l.token⟩ :: locate (offset + l.text.length) rest

theorem scanFrom_eq_drop (mode : Mode) (covered : Nat) (text : List UInt8) :
    scanFrom mode covered text = scanFrom mode 0 (text.drop covered) := by
  induction text generalizing covered with
  | nil => simp [scanFrom]
  | cons byte rest ih =>
    cases covered with
    | zero => rfl
    | succ n => simpa [scanFrom] using ih n

theorem scanFrom_flatMap_text (mode : Mode) (text : List UInt8) :
    (scanFrom mode 0 text).flatMap (·.text) = text := by
  induction h : text.length using Nat.strongRecOn generalizing mode text with
  | _ n ih =>
    cases text with
    | nil => simp [scanFrom]
    | cons byte rest =>
      have shorter : (rest.drop (step mode byte rest).extra).length < n := by
        rw [← h, List.length_drop, List.length_cons]
        omega
      simp only [scanFrom, List.flatMap_cons, List.cons_append]
      rw [scanFrom_eq_drop, ih _ shorter _ _ rfl, List.take_append_drop]

/-- No byte is left out or covered twice. -/
theorem scan_flatMap_text (regex : List UInt8) : (scan regex).flatMap (·.text) = regex :=
  scanFrom_flatMap_text .outside regex

end Lexeme

/-- The tokens of a regex, each with the offset of its first byte. -/
def Token.ofText (regex : List UInt8) : List (Located Token) :=
  Lexeme.locate 0 (Lexeme.scan regex)

end PatternGroups
