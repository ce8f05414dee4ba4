import PatternGroups.Proofs.Braces
import PatternGroups.Proofs.ByteOrder
import PatternGroups.Regex.Spelling

/-!
# Numerals and bounds

Numbers are written in decimal and bytes in hexadecimal, and both are read as what they were. Bounds
are written without blanks.

* `numeral_decimal`, `hexByte?_hexDigits`: written numbers are read back;
* `Bounds.ofText?_body`, `Bounds.written_of_ofText?`: bounds that are written are read back, and
  only bounds that can be written are read.
-/

namespace PatternGroups

namespace Text

/-! ## ASCII -/

/-- The bytes of characters that have one byte each. -/
def ascii (l : List Char) : List UInt8 := l.map fun c => UInt8.ofNat c.toNat

theorem ascii_append (l k : List Char) : ascii (l ++ k) = ascii l ++ ascii k := List.map_append

/-- The bytes of a string of ASCII characters. -/
theorem toUTF8_ofList {l : List Char} (h : ∀ c ∈ l, c.toNat < 0x80) :
    (String.ofList l).toUTF8.toList = ascii l := by
  have encoded : (String.ofList l).toUTF8.toList = l.flatMap String.utf8EncodeChar := by
    rw [toList_toUTF8, bytes_eq, String.toList_ofList]
  rw [encoded]
  clear encoded
  induction l with
  | nil => rfl
  | cons c rest ih =>
    rw [List.forall_mem_cons] at h
    have single : String.utf8EncodeChar c = [UInt8.ofNat c.toNat] := by
      have low : c.val.toNat ≤ 0x7f := Nat.le_of_lt_succ h.1
      simp only [String.utf8EncodeChar, if_pos low]
      rfl
    rw [List.flatMap_cons, single, ih h.2]
    rfl

/-! ## Numerals -/

theorem digitsFrom?_append (value : Nat) (l k : List UInt8) :
    digitsFrom? value (l ++ k) = (digitsFrom? value l).bind (digitsFrom? · k) := by
  induction l generalizing value with
  | nil => rfl
  | cons byte rest ih =>
    rw [List.cons_append, digitsFrom?, digitsFrom?]
    cases digit? byte with
    | none => rfl
    | some digit => exact ih _

theorem digitsFrom?_digitChar (value : Nat) {digit : Nat} (h : digit < 10) :
    digitsFrom? value (ascii [digit.digitChar]) = some (10 * value + digit) := by
  have read : ∀ digit < 10, digit? (UInt8.ofNat digit.digitChar.toNat) = some digit := by decide
  rw [ascii, List.map_cons, digitsFrom?, read digit h]
  rfl

/-- The digits of a number. -/
def decimal (n : Nat) : List UInt8 := ascii (Nat.toDigits 10 n)

theorem digitsFrom?_decimal (n : Nat) : digitsFrom? 0 (decimal n) = some n := by
  induction n using Nat.strongRecOn with
  | _ n ih =>
    rw [decimal, Nat.toDigits_eq_if (by decide)]
    split
    · rename_i small
      rw [digitsFrom?_digitChar 0 small, Nat.mul_zero, Nat.zero_add]
    · rename_i large
      have shorter : n / 10 < n := Nat.div_lt_self (by omega) (by decide)
      rw [ascii_append, digitsFrom?_append, ← decimal, ih _ shorter]
      refine (digitsFrom?_digitChar _ (Nat.mod_lt n (by decide))).trans ?_
      rw [Nat.div_add_mod]

theorem decimal_ne_nil (n : Nat) : decimal n ≠ [] := by
  simp [decimal, ascii]

/-- Digits are between `0` and `9`. -/
theorem digit_of_mem_toDigits {n : Nat} {c : Char} (h : c ∈ Nat.toDigits 10 n) :
    0x30 ≤ c.toNat ∧ c.toNat ≤ 0x39 := by
  have digit : c.isDigit = true := Nat.isDigit_of_mem_toDigits (by decide) (by decide) h
  simp only [Char.isDigit, Bool.and_eq_true, decide_eq_true_eq, ge_iff_le] at digit
  exact digit

theorem digit_of_mem_decimal {n : Nat} {byte : UInt8} (h : byte ∈ decimal n) :
    0x30 ≤ byte ∧ byte ≤ 0x39 := by
  obtain ⟨c, hc, rfl⟩ := List.mem_map.1 h
  obtain ⟨low, high⟩ := digit_of_mem_toDigits hc
  simp only [UInt8.le_iff_toNat_le, UInt8.toNat_ofNat']
  simp
  omega

theorem numeral_decimal {n : Nat} (h : n < UInt32.size) : Numeral (decimal n) n := by
  obtain ⟨digits, value⟩ := digitsFrom?_eq_some_iff.1 (digitsFrom?_decimal n)
  rw [Nat.zero_mul, Nat.zero_add] at value
  have numeral := Numeral.bare (decimal_ne_nil n) digits (value ▸ h)
  rwa [← value] at numeral

/-! ## Hexadecimal digits -/

theorem hexDigit?_hexDigit (capital : Bool) {value : Nat} (h : value < 16) :
    hexDigit? (UInt8.ofNat (hexDigit capital value).toNat) = some (UInt8.ofNat value) := by
  have read : ∀ capital, ∀ value < 16,
      hexDigit? (UInt8.ofNat (hexDigit capital value).toNat) = some (UInt8.ofNat value) := by
    decide
  exact read capital value h

/-- Two digits are read as the byte that they stand for. -/
theorem hexByte?_hexDigits (capital : Bool) {code : Nat} (h : code < 256) (rest : List UInt8) :
    Lexeme.hexByte? (ascii [hexDigit capital (code / 16), hexDigit capital (code % 16)] ++ rest) =
      some (UInt8.ofNat code) := by
  have high : code / 16 < 16 := by omega
  have low : code % 16 < 16 := Nat.mod_lt code (by decide)
  have value : 16 * UInt8.ofNat (code / 16) + UInt8.ofNat (code % 16) = UInt8.ofNat code := by
    calc 16 * UInt8.ofNat (code / 16) + UInt8.ofNat (code % 16)
      _ = UInt8.ofNat (16 * (code / 16) + code % 16) := by
        rw [UInt8.ofNat_add, UInt8.ofNat_mul]
        rfl
      _ = UInt8.ofNat code := by rw [Nat.div_add_mod]
  simp only [ascii, List.map_cons, List.map_nil, List.cons_append, Lexeme.hexByte?,
    hexDigit?_hexDigit capital high, hexDigit?_hexDigit capital low, Option.bind_eq_bind,
    Option.bind_some, Option.pure_def, value]

end Text

/-! ## Bounds -/

namespace Bounds

open Text

/-- Bounds are read as they are written. -/
theorem ofText?_body {b : Bounds} (h : b.Written) : ofText? (ascii b.body) = some b := by
  obtain ⟨lower, upper⟩ := b
  obtain ⟨small, bounded⟩ := h
  rw [ofText?_eq_some_iff]
  cases upper with
  | none =>
    have braced := Braced.atLeast blank_nil (numeral_decimal small) blank_nil blank_nil
    rw [List.append_nil] at braced
    rw [body, ascii_append]
    exact braced
  | some upper =>
    obtain ⟨le, small'⟩ := bounded upper rfl
    rw [body]
    dsimp only
    split
    · rename_i same
      have braced := Braced.exactly blank_nil (numeral_decimal small') blank_nil
      rw [List.append_nil] at braced
      rw [same]
      exact braced
    · rename_i differ
      have positive : 1 ≤ upper := by
        dsimp only at le
        omega
      have braced := Braced.between blank_nil (numeral_decimal small) blank_nil blank_nil
        (numeral_decimal small') blank_nil positive le
      rw [List.append_nil, List.append_nil] at braced
      rw [ascii_append]
      exact braced

/-- Among digits and commas there is no brace. -/
theorem brace_not_mem_body (b : Bounds) : 0x7d ∉ ascii b.body := by
  have digits (n : Nat) : 0x7d ∉ decimal n := fun h =>
    absurd (digit_of_mem_decimal h).2 (by decide)
  rw [body]
  split
  · rw [ascii_append]
    exact List.not_mem_append (digits _) (by decide)
  · split
    · exact digits _
    · rw [ascii_append]
      exact List.not_mem_append (digits _) (List.not_mem_cons_of_ne_of_not_mem (by decide) (digits _))

/-- Only bounds that can be written are read. -/
theorem written_of_ofText? {text : List UInt8} {b : Bounds} (h : ofText? text = some b) :
    b.Written := by
  have zero : 0 < UInt32.size := by decide
  cases ofText?_eq_some_iff.1 h with
  | exactly _ hn _ => exact ⟨hn.lt, by rintro _ ⟨⟩; exact ⟨Nat.le_refl _, hn.lt⟩⟩
  | atLeast _ hn _ _ => exact ⟨hn.lt, nofun⟩
  | atMost _ _ hm _ _ => exact ⟨zero, by rintro _ ⟨⟩; exact ⟨Nat.zero_le _, hm.lt⟩⟩
  | between _ hn _ _ hm _ _ ordered => exact ⟨hn.lt, by rintro _ ⟨⟩; exact ⟨ordered, hm.lt⟩⟩
  | anyNumber _ _ => exact ⟨zero, nofun⟩

end Bounds

end PatternGroups
