import Mathlib.Tactic.SplitIfs
import PatternGroups.PrefixParts

/-!
# The order of bytes

Strings are compared by their characters. UTF-8 is made so that this is the order of their bytes,
too: where two characters differ, the first byte that differs is less for the lesser character.

* `bytes_eq`: the bytes of a string are those of its characters;
* `append_encoded_lt`: characters compare as their bytes do, whatever follows;
* `bytes_lt_bytes`, `bytes_le_bytes`: so do strings.
-/

namespace PatternGroups.Text

/-- The bytes of a string. -/
def bytes (s : String) : List UInt8 := s.toUTF8.data.toList

theorem bytes_eq (s : String) : bytes s = s.toList.flatMap String.utf8EncodeChar := by
  rw [bytes, String.toUTF8, ← String.utf8Encode_toList]
  exact List.toList_data_toByteArray

theorem toList_loop_eq (b : ByteArray) (i : Nat) (read : List UInt8) :
    ByteArray.toList.loop b i read = read.reverse ++ b.data.toList.drop i := by
  fun_induction ByteArray.toList.loop b i read with
  | case1 i read more ih =>
    have within : i < b.data.toList.length := more
    rw [ih, List.drop_eq_getElem_cons within]
    simp [ByteArray.get!, more]
  | case2 i read done =>
    have beyond : b.data.toList.length ≤ i := Nat.le_of_not_lt done
    rw [List.drop_eq_nil_of_le beyond, List.append_nil]

theorem toList_toUTF8 (s : String) : s.toUTF8.toList = bytes s := by
  rw [ByteArray.toList, toList_loop_eq]
  rfl

/-- More bytes begin with a greater byte, and as many bytes are digits of the character, of which
the first that differs decides. -/
theorem append_encoded_lt {c d : Char} (h : c < d) (l k : List UInt8) :
    String.utf8EncodeChar c ++ l < String.utf8EncodeChar d ++ k := by
  have less : c.val.toNat < d.val.toNat := h
  have most : d.val.toNat < 0x110000 := by
    rcases d.valid with low | high
    · exact Nat.lt_trans low (by decide)
    · exact high.2
  simp only [String.utf8EncodeChar]
  generalize c.val.toNat = v at *
  generalize d.val.toNat = w at *
  -- One case for each pair of lengths.
  split_ifs <;>
    simp only [List.cons_append, List.nil_append, List.cons_lt_cons_iff, UInt8.lt_iff_toNat_lt,
      ← UInt8.toNat_inj, UInt8.toNat_ofNat'] <;>
    simp (disch := omega) only [Nat.mod_eq_of_lt, Nat.reducePow] <;>
    omega

theorem flatMap_encoded_lt {l k : List Char} (h : l < k) :
    l.flatMap String.utf8EncodeChar < k.flatMap String.utf8EncodeChar := by
  induction h with
  | @nil c rest =>
    obtain ⟨b, others, first⟩ := List.exists_cons_of_ne_nil (String.utf8EncodeChar_ne_nil (c := c))
    rw [List.flatMap_nil, List.flatMap_cons, first]
    exact List.nil_lt_cons b _
  | rel less =>
    simp only [List.flatMap_cons]
    exact append_encoded_lt less _ _
  | cons _ ih =>
    simp only [List.flatMap_cons]
    exact List.append_left_lt ih

theorem bytes_lt_bytes {a b : String} (h : a < b) : bytes a < bytes b := by
  rw [bytes_eq, bytes_eq]
  exact flatMap_encoded_lt (String.lt_iff.1 h)

theorem bytes_le_bytes {a b : String} (h : a ≤ b) : bytes a ≤ bytes b := by
  rcases Std.le_iff_lt_or_eq.1 h with less | rfl
  · exact List.le_of_lt (bytes_lt_bytes less)
  · exact List.le_refl _

/-- Each string is before the next in the order of bytes. -/
def Ascends (strings : List String) : Prop :=
  strings.Pairwise fun a b => bytes a < bytes b

theorem ascends_of_pairwise {strings : List String} (h : strings.Pairwise (· < ·)) :
    Ascends strings :=
  h.imp bytes_lt_bytes

end PatternGroups.Text
