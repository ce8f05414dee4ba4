import Mathlib.Data.List.TakeWhile
import Mathlib.Data.Nat.Digits.Defs
import Mathlib.Tactic.Ring
import PatternGroups.Regex.Counted

/-!
# What stands between braces

Bounds are numerals around a comma, with blanks around each part. Reading them strips blanks three
times, finds the comma and reads numerals; what can be read so is told by a grammar of five forms.

* `Text.exists_trim`, `Text.trim_surrounded`: blanks are stripped from both ends, as far as they go;
* `Text.numeral?_eq_some_iff`: numerals and their values;
* `Bounds.ofText?_eq_some_iff`: the forms of bounds.
-/

namespace PatternGroups

namespace Text

/-! ## Blanks -/

/-- The characters with the Unicode property White_Space. -/
def whiteSpace : List Char :=
  ['\t', '\n', '\x0b', '\x0c', '\r', ' ', '\u0085', '\u00a0', '\u1680', '\u2000', '\u2001',
   '\u2002', '\u2003', '\u2004', '\u2005', '\u2006', '\u2007', '\u2008', '\u2009', '\u200a',
   '\u2028', '\u2029', '\u202f', '\u205f', '\u3000']

/-- White space only, as UTF-8. -/
def Blank (text : List UInt8) : Prop :=
  ∃ l : List Char, (∀ c ∈ l, c ∈ whiteSpace) ∧ text = l.flatMap String.utf8EncodeChar

theorem blanks_eq : blanks = whiteSpace.map String.utf8EncodeChar := by decide

theorem blank_iff {text : List UInt8} :
    Blank text ↔ ∃ words : List (List UInt8), (∀ w ∈ words, w ∈ blanks) ∧ text = words.flatten := by
  rw [blanks_eq]
  constructor
  · rintro ⟨l, white, rfl⟩
    refine ⟨l.map String.utf8EncodeChar, fun w hw => ?_, List.flatMap_def⟩
    obtain ⟨c, hc, rfl⟩ := List.mem_map.1 hw
    exact List.mem_map_of_mem (white c hc)
  · rintro ⟨words, each, rfl⟩
    induction words with
    | nil => exact ⟨[], by simp, rfl⟩
    | cons w words ih =>
      rw [List.forall_mem_cons] at each
      obtain ⟨c, hc, rfl⟩ := List.mem_map.1 each.1
      obtain ⟨l, white, same⟩ := ih each.2
      exact ⟨c :: l, List.forall_mem_cons.2 ⟨hc, white⟩, by rw [List.flatten_cons, same]; rfl⟩

theorem blank_nil : Blank [] := ⟨[], by simp, rfl⟩

theorem Blank.append {s t : List UInt8} (hs : Blank s) (ht : Blank t) : Blank (s ++ t) := by
  obtain ⟨l, hl, rfl⟩ := hs
  obtain ⟨k, hk, rfl⟩ := ht
  exact ⟨l ++ k, List.forall_mem_append.2 ⟨hl, hk⟩, List.flatMap_append.symm⟩

/-- Bytes of visible characters; no blank begins or ends with one. -/
def Visible (byte : UInt8) : Prop := 0x21 ≤ byte ∧ byte ≤ 0x7e

instance (byte : UInt8) : Decidable (Visible byte) := inferInstanceAs (Decidable (_ ∧ _))

theorem Blank.not_visible {s : List UInt8} (h : Blank s) : ∀ b ∈ s, ¬Visible b := by
  obtain ⟨words, each, rfl⟩ := blank_iff.1 h
  have all : ∀ w ∈ blanks, ∀ b ∈ w, ¬Visible b := by decide +kernel
  intro b hb
  obtain ⟨w, hw, mem⟩ := List.mem_flatten.1 hb
  exact all w (each w hw) b mem

/-! ## Stripping words -/

theorem rest?_eq_some_iff {w text rest : List UInt8} :
    rest? w text = some rest ↔ text = w ++ rest := by
  induction w generalizing text with
  | nil => simp [rest?]
  | cons b w ih =>
    cases text with
    | nil => simp [rest?]
    | cons c text =>
      rw [rest?]
      split
      · rename_i same
        rw [ih, same, List.cons_append, List.cons.injEq, and_iff_right rfl]
      · rename_i differ
        exact iff_of_false nofun fun same => differ (List.cons.inj same).1.symm

section
variable {words : List (List UInt8)} {text rest : List UInt8}

theorem exists_stripWords (words : List (List UInt8)) (n : Nat) (text : List UInt8) :
    ∃ stripped : List (List UInt8), (∀ w ∈ stripped, w ∈ words) ∧
      text = stripped.flatten ++ stripWords words n text := by
  induction n generalizing text with
  | zero => exact ⟨[], by simp, rfl⟩
  | succ n ih =>
    rw [stripWords]
    cases found : words.findSome? (rest? · text) with
    | none => exact ⟨[], by simp, rfl⟩
    | some rest =>
      obtain ⟨w, hw, begins⟩ := List.exists_of_findSome?_eq_some found
      obtain ⟨stripped, each, same⟩ := ih rest
      refine ⟨w :: stripped, List.forall_mem_cons.2 ⟨hw, each⟩, ?_⟩
      rw [List.flatten_cons, List.append_assoc, ← same]
      exact rest?_eq_some_iff.1 begins

/-- Words of which none begins another one, and none with a visible byte. -/
structure Strippable (words : List (List UInt8)) : Prop where
  first : ∀ w ∈ words, ∃ b ∈ w.head?, ¬Visible b
  alone : ∀ w ∈ words, ∀ v ∈ words, v <+: w → v = w

theorem Strippable.findSome?_eq_none (h : Strippable words) (visible : ∀ b ∈ rest.head?, Visible b) :
    words.findSome? (rest? · rest) = none := by
  rw [List.findSome?_eq_none_iff]
  intro w hw
  obtain ⟨b, first, blank⟩ := h.first w hw
  obtain ⟨others, rfl⟩ := List.head?_eq_some_iff.1 first
  rw [Option.eq_none_iff_forall_ne_some]
  intro left begins
  rw [rest?_eq_some_iff.1 begins] at visible
  exact blank (visible b rfl)

theorem Strippable.findSome?_eq_some (h : Strippable words) {w : List UInt8} (hw : w ∈ words)
    (rest : List UInt8) : words.findSome? (rest? · (w ++ rest)) = some rest := by
  have begins : rest? w (w ++ rest) = some rest := rest?_eq_some_iff.2 rfl
  cases found : words.findSome? (rest? · (w ++ rest)) with
  | none =>
    rw [List.findSome?_eq_none_iff] at found
    cases (found w hw).symm.trans begins
  | some left =>
    obtain ⟨v, hv, begins'⟩ := List.exists_of_findSome?_eq_some found
    have same := rest?_eq_some_iff.1 begins'
    -- Of two words that begin one text, one begins the other.
    have equal : v = w := by
      rcases List.prefix_or_prefix_of_prefix ⟨left, same.symm⟩ ⟨rest, rfl⟩ with shorter | longer
      · exact h.alone w hw v hv shorter
      · exact (h.alone v hv w hw longer).symm
    subst equal
    rw [List.append_cancel_left same]

theorem Strippable.strip (h : Strippable words) {stripped : List (List UInt8)}
    (each : ∀ w ∈ stripped, w ∈ words) (visible : ∀ b ∈ rest.head?, Visible b) {n : Nat}
    (enough : stripped.length ≤ n) : stripWords words n (stripped.flatten ++ rest) = rest := by
  induction stripped generalizing n with
  | nil =>
    cases n with
    | zero => rfl
    | succ n => rw [List.flatten_nil, List.nil_append, stripWords, h.findSome?_eq_none visible]
  | cons w stripped ih =>
    rw [List.forall_mem_cons] at each
    cases n with
    | zero => cases enough
    | succ n =>
      rw [List.flatten_cons, List.append_assoc, stripWords, h.findSome?_eq_some each.1]
      exact ih each.2 (Nat.le_of_succ_le_succ enough)

/-- There are no more words than bytes. -/
theorem Strippable.length_le (h : Strippable words) {stripped : List (List UInt8)}
    (each : ∀ w ∈ stripped, w ∈ words) : stripped.length ≤ stripped.flatten.length := by
  induction stripped with
  | nil => exact Nat.le_refl 0
  | cons w stripped ih =>
    rw [List.forall_mem_cons] at each
    obtain ⟨b, first, -⟩ := h.first w each.1
    obtain ⟨others, rfl⟩ := List.head?_eq_some_iff.1 first
    have := ih each.2
    simp only [List.flatten_cons, List.length_append, List.length_cons]
    omega

end

theorem strippable_blanks : Strippable blanks := ⟨by decide, by decide⟩

theorem strippable_reversed : Strippable (blanks.map List.reverse) := ⟨by decide, by decide⟩

/-! ## Trimming -/

theorem reverse_blank_iff {text : List UInt8} : Blank text.reverse ↔
    ∃ words : List (List UInt8), (∀ w ∈ words, w ∈ blanks.map List.reverse) ∧ text = words.flatten := by
  rw [blank_iff]
  constructor
  · rintro ⟨words, each, same⟩
    refine ⟨(words.map List.reverse).reverse, fun w hw => ?_, ?_⟩
    · obtain ⟨v, hv, rfl⟩ := List.mem_map.1 (List.mem_reverse.1 hw)
      exact List.mem_map_of_mem (each v hv)
    · rw [← List.reverse_flatten, ← same, List.reverse_reverse]
  · rintro ⟨words, each, rfl⟩
    refine ⟨(words.map List.reverse).reverse, fun w hw => ?_, List.reverse_flatten⟩
    obtain ⟨v, hv, rfl⟩ := List.mem_map.1 (List.mem_reverse.1 hw)
    obtain ⟨u, hu, rfl⟩ := List.mem_map.1 (each v hv)
    rwa [List.reverse_reverse]

theorem exists_trimStart (text : List UInt8) : ∃ s, Blank s ∧ text = s ++ trimStart text := by
  obtain ⟨words, each, same⟩ := exists_stripWords blanks text.length text
  exact ⟨words.flatten, blank_iff.2 ⟨words, each, rfl⟩, same⟩

theorem exists_trimEnd (text : List UInt8) : ∃ s, Blank s ∧ text = trimEnd text ++ s := by
  obtain ⟨words, each, same⟩ :=
    exists_stripWords (blanks.map List.reverse) text.reverse.length text.reverse
  refine ⟨words.flatten.reverse, ?_, ?_⟩
  · rw [reverse_blank_iff]
    exact ⟨words, each, rfl⟩
  · rw [List.length_reverse] at same
    rw [trimEnd, ← List.reverse_append, ← same, List.reverse_reverse]

/-- Nothing but blanks is stripped. -/
theorem exists_trim (text : List UInt8) :
    ∃ s t, Blank s ∧ Blank t ∧ text = s ++ trim text ++ t := by
  obtain ⟨s, hs, same⟩ := exists_trimStart text
  obtain ⟨t, ht, same'⟩ := exists_trimEnd (trimStart text)
  refine ⟨s, t, hs, ht, ?_⟩
  rw [trim, List.append_assoc, ← same']
  exact same

theorem trimStart_append {s rest : List UInt8} (hs : Blank s) (h : ∀ b ∈ rest.head?, Visible b) :
    trimStart (s ++ rest) = rest := by
  obtain ⟨words, each, rfl⟩ := blank_iff.1 hs
  refine strippable_blanks.strip each h ?_
  rw [List.length_append]
  exact Nat.le_add_right_of_le (strippable_blanks.length_le each)

theorem trimEnd_append {s rest : List UInt8} (hs : Blank s) (h : ∀ b ∈ rest.getLast?, Visible b) :
    trimEnd (rest ++ s) = rest := by
  rw [← s.reverse_reverse] at hs
  obtain ⟨words, each, same⟩ := reverse_blank_iff.1 hs
  rw [trimEnd, List.reverse_append, same, strippable_reversed.strip each, List.reverse_reverse]
  · rwa [List.head?_reverse]
  · have length : s.length = words.flatten.length := by rw [← same, List.length_reverse]
    rw [List.length_append, length]
    exact Nat.le_add_left_of_le (strippable_reversed.length_le each)

/-- Blanks go from around a text that neither begins nor ends with one. -/
theorem trim_surrounded {s t core : List UInt8} (hs : Blank s) (ht : Blank t)
    (first : ∀ b ∈ core.head?, Visible b) (last : ∀ b ∈ core.getLast?, Visible b) :
    trim (s ++ core ++ t) = core := by
  -- If nothing is left, both blanks are stripped from the front at once.
  cases core with
  | nil =>
    have all : trimStart (s ++ t ++ []) = [] := trimStart_append (hs.append ht) nofun
    rw [List.append_nil] at all
    rw [trim, List.append_nil, all]
    rfl
  | cons b core =>
    have front : trimStart (s ++ (b :: core ++ t)) = b :: core ++ t := trimStart_append hs first
    rw [trim, List.append_assoc, front, trimEnd_append ht last]

/-! ## Numerals -/

def Digit (byte : UInt8) : Prop := 0x30 ≤ byte ∧ byte ≤ 0x39

instance (byte : UInt8) : Decidable (Digit byte) := inferInstanceAs (Decidable (_ ∧ _))

/-- The number that decimal digits stand for. -/
def digitsValue (digits : List UInt8) : Nat :=
  Nat.ofDigits 10 (digits.reverse.map fun d => d.toNat - 0x30)

/-- A numeral and its value: digits, after a plus sign or not, for a number below `2 ^ 32`. -/
inductive Numeral : List UInt8 → Nat → Prop
  | bare {digits : List UInt8} (some : digits ≠ []) (each : ∀ d ∈ digits, Digit d)
      (small : digitsValue digits < 2 ^ 32) : Numeral digits (digitsValue digits)
  | signed {digits : List UInt8} (some : digits ≠ []) (each : ∀ d ∈ digits, Digit d)
      (small : digitsValue digits < 2 ^ 32) : Numeral (0x2b :: digits) (digitsValue digits)

theorem digitsFrom?_eq_some_iff {value n : Nat} {digits : List UInt8} :
    digitsFrom? value digits = some n ↔
      (∀ d ∈ digits, Digit d) ∧ n = value * 10 ^ digits.length + digitsValue digits := by
  induction digits generalizing value with
  | nil => simp [digitsFrom?, digitsValue, eq_comm]
  | cons d rest ih =>
    have last : digitsValue (d :: rest) =
        digitsValue rest + 10 ^ rest.length * (d.toNat - 0x30) := by
      simp [digitsValue, Nat.ofDigits_append]
    rw [digitsFrom?, List.forall_mem_cons, last, List.length_cons, pow_succ]
    by_cases hd : Digit d
    · have read : digit? d = some (d.toNat - 0x30) := if_pos hd
      rw [read, Option.bind_eq_bind, Option.bind_some, ih, and_iff_right hd]
      refine and_congr_right fun _ => ?_
      ring_nf
    · have fails : digit? d = none := if_neg hd
      rw [fails, Option.bind_eq_bind, Option.bind_none]
      refine iff_of_false (fun read => ?_) fun h => hd h.1.1
      cases read

theorem unsigned?_eq_some_iff {digits : List UInt8} {n : Nat} :
    unsigned? digits = some n ↔
      digits ≠ [] ∧ (∀ d ∈ digits, Digit d) ∧ n = digitsValue digits ∧ n < 2 ^ 32 := by
  cases digits with
  | nil => exact iff_of_false nofun fun h => h.1 rfl
  | cons d rest =>
    rw [unsigned?, Option.filter_eq_some_iff, digitsFrom?_eq_some_iff, Nat.zero_mul, Nat.zero_add,
      decide_eq_true_eq, and_assoc]
    · exact (and_iff_right (List.cons_ne_nil d rest)).symm
    · exact nofun

theorem numeral?_eq_some_iff {text : List UInt8} {n : Nat} :
    numeral? text = some n ↔ Numeral text n := by
  constructor
  · intro h
    unfold numeral? at h
    split at h
    · obtain ⟨some, each, rfl, small⟩ := unsigned?_eq_some_iff.1 h
      exact .signed some each small
    · obtain ⟨some, each, rfl, small⟩ := unsigned?_eq_some_iff.1 h
      exact .bare some each small
  · intro h
    cases h with
    | bare some each small =>
      rw [numeral?]
      · exact unsigned?_eq_some_iff.2 ⟨some, each, rfl, small⟩
      · rintro digits rfl
        exact absurd (each 0x2b List.mem_cons_self) (by decide)
    | signed some each small => exact unsigned?_eq_some_iff.2 ⟨some, each, rfl, small⟩

theorem Numeral.visible {text : List UInt8} {n : Nat} (h : Numeral text n) :
    ∀ b ∈ text, Visible b ∧ b ≠ 0x2c ∧ b ≠ 0x7b ∧ b ≠ 0x7d := by
  have digit {d : UInt8} (hd : Digit d) : Visible d ∧ d ≠ 0x2c ∧ d ≠ 0x7b ∧ d ≠ 0x7d := by
    have differ {c : UInt8} (hc : ¬Digit c) : d ≠ c := by
      rintro rfl
      exact hc hd
    exact ⟨⟨UInt8.le_trans (by decide) hd.1, UInt8.le_trans hd.2 (by decide)⟩,
      differ (by decide), differ (by decide), differ (by decide)⟩
  cases h with
  | bare some each small => exact fun b hb => digit (each b hb)
  | signed some each small =>
    exact List.forall_mem_cons.2 ⟨by decide, fun b hb => digit (each b hb)⟩

theorem Numeral.ne_nil {text : List UInt8} {n : Nat} (h : Numeral text n) : text ≠ [] := by
  cases h with
  | bare some each small => exact some
  | signed some each small => exact List.cons_ne_nil _ _

theorem Numeral.lt {text : List UInt8} {n : Nat} (h : Numeral text n) : n < UInt32.size := by
  cases h with
  | bare _ _ small => exact small
  | signed _ _ small => exact small

/-! ## Parts around a comma -/

/-- A part of bounds: no blank and no comma. -/
def Solid (part : List UInt8) : Prop := ∀ b ∈ part, Visible b ∧ b ≠ Bounds.comma

section
variable {part : List UInt8}

theorem solid_nil : Solid [] := nofun

theorem Numeral.solid {n : Nat} (h : Numeral part n) : Solid part :=
  fun b hb => ⟨(h.visible b hb).1, (h.visible b hb).2.1⟩

theorem Blank.comma_not_mem (h : Blank part) : Bounds.comma ∉ part :=
  fun mem => h.not_visible Bounds.comma mem (by decide)

theorem Solid.head (h : Solid part) : ∀ b ∈ part.head?, Visible b :=
  fun b hb => (h b (List.mem_of_mem_head? hb)).1

theorem Solid.last (h : Solid part) : ∀ b ∈ part.getLast?, Visible b :=
  fun b hb => (h b (List.mem_of_mem_getLast? hb)).1

theorem Solid.trim {s t : List UInt8} (h : Solid part) (hs : Blank s) (ht : Blank t) :
    Text.trim (s ++ part ++ t) = part := trim_surrounded hs ht h.head h.last

end

end Text

/-! ## Bounds -/

namespace Bounds

open Text

/-- What can stand between braces, and the bounds that it gives. -/
inductive Braced : List UInt8 → Bounds → Prop
  | exactly {s text t : List UInt8} {n : Nat} (hs : Blank s) (h : Numeral text n) (ht : Blank t) :
      Braced (s ++ text ++ t) ⟨n, some n⟩
  | atLeast {s text t u : List UInt8} {n : Nat} (hs : Blank s) (h : Numeral text n) (ht : Blank t)
      (hu : Blank u) : Braced (s ++ text ++ t ++ comma :: u) ⟨n, none⟩
  | atMost {s t text u : List UInt8} {m : Nat} (hs : Blank s) (ht : Blank t) (h : Numeral text m)
      (hu : Blank u) (positive : 1 ≤ m) : Braced (s ++ comma :: (t ++ text ++ u)) ⟨0, some m⟩
  | between {s low t u high v : List UInt8} {n m : Nat} (hs : Blank s) (hn : Numeral low n)
      (ht : Blank t) (hu : Blank u) (hm : Numeral high m) (hv : Blank v) (positive : 1 ≤ m)
      (ordered : n ≤ m) : Braced (s ++ low ++ t ++ comma :: (u ++ high ++ v)) ⟨n, some m⟩
  | anyNumber {s t : List UInt8} (hs : Blank s) (ht : Blank t) : Braced (s ++ comma :: t) ⟨0, none⟩

/-- Without a comma. -/
theorem ofText?_alone {s low t : List UInt8} (hs : Blank s) (solid : Solid low) (some : low ≠ [])
    (ht : Blank t) : ofText? (s ++ low ++ t) = ofParts? low none := by
  have inner : ∀ b ∈ low, (b != comma) = true := fun b hb => bne_iff_ne.2 (solid b hb).2
  have trimmed : Text.trim low = low := by
    have := solid.trim blank_nil blank_nil
    rwa [List.nil_append, List.append_nil] at this
  simp only [ofText?, solid.trim hs ht, List.isEmpty_iff, some, if_false,
    List.takeWhile_eq_self_iff.2 inner, List.dropWhile_eq_nil_iff.2 inner, trimmed]

/-- Blanks before a comma, with those that are stripped first. -/
theorem exists_front {s low t : List UInt8} (hs : Blank s) (hl : Solid low) (ht : Blank t) :
    ∃ s' t', Blank s' ∧ Blank t' ∧ s ++ low ++ t = s' ++ (low ++ t') ∧
      ∀ rest, ∀ b ∈ (low ++ t' ++ comma :: rest).head?, Visible b := by
  cases low with
  | nil =>
    refine ⟨s ++ t, [], hs.append ht, blank_nil, by simp, ?_⟩
    rintro rest _ ⟨⟩
    decide
  | cons b low => exact ⟨s, t, hs, ht, List.append_assoc .., fun rest => hl.head⟩

/-- Blanks after a comma, with those that are stripped first. -/
theorem exists_back {u high v : List UInt8} (hu : Blank u) (hh : Solid high) (hv : Blank v) :
    ∃ u' v', Blank u' ∧ Blank v' ∧ u ++ high ++ v = u' ++ high ++ v' ∧
      ∀ front, ∀ b ∈ (front ++ comma :: (u' ++ high)).getLast?, Visible b := by
  rcases List.eq_nil_or_concat high with rfl | ⟨high, last, rfl⟩
  · refine ⟨[], u ++ v, blank_nil, hu.append hv, by simp, fun front => ?_⟩
    rw [List.append_nil, List.getLast?_concat]
    rintro _ ⟨⟩
    decide
  · refine ⟨u, v, hu, hv, rfl, fun front => ?_⟩
    rw [List.concat_eq_append] at hh ⊢
    rw [← List.append_assoc, ← List.cons_append, ← List.append_assoc, List.getLast?_concat]
    rintro _ ⟨⟩
    exact (hh last (by simp)).1

/-- Both sides of a comma. -/
theorem ofText?_comma {s low t u high v : List UInt8} (hs : Blank s) (hl : Solid low)
    (ht : Blank t) (hu : Blank u) (hh : Solid high) (hv : Blank v) :
    ofText? (s ++ low ++ t ++ comma :: (u ++ high ++ v)) = ofParts? low (some high) := by
  obtain ⟨s', t', hs', ht', front, first⟩ := exists_front hs hl ht
  obtain ⟨u', v', hu', hv', back, last⟩ := exists_back hu hh hv
  have parts : s ++ low ++ t ++ comma :: (u ++ high ++ v) =
      s' ++ (low ++ t' ++ comma :: (u' ++ high)) ++ v' := by
    rw [front, back]
    simp
  have trimmed := trim_surrounded hs' hv' (first (u' ++ high)) (last (low ++ t'))
  have inner : ∀ b ∈ low ++ t', (b != comma) = true := by
    refine List.forall_mem_append.2 ⟨fun b hb => bne_iff_ne.2 (hl b hb).2, fun b hb => ?_⟩
    exact bne_iff_ne.2 (ne_of_mem_of_not_mem hb ht'.comma_not_mem)
  have before : (low ++ t' ++ comma :: (u' ++ high)).takeWhile (· != comma) = low ++ t' := by
    rw [List.takeWhile_append_of_pos inner]
    simp
  have after : (low ++ t' ++ comma :: (u' ++ high)).dropWhile (· != comma) =
      comma :: (u' ++ high) := by
    rw [List.dropWhile_append_of_pos inner]
    simp
  have single : (u' ++ high).contains comma = false := by
    have absent : comma ∉ u' ++ high :=
      List.not_mem_append hu'.comma_not_mem fun mem => (hh comma mem).2 rfl
    simpa using absent
  have low' : Text.trim (low ++ t') = low := hl.trim blank_nil ht'
  have high' : Text.trim (u' ++ high) = high := by
    have := hh.trim hu' blank_nil
    rwa [List.append_nil] at this
  have some : (low ++ t' ++ comma :: (u' ++ high)).isEmpty = false := by simp
  simp only [ofText?, parts, trimmed, some, before, after, low', single, high', Bool.false_eq_true,
    if_false]

/-- A lower bound left out is zero. -/
theorem lower?_eq_some_iff {low : List UInt8} {n : Nat} :
    lower? low = some n ↔ low = [] ∧ n = 0 ∨ Numeral low n := by
  rw [lower?]
  split
  · rename_i none
    rw [List.isEmpty_iff] at none
    subst none
    rw [Option.some.injEq, eq_comm, or_iff_left fun h => h.ne_nil rfl, and_iff_right rfl]
  · rename_i some
    rw [List.isEmpty_iff] at some
    rw [numeral?_eq_some_iff, or_iff_right fun h => some h.1]

theorem ofParts?_none_iff {low : List UInt8} {b : Bounds} :
    ofParts? low none = some b ↔ ∃ n, lower? low = some n ∧ ⟨n, some n⟩ = b := by
  rw [ofParts?, Option.map_eq_some_iff]

theorem ofParts?_some_iff {low high : List UInt8} {b : Bounds} :
    ofParts? low (some high) = some b ↔ ∃ n, lower? low = some n ∧
      (high = [] ∧ ⟨n, none⟩ = b ∨
        ∃ m, Numeral high m ∧ (1 ≤ m ∧ n ≤ m) ∧ ⟨n, some m⟩ = b) := by
  rw [ofParts?]
  split
  · rename_i none
    rw [List.isEmpty_iff] at none
    subst none
    have noNumeral (m : Nat) : ¬Numeral [] m := fun h => h.ne_nil rfl
    simp only [Option.map_eq_some_iff, noNumeral, false_and, exists_false, or_false, true_and]
  · rename_i some
    rw [List.isEmpty_iff] at some
    simp only [Option.bind_eq_bind, Option.bind_eq_some_iff, numeral?_eq_some_iff, some, false_and,
      false_or, Option.ite_none_right_eq_some, Option.some.injEq, Nat.succ_le_iff]

theorem Braced.read {body : List UInt8} {b : Bounds} (h : Braced body b) :
    ofText? body = some b := by
  have zero : lower? [] = some 0 := rfl
  cases h with
  | exactly hs hn ht =>
    rw [ofText?_alone hs hn.solid hn.ne_nil ht, ofParts?_none_iff]
    exact ⟨_, lower?_eq_some_iff.2 (.inr hn), rfl⟩
  | @atLeast s text t u n hs hn ht hu =>
    have parts := ofText?_comma hs hn.solid ht hu solid_nil blank_nil
    rw [List.append_nil, List.append_nil] at parts
    rw [parts, ofParts?_some_iff]
    exact ⟨n, lower?_eq_some_iff.2 (.inr hn), .inl ⟨rfl, rfl⟩⟩
  | @atMost s t text u m hs ht hm hu positive =>
    have parts := ofText?_comma hs solid_nil blank_nil ht hm.solid hu
    rw [List.append_nil, List.append_nil] at parts
    rw [parts, ofParts?_some_iff]
    exact ⟨0, zero, .inr ⟨m, hm, ⟨positive, Nat.zero_le m⟩, rfl⟩⟩
  | @between s low t u high v n m hs hn ht hu hm hv positive ordered =>
    rw [ofText?_comma hs hn.solid ht hu hm.solid hv, ofParts?_some_iff]
    exact ⟨n, lower?_eq_some_iff.2 (.inr hn), .inr ⟨m, hm, ⟨positive, ordered⟩, rfl⟩⟩
  | @anyNumber s t hs ht =>
    have parts := ofText?_comma hs solid_nil blank_nil ht solid_nil blank_nil
    simp only [List.append_nil] at parts
    rw [parts, ofParts?_some_iff]
    exact ⟨0, zero, .inl ⟨rfl, rfl⟩⟩

/-- A number alone, between blanks. -/
theorem braced_alone {s low t : List UInt8} (hs : Blank s) (ht : Blank t) {b : Bounds}
    (read : ofParts? low none = some b) (some : low ≠ []) : Braced (s ++ low ++ t) b := by
  obtain ⟨n, lower, rfl⟩ := ofParts?_none_iff.1 read
  rcases lower?_eq_some_iff.1 lower with ⟨none, -⟩ | hn
  · exact absurd none some
  · exact .exactly hs hn ht

/-- Both sides of a comma, between blanks. -/
theorem braced_comma {s low t u high v : List UInt8} (hs : Blank s) (ht : Blank t) (hu : Blank u)
    (hv : Blank v) {b : Bounds} (read : ofParts? low (some high) = some b) :
    Braced (s ++ low ++ t ++ comma :: (u ++ high ++ v)) b := by
  obtain ⟨n, lower, upper⟩ := ofParts?_some_iff.1 read
  rcases lower?_eq_some_iff.1 lower with ⟨rfl, rfl⟩ | hn
  · rw [List.append_nil]
    rcases upper with ⟨rfl, rfl⟩ | ⟨m, hm, ⟨positive, -⟩, rfl⟩
    · rw [List.append_nil]
      exact .anyNumber (hs.append ht) (hu.append hv)
    · exact .atMost (hs.append ht) hu hm hv positive
  · rcases upper with ⟨rfl, rfl⟩ | ⟨m, hm, ⟨positive, ordered⟩, rfl⟩
    · rw [List.append_nil]
      exact .atLeast hs hn ht (hu.append hv)
    · exact .between hs hn ht hu hm hv positive ordered

/-- A second time there is nothing left to strip but blanks only. -/
theorem trim_trim_ne_nil {text : List UInt8} (h : Text.trim text ≠ []) :
    Text.trim (Text.trim text) ≠ [] := by
  intro none
  obtain ⟨s, t, hs, ht, outer⟩ := exists_trim text
  obtain ⟨u, v, hu, hv, inner⟩ := exists_trim (Text.trim text)
  rw [none, List.append_nil] at inner
  have blank : text = s ++ (u ++ v) ++ [] ++ t := by rw [List.append_nil, ← inner]; exact outer
  rw [blank] at h
  exact h (solid_nil.trim (hs.append (hu.append hv)) ht)

/-- Bounds are read from texts of five forms. -/
theorem ofText?_eq_some_iff {body : List UInt8} {b : Bounds} :
    ofText? body = some b ↔ Braced body b := by
  refine ⟨fun h => ?_, Braced.read⟩
  obtain ⟨s, t, hs, ht, trimmed⟩ := exists_trim body
  rw [ofText?] at h
  dsimp only at h
  split at h
  · cases h
  · rename_i some
    rw [List.isEmpty_iff] at some
    have again := trim_trim_ne_nil some
    have cut := List.takeWhile_append_dropWhile (p := (· != comma)) (l := Text.trim body)
    generalize Text.trim body = text at *
    subst trimmed
    obtain ⟨u, v, hu, hv, low⟩ := exists_trim (text.takeWhile (· != comma))
    split at h
    · rename_i alone
      rw [alone, List.append_nil] at cut
      rw [cut] at low h
      have parts : s ++ text ++ t = s ++ u ++ Text.trim text ++ (v ++ t) := by
        conv_lhs => rw [low]
        simp only [List.append_assoc]
      rw [parts]
      exact braced_alone (hs.append hu) (hv.append ht) h again
    · rename_i c high found
      obtain rfl : c = comma := by
        have nonempty : text.dropWhile (· != comma) ≠ [] := by simp [found]
        have first := List.head_dropWhile_not _ nonempty
        simpa only [found, List.head_cons, bne_iff_ne, ne_eq, Bool.not_eq_true, bne_eq_false_iff_eq]
          using first
      split at h
      · cases h
      · obtain ⟨u', v', hu', hv', high'⟩ := exists_trim high
        have parts : s ++ text ++ t = s ++ u ++ Text.trim (text.takeWhile (· != comma)) ++ v ++
            comma :: (u' ++ Text.trim high ++ (v' ++ t)) := by
          rw [found] at cut
          conv_lhs => rw [← cut, low, high']
          simp only [List.append_assoc, List.cons_append]
        rw [parts]
        exact braced_comma (hs.append hu) hv hu' (hv'.append ht) h

end Bounds

end PatternGroups
