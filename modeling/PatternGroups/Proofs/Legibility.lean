import PatternGroups.Automaton.Graph
import PatternGroups.Proofs.Moves

/-!
# What labels tell

The bytes that a label lists can be read back one after the other, as the text of a byte is not the
beginning of another one. But the mark of a negated list looks like the circumflex, which is not
escaped. So a label in full tells its set with one exception: the circumflex and a few greater bytes
look like all bytes but these.

* `readByte?_byteLabel`, `flatMap_byteLabel_inj`: bytes are read back;
* `labelChars_eq_iff`, `bytesLabel_cases`: labels that list all that they show;
* `mistakable_of_codes`, `Mistakable.label_eq`: a list and a negated one that look the same;
* `label_eq_iff`: when two labels are equal, and when two edges of a graph look the same.
-/

namespace PatternGroups

namespace SymbolSet

variable {s t : SymbolSet} {code : Nat} {l k : List Nat}

/-! ## Bytes that are read back -/

/-- The number that a hexadecimal digit stands for. -/
def digitValue (c : Char) : Nat := ((List.range 16).map Nat.digitChar).idxOf c

/-- A byte after a backslash, and what follows it. -/
def readEscape? : List Char → Option (Nat × List Char)
  | '\\' :: rest => some (0x5c, rest)
  | 't' :: rest => some (0x09, rest)
  | 'n' :: rest => some (0x0a, rest)
  | 'r' :: rest => some (0x0d, rest)
  | 'x' :: high :: low :: rest => some (16 * digitValue high + digitValue low, rest)
  | _ => none

/-- A byte as a label writes it, and what follows it. -/
def readByte? : List Char → Option (Nat × List Char)
  | [] => none
  | c :: rest => if c = '\\' then readEscape? rest else some (c.toNat, rest)

theorem toNat_ofNat (h : code < 256) : (Char.ofNat code).toNat = code := by
  have valid : code.isValidChar := .inl (by omega)
  calc (Char.ofNat code).toNat
    _ = (Char.ofNatAux code valid).toNat := congrArg Char.toNat (dif_pos valid)
    _ = code := rfl

theorem readByte?_byteLabel (h : code < 256) (rest : List Char) :
    readByte? (byteLabel code ++ rest) = some (code, rest) := by
  have digit : ∀ d < 16, digitValue (Nat.digitChar d) = d := by decide
  unfold byteLabel
  split_ifs with backslash tab newline back printable
  · simp [readByte?, readEscape?, backslash]
  · simp [readByte?, readEscape?, tab]
  · simp [readByte?, readEscape?, newline]
  · simp [readByte?, readEscape?, back]
  · have plain : Char.ofNat code ≠ '\\' := by
      intro same
      apply backslash
      rw [← toNat_ofNat h, same]
      rfl
    simp [readByte?, plain, toNat_ofNat h]
  · have high := digit (code / 16) (by omega)
    have low := digit (code % 16) (by omega)
    simp [readByte?, readEscape?, high, low, Nat.div_add_mod]

theorem byteLabel_append_inj {a b : Nat} {rest more : List Char} (ha : a < 256) (hb : b < 256)
    (h : byteLabel a ++ rest = byteLabel b ++ more) : a = b ∧ rest = more := by
  have read := congrArg readByte? h
  simpa only [readByte?_byteLabel ha, readByte?_byteLabel hb, Option.some.injEq,
    Prod.mk.injEq] using read

theorem flatMap_byteLabel_inj (hl : ∀ code ∈ l, code < 256) (hk : ∀ code ∈ k, code < 256)
    (h : l.flatMap byteLabel = k.flatMap byteLabel) : l = k := by
  have nonempty {code : Nat} (byte : code < 256) (rest : List Char) :
      [] ≠ byteLabel code ++ rest := by
    intro empty
    have read := readByte?_byteLabel byte rest
    rw [← empty] at read
    cases read
  induction l generalizing k with
  | nil =>
    cases k with
    | nil => rfl
    | cons b k => exact absurd h (nonempty (hk b List.mem_cons_self) _)
  | cons a l ih =>
    cases k with
    | nil => exact absurd h.symm (nonempty (hl a List.mem_cons_self) _)
    | cons b k =>
      simp only [List.forall_mem_cons] at hl hk
      obtain ⟨rfl, later⟩ := byteLabel_append_inj hl.1 hk.1 h
      rw [ih hl.2 hk.2 later]

/-! ## Members in ascending order -/

/-- The members as numbers. -/
def codes (s : SymbolSet) : List Nat := s.members.map Fin.val

theorem contains_lt (h : s.contains code = true) : code < 257 := by
  by_contra beyond
  rw [contains, BitVec.getLsbD_of_ge _ _ (Nat.not_lt.1 beyond)] at h
  cases h

theorem mem_codes : code ∈ s.codes ↔ s.contains code = true := by
  simp only [SymbolSet.codes, members, List.mem_map, List.mem_filter, List.mem_finRange, true_and]
  constructor
  · rintro ⟨symbol, member, rfl⟩
    exact member
  · exact fun member => ⟨⟨code, contains_lt member⟩, member, rfl⟩

theorem pairwise_codes (s : SymbolSet) : s.codes.Pairwise (· < ·) :=
  List.pairwise_map.2 ((List.pairwise_lt_finRange 257).filter _)

theorem length_codes : s.codes.length = s.count := List.length_map _

theorem codes_inj (h : s.codes = t.codes) : s = t := by
  apply ext_contains
  intro code _
  rw [Bool.eq_iff_iff, ← mem_codes, ← mem_codes, h]

theorem count_eq_zero_iff : s.count = 0 ↔ s = ∅ := by
  have none : (∅ : SymbolSet).codes = [] := by decide +kernel
  rw [← length_codes, List.length_eq_zero_iff]
  constructor
  · exact fun empty => codes_inj (empty.trans none.symm)
  · rintro rfl
    exact none

theorem exists_contains (h : s ≠ ∅) : ∃ code, s.contains code = true := by
  by_contra none
  apply h
  apply ext_contains
  intro code _
  simpa using not_exists.1 none code

theorem contains_bytes :
    (s ∩ anyByte).contains code = true ↔ s.contains code = true ∧ code < 256 := by
  simp [contains_anyByte]

theorem contains_others :
    (anyByte \ s).contains code = true ↔ code < 256 ∧ s.contains code = false := by
  simp [contains_sdiff, contains_anyByte]

theorem bytes_eq_of_others (h : anyByte \ s = anyByte \ t) : s ∩ anyByte = t ∩ anyByte := by
  apply ext_contains
  intro code _
  have same := congrArg (·.contains code) h
  simp only [contains_sdiff, contains_inter] at same ⊢
  cases byte : anyByte.contains code with
  | true => simpa [byte] using same
  | false => simp

theorem eq_of_bytes (border : s.contains Symbol.border = t.contains Symbol.border)
    (same : s ∩ anyByte = t ∩ anyByte) : s = t := by
  apply ext_contains
  intro code lt
  by_cases byte : code < 256
  · have := congrArg (·.contains code) same
    simpa [contains_anyByte, byte] using this
  · obtain rfl : code = 256 := by omega
    exact border

theorem sdiff_bytes : anyByte \ (s ∩ anyByte) = anyByte \ s := by
  apply ext_contains
  intro code _
  rw [contains_sdiff, contains_sdiff, contains_inter]
  cases anyByte.contains code with
  | true => rw [Bool.and_true]
  | false => rfl

theorem count_inter_add_sdiff (s t : SymbolSet) : (s ∩ t).count + (t \ s).count = t.count := by
  have inside : (s ∩ t).members =
      t.members.filter fun symbol : Symbol => s.contains symbol := by
    simp only [members, List.filter_filter, contains_inter]
  have outside : (t \ s).members =
      t.members.filter fun symbol : Symbol => !s.contains symbol := by
    simp only [members, List.filter_filter, contains_sdiff, Bool.and_comm]
  rw [count, count, count, inside, outside, ← List.length_eq_length_filter_add]

theorem count_anyByte : anyByte.count = 256 := by decide +kernel

theorem count_bytes_add_others (s : SymbolSet) :
    (s ∩ anyByte).count + (anyByte \ s).count = 256 :=
  (count_inter_add_sdiff s anyByte).trans count_anyByte

/-! ## Labels in full -/

/-- So few bytes are in a set, or so few are not, that its label lists all of them. -/
def ListedInFull (s : SymbolSet) : Prop :=
  (s ∩ anyByte).count ≤ labelLimit ∨ 256 - labelLimit ≤ (s ∩ anyByte).count

instance : Decidable s.ListedInFull := inferInstanceAs (Decidable (_ ∨ _))

theorem listLabel_of_count_le (h : s.count ≤ labelLimit) (size : Nat) :
    listLabel s size = s.codes.flatMap byteLabel ++ [']'] := by
  have all : s.members.take labelLimit = s.members := List.take_of_length_le h
  rw [listLabel, all, if_neg (Nat.not_lt.2 h), List.append_nil, SymbolSet.codes, List.flatMap_map]

/-- What stands between the brackets of a label, as bytes. The mark of a negated list is written
like the circumflex. -/
def written (s : SymbolSet) : List Nat :=
  if (s ∩ anyByte).count ≥ 256 - labelLimit then 0x5e :: (anyByte \ s).codes
  else (s ∩ anyByte).codes

theorem lt_of_mem_written (h : code ∈ s.written) : code < 256 := by
  unfold written at h
  split at h
  · rcases List.mem_cons.1 h with rfl | member
    · decide
    · exact (contains_others.1 (mem_codes.1 member)).1
  · exact (contains_bytes.1 (mem_codes.1 h)).2

theorem bytesLabel_of_listed (h : s.ListedInFull) (some : s ∩ anyByte ≠ ∅)
    (others : anyByte \ s ≠ ∅) :
    bytesLabel (s ∩ anyByte) = '[' :: (s.written.flatMap byteLabel ++ [']']) := by
  rw [← count_eq_zero_iff.ne] at some others
  have sum := count_bytes_add_others s
  have less : (s ∩ anyByte).count ≠ 256 := by omega
  rw [bytesLabel, if_neg some, if_neg less, sdiff_bytes, written]
  split
  · rename_i many
    rw [listLabel_of_count_le (by omega)]
    rfl
  · rename_i few
    rw [listLabel_of_count_le (h.resolve_right few)]

/-- The kinds of labels in full: without bytes, with all of them, and with a list. -/
theorem bytesLabel_cases (h : s.ListedInFull) :
    (s ∩ anyByte = ∅ ∧ bytesLabel (s ∩ anyByte) = []) ∨
      (anyByte \ s = ∅ ∧ bytesLabel (s ∩ anyByte) = ['.']) ∨
        (anyByte \ s ≠ ∅ ∧
          bytesLabel (s ∩ anyByte) = '[' :: (s.written.flatMap byteLabel ++ [']'])) := by
  by_cases none : s ∩ anyByte = ∅
  · exact .inl ⟨none, by rw [bytesLabel, if_pos (count_eq_zero_iff.2 none)]⟩
  by_cases all : anyByte \ s = ∅
  · have sum := count_bytes_add_others s
    rw [count_eq_zero_iff.2 all, Nat.add_zero] at sum
    exact .inr (.inl ⟨all, by rw [bytesLabel, sum]; rfl⟩)
  · exact .inr (.inr ⟨all, bytesLabel_of_listed h none all⟩)

theorem labelChars_eq_iff : s.labelChars = t.labelChars ↔
    s.contains Symbol.border = t.contains Symbol.border ∧
      bytesLabel (s ∩ anyByte) = bytesLabel (t ∩ anyByte) := by
  -- Labels of bytes do not begin like the border.
  have other (s : SymbolSet) (rest : List Char) : bytesLabel s ≠ '^' :: rest := by
    unfold bytesLabel
    split_ifs <;> simp
  rw [labelChars, labelChars]
  cases s.contains Symbol.border with
  | true =>
    cases t.contains Symbol.border with
    | true => simp
    | false => simpa using fun same => other _ _ (Eq.symm same)
  | false =>
    cases t.contains Symbol.border with
    | true => simpa using other _ _
    | false => simp

/-! ## Lists that look the same -/

/-- The bytes of a set are the circumflex and some greater ones, and those of another one are all but
these greater ones. -/
structure Mistakable (s t : SymbolSet) : Prop where
  border : s.contains Symbol.border = t.contains Symbol.border
  circumflex : s.contains 0x5e = true ∧ t.contains 0x5e = true
  smaller : ∀ code < 0x5e, s.contains code = false ∧ t.contains code = true
  greater : ∀ code, 0x5e < code → code < 256 → (t.contains code = true ↔ s.contains code = false)
  some : ∃ code, 0x5e < code ∧ code < 256 ∧ s.contains code = true

theorem mistakable_of_codes (border : s.contains Symbol.border = t.contains Symbol.border)
    (some : anyByte \ t ≠ ∅) (same : (s ∩ anyByte).codes = 0x5e :: (anyByte \ t).codes) :
    Mistakable s t := by
  have mem (code : Nat) : s.contains code = true ∧ code < 256 ↔
      code = 0x5e ∨ code < 256 ∧ t.contains code = false := by
    rw [← contains_bytes, ← contains_others, ← mem_codes, ← mem_codes, same, List.mem_cons]
  have least (code : Nat) : code < 256 ∧ t.contains code = false → 0x5e < code := by
    rw [← contains_others, ← mem_codes]
    exact (List.pairwise_cons.1 (same ▸ pairwise_codes _)).1 code
  constructor
  · exact border
  · grind
  · grind
  · grind
  · obtain ⟨code, other⟩ := exists_contains some
    rw [contains_others] at other
    exact ⟨code, least code other, other.1, ((mem code).2 (.inr other)).1⟩

namespace Mistakable

variable (h : Mistakable s t)
include h

theorem mem_others : code < 256 ∧ t.contains code = false ↔
    0x5e < code ∧ code < 256 ∧ s.contains code = true := by
  have circumflex := h.circumflex
  have smaller := h.smaller code
  have greater := h.greater code
  grind

theorem others_ne_empty : anyByte \ t ≠ ∅ := by
  intro none
  obtain ⟨code, listed⟩ := h.some
  have other : (anyByte \ t).contains code = true := contains_others.2 (h.mem_others.2 listed)
  rw [none, contains_empty] at other
  cases other

theorem codes_eq : (s ∩ anyByte).codes = 0x5e :: (anyByte \ t).codes := by
  apply Ascending.eq_of_mem_iff (pairwise_codes _)
  · apply List.pairwise_cons.2 ⟨?_, pairwise_codes _⟩
    intro code other
    rw [mem_codes, contains_others, h.mem_others] at other
    exact other.1
  · intro code
    rw [List.mem_cons, mem_codes, mem_codes, contains_bytes, contains_others, h.mem_others]
    have circumflex := h.circumflex
    have smaller := h.smaller code
    grind

/-- All bytes before the circumflex are missing, too many for a negated list. -/
theorem le_count_others : 0x5e ≤ (anyByte \ s).count := by
  have smaller : List.range 0x5e ⊆ (anyByte \ s).codes := by
    intro code lt
    rw [List.mem_range] at lt
    exact mem_codes.2 (contains_others.2 ⟨by omega, (h.smaller code lt).1⟩)
  have length := List.nodup_range.length_le_of_subset smaller
  rwa [List.length_range, length_codes] at length

theorem label_eq (hs : s.ListedInFull) : s.label = t.label := by
  have lengths := congrArg List.length h.codes_eq
  rw [List.length_cons, length_codes, length_codes] at lengths
  have sum := count_bytes_add_others s
  have sum' := count_bytes_add_others t
  have others := h.le_count_others
  have limit : labelLimit = 5 := rfl
  unfold ListedInFull at hs
  have few : ¬(s ∩ anyByte).count ≥ 256 - labelLimit := by omega
  have many : (t ∩ anyByte).count ≥ 256 - labelLimit := by omega
  have written : s.written = t.written := by
    rw [SymbolSet.written, SymbolSet.written, if_neg few, if_pos many, h.codes_eq]
  have first := bytesLabel_of_listed hs (count_eq_zero_iff.not.1 (by omega))
    (count_eq_zero_iff.not.1 (by omega))
  have second := bytesLabel_of_listed (.inr many) (count_eq_zero_iff.not.1 (by omega))
    h.others_ne_empty
  exact congrArg String.ofList (labelChars_eq_iff.2 ⟨h.border, by rw [first, second, written]⟩)

end Mistakable

theorem eq_or_mistakable_of_written (border : s.contains Symbol.border = t.contains Symbol.border)
    (hs : anyByte \ s ≠ ∅) (ht : anyByte \ t ≠ ∅) (same : s.written = t.written) :
    s = t ∨ Mistakable s t ∨ Mistakable t s := by
  unfold written at same
  split_ifs at same
  · have others := codes_inj (List.cons.inj same).2
    exact .inl (eq_of_bytes border (bytes_eq_of_others others))
  · exact .inr (.inr (mistakable_of_codes border.symm hs same.symm))
  · exact .inr (.inl (mistakable_of_codes border ht same))
  · exact .inl (eq_of_bytes border (codes_inj same))

theorem eq_or_mistakable_of_label (hs : s.ListedInFull) (ht : t.ListedInFull)
    (same : s.label = t.label) : s = t ∨ Mistakable s t ∨ Mistakable t s := by
  obtain ⟨border, bytes⟩ := labelChars_eq_iff.1 (String.ofList_injective same)
  -- The first characters tell the kinds of the labels.
  rcases bytesLabel_cases hs with ⟨none, label⟩ | ⟨all, label⟩ | ⟨some, label⟩
  · rcases bytesLabel_cases ht with ⟨none', label'⟩ | ⟨_, label'⟩ | ⟨_, label'⟩
    · exact .inl (eq_of_bytes border (none.trans none'.symm))
    · simp [label, label'] at bytes
    · simp [label, label'] at bytes
  · rcases bytesLabel_cases ht with ⟨_, label'⟩ | ⟨all', label'⟩ | ⟨_, label'⟩
    · simp [label, label'] at bytes
    · exact .inl (eq_of_bytes border (bytes_eq_of_others (all.trans all'.symm)))
    · simp [label, label'] at bytes
  · rcases bytesLabel_cases ht with ⟨_, label'⟩ | ⟨_, label'⟩ | ⟨some', label'⟩
    · simp [label, label'] at bytes
    · simp [label, label'] at bytes
    · rw [label, label', List.cons.injEq] at bytes
      have listed := List.append_cancel_right bytes.2
      have written := flatMap_byteLabel_inj (fun _ => lt_of_mem_written)
        (fun _ => lt_of_mem_written) listed
      exact eq_or_mistakable_of_written border some some' written

end SymbolSet

/-! ## Graphs -/

theorem mem_graph_edges {m : Automaton} {e : Graph.Edge} : e ∈ m.graph.edges ↔
    ∃ s, m.edges.get? e.source e.target = some s ∧ e.label = s.label := by
  simp only [Automaton.graph, List.mem_map, SparseTable.mem_entries]
  constructor
  · rintro ⟨c, found, rfl⟩
    exact ⟨c.value, found, rfl⟩
  · rintro ⟨s, found, label⟩
    exact ⟨⟨e.source, e.target, s⟩, found, by rw [← label]⟩

theorem label_of_mem_graph_edges {m : Automaton} {e : Graph.Edge} {s : SymbolSet}
    (h : e ∈ m.graph.edges) (found : m.edges.get? e.source e.target = some s) :
    e.label = s.label := by
  obtain ⟨_, same, label⟩ := mem_graph_edges.1 h
  rw [found] at same
  cases same
  exact label

namespace SymbolSet

/-- Two sets whose labels list all that they show have one label exactly if they are one set, or if
one consists of the circumflex and some greater bytes, and the other of all bytes but these. So it is
for the edges of a graph. -/
theorem label_eq_iff (hs : s.ListedInFull) (ht : t.ListedInFull) :
    (s.label = t.label ↔ s = t ∨ Mistakable s t ∨ Mistakable t s) ∧
      ∀ (m : Automaton) (d e : Graph.Edge), d ∈ m.graph.edges → e ∈ m.graph.edges →
        m.edges.get? d.source d.target = some s → m.edges.get? e.source e.target = some t →
          (d.label = e.label ↔ s = t ∨ Mistakable s t ∨ Mistakable t s) := by
  have sets : s.label = t.label ↔ s = t ∨ Mistakable s t ∨ Mistakable t s := by
    constructor
    · exact eq_or_mistakable_of_label hs ht
    · rintro (rfl | h | h)
      · rfl
      · exact h.label_eq hs
      · exact (h.label_eq ht).symm
  refine ⟨sets, fun m d e hd he first second => ?_⟩
  rw [label_of_mem_graph_edges hd first, label_of_mem_graph_edges he second]
  exact sets

/-- The circumflex and one more byte, and all bytes but this one, also on two edges of a graph. -/
theorem label_eq_iff_negated :
    let s := ofBytes [0x5e, 0x61]
    let t := anyByte \ ofBytes [0x61]
    let m : Automaton := ⟨.ofCells [⟨0, 1, s⟩, ⟨1, 2, t⟩], .empty, 0⟩
    s.ListedInFull ∧ t.ListedInFull ∧
      (s.label = t.label ↔ s = t ∨ Mistakable s t ∨ Mistakable t s) ∧
      (⟨0, 1, "[^a]"⟩ ∈ m.graph.edges ∧ ⟨1, 2, "[^a]"⟩ ∈ m.graph.edges ∧
        m.edges.get? 0 1 = some s ∧ m.edges.get? 1 2 = some t ∧
        ("[^a]" = "[^a]" ↔ s = t ∨ Mistakable s t ∨ Mistakable t s)) := by
  intro s t m
  have hs : s.ListedInFull := by decide +kernel
  have ht : t.ListedInFull := by decide +kernel
  have first : m.edges.get? 0 1 = some s := by decide +kernel
  have second : m.edges.get? 1 2 = some t := by decide +kernel
  have hd : ⟨0, 1, "[^a]"⟩ ∈ m.graph.edges := mem_graph_edges.2 ⟨s, first, by decide +kernel⟩
  have he : ⟨1, 2, "[^a]"⟩ ∈ m.graph.edges := mem_graph_edges.2 ⟨t, second, by decide +kernel⟩
  obtain ⟨sets, edges⟩ := label_eq_iff hs ht
  exact ⟨hs, ht, sets, hd, he, first, second, edges m _ _ hd he first second⟩

/-- A label in full does not always tell its set: two bytes, and all bytes but one. -/
theorem label_in_full_ambiguous :
    ∃ s t : SymbolSet, s.ListedInFull ∧ t.ListedInFull ∧ s.label = t.label ∧ s ≠ t :=
  ⟨ofBytes [0x5e, 0x61], anyByte \ ofBytes [0x61], by decide +kernel, by decide +kernel,
    by decide +kernel, by decide +kernel⟩

end SymbolSet

end PatternGroups
