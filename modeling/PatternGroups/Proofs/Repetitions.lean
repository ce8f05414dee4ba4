import PatternGroups.Proofs.Respelling

/-!
# Counted repetitions in regexes

Whether a brace begins a repetition is decided where it stands: not if it is escaped or in a class,
and else by what comes up to the first closing brace. So a tree has no bounds but those that are
read there, and these are in order.

* `Lexeme.exists_covering`: the lexeme that covers a byte;
* `Lexeme.opens_step`: what a brace begins;
* `Chain.every_ordered`: the bounds in trees;
* `Bounds.handled_and_ordered`: all braces of a regex.
-/

namespace PatternGroups

/-! ## Braces -/

/-- There is no opening brace between braces. -/
theorem Bounds.Braced.brace_not_mem {body : List UInt8} {b : Bounds} (h : Braced body b) :
    0x7b ∉ body := by
  have blank {s : List UInt8} (h : Text.Blank s) : 0x7b ∉ s := fun mem =>
    h.not_visible 0x7b mem (by decide)
  have numeral {text : List UInt8} {n : Nat} (h : Text.Numeral text n) : 0x7b ∉ text := fun mem =>
    (h.visible 0x7b mem).2.2.1 rfl
  have comma : (0x7b : UInt8) ≠ Bounds.comma := by decide
  cases h with
  | exactly hs hn ht => simp [blank hs, numeral hn, blank ht]
  | atLeast hs hn ht hu => simp [blank hs, numeral hn, blank ht, comma, blank hu]
  | atMost hs ht hm hu => simp [blank hs, comma, blank ht, numeral hm, blank hu]
  | between hs hn ht hu hm hv =>
    simp [blank hs, numeral hn, blank ht, comma, blank hu, numeral hm, blank hv]
  | anyNumber hs ht => simp [blank hs, comma, blank ht]

/-- No token has an opening brace after its first byte but the escaped brace. -/
theorem Token.WrittenAs.of_brace_mem {t : Token} {byte : UInt8} {rest : List UInt8}
    (h : t.WrittenAs (byte :: rest)) (mem : 0x7b ∈ rest) :
    byte = 0x5c ∧ rest = [0x7b] ∧ t = .literal 0x7b := by
  cases h with
  | control h =>
    obtain rfl := List.mem_singleton.1 mem
    cases h
  | @hexadecimal high low value h =>
    have noDigit : Text.hexDigit? 0x7b = none := by decide
    simp only [List.mem_cons, List.not_mem_nil, or_false] at mem
    rcases mem with letter | rfl | rfl
    · cases letter
    · simp [Lexeme.hexByte?, noDigit] at h
    · simp [Lexeme.hexByte?, noDigit] at h
  | escaped =>
    obtain rfl := List.mem_singleton.1 mem
    exact ⟨rfl, rfl, rfl⟩
  | shorthand h =>
    obtain rfl := List.mem_singleton.1 mem
    cases h
  | openNegated => cases List.mem_singleton.1 mem
  | braces _ h =>
    rcases List.mem_append.1 mem with inner | last
    · exact absurd inner (Bounds.ofText?_eq_some_iff.1 h).brace_not_mem
    · cases List.mem_singleton.1 last
  | _ => cases mem

namespace Lexeme

theorem exists_covering {lexemes : List Lexeme} {front rest : List UInt8} {byte : UInt8}
    (h : lexemes.flatMap (·.text) = front ++ byte :: rest) :
    ∃ before l after p q, lexemes = before ++ l :: after ∧ l.text = p ++ byte :: q ∧
      front = before.flatMap (·.text) ++ p := by
  induction lexemes generalizing front with
  | nil => exact absurd h (by simp)
  | cons l lexemes ih =>
    rw [List.flatMap_cons] at h
    rcases List.append_eq_append_iff.1 h with ⟨later, rfl, others⟩ | ⟨part, text, same⟩
    · obtain ⟨before, l', after, p, q, rfl, text, rfl⟩ := ih others
      exact ⟨l :: before, l', after, p, q, rfl, text, by simp⟩
    · cases part with
      | nil =>
        have first : lexemes.flatMap (·.text) = [] ++ byte :: rest := same.symm
        obtain ⟨before, l', after, p, q, rfl, text', empty⟩ := ih first
        refine ⟨l :: before, l', after, p, q, rfl, text', ?_⟩
        rw [List.append_nil] at text
        rw [List.flatMap_cons, List.append_assoc, ← empty, List.append_nil, text]
      | cons b part =>
        obtain ⟨rfl, rfl⟩ := List.cons.inj same
        exact ⟨[], l, lexemes, front, part, rfl, text, rfl⟩

/-- What an opening brace outside of classes begins, and the text that is left after it: bounds, up
to the first closing brace, or else a literal brace. -/
inductive Opens (rest : List UInt8) : Lexeme → List UInt8 → Prop
  | times {body left : List UInt8} {b : Bounds} (split : rest = body ++ 0x7d :: left)
      (closed : 0x7d ∉ body) (h : Bounds.Braced body b) :
      Opens rest ⟨.times b, 0x7b :: (body ++ [0x7d])⟩ left
  | literal (h : ∀ body left b, rest = body ++ 0x7d :: left → 0x7d ∉ body → ¬Bounds.Braced body b) :
      Opens rest ⟨.literal 0x7b, [0x7b]⟩ rest

/-- What becomes of an opening brace between two parts of a regex, and the lexemes before it and
from it on. -/
inductive Handles (front rest : List UInt8) : List Lexeme → List Lexeme → Prop
  | escaped {before after : List Lexeme} (h : front = before.flatMap (·.text) ++ [0x5c]) :
      Handles front rest before (⟨.literal 0x7b, [0x5c, 0x7b]⟩ :: after)
  | member {before after : List Lexeme} (h : front = before.flatMap (·.text))
      (inClass : Token.InClass (before.map (·.token))) :
      Handles front rest before (⟨.literal 0x7b, [0x7b]⟩ :: after)
  | outside {before : List Lexeme} {l : Lexeme} {left : List UInt8}
      (h : front = before.flatMap (·.text)) (outside : ¬Token.InClass (before.map (·.token)))
      (opens : Opens rest l left) :
      Handles front rest before (l :: scanFrom .outside 0 left)

theorem opens_step (rest : List UInt8) :
    Opens rest ((step .outside 0x7b rest).lexeme 0x7b rest)
        (rest.drop (step .outside 0x7b rest).extra) ∧
      (step .outside 0x7b rest).mode = .outside := by
  have begins : step .outside 0x7b rest = braces rest := rfl
  rw [begins]
  rcases braces_cases rest with ⟨body, left, b, rfl, closed, read, found⟩ | ⟨none, found⟩
  · rw [found]
    have taken : (body ++ 0x7d :: left).take (body.length + 1) = body ++ [0x7d] :=
      List.take_length_add_append 1
    have dropped : (body ++ 0x7d :: left).drop (body.length + 1) = left :=
      List.drop_length_add_append 1
    rw [Step.lexeme, taken, dropped]
    exact ⟨.times rfl closed (Bounds.ofText?_eq_some_iff.1 read), rfl⟩
  · rw [found]
    exact ⟨.literal fun body left b split closed h => none body left b split closed h.read, rfl⟩

theorem handles_scan {regex front rest : List UInt8} (h : regex = front ++ 0x7b :: rest) :
    ∃ before after, scan regex = before ++ after ∧ Handles front rest before after := by
  obtain ⟨before, l, after, p, q, split, covers, rfl⟩ :=
    exists_covering ((scan_flatMap_text regex).trans h)
  refine ⟨before, l :: after, split, ?_⟩
  -- The brace is the first byte of its lexeme unless it is escaped.
  cases p with
  | cons b p =>
    have written : l.token.WrittenAs l.text := written_of_mem_scan (by rw [split]; simp)
    rw [covers] at written
    obtain ⟨rfl, last, literal⟩ := written.of_brace_mem (by simp)
    obtain ⟨rfl, -⟩ := (List.append_eq_singleton_iff.1 last).resolve_right fun h =>
      List.cons_ne_nil _ _ h.2
    obtain ⟨token, text⟩ := l
    obtain rfl : token = .literal 0x7b := literal
    obtain rfl : text = [0x5c, 0x7b] := covers.trans (congrArg _ last)
    exact .escaped rfl
  | nil =>
    obtain ⟨byte, rest', s, same, mode, rfl, rfl⟩ := exists_step split
    rw [h, List.append_nil, List.append_cancel_left_eq] at same
    obtain ⟨rfl, rfl⟩ := List.cons.inj same
    by_cases inClass : Token.InClass (before.map (·.token))
    · have inside := Mode.after_ne_outside_iff.2 inClass
      cases found : Mode.outside.after (before.map (·.token)) with
      | outside => exact absurd found inside
      | inside rangeable =>
        rw [found] at mode
        obtain rfl : s = .literal (.inside rangeable) 0x7b 0 := mode
        exact .member (List.append_nil _) inClass
    · have outside := not_ne_iff.1 (inClass ∘ Mode.after_ne_outside_iff.1)
      rw [outside] at mode
      obtain ⟨opens, next⟩ := opens_step rest
      rw [← mode] at opens next
      rw [next]
      exact .outside (List.append_nil _) inClass opens

/-- Blanks and a plus sign, and then an upper bound that is below the lower one. -/
example : (scan "\x7b +2,3 \x7d\x7b2,1\x7d".toUTF8.toList).map (·.token) =
    .times ⟨2, some 3⟩ :: "\x7b2,1\x7d".toUTF8.toList.map .literal := by
  decide +kernel

end Lexeme

/-! ## Trees -/

/-- Bounds in order, for an upper bound that is not zero. -/
def Bounds.Ordered (b : Bounds) : Prop := ∀ upper ∈ b.upper, b.lower ≤ upper ∧ 1 ≤ upper

theorem Bounds.Written.ordered {b : Bounds} (h : b.Written) : b.atLeastOne.Ordered := by
  obtain ⟨lower, _ | upper⟩ := b
  · exact nofun
  · rintro _ ⟨⟩
    exact ⟨Nat.le_trans (h.upper upper rfl).1 (Nat.le_max_right 1 upper), Nat.le_max_left 1 upper⟩

theorem Node.kept_ordered : Kept (fun node => node.bounds.Ordered) Bounds.Ordered := by
  refine ⟨?_, ?_, ?_, ?_, ?_⟩
  · rintro _ ⟨⟩
    exact ⟨Nat.le_refl 1, Nat.le_refl 1⟩
  · rintro _ ⟨⟩
    exact ⟨Nat.zero_le 1, Nat.le_refl 1⟩
  · intro node b _ _ hb _
    cases node <;> exact hb
  · exact fun _ hb _ _ => hb
  · exact fun _ hb => hb

theorem Chain.every_ordered {regex : List UInt8} {chain : Chain} (h : ofText? regex = .ok chain) :
    chain.Every fun node => node.bounds.Ordered := by
  obtain ⟨items, e, hitems, hexpr, rfl⟩ := ofText?_cases h
  have rule : Expr.Rule Item.Printable fun e => e.chain.Every fun node => node.bounds.Ordered :=
    Expr.rule_every Node.kept_ordered (fun _ => Node.kept_ordered.once) Bounds.Written.ordered
  exact rule.readFrom (Item.printableRule.items hitems) Expr.Frame.all_empty (by simp) hexpr

/-- Each opening brace of a regex is escaped, or a member of a class, or begins a repetition if it
can, and otherwise is literal; and in no tree is there an upper bound that is zero or below the
lower one. -/
theorem Bounds.handled_and_ordered (regex : List UInt8) :
    (∀ front rest, regex = front ++ 0x7b :: rest →
      ∃ before after, Lexeme.scan regex = before ++ after ∧
        Lexeme.Handles front rest before after) ∧
      ∀ chain, Chain.ofText? regex = .ok chain → chain.Every fun node => node.bounds.Ordered :=
  ⟨fun _ _ => Lexeme.handles_scan, fun _ => Chain.every_ordered⟩

end PatternGroups
