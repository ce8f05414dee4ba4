import Mathlib.Data.List.Induction
import Mathlib.Data.List.TakeWhile
import PatternGroups.Regex.Item

/-!
# Tokens and the bytes that they cover

What a byte can begin is said once, for each mode: the token, how it is written, which tokens the
mode admits, and the mode after it. The rest follows by induction on the tokens.

* `Lexeme.fits_step`: all that one step can do;
* `Lexeme.exists_step`: the step behind a token, which the tokens before it determine;
* `Lexeme.scan_eq_ofTokens`: each token covers the bytes up to the next one;
* `Token.unnested_ofText`: classes do not nest, and dashes stand between members of one class;
* `Token.tiles_ofText`: tokens tile the regex, and are all that a scan from its first byte finds.
-/

namespace PatternGroups

/-! ## How tokens are written -/

namespace Token

/-- The ways to write a token. -/
inductive WrittenAs : Token → List UInt8 → Prop
  | literal (byte : UInt8) : WrittenAs (.literal byte) [byte]
  | control {code byte : UInt8} (h : Lexeme.control? code = some byte) :
      WrittenAs (.literal byte) [0x5c, code]
  | hexadecimal {high low byte : UInt8} (h : Lexeme.hexByte? [high, low] = some byte) :
      WrittenAs (.literal byte) [0x5c, 0x78, high, low]
  /-- A byte without a meaning of its own after a backslash. -/
  | escaped {byte : UInt8} (control : Lexeme.control? byte = none) (hexadecimal : byte ≠ 0x78)
      (shorthand : Lexeme.shorthand? byte = none) : WrittenAs (.literal byte) [0x5c, byte]
  | shorthand {code : UInt8} {symbols : SymbolSet} (h : Lexeme.shorthand? code = some symbols) :
      WrittenAs (.shorthand symbols) [0x5c, code]
  | openGroup : WrittenAs .openGroup [0x28]
  | closeGroup : WrittenAs .closeGroup [0x29]
  | alternate : WrittenAs .alternate [0x7c]
  | dot : WrittenAs .dot [0x2e]
  | start : WrittenAs .start [0x5e]
  | stop : WrittenAs .stop [0x24]
  | openClass : WrittenAs (.openClass false) [0x5b]
  | openNegated : WrittenAs (.openClass true) [0x5b, 0x5e]
  | closeClass : WrittenAs .closeClass [0x5d]
  | rangeDash : WrittenAs .rangeDash [0x2d]
  | optional : WrittenAs (.times .optional) [0x3f]
  | plus : WrittenAs (.times .plus) [0x2b]
  | star : WrittenAs (.times .star) [0x2a]
  | braces {body : List UInt8} {bounds : Bounds} (closed : 0x7d ∉ body)
      (h : Bounds.ofText? body = some bounds) :
      WrittenAs (.times bounds) (0x7b :: (body ++ [0x7d]))

/-- Tokens for what belongs to a class. -/
def IsMember : Token → Prop
  | .literal _ | .shorthand _ => True
  | _ => False

/-- At the end of some tokens a class is open: they have its opening bracket, and not its closing
one. -/
def InClass (tokens : List Token) : Prop :=
  ∃ outer negated inner, tokens = outer ++ .openClass negated :: inner ∧ .closeClass ∉ inner

theorem not_inClass_nil : ¬InClass [] := by
  rintro ⟨outer, negated, inner, split, -⟩
  exact absurd split (by simp)

theorem inClass_concat {tokens : List Token} {t : Token} :
    InClass (tokens ++ [t]) ↔
      (∃ negated, t = .openClass negated) ∨ InClass tokens ∧ t ≠ .closeClass := by
  constructor
  · rintro ⟨outer, negated, inner, split, unclosed⟩
    rcases List.eq_nil_or_concat inner with rfl | ⟨before, last, rfl⟩
    · exact .inl ⟨negated, (List.append_inj' split rfl).2 |> List.singleton_inj.1⟩
    · rw [List.concat_eq_append, ← List.cons_append, ← List.append_assoc] at split
      obtain ⟨rfl, same⟩ := List.append_inj' split rfl
      obtain rfl := List.singleton_inj.1 same
      rw [List.concat_eq_append, List.mem_append, not_or, List.mem_singleton] at unclosed
      exact .inr ⟨⟨outer, negated, before, rfl, unclosed.1⟩, Ne.symm unclosed.2⟩
  · rintro (⟨negated, rfl⟩ | ⟨⟨outer, negated, inner, rfl, unclosed⟩, other⟩)
    · exact ⟨tokens, negated, [], rfl, List.not_mem_nil⟩
    · refine ⟨outer, negated, inner ++ [t], by simp, ?_⟩
      rw [List.mem_append, not_or, List.mem_singleton]
      exact ⟨unclosed, Ne.symm other⟩

end Token

namespace Lexeme

/-! ## Modes -/

/-- The mode after a token. -/
def Mode.next (mode : Mode) : Token → Mode
  | .literal _ => mode.afterLiteral
  | .openClass _ => .inside false
  | .closeClass => .outside
  | _ => mode.afterShorthand

def Mode.after (mode : Mode) (tokens : List Token) : Mode := tokens.foldl Mode.next mode

/-- The tokens that a mode admits before a given rest. A class is not closed at once, nor after a
dash. -/
inductive Mode.Admits : Mode → Token → List UInt8 → Prop
  | item {token : Token} {rest : List UInt8} (h : (Item.ofToken? token).isSome) :
      Admits .outside token rest
  | openClass {negated : Bool} {rest : List UInt8} (h : negated = false → rest.head? ≠ some 0x5d) :
      Admits .outside (.openClass negated) rest
  | member {rangeable : Bool} {token : Token} {rest : List UInt8} (h : token.IsMember) :
      Admits (.inside rangeable) token rest
  | rangeDash {byte : UInt8} {rest : List UInt8} (h : byte ≠ 0x5d) :
      Admits (.inside true) .rangeDash (byte :: rest)
  | closeClass {rangeable : Bool} {rest : List UInt8} :
      Admits (.inside rangeable) .closeClass rest

theorem Mode.after_concat (mode : Mode) (tokens : List Token) (t : Token) :
    mode.after (tokens ++ [t]) = (mode.after tokens).next t := by
  rw [after, after, List.foldl_append]
  rfl

theorem Mode.next_ne_outside_iff {mode : Mode} {t : Token} :
    mode.next t ≠ .outside ↔
      (∃ negated, t = .openClass negated) ∨ mode ≠ .outside ∧ t ≠ .closeClass := by
  unfold next
  cases mode <;> cases t <;> simp [afterLiteral, afterShorthand]

theorem Mode.next_eq_inside_true_iff {mode : Mode} {t : Token} :
    mode.next t = .inside true ↔ (∃ byte, t = .literal byte) ∧ mode ≠ .outside := by
  unfold next
  cases mode <;> cases t <;> simp [afterLiteral, afterShorthand]

/-- The mode after some tokens tells whether they end inside of a class. -/
theorem Mode.after_ne_outside_iff {tokens : List Token} :
    Mode.outside.after tokens ≠ .outside ↔ Token.InClass tokens := by
  induction tokens using List.reverseRecOn with
  | nil => exact iff_of_false (· rfl) Token.not_inClass_nil
  | append_singleton tokens t ih => rw [after_concat, next_ne_outside_iff, ih, Token.inClass_concat]

/-- A range may begin after a literal byte of a class. -/
theorem Mode.exists_literal {tokens : List Token}
    (h : Mode.outside.after tokens = .inside true) :
    ∃ before byte, tokens = before ++ [.literal byte] ∧ Token.InClass before := by
  rcases List.eq_nil_or_concat tokens with rfl | ⟨before, t, rfl⟩
  · cases h
  · rw [List.concat_eq_append, after_concat, next_eq_inside_true_iff, after_ne_outside_iff] at h
    obtain ⟨⟨byte, rfl⟩, inClass⟩ := h
    exact ⟨before, byte, by simp, inClass⟩

theorem Mode.Admits.of_ne_outside {mode : Mode} {t : Token} {rest : List UInt8}
    (h : mode.Admits t rest) (inside : mode ≠ .outside) :
    t.IsMember ∨ t = .rangeDash ∨ t = .closeClass := by
  cases h with
  | item | openClass => exact absurd rfl inside
  | member h => exact .inl h
  | rangeDash => exact .inr (.inl rfl)
  | closeClass => exact .inr (.inr rfl)

theorem Mode.Admits.ne_outside {mode : Mode} {t : Token} {rest : List UInt8}
    (h : mode.Admits t rest) (ht : t = .rangeDash ∨ t = .closeClass) : mode ≠ .outside := by
  rintro rfl
  rcases ht with rfl | rfl
  · cases h with
    | item h => cases h
  · cases h with
    | item h => cases h

theorem Mode.Admits.of_rangeDash {mode : Mode} {rest : List UInt8}
    (h : mode.Admits .rangeDash rest) :
    mode = .inside true ∧ ∃ byte rest', rest = byte :: rest' ∧ byte ≠ 0x5d := by
  cases h with
  | item h => cases h
  | member h => cases h
  | rangeDash h => exact ⟨rfl, _, _, rfl, h⟩

theorem Mode.Admits.of_openClass {mode : Mode} {rest : List UInt8}
    (h : mode.Admits (.openClass false) rest) : rest.head? ≠ some 0x5d := by
  cases h with
  | item h => cases h
  | openClass h => exact h rfl
  | member h => cases h

/-- Nothing but members comes where no range may begin. -/
theorem Mode.Admits.isMember {t : Token} {rest : List UInt8}
    (h : (inside false).Admits t rest) (more : t ≠ .closeClass) : t.IsMember := by
  cases h with
  | member h => exact h
  | closeClass => exact absurd rfl more

/-! ## One step -/

/-- What a step from a mode does at a byte: how its token is written, that the mode admits it, and
the mode that comes next. -/
structure Step.Fits (mode : Mode) (byte : UInt8) (rest : List UInt8) (s : Step) : Prop where
  extra : s.extra ≤ rest.length
  written : s.token.WrittenAs (byte :: rest.take s.extra)
  admits : mode.Admits s.token (rest.drop s.extra)
  next : s.mode = mode.next s.token

variable {mode : Mode} {byte : UInt8} {rest : List UInt8}

theorem Mode.admits_literal (mode : Mode) (byte : UInt8) (rest : List UInt8) :
    mode.Admits (.literal byte) rest := by
  cases mode with
  | outside => exact .item rfl
  | inside rangeable => exact .member trivial

theorem Mode.admits_shorthand (mode : Mode) (symbols : SymbolSet) (rest : List UInt8) :
    mode.Admits (.shorthand symbols) rest := by
  cases mode with
  | outside => exact .item rfl
  | inside rangeable => exact .member trivial

theorem fits_literal {value : UInt8} {extra : Nat} (h : extra ≤ rest.length)
    (written : Token.WrittenAs (.literal value) (byte :: rest.take extra)) :
    (Step.literal mode value extra).Fits mode byte rest :=
  ⟨h, written, mode.admits_literal value _, rfl⟩

theorem fits_escape (mode : Mode) (rest : List UInt8) : (escape mode rest).Fits mode 0x5c rest := by
  unfold escape
  split
  · exact fits_literal (Nat.le_refl 0) (.literal 0x5c)
  · rename_i code rest
    have two : 1 ≤ (code :: rest).length := Nat.succ_le_succ (Nat.zero_le _)
    split
    · rename_i value control
      exact fits_literal two (.control control)
    · rename_i noControl
      split
      · rename_i hexadecimal
        subst hexadecimal
        unfold hexByte?
        split
        · rename_i value read
          split at read
          · rename_i high low rest
            exact fits_literal (by simp) (.hexadecimal read)
          · cases read
        · exact fits_literal (Nat.zero_le _) (.literal 0x5c)
      · rename_i other
        split
        · rename_i symbols short
          exact ⟨two, .shorthand short, mode.admits_shorthand symbols _, rfl⟩
        · rename_i noShorthand
          exact fits_literal two (.escaped noControl other noShorthand)

theorem fits_inClass (rangeable : Bool) (byte : UInt8) (rest : List UInt8) :
    (inClass rangeable byte rest).Fits (.inside rangeable) byte rest := by
  unfold inClass
  split
  · rename_i close
    subst close
    exact ⟨Nat.zero_le _, .closeClass, .closeClass, rfl⟩
  · split
    · rename_i dash
      obtain ⟨rfl, rfl, more⟩ := dash
      cases rest with
      | nil => cases more
      | cons next rest => exact ⟨Nat.zero_le _, .rangeDash, .rangeDash (bne_iff_ne.1 more), rfl⟩
    · exact fits_literal (Nat.zero_le _) (.literal byte)

theorem fits_bracket (rest : List UInt8) : (bracket rest).Fits .outside 0x5b rest := by
  unfold bracket
  split
  · exact fits_literal (Nat.zero_le _) (.literal 0x5b)
  · exact ⟨by simp, .openNegated, .openClass nofun, rfl⟩
  · rename_i unclosed _
    refine ⟨Nat.zero_le _, .openClass, .openClass fun _ closed => ?_, rfl⟩
    obtain ⟨rest, rfl⟩ := List.head?_eq_some_iff.1 closed
    exact unclosed _ rfl

/-- What comes before the first closing brace. -/
theorem takeWhile_body {body : List UInt8} (closed : 0x7d ∉ body) (tail : List UInt8) :
    (body ++ 0x7d :: tail).takeWhile (· != 0x7d) = body := by
  have inner : ∀ b ∈ body, (b != 0x7d) = true := fun b hb =>
    bne_iff_ne.2 (ne_of_mem_of_not_mem hb closed)
  rw [List.takeWhile_append_of_pos inner]
  simp

theorem braces_of_some {body : List UInt8} {b : Bounds} (closed : 0x7d ∉ body)
    (read : Bounds.ofText? body = some b) (tail : List UInt8) :
    braces (body ++ 0x7d :: tail) = ⟨.times b, body.length + 1, .outside⟩ := by
  have shorter : body.length < (body ++ 0x7d :: tail).length := by simp
  simp only [braces, takeWhile_body closed, if_pos shorter, read]

theorem braces_of_none {body : List UInt8} (closed : 0x7d ∉ body)
    (read : Bounds.ofText? body = none) (tail : List UInt8) :
    braces (body ++ 0x7d :: tail) = .literal .outside 0x7b 0 := by
  have shorter : body.length < (body ++ 0x7d :: tail).length := by simp
  simp only [braces, takeWhile_body closed, if_pos shorter, read]

/-- Bounds between braces, or a literal brace. -/
theorem braces_cases (rest : List UInt8) :
    (∃ body tail b, rest = body ++ 0x7d :: tail ∧ 0x7d ∉ body ∧ Bounds.ofText? body = some b ∧
        braces rest = ⟨.times b, body.length + 1, .outside⟩) ∨
      (∀ body tail b, rest = body ++ 0x7d :: tail → 0x7d ∉ body → Bounds.ofText? body ≠ some b) ∧
        braces rest = .literal .outside 0x7b 0 := by
  by_cases ends : 0x7d ∈ rest
  · obtain ⟨body, tail, rfl, closed⟩ := List.eq_append_cons_of_mem ends
    cases read : Bounds.ofText? body with
    | some b => exact .inl ⟨body, tail, b, rfl, closed, read, braces_of_some closed read tail⟩
    | none =>
      refine .inr ⟨fun other tail' b same closed' read' => ?_, braces_of_none closed read tail⟩
      have body' := congrArg (List.takeWhile (· != 0x7d)) same
      rw [takeWhile_body closed, takeWhile_body closed'] at body'
      rw [← body', read] at read'
      cases read'
  · refine .inr ⟨fun body tail b same => absurd (by simp [same]) ends, ?_⟩
    have all : rest.takeWhile (· != 0x7d) = rest := by
      rw [List.takeWhile_eq_self_iff]
      exact fun b hb => bne_iff_ne.2 (ne_of_mem_of_not_mem hb ends)
    simp only [braces, all, lt_self_iff_false, if_false]

theorem fits_braces (rest : List UInt8) : (braces rest).Fits .outside 0x7b rest := by
  rcases braces_cases rest with ⟨body, tail, b, rfl, unclosed, read, step⟩ | ⟨-, step⟩
  · have taken : (body ++ 0x7d :: tail).take (body.length + 1) = body ++ [0x7d] :=
      List.take_length_add_append 1
    rw [step]
    refine ⟨by simp, ?_, .item rfl, rfl⟩
    rw [taken]
    exact .braces unclosed read
  · rw [step]
    exact fits_literal (Nat.zero_le _) (.literal 0x7b)

theorem fits_plain (byte : UInt8) (rest : List UInt8) :
    (plain byte rest).Fits .outside byte rest := by
  unfold plain
  split
  · exact fits_bracket rest
  · exact fits_braces rest
  · exact ⟨Nat.zero_le _, .optional, .item rfl, rfl⟩
  · exact ⟨Nat.zero_le _, .plus, .item rfl, rfl⟩
  · exact ⟨Nat.zero_le _, .star, .item rfl, rfl⟩
  · exact ⟨Nat.zero_le _, .openGroup, .item rfl, rfl⟩
  · exact ⟨Nat.zero_le _, .closeGroup, .item rfl, rfl⟩
  · exact ⟨Nat.zero_le _, .alternate, .item rfl, rfl⟩
  · exact ⟨Nat.zero_le _, .dot, .item rfl, rfl⟩
  · exact ⟨Nat.zero_le _, .start, .item rfl, rfl⟩
  · exact ⟨Nat.zero_le _, .stop, .item rfl, rfl⟩
  · exact fits_literal (Nat.zero_le _) (.literal byte)

theorem fits_step (mode : Mode) (byte : UInt8) (rest : List UInt8) :
    (step mode byte rest).Fits mode byte rest := by
  unfold step
  split
  · rename_i backslash
    subst backslash
    exact fits_escape mode rest
  · cases mode with
    | outside => exact fits_plain byte rest
    | inside rangeable => exact fits_inClass rangeable byte rest

/-! ## All steps -/

/-- The lexeme of a step. -/
def Step.lexeme (byte : UInt8) (rest : List UInt8) (s : Step) : Lexeme :=
  ⟨s.token, byte :: rest.take s.extra⟩

theorem scanFrom_cons (mode : Mode) (byte : UInt8) (rest : List UInt8) :
    scanFrom mode 0 (byte :: rest) =
      (step mode byte rest).lexeme byte rest ::
        scanFrom (step mode byte rest).mode 0 (rest.drop (step mode byte rest).extra) := by
  rw [scanFrom, scanFrom_eq_drop]
  rfl

/-- What comes after some lexemes is read from the rest of the text, in the mode after them. -/
theorem exists_rest {text : List UInt8} {before after : List Lexeme}
    (h : scanFrom mode 0 text = before ++ after) :
    ∃ rest, text = before.flatMap (·.text) ++ rest ∧
      after = scanFrom (mode.after (before.map (·.token))) 0 rest := by
  induction before generalizing mode text with
  | nil => exact ⟨text, rfl, h.symm⟩
  | cons l before ih =>
    cases text with
    | nil => cases h
    | cons byte rest =>
      rw [scanFrom_cons, List.cons_append] at h
      obtain ⟨rfl, others⟩ := List.cons.inj h
      obtain ⟨left, dropped, rfl⟩ := ih others
      refine ⟨left, ?_, ?_⟩
      · rw [List.flatMap_cons, List.append_assoc, ← dropped, Step.lexeme, List.cons_append,
          List.take_append_drop]
      · rw [(fits_step mode byte rest).next]
        rfl

/-- The step behind a lexeme. -/
theorem exists_step {regex : List UInt8} {before after : List Lexeme} {l : Lexeme}
    (h : scan regex = before ++ l :: after) :
    ∃ byte rest s, regex = before.flatMap (·.text) ++ byte :: rest ∧
      s = step (Mode.outside.after (before.map (·.token))) byte rest ∧
      l = s.lexeme byte rest ∧ after = scanFrom s.mode 0 (rest.drop s.extra) := by
  obtain ⟨left, text, others⟩ := exists_rest h
  cases left with
  | nil => cases others
  | cons byte rest =>
    rw [scanFrom_cons] at others
    obtain ⟨first, rest'⟩ := List.cons.inj others
    exact ⟨byte, rest, _, text, rfl, first, rest'⟩

theorem written_of_mem_scan {regex : List UInt8} {l : Lexeme} (h : l ∈ scan regex) :
    l.token.WrittenAs l.text := by
  obtain ⟨before, after, split⟩ := List.append_of_mem h
  obtain ⟨byte, rest, s, -, rfl, rfl, -⟩ := exists_step split
  exact (fits_step _ byte rest).written

/-! ## Offsets -/

theorem text_ne_nil {l : Lexeme} (h : l.token.WrittenAs l.text) : l.text ≠ [] := by
  obtain ⟨token, text⟩ := l
  cases h <;> exact List.cons_ne_nil _ _

theorem map_value_locate (offset : Nat) (lexemes : List Lexeme) :
    (locate offset lexemes).map (·.value) = lexemes.map (·.token) := by
  induction lexemes generalizing offset with
  | nil => rfl
  | cons l rest ih => rw [locate, List.map_cons, List.map_cons, ih]

theorem le_offset_of_mem_locate {offset : Nat} {lexemes : List Lexeme} :
    ∀ t ∈ locate offset lexemes, offset ≤ t.offset := by
  induction lexemes generalizing offset with
  | nil => simp [locate]
  | cons l rest ih =>
    rw [locate]
    refine List.forall_mem_cons.2 ⟨Nat.le_refl _, fun t ht => ?_⟩
    exact Nat.le_trans (Nat.le_add_right _ _) (ih t ht)

theorem pairwise_locate {lexemes : List Lexeme} (h : ∀ l ∈ lexemes, l.text ≠ []) (offset : Nat) :
    (locate offset lexemes).Pairwise fun t u => t.offset < u.offset := by
  induction lexemes generalizing offset with
  | nil => exact .nil
  | cons l rest ih =>
    rw [List.forall_mem_cons] at h
    rw [locate]
    refine .cons (fun t ht => ?_) (ih h.2 _)
    have length := List.length_pos_iff.2 h.1
    have later := le_offset_of_mem_locate t ht
    dsimp only
    omega

theorem locate_scanFrom_cons {regex : List UInt8} {offset : Nat}
    (h : regex.drop offset = byte :: rest) :
    locate offset (scanFrom mode 0 (regex.drop offset)) =
      ⟨offset, (step mode byte rest).token⟩ ::
        locate (offset + 1 + (step mode byte rest).extra) (scanFrom (step mode byte rest).mode 0
          (regex.drop (offset + 1 + (step mode byte rest).extra))) := by
  have length : (byte :: rest.take (step mode byte rest).extra).length =
      1 + (step mode byte rest).extra := by
    rw [List.length_cons, List.length_take_of_le (fits_step mode byte rest).extra, Nat.add_comm]
  have dropped : regex.drop (offset + 1 + (step mode byte rest).extra) =
      rest.drop (step mode byte rest).extra := by
    rw [Nat.add_assoc, ← List.drop_drop, h, Nat.add_comm, List.drop_succ_cons]
  rw [h, scanFrom_cons, Step.lexeme, locate, length, ← Nat.add_assoc, dropped]

/-- Where a token ends that some others come after: at the first of them, or with the regex. -/
def stop (regex : List UInt8) (after : List (Located Token)) : Nat :=
  (after.head?.map (·.offset)).getD regex.length

/-- Tokens with the bytes of the regex from each one up to the next. -/
def ofTokens (regex : List UInt8) : List (Located Token) → List Lexeme
  | [] => []
  | t :: after => ⟨t.value, (regex.take (stop regex after)).drop t.offset⟩ :: ofTokens regex after

theorem ofTokens_locate (front : List UInt8) (lexemes : List Lexeme) :
    ofTokens (front ++ lexemes.flatMap (·.text)) (locate front.length lexemes) = lexemes := by
  induction lexemes generalizing front with
  | nil => rfl
  | cons l rest ih =>
    have others := ih (front ++ l.text)
    rw [List.append_assoc, List.length_append] at others
    have stops : stop (front ++ (l.text ++ rest.flatMap (·.text)))
        (locate (front.length + l.text.length) rest) = front.length + l.text.length := by
      cases rest with
      | nil => simp [stop, locate]
      | cons next rest => rfl
    rw [List.flatMap_cons, locate, ofTokens, others, stops, List.take_length_add_append,
      List.drop_left, List.take_left]

theorem scan_eq_ofTokens (regex : List UInt8) : scan regex = ofTokens regex (Token.ofText regex) := by
  have all := ofTokens_locate [] (scan regex)
  rw [List.nil_append, scan_flatMap_text] at all
  exact all.symm

end Lexeme

namespace Token

open Lexeme

theorem exists_of_mem_locate {offset : Nat} {lexemes : List Lexeme} {t : Located Token}
    (h : t ∈ locate offset lexemes) : ∃ before l after, lexemes = before ++ l :: after ∧
      t = ⟨offset + (before.flatMap (·.text)).length, l.token⟩ := by
  induction lexemes generalizing offset with
  | nil => cases h
  | cons l rest ih =>
    rw [locate] at h
    rcases List.mem_cons.1 h with rfl | later
    · exact ⟨[], l, rest, rfl, rfl⟩
    · obtain ⟨before, l', after, rfl, rfl⟩ := ih later
      refine ⟨l :: before, l', after, rfl, ?_⟩
      rw [List.flatMap_cons, List.length_append, Nat.add_assoc]

theorem pairwise_ofText (regex : List UInt8) :
    (ofText regex).Pairwise fun t u => t.offset < u.offset :=
  pairwise_locate (fun _ hl => text_ne_nil (written_of_mem_scan hl)) 0

/-- A token is written where it is found. -/
theorem exists_written {regex : List UInt8} {t : Located Token} (h : t ∈ ofText regex) :
    ∃ text, t.value.WrittenAs text ∧ text <+: regex.drop t.offset := by
  obtain ⟨before, l, after, split, rfl⟩ := exists_of_mem_locate h
  refine ⟨l.text, written_of_mem_scan (by rw [split]; simp), after.flatMap (·.text), ?_⟩
  have text := scan_flatMap_text regex
  rw [split, List.flatMap_append, List.flatMap_cons] at text
  rw [Nat.zero_add, ← text, List.drop_left]

/-- What is found from an offset on, step by step: each token begins at the byte after the one
before it, and the last one ends with the regex. -/
inductive Found (regex : List UInt8) : Mode → Nat → List (Located Token) → Prop
  | stop (mode : Mode) : Found regex mode regex.length []
  | step {mode : Mode} {offset : Nat} {byte : UInt8} {rest : List UInt8}
      {tokens : List (Located Token)} (h : regex.drop offset = byte :: rest)
      (next : Found regex (step mode byte rest).mode (offset + 1 + (step mode byte rest).extra)
        tokens) :
      Found regex mode offset (⟨offset, (step mode byte rest).token⟩ :: tokens)

/-- How tokens of classes follow each other. -/
structure Unnested (tokens : List Token) : Prop where
  /-- In a class there are members, dashes and its end. -/
  inside : ∀ before t after, tokens = before ++ t :: after → InClass before →
    t.IsMember ∨ t = .rangeDash ∨ t = .closeClass
  /-- Dashes and ends of classes are in classes. -/
  outside : ∀ before t after, tokens = before ++ t :: after → t = .rangeDash ∨ t = .closeClass →
    InClass before
  /-- A dash comes after a byte of its class, and before a member of it. -/
  dash : ∀ before after, tokens = before ++ .rangeDash :: after →
    (∃ first byte, before = first ++ [.literal byte] ∧ InClass first) ∧
      ∃ t rest, after = t :: rest ∧ t.IsMember
  /-- A class that is not negated has a member. -/
  opened : ∀ before t after, tokens = before ++ .openClass false :: t :: after → t ≠ .closeClass

theorem Found.eq {regex : List UInt8} {mode : Mode} {offset : Nat} {tokens : List (Located Token)}
    (h : Found regex mode offset tokens) :
    tokens = locate offset (scanFrom mode 0 (regex.drop offset)) := by
  induction h with
  | stop mode =>
    rw [List.drop_length]
    rfl
  | step h _ ih => rw [locate_scanFrom_cons h, ← ih]

theorem found_locate (regex : List UInt8) (mode : Mode) {offset : Nat}
    (h : offset ≤ regex.length) :
    Found regex mode offset (locate offset (scanFrom mode 0 (regex.drop offset))) := by
  -- Tokens take different numbers of bytes, so the induction is on what is left of the regex.
  induction hn : regex.length - offset using Nat.strongRecOn generalizing mode offset with
  | _ n ih =>
    cases left : regex.drop offset with
    | nil =>
      obtain rfl : offset = regex.length := Nat.le_antisymm h (List.drop_eq_nil_iff.1 left)
      exact .stop mode
    | cons byte rest =>
      have extra := (fits_step mode byte rest).extra
      have length : regex.length - offset = rest.length + 1 := by
        rw [← List.length_drop, left, List.length_cons]
      rw [← left, locate_scanFrom_cons left]
      exact .step left (ih _ (by omega) _ (by omega) rfl)

theorem found_iff {regex : List UInt8} {tokens : List (Located Token)} :
    Found regex .outside 0 tokens ↔ tokens = ofText regex := by
  constructor
  · exact Found.eq
  · rintro rfl
    exact found_locate regex .outside (Nat.zero_le _)

/-! ## Classes -/

/-- The step behind a token of a regex. -/
theorem exists_step_ofText {regex : List UInt8} {before after : List Token} {t : Token}
    (h : (ofText regex).map (·.value) = before ++ t :: after) :
    ∃ byte rest s, Step.Fits (Mode.outside.after before) byte rest s ∧ t = s.token ∧
      after = (scanFrom s.mode 0 (rest.drop s.extra)).map (·.token) := by
  rw [ofText, map_value_locate] at h
  obtain ⟨first, others, split, rfl, same⟩ := List.map_eq_append_iff.1 h
  obtain ⟨l, last, rfl, rfl, rfl⟩ := List.map_eq_cons_iff.1 same
  obtain ⟨byte, rest, s, -, rfl, rfl, rfl⟩ := exists_step split
  exact ⟨byte, rest, _, fits_step _ byte rest, rfl, rfl⟩

/-- The first token of a text that does not begin with a closing bracket. -/
theorem exists_first (mode : Mode) {byte : UInt8} (other : byte ≠ 0x5d) (rest : List UInt8) :
    ∃ t after, (scanFrom mode 0 (byte :: rest)).map (·.token) = t :: after ∧
      t ≠ .closeClass ∧ mode.Admits t (rest.drop (step mode byte rest).extra) := by
  have fits := fits_step mode byte rest
  refine ⟨(step mode byte rest).token, _, by rw [scanFrom_cons]; rfl, fun closed => ?_,
    fits.admits⟩
  have written := fits.written
  rw [closed] at written
  generalize rest.take _ = tail at written
  cases written
  exact other rfl

theorem unnested_ofText (regex : List UInt8) : Unnested ((ofText regex).map (·.value)) := by
  constructor
  · intro before t after split inClass
    obtain ⟨byte, rest, s, fits, rfl, -⟩ := exists_step_ofText split
    exact fits.admits.of_ne_outside (Mode.after_ne_outside_iff.2 inClass)
  · intro before t after split closes
    obtain ⟨byte, rest, s, fits, rfl, -⟩ := exists_step_ofText split
    exact Mode.after_ne_outside_iff.1 (fits.admits.ne_outside closes)
  · intro before after split
    obtain ⟨byte, rest, s, fits, dash, rfl⟩ := exists_step_ofText split
    have admits := fits.admits
    rw [← dash] at admits
    obtain ⟨rangeable, next, rest', left, other⟩ := admits.of_rangeDash
    have mode : s.mode = .inside false := by rw [fits.next, ← dash, rangeable]; rfl
    obtain ⟨t, later, found, open_, admitted⟩ := exists_first s.mode other rest'
    refine ⟨Mode.exists_literal rangeable, t, later, by rw [left, found], ?_⟩
    rw [mode] at admitted
    exact admitted.isMember open_
  · intro before t after split
    obtain ⟨byte, rest, s, fits, opens, others⟩ := exists_step_ofText split
    have admits := fits.admits
    rw [← opens] at admits
    have unclosed := admits.of_openClass
    cases left : rest.drop s.extra with
    | nil => rw [left] at others; cases others
    | cons next rest' =>
      have other : next ≠ 0x5d := fun same => unclosed (by rw [left, same]; rfl)
      obtain ⟨first, later, found, open_, -⟩ := exists_first s.mode other rest'
      rw [left, found] at others
      obtain ⟨rfl, -⟩ := List.cons.inj others
      exact open_

/-- A scan from the first byte on ends, at the end of the regex and not beyond it, and finds the
tokens. The first one begins at the first byte and each other one farther on; each is written as
the bytes from its offset to that of the next one, or to the end, and these are all bytes, in
order. Classes do not nest: in a class there are members and dashes between members, and these and
closing brackets are nowhere else. -/
theorem tiles_ofText (regex : List UInt8) :
    (∀ tokens, Found regex .outside 0 tokens ↔ tokens = ofText regex) ∧
      (ofText regex).head?.map (·.offset) = regex.head?.map (fun _ => 0) ∧
      (ofText regex).Pairwise (fun t u => t.offset < u.offset) ∧
      (∀ l ∈ ofTokens regex (ofText regex), l.text ≠ [] ∧ l.token.WrittenAs l.text) ∧
      (ofTokens regex (ofText regex)).flatMap (·.text) = regex ∧
      Unnested ((ofText regex).map (·.value)) := by
  have written : ∀ l ∈ scan regex, l.token.WrittenAs l.text := fun l => written_of_mem_scan
  rw [← scan_eq_ofTokens]
  refine ⟨fun tokens => found_iff, ?_, pairwise_ofText regex, ?_, scan_flatMap_text regex,
    unnested_ofText regex⟩
  · cases regex with
    | nil => rfl
    | cons byte rest =>
      rw [ofText, scan, scanFrom_cons]
      rfl
  · exact fun l hl => ⟨text_ne_nil (written l hl), written l hl⟩

end Token

end PatternGroups
