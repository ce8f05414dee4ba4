import PatternGroups.Proofs.Cutting

/-!
# How large the parts of a split are

The part that tops up the smaller side may be larger than what is missing, up to half of the larger
side. Then what is left of that may be smaller than the least size. It is more than half of it in
any case, and it is never too small if there are about three times as many strings.

* `Cuts.le_length_iff`: the parts are large enough unless some topping up takes too much;
* `Cuts.lt_two_mul_length`, `Cuts.le_length_of_three_mul_le`: what the smaller part has at least;
* `exists_overdrawn`: with fewer strings, there are some that are split in too small a part.
-/

namespace PatternGroups.PrefixParts

variable {strings : List String} {least w cut : Nat}

/-! ## Toppings up that take too much -/

/-- Some topping up leaves less of the larger side than the least size at its depth. -/
inductive Overdrawn : (strings : List String) → (least : Nat) → Prop where
  | here {strings small large more rest : List String} {least w cut : Nat}
      (lacks : Lacks strings least w cut) (sides : cutAt strings cut = (small, large))
      (taken : Cuts large (least - small.length) (more, rest)) (little : rest.length < least) :
      Overdrawn strings least
  | deeper {strings small large : List String} {least w cut : Nat}
      (lacks : Lacks strings least w cut) (sides : cutAt strings cut = (small, large))
      (taken : Overdrawn large (least - small.length)) : Overdrawn strings least

theorem Overdrawn.exists_lacks (h : Overdrawn strings least) :
    ∃ w cut, Lacks strings least w cut := by
  cases h with
  | here lacks _ _ _ => exact ⟨_, _, lacks⟩
  | deeper lacks _ _ => exact ⟨_, _, lacks⟩

namespace Cuts

variable {parts : List String × List String} (h : Cuts strings least parts)
include h

theorem le_length_iff (enough : 2 * least ≤ strings.length) :
    least ≤ parts.1.length ↔ ¬Overdrawn strings least := by
  induction h with
  | @few strings least few =>
    have zero : least ≤ 0 := by omega
    refine iff_of_true zero fun overdrawn => ?_
    obtain ⟨_, _, lacks⟩ := overdrawn.exists_lacks
    exact absurd few (Nat.not_lt.2 lacks.two_le_length)
  | between weakest first =>
    refine iff_of_true first.1.le_length fun overdrawn => ?_
    obtain ⟨_, _, lacks⟩ := overdrawn.exists_lacks
    exact lacks.not_suits weakest first.1
  | @toppedUp strings small large more rest least w cut lacks sides missing taken ih =>
    obtain ⟨all, _, _, _⟩ := lacks.sizes sides
    have inner : least - small.length ≤ more.length ↔ ¬Overdrawn large (least - small.length) :=
      ih (by omega)
    have both : least ≤ min (small.length + more.length) rest.length ↔
        least ≤ rest.length ∧ least - small.length ≤ more.length := by omega
    rw [length_toppedUp, both, inner, ← Nat.not_lt, ← not_or]
    refine not_congr ⟨?_, fun overdrawn => ?_⟩
    · rintro (little | overdrawn)
      · exact .here lacks sides taken little
      · exact .deeper lacks sides overdrawn
    · cases overdrawn with
      | here lacks' sides' taken' little =>
        obtain ⟨rfl, rfl⟩ := lacks.sides_unique lacks' sides sides'
        obtain ⟨rfl, rfl⟩ := Prod.mk.inj (taken.unique taken')
        exact .inl little
      | deeper lacks' sides' overdrawn =>
        obtain ⟨rfl, rfl⟩ := lacks.sides_unique lacks' sides sides'
        exact .inr overdrawn

/-- Half of the larger side is left after each topping up, and the smaller side is only part of what
is missing. -/
theorem lt_two_mul_length (enough : 2 * least ≤ strings.length) (positive : 0 < least) :
    least < 2 * parts.1.length := by
  induction h with
  | few few => omega
  | between _ first =>
    have large := first.1.le_length
    omega
  | @toppedUp strings small large more rest least w cut lacks sides _ taken ih =>
    obtain ⟨all, _, _, missing⟩ := lacks.sizes sides
    have inner : least - small.length < 2 * more.length := ih (by omega) (by omega)
    have whole : more.length + rest.length = large.length := taken.length_add
    have shorter : more.length ≤ rest.length := taken.length_le
    rw [length_toppedUp]
    omega

theorem le_length_of_three_mul_le (enough : 2 * least ≤ strings.length)
    (many : 3 * least ≤ strings.length + 2) : least ≤ parts.1.length := by
  induction h with
  | few few => omega
  | between _ first => exact first.1.le_length
  | @toppedUp strings small large more rest least w cut lacks sides _ taken ih =>
    obtain ⟨all, _, _, missing⟩ := lacks.sizes sides
    have inner : least - small.length ≤ more.length := ih (by omega) (by omega)
    have whole : more.length + rest.length = large.length := taken.length_add
    have shorter : more.length ≤ rest.length := taken.length_le
    rw [length_toppedUp]
    omega

end Cuts

/-! ## Strings that are split badly -/

theorem cutAt_append {l k : List String} (shorter : l.length ≤ k.length) :
    cutAt (l ++ k) l.length = (l, k) := by
  rw [cutAt, List.take_left, List.drop_left, bySize, if_neg (Nat.not_lt.2 shorter)]

section Blocks

variable {l k : List String} (hl : l ≠ []) (hk : k ≠ [])
  (left : ∀ a ∈ l, ∀ b ∈ l, w < commonPrefix a b)
  (right : ∀ a ∈ k, ∀ b ∈ k, w < commonPrefix a b)
  (across : ∀ a ∈ l, ∀ b ∈ k, commonPrefix a b = w)
include hl hk left right across

/-- Of two blocks of strings that share more among themselves than with each other, the only place
to cut is between them. -/
theorem suits_append_iff : Suits (l ++ k) 0 w cut ↔ cut = l.length := by
  have some := List.length_pos_iff.2 hl
  constructor
  · intro h
    obtain ⟨a, b, ha, hb, shared⟩ := h.shared
    have positive := h.positive
    rcases Nat.lt_trichotomy cut l.length with before | same | after
    · rw [List.getElem?_append_left (by omega)] at ha
      rw [List.getElem?_append_left before] at hb
      have more := left a (List.mem_of_getElem? ha) b (List.mem_of_getElem? hb)
      omega
    · exact same
    · rw [List.getElem?_append_right (by omega)] at ha
      rw [List.getElem?_append_right (by omega)] at hb
      have more := right a (List.mem_of_getElem? ha) b (List.mem_of_getElem? hb)
      omega
  · rintro rfl
    refine ⟨some, ⟨l.getLast hl, k.head hk, ?_, ?_, ?_⟩, Nat.zero_le _, Nat.zero_le _⟩
    · rw [List.getElem?_append_left (by omega), ← List.getLast?_eq_getElem?,
        List.getLast?_eq_getLast_of_ne_nil hl]
    · rw [List.getElem?_append_right (Nat.le_refl _), Nat.sub_self, ← List.head?_eq_getElem?,
        List.head?_eq_some_head hk]
    · exact across _ (List.getLast_mem hl) _ (List.head_mem hk)

theorem min?_neighbourPrefixes_append : (neighbourPrefixes (l ++ k)).min? = some w := by
  rw [List.min?_eq_some_iff]
  constructor
  · obtain ⟨a, b, ha, hb, shared⟩ :=
      ((suits_append_iff hl hk left right across).2 rfl).shared
    have some := List.length_pos_iff.2 hl
    rw [← Nat.sub_add_cancel some] at hb
    exact List.mem_of_getElem? (getElem?_neighbourPrefixes.2 ⟨a, b, ha, hb, shared⟩)
  · rw [← forall_le_pairPrefixes, forall_pairPrefixes]
    refine List.pairwise_append.2 ⟨?_, ?_, fun a ha b hb => (across a ha b hb).ge⟩
    · exact List.pairwise_of_forall_mem_list fun a ha b hb => (left a ha b hb).le
    · exact List.pairwise_of_forall_mem_list fun a ha b hb => (right a ha b hb).le

theorem cuts_append (before : least ≤ l.length) (after : least ≤ k.length)
    (shorter : l.length ≤ k.length) : Cuts (l ++ k) least (l, k) := by
  have suits {c : Nat} : Suits (l ++ k) 0 w c ↔ c = l.length :=
    suits_append_iff hl hk left right across
  have first : IsLeast {c | Suits (l ++ k) least w c} l.length := by
    refine ⟨suits_iff.2 ⟨suits.2 rfl, before, ?_⟩, fun c other => ?_⟩
    · rwa [List.length_append, Nat.add_sub_cancel_left]
    · exact (suits.1 (suits_iff.1 other).1).ge
  rw [← cutAt_append shorter]
  exact .between (min?_neighbourPrefixes_append hl hk left right across) first

theorem lacks_append (missing : l.length < least) : Lacks (l ++ k) least w l.length := by
  have suits {c : Nat} : Suits (l ++ k) 0 w c ↔ c = l.length :=
    suits_append_iff hl hk left right across
  refine ⟨min?_neighbourPrefixes_append hl hk left right across, fun c other => ?_,
    suits.2 rfl, fun c other => (suits.1 other).le⟩
  obtain rfl := suits.1 (suits_iff.1 other).1
  exact Nat.not_le.2 missing other.before

end Blocks

theorem replicate_ne_nil {count : Nat} {a : String} (h : 0 < count) :
    List.replicate count a ≠ [] :=
  List.ne_nil_of_length_pos (by rwa [List.length_replicate])

theorem forall_mem_replicate {p : String → Prop} {a : String} (h : p a) (count : Nat) :
    ∀ b ∈ List.replicate count a, p b :=
  List.forall_mem_replicate.2 (.inr h)

/-- Strings of two kinds, which share a letter. -/
def halves (i j : Nat) : List String := List.replicate i "ba" ++ List.replicate j "bb"

section Halves

variable {i j : Nat}

theorem forall_mem_halves {p : String → Prop} (first : p "ba") (second : p "bb") :
    ∀ a ∈ halves i j, p a :=
  List.forall_mem_append.2 ⟨forall_mem_replicate first i, forall_mem_replicate second j⟩

theorem length_halves (i j : Nat) : (halves i j).length = i + j := by
  rw [halves, List.length_append, List.length_replicate, List.length_replicate]

theorem cuts_halves (hi : 0 < i) (hij : i ≤ j) :
    Cuts (halves i j) 1 (List.replicate i "ba", List.replicate j "bb") := by
  have hj : 0 < j := Nat.lt_of_lt_of_le hi hij
  refine cuts_append (w := 1) (replicate_ne_nil hi) (replicate_ne_nil hj) ?_ ?_ ?_ ?_ ?_ ?_
  · exact forall_mem_replicate (forall_mem_replicate (by decide +kernel) i) i
  · exact forall_mem_replicate (forall_mem_replicate (by decide +kernel) j) j
  · exact forall_mem_replicate (forall_mem_replicate (by decide +kernel) j) i
  · rwa [List.length_replicate]
  · rwa [List.length_replicate]
  · rwa [List.length_replicate, List.length_replicate]

/-- Some strings that share nothing with the others, but are too few. -/
theorem lacks_halves {count : Nat} (hc : 0 < count) (hi : 0 < i) (missing : count < least) :
    Lacks (List.replicate count "a" ++ halves i j) least 0 count := by
  have some : halves i j ≠ [] := List.append_ne_nil_of_left_ne_nil (replicate_ne_nil hi) _
  have length : (List.replicate count "a").length = count := List.length_replicate
  rw [← length] at missing
  have lacks := lacks_append (w := 0) (k := halves i j) (replicate_ne_nil hc) some
    (forall_mem_replicate (forall_mem_replicate (by decide +kernel) count) count)
    (forall_mem_halves (forall_mem_halves (by decide +kernel) (by decide +kernel))
      (forall_mem_halves (by decide +kernel) (by decide +kernel)))
    (forall_mem_replicate (forall_mem_halves (by decide +kernel) (by decide +kernel)) count)
    missing
  rwa [length] at lacks

theorem sort_halves (count i j : Nat) :
    sort (List.replicate count "a" ++ halves i j) = List.replicate count "a" ++ halves i j := by
  have same (n : Nat) (a : String) :
      (List.replicate n a).Pairwise fun b c => decide (b ≤ c) = true :=
    List.pairwise_replicate.2 (.inr (decide_eq_true (String.le_refl a)))
  refine Sorting.sort_eq_self (List.pairwise_append.2 ⟨same count "a", ?_, ?_⟩)
  · exact List.pairwise_append.2 ⟨same i "ba", same j "bb",
      forall_mem_replicate (forall_mem_replicate (by decide) j) i⟩
  · exact forall_mem_replicate (forall_mem_halves (by decide) (by decide)) count

end Halves

/-- Strings that are too few by one, and strings that are best split in halves. -/
theorem exists_overdrawn {count : Nat} (enough : 2 * least ≤ count) (few : count + 2 < 3 * least) :
    ∃ strings : List String, strings.length = count ∧ Overdrawn (sort strings) least := by
  obtain ⟨missing, rfl⟩ : ∃ i, least = i + 1 := Nat.exists_eq_add_of_le' (by omega)
  -- As few as these are, the larger half is too small as well.
  obtain ⟨i, j, hi, hij, hj, all⟩ :
      ∃ i j, 0 < i ∧ i ≤ j ∧ j ≤ missing ∧ missing + (i + j) = count :=
    ⟨(count - missing) / 2, count - missing - (count - missing) / 2, by omega⟩
  have length : (List.replicate missing "a").length = missing := List.length_replicate
  have shorter : (List.replicate missing "a").length ≤ (halves i j).length := by
    rw [length, length_halves]
    omega
  have sides := cutAt_append shorter
  rw [length] at sides
  refine ⟨List.replicate missing "a" ++ halves i j, ?_, ?_⟩
  · rw [List.length_append, length, length_halves, all]
  · rw [sort_halves]
    have taken : Cuts (halves i j) (missing + 1 - (List.replicate missing "a").length)
        (List.replicate i "ba", List.replicate j "bb") := by
      rw [length, Nat.add_sub_cancel_left]
      exact cuts_halves hi hij
    refine .here (lacks_halves (by omega) hi (Nat.lt_succ_self missing)) sides taken ?_
    rw [List.length_replicate]
    exact Nat.lt_succ_of_le hj

/-! ## Parts of a split -/

/-- Both parts of a split have the least size exactly if no topping up takes too much. The larger
part has it in any case, and the smaller part more than half of it. It has the least size for all
lists of as many strings exactly if that number is at least three times the least size, less two. -/
theorem split_least (strings : List String) (least : Nat) (enough : 2 * least ≤ strings.length) :
    (∃ small large, split? strings least = .ok (small, large) ∧
      Cuts (sort strings) least (small, large) ∧
      small.length ≤ large.length ∧ least ≤ large.length ∧
      (0 < least → least < 2 * small.length) ∧
      (least ≤ small.length ↔ ¬Overdrawn (sort strings) least)) ∧
    ((∀ others : List String, others.length = strings.length →
      ∃ small large, split? others least = .ok (small, large) ∧
        least ≤ small.length ∧ least ≤ large.length) ↔ 3 * least ≤ strings.length + 2) := by
  constructor
  · obtain ⟨small, large, parts, cuts⟩ := exists_split enough
    have sorted : 2 * least ≤ (sort strings).length := by rwa [(sort_perm strings).length_eq]
    have all : small.length + large.length = (sort strings).length := cuts.length_add
    have shorter : small.length ≤ large.length := cuts.length_le
    exact ⟨small, large, parts, cuts, shorter, by omega, cuts.lt_two_mul_length sorted,
      cuts.le_length_iff sorted⟩
  · constructor
    · intro always
      by_contra few
      obtain ⟨others, count, overdrawn⟩ := exists_overdrawn enough (Nat.lt_of_not_le few)
      obtain ⟨small, large, parts, first, _⟩ := always others count
      obtain ⟨small', large', parts', cuts⟩ := exists_split (count ▸ enough)
      obtain ⟨rfl, rfl⟩ := Prod.mk.inj (Except.ok.inj (parts.symm.trans parts'))
      have sorted : 2 * least ≤ (sort others).length := by
        rwa [(sort_perm others).length_eq, count]
      exact (cuts.le_length_iff sorted).1 first overdrawn
    · intro many others count
      obtain ⟨small, large, parts, cuts⟩ := exists_split (count ▸ enough)
      have length : (sort others).length = strings.length := by
        rw [(sort_perm others).length_eq, count]
      have first : least ≤ small.length :=
        cuts.le_length_of_three_mul_le (length ▸ enough) (length ▸ many)
      exact ⟨small, large, parts, first, Nat.le_trans first cuts.length_le⟩

/-- The only string that starts with `a` is topped up with two others. -/
theorem split_least_topped_up : 2 * 3 ≤ ["a", "ba", "bb", "bc", "bd", "be"].length ∧
    split? ["a", "ba", "bb", "bc", "bd", "be"] 3 = .ok (["a", "ba", "bb"], ["bc", "bd", "be"]) ∧
    ¬Overdrawn (sort ["a", "ba", "bb", "bc", "bd", "be"]) 3 := by
  obtain ⟨⟨small, large, parts, _, _, _, _, condition⟩, _⟩ :=
    split_least ["a", "ba", "bb", "bc", "bd", "be"] 3 (by decide)
  have cut : cutSorted 6 (sort ["a", "ba", "bb", "bc", "bd", "be"]) 3 =
      (["a", "ba", "bb"], ["bc", "bd", "be"]) := by decide +kernel
  have split : split? ["a", "ba", "bb", "bc", "bd", "be"] 3 =
      .ok (["a", "ba", "bb"], ["bc", "bd", "be"]) :=
    (split?_of_le (by decide)).trans (congrArg Except.ok cut)
  obtain ⟨rfl, rfl⟩ := Prod.mk.inj (Except.ok.inj (parts.symm.trans split))
  exact ⟨by decide, split, condition.1 (by decide)⟩

/-- One string is missing beside `aa` and `ab`, but two are taken of the four others. -/
theorem split_least_missed : 2 * 3 ≤ ["aa", "ab", "baa", "bab", "bba", "bbb"].length ∧
    ¬∃ small large, split? ["aa", "ab", "baa", "bab", "bba", "bbb"] 3 = .ok (small, large) ∧
      3 ≤ small.length ∧ 3 ≤ large.length := by
  refine ⟨by decide, ?_⟩
  rintro ⟨small, large, parts, first, _⟩
  have cut : cutSorted 6 (sort ["aa", "ab", "baa", "bab", "bba", "bbb"]) 3 =
      (["bba", "bbb"], ["aa", "ab", "baa", "bab"]) := by decide +kernel
  have split : split? ["aa", "ab", "baa", "bab", "bba", "bbb"] 3 =
      .ok (["bba", "bbb"], ["aa", "ab", "baa", "bab"]) :=
    (split?_of_le (by decide)).trans (congrArg Except.ok cut)
  obtain ⟨rfl, rfl⟩ := Prod.mk.inj (Except.ok.inj (parts.symm.trans split))
  exact absurd first (by decide)

end PatternGroups.PrefixParts
