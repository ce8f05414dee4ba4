import PatternGroups.Proofs.Cutting

/-!
# Topping up, cutting by cutting

Where no cut leaves enough on both sides, what the smaller side lacks is cut off the larger one, and
that may lack something in turn. At each of these cuttings the smaller side has less than is asked
for, so that what is missing is a number, and at most half of what it is cut from.

* `Involves`: the cuttings that one cutting leads to;
* `Involves.enough`: each of them has enough strings for what is asked of it;
* `Cuts.sorted`: the parts are in order, although one is put together from several pieces;
* `split_parts`: how strings that are enough are split.
-/

namespace PatternGroups.PrefixParts

variable {strings inner small large : List String} {least demand w cut : Nat}

/-- That something is missing, as the search for a cut tells it. -/
theorem lacks_iff : Lacks strings least w cut ↔ (neighbourPrefixes strings).min? = some w ∧
    ((weakestCuts strings).find? fun c => least ≤ c && least ≤ strings.length - c) = none ∧
      (weakestCuts strings).getLast? = some cut := by
  constructor
  · rintro ⟨weakest, none, last⟩
    exact ⟨weakest, (find?_weakestCuts_eq_none_iff weakest).2 none,
      (getLast?_weakestCuts weakest).2 last⟩
  · rintro ⟨weakest, none, last⟩
    exact ⟨weakest, (find?_weakestCuts_eq_none_iff weakest).1 none,
      (getLast?_weakestCuts weakest).1 last⟩

/-- The cuttings that the cutting of some strings leads to, with the least size that is asked for in
each. -/
inductive Involves (strings : List String) (least : Nat) : List String → Nat → Prop where
  | itself : Involves strings least strings least
  | topUp {inner small large : List String} {demand w cut : Nat}
      (outer : Involves strings least inner demand) (lacks : Lacks inner demand w cut)
      (sides : cutAt inner cut = (small, large)) :
      Involves strings least large (demand - small.length)

namespace Involves

theorem enough (h : Involves strings least inner demand) (enough : 2 * least ≤ strings.length) :
    2 * demand ≤ inner.length := by
  induction h with
  | itself => exact enough
  | topUp _ lacks sides ih =>
    have sizes := lacks.sizes sides
    omega

end Involves

/-! ## Parts in order -/

theorem sorted_bySize {a b : List String} (ha : Sorted a) (hb : Sorted b) :
    Sorted (bySize a b).1 ∧ Sorted (bySize a b).2 := by
  unfold bySize
  split
  · exact ⟨hb, ha⟩
  · exact ⟨ha, hb⟩

theorem sorted_cutAt (h : Sorted strings) (cut : Nat) :
    Sorted (cutAt strings cut).1 ∧ Sorted (cutAt strings cut).2 :=
  sorted_bySize h.take h.drop

theorem Cuts.sorted {parts : List String × List String} (h : Cuts strings least parts)
    (sorted : Sorted strings) : Sorted parts.1 ∧ Sorted parts.2 := by
  induction h with
  | few _ => exact ⟨.nil, sorted⟩
  | between _ _ => exact sorted_cutAt sorted _
  | @toppedUp strings small large more rest least w cut _ sides _ _ ih =>
    have larger := (sorted_cutAt sorted cut).2
    rw [sides] at larger
    exact sorted_bySize (sorted_sort _) (ih larger).2

/-! ## Splitting -/

/-- Strings that are enough are split in one way. In every cutting on the way the smaller side has no
more than is asked for, so that what is missing can be told, and less is left to cut. The parts have
all strings, each in order, the smaller part first; and of two strings or more each part has one. -/
theorem split_parts (strings : List String) (least : Nat) (enough : 2 * least ≤ strings.length) :
    ∃ small large, split? strings least = .ok (small, large) ∧
      (∀ parts, Cuts (sort strings) least parts ↔ parts = (small, large)) ∧
      (∀ {inner few many : List String} {demand w cut : Nat},
        Involves (sort strings) least inner demand → Lacks inner demand w cut →
        cutAt inner cut = (few, many) →
          few.length ≤ demand ∧ 2 * demand ≤ inner.length ∧ many.length < inner.length) ∧
      (small ++ large).Perm strings ∧ Sorted small ∧ Sorted large ∧
      small.length ≤ large.length ∧ (2 ≤ strings.length → small ≠ [] ∧ large ≠ []) := by
  obtain ⟨small, large, split, cuts⟩ := exists_split enough
  have enoughSorted : 2 * least ≤ (sort strings).length := by rwa [(sort_perm strings).length_eq]
  obtain ⟨first, second⟩ := cuts.sorted (sorted_sort strings)
  refine ⟨small, large, split, fun parts => ⟨fun other => other.unique cuts, ?_⟩, ?_,
    cuts.perm.trans (sort_perm strings), first, second, cuts.length_le, fun two => ?_⟩
  · rintro rfl
    exact cuts
  · intro inner few many demand w cut involved lacks sides
    have left := involved.enough enoughSorted
    have sizes := lacks.sizes sides
    omega
  · obtain ⟨_, positive, shorter⟩ := sizes_of_cuts cuts two
    exact ⟨List.ne_nil_of_length_pos positive, List.ne_nil_of_length_pos (by omega)⟩

/-- Beside `a` two strings are missing, and beside `ba` one of these. -/
theorem split_parts_nested : ∃ strings : List String,
    strings = ["bbd", "a", "ba", "bbc", "bba", "bbb"] ∧ 2 * 3 ≤ strings.length ∧
      split? strings 3 = .ok (["a", "ba", "bba"], ["bbb", "bbc", "bbd"]) ∧
      Involves (sort strings) 3 ["ba", "bba", "bbb", "bbc", "bbd"] 2 ∧
      Lacks ["ba", "bba", "bbb", "bbc", "bbd"] 2 1 1 ∧
      (["a", "ba", "bba"] ++ ["bbb", "bbc", "bbd"]).Perm strings ∧
      Sorted ["a", "ba", "bba"] ∧ Sorted ["bbb", "bbc", "bbd"] ∧
      (cutAt ["ba", "bba", "bbb", "bbc", "bbd"] 1).1.length ≤ 2 := by
  refine ⟨_, rfl, by decide, ?_⟩
  have order : sort ["bbd", "a", "ba", "bbc", "bba", "bbb"] =
      ["a", "ba", "bba", "bbb", "bbc", "bbd"] := by decide +kernel
  have cut : cutSorted 6 ["a", "ba", "bba", "bbb", "bbc", "bbd"] 3 =
      (["a", "ba", "bba"], ["bbb", "bbc", "bbd"]) := by decide +kernel
  have outer : Lacks ["a", "ba", "bba", "bbb", "bbc", "bbd"] 3 0 1 :=
    lacks_iff.2 (by decide +kernel)
  have inner : Lacks ["ba", "bba", "bbb", "bbc", "bbd"] 2 1 1 := lacks_iff.2 (by decide +kernel)
  have sides : cutAt ["a", "ba", "bba", "bbb", "bbc", "bbd"] 1 =
      (["a"], ["ba", "bba", "bbb", "bbc", "bbd"]) := by decide +kernel
  have involved : Involves ["a", "ba", "bba", "bbb", "bbc", "bbd"] 3
      ["ba", "bba", "bbb", "bbc", "bbd"] 2 := .topUp .itself outer sides
  have found : split? ["bbd", "a", "ba", "bbc", "bba", "bbb"] 3 =
      .ok (["a", "ba", "bba"], ["bbb", "bbc", "bbd"]) := by
    rw [split?_of_le (by decide), order]
    exact congrArg Except.ok cut
  obtain ⟨small, large, split, _, tops, same, first, second, _⟩ :=
    split_parts ["bbd", "a", "ba", "bbc", "bba", "bbb"] 3 (by decide)
  obtain ⟨rfl, rfl⟩ := Prod.mk.inj (Except.ok.inj (split.symm.trans found))
  rw [order] at tops ⊢
  exact ⟨found, involved, inner, same, first, second, (tops involved inner rfl).1⟩

end PatternGroups.PrefixParts
